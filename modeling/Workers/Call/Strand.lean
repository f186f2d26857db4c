import Workers.Call.Library
import Workers.Call.Sleep
import Workers.World.Probe
/-! # Strands

A strand is the activity of one thread in a context, cut into steps that no other thread can
divide.  It runs a scheduler; while the code of the active runnable calls back into the context,
the strand runs the scheduler of that call and keeps the caller waiting.
-/
namespace Workers

/-- On whose behalf an act is performed. -/
inductive Role (F : Type) where
  /-- The step of the top runnable of a scheduler. -/
  | step (below : List F)
  /-- An offer to the parent of a child that ended. -/
  | receive (below : List F) (unwound : List String)
  /-- One step of a runnable outside of any scheduler. -/
  | loneStep
  /-- One offer to a runnable outside of any scheduler. -/
  | loneReceive
  /-- A call or a library call made from outside. -/
  | outside

/-- What an act has to come up with in a role. -/
abbrev Role.Report {F : Type} : Role F → Type
  | step _ | loneStep => F × Move F
  | receive .. | loneReceive => Reception F
  | outside => Outcome

inductive Exit (F : Type) where
  | ended (outcome : Outcome) (left : List F)
  | stepped (frame : F) (move : Move F)
  | received (frame : F) (accepted : Except Fault Unit)
  | panicked (text : String)

/-- Code that waits for the outcome of a call it has made. -/
structure Caller (F : Type) where
  role : Role F
  resume : Outcome → Act role.Report

inductive Phase (F : Type) where
  | turn (t : Turn F)
  | acting (role : Role F) (act : Act role.Report)
  /-- In the tick that is due before the stack can go on. -/
  | counting (probe : Probe) (stack : List F)
  /-- In a check that the code has asked for. -/
  | checking (probe : Probe) (role : Role F) (k : Bool → Act role.Report)
  /-- In a wait that the code has asked for, up to a deadline. -/
  | waiting (n : NotifierId) (deadline : Nat) (role : Role F) (k : Bool → Act role.Report)
  | exit (e : Exit F)

structure Strand (F : Type) where
  phase : Phase F
  callers : List (Caller F) := []

/-- What a thread can do: go on to another state, or only wait, perhaps up to some time. -/
inductive Progress (σ : Type) where
  | ran (state : σ) (w : World)
  | blocked (deadline : Option Nat)

def Progress.map {σ τ : Type} (f : σ → τ) : Progress σ → Progress τ
  | ran state w => ran (f state) w
  | blocked deadline => blocked deadline

namespace Strand

def ofStack {F : Type} (stack : List F) : Strand F := { phase := .turn (.count stack) }

def ofCall {F : Type} (f : Routine) (arguments : List Value) : Strand F :=
  { phase := .acting .outside (.call f arguments .done) }

def ofAct {F : Type} (act : Act (Except Unwind Unit)) : Strand F :=
  { phase := .acting .outside do
      match ← act with
      | .ok _ => pure (.ok [])
      | .error unwind => pure (.error unwind) }

variable {U N : Type}

def ofStep (lib : Library U N) (frame : Frame U N) : Strand (Frame U N) :=
  { phase := .acting .loneStep (lib.advance frame) }

def ofReceive (lib : Library U N) (frame : Frame U N) (outcome : Except Fault (List Value)) :
    Strand (Frame U N) :=
  { phase := .acting .loneReceive (lib.accept outcome frame) }

def exit? (s : Strand (Frame U N)) : Option (Exit (Frame U N)) :=
  match s.phase with
  | .exit e => some e
  | _ => none

/-- What follows when an act has come up with its report. -/
def afterAct (lib : Library U N) (stopping : Bool) :
    (role : Role (Frame U N)) → role.Report → Phase (Frame U N)
  | .step below, (frame,move) =>
    .turn (Turn.afterStep lib.describeFrame stopping frame move below)
  | .receive below unwound, (frame,accepted) =>
    .turn (Turn.afterReceive lib.describeFrame frame accepted below unwound)
  | .loneStep, (frame,.again) => .acting .loneStep (lib.advance frame)
  | .loneStep, (frame,move) => .exit (.stepped frame move)
  | .loneReceive, (frame,accepted) => .exit (.received frame accepted)
  | .outside, outcome => .exit (.ended outcome [])

/-- One step of a turn.  Only counting looks at the hook, and only the end of a scheduler at the
callers. -/
def stepTurn (lib : Library U N) (c : ContextId) (w : World) (callers : List (Caller (Frame U N))) :
    Turn (Frame U N) → Strand (Frame U N) × World
  | .count stack =>
    let (count,context) := (w.context c).countInstruction
    let w := w.setContext c context
    match count, context.hook with
    | .stop, _ => ({ phase := .turn (Turn.afterCount true stack), callers },w)
    | .tick, some hook => ({ phase := .counting (Probe.start hook .tick) stack, callers },w)
    | _, _ => ({ phase := .turn (Turn.afterCount false stack), callers },w)
  | .step active below => ({ phase := .acting (.step below) (lib.advance active), callers },w)
  | .offer parent below outcome unwound =>
    ({ phase := .acting (.receive below unwound) (lib.accept outcome parent), callers },w)
  | .escape fault unwound =>
    let fault := (w.context c).handleFault fault unwound
    ({ phase := .turn (.ended (.error (.fault fault)) []), callers },w)
  | .ended outcome left =>
    match callers with
    | [] => ({ phase := .exit (.ended outcome left) },w)
    | caller :: callers => ({ phase := .acting caller.role (caller.resume outcome), callers },w)

/-- One step of an act.  A call in a stopping context is not even loaded. -/
def stepAct (lib : Library U N) (c : ContextId) (w : World) (callers : List (Caller (Frame U N)))
    (role : Role (Frame U N)) : Act role.Report → Strand (Frame U N) × World
  | .done report => ({ phase := afterAct lib (w.context c).stopping role report, callers },w)
  | .query q k =>
    let (answer,w) := w.answer c q
    ({ phase := .acting role (k answer), callers },w)
  | .check kind k =>
    match (w.context c).hook with
    | none => ({ phase := .acting role (k false), callers },w)
    | some hook => ({ phase := .checking (Probe.start hook kind) role k, callers },w)
  | .wait n d k => ({ phase := .waiting n (w.after d.millis) role k, callers },w)
  | .call f arguments k =>
    let context := w.context c
    if context.stopping then ({ phase := .acting role (k (.error .stop)), callers },w)
    else
      match lib.load f arguments with
      | .error fault =>
        let fault := context.handleFault fault []
        ({ phase := .acting role (k (.error (.fault fault))), callers },w)
      | .ok frame => ({ phase := .turn (.count [frame]), callers := ⟨role,k⟩ :: callers },w)
  | .panic text => ({ phase := .exit (.panicked text) },w)

/-- Remembers in the context whether a check has signalled stop. -/
def observe (w : World) (c : ContextId) (stopped : Bool) : World :=
  w.setContext c ((w.context c).observe stopped)

def step (lib : Library U N) (c : ContextId) (w : World) (s : Strand (Frame U N)) :
    Progress (Strand (Frame U N)) :=
  match s.phase with
  | .turn t =>
    let (s,w) := stepTurn lib c w s.callers t
    .ran s w
  | .acting role act =>
    let (s,w) := stepAct lib c w s.callers role act
    .ran s w
  | .counting probe stack =>
    match probe.step w with
    | .goto next w => .ran { s with phase := .counting next stack } w
    | .finish stopped w =>
      .ran { s with phase := .turn (Turn.afterCount stopped stack) } (observe w c stopped)
    | .blocked => .blocked none
  | .checking probe role k =>
    match probe.step w with
    | .goto next w => .ran { s with phase := .checking next role k } w
    | .finish stopped w => .ran { s with phase := .acting role (k stopped) } (observe w c stopped)
    | .blocked => .blocked none
  | .waiting n deadline role k =>
    if w.isNotified n then .ran { s with phase := .acting role (k true) } w
    else if deadline ≤ w.clock then .ran { s with phase := .acting role (k false) } w
    else .blocked (some deadline)
  | .exit _ => .blocked none

end Strand

end Workers
