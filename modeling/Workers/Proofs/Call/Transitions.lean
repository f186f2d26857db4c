import Workers.Call.Strand
import Workers.Proofs.World
/-! # What a step can be

The steps of a strand, each with where it begins, what holds there, and what comes of it.  A step is
taken apart here, and what steps keep is told transition by transition.
-/
namespace Workers

namespace Context

theorem countInstruction_eq_stop (c : Context) : c.countInstruction.1 = .stop ↔ c.stopping = true := by
  unfold countInstruction
  split
  · simp_all
  · split
    · simp_all
    · dsimp only
      split <;> simp_all

theorem hook_countInstruction (c : Context) : c.countInstruction.2.hook = c.hook := by
  unfold countInstruction
  split
  · rfl
  · split
    · rfl
    · simp only
      split <;> rfl

end Context

variable {U N : Type}

def World.counted (w : World) (c : ContextId) : World := w.setContext c (w.context c).countInstruction.2

namespace Strand

/-- A step in the given world, from one strand to the next and the world that it leaves. -/
inductive Transition (lib : Library U N) (c : ContextId) (w : World) :
    Strand (Frame U N) → Strand (Frame U N) → World → Prop
  | countedOut (stack : List (Frame U N)) (callers : List (Caller (Frame U N)))
      (hstop : (w.context c).stopping = true) :
      Transition lib c w ⟨.turn (.count stack),callers⟩ ⟨.turn (.ended (.error .stop) stack),callers⟩ w
  | due {hook : Hook} (stack : List (Frame U N)) (callers : List (Caller (Frame U N)))
      (hgo : ¬ (w.context c).stopping = true) (hhook : (w.context c).hook = some hook) :
      Transition lib c w ⟨.turn (.count stack),callers⟩
        ⟨.counting (Probe.start hook .tick) stack,callers⟩ (w.counted c)
  | counted (stack : List (Frame U N)) (callers : List (Caller (Frame U N)))
      (hgo : ¬ (w.context c).stopping = true) :
      Transition lib c w ⟨.turn (.count stack),callers⟩
        ⟨.turn (Turn.afterCount false stack),callers⟩ (w.counted c)
  | plainStep (r : Frame U N) (below : List (Frame U N)) (callers : List (Caller (Frame U N))) :
      Transition lib c w ⟨.turn (.step r below),callers⟩
        ⟨.acting (.step below) (lib.advance r),callers⟩ w
  | offers (r : Frame U N) (below : List (Frame U N)) (outcome : Except Fault (List Value))
      (unwound : List String) (callers : List (Caller (Frame U N))) :
      Transition lib c w ⟨.turn (.offer r below outcome unwound),callers⟩
        ⟨.acting (.receive below unwound) (lib.accept outcome r),callers⟩ w
  | escapes (fault : Fault) (unwound : List String) (callers : List (Caller (Frame U N))) :
      Transition lib c w ⟨.turn (.escape fault unwound),callers⟩
        ⟨.turn (.ended (.error (.fault ((w.context c).handleFault fault unwound))) []),callers⟩ w
  | returns (outcome : Outcome) (left : List (Frame U N)) (caller : Caller (Frame U N))
      (callers : List (Caller (Frame U N))) :
      Transition lib c w ⟨.turn (.ended outcome left),caller :: callers⟩
        ⟨.acting caller.role (caller.resume outcome),callers⟩ w
  | ends (outcome : Outcome) (left : List (Frame U N)) :
      Transition lib c w ⟨.turn (.ended outcome left),[]⟩ ⟨.exit (.ended outcome left),[]⟩ w
  | reports (role : Role (Frame U N)) (report : role.Report) (callers : List (Caller (Frame U N))) :
      Transition lib c w ⟨.acting role (.done report),callers⟩
        ⟨afterAct lib (w.context c).stopping role report,callers⟩ w
  | asks (role : Role (Frame U N)) (q : Query) (k : q.Answer → Act role.Report)
      (callers : List (Caller (Frame U N))) : Transition lib c w ⟨.acting role (.query q k),callers⟩
        ⟨.acting role (k (w.answer c q).1),callers⟩ (w.answer c q).2
  | unhooked {kind : CheckKind} (role : Role (Frame U N)) (k : Bool → Act role.Report)
      (callers : List (Caller (Frame U N))) (hhook : (w.context c).hook = none) :
      Transition lib c w ⟨.acting role (.check kind k),callers⟩ ⟨.acting role (k false),callers⟩ w
  | checks {kind : CheckKind} {hook : Hook} (role : Role (Frame U N)) (k : Bool → Act role.Report)
      (callers : List (Caller (Frame U N))) (hhook : (w.context c).hook = some hook) :
      Transition lib c w ⟨.acting role (.check kind k),callers⟩
        ⟨.checking (Probe.start hook kind) role k,callers⟩ w
  | waits {n : NotifierId} {d : Duration} (role : Role (Frame U N)) (k : Bool → Act role.Report)
      (callers : List (Caller (Frame U N))) : Transition lib c w ⟨.acting role (.wait n d k),callers⟩
        ⟨.waiting n (w.after d.millis) role k,callers⟩ w
  | uncalled {f : Routine} {arguments : List Value} (role : Role (Frame U N))
      (k : Outcome → Act role.Report) (callers : List (Caller (Frame U N)))
      (hstop : (w.context c).stopping = true) :
      Transition lib c w ⟨.acting role (.call f arguments k),callers⟩
        ⟨.acting role (k (.error .stop)),callers⟩ w
  | unloaded {f : Routine} {arguments : List Value} {fault : Fault} (role : Role (Frame U N))
      (k : Outcome → Act role.Report) (callers : List (Caller (Frame U N)))
      (hgo : ¬ (w.context c).stopping = true) (hload : lib.load f arguments = .error fault) :
      Transition lib c w ⟨.acting role (.call f arguments k),callers⟩
        ⟨.acting role (k (.error (.fault ((w.context c).handleFault fault [])))),callers⟩ w
  | calls {f : Routine} {arguments : List Value} {r : Frame U N} (role : Role (Frame U N))
      (k : Outcome → Act role.Report) (callers : List (Caller (Frame U N)))
      (hgo : ¬ (w.context c).stopping = true) (hload : lib.load f arguments = .ok r) :
      Transition lib c w ⟨.acting role (.call f arguments k),callers⟩
        ⟨.turn (.count [r]),⟨role,k⟩ :: callers⟩ w
  | panics (role : Role (Frame U N)) (text : String) (callers : List (Caller (Frame U N))) :
      Transition lib c w ⟨.acting role (.panic text),callers⟩ ⟨.exit (.panicked text),[]⟩ w
  | ticking {probe next : Probe} {u : World} (stack : List (Frame U N))
      (callers : List (Caller (Frame U N))) (hprobe : probe.step w = .goto next u) :
      Transition lib c w ⟨.counting probe stack,callers⟩ ⟨.counting next stack,callers⟩ u
  | ticked {probe : Probe} {stopped : Bool} {u : World} (stack : List (Frame U N))
      (callers : List (Caller (Frame U N))) (hprobe : probe.step w = .finish stopped u) :
      Transition lib c w ⟨.counting probe stack,callers⟩ ⟨.turn (Turn.afterCount stopped stack),callers⟩
        (observe u c stopped)
  | checking {probe next : Probe} {u : World} (role : Role (Frame U N)) (k : Bool → Act role.Report)
      (callers : List (Caller (Frame U N))) (hprobe : probe.step w = .goto next u) :
      Transition lib c w ⟨.checking probe role k,callers⟩ ⟨.checking next role k,callers⟩ u
  | checked {probe : Probe} {stopped : Bool} {u : World} (role : Role (Frame U N))
      (k : Bool → Act role.Report) (callers : List (Caller (Frame U N)))
      (hprobe : probe.step w = .finish stopped u) :
      Transition lib c w ⟨.checking probe role k,callers⟩ ⟨.acting role (k stopped),callers⟩
        (observe u c stopped)
  | notified {n : NotifierId} {deadline : ℕ} (role : Role (Frame U N)) (k : Bool → Act role.Report)
      (callers : List (Caller (Frame U N))) (hn : w.isNotified n = true) :
      Transition lib c w ⟨.waiting n deadline role k,callers⟩ ⟨.acting role (k true),callers⟩ w
  | expired {n : NotifierId} {deadline : ℕ} (role : Role (Frame U N)) (k : Bool → Act role.Report)
      (callers : List (Caller (Frame U N))) (hn : ¬ w.isNotified n = true) (hlate : deadline ≤ w.clock) :
      Transition lib c w ⟨.waiting n deadline role k,callers⟩ ⟨.acting role (k false),callers⟩ w

variable {lib : Library U N} {c : ContextId} {w w' : World} {s s' : Strand (Frame U N)}
  {callers : List (Caller (Frame U N))}

theorem transition_stepTurn (t : Turn (Frame U N)) :
    Transition lib c w ⟨.turn t,callers⟩ (stepTurn lib c w callers t).1
      (stepTurn lib c w callers t).2 := by
  cases t with
  | count stack =>
    by_cases hstop : (w.context c).stopping = true
    · simp only [stepTurn, Context.countInstruction, hstop, if_true, World.setContext_self]
      exact .countedOut stack callers hstop
    · have hnot : (w.context c).countInstruction.1 ≠ .stop := fun hcount =>
        hstop ((Context.countInstruction_eq_stop _).mp hcount)
      unfold stepTurn
      dsimp only
      split
      · rename_i hcount
        exact absurd hcount hnot
      · rename_i hhook
        exact .due stack callers hstop ((Context.hook_countInstruction _).symm.trans hhook)
      · exact .counted stack callers hstop
  | step r below => exact .plainStep r below callers
  | offer r below outcome unwound => exact .offers r below outcome unwound callers
  | escape fault unwound => exact .escapes fault unwound callers
  | ended outcome left =>
    cases callers with
    | nil => exact .ends outcome left
    | cons caller callers => exact .returns outcome left caller callers

theorem transition_stepAct (role : Role (Frame U N)) (act : Act role.Report) : Transition lib c w
    ⟨.acting role act,callers⟩ (stepAct lib c w callers role act).1
      (stepAct lib c w callers role act).2 := by
  cases act with
  | done report => exact .reports role report callers
  | query q k => exact .asks role q k callers
  | wait n d k => exact .waits role k callers
  | panic text => exact .panics role text callers
  | check kind k =>
    unfold stepAct
    dsimp only
    split
    · exact .unhooked role k callers ‹_›
    · exact .checks role k callers ‹_›
  | call f arguments k =>
    unfold stepAct
    dsimp only
    split
    · exact .uncalled role k callers ‹_›
    · split
      · exact .unloaded role k callers ‹_› ‹_›
      · exact .calls role k callers ‹_› ‹_›

section Calls

variable {f : Routine} {arguments : List Value} (role : Role (Frame U N)) (k : Outcome → Act role.Report)
  (callers : List (Caller (Frame U N)))

theorem step_uncalled (hstop : (w.context c).stopping = true) :
    step lib c w ⟨.acting role (.call f arguments k),callers⟩ = .ran
      ⟨.acting role (k (.error .stop)),callers⟩ w := by
  simp only [step, stepAct, if_pos hstop]

theorem step_unloaded {fault : Fault} (hgo : ¬ (w.context c).stopping = true)
    (hload : lib.load f arguments = .error fault) :
    step lib c w ⟨.acting role (.call f arguments k),callers⟩ =
      .ran ⟨.acting role (k (.error (.fault ((w.context c).handleFault fault [])))),callers⟩ w := by
  simp only [step, stepAct, if_neg hgo, hload]

theorem step_calls {r : Frame U N} (hgo : ¬ (w.context c).stopping = true)
    (hload : lib.load f arguments = .ok r) :
    step lib c w ⟨.acting role (.call f arguments k),callers⟩ = .ran
      ⟨.turn (.count [r]),⟨role,k⟩ :: callers⟩ w := by
  simp only [step, stepAct, if_neg hgo, hload]

end Calls

/-- There are no other steps. -/
theorem transition_of_step (hstep : s.step lib c w = .ran s' w') : Transition lib c w s s' w' := by
  obtain ⟨phase,callers⟩ := s
  cases phase with
  | turn t =>
    cases hstep
    exact transition_stepTurn t
  | acting role act =>
    cases hstep
    exact transition_stepAct role act
  | counting probe stack =>
    simp only [step] at hstep
    split at hstep <;> cases hstep
    · exact .ticking stack callers ‹_›
    · exact .ticked stack callers ‹_›
  | checking probe role k =>
    simp only [step] at hstep
    split at hstep <;> cases hstep
    · exact .checking role k callers ‹_›
    · exact .checked role k callers ‹_›
  | waiting n deadline role k =>
    simp only [step] at hstep
    split at hstep
    · cases hstep
      exact .notified role k callers ‹_›
    · split at hstep <;> cases hstep
      exact .expired role k callers ‹_› ‹_›
  | exit => cases hstep

end Strand

end Workers
