import Workers.Proofs.Call.Logged
import Workers.Script.Run
/-! # The runnable that is stepped is ready for it

A native call can be stepped until its body has come to an end, and a protected call except while it
waits for its callee.  Only the top of a stack is stepped, and of the frames in a stack the top is
ready and those below wait: what a step launches is new, what is offered to a frame makes it ready
if the frame takes it, and a frame that has nothing more to do is taken off.  A scheduler that has
taken the last one off has ended.
-/
namespace Workers

variable {U N : Type}

namespace Act

variable {α β : Type} {P : α → Prop} {Q : β → Prop}

def Yields (P : α → Prop) : Act α → Prop
  | done a => P a
  | query _ k => ∀ answer, (k answer).Yields P
  | check _ k => ∀ stopped, (k stopped).Yields P
  | wait _ _ k => ∀ notified, (k notified).Yields P
  | call _ _ k => ∀ outcome, (k outcome).Yields P
  | panic _ => True

theorem Yields.bind {a : Act α} {f : α → Act β} (ha : a.Yields P) (hf : ∀ x, P x → (f x).Yields Q) :
    (a.bind f).Yields Q := by
  induction a with
  | done x => exact hf x ha
  | query q k ih => exact fun answer => ih answer (ha answer)
  | check kind k ih => exact fun stopped => ih stopped (ha stopped)
  | wait n d k ih => exact fun notified => ih notified (ha notified)
  | call f' arguments k ih => exact fun outcome => ih outcome (ha outcome)
  | panic text => trivial

theorem yields_true (a : Act α) : a.Yields fun _ => True := by
  induction a with
  | query q k ih | check kind k ih | wait n d k ih | call f arguments k ih => exact ih
  | done | panic => trivial

end Act

namespace Frame

def outOfTurn? : Frame U N → Option Fault
  | .native name none => some (.nativeReturned name)
  | .guarded _ .waiting => some .protectedWaiting
  | _ => none

def Ready (r : Frame U N) : Prop := r.outOfTurn? = none

def AwaitsChild : Frame U N → Prop
  | .own _ => True
  | .native .. => False
  | .guarded _ phase => phase = .waiting

end Frame

def StackReady : List (Frame U N) → Prop
  | [] => False
  | active :: below => active.Ready ∧ ∀ r ∈ below, r.AwaitsChild

def Move.Leaves (r : Frame U N) : Move (Frame U N) → Prop
  | .again | .proceed => r.Ready
  | .launch child => child.Ready ∧ r.AwaitsChild
  | .finish _ | .fault _ | .stop => True

def Role.Keeps : (role : Role (Frame U N)) → role.Report → Prop
  | .step below, (r,move) => move.Leaves r ∧ ∀ x ∈ below, x.AwaitsChild
  | .receive below _, (r,accepted) => (accepted = .ok () → r.Ready) ∧ ∀ x ∈ below, x.AwaitsChild
  | .loneStep, _ | .loneReceive, _ | .outside, _ => True

namespace Phase

def outOfTurn? : Phase (Frame U N) → Option Fault
  | .turn (.step r _) => r.outOfTurn?
  | .turn (.count []) | .counting _ [] => some .noRunnable
  | _ => none

def InOrder : Phase (Frame U N) → Prop
  | .turn (.count stack) | .counting _ stack => StackReady stack
  | .turn (.step active below) => StackReady (active :: below)
  | .turn (.offer parent below _ _) => ∀ r ∈ parent :: below, r.AwaitsChild
  | .acting role act => act.Yields role.Keeps
  | .checking _ role k | .waiting _ _ role k => ∀ answer, (k answer).Yields role.Keeps
  | .turn (.escape ..) | .turn (.ended ..) | .exit _ => True

end Phase

structure Strand.InOrder (s : Strand (Frame U N)) : Prop where
  phase : s.phase.InOrder
  callers : ∀ caller ∈ s.callers, ∀ outcome, (caller.resume outcome).Yields caller.role.Keeps

/-- Runnables that nobody but a scheduler steps: what is loaded or launched has not been stepped yet. -/
structure Library.Fresh (lib : Library U N) : Prop where
  load : ∀ f arguments r, lib.load f arguments = .ok r → r.Ready
  step : ∀ u, (lib.step u).Yields fun report => ∀ child, report.2 = .launch child → child.Ready

namespace Library

variable {lib : Library U N}

theorem advance_of_outOfTurn {r : Frame U N} {fault : Fault} (h : r.outOfTurn? = some fault) :
    lib.advance r = .done (r,.fault fault) := by
  unfold Frame.outOfTurn? at h
  split at h <;> cases h <;> rfl

theorem Fresh.advance (hlib : lib.Fresh) {r : Frame U N} (hr : r.Ready) {below : List (Frame U N)}
    (hbelow : ∀ x ∈ below, x.AwaitsChild) : (lib.advance r).Yields (Role.Keeps (.step below)) := by
  cases r with
  | own u =>
    -- of these only the child matters, for nobody can tell when they are ready
    refine (hlib.step u).bind fun report hreport => ?_
    obtain ⟨u',move⟩ := report
    refine ⟨?_,hbelow⟩
    cases move with
    | launch child => exact ⟨hreport child rfl,trivial⟩
    | again | proceed => exact rfl
    | finish | fault | stop => trivial
  | native name body =>
    cases body with
    | none => cases hr
    | some n =>
      refine (lib.body n).yields_true.bind fun report _ => ?_
      obtain ⟨n',stretch⟩ := report
      cases stretch with
      | again => exact ⟨rfl,hbelow⟩
      | finish | fault | stop => exact ⟨trivial,hbelow⟩
  | guarded f phase =>
    cases phase with
    | launch arguments =>
      simp only [Library.advance]
      split
      · rename_i child hload
        exact ⟨⟨hlib.load f arguments child hload,rfl⟩,hbelow⟩
      · exact ⟨trivial,hbelow⟩
    | waiting => cases hr
    | finished values => exact ⟨trivial,hbelow⟩

/-- A protected call that is ready gives no fault. -/
theorem not_fault_of_ready {f : Routine} {phase : Protection}
    (h : (Frame.guarded f phase : Frame U N).Ready) :
    phase ≠ .waiting ∧ ∀ r fault, lib.advance (.guarded f phase) ≠ .done (r,.fault fault) := by
  refine ⟨?_,fun r fault hfault => ?_⟩
  · rintro rfl
    cases h
  · cases phase with
    | launch arguments =>
      simp only [Library.advance] at hfault
      split at hfault <;> cases hfault
    | waiting => cases h
    | finished values => cases hfault

/-- A frame that takes what it is offered is ready. -/
theorem yields_accept (outcome : Except Fault (List Value)) (r : Frame U N) {below : List (Frame U N)}
    {unwound : List String} (hbelow : ∀ x ∈ below, x.AwaitsChild) :
    (lib.accept outcome r).Yields (Role.Keeps (.receive below unwound)) := by
  cases r with
  | own u =>
    exact (lib.receive u outcome).yields_true.bind fun report _ => ⟨fun _ => rfl,hbelow⟩
  | native name body =>
    -- a native call has no reception of its own, and so it takes nothing
    refine ⟨fun htaken => ?_,hbelow⟩
    cases outcome <;> cases htaken
  | guarded f phase => exact ⟨fun _ => rfl,hbelow⟩

end Library

namespace Script

variable {definitions : Array Definition}

theorem ready_load {f : Routine} {arguments : List Value} {r : Frame Runner Activation}
    (h : load definitions f arguments = .ok r) : r.Ready := by
  unfold load at h
  split at h <;> cases h <;> rfl

/-- Scripts, native routines and protected calls launch what they load. -/
theorem fresh_library (definitions : Array Definition) : (library definitions).Fresh where
  load _ _ _ := ready_load
  step u := by
    refine u.activation.execute.yields_true.bind fun report _ => ?_
    obtain ⟨activation,effect⟩ := report
    cases effect with
    | call f arguments =>
      dsimp only
      split
      · rename_i frame hload
        rintro child ⟨⟩
        exact ready_load hload
      · rintro child ⟨⟩
    | next | stay | finish | fault | stop => rintro child ⟨⟩

end Script

namespace Strand

variable {lib : Library U N} {c : ContextId} {w w' : World} {s s' : Strand (Frame U N)}
  {callers : List (Caller (Frame U N))}

theorem inOrder_unwind {describe : Frame U N → String} {fault : Fault} {failed : Frame U N}
    {below : List (Frame U N)} {unwound : List String} (hbelow : ∀ x ∈ below, x.AwaitsChild) :
    (Phase.turn (Turn.unwind describe fault failed below unwound)).InOrder := by
  cases below with
  | nil => trivial
  | cons parent below => exact hbelow

theorem inOrder_afterCount {stopped : Bool} {stack : List (Frame U N)} (hstack : StackReady stack) :
    (Phase.turn (Turn.afterCount stopped stack)).InOrder := by
  cases stopped with
  | true => trivial
  | false =>
    cases stack with
    | nil => exact hstack.elim
    | cons active below => exact hstack

theorem inOrder_afterStep {describe : Frame U N → String} {stopping : Bool} {r : Frame U N}
    {move : Move (Frame U N)} {below : List (Frame U N)} (hmove : move.Leaves r)
    (hbelow : ∀ x ∈ below, x.AwaitsChild) :
    (Phase.turn (Turn.afterStep describe stopping r move below)).InOrder := by
  cases move with
  | again => exact ⟨hmove,hbelow⟩
  | proceed =>
    cases stopping with
    | true => trivial
    | false => exact ⟨hmove,hbelow⟩
  | launch child =>
    cases stopping with
    | true => trivial
    | false => exact ⟨hmove.1,List.forall_mem_cons.mpr ⟨hmove.2,hbelow⟩⟩
  | finish values =>
    cases stopping with
    | true => trivial
    | false =>
      cases below with
      | nil => trivial
      | cons parent below => exact hbelow
  | fault fault =>
    cases stopping with
    | true => trivial
    | false => exact inOrder_unwind hbelow
  | stop => cases stopping <;> trivial

theorem inOrder_afterAct {stopping : Bool} {role : Role (Frame U N)} {report : role.Report}
    (h : role.Keeps report) :
    (afterAct lib stopping role report).InOrder := by
  cases role with
  | step below => exact inOrder_afterStep h.1 h.2
  | receive below unwound =>
    obtain ⟨r,accepted⟩ := report
    cases accepted with
    | ok _ => exact ⟨h.1 rfl,h.2⟩
    | error fault => exact inOrder_unwind h.2
  | loneStep =>
    obtain ⟨frame,move⟩ := report
    cases move with
    | again => exact Act.yields_true _
    | proceed | launch | finish | fault | stop => trivial
  | loneReceive | outside => trivial

theorem InOrder.step (hs : s.InOrder) (hlib : lib.Fresh) (hstep : s.step lib c w = .ran s' w') :
    s'.InOrder := by
  obtain ⟨hphase,hcallers⟩ := hs
  cases transition_of_step hstep with
  | countedOut | escapes => exact ⟨trivial,hcallers⟩
  | due | ticking => exact ⟨hphase,hcallers⟩
  | counted | ticked => exact ⟨inOrder_afterCount hphase,hcallers⟩
  | plainStep r below => exact ⟨hlib.advance hphase.1 hphase.2,hcallers⟩
  | offers r below outcome unwound =>
    exact ⟨Library.yields_accept outcome r (List.forall_mem_cons.mp hphase).2,hcallers⟩
  | returns outcome left caller callers =>
    obtain ⟨hcaller,hrest⟩ := List.forall_mem_cons.mp hcallers
    exact ⟨hcaller outcome,hrest⟩
  | ends | panics => exact ⟨trivial,nofun⟩
  | reports role report => exact ⟨inOrder_afterAct hphase,hcallers⟩
  | asks | unhooked | uncalled | unloaded => exact ⟨hphase _,hcallers⟩
  | checks | waits | checking => exact ⟨hphase,hcallers⟩
  | checked | notified | expired => exact ⟨hphase _,hcallers⟩
  | calls role k callers hgo hload =>
    exact ⟨⟨hlib.load _ _ _ hload,nofun⟩,List.forall_mem_cons.mpr ⟨hphase,hcallers⟩⟩

theorem inOrder_ofCall (f : Routine) (arguments : List Value) :
    (ofCall f arguments : Strand (Frame U N)).InOrder :=
  ⟨fun _ => trivial,nofun⟩

variable {f : Routine} {arguments : List Value} {log : List (LogEntry U N)} {t : Strand (Frame U N)}

theorem LoggedRun.inOrder (hlib : lib.Fresh) (h : LoggedRun lib c (w,ofCall f arguments) log (w',s')) :
    s'.InOrder ∧ ∀ u t, .own u t ∈ log → t.InOrder := by
  have hstart : (ofCall f arguments : Strand (Frame U N)).InOrder := inOrder_ofCall f arguments
  have hown : ∀ (w : World) (s : Strand (Frame U N)) w' s', .own w s ∈ log → s.InOrder →
      s.step lib c w = .ran s' w' → s'.InOrder := fun _ _ _ _ _ hs => hs.step hlib
  exact ⟨h.keeps (P := fun _ s => s.InOrder) hstart hown fun _ _ _ hs _ => hs,
    fun u t => h.keeps_own (P := fun _ s => s.InOrder) hstart hown fun _ _ _ hs _ => hs⟩

theorem outOfTurn?_of_inOrder {phase : Phase (Frame U N)} (h : phase.InOrder) :
    phase.outOfTurn? = none := by
  cases phase with
  | turn turn =>
    cases turn with
    | count stack =>
      cases stack with
      | nil => exact h.elim
      | cons => rfl
    | step active below => exact h.1
    | offer | escape | ended => rfl
  | counting probe stack =>
    cases stack with
    | nil => exact h.elim
    | cons => rfl
  | acting | checking | waiting | exit => rfl

/-- Where there is something to complain of, that is the fault which comes next, unless the context
stops. -/
theorem step_of_outOfTurn {fault : Fault} (h : s.phase.outOfTurn? = some fault)
    (hstep : s.step lib c w = .ran s' w') :
    (∃ below r, s'.phase = .acting (.step below) (.done (r,.fault fault))) ∨
      s'.phase = .turn (.ended (.error (.fault fault)) []) ∨
      s'.phase = .turn (.ended (.error .stop) []) ∨
      ∃ probe, s'.phase = .counting probe [] := by
  cases transition_of_step hstep with
  | plainStep r below =>
    refine .inl ⟨below,r,?_⟩
    rw [Library.advance_of_outOfTurn h]
  | countedOut stack =>
    cases stack with
    | nil => exact .inr (.inr (.inl rfl))
    | cons => cases h
  | due stack | ticking stack =>
    cases stack with
    | nil => exact .inr (.inr (.inr ⟨_,rfl⟩))
    | cons => cases h
  | counted stack =>
    cases stack with
    | nil =>
      cases h
      exact .inr (.inl rfl)
    | cons => cases h
  | @ticked _ stopped _ stack =>
    cases stack with
    | nil =>
      cases h
      cases stopped with
      | true => exact .inr (.inr (.inl rfl))
      | false => exact .inr (.inl rfl)
    | cons => cases h
  | offers | escapes | returns | ends | reports | asks | unhooked | checks | waits | uncalled
  | unloaded => cases h
  | calls | panics | checking | checked | notified | expired => cases h

/-- Wherever a call from outside takes its next step, in whatever calls of its code, and whatever
has failed, was caught or was stopped: a protected call that is stepped is not waiting for its
callee and gives no fault, a native call that is stepped still has its body, there is something on
the stack that an instruction is counted for, and below a runnable that is stepped the others wait.
So nobody has anything to complain of. -/
theorem steps_only_ready (hlib : lib.Fresh) (h : LoggedRun lib c (w,ofCall f arguments) log (w',s'))
    (ht : t = s' ∨ ∃ u, .own u t ∈ log) :
    (∀ g phase below, t.phase = .turn (.step (.guarded g phase) below) →
      phase ≠ .waiting ∧ ∀ r fault, lib.advance (.guarded g phase) ≠ .done (r,.fault fault)) ∧
    (∀ name body below, t.phase = .turn (.step (.native name body) below) → body ≠ none) ∧
    (∀ stack, t.phase = .turn (.count stack) ∨ (∃ probe, t.phase = .counting probe stack) → stack ≠ []) ∧
    (∀ active below, t.phase = .turn (.step active below) → ∀ r ∈ below, r.AwaitsChild) ∧
    t.phase.outOfTurn? = none := by
  obtain ⟨hlast,hbefore⟩ := h.inOrder hlib
  have horder : t.phase.InOrder := by
    rcases ht with rfl | ⟨u,hmem⟩
    · exact hlast.phase
    · exact (hbefore u t hmem).phase
  refine ⟨fun g phase below hphase => ?_,fun name body below hphase => ?_,fun stack hphase => ?_,
    fun active below hphase => ?_,outOfTurn?_of_inOrder horder⟩
  · rw [hphase] at horder
    exact Library.not_fault_of_ready horder.1
  · rw [hphase] at horder
    have hready : (Frame.native name body : Frame U N).Ready := horder.1
    rintro rfl
    cases hready
  · rintro rfl
    rcases hphase with hphase | ⟨probe,hphase⟩ <;> rw [hphase] at horder <;> exact horder.elim
  · rw [hphase] at horder
    exact horder.2

open Script (library fresh_library Definition)

def nested : Array Definition := #[
  .native "fails" #[.raise (.raised "boom")],
  .guarded ⟨"fails",0⟩,
  .native "asks" #[.call ["ok","why"] (.literal (.function ⟨"tries",1⟩)) [],.finish [.named "why"]],
  .script (some "main") .accept #[.call ["why"] (.literal (.function ⟨"asks",2⟩)) [],
    .finish [.named "why"]]]

def reporting : World where
  gauges := #[{}]
  contexts := #[{ number := 0, registry := 0, hook := some (.gauge 0), hookStep := 1 }]

theorem steps_only_ready_nested : (library nested).Fresh ∧
    ∃ log w' s', LoggedRun (library nested) 0 (reporting,ofCall ⟨"main",3⟩ []) log (w',s') ∧
      s'.exit? = some (.ended (.ok [.string "boom"]) []) ∧ ∀ u t, .own u t ∈ log →
      t.phase.outOfTurn? = none := by
  have hrun := loggedRun_alone (library nested) 0 80 (reporting,ofCall ⟨"main",3⟩ [])
  refine ⟨fresh_library nested,_,_,_,hrun,rfl,fun u t hmem => ?_⟩
  exact (steps_only_ready (fresh_library nested) hrun (.inr ⟨u,hmem⟩)).2.2.2.2

end Strand

end Workers
