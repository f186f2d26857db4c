import Workers.Proofs.Call.Steps
import Workers.Proofs.Control.Execution
import Workers.Proofs.Control.Wakeup
/-! # A paused worker stands still

As long as the status of a worker is `paused`, the worker is in the loop of its pause and runs no
code.  It comes in by acknowledging a pause, and goes out for a command that was accepted since.
-/
namespace Workers

theorem Command.reaction_injective : Function.Injective Command.reaction := by
  intro command command' h
  cases command <;> cases command' <;> first | rfl | cases h

namespace Check

def InPause : Check → Prop
  | acknowledge | awaitCommand | reconsider | resume | stop => True
  | tickShutdown | tickCommand | pointShutdown | pointCommand => False

variable {at_ next : Check} {shutdown stopped : Bool} {control control' : Control}
    {point point' : Option Check}

/-- The loop goes round, or turns to what the latest command asks for. -/
theorem inPause_goto (hat : at_.InPause) (hmove : at_.step shutdown control = .goto next control') :
    next.InPause ∧ (next = .awaitCommand ∨ next = .reconsider ∨
      at_ = .reconsider ∧ next = control.command.reaction) := by
  cases at_ with
  | acknowledge => cases hmove; exact ⟨trivial,.inl rfl⟩
  | awaitCommand =>
    simp only [step] at hmove
    split at hmove <;> cases hmove
    exact ⟨trivial,.inr (.inl rfl)⟩
  | reconsider =>
    simp only [step] at hmove
    split at hmove <;> cases hmove <;> rename_i hcommand <;> rw [hcommand] <;>
      exact ⟨trivial,.inr (.inr ⟨rfl,rfl⟩)⟩
  | resume | stop => cases hmove
  | tickShutdown | tickCommand | pointShutdown | pointCommand => exact hat.elim

/-- The loop ends with the status that a command asks for. -/
theorem inPause_finish (hat : at_.InPause)
    (hmove : at_.step shutdown control = .finish stopped control') :
    ∃ command : Command, command ≠ .pause ∧ at_ = command.reaction ∧
    control'.status = command.outcome := by
  cases at_ with
  | resume => cases hmove; exact ⟨.run,nofun,rfl,rfl⟩
  | stop => cases hmove; exact ⟨.cancel,nofun,rfl,rfl⟩
  | awaitCommand | reconsider =>
    simp only [step] at hmove
    split at hmove <;> cases hmove
  | acknowledge => cases hmove
  | tickShutdown | tickCommand | pointShutdown | pointCommand => exact hat.elim

theorem start_ne_reaction {command : Command} (hcommand : command ≠ .pause) (kind : CheckKind) :
    start kind ≠ command.reaction := by
  cases kind <;> cases command <;> first | exact absurd rfl hcommand | nofun

def Inside (point : Option Check) : Prop := ∃ at_, point = some at_ ∧ at_.InPause

theorem Inside.inPause (h : Inside (some at_)) : at_.InPause := by
  obtain ⟨_,hsome,hat⟩ := h
  cases hsome
  exact hat

/-- A pause is only announced inside its loop. -/
theorem Passage.inside (hpass : Passage control point control' point')
    (hinside : control.status = .paused → Inside point) (hpaused : control'.status = .paused) :
    Inside point' := by
  cases hpass with
  | rest => exact hinside hpaused
  | enter _ kind =>
    obtain ⟨_,hnone,_⟩ := hinside hpaused
    cases hnone
  | announce _ hterm =>
    simp only [Control.changeStatus] at hpaused
    rw [hpaused] at hterm
    cases hterm
  | goto hmove =>
    rcases goto_cases hmove with ⟨_,rfl,_⟩ | ⟨rfl,_⟩
    · exact ⟨_,rfl,trivial⟩
    · exact ⟨_,rfl,(inPause_goto (hinside hpaused).inPause hmove).1⟩
  | finish hmove =>
    rcases control_finish hmove with ⟨_,rfl⟩ | ⟨_,rfl⟩ | ⟨_,rfl⟩
    · obtain ⟨command,hcommand,_,houtcome⟩ := inPause_finish (hinside hpaused).inPause hmove
      rw [hpaused] at houtcome
      cases command with
      | run | cancel => cases houtcome
      | pause => exact absurd rfl hcommand
    · cases hpaused
    · cases hpaused

/-- What leaves a pause is the reaction to a command. -/
theorem Passage.leaves (hpass : Passage control point control' point') (hinside : Inside point)
    (hpaused : control.status = .paused) (hleft : control'.status ≠ .paused) :
    ∃ command : Command, command ≠ .pause ∧ point = some command.reaction ∧
    control'.status = command.outcome := by
  obtain ⟨at_,rfl,hat⟩ := hinside
  cases hpass with
  | rest => exact absurd hpaused hleft
  | goto hmove =>
    rcases goto_cases hmove with ⟨rfl,_,rfl⟩ | ⟨rfl,_⟩
    · unfold Control.acknowledgePause at hleft
      split at hleft
      · exact absurd rfl hleft
      · exact absurd hpaused hleft
    · exact absurd hpaused hleft
  | finish hmove =>
    obtain ⟨command,hcommand,rfl,houtcome⟩ := inPause_finish hat hmove
    exact ⟨command,hcommand,rfl,houtcome⟩

/-- A paused worker only turns to a command that it has just found to be the latest. -/
theorem Passage.turns (hpass : Passage control point control' point') {command : Command}
    (hinside : control.status = .paused → Inside point) (hcommand : command ≠ .pause)
    (hpaused : control'.status = .paused) (hpoint : point' = some command.reaction) :
    control.status = .paused ∧ point = some command.reaction ∨
      point = some .reconsider ∧ control.command = command := by
  cases hpass with
  | rest => exact .inl ⟨hpaused,hpoint⟩
  | enter _ kind => exact absurd (Option.some.inj hpoint) (start_ne_reaction hcommand kind)
  | finish | announce => cases hpoint
  | goto hmove =>
    -- the loop turns to a command only where it reads it
    obtain rfl := Option.some.inj hpoint
    rcases goto_cases hmove with ⟨_,hwait,_⟩ | ⟨rfl,_⟩
    · cases command <;> cases hwait
    · rcases (inPause_goto (hinside hpaused).inPause hmove).2 with hwait | hlook | ⟨rfl,hreaction⟩
      · cases command <;> cases hwait
      · cases command <;> cases hlook
      · exact .inr ⟨rfl,(Command.reaction_injective hreaction).symm⟩

end Check

inductive Strand.Suspended {F : Type} : Strand F → Strand F → Prop
  | counting (probe next : Probe) (stack : List F) (callers : List (Caller F)) :
      Suspended ⟨.counting probe stack,callers⟩ ⟨.counting next stack,callers⟩
  | checking (probe next : Probe) (role : Role F) (k : Bool → Act role.Report)
      (callers : List (Caller F)) :
      Suspended ⟨.checking probe role k,callers⟩ ⟨.checking next role k,callers⟩

namespace Strand

variable {U N : Type} {lib : Library U N} {c : ContextId} {h : WorkerId} {w w' : World}
variable {s s' : Strand (Frame U N)} {at_ next : Check}

theorem Suspended.events (hs : s.Suspended s') (w w' : World) :
    s.events lib c w s' w' = [.moment w w'] := by
  cases hs <;> rfl

theorem suspended_of_checkOf (hat : s.checkOf h = some at_) : s.Suspended s := by
  obtain ⟨phase,callers⟩ := s
  cases phase with
  | counting probe stack => exact .counting probe probe stack callers
  | checking probe role k => exact .checking probe probe role k callers
  | turn | acting | waiting | exit => cases hat

/-- A check that has not ended keeps the code that it was made from. -/
theorem suspended_step (hat : s.checkOf h = some at_) (hnext : s'.checkOf h = some next)
    (hstep : s.step lib c w = .ran s' w') : s.Suspended s' := by
  obtain ⟨phase,callers⟩ := s
  cases phase with
  | counting probe stack =>
    cases transition_of_step hstep with
    | ticking => exact .counting _ _ _ _
    | ticked => cases hnext
  | checking probe role k =>
    cases transition_of_step hstep with
    | checking => exact .checking _ _ _ _ _
    | checked => cases hnext
  | turn | acting | waiting | exit => cases hat

end Strand

namespace WorkerState

open Check (Inside)

variable {U N : Type} {lib : Library U N} {x y : WorkerState U N}

def Pauses (lib : Library U N) (x y : WorkerState U N) : Prop :=
  x.point = some .acknowledge ∧ x.control.command = .pause ∧ Works lib x y

theorem Reachable.inside (hx : Reachable lib x) (hpaused : x.status = .paused) : Inside x.point :=
  hx.kept (P := fun control point => control.status = .paused → Inside point) nofun
    (fun hpass hinside hpaused => hpass.inside hinside hpaused)
    (fun command hinside hpaused => hinside (by rwa [Control.status_putCommand] at hpaused)) hpaused

/-- Only the worker itself goes into a pause, and only from the acknowledgement. -/
theorem Step.pauses (hstep : Step lib x y) (hx : Sound x) (hopen : x.status ≠ .paused)
    (hpaused : y.status = .paused) : Pauses lib x y := by
  rcases hstep.works_or_rests with hworks | ⟨_,hstatus⟩
  · have hpass := passage_works hx hworks
    generalize hcontrol : x.control = control at hpass
    generalize hpoint : x.point = point at hpass
    generalize hcontrol' : y.control = control' at hpass
    generalize y.point = point' at hpass
    rw [status, hcontrol] at hopen
    rw [status, hcontrol'] at hpaused
    cases hpass with
    | rest | enter => exact absurd hpaused hopen
    | announce _ hterm =>
      simp only [Control.changeStatus] at hpaused
      rw [hpaused] at hterm
      cases hterm
    | finish hmove =>
      rcases Check.control_finish hmove with ⟨_,rfl⟩ | ⟨_,rfl⟩ | ⟨_,rfl⟩
      · exact absurd hpaused hopen
      · cases hpaused
      · cases hpaused
    | goto hmove =>
      rcases Check.control_goto hmove with ⟨_,rfl⟩ | ⟨rfl,rfl⟩
      · exact absurd hpaused hopen
      · unfold Control.acknowledgePause at hpaused
        split at hpaused
        · rename_i hcommand
          exact ⟨hpoint,by rw [hcontrol]; exact hcommand,hworks⟩
        · exact absurd hpaused hopen
  · rw [hstatus] at hpaused
    exact absurd hpaused hopen

/-- The code that a paused worker was running is the same after a step in the pause. -/
theorem Step.suspended (hstep : Step lib x y) (hx : Inside x.point) (hy : Inside y.point) :
    ∃ c s s', x.worker.stage = .running c s ∧ y.worker.stage = .running c s' ∧ s.Suspended s' := by
  obtain ⟨at_,hat,_⟩ := hx
  obtain ⟨next,hnext,_⟩ := hy
  obtain ⟨c,s,hstage,hcheck⟩ := running_of_point hat
  rcases hstep.works_or_rests with hworks | ⟨hworker,_⟩
  · rcases Worker.point_step hworks with ⟨c',s₁,s',hstage₁,hworker',hs⟩ | ⟨hnone,_⟩
    · obtain ⟨rfl,rfl⟩ := Stage.running.inj (hstage.symm.trans hstage₁)
      obtain ⟨w',worker'⟩ := y
      obtain rfl : worker' = _ := hworker'
      exact ⟨c,s,s',hstage,rfl,Strand.suspended_step hcheck hnext hs⟩
    · rw [point, hnone] at hat
      cases hat
  · exact ⟨c,s,s,hstage,by rw [hworker]; exact hstage,Strand.suspended_of_checkOf hcheck⟩

namespace Execution

variable (r : Execution lib) {m n : ℕ}

/-- From one time to another, a command was put and taken. -/
def Accepted (m n : ℕ) (command : Command) : Prop :=
  ∃ i, m ≤ i ∧ i < n ∧ Accepts command (r.state i) (r.state (i + 1))

variable {r}

theorem Accepted.succ {command : Command} (h : r.Accepted m n command) :
    r.Accepted m (n + 1) command := by
  obtain ⟨i,hm,hn,haccepts⟩ := h
  exact ⟨i,hm,Nat.lt_succ_of_lt hn,haccepts⟩

/-- Since a time at which the worker waited for news, it has waited or the latest command is newer. -/
theorem listens_or_accepted (hlistens : (r.state m).Listens) (hmn : m ≤ n) :
    (r.state n).Listens ∨ r.Accepted m n (r.state n).control.command := by
  induction n, hmn using Nat.le_induction with
  | base => exact .inl hlistens
  | succ n hmn ih =>
    rcases (r.step n).accepts_or_listens (r.sound n) with haccepts | ⟨hcommand,hkept⟩
    · exact .inr ⟨n,hmn,Nat.lt_succ_self n,haccepts⟩
    · rcases ih with hlistens | haccepted
      · exact .inl (hkept hlistens)
      · rw [hcommand]
        exact .inr haccepted.succ

/-- What a paused worker turns to was accepted after any time at which it waited for news. -/
theorem accepted_of_reaction {command : Command} (hlistens : (r.state m).Listens) (hmn : m ≤ n)
    (hcommand : command ≠ .pause) (hpaused : (r.state n).status = .paused)
    (hpoint : (r.state n).point = some command.reaction) : r.Accepted m n command := by
  induction n, hmn using Nat.le_induction with
  | base =>
    rw [hlistens.1] at hpoint
    cases command <;> cases hpoint
  | succ n hmn ih =>
    have hsound := r.sound n
    rcases (r.step n).passage_or_told hsound with hpass | ⟨told,htold⟩
    · rcases hpass.turns (r.reachable n).inside hcommand hpaused hpoint with ⟨hpaused,
        hpoint⟩ | ⟨hlook,rfl⟩
      · exact (ih hpaused hpoint).succ
      · rcases listens_or_accepted hlistens hmn with ⟨hwait,_⟩ | haccepted
        · rw [hwait] at hlook
          cases hlook
        · exact haccepted.succ
    · rw [htold] at hpaused hpoint
      rw [status, control_told hsound, Control.status_putCommand] at hpaused
      exact (ih hpaused hpoint).succ

/-- What is true of the pauses in an execution. -/
structure PausesInLoop (r : Execution lib) : Prop where
  inside (n : ℕ) : (r.state n).status = .paused → Inside (r.state n).point
  still (n : ℕ) : (r.state n).status = .paused → (r.state (n + 1)).status = .paused →
    ∃ c s s', (r.state n).worker.stage = .running c s ∧ (r.state (n + 1)).worker.stage = .running c s' ∧
      s.Suspended s' ∧ s.events lib c (r.state n).world s' (r.state (n + 1)).world =
        [.moment (r.state n).world (r.state (n + 1)).world]
  acknowledged (n : ℕ) : (r.state n).status = .paused →
      ∃ m < n, Pauses lib (r.state m) (r.state (m + 1)) ∧
    ∀ i, m < i → i ≤ n → (r.state i).status = .paused
  leaves (n : ℕ) : (r.state n).status = .paused → (r.state (n + 1)).status ≠ .paused →
      ∃ command : Command,
    command ≠ .pause ∧ (r.state (n + 1)).status = command.outcome ∧
      ∀ m < n, Pauses lib (r.state m) (r.state (m + 1)) → r.Accepted (m + 1) n command

theorem exists_pauses (r : Execution lib) (n : ℕ) (hpaused : (r.state n).status = .paused) : ∃ m < n,
    Pauses lib (r.state m) (r.state (m + 1)) ∧ ∀ i, m < i → i ≤ n → (r.state i).status = .paused := by
  induction n with
  | zero =>
    rw [status, r.launched.control_eq] at hpaused
    cases hpaused
  | succ n ih =>
    by_cases hbefore : (r.state n).status = .paused
    · obtain ⟨m,hm,hpauses,hsince⟩ := ih hbefore
      refine ⟨m,Nat.lt_succ_of_lt hm,hpauses,fun i hi hin => ?_⟩
      rcases Nat.le_succ_iff.mp hin with hin | rfl
      · exact hsince i hi hin
      · exact hpaused
    · refine ⟨n,Nat.lt_succ_self n,(r.step n).pauses (r.sound n) hbefore hpaused,fun i hi hin => ?_⟩
      obtain rfl : i = n + 1 := le_antisymm hin hi
      exact hpaused

theorem pausesInLoop (r : Execution lib) : r.PausesInLoop where
  inside n hpaused := (r.reachable n).inside hpaused
  still n hpaused hpaused' := by
    obtain ⟨c,s,s',hstage,hstage',hs⟩ :=
      (r.step n).suspended ((r.reachable n).inside hpaused) ((r.reachable (n + 1)).inside hpaused')
    exact ⟨c,s,s',hstage,hstage',hs,hs.events _ _⟩
  acknowledged := r.exists_pauses
  leaves n hpaused hleft := by
    have hinside := (r.reachable n).inside hpaused
    have hsound := r.sound n
    rcases (r.step n).passage_or_told hsound with hpass | ⟨told,htold⟩
    · obtain ⟨command,hcommand,hpoint,houtcome⟩ := hpass.leaves hinside hpaused hleft
      refine ⟨command,hcommand,houtcome,fun m hmn ⟨hat,hpause,hworks⟩ => ?_⟩
      have hlistens : (r.state (m + 1)).Listens := works_acknowledge (r.sound m) hat hpause hworks
      exact accepted_of_reaction hlistens hmn hcommand hpaused hpoint
    · rw [htold, status, control_told hsound, Control.status_putCommand] at hleft
      exact absurd hpaused hleft

end Execution

theorem pausesInLoop_paused :
    ∃ (r : Execution tickingTwice) (n : ℕ), (r.state n).status = .paused ∧ r.PausesInLoop := by
  have hpause := (steps_go 5 fresh).trans (steps_put .pause _)
  have hreach : Reachable tickingTwice (go 3 (put .pause (go 5 fresh))) :=
    ⟨fresh,launched_fresh,hpause.trans (steps_go 3 _)⟩
  obtain ⟨r,n,hstate⟩ := hreach.execution
  have hpaused : (go 3 (put .pause (go 5 fresh))).status = .paused := by decide
  exact ⟨r,n,by rw [hstate]; exact hpaused,r.pausesInLoop⟩

end WorkerState

end Workers
