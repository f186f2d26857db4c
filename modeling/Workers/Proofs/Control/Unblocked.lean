import Workers.Proofs.Control.Points
import Workers.Proofs.Notifier.Monitor
import Workers.Proofs.Roundtrip.Tokens
/-! # Controllers of a worker that has come to its end

A controller takes the news of a status back when it puts a command, but only while the status is
not terminal, and both under one lock.  So as long as the status is terminal, it stays announced on
both notifiers, and no call of a controller has anything to wait for.
-/
namespace Workers

namespace Control

variable {control control' : Control} {point point' : Option Check}

/-- A terminal status has been announced to those who wait for a status and to those who wait for
the end. -/
def Announced (control : Control) : Prop :=
  control.status.isTerminal = true → control.statusChanged.latched = true ∧
  control.completed.latched = true

theorem announced_changeStatus (control : Control) (status : Status) :
    (control.changeStatus status).Announced := by
  intro hterm
  have hnotified : (control.changeStatus status).completed = control.completed.notify := if_pos hterm
  rw [hnotified]
  exact ⟨rfl,rfl⟩

theorem Announced.acknowledgePause (h : control.Announced) : control.acknowledgePause.Announced := by
  unfold Control.acknowledgePause
  split
  · exact nofun
  · exact h

theorem Announced.putCommand (h : control.Announced) (command : Command) :
    (control.putCommand command).Announced := by
  unfold Control.putCommand
  split
  · exact h
  · rename_i hopen
    exact fun hterm => absurd hterm hopen

theorem Announced.passage (hpass : Check.Passage control point control' point') (h : control.Announced) :
    control'.Announced := by
  rcases hpass.writes with rfl | rfl | ⟨status,rfl⟩
  · exact h
  · exact h.acknowledgePause
  · exact announced_changeStatus _ _

/-- The end is only announced with a terminal status. -/
theorem completed_changeStatus (control : Control) (status : Status) :
    (control.changeStatus status).completed = control.completed ∨
      (control.changeStatus status).status.isTerminal = true := by
  by_cases hterm : status.isTerminal = true
  · exact .inr hterm
  · exact .inl (if_neg hterm)

theorem completed_passage (hpass : Check.Passage control point control' point') :
    control'.completed = control.completed ∨ control'.status.isTerminal = true := by
  rcases hpass.writes with rfl | rfl | ⟨status,rfl⟩
  · exact .inl rfl
  · refine .inl ?_
    unfold Control.acknowledgePause
    split <;> rfl
  · exact completed_changeStatus _ _

end Control

namespace Errand

variable {w : World} {h : WorkerId} {s : Signal} {command : Command} {deadline : Option Nat}
    {rest : List Order}

def Alone : Errand × World → Errand × World → Prop :=
  Relation.ReflTransGen fun p q => p.1.step p.2 = .ran q.1 q.2

theorem Alone.head {e e' : Errand} {w' : World} {q : Errand × World} (hstep : e.step w = .ran e' w')
    (h : Alone (e',w') q) : Alone (e,w) q :=
  Relation.ReflTransGen.head (b := (e',w')) hstep h

theorem step_await_of_latched (hlatched : w.isLatched s = true) (deadline : Option Nat)
    (rest : List Order) (answered : Bool) :
    Errand.step w { orders := .await s deadline :: rest, answered } =
    .ran { orders := rest, answered := true } w := by
  have hlook : Notifier.look ⟨w.isLatched s⟩ deadline w.clock = some true :=
    Notifier.look_eq_true.mpr hlatched
  rw [step_await, hlook]

theorem alone_await (hlatched : w.isLatched s = true) (deadline : Option Nat) :
    Alone (.await s deadline,w) ({ orders := [] },w) :=
  .single (step_await_of_latched hlatched deadline [] true)

end Errand

namespace World

variable {w : World} {h : WorkerId}

theorem putCommand_eq_self (hterm : (w.handle h).control.status.isTerminal = true) (command : Command) :
    w.putCommand h command = w := by
  have hput : (w.handle h).control.putCommand command = (w.handle h).control := if_pos hterm
  rw [putCommand, hput]
  exact setHandle_self w h

end World

namespace Errand

variable {w : World} {h : WorkerId}

theorem alone_pause (hterm : (w.handle h).control.status.isTerminal = true)
    (hlatched : w.isLatched (.status h) = true) (deadline : Option Nat) :
    Alone (.pause h deadline,w) ({ orders := [] },w) := by
  have hput : (Errand.pause h deadline).step w = .ran (.await (.status h) deadline) w :=
    congrArg (Progress.ran _) (World.putCommand_eq_self hterm .pause)
  exact .head hput (alone_await hlatched deadline)

/-- A cancellation may still wake the library call that the worker has registered last. -/
theorem alone_cancel (hterm : (w.handle h).control.status.isTerminal = true)
    (hlatched : w.isLatched (.status h) = true) (deadline : Option Nat) :
    ∃ w', Alone (.cancel h deadline,w) ({ orders := [] },w') ∧ w'.handles = w.handles := by
  let waking : Errand := { orders := [.interrupt h,.await (.status h) deadline] }
  have hput : (Errand.cancel h deadline).step w = .ran waking w :=
    congrArg (Progress.ran _) (World.putCommand_eq_self hterm .cancel)
  cases htarget : (w.handle h).target with
  | none =>
    have hlook : waking.step w = .ran (.await (.status h) deadline) w := by
      simp only [step, waking, htarget]
      rfl
    exact ⟨w,.head hput (.head hlook (alone_await hlatched deadline)),rfl⟩
  | some n =>
    let firing : Errand := { orders := [.fire n,.await (.status h) deadline] }
    have hlook : waking.step w = .ran firing w := by
      simp only [step, waking, firing, htarget]
    have hfire : firing.step w = .ran (.await (.status h) deadline) (w.notify n) := rfl
    have hlatched' : (w.notify n).isLatched (.status h) = true := hlatched
    exact ⟨w.notify n,.head hput (.head hlook (.head hfire (alone_await hlatched' deadline))),rfl⟩

end Errand

namespace WorkerState

variable {U N : Type} {lib : Library U N} {x y z : WorkerState U N}

/-- Nothing that a controller does has to wait for the worker: no command has an effect any more,
the waits for a status and for the end are over at once, whatever their deadline, and so are the
calls that contain them. -/
structure Unblocked (x : WorkerState U N) : Prop where
  statusChanged : x.control.statusChanged.latched = true
  completed : x.control.completed.latched = true
  put : ∀ command, x.told command = x
  waits : ∀ s, s = .status x.worker.handle ∨ s = .completion x.worker.handle → ∀ deadline rest answered,
    Errand.step x.world { orders := .await s deadline :: rest, answered } =
      .ran { orders := rest, answered := true } x.world
  cancel : ∀ deadline, ∃ w, Errand.Alone (.cancel x.worker.handle deadline,x.world)
      ({ orders := [] },w) ∧
    w.handles = x.world.handles
  pause : ∀ deadline, Errand.Alone (.pause x.worker.handle deadline,x.world) ({ orders := [] },x.world)
  await : ∀ deadline,
    Errand.Alone (.await (.completion x.worker.handle) deadline,x.world) ({ orders := [] },x.world)

theorem Reachable.announced (hx : Reachable lib x) : x.control.Announced :=
  hx.kept (P := fun control _ => control.Announced) (fun hterm => absurd hterm Bool.false_ne_true)
    (fun hpass h => h.passage hpass) fun command h => h.putCommand command

theorem Reachable.unblocked (hx : Reachable lib x) (hterm : x.status.isTerminal = true) :
    x.Unblocked := by
  obtain ⟨hstatus,hcompleted⟩ := hx.announced hterm
  refine ⟨hstatus,hcompleted,fun command => ?_,?_,Errand.alone_cancel hterm hstatus,
    Errand.alone_pause hterm hstatus,
    Errand.alone_await hcompleted⟩
  · rw [told, World.putCommand_eq_self hterm]
  · rintro s (rfl | rfl)
    · exact Errand.step_await_of_latched hstatus
    · exact Errand.step_await_of_latched hcompleted

theorem Step.completed (hstep : Step lib x y) (hx : Sound x) :
    y.control.completed = x.control.completed ∨ y.status.isTerminal = true := by
  rcases hstep.passage_or_told hx with hpass | ⟨command,rfl⟩
  · exact Control.completed_passage hpass
  · rw [control_told hx]
    exact .inl (Control.completed_putCommand _ command)

theorem Steps.exists_terminal (hz : Launched z) (hsteps : Steps lib z x)
    (hlatched : x.control.completed.latched = true) :
    ∃ y, Steps lib z y ∧ Steps lib y x ∧ y.status.isTerminal = true := by
  induction hsteps with
  | refl =>
    rw [hz.control_eq] at hlatched
    cases hlatched
  | @tail x x' hsteps hstep ih =>
    rcases hstep.completed (Steps.sound hsteps hz.sound) with hsame | hterm
    · obtain ⟨y,hy,hyx,hterm⟩ := ih (hsame ▸ hlatched)
      exact ⟨y,hy,hyx.tail hstep,hterm⟩
    · exact ⟨x',hsteps.tail hstep,.refl,hterm⟩

/-- Along every run of a worker with its controllers and everybody else: while the status is
terminal, nothing that a controller does has to wait; and the end has been announced only if there
was a terminal status before. -/
theorem controllers_unblocked (hz : Launched z) (hsteps : Steps lib z x) :
    (x.status.isTerminal = true → x.Unblocked) ∧
      (x.control.completed.latched = true → ∃ y, Steps lib z y ∧ Steps lib y x ∧
        y.status.isTerminal = true) := by
  have hx : Reachable lib x := ⟨z,hz,hsteps⟩
  exact ⟨hx.unblocked,Steps.exists_terminal hz hsteps⟩

theorem controllers_unblocked_stopped :
    ∃ z, (Launched z ∧ Steps tickingTwice z stopped) ∧ stopped.status = .canceled ∧
    (stopped.status.isTerminal = true → stopped.Unblocked) ∧
      (stopped.control.completed.latched = true →
        ∃ y, Steps tickingTwice z y ∧ Steps tickingTwice y stopped ∧
        y.status.isTerminal = true) := by
  obtain ⟨z,hz,hsteps⟩ := stopped_reachable
  exact ⟨z,⟨hz,hsteps⟩,by decide,controllers_unblocked hz hsteps⟩

end WorkerState

end Workers
