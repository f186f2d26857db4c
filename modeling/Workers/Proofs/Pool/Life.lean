import Workers.Proofs.Control.Finality
import Workers.Proofs.Pool.Within
/-! # The life of a worker among others

A step of a worker stays within its handle, but for the last one, which counts it out of its pool.
However its code ended, its status is terminal by then.
-/
namespace Workers

open World (Within)

namespace Worker

variable {U N : Type} {lib : Library U N} {w w' : World} {worker worker' : Worker (Frame U N)}

def isStarting (worker : Worker (Frame U N)) : Bool :=
  match worker.stage with
  | .starting _ _ => true
  | _ => false

def context? (worker : Worker (Frame U N)) : Option ContextId :=
  match worker.stage with
  | .running c _ | .collecting c _ | .destroying c _ => some c
  | _ => none

def isLeaving (worker : Worker (Frame U N)) : Bool :=
  match worker.stage with
  | .leaving => true
  | _ => false

def countOut (w : World) (worker : Worker (Frame U N)) : World :=
  match worker.stage with
  | .leaving => w.leave (w.handle worker.handle).pool
  | _ => w

def ChecksOnlyOwn (worker : Worker (Frame U N)) : Prop :=
  match worker.stage with
  | .running _ s => s.ChecksOnly worker.handle
  | _ => True

/-- What a step of a worker is for everybody else. -/
structure StepEffect (w : World) (worker : Worker (Frame U N)) (w' : World)
    (worker' : Worker (Frame U N)) : Prop where
  handle : worker'.handle = worker.handle
  within : Within worker.handle (worker.countOut w) w'
  keepsControl : ∀ i, i ≠ worker.handle → w.KeepsControl i w'
  checksOnlyOwn : worker'.ChecksOnlyOwn
  used : ∀ c, worker'.context? = some c →
    worker.context? = some c ∨ worker.isStarting = true ∧ (w.handle worker.handle).context = some c
  started : worker'.isStarting = false
  gone : worker'.isGone = worker.isLeaving

variable {h : WorkerId}

/-- The controls of others are left alone by the code of a worker that checks nobody else. -/
theorem keepsControl_running {c : ContextId} {s s' : Strand (Frame U N)} (honly : s.ChecksOnly h)
    (hs : s.step lib c w = .ran s' w') {i : WorkerId} (hi : i ≠ h) : w.KeepsControl i w' := by
  rcases Strand.step_control (h := i) hs with hchecks | ⟨_,hcontrol,_⟩
  · cases hchecks with
    | goto _ _ _ hat | finish _ _ _ hat =>
      rw [honly i hi] at hat
      cases hat
  · exact hcontrol

/-- A worker whose context serves it alone stays within its handle. -/
theorem stepEffect_step (hserves : ∀ c, worker.context? = some c → w.Serves c worker.handle)
    (hkeeps : worker.ChecksOnlyOwn) (hstep : worker.step lib w = .ran worker' w') :
    StepEffect w worker w' worker' := by
  obtain ⟨h,stage⟩ := worker
  obtain ⟨stage',rfl,ht⟩ := transition_of_step hstep
  cases ht with
  | deserted | completes | canceled | stops | fails =>
    exact ⟨rfl,.refl h w,fun i _ => .refl i w,trivial,nofun,rfl,rfl⟩
  | @begins c values routine arguments hcontext =>
    refine ⟨rfl,World.within_begin w h c arguments,
      fun i _ => World.keepsControl_begin w h c arguments,fun _ _ => rfl,
      fun d hd => ?_,rfl,rfl⟩
    obtain rfl : c = d := Option.some.inj hd
    exact .inr ⟨rfl,hcontext⟩
  | @unloaded c fault routine arguments hcontext =>
    refine ⟨rfl,World.within_begin w h c arguments,
      fun i _ => World.keepsControl_begin w h c arguments,trivial,
      fun d hd => ?_,rfl,rfl⟩
    obtain rfl : c = d := Option.some.inj hd
    exact .inr ⟨rfl,hcontext⟩
  | runs hs =>
    obtain ⟨hwithin,honly⟩ := Strand.keeps_step (hserves _ rfl) hkeeps hs
    exact ⟨rfl,hwithin,fun i hi => keepsControl_running hkeeps hs hi,honly,fun d hd => .inl hd,rfl,rfl⟩
  | @exits c s e =>
    rcases afterExit_cases c e with ⟨values,hnext⟩ | ⟨ending,hnext⟩
    all_goals
      rw [hnext]
      exact ⟨rfl,.refl h w,fun i _ => .refl i w,trivial,fun d hd => .inl hd,rfl,rfl⟩
  | @collects c values results _ hcollect | @uncollected c values fault _ hcollect =>
    have hwithin := World.within_collect w h { registry := (w.context c).registry } [] values
    have hcontrol := fun i => World.keepsControl_collect (h := i) w h
      { registry := (w.context c).registry } [] values
    rw [hcollect] at hwithin hcontrol
    exact ⟨rfl,hwithin,fun i _ => hcontrol i,trivial,fun d hd => .inl hd,rfl,rfl⟩
  | destroys c e =>
    exact ⟨rfl,World.within_dropContext (hserves c rfl),fun i _ =>
      World.keepsControl_dropContext w c,trivial,nofun,rfl,rfl⟩
  | publishes results status =>
    exact ⟨rfl,World.within_setResult w h results,
      fun i _ => World.keepsControl_setResult w h results,trivial,nofun,rfl,rfl⟩
  | announces status =>
    have hcontrol : ∀ i, i ≠ h → w.KeepsControl i (w.changeStatus h status) := fun i hi =>
      World.keepsControl_setHandle w h _ (fun hih => absurd hih.symm hi) fun hih => absurd hih.symm hi
    exact ⟨rfl,World.within_changeStatus w h status,hcontrol,trivial,nofun,rfl,rfl⟩
  | leaves =>
    exact ⟨rfl,World.within_disown _ h,fun i _ => World.keepsControl_leave w h _,trivial,
      nofun,rfl,rfl⟩

theorem not_gone (hstep : worker.step lib w = .ran worker' w') : worker.isGone = false := by
  obtain ⟨h,stage⟩ := worker
  cases stage with
  | gone => cases hstep
  | _ => rfl

def HasEnded (worker : Worker (Frame U N)) : Prop := worker.stage = .leaving ∨ worker.stage = .gone

theorem hasEnded_of_isGone (hgone : worker.isGone = true) : worker.HasEnded := by
  obtain ⟨h,stage⟩ := worker
  cases stage with
  | gone => exact .inr rfl
  | _ => cases hgone

theorem not_ended {stage : Stage (Frame U N)} (hleaving : stage ≠ .leaving) (hgone : stage ≠ .gone) :
    ¬ HasEnded { handle := h, stage } :=
  fun hended => hended.elim hleaving hgone

/-- A worker that had a context ends with a terminal status. -/
theorem terminal_step (hsound : WorkerState.Sound ⟨w,worker⟩)
    (hcontext : worker.isStarting = true → (w.handle worker.handle).context ≠ none)
    (hended : worker.HasEnded → (w.status worker.handle).isTerminal = true)
    (hstep : worker.step lib w = .ran worker' w') (hlast : worker'.HasEnded) :
    (w'.status worker.handle).isTerminal = true := by
  obtain ⟨h,stage⟩ := worker
  obtain ⟨stage',rfl,ht⟩ := transition_of_step hstep
  cases ht with
  | deserted routine arguments hnone => exact absurd hnone (hcontext rfl)
  | exits =>
    rcases afterExit_cases _ _ with ⟨values,hnext⟩ | ⟨ending,hnext⟩ <;> rw [hnext] at hlast <;>
      exact absurd hlast (not_ended nofun nofun)
  | canceled hended hstatus =>
    rw [hstatus]
    rfl
  | announces status =>
    have hself : (w.changeStatus h status).handle h = _ := World.handle_setHandle_self hsound.range _
    rw [World.status, hself]
    exact hsound.fits.2
  | leaves =>
    have hcontrol := World.keepsControl_leave (h := h) w h (w.handle h).pool
    rw [World.status, hcontrol.control]
    exact hended (.inl rfl)
  | begins | unloaded | runs | collects | uncollected => exact absurd hlast (not_ended nofun nofun)
  | destroys | completes | stops | fails | publishes => exact absurd hlast (not_ended nofun nofun)

end Worker

end Workers
