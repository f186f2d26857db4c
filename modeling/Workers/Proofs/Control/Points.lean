import Workers.Proofs.Control.Finality
/-! # The points of a check

What one step of anybody does to the control of a worker and to the point of the check that the
worker is at.  An invariant of the two is proved against these cases alone.
-/
namespace Workers

variable {U N : Type} {lib : Library U N} {w w' : World} {h : WorkerId} {c : ContextId}

/-- What one step does to a control and to the point that its worker is at, if it puts no command. -/
inductive Check.Passage : Control → Option Check → Control → Option Check → Prop
  | rest (control : Control) (point : Option Check) : Passage control point control point
  | enter (control : Control) (kind : CheckKind) : Passage control none control (some (start kind))
  | goto {at_ next : Check} {control control' : Control} {shutdown : Bool}
      (hmove : at_.step shutdown control = .goto next control') :
      Passage control (some at_) control' (some next)
  | finish {at_ : Check} {control control' : Control} {shutdown stopped : Bool}
      (hmove : at_.step shutdown control = .finish stopped control') :
      Passage control (some at_) control' none
  | announce (control : Control) {status : Status} (hterm : status.isTerminal = true) :
      Passage control none (control.changeStatus status) none

/-- A check goes round in a pause, or leaves the control alone. -/
theorem Check.goto_cases {at_ next : Check} {shutdown : Bool} {control control' : Control}
    (hmove : at_.step shutdown control = .goto next control') :
    (at_ = .acknowledge ∧ next = .awaitCommand ∧ control' = control.acknowledgePause) ∨
      control' = control ∧ (next.Harmless ∨ next = .acknowledge ∧ control.command = .pause ∨
        at_ = .reconsider ∧ next = .resume ∧ control.command = .run ∨
        at_ = .awaitCommand ∧ next = .reconsider ∧ control.commandChanged.latched = true) := by
  cases at_ with
  | tickShutdown | pointShutdown =>
    cases hmove
    cases shutdown <;> exact .inr ⟨rfl,.inl trivial⟩
  | tickCommand =>
    simp only [step] at hmove
    split at hmove <;> cases hmove
    · exact .inr ⟨rfl,.inl trivial⟩
    · rename_i hpause
      exact .inr ⟨rfl,.inr (.inl ⟨rfl,hpause⟩)⟩
  | acknowledge =>
    cases hmove
    exact .inl ⟨rfl,rfl,rfl⟩
  | awaitCommand =>
    simp only [step] at hmove
    split at hmove <;> cases hmove
    rename_i hlatched
    exact .inr ⟨rfl,.inr (.inr (.inr ⟨rfl,rfl,hlatched⟩))⟩
  | reconsider =>
    simp only [step] at hmove
    split at hmove <;> cases hmove
    · rename_i hrun
      exact .inr ⟨rfl,.inr (.inr (.inl ⟨rfl,rfl,hrun⟩))⟩
    · exact .inr ⟨rfl,.inl trivial⟩
    · rename_i hpause
      exact .inr ⟨rfl,.inr (.inl ⟨rfl,hpause⟩)⟩
  | pointCommand =>
    simp only [step] at hmove
    split at hmove <;> cases hmove
    exact .inr ⟨rfl,.inl trivial⟩
  | resume | stop => cases hmove

/-- A worker writes to its control only to acknowledge a pause or to change its status. -/
theorem Check.Passage.writes {control control' : Control} {point point' : Option Check}
    (hpass : Passage control point control' point') :
    control' = control ∨ control' = control.acknowledgePause ∨
    ∃ status, control' = control.changeStatus status := by
  cases hpass with
  | rest | enter => exact .inl rfl
  | announce _ _ => exact .inr (.inr ⟨_,rfl⟩)
  | goto hmove =>
    rcases control_goto hmove with ⟨_,rfl⟩ | ⟨_,rfl⟩
    · exact .inl rfl
    · exact .inr (.inl rfl)
  | finish hmove =>
    rcases control_finish hmove with ⟨_,rfl⟩ | ⟨_,rfl⟩ | ⟨_,rfl⟩
    · exact .inl rfl
    · exact .inr (.inr ⟨_,rfl⟩)
    · exact .inr (.inr ⟨_,rfl⟩)

theorem Check.Passage.command {control control' : Control} {point point' : Option Check}
    (hpass : Passage control point control' point') : control'.command = control.command := by
  rcases hpass.writes with rfl | rfl | ⟨_,rfl⟩
  · rfl
  · unfold Control.acknowledgePause
    split <;> rfl
  · rfl

def Worker.point (worker : Worker (Frame U N)) : Option Check :=
  match worker.stage with
  | .running _ s => s.checkOf worker.handle
  | _ => none

theorem Worker.point_afterExit (c : ContextId) (h : WorkerId) (e : Exit (Frame U N)) :
    point ⟨h,afterExit c e⟩ = none := by
  rcases afterExit_cases c e with ⟨_,hnext⟩ | ⟨_,hnext⟩ <;> rw [hnext] <;> rfl

/-- Outside of running code a step neither begins nor ends at a point. -/
theorem Worker.point_step {worker worker' : Worker (Frame U N)}
    (hstep : worker.step lib w = .ran worker' w') :
    (∃ c s s', worker.stage = .running c s ∧ worker' = { worker with stage := .running c s' } ∧
      s.step lib c w = .ran s' w') ∨ worker.point = none ∧ worker'.point = none := by
  obtain ⟨h,stage⟩ := worker
  obtain ⟨stage',rfl,ht⟩ := transition_of_step hstep
  cases ht with
  | @runs c s s' _ hs => exact .inl ⟨c,s,s',rfl,rfl,hs⟩
  | @exits c s e hexit =>
    refine .inr ⟨?_,point_afterExit c h e⟩
    cases hat : s.checkOf h with
    | none => exact hat
    | some at_ =>
      rw [Strand.exit_of_checkOf hat] at hexit
      cases hexit
  | deserted | begins | unloaded | collects | uncollected | destroys | completes => exact .inr ⟨rfl,rfl⟩
  | canceled | stops | fails | publishes | announces | leaves => exact .inr ⟨rfl,rfl⟩

namespace WorkerState

open Check (Passage)

variable {x y : WorkerState U N} {at_ next : Check} {control : Control} {stopped : Bool}

def point (x : WorkerState U N) : Option Check := x.worker.point

def Works (lib : Library U N) (x y : WorkerState U N) : Prop :=
  x.worker.step lib x.world = .ran y.worker y.world

theorem Works.step (hworks : Works lib x y) : Step lib x y := .worker hworks

theorem Works.transition {h : WorkerId} {stage : Stage (Frame U N)} {worker' : Worker (Frame U N)}
    (hworks : Works lib (⟨w,⟨h,stage⟩⟩ : WorkerState U N) ⟨w',worker'⟩) :
    ∃ stage', worker' = ⟨h,stage'⟩ ∧ Worker.Transition lib h w stage stage' w' :=
  Worker.transition_of_step hworks

theorem Works.unique {z : WorkerState U N} (hy : Works lib x y) (hz : Works lib x z) : y = z := by
  obtain ⟨w,worker⟩ := y
  obtain ⟨w',worker'⟩ := z
  obtain ⟨rfl,rfl⟩ := Progress.ran.inj (hy.symm.trans hz)
  rfl

theorem Works.handle_eq (hworks : Works lib x y) : y.worker.handle = x.worker.handle := by
  rcases worker_step hworks with ⟨_,hworker,_⟩ | ⟨_,_,_,_,hworker,_⟩ | ⟨_,_,hworker,_⟩ <;> rw [hworker]

def requested (x : WorkerState U N) : Bool :=
  (x.world.pool (x.world.handle x.worker.handle).pool).requested

theorem running_of_point (hat : x.point = some at_) :
    ∃ c s, x.worker.stage = .running c s ∧ s.checkOf x.worker.handle = some at_ := by
  obtain ⟨w,⟨h,stage⟩⟩ := x
  cases stage with
  | running c s => exact ⟨c,s,rfl,hat⟩
  | starting | collecting | destroying | judging | publishing | announcing | leaving | gone => cases hat

theorem works_running {c : ContextId} {s s' : Strand (Frame U N)} (hexit : s.exit? = none)
    (hs : s.step lib c w = .ran s' w') :
    Works lib (⟨w,{ handle := h, stage := .running c s }⟩ : WorkerState U N)
      ⟨w',{ handle := h, stage := .running c s' }⟩ := by
  simp only [Works, Worker.step, hexit, hs]
  rfl

theorem works_goto (lib : Library U N) (hx : Sound x) (hat : x.point = some at_)
    (hmove : at_.step x.requested x.control = .goto next control) :
    ∃ y, Works lib x y ∧ y.point = some next ∧ y.control = control := by
  obtain ⟨w,⟨h,stage⟩⟩ := x
  obtain ⟨c,s,hstage,hcheck⟩ := running_of_point hat
  obtain rfl : stage = .running c s := hstage
  obtain ⟨s',hs,hnext⟩ := Strand.step_of_goto lib c w hcheck hmove
  exact ⟨_,works_running (Strand.exit_of_checkOf hcheck) hs,hnext,control_withControl hx.range control⟩

theorem works_finish (lib : Library U N) (hx : Sound x) (hat : x.point = some at_)
    (hmove : at_.step x.requested x.control = .finish stopped control) :
    ∃ y, Works lib x y ∧ y.point = none ∧ y.control = control := by
  obtain ⟨w,⟨h,stage⟩⟩ := x
  obtain ⟨c,s,hstage,hcheck⟩ := running_of_point hat
  obtain rfl : stage = .running c s := hstage
  obtain ⟨s',hs,hnext⟩ := Strand.step_of_finish lib c w hcheck hmove
  have hobserve :=
    (Strand.keepsControl_observe (h := h) (Strand.withControl w h control) c stopped).control
  exact ⟨_,works_running (Strand.exit_of_checkOf hcheck) hs,hnext,
    hobserve.trans (control_withControl hx.range control)⟩

theorem passage_rest (hcontrol : y.control = x.control) (hpoint : y.point = x.point) :
    Passage x.control x.point y.control y.point := by
  rw [hcontrol, hpoint]
  exact .rest _ _

/-- A step of running code is one of its check, or the control stays and at most a check begins. -/
theorem passage_running {c : ContextId} {s s' : Strand (Frame U N)} (hh : h < w.handles.size)
    (hs : s.step lib c w = .ran s' w') :
    Passage (w.handle h).control (s.checkOf h) (w'.handle h).control (s'.checkOf h) := by
  rcases Strand.step_control (h := h) hs with hchecks | ⟨hnone,hkeeps,hbegins⟩
  · cases hchecks with
    | goto at_ next control hat hmove hnext hw =>
      rw [hat, hnext, hw, control_withControl hh]
      exact .goto hmove
    | finish at_ stopped control hat hmove hnext hw =>
      rw [hat, hnext, hw, (Strand.keepsControl_observe _ c stopped).control, control_withControl hh]
      exact .finish hmove
  · rw [hnone, hkeeps.control]
    cases hat : s'.checkOf h with
    | none => exact .rest _ _
    | some at_ =>
      obtain ⟨kind,rfl⟩ := hbegins at_ hat
      exact .enter _ kind

theorem passage_works (hx : Sound x) (hworks : Works lib x y) :
    Passage x.control x.point y.control y.point := by
  obtain ⟨w,⟨h,stage⟩⟩ := x
  obtain ⟨w',worker'⟩ := y
  have hh : h < w.handles.size := hx.range
  rcases Worker.point_step hworks with ⟨c,s,s',hstage,hworker',hs⟩ | ⟨hpoint,hpoint'⟩
  · obtain rfl : stage = .running c s := hstage
    obtain rfl : worker' = _ := hworker'
    exact passage_running hh hs
  · rcases worker_step hworks with ⟨stage',rfl,hkeeps,_⟩ | ⟨c,s,s',rfl,rfl,hs⟩ | ⟨status,rfl,rfl,rfl⟩
    · exact passage_rest hkeeps.control (hpoint'.trans hpoint.symm)
    · exact passage_running hh hs
    · have hcontrol : ((w.changeStatus h status).handle h).control =
          (w.handle h).control.changeStatus status :=
        congrArg WorkerHandle.control (World.handle_setHandle_self hh _)
      simp only [WorkerState.control, hcontrol]
      exact .announce _ hx.fits.2

def told (x : WorkerState U N) (command : Command) : WorkerState U N :=
  ⟨x.world.putCommand x.worker.handle command,x.worker⟩

theorem control_told (hx : Sound x) (command : Command) :
    (x.told command).control = x.control.putCommand command :=
  congrArg WorkerHandle.control (World.handle_setHandle_self hx.range _)

theorem Step.passage_or_told (hstep : Step lib x y) (hx : Sound x) :
    Passage x.control x.point y.control y.point ∨ ∃ command, y = x.told command := by
  cases hstep with
  | worker hstep => exact .inl (passage_works hx hstep)
  | errand hstep =>
    rcases errand_control x.worker.handle hstep with hkeeps | ⟨command,rfl⟩
    · exact .inl (passage_rest hkeeps.control rfl)
    · exact .inr ⟨command,rfl⟩
  | other hkeeps => exact .inl (passage_rest hkeeps.control rfl)

theorem Launched.control_eq (hx : Launched x) : x.control = {} := by
  obtain ⟨w,w',p,config,routine,arguments,adopted,h,hprepare,rfl⟩ := hx
  unfold World.prepare at hprepare
  simp only at hprepare
  split at hprepare
  · cases hprepare
  · have hfresh : (((w.enter p).addHandle p).2.handle ((w.enter p).addHandle p).1).control = {} := by
      rw [World.handle_addHandle_self]
    generalize (w.enter p).addHandle p = started at hfresh hprepare
    obtain ⟨i,u⟩ := started
    have hadopt := World.keepsControl_adoptAll (h := i) u i 1 arguments
    split at hprepare
    · cases hprepare
    · rename_i adopted' v heq
      rw [heq] at hadopt
      cases hprepare
      exact ((World.keepsControl_register v i config p).control.trans hadopt.control).trans hfresh

theorem Launched.point_eq (hx : Launched x) : x.point = none := by
  obtain ⟨w,w',p,config,routine,arguments,adopted,h,hprepare,rfl⟩ := hx
  rfl

/-- What holds of a fresh control and is kept by every passage and every command holds along every
run. -/
theorem Reachable.kept {P : Control → Option Check → Prop} (hx : Reachable lib x) (hstart : P {} none)
    (hpassage : ∀ {control point control' point'}, Passage control point control' point' →
      P control point → P control' point')
    (hput : ∀ {control point} command, P control point → P (control.putCommand command) point) :
    P x.control x.point := by
  obtain ⟨z,hz,hsteps⟩ := hx
  induction hsteps with
  | refl =>
    rw [hz.control_eq, hz.point_eq]
    exact hstart
  | tail hsteps hstep ih =>
    have hsound := Steps.sound hsteps hz.sound
    rcases hstep.passage_or_told hsound with hpass | ⟨command,rfl⟩
    · exact hpassage hpass ih
    · rw [control_told hsound]
      exact hput command ih

end WorkerState

end Workers
