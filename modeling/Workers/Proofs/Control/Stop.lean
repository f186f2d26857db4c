import Workers.Proofs.Call.Effects
import Workers.Proofs.Call.Steps
import Workers.Proofs.Control.Points
/-! # A stop cannot be outlived

A context remembers that one of its checks has signalled stop, and nobody takes that back.  Whatever
its code makes of the signal, what is left of it can only come to an end: no scheduler begins another
step, no call is loaded, and nothing that still returns brings values.
-/
namespace Workers

namespace World

variable {c : ContextId} {h : WorkerId} {w w' w'' : World}

def KeepsStop (c : ContextId) (w w' : World) : Prop :=
  c < w.contexts.size → c < w'.contexts.size ∧
  ((w.context c).stopping = true → (w'.context c).stopping = true)

theorem KeepsStop.trans (hw : w.KeepsStop c w') (hw' : w'.KeepsStop c w'') : w.KeepsStop c w'' := by
  intro hc
  obtain ⟨hc',hstop⟩ := hw hc
  obtain ⟨hc'',hstop'⟩ := hw' hc'
  exact ⟨hc'',fun hs => hstop' (hstop hs)⟩

theorem KeepsStop.of_contexts (hcontexts : w'.contexts = w.contexts) : w.KeepsStop c w' := by
  intro hc
  rw [World.context, World.context, hcontexts]
  exact ⟨hc,id⟩

theorem KeepsControl.keepsStop (hs : w.KeepsControl h w') : w.KeepsStop c w' :=
  fun hc => ⟨hc.trans_le hs.contexts,hs.stopping c hc⟩

end World

variable {U N : Type} {lib : Library U N} {c d : ContextId} {w w' : World}

/-- Running code, in this or in another context. -/
theorem Strand.keepsStop_step {s s' : Strand (Frame U N)} (hstep : s.step lib d w = .ran s' w') :
    w.KeepsStop c w' := by
  rcases step_control (h := 0) hstep with hchecks | ⟨_,hkeeps,_⟩
  · cases hchecks with
    | goto at_ next control hat hmove hnext hw =>
      rw [hw]
      exact .of_contexts rfl
    | finish at_ stopped control hat hmove hnext hw =>
      have hcontrol : w.KeepsStop c (withControl w 0 control) := .of_contexts rfl
      rw [hw]
      exact hcontrol.trans (keepsControl_observe (h := 0) _ d stopped).keepsStop
  · exact hkeeps.keepsStop

theorem Errand.keepsStop_step {e e' : Errand} (hstep : e.step w = .ran e' w') : w.KeepsStop c w' := by
  rcases WorkerState.errand_control 0 hstep with hkeeps | ⟨command,rfl⟩
  · exact hkeeps.keepsStop
  · exact .of_contexts rfl

theorem Worker.keepsStop_step {worker worker' : Worker (Frame U N)}
    (hstep : worker.step lib w = .ran worker' w') :
    w.KeepsStop c w' := by
  obtain ⟨h,stage⟩ := worker
  rcases WorkerState.worker_step hstep with ⟨_,_,hkeeps,_⟩ | ⟨_,_,_,_,_,hs⟩ | ⟨status,_,_,rfl⟩
  · exact hkeeps.keepsStop
  · exact Strand.keepsStop_step hs
  · exact .of_contexts rfl

def Phase.EndsStopped {F : Type} : Phase F → Prop
  | .counting .. | .turn (.ended (.ok _) _) => False
  | _ => True

namespace Strand

variable {s s' : Strand (Frame U N)}

theorem endsStopped_unwind (describe : Frame U N → String) (fault : Fault) (failed : Frame U N)
    (below : List (Frame U N)) (unwound : List String) :
    (Phase.turn (Turn.unwind describe fault failed below unwound)).EndsStopped := by
  cases below <;> trivial

/-- A step that ends in a stopping context ends its scheduler, and a reception does not end one with
values. -/
theorem endsStopped_afterAct (role : Role (Frame U N)) (report : role.Report) :
    (afterAct lib true role report).EndsStopped := by
  cases role with
  | step below =>
    obtain ⟨frame,move⟩ := report
    cases move <;> trivial
  | receive below unwound =>
    obtain ⟨frame,accepted⟩ := report
    cases accepted with
    | ok _ => trivial
    | error fault => exact endsStopped_unwind _ fault frame below unwound
  | loneStep =>
    obtain ⟨frame,move⟩ := report
    cases move <;> trivial
  | loneReceive | outside => trivial

theorem endsStopped_step (hstop : (w.context c).stopping = true) (hs : s.phase.EndsStopped)
    (hstep : s.step lib c w = .ran s' w') : s'.phase.EndsStopped := by
  cases transition_of_step hstep with
  | due stack callers hgo | counted stack callers hgo => exact absurd hstop hgo
  | unloaded role k callers hgo | calls role k callers hgo => exact absurd hstop hgo
  | ticking | ticked => exact hs.elim
  | reports role report =>
    rw [hstop]
    exact endsStopped_afterAct role report
  | countedOut | plainStep | offers | escapes | returns | ends | asks | unhooked | checks | waits =>
    trivial
  | uncalled | panics | checking | checked | notified | expired => trivial

/-- The code of an act calls no step. -/
theorem step_not_mem_actEvents (stopping : Bool) (role : Role (Frame U N)) (act : Act role.Report)
    (r : Frame U N) :
    .step r ∉ actEvents lib stopping role act := by
  cases act with
  | done report =>
    simp only [actEvents]
    unfold Role.described
    split
    · split <;> simp
    · simp
    · simp
  | call f arguments k =>
    simp only [actEvents]
    split
    · simp
    · split <;> simp
  | query | check | wait | panic => simp [actEvents]

theorem step_not_mem_events (hstop : (w.context c).stopping = true) (hs : s.phase.EndsStopped)
    (hstep : s.step lib c w = .ran s' w') (r : Frame U N) : .step r ∉ s.events lib c w s' w' := by
  obtain ⟨phase,callers⟩ := s
  cases phase with
  | turn t =>
    cases transition_of_step hstep with
    | due stack callers hgo | counted stack callers hgo => exact absurd hstop hgo
    | countedOut => simp [events, Phase.opening]
    | plainStep | offers | escapes | returns | ends => simp [events]
  | acting role act =>
    simp only [events, List.mem_cons, reduceCtorEq, false_or]
    exact step_not_mem_actEvents _ role act r
  | counting => exact hs.elim
  | checking | waiting =>
    cases transition_of_step hstep <;> simp [events, Phase.opening]
  | exit => cases hstep

inductive Stops (w : World) : Strand (Frame U N) → Prop
  | counting {probe : Probe} {u : World} (stack : List (Frame U N)) (callers : List (Caller (Frame U N)))
      (hprobe : probe.step w = .finish true u) : Stops w ⟨.counting probe stack,callers⟩
  | checking {probe : Probe} {u : World} (role : Role (Frame U N)) (k : Bool → Act role.Report)
      (callers : List (Caller (Frame U N))) (hprobe : probe.step w = .finish true u) :
      Stops w ⟨.checking probe role k,callers⟩

/-- What happens in a context and around it: a step of the code that runs in it, the beginning of
other code when that has come to its end, a step of a worker or of a controller, or whatever leaves a
stop alone. -/
inductive Next (lib : Library U N) (c : ContextId) :
    World × Strand (Frame U N) → World × Strand (Frame U N) → Prop
  | own {w w' : World} {s s' : Strand (Frame U N)} (hstep : s.step lib c w = .ran s' w') :
      Next lib c (w,s) (w',s')
  | schedule {w : World} {s : Strand (Frame U N)} (stack : List (Frame U N))
      (hexit : s.exit?.isSome = true) :
      Next lib c (w,s) (w,ofStack stack)
  | act {w : World} {s : Strand (Frame U N)} (role : Role (Frame U N)) (act : Act role.Report)
      (hexit : s.exit?.isSome = true) : Next lib c (w,s) (w,⟨.acting role act,[]⟩)
  | worker {w w' : World} {s : Strand (Frame U N)} {worker worker' : Worker (Frame U N)}
      (hstep : worker.step lib w = .ran worker' w') : Next lib c (w,s) (w',s)
  | errand {w w' : World} {s : Strand (Frame U N)} {e e' : Errand} (hstep : e.step w = .ran e' w') :
      Next lib c (w,s) (w',s)
  | other {w w' : World} {s : Strand (Frame U N)} (hlasting : w.KeepsStop c w') : Next lib c (w,s) (w',s)

structure EndsStopped (c : ContextId) (w : World) (s : Strand (Frame U N)) : Prop where
  range : c < w.contexts.size
  stopping : (w.context c).stopping = true
  phase : s.phase.EndsStopped

theorem Stops.endsStopped (hstops : Stops w s) (hc : c < w.contexts.size)
    (hstep : s.step lib c w = .ran s' w') :
    EndsStopped c w' s' := by
  have hrange : ∀ {probe : Probe} {u : World}, probe.step w = .finish true u →
      c < u.contexts.size := fun hprobe => by
    rwa [contexts_writes (Probe.writes_finish hprobe)]
  cases hstops with
  | counting stack callers hprobe | checking role k callers hprobe =>
    simp only [step, hprobe] at hstep
    cases hstep
    exact ⟨by simpa [observe] using hrange hprobe,stopping_observe (hrange hprobe),trivial⟩

theorem EndsStopped.keepsStop (hd : EndsStopped c w s) (hlasting : w.KeepsStop c w') :
    EndsStopped c w' s := by
  obtain ⟨hc,hstop⟩ := hlasting hd.range
  exact ⟨hc,hstop hd.stopping,hd.phase⟩

theorem EndsStopped.next {u v : World × Strand (Frame U N)} (hd : EndsStopped c u.1 u.2)
    (hnext : Next lib c u v) :
    EndsStopped c v.1 v.2 := by
  cases hnext with
  | own hstep =>
    obtain ⟨hc,hstop⟩ := keepsStop_step hstep hd.range
    exact ⟨hc,hstop hd.stopping,endsStopped_step hd.stopping hd.phase hstep⟩
  | schedule | act => exact ⟨hd.range,hd.stopping,trivial⟩
  | worker hstep => exact hd.keepsStop (Worker.keepsStop_step hstep)
  | errand hstep => exact hd.keepsStop (Errand.keepsStop_step hstep)
  | other hlasting => exact hd.keepsStop hlasting

/-- What is true of the code in a stopped context, at any later time. -/
structure Unwinds (lib : Library U N) (c : ContextId) (w : World) (s : Strand (Frame U N)) : Prop where
  begins : ∀ s' w', s.step lib c w = .ran s' w' → ∀ r, .step r ∉ s.events lib c w s' w'
  loads :
      ∀ (role : Role (Frame U N)) (f : Routine) (arguments : List Value) (k : Outcome → Act role.Report),
    s.phase = .acting role (.call f arguments k) →
      s.step lib c w = .ran ⟨.acting role (k (.error .stop)),s.callers⟩ w
  returns : ∀ values left, s.phase ≠ .turn (.ended (.ok values) left)

theorem EndsStopped.unwinds (hd : EndsStopped c w s) : Unwinds lib c w s where
  begins _ _ hstep r := step_not_mem_events hd.stopping hd.phase hstep r
  loads role f arguments k hphase := by
    simp only [step, hphase, stepAct, hd.stopping, if_true]
  returns values left hphase := by
    have hends := hd.phase
    rw [hphase] at hends
    exact hends

end Strand

namespace Check

variable {at_ next : Check} {shutdown stopped : Bool} {control control' : Control}

theorem not_completed_goto (hmove : at_.step shutdown control = .goto next control')
    (hopen : control.status ≠ .completed) : control'.status ≠ .completed := by
  rcases control_goto hmove with ⟨_,rfl⟩ | ⟨_,rfl⟩
  · exact hopen
  · unfold Control.acknowledgePause
    split
    · nofun
    · exact hopen

theorem not_completed_finish (hmove : at_.step shutdown control = .finish stopped control')
    (hopen : control.status ≠ .completed) : control'.status ≠ .completed := by
  rcases control_finish hmove with ⟨_,rfl⟩ | ⟨_,rfl⟩ | ⟨_,rfl⟩
  · exact hopen
  · nofun
  · nofun

end Check

namespace WorkerState

variable {x y : WorkerState U N} {h : WorkerId} {worker' : Worker (Frame U N)}

def StageNeverCompletes (w : World) : Stage (Frame U N) → Prop
  | .starting .. | .collecting .. => False
  | .running c s => Strand.EndsStopped c w s ∧ ¬ s.phase.EndsWithValues
  | .destroying _ e | .judging e => ∀ results, e ≠ .completed results
  | .publishing _ status | .announcing status => status ≠ .completed
  | .leaving | .gone => True

structure NeverCompletes (x : WorkerState U N) : Prop where
  status : x.status ≠ .completed
  stage : StageNeverCompletes x.world x.worker.stage

theorem StageNeverCompletes.kept {stage : Stage (Frame U N)} (hm : StageNeverCompletes w stage)
    (hlasting : ∀ c, w.KeepsStop c w') :
    StageNeverCompletes w' stage := by
  cases stage with
  | running c s => exact ⟨hm.1.keepsStop (hlasting c),hm.2⟩
  | starting | collecting | destroying | judging | publishing | announcing | leaving | gone => exact hm

theorem NeverCompletes.keepsControl (hm : NeverCompletes x)
    (hs : x.world.KeepsControl x.worker.handle w) : NeverCompletes ⟨w,x.worker⟩ where
  status := by
    have hcontrol : (⟨w,x.worker⟩ : WorkerState U N).control = x.control := hs.control
    rw [WorkerState.status, hcontrol]
    exact hm.status
  stage := hm.stage.kept fun _ => hs.keepsStop

theorem stageNeverCompletes_afterExit {s : Strand (Frame U N)} {e : Exit (Frame U N)}
    (hwins : ¬ s.phase.EndsWithValues) (he : s.exit? = some e) (w : World) :
    StageNeverCompletes w (Worker.afterExit c e) := by
  have hphase : s.phase = .exit e := by
    unfold Strand.exit? at he
    split at he
    · rename_i e' heq
      rw [heq, Option.some.inj he]
    · cases he
  rw [hphase] at hwins
  cases e with
  | ended outcome left =>
    cases outcome with
    | ok values => exact hwins (.exit values left)
    | error unwind => cases unwind <;> exact nofun
  | stepped | received | panicked => exact nofun

/-- The stages of a worker that was stopped lead to a cancellation or a failure. -/
theorem stageNeverCompletes_step {stage : Stage (Frame U N)} (hx : Fits w h stage)
    (hm : StageNeverCompletes w stage)
    (hstep : ({ handle := h, stage } : Worker (Frame U N)).step lib w = .ran worker' w') :
    StageNeverCompletes w' worker'.stage := by
  obtain ⟨stage',rfl,ht⟩ := Worker.transition_of_step hstep
  cases ht with
  | deserted | begins | unloaded | collects | uncollected => exact hm.elim
  | runs hs =>
    obtain ⟨_,hcalled,_⟩ := hx
    obtain ⟨hends,hwins⟩ := hm
    exact ⟨hends.next (.own hs),Strand.not_endsWithValues_step hcalled hends.stopping hwins hs⟩
  | exits hexit => exact stageNeverCompletes_afterExit hm.2 hexit w
  | destroys | publishes => exact hm
  | completes results => exact absurd rfl (hm results)
  | stops | fails => nofun
  | canceled | announces | leaves => trivial

theorem not_completed_running {s s' : Strand (Frame U N)} (hh : h < w.handles.size)
    (hs : s.step lib c w = .ran s' w') (hopen : (w.handle h).control.status ≠ .completed) :
    (w'.handle h).control.status ≠ .completed := by
  rcases Strand.step_control (h := h) hs with hchecks | ⟨_,hkeeps,_⟩
  · cases hchecks with
    | goto at_ next control hat hmove hnext hw =>
      rw [hw, control_withControl hh]
      exact Check.not_completed_goto hmove hopen
    | finish at_ stopped control hat hmove hnext hw =>
      rw [hw, (Strand.keepsControl_observe _ c stopped).control, control_withControl hh]
      exact Check.not_completed_finish hmove hopen
  · rw [hkeeps.control]
    exact hopen

theorem NeverCompletes.works (hm : NeverCompletes x) (hx : Sound x) (hworks : Works lib x y) :
    NeverCompletes y := by
  obtain ⟨w,⟨h,stage⟩⟩ := x
  obtain ⟨w',worker'⟩ := y
  have hh : h < w.handles.size := hx.range
  have hmiss : StageNeverCompletes w' worker'.stage := stageNeverCompletes_step hx.fits hm.stage hworks
  refine ⟨?_,hmiss⟩
  rcases worker_step hworks with ⟨_,rfl,hkeeps,_⟩ | ⟨c,s,s',rfl,rfl,hs⟩ | ⟨status,rfl,rfl,rfl⟩
  · have hstatus : (w'.handle h).control.status = (w.handle h).control.status :=
      congrArg Control.status hkeeps.control
    exact fun hcompleted => hm.status (hstatus.symm.trans hcompleted)
  · exact not_completed_running hh hs hm.status
  · have hstatus : ((w.changeStatus h status).handle h).control.status = status :=
      congrArg (fun handle => handle.control.status) (World.handle_setHandle_self hh _)
    exact fun hcompleted => hm.stage (hstatus.symm.trans hcompleted)

theorem Step.neverCompletes (hstep : Step lib x y) (hx : Sound x) (hm : NeverCompletes x) :
    NeverCompletes y := by
  cases hstep with
  | worker hstep => exact hm.works hx hstep
  | errand hstep =>
    rcases errand_control x.worker.handle hstep with hkeeps | ⟨command,rfl⟩
    · exact hm.keepsControl hkeeps
    · refine ⟨?_,hm.stage.kept fun _ => .of_contexts rfl⟩
      have hstatus : (x.told command).status = x.status := by
        rw [status, control_told hx, Control.status_putCommand]
        rfl
      exact fun hcompleted => hm.status (hstatus.symm.trans hcompleted)
  | other hkeeps => exact hm.keepsControl hkeeps

theorem Steps.neverCompletes (hsteps : Steps lib x y) (hx : Sound x) (hm : NeverCompletes x) :
    NeverCompletes y := by
  induction hsteps with
  | refl => exact hm
  | tail hsteps hstep ih => exact hstep.neverCompletes (Steps.sound hsteps hx) ih

/-- A worker that stops while it runs code has not completed, and does not any more. -/
theorem neverCompletes_of_stops {s s' : Strand (Frame U N)}
    (hx : Sound (⟨w,{ handle := h, stage := .running c s }⟩ : WorkerState U N)) (hstops : s.Stops w)
    (hstep : s.step lib c w = .ran s' w') :
    NeverCompletes (⟨w',{ handle := h, stage := .running c s' }⟩ : WorkerState U N) := by
  obtain ⟨hc,hcalled,hterm⟩ := hx.fits
  refine ⟨not_completed_running hx.range hstep fun hcompleted => ?_,hstops.endsStopped hc hstep,?_⟩
  · -- while code runs, `canceled` is the only terminal status
    have hcanceled := (hterm (by rw [hcompleted]; rfl)).1
    rw [hcompleted] at hcanceled
    cases hcanceled
  · cases hcalled with
    | counting probe stack hr => exact Strand.not_endsWithValues_counting hstep
    | checking probe k hi hr => exact Strand.not_endsWithValues_checking hi hstep
    | start | finished | exit | turn | acting | waiting => cases hstops

end WorkerState

/-- Once a check that was made through a context has signalled stop, all code in the context unwinds,
and a worker that runs there never completes. -/
theorem stop_lasts {s s' : Strand (Frame U N)} (hc : c < w.contexts.size) (hstops : s.Stops w)
    (hstep : s.step lib c w = .ran s' w') :
    (∀ v, Relation.ReflTransGen (Strand.Next lib c) (w',s') v → Strand.Unwinds lib c v.1 v.2) ∧
      ∀ h z, WorkerState.Reachable lib ⟨w,{ handle := h, stage := .running c s }⟩ →
        WorkerState.Steps lib ⟨w',{ handle := h, stage := .running c s' }⟩ z →
          z.status ≠ .completed ∧ ∀ d u, z.worker.stage = .running d u →
          Strand.Unwinds lib d z.world u := by
  constructor
  · intro v hnext
    -- along whatever goes on in the context
    have hends : Strand.EndsStopped c v.1 v.2 := by
      induction hnext with
      | refl => exact hstops.endsStopped hc hstep
      | tail _ hnext ih => exact ih.next hnext
    exact hends.unwinds
  · intro h z hx hsteps
    have hexit : s.exit? = none := by cases hstops <;> rfl
    have hy := (WorkerState.works_running (h := h) hexit hstep).step.sound hx.sound
    have hnever := WorkerState.Steps.neverCompletes hsteps hy
      (WorkerState.neverCompletes_of_stops hx.sound hstops hstep)
    refine ⟨hnever.status,fun d u hstage => ?_⟩
    have hstage' := hnever.stage
    rw [hstage] at hstage'
    exact hstage'.1.unwinds

namespace WorkerState

/-- A worker that is about to stop does so. -/
theorem stops_of_checkOf {s : Strand (Frame U N)} (hcheck : s.checkOf h = some .stop) (w : World) :
    s.Stops w := by
  obtain ⟨phase,callers⟩ := s
  cases phase with
  | counting probe stack =>
    obtain rfl := Strand.probe_of_checkOf hcheck
    exact .counting stack callers rfl
  | checking probe role k =>
    obtain rfl := Strand.probe_of_checkOf hcheck
    exact .checking role k callers rfl
  | turn | acting | waiting | exit => cases hcheck

def cancelled : WorkerState Unit Unit := go 2 (put .cancel (go 5 fresh))

theorem stop_lasts_cancelled : ∃ c s s' w', (cancelled.worker.stage = .running c s ∧
    c < cancelled.world.contexts.size ∧ s.Stops cancelled.world ∧
    s.step tickingTwice c cancelled.world = .ran s' w') ∧
      (∀ v, Relation.ReflTransGen (Strand.Next tickingTwice c) (w',s') v →
        Strand.Unwinds tickingTwice c v.1 v.2) ∧
        ∀ z, Steps tickingTwice ⟨w',{ handle := cancelled.worker.handle, stage := .running c s' }⟩
          z →
          z.status ≠ .completed := by
  have hreach : Reachable tickingTwice cancelled :=
    ⟨fresh,launched_fresh,((steps_go 5 fresh).trans (steps_put .cancel _)).trans (steps_go 2 _)⟩
  have hpoint : cancelled.point = some .stop := by decide
  obtain ⟨c,s,hstage,hcheck⟩ := running_of_point hpoint
  generalize cancelled = x at hreach hstage hcheck
  obtain ⟨w,⟨h,stage⟩⟩ := x
  obtain rfl : stage = .running c s := hstage
  have hc : c < w.contexts.size := hreach.sound.fits.1
  obtain ⟨s',hstep,_⟩ := Strand.step_of_finish tickingTwice c w hcheck rfl
  have hstops := stops_of_checkOf hcheck w
  obtain ⟨hunwinds,hlasts⟩ := stop_lasts hc hstops hstep
  exact ⟨c,s,s',_,⟨rfl,hc,hstops,hstep⟩,hunwinds,fun z hsteps => (hlasts h z hreach hsteps).1⟩

end WorkerState

end Workers
