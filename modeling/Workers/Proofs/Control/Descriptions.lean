import Workers.Proofs.Control.Failures
/-! # Tracebacks in descriptions

A worker that has been asked for tracebacks runs among controllers and others, who leave its context
to it.  When it has failed, its body has, and the worker describes how; and of the runtime errors
exactly those of the call are described with a traceback.
-/
namespace Workers

namespace World

variable {c : ContextId} {h : WorkerId} {w : World}

theorem handler_configure (hcontext : (w.handle h).context = some c) (hc : c < w.contexts.size)
    {config : Config} (htraceback : config.traceback = true) :
    ((w.configure h config).context c).handler = some traceback := by
  have hset :
      c <
      (w.setContext c
      { w.context c with path := config.path, cpath := config.cpath }).contexts.size := by
    rwa [size_setContext]
  have hsize := hset.trans_le (keepsControl_setHook (h := h) _ c (.worker h) config.step).contexts
  rw [configure, hcontext]
  simp only [htraceback, if_true]
  rw [context_setContext_self hsize]

theorem handler_errand {e e' : Errand} {w' : World} (hstep : e.step w = .ran e' w') :
    (w'.context c).handler = (w.context c).handler ∧ (w'.handle h).result = (w.handle h).result := by
  rcases Errand.step_cases hstep with ⟨i,command,rfl⟩ | ⟨n,rfl⟩ | ⟨p,rfl⟩ | rfl
  · refine ⟨rfl,?_⟩
    rw [putCommand, handle_setHandle]
    split
    · rename_i hi
      rw [hi.1]
    · rfl
  · exact ⟨rfl,rfl⟩
  · exact ⟨rfl,rfl⟩
  · exact ⟨rfl,rfl⟩

end World

namespace WorkerState

variable {U N : Type} {lib : Library U N} {x y : WorkerState U N} {w : World} {reached : Option String}

structure ResultUntouched (x : WorkerState U N) (w : World) : Prop where
  context : ∀ c, (w.handle x.worker.handle).context = some c →
      (x.world.handle x.worker.handle).context = some c
  handler : ∀ c, x.RunsIn c → (w.context c).handler = (x.world.context c).handler
  result : (w.handle x.worker.handle).result = (x.world.handle x.worker.handle).result

theorem ResultUntouched.refl (x : WorkerState U N) : x.ResultUntouched x.world :=
  ⟨fun _ hc => hc,fun _ _ => rfl,rfl⟩

theorem resultUntouched_errand {e e' : Errand} (hstep : e.step x.world = .ran e' w) :
    x.ResultUntouched w where
  context _ hc := (World.target_errand x.worker.handle hstep).2.symm.trans hc
  handler _ _ := (World.handler_errand (h := 0) hstep).1
  result := (World.handler_errand (c := 0) hstep).2

theorem Traced.resultUntouched (hx : Traced x) (hleft : x.ResultUntouched w) : Traced ⟨w,x.worker⟩ := by
  refine ⟨fun c hc => ?_,hx.hasRunnable⟩
  have howns : x.RunsIn c := hc.imp (fun ⟨hstage,hcontext⟩ => ⟨hstage,hleft.context c hcontext⟩) id
  exact (hleft.handler c howns).trans (hx.handler c howns)

theorem Describes.resultUntouched (hdescribes : x.Describes reached)
    (hstatus : (⟨w,x.worker⟩ : WorkerState U N).status = x.status) (hleft : x.ResultUntouched w) :
    (⟨w,x.worker⟩ : WorkerState U N).Describes reached := by
  obtain ⟨u,h,stage⟩ := x
  have hresult : (w.handle h).result = (u.handle h).result := hleft.result
  cases stage with
  | starting | running | collecting | destroying | judging | publishing => exact hdescribes
  | announcing status =>
    intro hfailed
    rw [hresult]
    exact hdescribes hfailed
  | leaving | gone =>
    intro hfailed
    rw [hresult]
    exact hdescribes (hstatus.symm.trans hfailed)

theorem traced_of_past (hpast : x.worker.stage.Past) : Traced x :=
  ⟨fun c hc => absurd hc (not_runsIn_of_past hpast c),fun c s hs =>
    absurd (.inr ⟨s,hs⟩) (not_runsIn_of_past hpast c)⟩

theorem traced_running {c : ContextId} {s : Strand (Frame U N)} (hstage : x.worker.stage = .running c s)
    (hhandler : (x.world.context c).handler = some traceback) (hs : s.phase.HasRunnable) : Traced x := by
  refine ⟨fun d hd => ?_,fun d t ht => ?_⟩
  · rw [hd.unique hstage, hhandler]
  · obtain ⟨_,rfl⟩ := Stage.running.inj (hstage.symm.trans ht)
    exact hs

/-- The code of a worker keeps the error handler, unless it destroys the context. -/
theorem Traced.works (hx : Traced x) (hkeeps : x.destroys = false) (hworks : Works lib x y) :
    Traced y := by
  obtain ⟨w,h,stage⟩ := x
  obtain ⟨w',worker'⟩ := y
  obtain ⟨stage',rfl,ht⟩ := hworks.transition
  cases ht with
  | @begins c values routine arguments hcontext =>
    have hhandler := hx.handler c (.inl ⟨⟨routine,arguments,rfl⟩,hcontext⟩)
    have hload := World.handler_loadAll (c := c)
      (w.setHandle h { w.handle h with context := none }) c arguments
    exact traced_running rfl (hload.trans hhandler) trivial
  | @runs c s s' _ hs =>
    exact traced_running rfl ((Strand.handler_step hkeeps hs).trans (hx.handler c (.inr ⟨s,rfl⟩)))
      (Strand.hasRunnable_step (hx.hasRunnable c s rfl) hs)
  | exits => exact traced_of_past (Worker.past_afterExit _ _)
  | deserted | unloaded | collects | uncollected | destroys | completes => exact traced_of_past trivial
  | canceled | stops | fails | publishes | announces | leaves => exact traced_of_past trivial

/-- A worker that has just been started with a configuration. -/
def LaunchedWith (config : Config) (x : WorkerState U N) : Prop :=
  ∃ (w w' : World) (p : PoolId) (routine : Routine) (arguments adopted : List Stored) (h : WorkerId),
    w.prepare p config arguments = (.ok (h,adopted),w') ∧
    x = ⟨w',{ handle := h, stage := .starting routine adopted }⟩

theorem LaunchedWith.launched {config : Config} (hx : LaunchedWith config x) : Launched x := by
  obtain ⟨w,w',p,routine,arguments,adopted,h,hprepare,rfl⟩ := hx
  exact ⟨w,w',p,config,routine,arguments,adopted,h,hprepare,rfl⟩

theorem LaunchedWith.traced {config : Config} (hx : LaunchedWith config x)
    (htraceback : config.traceback = true) :
    Traced x := by
  obtain ⟨w,w',p,routine,arguments,adopted,h,hprepare,rfl⟩ := hx
  obtain ⟨v,rfl,hbefore⟩ := World.registered_of_prepare hprepare
  refine ⟨fun c hc => ?_,fun _ _ hs => by cases hs⟩
  rcases hc with ⟨_,hc⟩ | ⟨s,hs⟩
  · obtain ⟨hcontext,hin,_⟩ := hbefore c hc
    exact World.handler_configure hcontext hin htraceback
  · cases hs

inductive ConfiguredStep (lib : Library U N) : WorkerState U N → WorkerState U N → Prop
  | worker {x y : WorkerState U N} (hworks : Works lib x y) : ConfiguredStep lib x y
  | errand {x : WorkerState U N} {e e' : Errand} {w : World} (hstep : e.step x.world = .ran e' w) :
      ConfiguredStep lib x ⟨w,x.worker⟩
  | other {x : WorkerState U N} {w : World} (hcontrol : x.world.KeepsControl x.worker.handle w)
      (hleft : x.ResultUntouched w) :
      ConfiguredStep lib x ⟨w,x.worker⟩

theorem ConfiguredStep.step (hstep : ConfiguredStep lib x y) : Step lib x y := by
  cases hstep with
  | worker hworks => exact .worker hworks
  | errand hstep => exact .errand hstep
  | other hcontrol => exact .other hcontrol

theorem ConfiguredStep.works_or_resultUntouched (hstep : ConfiguredStep lib x y) :
    Works lib x y ∨ ∃ w, y = ⟨w,x.worker⟩ ∧ (⟨w,x.worker⟩ : WorkerState U N).status = x.status ∧
    x.ResultUntouched w := by
  cases hstep with
  | worker hworks => exact .inl hworks
  | errand hstep =>
    exact (Step.errand hstep).works_or_rests.imp_right fun ⟨_,hstatus⟩ =>
      ⟨_,rfl,hstatus,resultUntouched_errand hstep⟩
  | other hcontrol hleft => exact .inr ⟨_,rfl,congrArg Control.status hcontrol.control,hleft⟩

/-- What a worker with a configuration goes through, together with everybody else. -/
structure ConfiguredExecution (lib : Library U N) where
  config : Config
  state : ℕ → WorkerState U N
  launched : LaunchedWith config (state 0)
  step (n : ℕ) : ConfiguredStep lib (state n) (state (n + 1))

namespace ConfiguredExecution

variable (r : ConfiguredExecution lib) {n : ℕ}

def execution : Execution lib where
  state := r.state
  launched := r.launched.launched
  step n := (r.step n).step

/-- The next step of the worker at a time is a failure of its body. -/
def FailsAt (n : ℕ) (cause : BodyFailure) : Prop :=
  Works lib (r.state n) (r.state (n + 1)) ∧ (r.state n).FailsNext lib cause

theorem traced (htraceback : r.config.traceback = true)
    (hkeeps : ∀ m < n, (r.state m).destroys = false) :
    Traced (r.state n) := by
  induction n with
  | zero => exact r.launched.traced htraceback
  | succ n ih =>
    have hx := ih fun m hm => hkeeps m (Nat.lt_succ_of_lt hm)
    rcases (r.step n).works_or_resultUntouched with hworks | ⟨w,hw,_,hleft⟩
    · exact hx.works (hkeeps n n.lt_succ_self) hworks
    · rw [hw]
      exact hx.resultUntouched hleft

/-- At every time it is certain what will be said of a failure, or its body has not failed. -/
theorem exists_description (htraceback : r.config.traceback = true)
    (hkeeps : ∀ m < n, (r.state m).destroys = false) :
    ∃ reached, (r.state n).Describes reached ∧
    (∀ d, reached = some d → ∃ m < n, ∃ cause, r.FailsAt m cause) ∧
      ∀ m < n, ∀ cause, r.FailsAt m cause → reached = some cause.description := by
  induction n with
  | zero =>
    obtain ⟨w,w',p,routine,arguments,adopted,h,_,hstart⟩ := r.launched
    refine ⟨none,?_,nofun,nofun⟩
    rw [hstart]
    rfl
  | succ n ih =>
    have hbefore : ∀ m < n, (r.state m).destroys = false := fun m hm => hkeeps m (Nat.lt_succ_of_lt hm)
    obtain ⟨reached,hdescribes,hsome,hmet⟩ := ih hbefore
    have hx := r.traced htraceback hbefore
    have hsound := r.execution.sound n
    by_cases hfailure : ∃ cause, r.FailsAt n cause
    · obtain ⟨cause,hworks,hmeets⟩ := hfailure
      obtain ⟨hnone,hdescribes'⟩ := hmeets.describes hx hsound hdescribes hworks
      refine ⟨_,hdescribes',fun _ _ => ⟨n,n.lt_succ_self,cause,hworks,hmeets⟩,
        fun m hm other hother => ?_⟩
      rcases Nat.lt_succ_iff_lt_or_eq.mp hm with hlt | rfl
      · cases hnone.symm.trans (hmet m hlt other hother)
      · rw [hother.2.unique hmeets]
    · refine ⟨reached,?_,fun d hd => ?_,fun m hm cause hmeets => ?_⟩
      · rcases (r.step n).works_or_resultUntouched with hworks | ⟨w,hw,hstatus,hleft⟩
        · exact hdescribes.works hx hsound hworks fun cause hmeets => hfailure ⟨cause,hworks,hmeets⟩
        · rw [hw]
          exact hdescribes.resultUntouched hstatus hleft
      · obtain ⟨m,hm,hmeets⟩ := hsome d hd
        exact ⟨m,Nat.lt_succ_of_lt hm,hmeets⟩
      · rcases Nat.lt_succ_iff_lt_or_eq.mp hm with hlt | rfl
        · exact hmet m hlt cause hmeets
        · exact absurd ⟨cause,hmeets⟩ hfailure

end ConfiguredExecution

theorem Describes.failed {d : String} (hdescribes : x.Describes reached) (hsound : Sound x)
    (hfailed : x.Failed d) :
    reached = some d := by
  obtain ⟨w,h,stage⟩ := x
  obtain ⟨hstatus,hresult⟩ := hfailed
  have hstatus : (w.handle h).control.status = .failed := hstatus
  have hterm : (w.handle h).control.status.isTerminal = true := by rw [hstatus]; rfl
  have hfits := hsound.fits
  have hcanceled : ¬ (w.handle h).control.status = .canceled := by rw [hstatus]; nofun
  cases stage with
  | starting | publishing | announcing => exact absurd hterm hfits.1
  | collecting => exact absurd hterm hfits
  | running => exact absurd (hfits.2.2 hterm).1 hcanceled
  | destroying | judging => exact absurd (hfits hterm).1 hcanceled
  | leaving | gone =>
    obtain ⟨d',houtcome,hshown⟩ := hdescribes hstatus
    have hresult : (w.handle h).result = failureResult d := hresult
    rw [houtcome]
    rcases hshown with hsame | hgone
    · cases hresult.symm.trans hsame
      rfl
    · cases hresult.symm.trans hgone

/-- The body of a worker with tracebacks that has failed has failed before, and the worker describes
how; and if this was a runtime error, then the description has a traceback exactly if it was an
error of the call.  Code that destroys its context is left out, since the error handler goes with
it. -/
theorem ConfiguredExecution.failure_traced_iff (r : ConfiguredExecution lib) {n : ℕ} {d : String}
    (htraceback : r.config.traceback = true) (hkeeps : ∀ m < n, (r.state m).destroys = false)
    (hfailed : (r.state n).Failed d) :
    (∃ m < n, ∃ cause, r.FailsAt m cause) ∧ ∀ m < n, ∀ cause, r.FailsAt m cause →
    d = cause.description ∧
      ∀ fault, cause.fault? = some fault →
      (fault.Traced d ↔ ∃ frames, cause = .calling fault frames) := by
  obtain ⟨reached,hdescribes,hsome,hmet⟩ := r.exists_description htraceback hkeeps
  have houtcome := hdescribes.failed (r.execution.sound n) hfailed
  refine ⟨hsome d houtcome,fun m hm cause hmeets => ?_⟩
  have hd : d = cause.description := Option.some.inj (houtcome.symm.trans (hmet m hm cause hmeets))
  refine ⟨hd,fun fault hfault => ?_⟩
  rw [hd]
  exact BodyFailure.traced_iff hfault

def cyclicResult : Library Unit Bool where
  load f _ := .ok (.native f.name (some (f.loader == 0)))
  step _ := .done ((),.finish [])
  receive _ outcome := .done ((),refuse outcome)
  describe _ := ""
  body
    | true => .done (true,.fault (.detailed "boom"))
    | false =>
      .query .newTable fun t => .query (.set t (.string "k") t) fun _ => .done (false,.finish [t])

def workOn (lib : Library U N) (x : WorkerState U N) : WorkerState U N :=
  match x.worker.step lib x.world with
  | .ran worker w => ⟨w,worker⟩
  | .blocked _ => x

theorem configuredStep_workOn (lib : Library U N) (x : WorkerState U N) :
    ConfiguredStep lib x (workOn lib x) := by
  unfold workOn
  split
  · rename_i hworks
    exact .worker hworks
  · exact .other (.refl _ _) (.refl x)

def LaunchedWith.alone {config : Config} (lib : Library U N) (hx : LaunchedWith config x) :
    ConfiguredExecution lib where
  config := config
  state n := (workOn lib)^[n] x
  launched := hx
  step n := by
    rw [Function.iterate_succ_apply']
    exact configuredStep_workOn lib _

def tracing : Config := { Config.standard with traceback := true }

def tracingStart (f : Routine) : WorkerState Unit Bool :=
  ⟨(World.prepare ({} : World).addPool.2 0 tracing []).2,{ handle := 0, stage := .starting f [] }⟩

theorem launched_tracingStart (f : Routine) : LaunchedWith tracing (tracingStart f) :=
  ⟨({} : World).addPool.2,_,0,f,[],[],0,rfl,rfl⟩

theorem failure_traced_boom : let r := (launched_tracingStart ⟨"f",0⟩).alone cyclicResult
    let d := traceback (.detailed "boom") ["-> Executing Native Function: f"]
    (r.config.traceback = true ∧ (∀ m < 13, (r.state m).destroys = false) ∧ (r.state 13).Failed d) ∧
      (∃ m < 13, ∃ cause, r.FailsAt m cause) ∧ ∀ m < 13, ∀ cause, r.FailsAt m cause →
      d = cause.description ∧
        ∀ fault, cause.fault? = some fault →
        (fault.Traced d ↔ ∃ frames, cause = .calling fault frames) := by
  intro r d
  have hkeeps : ∀ m < 13, (r.state m).destroys = false := by decide
  have hfailed : (r.state 13).Failed d := ⟨rfl,rfl⟩
  exact ⟨⟨rfl,hkeeps,hfailed⟩,r.failure_traced_iff rfl hkeeps hfailed⟩

open Capture (storeValue storeEntries storeValue_table) in
/-- A table that holds itself is refused, and nothing is left of the capture. -/
theorem collect_knot {w : World} {t : LocalTable} {k : Key} (hread : w.memory.heap.read 0 = .ok t)
    (hentries : t.entries = [(k,.table 0)]) (h : WorkerId) (r : RegistryId) :
    w.collect h { registry := r } [] [.table 0] = (.error .cyclicTable,w) := by
  have hback : ∀ p : Capture.Progress,
      storeValue w.memory.heap r [0] p (.table 0) = (.error ⟨.cyclicTable,[0]⟩,p) := by
    intro p
    simp [storeValue]
  have hwhole := @storeValue_table w.memory.heap r [] ⟨w.store,[]⟩ 0 t List.not_mem_nil rfl hread
  rw [hentries, storeEntries, hback] at hwhole
  have hnone : SharedTable.handles .empty = [] := rfl
  simp only [hnone, Store.settle_nil] at hwhole
  simp only [World.collect, Capture.store, hwhole, Capture.finish, Store.drop, List.map_nil,
    List.flatMap_nil,
    Store.settle_nil]
  rfl

def beforeStoring : WorkerState Unit Bool :=
  (workOn cyclicResult)^[10] (tracingStart ⟨"f",1⟩)

def afterStoring : WorkerState Unit Bool :=
  ⟨beforeStoring.world,{ handle := 0, stage := .destroying 0 (.failed Fault.cyclicTable.message) }⟩

theorem beforeStoring_worker :
    beforeStoring.worker = { handle := 0, stage := .collecting 0 [.table 0] } := rfl

theorem collect_beforeStoring :
    beforeStoring.world.collect 0 { registry := (beforeStoring.world.context 0).registry } []
      [.table 0] =
      (.error .cyclicTable,beforeStoring.world) :=
  collect_knot rfl rfl 0 _

theorem step_beforeStoring :
    beforeStoring.worker.step cyclicResult beforeStoring.world =
    .ran afterStoring.worker afterStoring.world := by
  rw [beforeStoring_worker]
  simp only [Worker.step, collect_beforeStoring]
  rfl

theorem workOn_beforeStoring : workOn cyclicResult beforeStoring = afterStoring := by
  rw [workOn, step_beforeStoring]

theorem iterate_workOn_afterStoring (n : ℕ) :
    (workOn cyclicResult)^[n + 11] (tracingStart ⟨"f",1⟩) = (workOn cyclicResult)^[n] afterStoring := by
  rw [Function.iterate_add_apply, Function.iterate_succ_apply' (workOn cyclicResult) 10]
  exact congrArg _ workOn_beforeStoring

/-- The result cannot be stored, and the description is the message alone. -/
theorem failure_untraced :
    ¬ ∀ (r : ConfiguredExecution cyclicResult) (m n : ℕ) (d : String) (fault : Fault)
        (cause : BodyFailure),
      r.config.traceback = true → (∀ k < n, (r.state k).destroys = false) →
      (r.state n).Failed d → m < n →
      r.FailsAt m cause → cause.fault? = some fault → fault.Traced d := by
  intro htraced
  let r := (launched_tracingStart ⟨"f",1⟩).alone cyclicResult
  have hafter : ∀ k, r.state (k + 11) = (workOn cyclicResult)^[k] afterStoring :=
    iterate_workOn_afterStoring
  have hkeeps : ∀ k < 15, (r.state k).destroys = false := by
    intro k hk
    rcases lt_or_ge k 11 with hearly | hlate
    · have hbefore : ∀ k < 11,
        (((launched_tracingStart ⟨"f",1⟩).alone cyclicResult).state k).destroys = false := by decide
      exact hbefore k hearly
    · obtain ⟨k,rfl⟩ := Nat.exists_eq_add_of_le' hlate
      have huntied : ∀ k < 4, ((workOn cyclicResult)^[k] afterStoring).destroys = false := by decide
      rw [hafter]
      exact huntied k (by omega)
  have hfailed : (r.state 15).Failed Fault.cyclicTable.message := by
    rw [hafter 4]
    exact ⟨rfl,rfl⟩
  have hmeets : r.FailsAt 10 (.storing .cyclicTable) := by
    refine ⟨?_,.storing (congrArg Worker.stage beforeStoring_worker)
      (congrArg Prod.fst collect_beforeStoring)⟩
    rw [hafter 0]
    exact step_beforeStoring
  exact not_traced_message _ (htraced r 10 15 _ _ _ rfl hkeeps hfailed (by decide) hmeets rfl)

end WorkerState

end Workers
