import Workers.Proofs.Control.Replies
import Workers.Proofs.Pool.Shutdown
/-! # Whether a pause undoes a shutdown

A tick looks at the shutdown flag once and then at the latest command only.  The cancellation that a
shutdown puts is such a command, and a pause that comes after it takes its place.  So a worker that is
past its look at the flag can be kept in the pause, or sent into it, by a controller that knows
nothing of the shutdown.
-/
namespace Workers

namespace Check

/-- Past the look at the flag in a tick, with the latest command still to be read. -/
def BeforeCommand : Check → Prop
  | tickCommand | acknowledge | awaitCommand | reconsider => True
  | tickShutdown | resume | pointShutdown | pointCommand | stop => False

variable {at_ next : Check} {control control' : Control}

theorem not_beforeCommand_start (kind : CheckKind) : ¬ (start kind).BeforeCommand := by
  cases kind <;> exact id

/-- With the flag set a check only goes on to the latest command from where it reads commands already. -/
theorem beforeCommand_goto (hmove : at_.step true control = .goto next control')
    (hnext : next.BeforeCommand) : at_.BeforeCommand := by
  cases at_ with
  | tickCommand | acknowledge | awaitCommand | reconsider => trivial
  | tickShutdown | pointShutdown =>
    cases hmove
    exact hnext
  | pointCommand =>
    simp only [step] at hmove
    split at hmove <;> cases hmove
    exact hnext
  | resume | stop => cases hmove

end Check

namespace WorkerState

variable {U N : Type} {lib : Library U N} {x y : WorkerState U N}

def Stranded (x : WorkerState U N) : Prop :=
  x.point = some .awaitCommand ∧ x.control.commandChanged.latched = false

/-- The worker goes by the latest command, and that is a pause or can become one. -/
def Exposed (x : WorkerState U N) : Prop :=
  (∃ at_, x.point = some at_ ∧ at_.BeforeCommand) ∧
  (¬ x.status.isTerminal = true ∨ x.control.command = .pause)

theorem Stranded.exposed (hx : Sound x) (hstranded : x.Stranded) : x.Exposed := by
  refine ⟨⟨_,hstranded.1,trivial⟩,.inl fun hterm => ?_⟩
  rcases (hx.ended hterm).2 _ hstranded.1 with hharmless | ⟨hack,_⟩
  · exact hharmless
  · cases hack

/-- With the flag set no step of the worker brings it to the latest command. -/
theorem beforeCommand_works {at_ : Check} (hworks : Works lib x y)
    (hrequested : x.requested = true) (hat : y.point = some at_) (hlatest : at_.BeforeCommand) :
    ∃ at_, x.point = some at_ ∧ at_.BeforeCommand := by
  have hflag : (x.world.pool (x.world.handle x.worker.handle).pool).requested = true := hrequested
  rcases Worker.point_step hworks with ⟨c,s,s',hstage,hworker,hs⟩ | ⟨_,hnone⟩
  · have hpoint : x.point = s.checkOf x.worker.handle := by simp only [point, Worker.point, hstage]
    have hpoint' : y.point = s'.checkOf x.worker.handle := by simp only [point, Worker.point, hworker]
    rw [hpoint'] at hat
    rcases Strand.step_control (h := x.worker.handle) hs with hchecks | ⟨_,_,hbegins⟩
    · cases hchecks with
      | goto before next control hbefore hmove hnext hw =>
        obtain rfl := Option.some.inj (hnext.symm.trans hat)
        rw [hflag] at hmove
        exact ⟨before,hpoint.trans hbefore,Check.beforeCommand_goto hmove hlatest⟩
      | finish before stopped control hbefore hmove hnext hw => cases hnext.symm.trans hat
    · obtain ⟨kind,rfl⟩ := hbegins at_ hat
      exact absurd hlatest (Check.not_beforeCommand_start kind)
  · cases hnone.symm.trans hat

/-- With the flag set nobody becomes exposed. -/
theorem Step.exposed (hstep : Step lib x y) (hx : Sound x) (hrequested : x.requested = true)
    (hy : y.Exposed) :
    x.Exposed := by
  obtain ⟨⟨at_,hat,hlatest⟩,hopen⟩ := hy
  constructor
  · cases hstep with
    | @worker worker w hworks =>
      exact beforeCommand_works (y := ⟨w,worker⟩) hworks hrequested hat hlatest
    | errand | other => exact ⟨at_,hat,hlatest⟩
  · by_cases hterm : x.status.isTerminal = true
    · rcases hstep.same_or_acknowledges hx hterm with ⟨hstatus,hcommand⟩ | ⟨_,hpause⟩
      · rw [hstatus, hcommand] at hopen
        exact hopen
      · exact .inr hpause
    · exact .inl hterm

def WorksOrTold (lib : Library U N) (x y : WorkerState U N) : Prop :=
  Works lib x y ∨ ∃ command, y = x.told command

theorem strands_acknowledge (lib : Library U N) (hx : Sound x) (hat : x.point = some .acknowledge)
    (hpause : x.control.command = .pause) :
    ∃ y, Relation.ReflTransGen (WorksOrTold lib) x y ∧ y.Stranded := by
  obtain ⟨y,hworks,hpoint,hcontrol⟩ := works_goto lib hx hat rfl
  refine ⟨y,.single (.inl hworks),hpoint,?_⟩
  rw [hcontrol, Control.acknowledgePause, if_pos hpause]
  rfl

theorem strands_reading (lib : Library U N) (hx : Sound x) {at_ : Check}
    (hat : x.point = some at_)
    (hmove : at_.step x.requested x.control = .goto .acknowledge x.control)
    (hpause : x.control.command = .pause) :
    ∃ y, Relation.ReflTransGen (WorksOrTold lib) x y ∧ y.Stranded := by
  obtain ⟨y,hworks,hpoint,hcontrol⟩ := works_goto lib hx hat hmove
  obtain ⟨z,hworking,hz⟩ := strands_acknowledge lib (hworks.step.sound hx) hpoint (hcontrol ▸ hpause)
  exact ⟨z,.head (.inl hworks) hworking,hz⟩

/-- Left alone with a pause, a worker that goes by the latest command waits in it. -/
theorem strands_pause (lib : Library U N) (hx : Sound x) {at_ : Check} (hat : x.point = some at_)
    (hlatest : at_.BeforeCommand) (hpause : x.control.command = .pause) :
    ∃ y, Relation.ReflTransGen (WorksOrTold lib) x y ∧ y.Stranded := by
  cases at_ with
  | tickCommand | reconsider =>
    exact strands_reading lib hx hat (by simp only [Check.step, hpause]) hpause
  | acknowledge => exact strands_acknowledge lib hx hat hpause
  | awaitCommand =>
    cases hlatched : x.control.commandChanged.latched with
    | false => exact ⟨x,.refl,hat,hlatched⟩
    | true =>
      obtain ⟨y,hworks,hpoint,hcontrol⟩ := works_goto lib hx hat (if_pos hlatched)
      have hpause' : y.control.command = .pause := hcontrol ▸ hpause
      obtain ⟨z,hworking,hz⟩ := strands_reading lib (hworks.step.sound hx) hpoint
        (by simp only [Check.step, hpause']) hpause'
      exact ⟨z,.head (.inl hworks) hworking,hz⟩
  | tickShutdown | resume | pointShutdown | pointCommand | stop => exact hlatest.elim

/-- An exposed worker can be stranded: one more pause is enough. -/
theorem Exposed.strands (lib : Library U N) (hx : Sound x) (hexposed : x.Exposed) :
    ∃ y, Relation.ReflTransGen (WorksOrTold lib) x y ∧ y.Stranded := by
  obtain ⟨⟨at_,hat,hlatest⟩,hopen⟩ := hexposed
  by_cases hpause : x.control.command = .pause
  · exact strands_pause lib hx hat hlatest hpause
  · have hrunning : ¬ x.control.status.isTerminal = true := hopen.resolve_right hpause
    have hcontrol := control_told hx .pause
    rw [Control.putCommand, if_neg hrunning] at hcontrol
    obtain ⟨y,hworking,hy⟩ := strands_pause lib (x := x.told .pause) (hx.put .pause) hat hlatest
      (congrArg Control.command hcontrol)
    exact ⟨y,.head (.inr ⟨.pause,rfl⟩) hworking,hy⟩

end WorkerState

namespace PoolState

variable {U N : Type} {lib : Library U N} {x y z : PoolState U N} {i : Nat} {s : Spawn U N} {p : PoolId}
variable {worker : Worker (Frame U N)}

/-- The steps of other starts go around the handle of this one. -/
theorem Sound.around_spawn (hx : Sound x) (hs : x.spawns[i]? = some s) {j : Nat} {t : Spawn U N}
    {stage : Spawning (Frame U N)} {w : World} (hij : j ≠ i) (ht : x.spawns[j]? = some t)
    (hstep : t.stage.step t.launcher x.world = .ran stage w) : ∃ own, World.Around own x.world w ∧
      ∀ h, s.stage.handle? = some h → own ≠ some h ∧ stage.handOut x.shares h = x.shares h := by
  have hother : ∀ h, s.stage.handle? = some h → t.stage.handle? ≠ some h :=
    fun h hh hown => hij (hx.distinct j i t s h ht hs hown hh)
  by_cases hmakes : t.stage.makes = true
  · obtain ⟨l,old⟩ := t
    cases old with
    | preparing arguments =>
      cases hstep
      exact ⟨none,World.around_addHandle x.world l.pool,fun _ _ => ⟨nofun,rfl⟩⟩
    | _ => cases hmakes
  · have hserves := fun h c => hx.serves_unused ht (h := h) (c := c)
    obtain ⟨haround,hhandle⟩ := Spawning.around_step (Bool.eq_false_iff.mpr hmakes) hserves hstep
    exact ⟨_,haround,fun h hh =>
      ⟨hother h hh,Spawning.handOut_of_ne fun hnew => hother h hh (hhandle h hnew)⟩⟩

/-- For the worker of a start every step of anybody is one of its own, an errand, or leaves its
control alone. -/
theorem Step.hasWorker (hstep : Step lib x y) (hx : Sound x) (hs : x.spawns[i]? = some s)
    (hworker : s.stage.worker? = some worker) :
    ∃ stage worker', y.spawns[i]? = some { s with stage } ∧ stage.worker? = some worker' ∧
      WorkerState.Step lib ⟨x.world,worker⟩ ⟨y.world,worker'⟩ := by
  have hh := Spawning.handle?_worker hworker
  have hrange := hx.range i s _ hs hh
  cases hstep with
  | call l arguments hpool =>
    refine ⟨s.stage,worker,?_,hworker,.other (.refl _ _)⟩
    exact (List.getElem?_append_left (List.getElem?_eq_some_iff.mp hs).1).trans hs
  | @spawn j t stage w ht hstep =>
    by_cases hij : j = i
    · subst hij
      obtain rfl := Option.some.inj (hs.symm.trans ht)
      obtain ⟨l,old⟩ := s
      obtain rfl | rfl := Spawning.of_worker? hworker
      · cases hstep
        exact ⟨.started worker,worker,restage_spawn hs,rfl,.other (.of_eq rfl rfl)⟩
      · cases hstep
    · obtain ⟨own,haround,hown⟩ := hx.around_spawn hs hij ht hstep
      exact ⟨s.stage,worker,(List.getElem?_set_ne hij).trans hs,hworker,
        .other (haround.keepsControl _ hrange (hown _ hh).1)⟩
  | @fail j t h adopted reason ht hstage =>
    have hij : j ≠ i := by
      rintro rfl
      obtain rfl := Option.some.inj (hs.symm.trans ht)
      rw [hstage] at hworker
      cases hworker
    exact ⟨s.stage,worker,(List.getElem?_set_ne hij).trans hs,hworker,.other (.of_eq rfl rfl)⟩
  | @work j t other other' w ht hother hstep =>
    by_cases hij : j = i
    · subst hij
      obtain rfl := Option.some.inj (hs.symm.trans ht)
      obtain rfl := Option.some.inj (hworker.symm.trans hother)
      exact ⟨_,other',restage_spawn hs,Spawning.worker?_withWorker hworker other',.worker hstep⟩
    · obtain ⟨_,hstays⟩ := hx.settled_step ht hother hstep
      have hne : some other.handle ≠ some worker.handle := fun hown =>
        hij (hx.distinct j i t s _ ht hs ((Spawning.handle?_worker hother).trans hown) hh)
      exact ⟨s.stage,worker,(List.getElem?_set_ne hij).trans hs,hworker,
        .other (hstays.around.keepsControl _ hrange hne)⟩
  | shut => exact ⟨s.stage,worker,hs,hworker,.other (.refl _ _)⟩
  | order he hstep => exact ⟨s.stage,worker,hs,hworker,.errand hstep⟩
  | errand hstep => exact ⟨s.stage,worker,hs,hworker,.errand hstep⟩
  | guard | unguard => exact ⟨s.stage,worker,hs,hworker,.other (.of_eq rfl rfl)⟩
  | share h => exact ⟨s.stage,worker,hs,hworker,.other (World.keepsControl_own x.world h)⟩
  | unshare h => exact ⟨s.stage,worker,hs,hworker,.other (World.keepsControl_disown x.world h)⟩
  | @other w hstarts =>
    have hhandle := hstarts.handle i s _ hs hh
    refine ⟨s.stage,worker,hs,hworker,.other ⟨hstarts.handles,by rw [hhandle],fun c hc => hhandle ▸ hc,
      hstarts.contexts,hstarts.stopping⟩⟩

def HasWorker (x : PoolState U N) (i : Nat) (p : PoolId) (v : WorkerState U N) : Prop :=
  v.world = x.world ∧ ∃ s, x.spawns[i]? = some s ∧ s.launcher.pool = p ∧ s.stage.worker? = some v.worker

variable {v v' : WorkerState U N}

theorem HasWorker.unique (hv : x.HasWorker i p v) (hv' : x.HasWorker i p v') : v = v' := by
  obtain ⟨w,worker⟩ := v
  obtain ⟨w',worker'⟩ := v'
  obtain ⟨rfl,s,hs,_,hworker⟩ := hv
  obtain ⟨rfl,s',hs',_,hworker'⟩ := hv'
  obtain rfl := Option.some.inj (hs.symm.trans hs')
  obtain rfl := Option.some.inj (hworker.symm.trans hworker')
  rfl

theorem HasWorker.settled (hx : Sound x) (hv : x.HasWorker i p v) :
    Settled x.home x.world x.shares i p v.worker := by
  obtain ⟨_,s,hs,rfl,hworker⟩ := hv
  exact Fits.settled (hx.fits i s hs) hworker

theorem HasWorker.sound (hx : Sound x) (hv : x.HasWorker i p v) : v.Sound := by
  have hsettled := hv.settled hx
  obtain ⟨w,worker⟩ := v
  obtain ⟨rfl,_⟩ := hv
  exact hsettled.sound

theorem HasWorker.requested (hx : Sound x) (hv : x.HasWorker i p v) :
    v.requested = (x.world.pool p).requested := by
  have hsettled := hv.settled hx
  unfold WorkerState.requested
  rw [hv.1, hsettled.pool]

theorem HasWorker.step (hx : Sound x) (hv : x.HasWorker i p v) (hstep : Step lib x y) :
    ∃ v', y.HasWorker i p v' ∧ WorkerState.Step lib v v' := by
  obtain ⟨w,worker⟩ := v
  obtain ⟨rfl,s,hs,hp,hworker⟩ := hv
  obtain ⟨stage,worker',hs',hworker',hhas⟩ := hstep.hasWorker hx hs hworker
  exact ⟨⟨y.world,worker'⟩,⟨rfl,_,hs',hp,hworker'⟩,hhas⟩

theorem HasWorker.worksOrTold (hv : x.HasWorker i p v) (hworking : WorkerState.WorksOrTold lib v v') :
    ∃ y, Step lib x y ∧ y.HasWorker i p v' := by
  obtain ⟨w,worker⟩ := v
  obtain ⟨rfl,s,hs,hp,hworker⟩ := hv
  rcases hworking with hworks | ⟨command,rfl⟩
  · refine ⟨_,.work hs hworker hworks,rfl,_,restage_spawn hs,hp,Spawning.worker?_withWorker hworker _⟩
  · have hput : Errand.step x.world { orders := [.put worker.handle command] } =
        .ran { orders := [] } (x.world.putCommand worker.handle command) := rfl
    exact ⟨_,.errand hput,rfl,s,hs,hp,hworker⟩

theorem HasWorker.worksOrTold_all (hv : x.HasWorker i p v)
    (hworking : Relation.ReflTransGen (WorkerState.WorksOrTold lib) v v') :
    ∃ y, Steps lib x y ∧ y.HasWorker i p v' := by
  induction hworking with
  | refl => exact ⟨x,.refl,hv⟩
  | tail _ hworking ih =>
    obtain ⟨y,hsteps,hy⟩ := ih
    obtain ⟨z,hstep,hz⟩ := hy.worksOrTold hworking
    exact ⟨z,hsteps.tail hstep,hz⟩

def Cancels (p : PoolId) (h : WorkerId) (x y : PoolState U N) : Prop :=
  ∃ j e e' w rest, x.shutdowns[j]? = some (p,e) ∧ e.orders = .put h .cancel :: rest ∧
    e.step x.world = .ran e' w ∧ y = { x with world := w, shutdowns := x.shutdowns.set j (p,e') }

/-- The worker of a start waits in its pause for a command that nobody has put. -/
def Stranded (x : PoolState U N) (i : Nat) : Prop := ∃ p v, x.HasWorker i p v ∧ v.Stranded

theorem Cancels.step {h : WorkerId} (hcancels : Cancels p h x y) : Step lib x y := by
  obtain ⟨j,e,e',w,rest,he,_,hstep,rfl⟩ := hcancels
  exact .order he hstep

/-- A shutdown that cancels workers has set the flag. -/
theorem Cancels.requested {h : WorkerId} (hcancels : Cancels p h x y) (hx : Invariant x) :
    (x.world.pool p).requested = true := by
  obtain ⟨j,e,e',w,rest,he,horders,_⟩ := hcancels
  cases (hx.shuts p e (List.mem_of_getElem? he)).2 with
  | begun hbegun => cases horders.symm.trans hbegun
  | waits _ _ hrequested => exact hrequested
  | returned hdone => cases horders.symm.trans hdone

/-- With the flag set, whoever is not exposed is not going to be. -/
theorem Steps.not_exposed (hsteps : Steps lib x y) (hx : Invariant x)
    (hrequested : (x.world.pool p).requested = true) (hv : x.HasWorker i p v) (hnot : ¬ v.Exposed) :
    Invariant y ∧ (y.world.pool p).requested = true ∧ ∃ v', y.HasWorker i p v' ∧ ¬ v'.Exposed := by
  induction hsteps with
  | refl => exact ⟨hx,hrequested,v,hv,hnot⟩
  | tail _ hstep ih =>
    obtain ⟨hy,hrequested',v',hv',hnot'⟩ := ih
    obtain ⟨v'',hv'',hhas⟩ := hv'.step hy.sound hstep
    refine ⟨hstep.invariant hy,(hstep.keepsPools hy.sound).requested p hrequested',v'',hv'',
      fun hexposed => hnot' ?_⟩
    exact hhas.exposed (hv'.sound hy.sound) ((hv'.requested hy.sound).trans hrequested') hexposed

/-- Exactly when a pause cannot undo the cancellation of a shutdown: if at that moment the worker is not
in a tick past its look at the flag, unless its status is terminal with no pause pending. -/
theorem never_stranded_iff (hx : Reachable lib x) (hcancels : Cancels p v.worker.handle x y)
    (hv : y.HasWorker i p v) :
    (∀ z, Steps lib y z → ¬ z.Stranded i) ↔ ¬ v.Exposed := by
  have hkept := hx.invariant
  have hstep : Step lib x y := hcancels.step
  have hy := hstep.invariant hkept
  constructor
  · intro hnever hexposed
    obtain ⟨v',hworking,hstranded⟩ := hexposed.strands lib (hv.sound hy.sound)
    obtain ⟨z,hsteps,hz⟩ := hv.worksOrTold_all hworking
    exact hnever z hsteps ⟨p,v',hz,hstranded⟩
  · rintro hnot z hsteps ⟨q,v',hv',hstranded⟩
    have hrequested := (hstep.keepsPools hkept.sound).requested p (hcancels.requested hkept)
    obtain ⟨hz,_,v'',hv'',hnot'⟩ := hsteps.not_exposed hy hrequested hv hnot
    have heq : v' = v'' := by
      obtain ⟨hw,s,hs,hq,hworker⟩ := hv'
      obtain ⟨hw'',s'',hs'',hp,hworker''⟩ := hv''
      obtain rfl := Option.some.inj (hs.symm.trans hs'')
      exact HasWorker.unique ⟨hw,s,hs,rfl,hworker⟩ ⟨hw'',s,hs'',rfl,hworker''⟩
    exact hnot' (heq ▸ hstranded.exposed (hv'.sound hz.sound))

def workerPoint (x : PoolState U N) (i : Nat) : Option (PoolId × WorkerId × Option Check) :=
  (x.spawns[i]?).bind fun s => s.stage.worker?.map fun worker =>
    (s.launcher.pool,worker.handle,worker.point)

theorem hasWorker_of_workerPoint {h : WorkerId} {point : Option Check}
    (hpointOf : x.workerPoint i = some (p,h,point)) :
    ∃ v, x.HasWorker i p v ∧ v.worker.handle = h ∧ v.point = point := by
  unfold workerPoint at hpointOf
  cases hs : x.spawns[i]? with
  | none =>
    rw [hs] at hpointOf
    cases hpointOf
  | some s =>
    cases hworker : s.stage.worker? with
    | none =>
      rw [hs, Option.bind_some, hworker] at hpointOf
      cases hpointOf
    | some worker =>
      rw [hs, Option.bind_some, hworker] at hpointOf
      cases hpointOf
      exact ⟨⟨x.world,worker⟩,⟨rfl,s,hs,rfl,hworker⟩,rfl,rfl⟩

def tell (x : PoolState U N) (h : WorkerId) (command : Command) : PoolState U N :=
  { x with world := x.world.putCommand h command }

theorem steps_tell (lib : Library U N) (x : PoolState U N) (h : WorkerId) (command : Command) :
    Steps lib x (x.tell h command) := by
  have hput : Errand.step x.world { orders := [.put h command] } =
      .ran { orders := [] } (x.world.putCommand h command) := rfl
  exact .single (.errand hput)

def ticking : PoolState Unit Unit :=
  (List.flatten [[Actor.call ⟨0,⟨"",0⟩,.standard⟩],List.replicate 7 (.spawn 0),
    List.replicate 5 (.work 0)]).foldl
    (follow WorkerState.tickingTwice) { world := ({} : World).addPool.2 }

def pausing : PoolState Unit Unit :=
  [Actor.work 0,.work 0,.work 0,.shut 0,.order 0,.order 0].foldl (follow WorkerState.tickingTwice)
    (ticking.tell 0 .pause)

def canceled : PoolState Unit Unit := follow WorkerState.tickingTwice pausing (.order 0)

def undone : PoolState Unit Unit :=
  (List.replicate 3 (.work 0)).foldl (follow WorkerState.tickingTwice) (canceled.tell 0 .pause)

theorem pausing_reachable : Reachable WorkerState.tickingTwice pausing := by
  refine ⟨({} : World).addPool.2,fun p => by cases p <;> rfl,?_⟩
  exact ((steps_foldl steps_follow _ _).trans (steps_tell _ _ 0 .pause)).trans
    (steps_foldl steps_follow _ _)

theorem steps_undone : Steps WorkerState.tickingTwice canceled undone :=
  (steps_tell _ canceled 0 .pause).trans (steps_foldl steps_follow _ _)

theorem cancels_pausing : Cancels 0 0 pausing canceled :=
  ⟨0,_,_,_,_,rfl,rfl,rfl,rfl⟩

theorem undone_stranded : undone.Stranded 0 := by
  have hpointOf : undone.workerPoint 0 = some (0,0,some .awaitCommand) := by decide
  have hlatched : (undone.world.handle 0).control.commandChanged.latched = false := by decide
  obtain ⟨v,hv,hh,hpoint⟩ := hasWorker_of_workerPoint hpointOf
  refine ⟨0,v,hv,hpoint,?_⟩
  rw [WorkerState.control, hv.1, hh]
  exact hlatched

theorem never_stranded_iff_pausing : ∃ v, (Reachable WorkerState.tickingTwice pausing ∧
    Cancels 0 v.worker.handle pausing canceled ∧ canceled.HasWorker 0 0 v) ∧
    ((∀ z, Steps WorkerState.tickingTwice canceled z → ¬ z.Stranded 0) ↔ ¬ v.Exposed) := by
  have hpointOf : canceled.workerPoint 0 = some (0,0,some .awaitCommand) := by decide
  obtain ⟨v,hv,hh,_⟩ := hasWorker_of_workerPoint hpointOf
  have hcancels : Cancels 0 v.worker.handle pausing canceled := hh ▸ cancels_pausing
  exact ⟨v,⟨pausing_reachable,hcancels,hv⟩,never_stranded_iff pausing_reachable hcancels hv⟩

/-- A tracked worker that a shutdown has canceled waits in a pause. -/
theorem shutdown_undone :
    ¬ ∀ (x y z : PoolState Unit Unit) (i : Nat) (p : PoolId) (v : WorkerState Unit Unit),
    Reachable WorkerState.tickingTwice x → v.worker.handle ∈ (x.world.pool p).tracked →
    Cancels p v.worker.handle x y →
      y.HasWorker i p v → Steps WorkerState.tickingTwice y z → ¬ z.Stranded i := by
  intro hnever
  have hpointOf : canceled.workerPoint 0 = some (0,0,some .awaitCommand) := by decide
  have htracked : (pausing.world.pool 0).tracked = [0] := by decide
  obtain ⟨v,hv,hh,_⟩ := hasWorker_of_workerPoint hpointOf
  have hcancels : Cancels 0 v.worker.handle pausing canceled := hh ▸ cancels_pausing
  have hmem : v.worker.handle ∈ (pausing.world.pool 0).tracked := by
    rw [htracked, hh]
    exact List.mem_singleton_self 0
  exact hnever pausing canceled undone 0 0 v pausing_reachable hmem hcancels hv steps_undone
    undone_stranded

end PoolState

end Workers
