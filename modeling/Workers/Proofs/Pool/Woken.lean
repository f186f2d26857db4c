import Workers.Proofs.Pool.Readied
/-! # Whom a shutdown wakes

A shutdown sets the flag before it looks whom to cancel.  A worker that looks at the flag later does
not go to sleep, and one that has looked before is woken if its handle was tracked in time.  A
worker runs before its start has it tracked, so there is a time at which it can be on its way to
sleep and be overlooked.
-/
namespace Workers

variable {U N : Type} {lib : Library U N} {e e' : Errand}

theorem Errand.orders_or {w w' : World} {o : Order} (ho : o ∈ e.orders) (hstep : e.step w = .ran e' w') :
    (∃ rest, e.orders = o :: rest) ∨ o ∈ e'.orders := by
  obtain ⟨first,rest,horders⟩ := List.exists_cons_of_ne_nil (List.ne_nil_of_mem ho)
  obtain ⟨more,horders'⟩ := Errand.orders_step horders hstep
  rw [horders] at ho
  rcases List.mem_cons.mp ho with rfl | hrest
  · exact .inl ⟨rest,horders⟩
  · exact .inr (horders' ▸ List.mem_append_right more hrest)

namespace WorkerState

variable {x y : WorkerState U N} {w : World}

/-- Whatever the worker is on its way to sleep with has been notified, or somebody is going to see
to it. -/
def WillBeNotified (x : WorkerState U N) (e : Errand) : Prop := ∀ n, x.SleepsPastFlag n →
  x.world.isNotified n = true ∨ .interrupt x.worker.handle ∈ e.orders ∨ .fire n ∈ e.orders

theorem WillBeNotified.next (howed : x.WillBeNotified e) (hx : Interruptible x)
    (hpass : NonePassFlag x y) (hhandle : y.worker.handle = x.worker.handle)
    (hnext : e' = e ∨ e.step x.world = .ran e' y.world) :
    y.WillBeNotified e' := by
  intro n hn
  obtain ⟨hn',hnotified⟩ := hpass n hn
  obtain ⟨hin,htarget⟩ := hx.noted hn'
  rw [hhandle]
  rcases hnext with rfl | hstep
  · exact (howed n hn').imp_left hnotified
  · rcases howed n hn' with hbefore | hinterrupt | hfire
    · exact .inl (hnotified hbefore)
    · rcases Errand.orders_or hinterrupt hstep with ⟨rest,horders⟩ | hlater
      · -- what the shutdown reads is what the worker has registered
        simp only [Errand.step, horders, htarget] at hstep
        obtain ⟨rfl,_⟩ := Progress.ran.inj hstep
        exact .inr (.inr List.mem_cons_self)
      · exact .inr (.inl hlater)
    · rcases Errand.orders_or hfire hstep with ⟨rest,horders⟩ | hlater
      · simp only [Errand.step, horders] at hstep
        obtain ⟨_,hw⟩ := Progress.ran.inj hstep
        exact .inl (hw ▸ World.isNotified_notify hin)
      · exact .inr (.inr hlater)

theorem nonePassFlag_of_target {worker : Worker (Frame U N)} {u : World}
    (htarget : (w.handle worker.handle).target = (u.handle worker.handle).target)
    (hnotified : ∀ n, SleepsPastFlag ⟨u,worker⟩ n → u.isNotified n = true → w.isNotified n = true) :
    NonePassFlag ⟨u,worker⟩ ⟨w,worker⟩ := by
  rintro n ⟨c,s,hstage,hsleep,hlate⟩
  rw [htarget] at hsleep
  exact ⟨⟨c,s,hstage,hsleep,hlate⟩,hnotified n ⟨c,s,hstage,hsleep,hlate⟩⟩

end WorkerState

/-- A start that has a worker after its step has launched it, or has had it tracked. -/
theorem Spawning.worker?_step {l : Launcher} {w w' : World} {stage stage' : Spawning (Frame U N)}
    {worker : Worker (Frame U N)} (hstep : stage.step l w = .ran stage' w')
    (hworker : stage'.worker? = some worker) :
    worker.isStarting = true ∨ stage = .tracking worker ∧ w' = w.track l.pool worker.handle := by
  cases transition_of_step hstep with
  | launches =>
    obtain rfl := Option.some.inj hworker
    exact .inl rfl
  | tracks =>
    obtain rfl := Option.some.inj hworker
    exact .inr ⟨rfl,rfl⟩
  | enters | turnsAway | passes | prepares | adopted | adopts | rejects | configures => cases hworker
  | discards | unhooks | releases => cases hworker

namespace PoolState

variable {x y z : PoolState U N} {i j : Nat} {p : PoolId} {v v' : WorkerState U N}

def Snapshots (p : PoolId) (j : Nat) (x y : PoolState U N) : Prop :=
  ∃ e e' w rest, x.shutdowns[j]? = some (p,e) ∧ e.orders = .cancelAll p :: rest ∧
  e.step x.world = .ran e' w ∧
    y = { x with world := w, shutdowns := x.shutdowns.set j (p,e') }

def Passed (x : PoolState U N) (p : PoolId) (j : Nat) : Prop :=
  ∃ e, x.shutdowns[j]? = some (p,e) ∧ ∀ o ∈ e.orders, o = .untilIdle p

/-- The worker runs before it is tracked, and it is on its way to sleep. -/
def Overlooked (x : PoolState U N) (i : Nat) : Prop :=
  ∃ s worker n, x.spawns[i]? = some s ∧ s.stage = .tracking worker ∧
  WorkerState.SleepsPastFlag ⟨x.world,worker⟩ n

structure ShutdownAttends (x : PoolState U N) (i : Nat) (p : PoolId) (j : Nat) : Prop where
  requested : (x.world.pool p).requested = true
  willBeNotified : ∃ e, x.shutdowns[j]? = some (p,e) ∧ ∀ v, x.HasWorker i p v → v.WillBeNotified e

theorem Step.shutdown (hstep : Step lib x y) (he : x.shutdowns[j]? = some (p,e)) :
    ∃ e', y.shutdowns[j]? = some (p,e') ∧ (e' = e ∨ e.step x.world = .ran e' y.world) := by
  cases hstep with
  | shut q hpool =>
    exact ⟨e,(List.getElem?_append_left (List.getElem?_eq_some_iff.mp he).1).trans he,.inl rfl⟩
  | @order k q f f' w hf hstep =>
    by_cases hkj : k = j
    · subst hkj
      obtain ⟨rfl,rfl⟩ := Prod.mk.inj (Option.some.inj (he.symm.trans hf))
      exact ⟨f',List.getElem?_set_self (List.getElem?_eq_some_iff.mp he).1,.inr hstep⟩
    · exact ⟨e,(List.getElem?_set_ne hkj).trans he,.inl rfl⟩
  | call | spawn | fail | work | errand | guard | unguard | share | unshare | other =>
    exact ⟨e,he,.inl rfl⟩

theorem SparedStart.interruptible (hx : SparedStart i x) (hv : x.HasWorker i p v) : v.Interruptible := by
  obtain ⟨w,worker⟩ := v
  obtain ⟨rfl,s,hs,_,hworker⟩ := hv
  have hr := hx.readied s hs
  obtain ⟨l,stage⟩ := s
  rcases Spawning.of_worker? hworker with rfl | rfl <;> exact hr.1

/-- With the flag set nobody gets past its look at it. -/
theorem SparingStep.nonePassFlag (hsparing : SparingStep lib i x y) (hlib : lib.Plain)
    (hx : SparedStart i x) (hrequested : (x.world.pool p).requested = true)
    (hv' : y.HasWorker i p v') : (∀ n, ¬ v'.SleepsPastFlag n) ∨
      ∃ v, x.HasWorker i p v ∧ WorkerState.NonePassFlag v v' ∧
      v'.worker.handle = v.worker.handle := by
  have hsound := hx.invariant.sound
  obtain ⟨u,worker'⟩ := v'
  obtain ⟨rfl,s',hs',hp,hworker'⟩ := hv'
  replace hworker' : s'.stage.worker? = some worker' := hworker'
  cases hs : x.spawns[i]? with
  | none =>
    obtain ⟨arguments,hstage⟩ := hsparing.step.new hs' hs
    rw [hstage] at hworker'
    cases hworker'
  | some s =>
    rcases hsparing.cases hsound hx.shared hs (hx.readied s hs) with hown | ⟨hstays,hothers⟩
    · cases hown with
      | spawn hstep =>
        obtain rfl := Option.some.inj ((restage_spawn hs).symm.trans hs')
        rcases Spawning.worker?_step hstep hworker' with hstarting | ⟨hstage,rfl⟩
        · refine .inl fun n ⟨c,t,hrunning,_⟩ => ?_
          rw [Worker.isStarting, hrunning] at hstarting
          cases hstarting
        · refine .inr ⟨⟨x.world,worker'⟩,⟨rfl,s,hs,hp,by rw [hstage]; rfl⟩,?_,rfl⟩
          exact WorkerState.nonePassFlag_of_target rfl fun _ _ => id
      | fail reason hstage =>
        obtain rfl := Option.some.inj ((restage_spawn hs).symm.trans hs')
        cases hworker'
      | @work worker next w hworker hstep =>
        obtain rfl := Option.some.inj ((restage_spawn hs).symm.trans hs')
        obtain rfl : next = worker' :=
          Option.some.inj ((Spawning.worker?_withWorker hworker next).symm.trans hworker')
        have hv : x.HasWorker i p ⟨x.world,worker⟩ := ⟨rfl,s,hs,hp,hworker⟩
        have hworks : WorkerState.Works lib ⟨x.world,worker⟩ ⟨w,next⟩ := hstep
        have hpass :=
          ((hx.interruptible hv).works hlib (hv.sound hsound) (hsparing.keeps p _ hv) hworks).2.2
        exact .inr ⟨_,hv,hpass ((hv.requested hsound).trans hrequested),hworks.handle_eq⟩
    · obtain rfl := Option.some.inj (hstays.symm.trans hs')
      have hv : x.HasWorker i p ⟨x.world,worker'⟩ := ⟨rfl,s,hs,hp,hworker'⟩
      by_cases hlive : s.stage.IsLive
      · have ha := hothers hlive
        refine .inr ⟨_,hv,WorkerState.nonePassFlag_of_target ?_ fun n hn => ha.notified p _ n hv hn,rfl⟩
        exact ha.target _ (Spawning.handle?_worker hworker')
      · refine .inl fun n hn => hlive ?_
        have hnot := hn.not_past
        obtain ⟨l,stage⟩ := s
        rcases Spawning.of_worker? hworker' with rfl | rfl <;> exact hnot

theorem SparingStep.shutdownAttends (hsparing : SparingStep lib i x y) (hlib : lib.Plain)
    (hx : SparedStart i x) (ha : x.ShutdownAttends i p j) :
    y.ShutdownAttends i p j := by
  obtain ⟨e,he,howed⟩ := ha.willBeNotified
  obtain ⟨e',he',hnext⟩ := hsparing.step.shutdown he
  refine ⟨(hsparing.step.keepsPools hx.invariant.sound).requested p ha.requested,e',he',fun v' hv' => ?_⟩
  rcases hsparing.nonePassFlag hlib hx ha.requested hv' with hnone | ⟨v,hv,hpass,hhandle⟩
  · exact fun n hn => absurd hn (hnone n)
  · rw [← hv.1, ← hv'.1] at hnext
    exact (howed v hv).next (hx.interruptible hv) hpass hhandle hnext

/-- Whoever is tracked when a shutdown looks is going to be interrupted. -/
theorem Snapshots.shutdownAttends (hsnap : Snapshots p j x y) (hx : SparedStart i x)
    (hseen : ¬ x.Overlooked i) :
    y.ShutdownAttends i p j := by
  obtain ⟨e,e',w,rest,he,horders,hstep,rfl⟩ := hsnap
  have hrequested : (x.world.pool p).requested = true := by
    cases (hx.invariant.shuts p e (List.mem_of_getElem? he)).2 with
    | begun hbegun => cases horders.symm.trans hbegun
    | waits _ _ hrequested => exact hrequested
    | returned hdone => cases horders.symm.trans hdone
  simp only [Errand.step, horders] at hstep
  obtain ⟨rfl,rfl⟩ := Progress.ran.inj hstep
  refine ⟨hrequested,_,List.getElem?_set_self (List.getElem?_eq_some_iff.mp he).1,fun v hv n hn => ?_⟩
  obtain ⟨w,worker⟩ := v
  obtain ⟨rfl,s,hs,rfl,hworker⟩ := hv
  have hr := hx.readied s hs
  replace hworker : s.stage.worker? = some worker := hworker
  obtain ⟨l,stage⟩ := s
  rcases Spawning.of_worker? hworker with rfl | rfl
  · exact absurd ⟨_,worker,n,hs,rfl,hn⟩ hseen
  · obtain ⟨hshares,htracked⟩ := hr.2 hn.not_past
    have hlive : worker.handle ∈ Errand.liveWorkers x.world l.pool :=
      List.mem_filter.mpr ⟨htracked,decide_eq_true (Nat.zero_lt_of_lt hshares)⟩
    have horder : Order.interrupt worker.handle ∈
        (Errand.liveWorkers x.world l.pool).flatMap fun h => [.put h .cancel,.interrupt h] :=
      List.mem_flatMap.mpr ⟨_,hlive,List.mem_cons_of_mem _ (List.mem_singleton_self _)⟩
    exact .inr (.inl (List.mem_append_left _ horder))

/-- What has come about from an idle state by steps that left a start alone. -/
def SparingRun (lib : Library U N) (i : Nat) (x : PoolState U N) : Prop :=
  ∃ w, Idle w ∧ Relation.ReflTransGen (SparingStep lib i) { world := w } x

theorem sparedStart_start {w : World} (hidle : Idle w) :
    SparedStart i ({ world := w } : PoolState U N) where
  invariant := ⟨sound_start w,fun p => hidle p,fun _ _ he => absurd he List.not_mem_nil⟩
  shared _ hh := absurd hh (Nat.lt_irrefl 0)
  readied _ hs := nomatch hs

theorem SparingStep.sparedStart_all (hsteps : Relation.ReflTransGen (SparingStep lib i) x y)
    (hlib : lib.Plain) (hx : SparedStart i x) :
    SparedStart i y := by
  induction hsteps with
  | refl => exact hx
  | tail _ hsparing ih => exact hsparing.sparedStart hlib ih

theorem SparingStep.shutdownAttends_all (hsteps : Relation.ReflTransGen (SparingStep lib i) x y)
    (hlib : lib.Plain) (hx : SparedStart i x) (ha : x.ShutdownAttends i p j) :
    SparedStart i y ∧ y.ShutdownAttends i p j := by
  induction hsteps with
  | refl => exact ⟨hx,ha⟩
  | tail _ hsparing ih =>
    obtain ⟨hy,hattends⟩ := ih
    exact ⟨hsparing.sparedStart hlib hy,hsparing.shutdownAttends hlib hy hattends⟩

theorem Snapshots.sparedStart (lib : Library U N) (hsnap : Snapshots p j x y)
    (hx : SparedStart i x) : SparedStart i y := by
  obtain ⟨e,e',w,rest,he,horders,hstep,rfl⟩ := hsnap
  have horder : Step lib x { x with world := w, shutdowns := x.shutdowns.set j (p,e') } :=
    .order he hstep
  have hkept := horder.invariant hx.invariant
  simp only [Errand.step, horders] at hstep
  obtain ⟨rfl,rfl⟩ := Progress.ran.inj hstep
  exact ⟨hkept,hx.shared,hx.readied⟩

theorem ShutdownAttends.sleepNotified (ha : x.ShutdownAttends i p j) (hx : SparedStart i x)
    (hpassed : x.Passed p j) (hv : x.HasWorker i p v) :
    v.SleepNotified := by
  obtain ⟨e,he,howed⟩ := ha.willBeNotified
  obtain ⟨e',he',hall⟩ := hpassed
  obtain rfl : e = e' := (Prod.mk.inj (Option.some.inj (he.symm.trans he'))).2
  intro n hn
  rcases howed v hv n ((hx.interruptible hv).sleepsPastFlag hn) with hnotified | hinterrupt | hfire
  · exact hnotified
  · cases hall _ hinterrupt
  · cases hall _ hfire

/-- After the pass of a shutdown no worker sleeps that has not been woken, unless it was on its way
to sleep and not tracked yet when the shutdown looked whom to cancel. -/
theorem shutdown_wakes (hlib : lib.Plain) (hx : SparingRun lib i x) (hsnap : Snapshots p j x y)
    (hseen : ¬ x.Overlooked i) (hsteps : Relation.ReflTransGen (SparingStep lib i) y z)
    (hpassed : z.Passed p j) (hv : z.HasWorker i p v) : v.SleepNotified := by
  obtain ⟨w,hidle,hbefore⟩ := hx
  have hspared := SparingStep.sparedStart_all hbefore hlib (sparedStart_start hidle)
  obtain ⟨hz,hattends⟩ := SparingStep.shutdownAttends_all hsteps hlib
    (hsnap.sparedStart lib hspared) (hsnap.shutdownAttends hspared hseen)
  exact hattends.sleepNotified hz hpassed hv

theorem keepsStart_errand {e e' : Errand} {w : World} (hstep : e.step x.world = .ran e' w) :
    x.KeepsStart i w where
  hook _ _ := (World.keepsHook_errand hstep).hook
  notifiers := (World.keepsHook_errand (c := 0) hstep).notifiers
  notified _ _ n _ _ := (World.keepsHook_errand (c := 0) hstep).notified n
  tracked _ _ _ _ := World.tracks_errand hstep

def isCalm (x : PoolState U N) : Bool :=
  x.spawns.length ≤ 1 && x.spawns.all fun s => s.stage.worker?.all fun worker =>
    !WorkerState.destroys ⟨x.world,worker⟩

theorem keeps_of_isCalm (hcalm : x.isCalm = true) (hv : x.HasWorker i p v) : v.destroys = false := by
  obtain ⟨w,worker⟩ := v
  obtain ⟨rfl,s,hs,_,hworker⟩ := hv
  have hall := List.all_eq_true.mp (Bool.and_eq_true_iff.mp hcalm).2 s (List.mem_of_getElem? hs)
  rw [hworker] at hall
  exact Bool.not_eq_true' _ ▸ hall

theorem sparingStep_follow (hcalm : x.isCalm = true) (actor : Actor) :
    Relation.ReflTransGen (SparingStep lib 0) x (follow lib x actor) := by
  have hkeeps := fun p v (hv : x.HasWorker 0 p v) => keeps_of_isCalm hcalm hv
  have honly : ∀ {i s}, x.spawns[i]? = some s → i = 0 := fun hs =>
    Nat.lt_one_iff.mp ((List.getElem?_eq_some_iff.mp hs).1.trans_le
      (of_decide_eq_true (Bool.and_eq_true_iff.mp hcalm).1))
  cases actor with
  | call l =>
    simp only [follow]
    split
    · rename_i hpool
      refine .single ⟨.call x l [] hpool,hkeeps,fun _ w _ heq => ?_⟩
      exact absurd (congrArg (fun y => y.spawns.length) heq) (by simp)
    · exact .refl
  | spawn i =>
    simp only [follow]
    split
    · rename_i hs
      split
      · rename_i hstep
        obtain rfl := honly hs
        exact .single ⟨.spawn hs hstep,hkeeps,fun hown => absurd (.spawn hstep) (hown _ hs)⟩
      · exact .refl
    · exact .refl
  | work i =>
    simp only [follow]
    split
    · rename_i hs
      split
      · rename_i hworker
        split
        · rename_i hstep
          obtain rfl := honly hs
          exact .single ⟨.work hs hworker hstep,hkeeps,fun hown =>
            absurd (.work hworker hstep) (hown _ hs)⟩
        · exact .refl
      · exact .refl
    · exact .refl
  | shut p =>
    simp only [follow]
    split
    · rename_i hpool
      refine .single ⟨.shut x p hpool,hkeeps,fun _ w _ heq => ?_⟩
      exact absurd (congrArg (fun y => y.shutdowns.length) heq) (by simp)
    · exact .refl
  | order i =>
    simp only [follow]
    split
    · rename_i he
      split
      · rename_i w hstep
        refine .single ⟨.order he hstep,hkeeps,fun _ u _ heq => ?_⟩
        obtain rfl : w = u := congrArg PoolState.world heq
        exact keepsStart_errand hstep
      · exact .refl
    · exact .refl

theorem sparingStep_foldl (cues : List Actor)
    (hcalm : ∀ k < cues.length, ((cues.take k).foldl (follow lib) x).isCalm = true) :
    Relation.ReflTransGen (SparingStep lib 0) x (cues.foldl (follow lib) x) := by
  induction cues generalizing x with
  | nil => exact .refl
  | cons actor rest ih =>
    have hfirst : Relation.ReflTransGen (SparingStep lib 0) x (follow lib x actor) :=
      sparingStep_follow (hcalm 0 (Nat.succ_pos _)) actor
    exact hfirst.trans (ih fun k hk => hcalm (k + 1) (Nat.succ_lt_succ hk))

def sleepThenShutdown (n : Nat) : List Actor :=
  List.flatten [[.call ⟨0,⟨"",0⟩,.standard⟩],List.replicate n (.spawn 0),
    List.replicate 10 (.work 0),[.shut 0,.order 0]]

def asleepAfter (n : Nat) : PoolState Unit Unit :=
  (sleepThenShutdown n).foldl (follow WorkerState.sleepingCode) { world := ({} : World).addPool.2 }

def looked (n : Nat) : PoolState Unit Unit := follow WorkerState.sleepingCode (asleepAfter n) (.order 0)

def canceledSleeper : PoolState Unit Unit :=
  (List.replicate 3 (Actor.order 0)).foldl (follow WorkerState.sleepingCode) (looked 7)

theorem idle_addPool : Idle ({} : World).addPool.2 := fun p => by cases p <;> rfl

/-- The worker is tracked when the shutdown looks, and woken in its sleep. -/
theorem shutdown_wakes_canceledSleeper :
    ∃ v, (SparingRun WorkerState.sleepingCode 0 (asleepAfter 7) ∧
      Snapshots 0 0 (asleepAfter 7) (looked 7) ∧
    ¬ (asleepAfter 7).Overlooked 0 ∧ Relation.ReflTransGen (SparingStep WorkerState.sleepingCode 0)
      (looked 7) canceledSleeper ∧
    canceledSleeper.Passed 0 0 ∧ canceledSleeper.HasWorker 0 0 v) ∧ v.AwaitsNotifier 0 ∧
      v.SleepNotified := by
  have htending : SparingRun WorkerState.sleepingCode 0 (asleepAfter 7) :=
    ⟨_,idle_addPool,sparingStep_foldl (sleepThenShutdown 7) (by decide)⟩
  have hsnap : Snapshots 0 0 (asleepAfter 7) (looked 7) := ⟨_,_,_,_,rfl,rfl,rfl,rfl⟩
  have hseen : ¬ (asleepAfter 7).Overlooked 0 := by
    rintro ⟨s,worker,n,hs,hstage,_⟩
    obtain ⟨l,worker',hstarted⟩ : ∃ l worker', (asleepAfter 7).spawns[0]? =
      some ⟨l,.started worker'⟩ := ⟨_,_,rfl⟩
    obtain rfl := Option.some.inj (hstarted.symm.trans hs)
    cases hstage
  have hsteps : Relation.ReflTransGen (SparingStep WorkerState.sleepingCode 0)
    (looked 7) canceledSleeper := sparingStep_foldl _ (by decide)
  have hpassed : canceledSleeper.Passed 0 0 := ⟨_,rfl,fun _ ho => List.mem_singleton.mp ho⟩
  obtain ⟨v,hv,hasleep⟩ : ∃ v, canceledSleeper.HasWorker 0 0 v ∧ v.AwaitsNotifier 0 :=
    ⟨⟨_,_⟩,⟨rfl,_,rfl,rfl,rfl⟩,⟨0,_,rfl,rfl⟩⟩
  exact ⟨v,⟨htending,hsnap,hseen,hsteps,hpassed,hv⟩,hasleep,
    shutdown_wakes WorkerState.plain_sleepingCode htending hsnap hseen hsteps hpassed hv⟩

/-- A worker that is not tracked yet when the shutdown looks sleeps on. -/
theorem shutdown_overlooks :
    ¬ ∀ (z : PoolState Unit Unit) (i j : Nat) (p : PoolId) (v : WorkerState Unit Unit),
    Reachable WorkerState.sleepingCode z → z.Passed p j → z.HasWorker i p v → v.SleepNotified := by
  intro hwakes
  have hreachable : Reachable WorkerState.sleepingCode (looked 6) :=
    ⟨_,idle_addPool,(steps_foldl steps_follow _ (sleepThenShutdown 6)).trans (steps_follow _ _)⟩
  have hpassed : (looked 6).Passed 0 0 := ⟨_,rfl,fun _ ho => List.mem_singleton.mp ho⟩
  obtain ⟨v,hv,hasleep,hunlatched⟩ : ∃ v, (looked 6).HasWorker 0 0 v ∧ v.AwaitsNotifier 0 ∧
      v.world.isNotified 0 = false :=
    ⟨⟨_,_⟩,⟨rfl,_,rfl,rfl,rfl⟩,⟨0,_,rfl,rfl⟩,by decide⟩
  cases hunlatched.symm.trans (hwakes _ 0 0 0 v hreachable hpassed hv 0 hasleep)

end PoolState

end Workers
