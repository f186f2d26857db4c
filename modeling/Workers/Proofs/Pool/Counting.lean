import Workers.Proofs.Pool.Invariant
/-! # Counting the workers of a pool

A start holds a guard of its pool from its first step on, and the worker takes it over.  The count
of a pool is the number of guards that are held, after every step: each counts itself in once and out
once.
-/
namespace Workers

namespace World

variable {w w' : World}

theorem active_enter {p : PoolId} (hp : p < w.pools.size) (q : PoolId) :
    ((w.enter p).pool q).active = (w.pool q).active + if p = q then 1 else 0 := by
  unfold enter
  rw [pool_setPool]
  by_cases hpq : p = q
  · subst hpq
    simp [hp]
  · simp [hpq]

theorem active_leave (w : World) (p q : PoolId) :
    ((w.leave p).pool q).active = (w.pool q).active - if p = q then 1 else 0 := by
  unfold leave
  rw [pool_setPool]
  by_cases hpq : p = q
  · subst hpq
    by_cases hp : p < w.pools.size
    · simp [hp]
    · simp [hp, World.pool]
      rfl
  · simp [hpq]

theorem active_setPool {p q : PoolId} {pool : Pool} (hpool : pool.active = (w.pool p).active) :
    ((w.setPool p pool).pool q).active = (w.pool q).active := by
  rw [pool_setPool]
  split
  · rename_i hpq
    obtain ⟨rfl,_⟩ := hpq
    exact hpool
  · rfl

theorem requested_setPool {p : PoolId} {pool : Pool}
    (hpool : (w.pool p).requested = true → pool.requested = true) (q : PoolId)
    (hq : (w.pool q).requested = true) : ((w.setPool p pool).pool q).requested = true := by
  rw [pool_setPool]
  split
  · rename_i hpq
    obtain ⟨rfl,_⟩ := hpq
    exact hpool hq
  · exact hq

theorem active_request (w : World) (p q : PoolId) : ((w.request p).pool q).active = (w.pool q).active :=
  active_setPool rfl

theorem active_track (w : World) (p : PoolId) (h : WorkerId) (q : PoolId) :
    ((w.track p h).pool q).active = (w.pool q).active :=
  active_setPool rfl

theorem pools_setHook (w : World) (c : ContextId) (h : WorkerId) (n : UInt32) :
    (w.setHook c (.worker h) n).pools = w.pools := by
  unfold setHook
  dsimp only
  rcases (w.context c).hook with _ | ⟨i⟩ | ⟨g⟩
  · rfl
  · exact (within_disown _ i).pools
  · rfl

theorem pools_configure (w : World) (h : WorkerId) (config : Config) :
    (w.configure h config).pools = w.pools := by
  unfold configure
  split
  · rfl
  · dsimp only
    split <;> exact pools_setHook _ _ h config.step

structure KeepsPools (w w' : World) : Prop where
  size : w.pools.size ≤ w'.pools.size
  requested : ∀ p, (w.pool p).requested = true → (w'.pool p).requested = true

theorem KeepsPools.refl (w : World) : KeepsPools w w := ⟨Nat.le_refl _,fun _ => id⟩

theorem KeepsPools.trans {u : World} (hk : KeepsPools w u) (hk' : KeepsPools u w') : KeepsPools w w' :=
  ⟨hk.size.trans hk'.size,fun p hp => hk'.requested p (hk.requested p hp)⟩

theorem KeepsPools.of_pools (hpools : w'.pools = w.pools) : KeepsPools w w' := by
  refine ⟨by rw [hpools],fun p hp => ?_⟩
  rwa [World.pool, hpools]

theorem keepsPools_setPool {p : PoolId} {pool : Pool}
    (hpool : (w.pool p).requested = true → pool.requested = true) :
    KeepsPools w (w.setPool p pool) :=
  ⟨(size_setPool w p pool).ge,requested_setPool hpool⟩

theorem keepsPools_enter (w : World) (p : PoolId) : KeepsPools w (w.enter p) := keepsPools_setPool id

structure Tallies (p : PoolId) (before after : Bool) (w w' : World) : Prop extends KeepsPools w w' where
  active : ∀ q, (w'.pool q).active =
    match before, after with
    | false, true => (w.pool q).active + if p = q then 1 else 0
    | true, false => (w.pool q).active - if p = q then 1 else 0
    | _, _ => (w.pool q).active

theorem Tallies.of_active (p : PoolId) (counted : Bool) (hk : KeepsPools w w')
    (hactive : ∀ q, (w'.pool q).active = (w.pool q).active) : Tallies p counted counted w w' :=
  ⟨hk,fun q => (hactive q).trans (by cases counted <;> rfl)⟩

theorem Tallies.of_pools (p : PoolId) (counted : Bool) (hpools : w'.pools = w.pools) :
    Tallies p counted counted w w' :=
  .of_active p counted (.of_pools hpools) fun q => by rw [World.pool, hpools]; rfl

theorem tallies_enter {p : PoolId} (hp : p < w.pools.size) : Tallies p false true w (w.enter p) :=
  ⟨keepsPools_enter w p,active_enter hp⟩

theorem tallies_leave (w : World) (p : PoolId) : Tallies p true false w (w.leave p) :=
  ⟨keepsPools_setPool id,active_leave w p⟩

theorem tallies_track (w : World) (p : PoolId) (h : WorkerId) (counted : Bool) :
    Tallies p counted counted w (w.track p h) :=
  .of_active p counted (keepsPools_setPool id) (active_track w p h)

theorem Tallies.after {p : PoolId} {before after : Bool} {u : World} (ht : Tallies p before after u w')
    (hpools : u.pools = w.pools) : Tallies p before after w w' := by
  have hpool : ∀ q, u.pool q = w.pool q := fun q => by rw [World.pool, hpools]; rfl
  have hactive := ht.active
  simp only [hpool] at hactive
  exact ⟨(KeepsPools.of_pools hpools).trans ht.toKeepsPools,hactive⟩

theorem Tallies.then {p : PoolId} {before after : Bool} {u : World} (ht : Tallies p before after w u)
    (hpools : w'.pools = u.pools) : Tallies p before after w w' := by
  have hpool : ∀ q, w'.pool q = u.pool q := fun q => by rw [World.pool, hpools]; rfl
  exact ⟨ht.toKeepsPools.trans (.of_pools hpools),
    fun q => (congrArg Pool.active (hpool q)).trans (ht.active q)⟩

theorem keepsPools_errand {e e' : Errand} (hstep : e.step w = .ran e' w') :
    KeepsPools w w' ∧ ∀ q, (w'.pool q).active = (w.pool q).active := by
  rcases Errand.step_cases hstep with ⟨h,command,rfl⟩ | ⟨n,rfl⟩ | ⟨p,rfl⟩ | rfl
  · exact ⟨.of_pools rfl,fun _ => rfl⟩
  · exact ⟨.of_pools rfl,fun _ => rfl⟩
  · exact ⟨keepsPools_setPool fun _ => rfl,active_request w p⟩
  · exact ⟨.refl _,fun _ => rfl⟩

end World

open World (Tallies)

variable {U N : Type} {lib : Library U N} {w w' : World}

namespace Spawning

variable {l : Launcher} {stage stage' : Spawning (Frame U N)}

def counts : Spawning (Frame U N) → Bool
  | checking _ | preparing _ | adopting _ _ _ | configuring _ _ | launching _ _ | discarding _ _
  | releasing _ => true
  | tracking worker | started worker => !worker.isGone
  | entering _ | unhooking _ _ | refused _ => false

theorem counts_worker {worker : Worker (Frame U N)} (hworker : stage.worker? = some worker) :
    stage.counts = !worker.isGone := by
  rcases of_worker? hworker with rfl | rfl <;> rfl

theorem tallies_step (hp : l.pool < w.pools.size)
    (hserves : ∀ h c, stage.handle? = some h → (w.handle h).context = some c → w.Serves c h)
    (hstep : stage.step l w = .ran stage' w') : Tallies l.pool stage.counts stage'.counts w w' := by
  cases transition_of_step hstep with
  | enters => exact World.tallies_enter hp
  | turnsAway | passes | prepares | adopted | launches => exact .of_pools _ true rfl
  | @adopts h object _ _ moved rest hadopt | @rejects h object _ _ moved rest hadopt =>
    have hpools := (World.within_adopt w h object).pools
    rw [hadopt] at hpools
    exact .of_pools _ true hpools
  | configures h moved => exact .of_pools _ true (World.pools_configure w h l.config)
  | tracks worker => exact World.tallies_track w l.pool worker.handle _
  | discards h fault => exact .of_pools _ true (World.within_disown w h).pools
  | unhooks h fault =>
    have hunhook := World.within_unhook fun c hc => hserves h c rfl hc
    exact .of_pools _ false (hunhook.trans (World.within_disown _ h)).pools
  | releases => exact World.tallies_leave w l.pool

end Spawning

theorem Worker.StepEffect.tallies {worker worker' : Worker (Frame U N)}
    (hstays : worker.StepEffect w w' worker') (hgone : worker.isGone = false) :
    Tallies (w.handle worker.handle).pool (!worker.isGone) (!worker'.isGone) w w' := by
  rw [hgone, hstays.gone]
  have hpools := hstays.within.pools
  by_cases hleaving : worker.stage = .leaving
  · have hcount : worker.countOut w = w.leave (w.handle worker.handle).pool := by
      rw [Worker.countOut, hleaving]
    have hlast : worker.isLeaving = true := by rw [Worker.isLeaving, hleaving]
    rw [hcount] at hpools
    rw [hlast]
    exact (World.tallies_leave w _).then hpools
  · have hcount : worker.countOut w = w ∧ worker.isLeaving = false := by
      obtain ⟨h,stage⟩ := worker
      cases stage with
      | leaving => exact absurd rfl hleaving
      | _ => exact ⟨rfl,rfl⟩
    rw [hcount.1] at hpools
    rw [hcount.2]
    exact .of_pools _ true hpools

def Spawn.countsFor (p : PoolId) (s : Spawn U N) : Bool := s.launcher.pool == p && s.stage.counts

namespace PoolState

variable {x y : PoolState U N} {i : Nat} {s : Spawn U N} {stage : Spawning (Frame U N)} {p : PoolId}

def outstanding (x : PoolState U N) (p : PoolId) : Nat :=
  x.spawns.countP (Spawn.countsFor p) + x.guards.count p

def Counted (x : PoolState U N) : Prop := ∀ p, (x.world.pool p).active = x.outstanding p

theorem countP_pos (hs : x.spawns[i]? = some s) (hcounts : s.stage.counts = true) :
    0 < x.spawns.countP (Spawn.countsFor s.launcher.pool) :=
  List.countP_pos_iff.mpr ⟨s,List.mem_of_getElem? hs,by simp [Spawn.countsFor, hcounts]⟩

/-- One start goes from one stage to another. -/
theorem Counted.moved (hx : Counted x) (hs : x.spawns[i]? = some s)
    (hspawns : y.spawns = x.spawns.set i { s with stage }) (hguards : y.guards = x.guards)
    (ht : Tallies s.launcher.pool s.stage.counts stage.counts x.world y.world) :
    Counted y := by
  intro q
  obtain ⟨hi,hat⟩ := List.getElem?_eq_some_iff.mp hs
  rw [ht.active, hx q, outstanding, outstanding, hspawns, hguards, List.countP_set hi, hat]
  by_cases hq : s.launcher.pool = q
  · cases hbefore : s.stage.counts with
    | false =>
      cases hafter : stage.counts <;> simp [Spawn.countsFor, hq, hbefore, hafter]
      omega
    | true =>
      -- Who is counted out was counted, so the subtraction does not stop at zero.
      have hpos := countP_pos hs hbefore
      rw [hq] at hpos
      cases hafter : stage.counts <;> simp [Spawn.countsFor, hq, hbefore, hafter]
      all_goals omega
  · cases s.stage.counts <;> cases stage.counts <;> simp [Spawn.countsFor, hq]

theorem Sound.tallies_spawn (hx : Sound x) (hs : x.spawns[i]? = some s)
    (hstep : s.stage.step s.launcher x.world = .ran stage w) :
    Tallies s.launcher.pool s.stage.counts stage.counts x.world w :=
  Spawning.tallies_step (hx.pool i s hs) (fun _ _ => hx.serves_unused hs) hstep

theorem tallies_fail (x : PoolState U N) {h : WorkerId} {adopted : List Stored} (fault : Fault)
    (hstage : s.stage = .launching h adopted) : Tallies s.launcher.pool s.stage.counts
      (Spawning.unhooking (F := Frame U N) h fault).counts x.world
      ((x.world.setStore (x.world.store.drop adopted)).leave s.launcher.pool) := by
  rw [hstage]
  exact (World.tallies_leave _ s.launcher.pool).after rfl

theorem Sound.tallies_work (hx : Sound x) {worker worker' : Worker (Frame U N)}
    (hs : x.spawns[i]? = some s) (hworker : s.stage.worker? = some worker)
    (hstep : worker.step lib x.world = .ran worker' w) :
    Tallies s.launcher.pool s.stage.counts (s.stage.withWorker worker').counts x.world w := by
  have hpool := (Fits.settled (hx.fits i s hs) hworker).pool
  have hstays := (hx.settled_step hs hworker hstep).2
  rw [Spawning.counts_worker hworker, Spawning.counts_worker
    (Spawning.worker?_withWorker hworker worker'), ← hpool]
  exact hstays.tallies (Worker.not_gone hstep)

theorem Step.counted (hstep : Step lib x y) (hx : Sound x) (hcounted : Counted x) : Counted y := by
  cases hstep with
  | call l arguments hpool =>
    intro q
    rw [hcounted q, outstanding, outstanding, List.countP_append]
    simp [Spawn.countsFor, Spawning.counts]
  | spawn hs hstep => exact hcounted.moved hs rfl rfl (hx.tallies_spawn hs hstep)
  | fail reason hs hstage => exact hcounted.moved hs rfl rfl (tallies_fail x _ hstage)
  | work hs hworker hstep => exact hcounted.moved hs rfl rfl (hx.tallies_work hs hworker hstep)
  | shut p hpool => exact hcounted
  | order he hstep => exact fun q => ((World.keepsPools_errand hstep).2 q).trans (hcounted q)
  | errand hstep => exact fun q => ((World.keepsPools_errand hstep).2 q).trans (hcounted q)
  | guard p hpool =>
    intro q
    refine (World.active_enter hpool q).trans ?_
    rw [hcounted q, outstanding, outstanding, List.count_cons]
    simp [Nat.add_assoc]
  | unguard p hguard =>
    intro q
    refine (World.active_leave x.world p q).trans ?_
    rw [hcounted q, outstanding, outstanding, List.count_erase]
    by_cases hpq : p = q
    · subst hpq
      have := List.count_pos_iff.mpr hguard
      simp
      omega
    · simp [hpq]
  | share h hshare => exact hcounted
  | unshare h hshare => 
    have ht : Tallies 0 true true x.world (x.world.disown h) :=
      .of_pools 0 true (World.within_disown x.world h).pools
    exact fun q => (ht.active q).trans (hcounted q)
  | other hstarts => exact fun q => (hstarts.active q).trans (hcounted q)

theorem Step.keepsPools (hstep : Step lib x y) (hx : Sound x) : World.KeepsPools x.world y.world := by
  cases hstep with
  | call l arguments hpool => exact .refl _
  | spawn hs hstep => exact (hx.tallies_spawn hs hstep).toKeepsPools
  | fail reason hs hstage => exact (tallies_fail x (.notStarted reason) hstage).toKeepsPools
  | work hs hworker hstep => exact (hx.tallies_work hs hworker hstep).toKeepsPools
  | shut p hpool => exact .refl _
  | order he hstep => exact (World.keepsPools_errand hstep).1
  | errand hstep => exact (World.keepsPools_errand hstep).1
  | guard p hpool => exact (World.tallies_enter hpool).toKeepsPools
  | unguard p hguard => exact (World.tallies_leave x.world p).toKeepsPools
  | share h hshare => exact .of_pools rfl
  | unshare h hshare => exact .of_pools (World.within_disown x.world h).pools
  | other hstarts => exact ⟨hstarts.pools,hstarts.requested⟩

end PoolState

end Workers
