import Workers.Proofs.Pool.State
/-! # The invariant of starts and workers

Each kind of step leaves every worker what it needs.  A start works on its own handle; the one step
that makes a handle makes it with a context that nothing reports to yet.
-/
namespace Workers

open World (Around Steady Respects)

variable {U N : Type} {lib : Library U N} {l : Launcher} {w w' : World} {shares : WorkerId → Nat}
variable {stage stage' : Spawning (Frame U N)}

theorem Worker.StepEffect.around {worker worker' : Worker (Frame U N)}
    (hstays : worker.StepEffect w w' worker') :
    Around (some worker.handle) w w' := by
  have hcount : (worker.countOut w).handles = w.handles ∧ (worker.countOut w).contexts = w.contexts ∧
      (worker.countOut w).pools.size = w.pools.size := by
    unfold Worker.countOut
    split
    · exact ⟨rfl,rfl,World.size_setPool ..⟩
    · exact ⟨rfl,rfl,rfl⟩
  obtain ⟨hhandles,hcontexts,hpools⟩ := hcount
  have hback : ∀ i, (worker.countOut w).KeepsControl i w := fun i => .of_eq hhandles.symm hcontexts.symm
  have haround := hstays.within.around fun i hi => (hback i).trans (hstays.keepsControl i hi)
  exact haround.after hhandles hcontexts hpools

namespace Spawning

theorem handOut_of_ne {h : WorkerId} (hh : stage.handle? ≠ some h) :
    stage.handOut shares h = shares h := by
  cases stage with
  | started worker => exact Function.update_of_ne (fun heq => hh (congrArg some heq.symm)) ..
  | _ => rfl

/-- But for the step that makes the handle, a start stays within it. -/
theorem around_step (hmakes : stage.makes = false)
    (hserves : ∀ h c, stage.handle? = some h → (w.handle h).context = some c → w.Serves c h)
    (hstep : stage.step l w = .ran stage' w') :
    Around stage.handle? w w' ∧ ∀ h, stage'.handle? = some h → stage.handle? = some h := by
  cases transition_of_step hstep with
  | enters | releases => exact ⟨World.around_of_eq rfl rfl (World.size_setPool ..).ge,nofun⟩
  | turnsAway | passes => exact ⟨World.around_of_eq rfl rfl (Nat.le_refl _),nofun⟩
  | prepares => cases hmakes
  | adopted => exact ⟨World.around_of_eq rfl rfl (Nat.le_refl _),fun _ hh => hh⟩
  | @adopts h object _ _ moved rest hadopt =>
    have hwithin := World.within_adopt w h object
    have hcontrol := fun i => World.keepsControl_adopt (h := i) w h object
    rw [hadopt] at hwithin hcontrol
    exact ⟨hwithin.around fun i _ => hcontrol i,fun _ hh => hh⟩
  | @rejects h object _ _ moved rest hadopt =>
    have hwithin := World.within_adopt w h object
    have hcontrol := fun i => World.keepsControl_adopt (h := i) w h object
    rw [hadopt] at hwithin hcontrol
    exact ⟨(hwithin.trans (World.within_setStore _ _)).around
      fun i _ => (hcontrol i).trans (World.keepsControl_setStore _ _),fun _ hh => hh⟩
  | configures h moved =>
    exact ⟨World.around_configure (fun c hc => hserves h c rfl hc) l.config,fun _ hh => hh⟩
  | launches h moved =>
    exact ⟨(World.within_own w h).around fun i _ => World.keepsControl_own w h,fun _ hh => hh⟩
  | tracks worker => exact ⟨World.around_of_eq rfl rfl (World.size_setPool ..).ge,fun _ hh => hh⟩
  | discards h fault =>
    exact ⟨(World.within_disown w h).around fun i _ => World.keepsControl_disown w h,nofun⟩
  | unhooks h fault =>
    have hwithin := World.within_unhook fun c hc => hserves h c rfl hc
    exact ⟨(hwithin.trans (World.within_disown _ h)).around
      fun i _ => (World.keepsControl_unhook w h).trans (World.keepsControl_disown _ h),nofun⟩

end Spawning

namespace PoolState

variable {x y : PoolState U N} {i : Nat} {p : PoolId} {worker : Worker (Frame U N)}
    {home : ContextId → Option Nat}

theorem Settled.owners (hsettled : Settled home w shares i p worker)
    (hstarting : worker.isStarting = true) :
    0 < (w.handle worker.handle).owners :=
  Nat.zero_lt_of_lt (hsettled.held hstarting)

theorem Settled.handOut (hsettled : Settled home w shares i p worker) (halone : shares worker.handle = 0)
    (howners : worker.isStarting = true → 1 < (w.handle worker.handle).owners) :
    Settled home w (Function.update shares worker.handle (shares worker.handle + 1)) i p worker :=
  { hsettled with
    held := fun hstarting => by
      rw [Function.update_self, halone]
      exact howners hstarting }

theorem Fits.step (hfits : Spawn.Fits home w shares i ⟨l,stage⟩) (hmakes : stage.makes = false)
    (hserves : ∀ h c, stage.handle? = some h → (w.handle h).context = some c → w.Serves c h)
    (hstep : stage.step l w = .ran stage' w') :
    Spawn.Fits home w' (stage'.handOut shares) i ⟨l,stage'⟩ := by
  cases Spawning.transition_of_step hstep with
  | enters | passes | adopted => exact hfits
  | turnsAway | discards | unhooks | releases => trivial
  | prepares => cases hmakes
  | @adopts h object _ _ moved rest hadopt =>
    have hcontrol := World.keepsControl_adopt (h := h) w h object
    have hsteady := World.steady_adopt (h := h) w h object
    rw [hadopt] at hcontrol hsteady
    exact ⟨hfits.1.respects (.of_steady hcontrol hsteady rfl),hfits.2⟩
  | @rejects h object _ _ moved rest hadopt =>
    have hcontrol := World.keepsControl_adopt (h := h) w h object
    rw [hadopt] at hcontrol
    exact fun c hc => hfits.1.unused c (hcontrol.context c hc)
  | configures h moved =>
    have hsteady := World.steady_configure hfits.1.sound.range (hfits.1.owners rfl)
      (fun c hc => hserves h c rfl hc)
      l.config
    exact ⟨hfits.1.respects (.of_steady (World.keepsControl_configure w h l.config) hsteady rfl),hfits.2⟩
  | launches h moved =>
    have hsettled :=
      hfits.1.respects (.of_steady (World.keepsControl_own w h) (World.steady_own w h) rfl)
    have howners : ((w.own h).handle h).owners = (w.handle h).owners + 1 :=
      congrArg WorkerHandle.owners (World.handle_setHandle_self hfits.1.sound.range _)
    exact ⟨hsettled.launch,hfits.2,fun _ => howners ▸ Nat.succ_lt_succ (hfits.1.owners rfl)⟩
  | tracks worker =>
    obtain ⟨hsettled,halone,howners⟩ := hfits
    -- The caller gets a share of its own: the worker keeps the one that it was launched with.
    have htrack : Respects worker.handle w shares (w.track l.pool worker.handle) shares :=
      .of_steady (.of_eq rfl rfl) (.of_eq rfl) rfl
    exact (hsettled.respects htrack).handOut halone howners

variable {s : Spawn U N}

theorem Sound.serves_unused (hx : Sound x) (hs : x.spawns[i]? = some s) {h : WorkerId} {c : ContextId}
    (hh : s.stage.handle? = some h) (hc : (x.world.handle h).context = some c) : x.world.Serves c h :=
  hx.serves c i s h (Fits.unused (hx.fits i s hs) hh hc) hs hh

/-- The step that makes a handle. -/
theorem Sound.prepare (hx : Sound x) {arguments : List Stored}
    (hs : x.spawns[i]? = some ⟨l,.preparing arguments⟩)
    (hstep : (Spawning.preparing arguments).step l x.world = .ran stage w) :
    Sound (x.advance i ⟨l,.preparing arguments⟩ stage w) := by
  cases hstep
  have haround := World.around_addHandle x.world l.pool
  have ⟨_,hhandles,hcontexts⟩ := World.size_addHandle x.world l.pool
  have hfresh : ∀ c, x.home c ≠ some i := hx.fits i _ hs
  have hhome : ∀ c j, Function.update x.home x.world.contexts.size (some i) c = some j →
      c = x.world.contexts.size ∧ i = j ∨ c ≠ x.world.contexts.size ∧ x.home c = some j := by
    intro c j hc
    by_cases hlast : c = x.world.contexts.size
    · rw [hlast, Function.update_self] at hc
      exact .inl ⟨hlast,Option.some.inj hc⟩
    · rw [Function.update_of_ne hlast] at hc
      exact .inr ⟨hlast,hc⟩
  -- No context was made for this start before, so the invariant on hooks is about the new one only.
  have hown : ∀ c, Function.update x.home x.world.contexts.size (some i) c = some i →
      c = x.world.contexts.size :=
    fun c hc => (hhome c i hc).elim And.left fun hold => absurd hold.2 (hfresh c)
  refine hx.moved hs rfl rfl haround.handles haround.contexts haround.pools
    (fun h hh => hx.unshared h (haround.handles.trans hh)) (fun c j hj => ⟨fun hc => ?_,fun hc => ?_⟩)
    (fun c hc => ?_) (fun c j hj hc k hk => ?_) (fun j t h hj ht hh => ?_)
    (fun h hh => ⟨?_,fun c hc k hk => ?_,fun j t hj ht hth => ?_⟩) ?_
  · exact (hhome c j hc).elim (fun hnew => absurd hnew.2.symm hj) And.right
  · exact (Function.update_of_ne (hx.made c j hc).1.ne _ _).trans hc
  · rw [hown c hc]
    exact hcontexts ▸ Nat.lt_succ_self _
  · exact (haround.hook c k hk).resolve_right fun ⟨_,hnone,_⟩ => nomatch hnone
  · have hh' := hx.range j t h ht hh
    exact .of_steady (haround.keepsControl h hh' nofun) (haround.steady h hh' nofun) rfl
  · obtain rfl := Option.some.inj hh
    exact hhandles ▸ Nat.lt_succ_self _
  · rw [hown c hc] at hk
    exact absurd (hk.symm.trans (World.hook_addHandle x.world l.pool)) nofun
  · obtain rfl := Option.some.inj hh
    exact Nat.lt_irrefl _ (hx.range j t _ ht hth)
  · have hself := World.handle_addHandle_self x.world l.pool
    have hshares : x.shares x.world.handles.size = 0 := hx.unshared _ (Nat.le_refl _)
    refine ⟨⟨WorkerState.sound_addHandle x.world l.pool l.routine [],?_,fun _ => ?_,fun _ => ?_,
      fun c hc => ?_,nofun,
      trivial,fun hended => absurd hended (Worker.not_ended nofun nofun)⟩,hshares⟩
    · exact congrArg WorkerHandle.pool hself
    · exact fun hnone => nomatch (congrArg WorkerHandle.context hself).symm.trans hnone
    · exact hshares.trans_lt ((congrArg WorkerHandle.owners hself).symm ▸ Nat.one_pos)
    · have hlast : some x.world.contexts.size = some c :=
        (congrArg WorkerHandle.context hself).symm.trans hc
      rw [← Option.some.inj hlast]
      exact Function.update_self ..

theorem Sound.spawn (hx : Sound x) (hs : x.spawns[i]? = some s)
    (hstep : s.stage.step s.launcher x.world = .ran stage w) : Sound (x.advance i s stage w) := by
  obtain ⟨l,old⟩ := s
  by_cases hmakes : old.makes = true
  · cases old with
    | preparing arguments => exact hx.prepare hs hstep
    | _ => cases hmakes
  · have hkeeps : old.makes = false := Bool.eq_false_iff.mpr hmakes
    have hserves := fun h c => hx.serves_unused hs (h := h) (c := c)
    obtain ⟨haround,hhandle⟩ := Spawning.around_step hkeeps hserves hstep
    have hhome : (x.advance i ⟨l,old⟩ stage w).home = x.home := if_neg hmakes
    exact hx.around hs rfl rfl hhome haround hhandle
      (fun h hh => Spawning.handOut_of_ne fun hnew => hh (hhandle h hnew))
      (Fits.step (hx.fits i _ hs) hkeeps hserves hstep)

theorem Sound.call (hx : Sound x) (l : Launcher) (arguments : List Stored)
    (hpool : l.pool < x.world.pools.size) :
    Sound { x with spawns := x.spawns ++ [⟨l,.entering arguments⟩] } := by
  have hspawns : ∀ {j : Nat} {t : Spawn U N}, (x.spawns ++ [⟨l,.entering arguments⟩])[j]? = some t →
      x.spawns[j]? = some t ∨ j = x.spawns.length ∧ t = ⟨l,.entering arguments⟩ := by
    intro j t ht
    by_cases hj : j < x.spawns.length
    · exact .inl ((List.getElem?_append_left hj).symm.trans ht)
    · rw [List.getElem?_append_right (Nat.not_lt.mp hj), List.getElem?_singleton] at ht
      split at ht
      · exact .inr ⟨by omega,(Option.some.inj ht).symm⟩
      · cases ht
  have hold : ∀ {j : Nat} {t : Spawn U N} {h : WorkerId},
    (x.spawns ++ [⟨l,.entering arguments⟩])[j]? = some t →
      t.stage.handle? = some h → x.spawns[j]? = some t := by
    intro j t h ht hh
    rcases hspawns ht with hold | ⟨_,rfl⟩
    · exact hold
    · cases hh
  constructor
  case range => exact fun j t h ht hh => hx.range j t h (hold ht hh) hh
  case distinct =>
    exact fun j k t u h ht hu hth huh =>
      hx.distinct j k t u h (hold ht hth) (hold hu huh) hth huh
  case made =>
    intro c j hc
    have ⟨hsmall,hlength⟩ := hx.made c j hc
    exact ⟨hsmall,List.length_append ▸ Nat.lt_add_right _ hlength⟩
  case serves => exact fun c j t h hc ht hh => hx.serves c j t h hc (hold ht hh) hh
  case pool =>
    intro j t ht
    rcases hspawns ht with hold | ⟨_,rfl⟩
    · exact hx.pool j t hold
    · exact hpool
  case guards => exact hx.guards
  case unshared => exact hx.unshared
  case fits =>
    intro j t ht
    rcases hspawns ht with hold | ⟨rfl,rfl⟩
    · exact hx.fits j t hold
    · exact fun c hc => Nat.lt_irrefl _ (hx.made c _ hc).2

theorem Sound.fail (hx : Sound x) {h : WorkerId} {adopted : List Stored} (hs : x.spawns[i]? = some s)
    (hstage : s.stage = .launching h adopted) (fault : Fault) :
    Sound { x.restage i s (.unhooking h fault) with
      world := (x.world.setStore (x.world.store.drop adopted)).leave s.launcher.pool } := by
  obtain ⟨l,old⟩ := s
  obtain rfl : old = _ := hstage
  have haround : Around (some h) x.world
      ((x.world.setStore (x.world.store.drop adopted)).leave l.pool) :=
    World.around_of_eq rfl rfl (World.size_setPool ..).ge
  exact hx.around hs rfl rfl rfl haround (fun _ hh => hh) (fun _ _ => rfl)
    fun c hc => Fits.unused (hx.fits i _ hs) rfl hc

theorem Fits.work {s : Spawn U N} (hfits : s.Fits home w shares i) {worker' : Worker (Frame U N)}
    (hworker : s.stage.worker? = some worker) (hstays : worker.StepEffect w w' worker')
    (hsettled : Settled home w' shares i s.launcher.pool worker') :
    Spawn.Fits home w' shares i { s with stage := s.stage.withWorker worker' } := by
  obtain ⟨l,old⟩ := s
  obtain rfl | rfl := Spawning.of_worker? hworker
  · exact ⟨hsettled,hstays.handle ▸ hfits.2.1,fun hstarting =>
      nomatch hstays.started.symm.trans hstarting⟩
  · exact hsettled

/-- A worker of a start stays settled. -/
theorem Sound.settled_step (hx : Sound x) {worker' : Worker (Frame U N)} (hs : x.spawns[i]? = some s)
    (hworker : s.stage.worker? = some worker) (hstep : worker.step lib x.world = .ran worker' w) :
    Settled x.home w x.shares i s.launcher.pool worker' ∧ worker.StepEffect x.world w worker' :=
  (Fits.settled (hx.fits i s hs) hworker).step
    (fun c hc => hx.serves c i s _ hc hs (Spawning.handle?_worker hworker)) hstep

theorem Sound.work (hx : Sound x) {worker' : Worker (Frame U N)} (hs : x.spawns[i]? = some s)
    (hworker : s.stage.worker? = some worker) (hstep : worker.step lib x.world = .ran worker' w) :
    Sound { x.restage i s (s.stage.withWorker worker') with world := w } := by
  obtain ⟨hsettled,hstays⟩ := hx.settled_step hs hworker hstep
  have hbefore := Spawning.handle?_worker hworker
  have hafter := Spawning.handle?_worker (Spawning.worker?_withWorker hworker worker')
  refine hx.around hs rfl rfl rfl (hbefore ▸ hstays.around) (fun h hh => ?_) (fun _ _ => rfl)
    (Fits.work (hx.fits i s hs) hworker hstays hsettled)
  rwa [hbefore, ← hstays.handle, ← hafter]

theorem Sound.errand (hx : Sound x) {e e' : Errand} (hstep : e.step x.world = .ran e' w)
    (shutdowns : List (PoolId × Errand)) : Sound { x with world := w, shutdowns } := by
  have hrespects := fun (h : WorkerId) => World.respects_errand h x.shares hstep
  have ⟨hhandles,hcontexts,hpools⟩ : x.world.handles.size = w.handles.size ∧
    x.world.contexts = w.contexts ∧
      x.world.pools.size = w.pools.size := by
    rcases Errand.step_cases hstep with ⟨h,command,rfl⟩ | ⟨n,rfl⟩ | ⟨p,rfl⟩ | rfl
    · exact ⟨(World.size_setHandle ..).symm,rfl,rfl⟩
    · exact ⟨rfl,rfl,rfl⟩
    · exact ⟨rfl,rfl,(World.size_setPool ..).symm⟩
    · exact ⟨rfl,rfl,rfl⟩
  refine hx.changed rfl rfl hhandles.le (congrArg Array.size hcontexts).le hpools.le (hpools ▸ hx.guards)
    (hhandles ▸ hx.unshared) (fun c j _ k hk => ?_) fun _ _ h _ _ => hrespects h
  rwa [World.context, ← hcontexts] at hk

theorem Sound.still (hx : Sound x) (hhandles : w.handles = x.world.handles)
    (hcontexts : w.contexts = x.world.contexts) (hpools : w.pools.size = x.world.pools.size)
    (shutdowns : List (PoolId × Errand)) {guards : List PoolId}
    (hguards : ∀ p ∈ guards, p < x.world.pools.size) :
    Sound { x with world := w, shutdowns, guards } := by
  have haround : Around none x.world w := World.around_of_eq hhandles hcontexts hpools.ge
  refine hx.changed rfl rfl haround.handles haround.contexts haround.pools (hpools ▸ hguards)
    (hhandles ▸ hx.unshared)
    (fun c j _ k hk => (haround.hook c k hk).resolve_right fun ⟨_,hnone,_⟩ => nomatch hnone)
    fun j t h ht hh => ?_
  have hh' := hx.range j t h ht hh
  exact .of_steady (haround.keepsControl h hh' nofun) (haround.steady h hh' nofun) rfl

theorem Sound.shared (hx : Sound x) {h : WorkerId} (hwithin : World.Within h x.world w) {n : Nat}
    (hshare : 0 < x.shares h)
    (hrespects : ∀ i, Respects i x.world x.shares w (Function.update x.shares h n)) :
    Sound { x with world := w, shares := Function.update x.shares h n } := by
  refine hx.changed rfl rfl hwithin.handles.ge hwithin.contexts.ge (congrArg Array.size hwithin.pools).ge
    (fun p hp => hwithin.pools ▸ hx.guards p hp) (fun i hi => ?_) (fun c _ _ => hwithin.hook c)
    fun _ _ i _ _ => hrespects i
  have hout : x.world.handles.size ≤ i := hwithin.handles ▸ hi
  have hne : i ≠ h := fun heq => hshare.ne' (heq ▸ hx.unshared i hout)
  exact (Function.update_of_ne hne ..).trans (hx.unshared i hout)

theorem Sound.keepsStarts (hx : Sound x) (hstarts : x.KeepsStarts w) : Sound { x with world := w } := by
  refine hx.changed rfl rfl hstarts.handles hstarts.contexts hstarts.pools
    (fun p hp => (hx.guards p hp).trans_le hstarts.pools)
    (fun h hh => hx.unshared h (hstarts.handles.trans hh))
    hstarts.hook fun j t h ht hh => ?_
  have hhandle := hstarts.handle j t h ht hh
  have hcontrol : World.KeepsControl h x.world w := by
    refine ⟨hstarts.handles,by rw [hhandle],fun c hc => hhandle ▸ hc,hstarts.contexts,hstarts.stopping⟩
  exact .of_steady hcontrol (.of_eq hhandle) rfl

theorem Step.sound (hstep : Step lib x y) (hx : Sound x) : Sound y := by
  cases hstep with
  | call l arguments hpool => exact hx.call l arguments hpool
  | spawn hs hstep => exact hx.spawn hs hstep
  | fail reason hs hstage => exact hx.fail hs hstage _
  | work hs hworker hstep => exact hx.work hs hworker hstep
  | shut p hpool => exact hx.still rfl rfl rfl _ hx.guards
  | order he hstep => exact hx.errand hstep _
  | errand hstep => exact hx.errand hstep _
  | guard p hpool =>
    exact hx.still (w := x.world.enter p) rfl rfl (World.size_setPool ..)
      _ (List.forall_mem_cons.mpr ⟨hpool,hx.guards⟩)
  | unguard p hguard =>
    exact hx.still (w := x.world.leave p) rfl rfl (World.size_setPool ..) _ fun q hq =>
      hx.guards q (List.mem_of_mem_erase hq)
  | share h hshare =>
    have hrange : h < x.world.handles.size := not_le.mp fun hout => hshare.ne' (hx.unshared h hout)
    exact hx.shared (World.within_own x.world h) hshare fun i => World.respects_own i h hrange hshare
  | unshare h hshare =>
    have hrange : h < x.world.handles.size := not_le.mp fun hout => hshare.ne' (hx.unshared h hout)
    exact hx.shared (World.within_disown x.world h) hshare fun i => World.respects_disown i hrange hshare
  | other hstarts => exact hx.keepsStarts hstarts

theorem sound_start (w : World) : Sound ({ world := w } : PoolState U N) := by
  have hnone : ∀ {i : Nat} {s : Spawn U N} {q : Prop}, ([] : List (Spawn U N))[i]? = some s → q := by
    intro i s q hs
    rw [List.getElem?_nil] at hs
    cases hs
  constructor
  case range => exact fun i s h hs => hnone hs
  case distinct => exact fun i j s t h hs => hnone hs
  case made =>
    intro c i hc
    cases hc
  case serves => exact fun c i s h _ hs => hnone hs
  case pool => exact fun i s hs => hnone hs
  case guards => exact fun p hp => absurd hp List.not_mem_nil
  case unshared => exact fun h _ => rfl
  case fits => exact fun i s hs => hnone hs

end PoolState

end Workers
