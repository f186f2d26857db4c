import Workers.Proofs.Pool.Starts
import Workers.Proofs.Pool.Stranded
/-! # A start that is left alone

The context of a start gets its hook when it is configured and keeps it while the worker runs its code.
From then on a sleep of the worker is registered with the handle, and once the handle is tracked a
shutdown finds it.
-/
namespace Workers

open World (KeepsHook Tracks)

variable {U N : Type}

/-- A start whose worker can be woken: the hook of its context is set before it is launched, and it
shares in its handle until it is done with its code. -/
def Spawn.Readied (w : World) (shares : WorkerId → Nat) (s : Spawn U N) : Prop :=
  match s.stage with
  | .adopting h _ _ | .configuring h _ =>
    ∀ c, (w.handle h).context = some c → c < w.contexts.size ∧ (w.context c).hook = none
  | .launching h _ => ∀ c, (w.handle h).context = some c → (w.context c).hook = some (.worker h)
  | .tracking worker =>
    WorkerState.Interruptible ⟨w,worker⟩ ∧ (¬ worker.stage.Past → 1 < (w.handle worker.handle).owners)
  | .started worker =>
    WorkerState.Interruptible ⟨w,worker⟩ ∧
    (¬ worker.stage.Past → shares worker.handle < (w.handle worker.handle).owners ∧
      worker.handle ∈ (w.pool s.launcher.pool).tracked)
  | _ => True

def Spawning.IsLive {F : Type} : Spawning F → Prop
  | adopting .. | configuring .. | launching .. => True
  | tracking worker | started worker => ¬ worker.stage.Past
  | _ => False

namespace WorkerState

variable {w : World} {worker : Worker (Frame U N)}

theorem interruptible_of_past (hpast : worker.stage.Past) : Interruptible ⟨w,worker⟩ := by
  refine ⟨fun c hc => (not_runsIn_of_past hpast c hc).elim,fun c s hs => ?_⟩
  exact (not_runsIn_of_past (x := ⟨w,worker⟩) hpast c (.inr ⟨s,hs⟩)).elim

theorem SleepsPastFlag.not_past {x : WorkerState U N} {n : NotifierId}
    (hsleeps : x.SleepsPastFlag n) : ¬ x.worker.stage.Past := by
  obtain ⟨c,s,hstage,_⟩ := hsleeps
  rw [hstage]
  exact id

end WorkerState

namespace PoolState

variable {lib : Library U N} {x y : PoolState U N} {i j : Nat} {s t : Spawn U N} {w : World}
    {c : ContextId} {h : WorkerId}
variable {p : PoolId} {worker worker' : Worker (Frame U N)} {stage : Spawning (Frame U N)}

theorem readied_of_not_live {shares : WorkerId → Nat} (hdead : ¬ s.stage.IsLive) :
    s.Readied w shares := by
  obtain ⟨l,stage⟩ := s
  cases stage with
  | adopting | configuring | launching => exact absurd trivial hdead
  | tracking worker | started worker =>
    have hpast : worker.stage.Past := not_not.mp hdead
    exact ⟨WorkerState.interruptible_of_past hpast,fun hon => absurd hpast hon⟩
  | entering | checking | preparing | discarding | unhooking | releasing | refused => trivial

/-- The shares in the handle of a live start are never the only ones. -/
theorem Sound.held (hx : Sound x) (hs : x.spawns[i]? = some s) (hr : s.Readied x.world x.shares)
    (hlive : s.stage.IsLive) (hh : s.stage.handle? = some h) :
    x.shares h < (x.world.handle h).owners := by
  have hfits := hx.fits i s hs
  obtain ⟨l,stage⟩ := s
  cases stage with
  | adopting | configuring | launching =>
    obtain rfl := Option.some.inj hh
    exact hfits.1.held rfl
  | tracking worker =>
    obtain rfl := Option.some.inj hh
    rw [hfits.2.1]
    exact Nat.zero_lt_of_lt (hr.2 hlive)
  | started worker =>
    obtain rfl := Option.some.inj hh
    exact (hr.2 hlive).1
  | entering | checking | preparing | discarding | unhooking | releasing | refused => exact hlive.elim

theorem restage_of_ne (hij : j ≠ i) (hs : x.spawns[i]? = some s) :
    (x.restage j t stage).spawns[i]? = some s :=
  (List.getElem?_set_ne hij).trans hs

structure KeepsStart (x : PoolState U N) (i : Nat) (w : World) : Prop where
  hook : ∀ c, x.home c = some i → (w.context c).hook = (x.world.context c).hook
  notifiers : x.world.notifiers.size ≤ w.notifiers.size
  notified : ∀ p v n, x.HasWorker i p v → v.SleepsPastFlag n → x.world.isNotified n = true →
      w.isNotified n = true
  tracked : ∀ s h, x.spawns[i]? = some s → s.stage.handle? = some h → Tracks h s.launcher.pool x.world w

structure OthersStep (i : Nat) (s : Spawn U N) (x y : PoolState U N) :
    Prop extends KeepsStart x i y.world where
  stays : y.spawns[i]? = some s
  contexts : x.world.contexts.size ≤ y.world.contexts.size
  respects : ∀ h, s.stage.handle? = some h → World.Respects h x.world x.shares y.world y.shares
  target : ∀ h, s.stage.handle? = some h → (y.world.handle h).target = (x.world.handle h).target

/-- Whoever leaves the contexts of the start alone, and the handle, leaves the start alone. -/
theorem Sound.othersStep (hx : Sound x) (hs : x.spawns[i]? = some s)
    (hstays : y.spawns[i]? = some s) (hcontexts : x.world.contexts.size ≤ y.world.contexts.size)
    (hleaves : ∀ c, c ≠ x.world.contexts.size → (∀ k, x.home c = some k → k = i) →
      KeepsHook c x.world y.world)
    (hhandle : ∀ h, s.stage.handle? = some h → World.Respects h x.world x.shares y.world y.shares ∧
      (y.world.handle h).target = (x.world.handle h).target ∧
      Tracks h s.launcher.pool x.world y.world) :
    OthersStep i s x y := by
  have hout : KeepsHook (x.world.contexts.size + 1) x.world y.world :=
    hleaves _ (Nat.succ_ne_self _) fun k hk => absurd (hx.made _ k hk).1 (Nat.not_lt.mpr (Nat.le_succ _))
  refine ⟨⟨fun c hc => ?_,hout.notifiers,fun _ _ n _ _ => hout.notified n,fun t h ht hh => ?_⟩,
    hstays,hcontexts,
    fun h hh => (hhandle h hh).1,fun h hh => (hhandle h hh).2.1⟩
  · exact (hleaves c (hx.made c i hc).1.ne fun k hk => Option.some.inj (hk.symm.trans hc)).hook
  · obtain rfl := Option.some.inj (hs.symm.trans ht)
    exact (hhandle h hh).2.2

def Shared (x : PoolState U N) : Prop :=
  ∀ h, 0 < x.shares h → ∃ (j : Nat) (t : Spawn U N) (worker : Worker (Frame U N)),
  x.spawns[j]? = some t ∧ t.stage = .started worker ∧ worker.handle = h

theorem Step.started (hstep : Step lib x y) (ht : x.spawns[j]? = some t)
    (hstage : t.stage = .started worker) :
    ∃ t' worker', y.spawns[j]? = some t' ∧ t'.stage = .started worker' ∧
    worker'.handle = worker.handle := by
  obtain ⟨stage,ht',hnext⟩ := hstep.next ht
  rw [hstage] at hnext
  cases hnext with
  | rest => exact ⟨_,worker,ht',rfl,rfl⟩
  | own hstep => cases hstep
  | work hworker hstep =>
    obtain rfl := Option.some.inj hworker
    exact ⟨_,_,ht',rfl,WorkerState.Works.handle_eq (x := ⟨_,_⟩) (y := ⟨_,_⟩) hstep⟩

theorem Step.shared (hstep : Step lib x y) (hx : Shared x) : Shared y := by
  have hold : ∀ h, 0 < x.shares h → ∃ (j : Nat) (t : Spawn U N) (worker : Worker (Frame U N)),
      y.spawns[j]? = some t ∧ t.stage = .started worker ∧ worker.handle = h := by
    intro h hh
    obtain ⟨j,t,worker,ht,hstage,rfl⟩ := hx h hh
    obtain ⟨t',worker',ht',hstage',hhandle⟩ := hstep.started ht hstage
    exact ⟨j,t',worker',ht',hstage',hhandle⟩
  intro h hh
  cases hstep with
  | @spawn i s stage w hs hstep =>
    cases stage with
    | started worker =>
      by_cases hworker : worker.handle = h
      · exact ⟨i,_,worker,restage_spawn hs,rfl,hworker⟩
      · have hne : Function.update x.shares worker.handle (x.shares worker.handle + 1) h = x.shares h :=
          Function.update_of_ne (Ne.symm hworker) ..
        exact hold h (hne ▸ hh)
    | _ => exact hold h hh
  | share i hshare | unshare i hshare =>
    by_cases hi : h = i
    · exact hold h (hi ▸ hshare)
    · exact hold h (hh.trans_eq (Function.update_of_ne hi ..))
  | call | fail | work | shut | order | errand | guard | unguard | other => exact hold h hh

inductive Own (lib : Library U N) (i : Nat) (s : Spawn U N) (x : PoolState U N) : PoolState U N → Prop
  | spawn {stage : Spawning (Frame U N)} {w : World}
      (hstep : s.stage.step s.launcher x.world = .ran stage w) :
      Own lib i s x (x.advance i s stage w)
  | fail {h : WorkerId} {adopted : List Stored} (reason : String)
      (hstage : s.stage = .launching h adopted) :
      Own lib i s x { x.restage i s (.unhooking h (.notStarted reason)) with
        world := (x.world.setStore (x.world.store.drop adopted)).leave s.launcher.pool }
  | work {worker worker' : Worker (Frame U N)} {w : World} (hworker : s.stage.worker? = some worker)
      (hstep : worker.step lib x.world = .ran worker' w) :
      Own lib i s x { x.restage i s (s.stage.withWorker worker') with world := w }

/-- A step in which the code of the start does not destroy its context, and whoever is not a start,
a worker, a shutdown or a controller leaves the start alone. -/
structure SparingStep (lib : Library U N) (i : Nat) (x y : PoolState U N) : Prop where
  step : Step lib x y
  keeps : ∀ p v, x.HasWorker i p v → v.destroys = false
  others : (∀ s, x.spawns[i]? = some s → ¬ Own lib i s x y) → ∀ w, x.KeepsStarts w →
      y = { x with world := w } →
    x.KeepsStart i w

theorem Sound.othersStep_still (hx : Sound x) (hs : x.spawns[i]? = some s)
    (hstays : y.spawns[i]? = some s) (hhandles : y.world.handles = x.world.handles)
    (hcontexts : y.world.contexts = x.world.contexts)
    (hnotifiers : y.world.notifiers = x.world.notifiers) (hshares : y.shares = x.shares)
    (htracks : ∀ h p, Tracks h p x.world y.world) : OthersStep i s x y := by
  have hhandle : ∀ h, y.world.handle h = x.world.handle h := fun h => by rw [World.handle, hhandles]; rfl
  refine hx.othersStep hs hstays (congrArg Array.size hcontexts).ge
    (fun c _ _ => .of_eq hnotifiers hcontexts)
    fun h _ => ⟨?_,congrArg WorkerHandle.target (hhandle h),htracks h _⟩
  exact .of_steady (.of_eq hhandles hcontexts) (.of_eq (hhandle h)) (congrFun hshares h)

theorem Sound.othersStep_spawn (hx : Sound x) (hs : x.spawns[i]? = some s) (hij : j ≠ i)
    (ht : x.spawns[j]? = some t)
    (howners : ∀ h, s.stage.handle? = some h → 0 < (x.world.handle h).owners)
    (hstep : t.stage.step t.launcher x.world = .ran stage w) :
    OthersStep i s x (x.advance j t stage w) := by
  obtain ⟨own,haround,hown⟩ := hx.around_spawn hs hij ht hstep
  have hserves := fun h d (hh : t.stage.handle? = some h) (hd : (x.world.handle h).context = some d) =>
    hx.serves_unused ht hh hd
  refine hx.othersStep hs (restage_of_ne hij hs) haround.contexts (fun c hc hhome => ?_) fun h hh => ?_
  · refine Spawning.keepsHook_step hc hserves (fun h hh hd => hij ?_) hstep
    exact hhome j (Fits.unused (hx.fits j t ht) hh hd)
  · have hrange := hx.range i s h hs hh
    have hne := hown h hh
    exact ⟨.of_steady (haround.keepsControl h hrange hne.1) (haround.steady h hrange hne.1) hne.2,
      congrArg WorkerHandle.target (haround.handle h hrange hne.1),
      Spawning.tracks_step (howners h hh) hserves hstep⟩

theorem Sound.othersStep_work (hx : Sound x) (hs : x.spawns[i]? = some s) (hij : j ≠ i)
    (ht : x.spawns[j]? = some t) (hworker : t.stage.worker? = some worker)
    (hstep : worker.step lib x.world = .ran worker' w) :
    OthersStep i s x { x.restage j t (t.stage.withWorker worker') with world := w } := by
  obtain ⟨_,hstays⟩ := hx.settled_step ht hworker hstep
  have hsettled := Fits.settled (hx.fits j t ht) hworker
  have hserves := fun d hd => hx.serves d j t _ (hsettled.used d hd) ht (Spawning.handle?_worker hworker)
  refine hx.othersStep hs (restage_of_ne hij hs) hstays.around.contexts
    (fun c _ hhome => ?_) fun h hh => ?_
  · exact Worker.keepsHook_step (fun hc => hij (hhome j (hsettled.used c hc))) hserves
      (fun hc => hij (hhome j (hsettled.unused c hc))) hstep
  · have hrange := hx.range i s h hs hh
    have hne : some worker.handle ≠ some h := fun hown =>
      hij (hx.distinct j i t s h ht hs ((Spawning.handle?_worker hworker).trans hown) hh)
    exact ⟨.of_steady (hstays.around.keepsControl h hrange hne) (hstays.around.steady h hrange hne) rfl,
      congrArg WorkerHandle.target (hstays.around.handle h hrange hne),hstays.tracks⟩

theorem Sound.othersStep_errand (hx : Sound x) (hs : x.spawns[i]? = some s) {e e' : Errand}
    (hstep : e.step x.world = .ran e' w) (shutdowns : List (PoolId × Errand)) :
    OthersStep i s x { x with world := w, shutdowns } := by
  have hcontexts : w.contexts.size = x.world.contexts.size := by
    rcases Errand.step_cases hstep with ⟨h,command,rfl⟩ | ⟨n,rfl⟩ | ⟨p,rfl⟩ | rfl <;> rfl
  exact hx.othersStep hs hs hcontexts.ge (fun c _ _ => World.keepsHook_errand hstep) fun h _ =>
    ⟨World.respects_errand h x.shares hstep,(World.target_errand h hstep).1,World.tracks_errand hstep⟩

theorem Sound.othersStep_share (hx : Sound x) (hs : x.spawns[i]? = some s)
    (hshare : 0 < x.shares h) :
    OthersStep i s x
      { x with world := x.world.own h, shares := Function.update x.shares h (x.shares h + 1) } := by
  have hrange : h < x.world.handles.size := not_le.mp fun hout => hshare.ne' (hx.unshared h hout)
  refine hx.othersStep hs hs le_rfl (fun c _ _ => World.keepsHook_setHandle x.world h _) fun k _ =>
    ⟨World.respects_own k h hrange hshare,?_,.of_pools rfl⟩
  change ((x.world.own h).handle k).target = _
  unfold World.own
  rw [World.handle_setHandle]
  split
  · rename_i hk
    rw [hk.1]
  · rfl

/-- A share that is given up was handed out, so it belongs to the worker of another start, or is not
the last. -/
theorem Sound.othersStep_unshare (hx : Sound x) (hshared : Shared x) (hs : x.spawns[i]? = some s)
    (hheld : ∀ h, s.stage.handle? = some h → x.shares h < (x.world.handle h).owners)
    (hshare : 0 < x.shares h) :
    OthersStep i s x
      { x with world := x.world.disown h, shares := Function.update x.shares h (x.shares h - 1) } :=
        by
  have hrange : h < x.world.handles.size := not_le.mp fun hout => hshare.ne' (hx.unshared h hout)
  have hwithin := World.within_disown x.world h
  refine hx.othersStep hs hs hwithin.contexts.ge (fun c _ hhome => ?_) fun k _ =>
    ⟨World.respects_disown k hrange hshare,World.target_disown x.world h k,.of_pools hwithin.pools⟩
  obtain ⟨j,t,worker,ht,hstage,rfl⟩ := hshared h hshare
  have hh : t.stage.handle? = some worker.handle := by rw [hstage]; rfl
  by_cases hij : j = i
  · subst hij
    obtain rfl := Option.some.inj (hs.symm.trans ht)
    have howners := hheld _ hh
    rw [World.disown_of_lt (Nat.lt_of_le_of_lt hshare howners)]
    exact World.keepsHook_setHandle x.world worker.handle _
  · exact World.keepsHook_disown fun hc => hij (hhome j (Fits.unused (hx.fits j t ht) hh hc))

/-- A step is one of the start, or the start is not involved. -/
theorem SparingStep.cases (hsparing : SparingStep lib i x y) (hx : Sound x) (hshared : Shared x)
    (hs : x.spawns[i]? = some s) (hr : s.Readied x.world x.shares) :
    Own lib i s x y ∨ y.spawns[i]? = some s ∧ (s.stage.IsLive → OthersStep i s x y) := by
  have hheld := fun hlive h => hx.held (h := h) hs hr hlive
  obtain ⟨hstep,_,hothers⟩ := hsparing
  cases hstep with
  | call l arguments hpool =>
    have hstays : (x.spawns ++ [⟨l,.entering arguments⟩])[i]? = some s :=
      (List.getElem?_append_left (List.getElem?_eq_some_iff.mp hs).1).trans hs
    exact .inr ⟨hstays,fun _ => hx.othersStep_still hs hstays rfl rfl rfl rfl fun _ _ => id⟩
  | @spawn j t stage w ht hstep =>
    by_cases hij : j = i
    · subst hij
      obtain rfl := Option.some.inj (hs.symm.trans ht)
      exact .inl (.spawn hstep)
    · exact .inr ⟨restage_of_ne hij hs,fun hlive =>
        hx.othersStep_spawn hs hij ht (fun h hh => Nat.zero_lt_of_lt (hheld hlive h hh)) hstep⟩
  | @fail j t h adopted reason ht hstage =>
    by_cases hij : j = i
    · subst hij
      obtain rfl := Option.some.inj (hs.symm.trans ht)
      exact .inl (.fail reason hstage)
    · have hstays : (x.restage j t (.unhooking h (.notStarted reason))).spawns[i]? = some s :=
        restage_of_ne hij hs
      exact .inr ⟨hstays,fun _ => hx.othersStep_still hs hstays rfl rfl rfl rfl fun _ _ =>
        World.tracks_setPool rfl⟩
  | @work j t worker worker' w ht hworker hstep =>
    by_cases hij : j = i
    · subst hij
      obtain rfl := Option.some.inj (hs.symm.trans ht)
      exact .inl (.work hworker hstep)
    · exact .inr ⟨restage_of_ne hij hs,fun _ => hx.othersStep_work hs hij ht hworker hstep⟩
  | shut p hpool => exact .inr ⟨hs,fun _ => hx.othersStep_still hs hs rfl rfl rfl rfl fun _ _ => id⟩
  | order he hstep => exact .inr ⟨hs,fun _ => hx.othersStep_errand hs hstep _⟩
  | errand hstep => exact .inr ⟨hs,fun _ => hx.othersStep_errand hs hstep _⟩
  | guard p hpool | unguard p hguard =>
    exact .inr ⟨hs,fun _ => hx.othersStep_still hs hs rfl rfl rfl rfl fun _ _ =>
      World.tracks_setPool rfl⟩
  | share h hshare => exact .inr ⟨hs,fun _ => hx.othersStep_share hs hshare⟩
  | unshare h hshare =>
    exact .inr ⟨hs,fun hlive => hx.othersStep_unshare hshared hs (hheld hlive) hshare⟩
  | @other w hstarts =>
    by_cases hown : Own lib i s x { x with world := w }
    · exact .inl hown
    have hstart := hothers (fun t ht => Option.some.inj (hs.symm.trans ht) ▸ hown) w hstarts rfl
    refine .inr ⟨hs,fun _ => ⟨hstart,hs,hstarts.contexts,fun h hh => ?_,fun h hh => ?_⟩⟩
    · have hhandle := hstarts.handle i s h hs hh
      exact .of_steady ⟨hstarts.handles,
        by rw [hhandle],fun c hc => hhandle ▸ hc,hstarts.contexts,hstarts.stopping⟩
        (.of_eq hhandle) rfl
    · exact congrArg WorkerHandle.target (hstarts.handle i s h hs hh)

/-- What the start is not involved in does not disturb its worker. -/
theorem OthersStep.sleepUntouched (ha : OthersStep i s x y) (hx : Sound x)
    (hs : x.spawns[i]? = some s) (hworker : s.stage.worker? = some worker)
    (hinterruptible : WorkerState.Interruptible ⟨x.world,worker⟩) :
    WorkerState.SleepUntouched ⟨x.world,worker⟩ y.world := by
  have hh := Spawning.handle?_worker hworker
  have hsettled := Fits.settled (hx.fits i s hs) hworker
  refine ⟨ha.target _ hh,fun c hc => (ha.respects _ hh).unused hc,fun c howns => ha.hook c ?_,
    ha.notifiers,
    fun n hn => ha.notified _ ⟨x.world,worker⟩ n ⟨rfl,s,hs,rfl,hworker⟩
    (hinterruptible.sleepsPastFlag hn)⟩
  rcases howns with ⟨_,hcontext⟩ | ⟨t,hstage⟩
  · exact hsettled.unused c hcontext
  · refine hsettled.used c ?_
    simp only at hstage
    rw [Worker.context?, hstage]

theorem OthersStep.readied (ha : OthersStep i s x y) (hx : Sound x) (hs : x.spawns[i]? = some s)
    (hr : s.Readied x.world x.shares) : s.Readied y.world y.shares := by
  have hfits := hx.fits i s hs
  have hback : ∀ {h c}, s.stage.handle? = some h → (y.world.handle h).context = some c →
      (x.world.handle h).context = some c ∧ (y.world.context c).hook = (x.world.context c).hook := by
    intro h c hh hc
    have hc' := (ha.respects h hh).unused hc
    exact ⟨hc',ha.hook c (Fits.unused hfits hh hc')⟩
  have huntouched : ∀ worker, s.stage.worker? = some worker →
    WorkerState.Interruptible ⟨x.world,worker⟩ →
      WorkerState.SleepUntouched ⟨x.world,worker⟩ y.world := fun _ => ha.sleepUntouched hx hs
  have hrespects := ha.respects
  have htracks := fun h => ha.tracked s h hs
  obtain ⟨l,stage⟩ := s
  cases stage with
  | adopting h | configuring h =>
    intro c hc
    obtain ⟨hc',hhook⟩ := hback rfl hc
    obtain ⟨hin,hnone⟩ := hr c hc'
    exact ⟨hin.trans_le ha.contexts,hhook.trans hnone⟩
  | launching h =>
    intro c hc
    obtain ⟨hc',hhook⟩ := hback rfl hc
    exact hhook.trans (hr c hc')
  | tracking worker =>
    obtain ⟨hinterruptible,howners⟩ := hr
    exact ⟨hinterruptible.sleepUntouched (huntouched worker rfl hinterruptible),
      fun hon => (howners hon).trans_le ((hrespects _ rfl).alone hfits.2.1).2⟩
  | started worker =>
    obtain ⟨hinterruptible,hon⟩ := hr
    exact ⟨hinterruptible.sleepUntouched (huntouched worker rfl hinterruptible),
      fun hlive => ⟨(hrespects _ rfl).held (hon hlive).1,htracks _ rfl (hon hlive).2⟩⟩
  | entering | checking | preparing | discarding | unhooking | releasing | refused => trivial

/-- A configured context reports to the handle. -/
theorem readied_configure {l : Launcher} {adopted : List Stored}
    (hr : Spawn.Readied (U := U) (N := N) w x.shares ⟨l,.configuring h adopted⟩) :
    ∀ c, ((w.configure h l.config).handle h).context = some c →
      ((w.configure h l.config).context c).hook = some (.worker h) := by
  intro c hc
  have hcontext := (World.keepsControl_configure w h l.config).context c hc
  obtain ⟨hin,hnone⟩ := hr c hcontext
  exact World.hook_configure hcontext hin hnone l.config

theorem Sound.readied_spawn (hx : Sound x) (hs : x.spawns[i]? = some s) (hr : s.Readied x.world x.shares)
    (hstep : s.stage.step s.launcher x.world = .ran stage w) :
    Spawn.Readied w (stage.handOut x.shares) { s with stage } := by
  have hfits := hx.fits i s hs
  have hrange := hx.range i s
  obtain ⟨l,old⟩ := s
  have ht : Spawning.Transition l x.world old stage w := Spawning.transition_of_step hstep
  cases ht with
  | enters | turnsAway | passes | rejects | discards | unhooks | releases => trivial
  | prepares arguments =>
    intro c hc
    have hself := World.handle_addHandle_self x.world l.pool
    obtain rfl := Option.some.inj ((congrArg WorkerHandle.context hself).symm.trans hc)
    exact ⟨(World.size_addHandle x.world l.pool).2.2 ▸ Nat.lt_succ_self _,
      World.hook_addHandle x.world l.pool⟩
  | adopted => exact hr
  | @adopts h object _ _ moved rest hadopt =>
    have hwithin := World.within_adopt x.world h object
    have hleaves := fun c => World.keepsHook_adopt (c := c) x.world h object
    rw [hadopt] at hwithin hleaves
    intro c hc
    obtain ⟨hin,hnone⟩ := hr c (hwithin.context c hc)
    exact ⟨hwithin.contexts ▸ hin,(hleaves c).hook.trans hnone⟩
  | configures => exact readied_configure hr
  | launches h moved =>
    have hcontext := World.keepsControl_own (h := h) x.world h
    have howners : ((x.world.own h).handle h).owners = (x.world.handle h).owners + 1 :=
      congrArg WorkerHandle.owners (World.handle_setHandle_self hfits.1.sound.range _)
    refine ⟨⟨fun c hc => ?_,fun _ _ hstage => by cases hstage⟩,fun _ => ?_⟩
    · rcases hc with ⟨_,hc⟩ | ⟨_,hstage⟩
      · exact hr c (hcontext.context c hc)
      · cases hstage
    · exact howners ▸ Nat.succ_lt_succ (hfits.1.owners rfl)
  | tracks worker =>
    obtain ⟨hinterruptible,howners⟩ := hr
    have hpool := hx.pool i _ hs
    refine ⟨⟨hinterruptible.hook,fun c t ht => (hinterruptible.runsPlain c t ht).keep rfl le_rfl⟩,
      fun hlive => ⟨?_,?_⟩⟩
    · have hshares : Spawning.handOut x.shares (.started worker) worker.handle = 1 := by
        rw [Spawning.handOut, Function.update_self, hfits.2.1]
      exact hshares ▸ howners hlive
    · change worker.handle ∈ ((x.world.track l.pool worker.handle).pool l.pool).tracked
      rw [World.track, World.pool_setPool, if_pos ⟨rfl,hpool⟩]
      exact List.mem_append_right _ (List.mem_singleton_self _)

theorem Sound.readied_work (hx : Sound x) (hlib : lib.Plain) (hs : x.spawns[i]? = some s)
    (hr : s.Readied x.world x.shares) (hworker : s.stage.worker? = some worker)
    (hkeeps : WorkerState.destroys ⟨x.world,worker⟩ = false)
    (hstep : worker.step lib x.world = .ran worker' w) :
    Spawn.Readied w x.shares { s with stage := s.stage.withWorker worker' } := by
  have hsettled := Fits.settled (hx.fits i s hs) hworker
  obtain ⟨_,hstays⟩ := hx.settled_step hs hworker hstep
  have hworks : WorkerState.Works lib ⟨x.world,worker⟩ ⟨w,worker'⟩ := hstep
  have hinterruptible : WorkerState.Interruptible ⟨x.world,worker⟩ →
      WorkerState.Interruptible ⟨w,worker'⟩ :=
    fun hp => (hp.works hlib hsettled.sound hkeeps hworks).1
  have howners := fun hlive => Worker.owners_step hkeeps hstep hlive
  have hbefore : ¬ worker'.stage.Past → ¬ worker.stage.Past := fun hlive hpast => by
    rcases Worker.step_cases hstep with ⟨_,_,_,hstage,_⟩ | ⟨_,_,_,_,hstage,_⟩ | hpast'
    · rwa [hstage] at hpast
    · rwa [hstage] at hpast
    · exact hlive hpast'
  obtain ⟨l,old⟩ := s
  rcases Spawning.of_worker? hworker with rfl | rfl
  · refine ⟨hinterruptible hr.1,fun hlive => ?_⟩
    rw [hstays.handle, howners hlive]
    exact hr.2 (hbefore hlive)
  · refine ⟨hinterruptible hr.1,fun hlive => ?_⟩
    obtain ⟨hshares,htracked⟩ := hr.2 (hbefore hlive)
    rw [hstays.handle, howners hlive]
    exact ⟨hshares,hstays.tracks htracked⟩

structure SparedStart (i : Nat) (x : PoolState U N) : Prop where
  invariant : Invariant x
  shared : Shared x
  readied : ∀ s, x.spawns[i]? = some s → s.Readied x.world x.shares

theorem SparingStep.sparedStart (hsparing : SparingStep lib i x y) (hlib : lib.Plain)
    (hx : SparedStart i x) : SparedStart i y := by
  refine ⟨hsparing.step.invariant hx.invariant,hsparing.step.shared hx.shared,fun s' hs' => ?_⟩
  have hsound := hx.invariant.sound
  cases hs : x.spawns[i]? with
  | none =>
    obtain ⟨arguments,hstage⟩ := hsparing.step.new hs' hs
    obtain ⟨l,stage⟩ := s'
    obtain rfl : stage = _ := hstage
    trivial
  | some s =>
    have hr := hx.readied s hs
    rcases hsparing.cases hsound hx.shared hs hr with hown | ⟨hstays,hbeside⟩
    · cases hown with
      | spawn hstep =>
        obtain rfl := Option.some.inj ((restage_spawn hs).symm.trans hs')
        exact hsound.readied_spawn hs hr hstep
      | fail reason hstage =>
        obtain rfl := Option.some.inj ((restage_spawn hs).symm.trans hs')
        trivial
      | @work worker worker' w hworker hstep =>
        obtain rfl := Option.some.inj ((restage_spawn hs).symm.trans hs')
        have hkeeps := hsparing.keeps _ ⟨x.world,worker⟩ ⟨rfl,s,hs,rfl,hworker⟩
        exact hsound.readied_work hlib hs hr hworker hkeeps hstep
    · obtain rfl := Option.some.inj (hstays.symm.trans hs')
      by_cases hlive : s.stage.IsLive
      · exact (hbeside hlive).readied hsound hs hr
      · exact readied_of_not_live hlive

end PoolState

end Workers
