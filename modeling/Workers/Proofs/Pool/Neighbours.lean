import Workers.Proofs.Control.Finality
import Workers.Proofs.Pool.Spawning
/-! # What a step leaves to other workers

A step of somebody else may put a command to a worker and may give up a share in its handle, if the
share is not the worker's own.  It leaves the status, the pool and the unused context.
-/
namespace Workers.World

variable {h i : WorkerId} {w w' w'' : World} {shares shares' : WorkerId → Nat}

structure Steady (h : WorkerId) (w w' : World) : Prop where
  pool : (w'.handle h).pool = (w.handle h).pool
  context : (w'.handle h).context = (w.handle h).context
  owners : (w.handle h).owners ≤ (w'.handle h).owners

theorem Steady.refl (h : WorkerId) (w : World) : Steady h w w := ⟨rfl,rfl,Nat.le_refl _⟩

theorem Steady.trans (hs : Steady h w w') (hs' : Steady h w' w'') : Steady h w w'' :=
  ⟨hs'.pool.trans hs.pool,hs'.context.trans hs.context,Nat.le_trans hs.owners hs'.owners⟩

theorem Steady.of_eq (hhandle : w'.handle h = w.handle h) : Steady h w w' := by
  constructor <;> rw [hhandle]

theorem Within.steady (hw : Within i w w') (hi : h ≠ i) : Steady h w w' := .of_eq (hw.handle h hi)

theorem steady_setHandle (w : World) (i : WorkerId) (handle : WorkerHandle)
    (hpool : handle.pool = (w.handle i).pool) (hcontext : handle.context = (w.handle i).context)
    (howners : (w.handle i).owners ≤ handle.owners) :
    Steady h w (w.setHandle i handle) := by
  have hhandle := handle_setHandle w i h handle
  split at hhandle
  · rename_i hi
    obtain ⟨rfl,_⟩ := hi
    constructor <;> rw [hhandle]
    · exact hpool
    · exact hcontext
    · exact howners
  · exact .of_eq hhandle

theorem steady_setStore (w : World) (s : Store) : Steady h w (w.setStore s) := .of_eq rfl

theorem steady_setContext (w : World) (c : ContextId) (context : Context) :
    Steady h w (w.setContext c context) :=
  .of_eq rfl

theorem steady_own (w : World) (i : WorkerId) : Steady h w (w.own i) :=
  steady_setHandle w i _ rfl rfl (Nat.le_succ _)

theorem steady_adopt (w : World) (i : WorkerId) (object : Stored) : Steady h w (w.adopt i object).2 := by
  rcases adopt_writes w i object with ⟨s,heq⟩ | ⟨s,references,heq⟩
  · rw [heq]
    exact steady_setStore w s
  · rw [heq]
    have hset : Steady h w (w.setHandle i { w.handle i with references }) :=
      steady_setHandle w i _ rfl rfl le_rfl
    exact hset.trans (steady_setStore _ s)

theorem disown_of_lt (howners : 1 < (w.handle h).owners) :
    w.disown h = w.setHandle h { w.handle h with owners := (w.handle h).owners - 1 } :=
  if_neg (Nat.not_le.mpr howners)

/-- A hook that is set again keeps the worker that it kept before. -/
theorem steady_setHook {c : ContextId} (hh : h < w.handles.size) (howners : 0 < (w.handle h).owners)
    (hserves : w.Serves c h) (n : UInt32) : Steady h w (w.setHook c (.worker h) n) := by
  have hset : Steady h w ((w.own h).setContext c (((w.own h).context c).setHook (.worker h) n)) :=
    (steady_own w h).trans (steady_setContext _ c _)
  generalize hu : (w.own h).setContext c (((w.own h).context c).setHook (.worker h) n) = u at hset
  have hkept : u.handle h = { w.handle h with owners := (w.handle h).owners + 1 } := by
    rw [← hu]
    exact handle_setHandle_self hh _
  have hsize : h < u.handles.size := by
    rw [← hu]
    exact (size_setHandle w h _).symm ▸ hh
  have hsetHook : w.setHook c (.worker h) n = u.dropHook (w.context c).hook := by
    rw [← hu]
    rfl
  rw [hsetHook]
  cases hhook : (w.context c).hook with
  | none => exact hset
  | some k =>
    obtain rfl := hserves k hhook
    have htwo : 1 < (u.handle h).owners := by
      rw [hkept]
      exact Nat.succ_lt_succ howners
    have hafter : (u.disown h).handle h = { u.handle h with owners := (u.handle h).owners - 1 } := by
      rw [disown_of_lt htwo]
      exact handle_setHandle_self hsize _
    change Steady h w (u.disown h)
    constructor <;> rw [hafter, hkept]
    exact Nat.le_refl _

theorem steady_configure (hh : h < w.handles.size) (howners : 0 < (w.handle h).owners)
    (hserves : ∀ c, (w.handle h).context = some c → w.Serves c h) (config : Config) :
    Steady h w (w.configure h config) := by
  unfold configure
  cases hcontext : (w.handle h).context with
  | none => exact .refl h w
  | some c =>
    have hpaths := steady_setContext
      (h := h) w c { w.context c with path := config.path, cpath := config.cpath }
    have hserves' :
        (w.setContext c { w.context c with path := config.path, cpath := config.cpath }).Serves c
        h := by
      intro k hk
      rw [context_setContext] at hk
      split at hk <;> exact hserves c hcontext k hk
    have hset := steady_setHook
      (w := w.setContext c { w.context c with path := config.path, cpath := config.cpath })
      hh howners hserves' config.step
    have hhook := hpaths.trans hset
    simp only
    split
    · exact hhook.trans (steady_setContext _ c _)
    · exact hhook

structure Respects (h : WorkerId) (w : World) (shares : WorkerId → Nat) (w' : World)
    (shares' : WorkerId → Nat) :
    Prop where
  control : w.KeepsControl h w' ∨ ∃ command, w' = w.putCommand h command
  pool : (w'.handle h).pool = (w.handle h).pool
  context : shares h < (w.handle h).owners → (w'.handle h).context = (w.handle h).context
  held : shares h < (w.handle h).owners → shares' h < (w'.handle h).owners
  alone : shares h = 0 → shares' h = 0 ∧ (w.handle h).owners ≤ (w'.handle h).owners

theorem Respects.of_steady (hcontrol : w.KeepsControl h w') (hsteady : Steady h w w')
    (hshares : shares' h = shares h) :
    Respects h w shares w' shares' where
  control := .inl hcontrol
  pool := hsteady.pool
  context _ := hsteady.context
  held hheld := hshares ▸ Nat.lt_of_lt_of_le hheld hsteady.owners
  alone halone := ⟨hshares.trans halone,hsteady.owners⟩

theorem Respects.status (hr : Respects h w shares w' shares') : w'.status h = w.status h := by
  rcases hr.control with hcontrol | ⟨command,rfl⟩
  · exact congrArg Control.status hcontrol.control
  · have hhandle :=
      handle_setHandle w h h { w.handle h with control := (w.handle h).control.putCommand command }
    split at hhandle
    · exact (congrArg (fun handle => handle.control.status) hhandle).trans
        (Control.status_putCommand _ command)
    · exact congrArg (fun handle => handle.control.status) hhandle

theorem Respects.unused (hr : Respects h w shares w' shares') {c : ContextId}
    (hc : (w'.handle h).context = some c) : (w.handle h).context = some c := by
  rcases hr.control with hcontrol | ⟨command,rfl⟩
  · exact hcontrol.context c hc
  · have hsteady : Steady h w (w.putCommand h command) := steady_setHandle w h _ rfl rfl (Nat.le_refl _)
    exact hsteady.context.symm.trans hc

theorem Respects.sound {U N : Type} {worker : Worker (Frame U N)}
    (hr : Respects worker.handle w shares w' shares') (hw : WorkerState.Sound ⟨w,worker⟩) :
    WorkerState.Sound ⟨w',worker⟩ := by
  rcases hr.control with hcontrol | ⟨command,rfl⟩
  · exact hw.keepsControl hcontrol
  · exact hw.put command

theorem respects_errand {e e' : Errand} (h : WorkerId) (shares : WorkerId → Nat)
    (hstep : e.step w = .ran e' w') :
    Respects h w shares w' shares := by
  rcases Errand.step_cases hstep with ⟨i,command,rfl⟩ | ⟨n,rfl⟩ | ⟨p,rfl⟩ | rfl
  · have hsteady : Steady h w (w.putCommand i command) := steady_setHandle w i _ rfl rfl (Nat.le_refl _)
    refine ⟨?_,hsteady.pool,fun _ => hsteady.context,fun hheld =>
      Nat.lt_of_lt_of_le hheld hsteady.owners,
      fun halone => ⟨halone,hsteady.owners⟩⟩
    by_cases hi : i = h
    · subst hi
      exact .inr ⟨command,rfl⟩
    · exact .inl (keepsControl_setHandle w i _ (fun hi' => absurd hi' hi) fun hi' => absurd hi' hi)
  · exact .of_steady (.of_eq rfl rfl) (.of_eq rfl) rfl
  · exact .of_steady (.of_eq rfl rfl) (.of_eq rfl) rfl
  · exact .of_steady (.refl h _) (.refl h _) rfl

/-- A share that others hold is given up.  It is not the last one as long as the worker has its own. -/
theorem respects_disown (h : WorkerId) {i : WorkerId} (hi : i < w.handles.size) (hshare : 0 < shares i) :
    Respects h w shares (w.disown i) (Function.update shares i (shares i - 1)) := by
  by_cases hhi : h = i
  · subst hhi
    have htaken : Function.update shares h (shares h - 1) h = shares h - 1 := Function.update_self ..
    have hafter : shares h < (w.handle h).owners →
        (w.disown h).handle h = { w.handle h with owners := (w.handle h).owners - 1 } := by
      intro hheld
      rw [disown_of_lt (Nat.lt_of_le_of_lt hshare hheld)]
      exact handle_setHandle_self hi _
    refine ⟨.inl (keepsControl_disown w h),(within_disown w h).pool,fun hheld => ?_,fun hheld => ?_,
      fun halone => ?_⟩
    · rw [hafter hheld]
    · rw [hafter hheld, htaken]
      exact Nat.sub_lt_sub_right hshare hheld
    · omega
  · exact .of_steady (keepsControl_disown w i) ((within_disown w i).steady hhi)
      (Function.update_of_ne hhi ..)

theorem respects_own (h i : WorkerId) (hi : i < w.handles.size) (hshare : 0 < shares i) :
    Respects h w shares (w.own i) (Function.update shares i (shares i + 1)) := by
  by_cases hhi : h = i
  · subst hhi
    have hafter : (w.own h).handle h = { w.handle h with owners := (w.handle h).owners + 1 } :=
      handle_setHandle_self hi _
    refine ⟨.inl (keepsControl_own w h),(within_own w h).pool,fun _ => ?_,fun hheld => ?_,
      fun halone => ?_⟩
    · rw [hafter]
    · rw [hafter, Function.update_self]
      exact Nat.succ_lt_succ hheld
    · omega
  · exact .of_steady (keepsControl_own w i) ((within_own w i).steady hhi) (Function.update_of_ne hhi ..)

/-- A step that touches at most one of the handles that there are, and hooks nothing but the unused
context of that handle. -/
structure Around (own : Option WorkerId) (w w' : World) : Prop where
  handles : w.handles.size ≤ w'.handles.size
  contexts : w.contexts.size ≤ w'.contexts.size
  pools : w.pools.size ≤ w'.pools.size
  keepsControl : ∀ h, h < w.handles.size → own ≠ some h → w.KeepsControl h w'
  handle : ∀ h, h < w.handles.size → own ≠ some h → w'.handle h = w.handle h
  hook : ∀ c k, (w'.context c).hook = some k →
    (w.context c).hook = some k ∨ ∃ h, own = some h ∧ (w.handle h).context = some c ∧ k = .worker h

theorem Around.steady {own : Option WorkerId} (ha : Around own w w') (h : WorkerId)
    (hh : h < w.handles.size) (hown : own ≠ some h) : Steady h w w' := .of_eq (ha.handle h hh hown)

theorem around_of_eq {own : Option WorkerId} (hhandles : w'.handles = w.handles)
    (hcontexts : w'.contexts = w.contexts) (hpools : w.pools.size ≤ w'.pools.size) :
    Around own w w' := by
  have hhandle : ∀ h, w'.handle h = w.handle h := fun h => by rw [World.handle, hhandles]; rfl
  have hcontext : ∀ c, w'.context c = w.context c := fun c => by rw [World.context, hcontexts]; rfl
  refine ⟨by rw [hhandles],by rw [hcontexts],hpools,fun h _ _ => .of_eq hhandles hcontexts,
    fun h _ _ => hhandle h,fun c k hk => .inl ?_⟩
  rwa [← hcontext]

theorem Within.around (hw : Within i w w') (hcontrol : ∀ h, h ≠ i → w.KeepsControl h w') :
    Around (some i) w w' where
  handles := hw.handles.ge
  contexts := hw.contexts.ge
  pools := by rw [hw.pools]
  keepsControl h _ hh := hcontrol h fun hhi => hh (congrArg some hhi.symm)
  handle h _ hh := hw.handle h fun hhi => hh (congrArg some hhi.symm)
  hook c k hk := .inl (hw.hook c k hk)

/-- Taking up room in front of a step that stays within a handle. -/
theorem Around.after {own : Option WorkerId} {u : World} (ha : Around own u w')
    (hhandles : u.handles = w.handles) (hcontexts : u.contexts = w.contexts)
    (hpools : u.pools.size = w.pools.size) : Around own w w' := by
  have hhandle : ∀ h, u.handle h = w.handle h := fun h => by rw [World.handle, hhandles]; rfl
  have hcontext : ∀ c, u.context c = w.context c := fun c => by rw [World.context, hcontexts]; rfl
  have hcontrol : ∀ h, KeepsControl h w u := fun h => .of_eq hhandles hcontexts
  refine ⟨hhandles ▸ ha.handles,hcontexts ▸ ha.contexts,hpools ▸ ha.pools,fun h hh hown => ?_,
    fun h hh hown => ?_,
    fun c k hk => ?_⟩
  · exact (hcontrol h).trans (ha.keepsControl h (hhandles ▸ hh) hown)
  · exact (ha.handle h (hhandles ▸ hh) hown).trans (hhandle h)
  · simpa only [hhandle, hcontext] using ha.hook c k hk

theorem Around.then {u : World} (ha : Around (some i) w u) (hw : Within i u w')
    (hcontrol : ∀ h, h ≠ i → u.KeepsControl h w') : Around (some i) w w' where
  handles := ha.handles.trans hw.handles.ge
  contexts := ha.contexts.trans hw.contexts.ge
  pools := hw.pools ▸ ha.pools
  keepsControl h hh hown :=
    (ha.keepsControl h hh hown).trans (hcontrol h fun hhi => hown (congrArg some hhi.symm))
  handle h hh hown := (hw.handle h fun hhi => hown (congrArg some hhi.symm)).trans (ha.handle h hh hown)
  hook c k hk := ha.hook c k (hw.hook c k hk)

theorem around_configure (hserves : ∀ c, (w.handle i).context = some c → w.Serves c i)
    (config : Config) :
    Around (some i) w (w.configure i config) := by
  unfold configure
  cases hcontext : (w.handle i).context with
  | none => exact around_of_eq rfl rfl (Nat.le_refl _)
  | some c =>
    have hpaths := within_setContext
      (h := i) w c { w.context c with path := config.path, cpath := config.cpath }
      fun _ hk => hk
    have hcontrol : ∀ h, w.KeepsControl h
        (w.setContext c { w.context c with path := config.path, cpath := config.cpath }) :=
      fun h => keepsControl_setContext w c _ fun hstop => hstop
    have hserves' := hpaths.serves (hserves c hcontext)
    dsimp only
    generalize w.setContext c { w.context c with path := config.path, cpath := config.cpath } = u at *
    have hown := hpaths.trans (within_own u i)
    have hset : Around (some i) w
        ((u.own i).setContext c (((u.own i).context c).setHook (.worker i) config.step)) := by
      have hpools : w.pools.size ≤ (u.own i).pools.size := hown.pools ▸ Nat.le_refl _
      refine ⟨hown.handles.ge,(size_setContext _ c _).symm ▸ hown.contexts.ge,hpools,fun h _ _ => ?_,
        fun h _ hi => ?_,fun d k hk => ?_⟩
      · exact ((hcontrol h).trans (keepsControl_own u i)).trans
          (keepsControl_setContext _ c _ fun hstop => hstop)
      · exact hown.handle h fun hhi => hi (congrArg some hhi.symm)
      · rw [context_setContext] at hk
        split at hk
        · rename_i hcd
          obtain ⟨rfl,_⟩ := hcd
          exact .inr ⟨i,rfl,hcontext,(Option.some.inj hk).symm⟩
        · exact .inl (hown.hook d k hk)
    have hhooked : Around (some i) w (u.setHook c (.worker i) config.step) :=
      hset.then (within_dropHook _ hserves') fun h _ => keepsControl_dropHook _ _
    split
    · exact hhooked.then (within_setContext _ c _ fun _ hk => hk) fun h _ =>
        keepsControl_setContext _ c _ fun hstop => hstop
    · exact hhooked

theorem around_addHandle (w : World) (p : PoolId) : Around none w (w.addHandle p).2 := by
  have ⟨_,hhandles,hcontexts⟩ := size_addHandle w p
  have hold : ∀ c < w.contexts.size, (w.addHandle p).2.context c = w.context c :=
    fun c hc => context_addHandle w p hc.ne
  refine ⟨hhandles ▸ Nat.le_succ _,hcontexts ▸ Nat.le_succ _,Nat.le_refl _,fun h hh _ => ?_,
    fun h hh _ => handle_addHandle w p hh,fun c k hk => .inl ?_⟩
  · refine ⟨hhandles ▸ Nat.le_succ _,?_,?_,hcontexts ▸ Nat.le_succ _,fun c hc hstop => ?_⟩
    · rw [handle_addHandle w p hh]
    · rw [handle_addHandle w p hh]
      exact fun _ hc => hc
    · rwa [hold c hc]
  · by_cases hc : c = w.contexts.size
    · rw [hc, hook_addHandle] at hk
      cases hk
    · rwa [context_addHandle w p hc] at hk

end Workers.World
