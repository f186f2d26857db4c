import Workers.Proofs.Control.Strand
/-! # What a worker keeps to itself

Running code writes to the handle of its own worker only, takes hooks away but never sets one, and
has nothing to do with the pools.  All of it rests on its context reporting to nobody but the worker.
-/
namespace Workers

namespace Context

variable {c c' : Context} {s s' : Store}

theorem hook_load {object : Stored} {v : Value} {s' : Store} (hl : c.load s object = .ok (v,c',s')) :
    c'.hook = c.hook := by
  rw [World.load_record hl]

theorem hook_get (c : Context) (m : Memory) (table key : Value) :
    (c.get m table key).2.1.hook = c.hook := by
  rw [World.get_record]

theorem hook_destroy {k : Hook} (hk : (c.destroy s).1.hook = some k) : c.hook = some k := by
  unfold destroy at hk
  split at hk
  · exact hk
  · cases hk

theorem hook_observe (c : Context) (stopped : Bool) : (c.observe stopped).hook = c.hook := by
  unfold observe
  split <;> rfl

end Context

namespace World

variable {h : WorkerId} {w w' w'' : World}

structure Within (h : WorkerId) (w w' : World) : Prop where
  pools : w'.pools = w.pools
  handles : w'.handles.size = w.handles.size
  handle : ∀ i, i ≠ h → w'.handle i = w.handle i
  pool : (w'.handle h).pool = (w.handle h).pool
  context : ∀ c, (w'.handle h).context = some c → (w.handle h).context = some c
  contexts : w'.contexts.size = w.contexts.size
  hook : ∀ c k, (w'.context c).hook = some k → (w.context c).hook = some k

def Serves (w : World) (c : ContextId) (h : WorkerId) : Prop :=
  ∀ k, (w.context c).hook = some k → k = .worker h

theorem Within.refl (h : WorkerId) (w : World) : Within h w w :=
  ⟨rfl,rfl,fun _ _ => rfl,rfl,fun _ hc => hc,rfl,fun _ _ hk => hk⟩

theorem Within.trans (hw : Within h w w') (hw' : Within h w' w'') : Within h w w'' where
  pools := hw'.pools.trans hw.pools
  handles := hw'.handles.trans hw.handles
  handle i hi := (hw'.handle i hi).trans (hw.handle i hi)
  pool := hw'.pool.trans hw.pool
  context c hc := hw.context c (hw'.context c hc)
  contexts := hw'.contexts.trans hw.contexts
  hook c k hk := hw.hook c k (hw'.hook c k hk)

theorem Within.serves {c : ContextId} {i : WorkerId} (hw : Within h w w') (hserves : w.Serves c i) :
    w'.Serves c i :=
  fun k hk => hserves k (hw.hook c k hk)

theorem Within.of_eq (hpools : w'.pools = w.pools) (hhandles : w'.handles = w.handles)
    (hcontexts : w'.contexts = w.contexts) : Within h w w' := by
  have hhandle : ∀ i, w'.handle i = w.handle i := fun i => by rw [World.handle, hhandles]; rfl
  have hcontext : ∀ c, w'.context c = w.context c := fun c => by rw [World.context, hcontexts]; rfl
  refine ⟨hpools,
    by rw [hhandles],fun i _ => hhandle i,by rw [hhandle],fun c hc => hhandle h ▸ hc,by
    rw [hcontexts],
    fun c k hk => ?_⟩
  rwa [← hcontext]

theorem within_setStore (w : World) (s : Store) : Within h w (w.setStore s) := .of_eq rfl rfl rfl

theorem within_setContext (w : World) (c : ContextId) (context : Context)
    (hhook : ∀ k, context.hook = some k → (w.context c).hook = some k) :
    Within h w (w.setContext c context) := by
  refine ⟨rfl,rfl,fun _ _ => rfl,rfl,fun _ hd => hd,size_setContext w c context,fun d k hk => ?_⟩
  rw [context_setContext] at hk
  split at hk
  · rename_i hcd
    obtain ⟨rfl,_⟩ := hcd
    exact hhook k hk
  · exact hk

theorem within_setHandle (w : World) (handle : WorkerHandle)
    (hpool : handle.pool = (w.handle h).pool)
    (hcontext : ∀ c, handle.context = some c → (w.handle h).context = some c) :
    Within h w (w.setHandle h handle) := by
  refine ⟨rfl,size_setHandle w h handle,fun i hi => ?_,?_,fun c hc => ?_,rfl,fun _ _ hk => hk⟩
  · rw [handle_setHandle, if_neg fun hih => hi hih.1.symm]
  · rw [handle_setHandle]
    split
    · exact hpool
    · rfl
  · rw [handle_setHandle] at hc
    split at hc
    · exact hcontext c hc
    · exact hc

theorem within_destroyUnhooked (w : World) (c : ContextId) : Within h w (w.destroyUnhooked c) :=
  (within_setStore w ((w.context c).destroy w.store).2).trans
    (within_setContext _ c ((w.context c).destroy w.store).1 fun _ hk => Context.hook_destroy hk)

theorem within_own (w : World) (h : WorkerId) : Within h w (w.own h) :=
  within_setHandle w _ rfl fun _ hc => hc

theorem within_disown (w : World) (h : WorkerId) : Within h w (w.disown h) := by
  unfold disown
  simp only
  split
  · have hrelease := within_setStore (h := h) w
      (w.store.releaseAll (w.handle h).registry (w.handle h).holder (w.handle h).references)
    have hlast : ∀ u : World, Within h w u →
        Within h w ((u.setStore (u.store.drop (w.handle h).result)).setHandle h
          { w.handle h with owners := 0, references := [], context := none, result := [] }) := by
      intro u hu
      have hdrop := hu.trans (within_setStore u (u.store.drop (w.handle h).result))
      exact hdrop.trans (within_setHandle _ _ hdrop.pool.symm nofun)
    cases (w.handle h).context with
    | none => exact hlast _ hrelease
    | some c => exact hlast _ (hrelease.trans (within_destroyUnhooked _ c))
  · exact within_setHandle w _ rfl fun _ hc => hc

theorem within_dropHook (w : World) {hook : Option Hook} (hhook : ∀ k, hook = some k → k = .worker h) :
    Within h w (w.dropHook hook) := by
  rcases hook with _ | ⟨i⟩ | ⟨g⟩
  · exact .refl h w
  · obtain rfl := Hook.worker.inj (hhook _ rfl)
    exact within_disown w i
  · exact .refl h w

theorem within_destroy {c : ContextId} (hserves : w.Serves c h) : Within h w (w.destroy c) := by
  unfold destroy
  simp only
  split
  · exact .refl h w
  · have hset := within_setContext (h := h) w c { w.context c with hook := none } nofun
    exact (hset.trans (within_dropHook _ hserves)).trans (within_destroyUnhooked _ c)

theorem within_dropContext {c : ContextId} (hserves : w.Serves c h) : Within h w (w.dropContext c) := by
  have hdestroy := within_destroy hserves
  have hset := hdestroy.trans (within_setContext _ c { (w.destroy c).context c with hook := none } nofun)
  exact hset.trans (within_dropHook _ (hdestroy.serves hserves))

theorem within_retarget (w : World) {hook : Option Hook} (target : Option NotifierId)
    (hhook : ∀ k, hook = some k → k = .worker h) : Within h w (w.retarget hook target).2 := by
  rcases hook with _ | ⟨i⟩ | ⟨g⟩
  · exact .refl h w
  · obtain rfl := Hook.worker.inj (hhook _ rfl)
    exact within_setHandle w _ rfl fun _ hc => hc
  · exact .of_eq rfl rfl rfl

theorem within_adopt (w : World) (h : WorkerId) (object : Stored) : Within h w (w.adopt h object).2 := by
  rcases adopt_writes w h object with ⟨s,heq⟩ | ⟨s,references,heq⟩
  · rw [heq]
    exact within_setStore w s
  · rw [heq]
    exact (within_setHandle w { w.handle h with references } rfl fun _ hc => hc).trans
      (within_setStore _ s)

theorem within_share (w : World) (c : ContextId) (v : Value) : Within h w (w.share c v).2 := by
  unfold share
  simp only
  split
  · exact within_setStore w _
  · split
    · rename_i hload
      exact (within_setStore w _).trans
        (within_setContext (w.setStore _) c _ fun k hk => (Context.hook_load hload).symm.trans hk)
    · exact within_setStore w _

theorem within_answer {c : ContextId} (hserves : w.Serves c h) (q : Query) :
    Within h w (w.answer c q).2 := by
  cases q with
  | newTable => exact .of_eq rfl rfl rfl
  | newShared => exact (within_setStore w _).trans (within_setContext (w.setStore _) c _ fun _ hk => hk)
  | get table key =>
    exact (within_setStore w _).trans (within_setContext (w.setStore _) c _
      fun k hk => (Context.hook_get (w.context c) w.memory table key).symm.trans hk)
  | set | notify | newNotifier => exact .of_eq rfl rfl rfl
  | share value => exact within_share w c value
  | length | paths | hookStep | isNotified => exact .refl h w
  | count =>
    exact within_setContext w c _ fun k hk => (Context.hook_countInstruction (w.context c)).symm.trans hk
  | destroy => exact within_destroy hserves
  | retarget target => exact within_retarget w target hserves

theorem within_loadAll (w : World) (c : ContextId) (objects : List Stored) :
    Within h w (w.loadAll c objects).2 := by
  induction objects generalizing w with
  | nil => exact .refl h w
  | cons object rest ih =>
    unfold loadAll
    split
    · exact .refl h w
    · rename_i v context s hload
      have hone := (within_setStore (h := h) w s).trans
        (within_setContext (w.setStore s) c context fun k hk => (Context.hook_load hload).symm.trans hk)
      exact hone.trans (ih _)

theorem within_begin (w : World) (h : WorkerId) (c : ContextId) (objects : List Stored) :
    Within h w (w.begun h c objects) := by
  have htake := within_setHandle (h := h) w { w.handle h with context := none } rfl nofun
  exact (htake.trans (within_loadAll _ c objects)).trans (within_setStore _ _)

theorem within_collect (w : World) (h : WorkerId) (capture : Capture) (done : List Stored)
    (values : List Value) :
    Within h w (w.collect h capture done values).2 := by
  induction values generalizing w capture done with
  | nil => exact within_setStore w _
  | cons v rest ih =>
    unfold collect
    split
    · exact within_setStore w _
    · rename_i object capture' s hstore
      have hadopt := (within_setStore (h := h) w s).trans (within_adopt (w.setStore s) h object)
      split
      · rename_i heq
        rw [heq] at hadopt
        exact hadopt.trans (ih _ _ _)
      · rename_i heq
        rw [heq] at hadopt
        exact hadopt.trans (within_setStore _ _)

theorem within_setResult (w : World) (h : WorkerId) (results : List Stored) :
    Within h w (w.setResult h results) :=
  (within_setHandle (h := h) w { w.handle h with result := results } rfl fun _ hc => hc).trans
    (within_setStore _ _)

theorem within_changeStatus (w : World) (h : WorkerId) (status : Status) :
    Within h w (w.changeStatus h status) :=
  within_setHandle w _ rfl fun _ hc => hc

end World

namespace Strand

open World (Within)

variable {U N : Type} {lib : Library U N} {c : ContextId} {h : WorkerId} {w w' : World}
    {s s' : Strand (Frame U N)}

def ChecksOnly (h : WorkerId) (s : Strand (Frame U N)) : Prop := ∀ i, i ≠ h → s.checkOf i = none

theorem within_observe (w : World) (c : ContextId) (stopped : Bool) : Within h w (observe w c stopped) :=
  World.within_setContext w c _ fun _ hk => (Context.hook_observe (w.context c) stopped).symm.trans hk

theorem checkOf_start_none {i : WorkerId} (hi : i ≠ h) (kind : CheckKind) :
    (Probe.start (.worker h) kind).checkOf i = none := if_neg (Ne.symm hi)

def Keeps (h : WorkerId) (w w' : World) (s' : Strand (Frame U N)) : Prop :=
  Within h w w' ∧ ChecksOnly h s'

theorem within_counted (w : World) (c : ContextId) : Within h w (w.counted c) :=
  World.within_setContext w c _ fun _ hk => (Context.hook_countInstruction (w.context c)).symm.trans hk

theorem probe_eq {i : WorkerId} {at_ : Check}
    (honly : ∀ j, j ≠ h → (Probe.worker i at_).checkOf j = none) : i = h := by
  by_contra hi
  have hnone := honly i hi
  simp [Probe.checkOf] at hnone

theorem keeps_probe {probe next : Probe} (honly : ∀ i, i ≠ h → probe.checkOf i = none)
    (hstep : probe.step w = .goto next w') : Within h w w' ∧ ∀ i, i ≠ h → next.checkOf i = none := by
  cases probe with
  | gauge g kind => cases hstep
  | worker i at_ =>
    obtain rfl := probe_eq honly
    simp only [Probe.step] at hstep
    split at hstep <;> cases hstep
    exact ⟨World.within_setHandle w _ rfl fun _ hc => hc,fun j hj => if_neg (Ne.symm hj)⟩

theorem within_probe {probe : Probe} {stopped : Bool} (honly : ∀ i, i ≠ h → probe.checkOf i = none)
    (hstep : probe.step w = .finish stopped w') : Within h w w' := by
  cases probe with
  | gauge g kind =>
    cases hstep
    exact .of_eq rfl rfl rfl
  | worker i at_ =>
    obtain rfl := probe_eq honly
    simp only [Probe.step] at hstep
    split at hstep <;> cases hstep
    exact World.within_setHandle w _ rfl fun _ hc => hc

theorem keeps_step (hserves : w.Serves c h) (honly : ChecksOnly h s)
    (hstep : s.step lib c w = .ran s' w') :
    Keeps h w w' s' := by
  cases transition_of_step hstep with
  | ticking stack callers hprobe | checking role k callers hprobe => exact keeps_probe honly hprobe
  | ticked stack callers hprobe | checked role k callers hprobe =>
    exact ⟨(within_probe honly hprobe).trans (within_observe _ _ _),fun _ _ => rfl⟩
  | due stack callers _ hhook =>
    obtain rfl := hserves _ hhook
    exact ⟨within_counted w c,fun i hi => checkOf_start_none hi .tick⟩
  | counted => exact ⟨within_counted w c,fun _ _ => rfl⟩
  | checks role k callers hhook =>
    obtain rfl := hserves _ hhook
    exact ⟨.refl h w,fun i hi => checkOf_start_none hi _⟩
  | asks role q k callers => exact ⟨World.within_answer hserves q,fun _ _ => rfl⟩
  | reports role report callers => exact ⟨.refl h w,fun _ _ => checkOf_afterAct _ role report callers⟩
  | countedOut | plainStep | offers | escapes | returns | ends => exact ⟨.refl h w,fun _ _ => rfl⟩
  | unhooked | waits | uncalled | unloaded | calls | panics => exact ⟨.refl h w,fun _ _ => rfl⟩
  | notified | expired => exact ⟨.refl h w,fun _ _ => rfl⟩

end Strand

end Workers
