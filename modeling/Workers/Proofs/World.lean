import Mathlib.Order.Basic
import Workers.World.Basic
/-! # Reading the world after a write

Contexts, worker handles and pools are looked up by position.  A write at a position that does not exist
does nothing.
-/
namespace Workers.World

variable {w : World}

theorem context_eq {c : ContextId} (hc : c < w.contexts.size) : w.contexts[c]? = some (w.context c) := by
  simp [context, hc]

theorem handle_eq {h : WorkerId} (hh : h < w.handles.size) : w.handles[h]? = some (w.handle h) := by
  simp [handle, hh]

theorem setContext_of_not_lt {c : ContextId} (hc : ¬ c < w.contexts.size) (context : Context) :
    w.setContext c context = w := by
  have hmodify : (w.contexts.modify c fun _ => context) = w.contexts := by
    apply Array.ext_getElem?
    intro i
    rw [Array.getElem?_modify]
    split
    · rename_i hi
      subst hi
      simp [hc]
    · rfl
  simp [setContext, hmodify]

theorem setHandle_of_not_lt {h : WorkerId} (hh : ¬ h < w.handles.size) (handle : WorkerHandle) :
    w.setHandle h handle = w := by
  have hmodify : (w.handles.modify h fun _ => handle) = w.handles := by
    apply Array.ext_getElem?
    intro i
    rw [Array.getElem?_modify]
    split
    · rename_i hi
      subst hi
      simp [hh]
    · rfl
  simp [setHandle, hmodify]

theorem context_setContext (w : World) (c d : ContextId) (context : Context) :
    (w.setContext c context).context d = if c = d ∧ d < w.contexts.size then context
      else w.context d := by
  unfold setContext World.context
  simp only [Array.getElem?_modify]
  by_cases hcd : c = d
  · subst hcd
    by_cases hc : c < w.contexts.size
    · simp [hc]
    · simp [hc]
  · simp [hcd]

theorem context_setContext_self {c : ContextId} (hc : c < w.contexts.size) (context : Context) :
    (w.setContext c context).context c = context := by
  rw [context_setContext, if_pos ⟨rfl,hc⟩]

theorem setContext_self (w : World) (c : ContextId) : w.setContext c (w.context c) = w := by
  have hmodify : (w.contexts.modify c fun _ => w.context c) = w.contexts := by
    apply Array.ext_getElem?
    intro i
    rw [Array.getElem?_modify]
    split
    · rename_i hi
      subst hi
      cases hc : w.contexts[c]? <;> simp [context, hc]
    · rfl
  simp [setContext, hmodify]

theorem lt_of_hook {c : ContextId} {hook : Hook} (h : (w.context c).hook = some hook) :
    c < w.contexts.size := by
  by_contra hc
  have hnone : w.contexts[c]? = none := Array.getElem?_eq_none (Nat.le_of_not_lt hc)
  rw [context, hnone] at h
  cases h

theorem handle_setHandle (w : World) (i j : WorkerId) (handle : WorkerHandle) :
    (w.setHandle i handle).handle j = if i = j ∧ j < w.handles.size then handle else w.handle j := by
  unfold setHandle World.handle
  simp only [Array.getElem?_modify]
  by_cases hij : i = j
  · subst hij
    by_cases hi : i < w.handles.size
    · simp [hi]
    · simp [hi]
  · simp [hij]

theorem handle_setHandle_self {h : WorkerId} (hh : h < w.handles.size) (handle : WorkerHandle) :
    (w.setHandle h handle).handle h = handle := by
  rw [handle_setHandle, if_pos ⟨rfl,hh⟩]

theorem setHandle_setHandle (w : World) (h : WorkerId) (first second : WorkerHandle) :
    (w.setHandle h first).setHandle h second = w.setHandle h second := by
  have hmodify : ((w.handles.modify h fun _ => first).modify h fun _ => second) =
      w.handles.modify h fun _ => second := by
    apply Array.ext_getElem?
    intro i
    simp only [Array.getElem?_modify]
    split <;> simp [Function.comp_def]
  simp [setHandle, hmodify]

theorem pool_setPool (w : World) (p q : PoolId) (pool : Pool) :
    (w.setPool p pool).pool q = if p = q ∧ q < w.pools.size then pool else w.pool q := by
  unfold setPool World.pool
  simp only [Array.getElem?_modify]
  by_cases hpq : p = q
  · subst hpq
    by_cases hp : p < w.pools.size
    · simp [hp]
    · simp [hp]
  · simp [hpq]

@[simp] theorem size_setContext (w : World) (c : ContextId) (context : Context) :
    (w.setContext c context).contexts.size = w.contexts.size := by simp [setContext]

@[simp] theorem size_setHandle (w : World) (h : WorkerId) (handle : WorkerHandle) :
    (w.setHandle h handle).handles.size = w.handles.size := by simp [setHandle]

@[simp] theorem size_setPool (w : World) (p : PoolId) (pool : Pool) :
    (w.setPool p pool).pools.size = w.pools.size := by simp [setPool]

theorem handle_addHandle (w : World) (p : PoolId) {h : WorkerId} (hh : h < w.handles.size) :
    (w.addHandle p).2.handle h = w.handle h := by
  simp [addHandle, handle, addContext, setStore, Array.getElem?_push, Nat.ne_of_lt hh]

theorem handle_addHandle_self (w : World) (p : PoolId) : (w.addHandle p).2.handle (w.addHandle p).1 =
    { number := (w.store.registry (w.pool p).registry).nextNumber, pool := p,
      registry := (w.pool p).registry, context := some w.contexts.size } := by
  simp [addHandle, handle, addContext, Store.nextNumber, setStore]

theorem context_addHandle (w : World) (p : PoolId) {c : ContextId} (hc : c ≠ w.contexts.size) :
    (w.addHandle p).2.context c = w.context c := by
  simp [addHandle, World.context, addContext, setStore, Array.getElem?_push, hc]

theorem context_addHandle_self (w : World) (p : PoolId) : (w.addHandle p).2.context w.contexts.size =
    (Context.create (w.store.nextNumber (w.pool p).registry).2 (w.pool p).registry).1 := by
  simp [addHandle, World.context, addContext, setStore, store]

theorem hook_addHandle (w : World) (p : PoolId) :
    ((w.addHandle p).2.context w.contexts.size).hook = none := by
  simp [addHandle, World.context, addContext, setStore, Context.create]

theorem size_addHandle (w : World) (p : PoolId) : (w.addHandle p).1 = w.handles.size ∧
    (w.addHandle p).2.handles.size = w.handles.size + 1 ∧ (w.addHandle p).2.contexts.size =
    w.contexts.size + 1 :=
  ⟨rfl,Array.size_push _,Array.size_push _⟩

theorem addReference_writes {w' : World} {h : WorkerId} {id : EntryId}
    (ha : w.addReference h id = .ok w') :
    w' = w ∨ ∃ s references, w' = (w.setHandle h { w.handle h with references }).setStore s := by
  unfold addReference at ha
  simp only at ha
  split at ha
  · cases ha
    exact .inl rfl
  · cases hs : w.store.addReference (w.handle h).registry id (w.handle h).holder with
    | error fault =>
      rw [hs] at ha
      cases ha
    | ok s =>
      rw [hs] at ha
      cases ha
      exact .inr ⟨s,_,rfl⟩

/-- An adoption writes to the store, and to the handle nothing but the entries that it keeps. -/
theorem adopt_writes (w : World) (h : WorkerId) (object : Stored) :
    (∃ s, (w.adopt h object).2 = w.setStore s) ∨
    ∃ s references, (w.adopt h object).2 =
    (w.setHandle h { w.handle h with references }).setStore s := by
  unfold adopt
  simp only
  split
  · rename_i u htaken
    have hu : u = w ∨ ∃ s references, u = (w.setHandle h { w.handle h with references }).setStore s := by
      cases hcheck : object.checkRegistry (w.handle h).registry with
      | error fault =>
        rw [hcheck] at htaken
        cases htaken
      | ok _ =>
        rw [hcheck] at htaken
        simp only [Except.bind] at htaken
        split at htaken
        · exact addReference_writes htaken
        · cases htaken
          exact .inl rfl
    obtain rfl | ⟨s,references,rfl⟩ := hu
    · exact .inl ⟨_,rfl⟩
    · exact .inr ⟨_,references,rfl⟩
  · exact .inl ⟨_,rfl⟩

theorem heap_addReference {id : EntryId} {w' : World} (ha : w.addReference h id = .ok w') :
    w'.memory.heap = w.memory.heap := by
  obtain rfl | ⟨s,references,rfl⟩ := addReference_writes ha <;> rfl

theorem heap_adopt (w : World) (h : WorkerId) (object : Stored) :
    (w.adopt h object).2.memory.heap = w.memory.heap := by
  obtain ⟨s,hw⟩ | ⟨s,references,hw⟩ := adopt_writes w h object <;> rw [hw] <;> rfl

theorem heap_disown (w : World) (h : WorkerId) : (w.disown h).memory.heap = w.memory.heap := by
  unfold disown
  simp only
  split
  · cases (w.handle h).context <;> rfl
  · rfl

theorem heap_dropHook (w : World) (hook : Option Hook) :
    (w.dropHook hook).memory.heap = w.memory.heap := by
  rcases hook with _ | ⟨i⟩ | ⟨g⟩
  · rfl
  · exact heap_disown w i
  · rfl

theorem heap_setHook (w : World) (c : ContextId) (hook : Hook) (n : UInt32) :
    (w.setHook c hook n).memory.heap = w.memory.heap := by
  refine (heap_dropHook _ _).trans ?_
  cases hook <;> rfl

theorem heap_destroy (w : World) (c : ContextId) : (w.destroy c).memory.heap = w.memory.heap := by
  unfold destroy
  simp only
  split
  · rfl
  · exact heap_dropHook (w.setContext c { w.context c with hook := none }) _

theorem heap_dropContext (w : World) (c : ContextId) : (w.dropContext c).memory.heap = w.memory.heap :=
  (heap_dropHook _ _).trans (heap_destroy w c)

theorem memory_retarget (w : World) (hook : Option Hook) (target : Option NotifierId) :
    (w.retarget hook target).2.memory = w.memory := by
  rcases hook with _ | ⟨i⟩ | ⟨g⟩ <;> rfl

end Workers.World
