import Workers.Proofs.Ledger.Dropped
import Workers.Proofs.Registry.Confluence
/-! # The order in which an owner gives up its entries

A context and the handle of a worker each keep a set of entries, and release them all when they go.
Which of them goes first decides in which order the freed slots are used again, and nothing else.
-/
namespace Workers

namespace Store

inductive Reached : Store → Prop
  | empty : Reached {}
  | addRegistry {s : Store} (h : Reached s) : Reached s.addRegistry.2
  | nextNumber {s : Store} (h : Reached s) (r : RegistryId) : Reached (s.nextNumber r).2
  | serve {s : Store} (h : Reached s) (r : RegistryId) (request : Request EntryId) :
      Reached (s.serve r request).2
  | settle {s : Store} (h : Reached s) (handles : List TableHandle) : Reached (s.settle handles)

variable {s t : Store} {r : RegistryId}

theorem sound_releaseAll (hs : ∀ q, (s.arena q).Sound) (r : RegistryId) (holder : Holder)
    (ids : List EntryId) (q : RegistryId) : ((s.releaseAll r holder ids).arena q).Sound :=
  (settled_releaseAll hs r holder ids).sound hs q

theorem sound_settle (hs : ∀ q, (s.arena q).Sound) (handles : List TableHandle) (q : RegistryId) :
    ((s.settle handles).arena q).Sound :=
  (settled_settle hs handles).sound hs q

theorem sound_addRegistry (hs : ∀ q, (s.arena q).Sound) (q : RegistryId) :
    (s.addRegistry.2.arena q).Sound := by
  by_cases hq : q = s.registries.size
  · have harena : s.addRegistry.2.arena q = {} := by simp [arena, registry, addRegistry, hq]
    rw [harena]
    exact Arena.sound_empty
  · have harena : s.addRegistry.2.arena q = s.arena q := by
      simp [arena, registry, addRegistry, Array.getElem?_push, hq]
    rw [harena]
    exact hs q

theorem sound_serve (hs : ∀ q, (s.arena q).Sound) (r : RegistryId) (request : Request EntryId)
    (q : RegistryId) :
    ((s.serve r request).2.arena q).Sound := by
  cases request with
  | create table holder => exact sound_setArena hs ((hs r).create _ _) q
  | addReference id holder =>
    simp only [serve]
    cases ht : s.addReference r id holder with
    | error fault => exact hs q
    | ok t =>
      unfold addReference at ht
      cases ha : (s.arena r).addReference id holder with
      | error fault =>
        rw [ha] at ht
        cases ht
      | ok a =>
        rw [ha] at ht
        cases ht
        exact sound_setArena hs ((hs r).addReference ha) q
  | release id holder => exact (settled_releaseEach hs r holder [id]).sound hs q
  | releaseAll holder ids => exact sound_releaseAll hs r holder ids q
  | setTable id content => exact sound_setArena hs ((hs r).setContent _) q
  | referenceCount id => exact hs q
  | isAlive id => exact hs q
  | liveEntries => exact hs q
  | table id => exact hs q

/-- A registry never loses count of its slots. -/
theorem Reached.sound (h : s.Reached) (q : RegistryId) : (s.arena q).Sound := by
  induction h generalizing q with
  | empty => exact Arena.sound_empty
  | addRegistry _ ih => exact sound_addRegistry ih q
  | nextNumber _ r ih =>
    rw [arena_nextNumber]
    exact ih q
  | serve _ r request ih => exact sound_serve ih r request q
  | settle _ handles ih => exact sound_settle ih handles q

end Store

structure Context.Alike (c d : Context) : Prop where
  rest_eq : d = { c with references := d.references }
  references_perm : c.references.Perm d.references

structure WorkerHandle.Alike (h k : WorkerHandle) : Prop where
  rest_eq : k = { h with references := k.references }
  references_perm : h.references.Perm k.references

/-- The same worlds but for the order of free slots and the order in which owners list their entries. -/
structure World.Alike (w v : World) : Prop where
  store : w.store.Alike v.store
  heap_eq : v.memory.heap = w.memory.heap
  notifiers_eq : v.notifiers = w.notifiers
  gauges_eq : v.gauges = w.gauges
  pools_eq : v.pools = w.pools
  clock_eq : v.clock = w.clock
  contexts_size : v.contexts.size = w.contexts.size
  handles_size : v.handles.size = w.handles.size
  context : ∀ c, (w.context c).Alike (v.context c)
  handle : ∀ h, (w.handle h).Alike (v.handle h)

structure World.Paired (w v : World) : Prop extends World.Alike w v where
  sound : ∀ r, (w.store.arena r).Sound

namespace Context

variable {c d : Context} {s t : Store}

theorem Alike.refl (c : Context) : c.Alike c := ⟨rfl,.refl _⟩

theorem Alike.setHook (h : c.Alike d) (hook : Option Hook) : Alike { c with hook } { d with hook } :=
  ⟨by rw [h.rest_eq],h.references_perm⟩

/-- A context that is destroyed drains its entries in whatever order. -/
theorem Alike.destroy (h : c.Alike d) (hs : ∀ q, (s.arena q).Sound) (hst : s.Alike t) :
    (∀ q, ((c.destroy s).2.arena q).Sound) ∧ (c.destroy s).1.Alike (d.destroy t).1 ∧
      (c.destroy s).2.Alike (d.destroy t).2 := by
  have hdestroyed : d.destroyed = c.destroyed := by rw [h.rest_eq]
  have hregistry : d.registry = c.registry := by rw [h.rest_eq]
  have hholder : d.holder = c.holder := by rw [h.rest_eq]; rfl
  unfold Context.destroy
  rw [hdestroyed, hregistry, hholder]
  split
  · exact ⟨hs,h,hst⟩
  · refine ⟨Store.sound_releaseAll hs _ _ _,⟨?_,.refl _⟩,
      Store.alike_releaseAll hs hst _ _ h.references_perm⟩
    rw [h.rest_eq]

end Context

namespace World

variable {w v : World}

theorem Paired.setStore (h : w.Paired v) {s t : Store} (hs : ∀ q, (s.arena q).Sound) (hst : s.Alike t) :
    (w.setStore s).Paired (v.setStore t) :=
  { h with sound := hs, store := hst }

theorem Alike.setContext (h : w.Alike v) (c : ContextId) {context context' : Context}
    (hc : context.Alike context') : (w.setContext c context).Alike (v.setContext c context') where
  store := h.store
  heap_eq := h.heap_eq
  notifiers_eq := h.notifiers_eq
  gauges_eq := h.gauges_eq
  pools_eq := h.pools_eq
  clock_eq := h.clock_eq
  contexts_size := by rw [size_setContext, size_setContext, h.contexts_size]
  handles_size := h.handles_size
  context d := by
    rw [context_setContext, context_setContext, h.contexts_size]
    split
    · exact hc
    · exact h.context d
  handle := h.handle

theorem Paired.setContext (h : w.Paired v) (c : ContextId) {context context' : Context}
    (hc : context.Alike context') : (w.setContext c context).Paired (v.setContext c context') :=
  ⟨h.toAlike.setContext c hc,h.sound⟩

theorem Alike.setHandle (h : w.Alike v) (i : WorkerId) {handle handle' : WorkerHandle}
    (hh : handle.Alike handle') : (w.setHandle i handle).Alike (v.setHandle i handle') where
  store := h.store
  heap_eq := h.heap_eq
  notifiers_eq := h.notifiers_eq
  gauges_eq := h.gauges_eq
  pools_eq := h.pools_eq
  clock_eq := h.clock_eq
  contexts_size := h.contexts_size
  handles_size := by rw [size_setHandle, size_setHandle, h.handles_size]
  context := h.context
  handle j := by
    rw [handle_setHandle, handle_setHandle, h.handles_size]
    split
    · exact hh
    · exact h.handle j

theorem Paired.setHandle (h : w.Paired v) (i : WorkerId) {handle handle' : WorkerHandle}
    (hh : handle.Alike handle') : (w.setHandle i handle).Paired (v.setHandle i handle') :=
  ⟨h.toAlike.setHandle i hh,h.sound⟩

theorem Paired.destroyUnhooked (h : w.Paired v) (c : ContextId) :
    (w.destroyUnhooked c).Paired (v.destroyUnhooked c) := by
  obtain ⟨hsound,hcontext,hstore⟩ := (h.context c).destroy h.sound h.store
  exact (h.setStore hsound hstore).setContext c hcontext

theorem Paired.drop (h : w.Paired v) (objects : List Stored) :
    (w.setStore (w.store.drop objects)).Paired (v.setStore (v.store.drop objects)) :=
  h.setStore (Store.sound_settle h.sound _) (Store.alike_settle h.sound h.store _)

/-- The handle of a worker that goes drains its entries in whatever order. -/
theorem Paired.disown (h : w.Paired v) (i : WorkerId) : (w.disown i).Paired (v.disown i) := by
  have hi := h.handle i
  have howners : (v.handle i).owners = (w.handle i).owners := by rw [hi.rest_eq]
  have hregistry : (v.handle i).registry = (w.handle i).registry := by rw [hi.rest_eq]
  have hholder : (v.handle i).holder = (w.handle i).holder := by rw [hi.rest_eq]; rfl
  have hcontext : (v.handle i).context = (w.handle i).context := by rw [hi.rest_eq]
  have hresult : (v.handle i).result = (w.handle i).result := by rw [hi.rest_eq]
  unfold World.disown
  simp only [howners, hregistry, hholder, hcontext, hresult]
  split
  · have hreleased :=
      h.setStore (Store.sound_releaseAll h.sound (w.handle i).registry (w.handle i).holder
      (w.handle i).references) (Store.alike_releaseAll h.sound h.store _ _ hi.references_perm)
    cases hcase : (w.handle i).context with
    | none =>
      have hdropped := hreleased.drop (w.handle i).result
      exact hdropped.setHandle i ⟨by rw [hi.rest_eq],.refl _⟩
    | some c =>
      have hdropped := (hreleased.destroyUnhooked c).drop (w.handle i).result
      exact hdropped.setHandle i ⟨by rw [hi.rest_eq],.refl _⟩
  · exact h.setHandle i ⟨by rw [hi.rest_eq],hi.references_perm⟩

theorem Paired.dropHook (h : w.Paired v) (hook : Option Hook) :
    (w.dropHook hook).Paired (v.dropHook hook) := by
  rcases hook with _ | ⟨i⟩ | ⟨g⟩
  · exact h
  · exact h.disown i
  · exact h

theorem Paired.unhook (h : w.Paired v) (c : ContextId) :
    ((w.setContext c { w.context c with hook := none }).dropHook (w.context c).hook).Paired
      ((v.setContext c { v.context c with hook := none }).dropHook (v.context c).hook) := by
  have hhook : (v.context c).hook = (w.context c).hook := by rw [(h.context c).rest_eq]
  rw [hhook]
  exact (h.setContext c ((h.context c).setHook none)).dropHook _

theorem Paired.destroy (h : w.Paired v) (c : ContextId) : (w.destroy c).Paired (v.destroy c) := by
  have hdestroyed : (v.context c).destroyed = (w.context c).destroyed := by rw [(h.context c).rest_eq]
  unfold World.destroy
  dsimp only
  by_cases hdone : (w.context c).destroyed = true
  · rw [if_pos hdone, if_pos (hdestroyed.trans hdone)]
    exact h
  · rw [if_neg hdone, if_neg (by rwa [hdestroyed])]
    exact (h.unhook c).destroyUnhooked c

theorem Paired.dropContext (h : w.Paired v) (c : ContextId) :
    (w.dropContext c).Paired (v.dropContext c) :=
  (h.destroy c).unhook c

theorem Alike.refl (w : World) : w.Alike w where
  store := .refl _
  heap_eq := rfl
  notifiers_eq := rfl
  gauges_eq := rfl
  pools_eq := rfl
  clock_eq := rfl
  contexts_size := rfl
  handles_size := rfl
  context _ := .refl _
  handle _ := ⟨rfl,.refl _⟩

/-- A context that lists its entries in another order. -/
theorem alike_reorder (c : ContextId) {order : List EntryId} (h : (w.context c).references.Perm order) :
    w.Alike (w.setContext c { w.context c with references := order }) := by
  have hsame : w.setContext c (w.context c) = w := by
    unfold setContext
    congr 1
    apply Array.ext_getElem?
    intro i
    rw [Array.getElem?_modify]
    split
    · rename_i hi
      subst hi
      cases hw : w.contexts[c]? with
      | none => rfl
      | some context => simp [World.context, hw]
    · rfl
  have hcontext : (w.context c).Alike { w.context c with references := order } := ⟨rfl,h⟩
  have hset := (Alike.refl w).setContext c hcontext
  rwa [hsame] at hset

end World

namespace GlobalState

variable {U N : Type}

/-- Batches and single releases in any order leave the same entries, tables, holders and generations
behind, so that nothing shows the order in which a context or the handle of a worker drains what it
keeps. -/
theorem releases_commute (lib : Library U N) :
    (∀ s : Store, s.Reached → ∀ r holder ids order, List.Perm ids order →
      (s.releaseAll r holder ids).Alike (s.releaseEach r holder order)) ∧
    ∀ e : GlobalState, Arises lib e → ∀ v : World, e.world.Alike v → ∀ i,
      (e.world.destroy i).Alike (v.destroy i) ∧ (e.world.dropContext i).Alike (v.dropContext i) ∧
      (e.world.disown i).Alike (v.disown i) :=
  ⟨fun _ hs r holder _ _ hperm => Store.alike_releaseEach hs.sound r holder hperm,
    fun _ he _ h i =>
      have hpaired : World.Paired _ _ := ⟨h,he.accounted.world.balanced.sound⟩
      ⟨(hpaired.destroy i).toAlike,(hpaired.dropContext i).toAlike,(hpaired.disown i).toAlike⟩⟩

def nestedTables : Store :=
  let s := (Store.addRegistry {}).2
  let inner := (s.serve 0 (.create .empty (.context 1))).2
  let held := (inner.serve 0 (.addReference ⟨0,0⟩ (.store 2))).2
  (held.serve 0 (.create (OrderedMap.empty.insert (.integer 1) (.shared ⟨⟨0,0⟩,2,0,true⟩))
    (.context 1))).2

def twoTables : GlobalState := run [.newPool,.newContext 0,.ask 0 .newShared,.ask 0 .newShared]

theorem releases_commute_nested :
    (nestedTables.Reached ∧ [⟨1,0⟩,⟨0,0⟩,⟨1,0⟩,⟨9,3⟩].Perm [⟨9,3⟩,⟨0,0⟩,⟨1,0⟩,(⟨1,0⟩ : EntryId)] ∧
      (nestedTables.releaseAll 0 (.context 1) [⟨1,0⟩,⟨0,0⟩,⟨1,0⟩,⟨9,3⟩]).Alike
        (nestedTables.releaseEach 0 (.context 1) [⟨9,3⟩,⟨0,0⟩,⟨1,0⟩,⟨1,0⟩])) ∧
    Arises unloadable twoTables ∧ (twoTables.world.context 0).references = [⟨0,0⟩,⟨1,0⟩] ∧
      (twoTables.world.destroy 0).Alike ((twoTables.world.setContext 0
        { twoTables.world.context 0 with references := [⟨1,0⟩,⟨0,0⟩] }).destroy 0) := by
  have hreached : nestedTables.Reached :=
    (((Store.Reached.empty.addRegistry.serve 0 _).serve 0 _).serve 0 _)
  have hperm : [⟨1,0⟩,⟨0,0⟩,⟨1,0⟩,⟨9,3⟩].Perm [⟨9,3⟩,⟨0,0⟩,⟨1,0⟩,(⟨1,0⟩ : EntryId)] := by decide
  have harises : Arises unloadable twoTables := arises_run unloadable _
  have hreferences : (twoTables.world.context 0).references = [⟨0,0⟩,⟨1,0⟩] := by decide
  have hswapped : (twoTables.world.context 0).references.Perm [⟨1,0⟩,⟨0,0⟩] := by
    rw [hreferences]
    decide
  have hcommute := releases_commute unloadable
  exact ⟨⟨hreached,hperm,hcommute.1 nestedTables hreached 0 (.context 1) _ _ hperm⟩,harises,hreferences,
    (hcommute.2 twoTables harises _ (World.alike_reorder 0 hswapped) 0).1⟩

end GlobalState

end Workers
