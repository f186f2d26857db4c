import Mathlib.Order.WellFoundedSet
import Workers.Proofs.Ledger.Run
import Workers.Proofs.Ledger.Tables
/-! # What is reachable is alive, and what is alive is reachable

An entry is a root if somebody outside of all tables holds it.  Releases cascade through nested
tables, but they never come to an entry that a root leads to, and as long as the tables do not lead
back to themselves nothing else stays behind.
-/
namespace Workers

structure Address where
  registry : RegistryId
  entry : EntryId

namespace Store

def Points (s : Store) (x y : Address) : Prop :=
  ∃ table, s.content? x.registry x.entry = some table ∧
    ∃ h ∈ SharedTable.handles table, h.strong = true ∧ h.registry = y.registry ∧ h.entry = y.entry

def Live (s : Store) (x : Address) : Prop := s.isAlive x.registry x.entry = true

def Acyclic (s : Store) : Prop := ∀ x, ¬ Relation.TransGen s.Points x x

variable {s t : Store} {x y : Address}

theorem live_of_slot {r : RegistryId} {i : Nat} {slot : Slot (Guarded SharedTable)}
    (hslot : (s.arena r).slots[i]? = some slot) {entry : Entry (Guarded SharedTable)}
    (hentry : slot.entry = some entry) : (s.arena r).find? ⟨i,slot.generation⟩ = some entry := by
  have hfind : (s.arena r).find? ⟨i,slot.generation⟩ =
      if slot.generation = slot.generation then slot.entry else none := Arena.find?_of_slot hslot
  rw [hfind, if_pos rfl, hentry]

/-- The live entries are among finitely many addresses, one for each slot. -/
theorem finite_live (s : Store) : {x | s.Live x}.Finite := by
  let addresses : List Address := s.registries.toList.zipIdx.flatMap fun r =>
    r.1.arena.slots.toList.zipIdx.map fun slot => ⟨r.2,⟨slot.2,slot.1.generation⟩⟩
  refine (List.finite_toSet addresses).subset fun x hx => ?_
  obtain ⟨table,hc⟩ := isAlive_iff_content?.mp hx
  obtain ⟨entry,hentry,_⟩ := Option.map_eq_some_iff.mp hc
  obtain ⟨slot,hslot,hgeneration,_⟩ := Arena.find?_eq_some hentry
  have hregistry := registry_at (lt_of_find? hentry)
  refine List.mem_flatMap.mpr ⟨(s.registry x.registry,x.registry),?_,
    List.mem_map.mpr ⟨(slot,x.entry.index),?_,?_⟩⟩
  · exact List.mem_zipIdx_iff_getElem?.mpr hregistry
  · refine List.mem_zipIdx_iff_getElem?.mpr ?_
    rw [Array.getElem?_toList]
    exact hslot
  · rw [hgeneration]

theorem Points.live (h : s.Points x y) : s.Live x := by
  obtain ⟨table,hc,_⟩ := h
  exact isAlive_iff_content?.mpr ⟨table,hc⟩

/-- A strong handle in a live table is one that some live entry points with. -/
theorem exists_points {h : TableHandle} (hmem : h ∈ s.tableHandles) (hstrong : h.strong = true) :
    ∃ x, s.Points x ⟨h.registry,h.entry⟩ := by
  simp only [tableHandles, List.mem_flatMap] at hmem
  obtain ⟨registry,hregistry,slot,hslot,entry,hentry,hh⟩ := hmem
  obtain ⟨r,hr⟩ := List.mem_iff_getElem?.mp hregistry
  obtain ⟨i,hi⟩ := List.mem_iff_getElem?.mp hslot
  have harena : s.arena r = registry.arena := by
    rw [Array.getElem?_toList] at hr
    simp [arena, Store.registry, hr]
  have hfind : (s.arena r).find? ⟨i,slot.generation⟩ = some entry := by
    refine live_of_slot ?_ (Option.mem_toList.mp hentry)
    rwa [harena, ← Array.getElem?_toList]
  refine ⟨⟨r,⟨i,slot.generation⟩⟩,entry.content.content,?_,h,hh,hstrong,rfl,rfl⟩
  simp [content?, hfind]

/-- A registry without live entries counts none. -/
theorem liveEntries_eq_zero {r : RegistryId} (hs : (s.arena r).Sound) (hdead : ∀ id, ¬ s.Live ⟨r,id⟩) :
    s.liveEntries r = 0 := by
  unfold liveEntries
  rw [hs.live_eq, Arena.occupied, List.countP_eq_zero]
  intro slot hslot hsome
  obtain ⟨i,hi⟩ := List.mem_iff_getElem?.mp hslot
  obtain ⟨entry,hentry⟩ := Option.isSome_iff_exists.mp hsome
  have hfind : (s.arena r).find? ⟨i,slot.generation⟩ = some entry := by
    refine live_of_slot ?_ hentry
    rwa [← Array.getElem?_toList]
  refine hdead ⟨i,slot.generation⟩ ?_
  simp [Live, isAlive, Arena.isAlive, hfind]

end Store

namespace World

variable {w w' : World}

theorem shrinks_destroyUnhooked (w : World) (c : ContextId) :
    w.store.Shrinks (w.destroyUnhooked c).store :=
  (w.context c).shrinks_destroy w.store

theorem shrinks_disown (w : World) (h : WorkerId) : w.store.Shrinks (w.disown h).store := by
  unfold disown
  simp only
  split
  · have hrelease : w.store.Shrinks
      (w.setStore (w.store.releaseAll (w.handle h).registry (w.handle h).holder
        (w.handle h).references)).store := Store.shrinks_releaseAll _ _ _ _
    have hlast : ∀ u : World, w.store.Shrinks u.store →
        w.store.Shrinks ((u.setStore (u.store.drop (w.handle h).result)).setHandle h
          { w.handle h with owners := 0, references := [], context := none, result := [] }).store :=
      fun u hu => hu.trans (Store.shrinks_drop u.store (w.handle h).result)
    cases (w.handle h).context with
    | none => exact hlast _ hrelease
    | some c => exact hlast _ (hrelease.trans (shrinks_destroyUnhooked _ c))
  · exact .refl _

theorem shrinks_dropHook (w : World) (hook : Option Hook) : w.store.Shrinks (w.dropHook hook).store := by
  rcases hook with _ | ⟨i⟩ | ⟨g⟩
  · exact .refl _
  · exact shrinks_disown w i
  · exact .refl _

theorem store_keepHook (w : World) (hook : Option Hook) : (w.keepHook hook).store = w.store := by
  rcases hook with _ | ⟨i⟩ | ⟨g⟩ <;> rfl

theorem shrinks_setHook (w : World) (c : ContextId) (hook : Hook) (n : UInt32) :
    w.store.Shrinks (w.setHook c hook n).store := by
  have hdrop := shrinks_dropHook ((w.keepHook (some hook)).setContext c
    (((w.keepHook (some hook)).context c).setHook hook n)) (w.context c).hook
  have hkeep : ((w.keepHook (some hook)).setContext c
      (((w.keepHook (some hook)).context c).setHook hook n)).store = w.store :=
        store_keepHook w (some hook)
  rwa [hkeep] at hdrop

theorem shrinks_destroy (w : World) (c : ContextId) : w.store.Shrinks (w.destroy c).store := by
  unfold destroy
  simp only
  split
  · exact .refl _
  · exact (shrinks_dropHook (w.setContext c { w.context c with hook := none }) (w.context c).hook).trans
      (shrinks_destroyUnhooked _ c)

theorem shrinks_dropContext (w : World) (c : ContextId) : w.store.Shrinks (w.dropContext c).store := by
  have hunhooked :=
    shrinks_dropHook ((w.destroy c).setContext c { (w.destroy c).context c with hook := none })
    ((w.destroy c).context c).hook
  exact (shrinks_destroy w c).trans hunhooked

theorem keeps_addReference {h : WorkerId} {id : EntryId} (ha : w.addReference h id = .ok w') :
    w.store.Keeps w'.store := by
  unfold addReference at ha
  simp only at ha
  split at ha
  · cases ha
    exact .refl _
  · cases hs : w.store.addReference (w.handle h).registry id (w.handle h).holder with
    | error fault => rw [hs] at ha; cases ha
    | ok s =>
      rw [hs] at ha
      cases ha
      exact Store.keeps_addReference hs

theorem shrinks_adopt (w : World) (h : WorkerId) (object : Stored) :
    w.store.Shrinks (w.adopt h object).2.store := by
  unfold adopt
  simp only
  split
  · rename_i u htaken
    have hu : w.store.Keeps u.store := by
      cases hcheck : object.checkRegistry (w.handle h).registry with
      | error fault => rw [hcheck] at htaken; cases htaken
      | ok _ =>
        rw [hcheck] at htaken
        simp only [Except.bind] at htaken
        split at htaken
        · exact keeps_addReference htaken
        · cases htaken
          exact .refl _
    exact hu.shrinks.trans (Store.shrinks_weaken _ _)
  · exact Store.shrinks_drop _ _

structure OnlyShrinks (w w' : World) : Prop where
  heap : w'.memory.heap = w.memory.heap
  store : w.store.Shrinks w'.store

theorem OnlyShrinks.refl (w : World) : w.OnlyShrinks w := ⟨rfl,.refl _⟩

theorem onlyShrinks_destroy (w : World) (c : ContextId) : w.OnlyShrinks (w.destroy c) :=
  ⟨heap_destroy w c,shrinks_destroy w c⟩

theorem onlyShrinks_addPool (w : World) : w.OnlyShrinks w.addPool.2 := by
  refine ⟨rfl,fun q id table hc => ?_⟩
  have harena : w.addPool.2.store.arena q = w.store.arena q := by
    simp only [Store.arena, registry_addPool]
  unfold Store.content?
  rw [← harena]
  exact hc

theorem retains_share (w : World) (c : ContextId) (v : Value) :
    w.store.Retains (w.share c v).2.store := by
  have hstore := v.retains_store w.store w.memory.heap (w.context c).registry
  unfold share
  simp only
  split
  · rename_i heq
    rw [heq] at hstore
    exact hstore
  · rename_i heq
    rw [heq] at hstore
    split
    · rename_i hload
      exact (hstore.then (Context.keeps_load hload).shrinks).then (Store.shrinks_drop _ _)
    · exact hstore.then (Store.shrinks_drop _ _)

end World

namespace Context

def Assigned (c : Context) (table key value : Value) (x : Address) (before after : SharedTable) : Prop :=
  table = .shared x.entry ∧ c.registry = x.registry ∧ ∃ k object?, key.toKey = .ok k ∧
    (object? = none ↔ value.isNil = true) ∧ after = (write k object? before).2

theorem captured_isNil {c : Context} {m : Memory} {value : Value} {object? : Option Stored}
    (h : (c.captured m value).1 = .ok object?) : object? = none ↔ value.isNil = true := by
  unfold captured at h
  split at h
  · rename_i hnil
    exact ⟨fun _ => hnil,fun _ => (Except.ok.inj h).symm⟩
  · rename_i hnil
    cases ho : (value.store m.store m.heap c.registry).1 with
    | error fault => simp [ho, Except.map] at h
    | ok object =>
      simp only [ho, Except.map, Except.ok.injEq] at h
      rw [← h]
      exact ⟨nofun,fun hnil' => absurd hnil' hnil⟩

/-- An assignment leaves an entry that stays alive with its table, or writes to it what was assigned. -/
theorem content?_set (c : Context) (m : Memory) (table key value : Value)
    (hs : ∀ q, (m.store.arena q).Sound) {x : Address} {before after : SharedTable}
    (hb : m.store.content? x.registry x.entry = some before)
    (ha : (c.set m table key value).2.store.content? x.registry x.entry = some after) :
    after = before ∨ c.Assigned table key value x before after := by
  have hretains : ∀ t, m.store.Retains t → t.content? x.registry x.entry = some after → after = before :=
    fun t ht hafter => ht.content?_eq hs hb hafter
  cases hk : key.toKey with
  | error fault =>
    simp only [set, hk] at ha
    exact .inl (hretains _ (Store.Shrinks.refl _).retains ha)
  | ok k =>
    cases table with
    | nil | boolean | integer | float | string | function =>
      simp only [set, hk] at ha
      exact .inl (hretains _ (Store.Shrinks.refl _).retains ha)
    | table cell =>
      simp only [set, hk] at ha
      split at ha <;> exact .inl (hretains _ (Store.Shrinks.refl _).retains ha)
    | shared id =>
      have hcaptured := c.retains_captured m value
      rw [set_shared c m key value hk] at ha
      split at ha
      · exact .inl (hretains _ hcaptured ha)
      · rename_i object? ho
        split at ha
        · rename_i replaced t hedit
          have hwritten := Store.shrinks_drop t replaced.toList _ _ _ ha
          obtain ⟨old,hold,hedited⟩ := content?_editTable hedit
          rw [hedited] at hwritten
          split at hwritten
          · rename_i hx
            rw [← hx.1, ← hx.2] at hold
            refine .inr ⟨by rw [hx.2],hx.1.symm,k,object?,hk,captured_isNil ho,?_⟩
            rw [← Option.some.inj hwritten, hcaptured.content?_eq hs hb hold]
          · exact .inl (hretains _ hcaptured hwritten)
        · exact .inl (hretains _ (hcaptured.then (Store.shrinks_drop _ _)) ha)

end Context

theorem World.retains_answer (w : World) (c : ContextId) {q : Query}
    (hq : ∀ table key value, q ≠ .set table key value) :
    w.store.Retains (w.answer c q).2.store := by
  cases q with
  | newTable | length | paths | hookStep | count | notify | isNotified | newNotifier =>
    exact (Store.Shrinks.refl _).retains
  | newShared => exact (Store.grows_create _ _ _ _).retains
  | get table key => exact ((w.context c).shrinks_get w.memory table key).retains
  | set table key value => exact absurd rfl (hq table key value)
  | share value => exact World.retains_share w c value
  | destroy => exact (World.shrinks_destroy w c).retains
  | retarget target =>
    have hstore : (w.retarget (w.context c).hook target).2.store = w.store := by
      unfold World.retarget
      split <;> rfl
    show w.store.Retains (w.retarget (w.context c).hook target).2.store
    rw [hstore]
    exact (Store.Shrinks.refl _).retains

def Operation.Files : Operation → Prop
  | .create .. | .capture _ | .store .. | .ask .. | .poisonLocal _ => True
  | _ => False

namespace GlobalState

variable {e : GlobalState} {x y : Address}

/-- The entry has a holder other than a strong handle on it in the table of a live entry. -/
def Rooted (e : GlobalState) (x : Address) : Prop :=
  ∃ entry, (e.world.store.arena x.registry).find? x.entry = some entry ∧ ∃ holder ∈ entry.holders,
    ∀ h ∈ e.world.store.tableHandles, h.strong = true → h.registry = x.registry → h.entry = x.entry →
      h.holder ≠ holder

def Owned (e : GlobalState) (x : Address) : Prop :=
  (∃ h ∈ e.outside, h.strong = true ∧ h.registry = x.registry ∧ h.entry = x.entry) ∨
    (∃ c ∈ e.world.contexts, c.registry = x.registry ∧ x.entry ∈ c.references) ∨
    ∃ h ∈ e.world.handles, h.owners ≠ 0 ∧ h.registry = x.registry ∧ x.entry ∈ h.references

def Reachable (e : GlobalState) (y : Address) : Prop :=
  ∃ x, e.Rooted x ∧ Relation.ReflTransGen e.world.store.Points x y

theorem Accounted.sound (h : e.Accounted) : ∀ q, (e.world.store.arena q).Sound := h.world.balanced.sound

theorem Accounted.owned_of_outside (h : e.Accounted) {holder : Holder}
    (hx : (⟨x.registry,x.entry,holder⟩ : Share) ∈ e.world.shares + e.shares) : e.Owned x := by
  rcases mem_outside.mp hx with hx | ⟨c,hmem,hx⟩ | ⟨worker,hmem,hx⟩
  · obtain ⟨handle,hmem,hs,heq⟩ := TableHandle.mem_shares.mp hx
    obtain ⟨hr,hid,_⟩ := Share.mk.inj heq
    exact .inl ⟨handle,hmem,hs,hr.symm,hid.symm⟩
  · obtain ⟨hr,_,hid⟩ := mem_checkedOut.mp hx
    exact .inr (.inl ⟨c,hmem,hr.symm,hid⟩)
  · obtain ⟨hr,_,hid⟩ := mem_checkedOut.mp hx
    obtain ⟨i,hi⟩ := Array.getElem?_of_mem hmem
    refine .inr (.inr ⟨worker,hmem,fun hzero => ?_,hr.symm,hid⟩)
    rw [h.world.disowned i worker hi hzero] at hid
    cases hid

theorem Owned.exists_share (h : e.Owned x) :
    ∃ holder, (⟨x.registry,x.entry,holder⟩ : Share) ∈ e.world.shares + e.shares := by
  rcases h with ⟨handle,hmem,hs,hr,hid⟩ | ⟨c,hmem,hr,hid⟩ | ⟨worker,hmem,_,hr,hid⟩
  · exact ⟨handle.holder,mem_outside.mpr
      (.inl (TableHandle.mem_shares.mpr ⟨handle,hmem,hs,by rw [hr, hid]⟩))⟩
  · exact ⟨c.holder,mem_outside.mpr (.inr (.inl ⟨c,hmem,mem_checkedOut.mpr ⟨hr.symm,rfl,hid⟩⟩))⟩
  · exact ⟨worker.holder,mem_outside.mpr
      (.inr (.inr ⟨worker,hmem,mem_checkedOut.mpr ⟨hr.symm,rfl,hid⟩⟩))⟩

theorem Accounted.not_filed (h : e.Accounted) {s : Share} (hs : s ∈ e.world.shares + e.shares) :
    s ∉ e.world.store.filed := by
  have hdisjoint := Multiset.disjoint_of_nodup_add h.world.balanced.nodup
  exact fun hfiled => Multiset.disjoint_left.mp hdisjoint hfiled hs

/-- The roots are the entries that somebody outside of all tables refers to. -/
theorem Accounted.rooted_iff (h : e.Accounted) (x : Address) : e.Rooted x ↔ e.Owned x := by
  constructor
  · rintro ⟨entry,hentry,holder,hholder,houtside⟩
    have hholds : e.world.store.Holds ⟨x.registry,x.entry,holder⟩ := ⟨entry,hentry,hholder⟩
    rcases Multiset.mem_add.mp ((h.world.balanced.exact _).mp hholds) with hfiled | hout
    · obtain ⟨handle,hmem,hs,heq⟩ := TableHandle.mem_shares.mp (Store.mem_filed.mp hfiled)
      obtain ⟨hr,hid,hsame⟩ := Share.mk.inj heq
      exact absurd hsame.symm (houtside handle hmem hs hr.symm hid.symm)
    · exact h.owned_of_outside hout
  · intro howned
    obtain ⟨holder,hshare⟩ := howned.exists_share
    obtain ⟨entry,hentry,hholder⟩ := (h.world.balanced.exact _).mpr (Multiset.mem_add.mpr (.inr hshare))
    refine ⟨entry,hentry,holder,hholder,fun handle hmem hs hr hid hsame => ?_⟩
    refine h.not_filed hshare (Store.mem_filed.mpr (TableHandle.mem_shares.mpr ⟨handle,hmem,hs,?_⟩))
    rw [hr, hid, hsame]

theorem Rooted.live (h : e.Rooted x) : e.world.store.Live x := by
  obtain ⟨entry,hentry,_⟩ := h
  simp [Store.Live, Store.isAlive, Arena.isAlive, hentry]

theorem mem_tableHandles {s : Store} {table : SharedTable} {h : TableHandle}
    (hc : s.content? x.registry x.entry = some table) (hmem : h ∈ table.handles) :
    h ∈ s.tableHandles := by
  obtain ⟨entry,hentry,rfl⟩ := Option.map_eq_some_iff.mp hc
  obtain ⟨slot,hslot,_,hfiled⟩ := Arena.find?_eq_some hentry
  simp only [Store.tableHandles, List.mem_flatMap]
  refine ⟨_,List.mem_of_getElem? (Store.registry_at (Store.lt_of_find? hentry)),slot,?_,entry,?_,hmem⟩
  · exact Array.mem_toList_iff.mpr (Array.mem_of_getElem? hslot)
  · rw [hfiled]
    exact List.mem_singleton.mpr rfl

/-- A strong handle in a live table keeps its entry alive. -/
theorem Accounted.live_of_points (h : e.Accounted) (hp : e.world.store.Points x y) :
    e.world.store.Live y := by
  obtain ⟨table,hc,handle,hmem,hs,hr,hid⟩ := hp
  have hall : handle ∈ e.handles := by
    simp [handles, mem_tableHandles hc hmem]
  have halive := h.exact.handle_alive handle hall hs
  rwa [hr, hid] at halive

theorem Accounted.live_of_reachable (h : e.Accounted) (hy : e.Reachable y) : e.world.store.Live y := by
  obtain ⟨x,hx,hpath⟩ := hy
  induction hpath with
  | refl => exact hx.live
  | tail _ hp _ => exact h.live_of_points hp

def Assigns (e : GlobalState) (op : Operation) (x : Address) (before after : SharedTable) : Prop :=
  ∃ c table key value, op = .ask c (.set table key value) ∧
    (e.world.context c).Assigned table key value x before after

theorem onlyShrinks_attach (e : GlobalState) (r : RegistryId) (id : EntryId) :
    e.world.OnlyShrinks (e.step (.attach r id)).world := by
  have hkeeps := Store.keeps_attach e.world.store r id
  unfold step
  dsimp only
  split
  all_goals
    rename_i heq
    rw [heq] at hkeeps
    exact ⟨rfl,hkeeps.shrinks⟩

theorem onlyShrinks_load (e : GlobalState) (c : ContextId) :
    e.world.OnlyShrinks (e.step (.load c)).world := by
  unfold step
  dsimp only
  split
  · exact .refl _
  · split
    · split
      · rename_i hload
        exact ⟨rfl,(Context.keeps_load hload).shrinks⟩
      · exact .refl _
    · exact .refl _

theorem onlyShrinks_checkOut (e : GlobalState) (c : ContextId) (id : EntryId) :
    e.world.OnlyShrinks (e.step (.checkOut c id)).world := by
  unfold step
  dsimp only
  split
  · split
    · rename_i hadd
      exact ⟨rfl,(Context.keeps_addReference hadd).shrinks⟩
    · exact .refl _
  · exact .refl _

theorem onlyShrinks_adopt (e : GlobalState) (h : WorkerId) :
    e.world.OnlyShrinks (e.step (.adopt h)).world := by
  unfold step
  dsimp only
  split
  · exact .refl _
  · rename_i object rest _
    have hadopt : e.world.OnlyShrinks (e.world.adopt h object).2 :=
      ⟨World.heap_adopt e.world h object,World.shrinks_adopt e.world h object⟩
    split
    · split
      all_goals
        rename_i heq
        rw [heq] at hadopt
        exact hadopt
    · exact .refl _

theorem onlyShrinks_retain (e : GlobalState) (h : WorkerId) (id : EntryId) :
    e.world.OnlyShrinks (e.step (.retain h id)).world := by
  unfold step
  dsimp only
  split
  · split
    · rename_i hadd
      exact ⟨World.heap_addReference hadd,(World.keeps_addReference hadd).shrinks⟩
    · exact .refl _
  · exact .refl _

/-- An operation that files nothing takes tables away at most. -/
theorem onlyShrinks_step (e : GlobalState) {op : Operation} (hop : ¬ op.Files) :
    e.world.OnlyShrinks (e.step op).world := by
  cases op with
  | create | capture | store | ask | poisonLocal => exact absurd trivial hop
  | pick | pickCapture | takeContext | own => exact ⟨rfl,.refl _⟩
  | newPool => exact World.onlyShrinks_addPool e.world
  | newContext r =>
    unfold step
    dsimp only
    split
    · exact ⟨rfl,(Store.keeps_nextNumber e.world.store r).shrinks⟩
    · exact .refl _
  | newWorker p =>
    unfold step
    dsimp only
    split
    · exact ⟨rfl,((Store.keeps_nextNumber _ _).trans (Store.keeps_nextNumber _ _)).shrinks⟩
    · exact .refl _
  | attach r id => exact e.onlyShrinks_attach r id
  | copy =>
    unfold step
    dsimp only
    split
    · exact .refl _
    · exact ⟨rfl,(Store.keeps_copyStored _ _).shrinks⟩
  | weaken =>
    unfold step
    dsimp only
    split
    · exact .refl _
    · exact ⟨rfl,Store.shrinks_weaken _ _⟩
  | drop =>
    unfold step
    dsimp only
    split
    · exact .refl _
    · exact ⟨rfl,Store.shrinks_drop _ _⟩
  | beginCapture r =>
    unfold step
    dsimp only
    split <;> exact .refl _
  | endCapture =>
    unfold step
    dsimp only
    split
    · exact .refl _
    · exact ⟨rfl,Capture.shrinks_finish _ _⟩
  | load c => exact e.onlyShrinks_load c
  | checkOut c id => exact e.onlyShrinks_checkOut c id
  | setHook c hook n =>
    exact ⟨World.heap_setHook e.world c hook n,World.shrinks_setHook e.world c hook n⟩
  | dropContext c => exact ⟨World.heap_dropContext e.world c,World.shrinks_dropContext e.world c⟩
  | adopt h => exact e.onlyShrinks_adopt h
  | retain h id => exact e.onlyShrinks_retain h id
  | disown h => exact ⟨World.heap_disown e.world h,World.shrinks_disown e.world h⟩
  | publish h n =>
    unfold step
    dsimp only
    split
    · exact ⟨rfl,Store.shrinks_drop e.world.store (e.world.handle h).result⟩
    · exact .refl _
  | results h => exact ⟨rfl,(Store.keeps_copyAll e.world.store (e.world.handle h).result).shrinks⟩
  | poisonShared r id =>
    unfold step
    dsimp only
    split
    · rename_i hpoison
      exact ⟨rfl,Store.shrinks_poisonTable hpoison⟩
    · exact .refl _

theorem retains_refl (e : GlobalState) : e.world.store.Retains e.world.store :=
  (Store.Shrinks.refl _).retains

theorem retains_capture (e : GlobalState) (v : Value) :
    e.world.store.Retains (e.step (.capture v)).world.store := by
  unfold step
  dsimp only
  split
  · exact e.retains_refl
  · rename_i capture rest _
    have hstore := capture.retains_store e.world.store e.world.memory.heap v
    split
    all_goals
      rename_i heq
      rw [heq] at hstore
      exact hstore

theorem retains_store (e : GlobalState) (c : ContextId) (v : Value) :
    e.world.store.Retains (e.step (.store c v)).world.store := by
  unfold step
  dsimp only
  split
  · have hstore := v.retains_store e.world.store e.world.memory.heap (e.world.context c).registry
    split
    all_goals
      rename_i heq
      rw [heq] at hstore
      exact hstore
  · exact e.retains_refl

/-- Only an assignment writes into tables that are there already. -/
theorem retains_step (e : GlobalState) {op : Operation}
    (hop : ∀ c table key value, op ≠ .ask c (.set table key value)) :
    e.world.store.Retains (e.step op).world.store := by
  cases op with
  | create r keys =>
    unfold step
    dsimp only
    split
    · exact (Store.grows_createHandle _ _ _).retains
    · exact e.retains_refl
  | capture v => exact e.retains_capture v
  | store c v => exact e.retains_store c v
  | ask c q =>
    unfold step
    dsimp only
    split
    · exact World.retains_answer e.world c fun table key value hq => hop c table key value (by rw [hq])
    · exact e.retains_refl
  | poisonLocal => exact e.retains_refl
  | _ => exact (onlyShrinks_step e id).store.retains

/-- An entry that is live before and after an operation has the table it had, or what was assigned. -/
theorem Accounted.content?_step (h : e.Accounted) {op : Operation} {before after : SharedTable}
    (hb : e.world.store.content? x.registry x.entry = some before)
    (ha : (e.step op).world.store.content? x.registry x.entry = some after) :
    after = before ∨ e.Assigns op x before after := by
  by_cases hop : ∃ c table key value, op = .ask c (.set table key value)
  · obtain ⟨c,table,key,value,rfl⟩ := hop
    unfold step at ha
    dsimp only at ha
    split at ha
    · rcases (e.world.context c).content?_set e.world.memory table key value h.sound hb
        ha with hsame | hassigned
      · exact .inl hsame
      · exact .inr ⟨c,table,key,value,rfl,hassigned⟩
    · rw [hb] at ha
      exact .inl (Option.some.inj ha).symm
  · have hretains : e.world.store.Retains (e.step op).world.store :=
      retains_step e fun c table key value heq => hop ⟨c,table,key,value,heq⟩
    exact .inl (hretains.content?_eq h.sound hb ha)

def KeepsPointing (e : GlobalState) (op : Operation) (x y : Address) : Prop :=
  e.world.store.Points x y ∧ ∀ before after, ¬ e.Assigns op x before after

/-- An operation keeps alive what a root of afterwards led to before, through tables that it does not
write to. -/
theorem Accounted.live_of_keepsPointing (h : e.Accounted) {op : Operation} (hx : (e.step op).Rooted x)
    (hpath : Relation.ReflTransGen (e.KeepsPointing op) x y) : (e.step op).world.store.Live y := by
  have hafter := step_accounted h op
  induction hpath with
  | refl => exact hx.live
  | tail _ hcontrol ih =>
    obtain ⟨⟨table,hc,hpoints⟩,hunassigned⟩ := hcontrol
    obtain ⟨after,hafter'⟩ := Store.isAlive_iff_content?.mp ih
    rcases h.content?_step hc hafter' with rfl | hassigned
    · exact hafter.live_of_points ⟨after,hafter',hpoints⟩
    · exact absurd hassigned (hunassigned _ _)

/-- A live entry is a root, or a live entry points to it. -/
theorem Accounted.rooted_or_pointed (h : e.Accounted) (hy : e.world.store.Live y) :
    e.Rooted y ∨ ∃ x, e.world.store.Points x y := by
  obtain ⟨entry,hentry⟩ := Option.isSome_iff_exists.mp hy
  obtain ⟨holder,hholder⟩ := List.exists_mem_of_ne_nil _ ((h.sound y.registry).holders_ne_nil _ _ hentry)
  by_cases htable : ∃ handle ∈ e.world.store.tableHandles, handle.strong = true ∧
    handle.registry = y.registry ∧
      handle.entry = y.entry ∧ handle.holder = holder
  · obtain ⟨handle,hmem,hs,hr,hid,_⟩ := htable
    obtain ⟨x,hx⟩ := Store.exists_points hmem hs
    rw [hr, hid] at hx
    exact .inr ⟨x,hx⟩
  · refine .inl ⟨entry,hentry,holder,hholder,fun handle hmem hs hr hid hsame => ?_⟩
    exact htable ⟨handle,hmem,hs,hr,hid,hsame⟩

/-- Without cycles every live entry is reachable: going back from entry to entry comes to a root, as
there are only finitely many. -/
theorem Accounted.reachable_of_live (h : e.Accounted) (hacyclic : e.world.store.Acyclic)
    (hy : e.world.store.Live y) : e.Reachable y := by
  have : IsTrans Address (Relation.TransGen e.world.store.Points) :=
    ⟨fun _ _ _ => Relation.TransGen.trans⟩
  have : Std.Irrefl (Relation.TransGen e.world.store.Points) := ⟨hacyclic⟩
  have : IsStrictOrder Address (Relation.TransGen e.world.store.Points) := {}
  have hwf := e.world.store.finite_live.wellFoundedOn (r := Relation.TransGen e.world.store.Points)
  refine hwf.induction hy fun y hy ih => ?_
  rcases h.rooted_or_pointed hy with hroot | ⟨x,hx⟩
  · exact ⟨y,hroot,.refl⟩
  · obtain ⟨root,hroot,hpath⟩ := ih x hx.live (.single hx)
    exact ⟨root,hroot,hpath.tail hx⟩

/-- What the cascades of releases keep and what they free. -/
structure Collected (e : GlobalState) : Prop where
  /-- The roots are what the handles outside of tables, the contexts and the workers refer to. -/
  rooted_iff : ∀ x, e.Rooted x ↔ e.Owned x
  live : ∀ y, e.Reachable y → e.world.store.Live y
  /-- What is reachable after an operation has the table that it had before, if it was there, or
  what the operation assigned. -/
  intact : ∀ op y, (e.step op).Reachable y → ∃ after,
    (e.step op).world.store.content? y.registry y.entry = some after ∧
      ∀ before, e.world.store.content? y.registry y.entry = some before →
        after = before ∨ e.Assigns op y before after
  /-- What was reachable before from a root of afterwards is not freed. -/
  spared : ∀ op x y, (e.step op).Rooted x → Relation.ReflTransGen (e.KeepsPointing op) x y →
    (e.step op).world.store.Live y
  reachable : e.world.store.Acyclic → ∀ y, e.world.store.Live y → e.Reachable y
  empty : e.world.store.Acyclic → (∀ x, ¬ e.Rooted x) → ∀ r, e.world.store.liveEntries r = 0

theorem Accounted.collected (h : e.Accounted) : e.Collected where
  rooted_iff := h.rooted_iff
  live _ hy := h.live_of_reachable hy
  intact op y hy := by
    have halive := (step_accounted h op).live_of_reachable hy
    obtain ⟨after,hafter⟩ := Store.isAlive_iff_content?.mp halive
    exact ⟨after,hafter,fun before hbefore => h.content?_step hbefore hafter⟩
  spared _ _ _ hx hpath := h.live_of_keepsPointing hx hpath
  reachable hacyclic _ hy := h.reachable_of_live hacyclic hy
  empty hacyclic hnone r := by
    refine Store.liveEntries_eq_zero (h.sound r) fun id hid => ?_
    obtain ⟨x,hx,_⟩ := h.reachable_of_live hacyclic hid
    exact hnone x hx

/-- After any run of operations what a root leads to is alive with its table, and without cycles
nothing else is. -/
theorem run_collected (ops : List Operation) : (run ops).Collected := (run_accounted ops).collected

/-- A nested entry goes with the one that it is filed in. -/
example : (run [.newPool,.create 0 [],.create 0 [.boolean true]]).world.store.liveEntries 0 = 2 ∧
    (run [.newPool,.create 0 [],.create 0 [.boolean true],.drop]).world.store.liveEntries 0 = 0 := by
  cbv

end GlobalState

end Workers
