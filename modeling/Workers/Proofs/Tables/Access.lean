import Workers.Proofs.Capture.Keeps
import Workers.Proofs.Ledger.Context
import Workers.Proofs.Roundtrip.Tokens
import Workers.Proofs.Tables.Lookup
/-! # Single accesses to a table

What reading and writing do to one local and to one shared table, as equations: a write to a table
that can be read goes through, and the next read gives what was written.  A value that is no table
passes through a capture and through a load without a change to the store.
-/
namespace Workers

namespace Heap

variable {h : Heap} {c : CellId} {t : LocalTable}

theorem read_create (h : Heap) : h.create.2.read h.create.1 = .ok .empty := by
  simp [create, read, Guarded.borrow]

theorem cell_of_read (hr : h.read c = .ok t) : h.cells[c]? = some { content := t } := by
  unfold read at hr
  split at hr
  · rename_i g hg
    obtain ⟨content,poisoned⟩ := g
    cases poisoned with
    | false =>
      cases hr
      exact hg
    | true => cases hr
  · cases hr

theorem edit_of_read (hr : h.read c = .ok t) (f : LocalTable → LocalTable) :
    ∃ h', h.edit c f = .ok h' ∧ h'.read c = .ok (f t) := by
  have hc := cell_of_read hr
  refine ⟨{ h with cells := h.cells.modify c fun g => { g with content := f t } },?_,?_⟩
  · simp only [edit, hc, Guarded.borrow, Bool.false_eq_true, if_false, Except.map]
  · simp [read, Array.getElem?_modify, hc, Guarded.borrow]

end Heap

namespace Store

variable {s : Store} {r : RegistryId} {id : EntryId} {t : SharedTable}

theorem readTable_eq_ok : s.readTable r id = .ok t ↔ s.table r id = .ok { content := t } := by
  unfold readTable
  cases s.table r id with
  | error fault => exact ⟨nofun,nofun⟩
  | ok g =>
    obtain ⟨content,poisoned⟩ := g
    cases poisoned <;> simp [Except.bind, Guarded.borrow]

theorem table_setTable {g g' : Guarded SharedTable} (h : s.table r id = .ok g) :
    (s.setTable r id g').table r id = .ok g' := by
  obtain ⟨e,he,_⟩ := exists_entry h
  have hr := lt_of_find? he
  unfold setTable table
  rw [arena_setArena, if_pos ⟨rfl,hr⟩, Arena.setContent_of_find? _ he,
    Arena.find?_setEntry_live he, if_pos rfl]

theorem editTable_of_readTable {α : Type} (h : s.readTable r id = .ok t)
    (edit : SharedTable → α × SharedTable) :
    ∃ u, s.editTable r id edit = .ok ((edit t).1,u) ∧ u.readTable r id = .ok (edit t).2 := by
  have htable := readTable_eq_ok.mp h
  refine ⟨s.setTable r id { content := (edit t).2 },?_,readTable_eq_ok.mpr (table_setTable htable)⟩
  unfold editTable
  rw [htable]
  rfl

theorem readTable_create (hr : r < s.registries.size) (hs : ∀ q, (s.arena q).Sound)
    (table : SharedTable) (holder : Holder) :
    (s.create r table holder).2.readTable r (s.create r table holder).1 = .ok table := by
  rw [readTable_eq_ok, (files_create hr hs table holder).table, if_pos ⟨rfl,rfl⟩]

theorem drop_of_handles {objects : List Stored} (h : ∀ object ∈ objects, object.handles = []) :
    s.drop objects = s := by
  have hnone : objects.flatMap Stored.handles = [] := List.flatMap_eq_nil_iff.mpr h
  rw [drop, hnone, settle_nil]

end Store

theorem Value.handles_scalar {v : Value} {object : Stored} (hv : v.scalar? = some object) :
    object.handles = [] := by
  cases v <;> cases hv <;> rfl

theorem Value.isNil_iff {v : Value} : v.isNil = true ↔ v = .nil := by cases v <;> simp [isNil]

theorem Value.store_scalar {v : Value} {object : Stored} (hv : v.scalar? = some object)
    (s : Store) (h : Heap) (r : RegistryId) : v.store s h r = (.ok object,s) := by
  simp [Value.store, Capture.store_scalar hv, Capture.finish, Store.settle_nil]

theorem Stored.copy_of_handles {object : Stored} (h : object.handles = []) (s : Store) :
    object.copy s = (object,s) := by
  cases object <;> first | rfl | cases h

namespace Context

variable {c : Context} {m : Memory} {cell : CellId} {id : EntryId} {key value : Value} {k : Key}

theorem load_of_handles {object : Stored} (h : object.handles = []) (c : Context) (s : Store) :
    c.load s object = .ok (object.toValue,c,s) := by
  cases object <;> first | rfl | cases h

def assign (k : Key) (value : Value) (t : LocalTable) : LocalTable :=
  if value.isNil then t.erase k else t.insert k value

theorem get?_assign (t : LocalTable) (k j : Key) (value : Value) :
    (assign k value t).get? j = if j = k then if value.isNil then none else some value
      else t.get? j := by
  unfold assign
  by_cases hnil : value.isNil = true
  · rw [if_pos hnil, if_pos hnil, OrderedMap.get?_erase]
  · rw [if_neg hnil, if_neg hnil, OrderedMap.get?_insert]

theorem get_local {t : LocalTable} (hk : key.toKey = .ok k) (ht : m.heap.read cell = .ok t) :
    c.get m (.table cell) key = (.ok ((t.get? k).getD .nil),c,m.store) := by
  simp [get, hk, ht, Except.map]

theorem set_local (c : Context) {t : LocalTable} (value : Value) (hk : key.toKey = .ok k)
    (ht : m.heap.read cell = .ok t) :
    ∃ heap, c.set m (.table cell) key value = (.ok (),{ m with heap }) ∧
    heap.read cell = .ok (assign k value t) := by
  obtain ⟨heap,hedit,hread⟩ := Heap.edit_of_read ht (assign k value)
  refine ⟨heap,?_,hread⟩
  unfold assign at hedit
  simp only [set, hk, hedit]

/-- A write that goes through found a table that can be read. -/
theorem read_of_set {m' : Memory} (hk : key.toKey = .ok k)
    (h : c.set m (.table cell) key value = (.ok (),m')) :
    ∃ t, m.heap.read cell = .ok t := by
  simp only [set, hk, Heap.edit] at h
  unfold Heap.read
  cases hcell : m.heap.cells[cell]? with
  | none => simp [hcell] at h
  | some g =>
    obtain ⟨content,poisoned⟩ := g
    cases poisoned with
    | false => exact ⟨content,rfl⟩
    | true => simp [hcell, Guarded.borrow, Except.map] at h

theorem get_shared {t : SharedTable} (hk : key.toKey = .ok k)
    (ht : m.store.readTable c.registry id = .ok t)
    (hplain : ∀ object, t.get? k = some object → object.handles = []) :
    c.get m (.shared id) key = (.ok (((t.get? k).map Stored.toValue).getD .nil),c,m.store) := by
  simp only [get, hk, ht]
  cases hobject : t.get? k with
  | none => rfl
  | some object =>
    have hnone := hplain object hobject
    simp only [Stored.copy_of_handles hnone, load_of_handles hnone]
    rw [Store.drop_of_handles (by simpa using hnone)]
    rfl

theorem map_write (k : Key) (object : Stored) (t : SharedTable) :
    (write k (if object.toValue.isNil then none else some object) t).2.map Stored.toValue =
      assign k object.toValue (t.map Stored.toValue) := by
  unfold assign write
  by_cases hnil : object.toValue.isNil = true
  · simp only [hnil, if_true, OrderedMap.map_erase]
  · simp only [hnil, if_false, Bool.false_eq_true, OrderedMap.map_insert]

theorem captured_scalar {object : Stored} (hv : value.scalar? = some object) (c : Context) (m : Memory) :
    c.captured m value = (.ok (if value.isNil then none else some object),m.store) := by
  unfold captured
  split
  · rfl
  · rw [Value.store_scalar hv]
    rfl

theorem set_shared_scalar {t : SharedTable} {object : Stored} (hk : key.toKey = .ok k)
    (hv : value.scalar? = some object) (ht : m.store.readTable c.registry id = .ok t)
    (hplain : ∀ object, t.get? k = some object → object.handles = []) :
    ∃ store, c.set m (.shared id) key value = (.ok (),{ m with store }) ∧
      store.readTable c.registry id = .ok (write k (if value.isNil then none else some object) t).2 := by
  obtain ⟨store,hedit,hread⟩ :=
    Store.editTable_of_readTable ht (write k (if value.isNil then none else some object))
  refine ⟨store,?_,hread⟩
  have hreplaced : ∀ replaced ∈ (t.get? k).toList, replaced.handles = [] := by
    intro replaced hmem
    exact hplain replaced (Option.mem_toList.mp hmem)
  rw [set_shared c m key value hk, captured_scalar hv]
  simp only [hedit]
  rw [show (write k (if value.isNil then none else some object) t).1 = t.get? k from rfl,
    Store.drop_of_handles hreplaced]

end Context

end Workers
