import Workers.Capture
import Workers.Proofs.Ledger.Store
import Workers.Proofs.OrderedMap
/-! # The ledger across handles and captures

Taking, copying and giving up handles, and storing values through a capture.  Whatever an operation
hands out is outside of all tables afterwards, next to what was there before; a failure hands out
nothing and leaves no share behind.
-/
namespace Workers

open TableHandle (shares)

def granted {ε α : Type} (g : α → Multiset Share) : Except ε α → Multiset Share
  | .ok a => g a
  | .error _ => 0

@[simp] theorem granted_ok {ε α : Type} (g : α → Multiset Share) (a : α) :
    granted g (.ok a : Except ε α) = g a := rfl

@[simp] theorem granted_error {ε α : Type} (g : α → Multiset Share) (e : ε) :
    granted g (.error e : Except ε α) = 0 := rfl

namespace Stored

def shares (object : Stored) : Multiset Share := TableHandle.shares object.handles

@[simp] theorem shares_shared (h : TableHandle) : (Stored.shared h).shares = h.share := by
  simp [shares, handles]

end Stored

variable {s : Store} {out : Multiset Share} {r : RegistryId}

theorem TableHandle.shares_flatMap (objects : List Stored) :
    shares (objects.flatMap Stored.handles) = (objects.map Stored.shares).sum := by
  induction objects with
  | nil => rfl
  | cons object rest ih => simp [ih, Stored.shares]

theorem SharedTable.shares_handles (t : SharedTable) : shares t.handles = t.total Stored.shares :=
  TableHandle.shares_flatMap t.values

theorem SharedTable.shares_insert (t : SharedTable) (k : Key) (object : Stored) :
    shares (SharedTable.handles (t.insert k object)) + (t.get? k).elim 0 Stored.shares =
      shares t.handles + object.shares := by
  rw [shares_handles, shares_handles, OrderedMap.total_insert]

theorem SharedTable.shares_erase (t : SharedTable) (k : Key) :
    shares (SharedTable.handles (t.erase k)) + (t.get? k).elim 0 Stored.shares = shares t.handles := by
  rw [shares_handles, shares_handles, OrderedMap.total_erase]

namespace Store

theorem Balanced.drop {objects : List Stored} (h : s.Balanced ((objects.map Stored.shares).sum + out)) :
    (s.drop objects).Balanced out :=
  Balanced.settle (by rwa [TableHandle.shares_flatMap])

theorem later_drop (s : Store) (objects : List Stored) : s.Later (s.drop objects) := later_settle _ _

/-- A holder whose number was given out just now registers anew. -/
theorem Balanced.register (h : s.Balanced out) {t : Store} {id : EntryId} {holder : Holder}
    (ht : (s.nextNumber r).2.addReference r id holder = .ok t)
    (hn : holder.number = (s.registry r).nextNumber) : t.Balanced ({⟨r,id,holder⟩} + out) := by
  obtain ⟨a,ha,_⟩ := addReference_cases ht
  obtain ⟨e,he,_⟩ := Arena.addReference_eq_ok ha
  rw [arena_nextNumber] at he
  refine (h.nextNumber r).addReference ht ?_ ?_
  · rw [hn]
    exact number_lt_nextNumber (lt_of_find? he)
  · intro hh
    have hs : s.Holds ⟨r,id,holder⟩ := by simpa [Holds] using hh
    exact h.not_holds_of_le (le_of_eq hn.symm) hs

end Store

namespace TableHandle

theorem balanced_attach (h : s.Balanced out) (id : EntryId) :
    (attach s r id).2.Balanced (granted share (attach s r id).1 + out) := by
  unfold attach
  cases ht : (s.nextNumber r).2.addReference r id (.store (s.nextNumber r).1) with
  | error fault => simpa [ht] using h.nextNumber r
  | ok t => simpa [ht, share, holder] using h.register ht rfl

theorem later_attach (s : Store) (r : RegistryId) (id : EntryId) : s.Later (attach s r id).2 := by
  unfold attach
  cases ht : (s.nextNumber r).2.addReference r id (.store (s.nextNumber r).1) with
  | error fault => simpa [ht] using Store.later_nextNumber s r
  | ok t => simpa [ht] using (Store.later_nextNumber s r).trans (Store.later_addReference ht)

theorem balanced_create (hr : r < s.registries.size) {table : SharedTable}
    (h : s.Balanced (shares table.handles + out)) :
    (create s r table).2.Balanced ((create s r table).1.share + out) := by
  have hn := h.nextNumber r
  have hr' : r < (s.nextNumber r).2.registries.size := by
    rwa [(Store.later_nextNumber s r).size_eq]
  exact Store.Balanced.create hr' hn (Store.number_lt_nextNumber hr)

theorem later_create (s : Store) (r : RegistryId) (table : SharedTable) : s.Later (create s r table).2 :=
  (Store.later_nextNumber s r).trans (Store.later_setArena _ _ _)

theorem balanced_copy (h : s.Balanced out) (handle : TableHandle) :
    (handle.copy s).2.Balanced ((handle.copy s).1.share + out) := by
  unfold copy
  cases ht : (s.nextNumber handle.registry).2.addReference handle.registry handle.entry
      (.store (s.nextNumber handle.registry).1) with
  | error fault => simpa [ht, share] using h.nextNumber handle.registry
  | ok t => simpa [ht, share, holder] using h.register ht rfl

theorem later_copy (s : Store) (handle : TableHandle) : s.Later (handle.copy s).2 := by
  unfold copy
  cases ht : (s.nextNumber handle.registry).2.addReference handle.registry handle.entry
      (.store (s.nextNumber handle.registry).1) with
  | error fault => simpa [ht] using Store.later_nextNumber s handle.registry
  | ok t =>
    simpa [ht] using (Store.later_nextNumber s handle.registry).trans (Store.later_addReference ht)

theorem balanced_weaken {handle : TableHandle} (h : s.Balanced (handle.share + out)) :
    (handle.weaken s).2.Balanced ((handle.weaken s).1.share + out) := by
  have hs : (s.settle [handle]).Balanced out := Store.Balanced.settle (by simpa using h)
  simpa [weaken, share] using hs

theorem later_weaken (s : Store) (handle : TableHandle) : s.Later (handle.weaken s).2 :=
  Store.later_settle s _

end TableHandle

namespace Stored

theorem balanced_copy (h : s.Balanced out) (object : Stored) :
    (object.copy s).2.Balanced ((object.copy s).1.shares + out) := by
  cases object with
  | shared handle =>
    rw [show (Stored.shared handle).copy s = (.shared (handle.copy s).1,(handle.copy s).2) from rfl,
      shares_shared]
    exact TableHandle.balanced_copy h handle
  | nil | boolean | integer | float | string | function => simpa [copy, shares, handles] using h

theorem later_copy (s : Store) (object : Stored) : s.Later (object.copy s).2 := by
  cases object with
  | shared handle => exact TableHandle.later_copy s handle
  | nil | boolean | integer | float | string | function => exact .refl s

theorem balanced_copyAll (h : s.Balanced out) (objects : List Stored) :
    (copyAll s objects).2.Balanced (((copyAll s objects).1.map shares).sum + out) := by
  induction objects generalizing s out with
  | nil => simpa [copyAll] using h
  | cons object rest ih =>
    have hrest := ih (balanced_copy h object)
    simpa [copyAll, add_assoc, add_left_comm] using hrest

theorem later_copyAll (s : Store) (objects : List Stored) : s.Later (copyAll s objects).2 := by
  induction objects generalizing s with
  | nil => exact .refl s
  | cons object rest ih => exact (later_copy s object).trans (ih _)

theorem balanced_weaken {object : Stored} (h : s.Balanced (object.shares + out)) :
    (object.weaken s).2.Balanced ((object.weaken s).1.shares + out) := by
  cases object with
  | shared handle =>
    rw [show (Stored.shared handle).weaken s = (.shared (handle.weaken s).1,
      (handle.weaken s).2) from rfl,
      shares_shared]
    exact TableHandle.balanced_weaken (by simpa using h)
  | nil | boolean | integer | float | string | function => exact h

theorem later_weaken (s : Store) (object : Stored) : s.Later (object.weaken s).2 := by
  cases object with
  | shared handle => exact TableHandle.later_weaken s handle
  | nil | boolean | integer | float | string | function => exact .refl s

end Stored

end Workers
