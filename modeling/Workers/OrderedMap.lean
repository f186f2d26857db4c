/-! # Insertion-ordered maps

A finite map that lists its entries in the order in which their keys were first inserted.
Overwriting a value keeps its place, and erasing a key closes the gap.  No key occurs twice.
-/
namespace Workers

/-- A list of entries with distinct keys. -/
structure OrderedMap (κ ν : Type) where
  entries : List (κ × ν)
  nodup : (entries.map Prod.fst).Nodup

namespace OrderedMap

variable {κ ν : Type}

def empty : OrderedMap κ ν := ⟨[],.nil⟩

instance : Inhabited (OrderedMap κ ν) := ⟨empty⟩

def size (m : OrderedMap κ ν) : Nat := m.entries.length

def keys (m : OrderedMap κ ν) : List κ := m.entries.map Prod.fst

def values (m : OrderedMap κ ν) : List ν := m.entries.map Prod.snd

variable [DecidableEq κ]

def get? (m : OrderedMap κ ν) (k : κ) : Option ν :=
  (m.entries.find? fun e => e.1 = k).map Prod.snd

def overwrite (k : κ) (v : ν) (entries : List (κ × ν)) : List (κ × ν) :=
  entries.map fun e => if e.1 = k then (k,v) else e

theorem overwrite_keys (k : κ) (v : ν) (entries : List (κ × ν)) :
    (overwrite k v entries).map Prod.fst = entries.map Prod.fst := by
  induction entries with
  | nil => rfl
  | cons e rest ih =>
    have head : (if e.1 = k then (k,v) else e).1 = e.1 := by split <;> simp_all
    simpa [overwrite, head] using ih

/-- Overwrites the value of a key that is present, and appends a key that is not. -/
def insert (m : OrderedMap κ ν) (k : κ) (v : ν) : OrderedMap κ ν :=
  if present : k ∈ m.entries.map Prod.fst then
    ⟨overwrite k v m.entries,by rw [overwrite_keys]; exact m.nodup⟩
  else
    ⟨m.entries ++ [(k,v)],by
      rw [List.map_append, List.nodup_append]
      refine ⟨m.nodup,by simp,?_⟩
      intro a ha b hb
      simp only [List.map_cons, List.map_nil, List.mem_singleton] at hb
      exact fun h => present (by rwa [← hb, ← h])⟩

def erase (m : OrderedMap κ ν) (k : κ) : OrderedMap κ ν :=
  ⟨m.entries.filter fun e => e.1 ≠ k,
    m.nodup.sublist (List.filter_sublist.map Prod.fst)⟩

theorem keys_insert_of_mem {m : OrderedMap κ ν} {k : κ} (v : ν) (h : k ∈ m.keys) :
    (m.insert k v).keys = m.keys := by
  have h' : k ∈ m.entries.map Prod.fst := h
  simp only [keys, insert, dif_pos h', overwrite_keys]

theorem keys_insert_of_not_mem {m : OrderedMap κ ν} {k : κ} (v : ν) (h : k ∉ m.keys) :
    (m.insert k v).keys = m.keys ++ [k] := by
  have h' : k ∉ m.entries.map Prod.fst := h
  simp [keys, insert, dif_neg h']

theorem keys_erase (m : OrderedMap κ ν) (k : κ) :
    (m.erase k).keys = m.keys.filter (· ≠ k) := by
  simp only [keys, erase, List.filter_map]
  rfl

end OrderedMap

end Workers
