import Mathlib.Data.Finset.Card
import Workers.Proofs.OrderedMap
/-! # Looking up in ordered maps

What inserting and erasing a key do to the other keys, and maps that have the same keys in the same
order while the values of one are translated into those of the other.
-/
namespace Workers.OrderedMap

variable {κ ν ω : Type}

theorem eq_of_entries {m n : OrderedMap κ ν} (h : m.entries = n.entries) : m = n := by
  cases m
  cases n
  cases h
  rfl

def map (f : ν → ω) (m : OrderedMap κ ν) : OrderedMap κ ω where
  entries := m.entries.map fun e => (e.1,f e.2)
  nodup := by simpa [Function.comp_def] using m.nodup

@[simp] theorem map_empty (f : ν → ω) : (empty : OrderedMap κ ν).map f = empty := rfl

@[simp] theorem keys_map (f : ν → ω) (m : OrderedMap κ ν) : (m.map f).keys = m.keys := by
  simp [keys, map, Function.comp_def]

@[simp] theorem size_map (f : ν → ω) (m : OrderedMap κ ν) : (m.map f).size = m.size := by
  simp [size, map]

variable [DecidableEq κ]

theorem entries_insert (m : OrderedMap κ ν) (k : κ) (v : ν) :
    (m.insert k v).entries = if k ∈ m.keys then overwrite k v m.entries else m.entries ++ [(k,v)] := by
  unfold insert keys
  split <;> rfl

section Lookup

variable (m : OrderedMap κ ν) (k j : κ) (v : ν)

theorem find?_overwrite (entries : List (κ × ν)) :
    ((overwrite k v entries).find? fun e => e.1 = j) =
      (entries.find? fun e => e.1 = j).map fun e => if j = k then (k,v) else e := by
  induction entries with
  | nil => rfl
  | cons e rest ih =>
    have hcons : overwrite k v (e :: rest) = (if e.1 = k then (k,v) else e) :: overwrite k v rest := rfl
    rw [hcons, List.find?_cons, List.find?_cons]
    by_cases he : e.1 = k <;> by_cases hj : e.1 = j <;> simp_all

theorem get?_eq_none_iff : m.get? k = none ↔ k ∉ m.keys := by
  refine ⟨fun h hk => ?_,get?_eq_none⟩
  obtain ⟨e,he,rfl⟩ := List.mem_map.mp hk
  have hnone := List.find?_eq_none.mp (Option.map_eq_none_iff.mp h) e he
  simp at hnone

theorem mem_keys_iff : k ∈ m.keys ↔ ∃ v, m.get? k = some v := by
  rw [← Option.isSome_iff_exists, Option.isSome_iff_ne_none, Ne, get?_eq_none_iff, not_not]

theorem get?_insert : (m.insert k v).get? j = if j = k then some v else m.get? j := by
  unfold get?
  rw [entries_insert]
  by_cases hk : k ∈ m.keys
  · rw [if_pos hk, find?_overwrite, Option.map_map]
    by_cases hj : j = k
    · obtain ⟨u,hu⟩ := (m.mem_keys_iff k).mp hk
      obtain ⟨e,he,_⟩ := Option.map_eq_some_iff.mp hu
      simp [hj, he]
    · simp [hj, Function.comp_def]
  · rw [if_neg hk, List.find?_append]
    by_cases hj : j = k
    · subst hj
      simp [find?_eq_none_of_not_mem hk]
    · have hne : ¬ k = j := fun h => hj h.symm
      simp [hj, hne]

theorem get?_erase : (m.erase k).get? j = if j = k then none else m.get? j := by
  simp only [get?, erase, List.find?_filter]
  by_cases hj : j = k
  · subst hj
    simp
  · rw [if_neg hj]
    refine congrArg _ (congrArg (fun p => m.entries.find? p) (funext fun e => ?_))
    by_cases he : e.1 = j <;> simp_all

theorem size_eq_card : m.size = m.keys.toFinset.card := by
  have hcard := List.toFinset_card_of_nodup m.nodup
  rw [List.length_map] at hcard
  exact hcard.symm

end Lookup

section Map

variable (f : ν → ω) (m : OrderedMap κ ν) (k : κ)

theorem get?_map : (m.map f).get? k = (m.get? k).map f := by
  simp only [get?, map, List.find?_map, Option.map_map]
  rfl

theorem map_insert (v : ν) : (m.insert k v).map f = (m.map f).insert k (f v) := by
  apply eq_of_entries
  rw [entries_insert, keys_map]
  simp only [map, entries_insert]
  split
  · simp only [overwrite, List.map_map]
    refine List.map_congr_left fun e _ => ?_
    by_cases he : e.1 = k <;> simp [he]
  · simp only [List.map_append, List.map_cons, List.map_nil]

theorem map_erase : (m.erase k).map f = (m.map f).erase k := by
  apply eq_of_entries
  simp only [erase, map, List.filter_map]
  rfl

end Map

end Workers.OrderedMap
