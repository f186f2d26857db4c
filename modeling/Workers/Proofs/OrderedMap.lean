import Mathlib.Algebra.BigOperators.Group.List.Basic
import Mathlib.Tactic.Abel
import Workers.OrderedMap
/-! # Sums over the values of an ordered map

What inserting and erasing a key do to the sum of the values, in any commutative monoid: the value
that was under the key before is exchanged for the new one.
-/
namespace Workers.OrderedMap

variable {κ ν M : Type} [AddCommMonoid M]

def total (g : ν → M) (m : OrderedMap κ ν) : M := (m.values.map g).sum

variable [DecidableEq κ] (g : ν → M)

omit [AddCommMonoid M] in
theorem find?_eq_none_of_not_mem {k : κ} {entries : List (κ × ν)} (hk : k ∉ entries.map Prod.fst) :
    (entries.find? fun e => e.1 = k) = none := by
  rw [List.find?_eq_none]
  intro e he
  simp only [decide_eq_true_eq]
  exact fun h => hk (h ▸ List.mem_map_of_mem he)

omit [AddCommMonoid M] in
theorem get?_eq_none {m : OrderedMap κ ν} {k : κ} (hk : k ∉ m.keys) : m.get? k = none := by
  simp [get?, find?_eq_none_of_not_mem hk]

theorem sum_overwrite {k : κ} (v : ν) {entries : List (κ × ν)} (hn : (entries.map Prod.fst).Nodup)
    (hk : k ∈ entries.map Prod.fst) :
    ((overwrite k v entries).map (g ∘ Prod.snd)).sum +
        ((entries.find? fun e => e.1 = k).map Prod.snd).elim 0 g =
      (entries.map (g ∘ Prod.snd)).sum + g v := by
  induction entries with
  | nil => simp at hk
  | cons e rest ih =>
    obtain ⟨hfresh,hrest⟩ := List.nodup_cons.mp hn
    by_cases he : e.1 = k
    · have hsame : overwrite k v rest = rest := by
        unfold overwrite
        refine (List.map_congr_left fun x hx => ?_).trans (List.map_id rest)
        have hne : x.1 ≠ k := fun h => hfresh (he ▸ h ▸ List.mem_map_of_mem hx)
        simp [hne]
      have hcons : overwrite k v (e :: rest) = (k,v) :: overwrite k v rest := by simp [overwrite, he]
      rw [hcons, hsame]
      simp only [List.map_cons, List.sum_cons, List.find?_cons, he, decide_true, Option.map_some,
        Option.elim_some, Function.comp_apply]
      abel
    · have hk' : k ∈ rest.map Prod.fst :=
        (List.mem_cons.mp hk).resolve_left fun h => he h.symm
      have hcons : overwrite k v (e :: rest) = e :: overwrite k v rest := by simp [overwrite, he]
      rw [hcons]
      simp only [List.map_cons, List.sum_cons, List.find?_cons, he, decide_false]
      rw [add_assoc, ih hrest hk', add_assoc]

theorem total_insert (m : OrderedMap κ ν) (k : κ) (v : ν) :
    (m.insert k v).total g + (m.get? k).elim 0 g = m.total g + g v := by
  by_cases hk : k ∈ m.entries.map Prod.fst
  · have h := sum_overwrite g v m.nodup hk
    simpa [total, values, insert, hk, get?] using h
  · have hnone := find?_eq_none_of_not_mem hk
    simp [total, values, insert, hk, get?, hnone]

theorem total_erase (m : OrderedMap κ ν) (k : κ) :
    (m.erase k).total g + (m.get? k).elim 0 g = m.total g := by
  obtain ⟨entries,hn⟩ := m
  induction entries with
  | nil => simp [total, values, erase, get?]
  | cons e rest ih =>
    obtain ⟨hfresh,hrest⟩ := List.nodup_cons.mp hn
    have hih := ih hrest
    simp only [total, values, erase, get?, List.map_map] at hih ⊢
    by_cases he : e.1 = k
    · have hnone := find?_eq_none_of_not_mem (he ▸ hfresh)
      rw [hnone] at hih
      simp only [Option.map_none, Option.elim_none, add_zero] at hih
      simp only [List.filter_cons, he, ne_eq, not_true, decide_false, List.find?_cons, decide_true,
        Option.map_some, Option.elim_some, List.map_cons, List.sum_cons, Function.comp_apply]
      rw [add_comm]
      exact congrArg _ hih
    · simp only [List.filter_cons, he, ne_eq, not_false_eq_true, decide_true, List.find?_cons,
        decide_false, if_true, List.map_cons, List.sum_cons]
      rw [add_assoc]
      exact congrArg _ hih

end Workers.OrderedMap
