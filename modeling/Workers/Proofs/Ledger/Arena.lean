import Mathlib.Algebra.BigOperators.Group.List.Basic
import Mathlib.Tactic.Abel
import Workers.Registry.Arena
/-! # The arena as a partial map

Looking up an address is the one view of an arena.  Every operation is described by what it does
to this view and to the contents it files, summed up in any commutative monoid.  `Arena.Sound` is
what makes the slots, the stack of free slots and the live counter agree.
-/
namespace Workers

namespace Arena

variable {τ : Type}

def Holds (a : Arena τ) (id : EntryId) (holder : Holder) : Prop :=
  ∃ e, a.find? id = some e ∧ holder ∈ e.holders

/-- The slots, the stack of free slots and the live counter agree, and the holders of an entry are
distinct and at least one. -/
structure Sound (a : Arena τ) : Prop where
  free_empty : ∀ i ∈ a.free, ∃ slot, a.slots[i]? = some slot ∧ slot.entry = none
  empty_free : ∀ i slot, a.slots[i]? = some slot → slot.entry = none → i ∈ a.free
  free_nodup : a.free.Nodup
  live_eq : a.live = a.occupied
  holders_nodup : ∀ id e, a.find? id = some e → e.holders.Nodup
  holders_ne_nil : ∀ id e, a.find? id = some e → e.holders ≠ []

def total {M : Type} [AddCommMonoid M] (g : τ → M) (a : Arena τ) : M :=
  (a.slots.toList.map fun slot => slot.entry.elim 0 fun e => g e.content).sum

theorem sound_empty : ({} : Arena τ).Sound where
  free_empty := by simp
  empty_free := by simp
  free_nodup := by simp
  live_eq := rfl
  holders_nodup := by simp [find?]
  holders_ne_nil := by simp [find?]

@[simp] theorem find?_empty (id : EntryId) : ({} : Arena τ).find? id = none := by simp [find?]

theorem occupied_eq_total (a : Arena τ) : a.occupied = a.total fun _ => (1 : ℕ) := by
  rw [occupied, countP_eq_foldr, total, List.sum_eq_foldr]
  congr 2
  funext slot
  cases slot.entry <;> rfl

theorem find?_of_slot {a : Arena τ} {id : EntryId} {slot : Slot τ}
    (hs : a.slots[id.index]? = some slot) :
    a.find? id = if slot.generation = id.generation then slot.entry else none := by
  simp [find?, hs]

theorem Holds.of_find? {a : Arena τ} {id : EntryId} {e : Entry τ} {holder : Holder}
    (he : a.find? id = some e) (hm : holder ∈ e.holders) : a.Holds id holder := ⟨e,he,hm⟩

theorem holds_iff {a : Arena τ} {id : EntryId} {e : Entry τ} (he : a.find? id = some e)
    (holder : Holder) :
    a.Holds id holder ↔ holder ∈ e.holders := by
  constructor
  · rintro ⟨e',he',hm⟩
    rw [he] at he'
    exact Option.some.inj he' ▸ hm
  · exact Holds.of_find? he

theorem not_holds {a : Arena τ} {id : EntryId} (he : a.find? id = none) (holder : Holder) :
    ¬ a.Holds id holder := by
  rintro ⟨e,he',_⟩
  rw [he] at he'
  cases he'

section Slot

variable {a : Arena τ} {id : EntryId} {slot : Slot τ}

theorem find?_setEntry (hs : a.slots[id.index]? = some slot) (hg : slot.generation = id.generation)
    (e' : Option (Entry τ)) (j : EntryId) :
    (a.setEntry id.index e').find? j = if j = id then e' else a.find? j := by
  by_cases hi : j.index = id.index
  · have hslot : (a.setEntry id.index e').slots[j.index]? = some { slot with entry := e' } := by
      simp [setEntry, Array.getElem?_modify, hi, hs]
    rw [find?_of_slot hslot, find?_of_slot (hi ▸ hs)]
    by_cases hj : j.generation = id.generation
    · have hjd : j = id := by cases j; cases id; simp_all
      simp [hjd, hg]
    · have hjd : j ≠ id := fun h => hj (h ▸ rfl)
      have hjs : slot.generation ≠ j.generation := fun h => hj (h.symm.trans hg)
      simp [hjd, hjs]
  · have hjd : j ≠ id := fun h => hi (h ▸ rfl)
    have hne : id.index ≠ j.index := fun h => hi h.symm
    simp [find?, setEntry, Array.getElem?_modify, hne, hjd]

theorem find?_vacate (hs : a.slots[id.index]? = some slot) (hg : slot.generation = id.generation)
    (j : EntryId) : (a.vacate id).find? j = if j = id then none else a.find? j := by
  by_cases hi : j.index = id.index
  · have hslot : (a.vacate id).slots[j.index]? = some ⟨slot.generation + 1,none⟩ := by
      simp [vacate, Array.getElem?_modify, hi, hs]
    rw [find?_of_slot hslot, find?_of_slot (hi ▸ hs)]
    by_cases hj : j.generation = id.generation
    · have hjd : j = id := by cases j; cases id; simp_all
      simp [hjd]
    · have hjd : j ≠ id := fun h => hj (h ▸ rfl)
      have hjs : slot.generation ≠ j.generation := fun h => hj (h.symm.trans hg)
      simp [hjd, hjs]
  · have hjd : j ≠ id := fun h => hi (h ▸ rfl)
    have hne : id.index ≠ j.index := fun h => hi h.symm
    simp [find?, vacate, Array.getElem?_modify, hne, hjd]

theorem total_setEntry {M : Type} [AddCommMonoid M] (g : τ → M) {i : Nat} (hs : a.slots[i]? = some slot)
    (e' : Option (Entry τ)) :
    (a.setEntry i e').total g + slot.entry.elim 0 (fun e => g e.content) =
      a.total g + e'.elim 0 fun e => g e.content := by
  simpa [total, setEntry, List.sum_eq_foldr] using
    foldr_map_modify (M := M) (· + ·) 0 (fun slot : Slot τ => slot.entry.elim 0 fun e => g e.content)
      (fun slot => { slot with entry := e' }) a.slots.toList i (by simpa using hs)

theorem total_vacate {M : Type} [AddCommMonoid M] (g : τ → M) (hs : a.slots[id.index]? = some slot) :
    (a.vacate id).total g + slot.entry.elim 0 (fun e => g e.content) = a.total g := by
  simpa [total, vacate, List.sum_eq_foldr] using
    foldr_map_modify (M := M) (· + ·) 0 (fun slot : Slot τ => slot.entry.elim 0 fun e => g e.content)
      (fun slot => ⟨slot.generation + 1,none⟩) a.slots.toList id.index (by simpa using hs)

end Slot

section Live

variable {a : Arena τ} {id : EntryId} {e : Entry τ}

theorem find?_setEntry_live (he : a.find? id = some e) (e' : Option (Entry τ)) (j : EntryId) :
    (a.setEntry id.index e').find? j = if j = id then e' else a.find? j := by
  obtain ⟨slot,hs,hg,_⟩ := find?_eq_some he
  exact find?_setEntry hs hg e' j

theorem find?_vacate_live (he : a.find? id = some e) (j : EntryId) :
    (a.vacate id).find? j = if j = id then none else a.find? j := by
  obtain ⟨slot,hs,hg,_⟩ := find?_eq_some he
  exact find?_vacate hs hg j

theorem total_setEntry_live {M : Type} [AddCommMonoid M] (g : τ → M) (he : a.find? id = some e)
    (e' : Entry τ) :
    (a.setEntry id.index (some e')).total g + g e.content = a.total g + g e'.content := by
  obtain ⟨slot,hs,_,hentry⟩ := find?_eq_some he
  simpa [hentry] using total_setEntry g hs (some e')

theorem total_vacate_live {M : Type} [AddCommMonoid M] (g : τ → M) (he : a.find? id = some e) :
    (a.vacate id).total g + g e.content = a.total g := by
  obtain ⟨slot,hs,_,hentry⟩ := find?_eq_some he
  simpa [hentry] using total_vacate g hs

theorem index_ne_of_empty (he : a.find? id = some e) {i : Nat} {slot : Slot τ}
    (hs : a.slots[i]? = some slot) (hn : slot.entry = none) : id.index ≠ i := by
  rintro rfl
  obtain ⟨slot',hs',_,hentry⟩ := find?_eq_some he
  rw [hs] at hs'
  cases hs'
  simp [hentry] at hn

theorem Sound.setEntry (ha : a.Sound) (he : a.find? id = some e) {e' : Entry τ}
    (hn : e'.holders.Nodup) (hne : e'.holders ≠ []) : (a.setEntry id.index (some e')).Sound := by
  refine ⟨?_,?_,ha.free_nodup,?_,?_,?_⟩
  · intro i hi
    obtain ⟨slot,hs,hempty⟩ := ha.free_empty i hi
    have hne := index_ne_of_empty he hs hempty
    exact ⟨slot,by simp [Arena.setEntry, Array.getElem?_modify, hne, hs],hempty⟩
  · intro i slot hs hempty
    simp only [Arena.setEntry, Array.getElem?_modify] at hs
    by_cases hi : id.index = i
    · simp only [hi, if_true, Option.map_eq_some_iff] at hs
      obtain ⟨_,_,rfl⟩ := hs
      cases hempty
    · rw [if_neg hi] at hs
      exact ha.empty_free i slot hs hempty
  · have h := total_setEntry_live (fun _ => (1 : ℕ)) he e'
    simp only [← occupied_eq_total] at h
    have hl := ha.live_eq
    change a.live = _
    omega
  · intro j f hf
    rw [find?_setEntry_live he] at hf
    split at hf
    · cases hf; exact hn
    · exact ha.holders_nodup j f hf
  · intro j f hf
    rw [find?_setEntry_live he] at hf
    split at hf
    · cases hf; exact hne
    · exact ha.holders_ne_nil j f hf

theorem Sound.vacate (ha : a.Sound) (he : a.find? id = some e) : (a.vacate id).Sound := by
  obtain ⟨slot,hs,_,hentry⟩ := find?_eq_some he
  refine ⟨?_,?_,?_,?_,?_,?_⟩
  · intro i hi
    rcases List.mem_cons.mp hi with rfl | hi
    · exact ⟨⟨slot.generation + 1,none⟩,by simp [Arena.vacate, Array.getElem?_modify, hs],rfl⟩
    · obtain ⟨slot',hs',hempty⟩ := ha.free_empty i hi
      have hne := index_ne_of_empty he hs' hempty
      exact ⟨slot',by simp [Arena.vacate, Array.getElem?_modify, hne, hs'],hempty⟩
  · intro i slot' hs' hempty
    simp only [Arena.vacate, Array.getElem?_modify] at hs'
    by_cases hi : id.index = i
    · exact List.mem_cons.mpr (.inl hi.symm)
    · rw [if_neg hi] at hs'
      exact List.mem_cons_of_mem _ (ha.empty_free i slot' hs' hempty)
  · refine List.nodup_cons.mpr ⟨?_,ha.free_nodup⟩
    intro hi
    obtain ⟨slot',hs',hempty⟩ := ha.free_empty _ hi
    exact index_ne_of_empty he hs' hempty rfl
  · have h := total_vacate_live (fun _ => (1 : ℕ)) he
    simp only [← occupied_eq_total] at h
    have hl := ha.live_eq
    change a.live - 1 = _
    omega
  · intro j f hf
    rw [find?_vacate_live he] at hf
    split at hf
    · cases hf
    · exact ha.holders_nodup j f hf
  · intro j f hf
    rw [find?_vacate_live he] at hf
    split at hf
    · cases hf
    · exact ha.holders_ne_nil j f hf

end Live

section Create

variable {a : Arena τ} (c : τ) (holder : Holder)

theorem create_of_free {i : Nat} {rest : List Nat} {slot : Slot τ} (hf : a.free = i :: rest)
    (hs : a.slots[i]? = some slot) :
    a.create c holder = (⟨i,slot.generation⟩,
      { a.setEntry i (some ⟨c,[holder]⟩) with free := rest, live := a.live + 1 }) := by
  simp [create, hf, hs]

theorem create_of_full (hf : a.free = []) :
    a.create c holder = (⟨a.slots.size,0⟩,
      { a with slots := a.slots.push ⟨0,some ⟨c,[holder]⟩⟩, live := a.live + 1 }) := by
  simp [create, hf]

theorem find?_push (slot : Slot τ) (j : EntryId) :
    ({ a with slots := a.slots.push slot, live := a.live + 1 } : Arena τ).find? j =
      if j.index = a.slots.size then (if slot.generation = j.generation then slot.entry else none)
      else a.find? j := by
  by_cases hj : j.index = a.slots.size
  · simp [find?, hj]
  · simp [find?, Array.getElem?_push, hj]

/-- The address of a new entry finds nothing before. -/
theorem find?_create_before (ha : a.Sound) : a.find? (a.create c holder).1 = none := by
  cases hf : a.free with
  | nil => simp [create_of_full c holder hf, find?]
  | cons i rest =>
    obtain ⟨slot,hs,hempty⟩ := ha.free_empty i (hf ▸ List.mem_cons_self)
    rw [create_of_free c holder hf hs, find?_of_slot hs, hempty]
    simp

theorem find?_create (ha : a.Sound) (j : EntryId) :
    (a.create c holder).2.find? j =
      if j = (a.create c holder).1 then some ⟨c,[holder]⟩ else a.find? j := by
  cases hf : a.free with
  | nil =>
    rw [create_of_full c holder hf]
    refine (find?_push _ j).trans ?_
    by_cases hj : j.index = a.slots.size
    · by_cases hg : 0 = j.generation
      · have hjd : j = ⟨a.slots.size,0⟩ := by cases j; simp_all
        simp [hjd]
      · have hjd : j ≠ ⟨a.slots.size,0⟩ := by rintro rfl; exact hg rfl
        simp [hj, hg, hjd, find?]
    · have hjd : j ≠ ⟨a.slots.size,0⟩ := by rintro rfl; exact hj rfl
      simp [hj, hjd]
  | cons i rest =>
    obtain ⟨slot,hs,_⟩ := ha.free_empty i (hf ▸ List.mem_cons_self)
    rw [create_of_free c holder hf hs]
    exact @find?_setEntry _ _ ⟨i,slot.generation⟩ _ hs rfl _ j

theorem total_create {M : Type} [AddCommMonoid M] (g : τ → M) (ha : a.Sound) :
    (a.create c holder).2.total g = a.total g + g c := by
  cases hf : a.free with
  | nil => simp [create_of_full c holder hf, total]
  | cons i rest =>
    obtain ⟨slot,hs,hempty⟩ := ha.free_empty i (hf ▸ List.mem_cons_self)
    rw [create_of_free c holder hf hs]
    have h := total_setEntry g hs (some ⟨c,[holder]⟩)
    rw [hempty, Option.elim_none, add_zero] at h
    exact h

theorem holders_create (ha : a.Sound) (j : EntryId) (e : Entry τ)
    (he : (a.create c holder).2.find? j = some e) : e.holders.Nodup ∧ e.holders ≠ [] := by
  rw [find?_create c holder ha] at he
  split at he
  · cases he; simp
  · exact ⟨ha.holders_nodup j e he,ha.holders_ne_nil j e he⟩

theorem live_create (ha : a.Sound) : (a.create c holder).2.live = (a.create c holder).2.occupied := by
  have htotal := total_create c holder (fun _ => (1 : ℕ)) ha
  simp only [← occupied_eq_total] at htotal
  have hlive : (a.create c holder).2.live = a.live + 1 := by
    unfold create
    split <;> rfl
  rw [hlive, htotal, ha.live_eq]

theorem free_create_of_full (hf : a.free = []) (ha : a.Sound) :
    ∀ (k : Nat) (slot : Slot τ), (a.create c holder).2.slots[k]? = some slot → slot.entry ≠ none := by
  rw [create_of_full c holder hf]
  intro k slot hs hempty
  simp only [Array.getElem?_push] at hs
  split at hs
  · cases hs; cases hempty
  · have hmem := ha.empty_free k slot hs hempty
    rw [hf] at hmem
    cases hmem

theorem slots_create_of_free {i : Nat} {rest : List Nat} (hf : a.free = i :: rest) (ha : a.Sound)
    {k : Nat} (hk : i ≠ k) : (a.create c holder).2.slots[k]? = a.slots[k]? := by
  obtain ⟨slot,hs,_⟩ := ha.free_empty i (hf ▸ List.mem_cons_self)
  rw [create_of_free c holder hf hs]
  simp [setEntry, Array.getElem?_modify, hk]

theorem Sound.create (ha : a.Sound) : (a.create c holder).2.Sound := by
  refine ⟨?_,?_,?_,live_create c holder ha,fun j e he => (holders_create c holder ha j e he).1,
    fun j e he => (holders_create c holder ha j e he).2⟩
  · cases hf : a.free with
    | nil => simp [create_of_full c holder hf, hf]
    | cons i rest =>
      intro k hk
      have hfree : (a.create c holder).2.free = rest := by simp [Arena.create, hf]
      rw [hfree] at hk
      have hne : i ≠ k := fun h => (List.nodup_cons.mp (hf ▸ ha.free_nodup)).1 (h ▸ hk)
      obtain ⟨slot,hs,hempty⟩ := ha.free_empty k (hf ▸ List.mem_cons_of_mem i hk)
      exact ⟨slot,(slots_create_of_free c holder hf ha hne).trans hs,hempty⟩
  · intro k slot hs hempty
    cases hf : a.free with
    | nil => exact absurd hempty (free_create_of_full c holder hf ha k slot hs)
    | cons i rest =>
      have hfree : (a.create c holder).2.free = rest := by simp [Arena.create, hf]
      rw [hfree]
      by_cases hk : i = k
      · subst hk
        obtain ⟨old,hold,_⟩ := ha.free_empty i (hf ▸ List.mem_cons_self)
        rw [create_of_free c holder hf hold] at hs
        simp only [Arena.setEntry, Array.getElem?_modify, if_true, hold] at hs
        cases hs
        cases hempty
      · rw [slots_create_of_free c holder hf ha hk] at hs
        have hmem := ha.empty_free k slot hs hempty
        rw [hf] at hmem
        exact (List.mem_cons.mp hmem).resolve_left fun h => hk h.symm
  · cases hf : a.free with
    | nil => simp [create_of_full c holder hf, hf]
    | cons i rest =>
      have hfree : (a.create c holder).2.free = rest := by simp [Arena.create, hf]
      rw [hfree]
      exact (List.nodup_cons.mp (hf ▸ ha.free_nodup)).2

theorem holds_create (ha : a.Sound) (j : EntryId) (k : Holder) :
    (a.create c holder).2.Holds j k ↔ a.Holds j k ∨ (j = (a.create c holder).1 ∧ k = holder) := by
  unfold Holds
  rw [find?_create c holder ha]
  by_cases hj : j = (a.create c holder).1
  · subst hj
    simp [find?_create_before c holder ha]
  · simp [hj]

end Create

section Holders

variable {a b : Arena τ} {id : EntryId} {e : Entry τ} {holder : Holder}

theorem addReference_eq_error {fault : Fault} (h : a.addReference id holder = .error fault) :
    fault = .brokenReference ∧ a.find? id = none := by
  unfold addReference at h
  split at h
  · split at h <;> cases h
  · cases h
    exact ⟨rfl,‹_›⟩

theorem addReference_eq_ok (h : a.addReference id holder = .ok b) :
    ∃ e, a.find? id = some e ∧ (holder ∈ e.holders ∧ b = a ∨
      holder ∉ e.holders ∧ b = a.setEntry id.index
        (some { e with holders := e.holders ++ [holder] })) := by
  unfold addReference at h
  split at h
  · rename_i e he
    split at h
    · cases h; exact ⟨e,he,.inl ⟨‹_›,rfl⟩⟩
    · cases h; exact ⟨e,he,.inr ⟨‹_›,rfl⟩⟩
  · cases h

theorem Sound.addReference (ha : a.Sound) (h : a.addReference id holder = .ok b) : b.Sound := by
  obtain ⟨e,he,⟨_,rfl⟩ | ⟨hm,rfl⟩⟩ := addReference_eq_ok h
  · exact ha
  · refine ha.setEntry he ?_ (by simp)
    have hn := ha.holders_nodup id e he
    exact List.nodup_append.mpr ⟨hn,by simp,by rintro x hx y hy rfl; simp_all⟩

theorem holds_addReference (h : a.addReference id holder = .ok b) (j : EntryId) (k : Holder) :
    b.Holds j k ↔ a.Holds j k ∨ (j = id ∧ k = holder) := by
  obtain ⟨e,he,⟨hm,rfl⟩ | ⟨hm,rfl⟩⟩ := addReference_eq_ok h
  · constructor
    · exact .inl
    · rintro (h | ⟨rfl,rfl⟩)
      · exact h
      · exact ⟨e,he,hm⟩
  · unfold Holds
    rw [find?_setEntry_live he]
    by_cases hj : j = id
    · subst hj; simp [he]
    · simp [hj]

theorem total_addReference {M : Type} [AddCancelCommMonoid M] (g : τ → M)
    (h : a.addReference id holder = .ok b) : b.total g = a.total g := by
  obtain ⟨e,he,⟨_,rfl⟩ | ⟨_,rfl⟩⟩ := addReference_eq_ok h
  · rfl
  · exact add_right_cancel (total_setEntry_live g he _)

/-- Removing a registered holder empties the slot if it was the only one. -/
theorem detach_of_holds (he : a.find? id = some e) (hm : holder ∈ e.holders) :
    (e.holders = [holder] ∧ a.detach id holder = (some e.content,a.vacate id)) ∨
      (e.holders.erase holder ≠ [] ∧ a.detach id holder =
        (none,a.setEntry id.index (some { e with holders := e.holders.erase holder }))) := by
  by_cases hrest : e.holders.erase holder = []
  · refine .inl ⟨?_,by simp [detach, he, hm, hrest]⟩
    have hlen := List.length_erase_of_mem hm
    rw [hrest] at hlen
    obtain ⟨k,hk⟩ := List.length_eq_one_iff.mp
      (show e.holders.length = 1 by have := List.length_pos_of_mem hm; simp at hlen; omega)
    rw [hk] at hm ⊢
    rw [List.mem_singleton.mp hm]
  · exact .inr ⟨hrest,by simp [detach, he, hm, hrest]⟩

theorem detach_of_not_holds (h : ¬ a.Holds id holder) : a.detach id holder = (none,a) := by
  unfold detach
  split
  · rename_i e he
    have hm : holder ∉ e.holders := fun hm => h ⟨e,he,hm⟩
    simp [hm]
  · rfl

theorem Sound.detach (ha : a.Sound) : (a.detach id holder).2.Sound := by
  by_cases h : a.Holds id holder
  · obtain ⟨e,he,hm⟩ := h
    rcases detach_of_holds he hm with ⟨_,hd⟩ | ⟨hne,hd⟩
    · rw [hd]; exact ha.vacate he
    · rw [hd]; exact ha.setEntry he ((ha.holders_nodup id e he).erase holder) hne
  · rw [detach_of_not_holds h]; exact ha

theorem holds_detach (ha : a.Sound) (j : EntryId) (k : Holder) :
    (a.detach id holder).2.Holds j k ↔ a.Holds j k ∧ ¬ (j = id ∧ k = holder) := by
  by_cases h : a.Holds id holder
  · obtain ⟨e,he,hm⟩ := h
    rcases detach_of_holds he hm with ⟨hone,hd⟩ | ⟨_,hd⟩
    · rw [hd]
      unfold Holds
      rw [find?_vacate_live he]
      by_cases hj : j = id
      · subst hj; simp [he, hone]
      · simp [hj]
    · rw [hd]
      unfold Holds
      rw [find?_setEntry_live he]
      by_cases hj : j = id
      · subst hj
        simp [he, (ha.holders_nodup j e he).mem_erase_iff, and_comm]
      · simp [hj]
  · rw [detach_of_not_holds h]
    refine ⟨fun hk => ⟨hk,?_⟩,And.left⟩
    rintro ⟨rfl,rfl⟩
    exact h hk

/-- What a release frees is taken out of the total. -/
theorem total_detach {M : Type} [AddCancelCommMonoid M] (g : τ → M) :
    (a.detach id holder).2.total g + (a.detach id holder).1.elim 0 g = a.total g := by
  by_cases h : a.Holds id holder
  · obtain ⟨e,he,hm⟩ := h
    rcases detach_of_holds he hm with ⟨_,hd⟩ | ⟨_,hd⟩
    · rw [hd]
      exact total_vacate_live g he
    · rw [hd]
      exact (add_zero _).trans (add_right_cancel (total_setEntry_live g he _))
  · rw [detach_of_not_holds h]
    exact add_zero _

end Holders

section Content

variable {a : Arena τ} {id : EntryId} {e : Entry τ} (c : τ)

theorem setContent_of_find? (he : a.find? id = some e) :
    a.setContent id c = a.setEntry id.index (some { e with content := c }) := by
  simp [setContent, he]

theorem Sound.setContent (ha : a.Sound) : (a.setContent id c).Sound := by
  cases he : a.find? id with
  | none => simpa [Arena.setContent, he] using ha
  | some e =>
    rw [setContent_of_find? c he]
    exact ha.setEntry he (ha.holders_nodup id e he) (ha.holders_ne_nil id e he)

theorem holds_setContent (j : EntryId) (k : Holder) : (a.setContent id c).Holds j k ↔ a.Holds j k := by
  cases he : a.find? id with
  | none => simp [setContent, he]
  | some e =>
    rw [setContent_of_find? c he]
    unfold Holds
    rw [find?_setEntry_live he]
    by_cases hj : j = id
    · subst hj; simp [he]
    · simp [hj]

theorem total_setContent {M : Type} [AddCommMonoid M] (g : τ → M) (he : a.find? id = some e) :
    (a.setContent id c).total g + g e.content = a.total g + g c := by
  rw [setContent_of_find? c he]
  exact total_setEntry_live g he _

end Content

end Arena

end Workers
