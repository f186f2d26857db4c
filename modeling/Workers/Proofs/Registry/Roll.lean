import Mathlib.Data.Finset.Card
import Workers.Proofs.Ledger.Arena
/-! # Names that are never used again

A roll keeps one line for every entry ever created.  The number of the line is the name of the
entry: it is given out once, and the line is struck when the last holder leaves.  An arena mirrors a
roll along the list of the ids that its creates returned.  It can do so because a slot counts one
generation for every entry it has had, so that no id comes back before the generations run out.
-/
namespace Workers

structure Roll.Line (τ : Type) where
  content : τ
  holders : Finset Holder

def Entry.line {τ : Type} (e : Entry τ) : Roll.Line τ := ⟨e.content,e.holders.toFinset⟩

/-- The entries by their names, which are the numbers of the creates; nothing where an entry has been
forgotten. -/
structure Roll (τ : Type) where
  lines : List (Option (Roll.Line τ)) := []

namespace Roll

variable {τ : Type}

def find? (roll : Roll τ) (name : Nat) : Option (Line τ) := (roll.lines[name]?).join

def setLine (roll : Roll τ) (name : Nat) (line : Option (Line τ)) : Roll τ := ⟨roll.lines.set name line⟩

def create (roll : Roll τ) (content : τ) (holder : Holder) : Nat × Roll τ :=
  (roll.lines.length,⟨roll.lines ++ [some ⟨content,{holder}⟩]⟩)

def addReference (roll : Roll τ) (name : Nat) (holder : Holder) : Except Fault (Roll τ) :=
  match roll.find? name with
  | some k => .ok (roll.setLine name (some { k with holders := insert holder k.holders }))
  | none => .error .brokenReference

def release (roll : Roll τ) (name : Nat) (holder : Holder) : Bool × Roll τ :=
  match roll.find? name with
  | some k =>
    if k.holders.erase holder = ∅ then (true,roll.setLine name none)
    else (false,roll.setLine name (some { k with holders := k.holders.erase holder }))
  | none => (false,roll)

def releaseAll (roll : Roll τ) (holder : Holder) (names : List Nat) : Roll τ :=
  names.foldl (fun roll name => (roll.release name holder).2) roll

def referenceCount (roll : Roll τ) (name : Nat) : Nat :=
  ((roll.find? name).map fun k => k.holders.card).getD 0

def live (roll : Roll τ) : Nat := roll.lines.countP Option.isSome

def content (roll : Roll τ) (name : Nat) : Except Fault τ :=
  match roll.find? name with
  | some k => .ok k.content
  | none => .error .brokenReference

def setContent (roll : Roll τ) (name : Nat) (content : τ) : Roll τ :=
  match roll.find? name with
  | some k => roll.setLine name (some { k with content })
  | none => roll

theorem lt_of_find? {roll : Roll τ} {name : Nat} {k : Line τ} (hk : roll.find? name = some k) :
    name < roll.lines.length := by
  by_contra hn
  simp [find?, List.getElem?_eq_none (Nat.le_of_not_lt hn)] at hk

theorem line_of_find? {roll : Roll τ} {name : Nat} {k : Line τ} (hk : roll.find? name = some k) :
    roll.lines[name]? = some (some k) := by
  simpa [find?, Option.join_eq_some_iff] using hk

theorem find?_setLine {roll : Roll τ} {name : Nat} (hn : name < roll.lines.length)
    (line : Option (Line τ)) (other : Nat) :
    (roll.setLine name line).find? other = if other = name then line else roll.find? other := by
  unfold find? setLine
  by_cases ho : other = name
  · subst ho
    simp [hn]
  · rw [List.getElem?_set_ne (Ne.symm ho), if_neg ho]

theorem find?_create (roll : Roll τ) (content : τ) (holder : Holder) (name : Nat) :
    (roll.create content holder).2.find? name =
      if name = roll.lines.length then some ⟨content,{holder}⟩ else roll.find? name := by
  unfold find? create
  by_cases hn : name = roll.lines.length
  · simp [hn]
  · rcases Nat.lt_or_gt_of_ne hn with hlt | hgt
    · simp [List.getElem?_append_left hlt, hn]
    · rw [List.getElem?_eq_none (by simp; omega), List.getElem?_eq_none (by omega), if_neg hn]

theorem live_setLine {roll : Roll τ} {name : Nat} {k : Line τ} (hk : roll.find? name = some k)
    (line : Option (Line τ)) :
    (roll.setLine name line).live + 1 = roll.live + line.isSome.toNat := by
  have hn := lt_of_find? hk
  have hline : roll.lines[name] = some k := by
    simpa [List.getElem?_eq_getElem hn] using line_of_find? hk
  have hpos : 0 < roll.lines.countP Option.isSome :=
    List.countP_pos_iff.mpr ⟨some k,hline ▸ List.getElem_mem hn,rfl⟩
  unfold live setLine
  rw [List.countP_set hn, hline]
  cases line <;> simp <;> omega

theorem setLine_self {roll : Roll τ} {name : Nat} {k : Line τ} (hk : roll.find? name = some k) :
    roll.setLine name (some k) = roll := by
  obtain ⟨hlt,hget⟩ := List.getElem?_eq_some_iff.mp (line_of_find? hk)
  simp [setLine, ← hget]

theorem release_of_none {roll : Roll τ} {name : Nat} (hn : roll.find? name = none) (holder : Holder) :
    roll.release name holder = (false,roll) := by simp [release, hn]

end Roll

namespace Arena

variable {τ : Type}

def uses (slot : Slot τ) : Nat := slot.generation.toNat + slot.entry.isSome.toNat

/-- The ids that the creates have returned so far: a slot has had one entry for each of its ids, and
their generations are those below the count. -/
structure Issued (a : Arena τ) (ids : List EntryId) : Prop where
  nodup : ids.Nodup
  known : ∀ id e, a.find? id = some e → id ∈ ids
  counted : ∀ i slot, a.slots[i]? = some slot → ids.countP (fun id => id.index = i) = uses slot
  dated : ∀ id ∈ ids, ∃ slot, a.slots[id.index]? = some slot ∧ id.generation.toNat < uses slot

theorem issued_empty : ({} : Arena τ).Issued [] where
  nodup := List.nodup_nil
  known := by simp
  counted := by simp
  dated := by simp

namespace Issued

variable {a : Arena τ} {ids : List EntryId} {id : EntryId} {e : Entry τ}

theorem find?_of_not_mem (h : a.Issued ids) (hid : id ∉ ids) : a.find? id = none := by
  cases hf : a.find? id with
  | none => rfl
  | some e => exact absurd (h.known id e hf) hid

/-- Rewriting the entry of a live id issues nothing. -/
theorem setEntry (h : a.Issued ids) (he : a.find? id = some e) (e' : Entry τ) :
    (a.setEntry id.index (some e')).Issued ids := by
  obtain ⟨slot,hs,hg,hentry⟩ := find?_eq_some he
  refine ⟨h.nodup,?_,?_,?_⟩
  · intro j f hf
    rw [find?_setEntry_live he] at hf
    split at hf
    · rename_i hj
      exact hj ▸ h.known id e he
    · exact h.known j f hf
  · intro i slot' hs'
    simp only [Arena.setEntry, Array.getElem?_modify] at hs'
    split at hs'
    · rename_i hi
      subst hi
      rw [hs] at hs'
      cases hs'
      rw [h.counted _ slot hs]
      simp [uses, hentry]
    · exact h.counted i slot' hs'
  · intro j hj
    obtain ⟨slot',hs',hlt⟩ := h.dated j hj
    by_cases hi : id.index = j.index
    · have hslot : slot' = slot := by rw [← hi, hs] at hs'; exact (Option.some.inj hs').symm
      subst hslot
      refine ⟨{ slot' with entry := some e' },
        by simp [Arena.setEntry, Array.getElem?_modify, hi, hs'],?_⟩
      simpa [uses, hentry] using hlt
    · exact ⟨slot',by simp [Arena.setEntry, Array.getElem?_modify, hi, hs'],hlt⟩

/-- The generation of a slot that is vacated does not run out: the ids of the slot are that many. -/
theorem uses_vacated (h : a.Issued ids) (hfew : ids.length < 2 ^ 32) {i : Nat} {slot : Slot τ}
    (hs : a.slots[i]? = some slot) (hentry : slot.entry.isSome = true) :
    uses (⟨slot.generation + 1,none⟩ : Slot τ) = uses slot := by
  have hcount := h.counted i slot hs
  have hle : ids.countP (fun id => id.index = i) ≤ ids.length := List.countP_le_length
  simp only [uses, hentry, Bool.toNat_true] at hcount ⊢
  have hsmall : slot.generation.toNat + 1 < 2 ^ 32 := by omega
  simpa [UInt32.toNat_add] using hsmall

theorem vacate (h : a.Issued ids) (hfew : ids.length < 2 ^ 32) (he : a.find? id = some e) :
    (a.vacate id).Issued ids := by
  obtain ⟨slot,hs,hg,hentry⟩ := find?_eq_some he
  have huses := h.uses_vacated hfew hs (by simp [hentry])
  refine ⟨h.nodup,?_,?_,?_⟩
  · intro j f hf
    rw [find?_vacate_live he] at hf
    split at hf
    · cases hf
    · exact h.known j f hf
  · intro i slot' hs'
    simp only [Arena.vacate, Array.getElem?_modify] at hs'
    split at hs'
    · rename_i hi
      subst hi
      rw [hs] at hs'
      cases hs'
      rw [h.counted _ slot hs, huses]
    · exact h.counted i slot' hs'
  · intro j hj
    obtain ⟨slot',hs',hlt⟩ := h.dated j hj
    by_cases hi : id.index = j.index
    · have hslot : slot' = slot := by rw [← hi, hs] at hs'; exact (Option.some.inj hs').symm
      subst hslot
      exact ⟨_,by simp [Arena.vacate, Array.getElem?_modify, hi, hs'],huses ▸ hlt⟩
    · exact ⟨slot',by simp [Arena.vacate, Array.getElem?_modify, hi, hs'],hlt⟩

/-- The id that a create returns has not been issued before. -/
theorem fresh (h : a.Issued ids) (ha : a.Sound) (content : τ) (holder : Holder) :
    (a.create content holder).1 ∉ ids := by
  intro hid
  obtain ⟨slot,hs,hlt⟩ := h.dated _ hid
  cases hf : a.free with
  | nil =>
    rw [create_of_full content holder hf] at hs
    simp at hs
  | cons i rest =>
    obtain ⟨old,hold,hempty⟩ := ha.free_empty i (hf ▸ List.mem_cons_self)
    rw [create_of_free content holder hf hold] at hs hlt
    rw [hold] at hs
    cases hs
    simp [uses, hempty] at hlt

/-- A create counts for the slot that it fills, a new one or a free one. -/
theorem counted_create (h : a.Issued ids) (ha : a.Sound) (content : τ) (holder : Holder) {i : Nat}
    {slot : Slot τ} (hs : (a.create content holder).2.slots[i]? = some slot) :
    (ids ++ [(a.create content holder).1]).countP (fun id => id.index = i) = uses slot := by
  cases hf : a.free with
  | nil =>
    rw [create_of_full content holder hf] at hs ⊢
    simp only [Array.getElem?_push] at hs
    split at hs
    · rename_i hi
      subst hi
      cases hs
      have hnone : ids.countP (fun id => id.index = a.slots.size) = 0 := by
        rw [List.countP_eq_zero]
        intro id hid
        obtain ⟨slot',hs',_⟩ := h.dated id hid
        have hlt := (Array.getElem?_eq_some_iff.mp hs').1
        simp; omega
      simp [List.countP_append, hnone, uses]
    · rename_i hi
      have hne : ¬ a.slots.size = i := fun h => hi h.symm
      rw [List.countP_append, h.counted i slot hs]
      simp [hne]
  | cons k rest =>
    obtain ⟨old,hold,hempty⟩ := ha.free_empty k (hf ▸ List.mem_cons_self)
    by_cases hk : k = i
    · subst hk
      rw [create_of_free content holder hf hold] at hs ⊢
      simp only [Arena.setEntry, Array.getElem?_modify, if_true, hold] at hs
      cases hs
      rw [List.countP_append, h.counted k old hold]
      simp [uses, hempty]
    · rw [slots_create_of_free content holder hf ha hk] at hs
      rw [create_of_free content holder hf hold, List.countP_append, h.counted i slot hs]
      simp [hk]

/-- The ids issued before a create stay dated. -/
theorem dated_create (h : a.Issued ids) (ha : a.Sound) (content : τ) (holder : Holder)
    (hid : id ∈ ids) :
    ∃ slot, (a.create content holder).2.slots[id.index]? = some slot ∧
    id.generation.toNat < uses slot := by
  obtain ⟨slot,hs,hlt⟩ := h.dated id hid
  cases hf : a.free with
  | nil =>
    rw [create_of_full content holder hf]
    have hlt' := (Array.getElem?_eq_some_iff.mp hs).1
    exact ⟨slot,by simp [Array.getElem?_push, Nat.ne_of_lt hlt', hs],hlt⟩
  | cons k rest =>
    by_cases hk : k = id.index
    · obtain ⟨old,hold,hempty⟩ := ha.free_empty k (hf ▸ List.mem_cons_self)
      rw [create_of_free content holder hf hold]
      rw [← hk, hold] at hs
      cases hs
      refine ⟨{ slot with entry := some ⟨content,[holder]⟩ },?_,?_⟩
      · rw [← hk]
        simp [Arena.setEntry, Array.getElem?_modify, hold]
      · simp only [uses, hempty, Option.isSome_none, Bool.toNat_false, Option.isSome_some,
          Bool.toNat_true] at hlt ⊢
        omega
    · exact ⟨slot,(slots_create_of_free content holder hf ha hk).trans hs,hlt⟩

theorem create (h : a.Issued ids) (ha : a.Sound) (content : τ) (holder : Holder) :
    (a.create content holder).2.Issued (ids ++ [(a.create content holder).1]) where
  nodup := List.nodup_append.mpr ⟨h.nodup,by simp,by
    rintro x hx y hy rfl
    exact h.fresh ha content holder (List.mem_singleton.mp hy ▸ hx)⟩
  known j f hf := by
    rw [Arena.find?_create content holder ha] at hf
    split at hf
    · rename_i hj
      simp [hj]
    · exact List.mem_append_left _ (h.known j f hf)
  counted _ _ := h.counted_create ha content holder
  dated j hj := by
    rcases List.mem_append.mp hj with hj | hj
    · exact h.dated_create ha content holder hj
    · rw [List.mem_singleton] at hj
      subst hj
      obtain ⟨slot,hs,hg,hentry⟩ :=
        find?_eq_some ((Arena.find?_create content holder ha _).trans (if_pos rfl))
      exact ⟨slot,hs,by simp [uses, hentry, hg]⟩

end Issued

/-- The arena keeps under the k-th id issued what the roll keeps under the name k. -/
structure Mirrors (a : Arena τ) (roll : Roll τ) (ids : List EntryId) : Prop where
  sound : a.Sound
  issued : a.Issued ids
  length_eq : roll.lines.length = ids.length
  same : ∀ k id, ids[k]? = some id → roll.find? k = (a.find? id).map Entry.line
  live_eq : roll.live = a.live

theorem mirrors_empty : ({} : Arena τ).Mirrors {} [] where
  sound := sound_empty
  issued := issued_empty
  length_eq := rfl
  same := by simp
  live_eq := rfl

namespace Mirrors

variable {a b : Arena τ} {roll : Roll τ} {ids : List EntryId} {id : EntryId} {e : Entry τ}
    {holder : Holder}

/-- Looking up an id is looking up its name; an id that was not issued has none. -/
theorem find? (h : a.Mirrors roll ids) (id : EntryId) :
    roll.find? (ids.idxOf id) = (a.find? id).map Entry.line := by
  by_cases hid : id ∈ ids
  · exact h.same _ id (List.getElem?_idxOf hid)
  · rw [h.issued.find?_of_not_mem hid, List.idxOf_eq_length hid, ← h.length_eq]
    simp [Roll.find?]

theorem find?_of_some (h : a.Mirrors roll ids) (he : a.find? id = some e) :
    roll.find? (ids.idxOf id) = some e.line := by rw [h.find? id, he]; rfl

theorem find?_of_none (h : a.Mirrors roll ids) (he : a.find? id = none) :
    roll.find? (ids.idxOf id) = none := by rw [h.find? id, he]; rfl

theorem name_ne {k : Nat} {j : EntryId} (hj : ids[k]? = some j) (hne : j ≠ id) :
    k ≠ ids.idxOf id := by
  rintro rfl
  have hid : id ∈ ids := by
    by_contra hid
    rw [List.idxOf_eq_length hid] at hj
    simp at hj
  rw [List.getElem?_idxOf hid] at hj
  exact hne (Option.some.inj hj).symm

theorem name_eq (h : a.Mirrors roll ids) {k : Nat} (hk : ids[k]? = some id) : ids.idxOf id = k := by
  obtain ⟨hlt,rfl⟩ := List.getElem?_eq_some_iff.mp hk
  exact h.issued.nodup.idxOf_getElem k hlt

theorem setEntry (h : a.Mirrors roll ids) (he : a.find? id = some e) (e' : Entry τ)
    (hn : e'.holders.Nodup) (hne : e'.holders ≠ []) :
    (a.setEntry id.index (some e')).Mirrors (roll.setLine (ids.idxOf id) (some e'.line)) ids := by
  have hfound := h.find?_of_some he
  have hlt := Roll.lt_of_find? hfound
  refine ⟨h.sound.setEntry he hn hne,h.issued.setEntry he e',by simp [Roll.setLine, h.length_eq],?_,?_⟩
  · intro k j hj
    rw [Roll.find?_setLine hlt, find?_setEntry_live he]
    by_cases hji : j = id
    · subst hji
      simp [h.name_eq hj]
    · simp [hji, name_ne hj hji, h.same k j hj]
  · have hlive := Roll.live_setLine hfound (some e'.line)
    have := h.live_eq
    simp only [Option.isSome_some, Bool.toNat_true] at hlive
    change _ = a.live
    omega

theorem vacate (h : a.Mirrors roll ids) (hfew : ids.length < 2 ^ 32) (he : a.find? id = some e) :
    (a.vacate id).Mirrors (roll.setLine (ids.idxOf id) none) ids := by
  have hfound := h.find?_of_some he
  have hlt := Roll.lt_of_find? hfound
  refine ⟨h.sound.vacate he,h.issued.vacate hfew he,by simp [Roll.setLine, h.length_eq],?_,?_⟩
  · intro k j hj
    rw [Roll.find?_setLine hlt, find?_vacate_live he]
    by_cases hji : j = id
    · subst hji
      simp [h.name_eq hj]
    · simp [hji, name_ne hj hji, h.same k j hj]
  · have hlive := Roll.live_setLine hfound none
    have := h.live_eq
    simp only [Option.isSome_none, Bool.toNat_false] at hlive
    change _ = a.live - 1
    omega

/-- A create returns an id not issued before, which stands for the name given out. -/
theorem create (h : a.Mirrors roll ids) (content : τ) (holder : Holder) :
    (a.create content holder).2.Mirrors (roll.create content holder).2
      (ids ++ [(a.create content holder).1]) := by
  have hfresh := h.issued.fresh h.sound content holder
  refine ⟨h.sound.create content holder,h.issued.create h.sound content holder,
    by simp [Roll.create, h.length_eq],?_,?_⟩
  · intro k j hj
    rw [Roll.find?_create, Arena.find?_create content holder h.sound, h.length_eq]
    rcases Nat.lt_trichotomy k ids.length with hlt | rfl | hgt
    · rw [List.getElem?_append_left hlt] at hj
      have hne : j ≠ (a.create content holder).1 := fun hj' => hfresh (hj' ▸ List.mem_of_getElem? hj)
      simp [Nat.ne_of_lt hlt, hne, h.same k j hj]
    · simp only [List.getElem?_append_right le_rfl, Nat.sub_self, List.getElem?_cons_zero,
        Option.some.injEq] at hj
      simp [← hj, Entry.line]
    · rw [List.getElem?_eq_none (by simp; omega)] at hj
      cases hj
  · have hlive : (a.create content holder).2.live = a.live + 1 := by
      unfold Arena.create
      split <;> rfl
    rw [hlive, ← h.live_eq]
    simp [Roll.live, Roll.create]

theorem addReference (h : a.Mirrors roll ids) (id : EntryId) (holder : Holder) :
    match a.addReference id holder with
    | .ok b => ∃ roll', roll.addReference (ids.idxOf id) holder = .ok roll' ∧ b.Mirrors roll' ids
    | .error fault => roll.addReference (ids.idxOf id) holder = .error fault := by
  cases he : a.find? id with
  | none => simp [Arena.addReference, Roll.addReference, he, h.find?_of_none he]
  | some e =>
    have hfound := h.find?_of_some he
    have hnodup := h.sound.holders_nodup id e he
    by_cases hm : holder ∈ e.holders
    · simp only [Arena.addReference, Roll.addReference, he, hfound, if_pos hm]
      have hsame : insert holder e.line.holders = e.line.holders := by simp [Entry.line, hm]
      have hline : roll.setLine (ids.idxOf id)
        (some { e.line with holders := insert holder e.line.holders }) =
          roll := by rw [hsame]; exact Roll.setLine_self hfound
      exact ⟨roll,by rw [hline],h⟩
    · simp only [Arena.addReference, Roll.addReference, he, hfound, if_neg hm]
      refine ⟨_,rfl,?_⟩
      have hnew : (e.holders ++ [holder]).Nodup :=
        List.nodup_append.mpr ⟨hnodup,by simp,by rintro x hx y hy rfl; simp_all⟩
      have hkept : (e.holders ++ [holder]).toFinset = insert holder e.holders.toFinset := by
        rw [List.toFinset_append, Finset.union_comm]
        rfl
      have hset := h.setEntry he { e with holders := e.holders ++ [holder] } hnew (by simp)
      rw [Entry.line, hkept] at hset
      exact hset

theorem detach (h : a.Mirrors roll ids) (hfew : ids.length < 2 ^ 32) (id : EntryId) (holder : Holder) :
    (roll.release (ids.idxOf id) holder).1 = (a.detach id holder).1.isSome ∧
      (a.detach id holder).2.Mirrors (roll.release (ids.idxOf id) holder).2 ids := by
  cases he : a.find? id with
  | none =>
    rw [Roll.release_of_none (h.find?_of_none he), detach_of_not_holds (not_holds he holder)]
    exact ⟨rfl,h⟩
  | some e =>
    have hfound := h.find?_of_some he
    have hnodup := h.sound.holders_nodup id e he
    have hkept : e.line.holders.erase holder = (e.holders.erase holder).toFinset := by
      ext k
      simp [Entry.line, hnodup.mem_erase_iff]
    have hempty : e.line.holders.erase holder = ∅ ↔ e.holders.erase holder = [] := by
      rw [hkept, List.toFinset_eq_empty_iff]
    by_cases hm : holder ∈ e.holders
    · rcases detach_of_holds he hm with ⟨hone,hd⟩ | ⟨hrest,hd⟩
      · have hnil : e.line.holders.erase holder = ∅ := hempty.mpr (by simp [hone])
        simp only [Roll.release, hfound, if_pos hnil, hd]
        exact ⟨rfl,h.vacate hfew he⟩
      · have hsome : ¬ e.line.holders.erase holder = ∅ := fun hn => hrest (hempty.mp hn)
        simp only [Roll.release, hfound, if_neg hsome, hd]
        rw [hkept]
        exact ⟨rfl,h.setEntry he { e with holders := e.holders.erase holder }
          (hnodup.erase holder) hrest⟩
    · have hsame : e.holders.erase holder = e.holders := List.erase_of_not_mem hm
      have hsome : ¬ e.line.holders.erase holder = ∅ := fun hn =>
        h.sound.holders_ne_nil id e he (hsame ▸ hempty.mp hn)
      rw [detach_of_not_holds fun hh => hm ((holds_iff he holder).mp hh)]
      have hline : roll.setLine (ids.idxOf id)
        (some { e.line with holders := e.line.holders.erase holder }) =
          roll := by rw [hkept, hsame]; exact Roll.setLine_self hfound
      simp only [Roll.release, hfound, if_neg hsome, hline]
      exact ⟨rfl,h⟩

theorem setContent (h : a.Mirrors roll ids) (id : EntryId) (content : τ) :
    (a.setContent id content).Mirrors (roll.setContent (ids.idxOf id) content) ids := by
  cases he : a.find? id with
  | none => simpa [Arena.setContent, Roll.setContent, he, h.find?_of_none he] using h
  | some e =>
    rw [setContent_of_find? content he]
    simp only [Roll.setContent, h.find?_of_some he]
    exact h.setEntry he { e with content } (h.sound.holders_nodup id e he)
      (h.sound.holders_ne_nil id e he)

theorem referenceCount (h : a.Mirrors roll ids) (id : EntryId) :
    roll.referenceCount (ids.idxOf id) = a.referenceCount id := by
  cases he : a.find? id with
  | none => simp [Roll.referenceCount, Arena.referenceCount, he, h.find?_of_none he]
  | some e =>
    simp [Roll.referenceCount, Arena.referenceCount, he, h.find?_of_some he, Entry.line,
      List.toFinset_card_of_nodup (h.sound.holders_nodup id e he)]

end Mirrors

end Arena

end Workers
