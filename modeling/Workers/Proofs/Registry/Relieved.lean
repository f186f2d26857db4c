import Workers.Proofs.Registry.Names
/-! # Slots without some of their holders

Giving up shares takes holders out of entries, and the last holder to go empties the slot.  What is
left depends on which shares were given up, and not on their order or on how often each of them was.
-/
namespace Workers

section Slots

variable {τ : Type}

def Entry.without (e : Entry τ) (gone : Holder → Bool) : Option (Entry τ) :=
  let rest := e.holders.filter fun k => !gone k
  if rest = [] then none else some { e with holders := rest }

def Slot.without (slot : Slot τ) (gone : Holder → Bool) : Slot τ :=
  match slot.entry with
  | none => slot
  | some e =>
    match e.without gone with
    | some rest => { slot with entry := some rest }
    | none => ⟨slot.generation + 1,none⟩

def Slot.relieved (r : RegistryId) (i : Nat) (xs : List Share) (slot : Slot τ) : Slot τ :=
  slot.without fun k => decide ((⟨r,⟨i,slot.generation⟩,k⟩ : Share) ∈ xs)

variable {slot : Slot τ} {e : Entry τ} {gone : Holder → Bool}

theorem Entry.without_eq_none : e.without gone = none ↔ ∀ k ∈ e.holders, gone k = true := by
  simp [Entry.without]

theorem Entry.without_eq_some {rest : Entry τ} (h : e.without gone = some rest) :
    rest = { e with holders := e.holders.filter fun k => !gone k } ∧
    ∃ k ∈ e.holders, gone k = false := by
  unfold Entry.without at h
  simp only at h
  split at h
  · cases h
  · rename_i hrest
    cases h
    exact ⟨rfl,by simpa using hrest⟩

theorem Entry.without_self (hne : e.holders ≠ []) (h : ∀ k ∈ e.holders, gone k = false) :
    e.without gone = some e := by
  have hfilter : e.holders.filter (fun k => !gone k) = e.holders :=
    List.filter_eq_self.mpr (by simpa using h)
  simp [Entry.without, hfilter, hne]

theorem Slot.without_vacant (h : slot.entry = none) : slot.without gone = slot := by
  simp [Slot.without, h]

theorem Slot.without_of_none (he : slot.entry = some e) (h : e.without gone = none) :
    slot.without gone = ⟨slot.generation + 1,none⟩ := by
  simp [Slot.without, he, h]

theorem Slot.without_of_some {rest : Entry τ} (he : slot.entry = some e)
    (h : e.without gone = some rest) :
    slot.without gone = { slot with entry := some rest } := by
  simp [Slot.without, he, h]

theorem Slot.without_self (hne : ∀ e, slot.entry = some e → e.holders ≠ [])
    (h : ∀ e, slot.entry = some e → ∀ k ∈ e.holders, gone k = false) : slot.without gone = slot := by
  cases he : slot.entry with
  | none => exact without_vacant he
  | some e =>
    rw [without_of_some he (Entry.without_self (hne e he) (h e he)), ← he]

theorem Entry.without_without {rest : Entry τ} {gone' : Holder → Bool} (h : e.without gone = some rest) :
    rest.without gone' = e.without fun k => gone k || gone' k := by
  obtain ⟨rfl,_⟩ := Entry.without_eq_some h
  simp only [Entry.without, List.filter_filter, Bool.not_or, Bool.and_comm]

theorem Slot.relieved_cons (r : RegistryId) (i : Nat) (x : Share) (xs : List Share) (slot : Slot τ) :
    (slot.relieved r i [x]).relieved r i xs = slot.relieved r i (x :: xs) := by
  cases he : slot.entry with
  | none =>
    unfold relieved
    rw [without_vacant he, without_vacant he, without_vacant he]
  | some e =>
    cases hfirst : e.without fun k => decide ((⟨r,⟨i,slot.generation⟩,k⟩ : Share) ∈ [x]) with
    | none =>
      have hslot : slot.relieved r i [x] = ⟨slot.generation + 1,none⟩ := without_of_none he hfirst
      have hall : e.without (fun k => decide ((⟨r,⟨i,slot.generation⟩,k⟩ : Share) ∈ x :: xs)) =
          none := by
        rw [Entry.without_eq_none] at hfirst ⊢
        intro k hk
        have hx := of_decide_eq_true (hfirst k hk)
        exact decide_eq_true (List.mem_cons.mpr (.inl (List.mem_singleton.mp hx)))
      rw [hslot]
      exact (without_vacant rfl).trans (without_of_none he hall).symm
    | some rest =>
      have hslot : slot.relieved r i [x] = { slot with entry := some rest } := without_of_some he hfirst
      have hboth : rest.without (fun k => decide ((⟨r,⟨i,slot.generation⟩,k⟩ : Share) ∈ xs)) =
          e.without fun k => decide ((⟨r,⟨i,slot.generation⟩,k⟩ : Share) ∈ x :: xs) := by
        rw [Entry.without_without hfirst]
        congr 1
        funext k
        rw [← Bool.decide_or]
        exact decide_eq_decide.mpr (by simp)
      rw [hslot]
      unfold relieved without
      simp only [he, hboth]

theorem Slot.relieved_congr {xs ys : List Share} (h : ∀ x, x ∈ xs ↔ x ∈ ys) (r : RegistryId) (i : Nat)
    (slot : Slot τ) : slot.relieved r i xs = slot.relieved r i ys := by
  simp only [relieved, h]

end Slots

namespace Arena

variable {τ : Type} {a : Arena τ} {id : EntryId} {holder : Holder}

theorem find?_slot {i : Nat} {slot : Slot τ} (hs : a.slots[i]? = some slot) :
    a.find? ⟨i,slot.generation⟩ = slot.entry := by
  simp [find?, hs]

theorem slots_detach_of_ne {i : Nat} (hindex : id.index ≠ i) :
    (a.detach id holder).2.slots[i]? = a.slots[i]? := by
  by_cases h : a.Holds id holder
  · obtain ⟨e,he,hm⟩ := h
    rcases detach_of_holds he hm with ⟨_,hd⟩ | ⟨_,hd⟩
    · simp [hd, vacate, Array.getElem?_modify, hindex]
    · simp [hd, setEntry, Array.getElem?_modify, hindex]
  · rw [detach_of_not_holds h]

/-- The slot of an entry that the holder has. -/
theorem slot_detach_of_holds {slot : Slot τ} {e : Entry τ} (ha : a.Sound)
    (hs : a.slots[id.index]? = some slot) (hid : id = ⟨id.index,slot.generation⟩)
    (he : slot.entry = some e) (hm : holder ∈ e.holders) :
    (a.detach id holder).2.slots[id.index]? =
      some (slot.without fun k => decide (id = ⟨id.index,slot.generation⟩ ∧ k = holder)) := by
  have hfind : a.find? id = some e := by rw [hid, find?_slot hs, he]
  have hrest : (e.holders.filter fun k => !decide (id = ⟨id.index,slot.generation⟩ ∧ k = holder)) =
      e.holders.erase holder := by
    rw [(ha.holders_nodup id e hfind).erase_eq_filter]
    refine List.filter_congr fun k _ => ?_
    by_cases hk : k = holder <;> simp [← hid, hk]
  rcases detach_of_holds hfind hm with ⟨hone,hd⟩ | ⟨hmore,hd⟩
  · have hwithout : e.without (fun k => decide (id = ⟨id.index,slot.generation⟩ ∧ k = holder)) =
        none := by
      rw [Entry.without_eq_none, hone]
      simp [← hid]
    rw [hd, Slot.without_of_none he hwithout]
    simp [vacate, Array.getElem?_modify, hs]
  · have hwithout : e.without (fun k => decide (id = ⟨id.index,slot.generation⟩ ∧ k = holder)) =
        some { e with holders := e.holders.erase holder } := by
      simp only [Entry.without, hrest, if_neg hmore]
    rw [hd, Slot.without_of_some he hwithout]
    simp [setEntry, Array.getElem?_modify, hs]

/-- A release takes its holder out of the entry at its address, and does nothing else. -/
theorem slots_detach (ha : a.Sound) (i : Nat) :
    (a.detach id holder).2.slots[i]? = (a.slots[i]?).map fun slot =>
      slot.without fun k => decide (id = ⟨i,slot.generation⟩ ∧ k = holder) := by
  have hkept : (∀ slot e, a.slots[i]? = some slot → slot.entry = some e → holder ∈ e.holders →
      id ≠ ⟨i,slot.generation⟩) → (a.slots[i]?).map (fun slot =>
        slot.without fun k => decide (id = ⟨i,slot.generation⟩ ∧ k = holder)) = a.slots[i]? := by
    intro hapart
    cases hi : a.slots[i]? with
    | none => rfl
    | some slot =>
      rw [Option.map_some, Slot.without_self
        (fun e he => ha.holders_ne_nil _ e ((find?_slot hi).trans he))]
      rintro e he k hk
      refine decide_eq_false ?_
      rintro ⟨hid,rfl⟩
      exact hapart slot e hi he hk hid
  by_cases h : a.Holds id holder
  · obtain ⟨e,he,hm⟩ := h
    obtain ⟨slot,hs,hgeneration,hentry⟩ := find?_eq_some he
    by_cases hindex : id.index = i
    · subst hindex
      rw [hs]
      exact slot_detach_of_holds ha hs (by rw [hgeneration]) hentry hm
    · rw [slots_detach_of_ne hindex, hkept]
      rintro _ _ _ _ _ rfl
      exact hindex rfl
  · rw [detach_of_not_holds h, hkept]
    rintro slot e hs he hm rfl
    exact h ⟨e,(find?_slot hs).trans he,hm⟩

end Arena

namespace Store

variable {s : Store}

theorem sound_giveUp (hs : ∀ q, (s.arena q).Sound) (x : Share) (q : RegistryId) :
    ((s.giveUp x).arena q).Sound := by
  unfold giveUp detach
  split
  · exact sound_setArena hs (hs x.registry).detach q
  · exact hs q

theorem sound_giveUps (hs : ∀ q, (s.arena q).Sound) (xs : List Share) (q : RegistryId) :
    ((xs.foldl giveUp s).arena q).Sound := by
  induction xs generalizing s with
  | nil => exact hs q
  | cons x rest ih => exact ih (sound_giveUp hs x)

theorem slots_giveUp (hs : ∀ q, (s.arena q).Sound) (x : Share) (q : RegistryId) (i : Nat) :
    ((s.giveUp x).arena q).slots[i]? = ((s.arena q).slots[i]?).map (Slot.relieved q i [x]) := by
  by_cases hq : q < s.registries.size
  · have hne : ∀ slot, (s.arena q).slots[i]? = some slot → ∀ e, slot.entry = some e → e.holders ≠ [] :=
      fun slot hslot e he => (hs q).holders_ne_nil _ e ((Arena.find?_slot hslot).trans he)
    unfold giveUp
    rw [arena_detach hq]
    by_cases hx : x.registry = q
    · rw [if_pos hx, Arena.slots_detach (hs q)]
      congr 1
      funext slot
      unfold Slot.relieved
      congr 1
      funext k
      refine decide_eq_decide.mpr ?_
      rw [List.mem_singleton]
      constructor
      · rintro ⟨hid,rfl⟩
        rw [← hx, ← hid]
      · rintro rfl
        exact ⟨rfl,rfl⟩
    · rw [if_neg hx]
      cases hi : (s.arena q).slots[i]? with
      | none => rfl
      | some slot =>
        rw [Option.map_some]
        refine congrArg some (Slot.without_self (hne slot hi) fun e _ k _ => ?_).symm
        refine decide_eq_false fun hmem => hx ?_
        rw [← List.mem_singleton.mp hmem]
  · have hq' : ¬ q < (s.giveUp x).registries.size := by
      unfold giveUp
      rwa [registries_detach]
    rw [arena_of_not_lt hq', arena_of_not_lt hq]
    simp

/-- The slots once some shares have been given up. -/
theorem slots_giveUps (hs : ∀ q, (s.arena q).Sound) (xs : List Share) (q : RegistryId) (i : Nat) :
    ((xs.foldl giveUp s).arena q).slots[i]? = ((s.arena q).slots[i]?).map (Slot.relieved q i xs) := by
  induction xs generalizing s with
  | nil =>
    cases hi : (s.arena q).slots[i]? with
    | none => simp [hi]
    | some slot =>
      rw [List.foldl_nil, hi, Option.map_some]
      refine congrArg some (Slot.without_self (fun e he => ?_) (by simp)).symm
      exact (hs q).holders_ne_nil _ e ((Arena.find?_slot hi).trans he)
  | cons x rest ih =>
    rw [List.foldl_cons, ih (sound_giveUp hs x), slots_giveUp hs, Option.map_map]
    congr 1
    funext slot
    exact Slot.relieved_cons q i x rest slot

/-- The entry at an address is there as long as one of its holders is, with those that are. -/
theorem find?_giveUps (hs : ∀ q, (s.arena q).Sound) (xs : List Share) (q : RegistryId) (id : EntryId) :
    ((xs.foldl giveUp s).arena q).find? id =
      ((s.arena q).find? id).bind fun e => e.without fun k => decide ((⟨q,id,k⟩ : Share) ∈ xs) := by
  cases hslot : (s.arena q).slots[id.index]? with
  | none => simp [Arena.find?, slots_giveUps hs, hslot]
  | some slot =>
    have hslot' := slots_giveUps hs xs q id.index
    rw [hslot, Option.map_some] at hslot'
    rw [Arena.find?_of_slot hslot', Arena.find?_of_slot hslot]
    cases he : slot.entry with
    | none =>
      unfold Slot.relieved
      rw [Slot.without_vacant he, he]
      simp
    | some e =>
      by_cases hg : slot.generation = id.generation
      · have hid : (⟨id.index,slot.generation⟩ : EntryId) = id := by rw [hg]
        rw [if_pos hg, Option.bind_some]
        unfold Slot.relieved
        rw [hid]
        cases hw : e.without fun k => decide ((⟨q,id,k⟩ : Share) ∈ xs) with
        | none =>
          rw [Slot.without_of_none he hw]
          simp
        | some rest =>
          rw [Slot.without_of_some he hw]
          simp [hg]
      · rw [if_neg hg, Option.bind_none]
        cases hw : e.without fun k => decide ((⟨q,⟨id.index,slot.generation⟩,k⟩ : Share) ∈ xs) with
        | none =>
          unfold Slot.relieved
          rw [Slot.without_of_none he hw]
          simp
        | some rest =>
          unfold Slot.relieved
          rw [Slot.without_of_some he hw]
          simp [hg]

/-- The holders that are left are those that have not given up their share. -/
theorem holds_giveUps (hs : ∀ q, (s.arena q).Sound) (xs : List Share) (y : Share) :
    (xs.foldl giveUp s).Holds y ↔ s.Holds y ∧ y ∉ xs := by
  unfold Holds Arena.Holds
  rw [find?_giveUps hs]
  constructor
  · rintro ⟨rest,hrest,hmem⟩
    obtain ⟨e,he,hwithout⟩ := Option.bind_eq_some_iff.mp hrest
    obtain ⟨rfl,_⟩ := Entry.without_eq_some hwithout
    obtain ⟨hholder,hstays⟩ := List.mem_filter.mp hmem
    exact ⟨⟨e,he,hholder⟩,by simpa using hstays⟩
  · rintro ⟨⟨e,he,hholder⟩,hstays⟩
    rw [he, Option.bind_some]
    cases hwithout : e.without fun k => decide ((⟨y.registry,y.entry,k⟩ : Share) ∈ xs) with
    | none => exact absurd (by simpa using Entry.without_eq_none.mp hwithout y.holder hholder) hstays
    | some rest =>
      obtain ⟨rfl,_⟩ := Entry.without_eq_some hwithout
      exact ⟨_,rfl,List.mem_filter.mpr ⟨hholder,by simpa using hstays⟩⟩

/-- An entry that is left has the table that it had. -/
theorem table_giveUps (hs : ∀ q, (s.arena q).Sound) (xs : List Share) {q : RegistryId} {id : EntryId}
    {g : Guarded SharedTable} (h : (xs.foldl giveUp s).table q id = .ok g) : s.table q id = .ok g := by
  unfold table at h ⊢
  rw [find?_giveUps hs] at h
  cases he : (s.arena q).find? id with
  | none =>
    rw [he] at h
    cases h
  | some e =>
    rw [he, Option.bind_some] at h
    cases hwithout : e.without fun k => decide ((⟨q,id,k⟩ : Share) ∈ xs) with
    | none =>
      rw [hwithout] at h
      cases h
    | some rest =>
      obtain ⟨rfl,_⟩ := Entry.without_eq_some hwithout
      rw [hwithout] at h
      exact h

end Store

end Workers
