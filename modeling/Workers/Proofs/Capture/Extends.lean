import Workers.Proofs.Ledger.Tables
/-! # Stores in which nothing is freed

As long as nothing is freed the slots of a registry stay at their generations, so that an id whose
slot has gone on stays dead, however many entries are filed.
-/
namespace Workers

namespace Arena

variable {τ : Type} {a b : Arena τ} {id : EntryId} {holder : Holder} {i : ℕ} {g : UInt32}

def generation? (a : Arena τ) (i : ℕ) : Option UInt32 := (a.slots[i]?).map Slot.generation

theorem find?_of_generation (h : a.generation? id.index = some g) (hne : g ≠ id.generation) :
    a.find? id = none := by
  obtain ⟨slot,hslot,rfl⟩ := Option.map_eq_some_iff.mp h
  rw [find?_of_slot hslot, if_neg hne]

theorem generation?_setEntry (a : Arena τ) (index i : ℕ) (e : Option (Entry τ)) :
    (a.setEntry index e).generation? i = a.generation? i := by
  unfold generation? setEntry
  rw [Array.getElem?_modify]
  split <;> simp [Option.map_map, Function.comp_def]

theorem generation?_addReference (h : a.addReference id holder = .ok b) :
    b.generation? i = a.generation? i := by
  obtain ⟨e,_,⟨_,rfl⟩ | ⟨_,rfl⟩⟩ := addReference_eq_ok h
  · rfl
  · exact generation?_setEntry a id.index i _

theorem generation?_create (content : τ) (holder : Holder) (h : a.generation? i = some g) :
    (a.create content holder).2.generation? i = some g := by
  unfold create
  split
  · exact (generation?_setEntry a _ i _).trans h
  · obtain ⟨slot,hslot,rfl⟩ := Option.map_eq_some_iff.mp h
    have hi : i ≠ a.slots.size := Nat.ne_of_lt (Array.getElem?_eq_some_iff.mp hslot).1
    unfold generation?
    rw [Array.getElem?_push, if_neg hi]
    exact h

end Arena

namespace Store

variable {s t u : Store} {r : RegistryId} {id : EntryId} {holder : Holder}

def Spent (s : Store) (r : RegistryId) (id : EntryId) : Prop :=
  ∃ g, (s.arena r).generation? id.index = some g ∧ g ≠ id.generation

/-- Nothing is freed from one store to the other, so that no slot goes on to another generation. -/
structure Extends (s t : Store) : Prop where
  later : s.Later t
  grows : s.Grows t
  generation : ∀ q i g, (s.arena q).generation? i = some g → (t.arena q).generation? i = some g

theorem Spent.not_alive (h : s.Spent r id) : s.isAlive r id = false := by
  obtain ⟨g,hg,hne⟩ := h
  simp [isAlive, Arena.isAlive, Arena.find?_of_generation hg hne]

theorem Extends.spent (h : s.Extends t) (hid : s.Spent r id) : t.Spent r id := by
  obtain ⟨g,hg,hne⟩ := hid
  exact ⟨g,h.generation r _ g hg,hne⟩

theorem Extends.alive (h : s.Extends t) (hs : ∀ q, (s.arena q).Sound) (hid : s.isAlive r id = true) :
    t.isAlive r id = true := by
  obtain ⟨table,htable⟩ := isAlive_iff_content?.mp hid
  exact isAlive_iff_content?.mpr ⟨table,(h.grows hs).2 _ _ _ htable⟩

theorem Extends.trans (h : s.Extends t) (h' : t.Extends u) : s.Extends u where
  later := h.later.trans h'.later
  grows := h.grows.trans h'.grows
  generation q i g hg := h'.generation q i g (h.generation q i g hg)

theorem generation_setArena {a : Arena (Guarded SharedTable)}
    (ha : ∀ i g, (s.arena r).generation? i = some g → a.generation? i = some g) (q : RegistryId)
    (i : ℕ) (g : UInt32) (hg : (s.arena q).generation? i = some g) :
    ((s.setArena r a).arena q).generation? i = some g := by
  rw [arena_setArena]
  split
  · rename_i hq
    rw [hq.1] at hg
    exact ha i g hg
  · exact hg

theorem extends_nextNumber (s : Store) (r : RegistryId) : s.Extends (s.nextNumber r).2 := by
  refine ⟨later_nextNumber s r,(keeps_nextNumber s r).grows,fun q i g hg => ?_⟩
  rwa [arena_nextNumber]

theorem extends_addReference (h : s.addReference r id holder = .ok t) : s.Extends t := by
  have hkeeps := keeps_addReference h
  obtain ⟨a,ha,rfl⟩ := addReference_cases h
  exact ⟨hkeeps.later,hkeeps.grows,generation_setArena fun i g hg =>
    (Arena.generation?_addReference ha).trans hg⟩

theorem extends_create (s : Store) (r : RegistryId) (table : SharedTable) (holder : Holder) :
    s.Extends (s.create r table holder).2 :=
  ⟨later_setArena _ _ _,grows_create s r table holder,generation_setArena fun _ _ =>
    Arena.generation?_create _ holder⟩

end Store

namespace TableHandle

variable {s : Store} {r : RegistryId} {id : EntryId}

theorem extends_attach (s : Store) (r : RegistryId) (id : EntryId) : s.Extends (attach s r id).2 := by
  unfold attach
  cases ht : (s.nextNumber r).2.addReference r id (.store (s.nextNumber r).1) with
  | error fault => simpa [ht] using Store.extends_nextNumber s r
  | ok t => simpa [ht] using (Store.extends_nextNumber s r).trans (Store.extends_addReference ht)

theorem extends_copy (s : Store) (handle : TableHandle) : s.Extends (handle.copy s).2 := by
  unfold copy
  cases ht : (s.nextNumber handle.registry).2.addReference handle.registry handle.entry
      (.store (s.nextNumber handle.registry).1) with
  | error fault => simpa [ht] using Store.extends_nextNumber s handle.registry
  | ok t =>
    simpa [ht] using (Store.extends_nextNumber s handle.registry).trans
      (Store.extends_addReference ht)

theorem extends_create (s : Store) (r : RegistryId) (table : SharedTable) :
    s.Extends (create s r table).2 :=
  (Store.extends_nextNumber s r).trans (Store.extends_create _ r table _)

theorem attach_of_dead (h : s.isAlive r id = false) : (attach s r id).1 = .error .brokenReference := by
  have hnone : (s.arena r).find? id = none := by simpa [Store.isAlive, Arena.isAlive] using h
  have hrefused : (s.nextNumber r).2.addReference r id (.store (s.nextNumber r).1) =
      .error .brokenReference := by
    unfold Store.addReference Arena.addReference
    rw [Store.arena_nextNumber, hnone]
    rfl
  simp only [attach, hrefused]

end TableHandle

end Workers
