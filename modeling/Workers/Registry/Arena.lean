import Workers.Sums
import Workers.Value.Basic
/-! # The slot arena

Entries live in numbered slots.  An entry is kept by its holders and freed when the last of them
releases it; the slot then counts one generation up, so that the old address is dead for ever
(until the 32-bit generation has gone all the way round), and waits on a stack of free slots.

`detach_occupied_lt` is the measure behind every cascade: freeing an entry empties a slot.
-/
namespace Workers

/-- Whoever keeps an entry alive. -/
inductive Holder where
  | context (number : Nat)
  | store (number : Nat)
  | thread (number : Nat)
  deriving DecidableEq, Inhabited

def Holder.text : Holder → String
  | context n => s!"Context({n})"
  | store n => s!"Store({n})"
  | thread n => s!"Thread({n})"

/-- A content with the distinct holders that keep it. -/
structure Entry (τ : Type) where
  content : τ
  holders : List Holder

structure Slot (τ : Type) where
  generation : UInt32
  entry : Option (Entry τ)

/-- Slots, the stack of free ones, and the number of occupied ones. -/
structure Arena (τ : Type) where
  slots : Array (Slot τ) := #[]
  free : List Nat := []
  live : Nat := 0

namespace Arena

variable {τ : Type}

/-- The entry at an address, unless the slot has moved on to another generation. -/
def find? (a : Arena τ) (id : EntryId) : Option (Entry τ) :=
  (a.slots[id.index]?).bind fun slot =>
    if slot.generation = id.generation then slot.entry else none

def isAlive (a : Arena τ) (id : EntryId) : Bool := (a.find? id).isSome

/-- The number of holders; none once the entry has been freed. -/
def referenceCount (a : Arena τ) (id : EntryId) : Nat :=
  ((a.find? id).map fun e => e.holders.length).getD 0

def setEntry (a : Arena τ) (index : Nat) (e : Option (Entry τ)) : Arena τ :=
  { a with slots := a.slots.modify index fun slot => { slot with entry := e } }

/-- Files a content under one holder, in the slot freed last if there is one.  The program casts the
number of a new slot to 32 bits, which takes effect only in a registry with `2 ^ 32` occupied slots;
such a registry is left out of the model, and the number stays as it is. -/
def create (a : Arena τ) (content : τ) (holder : Holder) : EntryId × Arena τ :=
  let entry : Entry τ := ⟨content,[holder]⟩
  match a.free with
  | index :: rest =>
    let generation := (a.slots[index]?.map Slot.generation).getD 0
    (⟨index,generation⟩,{ a.setEntry index (some entry) with free := rest, live := a.live + 1 })
  | [] =>
    (⟨a.slots.size,0⟩,{ a with slots := a.slots.push ⟨0,some entry⟩, live := a.live + 1 })

/-- Adds a holder, who counts once however often it is added. -/
def addReference (a : Arena τ) (id : EntryId) (holder : Holder) : Except Fault (Arena τ) :=
  match a.find? id with
  | some e =>
    if holder ∈ e.holders then .ok a
    else .ok (a.setEntry id.index (some { e with holders := e.holders ++ [holder] }))
  | none => .error .brokenReference

def vacate (a : Arena τ) (id : EntryId) : Arena τ :=
  { slots := a.slots.modify id.index fun slot => ⟨slot.generation + 1,none⟩
    free := id.index :: a.free
    live := a.live - 1 }

/-- Removes a holder.  If it was the last one, the entry is freed and its content returned. -/
def detach (a : Arena τ) (id : EntryId) (holder : Holder) : Option τ × Arena τ :=
  match a.find? id with
  | some e =>
    if holder ∈ e.holders then
      let rest := e.holders.erase holder
      if rest = [] then (some e.content,a.vacate id)
      else (none,a.setEntry id.index (some { e with holders := rest }))
    else (none,a)
  | none => (none,a)

def setContent (a : Arena τ) (id : EntryId) (content : τ) : Arena τ :=
  match a.find? id with
  | some e => a.setEntry id.index (some { e with content })
  | none => a

def occupied (a : Arena τ) : Nat := a.slots.toList.countP fun slot => slot.entry.isSome

theorem find?_eq_some {a : Arena τ} {id : EntryId} {e : Entry τ} (h : a.find? id = some e) :
    ∃ slot, a.slots[id.index]? = some slot ∧ slot.generation = id.generation ∧
      slot.entry = some e := by
  simp only [find?, Option.bind_eq_some_iff] at h
  obtain ⟨slot,hslot,h⟩ := h
  split at h
  · exact ⟨slot,hslot,‹_›,h⟩
  · simp at h

theorem occupied_of_modify {a b : Arena τ} {i : Nat} {slot : Slot τ} {f : Slot τ → Slot τ}
    (hslot : a.slots[i]? = some slot) (hb : b.slots = a.slots.modify i f) :
    b.occupied + (if slot.entry.isSome then 1 else 0) =
      a.occupied + if (f slot).entry.isSome then 1 else 0 := by
  simp only [occupied, hb, Array.toList_modify, countP_eq_foldr]
  exact foldr_map_modify (M := Nat) (· + ·) 0 _ f _ i (by simpa using hslot)

/-- A release that frees an entry leaves one slot less occupied. -/
theorem detach_occupied_lt {a b : Arena τ} {id : EntryId} {holder : Holder} {content : τ}
    (h : a.detach id holder = (some content,b)) : b.occupied < a.occupied := by
  unfold detach at h
  split at h
  · rename_i e he
    obtain ⟨slot,hslot,_,hentry⟩ := find?_eq_some he
    split at h
    · simp only at h
      split at h
      · simp only [Prod.mk.injEq, Option.some.injEq] at h
        obtain ⟨_,rfl⟩ := h
        have hcount := occupied_of_modify (b := a.vacate id)
          (f := fun slot => ⟨slot.generation + 1,none⟩) hslot rfl
        simp only [hentry, Option.isSome_some, Option.isSome_none, if_pos, Bool.false_eq_true,
          if_false] at hcount
        omega
      · simp at h
    · simp at h
  · simp at h

theorem detach_occupied_le {a b : Arena τ} {id : EntryId} {holder : Holder} {content? : Option τ}
    (h : a.detach id holder = (content?,b)) : b.occupied ≤ a.occupied := by
  cases content? with
  | some content => exact Nat.le_of_lt (detach_occupied_lt h)
  | none =>
    unfold detach at h
    split at h
    · rename_i e he
      obtain ⟨slot,hslot,_,hentry⟩ := find?_eq_some he
      split at h
      · simp only at h
        split at h
        · simp at h
        · simp only [Prod.mk.injEq, true_and] at h
          subst h
          have hcount := occupied_of_modify (b := a.setEntry id.index _)
            (f := fun slot => { slot with entry := some ⟨e.content,e.holders.erase holder⟩ }) hslot rfl
          simp only [hentry, Option.isSome_some, if_pos] at hcount
          omega
      · simp_all
    · simp_all

end Arena

end Workers
