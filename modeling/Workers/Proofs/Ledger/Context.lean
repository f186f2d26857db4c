import Workers.Context.Tables
import Workers.Proofs.Ledger.Capture
/-! # The ledger across the operations of a context

A context records the entries that it has checked out, and registers as one holder in all of them.
Nobody else registers under that holder, so an entry that is not in the record is not held yet.
-/
namespace Workers

open TableHandle (shares)

def checkedOut (r : RegistryId) (holder : Holder) (ids : List EntryId) : Multiset Share :=
  ((ids.map fun id => (⟨r,id,holder⟩ : Share) : List Share) : Multiset Share)

@[simp] theorem checkedOut_nil (r : RegistryId) (holder : Holder) : checkedOut r holder [] = 0 := rfl

theorem checkedOut_append (r : RegistryId) (holder : Holder) (ids : List EntryId) (id : EntryId) :
    checkedOut r holder (ids ++ [id]) = {⟨r,id,holder⟩} + checkedOut r holder ids := by
  unfold checkedOut
  rw [List.map_append, ← Multiset.coe_add, add_comm]
  rfl

theorem mem_checkedOut {r : RegistryId} {holder : Holder} {ids : List EntryId} {x : Share} :
    x ∈ checkedOut r holder ids ↔ x.registry = r ∧ x.holder = holder ∧ x.entry ∈ ids := by
  obtain ⟨q,j,k⟩ := x
  simp [checkedOut, Share.mk.injEq]
  tauto

def Apart (r : RegistryId) (holder : Holder) (out : Multiset Share) : Prop :=
  ∀ x ∈ out, x.registry = r → x.holder ≠ holder

def Holder.KeepsRecord (holder : Holder) : Prop := ∀ n, holder ≠ .store n

theorem Holder.keepsRecord_context (n : Nat) : (Holder.context n).KeepsRecord := fun _ h => by cases h

theorem Holder.keepsRecord_thread (n : Nat) : (Holder.thread n).KeepsRecord := fun _ h => by cases h

section Apart

variable {r : RegistryId} {holder : Holder} {out out' : Multiset Share}

theorem Apart.add (h : Apart r holder out) (h' : Apart r holder out') : Apart r holder (out + out') := by
  intro x hx
  rcases Multiset.mem_add.mp hx with hx | hx
  · exact h x hx
  · exact h' x hx

theorem apart_shares (hk : holder.KeepsRecord) (hs : List TableHandle) : Apart r holder (shares hs) := by
  intro x hx _
  obtain ⟨h,_,_,rfl⟩ := TableHandle.mem_shares.mp hx
  exact fun heq => hk h.number heq.symm

theorem apart_object (hk : holder.KeepsRecord) (object : Stored) : Apart r holder object.shares :=
  apart_shares hk object.handles

end Apart

namespace Store

variable {s t : Store} {r : RegistryId} {holder : Holder} {ids : List EntryId} {id : EntryId}
variable {out : Multiset Share}

theorem apart_filed (hk : holder.KeepsRecord) (s : Store) : Apart r holder s.filed := by
  intro x hx
  obtain ⟨registry,_,hx⟩ := mem_sum_map.mp hx
  obtain ⟨slot,_,hx⟩ := mem_sum_map.mp hx
  cases he : slot.entry with
  | none => simp [he] at hx
  | some e => exact apart_shares hk _ x (by simpa [he, tableShares] using hx)

theorem Balanced.not_holds_of_apart (h : s.Balanced (checkedOut r holder ids + out))
    (hk : holder.KeepsRecord) (hapart : Apart r holder out) (hid : id ∉ ids) :
    ¬ s.Holds ⟨r,id,holder⟩ := by
  intro hh
  rcases Multiset.mem_add.mp ((h.exact _).mp hh) with hx | hx
  · exact apart_filed hk s _ hx rfl rfl
  rcases Multiset.mem_add.mp hx with hx | hx
  · exact hid (mem_checkedOut.mp hx).2.2
  · exact hapart _ hx rfl rfl

theorem Balanced.checkOut (h : s.Balanced (checkedOut r holder ids + out)) (hk : holder.KeepsRecord)
    (hapart : Apart r holder out) (hid : id ∉ ids)
    (hgiven : holder.number < (s.registry r).nextNumber) (ht : s.addReference r id holder = .ok t) :
    t.Balanced (checkedOut r holder (ids ++ [id]) + out) := by
  have ht' := h.addReference ht hgiven (h.not_holds_of_apart hk hapart hid)
  rwa [checkedOut_append, add_assoc]

end Store

namespace Context

def shares (c : Context) : Multiset Share := checkedOut c.registry c.holder c.references

structure OperationStep (s : Store) (c : Context) (t : Store) (c' : Context) : Prop where
  registry_eq : c'.registry = c.registry
  number_eq : c'.number = c.number
  later : s.Later t
  balanced : ∀ out, Apart c.registry c.holder out → c.registry < s.registries.size →
    c.number < (s.registry c.registry).nextNumber → s.Balanced (c.shares + out) →
    t.Balanced (c'.shares + out)

variable {s t u : Store} {c c' c'' : Context} {id : EntryId}

theorem OperationStep.refl (s : Store) (c : Context) : OperationStep s c s c :=
  ⟨rfl,rfl,.refl s,fun _ _ _ _ hb => hb⟩

theorem OperationStep.of_record (s : Store) (hr : c'.registry = c.registry) (hn : c'.number = c.number)
    (href : c'.references = c.references) : OperationStep s c s c' := by
  refine ⟨hr,hn,.refl s,fun out _ _ _ hb => ?_⟩
  have hshares : c'.shares = c.shares := by simp [shares, holder, hr, hn, href]
  rwa [hshares]

theorem operationStep_addReference (h : c.addReference s id = .ok (c',t)) : OperationStep s c t c' := by
  unfold addReference at h
  by_cases hid : id ∈ c.references
  · rw [if_pos hid] at h
    cases h
    exact .refl s c
  · rw [if_neg hid] at h
    cases ht : s.addReference c.registry id c.holder with
    | error fault => rw [ht] at h; cases h
    | ok u =>
      rw [ht] at h
      cases h
      exact ⟨rfl,rfl,Store.later_addReference ht,fun out hapart _ hn hb =>
        hb.checkOut (Holder.keepsRecord_context _) hapart hid hn ht⟩

theorem operationStep_load {object : Stored} {v : Value} (h : c.load s object = .ok (v,c',t)) :
    OperationStep s c t c' := by
  cases object with
  | nil | boolean | integer | float | string | function =>
    cases h
    exact .refl s c
  | shared handle =>
    simp only [load] at h
    cases hcheck : (Stored.shared handle).checkRegistry c.registry with
    | error fault => rw [hcheck] at h; cases h
    | ok _ =>
      rw [hcheck] at h
      cases href : c.addReference s handle.entry with
      | error fault => simp [Except.bind, href, Except.map] at h
      | ok p =>
        obtain ⟨d,u⟩ := p
        simp only [Except.bind, href, Except.map, Except.ok.injEq, Prod.mk.injEq] at h
        obtain ⟨_,rfl,rfl⟩ := h
        exact operationStep_addReference href

theorem operationStep_newShared (c : Context) (s : Store) :
    OperationStep s c (c.newShared s).2.2 (c.newShared s).2.1 := by
  refine ⟨rfl,rfl,Store.later_setArena _ _ _,fun out _ hr hn hb => ?_⟩
  have hb' : s.Balanced (TableHandle.shares (SharedTable.handles .empty) + (c.shares + out)) := by
    rwa [show TableHandle.shares (SharedTable.handles .empty) = 0 from rfl, zero_add]
  have hn' : c.holder.number < (s.registry c.registry).nextNumber := hn
  have ht := hb'.create hr hn'
  have hshares : (c.newShared s).2.1.shares =
      {⟨c.registry,(s.create c.registry .empty c.holder).1,c.holder⟩} + c.shares :=
      checkedOut_append _ _ _ _
  rw [hshares, add_assoc]
  exact ht

/-- The object read is a copy, which is dropped once the context has its own reference. -/
theorem operationStep_get (c : Context) (m : Memory) (table key : Value) :
    OperationStep m.store c (c.get m table key).2.2 (c.get m table key).2.1 := by
  have hself := OperationStep.refl m.store c
  have hread : ∀ object : Stored,
    ∀ d u, (∃ v, c.load (object.copy m.store).2 (object.copy m.store).1 = .ok (v,d,u)) ∨
      (d = c ∧ u = (object.copy m.store).2) → OperationStep m.store c
      (u.drop [(object.copy m.store).1]) d := by
    intro object d u hload
    have hturn : OperationStep (object.copy m.store).2 c u d := by
      rcases hload with ⟨v,hload⟩ | ⟨rfl,rfl⟩
      · exact operationStep_load hload
      · exact .refl _ _
    have hcopy := Stored.later_copy m.store object
    refine ⟨hturn.registry_eq,hturn.number_eq,(hcopy.trans hturn.later).trans (Store.later_drop _ _),
      fun out hapart hr hn hb => ?_⟩
    have hb' := Stored.balanced_copy hb object
    rw [add_left_comm] at hb'
    have hb'' := hturn.balanced _ ((apart_object (Holder.keepsRecord_context _) _).add hapart)
      (by rwa [hcopy.size_eq]) (hn.trans_le (hcopy.number_le _)) hb'
    refine Store.Balanced.drop ?_
    rw [add_left_comm] at hb''
    simpa using hb''
  unfold get
  split
  · exact hself
  · split
    · exact hself
    · split
      · exact hself
      · split
        · exact hself
        · rename_i object _
          simp only
          split
          · rename_i v d u hload
            exact hread object d u (.inl ⟨v,hload⟩)
          · exact hread object c _ (.inr ⟨rfl,rfl⟩)
    · exact hself

theorem operationStep_destroy (c : Context) (s : Store) :
    OperationStep s c (c.destroy s).2 (c.destroy s).1 := by
  unfold destroy
  split
  · exact .refl s c
  · refine ⟨rfl,rfl,Store.later_releaseAll _ _ _ _,fun out _ _ _ hb => ?_⟩
    have ht := Store.Balanced.releaseAll hb
    simpa [shares] using ht

def write (key : Key) (object? : Option Stored) (t : SharedTable) : Option Stored × SharedTable :=
  (t.get? key,match object? with
    | some object => t.insert key object
    | none => t.erase key)

def optionShares (object? : Option Stored) : Multiset Share := object?.elim 0 Stored.shares

theorem shares_toList (object? : Option Stored) :
    (object?.toList.map Stored.shares).sum = optionShares object? := by
  cases object? <;> simp [optionShares]

theorem shares_write (key : Key) (object? : Option Stored) (t : SharedTable) :
    TableHandle.shares (SharedTable.handles (write key object? t).2) +
      optionShares (write key object? t).1 =
      TableHandle.shares t.handles + optionShares object? := by
  cases object? with
  | some object => exact SharedTable.shares_insert t key object
  | none => simpa [write, optionShares] using SharedTable.shares_erase t key

theorem balanced_write {r : RegistryId} {out : Multiset Share} {key : Key}
    {object? replaced : Option Stored} (hb : s.Balanced (optionShares object? + out))
    (h : s.editTable r id (write key object?) = .ok (replaced,t)) :
    t.Balanced (optionShares replaced + out) := by
  unfold Store.editTable Store.table at h
  cases he : (s.arena r).find? id with
  | none => rw [he] at h; cases h
  | some e =>
    simp only [he, Except.bind] at h
    cases hborrow : e.content.borrow .sharedBorrowMut with
    | error fault => rw [hborrow] at h; cases h
    | ok old =>
      have hold : e.content.content = old := by
        unfold Guarded.borrow at hborrow
        split at hborrow
        · cases hborrow
        · exact Except.ok.inj hborrow
      rw [hborrow] at h
      simp only [Except.map, Except.ok.injEq, Prod.mk.injEq] at h
      obtain ⟨rfl,rfl⟩ := h
      refine hb.setTable he ?_
      rw [hold, ← add_assoc, shares_write, add_assoc]

theorem later_editTable {α : Type} {r : RegistryId} {edit : SharedTable → α × SharedTable} {a : α}
    (h : s.editTable r id edit = .ok (a,t)) : s.Later t := by
  unfold Store.editTable at h
  cases hg : s.table r id with
  | error fault => rw [hg] at h; cases h
  | ok g =>
    simp only [hg, Except.bind] at h
    cases hborrow : g.borrow .sharedBorrowMut with
    | error fault => rw [hborrow] at h; cases h
    | ok old =>
      rw [hborrow] at h
      simp only [Except.map, Except.ok.injEq, Prod.mk.injEq] at h
      obtain ⟨_,rfl⟩ := h
      exact Store.later_setTable _ _ _ _

def captured (c : Context) (m : Memory) (value : Value) : Except Fault (Option Stored) × Store :=
  if value.isNil then (.ok none,m.store)
  else
    let (outcome,s) := value.store m.store m.heap c.registry
    (outcome.map some,s)

theorem later_captured (c : Context) (m : Memory) (value : Value) :
    m.store.Later (c.captured m value).2 := by
  unfold captured
  split
  · exact .refl _
  · exact Value.later_store _ _ _ _

theorem balanced_captured {m : Memory} {out : Multiset Share} (hr : c.registry < m.store.registries.size)
    (hb : m.store.Balanced out) (value : Value) :
    (c.captured m value).2.Balanced (granted optionShares (c.captured m value).1 + out) := by
  unfold captured
  split
  · simpa [optionShares] using hb
  · have hb' := Value.balanced_store hr hb m.heap value
    cases ho : (value.store m.store m.heap c.registry).1 with
    | error fault => simpa [ho, Except.map] using hb'
    | ok object => simpa [ho, Except.map, optionShares] using hb'

theorem set_shared (c : Context) (m : Memory) (key value : Value) {k : Key}
    (hk : key.toKey = .ok k) :
    c.set m (.shared id) key value =
      match (c.captured m value).1 with
      | .error fault => (.error fault,{ m with store := (c.captured m value).2 })
      | .ok object =>
        match (c.captured m value).2.editTable c.registry id (write k object) with
        | .ok (replaced,s) => (.ok (),{ m with store := s.drop replaced.toList })
        | .error fault => (.error fault,
          { m with store := (c.captured m value).2.drop object.toList }) := by
  unfold set
  rw [hk]
  rfl

theorem later_set (c : Context) (m : Memory) (table key value : Value) :
    m.store.Later (c.set m table key value).2.store := by
  cases hk : key.toKey with
  | error fault => simpa [set, hk] using Store.Later.refl m.store
  | ok k =>
    cases table with
    | nil | boolean | integer | float | string | function =>
      simpa [set, hk] using Store.Later.refl m.store
    | table cell =>
      simp only [set, hk]
      split <;> exact .refl m.store
    | shared id =>
      rw [set_shared c m key value hk]
      have hlater := c.later_captured m value
      split
      · exact hlater
      · split
        · rename_i hedit
          exact (hlater.trans (later_editTable hedit)).trans (Store.later_drop _ _)
        · exact hlater.trans (Store.later_drop _ _)

/-- An assignment keeps the books whether it succeeds, or fails before or after the capture. -/
theorem balanced_set {m : Memory} {out : Multiset Share} (hr : c.registry < m.store.registries.size)
    (hb : m.store.Balanced out) (table key value : Value) :
    (c.set m table key value).2.store.Balanced out := by
  cases hk : key.toKey with
  | error fault => simpa [set, hk] using hb
  | ok k =>
    cases table with
    | nil | boolean | integer | float | string | function => simpa [set, hk] using hb
    | table cell =>
      simp only [set, hk]
      split <;> exact hb
    | shared id =>
      rw [set_shared c m key value hk]
      have hcaptured := balanced_captured hr hb value
      cases ho : (c.captured m value).1 with
      | error fault =>
        rw [ho, granted_error, zero_add] at hcaptured
        exact hcaptured
      | ok object =>
        rw [ho, granted_ok] at hcaptured
        simp only
        split
        · rename_i replaced t hedit
          exact Store.Balanced.drop (by rw [shares_toList]; exact balanced_write hcaptured hedit)
        · exact Store.Balanced.drop (by rwa [shares_toList])

end Context

end Workers
