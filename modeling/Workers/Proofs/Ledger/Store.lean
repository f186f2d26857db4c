import Workers.Proofs.Ledger.Arena
import Workers.Proofs.Lists
import Workers.Registry.Store
/-! # The ledger of a store

Every strong handle is one share in the entry it names, and so is every reference that a context or
a worker keeps.  A store is balanced against the shares outside its tables if the holders in its
entries are exactly the shares filed in tables and the shares outside, each of them once.  The
release cascade keeps this balance, which is what makes reference accounting exact.
-/
namespace Workers

/-- One reference as its owner records it. -/
structure Share where
  registry : RegistryId
  entry : EntryId
  holder : Holder
  deriving DecidableEq

def Holder.number : Holder → Nat
  | context n | store n | thread n => n

namespace TableHandle

def share (h : TableHandle) : Multiset Share :=
  if h.strong then {⟨h.registry,h.entry,h.holder⟩} else 0

theorem share_of_strong {h : TableHandle} (hstrong : h.strong = true) :
    h.share = {⟨h.registry,h.entry,h.holder⟩} :=
  if_pos hstrong

theorem share_of_weak {h : TableHandle} (hweak : ¬ h.strong = true) : h.share = 0 := if_neg hweak

def shares (hs : List TableHandle) : Multiset Share := (hs.map share).sum

@[simp] theorem shares_nil : shares [] = 0 := rfl

@[simp] theorem shares_cons (h : TableHandle) (hs : List TableHandle) :
    shares (h :: hs) = h.share + shares hs := by simp [shares]

@[simp] theorem shares_append (hs gs : List TableHandle) :
    shares (hs ++ gs) = shares hs + shares gs := by simp [shares]

theorem mem_share {h : TableHandle} {x : Share} :
    x ∈ h.share ↔ h.strong = true ∧ x = ⟨h.registry,h.entry,h.holder⟩ := by
  unfold share
  split <;> simp_all

theorem mem_shares {hs : List TableHandle} {x : Share} :
    x ∈ shares hs ↔ ∃ h ∈ hs, h.strong = true ∧ x = ⟨h.registry,h.entry,h.holder⟩ := by
  simp only [shares, mem_sum_map, mem_share]

end TableHandle

open TableHandle (shares)

namespace Store

def tableShares (g : Guarded SharedTable) : Multiset Share := shares g.content.handles

def filed (s : Store) : Multiset Share :=
  (s.registries.toList.map fun r => r.arena.total tableShares).sum

def Holds (s : Store) (x : Share) : Prop := (s.arena x.registry).Holds x.entry x.holder

/-- The holders registered in entries are the shares filed in tables and those outside, each of
them once, and every number in use has been given out. -/
structure Balanced (s : Store) (out : Multiset Share) : Prop where
  sound : ∀ r, (s.arena r).Sound
  exact : ∀ x, s.Holds x ↔ x ∈ s.filed + out
  nodup : (s.filed + out).Nodup
  given : ∀ x ∈ s.filed + out, x.holder.number < (s.registry x.registry).nextNumber

structure Later (s t : Store) : Prop where
  size_eq : t.registries.size = s.registries.size
  number_le : ∀ q, (s.registry q).nextNumber ≤ (t.registry q).nextNumber

theorem Later.refl (s : Store) : s.Later s := ⟨rfl,fun _ => le_rfl⟩

theorem Later.trans {s t u : Store} (h : s.Later t) (h' : t.Later u) : s.Later u :=
  ⟨h'.size_eq.trans h.size_eq,fun q => (h.number_le q).trans (h'.number_le q)⟩

section Registries

variable {s : Store} {r : RegistryId}

theorem registry_setRegistry (s : Store) (r q : RegistryId) (registry : Registry) :
    (s.setRegistry r registry).registry q =
      if q = r ∧ r < s.registries.size then registry else s.registry q := by
  unfold Store.registry setRegistry
  rw [Array.getElem?_modify]
  by_cases hq : r = q
  · subst hq
    by_cases hr : r < s.registries.size
    · simp [hr]
    · simp [hr]
  · have hq' : ¬ q = r := fun h => hq h.symm
    simp [hq, hq']

theorem registries_setRegistry (s : Store) (r : RegistryId) (registry : Registry) :
    (s.setRegistry r registry).registries.size = s.registries.size := by simp [setRegistry]

theorem setRegistry_of_not_lt (hr : ¬ r < s.registries.size) (registry : Registry) :
    s.setRegistry r registry = s := by
  have hmodify : (s.registries.modify r fun _ => registry) = s.registries := by
    apply Array.ext_getElem?
    intro i
    rw [Array.getElem?_modify]
    split
    · rename_i hi
      subst hi
      simp [hr]
    · rfl
  simp [setRegistry, hmodify]

theorem arena_setArena (s : Store) (r q : RegistryId) (a : Arena (Guarded SharedTable)) :
    (s.setArena r a).arena q = if q = r ∧ r < s.registries.size then a else s.arena q := by
  unfold arena setArena
  rw [registry_setRegistry]
  split <;> rfl

theorem later_setArena (s : Store) (r : RegistryId) (a : Arena (Guarded SharedTable)) :
    s.Later (s.setArena r a) := by
  refine ⟨registries_setRegistry s r _,fun q => ?_⟩
  unfold setArena
  rw [registry_setRegistry]
  split
  · rename_i h; rw [h.1]
  · exact le_rfl

theorem filed_setRegistry (hr : r < s.registries.size) (registry : Registry) :
    (s.setRegistry r registry).filed + (s.arena r).total tableShares =
      s.filed + registry.arena.total tableShares := by
  simpa [filed, setRegistry, arena, List.sum_eq_foldr] using
    foldr_map_modify (M := Multiset Share) (· + ·) 0
      (fun r : Registry => r.arena.total tableShares) (fun _ => registry) s.registries.toList r
      (registry_at hr)

theorem filed_setArena (hr : r < s.registries.size) (a : Arena (Guarded SharedTable)) :
    (s.setArena r a).filed + (s.arena r).total tableShares = s.filed + a.total tableShares :=
  filed_setRegistry hr _

theorem arena_of_not_lt (hr : ¬ r < s.registries.size) : s.arena r = {} := by
  simp [arena, registry, hr]

theorem lt_of_find? {id : EntryId} {e : Entry (Guarded SharedTable)}
    (he : (s.arena r).find? id = some e) :
    r < s.registries.size := by
  by_contra hr
  rw [arena_of_not_lt hr] at he
  simp at he

theorem lt_of_holds {x : Share} (hx : s.Holds x) : x.registry < s.registries.size := by
  obtain ⟨e,he,_⟩ := hx
  exact lt_of_find? he

end Registries

section Numbers

variable (s : Store) (r q : RegistryId)

@[simp] theorem arena_nextNumber : (s.nextNumber r).2.arena q = s.arena q := by
  unfold nextNumber arena
  rw [registry_setRegistry]
  split
  · rename_i h; rw [h.1]
  · rfl

theorem nextNumber_nextNumber : ((s.nextNumber r).2.registry q).nextNumber =
    if q = r ∧ r < s.registries.size then (s.registry r).nextNumber + 1
    else (s.registry q).nextNumber := by
  unfold nextNumber
  rw [registry_setRegistry]
  split <;> rfl

theorem later_nextNumber : s.Later (s.nextNumber r).2 := by
  refine ⟨registries_setRegistry s r _,fun q => ?_⟩
  rw [nextNumber_nextNumber]
  split
  · rename_i h; rw [h.1]; omega
  · exact le_rfl

theorem number_lt_nextNumber {s : Store} {r : RegistryId} (hr : r < s.registries.size) :
    (s.registry r).nextNumber < ((s.nextNumber r).2.registry r).nextNumber := by
  rw [nextNumber_nextNumber, if_pos ⟨rfl,hr⟩]
  exact Nat.lt_succ_self _

@[simp] theorem filed_nextNumber : (s.nextNumber r).2.filed = s.filed := by
  by_cases hr : r < s.registries.size
  · exact add_right_cancel (filed_setRegistry hr _)
  · exact congrArg filed (setRegistry_of_not_lt hr _)

end Numbers

section Change

variable {s t : Store} {out out' : Multiset Share} {x : Share}

/-- The registered holders and the numbers do not depend on how the shares are split. -/
theorem Balanced.regroup (h : s.Balanced out) (hsound : ∀ r, (t.arena r).Sound)
    (hlater : s.Later t)
    (hholds : ∀ y, t.Holds y ↔ s.Holds y) (heq : t.filed + out' = s.filed + out) : t.Balanced out' where
  sound := hsound
  exact y := by rw [hholds, h.exact, heq]
  nodup := heq ▸ h.nodup
  given y hy := (h.given y (heq ▸ hy)).trans_le (hlater.number_le _)

theorem Balanced.gain (h : s.Balanced out) (hsound : ∀ r, (t.arena r).Sound)
    (hlater : s.Later t)
    (hnew : ¬ s.Holds x) (hgiven : x.holder.number < (t.registry x.registry).nextNumber)
    (hholds : ∀ y, t.Holds y ↔ s.Holds y ∨ y = x)
    (heq : t.filed + out' = {x} + (s.filed + out)) : t.Balanced out' where
  sound := hsound
  exact y := by
    rw [hholds, h.exact, heq, Multiset.singleton_add, Multiset.mem_cons, or_comm]
  nodup := by
    rw [heq, Multiset.singleton_add]
    exact Multiset.nodup_cons.mpr ⟨fun hx => hnew ((h.exact x).mpr hx),h.nodup⟩
  given y hy := by
    rw [heq, Multiset.singleton_add, Multiset.mem_cons] at hy
    rcases hy with rfl | hy
    · exact hgiven
    · exact (h.given y hy).trans_le (hlater.number_le _)

theorem Balanced.lose (h : s.Balanced out) (hsound : ∀ r, (t.arena r).Sound)
    (hlater : s.Later t)
    (hholds : ∀ y, t.Holds y ↔ s.Holds y ∧ y ≠ x)
    (heq : {x} + (t.filed + out') = s.filed + out) : t.Balanced out' := by
  have hnodup := h.nodup
  rw [← heq, Multiset.singleton_add] at hnodup
  obtain ⟨hx,hrest⟩ := Multiset.nodup_cons.mp hnodup
  refine ⟨hsound,?_,hrest,?_⟩
  · intro y
    rw [hholds, h.exact, ← heq, Multiset.singleton_add, Multiset.mem_cons]
    constructor
    · rintro ⟨rfl | hy,hne⟩
      · exact absurd rfl hne
      · exact hy
    · exact fun hy => ⟨.inr hy,fun hyx => hx (hyx ▸ hy)⟩
  · intro y hy
    have hmem : y ∈ s.filed + out := by
      rw [← heq, Multiset.singleton_add]
      exact Multiset.mem_cons_of_mem hy
    exact (h.given y hmem).trans_le (hlater.number_le _)

end Change

section Operations

variable {s t : Store} {r : RegistryId} {id : EntryId} {holder : Holder} {out : Multiset Share}

theorem sound_setArena (h : ∀ q, (s.arena q).Sound) {a : Arena (Guarded SharedTable)} (ha : a.Sound)
    (q : RegistryId) : ((s.setArena r a).arena q).Sound := by
  rw [arena_setArena]
  split
  · exact ha
  · exact h q

theorem holds_setArena (hr : r < s.registries.size) (a : Arena (Guarded SharedTable)) (y : Share) :
    (s.setArena r a).Holds y ↔ if y.registry = r then a.Holds y.entry y.holder else s.Holds y := by
  unfold Holds
  rw [arena_setArena]
  by_cases hy : y.registry = r <;> simp [hy, hr]

theorem Balanced.not_holds_of_le (h : s.Balanced out) {x : Share}
    (hx : (s.registry x.registry).nextNumber ≤ x.holder.number) : ¬ s.Holds x := by
  intro hh
  have hlt := h.given x ((h.exact x).mp hh)
  omega

theorem Balanced.nextNumber (h : s.Balanced out) (r : RegistryId) : (s.nextNumber r).2.Balanced out := by
  refine h.regroup (by simpa using h.sound) (later_nextNumber s r) ?_ (by simp)
  intro y
  simp [Holds]

/-- An arena with one holder more, which files what is no longer in hand. -/
theorem Balanced.gainIn (hr : r < s.registries.size) {moved : Multiset Share}
    (h : s.Balanced (moved + out)) (hgiven : holder.number < (s.registry r).nextNumber)
    (hnew : ¬ s.Holds ⟨r,id,holder⟩) {a : Arena (Guarded SharedTable)} (hsound : a.Sound)
    (hholds : ∀ j k, a.Holds j k ↔ (s.arena r).Holds j k ∨ (j = id ∧ k = holder))
    (htotal : a.total tableShares = (s.arena r).total tableShares + moved) :
    (s.setArena r a).Balanced ({⟨r,id,holder⟩} + out) := by
  have hlater := later_setArena s r a
  refine h.gain (x := ⟨r,id,holder⟩) (sound_setArena h.sound hsound) hlater hnew
    (hgiven.trans_le (hlater.number_le r)) ?_ ?_
  · intro y
    rw [holds_setArena hr, hholds]
    obtain ⟨q,j,k⟩ := y
    by_cases hq : q = r
    · subst hq
      simp [Holds, Share.mk.injEq]
    · simp [hq, Share.mk.injEq]
  · have hfiled := filed_setArena hr a
    rw [htotal, add_comm ((s.arena r).total tableShares), ← add_assoc] at hfiled
    rw [add_right_cancel hfiled]
    abel

theorem create_fst (s : Store) (r : RegistryId) (table : SharedTable) (holder : Holder) :
    (s.create r table holder).1 = ((s.arena r).create ⟨table,false⟩ holder).1 := rfl

theorem create_snd (s : Store) (r : RegistryId) (table : SharedTable) (holder : Holder) :
    (s.create r table holder).2 = s.setArena r ((s.arena r).create ⟨table,false⟩ holder).2 := rfl

theorem Balanced.create (hr : r < s.registries.size) {table : SharedTable}
    (h : s.Balanced (shares table.handles + out))
    (hgiven : holder.number < (s.registry r).nextNumber) :
    (s.create r table holder).2.Balanced ({⟨r,(s.create r table holder).1,holder⟩} + out) := by
  have ha := h.sound r
  have hbefore := Arena.find?_create_before ⟨table,false⟩ holder ha
  rw [create_snd, create_fst]
  apply h.gainIn hr hgiven (Arena.not_holds hbefore holder) (ha.create _ _)
  · exact Arena.holds_create _ _ ha
  · exact Arena.total_create _ _ tableShares ha

theorem addReference_cases (ht : s.addReference r id holder = .ok t) :
    ∃ a, (s.arena r).addReference id holder = .ok a ∧ t = s.setArena r a := by
  unfold Store.addReference at ht
  cases ha : (s.arena r).addReference id holder with
  | error fault =>
    rw [ha] at ht
    cases ht
  | ok a =>
    rw [ha] at ht
    exact ⟨a,rfl,(Except.ok.inj ht).symm⟩

theorem Balanced.addReference (h : s.Balanced out) (ht : s.addReference r id holder = .ok t)
    (hgiven : holder.number < (s.registry r).nextNumber) (hnew : ¬ s.Holds ⟨r,id,holder⟩) :
    t.Balanced ({⟨r,id,holder⟩} + out) := by
  obtain ⟨a,ha,rfl⟩ := addReference_cases ht
  obtain ⟨e,he,_⟩ := Arena.addReference_eq_ok ha
  have hnone : s.Balanced (0 + out) := by rwa [zero_add]
  apply hnone.gainIn (lt_of_find? he) hgiven hnew ((h.sound r).addReference ha)
  · exact Arena.holds_addReference ha
  · rw [Arena.total_addReference tableShares ha, add_zero]

/-- Removing a holder removes its share; what the release frees is outside of all tables now. -/
theorem Balanced.detach (h : s.Balanced ({⟨r,id,holder⟩} + out)) :
    (s.detach r id holder).2.Balanced
      ((s.detach r id holder).1.elim 0 (fun table => shares table.handles) + out) := by
  have hx : s.Holds ⟨r,id,holder⟩ := (h.exact _).mpr (by simp)
  have hr : r < s.registries.size := lt_of_holds hx
  have ha := h.sound r
  simp only [Store.detach, hr, if_true]
  refine h.lose (x := ⟨r,id,holder⟩) ?_ (later_setArena s r _) ?_ ?_
  · exact fun q => sound_setArena h.sound ha.detach q
  · intro y
    rw [holds_setArena hr, Arena.holds_detach ha]
    obtain ⟨q,j,k⟩ := y
    by_cases hq : q = r
    · subst hq
      simp [Holds, Share.mk.injEq]
    · simp [hq, Share.mk.injEq]
  · have hfiled := filed_setArena hr ((s.arena r).detach id holder).2
    have htotal : ((s.arena r).detach id holder).2.total tableShares +
        ((s.arena r).detach id holder).1.elim 0 tableShares = (s.arena r).total tableShares :=
      Arena.total_detach tableShares
    rw [← htotal, add_comm (((s.arena r).detach id holder).2.total tableShares), ← add_assoc] at hfiled
    have heq := add_right_cancel hfiled
    rw [← heq]
    cases ((s.arena r).detach id holder).1 with
    | none => simp
    | some g =>
      simp only [Option.map_some, Option.elim_some, tableShares]
      abel

theorem later_detach : s.Later (s.detach r id holder).2 := by
  unfold Store.detach
  split
  · exact later_setArena s r _
  · exact .refl s

theorem later_addReference (ht : s.addReference r id holder = .ok t) : s.Later t := by
  obtain ⟨a,_,rfl⟩ := addReference_cases ht
  exact later_setArena s r a

@[simp] theorem settle_nil (s : Store) : s.settle [] = s := by rw [Store.settle]

@[simp] theorem releaseAll_nil (s : Store) (r : RegistryId) (holder : Holder) :
    s.releaseAll r holder [] = s := by
  simp [Store.releaseAll, Store.detachAll]

/-- A strong handle is detached, and what that frees is dropped before the rest. -/
theorem settle_cons_strong (s : Store) {handle : TableHandle} (hstrong : handle.strong = true)
    (rest : List TableHandle) :
    s.settle (handle :: rest) = (s.detach handle.registry handle.entry handle.holder).2.settle
      ((s.detach handle.registry handle.entry handle.holder).1.elim [] SharedTable.handles ++ rest) := by
  rw [Store.settle, if_pos hstrong]
  split
  · rename_i table t heq; simp [heq]
  · rename_i t heq; simp [heq]

theorem settle_cons_weak (s : Store) {handle : TableHandle} (hweak : ¬ handle.strong = true)
    (rest : List TableHandle) : s.settle (handle :: rest) = s.settle rest := by
  rw [Store.settle, if_neg hweak]

/-- Anything that dropping a single strong handle keeps, the whole cascade keeps.  The induction is
on the cascade: a table freed on the way adds its own handles to those still to be dropped. -/
theorem settle_induction {motive : Store → List TableHandle → Prop} {s : Store} {hs : List TableHandle}
    (h : motive s hs)
    (hstep : ∀ s handle rest, handle.strong = true → motive s (handle :: rest) →
      motive (s.detach handle.registry handle.entry handle.holder).2
        ((s.detach handle.registry handle.entry handle.holder).1.elim [] SharedTable.handles ++ rest))
    (hweak : ∀ s handle rest, ¬ handle.strong = true → motive s (handle :: rest) → motive s rest) :
    motive (s.settle hs) [] := by
  induction s, hs using Store.settle.induct with
  | case1 s =>
    rw [Store.settle]
    exact h
  | case2 s handle rest hstrong table t heq ih =>
    have hnext := hstep s handle rest hstrong h
    rw [settle_cons_strong s hstrong, heq]
    rw [heq] at hnext
    exact ih hnext
  | case3 s handle rest hstrong t heq ih =>
    have hnext := hstep s handle rest hstrong h
    rw [settle_cons_strong s hstrong, heq]
    rw [heq] at hnext
    exact ih hnext
  | case4 s handle rest hnot ih =>
    rw [settle_cons_weak s hnot]
    exact ih (hweak s handle rest hnot h)

theorem later_settle (s : Store) (hs : List TableHandle) : s.Later (s.settle hs) :=
  settle_induction (motive := fun t _ => s.Later t) (.refl s) (fun _ _ _ _ h => h.trans later_detach)
    (fun _ _ _ _ h => h)

/-- The cascade gives back exactly the shares of the handles dropped. -/
theorem Balanced.settle {hs : List TableHandle} (h : s.Balanced (shares hs + out)) :
    (s.settle hs).Balanced out := by
  have hend := settle_induction (motive := fun t gs => t.Balanced (shares gs + out)) h ?_ ?_
  · simpa using hend
  · intro t handle rest hstrong ht
    rw [TableHandle.shares_cons, TableHandle.share_of_strong hstrong, add_assoc] at ht
    have hfreed := ht.detach
    cases hd1 : (t.detach handle.registry handle.entry handle.holder).1 with
    | none => simpa [hd1] using hfreed
    | some table => simpa [hd1, add_assoc] using hfreed
  · intro t handle rest hweak ht
    rwa [TableHandle.shares_cons, TableHandle.share_of_weak hweak, zero_add] at ht

/-- All the shares go before the first table that this freed gives back its handles. -/
theorem Balanced.detachAll {ids : List EntryId}
    (h : s.Balanced (((ids.map fun id => (⟨r,id,holder⟩ : Share)) : Multiset Share) + out)) :
    (s.detachAll r holder ids).2.Balanced
      (shares ((s.detachAll r holder ids).1.flatMap SharedTable.handles) + out) := by
  induction ids generalizing s out with
  | nil => simpa [Store.detachAll] using h
  | cons id rest ih =>
    have hd : s.Balanced ({⟨r,id,holder⟩} +
        (((rest.map fun id => (⟨r,id,holder⟩ : Share)) : Multiset Share) + out)) := by
      rw [List.map_cons, ← Multiset.cons_coe, ← Multiset.singleton_add, add_assoc] at h
      exact h
    have hfreed := hd.detach
    rw [add_left_comm] at hfreed
    have hrest := ih hfreed
    simp only [Store.detachAll, List.flatMap_append, TableHandle.shares_append]
    rw [add_assoc, add_left_comm]
    cases hd1 : (s.detach r id holder).1 with
    | none => simpa [hd1] using hrest
    | some table => simpa [hd1] using hrest

theorem Balanced.releaseAll {ids : List EntryId}
    (h : s.Balanced (((ids.map fun id => (⟨r,id,holder⟩ : Share)) : Multiset Share) + out)) :
    (s.releaseAll r holder ids).Balanced out := h.detachAll.settle

theorem later_detachAll (ids : List EntryId) : s.Later (s.detachAll r holder ids).2 := by
  induction ids generalizing s with
  | nil => exact .refl s
  | cons id rest ih => exact later_detach.trans ih

theorem later_releaseAll (s : Store) (r : RegistryId) (holder : Holder) (ids : List EntryId) :
    s.Later (s.releaseAll r holder ids) := (later_detachAll ids).trans (later_settle _ _)

theorem later_setTable (s : Store) (r : RegistryId) (id : EntryId) (g : Guarded SharedTable) :
    s.Later (s.setTable r id g) := later_setArena s r _

/-- The handles of the new content go in and those of the old one come out. -/
theorem Balanced.setTable {out' : Multiset Share} {e : Entry (Guarded SharedTable)}
    {g : Guarded SharedTable} (he : (s.arena r).find? id = some e) (h : s.Balanced out)
    (heq : shares g.content.handles + out' = shares e.content.content.handles + out) :
    (s.setTable r id g).Balanced out' := by
  have hr : r < s.registries.size := lt_of_find? he
  refine h.regroup ?_ (later_setTable s r id g) ?_ ?_
  · exact fun q => sound_setArena h.sound ((h.sound r).setContent g) q
  · intro y
    unfold Store.setTable
    rw [holds_setArena hr, Arena.holds_setContent]
    by_cases hy : y.registry = r
    · simp [Holds, hy]
    · simp [hy]
  · have hfiled := filed_setArena hr ((s.arena r).setContent id g)
    have htotal := Arena.total_setContent g tableShares he
    refine add_right_cancel (b := (s.arena r).total tableShares + tableShares g) ?_
    calc (s.setTable r id g).filed + out' + ((s.arena r).total tableShares + tableShares g)
        = ((s.setTable r id g).filed + (s.arena r).total tableShares) +
        (shares g.content.handles + out') := by
          simp only [tableShares]; abel
      _ = s.filed + ((s.arena r).setContent id g).total tableShares +
          (shares e.content.content.handles + out) := by rw [heq]; exact congrArg (· + _) hfiled
      _ = s.filed + out + (((s.arena r).setContent id g).total tableShares + tableShares e.content) := by
          simp only [tableShares]; abel
      _ = s.filed + out + ((s.arena r).total tableShares + tableShares g) := by rw [htotal]

end Operations

end Store

end Workers
