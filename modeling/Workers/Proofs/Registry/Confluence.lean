import Workers.Proofs.Registry.Relieved
/-! # The order of releases

A cascade gives up shares one after another, and every table that this frees adds those filed in it.
Whichever comes next, in the end the same shares are gone: those asked for, and whatever was filed
under an entry all of whose holders are gone.  So two orders of release leave the same slots behind,
and only the stack of free slots tells them apart.
-/
namespace Workers

open TableHandle (shares)

namespace Store

/-- The same stores but for the order in which free slots are used again. -/
structure Alike (s t : Store) : Prop where
  size_eq : t.registries.size = s.registries.size
  number_eq : ∀ r, (t.registry r).nextNumber = (s.registry r).nextNumber
  /-- The same entries with the same tables and holders, and the same generation of every slot. -/
  slots_eq : ∀ r, (t.arena r).slots = (s.arena r).slots
  live_eq : ∀ r, t.liveEntries r = s.liveEntries r
  free_perm : ∀ r, (t.arena r).free.Perm (s.arena r).free

def releaseEach (s : Store) (r : RegistryId) (holder : Holder) (ids : List EntryId) : Store :=
  ids.foldl (fun s id => (s.release r id holder).2) s

/-- What goes when some shares are given up: these, and what is filed under an entry whose holders
all go. -/
inductive Falls (s : Store) (asked : Multiset Share) : Share → Prop
  | asked {x : Share} (hx : x ∈ asked) : Falls s asked x
  | nested {r : RegistryId} {id : EntryId} {e : Entry (Guarded SharedTable)} {x : Share}
      (he : (s.arena r).find? id = some e) (hall : ∀ k ∈ e.holders, Falls s asked ⟨r,id,k⟩)
      (hx : x ∈ tableShares e.content) : Falls s asked x

structure Underway (s : Store) (asked pending : Multiset Share) (gone : List Share) : Prop where
  owed : ∀ x ∈ asked, x ∈ gone ∨ x ∈ pending
  nested : ∀ r id e, (s.arena r).find? id = some e → (∀ k ∈ e.holders, (⟨r,id,k⟩ : Share) ∈ gone) →
    ∀ x ∈ tableShares e.content, x ∈ gone ∨ x ∈ pending
  falls : ∀ x, x ∈ gone ∨ x ∈ pending → s.Falls asked x

/-- The store after some shares have been given up, with everything that follows. -/
def Settled (s : Store) (asked : Multiset Share) (t : Store) : Prop :=
  ∃ gone : List Share, t = gone.foldl giveUp s ∧ s.Underway asked 0 gone

variable {s t : Store} {asked pending : Multiset Share} {gone : List Share} {r : RegistryId}
    {holder : Holder}

/-- A release frees the table of an entry if it takes the only holder. -/
theorem detach_eq_some {id : EntryId} {table : SharedTable} : (s.detach r id holder).1 = some table ↔
    ∃ e, (s.arena r).find? id = some e ∧ e.holders = [holder] ∧ e.content.content = table := by
  by_cases hheld : (s.arena r).Holds id holder
  · obtain ⟨e,he,hm⟩ := hheld
    have hr : r < s.registries.size := lt_of_find? he
    unfold detach
    rw [if_pos hr, he]
    rcases Arena.detach_of_holds he hm with ⟨hone,hd⟩ | ⟨hmore,hd⟩
    · simp [hd, hone]
    · rw [hd]
      simp only [Option.map_none, reduceCtorEq, Option.some.injEq, false_iff]
      rintro ⟨e',rfl,hone,_⟩
      rw [hone] at hmore
      simp at hmore
  · have hnone : (s.detach r id holder).1 = none := by
      unfold detach
      split
      · rw [Arena.detach_of_not_holds hheld]
        rfl
      · rfl
    rw [hnone]
    simp only [reduceCtorEq, false_iff]
    rintro ⟨e,he,hone,_⟩
    exact hheld ⟨e,he,by simp [hone]⟩

/-- After some shares are gone, the next one frees a table if it is the last of the entry's holders. -/
theorem detach_giveUps (hs : ∀ q, (s.arena q).Sound) {x : Share} {table : SharedTable} :
    ((gone.foldl giveUp s).detach x.registry x.entry x.holder).1 = some table ↔
      ∃ e, (s.arena x.registry).find? x.entry = some e ∧ e.content.content = table ∧
        (∃ k ∈ e.holders, (⟨x.registry,x.entry,k⟩ : Share) ∉ gone) ∧
        ∀ k ∈ e.holders, (⟨x.registry,x.entry,k⟩ : Share) ∈ gone ++ [x] := by
  rw [detach_eq_some]
  simp only [find?_giveUps hs, Option.bind_eq_some_iff]
  constructor
  · rintro ⟨rest,⟨e,he,hwithout⟩,hone,htable⟩
    obtain ⟨rfl,k,hk,hstays⟩ := Entry.without_eq_some hwithout
    refine ⟨e,he,htable,⟨k,hk,by simpa using hstays⟩,fun k hk => ?_⟩
    by_cases hgone : (⟨x.registry,x.entry,k⟩ : Share) ∈ gone
    · exact List.mem_append_left _ hgone
    · have hmem : k ∈ e.holders.filter fun k => !decide ((⟨x.registry,x.entry,k⟩ : Share) ∈ gone) :=
        List.mem_filter.mpr ⟨hk,by simp [hgone]⟩
      rw [show (e.holders.filter _) = [x.holder] from hone] at hmem
      rw [List.mem_singleton.mp hmem]
      exact List.mem_append_right gone List.mem_cons_self
  · rintro ⟨e,he,htable,⟨k,hk,hstays⟩,hlast⟩
    have hk' : k = x.holder := by
      rcases List.mem_append.mp (hlast k hk) with hgone | hx
      · exact absurd hgone hstays
      · exact congrArg Share.holder (List.mem_singleton.mp hx)
    have hfilter : (e.holders.filter fun k => !decide ((⟨x.registry,x.entry,k⟩ : Share) ∈ gone)) =
        [x.holder] := by
      have hnodup := ((hs x.registry).holders_nodup _ e he).filter
        fun k => !decide ((⟨x.registry,x.entry,k⟩ : Share) ∈ gone)
      refine List.perm_singleton.mp
        ((List.perm_ext_iff_of_nodup hnodup (List.nodup_singleton _)).mpr fun j => ?_)
      rw [List.mem_filter, List.mem_singleton]
      constructor
      · rintro ⟨hj,hstays'⟩
        rcases List.mem_append.mp (hlast j hj) with hgone | hx
        · simp [hgone] at hstays'
        · exact congrArg Share.holder (List.mem_singleton.mp hx)
      · rintro rfl
        exact ⟨hk' ▸ hk,by simpa [← hk'] using hstays⟩
    refine ⟨{ e with holders := [x.holder] },⟨e,he,?_⟩,rfl,htable⟩
    simp [Entry.without, hfilter]

theorem Underway.start (hs : ∀ q, (s.arena q).Sound) (asked : Multiset Share) :
    s.Underway asked (asked + 0) [] where
  owed x hx := .inr (Multiset.mem_add.mpr (.inl hx))
  nested r id e he hall := by
    obtain ⟨k,hk⟩ := List.exists_mem_of_ne_nil _ ((hs r).holders_ne_nil id e he)
    exact absurd (hall k hk) List.not_mem_nil
  falls x hx := by
    rw [add_zero] at hx
    exact .asked (hx.resolve_left List.not_mem_nil)

/-- One share is given up, and what this frees is in hand from now on. -/
theorem Underway.giveUp (hs : ∀ q, (s.arena q).Sound) {x : Share}
    (h : s.Underway asked ({x} + pending) gone) :
    s.Underway asked (((gone.foldl Store.giveUp s).detach x.registry x.entry x.holder).1.elim 0
      (fun table => shares table.handles) + pending) (gone ++ [x]) := by
  have hmoved : ∀ y, y ∈ gone ∨ y ∈ ({x} : Multiset Share) + pending → y ∈ gone ++ [x] ∨
      y ∈ pending := by
    rintro y (hy | hy)
    · exact .inl (List.mem_append_left _ hy)
    · rcases Multiset.mem_add.mp hy with hy | hy
      · exact .inl (List.mem_append_right _ (List.mem_singleton.mpr (Multiset.mem_singleton.mp hy)))
      · exact .inr hy
  have hfalls : ∀ y ∈ gone ++ [x], s.Falls asked y := by
    intro y hy
    rcases List.mem_append.mp hy with hy | hy
    · exact h.falls y (.inl hy)
    · rw [List.mem_singleton.mp hy]
      exact h.falls x (.inr (by simp))
  refine ⟨fun y hy => ?_,fun r id e he hall y hy => ?_,fun y hy => ?_⟩
  · exact (hmoved y (h.owed y hy)).imp_right fun hy => Multiset.mem_add.mpr (.inr hy)
  · by_cases hbefore : ∀ k ∈ e.holders, (⟨r,id,k⟩ : Share) ∈ gone
    · exact (hmoved y (h.nested r id e he hbefore y hy)).imp_right fun hy =>
        Multiset.mem_add.mpr (.inr hy)
    · push Not at hbefore
      obtain ⟨k,hk,hstays⟩ := hbefore
      have hx : (⟨r,id,k⟩ : Share) = x := by
        rcases List.mem_append.mp (hall k hk) with hgone | hx
        · exact absurd hgone hstays
        · exact List.mem_singleton.mp hx
      subst hx
      have hfreed := (detach_giveUps hs).mpr ⟨e,he,rfl,⟨k,hk,hstays⟩,hall⟩
      rw [hfreed, Option.elim_some]
      exact .inr (Multiset.mem_add.mpr (.inl hy))
  · rcases hy with hy | hy
    · exact hfalls y hy
    · rcases Multiset.mem_add.mp hy with hy | hy
      · cases hfreed : ((gone.foldl Store.giveUp s).detach x.registry x.entry x.holder).1 with
        | none =>
          rw [hfreed] at hy
          exact absurd hy (Multiset.notMem_zero y)
        | some table =>
          rw [hfreed, Option.elim_some] at hy
          obtain ⟨e,he,rfl,_,hall⟩ := (detach_giveUps hs).mp hfreed
          exact .nested he (fun k hk => hfalls _ (hall k hk)) hy
      · exact h.falls y (.inr (Multiset.mem_add.mpr (.inr hy)))

theorem foldl_giveUp_append (gone : List Share) (x : Share) :
    (gone ++ [x]).foldl Store.giveUp s =
    ((gone.foldl Store.giveUp s).detach x.registry x.entry x.holder).2 := by
  rw [List.foldl_append]
  rfl

/-- Handles in hand are dropped with all that follows. -/
theorem Underway.settle (hs : ∀ q, (s.arena q).Sound) {handles : List TableHandle}
    (h : s.Underway asked (shares handles + pending) gone) :
    ∃ gone', (gone.foldl Store.giveUp s).settle handles = gone'.foldl Store.giveUp s ∧
      s.Underway asked pending gone' := by
  have hend := settle_induction (motive := fun t rest => ∃ gone', t = gone'.foldl Store.giveUp s ∧
    s.Underway asked (shares rest + pending) gone') ⟨gone,rfl,h⟩ ?_ ?_
  · simpa using hend
  · rintro t handle rest hstrong ⟨gone',rfl,h'⟩
    rw [TableHandle.shares_cons, TableHandle.share_of_strong hstrong, add_assoc] at h'
    refine ⟨_,(foldl_giveUp_append gone' ⟨handle.registry,handle.entry,handle.holder⟩).symm,?_⟩
    have hnext := h'.giveUp hs
    cases hfreed : ((gone'.foldl Store.giveUp s).detach handle.registry handle.entry
        handle.holder).1 with
    | none => simpa [hfreed] using hnext
    | some table => simpa [hfreed, add_assoc] using hnext
  · rintro t handle rest hweak ⟨gone',rfl,h'⟩
    rw [TableHandle.shares_cons, TableHandle.share_of_weak hweak, zero_add] at h'
    exact ⟨gone',rfl,h'⟩

/-- One holder of an entry is released with all that follows. -/
theorem Underway.release (hs : ∀ q, (s.arena q).Sound) {id : EntryId}
    (h : s.Underway asked ({⟨r,id,holder⟩} + pending) gone) :
    ∃ gone', ((gone.foldl Store.giveUp s).release r id holder).2 = gone'.foldl Store.giveUp s ∧
      s.Underway asked pending gone' := by
  have hnext := h.giveUp hs
  have hstore := foldl_giveUp_append (s := s) gone ⟨r,id,holder⟩
  unfold Store.release
  split
  · rename_i table t heq
    rw [heq] at hnext hstore
    obtain ⟨gone',hgone',hdone⟩ := hnext.settle hs
    rw [hstore] at hgone'
    exact ⟨gone',hgone',hdone⟩
  · rename_i t heq
    rw [heq] at hnext hstore
    exact ⟨gone ++ [⟨r,id,holder⟩],hstore.symm,by simpa using hnext⟩

def sharesOf (r : RegistryId) (holder : Holder) (ids : List EntryId) : Multiset Share :=
  (ids.map fun id => (⟨r,id,holder⟩ : Share) : List Share)

theorem sharesOf_cons (r : RegistryId) (holder : Holder) (id : EntryId) (ids : List EntryId) :
    sharesOf r holder (id :: ids) = {⟨r,id,holder⟩} + sharesOf r holder ids := by
  rw [Multiset.singleton_add]
  rfl

theorem Underway.releaseEach (hs : ∀ q, (s.arena q).Sound) {ids : List EntryId}
    (h : s.Underway asked (sharesOf r holder ids + pending) gone) :
    ∃ gone', (gone.foldl Store.giveUp s).releaseEach r holder ids = gone'.foldl Store.giveUp s ∧
      s.Underway asked pending gone' := by
  induction ids generalizing gone with
  | nil => exact ⟨gone,rfl,by simpa [sharesOf] using h⟩
  | cons id rest ih =>
    rw [sharesOf_cons, add_assoc] at h
    obtain ⟨gone',hgone',hnext⟩ := h.release hs
    obtain ⟨gone'',hgone'',hdone⟩ := ih hnext
    refine ⟨gone'',?_,hdone⟩
    rw [← hgone'', ← hgone']
    rfl

/-- Many entries are released before the first table that this frees is dropped. -/
theorem Underway.detachAll (hs : ∀ q, (s.arena q).Sound) {ids : List EntryId}
    (h : s.Underway asked (sharesOf r holder ids + pending) gone) :
    ∃ gone', ((gone.foldl Store.giveUp s).detachAll r holder ids).2 = gone'.foldl Store.giveUp s ∧
      s.Underway asked (shares (((gone.foldl Store.giveUp s).detachAll r holder ids).1.flatMap
        SharedTable.handles) +
        pending) gone' := by
  induction ids generalizing gone pending with
  | nil => exact ⟨gone,rfl,by simpa [sharesOf, Store.detachAll] using h⟩
  | cons id rest ih =>
    rw [sharesOf_cons, add_assoc] at h
    have hnext := h.giveUp hs
    rw [add_left_comm] at hnext
    obtain ⟨gone',hgone',hdone⟩ := ih hnext
    rw [foldl_giveUp_append] at hgone' hdone
    refine ⟨gone',hgone',?_⟩
    simp only [Store.detachAll, List.flatMap_append, TableHandle.shares_append]
    rw [add_assoc, add_left_comm]
    cases hfreed : ((gone.foldl Store.giveUp s).detach r id holder).1 with
    | none => simpa [hfreed] using hdone
    | some table => simpa [hfreed] using hdone

theorem settled_releaseEach (hs : ∀ q, (s.arena q).Sound) (r : RegistryId) (holder : Holder)
    (ids : List EntryId) :
    s.Settled (sharesOf r holder ids) (s.releaseEach r holder ids) :=
  (Underway.start hs _).releaseEach hs

theorem settled_releaseAll (hs : ∀ q, (s.arena q).Sound) (r : RegistryId) (holder : Holder)
    (ids : List EntryId) :
    s.Settled (sharesOf r holder ids) (s.releaseAll r holder ids) := by
  obtain ⟨gone,hgone,hnext⟩ := (Underway.start hs _).detachAll hs
  obtain ⟨gone',hgone',hdone⟩ := hnext.settle hs
  refine ⟨gone',?_,hdone⟩
  rw [← hgone', ← hgone]
  rfl

theorem settled_settle (hs : ∀ q, (s.arena q).Sound) (handles : List TableHandle) :
    s.Settled (shares handles) (s.settle handles) :=
  (Underway.start hs _).settle hs

/-- In the end the shares that are gone are those that fall. -/
theorem Underway.mem_iff (h : s.Underway asked 0 gone) (x : Share) : x ∈ gone ↔ s.Falls asked x := by
  constructor
  · exact fun hx => h.falls x (.inl hx)
  · intro hx
    induction hx with
    | asked hx => exact (h.owed _ hx).resolve_right (Multiset.notMem_zero _)
    | nested he _ hx ih => exact (h.nested _ _ _ he ih _ hx).resolve_right (Multiset.notMem_zero _)

theorem number_giveUps (gone : List Share) (q : RegistryId) :
    ((gone.foldl Store.giveUp s).registry q).nextNumber = (s.registry q).nextNumber := by
  induction gone generalizing s with
  | nil => rfl
  | cons x rest ih =>
    rw [List.foldl_cons, ih]
    unfold Store.giveUp detach
    split
    · unfold setArena
      rw [registry_setRegistry]
      split
      · rename_i hq
        rw [hq.1]
      · rfl
    · rfl

theorem size_giveUps (gone : List Share) :
    (gone.foldl Store.giveUp s).registries.size = s.registries.size := by
  induction gone generalizing s with
  | nil => rfl
  | cons x rest ih =>
    rw [List.foldl_cons, ih]
    exact registries_detach _ _ _

end Store

/-- The free slots and the number of live entries can be read off the slots. -/
theorem Arena.Sound.free_perm {τ : Type} {a b : Arena τ} (ha : a.Sound) (hb : b.Sound)
    (h : b.slots = a.slots) :
    b.free.Perm a.free ∧ b.live = a.live := by
  constructor
  · refine (List.perm_ext_iff_of_nodup hb.free_nodup ha.free_nodup).mpr fun i => ?_
    constructor
    · intro hi
      obtain ⟨slot,hslot,hempty⟩ := hb.free_empty i hi
      exact ha.empty_free i slot (h ▸ hslot) hempty
    · intro hi
      obtain ⟨slot,hslot,hempty⟩ := ha.free_empty i hi
      exact hb.empty_free i slot (h ▸ hslot) hempty
  · rw [ha.live_eq, hb.live_eq]
    unfold occupied
    rw [h]

namespace Store

variable {s s' t t' : Store} {asked : Multiset Share}

theorem Alike.refl (s : Store) : s.Alike s :=
  ⟨rfl,fun _ => rfl,fun _ => rfl,fun _ => rfl,fun _ => .refl _⟩

theorem Alike.symm (h : s.Alike s') : s'.Alike s where
  size_eq := h.size_eq.symm
  number_eq r := (h.number_eq r).symm
  slots_eq r := (h.slots_eq r).symm
  live_eq r := (h.live_eq r).symm
  free_perm r := (h.free_perm r).symm

theorem Alike.find?_eq (h : s.Alike s') (r : RegistryId) (id : EntryId) :
    (s'.arena r).find? id = (s.arena r).find? id := by
  unfold Arena.find?
  rw [h.slots_eq]

theorem Alike.sound (h : s.Alike s') (hs : ∀ q, (s.arena q).Sound) (q : RegistryId) :
    (s'.arena q).Sound where
  free_empty i hi := by
    rw [h.slots_eq]
    exact (hs q).free_empty i ((h.free_perm q).mem_iff.mp hi)
  empty_free i slot hslot hempty := by
    rw [h.slots_eq] at hslot
    exact (h.free_perm q).mem_iff.mpr ((hs q).empty_free i slot hslot hempty)
  free_nodup := (h.free_perm q).nodup_iff.mpr (hs q).free_nodup
  live_eq := by
    have hlive : (s'.arena q).live = (s.arena q).live := h.live_eq q
    rw [hlive, (hs q).live_eq]
    unfold Arena.occupied
    rw [h.slots_eq]
  holders_nodup id e he := (hs q).holders_nodup id e (h.find?_eq q id ▸ he)
  holders_ne_nil id e he := (hs q).holders_ne_nil id e (h.find?_eq q id ▸ he)

theorem Alike.falls (h : s.Alike s') {x : Share} (hx : s.Falls asked x) : s'.Falls asked x := by
  induction hx with
  | asked hx => exact .asked hx
  | nested he _ hx ih => exact .nested ((h.find?_eq _ _).trans he) ih hx

theorem Settled.sound (hs : ∀ q, (s.arena q).Sound) (h : s.Settled asked t) (q : RegistryId) :
    (t.arena q).Sound := by
  obtain ⟨gone,rfl,_⟩ := h
  exact sound_giveUps hs gone q

/-- What is left after some shares are given up depends neither on the order nor on the free slots. -/
theorem Settled.alike (hs : ∀ q, (s.arena q).Sound) (h : s.Alike s') (ht : s.Settled asked t)
    (ht' : s'.Settled asked t') : t.Alike t' := by
  have hs' := h.sound hs
  obtain ⟨gone,rfl,hgone⟩ := ht
  obtain ⟨gone',rfl,hgone'⟩ := ht'
  have hmem : ∀ x, x ∈ gone' ↔ x ∈ gone := by
    intro x
    rw [hgone.mem_iff, hgone'.mem_iff]
    exact ⟨fun hx => h.symm.falls hx,fun hx => h.falls hx⟩
  have hslots : ∀ q, ((gone'.foldl giveUp s').arena q).slots =
      ((gone.foldl giveUp s).arena q).slots := by
    intro q
    apply Array.ext_getElem?
    intro i
    rw [slots_giveUps hs', slots_giveUps hs, h.slots_eq]
    exact congrArg (fun f => ((s.arena q).slots[i]?).map f)
      (funext fun slot => Slot.relieved_congr hmem q i slot)
  have hfree := fun q => (sound_giveUps hs gone q).free_perm (sound_giveUps hs' gone' q) (hslots q)
  refine ⟨?_,fun q => ?_,hslots,fun q => (hfree q).2,fun q => (hfree q).1⟩
  · rw [size_giveUps, size_giveUps, h.size_eq]
  · rw [number_giveUps, number_giveUps, h.number_eq]

theorem sharesOf_perm {ids order : List EntryId} (h : ids.Perm order) (r : RegistryId)
    (holder : Holder) :
    sharesOf r holder order = sharesOf r holder ids := Multiset.coe_eq_coe.mpr (h.map _).symm

/-- Releasing a batch, in one order or in another, leaves the same behind. -/
theorem alike_releaseAll (hs : ∀ q, (s.arena q).Sound) (h : s.Alike s') (r : RegistryId)
    (holder : Holder) {ids order : List EntryId} (hperm : ids.Perm order) :
    (s.releaseAll r holder ids).Alike (s'.releaseAll r holder order) := by
  have hbatch := settled_releaseAll (h.sound hs) r holder order
  rw [sharesOf_perm hperm] at hbatch
  exact (settled_releaseAll hs r holder ids).alike hs h hbatch

/-- Releasing a batch and releasing one entry after another, in any order, leave the same behind. -/
theorem alike_releaseEach (hs : ∀ q, (s.arena q).Sound) (r : RegistryId) (holder : Holder)
    {ids order : List EntryId} (hperm : ids.Perm order) :
    (s.releaseAll r holder ids).Alike (s.releaseEach r holder order) := by
  have hsingle := settled_releaseEach hs r holder order
  rw [sharesOf_perm hperm] at hsingle
  exact (settled_releaseAll hs r holder ids).alike hs (.refl s) hsingle

theorem alike_settle (hs : ∀ q, (s.arena q).Sound) (h : s.Alike s') (handles : List TableHandle) :
    (s.settle handles).Alike (s'.settle handles) :=
  (settled_settle hs handles).alike hs h (settled_settle (h.sound hs) handles)

end Store

end Workers
