import Mathlib.Data.Set.Insert
import Workers.Proofs.Registry.Names
/-! # What one call does to the holders that others rely on

A call adds holders, removes those that it is told to, and files the handles it is given.  `Passes`
says so for each of them: which shares are sure to stay registered, and what may be filed afterwards
that was not before.
-/
namespace Workers

open TableHandle (shares)

def Share.owner (x : Share) : RegistryId × Holder := (x.registry,x.holder)

namespace Store

/-- Shares that are `safe` stay registered, and nothing is filed that was not, except the `new`
shares. -/
structure Passes (s : Store) (safe : Share → Prop) (new : Multiset Share) (t : Store) : Prop where
  sound : ∀ r, (t.arena r).Sound
  size_le : s.registries.size ≤ t.registries.size
  number_le : ∀ q, (s.registry q).nextNumber ≤ (t.registry q).nextNumber
  holds : ∀ x, safe x → s.Holds x → t.Holds x
  filed : ∀ x ∈ t.filed, x ∈ s.filed ∨ x ∈ new

abbrev Widens (s : Store) (new : Multiset Share) (t : Store) : Prop := s.Passes (fun _ => True) new t

variable {s t u : Store} {r : RegistryId} {id : EntryId} {holder : Holder} {safe safe' : Share → Prop}
variable {new : Multiset Share} {x : Share}

theorem Holds.isAlive (hx : s.Holds x) : s.isAlive x.registry x.entry = true := by
  obtain ⟨e,he,_⟩ := hx
  simp [Store.isAlive, Arena.isAlive, he]

theorem Passes.refl (hs : ∀ r, (s.arena r).Sound) : s.Passes safe new s :=
  ⟨hs,le_rfl,fun _ => le_rfl,fun _ _ h => h,fun _ h => .inl h⟩

theorem Passes.trans (h : s.Passes safe 0 t) (h' : t.Passes safe 0 u) : s.Passes safe 0 u :=
  ⟨h'.sound,h.size_le.trans h'.size_le,fun q => (h.number_le q).trans (h'.number_le q),
    fun x hx hs => h'.holds x hx (h.holds x hx hs),
    fun x hx => (h'.filed x hx).elim (h.filed x) .inr⟩

theorem Passes.mono (h : s.Passes safe new t) (hsafe : ∀ x, safe' x → safe x) : s.Passes safe' new t :=
  ⟨h.sound,h.size_le,h.number_le,fun x hx => h.holds x (hsafe x hx),h.filed⟩

theorem Widens.any (h : s.Widens new t) : s.Passes safe new t := h.mono fun _ _ => trivial

theorem passes_of_later (hlater : s.Later t) (hsound : ∀ r, (t.arena r).Sound)
    (hholds : ∀ x, safe x → s.Holds x → t.Holds x) (hfiled : ∀ x ∈ t.filed, x ∈ s.filed ∨ x ∈ new) :
    s.Passes safe new t :=
  ⟨hsound,hlater.size_eq.ge,hlater.number_le,hholds,hfiled⟩

/-- An arena that takes the place of another files what the other did, less what went, and what came. -/
theorem filed_replace {a : Arena (Guarded SharedTable)} {gone : Multiset Share}
    (hr : r < s.registries.size)
    (htotal : a.total tableShares + gone = (s.arena r).total tableShares + new) :
    (s.setArena r a).filed + gone = s.filed + new := by
  refine add_right_cancel (b := (s.arena r).total tableShares) ?_
  calc (s.setArena r a).filed + gone + (s.arena r).total tableShares
      = (s.setArena r a).filed + (s.arena r).total tableShares + gone := by abel
    _ = s.filed + (a.total tableShares + gone) := by rw [filed_setArena hr, add_assoc]
    _ = s.filed + new + (s.arena r).total tableShares := by rw [htotal]; abel

theorem passes_setArena {a : Arena (Guarded SharedTable)} (gone : Multiset Share)
    (hs : ∀ q, (s.arena q).Sound) (hr : r < s.registries.size) (ha : a.Sound)
    (hholds : ∀ id holder, safe ⟨r,id,holder⟩ → (s.arena r).Holds id holder → a.Holds id holder)
    (htotal : a.total tableShares + gone = (s.arena r).total tableShares + new) :
    s.Passes safe new (s.setArena r a) := by
  refine passes_of_later (later_setArena s r a) (sound_setArena hs ha) (fun x hx hh => ?_) fun x hx => ?_
  · rw [holds_setArena hr]
    obtain ⟨q,id,holder⟩ := x
    by_cases hq : q = r
    · subst hq
      simpa using hholds id holder hx hh
    · simpa [hq] using hh
  · have hmem : x ∈ s.filed + new := filed_replace hr htotal ▸ Multiset.mem_add.mpr (.inl hx)
    exact Multiset.mem_add.mp hmem

theorem widens_nextNumber (hs : ∀ q, (s.arena q).Sound) (r : RegistryId) :
    s.Widens 0 (s.nextNumber r).2 := by
  refine passes_of_later (later_nextNumber s r) (by simpa using hs)
    (fun x _ hx => ?_) fun x hx => .inl ?_
  · simpa [Holds] using hx
  · simpa using hx

theorem widens_addRegistry (hs : ∀ q, (s.arena q).Sound) : s.Widens 0 s.addRegistry.2 := by
  have hregistry : ∀ q, s.addRegistry.2.registry q = s.registry q := by
    intro q
    rcases Nat.lt_trichotomy q s.registries.size with hq | rfl | hq
    · simp [addRegistry, registry, Array.getElem?_push, Nat.ne_of_lt hq]
    · simp [addRegistry, registry]
    · have hout : ¬ q < s.registries.size := Nat.not_lt.mpr hq.le
      have hne : ¬ q = s.registries.size := Nat.ne_of_gt hq
      simp [addRegistry, registry, Array.getElem?_push, hne, hout]
  have harena : ∀ q, s.addRegistry.2.arena q = s.arena q :=
    fun q => congrArg Registry.arena (hregistry q)
  have hsize : s.registries.size ≤ s.addRegistry.2.registries.size := by simp [addRegistry]
  refine ⟨fun q => harena q ▸ hs q,hsize,fun q => by rw [hregistry],fun x _ hx => ?_,fun x hx => .inl ?_⟩
  · unfold Holds
    rwa [harena]
  · simpa [filed, addRegistry, Arena.total] using hx

theorem widens_create (hs : ∀ q, (s.arena q).Sound) (r : RegistryId) (table : SharedTable)
    (holder : Holder) :
    s.Widens (shares table.handles) (s.create r table holder).2 := by
  rw [create_snd]
  by_cases hr : r < s.registries.size
  · refine passes_setArena 0 hs hr ((hs r).create _ _) (fun id k _ hk => ?_) ?_
    · exact (Arena.holds_create _ _ (hs r) id k).mpr (.inl hk)
    · rw [add_zero]
      exact Arena.total_create _ _ tableShares (hs r)
  · rw [setArena, setRegistry_of_not_lt hr]
    exact .refl hs

theorem holds_create (hs : ∀ q, (s.arena q).Sound) (hr : r < s.registries.size) (table : SharedTable)
    (holder : Holder) : (s.create r table holder).2.Holds ⟨r,(s.create r table holder).1,holder⟩ := by
  rw [create_snd, create_fst, holds_setArena hr, if_pos rfl]
  exact (Arena.holds_create _ _ (hs r) _ _).mpr (.inr ⟨rfl,rfl⟩)

theorem widens_addReference (hs : ∀ q, (s.arena q).Sound) (ht : s.addReference r id holder = .ok t) :
    s.Widens 0 t := by
  obtain ⟨a,ha,rfl⟩ := addReference_cases ht
  obtain ⟨e,he,_⟩ := Arena.addReference_eq_ok ha
  refine passes_setArena 0 hs (lt_of_find? he) ((hs r).addReference ha) (fun j k _ hk => ?_) ?_
  · exact (Arena.holds_addReference ha j k).mpr (.inl hk)
  · rw [Arena.total_addReference tableShares ha]

theorem holds_addReference (ht : s.addReference r id holder = .ok t) : t.Holds ⟨r,id,holder⟩ := by
  obtain ⟨a,ha,rfl⟩ := addReference_cases ht
  obtain ⟨e,he,_⟩ := Arena.addReference_eq_ok ha
  rw [holds_setArena (lt_of_find? he), if_pos rfl]
  exact (Arena.holds_addReference ha _ _).mpr (.inr ⟨rfl,rfl⟩)

/-- An entry with a holder takes another one. -/
theorem Holds.addReference (hx : s.Holds x) (k : Holder) {fault : Fault} :
    s.addReference x.registry x.entry k ≠ .error fault := by
  obtain ⟨e,he,_⟩ := hx
  intro herror
  unfold Store.addReference at herror
  cases ha : (s.arena x.registry).addReference x.entry k with
  | ok a =>
    rw [ha] at herror
    cases herror
  | error _ =>
    have hnone := (Arena.addReference_eq_error ha).2
    rw [he] at hnone
    cases hnone

theorem detach_eq (hr : r < s.registries.size) : s.detach r id holder =
    (((s.arena r).detach id holder).1.map Guarded.content,
      s.setArena r ((s.arena r).detach id holder).2) := by
  simp only [detach, if_pos hr]

theorem passes_detach (hs : ∀ q, (s.arena q).Sound) (r : RegistryId) (id : EntryId) (holder : Holder) :
    s.Passes (· ≠ ⟨r,id,holder⟩) 0 (s.detach r id holder).2 := by
  by_cases hr : r < s.registries.size
  · rw [detach_eq hr]
    refine passes_setArena _ hs hr (hs r).detach (fun j k hne hk => ?_)
      ((Arena.total_detach tableShares).trans (add_zero _).symm)
    exact (Arena.holds_detach (hs r) j k).mpr ⟨hk,fun hjk => hne (by rw [hjk.1, hjk.2])⟩
  · simp only [detach, if_neg hr]
    exact .refl hs

/-- What a release frees was filed. -/
theorem filed_of_detach {table : SharedTable} (htable : (s.detach r id holder).1 = some table)
    (hx : x ∈ shares table.handles) : x ∈ s.filed := by
  by_cases hr : r < s.registries.size
  · rw [detach_eq hr] at htable
    obtain ⟨g,hg,rfl⟩ := Option.map_eq_some_iff.mp htable
    have htotal : ((s.arena r).detach id holder).2.total tableShares +
        ((s.arena r).detach id holder).1.elim 0 tableShares = (s.arena r).total tableShares + 0 :=
      (Arena.total_detach tableShares).trans (add_zero _).symm
    rw [hg, Option.elim_some] at htotal
    have heq := filed_replace hr htotal
    rw [add_zero] at heq
    exact heq ▸ Multiset.mem_add.mpr (.inr hx)
  · simp [detach, hr] at htable

theorem passes_detachAll (hs : ∀ q, (s.arena q).Sound) (r : RegistryId) (holder : Holder)
    (ids : List EntryId) :
    s.Passes (fun x => ∀ id ∈ ids, x ≠ ⟨r,id,holder⟩) 0 (s.detachAll r holder ids).2 := by
  induction ids generalizing s with
  | nil => exact .refl hs
  | cons id rest ih =>
    have hfirst := passes_detach hs r id holder
    refine (hfirst.mono fun x hx => hx id List.mem_cons_self).trans
      ((ih hfirst.sound).mono fun x hx j hj => ?_)
    exact hx j (List.mem_cons_of_mem id hj)

theorem filed_of_detachAll (hs : ∀ q, (s.arena q).Sound) {ids : List EntryId}
    (hx : x ∈ shares ((s.detachAll r holder ids).1.flatMap SharedTable.handles)) : x ∈ s.filed := by
  induction ids generalizing s with
  | nil => simp [detachAll] at hx
  | cons id rest ih =>
    have hfirst := passes_detach hs r id holder
    simp only [detachAll, List.flatMap_append, TableHandle.shares_append, Multiset.mem_add] at hx
    rcases hx with hx | hx
    · cases htable : (s.detach r id holder).1 with
      | none => simp [htable] at hx
      | some table => exact filed_of_detach htable (by simpa [htable] using hx)
    · exact (hfirst.filed x (ih hfirst.sound hx)).elim (fun hfiled => hfiled) fun hnone =>
        absurd hnone (by simp)

theorem widens_setTable (hs : ∀ q, (s.arena q).Sound) (r : RegistryId) (id : EntryId)
    (g : Guarded SharedTable) :
    s.Widens (shares g.content.handles) (s.setTable r id g) := by
  unfold setTable
  by_cases hr : r < s.registries.size
  · cases he : (s.arena r).find? id with
    | none =>
      have hsame : (s.arena r).setContent id g = s.arena r := by simp [Arena.setContent, he]
      rw [hsame]
      refine passes_setArena (shares g.content.handles) hs hr (hs r) (fun _ _ _ hk => hk) rfl
    | some e =>
      refine passes_setArena _ hs hr ((hs r).setContent g) (fun j k _ hk => ?_)
        (Arena.total_setContent g tableShares he)
      exact (Arena.holds_setContent g j k).mpr hk
  · rw [setArena, setRegistry_of_not_lt hr]
    exact .refl hs

end Store

def Request.Apart (ours : Set Share) (s : Store) (r : RegistryId) : Request EntryId → Prop
  | .create content _ =>
    ∀ x ∈ shares content.handles, x ∉ ours ∧ x.holder.number < (s.registry x.registry).nextNumber
  | .setTable _ g =>
    ∀ x ∈ shares g.content.handles, x ∉ ours ∧ x.holder.number < (s.registry x.registry).nextNumber
  | .release id holder => ⟨r,id,holder⟩ ∉ ours
  | .releaseAll holder ids => ∀ id ∈ ids, ⟨r,id,holder⟩ ∉ ours
  | .addReference .. | .referenceCount _ | .isAlive _ | .liveEntries | .table _ => True

def Request.files : Request EntryId → Multiset Share
  | .create content _ => shares content.handles
  | .setTable _ g => shares g.content.handles
  | _ => 0

variable {s : Store} {r : RegistryId} {ours : Set Share} {request : Request EntryId}

theorem Request.Apart.files (h : request.Apart ours s r) {x : Share} (hx : x ∈ request.files) :
    x ∉ ours ∧ x.holder.number < (s.registry x.registry).nextNumber := by
  cases request with
  | create content _ | setTable _ content => exact h x hx
  | addReference | release | releaseAll | referenceCount | isAlive | liveEntries | table =>
    exact absurd hx (Multiset.notMem_zero x)

/-- A call of others leaves the shares that are ours registered. -/
theorem Request.Apart.passes (h : request.Apart ours s r) (hs : ∀ q, (s.arena q).Sound) :
    s.Passes (· ∈ ours) request.files (s.frees r request).2 := by
  cases request with
  | create table holder => exact (Store.widens_create hs r table holder).any
  | addReference id holder =>
    simp only [Store.frees, Store.serve]
    cases ht : s.addReference r id holder with
    | ok t => exact (Store.widens_addReference hs ht).any
    | error fault => exact .refl hs
  | release id holder => exact (Store.passes_detach hs r id holder).mono fun x hx heq => h (heq ▸ hx)
  | releaseAll holder ids =>
    exact (Store.passes_detachAll hs r holder ids).mono fun x hx id hid heq => h id hid (heq ▸ hx)
  | referenceCount | isAlive | liveEntries | table => exact .refl hs
  | setTable id g => exact (Store.widens_setTable hs r id g).any

end Workers
