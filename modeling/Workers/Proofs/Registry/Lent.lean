import Workers.Proofs.Capture.Released
/-! # Entries on loan

A worker handle takes stored objects over one by one: it registers itself in an entry, and only then
the object gives up its own share.  Nothing is freed on the way.  When the handle gives its entries
back, and the objects that it has not taken over are dropped, the same shares are gone as if every
object had been dropped where it was.
-/
namespace Workers

open TableHandle (shares)

namespace Store

variable {s s' t t' : Store} {r : RegistryId} {holder : Holder} {ids : List EntryId}
    {taken asked : Multiset Share}

theorem mem_sharesOf {x : Share} :
    x ∈ sharesOf r holder ids ↔ ∃ id ∈ ids, (⟨r,id,holder⟩ : Share) = x := by
  rw [sharesOf, Multiset.mem_coe, List.mem_map]

/-- A new holder has come into some entries, and some shares have been given up, without anything
being freed. -/
structure Lent (s : Store) (r : RegistryId) (holder : Holder) (ids : List EntryId)
    (taken : Multiset Share) (s' : Store) : Prop where
  sound : ∀ q, (s.arena q).Sound
  fresh : ∀ id, ¬ s.Holds ⟨r,id,holder⟩
  keeps : s.Keeps s'
  holds : ∀ x, s'.Holds x ↔ s.Holds x ∧ x ∉ taken ∨ x ∈ sharesOf r holder ids

namespace Lent

theorem start (hs : ∀ q, (s.arena q).Sound) (hfresh : ∀ id, ¬ s.Holds ⟨r,id,holder⟩)
    (hkeeps : s.Keeps s') (hholds : ∀ x, s'.Holds x ↔ s.Holds x) : s.Lent r holder [] 0 s' :=
  ⟨hs,hfresh,hkeeps,fun x => by simp [hholds, sharesOf]⟩

theorem sound' (hl : s.Lent r holder ids taken s') : ∀ q, (s'.arena q).Sound := hl.keeps.sound hl.sound

theorem not_mem (hl : s.Lent r holder ids taken s') {x : Share} (hx : s.Holds x) :
    x ∉ sharesOf r holder ids := by
  rintro hlent
  obtain ⟨id,_,rfl⟩ := mem_sharesOf.mp hlent
  exact hl.fresh id hx

/-- The holder comes into one more entry. -/
theorem addReference (hl : s.Lent r holder ids taken s') {id : EntryId}
    (ht : s'.addReference r id holder = .ok t) :
    s.Lent r holder (ids ++ [id]) taken t := by
  refine ⟨hl.sound,hl.fresh,hl.keeps.trans (keeps_addReference ht),fun x => ?_⟩
  obtain ⟨a,ha,rfl⟩ := addReference_cases ht
  obtain ⟨e,he,_⟩ := Arena.addReference_eq_ok ha
  have hmem : x ∈ sharesOf r holder (ids ++ [id]) ↔ x ∈ sharesOf r holder ids ∨ x = ⟨r,id,holder⟩ := by
    simp [sharesOf]
  rw [holds_setArena (lt_of_find? he), Arena.holds_addReference ha, hmem, ← or_assoc, ← hl.holds]
  obtain ⟨q,j,k⟩ := x
  by_cases hq : q = r
  · subst hq
    simp [Holds, Share.mk.injEq]
  · simp [hq, Share.mk.injEq]

/-- A handle gives up its share in an entry that the holder has come into. -/
theorem giveUp (hl : s.Lent r holder ids taken s') {handle : TableHandle}
    (hregistry : handle.registry = r) (hid : handle.entry ∈ ids) (hother : handle.holder ≠ holder) :
    s.Lent r holder ids (taken + handle.share) (s'.settle [handle]) := by
  by_cases hstrong : handle.strong = true
  · subst hregistry
    have hlent : s'.Holds ⟨handle.registry,handle.entry,holder⟩ :=
      (hl.holds _).mpr (.inr (mem_sharesOf.mpr ⟨handle.entry,hid,rfl⟩))
    obtain ⟨hnone,hkeeps⟩ := keeps_detach_of_holds hlent hother.symm
    rw [settle_cons_strong s' hstrong, hnone, Option.elim_none, List.append_nil, settle_nil]
    refine ⟨hl.sound,hl.fresh,hl.keeps.trans hkeeps,fun x => ?_⟩
    have hnot : (⟨handle.registry,handle.entry,handle.holder⟩ : Share) ∉ sharesOf handle.registry
        holder ids := by
      rintro hmem
      obtain ⟨_,_,heq⟩ := mem_sharesOf.mp hmem
      exact hother (congrArg Share.holder heq).symm
    have hgone : (s'.giveUp ⟨handle.registry,handle.entry,handle.holder⟩).Holds x ↔
        s'.Holds x ∧ x ≠ ⟨handle.registry,handle.entry,handle.holder⟩ := by
      simpa using holds_giveUps hl.sound' [⟨handle.registry,handle.entry,handle.holder⟩] x
    refine hgone.trans ?_
    rw [hl.holds, TableHandle.share_of_strong hstrong, Multiset.mem_add, Multiset.mem_singleton]
    constructor
    · rintro ⟨⟨hx,hstays⟩ | hmem,hne⟩
      · exact .inl ⟨hx,not_or.mpr ⟨hstays,hne⟩⟩
      · exact .inr hmem
    · rintro (⟨hx,hstays⟩ | hmem)
      · exact ⟨.inl ⟨hx,fun h => hstays (.inl h)⟩,fun h => hstays (.inr h)⟩
      · exact ⟨.inr hmem,fun h => hnot (h ▸ hmem)⟩
  · rw [settle_cons_weak s' hstrong, settle_nil, TableHandle.share_of_weak hstrong, add_zero]
    exact hl

/-- What goes when the entries are given back would have gone without them. -/
theorem falls (hl : s.Lent r holder ids taken s') {x : Share}
    (hx : s'.Falls (asked + sharesOf r holder ids) x) :
    x ∈ sharesOf r holder ids ∨ s.Falls (taken + asked) x := by
  induction hx with
  | asked hx =>
    rcases Multiset.mem_add.mp hx with hasked | hlent
    · exact .inr (.asked (Multiset.mem_add.mpr (.inr hasked)))
    · exact .inl hlent
  | @nested q id e x he _ hx ih =>
    have htable : s'.table q id = .ok e.content := by simp [table, he]
    obtain ⟨e',he',hcontent⟩ := exists_entry ((hl.keeps.table q id).symm.trans htable)
    refine .inr (.nested he' (fun k hk => ?_) (hcontent ▸ hx))
    by_cases htaken : (⟨q,id,k⟩ : Share) ∈ taken
    · exact .asked (Multiset.mem_add.mpr (.inl htaken))
    · have hbefore : s.Holds ⟨q,id,k⟩ := ⟨e',he',hk⟩
      have hnow : s'.Holds ⟨q,id,k⟩ := (hl.holds _).mpr (.inl ⟨hbefore,htaken⟩)
      exact (ih k ((Arena.holds_iff he k).mp hnow)).resolve_left (hl.not_mem hbefore)

/-- What would have gone without them goes now, if it is not gone yet. -/
theorem falls_back (hl : s.Lent r holder ids taken s') {x : Share} (hx : s.Falls (taken + asked) x) :
    x ∈ taken ∨ s'.Falls (asked + sharesOf r holder ids) x := by
  induction hx with
  | asked hx =>
    exact (Multiset.mem_add.mp hx).imp_right fun hasked => .asked
      (Multiset.mem_add.mpr (.inl hasked))
  | @nested q id e x he _ hx ih =>
    have htable : s.table q id = .ok e.content := by simp [table, he]
    obtain ⟨e',he',hcontent⟩ := exists_entry ((hl.keeps.table q id).trans htable)
    refine .inr (.nested he' (fun k hk => ?_) (hcontent ▸ hx))
    rcases (hl.holds ⟨q,id,k⟩).mp ⟨e',he',hk⟩ with ⟨hbefore,hstays⟩ | hlent
    · exact (ih k ((Arena.holds_iff he k).mp hbefore)).resolve_left hstays
    · exact .asked (Multiset.mem_add.mpr (.inr hlent))

/-- In the end it makes no difference that a holder has been in between. -/
theorem restored (hl : s.Lent r holder ids taken s') (ht : s.Settled (taken + asked) t)
    (ht' : s'.Settled (asked + sharesOf r holder ids) t') : t.Restored t' := by
  have hsound := ht.sound hl.sound
  have hsound' := ht'.sound hl.sound'
  obtain ⟨gone,rfl,hgone⟩ := ht
  obtain ⟨gone',rfl,hgone'⟩ := ht'
  refine restored_of_holds hsound hsound' (fun x => ?_) fun q id g g' hg hg' => ?_
  · rw [holds_giveUps hl.sound, holds_giveUps hl.sound', hgone.mem_iff, hgone'.mem_iff, hl.holds]
    constructor
    · rintro ⟨⟨hx,htaken⟩ | hlent,hstays⟩
      · exact ⟨hx,fun hfalls => (hl.falls_back hfalls).elim htaken hstays⟩
      · exact absurd (.asked (Multiset.mem_add.mpr (.inr hlent))) hstays
    · rintro ⟨hx,hstays⟩
      have htaken : x ∉ taken := fun htaken => hstays (.asked (Multiset.mem_add.mpr (.inl htaken)))
      exact ⟨.inl ⟨hx,htaken⟩,fun hfalls => (hl.falls hfalls).elim (hl.not_mem hx) hstays⟩
  · have hbefore := table_giveUps hl.sound gone hg
    have hnow := table_giveUps hl.sound' gone' hg'
    rw [hl.keeps.table, hbefore] at hnow
    exact (Except.ok.inj hnow).symm

end Lent

/-- Handles are dropped, and then a holder is released from its entries. -/
theorem settled_releaseAll_settle (hs : ∀ q, (s.arena q).Sound) (handles : List TableHandle)
    (r : RegistryId) (holder : Holder) (ids : List EntryId) :
    s.Settled (shares handles + sharesOf r holder ids)
      ((s.settle handles).releaseAll r holder ids) := by
  have hstart := Underway.start hs (shares handles + sharesOf r holder ids)
  rw [add_assoc] at hstart
  obtain ⟨gone,hgone,hdropped⟩ := hstart.settle hs
  obtain ⟨gone',hgone',hdetached⟩ := hdropped.detachAll hs
  obtain ⟨gone'',hgone'',hdone⟩ := hdetached.settle hs
  refine ⟨gone'',?_,hdone⟩
  rw [← hgone'', ← hgone', ← hgone]
  rfl

/-- A holder that has taken over what some handles kept gives it back when the others are dropped:
all of them might have been dropped at once. -/
theorem Lent.given_back {front : List TableHandle} (hl : s.Lent r holder ids (shares front) s')
    (back : List TableHandle) :
    (s.settle (front ++ back)).Restored ((s'.settle back).releaseAll r holder ids) := by
  have hdropped := settled_settle hl.sound (front ++ back)
  rw [TableHandle.shares_append] at hdropped
  exact hl.restored hdropped (settled_releaseAll_settle hl.sound' back r holder ids)

end Store

end Workers
