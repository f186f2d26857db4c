import Mathlib.Data.Multiset.MapFold
import Workers.Proofs.Capture.Copies
import Workers.Proofs.Ledger.Run
/-! # A capture copies and shares

The handles that a capture keeps are the last of no entry, as every table of the graph occurs
somewhere; so dropping the capture only takes its own references back.  The ledger then tells how
many references each new entry has: one for each place of the graph.
-/
namespace Workers

def references (r : RegistryId) (id : EntryId) (shares : Multiset Share) : ℕ :=
  shares.countP fun x => x.registry = r ∧ x.entry = id

section References

variable {s : Store} {out : Multiset Share} {r : RegistryId} {id : EntryId}

@[simp] theorem references_add (a b : Multiset Share) :
    references r id (a + b) = references r id a + references r id b :=
  Multiset.countP_add ..

theorem references_eq_zero {a : Multiset Share} (h : ∀ x ∈ a, x.registry = r → x.entry ≠ id) :
    references r id a = 0 :=
  Multiset.countP_eq_zero.mpr fun x hx hxe => h x hx hxe.1 hxe.2

/-- An entry has one holder for each share in it. -/
theorem Store.Balanced.referenceCount (h : s.Balanced out) (r : RegistryId) (id : EntryId) :
    s.referenceCount r id = references r id (s.filed + out) := by
  unfold Store.referenceCount Arena.referenceCount
  cases he : (s.arena r).find? id with
  | none =>
    refine (references_eq_zero fun x hx hxr hxid => ?_).symm
    obtain ⟨e,he',_⟩ := (h.exact x).mpr hx
    rw [hxr, hxid, he] at he'
    cases he'
  | some e =>
    have hnodup : (e.holders : Multiset Holder).Nodup := (h.sound r).holders_nodup id e he
    have hinj : Function.Injective fun k => (⟨r,id,k⟩ : Share) := fun k k' hk => (Share.mk.inj hk).2.2
    have hsame : (e.holders : Multiset Holder).map (fun k => (⟨r,id,k⟩ : Share)) =
        (s.filed + out).filter fun x => x.registry = r ∧ x.entry = id := by
      refine (Multiset.Nodup.ext (hnodup.map hinj) (h.nodup.filter _)).mpr fun x => ?_
      rw [Multiset.mem_map, Multiset.mem_filter, ← h.exact]
      constructor
      · rintro ⟨k,hk,rfl⟩
        exact ⟨⟨e,he,hk⟩,rfl,rfl⟩
      · rintro ⟨⟨e',he',hk⟩,hxr,hxid⟩
        rw [hxr, hxid, he] at he'
        cases he'
        refine ⟨x.holder,hk,?_⟩
        rw [← hxr, ← hxid]
    rw [references, Multiset.countP_eq_card_filter, ← hsame, Multiset.card_map]
    rfl

end References

namespace Capture

variable {h : Heap} {vs : List Value} {s t : Store} {r : RegistryId} {p : Progress} {made : List Made}
  {objects : List Stored} {v : Value} {object : Stored} {out : Multiset Share}

theorem names_unique (hn : (made.map Made.cell).Nodup) {c : CellId} {id id' : EntryId}
    (h : names made c id) (h' : names made c id') : id = id' := by
  obtain ⟨m,hm,hc,rfl⟩ := h
  obtain ⟨m',hm',hc',rfl⟩ := h'
  rw [List.inj_on_of_nodup_map hn hm hm' (hc.trans hc'.symm)]

theorem names_injective (hn : (made.map fun m => m.kept.entry).Nodup) {c d : CellId} {id : EntryId}
    (h : names made c id) (h' : names made d id) : c = d := by
  obtain ⟨m,hm,hc,hid⟩ := h
  obtain ⟨m',hm',hd,hid'⟩ := h'
  rw [← hc, ← hd, List.inj_on_of_nodup_map hn hm hm' (hid.trans hid'.symm)]

/-- The stored form of a value refers to the entry of a cell if it is that cell, and else to no new
entry. -/
theorem references_mirror (hc : Copies h vs s r p made) (hv : h.Storable vs s r) {m : Made}
    (hm : m ∈ made) (hoccurs : h.Occurs vs v) (hmirror : Mirrors r (names made) v object) :
    references r m.kept.entry object.shares = if v = .table m.cell then 1 else 0 := by
  cases hmirror with
  | scalar hscalar =>
    have hnone : object.shares = 0 := by
      cases v <;> cases hscalar <;> rfl
    have hne : v ≠ .table m.cell := by
      rintro rfl
      cases hscalar
    rw [hnone, if_neg hne]
    rfl
  | shared id number =>
    rw [if_neg nofun]
    refine references_eq_zero fun x hx _ hid => ?_
    rw [Stored.shares_shared, TableHandle.mem_share] at hx
    have halive := hv.alive id hoccurs
    rw [hx.2] at hid
    rw [show id = m.kept.entry from hid] at halive
    exact hc.madeSince.not_alive hm halive
  | @table c id number hname =>
    have hiff : id = m.kept.entry ↔ c = m.cell := by
      constructor
      · rintro rfl
        exact names_injective hc.entries_nodup hname ⟨m,hm,rfl,rfl⟩
      · rintro rfl
        exact names_unique hc.cells_nodup hname ⟨m,hm,rfl,rfl⟩
    rw [Stored.shares_shared, references, TableHandle.share, if_pos rfl, ← Multiset.cons_zero,
      Multiset.countP_cons,
      Multiset.countP_zero, zero_add]
    simp [hiff]

theorem references_mirrors (hc : Copies h vs s r p made) (hv : h.Storable vs s r) {m : Made}
    (hm : m ∈ made) {values : List Value} (hoccurs : ∀ v ∈ values, h.Occurs vs v)
    (hmirrors : List.Forall₂ (Mirrors r (names made)) values objects) :
    references r m.kept.entry (objects.map Stored.shares).sum = values.count (.table m.cell) := by
  induction hmirrors with
  | nil => rfl
  | @cons v object values objects hmirror _ ih =>
    obtain ⟨hv',hvalues⟩ := List.forall_mem_cons.mp hoccurs
    rw [List.map_cons, List.sum_cons, references_add, references_mirror hc hv hm hv' hmirror, ih hvalues,
      List.count_cons, add_comm]
    simp

/-- Every value of the graph has its stored form among the roots or in a table that was filed. -/
theorem mirrored_of_occurs (hc : Copies h vs s r p made)
    (hroots : List.Forall₂ (Mirrors r (names made)) vs objects) (hv : h.Occurs vs v) :
    ∃ object, Mirrors r (names made) v object ∧
      (object ∈ objects ∨ ∃ m ∈ made, object ∈ m.table.values) := by
  induction hv with
  | root hv =>
    obtain ⟨object,hobject,hmirror⟩ := forall₂_exists_of_mem hroots hv
    exact ⟨object,hmirror,.inl hobject⟩
  | slot _ hread hv ih =>
    obtain ⟨object,hmirror,_⟩ := ih
    cases hmirror with
    | scalar hscalar => cases hscalar
    | table number hname =>
      obtain ⟨m,hm,rfl,_⟩ := hname
      obtain ⟨table,hread',hmirrors⟩ := hc.mirrors m hm
      rw [hread] at hread'
      cases hread'
      obtain ⟨found,hfound,hmirror⟩ := forall₂_exists_of_mem hmirrors.values hv
      exact ⟨found,hmirror,.inr ⟨m,hm,hfound⟩⟩

theorem mem_cells_iff (hc : Copies h vs s r p made)
    (hroots : List.Forall₂ (Mirrors r (names made)) vs objects) (c : CellId) :
    c ∈ made.map Made.cell ↔ h.Occurs vs (.table c) := by
  constructor
  · intro hmem
    obtain ⟨m,hm,rfl⟩ := List.mem_map.mp hmem
    exact hc.occurs m hm
  · intro hoccurs
    obtain ⟨object,hmirror,_⟩ := mirrored_of_occurs hc hroots hoccurs
    cases hmirror with
    | scalar hscalar => cases hscalar
    | table number hname =>
      obtain ⟨m,hm,hcell,_⟩ := hname
      exact List.mem_map.mpr ⟨m,hm,hcell⟩

theorem occurs_follow {path : List Key} {w : Value} (hv : h.Occurs vs v)
    (hw : h.follow v path = some w) :
    h.Occurs vs w := by
  induction path generalizing v with
  | nil =>
    cases v <;> cases hw <;> exact hv
  | cons key path ih =>
    cases v with
    | table c =>
      simp only [Heap.follow] at hw
      split at hw
      · rename_i table hread
        obtain ⟨u,hu,hw⟩ := Option.bind_eq_some_iff.mp hw
        refine ih (.slot hv hread ?_) hw
        obtain ⟨e,he,rfl⟩ := Option.map_eq_some_iff.mp hu
        exact List.mem_map.mpr ⟨e,List.mem_of_find?_eq_some he,rfl⟩
      · cases hw
    | _ => cases hw

theorem readTable_made (hc : Copies h vs s r p made)
    (htable : ∀ q id, t.table q id = p.store.table q id) {m : Made} (hm : m ∈ made) :
    t.readTable r m.kept.entry = .ok m.table := by
  have hp := (hc.table r m.kept.entry _).mpr (.inr ⟨rfl,m,hm,rfl,rfl⟩)
  rw [← htable] at hp
  simp only [Store.readTable, hp]
  rfl

/-- A path through the tables of the graph leads through the tables filed for them. -/
theorem mirrors_follow (hc : Copies h vs s r p made)
    (htable : ∀ q id, t.table q id = p.store.table q id) {path : List Key} {w : Value}
    (hmirror : Mirrors r (names made) v object) (hw : h.follow v path = some w) :
    ∃ found, t.follow object path = some found ∧ Mirrors r (names made) w found := by
  induction path generalizing v object with
  | nil =>
    have hwv : v = w := by cases v <;> exact Option.some.inj hw
    subst hwv
    exact ⟨object,by cases object <;> rfl,hmirror⟩
  | cons key path ih =>
    cases hmirror with
    | scalar hscalar => cases v <;> cases hscalar <;> cases hw
    | shared id number => cases hw
    | @table c id number hname =>
      obtain ⟨m,hm,rfl,rfl⟩ := hname
      obtain ⟨table,hread,hmirrors⟩ := hc.mirrors m hm
      have hget := MirrorsAll.get? hmirrors key
      simp only [Heap.follow, hread] at hw
      obtain ⟨u,hu,hw⟩ := Option.bind_eq_some_iff.mp hw
      rw [hu] at hget
      cases hnext : m.table.get? key with
      | none => rw [hnext] at hget; cases hget
      | some next =>
        rw [hnext] at hget
        cases hget with
        | some hmirror =>
          obtain ⟨found,hfound,hlast⟩ := ih hmirror hw
          refine ⟨found,?_,hlast⟩
          simp only [Store.follow, readTable_made hc htable hm, hnext, Option.bind_some, hfound]

/-- A path through the tables filed leads through those of the graph, as far as it does not go on in a
table that was shared already. -/
theorem follow_mirrors (hc : Copies h vs s r p made) (htable : ∀ q id, t.table q id = p.store.table q id)
    {path : List Key} {found : Stored} (hmirror : Mirrors r (names made) v object)
    (hfound : t.follow object path = some found) :
    (∃ w, h.follow v path = some w ∧ Mirrors r (names made) w found) ∨
      ∃ front key rest id, path = front ++ key :: rest ∧ h.follow v front = some (.shared id) := by
  induction path generalizing v object with
  | nil =>
    have hobject : object = found := by cases object <;> exact Option.some.inj hfound
    subst hobject
    exact .inl ⟨v,by cases v <;> rfl,hmirror⟩
  | cons key path ih =>
    cases hmirror with
    | scalar hscalar => cases v <;> cases hscalar <;> cases hfound
    | shared id number => exact .inr ⟨[],key,path,id,rfl,rfl⟩
    | @table c id number hname =>
      obtain ⟨m,hm,rfl,rfl⟩ := hname
      obtain ⟨table,hread,hmirrors⟩ := hc.mirrors m hm
      have hget := MirrorsAll.get? hmirrors key
      simp only [Store.follow, readTable_made hc htable hm] at hfound
      obtain ⟨next,hnext,hfound⟩ := Option.bind_eq_some_iff.mp hfound
      rw [hnext] at hget
      cases hu : table.get? key with
      | none => rw [hu] at hget; cases hget
      | some u =>
        rw [hu] at hget
        cases hget with
        | some hmirror =>
          have hfollow : ∀ rest, h.follow (.table m.cell) (key :: rest) = h.follow u rest := by
            intro rest
            simp only [Heap.follow, hread, hu, Option.bind_some]
          rcases ih hmirror hfound with ⟨w,hw,hlast⟩ | ⟨front,key',rest,id,rfl,hfront⟩
          · exact .inl ⟨w,(hfollow _).trans hw,hlast⟩
          · exact .inr ⟨key :: front,key',rest,id,rfl,(hfollow _).trans hfront⟩

/-- Storing values in order hands out the objects, and what the capture keeps grows. -/
theorem balanced_storeAll {c c' : Capture} (hr : c.registry < s.registries.size)
    (hs : s.Balanced (c.shares + out)) (hall : c.storeAll s h vs = (.ok objects,c',t)) :
    t.Balanced ((objects.map Stored.shares).sum + (c'.shares + out)) := by
  induction vs generalizing c s objects out with
  | nil =>
    cases hall
    simpa using hs
  | cons v rest ih =>
    have hfirst := balanced_store hr hs h v
    have hlater := later_store c s h v
    have hregistry := registry_store c s h v
    simp only [storeAll] at hall
    rcases hstore : c.store s h v with ⟨o,c₁,s₁⟩
    rw [hstore] at hall hfirst hlater hregistry
    cases o with
    | error fault => cases hall
    | ok object =>
      rcases hrest : c₁.storeAll s₁ h rest with ⟨o,c₂,s₂⟩
      simp only [hrest] at hall
      cases o with
      | error fault => cases hall
      | ok objects =>
        cases hall
        have hr₁ : c₁.registry < s₁.registries.size := by
          rw [hlater.size_eq, hregistry]
          exact hr
        have hfirst' : s₁.Balanced (c₁.shares + (object.shares + out)) := by
          rw [add_left_comm]
          exact hfirst
        have hlast := ih hr₁ hfirst' hrest
        rw [List.map_cons, List.sum_cons]
        convert hlast using 1
        abel

theorem balanced_pass (hs : s.Balanced out) (hr : r < s.registries.size) {c : Capture}
    (hall : ({ registry := r } : Capture).storeAll s h vs = (.ok objects,c,t)) :
    (c.finish t).Balanced ((objects.map Stored.shares).sum + out) := by
  have hend := balanced_storeAll hr (balanced_fresh hs r) hall
  rw [add_left_comm] at hend
  exact balanced_finish hend

/-- Every entry made has a handle besides the one that the capture keeps. -/
theorem keeps_finish {c : Capture} (hc : Copies h vs s r ⟨t,c.captured⟩ made)
    (hroots : List.Forall₂ (Mirrors r (names made)) vs objects)
    (hb : t.Balanced ((objects.map Stored.shares).sum + (c.shares + out))) : t.Keeps (c.finish t) := by
  rw [add_left_comm] at hb
  refine Store.keeps_settle hb fun handle hhandle _ => ?_
  have hcaptured : c.captured = made.map fun m => (m.cell,m.kept) := hc.captured
  rw [hcaptured, List.map_map] at hhandle
  obtain ⟨m,hm,rfl⟩ := List.mem_map.mp hhandle
  obtain ⟨object,hmirror,hplace⟩ := mirrored_of_occurs hc hroots (hc.occurs m hm)
  cases hmirror with
  | scalar hscalar => cases hscalar
  | @table _ id number hname =>
    have hid : id = m.kept.entry := names_unique hc.cells_nodup hname ⟨m,hm,rfl,rfl⟩
    refine ⟨⟨r,id,.store number⟩,?_,(hc.kept m hm).symm,hid⟩
    have hshare : (⟨r,id,.store number⟩ : Share) ∈
        (Stored.shared { entry := id, number, registry := r, strong := true }).shares := by
      rw [Stored.shares_shared]
      exact TableHandle.mem_share.mpr ⟨rfl,rfl⟩
    rcases hplace with hobject | ⟨m',hm',hobject⟩
    · refine Multiset.mem_add.mpr (.inr (Multiset.mem_add.mpr (.inl ?_)))
      exact mem_sum_map.mpr ⟨_,hobject,hshare⟩
    · refine Multiset.mem_add.mpr (.inl ?_)
      rw [hc.filed]
      refine Multiset.mem_add.mpr (.inr (mem_sum_map.mpr ⟨m',hm',?_⟩))
      rw [SharedTable.shares_handles]
      exact mem_sum_map.mpr ⟨_,hobject,hshare⟩

def entryOf (made : List Made) (c : CellId) : EntryId :=
  ((made.find? fun m => m.cell = c).map fun m => m.kept.entry).getD default

theorem names_entryOf {c : CellId} (hc : c ∈ made.map Made.cell) : names made c (entryOf made c) := by
  unfold entryOf
  cases hf : made.find? fun m => m.cell = c with
  | none =>
    obtain ⟨m,hm,hcell⟩ := List.mem_map.mp hc
    exact absurd hcell (by simpa using List.find?_eq_none.mp hf m hm)
  | some m => exact ⟨m,List.mem_of_find?_eq_some hf,by simpa using List.find?_some hf,rfl⟩

theorem entryOf_eq (hn : (made.map Made.cell).Nodup) {c : CellId} {id : EntryId}
    (hname : names made c id) :
    entryOf made c = id := by
  obtain ⟨m,hm,hcell,hid⟩ := hname
  exact names_unique hn (names_entryOf (List.mem_map.mpr ⟨m,hm,hcell⟩)) ⟨m,hm,hcell,hid⟩

theorem references_sum {α : Type} (r : RegistryId) (id : EntryId) (f : α → Multiset Share) (l : List α) :
    references r id (l.map f).sum = (l.map fun a => references r id (f a)).sum := by
  induction l with
  | nil => rfl
  | cons a l ih => rw [List.map_cons, List.sum_cons, references_add, ih, List.map_cons, List.sum_cons]

/-- The references to a new entry from the tables filed are the places of its cell in the tables of
the graph. -/
theorem references_filed (hc : Copies h vs s r p made) (hv : h.Storable vs s r) {m : Made}
    (hm : m ∈ made) :
    references r m.kept.entry (made.map fun m => TableHandle.shares m.table.handles).sum =
      ((made.map Made.cell).map fun d => (h.slots d).count (.table m.cell)).sum := by
  rw [references_sum, List.map_map]
  refine congrArg List.sum (List.map_congr_left fun m' hm' => ?_)
  obtain ⟨table,hread,hmirrors⟩ := hc.mirrors m' hm'
  have hslots : h.slots m'.cell = table.values := by simp only [Heap.slots, hread]
  have hoccurs : ∀ v ∈ table.values, h.Occurs vs v := fun v hv => .slot (hc.occurs m' hm') hread hv
  rw [Function.comp_apply, hslots, SharedTable.shares_handles]
  exact references_mirrors hc hv hm hoccurs hmirrors.values

theorem references_before (hc : Copies h vs s r p made) (hs : s.Balanced out) {m : Made}
    (hm : m ∈ made) :
    references r m.kept.entry (s.filed + out) = 0 := by
  refine references_eq_zero fun x hx hxr hxid => ?_
  obtain ⟨e,he,_⟩ := (hs.exact x).mpr hx
  refine hc.madeSince.not_alive hm ?_
  rw [← hxr, ← hxid]
  exact Option.isSome_iff_exists.mpr ⟨e,he⟩

/-- A stored form is on the entry of a cell just when its value is that cell. -/
theorem entryId_mirror (hc : Copies h vs s r p made) (hv : h.Storable vs s r) (hoccurs : h.Occurs vs v)
    (hmirror : Mirrors r (names made) v object) {c : CellId} (hcell : c ∈ made.map Made.cell) :
    object.entryId? = some (entryOf made c) ↔ v = .table c := by
  have hname := names_entryOf hcell
  cases hmirror with
  | scalar hscalar => cases v <;> cases hscalar <;> simp [Stored.entryId?]
  | shared id number =>
    constructor
    · intro hid
      obtain ⟨m,hm,_,hentry⟩ := hname
      have hsame : id = m.kept.entry := (Option.some.inj hid).trans hentry.symm
      exact absurd (hsame ▸ hv.alive id hoccurs) (hc.madeSince.not_alive hm)
    · nofun
  | @table d id number hname' =>
    constructor
    · intro hid
      rw [← Option.some.inj hid] at hname
      rw [names_injective hc.entries_nodup hname' hname]
    · intro hd
      cases hd
      exact congrArg some (names_unique hc.cells_nodup hname' hname)

/-- Two mirrors go by the same new entry just when they stand for the same local table. -/
theorem Copies.same_entry_iff (hc : Copies h vs s r p made) (hv : h.Storable vs s r)
    (hmem : ∀ c, c ∈ made.map Made.cell ↔ h.Occurs vs (.table c)) {w w' : Value}
    {found found' : Stored} (hoccurs : h.Occurs vs w) (hmirror : Mirrors r (names made) w found)
    (hoccurs' : h.Occurs vs w') (hmirror' : Mirrors r (names made) w' found') :
    (∃ c ∈ made.map Made.cell, found.entryId? = some (entryOf made c) ∧
      found'.entryId? = some (entryOf made c)) ↔ ∃ c, w = .table c ∧ w' = .table c := by
  constructor
  · rintro ⟨c,hcell,hid,hid'⟩
    exact ⟨c,(entryId_mirror hc hv hoccurs hmirror hcell).mp hid,
      (entryId_mirror hc hv hoccurs' hmirror' hcell).mp hid'⟩
  · rintro ⟨c,rfl,rfl⟩
    have hcell := (hmem c).mpr hoccurs
    exact ⟨c,hcell,(entryId_mirror hc hv hoccurs hmirror hcell).mpr rfl,
      (entryId_mirror hc hv hoccurs' hmirror' hcell).mpr rfl⟩

theorem Copies.referenceCount_eq {u : Store} {captured : List (CellId × TableHandle)}
    (hc : Copies h vs s r ⟨t,captured⟩ made) (hv : h.Storable vs s r)
    (hroots : List.Forall₂ (Mirrors r (names made)) vs objects) (hs : s.Balanced out)
    (hk : t.Keeps u) (hb : u.Balanced ((objects.map Stored.shares).sum + out)) {c : CellId}
    (hcell : c ∈ made.map Made.cell) :
    u.referenceCount r (entryOf made c) = vs.count (.table c) +
      ((made.map Made.cell).map fun d => (h.slots d).count (.table c)).sum := by
  obtain ⟨m,hm,rfl,hid⟩ := names_entryOf hcell
  have hbefore := references_before hc hs hm
  rw [references_add] at hbefore
  rw [hb.referenceCount, hk.filed, hc.filed, ← hid]
  simp only [references_add, references_filed hc hv hm,
    references_mirrors hc hv hm (fun v hv => .root hv) hroots]
  omega

/-- What a capture has copied, once its own handles are gone. -/
theorem Copies.copied {u : Store} {captured : List (CellId × TableHandle)}
    (hc : Copies h vs s r ⟨t,captured⟩ made) (hv : h.Storable vs s r)
    (hroots : List.Forall₂ (Mirrors r (names made)) vs objects) (hs : s.Balanced out) (hk : t.Keeps u)
    (hb : u.Balanced ((objects.map Stored.shares).sum + out)) :
    Copied h vs s r objects u (made.map Made.cell) (entryOf made) := by
  have hentry : ∀ c id, names made c id → entryOf made c = id :=
    fun c id hname => entryOf_eq hc.cells_nodup hname
  have hmem := mem_cells_iff hc hroots
  have hfollow : ∀ v object, (v,object) ∈ vs.zip objects → ∀ path w, h.follow v path = some w →
      ∃ found, u.follow object path = some found ∧ Mirrors r (names made) w found := by
    intro v object hpair path w hw
    exact mirrors_follow hc hk.table (List.forall₂_zip hroots hpair) hw
  constructor
  case nodup => exact hc.cells_nodup
  case mem_cells => exact hmem
  case injective =>
    intro c hcell d hdell heq
    have hd := names_entryOf hdell
    rw [← heq] at hd
    exact names_injective hc.entries_nodup (names_entryOf hcell) hd
  case fresh =>
    intro c hcell
    obtain ⟨m,hm,_,hid⟩ := names_entryOf hcell
    rw [← hid]
    exact hc.fresh m hm
  case roots => exact hroots.imp fun _ _ hmirror => hmirror.mono hentry
  case tables =>
    intro c hcell
    obtain ⟨m,hm,rfl,hid⟩ := names_entryOf hcell
    obtain ⟨table,hread,hmirrors⟩ := hc.mirrors m hm
    refine ⟨table,m.table,hread,?_,hmirrors.mono hentry⟩
    rw [hk.table, ← hid]
    exact (hc.table r _ _).mpr (.inr ⟨rfl,m,hm,rfl,rfl⟩)
  case paths =>
    intro v object hpair path w hw
    obtain ⟨found,hfound,hmirror⟩ := hfollow v object hpair path w hw
    exact ⟨found,hfound,hmirror.mono hentry⟩
  case back =>
    intro v object hpair path found hfound
    rcases follow_mirrors hc hk.table (List.forall₂_zip hroots hpair)
      hfound with ⟨w,hw,hmirror⟩ | hshared
    · exact .inl ⟨w,hw,hmirror.mono hentry⟩
    · exact .inr hshared
  case same =>
    intro v object v' object' hpair hpair' path path' w w' hw hw'
    obtain ⟨found,hfound,hmirror⟩ := hfollow v object hpair path w hw
    obtain ⟨found',hfound',hmirror'⟩ := hfollow v' object' hpair' path' w' hw'
    rw [hfound, hfound', Option.bind_some, Option.bind_some]
    exact hc.same_entry_iff hv hmem (occurs_follow (.root (List.of_mem_zip hpair).1) hw) hmirror
      (occurs_follow (.root (List.of_mem_zip hpair').1) hw') hmirror'
  case kept =>
    intro q id g hg
    rw [hk.table]
    exact (hc.table q id g).mpr (.inl hg)
  case alive =>
    intro q id halive
    obtain ⟨g,hg⟩ := Store.isAlive_iff_table.mp halive
    rw [hk.table] at hg
    rcases (hc.table q id g).mp hg with hg | ⟨rfl,m,hm,hid,_⟩
    · exact .inl (Store.isAlive_iff_table.mpr ⟨g,hg⟩)
    · exact .inr ⟨rfl,m.cell,List.mem_map.mpr ⟨m,hm,rfl⟩,hentry _ _ ⟨m,hm,rfl,hid⟩⟩
  case live => rw [hk.live, hc.live, if_pos rfl, List.length_map]
  case count => exact fun c hcell => hc.referenceCount_eq hv hroots hs hk hb hcell

/-- Storing the values of a graph through a fresh capture succeeds and copies it, from any store that
is balanced. -/
theorem storeAll_copied (hs : s.Balanced out) (hr : r < s.registries.size) (hv : h.Storable vs s r) :
    ∃ objects c t cells entry, ({ registry := r } : Capture).storeAll s h vs = (.ok objects,c,t) ∧
      Copied h vs s r objects (c.finish t) cells entry := by
  have hstart : Copies h vs s r ⟨s,({ registry := r } : Capture).captured⟩ [] := .start hs.sound
  obtain ⟨objects,c,t,new,hall,hc,hroots⟩ :=
    copied_storeAll hv hr vs (fun v hv => .root hv) rfl rfl hstart
  rw [List.append_nil] at hc hroots
  have hkeeps := keeps_finish hc hroots (balanced_storeAll hr (balanced_fresh hs r) hall)
  exact ⟨objects,c,t,_,_,hall,hc.copied hv hroots hs hkeeps (balanced_pass hs hr hall)⟩

end Capture

/-- In every state that operations can lead to, storing the values of a graph in order through one
fresh capture succeeds and makes a copy of the graph that shares what it shares. -/
theorem GlobalState.capture_copies (ops : List Operation) (h : Heap) (vs : List Value)
    (r : RegistryId) (hr : r < (run ops).world.store.registries.size)
    (hv : h.Storable vs (run ops).world.store r) :
    ∃ objects c t cells entry, ({ registry := r } : Capture).storeAll (run ops).world.store h vs =
    (.ok objects,c,t) ∧
      Copied h vs (run ops).world.store r objects (c.finish t) cells entry :=
  Capture.storeAll_copied (run_accounted ops).world.balanced hr hv

namespace Heap

def diamond : Heap where
  cells :=
    #[{ content := OrderedMap.empty.insert (.integer 1) (.table 1) |>.insert (.integer 2) (.table 1) },
      { content :=
          OrderedMap.empty.insert (.string "n") (.integer 7) |>.insert (.string "t") (.shared ⟨0,0⟩) }]

theorem diamond_read {c : CellId} {table : LocalTable} (h : diamond.read c = .ok table) :
    c = 0 ∧ table.values = [.table 1,.table 1] ∨ c = 1 ∧ table.values = [.integer 7,.shared ⟨0,0⟩] := by
  have hc : c < 2 := lt_size_of_read h
  rcases Nat.le_one_iff_eq_zero_or_eq_one.mp (Nat.lt_succ_iff.mp hc) with rfl | rfl
  · cases h
    exact .inl ⟨rfl,by decide⟩
  · cases h
    exact .inr ⟨rfl,by decide⟩

theorem diamond_edge {c d : CellId} (h : diamond.Edge c d) : c < d := by
  obtain ⟨table,hread,hd⟩ := h
  rcases diamond_read hread with ⟨rfl,hvalues⟩ | ⟨rfl,hvalues⟩
  · rw [hvalues] at hd
    obtain rfl : d = 1 := by simpa using hd
    exact Nat.one_pos
  · rw [hvalues] at hd
    simp at hd

theorem diamond_occurs {v : Value} (h : diamond.Occurs [.table 0,.table 1] v) :
    v ∈ [.table 0,.table 1,.integer 7,.shared ⟨0,0⟩] := by
  cases h with
  | root hv => exact List.mem_append_left [.integer 7,.shared ⟨0,0⟩] hv
  | slot _ hread hv =>
    rcases diamond_read hread with ⟨_,hvalues⟩ | ⟨_,hvalues⟩
    · rw [hvalues] at hv
      simp at hv
      simp [hv]
    · rw [hvalues] at hv
      exact List.mem_append_right [.table 0,.table 1] hv

theorem diamond_storable {s : Store} (hs : s.isAlive 0 ⟨0,0⟩ = true) :
    diamond.Storable [.table 0,.table 1] s 0 where
  acyclic c _ hcycle := by
    have hlt : ∀ {a b}, Relation.TransGen diamond.Edge a b → a < b := by
      intro a b hab
      induction hab with
      | single hedge => exact diamond_edge hedge
      | tail _ hedge ih => exact ih.trans (diamond_edge hedge)
    exact absurd (hlt hcycle) (Nat.lt_irrefl c)
  readable c hoccurs := by
    have hmem := diamond_occurs hoccurs
    obtain rfl | rfl : c = 0 ∨ c = 1 := by simpa using hmem
    · exact ⟨_,rfl⟩
    · exact ⟨_,rfl⟩
  alive id hoccurs := by
    have hmem := diamond_occurs hoccurs
    obtain rfl : id = ⟨0,0⟩ := by simpa using hmem
    exact hs

end Heap

theorem GlobalState.capture_copies_diamond : let s := (run [.newPool,.create 0 []]).world.store
    (0 < s.registries.size ∧ Heap.diamond.Storable [.table 0,.table 1] s 0) ∧
      ∃ objects c t cells entry, ({ registry := 0 } : Capture).storeAll s Heap.diamond
      [.table 0,.table 1] =
        (.ok objects,c,t) ∧ Copied Heap.diamond [.table 0,.table 1] s 0 objects
        (c.finish t) cells entry := by
  have hr : 0 < (run [.newPool,.create 0 []]).world.store.registries.size := by decide
  have hv : Heap.diamond.Storable [.table 0,.table 1] (run [.newPool,.create 0 []]).world.store 0 :=
    Heap.diamond_storable (by decide)
  exact ⟨⟨hr,hv⟩,capture_copies [.newPool,.create 0 []] Heap.diamond [.table 0,.table 1] 0 hr hv⟩

end Workers
