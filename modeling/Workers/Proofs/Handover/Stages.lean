import Workers.Proofs.Ledger.Capture
import Workers.Proofs.Handover.Programs
import Workers.Proofs.Handover.Safe
/-! # The operations of a hand-over are safe

Each operation is described by what it has in hand before and after, next to whatever else there is.
Once the handle keeps every entry owed, storing values cannot endanger them; a result is owed from
its capture and kept before its own reference goes.
-/
namespace Workers

open TableHandle (shares)

def TableHandle.StrongIn (p : HandlePlace) (f : TableHandle) : Prop :=
  f.strong = true ∧ f.registry = p.registry

def Holdings.OwesAll (g : Holdings) (objects : List Stored) : Prop :=
  ∀ f ∈ objects.flatMap Stored.handles, f.strong = false ∧ g.Owes f

namespace Holdings

variable {p : HandlePlace} {g g' : Holdings} {m out : Multiset Share} {x : Share}

def Settled (p : HandlePlace) (g : Holdings) : Prop :=
  ∀ f ∈ g.owed, f.registry = p.registry ∧ f.entry ∈ g.kept

structure KeepsOwed (p : HandlePlace) (g : Holdings) (m : Multiset Share) : Prop where
  settled : g.Settled p
  held : ∀ x ∈ m, x ∈ g.held ∧ x ∈ g.ours
  distinct : (m.map Share.owner).Nodup

theorem Settled.covers (h : g.Settled p) : g.Covers p := fun f hf => .inr (h f hf)

theorem Owes.mono {f : TableHandle} (h : g.Owes f) (howed : g.owed ⊆ g'.owed) : g'.Owes f :=
  let ⟨f',hf',hat⟩ := h
  ⟨f',howed hf',hat⟩

theorem OwesAll.mono {objects : List Stored} (h : g.OwesAll objects) (howed : g.owed ⊆ g'.owed) :
    g'.OwesAll objects :=
  fun f hf => ⟨(h f hf).1,(h f hf).2.mono howed⟩

namespace KeepsOwed

theorem mono (h : g.KeepsOwed p m) (hout : out ≤ m) : g.KeepsOwed p out :=
  ⟨h.settled,fun x hx => h.held x (Multiset.mem_of_le hout hx),
    Multiset.nodup_of_le (Multiset.map_le_map hout) h.distinct⟩

theorem apart (h : g.KeepsOwed p (m + out)) {y : Share} (hx : x ∈ m) (hy : y ∈ out) :
    x.owner ≠ y.owner := by
  have hdistinct := h.distinct
  rw [Multiset.map_add, Multiset.nodup_add] at hdistinct
  intro heq
  exact Multiset.disjoint_left.mp hdistinct.2.2 (Multiset.mem_map_of_mem _ hx)
    (heq ▸ Multiset.mem_map_of_mem _ hy)

theorem own (h : g.KeepsOwed p m) (k : RegistryId × Holder) : (g.own k).KeepsOwed p m :=
  ⟨h.settled,fun x hx => ⟨(h.held x hx).1,.inl (h.held x hx).2⟩,h.distinct⟩

/-- A share under a holder of ours that nothing in hand is registered under joins the rest. -/
theorem hold (h : g.KeepsOwed p m) (hx : x ∈ g.ours) (hnew : ∀ y ∈ m, y.owner ≠ x.owner) :
    (g.hold x).KeepsOwed p ({x} + m) := by
  refine ⟨h.settled,fun y hy => ?_,?_⟩
  · rcases Multiset.mem_add.mp hy with hy | hy
    · obtain rfl := Multiset.mem_singleton.mp hy
      exact ⟨Set.mem_insert y g.held,hx⟩
    · exact ⟨Set.mem_insert_of_mem x (h.held y hy).1,(h.held y hy).2⟩
  · rw [Multiset.map_add, Multiset.map_singleton, Multiset.singleton_add, Multiset.nodup_cons]
    refine ⟨fun hin => ?_,h.distinct⟩
    obtain ⟨y,hy,heq⟩ := Multiset.mem_map.mp hin
    exact hnew y hy heq

theorem register (h : g.KeepsOwed p m) (hx : ∀ y ∈ g.ours, y.owner ≠ x.owner) :
    ((g.own x.owner).hold x).KeepsOwed p ({x} + m) :=
  (h.own x.owner).hold (.inr rfl) fun y hy => hx y (h.held y hy).2

theorem release {hs : List TableHandle} (h : g.KeepsOwed p (shares hs + out)) :
    (g.release hs).KeepsOwed p out := by
  have hout := h.mono (Multiset.le_add_left out (shares hs))
  refine ⟨h.settled,fun x hx => ⟨⟨(hout.held x hx).1,fun hmem => ?_⟩,(hout.held x hx).2⟩,hout.distinct⟩
  exact h.apart hmem hx rfl

theorem file {hs : List TableHandle} (h : g.KeepsOwed p (shares hs + out)) :
    (g.file hs).KeepsOwed p out := by
  have hout := h.mono (Multiset.le_add_left out (shares hs))
  have happart : ∀ x ∈ out, x.owner ∉ TableHandle.owners hs := by
    intro x hx hin
    obtain ⟨y,hy,heq⟩ := TableHandle.mem_owners.mp hin
    exact h.apart hy hx heq
  exact ⟨h.settled,fun x hx => ⟨⟨(hout.held x hx).1,happart x hx⟩,(hout.held x hx).2,happart x hx⟩,
    hout.distinct⟩

theorem surelyAlive {f : TableHandle} (h : g.KeepsOwed p m) (hf : f.share ≤ m)
    (hstrong : f.strong = true) :
    g.SurelyAlive p f.registry f.entry := by
  have hmem : (⟨f.registry,f.entry,f.holder⟩ : Share) ∈ m :=
    Multiset.mem_of_le hf (TableHandle.mem_share.mpr ⟨hstrong,rfl⟩)
  exact .inl ⟨_,(h.held _ hmem).1,rfl,rfl⟩

end KeepsOwed

end Holdings

namespace Code

open Capture (Refusal tableShares)

variable {p : HandlePlace} {g : Holdings} {out : Multiset Share}

def Leaves (p : HandlePlace) (g : Holdings) (m : Multiset Share) (g' : Holdings) : Prop :=
  g'.KeepsOwed p m ∧ g.owed ⊆ g'.owed

theorem Leaves.trans {g' g'' : Holdings} {m m' : Multiset Share} (h : Leaves p g m g')
    (h' : Leaves p g' m' g'') :
    Leaves p g m' g'' := ⟨h'.1,List.Subset.trans h.2 h'.2⟩

theorem safe_attach (h : g.KeepsOwed p out) (id : EntryId) : (attach p.registry id).Safe p g fun o g' =>
    (∀ f, o = .ok f → f.StrongIn p) ∧ Leaves p g (granted TableHandle.share o + out) g' := by
  refine ⟨rfl,fun n hn => ⟨.inr rfl,⟨?_,?_,List.Subset.refl _⟩,fun _ fault =>
    ⟨nofun,?_,List.Subset.refl _⟩⟩⟩
  · rintro f ⟨⟩
    exact ⟨rfl,rfl⟩
  · exact h.register (x := ⟨p.registry,id,.store n⟩) hn
  · rw [granted_error, zero_add]
    exact h.own _

/-- A number just taken is not that of a handle that goes into the table. -/
theorem safe_file {table : SharedTable} (h : g.KeepsOwed p (shares table.handles + out)) :
    (file p.registry table).Safe p g fun f g' => f.StrongIn p ∧ Leaves p g (f.share + out) g' := by
  have htable := h.mono (Multiset.le_add_right (shares table.handles) out)
  refine ⟨rfl,fun n hn => ?_⟩
  have hout : (p.registry,Holder.store n) ∉ TableHandle.owners table.handles := by
    intro hin
    obtain ⟨x,hx,heq⟩ := TableHandle.mem_owners.mp hin
    exact hn x (htable.held x hx).2 heq
  have hours : ∀ id, ⟨p.registry,id,.store n⟩ ∈
      ((g.own (p.registry,.store n)).file table.handles).ours :=
    fun id => ⟨.inr rfl,hout⟩
  have hfiled := (h.own (p.registry,.store n)).file
  refine ⟨rfl,fun x hx => .inl (htable.held x hx).2,hours,hfiled.settled.covers,
    fun id => ⟨⟨rfl,rfl⟩,?_,List.Subset.refl _⟩⟩
  refine hfiled.hold (x := ⟨p.registry,id,.store n⟩) (hours id) fun y hy => ?_
  exact hn y (h.held y (Multiset.mem_add.mpr (.inr hy))).2

theorem safe_copy {f : TableHandle} (h : g.KeepsOwed p out) (hin : f.share ≤ out) (hf : f.StrongIn p) :
    (copy f).Safe p g fun f' g' => f'.StrongIn p ∧ Leaves p g (f'.share + out) g' := by
  refine ⟨hf.2,fun n hn => ⟨.inr rfl,⟨⟨rfl,hf.2⟩,?_,List.Subset.refl _⟩,fun hsure fault => ?_⟩⟩
  · exact h.register (x := ⟨f.registry,f.entry,.store n⟩) hn
  · exact absurd ((h.surelyAlive hin hf.1).mono (le_refl _) (le_refl _)) hsure

def Sound (p : HandlePlace) (kept : Kept) : Prop := ∀ c f, (c,f) ∈ kept → f.StrongIn p

structure Stores (p : HandlePlace) (g : Holdings) (out : Multiset Share)
    (o : Except Refusal Stored × Kept) (g' : Holdings) :
    Prop where
  sound : Sound p o.2
  strongIn : ∀ object, o.1 = .ok object → ∀ f ∈ object.handles, f.StrongIn p
  leaves : Leaves p g (granted Stored.shares o.1 + (shares (o.2.map Prod.snd) + out)) g'

structure StoresTable (p : HandlePlace) (g : Holdings) (out : Multiset Share)
    (o : Except Refusal SharedTable × Kept) (g' : Holdings) : Prop where
  sound : Sound p o.2
  leaves : Leaves p g (granted tableShares o.1 + (shares (o.2.map Prod.snd) + out)) g'

theorem Sound.cons {kept : Kept} (h : Sound p kept) {f : TableHandle} (hf : f.StrongIn p) (c : CellId) :
    Sound p ((c,f) :: kept) := by
  intro d f' hin
  rcases List.mem_cons.mp hin with heq | hin
  · exact (Prod.mk.inj heq).2 ▸ hf
  · exact h d f' hin

theorem Sound.lookup {kept : Kept} (h : Sound p kept) {c : CellId} {f : TableHandle}
    (hl : kept.lookup c = some f) :
    f.StrongIn p ∧ f.share ≤ shares (kept.map Prod.snd) := by
  obtain ⟨before,rest,rfl,_⟩ := List.lookup_eq_some_iff.mp hl
  refine ⟨h c f (by simp),?_⟩
  simp only [List.map_append, List.map_cons, TableHandle.shares_append, TableHandle.shares_cons]
  exact (Multiset.le_add_right _ _).trans (Multiset.le_add_left _ _)

theorem stores_scalar {kept : Kept} {object : Stored} (hs : Sound p kept) (hobject : object.handles = [])
    (h : g.KeepsOwed p (shares (kept.map Prod.snd) + out)) : Stores p g out (.ok object,kept) g := by
  refine ⟨hs,?_,?_,List.Subset.refl _⟩
  · rintro _ ⟨⟩ f hf
    exact absurd hf (by simp [hobject])
  · simpa [Stored.shares, hobject] using h

theorem stores_refused {kept : Kept} {refusal : Refusal} (hs : Sound p kept)
    (h : g.KeepsOwed p (shares (kept.map Prod.snd) + out)) : Stores p g out (.error refusal,kept) g :=
  ⟨hs,nofun,by simpa using h,List.Subset.refl _⟩

/-- A table is filed with what it took along, and the capture keeps a handle of its own on it. -/
theorem safe_filed {kept : Kept} {shared : SharedTable} (hs : Sound p kept) (c : CellId)
    (h : g.KeepsOwed p (shares shared.handles + (shares (kept.map Prod.snd) + out))) :
    ((file p.registry shared).bind fun handle => (copy handle).bind fun own =>
      .done ((.ok (.shared handle) : Except Refusal Stored),(c,own) :: kept)).Safe p g
        (Stores p g out) := by
  refine safe_bind ((safe_file h).imp fun handle g₁ ⟨hsturdy,hfiled⟩ => safe_bind ?_)
  refine (safe_copy hfiled.1 (Multiset.le_add_right _ _) hsturdy).imp fun own g₂ ⟨hown,hcopied⟩ => ?_
  refine ⟨hs.cons hown c,?_,?_⟩
  · rintro _ ⟨⟩ f hf
    exact List.mem_singleton.mp hf ▸ hsturdy
  · have hleaves := hfiled.trans hcopied
    convert hleaves using 1
    simp only [granted_ok, Stored.shares_shared, List.map_cons, TableHandle.shares_cons]
    abel

def StoresSafely (h : Heap) (p : HandlePlace) (path : List CellId) (kept : Kept) (v : Value) : Prop :=
  ∀ g out, Sound p kept → g.KeepsOwed p (shares (kept.map Prod.snd) + out) →
    (storeValue h p.registry path kept v).Safe p g (Stores p g out)

def StoresAllSafely (h : Heap) (p : HandlePlace) (path : List CellId) (kept : Kept) (done : SharedTable)
    (es : List (Key × Value)) : Prop :=
  ∀ g out, Sound p kept → (done.keys ++ es.map Prod.fst).Nodup →
    g.KeepsOwed p (shares done.handles + (shares (kept.map Prod.snd) + out)) →
      (storeEntries h p.registry path kept done es).Safe p g (StoresTable p g out)

variable {h : Heap} {path : List CellId} {kept : Kept} {c : CellId}

theorem storesSafely_shared (id : EntryId) : StoresSafely h p path kept (.shared id) := by
  intro g out hs hb
  rw [storeValue]
  refine safe_bind ((safe_attach hb id).imp fun o g' hattached => ?_)
  obtain ⟨hsturdy,hleaves⟩ := hattached
  cases o with
  | error fault => exact ⟨hs,by simp,hleaves⟩
  | ok handle =>
    refine ⟨hs,?_,?_⟩
    · rintro _ ⟨⟩ f hf
      exact List.mem_singleton.mp hf ▸ hsturdy handle rfl
    · simpa using hleaves

/-- A table stored before is copied from the handle that the capture keeps on it. -/
theorem storesSafely_again {handle : TableHandle} (hc : c ∉ path) (hl : kept.lookup c = some handle) :
    StoresSafely h p path kept (.table c) := by
  intro g out hs hb
  obtain ⟨hsturdy,hle⟩ := hs.lookup hl
  rw [storeValue, dif_neg hc, hl]
  refine safe_bind ((safe_copy hb (hle.trans (Multiset.le_add_right _ _)) hsturdy).imp
    fun f g' hcopied => ?_)
  obtain ⟨hf,hleaves⟩ := hcopied
  refine ⟨hs,?_,?_⟩
  · rintro _ ⟨⟩ f' hf'
    exact List.mem_singleton.mp hf' ▸ hf
  · simpa using hleaves

theorem storesSafely_table {table : LocalTable} (hc : c ∉ path) (hl : kept.lookup c = none)
    (hread : h.read c = .ok table)
    (hentries : StoresAllSafely h p (c :: path) kept .empty table.entries) :
    StoresSafely h p path kept (.table c) := by
  intro g out hs hb
  rw [storeValue_table hc hl hread]
  have hempty : g.KeepsOwed p (shares (SharedTable.handles .empty) +
      (shares (kept.map Prod.snd) + out)) := by
    simpa [SharedTable.handles, OrderedMap.values, OrderedMap.empty] using hb
  refine safe_bind ((hentries g out hs table.nodup hempty).imp fun kept₁ g' hstored => ?_)
  obtain ⟨o,kept'⟩ := kept₁
  cases o with
  | error refusal => exact ⟨hstored.sound,by simp,hstored.leaves⟩
  | ok shared =>
    refine (safe_filed hstored.sound c hstored.leaves.1).imp fun o g'' hfiled => ?_
    exact ⟨hfiled.sound,hfiled.strongIn,hstored.leaves.trans hfiled.leaves⟩

/-- The object of an entry goes on with those stored before, and a refusal drops them. -/
theorem storesAllSafely_cons {done : SharedTable} {key : Key} {value : Value} {rest : List (Key × Value)}
    (hvalue : StoresSafely h p path kept value)
    (hrest : ∀ object kept', StoresAllSafely h p path kept' (done.insert key object) rest) :
    StoresAllSafely h p path kept done ((key,value) :: rest) := by
  intro g out hs hn hb
  rw [storeEntries]
  rw [add_left_comm] at hb
  refine safe_bind ((hvalue g _ hs hb).imp fun kept₁ g' hstored => ?_)
  obtain ⟨o,kept'⟩ := kept₁
  cases o with
  | error refusal =>
    have hdropped : (g'.release done.handles).KeepsOwed p (shares (kept'.map Prod.snd) + out) := by
      refine Holdings.KeepsOwed.release ?_
      have hleft := hstored.leaves.1
      rwa [granted_error, zero_add, add_left_comm] at hleft
    exact ⟨hdropped.settled.covers,hstored.sound,by simpa using hdropped,hstored.leaves.2⟩
  | ok object =>
    have hfresh : key ∉ done.keys := by
      intro hk
      exact (List.nodup_append.mp hn).2.2 key hk key (by simp) rfl
    have hkeys : ((done.insert key object).keys ++ rest.map Prod.fst).Nodup := by
      rw [OrderedMap.keys_insert_of_not_mem object hfresh, List.append_assoc]
      exact hn
    have hinsert : shares (SharedTable.handles (done.insert key object)) = shares done.handles +
        object.shares :=
      Capture.tableShares_insert hfresh object
    have hin : g'.KeepsOwed p (shares (SharedTable.handles (done.insert key object)) +
        (shares (kept'.map Prod.snd) + out)) := by
      convert hstored.leaves.1 using 1
      rw [hinsert, granted_ok]
      abel
    refine (hrest object kept' g' out hstored.sound hkeys hin).imp fun o g'' hend => ?_
    exact ⟨hend.sound,hstored.leaves.trans hend.leaves⟩

theorem safe_store (h : Heap) (p : HandlePlace) : (∀ path kept v, StoresSafely h p path kept v) ∧
    ∀ path kept done es, StoresAllSafely h p path kept done es := by
  apply storeValue.mutual_induct h (StoresSafely h p) (StoresAllSafely h p)
  case case1 | case2 | case3 | case4 | case5 | case6 =>
    intros
    intro g out hs hb
    rw [storeValue]
    exact stores_scalar hs rfl hb
  case case7 => exact fun path kept id => storesSafely_shared id
  case case8 =>
    intro path kept c hc g out hs hb
    rw [storeValue, dif_pos hc]
    exact stores_refused hs hb
  case case9 => exact fun path kept c hc handle hl => storesSafely_again hc hl
  case case10 =>
    intro path kept c hc hl fault hread g out hs hb
    rw [storeValue_unreadable hc hl hread]
    exact stores_refused hs hb
  case case11 => exact fun path kept c hc hl table hread ih => storesSafely_table hc hl hread ih
  case case12 =>
    intro path kept done g out hs hn hb
    rw [storeEntries]
    exact ⟨hs,hb,List.Subset.refl _⟩
  case case13 => exact fun path kept done key value rest ihrest ihvalue =>
    storesAllSafely_cons ihvalue ihrest

structure Captured (p : HandlePlace) (g : Holdings) (out : Multiset Share)
    (o : Except Fault Stored × Capture) (g' : Holdings) :
    Prop where
  registry : o.2.registry = p.registry
  sound : Sound p o.2.captured
  strongIn : ∀ object, o.1 = .ok object → ∀ f ∈ object.handles, f.StrongIn p
  leaves : Leaves p g (granted Stored.shares o.1 + (o.2.shares + out)) g'

theorem safe_capture {c : Capture} (hc : c.registry = p.registry) (hs : Sound p c.captured)
    (hb : g.KeepsOwed p (c.shares + out)) (heap : Heap) (value : Value) :
    (capture c heap value).Safe p g (Captured p g out) := by
  unfold capture
  rw [hc]
  refine safe_bind (((safe_store heap p).1 c.path c.captured value g out hs hb).imp
    fun ⟨o,kept⟩ g' hstored => ?_)
  cases o with
  | error refusal => exact ⟨rfl,hstored.sound,nofun,hstored.leaves⟩
  | ok object =>
    refine ⟨rfl,hstored.sound,?_,hstored.leaves⟩
    rintro _ ⟨⟩
    exact hstored.strongIn object rfl

theorem weak_weakened (object : Stored) : ∀ f ∈ object.weakened.handles, f.strong = false := by
  cases object with
  | shared f =>
    intro f' hf'
    rw [List.mem_singleton.mp hf']
  | nil | boolean | integer | float | string | function => exact fun f hf => absurd hf List.not_mem_nil

/-- An object captured just now is owed.  The handle takes it before it gives up its own reference, and
cannot refuse it. -/
theorem safe_captured {α : Type} {object : Stored} {k : Except Fault Stored → Code α}
    {Q : α → Holdings → Prop} (hb : g.KeepsOwed p (object.shares + out))
    (hsturdy : ∀ f ∈ object.handles, f.StrongIn p)
    (hk : ∀ g', Leaves p g out g' → g'.OwesAll [object.weakened] →
      (k (.ok object.weakened)).Safe p g' Q) :
    (Code.captured object ((adopt p.handle object).bind k)).Safe p g Q := by
  have hin : ∀ f ∈ object.handles, ⟨f.registry,f.entry,f.holder⟩ ∈ object.shares + out := fun f hf =>
    Multiset.mem_add.mpr (.inl (TableHandle.mem_shares.mpr ⟨f,hf,(hsturdy f hf).1,rfl⟩))
  have hsure : ∀ f ∈ object.handles, (g.owe object).SurelyAlive p f.registry f.entry := fun f hf =>
    .inl ⟨_,(hb.held _ (hin f hf)).1,rfl,rfl⟩
  have hcovers : (g.owe object).Covers p := by
    intro f hf
    rcases List.mem_append.mp hf with hf | hf
    · exact .inr (hb.settled f hf)
    · exact hsure f hf
  have hkept : ((g.owe object).keep object).KeepsOwed p (object.shares + out) := by
    refine ⟨fun f hf => ?_,hb.held,hb.distinct⟩
    rcases List.mem_append.mp hf with hf | hf
    · exact ⟨(hb.settled f hf).1,.inl (hb.settled f hf).2⟩
    · exact ⟨(hsturdy f hf).2,.inr ⟨f,hf,rfl⟩⟩
  have hleft := hkept.release
  refine ⟨hcovers,rfl,fun _ => ⟨hleft.settled.covers,hk _ ⟨hleft,List.subset_append_left _ _⟩ ?_⟩,?_⟩
  · intro f hf
    rw [List.flatMap_singleton] at hf
    refine ⟨weak_weakened object f hf,?_⟩
    cases object with
    | shared f' =>
      rw [List.mem_singleton.mp hf]
      exact ⟨f',List.mem_append_right _ (List.mem_singleton.mpr rfl),rfl,rfl⟩
    | nil | boolean | integer | float | string | function => exact absurd hf List.not_mem_nil
  · rintro ⟨f,hf,hnot⟩
    exact absurd (hsure f hf) (hnot (hsturdy f hf).2)

theorem release_weak {hs : List TableHandle} (hweak : ∀ f ∈ hs, f.strong = false) :
    g.release hs = g := by
  refine Holdings.release_of_apart fun x _ hx => ?_
  obtain ⟨f,hf,hstrong,_⟩ := TableHandle.mem_shares.mp hx
  rw [hweak f hf] at hstrong
  cases hstrong

/-- Giving up after a fault drops what was moved, and then what the capture keeps. -/
theorem safe_abandon {α : Type} {done : List Stored} {c : Capture} {a : α}
    {Q : α → Holdings → Prop} (hdone : g.OwesAll done) (hb : g.KeepsOwed p (c.shares + out))
    (hQ : ∀ g', Leaves p g out g' → Q a g') :
    (Code.drop (done.flatMap Stored.handles) (.drop (c.captured.map Prod.snd) (.done a))).Safe p g
      Q := by
  have hsame : g.release (done.flatMap Stored.handles) = g := release_weak fun f hf => (hdone f hf).1
  have hleft : (g.release (c.captured.map Prod.snd)).KeepsOwed p out := hb.release
  simp only [Safe, hsame]
  exact ⟨hb.settled.covers,hleft.settled.covers,hQ _ ⟨hleft,List.Subset.refl _⟩⟩

/-- Collecting results leaves nothing owed without the handle to keep it, and lists what it hands out. -/
theorem safe_collect (heap : Heap) {c : Capture} {done : List Stored}
    (hc : c.registry = p.registry) (hs : Sound p c.captured) (hb : g.KeepsOwed p (c.shares + out))
    (hdone : g.OwesAll done) (values : List Value) :
    (collect p.handle heap c done values).Safe p g fun o g' =>
      Leaves p g out g' ∧ ∀ results, o = .ok results → g'.OwesAll results := by
  induction values generalizing g c done with
  | nil =>
    have hleft : (g.release (c.captured.map Prod.snd)).KeepsOwed p out := hb.release
    refine ⟨hleft.settled.covers,⟨hleft,List.Subset.refl _⟩,?_⟩
    rintro results ⟨⟩
    exact hdone
  | cons value rest ih =>
    rw [collect]
    refine safe_bind ((safe_capture hc hs hb heap value).imp fun captured g' hcaptured => ?_)
    obtain ⟨o,c'⟩ := captured
    obtain ⟨hb',howed⟩ := hcaptured.leaves
    cases o with
    | error fault =>
      rw [granted_error, zero_add] at hb'
      exact safe_abandon (hdone.mono howed) hb' fun g'' hleft =>
        ⟨⟨hleft.1,List.Subset.trans howed hleft.2⟩,by simp⟩
    | ok object =>
      refine safe_captured hb' (hcaptured.strongIn object rfl) fun g'' hleft hlists => ?_
      have hmoved : g''.OwesAll (done ++ [object.weakened]) := by
        intro f hf
        rw [List.flatMap_append] at hf
        rcases List.mem_append.mp hf with hf | hf
        · exact (hdone.mono (List.Subset.trans howed hleft.2)) f hf
        · exact hlists f hf
      refine (ih hcaptured.registry hcaptured.sound hleft.1 hmoved).imp fun o g₃ hend => ?_
      exact ⟨⟨hend.1.1,List.Subset.trans howed (List.Subset.trans hleft.2 hend.1.2)⟩,hend.2⟩

/-- Every entry owed is kept by the handle or named by a handle still to be moved, which is in hand. -/
structure OwedInHand (p : HandlePlace) (g : Holdings) (hs : List TableHandle) : Prop where
  covers : ∀ f ∈ g.owed, (f.registry = p.registry ∧ f.entry ∈ g.kept) ∨
    ∃ x ∈ shares hs, x.registry = f.registry ∧ x.entry = f.entry
  held : ∀ x ∈ shares hs, x ∈ g.held
  distinct : (shares hs).Nodup

theorem OwedInHand.isCovers {hs : List TableHandle} (h : OwedInHand p g hs) : g.Covers p := fun f hf =>
  (h.covers f hf).symm.imp (fun ⟨x,hx,hat⟩ => ⟨x,h.held x hx,hat⟩) fun hkept => hkept

/-- An object moved under the handle is no longer needed for what it names. -/
theorem OwedInHand.moved {object : Stored} {hs : List TableHandle}
    (h : OwedInHand p g (object.handles ++ hs))
    (hregistry : ∀ f ∈ object.handles, f.registry = p.registry) :
    OwedInHand p ((g.keep object).release object.handles) hs := by
  have hdistinct := h.distinct
  have hheld := h.held
  simp only [TableHandle.shares_append] at hdistinct hheld
  refine ⟨fun f hf => ?_,fun x hx => ⟨hheld x (Multiset.mem_add.mpr (.inr hx)),fun hmem => ?_⟩,
    (Multiset.nodup_add.mp hdistinct).2.1⟩
  · rcases h.covers f hf with hkept | ⟨x,hx,hat⟩
    · exact .inl ⟨hkept.1,.inl hkept.2⟩
    · rw [TableHandle.shares_append] at hx
      rcases Multiset.mem_add.mp hx with hx | hx
      · obtain ⟨f',hf',_,rfl⟩ := TableHandle.mem_shares.mp hx
        exact .inl ⟨hat.1 ▸ hregistry f' hf',.inr ⟨f',hf',hat.2⟩⟩
      · exact .inr ⟨x,hx,hat⟩
  · exact Multiset.disjoint_left.mp (Multiset.nodup_add.mp hdistinct).2.2 hmem hx

theorem safe_adoptAll {arguments : List Stored} (position : Nat)
    (h : OwedInHand p g (arguments.flatMap Stored.handles)) :
    (adoptAll p.handle position arguments).Safe p g fun o g' => ∀ adopted, o = .ok adopted →
      g'.Settled p ∧ ∀ f ∈ adopted.flatMap Stored.handles, f.strong = false := by
  induction arguments generalizing g position with
  | nil =>
    rintro adopted ⟨⟩
    refine ⟨fun f hf => ?_,by simp⟩
    rcases h.covers f hf with hkept | ⟨x,hx,_⟩
    · exact hkept
    · exact absurd hx (by simp)
  | cons object rest ih =>
    rw [List.flatMap_cons] at h
    refine ⟨rfl,fun hregistry => ?_,fun _ fault => nofun⟩
    have hmoved := h.moved hregistry
    refine ⟨hmoved.isCovers,safe_bind ((ih (position + 1) hmoved).imp fun o g' hend => ?_)⟩
    cases o with
    | error refused => exact nofun
    | ok adopted =>
      rintro _ ⟨⟩
      obtain ⟨hsettled,hweak⟩ := hend adopted rfl
      refine ⟨hsettled,fun f hf => ?_⟩
      rcases List.mem_append.mp (List.flatMap_cons ▸ hf) with hf | hf
      · exact weak_weakened object f hf
      · exact hweak f hf

theorem safe_loadAll (c : ContextId) (objects : List Stored) :
    (loadAll c objects).Safe p g fun _ g' => g' = g := by
  induction objects with
  | nil => exact rfl
  | cons object rest ih =>
    intro outcome
    cases outcome with
    | error fault => exact rfl
    | ok value => exact safe_bind (ih.imp fun o g' hsame => hsame)

section Stages

variable {U N : Type}

def Carries (p : HandlePlace) (g : Holdings) : Stage (Frame U N) → Prop
  | .starting _ arguments => ∀ f ∈ arguments.flatMap Stored.handles, f.strong = false
  | .running c _ | .collecting c _ => c = p.context
  | .destroying _ e | .judging e => ∀ results, e = .completed results → g.OwesAll results
  | .publishing results _ => g.OwesAll results
  | .announcing _ | .leaving | .gone => True

theorem safe_ofStage {w : World} (hf : p.Fits g w) (hsettled : g.Settled p) {stage : Stage (Frame U N)}
    (hstage : Carries p g stage) :
    (ofStage w p.handle stage).Safe p g fun stage' g' => g'.Settled p ∧ Carries p g' stage' := by
  cases stage with
  | starting routine arguments =>
    refine ⟨rfl,⟨hsettled,trivial⟩,
      safe_bind ((safe_loadAll p.context arguments).imp fun o g' hsame => ?_)⟩
    subst hsame
    have hsame : g'.release (arguments.flatMap Stored.handles) = g' := release_weak hstage
    simp only [Safe, hsame]
    cases o with
    | error fault => exact ⟨hsettled.covers,hsettled,fun _ h => by cases h⟩
    | ok values => exact ⟨hsettled.covers,hsettled,rfl⟩
  | collecting c values =>
    obtain rfl : c = p.context := hstage
    have hempty : g.KeepsOwed p (Capture.shares { registry := (w.context p.context).registry } + 0) :=
      ⟨hsettled,by simp [Capture.shares],by simp [Capture.shares]⟩
    have hnone : g.OwesAll [] := fun f hf => absurd hf List.not_mem_nil
    refine safe_bind ((safe_collect w.memory.heap hf.inWorld.home
      (fun c f hin => absurd hin List.not_mem_nil) hempty
      hnone values).imp fun o g' hcollected => ?_)
    obtain ⟨hleft,hresults⟩ := hcollected
    cases o with
    | error fault => exact ⟨hleft.1.settled,fun _ h => by cases h⟩
    | ok results =>
      refine ⟨hleft.1.settled,?_⟩
      rintro _ ⟨⟩
      exact hresults results rfl
  | destroying c e => exact ⟨hsettled,hstage⟩
  | publishing results status => exact ⟨rfl,hstage,hsettled,trivial⟩
  | running | judging | announcing | leaving | gone => exact ⟨hsettled,hstage⟩

end Stages

end Code

end Workers
