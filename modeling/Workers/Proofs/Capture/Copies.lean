import Workers.Proofs.Capture.Graph
/-! # A capture copies a graph

The memo of a capture is read together with the table filed for each of its cells.  Storing a value
of an acyclic graph succeeds and adds to it cells off the path only, so that the cell being copied
is not among those copied meanwhile.
-/
namespace Workers

namespace Capture

structure Made where
  cell : CellId
  kept : TableHandle
  table : SharedTable

def names (made : List Made) (c : CellId) (id : EntryId) : Prop :=
  ∃ m ∈ made, m.cell = c ∧ m.kept.entry = id

theorem names_append {made : List Made} (new : List Made) {c : CellId} {id : EntryId}
    (h : names made c id) :
    names (new ++ made) c id := by
  obtain ⟨m,hm,hc,hid⟩ := h
  exact ⟨m,List.mem_append_right new hm,hc,hid⟩

/-- The tables of a store are those of the store `s` and those that have been made since. -/
structure MadeSince (s : Store) (r : RegistryId) (t : Store) (made : List Made) : Prop where
  later : s.Later t
  sound : ∀ q, (t.arena q).Sound
  fresh : ∀ m ∈ made, s.isAlive r m.kept.entry = false
  entries_nodup : (made.map fun m => m.kept.entry).Nodup
  table : ∀ q id g, t.table q id = .ok g ↔
    s.table q id = .ok g ∨ q = r ∧ ∃ m ∈ made, m.kept.entry = id ∧ g = { content := m.table }
  live : ∀ q, t.liveEntries q = s.liveEntries q + if q = r then made.length else 0
  filed : t.filed = s.filed + (made.map fun m => TableHandle.shares m.table.handles).sum

section Laid

variable {s t u : Store} {r : RegistryId} {made : List Made}

theorem MadeSince.start (hs : ∀ q, (s.arena q).Sound) (r : RegistryId) : MadeSince s r s [] where
  later := .refl s
  sound := hs
  fresh := nofun
  entries_nodup := .nil
  table := by simp
  live := by simp
  filed := by simp

theorem MadeSince.keeps (hl : MadeSince s r t made) (hk : t.Keeps u) : MadeSince s r u made where
  later := hl.later.trans hk.later
  sound := hk.sound hl.sound
  fresh := hl.fresh
  entries_nodup := hl.entries_nodup
  table q id g := by rw [hk.table, hl.table]
  live q := by rw [hk.live, hl.live]
  filed := by rw [hk.filed, hl.filed]

theorem MadeSince.alive_old (hl : MadeSince s r t made) {q : RegistryId} {id : EntryId}
    (ha : s.isAlive q id = true) :
    t.isAlive q id = true := by
  obtain ⟨g,hg⟩ := Store.isAlive_iff_table.mp ha
  exact Store.isAlive_iff_table.mpr ⟨g,(hl.table q id g).mpr (.inl hg)⟩

theorem MadeSince.alive_made (hl : MadeSince s r t made) {m : Made} (hm : m ∈ made) :
    t.isAlive r m.kept.entry = true :=
  Store.isAlive_iff_table.mpr ⟨_,(hl.table r _ _).mpr (.inr ⟨rfl,m,hm,rfl,rfl⟩)⟩

theorem MadeSince.not_alive (hl : MadeSince s r t made) {m : Made} (hm : m ∈ made) :
    ¬ s.isAlive r m.kept.entry = true := by
  rw [hl.fresh m hm]
  exact Bool.false_ne_true

/-- An entry that is not there yet was not there before either, and was not made since. -/
theorem MadeSince.unused (hl : MadeSince s r t made) {id : EntryId} (hfresh : t.isAlive r id = false) :
    s.isAlive r id = false ∧ ∀ m ∈ made, m.kept.entry ≠ id := by
  constructor
  · by_contra ha
    rw [Bool.not_eq_false] at ha
    have ht := hl.alive_old ha
    rw [hfresh] at ht
    cases ht
  · rintro m hm rfl
    have ht := hl.alive_made hm
    rw [hfresh] at ht
    cases ht

/-- One more table is filed. -/
theorem MadeSince.file (hl : MadeSince s r t made) {m : Made}
    (hfiles : t.Files r m.kept.entry { content := m.table } u) : MadeSince s r u (m :: made) := by
  obtain ⟨hfresh,hids⟩ := hl.unused hfiles.fresh
  refine ⟨hl.later.trans hfiles.later,hfiles.sound hl.sound,?_,?_,fun q j g => ?_,fun q => ?_,?_⟩
  · exact List.forall_mem_cons.mpr ⟨hfresh,hl.fresh⟩
  · refine List.nodup_cons.mpr ⟨fun hm => ?_,hl.entries_nodup⟩
    obtain ⟨m',hm',hid⟩ := List.mem_map.mp hm
    exact hids m' hm' hid
  · rw [hfiles.table]
    by_cases hj : q = r ∧ j = m.kept.entry
    · obtain ⟨rfl,rfl⟩ := hj
      rw [if_pos ⟨rfl,rfl⟩]
      constructor
      · intro hg
        cases hg
        exact .inr ⟨rfl,m,List.mem_cons_self,rfl,rfl⟩
      · rintro (hg | ⟨_,m',hm',hid,rfl⟩)
        · have ha := Store.isAlive_iff_table.mpr ⟨g,hg⟩
          rw [hfresh] at ha
          cases ha
        · rcases List.mem_cons.mp hm' with rfl | hm'
          · rfl
          · exact absurd hid (hids m' hm')
    · rw [if_neg hj, hl.table]
      refine or_congr_right (and_congr_right fun hq => ?_)
      constructor
      · rintro ⟨m',hm',hid,hg⟩
        exact ⟨m',List.mem_cons_of_mem _ hm',hid,hg⟩
      · rintro ⟨m',hm',hid,hg⟩
        rcases List.mem_cons.mp hm' with rfl | hm'
        · exact absurd ⟨hq,hid.symm⟩ hj
        · exact ⟨m',hm',hid,hg⟩
  · rw [hfiles.live, hl.live]
    by_cases hq : q = r
    · simp only [hq, if_true, List.length_cons]
      omega
    · simp only [hq, if_false]
  · rw [hfiles.filed, hl.filed, List.map_cons, List.sum_cons,
      add_comm (TableHandle.shares m.table.handles), ← add_assoc]
    rfl

end Laid

/-- What a capture has done since it began on the store `s`. -/
structure Copies (h : Heap) (vs : List Value) (s : Store) (r : RegistryId) (p : Progress)
    (made : List Made) :
    Prop where
  captured : p.captured = made.map fun m => (m.cell,m.kept)
  later : s.Later p.store
  sound : ∀ q, (p.store.arena q).Sound
  occurs : ∀ m ∈ made, h.Occurs vs (.table m.cell)
  cells_nodup : (made.map Made.cell).Nodup
  kept : ∀ m ∈ made, m.kept.registry = r
  fresh : ∀ m ∈ made, s.isAlive r m.kept.entry = false
  entries_nodup : (made.map fun m => m.kept.entry).Nodup
  mirrors : ∀ m ∈ made, ∃ table, h.read m.cell = .ok table ∧
      MirrorsAll r (names made) table.entries m.table.entries
  table : ∀ q id g, p.store.table q id = .ok g ↔
    s.table q id = .ok g ∨ q = r ∧ ∃ m ∈ made, m.kept.entry = id ∧ g = { content := m.table }
  live : ∀ q, p.store.liveEntries q = s.liveEntries q + if q = r then made.length else 0
  filed : p.store.filed = s.filed + (made.map fun m => TableHandle.shares m.table.handles).sum

variable {h : Heap} {vs : List Value} {s t : Store} {r : RegistryId} {p p' : Progress} {made : List Made}

theorem Copies.madeSince (hc : Copies h vs s r p made) : MadeSince s r p.store made :=
  ⟨hc.later,hc.sound,hc.fresh,hc.entries_nodup,hc.table,hc.live,hc.filed⟩

theorem Copies.of_madeSince (hl : MadeSince s r p.store made)
    (captured : p.captured = made.map fun m => (m.cell,m.kept))
    (occurs : ∀ m ∈ made, h.Occurs vs (.table m.cell)) (cells_nodup : (made.map Made.cell).Nodup)
    (kept : ∀ m ∈ made, m.kept.registry = r)
    (mirrors : ∀ m ∈ made, ∃ table, h.read m.cell = .ok table ∧
      MirrorsAll r (names made) table.entries m.table.entries) :
    Copies h vs s r p made where
  captured := captured
  later := hl.later
  sound := hl.sound
  occurs := occurs
  cells_nodup := cells_nodup
  kept := kept
  fresh := hl.fresh
  entries_nodup := hl.entries_nodup
  mirrors := mirrors
  table := hl.table
  live := hl.live
  filed := hl.filed

theorem Copies.start (hs : ∀ q, (s.arena q).Sound) : Copies h vs s r ⟨s,[]⟩ [] :=
  .of_madeSince (.start hs r) rfl nofun .nil nofun nofun

theorem Copies.keeps (hc : Copies h vs s r p made) (hk : p.store.Keeps t) :
    Copies h vs s r { p with store := t } made :=
  .of_madeSince (hc.madeSince.keeps hk) hc.captured hc.occurs hc.cells_nodup hc.kept hc.mirrors

theorem Copies.alive_old (hc : Copies h vs s r p made) {q : RegistryId} {id : EntryId}
    (ha : s.isAlive q id = true) :
    p.store.isAlive q id = true := hc.madeSince.alive_old ha

theorem Copies.alive_made (hc : Copies h vs s r p made) {m : Made} (hm : m ∈ made) :
    p.store.isAlive r m.kept.entry = true := hc.madeSince.alive_made hm

theorem lookup_made {made : List Made} {c : CellId} {handle : TableHandle}
    (hl : (made.map fun m => (m.cell,m.kept)).lookup c = some handle) :
    ∃ m ∈ made, m.cell = c ∧ m.kept = handle := by
  induction made with
  | nil => cases hl
  | cons m rest ih =>
    simp only [List.map_cons, List.lookup_cons] at hl
    split at hl
    · rename_i heq
      exact ⟨m,List.mem_cons_self,(beq_iff_eq.mp heq).symm,Option.some.inj hl⟩
    · obtain ⟨m',hm',hc,hk⟩ := ih hl
      exact ⟨m',List.mem_cons_of_mem m hm',hc,hk⟩

theorem not_made {made : List Made} {c : CellId}
    (hl : (made.map fun m => (m.cell,m.kept)).lookup c = none) :
    ∀ m ∈ made, m.cell ≠ c := by
  induction made with
  | nil => nofun
  | cons m rest ih =>
    simp only [List.map_cons, List.lookup_cons] at hl
    split at hl
    · cases hl
    · rename_i hne
      intro m' hm'
      rcases List.mem_cons.mp hm' with rfl | hm'
      · rintro rfl
        simp at hne
      · exact ih hl m' hm'

/-- A finished table is filed, and the memo has its cell from now on. -/
theorem Copies.file (hc : Copies h vs s r p made) {c : CellId} {table : LocalTable}
    {shared : SharedTable} {number : ℕ} {id : EntryId} {kept : TableHandle}
    (hoccurs : h.Occurs vs (.table c)) (hread : h.read c = .ok table)
    (hnew : ∀ m ∈ made, m.cell ≠ c)
    (hmirror : MirrorsAll r (names made) table.entries shared.entries)
    (hfiles : p.store.Files r id { content := shared } t)
    (hkept : kept = { entry := id, number, registry := r, strong := true }) :
    Copies h vs s r ⟨t,(c,kept) :: p.captured⟩ (⟨c,kept,shared⟩ :: made) := by
  obtain rfl : kept.entry = id := by rw [hkept]
  have hmore : ∀ d j, names made d j → names (⟨c,kept,shared⟩ :: made) d j :=
    fun d j hn => names_append [⟨c,kept,shared⟩] hn
  refine .of_madeSince (hc.madeSince.file hfiles) ?_ ?_ ?_ ?_ ?_
  · rw [hc.captured, List.map_cons]
  · exact List.forall_mem_cons.mpr ⟨hoccurs,hc.occurs⟩
  · refine List.nodup_cons.mpr ⟨fun hm => ?_,hc.cells_nodup⟩
    obtain ⟨m,hm,hcell⟩ := List.mem_map.mp hm
    exact hnew m hm hcell
  · exact List.forall_mem_cons.mpr ⟨by rw [hkept],hc.kept⟩
  · refine List.forall_mem_cons.mpr ⟨⟨table,hread,hmirror.mono hmore⟩,fun m hm => ?_⟩
    obtain ⟨table',hread',hm'⟩ := hc.mirrors m hm
    exact ⟨table',hread',hm'.mono hmore⟩

structure Grows (h : Heap) (vs : List Value) (s : Store) (r : RegistryId) (path : List CellId)
    (made new : List Made) (p : Progress) : Prop where
  copies : Copies h vs s r p (new ++ made)
  off : ∀ m ∈ new, m.cell ∉ path

theorem Copies.grows (hc : Copies h vs s r p made) (path : List CellId) :
    Grows h vs s r path made [] p := ⟨hc,nofun⟩

theorem Grows.trans {path : List CellId} {new new' : List Made} (hg : Grows h vs s r path made new p)
    (hg' : Grows h vs s r path (new ++ made) new' p') : Grows h vs s r path made (new' ++ new) p' := by
  refine ⟨?_,fun m hm => ?_⟩
  · rw [List.append_assoc]
    exact hg'.copies
  · rcases List.mem_append.mp hm with hm | hm
    · exact hg'.off m hm
    · exact hg.off m hm

def LeadsTo (h : Heap) (path : List CellId) (v : Value) : Prop :=
  ∀ d ∈ path, ∀ c, v = .table c → Relation.TransGen h.Edge d c

def ValueCopied (h : Heap) (vs : List Value) (s : Store) (r : RegistryId) (path : List CellId)
    (p : Progress) (v : Value) (o : Except Refusal Stored) (p' : Progress) : Prop :=
  h.Occurs vs v → LeadsTo h path v → ∀ made, Copies h vs s r p made → ∃ object new, o = .ok object ∧
    Grows h vs s r path made new p' ∧ Mirrors r (names (new ++ made)) v object

def EntriesCopied (h : Heap) (vs : List Value) (s : Store) (r : RegistryId) (path : List CellId)
    (p : Progress) (done : SharedTable) (es : List (Key × Value)) (o : Except Refusal SharedTable)
    (p' : Progress) : Prop :=
  (∀ e ∈ es, h.Occurs vs e.2 ∧ LeadsTo h path e.2) → (done.keys ++ es.map Prod.fst).Nodup →
    ∀ made before, Copies h vs s r p made → MirrorsAll r (names made) before done.entries →
      ∃ shared new, o = .ok shared ∧ Grows h vs s r path made new p' ∧
        MirrorsAll r (names (new ++ made)) (before ++ es) shared.entries

theorem copied_attached (hv : h.Storable vs s r) (path : List CellId) (p : Progress)
    (id : EntryId) :
    ValueCopied h vs s r path p (.shared id) (match TableHandle.attach p.store r id with
      | (.ok handle,_) => .ok (.shared handle)
      | (.error fault,_) => .error
        ⟨fault,path⟩) { p with store := (TableHandle.attach p.store r id).2 } := by
  intro hoccurs _ made hc
  obtain ⟨number,t,ha,hkeeps⟩ := TableHandle.attach_of_alive (hc.alive_old (hv.alive id hoccurs))
  rw [ha]
  exact ⟨_,[],rfl,(hc.keeps hkeeps).grows path,.shared id number⟩

theorem copied_again (path : List CellId) {p : Progress} {c : CellId} {handle : TableHandle}
    (hl : p.captured.lookup c = some handle) : ValueCopied h vs s r path p (.table c)
      (.ok (.shared (handle.copy p.store).1)) { p with store := (handle.copy p.store).2 } := by
  intro _ _ made hc
  rw [hc.captured] at hl
  obtain ⟨m,hm,hcell,rfl⟩ := lookup_made hl
  have hregistry := hc.kept m hm
  have halive : p.store.isAlive m.kept.registry m.kept.entry = true := by
    rw [hregistry]
    exact hc.alive_made hm
  obtain ⟨number,t,hcopy,hkeeps⟩ := TableHandle.copy_of_alive halive
  rw [hcopy]
  refine ⟨_,[],rfl,(hc.keeps hkeeps).grows path,?_⟩
  rw [hregistry]
  exact .table number ⟨m,hm,hcell,rfl⟩

/-- What holds of a table holds of its slots, with the table on the path. -/
theorem slots_lead {path : List CellId} {c : CellId} {table : LocalTable}
    (hoccurs : h.Occurs vs (.table c)) (hleads : LeadsTo h path (.table c))
    (hread : h.read c = .ok table) :
    ∀ e ∈ table.entries, h.Occurs vs e.2 ∧ LeadsTo h (c :: path) e.2 := by
  intro e he
  have hmem : e.2 ∈ table.values := List.mem_map.mpr ⟨e,he,rfl⟩
  refine ⟨.slot hoccurs hread hmem,?_⟩
  intro d hd b hb
  rw [hb] at hmem
  have hedge : h.Edge c b := ⟨table,hread,hmem⟩
  rcases List.mem_cons.mp hd with rfl | hd
  · exact .single hedge
  · exact (hleads d hd c rfl).tail hedge

/-- A cell that is copied is not among the cells copied meanwhile, as it is on their path. -/
theorem copied_fresh (hr : r < s.registries.size) {path : List CellId} {p p' : Progress}
    {c : CellId} {table : LocalTable} {shared : SharedTable} {handle kept : TableHandle}
    {store store' : Store} (hpath : c ∉ path) (hl : p.captured.lookup c = none)
    (hread : h.read c = .ok table)
    (hentries : EntriesCopied h vs s r (c :: path) p .empty table.entries (.ok shared) p')
    (hcreate : TableHandle.create p'.store r shared = (handle,store))
    (hcopy : handle.copy store = (kept,store')) :
    ValueCopied h vs s r path p (.table c) (.ok (.shared handle))
      ⟨store',(c,kept) :: p'.captured⟩ := by
  intro hoccurs hleads made hc
  obtain ⟨shared',new,hok,hgrows,hmirror⟩ :=
    hentries (slots_lead hoccurs hleads hread) table.nodup made [] hc .nil
  cases hok
  obtain ⟨hcopies,hoff⟩ := hgrows
  have hr' : r < p'.store.registries.size := by rwa [hcopies.later.size_eq]
  obtain ⟨number,number',id,rfl,rfl,hfiles⟩ :=
    TableHandle.filed_of_create hr' hcopies.sound hcreate hcopy
  have hnot : ∀ m ∈ new ++ made, m.cell ≠ c := by
    intro m hm
    rcases List.mem_append.mp hm with hm | hm
    · exact fun hcell => hoff m hm (hcell ▸ List.mem_cons_self)
    · rw [hc.captured] at hl
      exact not_made hl m hm
  refine ⟨_,⟨c,_,shared⟩ :: new,rfl,⟨hcopies.file hoccurs hread hnot hmirror hfiles rfl,?_⟩,?_⟩
  · refine List.forall_mem_cons.mpr ⟨hpath,fun m hm hmem => ?_⟩
    exact hoff m hm (List.mem_cons_of_mem c hmem)
  · exact .table number ⟨_,List.mem_cons_self,rfl,rfl⟩

/-- The next value of a table joins those stored, under a key that none of them has. -/
theorem copied_next {path : List CellId} {p p' p'' : Progress} {done : SharedTable} {key : Key}
    {v : Value} {rest : List (Key × Value)} {object : Stored}
    {outcome : Except Refusal SharedTable}
    (hvalue : ValueCopied h vs s r path p v (.ok object) p')
    (hrest : EntriesCopied h vs s r path p' (done.insert key object) rest outcome p'') :
    EntriesCopied h vs s r path p done ((key,v) :: rest) outcome p'' := by
  intro hes hnodup made before hc hbefore
  obtain ⟨⟨hoccurs,hleads⟩,hes⟩ := List.forall_mem_cons.mp hes
  obtain ⟨object',new,hok,hgrows,hmirror⟩ := hvalue hoccurs hleads made hc
  cases hok
  have hfresh : key ∉ done.keys := by
    intro hk
    exact (List.nodup_append.mp hnodup).2.2 key hk key (by simp) rfl
  have hkeys : (done.insert key object).keys = done.keys ++ [key] :=
    OrderedMap.keys_insert_of_not_mem object hfresh
  have hnodup' : ((done.insert key object).keys ++ rest.map Prod.fst).Nodup := by
    rw [hkeys, List.append_assoc]
    exact hnodup
  have hentries : (done.insert key object).entries = done.entries ++ [(key,object)] := by
    have hk : key ∉ done.entries.map Prod.fst := hfresh
    simp only [OrderedMap.insert, dif_neg hk]
  have hbefore' : MirrorsAll r (names (new ++ made)) (before ++ [(key,v)])
      (done.insert key object).entries := by
    rw [hentries]
    exact List.rel_append (hbefore.mono fun _ _ hn => names_append new hn) (.cons ⟨rfl,hmirror⟩ .nil)
  obtain ⟨shared,new',rfl,hgrows',hall⟩ := hrest hes hnodup' (new ++ made) _ hgrows.copies hbefore'
  refine ⟨shared,new' ++ new,rfl,hgrows.trans hgrows',?_⟩
  simpa using hall

/-- Storing copies whatever a graph that can be stored leads to. -/
theorem copied_store (hv : h.Storable vs s r) (hr : r < s.registries.size) :
    (∀ path p v, ValueCopied h vs s r path p v (storeValue h r path p v).1 (storeValue h r path p v).2) ∧
      ∀ path p done es, EntriesCopied h vs s r path p done es (storeEntries h r path p done es).1
        (storeEntries h r path p done es).2 := by
  apply @capture_induction h r (ValueCopied h vs s r) (EntriesCopied h vs s r)
  case scalar =>
    intro path p v object hobject _ _ made hc
    exact ⟨object,[],rfl,hc.grows path,.scalar hobject⟩
  case attached =>
    intro path p id handle store ha
    have hcopied := copied_attached hv path p id
    rwa [ha] at hcopied
  case broken =>
    intro path p id fault store ha
    have hcopied := copied_attached hv path p id
    rwa [ha] at hcopied
  case cyclic =>
    intro path p c hpath hoccurs hleads
    exact absurd (hleads c hpath c rfl) (hv.acyclic c hoccurs)
  case again => exact fun path p c handle _ hl => copied_again path hl
  case unreadable =>
    intro path p c fault _ _ hread hoccurs
    obtain ⟨table,htable⟩ := hv.readable c hoccurs
    rw [hread] at htable
    cases htable
  case refused =>
    intro path p c table refusal p' _ _ hread _ hentries hoccurs hleads made hc
    obtain ⟨shared,new,hok,_⟩ := hentries (slots_lead hoccurs hleads hread) table.nodup made [] hc .nil
    cases hok
  case copied =>
    intro path p c table shared p' handle store kept store' hpath hl hread _ hentries hcreate hcopy
    exact copied_fresh hr hpath hl hread hentries hcreate hcopy
  case complete =>
    intro path p done _ _ made before hc hbefore
    refine ⟨done,[],rfl,hc.grows path,?_⟩
    rwa [List.append_nil]
  case next => exact fun path p done key v rest object p' outcome p'' _ => copied_next
  case stuck =>
    intro path p done key v rest refusal p' _ hvalue hes _ made before hc _
    obtain ⟨⟨hoccurs,hleads⟩,_⟩ := List.forall_mem_cons.mp hes
    obtain ⟨object,new,hok,_⟩ := hvalue hoccurs hleads made hc
    cases hok

/-- Storing further values of the graph one after the other, from an empty path. -/
theorem copied_storeAll (hv : h.Storable vs s r) (hr : r < s.registries.size) (rest : List Value)
    (hrest : ∀ v ∈ rest, h.Occurs vs v) {c : Capture} (hcr : c.registry = r) (hpath : c.path = [])
    (hc : Copies h vs s r ⟨t,c.captured⟩ made) :
    ∃ objects c' t' new, c.storeAll t h rest = (.ok objects,c',t') ∧
      Copies h vs s r ⟨t',c'.captured⟩ (new ++ made) ∧
      List.Forall₂ (Mirrors r (names (new ++ made))) rest objects := by
  induction rest generalizing c t made with
  | nil => exact ⟨[],c,t,[],rfl,hc,.nil⟩
  | cons v rest ih =>
    obtain ⟨hoccurs,hrest⟩ := List.forall_mem_cons.mp hrest
    have hleads : LeadsTo h [] v := nofun
    obtain ⟨object,new,hok,⟨hcopies,_⟩,hmirror⟩ :=
      (copied_store hv hr).1 [] ⟨t,c.captured⟩ v hoccurs hleads made hc
    rcases hvalue : storeValue h r [] ⟨t,c.captured⟩ v with ⟨o,p⟩
    rw [hvalue] at hok hcopies
    cases hok
    have hstore : c.store t h v = (.ok object,{ c with captured := p.captured },p.store) := by
      unfold store
      rw [hcr, hpath, hvalue]
    obtain ⟨objects,c',t',new',hall,hcopies',hmirrors⟩ :=
      ih (c := { c with captured := p.captured }) hrest hcr hpath hcopies
    refine ⟨object :: objects,c',t',new' ++ new,?_,?_,?_⟩
    · simp only [storeAll, hstore, hall]
    · rwa [List.append_assoc]
    · rw [List.append_assoc]
      exact .cons (hmirror.mono fun _ _ hn => names_append new' hn) hmirrors

end Capture

end Workers
