import Workers.Proofs.Ledger.Capture
/-! # What handles leave alone

Taking a handle on a live entry, or dropping one that is not the last, touches holders only: the
same entries are live afterwards and every table is what it was.  Filing a table adds one entry.
-/
namespace Workers

namespace Store

open TableHandle (shares)

structure Keeps (s t : Store) : Prop where
  later : s.Later t
  sound : (∀ q, (s.arena q).Sound) → ∀ q, (t.arena q).Sound
  table : ∀ q id, t.table q id = s.table q id
  live : ∀ q, t.liveEntries q = s.liveEntries q
  filed : t.filed = s.filed

structure Files (s : Store) (r : RegistryId) (id : EntryId) (g : Guarded SharedTable) (t : Store) :
    Prop where
  later : s.Later t
  sound : (∀ q, (s.arena q).Sound) → ∀ q, (t.arena q).Sound
  fresh : s.isAlive r id = false
  table : ∀ q j, t.table q j = if q = r ∧ j = id then .ok g else s.table q j
  live : ∀ q, t.liveEntries q = s.liveEntries q + if q = r then 1 else 0
  filed : t.filed = s.filed + tableShares g

variable {s t u : Store} {r : RegistryId} {id : EntryId} {holder : Holder} {out : Multiset Share}

theorem Keeps.refl (s : Store) : s.Keeps s := ⟨.refl s,fun h => h,fun _ _ => rfl,fun _ => rfl,rfl⟩

theorem Keeps.trans (h : s.Keeps t) (h' : t.Keeps u) : s.Keeps u where
  later := h.later.trans h'.later
  sound hs := h'.sound (h.sound hs)
  table q id := (h'.table q id).trans (h.table q id)
  live q := (h'.live q).trans (h.live q)
  filed := h'.filed.trans h.filed

theorem isAlive_iff_table : s.isAlive r id = true ↔ ∃ g, s.table r id = .ok g := by
  unfold isAlive Arena.isAlive table
  cases (s.arena r).find? id with
  | none => simp
  | some e => simp

theorem exists_entry {g : Guarded SharedTable} (h : s.table r id = .ok g) :
    ∃ e, (s.arena r).find? id = some e ∧ e.content = g := by
  unfold table at h
  cases he : (s.arena r).find? id with
  | none =>
    rw [he] at h
    cases h
  | some e =>
    rw [he] at h
    exact ⟨e,rfl,Except.ok.inj h⟩

theorem Keeps.isAlive (h : s.Keeps t) (q : RegistryId) (j : EntryId) :
    t.isAlive q j = s.isAlive q j := by
  rw [Bool.eq_iff_iff, isAlive_iff_table, isAlive_iff_table, h.table]

theorem table_congr {q : RegistryId} {j : EntryId}
    (h : ((t.arena q).find? j).map Entry.content = ((s.arena q).find? j).map Entry.content) :
    t.table q j = s.table q j := by
  unfold table
  cases ht : (t.arena q).find? j <;> cases hs : (s.arena q).find? j <;> simp_all

/-- An arena in which only holders have changed. -/
theorem keeps_setArena {a : Arena (Guarded SharedTable)} (hsound : (s.arena r).Sound → a.Sound)
    (hfind : ∀ j, (a.find? j).map Entry.content = ((s.arena r).find? j).map Entry.content)
    (hlive : a.live = (s.arena r).live) (htotal : a.total tableShares = (s.arena r).total tableShares) :
    s.Keeps (s.setArena r a) := by
  by_cases hr : r < s.registries.size
  · refine ⟨later_setArena s r a,fun hs => sound_setArena hs (hsound (hs r)),
      fun q j => table_congr ?_,fun q => ?_,?_⟩
    · rw [arena_setArena]
      split
      · rename_i hq
        rw [hq.1]
        exact hfind j
      · rfl
    · unfold liveEntries
      rw [arena_setArena]
      split
      · rename_i hq
        rw [hq.1]
        exact hlive
      · rfl
    · have hfiled := filed_setArena hr a
      rw [htotal] at hfiled
      exact add_right_cancel hfiled
  · have hsame : s.setArena r a = s := setRegistry_of_not_lt hr _
    rw [hsame]
    exact .refl s

theorem keeps_nextNumber (s : Store) (r : RegistryId) : s.Keeps (s.nextNumber r).2 where
  later := later_nextNumber s r
  sound hs q := by
    rw [arena_nextNumber]
    exact hs q
  table q j := by simp [table]
  live q := by simp [liveEntries]
  filed := filed_nextNumber s r

theorem find?_content_setEntry {a : Arena (Guarded SharedTable)} {e : Entry (Guarded SharedTable)}
    (he : a.find? id = some e) (holders : List Holder) (j : EntryId) :
    ((a.setEntry id.index (some { e with holders })).find? j).map Entry.content =
    (a.find? j).map Entry.content := by
  rw [Arena.find?_setEntry_live he]
  by_cases hj : j = id
  · rw [if_pos hj, hj, he]
    rfl
  · rw [if_neg hj]

theorem keeps_addReference (h : s.addReference r id holder = .ok t) : s.Keeps t := by
  obtain ⟨a,ha,rfl⟩ := addReference_cases h
  have htotal := Arena.total_addReference tableShares ha
  apply keeps_setArena (fun hs => hs.addReference ha) ?_ ?_ htotal
  · intro j
    obtain ⟨e,he,⟨_,rfl⟩ | ⟨_,rfl⟩⟩ := Arena.addReference_eq_ok ha
    · rfl
    · exact find?_content_setEntry he _ j
  · obtain ⟨e,he,⟨_,rfl⟩ | ⟨_,rfl⟩⟩ := Arena.addReference_eq_ok ha <;> rfl

/-- A live entry takes any holder. -/
theorem addReference_of_alive (h : s.isAlive r id = true) (holder : Holder) :
    ∃ t, s.addReference r id holder = .ok t := by
  unfold addReference
  cases ha : (s.arena r).addReference id holder with
  | ok a => exact ⟨_,rfl⟩
  | error fault =>
    obtain ⟨_,hnone⟩ := Arena.addReference_eq_error ha
    unfold isAlive Arena.isAlive at h
    rw [hnone] at h
    cases h

/-- A new entry is filed beside the others. -/
theorem files_create (hr : r < s.registries.size) (hs : ∀ q, (s.arena q).Sound) (table : SharedTable)
    (holder : Holder) :
    s.Files r (s.create r table holder).1 { content := table } (s.create r table holder).2 := by
  have ha := hs r
  rw [create_fst, create_snd]
  refine ⟨later_setArena s r _,fun hs => sound_setArena hs (ha.create _ _),?_,fun q j => ?_,
    fun q => ?_,?_⟩
  · unfold isAlive Arena.isAlive
    rw [Arena.find?_create_before _ holder ha]
    rfl
  · by_cases hq : q = r
    · subst hq
      unfold Store.table
      rw [arena_setArena, if_pos ⟨rfl,hr⟩, Arena.find?_create _ holder ha]
      by_cases hj : j = ((s.arena q).create ⟨table,false⟩ holder).1
      · simp only [hj, and_self, if_true]
      · simp only [hj, and_false, if_false]
    · have hnot : ¬ (q = r ∧ r < s.registries.size) := fun h => hq h.1
      have hnot' : ¬ (q = r ∧ j = ((s.arena r).create ⟨table,false⟩ holder).1) := fun h => hq h.1
      rw [if_neg hnot']
      unfold Store.table
      rw [arena_setArena, if_neg hnot]
  · unfold liveEntries
    rw [arena_setArena]
    by_cases hq : q = r
    · subst hq
      rw [if_pos ⟨rfl,hr⟩, if_pos rfl]
      unfold Arena.create
      split <;> rfl
    · rw [if_neg (fun h => hq h.1), if_neg hq, add_zero]
  · have hfiled := filed_setArena hr ((s.arena r).create ⟨table,false⟩ holder).2
    rw [Arena.total_create _ holder _ ha, ← add_assoc, add_right_comm] at hfiled
    exact add_right_cancel hfiled

theorem Files.trans (h : s.Keeps t) {g : Guarded SharedTable} (h' : t.Files r id g u) :
    s.Files r id g u where
  later := h.later.trans h'.later
  sound hs := h'.sound (h.sound hs)
  fresh := by rw [← h.isAlive]; exact h'.fresh
  table q j := by rw [h'.table, h.table]
  live q := by rw [h'.live, h.live]
  filed := by rw [h'.filed, h.filed]

theorem Files.keeps {g : Guarded SharedTable} (h : s.Files r id g t) (h' : t.Keeps u) :
    s.Files r id g u where
  later := h.later.trans h'.later
  sound hs := h'.sound (h.sound hs)
  fresh := h.fresh
  table q j := by rw [h'.table, h.table]
  live q := by rw [h'.live, h.live]
  filed := by rw [h'.filed, h.filed]

/-- A holder goes without a trace in the tables as long as there is another one. -/
theorem keeps_detach_of_holds {k : Holder} (hk : s.Holds ⟨r,id,k⟩) (hne : k ≠ holder) :
    (s.detach r id holder).1 = none ∧ s.Keeps (s.detach r id holder).2 := by
  have hr : r < s.registries.size := lt_of_holds hk
  obtain ⟨e,he,hk⟩ := hk
  unfold Store.detach
  rw [if_pos hr]
  by_cases hm : holder ∈ e.holders
  · have hrest : e.holders.erase holder ≠ [] := List.ne_nil_of_mem ((List.mem_erase_of_ne hne).mpr hk)
    rcases Arena.detach_of_holds he hm with ⟨hone,_⟩ | ⟨_,hd⟩
    · rw [hone] at hrest
      simp at hrest
    · rw [hd]
      refine ⟨rfl,keeps_setArena (fun hs => ?_) (find?_content_setEntry he _) rfl ?_⟩
      · exact hs.setEntry he ((hs.holders_nodup id e he).erase holder) hrest
      · exact add_right_cancel (Arena.total_setEntry_live tableShares he _)
  · rw [Arena.detach_of_not_holds fun h => hm ((Arena.holds_iff he holder).mp h)]
    exact ⟨rfl,keeps_setArena (fun hs => hs) (fun _ => rfl) rfl rfl⟩

/-- A holder that is not the last is removed without a trace in the tables. -/
theorem keeps_detach (h : s.Balanced ({⟨r,id,holder⟩} + out)) {y : Share} (hy : y ∈ s.filed + out)
    (hyr : y.registry = r) (hyid : y.entry = id) :
    (s.detach r id holder).1 = none ∧ s.Keeps (s.detach r id holder).2 := by
  subst hyr
  subst hyid
  have hnodup := h.nodup
  rw [add_left_comm, Multiset.singleton_add, Multiset.nodup_cons] at hnodup
  have hne : y.holder ≠ holder := by
    rintro rfl
    exact hnodup.1 hy
  refine keeps_detach_of_holds ((h.exact y).mpr ?_) hne
  rw [add_left_comm]
  exact Multiset.mem_add.mpr (.inr hy)

/-- Handles whose entries have other holders are dropped without a trace in the tables. -/
theorem keeps_settle {hs : List TableHandle} (h : s.Balanced (shares hs + out))
    (hothers : ∀ handle ∈ hs, handle.strong = true →
      ∃ y ∈ s.filed + out, y.registry = handle.registry ∧ y.entry = handle.entry) :
    s.Keeps (s.settle hs) := by
  induction hs generalizing s with
  | nil =>
    rw [settle_nil]
    exact .refl s
  | cons handle rest ih =>
    by_cases hstrong : handle.strong = true
    · rw [TableHandle.shares_cons, TableHandle.share_of_strong hstrong, add_assoc] at h
      obtain ⟨y,hy,hyr,hyid⟩ := hothers handle List.mem_cons_self hstrong
      have hy' : y ∈ s.filed + (shares rest + out) := by
        rw [add_left_comm]
        exact Multiset.mem_add.mpr (.inr hy)
      obtain ⟨hnone,hkeeps⟩ := keeps_detach h hy' hyr hyid
      have hnext := h.detach
      rw [settle_cons_strong s hstrong, hnone, Option.elim_none, List.nil_append]
      rw [hnone, Option.elim_none, zero_add] at hnext
      refine hkeeps.trans (ih hnext fun other hmem => ?_)
      rw [hkeeps.filed]
      exact hothers other (List.mem_cons_of_mem handle hmem)
    · rw [settle_cons_weak s hstrong]
      rw [TableHandle.shares_cons, TableHandle.share_of_weak hstrong, zero_add] at h
      exact ih h fun other hmem => hothers other (List.mem_cons_of_mem handle hmem)

end Store

namespace TableHandle

open Store (Keeps Files)

variable {s : Store} {r : RegistryId}

theorem attach_of_alive {id : EntryId} (h : s.isAlive r id = true) :
    ∃ number t, attach s r id = (.ok { entry := id, number, registry := r, strong := true },t) ∧
    s.Keeps t := by
  have hn := Store.keeps_nextNumber s r
  rw [← hn.isAlive] at h
  obtain ⟨t,ht⟩ := Store.addReference_of_alive h (.store (s.nextNumber r).1)
  refine ⟨(s.nextNumber r).1,t,?_,hn.trans (Store.keeps_addReference ht)⟩
  simp only [attach, ht]

theorem copy_of_alive {handle : TableHandle} (h : s.isAlive handle.registry handle.entry = true) :
    ∃ number t, handle.copy s = ({ handle with number, strong := true },t) ∧ s.Keeps t := by
  have hn := Store.keeps_nextNumber s handle.registry
  rw [← hn.isAlive] at h
  obtain ⟨t,ht⟩ := Store.addReference_of_alive h (.store (s.nextNumber handle.registry).1)
  refine ⟨(s.nextNumber handle.registry).1,t,?_,hn.trans (Store.keeps_addReference ht)⟩
  simp only [copy, ht]

theorem create_files (hr : r < s.registries.size) (hs : ∀ q, (s.arena q).Sound) (table : SharedTable) :
    ∃ number id t, create s r table = ({ entry := id, number, registry := r, strong := true },t) ∧
      s.Files r id { content := table } t := by
  have hn := Store.keeps_nextNumber s r
  have hr' : r < (s.nextNumber r).2.registries.size := by rwa [hn.later.size_eq]
  exact ⟨_,_,_,rfl,.trans hn (Store.files_create hr' (hn.sound hs) table _)⟩

/-- A table is filed under a handle, and a copy of that handle is kept. -/
theorem filed_of_create {table : SharedTable} {handle kept : TableHandle} {t u : Store}
    (hr : r < s.registries.size) (hs : ∀ q, (s.arena q).Sound)
    (hcreate : create s r table = (handle,t)) (hcopy : handle.copy t = (kept,u)) :
    ∃ number number' id, handle = { entry := id, number, registry := r, strong := true } ∧
      kept = { entry := id, number := number', registry := r, strong := true } ∧
      s.Files r id { content := table } u := by
  obtain ⟨number,id,t',hnew,hfiles⟩ := create_files hr hs table
  rw [hcreate] at hnew
  cases hnew
  have halive : t.isAlive r id = true := by
    refine Store.isAlive_iff_table.mpr ⟨{ content := table },?_⟩
    rw [hfiles.table, if_pos ⟨rfl,rfl⟩]
  obtain ⟨number',u',hcopied,hkeeps⟩ :=
    @copy_of_alive t { entry := id, number, registry := r, strong := true } halive
  rw [hcopy] at hcopied
  cases hcopied
  exact ⟨number,number',id,rfl,rfl,hfiles.keeps hkeeps⟩

end TableHandle

end Workers
