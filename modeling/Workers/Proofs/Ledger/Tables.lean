import Workers.Proofs.Capture.Induction
import Workers.Proofs.Capture.Keeps
import Workers.Proofs.Ledger.Owners
/-! # What operations leave in tables

An operation may file new tables and may free some, but it does the one before the other, and only
an assignment writes into a table that is there already.  So an entry that is live before and after
has the table it had.
-/
namespace Workers

namespace Store

def content? (s : Store) (r : RegistryId) (id : EntryId) : Option SharedTable :=
  ((s.arena r).find? id).map fun e => e.content.content

def Grows (s t : Store) : Prop :=
  (∀ q, (s.arena q).Sound) → (∀ q, (t.arena q).Sound) ∧
    ∀ r id table, s.content? r id = some table → t.content? r id = some table

def Shrinks (s t : Store) : Prop :=
  ∀ r id table, t.content? r id = some table → s.content? r id = some table

def Retains (s t : Store) : Prop := ∃ u, s.Grows u ∧ u.Shrinks t

variable {s t u : Store} {r : RegistryId} {id : EntryId} {holder : Holder}

theorem isAlive_iff_content? : s.isAlive r id = true ↔ ∃ table, s.content? r id = some table := by
  unfold isAlive Arena.isAlive content?
  cases (s.arena r).find? id <;> simp

theorem Grows.refl (s : Store) : s.Grows s := fun hs => ⟨hs,fun _ _ _ h => h⟩

theorem Grows.trans (h : s.Grows t) (h' : t.Grows u) : s.Grows u := by
  intro hs
  obtain ⟨ht,hst⟩ := h hs
  obtain ⟨hu,htu⟩ := h' ht
  exact ⟨hu,fun r id table hc => htu r id table (hst r id table hc)⟩

theorem Shrinks.refl (s : Store) : s.Shrinks s := fun _ _ _ h => h

theorem Shrinks.trans (h : s.Shrinks t) (h' : t.Shrinks u) : s.Shrinks u :=
  fun r id table hc => h r id table (h' r id table hc)

theorem Grows.retains (h : s.Grows t) : s.Retains t := ⟨t,h,.refl t⟩

theorem Shrinks.retains (h : s.Shrinks t) : s.Retains t := ⟨s,.refl s,h⟩

theorem Grows.then (h : s.Grows t) (h' : t.Retains u) : s.Retains u := by
  obtain ⟨v,hgrows,hshrinks⟩ := h'
  exact ⟨v,h.trans hgrows,hshrinks⟩

theorem Retains.then (h : s.Retains t) (h' : t.Shrinks u) : s.Retains u := by
  obtain ⟨v,hgrows,hshrinks⟩ := h
  exact ⟨v,hgrows,hshrinks.trans h'⟩

theorem Retains.content?_eq (h : s.Retains t) (hs : ∀ q, (s.arena q).Sound) {table table' : SharedTable}
    (hc : s.content? r id = some table) (hc' : t.content? r id = some table') : table' = table := by
  obtain ⟨u,hgrows,hshrinks⟩ := h
  have hu := (hgrows hs).2 r id table hc
  rw [hshrinks r id table' hc'] at hu
  exact Option.some.inj hu

theorem content?_eq_of_table {q : RegistryId} {j : EntryId} (h : t.table q j = s.table q j) :
    t.content? q j = s.content? q j := by
  unfold Store.table at h
  unfold content?
  cases ht : (t.arena q).find? j <;> cases hs : (s.arena q).find? j <;> simp_all

theorem Keeps.grows (h : s.Keeps t) : s.Grows t :=
  fun hs => ⟨h.sound hs,fun r id table hc => by rwa [content?_eq_of_table (h.table r id)]⟩

theorem Keeps.shrinks (h : s.Keeps t) : s.Shrinks t :=
  fun r id table hc => by rwa [content?_eq_of_table (h.table r id)] at hc

theorem content?_setArena (s : Store) (r q : RegistryId) (a : Arena (Guarded SharedTable))
    (j : EntryId) :
    (s.setArena r a).content? q j =
      if q = r ∧ r < s.registries.size then (a.find? j).map fun e => e.content.content
        else s.content? q j := by
  unfold content?
  rw [arena_setArena]
  split <;> rfl

/-- A release takes away at most the entry released. -/
theorem shrinks_detach (s : Store) (r : RegistryId) (id : EntryId) (holder : Holder) :
    s.Shrinks (s.detach r id holder).2 := by
  unfold detach
  split
  · intro q j table hc
    rw [content?_setArena] at hc
    split at hc
    · rename_i hq
      rw [hq.1]
      unfold content?
      by_cases hh : (s.arena r).Holds id holder
      · obtain ⟨e,he,hm⟩ := hh
        rcases Arena.detach_of_holds he hm with ⟨_,hd⟩ | ⟨_,hd⟩
        · rw [hd, Arena.find?_vacate_live he] at hc
          split at hc
          · cases hc
          · exact hc
        · rw [hd, Arena.find?_setEntry_live he] at hc
          split at hc
          · rename_i hj
            rw [hj, he]
            exact hc
          · exact hc
      · rw [Arena.detach_of_not_holds hh] at hc
        exact hc
    · exact hc
  · exact .refl s

theorem shrinks_settle (s : Store) (hs : List TableHandle) : s.Shrinks (s.settle hs) :=
  settle_induction (motive := fun t _ => s.Shrinks t) (.refl s)
    (fun _ _ _ _ h => h.trans (shrinks_detach _ _ _ _))
    (fun _ _ _ _ h => h)

theorem shrinks_detachAll (s : Store) (r : RegistryId) (holder : Holder) (ids : List EntryId) :
    s.Shrinks (s.detachAll r holder ids).2 := by
  induction ids generalizing s with
  | nil => exact .refl s
  | cons id rest ih => exact (shrinks_detach s r id holder).trans (ih _)

theorem shrinks_releaseAll (s : Store) (r : RegistryId) (holder : Holder) (ids : List EntryId) :
    s.Shrinks (s.releaseAll r holder ids) :=
  (shrinks_detachAll s r holder ids).trans (shrinks_settle _ _)

theorem shrinks_drop (s : Store) (objects : List Stored) : s.Shrinks (s.drop objects) :=
  shrinks_settle _ _

theorem keeps_attach (s : Store) (r : RegistryId) (id : EntryId) :
    s.Keeps (TableHandle.attach s r id).2 := by
  have hn := keeps_nextNumber s r
  unfold TableHandle.attach
  simp only
  split
  · rename_i hadd
    exact hn.trans (keeps_addReference hadd)
  · exact hn

theorem keeps_copy (s : Store) (h : TableHandle) : s.Keeps (h.copy s).2 := by
  have hn := keeps_nextNumber s h.registry
  unfold TableHandle.copy
  simp only
  split
  · rename_i hadd
    exact hn.trans (keeps_addReference hadd)
  · exact hn

theorem keeps_copyStored (s : Store) (object : Stored) : s.Keeps (object.copy s).2 := by
  cases object with
  | shared h => exact keeps_copy s h
  | nil | boolean | integer | float | string | function => exact .refl s

theorem keeps_copyAll (s : Store) (objects : List Stored) : s.Keeps (Stored.copyAll s objects).2 := by
  induction objects generalizing s with
  | nil => exact .refl s
  | cons object rest ih => exact (keeps_copyStored s object).trans (ih _)

theorem shrinks_weaken (s : Store) (object : Stored) : s.Shrinks (object.weaken s).2 := by
  cases object with
  | shared h => exact shrinks_settle s [h]
  | nil | boolean | integer | float | string | function => exact .refl s

/-- A new table is filed in a slot that was empty. -/
theorem grows_create (s : Store) (r : RegistryId) (table : SharedTable) (holder : Holder) :
    s.Grows (s.create r table holder).2 := by
  by_cases hr : r < s.registries.size
  · intro hs
    have hfiles := files_create hr hs table holder
    refine ⟨hfiles.sound hs,fun q j old hc => ?_⟩
    have hne : ¬ (q = r ∧ j = (s.create r table holder).1) := by
      rintro ⟨rfl,rfl⟩
      have halive := isAlive_iff_content?.mpr ⟨old,hc⟩
      rw [hfiles.fresh] at halive
      cases halive
    have hsame := hfiles.table q j
    rw [if_neg hne] at hsame
    rwa [content?_eq_of_table hsame]
  · have hsame : (s.create r table holder).2 = s := setRegistry_of_not_lt hr _
    rw [hsame]
    exact .refl s

theorem grows_createHandle (s : Store) (r : RegistryId) (table : SharedTable) :
    s.Grows (TableHandle.create s r table).2 :=
  (keeps_nextNumber s r).grows.trans (grows_create _ r table _)

theorem content?_setTable {e : Entry (Guarded SharedTable)} {g : Guarded SharedTable}
    (he : (s.arena r).find? id = some e) (q : RegistryId) (j : EntryId) :
    (s.setTable r id g).content? q j = if q = r ∧ j = id then some g.content else s.content? q j := by
  have hr : r < s.registries.size := lt_of_find? he
  unfold setTable
  rw [content?_setArena, Arena.setContent_of_find? g he]
  by_cases hq : q = r
  · rw [if_pos ⟨hq,hr⟩, Arena.find?_setEntry_live he]
    by_cases hj : j = id
    · rw [if_pos hj, if_pos ⟨hq,hj⟩]
      rfl
    · rw [if_neg hj, if_neg fun h => hj h.2, hq]
      rfl
  · rw [if_neg fun h => hq h.1, if_neg fun h => hq h.1]

theorem shrinks_poisonTable (h : s.poisonTable r id = .ok t) : s.Shrinks t := by
  unfold poisonTable Store.table at h
  cases he : (s.arena r).find? id with
  | none => rw [he] at h; cases h
  | some e =>
    simp only [he, Except.bind] at h
    cases hborrow : e.content.borrow .sharedBorrowMut with
    | error fault => rw [hborrow] at h; cases h
    | ok _ =>
      rw [hborrow] at h
      cases h
      intro q j table hc
      rw [content?_setTable he] at hc
      split at hc
      · rename_i hq
        rw [hq.1, hq.2]
        unfold content?
        rw [he]
        exact hc
      · exact hc

end Store

namespace Capture

variable {α : Type}

/-- What storing does: it files tables, and only if it fails it gives some back afterwards. -/
def Ends (o : Except Refusal α) (s t : Store) : Prop :=
  match o with
  | .ok _ => s.Grows t
  | .error _ => s.Retains t

theorem ends_store (h : Heap) (r : RegistryId) :
    (∀ path p v, Ends (storeValue h r path p v).1 p.store (storeValue h r path p v).2.store) ∧
    ∀ path p done es, Ends (storeEntries h r path p done es).1 p.store
      (storeEntries h r path p done es).2.store := by
  apply @capture_induction h r (fun _ p _ o p' => Ends o p.store p'.store)
    (fun _ p _ _ o p' => Ends o p.store p'.store)
  case scalar => exact fun _ p _ _ _ => Store.Grows.refl p.store
  case attached =>
    intro _ p id handle store ha
    have hkeeps := Store.keeps_attach p.store r id
    rw [ha] at hkeeps
    exact hkeeps.grows
  case broken =>
    intro _ p id fault store ha
    have hkeeps := Store.keeps_attach p.store r id
    rw [ha] at hkeeps
    exact hkeeps.shrinks.retains
  case cyclic => exact fun _ p _ _ => (Store.Shrinks.refl p.store).retains
  case again => exact fun _ p _ handle _ _ => (Store.keeps_copy p.store handle).grows
  case unreadable => exact fun _ p _ _ _ _ _ => (Store.Shrinks.refl p.store).retains
  case refused => exact fun _ _ _ _ _ _ _ _ _ _ he => he
  case copied =>
    intro _ p _ _ shared p' handle store kept store' _ _ _ _ he hcreate hcopy
    have hfile := Store.grows_createHandle p'.store r shared
    rw [hcreate] at hfile
    have hkeep := Store.keeps_copy store handle
    rw [hcopy] at hkeep
    exact (Store.Grows.trans he hfile).trans hkeep.grows
  case complete => exact fun _ p _ => Store.Grows.refl p.store
  case next =>
    intro _ p _ _ _ _ _ p' outcome p'' _ hv he
    cases outcome with
    | ok shared => exact Store.Grows.trans hv he
    | error refusal => exact Store.Grows.then hv he
  case stuck => exact fun _ _ _ _ _ _ _ _ _ hv => Store.Retains.then hv (Store.shrinks_settle _ _)

theorem retains_store (c : Capture) (s : Store) (h : Heap) (v : Value) :
    s.Retains (c.store s h v).2.2 := by
  have hends := (ends_store h c.registry).1 c.path ⟨s,c.captured⟩ v
  unfold Capture.store
  split
  all_goals
    rename_i heq
    rw [heq] at hends
  · exact Store.Grows.retains hends
  · exact hends

theorem shrinks_finish (c : Capture) (s : Store) : s.Shrinks (c.finish s) := Store.shrinks_settle _ _

end Capture

theorem Value.retains_store (v : Value) (s : Store) (h : Heap) (r : RegistryId) :
    s.Retains (v.store s h r).2 :=
  (Capture.retains_store { registry := r } s h v).then (Capture.shrinks_finish _ _)

namespace Context

variable {c c' : Context} {s t : Store}

theorem keeps_addReference {id : EntryId} (h : c.addReference s id = .ok (c',t)) : s.Keeps t := by
  unfold addReference at h
  split at h
  · cases h
    exact .refl s
  · cases ha : s.addReference c.registry id c.holder with
    | error fault => rw [ha] at h; cases h
    | ok u =>
      rw [ha] at h
      cases h
      exact Store.keeps_addReference ha

theorem keeps_load {object : Stored} {v : Value} (h : c.load s object = .ok (v,c',t)) : s.Keeps t := by
  cases object with
  | nil | boolean | integer | float | string | function => cases h; exact .refl s
  | shared handle =>
    simp only [load] at h
    cases hcheck : (Stored.shared handle).checkRegistry c.registry with
    | error fault => rw [hcheck] at h; cases h
    | ok _ =>
      rw [hcheck] at h
      cases ha : c.addReference s handle.entry with
      | error fault => simp [Except.bind, ha, Except.map] at h
      | ok p =>
        obtain ⟨d,u⟩ := p
        simp only [Except.bind, ha, Except.map, Except.ok.injEq, Prod.mk.injEq] at h
        obtain ⟨_,rfl,rfl⟩ := h
        exact keeps_addReference ha

theorem shrinks_get (c : Context) (m : Memory) (table key : Value) :
    m.store.Shrinks (c.get m table key).2.2 := by
  unfold get
  split
  · exact .refl _
  · split
    · exact .refl _
    · split
      · exact .refl _
      · split
        · exact .refl _
        · rename_i object _
          have hcopy := (Store.keeps_copyStored m.store object).shrinks
          simp only
          split
          · rename_i hload
            exact (hcopy.trans (keeps_load hload).shrinks).trans (Store.shrinks_drop _ _)
          · exact hcopy.trans (Store.shrinks_drop _ _)
    · exact .refl _

theorem shrinks_destroy (c : Context) (s : Store) : s.Shrinks (c.destroy s).2 := by
  unfold destroy
  split
  · exact .refl s
  · exact Store.shrinks_releaseAll _ _ _ _

theorem retains_captured (c : Context) (m : Memory) (value : Value) :
    m.store.Retains (c.captured m value).2 := by
  unfold captured
  split
  · exact (Store.Shrinks.refl _).retains
  · exact value.retains_store _ _ _

/-- An assignment to a shared table writes under its key, in that table only. -/
theorem content?_editTable {r : RegistryId} {id : EntryId} {key : Key} {object? replaced : Option Stored}
    (h : s.editTable r id (write key object?) = .ok (replaced,t)) :
    ∃ table, s.content? r id = some table ∧ ∀ q j,
      t.content? q j = if q = r ∧ j = id then some (write key object? table).2 else s.content? q j := by
  unfold Store.editTable Store.table at h
  cases he : (s.arena r).find? id with
  | none => rw [he] at h; cases h
  | some e =>
    simp only [he, Except.bind] at h
    cases hborrow : e.content.borrow .sharedBorrowMut with
    | error fault => rw [hborrow] at h; cases h
    | ok old =>
      have hold : e.content.content = old := by
        unfold Guarded.borrow at hborrow
        split at hborrow
        · cases hborrow
        · exact Except.ok.inj hborrow
      rw [hborrow] at h
      simp only [Except.map, Except.ok.injEq, Prod.mk.injEq] at h
      obtain ⟨_,rfl⟩ := h
      refine ⟨old,?_,fun q j => Store.content?_setTable he q j⟩
      rw [← hold]
      simp [Store.content?, he]

end Context

end Workers
