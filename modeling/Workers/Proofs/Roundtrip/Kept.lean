import Workers.Proofs.Ledger.Reachability
/-! # What entries lead to

While an entry has a holder, it and all that strong handles lead to from it stay alive.  So a
release, which only takes tables away, takes none of those away as long as nobody writes to the
tables on the way.
-/
namespace Workers

namespace Store

def OnlyRemoves (s t : Store) : Prop := ∀ r id g, t.table r id = .ok g → s.table r id = .ok g

def Rooted (s : Store) (X Y : Set Address) : Prop :=
  ∀ y ∈ Y, ∃ x ∈ X, x ∈ Y ∧ Relation.ReflTransGen (fun a b => s.Points a b ∧ b ∈ Y) x y

def Preserves (s : Store) (Y : Set Address) (t : Store) : Prop :=
  ∀ y ∈ Y, t.table y.registry y.entry = s.table y.registry y.entry

variable {s t u : Store} {X Y : Set Address} {x y : Address}

theorem OnlyRemoves.refl (s : Store) : s.OnlyRemoves s := fun _ _ _ h => h

theorem OnlyRemoves.trans (h : s.OnlyRemoves t) (h' : t.OnlyRemoves u) : s.OnlyRemoves u :=
  fun r id g hg => h r id g (h' r id g hg)

theorem Keeps.onlyRemoves (h : s.Keeps t) : s.OnlyRemoves t := fun r id g hg => by rwa [h.table] at hg

theorem table_of_find? {r : RegistryId} {id : EntryId} {e : Entry (Guarded SharedTable)}
    (he : (s.arena r).find? id = some e) : s.table r id = .ok e.content := by
  rw [Store.table, he]

theorem find?_of_table {r : RegistryId} {id : EntryId} {g : Guarded SharedTable}
    (hg : s.table r id = .ok g) :
    ∃ e, (s.arena r).find? id = some e ∧ e.content = g := by
  unfold Store.table at hg
  split at hg
  · rename_i e he
    cases hg
    exact ⟨e,he,rfl⟩
  · cases hg

/-- A release leaves every table that it does not free, under the lock that it has. -/
theorem onlyRemoves_detach (s : Store) (r : RegistryId) (id : EntryId) (holder : Holder) :
    s.OnlyRemoves (s.detach r id holder).2 := by
  unfold detach
  split
  · intro q j g hg
    obtain ⟨e,he,rfl⟩ := find?_of_table hg
    rw [arena_setArena] at he
    split at he
    · rename_i hq
      rw [hq.1]
      by_cases hh : (s.arena r).Holds id holder
      · obtain ⟨e',he',hm⟩ := hh
        rcases Arena.detach_of_holds he' hm with ⟨_,hd⟩ | ⟨_,hd⟩
        · rw [hd, Arena.find?_vacate_live he'] at he
          split at he
          · cases he
          · exact table_of_find? he
        · rw [hd, Arena.find?_setEntry_live he'] at he
          split at he
          · rename_i hj
            have hlocked : s.table r id = .ok e'.content := table_of_find? he'
            cases he
            rw [hj]
            exact hlocked
          · exact table_of_find? he
      · rw [Arena.detach_of_not_holds hh] at he
        exact table_of_find? he
    · exact table_of_find? he
  · exact .refl s

theorem onlyRemoves_settle (s : Store) (hs : List TableHandle) : s.OnlyRemoves (s.settle hs) :=
  settle_induction (motive := fun t _ => s.OnlyRemoves t) (.refl s)
    (fun _ _ _ _ h => h.trans (onlyRemoves_detach _ _ _ _))
    (fun _ _ _ _ h => h)

theorem onlyRemoves_detachAll (s : Store) (r : RegistryId) (holder : Holder) (ids : List EntryId) :
    s.OnlyRemoves (s.detachAll r holder ids).2 := by
  induction ids generalizing s with
  | nil => exact .refl s
  | cons id rest ih => exact (onlyRemoves_detach s r id holder).trans (ih _)

theorem onlyRemoves_releaseAll (s : Store) (r : RegistryId) (holder : Holder) (ids : List EntryId) :
    s.OnlyRemoves (s.releaseAll r holder ids) :=
  (onlyRemoves_detachAll s r holder ids).trans (onlyRemoves_settle _ _)

theorem Points.congr (hp : s.Points x y) (ht : t.table x.registry x.entry = s.table x.registry x.entry) :
    t.Points x y := by
  obtain ⟨table,hc,hmem⟩ := hp
  exact ⟨table,by rwa [content?_eq_of_table ht],hmem⟩

theorem Preserves.refl (s : Store) (Y : Set Address) : s.Preserves Y s := fun _ _ => rfl

theorem Preserves.trans (h : s.Preserves Y t) (h' : t.Preserves Y u) : s.Preserves Y u :=
  fun y hy => (h' y hy).trans (h y hy)

theorem mem_of_path (hx : x ∈ Y)
    (hpath : Relation.ReflTransGen (fun a b => s.Points a b ∧ b ∈ Y) x y) : y ∈ Y := by
  cases hpath with
  | refl => exact hx
  | tail _ hp => exact hp.2

theorem Rooted.induct (hrooted : s.Rooted X Y) {motive : Address → Prop} (root : ∀ x ∈ X, motive x)
    (step : ∀ x y, x ∈ Y → s.Points x y → motive x → motive y) : ∀ y ∈ Y, motive y := by
  intro y hy
  obtain ⟨x,hx,hmem,hpath⟩ := hrooted y hy
  clear hy
  induction hpath with
  | refl => exact root x hx
  | tail hpath hp ih => exact step _ _ (mem_of_path hmem hpath) hp.1 ih

theorem Rooted.preserves (hrooted : s.Rooted X Y) (h : s.Preserves Y t) : t.Rooted X Y := by
  intro y hy
  obtain ⟨x,hx,hmem,hpath⟩ := hrooted y hy
  refine ⟨x,hx,hmem,?_⟩
  clear hy
  induction hpath with
  | refl => exact .refl
  | tail hpath hp ih => exact ih.tail ⟨hp.1.congr (h _ (mem_of_path hmem hpath)),hp.2⟩

theorem Keeps.preserves (h : s.Keeps t) (Y : Set Address) : s.Preserves Y t := fun _ _ => h.table _ _

end Store

namespace World

variable {w w' : World} {out : Multiset Share} {h : WorkerId} {x y : Address}

theorem Accounted.live_of_share (hw : w.Accounted out) {z : Share}
    (hz : z ∈ w.store.filed + (w.shares + out)) :
    w.store.isAlive z.registry z.entry = true := by
  obtain ⟨entry,hentry,_⟩ := (hw.balanced.exact z).mpr hz
  simp [Store.isAlive, Arena.isAlive, hentry]

theorem Accounted.live_of_points (hw : w.Accounted out) (hp : w.store.Points x y) : w.store.Live y := by
  obtain ⟨table,hc,handle,hmem,hstrong,hr,hid⟩ := hp
  have hshare : (⟨handle.registry,handle.entry,handle.holder⟩ : Share) ∈ w.store.filed :=
    Store.mem_filed.mpr (TableHandle.mem_shares.mpr
      ⟨handle,GlobalState.mem_tableHandles hc hmem,hstrong,rfl⟩)
  have halive := hw.live_of_share (Multiset.mem_add.mpr (.inl hshare))
  rwa [hr, hid] at halive

theorem Accounted.live_of_out (hw : w.Accounted out) {z : Share} (hz : z ∈ out) :
    w.store.isAlive z.registry z.entry = true :=
  hw.live_of_share (Multiset.mem_add.mpr (.inr (Multiset.mem_add.mpr (.inr hz))))

/-- A worker keeps the entries alive that it refers to. -/
theorem Accounted.live_of_reference (hw : w.Accounted out) (hh : h < w.handles.size) {id : EntryId}
    (hid : id ∈ (w.handle h).references) : w.store.isAlive (w.handle h).registry id = true := by
  have hmem : w.handle h ∈ w.handles.toList := by
    rw [Array.mem_toList_iff]
    exact Array.mem_of_getElem? (handle_eq hh)
  have hshare : (⟨(w.handle h).registry,id,(w.handle h).holder⟩ : Share) ∈ (w.handle h).shares :=
    Multiset.mem_add.mpr (.inl (mem_checkedOut.mpr ⟨rfl,rfl,hid⟩))
  have hshares : (⟨(w.handle h).registry,id,(w.handle h).holder⟩ : Share) ∈ w.shares :=
    Multiset.mem_add.mpr (.inr (mem_sum_map.mpr ⟨_,hmem,hshare⟩))
  exact hw.live_of_share (Multiset.mem_add.mpr (.inr (Multiset.mem_add.mpr (.inl hshares))))

/-- As long as some entries are alive, taking tables away takes none of those that they lead to. -/
theorem Accounted.preserves {s : Store} {X Y : Set Address} (hw : w.Accounted out)
    (hrooted : s.Rooted X Y) (hremoves : s.OnlyRemoves w.store) (hlive : ∀ x ∈ X, w.store.Live x) :
    s.Preserves Y w.store := by
  have hsame : ∀ {y}, w.store.Live y → w.store.table y.registry y.entry =
      s.table y.registry y.entry := by
    intro y hy
    obtain ⟨g,hg⟩ := Store.isAlive_iff_table.mp hy
    rw [hg, hremoves _ _ g hg]
  have hall : ∀ y ∈ Y, w.store.Live y := by
    refine hrooted.induct hlive fun x y _ hp hx => ?_
    exact hw.live_of_points (hp.congr (hsame hx))
  exact fun y hy => hsame (hall y hy)

end World

end Workers
