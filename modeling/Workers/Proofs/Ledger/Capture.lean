import Workers.Proofs.Capture.Induction
import Workers.Proofs.Ledger.Handle
/-! # The ledger across a capture

A capture keeps one handle of its own for each table it has copied.  Storing a value adds the
handle handed out and those kept, and nothing else; a failure on the way gives back the handles of
every table that was begun.
-/
namespace Workers

namespace Capture

def Progress.shares (p : Progress) : Multiset Share := TableHandle.shares (p.captured.map Prod.snd)

def shares (c : Capture) : Multiset Share := TableHandle.shares (c.captured.map Prod.snd)

def tableShares (t : SharedTable) : Multiset Share := TableHandle.shares t.handles

/-- From one point of a capture to another the shares in hand change as told, whatever else there
is outside of all tables. -/
structure Balances (r : RegistryId) (before : Multiset Share) (p : Progress) (after : Multiset Share)
    (p' : Progress) : Prop where
  later : p.store.Later p'.store
  balanced : ∀ out, r < p.store.registries.size → p.store.Balanced (before + (p.shares + out)) →
    p'.store.Balanced (after + (p'.shares + out))

variable {h : Heap} {r : RegistryId} {p p' p'' : Progress}

theorem Balances.refl (before : Multiset Share) (p : Progress) : Balances r before p before p :=
  ⟨.refl p.store,fun _ _ hb => hb⟩

theorem Balances.frame {before after : Multiset Share} (h : Balances r before p after p')
    (extra : Multiset Share) : Balances r (extra + before) p (extra + after) p' := by
  refine ⟨h.later,fun out hr hb => ?_⟩
  have hb' : p.store.Balanced (before + (p.shares + (extra + out))) := by
    convert hb using 1
    abel
  convert h.balanced _ hr hb' using 1
  abel

theorem Balances.trans {first second third : Multiset Share} (h : Balances r first p second p')
    (h' : Balances r second p' third p'') : Balances r first p third p'' := by
  refine ⟨h.later.trans h'.later,fun out hr hb => ?_⟩
  refine h'.balanced out ?_ (h.balanced out hr hb)
  rwa [h.later.size_eq]

theorem balances_attach (p : Progress) (id : EntryId) :
    Balances r 0 p (granted TableHandle.share (TableHandle.attach p.store r id).1)
      { p with store := (TableHandle.attach p.store r id).2 } := by
  refine ⟨TableHandle.later_attach p.store r id,fun out _ hb => ?_⟩
  rw [zero_add] at hb
  exact TableHandle.balanced_attach hb id

theorem balances_copy (p : Progress) (handle : TableHandle) :
    Balances r 0 p (handle.copy p.store).1.share { p with store := (handle.copy p.store).2 } := by
  refine ⟨TableHandle.later_copy p.store handle,fun out _ hb => ?_⟩
  rw [zero_add] at hb
  exact TableHandle.balanced_copy hb handle

/-- A finished table is filed under the handle handed out, and a copy of that handle is kept. -/
theorem balances_file {c : CellId} {shared : SharedTable} {handle kept : TableHandle}
    {store store' : Store} (hcreate : TableHandle.create p.store r shared = (handle,store))
    (hcopy : handle.copy store = (kept,store')) :
    Balances r (tableShares shared) p handle.share ⟨store',(c,kept) :: p.captured⟩ := by
  have hc := TableHandle.later_create p.store r shared
  have hk := TableHandle.later_copy store handle
  rw [hcreate] at hc
  rw [hcopy] at hk
  refine ⟨hc.trans hk,fun out hr hb => ?_⟩
  have hb' := TableHandle.balanced_create hr hb
  rw [hcreate] at hb'
  have hb'' := TableHandle.balanced_copy hb' handle
  rw [hcopy] at hb''
  convert hb'' using 1
  simp only [Progress.shares, List.map_cons, TableHandle.shares_cons]
  abel

theorem balances_abandon (p : Progress) (done : SharedTable) :
    Balances r (tableShares done) p 0 { p with store := p.store.settle done.handles } := by
  refine ⟨Store.later_settle _ _,fun out _ hb => ?_⟩
  rw [zero_add]
  exact Store.Balanced.settle hb

theorem tableShares_insert {done : SharedTable} {key : Key} (hk : key ∉ done.keys) (object : Stored) :
    tableShares (done.insert key object) = tableShares done + object.shares := by
  have h := SharedTable.shares_insert done key object
  rwa [OrderedMap.get?_eq_none hk, Option.elim_none, add_zero] at h

/-- Storing keeps the books.  The entries still to come have keys that the table begun has not, as
they are the rest of one table. -/
theorem balances_store (h : Heap) (r : RegistryId) :
    (∀ path p v, Balances r 0 p (granted Stored.shares (storeValue h r path p v).1)
      (storeValue h r path p v).2) ∧
    ∀ path p (done : SharedTable) es, (done.keys ++ es.map Prod.fst).Nodup →
      Balances r (tableShares done) p (granted tableShares (storeEntries h r path p done es).1)
        (storeEntries h r path p done es).2 := by
  apply @capture_induction h r (fun _ p _ o p' => Balances r 0 p (granted Stored.shares o) p')
    (fun _ p done es o p' => (done.keys ++ es.map Prod.fst).Nodup →
      Balances r (tableShares done) p (granted tableShares o) p')
  case scalar =>
    intro _ p v object hs
    have hnone : object.shares = 0 := by
      cases v <;> cases hs <;> rfl
    rw [granted_ok, hnone]
    exact .refl 0 p
  case attached =>
    intro _ p id handle store ha
    have hb := balances_attach (r := r) p id
    rw [granted_ok, Stored.shares_shared]
    rwa [ha, granted_ok] at hb
  case broken =>
    intro _ p id fault store ha
    have hb := balances_attach (r := r) p id
    rwa [ha, granted_error] at hb
  case cyclic => exact fun _ p _ _ => .refl 0 p
  case again =>
    intro _ p _ handle _ _
    rw [granted_ok, Stored.shares_shared]
    exact balances_copy p handle
  case unreadable => exact fun _ p _ _ _ _ _ => .refl 0 p
  case refused => exact fun _ _ _ table _ _ _ _ _ _ he => he table.nodup
  case copied =>
    intro _ p _ table shared p' handle store kept store' _ _ _ _ he hcreate hcopy
    have hdone : Balances r 0 p (tableShares shared) p' := he table.nodup
    rw [granted_ok, Stored.shares_shared]
    exact hdone.trans (balances_file hcreate hcopy)
  case complete => exact fun _ p done _ => .refl (tableShares done) p
  case next =>
    intro _ p done key _ rest object p' outcome p'' _ hv he hn
    have hfresh : key ∉ done.keys := by
      intro hk
      exact (List.nodup_append.mp hn).2.2 key hk key (by simp) rfl
    have hkeys : (done.insert key object).keys = done.keys ++ [key] :=
      OrderedMap.keys_insert_of_not_mem object hfresh
    have hrest : ((done.insert key object).keys ++ rest.map Prod.fst).Nodup := by
      rw [hkeys, List.append_assoc]
      exact hn
    have hnext := he hrest
    rw [tableShares_insert hfresh] at hnext
    have hv' := hv.frame (tableShares done)
    rw [add_zero, granted_ok] at hv'
    exact hv'.trans hnext
  case stuck =>
    intro _ p done _ _ _ _ p' _ hv _
    have hv' := hv.frame (tableShares done)
    rw [add_zero, granted_error, add_zero] at hv'
    exact hv'.trans (balances_abandon p' done)

variable {s : Store} {out : Multiset Share}

theorem later_store (c : Capture) (s : Store) (h : Heap) (v : Value) : s.Later (c.store s h v).2.2 := by
  have hb := ((balances_store h c.registry).1 c.path ⟨s,c.captured⟩ v).later
  unfold store
  split <;> simp_all

theorem balanced_store {c : Capture} (hr : c.registry < s.registries.size)
    (hs : s.Balanced (c.shares + out)) (h : Heap) (v : Value) :
    (c.store s h v).2.2.Balanced (granted Stored.shares (c.store s h v).1 +
      ((c.store s h v).2.1.shares + out)) := by
  have hb := ((balances_store h c.registry).1 c.path ⟨s,c.captured⟩ v).balanced out hr
    (by simpa [Progress.shares, shares] using hs)
  unfold store
  split <;> simp_all [Progress.shares, shares]

theorem registry_store (c : Capture) (s : Store) (h : Heap) (v : Value) :
    (c.store s h v).2.1.registry = c.registry := by
  unfold store
  split <;> rfl

theorem balanced_fresh (hs : s.Balanced out) (r : RegistryId) :
    s.Balanced (({ registry := r } : Capture).shares + out) := by
  have hnone : ({ registry := r } : Capture).shares = 0 := rfl
  rwa [hnone, zero_add]

theorem balanced_finish {c : Capture} (hs : s.Balanced (c.shares + out)) : (c.finish s).Balanced out :=
  Store.Balanced.settle hs

theorem later_finish (c : Capture) (s : Store) : s.Later (c.finish s) := Store.later_settle _ _

end Capture

theorem Value.later_store (v : Value) (s : Store) (h : Heap) (r : RegistryId) :
    s.Later (v.store s h r).2 :=
  (Capture.later_store { registry := r } s h v).trans (Capture.later_finish _ _)

theorem Value.balanced_store {s : Store} {out : Multiset Share} {r : RegistryId}
    (hr : r < s.registries.size) (hs : s.Balanced out) (h : Heap) (v : Value) :
    (v.store s h r).2.Balanced (granted Stored.shares (v.store s h r).1 + out) := by
  have hb := Capture.balanced_store hr (Capture.balanced_fresh hs r) h v
  refine Capture.balanced_finish ?_
  rw [add_left_comm]
  exact hb

end Workers
