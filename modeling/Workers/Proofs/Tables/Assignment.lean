import Workers.Proofs.Capture.Released
import Workers.Proofs.Ledger.Dropped
/-! # Assignments that fail

An assignment to a shared table captures its value before it looks at the table.  Whether the
capture fails in the middle of a graph, or the table turns out to be gone or poisoned after it, all
that was made on the way is given back.
-/
namespace Workers

namespace Context

variable {c : Context} {m m' : Memory} {id : EntryId} {key value table : Value} {fault : Fault}
    {out : Multiset Share}

/-- What an assignment has captured is given back without a trace. -/
theorem restored_captured (hr : c.registry < m.store.registries.size) (hs : m.store.Balanced out)
    (value : Value) :
    (∀ fault, (c.captured m value).1 = .error fault → m.store.Restored (c.captured m value).2) ∧
      ∀ object?, (c.captured m value).1 = .ok object? →
        m.store.Restored ((c.captured m value).2.drop object?.toList) := by
  unfold captured
  by_cases hnil : value.isNil = true
  · rw [if_pos hnil]
    refine ⟨nofun,?_⟩
    rintro object? ⟨⟩
    rw [Option.toList_none, Store.drop_nil]
    exact .refl m.store
  · rw [if_neg hnil]
    have hback := value.restored hs hr m.heap
    rcases hstore : value.store m.store m.heap c.registry with ⟨outcome,s⟩
    rw [hstore] at hback
    cases outcome with
    | error fault =>
      refine ⟨fun _ _ => ?_,nofun⟩
      rwa [Except.toOption, Option.toList_none, Store.drop_nil] at hback
    | ok object =>
      refine ⟨nofun,?_⟩
      rintro object? ⟨⟩
      exact hback

/-- An assignment that fails has changed nothing, whatever it found out when. -/
theorem set_error (hr : c.registry < m.store.registries.size) (hs : m.store.Balanced out)
    (h : c.set m table key value = (.error fault,m')) :
    m'.heap = m.heap ∧ m.store.Restored m'.store := by
  cases hk : key.toKey with
  | error keyFault =>
    simp only [set, hk, Prod.mk.injEq] at h
    obtain ⟨_,rfl⟩ := h
    exact ⟨rfl,.refl m.store⟩
  | ok k =>
    cases table with
    | nil | boolean | integer | float | string | function =>
      simp only [set, hk, Prod.mk.injEq] at h
      obtain ⟨_,rfl⟩ := h
      exact ⟨rfl,.refl m.store⟩
    | table cell =>
      simp only [set, hk] at h
      split at h
      · cases h
      · cases h
        exact ⟨rfl,.refl m.store⟩
    | shared id =>
      obtain ⟨hrefused,hcaptured⟩ := restored_captured hr hs value
      rw [set_shared c m key value hk] at h
      cases hobject : (c.captured m value).1 with
      | error captureFault =>
        rw [hobject] at h
        cases h
        exact ⟨rfl,hrefused _ hobject⟩
      | ok object? =>
        simp only [hobject] at h
        split at h
        · cases h
        · cases h
          exact ⟨rfl,hcaptured object? hobject⟩

end Context

namespace GlobalState

variable {U N : Type} {lib : Library U N} {e : GlobalState}

/-- Whatever has come out of operations and calls, and whatever an assignment of a context is given:
if it fails, every local and every shared table has the contents that it had before, and the same
entries are live under the same holders. -/
theorem set_all_or_nothing (he : Arises lib e) {i : ContextId} (hi : i < e.world.contexts.size)
    {heap : Heap} {table key value : Value} {fault : Fault} {m : Memory}
    (h : (e.world.context i).set { store := e.world.store, heap } table key value = (.error fault,m)) :
    m.heap = heap ∧ e.world.store.Restored m.store := by
  have hr := he.accounted.world.context_given hi
  have hs := he.accounted.world.balanced
  exact Context.set_error (m := { store := e.world.store, heap }) hr hs h

end GlobalState

namespace Heap

open Capture (storeValue storeEntries storeValue_table)

def entangled : Heap where
  cells :=
    #[{ content := OrderedMap.empty.insert (.integer 1) (.table 1) |>.insert (.integer 2) (.table 0) },
    { content := .empty }]

/-- The first slot is captured before the second is refused. -/
theorem store_entangled (s : Store) (r : RegistryId) :
    ((Value.table 0).store s .entangled r).1 = .error .cyclicTable := by
  have houter : entangled.read 0 =
      .ok (OrderedMap.empty.insert (.integer 1) (.table 1) |>.insert (.integer 2) (.table 0)) := rfl
  have hinner : entangled.read 1 = .ok .empty := rfl
  have hslots : (OrderedMap.empty.insert (.integer 1) (.table 1) |>.insert (.integer 2) (.table 0) :
      LocalTable).entries = [(.integer 1,.table 1),(.integer 2,.table 0)] := rfl
  have hnone : (OrderedMap.empty : LocalTable).entries = [] := rfl
  have hback : ∀ p : Capture.Progress, storeValue entangled r [0] p (.table 0) =
      (.error ⟨.cyclicTable,[0]⟩,p) := by
    intro p
    simp [storeValue]
  have hwhole := @storeValue_table .entangled r [] ⟨s,[]⟩ 0 _ (by decide) rfl houter
  have hfirst := @storeValue_table .entangled r [0] ⟨s,[]⟩ 1 _ (by decide) rfl hinner
  rw [hnone, storeEntries] at hfirst
  rw [hslots, storeEntries, hfirst] at hwhole
  simp only [storeEntries, hback] at hwhole
  simp only [Value.store, Capture.store, hwhole]

end Heap

theorem GlobalState.set_all_or_nothing_entangled : let e := run [.newPool,.newContext 0,.create 0 []]
    let m : Memory := { store := e.world.store, heap := .entangled }
    let set := (e.world.context 0).set m (.shared ⟨0,0⟩) (.string "k") (.table 0)
    (Arises unloadable e ∧ 0 < e.world.contexts.size ∧ set = (.error .cyclicTable,set.2)) ∧
    set.2.heap = m.heap ∧ m.store.Restored set.2.store := by
  intro e m set
  have harises : Arises unloadable e := arises_run unloadable _
  have hi : 0 < e.world.contexts.size := by decide
  have hset : set = (.error .cyclicTable,set.2) := by
    have hstore := Heap.store_entangled e.world.store (e.world.context 0).registry
    rcases hpair : (Value.table 0).store e.world.store .entangled
      (e.world.context 0).registry with ⟨outcome,s⟩
    obtain rfl : outcome = .error .cyclicTable := by rwa [hpair] at hstore
    refine Prod.ext ?_ rfl
    simp [set, m, Context.set, Value.toKey, Value.isNil, hpair, Except.map]
  exact ⟨⟨harises,hi,hset⟩,set_all_or_nothing harises hi hset⟩

end Workers
