import Workers.Proofs.Capture.Verdicts
/-! # Captures that have failed before

A failure leaves the tables that it was inside of on the path of the capture.  None of them can be
stored, so that the capture goes on to store what a fresh one would.  But a later value that leads
into one of them before it comes to a fault of its own is taken for a cycle.
-/
namespace Workers

namespace Heap

variable {h : Heap} {s : Store} {r : RegistryId} {path marked : List CellId} {v : Value} {fault : Fault}

inductive DescendsToMarked (h : Heap) (s : Store) (r : RegistryId) (marked : List CellId) : Value → Prop
  | here {c : CellId} (hc : c ∈ marked) : DescendsToMarked h s r marked (.table c)
  | slot {c : CellId} {table : LocalTable} {v : Value} (hread : h.read c = .ok table)
      (hfirst : h.FirstUnstorable s r table.values v) (hv : DescendsToMarked h s r marked v) :
      DescendsToMarked h s r marked (.table c)

/-- Tables on the path that are never met make no difference. -/
theorem DescentFault.beside (hf : h.DescentFault s r path v fault)
    (hmeets : ¬ h.DescendsToMarked s r marked v) :
    h.DescentFault s r (path ++ marked) v fault := by
  have hothers : ∀ {path : List CellId} {c : CellId}, c ∉ path →
      ¬ h.DescendsToMarked s r marked (.table c) → c ∉ path ++ marked :=
    fun hc hmeets hmem => (List.mem_append.mp hmem).elim hc fun hc => hmeets (.here hc)
  induction hf with
  | broken hdead => exact .broken hdead
  | cyclic hc => exact .cyclic (List.mem_append_left _ hc)
  | unreadable hc hread => exact .unreadable (hothers hc hmeets) hread
  | slot hc hread hfirst _ ih =>
    exact .slot (hothers hc hmeets) hread hfirst (ih fun hv => hmeets (.slot hread hfirst hv))

/-- A table on the path that is met is taken for a cycle. -/
theorem DescendsToMarked.descentFault (hm : h.DescendsToMarked s r marked v)
    (hmarked : ∀ c ∈ marked, c ∈ path) (hf : h.DescentFault s r path v fault) :
    fault = .cyclicTable := by
  induction hm generalizing path with
  | here hc =>
    cases hf with
    | cyclic => rfl
    | unreadable hc' => exact absurd (hmarked _ hc) hc'
    | slot hc' => exact absurd (hmarked _ hc) hc'
  | slot hread hfirst _ ih =>
    cases hf with
    | cyclic => rfl
    | unreadable _ hread' =>
      rw [hread] at hread'
      cases hread'
    | slot _ hread' hfirst' hv' =>
      rw [hread] at hread'
      cases hread'
      rw [hfirst'.unique hfirst] at hv'
      exact ih (fun c hc => List.mem_cons_of_mem _ (hmarked c hc)) hv'

end Heap

namespace Capture

/-- A capture through which values of a list have been stored, with whatever success, in states in
which the shared tables that they lead to were as alive as they are in the store `s`. -/
inductive Used {U N : Type} (lib : Library U N) (h : Heap) (vs : List Value) (s : Store)
    (r : RegistryId) : Capture → Prop
  | begun : Used lib h vs s r { registry := r }
  | stored {c : Capture} {e : GlobalState} {v : Value} (hc : Used lib h vs s r c)
      (he : GlobalState.Arises lib e) (hr : r < e.world.store.registries.size)
      (hsteady : h.AliveAlike vs r s e.world.store) (hv : v ∈ vs) :
      Used lib h vs s r (c.store e.world.store h v).2.1

variable {U N : Type} {lib : Library U N} {h : Heap} {vs : List Value} {s : Store} {r : RegistryId}
    {c : Capture}

theorem Used.consistent (hc : Used lib h vs s r c) : Consistent h s r c := by
  induction hc with
  | begun => exact consistent_fresh h s r
  | @stored c e v _ he hr hsteady hv ih =>
    have houtcome := storeOutcome_store ih ⟨hr,he.accounted.world.balanced.sound,hsteady⟩ (.root hv)
    rcases hstore : c.store e.world.store h v with ⟨o,c',t'⟩
    rw [hstore] at houtcome
    cases houtcome with
    | stored _ hc' => exact hc'
    | refused _ _ hc' => exact hc'

end Capture

namespace GlobalState

open Capture (Used)

variable {U N : Type} {lib : Library U N} {e : GlobalState} {h : Heap} {vs : List Value}
    {r : RegistryId} {c : Capture}
variable {w : Value}

/-- Through a capture that has failed before, a value is stored just when it would be through a
fresh one.  Where it is refused, it is refused for the same fault unless it meets what a failure has
left on the path before it comes to that fault: then it is refused as a cycle. -/
theorem store_after_failures (he : Arises lib e) (hr : r < e.world.store.registries.size)
    (hsteady : h.AliveAlike vs r e.world.store e.world.store)
    (hc : Used lib h vs e.world.store r c) (hw : w ∈ vs) :
    let s := e.world.store
    let fresh : Capture := { registry := r }
    ((∃ object, (c.store s h w).1 = .ok object) ↔ ∃ object, (fresh.store s h w).1 = .ok object) ∧
    ∀ fault, (fresh.store s h w).1 = .error fault →
      ((c.store s h w).1 = .error fault ↔ fault = .cyclicTable ∨ ¬ h.DescendsToMarked s r c.path w) ∧
      (h.DescendsToMarked s r c.path w → (c.store s h w).1 = .error .cyclicTable) := by
  intro s fresh
  have hs : Capture.StoreAgrees h vs s r s := ⟨hr,he.accounted.world.balanced.sound,hsteady⟩
  have hused := Capture.storeOutcome_store hc.consistent hs (.root hw)
  have hfresh := Capture.storeOutcome_store (Capture.consistent_fresh h s r) hs (.root hw)
  rcases hstore : c.store s h w with ⟨o,c₁,t₁⟩
  rcases hstore' : fresh.store s h w with ⟨o',c₂,t₂⟩
  rw [hstore] at hused
  rw [hstore'] at hfresh
  cases hused with
  | stored hv =>
    cases hfresh with
    | stored => simp
    | refused hnot => exact absurd hv hnot
  | @refused fault _ _ hnot hfinds =>
    cases hfresh with
    | stored hv => exact absurd hv hnot
    | @refused fault' _ _ _ hfinds' =>
      have hmet : h.DescendsToMarked s r c.path w → fault = .cyclicTable :=
        fun hm => hm.descentFault (fun d hd => hd) hfinds
      have hunmet : ¬ h.DescendsToMarked s r c.path w → fault = fault' :=
        fun hm => hfinds.unique (hfinds'.beside hm)
      refine ⟨by simp,fun found hfound => ?_⟩
      obtain rfl : fault' = found := Except.error.inj hfound
      refine ⟨⟨fun hsame => ?_,?_⟩,fun hm => congrArg Except.error (hmet hm)⟩
      · by_cases hm : h.DescendsToMarked s r c.path w
        · exact .inl ((Except.error.inj hsame).symm.trans (hmet hm))
        · exact .inr hm
      · rintro (rfl | hm)
        · by_cases hm : h.DescendsToMarked s r c.path w
          · exact congrArg Except.error (hmet hm)
          · exact congrArg Except.error (hunmet hm)
        · exact congrArg Except.error (hunmet hm)

def poisonedTable : Heap where
  cells := #[{ content := .empty, poisoned := true }]

theorem poisonedTable_read : poisonedTable.read 0 = .error .localBorrow := rfl

theorem store_poisonedTable (s : Store) :
    ({ registry := 0 } : Capture).store s poisonedTable (.table 0) =
    (.error .localBorrow,{ registry := 0, path := [0] },s) := by
  unfold Capture.store
  rw [Capture.storeValue_unreadable List.not_mem_nil rfl poisonedTable_read]

theorem store_poisonedTable_again (s : Store) :
    (({ registry := 0, path := [0] } : Capture).store s poisonedTable (.table 0)).1 =
    .error .cyclicTable := by
  unfold Capture.store
  rw [Capture.storeValue, dif_pos List.mem_cons_self]

theorem poisonedTable_occurs {v : Value} (hv : poisonedTable.Occurs [.table 0] v) : v = .table 0 := by
  induction hv with
  | root hv => exact List.mem_singleton.mp hv
  | slot _ hread _ ih =>
    cases ih
    rw [poisonedTable_read] at hread
    cases hread

/-- The second time the table is refused as a cycle. -/
theorem store_after_failures_poisoned : let e := run [.newPool]
    let s := e.world.store
    let c := (({ registry := 0 } : Capture).store s poisonedTable (.table 0)).2.1
    (Arises unloadable e ∧ 0 < s.registries.size ∧ poisonedTable.AliveAlike [.table 0] 0 s s ∧
      Used unloadable poisonedTable [.table 0] s 0 c ∧ .table 0 ∈ [Value.table 0]) ∧
    poisonedTable.DescendsToMarked s 0 c.path (.table 0) ∧ (c.store s poisonedTable (.table 0)).1 =
    .error .cyclicTable ∧
      (c.store s poisonedTable (.table 0)).1 ≠ .error .localBorrow := by
  intro e s c
  have harises : Arises unloadable e := arises_run unloadable _
  have hr : 0 < s.registries.size := by decide
  have hsteady : poisonedTable.AliveAlike [.table 0] 0 s s :=
    fun id hid => nomatch poisonedTable_occurs hid
  have hw : Value.table 0 ∈ [Value.table 0] := List.mem_cons_self
  have hused : Used unloadable poisonedTable [.table 0] s 0 c := .stored .begun harises hr hsteady hw
  have hfresh : (({ registry := 0 } : Capture).store s poisonedTable (.table 0)).1 =
      .error .localBorrow := by
    rw [store_poisonedTable]
  have hmeets : poisonedTable.DescendsToMarked s 0 c.path (.table 0) := by
    have hpath : c.path = [0] := by
      simp only [c, store_poisonedTable]
    rw [hpath]
    exact .here List.mem_cons_self
  have hafter := (store_after_failures harises hr hsteady hused hw).2 _ hfresh
  have hcyclic := hafter.2 hmeets
  refine ⟨⟨harises,hr,hsteady,hused,hw⟩,hmeets,hcyclic,?_⟩
  rw [hcyclic]
  decide

/-- A failure changes the fault of a later one. -/
theorem failure_changes_fault :
    ¬ ∀ (ops : List Operation) (h : Heap) (r : RegistryId) (v w : Value) (fault fault' : Fault),
    r < (run ops).world.store.registries.size →
    let (outcome,c,s) := ({ registry := r } : Capture).store (run ops).world.store h v
    outcome = .error fault → (({ registry := r } : Capture).store s h w).1 = .error fault' →
      (c.store s h w).1 = .error fault' := by
  intro hsame
  have hr : 0 < (run [.newPool]).world.store.registries.size := by decide
  have hclaim := hsame [.newPool] poisonedTable 0 (.table 0) (.table 0) .localBorrow .localBorrow hr
  rw [store_poisonedTable] at hclaim
  have hagain := hclaim rfl (by rw [store_poisonedTable])
  rw [store_poisonedTable_again] at hagain
  exact absurd hagain (by decide)

end GlobalState

end Workers
