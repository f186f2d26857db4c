import Workers.Capture
/-! # Induction over a capture

Storing a value and storing the entries of a table call each other.  `capture_induction` has one
case for each way in which they come to an end, so that what follows never opens the two functions
again.
-/
namespace Workers

def Value.scalar? : Value → Option Stored
  | .nil => some .nil
  | .boolean b => some (.boolean b)
  | .integer i => some (.integer i)
  | .float x => some (.float x)
  | .string s => some (.string s)
  | .function f => some (.function f)
  | .table _ | .shared _ => none

namespace Capture

variable {h : Heap} {r : RegistryId}
variable {P : List CellId → Progress → Value → Except Refusal Stored → Progress → Prop}
variable {Q : List CellId → Progress → SharedTable → List (Key × Value) →
  Except Refusal SharedTable → Progress → Prop}

section Tables

variable {path : List CellId} {p : Progress} {c : CellId}

theorem storeValue_unreadable {fault : Fault} (hc : c ∉ path) (hl : p.captured.lookup c = none)
    (hread : h.read c = .error fault) :
    storeValue h r path p (.table c) = (.error ⟨fault,c :: path⟩,p) := by
  rw [storeValue, dif_neg hc, hl]
  simp only
  split
  · rename_i fault' hread'
    rw [hread] at hread'
    cases hread'
    rfl
  · rename_i table hread'
    rw [hread] at hread'
    cases hread'

/-- A table met for the first time is stored with its entries, and the capture keeps a handle of it. -/
theorem storeValue_table {table : LocalTable} (hc : c ∉ path) (hl : p.captured.lookup c = none)
    (hread : h.read c = .ok table) :
    storeValue h r path p (.table c) =
      match storeEntries h r (c :: path) p .empty table.entries with
      | (.error refusal,p') => (.error refusal,p')
      | (.ok shared,p') =>
        let (handle,store) := TableHandle.create p'.store r shared
        let (kept,store') := handle.copy store
        (.ok (.shared handle),⟨store',(c,kept) :: p'.captured⟩) := by
  rw [storeValue, dif_neg hc, hl]
  simp only
  split
  · rename_i fault hread'
    rw [hread] at hread'
    cases hread'
  · rename_i table' hread'
    rw [hread] at hread'
    cases hread'
    rfl

end Tables

/-- What holds of every way in which storing can end holds of what it comes to; each case knows what
was stored before it. -/
theorem capture_induction
    (scalar : ∀ path p v object, v.scalar? = some object → P path p v (.ok object) p)
    (attached : ∀ path p id handle store, TableHandle.attach p.store r id = (.ok handle,store) →
      P path p (.shared id) (.ok (.shared handle)) { p with store })
    (broken : ∀ path p id fault store, TableHandle.attach p.store r id = (.error fault,store) →
      P path p (.shared id) (.error ⟨fault,path⟩) { p with store })
    (cyclic : ∀ path p c, c ∈ path → P path p (.table c) (.error ⟨.cyclicTable,path⟩) p)
    (again : ∀ path p c handle, c ∉ path → p.captured.lookup c = some handle →
      P path p (.table c) (.ok (.shared (handle.copy p.store).1))
        { p with store := (handle.copy p.store).2 })
    (unreadable : ∀ path p c fault, c ∉ path → p.captured.lookup c = none → h.read c = .error fault →
      P path p (.table c) (.error ⟨fault,c :: path⟩) p)
    (refused : ∀ path p c table refusal p', c ∉ path → p.captured.lookup c = none →
      h.read c = .ok table → storeEntries h r (c :: path) p .empty table.entries = (.error refusal,p') →
      Q (c :: path) p .empty table.entries (.error refusal) p' → P path p (.table c) (.error refusal) p')
    (copied : ∀ path p c table shared p' handle store kept store', c ∉ path →
      p.captured.lookup c = none → h.read c = .ok table →
      storeEntries h r (c :: path) p .empty table.entries = (.ok shared,p') →
      Q (c :: path) p .empty table.entries (.ok shared) p' →
      TableHandle.create p'.store r shared = (handle,store) → handle.copy store = (kept,store') →
      P path p (.table c) (.ok (.shared handle)) ⟨store',(c,kept) :: p'.captured⟩)
    (complete : ∀ path p done, Q path p done [] (.ok done) p)
    (next : ∀ path p done key v rest object p' outcome p'', storeValue h r path p v = (.ok object,p') →
      P path p v (.ok object) p' → Q path p' (done.insert key object) rest outcome p'' →
      Q path p done ((key,v) :: rest) outcome p'')
    (stuck : ∀ path p done key v rest refusal p', storeValue h r path p v = (.error refusal,p') →
      P path p v (.error refusal) p' →
      Q path p done ((key,v) :: rest) (.error refusal)
        { p' with store := p'.store.settle done.handles }) :
    (∀ path p v, P path p v (storeValue h r path p v).1 (storeValue h r path p v).2) ∧
      ∀ path p done es, Q path p done es (storeEntries h r path p done es).1
        (storeEntries h r path p done es).2 := by
  apply storeValue.mutual_induct h r
    (fun path p v => P path p v (storeValue h r path p v).1 (storeValue h r path p v).2)
    (fun path p done es => Q path p done es (storeEntries h r path p done es).1
      (storeEntries h r path p done es).2)
  case case1 | case2 | case3 | case4 | case5 | case6 =>
    intros
    rw [storeValue]
    exact scalar _ _ _ _ rfl
  case case7 =>
    intro path p id handle store ha
    rw [storeValue, ha]
    exact attached path p id handle store ha
  case case8 =>
    intro path p id fault store ha
    rw [storeValue, ha]
    exact broken path p id fault store ha
  case case9 =>
    intro path p c hc
    rw [storeValue, dif_pos hc]
    exact cyclic path p c hc
  case case10 =>
    intro path p c hc handle hl handle' store hcopy
    have hv := again path p c handle hc hl
    rw [storeValue, dif_neg hc, hl]
    exact hv
  case case11 =>
    intro path p c hc hl fault hread
    rw [storeValue_unreadable hc hl hread]
    exact unreadable path p c fault hc hl hread
  case case12 =>
    intro path p c hc hl table hread refusal p' he ih
    rw [he] at ih
    rw [storeValue_table hc hl hread, he]
    exact refused path p c table refusal p' hc hl hread he ih
  case case13 =>
    intro path p c hc hl table hread shared p' he handle store hcreate kept store' hcopy ih
    rw [he] at ih
    rw [storeValue_table hc hl hread, he]
    simp only [hcreate, hcopy]
    exact copied path p c table shared p' handle store kept store' hc hl hread he ih hcreate hcopy
  case case14 =>
    intro path p done
    rw [storeEntries]
    exact complete path p done
  case case15 =>
    intro path p done key v rest object p' hv ih ih'
    rw [hv] at ih
    rw [storeEntries, hv]
    exact next path p done key v rest object p' _ _ hv ih ih'
  case case16 =>
    intro path p done key v rest refusal p' hv ih
    rw [hv] at ih
    rw [storeEntries, hv]
    exact stuck path p done key v rest refusal p' hv ih

end Capture

end Workers
