import Workers.Heap
import Workers.Stored.Handle
/-! # Capturing values

A capture turns values of a context into stored objects.  Each local table is copied into a new
shared entry once, however many paths lead to it; a later occurrence gets a handle on that entry.
A path that comes back to a table it is still inside of is refused, which is the only way in which
a graph of live, readable tables can fail.

The recursion follows the path: a table is only entered if it is not on it, so the number of cells
off the path goes down.
-/
namespace Workers

def Fault.cyclicTable : Fault := .invalidType "cyclic table cannot be shared"

/-- What one pass of captures has built up: the entry made for each table, kept alive by a handle
of the capture's own, and the path that the last failure left behind. -/
structure Capture where
  registry : RegistryId
  path : List CellId := []
  captured : List (CellId × TableHandle) := []

namespace Capture

structure Progress where
  store : Store
  captured : List (CellId × TableHandle)

/-- Why a value could not be stored, and the path on which that was found. -/
structure Refusal where
  fault : Fault
  path : List CellId

/-- The number of cells that a path does not go through. -/
def offPath (h : Heap) (path : List CellId) : Nat :=
  (List.range h.cells.size).countP fun c => !path.contains c

theorem offPath_cons_lt {h : Heap} {path : List CellId} {c : CellId} (inside : c < h.cells.size)
    (off : c ∉ path) : offPath h (c :: path) < offPath h path := by
  have counted : ∀ l : List CellId, l.countP (fun d => !(c :: path).contains d) +
      (if c ∈ l then 1 else 0) ≤ l.countP fun d => !path.contains d := by
    intro l
    induction l with
    | nil => simp
    | cons d rest ih =>
      by_cases hd : d = c
      · subst hd
        have : (if d ∈ rest then 1 else 0 : Nat) ≤ 1 := by split <;> omega
        simp only [List.countP_cons, List.contains_eq_mem, List.mem_cons, true_or] at ih ⊢
        simp only [off, decide_true, decide_false, Bool.not_true, Bool.not_false]
        simp only [if_true, Bool.false_eq_true, if_false]
        omega
      · have hc : ¬ c = d := fun e => hd e.symm
        simp only [List.countP_cons, List.contains_eq_mem, List.mem_cons, hd, hc,
          false_or] at ih ⊢
        omega
  have := counted (List.range h.cells.size)
  simp only [List.mem_range, inside, if_true] at this
  exact this

mutual

/-- Stores one value found at the end of a path. -/
def storeValue (h : Heap) (registry : RegistryId) (path : List CellId) (p : Progress) :
    Value → Except Refusal Stored × Progress
  | .nil => (.ok .nil,p)
  | .boolean b => (.ok (.boolean b),p)
  | .integer i => (.ok (.integer i),p)
  | .float x => (.ok (.float x),p)
  | .string s => (.ok (.string s),p)
  | .function f => (.ok (.function f),p)
  | .shared id =>
    match TableHandle.attach p.store registry id with
    | (.ok handle,store) => (.ok (.shared handle),{ p with store })
    | (.error fault,store) => (.error ⟨fault,path⟩,{ p with store })
  | .table c =>
    if _onPath : c ∈ path then (.error ⟨.cyclicTable,path⟩,p)
    else
      match p.captured.lookup c with
      | some handle =>
        let (handle,store) := handle.copy p.store
        (.ok (.shared handle),{ p with store })
      | none =>
        match _read : h.read c with
        | .error fault => (.error ⟨fault,c :: path⟩,p)
        | .ok table =>
          match storeEntries h registry (c :: path) p .empty table.entries with
          | (.error refusal,p) => (.error refusal,p)
          | (.ok shared,p) =>
            let (handle,store) := TableHandle.create p.store registry shared
            let (kept,store) := handle.copy store
            (.ok (.shared handle),{ store, captured := (c,kept) :: p.captured })
termination_by (offPath h path,0)
decreasing_by
  exact Prod.Lex.left _ _ (offPath_cons_lt (Heap.lt_size_of_read _read) _onPath)

/-- Stores the entries of a table; a failure drops those stored before it. -/
def storeEntries (h : Heap) (registry : RegistryId) (path : List CellId) (p : Progress)
    (done : SharedTable) (entries : List (Key × Value)) : Except Refusal SharedTable × Progress :=
  match entries with
  | [] => (.ok done,p)
  | (key,value) :: rest =>
    match storeValue h registry path p value with
    | (.ok object,p) => storeEntries h registry path p (done.insert key object) rest
    | (.error refusal,p) =>
      (.error refusal,{ p with store := p.store.settle done.handles })
termination_by (offPath h path,entries.length + 1)
decreasing_by
  · exact Prod.Lex.right _ (by simp)
  · exact Prod.Lex.right _ (by simp)

end

/-- Stores a value through the capture.  The path is empty again after a success. -/
def store (c : Capture) (s : Store) (h : Heap) (value : Value) :
    Except Fault Stored × Capture × Store :=
  match storeValue h c.registry c.path ⟨s,c.captured⟩ value with
  | (.ok object,p) => (.ok object,{ c with captured := p.captured },p.store)
  | (.error refusal,p) =>
    (.error refusal.fault,{ c with captured := p.captured, path := refusal.path },p.store)

def finish (c : Capture) (s : Store) : Store := s.settle (c.captured.map Prod.snd)

end Capture

def Value.store (v : Value) (s : Store) (h : Heap) (registry : RegistryId) :
    Except Fault Stored × Store :=
  match ({ registry } : Capture).store s h v with
  | (outcome,capture,s) => (outcome,capture.finish s)

end Workers
