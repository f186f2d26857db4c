import Workers.Guarded
import Workers.Value.Basic
/-! # The heap of local tables

A local table belongs to the contexts that run on its heap and cannot leave them.  Nothing is ever
taken away from the heap: what cannot be reached cannot be seen either.
-/
namespace Workers

abbrev LocalTable := OrderedMap Key Value

structure Heap where
  cells : Array (Guarded LocalTable) := #[]

namespace Fault

def localBorrow : Fault := .borrow "Failed to borrow ObjectCell at `try_borrow`"

def localBorrowMut : Fault := .borrow "Failed to borrow ObjectCell at `try_borrow_mut`"

end Fault

namespace Heap

def create (h : Heap) : CellId × Heap :=
  (h.cells.size,{ h with cells := h.cells.push { content := .empty } })

def read (h : Heap) (c : CellId) : Except Fault LocalTable :=
  match h.cells[c]? with
  | some g => g.borrow .localBorrow
  | none => .error .localBorrow

/-- Borrows a table for writing and edits it. -/
def edit (h : Heap) (c : CellId) (f : LocalTable → LocalTable) : Except Fault Heap :=
  match h.cells[c]? with
  | some g => (g.borrow .localBorrowMut).map fun table =>
      { h with cells := h.cells.modify c fun g => { g with content := f table } }
  | none => .error .localBorrowMut

/-- What is left after code panicked while it was borrowing a table for writing; on a poisoned table
it is the refusal that it panicked over. -/
def poison (h : Heap) (c : CellId) : Heap :=
  { h with cells := h.cells.modify c fun g => { g with poisoned := true } }

theorem lt_size_of_read {h : Heap} {c : CellId} {t : LocalTable} (ok : h.read c = .ok t) :
    c < h.cells.size := by
  unfold read at ok
  split at ok
  · exact (Array.getElem?_eq_some_iff.mp ‹_›).1
  · simp at ok

end Heap

/-- The text of a value; a local table shows its size only. -/
def Value.text (h : Heap) : Value → String
  | .nil => "nil"
  | .boolean b => toString b
  | .integer i => toString i.toInt
  | .float x => x.text
  | .string s => Text.quoted s
  | .table c =>
    match h.read c with
    | .ok t => s!"Table(len: {t.size})"
    | .error _ => "Table(<poisoned>)"
  | .shared id => "SharedTable(" ++ id.text ++ ")"
  | .function f => f.text

end Workers
