import Workers.Guarded
import Workers.Stored.Basic
/-! # The store of registries

Each registry files guarded shared tables in an arena and numbers the holders that ask for an
identity.  A table may hold handles on tables of any registry of the store, so freeing one gives
back the references in it, which may free more: `settle` works that cascade off in table order.
It ends because every table freed leaves one occupied slot less.
-/
namespace Workers

/-- The arena of one registry and the number of its next holder. -/
structure Registry where
  arena : Arena (Guarded SharedTable) := {}
  nextNumber : Nat := 1

instance : Inhabited Registry := ⟨{}⟩

def Registry.text (r : Registry) : String := s!"GcRegistry(live: {r.arena.live})"

structure Store where
  registries : Array Registry := #[]

namespace Fault

def sharedBorrow : Fault := .borrow "Failed to borrow shared table at `with_table`"

def sharedBorrowMut : Fault := .borrow "Failed to borrow shared table at `with_table_mut`"

end Fault

namespace Store

def registry (s : Store) (r : RegistryId) : Registry := s.registries[r]?.getD {}

def arena (s : Store) (r : RegistryId) : Arena (Guarded SharedTable) := (s.registry r).arena

def setRegistry (s : Store) (r : RegistryId) (registry : Registry) : Store :=
  { s with registries := s.registries.modify r fun _ => registry }

def setArena (s : Store) (r : RegistryId) (arena : Arena (Guarded SharedTable)) : Store :=
  s.setRegistry r { s.registry r with arena }

def addRegistry (s : Store) : RegistryId × Store :=
  (s.registries.size,{ s with registries := s.registries.push {} })

/-- Gives out the next holder number of a registry. -/
def nextNumber (s : Store) (r : RegistryId) : Nat × Store :=
  let registry := s.registry r
  (registry.nextNumber,s.setRegistry r { registry with nextNumber := registry.nextNumber + 1 })

def create (s : Store) (r : RegistryId) (table : SharedTable) (holder : Holder) :
    EntryId × Store :=
  let (id,arena) := (s.arena r).create { content := table } holder
  (id,s.setArena r arena)

def addReference (s : Store) (r : RegistryId) (id : EntryId) (holder : Holder) :
    Except Fault Store :=
  ((s.arena r).addReference id holder).map (s.setArena r)

/-- Removes a holder and hands out the table that this freed, its references still counted. -/
def detach (s : Store) (r : RegistryId) (id : EntryId) (holder : Holder) :
    Option SharedTable × Store :=
  if r < s.registries.size then
    let (freed,arena) := (s.arena r).detach id holder
    (freed.map Guarded.content,s.setArena r arena)
  else (none,s)

/-- The number of live entries in all registries, counted slot by slot. -/
def occupied (s : Store) : Nat := s.registries.toList.foldr (fun r n => r.arena.occupied + n) 0

theorem registry_at {s : Store} {r : RegistryId} (h : r < s.registries.size) :
    s.registries.toList[r]? = some (s.registry r) := by
  simp [registry, h]

theorem occupied_setArena (s : Store) {r : RegistryId} (h : r < s.registries.size)
    (a : Arena (Guarded SharedTable)) :
    (s.setArena r a).occupied + (s.arena r).occupied = s.occupied + a.occupied := by
  simpa [occupied, arena, setArena, setRegistry, List.foldr_map] using
    foldr_map_modify (M := Nat) (· + ·) 0 (fun r => r.arena.occupied)
      (fun _ => { s.registry r with arena := a }) s.registries.toList r (registry_at h)

theorem detach_occupied_lt {s t : Store} {r : RegistryId} {id : EntryId} {holder : Holder}
    {table : SharedTable} (h : s.detach r id holder = (some table,t)) :
    t.occupied < s.occupied := by
  unfold detach at h
  split at h
  · rename_i hr
    simp only [Prod.mk.injEq, Option.map_eq_some_iff] at h
    obtain ⟨⟨g,hg,_⟩,rfl⟩ := h
    have hless : ((s.arena r).detach id holder).2.occupied < (s.arena r).occupied :=
      Arena.detach_occupied_lt (Prod.ext hg rfl)
    have hsum := s.occupied_setArena hr ((s.arena r).detach id holder).2
    omega
  · simp at h

theorem detach_occupied_le {s t : Store} {r : RegistryId} {id : EntryId} {holder : Holder}
    {table? : Option SharedTable} (h : s.detach r id holder = (table?,t)) :
    t.occupied ≤ s.occupied := by
  unfold detach at h
  split at h
  · rename_i hr
    simp only [Prod.mk.injEq] at h
    obtain ⟨_,rfl⟩ := h
    have hless : ((s.arena r).detach id holder).2.occupied ≤ (s.arena r).occupied :=
      Arena.detach_occupied_le (Prod.ext rfl rfl)
    have hsum := s.occupied_setArena hr ((s.arena r).detach id holder).2
    omega
  · simp_all

/-- Drops handles one after another.  A table freed on the way has its own handles dropped, in
table order, before the next of the list. -/
def settle (s : Store) (handles : List TableHandle) : Store :=
  match handles with
  | [] => s
  | h :: rest =>
    if h.strong then
      match _eq : s.detach h.registry h.entry h.holder with
      | (some table,t) => t.settle (table.handles ++ rest)
      | (none,t) => t.settle rest
    else s.settle rest
termination_by (s.occupied,handles.length)
decreasing_by
  · exact Prod.Lex.left _ _ (detach_occupied_lt _eq)
  · rcases Nat.lt_or_eq_of_le (detach_occupied_le _eq) with lt | eq
    · exact Prod.Lex.left _ _ lt
    · rw [eq]; exact Prod.Lex.right _ (by simp)
  · exact Prod.Lex.right _ (by simp)

/-- Releases one holder, with everything that follows; tells whether this freed the entry. -/
def release (s : Store) (r : RegistryId) (id : EntryId) (holder : Holder) : Bool × Store :=
  match s.detach r id holder with
  | (some table,t) => (true,t.settle table.handles)
  | (none,t) => (false,t)

/-- Detaches a holder from many entries and collects the tables that this freed. -/
def detachAll (s : Store) (r : RegistryId) (holder : Holder) :
    List EntryId → List SharedTable × Store
  | [] => ([],s)
  | id :: rest =>
    let (freed,s) := s.detach r id holder
    let (others,s) := s.detachAll r holder rest
    (freed.toList ++ others,s)

/-- Releases one holder from many entries.  All of them are detached before the first table that
this freed gives back its handles. -/
def releaseAll (s : Store) (r : RegistryId) (holder : Holder) (ids : List EntryId) : Store :=
  let (freed,s) := s.detachAll r holder ids
  s.settle (freed.flatMap SharedTable.handles)

def referenceCount (s : Store) (r : RegistryId) (id : EntryId) : Nat :=
  (s.arena r).referenceCount id

def isAlive (s : Store) (r : RegistryId) (id : EntryId) : Bool := (s.arena r).isAlive id

def liveEntries (s : Store) (r : RegistryId) : Nat := (s.arena r).live

def table (s : Store) (r : RegistryId) (id : EntryId) : Except Fault (Guarded SharedTable) :=
  match (s.arena r).find? id with
  | some e => .ok e.content
  | none => .error .brokenReference

def readTable (s : Store) (r : RegistryId) (id : EntryId) : Except Fault SharedTable :=
  (s.table r id).bind fun g => g.borrow .sharedBorrow

def setTable (s : Store) (r : RegistryId) (id : EntryId) (g : Guarded SharedTable) : Store :=
  s.setArena r ((s.arena r).setContent id g)

/-- Borrows a table for writing and edits it; gives the outcome of the edit. -/
def editTable {α : Type} (s : Store) (r : RegistryId) (id : EntryId)
    (edit : SharedTable → α × SharedTable) : Except Fault (α × Store) :=
  (s.table r id).bind fun g => (g.borrow .sharedBorrowMut).map fun table =>
    let (a,table) := edit table
    (a,s.setTable r id { g with content := table })

/-- What is left after code panicked while it had the table borrowed for writing. -/
def poisonTable (s : Store) (r : RegistryId) (id : EntryId) : Except Fault Store :=
  (s.table r id).bind fun g => (g.borrow .sharedBorrowMut).map fun _ =>
    s.setTable r id { g with poisoned := true }

end Store

end Workers
