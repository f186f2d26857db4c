import Workers.Registry.Store
/-! # Table handles

Every handle has a holder number of its own, taken before anything else can fail, so the life of
one handle never shows in another.
-/
namespace Workers

namespace TableHandle

/-- Takes a new strong reference on an existing entry. -/
def attach (s : Store) (registry : RegistryId) (entry : EntryId) :
    Except Fault TableHandle × Store :=
  let (number,s) := s.nextNumber registry
  match s.addReference registry entry (.store number) with
  | .ok s => (.ok { entry, number, registry, strong := true },s)
  | .error fault => (.error fault,s)

/-- Files a table as a new entry owned by the handle. -/
def create (s : Store) (registry : RegistryId) (table : SharedTable) : TableHandle × Store :=
  let (number,s) := s.nextNumber registry
  let (entry,s) := s.create registry table (.store number)
  ({ entry, number, registry, strong := true },s)

/-- A second handle on the same entry, strong if the entry is still alive. -/
def copy (s : Store) (h : TableHandle) : TableHandle × Store :=
  let (number,s) := s.nextNumber h.registry
  match s.addReference h.registry h.entry (.store number) with
  | .ok s => ({ h with number, strong := true },s)
  | .error _ => ({ h with number, strong := false },s)

/-- Gives up the strong reference; the handle stays. -/
def weaken (s : Store) (h : TableHandle) : TableHandle × Store :=
  ({ h with strong := false },s.settle [h])

end TableHandle

namespace Stored

def copy (s : Store) : Stored → Stored × Store
  | .shared h =>
    let (h,s) := h.copy s
    (.shared h,s)
  | other => (other,s)

def copyAll (s : Store) : List Stored → List Stored × Store
  | [] => ([],s)
  | object :: rest =>
    let (object,s) := object.copy s
    let (rest,s) := copyAll s rest
    (object :: rest,s)

def weaken (s : Store) : Stored → Stored × Store
  | .shared h =>
    let (h,s) := h.weaken s
    (.shared h,s)
  | other => (other,s)

end Stored

namespace Store

def drop (s : Store) (objects : List Stored) : Store := s.settle (objects.flatMap Stored.handles)

end Store

end Workers
