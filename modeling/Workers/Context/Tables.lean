import Workers.Context.Basic
/-! # Tables seen from a context

Reading, writing and measuring local and shared tables.  Both kinds take the same keys and answer
alike; a shared table holds stored objects, so values are captured on their way in and loaded on
their way out.
-/
namespace Workers

/-- Where tables live: shared ones in the store, local ones on the heap. -/
structure Memory where
  store : Store := {}
  heap : Heap := {}

namespace Fault

def notIndexable (v : Value) : Fault :=
  .invalidOperation ("attempt to index a " ++ v.typeName ++ " value")

def noLength (v : Value) : Fault :=
  .invalidOperation ("attempt to get length of a " ++ v.typeName ++ " value")

end Fault

namespace Memory

def newTable (m : Memory) : Value × Memory :=
  let (cell,heap) := m.heap.create
  (.table cell,{ m with heap })

end Memory

namespace Context

def newShared (c : Context) (s : Store) : Value × Context × Store :=
  let (id,s) := s.create c.registry .empty c.holder
  (.shared id,{ c with references := c.references ++ [id] },s)

/-- The value under a key, nil if there is none. -/
def get (c : Context) (m : Memory) (table key : Value) :
    Except Fault Value × Context × Store :=
  match key.toKey with
  | .error fault => (.error fault,c,m.store)
  | .ok key =>
    match table with
    | .table cell =>
      ((m.heap.read cell).map fun t => (t.get? key).getD .nil,c,m.store)
    | .shared id =>
      match m.store.readTable c.registry id with
      | .error fault => (.error fault,c,m.store)
      | .ok t =>
        match t.get? key with
        | none => (.ok .nil,c,m.store)
        | some object =>
          let (object,s) := object.copy m.store
          match c.load s object with
          | .ok (value,c,s) => (.ok value,c,s.drop [object])
          | .error fault => (.error fault,c,s.drop [object])
    | other => (.error (.notIndexable other),c,m.store)

/-- Assigns the value under a key; nil removes the key.  The value is captured before the target
is looked at, and given back if the target turns out to be gone. -/
def set (c : Context) (m : Memory) (table key value : Value) : Except Fault Unit × Memory :=
  match key.toKey with
  | .error fault => (.error fault,m)
  | .ok key =>
    match table with
    | .table cell =>
      let write := fun t : LocalTable =>
        if value.isNil then t.erase key else t.insert key value
      match m.heap.edit cell write with
      | .ok heap => (.ok (),{ m with heap })
      | .error fault => (.error fault,m)
    | .shared id =>
      let (captured,s) :=
        if value.isNil then (.ok none,m.store)
        else
          let (outcome,s) := value.store m.store m.heap c.registry
          (outcome.map some,s)
      match captured with
      | .error fault => (.error fault,{ m with store := s })
      | .ok object =>
        let write := fun t : SharedTable =>
          (t.get? key,match object with
            | some object => t.insert key object
            | none => t.erase key)
        match s.editTable c.registry id write with
        | .ok (replaced,s) => (.ok (),{ m with store := s.drop replaced.toList })
        | .error fault => (.error fault,{ m with store := s.drop object.toList })
    | other => (.error (.notIndexable other),m)

def length (c : Context) (m : Memory) (table : Value) : Except Fault Nat :=
  match table with
  | .table cell => (m.heap.read cell).map OrderedMap.size
  | .shared id => (m.store.readTable c.registry id).map OrderedMap.size
  | other => .error (.noLength other)

end Context

end Workers
