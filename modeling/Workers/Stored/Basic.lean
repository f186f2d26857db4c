import Workers.Registry.Arena
/-! # Stored objects

A stored object is a value that can outlive the context that produced it and cross to another
one.  Scalars and routines are kept as they are; a table is always a shared one, behind a handle
that records whether it still has its own strong reference.
-/
namespace Workers

abbrev RegistryId := Nat

/-- A handle on a shared table.  Its holder is `Holder.store number`, registered in the entry as
long as `strong` is set. -/
structure TableHandle where
  entry : EntryId
  number : Nat
  registry : RegistryId
  strong : Bool
  deriving DecidableEq, Inhabited

inductive Stored where
  | nil
  | boolean (b : Bool)
  | integer (i : Int64)
  | float (x : Binary64)
  | string (s : String)
  | function (routine : Routine)
  | shared (handle : TableHandle)
  deriving DecidableEq, Inhabited

abbrev SharedTable := OrderedMap Key Stored

def Fault.foreignTable : Fault := .invalidOperation "table belongs to a different registry"

def TableHandle.holder (h : TableHandle) : Holder := .store h.number

def TableHandle.text (h : TableHandle) : String := s!"GcHandle({h.entry.text}, strong: {h.strong})"

namespace Stored

def typeName : Stored → String
  | nil => "nil"
  | boolean _ => "boolean"
  | integer _ | float _ => "number"
  | string _ => "string"
  | function _ => "function"
  | shared _ => "table"

def asInteger : Stored → Option Int64
  | integer i => some i
  | _ => none

def asString : Stored → Option String
  | string s => some s
  | _ => none

def handles : Stored → List TableHandle
  | shared h => [h]
  | _ => []

def entryId? : Stored → Option EntryId
  | shared h => some h.entry
  | _ => none

/-- Equality of stored objects: no mixing of integers and floats, tables by address. -/
def same : Stored → Stored → Bool
  | nil, nil => true
  | boolean a, boolean b => a == b
  | integer a, integer b => a == b
  | float a, float b => a.same b
  | string a, string b => a == b
  | function f, function g => f.same g
  | shared a, shared b => a.entry == b.entry
  | _, _ => false

/-- Refuses a table of another registry. -/
def checkRegistry (s : Stored) (registry : RegistryId) : Except Fault Unit :=
  match s with
  | shared h => if h.registry = registry then .ok () else .error .foreignTable
  | _ => .ok ()

def text : Stored → String
  | nil => "nil"
  | boolean b => toString b
  | integer i => toString i.toInt
  | float x => x.text
  | string s => Text.quoted s
  | function f => f.text
  | shared h => h.text

end Stored

/-- The handles in a table, in table order. -/
def SharedTable.handles (t : SharedTable) : List TableHandle := t.values.flatMap Stored.handles

end Workers
