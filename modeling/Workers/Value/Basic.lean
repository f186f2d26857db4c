import Workers.Binary64.Shortest
import Workers.Fault
import Workers.OrderedMap
/-! # Values and keys

The values that code in a context works with, and the scalar keys of tables.  A number that is an
integer in the range of `Int64` has one key however it is written.  Equality compares an integer
with a float after rounding the integer; tables, shared tables and routines are equal by identity.
-/
namespace Workers

/-- A function that contexts can pass on.  Two routines are the same if their loaders are. -/
structure Routine where
  name : String
  loader : Nat
  deriving DecidableEq, Inhabited

/-- The address of a shared table: a slot and the generation of its occupant.  Both are numbers of 32
bits in the program.  Generations wrap around here as they do there; the slot number has no bound, so
a registry with `2 ^ 32` occupied slots is left out of the model. -/
structure EntryId where
  index : Nat
  generation : UInt32
  deriving DecidableEq, Inhabited

/-- The address of a local table on its heap. -/
abbrev CellId := Nat

inductive Value where
  | nil
  | boolean (b : Bool)
  | integer (i : Int64)
  | float (x : Binary64)
  | string (s : String)
  | table (cell : CellId)
  | shared (id : EntryId)
  | function (routine : Routine)
  deriving DecidableEq, Inhabited

/-- The key of a table entry.  A float key is never an integer below `2 ^ 63` in magnitude. -/
inductive Key where
  | boolean (b : Bool)
  | integer (i : Int64)
  | float (x : Binary64)
  | string (s : String)
  deriving DecidableEq, Inhabited

namespace Fault

def indexNaN : Fault := .invalidType "table index is NaN"

def badIndex (typeName : String) : Fault := .invalidType ("table index is " ++ typeName)

end Fault

namespace Routine

def same (f g : Routine) : Bool := f.loader == g.loader

def text (f : Routine) : String := "Function(" ++ f.name ++ ")"

end Routine

def EntryId.text (id : EntryId) : String :=
  s!"EntryId \x7b index: {id.index}, generation: {id.generation.toNat} \x7d"

def clampInt64 (i : Int) : Int64 :=
  if i < Int64.minValue.toInt then Int64.minValue
  else if Int64.maxValue.toInt < i then Int64.maxValue
  else .ofInt i

def Key.toValue : Key → Value
  | .boolean b => .boolean b
  | .integer i => .integer i
  | .float x => .float x
  | .string s => .string s

namespace Value

def typeName : Value → String
  | nil => "nil"
  | boolean _ => "boolean"
  | integer _ | float _ => "number"
  | string _ => "string"
  | table _ | shared _ => "table"
  | function _ => "function"

def isNil : Value → Bool
  | nil => true
  | _ => false

/-- The integer that a number stands for; a float beyond the range gives the end of the range. -/
def asInteger : Value → Option Int64
  | integer i => some i
  | float x => x.toInt?.map clampInt64
  | _ => none

def asString : Value → Option String
  | string s => some s
  | _ => none

/-- The key under which a table files a value. -/
def toKey : Value → Except Fault Key
  | boolean b => .ok (.boolean b)
  | integer i => .ok (.integer i)
  | float x =>
    if x.isNaN then .error .indexNaN
    else
      match x.toInt? with
      | some i => if i.natAbs < Nat.pow 2 63 then .ok (.integer (.ofInt i)) else .ok (.float x)
      | none => .ok (.float x)
  | string s => .ok (.string s)
  | other => .error (.badIndex other.typeName)

/-- Equality as code in a context sees it. -/
def same : Value → Value → Bool
  | nil, nil => true
  | boolean a, boolean b => a == b
  | integer a, integer b => a == b
  | float a, float b => a.same b
  | integer a, float b | float b, integer a => (Binary64.ofInt a.toInt).same b
  | string a, string b => a == b
  | table a, table b => a == b
  | shared a, shared b => a == b
  | function f, function g => f.same g
  | _, _ => false

end Value

end Workers
