/-! # Structured data

Null, booleans, numbers, strings, arrays and objects, with the readers that wire forms are put
together from.  Integers are told apart from other numbers, which are kept as they are written.
-/
namespace Workers

inductive Wire where
  | null
  | boolean (b : Bool)
  | integer (n : Int)
  /-- A number that is not written as an integer. -/
  | fraction (numeral : String)
  | string (s : String)
  | array (items : List Wire)
  | object (fields : List (String × Wire))
  deriving Inhabited

namespace Wire

def isNull : Wire → Bool
  | null => true
  | _ => false

def string? : Wire → Option String
  | string s => some s
  | _ => none

def boolean? : Wire → Option Bool
  | boolean b => some b
  | _ => none

def integer? : Wire → Option Int
  | integer n => some n
  | _ => none

/-- The items of an array; anything else has none. -/
def items : Wire → List Wire
  | array items => items
  | _ => []

def field? (name : String) : Wire → Option Wire
  | object fields => fields.lookup name
  | _ => none

/-- A choice without content: its name, or an object that maps its name to null. -/
def choice? {α : Type} (all : List α) (name : α → String) : Wire → Option α
  | string s => all.find? fun a => name a = s
  | object [(s,content)] => if content.isNull then all.find? fun a => name a = s else none
  | _ => none

/-- An integer from zero up to, but not including, a limit. -/
def natural? (limit : Nat) : Wire → Option Nat
  | integer n => if 0 ≤ n ∧ n < limit then some n.toNat else none
  | _ => none

def word32? (w : Wire) : Option UInt32 := (w.natural? UInt32.size).map UInt32.ofNat

/-- A field that may be left out, but must have the right form if it is there. -/
def fieldOr {α : Type} (fields : List (String × Wire)) (name : String) (read : Wire → Option α)
    (absent : α) : Option α :=
  match fields.lookup name with
  | some content => read content
  | none => some absent

/-- An item that may be missing at the end of an array. -/
def itemOr {α : Type} (items : List Wire) (i : Nat) (read : Wire → Option α) (absent : α) :
    Option α :=
  match items[i]? with
  | some content => read content
  | none => some absent

end Wire

end Workers
