import Workers.Script.Basic
import Workers.Wire.Forms
/-! # The wire form of scripts

An instruction is an array of its name and its operands.  An operand is a scalar, or an object that
names a variable (`v`), an argument (`a`) or a routine (`fn`), or lists the entries of a new table
(`t`).
-/
namespace Workers.Script

/-- What the names in a script stand for, and what becomes of a form that is none. -/
structure Scope (m : Type → Type) where
  routine : String → m Routine
  gate : String → m NotifierId
  malformed : {α : Type} → Wire → m α

namespace Scope

variable {m : Type → Type} [Monad m] {α : Type}

def require (s : Scope m) (w : Wire) : Option α → m α
  | some a => pure a
  | none => s.malformed w

def routineOf (s : Scope m) (w : Wire) : m Routine := do
  s.routine (← s.require w w.string?)

end Scope

variable {m : Type → Type} [Monad m]

mutual

def Operand.ofWire (s : Scope m) (w : Wire) : m Operand :=
  match w with
  | .object [("v",.string x)] => pure (.named x)
  | .object [("a",.integer i)] => pure (.argument i.toNat)
  | .object [("fn",.string f)] => do
    let f ← s.routine f
    pure (.literal (.function f))
  | .object [("t",.array entries)] => Operand.tableOfWire s .emptyTable entries
  | w => do
    let v ← s.require w (Value.ofWire? w)
    pure (.literal v)

/-- Enters what a list of pairs says. -/
def Operand.tableOfWire (s : Scope m) (t : Operand) (entries : List Wire) : m Operand :=
  match entries with
  | [] => pure t
  | .array [key,content] :: rest => do
    let key ← Operand.ofWire s key
    let content ← Operand.ofWire s content
    Operand.tableOfWire s (.entered t key content) rest
  | w :: _ => s.malformed w

end

/-- The operation of an instruction that has only plain operands. -/
def Instruction.plain? (name : String) (operands : List Wire) : Option Instruction :=
  match name, operands with
  | "nop", [] => some (.nop 1)
  | "nop", [.integer n] => some (.nop n.toNat)
  | "spin", [] => some .spin
  | "jmp", [.integer position] => some (.jump position.toNat)
  | "shared", [.string x] => some (.newShared x)
  | "paths", [.string x,.string y] => some (.paths x y)
  | "step_size", [.string x] => some (.hookStep x)
  | "destroy", [] => some .destroy
  | "yield", [] => some .yieldNow
  | "interrupt", [] => some .interruptionPoint
  | "error", [fault] => (Fault.ofWire? fault).map .raise
  | "stop", [] => some .stop
  | "panic", [.string "static"] => some (.panic (.text "static panic"))
  | "panic", [.string "any"] => some (.panic .object)
  | "panic", [.string "dyn",.string text] => some (.panic (.text text))
  | "return_args", [] => some .finishArguments
  | _, _ => none

/-- The instruction that a name and operands form. -/
def Instruction.ofWire (s : Scope m) (w : Wire) : m Instruction :=
  let operand := Operand.ofWire s
  match w with
  | .array [.string "swallow",i] => do
    let i ← Instruction.ofWire s i
    pure (.swallow i)
  | .array (.string name :: operands) =>
    match name, operands with
    | "gate", [.string n] => return .gate (← s.gate n)
    | "notify", [.string n] => return .notify (← s.gate n)
    | "jeq", [a,b,.integer position] =>
      return .jumpIfEqual (← operand a) (← operand b) position.toNat
    | "let", [.string x,v] => return .assign x (← operand v)
    | "get", [.string x,t,k] => return .get x (← operand t) (← operand k)
    | "set", [t,k,v] => return .set (← operand t) (← operand k) (← operand v)
    | "len", [.string x,t] => return .length x (← operand t)
    | "eq", [.string x,a,b] => return .equal x (← operand a) (← operand b)
    | "type", [.string x,v] => return .typeName x (← operand v)
    | "share", [.string x,v] => return .share x (← operand v)
    | "sleep", [] => pure (.sleep none none)
    | "sleep", [d] => return .sleep (some (← operand d)) none
    | "sleep", [d,unit] => return .sleep (some (← operand d)) (some (← operand unit))
    | "return", [.array values] => return .finish (← values.mapM operand)
    | "call", [.array names,f,.array arguments] =>
      return .call (names.filterMap Wire.string?) (← operand f) (← arguments.mapM operand)
    | name, operands => s.require w (Instruction.plain? name operands)
  | w => s.malformed w

def Reaction.ofName? : Option String → Option Reaction
  | none | some "accept" => some .accept
  | some "reject" => some .reject
  | some "catch" => some .catch
  | some "prefix" => some .rename
  | some _ => none

/-- The definition of a routine: an object whose field `kind` says which sort it is. -/
def Definition.ofWire (s : Scope m) (name : String) (w : Wire) : m Definition := do
  let field := fun key => (w.field? key).getD .null
  let code := do
    let code ← (field "code").items.mapM (Instruction.ofWire s)
    pure code.toArray
  match field "kind" with
  | .string "native" => return .native name (← code)
  | .string "script" =>
    let reaction ← s.require w (Reaction.ofName? (field "recv").string?)
    return .script (some ((field "label").string?.getD name)) reaction (← code)
  | .string "plain" => return .script none .standard (← code)
  | .string "pcall" => return .guarded (← s.routineOf (field "of"))
  | .string "loadfail" => return .refusing (← s.require w (Fault.ofWire? (field "error")))
  | _ => s.malformed w

end Workers.Script
