import Workers.Fault
import Workers.World.Basic
/-! # Scripts

Routines given as lists of instructions.  A script executes one instruction per step; a native
routine executes all of them within one step, and calls where a script would push a child.
-/
namespace Workers.Script

/-- What an instruction computes with: a value, a variable, an argument, or a new local table with
entries made in order. -/
inductive Operand where
  | literal (v : Value)
  | named (x : String)
  | argument (i : Nat)
  | emptyTable
  | entered (into key content : Operand)

/-- What code panics with: a text, or something that is none. -/
inductive PanicPayload where
  | text (s : String)
  | object

def PanicPayload.description : PanicPayload → String
  | text s => s
  | object => "unknown panic"

inductive Instruction where
  | nop (times : Nat)
  | spin
  | gate (n : NotifierId)
  | notify (n : NotifierId)
  | jump (position : Nat)
  | jumpIfEqual (a b : Operand) (position : Nat)
  | assign (x : String) (v : Operand)
  | newShared (x : String)
  | get (x : String) (table key : Operand)
  | set (table key v : Operand)
  | length (x : String) (table : Operand)
  | equal (x : String) (a b : Operand)
  | typeName (x : String) (v : Operand)
  | share (x : String) (v : Operand)
  | paths (x y : String)
  | hookStep (x : String)
  | destroy
  | yieldNow
  | interruptionPoint
  | sleep (duration metric : Option Operand)
  | raise (fault : Fault)
  | stop
  | swallow (i : Instruction)
  | panic (payload : PanicPayload)
  | finish (values : List Operand)
  | finishArguments
  | call (names : List String) (routine : Operand) (arguments : List Operand)

inductive Reaction where
  | accept
  | reject
  | catch
  | rename
  /-- The reaction of a runnable that has none of its own. -/
  | standard
  deriving DecidableEq

/-- The definition that loading a routine follows. -/
inductive Definition where
  | native (name : String) (code : Array Instruction)
  | script (label : Option String) (reaction : Reaction) (code : Array Instruction)
  | guarded (routine : Routine)
  | refusing (fault : Fault)

end Workers.Script
