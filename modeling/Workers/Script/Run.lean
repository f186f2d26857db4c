import Workers.Call.Library
import Workers.Call.Sleep
import Workers.Script.Basic
/-! # Running scripts

An activation is a run of the code of a script: its arguments, its variables, the position, and the
names that wait for the values of a call.  Executing an instruction is an act, whose effect a script
and a native body put to use each in its own way.
-/
namespace Workers.Script

structure Activation where
  code : Array Instruction
  arguments : List Value
  bindings : List (String × Value) := []
  position : Nat := 0
  awaited : List String := []
  repeated : Nat := 0

/-- A script in progress; one without a label describes itself as any runnable does. -/
structure Runner where
  label : Option String
  reaction : Reaction
  activation : Activation

def notFunction : Fault := .invalidType "not a function"

def rejected : Fault := .raised "rejected"

namespace Activation

def get (a : Activation) (x : String) : Value := (a.bindings.lookup x).getD .nil

def set (a : Activation) (x : String) (v : Value) : Activation :=
  { a with bindings := (x,v) :: a.bindings.filter fun e => e.1 ≠ x }

/-- Gives the awaited names their values, nil where there are none left, and the name `#` the
number of values. -/
def bind (a : Activation) (values : List Value) : Activation :=
  let a := a.set "#" (.integer (.ofInt values.length))
  let a := (a.awaited.zipIdx).foldl (fun a (x,i) => a.set x (values[i]?.getD .nil)) a
  { a with awaited := [] }

end Activation

/-- An act that may end in a fault. -/
abbrev Attempt := ExceptT Fault Act

def attempt {α : Type} (a : Act (Except Fault α)) : Attempt α := a

def Operand.eval (a : Activation) : Operand → Attempt Value
  | literal v => pure v
  | named x => pure (a.get x)
  | argument i => pure (a.arguments[i]?.getD .nil)
  | emptyTable => ExceptT.lift (Act.ask .newTable)
  | entered t k c => do
    let t ← t.eval a
    let k ← k.eval a
    let c ← c.eval a
    attempt (Act.ask (.set t k c))
    pure t

def evalAll (a : Activation) : List Operand → Attempt (List Value)
  | [] => pure []
  | o :: rest => do
    let v ← o.eval a
    let rest ← evalAll a rest
    pure (v :: rest)

inductive Effect where
  | next
  | stay
  | finish (values : List Value)
  | call (routine : Routine) (arguments : List Value)
  | fault (fault : Fault)
  | stop

/-- The effect of an attempt that leaves an activation to go on with. -/
def settle (a : Activation) (result : Attempt Activation) : Act (Activation × Effect) := do
  match ← result.run with
  | .ok a => pure (a,.next)
  | .error fault => pure (a,.fault fault)

def checked (a : Activation) (check : Act Bool) : Act (Activation × Effect) := do
  if ← check then pure (a,.stop) else pure (a,.next)

def evalOptional (a : Activation) : Option Operand → Attempt (Option Value)
  | none => pure none
  | some o => do
    let v ← o.eval a
    pure (some v)

/-- Executes an instruction.  A call is only an effect so far, and nothing comes of it if it is
swallowed. -/
def Instruction.execute (a : Activation) : Instruction → Act (Activation × Effect)
  | nop times =>
    if a.repeated + 1 < times then pure ({ a with repeated := a.repeated + 1 },.stay)
    else pure ({ a with repeated := 0 },.next)
  | spin => pure (a,.stay)
  | gate n => do
    if ← Act.ask (.isNotified n) then pure (a,.next) else pure (a,.stay)
  | notify n => do
    let _ ← Act.ask (.notify n)
    pure (a,.next)
  | jump position => pure ({ a with position },.next)
  | jumpIfEqual x y position => settle a do
    let x ← x.eval a
    let y ← y.eval a
    pure (if x.same y then { a with position } else a)
  | assign x v => settle a do
    let v ← v.eval a
    pure (a.set x v)
  | newShared x => do
    let v ← Act.ask .newShared
    pure (a.set x v,.next)
  | get x t k => settle a do
    let t ← t.eval a
    let k ← k.eval a
    let v ← attempt (Act.ask (.get t k))
    pure (a.set x v)
  | set t k v => settle a do
    let t ← t.eval a
    let k ← k.eval a
    let v ← v.eval a
    attempt (Act.ask (.set t k v))
    pure a
  | length x t => settle a do
    let t ← t.eval a
    let n ← attempt (Act.ask (.length t))
    pure (a.set x (.integer (.ofInt n)))
  | equal x l r => settle a do
    let l ← l.eval a
    let r ← r.eval a
    pure (a.set x (.boolean (l.same r)))
  | typeName x v => settle a do
    let v ← v.eval a
    pure (a.set x (.string v.typeName))
  | share x v => settle a do
    let v ← v.eval a
    let v ← attempt (Act.ask (.share v))
    pure (a.set x v)
  | paths x y => do
    let (path,cpath) ← Act.ask .paths
    pure ((a.set x (.string path)).set y (.string cpath),.next)
  | hookStep x => do
    let n ← Act.ask .hookStep
    pure (a.set x (.integer (.ofInt n.toNat)),.next)
  | destroy => do
    let _ ← Act.ask .destroy
    pure (a,.next)
  | yieldNow => checked a Act.yieldNow
  | interruptionPoint => checked a Act.interruptionPoint
  | sleep duration metric => do
    let arguments : Attempt (Option Value × Option Value) := do
      let duration ← evalOptional a duration
      let metric ← evalOptional a metric
      pure (duration,metric)
    match ← arguments.run with
    | .error fault => pure (a,.fault fault)
    | .ok (duration,metric) =>
      match ← Act.sleep duration metric with
      | .ok _ => pure (a,.next)
      | .error .stop => pure (a,.stop)
      | .error (.fault fault) => pure (a,.fault fault)
  | raise e => pure (a,.fault e)
  | stop => pure (a,.stop)
  | swallow i => do
    let (a,_) ← i.execute a
    pure (a,.next)
  | panic payload => .panic payload.description
  | finish values => do
    match ← (evalAll a values).run with
    | .ok values => pure (a,.finish values)
    | .error fault => pure (a,.fault fault)
  | finishArguments => pure (a,.finish a.arguments)
  | call names routine arguments => do
    let operands : Attempt (List Value × Value) := do
      let arguments ← evalAll a arguments
      let routine ← routine.eval a
      pure (arguments,routine)
    match ← operands.run with
    | .error fault => pure (a,.fault fault)
    | .ok (arguments,.function f) => pure ({ a with awaited := names },.call f arguments)
    | .ok _ => pure (a,.fault notFunction)

/-- Executes the instruction at the position, with the position already past it; one that stays
puts the position back. -/
def Activation.execute (a : Activation) : Act (Activation × Effect) :=
  match a.code[a.position]? with
  | none => pure (a,.finish [])
  | some i => do
    let (b,effect) ← i.execute { a with position := a.position + 1 }
    match effect with
    | .stay => pure ({ b with position := a.position },.stay)
    | effect => pure (b,effect)

namespace Runner

/-- One step of a script: a call pushes the callee. -/
def step (load : Routine → List Value → Except Fault (Frame Runner Activation)) (r : Runner) :
    Act (Runner × Move (Frame Runner Activation)) := do
  let (activation,effect) ← r.activation.execute
  let r := { r with activation }
  match effect with
  | .next | .stay => pure (r,.proceed)
  | .finish values => pure (r,.finish values)
  | .fault fault => pure (r,.fault fault)
  | .stop => pure (r,.stop)
  | .call f arguments =>
    match load f arguments with
    | .ok frame => pure (r,.launch frame)
    | .error fault => pure (r,.fault fault)

def receive (r : Runner) (outcome : Except Fault (List Value)) : Reception Runner :=
  let bound := fun values => ({ r with activation := r.activation.bind values },.ok ())
  match r.reaction, outcome with
  | .accept, .ok values | .catch, .ok values | .rename, .ok values => bound values
  | .reject, .ok _ => (r,.error rejected)
  | .catch, .error fault => bound [.string fault.message]
  | .rename, .error fault => (r,.error (fault.inOperation (r.label.getD "")))
  | .accept, .error fault | .reject, .error fault => (r,.error fault)
  | .standard, outcome => (r,refuse outcome)

def describe (r : Runner) : String := r.label.getD "<runnable>"

end Runner

/-- The next instruction of a native body, which makes its calls within it.  One that stays naps for
a millisecond first. -/
def stretch (a : Activation) : Act (Activation × Stretch) := do
  let (a,effect) ← a.execute
  match effect with
  | .next => pure (a,.again)
  | .stay => do
    if ← Act.sleepFor (.ofMillis 1) then pure (a,.stop) else pure (a,.again)
  | .finish values => pure (a,.finish values)
  | .call f arguments =>
    .call f arguments fun
      | .ok values => .done (a.bind values,.again)
      | .error .stop => .done (a,.stop)
      | .error (.fault fault) => .done (a,.fault fault)
  | .stop => pure (a,.stop)
  | .fault fault => pure (a,.fault fault)

def load (definitions : Array Definition) (f : Routine) (arguments : List Value) :
    Except Fault (Frame Runner Activation) :=
  match definitions[f.loader]? with
  | some (.native name code) => .ok (.native name (some { code, arguments }))
  | some (.script label reaction code) =>
    .ok (.own { label, reaction, activation := { code, arguments } })
  | some (.guarded routine) => .ok (.guarded routine (.launch arguments))
  | some (.refusing fault) => .error fault
  | none => .error .brokenReference

/-- The library of a list of definitions, each found by the loader of its routine. -/
def library (definitions : Array Definition) : Library Runner Activation where
  load := load definitions
  step := Runner.step (load definitions)
  receive r outcome := pure (r.receive outcome)
  describe := Runner.describe
  body := stretch

end Workers.Script
