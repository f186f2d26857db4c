import Workers.Call.Scheduler
/-! # Libraries of routines

A library says what loading a routine gives and how its own code behaves: runnables that step one
instruction at a time, and native bodies that run through within one step.  On top of these come
protected calls, which turn whatever becomes of a routine into values.
-/
namespace Workers

/-- Where a protected call is: before its callee, during it, or with the values to return. -/
inductive Protection where
  | launch (arguments : List Value)
  | waiting
  | finished (values : List Value)

/-- A runnable: one of the user's own, a native call with the state of its body as long as the call
has not been made, or a protected call. -/
inductive Frame (U N : Type) where
  | own (u : U)
  | native (name : String) (body : Option N)
  | guarded (routine : Routine) (phase : Protection)

/-- What a stretch of a native body amounts to. -/
inductive Stretch where
  | again
  | finish (values : List Value)
  | fault (fault : Fault)
  | stop

/-- What an offer to a runnable leaves: the runnable and whether it takes the offer. -/
abbrev Reception (F : Type) := F × Except Fault Unit

structure Library (U N : Type) where
  load : Routine → List Value → Except Fault (Frame U N)
  step : U → Act (U × Move (Frame U N))
  receive : U → Except Fault (List Value) → Act (Reception U)
  describe : U → String
  body : N → Act (N × Stretch)

namespace Fault

def notReceived : Fault := .detailed "receive not implemented"

def nativeReturned (name : String) : Fault := .step s!"native function '{name}' already returned"

def protectedWaiting : Fault := .step "protected call stepped while waiting for its callee"

end Fault

/-- What a runnable without a reception of its own does: it takes no values and passes faults on. -/
def refuse : Except Fault (List Value) → Except Fault Unit
  | .ok _ => .error .notReceived
  | .error fault => .error fault

/-- The values of a protected call that failed. -/
def Protection.failure (fault : Fault) : List Value := [.boolean false,.string fault.message]

/-- The values of a protected call, given what became of its callee. -/
def Protection.values : Except Fault (List Value) → List Value
  | .ok values => .boolean true :: values
  | .error fault => failure fault

namespace Library

variable {U N : Type}

def advance (lib : Library U N) : Frame U N → Act (Frame U N × Move (Frame U N))
  | .own u => do
    let (u,move) ← lib.step u
    pure (.own u,move)
  | .native name none => pure (.native name none,.fault (.nativeReturned name))
  | .native name (some n) => do
    let (n,stretch) ← lib.body n
    match stretch with
    | .again => pure (.native name (some n),.again)
    | .finish values => pure (.native name none,.finish values)
    | .fault fault => pure (.native name none,.fault fault)
    | .stop => pure (.native name none,.stop)
  | .guarded f (.launch arguments) =>
    match lib.load f arguments with
    | .ok child => pure (.guarded f .waiting,.launch child)
    | .error fault => pure (.guarded f .waiting,.finish (Protection.failure fault))
  | .guarded f .waiting => pure (.guarded f .waiting,.fault .protectedWaiting)
  | .guarded f (.finished values) => pure (.guarded f .waiting,.finish values)

def accept (lib : Library U N) (outcome : Except Fault (List Value)) :
    Frame U N → Act (Reception (Frame U N))
  | .own u => do
    let (u,accepted) ← lib.receive u outcome
    pure (.own u,accepted)
  | .native name body => pure (.native name body,refuse outcome)
  | .guarded f _ => pure (.guarded f (.finished (Protection.values outcome)),.ok ())

def describeFrame (lib : Library U N) : Frame U N → String
  | .own u => lib.describe u
  | .native name _ => "-> Executing Native Function: " ++ name
  | .guarded f _ => s!"-> Protected call of '{f.name}'"

end Library

end Workers
