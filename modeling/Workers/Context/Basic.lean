import Workers.Capture
/-! # Contexts

A context is one instance of the interpreter.  It reports to a hook every so many instructions,
remembers that a check has signalled stop, describes escaping faults through its error handler,
and keeps the shared entries it has checked out alive until it is destroyed.
-/
namespace Workers

/-- The position of a worker handle, and of a gauge. -/
abbrev WorkerId := Nat

abbrev GaugeId := Nat

/-- What a context reports to: the handle of a worker, or a gauge that counts. -/
inductive Hook where
  | worker (id : WorkerId)
  | gauge (id : GaugeId)
  deriving DecidableEq, Inhabited

/-- Describes an escaping fault, given the frames that it unwound from the inside out. -/
abbrev ErrorHandler := Fault → List String → String

structure Context where
  number : Nat
  registry : RegistryId
  path : String := ""
  cpath : String := ""
  hook : Option Hook := none
  hookStep : UInt32 := 0
  executed : UInt32 := 0
  stopping : Bool := false
  handler : Option ErrorHandler := none
  references : List EntryId := []
  destroyed : Bool := false

instance : Inhabited Context := ⟨{ number := 0, registry := 0 }⟩

/-- The message followed by the unwound frames. -/
def traceback : ErrorHandler := fun fault frames =>
  String.join (fault.message :: "\nstack traceback:" :: frames.map ("\n\t" ++ ·))

/-- What counting an instruction asks for. -/
inductive Count where
  | stop
  | pass
  | tick
  deriving DecidableEq

namespace Context

def holder (c : Context) : Holder := .context c.number

def create (s : Store) (registry : RegistryId) : Context × Store :=
  let (number,s) := s.nextNumber registry
  ({ number, registry },s)

def text (c : Context) : String :=
  s!"Context \x7b id: {c.number}, hook_step: {c.hookStep.toNat}, " ++
    s!"references: {c.references.length}, destroyed: {c.destroyed} \x7d"

/-- A step of zero leaves only explicit checks. -/
def setHook (c : Context) (hook : Hook) (step : UInt32) : Context :=
  { c with hook := some hook, hookStep := step, executed := 0 }

/-- The fault as the handler, if there is one, describes it. -/
def handleFault (c : Context) (fault : Fault) (frames : List String) : Fault :=
  match c.handler with
  | some handler => .handled (handler fault frames)
  | none => fault

/-- Counts one instruction; every `hookStep` of them the hook is due. -/
def countInstruction (c : Context) : Count × Context :=
  if c.stopping then (.stop,c)
  else if c.hookStep = 0 then (.pass,c)
  else
    let executed := c.executed + 1
    if executed < c.hookStep then (.pass,{ c with executed })
    else (.tick,{ c with executed := 0 })

def observe (c : Context) (stopped : Bool) : Context :=
  if stopped then { c with stopping := true } else c

/-- Checks an entry out until the context is destroyed. -/
def addReference (c : Context) (s : Store) (id : EntryId) : Except Fault (Context × Store) :=
  if id ∈ c.references then .ok (c,s)
  else (s.addReference c.registry id c.holder).map fun s =>
    ({ c with references := c.references ++ [id] },s)

/-- Materializes a stored object in the context; a table is checked out. -/
def load (c : Context) (s : Store) (object : Stored) : Except Fault (Value × Context × Store) :=
  match object with
  | .nil => .ok (.nil,c,s)
  | .boolean b => .ok (.boolean b,c,s)
  | .integer i => .ok (.integer i,c,s)
  | .float x => .ok (.float x,c,s)
  | .string t => .ok (.string t,c,s)
  | .function f => .ok (.function f,c,s)
  | .shared h =>
    (object.checkRegistry c.registry).bind fun _ =>
      (c.addReference s h.entry).map fun (c,s) => (.shared h.entry,c,s)

/-- Gives up the hook, the error handler and all references; only the first time does anything. -/
def destroy (c : Context) (s : Store) : Context × Store :=
  if c.destroyed then (c,s)
  else
    ({ c with destroyed := true, hook := none, handler := none, references := [] },
      s.releaseAll c.registry c.holder c.references)

end Context

end Workers
