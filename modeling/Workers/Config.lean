import Workers.Text.Quoted
/-! # Worker configuration

The module search paths of a worker, the number of instructions between two hook calls, and
whether escaping faults carry a traceback.
-/
namespace Workers

structure Config where
  path : String
  cpath : String
  step : UInt32
  traceback : Bool
  deriving DecidableEq, Inhabited

namespace Config

def defaultPath : String := "./?.onion;./?/init.onion"

def defaultCpath : String := "./?.so"

def defaultStep : UInt32 := 200

/-- The variables of the environment that override the default paths. -/
def pathVariable : String := "ONION_PATH"

def cpathVariable : String := "ONION_CPATH"

def ofLookup (lookup : String → Option String) : Config where
  path := (lookup pathVariable).getD defaultPath
  cpath := (lookup cpathVariable).getD defaultCpath
  step := defaultStep
  traceback := false

def standard : Config := ofLookup fun _ => none

inductive Setting where
  | path (s : String)
  | cpath (s : String)
  | step (n : UInt32)
  | traceback (b : Bool)

def apply (c : Config) : Setting → Config
  | .path s => { c with path := s }
  | .cpath s => { c with cpath := s }
  | .step n => { c with step := n }
  | .traceback b => { c with traceback := b }

def text (c : Config) : String :=
  s!"ThreadConfig \x7b path: {Text.quoted c.path}, cpath: {Text.quoted c.cpath}, " ++
    s!"step: {c.step.toNat}, traceback: {c.traceback} \x7d"

end Config

end Workers
