import Workers.Control.Basic
/-! # Safe points of a worker

A worker looks at its control at two kinds of safe points.  A tick obeys every command and waits
while it is paused; an interruption point only looks for a cancellation.  Both are cut into single
steps, each of which reads the shutdown flag, or takes the lock of the control once, or is the wait
for the next command.
-/
namespace Workers

inductive CheckKind where
  | tick
  | point
  deriving DecidableEq, Inhabited

/-- The program points of the two checks. -/
inductive Check where
  | tickShutdown
  | tickCommand
  | acknowledge
  | awaitCommand
  | reconsider
  | resume
  | pointShutdown
  | pointCommand
  | stop
  deriving DecidableEq, Inhabited

inductive CheckMove where
  | goto (next : Check) (control : Control)
  | finish (stopped : Bool) (control : Control)
  | blocked

namespace Check

def start : CheckKind → Check
  | .tick => tickShutdown
  | .point => pointShutdown

/-- One step, given whether a shutdown has been requested. -/
def step (shutdown : Bool) (c : Control) : Check → CheckMove
  | tickShutdown => .goto (if shutdown then stop else tickCommand) c
  | tickCommand =>
    match c.command with
    | .run => .finish false c
    | .cancel => .goto stop c
    | .pause => .goto acknowledge c
  | acknowledge => .goto awaitCommand c.acknowledgePause
  | awaitCommand => if c.commandChanged.latched then .goto reconsider c else .blocked
  | reconsider =>
    match c.command with
    | .run => .goto resume c
    | .cancel => .goto stop c
    | .pause => .goto acknowledge c
  | resume => .finish false (c.changeStatus .running)
  | pointShutdown => .goto (if shutdown then stop else pointCommand) c
  | pointCommand =>
    match c.command with
    | .cancel => .goto stop c
    | .run | .pause => .finish false c
  | stop => .finish true (c.changeStatus .canceled)

end Check

end Workers
