import Workers.Call.Act
/-! # Scheduling a stack of runnables

A scheduler advances the runnable on top of its stack step by step.  Before each step it counts an
instruction; a step may push a child, and what becomes of the child is offered to its parent.  A
fault that a parent does not take unwinds the parent too, and one that nobody takes escapes with
the descriptions of the frames it unwound.

The functions here decide what comes next.  Counting, stepping and receiving themselves are left
to whoever runs the scheduler.
-/
namespace Workers

inductive Move (F : Type) where
  /-- The step is not over; it goes on from the frame as it is now. -/
  | again
  | proceed
  | launch (child : F)
  | finish (values : List Value)
  | fault (fault : Fault)
  | stop

/-- What a scheduler has to do next.  Stacks are listed from the top. -/
inductive Turn (F : Type) where
  | count (stack : List F)
  | step (active : F) (below : List F)
  | offer (parent : F) (below : List F) (outcome : Except Fault (List Value))
      (unwound : List String)
  | escape (fault : Fault) (unwound : List String)
  | ended (outcome : Outcome) (left : List F)

def Fault.noRunnable : Fault := .detailed "No runnable in stack"

namespace Turn

variable {F : Type}

/-- A stop that counting brings up leaves the stack as it is. -/
def afterCount (stopped : Bool) (stack : List F) : Turn F :=
  if stopped then .ended (.error .stop) stack
  else
    match stack with
    | [] => .ended (.error (.fault .noRunnable)) []
    | active :: below => .step active below

/-- Takes a frame off and offers the fault to the one below. -/
def unwind (describe : F → String) (fault : Fault) (failed : F) (below : List F)
    (unwound : List String) : Turn F :=
  let unwound := unwound ++ [describe failed]
  match below with
  | [] => .escape fault unwound
  | parent :: below => .offer parent below (.error fault) unwound

/-- A stop that the context has seen during the step clears the stack, whatever the step made of
it. -/
def afterStep (describe : F → String) (stopping : Bool) (active : F) (move : Move F)
    (below : List F) : Turn F :=
  match move with
  | .again => .step active below
  | move =>
    if stopping then .ended (.error .stop) []
    else
      match move with
      | .again | .proceed => .count (active :: below)
      | .launch child => .count (child :: active :: below)
      | .finish values =>
        match below with
        | [] => .ended (.ok values) []
        | parent :: below => .offer parent below (.ok values) []
      | .fault fault => unwind describe fault active below []
      | .stop => .ended (.error .stop) []

/-- A parent that takes what it is offered is on top again. -/
def afterReceive (describe : F → String) (parent : F) (accepted : Except Fault Unit)
    (below : List F) (unwound : List String) : Turn F :=
  match accepted with
  | .ok _ => .count (parent :: below)
  | .error fault => unwind describe fault parent below unwound

end Turn

namespace Scheduler

def format {F : Type} (describe : F → String) (stack : List F) : String :=
  if stack.isEmpty then "Scheduler: No active runnables."
  else
    String.intercalate "\n\n" (stack.mapIdx fun i f => s!"--- Frame #{i} ---\n{describe f}")

end Scheduler

end Workers
