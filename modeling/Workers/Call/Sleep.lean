import Workers.Call.Act
/-! # Sleeping and yielding

The library calls that give others a turn.  A bare check answers whether a stop was signalled.  A
sleep makes a notifier of its own the target of the hook, so that a cancellation can wake it, looks
for a cancellation before it waits and again afterwards, and puts the target before it back.
-/
namespace Workers

namespace Fault

def badSleepArgument (position : Nat) (reason : String) : Fault :=
  .detailed s!"bad argument #{position} to 'onion.sleep' ({reason})"

end Fault

namespace Act

def interruptionPoint : Act Bool := check .point done

def yieldNow : Act Bool := check .tick done

def countInstruction : Act Bool := do
  match ← ask .count with
  | .stop => pure true
  | .pass => pure false
  | .tick => yieldNow

def orStop (a : Act Bool) : Act (Except Unwind Unit) := do
  if ← a then pure (.error .stop) else pure (.ok ())

/-- Sleeps for a time unless the worker is cancelled first. -/
def sleepFor (d : Duration) : Act Bool := do
  let notifier ← ask .newNotifier
  let previous ← ask (.retarget (some notifier))
  let stopped ← interruptionPoint
  let stopped ← if stopped then pure true else do
    let _ ← wait notifier d done
    interruptionPoint
  let _ ← ask (.retarget previous)
  pure stopped

/-- The duration and the unit that the arguments of a sleep stand for; none if there is no
duration. -/
def sleepArguments (duration metric : Option Value) : Except Fault (Option Duration) :=
  match duration with
  | none | some .nil => .ok none
  | some value =>
    match value.asInteger with
    | none => .error (.badSleepArgument 1 ("number expected, got " ++ value.typeName))
    | some n =>
      let unit : Except Fault (Option String) := match metric with
        | none | some .nil => .ok none
        | some value =>
          match value.asString with
          | some unit => .ok (some unit)
          | none => .error (.badSleepArgument 2 ("string expected, got " ++ value.typeName))
      unit.bind fun unit =>
        match Duration.ofInterval n unit with
        | .ok d => .ok (some d)
        | .error fault => .error (.badSleepArgument 1 fault.message)

/-- A sleep with arguments as user code gives them; without a duration it is a yield. -/
def sleep (duration metric : Option Value) : Act (Except Unwind Unit) :=
  match sleepArguments duration metric with
  | .error fault => pure (.error (.fault fault))
  | .ok none => yieldNow.orStop
  | .ok (some d) => (sleepFor d).orStop

end Act

end Workers
