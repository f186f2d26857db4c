import Workers.World.Basic
/-! # Starting workers

Starting a worker counts it in before it looks at the shutdown flag, so that a shutdown either sees
the worker or refuses it.  The arguments move under the handle one by one; a failure gives back
everything.
-/
namespace Workers

namespace Fault

def shuttingDown : Fault := .invalidOperation "onion.thread: runtime is shutting down"

def foreignContext : Fault :=
  .invalidOperation "onion.thread: context belongs to a different runtime"

def badArgument (position : Nat) (fault : Fault) : Fault :=
  .detailed s!"onion.thread: bad argument #{position} ({fault.message})"

end Fault

namespace World

/-- Moves arguments under a handle, in order.  At the first one refused, those after it are dropped
and its position is reported. -/
def adoptAll (w : World) (h : WorkerId) (position : Nat) :
    List Stored → Except Fault (List Stored) × World
  | [] => (.ok [],w)
  | object :: rest =>
    match w.adopt h object with
    | (.ok object,w) =>
      let (outcome,w) := w.adoptAll h (position + 1) rest
      (outcome.map (object :: ·),w)
    | (.error fault,w) => (.error (.badArgument position fault),w.setStore (w.store.drop rest))

/-- Writes a configuration into the context of a handle that is about to start. -/
def configure (w : World) (h : WorkerId) (config : Config) : World :=
  match (w.handle h).context with
  | none => w
  | some c =>
    let context := w.context c
    let w := w.setContext c { context with path := config.path, cpath := config.cpath }
    let w := w.setHook c (.worker h) config.step
    if config.traceback then
      w.setContext c { w.context c with handler := some traceback }
    else w

/-- Remembers a handle as one to cancel at shutdown, and forgets those that are gone. -/
def track (w : World) (p : PoolId) (h : WorkerId) : World :=
  let pool := w.pool p
  let alive := pool.tracked.filter fun h => 0 < (w.handle h).owners
  w.setPool p { pool with tracked := alive ++ [h] }

/-- Prepares a worker: its handle, owned by the caller and by the worker, and the arguments for it.
The worker is counted in. -/
def prepare (w : World) (p : PoolId) (config : Config) (arguments : List Stored) :
    Except Fault (WorkerId × List Stored) × World :=
  let w := w.enter p
  if (w.pool p).requested then
    (.error .shuttingDown,(w.setStore (w.store.drop arguments)).leave p)
  else
    let (h,w) := w.addHandle p
    match w.adoptAll h 1 arguments with
    | (.error fault,w) => (.error fault,(w.disown h).leave p)
    | (.ok adopted,w) => (.ok (h,adopted),((w.configure h config).own h).track p h)

end World

/-- A routine with a configuration, ready to be started any number of times. -/
structure Launcher where
  pool : PoolId
  routine : Routine
  config : Config

namespace Launcher

def ofRoutine (pool : PoolId) (routine : Routine) : Launcher :=
  { pool, routine, config := .standard }

/-- A launcher that searches modules where a context does. -/
def inherit (pool : PoolId) (context : Context) (routine : Routine) : Launcher :=
  { pool, routine, config := { Config.standard with path := context.path, cpath := context.cpath } }

end Launcher

namespace World

/-- Captures values in order as arguments for a start, one capture for all.  A failure drops those
before it and reports its position. -/
def captureArguments (w : World) (capture : Capture) (position : Nat) (done : List Stored) :
    List Value → Except Fault (List Stored) × World
  | [] => (.ok done,w.setStore (capture.finish w.store))
  | value :: rest =>
    match capture.store w.store w.memory.heap value with
    | (.ok object,capture,store) =>
      (w.setStore store).captureArguments capture (position + 1) (done ++ [object]) rest
    | (.error fault,capture,store) =>
      (.error (.badArgument position fault),w.setStore (capture.finish (store.drop done)))

/-- Captures the arguments of a launch from a context, which must be one of the launcher's pool. -/
def launchArguments (w : World) (l : Launcher) (c : ContextId) (arguments : List Value) :
    Except Fault (List Stored) × World :=
  let registry := (w.context c).registry
  if registry ≠ (w.pool l.pool).registry then (.error .foreignContext,w)
  else w.captureArguments { registry } 1 [] arguments

end World

end Workers
