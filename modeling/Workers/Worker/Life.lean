import Workers.Call.Strand
import Workers.Worker.Spawn
/-! # The life of a worker

A worker takes its context, loads its arguments, calls its routine, moves the results under its
handle and destroys the context, however the call ended.  Only then it publishes the results and
announces a final status.  A worker that was cancelled stays cancelled, whatever its code makes of
the stop.  It counts itself out last.
-/
namespace Workers

inductive Ending where
  | completed (results : List Stored)
  | stopped
  | failed (description : String)

inductive Stage (F : Type) where
  | starting (routine : Routine) (arguments : List Stored)
  | running (c : ContextId) (s : Strand F)
  | collecting (c : ContextId) (values : List Value)
  | destroying (c : ContextId) (e : Ending)
  | judging (e : Ending)
  | publishing (results : List Stored) (status : Status)
  | announcing (status : Status)
  | leaving
  | gone

structure Worker (F : Type) where
  handle : WorkerId
  stage : Stage F

namespace World

/-- Loads arguments in order, up to the first that fails. -/
def loadAll (w : World) (c : ContextId) : List Stored → Except Fault (List Value) × World
  | [] => (.ok [],w)
  | object :: rest =>
    match (w.context c).load w.store object with
    | .error fault => (.error fault,w)
    | .ok (value,context,store) =>
      let (outcome,w) := ((w.setStore store).setContext c context).loadAll c rest
      (outcome.map (value :: ·),w)

/-- Captures values in order and moves each under a handle, one capture for all. -/
def collect (w : World) (h : WorkerId) (capture : Capture) (done : List Stored) :
    List Value → Except Fault (List Stored) × World
  | [] => (.ok done,w.setStore (capture.finish w.store))
  | value :: rest =>
    match capture.store w.store w.memory.heap value with
    | (.error fault,capture,store) =>
      (.error fault,w.setStore (capture.finish (store.drop done)))
    | (.ok object,capture,store) =>
      match (w.setStore store).adopt h object with
      | (.ok object,w) => w.collect h capture (done ++ [object]) rest
      | (.error fault,w) => (.error fault,w.setStore (capture.finish (w.store.drop done)))

def setResult (w : World) (h : WorkerId) (results : List Stored) : World :=
  let handle := w.handle h
  let w := w.setHandle h { handle with result := results }
  w.setStore (w.store.drop handle.result)

end World

/-- What a worker that failed shows for results. -/
def failureResult (description : String) : List Stored := [.string "failed",.string description]

/-- The description of a worker whose code panicked. -/
def panicDescription (text : String) : String := "worker panicked: " ++ text

namespace Worker

variable {U N : Type}

def isGone (worker : Worker (Frame U N)) : Bool :=
  match worker.stage with
  | .gone => true
  | _ => false

def afterExit (c : ContextId) : Exit (Frame U N) → Stage (Frame U N)
  | .ended (.ok values) _ => .collecting c values
  | .ended (.error .stop) _ => .destroying c .stopped
  | .ended (.error (.fault fault)) _ => .destroying c (.failed fault.message)
  | .panicked text => .destroying c (.failed (panicDescription text))
  | .stepped .. | .received .. => .destroying c .stopped

def step (lib : Library U N) (w : World) (worker : Worker (Frame U N)) :
    Progress (Worker (Frame U N)) :=
  let h := worker.handle
  let goto := fun stage => { worker with stage }
  match worker.stage with
  | .starting routine arguments =>
    let handle := w.handle h
    match handle.context with
    | none => .ran (goto .leaving) w
    | some c =>
      let (outcome,w) := (w.setHandle h { handle with context := none }).loadAll c arguments
      let w := w.setStore (w.store.drop arguments)
      match outcome with
      | .ok values => .ran (goto (.running c (Strand.ofCall routine values))) w
      | .error fault => .ran (goto (.destroying c (.failed fault.message))) w
  | .running c s =>
    match s.exit? with
    | some e => .ran (goto (afterExit c e)) w
    | none => (s.step lib c w).map fun s => goto (.running c s)
  | .collecting c values =>
    match w.collect h { registry := (w.context c).registry } [] values with
    | (.ok results,w) => .ran (goto (.destroying c (.completed results))) w
    | (.error fault,w) => .ran (goto (.destroying c (.failed fault.message))) w
  | .destroying c e => .ran (goto (.judging e)) (w.dropContext c)
  | .judging e =>
    match e with
    | .completed results => .ran (goto (.publishing results .completed)) w
    | .stopped =>
      .ran (goto (if w.status h = .canceled then .leaving else .announcing .canceled)) w
    | .failed description =>
      .ran (goto (if w.status h = .canceled then .leaving
        else .publishing (failureResult description) .failed)) w
  | .publishing results status => .ran (goto (.announcing status)) (w.setResult h results)
  | .announcing status => .ran (goto .leaving) (w.changeStatus h status)
  | .leaving => .ran (goto .gone) ((w.leave (w.handle h).pool).disown h)
  | .gone => .blocked none

end Worker

end Workers
