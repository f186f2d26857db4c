import Workers.Config
import Workers.Context.Tables
import Workers.Control.Check
/-! # The world

Everything that threads share: the tables, the contexts, the handles of workers with their
controls, the pools that workers belong to, gauges, notifiers and the clock.  Each operation here
is one step that no other thread can divide.
-/
namespace Workers

abbrev ContextId := Nat

abbrev NotifierId := Nat

abbrev PoolId := Nat

/-- The beats of the clock in a millisecond. -/
def beatsPerMilli : Nat := 100

/-- A hook that only counts.  It signals stop from a given number of ticks on, and at interruption
points while it is cancelled. -/
structure Gauge where
  limit : Option Nat := none
  ticks : Nat := 0
  points : Nat := 0
  cancelled : Bool := false
  target : Option NotifierId := none
  deriving Inhabited

/-- The handle of a worker.  Its holder is `Holder.thread number`; `owners` counts those who keep
the handle itself, and the last of them to go takes it down. -/
structure WorkerHandle where
  number : Nat
  pool : PoolId
  registry : RegistryId
  control : Control := {}
  target : Option NotifierId := none
  context : Option ContextId := none
  result : List Stored := []
  references : List EntryId := []
  owners : Nat := 1

instance : Inhabited WorkerHandle := ⟨{ number := 0, pool := 0, registry := 0 }⟩

/-- Workers that share a registry and are shut down together. -/
structure Pool where
  registry : RegistryId
  requested : Bool := false
  active : Nat := 0
  tracked : List WorkerId := []
  deriving Inhabited

/-- A stretch of code during which a notifier is the target of a hook. -/
structure WakeScope where
  hook : Option Hook
  previous : Option NotifierId

/-- The shared state; `clock` counts the beats that have passed. -/
structure World where
  memory : Memory := {}
  notifiers : Array Notifier := #[]
  gauges : Array Gauge := #[]
  contexts : Array Context := #[]
  handles : Array WorkerHandle := #[]
  pools : Array Pool := #[]
  clock : Nat := 0

namespace WorkerHandle

def holder (h : WorkerHandle) : Holder := .thread h.number

def text (h : WorkerHandle) : String :=
  s!"ThreadHandle(id: {h.number}, status: {h.control.status.name}, " ++
    s!"command: {h.control.command.text})"

end WorkerHandle

namespace World

/-- What the clock shows some milliseconds later. -/
def after (w : World) (millis : Nat) : Nat := w.clock + millis * beatsPerMilli

def store (w : World) : Store := w.memory.store

def setStore (w : World) (store : Store) : World := { w with memory := { w.memory with store } }

def context (w : World) (c : ContextId) : Context := w.contexts[c]?.getD default

def setContext (w : World) (c : ContextId) (context : Context) : World :=
  { w with contexts := w.contexts.modify c fun _ => context }

def handle (w : World) (h : WorkerId) : WorkerHandle := w.handles[h]?.getD default

def setHandle (w : World) (h : WorkerId) (handle : WorkerHandle) : World :=
  { w with handles := w.handles.modify h fun _ => handle }

def pool (w : World) (p : PoolId) : Pool := w.pools[p]?.getD default

def setPool (w : World) (p : PoolId) (pool : Pool) : World :=
  { w with pools := w.pools.modify p fun _ => pool }

def gauge (w : World) (g : GaugeId) : Gauge := w.gauges[g]?.getD default

def setGauge (w : World) (g : GaugeId) (gauge : Gauge) : World :=
  { w with gauges := w.gauges.modify g fun _ => gauge }

def addGauge (w : World) (limit : Option Nat) : GaugeId × World :=
  (w.gauges.size,{ w with gauges := w.gauges.push { limit } })

def addNotifier (w : World) : NotifierId × World :=
  (w.notifiers.size,{ w with notifiers := w.notifiers.push {} })

def isNotified (w : World) (n : NotifierId) : Bool := (w.notifiers[n]?.getD {}).latched

def notify (w : World) (n : NotifierId) : World :=
  { w with notifiers := w.notifiers.modify n Notifier.notify }

def reset (w : World) (n : NotifierId) : World :=
  { w with notifiers := w.notifiers.modify n Notifier.reset }

def addPool (w : World) : PoolId × World :=
  let (registry,store) := w.store.addRegistry
  (w.pools.size,{ w.setStore store with pools := w.pools.push { registry } })

/-- Asks the workers of a pool to stop at their next safe point, and refuses new ones. -/
def request (w : World) (p : PoolId) : World := w.setPool p { w.pool p with requested := true }

def enter (w : World) (p : PoolId) : World :=
  w.setPool p { w.pool p with active := (w.pool p).active + 1 }

def leave (w : World) (p : PoolId) : World :=
  w.setPool p { w.pool p with active := (w.pool p).active - 1 }

def putCommand (w : World) (h : WorkerId) (command : Command) : World :=
  let handle := w.handle h
  w.setHandle h { handle with control := handle.control.putCommand command }

def changeStatus (w : World) (h : WorkerId) (status : Status) : World :=
  let handle := w.handle h
  w.setHandle h { handle with control := handle.control.changeStatus status }

def status (w : World) (h : WorkerId) : Status := (w.handle h).control.status

def addContext (w : World) (registry : RegistryId) : ContextId × World :=
  let (context,store) := Context.create w.store registry
  (w.contexts.size,{ w.setStore store with contexts := w.contexts.push context })

/-- Destroys a context whose hook is not kept by it: a gauge, or the handle being taken down. -/
def destroyUnhooked (w : World) (c : ContextId) : World :=
  let (context,store) := (w.context c).destroy w.store
  (w.setStore store).setContext c context

/-- Gives up one share in a worker handle.  With the last share the handle releases its references,
its unused context and its results. -/
def disown (w : World) (h : WorkerId) : World :=
  let handle := w.handle h
  if handle.owners ≤ 1 then
    let w := w.setStore (w.store.releaseAll handle.registry handle.holder handle.references)
    let w := match handle.context with
      | some c => w.destroyUnhooked c
      | none => w
    let w := w.setStore (w.store.drop handle.result)
    w.setHandle h { handle with owners := 0, references := [], context := none, result := [] }
  else w.setHandle h { handle with owners := handle.owners - 1 }

/-- Takes another share in a worker handle. -/
def own (w : World) (h : WorkerId) : World :=
  let handle := w.handle h
  w.setHandle h { handle with owners := handle.owners + 1 }

def keepHook (w : World) : Option Hook → World
  | some (.worker h) => w.own h
  | _ => w

def dropHook (w : World) : Option Hook → World
  | some (.worker h) => w.disown h
  | _ => w

def setHook (w : World) (c : ContextId) (hook : Hook) (step : UInt32) : World :=
  let old := (w.context c).hook
  let w := w.keepHook (some hook)
  let w := w.setContext c ((w.context c).setHook hook step)
  w.dropHook old

/-- Destroys a context: the hook goes first, then the references. -/
def destroy (w : World) (c : ContextId) : World :=
  let context := w.context c
  if context.destroyed then w
  else
    let w := w.setContext c { context with hook := none }
    (w.dropHook context.hook).destroyUnhooked c

/-- Destroys a context for good.  A hook that was set after it had been destroyed goes now. -/
def dropContext (w : World) (c : ContextId) : World :=
  let w := w.destroy c
  let context := w.context c
  (w.setContext c { context with hook := none }).dropHook context.hook

/-- Makes a notifier, or nothing, the interruptable target of a hook; gives the target before. -/
def retarget (w : World) (hook : Option Hook) (target : Option NotifierId) :
    Option NotifierId × World :=
  match hook with
  | none => (none,w)
  | some (.gauge g) =>
    let gauge := w.gauge g
    (gauge.target,w.setGauge g { gauge with target })
  | some (.worker h) =>
    let handle := w.handle h
    (handle.target,w.setHandle h { handle with target })

def interrupt (w : World) (h : WorkerId) : World :=
  match (w.handle h).target with
  | some n => w.notify n
  | none => w

/-- Begins a stretch in a context; it keeps the hook. -/
def beginScope (w : World) (c : ContextId) (n : NotifierId) : WakeScope × World :=
  let hook := (w.context c).hook
  let (previous,w) := (w.keepHook hook).retarget hook (some n)
  ({ hook, previous },w)

/-- Ends it: the target before is put back. -/
def endScope (w : World) (scope : WakeScope) : World :=
  (w.retarget scope.hook scope.previous).2.dropHook scope.hook

/-- Keeps an entry alive for as long as the handle lives. -/
def addReference (w : World) (h : WorkerId) (id : EntryId) : Except Fault World :=
  let handle := w.handle h
  if id ∈ handle.references then .ok w
  else (w.store.addReference handle.registry id handle.holder).map fun store =>
    (w.setStore store).setHandle h { handle with references := handle.references ++ [id] }

/-- Moves a stored object under a handle: the handle has its reference before the object gives up
its own.  A refused object is dropped. -/
def adopt (w : World) (h : WorkerId) (object : Stored) : Except Fault Stored × World :=
  let taken : Except Fault World :=
    (object.checkRegistry (w.handle h).registry).bind fun _ =>
      match object.entryId? with
      | some id => w.addReference h id
      | none => .ok w
  match taken with
  | .ok w =>
    let (object,store) := object.weaken w.store
    (.ok object,w.setStore store)
  | .error fault => (.error fault,w.setStore (w.store.drop [object]))

/-- A new handle with a context of its own, not started yet. -/
def addHandle (w : World) (p : PoolId) : WorkerId × World :=
  let registry := (w.pool p).registry
  let (number,store) := w.store.nextNumber registry
  let (context,w) := (w.setStore store).addContext registry
  (w.handles.size,
    { w with handles := w.handles.push { number, pool := p, registry, context := some context } })

def copyResult (w : World) (h : WorkerId) : List Stored × World :=
  let (copies,store) := Stored.copyAll w.store (w.handle h).result
  (copies,w.setStore store)

/-- What a worker shows for its status: the name of it, or all there is to say about a failure. -/
def report (w : World) (h : WorkerId) : List Stored × World :=
  match w.status h with
  | .failed => w.copyResult h
  | status => ([.string status.name],w)

def completedResult (w : World) (h : WorkerId) : List Stored × World :=
  if w.status h = .completed then w.copyResult h else ([],w)

end World

end Workers
