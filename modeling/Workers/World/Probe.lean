import Workers.World.Basic
/-! # Probing a hook

A check of a hook under way.  A gauge answers in one step; a worker handle takes the steps of its
control's check, and may keep the thread waiting.
-/
namespace Workers

inductive Probe where
  | gauge (id : GaugeId) (kind : CheckKind)
  | worker (id : WorkerId) (at_ : Check)
  deriving DecidableEq, Inhabited

inductive ProbeMove where
  | goto (next : Probe) (w : World)
  | finish (stopped : Bool) (w : World)
  | blocked

def Probe.start (hook : Hook) (kind : CheckKind) : Probe :=
  match hook with
  | .gauge g => .gauge g kind
  | .worker h => .worker h (Check.start kind)

def Probe.hook : Probe → Hook
  | .gauge g _ => .gauge g
  | .worker h _ => .worker h

namespace Gauge

def tick (g : Gauge) : Bool × Gauge :=
  let ticks := g.ticks + 1
  (g.limit.any (· ≤ ticks),{ g with ticks })

def point (g : Gauge) : Bool × Gauge := (g.cancelled,{ g with points := g.points + 1 })

def check (g : Gauge) : CheckKind → Bool × Gauge
  | .tick => g.tick
  | .point => g.point

end Gauge

def Probe.step (w : World) : Probe → ProbeMove
  | .gauge g kind =>
    let (stopped,counted) := (w.gauge g).check kind
    .finish stopped (w.setGauge g counted)
  | .worker h point =>
    let handle := w.handle h
    match point.step (w.pool handle.pool).requested handle.control with
    | .goto next control => .goto (.worker h next) (w.setHandle h { handle with control })
    | .finish stopped control => .finish stopped (w.setHandle h { handle with control })
    | .blocked => .blocked

end Workers
