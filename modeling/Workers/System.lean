import Workers.Errand
import Workers.Worker.Life
/-! # The system

All threads and the world they share.  `round` gives every thread a few steps in turn, the thread
that is waited for first; then the clock moves on by one beat or, when nobody can go on, to the
earliest deadline.  This is one of the schedules that threads of their own could follow, on a
machine where a thread takes `pace * beatsPerMilli` steps in a millisecond.
-/
namespace Workers

abbrev ThreadId := Nat

/-- A thread: a worker, an activity in a context, a check of a hook, or an errand. -/
inductive Thread (F : Type) where
  | worker (w : Worker F)
  | strand (c : ContextId) (s : Strand F)
  | probe (p : Probe)
  | probed (stopped : Bool)
  | errand (e : Errand)

structure System (F : Type) where
  world : World := {}
  threads : Array (Thread F) := #[]

namespace Thread

variable {U N : Type}

def isOver : Thread (Frame U N) → Bool
  | worker w => w.isGone
  | strand _ s => s.exit?.isSome
  | probe _ => false
  | probed _ => true
  | errand e => e.isDone

def step (lib : Library U N) (w : World) : Thread (Frame U N) → Progress (Thread (Frame U N))
  | worker t => (t.step lib w).map worker
  | strand c s => (s.step lib c w).map (strand c)
  | probe p =>
    match p.step w with
    | .goto next w => .ran (probe next) w
    | .finish stopped w => .ran (probed stopped) (w.dropHook (some p.hook))
    | .blocked => .blocked none
  | probed _ => .blocked none
  | errand e => (e.step w).map errand

/-- Up to a number of steps: whether there was any, and what the thread then waits for. -/
def steps (lib : Library U N) (n : Nat) (w : World) (t : Thread (Frame U N)) (ran : Bool) :
    Thread (Frame U N) × World × Bool × Option Nat :=
  match n with
  | 0 => (t,w,ran,none)
  | n + 1 =>
    match t.step lib w with
    | .ran t w => t.steps lib n w true
    | .blocked deadline => (t,w,ran,deadline)

end Thread

namespace System

variable {U N : Type}

/-- The number of steps that a thread takes in a beat. -/
def pace : Nat := 200

def addThread (s : System (Frame U N)) (t : Thread (Frame U N)) : ThreadId × System (Frame U N) :=
  (s.threads.size,{ s with threads := s.threads.push t })

def isOver (s : System (Frame U N)) (t : ThreadId) : Bool :=
  (s.threads[t]?.map Thread.isOver).getD true

def earlier : Option Nat → Option Nat → Option Nat
  | some a, some b => some (min a b)
  | some a, none => some a
  | none, b => b

/-- Gives every thread in a list some steps; tells whether there were any, and the earliest deadline
of those that wait. -/
def turns (lib : Library U N) (s : System (Frame U N)) (ran : Bool) (deadline : Option Nat) :
    List ThreadId → System (Frame U N) × Bool × Option Nat
  | [] => (s,ran,deadline)
  | i :: rest =>
    match s.threads[i]? with
    | none => s.turns lib ran deadline rest
    | some t =>
      let (t,world,went,waits) := t.steps lib pace s.world false
      let s : System (Frame U N) := { world, threads := s.threads.modify i fun _ => t }
      s.turns lib (ran || went) (earlier deadline waits) rest

/-- The order of turns in a round: a goal, then the other threads by age. -/
def order (s : System (Frame U N)) (goal : ThreadId) : List ThreadId :=
  goal :: (List.range s.threads.size).erase goal

/-- One round of all threads; none if they all wait for each other for ever. -/
def round (lib : Library U N) (goal : ThreadId) (s : System (Frame U N)) :
    Option (System (Frame U N)) :=
  let (s,ran,deadline) := s.turns lib false none (s.order goal)
  let at_ := fun clock => { s with world := { s.world with clock } }
  if ran then some (at_ (s.world.clock + 1))
  else deadline.map fun d => at_ (max d (s.world.clock + 1))

/-- Runs rounds until a thread is over, as many as allowed. -/
def runUntil (lib : Library U N) (goal : ThreadId) (rounds : Nat) (s : System (Frame U N)) :
    System (Frame U N) :=
  match rounds with
  | 0 => s
  | n + 1 =>
    if s.isOver goal then s
    else
      match s.round lib goal with
      | some s => runUntil lib goal n s
      | none => s

/-- More rounds than a thread takes that ends at all. -/
def patience : Nat := 1000000000

/-- Waits for the end of a thread; none if it has no end. -/
def await (lib : Library U N) (s : System (Frame U N)) (goal : ThreadId) :
    Option (Thread (Frame U N)) × System (Frame U N) :=
  let s := s.runUntil lib goal patience
  (s.threads[goal]?.filter Thread.isOver,s)

/-- Carries a thread through to its end while the others go on, and takes it off again. -/
def complete (lib : Library U N) (s : System (Frame U N)) (t : Thread (Frame U N)) :
    Option (Thread (Frame U N)) × System (Frame U N) :=
  let (goal,s) := s.addThread t
  let (t,s) := s.await lib goal
  (t,{ s with threads := s.threads.extract 0 goal })

/-- Carries out an errand; tells whether its last wait was answered. -/
def perform (lib : Library U N) (s : System (Frame U N)) (e : Errand) :
    Option Bool × System (Frame U N) :=
  match s.complete lib (.errand e) with
  | (some (.errand e),s) => (some e.answered,s)
  | (_,s) => (none,s)

def run (lib : Library U N) (s : System (Frame U N)) (c : ContextId) (strand : Strand (Frame U N)) :
    Option (Exit (Frame U N)) × System (Frame U N) :=
  match s.complete lib (.strand c strand) with
  | (some (.strand _ strand),s) => (strand.exit?,s)
  | (_,s) => (none,s)

/-- The system and the thread for a check of a hook outside of any context.  The thread keeps the
hook until the check is over. -/
def prepareCheck (s : System (Frame U N)) (hook : Hook) (kind : CheckKind) :
    Thread (Frame U N) × System (Frame U N) :=
  (.probe (Probe.start hook kind),{ s with world := s.world.keepHook (some hook) })

/-- Carries out such a check; tells whether it signalled stop. -/
def check (lib : Library U N) (s : System (Frame U N)) (hook : Hook) (kind : CheckKind) :
    Option Bool × System (Frame U N) :=
  let (t,s) := s.prepareCheck hook kind
  match s.complete lib t with
  | (some (.probed stopped),s) => (some stopped,s)
  | (_,s) => (none,s)

def spawn (s : System (Frame U N)) (p : PoolId) (config : Config) (routine : Routine)
    (arguments : List Stored) : Except Fault (WorkerId × ThreadId) × System (Frame U N) :=
  match s.world.prepare p config arguments with
  | (.error fault,world) => (.error fault,{ s with world })
  | (.ok (h,adopted),world) =>
    let worker : Worker (Frame U N) := { handle := h, stage := .starting routine adopted }
    let (thread,s) := { s with world }.addThread (.worker worker)
    (.ok (h,thread),s)

/-- Captures values from a context and starts a worker with them. -/
def launch (s : System (Frame U N)) (l : Launcher) (c : ContextId) (arguments : List Value) :
    Except Fault (WorkerId × ThreadId) × System (Frame U N) :=
  match s.world.launchArguments l c arguments with
  | (.error fault,world) => (.error fault,{ s with world })
  | (.ok stored,world) => { s with world }.spawn l.pool l.config l.routine stored

end System

end Workers
