import Workers.Call.Strand
/-! # Errands of controllers

What a controller does to workers, as a list of orders.  Each order is one step that no other
thread can divide, or a wait.  Cancelling and pausing put the command before they wait for the
status; a shutdown sends its cancellations to the workers that are tracked when it looks, wakes
them, and then waits until no worker is left.
-/
namespace Workers

inductive Signal where
  | notifier (n : NotifierId)
  | status (h : WorkerId)
  | command (h : WorkerId)
  | completion (h : WorkerId)

def World.isLatched (w : World) : Signal → Bool
  | .notifier n => w.isNotified n
  | .status h => (w.handle h).control.statusChanged.latched
  | .command h => (w.handle h).control.commandChanged.latched
  | .completion h => (w.handle h).control.completed.latched

inductive Order where
  | put (h : WorkerId) (command : Command)
  /-- Reads the interruptable target of a worker, to wake it in the next step. -/
  | interrupt (h : WorkerId)
  | fire (n : NotifierId)
  /-- Waits for a signal, up to a deadline if there is one. -/
  | await (s : Signal) (deadline : Option Nat)
  | request (p : PoolId)
  /-- Lists the tracked workers that still exist, to cancel and wake each. -/
  | cancelAll (p : PoolId)
  | untilIdle (p : PoolId)
  | untilRequested (p : PoolId)
  | untilStatus (h : WorkerId) (status : Status)

/-- The orders left, and whether the last wait was answered by its signal. -/
structure Errand where
  orders : List Order
  answered : Bool := true

namespace Errand

def cancel (h : WorkerId) (deadline : Option Nat) : Errand :=
  { orders := [.put h .cancel,.interrupt h,.await (.status h) deadline] }

def pause (h : WorkerId) (deadline : Option Nat) : Errand :=
  { orders := [.put h .pause,.await (.status h) deadline] }

def await (s : Signal) (deadline : Option Nat) : Errand := { orders := [.await s deadline] }

def shutdown (p : PoolId) : Errand := { orders := [.request p,.cancelAll p,.untilIdle p] }

/-- The workers that a shutdown cancels. -/
def liveWorkers (w : World) (p : PoolId) : List WorkerId :=
  (w.pool p).tracked.filter fun h => 0 < (w.handle h).owners

def step (w : World) (e : Errand) : Progress Errand :=
  match e.orders with
  | [] => .blocked none
  | order :: rest =>
    let after := { e with orders := rest }
    match order with
    | .put h command => .ran after (w.putCommand h command)
    | .interrupt h =>
      match (w.handle h).target with
      | some n => .ran { e with orders := .fire n :: rest } w
      | none => .ran after w
    | .fire n => .ran after (w.notify n)
    | .await s deadline =>
      if w.isLatched s then .ran { orders := rest, answered := true } w
      else if deadline.any (· ≤ w.clock) then .ran { orders := rest, answered := false } w
      else .blocked deadline
    | .request p => .ran after (w.request p)
    | .cancelAll p =>
      let orders := (liveWorkers w p).flatMap fun h => [.put h .cancel,.interrupt h]
      .ran { e with orders := orders ++ rest } w
    | .untilIdle p => if (w.pool p).active = 0 then .ran after w else .blocked none
    | .untilRequested p => if (w.pool p).requested then .ran after w else .blocked none
    | .untilStatus h status => if w.status h = status then .ran after w else .blocked none

def isDone (e : Errand) : Bool := e.orders.isEmpty

end Errand

end Workers
