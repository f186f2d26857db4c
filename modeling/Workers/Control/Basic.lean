import Workers.Notifier
/-! # Worker control

The worker writes its status, the controllers write their latest command, and both are read and
written under one lock together with the notifiers that announce them.  A status is final once it
is terminal as far as commands are concerned: no later command is accepted.
-/
namespace Workers

inductive Status where
  | running
  | paused
  | canceled
  | completed
  | failed
  deriving DecidableEq, Inhabited

inductive Command where
  | run
  | cancel
  | pause
  deriving DecidableEq, Inhabited

namespace Status

def isTerminal : Status → Bool
  | canceled | completed | failed => true
  | running | paused => false

def all : List Status := [running,paused,canceled,completed,failed]

def name : Status → String
  | running => "running"
  | paused => "paused"
  | canceled => "canceled"
  | completed => "completed"
  | failed => "failed"

def text : Status → String
  | running => "Running"
  | paused => "Paused"
  | canceled => "Canceled"
  | completed => "Completed"
  | failed => "Failed"

end Status

namespace Command

def all : List Command := [run,cancel,pause]

def name : Command → String
  | run => "run"
  | cancel => "cancel"
  | pause => "pause"

def text : Command → String
  | run => "Run"
  | cancel => "Cancel"
  | pause => "Pause"

end Command

/-- The status and the latest command of a worker, with the notifiers that announce a status, a
command, and a terminal status. -/
structure Control where
  status : Status := .running
  command : Command := .run
  statusChanged : Notifier := {}
  commandChanged : Notifier := {}
  completed : Notifier := {}
  deriving DecidableEq, Inhabited

namespace Control

/-- Records what a controller wants, unless the status is terminal.  The controller is going to
wait for the reaction, so an older status no longer counts as news. -/
def putCommand (c : Control) (command : Command) : Control :=
  if c.status.isTerminal then c
  else
    { c with
      command
      statusChanged := c.statusChanged.reset
      commandChanged := c.commandChanged.notify }

def changeStatus (c : Control) (status : Status) : Control :=
  { c with
    status
    commandChanged := c.commandChanged.reset
    statusChanged := c.statusChanged.notify
    completed := if status.isTerminal then c.completed.notify else c.completed }

/-- Enters the pause, or announces it again, if a pause is still what is wanted.  Otherwise the
command stays news, so that the wait that follows returns at once. -/
def acknowledgePause (c : Control) : Control :=
  if c.command = .pause then
    { c with
      status := .paused
      commandChanged := c.commandChanged.reset
      statusChanged := c.statusChanged.notify }
  else c

end Control

end Workers
