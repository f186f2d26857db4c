/-! # Notifiers

A notifier is a latch that threads wait for: a notification stays until it is reset, so one that
comes before the wait is not lost.
-/
namespace Workers

structure Notifier where
  latched : Bool := false
  deriving DecidableEq, Inhabited

namespace Notifier

def notify (_ : Notifier) : Notifier := ⟨true⟩

def reset (_ : Notifier) : Notifier := ⟨false⟩

end Notifier

end Workers
