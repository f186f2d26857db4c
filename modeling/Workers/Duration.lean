import Workers.Fault
/-! # Durations

Lengths of time in whole milliseconds, at most `2 ^ 64 - 1` of them, and their reading from a
number with a unit.
-/
namespace Workers

structure Duration where
  millis : Nat
  deriving DecidableEq, Inhabited

namespace Fault

def invalidInterval (n : Int64) : Fault :=
  .invalidOperation ("invalid duration interval: " ++ toString n.toInt)

def invalidMetric (metric : String) : Fault :=
  .invalidOperation ("invalid time metric: " ++ metric)

end Fault

namespace Duration

def maxMillis : Nat := UInt64.size - 1

def ofMillis (n : Nat) : Duration := ⟨min n maxMillis⟩

def seconds (d : Duration) : Nat := d.millis / 1000

def nanoseconds (d : Duration) : Nat := d.millis % 1000 * 1000000

/-- The milliseconds in a unit of time; seconds are meant if none is named. -/
def unit? : Option String → Option Nat
  | none | some "s" => some 1000
  | some "ms" => some 1
  | some "m" => some 60000
  | some _ => none

/-- A number of units; the sign is looked at before the unit. -/
def ofInterval (n : Int64) (metric : Option String) : Except Fault Duration :=
  if n.toInt < 0 then .error (.invalidInterval n)
  else
    match unit? metric with
    | some unit => .ok (.ofMillis (n.toInt.toNat * unit))
    | none => .error (.invalidMetric (metric.getD ""))

/-- An absent interval means no limit, whatever the unit. -/
def ofOptionalInterval (n : Option Int64) (metric : Option String) :
    Except Fault (Option Duration) :=
  match n with
  | none => .ok none
  | some n => (ofInterval n metric).map some

end Duration

end Workers
