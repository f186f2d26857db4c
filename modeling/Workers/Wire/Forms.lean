import Workers.Config
import Workers.Control.Basic
import Workers.Duration
import Workers.Registry.Arena
import Workers.Value.Basic
import Workers.Wire.Text
/-! # Wire forms

How statuses, commands, configurations, entry addresses, holders, faults and scalars are written as
structured data and read back.  Names are lowercase strings; a record is an object whose unknown
fields do not count, or an array in field order.  A float goes by the sixteen hexadecimal digits of
its bits, and all NaNs are one.
-/
namespace Workers

def Status.ofWire? : Wire → Option Status := Wire.choice? Status.all Status.name

def Status.toWire (s : Status) : Wire := .string s.name

def Command.ofWire? : Wire → Option Command := Wire.choice? Command.all Command.name

def Command.toWire (c : Command) : Wire := .string c.name

/-- Missing settings take their standard values. -/
def Config.ofWire? : Wire → Option Config
  | .object fields => do
    let path ← Wire.fieldOr fields "path" Wire.string? standard.path
    let cpath ← Wire.fieldOr fields "cpath" Wire.string? standard.cpath
    let step ← Wire.fieldOr fields "step" Wire.word32? standard.step
    let traceback ← Wire.fieldOr fields "traceback" Wire.boolean? standard.traceback
    pure { path, cpath, step, traceback }
  | .array items => do
    if 4 < items.length then failure
    let path ← Wire.itemOr items 0 Wire.string? standard.path
    let cpath ← Wire.itemOr items 1 Wire.string? standard.cpath
    let step ← Wire.itemOr items 2 Wire.word32? standard.step
    let traceback ← Wire.itemOr items 3 Wire.boolean? standard.traceback
    pure { path, cpath, step, traceback }
  | _ => none

def Config.toWire (c : Config) : Wire :=
  .object [("path",.string c.path),("cpath",.string c.cpath),("step",.integer c.step.toNat),
    ("traceback",.boolean c.traceback)]

def EntryId.ofWire? : Wire → Option EntryId
  | .object fields => do
    let index ← (← fields.lookup "index").word32?
    let generation ← (← fields.lookup "generation").word32?
    pure { index := index.toNat, generation }
  | .array [index,generation] => do
    let index ← index.word32?
    let generation ← generation.word32?
    pure { index := index.toNat, generation }
  | _ => none

def EntryId.toWire (id : EntryId) : Wire :=
  .object [("index",.integer id.index),("generation",.integer id.generation.toNat)]

def Holder.ofWire? : Wire → Option Holder
  | .object [(kind,number)] => do
    let number ← number.natural? UInt64.size
    match kind with
    | "Context" => some (.context number)
    | "Store" => some (.store number)
    | "Thread" => some (.thread number)
    | _ => none
  | _ => none

def Holder.toWire : Holder → Wire
  | .context n => .object [("Context",.integer n)]
  | .store n => .object [("Store",.integer n)]
  | .thread n => .object [("Thread",.integer n)]

def Config.Setting.ofWire? : Wire → Option Config.Setting
  | .array [.string "path",.string s] => some (.path s)
  | .array [.string "cpath",.string s] => some (.cpath s)
  | .array [.string "step",n] => n.word32?.map .step
  | .array [.string "traceback",.boolean b] => some (.traceback b)
  | _ => none

def Fault.ofKind? (kind message : String) : Option Fault :=
  [.step message,.detailed message,.invalidType message,.invalidOperation message,
    .borrow message,.brokenReference,.raised message,.handled message].find?
      fun fault : Fault => fault.kind = kind

/-- A fault by its kind and its message, which a broken reference may go without. -/
def Fault.ofWire? : Wire → Option Fault
  | .array (.string kind :: message) =>
    ofKind? kind ((message.head?.bind Wire.string?).getD "")
  | _ => none

def Fault.toWire (fault : Fault) : Wire :=
  .object [("error",.string fault.kind),("message",.string fault.message)]

namespace Binary64

def digits (x : Binary64) : String :=
  if x.isNaN then "nan"
  else
    let digits := Nat.toDigits 16 x.bits.toNat
    String.ofList (List.replicate (16 - digits.length) '0' ++ digits)

def ofDigits? (s : String) : Option Binary64 :=
  if s = "nan" then some ⟨0x7ff8000000000000⟩
  else (Wire.hex? s.toList).map fun n => ⟨UInt64.ofNat n⟩

def toWire (x : Binary64) : Wire := .object [("f",.string x.digits)]

end Binary64

def Value.ofWire? : Wire → Option Value
  | .null => some .nil
  | .boolean b => some (.boolean b)
  | .integer n => some (.integer (.ofInt n))
  | .string s => some (.string s)
  | .object [("f",.string s)] => (Binary64.ofDigits? s).map .float
  | _ => none

def Key.toWire : Key → Wire
  | .boolean b => .object [("boolean",.boolean b)]
  | .integer i => .object [("integer",.integer i.toInt)]
  | .float x => .object [("float",.string x.digits)]
  | .string s => .object [("string",.string s)]

def Duration.toWire (d : Duration) : Wire :=
  .object [("secs",.integer d.seconds),("nanos",.integer d.nanoseconds)]

end Workers
