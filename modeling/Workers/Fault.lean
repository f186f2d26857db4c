import Workers.Text.Quoted
/-! # Faults

What can go wrong while code runs.  A fault has a kind and, except for a broken reference, a
message.  `message` leaves the kind out, `display` puts it in front where the kind has a title.
-/
namespace Workers

inductive Fault where
  | step (text : String)
  | detailed (text : String)
  | invalidType (text : String)
  | invalidOperation (text : String)
  | borrow (text : String)
  | brokenReference
  | raised (text : String)
  | handled (text : String)
  deriving DecidableEq, Inhabited

namespace Fault

def kind : Fault → String
  | step _ => "StepError"
  | detailed _ => "DetailedError"
  | invalidType _ => "InvalidType"
  | invalidOperation _ => "InvalidOperation"
  | borrow _ => "BorrowError"
  | brokenReference => "BrokenReference"
  | raised _ => "Raised"
  | handled _ => "Handled"

def message : Fault → String
  | step text | detailed text | invalidType text | invalidOperation text
  | borrow text | raised text | handled text => text
  | brokenReference => "broken reference"

/-- The message under the title of its kind; what user code or a handler wrote stands as it is. -/
def display : Fault → String
  | step text => "Step Error: " ++ text
  | invalidType text => "Invalid Type: " ++ text
  | invalidOperation text => "Invalid Operation: " ++ text
  | borrow text => "Borrow Error: " ++ text
  | brokenReference => "Broken Reference"
  | detailed text | raised text | handled text => text

def debug : Fault → String
  | brokenReference => "BrokenReference"
  | fault => fault.kind ++ "(" ++ Text.quoted fault.message ++ ")"

/-- Names the operation that failed in front of the message. -/
def inOperation (fault : Fault) (operation : String) : Fault :=
  .detailed (operation ++ ": " ++ fault.message)

end Fault

end Workers
