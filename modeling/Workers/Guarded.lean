import Workers.Fault
/-! # Guarded contents

A content behind a lock that is poisoned for good when code panics while it holds the lock for
writing.  Every borrow of a poisoned content is refused.
-/
namespace Workers

/-- A content and whether its lock is poisoned. -/
structure Guarded (τ : Type) where
  content : τ
  poisoned : Bool := false

/-- The content, or the fault that stands for a refused borrow. -/
def Guarded.borrow {τ : Type} (g : Guarded τ) (refused : Fault) : Except Fault τ :=
  if g.poisoned then .error refused else .ok g.content

end Workers
