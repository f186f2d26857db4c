import Workers.Module.FileTree
/-! # Module search

A dotted module name is looked up through a list of templates: the name with its dots turned into
slashes takes the place of every question mark, and the first candidate that is a file wins.
-/
namespace Workers

namespace Module

def substitute (c : Char) (replacement : String) (text : String) : String :=
  String.ofList (text.toList.flatMap fun d => if d = c then replacement.toList else [d])

/-- The templates of a search path; empty ones do not count. -/
def templates (path : String) : List String :=
  ((path.toList.splitOn ';').map String.ofList).filter (· ≠ "")

/-- The files that a module may be in, in the order of the search. -/
def candidates (path name : String) : List String :=
  (templates path).map (substitute '?' (substitute '.' "/" name))

def search (t : FileTree) (path name : String) : Option String :=
  (candidates path name).find? t.isFile

end Module

end Workers
