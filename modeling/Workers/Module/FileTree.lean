/-! # File trees

The directories and regular files around a working directory, and the resolution of a path in them:
every component but the last must name a directory, `.` and the empty component stay, `..` goes up,
and a path that ends in a slash names a directory.  Making a directory or a file makes every
directory on its path, those too that the path leaves again.
-/
namespace Workers

/-- The names on the way from the working directory, the innermost first.  Where they are all `..`
the location is the working directory or lies above it. -/
abbrev Location := List String

namespace Location

def enter (here : Location) (name : String) : Location :=
  if name = "" || name = "." then here
  else if name = ".." then
    match here with
    | [] => [".."]
    | inner :: above => if inner = ".." then ".." :: here else above
  else name :: here

end Location

structure FileTree where
  directories : List Location := []
  files : List Location := []

namespace FileTree

def maxName : Nat := 255

def maxPath : Nat := 4095

def components (path : String) : List String :=
  (path.toList.splitOn '/').map String.ofList

/-- The directories above the working directory are always there. -/
def isDirectory (t : FileTree) (l : Location) : Bool :=
  l.all (· = "..") || t.directories.contains l

/-- Takes one step down or up from a directory. -/
def step? (t : FileTree) (here : Location) (name : String) : Option Location :=
  if !t.isDirectory here || maxName < name.utf8ByteSize then none
  else
    let there := here.enter name
    if t.isDirectory there || t.files.contains there then some there else none

def walk? (t : FileTree) (path : String) : Option Location :=
  (components path).foldlM t.step? []

def isFile (t : FileTree) (path : String) : Bool :=
  if path.isEmpty || maxPath < path.utf8ByteSize || path.toList.contains '\x00' ||
      path.startsWith "/" then false
  else
    match t.walk? path with
    | some l => t.files.contains l
    | none => false

/-- Makes the directories on a way where they are missing, and goes along it. -/
def makeWay (t : FileTree) (here : Location) : List String → Location × FileTree
  | [] => (here,t)
  | name :: rest =>
    let there := here.enter name
    let t := if t.isDirectory there then t else { t with directories := there :: t.directories }
    t.makeWay there rest

def makeDirectory (t : FileTree) (path : String) : FileTree := (t.makeWay [] (components path)).2

def makeFile (t : FileTree) (path : String) : FileTree :=
  let names := components path
  let (parent,t) := t.makeWay [] names.dropLast
  { t with files := parent.enter (names.getLastD "") :: t.files }

/-- The tree in which some directories and then some files have been made. -/
def ofPaths (directories files : List String) : FileTree :=
  files.foldl makeFile (directories.foldl makeDirectory {})

end FileTree

end Workers
