import SchemaToFlow.Command.System

/-!
# Files below a working directory

A store of files that can be computed with: a `WorkingDirectory` lists files by the names on the way
to them. A directory exists as soon as some file lies in it, and so does the working directory itself.
Paths are read from left to right: every name but the last must be that of a directory, `.` stays
where it is and `..` goes up. Slashes at the end of a path say that it is the path of a directory,
which cannot be written.

Out of scope: what lies outside the working directory. There are directories above it of which nothing
else is known, so no absolute path leads to a file. No file is protected, and no directory is empty.
What is proved about commands holds of every `FileStore`, this one among them.
-/

namespace SchemaToFlow.Command

/-- The names on the way to a file. -/
abbrev Route := List String

/-- Where a path leads. -/
inductive Place where
  /-- To a place in the working directory. -/
  | inside (route : Route)
  /-- To a directory that holds the working directory. -/
  | outside
  deriving DecidableEq, Repr

/-- The directory that holds a directory. -/
def Place.above (directory : Route) : Place :=
  if directory = [] then .outside else .inside directory.dropLast

/-- Files by route. -/
structure WorkingDirectory where
  files : List (Route × ByteArray) := []

namespace WorkingDirectory

/-- The contents of the file at a route. -/
def get? (d : WorkingDirectory) (route : Route) : Option ByteArray := d.files.lookup route

/-- Whether a route leads to a directory. -/
def isDirectory (d : WorkingDirectory) (route : Route) : Bool :=
  route.isEmpty || d.files.any fun f => decide (route.length < f.1.length) && route.isPrefixOf f.1

/-- Replaces the contents of a file, or makes the file. -/
def setFile (route : Route) (contents : ByteArray) :
    List (Route × ByteArray) → List (Route × ByteArray)
  | [] => [(route, contents)]
  | file :: files =>
    if file.1 = route then (route, contents) :: files else file :: setFile route contents files

/-- The working directory with other contents at a route. -/
def set (d : WorkingDirectory) (route : Route) (contents : ByteArray) : WorkingDirectory :=
  ⟨setFile route contents d.files⟩

/-- The directory that a name in a directory leads to. -/
def enter (d : WorkingDirectory) : Place → String → Except FileError Place
  | .outside, name =>
    if name = "" ∨ name = "." ∨ name = ".." then .ok .outside else .error .notFound
  | .inside directory, name =>
    if name = "" ∨ name = "." then .ok (.inside directory)
    else if name = ".." then .ok (Place.above directory)
    else if d.isDirectory (directory ++ [name]) then .ok (.inside (directory ++ [name]))
    else if (d.get? (directory ++ [name])).isSome then .error .notDirectory
    else .error .notFound

/-- Where the last name of a path leads from the directory it stands in; a file of that name need not
exist. -/
def arrive (d : WorkingDirectory) (directory : Place) (name : String) : Except FileError Place :=
  match directory, decide (name = "" ∨ name = "." ∨ name = "..") with
  | .inside route, false => .ok (.inside (route ++ [name]))
  | _, _ => d.enter directory name

/-- The names of a path. After a slash at the end of a path stands an empty name. -/
def pathNames (path : String) : List String := (path.toList.splitOn '/').map String.ofList

/-- The directory that the names before the last one lead to. A path that starts with a slash starts
outside the working directory, and the empty path leads nowhere. -/
def parent (d : WorkingDirectory) (path : String) (names : List String) : Except FileError Place :=
  if path = "" then .error .notFound
  else
    names.dropLast.foldlM d.enter
      (if path.toList.head? = some '/' then Place.outside else .inside [])

/-- Where a path leads; the file itself need not exist. -/
def resolve (d : WorkingDirectory) (path : String) : Except FileError Place := do
  let names := pathNames path
  d.arrive (← d.parent path names) (names.getLast?.getD "")

/-- The file that a path leads to, which need not exist. -/
def leads (d : WorkingDirectory) (path : String) : Option Route :=
  match d.resolve path with
  | .ok (.inside route) => some route
  | _ => none

/-- The contents of the file that a path leads to. -/
def read (d : WorkingDirectory) (path : String) : Except FileError ByteArray := do
  match ← d.resolve path with
  | .outside => throw .isDirectory
  | .inside route =>
    match d.get? route with
    | some contents => return contents
    | none => throw (if d.isDirectory route then .isDirectory else .notFound)

/-- Where a path to write leads. With slashes at its end it leads to no file, whatever stands before
them, as long as the names before the last one lead to a directory. -/
def resolveOutput (d : WorkingDirectory) (path : String) : Except FileError Place :=
  let names := pathNames path
  if names.getLast? = some "" then do
    let _ ← d.parent path (names.reverse.dropWhile (· = "")).reverse
    throw .isDirectory
  else d.resolve path

/-- The working directory after a file was given new contents. -/
def write (d : WorkingDirectory) (path : String) (contents : ByteArray) :
    Except FileError WorkingDirectory := do
  match ← d.resolveOutput path with
  | .outside => throw .isDirectory
  | .inside route =>
    if d.isDirectory route then throw .isDirectory else return d.set route contents

/-- Working directories as a store of files. -/
def store : FileStore where
  State := WorkingDirectory
  File := Route
  leads := leads
  contents := get?
  read := read
  write d path contents :=
    match d.write path contents with
    | .ok after => (.ok (), after)
    | .error e => (.error e, d)

end WorkingDirectory

end SchemaToFlow.Command
