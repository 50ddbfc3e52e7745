/-!
# What commands ask of the system

A command reads and writes whole files and prints on the two standard streams. `System m` is these
four actions in a monad `m`; gqlflow takes them from its standard library (`read_to_string`, `write`,
`print` and `eprint`). Commands are written for any system, so the program and what is proved about it
run the same commands.

A `FileStore` is a store of files about which nothing is fixed: which paths there are, what they lead
to and which of them can be read or written. `FileStore.system` is a system on such a store that
collects what is printed. `FileStore.Lawful` is what is asked of writing, and the only thing that is
asked of a store.

Out of scope: files that change while a command runs, standard streams that cannot be written, and
colours.
-/

namespace SchemaToFlow.Command

/-- Why a file cannot be read or written. -/
inductive FileError where
  /-- There is no such file or directory. -/
  | notFound
  /-- A file stands where a directory is needed. -/
  | notDirectory
  /-- A directory stands where a file is needed. -/
  | isDirectory
  /-- The file is not text. -/
  | notText
  /-- Anything else, in the words of the system. -/
  | other (message : String)
  deriving DecidableEq, Repr

/-- The error in words. -/
def FileError.message : FileError → String
  | .notFound => "No such file or directory (os error 2)"
  | .notDirectory => "Not a directory (os error 20)"
  | .isDirectory => "Is a directory (os error 21)"
  | .notText => "stream did not contain valid UTF-8"
  | .other message => message

/-- What a command asks of the system it runs on. -/
structure System (m : Type → Type) where
  /-- The text of the file that a path leads to. -/
  read (path : String) : ExceptT FileError m String
  /-- Replaces the contents of the file that a path leads to, or makes the file. -/
  write (path text : String) : ExceptT FileError m Unit
  /-- Writes on the standard output. -/
  print (text : String) : m Unit
  /-- Writes on the standard error stream. -/
  report (text : String) : m Unit

/-- A store of files. -/
structure FileStore where
  /-- What the store can be like. -/
  State : Type
  /-- Files, whatever tells them apart. -/
  File : Type
  /-- The file that a path leads to. -/
  leads : State → String → Option File
  /-- What a file holds, if there is one. -/
  contents : State → File → Option ByteArray
  /-- Reads the file that a path leads to. -/
  read : State → String → Except FileError ByteArray
  /-- Writes the file that a path leads to. -/
  write : State → String → ByteArray → Except FileError Unit × State

namespace FileStore

/-- The bytes of a file as text. -/
def textOf (bytes : ByteArray) : Except FileError String :=
  match String.fromUTF8? bytes with
  | some text => .ok text
  | none => .error .notText

/-- The text of the file that a path leads to. -/
def readText (files : FileStore) (s : files.State) (path : String) : Except FileError String :=
  files.read s path >>= textOf

/-- Writing a file replaces all that it holds and nothing else, or fails and changes nothing. -/
structure Lawful (files : FileStore) : Prop where
  /-- Afterwards the path leads to a file that holds what was written, and every other file holds what
  it held before. -/
  written : ∀ {s s' : files.State} {path : String} {bytes : ByteArray},
    files.write s path bytes = (.ok (), s') →
      ∃ file, files.leads s' path = some file ∧ files.contents s' file = some bytes ∧
        ∀ other, other ≠ file → files.contents s' other = files.contents s other
  /-- If it fails, every file holds what it held before. -/
  refused : ∀ {s s' : files.State} {path : String} {bytes : ByteArray} {e : FileError},
    files.write s path bytes = (.error e, s') → ∀ file, files.contents s' file = files.contents s file

/-- A store, and what was printed. -/
structure World (files : FileStore) where
  state : files.State
  stdout : String := ""
  stderr : String := ""

/-- The system of a store. -/
def system (files : FileStore) : System (StateM files.World) where
  read path := fun w => (files.readText w.state path, w)
  write path text := fun w =>
    let (result, after) := files.write w.state path text.toUTF8
    (result, { w with state := after })
  print text := fun w => ((), { w with stdout := w.stdout ++ text })
  report text := fun w => ((), { w with stderr := w.stderr ++ text })

end FileStore

end SchemaToFlow.Command
