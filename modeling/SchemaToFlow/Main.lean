import SchemaToFlow.Command.Run

/-!
# The program

Carries out a command line on the files of the system: `execute` is `run` on the process's own files
and streams, with the exit code that gqlflow's `main` gives.

Out of scope: log lines, and the texts with which a command line that cannot be carried out is
answered; `usage` stands for all of them.
-/

namespace SchemaToFlow.Command

/-- A failure of the system as a file error. -/
def FileError.ofSystem : IO.Error → FileError
  | .noFileOrDirectory _ _ _ => .notFound
  | .inappropriateType _ _ "is a directory" => .isDirectory
  | .inappropriateType _ _ "not a directory" => .notDirectory
  | e => .other (toString e)

/-- The files and standard streams of the process. -/
def process : System IO where
  read path := ExceptT.mk do
    try
      return FileStore.textOf (← IO.FS.readBinFile path)
    catch e => return .error (.ofSystem e)
  write path text := ExceptT.mk do
    try
      IO.FS.writeFile path text
      return .ok ()
    catch e => return .error (.ofSystem e)
  print text := IO.print text
  report text := IO.eprint text

/-- Carries out an invocation on the files of the system, and gives the exit code. -/
def execute (i : Invocation) : IO UInt32 := do
  match ← (run process i).run with
  | .ok code => return code.toUInt32
  | .error e =>
    IO.eprintln ("Error: " ++ e.message)
    return 1

/-- What is said about a command line that cannot be carried out. -/
def usage : String :=
  "usage: gqlflow [-v] [-q] generate SCHEMA [-o FILE | --stdout] [--inexact] [--no-pragma] " ++
    "[--indent N] [--tabs]\n" ++
    "       gqlflow [-v] [-q] check FILE...\n" ++
    "       gqlflow [-v] [-q] ast SCHEMA [--inexact]\n" ++
    "       gqlflow version\n"

end SchemaToFlow.Command

open SchemaToFlow.Command in
/-- The entry point. -/
def main (args : List String) : IO UInt32 := do
  match Invocation.ofWords args with
  | .ok i => execute i
  | .error .help =>
    IO.print usage
    return 0
  | .error .version =>
    IO.println version
    return 0
  | .error _ =>
    IO.eprint usage
    return 2
