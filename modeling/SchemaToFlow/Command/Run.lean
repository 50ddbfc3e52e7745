import SchemaToFlow.Command.Arguments
import SchemaToFlow.Command.System
import SchemaToFlow.Flow.Json
import SchemaToFlow.Generate
import SchemaToFlow.Text.Position

/-!
# Running commands

`run` carries out an invocation on any `System`. It is gqlflow's `run`, and the commands are its
`generate_file` (`generateFile`), `check_files` (`checkFiles`) and `print_ast` (`printAst`), all of
which read a schema with `translate_file` (`translateFile`). What is said about a schema is collected
first (`examine`, with `describe` for a single finding) and then reported as a whole.

A command ends with an exit code, or with the error of the first file that cannot be read or written.

Out of scope: log lines, colours, and how a fault of a translation is drawn as a report; its message
is reported instead.
-/

namespace SchemaToFlow.Command

open Text Schema SchemaToFlow.Flow

/-- The version of the program. -/
def version : String := "gqlflow 0.1.0"

/-- The file that declarations go to unless another is named: beside the schema. -/
def defaultOutput (schema : String) : String := schema ++ ".js.flow"

/-- A finding with the file, line and column it is about. -/
def describe (path source : String) (d : Diagnostic) : String :=
  match d.primary? with
  | some span =>
    let p := position source.toList span.start
    path ++ ":" ++ toString p.line ++ ":" ++ toString p.column ++ ": " ++ d.render
  | none => path ++ ": " ++ d.render

/-- The warnings about a file, a line each. -/
def warningText (path source : String) (warnings : List Diagnostic) : String :=
  String.join (warnings.map fun d => "Warning: " ++ describe path source d ++ "\n")

/-- The errors in a file, a line each after a line that names the file. -/
def errorText (path source : String) (errors : List Diagnostic) : String :=
  "Error " ++ path ++ "\n" ++
    String.join (errors.map fun d => "  --> " ++ describe path source d ++ "\n")

/-- What reading a schema file gives: the program it means, if it is free of errors, and what is said
about it. -/
structure Examined where
  program : Option Program
  stderr : String
  deriving Repr

/-- Reads a schema, and says what is wrong with it. -/
def examine (path source : String) (exact quiet : Bool) : Examined :=
  let parsed := parse source
  let warnings := if quiet then "" else warningText path source parsed.report.warnings
  if parsed.report.hasErrors then
    ⟨none, warnings ++ errorText path source parsed.report.errors⟩
  else
    match parsed.program exact with
    | .ok program => ⟨some program, warnings⟩
    | .error fault => ⟨none, warnings ++ fault.message source ++ "\n"⟩

section Commands

variable {m : Type → Type} [Monad m] (system : System m)

/-- The program that a schema file means, if it has no errors; what is wrong with it is reported. -/
def translateFile (path : String) (exact quiet : Bool) : ExceptT FileError m (Option Program) := do
  let source ← system.read path
  let examined := examine path source exact quiet
  system.report examined.stderr
  return examined.program

/-- Generates declarations from a schema file, for another file or, without one, for the standard
output. -/
def generateFile (schema : String) (output : Option String) (options : GenerateOptions)
    (quiet : Bool) : ExceptT FileError m Nat := do
  match ← translateFile system schema options.exact quiet with
  | none => return 1
  | some program =>
    let code := program.print options.print
    match output with
    | none => do
      system.print code
      return 0
    | some path => do
      system.write path code
      system.print (if quiet then "" else "Generated " ++ path ++ "\n")
      return 0

/-- Whether a file has errors. -/
def checkFile (verbose quiet : Bool) (file : String) : ExceptT FileError m Bool := do
  system.print (if verbose then "Checking " ++ file ++ "\n" else "")
  let program ← translateFile system file true quiet
  system.print (if verbose ∧ program.isSome then "OK " ++ file ++ "\n" else "")
  return program.isNone

/-- Whether one of the files has errors, given whether one before them has. -/
def checkEach (verbose quiet failed : Bool) (files : List String) : ExceptT FileError m Bool :=
  files.foldlM (fun hasErrors file => return hasErrors || (← checkFile system verbose quiet file))
    failed

/-- Checks files for errors, one after the other. -/
def checkFiles (files : List String) (verbose quiet : Bool) : ExceptT FileError m Nat := do
  if ← checkEach system verbose quiet false files then
    return 1
  else
    system.print (if quiet ∨ files = [] then ""
      else "Success: " ++ toString files.length ++ " file(s) checked\n")
    return 0

/-- Shows the program that a schema file means, as JSON. -/
def printAst (schema : String) (exact : Bool) : ExceptT FileError m Nat := do
  match ← translateFile system schema exact false with
  | none => return 1
  | some program =>
    system.print (program.toJson.pretty 0 ++ "\n")
    return 0

/-- Carries out an invocation, and gives the exit code. -/
def run (i : Invocation) : ExceptT FileError m Nat :=
  match i.action with
  | .generate schema output stdout inexact noPragma indent tabs =>
    let destination := if stdout then none else some (output.getD (defaultOutput schema))
    generateFile system schema destination ⟨!inexact, ⟨indent, tabs, !noPragma⟩⟩ i.quiet
  | .check files => checkFiles system files i.verbose i.quiet
  | .ast schema inexact => printAst system schema (!inexact)
  | .version => do
    system.print (version ++ "\n")
    return 0

end Commands

/-- What is left after an invocation: the texts on the standard streams, the files, and the exit code
or the file error. -/
structure Outcome (files : FileStore) where
  stdout : String
  stderr : String
  state : files.State
  status : Except FileError Nat

/-- What comes of an invocation on a store of files. -/
def FileStore.outcome (files : FileStore) (s : files.State) (i : Invocation) : Outcome files :=
  let (status, w) := run files.system i { state := s }
  ⟨w.stdout, w.stderr, w.state, status⟩

end SchemaToFlow.Command
