import SchemaToFlow.Flow.Printer
import SchemaToFlow.Node.Meaning
import SchemaToFlow.Node.OfDocument
import SchemaToFlow.Schema.Parse

/-!
# From a schema to Flow source

`generate` reads a schema, evaluates it and prints the program it means. A schema with errors gives
those errors and nothing else.

`generate` is gqlflow's `generate`, and `Parsed.program` and `Parsed.generated` are `translate` and
`generate` of its `CodeGenerator`. Out of scope: log lines, and sources of 2 to the 32 bytes and
more, which gqlflow never finishes reading (`parseBytes?_eq_none`).
-/

namespace SchemaToFlow

open Schema SchemaToFlow.Flow

/-- How to generate. -/
structure GenerateOptions where
  /-- Whether the objects that stand for object types, input types and entry points are exact. -/
  exact : Bool := true
  print : PrintOptions := {}
  deriving DecidableEq, Repr

/-- A program and its text. -/
structure Generated where
  program : Program
  code : String
  deriving Repr

/-- Why nothing was generated. -/
inductive GenerateError where
  /-- The schema has errors. -/
  | invalid (errors : List Diagnostic)
  /-- The schema has no meaning. -/
  | fault (fault : Fault)
  deriving Repr

/-- What went wrong, in one text. -/
def GenerateError.message (source : String) : GenerateError → String
  | .invalid errors => "schema has " ++ toString errors.length ++ " syntax error(s)"
  | .fault f => f.message source

namespace Schema.Parsed

/-- The program that a document means, whatever was reported about it. -/
def program (p : Parsed) (exact : Bool) : Except Fault Program :=
  (NodeTree.ofDocument p.names p.document).toProgram (placeDocument p.names p.document).root exact

/-- The program that a document means, and its text, whatever was reported about it. -/
def generated (p : Parsed) (options : GenerateOptions) : Except Fault Generated := do
  let program ← p.program options.exact
  return ⟨program, program.print options.print⟩

end Schema.Parsed

/-- Reads a schema and generates the program it means. -/
def generate (source : String) (options : GenerateOptions) : Except GenerateError Generated :=
  let parsed := parse source
  if parsed.report.hasErrors then .error (.invalid parsed.report.errors)
  else (parsed.generated options).mapError .fault

end SchemaToFlow
