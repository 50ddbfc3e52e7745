import SchemaToFlow.Text.Span

/-!
# Diagnostics

A `Diagnostic` tells what is wrong with a schema and where. A `Report` holds diagnostics in the order
in which they were found; it has errors as soon as one of them is an error, while warnings alone
stand in nobody's way.

A `Report` is gqlflow's `DiagnosticBag`. A `Diagnostic` is its own: `located` is `error` or
`warning` followed by `with_span`, `isError` and `primary?` are `is_error` and `primary_span`, and
`render` is its text.

Out of scope: colours, and excerpts of the source drawn below a message.
-/

namespace SchemaToFlow

open Text

/-- How bad a finding is: an error stops generation, a warning does not. -/
inductive Severity where
  | error
  | warning
  deriving DecidableEq, Repr

/-- A remark on a stretch of the source. -/
structure Label where
  span : Span
  message : String
  deriving DecidableEq, Repr

/-- One finding. -/
structure Diagnostic where
  severity : Severity
  code : String
  title : String
  message : Option String := none
  labels : List Label := []
  deriving DecidableEq, Repr

namespace Diagnostic

/-- A finding at one place, whose label repeats its message. -/
def located (severity : Severity) (code title : String) (span : Span) (message : String) :
    Diagnostic :=
  ⟨severity, code, title, some message, [⟨span, message⟩]⟩

/-- Whether the finding is an error. -/
def isError (d : Diagnostic) : Bool := decide (d.severity = .error)

/-- The place the finding is about: that of its first label. -/
def primary? (d : Diagnostic) : Option Span := d.labels.head?.map Label.span

/-- One line of text: code and title, then the message if there is one. -/
def render (d : Diagnostic) : String :=
  "[" ++ d.code ++ "] " ++ d.title ++
    match d.message with
    | some message => ": " ++ message
    | none => ""

/-! ## Codes of the findings that reading a schema can produce -/

/-- A token that cannot stand where it stands. -/
def unexpectedToken : String := "E0001"

/-- The text ends too early. -/
def unexpectedEnd : String := "E0002"

/-- No definition starts here, or a number is out of range. -/
def invalidSyntax : String := "E0003"

/-- A form that is understood but not supported. -/
def unsupportedSyntax : String := "E0004"

/-- A directive location that no schema knows. -/
def unknownLocation : String := "W0001"

end Diagnostic

/-- Findings in the order in which they were made. -/
structure Report where
  entries : List Diagnostic := []
  deriving DecidableEq, Repr

namespace Report

/-- The report without findings. -/
def empty : Report := {}

/-- The report with one more finding. -/
def add (r : Report) (d : Diagnostic) : Report := ⟨r.entries ++ [d]⟩

/-- The errors, in order. -/
def errors (r : Report) : List Diagnostic := r.entries.filter Diagnostic.isError

/-- The warnings, in order. -/
def warnings (r : Report) : List Diagnostic := r.entries.filter fun d => !d.isError

/-- Whether some finding is an error. -/
def hasErrors (r : Report) : Bool := r.entries.any Diagnostic.isError

/-- Number of errors. -/
def errorCount (r : Report) : Nat := r.errors.length

end Report

end SchemaToFlow
