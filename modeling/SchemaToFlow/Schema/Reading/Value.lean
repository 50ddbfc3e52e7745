import SchemaToFlow.Schema.Document
import SchemaToFlow.Schema.Numeral
import SchemaToFlow.Schema.Reading

/-!
# Reading types, values and directives

`typeRef` reads the type of a field, `value` a constant and `directives` the uses of directives that
may follow a definition or a field. Types and values nest; the bound of the recursion is the number
of tokens left, since every level takes one.

`typeRef`, `value` and `directives` are `parse_type`, `parse_value` and `parse_directives` of
gqlflow's `Parser`. Out of scope: how deep the stack of a process lets types and values nest.
-/

namespace SchemaToFlow.Schema.Reader

/-- One level of a type, whose item is read by `item`. -/
def typeRefAt (item : Reader TypeRef) : Reader TypeRef := do
  let start := (← peek).span.start
  let inner ←
    if ← accept (.punct .bracketOpen) then
      let item ← item
      expect (.punct .bracketClose)
      pure (TypeRef.list item (← spanFrom start))
    else
      pure (TypeRef.named (← typeName))
  if ← accept (.punct .bang) then
    return .nonNull inner (← spanFrom start)
  else
    return inner

/-- A type, nested at most `n` levels deep in brackets. -/
def typeRefUpTo : Nat → Reader TypeRef
  | 0 => return .named (← typeName)
  | n + 1 => typeRefAt (typeRefUpTo n)

/-- A type: a name or a type in brackets, and an exclamation mark after it if there is one. -/
def typeRef : Reader TypeRef := fun s => typeRefUpTo s.rest.length s

/-- An integer, which is zero and reported when it does not fit in 64 bits. -/
def intLiteral (t : Token) : Reader Value := do
  let v ← match Numeral.int64? t.text with
    | some v => pure v
    | none => do
      flag .error Diagnostic.invalidSyntax "invalid integer"
        ("`" ++ t.text ++ "` does not fit in 64 bits")
      pure 0
  advance
  return .int v (← spanFrom t.span.start)

/-- Takes the one token of a constant. -/
def literal (t : Token) (make : Text.Span → Value) : Reader Value := do
  advance
  return make (← spanFrom t.span.start)

/-- The place of a value where none stands: reported, and null. -/
def noValue : Reader Value := do
  let t ← peek
  expected "value"
  skipOffending
  return .null (← spanFrom t.span.start)

/-- Values up to a closing bracket. -/
def listValue (item : Reader Value) : Reader Value := do
  let t ← peek
  advance
  let items ← many (State.before [.punct .bracketClose, .punct .braceClose]) item
  expect (.punct .bracketClose)
  return .list items (← spanFrom t.span.start)

/-- A field of an object value. -/
def objectField (value : Reader Value) : Reader (NameId × Value) := do
  let field ← name
  expect (.punct .colon)
  return (field.id, ← value)

/-- Named values up to a closing brace. -/
def objectValue (value : Reader Value) : Reader Value := do
  let t ← peek
  advance
  let fields ← many (State.before [.punct .braceClose]) (objectField value)
  expect (.punct .braceClose)
  return .object fields (← spanFrom t.span.start)

/-- One level of a value, whose parts are read by `part`. -/
def valueAt (part : Reader Value) : Reader Value := do
  let t ← peek
  match t.kind with
  | .int => intLiteral t
  | .float => literal t (.float (Numeral.binary64 t.text))
  | .string | .blockString => literal t (.string t.body)
  | .keyword .trueValue => literal t (.boolean true)
  | .keyword .falseValue => literal t (.boolean false)
  | .keyword .nullValue => literal t .null
  | .punct .bracketOpen => listValue part
  | .punct .braceOpen => objectValue part
  | .name | .keyword _ => do
    let constant ← name
    return .enum constant.id constant.span
  | _ => noValue

/-- A value, nested at most `n` levels deep. -/
def valueUpTo : Nat → Reader Value
  | 0 => noValue
  | n + 1 => valueAt (valueUpTo n)

/-- A constant. -/
def value : Reader Value := fun s => valueUpTo s.rest.length s

/-- A named value handed to a directive. -/
def argument : Reader Argument := do
  let start := (← peek).span.start
  let name ← name
  expect (.punct .colon)
  let value ← value
  return ⟨name, value, ← spanFrom start⟩

/-- One use of a directive. -/
def directive : Reader Directive := do
  let start := (← peek).span.start
  advance
  let name ← name
  let arguments ←
    if ← accept (.punct .parenOpen) then
      let arguments ← many (State.before [.punct .parenClose, .punct .braceClose]) argument
      expect (.punct .parenClose)
      pure arguments
    else
      pure []
  return ⟨name, arguments, ← spanFrom start⟩

/-- The uses of directives that follow. -/
def directives : Reader (List Directive) := many (·.sees (.punct .atSign)) directive

end SchemaToFlow.Schema.Reader
