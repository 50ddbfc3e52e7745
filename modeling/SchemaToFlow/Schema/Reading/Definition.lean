import SchemaToFlow.Schema.Reading.Value

/-!
# Reading definitions

One reader for each kind of definition. Each starts at the keyword of its definition, and the span it
gives starts there too; a description before the keyword is read first and handed in.

In gqlflow's `Parser`, `definition?` is `parse_definition`. `schemaDefinition`, `unionDefinition`,
`enumDefinition`, `inputDefinition`, `scalarDefinition` and `directiveDefinition` are
`parse_schema_definition`, `parse_union_type`, `parse_enum_type`, `parse_input_object_type`,
`parse_scalar_type` and `parse_directive_definition`; `fieldsDefinition` is both `parse_object_type`
and `parse_interface_type`. Their parts are `parse_implements` (`implementedInterfaces`),
`parse_fields_block` (`braced field`), `parse_field_definition` (`field`),
`parse_arguments_definition` (`argumentDefinitions`) and `parse_input_value_definition`
(`inputValue`).
-/

namespace SchemaToFlow.Schema.Reader

/-! ## Fields and input values -/

/-- An argument of a field or a directive, or a field of an input type. -/
def inputValue : Reader InputValue := do
  let description ← description?
  let start := (← peek).span.start
  let name ← name
  expect (.punct .colon)
  let type ← typeRef
  let default? ← if ← accept (.punct .equals) then some <$> value else pure none
  let directives ← directives
  return ⟨description, name, type, default?, directives, ← spanFrom start⟩

/-- Input values up to a closing parenthesis or brace. -/
def inputValues : Reader (List InputValue) :=
  many (State.before [.punct .parenClose, .punct .braceClose]) inputValue

/-- The arguments of a field or a directive, in parentheses, if there are any. -/
def argumentDefinitions : Reader (List InputValue) := do
  if ← accept (.punct .parenOpen) then
    let arguments ← inputValues
    expect (.punct .parenClose)
    return arguments
  else
    return []

/-- A field of an object or interface type. -/
def field : Reader Field := do
  let description ← description?
  let start := (← peek).span.start
  let name ← name
  let arguments ← argumentDefinitions
  expect (.punct .colon)
  let type ← typeRef
  let directives ← directives
  return ⟨description, name, arguments, type, directives, ← spanFrom start⟩

/-- Something in braces, if the next token opens them. -/
def braced {α : Type} (item : Reader α) : Reader (List α) := do
  if ← accept (.punct .braceOpen) then
    let items ← many (State.before [.punct .braceClose]) item
    expect (.punct .braceClose)
    return items
  else
    return []

/-- The interfaces a type implements, set apart by ampersands; between two names the ampersand may
be missing. -/
def implementedInterfaces : Reader (List Name) := do
  if ← accept (.keyword .implements) then
    let _ ← accept (.punct .ampersand)
    let first ← typeName
    let more ← many (fun s => s.sees (.punct .ampersand) || s.sees .name) do
      let _ ← accept (.punct .ampersand)
      typeName
    return first :: more
  else
    return []

/-! ## Definitions -/

/-- The operation that a keyword stands for. -/
def operationOf? : TokenKind → Option Operation
  | .keyword .query => some .query
  | .keyword .mutation => some .mutation
  | .keyword .subscription => some .subscription
  | _ => none

/-- An entry point of a schema; anything else is reported and skipped. -/
def rootOperation? : Reader (Option RootOperation) := do
  let t ← peek
  match operationOf? t.kind with
  | some operation => do
    advance
    expect (.punct .colon)
    let type ← typeName
    return some ⟨operation, type, ← spanFrom t.span.start⟩
  | none => do
    expected "query, mutation or subscription"
    advance
    return none

/-- The entry points of a schema. -/
def schemaDefinition (description : Option Description) : Reader SchemaDefinition := do
  let start := (← peek).span.start
  advance
  let directives ← directives
  expect (.punct .braceOpen)
  let operations ← many (State.before [.punct .braceClose]) rootOperation?
  expect (.punct .braceClose)
  return ⟨description, directives, operations.filterMap id, ← spanFrom start⟩

/-- An object or interface type. -/
def fieldsDefinition (description : Option Description) : Reader FieldsDefinition := do
  let start := (← peek).span.start
  advance
  let name ← name
  let interfaces ← implementedInterfaces
  let directives ← directives
  let fields ← braced field
  return ⟨description, name, interfaces, directives, fields, ← spanFrom start⟩

/-- The members of a union type, set apart by bars; a bar may also stand before the first. -/
def unionMembers : Reader (List Name) := do
  if ← accept (.punct .equals) then
    let _ ← accept (.punct .pipe)
    let first ← typeName
    let more ← many (·.sees (.punct .pipe)) do
      advance
      typeName
    return first :: more
  else
    return []

/-- A union type. -/
def unionDefinition (description : Option Description) : Reader UnionDefinition := do
  let start := (← peek).span.start
  advance
  let name ← name
  let directives ← directives
  let members ← unionMembers
  return ⟨description, name, directives, members, ← spanFrom start⟩

/-- One of the values of an enumeration. -/
def enumValue : Reader EnumValue := do
  let description ← description?
  let start := (← peek).span.start
  let name ← name
  let directives ← directives
  return ⟨description, name, directives, ← spanFrom start⟩

/-- An enumeration type. -/
def enumDefinition (description : Option Description) : Reader EnumDefinition := do
  let start := (← peek).span.start
  advance
  let name ← name
  let directives ← directives
  let values ← braced enumValue
  return ⟨description, name, directives, values, ← spanFrom start⟩

/-- An input type. -/
def inputDefinition (description : Option Description) : Reader InputDefinition := do
  let start := (← peek).span.start
  advance
  let name ← name
  let directives ← directives
  let fields ←
    if ← accept (.punct .braceOpen) then
      let fields ← inputValues
      expect (.punct .braceClose)
      pure fields
    else
      pure []
  return ⟨description, name, directives, fields, ← spanFrom start⟩

/-- A scalar type. -/
def scalarDefinition (description : Option Description) : Reader ScalarDefinition := do
  let start := (← peek).span.start
  advance
  let name ← name
  let directives ← directives
  return ⟨description, name, directives, ← spanFrom start⟩

/-- The location that a name stands for; a name that stands for none draws a warning. -/
def location? : Reader (Option Location) := do
  let t ← peek
  let known := Location.ofSpelling? t.text
  if known.isNone then
    flag .warning Diagnostic.unknownLocation "unknown directive location"
      ("`" ++ t.text ++ "` is not a directive location")
  advance
  return known

/-- One location, and those after the bar that follows it read by `more`; reading stops at the first
that is no name. -/
def locationsAt (more : Reader (List Location)) : Reader (List Location) := do
  if (← peek).kind.isName then
    let known ← location?
    let more ← if ← accept (.punct .pipe) then more else pure []
    return known.toList ++ more
  else
    expected "directive location"
    return []

/-- At most `n` locations, set apart by bars. -/
def locationsUpTo : Nat → Reader (List Location)
  | 0 => do
    expected "directive location"
    return []
  | n + 1 => locationsAt (locationsUpTo n)

/-- Locations, the first of which stands here. -/
def locationsFrom : Reader (List Location) := fun s => locationsUpTo s.rest.length s

/-- The places where a directive may be used; a bar may also stand before the first. -/
def locations : Reader (List Location) := do
  let _ ← accept (.punct .pipe)
  locationsFrom

/-- A directive. -/
def directiveDefinition (description : Option Description) : Reader DirectiveDefinition := do
  let start := (← peek).span.start
  advance
  expect (.punct .atSign)
  let name ← name
  let arguments ← argumentDefinitions
  let repeatable ← accept (.keyword .repeatable)
  expect (.keyword .onLocation)
  let locations ← locations
  return ⟨description, name, arguments, repeatable, locations, ← spanFrom start⟩

/-- The place of a definition where none starts: reported. -/
def noDefinition : Reader (Option Definition) := do
  let t ← peek
  flag .error Diagnostic.invalidSyntax "expected definition"
    ("expected type system definition, found `" ++ t.text ++ "`")
  return none

/-- The definition that starts with the next token. An extension is reported, and what it extends is
then read by `extended` as a definition of its own. -/
def definitionAt (description : Option Description) (extended : Reader (Option Definition)) :
    Reader (Option Definition) := do
  match (← peek).kind with
  | .keyword .schema => return some (.schema (← schemaDefinition description))
  | .keyword .type => return some (.object (← fieldsDefinition description))
  | .keyword .interface => return some (.interface (← fieldsDefinition description))
  | .keyword .union => return some (.union (← unionDefinition description))
  | .keyword .enum => return some (.enum (← enumDefinition description))
  | .keyword .input => return some (.input (← inputDefinition description))
  | .keyword .scalar => return some (.scalar (← scalarDefinition description))
  | .keyword .directive => return some (.directive (← directiveDefinition description))
  | .keyword .extend => do
    flag .error Diagnostic.unsupportedSyntax "unsupported syntax"
      "type extensions are not supported"
    advance
    extended
  | _ => noDefinition

/-- A definition with its description, where `extended` reads what an extension extends. -/
def definitionWith (extended : Reader (Option Definition)) : Reader (Option Definition) := do
  definitionAt (← description?) extended

/-- A definition after at most `n` extension keywords. -/
def definitionUpTo : Nat → Reader (Option Definition)
  | 0 => noDefinition
  | n + 1 => definitionWith (definitionUpTo n)

/-- A definition with its description, or nothing if none starts here. -/
def definition? : Reader (Option Definition) := fun s => definitionUpTo s.rest.length s

end SchemaToFlow.Schema.Reader
