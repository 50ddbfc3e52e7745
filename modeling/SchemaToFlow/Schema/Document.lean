import SchemaToFlow.NameTable
import SchemaToFlow.Text.Span
import SchemaToFlow.Schema.Location

/-!
# Schema documents

What reading a schema gives: a `Document` of `Definition`s. Every part carries the span of source
text it was read from. Names are numbers in a `NameTable`; a name that the source lacks is the number
of the empty text.

These are gqlflow's `Document` and `Definition` with their parts. `FieldsDefinition` is both its
`ObjectTypeDefinition` and its `InterfaceTypeDefinition`, `TypeRef` is its `Type`, and a `Name` is
its `Name` or its `NamedType`.

Out of scope: offsets and numbers of names have 32 bits in gqlflow, and no bound here.
-/

namespace SchemaToFlow.Schema

open Text

/-- A name or a reference to a named type. -/
structure Name where
  id : NameId
  span : Span
  deriving DecidableEq, Repr

/-- The text that documents what follows it, as written between its quotes. -/
structure Description where
  value : String
  span : Span
  deriving DecidableEq, Repr

/-- The type of a field or an input value. -/
inductive TypeRef where
  | named (name : Name)
  | list (item : TypeRef) (span : Span)
  | nonNull (inner : TypeRef) (span : Span)
  deriving DecidableEq, Repr

/-- A constant. -/
inductive Value where
  | int (value : Int) (span : Span)
  /-- A floating-point number, by its bit pattern. -/
  | float (bits : UInt64) (span : Span)
  /-- A string or block string, as written between its quotes. -/
  | string (value : String) (span : Span)
  | boolean (value : Bool) (span : Span)
  | null (span : Span)
  | enum (name : NameId) (span : Span)
  | list (items : List Value) (span : Span)
  | object (fields : List (NameId × Value)) (span : Span)
  deriving Repr

/-- A named value handed to a directive. -/
structure Argument where
  name : Name
  value : Value
  span : Span
  deriving Repr

/-- A use of a directive. -/
structure Directive where
  name : Name
  arguments : List Argument
  span : Span
  deriving Repr

/-- An argument of a field or a directive, or a field of an input type. -/
structure InputValue where
  description : Option Description
  name : Name
  type : TypeRef
  default? : Option Value
  directives : List Directive
  span : Span
  deriving Repr

/-- A field of an object or interface type. -/
structure Field where
  description : Option Description
  name : Name
  arguments : List InputValue
  type : TypeRef
  directives : List Directive
  span : Span
  deriving Repr

/-- The kinds of request a schema has entry points for. -/
inductive Operation where
  | query
  | mutation
  | subscription
  deriving DecidableEq, Repr

/-- The operation as it is written in a schema. -/
def Operation.spelling : Operation → String
  | .query => "query"
  | .mutation => "mutation"
  | .subscription => "subscription"

/-- An entry point: the type that answers an operation. -/
structure RootOperation where
  operation : Operation
  type : Name
  span : Span
  deriving DecidableEq, Repr

/-- The entry points of a schema. -/
structure SchemaDefinition where
  description : Option Description
  directives : List Directive
  operations : List RootOperation
  span : Span
  deriving Repr

/-- An object type, or an interface type: both list the interfaces they implement and have fields. -/
structure FieldsDefinition where
  description : Option Description
  name : Name
  interfaces : List Name
  directives : List Directive
  fields : List Field
  span : Span
  deriving Repr

/-- A type whose values are those of its members. -/
structure UnionDefinition where
  description : Option Description
  name : Name
  directives : List Directive
  members : List Name
  span : Span
  deriving Repr

/-- One of the values of an enumeration. -/
structure EnumValue where
  description : Option Description
  name : Name
  directives : List Directive
  span : Span
  deriving Repr

/-- A type whose values are listed by name. -/
structure EnumDefinition where
  description : Option Description
  name : Name
  directives : List Directive
  values : List EnumValue
  span : Span
  deriving Repr

/-- A type of composite arguments. -/
structure InputDefinition where
  description : Option Description
  name : Name
  directives : List Directive
  fields : List InputValue
  span : Span
  deriving Repr

/-- A type without parts. -/
structure ScalarDefinition where
  description : Option Description
  name : Name
  directives : List Directive
  span : Span
  deriving Repr

/-- A directive: its arguments and the places where it may be used. -/
structure DirectiveDefinition where
  description : Option Description
  name : Name
  arguments : List InputValue
  repeatable : Bool
  locations : List Location
  span : Span
  deriving Repr

/-- What stands at the top level of a schema. -/
inductive Definition where
  | schema (definition : SchemaDefinition)
  | object (definition : FieldsDefinition)
  | interface (definition : FieldsDefinition)
  | union (definition : UnionDefinition)
  | enum (definition : EnumDefinition)
  | input (definition : InputDefinition)
  | scalar (definition : ScalarDefinition)
  | directive (definition : DirectiveDefinition)
  deriving Repr

/-- A whole schema. -/
structure Document where
  definitions : List Definition
  span : Span
  deriving Repr

end SchemaToFlow.Schema
