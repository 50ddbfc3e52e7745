/-!
# Directive locations

The places of a schema or a request that a directive definition may allow.

`Location` is gqlflow's `DirectiveLocation`, `spelling` its `as_str` and `ofSpelling?` its `parse`.
-/

namespace SchemaToFlow.Schema

/-- A place where a directive may be used. -/
inductive Location where
  | schema
  | scalar
  | object
  | fieldDefinition
  | argumentDefinition
  | interface
  | union
  | enum
  | enumValue
  | inputObject
  | inputFieldDefinition
  | query
  | mutation
  | subscription
  | field
  | fragmentDefinition
  | fragmentSpread
  | inlineFragment
  | variableDefinition
  deriving DecidableEq, Repr

namespace Location

/-- The location as it is written in a schema. -/
def spelling : Location → String
  | .schema => "SCHEMA"
  | .scalar => "SCALAR"
  | .object => "OBJECT"
  | .fieldDefinition => "FIELD_DEFINITION"
  | .argumentDefinition => "ARGUMENT_DEFINITION"
  | .interface => "INTERFACE"
  | .union => "UNION"
  | .enum => "ENUM"
  | .enumValue => "ENUM_VALUE"
  | .inputObject => "INPUT_OBJECT"
  | .inputFieldDefinition => "INPUT_FIELD_DEFINITION"
  | .query => "QUERY"
  | .mutation => "MUTATION"
  | .subscription => "SUBSCRIPTION"
  | .field => "FIELD"
  | .fragmentDefinition => "FRAGMENT_DEFINITION"
  | .fragmentSpread => "FRAGMENT_SPREAD"
  | .inlineFragment => "INLINE_FRAGMENT"
  | .variableDefinition => "VARIABLE_DEFINITION"

/-- Every location. -/
def all : List Location :=
  [.schema, .scalar, .object, .fieldDefinition, .argumentDefinition, .interface, .union, .enum,
    .enumValue, .inputObject, .inputFieldDefinition, .query, .mutation, .subscription, .field,
    .fragmentDefinition, .fragmentSpread, .inlineFragment, .variableDefinition]

/-- The location written as `word`, if there is one. -/
def ofSpelling? (word : String) : Option Location := all.find? fun l => l.spelling = word

end Location

end SchemaToFlow.Schema
