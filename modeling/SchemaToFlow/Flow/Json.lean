import SchemaToFlow.Flow.Program
import SchemaToFlow.Json

/-!
# Flow programs as JSON

Types carry a `kind` and, if they have parts, a `value`; declarations carry a `kind` beside their own
fields; everything else is a plain object.

gqlflow derives this form from its `Program`. Out of scope: reading it back, which no command does;
a reader stands beside the theorem that needs one.
-/

namespace SchemaToFlow.Flow

/-- A JSON object that tells its kind and has no parts. -/
def bare (kind : String) : Json := .object [("kind", .string kind)]

/-- A JSON object that tells its kind and holds its parts as one value. -/
def tagged (kind : String) (value : Json) : Json :=
  .object [("kind", .string kind), ("value", value)]

mutual

/-- The JSON form of a type. -/
def TypeExpr.toJson : TypeExpr → Json
  | .string => bare "String"
  | .number => bare "Number"
  | .any => bare "Any"
  | .literal value => tagged "StringLiteral" (.string value)
  | .identifier name => tagged "Identifier" (.string name)
  | .nullable inner => tagged "Nullable" inner.toJson
  | .array item => tagged "Array" item.toJson
  | .function params returns =>
    tagged "Function" (.object [("params", params.toJson), ("returns", returns.toJson)])
  | .object shape => tagged "Object" shape.toJson
  | .union members => tagged "Union" (.array (typesToJson members))

/-- The JSON forms of some types. -/
def typesToJson : List TypeExpr → List Json
  | [] => []
  | t :: ts => t.toJson :: typesToJson ts

/-- The JSON form of an object type. -/
def ObjectType.toJson : ObjectType → Json
  | ⟨properties, exact⟩ =>
    .object [("properties", .array (propertiesToJson properties)), ("exact", .bool exact)]

/-- The JSON forms of some properties. -/
def propertiesToJson : List Property → List Json
  | [] => []
  | p :: ps => p.toJson :: propertiesToJson ps

/-- The JSON form of a property. -/
def Property.toJson : Property → Json
  | ⟨name, type, optional⟩ =>
    .object [("name", .string name), ("ty", type.toJson), ("optional", .bool optional)]

end

/-- The JSON form of a declaration. -/
def Declaration.toJson : Declaration → Json
  | .interface name supers body =>
    .object [("kind", .string "Interface"), ("name", .string name),
      ("extends", .array (supers.map .string)), ("body", body.toJson)]
  | .typeAlias name body =>
    .object [("kind", .string "TypeAlias"), ("name", .string name), ("body", body.toJson)]
  | .opaqueType name underlying =>
    .object [("kind", .string "Opaque"), ("name", .string name), ("underlying", underlying.toJson)]

/-- The JSON form of a program: every declaration is an export. -/
def Program.toJson (p : Program) : Json :=
  .object [("body", .array (p.body.map fun d => .object [("declaration", d.toJson)]))]

end SchemaToFlow.Flow
