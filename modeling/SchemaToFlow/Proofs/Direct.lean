import SchemaToFlow.Generate
import SchemaToFlow.Proofs.Evaluation

/-!
# The declarations of a document, read off its parts

What a definition declares and what it refers to, by recursion on its parts: no nodes, no numbers, no
lookups.

* `TypeRef.flow` is the type that a type reference stands for, `Field.property` and
  `InputValue.property` are properties, `Definition.declaration?` is the declaration of a definition.
* `Definition.mentions` lists the names that a definition brings into the order of declarations: its
  references, then its own name.
* `Document.flow` is the program of a document: of every name the last definition counts, and names
  come in the order of their first mention.

These definitions say what the program of a document is; that it is what the nodes of the document
evaluate to is `program_eq_flow`.
-/

namespace SchemaToFlow

open Text SchemaToFlow.Flow

namespace Schema

/-! ## Types -/

/-- The type that a name stands for. -/
def flowNamed : String → TypeExpr
  | "String" => .string
  | "ID" => .string
  | "Int" => .number
  | n => .identifier n

/-- Whether a name refers to a declaration. The names of built-in types do not. -/
def isReference (n : String) : Bool := n ∉ ["String", "ID", "Int"]

/-- Whether a type excludes null. -/
def TypeRef.isNonNull : TypeRef → Bool
  | .nonNull _ _ => true
  | _ => false

/-- The name that a type is built on. -/
def TypeRef.target : TypeRef → Name
  | .named n => n
  | .list item _ => item.target
  | .nonNull inner _ => inner.target

section Flow

variable (names : NameTable)

/-- The type that a type reference stands for. The items of a list may be null if they are given by
a name alone that refers to a declaration. -/
def TypeRef.flow : TypeRef → TypeExpr
  | .named n => flowNamed (names.text n.id)
  | .nonNull inner _ => inner.flow
  | .list (.named n) _ =>
    match flowNamed (names.text n.id) with
    | .identifier m => .array (.nullable (.identifier m))
    | type => .array type
  | .list item _ => .array item.flow

/-! ## Properties -/

/-- A property of a given type: optional, with a value that may be null, unless the type excludes
null. With arguments its value is a function of them. -/
def propertyOfType (name : String) (arguments : List Property) (type : TypeRef) : Property where
  name := name
  type :=
    let value := if type.isNonNull then type.flow names else .nullable (type.flow names)
    match arguments with
    | [] => value
    | _ :: _ => .function ⟨arguments, false⟩ value
  optional := !type.isNonNull

/-- The property of an argument or of a field of an input type. -/
def InputValue.property (v : InputValue) : Property :=
  propertyOfType names (names.text v.name.id) [] v.type

/-- The property of a field. -/
def Field.property (f : Field) : Property :=
  propertyOfType names (names.text f.name.id) (f.arguments.map (InputValue.property names)) f.type

/-- The property of an entry point. -/
def RootOperation.property (o : RootOperation) : Property :=
  ⟨o.operation.spelling, flowNamed (names.text o.type.id), false⟩

/-! ## Definitions -/

/-- The name that a definition is ordered by; directives have none. -/
def Definition.name? : Definition → Option String
  | .schema _ => some "schema"
  | .object d => some (names.text d.name.id)
  | .interface d => some (names.text d.name.id)
  | .union d => some (names.text d.name.id)
  | .enum d => some (names.text d.name.id)
  | .input d => some (names.text d.name.id)
  | .scalar d => some (names.text d.name.id)
  | .directive _ => none

/-- The declaration of a definition; directives have none. -/
def Definition.declaration? (exact : Bool) : Definition → Option Declaration
  | .schema d =>
    some (.typeAlias "schema" (.object ⟨d.operations.map (RootOperation.property names), exact⟩))
  | .object d =>
    let fields := d.fields.map (Field.property names)
    match d.interfaces with
    | [] => some (.typeAlias (names.text d.name.id) (.object ⟨fields, exact⟩))
    | _ :: _ =>
      some (.interface (names.text d.name.id) (d.interfaces.map fun n => names.text n.id)
        ⟨fields, false⟩)
  | .interface d =>
    some (.interface (names.text d.name.id) [] ⟨d.fields.map (Field.property names), false⟩)
  | .union d =>
    some (.typeAlias (names.text d.name.id)
      (.union (d.members.map fun n => flowNamed (names.text n.id))))
  | .enum d =>
    some (.typeAlias (names.text d.name.id)
      (.union (d.values.map fun v => .literal (names.text v.name.id))))
  | .input d =>
    some (.typeAlias (names.text d.name.id)
      (.object ⟨d.fields.map (InputValue.property names), exact⟩))
  | .scalar d => some (.opaqueType (names.text d.name.id) .any)
  | .directive _ => none

/-! ## References -/

/-- The name that a type refers to, if it refers to a declaration. -/
def TypeRef.references (type : TypeRef) : List String :=
  [names.text type.target.id].filter isReference

/-- The names that a field refers to: its arguments' types, then its own. -/
def Field.references (f : Field) : List String :=
  (f.arguments.flatMap fun v => v.type.references names) ++ f.type.references names

/-- The names among some that refer to declarations. -/
def namesReferred (ns : List Name) : List String :=
  (ns.map fun n => names.text n.id).filter isReference

/-- The names that a definition refers to, in order and with repetitions. -/
def Definition.references : Definition → List String
  | .schema d => namesReferred names (d.operations.map RootOperation.type)
  | .object d => namesReferred names d.interfaces ++ d.fields.flatMap (Field.references names)
  | .interface d => d.fields.flatMap (Field.references names)
  | .union d => namesReferred names d.members
  | .enum _ => []
  | .input d => d.fields.flatMap fun v => v.type.references names
  | .scalar _ => []
  | .directive _ => []

/-- The names that a definition brings into the order of declarations: its references, then its own
name. -/
def Definition.mentions (x : Definition) : List String :=
  x.references names ++ (x.name? names).toList

/-! ## Documents -/

namespace Document

/-- All names mentioned, in order and with repetitions. -/
def mentions (d : Document) : List String := d.definitions.flatMap (Definition.mentions names)

/-- The last definition of a name. -/
def lastNamed? (d : Document) (n : String) : Option Definition :=
  d.definitions.reverse.find? fun x => x.name? names = some n

/-- The program of a document. -/
def flow (exact : Bool) (d : Document) : Program :=
  ⟨(firstSeen (d.mentions names)).filterMap fun n =>
    (d.lastNamed? names n).bind (Definition.declaration? names exact)⟩

end Document

end Flow

end Schema

end SchemaToFlow
