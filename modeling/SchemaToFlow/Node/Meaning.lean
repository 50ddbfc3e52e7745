import SchemaToFlow.Flow.Program
import SchemaToFlow.Node.References

/-!
# What nodes mean

Evaluating a node gives its `Meaning`: a Flow type, property, declaration or program, made from the
meanings of its children. `walk` visits the children of a node before the node itself and keeps what
it finds in an `Evaluation`: the meaning of every node visited, and for each node the types referred
to beneath it. A document node puts its definitions in order by those references.

A node may only have children with smaller numbers than its own, which is what makes the walk end.
Everything that can go wrong is a `Fault`, and the first fault found is the result.

In gqlflow a `Meaning` is a `Translation` and a `Fault` a `TranslateError`. `toProgram` is
`translate_tree`, and `walk` and `nodeMeaning` are `walk` and `dispatch` of its `Translator`.

Out of scope: log lines, the report that is drawn around the message of a fault, and how deep the
stack of a process lets the walk go.
-/

namespace SchemaToFlow

open Text Schema SchemaToFlow.Flow

/-- The meaning of a node. -/
inductive Meaning where
  | type (type : TypeExpr)
  | property (property : Property)
  | declaration (declaration : Declaration)
  | program (program : Program)
  deriving Repr

/-- How messages call a meaning. -/
def Meaning.shape : Meaning → String
  | .type _ => "type"
  | .property _ => "property"
  | .declaration _ => "declaration"
  | .program _ => "program"

/-- The node that a fault is about. -/
structure Site where
  kind : NodeKind
  span : Span
  deriving DecidableEq, Repr

/-- Why a tree has no meaning. -/
inductive Fault where
  /-- A node that does not exist, or that is not evaluated before it is needed. -/
  | noMeaning (site : Site)
  /-- A definition without a name. -/
  | noName (site : Site)
  /-- A node whose meaning does not fit its place. -/
  | mismatch (site : Site) (expected found : String)
  deriving DecidableEq, Repr

namespace Fault

/-- The node that the fault is about. -/
def site : Fault → Site
  | .noMeaning site => site
  | .noName site => site
  | .mismatch site _ _ => site

/-- The code of the fault. -/
def code : Fault → String
  | .noMeaning _ => "gqlflow::dispatch_miss"
  | .noName _ => "gqlflow::unsupported_name"
  | .mismatch _ _ _ => "gqlflow::unexpected_translation"

/-- The remark at the node that the fault is about. -/
def label : Fault → String
  | .noMeaning _ => "no translation for this node"
  | .noName _ => "definition without a name"
  | .mismatch _ _ _ => "unexpected translation"

/-- The source text of a node on lines of its own, unless it is empty. -/
def excerpt (source : String) (span : Span) : String :=
  let text := span.slice source.toList
  if text.isEmpty then "" else "\n\n  " ++ String.ofList text

/-- What the fault is, with the source text it is about. -/
def message (source : String) (f : Fault) : String :=
  (match f with
    | .noMeaning site => "replacement not found for " ++ site.kind.describe
    | .noName site => "unable to find name of " ++ site.kind.describe
    | .mismatch site expected found =>
      "expected " ++ expected ++ " for " ++ site.kind.describe ++ ", found " ++ found) ++
    excerpt source f.site.span

end Fault

/-- What a walk has found so far. -/
structure Evaluation where
  /-- The meanings found, the latest first. -/
  meanings : List (NodeId × Meaning) := []
  references : References := {}
  deriving Repr

namespace NodeTree

section Evaluate

variable (t : NodeTree)

/-- Where a fault about a node lies: at the node, else at the node that asked for it. -/
def site (id : NodeId) (asker : Option NodeId) : Site :=
  match (t.get? id).or (asker.bind t.get?) with
  | some node => ⟨node.data.kind, node.span⟩
  | none => ⟨.document, .emptyAt 0⟩

/-- The fault of a node that does not fit its place. -/
def misfit (id : NodeId) (expected found : String) : Fault :=
  .mismatch (t.site id none) expected found

/-- The node with a number, asked for by another. -/
def node (id : NodeId) (asker : Option NodeId) : Except Fault Node :=
  match t.get? id with
  | some node => .ok node
  | none => .error (.noMeaning (t.site id asker))

/-- The meaning found for a node, asked for by another. -/
def meaning (e : Evaluation) (id : NodeId) (asker : Option NodeId) : Except Fault Meaning :=
  match e.meanings.lookup id with
  | some m => .ok m
  | none => .error (.noMeaning (t.site id asker))

/-- The type that a node means. -/
def typeOf (e : Evaluation) (asker id : NodeId) : Except Fault TypeExpr := do
  match ← t.meaning e id (some asker) with
  | .type type => return type
  | other => throw (t.misfit id "type" other.shape)

/-- The property that a node means. -/
def propertyOf (e : Evaluation) (asker id : NodeId) : Except Fault Property := do
  match ← t.meaning e id (some asker) with
  | .property property => return property
  | other => throw (t.misfit id "property" other.shape)

/-- The declaration that a node means. -/
def declarationOf (e : Evaluation) (asker id : NodeId) : Except Fault Declaration := do
  match ← t.meaning e id (some asker) with
  | .declaration declaration => return declaration
  | other => throw (t.misfit id "declaration" other.shape)

/-- The type that a name stands for: texts and whole numbers are built in, every other name is a
type of its own. -/
def typeNamed (name : String) : TypeExpr :=
  if name = "String" ∨ name = "ID" then .string
  else if name = "Int" then .number
  else .identifier name

/-- Whether a node is a non-null type. -/
def isNonNull (asker id : NodeId) : Except Fault Bool := do
  return decide ((← t.node id (some asker)).data.kind = .nonNull)

/-- The type of a list: an item may be null if it is a named type that is not said to be non-null. -/
def listType (e : Evaluation) (id item : NodeId) : Except Fault TypeExpr := do
  let nonNull ← t.isNonNull id item
  let type ← t.typeOf e id item
  if type.identifier?.isSome ∧ nonNull = false then return .array (.nullable type)
  else return .array type

/-- An object type whose properties are the meanings of some nodes. -/
def objectType (e : Evaluation) (id : NodeId) (members : List NodeId) (exact : Bool) :
    Except Fault ObjectType :=
  return ⟨← members.mapM (t.propertyOf e id), exact⟩

/-- The property that a field or an input value means. It is optional and its value may be null
unless its type is non-null; with arguments its value is a function of them. -/
def valueProperty (e : Evaluation) (id : NodeId) (name : String) (arguments : List NodeId)
    (type : NodeId) : Except Fault Property := do
  let optional := !(← t.isNonNull id type)
  let plain ← t.typeOf e id type
  let value := if optional then .nullable plain else plain
  if arguments.isEmpty then return ⟨name, value, optional⟩
  else return ⟨name, .function (← t.objectType e id arguments false) value, optional⟩

/-- The type that is one of several. -/
def unionType (e : Evaluation) (id : NodeId) (members : List NodeId) : Except Fault TypeExpr :=
  return .union (← members.mapM (t.typeOf e id))

/-- The name of an interface that a type implements. -/
def interfaceName (asker id : NodeId) : Except Fault String := do
  match (← t.node id (some asker)).data with
  | .namedType name =>
    match (← t.node name (some id)).data with
    | .name value => return value
    | other => throw (t.misfit name "name" other.kind.describe)
  | other => throw (t.misfit id "named type" other.kind.describe)

/-- The declaration of an object type: an interface if it implements others, and an alias for an
object type if it does not. -/
def objectDeclaration (exact : Bool) (e : Evaluation) (id : NodeId) (name : String)
    (interfaces fields : List NodeId) : Except Fault Declaration := do
  if interfaces.isEmpty then
    return .typeAlias name (.object (← t.objectType e id fields exact))
  else
    let supers ← interfaces.mapM (t.interfaceName id)
    return .interface name supers (← t.objectType e id fields false)

/-- The name by which a definition is ordered. -/
def definitionName (asker id : NodeId) : Except Fault String := do
  let node ← t.node id (some asker)
  if node.data.kind = .schema then return "schema"
  match node.data.name? with
  | some name =>
    if name = "" then throw (.noName ⟨node.data.kind, node.span⟩) else return name
  | none => throw (.noName ⟨node.data.kind, node.span⟩)

/-- The program that a document means. -/
def documentProgram (e : Evaluation) (id : NodeId) (definitions : List NodeId) :
    Except Fault Program := do
  let named ← definitions.mapM fun d => return (d, ← t.definitionName id d)
  return ⟨← (emissionOrder named e.references).mapM (t.declarationOf e id)⟩

/-- The meaning of a node whose children are evaluated. -/
def nodeMeaning (exact : Bool) (e : Evaluation) (id : NodeId) : NodeData → Except Fault Meaning
  | .name value => return .type (typeNamed value)
  | .namedType name => return .type (← t.typeOf e id name)
  | .list item => return .type (← t.listType e id item)
  | .nonNull inner => return .type (← t.typeOf e id inner)
  | .operation operation type =>
    return .property ⟨operation.spelling, ← t.typeOf e id type, false⟩
  | .field name arguments type => return .property (← t.valueProperty e id name arguments type)
  | .inputValue name type => return .property (← t.valueProperty e id name [] type)
  | .scalar name => return .declaration (.opaqueType name .any)
  | .enumValue name => return .type (.literal name)
  | .enum name members => return .declaration (.typeAlias name (← t.unionType e id members))
  | .union name members => return .declaration (.typeAlias name (← t.unionType e id members))
  | .object name interfaces fields =>
    return .declaration (← t.objectDeclaration exact e id name interfaces fields)
  | .interface name fields =>
    return .declaration (.interface name [] (← t.objectType e id fields false))
  | .input name fields =>
    return .declaration (.typeAlias name (.object (← t.objectType e id fields exact)))
  | .schema operations =>
    return .declaration (.typeAlias "schema" (.object (← t.objectType e id operations exact)))
  | .document definitions => return .program (← t.documentProgram e id definitions)

end Evaluate

end NodeTree

namespace Evaluation

/-- Notes what a node refers to: a reference to a type by its name counts for every node above it. -/
def refer (e : Evaluation) (above : List NodeId) : NodeData → Meaning → Evaluation
  | .namedType _, .type (.identifier name) =>
    { e with references := e.references.record above name }
  | _, _ => e

/-- Notes the meaning of a node. -/
def store (e : Evaluation) (id : NodeId) (m : Meaning) : Evaluation :=
  { e with meanings := (id, m) :: e.meanings }

end Evaluation

namespace NodeTree

/-- Evaluates a node and everything beneath it; `above` lists the nodes above it, the nearest first. -/
def walk (t : NodeTree) (exact : Bool) (above : List NodeId) (id : NodeId) (e : Evaluation) :
    Except Fault Evaluation := do
  let node ← t.node id above.head?
  let e ← node.data.children.foldlM (fun e child =>
    if _ : child < id then walk t exact (id :: above) child e
    else throw (.noMeaning (t.site child (some id)))) e
  let m ← t.nodeMeaning exact e id node.data
  return (e.refer above node.data m).store id m
termination_by id

/-- The program that the tree under a node means. `exact` tells whether the objects that stand for
object types, input types and entry points are exact. -/
def toProgram (t : NodeTree) (root : NodeId) (exact : Bool) : Except Fault Program := do
  let e ← t.walk exact [] root {}
  match ← t.meaning e root none with
  | .program program => return program
  | other => throw (t.misfit root "program" other.shape)

end NodeTree

end SchemaToFlow
