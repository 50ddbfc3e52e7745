import SchemaToFlow.Node.Basic

/-!
# The nodes of a document

`NodeTree.ofDocument` lists the nodes of a document so that the children of a node stand before it
and the document itself stands last. Each part is placed by a function that is told the number of its
first node (`base`) and gives its nodes in order together with the number of its own node, which is
the last of them.

Directives and the interfaces that an interface implements have no bearing on the declarations, so
they get no nodes.

This is `lower` of gqlflow's `SourceTree`: `placeDocument`, `placeDefinition`, `placeFields`,
`placeInputValue`, `placeType` and `placeTypeName` are `lower_document`, `lower_type_definition`,
`lower_fields`, `lower_input_value`, `lower_type` and `lower_named_type`.

Out of scope: more nodes than 32 bits can number, and the log lines about what gets no node.
-/

namespace SchemaToFlow

open Text Schema

/-- The nodes of a part of a document, and the number of the node that stands for the part. -/
structure Placed where
  nodes : List Node
  root : NodeId
  deriving DecidableEq, Repr

/-- The nodes of several parts, and the numbers of the nodes that stand for them. -/
structure PlacedList where
  nodes : List Node := []
  roots : List NodeId := []
  deriving DecidableEq, Repr

namespace Placed

/-- A part whose children have their nodes at `base`: its own node comes after them. -/
def above (base : Nat) (children : List Node) (data : NodeData) (span : Span) : Placed :=
  ⟨children ++ [⟨data, span⟩], base + children.length⟩

/-- A part by itself. -/
def toList (p : Placed) : PlacedList := ⟨p.nodes, [p.root]⟩

end Placed

/-- Places parts one after the other. -/
def placeAll {α : Type} (place : Nat → α → PlacedList) : Nat → List α → PlacedList
  | _, [] => {}
  | base, a :: as =>
    let first := place base a
    let others := placeAll place (base + first.nodes.length) as
    ⟨first.nodes ++ others.nodes, first.roots ++ others.roots⟩

section Placing

variable (names : NameTable)

/-- A reference to a named type: the name, then the reference. -/
def placeTypeName (base : Nat) (n : Name) : Placed :=
  let name := Placed.above base [] (.name (names.text n.id)) n.span
  .above base name.nodes (.namedType name.root) n.span

/-- A type. -/
def placeType (base : Nat) : TypeRef → Placed
  | .named n => placeTypeName names base n
  | .list item span =>
    let item := placeType base item
    .above base item.nodes (.list item.root) span
  | .nonNull inner span =>
    let inner := placeType base inner
    .above base inner.nodes (.nonNull inner.root) span

/-- An argument or a field of an input type. -/
def placeInputValue (base : Nat) (v : InputValue) : Placed :=
  let type := placeType names base v.type
  .above base type.nodes (.inputValue (names.text v.name.id) type.root) v.span

/-- A field: its arguments, its type, then the field. -/
def placeField (base : Nat) (f : Field) : Placed :=
  let arguments := placeAll (fun b v => (placeInputValue names b v).toList) base f.arguments
  let type := placeType names (base + arguments.nodes.length) f.type
  .above base (arguments.nodes ++ type.nodes)
    (.field (names.text f.name.id) arguments.roots type.root) f.span

/-- References to named types. -/
def placeTypeNames (base : Nat) (ns : List Name) : PlacedList :=
  placeAll (fun b n => (placeTypeName names b n).toList) base ns

/-- Fields. -/
def placeFields (base : Nat) (fs : List Field) : PlacedList :=
  placeAll (fun b f => (placeField names b f).toList) base fs

/-- An entry point of a schema. -/
def placeOperation (base : Nat) (o : RootOperation) : Placed :=
  let type := placeTypeName names base o.type
  .above base type.nodes (.operation o.operation type.root) o.span

/-- A value of an enumeration. -/
def placeEnumValue (base : Nat) (v : EnumValue) : Placed :=
  .above base [] (.enumValue (names.text v.name.id)) v.span

/-- A definition; a directive has no nodes. -/
def placeDefinition (base : Nat) : Definition → PlacedList
  | .schema d =>
    let operations := placeAll (fun b o => (placeOperation names b o).toList) base d.operations
    (Placed.above base operations.nodes (.schema operations.roots) d.span).toList
  | .object d =>
    let interfaces := placeTypeNames names base d.interfaces
    let fields := placeFields names (base + interfaces.nodes.length) d.fields
    (Placed.above base (interfaces.nodes ++ fields.nodes)
      (.object (names.text d.name.id) interfaces.roots fields.roots) d.span).toList
  | .interface d =>
    let fields := placeFields names base d.fields
    (Placed.above base fields.nodes
      (.interface (names.text d.name.id) fields.roots) d.span).toList
  | .union d =>
    let members := placeTypeNames names base d.members
    (Placed.above base members.nodes (.union (names.text d.name.id) members.roots) d.span).toList
  | .enum d =>
    let values := placeAll (fun b v => (placeEnumValue names b v).toList) base d.values
    (Placed.above base values.nodes (.enum (names.text d.name.id) values.roots) d.span).toList
  | .input d =>
    let fields := placeAll (fun b v => (placeInputValue names b v).toList) base d.fields
    (Placed.above base fields.nodes (.input (names.text d.name.id) fields.roots) d.span).toList
  | .scalar d => (Placed.above base [] (.scalar (names.text d.name.id)) d.span).toList
  | .directive _ => {}

/-- A document. -/
def placeDocument (d : Document) : Placed :=
  let definitions := placeAll (placeDefinition names) 0 d.definitions
  .above 0 definitions.nodes (.document definitions.roots) d.span

end Placing

/-- The nodes of a document, whose last node is the document. -/
def NodeTree.ofDocument (names : NameTable) (d : Document) : NodeTree :=
  ⟨(placeDocument names d).nodes⟩

end SchemaToFlow
