import SchemaToFlow.Schema.Document

/-!
# Numbered schema nodes

A `NodeTree` lists the parts of a schema as nodes. A node's number is its place in the list, and nodes
name their children by number. Nothing keeps a list from naming children that come later or do not
exist; whoever evaluates the nodes finds that out.

A `NodeTree` is gqlflow's `SourceTree`, a `Node` its `SourceNode`, with its `NodeData` and its
`NodeKind`; `children` and `name?` are `children` and `name` there, `get?` and `root?` are `get` and
`root`.

Out of scope: the 32 bits of a `NodeId`. Here a node has any number.
-/

namespace SchemaToFlow

open Text Schema

/-- The number of a node. -/
abbrev NodeId := Nat

/-- What sort of schema part a node is. -/
inductive NodeKind where
  | document
  | schema
  | operation
  | object
  | interface
  | input
  | scalar
  | enum
  | enumValue
  | union
  | field
  | inputValue
  | namedType
  | list
  | nonNull
  | name
  deriving DecidableEq, Repr

/-- How messages call a node of this kind. -/
def NodeKind.describe : NodeKind → String
  | .document => "Document"
  | .schema => "SchemaDefinition"
  | .operation => "OperationTypeDefinition"
  | .object => "ObjectTypeDefinition"
  | .interface => "InterfaceTypeDefinition"
  | .input => "InputObjectTypeDefinition"
  | .scalar => "ScalarTypeDefinition"
  | .enum => "EnumTypeDefinition"
  | .enumValue => "EnumValueDefinition"
  | .union => "UnionTypeDefinition"
  | .field => "FieldDefinition"
  | .inputValue => "InputValueDefinition"
  | .namedType => "NamedType"
  | .list => "ListType"
  | .nonNull => "NonNullType"
  | .name => "Name"

/-- What a node says, with its children by number. -/
inductive NodeData where
  | document (definitions : List NodeId)
  | schema (operations : List NodeId)
  | operation (operation : Operation) (type : NodeId)
  | object (name : String) (interfaces fields : List NodeId)
  | interface (name : String) (fields : List NodeId)
  | input (name : String) (fields : List NodeId)
  | scalar (name : String)
  | enum (name : String) (values : List NodeId)
  | enumValue (name : String)
  | union (name : String) (types : List NodeId)
  | field (name : String) (arguments : List NodeId) (type : NodeId)
  | inputValue (name : String) (type : NodeId)
  | namedType (name : NodeId)
  | list (item : NodeId)
  | nonNull (inner : NodeId)
  | name (value : String)
  deriving DecidableEq, Repr

namespace NodeData

/-- The kind of a node. -/
def kind : NodeData → NodeKind
  | .document _ => .document
  | .schema _ => .schema
  | .operation _ _ => .operation
  | .object _ _ _ => .object
  | .interface _ _ => .interface
  | .input _ _ => .input
  | .scalar _ => .scalar
  | .enum _ _ => .enum
  | .enumValue _ => .enumValue
  | .union _ _ => .union
  | .field _ _ _ => .field
  | .inputValue _ _ => .inputValue
  | .namedType _ => .namedType
  | .list _ => .list
  | .nonNull _ => .nonNull
  | .name _ => .name

/-- The name that a definition, field, input value or enumeration value declares. -/
def name? : NodeData → Option String
  | .object n _ _ => some n
  | .interface n _ => some n
  | .input n _ => some n
  | .scalar n => some n
  | .enum n _ => some n
  | .enumValue n => some n
  | .union n _ => some n
  | .field n _ _ => some n
  | .inputValue n _ => some n
  | .document _ | .schema _ | .operation _ _ | .namedType _ | .list _ | .nonNull _ | .name _ => none

/-- The children of a node in the order in which they are visited. -/
def children : NodeData → List NodeId
  | .document definitions => definitions
  | .schema operations => operations
  | .operation _ type => [type]
  | .object _ interfaces fields => interfaces ++ fields
  | .interface _ fields => fields
  | .input _ fields => fields
  | .enum _ values => values
  | .union _ types => types
  | .field _ arguments type => arguments ++ [type]
  | .inputValue _ type => [type]
  | .namedType n => [n]
  | .list item => [item]
  | .nonNull inner => [inner]
  | .scalar _ | .enumValue _ | .name _ => []

end NodeData

/-- A part of a schema and the source it came from. -/
structure Node where
  data : NodeData
  span : Span
  deriving DecidableEq, Repr

/-- Nodes by number. -/
structure NodeTree where
  nodes : List Node := []
  deriving DecidableEq, Repr

namespace NodeTree

/-- The node with a number. -/
def get? (t : NodeTree) (id : NodeId) : Option Node := t.nodes[id]?

/-- The last node, from which a finished tree is evaluated. -/
def root? (t : NodeTree) : Option NodeId :=
  if t.nodes.isEmpty then none else some (t.nodes.length - 1)

end NodeTree

end SchemaToFlow
