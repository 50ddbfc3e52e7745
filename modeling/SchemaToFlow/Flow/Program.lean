/-!
# Flow programs

A `Program` is a list of exported type declarations. Types, object types and their properties are
defined together, since each may hold the others.

A `TypeExpr` is gqlflow's `TargetType`; `ObjectType`, `Property`, `Declaration` and `Program` are
its own. Its `Export`, which wraps every declaration, appears in `Flow/Json.lean` only.
-/

namespace SchemaToFlow.Flow

mutual

/-- An object type; an exact one has no other properties than those listed. -/
structure ObjectType where
  properties : List Property
  exact : Bool

/-- A property of an object type; an optional one may be missing. -/
structure Property where
  name : String
  type : TypeExpr
  optional : Bool

/-- A type. -/
inductive TypeExpr where
  | string
  | number
  | any
  /-- The type whose only value is the given text. -/
  | literal (value : String)
  /-- A type by its name. -/
  | identifier (name : String)
  | nullable (inner : TypeExpr)
  | array (item : TypeExpr)
  /-- A function that takes all its arguments as one object. -/
  | function (params : ObjectType) (returns : TypeExpr)
  | object (shape : ObjectType)
  | union (members : List TypeExpr)

end

deriving instance Repr for ObjectType
deriving instance Repr for Property
deriving instance Repr for TypeExpr

/-- The name of a type that is given by its name. -/
def TypeExpr.identifier? : TypeExpr → Option String
  | .identifier name => some name
  | _ => none

/-- An exported declaration. -/
inductive Declaration where
  | interface (name : String) (supers : List String) (body : ObjectType)
  | typeAlias (name : String) (body : TypeExpr)
  | opaqueType (name : String) (underlying : TypeExpr)
  deriving Repr

/-- The name that a declaration declares. -/
def Declaration.name : Declaration → String
  | .interface name _ _ => name
  | .typeAlias name _ => name
  | .opaqueType name _ => name

/-- Exported declarations in the order in which they are written. -/
structure Program where
  body : List Declaration := []
  deriving Repr

namespace Program

/-- The names declared, in order. -/
def names (p : Program) : List String := p.body.map Declaration.name

/-- The first declaration of a name. -/
def find? (p : Program) (name : String) : Option Declaration :=
  p.body.find? fun d => d.name = name

end Program

end SchemaToFlow.Flow
