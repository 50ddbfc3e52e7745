import SchemaToFlow.Flow.Program

/-!
# Flow source text

`Program.print` writes a program. Each declaration ends its own line, and an empty line stands between
two of them. The object that a declaration declares has one property to a line; objects elsewhere stay
on their line. `PrintOptions` decide how far those properties are indented and whether the text opens
with the mark that asks for type checking.

`Program.print` is gqlflow's `print_with_options`. `Declaration.render`, `ObjectType.renderBlock`,
`ObjectType.render`, `Property.render` and `TypeExpr.render` are the texts that its
`print_declaration`, `print_object_block`, `print_inline_object`, `print_property` and `print_type`
add.

Out of scope: an indentation that no machine word can measure (`Flow/Printing.lean`).
-/

namespace SchemaToFlow.Flow

/-- Layout of the text. -/
structure PrintOptions where
  /-- Number of spaces that indent a property. -/
  indent : Nat := 2
  /-- Whether one tab indents a property instead. -/
  tabs : Bool := false
  /-- Whether the text opens with the type-checking mark. -/
  pragma : Bool := true
  deriving DecidableEq, Repr

/-- What stands before a property on a line of its own. -/
def PrintOptions.unit (o : PrintOptions) : String :=
  if o.tabs then "\t" else String.ofList (List.replicate o.indent ' ')

/-- Puts a backslash before every quote and every backslash. -/
def escape : List Char → List Char
  | [] => []
  | c :: cs => if c = '"' ∨ c = '\\' then '\\' :: c :: escape cs else c :: escape cs

/-- A string literal. -/
def quote (value : String) : String :=
  "\"" ++ String.ofList (escape value.toList) ++ "\""

/-- The brackets that open and close an object type. -/
def braces (exact : Bool) : String × String :=
  if exact then ("\x7b|", "|\x7d") else ("\x7b", "\x7d")

/-- Whether a type stands in parentheses after a question mark. -/
def TypeExpr.needsParens : TypeExpr → Bool
  | .function _ _ => true
  | .union members => decide (1 < members.length)
  | _ => false

mutual

/-- The text of a type. -/
def TypeExpr.render : TypeExpr → String
  | .string => "string"
  | .number => "number"
  | .any => "any"
  | .literal value => quote value
  | .identifier name => name
  | .nullable inner =>
    if inner.needsParens then "?(" ++ inner.render ++ ")" else "?" ++ inner.render
  | .array item => "Array<" ++ item.render ++ ">"
  | .function params returns => "(params: " ++ params.render ++ ") => " ++ returns.render
  | .object shape => shape.render
  | .union [] => "empty"
  | .union members => " | ".intercalate (renderTypes members)

/-- The texts of some types. -/
def renderTypes : List TypeExpr → List String
  | [] => []
  | t :: ts => t.render :: renderTypes ts

/-- The text of an object type on one line. -/
def ObjectType.render : ObjectType → String
  | ⟨[], exact⟩ => (braces exact).1 ++ (braces exact).2
  | ⟨properties, exact⟩ =>
    (braces exact).1 ++ " " ++ ", ".intercalate (renderProperties properties) ++ " " ++
      (braces exact).2

/-- The texts of some properties. -/
def renderProperties : List Property → List String
  | [] => []
  | p :: ps => p.render :: renderProperties ps

/-- The text of a property. -/
def Property.render : Property → String
  | ⟨name, type, optional⟩ => name ++ (if optional then "?: " else ": ") ++ type.render

end

/-- The text of an object type with one property to a line. -/
def ObjectType.renderBlock (o : PrintOptions) : ObjectType → String
  | ⟨[], exact⟩ => (braces exact).1 ++ (braces exact).2
  | ⟨properties, exact⟩ =>
    (braces exact).1 ++ "\n" ++
      String.join (properties.map fun p => o.unit ++ p.render ++ ",\n") ++ (braces exact).2

/-- The text of what a type alias stands for. -/
def TypeExpr.renderBody (o : PrintOptions) : TypeExpr → String
  | .object shape => shape.renderBlock o
  | t => t.render

/-- What stands between the name of an interface and its body. -/
def renderSupers : List String → String
  | [] => " "
  | supers => " extends " ++ ", ".intercalate supers ++ " "

/-- The text of a declaration. -/
def Declaration.render (o : PrintOptions) : Declaration → String
  | .interface name supers body =>
    "export interface " ++ name ++ renderSupers supers ++ body.renderBlock o
  | .typeAlias name body => "export type " ++ name ++ " = " ++ body.renderBody o ++ ";"
  | .opaqueType name underlying =>
    "export opaque type " ++ name ++ " = " ++ underlying.render ++ ";"

/-- The text of a program. -/
def Program.print (o : PrintOptions) (p : Program) : String :=
  let head := if o.pragma then ["// @flow"] else []
  "\n".intercalate ((head ++ p.body.map (Declaration.render o)).map (· ++ "\n"))

end SchemaToFlow.Flow
