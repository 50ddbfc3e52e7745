import SchemaToFlow.Flow.Printer

/-!
# A printer at work

A `Printer` writes one program after another. It holds the layout, what it has written of the
program at hand and how deep it is nested there. What it does for a program is a list of strokes
(`Program.strokes`), and `Printer.run` carries strokes out one by one.

* A declared object is entered before its properties and left after them, and each of its lines is
  indented as deep as the printer is nested at that moment. Types write, and do nothing else.
* Two strokes can fail: leaving what was not entered, and an indentation whose length does not fit
  into a machine word.

This is gqlflow's `Printer` with its output and its indentation. `Printer.print` is its `print`,
`margin?` is `push_indent`, and the strokes of declarations, objects, properties and types are what
`print_declaration`, `print_object_block`, `print_inline_object`, `print_property` and `print_type`
do.

Out of scope: memory. An output may be as long as it needs to be.
-/

namespace SchemaToFlow.Flow

/-- What a printer does at a time. -/
inductive Stroke where
  /-- Writes a text. -/
  | write (text : String)
  /-- Writes a line feed, unless nothing has been written. -/
  | space
  /-- Writes the indentation of the current depth. -/
  | indent
  /-- Goes one level deeper. -/
  | enter
  /-- Goes back one level. -/
  | leave
  deriving DecidableEq, Repr

/-! ## What is done for a program -/

/-- The strokes for a character of a literal. -/
def characterStrokes (c : Char) : List Stroke :=
  if c = '"' ∨ c = '\\' then [.write "\\", .write (String.singleton c)]
  else [.write (String.singleton c)]

/-- Strokes one after the other, with a mark written between any two. -/
def marked (mark : String) (items : List (List Stroke)) : List Stroke :=
  [Stroke.write mark].intercalate items

mutual

/-- The strokes for a type. -/
def TypeExpr.strokes : TypeExpr → List Stroke
  | .string => [.write "string"]
  | .number => [.write "number"]
  | .any => [.write "any"]
  | .literal value =>
    .write "\"" :: (value.toList.flatMap characterStrokes ++ [.write "\""])
  | .identifier name => [.write name]
  | .nullable inner =>
    if inner.needsParens then .write "?" :: .write "(" :: (inner.strokes ++ [.write ")"])
    else .write "?" :: inner.strokes
  | .array item => .write "Array<" :: (item.strokes ++ [.write ">"])
  | .function params returns =>
    .write "(params: " :: (params.strokes ++ .write ") => " :: returns.strokes)
  | .object shape => shape.strokes
  | .union [] => [.write "empty"]
  | .union members => marked " | " (typeStrokes members)

/-- The strokes for some types. -/
def typeStrokes : List TypeExpr → List (List Stroke)
  | [] => []
  | t :: ts => t.strokes :: typeStrokes ts

/-- The strokes for an object type on one line. -/
def ObjectType.strokes : ObjectType → List Stroke
  | ⟨[], exact⟩ => [.write (braces exact).1, .write (braces exact).2]
  | ⟨properties, exact⟩ =>
    .write (braces exact).1 :: .write " " ::
      (marked ", " (propertyStrokes properties) ++ [.write " ", .write (braces exact).2])

/-- The strokes for some properties. -/
def propertyStrokes : List Property → List (List Stroke)
  | [] => []
  | p :: ps => p.strokes :: propertyStrokes ps

/-- The strokes for a property. -/
def Property.strokes : Property → List Stroke
  | ⟨name, type, optional⟩ =>
    .write name :: ((if optional then [.write "?"] else []) ++ .write ": " :: type.strokes)

end

/-- The strokes for a property on a line of its own. -/
def Property.lineStrokes (p : Property) : List Stroke :=
  .indent :: (p.strokes ++ [.write ",\n"])

/-- The strokes for an object type with one property to a line. -/
def ObjectType.blockStrokes : ObjectType → List Stroke
  | ⟨[], exact⟩ => [.write (braces exact).1, .write (braces exact).2]
  | ⟨properties, exact⟩ =>
    .write (braces exact).1 :: .write "\n" :: .enter ::
      (properties.flatMap Property.lineStrokes ++ [.leave, .indent, .write (braces exact).2])

/-- The strokes for what a type alias stands for. -/
def TypeExpr.bodyStrokes : TypeExpr → List Stroke
  | .object shape => shape.blockStrokes
  | t => t.strokes

/-- The strokes for the names that an interface extends. -/
def superStrokes : List String → List Stroke
  | [] => []
  | supers => [.write " extends ", .write (", ".intercalate supers)]

/-- The strokes for a declaration. -/
def Declaration.strokes : Declaration → List Stroke
  | .interface name supers body =>
    .write "export interface " :: .write name ::
      (superStrokes supers ++ .write " " :: body.blockStrokes)
  | .typeAlias name body =>
    .write "export type " :: .write name :: .write " = " :: (body.bodyStrokes ++ [.write ";"])
  | .opaqueType name underlying =>
    .write "export opaque type " :: .write name :: .write " = " ::
      (underlying.strokes ++ [.write ";"])

/-- The strokes for a program. -/
def Program.strokes (pragma : Bool) (p : Program) : List Stroke :=
  (if pragma then [.write "// @flow\n"] else []) ++
    p.body.flatMap fun d => .space :: (d.strokes ++ [.write "\n"])

/-! ## Printers -/

/-- A printer. -/
structure Printer where
  options : PrintOptions
  /-- What is written of the program at hand. -/
  output : String := ""
  /-- How deep the printer is nested. -/
  depth : Nat := 0
  deriving DecidableEq, Repr

namespace Printer

/-- The indentation at the current depth, if its length is a machine word. -/
def margin? (p : Printer) : Option String :=
  if p.options.tabs then some (String.ofList (List.replicate p.depth '\t'))
  else if p.depth * p.options.indent < UInt64.size then
    some (String.ofList (List.replicate (p.depth * p.options.indent) ' '))
  else none

/-- The printer with some more text written. -/
def append (p : Printer) (text : String) : Printer := { p with output := p.output ++ text }

/-- Carries out one stroke. -/
def step (p : Printer) : Stroke → Option Printer
  | .write text => some (p.append text)
  | .space => some (if p.output.isEmpty then p else p.append "\n")
  | .indent => p.margin?.map p.append
  | .enter => some { p with depth := p.depth + 1 }
  | .leave => if p.depth = 0 then none else some { p with depth := p.depth - 1 }

/-- Carries out strokes in order. -/
def run (p : Printer) : List Stroke → Option Printer
  | [] => some p
  | s :: strokes => (p.step s).bind fun q => q.run strokes

/-- A printer that has written nothing. -/
def fresh (options : PrintOptions) : Printer := ⟨options, "", 0⟩

/-- The text of a program, and the printer after it, ready for another one. Whatever the printer was
left with before is dropped first. -/
def print (p : Printer) (program : Program) : Option (String × Printer) :=
  ((fresh p.options).run (program.strokes p.options.pragma)).map fun q =>
    (q.output, { q with output := "" })

/-- The texts of some programs, printed in turn, and the printer after them. -/
def printAll (p : Printer) : List Program → Option (List String × Printer)
  | [] => some ([], p)
  | program :: programs => do
    let (text, p) ← p.print program
    let (texts, p) ← p.printAll programs
    return (text :: texts, p)

end Printer

end SchemaToFlow.Flow
