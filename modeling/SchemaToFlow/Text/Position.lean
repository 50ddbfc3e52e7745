import SchemaToFlow.Text.Span

/-!
# Lines and columns

`position text offset` turns a byte offset into the line and column shown to people. Both count from
one; columns count bytes, and only a line feed ends a line. An offset that does not fall between two
characters of the text is read as its end.

`position` is gqlflow's `line_column`.
-/

namespace SchemaToFlow.Text

/-- A place in a text: line and column, each counted from one. -/
structure Position where
  line : Nat
  column : Nat
  deriving DecidableEq, Repr

/-- The part of a text after its last line feed. -/
def lastLine (text : List Char) : List Char :=
  (text.reverse.takeWhile (· ≠ '\n')).reverse

/-- The position just after a text. -/
def endPosition (text : List Char) : Position :=
  ⟨text.count '\n' + 1, byteLength (lastLine text) + 1⟩

/-- The position of a byte offset in a text. -/
def position (text : List Char) (offset : Nat) : Position :=
  endPosition ((takeBytes? offset text).getD text)

end SchemaToFlow.Text
