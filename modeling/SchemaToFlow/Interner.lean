import Std.Data.HashMap
import SchemaToFlow.NameTable

/-!
# Interners

An `Interner` keeps a table of names for fast access both ways: a hash map gives the number of a
name, and an array the name of a number. Numbers are 32-bit words; a name beyond the last of them
gets the last one, too.

A `Call` is what is asked of an interner, and `Interner.calls` answers any number of them in turn.

It is gqlflow's `Interner`: `initial`, `intern`, `lookup?`, `text` and `size` are `new`, `intern`,
`lookup`, `get` and `len`. Out of scope: that readers of one schema share it; each hands it on to
the next.
-/

namespace SchemaToFlow

/-- Numbers by name, and names by number. -/
structure Interner where
  ids : Std.HashMap String UInt32
  names : Array String

/-- What is asked of an interner. -/
inductive Call where
  /-- The number of a name, which is listed if it was not. -/
  | intern (name : String)
  /-- The number of a name, if it is listed. -/
  | lookup (name : String)
  /-- The name with a number. -/
  | get (id : UInt32)
  deriving DecidableEq, Repr

/-- What an interner answers. -/
inductive Answer where
  | number (id : UInt32)
  | found (id : Option UInt32)
  | name (text : String)
  deriving DecidableEq, Repr

namespace Interner

/-- An interner that lists nothing. -/
def empty : Interner := ⟨∅, #[]⟩

/-- Number of names listed. -/
def size (t : Interner) : Nat := t.names.size

/-- The number that the next new name gets. -/
def next (t : Interner) : UInt32 := UInt32.ofNat (min t.size (UInt32.size - 1))

/-- The number of `name`, and the interner that lists it. -/
def intern (t : Interner) (name : String) : UInt32 × Interner :=
  match t.ids[name]? with
  | some id => (id, t)
  | none => (t.next, ⟨t.ids.insert name t.next, t.names.push name⟩)

/-- The number of `name`, if it is listed. -/
def lookup? (t : Interner) (name : String) : Option UInt32 := t.ids[name]?

/-- The name with a number; a number that was never given out stands for the empty text. -/
def text (t : Interner) (id : UInt32) : String := t.names[id.toNat]?.getD ""

/-- An interner before anything is read. It lists the scalars that need no declaration. -/
def initial : Interner :=
  NameTable.builtinScalars.foldl (fun t name => (t.intern name).2) empty

/-- Answers one call. -/
def call (t : Interner) : Call → Answer × Interner
  | .intern name => (.number (t.intern name).1, (t.intern name).2)
  | .lookup name => (.found (t.lookup? name), t)
  | .get id => (.name (t.text id), t)

/-- Answers calls in turn. -/
def calls (t : Interner) : List Call → List Answer × Interner
  | [] => ([], t)
  | c :: cs => ((t.call c).1 :: ((t.call c).2.calls cs).1, ((t.call c).2.calls cs).2)

end Interner

end SchemaToFlow
