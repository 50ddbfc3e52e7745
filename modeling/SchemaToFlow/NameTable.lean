import SchemaToFlow.FirstSeen

/-!
# The table of names

Every name read from a schema gets a number, the same number each time. A `NameTable` lists the
names by number; a new one lists the scalars that every schema may use without declaring them.

* `intern` gives the number of a name and the table that lists it; `lookup?` only looks.
* `text` gives the name of a number, and the empty text for a number never given out.
* The names are listed once each, which is part of the type.

This is what readers use of gqlflow's `Interner`. Out of scope: the 32 bits of its numbers, which
`Interner.lean` has.
-/

namespace SchemaToFlow

/-- The number of a name in a table. -/
structure NameId where
  index : Nat
  deriving DecidableEq, Repr

/-- Names by number, each listed once. -/
structure NameTable where
  names : List String
  nodup : names.Nodup
  deriving DecidableEq, Repr

namespace NameTable

/-- The scalars that need no declaration. -/
def builtinScalars : List String := ["String", "ID", "Int", "Float", "Boolean"]

/-- The table before anything is read. -/
def initial : NameTable := ⟨builtinScalars, by decide⟩

/-- Number of names listed. -/
def size (t : NameTable) : Nat := t.names.length

/-- The table with `name` listed. -/
def add (t : NameTable) (name : String) : NameTable :=
  ⟨addNew t.names name, nodup_addNew t.nodup name⟩

/-- The number of `name`, if it is listed. -/
def lookup? (t : NameTable) (name : String) : Option NameId :=
  if name ∈ t.names then some ⟨t.names.idxOf name⟩ else none

/-- The number of `name`, and the table that lists it: a new name gets the next free number. -/
def intern (t : NameTable) (name : String) : NameId × NameTable :=
  (⟨t.names.idxOf name⟩, t.add name)

/-- The name with a number; a number that was never given out stands for the empty text. -/
def text (t : NameTable) (id : NameId) : String := t.names[id.index]?.getD ""

end NameTable

end SchemaToFlow
