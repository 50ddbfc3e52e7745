import SchemaToFlow.FirstSeen
import SchemaToFlow.Node.Basic

/-!
# References to named types, and the order of definitions

`References` keeps, for every node, the names of the types referred to beneath it, in order of first
reference. `emissionOrder` puts definitions in the order in which they are declared: a definition's
references come before the definition itself, and whatever is named first comes first.

`References` is gqlflow's `ReferenceMap`, with `record`, `get` (`get?`) and `names`, and
`emissionOrder` is its `linearize`. Out of scope: the log line about a reference that is dropped.
-/

namespace SchemaToFlow

/-- Names referred to, by node. -/
structure References where
  entries : List (NodeId × List String) := []
  deriving DecidableEq, Repr

namespace References

/-- Adds a name to the entry of a node, making the entry if there is none. -/
def addEntry (id : NodeId) (name : String) :
    List (NodeId × List String) → List (NodeId × List String)
  | [] => [(id, [name])]
  | (other, names) :: entries =>
    if other = id then (other, addNew names name) :: entries
    else (other, names) :: addEntry id name entries

/-- Adds a name to the entry of a node. -/
def add (r : References) (id : NodeId) (name : String) : References :=
  ⟨addEntry id name r.entries⟩

/-- Adds a name to the entries of all nodes on a path. -/
def record (r : References) (path : List NodeId) (name : String) : References :=
  path.foldl (fun r id => r.add id name) r

/-- The names recorded for a node, if it has an entry. -/
def get? (r : References) (id : NodeId) : Option (List String) := r.entries.lookup id

/-- The names recorded for a node. -/
def names (r : References) (id : NodeId) : List String := (r.get? id).getD []

end References

/-- The last of the definitions with a name. -/
def lastNamed? (definitions : List (NodeId × String)) (name : String) : Option NodeId :=
  (definitions.reverse.find? fun d => d.2 = name).map Prod.fst

/-- All names that definitions mention, in order: for each definition its references, then its own
name. -/
def mentions (definitions : List (NodeId × String)) (r : References) : List String :=
  definitions.flatMap fun d => r.names d.1 ++ [d.2]

/-- The definitions in the order of the first mention of their names. Of several definitions with
one name only the last counts, and names without a definition are left out. -/
def emissionOrder (definitions : List (NodeId × String)) (r : References) : List NodeId :=
  (firstSeen (mentions definitions r)).filterMap (lastNamed? definitions)

end SchemaToFlow
