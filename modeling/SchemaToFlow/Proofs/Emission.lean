import SchemaToFlow.Proofs.Evaluation

/-!
# The order of definitions

`emissionOrder` takes numbered definitions and the names recorded for their nodes, however those
came to be recorded. Neither numbers nor names need be different, and a name may be recorded that
nothing defines.

* `References.names_ofCalls`: calls of `record` leave each node with the names recorded on it, each
  once, in the order of the calls.
* `lastNamed?_eq_some_iff`: a name stands for the last of its definitions.
* `emissionOrder_by_first_listing`: every name defined gives one number, and the numbers stand in
  the order in which the names are first listed.
-/

namespace SchemaToFlow

/-! ## Recorded names -/

namespace References

/-- What is recorded by calls of `record`, each with a path and a name. -/
def ofCalls (calls : List (List NodeId × String)) : References :=
  calls.foldl (fun r call => r.record call.1 call.2) {}

/-- The names that calls record on a node, call by call. -/
def recorded (calls : List (List NodeId × String)) (id : NodeId) : List String :=
  (calls.filter fun call => id ∈ call.1).map Prod.snd

theorem names_foldl_record (id : NodeId) :
    ∀ (calls : List (List NodeId × String)) (r : References),
      (calls.foldl (fun r call => r.record call.1 call.2) r).names id =
        (recorded calls id).foldl addNew (r.names id)
  | [], _ => rfl
  | call :: calls, r => by
    rw [List.foldl_cons, names_foldl_record id calls, names_record]
    by_cases h : id ∈ call.1 <;> simp [recorded, h]

/-- Every node keeps the names recorded on it, each once and in the order of the calls. -/
theorem names_ofCalls (calls : List (List NodeId × String)) (id : NodeId) :
    (ofCalls calls).names id = firstSeen (recorded calls id) :=
  names_foldl_record id calls {}

/-- Leaving out the calls that record other names leaves out those names. -/
theorem recorded_filter (p : String → Bool) (calls : List (List NodeId × String)) (id : NodeId) :
    recorded (calls.filter fun call => p call.2) id = (recorded calls id).filter p := by
  simp only [recorded, List.filter_map, List.filter_filter, Function.comp_def, Bool.and_comm]

end References

open References

/-! ## The last definition of a name -/

section Definitions

variable (definitions : List (NodeId × String))

/-- The names that are defined, definition by definition. -/
def definedNames : List String := definitions.map Prod.snd

/-- The number of the last definition of a name. -/
def LastOf (name : String) (id : NodeId) : Prop :=
  ∃ before after, definitions = before ++ (id, name) :: after ∧ name ∉ definedNames after

variable {definitions}

theorem lastNamed?_eq_some_iff {name : String} {id : NodeId} :
    lastNamed? definitions name = some id ↔ LastOf definitions name id := by
  simp only [lastNamed?, Option.map_eq_some_iff, List.find?_eq_some_iff_append, LastOf,
    definedNames, List.mem_map, not_exists, not_and]
  constructor
  · rintro ⟨⟨i, n⟩, ⟨hn, after, before, hsplit, hafter⟩, rfl⟩
    obtain rfl : n = name := of_decide_eq_true hn
    refine ⟨before.reverse, after.reverse, ?_, fun d hd => ?_⟩
    · simpa using congrArg List.reverse hsplit
    · simpa using hafter d (List.mem_reverse.1 hd)
  · rintro ⟨before, after, rfl, hafter⟩
    refine ⟨(id, name), ⟨by simp, after.reverse, before.reverse, by simp, fun d hd => ?_⟩, rfl⟩
    simpa using hafter d (List.mem_reverse.1 hd)

theorem isSome_lastNamed? (name : String) :
    (lastNamed? definitions name).isSome = decide (name ∈ definedNames definitions) := by
  rw [Bool.eq_iff_iff, decide_eq_true_iff]
  simp [lastNamed?, definedNames]

/-- Of what is looked up one by one, the finds belong to those that are found. -/
theorem forall₂_filterMap {α β : Type} (f : α → Option β) :
    ∀ as : List α,
      List.Forall₂ (fun a b => f a = some b) (as.filter fun a => (f a).isSome) (as.filterMap f)
  | [] => .nil
  | a :: as => by
    cases h : f a with
    | none => simpa [h] using forall₂_filterMap f as
    | some b => simpa [h] using forall₂_filterMap f as

/-! ## The order -/

variable (definitions) in
/-- The names that are listed: for each definition those recorded on its node, then its own. -/
def listing (calls : List (List NodeId × String)) : List String :=
  definitions.flatMap fun d => recorded calls d.1 ++ [d.2]

theorem firstSeen_mentions_ofCalls (calls : List (List NodeId × String)) :
    firstSeen (mentions definitions (ofCalls calls)) = firstSeen (listing definitions calls) := by
  simp only [mentions, names_ofCalls]
  exact firstSeen_flatMap _ _ definitions

theorem mem_listing_of_mem_definedNames {name : String} (h : name ∈ definedNames definitions)
    (calls : List (List NodeId × String)) : name ∈ listing definitions calls := by
  obtain ⟨d, hd, rfl⟩ := List.mem_map.1 h
  exact List.mem_flatMap.2 ⟨d, hd, List.mem_append_right _ (List.mem_singleton.2 rfl)⟩

variable (definitions) in
/-- The names that are defined, in the order in which they are first listed. -/
def namesInOrder (calls : List (List NodeId × String)) : List String :=
  firstSeen ((listing definitions calls).filter fun n => n ∈ definedNames definitions)

theorem mem_namesInOrder {calls : List (List NodeId × String)} {name : String} :
    name ∈ namesInOrder definitions calls ↔ name ∈ definedNames definitions := by
  simp only [namesInOrder, mem_firstSeen, List.mem_filter, decide_eq_true_iff]
  exact ⟨And.right, fun h => ⟨mem_listing_of_mem_definedNames h calls, h⟩⟩

theorem idxOf_namesInOrder_lt_iff {calls : List (List NodeId × String)} {n m : String}
    (hn : n ∈ definedNames definitions) (hm : m ∈ definedNames definitions) :
    (namesInOrder definitions calls).idxOf n < (namesInOrder definitions calls).idxOf m ↔
      (listing definitions calls).idxOf n < (listing definitions calls).idxOf m := by
  rw [namesInOrder, idxOf_firstSeen_lt_iff]
  exact idxOf_filter_lt_iff (p := fun x => x ∈ definedNames definitions) (decide_eq_true hn)
    (decide_eq_true hm)

theorem emissionOrder_ofCalls (calls : List (List NodeId × String)) :
    emissionOrder definitions (ofCalls calls) =
      (namesInOrder definitions calls).filterMap (lastNamed? definitions) := by
  rw [emissionOrder, firstSeen_mentions_ofCalls, namesInOrder, ← filter_firstSeen,
    List.filterMap_filter]
  refine List.filterMap_congr fun n _ => ?_
  rw [← isSome_lastNamed?]
  cases lastNamed? definitions n <;> rfl

/-- The order gives, name by name, the number of the last definition. -/
theorem forall₂_emissionOrder (calls : List (List NodeId × String)) :
    List.Forall₂ (LastOf definitions) (namesInOrder definitions calls)
      (emissionOrder definitions (ofCalls calls)) := by
  have hfound : ((namesInOrder definitions calls).filter fun n =>
      (lastNamed? definitions n).isSome) = namesInOrder definitions calls := by
    refine List.filter_eq_self.2 fun n hn => ?_
    rw [isSome_lastNamed?]
    exact decide_eq_true (mem_namesInOrder.1 hn)
  have h := forall₂_filterMap (lastNamed? definitions) (namesInOrder definitions calls)
  rw [hfound] at h
  simpa only [lastNamed?_eq_some_iff, emissionOrder_ofCalls] using h

theorem namesInOrder_filter (calls : List (List NodeId × String)) :
    namesInOrder definitions (calls.filter fun call => call.2 ∈ definedNames definitions) =
      namesInOrder definitions calls := by
  simp only [namesInOrder, listing, recorded_filter fun n => n ∈ definedNames definitions,
    List.filter_flatMap, List.filter_append, List.filter_filter, Bool.and_self]

end Definitions

/-- **Every name defined gives one number, in the order of the listing.** Let calls record names on
paths, and list for every definition, also one that a later definition of the same name replaces,
the names recorded on its node and then its own name. There is an order of the names defined, each
once, in which

* the numbers given are those of the last definitions, name by name and no others;
* of two names that one comes first which is listed first.

Recorded names that are not defined might as well not have been recorded. -/
theorem emissionOrder_by_first_listing (definitions : List (NodeId × String))
    (calls : List (List NodeId × String)) :
    (∃ order : List String, order.Nodup ∧ (∀ n, n ∈ order ↔ n ∈ definedNames definitions) ∧
      List.Forall₂ (LastOf definitions) order (emissionOrder definitions (ofCalls calls)) ∧
      ∀ n ∈ order, ∀ m ∈ order, order.idxOf n < order.idxOf m ↔
        (listing definitions calls).idxOf n < (listing definitions calls).idxOf m) ∧
    emissionOrder definitions
        (ofCalls (calls.filter fun call => call.2 ∈ definedNames definitions)) =
      emissionOrder definitions (ofCalls calls) := by
  constructor
  · refine ⟨namesInOrder definitions calls, nodup_firstSeen _, fun n => mem_namesInOrder,
      forall₂_emissionOrder calls, fun n hn m hm => ?_⟩
    exact idxOf_namesInOrder_lt_iff (mem_namesInOrder.1 hn) (mem_namesInOrder.1 hm)
  · rw [emissionOrder_ofCalls, emissionOrder_ofCalls, namesInOrder_filter]

/-- Two definitions of `A` that share their number with others, a name that nothing defines, and a
definition that is mentioned before it comes. -/
example : emissionOrder [(1, "A"), (2, "B"), (1, "C"), (2, "A")]
    (ofCalls [([1], "X"), ([2, 1], "C"), ([1], "B")]) = [1, 2, 2] := by
  decide

end SchemaToFlow
