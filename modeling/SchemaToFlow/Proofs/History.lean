import SchemaToFlow.Proofs.Emission
import SchemaToFlow.Proofs.Recording

/-!
# Recorded references are a history

The entry of a node depends on nothing but the calls that had the node on their path. Paths may hold
a node several times, and names may come again on any path.

* `get?_record`: one call adds its name to the nodes of its path, and leaves every other entry as it
  is. A node comes to have an entry with the first call that has it on its path.
* `get?_ofCalls`: after any calls, the entry of a node holds the names recorded on it.
* `idxOf_recorded_lt_iff`: these stand in the order of the calls.
* `history_of_calls`: what this says about the entry alone.
-/

namespace SchemaToFlow.References

/-! ## Entries -/

theorem get?_add (r : References) (j : NodeId) (name : String) (id : NodeId) :
    (r.add j name).get? id = if id = j then some (addNew (r.names id) name) else r.get? id :=
  lookup_addEntry j name id r.entries

/-- **Step.** A call adds its name to the nodes of its path, and touches no other entry. -/
theorem get?_record (name : String) (id : NodeId) :
    ∀ (path : List NodeId) (r : References),
      (r.record path name).get? id =
        if id ∈ path then some (addNew (r.names id) name) else r.get? id
  | [], r => by simp [record]
  | j :: path, r => by
    have ih := get?_record name id path (r.add j name)
    rw [record, List.foldl_cons, ← record, ih, names_add, get?_add]
    by_cases h : id = j
    · subst h
      -- where the path comes to the node again, the name is listed already
      simp [addNew_addNew_self]
    · simp [h]

theorem ofCalls_concat (calls : List (List NodeId × String)) (call : List NodeId × String) :
    ofCalls (calls ++ [call]) = (ofCalls calls).record call.1 call.2 := by
  rw [ofCalls, List.foldl_append, List.foldl_cons, List.foldl_nil, ← ofCalls]

theorem recorded_concat (calls : List (List NodeId × String)) (call : List NodeId × String)
    (id : NodeId) : recorded (calls ++ [call]) id =
      recorded calls id ++ if id ∈ call.1 then [call.2] else [] := by
  by_cases h : id ∈ call.1 <;> simp [recorded, h]

/-- **Run.** After any calls, an entry holds the names recorded on its node. -/
theorem get?_ofCalls (calls : List (List NodeId × String)) (id : NodeId) :
    (ofCalls calls).get? id = entryOf (recorded calls id) := by
  -- from the end, where the last call was made
  induction calls using List.reverseRecOn with
  | nil => rfl
  | append_singleton calls call ih =>
    rw [ofCalls_concat, recorded_concat, get?_record, names_ofCalls, ih]
    by_cases h : id ∈ call.1
    · rw [if_pos h, if_pos h, ← firstSeen_concat, entryOf,
        if_neg (List.append_ne_nil_of_right_ne_nil _ (List.cons_ne_nil _ _))]
    · rw [if_neg h, if_neg h, List.append_nil]

/-! ## Names in the order of the calls -/

section Order

variable {calls : List (List NodeId × String)} {id : NodeId} {n m : String}

theorem mem_recorded_iff : n ∈ recorded calls id ↔ ∃ call ∈ calls, id ∈ call.1 ∧ call.2 = n := by
  simp only [recorded, List.mem_map, List.mem_filter, decide_eq_true_iff, and_assoc]

theorem recorded_eq_nil_iff : recorded calls id = [] ↔ ∀ call ∈ calls, id ∉ call.1 := by
  simp [recorded]

variable (calls id n) in
/-- The place of the first call that records a name on a node; if there is none, the number of the
calls. -/
def firstCall : Nat := calls.findIdx fun call => id ∈ call.1 ∧ call.2 = n

theorem firstCall_cons (call : List NodeId × String) :
    firstCall (call :: calls) id n =
      if id ∈ call.1 ∧ call.2 = n then 0 else firstCall calls id n + 1 := by
  rw [firstCall, List.findIdx_cons]
  by_cases h : id ∈ call.1 ∧ call.2 = n
  · rw [decide_eq_true h, if_pos h, cond_true]
  · rw [decide_eq_false h, if_neg h, cond_false, firstCall]

theorem recorded_cons_of_mem {call : List NodeId × String} (h : id ∈ call.1) :
    recorded (call :: calls) id = call.2 :: recorded calls id := by
  simp [recorded, h]

theorem recorded_cons_of_notMem {call : List NodeId × String} (h : id ∉ call.1) :
    recorded (call :: calls) id = recorded calls id := by
  simp [recorded, h]

/-- Calls that do not have the node on their path make no difference for the order. -/
theorem idxOf_recorded_lt_iff :
    (recorded calls id).idxOf n < (recorded calls id).idxOf m ↔
      firstCall calls id n < firstCall calls id m := by
  induction calls with
  | nil => simp [recorded, firstCall]
  | cons call calls ih =>
    rw [firstCall_cons, firstCall_cons]
    by_cases h : id ∈ call.1
    · simp only [recorded_cons_of_mem h, h, true_and]
      by_cases hm : call.2 = m
      · rw [hm, List.idxOf_cons_self, if_pos rfl]
        exact iff_of_false (Nat.not_lt_zero _) (Nat.not_lt_zero _)
      · rw [List.idxOf_cons_ne _ hm, if_neg hm]
        by_cases hn : call.2 = n
        · rw [hn, List.idxOf_cons_self, if_pos rfl]
          exact iff_of_true (Nat.succ_pos _) (Nat.succ_pos _)
        · rw [List.idxOf_cons_ne _ hn, if_neg hn, Nat.succ_lt_succ_iff, Nat.succ_lt_succ_iff, ih]
    · rw [recorded_cons_of_notMem h, if_neg (fun hc => h hc.1), if_neg (fun hc => h hc.1), ih,
        Nat.succ_lt_succ_iff]

end Order

/-! ## The history of a node -/

/-- **The entry of a node is the history of the calls that had it on their path.**

* The node has no entry exactly if it was on no path.
* Otherwise its entry lists the names recorded with a path that holds the node, each once, in the
  order of their first recording.
* A call leaves the entries of all nodes alone that are not on its path. -/
theorem history_of_calls (calls : List (List NodeId × String)) (id : NodeId) :
    ((ofCalls calls).get? id = none ↔ ∀ call ∈ calls, id ∉ call.1) ∧
    (∀ names, (ofCalls calls).get? id = some names →
      names.Nodup ∧ (∀ n, n ∈ names ↔ ∃ call ∈ calls, id ∈ call.1 ∧ call.2 = n) ∧
        ∀ n m, names.idxOf n < names.idxOf m ↔ firstCall calls id n < firstCall calls id m) ∧
    ∀ path name, id ∉ path →
      ((ofCalls calls).record path name).get? id = (ofCalls calls).get? id := by
  rw [get?_ofCalls, entryOf]
  refine ⟨?_, fun names hnames => ?_, fun path name hpath => ?_⟩
  · rw [← recorded_eq_nil_iff]
    split
    · exact iff_of_true rfl ‹_›
    · exact iff_of_false (by simp) ‹_›
  · split at hnames
    · cases hnames
    · obtain rfl := Option.some.inj hnames
      refine ⟨nodup_firstSeen _, fun n => ?_, fun n m => ?_⟩
      · rw [mem_firstSeen, mem_recorded_iff]
      · rw [idxOf_firstSeen_lt_iff, idxOf_recorded_lt_iff]
  · rw [get?_record, if_neg hpath, get?_ofCalls, entryOf]

example :
    let r := ofCalls [([9, 7, 5], "Topic"), ([9, 7, 9], "Actor"), ([5, 9], "Actor"), ([7], "Topic")]
    r.get? 9 = some ["Topic", "Actor"] ∧ r.get? 5 = some ["Topic", "Actor"] ∧ r.get? 0 = none := by
  decide

end SchemaToFlow.References
