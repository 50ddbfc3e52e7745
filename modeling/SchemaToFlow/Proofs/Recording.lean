import SchemaToFlow.Proofs.Arrangement

/-!
# Recorded references

Where a walk comes to a reference, it records the name on every node of the path down to it. So the
names recorded on a node are those that are referred to beneath it, and once a node has been walked
they stay, though the node may be walked again and others may share what lies beneath it.

* `later_of_walk`: a walk goes on in single steps, which note the meaning and the reference of one
  node. Meanings are only ever added in front, and names at the end.
* `Visits.fixed`, `Passes.fixed`: at every moment of a walk, the nodes that have a meaning have the
  names that belong to it.
* `mentions_eq_filterMap`: these are the names that references beneath the node mean, in post-order.
* `walk_records_references`: therefore the entry of a node that is reached tells the references
  beneath it, and no other node has an entry.
-/

namespace SchemaToFlow

open Text Schema SchemaToFlow.Flow

/-! ## Entries -/

namespace References

/-- The entry of a node on which names were recorded, in order and with repetitions. It has none if
there are no names. -/
def entryOf (names : List String) : Option (List String) :=
  if names = [] then none else some (firstSeen names)

/-- Every entry has a name. -/
def Filled (r : References) : Prop := ∀ j, r.get? j ≠ some []

variable {r : References}

theorem Filled.add (h : r.Filled) (id : NodeId) (name : String) : (r.add id name).Filled := by
  intro j
  rw [get?, References.add, lookup_addEntry]
  split
  · exact fun hnil => addNew_ne_nil _ name (Option.some.inj hnil)
  · exact h j

theorem Filled.record (h : r.Filled) (path : List NodeId) (name : String) :
    (r.record path name).Filled := by
  induction path generalizing r with
  | nil => exact h
  | cons id path ih => exact ih (h.add id name)

/-- Without empty entries, the names of a node tell its entry. -/
theorem Filled.get?_eq (h : r.Filled) {j : NodeId} {names : List String}
    (hnames : r.names j = firstSeen names) : r.get? j = entryOf names := by
  unfold References.names at hnames
  cases hget : r.get? j with
  | none =>
    rw [hget] at hnames
    rw [entryOf, if_pos (firstSeen_eq_nil_iff.1 hnames.symm)]
  | some found =>
    rw [hget] at hnames
    have hfound : found = firstSeen names := hnames
    have hne : names ≠ [] := fun hnil => h j (by rw [hget, hfound, firstSeen_eq_nil_iff.2 hnil])
    rw [entryOf, if_neg hne, hfound]

end References

namespace NodeTree

variable {t : NodeTree} {exact : Bool} {root id : NodeId} {above : List NodeId}
  {e e' final : Evaluation}

/-! ## Steps of a walk -/

/-- One step of a walk: the reference of a node is recorded on the path down to it, and its meaning
is stored. -/
def Notes (t : NodeTree) (root : NodeId) (e e' : Evaluation) : Prop :=
  ∃ (above : List NodeId) (id : NodeId) (data : NodeData) (m : Meaning),
    (∀ a ∈ id :: above, t.Reaches root a) ∧ e' = (e.refer above data m).store id m

/-- What is found later on a walk. -/
def Later (t : NodeTree) (root : NodeId) : Evaluation → Evaluation → Prop :=
  Relation.ReflTransGen (t.Notes root)

theorem filled_of_notes (h : t.Notes root e e') (hf : e.references.Filled) :
    e'.references.Filled := by
  obtain ⟨above, id, data, m, _, rfl⟩ := h
  show (e.refer above data m).references.Filled
  unfold Evaluation.refer
  split
  · exact hf.record above _
  · exact hf

theorem suffix_of_notes (h : t.Notes root e e') : e.meanings <:+ e'.meanings := by
  obtain ⟨above, id, data, m, _, rfl⟩ := h
  show e.meanings <:+ (id, m) :: (e.refer above data m).meanings
  rw [Evaluation.meanings_refer]
  exact List.suffix_cons _ _

theorem prefix_of_notes (h : t.Notes root e e') (j : NodeId) :
    e.references.names j <+: e'.references.names j := by
  obtain ⟨above, id, data, m, _, rfl⟩ := h
  rw [Evaluation.names_store, Evaluation.names_refer]
  split
  · unfold NodeData.ownReference
    split
    · exact prefix_addNew _ _
    · exact List.prefix_rfl
  · exact List.prefix_rfl

theorem names_of_notes (h : t.Notes root e e') {j : NodeId} (hj : ¬ t.Reaches root j) :
    e'.references.names j = e.references.names j := by
  obtain ⟨above, id, data, m, hpath, rfl⟩ := h
  have hna : j ∉ above := fun ha => hj (hpath j (List.mem_cons_of_mem id ha))
  rw [Evaluation.names_store, Evaluation.names_refer, if_neg hna]

namespace Later

theorem filled (h : t.Later root e e') (hf : e.references.Filled) : e'.references.Filled := by
  induction h with
  | refl => exact hf
  | tail _ hstep ih => exact filled_of_notes hstep ih

theorem suffix (h : t.Later root e e') : e.meanings <:+ e'.meanings := by
  induction h with
  | refl => exact List.suffix_rfl
  | tail _ hstep ih => exact ih.trans (suffix_of_notes hstep)

theorem prefix_names (h : t.Later root e e') (j : NodeId) :
    e.references.names j <+: e'.references.names j := by
  induction h with
  | refl => exact List.prefix_rfl
  | tail _ hstep ih => exact ih.trans (prefix_of_notes hstep j)

theorem names_eq (h : t.Later root e e') {j : NodeId} (hj : ¬ t.Reaches root j) :
    e'.references.names j = e.references.names j := by
  induction h with
  | refl => rfl
  | tail _ hstep ih => rw [names_of_notes hstep hj, ih]

end Later

theorem visit_eq_ok_iff {c : NodeId} :
    t.visit exact above id e c = .ok e' ↔ c < id ∧ t.walk exact (id :: above) c e = .ok e' := by
  unfold visit
  by_cases hc : c < id
  · simp [hc]
  · rw [if_neg hc]
    exact ⟨nofun, fun h => absurd h.1 hc⟩

theorem reaches_cons {c : NodeId} (hpath : ∀ a ∈ id :: above, t.Reaches root a)
    (hc : t.Lists id c) : ∀ a ∈ c :: id :: above, t.Reaches root a := by
  intro a ha
  rcases List.mem_cons.1 ha with rfl | ha
  · exact (hpath id List.mem_cons_self).tail hc
  · exact hpath a ha

/-- **A walk goes on step by step.** By induction on the number of the node: children have smaller
ones. -/
theorem later_of_walk (hpath : ∀ a ∈ id :: above, t.Reaches root a)
    (h : t.walk exact above id e = .ok e') : t.Later root e e' := by
  induction id using Nat.strongRecOn generalizing above e e' with
  | ind id ih =>
    obtain ⟨node, e₁, m, hn, hrun, rfl⟩ := exists_of_walk_eq_ok h
    have hchildren : t.Later root e e₁ := by
      refine reflTransGen_of_foldlM (fun c hc s s' hvisit => ?_) hrun
      obtain ⟨hlt, hwalk⟩ := visit_eq_ok_iff.1 hvisit
      exact ih c hlt (reaches_cons hpath ⟨node, hn, hc⟩) hwalk
    exact hchildren.tail ⟨above, id, node.data, m, hpath, rfl⟩

/-- The same for some children of a node. -/
theorem later_of_foldlM {node : Node} {cs : List NodeId}
    (hpath : ∀ a ∈ id :: above, t.Reaches root a) (hn : t.get? id = some node)
    (hcs : cs ⊆ node.data.children) (h : cs.foldlM (t.visit exact above id) e = .ok e') :
    t.Later root e e' := by
  refine reflTransGen_of_foldlM (fun c hc s s' hvisit => ?_) h
  exact later_of_walk (reaches_cons hpath ⟨node, hn, hcs hc⟩) (visit_eq_ok_iff.1 hvisit).2

/-! ## Visits -/

theorem Visits.reaches_path (h : t.Visits exact root above id e) :
    ∀ a ∈ id :: above, t.Reaches root a := by
  induction h with
  | root =>
    intro a ha
    rw [List.mem_singleton.1 ha]
    exact .refl
  | child _ hn hsplit _ _ ih =>
    exact reaches_cons ih ⟨_, hn, by simp [hsplit]⟩

/-- The nodes of the path lead down to the node. -/
theorem Visits.transGen (h : t.Visits exact root above id e) :
    ∀ a ∈ above, Relation.TransGen t.Lists a id := by
  induction h with
  | root => exact fun _ ha => absurd ha List.not_mem_nil
  | @child above id c _ _ node _ _ _ hn hsplit _ _ ih =>
    intro a ha
    have hc : t.Lists id c := ⟨node, hn, by simp [hsplit]⟩
    rcases List.mem_cons.1 ha with rfl | ha
    · exact .single hc
    · exact (ih a ha).tail hc

theorem Visits.later (h : t.Visits exact root above id e) : t.Later root {} e := by
  induction h with
  | root => exact .refl
  | child hv hn hsplit _ hrun ih =>
    exact ih.trans (later_of_foldlM hv.reaches_path hn (by simp [hsplit]) hrun)

/-- Where a walk succeeds, every visit does. -/
theorem Visits.exists_walk (hfinal : t.walk exact [] root {} = .ok final)
    (h : t.Visits exact root above id e) :
    ∃ e₁, t.walk exact above id e = .ok e₁ ∧ t.Later root e₁ final := by
  induction h with
  | root => exact ⟨final, hfinal, .refl⟩
  | @child above id c e e' node before after hv hn hsplit _ hrun ih =>
    obtain ⟨e₁, hwalk, hlater⟩ := ih
    obtain ⟨node', e₂, m, hn', hchildren, rfl⟩ := exists_of_walk_eq_ok hwalk
    obtain rfl := Option.some.inj (hn.symm.trans hn')
    rw [hsplit] at hchildren
    obtain ⟨s₁, s₂, hbefore, hvisit, hafter⟩ := foldlM_append_cons_eq_ok_iff.1 hchildren
    obtain rfl := Except.ok.inj (hrun.symm.trans hbefore)
    have hrest : t.Later root s₂ e₂ :=
      later_of_foldlM hv.reaches_path hn (by simp [hsplit]) hafter
    refine ⟨s₂, (visit_eq_ok_iff.1 hvisit).2, ?_⟩
    exact (hrest.tail ⟨above, id, node.data, m, hv.reaches_path, rfl⟩).trans hlater

/-- Where a walk succeeds, it comes to all nodes that are reached. -/
theorem exists_visits (hfinal : t.walk exact [] root {} = .ok final) (h : t.Reaches root id) :
    ∃ above e, t.Visits exact root above id e := by
  induction h with
  | refl => exact ⟨[], {}, .root⟩
  | tail _ hstep ih =>
    obtain ⟨above, e, hv⟩ := ih
    obtain ⟨e₁, hwalk, _⟩ := hv.exists_walk hfinal
    obtain ⟨node, e₂, m, hn, hchildren, _⟩ := exists_of_walk_eq_ok hwalk
    obtain ⟨node', hn', hc⟩ := hstep
    obtain rfl := Option.some.inj (hn.symm.trans hn')
    obtain ⟨before, after, hsplit⟩ := List.append_of_mem hc
    rw [hsplit] at hchildren
    obtain ⟨s₁, s₂, hbefore, hvisit, _⟩ := foldlM_append_cons_eq_ok_iff.1 hchildren
    exact ⟨_, s₁, .child hv hn hsplit (visit_eq_ok_iff.1 hvisit).1 hbefore⟩

/-- The moments of a walk: what has been found when the walk of a node has finished. Nothing changes
in between. -/
def Passes (t : NodeTree) (exact : Bool) (root : NodeId) (e : Evaluation) : Prop :=
  ∃ above id e₀, t.Visits exact root above id e₀ ∧ t.walk exact above id e₀ = .ok e

theorem Passes.later (h : t.Passes exact root e) : t.Later root {} e := by
  obtain ⟨above, id, e₀, hv, hwalk⟩ := h
  exact hv.later.trans (later_of_walk hv.reaches_path hwalk)

theorem Passes.later_final (h : t.Passes exact root e)
    (hfinal : t.walk exact [] root {} = .ok final) : t.Later root e final := by
  obtain ⟨above, id, e₀, hv, hwalk⟩ := h
  obtain ⟨e₁, hwalk₁, hlater⟩ := hv.exists_walk hfinal
  rwa [Except.ok.inj (hwalk.symm.trans hwalk₁)]

theorem Passes.filled (h : t.Passes exact root e) : e.references.Filled :=
  h.later.filled nofun

/-! ## Names that stay -/

/-- What lies above a node mentions all that the node does. -/
theorem mentions_subset_of_transGen {j : NodeId} {v w : Valued}
    (h : Relation.TransGen t.Lists j id) (hv : t.value exact none j = .ok v)
    (hw : t.value exact none id = .ok w) : w.mentions ⊆ v.beneath := by
  induction h using Relation.TransGen.head_induction_on generalizing v with
  | single hc =>
    obtain ⟨_, w', hw', hsubset⟩ := exists_value_of_lists hv hc
    obtain rfl := Except.ok.inj (hw.symm.trans hw')
    exact hsubset
  | head hc _ ih =>
    obtain ⟨_, w', hw', hsubset⟩ := exists_value_of_lists hv hc
    exact fun n hn => hsubset n (List.mem_append_left _ (ih hw' hn))

/-- Whatever has a meaning has the value and the names that belong to it. -/
def Fixed (t : NodeTree) (exact : Bool) (e : Evaluation) : Prop :=
  ∀ j m, e.meanings.lookup j = some m → ∃ v, t.Done exact e j v

/-- Names that are recorded again, on a path of nodes that mention them all, change nothing for those
that have a meaning. -/
theorem Fixed.of_effect {path : List NodeId} {bound : Nat} {found : List String}
    (h : t.Fixed exact e) (heffect : t.Effect exact path bound found e e')
    (hfound : ∀ a ∈ path, ∀ v, t.value exact none a = .ok v → found ⊆ v.beneath) :
    t.Fixed exact e' := by
  intro j m hm
  by_cases hj : j < bound
  · rcases heffect.settled j hj with ⟨hnone, _⟩ | hdone
    · rw [hnone] at hm
      cases hm
    · exact hdone
  · -- only nodes of the path get names, and one that has a meaning has these names already
    have hle : bound ≤ j := Nat.le_of_not_lt hj
    obtain ⟨v, hv⟩ := h j m ((heffect.meaning j hle).symm.trans hm)
    refine ⟨v, hv.of_eq (heffect.meaning j hle) ?_⟩
    rw [heffect.names j hle]
    split
    · rename_i hpath
      rw [hv.names]
      exact foldl_addNew_of_subset fun n hn => mem_firstSeen.2 (hfound j hpath v hv.value hn)
    · rfl

/-- **When a walk comes to a node, whatever has a meaning has the names that belong to it.** This
holds of the nodes of the path too, if they are walked again. -/
theorem Visits.fixed (h : t.Visits exact root above id e) : t.Fixed exact e := by
  induction h with
  | root => exact fun j m hm => nomatch hm
  | @child above id c e e' node before after hv hn hsplit _ hrun ih =>
    obtain ⟨kids, hkids, hdone, heffect⟩ := hv.exists_values hrun
    -- the names found are mentioned by children, which lie beneath every node of the path
    refine ih.of_effect heffect fun a ha v hvalue n hmem => ?_
    obtain ⟨k, hk, hmem⟩ := List.mem_flatMap.1 hmem
    have hchild : t.Lists id k.1 := by
      refine ⟨node, hn, ?_⟩
      rw [hsplit, ← map_fst_of_mapM_childValue hkids]
      exact List.mem_append_left _ (List.mem_map_of_mem hk)
    have hbeneath : Relation.TransGen t.Lists a k.1 := by
      rcases List.mem_cons.1 ha with rfl | ha
      · exact .single hchild
      · exact (hv.transGen a ha).tail hchild
    exact mentions_subset_of_transGen hbeneath hvalue (hdone k hk).value hmem

/-- The same when the walk of a node has finished. -/
theorem Passes.fixed (h : t.Passes exact root e) : t.Fixed exact e := by
  obtain ⟨above, id, e₀, hv, hwalk⟩ := h
  obtain ⟨w, hdone, heffect⟩ := hv.exists_value hwalk
  exact hv.fixed.of_effect heffect fun a ha v hvalue =>
    mentions_subset_of_transGen (hv.transGen a ha) hvalue hdone.value

/-! ## References in post-order -/

/-- The name that a reference has turned out to mean, if the node is one and means a name. -/
def identifierAt? (t : NodeTree) (e : Evaluation) (id : NodeId) : Option String :=
  match t.get? id, e.meanings.lookup id with
  | some ⟨.namedType _, _⟩, some (.type (.identifier name)) => some name
  | _, _ => none

theorem ownReference_eq_filterMap {node : Node} {m : Meaning} (hn : t.get? id = some node)
    (hm : e.meanings.lookup id = some m) :
    node.data.ownReference m = [id].filterMap (t.identifierAt? e) := by
  obtain ⟨data, span⟩ := node
  simp only [List.filterMap_cons, List.filterMap_nil, identifierAt?, hn, hm]
  cases data with
  | namedType c =>
    cases m with
    | type type => cases type <;> rfl
    | _ => rfl
  | _ => rfl

section PostOrder

variable {v : Valued} {ids : List NodeId}

/-- Children that mention what their orders tell do so together. -/
theorem flatMap_mentions_eq_filterMap {f : NodeId → Option String} {cs : List NodeId}
    {kids : List (NodeId × Valued)} {orders : List (List NodeId)}
    (hk : List.Forall₂ (fun c k => t.value exact none c = .ok k.2) cs kids)
    (ho : List.Forall₂ (fun c order => t.postOrder? c = some order) cs orders)
    (h : ∀ c ∈ cs, ∀ v order, t.value exact none c = .ok v → t.postOrder? c = some order →
      v.mentions = order.filterMap f) :
    (kids.flatMap fun k => k.2.mentions) = orders.flatten.filterMap f := by
  induction hk generalizing orders with
  | nil =>
    cases ho
    rfl
  | @cons c k cs kids hck _ ih =>
    cases ho with
    | @cons _ order _ orders hco ho =>
      rw [List.flatMap_cons, List.flatten_cons, List.filterMap_append,
        h c List.mem_cons_self _ _ hck hco, ih ho fun c hc => h c (List.mem_cons_of_mem _ hc)]

/-- **A node mentions the names that references mean, in post-order.** By induction on the number of
the node. -/
theorem mentions_eq_filterMap (hdone : ∀ j, t.Reaches id j → ∃ w, t.Done exact e j w)
    (hv : t.value exact none id = .ok v) (ho : t.postOrder? id = some ids) :
    ∃ beneath, ids = beneath ++ [id] ∧ v.beneath = beneath.filterMap (t.identifierAt? e) ∧
      v.mentions = ids.filterMap (t.identifierAt? e) := by
  induction id using Nat.strongRecOn generalizing v ids with
  | ind id ih =>
    obtain ⟨node, kids, m, hn, hkids, _, rfl⟩ := exists_of_value_eq_ok hv
    obtain ⟨node', orders, hn', horders, rfl⟩ := postOrder?_eq_some_iff.1 ho
    obtain rfl := Option.some.inj (hn.symm.trans hn')
    have hbeneath : (kids.flatMap fun k => k.2.mentions) =
        orders.flatten.filterMap (t.identifierAt? e) := by
      refine flatMap_mentions_eq_filterMap (hkids.imp fun _ _ h => h.2.2)
        (horders.imp fun _ _ h => h.2) fun c hc w order hw horder => ?_
      have hlt := (exists_value_of_lists hv ⟨node, hn, hc⟩).1
      obtain ⟨_, _, _, hmentions⟩ := ih c hlt
        (fun j hj => hdone j ((reaches_child hn hc).trans hj)) hw horder
      exact hmentions
    have hown : node.data.ownReference m = [id].filterMap (t.identifierAt? e) := by
      obtain ⟨w, hw⟩ := hdone id .refl
      obtain rfl := Except.ok.inj (hw.value.symm.trans hv)
      exact ownReference_eq_filterMap hn hw.meaning
    refine ⟨orders.flatten, rfl, hbeneath, ?_⟩
    rw [Valued.mentions, hbeneath, hown, List.filterMap_append]

end PostOrder

/-! ## The entries of a walk -/

/-- What was done at one moment is done at every later one. -/
theorem Passes.done_of_suffix (h : t.Passes exact root e') {j : NodeId} {v : Valued}
    (hdone : t.Done exact e j v) (hsuffix : e.meanings <:+ e'.meanings) : t.Done exact e' j v := by
  obtain ⟨later, hlater⟩ := hsuffix
  have hmeaning : ∃ m, e'.meanings.lookup j = some m := by
    rw [← hlater, List.lookup_append, hdone.meaning]
    cases later.lookup j with
    | none => exact ⟨_, rfl⟩
    | some m => exact ⟨m, rfl⟩
  obtain ⟨m, hm⟩ := hmeaning
  obtain ⟨w, hw⟩ := h.fixed j m hm
  rwa [Except.ok.inj (hdone.value.symm.trans hw.value)]

/-- In the end all nodes that are reached have been walked. -/
theorem exists_done_final (hfinal : t.walk exact [] root {} = .ok final) (h : t.Reaches root id) :
    ∃ v, t.Done exact final id v := by
  obtain ⟨above, e, hv⟩ := exists_visits hfinal h
  obtain ⟨e₁, hwalk, hlater⟩ := hv.exists_walk hfinal
  obtain ⟨v, hdone, _⟩ := hv.exists_value hwalk
  exact ⟨v, Passes.done_of_suffix ⟨[], root, {}, .root, hfinal⟩ hdone hlater.suffix⟩

theorem Passes.get?_of_done (h : t.Passes exact root e) {v : Valued} (hdone : t.Done exact e id v) :
    e.references.get? id = References.entryOf v.beneath :=
  h.filled.get?_eq hdone.names

/-- In the end a node that is reached is worth the references beneath it. -/
theorem exists_beneath (hfinal : t.walk exact [] root {} = .ok final) (h : t.Reaches root id) :
    ∃ beneath v, t.postOrder? id = some (beneath ++ [id]) ∧ t.Done exact final id v ∧
      v.beneath = beneath.filterMap (t.identifierAt? final) := by
  obtain ⟨v, hdone⟩ := exists_done_final hfinal h
  obtain ⟨ids, hids⟩ := exists_postOrder? (sound_of_value hdone.value)
  obtain ⟨beneath, rfl, hbeneath, _⟩ := mentions_eq_filterMap
    (fun j hj => exists_done_final hfinal (h.trans hj)) hdone.value hids
  exact ⟨beneath, v, hids, hdone, hbeneath⟩

theorem Passes.get?_of_not_reaches (h : t.Passes exact root e) (hid : ¬ t.Reaches root id) :
    e.references.get? id = none := by
  have hnames : e.references.names id = firstSeen [] := h.later.names_eq hid
  exact h.filled.get?_eq hnames

end NodeTree

/-- The nodes of the definitions of a document have entries for what the definitions refer to. -/
theorem forall₂_entries_ofDocument (p : Parsed) {exact : Bool} {final : Evaluation}
    (hfinal : (NodeTree.ofDocument p.names p.document).walk exact []
      (placeDocument p.names p.document).root {} = .ok final) :
    List.Forall₂ (fun r x => final.references.get? r = References.entryOf (x.references p.names))
      (placeAll (placeDefinition p.names) 0 p.document.definitions).roots
      (p.document.definitions.filter fun x => !x.isDirective) := by
  have hroot := (NodeTree.ofDocument p.names p.document).holds_nodes.get?
  have hdefines := forall₂_ofDocument p fun x _ hb => forall₂_placeDefinition exact x hb
  have hfilter : (p.document.definitions.filter fun x => (x.name? p.names).isSome) =
      p.document.definitions.filter fun x => !x.isDirective := by
    refine List.filter_congr fun x _ => ?_
    cases x <;> rfl
  rw [hfilter] at hdefines
  refine ((List.forall₂_and_left _ _).2 ⟨fun r hr => hr, hdefines⟩).imp ?_
  rintro r x ⟨hr, _, hdefines⟩
  obtain ⟨_, _, hvalue⟩ := hdefines.value
  obtain ⟨v, hdone⟩ := NodeTree.exists_done_final hfinal (NodeTree.reaches_child hroot hr)
  obtain rfl := Except.ok.inj (hdone.value.symm.trans hvalue)
  exact NodeTree.Passes.get?_of_done ⟨[], _, {}, .root, hfinal⟩ hdone

/-- **A walk records on every node the references beneath it, and nothing else.** Let a walk succeed.
Every node that is reached is then visited, and whenever it is, its walk succeeds. From then on, at
every moment that has the same meanings and maybe more, the entry of the node tells the names that
the references strictly beneath it turn out to mean, in post-order and each once; without such names
it has no entry. Before, it has a beginning of these names. A node that is not reached never has an
entry.

For a document, the entries of its definitions tell what these refer to in the source. -/
theorem walk_records_references :
    (∀ (t : NodeTree) (root : NodeId) (exact : Bool) (final : Evaluation),
      t.walk exact [] root {} = .ok final →
      (∀ n, t.Reaches root n → ∃ beneath names, t.postOrder? n = some (beneath ++ [n]) ∧
        names = beneath.filterMap (t.identifierAt? final) ∧
        final.references.get? n = References.entryOf names ∧
        (∃ above e, t.Visits exact root above n e) ∧
        (∀ above e, t.Visits exact root above n e → ∃ e₁, t.walk exact above n e = .ok e₁ ∧
          ∀ e₂, t.Passes exact root e₂ → e₁.meanings <:+ e₂.meanings →
            e₂.references.get? n = References.entryOf names) ∧
        ∀ e, t.Passes exact root e → e.references.names n <+: firstSeen names) ∧
      ∀ n, ¬ t.Reaches root n → ∀ e, t.Passes exact root e → e.references.get? n = none) ∧
    ∀ (p : Parsed) (exact : Bool) (final : Evaluation),
      (NodeTree.ofDocument p.names p.document).walk exact []
        (placeDocument p.names p.document).root {} = .ok final →
      ∃ roots, (NodeTree.ofDocument p.names p.document).get? (placeDocument p.names p.document).root =
          some ⟨.document roots, p.document.span⟩ ∧
        List.Forall₂
          (fun r x => final.references.get? r = References.entryOf (x.references p.names))
          roots (p.document.definitions.filter fun x => !x.isDirective) := by
  constructor
  · intro t root exact final hfinal
    have hpass : t.Passes exact root final := ⟨[], root, {}, .root, hfinal⟩
    refine ⟨fun n hn => ?_, fun n hn e he => he.get?_of_not_reaches hn⟩
    obtain ⟨beneath, v, horder, hdone, hbeneath⟩ := NodeTree.exists_beneath hfinal hn
    refine ⟨beneath, v.beneath, horder, hbeneath, hpass.get?_of_done hdone,
      NodeTree.exists_visits hfinal hn, fun above e hv => ?_, fun e he => ?_⟩
    · obtain ⟨e₁, hwalk, _⟩ := hv.exists_walk hfinal
      obtain ⟨w, hdone₁, _⟩ := hv.exists_value hwalk
      obtain rfl := Except.ok.inj (hdone.value.symm.trans hdone₁.value)
      exact ⟨e₁, hwalk, fun e₂ he₂ hsuffix => he₂.get?_of_done (he₂.done_of_suffix hdone₁ hsuffix)⟩
    · exact hdone.names ▸ (he.later_final hfinal).prefix_names n
  · intro p exact final hfinal
    exact ⟨_, (NodeTree.ofDocument p.names p.document).holds_nodes.get?,
      forall₂_entries_ofDocument p hfinal⟩

/-- A film whose fields share a reference, beside a node that nothing leads to; and a document with an
argument of a built-in type. -/
theorem walk_records_references_sharedNodes :
    (∃ final, NodeTree.sharedNodes.walk true [] 7 {} = .ok final ∧
      final.references.get? 5 = some ["Film"] ∧
      ∀ e, NodeTree.sharedNodes.Passes true 7 e →
        e.references.names 5 <+: ["Film"] ∧ e.references.get? 6 = none) ∧
    ∃ final, (NodeTree.ofDocument .initial arrangedDocument).walk true [] 9 {} = .ok final ∧
      final.references.get? 8 = some ["Boolean"] := by
  obtain ⟨hnodes, hdocument⟩ := walk_records_references
  constructor
  · have hentry : (NodeTree.sharedNodes.walk true [] 7 {}).map (fun e => e.references.get? 5) =
        .ok (some ["Film"]) := by
      with_unfolding_all rfl
    have horder : NodeTree.sharedNodes.postOrder? 7 =
        some [0, 1, 3, 0, 1, 2, 4, 0, 1, 3, 5, 0, 1, 3, 0, 1, 2, 4, 0, 1, 3, 5, 7] := by
      with_unfolding_all rfl
    cases hfinal : NodeTree.sharedNodes.walk true [] 7 {} with
    | error f =>
      rw [hfinal] at hentry
      cases hentry
    | ok final =>
      rw [hfinal] at hentry
      have hentry : final.references.get? 5 = some ["Film"] := Except.ok.inj hentry
      obtain ⟨hreached, hother⟩ := hnodes _ _ _ _ hfinal
      refine ⟨final, rfl, hentry, fun e he => ⟨?_, ?_⟩⟩
      · have h5 : NodeTree.sharedNodes.Reaches 7 5 := (NodeTree.mem_postOrder? horder).1 (by decide)
        obtain ⟨_, names, _, _, hget, _, _, hnames⟩ := hreached 5 h5
        have hseen : firstSeen names = ["Film"] := by
          rw [hentry, References.entryOf] at hget
          split at hget
          · cases hget
          · exact (Option.some.inj hget).symm
        exact hseen ▸ hnames e he
      · exact hother 6 (fun h => absurd ((NodeTree.mem_postOrder? horder).2 h) (by decide)) e he
  · have hok : ∃ final,
        (NodeTree.ofDocument .initial arrangedDocument).walk true [] 9 {} = .ok final :=
      ⟨_, by with_unfolding_all rfl⟩
    obtain ⟨final, hfinal⟩ := hok
    obtain ⟨roots, hroots, hentries⟩ := hdocument ⟨arrangedDocument, .initial, {}⟩ true final hfinal
    obtain rfl : [8] = roots := by
      cases hroots
      rfl
    cases hentries with
    | cons hentry _ => exact ⟨final, hfinal, hentry⟩

end SchemaToFlow
