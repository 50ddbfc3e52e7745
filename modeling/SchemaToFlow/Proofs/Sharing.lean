import SchemaToFlow.Proofs.Unfolding

/-!
# Shared, repeated and stray nodes

A walk follows numbers, so it comes to a shared node once for every way down to it, and it never
comes to a node that nothing lists. Neither matters.

* `exists_tree?`: what is sound unfolds, and `tree?_congr`: the tree of a node depends on nothing
  but the nodes met on the way down.
* `walk_of_visits`: when the walk of a program comes to a node that has a meaning already, it stores
  the same meaning again and changes no other.
* `toProgram_eq_unfolded`: the program of a node is that of its tree, evaluated by plain recursion.
-/

namespace SchemaToFlow

open Text Schema SchemaToFlow.Flow

/-! ## Which nodes matter -/

section Grow

variable {child child' : NodeId → Option Tree} {data : NodeData}

theorem exists_grow (span : Span) (h : ∀ j ∈ data.children, ∃ tree, child j = some tree) :
    ∃ tree, data.grow child span = some tree := by
  have hlist : ∀ js ⊆ data.children, ∃ trees, js.mapM child = some trees :=
    fun js hjs => exists_mapM_eq_some fun j hj => h j (hjs hj)
  cases data with
  | name n | scalar n | enumValue n => exact ⟨_, rfl⟩
  | operation _ c | inputValue _ c | namedType c | list c | nonNull c =>
    obtain ⟨tree, htree⟩ := h c (List.mem_singleton.2 rfl)
    exact ⟨_, by rw [NodeData.grow, htree]; rfl⟩
  | document cs | schema cs | interface _ cs | input _ cs | enum _ cs | union _ cs =>
    obtain ⟨trees, htrees⟩ := hlist cs (List.Subset.refl _)
    exact ⟨_, by rw [NodeData.grow, htrees]; rfl⟩
  | object n is fs =>
    obtain ⟨its, hits⟩ := hlist is (List.subset_append_left _ _)
    obtain ⟨fts, hfts⟩ := hlist fs (List.subset_append_right _ _)
    exact ⟨_, by rw [NodeData.grow, hits, hfts]; rfl⟩
  | field n as c =>
    obtain ⟨ats, hats⟩ := hlist as (List.subset_append_left _ _)
    obtain ⟨tree, htree⟩ := h c (List.mem_append_right _ (List.mem_singleton.2 rfl))
    exact ⟨_, by rw [NodeData.grow, hats, htree]; rfl⟩

theorem grow_congr (span : Span) (h : ∀ j ∈ data.children, child j = child' j) :
    data.grow child span = data.grow child' span := by
  have hlist : ∀ js ⊆ data.children, js.mapM child = js.mapM child' :=
    fun js hjs => mapM_congr_mem fun j hj => h j (hjs hj)
  cases data with
  | name n | scalar n | enumValue n => rfl
  | operation _ c | inputValue _ c | namedType c | list c | nonNull c =>
    rw [NodeData.grow, NodeData.grow, h c (List.mem_singleton.2 rfl)]
  | document cs | schema cs | interface _ cs | input _ cs | enum _ cs | union _ cs =>
    rw [NodeData.grow, NodeData.grow, hlist cs (List.Subset.refl _)]
  | object n is fs =>
    rw [NodeData.grow, NodeData.grow, hlist is (List.subset_append_left _ _),
      hlist fs (List.subset_append_right _ _)]
  | field n as c =>
    rw [NodeData.grow, NodeData.grow, hlist as (List.subset_append_left _ _),
      h c (List.mem_append_right _ (List.mem_singleton.2 rfl))]

end Grow

namespace NodeTree

variable {t t' : NodeTree} {exact : Bool} {root id : NodeId}

theorem Sound.of_reaches (h : t.Sound root) (hid : t.Reaches root id) : t.Sound id :=
  fun i hi => h i (hid.trans hi)

theorem reaches_child {node : Node} {j : NodeId} (hn : t.get? id = some node)
    (hj : j ∈ node.data.children) : t.Reaches id j :=
  .single ⟨node, hn, hj⟩

/-- What is sound unfolds. -/
theorem exists_tree? (h : t.Sound id) : ∃ tree, t.tree? id = some tree := by
  induction id using Nat.strongRecOn with
  | ind id ih =>
    obtain ⟨node, hn, hlt⟩ := h id .refl
    have hchildren : ∀ j ∈ node.data.children,
        ∃ tree, (if j < id then t.tree? j else none) = some tree := by
      intro j hj
      rw [if_pos (hlt j hj)]
      exact ih j (hlt j hj) (h.of_reaches (reaches_child hn hj))
    obtain ⟨tree, htree⟩ := exists_grow node.span hchildren
    exact ⟨tree, by rw [tree?, hn]; exact htree⟩

/-- The tree of a node depends on nothing but the nodes met on the way down. -/
theorem tree?_congr (h : ∀ j, t.Reaches id j → t'.get? j = t.get? j) :
    t'.tree? id = t.tree? id := by
  induction id using Nat.strongRecOn with
  | ind id ih =>
    rw [tree?, tree?, h id .refl]
    cases hn : t.get? id with
    | none => rfl
    | some node =>
      refine grow_congr node.span fun j hj => ?_
      by_cases hlt : j < id
      · rw [if_pos hlt, if_pos hlt]
        exact ih j hlt fun k hk => h k ((reaches_child hn hj).trans hk)
      · rw [if_neg hlt, if_neg hlt]

/-- A set of nodes that is closed under listing and in which links lead down is sound. -/
theorem sound_of_closed (ids : List NodeId) (hroot : root ∈ ids)
    (h : ∀ i ∈ ids, ∃ node ∈ t.get? i, ∀ j ∈ node.data.children, j < i ∧ j ∈ ids) :
    t.Sound root := by
  have hmem : ∀ i, t.Reaches root i → i ∈ ids := by
    intro i hi
    induction hi with
    | refl => exact hroot
    | tail _ hstep ih =>
      obtain ⟨node, hn, hj⟩ := hstep
      obtain ⟨node', hn', hlt⟩ := h _ ih
      obtain rfl := Option.some.inj (hn.symm.trans hn')
      exact (hlt _ hj).2
  intro i hi
  obtain ⟨node, hn, hlt⟩ := h i (hmem i hi)
  exact ⟨node, hn, fun j hj => (hlt j hj).1⟩

/-! ## Coming to a node again -/

/-- The visits of the walk that makes a program: the path on which a node is come to, the node, and
what has been found by then. -/
inductive Visits (t : NodeTree) (exact : Bool) (root : NodeId) :
    List NodeId → NodeId → Evaluation → Prop where
  | root : Visits t exact root [] root {}
  | child {above : List NodeId} {id c : NodeId} {e e' : Evaluation} {node : Node}
      {before after : List NodeId} :
      Visits t exact root above id e → t.get? id = some node →
      node.data.children = before ++ c :: after → c < id →
      before.foldlM (t.visit exact above id) e = .ok e' →
      Visits t exact root (id :: above) c e'

section Visits

variable {above : List NodeId} {e e' : Evaluation}

/-- On a walk the path leads down, and whatever lies below it is settled. -/
theorem Visits.settled (h : t.Visits exact root above id e) :
    (∀ a ∈ above, id < a) ∧ ∀ j < id + 1, t.Settled exact e j := by
  induction h with
  | root => exact ⟨fun _ ha => absurd ha List.not_mem_nil, fun j _ => settled_empty j⟩
  | @child above id c e e' node before after _ _ _ hc hrun ih =>
    obtain ⟨hab, hs⟩ := ih
    have hpath : ∀ a ∈ id :: above, c < a := by
      intro a ha
      rcases List.mem_cons.1 ha with rfl | ha
      · exact hc
      · exact Nat.lt_trans hc (hab a ha)
    obtain ⟨herr, hok⟩ := walk_children (fun c _ => walk_eq_value t exact c) hab before e
      fun j hj => hs j (Nat.lt_succ_of_lt hj)
    cases hkids : before.mapM (t.childValue exact id) with
    | error f =>
      rw [herr f hkids] at hrun
      cases hrun
    | ok kids =>
      obtain ⟨e₁, he₁, _, heffect⟩ := hok kids hkids
      obtain rfl := Except.ok.inj (he₁.symm.trans hrun)
      exact ⟨hpath, fun j hj => heffect.settled j (Nat.lt_of_lt_of_le hj hc)⟩

/-- A walk walks the children of its node and then notes what that means. -/
theorem exists_of_walk_eq_ok (h : t.walk exact above id e = .ok e') :
    ∃ (node : Node) (e₁ : Evaluation) (m : Meaning), t.get? id = some node ∧
      node.data.children.foldlM (t.visit exact above id) e = .ok e₁ ∧
      e' = (e₁.refer above node.data m).store id m := by
  cases hn : t.get? id with
  | none =>
    rw [walk_of_get?_none hn] at h
    cases h
  | some node =>
    rw [walk_of_get? hn] at h
    obtain ⟨e₁, hrun, hfinish⟩ := bind_eq_ok_iff.1 h
    obtain ⟨m, _, hnote⟩ := bind_eq_ok_iff.1 hfinish
    exact ⟨node, e₁, m, rfl, hrun, (Except.ok.inj hnote).symm⟩

/-- **A walk that comes to a node again stores what is stored for it already**, and what is stored
for other nodes stays. -/
theorem walk_of_visits (h : t.Visits exact root above id e) {m : Meaning}
    (hm : e.meanings.lookup id = some m) :
    ∃ e₁ : Evaluation, t.walk exact above id e = .ok (e₁.store id m) ∧
      ∀ j m', e.meanings.lookup j = some m' → (e₁.store id m).meanings.lookup j = some m' := by
  obtain ⟨hab, hs⟩ := h.settled
  -- a node with a meaning is done, so it has a value and the walk finds it again
  have hdone : ∀ j < id + 1, ∀ m', e.meanings.lookup j = some m' →
      ∃ v, t.Done exact e j v ∧ v.meaning = m' := by
    intro j hj m' hm'
    rcases hs j hj with ⟨hnone, _⟩ | ⟨v, hv⟩
    · rw [hnone] at hm'
      cases hm'
    · exact ⟨v, hv, Option.some.inj (hv.meaning.symm.trans hm')⟩
  obtain ⟨v, hv, rfl⟩ := hdone id (Nat.lt_succ_self id) m hm
  obtain ⟨e', hwalk, hv', heffect⟩ :=
    (walk_eq_value t exact id above e hab hs).2 v (value_asker hv.value _)
  obtain ⟨_, _, m', _, _, rfl⟩ := exists_of_walk_eq_ok hwalk
  have hstored : m' = v.meaning := by
    have hlookup := hv'.meaning
    rw [Evaluation.lookup_store, if_pos rfl] at hlookup
    exact Option.some.inj hlookup
  subst hstored
  refine ⟨_, hwalk, fun j m' hm' => ?_⟩
  by_cases hj : j < id + 1
  · obtain ⟨w, hw, rfl⟩ := hdone j hj m' hm'
    exact (heffect.kept j hj w hw).meaning
  · rw [heffect.meaning j (Nat.le_of_not_lt hj), hm']

end Visits

/-! ## Programs of nodes and of trees -/

theorem toProgram_tree? {tree : Tree} (h : t.tree? root = some tree) (exact : Bool) :
    t.toProgram root exact = tree.toProgram exact := by
  rw [toProgram_eq_value, value_tree? h, Tree.toProgram, ← site_of_tree? h none]
  cases tree.value exact with
  | error f => rfl
  | ok v =>
    obtain ⟨m, _, _⟩ := v
    cases m <;> rfl

/-- **Nodes mean what their unfolded tree means.** If every node met on the way down exists and
has a smaller number than the nodes that list it, the program (or the fault) is the one found by
plain recursion over the tree. So a walk that comes to a node again stores the meaning it has,
nodes that are not met do not matter, and whatever unfolds to the same tree means the same
program. -/
theorem toProgram_eq_unfolded (t : NodeTree) (root : NodeId) (exact : Bool) (h : t.Sound root) :
    ∃ tree, t.tree? root = some tree ∧ t.toProgram root exact = tree.toProgram exact ∧
      (∀ above id e m, t.Visits exact root above id e → e.meanings.lookup id = some m →
        ∃ e₁ : Evaluation, t.walk exact above id e = .ok (e₁.store id m) ∧
          ∀ j m', e.meanings.lookup j = some m' → (e₁.store id m).meanings.lookup j = some m') ∧
      (∀ t' : NodeTree, (∀ j, t.Reaches root j → t'.get? j = t.get? j) →
        t'.toProgram root exact = t.toProgram root exact) ∧
      ∀ (t' : NodeTree) (root' : NodeId), t'.tree? root' = some tree →
        t'.toProgram root' exact = t.toProgram root exact := by
  obtain ⟨tree, htree⟩ := exists_tree? h
  have hprogram := toProgram_tree? htree exact
  refine ⟨tree, htree, hprogram, fun _ _ _ _ hvisit hm => walk_of_visits hvisit hm, ?_, ?_⟩
  · intro t' hsame
    rw [hprogram]
    exact toProgram_tree? ((tree?_congr hsame).trans htree) exact
  · intro t' root' htree'
    rw [hprogram, toProgram_tree? htree' exact]

/-- A film that leads to another and to all films. The reference to the type is shared, one field is
listed twice and the type defined twice. Nothing leads to node 6, which lists a node that does not
exist. -/
def sharedNodes : NodeTree :=
  ⟨[⟨.name "Film", ⟨18, 22⟩⟩, ⟨.namedType 0, ⟨18, 22⟩⟩, ⟨.list 1, ⟨17, 23⟩⟩,
    ⟨.field "next" [] 1, ⟨12, 22⟩⟩, ⟨.field "all" [] 2, ⟨12, 23⟩⟩,
    ⟨.object "Film" [] [3, 4, 3], ⟨0, 24⟩⟩, ⟨.document [99], ⟨0, 0⟩⟩,
    ⟨.document [5, 5], ⟨0, 24⟩⟩]⟩

theorem toProgram_sharedNodes :
    sharedNodes.Sound 7 ∧ ∃ tree, sharedNodes.tree? 7 = some tree ∧
      sharedNodes.toProgram 7 true = tree.toProgram true ∧
      tree.toProgram true = .ok ⟨[.typeAlias "Film" (.object
        ⟨[⟨"next", .nullable (.identifier "Film"), true⟩,
          ⟨"all", .nullable (.array (.nullable (.identifier "Film"))), true⟩,
          ⟨"next", .nullable (.identifier "Film"), true⟩], true⟩)]⟩ := by
  have h : sharedNodes.Sound 7 :=
    sound_of_closed [0, 1, 2, 3, 4, 5, 7] (by decide) (by decide)
  obtain ⟨tree, htree, hprogram, _⟩ := toProgram_eq_unfolded sharedNodes 7 true h
  refine ⟨h, tree, htree, hprogram, ?_⟩
  rw [← hprogram]
  with_unfolding_all rfl

end NodeTree

end SchemaToFlow
