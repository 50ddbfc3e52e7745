import Mathlib.Data.List.Nodup
import Mathlib.Data.List.Pairwise
import SchemaToFlow.Proofs.Links

/-!
# Nodes in post-order

`NodeTree.postOrder?` lists the nodes met on the way down from a node, each after the nodes it lists.
A shared node is listed once for every way down to it.

* `mem_postOrder?`: the order lists the nodes that are reached, and no others.
* `infix_postOrder?`: the order of a node that is reached stands in the order as one piece.
* `perm_postOrder?`: apart from the first node, what the order lists is what its nodes list.
* `existsUnique_place`: so if nothing is listed twice in the order, every node is listed by one node
  in one place.
-/

namespace SchemaToFlow

open scoped List

namespace NodeTree

/-- The nodes met on the way down from a node, in post-order. There is no such order if a link does
not lead down to a node. -/
def postOrder? (t : NodeTree) (id : NodeId) : Option (List NodeId) := do
  let node ← t.get? id
  let orders ← node.data.children.mapM fun child => if child < id then t.postOrder? child else none
  return orders.flatten ++ [id]
termination_by id

/-- The numbers that a node lists. -/
def childrenOf (t : NodeTree) (id : NodeId) : List NodeId :=
  match t.get? id with
  | some node => node.data.children
  | none => []

variable {t : NodeTree} {root id i : NodeId} {ids : List NodeId}

theorem childrenOf_of_get? {node : Node} (h : t.get? id = some node) :
    t.childrenOf id = node.data.children := by
  rw [childrenOf, h]

theorem mem_childrenOf {c : NodeId} : c ∈ t.childrenOf id ↔ t.Lists id c := by
  unfold childrenOf Lists
  cases t.get? id with
  | none => simp
  | some node => simp

/-- An order is made of the orders of the children and the node itself. -/
theorem postOrder?_eq_some_iff :
    t.postOrder? id = some ids ↔ ∃ (node : Node) (orders : List (List NodeId)),
      t.get? id = some node ∧
      List.Forall₂ (fun c order => c < id ∧ t.postOrder? c = some order) node.data.children orders ∧
      ids = orders.flatten ++ [id] := by
  have hchild : ∀ (c : NodeId) (order : List NodeId),
      (if c < id then t.postOrder? c else none) = some order ↔
        c < id ∧ t.postOrder? c = some order := by
    intro c order
    by_cases hc : c < id
    · simp [hc]
    · simp [hc]
  rw [postOrder?]
  constructor
  · intro h
    obtain ⟨node, hn, h⟩ := Option.bind_eq_some_iff.1 h
    obtain ⟨orders, horders, h⟩ := Option.bind_eq_some_iff.1 h
    refine ⟨node, orders, hn, ?_, (Option.some.inj h).symm⟩
    exact (mapM_eq_some_iff.1 horders).imp fun c order => (hchild c order).1
  · rintro ⟨node, orders, hn, horders, rfl⟩
    refine Option.bind_eq_some_iff.2 ⟨node, hn, Option.bind_eq_some_iff.2 ⟨orders, ?_, rfl⟩⟩
    exact mapM_eq_some_iff.2 (horders.imp fun c order => (hchild c order).2)

/-- What is sound has an order. -/
theorem exists_postOrder? (h : t.Sound id) : ∃ ids, t.postOrder? id = some ids := by
  induction id using Nat.strongRecOn with
  | ind id ih =>
    obtain ⟨node, hn, hlt⟩ := h id .refl
    have hchildren : ∀ c ∈ node.data.children,
        ∃ order, (if c < id then t.postOrder? c else none) = some order := by
      intro c hc
      rw [if_pos (hlt c hc)]
      exact ih c (hlt c hc) (h.of_reaches (reaches_child hn hc))
    obtain ⟨orders, horders⟩ := exists_mapM_eq_some hchildren
    exact ⟨orders.flatten ++ [id], by rw [postOrder?, hn]; simp [horders]⟩

theorem self_mem_postOrder? (h : t.postOrder? id = some ids) : id ∈ ids := by
  obtain ⟨_, orders, _, _, rfl⟩ := postOrder?_eq_some_iff.1 h
  exact List.mem_append_right _ (List.mem_singleton.2 rfl)

theorem lt_of_postOrder? (h : t.postOrder? id = some ids) {c : NodeId} (hc : t.Lists id c) :
    c < id := by
  obtain ⟨node, orders, hn, horders, _⟩ := postOrder?_eq_some_iff.1 h
  obtain ⟨node', hn', hc⟩ := hc
  obtain rfl := Option.some.inj (hn.symm.trans hn')
  obtain ⟨_, _, hlt, _⟩ := exists_right_of_forall₂ horders hc
  exact hlt

/-- **The order of a node that is reached is a piece of the whole order.** -/
theorem infix_postOrder? (h : t.postOrder? root = some ids) (hi : t.Reaches root i) :
    ∃ order, t.postOrder? i = some order ∧ order <:+: ids := by
  induction hi with
  | refl => exact ⟨ids, h, List.infix_rfl⟩
  | tail _ hstep ih =>
    obtain ⟨order, horder, hinfix⟩ := ih
    obtain ⟨node, orders, hn, horders, rfl⟩ := postOrder?_eq_some_iff.1 horder
    obtain ⟨node', hn', hc⟩ := hstep
    obtain rfl := Option.some.inj (hn.symm.trans hn')
    obtain ⟨order, hmem, _, hchild⟩ := exists_right_of_forall₂ horders hc
    refine ⟨order, hchild, List.IsInfix.trans ?_ hinfix⟩
    exact (List.infix_of_mem_flatten hmem).trans (List.prefix_append _ _).isInfix

/-- The order lists what is reached. -/
theorem mem_postOrder? (h : t.postOrder? id = some ids) : i ∈ ids ↔ t.Reaches id i := by
  constructor
  · intro hi
    induction id using Nat.strongRecOn generalizing ids with
    | ind id ih =>
      obtain ⟨node, orders, hn, horders, rfl⟩ := postOrder?_eq_some_iff.1 h
      rcases List.mem_append.1 hi with hi | hi
      · obtain ⟨order, horder, hi⟩ := List.mem_flatten.1 hi
        obtain ⟨c, hc, hlt, hchild⟩ := exists_left_of_forall₂ horders horder
        exact (reaches_child hn hc).trans (ih c hlt hchild hi)
      · rw [List.mem_singleton.1 hi]
        exact .refl
  · intro hi
    obtain ⟨order, horder, hinfix⟩ := infix_postOrder? h hi
    exact hinfix.subset (self_mem_postOrder? horder)

/-! ## What an order lists -/

/-- Orders that list their first nodes and what their nodes list do so together. -/
theorem perm_flatten_of_forall₂ {cs : List NodeId} {orders : List (List NodeId)}
    (h : List.Forall₂ (fun c order => order ~ c :: order.flatMap t.childrenOf) cs orders) :
    orders.flatten ~ cs ++ orders.flatten.flatMap t.childrenOf := by
  induction h with
  | nil => exact .nil
  | @cons c order cs orders hc _ ih =>
    rw [List.flatten_cons, List.flatMap_append]
    calc order ++ orders.flatten
      _ ~ (c :: order.flatMap t.childrenOf) ++ (cs ++ orders.flatten.flatMap t.childrenOf) :=
        hc.append ih
      _ ~ (c :: cs) ++ (order.flatMap t.childrenOf ++ orders.flatten.flatMap t.childrenOf) :=
        .cons c (List.perm_append_comm_assoc _ _ _)

/-- **Apart from the node itself, an order lists what its nodes list**, as often as they do. -/
theorem perm_postOrder? (h : t.postOrder? id = some ids) :
    ids ~ id :: ids.flatMap t.childrenOf := by
  induction id using Nat.strongRecOn generalizing ids with
  | ind id ih =>
    obtain ⟨node, orders, hn, horders, rfl⟩ := postOrder?_eq_some_iff.1 h
    have hflatten := perm_flatten_of_forall₂ (t := t)
      (horders.imp fun c order hc => ih c hc.1 hc.2)
    rw [List.flatMap_append, List.flatMap_singleton, childrenOf_of_get? hn]
    exact (List.perm_append_singleton id _).trans (.cons id (hflatten.trans List.perm_append_comm))

/-- **In an order without repetitions every node but the first is listed by one node, in one
place.** -/
theorem existsUnique_place (h : t.postOrder? root = some ids) (hnodup : ids.Nodup)
    (hall : ∀ p c, t.Lists p c → p ∈ ids) (hi : i ∈ ids) (hne : i ≠ root) :
    ∃! place : NodeId × Nat, (t.childrenOf place.1)[place.2]? = some i := by
  have hperm := perm_postOrder? h
  obtain ⟨hlists, hdisjoint⟩ := List.nodup_flatMap.1 (List.nodup_cons.1 (hperm.nodup_iff.1 hnodup)).2
  have hparent := (List.mem_cons.1 (hperm.mem_iff.1 hi)).resolve_left hne
  obtain ⟨p, hp, hmem⟩ := List.mem_flatMap.1 hparent
  obtain ⟨k, hk⟩ := List.mem_iff_getElem?.1 hmem
  refine ⟨(p, k), hk, ?_⟩
  rintro ⟨q, l⟩ (hl : (t.childrenOf q)[l]? = some i)
  have hmem' : i ∈ t.childrenOf q := List.mem_of_getElem? hl
  have hq : q ∈ ids := hall q i (mem_childrenOf.1 hmem')
  have hqp : q = p := by
    have : Std.Symm (Function.onFun List.Disjoint t.childrenOf) := ⟨fun _ _ h _ hb ha => h ha hb⟩
    by_contra hqp
    exact hdisjoint.forall hq hp hqp hmem' hmem
  subst hqp
  have hlt : l < (t.childrenOf q).length := (List.getElem?_eq_some_iff.1 hl).1
  rw [(List.getElem?_inj hlt (hlists q hq)).1 (hl.trans hk.symm)]

end NodeTree

end SchemaToFlow
