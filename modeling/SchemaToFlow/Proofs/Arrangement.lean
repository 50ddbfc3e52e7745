import SchemaToFlow.Proofs.Placed
import SchemaToFlow.Proofs.PostOrder

/-!
# The arrangement of a document's nodes

The order in which the parts of a document are placed and the order in which a node lists its
children are written down separately. They agree: the numbers of the nodes are their places in
post-order.

* `Spans`: nodes whose orders, one after the other, are the numbers from some number on. The rules
  follow the ways in which parts are put together (`nil`, `append`, `above`).
* `Laid`: parts whose nodes are spanned wherever they stand, with one lemma for each kind of part.
* `ofDocument_in_postOrder`: the nodes of a document, and what follows for any nodes in post-order.
-/

namespace SchemaToFlow

open Text Schema SchemaToFlow.Flow

/-! ## Consecutive numbers -/

/-- A piece of consecutive numbers that ends in `i`. -/
theorem exists_range'_of_infix {is : List Nat} {i n : Nat} (h : is ++ [i] <:+: List.range n) :
    ∃ first ≤ i, is ++ [i] = List.range' first (i + 1 - first) := by
  obtain ⟨before, after, hsplit⟩ := h
  rw [List.range_eq_range'] at hsplit
  obtain ⟨k, _, hk, _⟩ := List.range'_eq_append_iff.1 hsplit.symm
  obtain ⟨first, _, _, hpiece⟩ := List.range'_eq_append_iff.1 hk.symm
  rw [Nat.zero_add, Nat.mul_one] at hpiece
  have hlength : is.length + 1 = k - first := by
    simpa using congrArg List.length hpiece
  rw [← hlength, List.range'_1_concat] at hpiece
  obtain rfl : i = first + is.length :=
    List.singleton_inj.1 (List.append_inj_right' hpiece rfl)
  refine ⟨first, Nat.le_add_right _ _, ?_⟩
  rw [hpiece, ← List.range'_1_concat]
  congr 1
  omega

namespace NodeTree

variable {t : NodeTree} {base length : Nat} {roots : List NodeId}

/-- Nodes whose orders, one after the other, are the numbers from `base` on. -/
def Spans (t : NodeTree) (base length : Nat) (roots : List NodeId) : Prop :=
  ∃ orders, List.Forall₂ (fun r order => t.postOrder? r = some order) roots orders ∧
    orders.flatten = List.range' base length

namespace Spans

theorem nil : t.Spans base 0 [] := ⟨[], .nil, rfl⟩

theorem append {length' : Nat} {roots' : List NodeId} (h : t.Spans base length roots)
    (h' : t.Spans (base + length) length' roots') :
    t.Spans base (length + length') (roots ++ roots') := by
  obtain ⟨orders, horders, hflatten⟩ := h
  obtain ⟨orders', horders', hflatten'⟩ := h'
  refine ⟨orders ++ orders', List.rel_append horders horders', ?_⟩
  rw [List.flatten_append, hflatten, hflatten', List.range'_append_1]

/-- A node that stands after what it lists. -/
theorem above {data : NodeData} {span : Span} (h : t.Spans base length data.children)
    (hn : t.get? (base + length) = some ⟨data, span⟩) :
    t.Spans base (length + 1) [base + length] := by
  obtain ⟨orders, horders, hflatten⟩ := h
  have hchildren : List.Forall₂ (fun c order => c < base + length ∧ t.postOrder? c = some order)
      data.children orders := by
    rw [List.forall₂_iff_get] at horders ⊢
    refine ⟨horders.1, fun i hi hi' => ⟨?_, horders.2 i hi hi'⟩⟩
    have hmem : data.children.get ⟨i, hi⟩ ∈ orders.flatten :=
      List.mem_flatten.2 ⟨_, List.get_mem _ _, self_mem_postOrder? (horders.2 i hi hi')⟩
    rw [hflatten] at hmem
    exact (List.mem_range'_1.1 hmem).2
  refine ⟨[orders.flatten ++ [base + length]], .cons ?_ .nil, ?_⟩
  · exact postOrder?_eq_some_iff.2 ⟨_, orders, hn, hchildren, rfl⟩
  · rw [List.flatten_singleton, hflatten, List.range'_1_concat]

theorem postOrder? {r : NodeId} (h : t.Spans base length [r]) :
    t.postOrder? r = some (List.range' base length) := by
  obtain ⟨orders, horders, hflatten⟩ := h
  cases horders with
  | cons horder hnil =>
    cases hnil
    rw [horder, ← hflatten, List.flatten_singleton]

end Spans

/-! ## Nodes in post-order -/

section Ordered

variable {root i : NodeId} (h : t.postOrder? root = some (List.range t.nodes.length))

include h

theorem reaches_of_lt (hi : i < t.nodes.length) : t.Reaches root i :=
  (mem_postOrder? h).1 (List.mem_range.2 hi)

/-- Links lead down. -/
theorem lt_of_lists {c : NodeId} (hc : t.Lists i c) : c < i := by
  obtain ⟨node, hn, hmem⟩ := hc
  have hi : i < t.nodes.length := (List.getElem?_eq_some_iff.1 hn).1
  obtain ⟨order, horder, _⟩ := infix_postOrder? h (reaches_of_lt h hi)
  exact lt_of_postOrder? horder ⟨node, hn, hmem⟩

/-- What is beneath a node stands right before it. -/
theorem postOrder?_eq_range' (hi : i < t.nodes.length) :
    ∃ first ≤ i, t.postOrder? i = some (List.range' first (i + 1 - first)) := by
  obtain ⟨order, horder, hinfix⟩ := infix_postOrder? h (reaches_of_lt h hi)
  obtain ⟨_, orders, _, _, rfl⟩ := postOrder?_eq_some_iff.1 horder
  obtain ⟨first, hle, hrange⟩ := exists_range'_of_infix hinfix
  exact ⟨first, hle, horder.trans (congrArg some hrange)⟩

/-- Every node but the first is listed once. -/
theorem existsUnique_place_of_lt (hi : i < t.nodes.length) (hne : i ≠ root) :
    ∃! place : NodeId × Nat, (t.childrenOf place.1)[place.2]? = some i := by
  refine existsUnique_place h List.nodup_range ?_ (List.mem_range.2 hi) hne
  rintro p c ⟨node, hn, _⟩
  exact List.mem_range.2 (List.getElem?_eq_some_iff.1 hn).1

end Ordered

end NodeTree

/-! ## Parts in their places -/

/-- Parts placed from `base` on: wherever their nodes stand, the nodes of the parts span them, and
none of them is a document. -/
structure Laid (base : Nat) (p : PlacedList) : Prop where
  spans : ∀ t : NodeTree, t.Holds base p.nodes → t.Spans base p.nodes.length p.roots
  kinds : ∀ node ∈ p.nodes, node.data.kind ≠ .document

namespace Laid

variable {base : Nat} {p q : PlacedList}

theorem nil : Laid base {} := ⟨fun _ _ => .nil, nofun⟩

theorem append (hp : Laid base p) (hq : Laid (base + p.nodes.length) q) :
    Laid base ⟨p.nodes ++ q.nodes, p.roots ++ q.roots⟩ where
  spans t h := by
    rw [List.length_append]
    exact (hp.spans t h.left).append (hq.spans t h.right)
  kinds node hnode := by
    rcases List.mem_append.1 hnode with hnode | hnode
    · exact hp.kinds node hnode
    · exact hq.kinds node hnode

/-- A part that stands above others lists them in the order in which they are placed. -/
theorem above (hp : Laid base p) {data : NodeData} (hdata : data.children = p.roots)
    (span : Span) (hkind : data.kind ≠ .document := by nofun) :
    Laid base (Placed.above base p.nodes data span).toList where
  spans t h := by
    have hspans : t.Spans base p.nodes.length data.children := hdata ▸ hp.spans t h.left
    have hlength : (Placed.above base p.nodes data span).toList.nodes.length =
        p.nodes.length + 1 := List.length_append
    rw [hlength]
    exact hspans.above h.get?
  kinds node hnode := by
    rcases List.mem_append.1 hnode with hnode | hnode
    · exact hp.kinds node hnode
    · rw [List.mem_singleton.1 hnode]
      exact hkind

theorem all {α : Type} {place : Nat → α → PlacedList} (h : ∀ a b, Laid b (place b a)) :
    ∀ (as : List α) (base : Nat), Laid base (placeAll place base as)
  | [], _ => nil
  | a :: as, base => (h a base).append (all h as _)

end Laid

section Parts

variable (names : NameTable)

theorem laid_placeTypeName (base : Nat) (n : Name) :
    Laid base (placeTypeName names base n).toList :=
  (Laid.nil.above rfl n.span).above rfl n.span

theorem laid_placeType (base : Nat) : ∀ type : TypeRef, Laid base (placeType names base type).toList
  | .named n => laid_placeTypeName names base n
  | .list item span => (laid_placeType base item).above rfl span
  | .nonNull inner span => (laid_placeType base inner).above rfl span

theorem laid_placeInputValue (v : InputValue) (base : Nat) :
    Laid base (placeInputValue names base v).toList :=
  (laid_placeType names base v.type).above rfl v.span

/-- A field lists its arguments before its type, as they are placed. -/
theorem laid_placeField (f : Field) (base : Nat) : Laid base (placeField names base f).toList :=
  ((Laid.all (laid_placeInputValue names) f.arguments base).append
    (laid_placeType names _ f.type)).above rfl f.span

theorem laid_placeTypeNames (ns : List Name) (base : Nat) :
    Laid base (placeTypeNames names base ns) :=
  Laid.all (fun n b => laid_placeTypeName names b n) ns base

theorem laid_placeFields (fs : List Field) (base : Nat) : Laid base (placeFields names base fs) :=
  Laid.all (laid_placeField names) fs base

theorem laid_placeOperation (o : RootOperation) (base : Nat) :
    Laid base (placeOperation names base o).toList :=
  (laid_placeTypeName names base o.type).above rfl o.span

theorem laid_placeEnumValue (v : EnumValue) (base : Nat) :
    Laid base (placeEnumValue names base v).toList :=
  Laid.nil.above rfl v.span

theorem laid_placeDefinition (x : Definition) (base : Nat) :
    Laid base (placeDefinition names base x) := by
  cases x with
  | schema d =>
    exact (Laid.all (laid_placeOperation names) d.operations base).above rfl d.span
  | object d =>
    exact ((laid_placeTypeNames names d.interfaces base).append
      (laid_placeFields names d.fields _)).above rfl d.span
  | interface d => exact (laid_placeFields names d.fields base).above rfl d.span
  | union d => exact (laid_placeTypeNames names d.members base).above rfl d.span
  | enum d => exact (Laid.all (laid_placeEnumValue names) d.values base).above rfl d.span
  | input d => exact (Laid.all (laid_placeInputValue names) d.fields base).above rfl d.span
  | scalar d => exact Laid.nil.above rfl d.span
  | directive d => exact Laid.nil

end Parts

/-! ## Documents -/

/-- Whether a definition is that of a directive. -/
def Schema.Definition.isDirective : Definition → Bool
  | .directive _ => true
  | _ => false

/-- Directives get no nodes, and other parts stand where they would stand without them. -/
theorem placeAll_filter_isDirective (names : NameTable) :
    ∀ (xs : List Definition) (base : Nat),
      placeAll (placeDefinition names) base (xs.filter fun x => !x.isDirective) =
        placeAll (placeDefinition names) base xs
  | [], _ => rfl
  | x :: xs, base => by
    cases x with
    | directive d => exact placeAll_filter_isDirective names xs base
    | _ =>
      rw [List.filter_cons_of_pos rfl, placeAll, placeAll, placeAll_filter_isDirective names xs]

section Document

variable (names : NameTable) (d : Document)

/-- The nodes beneath the node of a document. -/
theorem laid_definitions :
    Laid 0 (placeAll (placeDefinition names) 0 d.definitions) :=
  Laid.all (laid_placeDefinition names) d.definitions 0

theorem root_placeDocument : (placeDocument names d).root =
    (placeAll (placeDefinition names) 0 d.definitions).nodes.length :=
  Nat.zero_add _

theorem length_ofDocument :
    (NodeTree.ofDocument names d).nodes.length = (placeDocument names d).root + 1 := by
  rw [root_placeDocument]
  exact List.length_append

theorem root?_ofDocument :
    (NodeTree.ofDocument names d).root? = some (placeDocument names d).root := by
  have hne : (NodeTree.ofDocument names d).nodes ≠ [] := by
    intro h
    have hlength := length_ofDocument names d
    rw [h] at hlength
    cases hlength
  rw [NodeTree.root?, if_neg (by simpa using hne), length_ofDocument]
  rfl

/-- The document is the last node and the only document. -/
theorem kind_eq_document_iff {i : NodeId} {node : Node}
    (h : (NodeTree.ofDocument names d).get? i = some node) :
    node.data.kind = .document ↔ i = (placeDocument names d).root := by
  have h : ((placeAll (placeDefinition names) 0 d.definitions).nodes ++ [_])[i]? = some node := h
  rw [root_placeDocument]
  by_cases hi : i < (placeAll (placeDefinition names) 0 d.definitions).nodes.length
  · rw [List.getElem?_append_left hi] at h
    have hkind := (laid_definitions names d).kinds node (List.mem_of_getElem? h)
    exact ⟨fun hdocument => absurd hdocument hkind, fun heq => absurd heq (Nat.ne_of_lt hi)⟩
  · have hle := Nat.le_of_not_lt hi
    rw [List.getElem?_append_right hle] at h
    obtain ⟨hlt, rfl⟩ := List.getElem?_eq_some_iff.1 h
    rw [List.getElem_singleton]
    exact ⟨fun _ => Nat.le_antisymm (Nat.le_of_sub_eq_zero (Nat.lt_one_iff.1 hlt)) hle,
      fun _ => rfl⟩

theorem postOrder?_ofDocument :
    (NodeTree.ofDocument names d).postOrder? (placeDocument names d).root =
      some (List.range (NodeTree.ofDocument names d).nodes.length) := by
  have hholds := (NodeTree.ofDocument names d).holds_nodes
  have hspans := (laid_definitions names d).spans _ hholds.left
  have horder := (hspans.above hholds.get?).postOrder?
  rwa [Nat.zero_add, ← root_placeDocument, ← length_ofDocument, ← List.range_eq_range'] at horder

end Document

/-- **The numbers of a document's nodes are their places in post-order.** Its own node is the last one
and the only one of its kind. Therefore every other node is listed by one node in one place, nodes
list smaller numbers than their own, the nodes beneath a node and the node itself have consecutive
numbers, and directives have no nodes. -/
theorem ofDocument_in_postOrder (names : NameTable) (d : Document) :
    let t := NodeTree.ofDocument names d
    let root := (placeDocument names d).root
    (t.root? = some root ∧ root + 1 = t.nodes.length ∧
      ∀ i node, t.get? i = some node → (node.data.kind = .document ↔ i = root)) ∧
    t.postOrder? root = some (List.range t.nodes.length) ∧
    (∀ i < t.nodes.length, i ≠ root →
      ∃! place : NodeId × Nat, (t.childrenOf place.1)[place.2]? = some i) ∧
    (∀ i c, t.Lists i c → c < i) ∧
    (∀ i < t.nodes.length, ∃ first ≤ i, t.postOrder? i = some (List.range' first (i + 1 - first))) ∧
    NodeTree.ofDocument names { d with definitions := d.definitions.filter fun x => !x.isDirective } =
      t := by
  intro t root
  have hlength : t.nodes.length = root + 1 := length_ofDocument names d
  have horder : t.postOrder? root = some (List.range t.nodes.length) := postOrder?_ofDocument names d
  refine ⟨⟨root?_ofDocument names d, hlength.symm, fun i node h => kind_eq_document_iff names d h⟩,
    horder, fun i hi hne => NodeTree.existsUnique_place_of_lt horder hi hne,
    fun i c hc => NodeTree.lt_of_lists horder hc,
    fun i hi => NodeTree.postOrder?_eq_range' horder hi, ?_⟩
  rw [NodeTree.ofDocument, placeDocument, placeAll_filter_isDirective]
  rfl

/-- A directive, and a type with a field that takes an argument and gives a list. -/
def arrangedDocument : Document :=
  ⟨[.directive ⟨none, ⟨⟨3⟩, ⟨11, 16⟩⟩, [], false, [], ⟨0, 16⟩⟩,
    .object ⟨none, ⟨⟨3⟩, ⟨22, 27⟩⟩, [], [],
      [⟨none, ⟨⟨1⟩, ⟨30, 32⟩⟩, [⟨none, ⟨⟨2⟩, ⟨33, 36⟩⟩, .named ⟨⟨1⟩, ⟨38, 40⟩⟩, none, [], ⟨33, 40⟩⟩],
        .list (.nonNull (.named ⟨⟨4⟩, ⟨44, 51⟩⟩) ⟨44, 52⟩) ⟨43, 53⟩, [], ⟨30, 53⟩⟩], ⟨17, 55⟩⟩],
    ⟨0, 55⟩⟩

theorem ofDocument_in_postOrder_arrangedDocument :
    let t := NodeTree.ofDocument .initial arrangedDocument
    t.postOrder? 9 = some (List.range 10) ∧
      (∃! place : NodeId × Nat, (t.childrenOf place.1)[place.2]? = some 6) ∧
      (t.childrenOf 7)[1]? = some 6 ∧
      ∃ first ≤ 7, t.postOrder? 7 = some (List.range' first (8 - first)) := by
  obtain ⟨_, horder, hplace, _, hpiece, _⟩ := ofDocument_in_postOrder .initial arrangedDocument
  exact ⟨horder, hplace 6 (by decide) (by decide), rfl, hpiece 7 (by decide)⟩

end SchemaToFlow
