import SchemaToFlow.Proofs.Direct

/-!
# Evaluating the nodes of a document

A document is placed in nodes part by part. Each lemma here takes a part whose nodes stand in a tree
from some number on (`NodeTree.Holds`) and gives the value of its last node: the meaning that the
part has by itself, and the names it refers to. They are put together by `value_of_children`, which
says what a node is worth once its children are, so that no proof but that one looks into the
evaluation.

The result is `program_eq_flow`: if every definition has a name, the program that a document means
is `Document.flow`.
-/

namespace SchemaToFlow

open Text Schema SchemaToFlow.Flow

/-! ## Nodes in their places -/

/-- The value of a part that is no reference itself: all its references lie beneath. -/
def Valued.ofReferences (m : Meaning) (references : List String) : Valued := ⟨m, references, []⟩

@[simp] theorem Valued.mentions_ofReferences (m : Meaning) (references : List String) :
    (Valued.ofReferences m references).mentions = references :=
  List.append_nil references

namespace NodeTree

/-- The nodes stand in the tree from number `base` on. -/
def Holds (t : NodeTree) (base : Nat) (nodes : List Node) : Prop :=
  ∀ i node, nodes[i]? = some node → t.get? (base + i) = some node

variable {t : NodeTree} {base : Nat} {exact : Bool}

theorem Holds.left {xs ys : List Node} (h : t.Holds base (xs ++ ys)) : t.Holds base xs := by
  intro i node hi
  have hlt : i < xs.length := (List.getElem?_eq_some_iff.1 hi).1
  exact h i node (by rw [List.getElem?_append_left hlt, hi])

theorem Holds.right {xs ys : List Node} (h : t.Holds base (xs ++ ys)) :
    t.Holds (base + xs.length) ys := by
  intro i node hi
  have hg := h (xs.length + i) node (by
    rw [List.getElem?_append_right (Nat.le_add_right _ _), Nat.add_sub_cancel_left, hi])
  rwa [← Nat.add_assoc] at hg

theorem Holds.get? {xs : List Node} {node : Node} (h : t.Holds base (xs ++ [node])) :
    t.get? (base + xs.length) = some node :=
  h.right 0 node rfl

theorem holds_nodes (t : NodeTree) : t.Holds 0 t.nodes := by
  intro i node hi
  rw [Nat.zero_add]
  exact hi

/-- What is known once the children of a node are walked: their values. -/
def Knows (t : NodeTree) (exact : Bool) (e : Evaluation) (children : List NodeId) : Prop :=
  ∀ c v, c ∈ children → t.value exact none c = .ok v → t.Done exact e c v

/-- Nodes with numbers below a bound, and their values. -/
def Worth (t : NodeTree) (exact : Bool) (bound : Nat) (roots : List NodeId)
    (values : List Valued) : Prop :=
  List.Forall₂ (fun r v => r < bound ∧ t.value exact none r = .ok v) roots values

namespace Worth

variable {bound : Nat} {rs ss : List NodeId} {vs ws : List Valued}

theorem mono {bound' : Nat} (h : t.Worth exact bound rs vs) (hle : bound ≤ bound') :
    t.Worth exact bound' rs vs :=
  List.Forall₂.imp (fun _ _ hr => ⟨Nat.lt_of_lt_of_le hr.1 hle, hr.2⟩) h

/-- Nodes placed one after the other. -/
theorem append {xs ys : List Node} (h : t.Worth exact (base + xs.length) rs vs)
    (h' : t.Worth exact (base + xs.length + ys.length) ss ws) :
    t.Worth exact (base + (xs ++ ys).length) (rs ++ ss) (vs ++ ws) := by
  rw [List.length_append, ← Nat.add_assoc]
  exact List.rel_append (h.mono (Nat.le_add_right _ _)) h'

theorem single {r : Nat} {v : Valued} (hlt : r < bound) (h : t.value exact none r = .ok v) :
    t.Worth exact bound [r] [v] :=
  .cons ⟨hlt, h⟩ .nil

theorem exists_childValues {id : Nat} (h : t.Worth exact id rs vs) :
    ∃ pairs, rs.mapM (t.childValue exact id) = .ok pairs ∧
      (pairs.flatMap fun k => k.2.mentions) = vs.flatMap Valued.mentions ∧
      ∀ k ∈ pairs, t.value exact none k.1 = .ok k.2 := by
  induction h with
  | nil => exact ⟨[], rfl, rfl, fun k hk => absurd hk List.not_mem_nil⟩
  | @cons c v _ _ hcv _ ih =>
    obtain ⟨pairs, hpairs, hmentions, hvalues⟩ := ih
    refine ⟨(c, v) :: pairs, ?_, ?_, ?_⟩
    · rw [List.mapM_cons, childValue, if_pos hcv.1, value_asker hcv.2, hpairs]
      rfl
    · rw [List.flatMap_cons, List.flatMap_cons, hmentions]
    · intro k hk
      rcases List.mem_cons.1 hk with rfl | hk
      · exact hcv.2
      · exact hvalues k hk

end Worth

/-- **The value of a node from those of its children**, once its meaning is found from them. -/
theorem value_of_children {id : Nat} {node : Node} {kids : List Valued} {m : Meaning}
    (hg : t.get? id = some node) (hk : t.Worth exact id node.data.children kids)
    (hm : ∀ e, t.Knows exact e node.data.children → t.nodeMeaning exact e id node.data = .ok m) :
    t.value exact none id =
      .ok ⟨m, kids.flatMap Valued.mentions, node.data.ownReference m⟩ := by
  obtain ⟨pairs, hpairs, hmentions, hvalues⟩ := hk.exists_childValues
  have hknows : t.Knows exact (.ofChildren pairs) node.data.children := by
    intro c v hc hv
    rw [← map_fst_of_mapM_childValue hpairs] at hc
    obtain ⟨k, hk, rfl⟩ := List.mem_map.1 hc
    have hkv : k.2 = v := Except.ok.inj ((hvalues k hk).symm.trans hv)
    exact hkv ▸ done_ofChildren hvalues k hk
  rw [value_of_get? hg, hpairs]
  show t.valueOver exact id node.data pairs = _
  rw [valueOver, hm _ hknows, ← hmentions]
  rfl

/-- The same for a node that is no reference itself. -/
theorem value_eq_ofReferences {id : Nat} {node : Node} {kids : List Valued} {m : Meaning}
    {references : List String} (hg : t.get? id = some node)
    (hk : t.Worth exact id node.data.children kids)
    (hm : ∀ e, t.Knows exact e node.data.children → t.nodeMeaning exact e id node.data = .ok m)
    (hown : node.data.ownReference m = []) (hr : kids.flatMap Valued.mentions = references) :
    t.value exact none id = .ok (.ofReferences m references) := by
  rw [value_of_children hg hk hm, hown, hr]
  rfl

/-! ## Reading the meanings of children -/

section Children

variable {e : Evaluation} {id c : Nat} {v : Valued}

theorem typeOf_of_done (h : t.Done exact e c v) {type : TypeExpr} (hv : v.meaning = .type type) :
    t.typeOf e id c = .ok type := by
  rw [typeOf, NodeTree.meaning, h.meaning, hv]
  rfl

theorem propertyOf_of_done (h : t.Done exact e c v) {p : Property}
    (hv : v.meaning = .property p) : t.propertyOf e id c = .ok p := by
  rw [propertyOf, NodeTree.meaning, h.meaning, hv]
  rfl

theorem declarationOf_of_done (h : t.Done exact e c v) {d : Declaration}
    (hv : v.meaning = .declaration d) : t.declarationOf e id c = .ok d := by
  rw [declarationOf, NodeTree.meaning, h.meaning, hv]
  rfl

theorem isNonNull_of_get? {node : Node} (h : t.get? c = some node) :
    t.isNonNull id c = .ok (decide (node.data.kind = .nonNull)) := by
  rw [isNonNull, NodeTree.node, h]
  rfl

theorem listType_of_eq_ok {nonNull : Bool} {type : TypeExpr} (hn : t.isNonNull id c = .ok nonNull)
    (ht : t.typeOf e id c = .ok type) :
    t.listType e id c =
      .ok (if type.identifier?.isSome ∧ nonNull = false then .array (.nullable type)
        else .array type) := by
  rw [listType, hn, ht]
  show (if type.identifier?.isSome ∧ nonNull = false then pure (.array (.nullable type))
    else pure (.array type) : Except Fault TypeExpr) = _
  split <;> rfl

theorem objectType_of_eq_ok {members : List NodeId} {ps : List Property}
    (h : members.mapM (t.propertyOf e id) = .ok ps) (sealed : Bool) :
    t.objectType e id members sealed = .ok ⟨ps, sealed⟩ := by
  rw [objectType, h]
  rfl

theorem valueProperty_of_eq_ok {names : NameTable} {type : TypeRef} {name : String}
    {arguments : List NodeId} {ps : List Property}
    (hn : t.isNonNull id c = .ok type.isNonNull)
    (ht : t.typeOf e id c = .ok (type.flow names))
    (ha : arguments.mapM (t.propertyOf e id) = .ok ps) :
    t.valueProperty e id name arguments c = .ok (propertyOfType names name ps type) := by
  have hlength : arguments.length = ps.length := (mapM_eq_ok_iff.1 ha).length_eq
  rw [valueProperty, hn, ht, objectType_of_eq_ok ha]
  cases ps with
  | nil =>
    rw [List.eq_nil_of_length_eq_zero hlength]
    cases h : type.isNonNull <;> simp only [propertyOfType, h] <;> rfl
  | cons p ps =>
    obtain ⟨a, as, rfl⟩ := List.exists_cons_of_length_eq_add_one hlength
    cases h : type.isNonNull <;> simp only [propertyOfType, h] <;> rfl

/-- The declaration of an object type with the given properties, by the interfaces that it
implements. -/
def declarationWith (name : String) (supers : List String) (ps : List Property) (exact : Bool) :
    Declaration :=
  match supers with
  | [] => .typeAlias name (.object ⟨ps, exact⟩)
  | _ :: _ => .interface name supers ⟨ps, false⟩

theorem objectDeclaration_of_eq_ok {name : String} {interfaces fields : List NodeId}
    {supers : List String} {ps : List Property}
    (hi : ∀ asker, interfaces.mapM (t.interfaceName asker) = .ok supers)
    (hf : ∀ id sealed, t.objectType e id fields sealed = .ok ⟨ps, sealed⟩) :
    t.objectDeclaration exact e id name interfaces fields =
      .ok (declarationWith name supers ps exact) := by
  have hlength : interfaces.length = supers.length := (mapM_eq_ok_iff.1 (hi id)).length_eq
  rw [objectDeclaration, hf, hf, hi]
  cases supers with
  | nil =>
    rw [List.eq_nil_of_length_eq_zero hlength]
    rfl
  | cons s supers =>
    obtain ⟨i, is, rfl⟩ := List.exists_cons_of_length_eq_add_one hlength
    rfl

/-- Parts read from children that are known, one by one. -/
theorem mapM_of_knows {α β : Type} {f : NodeId → Except Fault β} {w : α → Valued} {g : α → β}
    {bound : Nat} {cs children : List NodeId} {as : List α} (hk : t.Knows exact e children)
    (hsub : ∀ c ∈ cs, c ∈ children)
    (h : t.Worth exact bound cs (as.map w))
    (hf : ∀ c a, t.Done exact e c (w a) → f c = .ok (g a)) : cs.mapM f = .ok (as.map g) := by
  have hw := List.forall₂_map_right_iff.1 h
  rw [mapM_eq_ok_iff, List.forall₂_map_right_iff]
  clear h
  induction hw with
  | nil => exact .nil
  | @cons c a cs as hca _ ih =>
    refine .cons (hf c a (hk c _ (hsub c List.mem_cons_self) hca.2)) ?_
    exact ih fun x hx => hsub x (List.mem_cons_of_mem c hx)

theorem mapM_propertyOf {α : Type} {w : α → Valued} {g : α → Property} {bound : Nat}
    {cs children : List NodeId} {as : List α} (hk : t.Knows exact e children)
    (hsub : ∀ c ∈ cs, c ∈ children) (h : t.Worth exact bound cs (as.map w))
    (hw : ∀ a, (w a).meaning = .property (g a)) (id : NodeId) :
    cs.mapM (t.propertyOf e id) = .ok (as.map g) :=
  mapM_of_knows hk hsub h fun _ a hd => propertyOf_of_done hd (hw a)

theorem objectType_of_worth {α : Type} {w : α → Valued} {g : α → Property} {bound : Nat}
    {cs children : List NodeId} {as : List α} (h : t.Worth exact bound cs (as.map w))
    (hk : t.Knows exact e children) (hsub : ∀ c ∈ cs, c ∈ children)
    (hw : ∀ a, (w a).meaning = .property (g a)) (id : NodeId) (sealed : Bool) :
    t.objectType e id cs sealed = .ok ⟨as.map g, sealed⟩ :=
  objectType_of_eq_ok (mapM_propertyOf hk hsub h hw id) sealed

theorem unionType_of_worth {α : Type} {w : α → Valued} {g : α → TypeExpr} {bound : Nat}
    {cs : List NodeId} {as : List α} (h : t.Worth exact bound cs (as.map w))
    (hk : t.Knows exact e cs) (hw : ∀ a, (w a).meaning = .type (g a))
    (id : NodeId) : t.unionType e id cs = .ok (.union (as.map g)) := by
  have hm : cs.mapM (t.typeOf e id) = .ok (as.map g) :=
    mapM_of_knows hk (fun _ hc => hc) h fun _ a hd => typeOf_of_done hd (hw a)
  rw [unionType, hm]
  rfl

end Children

end NodeTree

/-! ## Lists of parts -/

section Lists

variable {t : NodeTree} {base : Nat} {α β : Type} {P : Nat → β → Prop}

theorem Placed.root_above_lt (base : Nat) (children : List Node) (data : NodeData) (span : Span) :
    (Placed.above base children data span).root <
      base + (Placed.above base children data span).nodes.length := by
  simp [Placed.above]

/-- Roots that lie below a bound lie below every larger one. -/
theorem forall₂_lt_mono {bound bound' : Nat} (hle : bound ≤ bound') {rs : List Nat} {bs : List β}
    (h : List.Forall₂ (fun r b => r < bound ∧ P r b) rs bs) :
    List.Forall₂ (fun r b => r < bound' ∧ P r b) rs bs :=
  h.imp fun _ _ hr => ⟨Nat.lt_of_lt_of_le hr.1 hle, hr.2⟩

/-- What holds of every part, wherever it is placed, holds of parts placed one after the other. -/
theorem forall₂_placeAll {place : Nat → α → PlacedList} {g : α → List β} :
    ∀ {as : List α} {base : Nat},
      (∀ a ∈ as, ∀ b, t.Holds b (place b a).nodes →
        List.Forall₂ (fun r y => r < b + (place b a).nodes.length ∧ P r y) (place b a).roots
          (g a)) →
      t.Holds base (placeAll place base as).nodes →
      List.Forall₂ (fun r y => r < base + (placeAll place base as).nodes.length ∧ P r y)
        (placeAll place base as).roots (as.flatMap g)
  | [], _, _, _ => .nil
  | a :: as, base, hplace, h => by
    have hfirst := hplace a List.mem_cons_self base h.left
    have hothers := forall₂_placeAll (fun x hx => hplace x (List.mem_cons_of_mem a hx)) h.right
    have hlength : (placeAll place base (a :: as)).nodes.length = (place base a).nodes.length +
        (placeAll place (base + (place base a).nodes.length) as).nodes.length :=
      List.length_append
    rw [List.flatMap_cons, hlength]
    refine List.rel_append (forall₂_lt_mono ?_ hfirst) (forall₂_lt_mono ?_ hothers)
    · omega
    · omega

/-- The same for parts that each have a node of their own. -/
theorem forall₂_placeEach {place : Nat → α → Placed} {P : Nat → α → Prop} {as : List α}
    (hplace : ∀ a b, t.Holds b (place b a).nodes →
      (place b a).root < b + (place b a).nodes.length ∧ P (place b a).root a)
    (h : t.Holds base (placeAll (fun b a => (place b a).toList) base as).nodes) :
    List.Forall₂
      (fun r a => r < base + (placeAll (fun b a => (place b a).toList) base as).nodes.length ∧
        P r a)
      (placeAll (fun b a => (place b a).toList) base as).roots as := by
  have hall := forall₂_placeAll (P := P) (g := fun a => [a]) ?_ h
  · rwa [List.flatMap_singleton'] at hall
  · intro a _ b hb
    exact .cons (hplace a b hb) .nil

/-- The values of parts that each have a node of their own. -/
theorem worth_placeEach {exact : Bool} {place : Nat → α → Placed} {w : α → Valued} {as : List α}
    (h : t.Holds base (placeAll (fun b a => (place b a).toList) base as).nodes)
    (hplace : ∀ a b, t.Holds b (place b a).nodes →
      (place b a).root < b + (place b a).nodes.length ∧
        t.value exact none (place b a).root = .ok (w a)) :
    t.Worth exact (base + (placeAll (fun b a => (place b a).toList) base as).nodes.length)
      (placeAll (fun b a => (place b a).toList) base as).roots (as.map w) :=
  List.forall₂_map_right_iff.2 (forall₂_placeEach hplace h)

theorem flatMap_mentions_map {w : α → Valued} {references : α → List String}
    (hw : ∀ a, (w a).mentions = references a) (as : List α) :
    (as.map w).flatMap Valued.mentions = as.flatMap references := by
  rw [List.flatMap_map, show (fun a => (w a).mentions) = references from funext hw]

end Lists

/-! ## Types -/

theorem typeNamed_eq_flowNamed (n : String) : NodeTree.typeNamed n = flowNamed n := by
  unfold NodeTree.typeNamed flowNamed
  split
  · rename_i h
    rcases h with rfl | rfl <;> rfl
  · rename_i h
    rw [not_or] at h
    split
    · rename_i hi
      subst hi
      rfl
    · rename_i hi
      split
      · exact absurd rfl h.1
      · exact absurd rfl h.2
      · exact absurd rfl hi
      · rfl

/-- A reference to a named type has a name of its own exactly when the name is no built-in one. -/
theorem ownReference_namedType (c : NodeId) (n : String) :
    (NodeData.namedType c).ownReference (.type (flowNamed n)) = [n].filter isReference := by
  unfold flowNamed
  split
  · rfl
  · rfl
  · rfl
  · rename_i hs hi hn
    have hnone : ¬ n = "String" ∧ ¬ n = "ID" ∧ ¬ n = "Int" := ⟨hs, hi, hn⟩
    have hr : isReference n = true := by simpa [isReference] using hnone
    rw [List.filter_cons_of_pos hr]
    rfl

/-- The value of a reference to a named type. -/
def typeNameValued (n : String) : Valued := ⟨.type (flowNamed n), [], [n].filter isReference⟩

section Parts

variable (names : NameTable)

/-- The value of a type: a name alone refers to a declaration itself, other types do so beneath. -/
def Schema.TypeRef.valued : TypeRef → Valued
  | .named n => typeNameValued (names.text n.id)
  | type => .ofReferences (.type (type.flow names)) (type.references names)

variable {names} {t : NodeTree} {base : Nat} {exact : Bool}

theorem meaning_valued (type : TypeRef) : (type.valued names).meaning = .type (type.flow names) := by
  cases type with
  | named n => rw [TypeRef.valued, TypeRef.flow, typeNameValued]
  | list item span => rfl
  | nonNull inner span => rfl

theorem mentions_valued (type : TypeRef) :
    (type.valued names).mentions = type.references names := by
  cases type with
  | named n => rfl
  | list item span => exact List.append_nil _
  | nonNull inner span => exact List.append_nil _

/-- A list of named types whose name refers to a declaration may hold nulls. -/
theorem flow_list (item : TypeRef) (span : Span) :
    (TypeRef.list item span).flow names =
      if (item.flow names).identifier?.isSome ∧ item.isNonNull = false then
        .array (.nullable (item.flow names))
      else .array (item.flow names) := by
  cases item with
  | named n =>
    rw [TypeRef.flow, TypeRef.flow]
    cases flowNamed (names.text n.id) <;> simp [TypeExpr.identifier?, TypeRef.isNonNull]
  | list inner span' =>
    have hid : ((TypeRef.list inner span').flow names).identifier? = none := by
      cases inner with
      | named n =>
        rw [TypeRef.flow]
        split <;> rfl
      | list _ _ => rfl
      | nonNull _ _ => rfl
    rw [hid, TypeRef.flow]
    · simp
    · simp
  | nonNull inner span' =>
    rw [if_neg (by simp [TypeRef.isNonNull])]
    rfl

/-- The nodes of a reference to a named type. -/
theorem value_placeTypeName (exact : Bool) {n : Name}
    (h : t.Holds base (placeTypeName names base n).nodes) :
    t.value exact none (placeTypeName names base n).root =
        .ok (typeNameValued (names.text n.id)) ∧
      (∀ asker, t.interfaceName asker (placeTypeName names base n).root =
        .ok (names.text n.id)) ∧
      ∀ asker, t.isNonNull asker (placeTypeName names base n).root = .ok false := by
  have hname : t.get? base = some ⟨.name (names.text n.id), n.span⟩ := h.left.get?
  have htype : t.get? (base + 1) = some ⟨.namedType base, n.span⟩ := h.get?
  have hvalue : t.value exact none base = .ok ⟨.type (flowNamed (names.text n.id)), [], []⟩ := by
    rw [← typeNamed_eq_flowNamed]
    exact NodeTree.value_of_children hname .nil fun e _ => rfl
  show t.value exact none (base + 1) = _ ∧ (∀ asker, t.interfaceName asker (base + 1) = _) ∧
    ∀ asker, t.isNonNull asker (base + 1) = _
  refine ⟨?_, fun asker => ?_, fun asker => NodeTree.isNonNull_of_get? htype⟩
  · have hv := NodeTree.value_of_children (m := .type (flowNamed (names.text n.id))) htype
      (.cons ⟨Nat.lt_succ_self base, hvalue⟩ .nil) fun e hk => by
        have hd := hk base _ (List.mem_singleton.2 rfl) hvalue
        rw [NodeTree.nodeMeaning, NodeTree.typeOf_of_done hd rfl]
        rfl
    rw [hv, ownReference_namedType]
    rfl
  · rw [NodeTree.interfaceName, NodeTree.node, htype]
    show (t.node base (some (base + 1)) >>= _ : Except Fault String) = _
    rw [NodeTree.node, hname]
    rfl

theorem root_placeType_lt (names : NameTable) (base : Nat) (type : TypeRef) :
    (placeType names base type).root < base + (placeType names base type).nodes.length := by
  cases type with
  | named n => exact Placed.root_above_lt _ _ _ _
  | list item span => exact Placed.root_above_lt _ _ _ _
  | nonNull inner span => exact Placed.root_above_lt _ _ _ _

/-- The nodes of a type. -/
theorem value_placeType (exact : Bool) :
    ∀ type : TypeRef, t.Holds base (placeType names base type).nodes →
      t.value exact none (placeType names base type).root = .ok (type.valued names) ∧
        ∀ asker, t.isNonNull asker (placeType names base type).root = .ok type.isNonNull
  | .named n, h => by
    obtain ⟨hvalue, _, hnull⟩ := value_placeTypeName exact h
    exact ⟨hvalue, hnull⟩
  | .list item span, h => by
    obtain ⟨hitem, hnull⟩ := value_placeType exact item h.left
    refine ⟨?_, fun asker => NodeTree.isNonNull_of_get? h.get?⟩
    refine NodeTree.value_eq_ofReferences h.get?
      (.single (root_placeType_lt names base item) hitem) (fun e hk => ?_) rfl ?_
    · have hd := hk _ _ (List.mem_singleton.2 rfl) hitem
      rw [NodeTree.nodeMeaning, NodeTree.listType_of_eq_ok (hnull _)
        (NodeTree.typeOf_of_done hd (meaning_valued item)), flow_list]
      rfl
    · rw [List.flatMap_singleton, mentions_valued]
      rfl
  | .nonNull inner span, h => by
    obtain ⟨hinner, _⟩ := value_placeType exact inner h.left
    refine ⟨?_, fun asker => NodeTree.isNonNull_of_get? h.get?⟩
    refine NodeTree.value_eq_ofReferences h.get?
      (.single (root_placeType_lt names base inner) hinner) (fun e hk => ?_) rfl ?_
    · have hd := hk _ _ (List.mem_singleton.2 rfl) hinner
      rw [NodeTree.nodeMeaning, NodeTree.typeOf_of_done hd (meaning_valued inner)]
      rfl
    · rw [List.flatMap_singleton, mentions_valued]
      rfl

/-! ## Properties -/

variable (names) in
/-- The value of an argument or of a field of an input type. -/
def Schema.InputValue.valued (v : InputValue) : Valued :=
  .ofReferences (.property (v.property names)) (v.type.references names)

variable (names) in
/-- The value of a field. -/
def Schema.Field.valued (f : Field) : Valued :=
  .ofReferences (.property (f.property names)) (f.references names)

variable (names) in
/-- The value of an entry point. -/
def Schema.RootOperation.valued (o : RootOperation) : Valued :=
  .ofReferences (.property (o.property names)) ([names.text o.type.id].filter isReference)

variable (names) in
/-- The value of a value of an enumeration. -/
def Schema.EnumValue.valued (v : EnumValue) : Valued :=
  .ofReferences (.type (.literal (names.text v.name.id))) []

theorem Schema.InputValue.mentions_valued (v : InputValue) :
    (v.valued names).mentions = v.type.references names :=
  Valued.mentions_ofReferences _ _

theorem Schema.Field.mentions_valued (f : Field) :
    (f.valued names).mentions = f.references names :=
  Valued.mentions_ofReferences _ _

theorem Schema.RootOperation.mentions_valued (o : RootOperation) :
    (o.valued names).mentions = [names.text o.type.id].filter isReference :=
  Valued.mentions_ofReferences _ _

theorem Schema.EnumValue.mentions_valued (v : EnumValue) : (v.valued names).mentions = [] := rfl

/-- The nodes of an argument or of a field of an input type. -/
theorem value_placeInputValue (exact : Bool) {v : InputValue}
    (h : t.Holds base (placeInputValue names base v).nodes) :
    t.value exact none (placeInputValue names base v).root = .ok (v.valued names) := by
  obtain ⟨htype, hnull⟩ := value_placeType exact v.type h.left
  refine NodeTree.value_eq_ofReferences h.get?
    (.single (root_placeType_lt names base v.type) htype) (fun e hk => ?_) rfl ?_
  · have hd := hk _ _ (List.mem_singleton.2 rfl) htype
    rw [NodeTree.nodeMeaning, NodeTree.valueProperty_of_eq_ok (hnull _)
      (NodeTree.typeOf_of_done hd (meaning_valued v.type)) List.mapM_nil]
    rfl
  · rw [List.flatMap_singleton, mentions_valued]

/-- The nodes of a field. -/
theorem value_placeField (exact : Bool) {f : Field} (h : t.Holds base (placeField names base f).nodes) :
    t.value exact none (placeField names base f).root = .ok (f.valued names) := by
  have hargs := worth_placeEach h.left.left fun v b hb =>
    ⟨Placed.root_above_lt _ _ _ _, value_placeInputValue exact hb⟩
  obtain ⟨htype, hnull⟩ := value_placeType exact f.type h.left.right
  refine NodeTree.value_eq_ofReferences h.get?
    (hargs.append (.single (root_placeType_lt names _ f.type) htype)) (fun e hk => ?_) rfl ?_
  · have hd := hk _ _ (List.mem_append_right _ (List.mem_singleton.2 rfl)) htype
    have hps := NodeTree.mapM_propertyOf hk (fun c hc => List.mem_append_left _ hc) hargs
      fun v => rfl
    rw [NodeTree.nodeMeaning, NodeTree.valueProperty_of_eq_ok (hnull _)
      (NodeTree.typeOf_of_done hd (meaning_valued f.type)) (hps _)]
    rfl
  · rw [List.flatMap_append, flatMap_mentions_map InputValue.mentions_valued,
      List.flatMap_singleton, mentions_valued]
    rfl

/-- The nodes of an entry point. -/
theorem value_placeOperation (exact : Bool) {o : RootOperation}
    (h : t.Holds base (placeOperation names base o).nodes) :
    t.value exact none (placeOperation names base o).root = .ok (o.valued names) := by
  obtain ⟨htype, _, _⟩ := value_placeTypeName exact h.left
  refine NodeTree.value_eq_ofReferences h.get?
    (.single (Placed.root_above_lt _ _ _ _) htype) (fun e hk => ?_) rfl ?_
  · have hd := hk _ _ (List.mem_singleton.2 rfl) htype
    rw [NodeTree.nodeMeaning, NodeTree.typeOf_of_done hd rfl]
    rfl
  · rw [List.flatMap_singleton]
    rfl

/-- The node of a value of an enumeration. -/
theorem value_placeEnumValue (exact : Bool) {v : EnumValue}
    (h : t.Holds base (placeEnumValue names base v).nodes) :
    t.value exact none (placeEnumValue names base v).root = .ok (v.valued names) := by
  refine NodeTree.value_eq_ofReferences h.get? .nil (fun e hk => ?_) rfl rfl
  rfl

/-! ## Definitions -/

/-- The nodes of references to named types. -/
theorem worth_placeTypeNames (exact : Bool) {ns : List Name}
    (h : t.Holds base (placeTypeNames names base ns).nodes) :
    t.Worth exact (base + (placeTypeNames names base ns).nodes.length)
        (placeTypeNames names base ns).roots (ns.map fun n => typeNameValued (names.text n.id)) ∧
      ∀ asker, (placeTypeNames names base ns).roots.mapM (t.interfaceName asker) =
        .ok (ns.map fun n => names.text n.id) := by
  have hall := forall₂_placeEach (P := fun r n =>
      t.value exact none r = .ok (typeNameValued (names.text n.id)) ∧
        ∀ asker, t.interfaceName asker r = .ok (names.text n.id)) ?_ h
  · constructor
    · exact List.forall₂_map_right_iff.2 (hall.imp fun _ _ hr => ⟨hr.1, hr.2.1⟩)
    · intro asker
      rw [mapM_eq_ok_iff, List.forall₂_map_right_iff]
      exact hall.imp fun _ _ hr => hr.2.2 asker
  · intro n b hb
    obtain ⟨hvalue, hinterface, _⟩ := value_placeTypeName exact hb
    exact ⟨Placed.root_above_lt _ _ _ _, hvalue, hinterface⟩

/-- The nodes of fields. -/
theorem worth_placeFields (exact : Bool) {fs : List Field}
    (h : t.Holds base (placeFields names base fs).nodes) :
    t.Worth exact (base + (placeFields names base fs).nodes.length)
      (placeFields names base fs).roots (fs.map (Field.valued names)) :=
  worth_placeEach h fun _ _ hb => ⟨Placed.root_above_lt _ _ _ _, value_placeField exact hb⟩

theorem namesReferred_eq_flatMap (ns : List Name) :
    namesReferred names ns = ns.flatMap fun n => [names.text n.id].filter isReference := by
  induction ns with
  | nil => rfl
  | cons n ns ih =>
    rw [List.flatMap_cons, ← ih, namesReferred, namesReferred, List.map_cons,
      ← List.singleton_append, List.filter_append]

variable (names) in
/-- A node that stands for a definition: it is worth the declaration and the references of the
definition, and it is found by the definition's name. -/
structure Defines (t : NodeTree) (exact : Bool) (r : Nat) (x : Definition) : Prop where
  value : ∃ decl, x.declaration? names exact = some decl ∧
    t.value exact none r = .ok (.ofReferences (.declaration decl) (x.references names))
  name : ∃ n, x.name? names = some n ∧ (n ≠ "" → ∀ asker, t.definitionName asker r = .ok n)

theorem definitionName_eq {r : Nat} {node : Node} {n : String} (h : t.get? r = some node)
    (hn : node.data.name? = some n) (asker : NodeId) :
    t.definitionName asker r =
      if n = "" then .error (.noName ⟨node.data.kind, node.span⟩) else .ok n := by
  -- only a node without a name of its own is a schema
  have hs : node.data.kind ≠ .schema := by
    intro hk
    cases hd : node.data with
    | schema ops => rw [hd] at hn; cases hn
    | _ => rw [hd] at hk; cases hk
  rw [NodeTree.definitionName, NodeTree.node, h]
  show (if node.data.kind = .schema then _ else _ : Except Fault String) = _
  rw [if_neg hs, hn]
  rfl

theorem definitionName_of_get? {r : Nat} {node : Node} {n : String} (h : t.get? r = some node)
    (hn : node.data.name? = some n) (hne : n ≠ "") (asker : NodeId) :
    t.definitionName asker r = .ok n := by
  rw [definitionName_eq h hn, if_neg hne]

theorem definitionName_schema {r : Nat} {ops : List NodeId} {span : Span}
    (h : t.get? r = some ⟨.schema ops, span⟩) (asker : NodeId) :
    t.definitionName asker r = .ok "schema" := by
  rw [NodeTree.definitionName, NodeTree.node, h]
  rfl

theorem declaration?_object (d : FieldsDefinition) :
    (Definition.object d).declaration? names exact =
      some (NodeTree.declarationWith (names.text d.name.id)
        (d.interfaces.map fun n => names.text n.id) (d.fields.map (Field.property names))
        exact) := by
  rw [Definition.declaration?]
  cases d.interfaces <;> rfl

/-- The nodes of a definition. -/
theorem forall₂_placeDefinition (exact : Bool) (x : Definition)
    (h : t.Holds base (placeDefinition names base x).nodes) :
    List.Forall₂ (fun r y =>
        r < base + (placeDefinition names base x).nodes.length ∧ Defines names t exact r y)
      (placeDefinition names base x).roots ([x].filter fun x => (x.name? names).isSome) := by
  cases x with
  | directive d => exact .nil
  | scalar d =>
    refine .cons ⟨Placed.root_above_lt _ _ _ _, ⟨_, rfl, ?_⟩, _, rfl, ?_⟩ .nil
    · exact NodeTree.value_eq_ofReferences h.get? .nil (fun e _ => rfl) rfl rfl
    · exact definitionName_of_get? h.get? rfl
  | schema d =>
    have hops := worth_placeEach h.left fun o b hb =>
      ⟨Placed.root_above_lt _ _ _ _, value_placeOperation exact hb⟩
    refine .cons ⟨Placed.root_above_lt _ _ _ _, ⟨_, rfl, ?_⟩, _, rfl, ?_⟩ .nil
    · refine NodeTree.value_eq_ofReferences h.get? hops (fun e hk => ?_) rfl ?_
      · rw [NodeTree.nodeMeaning,
          NodeTree.objectType_of_worth hops hk (fun c hc => hc) fun o => rfl]
        rfl
      · rw [flatMap_mentions_map RootOperation.mentions_valued, Definition.references,
          namesReferred_eq_flatMap, List.flatMap_map]
    · exact fun _ => definitionName_schema h.get?
  | object d =>
    obtain ⟨hinterfaces, hsupers⟩ := worth_placeTypeNames exact h.left.left
    have hfields := worth_placeFields exact h.left.right
    refine .cons ⟨Placed.root_above_lt _ _ _ _, ⟨_, declaration?_object d, ?_⟩, _, rfl, ?_⟩ .nil
    · refine NodeTree.value_eq_ofReferences h.get? (hinterfaces.append hfields)
        (fun e hk => ?_) rfl ?_
      · have hobject := NodeTree.objectType_of_worth hfields hk
          (fun c hc => List.mem_append_right _ hc) fun f => rfl
        rw [NodeTree.nodeMeaning, NodeTree.objectDeclaration_of_eq_ok hsupers hobject]
        rfl
      · rw [List.flatMap_append, flatMap_mentions_map fun n => rfl,
          flatMap_mentions_map Field.mentions_valued, Definition.references,
          namesReferred_eq_flatMap]
        rfl
    · exact definitionName_of_get? h.get? rfl
  | interface d =>
    have hfields := worth_placeFields exact h.left
    refine .cons ⟨Placed.root_above_lt _ _ _ _, ⟨_, rfl, ?_⟩, _, rfl, ?_⟩ .nil
    · refine NodeTree.value_eq_ofReferences h.get? hfields (fun e hk => ?_) rfl
        (flatMap_mentions_map Field.mentions_valued d.fields)
      rw [NodeTree.nodeMeaning,
        NodeTree.objectType_of_worth hfields hk (fun c hc => hc) fun f => rfl]
      rfl
    · exact definitionName_of_get? h.get? rfl
  | union d =>
    obtain ⟨hmembers, _⟩ := worth_placeTypeNames exact h.left
    refine .cons ⟨Placed.root_above_lt _ _ _ _, ⟨_, rfl, ?_⟩, _, rfl, ?_⟩ .nil
    · refine NodeTree.value_eq_ofReferences h.get? hmembers (fun e hk => ?_) rfl ?_
      · rw [NodeTree.nodeMeaning, NodeTree.unionType_of_worth hmembers hk fun n => rfl]
        rfl
      · rw [flatMap_mentions_map fun n => rfl, Definition.references, namesReferred_eq_flatMap]
        rfl
    · exact definitionName_of_get? h.get? rfl
  | enum d =>
    have hvalues := worth_placeEach h.left fun v b hb =>
      ⟨Placed.root_above_lt _ _ _ _, value_placeEnumValue exact hb⟩
    refine .cons ⟨Placed.root_above_lt _ _ _ _, ⟨_, rfl, ?_⟩, _, rfl, ?_⟩ .nil
    · refine NodeTree.value_eq_ofReferences h.get? hvalues (fun e hk => ?_) rfl ?_
      · rw [NodeTree.nodeMeaning, NodeTree.unionType_of_worth hvalues hk fun v => rfl]
        rfl
      · rw [flatMap_mentions_map EnumValue.mentions_valued]
        exact List.flatMap_eq_nil_iff.2 fun _ _ => rfl
    · exact definitionName_of_get? h.get? rfl
  | input d =>
    have hfields := worth_placeEach h.left fun v b hb =>
      ⟨Placed.root_above_lt _ _ _ _, value_placeInputValue exact hb⟩
    refine .cons ⟨Placed.root_above_lt _ _ _ _, ⟨_, rfl, ?_⟩, _, rfl, ?_⟩ .nil
    · refine NodeTree.value_eq_ofReferences h.get? hfields (fun e hk => ?_) rfl
        (flatMap_mentions_map InputValue.mentions_valued d.fields)
      rw [NodeTree.nodeMeaning,
        NodeTree.objectType_of_worth hfields hk (fun c hc => hc) fun o => rfl]
      rfl
    · exact definitionName_of_get? h.get? rfl

/-! ## Documents -/

/-- Numbers and names of definition nodes, in step with the definitions: what a document node has to
know of each to put them in order. -/
def Listed (names : NameTable) (t : NodeTree) (exact : Bool) (e : Evaluation) (id : NodeId)
    (p : NodeId × String) (x : Definition) : Prop :=
  x.name? names = some p.2 ∧ e.references.names p.1 = firstSeen (x.references names) ∧
    ∃ decl, x.declaration? names exact = some decl ∧ t.declarationOf e id p.1 = .ok decl

theorem exists_worth_of_defines {bound : Nat} {rs : List NodeId} {xs : List Definition}
    (h : List.Forall₂ (fun r x => r < bound ∧ Defines names t exact r x) rs xs) :
    ∃ vs, t.Worth exact bound rs vs := by
  induction h with
  | nil => exact ⟨[], .nil⟩
  | cons hrx _ ih =>
    obtain ⟨vs, hvs⟩ := ih
    obtain ⟨⟨decl, _, hvalue⟩, _⟩ := hrx.2
    exact ⟨_ :: vs, .cons ⟨hrx.1, hvalue⟩ hvs⟩

theorem exists_listed {e : Evaluation} {id bound : Nat} {rs children : List NodeId}
    {xs : List Definition}
    (h : List.Forall₂ (fun r x => r < bound ∧ Defines names t exact r x) rs xs)
    (hk : t.Knows exact e children) (hsub : ∀ r ∈ rs, r ∈ children)
    (hne : ∀ x ∈ xs, x.name? names ≠ some "") :
    ∃ pairs, rs.mapM (fun r => (do return (r, ← t.definitionName id r) :
        Except Fault (NodeId × String))) = .ok pairs ∧
      List.Forall₂ (Listed names t exact e id) pairs xs := by
  induction h with
  | nil => exact ⟨[], rfl, .nil⟩
  | @cons r x rs xs hrx _ ih =>
    obtain ⟨pairs, hpairs, hlisted⟩ := ih
      (fun s hs => hsub s (List.mem_cons_of_mem r hs))
      (fun y hy => hne y (List.mem_cons_of_mem x hy))
    obtain ⟨⟨decl, hdecl, hvalue⟩, n, hn, hname⟩ := hrx.2
    have hd := hk r _ (hsub r List.mem_cons_self) hvalue
    have hnonempty : n ≠ "" := by
      rintro rfl
      exact hne x List.mem_cons_self hn
    refine ⟨(r, n) :: pairs, ?_, .cons ⟨hn, hd.names, decl, hdecl, ?_⟩ hlisted⟩
    · rw [List.mapM_cons, hname hnonempty, hpairs]
      rfl
    · exact NodeTree.declarationOf_of_done hd rfl

variable {e : Evaluation} {id : NodeId} {pairs : List (NodeId × String)} {xs : List Definition}

theorem mentions_of_listed (h : List.Forall₂ (Listed names t exact e id) pairs xs) :
    mentions pairs e.references =
      xs.flatMap fun x => firstSeen (x.references names) ++ (x.name? names).toList := by
  unfold mentions
  induction h with
  | nil => rfl
  | cons hpx _ ih =>
    obtain ⟨hn, hr, _⟩ := hpx
    rw [List.flatMap_cons, List.flatMap_cons, ih, hn, hr]
    rfl

/-- The nodes and the definitions with a name correspond. -/
theorem find?_of_listed (n : String) (h : List.Forall₂ (Listed names t exact e id) pairs xs) :
    ((pairs.find? fun p => p.2 = n).map Prod.fst = none ∧
        (xs.find? fun x => x.name? names = some n).bind (Definition.declaration? names exact) =
          none) ∨
      ∃ r decl, (pairs.find? fun p => p.2 = n).map Prod.fst = some r ∧
        (xs.find? fun x => x.name? names = some n).bind (Definition.declaration? names exact) =
          some decl ∧ t.declarationOf e id r = .ok decl := by
  induction h with
  | nil => exact .inl ⟨rfl, rfl⟩
  | @cons p x pairs xs hpx _ ih =>
    obtain ⟨hn, _, decl, hdecl, hof⟩ := hpx
    by_cases hp : p.2 = n
    · have hx : x.name? names = some n := hp ▸ hn
      refine .inr ⟨p.1, decl, ?_, ?_, hof⟩
      · rw [List.find?_cons_of_pos (by simpa using hp)]
        rfl
      · rw [List.find?_cons_of_pos (by simpa using hx)]
        exact hdecl
    · have hx : x.name? names ≠ some n := by
        rw [hn]
        exact fun h => hp (Option.some.inj h)
      rw [List.find?_cons_of_neg (by simpa using hp), List.find?_cons_of_neg (by simpa using hx)]
      exact ih

/-- Elements found one way and read agree with elements found another way. -/
theorem mapM_filterMap {α β γ ε : Type} {f : α → Option β} {g : β → Except ε γ}
    {k : α → Option γ}
    (h : ∀ a, (f a = none ∧ k a = none) ∨ ∃ b c, f a = some b ∧ k a = some c ∧ g b = .ok c) :
    ∀ as : List α, (as.filterMap f).mapM g = .ok (as.filterMap k)
  | [] => rfl
  | a :: as => by
    have ih := mapM_filterMap h as
    rcases h a with ⟨hf, hk⟩ | ⟨b, c, hf, hk, hg⟩
    · rw [List.filterMap_cons_none hf, List.filterMap_cons_none hk, ih]
    · rw [List.filterMap_cons_some hf, List.filterMap_cons_some hk, List.mapM_cons, hg, ih]
      rfl

theorem flatMap_filter_mentions (xs : List Definition) :
    (xs.filter fun x => (x.name? names).isSome).flatMap (Definition.mentions names) =
      xs.flatMap (Definition.mentions names) := by
  induction xs with
  | nil => rfl
  | cons x xs ih =>
    cases x with
    | directive d => exact ih
    | _ => exact congrArg (_ ++ ·) ih

/-- The program of a document node whose definitions are listed. -/
theorem documentProgram_of_listed {rs : List NodeId} {d : Document}
    (hpairs : rs.mapM (fun r => (do return (r, ← t.definitionName id r) :
      Except Fault (NodeId × String))) = .ok pairs)
    (h : List.Forall₂ (Listed names t exact e id) pairs
      (d.definitions.filter fun x => (x.name? names).isSome)) :
    t.documentProgram e id rs = .ok (d.flow names exact) := by
  have hmentions : firstSeen (mentions pairs e.references) = firstSeen (d.mentions names) := by
    rw [mentions_of_listed h, firstSeen_flatMap, Document.mentions, ← flatMap_filter_mentions]
    rfl
  have hlast : ∀ n, d.lastNamed? names n =
      (d.definitions.filter fun x => (x.name? names).isSome).reverse.find?
        fun x => x.name? names = some n := by
    intro n
    rw [← List.filter_reverse, List.find?_filter, Document.lastNamed?]
    congr 1
    funext x
    cases x.name? names <;> simp
  have hbody := mapM_filterMap (fun n => find?_of_listed n (List.rel_reverse h))
    (firstSeen (d.mentions names))
  rw [NodeTree.documentProgram, hpairs]
  show (do return ⟨← (emissionOrder pairs e.references).mapM (t.declarationOf e id)⟩ :
    Except Fault Program) = _
  rw [emissionOrder, hmentions]
  unfold lastNamed?
  rw [hbody, Document.flow]
  simp only [hlast]
  rfl

end Parts

/-- What nodes have in common with the definitions they stand for, wherever those are placed, the
nodes of a document have in common with its definitions. -/
theorem forall₂_ofDocument (p : Parsed) {P : Nat → Definition → Prop}
    (h : ∀ x b, (NodeTree.ofDocument p.names p.document).Holds b (placeDefinition p.names b x).nodes →
      List.Forall₂ (fun r y => r < b + (placeDefinition p.names b x).nodes.length ∧ P r y)
        (placeDefinition p.names b x).roots ([x].filter fun x => (x.name? p.names).isSome)) :
    List.Forall₂
      (fun r y =>
        r < 0 + (placeAll (placeDefinition p.names) 0 p.document.definitions).nodes.length ∧ P r y)
      (placeAll (placeDefinition p.names) 0 p.document.definitions).roots
      (p.document.definitions.filter fun x => (x.name? p.names).isSome) := by
  have hall := forall₂_placeAll (g := fun x => [x].filter fun x => (x.name? p.names).isSome)
    (fun x _ b hb => h x b hb) (NodeTree.ofDocument p.names p.document).holds_nodes.left
  rwa [← List.filter_flatMap, List.flatMap_singleton'] at hall

/-- **The program of a document**, if every definition has a name, is read off its parts. -/
theorem program_eq_flow (p : Parsed)
    (hne : ∀ x ∈ p.document.definitions, x.name? p.names ≠ some "") (exact : Bool) :
    p.program exact = .ok (p.document.flow p.names exact) := by
  have hdefines := forall₂_ofDocument p fun x _ hb => forall₂_placeDefinition exact x hb
  obtain ⟨values, hvalues⟩ := exists_worth_of_defines hdefines
  have hvalue := NodeTree.value_of_children (m := .program (p.document.flow p.names exact))
    (NodeTree.ofDocument p.names p.document).holds_nodes.get? hvalues fun e hk => by
      obtain ⟨pairs, hpairs, hlisted⟩ := exists_listed hdefines hk (fun r hr => hr)
        fun x hx => hne x (List.mem_of_mem_filter hx)
      rw [NodeTree.nodeMeaning, documentProgram_of_listed hpairs hlisted]
      rfl
  rw [Parsed.program, NodeTree.toProgram_eq_value]
  have hroot : (placeDocument p.names p.document).root = 0 +
      (placeAll (placeDefinition p.names) 0 p.document.definitions).nodes.length := rfl
  rw [hroot, hvalue]

end SchemaToFlow
