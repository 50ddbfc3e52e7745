import Mathlib.Logic.Relation
import SchemaToFlow.Proofs.Evaluation

/-!
# Trees unfolded from numbered nodes

Nodes name their children by number, so a node may be shared by several others, listed twice by one,
or listed by none. `NodeTree.tree?` writes a node out with everything beneath it in place, and
`Tree.value` evaluates such a tree by plain recursion: no numbers, no store, no path. What a node is
worth depends on its children and their values alone.

* `nodeMeaning` and what it is made of depend on the trees and the values of the children alone
  (`documentProgram_of_sees` and the lemmas before it).
* `value_tree?`: a node is worth what the tree under it is worth, faults included.
-/

namespace SchemaToFlow

open Text Schema SchemaToFlow.Flow

/-! ## Running over two lists -/

section Lists

variable {α β γ ε : Type}

theorem mapM_eq_some_iff {f : α → Option β} :
    ∀ {as : List α} {bs : List β},
      as.mapM f = some bs ↔ List.Forall₂ (fun a b => f a = some b) as bs
  | [], bs => by
    rw [List.mapM_nil, List.forall₂_nil_left_iff]
    exact ⟨fun h => (Option.some.inj h).symm, fun h => h ▸ rfl⟩
  | a :: as, bs => by
    rw [List.mapM_cons, List.forall₂_cons_left_iff]
    constructor
    · intro h
      obtain ⟨b, hb, h⟩ := Option.bind_eq_some_iff.1 h
      obtain ⟨bs', hbs, h⟩ := Option.bind_eq_some_iff.1 h
      exact ⟨b, bs', hb, mapM_eq_some_iff.1 hbs, (Option.some.inj h).symm⟩
    · rintro ⟨b, bs', hb, hbs, rfl⟩
      rw [hb, mapM_eq_some_iff.2 hbs]
      rfl

theorem exists_mapM_eq_some {f : α → Option β} :
    ∀ {as : List α}, (∀ a ∈ as, ∃ b, f a = some b) → ∃ bs, as.mapM f = some bs
  | [], _ => ⟨[], rfl⟩
  | a :: as, h => by
    obtain ⟨b, hb⟩ := h a List.mem_cons_self
    obtain ⟨bs, hbs⟩ := exists_mapM_eq_some fun x hx => h x (List.mem_cons_of_mem a hx)
    exact ⟨b :: bs, by rw [List.mapM_cons, hb, hbs]; rfl⟩

theorem mapM_eq_mapM {f : α → Except ε γ} {g : β → Except ε γ} {as : List α} {bs : List β}
    (h : List.Forall₂ (fun a b => f a = g b) as bs) : as.mapM f = bs.mapM g := by
  induction h with
  | nil => rfl
  | cons hab _ ih => rw [List.mapM_cons, List.mapM_cons, hab, ih]

end Lists

/-! ## Trees -/

/-- A part of a schema with the parts beneath it. -/
inductive Tree where
  | document (definitions : List Tree) (span : Span)
  | schema (operations : List Tree) (span : Span)
  | operation (operation : Operation) (type : Tree) (span : Span)
  | object (name : String) (interfaces fields : List Tree) (span : Span)
  | interface (name : String) (fields : List Tree) (span : Span)
  | input (name : String) (fields : List Tree) (span : Span)
  | scalar (name : String) (span : Span)
  | enum (name : String) (values : List Tree) (span : Span)
  | enumValue (name : String) (span : Span)
  | union (name : String) (types : List Tree) (span : Span)
  | field (name : String) (arguments : List Tree) (type : Tree) (span : Span)
  | inputValue (name : String) (type : Tree) (span : Span)
  | namedType (name : Tree) (span : Span)
  | list (item : Tree) (span : Span)
  | nonNull (inner : Tree) (span : Span)
  | name (value : String) (span : Span)

namespace Tree

/-- What sort of part the tree stands for, and where it comes from. -/
def site : Tree → Site
  | .document _ span => ⟨.document, span⟩
  | .schema _ span => ⟨.schema, span⟩
  | .operation _ _ span => ⟨.operation, span⟩
  | .object _ _ _ span => ⟨.object, span⟩
  | .interface _ _ span => ⟨.interface, span⟩
  | .input _ _ span => ⟨.input, span⟩
  | .scalar _ span => ⟨.scalar, span⟩
  | .enum _ _ span => ⟨.enum, span⟩
  | .enumValue _ span => ⟨.enumValue, span⟩
  | .union _ _ span => ⟨.union, span⟩
  | .field _ _ _ span => ⟨.field, span⟩
  | .inputValue _ _ span => ⟨.inputValue, span⟩
  | .namedType _ span => ⟨.namedType, span⟩
  | .list _ span => ⟨.list, span⟩
  | .nonNull _ span => ⟨.nonNull, span⟩
  | .name _ span => ⟨.name, span⟩

/-- The name that the part declares, if it declares one. -/
def name? : Tree → Option String
  | .object n _ _ _ | .interface n _ _ | .input n _ _ | .scalar n _ | .enum n _ _ | .enumValue n _
  | .union n _ _ | .field n _ _ _ | .inputValue n _ _ => some n
  | .document _ _ | .schema _ _ | .operation _ _ _ | .namedType _ _ | .list _ _ | .nonNull _ _
  | .name _ _ => none

/-- Whether the part is a non-null type. -/
def isNonNull : Tree → Bool
  | .nonNull _ _ => true
  | _ => false

/-- The name of an interface, as it is written. -/
def interfaceName : Tree → Except Fault String
  | .namedType (.name value _) _ => .ok value
  | .namedType other _ => .error (.mismatch other.site "name" other.site.kind.describe)
  | other => .error (.mismatch other.site "named type" other.site.kind.describe)

theorem interfaceName_of_ne {tree : Tree} (h : tree.site.kind ≠ .namedType) :
    tree.interfaceName = .error (.mismatch tree.site "named type" tree.site.kind.describe) := by
  cases tree with
  | namedType _ _ => exact absurd rfl h
  | _ => rfl

theorem interfaceName_of_target_ne {target : Tree} (h : target.site.kind ≠ .name) (span : Span) :
    (Tree.namedType target span).interfaceName =
      .error (.mismatch target.site "name" target.site.kind.describe) := by
  cases target with
  | name _ _ => exact absurd rfl h
  | _ => rfl

/-- The name by which a definition is ordered. -/
def definitionName : Tree → Except Fault String
  | .schema _ _ => .ok "schema"
  | tree =>
    match tree.name? with
    | some n => if n = "" then .error (.noName tree.site) else .ok n
    | none => .error (.noName tree.site)

end Tree

/-! ## Values of trees -/

/-- A part and what it is worth. -/
structure Child where
  tree : Tree
  value : Valued

namespace Child

/-- The type that a part means. -/
def type (c : Child) : Except Fault TypeExpr :=
  match c.value.meaning with
  | .type type => .ok type
  | other => .error (.mismatch c.tree.site "type" other.shape)

/-- The property that a part means. -/
def property (c : Child) : Except Fault Property :=
  match c.value.meaning with
  | .property property => .ok property
  | other => .error (.mismatch c.tree.site "property" other.shape)

/-- The declaration that a part means. -/
def declaration (c : Child) : Except Fault Declaration :=
  match c.value.meaning with
  | .declaration declaration => .ok declaration
  | other => .error (.mismatch c.tree.site "declaration" other.shape)

/-- The type of a list of items. -/
def listType (item : Child) : Except Fault TypeExpr := do
  let type ← item.type
  if type.identifier?.isSome ∧ item.tree.isNonNull = false then return .array (.nullable type)
  else return .array type

/-- The object type with the properties of some parts. -/
def objectType (members : List Child) (exact : Bool) : Except Fault ObjectType :=
  return ⟨← members.mapM property, exact⟩

/-- The union of some types. -/
def unionType (members : List Child) : Except Fault TypeExpr :=
  return .union (← members.mapM type)

/-- The property of a field or an input value. -/
def valueProperty (name : String) (arguments : List Child) (type : Child) :
    Except Fault Property := do
  let plain ← type.type
  let optional := !type.tree.isNonNull
  let value := if optional then .nullable plain else plain
  if arguments.isEmpty then return ⟨name, value, optional⟩
  else return ⟨name, .function (← objectType arguments false) value, optional⟩

/-- The declaration of an object type. -/
def objectDeclaration (exact : Bool) (name : String) (interfaces fields : List Child) :
    Except Fault Declaration := do
  if interfaces.isEmpty then
    return .typeAlias name (.object (← objectType fields exact))
  else
    let supers ← interfaces.mapM fun c => c.tree.interfaceName
    return .interface name supers (← objectType fields false)

/-- The program of some definitions: of every name the last definition counts, and names come in the
order in which they are referred to beneath the definitions, or defined. -/
def program (definitions : List Child) : Except Fault Program := do
  let named ← definitions.mapM fun c => return (c, ← c.tree.definitionName)
  let order := firstSeen (named.flatMap fun d => d.1.value.beneath ++ [d.2])
  let last (name : String) := (named.reverse.find? fun d => d.2 = name).map Prod.fst
  return ⟨← (order.filterMap last).mapM declaration⟩

/-- The value of a part that means `m` and has the children given. -/
def above (children : List Child) (m : Meaning) : Valued :=
  ⟨m, children.flatMap fun c => c.value.mentions, []⟩

end Child

namespace Tree

open Child

mutual

/-- **The value of a tree**, from the values of its children. They are evaluated first, in order,
and the first fault is the result. -/
def value (exact : Bool) : Tree → Except Fault Valued
  | .name n _ => return above [] (.type (NodeTree.typeNamed n))
  | .namedType target _ => do
    let target : Child := ⟨target, ← target.value exact⟩
    let type ← target.type
    return ⟨.type type, target.value.mentions, type.identifier?.toList⟩
  | .list item _ => do
    let item : Child := ⟨item, ← item.value exact⟩
    return above [item] (.type (← item.listType))
  | .nonNull inner _ => do
    let inner : Child := ⟨inner, ← inner.value exact⟩
    return above [inner] (.type (← inner.type))
  | .operation op type _ => do
    let type : Child := ⟨type, ← type.value exact⟩
    return above [type] (.property ⟨op.spelling, ← type.type, false⟩)
  | .field n arguments type _ => do
    let arguments ← values exact arguments
    let type : Child := ⟨type, ← type.value exact⟩
    return above (arguments ++ [type]) (.property (← valueProperty n arguments type))
  | .inputValue n type _ => do
    let type : Child := ⟨type, ← type.value exact⟩
    return above [type] (.property (← valueProperty n [] type))
  | .scalar n _ => return above [] (.declaration (.opaqueType n .any))
  | .enumValue n _ => return above [] (.type (.literal n))
  | .enum n members _ => do
    let members ← values exact members
    return above members (.declaration (.typeAlias n (← unionType members)))
  | .union n members _ => do
    let members ← values exact members
    return above members (.declaration (.typeAlias n (← unionType members)))
  | .object n interfaces fields _ => do
    let interfaces ← values exact interfaces
    let fields ← values exact fields
    return above (interfaces ++ fields)
      (.declaration (← objectDeclaration exact n interfaces fields))
  | .interface n fields _ => do
    let fields ← values exact fields
    return above fields (.declaration (.interface n [] (← objectType fields false)))
  | .input n fields _ => do
    let fields ← values exact fields
    return above fields (.declaration (.typeAlias n (.object (← objectType fields exact))))
  | .schema operations _ => do
    let operations ← values exact operations
    return above operations
      (.declaration (.typeAlias "schema" (.object (← objectType operations exact))))
  | .document definitions _ => do
    let definitions ← values exact definitions
    return above definitions (.program (← program definitions))

/-- Trees with their values. -/
def values (exact : Bool) : List Tree → Except Fault (List Child)
  | [] => return []
  | tree :: trees => do
    let first : Child := ⟨tree, ← tree.value exact⟩
    return first :: (← values exact trees)

end

/-- The program that a tree means. -/
def toProgram (exact : Bool) (tree : Tree) : Except Fault Program := do
  match (← tree.value exact).meaning with
  | .program program => return program
  | other => throw (.mismatch tree.site "program" other.shape)

end Tree

/-! ## Unfolding -/

/-- The tree of a node, given the trees of its children. -/
def NodeData.grow (child : NodeId → Option Tree) (span : Span) : NodeData → Option Tree
  | .document definitions => return .document (← definitions.mapM child) span
  | .schema operations => return .schema (← operations.mapM child) span
  | .operation op type => return .operation op (← child type) span
  | .object n interfaces fields =>
    return .object n (← interfaces.mapM child) (← fields.mapM child) span
  | .interface n fields => return .interface n (← fields.mapM child) span
  | .input n fields => return .input n (← fields.mapM child) span
  | .scalar n => some (.scalar n span)
  | .enum n values => return .enum n (← values.mapM child) span
  | .enumValue n => some (.enumValue n span)
  | .union n types => return .union n (← types.mapM child) span
  | .field n arguments type =>
    return .field n (← arguments.mapM child) (← child type) span
  | .inputValue n type => return .inputValue n (← child type) span
  | .namedType target => return .namedType (← child target) span
  | .list item => return .list (← child item) span
  | .nonNull inner => return .nonNull (← child inner) span
  | .name value => some (.name value span)

namespace NodeTree

/-- The tree under a node, if every link beneath it leads to a node with a smaller number. -/
def tree? (t : NodeTree) (id : NodeId) : Option Tree := do
  let node ← t.get? id
  node.data.grow (fun child => if child < id then t.tree? child else none) node.span
termination_by id

/-- A node lists another as its child. -/
def Lists (t : NodeTree) (i j : NodeId) : Prop :=
  ∃ node, t.get? i = some node ∧ j ∈ node.data.children

/-- A node is met on the way down from another. -/
def Reaches (t : NodeTree) : NodeId → NodeId → Prop := Relation.ReflTransGen t.Lists

/-- Every node met on the way down exists and has a smaller number than the nodes that list it. -/
def Sound (t : NodeTree) (root : NodeId) : Prop :=
  ∀ i, t.Reaches root i → ∃ node, t.get? i = some node ∧ ∀ j ∈ node.data.children, j < i

variable {t : NodeTree} {exact : Bool} {id c : Nat} {e : Evaluation}

/-! ## What a node sees of its children -/

theorem grow_of_tree? {tree : Tree} (h : t.tree? c = some tree) :
    ∃ node, t.get? c = some node ∧
      node.data.grow (fun child => if child < c then t.tree? child else none) node.span =
        some tree := by
  rw [tree?] at h
  exact Option.bind_eq_some_iff.1 h

/-- A tree shows at its root what its node says. -/
theorem root_of_tree? {tree : Tree} (h : t.tree? c = some tree) :
    ∃ node, t.get? c = some node ∧ tree.site = ⟨node.data.kind, node.span⟩ ∧
      tree.name? = node.data.name? ∧ tree.isNonNull = decide (node.data.kind = .nonNull) := by
  obtain ⟨⟨data, span⟩, hget, hgrow⟩ := grow_of_tree? h
  refine ⟨⟨data, span⟩, hget, ?_⟩
  cases data <;> simp [NodeData.grow, Option.bind_eq_some_iff] at hgrow
  all_goals grind [Tree.site, Tree.name?, Tree.isNonNull, NodeData.kind, NodeData.name?]

theorem site_of_tree? {tree : Tree} (h : t.tree? c = some tree) (asker : Option NodeId) :
    t.site c asker = tree.site := by
  obtain ⟨node, hget, hsite, _⟩ := root_of_tree? h
  rw [NodeTree.site, hget, hsite]
  rfl

/-- What is known of a child: its tree, what it means and what is referred to beneath it. -/
structure Sees (t : NodeTree) (e : Evaluation) (c : NodeId) (k : Child) : Prop where
  tree : t.tree? c = some k.tree
  meaning : e.meanings.lookup c = some k.value.meaning
  names : e.references.names c = firstSeen k.value.beneath

section Sees

variable {k : Child}

theorem typeOf_of_sees (h : t.Sees e c k) (id : NodeId) : t.typeOf e id c = k.type := by
  rw [typeOf, NodeTree.meaning, h.meaning, Child.type, ← site_of_tree? h.tree none]
  cases k.value.meaning <;> rfl

theorem propertyOf_of_sees (h : t.Sees e c k) (id : NodeId) : t.propertyOf e id c = k.property := by
  rw [propertyOf, NodeTree.meaning, h.meaning, Child.property, ← site_of_tree? h.tree none]
  cases k.value.meaning <;> rfl

theorem declarationOf_of_sees (h : t.Sees e c k) (id : NodeId) :
    t.declarationOf e id c = k.declaration := by
  rw [declarationOf, NodeTree.meaning, h.meaning, Child.declaration, ← site_of_tree? h.tree none]
  cases k.value.meaning <;> rfl

theorem isNonNull_of_sees (h : t.Sees e c k) : t.isNonNull id c = .ok k.tree.isNonNull := by
  obtain ⟨node, hget, _, _, hnonNull⟩ := root_of_tree? h.tree
  rw [isNonNull, NodeTree.node, hget, hnonNull]
  rfl

theorem definitionName_of_tree? {tree : Tree} (h : t.tree? c = some tree) (id : NodeId) :
    t.definitionName id c = tree.definitionName := by
  obtain ⟨node, hget, hsite, hname, _⟩ := root_of_tree? h
  have hkind : node.data.kind = tree.site.kind := by rw [hsite]
  have hspan : node.span = tree.site.span := by rw [hsite]
  rw [definitionName, NodeTree.node, hget]
  show (if node.data.kind = .schema then _ else _) = _
  rw [hkind, hspan, ← hname]
  cases tree <;> rfl

/-- The name of an interface depends on its tree alone. -/
theorem interfaceName_of_tree? {tree : Tree} (h : t.tree? c = some tree) :
    t.interfaceName id c = tree.interfaceName := by
  obtain ⟨⟨data, span⟩, hget, hgrow⟩ := grow_of_tree? h
  have hplace : t.site c none = tree.site := site_of_tree? h none
  have hkind : tree.site.kind = data.kind := by
    rw [← hplace, NodeTree.site, hget]
    rfl
  rw [interfaceName, NodeTree.node, hget]
  cases data with
  | namedType n =>
    obtain ⟨target, htarget, hnamed⟩ := Option.bind_eq_some_iff.1 hgrow
    obtain rfl := Option.some.inj hnamed
    have hn : t.tree? n = some target := by
      by_contra hne
      simp_all
    -- the same for the name beneath the reference
    obtain ⟨⟨data, span'⟩, hget', hgrow'⟩ := grow_of_tree? hn
    have hplace' : t.site n none = target.site := site_of_tree? hn none
    have hkind' : target.site.kind = data.kind := by
      rw [← hplace', NodeTree.site, hget']
      rfl
    show (t.node n (some c) >>= _) = _
    rw [NodeTree.node, hget']
    cases data with
    | name value =>
      cases hgrow'
      rfl
    | _ =>
      have hne : target.site.kind ≠ .name := by simp [hkind', NodeData.kind]
      rw [Tree.interfaceName_of_target_ne hne, hkind', ← hplace']
      rfl
  | _ =>
    have hne : tree.site.kind ≠ .namedType := by simp [hkind, NodeData.kind]
    rw [Tree.interfaceName_of_ne hne, hkind, ← hplace]
    rfl

end Sees

/-! ## The meaning of a node from its children -/

section Meaning

variable {cs ds : List NodeId} {ks ls : List Child}

theorem objectType_of_sees (h : List.Forall₂ (t.Sees e) cs ks) (sealed : Bool) :
    t.objectType e id cs sealed = Child.objectType ks sealed := by
  rw [objectType, Child.objectType,
    mapM_eq_mapM (h.imp fun _ _ hck => propertyOf_of_sees hck id)]

theorem unionType_of_sees (h : List.Forall₂ (t.Sees e) cs ks) :
    t.unionType e id cs = Child.unionType ks := by
  rw [unionType, Child.unionType,
    mapM_eq_mapM (h.imp fun _ _ hck => typeOf_of_sees hck id)]

theorem listType_of_sees {k : Child} (h : t.Sees e c k) : t.listType e id c = k.listType := by
  rw [listType, Child.listType, isNonNull_of_sees h, typeOf_of_sees h]
  rfl

theorem isEmpty_of_sees (h : List.Forall₂ (t.Sees e) cs ks) : cs.isEmpty = ks.isEmpty := by
  cases h <;> rfl

theorem valueProperty_of_sees {k : Child} {n : String} (h : List.Forall₂ (t.Sees e) cs ks)
    (hk : t.Sees e c k) : t.valueProperty e id n cs c = Child.valueProperty n ks k := by
  rw [valueProperty, Child.valueProperty, isNonNull_of_sees hk, typeOf_of_sees hk,
    isEmpty_of_sees h, objectType_of_sees h]
  rfl

theorem objectDeclaration_of_sees {n : String} (h : List.Forall₂ (t.Sees e) cs ks)
    (h' : List.Forall₂ (t.Sees e) ds ls) :
    t.objectDeclaration exact e id n cs ds = Child.objectDeclaration exact n ks ls := by
  have hsupers : cs.mapM (t.interfaceName id) = ks.mapM fun k => k.tree.interfaceName :=
    mapM_eq_mapM (h.imp fun _ _ hck => interfaceName_of_tree? hck.tree)
  rw [objectDeclaration, Child.objectDeclaration, isEmpty_of_sees h, objectType_of_sees h',
    objectType_of_sees h', hsupers]

/-- A definition by number and the same definition by its tree, both with its name. -/
def SeesNamed (t : NodeTree) (e : Evaluation) (d : NodeId × String) (d' : Child × String) : Prop :=
  t.Sees e d.1 d'.1 ∧ d.2 = d'.2

theorem named_of_sees (h : List.Forall₂ (t.Sees e) cs ks) (id : NodeId) :
    (∃ f, cs.mapM (fun d => (do return (d, ← t.definitionName id d) : Except Fault _)) = .error f ∧
      ks.mapM (fun k => (do return (k, ← k.tree.definitionName) : Except Fault _)) = .error f) ∨
    ∃ named named',
      cs.mapM (fun d => (do return (d, ← t.definitionName id d) : Except Fault _)) = .ok named ∧
      ks.mapM (fun k => (do return (k, ← k.tree.definitionName) : Except Fault _)) = .ok named' ∧
      List.Forall₂ (t.SeesNamed e) named named' := by
  induction h with
  | nil => exact .inr ⟨[], [], rfl, rfl, .nil⟩
  | @cons c k _ _ hck _ ih =>
    simp only [List.mapM_cons, definitionName_of_tree? hck.tree id]
    cases hn : k.tree.definitionName with
    | error f => exact .inl ⟨f, rfl, rfl⟩
    | ok n =>
      rcases ih with ⟨f, hf, hf'⟩ | ⟨named, named', hnamed, hnamed', hrel⟩
      · rw [hf, hf']
        exact .inl ⟨f, rfl, rfl⟩
      · rw [hnamed, hnamed']
        exact .inr ⟨(c, n) :: named, (k, n) :: named', rfl, rfl, .cons ⟨hck, rfl⟩ hrel⟩

variable {named : List (NodeId × String)} {named' : List (Child × String)}

theorem mentions_of_seesNamed (h : List.Forall₂ (t.SeesNamed e) named named') :
    mentions named e.references =
      named'.flatMap fun d => firstSeen d.1.value.beneath ++ [d.2] := by
  unfold mentions
  induction h with
  | nil => rfl
  | cons hd _ ih => rw [List.flatMap_cons, List.flatMap_cons, ih, hd.1.names, hd.2]

/-- The last definition of a name, by number and by its tree. -/
theorem lastNamed?_of_seesNamed (h : List.Forall₂ (t.SeesNamed e) named named') (n : String) :
    Option.Rel (t.Sees e) (lastNamed? named n)
      ((named'.reverse.find? fun d => d.2 = n).map Prod.fst) := by
  unfold lastNamed?
  have hreverse := List.rel_reverse h
  generalize named.reverse = ds, named'.reverse = ds' at hreverse
  induction hreverse with
  | nil => exact .none
  | @cons d d' _ _ hd _ ih =>
    by_cases hn : d.2 = n
    · rw [List.find?_cons_of_pos (by simpa using hn),
        List.find?_cons_of_pos (by simpa [← hd.2] using hn)]
      exact .some hd.1
    · rw [List.find?_cons_of_neg (by simpa using hn),
        List.find?_cons_of_neg (by simpa [← hd.2] using hn)]
      exact ih

theorem documentProgram_of_sees (h : List.Forall₂ (t.Sees e) cs ks) :
    t.documentProgram e id cs = Child.program ks := by
  rw [documentProgram, Child.program]
  rcases named_of_sees h id with ⟨f, hf, hf'⟩ | ⟨named, named', hnamed, hnamed', hrel⟩
  · rw [hf, hf']
    rfl
  · have hmentions : firstSeen (mentions named e.references) =
        firstSeen (named'.flatMap fun d => d.1.value.beneath ++ [d.2]) := by
      rw [mentions_of_seesNamed hrel, firstSeen_flatMap]
    have horder : List.Forall₂ (t.Sees e) (emissionOrder named e.references)
        ((firstSeen (named'.flatMap fun d => d.1.value.beneath ++ [d.2])).filterMap fun n =>
          (named'.reverse.find? fun d => d.2 = n).map Prod.fst) := by
      rw [emissionOrder, hmentions]
      refine List.rel_filterMap (R := Eq) ?_ (List.forall₂_same.2 fun _ _ => rfl)
      rintro n _ rfl
      exact lastNamed?_of_seesNamed hrel n
    have hbody := mapM_eq_mapM (horder.imp fun _ _ hck => declarationOf_of_sees hck id)
    rw [hnamed, hnamed']
    show (do return ⟨← (emissionOrder named e.references).mapM (t.declarationOf e id)⟩ :
      Except Fault Program) = _
    rw [hbody]
    rfl

end Meaning

/-! ## The value of a node and of its tree -/

/-- A child of node `id` with its tree, which is worth what the child is worth. -/
structure Grown (t : NodeTree) (exact : Bool) (id c : NodeId) (tree : Tree) : Prop where
  lt : c < id
  grows : t.tree? c = some tree
  value : ∀ asker, t.value exact asker c = tree.value exact

/-- A child of node `id`: its tree and its value. -/
structure Known (t : NodeTree) (exact : Bool) (id c : NodeId) (k : Child) : Prop where
  lt : c < id
  tree : t.tree? c = some k.tree
  value : t.value exact none c = .ok k.value

/-- A reference to a type refers to it by the name that it means. -/
theorem ownReference_type (target : NodeId) (type : TypeExpr) :
    (NodeData.namedType target).ownReference (.type type) = type.identifier?.toList := by
  cases type <;> rfl

section Values

variable {cs : List NodeId} {ks : List Child} {trees : List Tree} {tree : Tree} {data : NodeData}
  {span : Span} {m : Except Fault Meaning}

/-- Children that have values are seen by their parent. -/
theorem exists_pairs_of_known (h : List.Forall₂ (t.Known exact id) cs ks) :
    ∃ pairs, cs.mapM (t.childValue exact id) = .ok pairs ∧
      (pairs.flatMap fun p => p.2.mentions) = (ks.flatMap fun k => k.value.mentions) ∧
      List.Forall₂ (t.Sees (.ofChildren pairs)) cs ks := by
  suffices hpairs : ∃ pairs, cs.mapM (t.childValue exact id) = .ok pairs ∧
      (pairs.flatMap fun p => p.2.mentions) = (ks.flatMap fun k => k.value.mentions) ∧
      (∀ p ∈ pairs, t.value exact none p.1 = .ok p.2) ∧
      List.Forall₂ (fun c k => t.Known exact id c k ∧ (c, k.value) ∈ pairs) cs ks by
    obtain ⟨pairs, hmap, hmentions, hvalues, hmem⟩ := hpairs
    refine ⟨pairs, hmap, hmentions, hmem.imp fun c k hck => ?_⟩
    have hdone := done_ofChildren hvalues _ hck.2
    exact ⟨hck.1.tree, hdone.meaning, hdone.names⟩
  induction h with
  | nil => exact ⟨[], rfl, rfl, by simp, .nil⟩
  | @cons c k _ _ hck _ ih =>
    obtain ⟨pairs, hmap, hmentions, hvalues, hmem⟩ := ih
    refine ⟨(c, k.value) :: pairs, ?_, ?_, ?_, ?_⟩
    · rw [List.mapM_cons, childValue, if_pos hck.lt, value_asker hck.value, hmap]
      rfl
    · rw [List.flatMap_cons, List.flatMap_cons, hmentions]
    · exact List.forall_mem_cons.2 ⟨hck.value, hvalues⟩
    · exact .cons ⟨hck, List.mem_cons_self⟩
        (hmem.imp fun _ _ hp => ⟨hp.1, List.mem_cons_of_mem _ hp.2⟩)

/-- Children and their trees have values together, or fail with the same fault. -/
theorem values_of_grown (h : List.Forall₂ (t.Grown exact id) cs trees) :
    (∃ f, Tree.values exact trees = .error f ∧ cs.mapM (t.childValue exact id) = .error f) ∨
      ∃ ks, Tree.values exact trees = .ok ks ∧ List.Forall₂ (t.Known exact id) cs ks := by
  induction h with
  | nil => exact .inr ⟨[], rfl, .nil⟩
  | @cons c tree cs trees hc _ ih =>
    rw [Tree.values, List.mapM_cons, childValue, if_pos hc.lt, hc.value (some id)]
    cases hv : tree.value exact with
    | error f => exact .inl ⟨f, rfl, rfl⟩
    | ok v =>
      rcases ih with ⟨f, hf, hf'⟩ | ⟨ks, hks, hknown⟩
      · rw [hf, hf']
        exact .inl ⟨f, rfl, rfl⟩
      · rw [hks]
        exact .inr ⟨⟨tree, v⟩ :: ks, rfl, .cons ⟨hc.lt, hc.grows, (hc.value none).trans hv⟩ hknown⟩

/-- A node whose children have values. -/
theorem value_of_known (hn : t.get? id = some ⟨data, span⟩)
    (h : List.Forall₂ (t.Known exact id) data.children ks)
    (hm : ∀ e, List.Forall₂ (t.Sees e) data.children ks → t.nodeMeaning exact e id data = m)
    (asker : Option NodeId) :
    t.value exact asker id =
      m >>= fun m => .ok ⟨m, ks.flatMap fun k => k.value.mentions, data.ownReference m⟩ := by
  obtain ⟨pairs, hmap, hmentions, hsees⟩ := exists_pairs_of_known h
  rw [value_of_get? hn]
  show data.children.mapM (t.childValue exact id) >>= t.valueOver exact id data = _
  rw [hmap]
  show t.valueOver exact id data pairs = _
  rw [valueOver, hm _ hsees, hmentions]
  rfl

/-- A node one of whose children fails. -/
theorem value_of_error {f : Fault} (hn : t.get? id = some ⟨data, span⟩)
    (h : data.children.mapM (t.childValue exact id) = .error f) (asker : Option NodeId) :
    t.value exact asker id = .error f := by
  rw [value_of_get? hn]
  show data.children.mapM (t.childValue exact id) >>= t.valueOver exact id data = _
  rw [h]
  rfl

/-- A node that means something made from the meanings of its children. -/
theorem value_of_grown (hn : t.get? id = some ⟨data, span⟩)
    (h : List.Forall₂ (t.Grown exact id) cs trees) (hcs : data.children = cs)
    (meaning : List Child → Except Fault Meaning)
    (hm : ∀ e ks, List.Forall₂ (t.Sees e) cs ks → t.nodeMeaning exact e id data = meaning ks)
    (asker : Option NodeId) :
    t.value exact asker id = Tree.values exact trees >>= fun ks => meaning ks >>= fun m =>
      .ok ⟨m, ks.flatMap fun k => k.value.mentions, data.ownReference m⟩ := by
  subst hcs
  rcases values_of_grown h with ⟨f, hf, hf'⟩ | ⟨ks, hks, hknown⟩
  · rw [value_of_error hn hf', hf]
    rfl
  · rw [value_of_known hn hknown (fun e hs => hm e ks hs), hks]
    rfl

/-- A node that means something made from the meaning of its only child. -/
theorem value_of_only (hn : t.get? id = some ⟨data, span⟩) (hcs : data.children = [c])
    (h : t.Grown exact id c tree) (meaning : Child → Except Fault Meaning)
    (hm : ∀ e k, t.Sees e c k → t.nodeMeaning exact e id data = meaning k)
    (asker : Option NodeId) :
    t.value exact asker id = tree.value exact >>= fun v => meaning ⟨tree, v⟩ >>= fun m =>
      .ok (⟨m, [Child.mk tree v].flatMap fun k => k.value.mentions, data.ownReference m⟩) := by
  have hcs' : List.Forall₂ (t.Grown exact id) data.children [tree] := by
    rw [hcs]
    exact .cons h .nil
  have hvalues : Tree.values exact [tree] = tree.value exact >>= fun v => .ok [⟨tree, v⟩] := by
    simp only [Tree.values, pure_bind]
    rfl
  rcases values_of_grown hcs' with ⟨f, hf, hf'⟩ | ⟨ks, hks, hknown⟩
  · rw [value_of_error hn hf']
    cases hv : tree.value exact with
    | error f' =>
      rw [hvalues, hv] at hf
      exact congrArg Except.error (Except.error.inj hf).symm
    | ok v =>
      rw [hvalues, hv] at hf
      cases hf
  · cases hv : tree.value exact with
    | error f' =>
      rw [hvalues, hv] at hks
      cases hks
    | ok v =>
      rw [hvalues, hv] at hks
      cases hks
      rw [value_of_known hn hknown fun e hs => ?_]
      · rfl
      · rw [hcs] at hs
        cases hs with
        | cons hk _ => exact hm e _ hk

/-- What a node lists is grown if the trees beneath it are worth what the nodes are worth. -/
theorem grown_of_child
    (ih : ∀ c < id, ∀ {tree}, t.tree? c = some tree →
      ∀ asker, t.value exact asker c = tree.value exact)
    (h : (if c < id then t.tree? c else none) = some tree) : t.Grown exact id c tree := by
  by_cases hc : c < id
  · rw [if_pos hc] at h
    exact ⟨hc, h, ih c hc h⟩
  · rw [if_neg hc] at h
    cases h

theorem grown_of_mapM
    (ih : ∀ c < id, ∀ {tree}, t.tree? c = some tree →
      ∀ asker, t.value exact asker c = tree.value exact)
    (h : (cs.mapM fun c => if c < id then t.tree? c else none) = some trees) :
    List.Forall₂ (t.Grown exact id) cs trees :=
  (mapM_eq_some_iff.1 h).imp fun _ _ hc => grown_of_child ih hc

theorem sees_of_append {ds : List NodeId} {ls : List Child} (hlen : cs.length = ks.length)
    (h : List.Forall₂ (t.Sees e) (cs ++ ds) (ks ++ ls)) :
    List.Forall₂ (t.Sees e) cs ks ∧ List.Forall₂ (t.Sees e) ds ls := by
  have hfirst := List.forall₂_take_append _ _ _ h
  have hrest := List.forall₂_drop_append _ _ _ h
  rw [← hlen, List.take_left] at hfirst
  rw [← hlen, List.drop_left] at hrest
  exact ⟨hfirst, hrest⟩

/-- An object type, whose children are of two kinds. -/
theorem value_object {n : String} {is fs : List NodeId} {its fts : List Tree}
    (hn : t.get? id = some ⟨.object n is fs, span⟩)
    (his : List.Forall₂ (t.Grown exact id) is its) (hfs : List.Forall₂ (t.Grown exact id) fs fts)
    (asker : Option NodeId) :
    t.value exact asker id = (Tree.object n its fts span).value exact := by
  rw [Tree.value]
  rcases values_of_grown his with ⟨f, hf, hf'⟩ | ⟨ks, hks, hknown⟩
  · have hmap : (is ++ fs).mapM (t.childValue exact id) = .error f := by
      rw [List.mapM_append, hf']
      rfl
    rw [value_of_error hn hmap, hf]
    rfl
  rcases values_of_grown hfs with ⟨f, hf, hf'⟩ | ⟨ls, hls, hknown'⟩
  · obtain ⟨pairs, hpairs, _⟩ := exists_pairs_of_known hknown
    have hmap : (is ++ fs).mapM (t.childValue exact id) = .error f := by
      rw [List.mapM_append, hpairs, hf']
      rfl
    rw [value_of_error hn hmap, hks, hf]
    rfl
  · have hm : ∀ e, List.Forall₂ (t.Sees e) (is ++ fs) (ks ++ ls) →
        t.nodeMeaning exact e id (.object n is fs) =
          return .declaration (← Child.objectDeclaration exact n ks ls) := by
      intro e hs
      obtain ⟨hi, hf⟩ := sees_of_append hknown.length_eq hs
      rw [nodeMeaning, objectDeclaration_of_sees hi hf]
    rw [value_of_known hn (List.rel_append hknown hknown') hm, hks, hls]
    simp only [bind_assoc, pure_bind]
    rfl

/-- A field, whose arguments come before its type. -/
theorem value_field {n : String} {as : List NodeId} {ats : List Tree}
    (hn : t.get? id = some ⟨.field n as c, span⟩)
    (has : List.Forall₂ (t.Grown exact id) as ats) (hc : t.Grown exact id c tree)
    (asker : Option NodeId) :
    t.value exact asker id = (Tree.field n ats tree span).value exact := by
  rw [Tree.value]
  rcases values_of_grown has with ⟨f, hf, hf'⟩ | ⟨ks, hks, hknown⟩
  · have hmap : (as ++ [c]).mapM (t.childValue exact id) = .error f := by
      rw [List.mapM_append, hf']
      rfl
    rw [value_of_error hn hmap, hf]
    rfl
  · rw [hks]
    cases hv : tree.value exact with
    | error f =>
      obtain ⟨pairs, hpairs, _⟩ := exists_pairs_of_known hknown
      have hmap : (as ++ [c]).mapM (t.childValue exact id) = .error f := by
        rw [List.mapM_append, hpairs, List.mapM_cons, childValue, if_pos hc.lt, hc.value, hv]
        rfl
      rw [value_of_error hn hmap]
      rfl
    | ok v =>
      have hc' : t.Known exact id c ⟨tree, v⟩ := ⟨hc.lt, hc.grows, (hc.value none).trans hv⟩
      have hm : ∀ e, List.Forall₂ (t.Sees e) (as ++ [c]) (ks ++ [⟨tree, v⟩]) →
          t.nodeMeaning exact e id (.field n as c) =
            return .property (← Child.valueProperty n ks ⟨tree, v⟩) := by
        intro e hs
        obtain ⟨ha, ht⟩ := sees_of_append hknown.length_eq hs
        cases ht with
        | cons ht _ => rw [nodeMeaning, valueProperty_of_sees ha ht]
      rw [value_of_known hn (List.rel_append hknown (.cons hc' .nil)) hm]
      simp only [bind_assoc, pure_bind]
      rfl

end Values

/-- **A node is worth what its tree is worth.** By induction on the number of the node, with one
case for each kind of node. -/
theorem value_tree? {tree : Tree} (h : t.tree? id = some tree) (asker : Option NodeId) :
    t.value exact asker id = tree.value exact := by
  induction id using Nat.strongRecOn generalizing tree asker with
  | ind id ih =>
    obtain ⟨⟨data, span⟩, hn, hgrow⟩ := grow_of_tree? h
    cases data with
    | name n =>
      cases hgrow
      rw [value_of_grown hn .nil rfl (fun _ => return .type (typeNamed n)) fun _ _ _ => rfl]
      rfl
    | scalar n =>
      cases hgrow
      rw [value_of_grown hn .nil rfl (fun _ => return .declaration (.opaqueType n .any))
        fun _ _ _ => rfl]
      rfl
    | enumValue n =>
      cases hgrow
      rw [value_of_grown hn .nil rfl (fun _ => return .type (.literal n)) fun _ _ _ => rfl]
      rfl
    | document definitions =>
      obtain ⟨ts, hts, htree⟩ := Option.bind_eq_some_iff.1 hgrow
      cases htree
      rw [value_of_grown hn (grown_of_mapM ih hts) rfl
        (fun ks => return .program (← Child.program ks))
        fun e ks hs => by rw [nodeMeaning, documentProgram_of_sees hs]]
      simp only [Tree.value, bind_assoc, pure_bind]
      rfl
    | schema operations =>
      obtain ⟨ts, hts, htree⟩ := Option.bind_eq_some_iff.1 hgrow
      cases htree
      rw [value_of_grown hn (grown_of_mapM ih hts) rfl
        (fun ks =>
          return .declaration (.typeAlias "schema" (.object (← Child.objectType ks exact))))
        fun e ks hs => by rw [nodeMeaning, objectType_of_sees hs]]
      simp only [Tree.value, bind_assoc, pure_bind]
      rfl
    | interface n fields =>
      obtain ⟨ts, hts, htree⟩ := Option.bind_eq_some_iff.1 hgrow
      cases htree
      rw [value_of_grown hn (grown_of_mapM ih hts) rfl
        (fun ks => return .declaration (.interface n [] (← Child.objectType ks false)))
        fun e ks hs => by rw [nodeMeaning, objectType_of_sees hs]]
      simp only [Tree.value, bind_assoc, pure_bind]
      rfl
    | input n fields =>
      obtain ⟨ts, hts, htree⟩ := Option.bind_eq_some_iff.1 hgrow
      cases htree
      rw [value_of_grown hn (grown_of_mapM ih hts) rfl
        (fun ks => return .declaration (.typeAlias n (.object (← Child.objectType ks exact))))
        fun e ks hs => by rw [nodeMeaning, objectType_of_sees hs]]
      simp only [Tree.value, bind_assoc, pure_bind]
      rfl
    | enum n members =>
      obtain ⟨ts, hts, htree⟩ := Option.bind_eq_some_iff.1 hgrow
      cases htree
      rw [value_of_grown hn (grown_of_mapM ih hts) rfl
        (fun ks => return .declaration (.typeAlias n (← Child.unionType ks)))
        fun e ks hs => by rw [nodeMeaning, unionType_of_sees hs]]
      simp only [Tree.value, bind_assoc, pure_bind]
      rfl
    | union n members =>
      obtain ⟨ts, hts, htree⟩ := Option.bind_eq_some_iff.1 hgrow
      cases htree
      rw [value_of_grown hn (grown_of_mapM ih hts) rfl
        (fun ks => return .declaration (.typeAlias n (← Child.unionType ks)))
        fun e ks hs => by rw [nodeMeaning, unionType_of_sees hs]]
      simp only [Tree.value, bind_assoc, pure_bind]
      rfl
    | object n interfaces fields =>
      obtain ⟨its, hits, hgrow⟩ := Option.bind_eq_some_iff.1 hgrow
      obtain ⟨fts, hfts, htree⟩ := Option.bind_eq_some_iff.1 hgrow
      cases htree
      exact value_object hn (grown_of_mapM ih hits) (grown_of_mapM ih hfts) asker
    | field n arguments type =>
      obtain ⟨ats, hats, hgrow⟩ := Option.bind_eq_some_iff.1 hgrow
      obtain ⟨type', htype, htree⟩ := Option.bind_eq_some_iff.1 hgrow
      cases htree
      exact value_field hn (grown_of_mapM ih hats) (grown_of_child ih htype) asker
    | operation op type =>
      obtain ⟨type', htype, htree⟩ := Option.bind_eq_some_iff.1 hgrow
      cases htree
      rw [value_of_only hn rfl (grown_of_child ih htype)
        (fun k => return .property ⟨op.spelling, ← k.type, false⟩)
        fun e k hs => by rw [nodeMeaning, typeOf_of_sees hs]]
      simp only [Tree.value, bind_assoc, pure_bind]
      rfl
    | inputValue n type =>
      obtain ⟨type', htype, htree⟩ := Option.bind_eq_some_iff.1 hgrow
      cases htree
      rw [value_of_only hn rfl (grown_of_child ih htype)
        (fun k => return .property (← Child.valueProperty n [] k))
        fun e k hs => by rw [nodeMeaning, valueProperty_of_sees .nil hs]]
      simp only [Tree.value, bind_assoc, pure_bind]
      rfl
    | namedType target =>
      obtain ⟨target', htarget, htree⟩ := Option.bind_eq_some_iff.1 hgrow
      cases htree
      rw [value_of_only hn rfl (grown_of_child ih htarget) (fun k => return .type (← k.type))
        fun e k hs => by rw [nodeMeaning, typeOf_of_sees hs]]
      simp only [Tree.value, bind_assoc, pure_bind, List.flatMap_cons, List.flatMap_nil,
        List.append_nil, ownReference_type]
      rfl
    | list item =>
      obtain ⟨item', hitem, htree⟩ := Option.bind_eq_some_iff.1 hgrow
      cases htree
      rw [value_of_only hn rfl (grown_of_child ih hitem) (fun k => return .type (← k.listType))
        fun e k hs => by rw [nodeMeaning, listType_of_sees hs]]
      simp only [Tree.value, bind_assoc, pure_bind]
      rfl
    | nonNull inner =>
      obtain ⟨inner', hinner, htree⟩ := Option.bind_eq_some_iff.1 hgrow
      cases htree
      rw [value_of_only hn rfl (grown_of_child ih hinner) (fun k => return .type (← k.type))
        fun e k hs => by rw [nodeMeaning, typeOf_of_sees hs]]
      simp only [Tree.value, bind_assoc, pure_bind]
      rfl

end NodeTree

end SchemaToFlow
