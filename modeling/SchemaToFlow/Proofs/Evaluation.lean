import SchemaToFlow.Node.Meaning
import SchemaToFlow.Proofs.FirstSeen
import SchemaToFlow.Proofs.Runs

/-!
# Evaluation without a store

`walk` keeps every meaning it finds and looks the meanings of children up again, and it notes
references on a path of open nodes. `NodeTree.value` is the same evaluation without either: the value
of a node is computed from the values of its children alone.

* `value_of_get?`: a node's value from those of its children.
* `nodeMeaning_congr`: the meaning of a node depends on nothing but what is known of its children.
* `walk_eq_value`: whatever was walked before, a walk succeeds exactly when the node has a value. It
  then stores the meaning of the node and records, on every node of the path, the names referred to.
* `toProgram_eq_value`: so a tree means the program that its root is worth.

Nothing is assumed of the tree: nodes may be shared, missing, or name children that come later.
-/

namespace SchemaToFlow

open Text Schema SchemaToFlow.Flow

/-! ## Recorded references -/

theorem addNew_addNew_self {α : Type} [DecidableEq α] (as : List α) (a : α) :
    addNew (addNew as a) a = addNew as a :=
  addNew_of_mem (mem_addNew.2 (.inr rfl))

theorem lookup_cons_eq_ite {α : Type} (k j : NodeId) (a : α) (es : List (NodeId × α)) :
    ((k, a) :: es).lookup j = if j = k then some a else es.lookup j := by
  rw [List.lookup_cons]
  by_cases h : j = k
  · rw [if_pos h, beq_iff_eq.2 h]
  · rw [if_neg h, beq_eq_false_iff_ne.2 h]

namespace References

theorem lookup_addEntry (id : NodeId) (name : String) (j : NodeId) :
    ∀ entries : List (NodeId × List String),
      (addEntry id name entries).lookup j =
        if j = id then some (addNew ((entries.lookup j).getD []) name) else entries.lookup j
  | [] => by
    rw [addEntry, lookup_cons_eq_ite, List.lookup_nil]
    rfl
  | (other, names) :: entries => by
    rw [addEntry]
    by_cases ho : other = id
    · rw [if_pos ho, lookup_cons_eq_ite, lookup_cons_eq_ite]
      subst ho
      by_cases h : j = other
      · rw [if_pos h, if_pos h, if_pos h, Option.getD_some]
      · rw [if_neg h, if_neg h, if_neg h]
    · rw [if_neg ho, lookup_cons_eq_ite, lookup_cons_eq_ite, lookup_addEntry id name j entries]
      by_cases h : j = other
      · subst h
        rw [if_pos rfl, if_neg ho, if_pos rfl]
      · rw [if_neg h, if_neg h]

theorem names_add (r : References) (id : NodeId) (name : String) (j : NodeId) :
    (r.add id name).names j = if j = id then addNew (r.names j) name else r.names j := by
  unfold names get? add
  rw [lookup_addEntry]
  split
  · rfl
  · rfl

/-- A name recorded on a path is added to the nodes of the path and to no other. -/
theorem names_record (name : String) (j : NodeId) :
    ∀ (path : List NodeId) (r : References),
      (r.record path name).names j = if j ∈ path then addNew (r.names j) name else r.names j
  | [], r => by simp [record]
  | id :: path, r => by
    have ih := names_record name j path (r.add id name)
    rw [record, List.foldl_cons, ← record, ih, names_add]
    by_cases h : j = id
    · subst h
      by_cases hp : j ∈ path
      · simp [hp, addNew_addNew_self]
      · simp [hp]
    · simp [h]

end References

/-! ## Values -/

/-- What a node is worth by itself. -/
structure Valued where
  meaning : Meaning
  /-- The names referred to beneath the node, in order and with repetitions. -/
  beneath : List String
  /-- The name that the node itself refers to, if it is a reference to a named type. -/
  own : List String

/-- The names that a node refers to on behalf of the nodes above it. -/
def Valued.mentions (v : Valued) : List String := v.beneath ++ v.own

/-- The name that a node itself refers to. -/
def NodeData.ownReference : NodeData → Meaning → List String
  | .namedType _, .type (.identifier n) => [n]
  | _, _ => []

/-- What a node has to know of its children: their meanings and the names referred to beneath. -/
def Evaluation.ofChildren (kids : List (NodeId × Valued)) : Evaluation :=
  ⟨kids.map fun k => (k.1, k.2.meaning), ⟨kids.map fun k => (k.1, firstSeen k.2.beneath)⟩⟩

namespace NodeTree

/-- The value of a node, computed from the values of its children. -/
def value (t : NodeTree) (exact : Bool) (asker : Option NodeId) (id : NodeId) :
    Except Fault Valued := do
  let node ← t.node id asker
  let kids ← node.data.children.mapM fun child =>
    if _ : child < id then return (child, ← value t exact (some id) child)
    else throw (.noMeaning (t.site child (some id)))
  let m ← t.nodeMeaning exact (.ofChildren kids) id node.data
  return ⟨m, kids.flatMap fun k => k.2.mentions, node.data.ownReference m⟩
termination_by id

section Value

variable (t : NodeTree) (exact : Bool)

/-- The value of a child of a node, with its number. -/
def childValue (id child : NodeId) : Except Fault (NodeId × Valued) :=
  if child < id then return (child, ← t.value exact (some id) child)
  else throw (.noMeaning (t.site child (some id)))

/-- The value of a node whose children have the values given. -/
def valueOver (id : NodeId) (data : NodeData) (kids : List (NodeId × Valued)) :
    Except Fault Valued := do
  let m ← t.nodeMeaning exact (.ofChildren kids) id data
  return ⟨m, kids.flatMap fun k => k.2.mentions, data.ownReference m⟩

variable {t exact}

theorem value_of_get? {id : NodeId} {node : Node} (h : t.get? id = some node)
    (asker : Option NodeId) :
    t.value exact asker id =
      node.data.children.mapM (t.childValue exact id) >>= t.valueOver exact id node.data := by
  rw [value, NodeTree.node, h]
  rfl

theorem value_of_get?_none {id : NodeId} (h : t.get? id = none) (asker : Option NodeId) :
    t.value exact asker id = .error (.noMeaning (t.site id asker)) := by
  rw [value, NodeTree.node, h]
  rfl

/-- The node that asks does not matter for a node that has a value. -/
theorem value_asker {id : NodeId} {v : Valued} {asker : Option NodeId}
    (h : t.value exact asker id = .ok v) (asker' : Option NodeId) :
    t.value exact asker' id = .ok v := by
  cases hn : t.get? id with
  | none =>
    rw [value_of_get?_none hn] at h
    cases h
  | some node =>
    rw [value_of_get? hn] at h ⊢
    exact h

/-! ## What a meaning depends on -/

/-- Two evaluations that know the same of a node. -/
structure Agree (e e' : Evaluation) (j : NodeId) : Prop where
  meaning : e.meanings.lookup j = e'.meanings.lookup j
  names : e.references.names j = e'.references.names j

variable {e e' : Evaluation} {id : NodeId}

theorem meaning_congr {j : NodeId} (h : Agree e e' j) (asker : Option NodeId) :
    t.meaning e j asker = t.meaning e' j asker := by
  rw [NodeTree.meaning, NodeTree.meaning, h.meaning]

theorem typeOf_congr {j : NodeId} (h : Agree e e' j) : t.typeOf e id j = t.typeOf e' id j := by
  rw [typeOf, typeOf, meaning_congr h]

theorem propertyOf_congr {j : NodeId} (h : Agree e e' j) :
    t.propertyOf e id j = t.propertyOf e' id j := by
  rw [propertyOf, propertyOf, meaning_congr h]

theorem declarationOf_congr {j : NodeId} (h : Agree e e' j) :
    t.declarationOf e id j = t.declarationOf e' id j := by
  rw [declarationOf, declarationOf, meaning_congr h]

theorem objectType_congr {members : List NodeId} (h : ∀ j ∈ members, Agree e e' j)
    (open? : Bool) : t.objectType e id members open? = t.objectType e' id members open? := by
  rw [objectType, objectType, mapM_congr_mem fun j hj => propertyOf_congr (h j hj)]

theorem unionType_congr {members : List NodeId} (h : ∀ j ∈ members, Agree e e' j) :
    t.unionType e id members = t.unionType e' id members := by
  rw [unionType, unionType, mapM_congr_mem fun j hj => typeOf_congr (h j hj)]

theorem valueProperty_congr {name : String} {arguments : List NodeId} {type : NodeId}
    (ha : ∀ j ∈ arguments, Agree e e' j) (ht : Agree e e' type) :
    t.valueProperty e id name arguments type = t.valueProperty e' id name arguments type := by
  rw [valueProperty, valueProperty, typeOf_congr ht, objectType_congr ha]

/-- Only definitions are put in order. -/
theorem exists_mem_of_mem_emissionOrder {definitions : List (NodeId × String)} {r : References}
    {j : NodeId} (h : j ∈ emissionOrder definitions r) : ∃ n, (j, n) ∈ definitions := by
  obtain ⟨n, _, hn⟩ := List.mem_filterMap.1 h
  obtain ⟨d, hd, rfl⟩ := Option.map_eq_some_iff.1 hn
  exact ⟨d.2, List.mem_reverse.1 (List.mem_of_find?_eq_some hd)⟩

theorem emissionOrder_congr {definitions : List (NodeId × String)} {r r' : References}
    (h : ∀ d ∈ definitions, r.names d.1 = r'.names d.1) :
    emissionOrder definitions r = emissionOrder definitions r' := by
  have hm : mentions definitions r = mentions definitions r' := by
    unfold mentions
    rw [List.flatMap_def, List.flatMap_def]
    congr 1
    exact List.map_congr_left fun d hd => by rw [h d hd]
  rw [emissionOrder, emissionOrder, hm]

/-- The definitions that are put in order are those of the document. -/
theorem mem_of_mapM_definitionName {cs : List NodeId} {named : List (NodeId × String)}
    (h : cs.mapM (fun d => (do return (d, ← t.definitionName id d) : Except Fault _)) = .ok named)
    {d : NodeId × String} (hd : d ∈ named) : d.1 ∈ cs := by
  obtain ⟨j, hj, hname⟩ := exists_of_mem_of_mapM_eq_ok h hd
  obtain ⟨n, _, hpair⟩ := bind_eq_ok_iff.1 hname
  cases hpair
  exact hj

theorem documentProgram_congr {definitions : List NodeId} (h : ∀ j ∈ definitions, Agree e e' j) :
    t.documentProgram e id definitions = t.documentProgram e' id definitions := by
  rw [documentProgram, documentProgram]
  cases hn : definitions.mapM fun d => (do return (d, ← t.definitionName id d) :
      Except Fault (NodeId × String)) with
  | error f => rfl
  | ok named =>
    have hmem : ∀ d ∈ named, d.1 ∈ definitions := fun d hd => mem_of_mapM_definitionName hn hd
    have horder : emissionOrder named e.references = emissionOrder named e'.references :=
      emissionOrder_congr fun d hd => (h d.1 (hmem d hd)).names
    have hbody : (emissionOrder named e'.references).mapM (t.declarationOf e id) =
        (emissionOrder named e'.references).mapM (t.declarationOf e' id) := by
      refine mapM_congr_mem fun j hj => ?_
      obtain ⟨n, hn⟩ := exists_mem_of_mem_emissionOrder hj
      exact declarationOf_congr (h j (hmem _ hn))
    show (do return ⟨← (emissionOrder named e.references).mapM (t.declarationOf e id)⟩ :
      Except Fault Program) = _
    rw [horder, hbody]
    rfl

/-- **The meaning of a node depends only on what is known of its children.** -/
theorem nodeMeaning_congr {data : NodeData} (h : ∀ j ∈ data.children, Agree e e' j) :
    t.nodeMeaning exact e id data = t.nodeMeaning exact e' id data := by
  cases data with
  | document definitions =>
    have hm : ∀ j ∈ definitions, Agree e e' j := h
    simp only [nodeMeaning, documentProgram_congr hm]
  | schema operations =>
    have hm : ∀ j ∈ operations, Agree e e' j := h
    simp only [nodeMeaning, objectType_congr hm]
  | operation operation type =>
    simp only [nodeMeaning, typeOf_congr (h type (List.mem_singleton.2 rfl))]
  | object name interfaces fields =>
    have hf : ∀ j ∈ fields, Agree e e' j := fun j hj => h j (List.mem_append_right _ hj)
    simp only [nodeMeaning, objectDeclaration, objectType_congr hf]
  | interface name fields =>
    have hm : ∀ j ∈ fields, Agree e e' j := h
    simp only [nodeMeaning, objectType_congr hm]
  | input name fields =>
    have hm : ∀ j ∈ fields, Agree e e' j := h
    simp only [nodeMeaning, objectType_congr hm]
  | scalar name => rfl
  | enum name values =>
    have hm : ∀ j ∈ values, Agree e e' j := h
    simp only [nodeMeaning, unionType_congr hm]
  | enumValue name => rfl
  | union name types =>
    have hm : ∀ j ∈ types, Agree e e' j := h
    simp only [nodeMeaning, unionType_congr hm]
  | field name arguments type =>
    have ha : ∀ j ∈ arguments, Agree e e' j := fun j hj => h j (List.mem_append_left _ hj)
    have ht : Agree e e' type := h type (List.mem_append_right _ (List.mem_singleton.2 rfl))
    simp only [nodeMeaning, valueProperty_congr ha ht]
  | inputValue name type =>
    have ht : Agree e e' type := h type (List.mem_singleton.2 rfl)
    simp only [nodeMeaning, valueProperty_congr (fun _ hj => absurd hj List.not_mem_nil) ht]
  | namedType name => simp only [nodeMeaning, typeOf_congr (h name (List.mem_singleton.2 rfl))]
  | list item =>
    simp only [nodeMeaning, listType, typeOf_congr (h item (List.mem_singleton.2 rfl))]
  | nonNull inner => simp only [nodeMeaning, typeOf_congr (h inner (List.mem_singleton.2 rfl))]
  | name value => rfl

end Value

end NodeTree

/-! ## One step of a walk -/

namespace Evaluation

@[simp] theorem lookup_store (e : Evaluation) (id : NodeId) (m : Meaning) (j : NodeId) :
    (e.store id m).meanings.lookup j = if j = id then some m else e.meanings.lookup j :=
  lookup_cons_eq_ite id j m e.meanings

@[simp] theorem names_store (e : Evaluation) (id : NodeId) (m : Meaning) (j : NodeId) :
    (e.store id m).references.names j = e.references.names j := rfl

@[simp] theorem meanings_refer (e : Evaluation) (above : List NodeId) (data : NodeData)
    (m : Meaning) : (e.refer above data m).meanings = e.meanings := by
  unfold refer
  split
  · rfl
  · rfl

@[simp] theorem names_refer (e : Evaluation) (above : List NodeId) (data : NodeData) (m : Meaning)
    (j : NodeId) : (e.refer above data m).references.names j =
      if j ∈ above then (data.ownReference m).foldl addNew (e.references.names j)
      else e.references.names j := by
  unfold refer
  split
  · exact References.names_record _ j above e.references
  · rename_i hne
    have hown : data.ownReference m = [] := by
      unfold NodeData.ownReference
      split
      · exact (hne _ _ rfl rfl).elim
      · rfl
    rw [hown, List.foldl_nil, ite_self]

end Evaluation

namespace NodeTree

section Walk

variable (t : NodeTree) (exact : Bool)

/-- Visits a child of a node on a walk. -/
def visit (above : List NodeId) (id : Nat) (e : Evaluation) (child : Nat) :
    Except Fault Evaluation :=
  if child < id then t.walk exact (id :: above) child e
  else throw (.noMeaning (t.site child (some id)))

/-- Notes what a node means, after its children are visited. -/
def finish (above : List NodeId) (id : Nat) (data : NodeData) (e : Evaluation) :
    Except Fault Evaluation := do
  let m ← t.nodeMeaning exact e id data
  return (e.refer above data m).store id m

/-- What is known of a node that has been walked. -/
structure Done (e : Evaluation) (j : Nat) (v : Valued) : Prop where
  value : t.value exact none j = .ok v
  meaning : e.meanings.lookup j = some v.meaning
  names : e.references.names j = firstSeen v.beneath

/-- A node that is not on the path of a walk has been walked or has not been touched. -/
def Settled (e : Evaluation) (j : Nat) : Prop :=
  (e.meanings.lookup j = none ∧ e.references.names j = []) ∨ ∃ v, t.Done exact e j v

/-- What walking nodes below `bound` does: the names found are recorded on the nodes of the path
`above`, and nothing else changes from `bound` on; below, what has been walked stays as it is. -/
structure Effect (above : List NodeId) (bound : Nat) (found : List String)
    (e e' : Evaluation) : Prop where
  meaning : ∀ j : Nat, bound ≤ j → e'.meanings.lookup j = e.meanings.lookup j
  names : ∀ j : Nat, bound ≤ j → e'.references.names j =
    if j ∈ above then found.foldl addNew (e.references.names j) else e.references.names j
  kept : ∀ j < bound, ∀ v, t.Done exact e j v → t.Done exact e' j v
  settled : ∀ j < bound, t.Settled exact e' j

variable {t exact} {above : List NodeId} {id bound : Nat} {e e₁ e₂ : Evaluation}

theorem walk_of_get? {node : Node} (h : t.get? id = some node) (e : Evaluation) :
    t.walk exact above id e =
      node.data.children.foldlM (t.visit exact above id) e >>= t.finish exact above id node.data := by
  rw [walk, NodeTree.node, h]
  rfl

theorem walk_of_get?_none (h : t.get? id = none) (e : Evaluation) :
    t.walk exact above id e = .error (.noMeaning (t.site id above.head?)) := by
  rw [walk, NodeTree.node, h]
  rfl

theorem Done.agree {j : Nat} {v : Valued} (h : t.Done exact e j v) (h₁ : t.Done exact e₁ j v) :
    Agree e e₁ j :=
  ⟨h.meaning.trans h₁.meaning.symm, h.names.trans h₁.names.symm⟩

/-- A node that keeps its meaning and its names stays done. -/
theorem Done.of_eq {j : Nat} {v : Valued} (h : t.Done exact e j v)
    (hm : e₁.meanings.lookup j = e.meanings.lookup j)
    (hn : e₁.references.names j = e.references.names j) : t.Done exact e₁ j v :=
  ⟨h.value, hm.trans h.meaning, hn.trans h.names⟩

theorem Settled.of_eq {j : Nat} (h : t.Settled exact e j)
    (hm : e₁.meanings.lookup j = e.meanings.lookup j)
    (hn : e₁.references.names j = e.references.names j) : t.Settled exact e₁ j := by
  rcases h with ⟨hm', hn'⟩ | ⟨v, hv⟩
  · exact .inl ⟨hm.trans hm', hn.trans hn'⟩
  · exact .inr ⟨v, hv.of_eq hm hn⟩

theorem Effect.refl (h : ∀ j < bound, t.Settled exact e j) : t.Effect exact above bound [] e e :=
  ⟨fun _ _ => rfl, fun _ _ => by simp, fun _ _ _ hv => hv, h⟩

theorem Effect.trans {found found₁ : List String} (h : t.Effect exact above bound found e e₁)
    (h₁ : t.Effect exact above bound found₁ e₁ e₂) :
    t.Effect exact above bound (found ++ found₁) e e₂ where
  meaning j hj := (h₁.meaning j hj).trans (h.meaning j hj)
  names j hj := by
    rw [h₁.names j hj, h.names j hj, List.foldl_append]
    split
    · rfl
    · rfl
  kept j hj v hv := h₁.kept j hj v (h.kept j hj v hv)
  settled := h₁.settled

/-- The walk of a child, seen from its parent: what lies between the two is not on the path. -/
theorem Effect.widen {found : List String} {c : Nat} (hc : c < id)
    (hab : ∀ a ∈ above, id ≤ a) (hs : ∀ j < id, t.Settled exact e j)
    (h : t.Effect exact above (c + 1) found e e₁) : t.Effect exact above id found e e₁ where
  meaning j hj := h.meaning j (by omega)
  names j hj := h.names j (by omega)
  kept j hj v hv := by
    by_cases hjc : j < c + 1
    · exact h.kept j hjc v hv
    · have hna : j ∉ above := fun ha => absurd (hab j ha) (by omega)
      refine hv.of_eq (h.meaning j (by omega)) ?_
      rw [h.names j (by omega), if_neg hna]
  settled j hj := by
    by_cases hjc : j < c + 1
    · exact h.settled j hjc
    · have hna : j ∉ above := fun ha => absurd (hab j ha) (by omega)
      refine (hs j hj).of_eq (h.meaning j (by omega)) ?_
      rw [h.names j (by omega), if_neg hna]

/-! ## A whole walk -/

/-- A walk of a node goes as the node's value says, whatever has been walked before. -/
def WalksAs (t : NodeTree) (exact : Bool) (id : Nat) : Prop :=
  ∀ (above : List NodeId) (e : Evaluation), (∀ a ∈ above, id < a) →
    (∀ j < id + 1, t.Settled exact e j) →
    (∀ f, t.value exact above.head? id = .error f → t.walk exact above id e = .error f) ∧
    ∀ v, t.value exact above.head? id = .ok v →
      ∃ e', t.walk exact above id e = .ok e' ∧ t.Done exact e' id v ∧
        t.Effect exact above (id + 1) v.mentions e e'

/-- What is gathered from children that have values tells their meanings and references. -/
theorem done_ofChildren :
    ∀ {kids : List (NodeId × Valued)}, (∀ k ∈ kids, t.value exact none k.1 = .ok k.2) →
      ∀ k ∈ kids, t.Done exact (.ofChildren kids) k.1 k.2
  | [], _, _, hk => absurd hk List.not_mem_nil
  | k₀ :: kids, h, k, hk => by
    by_cases hid : k.1 = k₀.1
    · -- a child that is listed twice has one value
      have hv : k.2 = k₀.2 := by
        have h₀ := h k₀ List.mem_cons_self
        rw [← hid, h k hk] at h₀
        exact Except.ok.inj h₀
      rw [hid, hv]
      refine ⟨h k₀ List.mem_cons_self, List.lookup_cons_self, ?_⟩
      exact congrArg (Option.getD · []) List.lookup_cons_self
    · have hk' : k ∈ kids := (List.mem_cons.1 hk).resolve_left fun e => hid (e ▸ rfl)
      have ih := done_ofChildren (fun k' hk' => h k' (List.mem_cons_of_mem k₀ hk')) k hk'
      refine ih.of_eq ?_ ?_
      · exact (lookup_cons_eq_ite k₀.1 k.1 _ _).trans (if_neg hid)
      · exact congrArg (Option.getD · []) ((lookup_cons_eq_ite k₀.1 k.1 _ _).trans (if_neg hid))

theorem walk_child {c : Nat} (ih : ∀ c < id, WalksAs t exact c) (hab : ∀ a ∈ above, id < a)
    (hs : ∀ j < id, t.Settled exact e j) :
    (∀ f, t.childValue exact id c = .error f → t.visit exact above id e c = .error f) ∧
    ∀ k, t.childValue exact id c = .ok k → ∃ e', t.visit exact above id e c = .ok e' ∧
      t.Done exact e' k.1 k.2 ∧ k.1 < id ∧
      t.Effect exact (id :: above) id k.2.mentions e e' := by
  unfold childValue visit
  by_cases hc : c < id
  · have hpath : ∀ a ∈ id :: above, c < a := by
      intro a ha
      rcases List.mem_cons.1 ha with rfl | ha
      · exact hc
      · exact Nat.lt_trans hc (hab a ha)
    have hpath' : ∀ a ∈ id :: above, id ≤ a := by
      intro a ha
      rcases List.mem_cons.1 ha with rfl | ha
      · exact Nat.le_refl _
      · exact Nat.le_of_lt (hab a ha)
    obtain ⟨herr, hok⟩ := ih c hc (id :: above) e hpath fun j hj => hs j (by omega)
    rw [if_pos hc, if_pos hc]
    constructor
    · intro f hf
      cases hv : t.value exact (some id) c with
      | error f' =>
        rw [hv] at hf
        cases hf
        exact herr f hv
      | ok v =>
        rw [hv] at hf
        cases hf
    · intro k hk
      cases hv : t.value exact (some id) c with
      | error f' =>
        rw [hv] at hk
        cases hk
      | ok v =>
        rw [hv] at hk
        cases hk
        obtain ⟨e', he', hd, heff⟩ := hok v hv
        exact ⟨e', he', hd, hc, heff.widen hc hpath' hs⟩
  · rw [if_neg hc, if_neg hc]
    constructor
    · intro f hf
      cases hf
      rfl
    · intro k hk
      cases hk

theorem walk_children (ih : ∀ c < id, WalksAs t exact c) (hab : ∀ a ∈ above, id < a) :
    ∀ (cs : List NodeId) (e : Evaluation), (∀ j < id, t.Settled exact e j) →
      (∀ f, cs.mapM (t.childValue exact id) = .error f →
        cs.foldlM (t.visit exact above id) e = .error f) ∧
      ∀ kids, cs.mapM (t.childValue exact id) = .ok kids →
        ∃ e', cs.foldlM (t.visit exact above id) e = .ok e' ∧
          (∀ k ∈ kids, t.Done exact e' k.1 k.2) ∧
          t.Effect exact (id :: above) id (kids.flatMap fun k => k.2.mentions) e e'
  | [], e, hs => by
    constructor
    · intro f hf
      cases hf
    · intro kids hk
      cases hk
      exact ⟨e, rfl, fun _ hk => absurd hk List.not_mem_nil, Effect.refl hs⟩
  | c :: cs, e, hs => by
    obtain ⟨herr, hok⟩ := walk_child (c := c) ih hab hs
    rw [List.mapM_cons, List.foldlM_cons]
    cases hc : t.childValue exact id c with
    | error f =>
      rw [herr f hc]
      constructor
      · intro f' hf
        cases hf
        rfl
      · intro kids hk
        cases hk
    | ok k =>
      obtain ⟨e₁, he₁, hd, hlt, heff⟩ := hok k hc
      obtain ⟨herrs, hoks⟩ := walk_children ih hab cs e₁ heff.settled
      rw [he₁]
      cases hcs : cs.mapM (t.childValue exact id) with
      | error f =>
        constructor
        · intro f' hf
          cases hf
          exact herrs f hcs
        · intro kids hk
          cases hk
      | ok kids =>
        obtain ⟨e₂, he₂, hds, heffs⟩ := hoks kids hcs
        constructor
        · intro f hf
          cases hf
        · intro kids' hk
          cases hk
          refine ⟨e₂, he₂, fun k' hk' => ?_, heff.trans heffs⟩
          rcases List.mem_cons.1 hk' with rfl | hk'
          · exact heffs.kept _ hlt _ hd
          · exact hds k' hk'

theorem map_fst_of_mapM_childValue {cs : List NodeId} {kids : List (NodeId × Valued)}
    (h : cs.mapM (t.childValue exact id) = .ok kids) : kids.map Prod.fst = cs := by
  have h₂ := mapM_eq_ok_iff.1 h
  clear h
  induction h₂ with
  | nil => rfl
  | @cons c k _ _ hck _ ih =>
    rw [List.map_cons, ih]
    congr 1
    unfold childValue at hck
    split at hck
    · obtain ⟨v, _, hpair⟩ := bind_eq_ok_iff.1 hck
      cases hpair
      rfl
    · cases hck

/-- What a node adds when its children are walked: its meaning, its own reference for the nodes
above, and nothing else. -/
theorem finish_effect {data : NodeData} {m : Meaning} {v : Valued} {beneath : List String}
    (hv : t.value exact none id = .ok v) (hve : v = ⟨m, beneath, data.ownReference m⟩)
    (hab : ∀ a ∈ above, id < a) (hs : t.Settled exact e id)
    (h : t.Effect exact (id :: above) id beneath e e₁) :
    t.Done exact ((e₁.refer above data m).store id m) id v ∧
      t.Effect exact above (id + 1) v.mentions e ((e₁.refer above data m).store id m) := by
  have hid : id ∉ above := fun ha => absurd (hab id ha) (Nat.lt_irrefl id)
  have hbelow : ∀ j < id, j ∉ above := fun j hj ha => absurd (hab j ha) (by omega)
  have hnames : e₁.references.names id = firstSeen v.beneath := by
    rw [h.names id (Nat.le_refl id), if_pos List.mem_cons_self, hve]
    rcases hs with ⟨_, hn⟩ | ⟨w, hw⟩
    · rw [hn]
      rfl
    · have hwv : w = v := Except.ok.inj (hw.value.symm.trans hv)
      rw [hw.names, hwv, hve]
      exact foldl_addNew_of_subset fun b hb => mem_firstSeen.2 hb
  have hdone : t.Done exact ((e₁.refer above data m).store id m) id v := by
    refine ⟨hv, ?_, ?_⟩
    · rw [Evaluation.lookup_store, if_pos rfl, hve]
    · rw [Evaluation.names_store, Evaluation.names_refer, if_neg hid, hnames]
  have hlookup : ∀ j, j ≠ id →
      ((e₁.refer above data m).store id m).meanings.lookup j = e₁.meanings.lookup j := by
    intro j hj
    rw [Evaluation.lookup_store, if_neg hj, Evaluation.meanings_refer]
  have hbelow_names : ∀ j < id,
      ((e₁.refer above data m).store id m).references.names j = e₁.references.names j := by
    intro j hj
    rw [Evaluation.names_store, Evaluation.names_refer, if_neg (hbelow j hj)]
  refine ⟨hdone, fun j hj => ?_, fun j hj => ?_, fun j hj w hw => ?_, fun j hj => ?_⟩
  · rw [hlookup j (by omega), h.meaning j (by omega)]
  · have hj' : j ∈ id :: above ↔ j ∈ above := by
      rw [List.mem_cons]
      exact or_iff_right (by omega)
    rw [Evaluation.names_store, Evaluation.names_refer, h.names j (by omega), hve]
    simp only [hj', Valued.mentions, List.foldl_append]
    split
    · rfl
    · rfl
  · by_cases hji : j = id
    · subst hji
      rw [Except.ok.inj (hw.value.symm.trans hv)]
      exact hdone
    · exact (h.kept j (by omega) w hw).of_eq (hlookup j hji) (hbelow_names j (by omega))
  · by_cases hji : j = id
    · subst hji
      exact .inr ⟨v, hdone⟩
    · exact (h.settled j (by omega)).of_eq (hlookup j hji) (hbelow_names j (by omega))

/-- **A walk computes the value of its node.** By induction on the number of the node: children have
smaller ones. -/
theorem walk_eq_value (t : NodeTree) (exact : Bool) (id : Nat) : WalksAs t exact id := by
  induction id using Nat.strongRecOn with
  | ind id ih =>
    intro above e hab hs
    cases hn : t.get? id with
    | none =>
      rw [value_of_get?_none hn, walk_of_get?_none hn]
      exact ⟨fun f hf => by cases hf; rfl, fun v hv => by cases hv⟩
    | some node =>
      obtain ⟨herr, hok⟩ :=
        walk_children ih hab node.data.children e fun j hj => hs j (by omega)
      rw [walk_of_get? hn]
      cases hk : node.data.children.mapM (t.childValue exact id) with
      | error f =>
        rw [value_of_get? hn, hk, herr f hk]
        exact ⟨fun f' hf => by cases hf; rfl, fun v hv => by cases hv⟩
      | ok kids =>
        obtain ⟨e₁, he₁, hd, heff⟩ := hok kids hk
        have hmeaning : t.nodeMeaning exact (.ofChildren kids) id node.data =
            t.nodeMeaning exact e₁ id node.data := by
          refine nodeMeaning_congr fun j hj => ?_
          rw [← map_fst_of_mapM_childValue hk] at hj
          obtain ⟨k, hk, rfl⟩ := List.mem_map.1 hj
          exact (done_ofChildren (fun k hk => (hd k hk).value) k hk).agree (hd k hk)
        have hvalue : ∀ asker, t.value exact asker id = t.valueOver exact id node.data kids :=
          fun asker => by rw [value_of_get? hn, hk]; rfl
        rw [hvalue, he₁]
        show (∀ f, t.valueOver exact id node.data kids = .error f →
            t.finish exact above id node.data e₁ = .error f) ∧
          ∀ v, t.valueOver exact id node.data kids = .ok v →
            ∃ e', t.finish exact above id node.data e₁ = .ok e' ∧ t.Done exact e' id v ∧
              t.Effect exact above (id + 1) v.mentions e e'
        cases hm : t.nodeMeaning exact e₁ id node.data with
        | error f =>
          have hv : t.valueOver exact id node.data kids = .error f := by
            rw [valueOver, hmeaning, hm]; rfl
          have hf : t.finish exact above id node.data e₁ = .error f := by
            rw [finish, hm]; rfl
          rw [hv, hf]
          exact ⟨fun f' h => by cases h; rfl, fun v h => by cases h⟩
        | ok m =>
          have hv : t.valueOver exact id node.data kids =
              .ok ⟨m, kids.flatMap fun k => k.2.mentions, node.data.ownReference m⟩ := by
            rw [valueOver, hmeaning, hm]; rfl
          have hf : t.finish exact above id node.data e₁ =
              .ok ((e₁.refer above node.data m).store id m) := by
            rw [finish, hm]; rfl
          constructor
          · intro f h
            rw [hv] at h
            cases h
          · intro v h
            have hve := Except.ok.inj (h.symm.trans hv)
            exact ⟨_, hf, finish_effect ((hvalue none).trans h) hve hab
              (hs id (Nat.lt_succ_self id)) heff⟩

theorem settled_empty (j : Nat) : t.Settled exact {} j := .inl ⟨rfl, rfl⟩

/-- **A tree means what its root is worth**: a program, or the first fault found. -/
theorem toProgram_eq_value (t : NodeTree) (root : NodeId) (exact : Bool) :
    t.toProgram root exact =
      match t.value exact none root with
      | .error f => .error f
      | .ok v =>
        match v.meaning with
        | .program program => .ok program
        | other => .error (t.misfit root "program" other.shape) := by
  obtain ⟨herr, hok⟩ := walk_eq_value t exact root [] {} (fun a ha => absurd ha List.not_mem_nil)
    fun j _ => settled_empty j
  rw [toProgram]
  cases hv : t.value exact none root with
  | error f =>
    rw [herr f hv]
    rfl
  | ok v =>
    obtain ⟨e, he, hd, _⟩ := hok v hv
    rw [he]
    show (do match ← t.meaning e root none with
      | .program program => return program
      | other => throw (t.misfit root "program" other.shape) : Except Fault Program) = _
    rw [NodeTree.meaning, hd.meaning]
    obtain ⟨m, _, _⟩ := v
    cases m <;> rfl

end Walk

end NodeTree

end SchemaToFlow
