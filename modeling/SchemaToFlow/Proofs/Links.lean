import SchemaToFlow.Proofs.Sharing

/-!
# Links that lead nowhere

A node may list a number that no node has, or one that is not smaller than its own. A walk that comes
to such a link ends there with a fault, and without such links nothing that is looked up is missing.

* `noMiss_nodeMeaning`: a node looks up its children and what those list, and nothing else.
* `atHand_of_visits`: on a walk over links that lead down, all of that is there.
* `sound_of_value`: only nodes whose links lead down have a value.
* `toProgram_misses_only_at_bad_links`: so no lookup fails unless there is a bad link, and with a bad
  link there is no program.
-/

namespace SchemaToFlow

open Text Schema SchemaToFlow.Flow

/-! ## Lookups that succeed -/

/-- A computation does not fail for want of a node or of a meaning. -/
def NoMiss {α : Type} (x : Except Fault α) : Prop := ∀ site, x ≠ .error (.noMeaning site)

namespace NoMiss

variable {α β : Type}

theorem ok (a : α) : NoMiss (.ok a : Except Fault α) := nofun

theorem mismatch (site : Site) (expected found : String) :
    NoMiss (.error (.mismatch site expected found) : Except Fault α) := nofun

theorem noName (site : Site) : NoMiss (.error (.noName site) : Except Fault α) := nofun

theorem error {fault : Fault} (h : NoMiss (.error fault : Except Fault α)) :
    NoMiss (.error fault : Except Fault β) :=
  fun site hf => h site (congrArg Except.error (Except.error.inj hf))

theorem bind {x : Except Fault α} {f : α → Except Fault β} (hx : NoMiss x)
    (hf : ∀ a, x = .ok a → NoMiss (f a)) : NoMiss (x >>= f) := by
  cases x with
  | error fault => exact hx.error
  | ok a => exact hf a rfl

theorem mapM {f : α → Except Fault β} :
    ∀ {as : List α}, (∀ a ∈ as, NoMiss (f a)) → NoMiss (as.mapM f)
  | [], _ => ok []
  | a :: as, h => by
    rw [List.mapM_cons]
    refine bind (h a List.mem_cons_self) fun b _ => ?_
    exact bind (mapM fun x hx => h x (List.mem_cons_of_mem a hx)) fun bs _ => ok (b :: bs)

end NoMiss

namespace NodeTree

variable {t : NodeTree} {exact : Bool} {e : Evaluation} {id c : NodeId}

/-- What a node may look up of a child is there: its meaning, the child and what the child lists. -/
structure AtHand (t : NodeTree) (e : Evaluation) (c : NodeId) : Prop where
  meaning : ∃ m, e.meanings.lookup c = some m
  node : ∃ child, t.get? c = some child ∧
    ∀ j ∈ child.data.children, ∃ grandchild, t.get? j = some grandchild

section AtHand

variable {cs : List NodeId}

theorem AtHand.node_eq_ok (h : t.AtHand e c) (asker : Option NodeId) :
    ∃ child, t.node c asker = .ok child := by
  obtain ⟨child, hchild, _⟩ := h.node
  exact ⟨child, by rw [NodeTree.node, hchild]⟩

theorem AtHand.meaning_eq_ok (h : t.AtHand e c) (asker : Option NodeId) :
    ∃ m, t.meaning e c asker = .ok m := by
  obtain ⟨m, hm⟩ := h.meaning
  exact ⟨m, by rw [NodeTree.meaning, hm]⟩

theorem noMiss_typeOf (h : t.AtHand e c) : NoMiss (t.typeOf e id c) := by
  obtain ⟨m, hm⟩ := h.meaning_eq_ok (some id)
  rw [typeOf, hm]
  cases m with
  | type type => exact NoMiss.ok type
  | _ => exact NoMiss.mismatch _ _ _

theorem noMiss_propertyOf (h : t.AtHand e c) : NoMiss (t.propertyOf e id c) := by
  obtain ⟨m, hm⟩ := h.meaning_eq_ok (some id)
  rw [propertyOf, hm]
  cases m with
  | property property => exact NoMiss.ok property
  | _ => exact NoMiss.mismatch _ _ _

theorem noMiss_declarationOf (h : t.AtHand e c) : NoMiss (t.declarationOf e id c) := by
  obtain ⟨m, hm⟩ := h.meaning_eq_ok (some id)
  rw [declarationOf, hm]
  cases m with
  | declaration declaration => exact NoMiss.ok declaration
  | _ => exact NoMiss.mismatch _ _ _

theorem noMiss_isNonNull (h : t.AtHand e c) : NoMiss (t.isNonNull id c) := by
  obtain ⟨child, hchild⟩ := h.node_eq_ok (some id)
  rw [isNonNull, hchild]
  exact NoMiss.ok _

/-- The name of an interface is looked up in what a child lists. -/
theorem noMiss_interfaceName (h : t.AtHand e c) : NoMiss (t.interfaceName id c) := by
  obtain ⟨⟨data, span⟩, hchild, hlisted⟩ := h.node
  rw [interfaceName, NodeTree.node, hchild]
  cases data with
  | namedType n =>
    obtain ⟨⟨data, span⟩, hname⟩ := hlisted n (List.mem_singleton.2 rfl)
    show NoMiss (t.node n (some c) >>= _)
    rw [NodeTree.node, hname]
    cases data with
    | name value => exact NoMiss.ok value
    | _ => exact NoMiss.mismatch _ _ _
  | _ => exact NoMiss.mismatch _ _ _

theorem noMiss_definitionName (h : t.AtHand e c) : NoMiss (t.definitionName id c) := by
  obtain ⟨child, hchild⟩ := h.node_eq_ok (some id)
  rw [definitionName, hchild]
  show NoMiss (if child.data.kind = .schema then _ else _)
  split
  · exact NoMiss.ok "schema"
  · cases child.data.name? with
    | none => exact NoMiss.noName _
    | some n =>
      show NoMiss (if n = "" then _ else _)
      split
      · exact NoMiss.noName _
      · exact NoMiss.ok n

theorem noMiss_objectType (h : ∀ c ∈ cs, t.AtHand e c) (sealed : Bool) :
    NoMiss (t.objectType e id cs sealed) :=
  NoMiss.bind (NoMiss.mapM fun c hc => noMiss_propertyOf (h c hc)) fun _ _ => NoMiss.ok _

theorem noMiss_unionType (h : ∀ c ∈ cs, t.AtHand e c) : NoMiss (t.unionType e id cs) :=
  NoMiss.bind (NoMiss.mapM fun c hc => noMiss_typeOf (h c hc)) fun _ _ => NoMiss.ok _

theorem noMiss_listType (h : t.AtHand e c) : NoMiss (t.listType e id c) := by
  refine NoMiss.bind (noMiss_isNonNull h) fun nonNull _ =>
    NoMiss.bind (noMiss_typeOf h) fun type _ => ?_
  split
  · exact NoMiss.ok _
  · exact NoMiss.ok _

theorem noMiss_valueProperty (h : ∀ c ∈ cs, t.AtHand e c) (hc : t.AtHand e c) (n : String) :
    NoMiss (t.valueProperty e id n cs c) := by
  refine NoMiss.bind (noMiss_isNonNull hc) fun nonNull _ =>
    NoMiss.bind (noMiss_typeOf hc) fun plain _ => ?_
  show NoMiss (if cs.isEmpty then _ else _)
  by_cases hcs : cs.isEmpty = true
  · rw [if_pos hcs]
    exact NoMiss.ok _
  · rw [if_neg hcs]
    exact NoMiss.bind (noMiss_objectType h false) fun _ _ => NoMiss.ok _

theorem noMiss_objectDeclaration {is fs : List NodeId} (hi : ∀ c ∈ is, t.AtHand e c)
    (hf : ∀ c ∈ fs, t.AtHand e c) (n : String) :
    NoMiss (t.objectDeclaration exact e id n is fs) := by
  unfold objectDeclaration
  split
  · exact NoMiss.bind (noMiss_objectType hf exact) fun _ _ => NoMiss.ok _
  · refine NoMiss.bind (NoMiss.mapM fun c hc => noMiss_interfaceName (hi c hc)) fun _ _ => ?_
    exact NoMiss.bind (noMiss_objectType hf false) fun _ _ => NoMiss.ok _

theorem noMiss_documentProgram (h : ∀ c ∈ cs, t.AtHand e c) :
    NoMiss (t.documentProgram e id cs) := by
  refine NoMiss.bind (NoMiss.mapM fun c hc => ?_) fun named hnamed => ?_
  · exact NoMiss.bind (noMiss_definitionName (h c hc)) fun n _ => NoMiss.ok (c, n)
  · refine NoMiss.bind (NoMiss.mapM fun j hj => ?_) fun _ _ => NoMiss.ok _
    obtain ⟨n, hn⟩ := exists_mem_of_mem_emissionOrder hj
    exact noMiss_declarationOf (h j (mem_of_mapM_definitionName hnamed hn))

/-- **What a node looks up lies among its children and what those list.** If all of that is there,
no lookup misses. -/
theorem noMiss_nodeMeaning {data : NodeData} (h : ∀ c ∈ data.children, t.AtHand e c) :
    NoMiss (t.nodeMeaning exact e id data) := by
  cases data with
  | name n | scalar n | enumValue n => exact NoMiss.ok _
  | namedType c | nonNull c =>
    exact NoMiss.bind (noMiss_typeOf (h c (List.mem_singleton.2 rfl))) fun _ _ => NoMiss.ok _
  | operation op c =>
    exact NoMiss.bind (noMiss_typeOf (h c (List.mem_singleton.2 rfl))) fun _ _ => NoMiss.ok _
  | list c =>
    exact NoMiss.bind (noMiss_listType (h c (List.mem_singleton.2 rfl))) fun _ _ => NoMiss.ok _
  | inputValue n c =>
    exact NoMiss.bind (noMiss_valueProperty (fun _ hj => absurd hj List.not_mem_nil)
      (h c (List.mem_singleton.2 rfl)) n) fun _ _ => NoMiss.ok _
  | field n as c =>
    exact NoMiss.bind (noMiss_valueProperty (fun j hj => h j (List.mem_append_left _ hj))
      (h c (List.mem_append_right _ (List.mem_singleton.2 rfl))) n) fun _ _ => NoMiss.ok _
  | enum n cs | union n cs => exact NoMiss.bind (noMiss_unionType h) fun _ _ => NoMiss.ok _
  | object n is fs =>
    exact NoMiss.bind (noMiss_objectDeclaration (fun j hj => h j (List.mem_append_left _ hj))
      (fun j hj => h j (List.mem_append_right _ hj)) n) fun _ _ => NoMiss.ok _
  | interface n cs => exact NoMiss.bind (noMiss_objectType h false) fun _ _ => NoMiss.ok _
  | input n cs => exact NoMiss.bind (noMiss_objectType h exact) fun _ _ => NoMiss.ok _
  | schema cs => exact NoMiss.bind (noMiss_objectType h exact) fun _ _ => NoMiss.ok _
  | document cs => exact NoMiss.bind (noMiss_documentProgram h) fun _ _ => NoMiss.ok _

end AtHand

/-! ## Values and links -/

theorem childValue_eq_ok_iff {k : NodeId × Valued} :
    t.childValue exact id c = .ok k ↔ c < id ∧ k.1 = c ∧ t.value exact none c = .ok k.2 := by
  obtain ⟨j, v⟩ := k
  unfold childValue
  by_cases hc : c < id
  · rw [if_pos hc]
    cases hv : t.value exact (some id) c with
    | error f =>
      refine ⟨nofun, fun h => ?_⟩
      rw [value_asker h.2.2 (some id)] at hv
      cases hv
    | ok w =>
      rw [value_asker hv none]
      constructor
      · intro h
        cases h
        exact ⟨hc, rfl, rfl⟩
      · rintro ⟨_, rfl, hw⟩
        cases hw
        rfl
  · rw [if_neg hc]
    exact ⟨nofun, fun h => absurd h.1 hc⟩

/-- Everything that a value is made from. -/
theorem exists_of_value_eq_ok {asker : Option NodeId} {v : Valued}
    (h : t.value exact asker id = .ok v) :
    ∃ (node : Node) (kids : List (NodeId × Valued)) (m : Meaning), t.get? id = some node ∧
      List.Forall₂ (fun c k => c < id ∧ k.1 = c ∧ t.value exact none c = .ok k.2)
        node.data.children kids ∧
      t.nodeMeaning exact (.ofChildren kids) id node.data = .ok m ∧
      v = ⟨m, kids.flatMap fun k => k.2.mentions, node.data.ownReference m⟩ := by
  cases hn : t.get? id with
  | none =>
    rw [value_of_get?_none hn] at h
    cases h
  | some node =>
    rw [value_of_get? hn] at h
    obtain ⟨kids, hkids, hmeaning⟩ := bind_eq_ok_iff.1 h
    obtain ⟨m, hm, hv⟩ := bind_eq_ok_iff.1 hmeaning
    refine ⟨node, kids, m, rfl, ?_, hm, (Except.ok.inj hv).symm⟩
    exact (mapM_eq_ok_iff.1 hkids).imp fun _ _ hck => childValue_eq_ok_iff.1 hck

/-- What a node with a value lists has a smaller number and a value. -/
theorem exists_value_of_lists {asker : Option NodeId} {v : Valued}
    (h : t.value exact asker id = .ok v) (hc : t.Lists id c) :
    c < id ∧ ∃ w, t.value exact none c = .ok w ∧ ∀ n ∈ w.mentions, n ∈ v.beneath := by
  obtain ⟨node, kids, m, hn, hkids, _, rfl⟩ := exists_of_value_eq_ok h
  obtain ⟨node', hn', hmem⟩ := hc
  obtain rfl := Option.some.inj (hn.symm.trans hn')
  obtain ⟨k, hk, hlt, _, hvalue⟩ := exists_right_of_forall₂ hkids hmem
  exact ⟨hlt, k.2, hvalue, fun n hn => List.mem_flatMap.2 ⟨k, hk, hn⟩⟩

/-- **Only a node whose links lead down has a value.** -/
theorem sound_of_value {asker : Option NodeId} {v : Valued}
    (h : t.value exact asker id = .ok v) : t.Sound id := by
  have hreached : ∀ i, t.Reaches id i → ∃ w, t.value exact none i = .ok w := by
    intro i hi
    induction hi with
    | refl => exact ⟨v, value_asker h none⟩
    | tail _ hstep ih =>
      obtain ⟨w, hw⟩ := ih
      obtain ⟨_, w', hw', _⟩ := exists_value_of_lists hw hstep
      exact ⟨w', hw'⟩
  intro i hi
  obtain ⟨w, hw⟩ := hreached i hi
  obtain ⟨node, _, _, hn, _⟩ := exists_of_value_eq_ok hw
  exact ⟨node, hn, fun j hj => (exists_value_of_lists hw ⟨node, hn, hj⟩).1⟩

theorem Sound.exists_get? (h : t.Sound id) {j : NodeId} (hj : t.Reaches id j) :
    ∃ node, t.get? j = some node := by
  obtain ⟨node, hn, _⟩ := h j hj
  exact ⟨node, hn⟩

/-- Where links lead down, a child with a meaning is at hand. -/
theorem Sound.atHand (h : t.Sound id) (hc : t.Lists id c)
    (hm : ∃ m, e.meanings.lookup c = some m) : t.AtHand e c := by
  obtain ⟨child, hchild⟩ := h.exists_get? (.single hc)
  exact ⟨hm, child, hchild, fun j hj =>
    h.exists_get? (.tail (.single hc) ⟨child, hchild, hj⟩)⟩

/-- Where links lead down, no lookup misses. By induction on the number of the node. -/
theorem noMiss_value (h : t.Sound id) (asker : Option NodeId) :
    NoMiss (t.value exact asker id) := by
  induction id using Nat.strongRecOn generalizing asker with
  | ind id ih =>
    obtain ⟨node, hn, hlt⟩ := h id .refl
    rw [value_of_get? hn]
    refine NoMiss.bind (NoMiss.mapM fun c hc => ?_) fun kids hkids => ?_
    · rw [childValue, if_pos (hlt c hc)]
      exact NoMiss.bind (ih c (hlt c hc) (h.of_reaches (reaches_child hn hc)) (some id))
        fun v _ => NoMiss.ok (c, v)
    · refine NoMiss.bind (noMiss_nodeMeaning fun c hc => ?_) fun m _ => NoMiss.ok _
      refine h.atHand ⟨node, hn, hc⟩ ?_
      have hvalues : ∀ k ∈ kids, t.value exact none k.1 = .ok k.2 := by
        intro k hk
        obtain ⟨j, _, hj⟩ := exists_of_mem_of_mapM_eq_ok hkids hk
        obtain ⟨_, rfl, hvalue⟩ := childValue_eq_ok_iff.1 hj
        exact hvalue
      rw [← map_fst_of_mapM_childValue hkids] at hc
      obtain ⟨k, hk, rfl⟩ := List.mem_map.1 hc
      exact ⟨_, (done_ofChildren hvalues k hk).meaning⟩

/-! ## The walk of a program -/

section Walk

variable {root : NodeId} {above : List NodeId} {e' e₁ : Evaluation} {node : Node}

theorem Visits.reaches (h : t.Visits exact root above id e) : t.Reaches root id := by
  induction h with
  | root => exact .refl
  | child _ hn hsplit _ _ ih =>
    exact ih.tail ⟨_, hn, by rw [hsplit]; exact List.mem_append_right _ List.mem_cons_self⟩

/-- Every step down takes at least one off the number, so a walk is nowhere deeper than the number
of its root. -/
theorem Visits.length_add_le (h : t.Visits exact root above id e) : above.length + id ≤ root := by
  induction h with
  | root => exact Nat.le_of_eq (Nat.zero_add root)
  | @child above id c _ _ _ _ _ _ _ _ hlt _ ih =>
    calc (id :: above).length + c = above.length + (c + 1) := by
          rw [List.length_cons, Nat.add_assoc, Nat.add_comm 1]
      _ ≤ above.length + id := Nat.add_le_add_left hlt _
      _ ≤ root := ih

theorem Visits.exists_values (h : t.Visits exact root above id e) {cs : List NodeId}
    (hrun : cs.foldlM (t.visit exact above id) e = .ok e') :
    ∃ kids, cs.mapM (t.childValue exact id) = .ok kids ∧ (∀ k ∈ kids, t.Done exact e' k.1 k.2) ∧
      t.Effect exact (id :: above) id (kids.flatMap fun k => k.2.mentions) e e' := by
  obtain ⟨hab, hs⟩ := h.settled
  obtain ⟨herr, hok⟩ := walk_children (fun c _ => walk_eq_value t exact c) hab cs e
    fun j hj => hs j (Nat.lt_succ_of_lt hj)
  cases hkids : cs.mapM (t.childValue exact id) with
  | error f =>
    rw [herr f hkids] at hrun
    cases hrun
  | ok kids =>
    obtain ⟨e₁, he₁, hdone, heffect⟩ := hok kids hkids
    obtain rfl := Except.ok.inj (he₁.symm.trans hrun)
    exact ⟨kids, rfl, hdone, heffect⟩

theorem Visits.exists_value (h : t.Visits exact root above id e)
    (hwalk : t.walk exact above id e = .ok e') :
    ∃ v, t.Done exact e' id v ∧ t.Effect exact above (id + 1) v.mentions e e' := by
  obtain ⟨hab, hs⟩ := h.settled
  obtain ⟨herr, hok⟩ := walk_eq_value t exact id above e hab hs
  cases hv : t.value exact above.head? id with
  | error f =>
    rw [herr f hv] at hwalk
    cases hwalk
  | ok v =>
    obtain ⟨e₁, he₁, hdone, heffect⟩ := hok v hv
    obtain rfl := Except.ok.inj (he₁.symm.trans hwalk)
    exact ⟨v, hdone, heffect⟩

/-- When the children of a node have been walked, all that the node looks up is at hand. -/
theorem atHand_of_visits (hs : t.Sound root) (h : t.Visits exact root above id e)
    (hn : t.get? id = some node)
    (hrun : node.data.children.foldlM (t.visit exact above id) e = .ok e₁) :
    ∀ c ∈ node.data.children, t.AtHand e₁ c := by
  intro c hc
  obtain ⟨kids, hkids, hdone, _⟩ := h.exists_values hrun
  refine (hs.of_reaches h.reaches).atHand ⟨node, hn, hc⟩ ?_
  rw [← map_fst_of_mapM_childValue hkids] at hc
  obtain ⟨k, hk, rfl⟩ := List.mem_map.1 hc
  exact ⟨_, (hdone k hk).meaning⟩

end Walk

/-- A link that leads down to a node. -/
def LinksDown (t : NodeTree) (i j : NodeId) : Prop :=
  t.Lists i j ∧ j < i ∧ ∃ node, t.get? j = some node

theorem reaches_of_linksDown {i j : NodeId} (h : Relation.ReflTransGen t.LinksDown i j) :
    t.Reaches i j := by
  induction h with
  | refl => exact .refl
  | tail _ hlink ih => exact ih.tail hlink.1

theorem noMiss_toProgram {root : NodeId} (h : t.Sound root) : NoMiss (t.toProgram root exact) := by
  have hvalue : NoMiss (t.value exact none root) := noMiss_value h none
  rw [toProgram_eq_value]
  cases hv : t.value exact none root with
  | error f =>
    rw [hv] at hvalue
    exact hvalue.error
  | ok v =>
    obtain ⟨m, _, _⟩ := v
    cases m with
    | program p => exact NoMiss.ok p
    | _ => exact NoMiss.mismatch _ _ _

/-- Only a tree whose links lead down means a program. -/
theorem sound_of_toProgram {root : NodeId} {p : Program} (h : t.toProgram root exact = .ok p) :
    t.Sound root := by
  rw [toProgram_eq_value] at h
  cases hv : t.value exact none root with
  | error f =>
    rw [hv] at h
    cases h
  | ok v => exact sound_of_value hv

/-- **Lookups miss only at bad links, and bad links do not pass.** Whatever nodes there are and
whatever numbers they list,

* the walk ends: it is nowhere deeper than the number of its root;
* if every link met on the way down leads to a node with a smaller number, then whenever the children
  of a node have been walked they have meanings, they and what they list are nodes, and the lookups
  made for the meaning of the node find what they ask for; so no lookup is the reason for a fault;
* if the root is no node, or a node that is reached over links that lead down lists a number that is
  not smaller than its own, there is a fault and no program. -/
theorem toProgram_misses_only_at_bad_links (t : NodeTree) (root : NodeId) (exact : Bool) :
    (∀ above id e, t.Visits exact root above id e → above.length + id ≤ root) ∧
    (t.Sound root →
      (∀ above id e e₁ node, t.Visits exact root above id e → t.get? id = some node →
        node.data.children.foldlM (t.visit exact above id) e = .ok e₁ →
        (∀ c ∈ node.data.children, (∃ m, e₁.meanings.lookup c = some m) ∧
          ∃ child, t.get? c = some child ∧
            ∀ j ∈ child.data.children, ∃ grandchild, t.get? j = some grandchild) ∧
        ∀ site, t.nodeMeaning exact e₁ id node.data ≠ .error (.noMeaning site)) ∧
      ∀ site, t.toProgram root exact ≠ .error (.noMeaning site)) ∧
    (t.get? root = none ∨
        (∃ i, Relation.ReflTransGen t.LinksDown root i ∧ ∃ c, t.Lists i c ∧ i ≤ c) →
      ∃ fault, t.toProgram root exact = .error fault) := by
  refine ⟨fun _ _ _ h => h.length_add_le, fun hs => ⟨?_, noMiss_toProgram hs⟩, fun hbad => ?_⟩
  · intro above id e e₁ node hvisit hn hrun
    have hhand := atHand_of_visits hs hvisit hn hrun
    exact ⟨fun c hc => ⟨(hhand c hc).meaning, (hhand c hc).node⟩, noMiss_nodeMeaning hhand⟩
  · cases h : t.toProgram root exact with
    | error fault => exact ⟨fault, rfl⟩
    | ok p =>
      have hs := sound_of_toProgram h
      rcases hbad with hnone | ⟨i, hi, c, hc, hle⟩
      · obtain ⟨node, hn, _⟩ := hs root .refl
        rw [hnone] at hn
        cases hn
      · obtain ⟨node, hn, hlt⟩ := hs i (reaches_of_linksDown hi)
        obtain ⟨node', hn', hmem⟩ := hc
        obtain rfl := Option.some.inj (hn.symm.trans hn')
        exact absurd (hlt c hmem) (Nat.not_lt.2 hle)

/-- A type that is built on itself: node 0 lists node 1, which lists node 0. -/
def loopedNodes : NodeTree :=
  ⟨[⟨.namedType 1, ⟨12, 13⟩⟩, ⟨.nonNull 0, ⟨12, 14⟩⟩, ⟨.field "a" [] 1, ⟨9, 14⟩⟩,
    ⟨.object "A" [] [2], ⟨0, 16⟩⟩, ⟨.document [3], ⟨0, 16⟩⟩]⟩

theorem toProgram_misses_loopedNodes :
    (sharedNodes.Sound 7 ∧ ∀ site, sharedNodes.toProgram 7 true ≠ .error (.noMeaning site)) ∧
    (∃ e, [5, 5].foldlM (sharedNodes.visit true [] 7) {} = .ok e ∧
      ∃ m, e.meanings.lookup 5 = some m) ∧
    (sharedNodes.get? 8 = none ∧ ∃ fault, sharedNodes.toProgram 8 true = .error fault) ∧
    (Relation.ReflTransGen loopedNodes.LinksDown 4 0 ∧ loopedNodes.Lists 0 1) ∧
    ∃ fault, loopedNodes.toProgram 4 true = .error fault := by
  have hsound : sharedNodes.Sound 7 :=
    sound_of_closed [0, 1, 2, 3, 4, 5, 7] (by decide) (by decide)
  have hdown : Relation.ReflTransGen loopedNodes.LinksDown 4 0 := by
    have h₁ : loopedNodes.LinksDown 4 3 := ⟨⟨_, rfl, by decide⟩, by decide, _, rfl⟩
    have h₂ : loopedNodes.LinksDown 3 2 := ⟨⟨_, rfl, by decide⟩, by decide, _, rfl⟩
    have h₃ : loopedNodes.LinksDown 2 1 := ⟨⟨_, rfl, by decide⟩, by decide, _, rfl⟩
    have h₄ : loopedNodes.LinksDown 1 0 := ⟨⟨_, rfl, by decide⟩, by decide, _, rfl⟩
    exact .tail (.tail (.tail (.single h₁) h₂) h₃) h₄
  obtain ⟨e, he⟩ : ∃ e, [5, 5].foldlM (sharedNodes.visit true [] 7) {} = .ok e :=
    ⟨_, by with_unfolding_all rfl⟩
  have hback : loopedNodes.Lists 0 1 := ⟨_, rfl, by decide⟩
  obtain ⟨_, hshared, _⟩ := toProgram_misses_only_at_bad_links sharedNodes 7 true
  obtain ⟨_, _, houtside⟩ := toProgram_misses_only_at_bad_links sharedNodes 8 true
  obtain ⟨_, _, hloop⟩ := toProgram_misses_only_at_bad_links loopedNodes 4 true
  obtain ⟨hlookups, hnone⟩ := hshared hsound
  have hwalked := (hlookups [] 7 {} e ⟨.document [5, 5], ⟨0, 24⟩⟩ .root rfl he).1 5 (by decide)
  exact ⟨⟨hsound, hnone⟩, ⟨e, he, hwalked.1⟩, ⟨rfl, houtside (.inl rfl)⟩, ⟨hdown, hback⟩,
    hloop (.inr ⟨0, hdown, 1, hback, by decide⟩)⟩

end NodeTree

end SchemaToFlow
