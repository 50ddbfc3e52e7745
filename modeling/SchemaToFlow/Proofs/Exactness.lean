import SchemaToFlow.Proofs.Evaluation

/-!
# Exact and open objects

Whether the objects that stand for object types, input types and entry points are exact is a choice.
It makes no difference beyond that.

* `TypeExpr.objects`: the objects in a type, at any depth. `Declaration.aliased?` is the object that
  a type alias stands for, and `Declaration.others` are all other objects in a declaration.
* `Declaration.opened`: a declaration with the object it stands for made open, if it is an alias.
* `walk_opened`: one walk with the choice made either way. Step by step, what the one finds is what
  the other finds, opened.
* `walk_shaped`: on a walk, only the objects that aliases stand for are as chosen. All others are
  open.
* `toProgram_up_to_exactness`: the two programs.
-/

namespace SchemaToFlow

open Text Schema SchemaToFlow.Flow

namespace Flow

/-! ## Objects in types -/

mutual

/-- The objects in a type, at any depth. -/
def TypeExpr.objects : TypeExpr → List ObjectType
  | .string => []
  | .number => []
  | .any => []
  | .literal _ => []
  | .identifier _ => []
  | .nullable inner => inner.objects
  | .array item => item.objects
  | .function params returns => params.objects ++ returns.objects
  | .object shape => shape.objects
  | .union members => objectsOfTypes members

/-- The objects in some types. -/
def objectsOfTypes : List TypeExpr → List ObjectType
  | [] => []
  | t :: ts => t.objects ++ objectsOfTypes ts

/-- An object type and the objects in its properties. -/
def ObjectType.objects : ObjectType → List ObjectType
  | ⟨properties, exact⟩ => ⟨properties, exact⟩ :: objectsOfProperties properties

/-- The objects in some properties. -/
def objectsOfProperties : List Property → List ObjectType
  | [] => []
  | p :: ps => p.objects ++ objectsOfProperties ps

/-- The objects in the type of a property. -/
def Property.objects : Property → List ObjectType
  | ⟨_, type, _⟩ => type.objects

end

theorem mem_objectsOfTypes {o : ObjectType} :
    ∀ ts : List TypeExpr, o ∈ objectsOfTypes ts ↔ ∃ t ∈ ts, o ∈ t.objects
  | [] => by simp [objectsOfTypes]
  | t :: ts => by simp [objectsOfTypes, mem_objectsOfTypes ts]

theorem mem_objectsOfProperties {o : ObjectType} :
    ∀ ps : List Property, o ∈ objectsOfProperties ps ↔ ∃ p ∈ ps, o ∈ p.objects
  | [] => by simp [objectsOfProperties]
  | p :: ps => by simp [objectsOfProperties, mem_objectsOfProperties ps]

namespace Declaration

/-- The object that a type alias stands for, if it stands for an object. -/
def aliased? : Declaration → Option ObjectType
  | .typeAlias _ (.object shape) => some shape
  | _ => none

/-- The objects in a declaration, at any depth, other than the one that a type alias stands for. -/
def others : Declaration → List ObjectType
  | .interface _ _ body => body.objects
  | .typeAlias _ (.object shape) => objectsOfProperties shape.properties
  | .typeAlias _ body => body.objects
  | .opaqueType _ underlying => underlying.objects

/-- The declaration with the object open that it stands for, if it is an alias for an object. -/
def opened : Declaration → Declaration
  | .typeAlias name (.object shape) => .typeAlias name (.object ⟨shape.properties, false⟩)
  | d => d

end Declaration

/-- The program with the objects open that its type aliases stand for. -/
def Program.opened (p : Program) : Program := ⟨p.body.map Declaration.opened⟩

end Flow

/-! ## Both choices at once -/

/-- The meaning with the objects open that type aliases stand for. -/
def Meaning.opened : Meaning → Meaning
  | .type t => .type t
  | .property p => .property p
  | .declaration d => .declaration d.opened
  | .program p => .program p.opened

/-- What has been found, with the objects open that type aliases stand for. -/
def Evaluation.opened (e : Evaluation) : Evaluation :=
  { e with meanings := e.meanings.map fun p => (p.1, p.2.opened) }

namespace Evaluation

theorem lookup_opened (e : Evaluation) (j : NodeId) :
    e.opened.meanings.lookup j = (e.meanings.lookup j).map Meaning.opened := by
  obtain ⟨meanings, references⟩ := e
  show (meanings.map fun p => (p.1, p.2.opened)).lookup j = (meanings.lookup j).map Meaning.opened
  induction meanings with
  | nil => rfl
  | cons p meanings ih =>
    rw [List.map_cons, lookup_cons_eq_ite, lookup_cons_eq_ite, ih]
    split <;> rfl

theorem refer_opened (e : Evaluation) (above : List NodeId) (data : NodeData) (m : Meaning) :
    e.opened.refer above data m.opened = (e.refer above data m).opened := by
  cases m with
  | type type =>
    show e.opened.refer above data (.type type) = _
    unfold refer
    split <;> rfl
  | _ => cases data <;> rfl

theorem store_opened (e : Evaluation) (id : NodeId) (m : Meaning) :
    e.opened.store id m.opened = (e.store id m).opened := rfl

end Evaluation

namespace NodeTree

section Opened

variable (t : NodeTree) (e : Evaluation) (id c : NodeId)

theorem meaning_opened (asker : Option NodeId) :
    t.meaning e.opened c asker = Meaning.opened <$> t.meaning e c asker := by
  rw [NodeTree.meaning, NodeTree.meaning, Evaluation.lookup_opened]
  cases e.meanings.lookup c <;> rfl

theorem typeOf_opened : t.typeOf e.opened id c = t.typeOf e id c := by
  rw [typeOf, typeOf, meaning_opened, bind_map_left]
  refine bind_congr fun m => ?_
  cases m <;> rfl

theorem propertyOf_opened : t.propertyOf e.opened id c = t.propertyOf e id c := by
  rw [propertyOf, propertyOf, meaning_opened, bind_map_left]
  refine bind_congr fun m => ?_
  cases m <;> rfl

theorem declarationOf_opened :
    t.declarationOf e.opened id c = Declaration.opened <$> t.declarationOf e id c := by
  rw [declarationOf, declarationOf, meaning_opened, bind_map_left, map_bind]
  refine bind_congr fun m => ?_
  cases m <;> rfl

theorem objectType_opened (cs : List NodeId) (sealed : Bool) :
    t.objectType e.opened id cs sealed = t.objectType e id cs sealed := by
  rw [objectType, objectType, funext (t.propertyOf_opened e id)]

theorem unionType_opened (cs : List NodeId) :
    t.unionType e.opened id cs = t.unionType e id cs := by
  rw [unionType, unionType, funext (t.typeOf_opened e id)]

theorem listType_opened : t.listType e.opened id c = t.listType e id c := by
  rw [listType, listType, typeOf_opened]

theorem valueProperty_opened (n : String) (cs : List NodeId) :
    t.valueProperty e.opened id n cs c = t.valueProperty e id n cs c := by
  rw [valueProperty, valueProperty, typeOf_opened, objectType_opened]

theorem objectDeclaration_opened (n : String) (is fs : List NodeId) :
    t.objectDeclaration false e.opened id n is fs =
      Declaration.opened <$> t.objectDeclaration true e id n is fs := by
  unfold objectDeclaration
  simp only [objectType_opened]
  split
  · -- the one object that is as chosen
    simp only [objectType, bind_assoc, pure_bind, map_bind, map_pure, Declaration.opened]
  · simp only [map_bind, map_pure, Declaration.opened]

theorem documentProgram_opened (cs : List NodeId) :
    t.documentProgram e.opened id cs = Program.opened <$> t.documentProgram e id cs := by
  rw [documentProgram, documentProgram, map_bind]
  refine bind_congr fun named => ?_
  rw [funext (t.declarationOf_opened e id), mapM_map_result, bind_map_left, map_bind]
  rfl

/-- **The meaning of a node with the choice made either way.** -/
theorem nodeMeaning_opened (data : NodeData) :
    t.nodeMeaning false e.opened id data = Meaning.opened <$> t.nodeMeaning true e id data := by
  cases data with
  | name n | scalar n | enumValue n => rfl
  | namedType c | nonNull c =>
    simp only [nodeMeaning, typeOf_opened, map_bind, map_pure, Meaning.opened]
  | operation op c => simp only [nodeMeaning, typeOf_opened, map_bind, map_pure, Meaning.opened]
  | list c => simp only [nodeMeaning, listType_opened, map_bind, map_pure, Meaning.opened]
  | field n cs c =>
    simp only [nodeMeaning, valueProperty_opened, map_bind, map_pure, Meaning.opened]
  | inputValue n c =>
    simp only [nodeMeaning, valueProperty_opened, map_bind, map_pure, Meaning.opened]
  | enum n cs | union n cs =>
    -- an alias for a union, which is no object
    rw [nodeMeaning, nodeMeaning, unionType_opened]
    simp only [unionType, bind_assoc, pure_bind, map_bind, map_pure, Meaning.opened,
      Declaration.opened]
  | interface n cs =>
    simp only [nodeMeaning, objectType_opened, map_bind, map_pure, Meaning.opened,
      Declaration.opened]
  | object n is fs =>
    simp only [nodeMeaning, objectDeclaration_opened, map_bind, bind_map_left, map_pure,
      Meaning.opened]
  | document cs =>
    simp only [nodeMeaning, documentProgram_opened, map_bind, bind_map_left, map_pure,
      Meaning.opened]
  | input n cs =>
    rw [nodeMeaning, nodeMeaning, objectType_opened]
    simp only [objectType, bind_assoc, pure_bind, map_bind, map_pure, Meaning.opened,
      Declaration.opened]
  | schema cs =>
    rw [nodeMeaning, nodeMeaning, objectType_opened]
    simp only [objectType, bind_assoc, pure_bind, map_bind, map_pure, Meaning.opened,
      Declaration.opened]

theorem finish_opened (above : List NodeId) (data : NodeData) :
    t.finish false above id data e.opened =
      Evaluation.opened <$> t.finish true above id data e := by
  rw [finish, finish, nodeMeaning_opened, bind_map_left, map_bind]
  refine bind_congr fun m => ?_
  rw [Evaluation.refer_opened, Evaluation.store_opened]
  rfl

end Opened

/-- **A walk with the choice made either way.** By induction on the number of the node. -/
theorem walk_opened (t : NodeTree) (above : List NodeId) (id : NodeId) (e : Evaluation) :
    t.walk false above id e.opened = Evaluation.opened <$> t.walk true above id e := by
  induction id using Nat.strongRecOn generalizing above e with
  | ind id ih =>
    cases hn : t.get? id with
    | none =>
      rw [walk_of_get?_none hn, walk_of_get?_none hn]
      rfl
    | some node =>
      have hvisit : ∀ e, ∀ c ∈ node.data.children, t.visit false above id e.opened c =
          Evaluation.opened <$> t.visit true above id e c := by
        intro e c _
        unfold visit
        split
        · rename_i hc
          exact ih c hc (id :: above) e
        · rfl
      rw [walk_of_get? hn, walk_of_get? hn, foldlM_map_state hvisit, bind_map_left, map_bind]
      exact bind_congr fun e => t.finish_opened e id above node.data

theorem toProgram_opened (t : NodeTree) (root : NodeId) :
    t.toProgram root false = Program.opened <$> t.toProgram root true := by
  have hwalk : t.walk false [] root {} = Evaluation.opened <$> t.walk true [] root {} :=
    t.walk_opened [] root {}
  rw [toProgram, toProgram, hwalk, bind_map_left, map_bind]
  refine bind_congr fun e => ?_
  rw [meaning_opened, bind_map_left, map_bind]
  refine bind_congr fun m => ?_
  cases m <;> rfl

end NodeTree

/-! ## Which objects are exact -/

/-- A computation gives no results but those with a property. -/
def Gives {α : Type} (P : α → Prop) (x : Except Fault α) : Prop := ∀ a, x = .ok a → P a

namespace Gives

variable {α β : Type} {P : α → Prop} {Q : β → Prop}

theorem ok {a : α} (h : P a) : Gives P (.ok a) := by
  rintro _ ⟨⟩
  exact h

theorem error (fault : Fault) : Gives P (.error fault) := nofun

theorem bind {x : Except Fault α} {f : α → Except Fault β} (hx : Gives P x)
    (hf : ∀ a, P a → Gives Q (f a)) : Gives Q (x >>= f) := by
  cases x with
  | error fault => exact error fault
  | ok a => exact hf a (hx a rfl)

theorem mapM {f : α → Except Fault β} {as : List α} (h : ∀ a ∈ as, Gives Q (f a)) :
    Gives (fun bs => ∀ b ∈ bs, Q b) (as.mapM f) := by
  intro bs hbs b hb
  obtain ⟨a, ha, hfa⟩ := exists_of_mem_of_mapM_eq_ok hbs hb
  exact h a ha b hfa

/-- A property of the state that every step of a run keeps. -/
theorem foldlM {f : α → β → Except Fault α} :
    ∀ {bs : List β}, (∀ a, ∀ b ∈ bs, P a → Gives P (f a b)) → ∀ {a}, P a → Gives P (bs.foldlM f a)
  | [], _, _, ha => ok ha
  | b :: bs, h, a, ha => by
    rw [List.foldlM_cons]
    refine bind (h a b List.mem_cons_self ha) fun a' ha' => ?_
    exact foldlM (fun a x hx => h a x (List.mem_cons_of_mem b hx)) ha'

end Gives

/-- Objects that are all open. -/
def AllOpen (os : List ObjectType) : Prop := ∀ o ∈ os, o.exact = false

/-- Of the objects in a declaration, the one that an alias stands for is as chosen, and all others
are open. -/
structure Flow.Declaration.Shaped (exact : Bool) (d : Declaration) : Prop where
  aliased : ∀ o ∈ d.aliased?, o.exact = exact
  others : AllOpen d.others

/-- Of the objects in a meaning, those that aliases stand for are as chosen, and all others are
open. -/
def Meaning.Shaped (exact : Bool) : Meaning → Prop
  | .type t => AllOpen t.objects
  | .property p => AllOpen p.objects
  | .declaration d => d.Shaped exact
  | .program p => ∀ d ∈ p.body, d.Shaped exact

/-- The same for all meanings found. -/
def Evaluation.Shaped (exact : Bool) (e : Evaluation) : Prop :=
  ∀ p ∈ e.meanings, p.2.Shaped exact

namespace NodeTree

variable {t : NodeTree} {exact : Bool} {e : Evaluation} {id c : NodeId} {cs : List NodeId}

theorem allOpen_typeNamed (n : String) : AllOpen (typeNamed n).objects := by
  unfold typeNamed
  split
  · exact nofun
  · split
    · exact nofun
    · exact nofun

theorem gives_meaning (h : e.Shaped exact) (asker : Option NodeId) :
    Gives (Meaning.Shaped exact) (t.meaning e c asker) := by
  unfold NodeTree.meaning
  split
  · rename_i m hm
    obtain ⟨before, after, hsplit, _⟩ := List.lookup_eq_some_iff.1 hm
    exact Gives.ok (h (c, m) (by simp [hsplit]))
  · exact Gives.error _

theorem gives_typeOf (h : e.Shaped exact) :
    Gives (fun type => AllOpen type.objects) (t.typeOf e id c) := by
  refine Gives.bind (gives_meaning h (some id)) fun m hm => ?_
  cases m with
  | type type => exact Gives.ok hm
  | _ => exact Gives.error _

theorem gives_propertyOf (h : e.Shaped exact) :
    Gives (fun p => AllOpen p.objects) (t.propertyOf e id c) := by
  refine Gives.bind (gives_meaning h (some id)) fun m hm => ?_
  cases m with
  | property p => exact Gives.ok hm
  | _ => exact Gives.error _

theorem gives_declarationOf (h : e.Shaped exact) :
    Gives (Declaration.Shaped exact) (t.declarationOf e id c) := by
  refine Gives.bind (gives_meaning h (some id)) fun m hm => ?_
  cases m with
  | declaration d => exact Gives.ok hm
  | _ => exact Gives.error _

theorem gives_objectType (h : e.Shaped exact) (sealed : Bool) :
    Gives (fun o => o.exact = sealed ∧ AllOpen (objectsOfProperties o.properties))
      (t.objectType e id cs sealed) := by
  refine Gives.bind (Gives.mapM fun c _ => gives_propertyOf h) fun ps hps => Gives.ok ⟨rfl, ?_⟩
  intro o ho
  obtain ⟨p, hp, ho⟩ := (mem_objectsOfProperties _).1 ho
  exact hps p hp o ho

theorem gives_listType (h : e.Shaped exact) :
    Gives (fun type => AllOpen type.objects) (t.listType e id c) := by
  refine Gives.bind (P := fun _ => True) (fun _ _ => trivial) fun nonNull _ =>
    Gives.bind (gives_typeOf h) fun type htype => ?_
  split
  · exact Gives.ok htype
  · exact Gives.ok htype

theorem gives_unionType (h : e.Shaped exact) (n : String) :
    Gives (fun type => (Declaration.typeAlias n type).Shaped exact) (t.unionType e id cs) := by
  refine Gives.bind (Gives.mapM fun c _ => gives_typeOf h) fun ts hts => Gives.ok ⟨nofun, ?_⟩
  intro o ho
  obtain ⟨type, htype, ho⟩ := (mem_objectsOfTypes _).1 ho
  exact hts type htype o ho

theorem allOpen_objects {o : ObjectType} (h : o.exact = false)
    (h' : AllOpen (objectsOfProperties o.properties)) : AllOpen o.objects := by
  obtain ⟨ps, sealed⟩ := o
  exact List.forall_mem_cons.2 ⟨h, h'⟩

/-- The arguments of a field make an open object. -/
theorem gives_valueProperty (h : e.Shaped exact) (n : String) :
    Gives (fun p => AllOpen p.objects) (t.valueProperty e id n cs c) := by
  refine Gives.bind (P := fun _ => True) (fun _ _ => trivial) fun nonNull _ =>
    Gives.bind (gives_typeOf h) fun plain hplain => ?_
  have hvalue : AllOpen (if !nonNull then .nullable plain else plain : TypeExpr).objects := by
    cases nonNull with
    | false => exact hplain
    | true => exact hplain
  show Gives _ (if cs.isEmpty then _ else _)
  by_cases hcs : cs.isEmpty = true
  · rw [if_pos hcs]
    exact Gives.ok hvalue
  · rw [if_neg hcs]
    refine Gives.bind (gives_objectType h false) fun o ho => Gives.ok ?_
    exact List.forall_mem_append.2 ⟨allOpen_objects ho.1 ho.2, hvalue⟩

theorem shaped_alias {n : String} {o : ObjectType}
    (h : o.exact = exact ∧ AllOpen (objectsOfProperties o.properties)) :
    (Declaration.typeAlias n (.object o)).Shaped exact := by
  refine ⟨?_, h.2⟩
  rintro _ ⟨⟩
  exact h.1

theorem shaped_interface {n : String} {supers : List String} {o : ObjectType}
    (h : o.exact = false ∧ AllOpen (objectsOfProperties o.properties)) :
    (Declaration.interface n supers o).Shaped exact :=
  ⟨nofun, allOpen_objects h.1 h.2⟩

theorem gives_objectDeclaration (h : e.Shaped exact) (n : String) (is fs : List NodeId) :
    Gives (Declaration.Shaped exact) (t.objectDeclaration exact e id n is fs) := by
  unfold objectDeclaration
  split
  · exact Gives.bind (gives_objectType h exact) fun o ho => Gives.ok (shaped_alias ho)
  · refine Gives.bind (P := fun _ => True) (fun _ _ => trivial) fun supers _ => ?_
    exact Gives.bind (gives_objectType h false) fun o ho => Gives.ok (shaped_interface ho)

theorem gives_documentProgram (h : e.Shaped exact) :
    Gives (fun p => ∀ d ∈ p.body, d.Shaped exact) (t.documentProgram e id cs) := by
  refine Gives.bind (P := fun _ => True) (fun _ _ => trivial) fun named _ => ?_
  exact Gives.bind (Gives.mapM fun c _ => gives_declarationOf h) fun body hbody => Gives.ok hbody

/-- **One node: only what an alias stands for is as chosen.** -/
theorem gives_nodeMeaning (h : e.Shaped exact) (data : NodeData) :
    Gives (Meaning.Shaped exact) (t.nodeMeaning exact e id data) := by
  cases data with
  | name n => exact Gives.ok (allOpen_typeNamed n)
  | enumValue n => exact Gives.ok nofun
  | scalar n => exact Gives.ok ⟨nofun, nofun⟩
  | namedType c | nonNull c =>
    exact Gives.bind (gives_typeOf h) fun type htype => Gives.ok htype
  | operation op c => exact Gives.bind (gives_typeOf h) fun type htype => Gives.ok htype
  | list c => exact Gives.bind (gives_listType h) fun type htype => Gives.ok htype
  | field n cs c => exact Gives.bind (gives_valueProperty h n) fun p hp => Gives.ok hp
  | inputValue n c => exact Gives.bind (gives_valueProperty h n) fun p hp => Gives.ok hp
  | enum n cs | union n cs =>
    exact Gives.bind (gives_unionType h n) fun type htype => Gives.ok htype
  | object n is fs => exact Gives.bind (gives_objectDeclaration h n is fs) fun d hd => Gives.ok hd
  | interface n cs =>
    exact Gives.bind (gives_objectType h false) fun o ho => Gives.ok (shaped_interface ho)
  | input n cs =>
    exact Gives.bind (gives_objectType h exact) fun o ho => Gives.ok (shaped_alias ho)
  | schema cs => exact Gives.bind (gives_objectType h exact) fun o ho => Gives.ok (shaped_alias ho)
  | document cs => exact Gives.bind (gives_documentProgram h) fun p hp => Gives.ok hp

/-- **A whole walk keeps it.** By induction on the number of the node. -/
theorem walk_shaped (t : NodeTree) (exact : Bool) (above : List NodeId) (id : NodeId)
    {e : Evaluation} (h : e.Shaped exact) :
    Gives (Evaluation.Shaped exact) (t.walk exact above id e) := by
  induction id using Nat.strongRecOn generalizing above e with
  | ind id ih =>
    cases hn : t.get? id with
    | none =>
      rw [walk_of_get?_none hn]
      exact Gives.error _
    | some node =>
      rw [walk_of_get? hn]
      refine Gives.bind (Gives.foldlM (fun e c _ he => ?_) h) fun e₁ he₁ => ?_
      · unfold visit
        split
        · rename_i hc
          exact ih c hc (id :: above) he
        · exact Gives.error _
      · refine Gives.bind (gives_nodeMeaning he₁ node.data) fun m hm => Gives.ok ?_
        refine List.forall_mem_cons.2 ⟨hm, ?_⟩
        rw [Evaluation.meanings_refer]
        exact he₁

theorem shaped_of_toProgram {root : NodeId} {p : Program} (h : t.toProgram root exact = .ok p) :
    ∀ d ∈ p.body, d.Shaped exact := by
  have hgives : Gives (fun p : Program => ∀ d ∈ p.body, d.Shaped exact)
      (t.toProgram root exact) := by
    refine Gives.bind (t.walk_shaped exact [] root (e := {}) nofun) fun e he =>
      Gives.bind (gives_meaning he none) fun m hm => ?_
    cases m with
    | program p => exact Gives.ok hm
    | _ => exact Gives.error _
  exact hgives p h

/-- **Exactness changes nothing but exactness.** Whatever the nodes and their links, with the choice
made either way there is the same fault, or there are programs of which one is the other with the
objects open that type aliases stand for. With exact objects these objects are exact and no others
are: the bodies of interfaces, the arguments of fields and whatever lies deeper are open. With open
objects none is exact. -/
theorem toProgram_up_to_exactness (t : NodeTree) (root : NodeId) :
    (∃ fault, t.toProgram root true = .error fault ∧ t.toProgram root false = .error fault) ∨
    ∃ p, t.toProgram root true = .ok p ∧ t.toProgram root false = .ok p.opened ∧
      (∀ d ∈ p.body, (∀ o ∈ d.aliased?, o.exact = true) ∧ ∀ o ∈ d.others, o.exact = false) ∧
      ∀ d ∈ p.opened.body, (∀ o ∈ d.aliased?, o.exact = false) ∧ ∀ o ∈ d.others, o.exact = false := by
  have hopened := t.toProgram_opened root
  cases htrue : t.toProgram root true with
  | error fault =>
    rw [htrue] at hopened
    exact .inl ⟨fault, rfl, hopened⟩
  | ok p =>
    rw [htrue] at hopened
    have hfalse : t.toProgram root false = .ok p.opened := hopened
    refine .inr ⟨p, rfl, hfalse, fun d hd => ?_, fun d hd => ?_⟩
    · have hd := shaped_of_toProgram htrue d hd
      exact ⟨hd.aliased, hd.others⟩
    · have hd := shaped_of_toProgram hfalse d hd
      exact ⟨hd.aliased, hd.others⟩

end NodeTree

end SchemaToFlow
