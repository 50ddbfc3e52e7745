import SchemaToFlow.Proofs.Forward

/-!
# Every name of a document is listed

A document holds numbers in place of names. `Document.nameIds` collects all of them, those inside
types, constants and uses of directives included, and `covers_parse` says that the table that comes
with the document lists a name for each, whatever was reported.

The table grows while a schema is read, and a number is in range of the table at the end as soon as
it is in range of the table when it is given out (`index_intern_lt`). So the readers are compared
with the final table all along: `Reader.Yields T r Q` says that the result of `r` has the property
`Q` if the table that `r` leaves can still grow into `T`.
-/

set_option synthInstance.maxSize 1000

namespace SchemaToFlow

/-! ## Numbers in range of a table -/

namespace NameTable

variable {T : NameTable}

/-- The table lists a name for each of the numbers. -/
def Covers (T : NameTable) (ids : List NameId) : Prop := ∀ id ∈ ids, id.index < T.size

@[simp] theorem covers_nil : T.Covers [] := fun _ h => absurd h List.not_mem_nil

@[simp] theorem covers_cons {id : NameId} {ids : List NameId} :
    T.Covers (id :: ids) ↔ id.index < T.size ∧ T.Covers ids :=
  List.forall_mem_cons

@[simp] theorem covers_append {ids ids' : List NameId} :
    T.Covers (ids ++ ids') ↔ T.Covers ids ∧ T.Covers ids' :=
  List.forall_mem_append

@[simp] theorem covers_map {α : Type} {f : α → NameId} {as : List α} :
    T.Covers (as.map f) ↔ ∀ a ∈ as, (f a).index < T.size :=
  List.forall_mem_map

@[simp] theorem covers_flatMap {α : Type} {f : α → List NameId} {as : List α} :
    T.Covers (as.flatMap f) ↔ ∀ a ∈ as, T.Covers (f a) := by
  simp only [Covers, List.mem_flatMap, forall_exists_index, and_imp]
  exact ⟨fun h a ha id hid => h id a ha hid, fun h id a ha hid => h a ha id hid⟩

/-- The number of a name is in range of the table that lists the name. -/
theorem index_intern_lt (t : NameTable) (name : String) :
    (t.intern name).1.index < (t.intern name).2.size := by
  show t.names.idxOf name < (addNew t.names name).length
  by_cases h : name ∈ t.names
  · rw [addNew_of_mem h]
    exact List.idxOf_lt_length_of_mem h
  · rw [addNew_of_not_mem h, List.idxOf_eq_length h, List.length_append]
    exact Nat.lt_succ_self _

/-- Where no listed name is empty, a number in range stands for a text. -/
theorem text_ne_empty {id : NameId} (h : id.index < T.size) (hT : "" ∉ T.names) :
    T.text id ≠ "" := by
  intro htext
  rw [text, List.getElem?_eq_getElem h, Option.getD_some] at htext
  exact hT (htext ▸ List.getElem_mem h)

end NameTable

namespace Schema

/-! ## The names of a document -/

/-- The names in a type. -/
def TypeRef.nameIds : TypeRef → List NameId
  | .named name => [name.id]
  | .list item _ => item.nameIds
  | .nonNull inner _ => inner.nameIds

mutual

/-- The names in a constant: those it stands for and those of its fields. -/
def Value.nameIds : Value → List NameId
  | .enum name _ => [name]
  | .list items _ => Value.nameIdsOfItems items
  | .object fields _ => Value.nameIdsOfFields fields
  | _ => []

/-- The names in a list of constants. -/
def Value.nameIdsOfItems : List Value → List NameId
  | [] => []
  | item :: items => item.nameIds ++ Value.nameIdsOfItems items

/-- The names in the fields of a constant. -/
def Value.nameIdsOfFields : List (NameId × Value) → List NameId
  | [] => []
  | (name, value) :: fields => name :: (value.nameIds ++ Value.nameIdsOfFields fields)

end

/-- The names in a named value handed to a directive. -/
def Argument.nameIds (a : Argument) : List NameId := a.name.id :: a.value.nameIds

/-- The names in a use of a directive. -/
def Directive.nameIds (d : Directive) : List NameId :=
  d.name.id :: d.arguments.flatMap Argument.nameIds

/-- The names in an input value. -/
def InputValue.nameIds (v : InputValue) : List NameId :=
  v.name.id :: (v.type.nameIds ++ v.default?.toList.flatMap Value.nameIds ++
    v.directives.flatMap Directive.nameIds)

/-- The names in a field. -/
def Field.nameIds (f : Field) : List NameId :=
  f.name.id :: (f.arguments.flatMap InputValue.nameIds ++ f.type.nameIds ++
    f.directives.flatMap Directive.nameIds)

/-- The names in a value of an enumeration. -/
def EnumValue.nameIds (v : EnumValue) : List NameId :=
  v.name.id :: v.directives.flatMap Directive.nameIds

/-- The names in a definition, its own included. -/
def Definition.nameIds : Definition → List NameId
  | .schema d => d.directives.flatMap Directive.nameIds ++ d.operations.map (·.type.id)
  | .object d | .interface d =>
    d.name.id :: (d.interfaces.map (·.id) ++ d.directives.flatMap Directive.nameIds ++
      d.fields.flatMap Field.nameIds)
  | .union d => d.name.id :: (d.directives.flatMap Directive.nameIds ++ d.members.map (·.id))
  | .enum d =>
    d.name.id :: (d.directives.flatMap Directive.nameIds ++ d.values.flatMap EnumValue.nameIds)
  | .input d =>
    d.name.id :: (d.directives.flatMap Directive.nameIds ++ d.fields.flatMap InputValue.nameIds)
  | .scalar d => d.name.id :: d.directives.flatMap Directive.nameIds
  | .directive d => d.name.id :: d.arguments.flatMap InputValue.nameIds

/-- The names in a document. -/
def Document.nameIds (d : Document) : List NameId := d.definitions.flatMap Definition.nameIds

/-! ## Rules for readers -/

namespace Reader

open NameTable

variable {α β : Type} {T : NameTable}

/-- The result has a property if the table left behind can grow into `T`. -/
def Yields (T : NameTable) (r : Reader α) (Q : α → Prop) : Prop :=
  ∀ s, (r s).2.names.names <+: T.names → Q (r s).1

namespace Yields

variable {r r' : Reader α} {f : α → Reader β} {P : α → Prop} {Q : β → Prop}

theorem done {a : α} (h : P a) : Yields T (pure a) P := fun _ _ => h

/-- A value handed to what follows. -/
theorem given {a : α} (h : Yields T (f a) Q) : Yields T (pure a >>= f) Q := h

/-- What follows may use what is known of the first result, since the table only grows. -/
theorem bind [∀ a, Forward (f a)] (hr : Yields T r P) (hf : ∀ a, P a → Yields T (f a) Q) :
    Yields T (r >>= f) Q := by
  intro s h
  have hgrow : (r s).2.names.names <+: (f (r s).1 (r s).2).2.names.names :=
    (Forward.leads _).names
  exact hf _ (hr s (hgrow.trans h)) _ h

/-- A first result that does not matter. -/
theorem skip (hf : ∀ a, Yields T (f a) Q) : Yields T (r >>= f) Q := fun s => hf (r s).1 (r s).2

theorem ite {c : Prop} [Decidable c] (h : Yields T r P) (h' : Yields T r' P) :
    Yields T (if c then r else r') P := by
  split
  · exact h
  · exact h'

theorem mono {P' : α → Prop} (h : Yields T r P) (hP : ∀ a, P a → P' a) : Yields T r P' :=
  fun s hs => hP _ (h s hs)

theorem none : Yields T (pure (none : Option α)) fun o => ∀ a ∈ o, P a :=
  done fun a h => absurd h (Option.not_mem_none a)

theorem ofBound {r : Nat → Reader α} (h : ∀ n, Yields T (r n) P) :
    Yields T (fun s => r s.rest.length s) P := fun s => h s.rest.length s

theorem manyUpTo {go : State → Bool} [Forward r] (h : Yields T r P) :
    ∀ n, Yields T (Reader.manyUpTo go r n) fun as => ∀ a ∈ as, P a
  | 0 => done fun _ ha => absurd ha List.not_mem_nil
  | n + 1 => by
    have hforward := forward_manyUpTo go r n
    have hround : Yields T (do return (← r) :: (← Reader.manyUpTo go r n)) fun as => ∀ a ∈ as, P a :=
      h.bind fun a ha => (manyUpTo h n).bind fun as has => done (List.forall_mem_cons.2 ⟨ha, has⟩)
    intro s
    unfold Reader.manyUpTo
    split
    · exact hround s
    · exact fun _ _ ha => absurd ha List.not_mem_nil

theorem many {go : State → Bool} [Forward r] (h : Yields T r P) :
    Yields T (Reader.many go r) fun as => ∀ a ∈ as, P a :=
  ofBound (manyUpTo h)

end Yields

open Yields

/-! ## The readers of a schema -/

theorem yields_intern (name : String) : Yields T (intern name) fun id => id.index < T.size :=
  fun s h => Nat.lt_of_lt_of_le (index_intern_lt s.names name) h.length_le

theorem yields_name : Yields T name fun nm => nm.id.index < T.size := by
  unfold name
  refine skip fun t => ite ?_ ?_
  · exact (yields_intern t.text).bind fun _ hid => skip fun _ => done hid
  · exact skip fun _ => skip fun _ => (yields_intern "").bind fun _ hid => done hid

theorem yields_typeName : Yields T typeName fun nm => nm.id.index < T.size := by
  unfold typeName
  refine skip fun t => ite ?_ ?_
  · exact (yields_intern t.text).bind fun _ hid => skip fun _ => done hid
  · exact skip fun _ => (yields_intern "").bind fun _ hid => done hid

theorem covers_named {nm : Name} (h : nm.id.index < T.size) :
    T.Covers (TypeRef.named nm).nameIds := covers_cons.2 ⟨h, covers_nil⟩

theorem yields_typeRefUpTo : ∀ n, Yields T (typeRefUpTo n) fun type => T.Covers type.nameIds
  | 0 => yields_typeName.bind fun _ h => done (covers_named h)
  | n + 1 => by
    have hforward := forward_typeRefUpTo n
    unfold typeRefUpTo typeRefAt
    dsimp only
    -- the exclamation mark adds no name
    have hbang (start : Nat) (inner : TypeRef) (h : T.Covers inner.nameIds) :
        Yields T (do
          if ← accept (.punct .bang) then return .nonNull inner (← spanFrom start)
          else return inner) fun type => T.Covers type.nameIds :=
      skip fun _ => ite (skip fun _ => done h) (done h)
    refine skip fun t => skip fun _ => ite ?_ ?_
    · exact (yields_typeRefUpTo n).bind fun item h => skip fun _ => skip fun span =>
        hbang _ (.list item span) h
    · exact yields_typeName.bind fun nm h => hbang _ (.named nm) (covers_named h)

theorem yields_typeRef : Yields T typeRef fun type => T.Covers type.nameIds :=
  ofBound yields_typeRefUpTo

theorem covers_nameIdsOfItems :
    ∀ {items : List Value}, (∀ item ∈ items, T.Covers item.nameIds) →
      T.Covers (Value.nameIdsOfItems items)
  | [], _ => covers_nil
  | item :: items, h => by
    rw [List.forall_mem_cons] at h
    rw [Value.nameIdsOfItems, covers_append]
    exact ⟨h.1, covers_nameIdsOfItems h.2⟩

theorem covers_nameIdsOfFields :
    ∀ {fields : List (NameId × Value)},
      (∀ field ∈ fields, field.1.index < T.size ∧ T.Covers field.2.nameIds) →
      T.Covers (Value.nameIdsOfFields fields)
  | [], _ => covers_nil
  | (name, value) :: fields, h => by
    rw [List.forall_mem_cons] at h
    rw [Value.nameIdsOfFields, covers_cons, covers_append]
    exact ⟨h.1.1, h.1.2, covers_nameIdsOfFields h.2⟩

theorem yields_noValue : Yields T noValue fun v => T.Covers v.nameIds := by
  unfold noValue
  exact skip fun _ => skip fun _ => skip fun _ => skip fun _ => done covers_nil

theorem yields_literal (t : Token) {make : Text.Span → Value}
    (h : ∀ span, T.Covers (make span).nameIds) :
    Yields T (literal t make) fun v => T.Covers v.nameIds := by
  unfold literal
  exact skip fun _ => skip fun span => done (h span)

theorem yields_intLiteral (t : Token) : Yields T (intLiteral t) fun v => T.Covers v.nameIds := by
  unfold intLiteral
  dsimp only
  split
  · exact skip fun _ => skip fun _ => skip fun _ => done covers_nil
  · exact skip fun _ => skip fun _ => skip fun _ => skip fun _ => done covers_nil

theorem yields_listValue {item : Reader Value} [Forward item]
    (h : Yields T item fun v => T.Covers v.nameIds) :
    Yields T (listValue item) fun v => T.Covers v.nameIds := by
  unfold listValue
  refine skip fun _ => skip fun _ => h.many.bind fun items hitems => ?_
  exact skip fun _ => skip fun _ => done (covers_nameIdsOfItems hitems)

theorem yields_objectValue {value : Reader Value} [Forward value]
    (h : Yields T value fun v => T.Covers v.nameIds) :
    Yields T (objectValue value) fun v => T.Covers v.nameIds := by
  have hfield : Yields T (objectField value)
      fun field => field.1.index < T.size ∧ T.Covers field.2.nameIds :=
    yields_name.bind fun _ hname => skip fun _ => h.bind fun _ hvalue => done ⟨hname, hvalue⟩
  unfold objectValue
  refine skip fun _ => skip fun _ => hfield.many.bind fun fields hfields => ?_
  exact skip fun _ => skip fun _ => done (covers_nameIdsOfFields hfields)

theorem yields_valueUpTo : ∀ n, Yields T (valueUpTo n) fun v => T.Covers v.nameIds
  | 0 => yields_noValue
  | n + 1 => by
    have hforward := forward_valueUpTo n
    have ih := yields_valueUpTo n
    unfold valueUpTo valueAt
    refine skip fun t => ?_
    split
    case h_1 => exact yields_intLiteral t
    case h_8 => exact yields_listValue ih
    case h_9 => exact yields_objectValue ih
    case h_10 | h_11 => exact yields_name.bind fun _ h => done (covers_cons.2 ⟨h, covers_nil⟩)
    case h_12 => exact yields_noValue
    all_goals exact yields_literal t fun _ => covers_nil

theorem yields_value : Yields T value fun v => T.Covers v.nameIds := ofBound yields_valueUpTo

theorem yields_argument : Yields T argument fun a => T.Covers a.nameIds := by
  unfold argument
  refine skip fun _ => yields_name.bind fun _ hname => skip fun _ => ?_
  exact yields_value.bind fun _ hvalue => skip fun _ => done (covers_cons.2 ⟨hname, hvalue⟩)

theorem yields_directive : Yields T directive fun d => T.Covers d.nameIds := by
  unfold directive
  dsimp only
  refine skip fun _ => skip fun _ => yields_name.bind fun _ hname => skip fun _ => ite ?_ ?_
  · refine yields_argument.many.bind fun _ hargs => skip fun _ => given (skip fun _ => ?_)
    exact done (covers_cons.2 ⟨hname, covers_flatMap.2 hargs⟩)
  · exact given (skip fun _ => done (covers_cons.2 ⟨hname, covers_nil⟩))

theorem yields_directives :
    Yields T directives fun ds => T.Covers (ds.flatMap Directive.nameIds) :=
  yields_directive.many.mono fun _ h => covers_flatMap.2 h

theorem yields_inputValue : Yields T inputValue fun v => T.Covers v.nameIds := by
  have hsome : Yields T (some <$> value) fun v => T.Covers (v.toList.flatMap Value.nameIds) :=
    fun s h => covers_append.2 ⟨yields_value s h, covers_nil⟩
  unfold inputValue
  dsimp only
  refine skip fun _ => skip fun _ => yields_name.bind fun _ hname => skip fun _ => ?_
  refine yields_typeRef.bind fun _ htype => skip fun _ => ite ?_ ?_
  · refine hsome.bind fun _ hvalue => yields_directives.bind fun _ hdirectives => skip fun _ => ?_
    exact done
      (covers_cons.2 ⟨hname, covers_append.2 ⟨covers_append.2 ⟨htype, hvalue⟩, hdirectives⟩⟩)
  · refine given (yields_directives.bind fun _ hdirectives => skip fun _ => ?_)
    exact done
      (covers_cons.2 ⟨hname, covers_append.2 ⟨covers_append.2 ⟨htype, covers_nil⟩, hdirectives⟩⟩)

theorem yields_inputValues :
    Yields T inputValues fun vs => T.Covers (vs.flatMap InputValue.nameIds) :=
  yields_inputValue.many.mono fun _ h => covers_flatMap.2 h

theorem yields_argumentDefinitions :
    Yields T argumentDefinitions fun vs => T.Covers (vs.flatMap InputValue.nameIds) := by
  unfold argumentDefinitions
  refine skip fun _ => ite ?_ (done covers_nil)
  exact yields_inputValues.bind fun _ h => skip fun _ => done h

theorem yields_field : Yields T field fun f => T.Covers f.nameIds := by
  unfold field
  refine skip fun _ => skip fun _ => yields_name.bind fun _ hname => ?_
  refine yields_argumentDefinitions.bind fun _ harguments => skip fun _ => ?_
  refine yields_typeRef.bind fun _ htype => yields_directives.bind fun _ hdirectives => ?_
  exact skip fun _ => done
    (covers_cons.2 ⟨hname, covers_append.2 ⟨covers_append.2 ⟨harguments, htype⟩, hdirectives⟩⟩)

theorem yields_braced {item : Reader α} [Forward item] {ids : α → List NameId}
    (h : Yields T item fun a => T.Covers (ids a)) :
    Yields T (braced item) fun as => T.Covers (as.flatMap ids) := by
  unfold braced
  refine skip fun _ => ite ?_ (done covers_nil)
  exact h.many.bind fun _ h => skip fun _ => done (covers_flatMap.2 h)

/-- A first name and those that follow it. -/
theorem covers_map_cons {nm : Name} {nms : List Name} (h : nm.id.index < T.size)
    (hs : ∀ a ∈ nms, a.id.index < T.size) : T.Covers ((nm :: nms).map (·.id)) :=
  covers_map.2 (List.forall_mem_cons.2 ⟨h, hs⟩)

theorem yields_implementedInterfaces :
    Yields T implementedInterfaces fun nms => T.Covers (nms.map (·.id)) := by
  unfold implementedInterfaces
  refine skip fun _ => ite ?_ (done covers_nil)
  refine skip fun _ => yields_typeName.bind fun _ hfirst => ?_
  exact (Yields.many (skip fun _ => yields_typeName)).bind fun _ h => done (covers_map_cons hfirst h)

theorem yields_unionMembers : Yields T unionMembers fun nms => T.Covers (nms.map (·.id)) := by
  unfold unionMembers
  refine skip fun _ => ite ?_ (done covers_nil)
  refine skip fun _ => yields_typeName.bind fun _ hfirst => ?_
  exact (Yields.many (skip fun _ => yields_typeName)).bind fun _ h => done (covers_map_cons hfirst h)

theorem forall_mem_filterMap_id {P : α → Prop} {os : List (Option α)}
    (h : ∀ o ∈ os, ∀ a ∈ o, P a) : ∀ a ∈ os.filterMap id, P a := by
  intro a ha
  obtain ⟨o, ho, hoa⟩ := List.mem_filterMap.1 ha
  exact h o ho a hoa

theorem yields_rootOperation? :
    Yields T rootOperation? fun o => ∀ x ∈ o, x.type.id.index < T.size := by
  unfold rootOperation?
  refine skip fun _ => ?_
  split
  · refine skip fun _ => skip fun _ => yields_typeName.bind fun _ htype => skip fun _ => done ?_
    rintro _ ⟨⟩
    exact htype
  · exact skip fun _ => skip fun _ => Yields.none

theorem yields_schemaDefinition (d : Option Description) :
    Yields T (schemaDefinition d) fun x => T.Covers (Definition.schema x).nameIds := by
  unfold schemaDefinition
  refine skip fun _ => skip fun _ => yields_directives.bind fun _ hdirectives => skip fun _ => ?_
  refine yields_rootOperation?.many.bind fun operations h => skip fun _ => skip fun _ => done ?_
  exact covers_append.2 ⟨hdirectives, covers_map.2 (forall_mem_filterMap_id h)⟩

theorem yields_fieldsDefinition (d : Option Description) :
    Yields T (fieldsDefinition d) fun x => T.Covers (Definition.object x).nameIds := by
  unfold fieldsDefinition
  refine skip fun _ => skip fun _ => yields_name.bind fun _ hname => ?_
  refine yields_implementedInterfaces.bind fun _ hinterfaces => ?_
  refine yields_directives.bind fun _ hdirectives => ?_
  refine (yields_braced yields_field).bind fun _ hfields => skip fun _ => done ?_
  exact covers_cons.2 ⟨hname, covers_append.2 ⟨covers_append.2 ⟨hinterfaces, hdirectives⟩, hfields⟩⟩

theorem yields_unionDefinition (d : Option Description) :
    Yields T (unionDefinition d) fun x => T.Covers (Definition.union x).nameIds := by
  unfold unionDefinition
  refine skip fun _ => skip fun _ => yields_name.bind fun _ hname => ?_
  refine yields_directives.bind fun _ hdirectives => yields_unionMembers.bind fun _ hmembers => ?_
  exact skip fun _ => done (covers_cons.2 ⟨hname, covers_append.2 ⟨hdirectives, hmembers⟩⟩)

theorem yields_enumValue : Yields T enumValue fun v => T.Covers v.nameIds := by
  unfold enumValue
  refine skip fun _ => skip fun _ => yields_name.bind fun _ hname => ?_
  exact yields_directives.bind fun _ hdirectives => skip fun _ => done
    (covers_cons.2 ⟨hname, hdirectives⟩)

theorem yields_enumDefinition (d : Option Description) :
    Yields T (enumDefinition d) fun x => T.Covers (Definition.enum x).nameIds := by
  unfold enumDefinition
  refine skip fun _ => skip fun _ => yields_name.bind fun _ hname => ?_
  refine yields_directives.bind fun _ hdirectives => ?_
  refine (yields_braced yields_enumValue).bind fun _ hvalues => skip fun _ => done ?_
  exact covers_cons.2 ⟨hname, covers_append.2 ⟨hdirectives, hvalues⟩⟩

theorem yields_inputDefinition (d : Option Description) :
    Yields T (inputDefinition d) fun x => T.Covers (Definition.input x).nameIds := by
  unfold inputDefinition
  dsimp only
  refine skip fun _ => skip fun _ => yields_name.bind fun _ hname => ?_
  refine yields_directives.bind fun _ hdirectives => skip fun _ => ite ?_ ?_
  · refine yields_inputValues.bind fun _ hfields => skip fun _ => given (skip fun _ => done ?_)
    exact covers_cons.2 ⟨hname, covers_append.2 ⟨hdirectives, hfields⟩⟩
  · refine given (skip fun _ => done ?_)
    exact covers_cons.2 ⟨hname, covers_append.2 ⟨hdirectives, covers_nil⟩⟩

theorem yields_scalarDefinition (d : Option Description) :
    Yields T (scalarDefinition d) fun x => T.Covers (Definition.scalar x).nameIds := by
  unfold scalarDefinition
  refine skip fun _ => skip fun _ => yields_name.bind fun _ hname => ?_
  exact yields_directives.bind fun _ hdirectives => skip fun _ => done
    (covers_cons.2 ⟨hname, hdirectives⟩)

theorem yields_directiveDefinition (d : Option Description) :
    Yields T (directiveDefinition d) fun x => T.Covers (Definition.directive x).nameIds := by
  unfold directiveDefinition
  refine skip fun _ => skip fun _ => skip fun _ => yields_name.bind fun _ hname => ?_
  refine yields_argumentDefinitions.bind fun _ harguments => skip fun _ => skip fun _ => ?_
  exact skip fun _ => skip fun _ => done (covers_cons.2 ⟨hname, harguments⟩)

theorem yields_noDefinition :
    Yields T noDefinition fun o => ∀ x ∈ o, T.Covers x.nameIds := by
  unfold noDefinition
  exact skip fun _ => skip fun _ => Yields.none

/-- A reader of one kind of definition. -/
theorem yields_some {r : Reader α} {g : α → Definition}
    (h : Yields T r fun a => T.Covers (g a).nameIds) :
    Yields T (do return some (g (← r))) fun o => ∀ x ∈ o, T.Covers x.nameIds := by
  refine h.bind fun a ha => done ?_
  rintro _ ⟨⟩
  exact ha

theorem yields_definitionAt (d : Option Description) {extended : Reader (Option Definition)}
    (h : Yields T extended fun o => ∀ x ∈ o, T.Covers x.nameIds) :
    Yields T (definitionAt d extended) fun o => ∀ x ∈ o, T.Covers x.nameIds := by
  unfold definitionAt
  refine skip fun _ => ?_
  split
  case h_1 => exact yields_some (yields_schemaDefinition d)
  case h_2 => exact yields_some (yields_fieldsDefinition d)
  case h_3 => exact yields_some (g := .interface) (yields_fieldsDefinition d)
  case h_4 => exact yields_some (yields_unionDefinition d)
  case h_5 => exact yields_some (yields_enumDefinition d)
  case h_6 => exact yields_some (yields_inputDefinition d)
  case h_7 => exact yields_some (yields_scalarDefinition d)
  case h_8 => exact yields_some (yields_directiveDefinition d)
  case h_9 => exact skip fun _ => skip fun _ => h
  case h_10 => exact yields_noDefinition

theorem yields_definitionUpTo :
    ∀ n, Yields T (definitionUpTo n) fun o => ∀ x ∈ o, T.Covers x.nameIds
  | 0 => yields_noDefinition
  | n + 1 => skip fun d => yields_definitionAt d (yields_definitionUpTo n)

theorem yields_definitionOrSkip :
    Yields T definitionOrSkip fun o => ∀ x ∈ o, T.Covers x.nameIds := by
  unfold definitionOrSkip
  have hdefinition : Yields T definition? fun o => ∀ x ∈ o, T.Covers x.nameIds :=
    ofBound yields_definitionUpTo
  refine @Yields.bind _ _ T _ _ _ _ (fun o => ?_) hdefinition fun o ho => ?_
  · split <;> infer_instance
  · split
    · exact done ho
    · exact skip fun _ => Yields.none

theorem yields_document : Yields T document fun d => T.Covers d.nameIds := by
  unfold document
  exact skip fun _ => yields_definitionOrSkip.many.bind fun _ h => skip fun _ =>
    done (covers_flatMap.2 (forall_mem_filterMap_id h))

end Reader

/-- **Every name of a document is listed**, in a schema with errors too. -/
theorem covers_parse (source : String) :
    (parse source).names.Covers (parse source).document.nameIds :=
  Reader.yields_document (State.start source) List.prefix_rfl

end Schema

end SchemaToFlow
