import SchemaToFlow.Proofs.Direct

/-!
# Other numbers and places for one document

Two documents may differ only in the numbers of their names and in the places they were read from. A
`Change` tells how numbers and offsets are replaced, and `recast` carries it out in every part of a
document, in tokens and in findings.

* `Change.erase` keeps the numbers and forgets all places: documents that agree after it agree up to
  spans.
* `Document.flow_recast`: a change that keeps the texts of all names keeps the program.
-/

namespace SchemaToFlow

open Text SchemaToFlow.Flow

namespace Schema

/-- New numbers for names and new offsets for places. -/
structure Change where
  number : NameId → NameId
  place : Nat → Nat

/-- Forgets every place and keeps all numbers. -/
def Change.erase : Change := ⟨id, fun _ => 0⟩

/-- Things that mention names by number and places by offset. -/
class Recast (α : Type) where
  /-- The same thing with other numbers and places. -/
  recast : Change → α → α

export Recast (recast)

/-! ## Parts without numbers and places -/

instance : Recast Unit := ⟨fun _ u => u⟩
instance : Recast Bool := ⟨fun _ b => b⟩
instance : Recast Location := ⟨fun _ l => l⟩

/-! ## Numbers, places and collections -/

instance : Recast NameId := ⟨Change.number⟩
instance : Recast Span := ⟨fun c s => ⟨c.place s.start, c.place s.stop⟩⟩
instance : Recast Token := ⟨fun c t => { t with span := recast c t.span }⟩
instance : Recast Diagnostic :=
  ⟨fun c d => { d with labels := d.labels.map fun l => ⟨recast c l.span, l.message⟩ }⟩

section Collections

variable {α β : Type} [Recast α] [Recast β]

instance : Recast (List α) := ⟨fun c as => as.map (recast c)⟩
instance : Recast (Option α) := ⟨fun c o => o.map (recast c)⟩
instance : Recast (α × β) := ⟨fun c p => (recast c p.1, recast c p.2)⟩

end Collections

/-! ## Documents -/

instance : Recast Name := ⟨fun c n => ⟨recast c n.id, recast c n.span⟩⟩
instance : Recast Description := ⟨fun c d => ⟨d.value, recast c d.span⟩⟩

/-- A type with other numbers and places. -/
def TypeRef.recast (c : Change) : TypeRef → TypeRef
  | .named name => .named (Recast.recast c name)
  | .list item span => .list (item.recast c) (Recast.recast c span)
  | .nonNull inner span => .nonNull (inner.recast c) (Recast.recast c span)

instance : Recast TypeRef := ⟨TypeRef.recast⟩

mutual

/-- A constant with other numbers and places. -/
def Value.recast (c : Change) : Value → Value
  | .int value span => .int value (Recast.recast c span)
  | .float bits span => .float bits (Recast.recast c span)
  | .string value span => .string value (Recast.recast c span)
  | .boolean value span => .boolean value (Recast.recast c span)
  | .null span => .null (Recast.recast c span)
  | .enum name span => .enum (c.number name) (Recast.recast c span)
  | .list items span => .list (Value.recastItems c items) (Recast.recast c span)
  | .object fields span => .object (Value.recastFields c fields) (Recast.recast c span)

/-- Constants with other numbers and places. -/
def Value.recastItems (c : Change) : List Value → List Value
  | [] => []
  | item :: items => item.recast c :: Value.recastItems c items

/-- The fields of a constant with other numbers and places. -/
def Value.recastFields (c : Change) : List (NameId × Value) → List (NameId × Value)
  | [] => []
  | (name, value) :: fields => (c.number name, value.recast c) :: Value.recastFields c fields

end

instance : Recast Value := ⟨Value.recast⟩

instance : Recast Argument := ⟨fun c a => ⟨recast c a.name, recast c a.value, recast c a.span⟩⟩

instance : Recast Directive :=
  ⟨fun c d => ⟨recast c d.name, recast c d.arguments, recast c d.span⟩⟩

instance : Recast InputValue :=
  ⟨fun c v => ⟨recast c v.description, recast c v.name, recast c v.type, recast c v.default?,
    recast c v.directives, recast c v.span⟩⟩

instance : Recast Field :=
  ⟨fun c f => ⟨recast c f.description, recast c f.name, recast c f.arguments, recast c f.type,
    recast c f.directives, recast c f.span⟩⟩

instance : Recast RootOperation :=
  ⟨fun c o => ⟨o.operation, recast c o.type, recast c o.span⟩⟩

instance : Recast SchemaDefinition :=
  ⟨fun c d => ⟨recast c d.description, recast c d.directives, recast c d.operations,
    recast c d.span⟩⟩

instance : Recast FieldsDefinition :=
  ⟨fun c d => ⟨recast c d.description, recast c d.name, recast c d.interfaces,
    recast c d.directives, recast c d.fields, recast c d.span⟩⟩

instance : Recast UnionDefinition :=
  ⟨fun c d => ⟨recast c d.description, recast c d.name, recast c d.directives,
    recast c d.members, recast c d.span⟩⟩

instance : Recast EnumValue :=
  ⟨fun c v => ⟨recast c v.description, recast c v.name, recast c v.directives, recast c v.span⟩⟩

instance : Recast EnumDefinition :=
  ⟨fun c d => ⟨recast c d.description, recast c d.name, recast c d.directives,
    recast c d.values, recast c d.span⟩⟩

instance : Recast InputDefinition :=
  ⟨fun c d => ⟨recast c d.description, recast c d.name, recast c d.directives,
    recast c d.fields, recast c d.span⟩⟩

instance : Recast ScalarDefinition :=
  ⟨fun c d => ⟨recast c d.description, recast c d.name, recast c d.directives, recast c d.span⟩⟩

instance : Recast DirectiveDefinition :=
  ⟨fun c d => ⟨recast c d.description, recast c d.name, recast c d.arguments, d.repeatable,
    d.locations, recast c d.span⟩⟩

/-- A definition with other numbers and places. -/
def Definition.recast (c : Change) : Definition → Definition
  | .schema d => .schema (Recast.recast c d)
  | .object d => .object (Recast.recast c d)
  | .interface d => .interface (Recast.recast c d)
  | .union d => .union (Recast.recast c d)
  | .enum d => .enum (Recast.recast c d)
  | .input d => .input (Recast.recast c d)
  | .scalar d => .scalar (Recast.recast c d)
  | .directive d => .directive (Recast.recast c d)

instance : Recast Definition := ⟨Definition.recast⟩

instance : Recast Document := ⟨fun c d => ⟨recast c d.definitions, recast c d.span⟩⟩

section Lemmas

variable {α : Type} [Recast α] (c : Change)

theorem recastItems_eq (items : List Value) : Value.recastItems c items = recast c items := by
  induction items with
  | nil => rfl
  | cons item items ih => rw [Value.recastItems, ih]; rfl

theorem recastFields_eq (fields : List (NameId × Value)) :
    Value.recastFields c fields = recast c fields := by
  induction fields with
  | nil => rfl
  | cons field fields ih => rw [Value.recastFields, ih]; rfl

theorem recast_locations (ls : List Location) : recast c ls = ls := List.map_id ls

theorem recast_location? (l : Option Location) : recast c l = l := Option.map_id'

theorem recast_filterMap_id (os : List (Option α)) :
    recast c (os.filterMap id) = (recast c os).filterMap id := by
  show (os.filterMap id).map (recast c) = (os.map (recast c)).filterMap id
  rw [List.map_filterMap, List.filterMap_map]
  rfl

end Lemmas

/-! ## The program after a change -/

section Flow

variable {names names' : NameTable} {c : Change}

theorem isNonNull_recast (type : TypeRef) : (recast c type).isNonNull = type.isNonNull := by
  cases type <;> rfl

theorem target_recast (type : TypeRef) : (recast c type).target = recast c type.target := by
  induction type with
  | named name => rfl
  | list item span ih => exact ih
  | nonNull inner span ih => exact ih

/-- The change keeps the text of every name. -/
def KeepsTexts (names names' : NameTable) (c : Change) : Prop :=
  ∀ id, names'.text (c.number id) = names.text id

theorem map_recast {α β : Type} [Recast α] {f g : α → β} (h : ∀ a, f (recast c a) = g a)
    (as : List α) : (recast c as).map f = as.map g := by
  show (as.map (recast c)).map f = _
  rw [List.map_map]
  exact List.map_congr_left fun a _ => h a

theorem flatMap_recast {α β : Type} [Recast α] {f g : α → List β} (h : ∀ a, f (recast c a) = g a)
    (as : List α) : (recast c as).flatMap f = as.flatMap g := by
  rw [List.flatMap_def, List.flatMap_def, map_recast h]

section Keeps

variable (h : KeepsTexts names names' c)
include h

theorem flow_recast_type (type : TypeRef) : (recast c type).flow names' = type.flow names := by
  induction type with
  | named name => exact congrArg flowNamed (h name.id)
  | nonNull inner span ih => exact ih
  | list item span ih =>
    cases item with
    | named name =>
      have htext : names'.text (recast c name).id = names.text name.id := h name.id
      show (TypeRef.list (.named (recast c name)) (recast c span)).flow names' = _
      rw [TypeRef.flow, TypeRef.flow, htext]
    | list item span' => exact congrArg TypeExpr.array ih
    | nonNull inner span' => exact congrArg TypeExpr.array ih

theorem propertyOfType_recast (n : String) (arguments : List Property) (type : TypeRef) :
    propertyOfType names' n arguments (recast c type) = propertyOfType names n arguments type := by
  unfold propertyOfType
  rw [isNonNull_recast, flow_recast_type h]

theorem property_recast_inputValue (v : InputValue) :
    (recast c v).property names' = v.property names := by
  show propertyOfType names' (names'.text (c.number v.name.id)) [] (recast c v.type) = _
  rw [h, propertyOfType_recast h]
  rfl

theorem property_recast_field (f : Field) : (recast c f).property names' = f.property names := by
  show propertyOfType names' (names'.text (c.number f.name.id))
    ((recast c f.arguments).map (InputValue.property names')) (recast c f.type) = _
  rw [h, propertyOfType_recast h, map_recast (property_recast_inputValue h)]
  rfl

theorem property_recast_operation (o : RootOperation) :
    (recast c o).property names' = o.property names := by
  show (⟨o.operation.spelling, flowNamed (names'.text (c.number o.type.id)), false⟩ : Property) = _
  rw [h]
  rfl

theorem text_recast (n : Name) : names'.text (recast c n).id = names.text n.id := h n.id

theorem name?_recast (x : Definition) : (recast c x).name? names' = x.name? names := by
  cases x with
  | schema d | directive d => rfl
  | object d | interface d | union d | enum d | input d | scalar d =>
    exact congrArg some (h d.name.id)

theorem declaration?_recast (exact : Bool) (x : Definition) :
    (recast c x).declaration? names' exact = x.declaration? names exact := by
  have hfields := map_recast (property_recast_field h)
  have hvalues := map_recast (property_recast_inputValue h)
  cases x with
  | schema d =>
    show some (Declaration.typeAlias "schema"
      (.object ⟨(recast c d.operations).map (RootOperation.property names'), exact⟩)) = _
    rw [map_recast (property_recast_operation h)]
    rfl
  | object d =>
    obtain ⟨description, name, interfaces, directives, fields, span⟩ := d
    cases interfaces with
    | nil =>
      show some (Declaration.typeAlias (names'.text (c.number name.id))
        (.object ⟨(recast c fields).map (Field.property names'), exact⟩)) = _
      rw [h, hfields]
      rfl
    | cons first rest =>
      show some (Declaration.interface (names'.text (c.number name.id))
        ((recast c (first :: rest)).map fun n => names'.text n.id)
        ⟨(recast c fields).map (Field.property names'), false⟩) = _
      rw [h, hfields, map_recast (text_recast h)]
      rfl
  | interface d =>
    show some (Declaration.interface (names'.text (c.number d.name.id)) []
      ⟨(recast c d.fields).map (Field.property names'), false⟩) = _
    rw [h, hfields]
    rfl
  | union d =>
    have hmembers : ((recast c d.members).map fun n => flowNamed (names'.text n.id)) =
        d.members.map fun n => flowNamed (names.text n.id) :=
      map_recast (fun n : Name => congrArg flowNamed (text_recast h n)) d.members
    show some (Declaration.typeAlias (names'.text (c.number d.name.id))
      (.union ((recast c d.members).map fun n => flowNamed (names'.text n.id)))) = _
    rw [h, hmembers]
    rfl
  | enum d =>
    have hliterals : ((recast c d.values).map fun v => TypeExpr.literal (names'.text v.name.id)) =
        d.values.map fun v => TypeExpr.literal (names.text v.name.id) :=
      map_recast (fun v : EnumValue => congrArg TypeExpr.literal (text_recast h v.name)) d.values
    show some (Declaration.typeAlias (names'.text (c.number d.name.id))
      (.union ((recast c d.values).map fun v => .literal (names'.text v.name.id)))) = _
    rw [h, hliterals]
    rfl
  | input d =>
    show some (Declaration.typeAlias (names'.text (c.number d.name.id))
      (.object ⟨(recast c d.fields).map (InputValue.property names'), exact⟩)) = _
    rw [h, hvalues]
    rfl
  | scalar d => exact congrArg (fun n => some (Declaration.opaqueType n .any)) (h d.name.id)
  | directive d => rfl

theorem references_recast_type (type : TypeRef) :
    (recast c type).references names' = type.references names := by
  unfold TypeRef.references
  rw [target_recast, text_recast h]

theorem references_recast_field (f : Field) :
    (recast c f).references names' = f.references names := by
  show (recast c f.arguments).flatMap (fun v => v.type.references names') ++
    (recast c f.type).references names' = _
  rw [references_recast_type h,
    flatMap_recast fun v : InputValue => references_recast_type h v.type]
  rfl

theorem namesReferred_recast (ns : List Name) :
    namesReferred names' (recast c ns) = namesReferred names ns := by
  unfold namesReferred
  rw [map_recast (text_recast h)]

theorem references_recast (x : Definition) :
    (recast c x).references names' = x.references names := by
  have hfields := flatMap_recast (references_recast_field h)
  cases x with
  | schema d =>
    show namesReferred names' ((recast c d.operations).map RootOperation.type) = _
    have htypes : (recast c d.operations).map RootOperation.type =
        recast c (d.operations.map RootOperation.type) := by
      show (d.operations.map (recast c)).map RootOperation.type =
        (d.operations.map RootOperation.type).map (recast c)
      rw [List.map_map, List.map_map]
      rfl
    rw [htypes, namesReferred_recast h]
    rfl
  | object d =>
    show namesReferred names' (recast c d.interfaces) ++
      (recast c d.fields).flatMap (Field.references names') = _
    rw [namesReferred_recast h, hfields]
    rfl
  | interface d => exact hfields d.fields
  | union d => exact namesReferred_recast h d.members
  | input d => exact flatMap_recast (fun v : InputValue => references_recast_type h v.type) d.fields
  | enum d | scalar d | directive d => rfl

theorem mentions_recast (x : Definition) : (recast c x).mentions names' = x.mentions names := by
  unfold Definition.mentions
  rw [references_recast h, name?_recast h]

/-- **A change that keeps the texts of all names keeps the program.** -/
theorem flow_recast (exact : Bool) (d : Document) :
    (recast c d).flow names' exact = d.flow names exact := by
  have hmentions : (recast c d).mentions names' = d.mentions names :=
    flatMap_recast (mentions_recast h) d.definitions
  have hlast (n : String) :
      ((recast c d).lastNamed? names' n).bind (Definition.declaration? names' exact) =
        (d.lastNamed? names n).bind (Definition.declaration? names exact) := by
    show (((d.definitions.map (recast c)).reverse.find? fun x => x.name? names' = some n).bind
      (Definition.declaration? names' exact)) = _
    rw [← List.map_reverse, List.find?_map, Option.bind_map]
    unfold Document.lastNamed?
    simp only [Function.comp_def, name?_recast h, declaration?_recast h]
  unfold Document.flow
  rw [hmentions]
  simp only [hlast]

end Keeps

end Flow

end Schema

end SchemaToFlow
