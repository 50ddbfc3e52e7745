import SchemaToFlow.Proofs.Rereading

/-!
# Reading undoes writing

Two documents, each with its table of names, are the same up to places and numbers
(`Document.SameAs`) if one is the other with new numbers that stand for the same texts. The main
result, `parse_write`, says that a document that can be written is read back from its text without a
finding, up to places and numbers. It holds for every choice of blanks and quotes.
-/

namespace SchemaToFlow.Schema

/-! ## The names after a change -/

section Names

variable (c : Change)

theorem nameIds_recast_type (type : TypeRef) :
    (recast c type).nameIds = type.nameIds.map c.number := by
  induction type with
  | named name => rfl
  | list item span ih => exact ih
  | nonNull inner span ih => exact ih

mutual

theorem nameIds_recast_value :
    ∀ v : Value, (v.recast c).nameIds = v.nameIds.map c.number
  | .int _ _ | .float _ _ | .string _ _ | .boolean _ _ | .null _ | .enum _ _ => rfl
  | .list items _ => nameIds_recast_items items
  | .object fields _ => nameIds_recast_fields fields

theorem nameIds_recast_items :
    ∀ items : List Value, Value.nameIdsOfItems (Value.recastItems c items) =
      (Value.nameIdsOfItems items).map c.number
  | [] => rfl
  | item :: items => by
    rw [Value.recastItems, Value.nameIdsOfItems, Value.nameIdsOfItems, List.map_append,
      nameIds_recast_value item, nameIds_recast_items items]

theorem nameIds_recast_fields :
    ∀ fields : List (NameId × Value), Value.nameIdsOfFields (Value.recastFields c fields) =
      (Value.nameIdsOfFields fields).map c.number
  | [] => rfl
  | (name, value) :: fields => by
    rw [Value.recastFields, Value.nameIdsOfFields, Value.nameIdsOfFields, List.map_cons,
      List.map_append, nameIds_recast_value value, nameIds_recast_fields fields]

end

theorem nameIds_recast_list {α : Type} [Recast α] {ids : α → List NameId}
    (h : ∀ a, ids (recast c a) = (ids a).map c.number) (as : List α) :
    (recast c as).flatMap ids = (as.flatMap ids).map c.number := by
  rw [flatMap_recast h, List.map_flatMap]

theorem map_id_recast (ns : List Name) :
    (recast c ns).map (·.id) = (ns.map (·.id)).map c.number := by
  rw [map_recast (g := fun n => c.number n.id) (fun _ => rfl), List.map_map]
  rfl

theorem nameIds_recast_argument (a : Argument) :
    (recast c a).nameIds = a.nameIds.map c.number :=
  congrArg (c.number a.name.id :: ·) (nameIds_recast_value c a.value)

theorem nameIds_recast_directive (d : Directive) :
    (recast c d).nameIds = d.nameIds.map c.number :=
  congrArg (c.number d.name.id :: ·) (nameIds_recast_list c (nameIds_recast_argument c) d.arguments)

theorem nameIds_recast_directives (ds : List Directive) :
    (recast c ds).flatMap Directive.nameIds = (ds.flatMap Directive.nameIds).map c.number :=
  nameIds_recast_list c (nameIds_recast_directive c) ds

theorem nameIds_recast_default (v : Option Value) :
    (recast c v).toList.flatMap Value.nameIds =
      (v.toList.flatMap Value.nameIds).map c.number := by
  cases v with
  | none => rfl
  | some v =>
    show (v.recast c).nameIds ++ [] = (v.nameIds ++ []).map c.number
    rw [List.append_nil, List.append_nil, nameIds_recast_value]

theorem nameIds_recast_inputValue (v : InputValue) :
    (recast c v).nameIds = v.nameIds.map c.number := by
  show c.number v.name.id :: ((recast c v.type).nameIds ++
    (recast c v.default?).toList.flatMap Value.nameIds ++
    (recast c v.directives).flatMap Directive.nameIds) = _
  rw [nameIds_recast_type, nameIds_recast_default, nameIds_recast_directives,
    ← List.map_append, ← List.map_append]
  rfl

theorem nameIds_recast_inputValues (vs : List InputValue) :
    (recast c vs).flatMap InputValue.nameIds = (vs.flatMap InputValue.nameIds).map c.number :=
  nameIds_recast_list c (nameIds_recast_inputValue c) vs

theorem nameIds_recast_field (f : Field) : (recast c f).nameIds = f.nameIds.map c.number := by
  show c.number f.name.id :: ((recast c f.arguments).flatMap InputValue.nameIds ++
    (recast c f.type).nameIds ++ (recast c f.directives).flatMap Directive.nameIds) = _
  rw [nameIds_recast_inputValues, nameIds_recast_type, nameIds_recast_directives,
    ← List.map_append, ← List.map_append]
  rfl

theorem nameIds_recast_enumValue (v : EnumValue) :
    (recast c v).nameIds = v.nameIds.map c.number :=
  congrArg (c.number v.name.id :: ·) (nameIds_recast_directives c v.directives)

theorem nameIds_recast_definition (x : Definition) :
    (recast c x).nameIds = x.nameIds.map c.number := by
  cases x with
  | schema d =>
    show (recast c d.directives).flatMap Directive.nameIds ++
      (recast c d.operations).map (·.type.id) = _
    rw [nameIds_recast_directives,
      map_recast (g := fun o : RootOperation => c.number o.type.id) (fun _ => rfl)]
    simp only [Definition.nameIds, List.map_append, List.map_map, Function.comp_def]
  | object d | interface d =>
    show c.number d.name.id :: ((recast c d.interfaces).map (·.id) ++
      (recast c d.directives).flatMap Directive.nameIds ++
      (recast c d.fields).flatMap Field.nameIds) = _
    rw [map_id_recast, nameIds_recast_directives,
      nameIds_recast_list c (nameIds_recast_field c), ← List.map_append, ← List.map_append]
    rfl
  | union d =>
    show c.number d.name.id :: ((recast c d.directives).flatMap Directive.nameIds ++
      (recast c d.members).map (·.id)) = _
    rw [nameIds_recast_directives, map_id_recast, ← List.map_append]
    rfl
  | enum d =>
    show c.number d.name.id :: ((recast c d.directives).flatMap Directive.nameIds ++
      (recast c d.values).flatMap EnumValue.nameIds) = _
    rw [nameIds_recast_directives, nameIds_recast_list c (nameIds_recast_enumValue c),
      ← List.map_append]
    rfl
  | input d =>
    show c.number d.name.id :: ((recast c d.directives).flatMap Directive.nameIds ++
      (recast c d.fields).flatMap InputValue.nameIds) = _
    rw [nameIds_recast_directives, nameIds_recast_inputValues, ← List.map_append]
    rfl
  | scalar d => exact congrArg (c.number d.name.id :: ·) (nameIds_recast_directives c d.directives)
  | directive d =>
    exact congrArg (c.number d.name.id :: ·) (nameIds_recast_inputValues c d.arguments)

theorem nameIds_recast (d : Document) : (recast c d).nameIds = d.nameIds.map c.number :=
  nameIds_recast_list c (nameIds_recast_definition c) d.definitions

end Names

/-! ## Reading what was written -/

/-- The documents are the same up to places and numbers: numbers can be replaced so that the first
document becomes the second with no place kept, and each new number stands for the same text. -/
def Document.SameAs (names : NameTable) (d : Document) (names' : NameTable) (d' : Document) :
    Prop :=
  ∃ number : NameId → NameId, recast ⟨number, fun _ => 0⟩ d = recast .erase d' ∧
    ∀ id ∈ d.nameIds, names'.text (number id) = names.text id

/-- The number of a listed name stands for the name. -/
theorem text_intern {T : NameTable} {n : String} (h : (T.intern n).1.index < T.size) :
    T.text (T.intern n).1 = n := by
  have hlt : T.names.idxOf n < T.names.length := h
  show T.names[T.names.idxOf n]?.getD "" = n
  rw [List.getElem?_eq_getElem hlt, List.getElem_idxOf hlt]
  rfl

section Write

variable {names : NameTable} (pen : Pen) {d : Document}

/-- Without places, the text of a document is the row of its words. -/
theorem state_write (h : d.writable names = true) (T : NameTable) :
    (Transport.erase T).state (State.start (d.write names pen)) =
      .ofWords (d.words names pen.quoting) .initial := by
  have hwords : (State.start (d.write names pen)).rest.map Token.word =
      d.words names pen.quoting := by
    have h := words_write pen h
    unfold tokenize at h
    rw [List.map_append] at h
    exact List.append_cancel_right h
  have hrest : recast .erase (State.start (d.write names pen)).rest =
      (d.words names pen.quoting).map Word.token := by
    rw [← hwords, List.map_map]
    rfl
  unfold Transport.state State.ofWords
  congr 1

/-- What is read from the text of a document, without its places. -/
theorem document_write (h : d.writable names = true) :
    ∃ t, recast .erase (parse (d.write names pen)).document =
        recast (.into names (parse (d.write names pen)).names) d ∧
      (Transport.erase (parse (d.write names pen)).names).state
        (Reader.document (State.start (d.write names pen))).2 = .ofWords [] t := by
  have hrun := document_erase (d.write names pen)
  rw [state_write pen h] at hrun
  have hwords : Reader.document (.ofWords (d.words names pen.quoting ++ []) .initial) = _ :=
    (List.append_nil (d.words names pen.quoting)).symm ▸ hrun
  have hfinal : (Reader.document (.ofWords (d.words names pen.quoting ++ []) .initial)).2.names =
      (parse (d.write names pen)).names := congrArg (fun r => r.2.names) hwords
  have hprefix : (Reader.document (.ofWords (d.words names pen.quoting ++ [])
      .initial)).2.names.names <+: (parse (d.write names pen)).names.names := by
    rw [hfinal]
  obtain ⟨t, ht⟩ := Reader.reads_document pen.quoting h .initial [] (stops_nil _) hprefix
  obtain ⟨hdocument, hstate⟩ := Prod.mk.inj (hwords.symm.trans ht)
  exact ⟨t, hdocument, hstate⟩

end Write

/-- **Reading undoes writing.** The text of a document that can be written is read without any
finding, and what is read is the document up to places and numbers. -/
theorem parse_write (names : NameTable) (d : Document) (h : d.writable names = true) (pen : Pen) :
    (parse (d.write names pen)).report.entries = [] ∧
      d.SameAs names (parse (d.write names pen)).names (parse (d.write names pen)).document := by
  obtain ⟨t, hdocument, hstate⟩ := document_write pen h
  have hentries : recast .erase (parse (d.write names pen)).report.entries = [] :=
    congrArg (fun s : State => s.report.entries) hstate
  refine ⟨List.map_eq_nil_iff.1 hentries, _, hdocument.symm, fun id hid => text_intern ?_⟩
  -- the numbers of the document that was read are in range of its table
  have hids := congrArg Document.nameIds hdocument
  rw [nameIds_recast, nameIds_recast] at hids
  have hcovers := covers_parse (d.write names pen)
  rw [← List.map_id (parse (d.write names pen)).document.nameIds] at hcovers
  exact (hids ▸ hcovers) _ (List.mem_map_of_mem hid)

/-- Names for `shelfDocument`, keywords among them. -/
def shelfNames : NameTable :=
  ⟨["type", "Named", "input", "since", "year", "books", "where", "Filter", "in", "FICTION", "Item",
    "Book", "on", "Int"], by decide⟩

/-- A schema that nests types and constants, with a text that only block quotes can hold. -/
def shelfDocument : Document :=
  let here : Text.Span := ⟨4, 9⟩
  let name (i : Nat) : Name := ⟨⟨i⟩, here⟩
  let shelf : FieldsDefinition :=
    ⟨some ⟨"an \"old\" shelf", here⟩, name 0, [name 1, name 2],
      [⟨name 3, [⟨name 4, .int (-1987) here, here⟩], here⟩],
      [⟨none, name 5,
        [⟨none, name 6, .named (name 7),
          some (.object [(⟨8⟩, .list [.enum ⟨9⟩ here, .string "a" here, .null here] here)] here),
          [], here⟩],
        .nonNull (.list (.nonNull (.named (name 11)) here) here) here, [], here⟩], here⟩
  let genre : EnumDefinition :=
    ⟨none, name 10, [],
      [⟨some ⟨"", here⟩, name 9, [⟨name 3, [], here⟩], here⟩, ⟨none, name 12, [], here⟩], here⟩
  let since : DirectiveDefinition :=
    ⟨none, name 3, [⟨none, name 4, .named (name 13), some (.boolean true here), [], here⟩], true,
      [.object, .enumValue], here⟩
  ⟨[.object shelf, .union ⟨none, name 10, [], [name 11, name 0], here⟩, .enum genre,
    .directive since, .scalar ⟨none, name 13, [], here⟩], here⟩

theorem parse_write_shelfDocument :
    shelfDocument.writable shelfNames = true ∧
      (parse (shelfDocument.write shelfNames .plain)).report.entries = [] ∧
      shelfDocument.SameAs shelfNames (parse (shelfDocument.write shelfNames .plain)).names
        (parse (shelfDocument.write shelfNames .plain)).document := by
  have h : shelfDocument.writable shelfNames = true := by decide +kernel
  exact ⟨h, parse_write shelfNames shelfDocument h .plain⟩

end SchemaToFlow.Schema
