import SchemaToFlow.Proofs.Lexing
import SchemaToFlow.Proofs.Scanning

/-!
# The code shows the whole program

The code that is generated from a schema determines the program, whatever the layout
(`generate_faithful`): `Program.read?` reads the program back from it. Names that are given as types
must be none of `string`, `number` and `empty`, since these words mean something else in the code.

* `isName_of_mem_nameIds`: in a schema without errors, every name is a name of the language.
* `readable_flow`: so the program is one that can be read back.
-/

namespace SchemaToFlow

open SchemaToFlow.Flow

namespace Schema

/-! ## The names of a schema without errors -/

variable {source : String}

theorem isName_of_mem_names (h : (parse source).report.hasErrors = false) :
    ∀ n ∈ (parse source).names.names, isName n = true := by
  have hstart : (State.start source).Named (isName · = true) := by
    refine ⟨isName_of_mem_tokens _, fun _ => ?_⟩
    show ∀ n ∈ NameTable.builtinScalars, isName n = true
    decide
  have hleads : (State.start source).Leads (Reader.document (State.start source)).2 :=
    Reader.Forward.leads _
  exact (hleads.named _ hstart).names h

/-- **In a schema without errors every name is a name of the language.** -/
theorem isName_of_mem_nameIds (h : (parse source).report.hasErrors = false) :
    ∀ id ∈ (parse source).document.nameIds, isName ((parse source).names.text id) = true := by
  intro id hid
  have hlt : id.index < (parse source).names.names.length := covers_parse source id hid
  refine isName_of_mem_names h _ ?_
  rw [NameTable.text, List.getElem?_eq_getElem hlt]
  exact List.getElem_mem hlt

/-! ## Names given as types -/

/-- The names that a field gives as types: those of its arguments and its own. -/
def Field.typeIds (f : Field) : List NameId :=
  f.arguments.map (·.type.target.id) ++ [f.type.target.id]

/-- The names that a definition gives as types. -/
def Definition.typeIds : Definition → List NameId
  | .schema d => d.operations.map (·.type.id)
  | .object d | .interface d => d.fields.flatMap Field.typeIds
  | .union d => d.members.map (·.id)
  | .input d => d.fields.map (·.type.target.id)
  | .enum _ | .scalar _ | .directive _ => []

/-- The names that a document gives as types. -/
def Document.typeIds (d : Document) : List NameId := d.definitions.flatMap Definition.typeIds

/-! ## Programs of schemas -/

section Readable

variable {names : NameTable}

theorem plain_flowNamed {n : String} (hn : isName n = true) (hword : isOwnWord n = true) :
    (flowNamed n).plain = true ∧ (flowNamed n).ofUnion = true := by
  unfold flowNamed
  split
  · exact ⟨rfl, rfl⟩
  · exact ⟨rfl, rfl⟩
  · exact ⟨rfl, rfl⟩
  · exact ⟨Bool.and_eq_true_iff.2 ⟨hn, hword⟩, Bool.and_eq_true_iff.2 ⟨hn, hword⟩⟩

theorem plain_flow {type : TypeRef} (hn : ∀ id ∈ type.nameIds, isName (names.text id) = true)
    (hword : isOwnWord (names.text type.target.id) = true) : (type.flow names).plain = true := by
  induction type with
  | named n => exact (plain_flowNamed (hn n.id List.mem_cons_self) hword).1
  | nonNull inner span ih => exact ih hn hword
  | list item span ih =>
    cases item with
    | named n =>
      have hplain := (plain_flowNamed (hn n.id List.mem_cons_self) hword).1
      rw [TypeRef.flow]
      cases htype : flowNamed (names.text n.id) with
      | identifier m =>
        rw [htype] at hplain
        exact hplain
      | _ =>
        rw [htype] at hplain
        exact hplain
    | list item' span' => exact ih hn hword
    | nonNull inner span' => exact ih hn hword

theorem plain_propertyOfType {n : String} (hname : isName n = true) {type : TypeRef}
    (htype : (type.flow names).plain = true) : (propertyOfType names n [] type).plain = true := by
  refine Bool.and_eq_true_iff.2 ⟨hname, ?_⟩
  show (if type.isNonNull then type.flow names else .nullable (type.flow names)).plain = true
  split
  · exact htype
  · exact htype

theorem readable_of_plain {p : Property} (h : p.plain = true) : p.readable = true := by
  obtain ⟨hname, htype⟩ := Bool.and_eq_true_iff.1 h
  refine Bool.and_eq_true_iff.2 ⟨hname, ?_⟩
  obtain ⟨name, type, optional⟩ := p
  cases type with
  | function params returns => cases htype
  | _ => exact htype

theorem plain_inputValue {v : InputValue} (hn : ∀ id ∈ v.nameIds, isName (names.text id) = true)
    (hword : isOwnWord (names.text v.type.target.id) = true) :
    (v.property names).plain = true := by
  simp only [InputValue.nameIds, List.forall_mem_cons, List.forall_mem_append] at hn
  exact plain_propertyOfType hn.1 (plain_flow hn.2.1.1 hword)

theorem readable_field {f : Field} (hn : ∀ id ∈ f.nameIds, isName (names.text id) = true)
    (hword : ∀ id ∈ f.typeIds, isOwnWord (names.text id) = true) :
    (f.property names).readable = true := by
  simp only [Field.nameIds, List.forall_mem_cons, List.forall_mem_append] at hn
  simp only [Field.typeIds, List.forall_mem_append, List.forall_mem_map,
    List.forall_mem_singleton] at hword
  have htype := plain_flow hn.2.1.2 hword.2
  have harguments : (f.arguments.map (InputValue.property names)).all Property.plain = true := by
    refine List.all_eq_true.2 (List.forall_mem_map.2 fun v hv => ?_)
    exact plain_inputValue (fun id hid => hn.2.1.1 id (List.mem_flatMap.2 ⟨v, hv, hid⟩))
      (hword.1 v hv)
  unfold Field.property
  cases hargs : f.arguments.map (InputValue.property names) with
  | nil => exact readable_of_plain (plain_propertyOfType hn.1 htype)
  | cons a as =>
    rw [hargs] at harguments
    have hvalue := (Bool.and_eq_true_iff.1
      (plain_propertyOfType (n := names.text f.name.id) hn.1 htype)).2
    refine Bool.and_eq_true_iff.2 ⟨hn.1, ?_⟩
    show (!(a :: as).isEmpty && (a :: as).all Property.plain && !false && _) = true
    rw [harguments]
    exact hvalue

theorem readable_operation {o : RootOperation} (hn : isName (names.text o.type.id) = true)
    (hword : isOwnWord (names.text o.type.id) = true) : (o.property names).readable = true := by
  refine readable_of_plain (Bool.and_eq_true_iff.2 ⟨?_, (plain_flowNamed hn hword).1⟩)
  show isName o.operation.spelling = true
  cases o.operation <;> decide

theorem all_map_of_mem {α β : Type} {f : α → β} {p : β → Bool} {as : List α}
    (h : ∀ a ∈ as, p (f a) = true) : (as.map f).all p = true :=
  List.all_eq_true.2 (List.forall_mem_map.2 h)

theorem readable_fields {fs : List Field}
    (hn : ∀ id ∈ fs.flatMap Field.nameIds, isName (names.text id) = true)
    (hword : ∀ id ∈ fs.flatMap Field.typeIds, isOwnWord (names.text id) = true) :
    (fs.map (Field.property names)).all Property.readable = true :=
  all_map_of_mem fun f hf => readable_field (fun id hid => hn id (List.mem_flatMap.2 ⟨f, hf, hid⟩))
    fun id hid => hword id (List.mem_flatMap.2 ⟨f, hf, hid⟩)

theorem readable_declaration {exact : Bool} {x : Definition} {d : Declaration}
    (hn : ∀ id ∈ x.nameIds, isName (names.text id) = true)
    (hword : ∀ id ∈ x.typeIds, isOwnWord (names.text id) = true)
    (h : x.declaration? names exact = some d) : d.readable = true := by
  cases x <;> simp only [Definition.nameIds, Definition.typeIds, List.forall_mem_cons,
    List.forall_mem_append, List.forall_mem_map] at hn hword
  case schema x =>
    obtain rfl := Option.some.inj h
    have hschema : isName "schema" = true := by decide
    refine Bool.and_eq_true_iff.2 ⟨hschema, all_map_of_mem fun o ho => ?_⟩
    exact readable_operation (hn.2 o ho) (hword o ho)
  case object x =>
    have hfields := readable_fields hn.2.2 hword
    rw [Definition.declaration?] at h
    cases hinterfaces : x.interfaces with
    | nil =>
      rw [hinterfaces] at h
      obtain rfl := Option.some.inj h
      exact Bool.and_eq_true_iff.2 ⟨hn.1, hfields⟩
    | cons i is =>
      have hsupers := all_map_of_mem hn.2.1.1
      rw [hinterfaces] at h hsupers
      obtain rfl := Option.some.inj h
      exact Bool.and_eq_true_iff.2 ⟨Bool.and_eq_true_iff.2 ⟨hn.1, hsupers⟩, hfields⟩
  case interface x =>
    obtain rfl := Option.some.inj h
    exact Bool.and_eq_true_iff.2 ⟨Bool.and_eq_true_iff.2 ⟨hn.1, rfl⟩, readable_fields hn.2.2 hword⟩
  case union x =>
    obtain rfl := Option.some.inj h
    refine Bool.and_eq_true_iff.2 ⟨hn.1, all_map_of_mem fun n hmem => ?_⟩
    exact (plain_flowNamed (hn.2.2 n hmem) (hword n hmem)).2
  case enum x =>
    obtain rfl := Option.some.inj h
    refine Bool.and_eq_true_iff.2 ⟨hn.1, all_map_of_mem fun v hv => ?_⟩
    exact hn.2.2 v.name.id (List.mem_flatMap.2 ⟨v, hv, List.mem_cons_self⟩)
  case input x =>
    obtain rfl := Option.some.inj h
    refine Bool.and_eq_true_iff.2 ⟨hn.1, all_map_of_mem fun v hv => readable_of_plain ?_⟩
    exact plain_inputValue (fun id hid => hn.2.2 id (List.mem_flatMap.2 ⟨v, hv, hid⟩)) (hword v hv)
  case scalar x =>
    obtain rfl := Option.some.inj h
    exact hn.1
  case directive x => cases h

theorem readable_flow {d : Document} (exact : Bool)
    (hn : ∀ id ∈ d.nameIds, isName (names.text id) = true)
    (hword : ∀ id ∈ d.typeIds, isOwnWord (names.text id) = true) :
    (d.flow names exact).readable = true := by
  refine List.all_eq_true.2 fun decl hdecl => ?_
  obtain ⟨n, _, hbind⟩ := List.mem_filterMap.1 hdecl
  obtain ⟨x, hx, hdeclaration⟩ := Option.bind_eq_some_iff.1 hbind
  have hmem : x ∈ d.definitions := List.mem_reverse.1 (List.mem_of_find?_eq_some hx)
  exact readable_declaration (fun id hid => hn id (List.mem_flatMap.2 ⟨x, hmem, hid⟩))
    (fun id hid => hword id (List.mem_flatMap.2 ⟨x, hmem, hid⟩)) hdeclaration

end Readable

end Schema

open Schema

theorem read?_code {source : String} {options : GenerateOptions} {g : Generated}
    (h : generate source options = .ok g)
    (hword : ∀ id ∈ (parse source).document.typeIds,
      isOwnWord ((parse source).names.text id) = true) :
    Program.read? g.code = some g.program := by
  have hclean : (parse source).report.hasErrors = false := by
    cases herrors : (parse source).report.hasErrors with
    | false => rfl
    | true =>
      rw [generate_of_errors herrors] at h
      cases h
  rw [generate_eq_flow hclean] at h
  obtain rfl := Except.ok.inj h
  exact Program.read?_print (readable_flow options.exact (isName_of_mem_nameIds hclean) hword) _

/-- **The code shows the whole program.** Let no name that is given as a type be `string`, `number`
or `empty`. Then the program is read back from the code, so that two schemas with the same code have
the same program, whether objects are exact or not and however the code is laid out. -/
theorem generate_faithful (s s' : String) (o o' : GenerateOptions) (g g' : Generated)
    (h : generate s o = .ok g) (h' : generate s' o' = .ok g')
    (hs : ∀ id ∈ (parse s).document.typeIds,
      (parse s).names.text id ∉ ["string", "number", "empty"])
    (hs' : ∀ id ∈ (parse s').document.typeIds,
      (parse s').names.text id ∉ ["string", "number", "empty"]) :
    Program.read? g.code = some g.program ∧ Program.read? g'.code = some g'.program ∧
      (g.code = g'.code → g.program = g'.program) := by
  have hread := read?_code h fun id hid => decide_eq_true (hs id hid)
  have hread' := read?_code h' fun id hid => decide_eq_true (hs' id hid)
  refine ⟨hread, hread', fun hcode => ?_⟩
  rw [hcode, hread'] at hread
  exact (Option.some.inj hread).symm

/-- A schema with nested types. -/
def shopSource : String :=
  "type Shop \x7b all(n: Int): [[Tea]]! \x7d union Tea = Shop | ID enum Age \x7b NEW \x7d"

/-- Another schema for the same program. -/
def markedShopSource : String :=
  "directive @a on ENUM type Shop\x7ball(n:Int):[[Tea]]!\x7dunion Tea=Shop|ID enum Age@a\x7bNEW\x7d"

theorem generate_faithful_shopSource :
    ∃ g g', generate shopSource {} = .ok g ∧ generate markedShopSource {} = .ok g' ∧
      (∀ id ∈ (parse shopSource).document.typeIds,
        (parse shopSource).names.text id ∉ ["string", "number", "empty"]) ∧
      (∀ id ∈ (parse markedShopSource).document.typeIds,
        (parse markedShopSource).names.text id ∉ ["string", "number", "empty"]) ∧
      Program.read? g.code = some g.program ∧ Program.read? g'.code = some g'.program ∧
      (g.code = g'.code → g.program = g'.program) := by
  have hshop : (parse shopSource).report.hasErrors = false ∧
      ∀ id ∈ (parse shopSource).document.typeIds,
        (parse shopSource).names.text id ∉ ["string", "number", "empty"] := by decide +kernel
  have hmarked : (parse markedShopSource).report.hasErrors = false ∧
      ∀ id ∈ (parse markedShopSource).document.typeIds,
        (parse markedShopSource).names.text id ∉ ["string", "number", "empty"] := by decide +kernel
  obtain ⟨g, hg⟩ := exists_generate_eq_ok hshop.1 {}
  obtain ⟨g', hg'⟩ := exists_generate_eq_ok hmarked.1 {}
  exact ⟨g, g', hg, hg', hshop.2, hmarked.2,
    generate_faithful shopSource markedShopSource {} {} g g' hg hg' hshop.2 hmarked.2⟩

end SchemaToFlow
