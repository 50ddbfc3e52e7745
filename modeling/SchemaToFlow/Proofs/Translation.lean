import SchemaToFlow.Proofs.Placed

/-!
# What a document declares, and in which order

`program_eq_flow` gives the program of a document whose definitions all have names. What follows from
it about single names:

* `program_declares_last_definition`: every name defined is declared once, as its last definition
  says, and nothing else is declared.
* `program_names_by_first_mention`: the names declared are ordered by their first mention. A
  definition comes after what it refers to, as far as it does so before it refers to itself.

A definition that refers to itself first is mentioned by that reference, and its later references
come after it (`order_of_self_reference`).
-/

namespace SchemaToFlow

open Schema SchemaToFlow.Flow

namespace Schema

variable {names : NameTable} {exact : Bool}

/-! ## Names of definitions -/

theorem name?_of_declaration? {x : Definition} {decl : Declaration}
    (h : x.declaration? names exact = some decl) : x.name? names = some decl.name := by
  cases x with
  | directive d => cases h
  | object d =>
    rw [declaration?_object] at h
    cases h
    unfold NodeTree.declarationWith
    split <;> rfl
  | _ =>
    cases h
    rfl

theorem exists_declaration? {x : Definition} {n : String} (h : x.name? names = some n)
    (exact : Bool) : ∃ decl, x.declaration? names exact = some decl := by
  cases x with
  | directive d => cases h
  | object d => exact ⟨_, declaration?_object d⟩
  | _ => exact ⟨_, rfl⟩

namespace Document

variable (names) in
/-- The names defined in a document. -/
def defined (d : Document) : List String := d.definitions.filterMap (Definition.name? names)

variable {d : Document} {n : String}

theorem mem_defined : n ∈ d.defined names ↔ ∃ x ∈ d.definitions, x.name? names = some n :=
  List.mem_filterMap

theorem name?_of_lastNamed? {x : Definition} (h : d.lastNamed? names n = some x) :
    x ∈ d.definitions ∧ x.name? names = some n := by
  constructor
  · exact List.mem_reverse.1 (List.mem_of_find?_eq_some h)
  · have hp := List.find?_some h
    exact of_decide_eq_true hp

theorem exists_lastNamed? (h : n ∈ d.defined names) : ∃ x, d.lastNamed? names n = some x := by
  obtain ⟨x, hx, hn⟩ := mem_defined.1 h
  rw [← Option.isSome_iff_exists, lastNamed?, List.find?_isSome]
  exact ⟨x, List.mem_reverse.2 hx, decide_eq_true hn⟩

/-! ## The declaration of a name -/

variable (names exact d) in
/-- The declaration of a name: that of its last definition. -/
def declarationOf? (n : String) : Option Declaration :=
  (d.lastNamed? names n).bind (Definition.declaration? names exact)

theorem name_of_declarationOf? {decl : Declaration}
    (h : d.declarationOf? names exact n = some decl) : decl.name = n := by
  obtain ⟨x, hx, hdecl⟩ := Option.bind_eq_some_iff.1 h
  have hn := (name?_of_lastNamed? hx).2
  rw [name?_of_declaration? hdecl] at hn
  exact Option.some.inj hn

theorem exists_declarationOf? (exact : Bool) (h : n ∈ d.defined names) :
    ∃ x decl, d.lastNamed? names n = some x ∧ x.declaration? names exact = some decl ∧
      d.declarationOf? names exact n = some decl := by
  obtain ⟨x, hx⟩ := exists_lastNamed? h
  obtain ⟨decl, hdecl⟩ := exists_declaration? (name?_of_lastNamed? hx).2 exact
  refine ⟨x, decl, hx, hdecl, ?_⟩
  rw [declarationOf?, hx]
  exact hdecl

theorem isSome_declarationOf? (exact : Bool) :
    (d.declarationOf? names exact n).isSome = decide (n ∈ d.defined names) := by
  by_cases h : n ∈ d.defined names
  · obtain ⟨_, decl, _, _, hdecl⟩ := exists_declarationOf? exact h
    rw [hdecl, decide_eq_true h]
    rfl
  · rw [decide_eq_false h, Option.isSome_eq_false_iff, Option.isNone_iff_eq_none]
    rw [Option.eq_none_iff_forall_ne_some]
    intro decl hdecl
    obtain ⟨x, hx, _⟩ := Option.bind_eq_some_iff.1 hdecl
    obtain ⟨hmem, hn⟩ := name?_of_lastNamed? hx
    exact h (mem_defined.2 ⟨x, hmem, hn⟩)

/-! ## The names declared -/

theorem body_flow :
    (d.flow names exact).body =
      (firstSeen (d.mentions names)).filterMap (d.declarationOf? names exact) :=
  rfl

/-- Names found by their declarations are the names that have one. -/
theorem map_name_filterMap (ns : List String) :
    (ns.filterMap (d.declarationOf? names exact)).map Declaration.name =
      ns.filter fun n => n ∈ d.defined names := by
  induction ns with
  | nil => rfl
  | cons n ns ih =>
    rw [List.filter_cons, ← isSome_declarationOf? exact]
    cases h : d.declarationOf? names exact n with
    | none =>
      rw [List.filterMap_cons_none h, ih]
      rfl
    | some decl =>
      rw [List.filterMap_cons_some h, List.map_cons, ih, name_of_declarationOf? h]
      rfl

/-- The names declared: those defined, in the order of their first mention. -/
theorem names_flow (d : Document) (names : NameTable) (exact : Bool) :
    (d.flow names exact).names =
      firstSeen ((d.mentions names).filter fun n => n ∈ d.defined names) := by
  rw [Program.names, body_flow, map_name_filterMap, filter_firstSeen]

theorem idxOf_names_flow_lt_iff {m : String} (hn : n ∈ d.defined names)
    (hm : m ∈ d.defined names) :
    (d.flow names exact).names.idxOf n < (d.flow names exact).names.idxOf m ↔
      (d.mentions names).idxOf n < (d.mentions names).idxOf m := by
  rw [names_flow, idxOf_firstSeen_lt_iff]
  exact idxOf_filter_lt_iff (p := fun x => x ∈ d.defined names) (decide_eq_true hn)
    (decide_eq_true hm)

/-- What a definition refers to before it refers to itself is mentioned before its own name, if the
name is not mentioned earlier. -/
theorem idxOf_mentions_lt {x : Definition} {before after : List Definition}
    {first rest : List String} {m : String} (hd : d.definitions = before ++ x :: after)
    (hx : x.references names = first ++ rest)
    (hbefore : n ∉ before.flatMap (Definition.mentions names)) (hfirst : n ∉ first)
    (hm : m ∈ first) : (d.mentions names).idxOf m < (d.mentions names).idxOf n := by
  have hsplit : ∃ tail, d.mentions names =
      (before.flatMap (Definition.mentions names) ++ first) ++ tail := by
    refine ⟨rest ++ (x.name? names).toList ++ after.flatMap (Definition.mentions names), ?_⟩
    rw [mentions, hd, List.flatMap_append, List.flatMap_cons, Definition.mentions, hx]
    simp only [List.append_assoc]
  obtain ⟨tail, htail⟩ := hsplit
  have hmem : m ∈ before.flatMap (Definition.mentions names) ++ first :=
    List.mem_append_right _ hm
  have hnot : n ∉ before.flatMap (Definition.mentions names) ++ first := by
    rw [List.mem_append, not_or]
    exact ⟨hbefore, hfirst⟩
  rw [htail, List.idxOf_append_of_mem hmem, List.idxOf_append_of_notMem hnot]
  exact Nat.lt_of_lt_of_le (List.idxOf_lt_length_of_mem hmem) (Nat.le_add_right _ _)

end Document

end Schema

/-! ## The program of a document -/

/-- A schema with arguments, nested lists and two definitions of `A`, whose first type refers to the
others. -/
def sampleSchema : Parsed :=
  parse "type Q { n(k: [A]): [[N!]] } interface N { i: ID! } scalar A type A implements N { i: ID! }"

theorem name?_sampleSchema_ne :
    ∀ x ∈ sampleSchema.document.definitions, x.name? sampleSchema.names ≠ some "" := by
  decide +kernel

/-- **Names are declared in the order of their first mention.** In the program of a document whose
definitions all have names:

* of two names defined, that one comes first which is mentioned first;
* if the name of a definition is not mentioned before the definition, whatever it refers to before
  it refers to itself comes before it;
* names that are mentioned but not defined play no part. -/
theorem program_names_by_first_mention (p : Parsed) (exact : Bool)
    (hne : ∀ x ∈ p.document.definitions, x.name? p.names ≠ some "") :
    ∃ program, p.program exact = .ok program ∧
      (∀ n ∈ p.document.defined p.names, ∀ m ∈ p.document.defined p.names,
        program.names.idxOf n < program.names.idxOf m ↔
          (p.document.mentions p.names).idxOf n < (p.document.mentions p.names).idxOf m) ∧
      (∀ before x after n first rest, p.document.definitions = before ++ x :: after →
        x.name? p.names = some n → n ∉ before.flatMap (Definition.mentions p.names) →
        x.references p.names = first ++ rest → n ∉ first →
        ∀ m ∈ first, m ∈ p.document.defined p.names →
          program.names.idxOf m < program.names.idxOf n) ∧
      program.names = firstSeen ((p.document.mentions p.names).filter fun n =>
        n ∈ p.document.defined p.names) := by
  refine ⟨p.document.flow p.names exact, program_eq_flow p hne exact, ?_, ?_, ?_⟩
  · intro n hn m hm
    exact Document.idxOf_names_flow_lt_iff hn hm
  · intro before x after n first rest hd hn hbefore hx hfirst m hm hdefined
    have hx' : x ∈ p.document.definitions := by
      rw [hd]
      exact List.mem_append_right _ List.mem_cons_self
    rw [Document.idxOf_names_flow_lt_iff hdefined (Document.mem_defined.2 ⟨x, hx', hn⟩)]
    exact Document.idxOf_mentions_lt hd hx hbefore hfirst hm
  · exact Document.names_flow p.document p.names exact

theorem program_names_by_first_mention_sample :
    (∀ x ∈ sampleSchema.document.definitions, x.name? sampleSchema.names ≠ some "") ∧
      ∃ program, sampleSchema.program true = .ok program ∧ program.names = ["A", "N", "Q"] := by
  obtain ⟨program, hprogram, _, _, hnames⟩ :=
    program_names_by_first_mention sampleSchema true name?_sampleSchema_ne
  refine ⟨name?_sampleSchema_ne, program, hprogram, ?_⟩
  rw [hnames]
  decide +kernel

/-- A schema whose first type refers to itself before it refers to the second. -/
def selfReferring : Parsed := parse "type A { a: A b: B }\ntype B { x: Int }"

/-- The first definition, of `A`, refers to `B`, which is defined; but `A` is declared first, since
it is mentioned first by itself. -/
theorem order_of_self_reference :
    (∀ x ∈ selfReferring.document.definitions, x.name? selfReferring.names ≠ some "") ∧
      ∃ program x after, selfReferring.program true = .ok program ∧
        selfReferring.document.definitions = x :: after ∧
        x.name? selfReferring.names = some "A" ∧ "B" ∈ x.references selfReferring.names ∧
        "B" ∈ selfReferring.document.defined selfReferring.names ∧
        ¬ program.names.idxOf "B" < program.names.idxOf "A" := by
  have hne : ∀ x ∈ selfReferring.document.definitions,
      x.name? selfReferring.names ≠ some "" := by
    decide +kernel
  have hhead : ∃ x ∈ selfReferring.document.definitions.head?,
      x.name? selfReferring.names = some "A" ∧ "B" ∈ x.references selfReferring.names := by
    decide +kernel
  obtain ⟨x, hx, hname, hreference⟩ := hhead
  obtain ⟨after, hafter⟩ := List.head?_eq_some_iff.1 hx
  refine ⟨hne, _, x, after, program_eq_flow selfReferring hne true, hafter, hname, hreference,
    by decide +kernel, ?_⟩
  rw [Document.names_flow]
  decide +kernel

end SchemaToFlow
