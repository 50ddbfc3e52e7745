import SchemaToFlow.Proofs.Steps

/-!
# The outline of a document

What matters about a document when only places are of interest is an `Outline`: a part of the
source with the name that stands there, if it is one, and the parts in it. `Document.outline` leaves
nothing out that has a span. The parts in a part stand in the order in which they are written; a
description is a part of its own, right before the part it documents.

* `Outline.Sound`: the span fits the source, and a name has the text that stands there, or none.
* `Outline.Neat`: the parts in it lie within its span, one after the other, and a name has a text.
* `Drawing`: what is known about the parts read so far while a bigger part is being read. Reading on
  adds parts at the end (`Drawing.append`), and at its end the bigger part takes them in
  (`Drawing.wrap`).
-/

namespace SchemaToFlow.Schema

open Text

/-- A part of a source, the name it is, and the parts in it. -/
inductive Outline where
  | part (span : Span) (name? : Option NameId) (inner : List Outline)

namespace Outline

/-- Where the part stands. -/
def span : Outline → Span
  | part span _ _ => span

/-- The name that stands there. -/
def name? : Outline → Option NameId
  | part _ name? _ => name?

/-- The parts in it. -/
def inner : Outline → List Outline
  | part _ _ inner => inner

mutual

/-- The part and all that are in it, at any depth. -/
def parts : Outline → List Outline
  | part span name? inner => part span name? inner :: partsOf inner

/-- The parts and all that are in them. -/
def partsOf : List Outline → List Outline
  | [] => []
  | o :: os => o.parts ++ partsOf os

end

theorem partsOf_append (os os' : List Outline) :
    partsOf (os ++ os') = partsOf os ++ partsOf os' := by
  induction os with
  | nil => rfl
  | cons o os ih => rw [List.cons_append, partsOf, partsOf, ih, List.append_assoc]

theorem partsOf_singleton (span : Span) (n : Option NameId) (inner : List Outline) :
    partsOf [part span n inner] = part span n inner :: partsOf inner := by
  rw [partsOf, partsOf, List.append_nil, parts]

end Outline

/-! ## Documents -/

/-- A name is a part. -/
def Name.outline (n : Name) : List Outline := [.part n.span (some n.id) []]

/-- A description is a part. -/
def Description.outline (d : Description) : List Outline := [.part d.span none []]

/-- The parts of a type. -/
def TypeRef.outline : TypeRef → List Outline
  | .named name => name.outline
  | .list item span => [.part span none item.outline]
  | .nonNull inner span => [.part span none inner.outline]

mutual

/-- The parts of a constant; the names of its fields have no place of their own. -/
def Value.outline : Value → List Outline
  | .enum name span => [.part span (some name) []]
  | .list items span => [.part span none (Value.outlineOfItems items)]
  | .object fields span => [.part span none (Value.outlineOfFields fields)]
  | .int _ span | .float _ span | .string _ span | .boolean _ span | .null span =>
    [.part span none []]

/-- The parts of a list of constants. -/
def Value.outlineOfItems : List Value → List Outline
  | [] => []
  | item :: items => item.outline ++ Value.outlineOfItems items

/-- The parts of the fields of a constant. -/
def Value.outlineOfFields : List (NameId × Value) → List Outline
  | [] => []
  | (_, value) :: fields => value.outline ++ Value.outlineOfFields fields

end

/-- The parts of a named value handed to a directive. -/
def Argument.outline (a : Argument) : List Outline :=
  [.part a.span none (a.name.outline ++ a.value.outline)]

/-- The parts of a use of a directive. -/
def Directive.outline (d : Directive) : List Outline :=
  [.part d.span none (d.name.outline ++ d.arguments.flatMap Argument.outline)]

/-- A part with its description before it, if there is one. -/
def documented (description : Option Description) (span : Span) (inner : List Outline) :
    List Outline :=
  description.elim [] Description.outline ++ [.part span none inner]

/-- The parts of an input value. -/
def InputValue.outline (v : InputValue) : List Outline :=
  documented v.description v.span (v.name.outline ++ v.type.outline ++
    v.default?.elim [] Value.outline ++ v.directives.flatMap Directive.outline)

/-- The parts of a field. -/
def Field.outline (f : Field) : List Outline :=
  documented f.description f.span (f.name.outline ++ f.arguments.flatMap InputValue.outline ++
    f.type.outline ++ f.directives.flatMap Directive.outline)

/-- The parts of a value of an enumeration. -/
def EnumValue.outline (v : EnumValue) : List Outline :=
  documented v.description v.span (v.name.outline ++ v.directives.flatMap Directive.outline)

/-- The parts of an entry point. -/
def RootOperation.outline (o : RootOperation) : List Outline := [.part o.span none o.type.outline]

/-- The parts of a definition. -/
def Definition.outline : Definition → List Outline
  | .schema d => documented d.description d.span
    (d.directives.flatMap Directive.outline ++ d.operations.flatMap RootOperation.outline)
  | .object d | .interface d => documented d.description d.span
    (d.name.outline ++ d.interfaces.flatMap Name.outline ++
      d.directives.flatMap Directive.outline ++ d.fields.flatMap Field.outline)
  | .union d => documented d.description d.span
    (d.name.outline ++ d.directives.flatMap Directive.outline ++ d.members.flatMap Name.outline)
  | .enum d => documented d.description d.span
    (d.name.outline ++ d.directives.flatMap Directive.outline ++ d.values.flatMap EnumValue.outline)
  | .input d => documented d.description d.span
    (d.name.outline ++ d.directives.flatMap Directive.outline ++
      d.fields.flatMap InputValue.outline)
  | .scalar d => documented d.description d.span
    (d.name.outline ++ d.directives.flatMap Directive.outline)
  | .directive d => documented d.description d.span
    (d.name.outline ++ d.arguments.flatMap InputValue.outline)

/-- A document is one part, and in it are those of its definitions. -/
def Document.outline (d : Document) : Outline :=
  .part d.span none (d.definitions.flatMap Definition.outline)

theorem TypeRef.outline_ne_nil (type : TypeRef) : type.outline ≠ [] := by
  cases type <;> exact List.cons_ne_nil _ _

theorem Value.outlineOfItems_eq (items : List Value) :
    Value.outlineOfItems items = items.flatMap Value.outline := by
  induction items with
  | nil => rfl
  | cons item items ih => rw [Value.outlineOfItems, ih, List.flatMap_cons]

theorem Value.outlineOfFields_eq (fields : List (NameId × Value)) :
    Value.outlineOfFields fields = fields.flatMap fun field => field.2.outline := by
  induction fields with
  | nil => rfl
  | cons field fields ih => rw [Value.outlineOfFields, ih, List.flatMap_cons]

/-! ## Parts in their places -/

/-- The span goes forward, ends within the source and cuts no character. -/
structure FitsIn (source : String) (span : Span) : Prop where
  forward : span.start ≤ span.stop
  within : span.stop ≤ source.utf8ByteSize
  start : String.Pos.Raw.IsValid source ⟨span.start⟩
  stop : String.Pos.Raw.IsValid source ⟨span.stop⟩

namespace Outline

/-- The part stands in the source, and if it is a name, its text is what stands there or is
missing. -/
structure Sound (source : String) (names : NameTable) (o : Outline) : Prop where
  fits : FitsIn source o.span
  name : ∀ id ∈ o.name?, (names.text id).toList = o.span.slice source.toList ∨ names.text id = ""

/-- The parts in it keep their order within the part, and a name is not missing. -/
structure Neat (names : NameTable) (o : Outline) : Prop where
  inside : ∀ i ∈ o.inner, o.span.start ≤ i.span.start ∧ i.span.stop ≤ o.span.stop
  apart : o.inner.Pairwise fun i j => i.span.stop ≤ j.span.start
  named : ∀ id ∈ o.name?, names.text id ≠ ""

end Outline

/-- Parts that follow one another between two places. -/
structure Tidy (names : NameTable) (start stop : Nat) (os : List Outline) : Prop where
  neat : ∀ o ∈ Outline.partsOf os, o.Neat names
  inside : ∀ o ∈ os, start ≤ o.span.start ∧ o.span.stop ≤ stop
  apart : os.Pairwise fun i j => i.span.stop ≤ j.span.start

namespace Tidy

variable {names : NameTable} {start start' stop stop' : Nat} {os os' : List Outline}

theorem nil : Tidy names start stop [] where
  neat := fun _ h => absurd h List.not_mem_nil
  inside := fun _ h => absurd h List.not_mem_nil
  apart := .nil

theorem mono (h : Tidy names start stop os) (hle : stop ≤ stop') : Tidy names start stop' os where
  neat := h.neat
  inside o ho := ⟨(h.inside o ho).1, Nat.le_trans (h.inside o ho).2 hle⟩
  apart := h.apart

/-- Parts that go on where others have ended. -/
theorem append (h : Tidy names start stop os) (h' : Tidy names start' stop' os')
    (hstart : start ≤ start') (hgap : stop ≤ start') (hstop : stop ≤ stop') :
    Tidy names start stop' (os ++ os') where
  neat := by
    rw [Outline.partsOf_append, List.forall_mem_append]
    exact ⟨h.neat, h'.neat⟩
  inside := by
    rw [List.forall_mem_append]
    refine ⟨(h.mono hstop).inside, fun o ho => ⟨?_, (h'.inside o ho).2⟩⟩
    exact Nat.le_trans hstart (h'.inside o ho).1
  apart := by
    refine List.pairwise_append.2 ⟨h.apart, h'.apart, fun i hi j hj => ?_⟩
    calc i.span.stop ≤ stop := (h.inside i hi).2
      _ ≤ start' := hgap
      _ ≤ j.span.start := (h'.inside j hj).1

/-- One part around all of them. -/
theorem wrap (h : Tidy names start stop os) :
    Tidy names start stop [.part ⟨start, stop⟩ none os] where
  neat := by
    rw [Outline.partsOf_singleton, List.forall_mem_cons]
    exact ⟨⟨h.inside, h.apart, fun _ hid => absurd hid (Option.not_mem_none _)⟩, h.neat⟩
  inside := List.forall_mem_singleton.2 ⟨Nat.le_refl _, Nat.le_refl _⟩
  apart := List.pairwise_singleton _ _

end Tidy

/-! ## Parts while they are read -/

/-- The parts read since a place, up to the state. Only without errors do they keep their order, and
if the flag is set, something was taken since then. -/
structure Drawing (source : String) (names : NameTable) (start : Nat) (begun : Bool) (s : State)
    (os : List Outline) : Prop where
  fits : s.Fits source
  valid : String.Pos.Raw.IsValid source ⟨start⟩
  start_le : start ≤ s.current.span.start
  begun_le : begun = true → s.Clean → start ≤ s.lastStop
  sound : ∀ o ∈ Outline.partsOf os, o.Sound source names
  tidy : s.Clean → Tidy names start s.lastStop os

namespace Drawing

variable {source : String} {names : NameTable} {start : Nat} {begun : Bool} {s s' : State}
  {os os' : List Outline}

/-- Nothing is read since the next token. -/
theorem empty (h : s.Fits source) : Drawing source names s.current.span.start false s [] where
  fits := h
  valid := (cutFrom_of_mem_tokenize source _ h.current_mem).valid.1
  start_le := Nat.le_refl _
  begun_le := Bool.noConfusion
  sound := fun _ h => absurd h List.not_mem_nil
  tidy _ := .nil

theorem steps (h : Drawing source names start begun s os) (hs : s.Steps s') :
    Drawing source names start begun s' os where
  fits := hs.fits h.fits
  valid := h.valid
  start_le := Nat.le_trans h.start_le (hs.start_le h.fits)
  begun_le hb hc := Nat.le_trans (h.begun_le hb (hs.clean hc)) (hs.lastStop_le h.fits)
  sound := h.sound
  tidy hc := (h.tidy (hs.clean hc)).mono (hs.lastStop_le h.fits)

theorem take (h : Drawing source names start begun s os) :
    Drawing source names start true s.advance os :=
  { h.steps (.ofStep (.take s)) with
    begun_le := fun _ _ => Nat.le_trans h.start_le (State.start_le_stop h.fits.current_mem) }

/-- After an error the order does not matter. -/
theorem failed (h : Drawing source names start begun s os) (hc : ¬ s.Clean) :
    Drawing source names start true s os :=
  { h with begun_le := fun _ hclean => absurd hclean hc }

theorem loosen (h : Drawing source names start begun s os) :
    Drawing source names start false s os :=
  { h with begun_le := Bool.noConfusion }

/-- Parts that are given up. -/
theorem forget (h : Drawing source names start begun s os) :
    Drawing source names start begun s [] :=
  { h with
    sound := fun _ h => absurd h List.not_mem_nil
    tidy := fun _ => .nil }

theorem append (h : Drawing source names start begun s os)
    (h' : Drawing source names s.current.span.start false s' os') (hs : s.Steps s') :
    Drawing source names start begun s' (os ++ os') :=
  { h.steps hs with
    sound := by
      rw [Outline.partsOf_append, List.forall_mem_append]
      exact ⟨h.sound, h'.sound⟩
    tidy := fun hc => (h.tidy (hs.clean hc)).append (h'.tidy hc) h.start_le h.fits.last
      (hs.lastStop_le h.fits) }

/-- A part without parts. -/
theorem leaf {span : Span} {n : Option NameId} (h : s.Fits source) (hs : s.Steps s')
    (hsound : (Outline.part span n []).Sound source names)
    (hclean : s'.Clean → s.current.span.start ≤ span.start ∧ span.stop ≤ s'.lastStop ∧
      ∀ id ∈ n, names.text id ≠ "") :
    Drawing source names s.current.span.start false s' [.part span n []] := by
  have hempty : Drawing source names s.current.span.start false s' [] := (empty h).steps hs
  refine { hempty with sound := ?_, tidy := fun hc => ?_ }
  · rw [Outline.partsOf_singleton, Outline.partsOf, List.forall_mem_singleton]
    exact hsound
  · obtain ⟨hstart, hstop, hnamed⟩ := hclean hc
    refine ⟨?_, List.forall_mem_singleton.2 ⟨hstart, hstop⟩, List.pairwise_singleton _ _⟩
    rw [Outline.partsOf_singleton, Outline.partsOf, List.forall_mem_singleton]
    exact ⟨fun _ hi => absurd hi List.not_mem_nil, .nil, hnamed⟩

/-- Something was taken if a part was read. -/
theorem start_le_lastStop (h : Drawing source names start begun s os)
    (hb : begun = true ∨ os ≠ []) (hc : s.Clean) : start ≤ s.lastStop := by
  rcases hb with hb | hne
  · exact h.begun_le hb hc
  · obtain ⟨o, os, rfl⟩ := List.exists_cons_of_ne_nil hne
    have hmem : o ∈ Outline.partsOf (o :: os) := by
      cases o with
      | part span name? inner =>
        rw [Outline.partsOf, Outline.parts]
        exact List.mem_append_left _ List.mem_cons_self
    have hinside := (h.tidy hc).inside o List.mem_cons_self
    calc start ≤ o.span.start := hinside.1
      _ ≤ o.span.stop := (h.sound o hmem).fits.forward
      _ ≤ s.lastStop := hinside.2

/-- The bigger part ends where the last token taken ends. -/
theorem wrap (h : Drawing source names start begun s os) (hb : begun = true ∨ os ≠ []) :
    Drawing source names start true s [.part ⟨start, max s.lastStop start⟩ none os] :=
  { h with
    begun_le := fun _ => h.start_le_lastStop hb
    sound := by
      have hstop : String.Pos.Raw.IsValid source ⟨max s.lastStop start⟩ := by
        rcases Nat.le_total s.lastStop start with hle | hle
        · rw [Nat.max_eq_right hle]
          exact h.valid
        · rw [Nat.max_eq_left hle]
          exact h.fits.valid
      rw [Outline.partsOf_singleton, List.forall_mem_cons]
      refine ⟨⟨⟨Nat.le_max_right _ _, hstop.le_utf8ByteSize, h.valid, hstop⟩, ?_⟩, h.sound⟩
      exact fun _ hid => absurd hid (Option.not_mem_none _)
    tidy := fun hc => by
      rw [Nat.max_eq_left (h.start_le_lastStop hb hc)]
      exact (h.tidy hc).wrap }

end Drawing

end SchemaToFlow.Schema
