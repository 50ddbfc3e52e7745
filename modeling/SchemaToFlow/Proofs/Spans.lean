import SchemaToFlow.Proofs.Generation
import SchemaToFlow.Proofs.Outline

/-!
# Where the parts of a document stand

Every span of a document fits the source, whatever was reported. Without errors the parts are nested
as they are written: `spans_of_parse` says this of the outline of a document.

`Reader.Lays r view` says that what `r` reads has the parts `view`, from the next token on. A reader
of something bigger opens a drawing at its first token, adds the parts that its own readers lay, and
closes the drawing with a span; `Reader.Draws` follows it on the way. What has a span always takes a
token or has a part in it, unless there is an error, so it never ends before it starts.
-/

set_option synthInstance.maxSize 1000

namespace SchemaToFlow

/-- A number stands for the name it was given out for, in every table that lists more. -/
theorem NameTable.text_of_intern {t T : NameTable} {n : String}
    (h : (t.intern n).2.names <+: T.names) : T.text (t.intern n).1 = n := by
  obtain ⟨more, hmore⟩ := h
  have hindex : (t.intern n).1.index < (t.intern n).2.names.length := index_intern_lt t n
  rw [text, ← hmore, List.getElem?_append_left hindex]
  show (addNew t.names n)[t.names.idxOf n]?.getD "" = n
  by_cases hn : n ∈ t.names
  · rw [addNew_of_mem hn, List.getElem?_eq_getElem (List.idxOf_lt_length_of_mem hn),
      List.getElem_idxOf]
    rfl
  · rw [addNew_of_not_mem hn, List.idxOf_eq_length hn, List.getElem?_concat_length]
    rfl

namespace Schema

open Text

namespace Reader

variable {α β : Type} {source : String} {names : NameTable}

/-- What is read has these parts, which stand from the next token on. -/
def Lays (source : String) (names : NameTable) (r : Reader α) (view : α → List Outline) : Prop :=
  ∀ s, s.Fits source → (r s).2.names.names <+: names.names →
    Drawing source names s.current.span.start false (r s).2 (view (r s).1)

/-- With the parts `os` read before, reading ends with parts that agree with the result. -/
def Draws (source : String) (names : NameTable) (start : Nat) (begun : Bool) (os : List Outline)
    (r : Reader α) (Q : α → List Outline → Prop) : Prop :=
  ∀ s, Drawing source names start begun s os → (r s).2.names.names <+: names.names →
    ∃ l, Q (r s).1 l ∧ Drawing source names start false (r s).2 l

/-! ## Rules -/

namespace Draws

variable {start : Nat} {begun : Bool} {os : List Outline} {r r' : Reader α} {f : α → Reader β}
  {view : α → List Outline} {P : α → List Outline → Prop} {Q : β → List Outline → Prop}

theorem done {a : α} (h : P a os) : Draws source names start begun os (pure a) P :=
  fun _ hd _ => ⟨os, h, hd.loosen⟩

/-- A value handed to what follows. -/
theorem given {a : α} (h : Draws source names start begun os (f a) Q) :
    Draws source names start begun os (pure a >>= f) Q := h

/-- What is read next adds its parts. -/
theorem bind [Stepwise r] [∀ a, Stepwise (f a)] (hr : Lays source names r view)
    (hf : ∀ a, Draws source names start begun (os ++ view a) (f a) Q) :
    Draws source names start begun os (r >>= f) Q := by
  intro s hd hnames
  have hgrows : (r s).2.Grows ((r >>= f) s).2 := (Stepwise.steps (r := f (r s).1) (r s).2).grows
  exact hf _ _ (hd.append (hr s hd.fits (hgrows.names.trans hnames)) (Stepwise.steps s)) hnames

theorem ofLays [Stepwise r] (hr : Lays source names r view) (h : ∀ a, P a (os ++ view a)) :
    Draws source names start begun os r P :=
  fun s hd hnames => ⟨_, h _, (hd.append (hr s hd.fits hnames) (Stepwise.steps s)).loosen⟩

/-- What is read next has no parts. -/
theorem skip [Stepwise r] (hf : ∀ a, Draws source names start begun os (f a) Q) :
    Draws source names start begun os (r >>= f) Q :=
  fun s hd => hf _ _ (hd.steps (Stepwise.steps s))

theorem ite {c : Prop} [Decidable c] (h : Draws source names start begun os r P)
    (h' : Draws source names start begun os r' P) :
    Draws source names start begun os (if c then r else r') P := by
  split
  · exact h
  · exact h'

theorem taken {f : Unit → Reader β} (h : Draws source names start true os (f ()) Q) :
    Draws source names start begun os (advance >>= f) Q :=
  fun _ hd => h _ hd.take

theorem failed {what : String} {f : Unit → Reader β}
    (h : Draws source names start true os (f ()) Q) :
    Draws source names start begun os (expected what >>= f) Q :=
  fun s hd => h _ ((hd.steps (Stepwise.steps s)).failed (not_clean_expected what s))

/-- Something with a span of its own, which starts at the next token. -/
theorem node {f : Token → Reader β} [Stepwise (peek >>= f)]
    (h : ∀ t, Draws source names t.span.start false [] (f t) fun b l => Q b (os ++ l)) :
    Draws source names start begun os (peek >>= f) Q := by
  intro s hd hnames
  obtain ⟨l, hQ, hinner⟩ := h s.current s (.empty hd.fits) hnames
  exact ⟨os ++ l, hQ, (hd.append hinner (Stepwise.steps (r := peek >>= f) s)).loosen⟩

/-- The span that ends it, around the parts read since its start. -/
theorem close {f : Span → Reader β} (hb : begun = true ∨ os ≠ [])
    (h : ∀ span, Draws source names start true [.part span none os] (f span) Q) :
    Draws source names start begun os (spanFrom start >>= f) Q :=
  fun s hd => h _ s (hd.wrap hb)

theorem forget (h : Draws source names start begun [] r P) :
    Draws source names start begun os r P :=
  fun s hd => h s hd.forget

theorem map {g : α → β} (h : Draws source names start begun os r P)
    (hQ : ∀ a l, P a l → Q (g a) l) :
    Draws source names start begun os (do return g (← r)) Q := by
  intro s hd hnames
  obtain ⟨l, hP, hdrawn⟩ := h s hd hnames
  exact ⟨l, hQ _ _ hP, hdrawn⟩

end Draws

namespace Lays

variable {r : Reader α} {view : α → List Outline}

theorem ofDraws (h : ∀ start, Draws source names start false [] r fun a l => view a = l) :
    Lays source names r view := by
  intro s hs hnames
  obtain ⟨_, rfl, hd⟩ := h _ s (.empty hs) hnames
  exact hd

/-- A result without parts. -/
theorem none {a : α} (h : view a = []) : Lays source names (pure a) view := by
  intro s hs _
  rw [pure_apply, h]
  exact .empty hs

theorem ofBound {r : Nat → Reader α} (h : ∀ n, Lays source names (r n) view) :
    Lays source names (fun s => r s.rest.length s) view := fun s => h s.rest.length s

theorem manyUpTo {go : State → Bool} [Stepwise r] (h : Lays source names r view) :
    ∀ n, Lays source names (Reader.manyUpTo go r n) fun as => as.flatMap view
  | 0 => none rfl
  | n + 1 => by
    have hstepwise := stepwise_manyUpTo go r n
    have hround : Lays source names (do return (← r) :: (← Reader.manyUpTo go r n))
        fun as => as.flatMap view :=
      ofDraws fun _ => .bind h fun _ => .bind (manyUpTo h n) fun _ => .done rfl
    intro s hs
    unfold Reader.manyUpTo
    split
    · exact hround s hs
    · exact fun _ => .empty hs

theorem many {go : State → Bool} [Stepwise r] (h : Lays source names r view) :
    Lays source names (Reader.many go r) fun as => as.flatMap view :=
  ofBound (manyUpTo h)

end Lays

open Draws

/-! ## Names and descriptions -/

theorem fitsIn_of_mem_tokenize {t : Token} (h : t ∈ tokenize source) : FitsIn source t.span :=
  let hvalid := (cutFrom_of_mem_tokenize source t h).valid
  ⟨State.start_le_stop h, hvalid.2.2.1, hvalid.1, hvalid.2.1⟩

/-- A token that is taken as a name. -/
theorem drawing_name {s : State} (hs : s.Fits source) (hk : s.current.kind.isName = true)
    (hnames : (intern s.current.text s).2.names.names <+: names.names) :
    Drawing source names s.current.span.start false (intern s.current.text s).2.advance
      (Name.outline ⟨(s.names.intern s.current.text).1, s.current.span⟩) := by
  have htext : names.text (s.names.intern s.current.text).1 = s.current.text :=
    NameTable.text_of_intern hnames
  have hslice := (cutFrom_of_mem_tokenize source _ hs.current_mem).valid.2.2.2
  have hne : s.current.text ≠ "" := by
    have hkind : s.current.kind ≠ .endOfInput := fun hend => by rw [hend] at hk; cases hk
    obtain ⟨ts, hts⟩ := State.exists_rest_of_current hkind
    exact text_ne_empty_of_mem_tokens _ _ (hs.rest.mem (hts ▸ List.mem_cons_self))
  have hsteps : s.Steps (intern s.current.text s).2.advance :=
    (State.Steps.ofStep (.number s _)).trans (.ofStep (.take _))
  refine .leaf hs hsteps ⟨fitsIn_of_mem_tokenize hs.current_mem, ?_⟩
    fun _ => ⟨Nat.le_refl _, Nat.le_refl _, ?_⟩
  · rintro id hid
    obtain rfl := Option.some.inj hid
    exact .inl (by rw [htext]; exact hslice.symm)
  · rintro id hid
    obtain rfl := Option.some.inj hid
    rw [htext]
    exact hne

/-- The empty name in place of one that is missing. -/
theorem drawing_missing {s s' : State} {t : NameTable} {span : Span} (hs : s.Fits source)
    (hsteps : s.Steps s') (hc : ¬ s'.Clean) (hspan : FitsIn source span)
    (hnames : (t.intern "").2.names <+: names.names) :
    Drawing source names s.current.span.start false s' (Name.outline ⟨(t.intern "").1, span⟩) := by
  refine .leaf hs hsteps ⟨hspan, ?_⟩ fun hclean => absurd hclean hc
  rintro id hid
  obtain rfl := Option.some.inj hid
  exact .inr (NameTable.text_of_intern hnames)

theorem lays_name : Lays source names name Name.outline := by
  intro s hs
  have hsteps : s.Steps (name s).2 := Stepwise.steps s
  unfold name at hsteps ⊢
  rw [bind_apply] at hsteps ⊢
  by_cases hk : (peek s).1.kind.isName = true
  · rw [if_pos hk]
    exact fun hnames => drawing_name hs hk hnames
  · rw [if_neg hk] at hsteps ⊢
    have hafter : (expected "name" s).2.Steps
        (intern "" (skipOffending (expected "name" s).2).2).2 :=
      (Stepwise.steps _).trans (Stepwise.steps _)
    exact fun hnames => drawing_missing hs hsteps
      (fun hc => not_clean_expected "name" s (hafter.clean hc))
      (fitsIn_of_mem_tokenize hs.current_mem) hnames

theorem lays_typeName : Lays source names typeName Name.outline := by
  intro s hs
  have hsteps : s.Steps (typeName s).2 := Stepwise.steps s
  unfold typeName at hsteps ⊢
  rw [bind_apply] at hsteps ⊢
  by_cases hk : (peek s).1.kind.isName = true
  · rw [if_pos hk]
    exact fun hnames => drawing_name hs hk hnames
  · rw [if_neg hk] at hsteps ⊢
    have hafter : (expected "type name" s).2.Steps (intern "" (expected "type name" s).2).2 :=
      Stepwise.steps _
    have hfits := fitsIn_of_mem_tokenize hs.current_mem
    exact fun hnames => drawing_missing hs hsteps
      (fun hc => not_clean_expected "type name" s (hafter.clean hc))
      ⟨Nat.le_refl _, hfits.start.le_utf8ByteSize, hfits.start, hfits.start⟩ hnames

theorem lays_description? :
    Lays source names description? fun d => d.elim [] Description.outline := by
  intro s hs _
  by_cases hk : s.current.kind = .string ∨ s.current.kind = .blockString
  · rw [description?_taken hk]
    exact .leaf hs (.ofStep (.take s))
      ⟨fitsIn_of_mem_tokenize hs.current_mem, fun _ hid => absurd hid (Option.not_mem_none _)⟩
      fun _ => ⟨Nat.le_refl _, Nat.le_refl _, fun _ hid => absurd hid (Option.not_mem_none _)⟩
  · rw [description?_none hk]
    exact .empty hs

/-! ## Types, values and directives -/

theorem lays_typeRefUpTo : ∀ n, Lays source names (typeRefUpTo n) TypeRef.outline
  | 0 => .ofDraws fun _ => .bind lays_typeName fun _ => .done rfl
  | n + 1 => by
    have hstepwise := stepwise_typeRefUpTo n
    -- the exclamation mark is one more part around the type
    have hbang (start : Nat) (begun : Bool) (inner : TypeRef) :
        Draws source names start begun inner.outline (do
          if ← accept (.punct .bang) then return .nonNull inner (← spanFrom start)
          else return inner) fun type l => type.outline = l :=
      .skip fun _ => .ite (.close (.inr inner.outline_ne_nil) fun _ => .done rfl) (.done rfl)
    unfold typeRefUpTo typeRefAt
    dsimp only
    refine .ofDraws fun _ => .node fun t => .skip fun _ => .ite ?_ ?_
    · refine .bind (lays_typeRefUpTo n) fun item => .skip fun _ => ?_
      exact .close (.inr item.outline_ne_nil) fun span => hbang _ _ (.list item span)
    · exact .bind lays_typeName fun nm => hbang _ _ (.named nm)

theorem lays_typeRef : Lays source names typeRef TypeRef.outline := .ofBound lays_typeRefUpTo

theorem lays_noValue : Lays source names noValue Value.outline := by
  unfold noValue
  refine .ofDraws fun _ => .node fun _ => .failed (.skip fun _ => ?_)
  exact .close (.inl rfl) fun _ => .done rfl

/-- A constant of one token. -/
theorem draws_literal (t : Token) {make : Span → Value}
    (h : ∀ span, (make span).outline = [.part span none []]) :
    Draws source names t.span.start false [] (literal t make) fun v l => v.outline = l :=
  .taken (.close (.inl rfl) fun span => .done (h span))

theorem draws_intLiteral (t : Token) :
    Draws source names t.span.start false [] (intLiteral t) fun v l => v.outline = l := by
  unfold intLiteral
  dsimp only
  split
  · exact .given (.taken (.close (.inl rfl) fun _ => .done rfl))
  · exact .skip fun _ => .given (.taken (.close (.inl rfl) fun _ => .done rfl))

theorem lays_listValue {item : Reader Value} [Stepwise item]
    (h : Lays source names item Value.outline) :
    Lays source names (listValue item) Value.outline := by
  unfold listValue
  refine .ofDraws fun _ => .node fun _ => .taken (.bind h.many fun items => .skip fun _ => ?_)
  exact .close (.inl rfl) fun _ => .done (by rw [Value.outline, Value.outlineOfItems_eq]; rfl)

theorem lays_objectValue {value : Reader Value} [Stepwise value]
    (h : Lays source names value Value.outline) :
    Lays source names (objectValue value) Value.outline := by
  -- the name of a field is read, but only its number is kept
  have hfield : Lays source names (objectField value) fun field => field.2.outline :=
    .ofDraws fun _ => .bind lays_name fun _ => .forget (.skip fun _ => .bind h fun _ => .done rfl)
  unfold objectValue
  refine .ofDraws fun _ => .node fun _ => .taken (.bind hfield.many fun fields => .skip fun _ => ?_)
  exact .close (.inl rfl) fun _ => .done (by rw [Value.outline, Value.outlineOfFields_eq]; rfl)

theorem lays_valueUpTo : ∀ n, Lays source names (valueUpTo n) Value.outline
  | 0 => lays_noValue
  | n + 1 => by
    have hbound := stepwise_valueUpTo n
    have hstepwise : Stepwise (valueUpTo (n + 1)) := stepwise_valueUpTo (n + 1)
    have ih : Lays source names (valueUpTo n) Value.outline := lays_valueUpTo n
    unfold valueUpTo valueAt at hstepwise ⊢
    refine .ofDraws fun _ => .node fun t => ?_
    split
    case h_1 => exact draws_intLiteral t
    case h_8 => exact .ofLays (lays_listValue ih) fun _ => rfl
    case h_9 => exact .ofLays (lays_objectValue ih) fun _ => rfl
    case h_10 | h_11 => exact .bind lays_name fun _ => .done rfl
    case h_12 => exact .ofLays lays_noValue fun _ => rfl
    all_goals exact draws_literal t fun _ => rfl

theorem lays_value : Lays source names value Value.outline := .ofBound lays_valueUpTo

theorem lays_argument : Lays source names argument Argument.outline := by
  unfold argument
  refine .ofDraws fun _ => .node fun _ => .bind lays_name fun _ => .skip fun _ => ?_
  exact .bind lays_value fun _ => .close (.inr (List.cons_ne_nil _ _)) fun _ => .done rfl

theorem lays_directive : Lays source names directive Directive.outline := by
  unfold directive
  dsimp only
  refine .ofDraws fun _ => .node fun _ => .taken (.bind lays_name fun _ => .skip fun _ => ?_)
  refine .ite ?_ ?_
  · refine .bind lays_argument.many fun _ => .skip fun _ => .given ?_
    exact .close (.inl rfl) fun _ => .done rfl
  · exact .bind (.none rfl) fun _ => .close (.inl rfl) fun _ => .done rfl

theorem lays_directives :
    Lays source names directives fun ds => ds.flatMap Directive.outline :=
  lays_directive.many

/-! ## Fields and input values -/

theorem lays_inputValue : Lays source names inputValue InputValue.outline := by
  have hsome : Lays source names (some <$> value) fun v => v.elim [] Value.outline := lays_value
  have hnone : Lays source names (pure none) fun v => v.elim [] Value.outline := .none rfl
  unfold inputValue
  dsimp only
  refine .ofDraws fun _ => .bind lays_description? fun _ => .node fun _ => ?_
  refine .bind lays_name fun _ => .skip fun _ => .bind lays_typeRef fun _ => .skip fun _ => ?_
  refine .ite (.bind hsome fun _ => ?_) (.bind hnone fun _ => ?_)
  · exact .bind lays_directives fun _ => .close (.inr (List.cons_ne_nil _ _)) fun _ => .done rfl
  · exact .bind lays_directives fun _ => .close (.inr (List.cons_ne_nil _ _)) fun _ => .done rfl

theorem lays_inputValues :
    Lays source names inputValues fun vs => vs.flatMap InputValue.outline :=
  lays_inputValue.many

theorem lays_argumentDefinitions :
    Lays source names argumentDefinitions fun vs => vs.flatMap InputValue.outline := by
  unfold argumentDefinitions
  refine .ofDraws fun _ => .skip fun _ => .ite ?_ (.done rfl)
  exact .bind lays_inputValues fun _ => .skip fun _ => .done rfl

theorem lays_field : Lays source names field Field.outline := by
  unfold field
  refine .ofDraws fun _ => .bind lays_description? fun _ => .node fun _ => ?_
  refine .bind lays_name fun _ => ?_
  refine .bind lays_argumentDefinitions fun _ => .skip fun _ => .bind lays_typeRef fun _ => ?_
  exact .bind lays_directives fun _ => .close (.inr (List.cons_ne_nil _ _)) fun _ => .done rfl

theorem lays_braced {item : Reader α} [Stepwise item] {view : α → List Outline}
    (h : Lays source names item view) :
    Lays source names (braced item) fun as => as.flatMap view := by
  unfold braced
  refine .ofDraws fun _ => .skip fun _ => .ite ?_ (.done rfl)
  exact .bind h.many fun _ => .skip fun _ => .done rfl

theorem lays_implementedInterfaces :
    Lays source names implementedInterfaces fun nms => nms.flatMap Name.outline := by
  have hmore (go : State → Bool) : Lays source names (many go do
      let _ ← accept (.punct .ampersand)
      typeName) fun nms => nms.flatMap Name.outline :=
    .many (.ofDraws fun _ => .skip fun _ => .ofLays lays_typeName fun _ => rfl)
  unfold implementedInterfaces
  refine .ofDraws fun _ => .skip fun _ => .ite ?_ (.done rfl)
  exact .skip fun _ => .bind lays_typeName fun _ => .bind (hmore _) fun _ => .done rfl

/-! ## Definitions -/

theorem flatMap_filterMap_id {γ : Type} (view : α → List γ) (os : List (Option α)) :
    (os.filterMap id).flatMap view = os.flatMap fun o => o.elim [] view := by
  induction os with
  | nil => rfl
  | cons o os ih =>
    cases o with
    | none => exact ih
    | some a => exact congrArg (view a ++ ·) ih

theorem lays_rootOperation? :
    Lays source names rootOperation? fun o => o.elim [] RootOperation.outline := by
  have hstepwise : Stepwise rootOperation? := inferInstance
  unfold rootOperation? at hstepwise ⊢
  refine .ofDraws fun _ => .node fun t => ?_
  split
  · refine .taken (.skip fun _ => .bind lays_typeName fun _ => ?_)
    exact .close (.inl rfl) fun _ => .done rfl
  · exact .skip fun _ => .skip fun _ => .done rfl

theorem draws_schemaDefinition {start : Nat} {begun : Bool} (d : Option Description) :
    Draws source names start begun (d.elim [] Description.outline) (schemaDefinition d)
      fun x l => (Definition.schema x).outline = l := by
  unfold schemaDefinition
  refine .node fun _ => .taken (.bind lays_directives fun ds => .skip fun _ => ?_)
  refine .bind lays_rootOperation?.many fun os => .skip fun _ => .close (.inl rfl) fun span => ?_
  exact .done (by rw [Definition.outline, flatMap_filterMap_id]; rfl)

theorem draws_fieldsDefinition {start : Nat} {begun : Bool} (d : Option Description) :
    Draws source names start begun (d.elim [] Description.outline) (fieldsDefinition d)
      fun x l => (Definition.object x).outline = l := by
  unfold fieldsDefinition
  refine .node fun _ => .taken (.bind lays_name fun _ => ?_)
  refine .bind lays_implementedInterfaces fun _ => ?_
  refine .bind lays_directives fun _ => .bind (lays_braced lays_field) fun _ => ?_
  exact .close (.inl rfl) fun _ => .done rfl

theorem lays_unionMembers :
    Lays source names unionMembers fun nms => nms.flatMap Name.outline := by
  have hmore (go : State → Bool) : Lays source names (many go do
      advance
      typeName) fun nms => nms.flatMap Name.outline :=
    .many (.ofDraws fun _ => .skip fun _ => .ofLays lays_typeName fun _ => rfl)
  unfold unionMembers
  refine .ofDraws fun _ => .skip fun _ => .ite ?_ (.done rfl)
  exact .skip fun _ => .bind lays_typeName fun _ => .bind (hmore _) fun _ => .done rfl

theorem draws_unionDefinition {start : Nat} {begun : Bool} (d : Option Description) :
    Draws source names start begun (d.elim [] Description.outline) (unionDefinition d)
      fun x l => (Definition.union x).outline = l := by
  unfold unionDefinition
  refine .node fun _ => .taken (.bind lays_name fun _ => .bind lays_directives fun _ => ?_)
  exact .bind lays_unionMembers fun _ => .close (.inl rfl) fun _ => .done rfl

theorem lays_enumValue : Lays source names enumValue EnumValue.outline := by
  unfold enumValue
  refine .ofDraws fun _ => .bind lays_description? fun _ => .node fun _ => ?_
  refine .bind lays_name fun _ => ?_
  exact .bind lays_directives fun _ => .close (.inr (List.cons_ne_nil _ _)) fun _ => .done rfl

theorem draws_enumDefinition {start : Nat} {begun : Bool} (d : Option Description) :
    Draws source names start begun (d.elim [] Description.outline) (enumDefinition d)
      fun x l => (Definition.enum x).outline = l := by
  unfold enumDefinition
  refine .node fun _ => .taken (.bind lays_name fun _ => .bind lays_directives fun _ => ?_)
  exact .bind (lays_braced lays_enumValue) fun _ => .close (.inl rfl) fun _ => .done rfl

theorem draws_inputDefinition {start : Nat} {begun : Bool} (d : Option Description) :
    Draws source names start begun (d.elim [] Description.outline) (inputDefinition d)
      fun x l => (Definition.input x).outline = l := by
  unfold inputDefinition
  dsimp only
  refine .node fun _ => .taken (.bind lays_name fun _ => .bind lays_directives fun _ => ?_)
  refine .skip fun _ => .ite (.bind lays_inputValues fun _ => .skip fun _ => .given ?_) ?_
  · exact .close (.inl rfl) fun _ => .done rfl
  · exact .bind (.none rfl) fun _ => .close (.inl rfl) fun _ => .done rfl

theorem draws_scalarDefinition {start : Nat} {begun : Bool} (d : Option Description) :
    Draws source names start begun (d.elim [] Description.outline) (scalarDefinition d)
      fun x l => (Definition.scalar x).outline = l := by
  unfold scalarDefinition
  refine .node fun _ => .taken (.bind lays_name fun _ => .bind lays_directives fun _ => ?_)
  exact .close (.inl rfl) fun _ => .done rfl

theorem draws_directiveDefinition {start : Nat} {begun : Bool} (d : Option Description) :
    Draws source names start begun (d.elim [] Description.outline) (directiveDefinition d)
      fun x l => (Definition.directive x).outline = l := by
  unfold directiveDefinition
  refine .node fun _ => .taken (.skip fun _ => .bind lays_name fun _ => ?_)
  refine .bind lays_argumentDefinitions fun _ => .skip fun _ => .skip fun _ => .skip fun _ => ?_
  exact .close (.inl rfl) fun _ => .done rfl

/-- What a reader of definitions gives has the parts of the definition, if it is one. -/
theorem draws_noDefinition {start : Nat} {begun : Bool} {os : List Outline} :
    Draws source names start begun os noDefinition fun o l => o.elim [] Definition.outline = l :=
  .forget (.skip fun _ => .skip fun _ => .done rfl)

theorem draws_definitionAt {start : Nat} {begun : Bool} (d : Option Description)
    {extended : Reader (Option Definition)} [Stepwise extended]
    (h : Lays source names extended fun o => o.elim [] Definition.outline) :
    Draws source names start begun (d.elim [] Description.outline) (definitionAt d extended)
      fun o l => o.elim [] Definition.outline = l := by
  unfold definitionAt
  refine .skip fun _ => ?_
  split
  case h_1 => exact (draws_schemaDefinition d).map fun _ _ hl => hl
  case h_2 => exact (draws_fieldsDefinition d).map fun _ _ hl => hl
  case h_3 => exact (draws_fieldsDefinition d).map fun _ _ hl => hl
  case h_4 => exact (draws_unionDefinition d).map fun _ _ hl => hl
  case h_5 => exact (draws_enumDefinition d).map fun _ _ hl => hl
  case h_6 => exact (draws_inputDefinition d).map fun _ _ hl => hl
  case h_7 => exact (draws_scalarDefinition d).map fun _ _ hl => hl
  case h_8 => exact (draws_directiveDefinition d).map fun _ _ hl => hl
  case h_9 => exact .forget (.skip fun _ => .skip fun _ => .ofLays h fun _ => rfl)
  case h_10 => exact draws_noDefinition

theorem lays_definitionUpTo :
    ∀ n, Lays source names (definitionUpTo n) fun o => o.elim [] Definition.outline
  | 0 => .ofDraws fun _ => draws_noDefinition
  | n + 1 => by
    have hstepwise := stepwise_definitionUpTo n
    exact .ofDraws fun _ => .bind lays_description? fun d =>
      draws_definitionAt d (lays_definitionUpTo n)

theorem lays_definitionOrSkip :
    Lays source names definitionOrSkip fun o => o.elim [] Definition.outline := by
  have hdefinition : Lays source names definition? fun o => o.elim [] Definition.outline :=
    .ofBound lays_definitionUpTo
  unfold definitionOrSkip
  refine .ofDraws fun _ => @Draws.bind _ _ _ _ _ _ _ _ _ _ _ _ (fun o => ?_) hdefinition fun o => ?_
  · cases o <;> infer_instance
  · cases o with
    | some x => exact .done rfl
    | none => exact .skip fun _ => .done rfl

end Reader

/-- A document is drawn from its first token on, and ends with the source. -/
theorem drawing_document (source : String) :
    ∃ start s os, Drawing source (parse source).names start false s os ∧
      (parse source).report = s.report ∧
      (parse source).document.outline = .part ⟨start, s.current.span.stop⟩ none os := by
  have hlays : Reader.Lays source (parse source).names
      (Reader.many (fun s => !s.atEnd) Reader.definitionOrSkip)
      fun os => os.flatMap fun o => o.elim [] Definition.outline :=
    Reader.lays_definitionOrSkip.many
  refine ⟨_, _, _, hlays (State.start source) (State.fits_start source) List.prefix_rfl, rfl, ?_⟩
  exact congrArg (Outline.part _ none) (Reader.flatMap_filterMap_id Definition.outline _)

/-- **Where the parts of a document stand.** Each fits the source, and a name that has a text has
the one that stands there. Without errors every name has a text, parts lie within the parts they
belong to, and one after the other. -/
theorem spans_of_parse (source : String) :
    (∀ o ∈ (parse source).document.outline.parts, o.Sound source (parse source).names) ∧
      ((parse source).report.hasErrors = false →
        (∀ o ∈ (parse source).document.outline.parts, o.Neat (parse source).names) ∧
          ∀ id ∈ (parse source).document.nameIds, (parse source).names.text id ≠ "") := by
  obtain ⟨start, s, os, hd, hreport, houtline⟩ := drawing_document source
  have hend := Reader.fitsIn_of_mem_tokenize hd.fits.current_mem
  have hparts : (parse source).document.outline.parts =
      Outline.partsOf [.part ⟨start, s.current.span.stop⟩ none os] := by
    rw [houtline, Outline.partsOf_singleton, Outline.parts]
  rw [hparts]
  refine ⟨?_, fun hclean => ⟨?_, text_ne_empty_of_mem_nameIds hclean⟩⟩
  · rw [Outline.partsOf_singleton, List.forall_mem_cons]
    have hforward : start ≤ s.current.span.stop := Nat.le_trans hd.start_le hend.forward
    refine ⟨⟨⟨hforward, hend.within, hd.valid, hend.stop⟩, ?_⟩, hd.sound⟩
    exact fun _ hid => absurd hid (Option.not_mem_none _)
  · have hc : s.Clean := by rwa [hreport] at hclean
    exact ((hd.tidy hc).mono (Nat.le_trans hd.fits.last hend.forward)).wrap.neat

/-- A schema with descriptions, and with parts in parts of every kind. -/
def nestedSource : String :=
  "\"a\" type A implements I & J @d(x: [1, \x7bk: E\x7d]) \x7b\n" ++
    "  \"\"\"é\"\"\" f(\"p\" p: [[Int!]]! = \x7b\x7d): A! @e @d\n\x7d\n" ++
    "union U = | A | B schema \x7b query: A mutation: A \x7d"

theorem spans_of_nestedSource :
    (parse nestedSource).report.hasErrors = false ∧
      (∀ o ∈ (parse nestedSource).document.outline.parts,
        o.Sound nestedSource (parse nestedSource).names ∧ o.Neat (parse nestedSource).names) ∧
      ∀ id ∈ (parse nestedSource).document.nameIds, (parse nestedSource).names.text id ≠ "" := by
  have hclean : (parse nestedSource).report.hasErrors = false := by decide +kernel
  obtain ⟨hsound, hneat⟩ := spans_of_parse nestedSource
  exact ⟨hclean, fun o ho => ⟨hsound o ho, (hneat hclean).1 o ho⟩,
    (hneat hclean).2⟩

end Schema

end SchemaToFlow
