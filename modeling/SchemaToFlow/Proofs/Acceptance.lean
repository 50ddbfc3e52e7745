import SchemaToFlow.Proofs.Numerals
import SchemaToFlow.Proofs.Recognition

/-!
# The readers of a schema and its grammar

One lemma for each reader: it recognises the part of the grammar with its name. They are assembled
from the rules for readers; what is left to say is which tokens may follow a part, and that no part
can be mistaken for another by its first token.

* `recognizes_value`, `recognizes_typeRef`: nested values and types, by induction on the bound.
* `recognizes_definition`: a definition of any kind.
* `hasErrors_parse_iff`: a schema is read without errors exactly when its tokens are a word of the
  grammar.
-/

set_option synthInstance.maxSize 1000

namespace SchemaToFlow.Schema

open Computability Grammar State

namespace Reader

open Recognizes

variable {n : Nat} {more : List TokenKind}

/-! ## Types -/

theorem nil_notMem_name : [] ∉ Grammar.name := nil_notMem_one _

theorem nil_notMem_type : [] ∉ Grammar.type := by
  rw [type_eq]
  refine nil_notMem_mul (nil_notMem_add nil_notMem_name ?_) _
  exact nil_notMem_mul (nil_notMem_mul (nil_notMem_one _) _) _

theorem Within.rest_eq_nil {s : State} (h : s.Within 0) : s.rest = [] :=
  List.eq_nil_of_length_eq_zero (Nat.le_zero.1 h)

/-- Parts up to a closing token. -/
theorem recognizes_closed {α β : Type} {items : Reader α} [Forward items] {f : α → Reader β}
    {l : Language Token} {more' : List TokenKind} {k : TokenKind} (hk : k ≠ .endOfInput)
    (h : Recognizes (Within n) items l more') (hmore : k ∉ more') (hf : ∀ a s, (f a s).2 = s) :
    Recognizes (Within n) (do let a ← items; expect k; f a) (l * tok k) more := by
  have hforward (a : α) : Forward (f a) := ⟨fun s => by rw [hf]; exact .refl s⟩
  refine h.bind (shields_tok hmore) fun a => ?_
  exact (recognizes_expect hk).bind_quiet fun _ => hf a

/-- Where no token is left, no language without the empty word has a word. -/
theorem refuse_within_zero {α : Type} {r : Reader α} {l : Language Token}
    (h : ∀ s, s.Within 0 → ¬ (r s).2.Clean) (hl : [] ∉ l) : Recognizes (Within 0) r l more where
  sound s hs hc := absurd hc (h s hs)
  complete s w rest hs _ hw heq _ := by
    rw [Within.rest_eq_nil hs] at heq
    obtain ⟨rfl, _⟩ := List.append_eq_nil_iff.1 heq.symm
    exact absurd hw hl

/-- A type is told by its first token. -/
theorem type_eq_add :
    Grammar.type = tok (.punct .bracketOpen) *
      (Grammar.type * (tok (.punct .bracketClose) * opt (mark .bang))) +
        Grammar.name * opt (mark .bang) := by
  conv_lhs => rw [type_eq, add_mul, add_comm]
  simp only [mark, mul_assoc]

theorem recognizes_typeRefUpTo :
    ∀ n, Recognizes (Within n) (typeRefUpTo n) Grammar.type [.punct .bang]
  | 0 => by
    refine refuse_within_zero (fun s hs hc => ?_) nil_notMem_type
    have h : Recognizes (Within 0) typeName Grammar.name [] := recognizes_typeName
    obtain ⟨w, ⟨t, _, rfl⟩, heq⟩ := h.sound s hs hc
    rw [Within.rest_eq_nil hs] at heq
    cases heq
  | n + 1 => by
    unfold typeRefUpTo typeRefAt
    dsimp only
    have ih := recognizes_typeRefUpTo n
    have hforward := forward_typeRefUpTo n
    rw [type_eq_add]
    refine look fun t => branch (by decide) ?_ ?_ ?_
    · refine ih.bind (shields_tok_mul (by decide)) fun item => ?_
      refine (recognizes_expect (by decide)).bind (shields_nil _ _) fun _ => ?_
      refine skip (fun _ => rfl) fun _ => skip (fun _ => rfl) fun _ => ?_
      exact branch_token (by decide) (fun _ => rfl) (fun _ => rfl) List.mem_cons_self
    · refine recognizes_typeName.bind (shields_nil _ _) fun nm => ?_
      refine skip (fun _ => rfl) fun _ => ?_
      exact branch_token (by decide) (fun _ => rfl) (fun _ => rfl) List.mem_cons_self
    · exact shields_name_mul (by decide)

theorem recognizes_typeRef : Recognizes (Within n) typeRef Grammar.type [.punct .bang] :=
  ofBound recognizes_typeRefUpTo

/-! ## Values -/

/-- A token that is a value by itself. -/
def IsAtom (t : Token) : Prop :=
  (t.kind = .int ∧ (Numeral.int64? t.text).isSome) ∨ t.kind = .float ∨ t.kind = .string ∨
    t.kind = .blockString ∨ t.kind.isName

theorem isSome_int64? {text : String} :
    (Numeral.int64? text).isSome ↔
      Int64.minValue.toInt ≤ Numeral.intValue text.toList ∧
        Numeral.intValue text.toList ≤ Int64.maxValue.toInt := by
  rw [Numeral.int64?_eq]
  split
  · rename_i h
    exact ⟨fun _ => h, fun _ => rfl⟩
  · rename_i h
    exact ⟨fun h' => absurd h' Bool.false_ne_true, fun h' => absurd h' h⟩

theorem atom_eq : atom = one IsAtom := by
  ext w
  constructor
  · rintro ((((⟨t, ht, rfl⟩ | ⟨t, ht, rfl⟩) | ⟨t, ht, rfl⟩) | ⟨t, ht, rfl⟩) | ⟨t, ht, rfl⟩)
    · exact ⟨t, .inl ⟨ht.1, isSome_int64?.2 ht.2⟩, rfl⟩
    · exact ⟨t, .inr (.inl ht), rfl⟩
    · exact ⟨t, .inr (.inr (.inl ht)), rfl⟩
    · exact ⟨t, .inr (.inr (.inr (.inl ht))), rfl⟩
    · exact ⟨t, .inr (.inr (.inr (.inr ht))), rfl⟩
  · rintro ⟨t, ht | ht | ht | ht | ht, rfl⟩
    · exact .inl (.inl (.inl (.inl ⟨t, ⟨ht.1, isSome_int64?.1 ht.2⟩, rfl⟩)))
    · exact .inl (.inl (.inl (.inr ⟨t, ht, rfl⟩)))
    · exact .inl (.inl (.inr ⟨t, ht, rfl⟩))
    · exact .inl (.inr ⟨t, ht, rfl⟩)
    · exact .inr ⟨t, ht, rfl⟩

/-- A named value. -/
def namedValue : Language Token := Grammar.name * mark .colon * Grammar.value

theorem namedValue_eq : namedValue = Grammar.name * (tok (.punct .colon) * Grammar.value) := by
  rw [namedValue, mul_assoc, mark]

theorem starts_namedValue : Starts namedValue nameKinds :=
  (starts_name.mul_of_ne nil_notMem_name _).mul_of_ne (nil_notMem_mul nil_notMem_name _) _

/-- The words between brackets, with the closing one. -/
def listTail : Language Token := Grammar.value∗ * mark .bracketClose

/-- The words between braces, with the closing one. -/
def objectTail : Language Token := namedValue∗ * mark .braceClose

theorem value_eq_one_add :
    Grammar.value =
      one IsAtom + mark .bracketOpen * listTail + mark .braceOpen * objectTail := by
  rw [value_eq, atom_eq, listTail, objectTail, namedValue, mul_assoc, mul_assoc]

/-- A value is told by its first token. -/
theorem cons_mem_value_iff {t : Token} {ts : List Token} :
    t :: ts ∈ Grammar.value ↔
      (IsAtom t ∧ ts = []) ∨ (t.kind = .punct .bracketOpen ∧ ts ∈ listTail) ∨
        (t.kind = .punct .braceOpen ∧ ts ∈ objectTail) := by
  rw [value_eq_one_add]
  simp only [Language.mem_add, mark, tok, cons_mem_one_iff, cons_mem_one_mul_iff, or_assoc]

/-- The kinds that values start with. -/
def valueKinds : List TokenKind :=
  [.int, .float, .string, .blockString, .punct .bracketOpen, .punct .braceOpen] ++ nameKinds

theorem IsAtom.mem_valueKinds {t : Token} (h : IsAtom t) : t.kind ∈ valueKinds := by
  rcases h with h | h | h | h | h
  · simp [valueKinds, h.1]
  · simp [valueKinds, h]
  · simp [valueKinds, h]
  · simp [valueKinds, h]
  · exact List.mem_append_right _ (mem_nameKinds h)

theorem starts_value : Starts Grammar.value valueKinds := by
  intro t ts h
  rcases cons_mem_value_iff.1 h with h | h | h
  · exact h.1.mem_valueKinds
  · simp [valueKinds, h.1]
  · simp [valueKinds, h.1]

theorem nil_notMem_value : [] ∉ Grammar.value := by
  rw [value_eq_one_add]
  refine nil_notMem_add (nil_notMem_add (nil_notMem_one _) ?_) ?_
  · exact nil_notMem_mul (nil_notMem_one _) _
  · exact nil_notMem_mul (nil_notMem_one _) _

section Nested

variable {r : Reader Value} [Forward r] (h : Recognizes (Within n) r Grammar.value [])

include h

theorem recognizes_listValue (t : Token) :
    Recognizes (At t n) (listValue r) (tok t.kind * listTail) more := by
  unfold listValue
  refine look fun _ => next rfl fun _ => ?_
  exact recognizes_closed (by decide) (many_before h starts_value (by decide) (by decide))
    (by decide) fun _ _ => rfl

theorem recognizes_objectField : Recognizes (Within n) (objectField r) namedValue [] := by
  unfold objectField
  rw [namedValue_eq]
  refine recognizes_name.bind (shields_nil _ _) fun _ => ?_
  refine (recognizes_expect (by decide)).bind (shields_nil _ _) fun _ => ?_
  exact h.bind_quiet fun _ _ => rfl

theorem recognizes_objectValue (t : Token) :
    Recognizes (At t n) (objectValue r) (tok t.kind * objectTail) more := by
  unfold objectValue
  refine look fun _ => next rfl fun _ => ?_
  exact recognizes_closed (by decide)
    (many_before (recognizes_objectField h) starts_namedValue (by decide) (by decide))
    (by decide) fun _ _ => rfl

end Nested

theorem IsAtom.kind_ne {t : Token} (h : IsAtom t) (p : Punctuator) : t.kind ≠ .punct p := by
  intro hp
  unfold IsAtom at h
  rw [hp] at h
  rcases h with h | h | h | h | h
  · cases h.1
  · cases h
  · cases h
  · cases h
  · cases h

section Dispatch

variable {r : Reader Value} {t : Token}

/-- A value that starts with no bracket and no brace is one token. -/
theorem recognizes_value_of_atom
    (h : Recognizes (fun s => s.Within n ∧ s.current = t) r (one IsAtom) more)
    (ho : t.kind ≠ .punct .bracketOpen) (hb : t.kind ≠ .punct .braceOpen) :
    Recognizes (fun s => s.Within n ∧ s.current = t) r Grammar.value more := by
  refine h.at_head (nil_notMem_one _) nil_notMem_value fun ts => ?_
  rw [cons_mem_one_iff, cons_mem_value_iff]
  simp [ho, hb]

/-- A value that starts with a bracket is a list. -/
theorem recognizes_value_of_listTail (ht : t.kind = .punct .bracketOpen)
    (h : Recognizes (At t (n - 1)) r (tok t.kind * listTail) more) :
    Recognizes (fun s => s.Within n ∧ s.current = t) r Grammar.value more := by
  have hatom : ¬ IsAtom t := fun h => h.kind_ne _ ht
  have hat := h.of_at (by rw [ht]; decide)
  refine hat.at_head (nil_notMem_mul (nil_notMem_one _) _) nil_notMem_value fun ts => ?_
  rw [tok, cons_mem_one_mul_iff, cons_mem_value_iff]
  simp [ht, hatom]

/-- A value that starts with a brace is an object. -/
theorem recognizes_value_of_objectTail (ht : t.kind = .punct .braceOpen)
    (h : Recognizes (At t (n - 1)) r (tok t.kind * objectTail) more) :
    Recognizes (fun s => s.Within n ∧ s.current = t) r Grammar.value more := by
  have hatom : ¬ IsAtom t := fun h => h.kind_ne _ ht
  have hat := h.of_at (by rw [ht]; decide)
  refine hat.at_head (nil_notMem_mul (nil_notMem_one _) _) nil_notMem_value fun ts => ?_
  rw [tok, cons_mem_one_mul_iff, cons_mem_value_iff]
  simp [ht, hatom]

end Dispatch

theorem not_clean_noValue (s : State) : ¬ (noValue s).2.Clean := fun hc =>
  not_clean_expected "value" s (Forward.clean skipOffending hc)

theorem recognizes_intLiteral {t : Token} (ht : t.kind = .int) :
    Recognizes (fun s => s.Within n ∧ s.current = t) (intLiteral t) (one IsAtom) more := by
  unfold intLiteral
  dsimp only
  cases hv : Numeral.int64? t.text with
  | some v =>
    refine take (fun _ => rfl) (fun _ => id) (by rw [ht]; decide) (.inl ⟨ht, ?_⟩)
    rw [hv]
    rfl
  | none =>
    refine refuse_token (fun s hc => ?_) ?_
    · exact not_clean_flag_bind _ _ _ _ s hc
    · rintro (h | h | h | h | h)
      · rw [hv] at h
        cases h.2
      all_goals
        rw [ht] at h
        cases h

/-- A constant of one token. -/
theorem recognizes_literal {t : Token} (make : Text.Span → Value) (hatom : IsAtom t)
    (ht : t.kind ≠ .endOfInput) :
    Recognizes (fun s => s.Within n ∧ s.current = t) (literal t make) Grammar.value more :=
  recognizes_value_of_atom (take (fun _ => rfl) (fun _ => id) ht hatom) (hatom.kind_ne _)
    (hatom.kind_ne _)

/-- A name that stands for a constant. -/
theorem recognizes_enumConstant {t : Token} (ht : t.kind.isName) :
    Recognizes (fun s => s.Within n ∧ s.current = t)
      (do let constant ← name; return Value.enum constant.id constant.span) Grammar.value
      more := by
  have hatom : IsAtom t := .inr (.inr (.inr (.inr ht)))
  have h : Recognizes (Within n)
      (do let constant ← name; return Value.enum constant.id constant.span) Grammar.name more :=
    recognizes_name.bind_quiet fun _ _ => rfl
  refine (h.weaken fun _ hs => hs.1).at_head nil_notMem_name nil_notMem_value fun ts => ?_
  rw [Grammar.name, cons_mem_one_iff, cons_mem_value_iff]
  simp [ht, hatom, hatom.kind_ne]

theorem recognizes_valueUpTo : ∀ n, Recognizes (Within n) (valueUpTo n) Grammar.value []
  | 0 => by
    unfold valueUpTo
    exact refuse_within_zero (fun s _ => not_clean_noValue s) nil_notMem_value
  | n + 1 => by
    have ih := recognizes_valueUpTo n
    have hforward := forward_valueUpTo n
    unfold valueUpTo valueAt
    refine look_at fun t => ?_
    split
    case h_1 hk =>
      refine recognizes_value_of_atom (recognizes_intLiteral hk) ?_ ?_
      · simp [hk]
      · simp [hk]
    case h_2 hk => exact recognizes_literal _ (.inr (.inl hk)) (by simp [hk])
    case h_3 hk => exact recognizes_literal _ (.inr (.inr (.inl hk))) (by simp [hk])
    case h_4 hk => exact recognizes_literal _ (.inr (.inr (.inr (.inl hk)))) (by simp [hk])
    case h_5 hk =>
      exact recognizes_literal _ (.inr (.inr (.inr (.inr (by rw [hk]; rfl))))) (by simp [hk])
    case h_6 hk =>
      exact recognizes_literal _ (.inr (.inr (.inr (.inr (by rw [hk]; rfl))))) (by simp [hk])
    case h_7 hk =>
      exact recognizes_literal _ (.inr (.inr (.inr (.inr (by rw [hk]; rfl))))) (by simp [hk])
    case h_8 hk => exact recognizes_value_of_listTail hk (recognizes_listValue ih t)
    case h_9 hk => exact recognizes_value_of_objectTail hk (recognizes_objectValue ih t)
    case h_10 hk => exact recognizes_enumConstant (by rw [hk]; rfl)
    case h_11 hk => exact recognizes_enumConstant (by rw [hk]; rfl)
    case h_12 hint hfloat hstring hblock _ _ _ hopen hbrace hname hkeyword =>
      refine recognizes_value_of_atom (refuse_token not_clean_noValue ?_) hopen hbrace
      rintro (h | h | h | h | h)
      · exact hint h.1
      · exact hfloat h
      · exact hstring h
      · exact hblock h
      · cases hk : t.kind with
        | name => exact hname hk
        | keyword w => exact hkeyword w hk
        | _ =>
          rw [hk] at h
          cases h

theorem recognizes_value : Recognizes (Within n) value Grammar.value [] :=
  ofBound recognizes_valueUpTo

/-! ## Directives -/

theorem recognizes_argument : Recognizes (Within n) argument namedValue [] := by
  unfold argument
  rw [namedValue_eq]
  refine look fun _ => recognizes_name.bind (shields_nil _ _) fun _ => ?_
  refine (recognizes_expect (by decide)).bind (shields_nil _ _) fun _ => ?_
  exact recognizes_value.bind_quiet fun _ _ => rfl

theorem directive_eq :
    Grammar.directive = tok (.punct .atSign) * (Grammar.name *
      opt (tok (.punct .parenOpen) * (namedValue∗ * tok (.punct .parenClose)))) := by
  simp only [Grammar.directive, mark, namedValue, mul_assoc]

theorem recognizes_directive {t : Token} (ht : t.kind = .punct .atSign) :
    Recognizes (At t n) directive Grammar.directive [.punct .parenOpen] := by
  unfold directive
  dsimp only
  rw [directive_eq]
  refine look fun _ => next ht fun _ => recognizes_name.bind (shields_nil _ _) fun _ => ?_
  refine branch_quiet (by decide) ?_ (fun _ => rfl) List.mem_cons_self
  exact recognizes_closed (by decide)
    (many_before recognizes_argument starts_namedValue (by decide) (by decide)) (by decide)
    fun _ _ => rfl

theorem starts_directive : Starts Grammar.directive [.punct .atSign] :=
  ((starts_tok _).mul_of_ne (nil_notMem_one _) _).mul_of_ne (nil_notMem_mul (nil_notMem_one _) _) _

/-- The kinds that would go on after the uses of directives. -/
def afterDirectives : List TokenKind := [.punct .atSign, .punct .parenOpen]

theorem recognizes_directives :
    Recognizes (Within n) directives Grammar.directive∗ afterDirectives :=
  many_sees (by decide) (fun _ _ ht => recognizes_directive ht) starts_directive (by decide)

/-- Uses of directives at the end of a part. -/
theorem recognizes_directives_bind {α : Type} {f : List Directive → Reader α}
    (hf : ∀ ds s, (f ds s).2 = s) (hmore : ∀ k ∈ afterDirectives, k ∈ more) :
    Recognizes (Within n) (directives >>= f) Grammar.directive∗ more :=
  (recognizes_directives.mono hmore).bind_quiet hf

/-! ## Fields and input values -/

/-- The kinds that descriptions and names start with. -/
def describedKinds : List TokenKind := descriptionKinds ++ nameKinds

theorem starts_described (m : Language Token) :
    Starts (Grammar.description * (Grammar.name * m)) describedKinds :=
  (starts_description.mono fun _ h => List.mem_append_left _ h).mul
    ((starts_name.mono fun _ h => List.mem_append_right _ h).mul_of_ne nil_notMem_name _)

/-- A description, if there is one, and a name. -/
theorem recognizes_described {α : Type} {f : Option Description → Token → Name → Reader α}
    {m : Language Token} [∀ d t nm, Forward (f d t nm)]
    (h : ∀ d t nm, Recognizes (Within n) (f d t nm) m more) :
    Recognizes (Within n)
      (do let d ← description?; let t ← Reader.peek; let nm ← name; f d t nm)
      (Grammar.description * (Grammar.name * m)) more := by
  refine recognizes_description?.bind (shields_name_mul (by decide)) fun d => ?_
  exact look fun t => recognizes_name.bind (shields_nil _ _) fun nm => h d t nm

theorem inputValue_eq :
    Grammar.inputValue = Grammar.description * (Grammar.name * (tok (.punct .colon) *
      (Grammar.type * (opt (tok (.punct .equals) * Grammar.value) * Grammar.directive∗)))) := by
  simp only [Grammar.inputValue, mark, mul_assoc]

theorem recognizes_inputValue :
    Recognizes (Within n) inputValue Grammar.inputValue
      (.punct .bang :: .punct .equals :: afterDirectives) := by
  rw [inputValue_eq]
  unfold inputValue
  dsimp only
  refine recognizes_described fun d t nm => ?_
  refine (recognizes_expect (by decide)).bind (shields_nil _ _) fun _ => ?_
  have hstart : Starts (opt (tok (.punct .equals) * Grammar.value) * Grammar.directive∗)
      [.punct .equals, .punct .atSign] :=
    ((starts_tok_mul _ _).opt.mono (by decide)).mul (starts_directive.kstar.mono (by decide))
  refine recognizes_typeRef.bind (shields_of_starts hstart (by decide) (by decide)) fun type => ?_
  refine branch_opt (by decide) ?_ ?_ ?_
  · refine recognizes_value.map.bind (shields_nil _ _) fun _ => ?_
    exact recognizes_directives_bind (fun _ _ => rfl) (by decide)
  · refine skip (fun _ => rfl) fun _ => ?_
    exact recognizes_directives_bind (fun _ _ => rfl) (by decide)
  · exact shields_of_starts starts_directive.kstar (by decide) (by decide)

theorem starts_inputValue : Starts Grammar.inputValue describedKinds := by
  simp only [Grammar.inputValue, mul_assoc]
  exact starts_described _

theorem recognizes_inputValues :
    Recognizes (Within n) inputValues Grammar.inputValue∗
      (others [.punct .parenClose, .punct .braceClose]) :=
  many_before recognizes_inputValue starts_inputValue (by decide) (by decide)

theorem arguments_eq :
    Grammar.arguments =
      opt (tok (.punct .parenOpen) * (Grammar.inputValue∗ * tok (.punct .parenClose))) := by
  simp only [Grammar.arguments, mark, mul_assoc]

theorem recognizes_argumentDefinitions :
    Recognizes (Within n) argumentDefinitions Grammar.arguments [.punct .parenOpen] := by
  rw [arguments_eq]
  unfold argumentDefinitions
  refine branch_quiet (by decide) ?_ (fun _ => rfl) List.mem_cons_self
  exact recognizes_closed (by decide) recognizes_inputValues (by decide) fun _ _ => rfl

theorem field_eq :
    Grammar.field = Grammar.description * (Grammar.name * (Grammar.arguments *
      (tok (.punct .colon) * (Grammar.type * Grammar.directive∗)))) := by
  simp only [Grammar.field, mark, mul_assoc]

theorem recognizes_field :
    Recognizes (Within n) field Grammar.field (.punct .bang :: afterDirectives) := by
  rw [field_eq]
  unfold field
  dsimp only
  refine recognizes_described fun d t nm => ?_
  refine recognizes_argumentDefinitions.bind (shields_tok_mul (by decide)) fun _ => ?_
  refine (recognizes_expect (by decide)).bind (shields_nil _ _) fun _ => ?_
  refine recognizes_typeRef.bind ?_ fun _ => ?_
  · exact shields_of_starts starts_directive.kstar (by decide) (by decide)
  · exact recognizes_directives_bind (fun _ _ => rfl) (by decide)

theorem starts_field : Starts Grammar.field describedKinds := by
  simp only [Grammar.field, mul_assoc]
  exact starts_described _

theorem braced_eq (l : Language Token) :
    Grammar.braced l = opt (tok (.punct .braceOpen) * (l∗ * tok (.punct .braceClose))) := by
  simp only [Grammar.braced, mark, mul_assoc]

/-- Parts in braces, or nothing. -/
theorem recognizes_braced {α : Type} {item : Reader α} [Forward item] {l : Language Token}
    {heads : List TokenKind} (h : ∀ n, Recognizes (Within n) item l more) (hstart : Starts l heads)
    (hheads : ∀ k ∈ heads, k ∉ [TokenKind.punct .braceClose] ++ more)
    (hmore : TokenKind.punct .braceClose ∉ more) :
    Recognizes (Within n) (braced item) (Grammar.braced l) [.punct .braceOpen] := by
  rw [braced_eq]
  unfold braced
  refine branch_quiet (by decide) ?_ (fun _ => rfl) List.mem_cons_self
  refine recognizes_closed (by decide) (many_before (h _) hstart hheads ?_) (by decide)
    fun _ _ => rfl
  exact fun k hk hstop => hmore (List.mem_singleton.1 hstop ▸ hk)

/-- The kinds that would go on after implemented interfaces. -/
def afterInterfaces : List TokenKind := [.keyword .implements, .punct .ampersand, .name]

/-- A further interface without an ampersand is not spelt like a keyword. -/
theorem kind_eq_name {s : State} {t : Token} {ts : List Token} (hs : s.rest = t :: ts)
    (h : (s.sees (.punct .ampersand) || s.sees .name) = true) (ht : t.kind.isName) :
    t.kind = .name := by
  rw [sees_of_rest hs, sees_of_rest hs, Bool.or_eq_true, decide_eq_true_iff,
    decide_eq_true_iff] at h
  rcases h with h | h
  · rw [h] at ht
    cases ht
  · exact h

/-- One more interface: the ampersand may be missing before a name that is no keyword. -/
theorem recognizes_moreInterfaces :
    Recognizes (fun s => s.Within n ∧ (s.sees (.punct .ampersand) || s.sees .name) = true)
      (do let _ ← Reader.accept (.punct .ampersand); typeName)
      (mark .ampersand * Grammar.name + tok .name) [] := by
  have h : Recognizes (Within n) (do let _ ← Reader.accept (.punct .ampersand); typeName)
      (opt (tok (.punct .ampersand)) * Grammar.name) [] :=
    (recognizes_accept (by decide)).bind
      (shields_of_starts_of_ne starts_name nil_notMem_name (by decide)) fun _ => recognizes_typeName
  rw [opt, add_mul, one_mul, add_comm] at h
  refine (h.weaken fun _ hs => hs.1).congr fun s w rest hs hrest => or_congr_right ?_
  constructor
  · rintro ⟨t, ht, rfl⟩
    exact ⟨t, kind_eq_name hrest hs.2 ht, rfl⟩
  · rintro ⟨t, ht, rfl⟩
    refine ⟨t, ?_, rfl⟩
    show t.kind.isName
    rw [ht]
    rfl

theorem interfaces_eq :
    Grammar.interfaces = opt (tok (.keyword .implements) *
      (opt (tok (.punct .ampersand)) * (Grammar.name *
        (mark .ampersand * Grammar.name + tok .name)∗))) := by
  simp only [Grammar.interfaces, Grammar.word, mark, mul_assoc]

theorem recognizes_implementedInterfaces :
    Recognizes (Within n) implementedInterfaces Grammar.interfaces afterInterfaces := by
  have hstart : Starts (mark .ampersand * Grammar.name + tok .name) [.punct .ampersand, .name] :=
    ((starts_tok_mul _ _).mono (by decide)).add ((starts_tok _).mono (by decide))
  rw [interfaces_eq]
  unfold implementedInterfaces
  refine branch_quiet (by decide) ?_ (fun _ => rfl) List.mem_cons_self
  refine (recognizes_accept (by decide)).bind (shields_name_mul (by decide)) fun _ => ?_
  refine recognizes_typeName.bind (shields_nil _ _) fun first => ?_
  refine Recognizes.bind_quiet (rounds recognizes_moreInterfaces hstart (by decide) ?_ ?_
    (by decide)) fun _ _ => rfl
  · intro s t ts hs ht
    rw [sees_of_rest hs, sees_of_rest hs]
    simpa using ht
  · intro s hs
    rw [sees_eq_false (by decide) (by decide) hs, sees_eq_false (by decide) (by decide) hs]
    rfl

/-! ## Definitions -/

theorem rootOperation_eq :
    Grammar.rootOperation =
      one (fun t => (operationOf? t.kind).isSome) * (tok (.punct .colon) * Grammar.name) := by
  have hwords : Grammar.word .query + Grammar.word .mutation + Grammar.word .subscription =
      one fun t => (operationOf? t.kind).isSome := by
    ext w
    constructor
    · rintro ((⟨t, ht, rfl⟩ | ⟨t, ht, rfl⟩) | ⟨t, ht, rfl⟩)
      · exact ⟨t, by simp [operationOf?, ht], rfl⟩
      · exact ⟨t, by simp [operationOf?, ht], rfl⟩
      · exact ⟨t, by simp [operationOf?, ht], rfl⟩
    · rintro ⟨t, ht, rfl⟩
      unfold operationOf? at ht
      split at ht
      · exact .inl (.inl ⟨t, by assumption, rfl⟩)
      · exact .inl (.inr ⟨t, by assumption, rfl⟩)
      · exact .inr ⟨t, by assumption, rfl⟩
      · cases ht
  rw [Grammar.rootOperation, hwords, mul_assoc]
  rfl

theorem recognizes_rootOperation? :
    Recognizes (Within n) rootOperation? Grammar.rootOperation [] := by
  rw [rootOperation_eq]
  unfold rootOperation?
  refine look_at fun t => ?_
  split
  · rename_i operation hop
    have hne : t.kind ≠ .endOfInput := by
      intro hk
      rw [hk] at hop
      cases hop
    refine of_at (next (by rw [hop]; rfl) fun _ => ?_) hne
    refine (recognizes_expect (by decide)).bind (shields_nil _ _) fun _ => ?_
    exact recognizes_typeName.bind_quiet fun _ _ => rfl
  · rename_i hop
    refine refuse_first (fun s hc => ?_) (by rw [hop]; exact Bool.false_ne_true)
    exact not_clean_expected _ s (Forward.clean Reader.advance hc)

theorem starts_rootOperation :
    Starts Grammar.rootOperation [.keyword .query, .keyword .mutation, .keyword .subscription] := by
  rw [rootOperation_eq]
  refine Starts.mul_of_ne (starts_token fun t ht' => ?_) (nil_notMem_one _) _
  unfold operationOf? at ht'
  split at ht'
  · simp_all
  · simp_all
  · simp_all
  · cases ht'

/-- What follows the keyword of a schema definition. -/
def schemaTail : Language Token :=
  Grammar.directive∗ * (tok (.punct .braceOpen) * (Grammar.rootOperation∗ *
    tok (.punct .braceClose)))

theorem recognizes_schemaDefinition (d : Option Description) (t : Token) :
    Recognizes (At t n) (schemaDefinition d) (tok t.kind * schemaTail) more := by
  unfold schemaDefinition
  refine look fun _ => next rfl fun _ => ?_
  refine recognizes_directives.bind (shields_tok_mul (by decide)) fun _ => ?_
  refine (recognizes_expect (by decide)).bind (shields_nil _ _) fun _ => ?_
  exact recognizes_closed (by decide)
    (many_before recognizes_rootOperation? starts_rootOperation (by decide) (by decide))
    (by decide) fun _ _ => rfl

/-- What follows the keyword of an object or interface type. -/
def fieldsTail : Language Token :=
  Grammar.name * (Grammar.interfaces * (Grammar.directive∗ * Grammar.braced Grammar.field))

theorem starts_braced (l : Language Token) : Starts (Grammar.braced l) [.punct .braceOpen] := by
  rw [braced_eq]
  exact (starts_tok_mul _ _).opt

/-- The kinds that would go on after the parts of a definition. -/
def afterDefinition : List TokenKind :=
  afterDirectives ++ afterInterfaces ++ [.punct .braceOpen, .punct .equals, .punct .pipe]

/-- Uses of directives before something that may be missing. -/
theorem shields_opt_directives {l : Language Token} {heads : List TokenKind} (h : Starts l heads)
    (hheads : ∀ k ∈ heads, k ∉ afterDirectives) : Shields l afterDefinition afterDirectives :=
  shields_of_starts h hheads (by decide)

theorem recognizes_fieldsDefinition (d : Option Description) (t : Token) :
    Recognizes (At t n) (fieldsDefinition d) (tok t.kind * fieldsTail) afterDefinition := by
  have hstart : Starts (Grammar.directive∗ * Grammar.braced Grammar.field)
      [.punct .atSign, .punct .braceOpen] :=
    (starts_directive.kstar.mono (by decide)).mul ((starts_braced _).mono (by decide))
  unfold fieldsDefinition
  refine look fun _ => next rfl fun _ => recognizes_name.bind (shields_nil _ _) fun _ => ?_
  refine recognizes_implementedInterfaces.bind (shields_of_starts hstart (by decide) (by decide))
    fun _ => ?_
  refine recognizes_directives.bind (shields_opt_directives (starts_braced _) (by decide))
    fun _ => ?_
  refine ((recognizes_braced (fun _ => recognizes_field) starts_field (by decide)
    (by decide)).mono (by decide)).bind_quiet fun _ _ => rfl

/-- Names, each after a bar. -/
def moreNames : Language Token := (tok (.punct .pipe) * Grammar.name)∗

theorem alternatives_eq :
    Grammar.alternatives = opt (tok (.punct .pipe)) * (Grammar.name * moreNames) := by
  simp only [Grammar.alternatives, mark, moreNames, mul_assoc]

theorem recognizes_unionMembers :
    Recognizes (Within n) unionMembers (opt (tok (.punct .equals) * Grammar.alternatives))
      [.punct .equals, .punct .pipe] := by
  rw [alternatives_eq]
  unfold unionMembers
  refine branch_quiet (by decide) ?_ (fun _ => rfl) List.mem_cons_self
  refine (recognizes_accept (by decide)).bind (shields_name_mul (by decide)) fun _ => ?_
  refine recognizes_typeName.bind (shields_nil _ _) fun _ => ?_
  have hmore : Recognizes (Within (n - 1))
      (Reader.many (fun s => s.sees (.punct .pipe)) (do Reader.advance; typeName)) moreNames
      [.punct .pipe] :=
    many_sees (by decide) (fun _ _ ht => next ht fun _ => recognizes_typeName)
      (starts_tok_mul _ _) (by decide)
  exact (hmore.mono (by decide)).bind_quiet fun _ _ => rfl

/-- What follows the keyword of a union type. -/
def unionTail : Language Token :=
  Grammar.name * (Grammar.directive∗ * opt (tok (.punct .equals) * Grammar.alternatives))

theorem recognizes_unionDefinition (d : Option Description) (t : Token) :
    Recognizes (At t n) (unionDefinition d) (tok t.kind * unionTail) afterDefinition := by
  unfold unionDefinition
  refine look fun _ => next rfl fun _ => recognizes_name.bind (shields_nil _ _) fun _ => ?_
  refine recognizes_directives.bind
    (shields_opt_directives (starts_tok_mul _ _).opt (by decide)) fun _ => ?_
  exact (recognizes_unionMembers.mono (by decide)).bind_quiet fun _ _ => rfl

theorem recognizes_enumValue :
    Recognizes (Within n) enumValue Grammar.enumValue afterDirectives := by
  rw [Grammar.enumValue, mul_assoc]
  unfold enumValue
  exact recognizes_described fun _ _ _ => recognizes_directives_bind (fun _ _ => rfl) fun _ h => h

theorem starts_enumValue : Starts Grammar.enumValue describedKinds := by
  rw [Grammar.enumValue, mul_assoc]
  exact starts_described _

/-- What follows the keyword of a type that has a name and parts in braces. -/
def bracedTail (part : Language Token) : Language Token :=
  Grammar.name * (Grammar.directive∗ * Grammar.braced part)

theorem recognizes_enumDefinition (d : Option Description) (t : Token) :
    Recognizes (At t n) (enumDefinition d) (tok t.kind * bracedTail Grammar.enumValue)
      afterDefinition := by
  unfold enumDefinition
  refine look fun _ => next rfl fun _ => recognizes_name.bind (shields_nil _ _) fun _ => ?_
  refine recognizes_directives.bind (shields_opt_directives (starts_braced _) (by decide))
    fun _ => ?_
  exact ((recognizes_braced (fun _ => recognizes_enumValue) starts_enumValue (by decide)
    (by decide)).mono (by decide)).bind_quiet fun _ _ => rfl

theorem recognizes_inputDefinition (d : Option Description) (t : Token) :
    Recognizes (At t n) (inputDefinition d) (tok t.kind * bracedTail Grammar.inputValue)
      afterDefinition := by
  unfold inputDefinition
  dsimp only
  refine look fun _ => next rfl fun _ => recognizes_name.bind (shields_nil _ _) fun _ => ?_
  refine recognizes_directives.bind (shields_opt_directives (starts_braced _) (by decide))
    fun _ => ?_
  rw [braced_eq]
  refine branch_quiet (by decide) ?_ (fun _ => rfl) (by decide)
  exact recognizes_closed (by decide) recognizes_inputValues (by decide) fun _ _ => rfl

/-- What follows the keyword of a scalar type. -/
def scalarTail : Language Token := Grammar.name * Grammar.directive∗

theorem recognizes_scalarDefinition (d : Option Description) (t : Token) :
    Recognizes (At t n) (scalarDefinition d) (tok t.kind * scalarTail) afterDefinition := by
  unfold scalarDefinition
  refine look fun _ => next rfl fun _ => recognizes_name.bind (shields_nil _ _) fun _ => ?_
  exact recognizes_directives_bind (fun _ _ => rfl) (by decide)

theorem clean_flag_warning (code title message : String) {s : State} (h : s.Clean) :
    (flag .warning code title message s).2.Clean :=
  clean_add_iff.2 ⟨h, rfl⟩

theorem recognizes_location? {t : Token} (ht : t.kind.isName) :
    Recognizes (fun s => s.Within n ∧ s.current = t) location? Grammar.name more := by
  refine take (fun s => ?_) (fun s hc => ?_) (kind_ne_endOfInput ht) ht
  · unfold location?
    rw [bind_apply]
    dsimp only
    split <;> rfl
  · unfold location?
    rw [bind_apply]
    dsimp only
    split
    · exact clean_flag_warning _ _ _ hc
    · exact hc

theorem moreNames_eq : moreNames = opt (tok (.punct .pipe) * (Grammar.name * moreNames)) := by
  conv_lhs => rw [moreNames, ← Language.one_add_self_mul_kstar_eq_kstar]
  rw [opt, moreNames, mul_assoc]

theorem recognizes_locationsUpTo :
    ∀ n, Recognizes (Within n) (locationsUpTo n) (Grammar.name * moreNames) [.punct .pipe]
  | 0 => refuse_within_zero (fun s _ hc => not_clean_expected _ s hc)
      (nil_notMem_mul nil_notMem_name _)
  | n + 1 => by
    have ih := recognizes_locationsUpTo n
    have hforward := forward_locationsUpTo n
    unfold locationsUpTo locationsAt
    dsimp only
    refine look_at fun t => ?_
    split
    · rename_i ht
      refine (recognizes_location? ht).bind' (Q := Within (n + 1)) (fun known => ?_) ?_
        (shields_nil _ _)
      · rw [moreNames_eq]
        refine branch_quiet (by decide) ?_ (fun _ => rfl) List.mem_cons_self
        exact ih.bind_quiet fun _ _ => rfl
      · exact fun s hs => (Forward.leads s).within hs.1
    · rename_i ht
      exact refuse_first (fun s hc => not_clean_expected _ s hc) ht

theorem recognizes_locations :
    Recognizes (Within n) locations Grammar.alternatives [.punct .pipe] := by
  rw [alternatives_eq]
  unfold locations
  have hforward : Forward fun s => locationsUpTo s.rest.length s :=
    Forward.ofBound forward_locationsUpTo
  exact (recognizes_accept (by decide)).bind (shields_name_mul (by decide)) fun _ =>
    ofBound recognizes_locationsUpTo

/-- What follows the keyword of a directive. -/
def directiveTail : Language Token :=
  tok (.punct .atSign) * (Grammar.name * (Grammar.arguments *
    (opt (tok (.keyword .repeatable)) * (tok (.keyword .onLocation) * Grammar.alternatives))))

theorem recognizes_directiveDefinition (d : Option Description) (t : Token) :
    Recognizes (At t n) (directiveDefinition d) (tok t.kind * directiveTail) afterDefinition := by
  have hstart : Starts (opt (tok (.keyword .repeatable)) *
      (tok (.keyword .onLocation) * Grammar.alternatives))
      [.keyword .repeatable, .keyword .onLocation] :=
    ((starts_tok _).opt.mono (by decide)).mul ((starts_tok_mul _ _).mono (by decide))
  unfold directiveDefinition
  refine look fun _ => next rfl fun _ => ?_
  refine (recognizes_expect (by decide)).bind (shields_nil _ _) fun _ => ?_
  refine recognizes_name.bind (shields_nil _ _) fun _ => ?_
  refine recognizes_argumentDefinitions.bind (shields_of_starts hstart (by decide) (by decide))
    fun _ => ?_
  refine (recognizes_accept (by decide)).bind (shields_tok_mul (by decide)) fun _ => ?_
  refine (recognizes_expect (by decide)).bind (shields_nil _ _) fun _ => ?_
  exact (recognizes_locations.mono (by decide)).bind_quiet fun _ _ => rfl

/-! ## Dispatch -/

/-- What follows the keyword of a definition. -/
def definitionTail : Keyword → Language Token
  | .schema => schemaTail
  | .type => fieldsTail
  | .interface => fieldsTail
  | .union => unionTail
  | .enum => bracedTail Grammar.enumValue
  | .input => bracedTail Grammar.inputValue
  | .scalar => scalarTail
  | .directive => directiveTail
  | _ => 0

theorem bareDefinition_eq :
    bareDefinition = Grammar.word .schema * definitionTail .schema +
      (Grammar.word .type * definitionTail .type +
        Grammar.word .interface * definitionTail .interface) +
      Grammar.word .union * definitionTail .union + Grammar.word .enum * definitionTail .enum +
      Grammar.word .input * definitionTail .input +
      Grammar.word .scalar * definitionTail .scalar +
      Grammar.word .directive * definitionTail .directive := by
  simp only [bareDefinition, Grammar.schemaDefinition, Grammar.fieldsDefinition,
    Grammar.unionDefinition, Grammar.enumDefinition, Grammar.inputDefinition,
    Grammar.scalarDefinition, Grammar.directiveDefinition, definitionTail, schemaTail, fieldsTail,
    unionTail, bracedTail, scalarTail, directiveTail, add_mul, mul_assoc, mark, Grammar.word]

/-- A definition is told by its keyword. -/
theorem cons_mem_bareDefinition_iff {t : Token} {ts : List Token} :
    t :: ts ∈ bareDefinition ↔ ∃ k, t.kind = .keyword k ∧ ts ∈ definitionTail k := by
  simp only [bareDefinition_eq, Language.mem_add, Grammar.word, tok, cons_mem_one_mul_iff]
  constructor
  · rintro ((((((h | h | h) | h) | h) | h) | h) | h)
    · exact ⟨_, h⟩
    · exact ⟨_, h⟩
    · exact ⟨_, h⟩
    · exact ⟨_, h⟩
    · exact ⟨_, h⟩
    · exact ⟨_, h⟩
    · exact ⟨_, h⟩
    · exact ⟨_, h⟩
  · rintro ⟨k, h⟩
    cases k with
    | schema => exact .inl (.inl (.inl (.inl (.inl (.inl h)))))
    | type => exact .inl (.inl (.inl (.inl (.inl (.inr (.inl h))))))
    | interface => exact .inl (.inl (.inl (.inl (.inl (.inr (.inr h))))))
    | union => exact .inl (.inl (.inl (.inl (.inr h))))
    | enum => exact .inl (.inl (.inl (.inr h)))
    | input => exact .inl (.inl (.inr h))
    | scalar => exact .inl (.inr h)
    | directive => exact .inr h
    | _ => exact absurd h.2 (Language.notMem_zero ts)

theorem nil_notMem_bareDefinition : [] ∉ bareDefinition := by
  have h (k : Keyword) (m : Language Token) : [] ∉ Grammar.word k * m :=
    nil_notMem_mul (nil_notMem_one _) m
  simp only [bareDefinition_eq, Language.mem_add, h, or_self, not_false_eq_true]

/-- The definition that a keyword introduces. -/
theorem recognizes_of_keyword {α : Type} {r : Reader α} {t : Token} {k : Keyword}
    (ht : t.kind = .keyword k)
    (h : Recognizes (At t (n - 1)) r (tok t.kind * definitionTail k) more) :
    Recognizes (fun s => s.Within n ∧ s.current = t) r bareDefinition more := by
  have hne : t.kind ≠ .endOfInput := by
    rw [ht]
    intro hk
    cases hk
  refine (h.of_at hne).at_head (nil_notMem_mul (nil_notMem_one _) _) nil_notMem_bareDefinition
    fun ts => ?_
  rw [tok, cons_mem_one_mul_iff, cons_mem_bareDefinition_iff]
  constructor
  · exact fun h => ⟨k, ht, h.2⟩
  · rintro ⟨k', hk', hts⟩
    cases ht.symm.trans hk'
    exact ⟨rfl, hts⟩

/-- A reader that always reports an error, where no definition starts. -/
theorem refuse_definition {α : Type} {r : Reader α} {t : Token} (h : ∀ s, ¬ (r s).2.Clean)
    (ht : ∀ k, t.kind = .keyword k → definitionTail k = 0) :
    Recognizes (fun s => s.Within n ∧ s.current = t) r bareDefinition more := by
  refine refuse_head h nil_notMem_bareDefinition fun ts hts => ?_
  obtain ⟨k, hk, htail⟩ := cons_mem_bareDefinition_iff.1 hts
  rw [ht k hk] at htail
  exact Language.notMem_zero ts htail

theorem not_clean_noDefinition (s : State) : ¬ (noDefinition s).2.Clean := fun hc =>
  not_clean_flag_bind _ _ _ (fun _ => pure none) s hc

theorem recognizes_definitionAt (d : Option Description) (extended : Reader (Option Definition))
    [Forward extended] :
    Recognizes (Within n) (definitionAt d extended) bareDefinition afterDefinition := by
  unfold definitionAt
  refine look_at fun t => ?_
  split
  case h_1 hk =>
    exact recognizes_of_keyword hk ((recognizes_schemaDefinition d t).bind_quiet fun _ _ => rfl)
  case h_2 hk =>
    exact recognizes_of_keyword hk ((recognizes_fieldsDefinition d t).bind_quiet fun _ _ => rfl)
  case h_3 hk =>
    exact recognizes_of_keyword hk ((recognizes_fieldsDefinition d t).bind_quiet fun _ _ => rfl)
  case h_4 hk =>
    exact recognizes_of_keyword hk ((recognizes_unionDefinition d t).bind_quiet fun _ _ => rfl)
  case h_5 hk =>
    exact recognizes_of_keyword hk ((recognizes_enumDefinition d t).bind_quiet fun _ _ => rfl)
  case h_6 hk =>
    exact recognizes_of_keyword hk ((recognizes_inputDefinition d t).bind_quiet fun _ _ => rfl)
  case h_7 hk =>
    exact recognizes_of_keyword hk ((recognizes_scalarDefinition d t).bind_quiet fun _ _ => rfl)
  case h_8 hk =>
    exact recognizes_of_keyword hk ((recognizes_directiveDefinition d t).bind_quiet fun _ _ => rfl)
  case h_9 hk =>
    refine refuse_definition (not_clean_flag_bind _ _ _ _) fun k hk' => ?_
    rw [hk] at hk'
    cases hk'
    rfl
  case h_10 h₁ h₂ h₃ h₄ h₅ h₆ h₇ h₈ _ =>
    refine refuse_definition not_clean_noDefinition fun k hk => ?_
    cases k with
    | schema => exact absurd hk h₁
    | type => exact absurd hk h₂
    | interface => exact absurd hk h₃
    | union => exact absurd hk h₄
    | enum => exact absurd hk h₅
    | input => exact absurd hk h₆
    | scalar => exact absurd hk h₇
    | directive => exact absurd hk h₈
    | _ => rfl

/-- A reader that finds what it looks for unless it reports an error. -/
def Finds {α : Type} (r : Reader (Option α)) : Prop := ∀ s, (r s).2.Clean → (r s).1.isSome

theorem finds_look {α : Type} {f : Token → Reader (Option α)} (h : ∀ t, Finds (f t)) :
    Finds (Reader.peek >>= f) := fun s => h s.current s

theorem finds_some {α β : Type} (r : Reader α) (g : α → β) :
    Finds (do return some (g (← r))) := fun _ _ => rfl

theorem finds_noDefinition : Finds noDefinition := fun s hc => absurd hc (not_clean_noDefinition s)

theorem finds_definitionAt (d : Option Description) (extended : Reader (Option Definition))
    [Forward extended] : Finds (definitionAt d extended) := by
  unfold definitionAt
  refine finds_look fun t => ?_
  split
  case h_9 => exact fun s hc => absurd hc (not_clean_flag_bind _ _ _ _ s)
  case h_10 => exact finds_noDefinition
  all_goals exact finds_some _ _

theorem finds_definitionUpTo : ∀ n, Finds (definitionUpTo n)
  | 0 => finds_noDefinition
  | n + 1 => fun s =>
    have := forward_definitionUpTo n
    finds_definitionAt (description? s).1 (definitionUpTo n) (description? s).2

theorem finds_definition : Finds definition? := fun s => finds_definitionUpTo s.rest.length s

/-- The kinds of token that start a definition without its description. -/
def definitionKinds : List TokenKind :=
  [.keyword .schema, .keyword .type, .keyword .interface, .keyword .union, .keyword .enum,
    .keyword .input, .keyword .scalar, .keyword .directive]

theorem starts_bareDefinition : Starts bareDefinition definitionKinds := by
  intro t ts h
  obtain ⟨k, hk, hts⟩ := cons_mem_bareDefinition_iff.1 h
  rw [hk]
  cases k with
  | schema | type | interface | union | enum | input | scalar | directive => decide
  | _ => exact absurd hts (Language.notMem_zero ts)

theorem starts_definition : Starts definition (descriptionKinds ++ definitionKinds) :=
  (starts_description.mono fun _ h => List.mem_append_left _ h).mul
    (starts_bareDefinition.mono fun _ h => List.mem_append_right _ h)

theorem nil_notMem_definition : [] ∉ definition := by
  intro h
  obtain ⟨u, _, v, hv, huv⟩ := Language.mem_mul.1 h
  obtain ⟨_, rfl⟩ := List.append_eq_nil_iff.1 huv
  exact nil_notMem_bareDefinition hv

theorem recognizes_definitionUpTo :
    ∀ n, Recognizes (Within n) (definitionUpTo n) definition afterDefinition
  | 0 => refuse_within_zero (fun s _ => not_clean_noDefinition s) nil_notMem_definition
  | n + 1 =>
    have := forward_definitionUpTo n
    recognizes_description?.bind
      (shields_of_starts_of_ne starts_bareDefinition nil_notMem_bareDefinition (by decide))
      fun d => recognizes_definitionAt d (definitionUpTo n)

/-- **A definition is recognised together with its description.** -/
theorem recognizes_definition : Recognizes (Within n) definition? definition afterDefinition :=
  ofBound recognizes_definitionUpTo

/-- Where there is a definition, nothing is skipped. -/
theorem definitionOrSkip_apply {s : State} (h : (definition? s).1.isSome) :
    definitionOrSkip s = definition? s := by
  obtain ⟨x, hx⟩ := Option.isSome_iff_exists.1 h
  unfold definitionOrSkip
  rw [bind_apply, hx]
  exact Prod.ext hx.symm rfl

theorem recognizes_definitionOrSkip :
    Recognizes (Within n) definitionOrSkip definition afterDefinition where
  sound s hn hc := by
    have hsome : (definition? s).1.isSome := by
      by_contra hnone
      have hrecover : (recover (definition? s).2).2.Clean := by
        unfold definitionOrSkip at hc
        rw [bind_apply, Option.not_isSome_iff_eq_none.1 hnone] at hc
        exact hc
      exact hnone (finds_definition s (Forward.clean recover hrecover))
    rw [definitionOrSkip_apply hsome] at hc ⊢
    exact recognizes_definition.sound s hn hc
  complete s w rest hn hc hw hs hrest := by
    have h := recognizes_definition.complete s w rest hn hc hw hs hrest
    rw [definitionOrSkip_apply (finds_definition s h.1)]
    exact h

/-! ## Documents -/

theorem rest_eq_nil_of_stops {rest : List Token} (h : Stops allKinds rest) : rest = [] := by
  cases rest with
  | nil => rfl
  | cons t ts => exact absurd (mem_allKinds t.kind) (stops_cons.1 h)

theorem recognizes_document : Recognizes (Within n) Reader.document definition∗ allKinds := by
  refine look fun t => Recognizes.bind_quiet ?_ fun _ _ => rfl
  refine rounds (recognizes_definitionOrSkip.weaken fun _ h => h.1) starts_definition (by decide)
    ?_ ?_ fun k _ => mem_allKinds k
  · intro s t ts hs _
    rw [State.atEnd, hs]
    rfl
  · intro s h
    rw [State.atEnd, rest_eq_nil_of_stops h]
    rfl

/-- Without errors a document is read to its end. -/
theorem rest_document {s : State} (hc : (Reader.document s).2.Clean) :
    (Reader.document s).2.rest = [] := by
  have h : (!(Reader.document s).2.atEnd) = false :=
    go_manyUpTo (n := s.rest.length) (recognizes_definitionOrSkip.weaken fun _ h => h.1)
      nil_notMem_definition (fun s hs => by rw [State.atEnd, hs]; rfl) s.rest.length s
      (Nat.le_refl _) (Nat.le_refl _) hc
  rw [Bool.not_eq_false'] at h
  exact List.isEmpty_iff.1 h

/-- A document is read without errors if and only if its tokens are definitions. -/
theorem clean_document_iff {s : State} (hs : s.Clean) :
    (Reader.document s).2.Clean ↔ s.rest ∈ definition∗ := by
  have h := recognizes_document (n := s.rest.length)
  constructor
  · intro hc
    obtain ⟨w, hw, heq⟩ := h.sound s (Nat.le_refl _) hc
    rw [rest_document hc, List.append_nil] at heq
    exact heq ▸ hw
  · intro hw
    exact (h.complete s _ [] (Nat.le_refl _) hs hw (List.append_nil _).symm (stops_nil _)).1

end Reader

/-- The tokens of a text form a document if those before the end mark form definitions. -/
theorem tokenize_mem_document_iff (source : String) :
    tokenize source ∈ Grammar.document ↔ (State.start source).rest ∈ definition∗ := by
  constructor
  · intro h
    obtain ⟨u, hu, v, ⟨t, _, rfl⟩, huv⟩ := Language.mem_mul.1 h
    obtain ⟨rfl, _⟩ := List.append_inj' huv rfl
    exact hu
  · exact fun h => Language.append_mem_mul h ⟨_, rfl, rfl⟩

/-- **A schema is read without errors if and only if its tokens follow the grammar.** -/
theorem hasErrors_parse_iff (source : String) :
    (parse source).report.hasErrors = false ↔ tokenize source ∈ Grammar.document := by
  rw [tokenize_mem_document_iff]
  have h := Reader.recognizes_document (n := (State.start source).rest.length)
  constructor
  · intro hc
    obtain ⟨w, hw, heq⟩ := h.sound (State.start source) (Nat.le_refl _) hc
    rw [Reader.rest_document hc, List.append_nil] at heq
    exact heq ▸ hw
  · intro hw
    exact (h.complete (State.start source) _ [] (Nat.le_refl _) rfl hw
      (List.append_nil _).symm (stops_nil _)).1

end SchemaToFlow.Schema
