import SchemaToFlow.Proofs.Seam
import SchemaToFlow.Proofs.Tiling

/-!
# The first error stands at the first token that does not fit

Up to the first error, a reader has taken tokens with which a word of its language can start
(`Viable`), and the error is about the token after them. `Reader.Blames P r l` says so of a reader
and a language, in the states that `P` holds of. The rules follow the way in which readers are put
together, like those of `Recognizes`, and need no lookahead: what is still missing of a word may be
anything.

That no word goes on with the token in question needs no rule for each reader. Reading sees one token
ahead (`Local`), so whatever followed that token, the error would have been reported, and without
errors there is no word (`not_mem_of_accuses`).

* `blames_document`: one lemma for each reader, up to documents.
* `first_error_of_parse`: both halves together, about a source.
-/

set_option synthInstance.maxSize 1000

namespace SchemaToFlow.Schema

open Computability Grammar State

/-! ## Beginnings of words -/

section Viable

variable {l m : Language Token} {u w : List Token}

/-- A word of the language starts with the tokens. -/
def Viable (l : Language Token) (w : List Token) : Prop := ∃ v, w ++ v ∈ l

theorem Viable.mono (h : Viable l w) (hlm : l ≤ m) : Viable m w := by
  obtain ⟨v, hv⟩ := h
  exact ⟨v, hlm hv⟩

theorem viable_nil_of_mem (h : u ∈ l) : Viable l [] := ⟨u, h⟩

/-- The first part of a word, where there is some second part. -/
theorem Viable.mul_left (h : Viable l w) (hm : Viable m []) : Viable (l * m) w := by
  obtain ⟨v, hv⟩ := h
  obtain ⟨v', hv'⟩ := hm
  refine ⟨v ++ v', ?_⟩
  rw [← List.append_assoc]
  exact Language.append_mem_mul hv hv'

theorem Viable.mul_right (hu : u ∈ l) (h : Viable m w) : Viable (l * m) (u ++ w) := by
  obtain ⟨v, hv⟩ := h
  refine ⟨v, ?_⟩
  rw [List.append_assoc]
  exact Language.append_mem_mul hu hv

theorem viable_one (p : Token → Prop) {t : Token} (h : p t) : Viable (one p) [] :=
  viable_nil_of_mem ⟨t, h, rfl⟩

theorem viable_tok (k : TokenKind) : Viable (tok k) [] :=
  viable_one _ (t := ⟨k, .emptyAt 0, ""⟩) rfl

theorem viable_name : Viable Grammar.name [] := viable_one _ (t := ⟨.name, .emptyAt 0, ""⟩) rfl

theorem viable_opt (l : Language Token) : Viable (opt l) [] := viable_nil_of_mem (.inl rfl)

end Viable

theorem State.not_clean_of_mem {s : State} {d : Diagnostic} (hd : d ∈ s.report.entries)
    (herror : d.isError = true) : ¬ s.Clean := fun hc =>
  Bool.false_ne_true (hc.symm.trans (List.any_eq_true.2 ⟨d, hd, herror⟩))

/-- The first error reported is about the token. -/
def State.Accuses (s : State) (t : Token) : Prop :=
  ∃ d, s.report.errors.head? = some d ∧ t.FlaggedBy d

/-- Reading on does not change what the first error is. -/
theorem State.Accuses.read {α : Type} (r : Reader α) [Reader.Located r] {s : State} {t : Token}
    (h : s.Accuses t) : (r s).2.Accuses t := by
  obtain ⟨d, hd, ht⟩ := h
  obtain ⟨late, hlate, _⟩ := Reader.Located.report (r := r) s
  refine ⟨d, ?_, ht⟩
  unfold Report.errors at hd ⊢
  rw [hlate, List.filter_append, List.head?_append, hd]
  rfl

namespace Reader

variable {α β : Type}

/-! ## Where findings are made -/

instance (r : Reader α) (f : α → Reader β) [hr : Located r] [hf : ∀ a, Located (f a)] :
    Located (r >>= f) :=
  hr.bind hf

instance (c : Prop) [Decidable c] (r r' : Reader α) [Located r] [Located r'] :
    Located (if c then r else r') := by
  split
  · infer_instance
  · infer_instance

theorem located_manyUpTo (go : State → Bool) (r : Reader α) [Located r] :
    ∀ i, Located (manyUpTo go r i)
  | 0 => inferInstanceAs (Located (pure [] : Reader (List α)))
  | i + 1 =>
    have := located_manyUpTo go r i
    located_choose (do return (← r) :: (← manyUpTo go r i)) (pure [])

instance (go : State → Bool) (r : Reader α) [Located r] : Located (many go r) where
  rest s := (located_manyUpTo go r _).rest s
  finish s := (located_manyUpTo go r _).finish s
  report s := (located_manyUpTo go r _).report s

/-- The first thing the reader does is to report the next token. -/
def AccusesNext (r : Reader α) : Prop := ∀ s : State, s.Clean → (r s).2.Accuses s.current

theorem AccusesNext.bind {r : Reader α} {f : α → Reader β} [∀ a, Located (f a)]
    (h : AccusesNext r) : AccusesNext (r >>= f) :=
  fun s hs => (h s hs).read (f _)

theorem AccusesNext.look {f : Token → Reader β} (h : ∀ t, AccusesNext (f t)) :
    AccusesNext (peek >>= f) := fun s => h s.current s

theorem accusesNext_flag (code title message : String) :
    AccusesNext (flag .error code title message) := by
  intro s hs
  refine ⟨.located .error code title s.current.span message, ?_, .error, code, title, message, rfl⟩
  have hnone : s.report.errors = [] :=
    List.filter_eq_nil_iff.2 fun d hd herror => not_clean_of_mem hd herror hs
  show ((s.report.entries ++ [_]).filter Diagnostic.isError).head? = _
  rw [List.filter_append]
  show (s.report.errors ++ [_]).head? = _
  rw [hnone]
  rfl

theorem accusesNext_expected (what : String) : AccusesNext (expected what) := by
  intro s hs
  unfold expected
  split
  · exact accusesNext_flag _ _ _ s hs
  · exact accusesNext_flag _ _ _ s hs

/-- **A reader blames the token after the beginning of a word**, if it reports an error. -/
structure Blames (P : State → Prop) (r : Reader α) (l : Language Token) : Prop where
  inhabited : Viable l []
  blames : ∀ s, P s → s.Clean → ¬ (r s).2.Clean → ∃ w rest, s.rest = w ++ rest ∧ Viable l w ∧
    (r s).2.Accuses (rest.headD (.endAt s.finish))

namespace Blames

variable {P Q : State → Prop} {r : Reader α} {f : α → Reader β} {l m : Language Token} {n : Nat}

theorem mono (h : Blames P r l) (hlm : l ≤ m) : Blames P r m where
  inhabited := h.inhabited.mono hlm
  blames s hP hs hc := by
    obtain ⟨w, rest, hw, hviable, haccuses⟩ := h.blames s hP hs hc
    exact ⟨w, rest, hw, hviable.mono hlm, haccuses⟩

theorem weaken (h : Blames P r l) (hQ : ∀ s, Q s → P s) : Blames Q r l where
  inhabited := h.inhabited
  blames s hs := h.blames s (hQ s hs)

/-- A reader that reports no errors. -/
theorem clean (hl : Viable l []) (h : ∀ s, P s → s.Clean → (r s).2.Clean) : Blames P r l where
  inhabited := hl
  blames s hP hs hc := absurd (h s hP hs) hc

theorem quiet (h : ∀ s, (r s).2 = s) : Blames P r 1 :=
  clean (viable_nil_of_mem rfl) fun s _ hs => (h s).symm ▸ hs

/-- A reader that refuses the next token. -/
theorem refuse (hl : Viable l []) (h : AccusesNext r) : Blames P r l where
  inhabited := hl
  blames s _ hs _ := ⟨[], s.rest, rfl, hl, h s hs⟩

/-- One reader after the other, where the first takes a word if it reports no error. -/
theorem bind' [Located r] [∀ a, Located (f a)] (hr : Blames P r l)
    (hsound : ∀ s, P s → (r s).2.Clean → ∃ w ∈ l, s.rest = w ++ (r s).2.rest)
    (hPQ : ∀ s, P s → Q (r s).2) (hf : ∀ a, Blames Q (f a) m) : Blames P (r >>= f) (l * m) where
  inhabited := hr.inhabited.mul_left (hf (r (.start "")).1).inhabited
  blames s hP hs hc := by
    -- An error of the first reader stays the first; without one its tokens are a whole word.
    by_cases hfirst : (r s).2.Clean
    · obtain ⟨u, hu, hsu⟩ := hsound s hP hfirst
      obtain ⟨w, rest, hw, hviable, haccuses⟩ := (hf _).blames (r s).2 (hPQ s hP) hfirst hc
      refine ⟨u ++ w, rest, ?_, hviable.mul_right hu, ?_⟩
      · rw [hsu, hw, List.append_assoc]
      · rwa [Located.finish] at haccuses
    · obtain ⟨w, rest, hw, hviable, haccuses⟩ := hr.blames s hP hs hfirst
      exact ⟨w, rest, hw, hviable.mul_left (hf (r s).1).inhabited, haccuses.read (f _)⟩

theorem bind [Located r] [∀ a, Located (f a)] (hr : Blames (Within n) r l)
    (hsound : ∀ s, s.Within n → (r s).2.Clean → ∃ w ∈ l, s.rest = w ++ (r s).2.rest)
    (hf : ∀ a, Blames (Within n) (f a) m) : Blames (Within n) (r >>= f) (l * m) :=
  hr.bind' hsound (fun s h => Nat.le_trans (Located.length_le r s) h) hf

/-- A reader that changes nothing, and another after it. -/
theorem skip (h : ∀ s, (r s).2 = s) (hf : ∀ a, Blames P (f a) l) : Blames P (r >>= f) l where
  inhabited := (hf (r (.start "")).1).inhabited
  blames s hP hs hc := by
    rw [bind_apply, h s] at hc ⊢
    exact (hf _).blames s hP hs hc

/-- A reader, and another after it that changes nothing. -/
theorem bind_quiet (h : Blames P r l) (hf : ∀ a s, (f a s).2 = s) : Blames P (r >>= f) l where
  inhabited := h.inhabited
  blames s hP hs hc := by
    rw [bind_apply, hf] at hc ⊢
    exact h.blames s hP hs hc

theorem map {g : α → β} (h : Blames P r l) : Blames P (g <$> r) l where
  inhabited := h.inhabited
  blames s := h.blames s

theorem ofBound {r : Nat → Reader α} (h : ∀ i, Blames (Within i) (r i) l) :
    Blames (Within n) (fun s => r s.rest.length s) l where
  inhabited := (h 0).inhabited
  blames s _ := (h s.rest.length).blames s (Nat.le_refl _)

/-- Looking at the next token first. -/
theorem look_at {f : Token → Reader β} (h : ∀ t, Blames (fun s => P s ∧ s.current = t) (f t) l) :
    Blames P (peek >>= f) l where
  inhabited := (h (.endAt 0)).inhabited
  blames s hP := (h s.current).blames s ⟨hP, rfl⟩

theorem look {f : Token → Reader β} (h : ∀ t, Blames P (f t) l) : Blames P (peek >>= f) l :=
  look_at fun t => (h t).weaken fun _ hs => hs.1

/-- Taking the next token, which is as it should be. -/
theorem next {f : Unit → Reader β} {p : Token → Prop} {t : Token} (hp : p t)
    (h : ∀ a, Blames (Within n) (f a) l) : Blames (At t n) (advance >>= f) (one p * l) where
  inhabited := (viable_one p hp).mul_left (h ()).inhabited
  blames s hP hs hc := by
    obtain ⟨w, rest, hw, hviable, haccuses⟩ := (h ()).blames s.advance hP.within_advance hs hc
    obtain ⟨ts, hts, _⟩ := hP
    refine ⟨t :: w, rest, ?_, hviable.mul_right (u := [t]) ⟨t, hp, rfl⟩, haccuses⟩
    rw [rest_advance hts] at hw
    rw [hts, hw]
    rfl

/-- A reader that starts with a given token. -/
theorem of_at {t : Token} (h : Blames (At t (n - 1)) r l) (ht : t.kind ≠ .endOfInput) :
    Blames (fun s => s.Within n ∧ s.current = t) r l := by
  refine h.weaken ?_
  rintro s ⟨hn, rfl⟩
  obtain ⟨ts, hts⟩ := exists_rest_of_current ht
  exact hn.toAt hts

/-- Taking the next token if it is of a kind, and going on accordingly. -/
theorem branch {k : TokenKind} (hk : k ≠ .endOfInput) {r r' : Reader β}
    (h : Blames (Within (n - 1)) r l) (h' : Blames (Within n) r' m) :
    Blames (Within n) (accept k >>= fun b => if b = true then r else r') (tok k * l + m) where
  inhabited := h'.inhabited.mono fun _ hw => .inr hw
  blames s hn hs hc := by
    rw [bind_apply] at hc ⊢
    unfold Reader.accept at hc ⊢
    by_cases hsees : s.sees k
    · rw [if_pos hsees] at hc ⊢
      have hcur : s.current.kind = k := of_decide_eq_true hsees
      obtain ⟨ts, hts⟩ := exists_rest_of_current (hcur.symm ▸ hk)
      obtain ⟨w, rest, hw, hviable, haccuses⟩ :=
        h.blames s.advance (hn.toAt hts).within_advance hs hc
      refine ⟨s.current :: w, rest, ?_, ?_, haccuses⟩
      · rw [rest_advance hts] at hw
        rw [hts, hw]
        rfl
      · have hfirst : [s.current] ∈ tok k := ⟨_, hcur, rfl⟩
        exact (hviable.mul_right hfirst).mono fun _ hw => .inl hw
    · rw [if_neg hsees] at hc ⊢
      obtain ⟨w, rest, hw, hviable, haccuses⟩ := h'.blames s hn hs hc
      exact ⟨w, rest, hw, hviable.mono fun _ hw => .inr hw, haccuses⟩

/-- Something introduced by a token, which may be missing, before something else. -/
theorem branch_opt {k : TokenKind} (hk : k ≠ .endOfInput) {r r' : Reader β}
    (h : Blames (Within (n - 1)) r (l * m)) (h' : Blames (Within n) r' m) :
    Blames (Within n) (accept k >>= fun b => if b = true then r else r') (opt (tok k * l) * m) := by
  have hl : opt (tok k * l) * m = tok k * (l * m) + m := by
    rw [opt, add_mul, one_mul, mul_assoc, add_comm]
  rw [hl]
  exact branch hk h h'

/-- Something introduced by a token, which may be missing. -/
theorem branch_quiet {k : TokenKind} (hk : k ≠ .endOfInput) {r r' : Reader β}
    (h : Blames (Within (n - 1)) r l) (h' : ∀ s, (r' s).2 = s) :
    Blames (Within n) (accept k >>= fun b => if b = true then r else r') (opt (tok k * l)) := by
  have hl : opt (tok k * l) = tok k * l + 1 := by rw [opt, add_comm]
  rw [hl]
  exact branch hk h (quiet h')

/-- A token that may be missing. -/
theorem branch_token {k : TokenKind} (hk : k ≠ .endOfInput) {r r' : Reader β}
    (h : ∀ s, (r s).2 = s) (h' : ∀ s, (r' s).2 = s) :
    Blames (Within n) (accept k >>= fun b => if b = true then r else r') (opt (tok k)) := by
  rw [← mul_one (tok k)]
  exact branch_quiet hk (quiet h) h'

/-- **Repetition.** The rounds before the first error took words, one by one. -/
theorem many [Located r] {go : State → Bool}
    (hstep : Blames (fun s => s.Within n ∧ go s = true) r l)
    (hsound : ∀ s, s.Within n ∧ go s = true → (r s).2.Clean →
      ∃ w ∈ l, s.rest = w ++ (r s).2.rest) :
    Blames (Within n) (Reader.many go r) l∗ where
  inhabited := viable_nil_of_mem (Language.nil_mem_kstar l)
  blames s := by
    suffices h : ∀ i s, s.Within n → s.Clean → ¬ (manyUpTo go r i s).2.Clean →
        ∃ w rest, s.rest = w ++ rest ∧ Viable l∗ w ∧
          (manyUpTo go r i s).2.Accuses (rest.headD (.endAt s.finish)) from h s.rest.length s
    intro i
    induction i with
    | zero => exact fun s _ hs hc => absurd hs hc
    | succ i ih =>
      intro s hn hs hc
      have hlocated := located_manyUpTo go r i
      unfold manyUpTo at hc ⊢
      by_cases hgo : go s = true
      · rw [if_pos hgo] at hc ⊢
        by_cases hfirst : (r s).2.Clean
        · obtain ⟨u, hu, hsu⟩ := hsound s ⟨hn, hgo⟩ hfirst
          obtain ⟨w, rest, hw, hviable, haccuses⟩ :=
            ih (r s).2 (Nat.le_trans (Located.length_le r s) hn) hfirst hc
          refine ⟨u ++ w, rest, ?_, (hviable.mul_right hu).mono mul_kstar_le_kstar, ?_⟩
          · rw [hsu, hw, List.append_assoc]
          · rwa [Located.finish] at haccuses
        · obtain ⟨w, rest, hw, hviable, haccuses⟩ := hstep.blames s ⟨hn, hgo⟩ hs hfirst
          have hrest : Viable l∗ [] := viable_nil_of_mem (Language.nil_mem_kstar l)
          exact ⟨w, rest, hw, (hviable.mul_left hrest).mono mul_kstar_le_kstar,
            haccuses.read (manyUpTo go r i)⟩
      · rw [if_neg hgo] at hc
        exact absurd hs hc

end Blames

/-! ## Single tokens -/

open Blames

variable {n : Nat}

theorem blames_name : Blames (Within n) name Grammar.name := by
  unfold name
  refine look_at fun t => ?_
  split
  · exact clean viable_name fun _ _ => id
  · exact refuse viable_name (accusesNext_expected "name").bind

theorem blames_typeName : Blames (Within n) typeName Grammar.name := by
  unfold typeName
  refine look_at fun t => ?_
  split
  · exact clean viable_name fun _ _ => id
  · exact refuse viable_name (accusesNext_expected "type name").bind

theorem blames_expect {k : TokenKind} (hk : k ≠ .endOfInput) :
    Blames (Within n) (expect k) (tok k) := by
  have h : Blames (Within n) (expect k) (tok k * 1 + tok k) :=
    branch hk (quiet fun _ => rfl) (refuse (viable_tok k) (accusesNext_expected _))
  refine h.mono ?_
  rw [mul_one, Language.add_self]

theorem blames_accept (k : TokenKind) : Blames (Within n) (accept k) (opt (tok k)) := by
  refine clean (viable_opt _) fun s _ hs => ?_
  unfold accept
  split
  · exact hs
  · exact hs

theorem blames_description? : Blames (Within n) description? Grammar.description := by
  unfold description?
  refine look_at fun t => ?_
  split
  · exact clean (viable_opt _) fun _ _ => id
  · exact clean (viable_opt _) fun _ _ => id

section Bind

variable {l m : Language Token}

theorem blames_name_bind {f : Name → Reader β} [∀ nm, Located (f nm)]
    (h : ∀ nm, Blames (Within n) (f nm) m) :
    Blames (Within n) (name >>= f) (Grammar.name * m) :=
  blames_name.bind (recognizes_name : Recognizes _ _ _ []).sound h

theorem blames_typeName_bind {f : Name → Reader β} [∀ nm, Located (f nm)]
    (h : ∀ nm, Blames (Within n) (f nm) m) :
    Blames (Within n) (typeName >>= f) (Grammar.name * m) :=
  blames_typeName.bind (recognizes_typeName : Recognizes _ _ _ []).sound h

theorem blames_expect_bind {k : TokenKind} (hk : k ≠ .endOfInput) {f : Unit → Reader β}
    [∀ a, Located (f a)] (h : ∀ a, Blames (Within n) (f a) m) :
    Blames (Within n) (expect k >>= f) (tok k * m) :=
  (blames_expect hk).bind (recognizes_expect hk : Recognizes _ _ _ []).sound h

/-- Parts up to one of some kinds. -/
theorem blames_many_before {step : Reader α} [Located step] {more stops : List TokenKind}
    (hsound : Recognizes (Within n) step l more) (h : Blames (Within n) step l) :
    Blames (Within n) (many (State.before stops) step) l∗ :=
  (h.weaken fun _ hs => hs.1).many fun s hs => hsound.sound s hs.1

/-- Parts up to one of some kinds, and a closing token. -/
theorem blames_closed {step : Reader α} [Located step] [Forward step] {f : List α → Reader β}
    {more stops : List TokenKind} {k : TokenKind} (hk : k ≠ .endOfInput)
    (hsound : Recognizes (Within n) step l more) (h : Blames (Within n) step l)
    (hf : ∀ as s, (f as s).2 = s) :
    Blames (Within n) (do let as ← many (State.before stops) step; expect k; f as)
      (l∗ * tok k) := by
  have hlocated (as : List α) : Located (f as) := .silent (fun s => by rw [hf])
    (fun s => by rw [hf]) fun s => by rw [hf]
  refine (blames_many_before hsound h).bind ?_ fun as => (blames_expect hk).bind_quiet fun _ => hf as
  exact fun s => Recognizes.sound_manyUpTo (hsound.weaken fun _ hs => hs.1) s.rest.length s

end Bind

/-! ## Types and values -/

theorem name_le_type : Grammar.name ≤ Grammar.type := by
  intro w hw
  rw [type_eq_add, ← List.append_nil w]
  exact .inr (Language.append_mem_mul hw (.inl rfl))

theorem blames_typeRefUpTo : ∀ n, Blames (Within n) (typeRefUpTo n) Grammar.type
  | 0 => (blames_typeName.bind_quiet fun _ _ => rfl).mono name_le_type
  | n + 1 => by
    have ih := blames_typeRefUpTo n
    have hlocal := local_typeRefUpTo n
    unfold typeRefUpTo typeRefAt
    dsimp only
    rw [type_eq_add]
    refine look fun t => branch (by decide) ?_ ?_
    · refine ih.bind (recognizes_typeRefUpTo n).sound fun item => ?_
      refine blames_expect_bind (by decide) fun _ => ?_
      refine skip (fun _ => rfl) fun _ => skip (fun _ => rfl) fun _ => ?_
      exact branch_token (by decide) (fun _ => rfl) fun _ => rfl
    · refine blames_typeName_bind fun nm => skip (fun _ => rfl) fun _ => ?_
      exact branch_token (by decide) (fun _ => rfl) fun _ => rfl

theorem blames_typeRef : Blames (Within n) typeRef Grammar.type := ofBound blames_typeRefUpTo

theorem one_isAtom_le_value : one IsAtom ≤ Grammar.value := by
  rw [value_eq_one_add]
  exact fun _ hw => .inl (.inl hw)

theorem name_le_value : Grammar.name ≤ Grammar.value := by
  rintro w ⟨t, ht, rfl⟩
  exact one_isAtom_le_value ⟨t, .inr (.inr (.inr (.inr ht))), rfl⟩

theorem viable_value : Viable Grammar.value [] := viable_name.mono name_le_value

theorem blames_objectField {r : Reader Value} [Located r]
    (h : Blames (Within n) r Grammar.value) : Blames (Within n) (objectField r) namedValue := by
  unfold objectField
  rw [namedValue_eq]
  refine blames_name_bind fun _ => blames_expect_bind (by decide) fun _ => ?_
  exact h.bind_quiet fun _ _ => rfl

instance (r : Reader Value) [Located r] : Located (objectField r) := by
  unfold objectField
  infer_instance

section Nested

variable {r : Reader Value} [Located r] [Forward r] {t : Token}
  (hsound : Recognizes (Within n) r Grammar.value []) (h : Blames (Within n) r Grammar.value)

include hsound h

theorem blames_listValue (ht : t.kind = .punct .bracketOpen) :
    Blames (At t n) (listValue r) Grammar.value := by
  have hlist : mark .bracketOpen * (Grammar.value∗ * tok (.punct .bracketClose)) ≤
      Grammar.value := by
    conv_rhs => rw [value_eq_one_add]
    exact fun _ hw => .inl (.inr hw)
  unfold listValue
  exact (look fun _ => next ht fun _ =>
    blames_closed (by decide) hsound h fun _ _ => rfl).mono hlist

theorem blames_objectValue (ht : t.kind = .punct .braceOpen) :
    Blames (At t n) (objectValue r) Grammar.value := by
  have hobject : mark .braceOpen * (namedValue∗ * tok (.punct .braceClose)) ≤ Grammar.value := by
    conv_rhs => rw [value_eq_one_add]
    exact fun _ hw => .inr hw
  unfold objectValue
  exact (look fun _ => next ht fun _ =>
    blames_closed (by decide) (recognizes_objectField hsound) (blames_objectField h)
      fun _ _ => rfl).mono hobject

end Nested

theorem blames_intLiteral (t : Token) :
    Blames (fun s => s.Within n ∧ s.current = t) (intLiteral t) Grammar.value := by
  unfold intLiteral
  dsimp only
  split
  · exact clean viable_value fun _ _ => id
  · exact refuse viable_value (accusesNext_flag _ _ _).bind

theorem blames_literal (t : Token) (make : Text.Span → Value) :
    Blames (fun s => s.Within n ∧ s.current = t) (literal t make) Grammar.value :=
  clean viable_value fun _ _ => id

theorem blames_enumConstant {P : State → Prop} (hP : ∀ s, P s → s.Within n) :
    Blames P (do let constant ← name; return Value.enum constant.id constant.span)
      Grammar.value :=
  ((blames_name.weaken hP).bind_quiet fun _ _ => rfl).mono name_le_value

theorem accusesNext_noValue : AccusesNext noValue := by
  unfold noValue
  exact .look fun _ => (accusesNext_expected "value").bind

theorem blames_valueUpTo : ∀ n, Blames (Within n) (valueUpTo n) Grammar.value
  | 0 => refuse viable_value accusesNext_noValue
  | n + 1 => by
    have ih := blames_valueUpTo n
    have hsound := recognizes_valueUpTo n
    have hlocal := local_valueUpTo n
    have hforward := forward_valueUpTo n
    unfold valueUpTo valueAt
    refine look_at fun t => ?_
    split
    case h_1 => exact blames_intLiteral t
    case h_8 hk => exact of_at (blames_listValue hsound ih hk) (by rw [hk]; decide)
    case h_9 hk => exact of_at (blames_objectValue hsound ih hk) (by rw [hk]; decide)
    case h_10 => exact blames_enumConstant fun _ hs => hs.1
    case h_11 => exact blames_enumConstant fun _ hs => hs.1
    case h_12 => exact refuse viable_value accusesNext_noValue
    all_goals exact blames_literal t _

theorem blames_value : Blames (Within n) value Grammar.value := ofBound blames_valueUpTo

/-! ## Directives, fields and input values -/

theorem blames_argument : Blames (Within n) argument namedValue := by
  unfold argument
  rw [namedValue_eq]
  refine look fun _ => blames_name_bind fun _ => blames_expect_bind (by decide) fun _ => ?_
  exact blames_value.bind_quiet fun _ _ => rfl

theorem blames_directive {t : Token} (ht : t.kind = .punct .atSign) :
    Blames (At t n) directive Grammar.directive := by
  unfold directive
  dsimp only
  rw [directive_eq]
  refine look fun _ => next ht fun _ => blames_name_bind fun _ => ?_
  refine branch_quiet (by decide) ?_ fun _ => rfl
  exact blames_closed (by decide) recognizes_argument blames_argument fun _ _ => rfl

/-- Repetition as long as the next token is of a kind, which each round takes. -/
theorem blames_many_sees {step : Reader α} [Located step] {l : Language Token}
    {more : List TokenKind} {k : TokenKind} (hk : k ≠ .endOfInput)
    (hsound : ∀ t n, t.kind = k → Recognizes (At t n) step l more)
    (h : ∀ t n, t.kind = k → Blames (At t n) step l) :
    Blames (Within n) (many (fun s => s.sees k) step) l∗ := by
  have hround : Blames (fun s => s.Within n ∧ s.sees k = true) step l := by
    refine ⟨(h ⟨k, .emptyAt 0, ""⟩ 0 rfl).inhabited, fun s hs => ?_⟩
    obtain ⟨hcur, hat⟩ := hs.1.at_of_sees hk hs.2
    exact (h _ _ hcur).blames s hat
  refine hround.many fun s hs => ?_
  obtain ⟨hcur, hat⟩ := hs.1.at_of_sees hk hs.2
  exact (hsound _ _ hcur).sound s hat

theorem blames_directives : Blames (Within n) directives Grammar.directive∗ :=
  blames_many_sees (by decide) (fun _ _ ht => recognizes_directive ht) fun _ _ ht =>
    blames_directive ht

/-- A description, if there is one, and a name. -/
theorem blames_described {f : Option Description → Token → Name → Reader β} {m : Language Token}
    [∀ d t nm, Located (f d t nm)] (h : ∀ d t nm, Blames (Within n) (f d t nm) m) :
    Blames (Within n) (do let d ← description?; let t ← peek; let nm ← name; f d t nm)
      (Grammar.description * (Grammar.name * m)) :=
  blames_description?.bind recognizes_description?.sound fun d =>
    look fun t => blames_name_bind fun nm => h d t nm

theorem blames_inputValue : Blames (Within n) inputValue Grammar.inputValue := by
  rw [inputValue_eq]
  unfold inputValue
  dsimp only
  refine blames_described fun d t nm => blames_expect_bind (by decide) fun _ => ?_
  refine blames_typeRef.bind recognizes_typeRef.sound fun type => ?_
  refine branch_opt (by decide) ?_ ?_
  · exact blames_value.map.bind recognizes_value.map.sound fun _ =>
      blames_directives.bind_quiet fun _ _ => rfl
  · exact skip (fun _ => rfl) fun _ => blames_directives.bind_quiet fun _ _ => rfl

theorem blames_argumentDefinitions : Blames (Within n) argumentDefinitions Grammar.arguments := by
  rw [arguments_eq]
  unfold argumentDefinitions
  refine branch_quiet (by decide) ?_ fun _ => rfl
  exact blames_closed (by decide) recognizes_inputValue blames_inputValue fun _ _ => rfl

theorem blames_field : Blames (Within n) field Grammar.field := by
  rw [field_eq]
  unfold field
  dsimp only
  refine blames_described fun d t nm => ?_
  refine blames_argumentDefinitions.bind recognizes_argumentDefinitions.sound fun _ => ?_
  refine blames_expect_bind (by decide) fun _ => ?_
  exact blames_typeRef.bind recognizes_typeRef.sound fun _ =>
    blames_directives.bind_quiet fun _ _ => rfl

theorem blames_enumValue : Blames (Within n) enumValue Grammar.enumValue := by
  rw [Grammar.enumValue, mul_assoc]
  unfold enumValue
  exact blames_described fun _ _ _ => blames_directives.bind_quiet fun _ _ => rfl

/-- Parts in braces, or nothing. -/
theorem blames_braced {item : Reader α} [Located item] [Forward item] {l : Language Token}
    {more : List TokenKind} (hsound : ∀ n, Recognizes (Within n) item l more)
    (h : ∀ n, Blames (Within n) item l) : Blames (Within n) (braced item) (Grammar.braced l) := by
  rw [braced_eq]
  unfold braced
  refine branch_quiet (by decide) ?_ fun _ => rfl
  exact blames_closed (by decide) (hsound _) (h _) fun _ _ => rfl

theorem blames_moreInterfaces :
    Blames (fun s => s.Within n ∧ (s.sees (.punct .ampersand) || s.sees .name) = true)
      (do let _ ← accept (.punct .ampersand); typeName)
      (mark .ampersand * Grammar.name + tok .name) := by
  have h : Blames (Within n) (do let _ ← accept (.punct .ampersand); typeName)
      (opt (tok (.punct .ampersand)) * Grammar.name) :=
    (blames_accept _).bind (recognizes_accept (by decide)).sound fun _ => blames_typeName
  rw [opt, add_mul, one_mul, add_comm] at h
  have hnil : Viable (mark .ampersand * Grammar.name + tok .name) [] :=
    (viable_tok .name).mono fun _ hw => .inr hw
  refine ⟨hnil, fun s hs hc hnot => ?_⟩
  obtain ⟨w, rest, hw, ⟨v, hv⟩, haccuses⟩ := h.blames s hs.1 hc hnot
  refine ⟨w, rest, hw, ?_, haccuses⟩
  rcases hv with hv | ⟨t, ht, htv⟩
  · exact ⟨v, .inl hv⟩
  · rcases List.append_eq_singleton_iff.1 htv with ⟨rfl, _⟩ | ⟨rfl, _⟩
    · exact hnil
    · exact ⟨[], .inr ⟨t, kind_eq_name hw hs.2 ht, rfl⟩⟩

theorem blames_implementedInterfaces :
    Blames (Within n) implementedInterfaces Grammar.interfaces := by
  rw [interfaces_eq]
  unfold implementedInterfaces
  refine branch_quiet (by decide) ?_ fun _ => rfl
  refine (blames_accept _).bind (recognizes_accept (by decide)).sound fun _ => ?_
  refine blames_typeName_bind fun first => Blames.bind_quiet ?_ fun _ _ => rfl
  exact blames_moreInterfaces.many fun s => recognizes_moreInterfaces.sound s

/-! ## Definitions -/

theorem blames_rootOperation? : Blames (Within n) rootOperation? Grammar.rootOperation := by
  rw [rootOperation_eq]
  unfold rootOperation?
  refine look_at fun t => ?_
  split
  · rename_i operation hop
    have hne : t.kind ≠ .endOfInput := by
      intro hk
      rw [hk] at hop
      cases hop
    refine of_at (next (by rw [hop]; rfl) fun _ => blames_expect_bind (by decide) fun _ => ?_) hne
    exact blames_typeName.bind_quiet fun _ _ => rfl
  · have hquery : Viable (one fun t => (operationOf? t.kind).isSome = true) [] :=
      viable_one _ (t := ⟨.keyword .query, .emptyAt 0, ""⟩) rfl
    exact refuse (hquery.mul_left ((viable_tok _).mul_left viable_name))
      (accusesNext_expected _).bind

theorem blames_schemaDefinition (d : Option Description) (t : Token) :
    Blames (At t n) (schemaDefinition d) (tok t.kind * schemaTail) := by
  unfold schemaDefinition
  refine look fun _ => next rfl fun _ => ?_
  refine blames_directives.bind recognizes_directives.sound fun _ => ?_
  refine blames_expect_bind (by decide) fun _ => ?_
  exact blames_closed (by decide) recognizes_rootOperation? blames_rootOperation? fun _ _ => rfl

theorem blames_fieldsDefinition (d : Option Description) (t : Token) :
    Blames (At t n) (fieldsDefinition d) (tok t.kind * fieldsTail) := by
  unfold fieldsDefinition
  refine look fun _ => next rfl fun _ => blames_name_bind fun _ => ?_
  refine blames_implementedInterfaces.bind recognizes_implementedInterfaces.sound fun _ => ?_
  refine blames_directives.bind recognizes_directives.sound fun _ => ?_
  exact (blames_braced (fun _ => recognizes_field) fun _ => blames_field).bind_quiet fun _ _ => rfl

theorem blames_unionMembers :
    Blames (Within n) unionMembers (opt (tok (.punct .equals) * Grammar.alternatives)) := by
  rw [alternatives_eq]
  unfold unionMembers
  refine branch_quiet (by decide) ?_ fun _ => rfl
  refine (blames_accept _).bind (recognizes_accept (by decide)).sound fun _ => ?_
  refine blames_typeName_bind fun _ => Blames.bind_quiet ?_ fun _ _ => rfl
  exact blames_many_sees (by decide)
    (fun _ _ ht => Recognizes.next ht fun _ => (recognizes_typeName : Recognizes _ _ _ []))
    fun _ _ ht => next ht fun _ => blames_typeName

theorem blames_unionDefinition (d : Option Description) (t : Token) :
    Blames (At t n) (unionDefinition d) (tok t.kind * unionTail) := by
  unfold unionDefinition
  refine look fun _ => next rfl fun _ => blames_name_bind fun _ => ?_
  refine blames_directives.bind recognizes_directives.sound fun _ => ?_
  exact blames_unionMembers.bind_quiet fun _ _ => rfl

theorem blames_enumDefinition (d : Option Description) (t : Token) :
    Blames (At t n) (enumDefinition d) (tok t.kind * bracedTail Grammar.enumValue) := by
  unfold enumDefinition
  refine look fun _ => next rfl fun _ => blames_name_bind fun _ => ?_
  refine blames_directives.bind recognizes_directives.sound fun _ => ?_
  exact (blames_braced (fun _ => recognizes_enumValue) fun _ => blames_enumValue).bind_quiet
    fun _ _ => rfl

theorem blames_inputDefinition (d : Option Description) (t : Token) :
    Blames (At t n) (inputDefinition d) (tok t.kind * bracedTail Grammar.inputValue) := by
  unfold inputDefinition
  dsimp only
  refine look fun _ => next rfl fun _ => blames_name_bind fun _ => ?_
  refine blames_directives.bind recognizes_directives.sound fun _ => ?_
  rw [braced_eq]
  refine branch_quiet (by decide) ?_ fun _ => rfl
  exact blames_closed (by decide) recognizes_inputValue blames_inputValue fun _ _ => rfl

theorem blames_scalarDefinition (d : Option Description) (t : Token) :
    Blames (At t n) (scalarDefinition d) (tok t.kind * scalarTail) := by
  unfold scalarDefinition
  refine look fun _ => next rfl fun _ => blames_name_bind fun _ => ?_
  exact blames_directives.bind_quiet fun _ _ => rfl

theorem viable_locations : Viable (Grammar.name * moreNames) [] :=
  viable_name.mul_left (viable_nil_of_mem (Language.nil_mem_kstar _))

theorem blames_location? {P : State → Prop} : Blames P location? Grammar.name := by
  refine clean viable_name fun s _ hs => ?_
  unfold location?
  rw [bind_apply]
  dsimp only
  split
  · exact clean_flag_warning _ _ _ hs
  · exact hs

theorem blames_locationsUpTo :
    ∀ n, Blames (Within n) (locationsUpTo n) (Grammar.name * moreNames)
  | 0 => refuse viable_locations (accusesNext_expected _).bind
  | n + 1 => by
    have ih := blames_locationsUpTo n
    have hlocal := local_locationsUpTo n
    unfold locationsUpTo locationsAt
    dsimp only
    refine look_at fun t => ?_
    split
    · rename_i ht
      refine blames_location?.bind' (Q := Within (n + 1))
        (recognizes_location? ht : Recognizes _ _ _ []).sound
        (fun s hs => Nat.le_trans (Located.length_le location? s) hs.1) fun known => ?_
      rw [moreNames_eq]
      refine branch_quiet (by decide) ?_ fun _ => rfl
      exact ih.bind_quiet fun _ _ => rfl
    · exact refuse viable_locations (accusesNext_expected _).bind

theorem blames_locations : Blames (Within n) locations Grammar.alternatives := by
  have hfrom : Blames (Within n) locationsFrom (Grammar.name * moreNames) :=
    ofBound blames_locationsUpTo
  rw [alternatives_eq]
  show Blames _ (do let _ ← accept (.punct .pipe); locationsFrom) _
  exact (blames_accept _).bind (recognizes_accept (by decide)).sound fun _ => hfrom

theorem blames_directiveDefinition (d : Option Description) (t : Token) :
    Blames (At t n) (directiveDefinition d) (tok t.kind * directiveTail) := by
  unfold directiveDefinition
  refine look fun _ => next rfl fun _ => blames_expect_bind (by decide) fun _ => ?_
  refine blames_name_bind fun _ => ?_
  refine blames_argumentDefinitions.bind recognizes_argumentDefinitions.sound fun _ => ?_
  refine (blames_accept _).bind (recognizes_accept (by decide)).sound fun _ => ?_
  refine blames_expect_bind (by decide) fun _ => ?_
  exact blames_locations.bind_quiet fun _ _ => rfl

theorem tok_mul_definitionTail_le (k : Keyword) :
    tok (.keyword k) * definitionTail k ≤ bareDefinition := by
  intro w hw
  obtain ⟨_, ⟨t, ht, rfl⟩, v, hv, rfl⟩ := Language.mem_mul.1 hw
  exact cons_mem_bareDefinition_iff.2 ⟨k, ht, hv⟩

/-- The definition that a keyword introduces. -/
theorem blames_of_keyword {r : Reader α} {t : Token} {k : Keyword} (ht : t.kind = .keyword k)
    (h : Blames (At t (n - 1)) r (tok t.kind * definitionTail k)) :
    Blames (fun s => s.Within n ∧ s.current = t) r bareDefinition := by
  rw [ht] at h
  exact (h.of_at (by rw [ht]; exact TokenKind.noConfusion)).mono (tok_mul_definitionTail_le k)

theorem viable_bareDefinition : Viable bareDefinition [] :=
  (blames_scalarDefinition (n := 0) none ⟨.keyword .scalar, .emptyAt 0, ""⟩).inhabited.mono
    (tok_mul_definitionTail_le .scalar)

theorem accusesNext_noDefinition : AccusesNext noDefinition := by
  unfold noDefinition
  exact .look fun _ => (accusesNext_flag _ _ _).bind

theorem blames_definitionAt (d : Option Description) (extended : Reader (Option Definition))
    [Located extended] : Blames (Within n) (definitionAt d extended) bareDefinition := by
  unfold definitionAt
  refine look_at fun t => ?_
  split
  case h_1 hk =>
    exact blames_of_keyword hk ((blames_schemaDefinition d t).bind_quiet fun _ _ => rfl)
  case h_2 hk =>
    exact blames_of_keyword hk ((blames_fieldsDefinition d t).bind_quiet fun _ _ => rfl)
  case h_3 hk =>
    exact blames_of_keyword hk ((blames_fieldsDefinition d t).bind_quiet fun _ _ => rfl)
  case h_4 hk =>
    exact blames_of_keyword hk ((blames_unionDefinition d t).bind_quiet fun _ _ => rfl)
  case h_5 hk =>
    exact blames_of_keyword hk ((blames_enumDefinition d t).bind_quiet fun _ _ => rfl)
  case h_6 hk =>
    exact blames_of_keyword hk ((blames_inputDefinition d t).bind_quiet fun _ _ => rfl)
  case h_7 hk =>
    exact blames_of_keyword hk ((blames_scalarDefinition d t).bind_quiet fun _ _ => rfl)
  case h_8 hk =>
    exact blames_of_keyword hk ((blames_directiveDefinition d t).bind_quiet fun _ _ => rfl)
  case h_9 => exact refuse viable_bareDefinition (accusesNext_flag _ _ _).bind
  case h_10 => exact refuse viable_bareDefinition accusesNext_noDefinition

theorem blames_definitionUpTo : ∀ n, Blames (Within n) (definitionUpTo n) definition
  | 0 => refuse ((viable_opt _).mul_left viable_bareDefinition) accusesNext_noDefinition
  | n + 1 =>
    have := local_definitionUpTo n
    blames_description?.bind recognizes_description?.sound fun d =>
      blames_definitionAt d (definitionUpTo n)

theorem blames_definition? : Blames (Within n) definition? definition :=
  ofBound blames_definitionUpTo

theorem blames_definitionOrSkip : Blames (Within n) definitionOrSkip definition where
  inhabited := (blames_definition? (n := n)).inhabited
  blames s hn hs hc := by
    by_cases hfirst : (definition? s).2.Clean
    · rw [definitionOrSkip_apply (finds_definition s hfirst)] at hc
      exact absurd hfirst hc
    · obtain ⟨w, rest, hw, hviable, haccuses⟩ := blames_definition?.blames s hn hs hfirst
      refine ⟨w, rest, hw, hviable, ?_⟩
      unfold definitionOrSkip
      rw [bind_apply]
      cases (definition? s).1 with
      | some _ => exact haccuses
      | none => exact haccuses.read recover

/-- **The first error in a document is at the token after the beginning of a document.** -/
theorem blames_document : Blames (Within n) document definition∗ := by
  refine look fun t => Blames.bind_quiet ?_ fun _ _ => rfl
  exact (blames_definitionOrSkip.weaken fun _ hs => hs.1).many fun s hs =>
    recognizes_definitionOrSkip.sound s hs.1

end Reader

/-! ## No word goes on with that token -/

theorem Token.FlaggedBy.primary? {t : Token} {d : Diagnostic} (h : t.FlaggedBy d) :
    d.primary? = some t.span := by
  obtain ⟨_, _, _, _, rfl⟩ := h
  rfl

/-- The first error is among the findings. -/
theorem State.Accuses.exists_mem {s : State} {t : Token} (h : s.Accuses t) :
    ∃ d ∈ s.report.entries, d.isError = true ∧ t.FlaggedBy d := by
  obtain ⟨d, hd, hflagged⟩ := h
  obtain ⟨hmem, herror⟩ := List.mem_filter.1 (List.mem_of_head? hd)
  exact ⟨d, hmem, herror, hflagged⟩

/-- **What follows the token does not matter.** The error about it is reported before the next token
is looked at, so it is reported whatever that is. -/
theorem not_mem_of_accuses {s : State} (hs : s.Clean) {w ts : List Token} {t : Token}
    (hrest : s.rest = w ++ t :: ts) (hspan : ∀ u ∈ ts ++ [.endAt s.finish], u.span ≠ t.span)
    (h : (Reader.document s).2.Accuses t) (v : List Token) : w ++ t :: v ∉ definition∗ := by
  intro hmem
  -- Both rows go on from this state, in which nothing is left after the token.
  let upTo : State := { s with rest := w ++ [t] }
  have hsame : upTo.followedBy ts s.finish = s := by
    show { s with rest := w ++ [t] ++ ts } = s
    rw [List.append_assoc, List.singleton_append, ← hrest]
  have hother : (upTo.followedBy v s.finish).rest = w ++ t :: v := by
    show w ++ [t] ++ v = _
    rw [List.append_assoc, List.singleton_append]
  obtain ⟨early, hpast, hpast'⟩ := Reader.Local.ends (r := Reader.document) upTo
    (Reader.rest_document_eq_nil upTo) ts s.finish v s.finish
  rw [hsame] at hpast
  obtain ⟨d, hd, herror, hflagged⟩ := h.exists_mem
  -- Findings made later are about later tokens, and these have other places.
  have hearly : d ∈ early := by
    obtain ⟨late, hreport, hlate⟩ := hpast.report
    rw [hreport] at hd
    refine (List.mem_append.1 hd).resolve_right fun hd => ?_
    obtain ⟨u, hu, hflagged'⟩ := hlate d hd
    exact hspan u hu (Option.some.inj (hflagged'.primary?.symm.trans hflagged.primary?))
  have hreported : d ∈ (Reader.document (upTo.followedBy v s.finish)).2.report.entries := by
    obtain ⟨late, hreport, _⟩ := hpast'.report
    rw [hreport]
    exact List.mem_append_left _ hearly
  have hclean : (upTo.followedBy v s.finish).Clean := hs
  rw [← hother, ← Reader.clean_document_iff hclean] at hmem
  exact State.not_clean_of_mem hreported herror hmem

/-- A place in a row with a given last element is the end or before it. -/
theorem concat_eq_append_cons {α : Type} {u w v : List α} {a b : α} (h : u ++ [b] = w ++ a :: v) :
    (u = w ∧ b = a) ∨ ∃ v', v = v' ++ [b] ∧ u = w ++ a :: v' := by
  rcases List.eq_nil_or_concat' v with rfl | ⟨v', c, rfl⟩
  · obtain ⟨huw, hba⟩ := List.append_inj' h rfl
    exact .inl ⟨huw, List.singleton_inj.1 hba⟩
  · rw [← List.cons_append, ← List.append_assoc] at h
    obtain ⟨huw, hbc⟩ := List.append_inj' h rfl
    exact .inr ⟨v', by rw [hbc], huw⟩

theorem mem_definitions_of_mem_document {w v : List Token} {t : Token}
    (h : w ++ t :: v ∈ Grammar.document) :
    (t.kind = .endOfInput ∧ w ∈ definition∗) ∨ ∃ v', w ++ t :: v' ∈ definition∗ := by
  obtain ⟨u, hu, _, ⟨b, hb, rfl⟩, huv⟩ := Language.mem_mul.1 h
  rcases concat_eq_append_cons huv with ⟨rfl, rfl⟩ | ⟨v', _, rfl⟩
  · exact .inl ⟨hb, hu⟩
  · exact .inr ⟨v', hu⟩

/-- The same about documents with their end mark. -/
theorem not_mem_document_of_accuses {s : State} (hs : s.Clean)
    (hkind : ∀ u ∈ s.rest, u.kind ≠ .endOfInput) {w post : List Token} {t : Token}
    (hahead : s.ahead = w ++ t :: post) (hspan : ∀ u ∈ post, u.span ≠ t.span)
    (h : (Reader.document s).2.Accuses t) (v : List Token) : w ++ t :: v ∉ Grammar.document := by
  intro hmem
  rcases concat_eq_append_cons hahead with ⟨hrest, rfl⟩ | ⟨ts, rfl, hrest⟩
  · rcases mem_definitions_of_mem_document hmem with ⟨_, hw⟩ | ⟨v', hv'⟩
    · obtain ⟨d, hd, herror, _⟩ := h.exists_mem
      exact State.not_clean_of_mem hd herror ((Reader.clean_document_iff hs).2 (hrest ▸ hw))
    · exact (Proper.le hv' _ (List.mem_append_right _ List.mem_cons_self)).1 rfl
  · rcases mem_definitions_of_mem_document hmem with ⟨hend, _⟩ | ⟨v', hv'⟩
    · exact hkind t (hrest ▸ List.mem_append_right _ List.mem_cons_self) hend
    · exact not_mem_of_accuses hs hrest hspan h v' hv'

/-! ## Sources -/

/-- The place of a token tells it from the others. -/
theorem pairwise_span_ne (source : String) :
    (tokenize source).Pairwise fun t u => t.span ≠ u.span := by
  have hne {t u : Token} (ht : t ∈ (State.start source).rest)
      (htu : t.span.stop ≤ u.span.start) : t.span ≠ u.span := by
    intro heq
    have hlt := (tiles_start source).start_lt_stop t ht
    rw [heq] at hlt htu
    omega
  obtain ⟨hrest, hend, hbefore⟩ := List.pairwise_append.1 (pairwise_tokenize source)
  refine List.pairwise_append.2 ⟨hrest.imp_of_mem fun ht _ => hne ht, List.pairwise_singleton _ _, ?_⟩
  exact fun t ht u hu => hne ht (hbefore t ht u hu)

theorem span_ne_of_tokenize {source : String} {pre post : List Token} {t : Token}
    (h : tokenize source = pre ++ t :: post) : ∀ u ∈ pre ++ post, u.span ≠ t.span := by
  have hpairwise := pairwise_span_ne source
  rw [h, List.pairwise_append, List.pairwise_cons] at hpairwise
  obtain ⟨_, ⟨hpost, _⟩, hpre⟩ := hpairwise
  intro u hu
  rcases List.mem_append.1 hu with hu | hu
  · exact hpre u hu t List.mem_cons_self
  · exact (hpost u hu).symm

/-- **The first error is at the first token that does not fit.** It has the place of one token. A
document can start with the tokens before that one, and no document goes on with it. -/
theorem first_error_of_parse (source : String) (h : (parse source).report.hasErrors = true) :
    ∃ d pre t post, (parse source).report.errors.head? = some d ∧
      tokenize source = pre ++ t :: post ∧ d.primary? = some t.span ∧
      (∀ u ∈ pre ++ post, u.span ≠ t.span) ∧ (∃ w, pre ++ w ∈ Grammar.document) ∧
      ∀ w, pre ++ t :: w ∉ Grammar.document := by
  let s := State.start source
  have hc : ¬ (Reader.document s).2.Clean := fun hc => Bool.false_ne_true (hc.symm.trans h)
  obtain ⟨pre, rest, hrest, hviable, haccuses⟩ :=
    (Reader.blames_document (n := s.rest.length)).blames s (Nat.le_refl _) rfl hc
  obtain ⟨t, post, ht, hahead⟩ : ∃ t post, rest.headD (.endAt s.finish) = t ∧
      tokenize source = pre ++ t :: post := by
    show ∃ t post, _ = t ∧ s.rest ++ [.endAt s.finish] = pre ++ t :: post
    rw [hrest, List.append_assoc]
    cases rest with
    | nil => exact ⟨_, [], rfl, rfl⟩
    | cons t ts => exact ⟨t, _, rfl, rfl⟩
  rw [ht] at haccuses
  have hspan := span_ne_of_tokenize hahead
  obtain ⟨d, hd, hflagged⟩ := haccuses
  refine ⟨d, pre, t, post, hd, hahead, hflagged.primary?, hspan, ?_, ?_⟩
  · exact hviable.mul_left (viable_tok .endOfInput)
  · exact not_mem_document_of_accuses (s := s) rfl (tiles_start source).kind_ne hahead
      (fun u hu => hspan u (List.mem_append_right _ hu)) ⟨d, hd, hflagged⟩

/-- A default is missing where a directive stands, and more errors follow. -/
def spoiltSource : String := "input Page \x7b size: Int = @min(of: 1) last: [Int \x7d extend type Page"

theorem first_error_of_parse_spoiltSource :
    (parse spoiltSource).report.hasErrors = true ∧
      ∃ d pre t post, (parse spoiltSource).report.errors.head? = some d ∧
        tokenize spoiltSource = pre ++ t :: post ∧ d.primary? = some t.span ∧
        (∀ u ∈ pre ++ post, u.span ≠ t.span) ∧ (∃ w, pre ++ w ∈ Grammar.document) ∧
        ∀ w, pre ++ t :: w ∉ Grammar.document := by
  have h : (parse spoiltSource).report.hasErrors = true := by decide +kernel
  exact ⟨h, first_error_of_parse spoiltSource h⟩

end SchemaToFlow.Schema
