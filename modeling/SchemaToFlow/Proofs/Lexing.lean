import SchemaToFlow.Proofs.Layout
import SchemaToFlow.Proofs.Numerals
import SchemaToFlow.Proofs.Writing

/-!
# Reading words back from text

A word is solid (`Word.Solid`) if its text, with a blank after it, is read as this word and nothing
more. Names, punctuation marks, keywords, whole numbers and texts in quotes that fit are solid, so
words that are set apart by blanks are read back one by one (`words_layout`).

In any text, a token that may serve as a name is one (`isName_of_mem_tokens`).
-/

namespace SchemaToFlow.Schema

/-! ## One word -/

/-- The word is read back from its text, whatever follows the blank after it. -/
def Word.Solid (w : Word) : Prop :=
  ∃ c cs, w.2.toList = c :: cs ∧ isBlank c = false ∧ c ≠ '#' ∧
    ∀ b rest, isBlank b = true → lexeme c (cs ++ b :: rest) = (w.1, cs.length)

theorem gapLength_append {gap : List Char} (hgap : ∀ c ∈ gap, isBlank c = true) (cs : List Char) :
    gapLength false (gap ++ cs) = gap.length + gapLength false cs := by
  induction gap with
  | nil => exact (Nat.zero_add _).symm
  | cons b gap ih =>
    rw [List.forall_mem_cons] at hgap
    have hb : b ≠ '#' := by
      rintro rfl
      exact absurd hgap.1 (by decide)
    rw [List.cons_append, gapLength, if_neg hb, if_pos hgap.1, ih hgap.2, List.length_cons]
    omega

theorem gapLength_of_not_isBlank {c : Char} (hc : isBlank c = false) (hne : c ≠ '#')
    (cs : List Char) : gapLength false (c :: cs) = 0 := by
  rw [gapLength, if_neg hne, hc]
  rfl

namespace Cursor

theorem tokens_of_none {c : Cursor} (h : c.next? = none) : c.tokens = [] := by
  rw [tokens]
  split
  · rfl
  · rename_i h'
    rw [h] at h'
    cases h'

theorem tokens_of_some {c c' : Cursor} {t : Token} (h : c.next? = some (t, c')) :
    c.tokens = t :: c'.tokens := by
  rw [tokens]
  split
  · rename_i h'
    rw [h] at h'
    cases h'
  · rename_i h'
    rw [h] at h'
    cases h'
    rfl

/-- Nothing but blanks holds no token. -/
theorem tokens_of_blank {c : Cursor} (h : ∀ b ∈ c.rest, isBlank b = true) : c.tokens = [] := by
  refine tokens_of_none ?_
  have hrest : c.skipGap.rest = [] := by
    show c.rest.drop (gapLength false c.rest) = []
    have hlength := gapLength_append h []
    rw [List.append_nil] at hlength
    rw [hlength]
    exact List.drop_length
  rw [next?, token?, hrest]

/-- The first word after blanks. -/
theorem words_of_solid {w : Word} (hw : w.Solid) {gap : List Char}
    (hgap : ∀ c ∈ gap, isBlank c = true) {b : Char} (hb : isBlank b = true) {rest : List Char}
    {c : Cursor} (hc : c.rest = gap ++ (w.2.toList ++ b :: rest)) :
    ∃ c' : Cursor, c'.rest = b :: rest ∧
      c.tokens.map Token.word = w :: c'.tokens.map Token.word := by
  obtain ⟨ch, cs, htext, hblank, hne, hlexeme⟩ := hw
  have hskip : c.skipGap.rest = ch :: (cs ++ b :: rest) := by
    show c.rest.drop (gapLength false c.rest) = _
    rw [hc, htext, List.cons_append, gapLength_append hgap, gapLength_of_not_isBlank hblank hne]
    exact List.drop_left
  have hword : String.ofList (ch :: (cs ++ b :: rest).take cs.length) = w.2 := by
    rw [List.take_left, ← htext, String.ofList_toList]
  have hnext : c.next? = some (⟨w.1, ⟨c.skipGap.offset, (c.skipGap.skip (cs.length + 1)).offset⟩,
      w.2⟩, c.skipGap.skip (cs.length + 1)) := by
    rw [next?, token?, hskip]
    dsimp only
    rw [hlexeme b rest hb]
    dsimp only
    rw [hword]
  refine ⟨c.skipGap.skip (cs.length + 1), ?_, ?_⟩
  · show c.skipGap.rest.drop (cs.length + 1) = _
    rw [hskip, List.drop_succ_cons, List.drop_left]
  · rw [tokens_of_some hnext]
    rfl

end Cursor

/-! ## Words set apart by blanks -/

theorem words_layout (pen : Pen) :
    ∀ (ws : List Word) (i : Nat) (gap : List Char) (c : Cursor), (∀ w ∈ ws, w.Solid) →
      (∀ b ∈ gap, isBlank b = true) → c.rest = gap ++ pen.layout i ws →
      c.tokens.map Token.word = ws
  | [], _, gap, c, _, hgap, hc => by
    rw [Pen.layout, List.append_nil] at hc
    rw [Cursor.tokens_of_blank (hc ▸ hgap)]
    rfl
  | w :: ws, i, gap, c, hws, hgap, hc => by
    rw [List.forall_mem_cons] at hws
    obtain ⟨b, bs, hbs⟩ := List.exists_cons_of_ne_nil (pen.gap_ne i)
    have hb : isBlank b = true := pen.gap_blank i b (hbs ▸ List.mem_cons_self)
    rw [Pen.layout, hbs] at hc
    obtain ⟨c', hc', hwords⟩ := Cursor.words_of_solid hws.1 hgap hb hc
    rw [hwords, words_layout pen ws (i + 1) (pen.gap i) c' hws.2 (pen.gap_blank i)]
    rw [hc', hbs]
    rfl

/-! ## Names, marks and keywords -/

theorem isNamePart_of_isBlank {b : Char} (h : isBlank b = true) : isNamePart b = false := by
  simp only [isBlank, Bool.or_eq_true, decide_eq_true_eq, or_assoc] at h
  rcases h with rfl | rfl | rfl | rfl | rfl | rfl <;> rfl

theorem isBlank_of_isNamePart {c : Char} (h : isNamePart c = true) : isBlank c = false := by
  by_contra hblank
  have hpart := isNamePart_of_isBlank (Bool.not_eq_false _ ▸ hblank)
  rw [h] at hpart
  cases hpart

theorem isBlank_of_isDigit {c : Char} (h : c.isDigit = true) : isBlank c = false :=
  isBlank_of_isNamePart (by rw [isNamePart, Char.isAlphanum, h, Bool.or_true, Bool.true_or])

theorem ne_of_isBlank {b c : Char} (hb : isBlank b = true) (hc : isBlank c = false) : b ≠ c := by
  rintro rfl
  rw [hb] at hc
  cases hc

theorem isDigit_of_isNameStart {c : Char} (h : isNameStart c = true) : c.isDigit = false := by
  simp only [isNameStart, Bool.or_eq_true, decide_eq_true_eq] at h
  rcases h with h | rfl
  · have hletter : '9'.val < c.val := by
      rcases Bool.or_eq_true_iff.1 h with hupper | hlower
      · have hbounds : 'A'.val ≤ c.val ∧ c.val ≤ 'Z'.val := of_decide_eq_true hupper
        exact UInt32.lt_of_lt_of_le (by decide) hbounds.1
      · have hbound : 'a'.val ≤ c.val := of_decide_eq_true (Bool.and_eq_true_iff.1 hlower).1
        exact UInt32.lt_of_lt_of_le (by decide) hbound
    exact Bool.and_eq_false_iff.2 (.inr (decide_eq_false (UInt32.not_le.2 hletter)))
  · rfl

theorem lexeme_of_isNameStart {c : Char} (h : isNameStart c = true) (cs : List Char) :
    lexeme c cs = word c cs := by
  have hquote : c ≠ '"' := by
    rintro rfl
    exact absurd h (by decide)
  have hminus : c ≠ '-' := by
    rintro rfl
    exact absurd h (by decide)
  simp [lexeme, hquote, hminus, isDigit_of_isNameStart h, h]

theorem solid_ofName {n : String} (h : isName n = true) : (Word.ofName n).Solid := by
  obtain ⟨c, cs, hn, hstart, hparts⟩ := exists_cons_of_isName h
  rw [hn, List.forall_mem_cons] at hparts
  refine ⟨c, cs, hn, ?_, ?_, fun b rest hb => ?_⟩
  · exact isBlank_of_isNamePart hparts.1
  · rintro rfl
    exact absurd hstart (by decide)
  · have htake : (cs ++ b :: rest).takeWhile isNamePart = cs := by
      rw [List.takeWhile_append_of_pos hparts.2,
        List.takeWhile_cons_of_neg (by rw [isNamePart_of_isBlank hb]; exact Bool.false_ne_true),
        List.append_nil]
    rw [lexeme_of_isNameStart hstart, word, htake, ← hn, String.ofList_toList]
    unfold Word.ofName
    cases Keyword.ofSpelling? n <;> rfl

@[simp] theorem solid_mark (p : Punctuator) : (Word.mark p).Solid := by
  refine ⟨p.char, [], String.toList_singleton _, ?_, ?_, fun b rest _ => ?_⟩
  · cases p <;> decide
  · cases p <;> decide
  · cases p <;> rfl

theorem keyword_eq_ofName (k : Keyword) : Word.keyword k = .ofName k.spelling := by
  cases k <;> decide

theorem isName_spelling (k : Keyword) : isName k.spelling = true := by
  cases k <;> decide

@[simp] theorem solid_keyword (k : Keyword) : (Word.keyword k).Solid := by
  rw [keyword_eq_ofName]
  exact solid_ofName (isName_spelling k)

/-! ## Whole numbers -/

theorem toList_int (v : Int) :
    ∃ ds, (∀ d ∈ ds, d.isDigit = true) ∧ ds ≠ [] ∧
      (((toString v).toList = ds ∧ v = Numeral.digitsValue ds) ∨
        ((toString v).toList = '-' :: ds ∧ v = -(Numeral.digitsValue ds : Int))) := by
  have hdigits (n : Nat) : Numeral.digitsValue (Nat.toDigits 10 n) = n :=
    Nat.ofDigitChars_ten_toDigits
  rw [Int.toString_eq_repr]
  cases v with
  | ofNat n =>
    refine ⟨Nat.toDigits 10 n, fun d hd => ?_, Nat.toDigits_ne_nil, .inl ⟨Nat.toList_repr, ?_⟩⟩
    · exact Nat.isDigit_of_mem_toDigits (by decide) (by decide) hd
    · rw [hdigits]
      rfl
  | negSucc n =>
    refine ⟨Nat.toDigits 10 (n + 1), fun d hd => ?_, Nat.toDigits_ne_nil, .inr ⟨?_, ?_⟩⟩
    · exact Nat.isDigit_of_mem_toDigits (by decide) (by decide) hd
    · show ("-" ++ (n + 1).repr).toList = _
      rw [String.toList_append, Nat.toList_repr]
      rfl
    · rw [hdigits]
      rfl

theorem numeral_of_digits {c : Char} {ds : List Char} (hds : ∀ d ∈ ds, d.isDigit = true)
    (hc : c ≠ '-' ∨ ds ≠ []) {b : Char} (hb : isBlank b = true) (rest : List Char) :
    numeral c (ds ++ b :: rest) = (.int, ds.length) := by
  have hdigit : b.isDigit = false := by
    by_contra hdigit
    exact ne_of_isBlank hb (isBlank_of_isDigit (Bool.not_eq_false _ ▸ hdigit)) rfl
  have hpoint : b ≠ '.' := ne_of_isBlank hb (by decide)
  have he : b ≠ 'e' := ne_of_isBlank hb (by decide)
  have hE : b ≠ 'E' := ne_of_isBlank hb (by decide)
  have hcount : digitCount (ds ++ b :: rest) = ds.length := by
    rw [digitCount, List.takeWhile_append_of_pos hds,
      List.takeWhile_cons_of_neg (by rw [hdigit]; exact Bool.false_ne_true), List.append_nil]
  have hfraction : fractionLength (b :: rest) = 0 := by simp [fractionLength, hpoint]
  have hexponent : exponentLength (b :: rest) = 0 := by simp [exponentLength, he, hE]
  have hwhole : ¬ (c = '-' ∧ ds.length = 0) := by
    rintro ⟨hminus, hlength⟩
    rcases hc with hc | hc
    · exact hc hminus
    · exact hc (List.eq_nil_of_length_eq_zero hlength)
  simp only [numeral, hcount, List.drop_left, hfraction, Nat.add_zero, hexponent, if_neg hwhole,
    and_self, if_true]

theorem lexeme_of_numeral {c : Char} (h : c = '-' ∨ c.isDigit = true) (cs : List Char) :
    lexeme c cs = numeral c cs := by
  have hquote : c ≠ '"' := by
    rintro rfl
    exact absurd h (by decide)
  have hnumeral : (decide (c = '-') || c.isDigit) = true := by simpa using h
  rw [lexeme, if_neg hquote, if_pos hnumeral]

@[simp] theorem solid_int (v : Int) : (Word.int v).Solid := by
  obtain ⟨ds, hds, hne, ⟨htext, _⟩ | ⟨htext, _⟩⟩ := toList_int v
  · obtain ⟨d, ds, rfl⟩ := List.exists_cons_of_ne_nil hne
    rw [List.forall_mem_cons] at hds
    have hsharp : d ≠ '#' := by
      rintro rfl
      exact absurd hds.1 (by decide)
    have hminus : d ≠ '-' := by
      rintro rfl
      exact absurd hds.1 (by decide)
    refine ⟨d, ds, htext, isBlank_of_isDigit hds.1, hsharp, fun b rest hb => ?_⟩
    rw [lexeme_of_numeral (.inr hds.1), numeral_of_digits hds.2 (.inl hminus) hb]
    rfl
  · refine ⟨'-', ds, htext, by decide, by decide, fun b rest hb => ?_⟩
    rw [lexeme_of_numeral (.inl rfl), numeral_of_digits hds (.inr hne) hb]
    rfl

/-- A whole number that fits in 64 bits is read back. -/
theorem int64?_toString {v : Int}
    (h : Int64.minValue.toInt ≤ v ∧ v ≤ Int64.maxValue.toInt) :
    Numeral.int64? (toString v) = some v := by
  have hvalue : Numeral.intValue (toString v).toList = v := by
    obtain ⟨ds, hds, hne, ⟨htext, hv⟩ | ⟨htext, hv⟩⟩ := toList_int v
    · obtain ⟨d, ds, rfl⟩ := List.exists_cons_of_ne_nil hne
      have hminus : d ≠ '-' := by
        rintro rfl
        exact absurd (hds _ List.mem_cons_self) (by decide)
      rw [htext, hv]
      unfold Numeral.intValue
      split
      · rename_i heq
        exact absurd (List.cons.inj heq).1 hminus
      · rfl
    · rw [htext, hv]
      rfl
  rw [Numeral.int64?_eq, hvalue, if_pos h]

/-! ## Texts in quotes -/

/-- What follows a string that is closed does not belong to it. -/
theorem stringTail_append {cs : List Char} (h : (stringTail cs).1 ≠ .invalid) (rest : List Char) :
    stringTail (cs ++ rest) = stringTail cs := by
  fun_induction stringTail cs with
  | case1 => exact absurd rfl h
  | case2 => exact absurd rfl h
  | case3 cs => rfl
  | case4 c cs ih =>
    show longer 2 (stringTail (cs ++ rest)) = _
    rw [ih h]
  | case5 c cs hline hquote hslash ih =>
    cases cs with
    | nil => exact absurd rfl h
    | cons d ds =>
      have hslash' : c ≠ '\\' := fun hc => hslash d ds hc rfl
      rw [← ih h, List.cons_append, stringTail]
      · exact hline
      · exact hquote
      · exact fun _ _ hc => absurd hc hslash'

theorem length_of_blockTail {cs : List Char} (h : (blockTail cs).1 ≠ .invalid) :
    3 ≤ cs.length := by
  fun_induction blockTail cs with
  | case1 => exact absurd rfl h
  | case2 => simp
  | case3 => simp
  | case4 c cs _ _ ih =>
    have hlength := ih h
    rw [List.length_cons]
    omega

/-- What follows a block string that is closed does not belong to it. -/
theorem blockTail_append {cs : List Char} (h : (blockTail cs).1 ≠ .invalid) (rest : List Char) :
    blockTail (cs ++ rest) = blockTail cs := by
  fun_induction blockTail cs with
  | case1 => exact absurd rfl h
  | case2 => rfl
  | case3 cs ih =>
    show longer 4 (blockTail (cs ++ rest)) = _
    rw [ih h]
  | case4 c cs hclose hescape ih =>
    -- Three more characters are there, so what follows cannot make another mark of these.
    obtain ⟨x, y, z, ds, rfl⟩ : ∃ x y z ds, cs = x :: y :: z :: ds := by
      have hlength := length_of_blockTail h
      match cs, hlength with
      | x :: y :: z :: ds, _ => exact ⟨x, y, z, ds, rfl⟩
    rw [← ih h, List.cons_append, blockTail]
    · intro e hc hcs
      simp only [List.cons_append, List.cons.injEq] at hcs
      exact hclose (z :: ds) hc (by rw [hcs.1, hcs.2.1])
    · intro e hc hcs
      simp only [List.cons_append, List.cons.injEq] at hcs
      exact hescape ds hc (by rw [hcs.1, hcs.2.1, hcs.2.2.1])

theorem quoted_eq_stringTail {cs : List Char} (h : ∀ ds, cs ≠ '"' :: '"' :: ds) :
    quoted cs = stringTail cs := by
  unfold quoted
  split
  · exact absurd rfl (h _)
  · rfl

/-- Two quotes do not arise before a character that is none. -/
theorem exists_quotes_of_append {cs rest es : List Char} {b : Char} (hb : b ≠ '"')
    (h : cs ++ b :: rest = '"' :: '"' :: es) : ∃ ds, cs = '"' :: '"' :: ds := by
  match cs with
  | [] => exact absurd (List.cons.inj h).1 hb
  | [x] => exact absurd (List.cons.inj (List.cons.inj h).2).1 hb
  | x :: y :: ds =>
    simp only [List.cons_append, List.cons.injEq] at h
    exact ⟨ds, by rw [h.1, h.2.1]⟩

theorem quoted_append {cs : List Char} (h : (quoted cs).1 ≠ .invalid) {b : Char} (hb : b ≠ '"')
    (rest : List Char) : quoted (cs ++ b :: rest) = quoted cs := by
  by_cases hblock : ∃ ds, cs = '"' :: '"' :: ds
  · obtain ⟨ds, rfl⟩ := hblock
    show longer 2 (blockTail (ds ++ b :: rest)) = longer 2 (blockTail ds)
    rw [blockTail_append h]
  · have hcs : ∀ ds, cs ≠ '"' :: '"' :: ds := fun ds hds => hblock ⟨ds, hds⟩
    have hne : ∀ ds, cs ++ b :: rest ≠ '"' :: '"' :: ds := fun ds hds =>
      hblock (exists_quotes_of_append hb hds)
    rw [quoted_eq_stringTail hcs] at h
    rw [quoted_eq_stringTail hcs, quoted_eq_stringTail hne, stringTail_append h]

theorem literal_eq (q : Quoting) (body : String) :
    q.literal body = '"' :: (q.literal body).tail := by
  cases q <;> rfl

theorem solid_text {q : Quoting} {body : String} (h : q.fits body = true) :
    (q.word body).Solid := by
  have hquoted : quoted (q.literal body).tail = (q.kind, (q.literal body).tail.length) :=
    of_decide_eq_true h
  have hvalid : (quoted (q.literal body).tail).1 ≠ .invalid := by
    rw [hquoted]
    show q.kind ≠ .invalid
    cases q <;> decide
  refine ⟨'"', (q.literal body).tail, ?_, by decide, by decide, fun b rest hb => ?_⟩
  · show (String.ofList _).toList = _
    rw [String.toList_ofList, ← literal_eq]
  · have hquote : b ≠ '"' := ne_of_isBlank hb (by decide)
    show quoted _ = _
    rw [quoted_append hvalid hquote, hquoted]
    rfl

/-- A text in quotes has itself for its body. -/
theorem body_word (q : Quoting) (body : String) (span : Text.Span) :
    Token.body ⟨(q.word body).1, span, (q.word body).2⟩ = body := by
  cases q <;> simp [Token.body, Quoting.kind, Quoting.word, Quoting.literal, Quoting.marks]

/-! ## Names among the tokens -/

theorem kind_quoted (cs : List Char) :
    (quoted cs).1 = .invalid ∨ (quoted cs).1 = .string ∨ (quoted cs).1 = .blockString := by
  have hstring : (stringTail cs).1 = .invalid ∨ (stringTail cs).1 = .string := by
    fun_induction stringTail cs with
    | case1 => exact .inl rfl
    | case2 => exact .inl rfl
    | case3 => exact .inr rfl
    | case4 _ _ ih => exact ih
    | case5 _ _ _ _ _ ih => exact ih
  have hblock (ds : List Char) : (blockTail ds).1 = .invalid ∨ (blockTail ds).1 = .blockString := by
    fun_induction blockTail ds with
    | case1 => exact .inl rfl
    | case2 => exact .inr rfl
    | case3 _ ih => exact ih
    | case4 _ _ _ _ ih => exact ih
  unfold quoted
  split
  · exact (hblock _).imp_right .inr
  · exact hstring.imp_right .inl

theorem isName_quoted (cs : List Char) : (quoted cs).1.isName = false := by
  rcases kind_quoted cs with h | h | h <;> rw [h] <;> rfl

theorem isName_numeral (c : Char) (cs : List Char) : (numeral c cs).1.isName = false := by
  unfold numeral
  dsimp only
  split
  · rfl
  · split
    · rfl
    · rfl

/-- A token that may serve as a name starts like one and goes on as far as one can. -/
theorem lexeme_of_isName {c : Char} {cs : List Char} (h : (lexeme c cs).1.isName = true) :
    isNameStart c = true ∧ (lexeme c cs).2 = (cs.takeWhile isNamePart).length := by
  unfold lexeme at h ⊢
  split at h
  · rw [isName_quoted] at h
    cases h
  split at h
  · rw [isName_numeral] at h
    cases h
  split at h
  · rename_i hquote hnumeral hstart
    rw [if_neg hquote, if_neg hnumeral, if_pos hstart]
    refine ⟨hstart, ?_⟩
    unfold word
    dsimp only
    split
    · rfl
    · rfl
  · split at h
    · cases h
    · cases h

theorem isName_of_token? {c c' : Cursor} {t : Token} (h : c.token? = some (t, c'))
    (hkind : t.kind.isName = true) : isName t.text = true := by
  unfold Cursor.token? at h
  split at h
  · cases h
  · rename_i ch cs _
    obtain ⟨rfl, _⟩ := Prod.mk.inj (Option.some.inj h)
    obtain ⟨hstart, hlength⟩ := lexeme_of_isName hkind
    have htake : cs.take (cs.takeWhile isNamePart).length = cs.takeWhile isNamePart :=
      (List.prefix_iff_eq_take.1 (List.takeWhile_prefix isNamePart)).symm
    show isName (String.ofList (ch :: cs.take (lexeme ch cs).2)) = true
    rw [hlength, htake, isName, String.toList_ofList]
    exact Bool.and_eq_true_iff.2 ⟨hstart, List.all_takeWhile⟩

/-- A token that may serve as a name is a name of the language. -/
theorem isName_of_mem_tokens (c : Cursor) :
    ∀ t ∈ c.tokens, t.kind.isName = true → isName t.text = true := by
  fun_induction Cursor.tokens c with
  | case1 => exact fun _ h => absurd h List.not_mem_nil
  | case2 c t c' hnext _ ih => exact List.forall_mem_cons.2 ⟨isName_of_token? hnext, ih⟩

/-! ## The words of a document -/

/-- Every one of the words is solid. -/
def Solid (ws : List Word) : Prop := ∀ w ∈ ws, w.Solid

namespace Solid

@[simp] theorem nil : Solid [] := fun _ h => absurd h List.not_mem_nil

@[simp] theorem cons_iff {w : Word} {ws : List Word} : Solid (w :: ws) ↔ w.Solid ∧ Solid ws :=
  List.forall_mem_cons

@[simp] theorem append_iff {ws vs : List Word} : Solid (ws ++ vs) ↔ Solid ws ∧ Solid vs :=
  List.forall_mem_append

theorem flatMap {α : Type} {word : α → List Word} {as : List α} (h : ∀ a ∈ as, Solid (word a)) :
    Solid (as.flatMap word) := by
  intro w hw
  obtain ⟨a, ha, hwa⟩ := List.mem_flatMap.1 hw
  exact h a ha w hwa

theorem separated {p : Punctuator} {ws : List Word} (h : Solid ws) :
    Solid (separated p ws) := by
  cases ws with
  | nil => exact nil
  | cons w ws =>
    rw [cons_iff] at h
    refine cons_iff.2 ⟨h.1, flatMap fun v hv => ?_⟩
    simp [solid_mark p, h.2 v hv]

theorem enclosed {α : Type} {o c : Punctuator} {word : α → List Word} {as : List α}
    (h : ∀ a ∈ as, Solid (word a)) : Solid (enclosed o c word as) := by
  cases as with
  | nil => exact nil
  | cons a as => simpa [Schema.enclosed, solid_mark o, solid_mark c] using flatMap h

theorem introduced {intro : Word} (hintro : intro.Solid) {ws : List Word} (h : Solid ws) :
    Solid (introduced intro ws) := by
  cases ws with
  | nil => exact nil
  | cons w ws => exact cons_iff.2 ⟨hintro, h⟩

end Solid

section Words

variable {names : NameTable} (pen : Pen)

theorem solid_nameWord {id : NameId} (h : isName (names.text id) = true) :
    (nameWord names id).Solid := solid_ofName h

theorem solid_textWord {body : String} (h : quotable body = true) :
    (textWord pen.quoting body).Solid := solid_text (pen.quoting_fits body h)

theorem solid_description {d : Option Description} (h : d.all Description.writable = true) :
    Solid (descriptionWords pen.quoting d) := by
  cases d with
  | none => exact .nil
  | some d => simpa [descriptionWords] using solid_textWord pen h

theorem solid_typeRef {t : TypeRef} (h : t.writable names = true) : Solid (t.words names) := by
  induction t with
  | named name => simpa [TypeRef.words] using solid_nameWord h
  | list item _ ih => simpa [TypeRef.words] using ih h
  | nonNull inner _ ih =>
    simpa [TypeRef.words] using ih (Bool.and_eq_true_iff.1 h).2

mutual

theorem solid_value : ∀ {v : Value}, v.writable names = true → Solid (v.words names pen.quoting)
  | .int v _, _ => by simp [Value.words]
  | .float _ _, h => by cases h
  | .string body _, h => by simpa [Value.words] using solid_textWord pen h
  | .boolean true _, _ => by simp [Value.words]
  | .boolean false _, _ => by simp [Value.words]
  | .null _, _ => by simp [Value.words]
  | .enum id _, h => by
    simpa [Value.words] using solid_nameWord (Bool.and_eq_true_iff.1 h).1
  | .list items _, h => by simpa [Value.words] using solid_items h
  | .object fields _, h => by simpa [Value.words] using solid_fields h

theorem solid_items : ∀ {items : List Value}, Value.writableItems names items = true →
    Solid (Value.wordsOfItems names pen.quoting items)
  | [], _ => by simp [Value.wordsOfItems]
  | item :: items, h => by
    obtain ⟨hitem, hitems⟩ := Bool.and_eq_true_iff.1 h
    simpa [Value.wordsOfItems] using ⟨solid_value hitem, solid_items hitems⟩

theorem solid_fields : ∀ {fields : List (NameId × Value)},
    Value.writableFields names fields = true →
    Solid (Value.wordsOfFields names pen.quoting fields)
  | [], _ => by simp [Value.wordsOfFields]
  | (id, value) :: fields, h => by
    simp only [Value.writableFields, Bool.and_eq_true] at h
    simpa [Value.wordsOfFields] using
      ⟨solid_nameWord h.1.1, solid_value h.1.2, solid_fields h.2⟩

end

theorem solid_argument {a : Argument} (h : a.writable names = true) :
    Solid (a.words names pen.quoting) := by
  obtain ⟨hname, hvalue⟩ := Bool.and_eq_true_iff.1 h
  simpa [Argument.words] using ⟨solid_nameWord hname, solid_value pen hvalue⟩

theorem solid_directive {d : Directive} (h : d.writable names = true) :
    Solid (d.words names pen.quoting) := by
  obtain ⟨hname, hargs⟩ := Bool.and_eq_true_iff.1 h
  have hargs := Solid.enclosed (o := .parenOpen) (c := .parenClose)
    fun a ha => solid_argument pen (List.all_eq_true.1 hargs a ha)
  simpa [Directive.words] using ⟨solid_nameWord hname, hargs⟩

theorem solid_directives {ds : List Directive} (h : ds.all (Directive.writable names) = true) :
    Solid (directivesWords names pen.quoting ds) :=
  .flatMap fun d hd => solid_directive pen (List.all_eq_true.1 h d hd)

theorem solid_default {v : Option Value} (h : v.all (Value.writable names) = true) :
    Solid (defaultWords names pen.quoting v) := by
  refine .introduced (solid_mark _) (.flatMap fun w hw => solid_value pen ?_)
  rw [Option.mem_toList] at hw
  rw [hw] at h
  exact h

theorem solid_inputValue {v : InputValue} (h : v.writable names = true) :
    Solid (v.words names pen.quoting) := by
  simp only [InputValue.writable, Bool.and_eq_true] at h
  obtain ⟨⟨⟨⟨hdescription, hname⟩, htype⟩, hdefault⟩, hdirectives⟩ := h
  simpa [InputValue.words] using ⟨solid_description pen hdescription, solid_nameWord hname,
    solid_typeRef htype, solid_default pen hdefault, solid_directives pen hdirectives⟩

theorem solid_arguments {vs : List InputValue} (h : vs.all (InputValue.writable names) = true) :
    Solid (argumentWords names pen.quoting vs) :=
  .enclosed fun v hv => solid_inputValue pen (List.all_eq_true.1 h v hv)

theorem solid_field {f : Field} (h : f.writable names = true) :
    Solid (f.words names pen.quoting) := by
  simp only [Field.writable, Bool.and_eq_true] at h
  obtain ⟨⟨⟨⟨hdescription, hname⟩, hargs⟩, htype⟩, hdirectives⟩ := h
  simpa [Field.words] using ⟨solid_description pen hdescription, solid_nameWord hname,
    solid_arguments pen hargs, solid_typeRef htype, solid_directives pen hdirectives⟩

theorem solid_names {ns : List Name} (h : ns.all (Name.writable names) = true) :
    Solid (ns.map fun n => nameWord names n.id) := by
  intro w hw
  obtain ⟨n, hn, rfl⟩ := List.mem_map.1 hw
  exact solid_nameWord (List.all_eq_true.1 h n hn)

theorem solid_interfaces {ns : List Name} (h : ns.all (Name.writable names) = true) :
    Solid (interfaceWords names ns) :=
  .introduced (solid_keyword _) (.separated (solid_names h))

theorem solid_members {ns : List Name} (h : ns.all (Name.writable names) = true) :
    Solid (memberWords names ns) :=
  .introduced (solid_mark _) (.separated (solid_names h))

theorem solid_enumValue {v : EnumValue} (h : v.writable names = true) :
    Solid (v.words names pen.quoting) := by
  simp only [EnumValue.writable, Bool.and_eq_true] at h
  obtain ⟨⟨hdescription, hname⟩, hdirectives⟩ := h
  simpa [EnumValue.words] using ⟨solid_description pen hdescription, solid_nameWord hname,
    solid_directives pen hdirectives⟩

theorem solid_fieldsDefinition {d : FieldsDefinition} (h : d.writable names = true) :
    Solid (d.words names pen.quoting) := by
  simp only [FieldsDefinition.writable, Bool.and_eq_true] at h
  obtain ⟨⟨⟨hname, hinterfaces⟩, hdirectives⟩, hfields⟩ := h
  have hfields := Solid.enclosed (o := .braceOpen) (c := .braceClose)
    fun f hf => solid_field pen (List.all_eq_true.1 hfields f hf)
  simpa [FieldsDefinition.words] using ⟨solid_nameWord hname, solid_interfaces hinterfaces,
    solid_directives pen hdirectives, hfields⟩

theorem isName_location (l : Location) : isName l.spelling = true := by
  cases l <;> decide

theorem solid_locations (ls : List Location) : Solid (locationWords ls) := by
  refine .separated fun w hw => ?_
  obtain ⟨l, _, rfl⟩ := List.mem_map.1 hw
  exact solid_ofName (isName_location l)

theorem solid_definition {x : Definition} (h : x.writable names = true) :
    Solid (x.words names pen.quoting) := by
  obtain ⟨hdescription, hbare⟩ := Bool.and_eq_true_iff.1 h
  refine Solid.append_iff.2 ⟨solid_description pen hdescription, ?_⟩
  cases x <;> simp only [Definition.bareWritable, Bool.and_eq_true] at hbare
  case schema d =>
    have hoperations : Solid (d.operations.flatMap (RootOperation.words names)) := by
      refine .flatMap fun o ho => ?_
      simpa [RootOperation.words] using solid_nameWord (List.all_eq_true.1 hbare.2 o ho)
    simpa [Definition.bareWords] using ⟨solid_directives pen hbare.1, hoperations⟩
  case object d => simpa [Definition.bareWords] using solid_fieldsDefinition pen hbare
  case interface d => simpa [Definition.bareWords] using solid_fieldsDefinition pen hbare
  case union d =>
    simpa [Definition.bareWords] using
      ⟨solid_nameWord hbare.1.1, solid_directives pen hbare.1.2, solid_members hbare.2⟩
  case enum d =>
    have hvalues := Solid.enclosed (o := .braceOpen) (c := .braceClose)
      fun v hv => solid_enumValue pen (List.all_eq_true.1 hbare.2 v hv)
    simpa [Definition.bareWords] using
      ⟨solid_nameWord hbare.1.1, solid_directives pen hbare.1.2, hvalues⟩
  case input d =>
    have hfields := Solid.enclosed (o := .braceOpen) (c := .braceClose)
      fun v hv => solid_inputValue pen (List.all_eq_true.1 hbare.2 v hv)
    simpa [Definition.bareWords] using
      ⟨solid_nameWord hbare.1.1, solid_directives pen hbare.1.2, hfields⟩
  case scalar d =>
    simpa [Definition.bareWords] using ⟨solid_nameWord hbare.1, solid_directives pen hbare.2⟩
  case directive d =>
    have hrepeatable : Solid (if d.repeatable then [.keyword .repeatable] else []) := by
      split <;> simp
    simpa [Definition.bareWords] using ⟨solid_nameWord hbare.1.1, solid_arguments pen hbare.1.2,
      hrepeatable, solid_locations d.locations⟩

theorem solid_document {d : Document} (h : d.writable names = true) :
    Solid (d.words names pen.quoting) :=
  .flatMap fun x hx => solid_definition pen (List.all_eq_true.1 h x hx)

end Words

/-- The tokens of a document's text are its words and the end mark. -/
theorem words_write {names : NameTable} (pen : Pen) {d : Document}
    (h : d.writable names = true) :
    (tokenize (d.write names pen)).map Token.word =
      d.words names pen.quoting ++ [(.endOfInput, "")] := by
  have hwords := words_layout pen (d.words names pen.quoting) 0 []
    (Cursor.start (d.write names pen).toList) (solid_document pen h)
    (fun _ hb => absurd hb List.not_mem_nil) String.toList_ofList
  rw [tokenize, List.map_append, hwords]
  rfl

end SchemaToFlow.Schema
