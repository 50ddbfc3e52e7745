import SchemaToFlow.Proofs.LexicalForm

/-!
# Reading tokens again

Where a token ends may hang on what follows it: a quote, a point, an exponent, the end of the line.
Still the text of a token, read by itself, is that token, whatever was cut off behind it
(`lexeme_take`), and it is so before a line feed, too, unless the token reached to the end of its
source (`lexeme_line`). The latter takes in invalid tokens: an open string has stopped before a line
feed already, and an open block string is the last token there is.

So the texts of the tokens of a source may be written one below the other (`onLines`), and reading
them gives the same kinds and texts (`words_onLines`).
-/

namespace SchemaToFlow.Schema

open Text

/-! ## A token without what follows it -/

section Take

variable {cs : List Char} {m : Nat}

theorem takeWhile_take {p : Char → Bool} (h : (cs.takeWhile p).length ≤ m) :
    (cs.take m).takeWhile p = cs.takeWhile p := by
  rw [← List.take_takeWhile, List.take_of_length_le h]

theorem digitCount_take (h : digitCount cs ≤ m) : digitCount (cs.take m) = digitCount cs :=
  congrArg List.length (takeWhile_take h)

theorem fractionLength_take (h : fractionLength cs ≤ m) :
    fractionLength (cs.take m) = fractionLength cs := by
  cases cs with
  | nil => rw [List.take_nil]
  | cons c cs =>
    cases m with
    | zero => exact (Nat.le_zero.1 h).symm
    | succ m =>
      rw [List.take_succ_cons, fractionLength, fractionLength]
      rw [fractionLength] at h
      by_cases hpoint : c = '.' ∧ digitCount cs ≠ 0
      · rw [if_pos hpoint] at h
        rw [digitCount_take (Nat.le_of_succ_le_succ h)]
      · have hzero : ¬ (c = '.' ∧ digitCount (cs.take m) ≠ 0) := by
          rintro ⟨hc, hdigits⟩
          have hcount : digitCount cs = 0 := by
            by_contra hne
            exact hpoint ⟨hc, hne⟩
          exact hdigits ((digitCount_take (by omega)).trans hcount)
        rw [if_neg hpoint, if_neg hzero]

theorem signLength_take (h : signLength cs ≤ m) : signLength (cs.take m) = signLength cs := by
  cases cs with
  | nil => rw [List.take_nil]
  | cons c cs =>
    cases m with
    | zero => exact (Nat.le_zero.1 h).symm
    | succ m => rfl

theorem exponentLength_take (h : exponentLength cs ≤ m) :
    exponentLength (cs.take m) = exponentLength cs := by
  cases cs with
  | nil => rw [List.take_nil]
  | cons c cs =>
    cases m with
    | zero => exact (Nat.le_zero.1 h).symm
    | succ m =>
      rw [List.take_succ_cons, exponentLength, exponentLength]
      rw [exponentLength] at h
      by_cases hmark : c = 'e' ∨ c = 'E'
      · rw [if_pos hmark] at h
        rw [if_pos hmark, if_pos hmark, signLength_take (by omega), List.drop_take,
          digitCount_take (by omega)]
      · rw [if_neg hmark, if_neg hmark]

theorem numeral_take {c : Char} (h : (numeral c cs).2 ≤ m) :
    numeral c (cs.take m) = numeral c cs := by
  by_cases hminus : c = '-' ∧ digitCount cs = 0
  · unfold numeral
    dsimp only
    rw [digitCount_take (by omega), if_pos hminus, if_pos hminus]
  · have hle : digitCount cs + fractionLength (cs.drop (digitCount cs)) + exponentLength
        (cs.drop (digitCount cs + fractionLength (cs.drop (digitCount cs)))) ≤ m := by
      unfold numeral at h
      dsimp only at h
      rw [if_neg hminus] at h
      split at h
      · rename_i hnone
        have hdigits : digitCount cs ≤ m := h
        omega
      · exact h
    unfold numeral
    dsimp only
    rw [digitCount_take (by omega), List.drop_take, fractionLength_take (by omega), List.drop_take,
      exponentLength_take (by omega)]

theorem word_take (c : Char) (cs : List Char) : word c (cs.take (word c cs).2) = word c cs := by
  have hlength : (word c cs).2 = (cs.takeWhile isNamePart).length := by
    unfold word
    dsimp only
    split <;> rfl
  rw [hlength]
  unfold word
  rw [takeWhile_take (Nat.le_refl _)]

end Take

/-- The units of a string are read before anything else that may follow them. -/
theorem StringUnits.stringTail_append {after body : List Char} (h : StringUnits after body)
    {more : List Char} (hmore : after = [] → more = []) :
    stringTail (body ++ more) = longer body.length (stringTail more) := by
  induction h with
  | done => rfl
  | @escaped c body _ ih =>
    show longer 2 (stringTail (body ++ more)) = _
    rw [ih]
    rfl
  | @plain c body hquote hline hslash _ ih =>
    rw [List.cons_append, stringTail, ih]
    · rfl
    · exact hline
    · exact hquote
    · intro d ds hc hds
      obtain ⟨rfl, hafter⟩ := List.append_eq_nil_iff.1 (hslash hc)
      rw [hmore hafter] at hds
      cases hds

/-- The units of a block string are read before as much as there is of what follows them. -/
theorem BlockUnits.blockTail_append {after body : List Char} (h : BlockUnits after body)
    {more : List Char} (hmore : more <+: after) :
    blockTail (body ++ more) = longer body.length (blockTail more) := by
  have hstarts {c : Char} {body start : List Char} (h : start <+: c :: (body ++ more)) :
      start <+: c :: (body ++ after) :=
    h.trans (List.cons_prefix_cons.2 ⟨rfl, (List.prefix_append_right_inj body).2 hmore⟩)
  induction h with
  | done => rfl
  | @escaped body _ ih =>
    show longer 4 (blockTail (body ++ more)) = _
    rw [ih]
    rfl
  | @single c body hquotes hslash _ ih =>
    rw [List.cons_append, blockTail, ih]
    · rfl
    · intro ds hc hds
      exact hquotes (hstarts ⟨ds, by rw [hc, hds]; rfl⟩)
    · intro ds hc hds
      exact hslash (hstarts ⟨ds, by rw [hc, hds]; rfl⟩)

theorem stringTail_take (cs : List Char) :
    stringTail (cs.take (stringTail cs).2) = stringTail cs := by
  obtain ⟨body, after, rfl, hbody, ⟨hafter, htail⟩ | ⟨_, htail⟩⟩ := stringTail_units cs
  · obtain ⟨more, rfl⟩ := List.head?_eq_some_iff.1 hafter
    rw [htail, List.take_length_add_append]
    exact (hbody.stringTail_append (fun h => absurd h (List.cons_ne_nil _ _))).trans
      (congrArg (Prod.mk _) (Nat.add_comm _ _))
  · rw [htail, List.take_left]
    have hopen := hbody.stringTail_append (fun _ => rfl)
    rw [List.append_nil] at hopen
    exact hopen.trans (congrArg (Prod.mk _) (Nat.zero_add _))

theorem blockTail_take (cs : List Char) : blockTail (cs.take (blockTail cs).2) = blockTail cs := by
  obtain ⟨body, after, rfl, hbody, ⟨⟨more, rfl⟩, htail⟩ | ⟨rfl, htail⟩⟩ := blockTail_units cs
  · rw [htail, List.take_length_add_append]
    exact (hbody.blockTail_append (List.prefix_append quotes more)).trans
      (congrArg (Prod.mk _) (Nat.add_comm _ _))
  · rw [htail, List.append_nil, List.take_length]
    rw [List.append_nil] at htail
    exact htail

theorem exists_quotes_of_take {cs ds : List Char} {m : Nat} (h : cs.take m = '"' :: '"' :: ds) :
    ∃ es, cs = '"' :: '"' :: es := by
  have hstarts := List.take_prefix m cs
  rw [h] at hstarts
  obtain ⟨more, rfl⟩ := hstarts
  exact ⟨ds ++ more, rfl⟩

theorem quoted_take (cs : List Char) : quoted (cs.take (quoted cs).2) = quoted cs := by
  by_cases hblock : ∃ ds, cs = '"' :: '"' :: ds
  · obtain ⟨ds, rfl⟩ := hblock
    exact congrArg (longer 2) (blockTail_take ds)
  · rw [quoted_eq_stringTail fun ds hds => hblock ⟨ds, hds⟩, quoted_eq_stringTail, stringTail_take]
    exact fun ds hds => hblock (exists_quotes_of_take hds)

/-- **The text of a token, read by itself, is the token.** -/
theorem lexeme_take (c : Char) (cs : List Char) :
    lexeme c (cs.take (lexeme c cs).2) = lexeme c cs := by
  unfold lexeme
  by_cases hquote : c = '"'
  · rw [if_pos hquote, if_pos hquote]
    exact quoted_take cs
  rw [if_neg hquote, if_neg hquote]
  by_cases hnumber : (c = '-' || c.isDigit) = true
  · rw [if_pos hnumber, if_pos hnumber]
    exact numeral_take (Nat.le_refl _)
  rw [if_neg hnumber, if_neg hnumber]
  by_cases hname : isNameStart c = true
  · rw [if_pos hname, if_pos hname]
    exact word_take c cs
  · rw [if_neg hname, if_neg hname]

/-! ## A token before a line feed -/

/-- A string that is open at a line feed is open at any other one. -/
theorem stringTail_line {cs : List Char} (h : (stringTail cs).1 = .invalid)
    (hlt : (stringTail cs).2 < cs.length) (ds : List Char) :
    stringTail (cs.take (stringTail cs).2 ++ '\n' :: ds) = stringTail cs := by
  obtain ⟨body, after, rfl, hbody, ⟨_, htail⟩ | ⟨_, htail⟩⟩ := stringTail_units cs
  · rw [htail] at h
    cases h
  · have hafter : after ≠ [] := by
      rintro rfl
      rw [htail, List.append_nil] at hlt
      exact Nat.lt_irrefl _ hlt
    rw [htail, List.take_left]
    exact (hbody.stringTail_append fun h => absurd h hafter).trans
      (congrArg (Prod.mk _) (Nat.zero_add _))

/-- A block string that is open takes the whole text. -/
theorem blockTail_of_invalid {cs : List Char} (h : (blockTail cs).1 = .invalid) :
    (blockTail cs).2 = cs.length := by
  obtain ⟨body, after, rfl, _, ⟨_, htail⟩ | ⟨rfl, htail⟩⟩ := blockTail_units cs
  · rw [htail] at h
    cases h
  · rw [htail, List.append_nil]

theorem quoted_line {cs : List Char} (h : (quoted cs).2 < cs.length) (ds : List Char) :
    quoted (cs.take (quoted cs).2 ++ '\n' :: ds) = quoted cs := by
  by_cases hkind : (quoted cs).1 = .invalid
  · by_cases hblock : ∃ es, cs = '"' :: '"' :: es
    · obtain ⟨es, rfl⟩ := hblock
      have hlength : (quoted ('"' :: '"' :: es)).2 = es.length + 2 :=
        congrArg (· + 2) (blockTail_of_invalid hkind)
      rw [hlength] at h
      exact absurd h (Nat.lt_irrefl _)
    · have hquoted := quoted_eq_stringTail fun es hes => hblock ⟨es, hes⟩
      rw [hquoted] at h hkind ⊢
      rw [quoted_eq_stringTail, stringTail_line hkind h]
      intro es hes
      obtain ⟨fs, hfs⟩ := exists_quotes_of_append (by decide) hes
      exact hblock (exists_quotes_of_take hfs)
  · rw [quoted_append (by rwa [quoted_take]) (by decide), quoted_take]

/-- **Before a line feed, too, the text of a token is the token**, if anything followed it. -/
theorem lexeme_line {c : Char} {cs : List Char} (h : (lexeme c cs).2 < cs.length) (ds : List Char) :
    lexeme c (cs.take (lexeme c cs).2 ++ '\n' :: ds) = lexeme c cs := by
  unfold lexeme at h ⊢
  by_cases hquote : c = '"'
  · rw [if_pos hquote] at h
    rw [if_pos hquote, if_pos hquote]
    exact quoted_line h ds
  rw [if_neg hquote, if_neg hquote]
  by_cases hnumber : (c = '-' || c.isDigit) = true
  · rw [if_pos hnumber, if_pos hnumber, numeral_append rfl]
    exact numeral_take (Nat.le_refl _)
  rw [if_neg hnumber, if_neg hnumber]
  by_cases hname : isNameStart c = true
  · rw [if_pos hname, if_pos hname, word_append rfl]
    exact word_take c cs
  · rw [if_neg hname, if_neg hname]

/-! ## Tokens on lines -/

/-- The texts of the tokens, with a line feed between any two. -/
def onLines (ts : List Token) : String :=
  String.intercalate "\n" ((ts.filter fun t => t.kind ≠ .endOfInput).map Token.text)

namespace Cursor

/-- Behind blanks, the token that starts at the next character is read. -/
theorem tokens_of_lexeme {c : Cursor} {gap : List Char} (hgap : ∀ b ∈ gap, isBlank b = true)
    {ch : Char} {cs : List Char} (hblank : isBlank ch = false) (hhash : ch ≠ '#')
    (hc : c.rest = gap ++ ch :: cs) :
    ∃ c' : Cursor, c'.rest = cs.drop (lexeme ch cs).2 ∧
      c.tokens = ⟨(lexeme ch cs).1, ⟨c.offset + byteLength gap,
        c.offset + byteLength gap + byteLength (ch :: cs.take (lexeme ch cs).2)⟩,
        String.ofList (ch :: cs.take (lexeme ch cs).2)⟩ :: c'.tokens := by
  have hblanks : Gap false gap := by
    clear hc
    induction gap with
    | nil => exact .none
    | cons b gap ih =>
      rw [List.forall_mem_cons] at hgap
      exact .blank hgap.1 (ih hgap.2)
  exact ⟨_, rfl, tokens_of_some (next?_of_gap hblanks hblank hhash hc)⟩

/-- Behind blanks, the text of one token is that token alone. -/
theorem tokens_of_text {c : Cursor} {gap : List Char} (hgap : ∀ b ∈ gap, isBlank b = true)
    {ch : Char} {cs : List Char} (hblank : isBlank ch = false) (hhash : ch ≠ '#')
    (hc : c.rest = gap ++ ch :: cs.take (lexeme ch cs).2) :
    c.tokens = [⟨(lexeme ch cs).1, ⟨c.offset + byteLength gap,
      c.offset + byteLength gap + byteLength (ch :: cs.take (lexeme ch cs).2)⟩,
      String.ofList (ch :: cs.take (lexeme ch cs).2)⟩] := by
  obtain ⟨d, hd, hread⟩ := tokens_of_lexeme hgap hblank hhash hc
  have hempty : d.tokens = [] := by
    refine tokens_of_blank ?_
    rw [hd, lexeme_take, List.drop_take, Nat.sub_self]
    exact fun _ h => absurd h List.not_mem_nil
  rw [hread, hempty, lexeme_take, List.take_take, Nat.min_self]

/-- **Run.** Reading the texts of tokens, one below the other, gives the same words. -/
theorem words_lines (c : Cursor) : ∀ (gap : List Char) (d : Cursor), (∀ b ∈ gap, isBlank b = true) →
    d.rest = gap ++ ['\n'].intercalate (c.tokens.map fun t => t.text.toList) →
    d.tokens.map Token.word = c.tokens.map Token.word := by
  fun_induction Cursor.tokens c with
  | case1 c hnone =>
    intro gap d hgap hd
    have hempty : d.tokens = [] := tokens_of_blank (by rw [hd]; simpa using hgap)
    rw [hempty]
  | case2 c t c' hsome _ ih =>
    intro gap d hgap hd
    obtain ⟨_, ch, cs, _, _, hblank, hhash, rfl, hc'⟩ := exists_lexeme_of_next? hsome
    have hdrop : c'.rest = cs.drop (lexeme ch cs).2 := by rw [hc']
    rw [List.map_cons, String.toList_ofList] at hd
    cases htokens : c'.tokens with
    | nil =>
      rw [htokens, List.map_nil, List.intercalate_singleton] at hd
      rw [tokens_of_text hgap hblank hhash hd]
      rfl
    | cons u us =>
      have hlt : (lexeme ch cs).2 < cs.length := by
        by_contra hle
        rw [List.drop_of_length_le (Nat.le_of_not_lt hle)] at hdrop
        rw [tokens_of_blank (by rw [hdrop]; exact fun _ h => absurd h List.not_mem_nil)] at htokens
        cases htokens
      have hlength : (cs.take (lexeme ch cs).2).length = (lexeme ch cs).2 :=
        List.length_take_of_le (lexeme_le ch cs)
      have hjoin (text : List Char) :
          ['\n'].intercalate (text :: c'.tokens.map fun t => t.text.toList) =
            text ++ '\n' :: ['\n'].intercalate (c'.tokens.map fun t => t.text.toList) := by
        rw [htokens, List.map_cons, List.intercalate_cons_cons, List.append_assoc,
          List.singleton_append]
      rw [hjoin, List.cons_append] at hd
      obtain ⟨d', hd', hread⟩ := tokens_of_lexeme hgap hblank hhash hd
      rw [lexeme_line hlt, List.take_left' hlength] at hread
      rw [lexeme_line hlt, List.drop_left' hlength] at hd'
      rw [hread, List.map_cons, ih ['\n'] d' (List.forall_mem_singleton.2 rfl) hd', htokens]
      rfl

end Cursor

/-- The tokens of a source but its end mark. -/
theorem filter_tokenize (source : String) :
    (tokenize source).filter (fun t => t.kind ≠ .endOfInput) =
      (Cursor.start source.toList).tokens := by
  have hkinds := (tiles_start source).kind_ne
  rw [tokenize, List.filter_append, List.filter_eq_self.2]
  · exact List.append_nil _
  · exact fun t ht => decide_eq_true (hkinds t ht)

/-- **Reading tokens again** changes none of them, on lines or each by itself. -/
theorem words_onLines (source : String) :
    (tokenize (onLines (tokenize source))).map Token.word = (tokenize source).map Token.word ∧
      ∀ t ∈ tokenize source, t.kind ≠ .endOfInput →
        tokenize t.text =
          [⟨t.kind, ⟨0, t.text.utf8ByteSize⟩, t.text⟩, .endAt t.text.utf8ByteSize] := by
  constructor
  · have hrest : (onLines (tokenize source)).toList = [] ++ ['\n'].intercalate
        ((Cursor.start source.toList).tokens.map fun t => t.text.toList) := by
      rw [onLines, filter_tokenize, String.toList_intercalate, List.map_map]
      rfl
    have hwords := Cursor.words_lines (Cursor.start source.toList) []
      (Cursor.start (onLines (tokenize source)).toList) (fun _ h => absurd h List.not_mem_nil) hrest
    rw [tokenize, List.map_append, hwords, tokenize, List.map_append]
    rfl
  · intro t ht hkind
    have hmem : t ∈ (Cursor.start source.toList).tokens := by
      rw [← filter_tokenize]
      exact List.mem_filter.2 ⟨ht, decide_eq_true hkind⟩
    obtain ⟨_, ch, cs, _, _, hblank, hhash, hkind, htext⟩ :=
      Cursor.exists_lexeme_of_mem_tokens (Cursor.start source.toList) [] rfl t hmem
    have hlist : t.text.toList = ch :: cs.take (lexeme ch cs).2 := by
      rw [htext, String.toList_ofList]
    have hrest : (Cursor.start t.text.toList).rest = [] ++ ch :: cs.take (lexeme ch cs).2 := hlist
    rw [tokenize, Cursor.tokens_of_text (fun _ h => absurd h List.not_mem_nil) hblank hhash hrest,
      ← hkind, ← htext, ← hlist, byteLength_toList]
    simp [Cursor.start]

/-- Tokens that touch, a lone minus sign, an open string with a quote in it, and an open block
string at the end. -/
theorem words_onLines_broken :
    let source := "a:-\"b\\\" c\n1.5e\"\"\"\"\" d"
    let t : Token := ⟨.invalid, ⟨3, 9⟩, "\"b\\\" c"⟩
    (tokenize (onLines (tokenize source))).map Token.word = (tokenize source).map Token.word ∧
      t ∈ tokenize source ∧ t.kind ≠ .endOfInput ∧
      tokenize t.text =
        [⟨t.kind, ⟨0, t.text.utf8ByteSize⟩, t.text⟩, .endAt t.text.utf8ByteSize] := by
  intro source t
  have ht : t ∈ tokenize source := by decide +kernel
  have hkind : t.kind ≠ .endOfInput := by decide
  exact ⟨(words_onLines source).1, ht, hkind, (words_onLines source).2 t ht hkind⟩

end SchemaToFlow.Schema
