import SchemaToFlow.Proofs.Lexing

/-!
# Tokens tile their source

A text is a gap, a token, a gap, a token and so on, up to a last gap. `Gap` tells what a gap may
hold: blanks, and comments up to their line feeds. Only the last gap may end in a comment that no
line feed ends.

`Tiles offset cs ts` says this of the text `cs` that starts at an offset. Reading one token leaves a
text of which it holds again (`tiles_tokens`), and all that is said here about tokens follows by
induction on it:

* where tokens stand (`Tiles.exists_cut`) and in which order (`Tiles.pairwise`);
* that the spaces between them are gaps, and that gaps and tokens together are the text
  (`Tiles.gaps`);
* the same about a whole source, as `Tiling` (`tiling_tokenize`). `Proofs/OffsetRange.lean` carries it
  over to the tokens that are scanned from bytes.
-/

namespace SchemaToFlow.Schema

open Text

/-! ## Gaps -/

/-- What may stand between tokens, or after all of them if the flag is set. -/
inductive Gap : Bool → List Char → Prop
  | none {last : Bool} : Gap last []
  | blank {last : Bool} {c : Char} {cs : List Char} :
      isBlank c = true → Gap last cs → Gap last (c :: cs)
  | comment {last : Bool} {text cs : List Char} :
      '\n' ∉ text → Gap last cs → Gap last ('#' :: (text ++ '\n' :: cs))
  | openComment {text : List Char} : '\n' ∉ text → Gap true ('#' :: text)

/-- A comment that nothing ends takes all of the text. -/
theorem gapLength_of_notMem {cs : List Char} (h : '\n' ∉ cs) : gapLength true cs = cs.length := by
  induction cs with
  | nil => rfl
  | cons c cs ih =>
    rw [List.mem_cons, not_or] at h
    rw [gapLength, decide_eq_true (Ne.symm h.1), ih h.2, List.length_cons]

/-- After the line feed that ends a comment the gap goes on. -/
theorem gapLength_comment {text : List Char} (h : '\n' ∉ text) (cs : List Char) :
    gapLength true (text ++ '\n' :: cs) = text.length + 1 + gapLength false cs := by
  induction text with
  | nil =>
    rw [List.nil_append, gapLength, List.length_nil]
    exact (Nat.add_comm _ _).trans (by rw [Nat.zero_add]; rfl)
  | cons c text ih =>
    rw [List.mem_cons, not_or] at h
    rw [List.cons_append, gapLength, decide_eq_true (Ne.symm h.1), ih h.2, List.length_cons]
    omega

/-- A gap is skipped before anything, and a last gap before a line feed. -/
theorem gapLength_of_gap {last : Bool} {gap : List Char} (h : Gap last gap) {cs : List Char}
    (hlast : last = true → ∃ ds, cs = '\n' :: ds) :
    gapLength false (gap ++ cs) = gap.length + gapLength false cs := by
  induction h with
  | none => exact (Nat.zero_add _).symm
  | @blank last c gap hc hgap ih =>
    have hhash : c ≠ '#' := by
      rintro rfl
      exact absurd hc (by decide)
    rw [List.cons_append, gapLength, if_neg hhash, if_pos hc, ih hlast, List.length_cons]
    omega
  | @comment last text gap htext hgap ih =>
    rw [List.cons_append, gapLength, if_pos rfl, List.append_assoc, List.cons_append,
      gapLength_comment htext, ih hlast]
    simp only [List.length_cons, List.length_append]
    omega
  | @openComment text htext =>
    obtain ⟨ds, rfl⟩ := hlast rfl
    have hline : gapLength false ('\n' :: ds) = gapLength false ds + 1 := rfl
    rw [List.cons_append, gapLength, if_pos rfl, gapLength_comment htext, hline, List.length_cons]
    omega

/-- A text is a last gap, or a gap before a character that belongs to none. -/
theorem gap_cases (cs : List Char) :
    (Gap true cs ∧ gapLength false cs = cs.length) ∨
      ∃ gap c ds, cs = gap ++ c :: ds ∧ Gap false gap ∧ isBlank c = false ∧ c ≠ '#' := by
  induction hn : cs.length using Nat.strongRecOn generalizing cs with
  | _ n ih =>
    subst hn
    cases cs with
    | nil => exact .inl ⟨.none, rfl⟩
    | cons c cs =>
      by_cases hhash : c = '#'
      · subst hhash
        rw [gapLength, if_pos rfl, List.length_cons]
        by_cases hline : '\n' ∈ cs
        · -- The comment ends in its first line feed, and the gap goes on behind it.
          obtain ⟨text, ds, rfl, htext⟩ := List.eq_append_cons_of_mem hline
          have hlt : ds.length < ('#' :: (text ++ '\n' :: ds)).length := by
            simp only [List.length_cons, List.length_append]
            omega
          rcases ih ds.length hlt ds rfl with ⟨hgap, hlength⟩ | ⟨gap, d, es, rfl, hgap, hd⟩
          · refine .inl ⟨.comment htext hgap, ?_⟩
            rw [gapLength_comment htext, hlength, List.length_append, List.length_cons]
            omega
          · exact .inr ⟨'#' :: (text ++ '\n' :: gap), d, es, by simp, .comment htext hgap, hd⟩
        · exact .inl ⟨.openComment hline, congrArg (· + 1) (gapLength_of_notMem hline)⟩
      · by_cases hblank : isBlank c = true
        · rcases ih cs.length (Nat.lt_succ_self _) cs rfl with
            ⟨hgap, hlength⟩ | ⟨gap, d, es, rfl, hgap, hd⟩
          · refine .inl ⟨.blank hblank hgap, ?_⟩
            rw [gapLength, if_neg hhash, if_pos hblank, hlength, List.length_cons]
          · exact .inr ⟨c :: gap, d, es, rfl, .blank hblank hgap, hd⟩
        · exact .inr ⟨[], c, cs, rfl, .none, Bool.not_eq_true _ ▸ hblank, hhash⟩

/-! ## One token after the other -/

/-- The text that starts at an offset consists of gaps and of these tokens. -/
inductive Tiles : Nat → List Char → List Token → Prop
  | finish {offset : Nat} {gap : List Char} : Gap true gap → Tiles offset gap []
  | token {offset : Nat} {gap rest : List Char} {t : Token} {ts : List Token} :
      Gap false gap → t.kind ≠ .endOfInput → t.text.toList ≠ [] →
      t.span = ⟨offset + byteLength gap, offset + byteLength gap + byteLength t.text.toList⟩ →
      Tiles t.span.stop rest ts → Tiles offset (gap ++ (t.text.toList ++ rest)) (t :: ts)

/-- No characters make an end mark. -/
theorem kind_lexeme_ne (c : Char) (cs : List Char) : (lexeme c cs).1 ≠ .endOfInput := by
  unfold lexeme
  split
  · rcases kind_quoted cs with h | h | h <;> rw [h] <;> decide
  split
  · unfold numeral
    dsimp only
    split
    · exact TokenKind.noConfusion
    · split <;> exact TokenKind.noConfusion
  split
  · unfold word
    dsimp only
    split <;> exact TokenKind.noConfusion
  · split <;> exact TokenKind.noConfusion

namespace Cursor

/-- Behind a gap, the token that starts at the next character is read. -/
theorem next?_of_gap {c : Cursor} {gap : List Char} (hgap : Gap false gap) {ch : Char}
    {cs : List Char} (hblank : isBlank ch = false) (hhash : ch ≠ '#')
    (hc : c.rest = gap ++ ch :: cs) :
    c.next? = some
      (⟨(lexeme ch cs).1, ⟨c.offset + byteLength gap,
        c.offset + byteLength gap + byteLength (ch :: cs.take (lexeme ch cs).2)⟩,
        String.ofList (ch :: cs.take (lexeme ch cs).2)⟩,
      ⟨c.offset + byteLength gap + byteLength (ch :: cs.take (lexeme ch cs).2),
        cs.drop (lexeme ch cs).2⟩) := by
  have hlength : gapLength false c.rest = gap.length := by
    rw [hc, gapLength_of_gap hgap Bool.noConfusion, gapLength_of_not_isBlank hblank hhash,
      Nat.add_zero]
  have hskip : c.skipGap = ⟨c.offset + byteLength gap, ch :: cs⟩ := by
    rw [skipGap, skip, hlength, hc, List.take_left, List.drop_left]
  rw [next?, token?, hskip]
  rfl

/-- **Step.** What comes before the next token, or before the end of the text, is a gap. -/
theorem next?_cases (c : Cursor) :
    (c.next? = none ∧ Gap true c.rest) ∨
      ∃ gap ch cs, c.rest = gap ++ ch :: cs ∧ Gap false gap ∧ isBlank ch = false ∧ ch ≠ '#' := by
  rcases gap_cases c.rest with ⟨hgap, hlength⟩ | htoken
  · have hrest : c.skipGap.rest = [] := by
      rw [skipGap, skip, hlength]
      exact List.drop_length
    exact .inl ⟨by rw [next?, token?, hrest], hgap⟩
  · exact .inr htoken

theorem gap_of_next? {c : Cursor} (h : c.next? = none) : Gap true c.rest := by
  rcases next?_cases c with ⟨_, hgap⟩ | ⟨gap, ch, cs, hc, hgap, hblank, hhash⟩
  · exact hgap
  · rw [next?_of_gap hgap hblank hhash hc] at h
    cases h

/-- The token that was read, and the place behind it. -/
theorem exists_lexeme_of_next? {c c' : Cursor} {t : Token} (h : c.next? = some (t, c')) :
    ∃ gap ch cs, c.rest = gap ++ ch :: cs ∧ Gap false gap ∧ isBlank ch = false ∧ ch ≠ '#' ∧
      t = ⟨(lexeme ch cs).1, ⟨c.offset + byteLength gap,
        c.offset + byteLength gap + byteLength (ch :: cs.take (lexeme ch cs).2)⟩,
        String.ofList (ch :: cs.take (lexeme ch cs).2)⟩ ∧
      c' = ⟨c.offset + byteLength gap + byteLength (ch :: cs.take (lexeme ch cs).2),
        cs.drop (lexeme ch cs).2⟩ := by
  rcases next?_cases c with ⟨hnone, _⟩ | ⟨gap, ch, cs, hc, hgap, hblank, hhash⟩
  · rw [hnone] at h
    cases h
  · rw [next?_of_gap hgap hblank hhash hc] at h
    obtain ⟨rfl, rfl⟩ := Prod.mk.inj (Option.some.inj h)
    exact ⟨gap, ch, cs, hc, hgap, hblank, hhash, rfl, rfl⟩

/-- **Run.** From any place on, the text is tiled by the tokens that are read there. -/
theorem tiles_tokens (c : Cursor) : Tiles c.offset c.rest c.tokens := by
  fun_induction Cursor.tokens c with
  | case1 c hnone => exact .finish (gap_of_next? hnone)
  | case2 c t c' hsome _ ih =>
    obtain ⟨gap, ch, cs, hc, hgap, _, _, ht, hc'⟩ := exists_lexeme_of_next? hsome
    have htext : t.text.toList = ch :: cs.take (lexeme ch cs).2 := by rw [ht, String.toList_ofList]
    have hspan : t.span = ⟨c.offset + byteLength gap,
        c.offset + byteLength gap + byteLength t.text.toList⟩ := by rw [htext, ht]
    have hrest : c.rest = gap ++ (t.text.toList ++ c'.rest) := by
      rw [hc, htext, hc', List.cons_append, List.take_append_drop]
    have hstop : c'.offset = t.span.stop := by rw [hspan, htext, hc']
    rw [hrest]
    refine .token hgap ?_ ?_ hspan (hstop ▸ ih)
    · rw [ht]
      exact kind_lexeme_ne ch cs
    · rw [htext]
      exact List.cons_ne_nil _ _

end Cursor

/-! ## What follows about the tokens -/

/-- The token stands in the text where its span says. -/
def Token.CutFrom (t : Token) (source : List Char) : Prop :=
  ∃ before after, source = before ++ (t.text.toList ++ after) ∧
    t.span = ⟨byteLength before, byteLength before + byteLength t.text.toList⟩

/-- The spaces before the tokens, the first of which starts at the offset. -/
def gapsBefore : Nat → List Token → List Span
  | _, [] => []
  | offset, t :: ts => ⟨offset, t.span.start⟩ :: gapsBefore t.span.stop ts

theorem byteLength_pos {cs : List Char} (h : cs ≠ []) : 0 < byteLength cs := by
  obtain ⟨c, ds, rfl⟩ := List.exists_cons_of_ne_nil h
  rw [byteLength_cons]
  exact Nat.add_pos_left c.utf8Size_pos _

namespace Tiles

variable {offset : Nat} {cs : List Char} {ts : List Token}

theorem kind_ne (h : Tiles offset cs ts) : ∀ t ∈ ts, t.kind ≠ .endOfInput := by
  induction h with
  | finish => exact fun _ ht => absurd ht List.not_mem_nil
  | token _ hkind _ _ _ ih => exact List.forall_mem_cons.2 ⟨hkind, ih⟩

theorem start_lt_stop (h : Tiles offset cs ts) : ∀ t ∈ ts, t.span.start < t.span.stop := by
  induction h with
  | finish => exact fun _ ht => absurd ht List.not_mem_nil
  | token _ _ htext hspan _ ih =>
    refine List.forall_mem_cons.2 ⟨?_, ih⟩
    rw [hspan]
    exact Nat.lt_add_of_pos_right (byteLength_pos htext)

theorem le_start (h : Tiles offset cs ts) : ∀ t ∈ ts, offset ≤ t.span.start := by
  induction h with
  | finish => exact fun _ ht => absurd ht List.not_mem_nil
  | token _ _ _ hspan _ ih =>
    refine List.forall_mem_cons.2 ⟨by rw [hspan]; exact Nat.le_add_right _ _, fun u hu => ?_⟩
    calc _ ≤ _ := Nat.le_add_right _ _
      _ ≤ _ := Nat.le_add_right _ _
      _ = _ := congrArg Span.stop hspan.symm
      _ ≤ u.span.start := ih u hu

/-- No token starts before one that precedes it ends. -/
theorem pairwise (h : Tiles offset cs ts) :
    ts.Pairwise fun t u => t.span.stop ≤ u.span.start := by
  induction h with
  | finish => exact .nil
  | token _ _ _ _ hrest ih => exact .cons hrest.le_start ih

/-- Every token is cut from the text, whatever stands before the offset. -/
theorem exists_cut (h : Tiles offset cs ts) :
    ∀ before, byteLength before = offset → ∀ t ∈ ts, t.CutFrom (before ++ cs) := by
  induction h with
  | finish => exact fun _ _ _ ht => absurd ht List.not_mem_nil
  | @token offset gap rest t ts _ _ _ hspan _ ih =>
    intro before hbefore
    subst hbefore
    refine List.forall_mem_cons.2 ⟨⟨before ++ gap, rest, ?_, ?_⟩, ?_⟩
    · rw [List.append_assoc]
    · rw [hspan, byteLength_append]
    · have htail := ih (before ++ (gap ++ t.text.toList))
        (by rw [hspan, byteLength_append, byteLength_append, Nat.add_assoc])
      rwa [List.append_assoc, List.append_assoc] at htail

/-- The spaces before the tokens and before the end mark are gaps, and with the tokens they are the
text. -/
theorem gaps (h : Tiles offset cs ts) (before : List Char) {source : List Char}
    (hbefore : byteLength before = offset) (hsource : source = before ++ cs) {tokens : List Token}
    (htokens : tokens = ts ++ [.endAt (byteLength source)]) :
    (∀ p ∈ (gapsBefore offset tokens).zip tokens,
        Gap (decide (p.2.kind = .endOfInput)) (p.1.slice source)) ∧
      cs = ((gapsBefore offset tokens).zip tokens).flatMap fun p =>
        p.1.slice source ++ p.2.text.toList := by
  induction h generalizing before tokens with
  | @finish offset gap hgap =>
    subst hbefore htokens
    have hslice : (Span.mk (byteLength before) (byteLength source)).slice source = gap := by
      have hcut := Span.slice_append before gap []
      rwa [List.append_nil, ← byteLength_append, ← hsource] at hcut
    simp only [List.nil_append, gapsBefore, Token.endAt, Span.emptyAt, List.zip_cons_cons,
      List.zip_nil_left, List.forall_mem_cons, List.flatMap_cons, List.flatMap_nil, hslice]
    exact ⟨⟨hgap, fun _ hp => absurd hp List.not_mem_nil⟩, by simp⟩
  | @token offset gap rest t ts hgap hkind _ hspan _ ih =>
    subst hbefore htokens
    have hslice : (Span.mk (byteLength before) t.span.start).slice source = gap := by
      rw [hspan, hsource]
      exact Span.slice_append before gap _
    have hstop : byteLength (before ++ (gap ++ t.text.toList)) = t.span.stop := by
      rw [hspan, byteLength_append, byteLength_append, Nat.add_assoc]
    obtain ⟨hgaps, hwhole⟩ := ih _ hstop (by rw [hsource]; simp only [List.append_assoc]) rfl
    simp only [List.cons_append, gapsBefore, List.zip_cons_cons, List.forall_mem_cons,
      List.flatMap_cons, hslice, List.append_assoc]
    refine ⟨⟨?_, hgaps⟩, by rw [← hwhole]⟩
    rw [decide_eq_false hkind]
    exact hgap

end Tiles

/-! ## Offsets of a string -/

theorem utf8ByteSize_ofList (cs : List Char) : (String.ofList cs).utf8ByteSize = byteLength cs := by
  induction cs with
  | nil => rfl
  | cons c cs ih =>
    rw [String.ofList_cons, String.utf8ByteSize_append, String.utf8ByteSize_singleton, ih,
      byteLength_cons]

theorem byteLength_toList (source : String) : byteLength source.toList = source.utf8ByteSize := by
  rw [← utf8ByteSize_ofList, String.ofList_toList]

/-- The place between two parts of a text lies between two characters. -/
theorem isValid_byteLength {source : String} {before after : List Char}
    (h : source.toList = before ++ after) :
    String.Pos.Raw.IsValid source ⟨byteLength before⟩ := by
  have hvalid := (String.Pos.Raw.isValid_rawEndPos (s := String.ofList before)).append_right
    (String.ofList after)
  rw [← String.ofList_append, ← h, String.ofList_toList] at hvalid
  rwa [← utf8ByteSize_ofList]

/-- A token that is cut from a text starts and ends between characters, and has its text there. -/
theorem Token.CutFrom.valid {t : Token} {source : String} (h : t.CutFrom source.toList) :
    String.Pos.Raw.IsValid source ⟨t.span.start⟩ ∧ String.Pos.Raw.IsValid source ⟨t.span.stop⟩ ∧
      t.span.stop ≤ source.utf8ByteSize ∧ t.span.slice source.toList = t.text.toList := by
  obtain ⟨before, after, hsource, hspan⟩ := h
  rw [hspan]
  refine ⟨isValid_byteLength hsource, ?_, ?_, ?_⟩
  · rw [← byteLength_append]
    exact isValid_byteLength (hsource.trans (List.append_assoc _ _ _).symm)
  · rw [← byteLength_toList, hsource, byteLength_append, byteLength_append, ← Nat.add_assoc]
    exact Nat.le_add_right _ _
  · rw [hsource]
    exact Span.slice_append before _ after

/-! ## The tokens of a source -/

/-- **The tokens tile the source.** -/
structure Tiling (source : String) (tokens : List Token) : Prop where
  /-- The last token, and no other, is the end mark; it covers nothing and stands at the end. -/
  finish : ∃ ts, tokens = ts ++ [⟨.endOfInput, ⟨source.utf8ByteSize, source.utf8ByteSize⟩, ""⟩] ∧
    ∀ t ∈ ts, t.kind ≠ .endOfInput
  /-- Every other token covers something of the source. -/
  proper : ∀ t ∈ tokens, t.kind ≠ .endOfInput →
    t.span.start < t.span.stop ∧ t.span.stop ≤ source.utf8ByteSize
  /-- Tokens start and end between characters. -/
  boundaries : ∀ t ∈ tokens,
    String.Pos.Raw.IsValid source ⟨t.span.start⟩ ∧ String.Pos.Raw.IsValid source ⟨t.span.stop⟩
  /-- The text of a token is what its span covers. -/
  text : ∀ t ∈ tokens, t.span.slice source.toList = t.text.toList
  /-- A token starts where those before it have ended. -/
  ordered : tokens.Pairwise fun t u => t.span.stop ≤ u.span.start
  /-- What stands before a token is a gap, and before the end mark it is the last one. -/
  gaps : ∀ p ∈ (gapsBefore 0 tokens).zip tokens,
    Gap (decide (p.2.kind = .endOfInput)) (p.1.slice source.toList)
  /-- The source is what the gaps and the tokens are, in turn. -/
  whole : source.toList = ((gapsBefore 0 tokens).zip tokens).flatMap fun p =>
    p.1.slice source.toList ++ p.2.text.toList

/-- The end mark covers nothing at the end of the source. -/
theorem cutFrom_endAt (source : List Char) : (Token.endAt (byteLength source)).CutFrom source :=
  ⟨source, [], (List.append_nil _).symm, rfl⟩

theorem tiles_start (source : String) :
    Tiles 0 source.toList (Cursor.start source.toList).tokens :=
  Cursor.tiles_tokens (Cursor.start source.toList)

theorem cutFrom_of_mem_tokenize (source : String) :
    ∀ t ∈ tokenize source, t.CutFrom source.toList := by
  rw [tokenize, List.forall_mem_append, List.forall_mem_singleton]
  exact ⟨(tiles_start source).exists_cut [] rfl, cutFrom_endAt source.toList⟩

theorem pairwise_tokenize (source : String) :
    (tokenize source).Pairwise fun t u => t.span.stop ≤ u.span.start := by
  rw [tokenize, List.pairwise_append]
  refine ⟨(tiles_start source).pairwise, List.pairwise_singleton _ _, fun t ht u hu => ?_⟩
  rw [List.mem_singleton.1 hu]
  show t.span.stop ≤ byteLength source.toList
  rw [byteLength_toList]
  exact ((tiles_start source).exists_cut [] rfl t ht).valid.2.2.1

/-- **Tokens and gaps alternate**, and nothing of a source is left out or read twice. -/
theorem tiling_tokenize (source : String) : Tiling source (tokenize source) where
  finish := by
    refine ⟨_, ?_, (tiles_start source).kind_ne⟩
    rw [tokenize, byteLength_toList]
    rfl
  proper := by
    intro t ht hkind
    rw [tokenize, List.mem_append, List.mem_singleton] at ht
    rcases ht with ht | rfl
    · exact ⟨(tiles_start source).start_lt_stop t ht,
        ((tiles_start source).exists_cut [] rfl t ht).valid.2.2.1⟩
    · exact absurd rfl hkind
  boundaries t ht :=
    let h := (cutFrom_of_mem_tokenize source t ht).valid
    ⟨h.1, h.2.1⟩
  text t ht := (cutFrom_of_mem_tokenize source t ht).valid.2.2.2
  ordered := pairwise_tokenize source
  gaps := ((tiles_start source).gaps [] rfl rfl rfl).1
  whole := ((tiles_start source).gaps [] rfl rfl rfl).2

end SchemaToFlow.Schema
