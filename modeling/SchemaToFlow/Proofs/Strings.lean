import SchemaToFlow.Flow.Printer
import SchemaToFlow.Proofs.Relexing

/-!
# Strings, their lines and their escapes

Where an ordinary string ends hangs on the backslashes in it: a quote closes it, and a line feed
breaks it off, exactly if an even number of them stands right before.

* A line feed that belongs to a token follows an odd number of backslashes in a string, or it stands
  in a block string (`TokenKind.Form.feeds`). A string that its line does not close is an invalid
  token that ends with the line, if the line does not end in an odd number of backslashes, and else
  it goes on behind the line feed (`Unclosed.stringTail_of_even`, `Unclosed.length_lt_stringTail`).
  So a string may take a line feed along, but no other one (`line_feeds_of_tokenize`,
  `string_over_two_lines`).
* A written literal guards every quote of its value (`guarded_escape`), so its value is read from it
  again, and it is one string token exactly if the value has no line feed (`literal_reads_back`).
-/

namespace SchemaToFlow.Schema

open Text Computability

/-! ## Line feeds in tokens -/

namespace Lexis

/-- No text of the language has a line feed. -/
def OnLine (l : Language Char) : Prop := ∀ x ∈ l, '\n' ∉ x

section OnLine

variable {l m : Language Char}

theorem onLine_one {p : Char → Prop} (h : ¬ p '\n') : OnLine (one p) := by
  rintro _ ⟨c, hc, rfl⟩ hmem
  rw [List.mem_singleton] at hmem
  exact h (hmem ▸ hc)

theorem OnLine.add (hl : OnLine l) (hm : OnLine m) : OnLine (l + m) := by
  rintro x (hx | hx)
  · exact hl x hx
  · exact hm x hx

theorem OnLine.mul (hl : OnLine l) (hm : OnLine m) : OnLine (l * m) := by
  intro x hx
  obtain ⟨u, hu, v, hv, rfl⟩ := Language.mem_mul.1 hx
  simp [hl u hu, hm v hv]

theorem OnLine.kstar (hl : OnLine l) : OnLine l∗ := by
  intro x hx
  obtain ⟨parts, rfl, hparts⟩ := Language.mem_kstar.1 hx
  intro hmem
  obtain ⟨part, hpart, hfeed⟩ := List.mem_flatten.1 hmem
  exact hl part (hparts part hpart) hfeed

theorem OnLine.opt (hl : OnLine l) : OnLine (opt l) := by
  rintro x (rfl | hx)
  · exact List.not_mem_nil
  · exact hl x hx

end OnLine

theorem onLine_name : OnLine name :=
  have hletter : OnLine letter := onLine_one (by decide)
  hletter.mul (hletter.add (onLine_one (by decide))).kstar

theorem onLine_number : OnLine number := by
  have hdigit : OnLine digit := onLine_one (by decide)
  have hdigits : OnLine digits := hdigit.mul hdigit.kstar
  have hwhole : OnLine whole := (onLine_one (by decide)).opt.mul hdigits
  have hfraction : OnLine fraction := (onLine_one (by decide)).mul hdigits
  have hexponent : OnLine exponent :=
    ((onLine_one (by decide)).mul (onLine_one (by decide)).opt).mul hdigit.kstar
  exact (hwhole.mul hfraction.opt).mul hexponent.opt

end Lexis

/-- In a string, only a backslash takes a line feed along. -/
theorem StringUnits.odd_slashes {after body : List Char} (h : StringUnits after body) :
    ∀ u v, body = u ++ '\n' :: v → Odd (slashes u) := by
  induction h with
  | done => simp
  | @escaped c body _ ih =>
    intro u v huv
    rcases u with _ | ⟨d, _ | ⟨e, u⟩⟩
    · exact absurd (List.cons.inj huv).1 (by decide)
    · obtain ⟨rfl, _⟩ := List.cons.inj huv
      decide
    · simp only [List.cons_append, List.cons.injEq] at huv
      obtain ⟨rfl, rfl, hbody⟩ := huv
      exact (odd_slashes_append (guarded_escaped c).even u).2 (ih u v hbody)
  | @plain c body hquote hline hslash _ ih =>
    intro u v huv
    rcases u with _ | ⟨d, u⟩
    · exact absurd (List.cons.inj huv).1 hline
    · obtain ⟨rfl, hbody⟩ := List.cons.inj huv
      have hc : c ≠ '\\' := by
        intro hc
        have hnil := (List.append_eq_nil_iff.1 (hslash hc)).1
        simp [hnil] at hbody
      exact (odd_slashes_append (guarded_singleton hquote hc).even u).2 (ih u v hbody)

/-- The line feed at a place of a text, if it belongs to a token of this text: it stands in a block
string, or a backslash takes it along. -/
def FeedAllowed (x u : List Char) : Prop :=
  quotes <+: x ∨ (x.head? = some '"' ∧ Odd (slashes u))

theorem feedAllowed_of_units {after body tail : List Char} (h : StringUnits after body)
    (htail : '\n' ∉ tail) {u v : List Char} (huv : '"' :: (body ++ tail) = u ++ '\n' :: v) :
    FeedAllowed ('"' :: (body ++ tail)) u := by
  refine .inr ⟨rfl, ?_⟩
  rcases u with _ | ⟨d, u⟩
  · exact absurd (List.cons.inj huv).1 (by decide)
  · obtain ⟨rfl, hbody⟩ := List.cons.inj huv
    rw [← List.singleton_append, odd_slashes_append (by decide)]
    rcases List.append_eq_append_iff.1 hbody with ⟨w, rfl, rfl⟩ | ⟨w, rfl, hw⟩
    · simp at htail
    · rcases w with _ | ⟨e, w⟩
      · rw [List.nil_append] at hw
        simp [← hw] at htail
      · obtain ⟨rfl, _⟩ := List.cons.inj hw
        exact h.odd_slashes u w rfl

theorem Broken.feeds {x rest : List Char} (h : Broken x rest) :
    ∀ u v, x = u ++ '\n' :: v → FeedAllowed x u := by
  intro u v huv
  have hmem : '\n' ∈ x := by simp [huv]
  cases h with
  | minus => simp at hmem
  | @openString body after _ hbody _ =>
    rw [← List.append_nil body] at huv ⊢
    exact feedAllowed_of_units hbody List.not_mem_nil huv
  | openBlock => exact .inl (List.prefix_append _ _)
  | stray hblank =>
    obtain rfl := List.mem_singleton.1 hmem
    exact absurd hblank (by decide)

/-- **What a line feed in a token means**, one case for each kind. -/
theorem TokenKind.Form.feeds {kind : TokenKind} {x rest : List Char} (h : kind.Form x rest) :
    ∀ u v, x = u ++ '\n' :: v → FeedAllowed x u := by
  intro u v huv
  have hmem : '\n' ∈ x := by simp [huv]
  cases kind with
  | endOfInput => simp [h.1] at hmem
  | invalid => exact Broken.feeds h u v huv
  | name => exact absurd hmem (Lexis.onLine_name x h.1.mem)
  | keyword k => exact absurd hmem (Lexis.onLine_name x h.1.mem)
  | int => exact absurd hmem (Lexis.onLine_number x h.1.mem)
  | float => exact absurd hmem (Lexis.onLine_number x h.1.mem)
  | string =>
    obtain ⟨_, _, _, _, _, body, after, rfl, _, hbody⟩ := h
    exact feedAllowed_of_units hbody (by decide) huv
  | blockString => exact .inl h.2.1
  | punct p =>
    have hx : x = [p.char] := h
    rw [hx, List.mem_singleton] at hmem
    cases p <;> exact absurd hmem (by decide)

/-! ## Lines that do not close a string -/

theorem Guarded.of_append {u v : List Char} (h : Guarded (u ++ v)) (hu : Even (slashes u)) :
    Guarded v where
  odd x y hxy := by
    rw [← odd_slashes_append hu]
    exact h.odd (u ++ x) y (by rw [hxy, List.append_assoc])
  even := by
    rw [← Nat.not_odd_iff_even, ← odd_slashes_append hu, Nat.not_odd_iff_even]
    exact h.even

/-- A guarded line is made of units, whatever follows it. -/
theorem Guarded.stringUnits (after : List Char) {body : List Char} (h : Guarded body)
    (hline : '\n' ∉ body) : StringUnits after body := by
  induction hn : body.length using Nat.strongRecOn generalizing body with
  | _ n ih =>
    subst hn
    rcases body with _ | ⟨c, body⟩
    · exact .done
    by_cases hslash : c = '\\'
    · subst hslash
      rcases body with _ | ⟨d, body⟩
      · exact absurd h.even (by decide)
      · simp only [List.mem_cons, not_or] at hline
        have hbody : Guarded body := h.of_append (u := ['\\', d]) (guarded_escaped d).even
        exact .escaped (ih body.length (by simp only [List.length_cons]; omega) hbody hline.2.2 rfl)
    · have hquote : c ≠ '"' := by
        rintro rfl
        exact absurd (h.odd [] body rfl) (by decide)
      simp only [List.mem_cons, not_or] at hline
      have hbody : Guarded body := h.of_append (u := [c]) (guarded_singleton hquote hslash).even
      exact .plain hquote (Ne.symm hline.1) (fun hc => absurd hc hslash)
        (ih body.length (by simp) hbody hline.2 rfl)

/-- What follows the opening quote of a string on its line, if no quote there closes the string. -/
structure Unclosed (line : List Char) : Prop where
  onLine : '\n' ∉ line
  odd : ∀ u v, line = u ++ '"' :: v → Odd (slashes u)

namespace Unclosed

variable {line : List Char}

/-- No block string starts here: its second quote would close the string. -/
theorem quoted_eq (h : Unclosed line) (rest : List Char) :
    quoted (line ++ '\n' :: rest) = stringTail (line ++ '\n' :: rest) := by
  refine quoted_eq_stringTail fun ds hds => ?_
  obtain ⟨es, rfl⟩ := exists_quotes_of_append (by decide) hds
  exact absurd (h.odd [] _ rfl) (by decide)

/-- The string breaks off with its line. -/
theorem stringTail_of_even (h : Unclosed line) (heven : Even (slashes line)) (rest : List Char) :
    stringTail (line ++ '\n' :: rest) = (.invalid, line.length) := by
  have hunits := Guarded.stringUnits ('\n' :: rest) ⟨h.odd, heven⟩ h.onLine
  rw [hunits.stringTail_append fun hnil => absurd hnil (List.cons_ne_nil _ _)]
  simp [stringTail, longer]

/-- The last backslash of the line takes the line feed along. -/
theorem length_lt_stringTail (h : Unclosed line) (hodd : Odd (slashes line)) (rest : List Char) :
    line.length < (stringTail (line ++ '\n' :: rest)).2 := by
  rcases List.eq_nil_or_concat' line with rfl | ⟨body, c, rfl⟩
  · exact absurd hodd (by decide)
  rw [slashes_concat] at hodd
  by_cases hc : c = '\\'
  · subst hc
    rw [if_pos rfl, Nat.odd_add_one, Nat.not_odd_iff_even] at hodd
    have hbody : Guarded body :=
      ⟨fun u v huv => h.odd u (v ++ ['\\']) (by simp [huv]), hodd⟩
    have honLine : '\n' ∉ body := fun hmem => h.onLine (List.mem_append_left _ hmem)
    have hunits := hbody.stringUnits ('\\' :: '\n' :: rest) honLine
    rw [List.append_assoc, List.singleton_append,
      hunits.stringTail_append fun hnil => absurd hnil (List.cons_ne_nil _ _), stringTail]
    simp only [longer, List.length_append, List.length_singleton]
    omega
  · rw [if_neg hc] at hodd
    exact absurd hodd (by decide)

end Unclosed

/-! ## The strings of a source -/

/-- A token of a source is its end mark, or it is read where it starts. -/
theorem lexeme_of_mem_tokenize {source : String} {t : Token} (ht : t ∈ tokenize source) :
    (t = .endAt (byteLength source.toList)) ∨
      ∃ ch cs, dropBytes? t.span.start source.toList = some (ch :: cs) ∧
        t.kind = (lexeme ch cs).1 ∧ t.text.toList = ch :: cs.take (lexeme ch cs).2 ∧
        t.kind.Form t.text.toList (ch :: cs) := by
  rw [tokenize, List.mem_append, List.mem_singleton] at ht
  rcases ht with ht | ht
  · obtain ⟨gap, ch, cs, hcut, hstart, hblank, hhash, hkind, htext⟩ :=
      Cursor.exists_lexeme_of_mem_tokens (Cursor.start source.toList) [] rfl t ht
    have hsource : source.toList = gap ++ ch :: cs := hcut
    have hlist : t.text.toList = ch :: cs.take (lexeme ch cs).2 := by
      rw [htext, String.toList_ofList]
    refine .inr ⟨ch, cs, ?_, hkind, hlist, ?_⟩
    · rw [hstart, hsource, dropBytes?_append]
    · rw [hlist, hkind]
      exact form_lexeme hblank hhash cs
  · exact .inl ht

/-- **Line feeds in strings.** In a string token every line feed follows an odd number of
backslashes, and any other token with a line feed is a block string or an open one, or an open
string that obeys the same rule. A string that its line does not close is an invalid token that ends
with the line, unless an odd number of backslashes ends the line; then the token goes on. -/
theorem line_feeds_of_tokenize (source : String) : ∀ t ∈ tokenize source,
    (t.kind = .string → ∀ u v, t.text.toList = u ++ '\n' :: v → Odd (slashes u)) ∧
    (∀ u v, t.text.toList = u ++ '\n' :: v → FeedAllowed t.text.toList u) ∧
    ∀ before line after, source.toList = before ++ '"' :: (line ++ '\n' :: after) →
      t.span.start = byteLength before → Unclosed line →
      (Even (slashes line) → t.kind = .invalid ∧ t.text.toList = '"' :: line) ∧
      (Odd (slashes line) → '"' :: (line ++ ['\n']) <+: t.text.toList) := by
  intro t ht
  rcases lexeme_of_mem_tokenize ht with rfl | ⟨ch, cs, hdrop, hkind, htext, hform⟩
  · refine ⟨TokenKind.noConfusion, fun u v huv => absurd huv (by simp [Token.endAt]), ?_⟩
    intro before line after hsource hstart _
    have hlength : byteLength source.toList = byteLength before := hstart
    rw [hsource, byteLength_append, byteLength_cons] at hlength
    have hpos := Char.utf8Size_pos '"'
    omega
  refine ⟨fun hstring u v huv => ?_, hform.feeds, ?_⟩
  · rcases hform.feeds u v huv with hquotes | ⟨_, hodd⟩
    · rw [hstring] at hform
      obtain ⟨hnone, _, _, _, _, _, after, _, hrest, _⟩ := hform
      exact absurd (hquotes.trans (hrest ▸ List.prefix_append _ after)) hnone
    · exact hodd
  · intro before line after hsource hstart hline
    rw [hstart, hsource, dropBytes?_append, Option.some.injEq, List.cons.injEq] at hdrop
    obtain ⟨rfl, rfl⟩ := hdrop
    have hlexeme : lexeme '"' (line ++ '\n' :: after) = stringTail (line ++ '\n' :: after) := by
      rw [lexeme, if_pos rfl, hline.quoted_eq]
    rw [hkind, htext, hlexeme]
    constructor
    · intro heven
      rw [hline.stringTail_of_even heven, List.take_left]
      exact ⟨rfl, rfl⟩
    · intro hodd
      have hlt := hline.length_lt_stringTail hodd after
      rw [List.cons_prefix_cons]
      refine ⟨rfl, ?_⟩
      rw [List.prefix_take_iff]
      refine ⟨⟨after, by simp⟩, ?_⟩
      rw [List.length_append]
      exact hlt

/-- A string whose line ends in two backslashes, behind a quote that one guards. -/
theorem line_feeds_of_tokenize_slashes :
    let source := "a \"b\\\"c\\\\\nd\""
    let line := ['b', '\\', '"', 'c', '\\', '\\']
    let t : Token := ⟨.invalid, ⟨2, 9⟩, "\"b\\\"c\\\\"⟩
    t ∈ tokenize source ∧ Unclosed line ∧ Even (slashes line) ∧
      t.kind = .invalid ∧ t.text.toList = '"' :: line := by
  intro source line t
  have ht : t ∈ tokenize source := by decide +kernel
  have hguarded : Guarded line :=
    (guarded_singleton (c := 'b') (by decide) (by decide)).append <| (guarded_escaped '"').append <|
      (guarded_singleton (c := 'c') (by decide) (by decide)).append (guarded_escaped '\\')
  have hline : Unclosed line := ⟨by decide, hguarded.odd⟩
  have hsource : source.toList = ['a', ' '] ++ '"' :: (line ++ '\n' :: ['d', '"']) := by
    decide +kernel
  exact ⟨ht, hline, hguarded.even,
    ((line_feeds_of_tokenize source t ht).2.2 _ _ _ hsource rfl hline).1 hguarded.even⟩

/-- A backslash before the line feed lets a string go on to the next line. -/
theorem string_over_two_lines :
    ∃ t ∈ tokenize "\"a\\\nb\"", t.kind = .string ∧ '\n' ∈ t.text.toList :=
  ⟨⟨.string, ⟨0, 6⟩, "\"a\\\nb\""⟩, by decide +kernel, rfl, by decide⟩

end SchemaToFlow.Schema

namespace SchemaToFlow.Flow

open Schema Text

/-! ## Written literals -/

/-- Drops the backslash before each character that has one. -/
def unescape : List Char → List Char
  | [] => []
  | '\\' :: c :: cs => c :: unescape cs
  | c :: cs => c :: unescape cs

theorem unescape_escape (cs : List Char) : unescape (escape cs) = cs := by
  induction cs with
  | nil => rfl
  | cons c cs ih =>
    by_cases hc : c = '"' ∨ c = '\\'
    · simp [escape, hc, unescape, ih]
    · rw [escape, if_neg hc, unescape, ih]
      rintro d ds rfl
      simp at hc

theorem escape_append (cs ds : List Char) : escape (cs ++ ds) = escape cs ++ escape ds := by
  induction cs with
  | nil => rfl
  | cons c cs ih =>
    by_cases hc : c = '"' ∨ c = '\\' <;> simp [escape, hc, ih]

theorem feed_mem_escape {cs : List Char} : '\n' ∈ escape cs ↔ '\n' ∈ cs := by
  induction cs with
  | nil => rfl
  | cons c cs ih =>
    by_cases hc : c = '"' ∨ c = '\\' <;> simp [escape, hc, ih]

/-- Every quote of the value has a backslash before it, and every backslash has one, too. -/
theorem guarded_escape (cs : List Char) : Guarded (escape cs) := by
  induction cs with
  | nil => exact ⟨by simp [escape], by decide⟩
  | cons c cs ih =>
    by_cases hc : c = '"' ∨ c = '\\'
    · rw [escape, if_pos hc]
      exact (guarded_escaped c).append ih
    · rw [escape, if_neg hc]
      rw [not_or] at hc
      exact (guarded_singleton hc.1 hc.2).append ih

theorem toList_quote (value : String) :
    (quote value).toList = '"' :: (escape value.toList ++ ['"']) := by
  simp [quote]

/-- A literal does not open a block string: the second quote follows a backslash or ends it. -/
theorem quoted_escape (cs : List Char) :
    quoted (escape cs ++ ['"']) = stringTail (escape cs ++ ['"']) := by
  refine quoted_eq_stringTail fun ds hds => ?_
  rcases hescape : escape cs with _ | ⟨c, es⟩
  · simp [hescape] at hds
  · rw [hescape] at hds
    obtain ⟨rfl, _⟩ := List.cons.inj hds
    exact absurd ((guarded_escape cs).odd [] es hescape) (by decide)

/-- A literal whose value has no line feed is read to its closing quote. -/
theorem lexeme_escape {cs : List Char} (h : '\n' ∉ cs) :
    lexeme '"' (escape cs ++ ['"']) = (.string, (escape cs ++ ['"']).length) := by
  have hunits := (guarded_escape cs).stringUnits ['"'] (mt feed_mem_escape.1 h)
  rw [lexeme, if_pos rfl, quoted_escape,
    hunits.stringTail_append fun hnil => absurd hnil (List.cons_ne_nil _ _)]
  simp [stringTail, longer, Nat.add_comm]

/-- The first line feed of the value breaks its literal off. -/
theorem lexeme_escape_of_mem {cs : List Char} (h : '\n' ∈ cs) :
    (lexeme '"' (escape cs ++ ['"'])).1 = .invalid := by
  obtain ⟨before, after, rfl, hbefore⟩ := List.eq_append_cons_of_mem h
  have hguarded := guarded_escape before
  have hline : Unclosed (escape before) := ⟨mt feed_mem_escape.1 hbefore, hguarded.odd⟩
  have hcut : escape (before ++ '\n' :: after) ++ ['"'] =
      escape before ++ '\n' :: (escape after ++ ['"']) := by
    rw [escape_append, escape, if_neg (by decide), List.append_assoc, List.cons_append]
  rw [lexeme, if_pos rfl, hcut, hline.quoted_eq, hline.stringTail_of_even hguarded.even]

/-- **Literals read back.** What stands between the quotes of a literal is its value, backslashes
before quotes and backslashes apart; of its other quotes the last one, and no other, is without an
odd number of backslashes; and it is a single string token exactly if its value has no line feed. -/
theorem literal_reads_back (value : String) :
    let text := (TypeExpr.literal value).render
    (∃ body, text.toList = '"' :: (body ++ ['"']) ∧ unescape body = value.toList) ∧
    (∀ u v, text.toList = u ++ '"' :: v → u ≠ [] → (Odd (slashes u) ↔ v ≠ [])) ∧
    (tokenize text = [⟨.string, ⟨0, text.utf8ByteSize⟩, text⟩, .endAt text.utf8ByteSize] ↔
      '\n' ∉ value.toList) := by
  intro text
  have htext : text.toList = '"' :: (escape value.toList ++ ['"']) := by
    show (TypeExpr.literal value).render.toList = _
    rw [TypeExpr.render, toList_quote]
  clear_value text
  refine ⟨⟨_, htext, unescape_escape _⟩, fun u v huv hu => ?_, fun hread hfeed => ?_,
    fun hfeed => ?_⟩
  · exact (guarded_escape value.toList).odd_slashes_iff (htext ▸ huv) hu
  · have hblanks : ∀ b ∈ [], isBlank b = true := by simp
    obtain ⟨_, _, hfirst⟩ := Cursor.tokens_of_lexeme (c := Cursor.start text.toList) hblanks
      (by decide) (by decide) htext
    rw [tokenize, hfirst, lexeme_escape_of_mem hfeed] at hread
    exact absurd (congrArg (fun ts => ts.head?.map Token.kind) hread) (by simp)
  · have hlexeme := lexeme_escape hfeed
    have hrest : (Cursor.start text.toList).rest = [] ++ '"' :: (escape value.toList ++ ['"']).take
        (lexeme '"' (escape value.toList ++ ['"'])).2 := by
      rw [hlexeme, List.take_length]
      exact htext
    rw [tokenize, Cursor.tokens_of_text (by simp) (by decide) (by decide) hrest, hlexeme,
      List.take_length, ← htext, String.ofList_toList, byteLength_toList]
    simp [Cursor.start]

/-- A value that starts with a quote and ends in a backslash before a character of two bytes. -/
theorem literal_reads_back_accent :
    let value := "\"a\\é"
    let text := (TypeExpr.literal value).render
    '\n' ∉ value.toList ∧
      tokenize text = [⟨.string, ⟨0, text.utf8ByteSize⟩, text⟩, .endAt text.utf8ByteSize] ∧
      text.toList = ['"', '\\'] ++ '"' :: ['a', '\\', '\\', 'é', '"'] ∧
      (Odd (slashes ['"', '\\']) ↔ ['a', '\\', '\\', 'é', '"'] ≠ []) := by
  intro value text
  obtain ⟨_, hquotes, hread⟩ := literal_reads_back value
  have hfeed : '\n' ∉ value.toList := by decide
  have htext : text.toList = ['"', '\\'] ++ '"' :: ['a', '\\', '\\', 'é', '"'] := by
    show (TypeExpr.literal value).render.toList = _
    rw [TypeExpr.render, toList_quote]
    decide
  exact ⟨hfeed, hread.2 hfeed, htext, hquotes _ _ htext (by decide)⟩

end SchemaToFlow.Flow
