import SchemaToFlow.Proofs.Utf8

/-!
# Scanning bytes is reading characters

`Scanner` goes through the bytes of a text with an offset of 32 bits, `Cursor` through its
characters. `Before s bs` says that the scanner stands before the bytes `bs`, in a text whose offsets
all fit. Each function of the scanner is then the function of characters of the same purpose:

* `advanceWhile_eq`, `skipIgnored_eq`: names, digits and gaps;
* `scanStringTail_eq`, `scanBlock_eq`: strings. An escape passes two bytes, which may end inside a
  character. The bytes of that character which are left are none that a string looks at
  (`skip_above`), so the scanner stands between two characters again when it stops;
* `scanNumber_eq`, `scanName_eq`, `scanKind_eq`: a whole token.

`At s c` says that scanner and cursor stand at the same place. It is kept from one token to the next
(`next_of_some`), and so they read the same tokens (`tokens_eq`).

No offset beyond the end is ever looked at: a byte that is seen makes sure that the one behind it has
an offset. So nothing here asks for more than that the length of the text fits in 32 bits.
-/

namespace SchemaToFlow.Schema

open Text

namespace Scanner

/-! ## The bytes ahead -/

/-- The scanner stands before these bytes, in a text whose offsets all fit in 32 bits. -/
structure Before (s : Scanner) (bs : List UInt8) : Prop where
  fits : s.bytes.size < UInt32.size
  rest : s.rest = bs
  stop : s.pos.toNat + bs.length = s.bytes.size

/-- The place behind these characters. -/
def jump (s : Scanner) (cs : List Char) : Scanner := s.advanceBy (byteLength cs).toUInt32

variable {s : Scanner} {bs : List UInt8} {c : Char} {cs ds : List Char}

theorem advanceBy_advanceBy (s : Scanner) (m n : UInt32) :
    (s.advanceBy m).advanceBy n = s.advanceBy (m + n) := by
  unfold advanceBy
  rw [UInt32.add_assoc]

theorem jump_nil (s : Scanner) : s.jump [] = s := by
  unfold jump advanceBy
  rw [byteLength_nil]
  exact congrArg (Scanner.mk s.bytes) (UInt32.add_zero s.pos)

theorem jump_append (s : Scanner) (cs ds : List Char) :
    s.jump (cs ++ ds) = (s.jump cs).jump ds := by
  unfold jump
  rw [advanceBy_advanceBy, byteLength_append]
  exact congrArg s.advanceBy (UInt32.ofNat_add _ _)

theorem jump_cons (s : Scanner) (c : Char) (cs : List Char) :
    s.jump (c :: cs) = (s.jump [c]).jump cs :=
  jump_append s [c] cs

theorem advance_eq_jump (h : IsAscii c) (s : Scanner) : s.advance = s.jump [c] := by
  have hsize : c.utf8Size = 1 := by
    rcases encodeChar_cases c with ⟨_, hbytes⟩ | ⟨hnot, _⟩
    · rw [← String.length_utf8EncodeChar, hbytes]
      rfl
    · exact absurd h hnot
  unfold advance jump
  rw [byteLength_cons, hsize]
  rfl

theorem advance_advance (s : Scanner) : s.advance.advance = s.advanceBy 2 :=
  advanceBy_advanceBy s 1 1

theorem getElem?_bytes (bytes : ByteArray) (i : Nat) : bytes[i]? = bytes.data.toList[i]? := by
  by_cases h : i < bytes.size
  · rw [getElem?_pos bytes i h, ByteArray.getElem_eq_getElem_data]
    simp
  · rw [getElem?_neg bytes i h, List.getElem?_eq_none]
    exact Nat.le_of_not_lt h

namespace Before

theorem peek (h : s.Before bs) : s.peek = bs.head? := by
  unfold Scanner.peek
  rw [getElem?_bytes, ← List.head?_drop, ← h.rest]
  rfl

theorem advanceBy (h : s.Before bs) {n : UInt32} (hn : n.toNat ≤ bs.length) :
    (s.advanceBy n).Before (bs.drop n.toNat) := by
  have hfits := h.fits
  have hstop := h.stop
  have hpos : (s.advanceBy n).pos.toNat = s.pos.toNat + n.toNat := by
    unfold Scanner.advanceBy
    rw [UInt32.toNat_add, Nat.mod_eq_of_lt]
    exact Nat.lt_of_le_of_lt (by omega) hfits
  refine ⟨h.fits, ?_, ?_⟩
  · show s.bytes.data.toList.drop (s.advanceBy n).pos.toNat = _
    rw [hpos, ← List.drop_drop, ← h.rest]
    rfl
  · rw [hpos, List.length_drop]
    show s.pos.toNat + n.toNat + (bs.length - n.toNat) = s.bytes.size
    omega

/-- Where there is a byte, it can be passed. -/
theorem advance {b : UInt8} (h : s.Before (b :: bs)) : s.advance.Before bs :=
  h.advanceBy (n := 1) (Nat.succ_le_succ (Nat.zero_le _))

theorem byteLength_lt (h : s.Before (encode cs ++ bs)) : byteLength cs < UInt32.size := by
  have hstop := h.stop
  rw [List.length_append, length_encode] at hstop
  exact Nat.lt_of_le_of_lt (by omega) h.fits

theorem jump (h : s.Before (encode cs ++ bs)) : (s.jump cs).Before bs := by
  have hnat : (byteLength cs).toUInt32.toNat = byteLength cs :=
    Nat.mod_eq_of_lt h.byteLength_lt
  have hjump := h.advanceBy (n := (byteLength cs).toUInt32)
    (by rw [hnat, List.length_append, length_encode]; exact Nat.le_add_right _ _)
  have hdrop : (encode cs ++ bs).drop (byteLength cs) = bs := by
    rw [← length_encode, List.drop_left]
  rwa [hnat, hdrop] at hjump

theorem jump_take (h : s.Before (encode cs)) (n : Nat) :
    (s.jump (cs.take n)).Before (encode (cs.drop n)) := by
  apply jump
  rwa [← encode_append, List.take_append_drop]

theorem next_char (h : s.Before (encode (c :: cs))) : (s.jump [c]).Before (encode cs) :=
  h.jump_take 1

theorem next_ascii (h : s.Before (encode (c :: cs))) (hc : IsAscii c) :
    s.advance.Before (encode cs) :=
  advance_eq_jump hc s ▸ h.next_char

theorem pos_jump (h : s.Before (encode cs ++ bs)) :
    (s.jump cs).pos.toNat = s.pos.toNat + byteLength cs := by
  have hstop := h.stop
  have hstop' := h.jump.stop
  have hbytes : (s.jump cs).bytes = s.bytes := rfl
  rw [hbytes] at hstop'
  rw [List.length_append, length_encode] at hstop
  omega

/-- Between two characters of a text, an ASCII character is seen exactly if it is the next one. -/
theorem sees (h : s.Before (encode cs)) {a : Char} (ha : IsAscii a) :
    s.sees a = cs.head?.any fun c => decide (c = a) := by
  unfold Scanner.sees
  rw [h.peek, ← (sameClass_eq ha).any_head?]
  cases (encode cs).head? with
  | none => rfl
  | some b => simp

theorem sees_cons (h : s.Before (encode (c :: cs))) {a : Char} (ha : IsAscii a) :
    s.sees a = decide (c = a) := by
  rw [h.sees ha, List.head?_cons, Option.any_some]

theorem peek_any {bytes : UInt8 → Bool} {chars : Char → Bool} (h : s.Before (encode cs))
    (hclass : SameClass bytes chars) : s.peek.any bytes = cs.head?.any chars := by
  rw [h.peek, hclass.any_head?]

theorem peek_eq_none_iff (h : s.Before (encode cs)) : s.peek = none ↔ cs = [] := by
  rw [h.peek, List.head?_eq_none_iff]
  cases cs with
  | nil => simp
  | cons c cs => simp [encode_cons, String.utf8EncodeChar_ne_nil]

theorem peek_ne_none (h : s.Before (encode (c :: cs))) : s.peek ≠ none :=
  h.peek_eq_none_iff.not.2 (List.cons_ne_nil c cs)

/-- The text from one place to another. -/
theorem slice?_jump (h : s.Before (encode cs ++ bs)) :
    (s.jump cs).slice? s.pos = some (String.ofList cs) := by
  have hpos := h.pos_jump
  have hle : s.pos ≤ (s.jump cs).pos := by
    rw [UInt32.le_iff_toNat_le, hpos]
    exact Nat.le_add_right _ _
  have hbytes : s.bytes.extract s.pos.toNat (s.pos.toNat + byteLength cs) =
      (String.ofList cs).toUTF8 := by
    apply ByteArray.ext
    apply Array.toList_inj.1
    rw [data_toUTF8, String.toList_ofList, ByteArray.data_extract, Array.toList_extract,
      List.extract_eq_take_drop, Nat.add_sub_cancel_left]
    show s.rest.take (byteLength cs) = encode cs
    rw [h.rest, ← length_encode, List.take_left]
  unfold slice?
  rw [if_pos hle, hpos]
  exact fromUTF8?_eq_some_iff.2 hbytes

end Before

/-! ## Bytes of one kind -/

theorem advanceWhile_eq {bytes : UInt8 → Bool} {chars : Char → Bool}
    (hclass : SameClass bytes chars) (h : s.Before (encode cs)) :
    s.advanceWhile bytes = some (s.jump (cs.takeWhile chars)) := by
  induction cs generalizing s with
  | nil =>
    rw [advanceWhile, h.peek_any hclass, List.takeWhile_nil, jump_nil]
    rfl
  | cons c cs ih =>
    rw [advanceWhile, h.peek_any hclass, List.head?_cons, Option.any_some]
    by_cases hc : chars c = true
    · rw [if_pos hc, List.takeWhile_cons_of_pos hc, jump_cons, advance_eq_jump (hclass.isAscii hc)]
      exact ih h.next_char
    · rw [if_neg hc, List.takeWhile_cons_of_neg hc, jump_nil]

/-- Behind the first byte of a character, the other ones are passed. -/
theorem advanceWhile_continuation (hbs : ∀ b ∈ bs, 128 ≤ b.toNat ∧ b.toNat < 192)
    (h : s.Before (bs ++ encode cs)) :
    s.advanceWhile isContinuation = some (s.advanceBy bs.length.toUInt32) := by
  induction bs generalizing s with
  | nil =>
    have hnone : s.peek.any isContinuation = false := by
      rw [h.peek, List.nil_append]
      cases cs with
      | nil => rfl
      | cons c cs =>
        rw [encode_cons, Bool.eq_false_iff]
        rcases encodeChar_cases c with ⟨hc, hbytes⟩ | ⟨_, b, bs, hbytes, hb, _⟩
        · rw [hbytes]
          intro hcont
          have hle := ((isContinuation_iff _).1 hcont).1
          rw [toNat_toUInt8 hc] at hle
          exact absurd hc (Nat.not_lt.2 hle)
        · rw [hbytes]
          intro hcont
          exact absurd ((isContinuation_iff _).1 hcont).2 (Nat.not_lt.2 hb)
    rw [advanceWhile, hnone, if_neg Bool.false_ne_true]
    exact congrArg some (jump_nil s).symm
  | cons b bs ih =>
    rw [List.forall_mem_cons] at hbs
    have hsome : s.peek.any isContinuation = true := by
      rw [h.peek]
      exact (isContinuation_iff b).2 hbs.1
    rw [advanceWhile, hsome, if_pos rfl, ih hbs.2 h.advance, advance, advanceBy_advanceBy,
      List.length_cons, Nat.add_comm]
    exact congrArg (fun n => some (s.advanceBy n)) (UInt32.ofNat_add 1 _).symm

/-! ## Between tokens -/

/-- A comment is passed up to its line feed or, without one, up to the end of the text. -/
theorem skipIgnored_comment (h : s.Before (encode ('#' :: cs))) :
    (∃ text ds, cs = text ++ '\n' :: ds ∧ '\n' ∉ text ∧
      s.skipIgnored = (s.jump ('#' :: text)).skipIgnored) ∨
    ('\n' ∉ cs ∧ s.skipIgnored = (s.jump ('#' :: cs)).skipIgnored) := by
  have hblank : s.peek.any isBlankByte = false := by
    rw [h.peek_any sameClass_blank]
    rfl
  have hsees : s.sees '#' = true := h.sees_cons (by decide)
  rw [skipIgnored, hblank, if_neg Bool.false_ne_true, if_pos hsees]
  by_cases hline : '\n' ∈ cs
  · obtain ⟨text, ds, rfl, htext⟩ := List.eq_append_cons_of_mem hline
    refine .inl ⟨text, ds, rfl, htext, ?_⟩
    have hnot : '\n' ∉ '#' :: text := by simpa using htext
    have hfind := findIdx?_encode (a := '\n') (by decide) hnot ds
    rw [List.cons_append, ← h.rest] at hfind
    rw [hfind]
    rfl
  · refine .inr ⟨hline, ?_⟩
    have hnot : '\n' ∉ '#' :: cs := by simpa using hline
    have hfind := findIdx?_encode_eq_none (a := '\n') (by decide) hnot
    rw [← h.rest] at hfind
    rw [hfind]
    -- the number of bytes fits in 32 bits, so this is the end of the text
    have hpos : (s.bytes.size).toUInt32 = (s.jump ('#' :: cs)).pos := by
      rw [← h.stop, length_encode]
      show UInt32.ofNat _ = s.pos + UInt32.ofNat _
      rw [UInt32.ofNat_add, UInt32.ofNat_toNat]
    show skipIgnored ⟨s.bytes, s.bytes.size.toUInt32⟩ = _
    rw [hpos]
    rfl

/-- At a byte order mark the scanner sees its three bytes, and at nothing else. -/
theorem sees_mark_iff (h : s.Before (encode cs)) :
    (s.peek = some 0xEF ∧ s.peekAt 1 = some 0xBB ∧ s.peekAt 2 = some 0xBF) ↔
      ∃ ds, cs = '\uFEFF' :: ds := by
  constructor
  · rintro ⟨hfirst, hsecond, hthird⟩
    -- each byte that is seen makes sure that the next one can be looked at
    rw [h.peek] at hfirst
    obtain ⟨bs, hbs⟩ := List.head?_eq_some_iff.1 hfirst
    have hone : s.advance.Before bs := (hbs ▸ h : s.Before _).advance
    have hsecond' : s.advance.peek = some 0xBB := hsecond
    rw [hone.peek] at hsecond'
    obtain ⟨bs', rfl⟩ := List.head?_eq_some_iff.1 hsecond'
    have htwo : s.advance.advance.Before bs' := hone.advance
    have hthird' : s.advance.advance.peek = some 0xBF := by
      rw [advance_advance]
      exact hthird
    rw [htwo.peek] at hthird'
    obtain ⟨bs'', rfl⟩ := List.head?_eq_some_iff.1 hthird'
    obtain ⟨ds, hds, _⟩ := mark_of_bytes hbs
    exact ⟨ds, hds⟩
  · rintro ⟨ds, rfl⟩
    have hbytes : encode ('\uFEFF' :: ds) = 0xEF :: 0xBB :: 0xBF :: encode ds := rfl
    rw [hbytes] at h
    have hthird : s.peekAt 2 = s.advance.advance.peek := by
      rw [advance_advance]
      rfl
    refine ⟨h.peek, h.advance.peek, ?_⟩
    rw [hthird, h.advance.advance.peek]
    rfl

/-- A blank is passed with all its bytes. -/
theorem skipIgnored_blank (h : s.Before (encode (c :: cs))) (hblank : isBlank c = true) :
    s.skipIgnored = (s.jump [c]).skipIgnored := by
  have hhash : s.sees '#' = false := by
    rw [h.sees_cons (by decide)]
    refine decide_eq_false ?_
    rintro rfl
    exact absurd hblank (by decide)
  rw [skipIgnored, h.peek_any sameClass_blank, hhash, if_neg Bool.false_ne_true]
  by_cases hmark : c = '\uFEFF'
  · subst hmark
    rw [if_neg (by simp), if_pos ((sees_mark_iff h).2 ⟨cs, rfl⟩)]
    rfl
  · have hascii : IsAscii c := sameClass_blank.isAscii (by simp [hmark, hblank])
    rw [if_pos (by simp [hmark, hblank]), advance_eq_jump hascii]

/-- Before a character that belongs to no gap, nothing is skipped. -/
theorem skipIgnored_other (h : s.Before (encode cs))
    (hcs : ∀ c ∈ cs.head?, isBlank c = false ∧ c ≠ '#') : s.skipIgnored = some s := by
  have hblank : s.peek.any isBlankByte = false := by
    rw [h.peek_any sameClass_blank, Option.any_eq_false]
    intro c hc
    simp [(hcs c hc).1]
  have hhash : s.sees '#' = false := by
    rw [h.sees (by decide), Option.any_eq_false]
    intro c hc
    simp [(hcs c hc).2]
  have hmark : ¬ (s.peek = some 0xEF ∧ s.peekAt 1 = some 0xBB ∧ s.peekAt 2 = some 0xBF) := by
    rw [sees_mark_iff h]
    rintro ⟨ds, rfl⟩
    exact absurd (hcs _ rfl).1 (by decide)
  rw [skipIgnored, hblank, hhash, if_neg Bool.false_ne_true, if_neg Bool.false_ne_true,
    if_neg hmark]

theorem take_gapLength_comment {text : List Char} (h : '\n' ∉ text) (ds : List Char) :
    ('#' :: (text ++ '\n' :: ds)).take (gapLength false ('#' :: (text ++ '\n' :: ds))) =
      ('#' :: text) ++ ('\n' :: ds).take (gapLength false ('\n' :: ds)) := by
  have hline : gapLength false ('\n' :: ds) = gapLength false ds + 1 := rfl
  have hlength : gapLength false ('#' :: (text ++ '\n' :: ds)) =
      ('#' :: text).length + gapLength false ('\n' :: ds) := by
    rw [gapLength, if_pos rfl, gapLength_comment h, hline, List.length_cons]
    omega
  rw [hlength, ← List.cons_append, List.take_length_add_append]

/-- What is skipped before a token is the gap. -/
theorem skipIgnored_eq (h : s.Before (encode cs)) :
    s.skipIgnored = some (s.jump (cs.take (gapLength false cs))) := by
  -- a comment is passed in one step, so the induction is on the length of the text
  induction hn : cs.length using Nat.strongRecOn generalizing s cs with
  | _ n ih =>
    subst hn
    cases cs with
    | nil =>
      rw [skipIgnored_other h (by simp), List.take_nil, jump_nil]
    | cons c cs =>
      by_cases hhash : c = '#'
      · subst hhash
        rcases skipIgnored_comment h with ⟨text, ds, rfl, htext, hskip⟩ | ⟨hline, hskip⟩
        · have hnext : (s.jump ('#' :: text)).Before (encode ('\n' :: ds)) := by
            apply Before.jump
            rwa [← encode_append]
          have hlt : ('\n' :: ds).length < ('#' :: (text ++ '\n' :: ds)).length := by
            simp only [List.length_cons, List.length_append]
            omega
          rw [hskip, ih _ hlt hnext rfl, take_gapLength_comment htext, jump_append]
        · have hnext : (s.jump ('#' :: cs)).Before (encode []) := by
            apply Before.jump
            rwa [encode_nil, List.append_nil]
          have hlength : gapLength false ('#' :: cs) = ('#' :: cs).length := by
            rw [gapLength, if_pos rfl, gapLength_of_notMem hline, List.length_cons]
          rw [hskip, skipIgnored_other hnext (by simp), hlength, List.take_length]
      · by_cases hblank : isBlank c = true
        · rw [skipIgnored_blank h hblank, ih _ (Nat.lt_succ_self _) h.next_char rfl, gapLength,
            if_neg hhash, if_pos hblank, List.take_succ_cons, ← jump_append, List.singleton_append]
        · have hother : ∀ d ∈ (c :: cs).head?, isBlank d = false ∧ d ≠ '#' := by
            simpa [hblank] using hhash
          rw [skipIgnored_other h hother, gapLength, if_neg hhash, if_neg hblank, List.take_zero,
            jump_nil]

/-! ## Characters of more bytes -/

theorem jump_singleton {b : UInt8} (hbytes : String.utf8EncodeChar c = b :: bs) (s : Scanner) :
    s.jump [c] = s.advance.advanceBy bs.length.toUInt32 := by
  unfold jump advance
  rw [advanceBy_advanceBy, byteLength_cons, byteLength_nil, Nat.add_zero,
    ← String.length_utf8EncodeChar, hbytes, List.length_cons, Nat.add_comm]
  exact congrArg s.advanceBy (UInt32.ofNat_add _ _)

theorem sees_above {b : UInt8} (h : s.Before (b :: bs)) (hb : 128 ≤ b.toNat) {a : Char}
    (ha : IsAscii a) : s.sees a = false := by
  unfold sees
  rw [h.peek, List.head?_cons, decide_eq_false_iff_not, Option.some.injEq]
  rintro rfl
  rw [toNat_toUInt8 ha] at hb
  exact absurd ha (Nat.not_lt.2 hb)

section Above

variable {α : Type} {f : Scanner → α}
  (hf : ∀ {s : Scanner} {b : UInt8} {bs : List UInt8},
    s.Before (b :: bs) → 128 ≤ b.toNat → f s = f s.advance)

include hf

/-- A loop that passes every byte above the ASCII characters passes many of them. -/
theorem skip_above {bs' : List UInt8} (hbs : ∀ b ∈ bs, 128 ≤ b.toNat)
    (h : s.Before (bs ++ bs')) : f s = f (s.advanceBy bs.length.toUInt32) := by
  induction bs generalizing s with
  | nil => exact congrArg f (jump_nil s).symm
  | cons b bs ih =>
    rw [List.forall_mem_cons] at hbs
    rw [hf h hbs.1, ih hbs.2 h.advance, advance, advanceBy_advanceBy, List.length_cons,
      Nat.add_comm]
    exact congrArg (fun n => f (s.advanceBy n)) (UInt32.ofNat_add _ _).symm

theorem skip_char (hc : ¬ IsAscii c) (h : s.Before (encode (c :: cs))) :
    f s = f (s.jump [c]) := by
  rcases encodeChar_cases c with ⟨hascii, _⟩ | ⟨_, b, bs, hbytes, hb, hbs⟩
  · exact absurd hascii hc
  · rw [encode_cons, hbytes] at h
    rw [jump_singleton hbytes, hf h (by omega)]
    exact skip_above hf (fun x hx => (hbs x hx).1) h.advance

end Above

/-! ## Strings -/

theorem scanStringTail_above {b : UInt8} (h : s.Before (b :: bs)) (hb : 128 ≤ b.toNat) :
    s.scanStringTail = s.advance.scanStringTail := by
  have hpeek : s.peek = some b := h.peek
  conv_lhs => rw [scanStringTail]
  simp [hpeek, sees_above h hb (by decide : IsAscii '\n'), sees_above h hb (by decide : IsAscii '"'),
    sees_above h hb (by decide : IsAscii '\\')]

/-- A character that neither ends the string nor escapes another one. -/
theorem scanStringTail_other (h : s.Before (encode (c :: cs))) (hline : c ≠ '\n')
    (hquote : c ≠ '"') (hslash : c = '\\' → cs = []) :
    s.scanStringTail = (s.jump [c]).scanStringTail := by
  by_cases hc : IsAscii c
  · have hsome : s.peek ≠ none := h.peek_ne_none
    have hescape : (s.sees '\\' && (s.peekAt 1).isSome) = false := by
      rw [h.sees_cons (by decide)]
      by_cases hsl : c = '\\'
      · obtain rfl := hslash hsl
        have hpeek : s.peekAt 1 = none := (h.next_ascii hc).peek
        rw [hpeek]
        simp
      · simp [hsl]
    conv_lhs => rw [scanStringTail]
    simp [hsome, h.sees (by decide : IsAscii '\n'), h.sees (by decide : IsAscii '"'), hline, hquote,
      hescape, advance_eq_jump hc]
  · exact skip_char scanStringTail_above hc h

/-- An escape takes the byte behind the backslash along; what is left of the character there is
passed next. -/
theorem scanStringTail_escape (h : s.Before (encode ('\\' :: c :: cs))) :
    s.scanStringTail = (s.jump ['\\', c]).scanStringTail := by
  have hslash : s.advance = s.jump ['\\'] := advance_eq_jump (by decide) s
  have hnext : s.advance.Before (encode (c :: cs)) := h.next_ascii (by decide)
  have hsome : (s.peekAt 1).isSome = true := Option.isSome_iff_ne_none.2 hnext.peek_ne_none
  have hpeek : s.peek ≠ none := h.peek_ne_none
  have hbytes : ∃ b bs, String.utf8EncodeChar c = b :: bs ∧ ∀ x ∈ bs, 128 ≤ x.toNat := by
    rcases encodeChar_cases c with ⟨_, hbytes⟩ | ⟨_, b, bs, hbytes, _, hbs⟩
    · exact ⟨_, [], hbytes, by simp⟩
    · exact ⟨b, bs, hbytes, fun x hx => (hbs x hx).1⟩
  obtain ⟨b, bs, hbytes, hbs⟩ := hbytes
  have hinside : (s.advanceBy 2).Before (bs ++ encode cs) := by
    rw [encode_cons, hbytes] at hnext
    exact advance_advance s ▸ hnext.advance
  have hjump : s.jump ['\\', c] = (s.advanceBy 2).advanceBy bs.length.toUInt32 := by
    rw [jump_cons, ← hslash, jump_singleton hbytes, advance_advance]
  conv_lhs => rw [scanStringTail]
  simp only [hpeek, h.sees (by decide : IsAscii '\n'), h.sees (by decide : IsAscii '"'),
    h.sees (by decide : IsAscii '\\'), hsome]
  rw [hjump]
  exact skip_above scanStringTail_above hbs hinside

theorem scanStringTail_eq (h : s.Before (encode cs)) :
    s.scanStringTail = some ((stringTail cs).1, s.jump (cs.take (stringTail cs).2)) := by
  fun_induction stringTail cs generalizing s with
  | case1 =>
    have hpeek : s.peek = none := h.peek
    rw [scanStringTail, hpeek, List.take_nil, jump_nil]
    rfl
  | case2 cs =>
    rw [scanStringTail, h.sees (by decide), List.take_zero, jump_nil]
    simp
  | case3 cs =>
    have hpeek : s.peek ≠ none := h.peek_ne_none
    rw [scanStringTail, h.sees (by decide), h.sees (by decide), advance_eq_jump (c := '"') (by decide)]
    simp [hpeek]
  | case4 c cs ih =>
    have hnext : (s.jump ['\\', c]).Before (encode cs) := h.jump_take 2
    rw [scanStringTail_escape h, ih hnext, longer, ← jump_append]
    rfl
  | case5 c cs hline hquote hslash ih =>
    have hlast : c = '\\' → cs = [] := by
      intro hc
      cases cs with
      | nil => rfl
      | cons d ds => exact (hslash d ds hc rfl).elim
    rw [scanStringTail_other h hline hquote hlast, ih h.next_char, longer, ← jump_append]
    rfl

/-! ## Block strings -/

theorem seesAt_two (s : Scanner) (a : Char) : s.seesAt 2 a = s.advance.advance.sees a := by
  rw [advance_advance]
  rfl

theorem seesAt_three (s : Scanner) (a : Char) :
    s.seesAt 3 a = s.advance.advance.advance.sees a := by
  rw [advance_advance, advance, advanceBy_advanceBy]
  rfl

theorem Before.sees_iff (h : s.Before (encode cs)) {a : Char} (ha : IsAscii a) :
    s.sees a = true ↔ ∃ ds, cs = a :: ds ∧ s.advance.Before (encode ds) := by
  rw [h.sees ha]
  cases cs with
  | nil => simp
  | cons c cs =>
    rw [List.head?_cons, Option.any_some, decide_eq_true_iff]
    constructor
    · rintro rfl
      exact ⟨cs, rfl, h.next_ascii ha⟩
    · rintro ⟨ds, hds, _⟩
      exact (List.cons.inj hds).1

theorem sees_quotes_iff (h : s.Before (encode cs)) :
    (s.sees '"' && s.seesAt 1 '"') = true ↔ ∃ ds, cs = '"' :: '"' :: ds := by
  have hquote : IsAscii '"' := by decide
  rw [Bool.and_eq_true, h.sees_iff hquote]
  constructor
  · rintro ⟨⟨ds, rfl, hone⟩, hsecond⟩
    obtain ⟨ds, rfl, _⟩ := (hone.sees_iff hquote).1 hsecond
    exact ⟨ds, rfl⟩
  · rintro ⟨ds, rfl⟩
    have hone := h.next_ascii hquote
    exact ⟨⟨_, rfl, hone⟩, (hone.sees_iff hquote).2 ⟨_, rfl, hone.next_ascii hquote⟩⟩

theorem sees_closing_iff (h : s.Before (encode cs)) :
    (s.sees '"' && s.seesAt 1 '"' && s.seesAt 2 '"') = true ↔
      ∃ ds, cs = '"' :: '"' :: '"' :: ds := by
  have hquote : IsAscii '"' := by decide
  rw [Bool.and_eq_true, sees_quotes_iff h, seesAt_two]
  constructor
  · rintro ⟨⟨ds, rfl⟩, hthird⟩
    have hone := h.next_ascii hquote
    have htwo := hone.next_ascii hquote
    obtain ⟨ds, rfl, _⟩ := (htwo.sees_iff hquote).1 hthird
    exact ⟨ds, rfl⟩
  · rintro ⟨ds, rfl⟩
    have hone := h.next_ascii hquote
    have htwo := hone.next_ascii hquote
    have hthree := htwo.next_ascii hquote
    exact ⟨⟨_, rfl⟩, (htwo.sees_iff hquote).2 ⟨_, rfl, hthree⟩⟩

theorem sees_escaped_iff (h : s.Before (encode cs)) :
    (s.sees '\\' && s.seesAt 1 '"' && s.seesAt 2 '"' && s.seesAt 3 '"') = true ↔
      ∃ ds, cs = '\\' :: '"' :: '"' :: '"' :: ds := by
  have hbehind : (s.seesAt 1 '"' && s.seesAt 2 '"' && s.seesAt 3 '"') =
      (s.advance.sees '"' && s.advance.seesAt 1 '"' && s.advance.seesAt 2 '"') := by
    rw [seesAt_two, seesAt_two, seesAt_three]
    rfl
  rw [Bool.and_assoc, Bool.and_assoc, Bool.and_eq_true, ← Bool.and_assoc, hbehind,
    h.sees_iff (by decide)]
  constructor
  · rintro ⟨⟨ds, rfl, hone⟩, hquotes⟩
    obtain ⟨ds, rfl⟩ := (sees_closing_iff hone).1 hquotes
    exact ⟨ds, rfl⟩
  · rintro ⟨ds, rfl⟩
    have hone := h.next_ascii (by decide)
    exact ⟨⟨_, rfl, hone⟩, (sees_closing_iff hone).2 ⟨ds, rfl⟩⟩

theorem scanBlock_above {b : UInt8} (h : s.Before (b :: bs)) (hb : 128 ≤ b.toNat) :
    s.scanBlock = s.advance.scanBlock := by
  have hpeek : s.peek = some b := h.peek
  conv_lhs => rw [scanBlock]
  simp [hpeek, sees_above h hb (by decide : IsAscii '"'), sees_above h hb (by decide : IsAscii '\\')]

/-- A character that neither starts the closing quotes nor escapes them. -/
theorem scanBlock_other (h : s.Before (encode (c :: cs)))
    (hclosing : ∀ ds, c :: cs ≠ '"' :: '"' :: '"' :: ds)
    (hescaped : ∀ ds, c :: cs ≠ '\\' :: '"' :: '"' :: '"' :: ds) :
    s.scanBlock = (s.jump [c]).scanBlock := by
  by_cases hc : IsAscii c
  · have hsome : s.peek ≠ none := h.peek_ne_none
    have hno := (sees_closing_iff h).not.2 (not_exists.2 hclosing)
    have hno' := (sees_escaped_iff h).not.2 (not_exists.2 hescaped)
    conv_lhs => rw [scanBlock, if_neg hsome, if_neg hno, if_neg hno', advance_eq_jump hc]
  · exact skip_char scanBlock_above hc h

theorem scanBlock_eq (h : s.Before (encode cs)) :
    s.scanBlock = some ((blockTail cs).1, s.jump (cs.take (blockTail cs).2)) := by
  fun_induction blockTail cs generalizing s with
  | case1 =>
    have hpeek : s.peek = none := h.peek
    rw [scanBlock, if_pos hpeek, List.take_nil, jump_nil]
  | case2 cs =>
    have hsome : s.peek ≠ none := h.peek_ne_none
    rw [scanBlock, if_neg hsome, if_pos ((sees_closing_iff h).2 ⟨cs, rfl⟩)]
    rfl
  | case3 cs ih =>
    have hsome : s.peek ≠ none := h.peek_ne_none
    have hno := (sees_closing_iff h).not.2 (by simp)
    have hjump : s.advanceBy 4 = s.jump ['\\', '"', '"', '"'] := rfl
    have hnext : (s.jump ['\\', '"', '"', '"']).Before (encode cs) := h.jump_take 4
    rw [scanBlock, if_neg hsome, if_neg hno, if_pos ((sees_escaped_iff h).2 ⟨cs, rfl⟩), hjump,
      ih hnext, longer, ← jump_append]
    rfl
  | case4 c cs hclosing hescaped ih =>
    have hno : ∀ ds, c :: cs ≠ '"' :: '"' :: '"' :: ds := fun ds hds =>
      hclosing ds (List.cons.inj hds).1 (List.cons.inj hds).2
    have hno' : ∀ ds, c :: cs ≠ '\\' :: '"' :: '"' :: '"' :: ds := fun ds hds =>
      hescaped ds (List.cons.inj hds).1 (List.cons.inj hds).2
    rw [scanBlock_other h hno hno', ih h.next_char, longer, ← jump_append]
    rfl

/-- A string, from its opening quote on. -/
theorem scanString_eq (h : s.Before (encode ('"' :: cs))) :
    s.scanString = some ((quoted cs).1, s.jump ('"' :: cs.take (quoted cs).2)) := by
  have hone := h.next_ascii (by decide)
  have hfirst : s.advance = s.jump ['"'] := advance_eq_jump (by decide) s
  rw [scanString]
  by_cases hblock : ∃ ds, cs = '"' :: '"' :: ds
  · obtain ⟨ds, rfl⟩ := hblock
    have htwo : s.advance.advanceBy 2 = s.advance.jump ['"', '"'] := rfl
    have hnext : (s.advance.jump ['"', '"']).Before (encode ds) := hone.jump_take 2
    rw [if_pos ((sees_quotes_iff hone).2 ⟨ds, rfl⟩), htwo, scanBlock_eq hnext, hfirst, quoted,
      longer, ← jump_append, ← jump_append]
    rfl
  · rw [if_neg ((sees_quotes_iff hone).not.2 hblock), scanStringTail_eq hone,
      quoted_eq_stringTail (by simpa using hblock), hfirst, ← jump_append]
    rfl

/-! ## Numbers -/

theorem scanDigits_eq (h : s.Before (encode cs)) :
    s.scanDigits = some (s.jump (cs.take (digitCount cs))) := by
  rw [scanDigits, advanceWhile_eq sameClass_digit h, Lexis.take_digitCount]

theorem peek_any_digit (h : s.Before (encode cs)) :
    s.peek.any isDigitByte = decide (digitCount cs ≠ 0) := by
  rw [h.peek_any sameClass_digit]
  cases cs with
  | nil => rfl
  | cons c cs => by_cases hc : c.isDigit = true <;> simp [digitCount, hc]

theorem sees_fraction (h : s.Before (encode cs)) :
    (s.sees '.' && (s.peekAt 1).any isDigitByte) = decide (fractionLength cs ≠ 0) := by
  rw [Bool.eq_iff_iff, Bool.and_eq_true, h.sees_iff (by decide), decide_eq_true_iff]
  constructor
  · rintro ⟨⟨ds, rfl, hone⟩, hdigit⟩
    have hcount : digitCount ds ≠ 0 := by
      have hpeek : s.advance.peek.any isDigitByte = true := hdigit
      rw [peek_any_digit hone] at hpeek
      exact of_decide_eq_true hpeek
    simp [fractionLength, hcount]
  · intro hne
    cases cs with
    | nil => exact absurd rfl hne
    | cons c ds =>
      by_cases hpoint : c = '.' ∧ digitCount ds ≠ 0
      · obtain ⟨rfl, hcount⟩ := hpoint
        have hone := h.next_ascii (by decide)
        have hpeek : s.advance.peek.any isDigitByte = true := by
          rw [peek_any_digit hone]
          exact decide_eq_true hcount
        exact ⟨⟨ds, rfl, hone⟩, hpeek⟩
      · rw [fractionLength, if_neg hpoint] at hne
        exact absurd rfl hne

theorem scan_fraction (h : s.Before (encode cs)) (hne : fractionLength cs ≠ 0) :
    s.advance.scanDigits = some (s.jump (cs.take (fractionLength cs))) := by
  cases cs with
  | nil => exact absurd rfl hne
  | cons c ds =>
    by_cases hpoint : c = '.' ∧ digitCount ds ≠ 0
    · have hascii : IsAscii c := by
        rw [hpoint.1]
        decide
      have hone := h.next_ascii hascii
      rw [scanDigits_eq hone, advance_eq_jump hascii s, fractionLength, if_pos hpoint, ← jump_append]
      rfl
    · rw [fractionLength, if_neg hpoint] at hne
      exact absurd rfl hne

theorem sees_exponent (h : s.Before (encode cs)) :
    (s.sees 'e' || s.sees 'E') = decide (exponentLength cs ≠ 0) := by
  rw [h.sees (by decide), h.sees (by decide)]
  cases cs with
  | nil => rfl
  | cons c cs =>
    rw [exponentLength]
    by_cases hmark : c = 'e' ∨ c = 'E'
    · rw [if_pos hmark]
      simp [hmark]
    · rw [if_neg hmark]
      simpa using hmark

theorem skip_sign (h : s.Before (encode cs)) :
    (if (s.sees '+' || s.sees '-') = true then s.advance else s) =
      s.jump (cs.take (signLength cs)) := by
  rw [h.sees (by decide), h.sees (by decide)]
  cases cs with
  | nil =>
    rw [List.take_nil, jump_nil]
    rfl
  | cons c cs =>
    rw [signLength]
    by_cases hsign : c = '+' ∨ c = '-'
    · have hascii : IsAscii c := by
        rcases hsign with rfl | rfl
        · decide
        · decide
      rw [if_pos hsign, if_pos (by simpa using hsign), advance_eq_jump hascii]
      rfl
    · rw [if_neg hsign, if_neg (by simpa using hsign), List.take_zero, jump_nil]

theorem scan_exponent (h : s.Before (encode cs)) (hne : exponentLength cs ≠ 0) :
    (if (s.advance.sees '+' || s.advance.sees '-') = true then s.advance.advance
      else s.advance).scanDigits = some (s.jump (cs.take (exponentLength cs))) := by
  cases cs with
  | nil => exact absurd rfl hne
  | cons c ds =>
    by_cases hmark : c = 'e' ∨ c = 'E'
    · have hascii : IsAscii c := by
        rcases hmark with rfl | rfl
        · decide
        · decide
      have hone := h.next_ascii hascii
      rw [skip_sign hone, scanDigits_eq (hone.jump_take _), advance_eq_jump hascii s,
        exponentLength, if_pos hmark, Nat.add_assoc, Nat.add_comm 1, List.take_succ_cons,
        ← jump_append, ← jump_append, List.take_add]
      rfl
    · rw [exponentLength, if_neg hmark] at hne
      exact absurd rfl hne

/-- The digits before the point, with the minus sign in front of them. -/
theorem scan_whole (h : s.Before (encode (c :: cs))) (hc : c = '-' ∨ c.isDigit = true) :
    (if s.sees '-' = true then s.advance else s).scanDigits =
      some (s.jump (c :: cs.take (digitCount cs))) := by
  simp only [h.sees_cons (by decide : IsAscii '-'), decide_eq_true_iff]
  by_cases hminus : c = '-'
  · subst hminus
    rw [if_pos rfl, scanDigits_eq (h.next_ascii (by decide)), advance_eq_jump (c := '-') (by decide),
      ← jump_append]
    rfl
  · have hdigit := hc.resolve_left hminus
    have hcount : digitCount (c :: cs) = digitCount cs + 1 := by simp [digitCount, hdigit]
    rw [if_neg hminus, scanDigits_eq h, hcount, List.take_succ_cons]

theorem peek_whole (h : s.Before (encode (c :: cs))) (hc : c = '-' ∨ c.isDigit = true) :
    (if s.sees '-' = true then s.advance else s).peek.any isDigitByte =
      !decide (c = '-' ∧ digitCount cs = 0) := by
  simp only [h.sees_cons (by decide : IsAscii '-'), decide_eq_true_iff]
  by_cases hminus : c = '-'
  · subst hminus
    rw [if_pos rfl, peek_any_digit (h.next_ascii (by decide))]
    simp
  · rw [if_neg hminus, peek_any_digit h]
    simp [digitCount, hminus, hc.resolve_left hminus]

theorem scanFraction_eq (h : s.Before (encode cs)) :
    s.scanFraction =
      some (decide (fractionLength cs ≠ 0), s.jump (cs.take (fractionLength cs))) := by
  rw [scanFraction, sees_fraction h]
  by_cases hne : fractionLength cs = 0
  · simp [hne, jump_nil]
  · rw [if_pos (decide_eq_true hne), scan_fraction h hne, decide_eq_true hne]
    rfl

theorem scanExponent_eq (h : s.Before (encode cs)) :
    s.scanExponent =
      some (decide (exponentLength cs ≠ 0), s.jump (cs.take (exponentLength cs))) := by
  rw [scanExponent, sees_exponent h]
  dsimp only
  by_cases hne : exponentLength cs = 0
  · simp [hne, jump_nil]
  · rw [if_pos (decide_eq_true hne), scan_exponent h hne, decide_eq_true hne]
    rfl

/-- A number, from its first character on. -/
theorem scanNumber_eq (h : s.Before (encode (c :: cs))) (hc : c = '-' ∨ c.isDigit = true) :
    s.scanNumber = some ((numeral c cs).1, s.jump (c :: cs.take (numeral c cs).2)) := by
  rw [scanNumber, numeral, peek_whole h hc, scan_whole h hc]
  by_cases hlone : c = '-' ∧ digitCount cs = 0
  · obtain ⟨rfl, hnone⟩ := hlone
    have hsees : s.sees '-' = true := h.sees_cons (by decide)
    simp [hnone, hsees, advance_eq_jump (by decide : IsAscii '-')]
  · have hwhole : (s.jump (c :: cs.take (digitCount cs))).Before (encode (cs.drop (digitCount cs))) :=
      h.jump_take (digitCount cs + 1)
    have hfraction := hwhole.jump_take (fractionLength (cs.drop (digitCount cs)))
    simp only [hlone, decide_false, Bool.not_false, if_true, if_false, Option.bind_eq_bind,
      Option.bind_some, scanFraction_eq hwhole, scanExponent_eq hfraction, List.drop_drop,
      Bool.or_eq_true, decide_eq_true_iff]
    rw [← jump_append, ← jump_append, List.cons_append, ← List.append_assoc, ← List.take_add,
      ← List.take_add]
    split_ifs with hfloat hint hint
    · exact absurd hint (by omega)
    · rfl
    · rw [hint.2, hint.1]
      rfl
    · exact absurd hint (by omega)

/-! ## Tokens -/

/-- A name or a keyword, from its first character on. -/
theorem scanName_eq (h : s.Before (encode (c :: cs))) (hc : isNameStart c = true) :
    s.scanName = some ((word c cs).1, s.jump (c :: cs.take (word c cs).2)) := by
  have hpart : isNamePart c = true := by
    rw [Lexis.isNamePart_iff]
    exact .inl ((Lexis.isNameStart_iff c).1 hc)
  have hparts : s.Before (encode (c :: cs.takeWhile isNamePart) ++
      encode (cs.dropWhile isNamePart)) := by
    rwa [← encode_append, List.cons_append, List.takeWhile_append_dropWhile]
  have hslice := hparts.slice?_jump
  have htake : cs.take (cs.takeWhile isNamePart).length = cs.takeWhile isNamePart :=
    (List.prefix_iff_eq_take.1 (List.takeWhile_prefix _)).symm
  rw [scanName, advanceWhile_eq sameClass_namePart h, List.takeWhile_cons_of_pos hpart]
  simp only [Option.bind_eq_bind, Option.bind_some, hslice, word]
  cases Keyword.ofSpelling? (String.ofList (c :: cs.takeWhile isNamePart)) with
  | none => simp [htake]
  | some k => simp [htake]

theorem Before.class_eq {bytes : UInt8 → Bool} {chars : Char → Bool}
    (h : s.Before (encode (c :: cs))) (hclass : SameClass bytes chars) {b : UInt8}
    (hb : s.peek = some b) : bytes b = chars c := by
  have hany := h.peek_any hclass
  rwa [hb, List.head?_cons, Option.any_some, Option.any_some] at hany

theorem ofByte?_eq (h : s.Before (encode (c :: cs))) {b : UInt8} (hb : s.peek = some b) :
    Punctuator.ofByte? b = Punctuator.ofChar? c := by
  rw [h.peek, encode_cons] at hb
  rcases encodeChar_cases c with ⟨hc, hbytes⟩ | ⟨hc, b', bs, hbytes, hge, _⟩
  · rw [hbytes] at hb
    obtain rfl := Option.some.inj hb
    exact ofByte?_toUInt8 c hc
  · rw [hbytes] at hb
    obtain rfl := Option.some.inj hb
    rw [ofChar?_other hc, ofByte?_above _ (by omega)]

theorem isAscii_of_ofChar? {mark : Punctuator} (h : Punctuator.ofChar? c = some mark) :
    IsAscii c := by
  by_contra hc
  rw [ofChar?_other hc] at h
  cases h

/-- A character that starts no token is passed with all its bytes. -/
theorem scan_invalid (h : s.Before (encode (c :: cs))) :
    s.advance.advanceWhile isContinuation = some (s.jump [c]) := by
  rw [encode_cons] at h
  rcases encodeChar_cases c with ⟨hc, hbytes⟩ | ⟨_, b, bs, hbytes, _, hbs⟩
  · rw [hbytes] at h
    have hnone : ∀ b ∈ ([] : List UInt8), 128 ≤ b.toNat ∧ b.toNat < 192 := List.forall_mem_nil _
    rw [advanceWhile_continuation hnone h.advance, jump_singleton hbytes]
  · rw [hbytes] at h
    rw [advanceWhile_continuation hbs h.advance, jump_singleton hbytes]

/-- The bytes of a token are those of its characters. -/
theorem scanKind_eq (h : s.Before (encode (c :: cs))) {b : UInt8} (hb : s.peek = some b) :
    s.scanKind b = some ((lexeme c cs).1, s.jump (c :: cs.take (lexeme c cs).2)) := by
  have hquote : b = '"'.toUInt8 ↔ c = '"' :=
    decide_eq_decide.1 (h.class_eq (sameClass_eq (by decide)) hb)
  have hminus : b = '-'.toUInt8 ↔ c = '-' :=
    decide_eq_decide.1 (h.class_eq (sameClass_eq (by decide)) hb)
  rw [scanKind, lexeme, h.class_eq sameClass_digit hb, h.class_eq sameClass_nameStart hb,
    ofByte?_eq h hb]
  simp only [hquote, hminus]
  split_ifs with hstring hnumber hname
  · subst hstring
    exact scanString_eq h
  · rw [Bool.or_eq_true, decide_eq_true_iff] at hnumber
    exact scanNumber_eq h hnumber
  · exact scanName_eq h hname
  · cases hmark : Punctuator.ofChar? c with
    | some mark => simp [advance_eq_jump (isAscii_of_ofChar? hmark)]
    | none => simp [scan_invalid h]

/-! ## One token after the other -/

/-- The scanner stands where the cursor stands. -/
structure At (s : Scanner) (c : Cursor) : Prop where
  before : s.Before (encode c.rest)
  offset : c.offset = s.pos.toNat

theorem At.skip {c : Cursor} (h : s.At c) (n : Nat) : (s.jump (c.rest.take n)).At (c.skip n) where
  before := h.before.jump_take n
  offset := by
    have hbefore := h.before
    rw [← List.take_append_drop n c.rest, encode_append] at hbefore
    rw [hbefore.pos_jump, ← h.offset]
    rfl

theorem token?_of_rest {c : Cursor} {ch : Char} {cs : List Char} (h : c.rest = ch :: cs) :
    c.token? = some
      (⟨(lexeme ch cs).1, ⟨c.offset, (c.skip ((lexeme ch cs).2 + 1)).offset⟩,
        String.ofList (ch :: cs.take (lexeme ch cs).2)⟩, c.skip ((lexeme ch cs).2 + 1)) := by
  rw [Cursor.token?, h]

/-- **Step.** Where the cursor reads a token, so does the scanner. -/
theorem next_of_some {c c' : Cursor} {t : Token} (h : s.At c) (hnext : c.next? = some (t, c')) :
    ∃ s', s.next = some (t, s') ∧ s'.At c' ∧ s'.bytes = s.bytes := by
  have hgap : (s.jump (c.rest.take (gapLength false c.rest))).At c.skipGap := h.skip _
  rw [Cursor.next?] at hnext
  cases hrest : c.skipGap.rest with
  | nil =>
    rw [Cursor.token?, hrest] at hnext
    cases hnext
  | cons ch cs =>
    rw [token?_of_rest hrest] at hnext
    obtain ⟨rfl, rfl⟩ := Prod.mk.inj (Option.some.inj hnext)
    have hafter := hgap.skip ((lexeme ch cs).2 + 1)
    have hbefore := hgap.before
    rw [hrest] at hafter hbefore
    rw [List.take_succ_cons] at hafter
    obtain ⟨b, hb⟩ := Option.ne_none_iff_exists'.1 hbefore.peek_ne_none
    have hparts : (s.jump (c.rest.take (gapLength false c.rest))).Before
        (encode (ch :: cs.take (lexeme ch cs).2) ++ encode (cs.drop (lexeme ch cs).2)) := by
      rwa [← encode_append, List.cons_append, List.take_append_drop]
    have hslice := hparts.slice?_jump
    refine ⟨_, ?_, hafter, rfl⟩
    rw [next, skipIgnored_eq h.before]
    simp only [Option.bind_eq_bind, Option.bind_some, hb, scanKind_eq hbefore hb, hslice,
      Option.getD_some, hgap.offset, hafter.offset]
    rfl

theorem next_of_none {c : Cursor} (h : s.At c) (hnext : c.next? = none) :
    ∃ s', s.next = some (.endAt s.bytes.size, s') := by
  have hgap : (s.jump (c.rest.take (gapLength false c.rest))).At c.skipGap := h.skip _
  rw [Cursor.next?, Cursor.token?] at hnext
  cases hrest : c.skipGap.rest with
  | cons ch cs =>
    rw [hrest] at hnext
    cases hnext
  | nil =>
    have hbefore := hgap.before
    rw [hrest] at hbefore
    have hpeek := hbefore.peek_eq_none_iff.2 rfl
    have hstop : (s.jump (c.rest.take (gapLength false c.rest))).pos.toNat = s.bytes.size :=
      hbefore.stop
    refine ⟨s.jump (c.rest.take (gapLength false c.rest)), ?_⟩
    rw [next, skipIgnored_eq h.before]
    simp only [Option.bind_eq_bind, Option.bind_some, hpeek, hstop]
    rfl

/-- **Run.** From the same place on, scanner and cursor read the same tokens. -/
theorem tokens_eq {c : Cursor} (h : s.At c) :
    s.tokens = some (c.tokens ++ [.endAt s.bytes.size]) := by
  fun_induction Cursor.tokens c generalizing s with
  | case1 c hnone =>
    obtain ⟨s', hnext⟩ := next_of_none h hnone
    rw [tokens, hnext]
    rfl
  | case2 c t c' hsome _ ih =>
    obtain ⟨s', hnext, hat, hbytes⟩ := next_of_some h hsome
    have hkind : t.kind ≠ .endOfInput := by
      obtain ⟨_, ch, cs, _, _, _, _, rfl, _⟩ := Cursor.exists_lexeme_of_next? hsome
      exact kind_lexeme_ne ch cs
    rw [tokens, hnext]
    simp only [Option.bind_eq_bind, Option.bind_some, if_neg hkind, ih hat, hbytes]
    rfl

theorem at_start {source : String} (h : source.utf8ByteSize < UInt32.size) :
    (start source).At (Cursor.start source.toList) where
  before := by
    have hdata : source.toUTF8.data.toList = encode source.toList := data_toUTF8 source
    have hlength : (encode source.toList).length = source.utf8ByteSize := by
      rw [length_encode, byteLength_toList]
    exact ⟨h, hdata, (Nat.zero_add _).trans hlength⟩
  offset := rfl

end Scanner

end SchemaToFlow.Schema
