import Mathlib.Data.Nat.Digits.Defs
import SchemaToFlow.Proofs.Relexing
import SchemaToFlow.Proofs.Steps

/-!
# Whole numbers are exact or rejected

An integer token may have any number of digits, zeros in front among them, while its value has 64
bits. `Numeral.Writes` tells what number a text writes, by the weights of its digits and without
regard to size.

* `exists_writes_of_int`: every integer token writes a number.
* `Writes.int64?_eq`: reading it in 64 bits gives that number, or nothing if it is too large.
* `integers_exact_or_rejected`: so a value that is an integer is the number written, or zero with
  one error, and either way one token is taken. Every number of 64 bits can be written.
-/

namespace SchemaToFlow.Schema

open Text

/-! ## Numbers in decimal -/

theorem Lexis.mem_digits_iff {ds : List Char} :
    ds ∈ Lexis.digits ↔ ds ≠ [] ∧ ∀ d ∈ ds, d.isDigit = true := by
  simp only [Lexis.isDigit_iff]
  constructor
  · intro h
    obtain ⟨c, cs, rfl, hc, hcs⟩ := Lexis.exists_cons_of_mem_digits h
    exact ⟨List.cons_ne_nil _ _, List.forall_mem_cons.2 ⟨hc, hcs⟩⟩
  · rintro ⟨hne, hds⟩
    obtain ⟨c, cs, rfl⟩ := List.exists_cons_of_ne_nil hne
    rw [List.forall_mem_cons] at hds
    exact Language.mem_mul.2 ⟨[c], ⟨c, hds.1, rfl⟩, cs, Lexis.mem_kstar_one_iff.2 hds.2, rfl⟩

namespace Numeral

/-- The number that decimal digits write: the last of them counts ones, the one before it tens. -/
def decimalValue (digits : List Char) : Nat :=
  Nat.ofDigits 10 (digits.reverse.map fun d => d.toNat - '0'.toNat)

/-- The text writes a whole number: digits, of which there is at least one, and before them a minus
sign if the number is to be negative. -/
inductive Writes : List Char → Int → Prop
  | plain {ds : List Char} : ds ∈ Lexis.digits → Writes ds (decimalValue ds)
  | minus {ds : List Char} : ds ∈ Lexis.digits → Writes ('-' :: ds) (-(decimalValue ds : Int))

theorem digitsValue_eq_decimalValue (ds : List Char) : digitsValue ds = decimalValue ds := by
  -- from the end, where the ones stand
  induction ds using List.reverseRecOn with
  | nil => rfl
  | append_singleton ds d ih =>
    rw [digitsValue, List.foldl_append, ← digitsValue, ih]
    simp [decimalValue, Nat.ofDigits_cons, Nat.add_comm]

theorem intValue_of_mem_digits {ds : List Char} (h : ds ∈ Lexis.digits) :
    intValue ds = decimalValue ds := by
  obtain ⟨hne, hdigits⟩ := Lexis.mem_digits_iff.1 h
  rw [← digitsValue_eq_decimalValue]
  unfold intValue
  split
  · -- a minus sign is no digit
    exact absurd (hdigits '-' List.mem_cons_self) (by decide)
  · rfl

namespace Writes

variable {x : List Char} {v w : Int}

theorem intValue_eq (h : Writes x v) : intValue x = v := by
  cases h with
  | plain hds => exact intValue_of_mem_digits hds
  | @minus ds _ => rw [intValue, digitsValue_eq_decimalValue]

/-- A text writes one number at most. -/
theorem unique (h : Writes x v) (h' : Writes x w) : w = v :=
  h'.intValue_eq.symm.trans h.intValue_eq

/-- Reading in 64 bits gives the number that is written, or nothing if that does not fit. -/
theorem int64?_eq {text : String} (h : Writes text.toList v) :
    int64? text =
      if -9223372036854775808 ≤ v ∧ v ≤ 9223372036854775807 then some v else none := by
  rw [Numeral.int64?_eq, h.intValue_eq]
  rfl

end Writes

theorem exists_writes_of_mem_whole {x : List Char} (h : x ∈ Lexis.whole) : ∃ v, Writes x v := by
  obtain ⟨sign, hsign, ds, hds, rfl⟩ := Language.mem_mul.1 h
  rcases hsign with rfl | ⟨_, rfl, rfl⟩
  · exact ⟨_, .plain hds⟩
  · exact ⟨_, .minus hds⟩

/-- The usual text of a number writes it. -/
theorem writes_toString (v : Int) : Writes (toString v).toList v := by
  obtain ⟨ds, hds, hne, ⟨htext, hv⟩ | ⟨htext, hv⟩⟩ := toList_int v
  · rw [htext, hv, digitsValue_eq_decimalValue]
    exact .plain (Lexis.mem_digits_iff.2 ⟨hne, hds⟩)
  · rw [htext, hv, digitsValue_eq_decimalValue]
    exact .minus (Lexis.mem_digits_iff.2 ⟨hne, hds⟩)

end Numeral

open Numeral

/-! ## Integer tokens -/

/-- The text of an integer token is a whole number, with or without a minus sign. -/
theorem mem_whole_of_int {source : String} {t : Token} (ht : t ∈ tokenize source)
    (hkind : t.kind = .int) : t.text.toList ∈ Lexis.whole := by
  rw [tokenize, List.mem_append, List.mem_singleton] at ht
  rcases ht with ht | rfl
  · obtain ⟨gap, c, cs, _, _, hblank, hhash, hlexeme, htext⟩ :=
      Cursor.exists_lexeme_of_mem_tokens (Cursor.start source.toList) [] rfl t ht
    have hform := form_lexeme hblank hhash cs
    rw [← hlexeme, hkind] at hform
    rw [htext, String.toList_ofList]
    exact hform.2
  · cases hkind

theorem exists_writes_of_int {source : String} {t : Token} (ht : t ∈ tokenize source)
    (hkind : t.kind = .int) : ∃ v, Writes t.text.toList v :=
  exists_writes_of_mem_whole (mem_whole_of_int ht hkind)

/-- The text of a number, read by itself, is one integer token. -/
theorem rest_start_toString (v : Int) :
    (State.start (toString v)).rest =
      [⟨.int, ⟨0, (toString v).utf8ByteSize⟩, toString v⟩] := by
  obtain ⟨c, cs, htext, hblank, hhash, hlexeme⟩ := solid_int v
  have htoken := hlexeme ' ' [] (by decide)
  have htake : (cs ++ [' ']).take (lexeme c (cs ++ [' '])).2 = cs := by
    rw [htoken, List.take_left]
  have hrest : (Cursor.start (toString v).toList).rest =
      [] ++ c :: (cs ++ [' ']).take (lexeme c (cs ++ [' '])).2 := by
    rw [htake]
    exact htext
  have hread := Cursor.tokens_of_text (fun _ h => absurd h List.not_mem_nil) hblank hhash hrest
  rw [htake, htoken] at hread
  have hlist : c :: cs = (toString v).toList := htext.symm
  rw [hlist, String.ofList_toList, byteLength_toList] at hread
  rw [State.start, hread]
  simp [Cursor.start, Word.int]

/-! ## Values that are integers -/

namespace Reader

variable {s : State}

theorem valueAt_of_int (h : s.current.kind = .int) (part : Reader Value) :
    valueAt part s = intLiteral s.current s := by
  have hpeek : peek s = (s.current, s) := rfl
  unfold valueAt
  rw [bind_apply, hpeek]
  dsimp only
  rw [h]

theorem value_of_int (h : s.current.kind = .int) : value s = intLiteral s.current s :=
  (recurs_value.eq s).trans (valueAt_of_int h value)

theorem valueUpTo_of_int (h : s.current.kind = .int) (n : Nat) :
    valueUpTo (n + 1) s = intLiteral s.current s := by
  rw [bounded_value.succ, valueAt_of_int h]

theorem intLiteral_of_some {t : Token} {v : Int} (h : int64? t.text = some v) :
    intLiteral t s =
      (.int v ⟨t.span.start, max s.current.span.stop t.span.start⟩, s.advance) := by
  unfold intLiteral
  rw [h]
  rfl

theorem intLiteral_of_none {t : Token} (h : int64? t.text = none) :
    intLiteral t s =
      (.int 0 ⟨t.span.start, max s.current.span.stop t.span.start⟩,
        { s.advance with
          report := s.report.add (.located .error Diagnostic.invalidSyntax "invalid integer"
            s.current.span ("`" ++ t.text ++ "` does not fit in 64 bits")) }) := by
  unfold intLiteral
  rw [h]
  rfl

end Reader

open Reader

/-- **Whole numbers are exact or rejected.** Let a value be read where the next token is an integer
of some source. The token writes exactly one number.

* If the number fits in 64 bits with a sign, it is the value. The token is taken, and nothing else
  happens.
* Otherwise the value is zero, the token is taken all the same, and one error is reported, at the
  token.

It does not matter how deep the value lies in others. Conversely, every number of 64 bits is written
by its text, which is read back as that number and as nothing else. -/
theorem integers_exact_or_rejected :
    (∀ (source : String) (s : State), s.current ∈ tokenize source → s.current.kind = .int →
      ∃ v, Writes s.current.text.toList v ∧ (∀ w, Writes s.current.text.toList w → w = v) ∧
        (∀ n, valueUpTo (n + 1) s = value s) ∧
        (-9223372036854775808 ≤ v ∧ v ≤ 9223372036854775807 →
          value s = (.int v s.current.span, s.advance)) ∧
        (¬ (-9223372036854775808 ≤ v ∧ v ≤ 9223372036854775807) →
          value s = (.int 0 s.current.span,
            { s.advance with
              report := s.report.add (.located .error Diagnostic.invalidSyntax "invalid integer"
                s.current.span ("`" ++ s.current.text ++ "` does not fit in 64 bits")) }))) ∧
    ∀ v : Int64, Writes (toString v).toList v.toInt ∧
      value (State.start (toString v)) =
        (.int v.toInt ⟨0, (toString v).utf8ByteSize⟩, (State.start (toString v)).advance) ∧
      (State.start (toString v)).advance.atEnd = true := by
  constructor
  · intro source s hs hkind
    obtain ⟨v, hv⟩ := exists_writes_of_int hs hkind
    have hspan : (⟨s.current.span.start, max s.current.span.stop s.current.span.start⟩ : Span) =
        s.current.span := by
      rw [Nat.max_eq_left (State.start_le_stop hs)]
    refine ⟨v, hv, fun w hw => hv.unique hw, fun n => ?_, fun hfits => ?_, fun hfits => ?_⟩
    · rw [valueUpTo_of_int hkind, value_of_int hkind]
    · rw [value_of_int hkind, intLiteral_of_some (hv.int64?_eq.trans (if_pos hfits)), hspan]
    · rw [value_of_int hkind, intLiteral_of_none (hv.int64?_eq.trans (if_neg hfits)), hspan]
  · intro v
    have hwrites : Writes (toString v).toList v.toInt := writes_toString v.toInt
    have hrest : (State.start (toString v)).rest =
        [⟨.int, ⟨0, (toString v).utf8ByteSize⟩, toString v⟩] := rest_start_toString v.toInt
    have hcurrent := State.current_of_rest hrest
    have hfits : int64? (State.start (toString v)).current.text = some v.toInt := by
      rw [hcurrent]
      exact hwrites.int64?_eq.trans (if_pos ⟨v.minValue_le_toInt, v.toInt_le⟩)
    refine ⟨hwrites, ?_, ?_⟩
    · rw [value_of_int (by rw [hcurrent]), intLiteral_of_some hfits, hcurrent]
      simp
    · rw [State.atEnd, State.advance, hrest]
      rfl

/-- The least number that fits, with zeros in front, and the least one above zero that does not. -/
theorem integers_exact_or_rejected_bounds :
    let source := "-0009223372036854775808 009223372036854775808"
    let s := State.start source
    (s.current ∈ tokenize source ∧ s.current.kind = .int ∧
      value s = (.int (-9223372036854775808) ⟨0, 23⟩, s.advance)) ∧
    s.advance.current ∈ tokenize source ∧ s.advance.current.kind = .int ∧
      (value s.advance).1 = .int 0 ⟨24, 45⟩ ∧
      (value s.advance).2.report.entries.map (fun d => (d.code, d.primary?)) =
        [("E0003", some ⟨24, 45⟩)] := by
  intro source s
  have hfirst : s.current = ⟨.int, ⟨0, 23⟩, "-0009223372036854775808"⟩ := by decide +kernel
  have hsecond : s.advance.current = ⟨.int, ⟨24, 45⟩, "009223372036854775808"⟩ := by
    decide +kernel
  have hmem : s.current ∈ tokenize source ∧ s.advance.current ∈ tokenize source := by
    rw [hfirst, hsecond]
    decide +kernel
  have hkind : s.current.kind = .int := by rw [hfirst]
  have hkind' : s.advance.current.kind = .int := by rw [hsecond]
  obtain ⟨v, hv, _, _, hfits, _⟩ := integers_exact_or_rejected.1 source s hmem.1 hkind
  obtain ⟨w, hw, _, _, _, hlarge⟩ := integers_exact_or_rejected.1 source s.advance hmem.2 hkind'
  rw [hfirst] at hv hfits
  rw [hsecond] at hw hlarge
  obtain rfl : -9223372036854775808 = v :=
    Eq.trans (by decide +kernel) hv.intValue_eq
  obtain rfl : 9223372036854775808 = w := Eq.trans (by decide +kernel) hw.intValue_eq
  have hread := hlarge (by decide)
  refine ⟨⟨hmem.1, hkind, hfits (by decide)⟩, hmem.2, hkind', ?_, ?_⟩
  · rw [hread]
  · rw [hread]
    rfl

end SchemaToFlow.Schema
