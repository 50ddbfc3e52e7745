import Mathlib.Algebra.Group.Nat.Even
import Mathlib.Algebra.Ring.Parity
import Mathlib.Data.List.DropRight
import SchemaToFlow.Proofs.Concatenation

/-!
# The form of tokens

What a token of each kind looks like, said without the functions that read it.

* Words and numbers are languages of texts (`Lexis.name`, `Lexis.number`), and such a token is the
  longest text of its language that the source goes on with (`Lexis.Longest`). Two longest texts
  make one of the product of their languages, if no text of the second language starts with a
  character that could still belong to the first (`Longest.mul`).
* What stands between quotes is made of units (`StringUnits`, `BlockUnits`), each of them a
  character or a backslash with what it takes along. In a string, a quote belongs to the text
  exactly if it follows an odd number of backslashes (`StringUnits.guarded`).
* `TokenKind.Form` says this of each kind, and what an invalid token is; every token has the form of
  its kind (`form_of_tokenize`).
-/

namespace SchemaToFlow.Schema

open Text Computability

/-! ## The languages of words and numbers -/

namespace Lexis

/-- Texts of one character with a property. -/
def one (p : Char → Prop) : Language Char := {x | ∃ c, p c ∧ x = [c]}

/-- Something or nothing. -/
def opt (l : Language Char) : Language Char := 1 + l

/-- A letter or an underscore. -/
def letter : Language Char := one fun c => ('A' ≤ c ∧ c ≤ 'Z') ∨ ('a' ≤ c ∧ c ≤ 'z') ∨ c = '_'

/-- A decimal digit. -/
def digit : Language Char := one fun c => '0' ≤ c ∧ c ≤ '9'

/-- A letter, and then letters and digits. -/
def name : Language Char := letter * (letter + digit)∗

/-- At least one digit. -/
def digits : Language Char := digit * digit∗

/-- Digits, with a minus sign or without. -/
def whole : Language Char := opt (one (· = '-')) * digits

/-- A point and digits. -/
def fraction : Language Char := one (· = '.') * digits

/-- The mark of an exponent, a sign or none, and digits or none. -/
def exponent : Language Char :=
  one (fun c => c = 'e' ∨ c = 'E') * opt (one fun c => c = '+' ∨ c = '-') * digit∗

/-- A number, with a fraction or without, with an exponent or without. -/
def number : Language Char := whole * opt fraction * opt exponent

/-- The text is the longest one of the language that `rest` starts with. -/
structure Longest (l : Language Char) (x rest : List Char) : Prop where
  mem : x ∈ l
  starts : x <+: rest
  longest : ∀ y ∈ l, y <+: rest → y.length ≤ x.length

section Languages

variable {l m : Language Char} {p q : Char → Prop} {x rest : List Char}

theorem one_add_one : one p + one q = one fun c => p c ∨ q c := by
  ext x
  constructor
  · rintro (⟨c, hc, rfl⟩ | ⟨c, hc, rfl⟩)
    · exact ⟨c, .inl hc, rfl⟩
    · exact ⟨c, .inr hc, rfl⟩
  · rintro ⟨c, hc | hc, rfl⟩
    · exact .inl ⟨c, hc, rfl⟩
    · exact .inr ⟨c, hc, rfl⟩

/-- Repeating a character with a property. -/
theorem mem_kstar_one_iff : x ∈ (one p)∗ ↔ ∀ c ∈ x, p c := by
  constructor
  · intro hx c hc
    obtain ⟨parts, rfl, hparts⟩ := Language.mem_kstar.1 hx
    obtain ⟨part, hpart, hcpart⟩ := List.mem_flatten.1 hc
    obtain ⟨d, hd, rfl⟩ := hparts part hpart
    rw [List.mem_singleton.1 hcpart]
    exact hd
  · intro h
    refine Language.mem_kstar.2 ⟨x.map fun c => [c], ?_, fun part hpart => ?_⟩
    · rw [← List.flatMap_def, List.flatMap_singleton']
    · obtain ⟨c, hc, rfl⟩ := List.mem_map.1 hpart
      exact ⟨c, h c hc, rfl⟩

/-- A text of digits starts with one. -/
theorem exists_cons_of_mem_digits (h : x ∈ digits) :
    ∃ c cs, x = c :: cs ∧ ('0' ≤ c ∧ c ≤ '9') ∧ ∀ d ∈ cs, '0' ≤ d ∧ d ≤ '9' := by
  obtain ⟨_, ⟨c, hc, rfl⟩, cs, hcs, rfl⟩ := Language.mem_mul.1 h
  exact ⟨c, cs, rfl, hc, mem_kstar_one_iff.1 hcs⟩

theorem exists_cons_of_mem_fraction (h : x ∈ fraction) : ∃ ds ∈ digits, x = '.' :: ds := by
  obtain ⟨_, ⟨c, rfl, rfl⟩, ds, hds, rfl⟩ := Language.mem_mul.1 h
  exact ⟨ds, hds, rfl⟩

theorem exists_cons_of_mem_exponent (h : x ∈ exponent) :
    ∃ c cs, x = c :: cs ∧ (c = 'e' ∨ c = 'E') := by
  obtain ⟨_, hmark, ds, _, rfl⟩ := Language.mem_mul.1 h
  obtain ⟨_, ⟨c, hc, rfl⟩, sign, _, rfl⟩ := Language.mem_mul.1 hmark
  exact ⟨c, sign ++ ds, rfl, hc⟩

theorem ne_nil_of_mem_whole (h : x ∈ whole) : x ≠ [] := by
  obtain ⟨sign, _, ds, hds, rfl⟩ := Language.mem_mul.1 h
  obtain ⟨c, cs, rfl, _⟩ := exists_cons_of_mem_digits hds
  simp

/-! ## Longest texts -/

theorem longest_one {c : Char} (hc : p c) (rest : List Char) : Longest (one p) [c] (c :: rest) where
  mem := ⟨c, hc, rfl⟩
  starts := ⟨rest, rfl⟩
  longest := by
    rintro _ ⟨d, _, rfl⟩ _
    exact Nat.le_refl _

/-- A run of characters goes on as far as their property holds. -/
theorem longest_kstar {b : Char → Bool} (hb : ∀ c, b c = true ↔ p c) (rest : List Char) :
    Longest (one p)∗ (rest.takeWhile b) rest where
  mem := mem_kstar_one_iff.2 fun c hc => (hb c).1 (List.mem_takeWhile_imp hc)
  starts := List.takeWhile_prefix b
  longest := by
    rintro y hy ⟨more, rfl⟩
    rw [List.takeWhile_append_of_pos fun c hc => (hb c).2 (mem_kstar_one_iff.1 hy c hc),
      List.length_append]
    exact Nat.le_add_right _ _

theorem Longest.opt (h : Longest l x rest) : Longest (opt l) x rest where
  mem := .inr h.mem
  starts := h.starts
  longest := by
    rintro y (rfl | hy) hstarts
    · exact Nat.zero_le _
    · exact h.longest y hy hstarts

theorem longest_opt_nil (h : ∀ y ∈ l, ¬ y <+: rest) : Longest (Lexis.opt l) [] rest where
  mem := .inl rfl
  starts := List.nil_prefix
  longest := by
    rintro y (rfl | hy) hstarts
    · exact Nat.le_refl _
    · exact absurd hstarts (h y hy)

/-- **One longest text after another.** A text of the first language that is not the longest could
only go on with a character that starts no text of the second. -/
theorem Longest.mul {x' : List Char} (h : Longest l x (x ++ rest)) (h' : Longest m x' rest)
    (hnext : ∀ u w, x = u ++ w → u ∈ l → ∀ c ∈ w.head?, q c)
    (hstart : ∀ v ∈ m, ∀ c ∈ v.head?, ¬ q c) : Longest (l * m) (x ++ x') (x ++ rest) where
  mem := Language.append_mem_mul h.mem h'.mem
  starts := (List.prefix_append_right_inj x).2 h'.starts
  longest := by
    intro y hy hstarts
    obtain ⟨u, hu, v, hv, rfl⟩ := Language.mem_mul.1 hy
    have hux : u <+: x ++ rest := (List.prefix_append u v).trans hstarts
    have hle : u.length ≤ x.length := h.longest u hu hux
    obtain ⟨w, rfl⟩ := List.prefix_of_prefix_length_le hux (List.prefix_append x rest) hle
    rw [List.append_assoc, List.prefix_append_right_inj] at hstarts
    rw [List.length_append, List.length_append]
    cases w with
    | nil =>
      have hlength := h'.longest v hv hstarts
      rw [List.append_nil]
      omega
    | cons c w =>
      cases v with
      | nil =>
        rw [List.length_nil]
        omega
      | cons d v =>
        obtain ⟨rfl, _⟩ := List.cons_prefix_cons.1 hstarts
        exact absurd (hnext u _ rfl hu d rfl) (hstart _ hv d rfl)

/-- What can still belong to a text is what follows its first character. -/
theorem next_of_tail (hl : [] ∉ l) (hq : ∀ c ∈ x.tail, q c) :
    ∀ u w, x = u ++ w → u ∈ l → ∀ c ∈ w.head?, q c := by
  rintro u w rfl hu c hc
  obtain ⟨d, u, rfl⟩ := List.exists_cons_of_ne_nil fun hnil => hl (hnil ▸ hu)
  exact hq c (List.mem_append_right _ (List.mem_of_mem_head? hc))

/-- A character, and the longest text after it. -/
theorem Longest.cons {c : Char} (hc : p c) (h : Longest m x rest) :
    Longest (one p * m) (c :: x) (c :: rest) := by
  refine Longest.mul (x := [c]) (q := fun _ => False) (longest_one hc rest) h ?_
    fun _ _ _ _ => not_false
  exact next_of_tail (by rintro ⟨_, _, h⟩; cases h) fun _ h => absurd h List.not_mem_nil

/-- The same about a text that is cut in two places. -/
theorem Longest.take_add {n k : Nat} (h : Longest l (rest.take n) rest)
    (h' : Longest m ((rest.drop n).take k) (rest.drop n))
    (hnext : ∀ u w, rest.take n = u ++ w → u ∈ l → ∀ c ∈ w.head?, q c)
    (hstart : ∀ v ∈ m, ∀ c ∈ v.head?, ¬ q c) : Longest (l * m) (rest.take (n + k)) rest := by
  have hcut := List.take_append_drop n rest
  have hfirst : Longest l (rest.take n) (rest.take n ++ rest.drop n) := by rwa [hcut]
  have hmul := hfirst.mul h' hnext hstart
  rwa [hcut, ← List.take_add] at hmul

end Languages

/-! ## Words -/

theorem isDigit_iff (c : Char) : c.isDigit = true ↔ '0' ≤ c ∧ c ≤ '9' := by
  have h : c.isDigit = true ↔ (decide ('0'.val ≤ c.val) && decide (c.val ≤ '9'.val)) = true :=
    Iff.rfl
  rw [h, Bool.and_eq_true, decide_eq_true_iff, decide_eq_true_iff]
  exact Iff.rfl

theorem isNameStart_iff (c : Char) :
    isNameStart c = true ↔ ('A' ≤ c ∧ c ≤ 'Z') ∨ ('a' ≤ c ∧ c ≤ 'z') ∨ c = '_' := by
  have h : isNameStart c = true ↔
      ((decide ('A'.val ≤ c.val ∧ c.val ≤ 'Z'.val) ||
        (decide ('a'.val ≤ c.val) && decide (c.val ≤ 'z'.val))) || decide (c = '_')) = true :=
    Iff.rfl
  rw [h, Bool.or_eq_true, Bool.or_eq_true, Bool.and_eq_true, decide_eq_true_iff, decide_eq_true_iff,
    decide_eq_true_iff, decide_eq_true_iff, or_assoc]
  exact Iff.rfl

theorem isNamePart_iff (c : Char) : isNamePart c = true ↔
    (('A' ≤ c ∧ c ≤ 'Z') ∨ ('a' ≤ c ∧ c ≤ 'z') ∨ c = '_') ∨ ('0' ≤ c ∧ c ≤ '9') := by
  have h : isNamePart c = ((c.isAlpha || c.isDigit) || decide (c = '_')) := rfl
  rw [← isNameStart_iff, ← isDigit_iff, h, isNameStart, Bool.or_right_comm, Bool.or_eq_true]

theorem longest_name {c : Char} (hc : isNameStart c = true) (cs : List Char) :
    Longest name (c :: cs.takeWhile isNamePart) (c :: cs) := by
  have hparts : Longest (letter + digit)∗ (cs.takeWhile isNamePart) cs := by
    rw [letter, digit, one_add_one]
    exact longest_kstar isNamePart_iff cs
  exact hparts.cons ((isNameStart_iff c).1 hc)

/-! ## Numbers -/

theorem digitCount_eq_zero_iff {cs : List Char} :
    digitCount cs = 0 ↔ ∀ c ∈ cs.head?, ¬ ('0' ≤ c ∧ c ≤ '9') := by
  cases cs with
  | nil => simp [digitCount]
  | cons c cs =>
    simp only [← isDigit_iff]
    by_cases hc : c.isDigit = true <;> simp [digitCount, hc]

theorem take_digitCount (cs : List Char) : cs.take (digitCount cs) = cs.takeWhile Char.isDigit :=
  (List.prefix_iff_eq_take.1 (List.takeWhile_prefix Char.isDigit)).symm

theorem longest_kstar_digit (cs : List Char) : Longest digit∗ (cs.take (digitCount cs)) cs := by
  rw [take_digitCount]
  exact longest_kstar isDigit_iff cs

theorem longest_digits {cs : List Char} (h : digitCount cs ≠ 0) :
    Longest digits (cs.take (digitCount cs)) cs := by
  cases cs with
  | nil => exact absurd rfl h
  | cons c cs =>
    have hc : c.isDigit = true := by
      by_contra hc
      exact h (by simp [digitCount, hc])
    rw [take_digitCount, List.takeWhile_cons_of_pos hc]
    exact (longest_kstar isDigit_iff cs).cons ((isDigit_iff c).1 hc)

theorem longest_fraction (cs : List Char) :
    Longest (opt fraction) (cs.take (fractionLength cs)) cs := by
  cases cs with
  | nil =>
    refine longest_opt_nil fun y hy hstarts => ?_
    obtain ⟨ds, _, rfl⟩ := exists_cons_of_mem_fraction hy
    exact absurd hstarts (by simp)
  | cons c cs =>
    rw [fractionLength]
    by_cases h : c = '.' ∧ digitCount cs ≠ 0
    · rw [if_pos h, List.take_succ_cons]
      exact ((longest_digits h.2).cons (p := (· = '.')) h.1).opt
    · rw [if_neg h]
      refine longest_opt_nil fun y hy hstarts => h ?_
      obtain ⟨ds, hds, rfl⟩ := exists_cons_of_mem_fraction hy
      obtain ⟨d, ds, rfl, hd, _⟩ := exists_cons_of_mem_digits hds
      obtain ⟨rfl, more, rfl⟩ := List.cons_prefix_cons.1 hstarts
      exact ⟨rfl, fun hzero => digitCount_eq_zero_iff.1 hzero d rfl hd⟩

theorem longest_sign (cs : List Char) :
    Longest (opt (one fun c => c = '+' ∨ c = '-')) (cs.take (signLength cs)) cs := by
  cases cs with
  | nil =>
    refine longest_opt_nil ?_
    rintro _ ⟨c, _, rfl⟩ hstarts
    exact absurd hstarts (by simp)
  | cons c cs =>
    rw [signLength]
    by_cases h : c = '+' ∨ c = '-'
    · rw [if_pos h]
      exact (longest_one h cs).opt
    · rw [if_neg h]
      refine longest_opt_nil ?_
      rintro _ ⟨d, hd, rfl⟩ hstarts
      obtain ⟨rfl, _⟩ := List.cons_prefix_cons.1 hstarts
      exact h hd

theorem longest_exponent (cs : List Char) :
    Longest (opt exponent) (cs.take (exponentLength cs)) cs := by
  cases cs with
  | nil =>
    refine longest_opt_nil fun y hy hstarts => ?_
    obtain ⟨c, ds, rfl, _⟩ := exists_cons_of_mem_exponent hy
    exact absurd hstarts (by simp)
  | cons c cs =>
    rw [exponentLength]
    by_cases h : c = 'e' ∨ c = 'E'
    · have hsign : ∀ d ∈ cs.take (signLength cs), d = '+' ∨ d = '-' := by
        rcases (longest_sign cs).mem with hnil | ⟨d, hd, hone⟩
        · rw [hnil]
          exact fun _ h => absurd h List.not_mem_nil
        · rw [hone]
          exact List.forall_mem_singleton.2 hd
      have hmark : Longest (one (fun c => c = 'e' ∨ c = 'E') * opt (one fun c => c = '+' ∨ c = '-'))
          ((c :: cs).take (signLength cs + 1)) (c :: cs) := (longest_sign cs).cons h
      rw [if_pos h, Nat.add_comm 1]
      refine (hmark.take_add (longest_kstar_digit _) (next_of_tail ?_ hsign) ?_).opt
      · intro hnil
        obtain ⟨_, ⟨_, _, rfl⟩, _, _, hcons⟩ := Language.mem_mul.1 hnil
        cases hcons
      · rintro v hv d hd (rfl | rfl)
        · exact absurd (mem_kstar_one_iff.1 hv '+' (List.mem_of_mem_head? hd)) (by decide)
        · exact absurd (mem_kstar_one_iff.1 hv '-' (List.mem_of_mem_head? hd)) (by decide)
    · rw [if_neg h]
      refine longest_opt_nil fun y hy hstarts => h ?_
      obtain ⟨d, ds, rfl, hd⟩ := exists_cons_of_mem_exponent hy
      obtain ⟨rfl, _⟩ := List.cons_prefix_cons.1 hstarts
      exact hd

/-- A whole number that starts with `c`. -/
theorem longest_whole {c : Char} {cs : List Char} (hc : c = '-' ∨ c.isDigit = true)
    (h : ¬ (c = '-' ∧ digitCount cs = 0)) :
    Longest whole ((c :: cs).take (digitCount cs + 1)) (c :: cs) := by
  rw [List.take_succ_cons]
  rcases hc with rfl | hdigit
  · refine Longest.mul (x := ['-']) (q := (· = '-')) (longest_one (p := (· = '-')) rfl cs).opt
      (longest_digits fun hzero => h ⟨rfl, hzero⟩) ?_ ?_
    · rintro u w huw _ d hd
      have hmem : d ∈ ['-'] := huw ▸ List.mem_append_right u (List.mem_of_mem_head? hd)
      exact List.mem_singleton.1 hmem
    · rintro v hv _ hd rfl
      obtain ⟨d, ds, rfl, hdigit, _⟩ := exists_cons_of_mem_digits hv
      obtain rfl : d = '-' := Option.some.inj hd
      exact absurd hdigit (by decide)
  · have hminus : Longest (opt (one (· = '-'))) [] ([] ++ c :: cs) := by
      refine longest_opt_nil ?_
      rintro _ ⟨d, rfl, rfl⟩ hstarts
      obtain ⟨rfl, _⟩ := List.cons_prefix_cons.1 hstarts
      exact absurd hdigit (by decide)
    have hdigits : Longest digits (c :: cs.take (digitCount cs)) (c :: cs) :=
      (longest_kstar_digit cs).cons ((isDigit_iff c).1 hdigit)
    refine hminus.mul (q := fun _ => False) hdigits ?_ fun _ _ _ _ => not_false
    rintro u w huw _ d hd
    rw [(List.append_eq_nil_iff.1 huw.symm).2] at hd
    cases hd

/-- A number that starts with `c`. -/
theorem longest_number {c : Char} {cs : List Char} (hc : c = '-' ∨ c.isDigit = true)
    (h : ¬ (c = '-' ∧ digitCount cs = 0)) :
    let n := digitCount cs + fractionLength (cs.drop (digitCount cs))
    Longest number ((c :: cs).take (n + exponentLength (cs.drop n) + 1)) (c :: cs) := by
  intro n
  have hwhole := longest_whole hc h
  -- after the first character, a whole number has digits only, and a fraction adds the point
  have hdigits : ∀ d ∈ cs.take (digitCount cs), '0' ≤ d ∧ d ≤ '9' :=
    mem_kstar_one_iff.1 (longest_kstar_digit cs).mem
  have hpoint : ∀ d ∈ (cs.drop (digitCount cs)).take (fractionLength (cs.drop (digitCount cs))),
      d = '.' ∨ ('0' ≤ d ∧ d ≤ '9') := by
    rcases (longest_fraction (cs.drop (digitCount cs))).mem with hnil | hmem
    · rw [hnil]
      exact fun _ h => absurd h List.not_mem_nil
    · obtain ⟨ds, hds, hcons⟩ := exists_cons_of_mem_fraction hmem
      obtain ⟨d, ds, rfl, hd, hrest⟩ := exists_cons_of_mem_digits hds
      rw [hcons, List.forall_mem_cons, List.forall_mem_cons]
      exact ⟨.inl rfl, .inr hd, fun e he => .inr (hrest e he)⟩
  have hdecimal : Longest (whole * opt fraction) ((c :: cs).take (n + 1)) (c :: cs) := by
    have hadd := hwhole.take_add (k := fractionLength (cs.drop (digitCount cs)))
      (longest_fraction _) (next_of_tail (fun hnil => ne_nil_of_mem_whole hnil rfl) hdigits) ?_
    · rwa [Nat.add_right_comm] at hadd
    · rintro v (rfl | hv) d hd
      · cases hd
      · obtain ⟨ds, _, rfl⟩ := exists_cons_of_mem_fraction hv
        obtain rfl : '.' = d := Option.some.inj hd
        decide
  have hall : ∀ d ∈ cs.take n, d = '.' ∨ ('0' ≤ d ∧ d ≤ '9') := by
    rw [List.take_add, List.forall_mem_append]
    exact ⟨fun d hd => .inr (hdigits d hd), hpoint⟩
  have hadd := hdecimal.take_add (k := exponentLength (cs.drop n)) (longest_exponent _)
    (next_of_tail ?_ hall) ?_
  · rwa [Nat.add_right_comm] at hadd
  · intro hnil
    obtain ⟨u, hu, v, _, huv⟩ := Language.mem_mul.1 hnil
    exact ne_nil_of_mem_whole hu (List.append_eq_nil_iff.1 huv).1
  · rintro v (rfl | hv) d hd
    · cases hd
    · obtain ⟨e, ds, rfl, he⟩ := exists_cons_of_mem_exponent hv
      obtain rfl : e = d := Option.some.inj hd
      rcases he with rfl | rfl <;> decide

/-- A number is whole exactly if neither a fraction nor an exponent is read. -/
theorem take_mem_whole_iff {c : Char} {cs : List Char} (hc : c = '-' ∨ c.isDigit = true)
    (h : ¬ (c = '-' ∧ digitCount cs = 0)) {n : Nat} (hn : digitCount cs + n ≤ cs.length) :
    (c :: cs).take (digitCount cs + n + 1) ∈ whole ↔ n = 0 := by
  have hwhole := longest_whole hc h
  constructor
  · intro hmem
    have hlength := hwhole.longest _ hmem (List.take_prefix _ _)
    rw [List.length_take, List.length_take, List.length_cons] at hlength
    omega
  · rintro rfl
    exact hwhole.mem

end Lexis

/-! ## Between quotes -/

/-- The quotes around a block string. -/
def quotes : List Char := ['"', '"', '"']

/-- Number of backslashes a text ends with. -/
def slashes (u : List Char) : Nat := (u.rtakeWhile (· = '\\')).length

/-- What a string may hold before `after`: characters of its line, and backslashes that take the
character behind them along. -/
inductive StringUnits (after : List Char) : List Char → Prop
  | done : StringUnits after []
  | escaped {c : Char} {body : List Char} :
      StringUnits after body → StringUnits after ('\\' :: c :: body)
  | plain {c : Char} {body : List Char} :
      c ≠ '"' → c ≠ '\n' → (c = '\\' → body ++ after = []) →
      StringUnits after body → StringUnits after (c :: body)

/-- What a block string may hold before `after`: three quotes behind a backslash, and characters at
which neither these nor three quotes start. -/
inductive BlockUnits (after : List Char) : List Char → Prop
  | done : BlockUnits after []
  | escaped {body : List Char} :
      BlockUnits after body → BlockUnits after ('\\' :: (quotes ++ body))
  | single {c : Char} {body : List Char} :
      ¬ quotes <+: c :: (body ++ after) → ¬ '\\' :: quotes <+: c :: (body ++ after) →
      BlockUnits after body → BlockUnits after (c :: body)

/-- A string ends at a quote that belongs to no unit, or else with its line or the text. -/
theorem stringTail_units (cs : List Char) :
    ∃ body after, cs = body ++ after ∧ StringUnits after body ∧
      ((after.head? = some '"' ∧ stringTail cs = (.string, body.length + 1)) ∨
        ((∀ c ∈ after.head?, c = '\n') ∧ stringTail cs = (.invalid, body.length))) := by
  fun_induction stringTail cs with
  | case1 => exact ⟨[], [], rfl, .done, .inr ⟨fun _ h => absurd h (Option.not_mem_none _), rfl⟩⟩
  | case2 cs =>
    exact ⟨[], '\n' :: cs, rfl, .done, .inr ⟨fun _ h => (Option.some.inj h).symm, rfl⟩⟩
  | case3 cs => exact ⟨[], '"' :: cs, rfl, .done, .inl ⟨rfl, rfl⟩⟩
  | case4 c cs ih =>
    obtain ⟨body, after, rfl, hbody, hrest⟩ := ih
    exact ⟨'\\' :: c :: body, after, rfl, hbody.escaped,
      hrest.imp (And.imp_right fun h => by rw [h]; rfl)
      (And.imp_right fun h => by rw [h]; rfl)⟩
  | case5 c cs hline hquote hslash ih =>
    obtain ⟨body, after, rfl, hbody, hrest⟩ := ih
    have hunits : StringUnits after (c :: body) := by
      refine .plain hquote hline (fun hc => ?_) hbody
      by_contra hne
      obtain ⟨d, ds, hds⟩ := List.exists_cons_of_ne_nil hne
      exact hslash d ds hc hds
    exact ⟨c :: body, after, rfl, hunits, hrest.imp (And.imp_right fun h => by rw [h]; rfl)
      (And.imp_right fun h => by rw [h]; rfl)⟩

/-- A block string ends at three quotes that belong to no unit, or else with the text. -/
theorem blockTail_units (cs : List Char) :
    ∃ body after, cs = body ++ after ∧ BlockUnits after body ∧
      ((quotes <+: after ∧ blockTail cs = (.blockString, body.length + 3)) ∨
        (after = [] ∧ blockTail cs = (.invalid, body.length))) := by
  fun_induction blockTail cs with
  | case1 => exact ⟨[], [], rfl, .done, .inr ⟨rfl, rfl⟩⟩
  | case2 cs => exact ⟨[], quotes ++ cs, rfl, .done, .inl ⟨List.prefix_append _ _, rfl⟩⟩
  | case3 cs ih =>
    obtain ⟨body, after, rfl, hbody, hrest⟩ := ih
    exact ⟨'\\' :: (quotes ++ body), after, rfl, hbody.escaped,
      hrest.imp (And.imp_right fun h => by rw [h]; rfl)
      (And.imp_right fun h => by rw [h]; rfl)⟩
  | case4 c cs hquotes hslash ih =>
    obtain ⟨body, after, rfl, hbody, hrest⟩ := ih
    have hunits : BlockUnits after (c :: body) := by
      refine .single ?_ ?_ hbody
      · rintro ⟨ds, hds⟩
        obtain ⟨hc, htail⟩ := List.cons.inj hds
        exact hquotes ds hc.symm htail.symm
      · rintro ⟨ds, hds⟩
        obtain ⟨hc, htail⟩ := List.cons.inj hds
        exact hslash ds hc.symm htail.symm
    exact ⟨c :: body, after, rfl, hunits, hrest.imp (And.imp_right fun h => by rw [h]; rfl)
      (And.imp_right fun h => by rw [h]; rfl)⟩

theorem slashes_concat (u : List Char) (c : Char) :
    slashes (u ++ [c]) = if c = '\\' then slashes u + 1 else 0 := by
  by_cases h : c = '\\' <;> simp [slashes, h]

/-- Text that ends with an even number of backslashes may be left out before a count of them. -/
theorem odd_slashes_append {u : List Char} (hu : Even (slashes u)) (v : List Char) :
    Odd (slashes (u ++ v)) ↔ Odd (slashes v) := by
  induction v using List.reverseRecOn with
  | nil =>
    rw [List.append_nil, ← Nat.not_even_iff_odd]
    exact iff_of_false (not_not_intro hu) (by decide)
  | append_singleton v c ih =>
    rw [← List.append_assoc, slashes_concat, slashes_concat]
    by_cases hc : c = '\\'
    · rw [if_pos hc, if_pos hc, Nat.odd_add_one, Nat.odd_add_one, ih]
    · rw [if_neg hc, if_neg hc]

/-- Every quote follows an odd number of backslashes, and a quote behind the text would follow an
even one. -/
structure Guarded (body : List Char) : Prop where
  odd : ∀ u v, body = u ++ '"' :: v → Odd (slashes u)
  even : Even (slashes body)

theorem Guarded.append {u v : List Char} (hu : Guarded u) (hv : Guarded v) : Guarded (u ++ v) where
  odd := by
    intro x y hxy
    rcases List.append_eq_append_iff.1 hxy with ⟨w, rfl, hw⟩ | ⟨w, rfl, hw⟩
    · rw [odd_slashes_append hu.even]
      exact hv.odd w y hw
    · cases w with
      | nil => exact absurd (hv.odd [] y hw.symm) (by decide)
      | cons d w =>
        obtain ⟨rfl, _⟩ := List.cons.inj hw
        exact hu.odd x w rfl
  even := by
    rw [← Nat.not_odd_iff_even, odd_slashes_append hu.even, Nat.not_odd_iff_even]
    exact hv.even

theorem guarded_escaped (c : Char) : Guarded ['\\', c] where
  odd u v huv := by
    match u with
    | [] => cases huv
    | [d] =>
      obtain ⟨rfl, _⟩ := List.cons.inj huv
      decide
    | _ :: _ :: _ => simp at huv
  even := by
    rw [← List.singleton_append, slashes_concat]
    by_cases hc : c = '\\'
    · rw [if_pos hc]
      decide
    · rw [if_neg hc]
      exact Even.zero

theorem guarded_singleton {c : Char} (hquote : c ≠ '"') (hslash : c ≠ '\\') : Guarded [c] where
  odd u v huv := by
    match u with
    | [] => exact absurd (List.cons.inj huv).1 hquote
    | _ :: _ => simp at huv
  even := by
    rw [← List.nil_append [c], slashes_concat, if_neg hslash]
    exact Even.zero

/-- **What a string holds** before its closing quote guards the quotes in it. -/
theorem StringUnits.guarded {after body : List Char} (h : StringUnits after body)
    (hafter : after ≠ []) : Guarded body := by
  induction h with
  | done => exact ⟨fun u v huv => by simp at huv, Even.zero⟩
  | @escaped c body _ ih => exact (guarded_escaped c).append ih
  | @plain c body hquote _ hslash _ ih =>
    have hc : c ≠ '\\' := fun hc => hafter (List.append_eq_nil_iff.1 (hslash hc)).2
    exact (guarded_singleton hquote hc).append ih

/-- Between quotes, the quote that follows an even number of backslashes is the last one. -/
theorem Guarded.odd_slashes_iff {body u v : List Char} (h : Guarded body)
    (huv : '"' :: (body ++ ['"']) = u ++ '"' :: v) (hu : u ≠ []) : Odd (slashes u) ↔ v ≠ [] := by
  obtain ⟨c, u, rfl⟩ := List.exists_cons_of_ne_nil hu
  rw [List.cons_append, List.cons.injEq] at huv
  obtain ⟨rfl, htail⟩ := huv
  rw [← List.singleton_append, odd_slashes_append (by decide)]
  rcases List.eq_nil_or_concat' v with rfl | ⟨w, d, rfl⟩
  · obtain rfl : body = u := List.append_cancel_right htail
    exact iff_of_false (Nat.not_odd_iff_even.2 h.even) (not_not_intro rfl)
  · rw [← List.cons_append, ← List.append_assoc] at htail
    exact iff_of_true (h.odd u w (List.append_inj_left' htail rfl)) (by simp)

/-! ## Every kind of token -/

/-- Text that is no token of the language. -/
inductive Broken : List Char → List Char → Prop
  /-- A minus sign before no digit. -/
  | minus {cs : List Char} : (∀ d ∈ cs.head?, ¬ ('0' ≤ d ∧ d ≤ '9')) → Broken ['-'] ('-' :: cs)
  /-- A string that ends with its line or with the text. -/
  | openString {body after : List Char} :
      ¬ quotes <+: '"' :: (body ++ after) → StringUnits after body → (∀ c ∈ after.head?, c = '\n') →
      Broken ('"' :: body) ('"' :: (body ++ after))
  /-- A block string that ends with the text. -/
  | openBlock {body : List Char} : BlockUnits [] body → Broken (quotes ++ body) (quotes ++ body)
  /-- A character that belongs to no token and to no gap. -/
  | stray {c : Char} {cs : List Char} :
      isBlank c = false → c ∉ ['#', '"', '-'] → [c] ∉ Lexis.letter + Lexis.digit →
      (∀ p : Punctuator, c ≠ p.char) → Broken [c] (c :: cs)

/-- What the text `x` of a token of this kind looks like, where the source goes on with `rest`, the
text of the token included. -/
def TokenKind.Form (kind : TokenKind) (x rest : List Char) : Prop :=
  match kind with
  | .endOfInput => x = [] ∧ rest = []
  | .invalid => Broken x rest
  | .name => Lexis.Longest Lexis.name x rest ∧ ∀ k : Keyword, x ≠ k.spelling.toList
  | .keyword k => Lexis.Longest Lexis.name x rest ∧ x = k.spelling.toList
  | .int => Lexis.Longest Lexis.number x rest ∧ x ∈ Lexis.whole
  | .float => Lexis.Longest Lexis.number x rest ∧ x ∉ Lexis.whole
  | .string =>
    ¬ quotes <+: rest ∧ 2 ≤ byteLength x ∧ x.head? = some '"' ∧ x.getLast? = some '"' ∧
      (∀ u v, x = u ++ '"' :: v → u ≠ [] → (Odd (slashes u) ↔ v ≠ [])) ∧
      ∃ body after, x = '"' :: (body ++ ['"']) ∧ rest = x ++ after ∧ StringUnits ('"' :: after) body
  | .blockString =>
    6 ≤ byteLength x ∧ quotes <+: x ∧ quotes <:+ x ∧
      ∃ body after, x = quotes ++ (body ++ quotes) ∧ rest = x ++ after ∧
        BlockUnits (quotes ++ after) body
  | .punct p => x = [p.char]

theorem form_quoted (cs : List Char) :
    (quoted cs).1.Form ('"' :: cs.take (quoted cs).2) ('"' :: cs) := by
  by_cases hblock : ∃ ds, cs = '"' :: '"' :: ds
  · obtain ⟨ds, rfl⟩ := hblock
    obtain ⟨body, after, rfl, hbody, ⟨⟨more, rfl⟩, htail⟩ | ⟨rfl, htail⟩⟩ := blockTail_units ds
    · have hquoted : quoted ('"' :: '"' :: (body ++ (quotes ++ more))) =
          (.blockString, (body ++ quotes).length + 2) := by
        rw [quoted, htail, List.length_append]
        rfl
      rw [hquoted, ← List.append_assoc, List.take_succ_cons, List.take_succ_cons, List.take_left]
      refine ⟨?_, List.prefix_append quotes _, (List.suffix_append body quotes).trans
        (List.suffix_append quotes _), body, more, rfl, rfl, hbody⟩
      show 6 ≤ byteLength (quotes ++ (body ++ quotes))
      have hsize : byteLength quotes = 3 := rfl
      rw [byteLength_append, byteLength_append, hsize]
      omega
    · rw [List.append_nil] at htail ⊢
      rw [quoted, htail]
      show Broken ('"' :: '"' :: '"' :: body.take body.length) _
      rw [List.take_length]
      exact .openBlock hbody
  · have hquotes : ¬ quotes <+: '"' :: cs := by
      rintro ⟨ds, hds⟩
      exact hblock ⟨ds, (List.cons.inj hds).2.symm⟩
    rw [quoted_eq_stringTail fun ds hds => hblock ⟨ds, hds⟩]
    obtain ⟨body, after, rfl, hbody, ⟨hafter, htail⟩ | ⟨hafter, htail⟩⟩ := stringTail_units cs
    · obtain ⟨more, rfl⟩ := List.head?_eq_some_iff.1 hafter
      have htake : (body ++ '"' :: more).take (body.length + 1) = body ++ ['"'] := by
        rw [List.take_append, List.take_of_length_le (Nat.le_succ _), Nat.add_sub_cancel_left]
        rfl
      rw [htail, htake]
      refine ⟨hquotes, ?_, rfl, ?_, fun u v huv hu => ?_, body, more, rfl, by simp, hbody⟩
      · have hsize : byteLength ['"'] = 1 := rfl
        rw [← List.singleton_append, byteLength_append, byteLength_append, hsize]
        omega
      · rw [← List.cons_append, List.getLast?_concat]
      · exact (hbody.guarded (List.cons_ne_nil _ _)).odd_slashes_iff huv hu
    · rw [htail, List.take_left]
      exact .openString hquotes hbody hafter

theorem form_numeral {c : Char} {cs : List Char} (hc : c = '-' ∨ c.isDigit = true) :
    (numeral c cs).1.Form (c :: cs.take (numeral c cs).2) (c :: cs) := by
  unfold numeral
  dsimp only
  set f := fractionLength (cs.drop (digitCount cs))
  set e := exponentLength (cs.drop (digitCount cs + f))
  by_cases hminus : c = '-' ∧ digitCount cs = 0
  · rw [if_pos hminus]
    obtain ⟨rfl, hzero⟩ := hminus
    exact .minus (Lexis.digitCount_eq_zero_iff.1 hzero)
  · have hle : digitCount cs + (f + e) ≤ cs.length := by
      have hdigits := digitCount_le cs
      have hfraction : f ≤ _ := fractionLength_le (cs.drop (digitCount cs))
      have hexponent : e ≤ _ := exponentLength_le (cs.drop (digitCount cs + f))
      rw [List.length_drop] at hfraction hexponent
      omega
    have hnumber : Lexis.Longest Lexis.number ((c :: cs).take (digitCount cs + f + e + 1))
        (c :: cs) := Lexis.longest_number hc hminus
    have hwhole := Lexis.take_mem_whole_iff hc hminus hle
    rw [← Nat.add_assoc, Nat.add_eq_zero_iff] at hwhole
    rw [if_neg hminus]
    by_cases hnone : f = 0 ∧ e = 0
    · rw [if_pos hnone]
      have hint := And.intro hnumber (hwhole.2 hnone)
      rwa [hnone.1, hnone.2] at hint
    · rw [if_neg hnone]
      exact ⟨hnumber, mt hwhole.1 hnone⟩

theorem Keyword.mem_all (k : Keyword) : k ∈ Keyword.all := by cases k <;> decide

theorem Punctuator.mem_all (p : Punctuator) : p ∈ Punctuator.all := by cases p <;> decide

theorem form_word {c : Char} (hc : isNameStart c = true) (cs : List Char) :
    (word c cs).1.Form (c :: cs.take (word c cs).2) (c :: cs) := by
  have hname := Lexis.longest_name hc cs
  have htake : cs.take (cs.takeWhile isNamePart).length = cs.takeWhile isNamePart :=
    (List.prefix_iff_eq_take.1 (List.takeWhile_prefix isNamePart)).symm
  unfold word
  dsimp only
  cases hk : Keyword.ofSpelling? (String.ofList (c :: cs.takeWhile isNamePart)) with
  | some k =>
    have hspelling : k.spelling = String.ofList (c :: cs.takeWhile isNamePart) :=
      by simpa using List.find?_some hk
    dsimp only
    rw [htake]
    refine ⟨hname, ?_⟩
    rw [hspelling, String.toList_ofList]
  | none =>
    dsimp only
    rw [htake]
    refine ⟨hname, fun k hspelling => ?_⟩
    have hne := List.find?_eq_none.1 hk k k.mem_all
    rw [hspelling, String.ofList_toList] at hne
    exact hne (decide_eq_true rfl)

/-- A token that starts at a character has the form of its kind. -/
theorem form_lexeme {c : Char} (hblank : isBlank c = false) (hhash : c ≠ '#') (cs : List Char) :
    (lexeme c cs).1.Form (c :: cs.take (lexeme c cs).2) (c :: cs) := by
  unfold lexeme
  by_cases hquote : c = '"'
  · rw [if_pos hquote, hquote]
    exact form_quoted cs
  rw [if_neg hquote]
  by_cases hnumber : (c = '-' || c.isDigit) = true
  · rw [if_pos hnumber]
    exact form_numeral (by simpa using hnumber)
  rw [if_neg hnumber]
  by_cases hname : isNameStart c = true
  · rw [if_pos hname]
    exact form_word hname cs
  rw [if_neg hname]
  cases hp : Punctuator.ofChar? c with
  | some p =>
    have hchar : p.char = c := by simpa using List.find?_some hp
    show [c] = [p.char]
    rw [hchar]
  | none =>
    rw [Bool.or_eq_true, decide_eq_true_eq, not_or] at hnumber
    refine .stray hblank (by simp [hhash, hquote, hnumber.1]) ?_ fun p hchar => ?_
    · rintro (⟨d, hd, heq⟩ | ⟨d, hd, heq⟩)
      · obtain rfl := (List.cons.inj heq).1
        exact hname ((Lexis.isNameStart_iff c).2 hd)
      · obtain rfl := (List.cons.inj heq).1
        exact hnumber.2 ((Lexis.isDigit_iff c).2 hd)
    · exact List.find?_eq_none.1 hp p p.mem_all (decide_eq_true hchar.symm)

/-! ## The tokens of a source -/

namespace Cursor

/-- **Run.** Every token read from a place on starts at a character that belongs to no gap. -/
theorem exists_lexeme_of_mem_tokens (c : Cursor) :
    ∀ before, byteLength before = c.offset → ∀ t ∈ c.tokens, ∃ gap ch cs,
      before ++ c.rest = gap ++ ch :: cs ∧ t.span.start = byteLength gap ∧ isBlank ch = false ∧
        ch ≠ '#' ∧ t.kind = (lexeme ch cs).1 ∧
        t.text = String.ofList (ch :: cs.take (lexeme ch cs).2) := by
  fun_induction Cursor.tokens c with
  | case1 => exact fun _ _ _ ht => absurd ht List.not_mem_nil
  | case2 c t c' hsome _ ih =>
    intro before hbefore
    obtain ⟨gap, ch, cs, hrest, _, hblank, hhash, rfl, rfl⟩ := exists_lexeme_of_next? hsome
    refine List.forall_mem_cons.2
      ⟨⟨before ++ gap, ch, cs, ?_, ?_, hblank, hhash, rfl, rfl⟩, ?_⟩
    · rw [hrest, List.append_assoc]
    · rw [byteLength_append, hbefore]
    · have hcut : (ch :: cs.take (lexeme ch cs).2) ++ cs.drop (lexeme ch cs).2 = ch :: cs := by
        rw [List.cons_append, List.take_append_drop]
      have htail := ih (before ++ gap ++ (ch :: cs.take (lexeme ch cs).2)) (by
        rw [byteLength_append, byteLength_append, hbefore])
      rwa [List.append_assoc, hcut, List.append_assoc, ← hrest] at htail

end Cursor

/-- **Every token has the form of its kind**, and a word or a number is the longest one there. -/
theorem form_of_tokenize (source : String) : ∀ t ∈ tokenize source,
    ∃ rest, dropBytes? t.span.start source.toList = some rest ∧ t.text.toList <+: rest ∧
      t.kind.Form t.text.toList rest := by
  rw [tokenize, List.forall_mem_append, List.forall_mem_singleton]
  constructor
  · intro t ht
    obtain ⟨gap, ch, cs, hcut, hstart, hblank, hhash, hkind, htext⟩ :=
      Cursor.exists_lexeme_of_mem_tokens (Cursor.start source.toList) [] rfl t ht
    have hsource : source.toList = gap ++ ch :: cs := hcut
    rw [hstart, hsource, hkind, htext, String.toList_ofList]
    exact ⟨ch :: cs, dropBytes?_append _ _, List.take_prefix ((lexeme ch cs).2 + 1) (ch :: cs),
      form_lexeme hblank hhash cs⟩
  · have hend := dropBytes?_append source.toList []
    rw [List.append_nil] at hend
    exact ⟨[], hend, List.nil_prefix, rfl, rfl⟩

/-- A string that ends in backslashes, with a quote in it and right before another one. -/
theorem form_of_tokenize_string :
    let source := "-1, \"a\\\\\\\"b\\\\\"\""
    let t : Token := ⟨.string, ⟨4, 14⟩, "\"a\\\\\\\"b\\\\\""⟩
    t ∈ tokenize source ∧
      ∃ rest, dropBytes? t.span.start source.toList = some rest ∧ t.text.toList <+: rest ∧
        t.kind.Form t.text.toList rest := by
  intro source t
  have ht : t ∈ tokenize source := by decide +kernel
  exact ⟨ht, form_of_tokenize source t ht⟩

end SchemaToFlow.Schema
