import Mathlib.Data.List.Forall2
import Mathlib.Data.List.TakeWhile
import SchemaToFlow.Json

/-!
# JSON texts

Which texts stand for a JSON value, and a reader for them.

A value has one sequence of words: brackets, commas, colons, truth values and strings
(`Json.words`). A text of the value has these words in order, with blanks wherever one likes
(`Spells`); and a character of a string may be written as it is, by an escape, or by its number
(`CharText`). That is all the freedom there is.

* `Json.TextOf j text`: the text stands for the value.
* `read?_of_textOf`: the reader finds the value. It first takes the text apart into words, then puts
  the value together with a stack of what is open (`assemble`, `settle`).
* `textOf_pretty`: what `pretty` writes stands for the value it was written from.
-/

namespace SchemaToFlow.Json

/-! ## Words -/

/-- A word of a JSON text. -/
inductive Word where
  | openArray
  | closeArray
  | openObject
  | closeObject
  | comma
  | colon
  | bool (value : Bool)
  | string (value : String)
  deriving DecidableEq, Repr

mutual

/-- The words of a value. -/
def words : Json → List Word
  | .bool value => [.bool value]
  | .string value => [.string value]
  | .array items => .openArray :: ([Word.comma].intercalate (itemWords items) ++ [.closeArray])
  | .object fields =>
    .openObject :: ([Word.comma].intercalate (fieldWords fields) ++ [.closeObject])

/-- The words of list elements. -/
def itemWords : List Json → List (List Word)
  | [] => []
  | item :: items => item.words :: itemWords items

/-- The words of fields. -/
def fieldWords : List (String × Json) → List (List Word)
  | [] => []
  | (key, value) :: fields => (.string key :: .colon :: value.words) :: fieldWords fields

end

/-! ## Texts -/

/-- A character that may stand between words. -/
def isBlank (c : Char) : Bool := c = ' ' || c = '\t' || c = '\n' || c = '\r'

/-- The character that stands for another after a backslash. -/
def unescape? : Char → Option Char
  | '"' => some '"'
  | '\\' => some '\\'
  | '/' => some '/'
  | 'b' => some '\x08'
  | 'f' => some '\x0c'
  | 'n' => some '\n'
  | 'r' => some '\r'
  | 't' => some '\t'
  | _ => none

/-- The value of a hexadecimal digit. -/
def hexDigit? (c : Char) : Option Nat :=
  if '0' ≤ c ∧ c ≤ '9' then some (c.toNat - '0'.toNat)
  else if 'a' ≤ c ∧ c ≤ 'f' then some (c.toNat - 'a'.toNat + 10)
  else if 'A' ≤ c ∧ c ≤ 'F' then some (c.toNat - 'A'.toNat + 10)
  else none

/-- The value of four hexadecimal digits. -/
def hex4? (w x y z : Char) : Option Nat := do
  return (((← hexDigit? w) * 16 + (← hexDigit? x)) * 16 + (← hexDigit? y)) * 16 + (← hexDigit? z)

/-- A way to write a character in a string: as it is, by an escape, by its number in hexadecimal
digits, or, if that has more than four digits, by two numbers out of a range kept for this. -/
inductive CharText : Char → List Char → Prop
  | plain {c : Char} (hc : 0x20 ≤ c.toNat) (hquote : c ≠ '"') (hescape : c ≠ '\\') : CharText c [c]
  | escape {c e : Char} (h : unescape? e = some c) : CharText c ['\\', e]
  | number {c w x y z : Char} (h : hex4? w x y z = some c.toNat) :
      CharText c ['\\', 'u', w, x, y, z]
  | pair {c w x y z w' x' y' z' : Char} {n : Nat} (hc : c.toNat = 0x10000 + n)
      (hhigh : hex4? w x y z = some (0xd800 + n / 0x400))
      (hlow : hex4? w' x' y' z' = some (0xdc00 + n % 0x400)) :
      CharText c ['\\', 'u', w, x, y, z, '\\', 'u', w', x', y', z']

/-- A way to write the characters of a string. -/
inductive CharsText : List Char → List Char → Prop
  | nil : CharsText [] []
  | cons {c : Char} {cs t ts : List Char} (hc : CharText c t) (hcs : CharsText cs ts) :
      CharsText (c :: cs) (t ++ ts)

/-- A way to write a word. -/
inductive WordText : Word → List Char → Prop
  | openArray : WordText .openArray ['[']
  | closeArray : WordText .closeArray [']']
  | openObject : WordText .openObject ['\x7b']
  | closeObject : WordText .closeObject ['\x7d']
  | comma : WordText .comma [',']
  | colon : WordText .colon [':']
  | true : WordText (.bool true) ['t', 'r', 'u', 'e']
  | false : WordText (.bool false) ['f', 'a', 'l', 's', 'e']
  | string {s : String} {t : List Char} (h : CharsText s.toList t) :
      WordText (.string s) ('"' :: (t ++ ['"']))

/-- The words stand in the text in order, with nothing but blanks around them. -/
inductive Spells : List Word → List Char → Prop
  | blanks {b : List Char} (hb : ∀ c ∈ b, isBlank c = true) : Spells [] b
  | word {w : Word} {ws : List Word} {b t ts : List Char} (hb : ∀ c ∈ b, isBlank c = true)
      (hw : WordText w t) (hs : Spells ws ts) : Spells (w :: ws) (b ++ (t ++ ts))

/-- The text stands for the value. -/
def TextOf (j : Json) (text : String) : Prop := Spells j.words text.toList

/-! ## Taking a text apart -/

/-- Takes a number of four hexadecimal digits, as it stands for a character. -/
def readNumber? : List Char → Option (Nat × List Char)
  | '\\' :: 'u' :: w :: x :: y :: z :: cs => (hex4? w x y z).map fun n => (n, cs)
  | _ => none

/-- Takes a character of a string, in whichever way it is written. -/
def readChar? (cs : List Char) : Option (Char × List Char) :=
  match readNumber? cs with
  | some (n, rest) =>
    if 0xd800 ≤ n ∧ n < 0xdc00 then
      match readNumber? rest with
      | some (m, rest) =>
        if 0xdc00 ≤ m ∧ m < 0xe000 then
          some (.ofNat (0x10000 + (n - 0xd800) * 0x400 + (m - 0xdc00)), rest)
        else none
      | none => none
    else if 0xdc00 ≤ n ∧ n < 0xe000 then none
    else some (.ofNat n, rest)
  | none =>
    match cs with
    | '\\' :: e :: rest => (unescape? e).map fun c => (c, rest)
    | c :: rest => if 0x20 ≤ c.toNat ∧ c ≠ '"' ∧ c ≠ '\\' then some (c, rest) else none
    | [] => none

theorem length_lt_of_readNumber? {cs rest : List Char} {n : Nat}
    (h : readNumber? cs = some (n, rest)) : rest.length < cs.length := by
  unfold readNumber? at h
  split at h
  · obtain ⟨_, _, heq⟩ := Option.map_eq_some_iff.1 h
    obtain ⟨-, rfl⟩ := Prod.mk.inj heq
    simp only [List.length_cons]
    omega
  · cases h

theorem length_lt_of_readChar? {cs rest : List Char} {c : Char}
    (h : readChar? cs = some (c, rest)) : rest.length < cs.length := by
  unfold readChar? at h
  split at h
  · rename_i n rest₁ hfirst
    have h₁ := length_lt_of_readNumber? hfirst
    split at h
    · split at h
      · rename_i m rest₂ hsecond
        have h₂ := length_lt_of_readNumber? hsecond
        grind
      · cases h
    · grind
  · split at h
    · rename_i e rest'
      obtain ⟨_, _, heq⟩ := Option.map_eq_some_iff.1 h
      grind
    · grind
    · cases h

/-- Takes the characters of a string up to the quote that ends it. -/
def readChars? (cs : List Char) : Option (List Char × List Char) :=
  if cs.head? = some '"' then some ([], cs.tail)
  else
    match h : readChar? cs with
    | some (c, rest) =>
      have : rest.length < cs.length := length_lt_of_readChar? h
      (readChars? rest).map fun p => (c :: p.1, p.2)
    | none => none
termination_by cs.length

theorem length_lt_of_readChars? {cs rest chars : List Char}
    (h : readChars? cs = some (chars, rest)) : rest.length < cs.length := by
  fun_induction readChars? cs generalizing chars with
  | case1 cs hquote =>
    obtain ⟨cs', rfl⟩ := List.head?_eq_some_iff.1 hquote
    obtain ⟨-, rfl⟩ := Prod.mk.inj (Option.some.inj h)
    exact Nat.lt_succ_self _
  | case2 cs hquote c rest' hc hlt ih =>
    obtain ⟨⟨chars', rest''⟩, hrest, heq⟩ := Option.map_eq_some_iff.1 h
    obtain ⟨-, rfl⟩ := Prod.mk.inj heq
    exact Nat.lt_trans (ih hrest) hlt
  | case3 => cases h

/-- Takes a word. -/
def readWord? : List Char → Option (Word × List Char)
  | '[' :: cs => some (.openArray, cs)
  | ']' :: cs => some (.closeArray, cs)
  | '\x7b' :: cs => some (.openObject, cs)
  | '\x7d' :: cs => some (.closeObject, cs)
  | ',' :: cs => some (.comma, cs)
  | ':' :: cs => some (.colon, cs)
  | 't' :: 'r' :: 'u' :: 'e' :: cs => some (.bool true, cs)
  | 'f' :: 'a' :: 'l' :: 's' :: 'e' :: cs => some (.bool false, cs)
  | '"' :: cs => (readChars? cs).map fun p => (.string (String.ofList p.1), p.2)
  | _ => none

theorem length_lt_of_readWord? {cs rest : List Char} {w : Word}
    (h : readWord? cs = some (w, rest)) : rest.length < cs.length := by
  unfold readWord? at h
  split at h
  case h_9 cs =>
    obtain ⟨⟨chars, rest'⟩, hchars, hw⟩ := Option.map_eq_some_iff.1 h
    have hlt := length_lt_of_readChars? hchars
    grind
  all_goals grind

/-- The words of a text. -/
def readWords? (cs : List Char) : Option (List Word) :=
  if cs.dropWhile isBlank = [] then some []
  else
    match h : readWord? (cs.dropWhile isBlank) with
    | some (w, rest) =>
      have : rest.length < cs.length :=
        Nat.lt_of_lt_of_le (length_lt_of_readWord? h) (List.dropWhile_suffix isBlank).length_le
      (readWords? rest).map (w :: ·)
    | none => none
termination_by cs.length

theorem readNumber?_of_ne {c : Char} (h : c ≠ '\\') (cs : List Char) :
    readNumber? (c :: cs) = none := by
  unfold readNumber?
  split
  · rename_i heq
    exact absurd (List.cons.inj heq).1 h
  · rfl

theorem readNumber?_of_hex4? {w x y z : Char} {n : Nat} (h : hex4? w x y z = some n)
    (rest : List Char) : readNumber? (['\\', 'u', w, x, y, z] ++ rest) = some (n, rest) := by
  show (hex4? w x y z).map (fun n => (n, rest)) = _
  rw [h]
  rfl

theorem readChar?_of_charText {c : Char} {t : List Char} (h : CharText c t) (rest : List Char) :
    readChar? (t ++ rest) = some (c, rest) := by
  cases h with
  | plain hc hquote hescape =>
    unfold readChar?
    rw [List.singleton_append, readNumber?_of_ne hescape]
    dsimp only
    split
    · rename_i heq
      exact absurd (List.cons.inj heq).1 hescape
    · rename_i heq
      obtain ⟨rfl, rfl⟩ := List.cons.inj heq
      exact if_pos ⟨hc, hquote, hescape⟩
    · rename_i heq
      cases heq
  | @escape e h =>
    unfold unescape? at h
    split at h <;> cases h <;> rfl
  | number h =>
    -- no character has a number out of the range that is kept for pairs
    have hvalid : c.toNat < 0xd800 ∨ 0xdfff < c.toNat := c.valid.imp id And.left
    unfold readChar?
    rw [readNumber?_of_hex4? h]
    dsimp only
    rw [if_neg (by omega), if_neg (by omega), Char.ofNat_toNat]
  | @pair w x y z w' x' y' z' n hc hhigh hlow =>
    have hlt : c.toNat < 0x110000 := by
      rcases c.valid with h | h
      · exact Nat.lt_trans h (by decide)
      · exact h.2
    have hsplit : ['\\', 'u', w, x, y, z, '\\', 'u', w', x', y', z'] ++ rest =
        ['\\', 'u', w, x, y, z] ++ (['\\', 'u', w', x', y', z'] ++ rest) := rfl
    have hn : 0x10000 + (0xd800 + n / 0x400 - 0xd800) * 0x400 + (0xdc00 + n % 0x400 - 0xdc00) =
        c.toNat := by omega
    unfold readChar?
    rw [hsplit, readNumber?_of_hex4? hhigh]
    dsimp only
    rw [if_pos (by omega), readNumber?_of_hex4? hlow]
    dsimp only
    rw [if_pos (by omega), hn, Char.ofNat_toNat]

theorem head?_of_charText {c : Char} {t : List Char} (h : CharText c t) (rest : List Char) :
    (t ++ rest).head? ≠ some '"' := by
  cases h <;> simp_all

theorem readChars?_of_charsText {cs t : List Char} (h : CharsText cs t) (rest : List Char) :
    readChars? (t ++ '"' :: rest) = some (cs, rest) := by
  induction h with
  | nil =>
    rw [readChars?]
    rfl
  | @cons c cs t ts hc _ ih =>
    have hread := readChar?_of_charText hc (ts ++ '"' :: rest)
    rw [List.append_assoc, readChars?, if_neg (head?_of_charText hc _)]
    split
    · rename_i c' rest' hc'
      rw [hread] at hc'
      cases hc'
      rw [ih]
      rfl
    · rename_i hnone
      rw [hread] at hnone
      cases hnone

theorem readWord?_of_wordText {w : Word} {t : List Char} (h : WordText w t) (rest : List Char) :
    readWord? (t ++ rest) = some (w, rest) := by
  cases h with
  | @string s t h =>
    show (readChars? (t ++ ['"'] ++ rest)).map _ = _
    rw [List.append_assoc, List.singleton_append, readChars?_of_charsText h]
    simp
  | _ => rfl

/-- A word starts with a character that is no blank. -/
theorem dropWhile_of_wordText {w : Word} {t : List Char} (h : WordText w t) (rest : List Char) :
    (t ++ rest).dropWhile isBlank = t ++ rest ∧ t ++ rest ≠ [] := by
  cases h <;> simp [isBlank]

/-- **The words of a text are the words it spells.** -/
theorem readWords?_of_spells {ws : List Word} {t : List Char} (h : Spells ws t) :
    readWords? t = some ws := by
  induction h with
  | @blanks b hb =>
    rw [readWords?, if_pos (List.dropWhile_eq_nil_iff.2 hb)]
  | @word w ws b t ts hb hw _ ih =>
    obtain ⟨hstart, hne⟩ := dropWhile_of_wordText hw ts
    have hdrop : (b ++ (t ++ ts)).dropWhile isBlank = t ++ ts := by
      rw [List.dropWhile_append_of_pos hb, hstart]
    have hread := readWord?_of_wordText hw ts
    rw [← hdrop] at hread hne
    rw [readWords?, if_neg hne]
    split
    · rename_i w' rest' hw'
      rw [hread] at hw'
      cases hw'
      rw [ih]
      rfl
    · rename_i hnone
      rw [hread] at hnone
      cases hnone

/-! ## Putting a value together -/

/-- What is open while a value is read: a list with the elements before it, or an object with the
fields before it and the key of the value. -/
inductive Frame where
  | items (before : List Json)
  | fields (before : List (String × Json)) (key : String)

mutual

/-- Reads a value inside of what is open, the innermost first. -/
def assemble : List Frame → List Word → Option Json
  | outer, .bool value :: ws => settle outer (.bool value) ws
  | outer, .string value :: ws => settle outer (.string value) ws
  | outer, .openArray :: .closeArray :: ws => settle outer (.array []) ws
  | outer, .openArray :: ws => assemble (.items [] :: outer) ws
  | outer, .openObject :: .closeObject :: ws => settle outer (.object []) ws
  | outer, .openObject :: .string key :: .colon :: ws => assemble (.fields [] key :: outer) ws
  | _, _ => none

/-- Puts a value that was read into what is open, and goes on. -/
def settle : List Frame → Json → List Word → Option Json
  | [], value, [] => some value
  | .items before :: outer, value, .comma :: ws => assemble (.items (before ++ [value]) :: outer) ws
  | .items before :: outer, value, .closeArray :: ws => settle outer (.array (before ++ [value])) ws
  | .fields before key :: outer, value, .comma :: .string key' :: .colon :: ws =>
    assemble (.fields (before ++ [(key, value)]) key' :: outer) ws
  | .fields before key :: outer, value, .closeObject :: ws =>
    settle outer (.object (before ++ [(key, value)])) ws
  | _, _, _ => none

end

/-- The value that a text stands for. -/
def read? (text : String) : Option Json := (readWords? text.toList).bind (assemble [])

/-- No value starts with a closing bracket. -/
theorem exists_words_eq_cons (j : Json) : ∃ w ws, j.words = w :: ws ∧ w ≠ .closeArray := by
  cases j <;> exact ⟨_, _, rfl, by simp⟩

theorem assemble_openArray (outer : List Frame) (j : Json) (ws : List Word) :
    assemble outer (.openArray :: (j.words ++ ws)) =
      assemble (.items [] :: outer) (j.words ++ ws) := by
  obtain ⟨w, ws', hws, hw⟩ := exists_words_eq_cons j
  rw [hws, List.cons_append, assemble]
  rintro ws'' ⟨⟩
  exact hw rfl

/-- After the first of several parts, each further one follows a comma. -/
theorem intercalate_comma (ws : List Word) (rest : List (List Word)) :
    [Word.comma].intercalate (ws :: rest) = ws ++ rest.flatMap (Word.comma :: ·) := by
  induction rest generalizing ws with
  | nil => simp
  | cons ws' rest ih => rw [List.intercalate_cons_cons, ih, List.flatMap_cons]; simp

-- Mutual along the value: a list or an object is read element by element, and after each comma the
-- machine stands before a value with the elements so far in the innermost frame.
mutual

/-- The words of a value are read as the value, whatever is open and whatever follows. -/
theorem assemble_words :
    ∀ (j : Json) (outer : List Frame) (ws : List Word),
      assemble outer (j.words ++ ws) = settle outer j ws
  | .bool value, outer, ws => by
    rw [words, List.singleton_append, assemble]
  | .string value, outer, ws => by
    rw [words, List.singleton_append, assemble]
  | .array [], outer, ws => by
    rw [words, itemWords, List.intercalate_nil, List.nil_append, List.cons_append,
      List.singleton_append, assemble]
  | .array (j :: js), outer, ws => by
    rw [words, itemWords, intercalate_comma, List.append_assoc, List.cons_append,
      List.append_assoc, assemble_openArray, assemble_words j, List.append_assoc,
      List.singleton_append, settle_items js, List.nil_append]
  | .object [], outer, ws => by
    rw [words, fieldWords, List.intercalate_nil, List.nil_append, List.cons_append,
      List.singleton_append, assemble]
  | .object ((key, j) :: fields), outer, ws => by
    rw [words, fieldWords, intercalate_comma, List.append_assoc, List.cons_append,
      List.append_assoc, List.cons_append, List.cons_append, assemble, assemble_words j,
      List.append_assoc, List.singleton_append, settle_fields fields, List.nil_append]

theorem settle_items :
    ∀ (js : List Json) (j : Json) (before : List Json) (outer : List Frame) (ws : List Word),
      settle (.items before :: outer) j
          ((itemWords js).flatMap (Word.comma :: ·) ++ .closeArray :: ws) =
        settle outer (.array (before ++ j :: js)) ws
  | [], j, before, outer, ws => by
    rw [itemWords, List.flatMap_nil, List.nil_append, settle]
  | j' :: js, j, before, outer, ws => by
    rw [itemWords, List.flatMap_cons, List.append_assoc, List.cons_append, settle,
      assemble_words j', settle_items js, List.append_assoc, List.singleton_append]

theorem settle_fields :
    ∀ (fields : List (String × Json)) (key : String) (j : Json) (before : List (String × Json))
      (outer : List Frame) (ws : List Word),
      settle (.fields before key :: outer) j
          ((fieldWords fields).flatMap (Word.comma :: ·) ++ .closeObject :: ws) =
        settle outer (.object (before ++ (key, j) :: fields)) ws
  | [], key, j, before, outer, ws => by
    rw [fieldWords, List.flatMap_nil, List.nil_append, settle]
  | (key', j') :: fields, key, j, before, outer, ws => by
    rw [fieldWords, List.flatMap_cons, List.append_assoc, List.cons_append, List.cons_append,
      List.cons_append, settle, assemble_words j', settle_fields fields, List.append_assoc,
      List.singleton_append]

end

/-- **The reader finds the value that a text stands for.** -/
theorem read?_of_textOf {j : Json} {text : String} (h : j.TextOf text) : read? text = some j := by
  have hwords := assemble_words j [] []
  rw [List.append_nil] at hwords
  rw [read?, readWords?_of_spells h, Option.bind_some, hwords, settle]

/-! ## What `pretty` writes -/

theorem Spells.blank_append {ws : List Word} {b t : List Char} (hb : ∀ c ∈ b, isBlank c = true)
    (h : Spells ws t) : Spells ws (b ++ t) := by
  cases h with
  | blanks hb' => exact .blanks (List.forall_mem_append.2 ⟨hb, hb'⟩)
  | word hb' hw hs =>
    rw [← List.append_assoc]
    exact .word (List.forall_mem_append.2 ⟨hb, hb'⟩) hw hs

theorem Spells.append {ws ws' : List Word} {t t' : List Char} (h : Spells ws t)
    (h' : Spells ws' t') : Spells (ws ++ ws') (t ++ t') := by
  induction h with
  | blanks hb => exact h'.blank_append hb
  | word hb hw _ ih =>
    rw [List.append_assoc, List.append_assoc]
    exact .word hb hw ih

theorem WordText.spells {w : Word} {t : List Char} (h : WordText w t) : Spells [w] t := by
  simpa using Spells.word (b := []) (by simp) h (.blanks (b := []) (by simp))

/-- Below 16, the digit of a number has its value. -/
theorem hexDigit?_digitChar : ∀ n < 16, hexDigit? (Nat.digitChar n) = some n := by
  decide

theorem charText_escapeChar (c : Char) : CharText c (escapeChar c) := by
  unfold escapeChar
  split_ifs with h₁ h₂ h₃ h₄ h₅ h₆ h₇ h₈
  · exact .escape (by rw [h₁]; rfl)
  · exact .escape (by rw [h₂]; rfl)
  · exact .escape (by rw [h₃]; rfl)
  · exact .escape (by rw [h₄]; rfl)
  · exact .escape (by rw [h₅]; rfl)
  · exact .escape (by rw [h₆]; rfl)
  · exact .escape (by rw [h₇]; rfl)
  · refine .number ?_
    have hhigh := hexDigit?_digitChar (c.toNat / 16) (by omega)
    have hlow := hexDigit?_digitChar (c.toNat % 16) (by omega)
    have hzero : hexDigit? '0' = some 0 := hexDigit?_digitChar 0 (by omega)
    simp only [hex4?, hzero, hhigh, hlow, Option.bind_eq_bind, Option.bind_some, Option.pure_def,
      Option.some.injEq]
    omega
  · exact .plain (by omega) h₁ h₂

theorem charsText_flatMap_escapeChar (cs : List Char) : CharsText cs (cs.flatMap escapeChar) := by
  induction cs with
  | nil => exact .nil
  | cons c cs ih => exact .cons (charText_escapeChar c) ih

theorem spells_quote (s : String) : Spells [.string s] (quote s).toList := by
  have h := (WordText.string (charsText_flatMap_escapeChar s.toList)).spells
  simpa [quote] using h

theorem isBlank_of_mem_margin (depth : Nat) : ∀ c ∈ (margin depth).toList, isBlank c = true := by
  simp [margin, isBlank]

/-- Items on lines of their own, with commas between. -/
theorem spells_lines (depth : Nat) {items : List (List Word)} {texts : List String}
    (h : List.Forall₂ (fun ws text => Spells ws text.toList) items texts) :
    Spells ([Word.comma].intercalate items)
      (",\n".intercalate (texts.map (margin depth ++ ·))).toList := by
  rw [String.toList_intercalate, List.map_map]
  induction h with
  | nil => exact .blanks (by simp)
  | @cons ws text items texts hws hitems ih =>
    have hline : Spells ws (margin depth ++ text).toList := by
      rw [String.toList_append]
      exact hws.blank_append (isBlank_of_mem_margin depth)
    cases hitems with
    | nil => simpa using hline
    | cons _ _ =>
      have hcomma : Spells [Word.comma] ",\n".toList :=
        .word (b := []) (by simp) .comma (.blanks (b := ['\n']) (by simp [isBlank]))
      rw [List.map_cons, List.map_cons, List.intercalate_cons_cons, List.intercalate_cons_cons]
      exact (hline.append hcomma).append ih

theorem spells_enclose {depth : Nat} {w w' : Word} {opening closing : String}
    (hw : WordText w opening.toList) (hw' : WordText w' closing.toList) {items : List (List Word)}
    {texts : List String} (h : List.Forall₂ (fun ws text => Spells ws text.toList) items texts) :
    Spells (w :: ([Word.comma].intercalate items ++ [w']))
      (enclose depth opening closing texts).toList := by
  have hbreak : ∀ c ∈ "\n".toList, isBlank c = true := by simp [isBlank]
  cases h with
  | nil =>
    rw [enclose, String.toList_append]
    exact hw.spells.append hw'.spells
  | cons hws hitems =>
    have hlines := spells_lines (depth + 1) (.cons hws hitems)
    have hclose := hw'.spells.blank_append (isBlank_of_mem_margin depth)
    have hall := hw.spells.append ((hlines.append (hclose.blank_append hbreak)).blank_append hbreak)
    rw [enclose]
    · simpa using hall
    · exact List.cons_ne_nil _ _

mutual

theorem spells_pretty : ∀ (j : Json) (depth : Nat), Spells j.words (j.pretty depth).toList
  | .bool true, depth => by simpa [words, pretty] using WordText.true.spells
  | .bool false, depth => by simpa [words, pretty] using WordText.false.spells
  | .string value, depth => by
    rw [words, pretty]
    exact spells_quote value
  | .array items, depth => by
    rw [words, pretty]
    exact spells_enclose .openArray .closeArray (spells_prettyItems items (depth + 1))
  | .object fields, depth => by
    rw [words, pretty]
    exact spells_enclose .openObject .closeObject (spells_prettyFields fields (depth + 1))

theorem spells_prettyItems : ∀ (items : List Json) (depth : Nat),
    List.Forall₂ (fun ws text => Spells ws text.toList) (itemWords items) (prettyItems depth items)
  | [], _ => by
    rw [itemWords, prettyItems]
    exact .nil
  | item :: items, depth => by
    rw [itemWords, prettyItems]
    exact .cons (spells_pretty item depth) (spells_prettyItems items depth)

theorem spells_prettyFields : ∀ (fields : List (String × Json)) (depth : Nat),
    List.Forall₂ (fun ws text => Spells ws text.toList) (fieldWords fields)
      (prettyFields depth fields)
  | [], _ => by
    rw [fieldWords, prettyFields]
    exact .nil
  | (key, value) :: fields, depth => by
    have hcolon : Spells [Word.colon] ": ".toList :=
      .word (b := []) (by simp) .colon (.blanks (b := [' ']) (by simp [isBlank]))
    have hfield := ((spells_quote key).append hcolon).append (spells_pretty value depth)
    rw [fieldWords, prettyFields]
    refine .cons ?_ (spells_prettyFields fields depth)
    rw [String.toList_append, String.toList_append]
    exact hfield

end

/-- A line of what `pretty` writes stands for the value it was written from. -/
theorem textOf_pretty (j : Json) (depth : Nat) : j.TextOf (j.pretty depth ++ "\n") := by
  have h := (spells_pretty j depth).append (.blanks (b := "\n".toList) (by simp [isBlank]))
  rw [List.append_nil, ← String.toList_append] at h
  exact h

end SchemaToFlow.Json
