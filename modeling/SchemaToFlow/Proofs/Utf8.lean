import SchemaToFlow.Proofs.LexicalForm
import SchemaToFlow.Schema.Scanner

/-!
# Characters and their bytes

What a scanner of bytes relies on: in the UTF-8 form of a text, an ASCII character is one byte and
stands for nothing else, and all bytes of any other character are above the ASCII characters.

* `encodeChar_cases`: the bytes of one character.
* `SameClass`: a class of ASCII characters, told of bytes and of characters. Where a character starts,
  the two agree (`SameClass.any_head?`).
* `mark_of_bytes`: only the byte order mark starts like the byte order mark.
-/

namespace SchemaToFlow.Schema

open Text

/-- The bytes of a text. -/
def encode (cs : List Char) : List UInt8 := cs.flatMap String.utf8EncodeChar

@[simp] theorem encode_nil : encode [] = [] := rfl

theorem encode_cons (c : Char) (cs : List Char) :
    encode (c :: cs) = String.utf8EncodeChar c ++ encode cs := rfl

theorem encode_append (cs ds : List Char) : encode (cs ++ ds) = encode cs ++ encode ds :=
  List.flatMap_append

theorem length_encode (cs : List Char) : (encode cs).length = byteLength cs := by
  induction cs with
  | nil => rfl
  | cons c cs ih =>
    rw [encode_cons, List.length_append, String.length_utf8EncodeChar, ih, byteLength_cons]

theorem data_utf8Encode (cs : List Char) : cs.utf8Encode.data.toList = encode cs := by
  rw [List.utf8Encode, List.toList_data_toByteArray]
  rfl

theorem data_toUTF8 (source : String) : source.toUTF8.data.toList = encode source.toList := by
  rw [String.toUTF8_eq_toByteArray, ← String.utf8Encode_toList, data_utf8Encode]

theorem fromUTF8?_eq_some_iff {bytes : ByteArray} {text : String} :
    String.fromUTF8? bytes = some text ↔ bytes = text.toUTF8 := by
  unfold String.fromUTF8?
  constructor
  · intro h
    split at h
    · exact congrArg String.toUTF8 (Option.some.inj h)
    · cases h
  · rintro rfl
    exact dif_pos text.isValidUTF8

/-! ## One character -/

/-- Whether a character is one byte. -/
def IsAscii (c : Char) : Prop := c.toNat < 128

instance (c : Char) : Decidable (IsAscii c) := inferInstanceAs (Decidable (c.toNat < 128))

theorem toNat_toUInt8 {c : Char} (h : IsAscii c) : c.toUInt8.toNat = c.toNat := by
  unfold IsAscii at h
  show c.val.toNat % 256 = c.val.toNat
  have hval : c.val.toNat < 128 := h
  omega

/-- An ASCII character is one byte. Any other character has a first byte, which no other byte of it
can be taken for, and none of its bytes is one of an ASCII character. -/
theorem encodeChar_cases (c : Char) :
    (IsAscii c ∧ String.utf8EncodeChar c = [c.toUInt8]) ∨
      (¬ IsAscii c ∧ ∃ b bs, String.utf8EncodeChar c = b :: bs ∧ 192 ≤ b.toNat ∧
        ∀ x ∈ bs, 128 ≤ x.toNat ∧ x.toNat < 192) := by
  have hval : c.toNat = c.val.toNat := rfl
  unfold IsAscii
  rw [String.utf8EncodeChar.eq_1, hval]
  by_cases hone : c.val.toNat ≤ 127
  · rw [if_pos hone]
    exact .inl ⟨by omega, rfl⟩
  · rw [if_neg hone]
    refine .inr ⟨by omega, ?_⟩
    by_cases htwo : c.val.toNat ≤ 2047
    · rw [if_pos htwo]
      refine ⟨_, _, rfl, ?_, ?_⟩
      · rw [UInt8.toNat_ofNat']
        omega
      · simp only [List.mem_singleton, forall_eq, UInt8.toNat_ofNat']
        omega
    · rw [if_neg htwo]
      by_cases hthree : c.val.toNat ≤ 65535
      · rw [if_pos hthree]
        refine ⟨_, _, rfl, ?_, ?_⟩
        · rw [UInt8.toNat_ofNat']
          omega
        · simp only [List.mem_cons, List.not_mem_nil, or_false, forall_eq_or_imp, forall_eq,
            UInt8.toNat_ofNat']
          omega
      · rw [if_neg hthree]
        refine ⟨_, _, rfl, ?_, ?_⟩
        · rw [UInt8.toNat_ofNat']
          omega
        · simp only [List.mem_cons, List.not_mem_nil, or_false, forall_eq_or_imp, forall_eq,
            UInt8.toNat_ofNat']
          omega

/-- Below the ASCII characters there is nothing else to look at. -/
theorem forall_ascii {p : Char → Prop} (h : ∀ n < 128, p (Char.ofNat n)) :
    ∀ c, IsAscii c → p c := by
  intro c hc
  have hp := h c.toNat hc
  rwa [Char.ofNat_toNat] at hp

theorem forall_byte {p : UInt8 → Prop} (h : ∀ n < 256, p (UInt8.ofNat n)) : ∀ b, p b := by
  intro b
  have hp := h b.toNat b.toNat_lt
  rwa [UInt8.ofNat_toNat] at hp

theorem toUInt8_inj {a c : Char} (ha : IsAscii a) (hc : IsAscii c) :
    a.toUInt8 = c.toUInt8 ↔ a = c := by
  refine ⟨fun h => ?_, fun h => by rw [h]⟩
  have hnat : a.toNat = c.toNat := by rw [← toNat_toUInt8 ha, ← toNat_toUInt8 hc, h]
  rw [← Char.ofNat_toNat a, ← Char.ofNat_toNat c, hnat]

theorem isContinuation_iff (b : UInt8) :
    isContinuation b = true ↔ 128 ≤ b.toNat ∧ b.toNat < 192 :=
  forall_byte (p := fun b => isContinuation b = true ↔ 128 ≤ b.toNat ∧ b.toNat < 192)
    (by decide +kernel) b

/-! ## Classes of ASCII characters -/

/-- The bytes and the characters are the same class of ASCII characters. -/
structure SameClass (bytes : UInt8 → Bool) (chars : Char → Bool) : Prop where
  ascii : ∀ c, IsAscii c → bytes c.toUInt8 = chars c
  above : ∀ b : UInt8, 128 ≤ b.toNat → bytes b = false
  other : ∀ c, ¬ IsAscii c → chars c = false

theorem SameClass.isAscii {bytes : UInt8 → Bool} {chars : Char → Bool} (h : SameClass bytes chars)
    {c : Char} (hc : chars c = true) : IsAscii c := by
  by_contra hnot
  rw [h.other c hnot] at hc
  cases hc

/-- Between two characters of a text, a byte is in the class exactly if the next character is. -/
theorem SameClass.any_head? {bytes : UInt8 → Bool} {chars : Char → Bool}
    (h : SameClass bytes chars) (cs : List Char) :
    (encode cs).head?.any bytes = cs.head?.any chars := by
  cases cs with
  | nil => rfl
  | cons c cs =>
    rw [encode_cons]
    rcases encodeChar_cases c with ⟨hc, hbytes⟩ | ⟨hc, b, bs, hbytes, hb, _⟩
    · rw [hbytes]
      exact h.ascii c hc
    · rw [hbytes]
      exact (h.above b (by omega)).trans (h.other c hc).symm

theorem isAscii_of_le {c d : Char} (hd : IsAscii d) (h : c ≤ d) : IsAscii c :=
  Nat.lt_of_le_of_lt (UInt32.le_iff_toNat_le.1 h) hd

theorem sameClass_digit : SameClass isDigitByte Char.isDigit where
  ascii := forall_ascii (by decide +kernel)
  above := forall_byte (by decide +kernel)
  other c hc := by
    rw [Bool.eq_false_iff]
    intro h
    exact hc (isAscii_of_le (by decide) ((Lexis.isDigit_iff c).1 h).2)

theorem sameClass_nameStart : SameClass isNameStartByte isNameStart where
  ascii := forall_ascii (by decide +kernel)
  above := forall_byte (by decide +kernel)
  other c hc := by
    rw [Bool.eq_false_iff]
    intro h
    rcases (Lexis.isNameStart_iff c).1 h with ⟨_, hle⟩ | ⟨_, hle⟩ | rfl
    · exact hc (isAscii_of_le (by decide) hle)
    · exact hc (isAscii_of_le (by decide) hle)
    · exact hc (by decide)

theorem sameClass_namePart : SameClass isNameByte isNamePart where
  ascii := forall_ascii (by decide +kernel)
  above := forall_byte (by decide +kernel)
  other c hc := by
    rw [Bool.eq_false_iff]
    intro h
    rcases (Lexis.isNamePart_iff c).1 h with hstart | ⟨_, hle⟩
    · rw [← Lexis.isNameStart_iff, sameClass_nameStart.other c hc] at hstart
      exact Bool.false_ne_true hstart
    · exact hc (isAscii_of_le (by decide) hle)

theorem sameClass_eq {a : Char} (ha : IsAscii a) :
    SameClass (fun b => decide (b = a.toUInt8)) fun c => decide (c = a) where
  ascii c hc := decide_eq_decide.2 (toUInt8_inj hc ha)
  above b hb := by
    rw [decide_eq_false_iff_not]
    rintro rfl
    rw [toNat_toUInt8 ha] at hb
    exact absurd ha (Nat.not_lt.2 hb)
  other c hc := by
    rw [decide_eq_false_iff_not]
    rintro rfl
    exact hc ha

/-- Blanks, the byte order mark apart. -/
theorem sameClass_blank :
    SameClass isBlankByte fun c => isBlank c && decide (c ≠ '\uFEFF') where
  ascii := forall_ascii (by decide +kernel)
  above := forall_byte (by decide +kernel)
  other c hc := by
    rw [Bool.eq_false_iff]
    intro h
    simp only [isBlank, Bool.and_eq_true, Bool.or_eq_true, decide_eq_true_eq, or_assoc] at h
    obtain ⟨rfl | rfl | rfl | rfl | rfl | rfl, hmark⟩ := h
    · exact hc (by decide)
    · exact hc (by decide)
    · exact hc (by decide)
    · exact hc (by decide)
    · exact hc (by decide)
    · exact hmark rfl

theorem ofByte?_toUInt8 : ∀ c, IsAscii c → Punctuator.ofByte? c.toUInt8 = Punctuator.ofChar? c :=
  forall_ascii (by decide +kernel)

theorem ofByte?_above : ∀ b : UInt8, 128 ≤ b.toNat → Punctuator.ofByte? b = none :=
  forall_byte (by decide +kernel)

theorem ofChar?_other {c : Char} (h : ¬ IsAscii c) : Punctuator.ofChar? c = none := by
  rw [Punctuator.ofChar?, List.find?_eq_none]
  intro p _ hp
  obtain rfl := of_decide_eq_true hp
  exact h (by cases p <;> decide)

/-! ## Finding a character -/

/-- The byte of an ASCII character stands for nothing else, wherever it is. -/
theorem toUInt8_mem_encode {a : Char} (ha : IsAscii a) {cs : List Char}
    (h : a.toUInt8 ∈ encode cs) : a ∈ cs := by
  obtain ⟨c, hc, hmem⟩ := List.mem_flatMap.1 h
  have hlt : a.toUInt8.toNat < 128 := by
    rw [toNat_toUInt8 ha]
    exact ha
  rcases encodeChar_cases c with ⟨hascii, hbytes⟩ | ⟨_, b, bs, hbytes, hb, hbs⟩
  · rw [hbytes, List.mem_singleton, toUInt8_inj ha hascii] at hmem
    rwa [hmem]
  · rw [hbytes] at hmem
    rcases List.mem_cons.1 hmem with heq | hmem
    · rw [heq] at hlt
      omega
    · have hge := (hbs _ hmem).1
      omega

theorem findIdx?_encode_eq_none {a : Char} (ha : IsAscii a) {cs : List Char} (h : a ∉ cs) :
    (encode cs).findIdx? (fun b => decide (b = a.toUInt8)) = none := by
  rw [List.findIdx?_eq_none_iff]
  intro b hb
  rw [decide_eq_false_iff_not]
  rintro rfl
  exact h (toUInt8_mem_encode ha hb)

/-- The first byte of the kind of `a` is that of the first `a`. -/
theorem findIdx?_encode {a : Char} (ha : IsAscii a) {cs : List Char} (h : a ∉ cs)
    (ds : List Char) :
    (encode (cs ++ a :: ds)).findIdx? (fun b => decide (b = a.toUInt8)) =
      some (byteLength cs) := by
  have hbytes : String.utf8EncodeChar a = [a.toUInt8] := by
    rcases encodeChar_cases a with ⟨_, hbytes⟩ | ⟨hnot, _⟩
    · exact hbytes
    · exact absurd ha hnot
  rw [encode_append, encode_cons, hbytes, List.findIdx?_append, findIdx?_encode_eq_none ha h,
    ← length_encode]
  simp [List.findIdx?_cons]

/-! ## The byte order mark -/

/-- Only the byte order mark starts with its three bytes. -/
theorem mark_of_bytes {cs : List Char} {bs : List UInt8}
    (h : encode cs = 0xEF :: 0xBB :: 0xBF :: bs) : ∃ ds, cs = '\uFEFF' :: ds ∧ bs = encode ds := by
  have hbytes : ['\uFEFF'].utf8Encode ++ bs.toByteArray = cs.utf8Encode := by
    apply ByteArray.ext
    apply Array.toList_inj.1
    rw [ByteArray.toList_data_append, data_utf8Encode, data_utf8Encode, h,
      List.toList_data_toByteArray]
    rfl
  obtain ⟨ds, rfl⟩ := List.isPrefix_of_utf8Encode_append_eq_utf8Encode _ hbytes
  refine ⟨ds, rfl, ?_⟩
  have hcons : encode (['\uFEFF'] ++ ds) = 0xEF :: 0xBB :: 0xBF :: encode ds := rfl
  rw [hcons] at h
  simpa using h.symm

end SchemaToFlow.Schema
