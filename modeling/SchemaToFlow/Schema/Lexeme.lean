import SchemaToFlow.Schema.Token

/-!
# From text to tokens

`lexeme c cs` tells what token starts with the character `c` and how many of the characters `cs` that
follow belong to it. A `Cursor` is a place in a text; `Cursor.next?` skips what lies between tokens
and takes the next one, and `tokenize` takes them all.

* Blanks, commas, byte order marks and comments separate tokens and mean nothing else.
* A number ends where no digit, fraction or exponent goes on; a lone minus sign is no number.
* An ordinary string ends at its closing quote. If its line or the text ends first, what was read of
  it is an invalid token. A backslash takes the character after it along, whatever it is.
* A block string ends at three quotes that follow no backslash.
* Any other character is an invalid token by itself.

Every token has at least one character, so the rest of the text gets shorter (`length_next?`).

This is gqlflow's `Lexer` as a matter of characters: `gapLength` is `skip_ignored`, `word` is
`scan_name`, `numeral` is `scan_number`, `stringTail` and `blockTail` are `scan_string` and
`scan_block_string`, `Cursor.next?` is `next_token` up to the end mark and `tokenize` is `tokenize`.

Out of scope: bytes, and offsets of 32 bits. `Schema/Scanner.lean` has both, and on every text that
is shorter than 2 to the 32 bytes it gives the same tokens (`scan_eq_tokenize`).
-/

namespace SchemaToFlow.Schema

open Text

/-! ## Between tokens -/

/-- Characters that only separate tokens. -/
def isBlank (c : Char) : Bool :=
  c = ' ' || c = '\t' || c = '\r' || c = '\n' || c = ',' || c = '\uFEFF'

/-- Number of characters before the next token. The flag tells whether the text starts inside a
comment; a comment lasts until its line feed. -/
def gapLength : Bool → List Char → Nat
  | _, [] => 0
  | true, c :: cs => gapLength (c ≠ '\n') cs + 1
  | false, c :: cs =>
    if c = '#' then gapLength true cs + 1
    else if isBlank c then gapLength false cs + 1
    else 0

/-! ## Names and numbers -/

/-- Characters that start a name. -/
def isNameStart (c : Char) : Bool := c.isAlpha || c = '_'

/-- Characters that continue a name. -/
def isNamePart (c : Char) : Bool := c.isAlphanum || c = '_'

/-- The word that starts with `c`: a keyword or a name. -/
def word (c : Char) (cs : List Char) : TokenKind × Nat :=
  let tail := cs.takeWhile isNamePart
  match Keyword.ofSpelling? (String.ofList (c :: tail)) with
  | some k => (.keyword k, tail.length)
  | none => (.name, tail.length)

/-- Number of digits a text starts with. -/
def digitCount (cs : List Char) : Nat := (cs.takeWhile Char.isDigit).length

/-- Length of the fraction a text starts with: a point and at least one digit. -/
def fractionLength : List Char → Nat
  | [] => 0
  | c :: cs => if c = '.' ∧ digitCount cs ≠ 0 then digitCount cs + 1 else 0

/-- Length of the sign a text starts with. -/
def signLength : List Char → Nat
  | [] => 0
  | c :: _ => if c = '+' ∨ c = '-' then 1 else 0

/-- Length of the exponent a text starts with: its mark, a sign if there is one, and any number of
digits, even none. -/
def exponentLength : List Char → Nat
  | [] => 0
  | c :: cs =>
    if c = 'e' ∨ c = 'E' then 1 + signLength cs + digitCount (cs.drop (signLength cs)) else 0

/-- The number that starts with `c`, a digit or a minus sign. -/
def numeral (c : Char) (cs : List Char) : TokenKind × Nat :=
  let whole := digitCount cs
  let fraction := fractionLength (cs.drop whole)
  let exponent := exponentLength (cs.drop (whole + fraction))
  if c = '-' ∧ whole = 0 then (.invalid, 0)
  else if fraction = 0 ∧ exponent = 0 then (.int, whole)
  else (.float, whole + fraction + exponent)

/-! ## Strings -/

/-- The same token with `n` more characters. -/
def longer (n : Nat) (l : TokenKind × Nat) : TokenKind × Nat := (l.1, l.2 + n)

/-- What follows the opening quote of an ordinary string. -/
def stringTail : List Char → TokenKind × Nat
  | [] => (.invalid, 0)
  | '\n' :: _ => (.invalid, 0)
  | '"' :: _ => (.string, 1)
  | '\\' :: _ :: cs => longer 2 (stringTail cs)
  | _ :: cs => longer 1 (stringTail cs)

/-- What follows the opening quotes of a block string. -/
def blockTail : List Char → TokenKind × Nat
  | [] => (.invalid, 0)
  | '"' :: '"' :: '"' :: _ => (.blockString, 3)
  | '\\' :: '"' :: '"' :: '"' :: cs => longer 4 (blockTail cs)
  | _ :: cs => longer 1 (blockTail cs)

/-- What follows a quote: two more of them open a block string. -/
def quoted : List Char → TokenKind × Nat
  | '"' :: '"' :: cs => longer 2 (blockTail cs)
  | cs => stringTail cs

/-! ## Tokens -/

/-- The kind of the token that starts with `c`, and the number of characters of `cs` in it. -/
def lexeme (c : Char) (cs : List Char) : TokenKind × Nat :=
  if c = '"' then quoted cs
  else if c = '-' || c.isDigit then numeral c cs
  else if isNameStart c then word c cs
  else
    match Punctuator.ofChar? c with
    | some mark => (.punct mark, 0)
    | none => (.invalid, 0)

/-- A place in a text: what is still to be read, and the offset where that starts. -/
structure Cursor where
  offset : Nat
  rest : List Char
  deriving DecidableEq, Repr

namespace Cursor

/-- The start of a text. -/
def start (source : List Char) : Cursor := ⟨0, source⟩

/-- The place `n` characters further on. -/
def skip (c : Cursor) (n : Nat) : Cursor :=
  ⟨c.offset + byteLength (c.rest.take n), c.rest.drop n⟩

/-- The place where the next token starts, or the end of the text. -/
def skipGap (c : Cursor) : Cursor := c.skip (gapLength false c.rest)

/-- The token at a place where one starts, and the place after it. -/
def token? (c : Cursor) : Option (Token × Cursor) :=
  match c.rest with
  | [] => none
  | ch :: cs =>
    let (kind, n) := lexeme ch cs
    let after := c.skip (n + 1)
    some (⟨kind, ⟨c.offset, after.offset⟩, String.ofList (ch :: cs.take n)⟩, after)

/-- The next token and the place after it, or nothing at the end of the text. -/
def next? (c : Cursor) : Option (Token × Cursor) := c.skipGap.token?

theorem length_skip (c : Cursor) (n : Nat) : (c.skip n).rest.length = c.rest.length - n := by
  simp [skip]

theorem length_token? {c c' : Cursor} {t : Token} (h : c.token? = some (t, c')) :
    c'.rest.length < c.rest.length := by
  unfold token? at h
  split at h
  · simp at h
  · rename_i ch cs hr
    simp only [Option.some.injEq, Prod.mk.injEq] at h
    rw [← h.2, length_skip, hr, List.length_cons]
    omega

/-- Taking a token leaves less to read. -/
theorem length_next? {c c' : Cursor} {t : Token} (h : c.next? = some (t, c')) :
    c'.rest.length < c.rest.length :=
  Nat.lt_of_lt_of_le (length_token? h) (by rw [skipGap, length_skip]; omega)

/-- The tokens from a place to the end of the text, without the end mark. -/
def tokens (c : Cursor) : List Token :=
  match h : c.next? with
  | none => []
  | some (t, c') =>
    have : c'.rest.length < c.rest.length := length_next? h
    t :: c'.tokens
termination_by c.rest.length

end Cursor

/-- The tokens of a text; the last one, and no other, is the end mark. -/
def tokenize (source : String) : List Token :=
  (Cursor.start source.toList).tokens ++ [.endAt (byteLength source.toList)]

end SchemaToFlow.Schema
