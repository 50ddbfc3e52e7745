import SchemaToFlow.Schema.Token

/-!
# Scanning the bytes of a text

A `Scanner` goes through the UTF-8 form of a text byte by byte. It is gqlflow's `Lexer`: `next` is
`next_token`, `skipIgnored` is `skip_ignored`, `scanName`, `scanDigits`, `scanNumber`, `scanString` and
`scanBlock` are `scan_name`, `scan_digits`, `scan_number`, `scan_string` and `scan_block_string`, and
`scan` is `tokenize`.

* The offset of the next byte has 32 bits and wraps around (`advanceBy`), and so does the number of
  bytes when the rest of the text is a comment.
* A loop that does not end gives `none`, and so does a cut that ends before it starts (`slice?`), which
  stops the program.
* Bytes are compared with ASCII characters; all bytes of any other character are above them. An escape
  takes the byte behind the backslash along, so it may end inside a character.

`Schema/Lexeme.lean` says the same about characters, with offsets that have no bound. The two agree on
every text that is shorter than 2 to the 32 bytes, and on no other does the scanner come to an end
(`scan_eq_tokenize`, `scan_eq_none`).

Out of scope: a build that checks its arithmetic stops where an offset would wrap around; here it wraps.
-/

namespace SchemaToFlow.Schema

/-- Bytes that only separate tokens. -/
def isBlankByte (b : UInt8) : Bool :=
  b = ' '.toUInt8 || b = '\t'.toUInt8 || b = '\r'.toUInt8 || b = '\n'.toUInt8 || b = ','.toUInt8

/-- The bytes of decimal digits. -/
def isDigitByte (b : UInt8) : Bool := '0'.toUInt8 ≤ b && b ≤ '9'.toUInt8

/-- Bytes that start a name. -/
def isNameStartByte (b : UInt8) : Bool :=
  ('a'.toUInt8 ≤ b && b ≤ 'z'.toUInt8) || ('A'.toUInt8 ≤ b && b ≤ 'Z'.toUInt8) || b = '_'.toUInt8

/-- Bytes that continue a name. -/
def isNameByte (b : UInt8) : Bool := isNameStartByte b || isDigitByte b

/-- Bytes that continue a character. -/
def isContinuation (b : UInt8) : Bool := b &&& 0xC0 = 0x80

/-- The mark written as a byte, if there is one. -/
def Punctuator.ofByte? (b : UInt8) : Option Punctuator := all.find? fun p => p.char.toUInt8 = b

/-- A place among the bytes of a text. -/
structure Scanner where
  bytes : ByteArray
  pos : UInt32

namespace Scanner

/-- The start of a text. -/
def start (source : String) : Scanner := ⟨source.toUTF8, 0⟩

/-- The next byte. -/
def peek (s : Scanner) : Option UInt8 := s.bytes[s.pos.toNat]?

/-- The byte `k` places behind the next one. -/
def peekAt (s : Scanner) (k : UInt32) : Option UInt8 := s.bytes[(s.pos + k).toNat]?

/-- Whether the next byte is that of a character. -/
def sees (s : Scanner) (c : Char) : Bool := s.peek = some c.toUInt8

/-- Whether the byte `k` places behind the next one is that of a character. -/
def seesAt (s : Scanner) (k : UInt32) (c : Char) : Bool := s.peekAt k = some c.toUInt8

/-- The place `n` bytes further on. -/
def advanceBy (s : Scanner) (n : UInt32) : Scanner := { s with pos := s.pos + n }

/-- The place behind the next byte. -/
def advance (s : Scanner) : Scanner := s.advanceBy 1

/-- The bytes from here on. -/
def rest (s : Scanner) : List UInt8 := s.bytes.data.toList.drop s.pos.toNat

/-- The text between an earlier place and this one. -/
def slice? (s : Scanner) (start : UInt32) : Option String :=
  if start ≤ s.pos then String.fromUTF8? (s.bytes.extract start.toNat s.pos.toNat) else none

/-- Goes on as long as the next byte is of a kind. -/
def advanceWhile (kind : UInt8 → Bool) (s : Scanner) : Option Scanner :=
  if s.peek.any kind then s.advance |>.advanceWhile kind else some s
partial_fixpoint

/-- Skips blanks, byte order marks and comments. -/
def skipIgnored (s : Scanner) : Option Scanner :=
  if s.peek.any isBlankByte then s.advance |>.skipIgnored
  else if s.sees '#' then
    match s.rest.findIdx? (· = '\n'.toUInt8) with
    | some offset => s.advanceBy offset.toUInt32 |>.skipIgnored
    | none => { s with pos := s.bytes.size.toUInt32 } |>.skipIgnored
  else if s.peek = some 0xEF ∧ s.peekAt 1 = some 0xBB ∧ s.peekAt 2 = some 0xBF then
    s.advanceBy 3 |>.skipIgnored
  else some s
partial_fixpoint

/-- A name or a keyword. -/
def scanName (s : Scanner) : Option (TokenKind × Scanner) := do
  let after ← s.advanceWhile isNameByte
  let word ← after.slice? s.pos
  match Keyword.ofSpelling? word with
  | some k => return (.keyword k, after)
  | none => return (.name, after)

/-- Any number of digits. -/
def scanDigits (s : Scanner) : Option Scanner := s.advanceWhile isDigitByte

/-- Whether a fraction comes next, a point with at least one digit, and the place behind it. -/
def scanFraction (s : Scanner) : Option (Bool × Scanner) :=
  if s.sees '.' && (s.peekAt 1).any isDigitByte then
    s.advance.scanDigits.map fun after => (true, after)
  else some (false, s)

/-- Whether an exponent comes next, which may have no digits, and the place behind it. -/
def scanExponent (s : Scanner) : Option (Bool × Scanner) :=
  if s.sees 'e' || s.sees 'E' then
    let s := s.advance
    (if s.sees '+' || s.sees '-' then s.advance else s).scanDigits.map fun after => (true, after)
  else some (false, s)

/-- A number, or a lone minus sign. -/
def scanNumber (s : Scanner) : Option (TokenKind × Scanner) := do
  let s := if s.sees '-' then s.advance else s
  if s.peek.any isDigitByte then
    let s ← s.scanDigits
    let (fraction, s) ← s.scanFraction
    let (exponent, s) ← s.scanExponent
    return (if fraction || exponent then .float else .int, s)
  else
    return (.invalid, s)

/-- What follows the opening quotes of a block string. -/
def scanBlock (s : Scanner) : Option (TokenKind × Scanner) :=
  if s.peek = none then some (.invalid, s)
  else if s.sees '"' && s.seesAt 1 '"' && s.seesAt 2 '"' then some (.blockString, s.advanceBy 3)
  else if s.sees '\\' && s.seesAt 1 '"' && s.seesAt 2 '"' && s.seesAt 3 '"' then
    s.advanceBy 4 |>.scanBlock
  else s.advance |>.scanBlock
partial_fixpoint

/-- What follows the opening quote of an ordinary string. -/
def scanStringTail (s : Scanner) : Option (TokenKind × Scanner) :=
  if s.peek = none || s.sees '\n' then some (.invalid, s)
  else if s.sees '"' then some (.string, s.advance)
  else if s.sees '\\' && (s.peekAt 1).isSome then s.advanceBy 2 |>.scanStringTail
  else s.advance |>.scanStringTail
partial_fixpoint

/-- A string that starts with the next byte. -/
def scanString (s : Scanner) : Option (TokenKind × Scanner) :=
  let s := s.advance
  if s.sees '"' && s.seesAt 1 '"' then (s.advanceBy 2).scanBlock else s.scanStringTail

/-- The kind of the token that starts with the next byte, which is `b`, and the place behind it. A
character that starts no token is one by itself, with all its bytes. -/
def scanKind (s : Scanner) (b : UInt8) : Option (TokenKind × Scanner) :=
  if b = '"'.toUInt8 then s.scanString
  else if b = '-'.toUInt8 || isDigitByte b then s.scanNumber
  else if isNameStartByte b then s.scanName
  else
    match Punctuator.ofByte? b with
    | some mark => some (.punct mark, s.advance)
    | none => (s.advance.advanceWhile isContinuation).map fun after => (.invalid, after)

/-- The next token and the place behind it. -/
def next (s : Scanner) : Option (Token × Scanner) := do
  let s ← s.skipIgnored
  match s.peek with
  | none => return (.endAt s.pos.toNat, s)
  | some b =>
    let (kind, after) ← s.scanKind b
    return (⟨kind, ⟨s.pos.toNat, after.pos.toNat⟩, (after.slice? s.pos).getD ""⟩, after)

/-- The tokens from here on, up to the end mark. -/
def tokens (s : Scanner) : Option (List Token) := do
  let (t, after) ← s.next
  if t.kind = .endOfInput then return [t]
  else
    let ts ← after |>.tokens
    return t :: ts
partial_fixpoint

end Scanner

/-- The tokens of a text, if scanning it comes to an end. -/
def scan (source : String) : Option (List Token) := (Scanner.start source).tokens

end SchemaToFlow.Schema
