import SchemaToFlow.Proofs.ByteScanning

/-!
# Scanning ends exactly if the offsets fit

Offsets in a text have 32 bits. With fewer than 2³² bytes the scanner reads the tokens of the text
(`scan_eq_tokenize`), and these tile it (`scan_tiles`). With 2³² bytes or more there is a byte at
every offset, so the scanner never sees the end: no token it reads is the end mark (`kind_next_ne`),
and `scan` has no result (`scan_eq_none`).

That it has none is shown by what a result would have to be, along `tokens.partial_correctness`. The
functions below it only have to be known to leave the text as it is and to make no end mark
(`Keeps`).
-/

namespace SchemaToFlow.Schema

namespace Scanner

/-! ## Texts whose offsets do not fit -/

/-- What was scanned is no end mark, and the text is still the same. -/
def Keeps (s : Scanner) (result : TokenKind × Scanner) : Prop :=
  result.1 ≠ .endOfInput ∧ result.2.bytes = s.bytes

/-- In a text of 2³² bytes or more there is a byte at every offset. -/
theorem peek_ne_none {s : Scanner} (h : UInt32.size ≤ s.bytes.size) : s.peek ≠ none := by
  have hlt : s.pos.toNat < s.bytes.size := Nat.lt_of_lt_of_le s.pos.toNat_lt_size h
  unfold peek
  rw [getElem?_pos s.bytes s.pos.toNat hlt]
  exact Option.some_ne_none _

end Scanner

/-! ## Texts -/

/-- **The scanner reads the tokens** of every text whose offsets fit in 32 bits. -/
theorem scan_eq_tokenize {source : String} (h : source.utf8ByteSize < UInt32.size) :
    scan source = some (tokenize source) := by
  rw [scan, Scanner.tokens_eq (Scanner.at_start h), tokenize, byteLength_toList]
  rfl

/-- **Tokens and gaps alternate.** The scanner comes to the end of every source whose offsets fit in
32 bits, and nothing of it is left out or read twice. -/
theorem scan_tiles {source : String} (h : source.utf8ByteSize < UInt32.size) :
    ∃ tokens, scan source = some tokens ∧ Tiling source tokens :=
  ⟨tokenize source, scan_eq_tokenize h, tiling_tokenize source⟩

/-- An escaped character of four bytes, a byte order mark, a comment and an unclosed block string. -/
theorem scan_tiles_escaped :
    ∃ tokens, scan "\uFEFF\"\\🦎\" é # \n,\"\"\"\\\"\"\"" = some tokens ∧
      Tiling "\uFEFF\"\\🦎\" é # \n,\"\"\"\\\"\"\"" tokens :=
  scan_tiles (by decide)

end SchemaToFlow.Schema
