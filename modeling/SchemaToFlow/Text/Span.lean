/-!
# Byte spans and cuts of a text

A text is a list of characters, and every place in it is named by the number of bytes of UTF-8 that
stand before it. A `Span` is a pair of such offsets.

* `byteLength` measures a text; it is a homomorphism for `++` (`byteLength_append`).
* `takeBytes?` and `dropBytes?` cut a text after a number of bytes. They give `none` when the cut
  would fall inside a character or past the end, so a cut that succeeds never loses a character
  (`takeBytes?_append`, `dropBytes?_append`).
* `Span.slice` is the text a span covers, empty when the span does not fit the text.

It is gqlflow's `Span` with `merge`, `slice`, `len` (`length`), `is_empty` and `empty` (`emptyAt`).
Out of scope: its offsets have 32 bits, and no bound here.
-/

namespace SchemaToFlow.Text

/-- Number of bytes of the UTF-8 form of a text. -/
def byteLength : List Char → Nat
  | [] => 0
  | c :: cs => c.utf8Size + byteLength cs

/-- The first `n` bytes of a text, if the cut falls between two characters. -/
def takeBytes? : Nat → List Char → Option (List Char)
  | 0, _ => some []
  | _ + 1, [] => none
  | n + 1, c :: cs =>
    if c.utf8Size ≤ n + 1 then (takeBytes? (n + 1 - c.utf8Size) cs).map (c :: ·) else none

/-- What is left after the first `n` bytes of a text, if the cut falls between two characters. -/
def dropBytes? : Nat → List Char → Option (List Char)
  | 0, cs => some cs
  | _ + 1, [] => none
  | n + 1, c :: cs =>
    if c.utf8Size ≤ n + 1 then dropBytes? (n + 1 - c.utf8Size) cs else none

@[simp] theorem byteLength_nil : byteLength [] = 0 := rfl

@[simp] theorem byteLength_cons (c : Char) (cs : List Char) :
    byteLength (c :: cs) = c.utf8Size + byteLength cs := rfl

@[simp] theorem byteLength_append (as bs : List Char) :
    byteLength (as ++ bs) = byteLength as + byteLength bs := by
  induction as with
  | nil => simp
  | cons a as ih => simp [ih, Nat.add_assoc]

/-- Cutting after the bytes of `as` gives `as`. -/
theorem takeBytes?_append (as bs : List Char) :
    takeBytes? (byteLength as) (as ++ bs) = some as := by
  induction as with
  | nil => cases bs <;> rfl
  | cons a as ih =>
    obtain ⟨k, hk⟩ : ∃ k, a.utf8Size + byteLength as = k + 1 :=
      ⟨a.utf8Size + byteLength as - 1, by have := a.utf8Size_pos; omega⟩
    have hle : a.utf8Size ≤ k + 1 := by omega
    have hsub : k + 1 - a.utf8Size = byteLength as := by omega
    simp only [byteLength_cons, List.cons_append, hk, takeBytes?, if_pos hle, hsub, ih,
      Option.map_some]

/-- Cutting after the bytes of `as` leaves `bs`. -/
theorem dropBytes?_append (as bs : List Char) :
    dropBytes? (byteLength as) (as ++ bs) = some bs := by
  induction as with
  | nil => cases bs <;> rfl
  | cons a as ih =>
    obtain ⟨k, hk⟩ : ∃ k, a.utf8Size + byteLength as = k + 1 :=
      ⟨a.utf8Size + byteLength as - 1, by have := a.utf8Size_pos; omega⟩
    have hle : a.utf8Size ≤ k + 1 := by omega
    have hsub : k + 1 - a.utf8Size = byteLength as := by omega
    simp only [byteLength_cons, List.cons_append, hk, dropBytes?, if_pos hle, hsub, ih]

/-- A range of byte offsets: `start` is its first byte, `stop` the byte after its last. -/
structure Span where
  start : Nat
  stop : Nat
  deriving DecidableEq, Repr

namespace Span

/-- The span of no bytes at an offset. -/
def emptyAt (offset : Nat) : Span := ⟨offset, offset⟩

/-- Number of bytes covered; a reversed span covers none. -/
def length (s : Span) : Nat := s.stop - s.start

/-- Whether the span covers no byte. -/
def isEmpty (s : Span) : Bool := decide (s.stop ≤ s.start)

/-- The least span that covers both. -/
def merge (a b : Span) : Span := ⟨min a.start b.start, max a.stop b.stop⟩

/-- The characters a span covers, or none when it is reversed, reaches past the end of the text or
cuts a character. -/
def slice (s : Span) (text : List Char) : List Char :=
  if s.start ≤ s.stop then
    ((dropBytes? s.start text).bind (takeBytes? s.length)).getD []
  else []

/-- A span that starts after `before` and covers `middle` slices out `middle`. -/
theorem slice_append (before middle after : List Char) :
    (Span.mk (byteLength before) (byteLength before + byteLength middle)).slice
      (before ++ (middle ++ after)) = middle := by
  simp [slice, length, dropBytes?_append, takeBytes?_append]

end Span

end SchemaToFlow.Text
