import Mathlib.Data.List.TakeWhile
import SchemaToFlow.Command.Run
import SchemaToFlow.Proofs.Findings

/-!
# Positions of findings

A finding is shown with the line and the column where its token starts. Lines are counted here from
the front, by the offsets of all line feeds of the text (`lineFeeds`), while `position` looks back
from the offset.

* `marks_endPosition`: the two agree on every offset between two characters, so the offset is where
  its line starts plus the bytes before its column.
* `position_lt_iff`: an offset further on has a position further down or to the right.
* `positions_exact`: tokens start between characters, so both hold of what is shown for a finding.
-/

namespace SchemaToFlow

namespace Text

/-! ## Line feeds -/

/-- The offsets of the line feeds of a text that starts at an offset. -/
def lineFeedsFrom : Nat → List Char → List Nat
  | _, [] => []
  | offset, c :: cs =>
    if c = '\n' then offset :: lineFeedsFrom (offset + c.utf8Size) cs
    else lineFeedsFrom (offset + c.utf8Size) cs

/-- The offsets of the line feeds of a text. -/
def lineFeeds (text : List Char) : List Nat := lineFeedsFrom 0 text

/-- The offsets where the lines of a text start: the first at its front, the others behind a line
feed. -/
def lineStarts (text : List Char) : List Nat := 0 :: (lineFeeds text).map (· + 1)

theorem lineFeedsFrom_append (offset : Nat) (as bs : List Char) :
    lineFeedsFrom offset (as ++ bs) =
      lineFeedsFrom offset as ++ lineFeedsFrom (offset + byteLength as) bs := by
  induction as generalizing offset with
  | nil => rfl
  | cons c as ih => by_cases hc : c = '\n' <;> simp [lineFeedsFrom, hc, ih, Nat.add_assoc]

theorem length_lineFeedsFrom (offset : Nat) (cs : List Char) :
    (lineFeedsFrom offset cs).length = cs.count '\n' := by
  induction cs generalizing offset with
  | nil => rfl
  | cons c cs ih => by_cases hc : c = '\n' <;> simp [lineFeedsFrom, hc, ih]

theorem mem_lineFeedsFrom {offset k : Nat} {cs : List Char} (h : k ∈ lineFeedsFrom offset cs) :
    offset ≤ k ∧ k < offset + byteLength cs := by
  induction cs generalizing offset with
  | nil => cases h
  | cons c cs ih =>
    have hsize := c.utf8Size_pos
    rw [byteLength_cons]
    rw [lineFeedsFrom] at h
    split at h
    · rcases List.mem_cons.1 h with rfl | h
      · omega
      · have := ih h
        omega
    · have := ih h
      omega

/-- Only the line feeds in front of an offset stand before it. -/
theorem countP_lineFeeds (before after : List Char) :
    (lineFeeds (before ++ after)).countP (· < byteLength before) = before.count '\n' := by
  have hbefore : ∀ k ∈ lineFeedsFrom 0 before, decide (k < byteLength before) = true := by
    intro k hk
    have := mem_lineFeedsFrom hk
    exact decide_eq_true (by omega)
  have hafter : ∀ k ∈ lineFeedsFrom (0 + byteLength before) after,
      ¬ decide (k < byteLength before) = true := by
    intro k hk
    have := mem_lineFeedsFrom hk
    exact fun hlt => by have := of_decide_eq_true hlt; omega
  rw [lineFeeds, lineFeedsFrom_append, List.countP_append, List.countP_eq_length.2 hbefore,
    List.countP_eq_zero.2 hafter, length_lineFeedsFrom, Nat.add_zero]

/-! ## The last line -/

theorem ne_of_mem_reverse {cs : List Char} (h : '\n' ∉ cs) :
    ∀ c ∈ cs.reverse, decide (c ≠ '\n') = true := by
  intro c hc
  refine decide_eq_true fun heq => h ?_
  rwa [← heq, ← List.mem_reverse]

theorem lastLine_of_notMem {cs : List Char} (h : '\n' ∉ cs) : lastLine cs = cs := by
  rw [lastLine, List.takeWhile_eq_self_iff.2 (ne_of_mem_reverse h), List.reverse_reverse]

theorem lastLine_append_cons {v : List Char} (h : '\n' ∉ v) (u : List Char) :
    lastLine (u ++ '\n' :: v) = v := by
  rw [lastLine, List.reverse_append, List.reverse_cons, List.append_assoc,
    List.takeWhile_append_of_pos (ne_of_mem_reverse h)]
  simp

/-- A text is one line, or there is a last line feed in it. -/
theorem lines_cases (cs : List Char) :
    '\n' ∉ cs ∨ ∃ u v, cs = u ++ '\n' :: v ∧ '\n' ∉ v := by
  by_cases h : '\n' ∈ cs
  · obtain ⟨v, u, hsplit, hv⟩ := List.eq_append_cons_of_mem (List.mem_reverse.2 h)
    refine .inr ⟨u.reverse, v.reverse, ?_, fun hmem => hv (List.mem_reverse.1 hmem)⟩
    simpa using congrArg List.reverse hsplit
  · exact .inl h

/-- What has no line feed goes on with the last line. -/
theorem lastLine_append {mid : List Char} (h : '\n' ∉ mid) (cs : List Char) :
    lastLine (cs ++ mid) = lastLine cs ++ mid := by
  rcases lines_cases cs with hcs | ⟨u, v, rfl, hv⟩
  · rw [lastLine_of_notMem hcs, lastLine_of_notMem (by simp [hcs, h])]
  · rw [List.append_assoc, List.cons_append, lastLine_append_cons hv,
      lastLine_append_cons (by simp [hv, h])]

/-! ## Positions and offsets -/

/-- The position is that of an offset: it counts the line feeds before the offset, and the bytes
from the start of the line to the offset, both from one. -/
structure Position.Marks (p : Position) (text : List Char) (offset : Nat) : Prop where
  line : p.line - 1 = (lineFeeds text).countP (· < offset)
  column : ∃ start, (lineStarts text)[p.line - 1]? = some start ∧ start + (p.column - 1) = offset
  positive : 1 ≤ p.line ∧ 1 ≤ p.column

/-- The position is on an earlier line, or on the same line further left. -/
def Position.Before (p q : Position) : Prop :=
  p.line < q.line ∨ p.line = q.line ∧ p.column < q.column

/-- The line of a place starts behind the last line feed before it. -/
theorem lineStarts_count (before after : List Char) :
    ∃ start, (lineStarts (before ++ after))[before.count '\n']? = some start ∧
      start + byteLength (lastLine before) = byteLength before := by
  rcases lines_cases before with hone | ⟨u, v, rfl, hv⟩
  · refine ⟨0, ?_, ?_⟩
    · rw [List.count_eq_zero.2 hone]
      rfl
    · rw [lastLine_of_notMem hone, Nat.zero_add]
  · have hcount : (u ++ '\n' :: v).count '\n' = (lineFeedsFrom 0 u).length + 1 := by
      rw [length_lineFeedsFrom, List.count_append, List.count_cons_self, List.count_eq_zero.2 hv]
    refine ⟨byteLength u + 1, ?_, ?_⟩
    · rw [hcount, lineStarts, lineFeeds, List.append_assoc, lineFeedsFrom_append, List.cons_append,
        lineFeedsFrom, if_pos rfl]
      simp
    · rw [lastLine_append_cons hv, byteLength_append, byteLength_cons]
      show byteLength u + 1 + byteLength v = byteLength u + (1 + byteLength v)
      omega

theorem marks_endPosition (before after : List Char) :
    (endPosition before).Marks (before ++ after) (byteLength before) where
  line := (countP_lineFeeds before after).symm
  column := lineStarts_count before after
  positive := ⟨Nat.succ_pos _, Nat.succ_pos _⟩

/-- **Step.** More text moves the position on. -/
theorem before_endPosition {mid : List Char} (h : mid ≠ []) (cs : List Char) :
    (endPosition cs).Before (endPosition (cs ++ mid)) := by
  unfold Position.Before endPosition
  by_cases hline : '\n' ∈ mid
  · have hcount : 0 < mid.count '\n' := List.count_pos_iff.2 hline
    rw [List.count_append]
    exact .inl (by dsimp only; omega)
  · have hlength := Schema.byteLength_pos h
    rw [List.count_append, List.count_eq_zero.2 hline, lastLine_append hline, byteLength_append]
    exact .inr ⟨rfl, by dsimp only; omega⟩

theorem Position.not_before_self (p : Position) : ¬ p.Before p := by
  unfold Before
  omega

theorem Position.Before.asymm {p q : Position} (h : p.Before q) : ¬ q.Before p := by
  unfold Before at h ⊢
  omega

section Offsets

variable {source : String} {offset offset' : Nat}

/-- An offset between two characters cuts the text in two. -/
theorem exists_append_of_isValid (h : String.Pos.Raw.IsValid source ⟨offset⟩) :
    ∃ before after, source.toList = before ++ after ∧ byteLength before = offset := by
  obtain ⟨s, t, rfl, hpos⟩ := String.Pos.Raw.isValid_iff_exists_append.1 h
  refine ⟨s.toList, t.toList, String.toList_append, ?_⟩
  rw [Schema.byteLength_toList]
  exact (congrArg String.Pos.Raw.byteIdx hpos).symm

theorem position_append (before after : List Char) :
    position (before ++ after) (byteLength before) = endPosition before := by
  rw [position, takeBytes?_append, Option.getD_some]

theorem before_position (h : String.Pos.Raw.IsValid source ⟨offset⟩)
    (h' : String.Pos.Raw.IsValid source ⟨offset'⟩) (hlt : offset < offset') :
    (position source.toList offset).Before (position source.toList offset') := by
  obtain ⟨before, after, hsplit, rfl⟩ := exists_append_of_isValid h
  obtain ⟨before', after', hsplit', rfl⟩ := exists_append_of_isValid h'
  have hposition : position source.toList (byteLength before) = endPosition before := by
    rw [hsplit, position_append]
  have hposition' : position source.toList (byteLength before') = endPosition before' := by
    rw [hsplit', position_append]
  rw [hposition, hposition']
  -- of two parts at the front of one text, the longer one goes on from the shorter one
  rcases List.prefix_or_prefix_of_prefix ⟨after, hsplit.symm⟩ ⟨after', hsplit'.symm⟩ with
    ⟨mid, rfl⟩ | ⟨mid, rfl⟩
  · refine before_endPosition (fun hnil => ?_) before
    rw [hnil, List.append_nil] at hlt
    exact Nat.lt_irrefl _ hlt
  · rw [byteLength_append] at hlt
    omega

theorem position_lt_iff (h : String.Pos.Raw.IsValid source ⟨offset⟩)
    (h' : String.Pos.Raw.IsValid source ⟨offset'⟩) :
    (position source.toList offset).Before (position source.toList offset') ↔ offset < offset' := by
  refine ⟨fun hbefore => ?_, before_position h h'⟩
  rcases Nat.lt_trichotomy offset offset' with hlt | rfl | hgt
  · exact hlt
  · exact absurd hbefore (Position.not_before_self _)
  · exact absurd (before_position h' h hgt) hbefore.asymm

theorem position_inj (h : String.Pos.Raw.IsValid source ⟨offset⟩)
    (h' : String.Pos.Raw.IsValid source ⟨offset'⟩) :
    position source.toList offset = position source.toList offset' ↔ offset = offset' := by
  refine ⟨fun heq => ?_, fun heq => by rw [heq]⟩
  rcases Nat.lt_trichotomy offset offset' with hlt | rfl | hgt
  · have hbefore := before_position h h' hlt
    rw [heq] at hbefore
    exact absurd hbefore (Position.not_before_self _)
  · rfl
  · have hbefore := before_position h' h hgt
    rw [heq] at hbefore
    exact absurd hbefore (Position.not_before_self _)

end Offsets

end Text

namespace Command

open Text Schema

/-- The token that a finding is about starts between two characters. -/
theorem exists_primary_of_finding {source : String} {d : Diagnostic}
    (hd : d ∈ (parse source).report.entries) :
    ∃ span, d.primary? = some span ∧ String.Pos.Raw.IsValid source ⟨span.start⟩ := by
  have hsteps : (State.start source).Steps (Reader.document (State.start source)).2 :=
    Reader.Stepwise.steps _
  obtain ⟨t, ht, hpointed, _⟩ :=
    (hsteps.orderly (State.fits_start source) (State.orderly_start source)).pointed d hd
  obtain ⟨message, _, hlabels⟩ := hpointed.label
  refine ⟨t.span, ?_, (cutFrom_of_mem_tokenize source t ht).valid.1⟩
  rw [Diagnostic.primary?, hlabels]
  rfl

/-- **The positions of findings are exact.**

* A finding about a source is shown with the position of the offset where its label starts, which
  is an offset between two characters of the source.
* At such an offset the text can be cut. Its position counts the line feeds before it, and where
  that line starts plus the bytes before the column is the offset again.
* So offsets differ exactly if their positions do, and one that is further on has a position further
  down or, on the same line, further right. -/
theorem positions_exact (source : String) :
    (∀ d ∈ (parse source).report.entries, ∃ span, d.primary? = some span ∧
      String.Pos.Raw.IsValid source ⟨span.start⟩ ∧
      ∀ path, describe path source d =
        path ++ ":" ++ toString (position source.toList span.start).line ++ ":" ++
          toString (position source.toList span.start).column ++ ": " ++ d.render) ∧
    (∀ offset, String.Pos.Raw.IsValid source ⟨offset⟩ →
      takeBytes? offset source.toList ≠ none ∧
        (position source.toList offset).Marks source.toList offset) ∧
    ∀ offset offset', String.Pos.Raw.IsValid source ⟨offset⟩ →
      String.Pos.Raw.IsValid source ⟨offset'⟩ →
      (position source.toList offset = position source.toList offset' ↔ offset = offset') ∧
      ((position source.toList offset).Before (position source.toList offset') ↔
        offset < offset') := by
  refine ⟨fun d hd => ?_, fun offset h => ?_, fun offset offset' h h' =>
    ⟨position_inj h h', position_lt_iff h h'⟩⟩
  · obtain ⟨span, hspan, hvalid⟩ := exists_primary_of_finding hd
    refine ⟨span, hspan, hvalid, fun path => ?_⟩
    rw [describe, hspan]
  · obtain ⟨before, after, hsplit, rfl⟩ := exists_append_of_isValid h
    rw [hsplit, takeBytes?_append, position_append]
    exact ⟨Option.some_ne_none before, marks_endPosition before after⟩

/-- Behind a character of two bytes, at the start of a line, and at the end of the source. -/
example : let source := "type é\n\x7d type"
    (parse source).report.entries.map (fun d => d.primary?.map fun span =>
      (span.start, position source.toList span.start)) =
        [some (5, ⟨1, 6⟩), some (8, ⟨2, 1⟩), some (14, ⟨2, 7⟩)] := by
  decide +kernel

end Command

end SchemaToFlow
