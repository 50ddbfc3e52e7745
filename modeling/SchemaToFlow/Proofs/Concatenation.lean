import SchemaToFlow.Proofs.Roundtrip
import SchemaToFlow.Proofs.Seam
import SchemaToFlow.Proofs.Tiling

/-!
# One schema after another

Two sources are joined by a line feed, which ends a comment and belongs to no other token.

* `lexeme_append`: a token that is no invalid one is not changed by a blank after it, so the tokens
  of the joined source are those of the first and those of the second, moved (`start_append`).
* `Transport.join`: reading the second source after the first moves its places, numbers its names in
  a table that has names already, and adds its findings to those that were made.
* `parse_append`: the document of the joined source has the definitions of both, and its findings are
  those of both, if the first has no errors and no token that goes on with it follows.
-/

namespace SchemaToFlow.Schema

open Text Computability

/-! ## Tokens before a blank -/

section Lexeme

variable {b : Char}

theorem takeWhile_append_cons {p : Char → Bool} (hb : p b = false) (cs rest : List Char) :
    (cs ++ b :: rest).takeWhile p = cs.takeWhile p := by
  induction cs with
  | nil => rw [List.nil_append, List.takeWhile_cons, hb]; rfl
  | cons c cs ih => rw [List.cons_append, List.takeWhile_cons, List.takeWhile_cons, ih]

theorem digitCount_le (cs : List Char) : digitCount cs ≤ cs.length :=
  (List.takeWhile_sublist _).length_le

theorem fractionLength_le (cs : List Char) : fractionLength cs ≤ cs.length := by
  cases cs with
  | nil => exact Nat.le_refl _
  | cons c cs =>
    have hdigits := digitCount_le cs
    rw [fractionLength, List.length_cons]
    split <;> omega

theorem signLength_le (cs : List Char) : signLength cs ≤ cs.length := by
  cases cs with
  | nil => exact Nat.le_refl _
  | cons c cs =>
    rw [signLength, List.length_cons]
    split <;> omega

theorem exponentLength_le (cs : List Char) : exponentLength cs ≤ cs.length := by
  cases cs with
  | nil => exact Nat.le_refl _
  | cons c cs =>
    have hsign := signLength_le cs
    have hdigits := digitCount_le (cs.drop (signLength cs))
    rw [List.length_drop] at hdigits
    rw [exponentLength, List.length_cons]
    split <;> omega

section Blank

variable (hb : isBlank b = true) (cs rest : List Char)

include hb

theorem digitCount_append : digitCount (cs ++ b :: rest) = digitCount cs := by
  have hdigit : b.isDigit = false := by
    by_contra hdigit
    exact ne_of_isBlank hb (isBlank_of_isDigit (Bool.not_eq_false _ ▸ hdigit)) rfl
  rw [digitCount, digitCount, takeWhile_append_cons hdigit]

theorem fractionLength_append : fractionLength (cs ++ b :: rest) = fractionLength cs := by
  cases cs with
  | nil =>
    have hpoint : b ≠ '.' := ne_of_isBlank hb (by decide)
    simp [fractionLength, hpoint]
  | cons c cs =>
    rw [List.cons_append, fractionLength, fractionLength, digitCount_append hb]

theorem signLength_append : signLength (cs ++ b :: rest) = signLength cs := by
  cases cs with
  | nil =>
    have hplus : b ≠ '+' := ne_of_isBlank hb (by decide)
    have hminus : b ≠ '-' := ne_of_isBlank hb (by decide)
    simp [signLength, hplus, hminus]
  | cons c cs => rfl

theorem exponentLength_append : exponentLength (cs ++ b :: rest) = exponentLength cs := by
  cases cs with
  | nil =>
    have he : b ≠ 'e' := ne_of_isBlank hb (by decide)
    have hE : b ≠ 'E' := ne_of_isBlank hb (by decide)
    simp [exponentLength, he, hE]
  | cons c cs =>
    rw [List.cons_append, exponentLength, exponentLength, signLength_append hb,
      List.drop_append_of_le_length (signLength_le cs), digitCount_append hb]

theorem numeral_append (c : Char) : numeral c (cs ++ b :: rest) = numeral c cs := by
  have hwhole := digitCount_append hb cs rest
  have hfraction : fractionLength ((cs ++ b :: rest).drop (digitCount cs)) =
      fractionLength (cs.drop (digitCount cs)) := by
    rw [List.drop_append_of_le_length (digitCount_le cs), fractionLength_append hb]
  have hle : digitCount cs + fractionLength (cs.drop (digitCount cs)) ≤ cs.length := by
    have hdigits := digitCount_le cs
    have hpoint := fractionLength_le (cs.drop (digitCount cs))
    rw [List.length_drop] at hpoint
    omega
  unfold numeral
  dsimp only
  rw [hwhole, hfraction, List.drop_append_of_le_length hle, exponentLength_append hb]

theorem word_append (c : Char) : word c (cs ++ b :: rest) = word c cs := by
  unfold word
  rw [takeWhile_append_cons (isNamePart_of_isBlank hb)]

/-- **A blank ends every token**, except one that is invalid. -/
theorem lexeme_append {c : Char} {cs : List Char} (h : (lexeme c cs).1 ≠ .invalid)
    (rest : List Char) : lexeme c (cs ++ b :: rest) = lexeme c cs := by
  unfold lexeme at h ⊢
  rw [numeral_append hb, word_append hb]
  split
  · rename_i hquote
    rw [if_pos hquote] at h
    exact quoted_append h (ne_of_isBlank hb (by decide)) rest
  · rfl

end Blank

theorem stringTail_le (cs : List Char) : (stringTail cs).2 ≤ cs.length := by
  fun_induction stringTail cs with
  | case1 => exact Nat.le_refl _
  | case2 => exact Nat.zero_le _
  | case3 => exact Nat.le_add_left _ _
  | case4 _ _ ih => exact Nat.add_le_add_right ih 2
  | case5 _ _ _ _ _ ih => exact Nat.add_le_add_right ih 1

theorem blockTail_le (cs : List Char) : (blockTail cs).2 ≤ cs.length := by
  fun_induction blockTail cs with
  | case1 => exact Nat.le_refl _
  | case2 => exact Nat.le_add_left _ _
  | case3 _ ih => exact Nat.add_le_add_right ih 4
  | case4 _ _ _ _ ih => exact Nat.add_le_add_right ih 1

/-- A token does not reach past the end of the text. -/
theorem lexeme_le (c : Char) (cs : List Char) : (lexeme c cs).2 ≤ cs.length := by
  unfold lexeme
  split
  · unfold quoted
    split
    · exact Nat.add_le_add_right (blockTail_le _) 2
    · exact stringTail_le cs
  split
  · have hdigits := digitCount_le cs
    have hpoint := fractionLength_le (cs.drop (digitCount cs))
    have hexponent := exponentLength_le
      (cs.drop (digitCount cs + fractionLength (cs.drop (digitCount cs))))
    rw [List.length_drop] at hpoint hexponent
    unfold numeral
    dsimp only
    split
    · exact Nat.zero_le _
    · split <;> dsimp only <;> omega
  split
  · unfold word
    dsimp only
    split <;> exact (List.takeWhile_sublist _).length_le
  · split <;> exact Nat.zero_le _

end Lexeme

/-! ## Tokens of joined texts -/

namespace Cursor

/-- The same place in a longer text. -/
def extended (c : Cursor) (more : List Char) : Cursor := ⟨c.offset, c.rest ++ more⟩

/-- The same text at a place further on. -/
def moved (c : Cursor) (k : Nat) : Cursor := ⟨c.offset + k, c.rest⟩

theorem skip_add (c : Cursor) (m n : Nat) : c.skip (m + n) = (c.skip m).skip n := by
  unfold skip
  rw [List.take_add, byteLength_append, List.drop_drop, Nat.add_assoc]

/-- **Step.** Where no token is left, reading goes on behind a line feed. -/
theorem next?_extended_of_none {c : Cursor} (h : c.next? = none) (ds : List Char) :
    (c.extended ('\n' :: ds)).next? = next? ⟨c.offset + byteLength c.rest + 1, ds⟩ := by
  have hline : gapLength false (c.extended ('\n' :: ds)).rest =
      c.rest.length + (1 + gapLength false ds) := by
    show gapLength false (c.rest ++ '\n' :: ds) = _
    rw [gapLength_of_gap (gap_of_next? h) fun _ => ⟨ds, rfl⟩, Nat.add_comm 1]
    rfl
  have hmid : ((c.extended ('\n' :: ds)).skip c.rest.length).skip 1 =
      ⟨c.offset + byteLength c.rest + 1, ds⟩ := by
    unfold skip extended
    dsimp only
    rw [List.take_left, List.drop_left]
    rfl
  rw [next?, next?, skipGap, hline, skip_add, skip_add, hmid]
  rfl

/-- **Step.** Before a line feed the next token is the same. -/
theorem next?_extended_of_some {c c' : Cursor} {t : Token} (h : c.next? = some (t, c'))
    (ht : t.kind ≠ .invalid) (ds : List Char) :
    (c.extended ('\n' :: ds)).next? = some (t, c'.extended ('\n' :: ds)) := by
  obtain ⟨gap, ch, cs, hc, hgap, hblank, hhash, rfl, rfl⟩ := exists_lexeme_of_next? h
  have hrest : (c.extended ('\n' :: ds)).rest = gap ++ ch :: (cs ++ '\n' :: ds) := by
    show c.rest ++ '\n' :: ds = _
    rw [hc, List.append_assoc, List.cons_append]
  have hle := lexeme_le ch cs
  rw [next?_of_gap hgap hblank hhash hrest, lexeme_append rfl ht,
    List.take_append_of_le_length hle, List.drop_append_of_le_length hle]
  rfl

theorem tokens_congr {c d : Cursor} (h : c.next? = d.next?) : c.tokens = d.tokens := by
  cases hd : d.next? with
  | none => rw [tokens_of_none hd, tokens_of_none (h.trans hd)]
  | some p => rw [tokens_of_some hd, tokens_of_some (h.trans hd)]

/-- Where the text ends does not change. -/
theorem finish_next? {c c' : Cursor} {t : Token} (h : c.next? = some (t, c')) :
    c'.offset + byteLength c'.rest = c.offset + byteLength c.rest := by
  obtain ⟨gap, ch, cs, hc, _, _, _, _, rfl⟩ := exists_lexeme_of_next? h
  have hcut : ch :: cs = (ch :: cs.take (lexeme ch cs).2) ++ cs.drop (lexeme ch cs).2 := by
    rw [List.cons_append, List.take_append_drop]
  rw [hc, hcut, byteLength_append, byteLength_append]
  dsimp only
  omega

/-- **Run.** Without invalid tokens, the tokens of a text and of what follows behind a line feed. -/
theorem tokens_extended (c : Cursor) (ds : List Char) (h : ∀ t ∈ c.tokens, t.kind ≠ .invalid) :
    (c.extended ('\n' :: ds)).tokens =
      c.tokens ++ tokens ⟨c.offset + byteLength c.rest + 1, ds⟩ := by
  fun_induction Cursor.tokens c with
  | case1 c hnone => exact tokens_congr (next?_extended_of_none hnone ds)
  | case2 c t c' hsome _ ih =>
    rw [List.forall_mem_cons] at h
    rw [tokens_of_some (next?_extended_of_some hsome h.1 ds), ih h.2, finish_next? hsome,
      List.cons_append]

theorem next?_moved (c : Cursor) (change : Change) {k : Nat} (h : change.place = (· + k)) :
    (c.moved k).next? = c.next?.map fun p => (recast change p.1, p.2.moved k) := by
  have hskip (c : Cursor) (n : Nat) : (c.moved k).skip n = (c.skip n).moved k := by
    unfold skip moved
    rw [Nat.add_right_comm]
  have htoken (c : Cursor) :
      (c.moved k).token? = c.token?.map fun p => (recast change p.1, p.2.moved k) := by
    have hspan (t : Token) :
        recast change t = { t with span := ⟨t.span.start + k, t.span.stop + k⟩ } := by
      show Token.mk t.kind ⟨change.place t.span.start, change.place t.span.stop⟩ t.text = _
      rw [h]
    cases hrest : c.rest with
    | nil =>
      have hrest' : (c.moved k).rest = [] := hrest
      rw [token?, token?, hrest, hrest']
      rfl
    | cons ch cs =>
      have hrest' : (c.moved k).rest = ch :: cs := hrest
      rw [token?, token?, hrest, hrest', Option.map_some, hspan]
      dsimp only
      rw [hskip]
      rfl
  rw [next?, next?, ← htoken, skipGap, skipGap, ← hskip]
  rfl

/-- The tokens of a text further on are the same, moved. -/
theorem tokens_moved (c : Cursor) (change : Change) {k : Nat} (h : change.place = (· + k)) :
    (c.moved k).tokens = recast change c.tokens := by
  fun_induction Cursor.tokens c with
  | case1 c hnone =>
    have hmoved := next?_moved c change h
    rw [hnone] at hmoved
    rw [tokens_of_none hmoved]
    rfl
  | case2 c t c' hsome _ ih =>
    have hmoved := next?_moved c change h
    rw [hsome] at hmoved
    rw [tokens_of_some hmoved, ih]
    rfl

end Cursor

/-- The state before two sources is that before the first, with the tokens of the second moved. -/
theorem start_append {a : String} (b : String) (h : ∀ t ∈ (State.start a).rest, t.kind ≠ .invalid)
    (change : Change) (hplace : change.place = (· + (byteLength a.toList + 1))) :
    State.start (a ++ "\n" ++ b) = (State.start a).followedBy
      (recast change (State.start b).rest) (change.place (State.start b).finish) := by
  have htext : (a ++ "\n" ++ b).toList = a.toList ++ '\n' :: b.toList := by
    rw [String.toList_append, String.toList_append, List.append_assoc]
    rfl
  have htokens : (Cursor.start (a ++ "\n" ++ b).toList).tokens =
      (Cursor.start a.toList).tokens ++ recast change (Cursor.start b.toList).tokens := by
    have hplaces : (⟨0 + byteLength a.toList + 1, b.toList⟩ : Cursor) =
        (Cursor.start b.toList).moved (byteLength a.toList + 1) := by
      unfold Cursor.start Cursor.moved
      rw [Nat.add_assoc]
    rw [htext, ← Cursor.tokens_moved _ change hplace, ← hplaces]
    exact Cursor.tokens_extended (Cursor.start a.toList) b.toList h
  have hfinish : byteLength (a ++ "\n" ++ b).toList = change.place (byteLength b.toList) := by
    have hline : '\n'.utf8Size = 1 := rfl
    rw [htext, hplace, byteLength_append, byteLength_cons, hline]
    dsimp only
    omega
  unfold State.start State.followedBy
  dsimp only
  rw [htokens, hfinish]

end SchemaToFlow.Schema

/-! ## Names of the one and names of the other -/

namespace SchemaToFlow

theorem isPrefix_foldl_addNew {α : Type} [DecidableEq α] :
    ∀ (bs as : List α), as <+: bs.foldl addNew as
  | [], as => List.prefix_rfl
  | b :: bs, as => by
    have hadd : as <+: addNew as b := by
      unfold addNew
      split
      · exact List.prefix_rfl
      · exact List.prefix_append _ _
    exact hadd.trans (isPrefix_foldl_addNew bs (addNew as b))

namespace NameTable

/-- The table with all names of another added. -/
def join (names t : NameTable) : NameTable :=
  ⟨t.names.foldl addNew names.names, nodup_foldl_addNew t.names names.nodup⟩

variable {names t T : NameTable} {n : String}

theorem join_add : names.join (t.add n) = (names.join t).add n := by
  have h : (addNew t.names n).foldl addNew names.names =
      addNew (t.names.foldl addNew names.names) n := by
    by_cases hn : n ∈ t.names
    · rw [addNew_of_mem hn, addNew_of_mem (mem_foldl_addNew.2 (.inr hn))]
    · rw [addNew_of_not_mem hn, List.foldl_append]
      rfl
  unfold join add
  congr 1

theorem join_prefix (h : t.names <+: T.names) : (names.join t).names <+: (names.join T).names := by
  obtain ⟨more, hmore⟩ := h
  show t.names.foldl addNew names.names <+: T.names.foldl addNew names.names
  rw [← hmore, List.foldl_append]
  exact isPrefix_foldl_addNew more _

/-- Names that are listed already are not added again. -/
theorem join_of_prefix (h : t.names <+: names.names) : names.join t = names := by
  have hnames : t.names.foldl addNew names.names = names.names :=
    foldl_addNew_of_subset fun _ hb => h.mem hb
  obtain ⟨list, nodup⟩ := names
  unfold join
  congr 1

/-- The number of a listed name stands for the name. -/
theorem text_intern_of_mem (h : n ∈ T.names) : T.text (T.intern n).1 = n :=
  Schema.text_intern (List.idxOf_lt_length_of_mem h)

theorem text_of_prefix (h : t.names <+: T.names) {id : NameId} (hid : id.index < t.size) :
    T.text id = t.text id := by
  obtain ⟨more, hmore⟩ := h
  unfold text
  rw [← hmore, List.getElem?_append_left hid]

theorem text_mem {id : NameId} (hid : id.index < t.size) : t.text id ∈ t.names := by
  unfold text
  rw [List.getElem?_eq_getElem hid]
  exact List.getElem_mem hid

end NameTable

namespace Schema

open Text Computability

/-- Moves what is read from its own place, with its own names, to a place where there are names and
findings already. -/
def Transport.join (names : NameTable) (report : Report) (k : Nat) (final : NameTable) :
    Transport :=
  let change : Change := ⟨fun id => ((names.join final).intern (final.text id)).1, (· + k)⟩
  { change := change
    table := names.join
    report := fun r => ⟨report.entries ++ recast change r.entries⟩
    final := final
    place_max := fun a b => (Nat.add_max_add_right a b k).symm
    table_add := fun _ _ => NameTable.join_add
    number_intern := fun t n h => by
      have hfinal : (t.intern n).1 = (final.intern n).1 := NameTable.intern_of_prefix h
      have hlisted : n ∈ final.names := h.mem (mem_addNew.2 (.inr rfl))
      have hjoined : ((names.join t).add n).names <+: (names.join final).names := by
        rw [← NameTable.join_add]
        exact NameTable.join_prefix h
      show ((names.join final).intern (final.text (t.intern n).1)).1 = _
      rw [hfinal, NameTable.text_intern_of_mem hlisted, NameTable.intern_of_prefix hjoined]
    report_add := fun r d => by
      show Report.mk (report.entries ++ (r.entries ++ [d]).map (recast change)) =
        Report.mk (report.entries ++ r.entries.map (recast change) ++ [recast change d])
      rw [List.map_append, List.append_assoc]
      rfl }

/-! ## Reading one schema after another -/

/-- What starts a definition does not go on with one. -/
theorem notMem_afterDefinition {k : TokenKind} (h : Reader.startsDefinition k = true) :
    k ∉ Reader.afterDefinition := by
  intro hk
  have hstarts : ∀ k ∈ Reader.afterDefinition, Reader.startsDefinition k = false := by decide
  rw [hstarts k hk] at h
  cases h

theorem stops_start {b : String}
    (hb : ∀ t ∈ (tokenize b).head?, t.kind = .endOfInput ∨ Reader.startsDefinition t.kind = true)
    (change : Change) : Stops Reader.afterDefinition (recast change (State.start b).rest) := by
  have hkinds : ∀ t ∈ (State.start b).rest, t.kind ≠ .endOfInput := (tiles_start b).kind_ne
  have hhead : ∀ t ∈ (State.start b).rest.head?,
      t.kind = .endOfInput ∨ Reader.startsDefinition t.kind = true := by
    intro t ht
    refine hb t ?_
    show t ∈ ((State.start b).rest ++ [_]).head?
    rw [List.head?_append, ht]
    rfl
  cases hrest : (State.start b).rest with
  | nil => exact stops_nil _
  | cons t ts =>
    rw [hrest] at hhead hkinds
    refine stops_cons.2 (notMem_afterDefinition ((hhead t rfl).resolve_left ?_))
    exact hkinds t List.mem_cons_self

/-- The change of names and places of a schema that is read after another. -/
def changeAfter (a b : String) : Transport :=
  .join (parse a).names (parse a).report (byteLength a.toList + 1) (parse b).names

section Append

variable {a b : String}

/-- Reading the second schema after the first is reading it by itself, moved. -/
theorem definitions_changeAfter (a b : String) :
    Reader.definitions ((changeAfter a b).state (State.start b)) =
      (recast (changeAfter a b).change (Reader.definitions (State.start b)).1,
        (changeAfter a b).state (Reader.definitions (State.start b)).2) :=
  Reader.follows_definitionOrSkip.many
    (fun s => congrArg not ((changeAfter a b).atEnd_state s)) (State.start b) List.prefix_rfl

/-- What follows the first schema is the second, moved. -/
theorem state_changeAfter (a b : String) :
    (Reader.definitions (State.start a)).2.followedBy
        (recast (changeAfter a b).change (State.start b).rest)
        ((changeAfter a b).change.place (State.start b).finish) =
      ((changeAfter a b).state (State.start b)).stoppedAt
        (Reader.definitions (State.start a)).2.lastStop := by
  have hrest : (Reader.definitions (State.start a)).2.rest = [] :=
    Reader.rest_document_eq_nil (State.start a)
  have hnames : (parse a).names.join NameTable.initial = (parse a).names :=
    NameTable.join_of_prefix (Reader.Forward.leads (r := Reader.document) (State.start a)).names
  have hreport : (changeAfter a b).report Report.empty = (parse a).report := by
    show Report.mk ((parse a).report.entries ++ []) = _
    rw [List.append_nil]
  unfold State.followedBy State.stoppedAt Transport.state
  rw [hrest, State.mk.injEq]
  exact ⟨rfl, rfl, rfl, hnames.symm, hreport.symm⟩

theorem definitions_append (ha : (parse a).report.hasErrors = false)
    (hb : ∀ t ∈ (tokenize b).head?, t.kind = .endOfInput ∨ Reader.startsDefinition t.kind = true) :
    ∃ stop, Reader.definitions (State.start (a ++ "\n" ++ b)) =
      ((Reader.definitions (State.start a)).1 ++
          recast (changeAfter a b).change (Reader.definitions (State.start b)).1,
        ((changeAfter a b).state (Reader.definitions (State.start b)).2).stoppedAt stop) := by
  have hclean : (Reader.definitions (State.start a)).2.Clean := ha
  have hstart : (State.start a).Clean := rfl
  have hvalid : ∀ t ∈ (State.start a).rest, t.kind ≠ .invalid := fun t ht =>
    (Grammar.Proper.le ((Reader.clean_document_iff hstart).1 ha) t ht).2
  obtain ⟨stop, hstop⟩ := Reader.definitions_stoppedAt ((changeAfter a b).state (State.start b))
    (Reader.definitions (State.start a)).2.lastStop
  refine ⟨stop, ?_⟩
  rw [start_append b hvalid (changeAfter a b).change rfl,
    Reader.definitions_followedBy (stops_start hb _) _ _ _ (Nat.le_refl _) hclean,
    state_changeAfter, hstop, definitions_changeAfter]

end Append

/-- **One schema after another.** If a source has no errors, and what follows it behind a line feed
starts with a token that can start a definition, or has no tokens, then both are read as if by
themselves: the definitions and findings of the first come first, and those of the second follow,
with all places moved by the length of the first and the line feed. Names may have other numbers then,
and these stand for the same texts. -/
theorem parse_append (a b : String) (ha : (parse a).report.hasErrors = false)
    (hb : ∀ t ∈ (tokenize b).head?, t.kind = .endOfInput ∨ Reader.startsDefinition t.kind = true) :
    ∃ number : NameId → NameId,
      (parse (a ++ "\n" ++ b)).document.definitions = (parse a).document.definitions ++
        recast ⟨number, (· + (a.utf8ByteSize + 1))⟩ (parse b).document.definitions ∧
      (parse (a ++ "\n" ++ b)).report.entries = (parse a).report.entries ++
        recast ⟨number, (· + (a.utf8ByteSize + 1))⟩ (parse b).report.entries ∧
      (∀ id ∈ (parse a).document.nameIds,
        (parse (a ++ "\n" ++ b)).names.text id = (parse a).names.text id) ∧
      ∀ id ∈ (parse b).document.nameIds,
        (parse (a ++ "\n" ++ b)).names.text (number id) = (parse b).names.text id := by
  obtain ⟨stop, hjoined⟩ := definitions_append ha hb
  have hnames : (parse (a ++ "\n" ++ b)).names = (parse a).names.join (parse b).names :=
    congrArg (fun r : List (Option Definition) × State => r.2.names) hjoined
  rw [← byteLength_toList, hnames]
  refine ⟨(changeAfter a b).change.number, ?_, ?_, fun id hid => ?_, fun id hid => ?_⟩
  · have hlist := congrArg (fun r : List (Option Definition) × State => r.1.filterMap id) hjoined
    dsimp only at hlist
    rw [List.filterMap_append, ← recast_filterMap_id] at hlist
    exact hlist
  · exact congrArg (fun r : List (Option Definition) × State => r.2.report.entries) hjoined
  · exact NameTable.text_of_prefix (isPrefix_foldl_addNew _ _) (covers_parse a id hid)
  · exact NameTable.text_intern_of_mem
      (mem_foldl_addNew.2 (.inr (NameTable.text_mem (covers_parse b id hid))))

/-- A schema that ends where braces, or one more interface, could follow, and in a remark. -/
def headSource : String := "scalar Date\ntype Film implements Named @old # no fields yet"

/-- Definitions with errors and a warning, and names that the other schema has, too. -/
def tailSource : String :=
  "\"\"\"shown\"\"\" type Show implements Named \x7b date: Date! name String \x7d\n" ++
    "extend directive @old on SHELF\nunion Media = Film |"

theorem parse_headSource_append :
    (parse headSource).report.hasErrors = false ∧
      (∀ t ∈ (tokenize tailSource).head?,
        t.kind = .endOfInput ∨ Reader.startsDefinition t.kind = true) ∧
      ∃ number : NameId → NameId,
        (parse (headSource ++ "\n" ++ tailSource)).document.definitions =
          (parse headSource).document.definitions ++
            recast ⟨number, (· + (headSource.utf8ByteSize + 1))⟩
              (parse tailSource).document.definitions ∧
        (parse (headSource ++ "\n" ++ tailSource)).report.entries =
          (parse headSource).report.entries ++
            recast ⟨number, (· + (headSource.utf8ByteSize + 1))⟩
              (parse tailSource).report.entries ∧
        (∀ id ∈ (parse headSource).document.nameIds,
          (parse (headSource ++ "\n" ++ tailSource)).names.text id =
            (parse headSource).names.text id) ∧
        ∀ id ∈ (parse tailSource).document.nameIds,
          (parse (headSource ++ "\n" ++ tailSource)).names.text (number id) =
            (parse tailSource).names.text id := by
  have ha : (parse headSource).report.hasErrors = false := by decide +kernel
  have hb : ∀ t ∈ (tokenize tailSource).head?,
      t.kind = .endOfInput ∨ Reader.startsDefinition t.kind = true := by decide +kernel
  exact ⟨ha, hb, parse_append headSource tailSource ha hb⟩

end Schema

end SchemaToFlow
