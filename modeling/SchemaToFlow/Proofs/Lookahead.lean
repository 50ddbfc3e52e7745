import SchemaToFlow.Proofs.Progress

/-!
# One token of lookahead

A reader looks at the next token and at none after it. What it does therefore depends on the tokens it
takes and on the one after them, and every finding is about a token that was next when it was made.

* `Reader.Located`: every finding added is at a token still to be taken, or at the end mark.
* `Reader.Local`: more tokens at the end make no difference to a reader that stops before them. If it
  takes all that there were, then whatever follows them, the findings made before the last of them
  was taken are the same (`State.Past`).

Both are classes, found by instance search for readers made of others.
-/

set_option synthInstance.maxSize 1000

namespace SchemaToFlow.Schema

open Text

/-- The finding is about the token: its one label has the place of the token. -/
def Token.FlaggedBy (t : Token) (d : Diagnostic) : Prop :=
  ∃ severity code title message, d = .located severity code title t.span message

namespace State

/-- The tokens that are left and the end mark. -/
def ahead (s : State) : List Token := s.rest ++ [.endAt s.finish]

/-- The same state with more tokens at the end, and the end elsewhere. -/
def followedBy (s : State) (more : List Token) (finish : Nat) : State :=
  { s with rest := s.rest ++ more, finish := finish }

/-- Only some of the tokens `more` are left; `early` was reported before the first of them was next,
and what was reported since is about them. -/
structure Past (early : List Diagnostic) (more : List Token) (stop : Nat) (s : State) : Prop where
  rest : s.rest <:+ more
  finish : s.finish = stop
  report : ∃ late, s.report.entries = early ++ late ∧
    ∀ d ∈ late, ∃ t ∈ more ++ [.endAt stop], t.FlaggedBy d

theorem current_mem_ahead (s : State) : s.current ∈ s.ahead := by
  unfold current ahead
  cases s.rest with
  | nil => exact List.mem_singleton.2 rfl
  | cons t ts => exact List.mem_cons_self

section FollowedBy

variable {s : State} (more : List Token) (stop : Nat)

theorem past_followedBy (h : s.rest = []) :
    (s.followedBy more stop).Past s.report.entries more stop where
  rest := by
    show s.rest ++ more <:+ more
    rw [h]
    exact List.suffix_rfl
  finish := rfl
  report := ⟨[], (List.append_nil _).symm, fun _ hd => absurd hd List.not_mem_nil⟩

variable (h : s.rest ≠ [])

include h

theorem current_followedBy : (s.followedBy more stop).current = s.current := by
  obtain ⟨t, ts, hts⟩ := List.exists_cons_of_ne_nil h
  have hmore : (s.followedBy more stop).rest = t :: (ts ++ more) := congrArg (· ++ more) hts
  rw [current_of_rest hts, current_of_rest hmore]

theorem atEnd_followedBy : (s.followedBy more stop).atEnd = s.atEnd := by
  obtain ⟨t, ts, hts⟩ := List.exists_cons_of_ne_nil h
  show (s.rest ++ more).isEmpty = s.rest.isEmpty
  rw [hts]
  rfl

theorem sees_followedBy (k : TokenKind) : (s.followedBy more stop).sees k = s.sees k := by
  unfold sees
  rw [current_followedBy more stop h]

theorem before_followedBy (stops : List TokenKind) :
    (s.followedBy more stop).before stops = s.before stops := by
  unfold before
  rw [current_followedBy more stop h, atEnd_followedBy more stop h]

theorem advance_followedBy :
    (s.followedBy more stop).advance = s.advance.followedBy more stop := by
  have htail : (s.rest ++ more).tail = s.rest.tail ++ more := List.tail_append_of_ne_nil h
  unfold advance
  rw [current_followedBy more stop h]
  unfold followedBy
  dsimp only
  rw [htail]

end FollowedBy

end State

namespace Reader

open State

variable {α β : Type}

/-- Tokens are taken from the front, and every finding added is about a token that was still to be
taken, or about the end mark. -/
class Located (r : Reader α) : Prop where
  rest : ∀ s : State, (r s).2.rest <:+ s.rest
  finish : ∀ s : State, (r s).2.finish = s.finish
  report : ∀ s : State, ∃ late, (r s).2.report.entries = s.report.entries ++ late ∧
    ∀ d ∈ late, ∃ t ∈ s.ahead, t.FlaggedBy d

/-- What comes after the tokens shows only once they are all taken. -/
class Local (r : Reader α) : Prop extends Located r where
  stops : ∀ s : State, (r s).2.rest ≠ [] → ∀ more stop,
    r (s.followedBy more stop) = ((r s).1, (r s).2.followedBy more stop)
  ends : ∀ s : State, (r s).2.rest = [] → ∀ more stop more' stop', ∃ early,
    (r (s.followedBy more stop)).2.Past early more stop ∧
      (r (s.followedBy more' stop')).2.Past early more' stop'

theorem Located.rest_eq_nil (r : Reader α) [Located r] {s : State} (h : s.rest = []) :
    (r s).2.rest = [] :=
  List.suffix_nil.1 (h ▸ Located.rest s)

theorem Located.ahead_subset (r : Reader α) [Located r] (s : State) :
    ∀ t ∈ (r s).2.ahead, t ∈ s.ahead := by
  intro t ht
  unfold State.ahead at ht ⊢
  rw [Located.finish] at ht
  rcases List.mem_append.1 ht with ht | ht
  · exact List.mem_append_left _ ((Located.rest s).mem ht)
  · exact List.mem_append_right _ ht

/-- Reading on among the tokens that came after. -/
theorem Past.read (r : Reader α) [Located r] {s : State} {early : List Diagnostic}
    {more : List Token} {stop : Nat} (h : s.Past early more stop) :
    (r s).2.Past early more stop where
  rest := (Located.rest s).trans h.rest
  finish := (Located.finish s).trans h.finish
  report := by
    obtain ⟨late, hreport, hlate⟩ := h.report
    obtain ⟨later, hreport', hlater⟩ := Located.report (r := r) s
    refine ⟨late ++ later, by rw [hreport', hreport, List.append_assoc], fun d hd => ?_⟩
    rcases List.mem_append.1 hd with hd | hd
    · exact hlate d hd
    · obtain ⟨t, ht, hflagged⟩ := hlater d hd
      refine ⟨t, ?_, hflagged⟩
      unfold State.ahead at ht
      rw [h.finish] at ht
      rcases List.mem_append.1 ht with ht | ht
      · exact List.mem_append_left _ (h.rest.mem ht)
      · exact List.mem_append_right _ ht

/-- The first token decides what the reader does. -/
def ByHead (r : Reader α) : Prop :=
  ∀ s : State, s.rest ≠ [] → ∀ more stop,
    r (s.followedBy more stop) = ((r s).1, (r s).2.followedBy more stop)

theorem Local.ofHead {r : Reader α} [Located r] (h : ByHead r) : Local r where
  stops s hs := h s fun hnil => hs (Located.rest_eq_nil r hnil)
  ends s hs more stop more' stop' := by
    by_cases hnil : s.rest = []
    · exact ⟨s.report.entries, Past.read r (past_followedBy more stop hnil),
        Past.read r (past_followedBy more' stop' hnil)⟩
    · refine ⟨(r s).2.report.entries, ?_, ?_⟩
      · rw [h s hnil]
        exact past_followedBy more stop hs
      · rw [h s hnil]
        exact past_followedBy more' stop' hs

/-! ## Parts of readers -/

/-- A reader that reports nothing. -/
theorem Located.silent {r : Reader α} (hrest : ∀ s, (r s).2.rest <:+ s.rest)
    (hfinish : ∀ s, (r s).2.finish = s.finish) (hreport : ∀ s, (r s).2.report = s.report) :
    Located r where
  rest := hrest
  finish := hfinish
  report s := ⟨[], by rw [hreport, List.append_nil], fun _ hd => absurd hd List.not_mem_nil⟩

/-- A reader that changes at most the table of names. -/
theorem Local.quiet {r : Reader α} (h : ∀ s, ∃ names, (r s).2 = { s with names := names })
    (hmore : ∀ s more stop, r (s.followedBy more stop) = ((r s).1, (r s).2.followedBy more stop)) :
    Local r := by
  have hlocated : Located r := by
    refine .silent (fun s => ?_) (fun s => ?_) fun s => ?_
    · obtain ⟨names, hs⟩ := h s
      have hrest : (r s).2.rest = s.rest := by rw [hs]
      exact hrest ▸ List.suffix_rfl
    · obtain ⟨names, hs⟩ := h s
      rw [hs]
    · obtain ⟨names, hs⟩ := h s
      rw [hs]
  exact .ofHead fun s _ => hmore s

theorem Located.bind {r : Reader α} {f : α → Reader β} (hr : Located r)
    (hf : ∀ a, Located (f a)) : Located (r >>= f) where
  rest s := ((hf _).rest _).trans (hr.rest s)
  finish s := ((hf _).finish _).trans (hr.finish s)
  report s := by
    obtain ⟨late, hreport, hlate⟩ := hr.report s
    obtain ⟨later, hreport', hlater⟩ := (hf (r s).1).report (r s).2
    refine ⟨late ++ later, ?_, fun d hd => ?_⟩
    · rw [bind_apply, hreport', hreport, List.append_assoc]
    · rcases List.mem_append.1 hd with hd | hd
      · exact hlate d hd
      · obtain ⟨t, ht, hflagged⟩ := hlater d hd
        exact ⟨t, Located.ahead_subset r s t ht, hflagged⟩

theorem Local.bind {r : Reader α} {f : α → Reader β} (hr : Local r) (hf : ∀ a, Local (f a)) :
    Local (r >>= f) where
  toLocated := hr.toLocated.bind fun a => (hf a).toLocated
  stops s hs more stop := by
    have hmid : (r s).2.rest ≠ [] := fun hnil => hs (Located.rest_eq_nil (f (r s).1) hnil)
    rw [bind_apply, hr.stops s hmid more stop]
    exact (hf (r s).1).stops (r s).2 hs more stop
  ends s hs more stop more' stop' := by
    by_cases hmid : (r s).2.rest = []
    · obtain ⟨early, hpast, hpast'⟩ := hr.ends s hmid more stop more' stop'
      exact ⟨early, Past.read (f _) hpast, Past.read (f _) hpast'⟩
    · rw [bind_apply, bind_apply, hr.stops s hmid more stop, hr.stops s hmid more' stop']
      exact (hf (r s).1).ends (r s).2 hs more stop more' stop'

instance (a : α) : Local (pure a : Reader α) := .quiet (fun s => ⟨s.names, rfl⟩) fun _ _ _ => rfl

instance (r : Reader α) (f : α → Reader β) [hr : Local r] [hf : ∀ a, Local (f a)] :
    Local (r >>= f) :=
  hr.bind hf

instance (f : α → β) (r : Reader α) [Local r] : Local (f <$> r) :=
  inferInstanceAs (Local (r >>= fun a => pure (f a)))

instance (c : Prop) [Decidable c] (r r' : Reader α) [Local r] [Local r'] :
    Local (if c then r else r') := by
  split
  · infer_instance
  · infer_instance

instance (n : String) : Local (intern n) :=
  .quiet (fun s => ⟨(s.names.intern n).2, rfl⟩) fun _ _ _ => rfl

instance (start : Nat) : Local (spanFrom start) :=
  .quiet (fun s => ⟨s.names, rfl⟩) fun _ _ _ => rfl

theorem byHead_peek : ByHead peek := fun _ hs more stop =>
  congrArg (fun t => (t, State.followedBy _ more stop)) (current_followedBy more stop hs)

instance : Local peek :=
  have := Located.silent (r := peek) (fun _ => List.suffix_rfl) (fun _ => rfl) fun _ => rfl
  .ofHead byHead_peek

theorem byHead_advance : ByHead advance := fun _ hs more stop =>
  congrArg ((), ·) (advance_followedBy more stop hs)

instance : Local advance :=
  have := Located.silent (r := advance) (fun _ => List.tail_suffix _) (fun _ => rfl) fun _ => rfl
  .ofHead byHead_advance

instance (severity : Severity) (code title message : String) :
    Located (flag severity code title message) where
  rest _ := List.suffix_rfl
  finish _ := rfl
  report s := by
    refine ⟨[.located severity code title s.current.span message], rfl, fun d hd => ?_⟩
    rw [List.mem_singleton.1 hd]
    exact ⟨s.current, s.current_mem_ahead, _, _, _, _, rfl⟩

theorem byHead_flag (severity : Severity) (code title message : String) :
    ByHead (flag severity code title message) := by
  intro s hs more stop
  unfold flag
  rw [current_followedBy more stop hs]
  rfl

instance (severity : Severity) (code title message : String) :
    Local (flag severity code title message) :=
  .ofHead (byHead_flag severity code title message)

instance (kind : TokenKind) : Local (accept kind) := by
  have hlocated : Located (accept kind) := by
    refine .silent (fun s => (Forward.leads s).rest) (fun s => ?_) fun s => ?_
    · unfold accept
      split <;> rfl
    · unfold accept
      split <;> rfl
  refine .ofHead fun s hs more stop => ?_
  unfold accept
  rw [sees_followedBy more stop hs, advance_followedBy more stop hs]
  split <;> rfl

instance (what : String) : Local (expected what) := by
  have hlocated : Located (expected what) := by
    refine ⟨fun s => (Forward.leads s).rest, finish_expected what, fun s => ?_⟩
    unfold expected
    split
    · exact Located.report (r := flag _ _ _ _) s
    · exact Located.report (r := flag _ _ _ _) s
  refine .ofHead fun s hs more stop => ?_
  unfold expected
  rw [atEnd_followedBy more stop hs, current_followedBy more stop hs]
  unfold flag
  rw [current_followedBy more stop hs]
  split <;> rfl

instance (kind : TokenKind) : Local (expect kind) := by
  unfold expect
  infer_instance

instance : Local skipOffending := by
  have hlocated : Located skipOffending := by
    refine .silent (fun s => (Forward.leads s).rest) (fun s => ?_) fun s => ?_
    · unfold skipOffending
      split <;> rfl
    · unfold skipOffending
      split <;> rfl
  refine .ofHead fun s hs more stop => ?_
  unfold skipOffending
  rw [before_followedBy more stop hs, advance_followedBy more stop hs]
  split <;> rfl

/-! ## Repetition -/

/-- The condition looks at the next token only. -/
def LooksAtNext (go : State → Bool) : Prop :=
  ∀ s : State, s.rest ≠ [] → ∀ more stop, go (s.followedBy more stop) = go s

theorem looksAtNext_sees (k : TokenKind) : LooksAtNext fun s => s.sees k :=
  fun _ hs more stop => sees_followedBy more stop hs k

theorem looksAtNext_before (stops : List TokenKind) : LooksAtNext (State.before stops) :=
  fun _ hs more stop => before_followedBy more stop hs stops

theorem looksAtNext_notAtEnd : LooksAtNext fun s => !s.atEnd :=
  fun _ hs more stop => congrArg (!·) (atEnd_followedBy more stop hs)

/-- One of two readers, by what comes next. -/
def choose (go : State → Bool) (r r' : Reader α) : Reader α := fun s => if go s then r s else r' s

section Choose

variable {go : State → Bool} (r r' : Reader α)

theorem choose_of_go {s : State} (h : go s = true) : choose go r r' s = r s := if_pos h

theorem choose_of_not_go {s : State} (h : go s = false) : choose go r r' s = r' s :=
  if_neg (Bool.eq_false_iff.1 h)

theorem located_choose [hr : Located r] [hr' : Located r'] : Located (choose go r r') where
  rest s := by
    cases h : go s with
    | true => exact choose_of_go r r' h ▸ hr.rest s
    | false => exact choose_of_not_go r r' h ▸ hr'.rest s
  finish s := by
    cases h : go s with
    | true => exact choose_of_go r r' h ▸ hr.finish s
    | false => exact choose_of_not_go r r' h ▸ hr'.finish s
  report s := by
    cases h : go s with
    | true => exact choose_of_go r r' h ▸ hr.report s
    | false => exact choose_of_not_go r r' h ▸ hr'.report s

theorem local_choose (hgo : LooksAtNext go) [hr : Local r] [hr' : Local r'] :
    Local (choose go r r') := by
  have hlocated : Located (choose go r r') := located_choose r r'
  refine ⟨fun s hs more stop => ?_, fun s hs more stop more' stop' => ?_⟩
  · have hne : s.rest ≠ [] := fun hnil => hs (Located.rest_eq_nil (choose go r r') hnil)
    cases h : go s with
    | true =>
      rw [choose_of_go r r' h] at hs ⊢
      rw [choose_of_go r r' ((hgo s hne more stop).trans h)]
      exact hr.stops s hs more stop
    | false =>
      rw [choose_of_not_go r r' h] at hs ⊢
      rw [choose_of_not_go r r' ((hgo s hne more stop).trans h)]
      exact hr'.stops s hs more stop
  · by_cases hnil : s.rest = []
    · exact ⟨s.report.entries, Past.read _ (past_followedBy more stop hnil),
        Past.read _ (past_followedBy more' stop' hnil)⟩
    · cases h : go s with
      | true =>
        rw [choose_of_go r r' h] at hs
        rw [choose_of_go r r' ((hgo s hnil more stop).trans h),
          choose_of_go r r' ((hgo s hnil more' stop').trans h)]
        exact hr.ends s hs more stop more' stop'
      | false =>
        rw [choose_of_not_go r r' h] at hs
        rw [choose_of_not_go r r' ((hgo s hnil more stop).trans h),
          choose_of_not_go r r' ((hgo s hnil more' stop').trans h)]
        exact hr'.ends s hs more stop more' stop'

end Choose

/-- A reader whose bound does not matter. -/
theorem Local.ofBound {r : Nat → Reader α} {body : Reader α → Reader α} (hb : Bounded r body)
    (h : ∀ n, Local (r n)) : Local fun s => r s.rest.length s := by
  -- any bound that is large enough for all the states at hand
  have heq : ∀ (n : Nat) (s : State), s.rest.length ≤ n → r s.rest.length s = r n s :=
    fun n s hs => hb.eq_of_length_le _ _ s (Nat.le_refl _) hs
  have hlength : ∀ (s : State) (more : List Token) (stop : Nat),
      (s.followedBy more stop).rest.length = s.rest.length + more.length :=
    fun _ _ _ => List.length_append
  have hlocated : Located fun s => r s.rest.length s :=
    ⟨fun s => (h _).rest s, fun s => (h _).finish s, fun s => (h _).report s⟩
  refine ⟨fun s hs more stop => ?_, fun s hs more stop more' stop' => ?_⟩
  · have hshort := heq (s.rest.length + more.length) s (Nat.le_add_right _ _)
    rw [hshort] at hs ⊢
    rw [heq _ (s.followedBy more stop) (Nat.le_of_eq (hlength s more stop))]
    exact (h _).stops s hs more stop
  · have hbound := hlength s more stop
    have hbound' := hlength s more' stop'
    have hshort := heq (s.rest.length + more.length + more'.length) s (by omega)
    rw [hshort] at hs
    rw [heq (s.rest.length + more.length + more'.length) (s.followedBy more stop) (by omega),
      heq (s.rest.length + more.length + more'.length) (s.followedBy more' stop') (by omega)]
    exact (h _).ends s hs more stop more' stop'

theorem local_manyUpTo {go : State → Bool} (hgo : LooksAtNext go) (step : Reader α)
    [Local step] : ∀ n, Local (manyUpTo go step n)
  | 0 => inferInstanceAs (Local (pure [] : Reader (List α)))
  | n + 1 => by
    have ih := local_manyUpTo hgo step n
    exact local_choose (do return (← step) :: (← manyUpTo go step n)) (pure []) hgo

theorem local_many {go : State → Bool} {step : Reader α} (hgo : LooksAtNext go)
    (h : Shrinks go step) [Local step] : Local (many go step) :=
  .ofBound h.bounded (local_manyUpTo hgo step)

/-! ## The readers of a schema -/

instance : Local name := by
  unfold name
  infer_instance

instance : Local typeName := by
  unfold typeName
  infer_instance

instance : Local description? := by
  unfold description?
  infer_instance

theorem local_typeRefUpTo : ∀ n, Local (typeRefUpTo n)
  | 0 => by
    unfold typeRefUpTo
    infer_instance
  | n + 1 => by
    have ih := local_typeRefUpTo n
    unfold typeRefUpTo typeRefAt
    dsimp only
    infer_instance

instance : Local typeRef := .ofBound bounded_typeRef local_typeRefUpTo

instance (t : Token) : Local (intLiteral t) := by
  unfold intLiteral
  dsimp only
  split
  · infer_instance
  · infer_instance

instance (t : Token) (make : Span → Value) : Local (literal t make) := by
  unfold literal
  infer_instance

instance : Local noValue := by
  unfold noValue
  infer_instance

theorem local_listValue {item : Reader Value} [Local item]
    (h : Shrinks (State.before [.punct .bracketClose, .punct .braceClose]) item) :
    Local (listValue item) := by
  have hitems := local_many (looksAtNext_before _) h
  unfold listValue
  infer_instance

instance (value : Reader Value) [Local value] : Local (objectField value) := by
  unfold objectField
  infer_instance

theorem local_objectValue (value : Reader Value) [Forward value] [Local value] :
    Local (objectValue value) := by
  have hfields := local_many (looksAtNext_before _) (shrinks_objectField value)
  unfold objectValue
  infer_instance

theorem local_valueUpTo : ∀ n, Local (valueUpTo n)
  | 0 => by
    unfold valueUpTo
    infer_instance
  | n + 1 => by
    have ih := local_valueUpTo n
    have hforward := forward_valueUpTo n
    have hlist := local_listValue (shrinks_valueUpTo (by decide) n)
    have hobject := local_objectValue (valueUpTo n)
    unfold valueUpTo valueAt
    refine Local.bind inferInstance fun t => ?_
    split <;> infer_instance

instance : Local value := .ofBound bounded_value local_valueUpTo

instance : Local argument := by
  unfold argument
  dsimp only
  infer_instance

instance : Local directive := by
  have harguments := local_many (looksAtNext_before _) shrinks_argument
  unfold directive
  dsimp only
  infer_instance

instance : Local directives := local_many (looksAtNext_sees _) shrinks_directive

instance : Local inputValue := by
  unfold inputValue
  dsimp only
  infer_instance

instance : Local inputValues := local_many (looksAtNext_before _) shrinks_inputValue

instance : Local argumentDefinitions := by
  unfold argumentDefinitions
  infer_instance

instance : Local field := by
  unfold field
  dsimp only
  infer_instance

theorem local_braced {item : Reader α} [Local item]
    (h : Shrinks (State.before [.punct .braceClose]) item) : Local (braced item) := by
  have hitems := local_many (looksAtNext_before _) h
  unfold braced
  infer_instance

instance : Local (braced field) := local_braced shrinks_field

instance : Local implementedInterfaces := by
  have hgo : LooksAtNext fun s => s.sees (.punct .ampersand) || s.sees .name :=
    fun s hs more stop => congrArg₂ (· || ·) (looksAtNext_sees _ s hs more stop)
      (looksAtNext_sees _ s hs more stop)
  have hmore := local_many hgo shrinks_moreInterfaces
  unfold implementedInterfaces
  infer_instance

instance : Local rootOperation? := by
  unfold rootOperation?
  refine Local.bind inferInstance fun t => ?_
  split <;> infer_instance

instance (d : Option Description) : Local (schemaDefinition d) := by
  have hoperations := local_many (looksAtNext_before _) shrinks_rootOperation
  unfold schemaDefinition
  dsimp only
  infer_instance

instance (d : Option Description) : Local (fieldsDefinition d) := by
  unfold fieldsDefinition
  dsimp only
  infer_instance

instance : Local unionMembers := by
  have hmore := local_many (looksAtNext_sees _) shrinks_moreMembers
  unfold unionMembers
  infer_instance

instance (d : Option Description) : Local (unionDefinition d) := by
  unfold unionDefinition
  dsimp only
  infer_instance

instance : Local enumValue := by
  unfold enumValue
  dsimp only
  infer_instance

instance : Local (braced enumValue) := local_braced shrinks_enumValue

instance (d : Option Description) : Local (enumDefinition d) := by
  unfold enumDefinition
  dsimp only
  infer_instance

instance (d : Option Description) : Local (inputDefinition d) := by
  unfold inputDefinition
  dsimp only
  infer_instance

instance (d : Option Description) : Local (scalarDefinition d) := by
  unfold scalarDefinition
  dsimp only
  infer_instance

instance : Local location? := by
  unfold location?
  dsimp only
  infer_instance

theorem local_locationsUpTo : ∀ n, Local (locationsUpTo n)
  | 0 => by
    unfold locationsUpTo
    infer_instance
  | n + 1 => by
    have ih := local_locationsUpTo n
    unfold locationsUpTo locationsAt
    dsimp only
    infer_instance

instance : Local locationsFrom := .ofBound bounded_locations local_locationsUpTo

instance : Local locations :=
  inferInstanceAs (Local (do let _ ← accept (.punct .pipe); locationsFrom))

instance (d : Option Description) : Local (directiveDefinition d) := by
  unfold directiveDefinition
  dsimp only
  infer_instance

instance : Local noDefinition := by
  unfold noDefinition
  infer_instance

instance (d : Option Description) (extended : Reader (Option Definition)) [Local extended] :
    Local (definitionAt d extended) := by
  unfold definitionAt
  refine Local.bind inferInstance fun t => ?_
  split <;> infer_instance

theorem local_definitionUpTo : ∀ n, Local (definitionUpTo n)
  | 0 => by
    unfold definitionUpTo
    infer_instance
  | n + 1 => by
    have ih := local_definitionUpTo n
    unfold definitionUpTo definitionWith
    infer_instance

instance : Local definition? := .ofBound bounded_definition local_definitionUpTo

instance : Local recover := by
  have hgo : LooksAtNext fun s => !s.atEnd && !startsDefinition s.current.kind := by
    intro s hs more stop
    dsimp only
    rw [atEnd_followedBy more stop hs, current_followedBy more stop hs]
  have hskip := local_many hgo shrinks_skip
  unfold recover
  infer_instance

instance : Local definitionOrSkip := by
  unfold definitionOrSkip
  refine Local.bind inferInstance fun d => ?_
  split <;> infer_instance

instance : Local document := by
  have hdefinitions := local_many looksAtNext_notAtEnd shrinks_definitionOrSkip
  unfold document
  dsimp only
  infer_instance

end Reader

end SchemaToFlow.Schema
