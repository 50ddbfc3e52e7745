import SchemaToFlow.Proofs.Forward

/-!
# Reading always makes progress

Readers that repeat a step or call themselves do so under a bound, the number of tokens left. This
module shows that the bound is never what ends them, however malformed the tokens are.

* `Shrinks go step`: wherever `go` lets a repetition go on, one more `step` takes a token at least.
  Each repetition has its own reason, since a closing brace and the end of the text are left in
  place by the step and must be refused by `go`.
* `Recurs body r`: `r` is `body` with `r` in place of its inner calls, and these are made only where
  fewer tokens are left.
* `Bounded`: what a reader with a bound has to satisfy to be free of it (`Bounded.recurs`), so that
  every bound large enough gives the same result (`Bounded.eq_of_length_le`).
* `rest_document_eq_nil`: the whole text is read.
-/

set_option synthInstance.maxSize 1000

namespace SchemaToFlow.Schema

namespace State

theorem length_advance (s : State) : s.advance.rest.length = s.rest.length - 1 :=
  List.length_tail

theorem length_advance_lt {s : State} (h : s.atEnd = false) :
    s.advance.rest.length < s.rest.length := by
  have hne : s.rest ≠ [] := List.isEmpty_eq_false_iff.1 h
  have hpos := List.length_pos_iff.2 hne
  rw [length_advance]
  omega

theorem atEnd_of_kind {s : State} (h : s.current.kind ≠ .endOfInput) : s.atEnd = false := by
  obtain ⟨ts, hts⟩ := exists_rest_of_current h
  rw [atEnd, hts]
  rfl

theorem atEnd_of_sees {s : State} {k : TokenKind} (hk : k ≠ .endOfInput)
    (h : s.sees k = true) : s.atEnd = false :=
  atEnd_of_kind ((of_decide_eq_true h : s.current.kind = k) ▸ hk)

theorem atEnd_of_before {s : State} {stops : List TokenKind} (h : s.before stops = true) :
    s.atEnd = false :=
  Bool.not_eq_eq_eq_not.1 (Bool.and_eq_true_iff.1 h).1

theorem sees_of_rest_nil {s : State} (hs : s.rest = []) {k : TokenKind} (hk : k ≠ .endOfInput) :
    s.sees k = false := by
  rw [sees, current_of_rest_nil hs]
  exact decide_eq_false hk.symm

end State

namespace Reader

open State

variable {α β : Type}

/-! ## Readers that call themselves -/

/-- The reader is `body` with itself for the inner reader, and it calls itself only where fewer tokens
are left: any reader that does the same there may stand in for it. -/
def Recurs (body : Reader α → Reader α) (r : Reader α) : Prop :=
  ∀ (s : State) (r' : Reader α),
    (∀ s' : State, s'.rest.length < s.rest.length → r' s' = r s') → r s = body r' s

theorem Recurs.eq {body : Reader α → Reader α} {r : Reader α} (h : Recurs body r) (s : State) :
    r s = body r s :=
  h s r fun _ _ => rfl

/-- A reader with a bound that is lowered by one with each inner call. -/
structure Bounded (r : Nat → Reader α) (body : Reader α → Reader α) : Prop where
  zero : ∀ (s : State) (r' : Reader α), s.rest = [] → r 0 s = body r' s
  succ : ∀ n, r (n + 1) = body (r n)
  calls : ∀ (s : State) (n : Nat) (r' : Reader α),
    (∀ s' : State, s'.rest.length < s.rest.length → r' s' = r n s') → body r' s = body (r n) s

namespace Bounded

variable {r : Nat → Reader α} {body : Reader α → Reader α}

/-- Two bounds that are both large enough make no difference. -/
theorem eq_of_length_le (h : Bounded r body) :
    ∀ (n m : Nat) (s : State), s.rest.length ≤ n → s.rest.length ≤ m → r n s = r m s
  | 0, 0, _, _, _ => rfl
  | 0, m + 1, s, hn, _ => by
    rw [h.succ, h.zero s (r m) (List.eq_nil_of_length_eq_zero (Nat.le_zero.1 hn))]
  | n + 1, 0, s, _, hm => by
    rw [h.succ, h.zero s (r n) (List.eq_nil_of_length_eq_zero (Nat.le_zero.1 hm))]
  | n + 1, m + 1, s, hn, hm => by
    rw [h.succ, h.succ]
    refine h.calls s m (r n) fun s' hs' => eq_of_length_le h n m s' ?_ ?_
    · omega
    · omega

/-- **The bound is never reached.** -/
theorem recurs (h : Bounded r body) : Recurs body fun s => r s.rest.length s := by
  intro s r' hr'
  show r s.rest.length s = body r' s
  cases hn : s.rest.length with
  | zero => exact h.zero s r' (List.eq_nil_of_length_eq_zero hn)
  | succ n =>
    rw [h.succ]
    refine (h.calls s n r' fun s' hs' => ?_).symm
    rw [hr' s' hs']
    exact h.eq_of_length_le _ _ s' (Nat.le_refl _) (by omega)

end Bounded

/-! ## Repetitions -/

/-- Each step takes a token at least. -/
def Shrinks (go : State → Bool) (step : Reader α) : Prop :=
  ∀ s : State, go s = true → (step s).2.rest.length < s.rest.length

/-- One round of a repetition, and `more` after it. -/
def round (go : State → Bool) (step : Reader α) (more : Reader (List α)) : Reader (List α) :=
  fun s => if go s then (do return (← step) :: (← more)) s else ([], s)

namespace Shrinks

variable {go go' : State → Bool} {step : Reader α} {f : α → Reader β}

theorem not_go (h : Shrinks go step) {s : State} (hs : s.rest = []) : go s = false := by
  rw [Bool.eq_false_iff]
  intro hgo
  have hlt := h s hgo
  rw [hs] at hlt
  cases hlt

theorem bounded (h : Shrinks go step) : Bounded (manyUpTo go step) (round go step) where
  zero s r' hs := by
    rw [round, if_neg (Bool.eq_false_iff.1 (h.not_go hs))]
    rfl
  succ _ := rfl
  calls s n r' hr' := by
    unfold round
    split
    · rename_i hgo
      rw [bind_apply, bind_apply, bind_apply, bind_apply, hr' _ (h s hgo)]
    · rfl

theorem recurs (h : Shrinks go step) : Recurs (round go step) (many go step) := h.bounded.recurs

/-- A repetition ends only where `go` no longer holds. -/
theorem go_many (h : Shrinks go step) :
    ∀ (n : Nat) (s : State), s.rest.length ≤ n → go (many go step s).2 = false
  | n, s, hn => by
    rw [h.recurs.eq, round]
    split
    · rename_i hgo
      have hlt := h s hgo
      cases n with
      | zero => omega
      | succ n => exact go_many h n (step s).2 (by omega)
    · rename_i hgo
      exact Bool.eq_false_iff.2 hgo

theorem weaken (h : Shrinks go step) (hgo : ∀ s, go' s = true → go s = true) :
    Shrinks go' step :=
  fun s hs => h s (hgo s hs)

/-- What follows takes nothing back. -/
theorem bind (h : Shrinks go step) [∀ a, Forward (f a)] : Shrinks go (step >>= f) := fun s hs =>
  Nat.lt_of_le_of_lt (Forward.leads (r := f (step s).1) (step s).2).length_le (h s hs)

theorem look {f : Token → Reader β} (h : ∀ t, Shrinks go (f t)) : Shrinks go (peek >>= f) :=
  fun s hs => h s.current s hs

end Shrinks

open Shrinks

/-- What reading leaves of the tokens depends only on what it does where no more are left. -/
theorem manyUpTo_congr {go : State → Bool} {r r' : Reader α} [Forward r] :
    ∀ (n : Nat) (s : State), (∀ s' : State, s'.rest.length ≤ s.rest.length → r' s' = r s') →
      manyUpTo go r' n s = manyUpTo go r n s
  | 0, _, _ => rfl
  | n + 1, s, h => by
    have hnext : manyUpTo go r' n (r s).2 = manyUpTo go r n (r s).2 :=
      manyUpTo_congr n (r s).2 fun s' hs' => h s' (Nat.le_trans hs' (Forward.leads s).length_le)
    unfold manyUpTo
    rw [bind_apply, bind_apply, bind_apply, bind_apply, h s (Nat.le_refl _), hnext]

theorem many_congr {go : State → Bool} {r r' : Reader α} [Forward r] {s : State}
    (h : ∀ s' : State, s'.rest.length ≤ s.rest.length → r' s' = r s') :
    many go r' s = many go r s :=
  manyUpTo_congr s.rest.length s h

/-! ## Steps that take a token -/

theorem shrinks_advance : Shrinks (fun s => !s.atEnd) advance := fun _ hs =>
  length_advance_lt (Bool.not_eq_eq_eq_not.1 hs)

theorem shrinks_advance_before (stops : List TokenKind) : Shrinks (State.before stops) advance :=
  fun _ hs => length_advance_lt (atEnd_of_before hs)

theorem shrinks_advance_sees {k : TokenKind} (hk : k ≠ .endOfInput) :
    Shrinks (fun s => s.sees k) advance := fun _ hs =>
  length_advance_lt (atEnd_of_sees hk hs)

theorem rest_expected (what : String) (s : State) : (expected what s).2.rest = s.rest := by
  unfold expected
  split <;> rfl

theorem finish_expected (what : String) (s : State) : (expected what s).2.finish = s.finish := by
  unfold expected
  split <;> rfl

theorem current_expected (what : String) (s : State) :
    (expected what s).2.current = s.current := by
  unfold current
  rw [rest_expected, finish_expected]

section Stops

variable {stops : List TokenKind} (hstops : .punct .braceClose ∈ stops)

include hstops

/-- A token that fits nowhere is taken, since it is no closing brace. -/
theorem length_skipOffending {s : State} (what : String) (h : s.before stops = true) :
    (skipOffending (expected what s).2).2.rest.length < s.rest.length := by
  have hbrace : State.before [.punct .braceClose] (expected what s).2 = true := by
    unfold State.before State.atEnd at h ⊢
    rw [current_expected, rest_expected]
    rw [Bool.and_eq_true, decide_eq_true_iff] at h ⊢
    refine ⟨h.1, fun hmem => h.2 ?_⟩
    rw [List.mem_singleton.1 hmem]
    exact hstops
  unfold skipOffending
  rw [if_pos hbrace, length_advance, rest_expected]
  have hlt := length_advance_lt (atEnd_of_before h)
  rw [length_advance] at hlt
  exact hlt

theorem shrinks_name : Shrinks (State.before stops) name := by
  intro s hs
  unfold name
  rw [bind_apply]
  split
  · exact length_advance_lt (atEnd_of_before hs)
  · exact length_skipOffending hstops "name" hs

theorem shrinks_noValue : Shrinks (State.before stops) noValue := fun _ hs =>
  length_skipOffending hstops "value" hs

end Stops

/-- A description is one token. -/
theorem description?_taken {s : State}
    (h : s.current.kind = .string ∨ s.current.kind = .blockString) :
    description? s = (some ⟨s.current.body, s.current.span⟩, s.advance) := by
  unfold description?
  rw [bind_apply]
  split
  · rfl
  · rename_i hn
    exact absurd h hn

theorem description?_none {s : State}
    (h : ¬ (s.current.kind = .string ∨ s.current.kind = .blockString)) :
    description? s = (none, s) := by
  unfold description?
  rw [bind_apply]
  split
  · rename_i hk
    exact absurd hk h
  · rfl

/-- A description takes a token, or what follows it does. -/
theorem Shrinks.described {stops : List TokenKind} {f : Option Description → Reader β}
    [∀ d, Forward (f d)] (h : ∀ d, Shrinks (State.before stops) (f d)) :
    Shrinks (State.before stops) (description? >>= f) := by
  intro s hs
  rw [bind_apply]
  by_cases hk : s.current.kind = .string ∨ s.current.kind = .blockString
  · rw [description?_taken hk]
    exact Nat.lt_of_le_of_lt (Forward.leads s.advance).length_le
      (length_advance_lt (atEnd_of_before hs))
  · rw [description?_none hk]
    exact h none s hs

/-! ## Readers that do the same in one state -/

/-- The readers do the same in the state. -/
def Same (s : State) (r r' : Reader α) : Prop := r s = r' s

namespace Same

variable {r r' q q' : Reader α} {f f' : α → Reader β} {s : State}

theorem bind (hr : Same s r r') (hf : ∀ a, Same (r' s).2 (f a) (f' a)) :
    Same s (r >>= f) (r' >>= f') := by
  unfold Same at hr hf ⊢
  rw [bind_apply, bind_apply, hr, hf]

theorem look {f f' : Token → Reader β} (h : Same s (f s.current) (f' s.current)) :
    Same s (peek >>= f) (peek >>= f') := h

theorem look_left {f : Token → Reader β} {q : Reader β} (h : Same s (f s.current) q) :
    Same s (peek >>= f) q := h

/-- Where the next token is of the kind, it is taken. -/
theorem taken {k : TokenKind} (h : s.sees k = true) (hr : Same s.advance r r') :
    (accept k >>= fun b => if b = true then r else q) s = r' s.advance := by
  rw [bind_apply]
  unfold accept
  rw [if_pos h]
  exact hr

/-- Where it is not, it is left. -/
theorem left {k : TokenKind} (h : s.sees k = false) (hq : Same s q q') :
    Same s (accept k >>= fun b => if b = true then r else q) q' := by
  unfold Same
  rw [bind_apply]
  unfold accept
  rw [if_neg (Bool.eq_false_iff.1 h)]
  exact hq

theorem branch {k : TokenKind} (hr : s.sees k = true → Same s.advance r r') (hq : Same s q q') :
    Same s (accept k >>= fun b => if b = true then r else q)
      (accept k >>= fun b => if b = true then r' else q') := by
  cases h : s.sees k with
  | true => exact (taken h (hr h)).trans (taken h rfl).symm
  | false => exact (left h hq).trans (left h rfl).symm

end Same

/-! ## Types -/

theorem bounded_typeRef : Bounded typeRefUpTo typeRefAt where
  zero s r' hs := by
    have hname : (typeName s).2.rest = [] :=
      List.suffix_nil.1 (hs ▸ (Forward.leads (r := typeName) s).rest)
    have hbang : (typeName s).2.sees (.punct .bang) = false :=
      sees_of_rest_nil hname (by decide)
    unfold typeRefAt
    refine Eq.symm (Same.left (sees_of_rest_nil hs (by decide)) ?_)
    exact Same.bind rfl fun _ => Same.left hbang rfl
  succ _ := rfl
  calls s n r' h := by
    unfold typeRefAt
    refine Same.look (.branch (fun hsees => ?_) rfl)
    have hitem : Same s.advance r' (typeRefUpTo n) :=
      h s.advance (length_advance_lt (atEnd_of_sees (by decide) hsees))
    exact hitem.bind fun _ => rfl

theorem recurs_typeRef : Recurs typeRefAt typeRef := bounded_typeRef.recurs

/-! ## Values -/

section Parts

variable {r r' : Reader Value} [Forward r] {s : State} (hs : s.atEnd = false)
  (h : ∀ s' : State, s'.rest.length < s.rest.length → r' s' = r s')

include hs h

/-- Inside brackets fewer tokens are left. -/
theorem same_listValue : Same s (listValue r') (listValue r) := by
  have hlt := length_advance_lt hs
  have hitems : Same s.advance
      (many (State.before [.punct .bracketClose, .punct .braceClose]) r')
      (many (State.before [.punct .bracketClose, .punct .braceClose]) r) :=
    many_congr fun s' hs' => h s' (Nat.lt_of_le_of_lt hs' hlt)
  unfold listValue
  exact .look (.bind rfl fun _ => hitems.bind fun _ => rfl)

/-- Inside braces fewer tokens are left. -/
theorem same_objectValue : Same s (objectValue r') (objectValue r) := by
  have hlt := length_advance_lt hs
  have hfields : Same s.advance
      (many (State.before [.punct .braceClose]) (objectField r'))
      (many (State.before [.punct .braceClose]) (objectField r)) := by
    refine many_congr fun s' hs' => ?_
    have hname := (Forward.leads (r := name) s').length_le
    have hcolon := (Forward.leads (r := expect (.punct .colon)) (name s').2).length_le
    have hvalue : Same (expect (.punct .colon) (name s').2).2 r' r := h _ (by omega)
    exact Same.bind rfl fun _ => .bind rfl fun _ => hvalue.bind fun _ => rfl
  unfold objectValue
  exact .look (.bind rfl fun _ => hfields.bind fun _ => rfl)

end Parts

theorem bounded_value : Bounded valueUpTo valueAt where
  zero s r' hs := by
    have hk : s.current.kind = .endOfInput := current_of_rest_nil hs
    unfold valueAt valueUpTo
    refine Eq.symm (Same.look_left ?_)
    rw [hk]
    rfl
  succ _ := rfl
  calls s n r' h := by
    have hforward := forward_valueUpTo n
    unfold valueAt
    refine Same.look ?_
    cases hk : s.current.kind with
    | punct p =>
      have hs : s.atEnd = false := atEnd_of_kind (by rw [hk]; exact TokenKind.noConfusion)
      cases p with
      | bracketOpen => exact same_listValue hs h
      | braceOpen => exact same_objectValue hs h
      | _ => rfl
    | keyword word => cases word <;> rfl
    | _ => rfl

theorem recurs_value : Recurs valueAt value := bounded_value.recurs

theorem shrinks_literal (t : Token) (make : Text.Span → Value) (stops : List TokenKind) :
    Shrinks (State.before stops) (literal t make) :=
  (shrinks_advance_before stops).bind

theorem shrinks_intLiteral (t : Token) (stops : List TokenKind) :
    Shrinks (State.before stops) (intLiteral t) := by
  unfold intLiteral
  dsimp only
  split
  · exact fun s hs => length_advance_lt (atEnd_of_before hs)
  · exact fun s hs => length_advance_lt (s := (flag .error _ _ _ s).2) (atEnd_of_before hs)

theorem shrinks_valueAt {stops : List TokenKind} (hstops : .punct .braceClose ∈ stops)
    (part : Reader Value) [Forward part] : Shrinks (State.before stops) (valueAt part) := by
  have hadvance := shrinks_advance_before stops
  unfold valueAt
  refine look fun t => ?_
  split
  case h_1 => exact shrinks_intLiteral t stops
  case h_8 => exact look fun _ => hadvance.bind
  case h_9 => exact look fun _ => hadvance.bind
  case h_10 | h_11 => exact (shrinks_name hstops).bind
  case h_12 => exact shrinks_noValue hstops
  all_goals exact shrinks_literal t _ stops

theorem shrinks_valueUpTo {stops : List TokenKind} (hstops : .punct .braceClose ∈ stops) :
    ∀ n, Shrinks (State.before stops) (valueUpTo n)
  | 0 => shrinks_noValue hstops
  | n + 1 =>
    have := forward_valueUpTo n
    shrinks_valueAt hstops (valueUpTo n)

theorem shrinks_value {stops : List TokenKind} (hstops : .punct .braceClose ∈ stops) :
    Shrinks (State.before stops) value :=
  fun s => shrinks_valueUpTo hstops s.rest.length s

theorem shrinks_objectField (part : Reader Value) [Forward part] :
    Shrinks (State.before [.punct .braceClose]) (objectField part) :=
  (shrinks_name (List.mem_singleton.2 rfl)).bind

theorem shrinks_argument :
    Shrinks (State.before [.punct .parenClose, .punct .braceClose]) argument :=
  look fun _ => (shrinks_name (by decide)).bind

theorem shrinks_directive : Shrinks (fun s => s.sees (.punct .atSign)) directive :=
  look fun _ => (shrinks_advance_sees (by decide)).bind

/-! ## Parts of definitions -/

theorem shrinks_inputValue :
    Shrinks (State.before [.punct .parenClose, .punct .braceClose]) inputValue :=
  .described fun _ => look fun _ => (shrinks_name (by decide)).bind

theorem shrinks_field : Shrinks (State.before [.punct .braceClose]) field :=
  .described fun _ => look fun _ => (shrinks_name (by decide)).bind

theorem shrinks_enumValue : Shrinks (State.before [.punct .braceClose]) enumValue :=
  .described fun _ => look fun _ => (shrinks_name (by decide)).bind

theorem shrinks_rootOperation : Shrinks (State.before [.punct .braceClose]) rootOperation? := by
  unfold rootOperation?
  refine look fun t => ?_
  split
  · exact (shrinks_advance_before _).bind
  · intro s hs
    have hlt := length_advance_lt (atEnd_of_before hs)
    rw [length_advance] at hlt
    show (expected _ s).2.advance.rest.length < s.rest.length
    rw [length_advance, rest_expected]
    exact hlt

theorem rest_typeName {s : State} (h : s.current.kind.isName) :
    (typeName s).2.rest = s.rest.tail := by
  unfold typeName
  rw [bind_apply]
  split
  · rfl
  · rename_i hn
    exact absurd h hn

/-- One more implemented interface: the ampersand is taken, or the name without one. -/
theorem shrinks_moreInterfaces :
    Shrinks (fun s => s.sees (.punct .ampersand) || s.sees .name)
      (do let _ ← accept (.punct .ampersand); typeName) := by
  intro s hs
  rw [bind_apply]
  cases hsees : s.sees (.punct .ampersand) with
  | true =>
    have htaken : accept (.punct .ampersand) s = (true, s.advance) := if_pos hsees
    rw [htaken]
    exact Nat.lt_of_le_of_lt (Forward.leads (r := typeName) s.advance).length_le
      (length_advance_lt (atEnd_of_sees (by decide) hsees))
  | false =>
    have hleft : accept (.punct .ampersand) s = (false, s) := if_neg (Bool.eq_false_iff.1 hsees)
    have hname : s.sees .name = true := by simpa [hsees] using hs
    have hkind : s.current.kind = .name := of_decide_eq_true hname
    rw [hleft, rest_typeName (by rw [hkind]; rfl)]
    exact length_advance_lt (atEnd_of_kind (by rw [hkind]; decide))

theorem shrinks_moreMembers :
    Shrinks (fun s => s.sees (.punct .pipe)) (do advance; typeName) :=
  (shrinks_advance_sees (by decide)).bind

/-! ## Locations -/

theorem bounded_locations : Bounded locationsUpTo locationsAt where
  zero s r' hs := by
    have hk : s.current.kind = .endOfInput := current_of_rest_nil hs
    unfold locationsAt locationsUpTo
    dsimp only
    refine Eq.symm (Same.look_left ?_)
    rw [hk]
    rfl
  succ _ := rfl
  calls s n r' h := by
    unfold locationsAt
    refine Same.look ?_
    dsimp only
    split
    · refine .bind rfl fun known => .branch (fun hsees => ?_) rfl
      have hlt := length_advance_lt (atEnd_of_sees (by decide) hsees)
      have hlocation : (location? s).2.rest.length ≤ s.rest.length :=
        (Forward.leads (r := location?) s).length_le
      have hmore : Same (location? s).2.advance r' (locationsUpTo n) := h _ (by omega)
      exact hmore.bind fun _ => rfl
    · exact rfl

theorem recurs_locations : Recurs locationsAt locationsFrom := bounded_locations.recurs

/-! ## Definitions -/

theorem bounded_definition : Bounded definitionUpTo definitionWith where
  zero s r' hs := by
    have hk : s.current.kind = .endOfInput := current_of_rest_nil hs
    have hnone : description? s = (none, s) := description?_none (by rw [hk]; simp)
    unfold definitionWith definitionUpTo
    rw [bind_apply, hnone]
    unfold definitionAt
    refine Eq.symm (Same.look_left ?_)
    rw [hk]
    rfl
  succ _ := rfl
  calls s n r' h := by
    unfold definitionWith
    refine Same.bind rfl fun d => ?_
    have hle := (Forward.leads (r := description?) s).length_le
    unfold definitionAt
    refine Same.look ?_
    cases hk : (description? s).2.current.kind with
    | keyword word =>
      cases word with
      | extend =>
        refine .bind rfl fun _ => .bind rfl fun _ => h _ ?_
        have hlt := length_advance_lt (s := (description? s).2) (atEnd_of_kind (by rw [hk]; decide))
        exact Nat.lt_of_lt_of_le hlt hle
      | _ => rfl
    | _ => rfl

theorem recurs_definition : Recurs definitionWith definition? := bounded_definition.recurs

/-- What is looked for is not found, or a token is taken. -/
def Found (s : State) (r : Reader (Option α)) : Prop :=
  (r s).1 = none ∨ (r s).2.rest.length < s.rest.length

theorem Found.look {f : Token → Reader (Option α)} {s : State} (h : Found s (f s.current)) :
    Found s (peek >>= f) := h

/-- Where a definition is found, its keyword is taken. -/
theorem found_definitionAt (d : Option Description) (extended : Reader (Option Definition))
    [Forward extended] (s : State) : Found s (definitionAt d extended) := by
  unfold definitionAt
  refine .look ?_
  cases hk : s.current.kind with
  | keyword word =>
    have hs : s.atEnd = false := atEnd_of_kind (by rw [hk]; exact TokenKind.noConfusion)
    have hgo : (!s.atEnd) = true := by rw [hs]; rfl
    cases word with
    | schema | type | interface | union | enum | input | scalar | directive =>
      exact .inr (Shrinks.bind (look fun _ => shrinks_advance.bind) s hgo)
    | extend =>
      have hflag := length_advance_lt (s := (flag .error Diagnostic.unsupportedSyntax
        "unsupported syntax" "type extensions are not supported" s).2) hs
      exact .inr (Nat.lt_of_le_of_lt (Forward.leads (r := extended) _).length_le hflag)
    | _ => exact .inl rfl
  | _ => exact .inl rfl

theorem found_definition (s : State) : Found s definition? := by
  have heq : definition? s = definitionAt (description? s).1 definition? (description? s).2 :=
    recurs_definition.eq s
  unfold Found
  rw [heq]
  rcases found_definitionAt (description? s).1 definition? (description? s).2 with hnone | hlt
  · exact .inl hnone
  · exact .inr (Nat.lt_of_lt_of_le hlt (Forward.leads (r := description?) s).length_le)

theorem shrinks_skip :
    Shrinks (fun s => !s.atEnd && !startsDefinition s.current.kind) advance :=
  shrinks_advance.weaken fun _ hs => (Bool.and_eq_true_iff.1 hs).1

theorem length_recover (s : State) : (recover s).2.rest.length ≤ s.rest.length - 1 := by
  have hle := (Forward.leads (r := many (fun s : State => !s.atEnd &&
    !startsDefinition s.current.kind) advance) s.advance).length_le
  rw [length_advance] at hle
  exact hle

/-- Where no definition is found, a token at least is skipped. -/
theorem shrinks_definitionOrSkip : Shrinks (fun s => !s.atEnd) definitionOrSkip := by
  intro s hs
  unfold definitionOrSkip
  rw [bind_apply]
  cases hd : (definition? s).1 with
  | some x =>
    rcases found_definition s with hnone | hlt
    · rw [hd] at hnone
      cases hnone
    · exact hlt
  | none =>
    have hle := (Forward.leads (r := definition?) s).length_le
    have hskipped := length_recover (definition? s).2
    have hpos := shrinks_advance s hs
    show (recover (definition? s).2).2.rest.length < s.rest.length
    omega

theorem rest_document_eq_nil (s : State) : (document s).2.rest = [] := by
  have hend : (!(many (fun s => !s.atEnd) definitionOrSkip s).2.atEnd) = false :=
    shrinks_definitionOrSkip.go_many s.rest.length s (Nat.le_refl _)
  rw [Bool.not_eq_false'] at hend
  exact List.isEmpty_iff.1 hend

end Reader

end SchemaToFlow.Schema
