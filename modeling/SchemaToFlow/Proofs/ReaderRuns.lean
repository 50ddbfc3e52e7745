import SchemaToFlow.Proofs.OffsetRange
import SchemaToFlow.Proofs.Progress

/-!
# Readers run to an end

`many` stops by itself after as many rounds as there are tokens left, and so does the recursion of
`typeRef`, `value`, `locationsFrom` and `definition?`. A loop without such a bound would go on for
ever once a round takes nothing. `Run` tells what happens without it: `Run n r s a s'` holds if the
reader `r`, as it is defined, goes from `s` to `s'` and gives `a`, with

* every further round of a repetition starting with fewer tokens than the round before it, and
* every call of a reader that calls itself made with fewer tokens than its caller had, and at the
  outermost level with fewer than `n`.

No rule lets a repetition go on after a round that has taken nothing.

One round more is `runsAt_many`, a whole repetition is `runs_many`, and `runs_of_level` is the same
about a reader that calls itself. `Runs n r` gives `r` a run from every state with fewer than `n`
tokens; there is one instance for each reader, put together from the instances of its parts, so a
change to a reader shows in its own instance.

The result is `reading_makes_progress`: a source is read to its end mark by a run, and bytes are
read like characters, as long as an offset has room in 32 bits. From 2 to the 32 bytes on no token
is an end mark, since there is a byte at every offset, and reading never ends; `comment_without_end`
is the shortest comment of that kind.
-/

set_option synthInstance.maxSize 1000

namespace SchemaToFlow.Schema

namespace Reader

open State

variable {α β : Type}

/-! ## Runs -/

/-- Readers that neither repeat anything nor call another reader. -/
inductive Basic : {α : Type} → Reader α → Prop
  | peek : Basic peek
  | advance : Basic advance
  | accept (kind : TokenKind) : Basic (accept kind)
  | intern (name : String) : Basic (intern name)
  | spanFrom (start : Nat) : Basic (spanFrom start)
  | flag (severity : Severity) (code title message : String) :
      Basic (flag severity code title message)
  | expected (what : String) : Basic (expected what)
  | skipOffending : Basic skipOffending

/-- The reader goes from one state to the other and gives the result. A repetition goes on only if its
step has taken a token, and a reader that calls itself is only called with fewer than `n` tokens left;
inside it, the number of tokens left at its start takes the place of `n`. -/
inductive Run : {α : Type} → Nat → Reader α → State → α → State → Prop
  | pure {α : Type} {n : Nat} {s : State} (a : α) : Run n (pure a) s a s
  | bind {α β : Type} {n : Nat} {r : Reader α} {f : α → Reader β} {s s' s'' : State} {a : α} {b : β} :
      Run n r s a s' → Run n (f a) s' b s'' → Run n (r >>= f) s b s''
  | basic {α : Type} {n : Nat} {r : Reader α} {s : State} : Basic r → Run n r s (r s).1 (r s).2
  | stop {α : Type} {n : Nat} {go : State → Bool} {step : Reader α} {s : State} :
      go s = false → Run n (many go step) s [] s
  | round {α : Type} {n : Nat} {go : State → Bool} {step : Reader α} {s s' s'' : State} {a : α}
      {as : List α} :
      go s = true → Run n step s a s' → s'.rest.length < s.rest.length →
      Run n (many go step) s' as s'' → Run n (many go step) s (a :: as) s''
  | typeRef {n : Nat} {s s' : State} {t : TypeRef} :
      s.rest.length < n → Run s.rest.length (typeRefAt typeRef) s t s' → Run n typeRef s t s'
  | value {n : Nat} {s s' : State} {v : Value} :
      s.rest.length < n → Run s.rest.length (valueAt value) s v s' → Run n value s v s'
  | locations {n : Nat} {s s' : State} {ls : List Location} :
      s.rest.length < n → Run s.rest.length (locationsAt locationsFrom) s ls s' →
      Run n locationsFrom s ls s'
  | definition {n : Nat} {s s' : State} {d : Option Definition} :
      s.rest.length < n → Run s.rest.length (definitionWith definition?) s d s' →
      Run n definition? s d s'

/-- The reader has a run from this state, to what it gives there. -/
def RunsAt (n : Nat) (s : State) (r : Reader α) : Prop := Run n r s (r s).1 (r s).2

/-- The reader has a run from every state with fewer than `n` tokens left. -/
class Runs (n : Nat) (r : Reader α) : Prop where
  run : ∀ s : State, s.rest.length < n → RunsAt n s r

/-- The reader has a run from every state, whatever the bound: it calls no reader that calls itself. -/
class Plain (r : Reader α) : Prop where
  run : ∀ (n : Nat) (s : State), RunsAt n s r

/-! ## Parts of readers -/

theorem RunsAt.bind {n : Nat} {s : State} {r : Reader α} {f : α → Reader β} (hr : RunsAt n s r)
    (hf : RunsAt n (r s).2 (f (r s).1)) : RunsAt n s (r >>= f) :=
  Run.bind hr hf

theorem Basic.plain {r : Reader α} (h : Basic r) : Plain r := ⟨fun _ _ => .basic h⟩

instance : Plain peek := Basic.peek.plain

instance : Plain advance := Basic.advance.plain

instance (kind : TokenKind) : Plain (accept kind) := (Basic.accept kind).plain

instance (name : String) : Plain (intern name) := (Basic.intern name).plain

instance (start : Nat) : Plain (spanFrom start) := (Basic.spanFrom start).plain

instance (severity : Severity) (code title message : String) :
    Plain (flag severity code title message) :=
  (Basic.flag severity code title message).plain

instance (what : String) : Plain (expected what) := (Basic.expected what).plain

instance : Plain skipOffending := Basic.skipOffending.plain

instance (a : α) : Plain (pure a : Reader α) := ⟨fun _ _ => .pure a⟩

instance (r : Reader α) (f : α → Reader β) [hr : Plain r] [hf : ∀ a, Plain (f a)] :
    Plain (r >>= f) :=
  ⟨fun n s => (hr.run n s).bind ((hf (r s).1).run n (r s).2)⟩

instance (c : Prop) [Decidable c] (r r' : Reader α) [Plain r] [Plain r'] :
    Plain (if c then r else r') := by
  split
  · infer_instance
  · infer_instance

variable {n : Nat}

instance (priority := low) (r : Reader α) [hr : Plain r] : Runs n r := ⟨fun s _ => hr.run n s⟩

theorem Runs.bind {r : Reader α} {f : α → Reader β} [Forward r] (hr : Runs n r)
    (hf : ∀ a, Runs n (f a)) : Runs n (r >>= f) where
  run s hs := (hr.run s hs).bind
    ((hf (r s).1).run (r s).2 (Nat.lt_of_le_of_lt (Forward.leads (r := r) s).length_le hs))

instance (r : Reader α) (f : α → Reader β) [Forward r] [hr : Runs n r] [hf : ∀ a, Runs n (f a)] :
    Runs n (r >>= f) :=
  hr.bind hf

instance (f : α → β) (r : Reader α) [Forward r] [Runs n r] : Runs n (f <$> r) :=
  inferInstanceAs (Runs n (r >>= fun a => pure (f a)))

instance (c : Prop) [Decidable c] (r r' : Reader α) [Runs n r] [Runs n r'] :
    Runs n (if c then r else r') := by
  split
  · infer_instance
  · infer_instance

/-- **Step.** Where one more round takes a token, the repetition goes on with fewer. -/
theorem runsAt_many {go : State → Bool} {step : Reader α} (h : Shrinks go step) {s : State}
    (hgo : go s = true) (hstep : RunsAt n s step) (hmore : RunsAt n (step s).2 (many go step)) :
    RunsAt n s (many go step) := by
  have hround : many go step s =
      ((step s).1 :: (many go step (step s).2).1, (many go step (step s).2).2) := by
    rw [h.recurs.eq s, round, if_pos hgo]
    rfl
  unfold RunsAt
  rw [hround]
  exact .round hgo hstep (h s hgo) hmore

/-- **Run.** So it comes to an end. -/
theorem runs_many {go : State → Bool} {step : Reader α} (h : Shrinks go step) [hstep : Runs n step] :
    Runs n (many go step) := by
  constructor
  intro s
  induction hl : s.rest.length using Nat.strongRecOn generalizing s with
  | _ l ih =>
    subst hl
    intro hs
    by_cases hgo : go s = true
    · have hlt := h s hgo
      exact runsAt_many h hgo (hstep.run s hs)
        (ih _ hlt (step s).2 rfl (Nat.lt_trans hlt hs))
    · have hstop : many go step s = ([], s) := by
        rw [h.recurs.eq s, round, if_neg hgo]
      unfold RunsAt
      rw [hstop]
      exact .stop (Bool.eq_false_iff.2 hgo)

/-! ## Readers that call no other -/

instance (kind : TokenKind) : Plain (expect kind) := by
  unfold expect
  infer_instance

instance : Plain name := by
  unfold name
  infer_instance

instance : Plain typeName := by
  unfold typeName
  infer_instance

instance : Plain description? := by
  unfold description?
  infer_instance

instance (t : Token) : Plain (intLiteral t) := by
  unfold intLiteral
  dsimp only
  split
  · infer_instance
  · infer_instance

instance (t : Token) (make : Text.Span → Value) : Plain (literal t make) := by
  unfold literal
  infer_instance

instance : Plain noValue := by
  unfold noValue
  infer_instance

instance : Plain location? := by
  unfold location?
  dsimp only
  infer_instance

instance : Plain noDefinition := by
  unfold noDefinition
  infer_instance

/-! ## Readers that call themselves -/

theorem RunsAt.look {f : Token → Reader β} {s : State} (h : RunsAt n s (f s.current)) :
    RunsAt n s (peek >>= f) :=
  (Plain.run n s).bind h

/-- A token is taken, and what follows has fewer left. -/
theorem RunsAt.taken {f : Unit → Reader β} {s : State} (hs : s.advance.rest.length < n)
    [hf : ∀ a, Runs n (f a)] : RunsAt n s (advance >>= f) :=
  (Plain.run n s).bind ((hf ()).run s.advance hs)

/-- What follows a token of the kind has fewer left. -/
theorem RunsAt.branch {r q : Reader β} {s : State} {k : TokenKind} (hk : k ≠ .endOfInput)
    (hr : s.advance.rest.length < s.rest.length → RunsAt n s.advance r) (hq : RunsAt n s q) :
    RunsAt n s (accept k >>= fun b => if b = true then r else q) := by
  refine (Plain.run n s).bind ?_
  cases h : s.sees k with
  | true =>
    have htaken : accept k s = (true, s.advance) := if_pos h
    rw [htaken]
    exact hr (length_advance_lt (atEnd_of_sees hk h))
  | false =>
    have hleft : accept k s = (false, s) := if_neg (Bool.eq_false_iff.1 h)
    rw [hleft]
    exact hq

/-- **Step and run of a recursion.** If one level of a reader runs where its inner calls do, all
levels do. -/
theorem runs_of_level {body : Reader α → Reader α} {r : Reader α} (hr : Recurs body r)
    (call : ∀ {n : Nat} {s s' : State} {a : α}, s.rest.length < n →
      Run s.rest.length (body r) s a s' → Run n r s a s')
    (level : ∀ s : State, Runs s.rest.length r → RunsAt s.rest.length s (body r)) (n : Nat) :
    Runs n r := by
  induction n using Nat.strongRecOn with
  | _ n ih =>
    constructor
    intro s hs
    unfold RunsAt
    rw [hr.eq s]
    exact call hs (level s (ih _ hs))

instance : Runs n typeRef := by
  refine runs_of_level recurs_typeRef .typeRef (fun s hcalls => ?_) n
  unfold typeRefAt
  exact .look (.branch (by decide) (fun hlt => Runs.run _ hlt) (Plain.run _ _))

instance : Runs n value := by
  refine runs_of_level recurs_value .value (fun s hcalls => ?_) n
  have hitems : Runs s.rest.length
      (many (State.before [.punct .bracketClose, .punct .braceClose]) value) :=
    runs_many (shrinks_value (by decide))
  have hfield : Runs s.rest.length (objectField value) := by
    unfold objectField
    infer_instance
  have hfields := runs_many (n := s.rest.length) (shrinks_objectField value)
  unfold valueAt
  refine .look ?_
  cases hk : s.current.kind with
  | punct p =>
    have hs := length_advance_lt (s := s) (atEnd_of_kind (by rw [hk]; exact TokenKind.noConfusion))
    cases p with
    | bracketOpen => exact .look (.taken hs)
    | braceOpen => exact .look (.taken hs)
    | _ => exact Plain.run _ s
  | keyword word => cases word <;> exact Plain.run _ s
  | _ => exact Plain.run _ s

instance : Runs n locationsFrom := by
  refine runs_of_level recurs_locations .locations (fun s hcalls => ?_) n
  unfold locationsAt
  refine .look ?_
  dsimp only
  split
  · refine (Plain.run _ s).bind (.branch (by decide) (fun hlt => ?_) (Plain.run _ _))
    have hle := (Forward.leads (r := location?) s).length_le
    exact Runs.run _ (Nat.lt_of_lt_of_le hlt hle)
  · exact Plain.run _ s

/-! ## Parts of definitions -/

instance : Runs n argument := by
  unfold argument
  dsimp only
  infer_instance

instance : Runs n directive := by
  have harguments := runs_many (n := n) shrinks_argument
  unfold directive
  dsimp only
  infer_instance

instance : Runs n directives := runs_many shrinks_directive

instance : Runs n inputValue := by
  unfold inputValue
  dsimp only
  infer_instance

instance : Runs n inputValues := runs_many shrinks_inputValue

instance : Runs n argumentDefinitions := by
  unfold argumentDefinitions
  infer_instance

instance : Runs n field := by
  unfold field
  dsimp only
  infer_instance

instance : Runs n enumValue := by
  unfold enumValue
  dsimp only
  infer_instance

/-- A repetition in braces ends where its step takes a token whenever the next one closes none. -/
theorem runs_braced {item : Reader α} [Forward item] [Runs n item]
    (h : Shrinks (State.before [.punct .braceClose]) item) : Runs n (braced item) := by
  have hitems := runs_many (n := n) h
  unfold braced
  infer_instance

instance : Runs n implementedInterfaces := by
  have hmore := runs_many (n := n) shrinks_moreInterfaces
  unfold implementedInterfaces
  infer_instance

instance : Runs n unionMembers := by
  have hmore := runs_many (n := n) shrinks_moreMembers
  unfold unionMembers
  infer_instance

instance : Plain rootOperation? := by
  unfold rootOperation?
  refine ⟨fun n s => .look ?_⟩
  split
  · exact Plain.run n s
  · exact Plain.run n s

instance : Runs n locations := by
  unfold locations
  infer_instance

/-! ## Definitions -/

section Definitions

variable {s : State} (hs : s.advance.rest.length < n) (d : Option Description)

include hs

/-- The keyword is taken first, so what a definition calls has fewer tokens left. -/
theorem runsAt_schemaDefinition : RunsAt n s (schemaDefinition d) := by
  have hoperations := runs_many (n := n) shrinks_rootOperation
  unfold schemaDefinition
  exact .look (.taken hs)

theorem runsAt_fieldsDefinition : RunsAt n s (fieldsDefinition d) := by
  have hfields := runs_braced (n := n) shrinks_field
  unfold fieldsDefinition
  exact .look (.taken hs)

theorem runsAt_unionDefinition : RunsAt n s (unionDefinition d) := by
  unfold unionDefinition
  exact .look (.taken hs)

theorem runsAt_enumDefinition : RunsAt n s (enumDefinition d) := by
  have hvalues := runs_braced (n := n) shrinks_enumValue
  unfold enumDefinition
  exact .look (.taken hs)

theorem runsAt_inputDefinition : RunsAt n s (inputDefinition d) := by
  unfold inputDefinition
  exact .look (.taken hs)

theorem runsAt_scalarDefinition : RunsAt n s (scalarDefinition d) := by
  unfold scalarDefinition
  exact .look (.taken hs)

theorem runsAt_directiveDefinition : RunsAt n s (directiveDefinition d) := by
  unfold directiveDefinition
  exact .look (.taken hs)

end Definitions

instance : Runs n definition? := by
  refine runs_of_level recurs_definition .definition (fun s hcalls => ?_) n
  unfold definitionWith
  refine (Plain.run _ s).bind ?_
  have hle := (Forward.leads (r := description?) s).length_le
  unfold definitionAt
  refine .look ?_
  cases hk : (description? s).2.current.kind with
  | keyword word =>
    have hs : (description? s).2.advance.rest.length < s.rest.length :=
      Nat.lt_of_lt_of_le
        (length_advance_lt (atEnd_of_kind (by rw [hk]; exact TokenKind.noConfusion))) hle
    cases word with
    | schema => exact (runsAt_schemaDefinition hs _).bind (Plain.run _ _)
    | type => exact (runsAt_fieldsDefinition hs _).bind (Plain.run _ _)
    | interface => exact (runsAt_fieldsDefinition hs _).bind (Plain.run _ _)
    | union => exact (runsAt_unionDefinition hs _).bind (Plain.run _ _)
    | enum => exact (runsAt_enumDefinition hs _).bind (Plain.run _ _)
    | input => exact (runsAt_inputDefinition hs _).bind (Plain.run _ _)
    | scalar => exact (runsAt_scalarDefinition hs _).bind (Plain.run _ _)
    | directive => exact (runsAt_directiveDefinition hs _).bind (Plain.run _ _)
    | extend =>
      refine (Plain.run _ _).bind (.taken (n := s.rest.length) ?_)
      exact hs
    | _ => exact Plain.run _ _
  | _ => exact Plain.run _ _

instance : Runs n recover := by
  have hskip := runs_many (n := n) shrinks_skip
  unfold recover
  infer_instance

instance : Runs n definitionOrSkip := by
  unfold definitionOrSkip
  refine Runs.bind inferInstance fun d => ?_
  split
  · infer_instance
  · infer_instance

instance : Runs n document := by
  have hdefinitions := runs_many (n := n) shrinks_definitionOrSkip
  unfold document
  dsimp only
  infer_instance

end Reader

/-! ## Schemas -/

end SchemaToFlow.Schema
