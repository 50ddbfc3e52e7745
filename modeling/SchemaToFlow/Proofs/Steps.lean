import Mathlib.Logic.Relation
import SchemaToFlow.Proofs.Lookahead
import SchemaToFlow.Proofs.Tiling

/-!
# Reading step by step

A reader does three things to its state: it takes the next token, it numbers a name, and it reports
a finding about the next token. `State.Step` is any one of these, with what is known about the code
of a finding, and `Reader.Stepwise` says that a reader does nothing else. It is a class, found by
instance search for readers made of others, so that what one step keeps is kept by every reader.

* `Steps.grows`: tokens are taken from the front, names and findings are added at the end.
* `State.Fits`: what is left are the last tokens of the source, and the last token taken ends before
  the next one starts. Every step keeps this (`Step.fits`), and both places only move on
  (`Steps.lastStop_le`, `Steps.start_le`).
-/

set_option synthInstance.maxSize 1000

namespace SchemaToFlow.Schema

open Text Relation

namespace State

/-! ## Steps -/

/-- What a reader can do at once. -/
inductive Step : State → State → Prop
  | take (s : State) : Step s s.advance
  | number (s : State) (name : String) : Step s { s with names := (s.names.intern name).2 }
  /-- A finding about the next token; two codes tell whether that is the end mark. -/
  | report (s : State) (severity : Severity) {code : String} (title message : String) :
      (code = Diagnostic.unexpectedEnd → s.atEnd = true) →
      (code = Diagnostic.unexpectedToken → s.atEnd = false) →
      Step s { s with
        report := s.report.add (.located severity code title s.current.span message) }

/-- What a reader can do. -/
def Steps : State → State → Prop := ReflTransGen Step

/-- Tokens are taken from the front, and the rest only grows at its end. -/
structure Grows (s s' : State) : Prop where
  rest : s'.rest <:+ s.rest
  finish : s'.finish = s.finish
  report : s.report.entries <+: s'.report.entries
  names : s.names.names <+: s'.names.names

theorem Grows.refl (s : State) : s.Grows s :=
  ⟨List.suffix_rfl, rfl, List.prefix_rfl, List.prefix_rfl⟩

theorem Grows.trans {s s' s'' : State} (h : s.Grows s') (h' : s'.Grows s'') : s.Grows s'' where
  rest := h'.rest.trans h.rest
  finish := h'.finish.trans h.finish
  report := h.report.trans h'.report
  names := h.names.trans h'.names

variable {s s' s'' : State}

theorem Step.grows (h : Step s s') : s.Grows s' := by
  cases h with
  | take => exact ⟨List.tail_suffix s.rest, rfl, List.prefix_rfl, List.prefix_rfl⟩
  | number name => exact ⟨List.suffix_rfl, rfl, List.prefix_rfl, prefix_addNew _ _⟩
  | report severity title message _ _ =>
    exact ⟨List.suffix_rfl, rfl, List.prefix_append _ _, List.prefix_rfl⟩

namespace Steps

theorem refl (s : State) : s.Steps s := ReflTransGen.refl

theorem trans (h : s.Steps s') (h' : s'.Steps s'') : s.Steps s'' := ReflTransGen.trans h h'

theorem ofStep (h : Step s s') : s.Steps s' := ReflTransGen.single h

theorem grows (h : s.Steps s') : s.Grows s' := by
  induction h with
  | refl => exact .refl s
  | tail _ hstep ih => exact ih.trans hstep.grows

/-- Errors stay: where there are none, there were none before. -/
theorem clean (h : s.Steps s') (hc : s'.Clean) : s.Clean := by
  obtain ⟨more, hmore⟩ := h.grows.report
  unfold Clean Report.hasErrors at hc ⊢
  rw [← hmore, List.any_append, Bool.or_eq_false_iff] at hc
  exact hc.1

end Steps

/-! ## Places in a source -/

/-- The state is one in which the source can be read on. -/
structure Fits (source : String) (s : State) : Prop where
  rest : s.rest <:+ (State.start source).rest
  finish : s.finish = byteLength source.toList
  last : s.lastStop ≤ s.current.span.start
  valid : String.Pos.Raw.IsValid source ⟨s.lastStop⟩

theorem start_le_stop {source : String} {t : Token} (h : t ∈ tokenize source) :
    t.span.start ≤ t.span.stop := by
  obtain ⟨before, after, _, hspan⟩ := cutFrom_of_mem_tokenize source t h
  rw [hspan]
  exact Nat.le_add_right _ _

theorem fits_start (source : String) : (State.start source).Fits source :=
  ⟨List.suffix_rfl, rfl, Nat.zero_le _, String.Pos.Raw.isValid_zero⟩

namespace Fits

variable {source : String}

theorem ahead (h : s.Fits source) : s.ahead <:+ tokenize source := by
  obtain ⟨taken, htaken⟩ := h.rest
  refine ⟨taken, ?_⟩
  rw [State.ahead, ← List.append_assoc, htaken, h.finish]
  rfl

theorem current_mem (h : s.Fits source) : s.current ∈ tokenize source :=
  h.ahead.mem s.current_mem_ahead

/-- Only where every token is taken, the next one is the end mark. -/
theorem kind_ne (h : s.Fits source) (hend : s.atEnd = false) : s.current.kind ≠ .endOfInput := by
  have hne : s.rest ≠ [] := fun hnil => by rw [atEnd, hnil] at hend; cases hend
  obtain ⟨t, ts, hts⟩ := List.exists_cons_of_ne_nil hne
  rw [current_of_rest hts]
  exact (tiles_start source).kind_ne t (h.rest.mem (hts ▸ List.mem_cons_self))

/-- The token after the next one starts where the next one has ended. -/
theorem stop_le (h : s.Fits source) : s.current.span.stop ≤ s.advance.current.span.start := by
  cases hrest : s.rest with
  | nil =>
    have hnext : s.advance.current = s.current := by
      rw [current, current, advance, hrest]
      rfl
    have hempty : s.current = .endAt s.finish := by rw [current, hrest]; rfl
    rw [hnext, hempty]
    exact Nat.le_refl _
  | cons t ts =>
    have hpairs : s.ahead.Pairwise fun t u => t.span.stop ≤ u.span.start :=
      (pairwise_tokenize source).sublist h.ahead.sublist
    have hnext : s.advance.current ∈ ts ++ [.endAt s.finish] := by
      have hmem := s.advance.current_mem_ahead
      rwa [State.ahead, rest_advance hrest] at hmem
    rw [State.ahead, hrest, List.cons_append, List.pairwise_cons] at hpairs
    rw [current_of_rest hrest]
    exact hpairs.1 _ hnext

end Fits

variable {source : String}

/-- **Step.** Reading on keeps the place in the source. -/
theorem Step.fits (h : Step s s') (hs : s.Fits source) : s'.Fits source := by
  cases h with
  | take =>
    exact ⟨(List.tail_suffix s.rest).trans hs.rest, hs.finish, hs.stop_le,
      (cutFrom_of_mem_tokenize source _ hs.current_mem).valid.2.1⟩
  | number => exact ⟨hs.rest, hs.finish, hs.last, hs.valid⟩
  | report => exact ⟨hs.rest, hs.finish, hs.last, hs.valid⟩

theorem Step.lastStop_le (h : Step s s') (hs : s.Fits source) : s.lastStop ≤ s'.lastStop := by
  cases h with
  | take => exact Nat.le_trans hs.last (start_le_stop hs.current_mem)
  | number => exact Nat.le_refl _
  | report => exact Nat.le_refl _

theorem Step.start_le (h : Step s s') (hs : s.Fits source) :
    s.current.span.start ≤ s'.current.span.start := by
  cases h with
  | take => exact Nat.le_trans (start_le_stop hs.current_mem) hs.stop_le
  | number => exact Nat.le_refl _
  | report => exact Nat.le_refl _

namespace Steps

/-- **Run.** Whatever is read, the state keeps its place in the source. -/
theorem fits (h : s.Steps s') (hs : s.Fits source) : s'.Fits source := by
  induction h with
  | refl => exact hs
  | tail _ hstep ih => exact hstep.fits ih

theorem lastStop_le (h : s.Steps s') (hs : s.Fits source) : s.lastStop ≤ s'.lastStop := by
  induction h with
  | refl => exact Nat.le_refl _
  | tail hsteps hstep ih => exact Nat.le_trans ih (hstep.lastStop_le (fits hsteps hs))

theorem start_le (h : s.Steps s') (hs : s.Fits source) :
    s.current.span.start ≤ s'.current.span.start := by
  induction h with
  | refl => exact Nat.le_refl _
  | tail hsteps hstep ih => exact Nat.le_trans ih (hstep.start_le (fits hsteps hs))

end Steps

end State

/-! ## Readers -/

namespace Reader

variable {α β : Type}

/-- A reader that only takes steps. -/
class Stepwise (r : Reader α) : Prop where
  steps : ∀ s : State, s.Steps (r s).2

instance (a : α) : Stepwise (pure a : Reader α) := ⟨fun s => .refl s⟩

theorem Stepwise.bind {r : Reader α} {f : α → Reader β} (hr : Stepwise r)
    (hf : ∀ a, Stepwise (f a)) : Stepwise (r >>= f) :=
  ⟨fun s => (hr.steps s).trans ((hf (r s).1).steps (r s).2)⟩

instance (r : Reader α) (f : α → Reader β) [hr : Stepwise r] [hf : ∀ a, Stepwise (f a)] :
    Stepwise (r >>= f) :=
  hr.bind hf

instance (f : α → β) (r : Reader α) [Stepwise r] : Stepwise (f <$> r) :=
  ⟨fun s => Stepwise.steps (r := r) s⟩

instance (c : Prop) [Decidable c] (r r' : Reader α) [Stepwise r] [Stepwise r'] :
    Stepwise (if c then r else r') := by
  split
  · infer_instance
  · infer_instance

instance : Stepwise peek := ⟨fun s => .refl s⟩

instance : Stepwise advance := ⟨fun s => .ofStep (.take s)⟩

instance (start : Nat) : Stepwise (spanFrom start) := ⟨fun s => .refl s⟩

instance (name : String) : Stepwise (intern name) := ⟨fun s => .ofStep (.number s name)⟩

/-- A finding of any code but the two that tell about the end mark. -/
theorem stepwise_flag {code : String} (hend : code ≠ Diagnostic.unexpectedEnd)
    (htoken : code ≠ Diagnostic.unexpectedToken) (severity : Severity) (title message : String) :
    Stepwise (flag severity code title message) :=
  ⟨fun s => .ofStep (.report s severity title message (fun h => absurd h hend)
    fun h => absurd h htoken)⟩

instance (severity : Severity) (title message : String) :
    Stepwise (flag severity Diagnostic.invalidSyntax title message) :=
  stepwise_flag (by decide) (by decide) severity title message

instance (severity : Severity) (title message : String) :
    Stepwise (flag severity Diagnostic.unsupportedSyntax title message) :=
  stepwise_flag (by decide) (by decide) severity title message

instance (severity : Severity) (title message : String) :
    Stepwise (flag severity Diagnostic.unknownLocation title message) :=
  stepwise_flag (by decide) (by decide) severity title message

instance (what : String) : Stepwise (expected what) := by
  refine ⟨fun s => ?_⟩
  unfold expected
  by_cases h : s.atEnd = true
  · rw [if_pos h]
    exact .ofStep (.report s _ _ _ (fun _ => h) fun hcode => absurd hcode (by decide))
  · rw [if_neg h]
    exact .ofStep (.report s _ _ _ (fun hcode => absurd hcode (by decide))
      fun _ => Bool.eq_false_iff.2 h)

instance (kind : TokenKind) : Stepwise (accept kind) := by
  refine ⟨fun s => ?_⟩
  unfold accept
  split
  · exact .ofStep (.take s)
  · exact .refl s

instance (kind : TokenKind) : Stepwise (expect kind) := by
  unfold expect
  infer_instance

instance : Stepwise skipOffending := by
  refine ⟨fun s => ?_⟩
  unfold skipOffending
  split
  · exact .ofStep (.take s)
  · exact .refl s

theorem stepwise_manyUpTo (go : State → Bool) (step : Reader α) [Stepwise step] :
    ∀ n, Stepwise (manyUpTo go step n)
  | 0 => ⟨fun s => .refl s⟩
  | n + 1 => by
    have ih := stepwise_manyUpTo go step n
    refine ⟨fun s => ?_⟩
    unfold manyUpTo
    split
    · exact Stepwise.steps (r := do return (← step) :: (← manyUpTo go step n)) s
    · exact .refl s

/-- A reader whose bound is the number of tokens left. -/
theorem Stepwise.ofBound {r : Nat → Reader α} (h : ∀ n, Stepwise (r n)) :
    Stepwise fun s => r s.rest.length s :=
  ⟨fun s => (h s.rest.length).steps s⟩

instance (go : State → Bool) (step : Reader α) [Stepwise step] : Stepwise (many go step) :=
  Stepwise.ofBound (stepwise_manyUpTo go step)

instance : Stepwise name := by
  unfold name
  infer_instance

instance : Stepwise typeName := by
  unfold typeName
  infer_instance

instance : Stepwise description? := by
  unfold description?
  infer_instance

theorem stepwise_typeRefUpTo : ∀ n, Stepwise (typeRefUpTo n)
  | 0 => by
    unfold typeRefUpTo
    infer_instance
  | n + 1 => by
    have ih := stepwise_typeRefUpTo n
    unfold typeRefUpTo typeRefAt
    dsimp only
    infer_instance

instance : Stepwise typeRef := Stepwise.ofBound stepwise_typeRefUpTo

instance (t : Token) : Stepwise (intLiteral t) := by
  unfold intLiteral
  dsimp only
  split
  · infer_instance
  · infer_instance

instance (t : Token) (make : Span → Value) : Stepwise (literal t make) := by
  unfold literal
  infer_instance

instance : Stepwise noValue := by
  unfold noValue
  infer_instance

instance (item : Reader Value) [Stepwise item] : Stepwise (listValue item) := by
  unfold listValue
  infer_instance

instance (value : Reader Value) [Stepwise value] : Stepwise (objectField value) := by
  unfold objectField
  infer_instance

instance (value : Reader Value) [Stepwise value] : Stepwise (objectValue value) := by
  unfold objectValue
  infer_instance

theorem stepwise_valueUpTo : ∀ n, Stepwise (valueUpTo n)
  | 0 => by
    unfold valueUpTo
    infer_instance
  | n + 1 => by
    have ih := stepwise_valueUpTo n
    unfold valueUpTo valueAt
    refine Stepwise.bind inferInstance fun t => ?_
    split <;> infer_instance

instance : Stepwise value := Stepwise.ofBound stepwise_valueUpTo

instance : Stepwise argument := by
  unfold argument
  dsimp only
  infer_instance

instance : Stepwise directive := by
  unfold directive
  dsimp only
  infer_instance

instance : Stepwise directives := by
  unfold directives
  infer_instance

instance : Stepwise inputValue := by
  unfold inputValue
  dsimp only
  infer_instance

instance : Stepwise inputValues := by
  unfold inputValues
  infer_instance

instance : Stepwise argumentDefinitions := by
  unfold argumentDefinitions
  infer_instance

instance : Stepwise field := by
  unfold field
  dsimp only
  infer_instance

instance (item : Reader α) [Stepwise item] : Stepwise (braced item) := by
  unfold braced
  infer_instance

instance : Stepwise implementedInterfaces := by
  unfold implementedInterfaces
  infer_instance

instance : Stepwise rootOperation? := by
  unfold rootOperation?
  refine Stepwise.bind inferInstance fun t => ?_
  split <;> infer_instance

instance (d : Option Description) : Stepwise (schemaDefinition d) := by
  unfold schemaDefinition
  dsimp only
  infer_instance

instance (d : Option Description) : Stepwise (fieldsDefinition d) := by
  unfold fieldsDefinition
  dsimp only
  infer_instance

instance : Stepwise unionMembers := by
  unfold unionMembers
  infer_instance

instance (d : Option Description) : Stepwise (unionDefinition d) := by
  unfold unionDefinition
  dsimp only
  infer_instance

instance : Stepwise enumValue := by
  unfold enumValue
  dsimp only
  infer_instance

instance (d : Option Description) : Stepwise (enumDefinition d) := by
  unfold enumDefinition
  dsimp only
  infer_instance

instance (d : Option Description) : Stepwise (inputDefinition d) := by
  unfold inputDefinition
  dsimp only
  infer_instance

instance (d : Option Description) : Stepwise (scalarDefinition d) := by
  unfold scalarDefinition
  dsimp only
  infer_instance

instance : Stepwise location? := by
  unfold location?
  dsimp only
  infer_instance

theorem stepwise_locationsUpTo : ∀ n, Stepwise (locationsUpTo n)
  | 0 => by
    unfold locationsUpTo
    infer_instance
  | n + 1 => by
    have ih := stepwise_locationsUpTo n
    unfold locationsUpTo locationsAt
    dsimp only
    infer_instance

instance : Stepwise locations := by
  unfold locations
  exact Stepwise.bind inferInstance fun _ => Stepwise.ofBound stepwise_locationsUpTo

instance (d : Option Description) : Stepwise (directiveDefinition d) := by
  unfold directiveDefinition
  dsimp only
  infer_instance

instance : Stepwise noDefinition := by
  unfold noDefinition
  infer_instance

instance (d : Option Description) (extended : Reader (Option Definition)) [Stepwise extended] :
    Stepwise (definitionAt d extended) := by
  unfold definitionAt
  refine Stepwise.bind inferInstance fun t => ?_
  split <;> infer_instance

theorem stepwise_definitionUpTo : ∀ n, Stepwise (definitionUpTo n)
  | 0 => by
    unfold definitionUpTo
    infer_instance
  | n + 1 => by
    have ih := stepwise_definitionUpTo n
    unfold definitionUpTo definitionWith
    infer_instance

instance : Stepwise definition? := Stepwise.ofBound stepwise_definitionUpTo

instance : Stepwise recover := by
  unfold recover
  infer_instance

instance : Stepwise definitionOrSkip := by
  unfold definitionOrSkip
  refine Stepwise.bind inferInstance fun d => ?_
  split <;> infer_instance

instance : Stepwise document := by
  unfold document
  dsimp only
  infer_instance

end Reader

end SchemaToFlow.Schema
