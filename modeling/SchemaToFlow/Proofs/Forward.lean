import SchemaToFlow.Proofs.FirstSeen
import SchemaToFlow.Schema.Parse

/-!
# Readers only move forward

Whatever a reader does, it leaves a state that its state before leads to (`State.Leads`): tokens are
taken from the front, findings and names are added at the end, and unless an error was reported every
name is the text of a token. `Reader.Forward` says so of a reader. It is a class whose instances
follow the way in which readers are put together, so that it is found by instance search for every
reader made of others.

* `Leads.clean`: a run without errors had none on its way.
* `State.Named`: what holds of every token that may serve as a name holds of every name of a schema
  read without errors.
-/

set_option synthInstance.maxSize 1000

namespace SchemaToFlow.Schema

open Text

namespace State

/-- No error is reported. -/
def Clean (s : State) : Prop := s.report.hasErrors = false

/-- Every token that may serve as a name has the property, and as long as no error is reported, so has
every name. -/
structure Named (P : String → Prop) (s : State) : Prop where
  tokens : ∀ t ∈ s.rest, t.kind.isName → P t.text
  names : s.Clean → ∀ n ∈ s.names.names, P n

/-- Reading on may lead from one state to the other. -/
structure Leads (s s' : State) : Prop where
  rest : s'.rest <:+ s.rest
  report : s.report.entries <+: s'.report.entries
  names : s.names.names <+: s'.names.names
  named : ∀ P, s.Named P → s'.Named P

namespace Leads

variable {s s' s'' : State}

theorem refl (s : State) : s.Leads s :=
  ⟨List.suffix_rfl, List.prefix_rfl, List.prefix_rfl, fun _ => id⟩

theorem trans (h : s.Leads s') (h' : s'.Leads s'') : s.Leads s'' where
  rest := h'.rest.trans h.rest
  report := h.report.trans h'.report
  names := h.names.trans h'.names
  named P hs := h'.named P (h.named P hs)

/-- Errors stay: where there are none, there were none before. -/
theorem clean (h : s.Leads s') (hc : s'.Clean) : s.Clean := by
  obtain ⟨more, hmore⟩ := h.report
  unfold Clean Report.hasErrors at hc ⊢
  rw [← hmore, List.any_append, Bool.or_eq_false_iff] at hc
  exact hc.1

theorem length_le (h : s.Leads s') : s'.rest.length ≤ s.rest.length := h.rest.length_le

end Leads

theorem clean_add_iff {s : State} {d : Diagnostic} :
    ({ s with report := s.report.add d } : State).Clean ↔ s.Clean ∧ d.isError = false := by
  unfold Clean Report.hasErrors Report.add
  rw [List.any_append, Bool.or_eq_false_iff]
  simp

theorem leads_add (s : State) (d : Diagnostic) : s.Leads { s with report := s.report.add d } where
  rest := List.suffix_rfl
  report := List.prefix_append _ _
  names := List.prefix_rfl
  named _ hs := ⟨hs.tokens, fun hc => hs.names (clean_add_iff.1 hc).1⟩

theorem leads_advance (s : State) : s.Leads s.advance where
  rest := List.tail_suffix s.rest
  report := List.prefix_rfl
  names := List.prefix_rfl
  named _ hs := ⟨fun t ht => hs.tokens t (List.mem_of_mem_tail ht), hs.names⟩

/-- A name may be numbered if it is like the tokens or if there is an error already. -/
theorem leads_intern {s : State} {name : String} (h : ∀ P, s.Named P → s.Clean → P name) :
    s.Leads (Reader.intern name s).2 where
  rest := List.suffix_rfl
  report := List.prefix_rfl
  names := by
    show s.names.names <+: addNew s.names.names name
    unfold addNew
    split
    · exact List.prefix_rfl
    · exact List.prefix_append _ _
  named P hs := by
    refine ⟨hs.tokens, fun hc n hmem => ?_⟩
    rcases mem_addNew.1 hmem with hold | rfl
    · exact hs.names hc n hold
    · exact h P hs hc

/-- A token of any kind but the end mark stands at the front of the tokens left. -/
theorem exists_rest_of_current {s : State} (h : s.current.kind ≠ .endOfInput) :
    ∃ ts, s.rest = s.current :: ts := by
  unfold current at h ⊢
  cases hr : s.rest with
  | nil =>
    rw [hr] at h
    exact absurd rfl h
  | cons t ts => exact ⟨ts, rfl⟩

theorem current_of_rest {s : State} {t : Token} {ts : List Token} (h : s.rest = t :: ts) :
    s.current = t := by
  unfold current
  rw [h]
  rfl

theorem rest_advance {s : State} {t : Token} {ts : List Token} (h : s.rest = t :: ts) :
    s.advance.rest = ts := by
  unfold advance
  rw [h]
  rfl

theorem current_of_rest_nil {s : State} (h : s.rest = []) :
    s.current.kind = .endOfInput := by
  unfold current
  rw [h]
  rfl

end State

namespace Reader

variable {α β : Type}

/-- A reader that only moves forward. -/
class Forward (r : Reader α) : Prop where
  leads : ∀ s : State, s.Leads (r s).2

theorem Forward.clean (r : Reader α) [Forward r] {s : State} (h : (r s).2.Clean) : s.Clean :=
  (Forward.leads s).clean h

/-! ## Parts of readers -/

instance (a : α) : Forward (pure a : Reader α) := ⟨fun s => .refl s⟩

theorem Forward.bind {r : Reader α} {f : α → Reader β} (hr : Forward r)
    (hf : ∀ a, Forward (f a)) : Forward (r >>= f) :=
  ⟨fun s => (hr.leads s).trans ((hf (r s).1).leads (r s).2)⟩

instance (r : Reader α) (f : α → Reader β) [hr : Forward r] [hf : ∀ a, Forward (f a)] :
    Forward (r >>= f) :=
  hr.bind hf

instance (f : α → β) (r : Reader α) [Forward r] : Forward (f <$> r) :=
  ⟨fun s => Forward.leads (r := r) s⟩

instance (c : Prop) [Decidable c] (r r' : Reader α) [Forward r] [Forward r'] :
    Forward (if c then r else r') := by
  split
  · infer_instance
  · infer_instance

instance : Forward peek := ⟨fun s => .refl s⟩

instance : Forward advance := ⟨fun s => s.leads_advance⟩

instance (start : Nat) : Forward (spanFrom start) := ⟨fun s => .refl s⟩

instance (severity : Severity) (code title message : String) :
    Forward (flag severity code title message) :=
  ⟨fun s => s.leads_add _⟩

instance (kind : TokenKind) : Forward (accept kind) := by
  refine ⟨fun s => ?_⟩
  unfold accept
  split
  · exact s.leads_advance
  · exact .refl s

instance (what : String) : Forward (expected what) := by
  refine ⟨fun s => ?_⟩
  unfold expected
  split
  · exact s.leads_add _
  · exact s.leads_add _

instance (kind : TokenKind) : Forward (expect kind) := by
  unfold expect
  infer_instance

instance : Forward skipOffending := by
  refine ⟨fun s => ?_⟩
  unfold skipOffending
  split
  · exact s.leads_advance
  · exact .refl s

theorem forward_manyUpTo (go : State → Bool) (step : Reader α) [Forward step] :
    ∀ n, Forward (manyUpTo go step n)
  | 0 => ⟨fun s => .refl s⟩
  | n + 1 => by
    have ih := forward_manyUpTo go step n
    refine ⟨fun s => ?_⟩
    unfold manyUpTo
    split
    · exact Forward.leads (r := do return (← step) :: (← manyUpTo go step n)) s
    · exact .refl s

/-- A reader whose bound is the number of tokens left. -/
theorem Forward.ofBound {r : Nat → Reader α} (h : ∀ n, Forward (r n)) :
    Forward fun s => r s.rest.length s :=
  ⟨fun s => (h s.rest.length).leads s⟩

instance (go : State → Bool) (step : Reader α) [Forward step] : Forward (many go step) :=
  Forward.ofBound (forward_manyUpTo go step)

/-! ## The readers of a schema -/

/-- Numbering the text of a token that serves as a name. -/
theorem leads_intern_current {s : State} (h : s.current.kind.isName) :
    s.Leads (intern s.current.text s).2 := by
  refine State.leads_intern fun P hs _ => ?_
  have hne : s.current.kind ≠ .endOfInput := by
    intro hk
    rw [hk] at h
    cases h
  obtain ⟨ts, hrest⟩ := State.exists_rest_of_current hne
  exact hs.tokens _ (hrest ▸ List.mem_cons_self) h

theorem not_clean_expected (what : String) (s : State) : ¬ (expected what s).2.Clean := by
  unfold expected
  split
  · exact fun hc => Bool.noConfusion (State.clean_add_iff.1 hc).2
  · exact fun hc => Bool.noConfusion (State.clean_add_iff.1 hc).2

/-- An error that is reported stays, whatever is read next. -/
theorem not_clean_flag_bind (code title message : String) (f : Unit → Reader α)
    [∀ a, Forward (f a)] (s : State) :
    ¬ ((flag .error code title message >>= f) s).2.Clean := by
  intro hc
  have hflag : (flag .error code title message s).2.Clean := Forward.clean (f ()) hc
  exact Bool.noConfusion (State.clean_add_iff.1 hflag).2

/-- The empty name may be numbered after an error. -/
theorem leads_intern_empty {s s' : State} (what : String) (h : (expected what s).2.Leads s') :
    s'.Leads (intern "" s').2 :=
  State.leads_intern fun _ _ hc => absurd (h.clean hc) (not_clean_expected what s)

instance : Forward name := by
  refine ⟨fun s => ?_⟩
  unfold name
  rw [bind_apply]
  split
  · rename_i hn
    exact (leads_intern_current hn).trans (State.leads_advance _)
  · have hfound : s.Leads (expected "name" s).2 := Forward.leads s
    have hskip : (expected "name" s).2.Leads (skipOffending (expected "name" s).2).2 :=
      Forward.leads _
    exact (hfound.trans hskip).trans (leads_intern_empty "name" hskip)

instance : Forward typeName := by
  refine ⟨fun s => ?_⟩
  unfold typeName
  rw [bind_apply]
  split
  · rename_i hn
    exact (leads_intern_current hn).trans (State.leads_advance _)
  · have hfound : s.Leads (expected "type name" s).2 := Forward.leads s
    exact hfound.trans (leads_intern_empty "type name" (.refl _))

instance : Forward description? := by
  unfold description?
  infer_instance

instance (item : Reader TypeRef) [Forward item] : Forward (typeRefAt item) := by
  unfold typeRefAt
  dsimp only
  infer_instance

theorem forward_typeRefUpTo : ∀ n, Forward (typeRefUpTo n)
  | 0 => by
    unfold typeRefUpTo
    infer_instance
  | n + 1 => by
    have ih := forward_typeRefUpTo n
    unfold typeRefUpTo
    infer_instance

instance : Forward typeRef := Forward.ofBound forward_typeRefUpTo

instance (t : Token) : Forward (intLiteral t) := by
  unfold intLiteral
  dsimp only
  split
  · infer_instance
  · infer_instance

instance (t : Token) (make : Span → Value) : Forward (literal t make) := by
  unfold literal
  infer_instance

instance : Forward noValue := by
  unfold noValue
  infer_instance

instance (item : Reader Value) [Forward item] : Forward (listValue item) := by
  unfold listValue
  infer_instance

instance (value : Reader Value) [Forward value] : Forward (objectField value) := by
  unfold objectField
  infer_instance

instance (value : Reader Value) [Forward value] : Forward (objectValue value) := by
  unfold objectValue
  infer_instance

instance (part : Reader Value) [Forward part] : Forward (valueAt part) := by
  unfold valueAt
  refine Forward.bind inferInstance fun t => ?_
  split <;> infer_instance

theorem forward_valueUpTo : ∀ n, Forward (valueUpTo n)
  | 0 => by
    unfold valueUpTo
    infer_instance
  | n + 1 => by
    have ih := forward_valueUpTo n
    unfold valueUpTo
    infer_instance

instance : Forward value := Forward.ofBound forward_valueUpTo

instance : Forward argument := by
  unfold argument
  dsimp only
  infer_instance

instance : Forward directive := by
  unfold directive
  dsimp only
  infer_instance

instance : Forward directives := by
  unfold directives
  infer_instance

instance : Forward inputValue := by
  unfold inputValue
  dsimp only
  infer_instance

instance : Forward inputValues := by
  unfold inputValues
  infer_instance

instance : Forward argumentDefinitions := by
  unfold argumentDefinitions
  infer_instance

instance : Forward field := by
  unfold field
  dsimp only
  infer_instance

instance (item : Reader α) [Forward item] : Forward (braced item) := by
  unfold braced
  infer_instance

instance : Forward implementedInterfaces := by
  unfold implementedInterfaces
  infer_instance

instance : Forward rootOperation? := by
  unfold rootOperation?
  refine Forward.bind inferInstance fun t => ?_
  split <;> infer_instance

instance (d : Option Description) : Forward (schemaDefinition d) := by
  unfold schemaDefinition
  dsimp only
  infer_instance

instance (d : Option Description) : Forward (fieldsDefinition d) := by
  unfold fieldsDefinition
  dsimp only
  infer_instance

instance : Forward unionMembers := by
  unfold unionMembers
  infer_instance

instance (d : Option Description) : Forward (unionDefinition d) := by
  unfold unionDefinition
  dsimp only
  infer_instance

instance : Forward enumValue := by
  unfold enumValue
  dsimp only
  infer_instance

instance (d : Option Description) : Forward (enumDefinition d) := by
  unfold enumDefinition
  dsimp only
  infer_instance

instance (d : Option Description) : Forward (inputDefinition d) := by
  unfold inputDefinition
  dsimp only
  infer_instance

instance (d : Option Description) : Forward (scalarDefinition d) := by
  unfold scalarDefinition
  dsimp only
  infer_instance

instance : Forward location? := by
  unfold location?
  dsimp only
  infer_instance

instance (more : Reader (List Location)) [Forward more] : Forward (locationsAt more) := by
  unfold locationsAt
  dsimp only
  infer_instance

theorem forward_locationsUpTo : ∀ n, Forward (locationsUpTo n)
  | 0 => by
    unfold locationsUpTo
    infer_instance
  | n + 1 => by
    have ih := forward_locationsUpTo n
    unfold locationsUpTo
    infer_instance

instance : Forward locationsFrom := Forward.ofBound forward_locationsUpTo

instance : Forward locations := by
  unfold locations
  infer_instance

instance (d : Option Description) : Forward (directiveDefinition d) := by
  unfold directiveDefinition
  dsimp only
  infer_instance

instance : Forward noDefinition := by
  unfold noDefinition
  infer_instance

instance (d : Option Description) (extended : Reader (Option Definition)) [Forward extended] :
    Forward (definitionAt d extended) := by
  unfold definitionAt
  refine Forward.bind inferInstance fun t => ?_
  split <;> infer_instance

instance (extended : Reader (Option Definition)) [Forward extended] :
    Forward (definitionWith extended) := by
  unfold definitionWith
  infer_instance

theorem forward_definitionUpTo : ∀ n, Forward (definitionUpTo n)
  | 0 => by
    unfold definitionUpTo
    infer_instance
  | n + 1 => by
    have ih := forward_definitionUpTo n
    unfold definitionUpTo
    infer_instance

instance : Forward definition? := Forward.ofBound forward_definitionUpTo

instance : Forward recover := by
  unfold recover
  infer_instance

instance : Forward definitionOrSkip := by
  unfold definitionOrSkip
  refine Forward.bind inferInstance fun d => ?_
  split <;> infer_instance

instance : Forward document := by
  unfold document
  dsimp only
  infer_instance

end Reader

end SchemaToFlow.Schema
