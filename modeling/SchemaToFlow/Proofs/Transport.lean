import SchemaToFlow.Proofs.Forward
import SchemaToFlow.Proofs.Recast

/-!
# Reading the same tokens from another place

What a reader does depends on the kinds and texts of the tokens. Where they stand, which names are
numbered and what is reported already only shows in the result. A `Transport` moves a state to other
places, another table of names and another report, and `Reader.Follows m r r'` says that `r'` does
from the state moved by `m` what `r` does from the state itself: it gives the same result, recast,
and leaves the same state, moved.

* `Follows.bind` and the rules beside it follow the way in which readers are put together.
* `follows_document`: reading a whole schema follows every transport.
* `Transport.erase` forgets all places.

Numbers given out early must agree with numbers given out later. So the state before is compared
with the table that all of reading leads to (`Transport.final`), as in `Reader.Yields`.
-/

set_option synthInstance.maxSize 1000

namespace SchemaToFlow.Schema

open Text

/-- A way to move a state: to other places, another table and another report. -/
structure Transport where
  change : Change
  table : NameTable → NameTable
  report : Report → Report
  /-- The table that reading leads to. -/
  final : NameTable
  place_max : ∀ a b, change.place (max a b) = max (change.place a) (change.place b)
  table_add : ∀ t n, table (t.add n) = (table t).add n
  number_intern : ∀ t n, (t.add n).names <+: final.names →
    change.number (t.intern n).1 = ((table t).intern n).1
  report_add : ∀ r d, report (r.add d) = (report r).add (recast change d)

namespace Transport

/-- Forgets all places, and keeps names and findings. -/
def erase (final : NameTable) : Transport where
  change := .erase
  table := id
  report r := ⟨recast .erase r.entries⟩
  final := final
  place_max _ _ := rfl
  table_add _ _ := rfl
  number_intern _ _ _ := rfl
  report_add r d := by
    show Report.mk ((r.entries ++ [d]).map (recast .erase)) = _
    rw [List.map_append]
    rfl

variable (m : Transport)

/-- The state moved. -/
def state (s : State) : State where
  rest := recast m.change s.rest
  finish := m.change.place s.finish
  lastStop := m.change.place s.lastStop
  names := m.table s.names
  report := m.report s.report

theorem length_rest (s : State) : (m.state s).rest.length = s.rest.length := List.length_map _

theorem atEnd_state (s : State) : (m.state s).atEnd = s.atEnd := List.isEmpty_map

theorem current_state (s : State) : (m.state s).current = recast m.change s.current := by
  show (s.rest.map (recast m.change)).headD (.endAt (m.change.place s.finish)) = _
  unfold State.current
  cases s.rest <;> rfl

theorem kind_current (s : State) : (m.state s).current.kind = s.current.kind := by
  rw [current_state]
  rfl

theorem sees_state (s : State) (kind : TokenKind) : (m.state s).sees kind = s.sees kind := by
  unfold State.sees
  rw [kind_current]

theorem before_state (stops : List TokenKind) (s : State) :
    State.before stops (m.state s) = State.before stops s := by
  unfold State.before
  rw [kind_current, atEnd_state]

theorem advance_state (s : State) : (m.state s).advance = m.state s.advance := by
  unfold State.advance state
  congr 1
  · exact List.map_tail.symm
  · exact congrArg (fun t : Token => t.span.stop) (m.current_state s)

end Transport

namespace Reader

variable {α β : Type} [Recast α] [Recast β] {m : Transport}

/-- The second reader does from the state moved what the first does from the state itself. -/
def Follows (m : Transport) (r r' : Reader α) : Prop :=
  ∀ s, (r s).2.names.names <+: m.final.names →
    r' (m.state s) = (recast m.change (r s).1, m.state (r s).2)

/-- The same of a step that numbers no name. -/
def Keeps (m : Transport) (r r' : Reader α) : Prop :=
  ∀ s, r' (m.state s) = (recast m.change (r s).1, m.state (r s).2)

namespace Follows

variable {r r' q q' : Reader α} {f f' : α → Reader β}

theorem done (a : α) : Follows m (pure a) (pure (recast m.change a)) := fun _ _ => rfl

theorem done_of_eq {a a' : α} (h : recast m.change a = a') : Follows m (pure a) (pure a') :=
  h ▸ done a

/-- What follows may rely on what came before, since the table only grows. -/
theorem bind [∀ a, Forward (f a)] (hr : Follows m r r')
    (hf : ∀ a, Follows m (f a) (f' (recast m.change a))) : Follows m (r >>= f) (r' >>= f') := by
  intro s h
  have hgrow : (r s).2.names.names <+: (f (r s).1 (r s).2).2.names.names :=
    (Forward.leads _).names
  rw [bind_apply, hr s (hgrow.trans h)]
  exact hf (r s).1 (r s).2 h

theorem step (hr : Keeps m r r') (hf : ∀ a, Follows m (f a) (f' (recast m.change a))) :
    Follows m (r >>= f) (r' >>= f') := by
  intro s h
  rw [bind_apply, hr s]
  exact hf (r s).1 (r s).2 h

theorem given {a : α} (hf : Follows m (f a) (f' (recast m.change a))) :
    Follows m (pure a >>= f) (pure (recast m.change a) >>= f') := hf

theorem ite {c : Prop} [Decidable c] (h : Follows m r r') (h' : Follows m q q') :
    Follows m (if c then r else q) (if c then r' else q') := by
  by_cases hc : c
  · rw [if_pos hc, if_pos hc]
    exact h
  · rw [if_neg hc, if_neg hc]
    exact h'

theorem map {g g' : α → β} (h : Follows m r r')
    (hg : ∀ a, g' (recast m.change a) = recast m.change (g a)) :
    Follows m (g <$> r) (g' <$> r') := by
  intro s hs
  rw [map_apply, map_apply, h s hs, hg]

theorem ofBound {r r' : Nat → Reader α} (h : ∀ n, Follows m (r n) (r' n)) :
    Follows m (fun s => r s.rest.length s) (fun s => r' s.rest.length s) := by
  intro s hs
  show r' (m.state s).rest.length (m.state s) = _
  rw [m.length_rest]
  exact h s.rest.length s hs

theorem manyUpTo {go : State → Bool} (hgo : ∀ s, go (m.state s) = go s) [Forward r]
    (h : Follows m r r') : ∀ n, Follows m (Reader.manyUpTo go r n) (Reader.manyUpTo go r' n)
  | 0 => done []
  | n + 1 => by
    have hforward := forward_manyUpTo go r n
    have hround : Follows m (do return (← r) :: (← Reader.manyUpTo go r n))
        (do return (← r') :: (← Reader.manyUpTo go r' n)) :=
      h.bind fun a => (manyUpTo hgo h n).bind fun as => done (a :: as)
    intro s hs
    unfold Reader.manyUpTo at hs ⊢
    rw [hgo]
    by_cases hc : go s
    · rw [if_pos hc] at hs ⊢
      rw [if_pos hc]
      exact hround s hs
    · rw [if_neg hc, if_neg hc]
      rfl

theorem many {go : State → Bool} (hgo : ∀ s, go (m.state s) = go s) [Forward r]
    (h : Follows m r r') : Follows m (Reader.many go r) (Reader.many go r') :=
  ofBound (manyUpTo hgo h)

end Follows

open Follows

/-! ## Single steps -/

theorem keeps_peek : Keeps m peek peek := by
  intro s
  show ((m.state s).current, m.state s) = _
  rw [m.current_state]
  rfl

theorem keeps_advance : Keeps m advance advance := by
  intro s
  show ((), (m.state s).advance) = _
  rw [m.advance_state]
  rfl

theorem keeps_accept (kind : TokenKind) : Keeps m (accept kind) (accept kind) := by
  intro s
  unfold accept
  rw [m.sees_state, m.advance_state]
  split
  · rfl
  · rfl

theorem keeps_spanFrom (start : Nat) :
    Keeps m (spanFrom start) (spanFrom (m.change.place start)) := by
  intro s
  show (Span.mk (m.change.place start) (max (m.change.place s.lastStop) (m.change.place start)),
    m.state s) = _
  rw [← m.place_max]
  rfl

theorem keeps_flag (severity : Severity) (code title message : String) :
    Keeps m (flag severity code title message) (flag severity code title message) := by
  intro s
  have hreport := m.report_add s.report (.located severity code title s.current.span message)
  unfold flag
  rw [m.current_state]
  unfold Transport.state
  rw [hreport]
  rfl

theorem keeps_expected (what : String) : Keeps m (expected what) (expected what) := by
  intro s
  have htext : (m.state s).current.text = s.current.text := by
    rw [m.current_state]
    rfl
  unfold expected
  rw [m.atEnd_state, htext]
  split
  · exact keeps_flag _ _ _ _ s
  · exact keeps_flag _ _ _ _ s

theorem keeps_skipOffending : Keeps m skipOffending skipOffending := by
  intro s
  unfold skipOffending
  rw [m.before_state, m.advance_state]
  split
  · rfl
  · rfl

theorem keeps_expect (kind : TokenKind) : Keeps m (expect kind) (expect kind) := by
  intro s
  unfold expect
  rw [bind_apply, bind_apply, keeps_accept kind s]
  cases (accept kind s).1 with
  | true => rfl
  | false => exact keeps_expected kind.describe (accept kind s).2

theorem follows_intern (n : String) : Follows m (intern n) (intern n) := by
  intro s h
  have hnumber : m.change.number (s.names.intern n).1 = ((m.table s.names).intern n).1 :=
    m.number_intern s.names n h
  have htable : m.table (s.names.add n) = (m.table s.names).add n := m.table_add s.names n
  show (((m.table s.names).intern n).1, _) =
    (m.change.number (s.names.intern n).1, m.state { s with names := s.names.add n })
  rw [hnumber]
  unfold Transport.state
  rw [htable]
  rfl

/-! ## The readers of a schema -/

theorem follows_name : Follows m name name := by
  unfold name
  refine step keeps_peek fun t => ite ?_ ?_
  · exact (follows_intern t.text).bind fun _ => step keeps_advance fun _ => done _
  · refine step (keeps_expected "name") fun _ => step keeps_skipOffending fun _ => ?_
    exact (follows_intern "").bind fun _ => done _

theorem follows_typeName : Follows m typeName typeName := by
  unfold typeName
  refine step keeps_peek fun t => ite ?_ ?_
  · exact (follows_intern t.text).bind fun _ => step keeps_advance fun _ => done _
  · exact step (keeps_expected "type name") fun _ => (follows_intern "").bind fun _ => done _

theorem follows_description? : Follows m description? description? := by
  unfold description?
  exact step keeps_peek fun t => ite (step keeps_advance fun _ => done _) (done _)

theorem follows_typeRefUpTo : ∀ n, Follows m (typeRefUpTo n) (typeRefUpTo n)
  | 0 => follows_typeName.bind fun _ => done _
  | n + 1 => by
    have hforward := forward_typeRefUpTo n
    unfold typeRefUpTo typeRefAt
    dsimp only
    have hbang (start : Nat) (inner : TypeRef) :
        Follows m
          (do if ← accept (.punct .bang) then return .nonNull inner (← spanFrom start)
              else return inner)
          (do if ← accept (.punct .bang) then
                return .nonNull (recast m.change inner) (← spanFrom (m.change.place start))
              else return recast m.change inner) :=
      step (keeps_accept _) fun _ => ite (step (keeps_spanFrom start) fun _ => done _) (done _)
    refine step keeps_peek fun t => step (keeps_accept _) fun _ => ite ?_ ?_
    · exact (follows_typeRefUpTo n).bind fun item => step (keeps_expect _) fun _ =>
        step (keeps_spanFrom t.span.start) fun span => hbang t.span.start (.list item span)
    · exact follows_typeName.bind fun nm => hbang t.span.start (.named nm)

theorem follows_typeRef : Follows m typeRef typeRef := ofBound follows_typeRefUpTo

theorem follows_literal (t : Token) {make make' : Span → Value}
    (h : ∀ span, make' (recast m.change span) = recast m.change (make span)) :
    Follows m (literal t make) (literal (recast m.change t) make') := by
  unfold literal
  refine step keeps_advance fun _ => step (keeps_spanFrom t.span.start) fun span => ?_
  exact done_of_eq (h span).symm

theorem follows_intLiteral (t : Token) :
    Follows m (intLiteral t) (intLiteral (recast m.change t)) := by
  have hvalue (v : Int) : Follows m (do advance; return Value.int v (← spanFrom t.span.start))
      (do advance; return Value.int v (← spanFrom (m.change.place t.span.start))) :=
    step keeps_advance fun _ => step (keeps_spanFrom t.span.start) fun _ => done _
  unfold intLiteral
  dsimp only
  have htext : (recast m.change t).text = t.text := rfl
  rw [htext]
  cases Numeral.int64? t.text with
  | some v => exact hvalue v
  | none => exact step (keeps_flag _ _ _ _) fun _ => hvalue 0

theorem follows_noValue : Follows m noValue noValue := by
  unfold noValue
  refine step keeps_peek fun t => step (keeps_expected "value") fun _ => ?_
  exact step keeps_skipOffending fun _ => step (keeps_spanFrom t.span.start) fun _ => done _

theorem follows_listValue {item item' : Reader Value} [Forward item] (h : Follows m item item') :
    Follows m (listValue item) (listValue item') := by
  unfold listValue
  refine step keeps_peek fun t => step keeps_advance fun _ => ?_
  refine (h.many (m.before_state _)).bind fun items => step (keeps_expect _) fun _ => ?_
  refine step (keeps_spanFrom t.span.start) fun span => done_of_eq ?_
  exact congrArg (Value.list · (recast m.change span)) (recastItems_eq m.change items)

theorem follows_objectField {value value' : Reader Value} [Forward value]
    (h : Follows m value value') : Follows m (objectField value) (objectField value') := by
  unfold objectField
  exact follows_name.bind fun _ => step (keeps_expect _) fun _ => h.bind fun _ => done _

theorem follows_objectValue {value value' : Reader Value} [Forward value]
    (h : Follows m value value') : Follows m (objectValue value) (objectValue value') := by
  unfold objectValue
  refine step keeps_peek fun t => step keeps_advance fun _ => ?_
  refine ((follows_objectField h).many (m.before_state _)).bind fun fields => ?_
  refine step (keeps_expect _) fun _ => step (keeps_spanFrom t.span.start) fun span => done_of_eq ?_
  exact congrArg (Value.object · (recast m.change span)) (recastFields_eq m.change fields)

theorem follows_valueUpTo : ∀ n, Follows m (valueUpTo n) (valueUpTo n)
  | 0 => follows_noValue
  | n + 1 => by
    have hforward := forward_valueUpTo n
    have hconstant : Follows m (do let constant ← name; return Value.enum constant.id constant.span)
        (do let constant ← name; return Value.enum constant.id constant.span) :=
      follows_name.bind fun _ => done _
    unfold valueUpTo valueAt
    refine step keeps_peek fun t => ?_
    have hkind : (recast m.change t).kind = t.kind := rfl
    rw [hkind]
    -- one case for each kind of token, since both sides look at the same kind
    generalize t.kind = kind
    cases kind with
    | int => exact follows_intLiteral t
    | float => exact follows_literal t fun _ => rfl
    | string | blockString => exact follows_literal t fun _ => rfl
    | name => exact hconstant
    | endOfInput | invalid => exact follows_noValue
    | keyword word =>
      cases word with
      | trueValue | falseValue | nullValue => exact follows_literal t fun _ => rfl
      | _ => exact hconstant
    | punct mark =>
      cases mark with
      | bracketOpen => exact follows_listValue (follows_valueUpTo n)
      | braceOpen => exact follows_objectValue (follows_valueUpTo n)
      | _ => exact follows_noValue

theorem follows_value : Follows m value value := ofBound follows_valueUpTo

theorem follows_argument : Follows m argument argument := by
  unfold argument
  refine step keeps_peek fun t => follows_name.bind fun _ => step (keeps_expect _) fun _ => ?_
  exact follows_value.bind fun _ => step (keeps_spanFrom t.span.start) fun _ => done _

theorem follows_directive : Follows m directive directive := by
  unfold directive
  dsimp only
  refine step keeps_peek fun t => step keeps_advance fun _ => follows_name.bind fun nm => ?_
  refine step (keeps_accept _) fun _ => ite ?_ ?_
  · refine (follows_argument.many (m.before_state _)).bind fun _ => ?_
    refine step (keeps_expect _) fun _ => ?_
    exact given (step (keeps_spanFrom t.span.start) fun _ => done _)
  · exact given (step (keeps_spanFrom t.span.start) fun _ => done _)

theorem follows_directives : Follows m directives directives := by
  unfold directives
  exact follows_directive.many fun s => m.sees_state s _

theorem follows_inputValue : Follows m inputValue inputValue := by
  have hdefault : Follows m (some <$> value) (some <$> value) := follows_value.map fun _ => rfl
  unfold inputValue
  dsimp only
  refine follows_description?.bind fun _ => step keeps_peek fun t => follows_name.bind fun _ => ?_
  refine step (keeps_expect _) fun _ => follows_typeRef.bind fun _ => ?_
  refine step (keeps_accept _) fun _ => ?_
  refine ite ?_ ?_
  · refine hdefault.bind fun _ => follows_directives.bind fun _ => ?_
    exact step (keeps_spanFrom t.span.start) fun _ => done _
  · refine given (follows_directives.bind fun _ => ?_)
    exact step (keeps_spanFrom t.span.start) fun _ => done _

theorem follows_inputValues : Follows m inputValues inputValues := by
  unfold inputValues
  exact follows_inputValue.many (m.before_state _)

theorem follows_argumentDefinitions : Follows m argumentDefinitions argumentDefinitions := by
  unfold argumentDefinitions
  refine step (keeps_accept _) fun _ => ite ?_ (done _)
  exact follows_inputValues.bind fun _ => step (keeps_expect _) fun _ => done _

theorem follows_field : Follows m field field := by
  unfold field
  refine follows_description?.bind fun _ => step keeps_peek fun t => follows_name.bind fun _ => ?_
  refine follows_argumentDefinitions.bind fun _ => step (keeps_expect _) fun _ => ?_
  refine follows_typeRef.bind fun _ => follows_directives.bind fun _ => ?_
  exact step (keeps_spanFrom t.span.start) fun _ => done _

theorem follows_braced {item : Reader α} [Forward item] (h : Follows m item item) :
    Follows m (braced item) (braced item) := by
  unfold braced
  refine step (keeps_accept _) fun _ => ite ?_ (done _)
  exact (h.many (m.before_state _)).bind fun _ => step (keeps_expect _) fun _ => done _

theorem follows_implementedInterfaces :
    Follows m implementedInterfaces implementedInterfaces := by
  unfold implementedInterfaces
  refine step (keeps_accept _) fun _ => ite ?_ (done _)
  refine step (keeps_accept _) fun _ => follows_typeName.bind fun _ => ?_
  have hgo (s : State) : ((m.state s).sees (.punct .ampersand) || (m.state s).sees .name) =
      (s.sees (.punct .ampersand) || s.sees .name) := by
    rw [m.sees_state, m.sees_state]
  exact (Follows.many hgo (step (keeps_accept _) fun _ => follows_typeName)).bind fun _ => done _

theorem follows_unionMembers : Follows m unionMembers unionMembers := by
  unfold unionMembers
  refine step (keeps_accept _) fun _ => ite ?_ (done _)
  refine step (keeps_accept _) fun _ => follows_typeName.bind fun _ => ?_
  exact (Follows.many (fun s => m.sees_state s _)
    (step keeps_advance fun _ => follows_typeName)).bind fun _ => done _

theorem follows_rootOperation? : Follows m rootOperation? rootOperation? := by
  unfold rootOperation?
  refine step keeps_peek fun t => ?_
  have hkind : (recast m.change t).kind = t.kind := rfl
  rw [hkind]
  cases operationOf? t.kind with
  | some operation =>
    refine step keeps_advance fun _ => step (keeps_expect _) fun _ => ?_
    exact follows_typeName.bind fun _ => step (keeps_spanFrom t.span.start) fun _ => done _
  | none => exact step (keeps_expected _) fun _ => step keeps_advance fun _ => done _

theorem follows_schemaDefinition (d : Option Description) :
    Follows m (schemaDefinition d) (schemaDefinition (recast m.change d)) := by
  unfold schemaDefinition
  refine step keeps_peek fun t => step keeps_advance fun _ => follows_directives.bind fun _ => ?_
  refine step (keeps_expect _) fun _ => ?_
  refine (follows_rootOperation?.many (m.before_state _)).bind fun operations => ?_
  refine step (keeps_expect _) fun _ => step (keeps_spanFrom t.span.start) fun span => done_of_eq ?_
  exact congrArg (SchemaDefinition.mk _ _ · _) (recast_filterMap_id m.change operations)

theorem follows_fieldsDefinition (d : Option Description) :
    Follows m (fieldsDefinition d) (fieldsDefinition (recast m.change d)) := by
  unfold fieldsDefinition
  refine step keeps_peek fun t => step keeps_advance fun _ => follows_name.bind fun _ => ?_
  refine follows_implementedInterfaces.bind fun _ => follows_directives.bind fun _ => ?_
  refine (follows_braced follows_field).bind fun _ => ?_
  exact step (keeps_spanFrom t.span.start) fun _ => done _

theorem follows_unionDefinition (d : Option Description) :
    Follows m (unionDefinition d) (unionDefinition (recast m.change d)) := by
  unfold unionDefinition
  refine step keeps_peek fun t => step keeps_advance fun _ => follows_name.bind fun _ => ?_
  refine follows_directives.bind fun _ => follows_unionMembers.bind fun _ => ?_
  exact step (keeps_spanFrom t.span.start) fun _ => done _

theorem follows_enumValue : Follows m enumValue enumValue := by
  unfold enumValue
  refine follows_description?.bind fun _ => step keeps_peek fun t => follows_name.bind fun _ => ?_
  exact follows_directives.bind fun _ => step (keeps_spanFrom t.span.start) fun _ => done _

theorem follows_enumDefinition (d : Option Description) :
    Follows m (enumDefinition d) (enumDefinition (recast m.change d)) := by
  unfold enumDefinition
  refine step keeps_peek fun t => step keeps_advance fun _ => follows_name.bind fun _ => ?_
  refine follows_directives.bind fun _ => (follows_braced follows_enumValue).bind fun _ => ?_
  exact step (keeps_spanFrom t.span.start) fun _ => done _

theorem follows_inputDefinition (d : Option Description) :
    Follows m (inputDefinition d) (inputDefinition (recast m.change d)) := by
  unfold inputDefinition
  dsimp only
  refine step keeps_peek fun t => step keeps_advance fun _ => follows_name.bind fun _ => ?_
  refine follows_directives.bind fun _ => step (keeps_accept _) fun _ => ite ?_ ?_
  · refine follows_inputValues.bind fun _ => step (keeps_expect _) fun _ => ?_
    exact given (step (keeps_spanFrom t.span.start) fun _ => done _)
  · exact given (step (keeps_spanFrom t.span.start) fun _ => done _)

theorem follows_scalarDefinition (d : Option Description) :
    Follows m (scalarDefinition d) (scalarDefinition (recast m.change d)) := by
  unfold scalarDefinition
  refine step keeps_peek fun t => step keeps_advance fun _ => follows_name.bind fun _ => ?_
  exact follows_directives.bind fun _ => step (keeps_spanFrom t.span.start) fun _ => done _

theorem follows_location? : Follows m location? location? := by
  unfold location?
  refine step keeps_peek fun t => ?_
  have hknown : Follows m (do advance; return Location.ofSpelling? t.text)
      (do advance; return Location.ofSpelling? t.text) :=
    step keeps_advance fun _ => done_of_eq (recast_location? m.change _)
  exact ite (step (keeps_flag _ _ _ _) fun _ => hknown) hknown

theorem follows_locationsUpTo : ∀ n, Follows m (locationsUpTo n) (locationsUpTo n)
  | 0 => step (keeps_expected _) fun _ => done _
  | n + 1 => by
    have hforward := forward_locationsUpTo n
    unfold locationsUpTo locationsAt
    dsimp only
    refine step keeps_peek fun t => ite ?_ (step (keeps_expected _) fun _ => done _)
    refine follows_location?.bind fun known => step (keeps_accept _) fun _ => ite ?_ ?_
    · refine (follows_locationsUpTo n).bind fun more => done_of_eq ?_
      rw [recast_locations, recast_locations, recast_location?]
    · refine given (done_of_eq ?_)
      rw [recast_locations, recast_locations, recast_location?]

theorem follows_locations : Follows m locations locations := by
  unfold locations
  exact step (keeps_accept _) fun _ => ofBound follows_locationsUpTo

theorem follows_directiveDefinition (d : Option Description) :
    Follows m (directiveDefinition d) (directiveDefinition (recast m.change d)) := by
  unfold directiveDefinition
  refine step keeps_peek fun t => step keeps_advance fun _ => step (keeps_expect _) fun _ => ?_
  refine follows_name.bind fun _ => follows_argumentDefinitions.bind fun _ => ?_
  refine step (keeps_accept _) fun _ => step (keeps_expect _) fun _ => ?_
  refine follows_locations.bind fun ls => step (keeps_spanFrom t.span.start) fun _ => done_of_eq ?_
  exact congrArg (DirectiveDefinition.mk _ _ _ _ · _) (recast_locations m.change ls).symm

theorem follows_noDefinition : Follows m noDefinition noDefinition := by
  unfold noDefinition
  exact step keeps_peek fun _ => step (keeps_flag _ _ _ _) fun _ => done _

theorem follows_definitionAt (d : Option Description) {extended : Reader (Option Definition)}
    (h : Follows m extended extended) :
    Follows m (definitionAt d extended) (definitionAt (recast m.change d) extended) := by
  unfold definitionAt
  refine step keeps_peek fun t => ?_
  have hkind : (recast m.change t).kind = t.kind := rfl
  rw [hkind]
  generalize t.kind = kind
  cases kind with
  | keyword word =>
    cases word with
    | schema => exact (follows_schemaDefinition d).bind fun _ => done _
    | type => exact (follows_fieldsDefinition d).bind fun _ => done _
    | interface => exact (follows_fieldsDefinition d).bind fun _ => done _
    | union => exact (follows_unionDefinition d).bind fun _ => done _
    | enum => exact (follows_enumDefinition d).bind fun _ => done _
    | input => exact (follows_inputDefinition d).bind fun _ => done _
    | scalar => exact (follows_scalarDefinition d).bind fun _ => done _
    | directive => exact (follows_directiveDefinition d).bind fun _ => done _
    | extend => exact step (keeps_flag _ _ _ _) fun _ => step keeps_advance fun _ => h
    | _ => exact follows_noDefinition
  | _ => exact follows_noDefinition

theorem follows_definitionUpTo : ∀ n, Follows m (definitionUpTo n) (definitionUpTo n)
  | 0 => follows_noDefinition
  | n + 1 => by
    have hforward := forward_definitionUpTo n
    exact follows_description?.bind fun d => follows_definitionAt d (follows_definitionUpTo n)

theorem follows_recover : Follows m recover recover := by
  unfold recover
  have hgo (s : State) : (!(m.state s).atEnd && !startsDefinition (m.state s).current.kind) =
      (!s.atEnd && !startsDefinition s.current.kind) := by
    rw [m.atEnd_state, m.kind_current]
  have hskip : Follows m advance advance := fun s _ => keeps_advance s
  exact step keeps_advance fun _ => (hskip.many hgo).bind fun _ => done _

theorem follows_definitionOrSkip : Follows m definitionOrSkip definitionOrSkip := by
  have hdefinition : Follows m definition? definition? := ofBound follows_definitionUpTo
  unfold definitionOrSkip
  refine @Follows.bind _ _ _ _ m _ _ _ _ (fun o => ?_) hdefinition fun o => ?_
  · split <;> infer_instance
  · cases o with
    | some x => exact done _
    | none => exact follows_recover.bind fun _ => done _

/-- **Reading a schema follows every transport.** -/
theorem follows_document : Follows m document document := by
  unfold document
  refine step keeps_peek fun t => ?_
  refine (follows_definitionOrSkip.many fun s => congrArg not (m.atEnd_state s)).bind fun xs => ?_
  refine step keeps_peek fun t' => done_of_eq ?_
  exact congrArg (Document.mk · _) (recast_filterMap_id m.change xs)

end Reader

end SchemaToFlow.Schema
