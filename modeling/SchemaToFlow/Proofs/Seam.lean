import SchemaToFlow.Proofs.Acceptance
import SchemaToFlow.Proofs.Lookahead

/-!
# Where one schema ends and another starts

A reader that takes the last tokens of a schema looks once more, and sees the end mark or the first
token of what follows. `Reader.Steady` says that this makes no difference to what it gives: if it
takes the same tokens without errors both times, it does the same both times. It is a class, found
by instance search for readers made of others; only the places where a reader looks at the next
token need a reason, and there are two. Either nothing can be missing there, so the reader reports
an error at the end mark (`Steady.look_some`, `Steady.look_name`), or it takes whatever comes next
(`Steady.look_advance`).

* `definitionOrSkip_followedBy`: a definition is read alike before the end and before anything that
  does not go on with it.
* `definitions_followedBy`: definitions without errors and what follows them are read one after the
  other.
-/

set_option synthInstance.maxSize 1000

namespace SchemaToFlow.Schema.Reader

open Computability Grammar State

variable {α β : Type}

/-- If the reader takes all tokens and, when more of them follow, just the same ones, both times
without errors, then it does the same both times. -/
def SteadyAt (r : Reader α) (s : State) : Prop :=
  ∀ more stop, more ≠ [] → (r s).2.rest = [] → (r s).2.Clean →
    (r (s.followedBy more stop)).2.rest = more → (r (s.followedBy more stop)).2.Clean →
    r (s.followedBy more stop) = ((r s).1, (r s).2.followedBy more stop)

/-- A reader that does not mind what it sees after the last token. -/
class Steady (r : Reader α) : Prop extends Local r where
  steadyAt : ∀ s : State, SteadyAt r s

theorem Located.clean (r : Reader α) [Located r] {s : State} (h : (r s).2.Clean) : s.Clean := by
  obtain ⟨late, hlate, _⟩ := Located.report (r := r) s
  unfold Clean Report.hasErrors at h ⊢
  rw [hlate, List.any_append, Bool.or_eq_false_iff] at h
  exact h.1

theorem Located.length_le (r : Reader α) [Located r] (s : State) :
    (r s).2.rest.length ≤ s.rest.length :=
  (Located.rest s).length_le

/-! ## What is known at the end -/

section AtEnd

variable {r : Reader α} {s : State}

theorem rest_followedBy (hs : s.rest = []) (more : List Token) (stop : Nat) :
    (s.followedBy more stop).rest = more := by
  show s.rest ++ more = more
  rw [hs]
  rfl

theorem SteadyAt.of_refused (h : ¬ (r s).2.Clean) : SteadyAt r s :=
  fun _ _ _ _ hc => absurd hc h

/-- A reader that takes whatever comes next does not leave it. -/
theorem SteadyAt.of_taken (hs : s.rest = []) (h : Shrinks (fun s => !s.atEnd) r) :
    SteadyAt r s := by
  intro more stop hmore _ _ hrest _
  have hnext : (!(s.followedBy more stop).atEnd) = true := by
    unfold atEnd
    rw [rest_followedBy hs]
    simpa using hmore
  have hlt := h (s.followedBy more stop) hnext
  rw [hrest, rest_followedBy hs] at hlt
  exact absurd hlt (Nat.lt_irrefl _)

/-- What must not be missing is missed at the end. -/
theorem not_clean_of_rest_nil {l : Language Token} (more : List TokenKind)
    (h : Recognizes (Within 0) r l more) (hl : [] ∉ l) (hs : s.rest = []) :
    ¬ (r s).2.Clean := by
  intro hc
  obtain ⟨w, hw, hrest⟩ := h.sound s (Nat.le_of_eq (congrArg List.length hs)) hc
  rw [hs] at hrest
  obtain ⟨rfl, _⟩ := List.append_eq_nil_iff.1 hrest.symm
  exact hl hw

end AtEnd

/-! ## Parts of readers -/

/-- A reader whose first token decides what it does. -/
theorem Steady.ofHead {r : Reader α} [Local r] (h : ByHead r)
    (hend : ∀ s : State, s.rest = [] → SteadyAt r s) : Steady r where
  steadyAt s := by
    by_cases hs : s.rest = []
    · exact hend s hs
    · exact fun more stop _ _ _ _ _ => h s hs more stop

/-- A reader that always reports an error. -/
theorem Steady.refuses {r : Reader α} [Local r] (h : ∀ s, ¬ (r s).2.Clean) : Steady r where
  steadyAt s := .of_refused (h s)

theorem Steady.bind {r : Reader α} {f : α → Reader β} (hr : Steady r) (hf : ∀ a, Steady (f a)) :
    Steady (r >>= f) where
  toLocal := hr.toLocal.bind fun a => (hf a).toLocal
  steadyAt s := by
    intro more stop hmore hs hc hs' hc'
    -- The first reader takes the same tokens both times: it stops before the last one or not.
    have hfirst : r (s.followedBy more stop) = ((r s).1, (r s).2.followedBy more stop) := by
      by_cases hmid : (r s).2.rest = []
      · obtain ⟨early, hpast, _⟩ := hr.ends s hmid more stop more stop
        have hrest : (r (s.followedBy more stop)).2.rest = more := by
          refine hpast.rest.eq_of_length (Nat.le_antisymm hpast.rest.length_le ?_)
          rw [← congrArg List.length hs']
          exact Located.length_le (f _) _
        exact hr.steadyAt s more stop hmore hmid (Located.clean (f _) hc) hrest
          (Located.clean (f _) hc')
      · exact hr.stops s hmid more stop
    rw [bind_apply, hfirst] at hs' hc' ⊢
    exact (hf (r s).1).steadyAt (r s).2 more stop hmore hs hc hs' hc'

instance (a : α) : Steady (pure a : Reader α) := ⟨fun _ _ _ _ _ _ _ _ => rfl⟩

instance (r : Reader α) (f : α → Reader β) [hr : Steady r] [hf : ∀ a, Steady (f a)] :
    Steady (r >>= f) :=
  hr.bind hf

instance (f : α → β) (r : Reader α) [Steady r] : Steady (f <$> r) :=
  inferInstanceAs (Steady (r >>= fun a => pure (f a)))

instance (c : Prop) [Decidable c] (r r' : Reader α) [Steady r] [Steady r'] :
    Steady (if c then r else r') := by
  split
  · infer_instance
  · infer_instance

instance (n : String) : Steady (intern n) := ⟨fun _ _ _ _ _ _ _ _ => rfl⟩

instance (start : Nat) : Steady (spanFrom start) := ⟨fun _ _ _ _ _ _ _ _ => rfl⟩

instance : Steady advance :=
  .ofHead byHead_advance fun _ hs => .of_taken hs shrinks_advance

instance (code title message : String) : Steady (flag .error code title message) :=
  .refuses fun _ hc => Bool.noConfusion (clean_add_iff.1 hc).2

instance (what : String) : Steady (expected what) := .refuses (not_clean_expected what)

/-- One of two readers, where none is left to the first at the end. -/
theorem steady_choose {go : State → Bool} {r r' : Reader α} (hgo : LooksAtNext go)
    (h : Shrinks go r) [hr : Steady r] [hr' : Steady r'] : Steady (choose go r r') := by
  have hlocal : Local (choose go r r') := local_choose r r' hgo
  refine ⟨fun s more stop hmore hs hc hs' hc' => ?_⟩
  have hgo' : go (s.followedBy more stop) = go s := by
    by_cases hnil : s.rest = []
    · rw [h.not_go hnil, Bool.eq_false_iff]
      intro hnext
      have hlt := h _ hnext
      rw [choose_of_go r r' hnext] at hs'
      rw [hs', rest_followedBy hnil] at hlt
      exact absurd hlt (Nat.lt_irrefl _)
    · exact hgo s hnil more stop
  cases hcase : go s with
  | true =>
    rw [choose_of_go r r' hcase] at hs hc ⊢
    rw [choose_of_go r r' (hgo'.trans hcase)] at hs' hc' ⊢
    exact hr.steadyAt s more stop hmore hs hc hs' hc'
  | false =>
    rw [choose_of_not_go r r' hcase] at hs hc ⊢
    rw [choose_of_not_go r r' (hgo'.trans hcase)] at hs' hc' ⊢
    exact hr'.steadyAt s more stop hmore hs hc hs' hc'

theorem steady_accept {kind : TokenKind} (hk : kind ≠ .endOfInput) : Steady (accept kind) := by
  have h : Steady (choose (fun s => s.sees kind) (do advance; return true) (pure false)) :=
    steady_choose (looksAtNext_sees kind) (shrinks_advance_sees hk).bind
  have heq : accept kind = choose (fun s => s.sees kind) (do advance; return true) (pure false) := by
    funext s
    unfold accept choose
    split <;> rfl
  exact heq ▸ h

instance (p : Punctuator) : Steady (accept (.punct p)) := steady_accept TokenKind.noConfusion

instance (k : Keyword) : Steady (accept (.keyword k)) := steady_accept TokenKind.noConfusion

instance (p : Punctuator) : Steady (expect (.punct p)) := by
  unfold expect
  infer_instance

instance (k : Keyword) : Steady (expect (.keyword k)) := by
  unfold expect
  infer_instance

instance : Steady skipOffending := by
  have h : Steady (choose (State.before [.punct .braceClose]) advance (pure ())) :=
    steady_choose (looksAtNext_before _) (shrinks_advance_before _)
  have heq : skipOffending = choose (State.before [.punct .braceClose]) advance (pure ()) := by
    funext s
    unfold skipOffending choose
    split <;> rfl
  exact heq ▸ h

/-! ## Looking at the next token -/

section Look

variable {f : Token → Reader β}

theorem Steady.look (hf : ∀ t, Steady (f t)) (hend : ∀ s, s.rest = [] → SteadyAt (peek >>= f) s) :
    Steady (peek >>= f) := by
  have hlocal : Local (peek >>= f) := Local.bind inferInstance fun t => (hf t).toLocal
  refine ⟨fun s => ?_⟩
  by_cases hs : s.rest = []
  · exact hend s hs
  · intro more stop
    have hnext : (peek >>= f) (s.followedBy more stop) = f s.current (s.followedBy more stop) :=
      congrArg (fun t => f t (s.followedBy more stop)) (current_followedBy more stop hs)
    rw [hnext]
    exact (hf s.current).steadyAt s more stop

/-- Looking for what must not be missing. -/
theorem Steady.look_some {l : Language Token} (more : List TokenKind) (hf : ∀ t, Steady (f t))
    (h : Recognizes (Within 0) (peek >>= f) l more) (hl : [] ∉ l) : Steady (peek >>= f) :=
  .look hf fun _ hs => .of_refused (not_clean_of_rest_nil more h hl hs)

/-- Looking at a token that is taken in any case. -/
theorem Steady.look_advance (hf : ∀ t, Steady (f t)) :
    Steady (peek >>= fun t => advance >>= fun _ => f t) := by
  refine .look (fun t => Steady.bind inferInstance fun _ => hf t) fun s hs => .of_taken hs ?_
  intro s hs
  exact Nat.lt_of_le_of_lt ((hf s.current).toLocated.length_le (f s.current) s.advance)
    (shrinks_advance s hs)

end Look

/-! ## The readers of a schema -/

instance : Steady name := by
  unfold name
  exact .look_some [] inferInstance recognizes_name nil_notMem_name

instance : Steady typeName := by
  unfold typeName
  exact .look_some [] inferInstance recognizes_typeName nil_notMem_name

/-- Looking at the token where a name must stand. -/
theorem Steady.look_name {f : Token → Name → Reader β} (hf : ∀ t nm, Steady (f t nm)) :
    Steady (peek >>= fun t => name >>= f t) := by
  refine .look (fun t => Steady.bind inferInstance (hf t)) fun s hs => .of_refused fun hc => ?_
  have hname : (name s).2.Clean := (hf _ _).toLocated.clean (f s.current (name s).1) hc
  exact not_clean_of_rest_nil [] recognizes_name nil_notMem_name hs hname

instance : Steady description? := by
  unfold description?
  refine .look inferInstance fun s hs more stop hmore _ _ hrest _ => ?_
  have hmark : ¬ (s.current.kind = .string ∨ s.current.kind = .blockString) := by
    rw [current_of_rest_nil hs]
    decide
  change (description? (s.followedBy more stop)).2.rest = more at hrest
  show description? _ = ((description? s).1, (description? s).2.followedBy more stop)
  by_cases htext : (s.followedBy more stop).current.kind = .string ∨
      (s.followedBy more stop).current.kind = .blockString
  · -- a description would be taken
    rw [description?_taken htext] at hrest
    have hlt := length_advance_lt (atEnd_of_kind (s := s.followedBy more stop) ?_)
    · rw [hrest, rest_followedBy hs] at hlt
      exact absurd hlt (Nat.lt_irrefl _)
    · rcases htext with htext | htext <;> rw [htext] <;> decide
  · rw [description?_none htext, description?_none hmark]

/-- A bound that is larger than what is left. -/
theorem Recognizes.atEnd {r : Reader α} {l : Language Token} {more : List TokenKind} {n : Nat}
    (h : Recognizes (Within n) r l more) : Recognizes (Within 0) r l more :=
  h.weaken fun _ hs => Nat.le_trans hs (Nat.zero_le n)

theorem steady_typeRefUpTo : ∀ n, Steady (typeRefUpTo n)
  | 0 => by
    unfold typeRefUpTo
    infer_instance
  | n + 1 => by
    have ih := steady_typeRefUpTo n
    have hend := (recognizes_typeRefUpTo (n + 1)).atEnd
    unfold typeRefUpTo typeRefAt at hend ⊢
    dsimp only at hend ⊢
    exact .look_some _ (fun t => inferInstance) hend nil_notMem_type

/-- A reader whose bound does not matter. -/
theorem Steady.ofBound {r : Nat → Reader α} {body : Reader α → Reader α} (hb : Bounded r body)
    (h : ∀ n, Steady (r n)) : Steady fun s => r s.rest.length s := by
  have hlocal : Local fun s => r s.rest.length s := .ofBound hb fun n => (h n).toLocal
  refine ⟨fun s more stop => ?_⟩
  have hlength : (s.followedBy more stop).rest.length = s.rest.length + more.length :=
    List.length_append
  have hshort : r s.rest.length s = r (s.followedBy more stop).rest.length s :=
    hb.eq_of_length_le _ _ s (Nat.le_refl _) (by omega)
  rw [hshort]
  exact (h _).steadyAt s more stop

instance : Steady typeRef := .ofBound bounded_typeRef steady_typeRefUpTo

theorem steady_many {go : State → Bool} {step : Reader α} (hgo : LooksAtNext go)
    (h : Shrinks go step) [Steady step] : Steady (many go step) := by
  refine .ofBound h.bounded fun n => ?_
  induction n with
  | zero => exact inferInstanceAs (Steady (pure [] : Reader (List α)))
  | succ n ih =>
    have hround : Shrinks go (do return (← step) :: (← manyUpTo go step n)) := fun s hs =>
      Nat.lt_of_le_of_lt (ih.toLocated.length_le _ _) (h s hs)
    exact (steady_choose hgo hround : Steady (choose go _ (pure [])))

instance (t : Token) : Steady (intLiteral t) := by
  unfold intLiteral
  dsimp only
  split
  · infer_instance
  · infer_instance

instance (t : Token) (make : Text.Span → Value) : Steady (literal t make) := by
  unfold literal
  infer_instance

instance : Steady noValue := .refuses not_clean_noValue

theorem steady_listValue {item : Reader Value} [Steady item]
    (h : Shrinks (State.before [.punct .bracketClose, .punct .braceClose]) item) :
    Steady (listValue item) := by
  have hitems := steady_many (looksAtNext_before _) h
  unfold listValue
  exact .look_advance fun t => inferInstance

instance (value : Reader Value) [Steady value] : Steady (objectField value) := by
  unfold objectField
  infer_instance

theorem steady_objectValue (value : Reader Value) [Forward value] [Steady value] :
    Steady (objectValue value) := by
  have hfields := steady_many (looksAtNext_before _) (shrinks_objectField value)
  unfold objectValue
  exact .look_advance fun t => inferInstance

theorem steady_valueUpTo : ∀ n, Steady (valueUpTo n)
  | 0 => by
    unfold valueUpTo
    infer_instance
  | n + 1 => by
    have ih := steady_valueUpTo n
    have hforward := forward_valueUpTo n
    have hlist := steady_listValue (shrinks_valueUpTo (by decide) n)
    have hobject := steady_objectValue (valueUpTo n)
    have hend := (recognizes_valueUpTo (n + 1)).atEnd
    unfold valueUpTo valueAt at hend ⊢
    refine .look_some _ (fun t => ?_) hend nil_notMem_value
    split <;> infer_instance

instance : Steady value := .ofBound bounded_value steady_valueUpTo

instance : Steady argument := by
  unfold argument
  exact .look_name fun _ _ => inferInstance

instance : Steady directive := by
  have harguments := steady_many (looksAtNext_before _) shrinks_argument
  unfold directive
  exact .look_advance fun _ => inferInstance

instance : Steady directives := steady_many (looksAtNext_sees _) shrinks_directive

instance : Steady inputValue := by
  unfold inputValue
  exact Steady.bind inferInstance fun _ => .look_name fun _ _ => inferInstance

instance : Steady inputValues := steady_many (looksAtNext_before _) shrinks_inputValue

instance : Steady argumentDefinitions := by
  unfold argumentDefinitions
  infer_instance

instance : Steady field := by
  unfold field
  exact Steady.bind inferInstance fun _ => .look_name fun _ _ => inferInstance

theorem steady_braced {item : Reader α} [Steady item]
    (h : Shrinks (State.before [.punct .braceClose]) item) : Steady (braced item) := by
  have hitems := steady_many (looksAtNext_before _) h
  unfold braced
  infer_instance

instance : Steady (braced field) := steady_braced shrinks_field

instance : Steady implementedInterfaces := by
  have hgo : LooksAtNext fun s => s.sees (.punct .ampersand) || s.sees .name :=
    fun s hs more stop => congrArg₂ (· || ·) (looksAtNext_sees _ s hs more stop)
      (looksAtNext_sees _ s hs more stop)
  have hmore := steady_many hgo shrinks_moreInterfaces
  unfold implementedInterfaces
  infer_instance

theorem nil_notMem_rootOperation : [] ∉ Grammar.rootOperation := by
  rw [rootOperation_eq]
  exact nil_notMem_mul (nil_notMem_one _) _

instance : Steady rootOperation? := by
  have hend := recognizes_rootOperation? (n := 0)
  unfold rootOperation? at hend ⊢
  refine .look_some _ (fun t => ?_) hend nil_notMem_rootOperation
  split <;> infer_instance

instance (d : Option Description) : Steady (schemaDefinition d) := by
  have hoperations := steady_many (looksAtNext_before _) shrinks_rootOperation
  unfold schemaDefinition
  exact .look_advance fun _ => inferInstance

instance (d : Option Description) : Steady (fieldsDefinition d) := by
  unfold fieldsDefinition
  exact .look_advance fun _ => inferInstance

instance : Steady unionMembers := by
  have hmore := steady_many (looksAtNext_sees _) shrinks_moreMembers
  unfold unionMembers
  infer_instance

instance (d : Option Description) : Steady (unionDefinition d) := by
  unfold unionDefinition
  exact .look_advance fun _ => inferInstance

instance : Steady enumValue := by
  unfold enumValue
  exact Steady.bind inferInstance fun _ => .look_name fun _ _ => inferInstance

instance : Steady (braced enumValue) := steady_braced shrinks_enumValue

instance (d : Option Description) : Steady (enumDefinition d) := by
  unfold enumDefinition
  exact .look_advance fun _ => inferInstance

instance (d : Option Description) : Steady (inputDefinition d) := by
  unfold inputDefinition
  exact .look_advance fun _ => inferInstance

instance (d : Option Description) : Steady (scalarDefinition d) := by
  unfold scalarDefinition
  exact .look_advance fun _ => inferInstance

/-- What is done after looking at a token, or reporting it, still depends on that token. -/
theorem ByHead.bind {r : Reader α} {f : α → Reader β} (hr : ByHead r)
    (hrest : ∀ s, (r s).2.rest = s.rest) (hf : ∀ a, ByHead (f a)) : ByHead (r >>= f) := by
  intro s hs more stop
  rw [bind_apply, hr s hs more stop]
  exact hf (r s).1 (r s).2 (fun hnil => hs ((hrest s).symm.trans hnil)) more stop

theorem byHead_location? : ByHead location? := by
  have htake (known : Option Location) : ByHead (do advance; return known) :=
    fun s hs more stop => congrArg (fun p : Unit × State => (known, p.2))
      (byHead_advance s hs more stop)
  unfold location?
  refine byHead_peek.bind (fun _ => rfl) fun t => ?_
  dsimp only
  split
  · exact (byHead_flag _ _ _ _).bind (fun _ => rfl) fun _ => htake _
  · exact htake _

theorem shrinks_location? : Shrinks (fun s => !s.atEnd) location? := by
  unfold location?
  refine Shrinks.look fun t => ?_
  dsimp only
  split
  · exact fun s hs => length_advance_lt (Bool.not_eq_eq_eq_not.1 hs)
  · exact fun s hs => length_advance_lt (Bool.not_eq_eq_eq_not.1 hs)

instance : Steady location? := .ofHead byHead_location? fun _ hs => .of_taken hs shrinks_location?

theorem steady_locationsUpTo : ∀ n, Steady (locationsUpTo n)
  | 0 => by
    unfold locationsUpTo
    infer_instance
  | n + 1 => by
    have ih := steady_locationsUpTo n
    have hend := (recognizes_locationsUpTo (n + 1)).atEnd
    unfold locationsUpTo locationsAt at hend ⊢
    dsimp only at hend ⊢
    exact .look_some _ (fun t => inferInstance) hend (nil_notMem_mul nil_notMem_name _)

instance : Steady locationsFrom := .ofBound bounded_locations steady_locationsUpTo

instance : Steady locations :=
  inferInstanceAs (Steady (do let _ ← accept (.punct .pipe); locationsFrom))

instance (d : Option Description) : Steady (directiveDefinition d) := by
  unfold directiveDefinition
  exact .look_advance fun _ => inferInstance

instance : Steady noDefinition := .refuses not_clean_noDefinition

instance (d : Option Description) (extended : Reader (Option Definition)) [Forward extended]
    [Steady extended] : Steady (definitionAt d extended) := by
  have hend := recognizes_definitionAt (n := 0) d extended
  unfold definitionAt at hend ⊢
  refine .look_some _ (fun t => ?_) hend nil_notMem_bareDefinition
  split <;> infer_instance

theorem steady_definitionUpTo : ∀ n, Steady (definitionUpTo n)
  | 0 => by
    unfold definitionUpTo
    infer_instance
  | n + 1 => by
    have ih := steady_definitionUpTo n
    have hforward := forward_definitionUpTo n
    unfold definitionUpTo definitionWith
    infer_instance

instance : Steady definition? := .ofBound bounded_definition steady_definitionUpTo

instance : Steady recover := by
  have hgo : LooksAtNext fun s => !s.atEnd && !startsDefinition s.current.kind := by
    intro s hs more stop
    dsimp only
    rw [atEnd_followedBy more stop hs, current_followedBy more stop hs]
  have hskip := steady_many hgo shrinks_skip
  unfold recover
  infer_instance

instance : Steady definitionOrSkip := by
  unfold definitionOrSkip
  refine Steady.bind inferInstance fun d => ?_
  split <;> infer_instance

/-! ## Definitions, and more of them -/

/-- The keyword of an object type, at no place in particular. -/
def typeKeyword : Token := ⟨.keyword .type, .emptyAt 0, "type"⟩

theorem eq_followedBy_nil {s s' : State} {more : List Token} {stop : Nat}
    (h : s'.followedBy more stop = s.followedBy more stop) (hrest : s'.rest = s.rest)
    (hfinish : s'.finish = stop) : s' = s.followedBy [] stop := by
  obtain ⟨rest, finish, lastStop, names, report⟩ := s
  obtain ⟨rest', finish', lastStop', names', report'⟩ := s'
  simp only [followedBy, State.mk.injEq, List.append_nil] at h hrest hfinish ⊢
  exact ⟨hrest, hfinish, h.2.2⟩

/-- A definition is the same before the end and before tokens that do not go on with it. -/
theorem definitionOrSkip_followedBy {s : State} (hc : (definitionOrSkip s).2.Clean)
    {more : List Token} (hmore : Stops afterDefinition more) (stop : Nat) :
    definitionOrSkip (s.followedBy more stop) =
      ((definitionOrSkip s).1, (definitionOrSkip s).2.followedBy more stop) := by
  by_cases hrest : (definitionOrSkip s).2.rest = []
  · obtain ⟨w, hw, hs⟩ := (recognizes_definitionOrSkip (n := s.rest.length)).sound s
      (Nat.le_refl _) hc
    rw [hrest, List.append_nil] at hs
    -- the tokens of the state are a definition, whatever follows them
    have hbefore : s.Clean := Located.clean definitionOrSkip hc
    have hread : ∀ more stop, Stops afterDefinition more →
        (definitionOrSkip (s.followedBy more stop)).2.Clean ∧
          (definitionOrSkip (s.followedBy more stop)).2.rest = more := fun more stop hmore =>
      recognizes_definitionOrSkip.complete (s.followedBy more stop) w more (Nat.le_refl _) hbefore
        hw (congrArg (· ++ more) hs) hmore
    have hsteady : ∀ more stop, more ≠ [] → Stops afterDefinition more →
        definitionOrSkip (s.followedBy more stop) =
          ((definitionOrSkip s).1, (definitionOrSkip s).2.followedBy more stop) :=
      fun more stop hne hmore => Steady.steadyAt s more stop hne hrest hc (hread more stop hmore).2
        (hread more stop hmore).1
    by_cases hne : more = []
    · subst hne
      -- before either end mark it is the same as before a keyword
      have hkeyword : Stops afterDefinition [typeKeyword] := stops_cons.2 (by decide)
      have hends : (s.followedBy [] stop).followedBy [typeKeyword] stop =
          s.followedBy [typeKeyword] stop := by
        unfold followedBy
        rw [List.append_nil]
      obtain ⟨hc', hrest'⟩ := hread [] stop (stops_nil _)
      obtain ⟨hclean, hleft⟩ := hread [typeKeyword] stop hkeyword
      have hend := Steady.steadyAt (r := definitionOrSkip) (s.followedBy [] stop) [typeKeyword] stop
        (List.cons_ne_nil _ _) hrest' hc' (by rwa [hends]) (by rwa [hends])
      rw [hends, hsteady _ _ (List.cons_ne_nil _ _) hkeyword] at hend
      obtain ⟨hresult, hstate⟩ := Prod.mk.inj hend
      exact Prod.ext hresult.symm (eq_followedBy_nil hstate.symm (hrest'.trans hrest.symm)
        (Located.finish (r := definitionOrSkip) (s.followedBy [] stop)))
    · exact hsteady more stop hne hmore
  · exact Local.stops s hrest more stop

/-- The definitions of a document, one by one. -/
def definitions : Reader (List (Option Definition)) := many (fun s => !s.atEnd) definitionOrSkip

theorem notAtEnd_of_rest_ne {s : State} (hs : s.rest ≠ []) : (!s.atEnd) = true := by
  unfold atEnd
  simpa using hs

theorem definitions_of_rest_nil {s : State} (hs : s.rest = []) : definitions s = ([], s) := by
  have hgo : ¬ (!s.atEnd) = true := by
    rw [atEnd, hs]
    exact Bool.false_ne_true
  rw [definitions, shrinks_definitionOrSkip.recurs.eq, round, if_neg hgo]

theorem definitions_of_rest_ne {s : State} (hs : s.rest ≠ []) :
    definitions s = ((definitionOrSkip s).1 :: (definitions (definitionOrSkip s).2).1,
      (definitions (definitionOrSkip s).2).2) := by
  rw [definitions, shrinks_definitionOrSkip.recurs.eq, round, if_pos (notAtEnd_of_rest_ne hs)]
  rfl

/-- **Definitions without errors, and what follows them, are read one after the other.** -/
theorem definitions_followedBy {more : List Token} (hmore : Stops afterDefinition more)
    (stop : Nat) : ∀ (n : Nat) (s : State), s.rest.length ≤ n → (definitions s).2.Clean →
      definitions (s.followedBy more stop) =
        ((definitions s).1 ++ (definitions ((definitions s).2.followedBy more stop)).1,
          (definitions ((definitions s).2.followedBy more stop)).2)
  | n, s, hn, hc => by
    by_cases hs : s.rest = []
    · rw [definitions_of_rest_nil hs]
      rfl
    · have hs' : (s.followedBy more stop).rest ≠ [] := List.append_ne_nil_of_left_ne_nil hs more
      have hlt : (definitionOrSkip s).2.rest.length < s.rest.length :=
        shrinks_definitionOrSkip s (notAtEnd_of_rest_ne hs)
      rw [definitions_of_rest_ne hs] at hc
      have hclean : (definitionOrSkip s).2.Clean := by
        have hlocal : Local definitions := local_many looksAtNext_notAtEnd shrinks_definitionOrSkip
        exact Located.clean definitions hc
      cases n with
      | zero => omega
      | succ n =>
        rw [definitions_of_rest_ne hs', definitionOrSkip_followedBy hclean hmore,
          definitions_followedBy hmore stop n _ (by omega) hc, definitions_of_rest_ne hs]
        rfl

/-! ## The end of the last token taken -/

end SchemaToFlow.Schema.Reader

namespace SchemaToFlow.Schema

/-- The same state after a token that ended elsewhere. -/
def State.stoppedAt (s : State) (stop : Nat) : State := { s with lastStop := stop }

namespace Reader

open State

/-- Where the last token ended makes no difference, unless nothing is found and nothing taken. -/
def Renews (r : Reader (Option Definition)) : Prop :=
  ∀ s stop, r (s.stoppedAt stop) = r s ∨
    ((r s).1 = none ∧ r (s.stoppedAt stop) = (none, (r s).2.stoppedAt stop))

theorem renews_look {f : Token → Reader (Option Definition)} (h : ∀ t, Renews (f t)) :
    Renews (peek >>= f) := fun s stop => h s.current s stop

theorem renews_noDefinition : Renews noDefinition := fun _ _ => .inr ⟨rfl, rfl⟩

theorem renews_definitionAt (d : Option Description) (extended : Reader (Option Definition)) :
    Renews (definitionAt d extended) := by
  unfold definitionAt
  refine renews_look fun t => ?_
  split
  case h_10 => exact renews_noDefinition
  all_goals exact fun _ _ => .inl rfl

theorem renews_described {f : Option Description → Reader (Option Definition)}
    (h : ∀ d, Renews (f d)) : Renews (description? >>= f) := by
  intro s stop
  rw [bind_apply, bind_apply]
  by_cases htext : s.current.kind = .string ∨ s.current.kind = .blockString
  · rw [description?_taken htext, description?_taken (s := s.stoppedAt stop) htext]
    exact .inl rfl
  · rw [description?_none htext, description?_none (s := s.stoppedAt stop) htext]
    exact h none s stop

theorem renews_definitionUpTo : ∀ n, Renews (definitionUpTo n)
  | 0 => renews_noDefinition
  | n + 1 => renews_described fun d => renews_definitionAt d (definitionUpTo n)

/-- The first token of a definition is taken, and if there is none, what is skipped. -/
theorem definitionOrSkip_stoppedAt (s : State) (stop : Nat) :
    definitionOrSkip (s.stoppedAt stop) = definitionOrSkip s := by
  have h : Renews definition? := fun s stop => renews_definitionUpTo s.rest.length s stop
  unfold definitionOrSkip
  rw [bind_apply, bind_apply]
  rcases h s stop with h | ⟨hnone, h⟩
  · rw [h]
  · rw [h, hnone]
    rfl

theorem definitions_stoppedAt (s : State) (stop : Nat) :
    ∃ stop', definitions (s.stoppedAt stop) =
      ((definitions s).1, (definitions s).2.stoppedAt stop') := by
  by_cases hs : s.rest = []
  · refine ⟨stop, ?_⟩
    rw [definitions_of_rest_nil hs, definitions_of_rest_nil (s := s.stoppedAt stop) hs]
  · refine ⟨(definitions s).2.lastStop, ?_⟩
    rw [definitions_of_rest_ne hs, definitions_of_rest_ne (s := s.stoppedAt stop) hs,
      definitionOrSkip_stoppedAt]
    rfl

end Reader

end SchemaToFlow.Schema
