import SchemaToFlow.Proofs.Steps

/-!
# Findings stand in the order of the source

Every finding points at the token that was next when it was made, and tokens are never taken back.
So the findings of a schema stand in the order of their places. `State.Orderly` is what every step
of a reader keeps: each finding points at a token that comes before all that are left, or is the
first of them, and the places of the findings go forward.
-/

namespace SchemaToFlow

/-- The span neither starts nor ends after the other. -/
def Text.Span.NotAfter (a b : Text.Span) : Prop := a.start ≤ b.start ∧ a.stop ≤ b.stop

/-- No label of the first finding stands after one of the second. -/
def Diagnostic.NotAfter (d d' : Diagnostic) : Prop :=
  ∀ l ∈ d.labels, ∀ l' ∈ d'.labels, l.span.NotAfter l'.span

namespace Schema

open Text

/-- The finding has one label, which repeats its message and stands at the token. Whether that is
the end mark agrees with the code. -/
structure Token.PointedAt (t : Token) (d : Diagnostic) : Prop where
  label : ∃ message, d.message = some message ∧ d.labels = [⟨t.span, message⟩]
  early : d.code = Diagnostic.unexpectedEnd → t.kind = .endOfInput
  wrong : d.code = Diagnostic.unexpectedToken → t.kind ≠ .endOfInput

theorem Token.PointedAt.span_eq {t : Token} {d : Diagnostic} (h : t.PointedAt d) :
    ∀ l ∈ d.labels, l.span = t.span := by
  obtain ⟨message, _, hlabels⟩ := h.label
  rw [hlabels, List.forall_mem_singleton]

namespace State

variable {source : String} {s s' : State}

/-- No token that is left stands before the next one. -/
theorem Fits.notAfter (h : s.Fits source) : ∀ t ∈ s.ahead, s.current.span.NotAfter t.span := by
  obtain ⟨more, hmore⟩ : ∃ more, s.ahead = s.current :: more := by
    unfold State.ahead State.current
    cases s.rest with
    | nil => exact ⟨[], rfl⟩
    | cons t ts => exact ⟨ts ++ [.endAt s.finish], rfl⟩
  have hpairs : s.ahead.Pairwise fun t u => t.span.stop ≤ u.span.start :=
    (pairwise_tokenize source).sublist h.ahead.sublist
  have hmem : ∀ t ∈ s.ahead, t ∈ tokenize source := fun t ht => h.ahead.mem ht
  rw [hmore, List.pairwise_cons] at hpairs
  rw [hmore, List.forall_mem_cons] at hmem ⊢
  refine ⟨⟨Nat.le_refl _, Nat.le_refl _⟩, fun t ht => ⟨?_, ?_⟩⟩
  · exact Nat.le_trans (start_le_stop hmem.1) (hpairs.1 t ht)
  · exact Nat.le_trans (hpairs.1 t ht) (start_le_stop (hmem.2 t ht))

/-- The findings point at tokens that are not after those left, and go forward. -/
structure Orderly (source : String) (s : State) : Prop where
  pointed : ∀ d ∈ s.report.entries, ∃ t ∈ tokenize source, t.PointedAt d ∧
    ∀ u ∈ s.ahead, t.span.NotAfter u.span
  forward : s.report.entries.Pairwise Diagnostic.NotAfter

/-- **Step.** Findings stay in order. -/
theorem Step.orderly (h : Step s s') (hs : s.Fits source) (ho : s.Orderly source) :
    s'.Orderly source := by
  cases h with
  | take =>
    have hahead : ∀ t ∈ s.advance.ahead, t ∈ s.ahead := by
      unfold ahead
      rw [List.forall_mem_append]
      exact ⟨fun t ht => List.mem_append_left _ (List.mem_of_mem_tail ht),
        fun t ht => List.mem_append_right _ ht⟩
    refine ⟨fun d hd => ?_, ho.forward⟩
    obtain ⟨t, ht, hpointed, hleft⟩ := ho.pointed d hd
    exact ⟨t, ht, hpointed, fun u hu => hleft u (hahead u hu)⟩
  | number => exact ⟨ho.pointed, ho.forward⟩
  | @report severity code title message hend htoken =>
    have hpointed : s.current.PointedAt
        (.located severity code title s.current.span message) := by
      refine ⟨⟨message, rfl, rfl⟩, fun hcode => ?_, fun hcode => hs.kind_ne (htoken hcode)⟩
      exact current_of_rest_nil (List.isEmpty_iff.1 (hend hcode))
    constructor
    · refine List.forall_mem_append.2 ⟨ho.pointed, List.forall_mem_singleton.2 ?_⟩
      exact ⟨s.current, hs.current_mem, hpointed, hs.notAfter⟩
    · refine List.pairwise_append.2 ⟨ho.forward, List.pairwise_singleton _ _, fun d hd d' hd' => ?_⟩
      obtain ⟨t, _, hold, hleft⟩ := ho.pointed d hd
      rw [List.mem_singleton.1 hd']
      intro l hl l' hl'
      rw [hold.span_eq l hl, hpointed.span_eq l' hl']
      exact hleft s.current s.current_mem_ahead

/-- **Run.** Findings stay in order, whatever is read. -/
theorem Steps.orderly (h : s.Steps s') (hs : s.Fits source) (ho : s.Orderly source) :
    s'.Orderly source := by
  induction h with
  | refl => exact ho
  | tail hsteps hstep ih => exact hstep.orderly (Steps.fits hsteps hs) ih

theorem orderly_start (source : String) : (State.start source).Orderly source :=
  ⟨fun _ hd => absurd hd List.not_mem_nil, .nil⟩

end State

/-- The end mark covers nothing, at the end of the source. -/
theorem span_of_endOfInput {source : String} {t : Token} (ht : t ∈ tokenize source)
    (hkind : t.kind = .endOfInput) : t.span = .emptyAt source.utf8ByteSize := by
  rw [tokenize, List.mem_append, List.mem_singleton] at ht
  rcases ht with ht | rfl
  · exact absurd hkind ((tiles_start source).kind_ne t ht)
  · rw [← byteLength_toList]
    rfl

/-- **Findings point at tokens, in the order of the source.** -/
theorem findings_point_at_tokens (source : String) :
    (∀ d ∈ (parse source).report.entries, ∃ t ∈ tokenize source, t.PointedAt d ∧
        (t.kind = .endOfInput → t.span = .emptyAt source.utf8ByteSize)) ∧
      (parse source).report.entries.Pairwise Diagnostic.NotAfter := by
  have hsteps : (State.start source).Steps (Reader.document (State.start source)).2 :=
    Reader.Stepwise.steps _
  have ho := hsteps.orderly (State.fits_start source) (State.orderly_start source)
  refine ⟨fun d hd => ?_, ho.forward⟩
  obtain ⟨t, ht, hpointed, _⟩ := ho.pointed d hd
  exact ⟨t, ht, hpointed, span_of_endOfInput ht⟩

example : (parse "type \x7b\n scalar").report.entries.map (fun d => (d.code, d.primary?)) =
    [("E0001", some ⟨5, 6⟩), ("E0002", some ⟨14, 14⟩)] := by decide +kernel

end Schema

end SchemaToFlow
