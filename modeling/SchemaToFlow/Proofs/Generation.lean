import SchemaToFlow.Proofs.Numbering
import SchemaToFlow.Proofs.Placed

/-!
# Only errors of the schema stop generation

A schema that is read without errors has a meaning, so that `generate` fails only where it is told
to: on the errors of the schema. What could still go wrong is a definition without a name. A name is
empty only where the text lacks one, which is an error: every token has a text
(`text_ne_empty_of_mem_tokens`), so without errors no empty name is ever listed
(`empty_notMem_names`), and every number in the document stands for a listed name.
-/

namespace SchemaToFlow

namespace Schema

/-! ## Tokens and names have a text -/

theorem text_ne_empty_of_token? {c c' : Cursor} {t : Token} (h : c.token? = some (t, c')) :
    t.text ≠ "" := by
  unfold Cursor.token? at h
  split at h
  · cases h
  · rename_i ch cs _
    obtain ⟨rfl, _⟩ := Prod.mk.inj (Option.some.inj h)
    intro htext
    have hchars : ch :: cs.take (lexeme ch cs).2 = [] := String.ofList_eq_empty_iff.1 htext
    cases hchars

theorem text_ne_empty_of_mem_tokens (c : Cursor) : ∀ t ∈ c.tokens, t.text ≠ "" := by
  fun_induction Cursor.tokens c with
  | case1 => exact fun _ h => absurd h List.not_mem_nil
  | case2 c t c' hnext _ ih =>
    exact List.forall_mem_cons.2 ⟨text_ne_empty_of_token? hnext, ih⟩

theorem named_start (source : String) : (State.start source).Named (· ≠ "") where
  tokens t ht _ := text_ne_empty_of_mem_tokens _ t ht
  names _ := by
    show ∀ n ∈ NameTable.builtinScalars, n ≠ ""
    decide

variable {source : String}

theorem empty_notMem_names (h : (parse source).report.hasErrors = false) :
    "" ∉ (parse source).names.names := by
  have hleads : (State.start source).Leads (Reader.document (State.start source)).2 :=
    Reader.Forward.leads _
  exact fun hmem => (hleads.named _ (named_start source)).names h "" hmem rfl

/-- **In a schema without errors every name has a text.** -/
theorem text_ne_empty_of_mem_nameIds (h : (parse source).report.hasErrors = false) :
    ∀ id ∈ (parse source).document.nameIds, (parse source).names.text id ≠ "" :=
  fun id hid => NameTable.text_ne_empty (covers_parse source id hid) (empty_notMem_names h)

/-! ## The meaning of a schema without errors -/

/-- The name of a definition is one of the names in it, or it is the name of the entry points. -/
theorem exists_mem_nameIds_of_name? {names : NameTable} {x : Definition} {n : String}
    (h : x.name? names = some n) : n = "schema" ∨ ∃ id ∈ x.nameIds, names.text id = n := by
  cases x with
  | schema d => exact .inl (Option.some.inj h).symm
  | directive d => cases h
  | object d | interface d | union d | enum d | input d | scalar d =>
    exact .inr ⟨d.name.id, List.mem_cons_self, Option.some.inj h⟩

theorem name?_ne_empty (h : (parse source).report.hasErrors = false) :
    ∀ x ∈ (parse source).document.definitions, x.name? (parse source).names ≠ some "" := by
  intro x hx hname
  rcases exists_mem_nameIds_of_name? hname with hschema | ⟨id, hid, htext⟩
  · exact absurd hschema (by decide)
  · exact text_ne_empty_of_mem_nameIds h id (List.mem_flatMap.2 ⟨x, hx, hid⟩) htext

theorem exists_generated (h : (parse source).report.hasErrors = false) (options : GenerateOptions) :
    ∃ g, (parse source).generated options = .ok g := by
  unfold Parsed.generated
  rw [program_eq_flow _ (name?_ne_empty h)]
  exact ⟨_, rfl⟩

end Schema

open Schema

theorem hasErrors_iff {r : Report} : r.hasErrors = true ↔ ∃ d ∈ r.entries, d.severity = .error := by
  simp only [Report.hasErrors, Diagnostic.isError, List.any_eq_true, decide_eq_true_iff]

theorem generate_of_errors {source : String} (h : (parse source).report.hasErrors = true)
    (options : GenerateOptions) :
    generate source options = .error (.invalid (parse source).report.errors) :=
  if_pos h

theorem exists_generate_eq_ok {source : String} (h : (parse source).report.hasErrors = false)
    (options : GenerateOptions) : ∃ g, generate source options = .ok g := by
  obtain ⟨g, hg⟩ := exists_generated h options
  refine ⟨g, ?_⟩
  unfold generate
  dsimp only
  rw [h, hg]
  rfl

/-- **Generation fails exactly on the errors of the schema**, and hands them on in order. Without
them there is a program, and every name in the document has a text. -/
theorem generate_fails_exactly_on_errors (source : String) (options : GenerateOptions) :
    (∀ errors, generate source options = .error (.invalid errors) ↔
      (∃ d ∈ (parse source).report.entries, d.severity = .error) ∧
        errors = (parse source).report.entries.filter (·.severity = .error)) ∧
    (∀ fault, generate source options ≠ .error (.fault fault)) ∧
    ((∀ d ∈ (parse source).report.entries, d.severity ≠ .error) →
      (∃ g, generate source options = .ok g) ∧
        ∀ id ∈ (parse source).document.nameIds, (parse source).names.text id ≠ "") := by
  cases hc : (parse source).report.hasErrors with
  | true =>
    have herrors := hasErrors_iff.1 hc
    rw [generate_of_errors hc options]
    refine ⟨fun errors => ?_, nofun, fun h => ?_⟩
    · rw [Except.error.injEq, GenerateError.invalid.injEq]
      exact ⟨fun h => ⟨herrors, h.symm⟩, fun h => h.2.symm⟩
    · obtain ⟨d, hd, herror⟩ := herrors
      exact absurd herror (h d hd)
  | false =>
    obtain ⟨g, hg⟩ := exists_generate_eq_ok hc options
    rw [hg]
    refine ⟨fun errors => ⟨nofun, fun h => ?_⟩, nofun, fun _ => ?_⟩
    · rw [hasErrors_iff.2 h.1] at hc
      cases hc
    · exact ⟨⟨g, rfl⟩, text_ne_empty_of_mem_nameIds hc⟩

/-- A schema with names in every kind of place, and with a directive location that draws a
warning. -/
def warnedSource : String := "directive @d(a: [T!] = {k: [V]}) on THERE type T implements I @e(a: V)"

theorem generate_warnedSource :
    (parse warnedSource).report.entries.map (·.severity) = [.warning] ∧
      (∃ g, generate warnedSource {} = .ok g) ∧
        ∀ id ∈ (parse warnedSource).document.nameIds, (parse warnedSource).names.text id ≠ "" :=
  ⟨by decide +kernel, (generate_fails_exactly_on_errors warnedSource {}).2.2 (by decide +kernel)⟩

end SchemaToFlow
