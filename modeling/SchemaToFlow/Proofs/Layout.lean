import SchemaToFlow.Proofs.Generation
import SchemaToFlow.Proofs.Transport

/-!
# Layout does not matter

Two sources may have the same tokens and differ in what stands between them: blanks, commas,
comments and line ends. They then have the same names with the same numbers, the same document up
to spans, the same findings up to spans (`parse_of_words`), and so the same program, or errors
that read alike (`generate_of_words`). This holds of sources with errors too, where reading goes
on after what it could not make sense of.
-/

namespace SchemaToFlow

open Text SchemaToFlow.Flow

/-- What a finding says, apart from its places. -/
def Diagnostic.gist (d : Diagnostic) : String × String × Option String :=
  (d.code, d.title, d.message)

namespace Schema

/-- What a token is, apart from its place. -/
def Token.word (t : Token) : TokenKind × String := (t.kind, t.text)

/-! ## Reading -/

theorem recast_erase_of_words {ts ts' : List Token} (h : ts.map Token.word = ts'.map Token.word) :
    recast .erase ts = recast .erase ts' := by
  have hword : ∀ t : Token, recast .erase t = ⟨t.word.1, ⟨0, 0⟩, t.word.2⟩ := fun _ => rfl
  show ts.map (recast .erase) = ts'.map (recast .erase)
  rw [funext hword]
  have hmap := congrArg (List.map fun w : TokenKind × String => Token.mk w.1 ⟨0, 0⟩ w.2) h
  rwa [List.map_map, List.map_map] at hmap

variable {a b : String}

theorem words_of_tokenize (h : (tokenize a).map Token.word = (tokenize b).map Token.word) :
    (State.start a).rest.map Token.word = (State.start b).rest.map Token.word := by
  unfold tokenize at h
  rw [List.map_append, List.map_append] at h
  exact List.append_cancel_right h

/-- Forgetting all places makes the two sources one. -/
theorem state_start (h : (tokenize a).map Token.word = (tokenize b).map Token.word)
    (T T' : NameTable) :
    (Transport.erase T).state (State.start a) = (Transport.erase T').state (State.start b) := by
  have hrest := recast_erase_of_words (words_of_tokenize h)
  unfold Transport.state
  congr 1

/-- Reading a schema and then forgetting all places. -/
theorem document_erase (source : String) :
    Reader.document ((Transport.erase (parse source).names).state (State.start source)) =
      (recast .erase (parse source).document,
        (Transport.erase (parse source).names).state (Reader.document (State.start source)).2) :=
  Reader.follows_document (State.start source) List.prefix_rfl

/-- **Sources with the same tokens read alike.** -/
theorem parse_of_words (h : (tokenize a).map Token.word = (tokenize b).map Token.word) :
    (parse a).names = (parse b).names ∧
      recast .erase (parse a).document = recast .erase (parse b).document ∧
      recast .erase (parse a).report.entries = recast .erase (parse b).report.entries := by
  have hruns := (document_erase a).symm.trans
    ((congrArg Reader.document (state_start h _ _)).trans (document_erase b))
  obtain ⟨hdocument, hstate⟩ := Prod.mk.inj hruns
  have hnames := congrArg State.names hstate
  have hentries := congrArg (fun s : State => s.report.entries) hstate
  exact ⟨hnames, hdocument, hentries⟩

end Schema

open Schema

/-! ## Generating -/

variable {a b : String}

theorem hasErrors_recast (c : Change) (r : Report) :
    Report.hasErrors ⟨recast c r.entries⟩ = r.hasErrors := by
  show (r.entries.map (recast c)).any Diagnostic.isError = r.entries.any Diagnostic.isError
  rw [List.any_map]
  rfl

theorem gist_errors_recast (c : Change) (r : Report) :
    (Report.errors ⟨recast c r.entries⟩).map Diagnostic.gist = r.errors.map Diagnostic.gist := by
  show ((r.entries.map (recast c)).filter Diagnostic.isError).map Diagnostic.gist =
    (r.entries.filter Diagnostic.isError).map Diagnostic.gist
  rw [List.filter_map, List.map_map]
  rfl

theorem generate_eq_flow (h : (parse a).report.hasErrors = false) (options : GenerateOptions) :
    generate a options = .ok ⟨(parse a).document.flow (parse a).names options.exact,
      ((parse a).document.flow (parse a).names options.exact).print options.print⟩ := by
  unfold generate Parsed.generated
  dsimp only
  rw [program_eq_flow _ (name?_ne_empty h), h]
  rfl

/-- **Layout does not matter.** Two sources with the same tokens, by kind and text, have the same
names by the same numbers and the same document up to spans. They generate the same program and the
same code, or both fail with errors that say the same in the same order. -/
theorem generate_of_words (a b : String)
    (h : (tokenize a).map Token.word = (tokenize b).map Token.word) (options : GenerateOptions) :
    (parse a).names = (parse b).names ∧
      recast .erase (parse a).document = recast .erase (parse b).document ∧
      ((∃ g, generate a options = .ok g ∧ generate b options = .ok g) ∨
        ∃ errors errors', generate a options = .error (.invalid errors) ∧
          generate b options = .error (.invalid errors') ∧
          errors.map Diagnostic.gist = errors'.map Diagnostic.gist) := by
  obtain ⟨hnames, hdocument, hentries⟩ := parse_of_words h
  refine ⟨hnames, hdocument, ?_⟩
  have herrors : (parse a).report.hasErrors = (parse b).report.hasErrors := by
    rw [← hasErrors_recast .erase, hentries, hasErrors_recast]
  cases ha : (parse a).report.hasErrors with
  | true =>
    refine .inr ⟨_, _, generate_of_errors ha options, generate_of_errors (herrors ▸ ha) options, ?_⟩
    rw [← gist_errors_recast .erase, hentries, gist_errors_recast]
  | false =>
    have hflow : (parse a).document.flow (parse a).names options.exact =
        (parse b).document.flow (parse b).names options.exact := by
      rw [← flow_recast (c := .erase) (fun _ => rfl), hdocument, flow_recast (fun _ => rfl), hnames]
    refine .inl ⟨_, generate_eq_flow ha options, ?_⟩
    rw [generate_eq_flow (herrors ▸ ha) options, hflow]

/-- A schema on several lines, with a remark. -/
def spacedSource : String := "type Film \x7b\n  sequel(n: Int = 3): [Film!] # in order\n\x7d\n"

/-- The same schema in as little space as it takes. -/
def denseSource : String := "type Film\x7bsequel(n:Int=3):[Film!]\x7d"

theorem generate_denseSource :
    (tokenize spacedSource).map Token.word = (tokenize denseSource).map Token.word ∧
      ((∃ g, generate spacedSource {} = .ok g ∧ generate denseSource {} = .ok g) ∨
        ∃ errors errors', generate spacedSource {} = .error (.invalid errors) ∧
          generate denseSource {} = .error (.invalid errors') ∧
          errors.map Diagnostic.gist = errors'.map Diagnostic.gist) := by
  have h : (tokenize spacedSource).map Token.word = (tokenize denseSource).map Token.word := by
    decide +kernel
  exact ⟨h, (generate_of_words spacedSource denseSource h {}).2.2⟩

end SchemaToFlow
