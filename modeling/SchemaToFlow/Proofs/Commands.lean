import SchemaToFlow.Command.Run
import SchemaToFlow.Proofs.Generation
import SchemaToFlow.Proofs.WorkingDirectory

/-!
# What commands do

The commands go their own way from a schema to its program (`examine`), and change files only at the
end. What they do is said for any store of files.

* `program_examine`: a command finds the program that `generate` finds, and finds none where
  `generate` fails.
* `translateFile_of_ok`, `translateFile_of_error`: reading a schema says what is wrong with it and
  changes nothing else.
* `run_generate_agrees`: the command that generates declarations does what `generate` says, writes
  what it gives, and leaves everything else as it is.
-/

namespace SchemaToFlow.Command

open Schema SchemaToFlow.Flow

/-! ## The two ways to a program -/

theorem program_examine (path source : String) (options : GenerateOptions) (quiet : Bool) :
    (examine path source options.exact quiet).program =
      (generate source options).toOption.map Generated.program := by
  unfold examine generate Parsed.generated
  dsimp only
  by_cases herrors : (parse source).report.hasErrors = true
  · rw [if_pos herrors, if_pos herrors]
    rfl
  · rw [if_neg herrors, if_neg herrors]
    cases (parse source).program options.exact <;> rfl

theorem program_examine_of_error {source : String} {options : GenerateOptions} {e : GenerateError}
    (h : generate source options = .error e) (path : String) (quiet : Bool) :
    (examine path source options.exact quiet).program = none := by
  rw [program_examine, h]
  rfl

theorem program_examine_of_ok {source : String} {options : GenerateOptions} {g : Generated}
    (h : generate source options = .ok g) (path : String) (quiet : Bool) :
    (examine path source options.exact quiet).program = some g.program := by
  rw [program_examine, h]
  rfl

theorem code_of_generate {source : String} {options : GenerateOptions} {g : Generated}
    (h : generate source options = .ok g) : g.code = g.program.print options.print := by
  unfold generate Parsed.generated at h
  dsimp only at h
  by_cases herrors : (parse source).report.hasErrors = true
  · rw [if_pos herrors] at h
    cases h
  · rw [if_neg herrors] at h
    cases hprogram : (parse source).program options.exact with
    | error fault =>
      rw [hprogram] at h
      cases h
    | ok program =>
      rw [hprogram] at h
      obtain rfl := Except.ok.inj h
      rfl

/-! ## Steps of a command -/

namespace FileStore

variable {files : FileStore} {w w' : files.World} {α β : Type}

theorem bind_of_ok {x : ExceptT FileError (StateM files.World) α}
    {f : α → ExceptT FileError (StateM files.World) β} {a : α} (h : x w = (.ok a, w')) :
    (x >>= f) w = f a w' := by
  show (match x w with | (result, w') => ExceptT.bindCont f result w') = _
  rw [h]
  rfl

theorem bind_of_error {x : ExceptT FileError (StateM files.World) α}
    {f : α → ExceptT FileError (StateM files.World) β} {e : FileError} (h : x w = (.error e, w')) :
    (x >>= f) w = (.error e, w') := by
  show (match x w with | (result, w') => ExceptT.bindCont f result w') = _
  rw [h]
  rfl

variable {path source : String} (exact quiet : Bool)

theorem system_write {text : String} {result : Except FileError Unit} {after : files.State}
    (h : files.write w.state path text.toUTF8 = (result, after)) :
    files.system.write path text w = (result, { w with state := after }) := by
  simp only [system, h]

/-- A file that cannot be read ends a command. -/
theorem translateFile_of_error {e : FileError} (h : files.readText w.state path = .error e) :
    translateFile files.system path exact quiet w = (.error e, w) := by
  have hread : files.system.read path w = (.error e, w) := congrArg (·, w) h
  exact bind_of_error hread

/-- A file that can be read is reported on. -/
theorem translateFile_of_ok (h : files.readText w.state path = .ok source) :
    translateFile files.system path exact quiet w =
      (.ok (examine path source exact quiet).program,
        { w with stderr := w.stderr ++ (examine path source exact quiet).stderr }) := by
  have hread : files.system.read path w = (.ok source, w) := congrArg (·, w) h
  exact bind_of_ok hread

theorem outcome_of_run {s : files.State} {i : Invocation} {status : Except FileError Nat}
    (h : run files.system i { state := s } = (status, w)) :
    files.outcome s i = ⟨w.stdout, w.stderr, w.state, status⟩ := by
  unfold outcome
  rw [h]

end FileStore

/-! ## The command that generates declarations -/

section Generate

open FileStore

variable {files : FileStore} {w : files.World} {schema source : String} {options : GenerateOptions}
  {quiet : Bool}

/-- Without declarations there is nothing to write. -/
theorem generateFile_of_generate_error {e : GenerateError}
    (h : files.readText w.state schema = .ok source) (hg : generate source options = .error e)
    (output : Option String) :
    generateFile files.system schema output options quiet w =
      (.ok 1, { w with stderr := w.stderr ++ (examine schema source options.exact quiet).stderr }) := by
  have htranslate := translateFile_of_ok options.exact quiet h
  rw [program_examine_of_error hg] at htranslate
  exact bind_of_ok htranslate

theorem translateFile_of_generate_ok {g : Generated} (h : files.readText w.state schema = .ok source)
    (hg : generate source options = .ok g) :
    translateFile files.system schema options.exact quiet w =
      (.ok (some g.program),
        { w with stderr := w.stderr ++ (examine schema source options.exact quiet).stderr }) := by
  rw [translateFile_of_ok options.exact quiet h, program_examine_of_ok hg]

/-- Declarations go to the standard output, unless a file is named. -/
theorem generateFile_none {g : Generated} (h : files.readText w.state schema = .ok source)
    (hg : generate source options = .ok g) :
    generateFile files.system schema none options quiet w =
      (.ok 0, { w with
        stdout := w.stdout ++ g.code
        stderr := w.stderr ++ (examine schema source options.exact quiet).stderr }) := by
  rw [code_of_generate hg]
  exact bind_of_ok (translateFile_of_generate_ok h hg)

section Destination

variable {g : Generated} {path : String} {after : files.State}
  (h : files.readText w.state schema = .ok source) (hg : generate source options = .ok g)

include h hg

/-- Declarations go to the file that is named. -/
theorem generateFile_of_written (hwrite : files.write w.state path g.code.toUTF8 = (.ok (), after)) :
    generateFile files.system schema (some path) options quiet w =
      (.ok 0, {
        state := after
        stdout := w.stdout ++ if quiet then "" else "Generated " ++ path ++ "\n"
        stderr := w.stderr ++ (examine schema source options.exact quiet).stderr }) := by
  rw [code_of_generate hg] at hwrite
  have hput := system_write (w := { w with
    stderr := w.stderr ++ (examine schema source options.exact quiet).stderr }) hwrite
  exact (bind_of_ok (translateFile_of_generate_ok h hg)).trans (bind_of_ok hput)

/-- If that file cannot be written, nothing is said about it. -/
theorem generateFile_of_refused {e : FileError}
    (hwrite : files.write w.state path g.code.toUTF8 = (.error e, after)) :
    generateFile files.system schema (some path) options quiet w =
      (.error e, { w with
        state := after
        stderr := w.stderr ++ (examine schema source options.exact quiet).stderr }) := by
  rw [code_of_generate hg] at hwrite
  have hput := system_write (w := { w with
    stderr := w.stderr ++ (examine schema source options.exact quiet).stderr }) hwrite
  exact (bind_of_ok (translateFile_of_generate_ok h hg)).trans (bind_of_error hput)

end Destination

end Generate

/-- **The command does what `generate` does, and nothing else.** Let the schema be a file that can be
read as a text, in any store of files in which writing is lawful, and let `generate` with the options
that the flags stand for be asked for its declarations.

* With declarations and `stdout`, the command prints their code, exits with zero and changes nothing.
* With declarations and without `stdout`, it exits with zero, the destination leads to a file that
  holds the code, and every other file holds what it held; if the destination cannot be written, it
  ends with that error and changes no file.
* Without declarations it exits with one, prints nothing and changes nothing.

If the schema cannot be read, the command ends with that error and changes nothing. -/
theorem run_generate_agrees (files : FileStore) (lawful : files.Lawful) (s : files.State)
    (verbose quiet : Bool) (schema : String) (output : Option String)
    (stdout inexact noPragma : Bool) (indent : Nat) (tabs : Bool) :
    let options : GenerateOptions :=
      { exact := !inexact, print := { indent := indent, tabs := tabs, pragma := !noPragma } }
    let destination := output.getD (schema ++ ".js.flow")
    let outcome := files.outcome s ⟨verbose, quiet,
      .generate schema output stdout inexact noPragma indent tabs⟩
    (∀ text, files.readText s schema = .ok text →
      (∀ g, generate text options = .ok g →
        (stdout = true → outcome.status = .ok 0 ∧ outcome.stdout = g.code ∧ outcome.state = s) ∧
        (stdout = false →
          ((files.write s destination g.code.toUTF8).1 = .ok () →
            outcome.status = .ok 0 ∧
              ∃ file, files.leads outcome.state destination = some file ∧
                files.contents outcome.state file = some g.code.toUTF8 ∧
                ∀ other, other ≠ file →
                  files.contents outcome.state other = files.contents s other) ∧
          ∀ e, (files.write s destination g.code.toUTF8).1 = .error e →
            outcome.status = .error e ∧
              ∀ file, files.contents outcome.state file = files.contents s file)) ∧
      ∀ e, generate text options = .error e →
        outcome.status = .ok 1 ∧ outcome.stdout = "" ∧ outcome.state = s) ∧
    ∀ e, files.readText s schema = .error e → outcome.status = .error e ∧ outcome.state = s := by
  intro options destination outcome
  have houtcome : ∀ {status : Except FileError Nat} {w : files.World},
      generateFile files.system schema (if stdout then none else some destination) options quiet
        { state := s } = (status, w) → outcome = ⟨w.stdout, w.stderr, w.state, status⟩ :=
    fun h => FileStore.outcome_of_run h
  refine ⟨fun text htext => ⟨fun g hg => ⟨?_, ?_⟩, fun e he => ?_⟩, fun e he => ?_⟩
  · rintro rfl
    rw [houtcome (generateFile_none htext hg)]
    exact ⟨rfl, String.empty_append, rfl⟩
  · rintro rfl
    refine ⟨fun hwrite => ?_, fun e hwrite => ?_⟩
    · have hwritten : files.write s destination g.code.toUTF8 = (.ok (), _) := Prod.ext hwrite rfl
      rw [houtcome (generateFile_of_written htext hg hwritten)]
      exact ⟨rfl, lawful.written hwritten⟩
    · have hrefused : files.write s destination g.code.toUTF8 = (.error e, _) := Prod.ext hwrite rfl
      rw [houtcome (generateFile_of_refused htext hg hrefused)]
      exact ⟨rfl, lawful.refused hrefused⟩
  · rw [houtcome (generateFile_of_generate_error htext he _)]
    exact ⟨rfl, rfl, rfl⟩
  · rw [houtcome (FileStore.bind_of_error (FileStore.translateFile_of_error _ _ he))]
    exact ⟨rfl, rfl⟩

/-- A schema in a directory, older declarations beside it, and another file. -/
def apiDirectory : WorkingDirectory :=
  ⟨[(["api", "s.graphql"], "type A \x7b b: Int! \x7d".toUTF8),
    (["api", "s.graphql.js.flow"], "old".toUTF8), (["notes"], "keep".toUTF8)]⟩

/-- A schema under an absolute path, where nothing can be written. -/
def protectedStore : FileStore where
  State := Unit
  File := String
  leads _ path := some path
  contents _ path := if path = "/srv/s.graphql" then some "type A \x7b b: Int! \x7d".toUTF8 else none
  read _ path :=
    if path = "/srv/s.graphql" then .ok "type A \x7b b: Int! \x7d".toUTF8 else .error .notFound
  write _ _ _ := (.error (.other "Read-only file system (os error 30)"), ())

theorem lawful_protectedStore : protectedStore.Lawful where
  written h := by cases (Prod.mk.inj h).1
  refused _ _ := rfl

theorem generate_apiSchema (inexact : Bool) :
    ∃ g, generate "type A \x7b b: Int! \x7d"
      { exact := !inexact, print := { indent := 4, tabs := true, pragma := false } } = .ok g := by
  have hclean : (parse "type A \x7b b: Int! \x7d").report.hasErrors = false := by decide +kernel
  exact exists_generate_eq_ok hclean _

/-- In a working directory the older declarations are replaced. Under an absolute path, where nothing
can be written, the declarations can still be printed. -/
theorem run_generate_agrees_apiDirectory :
    (∃ g, generate "type A \x7b b: Int! \x7d"
        { exact := false, print := { indent := 4, tabs := true, pragma := false } } = .ok g ∧
      ∃ outcome, outcome = WorkingDirectory.store.outcome apiDirectory
          ⟨false, true, .generate "api/s.graphql" none false true true 4 true⟩ ∧
        outcome.status = .ok 0 ∧
        ∃ file, outcome.state.leads "api/s.graphql.js.flow" = some file ∧
          outcome.state.get? file = some g.code.toUTF8 ∧
          ∀ other, other ≠ file → outcome.state.get? other = apiDirectory.get? other) ∧
    (protectedStore.outcome ()
        ⟨false, false, .generate "/srv/s.graphql" none true false true 4 true⟩).status = .ok 0 ∧
    ∃ e, (protectedStore.outcome ()
        ⟨false, false, .generate "/srv/s.graphql" none false false true 4 true⟩).status =
      .error e := by
  have hprotected : protectedStore.readText () "/srv/s.graphql" = .ok "type A \x7b b: Int! \x7d" :=
    FileStore.readText_of_read rfl
  obtain ⟨g, hg⟩ := generate_apiSchema false
  refine ⟨?_, ?_, ?_⟩
  · have hread : WorkingDirectory.store.readText apiDirectory "api/s.graphql" =
        .ok "type A \x7b b: Int! \x7d" :=
      WorkingDirectory.readText_eq_ok_iff.2 ⟨["api", "s.graphql"], by decide +kernel, rfl⟩
    have hadmits : apiDirectory.Admits "api/s.graphql.js.flow" ["api", "s.graphql.js.flow"] :=
      ⟨by decide +kernel, by decide +kernel⟩
    obtain ⟨g, hg⟩ := generate_apiSchema true
    have hwrite := WorkingDirectory.store_write_of_ok
      (WorkingDirectory.write_eq_ok_iff.2 ⟨_, hadmits, Eq.refl (apiDirectory.set _ g.code.toUTF8)⟩)
    exact ⟨g, hg, _, rfl, (((run_generate_agrees WorkingDirectory.store WorkingDirectory.lawful_store
      apiDirectory false true "api/s.graphql" none false true true 4 true).1 _ hread).1 g hg).2 rfl
        |>.1 (congrArg Prod.fst hwrite)⟩
  · exact ((((run_generate_agrees protectedStore lawful_protectedStore () false false "/srv/s.graphql"
      none true false true 4 true).1 _ hprotected).1 g hg).1 rfl).1
  · exact ⟨_, ((((run_generate_agrees protectedStore lawful_protectedStore () false false
      "/srv/s.graphql" none false false true 4 true).1 _ hprotected).1 g hg).2 rfl |>.2 _ rfl).1⟩

end SchemaToFlow.Command
