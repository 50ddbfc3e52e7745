import SchemaToFlow.Proofs.Commands
import SchemaToFlow.Proofs.Generation

/-!
# Checking files

The command that checks files goes through all of them, also behind one that has errors, and stops
only at a file that cannot be read. What it says is put together from what it says about each file,
in any store of files.

* `isNone_examine`: a file is found free of errors exactly if declarations can be generated from its
  text.
* `checkEach_append`: files that can be read add what is said about them, and leave nothing else behind
  than whether one of them has errors.
* `check_verdict`: the command fails exactly if some file is bad, whatever the order.
-/

namespace SchemaToFlow.Command

open Text Schema SchemaToFlow.Flow

/-! ## One file -/

/-- What is reported about a file: its warnings, unless they are not wanted, and its errors. -/
def findingsText (quiet : Bool) (file source : String) : String :=
  (if quiet then "" else warningText file source (parse source).report.warnings) ++
    if (parse source).report.hasErrors then errorText file source (parse source).report.errors
    else ""

/-- What is said about a file on the way, if that is wanted: that it is checked, and then whether
declarations can be generated from it. -/
def progressText (verbose : Bool) (file source : String) : String :=
  if verbose then
    "Checking " ++ file ++ "\n" ++
      if (generate source {}).toOption.isSome then "OK " ++ file ++ "\n" else ""
  else ""

theorem generate_cases (source : String) (options : GenerateOptions) :
    ((parse source).report.hasErrors = false ∧ ∃ g, generate source options = .ok g) ∨
      ((parse source).report.hasErrors = true ∧ ∃ e, generate source options = .error e) := by
  cases h : (parse source).report.hasErrors with
  | false => exact .inl ⟨rfl, exists_generate_eq_ok h options⟩
  | true => exact .inr ⟨rfl, _, generate_of_errors h options⟩

theorem generate_ok_iff {source : String} {options : GenerateOptions} :
    (∃ g, generate source options = .ok g) ↔ (parse source).report.hasErrors = false := by
  rcases generate_cases source options with ⟨h, g, hg⟩ | ⟨h, e, he⟩
  · exact iff_of_true ⟨g, hg⟩ h
  · simp [h, he]

theorem generate_error_iff {source : String} {options : GenerateOptions} :
    (∃ e, generate source options = .error e) ↔ (parse source).report.hasErrors = true := by
  rcases generate_cases source options with ⟨h, g, hg⟩ | ⟨h, e, he⟩
  · simp [h, hg]
  · exact iff_of_true ⟨e, he⟩ h

theorem isSome_generate (source : String) (options : GenerateOptions) :
    (generate source options).toOption.isSome = !(parse source).report.hasErrors := by
  rcases generate_cases source options with ⟨h, g, hg⟩ | ⟨h, e, he⟩
  · rw [h, hg]
    rfl
  · rw [h, he]
    rfl

/-- A file is found good exactly if its text has no errors. -/
theorem isNone_examine (file source : String) (exact quiet : Bool) :
    (examine file source exact quiet).program.isNone = (parse source).report.hasErrors := by
  have hprogram := program_examine file source { exact := exact } quiet
  have hsome := isSome_generate source { exact := exact }
  rw [hprogram, Option.isNone_map, ← Option.not_isSome, hsome, Bool.not_not]

/-- Without errors there is a program, so nothing else is reported than the findings. -/
theorem stderr_examine (file source : String) (exact quiet : Bool) :
    (examine file source exact quiet).stderr = findingsText quiet file source := by
  have hnone := isNone_examine file source exact quiet
  unfold examine at hnone ⊢
  unfold findingsText
  dsimp only at hnone ⊢
  cases herrors : (parse source).report.hasErrors with
  | true => rfl
  | false =>
    rw [herrors, if_neg Bool.false_ne_true] at hnone
    rw [if_neg Bool.false_ne_true, if_neg Bool.false_ne_true, String.append_empty]
    cases hprogram : (parse source).program exact with
    | ok program => rfl
    | error fault =>
      rw [hprogram] at hnone
      cases hnone

/-! ## One file after the other -/

/-- Whether one of the files, which hold texts, has errors. -/
def anyBad (text : String → String) (files : List String) : Bool :=
  files.any fun f => (parse (text f)).report.hasErrors

theorem anyBad_cons (text : String → String) (f : String) (files : List String) :
    anyBad text (f :: files) = ((parse (text f)).report.hasErrors || anyBad text files) := rfl

theorem anyBad_of_perm {files files' : List String} (h : files'.Perm files)
    (text : String → String) : anyBad text files' = anyBad text files :=
  h.any_eq

section Loop

open FileStore

variable {store : FileStore} {w : store.World} {text : String → String} (verbose quiet : Bool)

/-- What is left after something was said. -/
def FileStore.World.after {store : FileStore} (w : store.World) (stdout stderr : String) :
    store.World :=
  { w with stdout := w.stdout ++ stdout, stderr := w.stderr ++ stderr }

theorem FileStore.World.after_after (w : store.World) (out err out' err' : String) :
    (w.after out err).after out' err' = w.after (out ++ out') (err ++ err') := by
  simp [FileStore.World.after, String.append_assoc]

theorem print_apply (w : store.World) (said : String) :
    (liftM (store.system.print said) : ExceptT FileError (StateM store.World) Unit) w =
      (.ok (), { w with stdout := w.stdout ++ said }) :=
  rfl

/-- A file that can be read says its part. -/
theorem checkFile_of_ok {file source : String} (h : store.readText w.state file = .ok source) :
    checkFile store.system verbose quiet file w =
      (.ok (parse source).report.hasErrors,
        w.after (progressText verbose file source) (findingsText quiet file source)) := by
  have hprogress : ((if verbose then "Checking " ++ file ++ "\n" else "") ++
      if verbose ∧ (examine file source true quiet).program.isSome then "OK " ++ file ++ "\n"
      else "") = progressText verbose file source := by
    unfold progressText
    rw [isSome_generate, ← isNone_examine file source true quiet, Option.not_isNone]
    cases verbose <;> simp
  have hopening := print_apply w (if verbose then "Checking " ++ file ++ "\n" else "")
  have htranslate := translateFile_of_ok true quiet (w := { w with
    stdout := w.stdout ++ if verbose then "Checking " ++ file ++ "\n" else "" }) h
  rw [checkFile, bind_of_ok hopening, bind_of_ok htranslate, bind_of_ok (print_apply _ _),
    FileStore.World.after, ← hprogress, ← String.append_assoc, ← stderr_examine file source true,
    ← isNone_examine file source true quiet]
  rfl

/-- A file that cannot be read ends the command. -/
theorem checkFile_of_error {file : String} {e : FileError}
    (h : store.readText w.state file = .error e) :
    checkFile store.system verbose quiet file w =
      (.error e, { w with
        stdout := w.stdout ++ if verbose then "Checking " ++ file ++ "\n" else "" }) := by
  have hopening := print_apply w (if verbose then "Checking " ++ file ++ "\n" else "")
  have htranslate := translateFile_of_error true quiet (w := { w with
    stdout := w.stdout ++ if verbose then "Checking " ++ file ++ "\n" else "" }) h
  rw [checkFile, bind_of_ok hopening, bind_of_error htranslate]

/-- **Step.** A file that can be read says its part, and is remembered if it has errors. -/
theorem checkEach_cons {file source : String} (h : store.readText w.state file = .ok source)
    (failed : Bool) (files : List String) :
    checkEach store.system verbose quiet failed (file :: files) w =
      checkEach store.system verbose quiet (failed || (parse source).report.hasErrors) files
        (w.after (progressText verbose file source) (findingsText quiet file source)) := by
  have hround : (return failed || (← checkFile store.system verbose quiet file) :
      ExceptT FileError (StateM store.World) Bool) w =
        (.ok (failed || (parse source).report.hasErrors),
          w.after (progressText verbose file source) (findingsText quiet file source)) :=
    bind_of_ok (checkFile_of_ok verbose quiet h)
  rw [checkEach, List.foldlM_cons]
  exact bind_of_ok hround

theorem checkEach_of_error {file : String} {e : FileError}
    (h : store.readText w.state file = .error e) (failed : Bool) (files : List String) :
    checkEach store.system verbose quiet failed (file :: files) w =
      (.error e, { w with
        stdout := w.stdout ++ if verbose then "Checking " ++ file ++ "\n" else "" }) := by
  rw [checkEach, List.foldlM_cons]
  exact bind_of_error (bind_of_error (checkFile_of_error verbose quiet h))

/-- **Run.** Files that can be read say their parts in order, and it is remembered whether one of
them has errors. -/
theorem checkEach_append {before : List String}
    (h : ∀ f ∈ before, store.readText w.state f = .ok (text f))
    (failed : Bool) (files : List String) :
    checkEach store.system verbose quiet failed (before ++ files) w =
      checkEach store.system verbose quiet (failed || anyBad text before) files
        (w.after (String.join (before.map fun f => progressText verbose f (text f)))
          (String.join (before.map fun f => findingsText quiet f (text f)))) := by
  induction before generalizing failed w with
  | nil => simp [FileStore.World.after, anyBad]
  | cons f before ih =>
    rw [List.forall_mem_cons] at h
    have hmore := ih (w := w.after (progressText verbose f (text f)) (findingsText quiet f (text f)))
      h.2 (failed || (parse (text f)).report.hasErrors)
    rw [List.cons_append, checkEach_cons verbose quiet h.1, hmore, FileStore.World.after_after,
      anyBad_cons, Bool.or_assoc, List.map_cons, List.map_cons, String.join_cons, String.join_cons]

/-- What is done where all files can be read. -/
theorem checkFiles_of_readable {files : List String} (hfiles : files ≠ [])
    (h : ∀ f ∈ files, store.readText w.state f = .ok (text f)) :
    checkFiles store.system files verbose quiet w =
      (.ok (if anyBad text files then 1 else 0),
        w.after (String.join (files.map fun f => progressText verbose f (text f)) ++
            if anyBad text files ∨ quiet then ""
            else "Success: " ++ toString files.length ++ " file(s) checked\n")
          (String.join (files.map fun f => findingsText quiet f (text f)))) := by
  have hall := checkEach_append verbose quiet h false []
  rw [List.append_nil, Bool.false_or] at hall
  have hfold : checkEach store.system verbose quiet false files w =
      (.ok (anyBad text files),
        w.after (String.join (files.map fun f => progressText verbose f (text f)))
          (String.join (files.map fun f => findingsText quiet f (text f)))) := hall
  rw [checkFiles, bind_of_ok hfold]
  cases anyBad text files with
  | true =>
    rw [if_pos rfl, if_pos rfl, if_pos (.inl rfl), String.append_empty]
    rfl
  | false =>
    rw [if_neg Bool.false_ne_true, if_neg Bool.false_ne_true, bind_of_ok (print_apply _ _)]
    simp only [FileStore.World.after, String.append_assoc, hfiles, or_false, Bool.false_eq_true,
      false_or]
    rfl

/-- What is done where some file cannot be read. -/
theorem checkFiles_of_unreadable {before : List String} {bad : String} {e : FileError}
    (h : ∀ f ∈ before, store.readText w.state f = .ok (text f))
    (hbad : store.readText w.state bad = .error e) (after : List String) :
    checkFiles store.system (before ++ bad :: after) verbose quiet w =
      (.error e,
        w.after (String.join (before.map fun f => progressText verbose f (text f)) ++
            if verbose then "Checking " ++ bad ++ "\n" else "")
          (String.join (before.map fun f => findingsText quiet f (text f)))) := by
  have hall := checkEach_append verbose quiet h false (bad :: after)
  have hstop := checkEach_of_error verbose quiet
    (w := w.after (String.join (before.map fun f => progressText verbose f (text f)))
      (String.join (before.map fun f => findingsText quiet f (text f))))
    hbad (false || anyBad text before) after
  rw [checkFiles, bind_of_error (hall.trans hstop), FileStore.World.after, FileStore.World.after,
    String.append_assoc]

end Loop

/-- Of files that cannot all be read, there is a first one that cannot. -/
theorem exists_first_unreadable {read : String → Except FileError String} {files : List String}
    (h : ∃ f ∈ files, ∃ e, read f = .error e) :
    ∃ before bad after e, files = before ++ bad :: after ∧
      (∀ f ∈ before, ∃ s, read f = .ok s) ∧ read bad = .error e := by
  induction files with
  | nil =>
    obtain ⟨_, hf, _⟩ := h
    cases hf
  | cons file files ih =>
    cases hread : read file with
    | error e => exact ⟨[], file, files, e, rfl, fun _ hf => (List.not_mem_nil hf).elim, hread⟩
    | ok s =>
      obtain ⟨f, hf, e, he⟩ := h
      have hmem : f ∈ files := by
        rcases List.mem_cons.1 hf with rfl | hf
        · rw [hread] at he
          cases he
        · exact hf
      obtain ⟨before, bad, after, e, rfl, hbefore, hbad⟩ := ih ⟨f, hmem, e, he⟩
      exact ⟨file :: before, bad, after, e, rfl, List.forall_mem_cons.2 ⟨⟨s, hread⟩, hbefore⟩, hbad⟩

/-! ## The command that checks files -/

/-- What comes of checking files. -/
def check (store : FileStore) (s : store.State) (verbose quiet : Bool) (files : List String) :
    Outcome store :=
  store.outcome s ⟨verbose, quiet, .check files⟩

section Check

variable {store : FileStore} {s : store.State} {text : String → String} (verbose quiet : Bool)

theorem check_of_readable {files : List String} (hfiles : files ≠ [])
    (h : ∀ f ∈ files, store.readText s f = .ok (text f)) :
    check store s verbose quiet files =
      ⟨String.join (files.map fun f => progressText verbose f (text f)) ++
          if anyBad text files ∨ quiet then ""
          else "Success: " ++ toString files.length ++ " file(s) checked\n",
        String.join (files.map fun f => findingsText quiet f (text f)), s,
        .ok (if anyBad text files then 1 else 0)⟩ := by
  have hrun := checkFiles_of_readable verbose quiet (w := { state := s }) hfiles h
  rw [check, FileStore.outcome_of_run (i := ⟨verbose, quiet, .check files⟩) hrun,
    FileStore.World.after, String.empty_append, String.empty_append]

theorem status_check_eq_zero_iff {files : List String} (hfiles : files ≠ [])
    (h : ∀ f ∈ files, store.readText s f = .ok (text f)) :
    (check store s verbose quiet files).status = .ok 0 ↔ anyBad text files = false := by
  rw [check_of_readable verbose quiet hfiles h]
  cases anyBad text files <;> simp

theorem status_check_eq_one_iff {files : List String} (hfiles : files ≠ [])
    (h : ∀ f ∈ files, store.readText s f = .ok (text f)) :
    (check store s verbose quiet files).status = .ok 1 ↔ anyBad text files = true := by
  rw [check_of_readable verbose quiet hfiles h]
  cases anyBad text files <;> simp

theorem stderr_check_singleton {file source : String} (h : store.readText s file = .ok source) :
    (check store s verbose quiet [file]).stderr = findingsText quiet file source := by
  have hread : ∀ f ∈ [file], store.readText s f = .ok source := List.forall_mem_singleton.2 h
  rw [check_of_readable verbose quiet (List.cons_ne_nil _ _) hread]
  simp

theorem join_stderr_check {files : List String}
    (h : ∀ f ∈ files, store.readText s f = .ok (text f)) :
    String.join (files.map fun f => (check store s verbose quiet [f]).stderr) =
      String.join (files.map fun f => findingsText quiet f (text f)) := by
  refine congrArg String.join (List.map_congr_left fun f hf => ?_)
  exact stderr_check_singleton verbose quiet (h f hf)

theorem check_of_unreadable {before : List String} {bad : String} {e : FileError}
    (h : ∀ f ∈ before, store.readText s f = .ok (text f)) (hbad : store.readText s bad = .error e)
    (after : List String) :
    (check store s verbose quiet (before ++ bad :: after)).status = .error e ∧
      (check store s verbose quiet (before ++ bad :: after)).stderr =
        String.join (before.map fun f => (check store s verbose quiet [f]).stderr) ∧
      (check store s verbose quiet (before ++ bad :: after)).state = s := by
  have hrun := checkFiles_of_unreadable verbose quiet (w := { state := s }) h hbad after
  rw [check, FileStore.outcome_of_run (i := ⟨verbose, quiet, .check (before ++ bad :: after)⟩) hrun,
    join_stderr_check verbose quiet h, FileStore.World.after, String.empty_append,
    String.empty_append]
  exact ⟨rfl, rfl, rfl⟩

end Check

/-- **What comes of checking files** that hold texts. -/
structure Verdict (store : FileStore) (s : store.State) (verbose quiet : Bool) (files : List String)
    (text : String → String) : Prop where
  /-- No file is changed. -/
  unchanged : (check store s verbose quiet files).state = s
  /-- The exit code is zero exactly if declarations can be generated from every text, whatever the
  options. -/
  passes : ∀ options, (check store s verbose quiet files).status = .ok 0 ↔
    ∀ f ∈ files, ∃ g, generate (text f) options = .ok g
  /-- It is one exactly if they cannot be generated from some text. -/
  fails : ∀ options, (check store s verbose quiet files).status = .ok 1 ↔
    ∃ f ∈ files, ∃ e, generate (text f) options = .error e
  /-- It does not depend on the order of the files. -/
  anyOrder : ∀ files', files'.Perm files →
    (check store s verbose quiet files').status = (check store s verbose quiet files).status
  /-- The reports are those of the files, each checked alone, one after the other. -/
  reports : (check store s verbose quiet files).stderr =
    String.join (files.map fun f => (check store s verbose quiet [f]).stderr)
  /-- Alone, a file is reported on with its findings. -/
  alone : ∀ f ∈ files, (check store s verbose quiet [f]).stderr = findingsText quiet f (text f)
  /-- Success is said at the end if the exit code is zero and nobody asked for quiet. -/
  success : (check store s verbose quiet files).status = .ok 0 ∧ quiet = false →
    (check store s verbose quiet files).stdout =
      String.join (files.map fun f => progressText verbose f (text f)) ++
        ("Success: " ++ toString files.length ++ " file(s) checked\n")
  /-- Otherwise nothing is said but the progress, in which no file is left out. -/
  noSuccess : ¬ ((check store s verbose quiet files).status = .ok 0 ∧ quiet = false) →
    (check store s verbose quiet files).stdout =
      String.join (files.map fun f => progressText verbose f (text f))

theorem verdict_of_readable {store : FileStore} {s : store.State} {text : String → String}
    (verbose quiet : Bool) {files : List String} (hfiles : files ≠ [])
    (h : ∀ f ∈ files, store.readText s f = .ok (text f)) :
    Verdict store s verbose quiet files text where
  unchanged := by rw [check_of_readable verbose quiet hfiles h]
  passes options := by
    rw [status_check_eq_zero_iff verbose quiet hfiles h, anyBad, List.any_eq_false]
    simp only [generate_ok_iff, Bool.not_eq_true]
  fails options := by
    rw [status_check_eq_one_iff verbose quiet hfiles h, anyBad, List.any_eq_true]
    simp only [generate_error_iff]
  anyOrder files' hperm := by
    have hfiles' : files' ≠ [] := by
      rintro rfl
      exact hfiles (List.nil_perm.1 hperm)
    have h' : ∀ f ∈ files', store.readText s f = .ok (text f) := fun f hf => h f (hperm.mem_iff.1 hf)
    rw [check_of_readable verbose quiet hfiles h, check_of_readable verbose quiet hfiles' h',
      anyBad_of_perm hperm]
  reports := by rw [join_stderr_check verbose quiet h, check_of_readable verbose quiet hfiles h]
  alone f hf := stderr_check_singleton verbose quiet (h f hf)
  success hsuccess := by
    have hgood := (status_check_eq_zero_iff verbose quiet hfiles h).1 hsuccess.1
    rw [check_of_readable verbose quiet hfiles h, hgood, hsuccess.2]
    simp
  noSuccess hsuccess := by
    rw [status_check_eq_zero_iff verbose quiet hfiles h, not_and_or, Bool.not_eq_false,
      Bool.not_eq_false] at hsuccess
    rw [check_of_readable verbose quiet hfiles h]
    dsimp only
    rw [if_pos hsuccess, String.append_empty]

/-- **Checking fails exactly if some file is bad.** Of files that can all be read, in any store, each
counts, in whatever place it stands. If some cannot be read, the command ends with the error of the
first of them, and has reported on the files before it and on no other. -/
theorem check_verdict (store : FileStore) (s : store.State) (verbose quiet : Bool) :
    (∀ (files : List String) (text : String → String), files ≠ [] →
      (∀ f ∈ files, store.readText s f = .ok (text f)) → Verdict store s verbose quiet files text) ∧
    ∀ files : List String, (∃ f ∈ files, ∃ e, store.readText s f = .error e) →
      ∃ before bad after e, files = before ++ bad :: after ∧
        (∀ f ∈ before, ∃ text, store.readText s f = .ok text) ∧ store.readText s bad = .error e ∧
        (check store s verbose quiet files).status = .error e ∧
        (check store s verbose quiet files).stderr =
          String.join (before.map fun f => (check store s verbose quiet [f]).stderr) ∧
        (check store s verbose quiet files).state = s := by
  constructor
  · intro files text hfiles hread
    exact verdict_of_readable verbose quiet hfiles hread
  · intro files hnot
    obtain ⟨before, bad, after, e, rfl, hbefore, hbad⟩ := exists_first_unreadable hnot
    have hread : ∀ f ∈ before,
        store.readText s f = .ok ((store.readText s f).toOption.getD "") := by
      intro f hf
      obtain ⟨text, htext⟩ := hbefore f hf
      rw [htext]
      rfl
    exact ⟨before, bad, after, e, rfl, hbefore, hbad,
      check_of_unreadable verbose quiet hread hbad after⟩

/-- What the schemas hold: one has an error, and one only draws a warning. -/
def schemaText (file : String) : String :=
  if file = "/srv/good" then "scalar URI\n"
  else if file = "/srv/bad" then "type \x7b\n"
  else "directive @d on THERE"

/-- Schemas under absolute paths, where nothing can be written. -/
def schemaStore : FileStore where
  State := Unit
  File := String
  leads _ path := some path
  contents _ path := some (schemaText path).toUTF8
  read _ path := if path = "/srv/missing" then .error .notFound else .ok (schemaText path).toUTF8
  write _ _ _ := (.error (.other "Read-only file system (os error 30)"), ())

/-- A bad file is not forgotten behind good ones, and one that is missing ends the command. -/
theorem check_verdict_schemaStore :
    (∀ f ∈ ["/srv/bad", "/srv/good", "/srv/warned"],
        schemaStore.readText () f = .ok (schemaText f)) ∧
      Verdict schemaStore () true false ["/srv/bad", "/srv/good", "/srv/warned"] schemaText ∧
      (check schemaStore () true false ["/srv/bad", "/srv/good", "/srv/warned"]).status = .ok 1 ∧
      (check schemaStore () true false ["/srv/warned", "/srv/good"]).status = .ok 0 ∧
      ∃ e, (check schemaStore () true false ["/srv/good", "/srv/missing", "/srv/bad"]).status =
        .error e := by
  have hread : ∀ f ∈ ["/srv/bad", "/srv/good", "/srv/warned"],
      schemaStore.readText () f = .ok (schemaText f) := by
    intro f hf
    have hne : f ≠ "/srv/missing" := by
      rintro rfl
      exact absurd hf (by decide)
    exact FileStore.readText_of_read (if_neg hne)
  have hmissing : schemaStore.readText () "/srv/missing" = .error .notFound := rfl
  obtain ⟨hreadable, hunreadable⟩ := check_verdict schemaStore () true false
  have hthree := hreadable ["/srv/bad", "/srv/good", "/srv/warned"] schemaText (by decide) hread
  have htwo := hreadable ["/srv/warned", "/srv/good"] schemaText (by decide) fun f hf =>
    hread f (by simp only [List.mem_cons, List.not_mem_nil, or_false] at hf ⊢; tauto)
  obtain ⟨_, _, _, e, _, _, _, hstatus, _⟩ :=
    hunreadable ["/srv/good", "/srv/missing", "/srv/bad"] ⟨"/srv/missing", by decide, _, hmissing⟩
  refine ⟨hread, hthree, (hthree.fails {}).2 ⟨"/srv/bad", by decide, ?_⟩, (htwo.passes {}).2 ?_,
    e, hstatus⟩
  · exact generate_error_iff.2 (by decide +kernel)
  · intro f hf
    simp only [List.mem_cons, List.not_mem_nil, or_false] at hf
    rcases hf with rfl | rfl
    · exact generate_ok_iff.2 (by decide +kernel)
    · exact generate_ok_iff.2 (by decide +kernel)

end SchemaToFlow.Command
