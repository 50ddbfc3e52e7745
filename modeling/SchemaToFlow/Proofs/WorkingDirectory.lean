import Mathlib.Data.List.Basic
import SchemaToFlow.Command.WorkingDirectory
import SchemaToFlow.Proofs.Runs
import SchemaToFlow.Proofs.Utf8

/-!
# Working directories are a store of files

What a path leads to in a working directory, and what writing there changes.

* `WorkingDirectory.Holds`: a path leads to a file with a text. This is what reading finds
  (`readText_eq_ok_iff`).
* `WorkingDirectory.Admits`: a path leads to a place that can be written. Writing succeeds exactly
  there (`write_eq_ok_iff`), and replaces the contents of that place and of no other (`get?_set`).
* `lawful_store`: so writing is as it is asked of a store. The names on the way to the file that was
  written lead where they led before (`resolve_set`), since writing makes no directory a file.
-/

namespace SchemaToFlow.Command

open Schema (fromUTF8?_eq_some_iff)

theorem FileStore.textOf_eq_ok_iff {bytes : ByteArray} {text : String} :
    FileStore.textOf bytes = .ok text ↔ bytes = text.toUTF8 := by
  rw [← fromUTF8?_eq_some_iff, FileStore.textOf]
  cases String.fromUTF8? bytes with
  | none => simp
  | some found => simp

theorem FileStore.readText_of_read {files : FileStore} {s : files.State} {path text : String}
    (h : files.read s path = .ok text.toUTF8) : files.readText s path = .ok text :=
  bind_eq_ok_iff.2 ⟨_, h, FileStore.textOf_eq_ok_iff.2 rfl⟩

namespace WorkingDirectory

variable {d : WorkingDirectory} {path text : String} {route : Route} {contents : ByteArray}

/-- A path leads to a file that holds a text. -/
def Holds (d : WorkingDirectory) (path text : String) : Prop :=
  ∃ route, d.resolve path = .ok (.inside route) ∧ d.get? route = some text.toUTF8

/-- A path to write leads to a place where a file stands or can be made. -/
def Admits (d : WorkingDirectory) (path : String) (route : Route) : Prop :=
  d.resolveOutput path = .ok (.inside route) ∧ d.isDirectory route = false

/-! ## Reading -/

theorem read_eq_ok_iff : d.read path = .ok contents ↔
    ∃ route, d.resolve path = .ok (.inside route) ∧ d.get? route = some contents := by
  rw [read, bind_eq_ok_iff]
  constructor
  · rintro ⟨place, hplace, h⟩
    split at h
    · cases h
    · rename_i route
      refine ⟨route, hplace, ?_⟩
      split at h
      · rename_i bytes hget
        rw [hget, ← Except.ok.inj h]
      · cases h
  · rintro ⟨route, hplace, hget⟩
    refine ⟨.inside route, hplace, ?_⟩
    dsimp only
    rw [hget]
    rfl

theorem readText_eq_ok_iff : store.readText d path = .ok text ↔ d.Holds path text := by
  have hread : store.readText d path = .ok text ↔
      ∃ bytes, d.read path = .ok bytes ∧ FileStore.textOf bytes = .ok text :=
    bind_eq_ok_iff
  simp only [hread, FileStore.textOf_eq_ok_iff, exists_eq_right]
  exact read_eq_ok_iff

/-! ## Setting the contents of a route -/

theorem lookup_setFile (route other : Route) (contents : ByteArray) :
    ∀ files : List (Route × ByteArray),
      (setFile route contents files).lookup other =
        if other = route then some contents else files.lookup other
  | [] => by
    by_cases h : other = route
    · simp [setFile, h]
    · simp [setFile, List.lookup_cons, beq_false_of_ne h, h]
  | (r, c) :: files => by
    rw [setFile]
    by_cases hr : r = route
    · subst hr
      rw [if_pos rfl, List.lookup_cons, List.lookup_cons]
      by_cases h : other = r
      · simp [h]
      · simp [beq_false_of_ne h, h]
    · rw [if_neg hr, List.lookup_cons, List.lookup_cons, lookup_setFile route other contents files]
      by_cases h : other = r
      · subst h
        simp [hr]
      · simp [beq_false_of_ne h]

theorem get?_set (d : WorkingDirectory) (route other : Route) (contents : ByteArray) :
    (d.set route contents).get? other = if other = route then some contents else d.get? other :=
  lookup_setFile route other contents d.files

theorem mem_map_fst_setFile {r : Route} {files : List (Route × ByteArray)}
    (h : r ∈ files.map Prod.fst) : r ∈ (setFile route contents files).map Prod.fst := by
  induction files with
  | nil => cases h
  | cons file files ih => by_cases hf : file.1 = route <;> grind [setFile]

/-- Directories stay directories. -/
theorem isDirectory_set {r : Route} (h : d.isDirectory r = true) :
    (d.set route contents).isDirectory r = true := by
  unfold isDirectory at h ⊢
  rw [Bool.or_eq_true, List.any_eq_true] at h ⊢
  refine h.imp_right fun ⟨file, hfile, hp⟩ => ?_
  have hmem : file.1 ∈ (d.set route contents).files.map Prod.fst :=
    mem_map_fst_setFile (List.mem_map_of_mem hfile)
  obtain ⟨file', hfile', heq⟩ := List.mem_map.1 hmem
  exact ⟨file', hfile', by rwa [heq]⟩

/-! ## Paths after writing -/

theorem enter_set {place place' : Place} {name : String} (h : d.enter place name = .ok place') :
    (d.set route contents).enter place name = .ok place' := by
  cases place with
  | outside => exact h
  | inside directory =>
    simp only [enter] at h ⊢
    by_cases hstay : name = "" ∨ name = "."
    · rwa [if_pos hstay] at h ⊢
    · rw [if_neg hstay] at h ⊢
      by_cases hup : name = ".."
      · rwa [if_pos hup] at h ⊢
      · rw [if_neg hup] at h ⊢
        by_cases hdir : d.isDirectory (directory ++ [name]) = true
        · rw [if_pos hdir] at h
          rwa [if_pos (isDirectory_set hdir)]
        · rw [if_neg hdir] at h
          split at h <;> cases h

theorem foldlM_enter_set :
    ∀ {names : List String} {place place' : Place}, names.foldlM d.enter place = .ok place' →
      names.foldlM (d.set route contents).enter place = .ok place'
  | [], _, _, h => h
  | name :: names, place, place', h => by
    rw [List.foldlM_cons, bind_eq_ok_iff] at h ⊢
    obtain ⟨next, hnext, h⟩ := h
    exact ⟨next, enter_set hnext, foldlM_enter_set h⟩

theorem parent_set {names : List String} {place : Place} (h : d.parent path names = .ok place) :
    (d.set route contents).parent path names = .ok place := by
  unfold parent at h ⊢
  by_cases hempty : path = ""
  · rwa [if_pos hempty] at h ⊢
  · rw [if_neg hempty] at h ⊢
    exact foldlM_enter_set h

/-- The last name of a path leads to the same place, whatever the files are. -/
theorem arrive_set (place : Place) (name : String) :
    (d.set route contents).arrive place name = d.arrive place name := by
  by_cases h : name = "" ∨ name = "." ∨ name = ".."
  · cases place with
    | outside => rfl
    | inside directory => rcases h with rfl | rfl | rfl <;> rfl
  · cases place with
    | outside => rfl
    | inside directory => simp [arrive, h]

/-- A path leads where it led before something was written. -/
theorem resolve_set {place : Place} (h : d.resolve path = .ok place) :
    (d.set route contents).resolve path = .ok place := by
  unfold resolve at h ⊢
  obtain ⟨directory, hdirectory, harrive⟩ := bind_eq_ok_iff.1 h
  exact bind_eq_ok_iff.2 ⟨directory, parent_set hdirectory, (arrive_set _ _).trans harrive⟩

/-! ## Writing -/

theorem resolve_of_resolveOutput {place : Place} (h : d.resolveOutput path = .ok place) :
    d.resolve path = .ok place := by
  unfold resolveOutput at h
  dsimp only at h
  split at h
  · -- with a slash at its end a path leads to no file
    obtain ⟨_, _, hthrow⟩ := bind_eq_ok_iff.1 h
    cases hthrow
  · exact h

/-- Writing succeeds where a path leads to a place for a file, and sets its contents. -/
theorem write_eq_ok_iff {after : WorkingDirectory} :
    d.write path contents = .ok after ↔
      ∃ route, d.Admits path route ∧ after = d.set route contents := by
  rw [write, bind_eq_ok_iff]
  constructor
  · rintro ⟨place, hplace, h⟩
    split at h
    · cases h
    · rename_i route
      split at h
      · cases h
      · rename_i hdir
        exact ⟨route, ⟨hplace, Bool.eq_false_iff.2 hdir⟩, (Except.ok.inj h).symm⟩
  · rintro ⟨route, ⟨hplace, hdir⟩, rfl⟩
    refine ⟨.inside route, hplace, ?_⟩
    dsimp only
    rw [hdir]
    rfl

/-- A path that was written leads to the place that was written. -/
theorem leads_set (h : d.Admits path route) : (d.set route contents).leads path = some route := by
  rw [leads, resolve_set (resolve_of_resolveOutput h.1)]

theorem store_write_of_ok {after : WorkingDirectory} (h : d.write path contents = .ok after) :
    store.write d path contents = (.ok (), after) := by
  simp only [store, h]

theorem store_write_of_error {e : FileError} (h : d.write path contents = .error e) :
    store.write d path contents = (.error e, d) := by
  simp only [store, h]

/-- **Writing** in a working directory is as it is asked of a store of files. -/
theorem lawful_store : store.Lawful where
  written := by
    intro d d' path contents h
    cases hwrite : d.write path contents with
    | error e =>
      rw [store_write_of_error hwrite] at h
      cases (Prod.mk.inj h).1
    | ok after =>
      rw [store_write_of_ok hwrite] at h
      obtain ⟨route, hroute, rfl⟩ := write_eq_ok_iff.1 hwrite
      obtain rfl := (Prod.mk.inj h).2
      refine ⟨route, leads_set hroute, ?_, fun other hother => ?_⟩
      · exact (get?_set d route route contents).trans (if_pos rfl)
      · exact (get?_set d route other contents).trans (if_neg hother)
  refused := by
    intro d d' path contents e h file
    cases hwrite : d.write path contents with
    | error e =>
      rw [store_write_of_error hwrite] at h
      rw [(Prod.mk.inj h).2]
    | ok after =>
      rw [store_write_of_ok hwrite] at h
      cases (Prod.mk.inj h).1

end WorkingDirectory

end SchemaToFlow.Command
