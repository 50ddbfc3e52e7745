import SchemaToFlow.Interner
import SchemaToFlow.Proofs.FirstSeen

/-!
# Numbers and names undo each other

The map and the array of an interner are inverse as long as the numbers last (`Inverse`). Listing a
name keeps them so (`Inverse.intern`), hence every call does, and any number of calls
(`Inverse.calls`). Calls only add names at the end, so a number that was given out goes on to stand
for its name (`getElem?_calls`).

`Record` says what follows about an interner that has answered any calls (`record_of_calls`), and
that it lists the names as a `NameTable` does.
-/

namespace SchemaToFlow

theorem NameTable.lookup?_eq_some_iff {t : NameTable} {name : String} {id : NameId} :
    t.lookup? name = some id ↔ t.names[id.index]? = some name := by
  obtain ⟨i⟩ := id
  unfold lookup?
  by_cases hmem : name ∈ t.names
  · rw [if_pos hmem, Option.some.injEq, NameId.mk.injEq]
    have hindex : t.names[t.names.idxOf name]? = some name := by
      rw [List.getElem?_eq_getElem (List.idxOf_lt_length_of_mem hmem), List.getElem_idxOf]
    constructor
    · rintro rfl
      exact hindex
    · intro hi
      exact (List.getElem?_inj (List.idxOf_lt_length_of_mem hmem) t.nodup).1 (hindex.trans hi.symm)
  · rw [if_neg hmem]
    exact iff_of_false (by simp) fun hi => hmem (List.mem_of_getElem? hi)

namespace Interner

/-! ## The map and the array -/

/-- A name has a number exactly if it stands at that place. -/
structure Inverse (t : Interner) : Prop where
  bound : t.size ≤ UInt32.size
  iff : ∀ (name : String) (id : UInt32), t.ids[name]? = some id ↔ t.names[id.toNat]? = some name

section Step

variable {t : Interner} {name : String}

theorem intern_of_some {id : UInt32} (h : t.ids[name]? = some id) : t.intern name = (id, t) := by
  simp [intern, h]

theorem intern_of_none (h : t.ids[name]? = none) :
    t.intern name = (t.next, ⟨t.ids.insert name t.next, t.names.push name⟩) := by
  simp [intern, h]

theorem toNat_next (h : t.size < UInt32.size) : t.next.toNat = t.size := by
  have hmin : min t.size (UInt32.size - 1) = t.size := by omega
  rw [next, hmin, UInt32.toNat_ofNat_of_lt' h]

theorem size_of_none (h : t.ids[name]? = none) : (t.intern name).2.size = t.size + 1 := by
  simp [intern_of_none h, size]

theorem size_intern_le : t.size ≤ (t.intern name).2.size ∧ (t.intern name).2.size ≤ t.size + 1 := by
  cases h : t.ids[name]? with
  | some id => simp [intern_of_some h]
  | none => simp [size_of_none h]

/-- The number that is given to a name is its number afterwards. -/
theorem ids_intern : (t.intern name).2.ids[name]? = some (t.intern name).1 := by
  cases h : t.ids[name]? with
  | some id => simpa [intern_of_some h] using h
  | none => simp [intern_of_none h]

/-- Names stay where they are. -/
theorem getElem?_intern {i : Nat} (hi : i < t.size) :
    (t.intern name).2.names[i]? = t.names[i]? := by
  cases h : t.ids[name]? with
  | some id => rw [intern_of_some h]
  | none =>
    have hne : i ≠ t.names.size := Nat.ne_of_lt hi
    simp [intern_of_none h, Array.getElem?_push, hne]

theorem inverse_empty : Inverse empty where
  bound := Nat.zero_le _
  iff name id := by simp [empty]

/-- **Step.** -/
theorem Inverse.intern (h : t.Inverse) (hsize : (t.intern name).2.size ≤ UInt32.size) :
    (t.intern name).2.Inverse := by
  cases hname : t.ids[name]? with
  | some id => rwa [intern_of_some hname]
  | none =>
    have hlt : t.size < UInt32.size := by rwa [size_of_none hname] at hsize
    refine ⟨hsize, fun other id => ?_⟩
    rw [intern_of_none hname]
    have hnext : t.next = id ↔ id.toNat = t.names.size := by
      rw [← UInt32.toNat_inj, toNat_next hlt, eq_comm]
      rfl
    simp only [Std.HashMap.getElem?_insert, Array.getElem?_push, beq_iff_eq]
    by_cases hother : name = other
    · subst hother
      rw [if_pos rfl, Option.some.injEq, hnext]
      by_cases hid : id.toNat = t.names.size
      · simp [hid]
      · rw [if_neg hid, ← h.iff, hname]
        exact iff_of_false hid (by simp)
    · rw [if_neg hother, h.iff]
      by_cases hid : id.toNat = t.names.size
      · simp [hid, hother]
      · rw [if_neg hid]

theorem Inverse.mem_iff (h : t.Inverse) : name ∈ t.names.toList ↔ t.ids[name]? ≠ none := by
  rw [List.mem_iff_getElem?, Option.ne_none_iff_exists']
  constructor
  · rintro ⟨i, hi⟩
    have hlt : i < UInt32.size :=
      Nat.lt_of_lt_of_le (List.getElem?_eq_some_iff.1 hi).1 h.bound
    refine ⟨UInt32.ofNat i, (h.iff _ _).2 ?_⟩
    rwa [UInt32.toNat_ofNat_of_lt' hlt, ← Array.getElem?_toList]
  · rintro ⟨id, hid⟩
    exact ⟨id.toNat, by rw [Array.getElem?_toList]; exact (h.iff _ _).1 hid⟩

/-- Names are listed in the order in which they first come. -/
theorem Inverse.toList_intern (h : t.Inverse) :
    (t.intern name).2.names.toList = addNew t.names.toList name := by
  cases hname : t.ids[name]? with
  | some id => rw [intern_of_some hname, addNew_of_mem (h.mem_iff.2 (by simp [hname]))]
  | none =>
    rw [intern_of_none hname, addNew_of_not_mem (fun hmem => h.mem_iff.1 hmem hname)]
    simp

/-- The numbers in use, after a name got its one. -/
theorem Inverse.lt_size_intern_iff (h : t.Inverse)
    (hsize : (t.intern name).2.size ≤ UInt32.size) {n : Nat} :
    n < (t.intern name).2.size ↔ n < t.size ∨ (t.intern name).1.toNat = n := by
  cases hname : t.ids[name]? with
  | some id =>
    have hlt : id.toNat < t.size := (Array.getElem?_eq_some_iff.1 ((h.iff name id).1 hname)).1
    rw [intern_of_some hname]
    show n < t.size ↔ n < t.size ∨ id.toNat = n
    omega
  | none =>
    rw [size_of_none hname] at hsize ⊢
    rw [intern_of_none hname, toNat_next hsize]
    omega

end Step

/-! ## Calls -/

/-- The names to be listed, in the order of the calls. -/
def interned : List Call → List String
  | [] => []
  | .intern name :: cs => name :: interned cs
  | _ :: cs => interned cs

section Run

variable {t : Interner}

theorem size_le_calls (cs : List Call) : t.size ≤ (t.calls cs).2.size := by
  induction cs generalizing t with
  | nil => exact Nat.le_refl _
  | cons c cs ih =>
    cases c with
    | intern name => exact Nat.le_trans size_intern_le.1 ih
    | lookup name => exact ih
    | get id => exact ih

theorem size_calls_le (cs : List Call) : (t.calls cs).2.size ≤ t.size + cs.length := by
  induction cs generalizing t with
  | nil => exact Nat.le_refl _
  | cons c cs ih =>
    have hcall : (t.call c).2.size ≤ t.size + 1 := by
      cases c with
      | intern name => exact size_intern_le.2
      | lookup name => exact Nat.le_succ _
      | get id => exact Nat.le_succ _
    have hrest := ih (t := (t.call c).2)
    simp only [calls, List.length_cons]
    omega

theorem getElem?_calls (cs : List Call) {i : Nat} (hi : i < t.size) :
    (t.calls cs).2.names[i]? = t.names[i]? := by
  induction cs generalizing t with
  | nil => rfl
  | cons c cs ih =>
    cases c with
    | intern name =>
      exact (ih (Nat.lt_of_lt_of_le hi size_intern_le.1)).trans (getElem?_intern hi)
    | lookup name => exact ih hi
    | get id => exact ih hi

/-- **Run.** -/
theorem Inverse.calls (h : t.Inverse) (cs : List Call)
    (hsize : (t.calls cs).2.size ≤ UInt32.size) : (t.calls cs).2.Inverse := by
  induction cs generalizing t with
  | nil => exact h
  | cons c cs ih =>
    cases c with
    | intern name => exact ih (h.intern (Nat.le_trans (size_le_calls cs) hsize)) hsize
    | lookup name => exact ih h hsize
    | get id => exact ih h hsize

theorem Inverse.toList_calls (h : t.Inverse) (cs : List Call)
    (hsize : (t.calls cs).2.size ≤ UInt32.size) :
    (t.calls cs).2.names.toList = (interned cs).foldl addNew t.names.toList := by
  induction cs generalizing t with
  | nil => rfl
  | cons c cs ih =>
    cases c with
    | intern name =>
      have hrest := ih (h.intern (Nat.le_trans (size_le_calls cs) hsize)) hsize
      rwa [h.toList_intern] at hrest
    | lookup name => exact ih h hsize
    | get id => exact ih h hsize

/-- The numbers in use are those that were in use and those given out by the calls. -/
theorem Inverse.lt_size_calls_iff (h : t.Inverse) (cs : List Call)
    (hsize : (t.calls cs).2.size ≤ UInt32.size) {n : Nat} :
    n < (t.calls cs).2.size ↔
      n < t.size ∨ ∃ id, Answer.number id ∈ (t.calls cs).1 ∧ id.toNat = n := by
  induction cs generalizing t with
  | nil => simp [Interner.calls]
  | cons c cs ih =>
    cases c with
    | intern name =>
      have hintern : (t.intern name).2.size ≤ UInt32.size := Nat.le_trans (size_le_calls cs) hsize
      have hrest := ih (h.intern hintern) hsize
      rw [h.lt_size_intern_iff hintern] at hrest
      simp only [Interner.calls, call, List.mem_cons, Answer.number.injEq]
      rw [hrest, or_assoc]
      simp only [or_and_right, exists_or, exists_eq_left]
    | lookup name => simpa [Interner.calls, call] using ih h hsize
    | get id => simpa [Interner.calls, call] using ih h hsize

/-- Two names have the same number exactly if they are the same, whatever was asked in between. -/
theorem Inverse.intern_eq_iff (h : t.Inverse) {name name' : String} {cs : List Call}
    (hsize : (((t.intern name).2.calls cs).2.intern name').2.size ≤ UInt32.size) :
    (t.intern name).1 = (((t.intern name).2.calls cs).2.intern name').1 ↔ name = name' := by
  set u := (t.intern name).2 with hu
  set v := (u.calls cs).2 with hv
  have hvsize : v.size ≤ UInt32.size := Nat.le_trans size_intern_le.1 hsize
  have husize : u.size ≤ UInt32.size := Nat.le_trans (size_le_calls cs) hvsize
  have huinv : u.Inverse := h.intern husize
  have hvinv : v.Inverse := huinv.calls cs hvsize
  have hwinv : (v.intern name').2.Inverse := hvinv.intern hsize
  -- the first name is still where it was listed
  have hplace : u.names[(t.intern name).1.toNat]? = some name := (huinv.iff _ _).1 ids_intern
  have hlt : (t.intern name).1.toNat < u.size := (Array.getElem?_eq_some_iff.1 hplace).1
  have hkept : (v.intern name').2.names[(t.intern name).1.toNat]? = some name := by
    rw [getElem?_intern (Nat.lt_of_lt_of_le hlt (size_le_calls cs)), getElem?_calls cs hlt, hplace]
  have hplace' : (v.intern name').2.names[(v.intern name').1.toNat]? = some name' :=
    (hwinv.iff _ _).1 ids_intern
  constructor
  · intro heq
    rw [heq, hplace'] at hkept
    exact (Option.some.inj hkept).symm
  · rintro rfl
    have hid := (hwinv.iff _ _).2 hkept
    rw [ids_intern] at hid
    exact (Option.some.inj hid).symm

end Run

/-! ## What an interner has on record -/

theorem initial_eq_calls : initial = (empty.calls (NameTable.builtinScalars.map .intern)).2 := rfl

theorem size_initial_le : initial.size ≤ NameTable.builtinScalars.length :=
  size_calls_le (t := empty) (NameTable.builtinScalars.map .intern)

theorem inverse_initial : initial.Inverse :=
  inverse_empty.calls (NameTable.builtinScalars.map .intern)
    (Nat.le_trans size_initial_le (by decide))

theorem toList_initial : initial.names.toList = NameTable.builtinScalars := by
  have hlist := inverse_empty.toList_calls (NameTable.builtinScalars.map .intern)
    (Nat.le_trans size_initial_le (by decide))
  rw [initial_eq_calls, hlist]
  decide

theorem size_initial : initial.size = NameTable.builtinScalars.length := by
  rw [size, ← Array.length_toList, toList_initial]

theorem getElem?_eq_some_iff_text {t : Interner} {name : String} {id : UInt32} :
    t.names[id.toNat]? = some name ↔ id.toNat < t.size ∧ t.text id = name := by
  rw [text, size]
  by_cases hid : id.toNat < t.names.size
  · simp [hid]
  · simp [hid]

/-- **What holds of an interner** that has answered the calls since it was new. -/
structure Record (cs : List Call) (answers : List Answer) (t : Interner) : Prop where
  /-- The numbers given out, five of them before any call, are those below the number of names. -/
  numbers : ∀ n, n < t.size ↔ n < 5 ∨ ∃ id, Answer.number id ∈ answers ∧ id.toNat = n
  /-- The built-in scalars have the first numbers. -/
  scalars : ∀ (name : String) (id : UInt32),
    ["String", "ID", "Int", "Float", "Boolean"][id.toNat]? = some name →
      t.lookup? name = some id ∧ t.text id = name
  /-- A name is found under a number exactly if the number is in use and stands for it. -/
  lookup : ∀ (name : String) (id : UInt32),
    t.lookup? name = some id ↔ id.toNat < t.size ∧ t.text id = name
  /-- A listed name has its number, and nothing changes. -/
  known : ∀ (name : String) (id : UInt32), t.lookup? name = some id → t.intern name = (id, t)
  /-- A new name gets the next number and is added at the end; the others stay. -/
  new : ∀ name, t.lookup? name = none → t.size < UInt32.size →
    (t.intern name).1.toNat = t.size ∧ (t.intern name).2.names = t.names.push name ∧
      ∀ id : UInt32, id.toNat < t.size → (t.intern name).2.text id = t.text id
  /-- The number of a name stands for it. -/
  text_intern : ∀ name, (t.intern name).2.size ≤ UInt32.size →
    (t.intern name).2.text (t.intern name).1 = name
  /-- Names have the same number only if they are the same, whatever is asked in between. -/
  injective : ∀ (name name' : String) (more : List Call),
    (((t.intern name).2.calls more).2.intern name').2.size ≤ UInt32.size →
    ((t.intern name).1 = (((t.intern name).2.calls more).2.intern name').1 ↔ name = name')
  /-- Only listing a name can change anything. -/
  unchanged : ∀ (name : String) (id : UInt32),
    (t.call (.lookup name)).2 = t ∧ (t.call (.get id)).2 = t
  /-- The names are those of a table, with the same numbers. -/
  table : t.names.toList = ((interned cs).foldl NameTable.add .initial).names ∧
    ∀ (name : String) (id : UInt32), t.lookup? name = some id ↔
      ((interned cs).foldl NameTable.add .initial).lookup? name = some ⟨id.toNat⟩

theorem names_foldl_add (names : List String) (table : NameTable) :
    (names.foldl NameTable.add table).names = names.foldl addNew table.names := by
  induction names generalizing table with
  | nil => rfl
  | cons name names ih => exact ih (table.add name)

/-- **Numbers and names undo each other** after any calls, while there are numbers left. -/
theorem record_of_calls (cs : List Call) (h : (initial.calls cs).2.size ≤ UInt32.size) :
    Record cs (initial.calls cs).1 (initial.calls cs).2 := by
  have hinverse : (initial.calls cs).2.Inverse := inverse_initial.calls cs h
  have hnumbers (n : Nat) := inverse_initial.lt_size_calls_iff cs h (n := n)
  have hlist := inverse_initial.toList_calls cs h
  rw [toList_initial] at hlist
  set t := (initial.calls cs).2 with ht
  have hlookup (name : String) (id : UInt32) :
      t.lookup? name = some id ↔ id.toNat < t.size ∧ t.text id = name :=
    (hinverse.iff name id).trans getElem?_eq_some_iff_text
  have htable : t.names.toList = ((interned cs).foldl NameTable.add .initial).names :=
    hlist.trans (names_foldl_add _ NameTable.initial).symm
  refine ⟨fun n => ?_, fun name id hname => ?_, hlookup, fun name id hname => intern_of_some hname,
    fun name hname hsize => ⟨?_, ?_, fun id hid => ?_⟩, fun name hsize => ?_,
    fun name name' more hsize => hinverse.intern_eq_iff hsize, fun name id => ⟨rfl, rfl⟩,
    htable, fun name id => ?_⟩
  · rw [hnumbers, size_initial]
    rfl
  · have hid : id.toNat < initial.size := by
      rw [size_initial]
      exact (List.getElem?_eq_some_iff.1 hname).1
    have hplace : t.names[id.toNat]? = some name := by
      rw [ht, getElem?_calls cs hid, ← Array.getElem?_toList, toList_initial]
      exact hname
    exact ⟨(hinverse.iff name id).2 hplace, (getElem?_eq_some_iff_text.1 hplace).2⟩
  · rw [intern_of_none hname]
    exact toNat_next hsize
  · rw [intern_of_none hname]
  · rw [text, getElem?_intern hid, text]
  · have hplace := ((hinverse.intern hsize).iff name _).1 ids_intern
    exact (getElem?_eq_some_iff_text.1 hplace).2
  · rw [NameTable.lookup?_eq_some_iff, ← htable, Array.getElem?_toList]
    exact hinverse.iff name id

/-- A name listed twice, and one that is only looked for. -/
theorem record_of_calls_repeated :
    let cs := [Call.intern "Query", .lookup "Float", .intern "ID", .get 99, .intern "Query",
      .lookup "Node"]
    (initial.calls cs).2.size ≤ UInt32.size ∧
      Record cs (initial.calls cs).1 (initial.calls cs).2 := by
  intro cs
  have hsize : (initial.calls cs).2.size ≤ UInt32.size := by
    have hle := size_calls_le (t := initial) cs
    rw [size_initial] at hle
    exact Nat.le_trans hle (by decide)
  exact ⟨hsize, record_of_calls cs hsize⟩

end Interner

end SchemaToFlow
