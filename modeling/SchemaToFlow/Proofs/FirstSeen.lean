import Mathlib.Data.List.Basic
import Mathlib.Data.List.Induction
import SchemaToFlow.FirstSeen

/-!
# The order of first occurrence

`firstSeen` keeps of every element its first occurrence and nothing else.

* `mem_firstSeen`, `nodup_firstSeen`: the same elements, each once.
* `idxOf_firstSeen_lt_iff`: two elements stand in the order of their first occurrences.
* `filter_firstSeen`: leaving elements out does not move the others.
* `foldl_addNew_firstSeen`: dropping repetitions early makes no difference later, so a list may be
  put in order piece by piece (`firstSeen_flatMap`).
-/

namespace SchemaToFlow

variable {α β : Type} [DecidableEq α]

theorem addNew_of_mem {as : List α} {a : α} (h : a ∈ as) : addNew as a = as := by
  rw [addNew, if_pos h]

theorem addNew_of_not_mem {as : List α} {a : α} (h : a ∉ as) : addNew as a = as ++ [a] := by
  rw [addNew, if_neg h]

theorem addNew_ne_nil (as : List α) (a : α) : addNew as a ≠ [] :=
  List.ne_nil_of_mem (mem_addNew.2 (.inr rfl))

theorem prefix_addNew (as : List α) (a : α) : as <+: addNew as a := by
  by_cases h : a ∈ as
  · exact ⟨[], by rw [List.append_nil, addNew_of_mem h]⟩
  · exact ⟨[a], (addNew_of_not_mem h).symm⟩

@[simp] theorem mem_foldl_addNew :
    ∀ {bs as : List α} {x : α}, x ∈ bs.foldl addNew as ↔ x ∈ as ∨ x ∈ bs
  | [], as, x => by simp
  | b :: bs, as, x => by
    rw [List.foldl_cons, mem_foldl_addNew, mem_addNew, List.mem_cons, or_assoc]

theorem nodup_foldl_addNew : ∀ (bs : List α) {as : List α}, as.Nodup → (bs.foldl addNew as).Nodup
  | [], _, h => h
  | b :: bs, _, h => nodup_foldl_addNew bs (nodup_addNew h b)

/-- Elements that are listed already change nothing. -/
theorem foldl_addNew_of_subset :
    ∀ {bs as : List α}, (∀ b ∈ bs, b ∈ as) → bs.foldl addNew as = as
  | [], _, _ => rfl
  | b :: bs, as, h => by
    rw [List.foldl_cons, addNew_of_mem (h b List.mem_cons_self)]
    exact foldl_addNew_of_subset fun x hx => h x (List.mem_cons_of_mem b hx)

@[simp] theorem mem_firstSeen {as : List α} {x : α} : x ∈ firstSeen as ↔ x ∈ as := by
  simp [firstSeen]

theorem firstSeen_eq_nil_iff {as : List α} : firstSeen as = [] ↔ as = [] := by
  simp only [List.eq_nil_iff_forall_not_mem, mem_firstSeen]

theorem nodup_firstSeen (as : List α) : (firstSeen as).Nodup :=
  nodup_foldl_addNew as List.nodup_nil

theorem firstSeen_append (as bs : List α) :
    firstSeen (as ++ bs) = bs.foldl addNew (firstSeen as) := by
  rw [firstSeen, List.foldl_append, firstSeen]

theorem firstSeen_concat (as : List α) (a : α) :
    firstSeen (as ++ [a]) = addNew (firstSeen as) a :=
  firstSeen_append as [a]

/-- Repetitions may be dropped before a list is added. -/
theorem foldl_addNew_firstSeen (bs as : List α) :
    (firstSeen bs).foldl addNew as = bs.foldl addNew as := by
  -- from the end, since `firstSeen` grows there
  induction bs using List.reverseRecOn with
  | nil => rfl
  | append_singleton bs b ih =>
    rw [firstSeen_concat, List.foldl_append, List.foldl_cons, List.foldl_nil]
    by_cases h : b ∈ firstSeen bs
    · have hb : b ∈ bs.foldl addNew as := mem_foldl_addNew.2 (.inr (mem_firstSeen.1 h))
      rw [addNew_of_mem h, ih, addNew_of_mem hb]
    · rw [addNew_of_not_mem h, List.foldl_append, ih, List.foldl_cons, List.foldl_nil]

theorem foldl_addNew_flatMap_firstSeen (f g : β → List α) :
    ∀ (bs : List β) (as : List α),
      (bs.flatMap fun b => firstSeen (f b) ++ g b).foldl addNew as =
        (bs.flatMap fun b => f b ++ g b).foldl addNew as
  | [], _ => rfl
  | b :: bs, as => by
    simp only [List.flatMap_cons, List.foldl_append, foldl_addNew_firstSeen]
    exact foldl_addNew_flatMap_firstSeen f g bs _

/-- Putting pieces in order first does not change the order of the whole. -/
theorem firstSeen_flatMap (f g : β → List α) (bs : List β) :
    firstSeen (bs.flatMap fun b => firstSeen (f b) ++ g b) =
      firstSeen (bs.flatMap fun b => f b ++ g b) :=
  foldl_addNew_flatMap_firstSeen f g bs []

/-! ## Leaving elements out -/

theorem filter_addNew (p : α → Bool) (as : List α) (a : α) :
    (addNew as a).filter p = if p a then addNew (as.filter p) a else as.filter p := by
  by_cases h : a ∈ as
  · rw [addNew_of_mem h]
    split
    · rename_i hp
      rw [addNew_of_mem (List.mem_filter.2 ⟨h, hp⟩)]
    · rfl
  · have h' : a ∉ as.filter p := fun hm => h (List.mem_filter.1 hm).1
    rw [addNew_of_not_mem h, addNew_of_not_mem h', List.filter_append]
    by_cases hp : p a = true
    · simp [hp]
    · simp [hp]

theorem filter_foldl_addNew (p : α → Bool) :
    ∀ (bs as : List α), (bs.foldl addNew as).filter p = (bs.filter p).foldl addNew (as.filter p)
  | [], _ => rfl
  | b :: bs, as => by
    rw [List.foldl_cons, filter_foldl_addNew p bs, filter_addNew, List.filter_cons]
    by_cases hp : p b = true
    · rw [if_pos hp, if_pos hp, List.foldl_cons]
    · rw [if_neg hp, if_neg hp]

/-- Elements that are left out do not matter for the order of the others. -/
theorem filter_firstSeen (p : α → Bool) (as : List α) :
    (firstSeen as).filter p = firstSeen (as.filter p) :=
  filter_foldl_addNew p as []

/-! ## The order of two elements -/

theorem idxOf_filter_lt_iff {p : α → Bool} {x y : α} (hx : p x = true) (hy : p y = true) :
    ∀ {as : List α}, (as.filter p).idxOf x < (as.filter p).idxOf y ↔ as.idxOf x < as.idxOf y
  | [] => by simp
  | a :: as => by
    have ih : (as.filter p).idxOf x < (as.filter p).idxOf y ↔ as.idxOf x < as.idxOf y :=
      idxOf_filter_lt_iff hx hy
    by_cases hp : p a = true
    · rw [List.filter_cons_of_pos hp]
      by_cases hax : a = x
      · subst hax
        by_cases hay : a = y
        · subst hay
          simp
        · rw [List.idxOf_cons_self, List.idxOf_cons_self, List.idxOf_cons_ne _ hay,
            List.idxOf_cons_ne _ hay]
          simp
      · by_cases hay : a = y
        · subst hay
          rw [List.idxOf_cons_self, List.idxOf_cons_self]
          simp
        · rw [List.idxOf_cons_ne _ hax, List.idxOf_cons_ne _ hax, List.idxOf_cons_ne _ hay,
            List.idxOf_cons_ne _ hay, Nat.succ_lt_succ_iff, Nat.succ_lt_succ_iff]
          exact ih
    · have hax : a ≠ x := fun e => hp (e ▸ hx)
      have hay : a ≠ y := fun e => hp (e ▸ hy)
      rw [List.filter_cons_of_neg hp, ih, List.idxOf_cons_ne as hax, List.idxOf_cons_ne as hay,
        Nat.succ_lt_succ_iff]

theorem idxOf_concat_lt_iff {as bs : List α} {a x y : α} (hmem : ∀ z, z ∈ bs ↔ z ∈ as)
    (ih : bs.idxOf x < bs.idxOf y ↔ as.idxOf x < as.idxOf y) :
    (bs ++ [a]).idxOf x < (bs ++ [a]).idxOf y ↔ (as ++ [a]).idxOf x < (as ++ [a]).idxOf y := by
  simp only [List.idxOf_append, hmem]
  by_cases hx : x ∈ as
  · have hx' := List.idxOf_lt_length_of_mem hx
    have hxb := List.idxOf_lt_length_of_mem ((hmem x).2 hx)
    by_cases hy : y ∈ as
    · simpa only [if_pos hx, if_pos hy] using ih
    · rw [if_pos hx, if_neg hy, if_pos hx, if_neg hy]
      omega
  · by_cases hy : y ∈ as
    · have hy' := List.idxOf_lt_length_of_mem hy
      have hyb := List.idxOf_lt_length_of_mem ((hmem y).2 hy)
      rw [if_neg hx, if_pos hy, if_neg hx, if_pos hy]
      omega
    · rw [if_neg hx, if_neg hy, if_neg hx, if_neg hy]
      omega

/-- Two elements stand in the order of their first occurrences; an element that does not occur
counts as standing at the end. -/
theorem idxOf_firstSeen_lt_iff {x y : α} {as : List α} :
    (firstSeen as).idxOf x < (firstSeen as).idxOf y ↔ as.idxOf x < as.idxOf y := by
  induction as using List.reverseRecOn with
  | nil => simp
  | append_singleton as a ih =>
    rw [firstSeen_concat]
    by_cases h : a ∈ firstSeen as
    · rw [addNew_of_mem h, ih]
      -- a repetition at the end moves nothing
      have ha : a ∈ as := mem_firstSeen.1 h
      have hne : ∀ {z}, z ∉ as → a ≠ z := fun hz e => hz (e ▸ ha)
      simp only [List.idxOf_append]
      by_cases hx : x ∈ as <;> by_cases hy : y ∈ as
      · rw [if_pos hx, if_pos hy]
      · have := List.idxOf_lt_length_of_mem hx
        rw [if_pos hx, if_neg hy, List.idxOf_of_notMem hy]
        omega
      · have := List.idxOf_lt_length_of_mem hy
        rw [if_neg hx, if_pos hy, List.idxOf_of_notMem hx]
        omega
      · rw [if_neg hx, if_neg hy, List.idxOf_of_notMem hx, List.idxOf_of_notMem hy,
          List.idxOf_cons_ne _ (hne hx), List.idxOf_cons_ne _ (hne hy)]
        simp
    · rw [addNew_of_not_mem h]
      exact idxOf_concat_lt_iff (fun z => mem_firstSeen) ih

end SchemaToFlow
