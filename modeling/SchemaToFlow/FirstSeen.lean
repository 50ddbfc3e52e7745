/-!
# Lists in order of first occurrence

`addNew` appends an element unless it is listed already, so a list built by it alone has no
duplicates and keeps the order in which its elements first came. `firstSeen` builds such a list from
any list.
-/

namespace SchemaToFlow

variable {α : Type} [DecidableEq α]

/-- Appends `a`, unless it is listed already. -/
def addNew (as : List α) (a : α) : List α :=
  if a ∈ as then as else as ++ [a]

/-- The elements of a list in order of first occurrence, each once. -/
def firstSeen (as : List α) : List α :=
  as.foldl addNew []

@[simp] theorem mem_addNew {as : List α} {a b : α} : b ∈ addNew as a ↔ b ∈ as ∨ b = a := by
  unfold addNew
  split
  · rename_i h
    constructor
    · exact Or.inl
    · rintro (hb | rfl)
      · exact hb
      · exact h
  · simp

theorem nodup_addNew {as : List α} (h : as.Nodup) (a : α) : (addNew as a).Nodup := by
  unfold addNew
  split
  · exact h
  · rename_i ha
    rw [List.nodup_append]
    refine ⟨h, by simp, fun x hx y hy => ?_⟩
    rw [List.mem_singleton] at hy
    subst hy
    exact fun e => ha (e ▸ hx)

end SchemaToFlow
