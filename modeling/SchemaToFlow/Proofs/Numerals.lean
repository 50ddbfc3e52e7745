import SchemaToFlow.Schema.Numeral

/-!
# Reading a number in 64 bits

A number that is read digit by digit never comes nearer to zero. So it leaves the range of 64 bits
at some digit exactly if the whole number lies outside (`foldlM_pushDigit?`), whatever its sign and
however many digits it has, and reading it in 64 bits is exact where it succeeds (`int64?_eq`).
-/

namespace SchemaToFlow.Schema.Numeral

/-! ## Numbers that fit -/

theorem fit64?_eq_some_iff {n : Int} {m : Int64} : fit64? n = some m ↔ m.toInt = n := by
  unfold fit64?
  constructor
  · intro h
    split at h
    · rename_i hn
      rw [Int64.toInt_minValue, Int64.toInt_maxValue] at hn
      obtain rfl := Option.some.inj h
      exact Int64.toInt_ofInt_of_le hn.1 (by omega)
    · cases h
  · rintro rfl
    rw [if_pos ⟨m.minValue_le_toInt, m.toInt_le⟩, Int64.ofInt_toInt]

theorem fit64?_eq_none_iff {n : Int} :
    fit64? n = none ↔ ¬ (Int64.minValue.toInt ≤ n ∧ n ≤ Int64.maxValue.toInt) := by
  unfold fit64?
  split
  · exact iff_of_false (by simp) (not_not_intro ‹_›)
  · exact iff_of_true rfl ‹_›

/-! ## Digit by digit -/

/-- The number of a size and a sign. -/
def signed (negative : Bool) (n : Nat) : Int := if negative then -(n : Int) else n

/-- What lies nearer to zero fits, too. -/
theorem fit64?_eq_none_of_le {negative : Bool} {k n : Nat} (h : k ≤ n)
    (hk : fit64? (signed negative k) = none) : fit64? (signed negative n) = none := by
  rw [fit64?_eq_none_iff, Int64.toInt_minValue, Int64.toInt_maxValue] at hk ⊢
  cases negative with
  | false =>
    simp only [signed, Bool.false_eq_true, if_false] at hk ⊢
    omega
  | true =>
    simp only [signed, if_true] at hk ⊢
    omega

/-- **Step.** One more digit is refused exactly if the number with that digit does not fit: ten
times the number before it is no larger. -/
theorem pushDigit?_eq {negative : Bool} {n : Int64} {k : Nat} (hn : n.toInt = signed negative k)
    (d : Char) :
    pushDigit? negative n d = fit64? (signed negative (10 * k + (d.toNat - '0'.toNat))) := by
  have htens : 10 * n.toInt = signed negative (10 * k) := by
    rw [hn]
    cases negative with
    | false => rfl
    | true =>
      simp only [signed, if_true]
      omega
  unfold pushDigit?
  rw [htens]
  cases hfit : fit64? (signed negative (10 * k)) with
  | none => exact (fit64?_eq_none_of_le (Nat.le_add_right _ _) hfit).symm
  | some tens =>
    show fit64? (if negative then tens.toInt - _ else tens.toInt + _) = _
    rw [fit64?_eq_some_iff.1 hfit]
    congr 1
    cases negative with
    | false => rfl
    | true =>
      simp only [signed, if_true]
      omega

theorem le_foldl_digits (k : Nat) (ds : List Char) :
    k ≤ ds.foldl (fun n d => 10 * n + (d.toNat - '0'.toNat)) k := by
  induction ds generalizing k with
  | nil => exact Nat.le_refl k
  | cons d ds ih =>
    have hstep : k ≤ 10 * k + (d.toNat - '0'.toNat) := by omega
    exact Nat.le_trans hstep (ih _)

/-- **Run.** -/
theorem foldlM_pushDigit? {negative : Bool} {n : Int64} {k : Nat}
    (hn : n.toInt = signed negative k) (ds : List Char) :
    ds.foldlM (pushDigit? negative) n =
      fit64? (signed negative (ds.foldl (fun n d => 10 * n + (d.toNat - '0'.toNat)) k)) := by
  induction ds generalizing n k with
  | nil => exact (fit64?_eq_some_iff.2 hn).symm
  | cons d ds ih =>
    rw [List.foldlM_cons, pushDigit?_eq hn, List.foldl_cons]
    cases hfit : fit64? (signed negative (10 * k + (d.toNat - '0'.toNat))) with
    | none => exact (fit64?_eq_none_of_le (le_foldl_digits _ ds) hfit).symm
    | some m => exact ih (fit64?_eq_some_iff.1 hfit)

/-! ## Integer tokens -/

/-- Reading in 64 bits gives the number that is written, or nothing if that does not fit. -/
theorem int64?_eq (text : String) :
    int64? text =
      if Int64.minValue.toInt ≤ intValue text.toList ∧ intValue text.toList ≤ Int64.maxValue.toInt
      then some (intValue text.toList) else none := by
  have hread : int64? text = (fit64? (intValue text.toList)).map Int64.toInt := by
    unfold int64? intValue
    split
    · rw [foldlM_pushDigit? (k := 0) rfl]
      rfl
    · rw [foldlM_pushDigit? (k := 0) rfl]
      rfl
  rw [hread]
  split
  · rename_i hfits
    rw [Option.map_eq_some_iff]
    exact ⟨_, if_pos hfits, fit64?_eq_some_iff.1 (if_pos hfits)⟩
  · rename_i hfits
    rw [fit64?_eq_none_iff.2 hfits]
    rfl

end SchemaToFlow.Schema.Numeral
