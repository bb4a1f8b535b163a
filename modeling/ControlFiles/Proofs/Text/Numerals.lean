import ControlFiles.Text.Basic
import Mathlib.Algebra.Group.Nat.Defs
import Mathlib.Data.List.Induction

/-!
# Numerals

What some digits denote (`number?_eq_some`), and how many digits a number has. A number is read
again from its digits, with as many zeros before them as there may be
(`number?_replicate_append_decimal`), and digits denote a number that is below the power of ten of
as many zeros (`lt_of_number?`).
-/

namespace ControlFiles.Text

/-- The number that some digits denote is their value in base ten. -/
theorem number?_eq_some {t : Text} {n : Nat} :
    number? t = some n ↔
      t ≠ [] ∧ (∀ c ∈ t, c.isDigit = true) ∧ Nat.ofDigitChars 10 t 0 = n := by
  rw [number?, ← Nat.ofDigitChars_eq_foldl]
  split
  · rename_i hnone
    rw [Bool.or_eq_true, List.isEmpty_iff, Bool.not_eq_true', List.all_eq_false] at hnone
    refine ⟨nofun, fun ⟨hne, hdigits, _⟩ => ?_⟩
    obtain ⟨c, hc, hdigit⟩ := hnone.resolve_left hne
    exact absurd (hdigits c hc) hdigit
  · rename_i hsome
    rw [Bool.or_eq_true, List.isEmpty_iff, Bool.not_eq_true', not_or, Bool.not_eq_false,
      List.all_eq_true] at hsome
    exact ⟨fun h => ⟨hsome.1, hsome.2, Option.some.inj h⟩, fun h => congrArg some h.2.2⟩

theorem number?_replicate_append_decimal (zeros n : Nat) :
    number? (List.replicate zeros '0' ++ decimal n) = some n := by
  refine number?_eq_some.mpr ⟨?_, fun c hc => ?_, ?_⟩
  · simp [decimal]
  · obtain hc | hc := List.mem_append.mp hc
    · rw [List.eq_of_mem_replicate hc]
      rfl
    · exact Nat.isDigit_of_mem_toDigits (by decide) (by decide) hc
  · rw [Nat.ofDigitChars_append, Nat.ofDigitChars_replicate_zero, Nat.mul_zero, decimal,
      Nat.ofDigitChars_ten_toDigits]

/-- A digit denotes less than ten. -/
theorem toNat_sub_lt_of_isDigit {c : Char} (h : c.isDigit = true) : c.toNat - '0'.toNat < 10 := by
  have hc : 48 ≤ c.toNat ∧ c.toNat ≤ 57 := by
    simpa [Char.isDigit, UInt32.le_iff_toNat_le] using h
  have hzero : '0'.toNat = 48 := rfl
  omega

theorem lt_of_number? {t : Text} {n : Nat} (h : number? t = some n) : n < 10 ^ t.length := by
  obtain ⟨-, hdigits, rfl⟩ := number?_eq_some.mp h
  clear h
  induction t using List.reverseRecOn with
  | nil => simp
  | append_singleton t c ih =>
    have ht := ih fun d hd => hdigits d (List.mem_append_left _ hd)
    have hc := toNat_sub_lt_of_isDigit (hdigits c (by simp))
    rw [Nat.ofDigitChars_append, Nat.ofDigitChars_cons, Nat.ofDigitChars_nil, List.length_append,
      List.length_singleton, Nat.pow_succ]
    omega

theorem length_decimal_le_iff {n k : Nat} (hk : 0 < k) : (decimal n).length ≤ k ↔ n < 10 ^ k :=
  Nat.length_toDigits_le_iff (by decide) hk

/-- The number after one that some digits denote has at most as many digits, or, if it is the power
of ten, one more. -/
theorem length_decimal_succ {t : Text} {n : Nat} (h : number? t = some n) :
    (decimal (n + 1)).length ≤ t.length ∧ n + 1 ≠ 10 ^ t.length ∨
      n + 1 = 10 ^ t.length ∧ (decimal (n + 1)).length = t.length + 1 := by
  have hpos : 0 < t.length := List.length_pos_iff.mpr (number?_eq_some.mp h).1
  have hlt := lt_of_number? h
  by_cases hcarry : n + 1 = 10 ^ t.length
  · refine .inr ⟨hcarry, ?_⟩
    have hmore : ¬ (decimal (n + 1)).length ≤ t.length := by
      rw [length_decimal_le_iff hpos]
      omega
    have hless : (decimal (n + 1)).length ≤ t.length + 1 := by
      rw [length_decimal_le_iff (Nat.succ_pos _), Nat.pow_succ]
      omega
    omega
  · exact .inl ⟨(length_decimal_le_iff hpos).mpr (by omega), hcarry⟩

end ControlFiles.Text
