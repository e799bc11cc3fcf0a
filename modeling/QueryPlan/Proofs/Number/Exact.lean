import Mathlib.Algebra.Order.Field.Rat
import QueryPlan.Json.Basic

namespace QueryPlan

namespace Double

variable {x : Double} {n : Nat}

/-- The number itself, which is a whole number of least magnitudes. -/
def value (x : Double) : ℚ := (if x.negative then -1 else 1) * (x.units / one)

theorem pow_two_pos (k : Nat) : 0 < Nat.pow 2 k := Nat.two_pow_pos k

theorem one_pos : 0 < one := by
  unfold one
  apply pow_two_pos

theorem units_eq_zero : x.units = 0 ↔ x.isZero := by
  have normal : 0 < (binade + x.rank % binade) * Nat.pow 2 (x.rank / binade - 1) := by
    apply Nat.mul_pos
    · exact Nat.add_pos_left (pow_two_pos 52) _
    · exact pow_two_pos _
  rw [units, unitsOfRank, isZero, beq_iff_eq]
  split
  · rfl
  · rename_i large
    constructor
    · intro zero
      exact absurd zero normal.ne'
    · intro zero
      rw [zero] at large
      exact absurd (pow_two_pos 52) large

/-- A number that counts as negative is below zero, as the other zero is zero as well. -/
theorem value_neg (negative : x.negative) (notZero : ¬ x.isZero) : x.value < 0 := by
  have units : (0 : ℚ) < x.units := Nat.cast_pos.2 (Nat.pos_of_ne_zero (mt units_eq_zero.1 notZero))
  have scale : (0 : ℚ) < one := Nat.cast_pos.2 one_pos
  rw [value, if_pos negative, neg_one_mul]
  exact neg_lt_zero.2 (div_pos units scale)

theorem value_eq_div (h : ¬ (x.negative ∧ ¬ x.isZero)) : x.value = x.units / one := by
  rw [value]
  split
  · rename_i negative
    have zero : x.units = 0 := units_eq_zero.2 (not_not.1 fun notZero => h ⟨negative, notZero⟩)
    rw [zero, Nat.cast_zero, zero_div, mul_zero]
  · exact one_mul _

theorem toNat?_eq_some : x.toNat? = some n ↔ x.value = n := by
  have scale : (one : ℚ) ≠ 0 := Nat.cast_ne_zero.2 one_pos.ne'
  rw [toNat?]
  by_cases h : x.negative ∧ ¬ x.isZero
  · have below := (value_neg h.1 h.2).trans_le n.cast_nonneg
    rw [if_pos (by simpa using h)]
    exact iff_of_false nofun below.ne
  · rw [if_neg (by simpa using h), value_eq_div h, div_eq_iff scale, ← Nat.cast_mul, Nat.cast_inj]
    split
    · rename_i whole
      rw [Option.some.injEq, Nat.div_eq_iff_eq_mul_left one_pos (Nat.dvd_of_mod_eq_zero whole)]
    · rename_i fraction
      refine iff_of_false nofun ?_
      intro whole
      rw [whole, Nat.mul_mod_left] at fraction
      exact fraction rfl

end Double

namespace Json.Number

/-- The number itself. -/
def value : Number → ℚ
  | .int n _ => n
  | .float x => x.value

/-- The natural number that a number is. -/
def natural? : Number → Option Nat
  | .int n _ => if 0 ≤ n then some n.toNat else none
  | .float x => x.toNat?

variable {n : Number} {k : Nat}

theorem natural?_eq_some : n.natural? = some k ↔ n.value = k := by
  cases n with
  | int n inRange =>
    have cast : (n : ℚ) = k ↔ n = k := by exact_mod_cast Iff.rfl
    rw [natural?, value, cast]
    split
    · rw [Option.some.injEq]
      omega
    · refine iff_of_false nofun ?_
      omega
  | float x => exact Double.toNat?_eq_some

end Json.Number

end QueryPlan
