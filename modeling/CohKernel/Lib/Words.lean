import Mathlib.Tactic

namespace CohKernel.Lib

/-!
# Numbers of 32 bits

* `asInt` — a word as an `int`;
* `roundUp` — a word rounded up to a multiple, in 32 bits.
-/

/-- A number of 32 bits as an `int`. -/
def asInt (x : ℕ) : ℤ := if x < 2 ^ 31 then x else x - 2 ^ 32

theorem asInt_small {x : ℕ} (h : x < 2 ^ 31) : asInt x = x := if_pos h

/-- `__ROUND_UP_TO_MULTIPLE` of a word. -/
def roundUp (n mult : ℕ) : ℕ := (n + (mult - 1)) % 2 ^ 32 / mult * mult

/-- A number that is not too large is rounded up. -/
theorem roundUp_small {n mult : ℕ} (h : n + (mult - 1) < 2 ^ 32) :
    roundUp n mult = (n + (mult - 1)) / mult * mult := by
  rw [roundUp, Nat.mod_eq_of_lt h]

end CohKernel.Lib
