import Mathlib.Tactic

namespace CohKernel.Lib

/-!
# Instances by name

A numeral of `Fin n` needs a proof that `n` is not zero.  The proofs for the sizes of the kernel's
types are named here, so that a definition with such a numeral has no proof of its own.
-/

instance neZeroOne : NeZero 1 := ⟨by decide⟩

instance neZeroTwo : NeZero 2 := ⟨by decide⟩

instance neZeroFour : NeZero 4 := ⟨by decide⟩

instance neZeroNineteen : NeZero 19 := ⟨by decide⟩

instance neZeroByte : NeZero 256 := ⟨by decide⟩

instance neZeroShort : NeZero (2 ^ 16) := ⟨by decide⟩

instance neZeroLong : NeZero (2 ^ 32) := ⟨by decide⟩

instance lawfulPair : LawfulBEq (ℕ × ℕ) := inferInstance

end CohKernel.Lib
