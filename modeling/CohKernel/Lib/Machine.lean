import CohKernel.Lib.Instances

namespace CohKernel.Lib

/-!
# Machine integers

Integer types of C.  A value is an integer of the type's range; `ushort` and `short` convert an
integer by reducing it modulo `2 ^ 16`.

* `ushort_eq_iff`, `short_eq_iff` — two conversions agree when the integers agree modulo `2 ^ 16`;
* `inRange_iff`, `inRange_zero_iff` — the unsigned comparison of `__IN_RANGE` decides the range.
-/

/-! ### Unsigned short -/

/-- `unsigned short`. -/
abbrev Ushort := Fin (2 ^ 16)

/-- Conversion to `unsigned short`. -/
def ushort (z : ℤ) : Ushort := ⟨(z % 2 ^ 16).toNat, by omega⟩

theorem ushort_val (z : ℤ) : ((ushort z).val : ℤ) = z % 2 ^ 16 := by
  unfold ushort
  simp only
  omega

theorem ushort_eq_iff {a b : ℤ} : ushort a = ushort b ↔ (a - b) % 2 ^ 16 = 0 := by
  rw [Fin.ext_iff, ← Nat.cast_inj (R := ℤ), ushort_val, ushort_val]
  omega

theorem ushort_self (u : Ushort) : ushort u.val = u := by
  rw [Fin.ext_iff, ← Nat.cast_inj (R := ℤ), ushort_val]
  omega

theorem ushort_eq_self_iff {z : ℤ} {u : Ushort} : ushort z = u ↔ (z - u.val) % 2 ^ 16 = 0 := by
  conv_lhs => rw [← ushort_self u]
  exact ushort_eq_iff

/-! ### Short -/

/-- `short`. -/
abbrev Short := {z : ℤ // -2 ^ 15 ≤ z ∧ z < 2 ^ 15}

/-- Conversion to `short`. -/
def short (z : ℤ) : Short := ⟨(z + 2 ^ 15) % 2 ^ 16 - 2 ^ 15, by omega⟩

theorem short_val (z : ℤ) : (short z).val = (z + 2 ^ 15) % 2 ^ 16 - 2 ^ 15 := rfl

theorem short_eq_iff {a b : ℤ} : short a = short b ↔ (a - b) % 2 ^ 16 = 0 := by
  rw [Subtype.ext_iff, short_val, short_val]
  omega

theorem short_self (s : Short) : short s.val = s := by
  rw [Subtype.ext_iff, short_val]
  have := s.property
  omega

theorem short_eq_self_iff {z : ℤ} {s : Short} : short z = s ↔ (z - s.val) % 2 ^ 16 = 0 := by
  conv_lhs => rw [← short_self s]
  exact short_eq_iff

/-! ### Int -/

/-- `int`. -/
abbrev CInt := {z : ℤ // -2 ^ 31 ≤ z ∧ z < 2 ^ 31}

/-! ### Ranges -/

/-- `__IN_RANGE`: one unsigned comparison of 32-bit differences. -/
def inRange (min value max : ℤ) : Bool := decide ((value - min) % 2 ^ 32 ≤ (max - min) % 2 ^ 32)

theorem inRange_iff {min value max : ℤ} (hmin : -2 ^ 30 ≤ min) (hle : min ≤ max)
    (hmax : max < 2 ^ 30) (hlo : -2 ^ 30 ≤ value) (hhi : value < 2 ^ 30) :
    inRange min value max = true ↔ min ≤ value ∧ value ≤ max := by
  unfold inRange
  rw [decide_eq_true_eq]
  omega

theorem inRange_zero_iff {value : CInt} {max : ℤ} (hmax : 0 ≤ max) (hlt : max < 2 ^ 31) :
    inRange 0 value.val max = true ↔ 0 ≤ value.val ∧ value.val ≤ max := by
  unfold inRange
  have := value.property
  rw [decide_eq_true_eq]
  omega

end CohKernel.Lib
