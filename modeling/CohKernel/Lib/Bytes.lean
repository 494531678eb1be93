import CohKernel.Lib.Instances

namespace CohKernel.Lib

/-!
# Memory of bytes

Little-endian numbers in a memory of bytes.

* `long_setLong` — a stored 32-bit number is read back;
* `long_setLong_of_ne` — a number elsewhere is not changed.
-/

/-- A byte. -/
abbrev Byte := Fin 256

/-- The low byte of a number. -/
def byte (v : ℕ) : Byte := ⟨v % 256, Nat.mod_lt _ (by norm_num)⟩

@[simp] theorem byte_val (v : ℕ) : (byte v).val = v % 256 := rfl

/-- Memory. -/
abbrev Bytes := ℕ → Byte

variable (m : Bytes) (o v : ℕ)

/-- The 16-bit number at an offset. -/
def Bytes.word : ℕ := (m o).val + 2 ^ 8 * (m (o + 1)).val

/-- The 32-bit number at an offset. -/
def Bytes.long : ℕ := m.word o + 2 ^ 16 * m.word (o + 2)

/-- Store a 32-bit number. -/
def Bytes.setLong : Bytes :=
  fun i => if o ≤ i ∧ i < o + 4 then byte (v / 256 ^ (i - o)) else m i

variable {m o v}

theorem long_lt (m : Bytes) (o : ℕ) : m.long o < 2 ^ 32 := by
  unfold Bytes.long Bytes.word
  omega

theorem setLong_of_not_mem {i : ℕ} (h : ¬(o ≤ i ∧ i < o + 4)) : m.setLong o v i = m i := if_neg h

theorem long_congr {m' : Bytes} (h : ∀ i, o ≤ i → i < o + 4 → m' i = m i) : m'.long o =
    m.long o := by
  unfold Bytes.long Bytes.word
  rw [h o (by omega) (by omega), h (o + 1) (by omega) (by omega), h (o + 2) (by omega) (by omega),
    h (o + 2 + 1) (by omega) (by omega)]

/-- The number whose bytes are stored one after the other. -/
theorem long_eq_of_bytes (hv : v < 2 ^ 32) (h : ∀ k < 4, m (o + k) = byte (v / 256 ^ k)) :
    m.long o = v := by
  have h0 := h 0 (by norm_num)
  have h1 := h 1 (by norm_num)
  have h2 := h 2 (by norm_num)
  have h3 := h 3 (by norm_num)
  unfold Bytes.long Bytes.word
  rw [show o + 2 + 1 = o + 3 from rfl, h1, h2, h3, show m o = _ from h0]
  simp only [byte_val]
  norm_num
  omega

theorem word_eq_of_bytes (hv : v < 2 ^ 16) (h : ∀ k < 2, m (o + k) = byte (v / 256 ^ k)) :
    m.word o = v := by
  have h0 := h 0 (by norm_num)
  have h1 := h 1 (by norm_num)
  unfold Bytes.word
  rw [h1, show m o = _ from h0]
  simp only [byte_val]
  norm_num
  omega

/-- A stored number is read back. -/
theorem long_setLong (hv : v < 2 ^ 32) : (m.setLong o v).long o = v := by
  refine long_eq_of_bytes hv fun k hk => ?_
  unfold Bytes.setLong
  rw [if_pos (by omega), Nat.add_sub_cancel_left]

/-- A number elsewhere is not changed. -/
theorem long_setLong_of_ne {o' : ℕ} (h : o' + 4 ≤ o ∨ o + 4 ≤ o') :
    (m.setLong o v).long o' = m.long o' :=
  long_congr fun _ hlo hhi => setLong_of_not_mem (by omega)

/-! ### Canonical order -/

/-- `rol $16`: exchange the halves of a 32-bit number. -/
def rol16 (v : ℕ) : ℕ := v % 65536 * 65536 + v / 65536 % 65536

theorem rol16_lt (v : ℕ) : rol16 v < 2 ^ 32 := by
  unfold rol16
  omega

theorem rol16_halves {h l : ℕ} (hh : h < 65536) (hl : l < 65536) :
    rol16 (65536 * h + l) = 65536 * l + h := by
  unfold rol16
  omega

theorem rol16_rol16 (h : v < 2 ^ 32) : rol16 (rol16 v) = v := by
  have hv : v = 65536 * (v / 65536) + v % 65536 := (Nat.div_add_mod v 65536).symm
  have hhigh : v / 65536 < 65536 := by omega
  have hlow := Nat.mod_lt v (by norm_num : 0 < 65536)
  conv_lhs => rw [hv]
  rw [rol16_halves hhigh hlow, rol16_halves hlow hhigh]
  exact hv.symm

theorem rol16_eq_zero (h : v < 2 ^ 32) : rol16 v = 0 ↔ v = 0 := by
  unfold rol16
  omega

end CohKernel.Lib
