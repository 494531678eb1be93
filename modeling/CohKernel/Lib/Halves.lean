import CohKernel.Lib.Bytes

namespace CohKernel.Lib

/-!
# Numbers of 16 bits in memory

* `word_setWord` — a stored 16-bit number is read back;
* `bytes_of_long`, `bytes_of_word` — a number determines its bytes.
-/

variable {m m' : Bytes} {o o' v : ℕ}

/-- Store a 16-bit number. -/
def Bytes.setWord (m : Bytes) (o v : ℕ) : Bytes :=
  fun i => if o ≤ i ∧ i < o + 2 then byte (v / 256 ^ (i - o)) else m i

theorem word_lt (m : Bytes) (o : ℕ) : m.word o < 65536 := by
  unfold Bytes.word
  omega

theorem setWord_of_not_mem {i : ℕ} (h : ¬(o ≤ i ∧ i < o + 2)) : m.setWord o v i = m i := if_neg h

theorem word_congr (h : ∀ i, o ≤ i → i < o + 2 → m' i = m i) : m'.word o = m.word o := by
  unfold Bytes.word
  rw [h o le_rfl (by omega), h (o + 1) (by omega) (by omega)]

/-- A stored number is read back. -/
theorem word_setWord (hv : v < 65536) : (m.setWord o v).word o = v := by
  refine word_eq_of_bytes hv fun k hk => ?_
  unfold Bytes.setWord
  rw [if_pos (by omega), Nat.add_sub_cancel_left]

/-- A number elsewhere is not changed. -/
theorem word_setWord_of_ne (h : o' + 2 ≤ o ∨ o + 2 ≤ o') : (m.setWord o v).word o' = m.word o' :=
  word_congr fun _ hlo hhi => setWord_of_not_mem (by omega)

theorem word_setLong_of_ne (h : o' + 2 ≤ o ∨ o + 4 ≤ o') : (m.setLong o v).word o' = m.word o' :=
  word_congr fun _ hlo hhi => setLong_of_not_mem (by omega)

theorem long_setWord_of_ne (h : o' + 4 ≤ o ∨ o + 2 ≤ o') : (m.setWord o v).long o' = m.long o' :=
  long_congr fun _ hlo hhi => setWord_of_not_mem (by omega)

/-- A number determines its bytes. -/
theorem bytes_of_long (h : m.long o = m'.long o') {k : ℕ} (hk : k < 4) : m (o + k) =
    m' (o' + k) := by
  have hbytes : ∀ (m : Bytes) (o : ℕ), m.long o = (m o).val + 256 * (m (o + 1)).val +
      65536 * (m (o + 2)).val + 16777216 * (m (o + 3)).val := by
    intro m o
    unfold Bytes.long Bytes.word
    rw [show o + 2 + 1 = o + 3 from rfl]
    omega
  rw [hbytes, hbytes] at h
  have h₀ : (m o).val = (m' o').val := by omega
  have h₁ : (m (o + 1)).val = (m' (o' + 1)).val := by omega
  have h₂ : (m (o + 2)).val = (m' (o' + 2)).val := by omega
  have h₃ : (m (o + 3)).val = (m' (o' + 3)).val := by omega
  obtain rfl | rfl | rfl | rfl : k = 0 ∨ k = 1 ∨ k = 2 ∨ k = 3 := by omega
  · exact Fin.ext h₀
  · exact Fin.ext h₁
  · exact Fin.ext h₂
  · exact Fin.ext h₃

theorem bytes_of_word (h : m.word o = m'.word o') {k : ℕ} (hk : k < 2) : m (o + k) =
    m' (o' + k) := by
  unfold Bytes.word at h
  have h₀ : (m o).val = (m' o').val := by omega
  have h₁ : (m (o + 1)).val = (m' (o' + 1)).val := by omega
  obtain rfl | rfl : k = 0 ∨ k = 1 := by omega
  · exact Fin.ext h₀
  · exact Fin.ext h₁

end CohKernel.Lib
