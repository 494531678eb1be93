import Mathlib.Tactic

namespace CohKernel.Lib

/-!
# Tilings of an interval by blocks

Blocks are given by their start addresses `S` and a size function `sz`; `Tiling sz lo hi S`
says that they cover `[lo, hi)` without a gap and without overlapping.

* `BlockAt` — the starts one reaches by walking the sizes from `lo`; `Tiling.blockAt_iff`
  says that a tiling has exactly these starts, so the sizes alone determine it;
* `Tiling.recut` — a run of consecutive blocks may be replaced by one or two blocks that
  cover the same addresses: every split, merge and move of a boundary is a recut.
-/

/-- The block starts reached from `lo` by following the block sizes, up to `hi`. -/
inductive BlockAt (sz : ℕ → ℕ) (lo hi : ℕ) : ℕ → Prop
  | start : lo < hi → BlockAt sz lo hi lo
  | next {a : ℕ} : BlockAt sz lo hi a → a + sz a < hi → BlockAt sz lo hi (a + sz a)

/-- The blocks that start in `S` tile `[lo, hi)`. -/
structure Tiling (sz : ℕ → ℕ) (lo hi : ℕ) (S : ℕ → Prop) : Prop where
  start : lo < hi → S lo
  lo_le : ∀ {a}, S a → lo ≤ a
  pos : ∀ {a}, S a → 0 < sz a
  end_le : ∀ {a}, S a → a + sz a ≤ hi
  next : ∀ {a}, S a → a + sz a < hi → S (a + sz a)
  gap : ∀ {a b}, S a → S b → a < b → a + sz a ≤ b

/-- The starts after the blocks of `[l, r)` have been replaced by `[l, e)` and `[e, r)`; the
    second one is absent when `e = r`. -/
def RecutStarts (S : ℕ → Prop) (l e r a : ℕ) : Prop :=
  (S a ∧ (a < l ∨ r ≤ a)) ∨ a = l ∨ (a = e ∧ e < r)

variable {sz : ℕ → ℕ} {lo hi : ℕ} {S : ℕ → Prop}

namespace Tiling

theorem lt_hi (h : Tiling sz lo hi S) {a : ℕ} (ha : S a) : a < hi := by
  have := h.pos ha
  have := h.end_le ha
  omega

/-- The starts of a tiling are the starts one reaches by walking. -/
theorem blockAt_iff (h : Tiling sz lo hi S) {a : ℕ} : BlockAt sz lo hi a ↔ S a := by
  constructor
  · intro ha
    induction ha with
    | start hlt => exact h.start hlt
    | next _ hlt ih => exact h.next ih hlt
  · intro ha
    -- walk towards `a`: induction on the distance still to go
    have walk : ∀ d b, a - b ≤ d → b ≤ a → S b → BlockAt sz lo hi b → BlockAt sz lo hi a := by
      intro d
      induction d with
      | zero =>
        intro b hd hba _ hb
        obtain rfl : b = a := by omega
        exact hb
      | succ d ih =>
        intro b hd hba hSb hb
        rcases Nat.eq_or_lt_of_le hba with rfl | hlt
        · exact hb
        · have hgap := h.gap hSb ha hlt
          have hpos := h.pos hSb
          have hend := h.lt_hi ha
          exact ih (b + sz b) (by omega) hgap (h.next hSb (by omega)) (hb.next (by omega))
    have hlo := h.lo_le ha
    have hstart : lo < hi := lt_of_le_of_lt hlo (h.lt_hi ha)
    exact walk (a - lo) lo le_rfl hlo (h.start hstart) (.start hstart)

/-- **Recut.** The blocks of `[l, r)` are replaced by the block `[l, e)` and, unless `e = r`,
    the block `[e, r)`. -/
theorem recut (h : Tiling sz lo hi S) {sz' : ℕ → ℕ} {l e r : ℕ} (hl : S l) (hle : l < e)
    (her : e ≤ r) (hr : r < hi → S r) (hrhi : r ≤ hi)
    (hout : ∀ a, S a → a < l ∨ r ≤ a → sz' a = sz a) (hszl : sz' l = e - l)
    (hsze : e < r → sz' e = r - e) : Tiling sz' lo hi (RecutStarts S l e r) := by
  have hlo := h.lo_le hl
  -- a block before the run ends before it
  have hbefore : ∀ {a}, S a → a < l → a + sz a ≤ l := fun ha hal => h.gap ha hl hal
  refine ⟨?_, ?_, ?_, ?_, ?_, ?_⟩
  · intro hlt
    rcases Nat.eq_or_lt_of_le hlo with rfl | hll
    · exact Or.inr (Or.inl rfl)
    · exact Or.inl ⟨h.start hlt, Or.inl hll⟩
  · rintro a (⟨ha, _⟩ | rfl | ⟨rfl, _⟩)
    · exact h.lo_le ha
    · exact hlo
    · omega
  · rintro a (⟨ha, hor⟩ | rfl | ⟨rfl, hlt⟩)
    · rw [hout a ha hor]; exact h.pos ha
    · omega
    · have := hsze hlt; omega
  · rintro a (⟨ha, hor⟩ | rfl | ⟨rfl, hlt⟩)
    · rw [hout a ha hor]; exact h.end_le ha
    · omega
    · have := hsze hlt; omega
  · rintro a (⟨ha, hor⟩ | rfl | ⟨rfl, hlt⟩) hend
    · rw [hout a ha hor] at hend ⊢
      have hn := h.next ha hend
      rcases hor with hal | hra
      · have := hbefore ha hal
        rcases Nat.eq_or_lt_of_le this with heq | hlt
        · exact Or.inr (Or.inl heq)
        · exact Or.inl ⟨hn, Or.inl hlt⟩
      · exact Or.inl ⟨hn, Or.inr (by omega)⟩
    · rw [hszl, show a + (e - a) = e by omega] at hend ⊢
      rcases Nat.eq_or_lt_of_le her with rfl | hlt
      · exact Or.inl ⟨hr hend, Or.inr le_rfl⟩
      · exact Or.inr (Or.inr ⟨rfl, hlt⟩)
    · rw [hsze hlt, show a + (r - a) = r by omega] at hend ⊢
      exact Or.inl ⟨hr hend, Or.inr le_rfl⟩
  · rintro a b (⟨ha, hor⟩ | rfl | ⟨rfl, hlt⟩) hb hab
    · rw [hout a ha hor]
      rcases hb with ⟨hb, _⟩ | rfl | ⟨rfl, hlt⟩
      · exact h.gap ha hb hab
      · exact h.gap ha hl hab
      · rcases hor with hal | hra
        · have := hbefore ha hal; omega
        · omega
    · rw [hszl]
      rcases hb with ⟨_, hor⟩ | rfl | ⟨rfl, _⟩ <;> omega
    · rw [hsze hlt]
      rcases hb with ⟨_, hor⟩ | rfl | ⟨rfl, _⟩ <;> omega

end Tiling

end CohKernel.Lib
