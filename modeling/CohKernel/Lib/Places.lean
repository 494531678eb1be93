import Mathlib.Algebra.BigOperators.Group.Finset.Basic
import Mathlib.Algebra.Order.BigOperators.Group.Finset
import Mathlib.Tactic

namespace CohKernel.Lib

/-!
# Things in places

How many copies of a thing there are over all places, of which only finitely many have one.

* `Spread.congr` — moves between some of the places keep the number;
* `Spread.unique` — a thing that there is once is in exactly one place.
-/

variable {ι : Type*} {f g : ι → ℕ} {k : ℕ} {i : ι}

/-- There are `k` copies, `f i` of them at place `i`. -/
def Spread (f : ι → ℕ) (k : ℕ) : Prop :=
  ∃ T : Finset ι, (∀ i ∉ T, f i = 0) ∧ ∑ i ∈ T, f i = k

theorem Spread.single (h : ∀ j ≠ i, f j = 0) : Spread f (f i) := by
  refine ⟨{i}, fun j hj => h j fun heq => hj (Finset.mem_singleton.mpr heq), ?_⟩
  exact Finset.sum_singleton f i

/-- A larger set of places has no more copies. -/
theorem Spread.sum_le (h : Spread f k) (U : Finset ι) : ∑ i ∈ U, f i ≤ k := by
  classical
  obtain ⟨T, hzero, hsum⟩ := h
  have hinter : ∑ i ∈ U ∩ T, f i = ∑ i ∈ U, f i := by
    refine Finset.sum_subset Finset.inter_subset_left fun j hj hnot => hzero j fun hT => ?_
    exact hnot (Finset.mem_inter.mpr ⟨hj, hT⟩)
  rw [← hinter, ← hsum]
  exact Finset.sum_le_sum_of_subset Finset.inter_subset_right

theorem Spread.le (h : Spread f k) (i : ι) : f i ≤ k := by
  rw [← Finset.sum_singleton f i]
  exact h.sum_le {i}

/-- Copies have moved between the places of `U`. -/
theorem Spread.congr (h : Spread f k) (U : Finset ι) (hother : ∀ i ∉ U, g i = f i)
    (hsum : ∑ i ∈ U, g i = ∑ i ∈ U, f i) : Spread g k := by
  classical
  obtain ⟨T, hzero, htotal⟩ := h
  refine ⟨T ∪ U, fun i hi => ?_, ?_⟩
  · rw [Finset.mem_union, not_or] at hi
    rw [hother i hi.2, hzero i hi.1]
  · have hrest : ∑ i ∈ T \ U, g i = ∑ i ∈ T \ U, f i :=
      Finset.sum_congr rfl fun i hi => hother i (Finset.mem_sdiff.mp hi).2
    have hall : ∑ i ∈ T ∪ U, f i = ∑ i ∈ T, f i := by
      refine (Finset.sum_subset Finset.subset_union_left fun i _ hi => hzero i hi).symm
    rw [← htotal, ← hall, ← Finset.sdiff_union_self_eq_union,
      Finset.sum_union Finset.sdiff_disjoint, Finset.sum_union Finset.sdiff_disjoint, hrest, hsum]

/-- **One copy** is in exactly one place. -/
theorem Spread.unique (h : Spread f 1) : ∃! i, 0 < f i := by
  classical
  obtain ⟨T, hzero, hsum⟩ := h
  obtain ⟨i, hi, hne⟩ := Finset.exists_ne_zero_of_sum_ne_zero (hsum.trans_ne Nat.one_ne_zero)
  refine ⟨i, Nat.pos_of_ne_zero hne, fun j hj => ?_⟩
  by_contra hji
  have hpair := Spread.sum_le ⟨T, hzero, hsum⟩ {i, j}
  rw [Finset.sum_pair (Ne.symm hji)] at hpair
  have hpos : 0 < f i := Nat.pos_of_ne_zero hne
  simp only at hj
  omega

end CohKernel.Lib
