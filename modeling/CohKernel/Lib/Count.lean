import Mathlib.Data.Fintype.Basic
import Mathlib.Algebra.BigOperators.Ring.Finset
import Mathlib.Tactic

namespace CohKernel.Lib

/-!
# Counting

The number of the indices of a finite family whose values pass a test.

* `count_update` — how it changes with one value;
* `count_row` — how it changes when a row of a table is filled in.
-/

variable {ι α : Type*} [Fintype ι] [DecidableEq ι]

/-- The number of the values of `f` that pass `φ`. -/
def count (φ : α → Bool) (f : ι → α) : ℕ := (Finset.univ.filter fun i => φ (f i) = true).card

variable {φ : α → Bool} {f g : ι → α} {i : ι} {x : α}

section

omit [DecidableEq ι]

theorem count_congr (h : ∀ i, φ (f i) = φ (g i)) : count φ f = count φ g :=
  congrArg Finset.card (Finset.filter_congr fun i _ => by rw [h i])

theorem count_pos (h : φ (f i) = true) : 0 < count φ f :=
  Finset.card_pos.mpr ⟨i, Finset.mem_filter.mpr ⟨Finset.mem_univ i, h⟩⟩

theorem count_eq_zero (h : ∀ i, φ (f i) = false) : count φ f = 0 :=
  Finset.card_eq_zero.mpr (Finset.filter_eq_empty_iff.mpr fun i _ => by rw [h i]; decide)

end

/-- One value changes. -/
theorem count_update (φ : α → Bool) (f : ι → α) (i : ι) (x : α) :
    count φ (Function.update f i x) + (if φ (f i) = true then 1 else 0) =
      count φ f + (if φ x = true then 1 else 0) := by
  have hrest : ∑ j ∈ Finset.univ.erase i, (if φ (Function.update f i x j) = true then 1 else 0) =
      ∑ j ∈ Finset.univ.erase i, (if φ (f j) = true then 1 else 0) := by
    refine Finset.sum_congr rfl fun j hj => ?_
    rw [Function.update_of_ne (Finset.ne_of_mem_erase hj)]
  unfold count
  rw [Finset.card_filter, Finset.card_filter, ← Finset.add_sum_erase _ _ (Finset.mem_univ i),
    ← Finset.add_sum_erase _ _ (Finset.mem_univ i), hrest, Function.update_self]
  omega

/-- The value at `i` passes the test neither before nor after. -/
theorem count_update_same (h : φ (f i) = φ x) : count φ (Function.update f i x) = count φ f := by
  have := count_update φ f i x
  rw [h] at this
  omega

omit [DecidableEq ι] in
theorem count_pos_iff : 0 < count φ f ↔ ∃ i, φ (f i) = true := by
  unfold count
  rw [Finset.card_pos]
  constructor
  · rintro ⟨i, hi⟩
    exact ⟨i, (Finset.mem_filter.mp hi).2⟩
  · rintro ⟨i, hi⟩
    exact ⟨i, Finset.mem_filter.mpr ⟨Finset.mem_univ i, hi⟩⟩

/-- The values of a list of all indices. -/
theorem count_fin {n : ℕ} (φ : α → Bool) (f : Fin n → α) :
    count φ f = ((List.finRange n).map f).countP φ := by
  rw [List.countP_map, List.countP_eq_length_filter]
  have hfilter : (List.finRange n).filter (φ ∘ f) =
      (List.finRange n).filter fun i => decide (φ (f i) = true) :=
    List.filter_congr fun i _ => Bool.decide_eq_true.symm
  rw [hfilter]
  rfl

/-- A row whose values do not pass the test gets the values of another one. -/
theorem count_row {κ : Type*} [Fintype κ] [DecidableEq κ] {f : ι × κ → α} {c : ι}
    (hc : ∀ k, φ (f (c, k)) = false) (row : κ → α) :
    count φ (fun i => if i.1 = c then row i.2 else f i) = count φ f + count φ row := by
  unfold count
  rw [← Finset.card_map ⟨fun k : κ => (c, k), fun k k' h => (Prod.mk.inj h).2⟩,
    ← Finset.card_union_of_disjoint]
  · congr 1
    ext ⟨i, k⟩
    have hmap : (i, k) ∈ (Finset.univ.filter fun k => φ (row k) = true).map
        ⟨fun k : κ => (c, k), fun k k' h => (Prod.mk.inj h).2⟩ ↔ i = c ∧ φ (row k) = true := by
      rw [Finset.mem_map]
      constructor
      · rintro ⟨k', hk', heq⟩
        obtain ⟨rfl, rfl⟩ := Prod.mk.inj heq
        exact ⟨rfl, (Finset.mem_filter.mp hk').2⟩
      · rintro ⟨rfl, hk⟩
        exact ⟨k, Finset.mem_filter.mpr ⟨Finset.mem_univ k, hk⟩, rfl⟩
    rw [Finset.mem_union, hmap, Finset.mem_filter, Finset.mem_filter]
    by_cases hi : i = c
    · subst hi
      simp only [if_true, hc k, Finset.mem_univ, true_and, Bool.false_eq_true, false_or]
    · simp only [hi, if_false, Finset.mem_univ, true_and, false_and, or_false]
  · rw [Finset.disjoint_left]
    rintro ⟨i, k⟩ hik hmem
    obtain ⟨k', -, heq⟩ := Finset.mem_map.mp hmem
    obtain ⟨rfl, -⟩ := Prod.mk.inj heq
    cases (hc k).symm.trans (Finset.mem_filter.mp hik).2

end CohKernel.Lib
