import Mathlib.Tactic

namespace CohKernel.Lib

/-!
# Scans

A scan of a list that keeps one element, or none, of those it has seen.
-/

/-- What a scan keeps in the end is what it starts with, or an element that it can take. -/
theorem foldl_keeps {ι : Type*} {P : ι → Prop} {f : Option ι → ι → Option ι}
    (hf : ∀ o i j, f o i = some j → o = some j ∨ j = i ∧ P i) (l : List ι) :
    ∀ o j, l.foldl f o = some j → o = some j ∨ j ∈ l ∧ P j := by
  induction l with
  | nil => exact fun o j h => Or.inl h
  | cons i l ih =>
    intro o j h
    rcases ih (f o i) j h with h | ⟨hmem, hP⟩
    · rcases hf o i j h with h | ⟨rfl, hP⟩
      · exact Or.inl h
      · exact Or.inr ⟨List.mem_cons_self, hP⟩
    · exact Or.inr ⟨List.mem_cons_of_mem _ hmem, hP⟩

/-- One turn of the scan for the free element with the earliest time. -/
def keepOlder {ι : Type*} (alloc : ι → Bool) (time : ι → ℕ) (o : Option ι) (i : ι) : Option ι :=
  if alloc i then o
  else
    match o with
    | none => some i
    | some j => if time j > time i then some i else some j

/-- The scan finds a free element. -/
theorem foldl_keepOlder {ι : Type*} {alloc : ι → Bool} {time : ι → ℕ} {l : List ι} {i : ι}
    (h : l.foldl (keepOlder alloc time) none = some i) : i ∈ l ∧ alloc i = false := by
  have hkeep : ∀ o k j, keepOlder alloc time o k = some j → o = some j ∨ j = k ∧ alloc k =
      false := by
    intro o k j hj
    unfold keepOlder at hj
    by_cases halloc : alloc k = true
    · rw [if_pos halloc] at hj
      exact Or.inl hj
    rw [if_neg halloc] at hj
    rw [Bool.not_eq_true] at halloc
    cases o with
    | none =>
      cases hj
      exact Or.inr ⟨rfl, halloc⟩
    | some j' =>
      simp only at hj
      split_ifs at hj <;> cases hj
      · exact Or.inr ⟨rfl, halloc⟩
      · exact Or.inl rfl
  rcases foldl_keeps hkeep l none i h with hnone | hfound
  · cases hnone
  · exact hfound

end CohKernel.Lib
