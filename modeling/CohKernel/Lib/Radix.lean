import Mathlib.Tactic

namespace CohKernel.Lib

/-!
# Sorting by digits

A list is sorted by a key when the keys do not get less along it; it is sorted stably when the
elements with equal keys have kept their order as well.

* `StableSort.unique` — there is one stable sort of a list;
* `StableSort.mergeSort` — merge sort is that sort;
* `StableSort.pass` — distributing a list over the buckets of a digit sorts it by this digit first;
* `StableSort.digits` — so one pass for each digit, from the lowest one on, sorts by the key.
-/

variable {α β : Type*} {key : α → ℕ} {l l' l₁ l₂ : List α}

/-! ### Stable sorts -/

/-- The list `l'` is `l` sorted by a key, and equal keys are in their old order. -/
structure StableSort (key : α → ℕ) (l l' : List α) : Prop where
  sorted : l'.Pairwise fun a b => key a ≤ key b
  stable : ∀ v, (l'.filter fun a => key a = v) = l.filter fun a => key a = v

/-- A stable sort has the elements of the list. -/
theorem StableSort.perm (h : StableSort key l l') : l'.Perm l := by
  classical
  rw [List.perm_iff_count]
  intro a
  have hp : decide (key a = key a) = true := decide_eq_true rfl
  have hcount : ∀ m : List α, (m.filter fun b => key b = key a).count a = m.count a :=
    fun m => List.count_filter hp
  rw [← hcount l', ← hcount l, h.stable]

/-- Two sorted lists with the same elements for each key are the same. -/
theorem eq_of_sorted (hperm : l₁.Perm l₂) (hsorted : l₁.Pairwise fun a b => key a ≤ key b)
    (hsorted' : l₂.Pairwise fun a b => key a ≤ key b)
    (hall : ∀ v, (l₁.filter fun a => key a = v) = l₂.filter fun a => key a = v) : l₁ = l₂ := by
  induction l₁ generalizing l₂ with
  | nil => exact hperm.nil_eq
  | cons a l₁ ih =>
    cases l₂ with
    | nil => exact absurd hperm.eq_nil (List.cons_ne_nil a l₁)
    | cons b l₂ =>
      obtain ⟨ha, hrest⟩ := List.pairwise_cons.mp hsorted
      obtain ⟨hb, hrest'⟩ := List.pairwise_cons.mp hsorted'
      -- both are the first element with the least key
      have hkey : key a = key b := by
        apply le_antisymm
        · rcases List.mem_cons.mp (hperm.symm.subset List.mem_cons_self) with rfl | hmem
          · exact le_rfl
          · exact ha b hmem
        · rcases List.mem_cons.mp (hperm.subset List.mem_cons_self) with rfl | hmem
          · exact le_rfl
          · exact hb a hmem
      have hab : a = b := by
        have heq := hall (key a)
        rw [List.filter_cons_of_pos (by simp), List.filter_cons_of_pos (by simp [hkey])] at heq
        exact (List.cons.inj heq).1
      subst hab
      rw [ih hperm.cons_inv hrest hrest' fun v => ?_]
      have heq := hall v
      by_cases hv : key a = v
      · rw [List.filter_cons_of_pos (by simpa using hv), List.filter_cons_of_pos
          (by simpa using hv)]
          at heq
        exact (List.cons.inj heq).2
      · rwa [List.filter_cons_of_neg (by simpa using hv), List.filter_cons_of_neg
          (by simpa using hv)]
          at heq

/-- **There is one stable sort.** -/
theorem StableSort.unique (h₁ : StableSort key l l₁) (h₂ : StableSort key l l₂) : l₁ = l₂ :=
  eq_of_sorted (h₁.perm.trans h₂.perm.symm) h₁.sorted h₂.sorted
    fun v => (h₁.stable v).trans (h₂.stable v).symm

/-- The keys may be those of something that the elements name. -/
theorem StableSort.map {key : β → ℕ} {f : α → β} (h : StableSort (fun a => key (f a)) l l') :
    StableSort key (l.map f) (l'.map f) := by
  refine ⟨List.pairwise_map.mpr h.sorted, fun v => ?_⟩
  rw [List.filter_map, List.filter_map]
  exact congrArg (List.map f) (h.stable v)

/-- **Merge sort** is stable. -/
theorem StableSort.mergeSort (key : α → ℕ) (l : List α) :
    StableSort key l (l.mergeSort fun a b => decide (key a ≤ key b)) := by
  have htrans : ∀ a b c, decide (key a ≤ key b) = true → decide (key b ≤ key c) = true →
      decide (key a ≤ key c) = true := by
    simp only [decide_eq_true_eq]
    exact fun a b c => le_trans
  have htotal : ∀ a b, (decide (key a ≤ key b) || decide (key b ≤ key a)) = true := by
    simp only [Bool.or_eq_true, decide_eq_true_eq]
    exact fun a b => le_total _ _
  have hperm := List.mergeSort_perm l fun a b => decide (key a ≤ key b)
  refine ⟨(List.pairwise_mergeSort htrans htotal l).imp of_decide_eq_true, fun v => ?_⟩
  -- the elements with one key are a sorted sublist
  have hequal : (l.filter fun a => key a = v).Pairwise
      fun a b => decide (key a ≤ key b) = true := by
    rw [List.pairwise_filter]
    refine List.pairwise_of_forall fun a b ha hb => ?_
    simp only [decide_eq_true_eq] at ha hb ⊢
    omega
  have hsub := (List.sublist_mergeSort htrans htotal hequal List.filter_sublist).filter
    fun a => key a = v
  rw [List.filter_filter] at hsub
  simp only [Bool.and_self] at hsub
  exact (hsub.eq_of_length (hperm.filter _).length_eq.symm).symm

/-! ### Buckets -/

/-- The elements with the digits `0 .. n - 1`, one bucket after the other. -/
def buckets (digit : α → ℕ) (n : ℕ) (l : List α) : List α :=
  (List.range n).flatMap fun d => l.filter fun a => digit a = d

/-- Of lists that are empty but for one, that one is left. -/
theorem flatMap_single {f : ℕ → List α} {n k : ℕ} (hk : k < n) (hf : ∀ d, d ≠ k → f d = []) :
    (List.range n).flatMap f = f k := by
  induction n with
  | zero => exact absurd hk (Nat.not_lt_zero k)
  | succ n ih =>
    rw [List.range_succ, List.flatMap_append, List.flatMap_singleton]
    by_cases hkn : k = n
    · subst hkn
      rw [List.flatMap_eq_nil_iff.mpr fun d hd => hf d (List.mem_range.mp hd).ne, List.nil_append]
    · rw [hf n (Ne.symm hkn), List.append_nil, ih (by omega)]

/-- **One pass**: sorted by a key below `B`, the list is sorted by the digit first and this key
    next. -/
theorem StableSort.pass {digit : α → ℕ} {B n : ℕ} (h : StableSort key l l')
    (hdigit : ∀ a, digit a < n) (hkey : ∀ a, key a < B) :
    StableSort (fun a => digit a * B + key a) l (buckets digit n l') := by
  refine ⟨?_, fun v => ?_⟩
  · refine List.pairwise_flatMap.mpr ⟨fun d _ => ?_, ?_⟩
    · -- in one bucket the old order is that of the key
      rw [List.pairwise_filter]
      refine h.sorted.imp fun {a b} hab ha hb => ?_
      rw [decide_eq_true_eq] at ha hb
      rw [ha, hb]
      exact Nat.add_le_add_left hab _
    · refine (List.pairwise_lt_range ).imp fun {d e} hde a ha b hb => ?_
      obtain rfl : digit a = d := of_decide_eq_true (List.mem_filter.mp ha).2
      obtain rfl : digit b = e := of_decide_eq_true (List.mem_filter.mp hb).2
      calc digit a * B + key a ≤ digit a * B + B := Nat.add_le_add_left (hkey a).le _
        _ = (digit a + 1) * B := (Nat.succ_mul _ _).symm
        _ ≤ digit b * B := Nat.mul_le_mul_right B hde
        _ ≤ digit b * B + key b := Nat.le_add_right _ _
  · have hiff : ∀ a, digit a * B + key a = v ↔ digit a = v / B ∧ key a = v % B := by
      intro a
      have hpos : 0 < B := Nat.zero_lt_of_lt (hkey a)
      constructor
      · rintro rfl
        rw [Nat.mul_comm, Nat.mul_add_div hpos, Nat.div_eq_of_lt (hkey a), Nat.mul_add_mod,
          Nat.mod_eq_of_lt (hkey a)]
        exact ⟨(Nat.add_zero _).symm, rfl⟩
      · rintro ⟨hd, hk⟩
        rw [hd, hk, Nat.mul_comm]
        exact Nat.div_add_mod v B
    have hfilter : ∀ m : List α, (m.filter fun a => digit a * B + key a = v) =
        (m.filter fun a => key a = v % B).filter fun a => digit a = v / B := by
      intro m
      rw [List.filter_filter]
      refine List.filter_congr fun a _ => ?_
      rw [← Bool.decide_and]
      exact decide_eq_decide.mpr (hiff a)
    rw [hfilter l, ← h.stable, ← hfilter l']
    unfold buckets
    rw [List.filter_flatMap]
    have hbucket : ∀ d, (l'.filter fun a => digit a = d).filter
        (fun a => digit a * B + key a = v) =
        if d = v / B then l'.filter fun a => digit a * B + key a = v else [] := by
      intro d
      rw [List.filter_filter]
      split_ifs with hd
      · refine List.filter_congr fun a _ => ?_
        rw [← Bool.decide_and]
        refine decide_eq_decide.mpr (and_iff_left_of_imp fun ha => ?_)
        exact ((hiff a).mp ha).1.trans hd.symm
      · refine List.filter_eq_nil_iff.mpr fun a _ => ?_
        rw [← Bool.decide_and, decide_eq_true_eq]
        rintro ⟨ha, rfl⟩
        exact hd ((hiff a).mp ha).1
    simp only [hbucket]
    by_cases hlt : v / B < n
    · rw [flatMap_single hlt fun d hd => if_neg hd, if_pos rfl]
    · rw [List.flatMap_eq_nil_iff.mpr fun d hd => if_neg (by
        have := List.mem_range.mp hd
        omega)]
      refine (List.filter_eq_nil_iff.mpr fun a _ => ?_).symm
      rw [decide_eq_true_eq]
      intro ha
      exact hlt (((hiff a).mp ha).1 ▸ hdigit a)

/-- A list is sorted by no digits. -/
theorem StableSort.start (key : α → ℕ) (B : ℕ) (l : List α) :
    StableSort (fun a => key a % B ^ 0) l l := by
  refine ⟨List.pairwise_of_forall fun a b => ?_, fun v => rfl⟩
  rw [pow_zero, Nat.mod_one, Nat.mod_one]

/-- **One digit more.** -/
theorem StableSort.digits {B i : ℕ} (hB : 0 < B) (h : StableSort (fun a => key a % B ^ i) l l') :
    StableSort (fun a => key a % B ^ (i + 1)) l (buckets (fun a => key a / B ^ i % B) B l') := by
  have hdigit : ∀ a, key a / B ^ i % B < B := fun a => Nat.mod_lt _ hB
  have hpass := h.pass hdigit
    fun a => Nat.mod_lt _ (pow_pos hB i)
  have hkey : (fun a => key a / B ^ i % B * B ^ i + key a % B ^ i) =
      fun a => key a % B ^ (i + 1) := by
    ext a
    rw [Nat.mod_pow_succ, Nat.add_comm, Nat.mul_comm]
  rwa [hkey] at hpass

end CohKernel.Lib
