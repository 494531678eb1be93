import Mathlib.Tactic
import Mathlib.Data.Nat.Bitwise

namespace CohKernel.Lib.MaxTree

/-!
# The implicit max tree

A complete binary tree with `K` leaves kept in an array the way a binary heap is: node `i`
has the children `2 * i` and `2 * i + 1`, the leaves are the nodes `K .. 2 * K - 1`, and
every interior node holds the maximum of its two children (`IsMaxTree`).  Node `0` is not
part of the tree; the climbing loops use it as a sentinel.

* `raise` / `lower` — the climbing loops that repair the path from a leaf that has grown or shrunk;
* `raise_leaf` / `lower_leaf` — they store the new value of the leaf and restore `IsMaxTree`;
* `copyLevels_isMaxTree` — copying every level one level down doubles the number of leaves;
* `descendLeft_spec`, `descendLeft_leftmost` — the descent that prefers the left child ends in
  the first leaf that is large enough;
* `climbLeft_spec`, `descendRight_spec` — the two halves of the search for the nearest
  positive leaf to the left of a given leaf.
-/

variable {α : Type*} [LinearOrder α]

/-- Every interior node of the tree with `K` leaves is the maximum of its children. -/
def IsMaxTree (B : ℕ → α) (K : ℕ) : Prop :=
  ∀ i, 1 ≤ i → i < K → B i = max (B (2 * i)) (B (2 * i + 1))

/-- Climb from node `b` while the nodes are below `m`, setting them to `m`. -/
def raise (m : α) : ℕ → ℕ → (ℕ → α) → Option (ℕ → α)
  | 0, _, _ => none
  | fuel + 1, b, B =>
      if B b < m then raise m fuel (b / 2) (Function.update B b m) else some B

/-- Climb from node `b` while the nodes are above `m`, setting them to `m` and then taking
    the sibling into account. -/
def lower : ℕ → α → ℕ → (ℕ → α) → Option (ℕ → α)
  | 0, _, _, _ => none
  | fuel + 1, m, b, B =>
      if m < B b then
        let B' := Function.update B b m
        let temp := B' (b ^^^ 1)
        lower fuel (if m < temp then temp else m) (b / 2) B'
      else some B

/-- Descend from node `b` to a leaf, taking the left child whenever it is at least `n`. -/
def descendLeft (B : ℕ → α) (K : ℕ) (n : α) : ℕ → ℕ → Option ℕ
  | 0, _ => none
  | fuel + 1, b =>
      if b < K then
        let left := 2 * b
        descendLeft B K n fuel (if B left < n then left + 1 else left)
      else some b

/-! ### Siblings and parents -/

theorem two_mul_xor_one (i : ℕ) : (2 * i) ^^^ 1 = 2 * i + 1 :=
  Nat.xor_one_of_even (even_two_mul i)

theorem two_mul_add_one_xor_one (i : ℕ) : (2 * i + 1) ^^^ 1 = 2 * i := by
  rw [Nat.xor_one_of_odd ⟨i, rfl⟩]; omega

/-- A node and its sibling are the two children of the parent. -/
theorem max_sibling (B : ℕ → α) (b : ℕ) :
    max (B b) (B (b ^^^ 1)) = max (B (2 * (b / 2))) (B (2 * (b / 2) + 1)) := by
  rcases Nat.even_or_odd' b with ⟨i, rfl | rfl⟩
  · rw [two_mul_xor_one, show 2 * i / 2 = i by omega]
  · rw [two_mul_add_one_xor_one, show (2 * i + 1) / 2 = i by omega, max_comm]

theorem xor_one_ne (b : ℕ) : b ^^^ 1 ≠ b := by
  rcases Nat.even_or_odd' b with ⟨i, rfl | rfl⟩
  · rw [two_mul_xor_one]; omega
  · rw [two_mul_add_one_xor_one]; omega

/-! ### Raising a leaf -/

/-- Setting node `b` to `m` only disturbs the maximum of its parent's children. -/
theorem children_update {B : ℕ → α} {b i : ℕ} (m : α) (hi : i ≠ b / 2) :
    max (Function.update B b m (2 * i)) (Function.update B b m (2 * i + 1))
      = max (B (2 * i)) (B (2 * i + 1)) := by
  rw [Function.update_of_ne (by omega), Function.update_of_ne (by omega)]

/-- The maximum of the parent's children after node `b` has been set to `m`. -/
theorem children_update_parent (B : ℕ → α) (b : ℕ) (m : α) :
    max (Function.update B b m (2 * (b / 2))) (Function.update B b m (2 * (b / 2) + 1))
      = max m (B (b ^^^ 1)) := by
  rw [← max_sibling, Function.update_self, Function.update_of_ne (xor_one_ne b)]

/-- The loop invariant of `raise` at node `b`: the tree is exact except at `b`, whose
    children may exceed it by `m`. -/
structure RaiseAt (B : ℕ → α) (K : ℕ) (m : α) (b : ℕ) : Prop where
  exact : ∀ i, 1 ≤ i → i < K → i ≠ b → B i = max (B (2 * i)) (B (2 * i + 1))
  here : 1 ≤ b → b < K → max (B (2 * b)) (B (2 * b + 1)) = max (B b) m
  sentinel : B 0 = m

/-- One climbing step of `raise` moves the exception to the parent. -/
theorem RaiseAt.step {B : ℕ → α} {K : ℕ} {m : α} {b : ℕ} (h : RaiseAt B K m b)
    (hb : B b < m) (hbK : b < 2 * K) : RaiseAt (Function.update B b m) K m (b / 2) := by
  have hb0 : b ≠ 0 := by rintro rfl; exact absurd h.sentinel hb.ne
  refine ⟨?_, ?_, ?_⟩
  · intro i hi hiK hne
    rw [children_update m hne]
    by_cases hib : i = b
    · subst hib
      rw [Function.update_self, h.here hi hiK, max_eq_right hb.le]
    · rw [Function.update_of_ne hib]
      exact h.exact i hi hiK hib
  · intro hp hpK
    rw [children_update_parent, Function.update_of_ne (by omega)]
    have hpar := h.exact (b / 2) hp hpK (by omega)
    rw [← max_sibling] at hpar
    rw [hpar, max_right_comm, max_eq_right hb.le]
  · rw [Function.update_of_ne (Ne.symm hb0)]
    exact h.sentinel

/-- **Raising.** From a node where the loop invariant holds, `raise` ends in an exact tree
    and changes nothing outside the interior nodes it climbs through. -/
theorem raise_spec {K : ℕ} {m : α} : ∀ (fuel b : ℕ) (B : ℕ → α), b < fuel → b < K →
    RaiseAt B K m b →
    ∃ B', raise m fuel b B = some B' ∧ IsMaxTree B' K ∧ ∀ i, K ≤ i → B' i = B i := by
  intro fuel
  induction fuel with
  | zero => intro b B hf; omega
  | succ fuel ih =>
    intro b B hf hbK h
    unfold raise
    by_cases hb : B b < m
    · rw [if_pos hb]
      have hb0 : b ≠ 0 := by rintro rfl; exact absurd h.sentinel hb.ne
      obtain ⟨B', hr, htree, hframe⟩ :=
        ih (b / 2) (Function.update B b m) (by omega) (by omega) (h.step hb (by omega))
      refine ⟨B', hr, htree, fun i hi => ?_⟩
      rw [hframe i hi, Function.update_of_ne (by omega)]
    · rw [if_neg hb]
      refine ⟨B, rfl, fun i hi hiK => ?_, fun i _ => rfl⟩
      by_cases hib : i = b
      · subst hib
        rw [h.here hi hiK, max_eq_left (not_lt.mp hb)]
      · exact h.exact i hi hiK hib

/-- **Raising a leaf.** With the sentinel set to `m`, `raise` from leaf `b` makes that leaf
    the maximum of its old value and `m`, and restores the tree above it. -/
theorem raise_leaf {B : ℕ → α} {K b : ℕ} {m : α} (fuel : ℕ) (ht : IsMaxTree B K) (h0 : B 0 = m)
    (hb : K ≤ b) (hbK : b < 2 * K) (hf : b < fuel) :
    ∃ B', raise m fuel b B = some B' ∧ IsMaxTree B' K ∧ B' b = max (B b) m ∧
      ∀ i, K ≤ i → i ≠ b → B' i = B i := by
  have hat : RaiseAt B K m b :=
    ⟨fun i hi hiK _ => ht i hi hiK, fun _ hlt => absurd hlt (by omega), h0⟩
  obtain ⟨fuel, rfl⟩ : ∃ k, fuel = k + 1 := ⟨fuel - 1, by omega⟩
  unfold raise
  by_cases hlt : B b < m
  · rw [if_pos hlt]
    obtain ⟨B', hr, htree, hframe⟩ :=
      raise_spec fuel (b / 2) (Function.update B b m) (by omega) (by omega) (hat.step hlt hbK)
    refine ⟨B', hr, htree, ?_, fun i hi hib => ?_⟩
    · rw [hframe b hb, Function.update_self, max_eq_right hlt.le]
    · rw [hframe i hi, Function.update_of_ne hib]
  · rw [if_neg hlt]
    exact ⟨B, rfl, ht, (max_eq_left (not_lt.mp hlt)).symm, fun i _ _ => rfl⟩

/-! ### Lowering a leaf -/

/-- The loop invariant of `lower` at node `b`: the tree is exact except at `b`, whose
    children now have the maximum `m`, which does not exceed it. -/
structure LowerAt (B : ℕ → α) (K : ℕ) (m : α) (b : ℕ) : Prop where
  exact : ∀ i, 1 ≤ i → i < K → i ≠ b → B i = max (B (2 * i)) (B (2 * i + 1))
  here : 1 ≤ b → b < K → max (B (2 * b)) (B (2 * b + 1)) = m
  le : 1 ≤ b → m ≤ B b
  sentinel : B 0 ≤ m

/-- The value `lower` carries to the parent is the maximum of the two siblings. -/
theorem lower_carry (m t : α) : (if m < t then t else m) = max m t := by
  split_ifs with h
  · exact (max_eq_right h.le).symm
  · exact (max_eq_left (not_lt.mp h)).symm

/-- One climbing step of `lower` moves the exception to the parent. -/
theorem LowerAt.step {B : ℕ → α} {K : ℕ} {m : α} {b : ℕ} (h : LowerAt B K m b)
    (hb : m < B b) (hbK : b < 2 * K) :
    LowerAt (Function.update B b m) K (max m (B (b ^^^ 1))) (b / 2) := by
  have hb0 : b ≠ 0 := by rintro rfl; exact absurd h.sentinel (not_le.mpr hb)
  refine ⟨?_, fun _ _ => children_update_parent B b m, ?_, ?_⟩
  · intro i hi hiK hne
    rw [children_update m hne]
    by_cases hib : i = b
    · subst hib
      rw [Function.update_self, h.here hi hiK]
    · rw [Function.update_of_ne hib]
      exact h.exact i hi hiK hib
  · intro hp
    rw [Function.update_of_ne (by omega), h.exact (b / 2) hp (by omega) (by omega),
      ← max_sibling]
    exact max_le_max hb.le le_rfl
  · rw [Function.update_of_ne (Ne.symm hb0)]
    exact le_max_of_le_left h.sentinel

/-- **Lowering.** From a node where the loop invariant holds, `lower` ends in an exact tree
    and changes nothing outside the interior nodes it climbs through. -/
theorem lower_spec {K : ℕ} : ∀ (fuel : ℕ) (m : α) (b : ℕ) (B : ℕ → α), b < fuel → b < K →
    LowerAt B K m b →
    ∃ B', lower fuel m b B = some B' ∧ IsMaxTree B' K ∧ ∀ i, K ≤ i → B' i = B i := by
  intro fuel
  induction fuel with
  | zero => intro m b B hf; omega
  | succ fuel ih =>
    intro m b B hf hbK h
    unfold lower
    by_cases hb : m < B b
    · have hb0 : b ≠ 0 := by rintro rfl; exact absurd h.sentinel (not_le.mpr hb)
      obtain ⟨B', hr, htree, hframe⟩ :=
        ih _ (b / 2) (Function.update B b m) (by omega) (by omega) (h.step hb (by omega))
      refine ⟨B', ?_, htree, fun i hi => ?_⟩
      · simp only [if_pos hb, Function.update_of_ne (xor_one_ne b), lower_carry, hr]
      · rw [hframe i hi, Function.update_of_ne (by omega)]
    · rw [if_neg hb]
      refine ⟨B, rfl, fun i hi hiK => ?_, fun i _ => rfl⟩
      by_cases hib : i = b
      · subst hib
        rw [h.here hi hiK]
        exact le_antisymm (not_lt.mp hb) (h.le hi)
      · exact h.exact i hi hiK hib

/-- **Lowering a leaf.** `lower` from leaf `b` with a value `m` that does not exceed it gives
    the leaf the value `m` and restores the tree above it. -/
theorem lower_leaf {B : ℕ → α} {K b : ℕ} {m : α} (fuel : ℕ) (ht : IsMaxTree B K) (h0 : B 0 ≤ m)
    (hm : m ≤ B b) (hb : K ≤ b) (hbK : b < 2 * K) (hf : b < fuel) :
    ∃ B', lower fuel m b B = some B' ∧ IsMaxTree B' K ∧ B' b = m ∧
      ∀ i, K ≤ i → i ≠ b → B' i = B i := by
  have hat : LowerAt B K m b :=
    ⟨fun i hi hiK _ => ht i hi hiK, fun _ hlt => absurd hlt (by omega), fun _ => hm, h0⟩
  obtain ⟨fuel, rfl⟩ : ∃ k, fuel = k + 1 := ⟨fuel - 1, by omega⟩
  unfold lower
  by_cases hlt : m < B b
  · obtain ⟨B', hr, htree, hframe⟩ :=
      lower_spec fuel _ (b / 2) (Function.update B b m) (by omega) (by omega) (hat.step hlt hbK)
    refine ⟨B', ?_, htree, ?_, fun i hi hib => ?_⟩
    · simp only [if_pos hlt, Function.update_of_ne (xor_one_ne b), lower_carry, hr]
    · rw [hframe b hb, Function.update_self]
    · rw [hframe i hi, Function.update_of_ne hib]
  · rw [if_neg hlt]
    exact ⟨B, rfl, ht, le_antisymm (not_lt.mp hlt) hm, fun i _ _ => rfl⟩

/-! ### Levels and descents -/

/-- Node `i` is on level `d` of the tree, the root being on level `0`. -/
def AtLevel (d i : ℕ) : Prop := 2 ^ d ≤ i ∧ i < 2 ^ (d + 1)

theorem AtLevel.left {d i : ℕ} (h : AtLevel d i) : AtLevel (d + 1) (2 * i) := by
  obtain ⟨hlo, hhi⟩ := h
  exact ⟨by rw [pow_succ]; omega, by rw [pow_succ]; omega⟩

theorem AtLevel.right {d i : ℕ} (h : AtLevel d i) : AtLevel (d + 1) (2 * i + 1) := by
  obtain ⟨hlo, hhi⟩ := h
  exact ⟨by rw [pow_succ]; omega, by rw [pow_succ]; omega⟩

theorem AtLevel.pos {d i : ℕ} (h : AtLevel d i) : 1 ≤ i :=
  le_trans (Nat.one_le_two_pow) h.1

/-- Nodes above the leaf level `j` are the ones below `2 ^ j`. -/
theorem AtLevel.lt_iff {d j i : ℕ} (h : AtLevel d i) (hdj : d ≤ j) : i < 2 ^ j ↔ d < j := by
  constructor
  · intro hi
    by_contra hd
    have : d = j := by omega
    subst this
    exact absurd h.1 (not_le.mpr hi)
  · intro hd
    exact lt_of_lt_of_le h.2 (Nat.pow_le_pow_right (by norm_num) hd)

/-- **Leftmost fit.** From a node that holds at least `n`, `descendLeft` ends in a leaf that
    holds at least `n`. -/
theorem descendLeft_spec {B : ℕ → α} {j : ℕ} {n : α} (ht : IsMaxTree B (2 ^ j)) :
    ∀ (fuel d b : ℕ), d ≤ j → j - d < fuel → AtLevel d b → n ≤ B b →
    ∃ y, descendLeft B (2 ^ j) n fuel b = some y ∧ AtLevel j y ∧ n ≤ B y := by
  intro fuel
  induction fuel with
  | zero => intro d b _ hf; omega
  | succ fuel ih =>
    intro d b hdj hf hlev hn
    unfold descendLeft
    by_cases hb : b < 2 ^ j
    · have hd : d < j := (hlev.lt_iff hdj).mp hb
      rw [if_pos hb]
      have hmax := ht b hlev.pos hb
      by_cases hl : B (2 * b) < n
      · simp only [if_pos hl]
        refine ih (d + 1) (2 * b + 1) hd (by omega) hlev.right ?_
        rcases max_choice (B (2 * b)) (B (2 * b + 1)) with h | h <;> rw [h] at hmax
        · exact absurd (hmax ▸ hn) (not_le.mpr hl)
        · exact hmax ▸ hn
      · simp only [if_neg hl]
        exact ih (d + 1) (2 * b) hd (by omega) hlev.left (not_lt.mp hl)
    · have hd : d = j := by
        by_contra hne
        exact hb ((hlev.lt_iff hdj).mpr (by omega))
      rw [if_neg hb]
      exact ⟨b, rfl, hd ▸ hlev, hn⟩

/-- A node holds no more than the root. -/
theorem le_root {B : ℕ → α} {K : ℕ} (ht : IsMaxTree B K) (i : ℕ) (hi : 1 ≤ i) (hK : i < 2 * K) :
    B i ≤ B 1 := by
  induction i using Nat.strong_induction_on with
  | _ i ih =>
    rcases Nat.eq_or_lt_of_le hi with rfl | hlt
    · exact le_rfl
    · refine le_trans ?_ (ih (i / 2) (by omega) (by omega) (by omega))
      rw [ht (i / 2) (by omega) (by omega), ← max_sibling]
      exact le_max_left _ _

/-- A leaf below a node holds no more than the node. -/
theorem leaf_le {B : ℕ → α} {j : ℕ} (ht : IsMaxTree B (2 ^ j)) (k d b i : ℕ) (hk : d + k = j)
    (hlev : AtLevel d b) (hlo : b * 2 ^ k ≤ i) (hhi : i < (b + 1) * 2 ^ k) : B i ≤ B b := by
  induction k generalizing d b with
  | zero =>
    have heq : i = b := by omega
    exact heq ▸ le_rfl
  | succ k ih =>
    have hb : b < 2 ^ j := (hlev.lt_iff (by omega)).mpr (by omega)
    rw [ht b hlev.pos hb]
    rw [pow_succ] at hlo hhi
    rcases Nat.lt_or_ge i ((2 * b + 1) * 2 ^ k) with hlt | hge
    · exact le_max_of_le_left
        (ih (d + 1) (2 * b) (by omega) hlev.left (by nlinarith) hlt)
    · exact le_max_of_le_right
        (ih (d + 1) (2 * b + 1) (by omega) hlev.right hge (by nlinarith))

/-- **No leaf on the left is large enough** when `descendLeft` goes past it. -/
theorem descendLeft_leftmost {B : ℕ → α} {j : ℕ} {n : α} (ht : IsMaxTree B (2 ^ j)) {y : ℕ} :
    ∀ (fuel k d b : ℕ), d + k = j → AtLevel d b → descendLeft B (2 ^ j) n fuel b = some y →
    (b * 2 ^ k ≤ y ∧ y < (b + 1) * 2 ^ k) ∧ ∀ i, b * 2 ^ k ≤ i → i < y → B i < n := by
  intro fuel
  induction fuel with
  | zero => intro k d b _ _ h; cases h
  | succ fuel ih =>
    intro k d b hk hlev h
    unfold descendLeft at h
    cases k with
    | zero =>
      rw [if_neg fun hb => by have := (hlev.lt_iff (by omega)).mp hb; omega] at h
      cases h
      exact ⟨by omega, fun i hlo hlt => by omega⟩
    | succ k =>
      rw [if_pos ((hlev.lt_iff (by omega)).mpr (by omega))] at h
      rw [pow_succ]
      by_cases hl : B (2 * b) < n
      · simp only [if_pos hl] at h
        obtain ⟨⟨hylo, hyhi⟩, hleft⟩ := ih k (d + 1) (2 * b + 1) (by omega) hlev.right h
        refine ⟨⟨by nlinarith, by nlinarith⟩, fun i hlo hlt => ?_⟩
        rcases Nat.lt_or_ge i ((2 * b + 1) * 2 ^ k) with hil | hir
        · exact (leaf_le ht k (d + 1) (2 * b) i (by omega) hlev.left (by nlinarith) hil).trans_lt hl
        · exact hleft i hir hlt
      · simp only [if_neg hl] at h
        obtain ⟨⟨hylo, hyhi⟩, hleft⟩ := ih k (d + 1) (2 * b) (by omega) hlev.left h
        exact ⟨⟨by nlinarith, by nlinarith⟩, fun i hlo hlt => hleft i (by nlinarith) hlt⟩

section Predecessor

variable [Zero α]

/-- Climb from node `b` while its left neighbour on the level holds zero. -/
def climbLeft (B : ℕ → α) : ℕ → ℕ → Option ℕ
  | 0, _ => none
  | fuel + 1, b => if B (b - 1) = 0 then climbLeft B fuel (b / 2) else some b

/-- Descend from node `b` to a leaf, taking the right child whenever it is positive. -/
def descendRight (B : ℕ → α) (K : ℕ) : ℕ → ℕ → Option ℕ
  | 0, _ => none
  | fuel + 1, b =>
      if b < K then
        let right := 2 * b + 1
        descendRight B K fuel (if B right ≤ 0 then right - 1 else right)
      else some b

/-- **Climbing.** From an ancestor of leaf `l`, `climbLeft` ends in an ancestor of `l` whose
    left neighbour is not zero; node `0` is the sentinel that stops it at the root. -/
theorem climbLeft_spec {B : ℕ → α} {j l : ℕ} (h0 : B 0 ≠ 0) :
    ∀ (fuel d b : ℕ), d ≤ j → b < fuel → AtLevel d b → b * 2 ^ (j - d) ≤ l →
    ∃ b' d', climbLeft B fuel b = some b' ∧ B (b' - 1) ≠ 0 ∧ d' ≤ j ∧ AtLevel d' b' ∧
      b' * 2 ^ (j - d') ≤ l := by
  intro fuel
  induction fuel with
  | zero => intro d b _ hf; omega
  | succ fuel ih =>
    intro d b hdj hf hlev hl
    unfold climbLeft
    by_cases hz : B (b - 1) = 0
    · rw [if_pos hz]
      cases d with
      | zero =>
        have hb1 : b = 1 := by
          obtain ⟨h1, h2⟩ := hlev
          simp at h1 h2; omega
        subst hb1
        exact absurd hz h0
      | succ d =>
        refine ih d (b / 2) (by omega) ?_ ?_ ?_
        · have := hlev.pos; omega
        · obtain ⟨h1, h2⟩ := hlev
          rw [pow_succ] at h1 h2
          exact ⟨by omega, by omega⟩
        · refine le_trans ?_ hl
          rw [show j - d = (j - (d + 1)) + 1 by omega, pow_succ]
          calc b / 2 * (2 ^ (j - (d + 1)) * 2) = b / 2 * 2 * 2 ^ (j - (d + 1)) := by ring
            _ ≤ b * 2 ^ (j - (d + 1)) := Nat.mul_le_mul_right _ (Nat.div_mul_le_self b 2)
    · rw [if_neg hz]
      exact ⟨b, d, rfl, hz, hdj, hlev, hl⟩

/-- **Rightmost positive leaf.** From a positive node `descendRight` ends in a positive leaf
    of its subtree; if that subtree lies to the left of leaf `l`, so does the leaf. -/
theorem descendRight_spec {B : ℕ → α} {j l : ℕ} (ht : IsMaxTree B (2 ^ j)) :
    ∀ (fuel d b : ℕ), d ≤ j → j - d < fuel → AtLevel d b → 0 < B b →
    (b + 1) * 2 ^ (j - d) ≤ l →
    ∃ y, descendRight B (2 ^ j) fuel b = some y ∧ AtLevel j y ∧ 0 < B y ∧ y < l := by
  intro fuel
  induction fuel with
  | zero => intro d b _ hf; omega
  | succ fuel ih =>
    intro d b hdj hf hlev hpos hl
    unfold descendRight
    by_cases hb : b < 2 ^ j
    · have hd : d < j := (hlev.lt_iff hdj).mp hb
      have hpow : 2 ^ (j - d) = 2 * 2 ^ (j - (d + 1)) := by
        rw [show j - d = (j - (d + 1)) + 1 by omega, pow_succ]; ring
      have hl2 : (2 * b + 2) * 2 ^ (j - (d + 1)) ≤ l := by
        calc (2 * b + 2) * 2 ^ (j - (d + 1)) = (b + 1) * (2 * 2 ^ (j - (d + 1))) := by ring
          _ ≤ l := hpow ▸ hl
      rw [if_pos hb]
      have hmax := ht b hlev.pos hb
      by_cases hr : B (2 * b + 1) ≤ 0
      · simp only [if_pos hr, Nat.add_sub_cancel]
        refine ih (d + 1) (2 * b) hd (by omega) hlev.left ?_ ?_
        · rcases max_choice (B (2 * b)) (B (2 * b + 1)) with h | h <;> rw [h] at hmax
          · exact hmax ▸ hpos
          · exact absurd (hmax ▸ hpos) (not_lt.mpr hr)
        · exact le_trans (Nat.mul_le_mul_right _ (by omega)) hl2
      · simp only [if_neg hr]
        exact ih (d + 1) (2 * b + 1) hd (by omega) hlev.right (not_le.mp hr) hl2
    · have hd : d = j := by
        by_contra hne
        exact hb ((hlev.lt_iff hdj).mpr (by omega))
      subst hd
      rw [if_neg hb]
      exact ⟨b, rfl, hlev, hpos, by simp at hl; omega⟩

/-! ### Doubling the number of leaves -/

/-- Copy the `k` nodes of one level into the left half of the next level down and clear the
    right half. -/
def copyLevel (k : ℕ) (B : ℕ → α) : ℕ → α :=
  (List.range k).foldl
    (fun B i => Function.update (Function.update B (2 * k + i) (B (k + i))) (3 * k + i) 0) B

/-- Copy every level into the next one, from the `k` leaves up to the root. -/
def copyLevels : ℕ → ℕ → (ℕ → α) → ℕ → α
  | 0, _, B => B
  | fuel + 1, k, B => if 0 < k then copyLevels fuel (k / 2) (copyLevel k B) else B

/-- What a copied level holds: the level above it on the left, zeroes on the right. -/
theorem copyLevel_apply (k : ℕ) (B : ℕ → α) (s : ℕ) :
    copyLevel k B s
      = if 2 * k ≤ s ∧ s < 3 * k then B (s - k)
        else if 3 * k ≤ s ∧ s < 4 * k then 0 else B s := by
  have key : ∀ n, n ≤ k → ∀ s,
      (List.range n).foldl
        (fun B i => Function.update (Function.update B (2 * k + i) (B (k + i))) (3 * k + i) 0) B s
      = if 2 * k ≤ s ∧ s < 2 * k + n then B (s - k)
        else if 3 * k ≤ s ∧ s < 3 * k + n then 0 else B s := by
    intro n
    induction n with
    | zero => intro _ s; rw [if_neg (by omega), if_neg (by omega)]; rfl
    | succ n ih =>
      intro hn s
      rw [List.range_succ, List.foldl_append, List.foldl_cons, List.foldl_nil]
      by_cases h3 : s = 3 * k + n
      · subst h3
        rw [Function.update_self, if_neg (by omega), if_pos (by omega)]
      · rw [Function.update_of_ne h3]
        by_cases h2 : s = 2 * k + n
        · subst h2
          rw [Function.update_self, ih (by omega), if_neg (by omega), if_neg (by omega),
            if_pos (by omega), show 2 * k + n - k = k + n by omega]
        · rw [Function.update_of_ne h2, ih (by omega)]
          split_ifs <;> first | rfl | omega
  have h := key k le_rfl s
  rw [show 2 * k + k = 3 * k by ring, show 3 * k + k = 4 * k by ring] at h
  exact h

/-- Copying the levels from `2 ^ d` nodes up touches nodes `2 .. 4 * 2 ^ d - 1` only. -/
theorem copyLevels_frame : ∀ (d fuel : ℕ) (B : ℕ → α) (s : ℕ), d < fuel →
    s < 2 ∨ 4 * 2 ^ d ≤ s → copyLevels fuel (2 ^ d) B s = B s := by
  intro d
  induction d with
  | zero =>
    intro fuel B s hf hs
    obtain ⟨fuel, rfl⟩ : ∃ k, fuel = k + 1 := ⟨fuel - 1, by omega⟩
    have hstop : ∀ B' : ℕ → α, copyLevels fuel 0 B' = B' := by
      intro B'; cases fuel <;> simp [copyLevels]
    simp only [copyLevels, pow_zero, Nat.zero_lt_one, if_true, Nat.reduceDiv, hstop]
    rw [copyLevel_apply, if_neg (by omega), if_neg (by omega)]
  | succ d ih =>
    intro fuel B s hf hs
    obtain ⟨fuel, rfl⟩ : ∃ k, fuel = k + 1 := ⟨fuel - 1, by omega⟩
    have hhalf : 2 ^ (d + 1) / 2 = 2 ^ d := by rw [pow_succ]; omega
    rw [copyLevels, if_pos (by positivity), hhalf, ih fuel _ s (by omega)
      (by rw [pow_succ] at hs; omega), copyLevel_apply, if_neg (by omega), if_neg (by omega)]

/-- What the copied levels hold: every level is the old level above it, padded by zeroes. -/
theorem copyLevels_apply : ∀ (d fuel : ℕ) (B : ℕ → α), d < fuel → ∀ e ≤ d, ∀ i < 2 ^ e,
    copyLevels fuel (2 ^ d) B (2 * 2 ^ e + i) = B (2 ^ e + i) ∧
      copyLevels fuel (2 ^ d) B (3 * 2 ^ e + i) = 0 := by
  intro d
  induction d with
  | zero =>
    intro fuel B hf e he i hi
    obtain rfl : e = 0 := by omega
    obtain rfl : i = 0 := by simpa using hi
    obtain ⟨fuel, rfl⟩ : ∃ k, fuel = k + 1 := ⟨fuel - 1, by omega⟩
    have hstop : ∀ B' : ℕ → α, copyLevels fuel 0 B' = B' := by
      intro B'; cases fuel <;> simp [copyLevels]
    simp [copyLevels, hstop, copyLevel_apply]
  | succ d ih =>
    intro fuel B hf e he i hi
    obtain ⟨fuel, rfl⟩ : ∃ k, fuel = k + 1 := ⟨fuel - 1, by omega⟩
    have hhalf : 2 ^ (d + 1) / 2 = 2 ^ d := by rw [pow_succ]; omega
    have hpow : 2 ^ (d + 1) = 2 * 2 ^ d := by rw [pow_succ]; ring
    rw [copyLevels, if_pos (by positivity), hhalf]
    rcases Nat.lt_or_ge d e with hde | hde
    · -- the level just copied: the rest of the loop works above it
      obtain rfl : e = d + 1 := by omega
      rw [copyLevels_frame d fuel _ _ (by omega) (by omega),
        copyLevels_frame d fuel _ _ (by omega) (by omega), copyLevel_apply, copyLevel_apply,
        if_pos (by omega), if_neg (by omega), if_pos (by omega),
        show 2 * 2 ^ (d + 1) + i - 2 ^ (d + 1) = 2 ^ (d + 1) + i by omega]
      exact ⟨rfl, rfl⟩
    · have hle : 2 ^ e ≤ 2 ^ d := Nat.pow_le_pow_right (by norm_num) hde
      obtain ⟨h2, h3⟩ := ih fuel (copyLevel (2 ^ (d + 1)) B) (by omega) e hde i hi
      rw [copyLevel_apply, if_neg (by omega), if_neg (by omega)] at h2
      exact ⟨h2, h3⟩

/-- Every node below the root is in the left or the right half of its level. -/
theorem exists_half {s : ℕ} (hs : 2 ≤ s) :
    ∃ e i, i < 2 ^ e ∧ (s = 2 * 2 ^ e + i ∨ s = 3 * 2 ^ e + i) := by
  have hlog : 1 ≤ Nat.log 2 s := Nat.log_pos (by norm_num) hs
  have hlo := Nat.pow_log_le_self 2 (x := s) (by omega)
  have hhi := Nat.lt_pow_succ_log_self (b := 2) (by norm_num) s
  obtain ⟨e, he⟩ : ∃ e, Nat.log 2 s = e + 1 := ⟨Nat.log 2 s - 1, by omega⟩
  rw [he, pow_succ] at hlo
  rw [he, Nat.succ_eq_add_one, pow_succ, pow_succ] at hhi
  rcases Nat.lt_or_ge s (3 * 2 ^ e) with h | h
  · exact ⟨e, s - 2 * 2 ^ e, by omega, Or.inl (by omega)⟩
  · exact ⟨e, s - 3 * 2 ^ e, by omega, Or.inr (by omega)⟩

/-- **Doubling.** Copying every level down gives an exact tree with twice the leaves. -/
theorem copyLevels_isMaxTree {B : ℕ → α} {j fuel : ℕ} (ht : IsMaxTree B (2 ^ j))
    (hroot : 0 ≤ B 1) (hf : j < fuel) :
    IsMaxTree (copyLevels fuel (2 ^ j) B) (2 * 2 ^ j) := by
  intro s hs hsK
  have hone := copyLevels_frame j fuel B 1 hf (Or.inl (by norm_num))
  have hrest := copyLevels_apply j fuel B hf
  rcases Nat.lt_or_ge s 2 with hlt | hge
  · obtain rfl : s = 1 := by omega
    have h0 := hrest 0 (Nat.zero_le j) 0 (by norm_num)
    simp only [pow_zero, mul_one, add_zero] at h0
    rw [hone, show 2 * 1 = 2 from rfl, h0.1, h0.2, max_eq_left hroot]
  · obtain ⟨e, i, hi, hse⟩ := exists_half hge
    have hej : e < j := by
      by_contra hej
      have : 2 ^ j ≤ 2 ^ e := Nat.pow_le_pow_right (by norm_num) (by omega)
      omega
    have hpow : 2 ^ (e + 1) = 2 * 2 ^ e := by rw [pow_succ]; ring
    have hle : 2 ^ (e + 1) ≤ 2 ^ j := Nat.pow_le_pow_right (by norm_num) hej
    have hhere := hrest e (by omega) i hi
    have hl := hrest (e + 1) hej (2 * i) (by omega)
    have hr := hrest (e + 1) hej (2 * i + 1) (by omega)
    rcases hse with rfl | rfl
    · rw [hhere.1, show 2 * (2 * 2 ^ e + i) = 2 * 2 ^ (e + 1) + 2 * i by omega,
        show 2 * 2 ^ (e + 1) + 2 * i + 1 = 2 * 2 ^ (e + 1) + (2 * i + 1) by omega, hl.1, hr.1,
        ht (2 ^ e + i) (by omega) (by omega), hpow]
      ring_nf
    · rw [hhere.2, show 2 * (3 * 2 ^ e + i) = 3 * 2 ^ (e + 1) + 2 * i by omega,
        show 3 * 2 ^ (e + 1) + 2 * i + 1 = 3 * 2 ^ (e + 1) + (2 * i + 1) by omega, hl.2, hr.2,
        max_self]

end Predecessor

end CohKernel.Lib.MaxTree
