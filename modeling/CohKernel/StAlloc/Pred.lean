import CohKernel.StAlloc.Invariant

namespace CohKernel.StAlloc

open CohKernel.Lib

/-!
# The predecessor of a block

`stPred_spec`: on a heap that satisfies the invariant `st_pred` finds the block before any
block but the first, and changes nothing but the sentinel cell of the index heap.  The
bucket it starts from is either the block's own, or the nearest one on the left that has a
free block, or bucket `0`; the first-block pointer of each of them is a block before `a`.
-/

variable {q : HeapControl} {S : ℕ → Prop}

/-- Changing the sentinel keeps the invariant. -/
theorem Inv.setSentinel (h : Inv q S) (v : ℤ) :
    Inv { q with bucketBiggest := Function.update q.bucketBiggest 0 v } S := by
  have hpos := h.geometry.inuse_pos
  have hleaf : ∀ k, HeapControl.leafOf
      { q with bucketBiggest := Function.update q.bucketBiggest 0 v } k = q.leafOf k := by
    intro k
    simp only [HeapControl.leafOf, HeapControl.leaf]
    rw [Function.update_of_ne (by omega)]
  refine ⟨⟨h.geometry.1, h.geometry.2, h.geometry.3, h.geometry.4⟩, h.blocks, ?_, ?_, ?_⟩
  · intro i hi hiK
    simp only
    rw [Function.update_of_ne (by omega), Function.update_of_ne (by omega),
      Function.update_of_ne (by omega)]
    exact h.tree i hi hiK
  · intro k
    exact ⟨(h.first k).le, (h.first k).found⟩
  · intro k
    rw [hleaf]
    exact ⟨(h.leaf k).nonneg, (h.leaf k).bound, (h.leaf k).attained⟩

/-- The walk of `st_pred` ends at the block before `a`. -/
theorem predWalk_spec {mem : ℕ → ℤ} {lo hi a : ℕ}
    (ht : Tiling (fun a => blockSize (mem a)) lo hi S) (ha : S a) :
    ∀ (fuel prev : ℕ), a - prev < fuel → prev < a → S prev →
    ∃ p, predWalk mem a fuel prev = some (p, a) ∧ S p ∧ p + blockSize (mem p) = a := by
  intro fuel
  induction fuel with
  | zero => intro prev hf; omega
  | succ fuel ih =>
    intro prev hf hlt hS
    have hpos := ht.pos hS
    have hgap : prev + blockSize (mem prev) ≤ a := ht.gap hS ha hlt
    have hnext : heapNext prev (mem prev) = prev + blockSize (mem prev) := rfl
    unfold predWalk
    by_cases hn : heapNext prev (mem prev) < a
    · simp only [if_pos hn]
      have hSn := ht.next hS (by have := ht.lt_hi ha; omega)
      exact ih _ (by omega) hn (hnext ▸ hSn)
    · simp only [if_neg hn]
      have heq : prev + blockSize (mem prev) = a := by omega
      exact ⟨prev, by rw [hnext, heq], hS, heq⟩

theorem isPowerOfTwo_two_pow (d : ℕ) : isPowerOfTwo (2 ^ d) = true := by
  rw [isPowerOfTwo, decide_eq_true_eq, Nat.land_comm, Nat.and_two_pow_sub_one_eq_mod,
    Nat.mod_self]

/-- A bucket with a positive leaf has its first block in it. -/
theorem Inv.first_of_leaf_pos (h : Inv q S) {k : ℕ} (hk : 0 < q.leafOf k) :
    S (q.firstOf k) ∧ q.heapBucket (q.firstOf k) = k := by
  rcases (h.leaf k).attained with h0 | ⟨b, hb, hbk, -⟩
  · omega
  · rcases (h.first k).found with hf | hf
    · exact hf
    · have hle := (h.first k).le b hb hbk
      have hlt := (h.geometry.lt_bucketEnd_iff (k := k) (h.blocks.tiling.lt_hi hb)
        (h.blocks.tiling.lo_le hb)).mpr hbk.le
      omega

/-- The first block of bucket `0` is the first block of the arena. -/
theorem Inv.first_zero (h : Inv q S) (hlt : q.arenaBase < q.arenaEnd) :
    q.firstOf 0 = q.arenaBase := by
  have hbase := h.blocks.tiling.start hlt
  have hb0 : q.heapBucket q.arenaBase = 0 := by simp [HeapControl.heapBucket]
  have hle := (h.first 0).le _ hbase hb0
  rcases (h.first 0).found with ⟨hf, -⟩ | hf
  · have := h.blocks.tiling.lo_le hf
    omega
  · have := (h.geometry.lt_bucketEnd_iff (k := 0) hlt le_rfl).mpr hb0.le
    omega

/-- The bucket `st_pred` starts from when `a` is the first block of its own bucket: its
    first-block pointer names a block before `a`. -/
theorem predBucket_spec (h : Inv q S) {a : ℕ} (ha : S a) (hbase : q.arenaBase < a) :
    ∃ k, predBucket { q with bucketBiggest := Function.update q.bucketBiggest 0 1 }
        (q.heapBucket a) = some k ∧ S (q.bucketFirst k) ∧ q.bucketFirst k < a := by
  obtain ⟨j, m, hj, -, -⟩ := h.geometry.inuse
  have hin := h.inuse ha
  have hlt := h.blocks.tiling.lt_hi ha
  have hinv := h.setSentinel 1
  set q' : HeapControl := { q with bucketBiggest := Function.update q.bucketBiggest 0 1 } with hq'
  have htree : MaxTree.IsMaxTree q'.bucketBiggest (2 ^ j) := hj ▸ hinv.tree
  obtain ⟨node, d, hnode, hne, hdj, hlev, hanc⟩ :=
    MaxTree.climbLeft_spec (B := q'.bucketBiggest) (j := j) (l := q.heapBucket a + q.bucketsInuse)
      (by simp [hq']) (q.heapBucket a + q.bucketsInuse + 1) j
      (q.heapBucket a + q.bucketsInuse) le_rfl (by omega)
      ⟨by omega, by rw [pow_succ]; omega⟩ (by simp)
  unfold predBucket
  rw [show q'.bucketsInuse = q.bucketsInuse from rfl]
  simp only [hnode, Option.bind_eq_bind, Option.bind_some]
  by_cases hp : isPowerOfTwo node = true
  · rw [if_pos hp]
    have hzero := h.first_zero (by omega)
    rw [HeapControl.firstOf, if_pos h.geometry.inuse_pos] at hzero
    exact ⟨0, rfl, hzero ▸ h.blocks.tiling.start (by omega), by omega⟩
  · rw [if_neg hp]
    -- the left neighbour is on the same level
    have hnd : node ≠ 2 ^ d := by rintro rfl; exact hp (isPowerOfTwo_two_pow d)
    obtain ⟨hlo, hhi⟩ := hlev
    have h1 : 1 ≤ 2 ^ d := Nat.one_le_two_pow
    have hlev' : MaxTree.AtLevel d (node - 1) := ⟨by omega, by omega⟩
    have hle : 2 ^ d ≤ 2 ^ j := Nat.pow_le_pow_right (by norm_num) hdj
    have hnn := hinv.index.node_nonneg (i := node - 1) (by omega)
      (by rw [show q'.bucketsInuse = 2 ^ j from hj]; rw [pow_succ] at hhi; omega)
    obtain ⟨y, hy, hylev, hypos, hyl⟩ :=
      MaxTree.descendRight_spec (l := q.heapBucket a + q.bucketsInuse) htree (2 ^ j + 1) d
        (node - 1) hdj (by have := Nat.lt_two_pow_self (n := j); omega) hlev'
        (lt_of_le_of_ne hnn (Ne.symm hne)) (by rw [Nat.sub_add_cancel (by omega)]; exact hanc)
    rw [hj, hy]
    simp only [Option.bind_some]
    obtain ⟨hylo, hyhi⟩ := hylev
    have hyK : y - q.bucketsInuse < q.bucketsInuse := by rw [pow_succ] at hyhi; omega
    have hleaf : q'.leafOf (y - q.bucketsInuse) = q'.bucketBiggest y := by
      rw [HeapControl.leafOf, if_pos (by exact hyK), HeapControl.leaf,
        show q'.bucketsInuse = q.bucketsInuse from rfl, Nat.sub_add_cancel (by omega)]
    obtain ⟨hSf, hbf⟩ := hinv.first_of_leaf_pos (k := y - q.bucketsInuse)
        (by rw [hleaf]; exact hypos)
    rw [HeapControl.firstOf, if_pos (by exact hyK)] at hSf hbf
    refine ⟨y - 2 ^ j, rfl, by rw [← hj]; exact hSf, ?_⟩
    rw [← hj]
    by_contra hcon
    have hmono : q.heapBucket a ≤ q.heapBucket (q.bucketFirst (y - q.bucketsInuse)) :=
      Nat.div_le_div_right (by omega)
    rw [show q.heapBucket (q.bucketFirst (y - q.bucketsInuse)) = y - q.bucketsInuse from hbf]
      at hmono
    omega

/-- **`st_pred`** returns the block before `a`; only the sentinel may have changed. -/
theorem stPred_spec (h : Inv q S) {a : ℕ} (ha : S a) (hbase : q.arenaBase < a) :
    ∃ p v, stPred q a (q.heapBucket a)
        = some (p, { q with bucketBiggest := Function.update q.bucketBiggest 0 v }) ∧
      S p ∧ p + blockSize (q.mem p) = a := by
  have hlt := h.blocks.tiling.lt_hi ha
  have hend := h.geometry.arenaEnd
  have hfuel : ∀ b, S b → a - b < q.walkFuel := by
    intro b hb
    have := h.blocks.tiling.lo_le hb
    unfold HeapControl.walkFuel
    omega
  have hin := h.inuse ha
  unfold stPred
  by_cases hf : q.bucketFirst (q.heapBucket a) = a
  · obtain ⟨k, hk, hSk, hka⟩ := predBucket_spec h ha hbase
    obtain ⟨p, hp, hSp, hpa⟩ := predWalk_spec h.blocks.tiling ha q.walkFuel _ (hfuel _ hSk) hka hSk
    refine ⟨p, 1, ?_, hSp, hpa⟩
    simp only [if_pos hf, hk, hp, Option.bind_eq_bind, Option.bind_some, ne_eq, not_true_eq_false,
      if_false]
  · -- the block's own bucket has an earlier block
    have hfo : q.firstOf (q.heapBucket a) = q.bucketFirst (q.heapBucket a) := if_pos hin
    have hle := (h.first (q.heapBucket a)).le a ha rfl
    rw [hfo] at hle
    have hSf : S (q.bucketFirst (q.heapBucket a)) := by
      rcases (h.first (q.heapBucket a)).found with ⟨hS, -⟩ | hpast
      · rw [hfo] at hS; exact hS
      · have := (h.geometry.lt_bucketEnd_iff (k := q.heapBucket a) hlt
          (h.blocks.tiling.lo_le ha)).mpr le_rfl
        rw [hfo] at hpast
        omega
    obtain ⟨p, hp, hSp, hpa⟩ :=
      predWalk_spec h.blocks.tiling ha q.walkFuel _ (hfuel _ hSf) (by omega) hSf
    refine ⟨p, q.bucketBiggest 0, ?_, hSp, hpa⟩
    simp only [if_neg hf, hp, Option.bind_eq_bind, Option.bind_some, ne_eq, not_true_eq_false,
      if_false, Function.update_eq_self]

end CohKernel.StAlloc
