import CohKernel.StAlloc.Safety

namespace CohKernel.StAlloc

open CohKernel.Lib

/-!
# First fit

Which block `st_alloc` returns, and `st_maxavail`.

* `Inv.alloc_lowest` — the index heap and the walk lead to the first block that is large enough;
* `alloc_firstFit` — in every state of a run that meets `Enters`, `st_alloc` of a size that does not
  wrap around is first fit, and `st_maxavail` is right when there is a free block;
* `firstFit_misses` — after the defect of `st_realloc` a free block is passed over.
-/

/-- `st_maxavail` -/
def stMaxavail (q : HeapControl) : ℕ := word2byte (q.bucketBiggest 1)

/-- A free block of at least `n` words starts at `b`. -/
structure FreeBlock (q : HeapControl) (n b : ℕ) : Prop where
  isBlock : IsBlock q b
  free : blockFree (q.mem b) = true
  size : n ≤ blockSize (q.mem b)

/-- The size in words of a block for `size` bytes, with its control word. -/
def roundedWords (size : ℕ) : ℕ := (size + 7) / 4

theorem roundedWords_pos (size : ℕ) : 1 ≤ roundedWords size := by
  unfold roundedWords
  omega

/-- That size is computed if the sum does not wrap around. -/
theorem blockWords_eq {size : ℕ} (h : size + 7 < 2 ^ 32) :
    blockWords size = roundedWords size := by
  unfold blockWords roundedWords
  omega

/-- `st_alloc` returns null if no free block is large enough, and else the first one that is. -/
def FirstFit (q : HeapControl) (size : ℕ) : Prop :=
  ∃ p q', stAlloc q size = some (p, q') ∧
    ((p = 0 ∧ ∀ b, ¬ FreeBlock q (roundedWords size) b) ∨
      ∃ b, p = b + 1 ∧ FreeBlock q (roundedWords size) b ∧
        ∀ b', FreeBlock q (roundedWords size) b' → b ≤ b')

/-- An allocation of what `st_maxavail` reports returns a free block. -/
def MaxFits (q : HeapControl) : Prop :=
  ∃ b q', stAlloc q (stMaxavail q) = some (b + 1, q') ∧ FreeBlock q 0 b

variable {q : HeapControl} {S : ℕ → Prop}

/-! ### The search -/

theorem Inv.freeBlock_iff (h : Inv q S) {n b : ℕ} (hn : 1 ≤ n) :
    FreeBlock q n b ↔ S b ∧ (n : ℤ) ≤ q.mem b := by
  constructor
  · rintro ⟨hb, hfree, hsize⟩
    have hS := h.isBlock_iff.mp hb
    rw [blockFree, decide_eq_true_eq] at hfree
    have hword := h.blocks.free_eq h.geometry.space hS hfree
    exact ⟨hS, by omega⟩
  · rintro ⟨hS, hword⟩
    have hfree : 0 ≤ q.mem b := by omega
    have heq := h.blocks.free_eq h.geometry.space hS hfree
    exact ⟨h.isBlock_iff.mpr hS, by rwa [blockFree, decide_eq_true_eq], by omega⟩

/-- A free block has at least one word. -/
theorem Inv.freeBlock_one (h : Inv q S) {b : ℕ} : FreeBlock q 0 b ↔ FreeBlock q 1 b := by
  refine ⟨fun hb => ⟨hb.isBlock, hb.free, ?_⟩, fun hb => ⟨hb.isBlock, hb.free, Nat.zero_le _⟩⟩
  exact h.blocks.tiling.pos (h.isBlock_iff.mp hb.isBlock)

/-- The root of the index heap is not smaller than any block. -/
theorem Inv.le_root (h : Inv q S) {b : ℕ} (hb : S b) : q.mem b ≤ q.bucketBiggest 1 := by
  have hin := h.inuse hb
  have hleaf : q.leafOf (q.heapBucket b) = q.bucketBiggest (q.heapBucket b + q.bucketsInuse) :=
    if_pos hin
  refine ((h.leaf _).bound b hb rfl).trans ?_
  rw [hleaf]
  exact MaxTree.le_root h.tree _ (by omega) (by omega)

/-- The index heap leads to the bucket of a block, when no block on its left is large enough. -/
theorem Inv.descend_lowest (h : Inv q S) {n t : ℕ} (hn : 1 ≤ n) (hSt : S t)
    (htn : (n : ℤ) ≤ q.mem t) (hlow : ∀ a, S a → (n : ℤ) ≤ q.mem a → t ≤ a) :
    MaxTree.descendLeft q.bucketBiggest q.bucketsInuse n (q.bucketsInuse + 1) 1 =
      some (q.heapBucket t + q.bucketsInuse) := by
  obtain ⟨j, m, hj, -, -⟩ := h.geometry.inuse
  have htree : MaxTree.IsMaxTree q.bucketBiggest (2 ^ j) := hj ▸ h.tree
  have hfuel : j < 2 ^ j := Nat.lt_two_pow_self
  have hlev : MaxTree.AtLevel 0 1 := ⟨le_rfl, by norm_num⟩
  obtain ⟨y, hy, ⟨hylo, hyhi⟩, hyn⟩ := MaxTree.descendLeft_spec htree (2 ^ j + 1) 0 1
    (Nat.zero_le j) (by omega) hlev (htn.trans (h.le_root hSt))
  obtain ⟨-, hleft⟩ := MaxTree.descendLeft_leftmost htree (2 ^ j + 1) j 0 1 (Nat.zero_add j) hlev hy
  rw [pow_succ] at hyhi
  have hK : y - 2 ^ j < q.bucketsInuse := by omega
  have hleaf : ∀ k < q.bucketsInuse, q.leafOf k = q.bucketBiggest (k + 2 ^ j) := fun k hk => by
    rw [HeapControl.leafOf, if_pos hk, HeapControl.leaf, hj]
  have hyleaf := hleaf (y - 2 ^ j) hK
  rw [Nat.sub_add_cancel hylo] at hyleaf
  -- the bucket has a large enough block, and no bucket on its left has one
  obtain ⟨u, hSu, hbu, hmu⟩ : ∃ u, S u ∧ q.heapBucket u = y - 2 ^ j ∧
      q.mem u = q.leafOf (y - 2 ^ j) := by
    rcases (h.leaf (y - 2 ^ j)).attained with h0 | hatt
    · omega
    · exact hatt
  have hle : q.heapBucket t ≤ y - 2 ^ j := by
    rw [← hbu]
    exact q.heapBucket_mono (hlow u hSu (by omega))
  have hin := h.inuse hSt
  have hge : ¬ q.heapBucket t < y - 2 ^ j := by
    intro hlt
    have hsmall := hleft (q.heapBucket t + 2 ^ j) (by omega) (by omega)
    rw [← hleaf _ hin] at hsmall
    have hbound := (h.leaf _).bound t hSt rfl
    omega
  rw [hj, hy]
  congr 1
  omega

/-- **The first block that is large enough** is the one that `st_alloc` finds. -/
theorem Inv.alloc_lowest (h : Inv q S) {n t : ℕ} (hn : 1 ≤ n) (hSt : S t)
    (htn : (n : ℤ) ≤ q.mem t) (hlow : ∀ a, S a → (n : ℤ) ≤ q.mem a → t ≤ a) {size : ℕ}
    (hsize : blockWords size = n) : ∃ q', stAlloc q size = some (t + 1, q') := by
  have hnode := h.descend_lowest hn hSt htn hlow
  have hin := h.inuse hSt
  have hleaf := (h.leaf _).bound t hSt rfl
  obtain ⟨hSf, -⟩ := h.first_of_leaf_pos (k := q.heapBucket t) (by omega)
  have hft := (h.first (q.heapBucket t)).le t hSt rfl
  rw [HeapControl.firstOf, if_pos hin] at hSf hft
  have hend := h.geometry.arenaEnd
  have hlo := h.blocks.tiling.lo_le hSf
  have hhi := h.blocks.tiling.lt_hi hSt
  obtain ⟨x, hx, hSx, hfx, hxt, hnx⟩ := allocWalk_spec h.blocks.tiling hSt htn q.walkFuel _
    (by unfold HeapControl.walkFuel; omega) hSf hft
  have heq : x = t := le_antisymm hxt (hlow x hSx hnx)
  rw [heq] at hx
  obtain ⟨q', hq', -, -⟩ := allocAt_spec h hSt hn htn
  have hroot : ¬ q.bucketBiggest 1 < byte2word size := by
    rw [byte2word_eq, hsize]
    exact not_lt.mpr (htn.trans (h.le_root hSt))
  have hone : heapNext t 1 = t + 1 := heapNext_natCast (n := 1) (by norm_num)
  refine ⟨q', ?_⟩
  rw [stAlloc]
  rw [byte2word_eq, hsize] at hroot ⊢
  simp only [if_neg hroot, hnode, Nat.add_sub_cancel, hx, hq', hone, Option.bind_eq_bind,
    Option.bind_some]

/-- The first large enough free block of a heap that has one. -/
theorem Inv.lowest (h : Inv q S) {n : ℕ} (hn : 1 ≤ n) (hex : ∃ b, FreeBlock q n b) :
    ∃ t, S t ∧ (n : ℤ) ≤ q.mem t ∧ ∀ a, S a → (n : ℤ) ≤ q.mem a → t ≤ a := by
  classical
  have hex' : ∃ b, S b ∧ (n : ℤ) ≤ q.mem b := by
    obtain ⟨b, hb⟩ := hex
    exact ⟨b, (h.freeBlock_iff hn).mp hb⟩
  exact ⟨Nat.find hex', (Nat.find_spec hex').1, (Nat.find_spec hex').2,
    fun a ha hna => Nat.find_min' hex' ⟨ha, hna⟩⟩

/-- **`st_alloc` is first fit** for every size of at least one word that does not wrap around. -/
theorem Inv.firstFit (h : Inv q S) {size : ℕ} (hfit : size + 7 < 2 ^ 32) : FirstFit q size := by
  have hwords := blockWords_eq hfit
  have hn := roundedWords_pos size
  by_cases hex : ∃ b, FreeBlock q (roundedWords size) b
  · obtain ⟨t, hSt, htn, hlow⟩ := h.lowest hn hex
    obtain ⟨q', hq'⟩ := h.alloc_lowest hn hSt htn hlow hwords
    refine ⟨t + 1, q', hq', .inr ⟨t, rfl, (h.freeBlock_iff hn).mpr ⟨hSt, htn⟩, fun b hb => ?_⟩⟩
    obtain ⟨hSb, hnb⟩ := (h.freeBlock_iff hn).mp hb
    exact hlow b hSb hnb
  · refine ⟨0, q, ?_, .inl ⟨rfl, not_exists.mp hex⟩⟩
    rcases stAlloc_spec h (hwords.symm ▸ hn) with ⟨-, hq⟩ | ⟨scan, r, q', -, hSs, hfree, hr, hle, -⟩
    · exact hq
    · have hword := h.blocks.free_eq h.geometry.space hSs hfree
      exact absurd ⟨scan, (h.freeBlock_iff hn).mpr ⟨hSs, by omega⟩⟩ hex

/-! ### Sizes that wrap around -/

/-- No free block has as many words as the address space. -/
theorem Inv.no_block (h : Inv q S) (hsent : q.arenaBase < q.arenaEnd → q.mem q.arenaBase < 0)
    {size : ℕ} (hwrap : 2 ^ 32 ≤ size + 7) (b : ℕ) : ¬ FreeBlock q (roundedWords size) b := by
  have hn := roundedWords_pos size
  rw [h.freeBlock_iff hn]
  rintro ⟨hS, hle⟩
  have hspace := h.geometry.space
  have hfree := h.blocks.free_eq hspace hS (by omega)
  have hlo := h.blocks.tiling.lo_le hS
  have hend := h.blocks.tiling.end_le hS
  have hne : b ≠ q.arenaBase := by
    rintro rfl
    have hneg := hsent (h.blocks.tiling.lt_hi hS)
    omega
  unfold roundedWords at hle
  omega

/-- **When `st_alloc` is first fit.** -/
theorem Ledger.firstFit_iff {h : Heap} (hl : Ledger h S) {size : ℕ} (hlt : size < 2 ^ 32) :
    FirstFit h.q size ↔
      size + 7 < 2 ^ 32 ∨ (2 ^ 32 ≤ size + 3 ∧ ∀ b, ¬ FreeBlock h.q 0 b) := by
  by_cases hfit : size + 7 < 2 ^ 32
  · exact iff_of_true (hl.inv.firstFit hfit) (.inl hfit)
  rw [or_iff_right hfit]
  have hnone := hl.inv.no_block hl.sentinel (not_lt.mp hfit)
  have hroot : 0 ≤ h.q.bucketBiggest 1 :=
    hl.inv.index.node_nonneg le_rfl (by have := hl.inv.geometry.inuse_pos; omega)
  have hwords : blockWords size = if 2 ^ 32 ≤ size + 3 then 1 else 0 := by
    unfold blockWords
    split_ifs <;> omega
  constructor
  · rintro ⟨p, q', hq', ⟨rfl, -⟩ | ⟨b, -, hb, -⟩⟩
    · have hsmall : h.q.bucketBiggest 1 < byte2word size := by
        by_contra hge
        rw [stAlloc] at hq'
        simp only [if_neg hge] at hq'
        obtain ⟨node, -, hq'⟩ := Option.bind_eq_some_iff.mp hq'
        obtain ⟨scan, -, hq'⟩ := Option.bind_eq_some_iff.mp hq'
        obtain ⟨q₁, -, hq'⟩ := Option.bind_eq_some_iff.mp hq'
        have hp := congrArg Prod.fst (Option.some.inj hq')
        simp [heapNext, blockSize] at hp
      rw [byte2word_eq, hwords] at hsmall
      split_ifs at hsmall with hone
      · refine ⟨hone, fun b hb => ?_⟩
        have hb := (hl.inv.freeBlock_iff le_rfl).mp (hl.inv.freeBlock_one.mp hb)
        have hle := hl.inv.le_root hb.1
        omega
      · omega
    · exact absurd hb (hnone b)
  · rintro ⟨hone, hfree⟩
    rw [if_pos hone] at hwords
    refine ⟨0, h.q, ?_, .inl ⟨rfl, hnone⟩⟩
    rcases stAlloc_spec hl.inv hwords.ge with ⟨-, hq⟩ | ⟨scan, r, q', -, hSs, hword, -⟩
    · exact hq
    · refine absurd ⟨hl.inv.isBlock_iff.mpr hSs, ?_, Nat.zero_le _⟩ (hfree scan)
      rwa [blockFree, decide_eq_true_eq]

/-- **When `st_maxavail` is right.** -/
theorem Inv.maxFits_iff (h : Inv q S)
    (hsent : q.arenaBase < q.arenaEnd → q.mem q.arenaBase < 0) :
    MaxFits q ↔ ∃ b, FreeBlock q 0 b := by
  constructor
  · rintro ⟨b, -, -, hb⟩
    exact ⟨b, hb⟩
  · rintro ⟨b, hb⟩
    obtain ⟨hSb, hnb⟩ := (h.freeBlock_iff le_rfl).mp (h.freeBlock_one.mp hb)
    have hroot := h.le_root hSb
    obtain ⟨n, hn⟩ : ∃ n : ℕ, q.bucketBiggest 1 = n := ⟨_, (Int.toNat_of_nonneg (by omega)).symm⟩
    have hn1 : 1 ≤ n := by omega
    -- the block that the root stands for
    obtain ⟨node, scan, -, -, hSs, -, hle⟩ := h.descend hn1 hn.ge
    have hspace := h.geometry.space
    have hword := h.blocks.free_eq hspace hSs (by omega)
    have hend := h.blocks.tiling.end_le hSs
    have hlo := h.blocks.tiling.lo_le hSs
    have hscan := h.le_root hSs
    have hne : scan ≠ q.arenaBase := by
      rintro rfl
      have hneg := hsent (h.blocks.tiling.lt_hi hSs)
      omega
    obtain ⟨t, hSt, htn, hlow⟩ := h.lowest hn1 ⟨scan, (h.freeBlock_iff hn1).mpr ⟨hSs, hle⟩⟩
    have hsize : blockWords (stMaxavail q) = n := by
      unfold stMaxavail blockWords word2byte
      rw [hn]
      omega
    obtain ⟨q', hq'⟩ := h.alloc_lowest hn1 hSt htn hlow hsize
    have ht := (h.freeBlock_iff hn1).mpr ⟨hSt, htn⟩
    exact ⟨t, q', hq', ht.isBlock, ht.free, Nat.zero_le _⟩

/-! ### Runs -/

/-- **In every run that meets `Enters`** `st_alloc` is first fit for the sizes that do not wrap
    around, and `st_maxavail` is right as long as a block is free. -/
theorem alloc_firstFit (h : Heap) (hr : Reachable Enters h) :
    (∀ size < 2 ^ 32, FirstFit h.q size ↔
      size + 7 < 2 ^ 32 ∨ (2 ^ 32 ≤ size + 3 ∧ ∀ b, ¬ FreeBlock h.q 0 b)) ∧
    (MaxFits h.q ↔ ∃ b, FreeBlock h.q 0 b) := by
  obtain ⟨S, hl⟩ := hr.ledger
  exact ⟨fun size hlt => hl.firstFit_iff hlt, hl.inv.maxFits_iff hl.sentinel⟩

/-- A heap of two buckets, as built. -/
theorem alloc_firstFit_ctor :
    ∃ q, stCtor (fun _ => 0) (fun _ => 0) (fun _ => 0) (2 ^ 1) 16 0 = some q ∧
      FirstFit q 8 ∧ (MaxFits q ↔ ∃ b, FreeBlock q 0 b) := by
  obtain ⟨q, -, hq, -⟩ := stCtor_ledger (fun _ => 0) (fun _ => 0) (fun _ => 0) 1 16 0
    (by norm_num)
  obtain ⟨hfits, hmax⟩ := alloc_firstFit ⟨q, []⟩ (Reachable.ctor (by norm_num) hq)
  exact ⟨q, hq, (hfits 8 (by norm_num)).mpr (.inl (by norm_num)), hmax⟩

/-- **A free block is passed over**: after `st_realloc` has shrunk the first block, `st_alloc` of
    one word takes the block at word 11 although the one at word 9 is free. -/
theorem firstFit_misses :
    ¬ ∀ h, Reachable (fun _ _ => True) h →
      (∀ size < 2 ^ 32, FirstFit h.q size) ∧ MaxFits h.q := by
  intro hall
  have heval : (staleFirst.map fun h => ([h.q.arenaBase, h.q.arenaEnd, blockSize (h.q.mem 0),
      blockSize (h.q.mem 1), blockSize (h.q.mem 9)], h.q.mem 9, (stAlloc h.q 0).map Prod.fst)) =
      some ([0, 16, 1, 8, 1], 1, some 12) := by decide +kernel
  obtain ⟨h, hh, hval⟩ := Option.map_eq_some_iff.mp heval
  obtain ⟨q, hq, hrun⟩ := Option.bind_eq_some_iff.mp hh
  simp only [List.cons.injEq, and_true, Prod.mk.injEq] at hval
  obtain ⟨⟨hbase, hend, hs0, hs1, hs9⟩, hm9, halloc⟩ := hval
  obtain ⟨p, q', hq', hfit⟩ :=
    (hall h ((Reachable.ctor (by norm_num) hq).run hrun)).1 0 (by norm_num)
  have hp : p = 12 := by
    rw [hq'] at halloc
    exact Option.some.inj halloc
  -- the block at word 9
  have hb0 : IsBlock h.q 0 := by
    unfold IsBlock
    rw [hbase]
    exact BlockAt.start (by omega)
  have hb1 : IsBlock h.q (0 + blockSize (h.q.mem 0)) := BlockAt.next hb0 (by omega)
  rw [hs0, Nat.zero_add] at hb1
  have hb9 : IsBlock h.q (1 + blockSize (h.q.mem 1)) := BlockAt.next hb1 (by omega)
  rw [hs1] at hb9
  have hfree : FreeBlock h.q (roundedWords 0) 9 := by
    refine ⟨hb9, ?_, hs9.ge⟩
    rw [hm9]
    rfl
  rcases hfit with ⟨hzero, -⟩ | ⟨b, hb, -, hlow⟩
  · omega
  · have hle := hlow 9 hfree
    omega

end CohKernel.StAlloc
