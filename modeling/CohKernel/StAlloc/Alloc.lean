import CohKernel.StAlloc.Recut

namespace CohKernel.StAlloc

open CohKernel.Lib

/-!
# `st_alloc` keeps the invariant

`stAlloc_spec`: `st_alloc` either finds the root of the index heap too small and changes
nothing, or cuts a block of the asked size off the front of a free block.
-/

variable {q : HeapControl} {S : ℕ → Prop}

/-- The block size in words for a request of `s` bytes, as a natural number. -/
def blockWords (s : ℕ) : ℕ := (s + 7) % 2 ^ 32 / 4

theorem byte2word_eq (s : ℕ) : byte2word s = (blockWords s : ℤ) := rfl

theorem blockWords_lt (s : ℕ) : blockWords s < 2 ^ 30 := by
  unfold blockWords; omega

theorem heapNext_natCast {a n : ℕ} (hn : n < 2 ^ 31) : heapNext a (n : ℤ) = a + n := by
  unfold heapNext blockSize; omega

/-- The first-fit walk stops at a large enough block, not past the one it was sent for. -/
theorem allocWalk_spec {mem : ℕ → ℤ} {lo hi t n : ℕ}
    (ht : Tiling (fun a => blockSize (mem a)) lo hi S) (hSt : S t) (htn : (n : ℤ) ≤ mem t) :
    ∀ fuel scan, t - scan < fuel → S scan → scan ≤ t →
    ∃ x, allocWalk mem n fuel scan = some x ∧ S x ∧ scan ≤ x ∧ x ≤ t ∧ (n : ℤ) ≤ mem x := by
  intro fuel
  induction fuel with
  | zero => intro scan hf; omega
  | succ fuel ih =>
    intro scan hf hS hle
    unfold allocWalk
    by_cases hlt : mem scan < n
    · have hne : scan ≠ t := by rintro rfl; omega
      have hpos := ht.pos hS
      have hgap : scan + blockSize (mem scan) ≤ t := ht.gap hS hSt (by omega)
      have hSn := ht.next hS (by have := ht.lt_hi hSt; omega)
      rw [if_pos hlt]
      obtain ⟨x, hx, hSx, hsx, hxt, hnx⟩ := ih (heapNext scan (mem scan))
        (by unfold heapNext; omega) hSn (by unfold heapNext; omega)
      exact ⟨x, hx, hSx, by unfold heapNext at hsx; omega, hxt, hnx⟩
    · rw [if_neg hlt]
      exact ⟨scan, rfl, hS, le_rfl, hle, by omega⟩

/-- The index heap leads to a bucket with a block of the asked size. -/
theorem Inv.descend (h : Inv q S) {n : ℕ} (hn : 1 ≤ n) (hroot : (n : ℤ) ≤ q.bucketBiggest 1) :
    ∃ node scan, MaxTree.descendLeft q.bucketBiggest q.bucketsInuse n (q.bucketsInuse + 1) 1
        = some node ∧
      allocWalk q.mem n q.walkFuel (q.bucketFirst (node - q.bucketsInuse)) = some scan ∧
      S scan ∧ q.heapBucket scan = node - q.bucketsInuse ∧ (n : ℤ) ≤ q.mem scan := by
  obtain ⟨j, m, hj, -, -⟩ := h.geometry.inuse
  have htree : MaxTree.IsMaxTree q.bucketBiggest (2 ^ j) := hj ▸ h.tree
  have hfuel : j < 2 ^ j := Nat.lt_two_pow_self
  obtain ⟨y, hy, ⟨hylo, hyhi⟩, hyn⟩ := MaxTree.descendLeft_spec htree (2 ^ j + 1) 0 1
    (Nat.zero_le j) (by omega) ⟨le_rfl, by norm_num⟩ hroot
  have hK : y - q.bucketsInuse < q.bucketsInuse := by rw [hj]; rw [pow_succ] at hyhi; omega
  have hleaf : q.leafOf (y - q.bucketsInuse) = q.bucketBiggest y := by
    rw [HeapControl.leafOf, if_pos hK, HeapControl.leaf, Nat.sub_add_cancel (by omega)]
  -- a positive leaf is attained by a block, and the bucket's first block is not after it
  have hpos : 0 < q.leafOf (y - q.bucketsInuse) := by rw [hleaf]; omega
  obtain ⟨hSf, hbf⟩ := h.first_of_leaf_pos hpos
  obtain ⟨t, hSt, hbt, hmt⟩ : ∃ t, S t ∧ q.heapBucket t = y - q.bucketsInuse ∧
      q.mem t = q.leafOf (y - q.bucketsInuse) := by
    rcases (h.leaf (y - q.bucketsInuse)).attained with h0 | hatt
    · omega
    · exact hatt
  have hft := (h.first (y - q.bucketsInuse)).le t hSt hbt
  rw [HeapControl.firstOf, if_pos hK] at hSf hbf hft
  have hend := h.geometry.arenaEnd
  have hlo := h.blocks.tiling.lo_le hSf
  have hhi := h.blocks.tiling.lt_hi hSt
  obtain ⟨x, hx, hSx, hfx, hxt, hnx⟩ := allocWalk_spec h.blocks.tiling hSt
    (by rw [hmt, hleaf]; exact hyn) q.walkFuel _ (by unfold HeapControl.walkFuel; omega) hSf hft
  refine ⟨y, x, by rw [hj]; exact hy, hx, hSx, ?_, hnx⟩
  have h1 := q.heapBucket_mono hfx
  have h2 := q.heapBucket_mono hxt
  omega

/-! ### Cutting a block down -/

/-- The blocks after an allocation. -/
theorem Inv.alloc_blocks (h : Inv q S) {scan n : ℕ} (hS : S scan) (hn : 1 ≤ n)
    (hfit : (n : ℤ) ≤ q.mem scan) :
    Recut q { q with mem := cutMem q.mem scan (scan + n) (scan + blockSize (q.mem scan)) } S scan
        (scan + n) (scan + blockSize (q.mem scan)) ∧
      Blocks (cutMem q.mem scan (scan + n) (scan + blockSize (q.mem scan))) q.arenaBase q.arenaEnd
        (RecutStarts S scan (scan + n) (scan + blockSize (q.mem scan))) := by
  have hfree := h.blocks.free_eq h.geometry.space hS (by omega)
  have hright := h.blocks.tiling.next hS
  exact h.blocks.cut h.geometry.space hS (by omega) (by omega) hright (h.blocks.tiling.end_le hS)
    fun hlt _ => h.blocks.separated hS (hright hlt) (by omega)

/-- The split-off block enters the tables when it lies in a later bucket. -/
theorem Inv.alloc_grown (h : Inv q S) {scan n : ℕ} (hS : S scan) (hn : 1 ≤ n)
    (hfit : (n : ℤ) ≤ q.mem scan) :
    ∃ q₂, splitFree (q.blockSetUsed scan n) (q.heapBucket scan) (scan + n) (q.mem scan) n
        = some q₂ ∧
      SameArena { q with mem := cutMem q.mem scan (scan + n) (scan + blockSize (q.mem scan)) } q₂ ∧
        q.bucketsInuse ≤ q₂.bucketsInuse ∧
      q₂.leafOf (q.heapBucket scan) = q.leafOf (q.heapBucket scan) ∧
      Loose q₂ (RecutStarts S scan (scan + n) (scan + blockSize (q.mem scan)))
        (fun i => i = q.heapBucket scan) := by
  obtain ⟨hrec, hblocks⟩ := h.alloc_blocks hS hn hfit
  have hspace := h.geometry.space
  have hfree := h.blocks.free_eq hspace hS (by omega)
  have hsize := h.blocks.tiling.end_le hS
  have hlo := h.blocks.tiling.lo_le hS
  set c := blockSize (q.mem scan) with hc
  set k := q.heapBucket scan with hk
  set q₁ : HeapControl := { q with mem := cutMem q.mem scan (scan + n) (scan + c) } with hq₁
  have hg₁ : Geometry q₁ := ⟨h.geometry.1, h.geometry.2, h.geometry.3, h.geometry.4⟩
  have hi₁ : IndexTree q₁ := ⟨h.index.tree, h.index.leaf_nonneg⟩
  have hbig := (h.leaf k).bound scan hS hk.symm
  -- no block starts strictly inside the run
  have hinner : ∀ a, S a → scan ≤ a → a < scan + c → a = scan := by
    intro a ha hsa hac
    rcases Nat.eq_or_lt_of_le hsa with heq | hlt
    · exact heq.symm
    · have : scan + c ≤ a := h.blocks.tiling.gap hS ha hlt
      omega
  have hml : q₁.mem scan < 0 := by
    rw [hq₁]; simp only; rw [cutMem_left (by omega)]; exact usedWord_neg _
  have hmr : n < c → q₁.mem (scan + n) = (c : ℤ) - n := by
    intro hlt
    rw [hq₁]
    simp only
    rw [cutMem_split (by omega), freeWord_eq (by omega) (by omega)]
    omega
  have hn' : (n : ℤ) = ((scan + n : ℕ) : ℤ) - scan := by omega
  have hcn : q.mem scan - n = ((scan + c : ℕ) : ℤ) - (scan + n : ℕ) := by omega
  by_cases hp : n < c ∧ k < q.heapBucket (scan + n)
  · -- the split-off block is the first one of its bucket
    obtain ⟨hlt, hkb⟩ := hp
    have hmr := hmr hlt
    have hq₁' : (q.blockSetUsed scan n).blockSetFree (scan + n) (q.mem scan - n) = q₁ := by
      rw [hcn, hn', blockSetFree_blockSetUsed (by omega)]
    obtain ⟨q₂, hq₂, hs₂, hg₂, hi₂, -, hK₂, hf₂, hl₂⟩ := stGrown_spec hg₁ hi₁ (a := scan + n)
      (k := q.heapBucket (scan + n)) (h.geometry.heapBucket_lt (by omega) (by omega)) (by omega)
    have hrec₂ := hrec.trans_same hs₂
    refine ⟨q₂, ?_, hs₂, hK₂, ?_, hg₂, ?_, hi₂, ?_, ?_, ?_⟩
    · rw [splitFree, if_pos (by omega), hq₁', growWhen, if_pos (by exact hkb)]
      exact hq₂
    · rw [hl₂, if_neg (by omega)]; rfl
    · rw [hs₂.mem, hs₂.arenaBase, hs₂.arenaEnd]; exact hblocks.tiling
    · intro i
      have hkeep := Recut.first_inner (h.first i) hinner
      rw [hf₂]
      by_cases hi : i = q.heapBucket (scan + n)
      · rw [if_pos hi]
        subst hi
        exact hrec₂.first_min h.geometry hlo (h.first _)
          (hkeep.imp_right (Or.imp_left (le_trans (by omega)))) (by omega) rfl hkb
      · rw [if_neg hi]
        exact hrec₂.first_kept (h.first i) hkeep (fun _ hb => absurd hb.symm hi)
    · have hmono : ∀ i, q.leafOf i ≤ q₂.leafOf i := by
        intro i
        rw [hl₂]
        split_ifs with hi
        · rw [hi]; exact le_max_left _ _
        · exact le_rfl
      refine hrec₂.bound (fun a ha => ((h.leaf _).bound a ha rfl).trans (hmono _)) ?_ ?_
      · rw [hs₂.mem]
        have := hmono (q.heapBucket scan)
        have := (h.leaf (q.heapBucket scan)).nonneg
        omega
      · intro _
        rw [hl₂, if_pos rfl, hs₂.mem]
        exact le_max_right _ _
    · intro i hi
      rw [hl₂]
      by_cases hib : i = q.heapBucket (scan + n)
      · rw [if_pos hib, ← hs₂.mem]
        subst hib
        refine hrec₂.leaf_max (h.leaf _) (Recut.mem_split (by omega)) rfl ?_ ?_ ?_
        · intro hb; exact absurd hb.symm hi
        · intro _ _; exact le_max_right _ _
        · intro a ha hsa har hb _
          rw [hinner a ha hsa har] at hb
          exact absurd hb.symm hi
      · rw [if_neg hib]
        refine hrec₂.leaf_kept (h.leaf i) (fun hb => absurd hb.symm hi)
          (fun _ hb => absurd hb.symm hib) ?_
        intro a ha hsa har hb _
        rw [hinner a ha hsa har] at hb
        exact absurd hb.symm hi
  · -- the tables are left alone
    have hcase : splitFree (q.blockSetUsed scan n) k (scan + n) (q.mem scan) n = some q₁ := by
      rw [splitFree]
      by_cases hlt : n < c
      · rw [if_pos (by omega), growWhen, if_neg (by exact fun hb => hp ⟨hlt, hb⟩), hcn, hn',
          blockSetFree_blockSetUsed (by omega)]
      · rw [if_neg (by omega), hn', blockSetUsed_eq_cut (r := scan + c) (by omega)]
    have hsame : n < c → q.heapBucket (scan + n) = k := by
      intro hlt
      have := q.heapBucket_mono (a := scan) (b := scan + n) (by omega)
      omega
    refine ⟨q₁, hcase, SameArena.refl _, le_rfl, rfl, hg₁, hblocks.tiling, hi₁, ?_, ?_, ?_⟩
    · intro i
      exact hrec.first_kept (h.first i) (Recut.first_inner (h.first i) hinner)
        (fun hlt hb => by rw [← hb, hsame (by omega)])
    · refine hrec.bound (fun a ha => (h.leaf _).bound a ha rfl) ?_ ?_
      · have := (h.leaf (q.heapBucket scan)).nonneg
        exact hml.le.trans this
      · intro hlt
        have hb := hsame (by omega)
        rw [hmr (by omega), hb]
        change (c : ℤ) - n ≤ q.leafOf k
        omega
    · intro i hi
      refine hrec.leaf_kept (h.leaf i) (fun hb => absurd hb.symm hi)
        (fun hlt hb => absurd (hb.symm.trans (hsame (by omega))) hi) ?_
      intro a ha hsa har hb _
      rw [hinner a ha hsa har] at hb
      exact absurd hb.symm hi

/-- **Cutting down.** The tail of `st_alloc` keeps the invariant. -/
theorem allocAt_spec (h : Inv q S) {scan n : ℕ} (hS : S scan) (hn : 1 ≤ n)
    (hfit : (n : ℤ) ≤ q.mem scan) :
    ∃ q', allocAt q (q.heapBucket scan) scan n = some q' ∧
      SameArena
        { q with mem := cutMem q.mem scan (scan + n) (scan + blockSize (q.mem scan)) } q' ∧
      Inv q' (RecutStarts S scan (scan + n) (scan + blockSize (q.mem scan))) := by
  obtain ⟨hrec, hblocks⟩ := h.alloc_blocks hS hn hfit
  obtain ⟨q₂, hq₂, hs₂, hK₂, hleaf₂, hloose⟩ := h.alloc_grown hS hn hfit
  have hkin := h.inuse hS
  have hleafeq : q₂.leaf (q.heapBucket scan) = q.leafOf (q.heapBucket scan) := by
    rw [← hleaf₂, HeapControl.leafOf, if_pos (by omega)]
  have hrec₂ := hrec.trans_same hs₂
  -- the leaf is still exact unless the block that was cut attained it
  have hexact : ¬ q.mem scan = q₂.leaf (q.heapBucket scan) →
      LeafOK q₂ (RecutStarts S scan (scan + n) (scan + blockSize (q.mem scan)))
        (q.heapBucket scan) (q₂.leafOf (q.heapBucket scan)) := by
    intro hne
    rw [hleafeq] at hne
    refine hrec₂.leaf_of_bound (hleaf₂ ▸ h.leaf _) (fun a ha hb => hb ▸ hloose.bound a ha) ?_
    intro a ha hsa har hb hav
    rcases Nat.eq_or_lt_of_le hsa with rfl | hlt
    · exact absurd (hav.trans hleaf₂) hne
    · have : scan + blockSize (q.mem scan) ≤ a := h.blocks.tiling.gap hS ha hlt
      omega
  obtain ⟨q₃, hq₃, hs₃, -, hloose₃⟩ := hloose.reduced (fun _ => False)
    (p := q.mem scan = q₂.leaf (q.heapBucket scan)) (by omega) (fun _ hne heq => hne heq)
    (fun hne _ => hexact hne)
  have hn31 : n < 2 ^ 31 := by
    have := h.geometry.space
    have := h.blocks.tiling.end_le hS
    have := h.blocks.free_eq h.geometry.space hS (by omega)
    omega
  refine ⟨q₃, ?_, hs₂.trans hs₃, ?_⟩
  · simp only [allocAt, heapNext_natCast hn31, hq₂, Option.bind_eq_bind, Option.bind_some, hq₃]
  · refine hloose₃.inv (fun _ hf => hf) ?_
    rw [hs₃.mem, hs₃.arenaBase, hs₃.arenaEnd, hs₂.mem, hs₂.arenaBase, hs₂.arenaEnd]
    exact hblocks

/-- **`st_alloc`** of at least one word either finds no block that is large enough, and then
    changes nothing, or cuts the block it returns off the front of a free block. -/
theorem stAlloc_spec (h : Inv q S) {size : ℕ} (hn : 1 ≤ blockWords size) :
    (q.bucketBiggest 1 < blockWords size ∧ stAlloc q size = some (0, q)) ∨
    ∃ scan r q', stAlloc q size = some (scan + 1, q') ∧ S scan ∧ 0 ≤ q.mem scan ∧
      r = scan + blockSize (q.mem scan) ∧ scan + blockWords size ≤ r ∧
      SameArena { q with mem := cutMem q.mem scan (scan + blockWords size) r } q' ∧
      Inv q' (RecutStarts S scan (scan + blockWords size) r) := by
  by_cases hroot : q.bucketBiggest 1 < byte2word size
  · exact Or.inl ⟨hroot, by rw [stAlloc]; simp only [if_pos hroot]⟩
  · obtain ⟨node, scan, hnode, hscan, hS, hb, hfit⟩ := h.descend hn (not_lt.mp hroot)
    obtain ⟨q', hq', hs, hinv⟩ := allocAt_spec h hS hn hfit
    have hword := h.blocks.free_eq h.geometry.space hS (by omega)
    refine Or.inr ⟨scan, scan + blockSize (q.mem scan), q', ?_, hS, by omega, rfl, by omega, hs,
      hinv⟩
    rw [hb] at hq'
    have hone : heapNext scan 1 = scan + 1 := heapNext_natCast (n := 1) (by norm_num)
    rw [stAlloc]
    rw [byte2word_eq] at hroot ⊢
    simp only [if_neg hroot, hnode, hscan, hq', hone, Option.bind_eq_bind, Option.bind_some]

end CohKernel.StAlloc
