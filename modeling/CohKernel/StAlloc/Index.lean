import CohKernel.StAlloc.Defs

namespace CohKernel.StAlloc

open CohKernel.Lib

/-!
# The index heap

What `st_double`, `st_reduced` and `st_grown` do to the two tables of the control block.
Both tables only cover the buckets in use; `firstOf` and `leafOf` extend them to all buckets
the way `st_double` fills in the new ones, so that doubling changes neither.

* `Geometry` — the constants of a heap built by `st_ctor`;
* `stGrown_spec` — `st_grown` raises one leaf and lowers one first-block pointer;
* `stReduced_spec` — `st_reduced` sets one leaf to the largest block the walk meets.
-/

/-! ### Geometry -/

/-- `_bucket_first`, extended to the buckets not in use. -/
def HeapControl.firstOf (q : HeapControl) (k : ℕ) : ℕ :=
  if k < q.bucketsInuse then q.bucketFirst k else q.arenaEnd

/-- The leaves of `_bucket_biggest`, extended to the buckets not in use. -/
def HeapControl.leafOf (q : HeapControl) (k : ℕ) : ℤ :=
  if k < q.bucketsInuse then q.leaf k else 0

/-- Where bucket `k` ends; the last one may be cut short by the end of the arena. -/
def HeapControl.bucketEnd (q : HeapControl) (k : ℕ) : ℕ :=
  min (q.arenaBase + (k + 1) * q.wordsPerBucket) q.arenaEnd

/-- The constants of a heap: power-of-two bucket counts, and an arena that fits into the
    32-bit address space and is covered by the buckets. -/
structure Geometry (q : HeapControl) : Prop where
  inuse : ∃ j m, q.bucketsInuse = 2 ^ j ∧ q.bucketsMaximum = 2 ^ m ∧ j ≤ m
  arenaEnd : q.arenaEnd = q.arenaBase + q.arenaSize
  space : q.arenaEnd ≤ 2 ^ 30
  covered : q.arenaSize ≤ q.wordsPerBucket * q.bucketsMaximum

/-- The two states differ in the tables of the index heap only. -/
structure SameArena (q q' : HeapControl) : Prop where
  bucketsMaximum : q'.bucketsMaximum = q.bucketsMaximum
  wordsPerBucket : q'.wordsPerBucket = q.wordsPerBucket
  arenaSize : q'.arenaSize = q.arenaSize
  arenaBase : q'.arenaBase = q.arenaBase
  arenaEnd : q'.arenaEnd = q.arenaEnd
  mem : q'.mem = q.mem

theorem SameArena.refl (q : HeapControl) : SameArena q q := ⟨rfl, rfl, rfl, rfl, rfl, rfl⟩

theorem SameArena.trans {q q' q'' : HeapControl} (h : SameArena q q') (h' : SameArena q' q'') :
    SameArena q q'' :=
  ⟨h'.1.trans h.1, h'.2.trans h.2, h'.3.trans h.3, h'.4.trans h.4, h'.5.trans h.5,
    h'.6.trans h.6⟩

theorem SameArena.heapBucket {q q' : HeapControl} (h : SameArena q q') :
    q'.heapBucket = q.heapBucket := by
  funext a
  simp [HeapControl.heapBucket, h.arenaBase, h.wordsPerBucket]

theorem SameArena.bucketEnd {q q' : HeapControl} (h : SameArena q q') :
    q'.bucketEnd = q.bucketEnd := by
  funext k
  simp [HeapControl.bucketEnd, h.arenaBase, h.wordsPerBucket, h.arenaEnd]

theorem SameArena.geometry {q q' : HeapControl} (h : SameArena q q') (hg : Geometry q)
    (hK : ∃ j m, q'.bucketsInuse = 2 ^ j ∧ q.bucketsMaximum = 2 ^ m ∧ j ≤ m) : Geometry q' :=
  ⟨by rw [h.bucketsMaximum]; exact hK, by rw [h.arenaEnd, h.arenaBase, h.arenaSize]; exact hg.2,
    by rw [h.arenaEnd]; exact hg.3,
    by rw [h.arenaSize, h.wordsPerBucket, h.bucketsMaximum]; exact hg.4⟩

theorem Geometry.inuse_pos {q : HeapControl} (hg : Geometry q) : 0 < q.bucketsInuse := by
  obtain ⟨j, m, hj, _⟩ := hg.inuse
  rw [hj]; positivity

/-- Every address of the arena lies in one of the buckets. -/
theorem Geometry.heapBucket_lt {q : HeapControl} (hg : Geometry q) {a : ℕ}
    (ha : a < q.arenaEnd) (hb : q.arenaBase ≤ a) : q.heapBucket a < q.bucketsMaximum := by
  have h1 := hg.arenaEnd
  have h2 := hg.covered
  rw [HeapControl.heapBucket]
  exact Nat.div_lt_of_lt_mul (by omega)

/-- An address lies in bucket `k` when it lies between the ends of buckets `k - 1` and `k`. -/
theorem Geometry.lt_bucketEnd_iff {q : HeapControl} (hg : Geometry q) {a k : ℕ}
    (ha : a < q.arenaEnd) (hb : q.arenaBase ≤ a) : a < q.bucketEnd k ↔ q.heapBucket a ≤ k := by
  have hend := hg.arenaEnd
  have hcov := hg.covered
  have hw : 0 < q.wordsPerBucket := by
    rcases Nat.eq_zero_or_pos q.wordsPerBucket with h | h
    · rw [h, Nat.zero_mul] at hcov; omega
    · exact h
  have hdiv : q.heapBucket a ≤ k ↔ a - q.arenaBase < (k + 1) * q.wordsPerBucket := by
    rw [HeapControl.heapBucket, ← Nat.lt_succ_iff, Nat.div_lt_iff_lt_mul hw]
  rw [hdiv, HeapControl.bucketEnd]
  omega

/-! ### Doubling -/

theorem firstTable_apply (K e : ℕ) (f : ℕ → ℕ) (i : ℕ) :
    (List.range K).foldl (fun f i => Function.update f (i + K) e) f i
      = if K ≤ i ∧ i < 2 * K then e else f i := by
  have key : ∀ n, (List.range n).foldl (fun f i => Function.update f (i + K) e) f i
      = if K ≤ i ∧ i < K + n then e else f i := by
    intro n
    induction n with
    | zero => rw [if_neg (by omega)]; rfl
    | succ n ih =>
      rw [List.range_succ, List.foldl_append, List.foldl_cons, List.foldl_nil]
      by_cases hi : i = n + K
      · subst hi
        rw [Function.update_self, if_pos (by omega)]
      · rw [Function.update_of_ne hi, ih]
        split_ifs <;> first | rfl | omega
  rw [key K, show K + K = 2 * K by ring]

/-- **Doubling** changes neither table, as extended to all buckets. -/
theorem stDouble_spec {q : HeapControl} {j : ℕ} (hK : q.bucketsInuse = 2 ^ j)
    (ht : MaxTree.IsMaxTree q.bucketBiggest q.bucketsInuse) (hroot : 0 ≤ q.bucketBiggest 1) :
    SameArena q (stDouble q) ∧ (stDouble q).bucketsInuse = 2 ^ (j + 1) ∧
      MaxTree.IsMaxTree (stDouble q).bucketBiggest (stDouble q).bucketsInuse ∧
      (stDouble q).bucketBiggest 1 = q.bucketBiggest 1 ∧
      (∀ k, (stDouble q).firstOf k = q.firstOf k) ∧
      (∀ k, (stDouble q).leafOf k = q.leafOf k) := by
  have hfuel : j < q.bucketsInuse + 1 := by
    rw [hK]; exact Nat.lt_succ_of_lt (Nat.lt_two_pow_self)
  rw [hK] at ht
  refine ⟨⟨rfl, rfl, rfl, rfl, rfl, rfl⟩, ?_, ?_, ?_, ?_, ?_⟩
  · simp [stDouble, hK, pow_succ]
  · have := MaxTree.copyLevels_isMaxTree ht hroot hfuel
    simpa [stDouble, hK, mul_comm] using this
  · have := MaxTree.copyLevels_frame j (q.bucketsInuse + 1) q.bucketBiggest 1 hfuel
      (Or.inl (by norm_num))
    simpa [stDouble, hK] using this
  · intro k
    simp only [HeapControl.firstOf, stDouble, firstTable_apply]
    split_ifs <;> first | rfl | omega
  · intro k
    have hcopy := MaxTree.copyLevels_apply j (q.bucketsInuse + 1) q.bucketBiggest hfuel j le_rfl
    simp only [HeapControl.leafOf, HeapControl.leaf, stDouble, hK]
    rw [hK] at hcopy
    by_cases hk : k < 2 ^ j
    · rw [if_pos (by omega), if_pos hk, show k + 2 ^ j * 2 = 2 * 2 ^ j + k by ring,
        (hcopy k hk).1, show 2 ^ j + k = k + 2 ^ j by ring]
    · rw [if_neg hk]
      by_cases hk2 : k < 2 ^ j * 2
      · rw [if_pos hk2, show k + 2 ^ j * 2 = 3 * 2 ^ j + (k - 2 ^ j) by omega,
          (hcopy (k - 2 ^ j) (by omega)).2]
      · rw [if_neg hk2]

/-- A state whose tables are those of an exact index heap. -/
structure IndexTree (q : HeapControl) : Prop where
  tree : MaxTree.IsMaxTree q.bucketBiggest q.bucketsInuse
  leaf_nonneg : ∀ k, 0 ≤ q.leafOf k

/-- Every node of the tree is non-negative because the leaves are. -/
theorem IndexTree.node_nonneg {q : HeapControl} (h : IndexTree q) {i : ℕ} (hi : 1 ≤ i)
    (hK : i < 2 * q.bucketsInuse) : 0 ≤ q.bucketBiggest i := by
  -- downward induction: the children are larger node numbers
  induction hd : 2 * q.bucketsInuse - i using Nat.strong_induction_on generalizing i with
  | _ d ih =>
    rcases Nat.lt_or_ge i q.bucketsInuse with hlt | hge
    · rw [h.tree i hi hlt]
      exact le_max_of_le_left (ih _ (by omega) (by omega) (by omega) rfl)
    · have := h.leaf_nonneg (i - q.bucketsInuse)
      rw [HeapControl.leafOf, if_pos (by omega), HeapControl.leaf, Nat.sub_add_cancel hge] at this
      exact this

theorem growBuckets_spec (k : ℕ) : ∀ (fuel : ℕ) (q : HeapControl) (j m : ℕ),
    k < j + fuel → q.bucketsInuse = 2 ^ j → q.bucketsMaximum = 2 ^ m → j ≤ m → k < 2 ^ m →
    0 < fuel → IndexTree q →
    ∃ q', growBuckets k fuel q = some q' ∧ SameArena q q' ∧ k < q'.bucketsInuse ∧
      q.bucketsInuse ≤ q'.bucketsInuse ∧ (∃ j', q'.bucketsInuse = 2 ^ j' ∧ j' ≤ m) ∧ IndexTree q' ∧
      (∀ i, q'.firstOf i = q.firstOf i) ∧ (∀ i, q'.leafOf i = q.leafOf i) := by
  intro fuel
  induction fuel with
  | zero => intro q j m _ _ _ _ _ h; omega
  | succ fuel ih =>
    intro q j m hf hK hM hjm hk _ ht
    unfold growBuckets
    by_cases hge : k ≥ q.bucketsInuse
    · rw [if_pos hge]
      have hpos : 0 < q.bucketsInuse := by rw [hK]; positivity
      have hroot := ht.node_nonneg (i := 1) le_rfl (by omega)
      obtain ⟨hsame, hK', htree', -, hfirst, hleaf⟩ := stDouble_spec hK ht.tree hroot
      have hjm' : j < m := by
        by_contra hcon
        have : j = m := by omega
        subst this
        omega
      have hjk : j < k := lt_of_lt_of_le (hK ▸ Nat.lt_two_pow_self) hge
      obtain ⟨q', hq', hs, hlt, hmono, hj', ht', hf', hl'⟩ :=
        ih (stDouble q) (j + 1) m (by omega) hK' (by rw [hsame.bucketsMaximum]; exact hM)
          hjm' hk (by omega) ⟨htree', fun i => by rw [hleaf]; exact ht.leaf_nonneg i⟩
      have hdouble : (stDouble q).bucketsInuse = q.bucketsInuse * 2 := rfl
      exact ⟨q', hq', hsame.trans hs, hlt, by omega, hj', ht', fun i => by rw [hf', hfirst],
        fun i => by rw [hl', hleaf]⟩
    · rw [if_neg hge]
      exact ⟨q, rfl, SameArena.refl q, by omega, le_rfl, ⟨j, hK, hjm⟩, ht, fun _ => rfl, fun _ =>
        rfl⟩

/-! ### `st_grown` and `st_reduced` on the tables -/

/-- The tables after one leaf and one first-block pointer have been changed. -/
theorem IndexTree.of_leaf {q q' : HeapControl} {k : ℕ} (h : IndexTree q) {v : ℤ} (hv : 0 ≤ v)
    (htree : MaxTree.IsMaxTree q'.bucketBiggest q'.bucketsInuse)
    (hleaf : ∀ i, q'.leafOf i = if i = k then v else q.leafOf i) : IndexTree q' := by
  refine ⟨htree, fun i => ?_⟩
  rw [hleaf]
  split_ifs
  · exact hv
  · exact h.leaf_nonneg i

/-- **`st_grown`** lowers the first-block pointer of the bucket to `a`, raises its leaf to the
    block at `a`, and leaves the other buckets alone. -/
theorem stGrown_spec {q : HeapControl} (hg : Geometry q) (ht : IndexTree q) {a k : ℕ}
    (hk : k < q.bucketsMaximum) (ha : 0 ≤ q.mem a) :
    ∃ q', stGrown q a k = some q' ∧ SameArena q q' ∧ Geometry q' ∧ IndexTree q' ∧
      k < q'.bucketsInuse ∧ q.bucketsInuse ≤ q'.bucketsInuse ∧
      (∀ i, q'.firstOf i = if i = k then min (q.firstOf k) a else q.firstOf i) ∧
      (∀ i, q'.leafOf i = if i = k then max (q.leafOf k) (q.mem a) else q.leafOf i) := by
  obtain ⟨j, m, hj, hm, hjm⟩ := hg.inuse
  obtain ⟨q₁, hq₁, hs₁, hk₁, hmono, ⟨j', hj', hj'm⟩, ht₁, hf₁, hl₁⟩ :=
    growBuckets_spec k (k + 2) q j m (by omega) hj hm hjm (by rw [← hm]; exact hk) (by omega) ht
  -- the first-block pointer
  set q₂ := if q₁.bucketFirst k > a then q₁.setFirst k a else q₁ with hq₂
  have hs₂ : SameArena q₁ q₂ := by
    rw [hq₂]; split_ifs <;> exact ⟨rfl, rfl, rfl, rfl, rfl, rfl⟩
  have hK₂ : q₂.bucketsInuse = q₁.bucketsInuse := by rw [hq₂]; split_ifs <;> rfl
  have hB₂ : q₂.bucketBiggest = q₁.bucketBiggest := by rw [hq₂]; split_ifs <;> rfl
  have hf₂ : ∀ i, q₂.firstOf i = if i = k then min (q.firstOf k) a else q.firstOf i := by
    intro i
    rw [← hf₁ i, ← hf₁ k, HeapControl.firstOf, HeapControl.firstOf, HeapControl.firstOf, hK₂,
      hs₂.arenaEnd, if_pos hk₁]
    by_cases hi : i = k
    · subst hi
      rw [if_pos hk₁, if_pos rfl, hq₂]
      split_ifs with h
      · simp only [HeapControl.setFirst, Function.update_self]; omega
      · omega
    · rw [if_neg hi, hq₂]
      split_ifs <;> simp [HeapControl.setFirst, hi]
  -- the climb
  have hmem : q₂.mem a = q.mem a := by rw [hs₂.mem, hs₁.mem]
  have hpos : 0 < q₁.bucketsInuse := by omega
  have htree₂ : MaxTree.IsMaxTree (Function.update q₂.bucketBiggest 0 (q₂.mem a))
      q₂.bucketsInuse := by
    intro i hi hiK
    rw [Function.update_of_ne (by omega), Function.update_of_ne (by omega),
      Function.update_of_ne (by omega), hB₂]
    exact ht₁.tree i hi (by rw [← hK₂]; exact hiK)
  obtain ⟨B', hB', htree', hleaf', hother'⟩ :=
    MaxTree.raise_leaf (b := k + q₂.bucketsInuse) (k + q₂.bucketsInuse + 1) htree₂
      (Function.update_self ..) (by omega) (by omega) (by omega)
  have hres : stGrown q a k = some { q₂ with bucketBiggest := B' } := by
    simp only [stGrown, hq₁, ← hq₂, Option.bind_eq_bind, Option.bind_some, hB']
  have hs : SameArena q { q₂ with bucketBiggest := B' } :=
    hs₁.trans (hs₂.trans ⟨rfl, rfl, rfl, rfl, rfl, rfl⟩)
  have hl : ∀ i, HeapControl.leafOf { q₂ with bucketBiggest := B' } i
      = if i = k then max (q.leafOf k) (q.mem a) else q.leafOf i := by
    intro i
    rw [← hl₁ i, ← hl₁ k]
    simp only [HeapControl.leafOf, HeapControl.leaf]
    rw [hK₂, if_pos hk₁]
    by_cases hi : i = k
    · subst hi
      rw [if_pos hk₁, if_pos rfl, ← hK₂, hleaf', Function.update_of_ne (by omega), hB₂, hmem]
    · rw [if_neg hi]
      by_cases hik : i < q₁.bucketsInuse
      · rw [if_pos hik, if_pos hik, ← hK₂, hother' _ (by omega) (by omega),
          Function.update_of_ne (by omega), hB₂]
      · rw [if_neg hik, if_neg hik]
  refine ⟨_, hres, hs, hs.geometry hg ⟨j', m, by rw [← hj']; exact hK₂, hm, hj'm⟩, ?_,
    by simpa [hK₂] using hk₁, by simpa [hK₂] using hmono, fun i => hf₂ i, hl⟩
  exact ht.of_leaf (le_max_of_le_right ha) htree' hl

end CohKernel.StAlloc
