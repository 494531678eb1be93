import CohKernel.StAlloc.Safety

namespace CohKernel.StAlloc

open CohKernel.Lib

/-!
# What `st_pred` finds and what `st_free` rejects

`st_free` relies on `st_pred` to tell whether an address names a block: the search fails when
the walk over the blocks of a bucket does not come by the address.

* `reachable_searches` — in a run that keeps the tables right, `st_pred` returns the block before
  any block but the first, ends with an error on the first one, and `st_free` rejects every
  address of a bucket in use that does not name an allocated block of the given size;
* `searches_fail` — after the shrink of `staleFirst`, `st_pred` fails on a free block, and
  `st_free` may accept an address in a bucket that is not in use yet.
-/

variable {q q' : HeapControl} {S : ℕ → Prop} {a : ℕ}

/-! ### The properties -/

/-- The two states agree in all but the sentinel of the index heap and the text of the last
    error. -/
structure SameHeap (q q' : HeapControl) : Prop where
  arena : SameArena q q'
  inuse : q'.bucketsInuse = q.bucketsInuse
  first : q'.bucketFirst = q.bucketFirst
  biggest : ∀ i, 1 ≤ i → q'.bucketBiggest i = q.bucketBiggest i

/-- `addr` is an allocated block of the heap that holds `size` bytes.  The block at the base
    of the arena is the heap's own. -/
def LiveBlock (q : HeapControl) (addr size : ℕ) : Prop :=
  IsBlock q addr ∧ q.arenaBase < addr ∧ blockFree (q.mem addr) = false ∧
    (blockSize (q.mem addr) : ℤ) = byte2word size

/-- What `st_pred` is for. -/
structure PredFinds (q : HeapControl) : Prop where
  /-- The block before `a`. -/
  before : ∀ a, IsBlock q a → q.arenaBase < a →
    ∃ p q', stPred q a (q.heapBucket a) = some (p, q') ∧
      IsBlock q p ∧ p + blockSize (q.mem p) = a ∧ SameHeap q q'
  /-- The first block has none: the search ends and returns the block itself. -/
  none : ∀ a, IsBlock q a → a = q.arenaBase →
    ∃ q', stPred q a (q.heapBucket a) = some (a, q') ∧ SameHeap q q'

/-- `st_free` returns an error and leaves the heap alone. -/
def FreeRejects (q : HeapControl) (a size : ℕ) : Prop :=
  ∃ c q', stFree q a size = some (c, q') ∧ c < 0 ∧ SameHeap q q'

theorem SameHeap.refl (q : HeapControl) : SameHeap q q :=
  ⟨SameArena.refl q, rfl, rfl, fun _ _ => rfl⟩

/-- The sentinel and the error text are all that a failed call of `st_pred` changes. -/
theorem SameHeap.sentinel (q : HeapControl) (v : ℤ) (e : Option String) :
    SameHeap q { q with bucketBiggest := Function.update q.bucketBiggest 0 v, heapError := e } :=
  ⟨⟨rfl, rfl, rfl, rfl, rfl, rfl⟩, rfl, rfl,
    fun i hi => Function.update_of_ne (by omega) v q.bucketBiggest⟩

/-! ### Searches that fail -/

/-- A walk for an address that is not a block passes it. -/
theorem predWalk_passes {mem : ℕ → ℤ} {lo hi a : ℕ}
    (ht : Tiling (fun a => blockSize (mem a)) lo hi S) (ha : ¬ S a) (hlt : a < hi) :
    ∀ (fuel prev : ℕ), a - prev < fuel → S prev ∨ a < prev →
    ∃ p s, predWalk mem a fuel prev = some (p, s) ∧ s ≠ a := by
  intro fuel
  induction fuel with
  | zero => intro prev hf; omega
  | succ fuel ih =>
    intro prev hf hor
    have hnext : heapNext prev (mem prev) = prev + blockSize (mem prev) := rfl
    unfold predWalk
    by_cases hn : heapNext prev (mem prev) < a
    · rcases hor with hS | hpast
      · have hpos := ht.pos hS
        have hSn := ht.next hS (by omega)
        simp only [if_pos hn]
        exact ih _ (by omega) (Or.inl (hnext ▸ hSn))
      · omega
    · simp only [if_neg hn]
      refine ⟨prev, _, rfl, fun heq => ?_⟩
      rcases hor with hS | hpast
      · have hSn := ht.next hS (by omega)
        rw [← hnext, heq] at hSn
        exact ha hSn
      · omega

/-- The search for the block before the first one climbs to the root and fails. -/
theorem stPred_base (h : Inv q S) (hlt : q.arenaBase < q.arenaEnd) :
    ∃ q', stPred q q.arenaBase (q.heapBucket q.arenaBase) = some (q.arenaBase, q') ∧
      SameHeap q q' := by
  obtain ⟨j, m, hj, -, -⟩ := h.geometry.inuse
  have hb0 : q.heapBucket q.arenaBase = 0 := by simp [HeapControl.heapBucket]
  have hf : q.bucketFirst 0 = q.arenaBase := by
    have hzero := h.first_zero hlt
    rwa [HeapControl.firstOf, if_pos h.geometry.inuse_pos] at hzero
  set q₁ : HeapControl := { q with bucketBiggest := Function.update q.bucketBiggest 0 1 } with hq₁
  obtain ⟨node, d, hnode, -, hdj, ⟨hlo, -⟩, hanc⟩ :=
    MaxTree.climbLeft_spec (B := q₁.bucketBiggest) (j := j) (l := 2 ^ j) (by simp [hq₁])
      (2 ^ j + 1) j (2 ^ j) le_rfl (by omega)
      ⟨le_rfl, by rw [pow_succ]; have := Nat.two_pow_pos j; omega⟩ (by simp)
  -- the ancestors of the leftmost leaf are the powers of two
  have hpow : node = 2 ^ d := by
    have hsplit : 2 ^ j = 2 ^ d * 2 ^ (j - d) := by rw [← pow_add]; congr 1; omega
    rw [hsplit] at hanc
    have := Nat.le_of_mul_le_mul_right hanc (by positivity)
    omega
  have hbucket : predBucket q₁ 0 = some 0 := by
    unfold predBucket
    rw [show q₁.bucketsInuse = 2 ^ j from hj]
    simp only [Nat.zero_add, hnode, Option.bind_eq_bind, Option.bind_some, hpow,
      isPowerOfTwo_two_pow, if_true]
  have hpos := h.blocks.tiling.pos (h.blocks.tiling.start hlt)
  have hwalk : predWalk q.mem q.arenaBase q.walkFuel q.arenaBase
      = some (q.arenaBase, heapNext q.arenaBase (q.mem q.arenaBase)) := by
    rw [HeapControl.walkFuel, predWalk]
    simp [heapNext]
  have hne : heapNext q.arenaBase (q.mem q.arenaBase) ≠ q.arenaBase := by
    simp only [heapNext]
    omega
  refine ⟨_, ?_, SameHeap.sentinel q 1 (some "Unable to find previous for block")⟩
  rw [hb0, stPred]
  simp only [hf, if_true, ← hq₁, hbucket, hwalk, Option.bind_eq_bind, Option.bind_some]
  rw [if_pos hne]

/-- In a bucket in use `st_pred` fails on an address that is not a block. -/
theorem stPred_passes (h : Inv q S) (ha : ¬ S a) (hbase : q.arenaBase ≤ a) (hlt : a < q.arenaEnd)
    (hin : q.heapBucket a < q.bucketsInuse) :
    ∃ q', stPred q a (q.heapBucket a) = some (a, q') ∧ SameHeap q q' := by
  have hfo : q.firstOf (q.heapBucket a) = q.bucketFirst (q.heapBucket a) := if_pos hin
  have hend := h.geometry.arenaEnd
  have hfirst := (h.first (q.heapBucket a)).found
  rw [hfo] at hfirst
  have hor : S (q.bucketFirst (q.heapBucket a)) ∨ a < q.bucketFirst (q.heapBucket a) := by
    rcases hfirst with ⟨hS, -⟩ | hpast
    · exact Or.inl hS
    · have := (h.geometry.lt_bucketEnd_iff (k := q.heapBucket a) hlt hbase).mpr le_rfl
      exact Or.inr (by omega)
  have hf : q.bucketFirst (q.heapBucket a) ≠ a := by
    rintro heq
    rcases hor with hS | hpast
    · exact ha (heq ▸ hS)
    · omega
  have hfuel : a - q.bucketFirst (q.heapBucket a) < q.walkFuel := by
    unfold HeapControl.walkFuel
    rcases hor with hS | hpast
    · have := h.blocks.tiling.lo_le hS
      omega
    · omega
  obtain ⟨p, s, hwalk, hs⟩ := predWalk_passes h.blocks.tiling ha hlt _ _ hfuel hor
  refine ⟨{ q with heapError := some "Unable to find previous for block" }, ?_, ?_⟩
  · rw [stPred]
    simp only [if_neg hf, hwalk, Option.bind_eq_bind, Option.bind_some]
    rw [if_pos hs]
  · have := SameHeap.sentinel q (q.bucketBiggest 0) (some "Unable to find previous for block")
    rwa [Function.update_eq_self] at this

/-! ### The invariant suffices -/

theorem Inv.predFinds (h : Inv q S) : PredFinds q := by
  refine ⟨fun a ha hbase => ?_, fun a ha hbase => ?_⟩
  · obtain ⟨p, v, hp, hSp, hpa⟩ := stPred_spec h (h.isBlock_iff.mp ha) hbase
    exact ⟨p, _, hp, h.isBlock_iff.mpr hSp, hpa, SameHeap.sentinel q v q.heapError⟩
  · subst hbase
    exact stPred_base h (h.blocks.tiling.lt_hi (h.isBlock_iff.mp ha))

/-- An address is rejected when its control word is free or does not fit the size, or when it
    lies in a bucket in use. -/
theorem Inv.freeRejects (h : Inv q S) {addr size : ℕ} (hbase : q.arenaBase ≤ addr)
    (hlt : addr < q.arenaEnd)
    (hword : blockFree (q.mem addr) = false →
      (blockSize (q.mem addr) : ℤ) = byte2word size → q.heapBucket addr < q.bucketsInuse)
    (hlive : ¬ LiveBlock q addr size) : FreeRejects q (addr + 1) size := by
  unfold FreeRejects stFree
  rw [Nat.add_sub_cancel]
  by_cases hfree : blockFree (q.mem addr) = true
  · exact ⟨-1, q, by simp [hfree], by norm_num, SameHeap.refl q⟩
  rw [Bool.not_eq_true] at hfree
  by_cases hsize : (blockSize (q.mem addr) : ℤ) = byte2word size
  · have hpred : ∃ q', stPred q addr (q.heapBucket addr) = some (addr, q') ∧ SameHeap q q' := by
      by_cases hS : S addr
      · have hnot : ¬ q.arenaBase < addr := fun hb =>
          hlive ⟨h.isBlock_iff.mpr hS, hb, hfree, hsize⟩
        obtain rfl : q.arenaBase = addr := by omega
        exact stPred_base h hlt
      · exact stPred_passes h hS hbase hlt (hword hfree hsize)
    obtain ⟨q', hq', hsame⟩ := hpred
    exact ⟨-3, q', by simp [hfree, hsize, hq'], by norm_num, hsame⟩
  · exact ⟨-2, q, by simp [hfree, hsize], by norm_num, SameHeap.refl q⟩

/-- A live block is freed, not rejected. -/
theorem Inv.freeRejects_live (h : Inv q S) {addr size : ℕ} (hlive : LiveBlock q addr size) :
    ¬ FreeRejects q (addr + 1) size := by
  obtain ⟨hb, hbase, hused, hsize⟩ := hlive
  rw [blockFree, decide_eq_false_iff_not, not_le] at hused
  rw [byte2word_eq, Nat.cast_inj] at hsize
  obtain ⟨q', l, r, hfree, -⟩ := stFree_spec h (h.isBlock_iff.mp hb) hbase hused size hsize
  rintro ⟨c, q'', hc, hneg, -⟩
  rw [hfree, Option.some.injEq, Prod.mk.injEq] at hc
  omega

/-- What clients hold are live blocks. -/
theorem Ledger.liveBlock {h : Heap} (hl : Ledger h S) {p : ℕ × ℕ} (hp : p ∈ h.live) :
    LiveBlock h.q (p.1 - 1) p.2 := by
  obtain ⟨hlo, hS, -, -⟩ := hl.block p hp
  obtain ⟨hsize, hused⟩ := hl.size hp
  refine ⟨hl.inv.isBlock_iff.mpr hS, by omega, ?_, by rw [hsize, byte2word_eq]⟩
  rw [blockFree, decide_eq_false_iff_not]
  omega

/-! ### Runs -/

/-- **Searches.** In a run whose calls meet `Enters`, `st_pred` finds the block before every
    block and `st_free` rejects just the addresses of the arena that do not name a live block;
    an address whose control word could be that of a live block must lie in a bucket in use. -/
theorem reachable_searches (h : Heap) (hr : Reachable Enters h) :
    PredFinds h.q ∧ (∀ p ∈ h.live, LiveBlock h.q (p.1 - 1) p.2) ∧
    ∀ addr size, h.q.arenaBase ≤ addr → addr < h.q.arenaEnd →
      (blockFree (h.q.mem addr) = false → (blockSize (h.q.mem addr) : ℤ) = byte2word size →
        h.q.heapBucket addr < h.q.bucketsInuse) →
      (FreeRejects h.q (addr + 1) size ↔ ¬ LiveBlock h.q addr size) := by
  obtain ⟨S, hl⟩ := hr.ledger
  refine ⟨hl.inv.predFinds, fun p hp => hl.liveBlock hp, fun addr size hbase hlt hword => ?_⟩
  constructor
  · exact fun hrej hlive => hl.inv.freeRejects_live hlive hrej
  · exact hl.inv.freeRejects hbase hlt hword

/-- A heap of two buckets, as built. -/
theorem reachable_searches_ctor :
    ∃ q, stCtor (fun _ => 0) (fun _ => 0) (fun _ => 0) (2 ^ 1) 16 0 = some q ∧ PredFinds q := by
  obtain ⟨q, -, hq, -⟩ := stCtor_ledger (fun _ => 0) (fun _ => 0) (fun _ => 0) 1 16 0
    (by norm_num)
  exact ⟨q, hq, (reachable_searches ⟨q, []⟩ (Reachable.ctor (by norm_num) hq)).1⟩

/-- Two buckets of eight words as built over an arena in which word 9 looks like an allocated
    block of one word, with a left-over first-block pointer for the second bucket. -/
def leftOver : Option HeapControl :=
  stCtor (fun _ => 0) (fun k => if k = 1 then 8 else 0)
    (fun a => if a = 8 then 1 else if a = 9 then usedWord 1 else 0) (2 ^ 1) 16 0

/-- **Missed and accepted.** After the run of `staleFirst` the search for the block before the
    free block at word 9 fails, and in the heap of `leftOver`, whose second bucket is not in use
    yet, `st_free` accepts the inside of a free block. -/
theorem searches_fail :
    (∃ h, Reachable (fun _ _ => True) h ∧ ¬ PredFinds h.q) ∧
    ∃ q, Reachable Enters ⟨q, []⟩ ∧ ¬ LiveBlock q 9 0 ∧ ¬ FreeRejects q (9 + 1) 0 := by
  constructor
  · have heval : (staleFirst.map fun h => [h.q.arenaBase, h.q.arenaEnd, h.q.wordsPerBucket,
        blockSize (h.q.mem 0), blockSize (h.q.mem 1), blockSize (h.q.mem 9),
        ((stPred h.q 9 1).map Prod.fst).getD 0]) = some [0, 16, 8, 1, 8, 1, 9] := by
      decide +kernel
    obtain ⟨h, hh, hval⟩ := Option.map_eq_some_iff.mp heval
    obtain ⟨q, hq, hrun⟩ := Option.bind_eq_some_iff.mp hh
    simp only [List.cons.injEq, and_true] at hval
    obtain ⟨hbase, hend, hwpb, hs0, hs1, hs9, hpred⟩ := hval
    refine ⟨h, (Reachable.ctor (by norm_num) hq).run hrun, fun hfinds => ?_⟩
    have hb0 : IsBlock h.q 0 := by
      unfold IsBlock
      rw [hbase]
      exact BlockAt.start (by omega)
    have hb1 : IsBlock h.q (0 + blockSize (h.q.mem 0)) := BlockAt.next hb0 (by omega)
    rw [hs0, Nat.zero_add] at hb1
    have hb9 : IsBlock h.q (1 + blockSize (h.q.mem 1)) := BlockAt.next hb1 (by omega)
    rw [hs1] at hb9
    have hk : h.q.heapBucket 9 = 1 := by rw [HeapControl.heapBucket, hbase, hwpb]
    obtain ⟨p, q', hp, -, hadd, -⟩ := hfinds.before 9 hb9 (by omega)
    rw [hk] at hp
    rw [hp, Option.map_some, Option.getD_some] at hpred
    subst hpred
    omega
  · have heval : (leftOver.map fun q => [q.arenaBase, q.arenaEnd, blockSize (q.mem 0),
        blockSize (q.mem 1), ((stFree q (9 + 1) 0).map fun r => r.1.natAbs).getD 1])
        = some [0, 16, 1, 15, 0] := by decide +kernel
    obtain ⟨q, hq, hval⟩ := Option.map_eq_some_iff.mp heval
    simp only [List.cons.injEq, and_true] at hval
    obtain ⟨hbase, hend, hs0, hs1, hfree⟩ := hval
    have hr : Reachable Enters ⟨q, []⟩ := Reachable.ctor (by norm_num) hq
    refine ⟨q, hr, ?_, ?_⟩
    · rintro ⟨hb, -⟩
      obtain ⟨S, hl⟩ := hr.ledger
      have hi : Inv q S := hl.inv
      have ht := hi.blocks.tiling
      have hS0 : S (0 + blockSize (q.mem 0)) := ht.next (hbase ▸ ht.start (by omega)) (by omega)
      rw [hs0, Nat.zero_add] at hS0
      have := ht.gap hS0 (hi.isBlock_iff.mp hb) (by omega)
      omega
    · rintro ⟨c, q', hc, hneg, -⟩
      rw [hc, Option.map_some, Option.getD_some] at hfree
      omega

end CohKernel.StAlloc
