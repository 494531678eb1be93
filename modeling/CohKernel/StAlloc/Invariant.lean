import CohKernel.Lib.Tiling
import CohKernel.StAlloc.Index

namespace CohKernel.StAlloc

open CohKernel.Lib

/-!
# The heap invariant

`Inv q S` is the invariant the operations keep, with the set `S` of block starts as a ghost;
`WellFormed q` is the same invariant as `st_assert` spells it out, about the blocks one
reaches by walking the control words from the start of the arena.

* `Blocks` — the blocks tile the arena, their control words are well formed, and no two
  adjacent blocks are free; `Blocks.recut` keeps it under every split and merge;
* `FirstOK`, `LeafOK` — the entries of the two tables for one bucket;
* `stReduced_spec` — `st_reduced` makes one leaf exact.
-/

/-! ### Control words -/

theorem blockSize_usedWord {n : ℤ} (h0 : 0 ≤ n) (hn : n < 2 ^ 31) :
    (blockSize (usedWord n) : ℤ) = n := by
  unfold blockSize usedWord; omega

theorem blockSize_freeWord {n : ℤ} (h0 : 0 ≤ n) (hn : n < 2 ^ 31) :
    (blockSize (freeWord n) : ℤ) = n := by
  unfold blockSize freeWord; omega

theorem freeWord_eq {n : ℤ} (h0 : 0 ≤ n) (hn : n < 2 ^ 31) : freeWord n = n := by
  unfold freeWord; omega

theorem usedWord_eq {n : ℤ} (h0 : 0 ≤ n) (hn : n < 2 ^ 31) : usedWord n = n - 2 ^ 31 := by
  unfold usedWord; omega

theorem usedWord_neg (n : ℤ) : usedWord n < 0 := by
  unfold usedWord; omega

/-! ### Blocks -/

/-- The blocks that start in `S` tile `[lo, hi)`; their control words hold a size and a flag;
    a free block is never followed by a free block. -/
structure Blocks (mem : ℕ → ℤ) (lo hi : ℕ) (S : ℕ → Prop) : Prop where
  tiling : Tiling (fun a => blockSize (mem a)) lo hi S
  ctrl : ∀ {a}, S a → mem a = blockSize (mem a) ∨ mem a = (blockSize (mem a) : ℤ) - 2 ^ 31
  separated : ∀ {a}, S a → S (a + blockSize (mem a)) → 0 ≤ mem a →
    mem (a + blockSize (mem a)) < 0

variable {mem mem' : ℕ → ℤ} {lo hi : ℕ} {S : ℕ → Prop}

/-- A free block's control word is its size. -/
theorem Blocks.free_eq (h : Blocks mem lo hi S) (hspace : hi ≤ 2 ^ 30) {a : ℕ} (ha : S a)
    (hfree : 0 ≤ mem a) : mem a = blockSize (mem a) := by
  have := h.tiling.end_le ha
  rcases h.ctrl ha with h | h
  · exact h
  · omega

/-- A used block's control word is its size with the sign bit set. -/
theorem Blocks.used_eq (h : Blocks mem lo hi S) {a : ℕ} (ha : S a) (hused : mem a < 0) :
    mem a = (blockSize (mem a) : ℤ) - 2 ^ 31 := by
  rcases h.ctrl ha with h | h
  · omega
  · exact h

/-- **Recut.** The run `[l, r)` becomes the block `[l, e)`, used or (if `e = r` and the block
    before it is used) free, and the free block `[e, r)`; the block at `r` must be used
    whenever it now follows a free one. -/
theorem Blocks.recut (h : Blocks mem lo hi S) (hspace : hi ≤ 2 ^ 30) {l e r : ℕ} (hl : S l)
    (hle : l < e) (her : e ≤ r) (hr : r < hi → S r) (hrhi : r ≤ hi)
    (hout : ∀ a, S a → a < l ∨ r ≤ a → mem' a = mem a)
    (hl' : mem' l = usedWord ((e : ℤ) - l) ∨ mem' l = freeWord ((e : ℤ) - l) ∧ e = r ∧
      ∀ p, S p → p + blockSize (mem p) = l → mem p < 0)
    (he' : e < r → mem' e = freeWord ((r : ℤ) - e))
    (hright : r < hi → e < r ∨ 0 ≤ mem' l → mem r < 0) :
    Blocks mem' lo hi (RecutStarts S l e r) := by
  have hszl : blockSize (mem' l) = e - l := by
    rcases hl' with h | ⟨h, _⟩ <;> rw [h]
    · have := blockSize_usedWord (n := (e : ℤ) - l) (by omega) (by omega); omega
    · have := blockSize_freeWord (n := (e : ℤ) - l) (by omega) (by omega); omega
  have hsze : e < r → blockSize (mem' e) = r - e := by
    intro hlt
    rw [he' hlt]
    have := blockSize_freeWord (n := (r : ℤ) - e) (by omega) (by omega); omega
  have ht : Tiling (fun a => blockSize (mem' a)) lo hi (RecutStarts S l e r) :=
    h.tiling.recut hl hle her hr hrhi (fun a ha hor => by rw [hout a ha hor]) hszl hsze
  refine ⟨ht, ?_, ?_⟩
  · rintro a (⟨ha, hor⟩ | rfl | ⟨rfl, hlt⟩)
    · rw [hout a ha hor]; exact h.ctrl ha
    · rw [hszl]
      rcases hl' with h | ⟨h, _⟩ <;> rw [h]
      · right; rw [usedWord_eq (by omega) (by omega)]; omega
      · left; rw [freeWord_eq (by omega) (by omega)]; omega
    · left
      rw [hsze hlt, he' hlt, freeWord_eq (by omega) (by omega)]; omega
  · rintro a (⟨ha, hor⟩ | rfl | ⟨rfl, hlt⟩) hn hfree
    · rw [hout a ha hor] at hn hfree ⊢
      rcases hn with ⟨hn, hnor⟩ | heq | ⟨heq, _⟩
      · rw [hout _ hn hnor]; exact h.separated ha hn hfree
      · rcases hl' with hu | ⟨_, _, hp⟩
        · rw [heq, hu]; exact usedWord_neg _
        · exact absurd hfree (not_le.mpr (hp a ha heq))
      · -- no block outside the run ends inside it
        rcases hor with hal | hra
        · have hend : a + blockSize (mem a) ≤ l := h.tiling.gap ha hl hal
          omega
        · omega
    · rw [hszl, show a + (e - a) = e by omega] at hn ⊢
      rcases hl' with hu | ⟨_, rfl, _⟩
      · rw [hu] at hfree; exact absurd hfree (not_le.mpr (usedWord_neg _))
      · have hlt := ht.lt_hi hn
        have hSr := hr hlt
        rw [hout _ hSr (Or.inr le_rfl)]
        exact hright hlt (Or.inr hfree)
    · rw [hsze hlt, show a + (r - a) = r by omega] at hn ⊢
      have hlthi := ht.lt_hi hn
      rw [hout _ (hr hlthi) (Or.inr le_rfl)]
      exact hright hlthi (Or.inl hlt)

/-! ### One bucket's entries -/

/-- `f` is the first block that starts in bucket `k`, or lies past the end of the bucket when
    no block starts in it. -/
structure FirstOK (q : HeapControl) (S : ℕ → Prop) (k f : ℕ) : Prop where
  le : ∀ a, S a → q.heapBucket a = k → f ≤ a
  found : (S f ∧ q.heapBucket f = k) ∨ q.bucketEnd k ≤ f

/-- `v` is the size of the largest free block that starts in bucket `k`, `0` if there is
    none. -/
structure LeafOK (q : HeapControl) (S : ℕ → Prop) (k : ℕ) (v : ℤ) : Prop where
  nonneg : 0 ≤ v
  bound : ∀ a, S a → q.heapBucket a = k → q.mem a ≤ v
  attained : v = 0 ∨ ∃ a, S a ∧ q.heapBucket a = k ∧ q.mem a = v

/-- The invariant of the heap, with its block starts. -/
structure Inv (q : HeapControl) (S : ℕ → Prop) : Prop where
  geometry : Geometry q
  blocks : Blocks q.mem q.arenaBase q.arenaEnd S
  tree : MaxTree.IsMaxTree q.bucketBiggest q.bucketsInuse
  first : ∀ k, FirstOK q S k (q.firstOf k)
  leaf : ∀ k, LeafOK q S k (q.leafOf k)

theorem Inv.index {q : HeapControl} (h : Inv q S) : IndexTree q :=
  ⟨h.tree, fun k => (h.leaf k).nonneg⟩

theorem FirstOK.inuse {q : HeapControl} {a : ℕ}
    (h : FirstOK q S (q.heapBucket a) (q.firstOf (q.heapBucket a))) (ha : S a)
    (hlt : a < q.arenaEnd) : q.heapBucket a < q.bucketsInuse := by
  by_contra hcon
  have hle := h.le a ha rfl
  rw [HeapControl.firstOf, if_neg hcon] at hle
  omega

/-- Every block starts in a bucket that is in use. -/
theorem Inv.inuse {q : HeapControl} (h : Inv q S) {a : ℕ} (ha : S a) :
    q.heapBucket a < q.bucketsInuse :=
  (h.first _).inuse ha (h.blocks.tiling.lt_hi ha)

/-! ### `st_reduced` -/

/-- The walk of `st_reduced` finds the largest of the blocks it passes. -/
theorem reducedWalk_spec (ht : Tiling (fun a => blockSize (mem a)) lo hi S) {stop : ℕ}
    (hstop : stop ≤ hi) : ∀ (fuel first : ℕ) (m : ℤ), stop - first < fuel →
    (first < stop → S first) →
    ∃ v, reducedWalk mem stop fuel first m = some v ∧ m ≤ v ∧
      (∀ a, S a → first ≤ a → a < stop → mem a ≤ v) ∧
      (v = m ∨ ∃ a, S a ∧ first ≤ a ∧ a < stop ∧ mem a = v) := by
  intro fuel
  induction fuel with
  | zero => intro first m hf; omega
  | succ fuel ih =>
    intro first m hf hS
    unfold reducedWalk
    by_cases hlt : first < stop
    · have hSf := hS hlt
      have hpos := ht.pos hSf
      rw [if_pos hlt]
      simp only [heapNext]
      obtain ⟨v, hv, hm, hub, hatt⟩ := ih (first + blockSize (mem first))
        (if m < mem first then mem first else m) (by omega)
        (fun hlt' => ht.next hSf (by omega))
      have hm' : m ≤ v ∧ mem first ≤ v := by split_ifs at hm <;> omega
      refine ⟨v, hv, hm'.1, fun a ha hfa has => ?_, ?_⟩
      · rcases Nat.eq_or_lt_of_le hfa with rfl | hlt'
        · exact hm'.2
        · exact hub a ha (ht.gap hSf ha hlt') has
      · rcases hatt with heq | ⟨a, ha, hfa, has, hav⟩
        · split_ifs at heq
          · exact Or.inr ⟨first, hSf, le_rfl, hlt, heq.symm⟩
          · exact Or.inl heq
        · exact Or.inr ⟨a, ha, by omega, has, hav⟩
    · rw [if_neg hlt]
      exact ⟨m, rfl, le_rfl, fun a _ hfa has => absurd has (by omega), Or.inl rfl⟩

/-- **`st_reduced`** makes the leaf of its bucket exact, provided the leaf was not too small,
    and leaves the other buckets alone. -/
theorem stReduced_spec {q : HeapControl} (hg : Geometry q) (hi : IndexTree q)
    (ht : Tiling (fun a => blockSize (q.mem a)) q.arenaBase q.arenaEnd S) {k : ℕ}
    (hk : k < q.bucketsInuse) (hf : FirstOK q S k (q.firstOf k))
    (hub : ∀ a, S a → q.heapBucket a = k → q.mem a ≤ q.leafOf k) :
    ∃ q' v, stReduced q k = some q' ∧ SameArena q q' ∧ Geometry q' ∧ IndexTree q' ∧
      q'.bucketsInuse = q.bucketsInuse ∧ (∀ i, q'.firstOf i = q.firstOf i) ∧ LeafOK q S k v ∧
      (∀ i, q'.leafOf i = if i = k then v else q.leafOf i) := by
  have hend := hg.arenaEnd
  have hfirst : q.firstOf k = q.bucketFirst k := if_pos hk
  have hleaf : q.leafOf k = q.leaf k := if_pos hk
  -- the end of the walk is the end of the bucket
  have hstop : (if q.arenaBase + (k + 1) * q.wordsPerBucket ≥ q.arenaEnd then q.arenaEnd
      else q.arenaBase + (k + 1) * q.wordsPerBucket) = q.bucketEnd k := by
    rw [HeapControl.bucketEnd]; split_ifs <;> omega
  have hble : q.bucketEnd k ≤ q.arenaEnd := min_le_right _ _
  have hSf : q.bucketFirst k < q.bucketEnd k → S (q.bucketFirst k) := by
    intro hlt
    rw [← hfirst] at hlt ⊢
    rcases hf.found with ⟨h, _⟩ | h
    · exact h
    · omega
  have hlow : q.bucketFirst k < q.bucketEnd k → q.arenaBase ≤ q.bucketFirst k :=
    fun hlt => ht.lo_le (hSf hlt)
  obtain ⟨v, hv, hv0, hvub, hvatt⟩ := reducedWalk_spec ht hble q.walkFuel (q.bucketFirst k) 0
    (by unfold HeapControl.walkFuel; omega) hSf
  -- the blocks the walk passes are the blocks of the bucket
  have hin : ∀ a, S a → (q.heapBucket a = k ↔ q.bucketFirst k ≤ a ∧ a < q.bucketEnd k) := by
    intro a ha
    have hlt := ht.lt_hi ha
    have hlo := ht.lo_le ha
    have hle := hg.lt_bucketEnd_iff (k := k) hlt hlo
    constructor
    · intro hb
      exact ⟨hfirst ▸ hf.le a ha hb, hle.mpr hb.le⟩
    · rintro ⟨hfa, hae⟩
      have hbk := hle.mp hae
      have hSfk := hSf (by omega)
      rcases hf.found with ⟨_, hbf⟩ | hpast
      · have hmono : q.heapBucket (q.bucketFirst k) ≤ q.heapBucket a :=
          Nat.div_le_div_right (by omega)
        rw [← hfirst] at hmono
        omega
      · omega
  have hok : LeafOK q S k v :=
    ⟨hv0, fun a ha hb => hvub a ha ((hin a ha).mp hb).1 ((hin a ha).mp hb).2, by
      rcases hvatt with h | ⟨a, ha, hfa, hae, hav⟩
      · exact Or.inl h
      · exact Or.inr ⟨a, ha, (hin a ha).mpr ⟨hfa, hae⟩, hav⟩⟩
  have hvle : v ≤ q.leafOf k := by
    rcases hok.attained with h | ⟨a, ha, hb, hav⟩
    · rw [h]; exact hi.leaf_nonneg k
    · rw [← hav]; exact hub a ha hb
  -- the climb
  have htree : MaxTree.IsMaxTree (Function.update q.bucketBiggest 0 0) q.bucketsInuse := by
    intro i hi1 hiK
    rw [Function.update_of_ne (by omega), Function.update_of_ne (by omega),
      Function.update_of_ne (by omega)]
    exact hi.tree i hi1 hiK
  obtain ⟨B', hB', htree', hBk, hother⟩ :=
    MaxTree.lower_leaf (b := k + q.bucketsInuse) (m := v) (k + q.bucketsInuse + 1) htree
      (by rw [Function.update_self]; exact hv0)
      (by rw [Function.update_of_ne (by omega)]; rw [hleaf, HeapControl.leaf] at hvle; exact hvle)
        (by omega) (by omega)
      (by omega)
  have hres : stReduced q k = some { q with bucketBiggest := B' } := by
    simp only [stReduced, hstop, hv, Option.bind_eq_bind, Option.bind_some, hB']
  have hl : ∀ i, HeapControl.leafOf { q with bucketBiggest := B' } i
      = if i = k then v else q.leafOf i := by
    intro i
    simp only [HeapControl.leafOf, HeapControl.leaf]
    by_cases hik : i = k
    · subst hik
      rw [if_pos hk, if_pos rfl, hBk]
    · rw [if_neg hik]
      by_cases hiK : i < q.bucketsInuse
      · rw [if_pos hiK, if_pos hiK, hother _ (by omega) (by omega),
          Function.update_of_ne (by omega)]
      · rw [if_neg hiK, if_neg hiK]
  have hs : SameArena q { q with bucketBiggest := B' } := ⟨rfl, rfl, rfl, rfl, rfl, rfl⟩
  refine ⟨_, v, hres, hs, hs.geometry hg hg.inuse, ?_, rfl, fun _ => rfl, hok, hl⟩
  exact hi.of_leaf hv0 htree' hl

end CohKernel.StAlloc
