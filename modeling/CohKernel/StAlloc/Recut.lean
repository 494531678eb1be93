import CohKernel.StAlloc.Pred

namespace CohKernel.StAlloc

open CohKernel.Lib

/-!
# The tables after a recut

Every call replaces the blocks of one run `[l, r)` by the block `[l, e)` and, unless `e = r`,
the free block `[e, r)`.  `Recut q q' S l e r` says so; the lemmas below say which table
entries of `q` still serve the new blocks, and what the others must become.

* `Recut.first_kept`, `Recut.first_split`, `Recut.first_past` — the first-block pointers;
* `Recut.leaf_bound`, `Recut.leaf_kept`, `Recut.leaf_max` — the leaves;
* `reduceWhen_spec`, `growWhen_spec` — the guarded calls of `st_reduced` and `st_grown`.
-/

/-- `q'` has the arena of `q`, in which the run `[l, r)` has been recut at `e`. -/
structure Recut (q q' : HeapControl) (S : ℕ → Prop) (l e r : ℕ) : Prop where
  heapBucket : q'.heapBucket = q.heapBucket
  bucketEnd : q'.bucketEnd = q.bucketEnd
  left : S l
  lt : l < e
  le : e ≤ r
  right : r < q.arenaEnd → S r
  le_end : r ≤ q.arenaEnd
  outside : ∀ a, S a → a < l ∨ r ≤ a → q'.mem a = q.mem a

variable {q q' : HeapControl} {S : ℕ → Prop} {l e r k f : ℕ} {v : ℤ}

theorem HeapControl.heapBucket_mono (q : HeapControl) {a b : ℕ} (h : a ≤ b) :
    q.heapBucket a ≤ q.heapBucket b :=
  Nat.div_le_div_right (by omega)

theorem Recut.mem_left : RecutStarts S l e r l := Or.inr (Or.inl rfl)

theorem Recut.mem_split (h : e < r) : RecutStarts S l e r e := Or.inr (Or.inr ⟨rfl, h⟩)

/-- A recut followed by changes to the tables only. -/
theorem Recut.trans_same {q'' : HeapControl} (h : Recut q q' S l e r) (hs : SameArena q' q'') :
    Recut q q'' S l e r :=
  ⟨by rw [hs.heapBucket, h.heapBucket], by rw [hs.bucketEnd, h.bucketEnd], h.left, h.lt, h.le,
    h.right, h.le_end, fun a ha ho => by rw [hs.mem, h.outside a ha ho]⟩

/-! ### Cutting a run into a used and a free block -/

/-- The arena after the run `[l, r)` has become a used block `[l, e)` and, unless `e = r`, a free
    block `[e, r)`. -/
def cutMem (mem : ℕ → ℤ) (l e r : ℕ) : ℕ → ℤ :=
  if e < r then
    Function.update (Function.update mem l (usedWord ((e : ℤ) - l))) e (freeWord ((r : ℤ) - e))
  else Function.update mem l (usedWord ((e : ℤ) - l))

theorem cutMem_left {mem : ℕ → ℤ} (h : l < e) : cutMem mem l e r l = usedWord ((e : ℤ) - l) := by
  unfold cutMem
  split_ifs
  · rw [Function.update_of_ne (by omega), Function.update_self]
  · rw [Function.update_self]

theorem cutMem_split {mem : ℕ → ℤ} (h : e < r) : cutMem mem l e r e = freeWord ((r : ℤ) - e) := by
  rw [cutMem, if_pos h, Function.update_self]

theorem cutMem_outside {mem : ℕ → ℤ} {a : ℕ} (ha : a ≠ l) (ha' : e < r → a ≠ e) :
    cutMem mem l e r a = mem a := by
  unfold cutMem
  split_ifs with h
  · rw [Function.update_of_ne (ha' h), Function.update_of_ne ha]
  · rw [Function.update_of_ne ha]

theorem blockSetFree_blockSetUsed (h : e < r) :
    (q.blockSetUsed l ((e : ℤ) - l)).blockSetFree e ((r : ℤ) - e)
      = { q with mem := cutMem q.mem l e r } := by
  rw [cutMem, if_pos h]
  rfl

theorem blockSetUsed_eq_cut (h : ¬ e < r) :
    q.blockSetUsed l ((e : ℤ) - l) = { q with mem := cutMem q.mem l e r } := by
  rw [cutMem, if_neg h]
  rfl

/-- A run may be cut when the block after it is used or not followed by a new free block. -/
theorem Blocks.cut (h : Blocks q.mem q.arenaBase q.arenaEnd S) (hspace : q.arenaEnd ≤ 2 ^ 30)
    (hl : S l) (hle : l < e) (her : e ≤ r) (hr : r < q.arenaEnd → S r) (hrend : r ≤ q.arenaEnd)
    (hright : r < q.arenaEnd → e < r → q.mem r < 0) :
    Recut q { q with mem := cutMem q.mem l e r } S l e r ∧
      Blocks (cutMem q.mem l e r) q.arenaBase q.arenaEnd (RecutStarts S l e r) := by
  have hout : ∀ a, S a → a < l ∨ r ≤ a → cutMem q.mem l e r a = q.mem a :=
    fun a _ hor => cutMem_outside (by omega) (by omega)
  refine ⟨⟨rfl, rfl, hl, hle, her, hr, hrend, hout⟩, ?_⟩
  refine h.recut hspace hl hle her hr hrend hout (Or.inl (cutMem_left hle)) cutMem_split ?_
  rintro hlt (her' | hfree)
  · exact hright hlt her'
  · rw [cutMem_left hle] at hfree
    exact absurd hfree (not_le.mpr (usedWord_neg _))

/-! ### First-block pointers -/

/-- A first-block pointer stays right when it does not name a block inside the run, and the
    new block does not start in its bucket before all others. -/
theorem Recut.first_kept (h : Recut q q' S l e r) (hf : FirstOK q S k f)
    (hkeep : f ≤ l ∨ r ≤ f ∨ q.bucketEnd k ≤ f)
    (hsplit : e < r → q.heapBucket e = k → q.heapBucket l = k) :
    FirstOK q' (RecutStarts S l e r) k f := by
  refine ⟨?_, ?_⟩
  · rintro a (⟨ha, -⟩ | rfl | ⟨rfl, hlt⟩) hb <;> rw [h.heapBucket] at hb
    · exact hf.le a ha hb
    · exact hf.le a h.left hb
    · have := hf.le l h.left (hsplit hlt hb)
      have := h.lt
      omega
  · rw [h.heapBucket, h.bucketEnd]
    rcases hf.found with ⟨hS, hb⟩ | hpast
    · rcases hkeep with hle | hge | hpast
      · rcases Nat.eq_or_lt_of_le hle with rfl | hlt
        · exact Or.inl ⟨Recut.mem_left, hb⟩
        · exact Or.inl ⟨Or.inl ⟨hS, Or.inl hlt⟩, hb⟩
      · exact Or.inl ⟨Or.inl ⟨hS, Or.inr hge⟩, hb⟩
      · exact Or.inr hpast
    · exact Or.inr hpast

/-- A block outside the run that lies in a later bucket than `l` lies after the run. -/
theorem right_of_bucket (hlk : q.heapBucket l < k) {a : ℕ}
    (hor : a < l ∨ r ≤ a) (hb : q.heapBucket a = k) : r ≤ a := by
  rcases hor with hal | hra
  · have := q.heapBucket_mono hal.le
    omega
  · exact hra

/-- The new free block is the first one of its bucket when the run starts before it. -/
theorem Recut.first_split (h : Recut q q' S l e r) (hlt : e < r) (hk : q.heapBucket e = k)
    (hlk : q.heapBucket l < k) : FirstOK q' (RecutStarts S l e r) k e := by
  refine ⟨?_, Or.inl ⟨Recut.mem_split hlt, by rw [h.heapBucket, hk]⟩⟩
  rintro a (⟨-, hor⟩ | rfl | ⟨rfl, -⟩) hb <;> rw [h.heapBucket] at hb
  · have := right_of_bucket hlk hor hb
    omega
  · omega

/-- What `st_grown` makes of the first-block pointer of the new block's bucket. -/
theorem Recut.first_min (h : Recut q q' S l e r) (hg : Geometry q) (hlo : q.arenaBase ≤ l)
    (hf : FirstOK q S k f) (hkeep : f ≤ l ∨ e ≤ f ∨ q.bucketEnd k ≤ f) (hlt : e < r)
    (hk : q.heapBucket e = k) (hlk : q.heapBucket l < k) :
    FirstOK q' (RecutStarts S l e r) k (min f e) := by
  have hle := h.lt
  have hrend := h.le_end
  have hend : e < q.bucketEnd k := (hg.lt_bucketEnd_iff (by omega) (by omega)).mpr hk.le
  have hmin : min f e = e := by
    refine min_eq_right ?_
    rcases hkeep with hfl | hfr | hpast
    · rcases hf.found with ⟨-, hb⟩ | hpast
      · have := q.heapBucket_mono hfl
        omega
      · omega
    · omega
    · omega
  rw [hmin]
  exact h.first_split hlt hk hlk

/-- When no block but the first starts inside the run, no pointer names a removed block. -/
theorem Recut.first_inner (hf : FirstOK q S k f)
    (hinner : ∀ a, S a → l ≤ a → a < r → a = l) : f ≤ l ∨ r ≤ f ∨ q.bucketEnd k ≤ f := by
  rcases hf.found with ⟨hS, -⟩ | hpast
  · rcases Nat.lt_or_ge f l with hfl | hfl
    · exact Or.inl hfl.le
    · rcases Nat.lt_or_ge f r with hfr | hfr
      · exact Or.inl (hinner f hS hfl hfr).le
      · exact Or.inr (Or.inl hfr)
  · exact Or.inr (Or.inr hpast)

/-- When the run covers the start of bucket `k`, the block after the run is the first one. -/
theorem Recut.first_past (h : Recut q q' S l e r) (hg : Geometry q) {x : ℕ} (hx : x ≤ r)
    (hxb : q.arenaBase ≤ x) (hxk : q.heapBucket x = k) (hlk : q.heapBucket l < k)
    (hsplit : e < r → q.heapBucket e ≠ k) : FirstOK q' (RecutStarts S l e r) k r := by
  refine ⟨?_, ?_⟩
  · rintro a (⟨-, hor⟩ | rfl | ⟨rfl, hlt⟩) hb <;> rw [h.heapBucket] at hb
    · exact right_of_bucket hlk hor hb
    · omega
    · exact absurd hb (hsplit hlt)
  · rw [h.heapBucket, h.bucketEnd]
    rcases Nat.lt_or_ge r (q.bucketEnd k) with hlt | hge
    · have hend : r < q.arenaEnd := lt_of_lt_of_le hlt (min_le_right _ _)
      have hle := (hg.lt_bucketEnd_iff (k := k) hend (by omega)).mp hlt
      have := q.heapBucket_mono hx
      exact Or.inl ⟨Or.inl ⟨h.right hend, Or.inr le_rfl⟩, by omega⟩
    · exact Or.inr hge

/-! ### Leaves -/

/-- A leaf still bounds the free blocks of its bucket when it bounds the two new ones. -/
theorem Recut.leaf_bound (h : Recut q q' S l e r) (hv : LeafOK q S k v)
    (hl : q.heapBucket l = k → q'.mem l ≤ v)
    (he : e < r → q.heapBucket e = k → q'.mem e ≤ v) :
    ∀ a, RecutStarts S l e r a → q'.heapBucket a = k → q'.mem a ≤ v := by
  rintro a (⟨ha, hor⟩ | rfl | ⟨rfl, hlt⟩) hb <;> rw [h.heapBucket] at hb
  · rw [h.outside a ha hor]; exact hv.bound a ha hb
  · exact hl hb
  · exact he hlt hb

/-- Leaves that have only grown bound all blocks when they bound the two new ones. -/
theorem Recut.bound (h : Recut q q' S l e r)
    (hv : ∀ a, S a → q.mem a ≤ q'.leafOf (q.heapBucket a))
    (hl : q'.mem l ≤ q'.leafOf (q.heapBucket l))
    (he : e < r → q'.mem e ≤ q'.leafOf (q.heapBucket e)) :
    ∀ a, RecutStarts S l e r a → q'.mem a ≤ q'.leafOf (q'.heapBucket a) := by
  rintro a (⟨ha, hor⟩ | rfl | ⟨rfl, hlt⟩) <;> rw [h.heapBucket]
  · rw [h.outside a ha hor]; exact hv a ha
  · exact hl
  · exact he hlt

/-- A leaf that bounds the new blocks is exact when no block of the run attained it. -/
theorem Recut.leaf_of_bound (h : Recut q q' S l e r) (hv : LeafOK q S k v)
    (hub : ∀ a, RecutStarts S l e r a → q'.heapBucket a = k → q'.mem a ≤ v)
    (hin : ∀ a, S a → l ≤ a → a < r → q.heapBucket a = k → q.mem a = v → v = 0) :
    LeafOK q' (RecutStarts S l e r) k v := by
  refine ⟨hv.nonneg, hub, ?_⟩
  rcases hv.attained with h0 | ⟨a, ha, hb, hav⟩
  · exact Or.inl h0
  · by_cases hor : a < l ∨ r ≤ a
    · exact Or.inr ⟨a, Or.inl ⟨ha, hor⟩, by rw [h.heapBucket, hb], by rw [h.outside a ha hor, hav]⟩
    · exact Or.inl (hin a ha (by omega) (by omega) hb hav)

/-- A leaf stays exact when it bounds the two new blocks and no block of the run attained
    it. -/
theorem Recut.leaf_kept (h : Recut q q' S l e r) (hv : LeafOK q S k v)
    (hl : q.heapBucket l = k → q'.mem l ≤ v)
    (he : e < r → q.heapBucket e = k → q'.mem e ≤ v)
    (hin : ∀ a, S a → l ≤ a → a < r → q.heapBucket a = k → q.mem a = v → v = 0) :
    LeafOK q' (RecutStarts S l e r) k v :=
  h.leaf_of_bound hv (h.leaf_bound hv hl he) hin

/-- A leaf raised to one of the new blocks is exact when no block of the run attains it. -/
theorem Recut.leaf_max (h : Recut q q' S l e r) (hv : LeafOK q S k v) {x : ℕ}
    (hx : RecutStarts S l e r x) (hxk : q.heapBucket x = k)
    (hl : q.heapBucket l = k → q'.mem l ≤ max v (q'.mem x))
    (he : e < r → q.heapBucket e = k → q'.mem e ≤ max v (q'.mem x))
    (hin : ∀ a, S a → l ≤ a → a < r → q.heapBucket a = k → q.mem a = v →
      v = 0 ∨ v ≤ q'.mem x) :
    LeafOK q' (RecutStarts S l e r) k (max v (q'.mem x)) := by
  have hnn := hv.nonneg
  refine ⟨le_max_of_le_left hnn, ?_, ?_⟩
  · rintro a (⟨ha, hor⟩ | rfl | ⟨rfl, hlt⟩) hb <;> rw [h.heapBucket] at hb
    · rw [h.outside a ha hor]; exact le_max_of_le_left (hv.bound a ha hb)
    · exact hl hb
    · exact he hlt hb
  · have hmax : v ≤ q'.mem x →
        ∃ a, RecutStarts S l e r a ∧ q'.heapBucket a = k ∧ q'.mem a = max v (q'.mem x) :=
      fun hle => ⟨x, hx, by rw [h.heapBucket, hxk], (max_eq_right hle).symm⟩
    rcases le_or_gt v (q'.mem x) with hle | hgt
    · exact Or.inr (hmax hle)
    · rw [max_eq_left hgt.le]
      rcases hv.attained with h0 | ⟨a, ha, hb, hav⟩
      · exact Or.inl h0
      · by_cases hor : a < l ∨ r ≤ a
        · exact Or.inr ⟨a, Or.inl ⟨ha, hor⟩, by rw [h.heapBucket, hb],
            by rw [h.outside a ha hor, hav]⟩
        · rcases hin a ha (by omega) (by omega) hb hav with h0 | hle
          · exact Or.inl h0
          · omega

/-! ### Guarded updates of the index heap -/

/-- What a change to the tables alone leaves behind. -/
structure Retabled (q q' : HeapControl) : Prop where
  same : SameArena q q'
  geometry : Geometry q'
  index : IndexTree q'

/-- A guarded call of `st_reduced`: if the guard only fails when the leaf is exact, the leaf
    is exact afterwards. -/
theorem reduceWhen_spec {p : Prop} [Decidable p] (hg : Geometry q) (hi : IndexTree q)
    (ht : Tiling (fun a => blockSize (q.mem a)) q.arenaBase q.arenaEnd S)
    (hk : k < q.bucketsInuse) (hf : FirstOK q S k (q.firstOf k))
    (hub : ∀ a, S a → q.heapBucket a = k → q.mem a ≤ q.leafOf k)
    (hp : ¬ p → LeafOK q S k (q.leafOf k)) :
    ∃ q', reduceWhen p q k = some q' ∧ Retabled q q' ∧
      q'.bucketsInuse = q.bucketsInuse ∧ (∀ i, q'.firstOf i = q.firstOf i) ∧
      LeafOK q S k (q'.leafOf k) ∧ (∀ i, i ≠ k → q'.leafOf i = q.leafOf i) := by
  by_cases h : p
  · obtain ⟨q', v, hq', hs, hg', hi', hK, hfirst, hok, hleaf⟩ := stReduced_spec hg hi ht hk hf hub
    refine ⟨q', by unfold reduceWhen; rw [if_pos h, hq'], ⟨hs, hg', hi'⟩, hK, hfirst, ?_, ?_⟩
    · rw [hleaf, if_pos rfl]; exact hok
    · intro i hne
      rw [hleaf, if_neg hne]
  · exact ⟨q, by unfold reduceWhen; rw [if_neg h], ⟨SameArena.refl q, hg, hi⟩, rfl, fun _ => rfl,
      hp h,
      fun _ _ => rfl⟩

/-- A guarded call of `st_grown`. -/
theorem growWhen_spec {p : Prop} [Decidable p] (hg : Geometry q) (hi : IndexTree q) {a : ℕ}
    (hk : k < q.bucketsMaximum) (ha : 0 ≤ q.mem a) :
    ∃ q', growWhen p q a k = some q' ∧ Retabled q q' ∧
      (p → k < q'.bucketsInuse) ∧ q.bucketsInuse ≤ q'.bucketsInuse ∧
      (∀ i, q'.firstOf i = if p ∧ i = k then min (q.firstOf k) a else q.firstOf i) ∧
      (∀ i, q'.leafOf i = if p ∧ i = k then max (q.leafOf k) (q.mem a) else q.leafOf i) := by
  by_cases h : p
  · obtain ⟨q', hq', hs, hg', hi', hK, hle, hfirst, hleaf⟩ := stGrown_spec hg hi hk ha
    exact ⟨q', by unfold growWhen; rw [if_pos h, hq'], ⟨hs, hg', hi'⟩, fun _ => hK, hle,
      fun i => by rw [hfirst]; simp [h], fun i => by rw [hleaf]; simp [h]⟩
  · exact ⟨q, by unfold growWhen; rw [if_neg h], ⟨SameArena.refl q, hg, hi⟩, fun hp => absurd hp h,
      le_rfl,
      fun i => by simp [h], fun i => by simp [h]⟩

/-! ### The invariant up to some leaves -/

theorem FirstOK.same (h : FirstOK q S k f) (hs : SameArena q q') : FirstOK q' S k f :=
  ⟨fun a ha hb => h.le a ha (by rw [← hs.heapBucket, hb]), by
    rw [hs.heapBucket, hs.bucketEnd]; exact h.found⟩

theorem LeafOK.same (h : LeafOK q S k v) (hs : SameArena q q') : LeafOK q' S k v := by
  refine ⟨h.nonneg, ?_, ?_⟩
  · rw [hs.heapBucket, hs.mem]; exact h.bound
  · rw [hs.heapBucket, hs.mem]; exact h.attained

/-- The invariant, except that the leaves of the buckets in `L` may be too large and that two
    free blocks may be adjacent. -/
structure Loose (q : HeapControl) (S : ℕ → Prop) (L : ℕ → Prop) : Prop where
  geometry : Geometry q
  tiling : Tiling (fun a => blockSize (q.mem a)) q.arenaBase q.arenaEnd S
  index : IndexTree q
  first : ∀ k, FirstOK q S k (q.firstOf k)
  bound : ∀ a, S a → q.mem a ≤ q.leafOf (q.heapBucket a)
  leaf : ∀ k, ¬ L k → LeafOK q S k (q.leafOf k)

/-- With the blocks in order and no leaf left to correct, the invariant holds. -/
theorem Loose.inv {L : ℕ → Prop} (h : Loose q S L) (hL : ∀ k, ¬ L k)
    (hb : Blocks q.mem q.arenaBase q.arenaEnd S) : Inv q S :=
  ⟨h.geometry, hb, h.index.tree, h.first, fun k => h.leaf k (hL k)⟩

/-- A guarded call of `st_reduced` corrects the leaf of bucket `k`, unless that leaf need not
    be exact afterwards. -/
theorem Loose.reduced {L : ℕ → Prop} (h : Loose q S L) (L' : ℕ → Prop) {p : Prop} [Decidable p]
    (hk : k < q.bucketsInuse) (hL : ∀ i, i ≠ k → L i → L' i)
    (hp : ¬ p → ¬ L' k → LeafOK q S k (q.leafOf k)) :
    ∃ q', reduceWhen p q k = some q' ∧ SameArena q q' ∧ q'.bucketsInuse = q.bucketsInuse ∧
      Loose q' S L' := by
  by_cases hpL : p ∨ ¬ L' k
  · obtain ⟨q', hq', hr, hK, hfirst, hok, hother⟩ := reduceWhen_spec (p := p) h.geometry h.index
      h.tiling hk (h.first k) (fun a ha hb => hb ▸ h.bound a ha)
      (fun hn => hp hn (hpL.resolve_left hn))
    refine ⟨q', hq', hr.same, hK, hr.geometry, ?_, hr.index, ?_, ?_, ?_⟩
    · rw [hr.same.mem, hr.same.arenaBase, hr.same.arenaEnd]; exact h.tiling
    · intro i
      rw [hfirst]; exact (h.first i).same hr.same
    · intro a ha
      rw [hr.same.mem, hr.same.heapBucket]
      by_cases hak : q.heapBucket a = k
      · exact hak ▸ hok.bound a ha hak
      · rw [hother _ hak]; exact h.bound a ha
    · intro i hi
      by_cases hik : i = k
      · rw [hik]; exact hok.same hr.same
      · rw [hother i hik]
        exact (h.leaf i (fun hLi => hi (hL i hik hLi))).same hr.same
  · obtain ⟨hnp, hLk⟩ := not_or.mp hpL
    refine ⟨q, by unfold reduceWhen; rw [if_neg hnp], SameArena.refl q, rfl, h.geometry, h.tiling,
      h.index, h.first, h.bound, fun i hi => h.leaf i fun hLi => ?_⟩
    by_cases hik : i = k
    · exact hLk (hik ▸ hi)
    · exact hi (hL i hik hLi)

end CohKernel.StAlloc
