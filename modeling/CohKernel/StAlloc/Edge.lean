import CohKernel.StAlloc.Free

namespace CohKernel.StAlloc

open CohKernel.Lib

/-!
# Moving the right edge of a block

`moveEdge_spec`: the three cases of the label `adjust_right` of `st_realloc`, for a used block
`[l, next)` whose right edge moves to `e`.  When the edge moves up, words are taken from the
free block at `next`; when it moves down, a free block appears at `e` and absorbs a free block
at `next`.  In the second case the code only enters the free block at `e` into the tables when
it is larger than the leaf of its bucket; `EdgeEntered` is the condition under which that is
right.
-/

/-- The block `[l, next)` is used and its right edge is about to move.  With `red`, the leaf of
    its bucket may be too large. -/
structure Edge (q : HeapControl) (S : ℕ → Prop) (red : Prop) (l next : ℕ) : Prop where
  loose : Loose q S (fun k => red ∧ k = q.heapBucket l)
  blocks : Blocks q.mem q.arenaBase q.arenaEnd S
  left : S l
  used : q.mem l < 0
  next_eq : l + blockSize (q.mem l) = next

/-- The free block that appears at `e` when the right edge of the block at `base` moves down
    from `next` starts in the bucket of `base`, or is larger than the leaf of its own bucket. -/
def EdgeEntered (q : HeapControl) (base e next : ℕ) : Prop :=
  e < next → q.heapBucket base = q.heapBucket e ∨
    rightRoom q next + ((next : ℤ) - e) > q.leaf (q.heapBucket e)

instance (q : HeapControl) (base e next : ℕ) : Decidable (EdgeEntered q base e next) := by
  unfold EdgeEntered; infer_instance

variable {q : HeapControl} {S : ℕ → Prop} {red : Prop} {l e next : ℕ}

theorem Edge.lt_next (h : Edge q S red l next) : l < next := by
  have := h.blocks.tiling.pos h.left
  have := h.next_eq
  omega

theorem Edge.next_le (h : Edge q S red l next) : next ≤ q.arenaEnd :=
  h.next_eq ▸ h.blocks.tiling.end_le h.left

theorem Edge.start_next (h : Edge q S red l next) (hlt : next < q.arenaEnd) : S next :=
  h.next_eq ▸ h.blocks.tiling.next h.left (h.next_eq.symm ▸ hlt)

/-- The only starts of the run up to `r` are `l` and `next`. -/
theorem Edge.inner (h : Edge q S red l next) {r : ℕ}
    (hr : r ≤ next ∨ S next ∧ r ≤ next + blockSize (q.mem next)) :
    ∀ a, S a → l ≤ a → a < r → a = l ∨ a = next ∧ next < r := by
  intro a ha hla har
  rcases Nat.eq_or_lt_of_le hla with heq | hlt
  · exact Or.inl heq.symm
  · have h1 : l + blockSize (q.mem l) ≤ a := h.blocks.tiling.gap h.left ha hlt
    rw [h.next_eq] at h1
    rcases Nat.eq_or_lt_of_le h1 with heq | hlt'
    · exact Or.inr ⟨heq.symm, by omega⟩
    · rcases hr with hr | ⟨hnS, hr⟩
      · omega
      · have : next + blockSize (q.mem next) ≤ a := h.blocks.tiling.gap hnS ha hlt'
        omega

/-- A bucket's first block is not after the block before `next`, unless it is `next` itself. -/
theorem Edge.first_le (h : Edge q S red l next) (hnS : S next)
    (hne : q.firstOf (q.heapBucket next) ≠ next) : q.heapBucket l = q.heapBucket next := by
  have hle := (h.loose.first (q.heapBucket next)).le next hnS rfl
  rcases (h.loose.first (q.heapBucket next)).found with ⟨hSf, hb⟩ | hpast
  · have hfl : q.firstOf (q.heapBucket next) ≤ l := by
      by_contra hcon
      rcases h.inner (r := next) (Or.inl le_rfl) _ hSf (by omega) (by omega) with heq | ⟨heq, -⟩
      · omega
      · exact hne heq
    have h1 := q.heapBucket_mono hfl
    have h2 := q.heapBucket_mono h.lt_next.le
    omega
  · have := (h.loose.geometry.lt_bucketEnd_iff (k := q.heapBucket next)
      (h.blocks.tiling.lt_hi hnS) (h.blocks.tiling.lo_le hnS)).mpr le_rfl
    omega

/-! ### The edge moves up -/

/-- The first-block pointer of the bucket of `next` tracks the block. -/
theorem Edge.eat_first (h : Edge q S red l next) (hnS : S next) (hup : next < e) {r : ℕ}
    (her : e ≤ r) {q' : HeapControl} (hr : r = next + blockSize (q.mem next))
    (hrec : Recut q q' S l e r) (k : ℕ) :
    FirstOK q' (RecutStarts S l e r) k
      (if e < r ∧ q.heapBucket next < q.heapBucket e ∧ k = q.heapBucket e then
        min (q.firstOf k) e
      else if k = q.heapBucket next ∧ q.firstOf k = next then e else q.firstOf k) := by
  have hlt := h.lt_next
  have hg := h.loose.geometry
  have hlo := h.blocks.tiling.lo_le h.left
  have hinner := h.inner (r := r) (Or.inr ⟨hnS, hr.le⟩)
  have hln := q.heapBucket_mono hlt.le
  have hne := q.heapBucket_mono hup.le
  have hkeep : ∀ k, (k = q.heapBucket next → q.firstOf k ≠ next) →
      q.firstOf k ≤ l ∨ r ≤ q.firstOf k ∨ q.bucketEnd k ≤ q.firstOf k := by
    intro k hk
    rcases (h.loose.first k).found with ⟨hSf, hb⟩ | hpast
    · by_contra hcon
      rcases hinner _ hSf (by omega) (by omega) with heq | ⟨heq, -⟩
      · omega
      · rw [heq] at hb
        exact hk hb.symm heq
    · exact Or.inr (Or.inr hpast)
  split_ifs with hgrow htrack
  · -- the rest of the free block starts in a later bucket
    obtain ⟨her', hbe, rfl⟩ := hgrow
    exact hrec.first_min hg hlo (h.loose.first _)
      ((hkeep _ (fun hk => absurd hk (by omega))).imp_right (Or.imp_left (le_trans her))) her' rfl
      (by omega)
  · obtain ⟨rfl, hfirst⟩ := htrack
    have hlk : q.heapBucket l < q.heapBucket next := by
      rcases Nat.eq_or_lt_of_le hln with heq | hlt'
      · have := (h.loose.first (q.heapBucket next)).le l h.left heq
        omega
      · exact hlt'
    rcases Nat.eq_or_lt_of_le her with heq | her'
    · subst heq
      exact hrec.first_past hg (x := next) (by omega) (by omega) rfl hlk (fun hlt => by omega)
    · by_cases hbe : q.heapBucket e = q.heapBucket next
      · exact hrec.first_split her' hbe hlk
      · -- nothing starts in the bucket of `next` any more
        have hend := hrec.le_end
        refine ⟨?_, Or.inr ?_⟩
        · rintro a (⟨-, hor⟩ | rfl | ⟨rfl, -⟩) hb <;> rw [hrec.heapBucket] at hb
          · have := right_of_bucket hlk hor hb
            omega
          · omega
        · rw [hrec.bucketEnd]
          by_contra hcon
          have := (hg.lt_bucketEnd_iff (k := q.heapBucket next) (a := e) (by omega)
            (by omega)).mp (not_le.mp hcon)
          omega
  · refine hrec.first_kept (h.loose.first k)
      (hkeep k fun hk hf => htrack ⟨hk, hf⟩) ?_
    rintro her' rfl
    -- the new free block starts in the bucket of `next`, and so does `l`
    have hbe : q.heapBucket e = q.heapBucket next := by
      by_contra hcon
      exact hgrow ⟨her', by omega, rfl⟩
    rw [hbe]
    exact h.first_le hnS fun hf => htrack ⟨hbe, by rw [hbe]; exact hf⟩

theorem setFirst_firstOf {k a i : ℕ} (hk : k < q.bucketsInuse) :
    (q.setFirst k a).firstOf i = if i = k then a else q.firstOf i := by
  by_cases hi : i = k
  · rw [if_pos hi, hi]
    simp only [HeapControl.firstOf, HeapControl.setFirst, Function.update_self]
    exact if_pos hk
  · rw [if_neg hi]
    simp only [HeapControl.firstOf, HeapControl.setFirst, Function.update_of_ne hi]

/-- **The edge moves up** into the free block at `next`. -/
theorem Edge.eat (h : Edge q S red l next) (hup : next < e) (hend : next < q.arenaEnd)
    (hfree : 0 ≤ q.mem next) (hfit : e ≤ next + blockSize (q.mem next)) :
    ∃ q', eatRight (q.blockSetUsed l ((e : ℤ) - l)) (q.heapBucket next) e (q.mem next)
        ((e : ℤ) - next) (decide (q.bucketFirst (q.heapBucket next) = next)) = some q' ∧
      SameArena { q with mem := cutMem q.mem l e (next + blockSize (q.mem next)) } q' ∧
      Blocks q'.mem q'.arenaBase q'.arenaEnd
        (RecutStarts S l e (next + blockSize (q.mem next))) ∧
      Loose q' (RecutStarts S l e (next + blockSize (q.mem next)))
        (fun k => red ∧ k = q.heapBucket l) := by
  have hg := h.loose.geometry
  have hspace := hg.space
  have hlt := h.lt_next
  have hnS := h.start_next hend
  have hword := h.blocks.free_eq hspace hnS hfree
  have hrend := h.blocks.tiling.end_le hnS
  have hlo := h.blocks.tiling.lo_le h.left
  have hnext := h.blocks.tiling.next hnS
  set r := next + blockSize (q.mem next) with hr
  obtain ⟨hrec, hblocks⟩ := h.blocks.cut (e := e) (r := r) hspace h.left (by omega) hfit hnext
    hrend (fun hlt' _ => h.blocks.separated hnS (hnext hlt') hfree)
  have hfirst : ∀ {q' : HeapControl}, Recut q q' S l e r → ∀ k, _ :=
    fun hrec' => h.eat_first hnS hup hfit hr hrec'
  have hinner := h.inner (r := r) (Or.inr ⟨hnS, hr.le⟩)
  have hkin : q.heapBucket next < q.bucketsInuse := (h.loose.first _).inuse hnS hend
  have hbn := h.loose.bound next hnS
  set kb := q.heapBucket next with hkb
  set q₁ : HeapControl := { q with mem := cutMem q.mem l e r } with hq₁
  set q₂ : HeapControl := if q.bucketFirst kb = next then q₁.setFirst kb e else q₁ with hq₂
  have hml : q₁.mem l < 0 := by
    rw [hq₁]; simp only; rw [cutMem_left (by omega)]; exact usedWord_neg _
  have hme : e < r → q₁.mem e = (r : ℤ) - e := by
    intro her
    rw [hq₁]
    simp only
    rw [cutMem_split her, freeWord_eq (by omega) (by omega)]
  have hs₂ : SameArena q₁ q₂ := by
    rw [hq₂]; split_ifs <;> exact ⟨rfl, rfl, rfl, rfl, rfl, rfl⟩
  have hB₂ : q₂.bucketBiggest = q.bucketBiggest := by rw [hq₂]; split_ifs <;> rfl
  have hK₂ : q₂.bucketsInuse = q.bucketsInuse := by rw [hq₂]; split_ifs <;> rfl
  have hleaf₂ : ∀ i, q₂.leafOf i = q.leafOf i := by
    intro i
    simp only [HeapControl.leafOf, HeapControl.leaf, hB₂, hK₂]
  have hg₂ : Geometry q₂ := hs₂.geometry ⟨hg.1, hg.2, hg.3, hg.4⟩ (hK₂ ▸ hg.inuse)
  have hi₂ : IndexTree q₂ := ⟨by rw [hB₂, hK₂]; exact h.loose.index.1,
    fun i => by rw [hleaf₂]; exact h.loose.index.2 i⟩
  have hf₂ : ∀ i, q₂.firstOf i = if i = kb ∧ q.firstOf i = next then e else q.firstOf i := by
    intro i
    have hfo : q.firstOf kb = q.bucketFirst kb := if_pos hkin
    rw [hq₂]
    by_cases hf : q.bucketFirst kb = next
    · rw [if_pos hf, setFirst_firstOf (by exact hkin)]
      by_cases hi : i = kb
      · rw [if_pos hi, if_pos ⟨hi, by rw [hi, hfo, hf]⟩]
      · rw [if_neg hi, if_neg (fun hc => hi hc.1)]
        rfl
    · rw [if_neg hf, if_neg (by rintro ⟨rfl, hc⟩; exact hf (hfo ▸ hc))]
      rfl
  -- the rest of the free block enters the tables when it lies in a later bucket
  obtain ⟨q₃, hq₃, hs₃, hg₃, hi₃, hK₃, hf₃, hl₃⟩ : ∃ q₃, splitFree
      (if q.bucketFirst kb = next then (q.blockSetUsed l ((e : ℤ) - l)).setFirst kb e
        else q.blockSetUsed l ((e : ℤ) - l)) kb e (q.mem next) ((e : ℤ) - next) = some q₃ ∧
      SameArena q₂ q₃ ∧ Geometry q₃ ∧ IndexTree q₃ ∧ q₂.bucketsInuse ≤ q₃.bucketsInuse ∧
      (∀ i, q₃.firstOf i = if (e < r ∧ kb < q.heapBucket e) ∧ i = q.heapBucket e then
        min (q₂.firstOf (q.heapBucket e)) e else q₂.firstOf i) ∧
      (∀ i, q₃.leafOf i = if (e < r ∧ kb < q.heapBucket e) ∧ i = q.heapBucket e then
        max (q₂.leafOf (q.heapBucket e)) (q₂.mem e) else q₂.leafOf i) := by
    by_cases her : e < r
    · have hset : (if q.bucketFirst kb = next then (q.blockSetUsed l ((e : ℤ) - l)).setFirst kb e
          else q.blockSetUsed l ((e : ℤ) - l)).blockSetFree e (q.mem next - ((e : ℤ) - next))
          = q₂ := by
        rw [show q.mem next - ((e : ℤ) - next) = (r : ℤ) - e by omega, hq₂, hq₁,
          ← blockSetFree_blockSetUsed her]
        split_ifs <;> rfl
      obtain ⟨q₃, hq₃, hr₃, -, hK₃, hf₃, hl₃⟩ := growWhen_spec
        (p := q.heapBucket e > kb) hg₂ hi₂ (a := e) (k := q.heapBucket e)
        (by rw [hs₂.bucketsMaximum]; exact hg.heapBucket_lt (by omega) (by omega))
        (by rw [hs₂.mem, hme her]; omega)
      refine ⟨q₃, ?_, hr₃.same, hr₃.geometry, hr₃.index, hK₃, fun i => ?_, fun i => ?_⟩
      · rw [splitFree, if_pos (by omega), hset, ← hq₃]
        have hb : (if q.bucketFirst kb = next then
            (q.blockSetUsed l ((e : ℤ) - l)).setFirst kb e
            else q.blockSetUsed l ((e : ℤ) - l)).heapBucket e = q.heapBucket e := by
          split_ifs <;> rfl
        simp only [hb]
      · rw [hf₃]; simp only [her, true_and, gt_iff_lt]
      · rw [hl₃]; simp only [her, true_and, gt_iff_lt]
    · refine ⟨q₂, ?_, SameArena.refl _, hg₂, hi₂, le_rfl, fun i => ?_, fun i => ?_⟩
      · rw [splitFree, if_neg (by omega), hq₂, hq₁, ← blockSetUsed_eq_cut her]
      · rw [if_neg (fun hc => her hc.1.1)]
      · rw [if_neg (fun hc => her hc.1.1)]
  have hs : SameArena q₁ q₃ := hs₂.trans hs₃
  have hrec₃ := hrec.trans_same hs
  have hmono : ∀ i, q.leafOf i ≤ q₃.leafOf i := by
    intro i
    rw [hl₃, hleaf₂, hleaf₂]
    split_ifs with hi
    · rw [hi.2]; exact le_max_left _ _
    · exact le_rfl
  have hleafkb : q₃.leafOf kb = q.leafOf kb := by
    rw [hl₃, if_neg (fun hc => hc.1.2.ne hc.2), hleaf₂]
  have hnl : ∀ k v, LeafOK q S k v → ∀ a, S a → l ≤ a → a < r → q.heapBucket a = k →
      k ≠ kb → q.mem a = v → v = 0 := by
    intro k v hv a ha hla har hb hk hav
    rcases hinner a ha hla har with rfl | ⟨rfl, -⟩
    · have := hv.nonneg
      have := h.used
      omega
    · exact absurd hb.symm hk
  have hloose : Loose q₃ (RecutStarts S l e r)
      (fun k => (red ∧ k = q.heapBucket l) ∨ k = kb) := by
    refine ⟨hg₃, ?_, hi₃, ?_, ?_, ?_⟩
    · rw [hs.mem, hs.arenaBase, hs.arenaEnd]; exact hblocks.tiling
    · intro k
      have := hfirst hrec₃ k
      rw [hf₃]
      by_cases hc : (e < r ∧ kb < q.heapBucket e) ∧ k = q.heapBucket e
      · rw [if_pos ⟨hc.1.1, hc.1.2, hc.2⟩] at this
        rw [if_pos hc, hf₂, if_neg (fun hb => by omega), ← hc.2]
        exact this
      · rw [if_neg (fun hc' => hc ⟨⟨hc'.1, hc'.2.1⟩, hc'.2.2⟩)] at this
        rw [if_neg hc, hf₂]
        exact this
    · refine hrec₃.bound (fun a ha => (h.loose.bound a ha).trans (hmono _)) ?_ ?_
      · rw [hs.mem]
        have := hi₃.leaf_nonneg (q.heapBucket l)
        omega
      · intro her
        rw [hs.mem, hl₃]
        split_ifs with hc
        · rw [hs₂.mem]; exact le_max_right _ _
        · have hbe : q.heapBucket e = kb := by
            have := q.heapBucket_mono hup.le
            by_contra hcon
            exact hc ⟨⟨her, by omega⟩, rfl⟩
          rw [hleaf₂, hbe, hme her]
          omega
    · intro k hk
      obtain ⟨hkred, hkb'⟩ := not_or.mp hk
      have hv := h.loose.leaf k hkred
      rw [hl₃, hleaf₂, hleaf₂]
      split_ifs with hc
      · rw [← hc.2, hs₂.mem, ← hs.mem]
        refine hrec₃.leaf_max hv (Recut.mem_split hc.1.1) hc.2.symm ?_ (fun _ _ => le_max_right _ _)
          fun a ha hla har hb hav => Or.inl (hnl k _ hv a ha hla har hb hkb' hav)
        intro _
        rw [hs.mem]
        exact le_max_of_le_left (hml.le.trans hv.nonneg)
      · refine hrec₃.leaf_kept hv (fun _ => by rw [hs.mem]; exact hml.le.trans hv.nonneg) ?_
          fun a ha hla har hb hav => hnl k _ hv a ha hla har hb hkb' hav
        intro her hbe
        have := q.heapBucket_mono hup.le
        exact absurd ⟨⟨her, by omega⟩, hbe.symm⟩ hc
  have hleaf₃ : q₃.leaf kb = q₃.leafOf kb := (if_pos (by omega)).symm
  obtain ⟨q₄, hq₄, hs₄, -, hloose₄⟩ := hloose.reduced (fun k => red ∧ k = q.heapBucket l)
    (k := kb) (p := q₃.leaf kb = q.mem next) (by omega)
    (fun i hi hc => hc.resolve_right hi)
    (by
      intro hne hk
      have hv := h.loose.leaf kb hk
      rw [hleaf₃, hleafkb] at hne
      rw [hleafkb]
      refine hrec₃.leaf_of_bound hv ?_ ?_
      · intro a ha hb
        have := hloose.bound a ha
        rw [hb, hleafkb] at this
        exact this
      · intro a ha hla har _ hav
        rcases hinner a ha hla har with rfl | ⟨rfl, -⟩
        · have := hv.nonneg
          have := h.used
          omega
        · exact absurd hav.symm hne)
  have hs' := hs.trans hs₄
  refine ⟨q₄, ?_, hs', ?_, hloose₄⟩
  · simp only [eatRight, decide_eq_true_eq, hq₃, Option.bind_eq_bind, Option.bind_some]
    exact hq₄
  · rw [hs'.mem, hs'.arenaBase, hs'.arenaEnd]; exact hblocks

/-! ### The edge moves down -/

/-- The end of the free words on the right of `next`. -/
def rightEnd (q : HeapControl) (next : ℕ) : ℕ := next + (rightRoom q next).toNat

/-- What lies to the right of `next`. -/
theorem Edge.right_cases (h : Edge q S red l next) :
    (next < q.arenaEnd ∧ 0 ≤ q.mem next ∧ S next ∧
        rightEnd q next = next + blockSize (q.mem next) ∧ rightRoom q next = q.mem next ∧
        next < rightEnd q next) ∨
      (rightEnd q next = next ∧ rightRoom q next = 0 ∧ (next < q.arenaEnd → q.mem next < 0)) := by
  unfold rightEnd rightRoom
  by_cases hc : next < q.arenaEnd ∧ blockFree (q.mem next) = true
  · have hfree : 0 ≤ q.mem next := by
      have := hc.2
      rwa [blockFree, decide_eq_true_eq] at this
    have hnS := h.start_next hc.1
    have hword := h.blocks.free_eq h.loose.geometry.space hnS hfree
    have hpos := h.blocks.tiling.pos hnS
    rw [if_pos hc]
    exact Or.inl ⟨hc.1, hfree, hnS, by omega, rfl, by omega⟩
  · rw [if_neg hc]
    refine Or.inr ⟨by simp, rfl, fun hlt => ?_⟩
    by_contra hcon
    exact hc ⟨hlt, by rw [blockFree, decide_eq_true_eq]; omega⟩

/-- The tables before the new free block enters them. -/
theorem Edge.open_tables (h : Edge q S red l next) (hle : l < e) (hdown : e < next)
    {q₁ : HeapControl} (hq₁ : q₁ = { q with mem := cutMem q.mem l e (rightEnd q next) })
    (hrec : Recut q q₁ S l e (rightEnd q next))
    (hblocks : Blocks q₁.mem q.arenaBase q.arenaEnd (RecutStarts S l e (rightEnd q next)))
    {bucket : ℕ} (hbucket : bucket = if next < q.arenaEnd then q.heapBucket next else 0)
    {cntl : ℤ} (hcntl : cntl = if next < q.arenaEnd then q.mem next else -1) :
    ∃ q₃, reduceWhen (q.heapBucket e < bucket ∧
        (if q.heapBucket e < bucket then q₁.setFirst bucket (heapNext e (q₁.mem e)) else q₁).leaf
          bucket = cntl)
        (if q.heapBucket e < bucket then q₁.setFirst bucket (heapNext e (q₁.mem e)) else q₁)
        bucket = some q₃ ∧
      Retabled q₁ q₃ ∧ q₃.bucketsInuse = q.bucketsInuse ∧
      q₃.firstOf (q.heapBucket e) = q.firstOf (q.heapBucket e) ∧
      q₃.leafOf (q.heapBucket e) = q.leafOf (q.heapBucket e) ∧
      q₃.leaf (q.heapBucket e) = q.leaf (q.heapBucket e) ∧
      ∀ k, k ≠ q.heapBucket e →
        FirstOK q₃ (RecutStarts S l e (rightEnd q next)) k (q₃.firstOf k) ∧
        (∀ a, RecutStarts S l e (rightEnd q next) a → q.heapBucket a = k →
          q₃.mem a ≤ q₃.leafOf k) ∧
        (¬(red ∧ k = q.heapBucket l) →
          LeafOK q₃ (RecutStarts S l e (rightEnd q next)) k (q₃.leafOf k)) := by
  have hg := h.loose.geometry
  have hright := h.right_cases
  have hlo := h.blocks.tiling.lo_le h.left
  have hrlo : next ≤ rightEnd q next := Nat.le_add_right _ _
  have hrend := hrec.le_end
  have hml : q₁.mem l < 0 := by
    rw [hq₁]; simp only; rw [cutMem_left hle]; exact usedWord_neg _
  have hme : q₁.mem e = (rightEnd q next : ℤ) - e := by
    have := hg.space
    rw [hq₁]
    simp only
    rw [cutMem_split (by omega), freeWord_eq (by omega) (by omega)]
  have hinner : ∀ a, S a → l ≤ a → a < rightEnd q next →
      a = l ∨ a = next ∧ next < q.arenaEnd := by
    intro a ha hla har
    have hin := h.inner (r := rightEnd q next)
      (by rcases hright with ⟨-, -, hnS, hr, -⟩ | ⟨hr, -⟩
          · exact Or.inr ⟨hnS, hr.le⟩
          · exact Or.inl hr.le) a ha hla har
    exact hin.imp_right fun ⟨hn, hlt⟩ => ⟨hn, by omega⟩
  have hnoL : ∀ {v : ℤ}, 0 ≤ v → q.mem l = v → v = 0 := by
    intro v hv heq
    have := h.used
    omega
  have hln := q.heapBucket_mono (a := e) (b := next) (by omega)
  have hlk := q.heapBucket_mono hle.le
  have hg₁ : Geometry q₁ := by rw [hq₁]; exact ⟨hg.1, hg.2, hg.3, hg.4⟩
  have hi₁ : IndexTree q₁ := by rw [hq₁]; exact ⟨h.loose.index.1, h.loose.index.2⟩
  have hK₁ : q₁.bucketsInuse = q.bucketsInuse := by rw [hq₁]
  have hf₁ : ∀ k, q₁.firstOf k = q.firstOf k := by rw [hq₁]; exact fun _ => rfl
  have hl₁ : ∀ k, q₁.leafOf k = q.leafOf k := by rw [hq₁]; exact fun _ => rfl
  have hb₁ : q₁.heapBucket = q.heapBucket := by rw [hq₁]; rfl
  by_cases hmove : next < q.arenaEnd ∧ q.heapBucket e < q.heapBucket next
  · -- the first block of the bucket of `next` is now the one after the run
    obtain ⟨hin, hek⟩ := hmove
    rw [if_pos hin] at hbucket hcntl
    have hnS := h.start_next hin
    have hkin : bucket < q.bucketsInuse := hbucket ▸ (h.loose.first _).inuse hnS hin
    have hcode : heapNext e (q₁.mem e) = rightEnd q next := by
      have := hg.space
      rw [hme, show (rightEnd q next : ℤ) - e = ((rightEnd q next - e : ℕ) : ℤ) by omega,
        heapNext_natCast (by omega)]
      omega
    rw [if_pos (by rw [hbucket]; exact hek), hcode]
    set q₂ := q₁.setFirst bucket (rightEnd q next) with hq₂
    have hf₂ : ∀ k, q₂.firstOf k = if k = bucket then rightEnd q next else q.firstOf k := by
      intro k
      rw [hq₂, setFirst_firstOf (by rw [hK₁]; exact hkin), hf₁]
    have hrec₂ : Recut q q₂ S l e (rightEnd q next) :=
      hrec.trans_same ⟨rfl, rfl, rfl, rfl, rfl, rfl⟩
    have hg₂ : Geometry q₂ := ⟨hg₁.1, hg₁.2, hg₁.3, hg₁.4⟩
    have hi₂ : IndexTree q₂ := ⟨hi₁.1, hi₁.2⟩
    have hl₂ : ∀ k, q₂.leafOf k = q.leafOf k := hl₁
    have hne : bucket ≠ q.heapBucket e := by omega
    have hnl : bucket ≠ q.heapBucket l := by omega
    have hbucketFirst : FirstOK q₂ (RecutStarts S l e (rightEnd q next)) bucket
        (q₂.firstOf bucket) := by
      rw [hf₂, if_pos rfl]
      exact hrec₂.first_past hg (x := next) hrlo (by omega) hbucket.symm (by omega)
        (fun _ hb => hne hb.symm)
    have hv := h.loose.leaf bucket (fun hc => hnl hc.2)
    have htil : Tiling (fun a => blockSize (q₂.mem a)) q₂.arenaBase q₂.arenaEnd
        (RecutStarts S l e (rightEnd q next)) := by
      change Tiling (fun a => blockSize (q₁.mem a)) q₁.arenaBase q₁.arenaEnd _
      rw [show q₁.arenaBase = q.arenaBase by rw [hq₁], show q₁.arenaEnd = q.arenaEnd by rw [hq₁]]
      exact hblocks.tiling
    obtain ⟨q₃, hq₃, hr₃, hK₃, hf₃, hok₃, hother₃⟩ := reduceWhen_spec
      (p := q.heapBucket e < bucket ∧ q₂.leaf bucket = cntl) (q := q₂) (k := bucket) hg₂ hi₂
      htil (by rw [hq₂]; exact hK₁.symm ▸ hkin) hbucketFirst
      (hrec₂.leaf_bound (hl₂ bucket ▸ hv) (fun hb => absurd hb.symm hnl)
        (fun _ hb => absurd hb.symm hne))
      (by
        intro hnp
        have hneq : q.leafOf bucket ≠ q.mem next := by
          intro heq
          refine hnp ⟨by omega, ?_⟩
          have hleaf : q₂.leaf bucket = q₂.leafOf bucket :=
            (if_pos (by rw [hq₂]; exact hK₁.symm ▸ hkin)).symm
          rw [hleaf, hl₂, heq, hcntl]
        rw [hl₂]
        refine hrec₂.leaf_kept hv (fun hb => absurd hb.symm hnl) (fun _ hb => absurd hb.symm hne)
          ?_
        intro a ha hla har hb hav
        rcases hinner a ha hla har with rfl | ⟨rfl, -⟩
        · exact hnoL hv.nonneg hav
        · exact absurd hav.symm hneq)
    have hs₃ : SameArena q₁ q₃ :=
      ⟨hr₃.same.1, hr₃.same.2, hr₃.same.3, hr₃.same.4, hr₃.same.5, hr₃.same.6⟩
    have hKq : q₃.bucketsInuse = q.bucketsInuse := by rw [hK₃, hq₂]; exact hK₁
    have hke : q.heapBucket e < q.bucketsInuse := by omega
    refine ⟨q₃, hq₃, ⟨hs₃, hr₃.geometry, hr₃.index⟩, hKq, ?_, ?_, ?_, ?_⟩
    · rw [hf₃, hf₂, if_neg hne.symm]
    · rw [hother₃ _ hne.symm, hl₂]
    · have h3 : q₃.leafOf (q.heapBucket e) = q₃.leaf (q.heapBucket e) := if_pos (by omega)
      have h0 : q.leafOf (q.heapBucket e) = q.leaf (q.heapBucket e) := if_pos hke
      rw [← h3, ← h0, hother₃ _ hne.symm, hl₂]
    · intro k hk
      by_cases hkb : k = bucket
      · subst hkb
        refine ⟨?_, ?_, fun _ => hok₃.same hr₃.same⟩
        · rw [hf₃]; exact hbucketFirst.same hr₃.same
        · intro a ha hb
          rw [hr₃.same.mem]
          exact hok₃.bound a ha (by rw [hrec₂.heapBucket]; exact hb)
      · have hbound := hrec₂.leaf_bound (v := q₃.leafOf k) (k := k)
        have hsplit : e < rightEnd q next → q.heapBucket e = k → q.heapBucket l = k :=
          fun _ hb => absurd hb.symm hk
        refine ⟨?_, ?_, ?_⟩
        · rw [hf₃, hf₂, if_neg hkb]
          refine (hrec₂.first_kept (h.loose.first k) ?_ hsplit).same hr₃.same
          rcases (h.loose.first k).found with ⟨hSf, hb⟩ | hpast
          · by_contra hcon
            rcases hinner _ hSf (by omega) (by omega) with heq | ⟨heq, -⟩
            · omega
            · rw [heq] at hb
              exact hkb (hbucket.symm ▸ hb.symm)
          · exact Or.inr (Or.inr hpast)
        · rintro a (⟨ha, hor⟩ | rfl | ⟨rfl, -⟩) hb
          · rw [hr₃.same.mem, hrec₂.outside a ha hor, hother₃ k hkb, hl₂, ← hb]
            exact h.loose.bound a ha
          · rw [hr₃.same.mem]
            exact hml.le.trans (hr₃.index.leaf_nonneg k)
          · exact absurd hb.symm hk
        · intro hred
          rw [hother₃ k hkb, hl₂]
          have hvk := h.loose.leaf k hred
          refine (hrec₂.leaf_kept hvk (fun _ => hml.le.trans hvk.nonneg)
            (fun _ hb => absurd hb.symm hk) ?_).same hr₃.same
          intro a ha hla har hb hav
          rcases hinner a ha hla har with rfl | ⟨rfl, -⟩
          · exact hnoL hvk.nonneg hav
          · exact absurd (hbucket.symm ▸ hb.symm) hkb
  · -- the tables are left alone
    have hnb : ¬ q.heapBucket e < bucket := by
      rw [hbucket]
      split_ifs with hin
      · exact fun hc => hmove ⟨hin, hc⟩
      · omega
    have hnext : next < q.arenaEnd → q.heapBucket next = q.heapBucket e := by
      intro hin
      by_contra hcon
      exact hmove ⟨hin, by omega⟩
    refine ⟨q₁, ?_, ⟨SameArena.refl _, hg₁, hi₁⟩, hK₁, hf₁ _, hl₁ _, ?_, ?_⟩
    · unfold reduceWhen
      rw [if_neg (fun hc => hnb hc.1), if_neg hnb]
    · rw [hq₁]; rfl
    · intro k hk
      refine ⟨?_, ?_, ?_⟩
      · rw [hf₁]
        refine hrec.first_kept (h.loose.first k) ?_ (fun _ hb => absurd hb.symm hk)
        rcases (h.loose.first k).found with ⟨hSf, hb⟩ | hpast
        · by_contra hcon
          rcases hinner _ hSf (by omega) (by omega) with heq | ⟨heq, hin⟩
          · omega
          · rw [heq, hnext hin] at hb
            exact hk hb.symm
        · exact Or.inr (Or.inr hpast)
      · rintro a (⟨ha, hor⟩ | rfl | ⟨rfl, -⟩) hb
        · rw [hrec.outside a ha hor, hl₁, ← hb]
          exact h.loose.bound a ha
        · exact hml.le.trans (hi₁.leaf_nonneg k)
        · exact absurd hb.symm hk
      · intro hred
        rw [hl₁]
        have hvk := h.loose.leaf k hred
        refine hrec.leaf_kept hvk (fun _ => hml.le.trans hvk.nonneg)
          (fun _ hb => absurd hb.symm hk) ?_
        intro a ha hla har hb hav
        rcases hinner a ha hla har with rfl | ⟨rfl, hin⟩
        · exact hnoL hvk.nonneg hav
        · exact absurd (hb.symm.trans (hnext hin)) hk

/-- The run up to the end of the free words is cut at `e`. -/
theorem Edge.cut (h : Edge q S red l next) (hle : l < e) (hdown : e < next) :
    Recut q { q with mem := cutMem q.mem l e (rightEnd q next) } S l e (rightEnd q next) ∧
      Blocks (cutMem q.mem l e (rightEnd q next)) q.arenaBase q.arenaEnd
        (RecutStarts S l e (rightEnd q next)) := by
  have hrlo : next ≤ rightEnd q next := Nat.le_add_right _ _
  have hafter : rightEnd q next ≤ q.arenaEnd ∧ (rightEnd q next < q.arenaEnd →
      S (rightEnd q next) ∧ q.mem (rightEnd q next) < 0) := by
    rcases h.right_cases with ⟨hin, hfree, hnS, hr, -, -⟩ | ⟨hr, -, hused⟩
    · have hend := h.blocks.tiling.end_le hnS
      have hnext := h.blocks.tiling.next hnS
      rw [hr]
      exact ⟨hend, fun hlt => ⟨hnext hlt, h.blocks.separated hnS (hnext hlt) hfree⟩⟩
    · rw [hr]
      exact ⟨h.next_le, fun hlt => ⟨h.start_next hlt, hused hlt⟩⟩
  exact h.blocks.cut h.loose.geometry.space h.left hle (by omega) (fun hlt => (hafter.2 hlt).1)
    hafter.1 (fun hlt _ => (hafter.2 hlt).2)

/-- The free words from `e` on. -/
theorem Edge.free_words (h : Edge q S red l next) {cntl : ℤ}
    (hcntl : cntl = if next < q.arenaEnd then q.mem next else -1) :
    (if blockFree cntl then cntl else 0) - ((e : ℤ) - next) = (rightEnd q next : ℤ) - e := by
  rw [hcntl]
  rcases h.right_cases with ⟨hin, hfree, -, -, hroom, -⟩ | ⟨heq, -, hused⟩
  · rw [if_pos hin, if_pos (by rw [blockFree, decide_eq_true_eq]; exact hfree), rightEnd]
    omega
  · have hnf : ¬ blockFree (if next < q.arenaEnd then q.mem next else -1) = true := by
      rw [blockFree, decide_eq_true_eq, not_le]
      split_ifs with hin
      · exact hused hin
      · norm_num
    rw [if_neg hnf]
    omega

/-- `openRight` on the run that has been cut. -/
theorem Edge.openRight_eq (h : Edge q S red l next) (hdown : e < next)
    (bucket nextBucket : ℕ) {cntl : ℤ}
    (hcntl : cntl = if next < q.arenaEnd then q.mem next else -1) :
    openRight (q.blockSetUsed l ((e : ℤ) - l)) bucket e nextBucket cntl ((e : ℤ) - next) =
      let q₁ : HeapControl := { q with mem := cutMem q.mem l e (rightEnd q next) }
      let q₂ := if nextBucket < bucket then q₁.setFirst bucket (heapNext e (q₁.mem e)) else q₁
      (reduceWhen (nextBucket < bucket ∧ q₂.leaf bucket = cntl) q₂ bucket).bind fun q₃ =>
        growWhen (q₃.mem e > q₃.leaf nextBucket) q₃ e nextBucket := by
  have hrlo : next ≤ rightEnd q next := Nat.le_add_right _ _
  simp only [openRight, h.free_words hcntl]
  rw [blockSetFree_blockSetUsed (by omega)]
  rfl

/-- **The edge moves down** and a free block appears at `e`. -/
theorem Edge.open (h : Edge q S red l next) (hle : l < e) (hdown : e < next)
    (hentered : EdgeEntered q l e next) {bucket : ℕ}
    (hbucket : bucket = if next < q.arenaEnd then q.heapBucket next else 0) {cntl : ℤ}
    (hcntl : cntl = if next < q.arenaEnd then q.mem next else -1) :
    ∃ q', openRight (q.blockSetUsed l ((e : ℤ) - l)) bucket e (q.heapBucket e) cntl
        ((e : ℤ) - next) = some q' ∧
      SameArena { q with mem := cutMem q.mem l e (rightEnd q next) } q' ∧
      Blocks q'.mem q'.arenaBase q'.arenaEnd (RecutStarts S l e (rightEnd q next)) ∧
      Loose q' (RecutStarts S l e (rightEnd q next)) (fun k => red ∧ k = q.heapBucket l) := by
  have hg := h.loose.geometry
  have hspace := hg.space
  have hright := h.right_cases
  have hlo := h.blocks.tiling.lo_le h.left
  have hrlo : next ≤ rightEnd q next := Nat.le_add_right _ _
  obtain ⟨hrec, hblocks⟩ := h.cut hle hdown
  have hrend : rightEnd q next ≤ q.arenaEnd := hrec.le_end
  set r := rightEnd q next with hr
  set q₁ : HeapControl := { q with mem := cutMem q.mem l e r } with hq₁
  obtain ⟨q₃, hq₃, hr₃, hK₃, hfe, hle', hraw, hother⟩ :=
    h.open_tables hle hdown hq₁ hrec hblocks hbucket hcntl
  have hml : q₁.mem l < 0 := by
    rw [hq₁]; simp only; rw [cutMem_left hle]; exact usedWord_neg _
  have hme : q₁.mem e = (r : ℤ) - e := by
    rw [hq₁]
    simp only
    rw [cutMem_split (by omega), freeWord_eq (by omega) (by omega)]
  have hroom : rightRoom q next = (r : ℤ) - next := by
    rcases hright with ⟨-, hfree, -, -, hroom, -⟩ | ⟨heq, hroom, -⟩
    · rw [hr, rightEnd]
      omega
    · omega
  obtain ⟨q₄, hq₄, hr₄, -, hK₄, hf₄, hl₄⟩ := growWhen_spec
      (p := q₃.mem e > q₃.leaf (q.heapBucket e))
    hr₃.geometry hr₃.index (a := e) (k := q.heapBucket e)
    (by rw [hr₃.same.bucketsMaximum]; exact hg.heapBucket_lt (by omega) (by omega))
    (by rw [hr₃.same.mem]; omega)
  have hs : SameArena q₁ q₄ := hr₃.same.trans hr₄.same
  have hrec₄ := hrec.trans_same hs
  have hlk := q.heapBucket_mono hle.le
  have hlin : q.heapBucket l < q.bucketsInuse :=
    (h.loose.first _).inuse h.left (by have := h.lt_next; omega)
  have hm₃ : q₃.mem e = (r : ℤ) - e := by rw [hr₃.same.mem, hme]
  have hcond : ¬ q₃.mem e > q₃.leaf (q.heapBucket e) → q.heapBucket l = q.heapBucket e ∧
      q₃.mem e ≤ q.leafOf (q.heapBucket e) := by
    intro hnp
    have hsame : q.heapBucket l = q.heapBucket e := by
      rcases hentered hdown with hb | hbig
      · exact hb
      · exact absurd (by rw [hraw, hm₃]; omega) hnp
    have hin : q.leafOf (q.heapBucket e) = q.leaf (q.heapBucket e) := if_pos (hsame ▸ hlin)
    rw [hraw, ← hin] at hnp
    exact ⟨hsame, not_lt.mp hnp⟩
  have hinner := h.inner (r := r)
    (by rcases hright with ⟨-, -, hnS, hr', -⟩ | ⟨hr', -⟩
        · exact Or.inr ⟨hnS, hr'.le⟩
        · exact Or.inl hr'.le)
  -- the new block's bucket
  have hfirst : FirstOK q₄ (RecutStarts S l e r) (q.heapBucket e)
      (q₄.firstOf (q.heapBucket e)) := by
    rw [hf₄, hfe]
    by_cases hb : q.heapBucket l = q.heapBucket e
    · have hfl := (h.loose.first (q.heapBucket e)).le l h.left hb
      have hkept := hrec₄.first_kept (h.loose.first (q.heapBucket e)) (Or.inl hfl) (fun _ _ => hb)
      split_ifs
      · rw [min_eq_left (by omega)]; exact hkept
      · exact hkept
    · have hp : q₃.mem e > q₃.leaf (q.heapBucket e) := by
        by_contra hnp
        exact hb (hcond hnp).1
      rw [if_pos ⟨hp, rfl⟩]
      refine hrec₄.first_min hg hlo (h.loose.first (q.heapBucket e)) ?_ (by omega) rfl (by omega)
      rcases (h.loose.first (q.heapBucket e)).found with ⟨hSf, -⟩ | hpast
      · by_contra hcon
        rcases hinner _ hSf (by omega) (by omega) with heq | ⟨heq, -⟩ <;> omega
      · exact Or.inr (Or.inr hpast)
  have hinl : ∀ v, 0 ≤ v → q.mem l = v → v = 0 := by
    intro v hv heq
    have := h.used
    omega
  have hleaf : ¬(red ∧ (q.heapBucket e) = q.heapBucket l) →
      LeafOK q₄ (RecutStarts S l e r) (q.heapBucket e) (q₄.leafOf (q.heapBucket e)) := by
    intro hred
    have hv := h.loose.leaf (q.heapBucket e) hred
    rw [hl₄, hle']
    by_cases hp : q₃.mem e > q₃.leaf (q.heapBucket e)
    · rw [if_pos ⟨hp, rfl⟩, ← hr₄.same.mem]
      refine hrec₄.leaf_max hv (Recut.mem_split (by omega)) rfl ?_ (fun _ _ => le_max_right _ _) ?_
      · intro _
        rw [hs.mem]
        exact le_max_of_le_left (hml.le.trans hv.nonneg)
      · intro a ha hla har _ hav
        rcases hinner a ha hla har with rfl | ⟨rfl, -⟩
        · exact Or.inl (hinl _ hv.nonneg hav)
        · right
          rw [hs.mem, hme]
          rcases hright with ⟨-, -, -, -, hroom', -⟩ | ⟨heq, -, -⟩
          · omega
          · omega
    · obtain ⟨hsame, hbig⟩ := hcond hp
      rw [if_neg (fun hc => hp hc.1)]
      refine hrec₄.leaf_kept hv ?_ ?_ ?_
      · intro _
        rw [hs.mem]
        exact hml.le.trans hv.nonneg
      · intro _ _
        rw [hr₄.same.mem]
        exact hbig
      · intro a ha hla har _ hav
        rcases hinner a ha hla har with rfl | ⟨rfl, hlt⟩
        · exact hinl _ hv.nonneg hav
        · rcases hright with ⟨-, -, -, -, hroom', -⟩ | ⟨heq, -, -⟩ <;> omega
  have hmono : ∀ k, q₃.leafOf k ≤ q₄.leafOf k := by
    intro k
    rw [hl₄]
    split_ifs with hc
    · rw [hc.2]; exact le_max_left _ _
    · exact le_rfl
  refine ⟨q₄, ?_, hs, ?_, hr₄.geometry, ?_, hr₄.index, ?_, ?_, ?_⟩
  · rw [h.openRight_eq hdown _ _ hcntl]
    exact Option.bind_eq_some_iff.mpr ⟨q₃, hq₃, hq₄⟩
  · rw [hs.mem, hs.arenaBase, hs.arenaEnd]; exact hblocks
  · rw [hs.mem, hs.arenaBase, hs.arenaEnd]; exact hblocks.tiling
  · intro k
    by_cases hk : k = q.heapBucket e
    · rw [hk]; exact hfirst
    · rw [hf₄, if_neg (fun hc => hk hc.2)]
      exact (hother k hk).1.same hr₄.same
  · intro a ha
    rw [hs.heapBucket, hr₄.same.mem]
    change q₃.mem a ≤ q₄.leafOf (q.heapBucket a)
    by_cases hk : q.heapBucket a = q.heapBucket e
    · rcases ha with ⟨ha, hor⟩ | rfl | ⟨rfl, -⟩
      · rw [hr₃.same.mem, hrec.outside a ha hor]
        refine (h.loose.bound a ha).trans ?_
        rw [hk, ← hle']
        exact hmono (q.heapBucket e)
      · rw [hr₃.same.mem]
        exact hml.le.trans (hr₄.index.leaf_nonneg _)
      · rw [hl₄, hle']
        split_ifs with hc
        · exact le_max_right _ _
        · exact (hcond fun hp => hc ⟨hp, rfl⟩).2
    · exact ((hother _ hk).2.1 a ha rfl).trans (hmono _)
  · intro k hk
    by_cases hke' : k = q.heapBucket e
    · rw [hke'] at hk ⊢
      exact hleaf hk
    · rw [hl₄, if_neg (fun hc => hke' hc.2)]
      exact ((hother k hke').2.2 hk).same hr₄.same

/-- **A free block that is not entered** when the edge moves down: the tables of the bucket of `l`
    are left as they should be. -/
theorem Edge.open_skip (h : Edge q S red l next) (hle : l < e)
    (hskip : ¬ EdgeEntered q l e next) {bucket : ℕ}
    (hbucket : bucket = if next < q.arenaEnd then q.heapBucket next else 0) {cntl : ℤ}
    (hcntl : cntl = if next < q.arenaEnd then q.mem next else -1) :
    ∃ q', openRight (q.blockSetUsed l ((e : ℤ) - l)) bucket e (q.heapBucket e) cntl
        ((e : ℤ) - next) = some q' ∧
      SameArena { q with mem := cutMem q.mem l e (rightEnd q next) } q' ∧ Geometry q' ∧
      IndexTree q' ∧ Blocks q'.mem q'.arenaBase q'.arenaEnd (RecutStarts S l e (rightEnd q next)) ∧
      q.heapBucket l < q'.bucketsInuse ∧
      FirstOK q' (RecutStarts S l e (rightEnd q next)) (q.heapBucket l)
        (q'.firstOf (q.heapBucket l)) ∧
      ∀ a, RecutStarts S l e (rightEnd q next) a → q'.heapBucket a = q.heapBucket l →
        q'.mem a ≤ q'.leafOf (q.heapBucket l) := by
  unfold EdgeEntered at hskip
  obtain ⟨hdown, hne⟩ := not_forall.mp hskip
  obtain ⟨hne, hsmall⟩ := not_or.mp hne
  obtain ⟨hrec, hblocks⟩ := h.cut hle hdown
  obtain ⟨q₃, hq₃, hr₃, hK₃, -, -, hraw, hother⟩ :=
    h.open_tables hle hdown rfl hrec hblocks hbucket hcntl
  obtain ⟨hfirst, hbound, -⟩ := hother (q.heapBucket l) hne
  have hend := hrec.le_end
  have hspace := h.loose.geometry.space
  have hrlo : next ≤ rightEnd q next := Nat.le_add_right _ _
  have hword : q₃.mem e = (rightEnd q next : ℤ) - e := by
    rw [hr₃.same.mem]
    show cutMem q.mem l e (rightEnd q next) e = _
    rw [cutMem_split (by omega), freeWord_eq (by omega) (by omega)]
  have hroom : rightRoom q next = (rightEnd q next : ℤ) - next := by
    rcases h.right_cases with ⟨-, hfree, -, -, hroom, -⟩ | ⟨heq, hroom, -⟩
    · rw [rightEnd]
      omega
    · omega
  have hnot : ¬ q₃.mem e > q₃.leaf (q.heapBucket e) := by
    rw [hword, hraw]
    omega
  refine ⟨q₃, ?_, hr₃.same, hr₃.geometry, hr₃.index, ?_, ?_, hfirst, fun a ha hb => hbound a ha ?_⟩
  · rw [h.openRight_eq hdown _ _ hcntl]
    exact Option.bind_eq_some_iff.mpr ⟨q₃, hq₃, if_neg hnot⟩
  · rw [hr₃.same.mem, hr₃.same.arenaBase, hr₃.same.arenaEnd]
    exact hblocks
  · rw [hK₃]
    exact (h.loose.first _).inuse h.left (h.blocks.tiling.lt_hi h.left)
  · rw [← hb, hr₃.same.heapBucket]
    rfl

/-- Where the run ends that a move of the edge from `next` to `e` recuts. -/
def edgeEnd (q : HeapControl) (next e : ℕ) : ℕ := if e = next then next else rightEnd q next

/-- **`adjust_right`**, up to the leaf of the bucket of `l`: the edge moves from `next` to
    `e`. -/
theorem Edge.moveEdge (h : Edge q S red l next) (hle : l < e)
    (hfit : (e : ℤ) ≤ next + rightRoom q next) (hentered : EdgeEntered q l e next) :
    ∃ q', CohKernel.StAlloc.moveEdge (q.blockSetUsed l ((e : ℤ) - l)) next ((e : ℤ) - next)
        = some q' ∧
      SameArena { q with mem := cutMem q.mem l e (edgeEnd q next e) } q' ∧
      Blocks q'.mem q'.arenaBase q'.arenaEnd (RecutStarts S l e (edgeEnd q next e)) ∧
      Loose q' (RecutStarts S l e (edgeEnd q next e)) (fun k => red ∧ k = q.heapBucket l) := by
  have hlt := h.lt_next
  have hmn : (q.blockSetUsed l ((e : ℤ) - l)).mem next = q.mem next :=
    Function.update_of_ne (by omega) _ _
  have hmove : heapMove next ((e : ℤ) - next) = e := by
    unfold heapMove
    omega
  rcases Nat.lt_trichotomy e next with hdown | heq | hup
  · -- the edge moves down
    obtain ⟨q', hq', hs, hb, hloose⟩ := h.open hle hdown hentered rfl rfl
    rw [edgeEnd, if_neg (by omega)]
    refine ⟨q', ?_, hs, hb, hloose⟩
    simp only [CohKernel.StAlloc.moveEdge, decide_eq_true_eq, hmn, hmove]
    rw [if_neg (by omega), if_pos (by omega), ← hq']
    rfl
  · -- the edge stays
    subst heq
    have hself : usedWord ((e : ℤ) - l) = q.mem l := by
      have hnle := h.next_le
      have hspace := h.loose.geometry.space
      have := h.blocks.used_eq h.left h.used
      have := h.next_eq
      rw [usedWord_eq (by omega) (by omega)]
      omega
    have hcut : cutMem q.mem l e e = q.mem := by
      rw [cutMem, if_neg (lt_irrefl _), hself, Function.update_eq_self]
    have hset : q.blockSetUsed l ((e : ℤ) - l) = q := by
      rw [HeapControl.blockSetUsed, hself, Function.update_eq_self]
    have hstarts : RecutStarts S l e e = S := by
      have := recutStarts_self h.blocks.tiling h.left
      rw [h.next_eq] at this
      exact this
    rw [edgeEnd, if_pos rfl, hcut, hset, hstarts]
    refine ⟨q, ?_, SameArena.refl _, h.blocks, h.loose⟩
    simp only [CohKernel.StAlloc.moveEdge]
    rw [if_neg (by omega), if_neg (by omega)]
  · -- the edge moves up
    rcases h.right_cases with ⟨hin, hfree, -, hr, hroom, -⟩ | ⟨-, hroom, -⟩
    · have hpos := h.blocks.free_eq h.loose.geometry.space (h.start_next hin) hfree
      obtain ⟨q', hq', hs, hb, hloose⟩ := h.eat hup hin hfree (by omega)
      rw [edgeEnd, if_neg (by omega), hr]
      refine ⟨q', ?_, hs, hb, hloose⟩
      have hin' : next < (q.blockSetUsed l ((e : ℤ) - l)).arenaEnd := hin
      simp only [CohKernel.StAlloc.moveEdge, hin', decide_true, if_true, Bool.true_and, hmn, hmove]
      rw [if_pos (by omega), ← hq']
      rfl
    · omega

end CohKernel.StAlloc
