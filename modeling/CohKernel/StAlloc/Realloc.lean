import CohKernel.StAlloc.Edge

namespace CohKernel.StAlloc

open CohKernel.Lib

/-!
# `st_realloc` keeps the invariant

`stRealloc_spec`: under `ReallocEntered`, `st_realloc` of a used block either changes nothing or
leaves a block of the new size that holds the old contents, and no other used block changes.
The three paths are the move of the right edge in place, the move down into a free left
neighbour, and the allocation of a new block followed by a copy and a release.
-/

variable {q : HeapControl} {S : ℕ → Prop} {addr : ℕ}

/-- The start of a block, as found by walking the arena from its base. -/
def IsBlock (q : HeapControl) (a : ℕ) : Prop :=
  BlockAt (fun a => blockSize (q.mem a)) q.arenaBase q.arenaEnd a

theorem Inv.isBlock_iff (h : Inv q S) {a : ℕ} : IsBlock q a ↔ S a := h.blocks.tiling.blockAt_iff

/-- `EdgeEntered` for the block that `st_realloc` resizes: the block itself when the words on
    its right suffice, else the free block on its left when both together suffice. -/
def ReallocEntered (q : HeapControl) (addr n : ℕ) : Prop :=
  let next := addr + blockSize (q.mem addr)
  let delta : ℤ := n - blockSize (q.mem addr)
  if rightRoom q next ≥ delta then EdgeEntered q addr (addr + n) next
  else ∀ prev, IsBlock q prev → prev + blockSize (q.mem prev) = addr → 0 ≤ q.mem prev →
    q.mem prev + rightRoom q next ≥ delta → EdgeEntered q prev (prev + n) next

/-! ### What a call leaves alone -/

/-- Every used block of `q` outside `own` is still a block, with the same contents. -/
def KeepsOthers (q q' : HeapControl) (S S' own : ℕ → Prop) : Prop :=
  ∀ b, S b → q.mem b < 0 → ¬ own b →
    S' b ∧ ∀ w, b ≤ w → w < b + blockSize (q.mem b) → q'.mem w = q.mem w

/-- A recut whose run holds no used block outside `own`, and which writes only inside it. -/
theorem Inv.keepsOthers (h : Inv q S) {q' : HeapControl} {own : ℕ → Prop} {l e r : ℕ} (hl : S l)
    (hrun : ∀ b, S b → l ≤ b → b < r → own b ∨ 0 ≤ q.mem b)
    (hmem : ∀ w, w < l ∨ r ≤ w → q'.mem w = q.mem w) :
    KeepsOthers q q' S (RecutStarts S l e r) own := by
  intro b hb hused hown
  have hor : b < l ∨ r ≤ b := by
    by_contra hcon
    rcases hrun b hb (by omega) (by omega) with ho | hf
    · exact hown ho
    · omega
  refine ⟨Or.inl ⟨hb, hor⟩, fun w hbw hwb => hmem w ?_⟩
  rcases hor with hbl | hrb
  · have : b + blockSize (q.mem b) ≤ l := h.blocks.tiling.gap hb hl hbl
    omega
  · omega

/-- Writing into the blocks, but not into their control words, keeps the invariant. -/
theorem Inv.setPayload (h : Inv q S) {mem' : ℕ → ℤ} (hm : ∀ a, S a → mem' a = q.mem a) :
    Inv { q with mem := mem' } S := by
  refine ⟨⟨h.geometry.1, h.geometry.2, h.geometry.3, h.geometry.4⟩, ⟨⟨h.blocks.tiling.start,
    h.blocks.tiling.lo_le, ?_, ?_, ?_, ?_⟩, ?_, ?_⟩, h.tree,
    fun k => ⟨(h.first k).le, (h.first k).found⟩, fun k => ⟨(h.leaf k).nonneg, ?_, ?_⟩⟩
  · intro a ha
    simp only [hm a ha]; exact h.blocks.tiling.pos ha
  · intro a ha
    simp only [hm a ha]; exact h.blocks.tiling.end_le ha
  · intro a ha
    simp only [hm a ha]; exact h.blocks.tiling.next ha
  · intro a b ha hb hab
    simp only [hm a ha]; exact h.blocks.tiling.gap ha hb hab
  · intro a ha
    simp only [hm a ha]; exact h.blocks.ctrl ha
  · intro a ha hn hfree
    simp only [hm a ha] at hn hfree ⊢
    rw [hm _ hn]; exact h.blocks.separated ha hn hfree
  · intro a ha hb
    simp only [hm a ha]; exact (h.leaf k).bound a ha hb
  · rcases (h.leaf k).attained with h0 | ⟨a, ha, hb, hav⟩
    · exact Or.inl h0
    · exact Or.inr ⟨a, ha, hb, by simp only [hm a ha]; exact hav⟩

/-! ### The block copy -/

/-- `_ST_BLOCK_COPY` to a lower address, or to a place that does not overlap. -/
theorem blockCopy_mem {d s n : ℕ} (hds : d ≤ s ∨ s + n ≤ d) (w : ℕ) :
    (blockCopy q d s n).mem w = if d ≤ w ∧ w < d + n then q.mem (s + (w - d)) else q.mem w := by
  induction n generalizing w with
  | zero => rw [if_neg (by omega)]; rfl
  | succ n ih =>
    have hstep : (blockCopy q d s (n + 1)).mem
        = Function.update (blockCopy q d s n).mem (d + n) ((blockCopy q d s n).mem (s + n)) := by
      simp only [blockCopy, List.range_succ, List.foldl_append, List.foldl_cons, List.foldl_nil]
    have hsrc : (blockCopy q d s n).mem (s + n) = q.mem (s + n) := by
      rw [ih (by omega), if_neg (by omega)]
    rw [hstep, hsrc]
    by_cases hw : w = d + n
    · subst hw
      rw [Function.update_self, if_pos (by omega), Nat.add_sub_cancel_left]
    · rw [Function.update_of_ne hw, ih (by omega)]
      split_ifs <;> first | rfl | omega

/-- The starts after two recuts of runs that start at the same block. -/
theorem recutStarts_again {l m e r : ℕ} (hlm : l < m) (hmr : m ≤ r) :
    RecutStarts (RecutStarts S l m m) l e r = RecutStarts S l e r := by
  funext a
  refine propext ⟨?_, ?_⟩
  · rintro (⟨⟨ha, -⟩ | rfl | ⟨-, hlt⟩, hor⟩ | rfl | ⟨rfl, hlt⟩)
    · exact Or.inl ⟨ha, hor⟩
    · omega
    · exact absurd hlt (lt_irrefl _)
    · exact Or.inr (Or.inl rfl)
    · exact Or.inr (Or.inr ⟨rfl, hlt⟩)
  · rintro (⟨ha, hor⟩ | rfl | ⟨rfl, hlt⟩)
    · exact Or.inl ⟨Or.inl ⟨ha, by omega⟩, hor⟩
    · exact Or.inr (Or.inl rfl)
    · exact Or.inr (Or.inr ⟨rfl, hlt⟩)

/-! ### In place -/

/-- The label `adjust_right`, with the leaf of the bucket of `l` corrected at the end. -/
theorem Edge.adjustRight {prevReduce : Bool} {l e next : ℕ}
    (h : Edge q S (prevReduce = true) l next) (hle : l < e)
    (hfit : (e : ℤ) ≤ next + rightRoom q next) (hentered : EdgeEntered q l e next) :
    ∃ q', CohKernel.StAlloc.adjustRight (q.blockSetUsed l ((e : ℤ) - l)) l next ((e : ℤ) - next)
        prevReduce = some (((l + 1 : ℕ) : ℤ), q') ∧
      SameArena { q with mem := cutMem q.mem l e (edgeEnd q next e) } q' ∧
      Inv q' (RecutStarts S l e (edgeEnd q next e)) := by
  obtain ⟨q₁, hq₁, hs₁, hb₁, hloose₁⟩ := h.moveEdge hle hfit hentered
  have hb : q₁.heapBucket l = q.heapBucket l := by rw [hs₁.heapBucket]; rfl
  have hS : RecutStarts S l e (edgeEnd q next e) l := Recut.mem_left
  have hin : q₁.heapBucket l < q₁.bucketsInuse :=
    (hloose₁.first _).inuse hS (hb₁.tiling.lt_hi hS)
  obtain ⟨q₂, hq₂, hs₂, -, hloose₂⟩ := hloose₁.reduced (fun _ => False)
    (p := prevReduce = true) hin (fun i hi hc => hi (hc.2.trans hb.symm))
    (fun hnp _ => hloose₁.leaf _ (fun hc => hnp hc.1))
  refine ⟨q₂, ?_, hs₁.trans hs₂, hloose₂.inv (fun _ hf => hf) ?_⟩
  · simp only [CohKernel.StAlloc.adjustRight, hq₁, hq₂, Option.bind_eq_bind, Option.bind_some]
  · rw [hs₂.mem, hs₂.arenaBase, hs₂.arenaEnd]; exact hb₁

/-- The label `adjust_right` returns the block, whether or not its free right neighbour enters the
    tables. -/
theorem Edge.adjustRight_returns {prevReduce : Bool} {l e next : ℕ}
    (h : Edge q S (prevReduce = true) l next) (hle : l < e)
    (hfit : (e : ℤ) ≤ next + rightRoom q next) :
    ∃ q', CohKernel.StAlloc.adjustRight (q.blockSetUsed l ((e : ℤ) - l)) l next ((e : ℤ) - next)
        prevReduce = some (((l + 1 : ℕ) : ℤ), q') := by
  by_cases hentered : EdgeEntered q l e next
  · obtain ⟨q', hq', -, -⟩ := h.adjustRight hle hfit hentered
    exact ⟨q', hq'⟩
  obtain ⟨q₁, hq₁, hs₁, hg₁, hi₁, hb₁, hin, hfirst, hbound⟩ := h.open_skip hle hentered rfl rfl
  have hdown : e < next := (not_forall.mp hentered).1
  have hmn : (q.blockSetUsed l ((e : ℤ) - l)).mem next = q.mem next :=
    Function.update_of_ne (by omega) _ _
  have hmove : heapMove next ((e : ℤ) - next) = e := by
    unfold heapMove
    omega
  have hedge : CohKernel.StAlloc.moveEdge (q.blockSetUsed l ((e : ℤ) - l)) next ((e : ℤ) - next) =
      some q₁ := by
    simp only [CohKernel.StAlloc.moveEdge, decide_eq_true_eq, hmn, hmove]
    rw [if_neg (by omega), if_pos (by omega), ← hq₁]
    rfl
  have hb : q₁.heapBucket l = q.heapBucket l := by rw [hs₁.heapBucket]; rfl
  obtain ⟨q₂, hq₂⟩ : ∃ q₂, reduceWhen (prevReduce = true) q₁ (q₁.heapBucket l) = some q₂ := by
    unfold reduceWhen
    split_ifs
    · obtain ⟨q₂, -, hq₂, -⟩ := stReduced_spec hg₁ hi₁ hb₁.tiling (hb ▸ hin) (hb ▸ hfirst)
        fun a ha hba => by
          rw [hb] at hba ⊢
          exact hbound a ha hba
      exact ⟨q₂, hq₂⟩
    · exact ⟨q₁, rfl⟩
  exact ⟨q₂, by simp only [CohKernel.StAlloc.adjustRight, hedge, hq₂, Option.bind_eq_bind,
    Option.bind_some]⟩

/-- The end of the recut run is not before the edge, nor before the old end of the block. -/
theorem Edge.le_edgeEnd {red : Prop} {l e next : ℕ} (h : Edge q S red l next)
    (hfit : (e : ℤ) ≤ next + rightRoom q next) :
    e ≤ edgeEnd q next e ∧ next ≤ edgeEnd q next e := by
  have hr := h.right_cases
  unfold edgeEnd
  split_ifs with heq
  · omega
  · unfold rightEnd at hr ⊢
    rcases hr with ⟨-, hfree, -, -, hroom, -⟩ | ⟨-, hroom, -⟩ <;> omega

/-- The run that is recut holds nothing but the block and free words. -/
theorem Edge.run_free {red : Prop} {l e next : ℕ} (h : Edge q S red l next) :
    ∀ b, S b → l ≤ b → b < edgeEnd q next e → b = l ∨ 0 ≤ q.mem b := by
  intro b hb hlb hbr
  have hr := h.right_cases
  have hlt : b < rightEnd q next := by
    unfold edgeEnd at hbr
    have : next ≤ rightEnd q next := Nat.le_add_right _ _
    split_ifs at hbr <;> omega
  rcases hr with ⟨-, hfree, hnS, hr, -, -⟩ | ⟨hr, -, -⟩
  · rcases h.inner (r := rightEnd q next) (Or.inr ⟨hnS, hr.le⟩) b hb hlb hlt with heq | ⟨heq, -⟩
    · exact Or.inl heq
    · exact Or.inr (heq ▸ hfree)
  · rcases h.inner (r := rightEnd q next) (Or.inl hr.le) b hb hlb hlt with heq | ⟨heq, hnr⟩
    · exact Or.inl heq
    · omega

/-- A used block of a heap, before its edge moves. -/
theorem Inv.edge (h : Inv q S) (hS : S addr) (hused : q.mem addr < 0) :
    Edge q S (false = true) addr (addr + blockSize (q.mem addr)) :=
  ⟨⟨h.geometry, h.blocks.tiling, h.index, h.first, fun a ha => (h.leaf _).bound a ha rfl,
    fun k _ => h.leaf k⟩, h.blocks, hS, hused, rfl⟩

/-- What a call of `st_realloc` for the block at `addr` leaves behind when it succeeds: the block
    at `l` has `n` words, starts with the old contents, and no other used block changed. -/
structure Resized (q q' : HeapControl) (S : ℕ → Prop) (addr l n : ℕ) (S' : ℕ → Prop) : Prop where
  inv : Inv q' S'
  start : S' l
  word : q'.mem l = usedWord n
  above : q.arenaBase < l
  others : KeepsOthers q q' S S' (fun b => b = addr)
  moved : ∀ b, S b → q.mem b < 0 → b ≠ addr → b ≠ l
  contents : ∀ i, i + 1 < n → i + 1 < blockSize (q.mem addr) →
    q'.mem (l + 1 + i) = q.mem (addr + 1 + i)
  same : SameArena { q with mem := q'.mem } q'

/-- **In place.** The words on the right suffice. -/
theorem Inv.resize_inPlace (h : Inv q S) (hS : S addr) (hbase : q.arenaBase < addr)
    (hused : q.mem addr < 0) {n : ℕ} (hn : 1 ≤ n)
    (hroom : (n : ℤ) - blockSize (q.mem addr) ≤ rightRoom q (addr + blockSize (q.mem addr)))
    (hentered : EdgeEntered q addr (addr + n) (addr + blockSize (q.mem addr))) :
    ∃ q' S', CohKernel.StAlloc.adjustRight (q.blockSetUsed addr n) addr
        (addr + blockSize (q.mem addr)) ((n : ℤ) - blockSize (q.mem addr)) false
        = some (((addr + 1 : ℕ) : ℤ), q') ∧ Resized q q' S addr addr n S' := by
  have hedge := h.edge hS hused
  have hfit : ((addr + n : ℕ) : ℤ)
      ≤ (addr + blockSize (q.mem addr) : ℕ) + rightRoom q (addr + blockSize (q.mem addr)) := by
    push_cast
    omega
  obtain ⟨q', hq', hs, hinv⟩ := hedge.adjustRight (e := addr + n) (by omega) hfit hentered
  have hcast : (((addr + n : ℕ) : ℤ) - addr) = n := by omega
  have hdelta : (((addr + n : ℕ) : ℤ) - (addr + blockSize (q.mem addr) : ℕ))
      = (n : ℤ) - blockSize (q.mem addr) := by push_cast; ring
  rw [hcast, hdelta] at hq'
  have hend := hedge.le_edgeEnd hfit
  refine ⟨q', _, hq', hinv, Recut.mem_left, ?_, hbase, ?_, fun b _ _ hb => hb, ?_,
    ⟨hs.1, hs.2, hs.3, hs.4, hs.5, rfl⟩⟩
  · rw [hs.mem]
    simp only
    rw [cutMem_left (by omega), hcast]
  · refine h.keepsOthers hS (fun b hb hlb hbr => hedge.run_free b hb hlb hbr) fun w hw => ?_
    rw [hs.mem]
    exact cutMem_outside (by omega) (by omega)
  · intro i hin _
    rw [hs.mem]
    exact cutMem_outside (by omega) (by omega)

/-! ### Moving down -/

/-- The state in which `[prev, next)` is one used block that holds `mem'`: the first-block
    pointer that named the block at `addr` has been set to `next`. -/
def movedDown (q : HeapControl) (prev addr next : ℕ) (mem' : ℕ → ℤ) : HeapControl :=
  let q' : HeapControl :=
    if q.bucketFirst (q.heapBucket addr) = addr then q.setFirst (q.heapBucket addr) next else q
  { q' with mem := Function.update mem' prev (usedWord ((next : ℤ) - prev)) }

theorem movedDown_same (prev next : ℕ) (mem' : ℕ → ℤ) :
    SameArena { q with mem := Function.update mem' prev (usedWord ((next : ℤ) - prev)) }
      (movedDown q prev addr next mem') := by
  unfold movedDown
  split_ifs <;> exact ⟨rfl, rfl, rfl, rfl, rfl, rfl⟩

/-- The free block at `prev` and the used one at `addr`, taken as one used block. -/
theorem Inv.movedDown_edge (h : Inv q S) (hS : S addr) (hused : q.mem addr < 0) {prev : ℕ}
    (hSp : S prev) (hprev : prev + blockSize (q.mem prev) = addr) (hfree : 0 ≤ q.mem prev)
    {mem' : ℕ → ℤ} (hout : ∀ w, w < prev ∨ addr + blockSize (q.mem addr) ≤ w → mem' w = q.mem w) :
    Edge (movedDown q prev addr (addr + blockSize (q.mem addr)) mem')
      (RecutStarts S prev (addr + blockSize (q.mem addr)) (addr + blockSize (q.mem addr)))
      (decide (q.leaf (q.heapBucket prev) = q.mem prev) = true) prev
      (addr + blockSize (q.mem addr)) := by
  have hspace := h.geometry.space
  have hpos := h.blocks.tiling.pos hS
  have hposp := h.blocks.tiling.pos hSp
  have hend := h.blocks.tiling.end_le hS
  have hlo := h.blocks.tiling.lo_le hSp
  have hnext := h.blocks.tiling.next hS
  have hain := h.inuse hS
  have hpin := h.inuse hSp
  set next := addr + blockSize (q.mem addr) with hnextdef
  set ka := q.heapBucket addr with hka
  have hs := @movedDown_same q addr prev next mem'
  set q' := movedDown q prev addr next mem' with hq'
  have hB : q'.bucketBiggest = q.bucketBiggest := by
    rw [hq', movedDown]; split_ifs <;> rfl
  have hK : q'.bucketsInuse = q.bucketsInuse := by
    rw [hq', movedDown]; split_ifs <;> rfl
  have hleaf : ∀ k, q'.leafOf k = q.leafOf k := by
    intro k
    simp only [HeapControl.leafOf, HeapControl.leaf, hB, hK]
  have hself : q'.mem prev = usedWord ((next : ℤ) - prev) := by
    rw [hs.mem]; exact Function.update_self ..
  have hneg : q'.mem prev < 0 := by rw [hself]; exact usedWord_neg _
  have hrec : Recut q q' S prev next next := by
    refine ⟨by rw [hs.heapBucket]; rfl, by rw [hs.bucketEnd]; rfl, hSp, by omega, le_rfl, hnext,
      hend, ?_⟩
    intro a _ hor
    rw [hs.mem]
    simp only
    rw [Function.update_of_ne (by omega), hout a hor]
  have hblocks : Blocks q'.mem q.arenaBase q.arenaEnd (RecutStarts S prev next next) :=
    h.blocks.recut hspace hSp (by omega) le_rfl hnext hend hrec.outside (Or.inl hself)
      (fun hlt => absurd hlt (lt_irrefl _))
      (by rintro _ (hlt | hf)
          · exact absurd hlt (lt_irrefl _)
          · omega)
  have hinner : ∀ a, S a → prev ≤ a → a < next → a = prev ∨ a = addr := by
    intro a ha hpa han
    rcases Nat.eq_or_lt_of_le hpa with heq | hlt
    · exact Or.inl heq.symm
    · have h1 : prev + blockSize (q.mem prev) ≤ a := h.blocks.tiling.gap hSp ha hlt
      rcases Nat.eq_or_lt_of_le (hprev ▸ h1) with heq | hlt'
      · exact Or.inr heq.symm
      · have : addr + blockSize (q.mem addr) ≤ a := h.blocks.tiling.gap hS ha hlt'
        omega
  have hfo : q.firstOf ka = q.bucketFirst ka := if_pos hain
  have hfirst : ∀ k, q'.firstOf k
      = if k = ka ∧ q.firstOf ka = addr then next else q.firstOf k := by
    intro k
    rw [hq', movedDown]
    by_cases hf : q.bucketFirst ka = addr
    · rw [if_pos hf]
      change (q.setFirst ka next).firstOf k = _
      rw [setFirst_firstOf hain]
      by_cases hk : k = ka
      · rw [if_pos hk, if_pos ⟨hk, by rw [hfo, hf]⟩]
      · rw [if_neg hk, if_neg (fun hc => hk hc.1)]
    · rw [if_neg hf, if_neg (fun hc => hf (hfo ▸ hc.2))]
      rfl
  have hbound : ∀ a, S a → q.mem a ≤ q.leafOf (q.heapBucket a) :=
    fun a ha => (h.leaf _).bound a ha rfl
  refine ⟨⟨?_, ?_, ?_, ?_, ?_, ?_⟩, ?_, Recut.mem_left, hneg, ?_⟩
  · exact hs.geometry ⟨h.geometry.1, h.geometry.2, h.geometry.3, h.geometry.4⟩
      (hK ▸ h.geometry.inuse)
  · rw [hs.arenaBase, hs.arenaEnd]; exact hblocks.tiling
  · exact ⟨by rw [hB, hK]; exact h.tree, fun k => by rw [hleaf]; exact (h.leaf k).nonneg⟩
  · intro k
    rw [hfirst]
    split_ifs with hc
    · obtain ⟨rfl, hf⟩ := hc
      have hlt : q.heapBucket prev < ka := by
        rcases Nat.eq_or_lt_of_le (q.heapBucket_mono (a := prev) (b := addr) (by omega)) with
          heq | hlt
        · have := (h.first ka).le prev hSp heq
          omega
        · exact hlt
      exact hrec.first_past h.geometry (x := addr) (by omega) (by omega) rfl hlt
        (fun hlt => absurd hlt (lt_irrefl _))
    · refine hrec.first_kept (h.first k) ?_ (fun hlt => absurd hlt (lt_irrefl _))
      rcases (h.first k).found with ⟨hSf, hb⟩ | hpast
      · by_contra hcon
        rcases hinner _ hSf (by omega) (by omega) with heq | heq
        · omega
        · rw [heq] at hb
          exact hc ⟨hb.symm, by rw [hka, hb]; exact heq⟩
      · exact Or.inr (Or.inr hpast)
  · refine hrec.bound (fun a ha => by rw [hleaf]; exact hbound a ha) ?_
      (fun hlt => absurd hlt (lt_irrefl _))
    rw [hleaf]
    exact hneg.le.trans (h.leaf _).nonneg
  · intro k hk
    rw [hleaf]
    refine hrec.leaf_kept (h.leaf k) (fun _ => hneg.le.trans (h.leaf k).nonneg)
      (fun hlt => absurd hlt (lt_irrefl _)) ?_
    intro a ha hpa han hb hav
    rcases hinner a ha hpa han with rfl | rfl
    · refine absurd ⟨?_, ?_⟩ hk
      · rw [decide_eq_true_eq, hb, hav]
        exact (if_pos (hb ▸ hpin)).symm
      · rw [hrec.heapBucket, hb]
    · have := (h.leaf k).nonneg
      omega
  · rw [hs.arenaBase, hs.arenaEnd]; exact hblocks
  · rw [hself]
    have := blockSize_usedWord (n := (next : ℤ) - prev) (by omega) (by omega)
    omega

/-- The block at `addr` has been copied into the free one at `prev`, and its edge is about to
    move. -/
theorem Inv.moveDown_edge (h : Inv q S) (hS : S addr) (hused : q.mem addr < 0) {prev : ℕ}
    (hSp : S prev) (hprev : prev + blockSize (q.mem prev) = addr) (hfree : 0 ≤ q.mem prev) (n : ℕ) :
    ∃ qv, Edge qv
        (RecutStarts S prev (addr + blockSize (q.mem addr)) (addr + blockSize (q.mem addr)))
        (decide (q.leaf (q.heapBucket prev) = q.mem prev) = true) prev
        (addr + blockSize (q.mem addr)) ∧
      moveDown q prev addr (addr + blockSize (q.mem addr)) n ((n : ℤ) - blockSize (q.mem addr)) =
        CohKernel.StAlloc.adjustRight (qv.blockSetUsed prev (((prev + n : ℕ) : ℤ) - prev)) prev
          (addr + blockSize (q.mem addr))
          (((prev + n : ℕ) : ℤ) - (addr + blockSize (q.mem addr) : ℕ))
          (decide (q.leaf (q.heapBucket prev) = q.mem prev)) ∧
      SameArena { q with mem := qv.mem } qv ∧ qv.leaf = q.leaf ∧
      (∀ w, w < prev ∨ addr + blockSize (q.mem addr) ≤ w → qv.mem w = q.mem w) ∧
      ∀ w, prev + 1 ≤ w → w < prev + blockSize (q.mem addr) →
        qv.mem w = q.mem (addr + 1 + (w - (prev + 1))) := by
  have hspace := h.geometry.space
  have hpos := h.blocks.tiling.pos hS
  have hposp := h.blocks.tiling.pos hSp
  have hword := h.blocks.free_eq hspace hSp hfree
  set c := blockSize (q.mem addr) with hc
  set next := addr + c with hnext
  -- the state before the edge moves
  set q₁ := q.blockSetUsed prev n with hq₁
  set q₂ := blockCopy q₁ (prev + 1) (addr + 1) (c - 1) with hq₂
  have hcopy : ∀ w, q₂.mem w = if prev + 1 ≤ w ∧ w < prev + 1 + (c - 1) then
      q₁.mem (addr + 1 + (w - (prev + 1))) else q₁.mem w :=
    blockCopy_mem (Or.inl (by omega))
  have hm₁ : ∀ w, w ≠ prev → q₁.mem w = q.mem w := fun w hw => Function.update_of_ne hw _ _
  have hout : ∀ w, w < prev ∨ next ≤ w → q₂.mem w = q.mem w := by
    intro w hw
    rw [hcopy, if_neg (by omega), hm₁ w (by omega)]
  have hedge := h.movedDown_edge hS hused hSp hprev hfree hout
  set qv := movedDown q prev addr next q₂.mem with hqv
  have hsv := @movedDown_same q addr prev next q₂.mem
  have hmv : ∀ w, w ≠ prev → qv.mem w = q₂.mem w := by
    intro w hw
    rw [hsv.mem]
    exact Function.update_of_ne hw _ _
  have hcast : (((prev + n : ℕ) : ℤ) - prev) = n := by omega
  have hself : q₂.mem prev = usedWord n := by
    rw [hcopy, if_neg (by omega)]
    exact Function.update_self ..
  have hset : qv.blockSetUsed prev n = blockCopy
      (if q.bucketFirst (q.heapBucket addr) = addr then q₁.setFirst (q.heapBucket addr) next
        else q₁) (prev + 1) (addr + 1) (c - 1) := by
    have hmem : Function.update (Function.update q₂.mem prev (usedWord ((next : ℤ) - prev))) prev
        (usedWord n) = q₂.mem := by
      rw [Function.update_idem, ← hself, Function.update_eq_self]
    rw [hqv, movedDown, HeapControl.blockSetUsed]
    simp only [hmem]
    split_ifs <;> rfl
  have hleaf : ∀ b, (if q.bucketFirst (q.heapBucket addr) = addr then
      q₁.setFirst (q.heapBucket addr) next else q₁).leaf b = q.leaf b := by
    intro b
    split_ifs <;> rfl
  have hbucket : ∀ b, (if q.bucketFirst (q.heapBucket addr) = addr then
      q₁.setFirst (q.heapBucket addr) next else q₁).heapBucket b = q.heapBucket b := by
    intro b
    split_ifs <;> rfl
  have hmaddr : (if q.bucketFirst (q.heapBucket addr) = addr then
      q₁.setFirst (q.heapBucket addr) next else q₁).mem addr = q.mem addr := by
    split_ifs <;> exact hm₁ addr (by omega)
  have hone : ∀ a, heapNext a 1 = a + 1 := fun a => heapNext_natCast (n := 1) (by norm_num)
  refine ⟨qv, hedge, ?_, ⟨hsv.1, hsv.2, hsv.3, hsv.4, hsv.5, rfl⟩, ?_, ?_, ?_⟩
  · rw [hcast, hset]
    simp only [moveDown, hone]
    rw [show ((n : ℤ) - c - q.mem prev) = ((prev + n : ℕ) : ℤ) - next by omega, ← hq₁]
    have hb₁ : q₁.heapBucket = q.heapBucket := rfl
    have hf₁ : q₁.bucketFirst = q.bucketFirst := rfl
    rw [hb₁, hf₁, hleaf, hmaddr, hbucket]
  · rw [hqv, movedDown]
    split_ifs <;> rfl
  · intro w hw
    rw [hmv w (by omega), hout w hw]
  · intro w hlo hhi
    rw [hmv w (by omega), hcopy, if_pos (by omega), hm₁ _ (by omega)]

/-- **Moving down.** The free words on both sides suffice. -/
theorem Inv.resize_moveDown (h : Inv q S) (hS : S addr) (hused : q.mem addr < 0) {prev : ℕ}
    (hSp : S prev) (hprev : prev + blockSize (q.mem prev) = addr) (hfree : 0 ≤ q.mem prev)
    (habove : q.arenaBase < prev) {n : ℕ} (hn : 1 ≤ n)
    (hroom : (n : ℤ) - blockSize (q.mem addr)
      ≤ q.mem prev + rightRoom q (addr + blockSize (q.mem addr)))
    (hentered : EdgeEntered q prev (prev + n) (addr + blockSize (q.mem addr))) :
    ∃ q' S', moveDown q prev addr (addr + blockSize (q.mem addr)) n
        ((n : ℤ) - blockSize (q.mem addr)) = some (((prev + 1 : ℕ) : ℤ), q') ∧
      Resized q q' S addr prev n S' := by
  have hspace := h.geometry.space
  have hpos := h.blocks.tiling.pos hS
  have hposp := h.blocks.tiling.pos hSp
  have hend := h.blocks.tiling.end_le hS
  have hword := h.blocks.free_eq hspace hSp hfree
  obtain ⟨qv, hedge, hdown, hsv, hB, hout, hcopy⟩ := h.moveDown_edge hS hused hSp hprev hfree n
  set c := blockSize (q.mem addr) with hc
  set next := addr + c with hnext
  have hroomv : rightRoom qv next = rightRoom q next := by
    rw [rightRoom, rightRoom, hout next (Or.inr le_rfl), hsv.arenaEnd]
  have henteredv : EdgeEntered qv prev (prev + n) next := by
    unfold EdgeEntered at hentered ⊢
    rw [hroomv, hB, hsv.heapBucket]
    exact hentered
  have hfit : ((prev + n : ℕ) : ℤ) ≤ (next : ℕ) + rightRoom qv next := by
    rw [hroomv]
    omega
  obtain ⟨q', hq', hs, hinv⟩ := hedge.adjustRight (e := prev + n) (by omega) hfit henteredv
  have hendv := hedge.le_edgeEnd hfit
  rw [recutStarts_again (by omega) hendv.2] at hinv
  have hrun : ∀ b, S b → prev ≤ b → b < edgeEnd qv next (prev + n) → b = addr ∨ 0 ≤ q.mem b := by
    intro b hb hpb hbr
    rcases Nat.lt_or_ge b next with hlt | hge
    · rcases Nat.eq_or_lt_of_le hpb with heq | hlt'
      · exact Or.inr (heq ▸ hfree)
      · have h1 : prev + blockSize (q.mem prev) ≤ b := h.blocks.tiling.gap hSp hb hlt'
        rcases Nat.eq_or_lt_of_le (hprev ▸ h1) with heq | hlt''
        · exact Or.inl heq.symm
        · have : addr + blockSize (q.mem addr) ≤ b := h.blocks.tiling.gap hS hb hlt''
          omega
    · rcases hedge.run_free (e := prev + n) b (Or.inl ⟨hb, Or.inr hge⟩) hpb hbr with heq | hf
      · omega
      · rw [hout b (Or.inr hge)] at hf
        exact Or.inr hf
  refine ⟨q', _, hdown.trans hq', hinv, Recut.mem_left, ?_, habove, ?_, ?_, ?_, ?_⟩
  · rw [hs.mem]
    simp only
    rw [cutMem_left (by omega)]
    congr 1
    omega
  · refine h.keepsOthers hSp hrun fun w hw => ?_
    rw [hs.mem]
    simp only
    rw [cutMem_outside (by omega) (by omega), hout w (by omega)]
  · rintro b hb hbu - rfl
    omega
  · intro i hin hic
    rw [hs.mem]
    simp only
    rw [cutMem_outside (by omega) (by omega), hcopy _ (by omega) (by omega)]
    congr 1
    omega
  · exact ⟨hs.1.trans hsv.1, hs.2.trans hsv.2, hs.3.trans hsv.3, hs.4.trans hsv.4,
      hs.5.trans hsv.5, rfl⟩

/-! ### A new block -/

theorem blockWords_word2byte {n : ℕ} (hn : 1 ≤ n) (hlt : n < 2 ^ 30) :
    blockWords (word2byte n) = n := by
  unfold blockWords word2byte
  omega

/-- An allocation leaves every used block alone. -/
theorem Inv.alloc_keeps (h : Inv q S) {q' : HeapControl} {scan n r : ℕ} (hS : S scan)
    (hfree : 0 ≤ q.mem scan) (hr : r = scan + blockSize (q.mem scan)) (hn : 1 ≤ n)
    (hfit : scan + n ≤ r)
    (hs : SameArena { q with mem := cutMem q.mem scan (scan + n) r } q') :
    KeepsOthers q q' S (RecutStarts S scan (scan + n) r) (fun _ => False) := by
  refine h.keepsOthers hS (fun b hb hsb hbr => ?_) fun w hw => ?_
  · rcases Nat.eq_or_lt_of_le hsb with heq | hlt
    · exact Or.inr (heq ▸ hfree)
    · have : scan + blockSize (q.mem scan) ≤ b := h.blocks.tiling.gap hS hb hlt
      omega
  · rw [hs.mem]
    exact cutMem_outside (by omega) (by omega)

/-- A release leaves every other used block alone. -/
theorem Inv.free_keeps (h : Inv q S) {q' : HeapControl} {l r : ℕ} (hl : S l) (hla : l ≤ addr)
    (har : addr < r) (hrun : ∀ b, S b → l ≤ b → b < r → b = addr ∨ 0 ≤ q.mem b)
    (hmem : ∀ w, w ≠ l → w ≠ addr → q'.mem w = q.mem w) :
    KeepsOthers q q' S (RecutStarts S l r r) (fun b => b = addr) :=
  h.keepsOthers hl hrun fun w hw => hmem w (by omega) (by omega)

/-- **Moving away.** The naive path either finds no room or moves the block. -/
theorem Inv.resize_moveAway (h : Inv q S) (hS : S addr) (hbase : q.arenaBase < addr)
    (hused : q.mem addr < 0) (hsent : q.mem q.arenaBase < 0) {n oldsize : ℕ} (hn : 1 ≤ n)
    (hlt : n < 2 ^ 30) (hgrow : blockSize (q.mem addr) < n)
    (hold : blockSize (q.mem addr) = blockWords oldsize) :
    moveAway q (addr + 1) addr n oldsize = some (0, q) ∨
    ∃ scan q' S', moveAway q (addr + 1) addr n oldsize = some (((scan + 1 : ℕ) : ℤ), q') ∧
      Resized q q' S addr scan n S' := by
  have hbw := blockWords_word2byte hn hlt
  have halloc := @stAlloc_spec q S h (word2byte n) (by omega)
  rw [hbw] at halloc
  rcases halloc with ⟨-, hnone⟩ | ⟨scan, r, q₁, hq₁, hSs, hfree, hr, hfit, hs₁, hinv₁⟩
  · exact Or.inl (by simp [moveAway, hnone])
  · right
    have hkeep₁ := h.alloc_keeps hSs hfree hr hn hfit hs₁
    have haddr₁ := hkeep₁ addr hS hused (fun hf => hf)
    have hpos := h.blocks.tiling.pos hS
    have hm₁ : q₁.mem addr = q.mem addr := haddr₁.2 addr le_rfl (by omega)
    have hself₁ : q₁.mem scan = usedWord n := by
      rw [hs₁.mem]
      simp only
      rw [cutMem_left (by omega)]
      congr 1
      omega
    have hne : scan ≠ addr := by rintro rfl; omega
    set c := blockSize (q.mem addr) with hc
    -- the copy
    have hdis : scan + 1 ≤ addr + 1 ∨ addr + 1 + (c - 1) ≤ scan + 1 := by
      rcases Nat.lt_or_ge scan addr with hlt | hge
      · exact Or.inl (by omega)
      · have : addr + blockSize (q.mem addr) ≤ scan := h.blocks.tiling.gap hS hSs (by omega)
        exact Or.inr (by omega)
    set q₂ := blockCopy q₁ (scan + 1) (addr + 1) (c - 1) with hq₂
    have hcopy : ∀ w, q₂.mem w = if scan + 1 ≤ w ∧ w < scan + 1 + (c - 1) then
        q₁.mem (addr + 1 + (w - (scan + 1))) else q₁.mem w := blockCopy_mem hdis
    have hszscan : blockSize (q₁.mem scan) = n := by
      rw [hself₁]
      have := blockSize_usedWord (n := (n : ℤ)) (by omega) (by omega)
      omega
    have hblock : ∀ b, RecutStarts S scan (scan + n) r b → b ≠ scan →
        ∀ w, b ≤ w → w < b + blockSize (q₁.mem b) → q₂.mem w = q₁.mem w := by
      intro b hb hbs w hbw' hwb
      rw [hcopy, if_neg]
      rintro ⟨h1, h2⟩
      rcases Nat.lt_or_ge b scan with hlt | hge
      · have : b + blockSize (q₁.mem b) ≤ scan := hinv₁.blocks.tiling.gap hb Recut.mem_left hlt
        omega
      · have : scan + blockSize (q₁.mem scan) ≤ b :=
          hinv₁.blocks.tiling.gap Recut.mem_left hb (by omega)
        omega
    have hctl : ∀ b, RecutStarts S scan (scan + n) r b → q₂.mem b = q₁.mem b := by
      intro b hb
      by_cases hbs : b = scan
      · rw [hbs, hcopy, if_neg (by omega)]
      · have := hinv₁.blocks.tiling.pos hb
        exact hblock b hb hbs b le_rfl (by omega)
    have hinv₂ : Inv q₂ (RecutStarts S scan (scan + n) r) := hinv₁.setPayload hctl
    have hm₂ : q₂.mem addr = q.mem addr := by rw [hctl addr haddr₁.1, hm₁]
    obtain ⟨q₃, l, r', hq₃, hl, hla, har, hrun, hmem₃, hs₃, hinv₃⟩ := stFree_spec hinv₂ haddr₁.1
      (by exact hs₁.arenaBase.symm ▸ hbase) (by rw [hm₂]; exact hused) oldsize
      (by rw [hm₂, ← hc]; exact hold)
    have hkeep₃ := hinv₂.free_keeps hl hla har hrun hmem₃
    have hscan₃ := hkeep₃ scan Recut.mem_left
      (by rw [hctl scan Recut.mem_left, hself₁]; exact usedWord_neg _) hne
    rw [hctl scan Recut.mem_left, hszscan] at hscan₃
    have hone : heapNext addr 1 = addr + 1 := heapNext_natCast (n := 1) (by norm_num)
    refine ⟨scan, q₃, _, ?_, hinv₃, hscan₃.1, ?_, ?_, ?_, ?_, ?_, ?_⟩
    · simp only [moveAway, hq₁, Option.bind_eq_bind, Option.bind_some, hone, hm₁]
      rw [if_neg (by omega), ← hc, ← hq₂, hq₃]
      rfl
    · rw [hscan₃.2 scan le_rfl (by omega), hctl scan Recut.mem_left, hself₁]
    · have hlo := h.blocks.tiling.lo_le hSs
      rcases Nat.eq_or_lt_of_le hlo with heq | hlt'
      · rw [heq] at hsent
        omega
      · exact hlt'
    · intro b hb hbu hba
      have hb₁ := hkeep₁ b hb hbu (fun hf => hf)
      have hposb := h.blocks.tiling.pos hb
      have hbs : b ≠ scan := by rintro rfl; omega
      have hmb : q₁.mem b = q.mem b := hb₁.2 b le_rfl (by omega)
      have hmb₂ : q₂.mem b = q.mem b := by rw [hctl b hb₁.1, hmb]
      have hb₃ := hkeep₃ b hb₁.1 (by rw [hmb₂]; exact hbu) hba
      refine ⟨hb₃.1, fun w hbw' hwb => ?_⟩
      rw [hb₃.2 w hbw' (by rw [hmb₂]; exact hwb), hblock b hb₁.1 hbs w hbw'
        (by rw [hmb]; exact hwb),
        hb₁.2 w hbw' hwb]
    · rintro b hb hbu - rfl
      omega
    · intro i hin hic
      rw [hscan₃.2 _ (by omega) (by omega), hcopy, if_pos (by omega),
        show addr + 1 + (scan + 1 + i - (scan + 1)) = addr + 1 + i by omega,
        haddr₁.2 _ (by omega) (by omega)]
    · exact ⟨hs₃.1.trans hs₁.1, hs₃.2.trans hs₁.2, hs₃.3.trans hs₁.3, hs₃.4.trans hs₁.4,
        hs₃.5.trans hs₁.5, rfl⟩

/-! ### `st_realloc` -/

/-- The paths of `st_realloc` for a used block other than the first one. -/
theorem stRealloc_eq (h : Inv q S) (hS : S addr) (hbase : q.arenaBase < addr)
    (hused : q.mem addr < 0) {oldsize : ℕ} (newsize : ℕ)
    (hold : blockSize (q.mem addr) = blockWords oldsize) :
    ∃ prev v, S prev ∧ prev + blockSize (q.mem prev) = addr ∧
      stRealloc q (addr + 1) newsize oldsize =
        let q₀ : HeapControl := { q with bucketBiggest := Function.update q.bucketBiggest 0 v }
        let next := addr + blockSize (q.mem addr)
        let delta : ℤ := blockWords newsize - blockSize (q.mem addr)
        if delta = 0 then some (((addr + 1 : ℕ) : ℤ), q)
        else if rightRoom q next ≥ delta then
          CohKernel.StAlloc.adjustRight (q₀.blockSetUsed addr (blockWords newsize)) addr next delta
            false
        else if blockFree (q.mem prev) = true ∧ q.mem prev + rightRoom q next ≥ delta then
          moveDown q₀ prev addr next (blockWords newsize) delta
        else moveAway q₀ (addr + 1) addr (blockWords newsize) oldsize := by
  obtain ⟨prev, v, hpred, hSp, hprev⟩ := stPred_spec h hS hbase
  have hposp := h.blocks.tiling.pos hSp
  have hspace := h.geometry.space
  have hend := h.blocks.tiling.end_le hS
  refine ⟨prev, v, hSp, hprev, ?_⟩
  set c := blockSize (q.mem addr) with hc
  have hnf : blockFree (q.mem addr) = false := by
    rw [blockFree, decide_eq_false_iff_not]
    omega
  have heq : ((c : ℕ) : ℤ) = byte2word oldsize := by rw [hold, byte2word_eq]
  have hcode : heapNext addr ((c : ℕ) : ℤ) = addr + c := heapNext_natCast (by omega)
  simp only [stRealloc, Nat.add_sub_cancel, hnf, hpred, Option.bind_eq_bind, Option.bind_some,
    Bool.false_eq_true, if_false, ← hc, byte2word_eq newsize, ← heq, ne_eq, not_true_eq_false,
      hcode]
  by_cases hd : (blockWords newsize : ℤ) - c = 0
  · rw [if_pos hd, if_pos hd]
  · rw [if_neg hd, if_neg hd, if_neg (by omega)]
    rfl

/-- **`st_realloc`** of a used block other than the first one either returns `0` and changes at
    most the sentinel cell of the index heap, or returns the block at its own place, or
    resizes it. -/
theorem stRealloc_spec (h : Inv q S) (hS : S addr) (hbase : q.arenaBase < addr)
    (hused : q.mem addr < 0) (hsent : q.mem q.arenaBase < 0) {newsize oldsize : ℕ}
    (hold : blockSize (q.mem addr) = blockWords oldsize) (hn : 1 ≤ blockWords newsize)
    (hentered : ReallocEntered q addr (blockWords newsize)) :
    (∃ v, stRealloc q (addr + 1) newsize oldsize
        = some (0, { q with bucketBiggest := Function.update q.bucketBiggest 0 v })) ∨
    ∃ l q' S', stRealloc q (addr + 1) newsize oldsize = some (((l + 1 : ℕ) : ℤ), q') ∧
      Resized q q' S addr l (blockWords newsize) S' := by
  obtain ⟨prev, v, hSp, hprev, heq⟩ := stRealloc_eq h hS hbase hused newsize hold
  have hspace := h.geometry.space
  have hend := h.blocks.tiling.end_le hS
  have h₀ := h.setSentinel v
  have hlt := blockWords_lt newsize
  rw [heq]
  dsimp only
  set n := blockWords newsize with hndef
  set q₀ : HeapControl := { q with bucketBiggest := Function.update q.bucketBiggest 0 v } with hq₀
  set c := blockSize (q.mem addr) with hc
  have hleaf₀ : ∀ k, q₀.leaf k = q.leaf k := by
    intro k
    have := h.geometry.inuse_pos
    simp only [HeapControl.leaf, hq₀]
    rw [Function.update_of_ne (by omega)]
  have hent₀ : ∀ {base e}, EdgeEntered q base e (addr + c) → EdgeEntered q₀ base e (addr + c) := by
    intro base e hent
    unfold EdgeEntered at hent ⊢
    rw [hleaf₀]
    exact hent
  have hback : ∀ {l q' S'}, Resized q₀ q' S addr l n S' → Resized q q' S addr l n S' :=
    fun hr => ⟨hr.1, hr.2, hr.3, hr.4, hr.5, hr.6, hr.7,
      ⟨hr.8.1, hr.8.2, hr.8.3, hr.8.4, hr.8.5, rfl⟩⟩
  unfold ReallocEntered at hentered
  simp only [← hc] at hentered
  by_cases hzero : (n : ℤ) - c = 0
  · -- the block already has the new size
    right
    refine ⟨addr, q, S, if_pos hzero, h, hS, ?_, hbase, fun b hb _ _ => ⟨hb, fun _ _ _ => rfl⟩,
      fun _ _ _ hb => hb, fun _ _ _ => rfl, SameArena.refl _⟩
    rw [h.blocks.used_eq hS hused, usedWord_eq (by omega) (by omega)]
    omega
  rw [if_neg hzero]
  by_cases hroom : rightRoom q (addr + c) ≥ (n : ℤ) - c
  · right
    rw [if_pos hroom] at hentered ⊢
    obtain ⟨q', S', hq', hr⟩ := h₀.resize_inPlace hS hbase hused hn hroom (hent₀ hentered)
    exact ⟨addr, q', S', hq', hback hr⟩
  · rw [if_neg hroom] at hentered ⊢
    have hnn : 0 ≤ rightRoom q (addr + c) := by
      have hcases := (h.edge hS hused).right_cases
      rw [← hc] at hcases
      rcases hcases with ⟨-, hf, -, -, hr, -⟩ | ⟨-, hr, -⟩ <;> omega
    have hgrow : c < n := by omega
    by_cases hdown : blockFree (q.mem prev) = true ∧
        q.mem prev + rightRoom q (addr + c) ≥ (n : ℤ) - c
    · right
      rw [if_pos hdown]
      have hfree : 0 ≤ q.mem prev := by
        have := hdown.1
        rwa [blockFree, decide_eq_true_eq] at this
      have habove : q.arenaBase < prev := by
        rcases Nat.eq_or_lt_of_le (h.blocks.tiling.lo_le hSp) with heq' | hlt'
        · rw [heq'] at hsent
          omega
        · exact hlt'
      obtain ⟨q', S', hq', hr⟩ := h₀.resize_moveDown hS hused hSp hprev hfree habove hn
        hdown.2 (hent₀ (hentered prev (h.isBlock_iff.mpr hSp) hprev hfree hdown.2))
      exact ⟨prev, q', S', hq', hback hr⟩
    · rw [if_neg hdown]
      have haway := h₀.resize_moveAway hS hbase hused hsent hn hlt hgrow
        (show blockSize (q₀.mem addr) = blockWords oldsize from hold)
      rcases haway with hnone | ⟨scan, q', S', hq', hr⟩
      · exact Or.inl ⟨v, hnone⟩
      · exact Or.inr ⟨scan, q', S', hq', hback hr⟩

end CohKernel.StAlloc
