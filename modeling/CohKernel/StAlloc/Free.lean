import CohKernel.StAlloc.Alloc

namespace CohKernel.StAlloc

open CohKernel.Lib

/-!
# `st_free` keeps the invariant

`stFree_spec`: `st_free` of a used block turns it, together with its free neighbours, into one
free block.  `Released` is what holds between the merge with the right neighbour and the
merge with the left one, when the leaf of the block's own bucket is not right yet.
-/

variable {q : HeapControl} {S : ℕ → Prop} {addr : ℕ}

/-- The block at `addr` has been freed and merged with its right neighbour; the leaf of its
    bucket does not count it yet.  With `reduce` set, the block that attained that leaf has
    been merged. -/
structure Released (q : HeapControl) (S : ℕ → Prop) (addr : ℕ) (reduce : Bool) : Prop where
  geometry : Geometry q
  tiling : Tiling (fun a => blockSize (q.mem a)) q.arenaBase q.arenaEnd S
  index : IndexTree q
  first : ∀ k, FirstOK q S k (q.firstOf k)
  start : S addr
  free : q.mem addr = blockSize (q.mem addr)
  inuse : q.heapBucket addr < q.bucketsInuse
  other : ∀ k, k ≠ q.heapBucket addr → LeafOK q S k (q.leafOf k)
  bound : ∀ a, S a → a ≠ addr → q.heapBucket a = q.heapBucket addr →
    q.mem a ≤ q.leafOf (q.heapBucket addr)
  attained : reduce = false → q.leafOf (q.heapBucket addr) = 0 ∨ ∃ a, S a ∧ a ≠ addr ∧
    q.heapBucket a = q.heapBucket addr ∧ q.mem a = q.leafOf (q.heapBucket addr)
  small : reduce = true → q.leafOf (q.heapBucket addr) < q.mem addr

/-- A used block that has been freed, before any merge. -/
theorem Inv.released (h : Inv q S) (hS : S addr) (hused : q.mem addr < 0) :
    Released (q.blockSetFree addr (blockSize (q.mem addr))) S addr false := by
  have hspace := h.geometry.space
  have hend := h.blocks.tiling.end_le hS
  have hnew : freeWord (blockSize (q.mem addr)) = blockSize (q.mem addr) :=
    freeWord_eq (by omega) (by omega)
  have hself : (q.blockSetFree addr (blockSize (q.mem addr))).mem addr
      = blockSize (q.mem addr) := by
    rw [HeapControl.blockSetFree]; simp only; rw [Function.update_self, hnew]
  have hne : ∀ a, a ≠ addr →
      (q.blockSetFree addr (blockSize (q.mem addr))).mem a = q.mem a := by
    intro a ha
    rw [HeapControl.blockSetFree]; simp only; rw [Function.update_of_ne ha]
  have hsize : (q.blockSetFree addr (blockSize (q.mem addr))).mem addr
      = blockSize ((q.blockSetFree addr (blockSize (q.mem addr))).mem addr) := by
    have := blockSize_freeWord (n := blockSize (q.mem addr)) (by omega) (by omega)
    rw [hnew] at this
    rw [hself, this]
  have hsz : (fun a => blockSize ((q.blockSetFree addr (blockSize (q.mem addr))).mem a))
      = fun a => blockSize (q.mem a) := by
    funext a
    by_cases ha : a = addr
    · rw [ha]
      omega
    · rw [hne a ha]
  have hleaf : ∀ a, q.mem a = q.leafOf (q.heapBucket a) → S a → a ≠ addr := by
    rintro a hav - rfl
    have := (h.leaf (q.heapBucket a)).nonneg
    omega
  refine ⟨⟨h.geometry.1, h.geometry.2, h.geometry.3, h.geometry.4⟩, ?_, ⟨h.tree, h.index.2⟩,
    fun k => ⟨(h.first k).le, (h.first k).found⟩, hS, hsize, h.inuse hS, ?_, ?_, ?_,
    by simp⟩
  · rw [hsz]; exact h.blocks.tiling
  · intro k hk
    have hka : ∀ a, q.heapBucket a = k → a ≠ addr := by rintro a hb rfl; exact hk hb.symm
    refine ⟨(h.leaf k).nonneg, ?_, ?_⟩
    · intro a ha hb
      rw [hne a (hka a hb)]; exact (h.leaf k).bound a ha hb
    · rcases (h.leaf k).attained with h0 | ⟨a, ha, hb, hav⟩
      · exact Or.inl h0
      · exact Or.inr ⟨a, ha, hb, by rw [hne a (hka a hb)]; exact hav⟩
  · intro a ha haa hb
    rw [hne a haa]; exact (h.leaf _).bound a ha hb
  · intro _
    rcases (h.leaf (q.heapBucket addr)).attained with h0 | ⟨a, ha, hb, hav⟩
    · exact Or.inl h0
    · have haa := hleaf a (hb.symm ▸ hav) ha
      exact Or.inr ⟨a, ha, haa, hb, by rw [hne a haa]; exact hav⟩

/-- Recutting a block to its own extent changes no start. -/
theorem recutStarts_self {sz : ℕ → ℕ} {lo hi l : ℕ} (ht : Tiling sz lo hi S) (hl : S l) :
    RecutStarts S l (l + sz l) (l + sz l) = S := by
  funext a
  refine propext ⟨?_, fun ha => ?_⟩
  · rintro (⟨ha, -⟩ | rfl | ⟨-, hlt⟩)
    · exact ha
    · exact hl
    · exact absurd hlt (lt_irrefl _)
  · rcases Nat.lt_trichotomy a l with hlt | rfl | hgt
    · exact Or.inl ⟨ha, Or.inl hlt⟩
    · exact Or.inr (Or.inl rfl)
    · exact Or.inl ⟨ha, Or.inr (ht.gap hl ha hgt)⟩

/-- The run of a block and its right neighbour, recut into one free block. -/
theorem Released.recutRight {reduce : Bool} (h : Released q S addr reduce) {next : ℕ}
    (hnext : addr + blockSize (q.mem addr) = next) (hnS : S next) :
    Recut q (q.blockSetFree addr ((next + blockSize (q.mem next) : ℕ) - addr)) S addr
      (next + blockSize (q.mem next)) (next + blockSize (q.mem next)) := by
  have hpos := h.tiling.pos h.start
  have hend := h.tiling.end_le hnS
  have hposn := h.tiling.pos hnS
  refine ⟨rfl, rfl, h.start, by omega, le_rfl, h.tiling.next hnS, hend, ?_⟩
  intro a _ hor
  rw [HeapControl.blockSetFree]
  exact Function.update_of_ne (by omega) _ _

/-- **Merging to the right** keeps `Released`, over the run up to the end of the neighbour. -/
theorem Released.mergeRight (h : Released q S addr false) (next : ℕ)
    (hnext : addr + blockSize (q.mem addr) = next) (hnS : S next)
    (hfree : q.mem next = blockSize (q.mem next)) :
    ∃ q₁ reduce, freeRight q addr (q.heapBucket addr) (blockSize (q.mem addr))
        = some (q₁, ((next + blockSize (q.mem next) : ℕ) : ℤ) - addr, reduce) ∧
      SameArena (q.blockSetFree addr ((next + blockSize (q.mem next) : ℕ) - addr)) q₁ ∧
      Released q₁ (RecutStarts S addr (next + blockSize (q.mem next))
        (next + blockSize (q.mem next))) addr reduce := by
  have hrec := h.recutRight hnext hnS
  have hspace := h.geometry.space
  have hpos := h.tiling.pos h.start
  have hposn := h.tiling.pos hnS
  have hendn := h.tiling.end_le hnS
  have hlo := h.tiling.lo_le h.start
  set r := next + blockSize (q.mem next) with hr
  set q₁ := q.blockSetFree addr ((r : ℕ) - addr) with hq₁
  have hself : q₁.mem addr = (r : ℤ) - addr := by
    rw [hq₁, HeapControl.blockSetFree]
    simp only
    rw [Function.update_self, freeWord_eq (by omega) (by omega)]
  have hsize : q₁.mem addr = blockSize (q₁.mem addr) := by
    have := blockSize_freeWord (n := (r : ℤ) - addr) (by omega) (by omega)
    rw [freeWord_eq (by omega) (by omega)] at this
    rw [hself, this]
  have htil : Tiling (fun a => blockSize (q₁.mem a)) q₁.arenaBase q₁.arenaEnd
      (RecutStarts S addr r r) := by
    refine h.tiling.recut h.start (by omega) le_rfl (h.tiling.next hnS) hendn ?_ ?_
      (fun hlt => absurd hlt (lt_irrefl _))
    · intro a ha hor
      rw [hrec.outside a ha hor]
    · omega
  have hinner : ∀ a, S a → addr ≤ a → a < r → a = addr ∨ a = next := by
    intro a ha hsa har
    rcases Nat.eq_or_lt_of_le hsa with heq | hlt
    · exact Or.inl heq.symm
    · have h1 : addr + blockSize (q.mem addr) ≤ a := h.tiling.gap h.start ha hlt
      rcases Nat.eq_or_lt_of_le (hnext ▸ h1) with heq | hlt'
      · exact Or.inr heq.symm
      · have : next + blockSize (q.mem next) ≤ a := h.tiling.gap hnS ha hlt'
        omega
  have hmn : q₁.mem next = q.mem next := Function.update_of_ne (by omega) _ _
  have hinside : next < q.arenaEnd ∧ blockFree (q.mem next) = true := by
    refine ⟨by omega, ?_⟩
    rw [blockFree, decide_eq_true_eq]
    omega
  have hfr : heapNext addr ((blockSize (q.mem addr) : ℕ) : ℤ) = next := by
    rw [heapNext_natCast (by omega), hnext]
  have hsum : ((blockSize (q.mem addr) : ℕ) : ℤ) + q.mem next = (r : ℤ) - addr := by omega
  have hg₁ : Geometry q₁ := ⟨h.geometry.1, h.geometry.2, h.geometry.3, h.geometry.4⟩
  have hi₁ : IndexTree q₁ := ⟨h.index.1, h.index.2⟩
  rcases Nat.lt_or_ge (q.heapBucket addr) (q.heapBucket next) with hlt | hge
  · -- the neighbour starts in a later bucket
    set temp := q.heapBucket next with htemp
    have hin : temp < q.bucketsInuse := (h.first _).inuse hnS (by omega)
    set q₂ := q₁.setFirst temp r with hq₂
    have hrec₂ : Recut q q₂ S addr r r :=
      ⟨rfl, rfl, hrec.left, hrec.lt, hrec.le, hrec.right, hrec.le_end, hrec.outside⟩
    have hfirst₂ : ∀ k, q₂.firstOf k = if k = temp then r else q.firstOf k := by
      intro k
      by_cases hk : k = temp
      · rw [if_pos hk, hk]
        simp only [HeapControl.firstOf, hq₂, HeapControl.setFirst, Function.update_self]
        exact if_pos hin
      · rw [if_neg hk]
        simp only [HeapControl.firstOf, hq₂, HeapControl.setFirst, Function.update_of_ne hk]
        rfl
    have hfok : ∀ k, FirstOK q₂ (RecutStarts S addr r r) k (q₂.firstOf k) := by
      intro k
      rw [hfirst₂]
      split_ifs with hk
      · subst hk
        exact hrec₂.first_past h.geometry (x := next) (by omega) (by omega) rfl hlt
          (fun hlt => absurd hlt (lt_irrefl _))
      · refine hrec₂.first_kept (h.first k) ?_ (fun hlt _ => absurd hlt (lt_irrefl _))
        rcases (h.first k).found with ⟨hSf, hb⟩ | hpast
        · by_contra hcon
          rcases hinner _ hSf (by omega) (by omega) with heq | heq
          · omega
          · rw [heq] at hb
            exact hk hb.symm
        · exact Or.inr (Or.inr hpast)
    -- the leaf of the neighbour's bucket
    have hkne : temp ≠ q.heapBucket addr := by omega
    obtain ⟨q₃, hq₃, hr₃, hK₃, hfirst₃, hok₃, hother₃⟩ := reduceWhen_spec
      (p := decide (q.leaf temp = q.mem next) = true) (q := q₂) (k := temp)
      ⟨hg₁.1, hg₁.2, hg₁.3, hg₁.4⟩ ⟨hi₁.1, hi₁.2⟩ htil hin (hfok temp)
      (hrec₂.leaf_bound (h.other temp hkne) (fun hb => absurd hb.symm hkne)
        (fun hlt => absurd hlt (lt_irrefl _)))
      (by
        intro hred
        rw [decide_eq_true_eq] at hred
        refine hrec₂.leaf_kept (h.other temp hkne) (fun hb => absurd hb.symm hkne)
          (fun hlt => absurd hlt (lt_irrefl _)) ?_
        intro a ha hsa har hb hav
        rcases hinner a ha hsa har with rfl | rfl
        · exact absurd hb.symm hkne
        · have hleaf : q.leafOf temp = q.leaf temp := if_pos hin
          exact absurd (hleaf ▸ hav.symm) hred)
    have hs₃ : SameArena q₁ q₃ := ⟨hr₃.same.1, hr₃.same.2, hr₃.same.3, hr₃.same.4, hr₃.same.5,
      hr₃.same.6⟩
    have hown : q₃.leafOf (q₃.heapBucket addr) = q.leafOf (q.heapBucket addr) := by
      rw [hs₃.heapBucket]
      exact hother₃ _ (fun hb => hkne hb.symm)
    refine ⟨q₃, false, ?_, hs₃, hr₃.geometry, ?_, hr₃.index, ?_, Recut.mem_left, ?_, ?_, ?_, ?_, ?_,
      by simp⟩
    · rw [freeRight]
      simp only [hfr, if_pos hinside, hsum, ← hq₁]
      rw [if_pos (by exact hlt), hmn]
      have hcode : heapNext addr ((r : ℤ) - addr) = r := by
        rw [show (r : ℤ) - addr = ((r - addr : ℕ) : ℤ) by omega, heapNext_natCast (by omega)]
        omega
      rw [hcode]
      change (reduceWhen _ q₂ temp).bind _ = _
      exact hq₃ ▸ rfl
    · rw [hs₃.mem, hs₃.arenaBase, hs₃.arenaEnd]; exact htil
    · intro k
      rw [hfirst₃]; exact (hfok k).same hr₃.same
    · rw [hs₃.mem]; exact hsize
    · rw [hs₃.heapBucket, hK₃]; exact h.inuse
    · intro k hk
      rw [hs₃.heapBucket] at hk
      by_cases hkt : k = temp
      · rw [hkt]; exact hok₃.same hr₃.same
      · rw [hother₃ k hkt]
        refine (hrec₂.leaf_kept (h.other k hk) (fun hb => absurd hb.symm hk)
          (fun hlt => absurd hlt (lt_irrefl _)) ?_).same hr₃.same
        intro a ha hsa har hb _
        rcases hinner a ha hsa har with rfl | rfl
        · exact absurd hb.symm hk
        · exact absurd hb.symm hkt
    · intro a ha haa hb
      rw [hown, hs₃.mem]
      rw [hs₃.heapBucket] at hb
      rcases ha with ⟨ha, hor⟩ | rfl | ⟨-, hlt⟩
      · rw [hrec.outside a ha hor]; exact h.bound a ha haa hb
      · exact absurd rfl haa
      · exact absurd hlt (lt_irrefl _)
    · intro _
      rw [hown, hs₃.mem, hs₃.heapBucket]
      rcases h.attained rfl with h0 | ⟨a, ha, haa, hb, hav⟩
      · exact Or.inl h0
      · have hor : a < addr ∨ r ≤ a := by
          by_contra hcon
          rcases hinner a ha (by omega) (by omega) with heq | heq
          · exact haa heq
          · rw [heq] at hb
            exact hkne hb
        exact Or.inr ⟨a, Or.inl ⟨ha, hor⟩, haa, hb, by rw [hrec.outside a ha hor]; exact hav⟩
  · -- the neighbour is in the block's own bucket
    have hsame : q.heapBucket next = q.heapBucket addr :=
      le_antisymm hge (q.heapBucket_mono (by omega))
    refine ⟨q₁, decide (q.leaf (q.heapBucket next) = q.mem next), ?_, SameArena.refl _, hg₁, htil,
      hi₁, ?_, Recut.mem_left, hsize, h.inuse, ?_, ?_, ?_, ?_⟩
    · rw [freeRight]
      simp only [hfr, if_pos hinside, hsum, ← hq₁]
      rw [if_neg (by exact not_lt.mpr hge), hmn]
      rfl
    · intro k
      refine hrec.first_kept (h.first k) ?_ (fun hlt _ => absurd hlt (lt_irrefl _))
      rcases (h.first k).found with ⟨hSf, hb⟩ | hpast
      · rcases Nat.lt_or_ge (q.firstOf k) addr with hfa | hfa
        · exact Or.inl hfa.le
        · rcases Nat.lt_or_ge (q.firstOf k) r with hfr | hfr
          · rcases hinner _ hSf hfa hfr with heq | heq
            · exact Or.inl heq.le
            · rw [heq, hsame] at hb
              exact Or.inl ((h.first k).le addr h.start hb)
          · exact Or.inr (Or.inl hfr)
      · exact Or.inr (Or.inr hpast)
    · intro k hk
      refine hrec.leaf_kept (h.other k hk) (fun hb => absurd hb.symm hk)
        (fun hlt => absurd hlt (lt_irrefl _)) ?_
      intro a ha hsa har hb _
      rcases hinner a ha hsa har with rfl | rfl
      · exact absurd hb.symm hk
      · exact absurd (hb.symm.trans hsame) hk
    · rintro a (⟨ha, hor⟩ | rfl | ⟨-, hlt⟩) haa hb
      · rw [hrec.outside a ha hor]; exact h.bound a ha haa hb
      · exact absurd rfl haa
      · exact absurd hlt (lt_irrefl _)
    · intro hred
      rw [decide_eq_false_iff_not] at hred
      rcases h.attained rfl with h0 | ⟨a, ha, haa, hb, hav⟩
      · exact Or.inl h0
      · have hor : a < addr ∨ r ≤ a := by
          by_contra hcon
          rcases hinner a ha (by omega) (by omega) with heq | heq
          · exact haa heq
          · rw [heq, ← hsame, HeapControl.leafOf, if_pos (by rw [hsame]; exact h.inuse)] at hav
            exact hred hav.symm
        exact Or.inr ⟨a, Or.inl ⟨ha, hor⟩, haa, hb, by rw [hrec.outside a ha hor]; exact hav⟩
    · intro hred
      rw [decide_eq_true_eq] at hred
      have hleaf : q₁.leafOf (q₁.heapBucket addr) = q.mem next := by
        rw [← hred, hsame]
        exact if_pos h.inuse
      rw [hleaf, hself]
      omega

/-- With a used block on the left, the freed block only has to enter the leaf. -/
theorem Released.keepLeft {reduce : Bool} (h : Released q S addr reduce) (prev : ℕ)
    (hused : q.mem prev < 0) :
    ∃ q', freeLeft q prev addr (q.heapBucket addr) (q.mem addr) reduce = some q' ∧
      SameArena q q' ∧ Loose q' S (fun _ => False) := by
  have hlo := h.tiling.lo_le h.start
  have hhi := h.tiling.lt_hi h.start
  have hleaf : q.leafOf (q.heapBucket addr) = q.leaf (q.heapBucket addr) := if_pos h.inuse
  have hnn := h.index.leaf_nonneg (q.heapBucket addr)
  have hfree := h.free
  obtain ⟨q', hq', hr', -, -, hf', hl'⟩ := growWhen_spec
    (p := q.mem addr > q.leaf (q.heapBucket addr)) h.geometry h.index (a := addr)
    (h.geometry.heapBucket_lt hhi hlo) (by omega)
  have hown : q'.leafOf (q.heapBucket addr)
      = max (q.leafOf (q.heapBucket addr)) (q.mem addr) := by
    rw [hl']
    split_ifs with hp
    · rfl
    · rw [max_eq_left]
      rw [hleaf]
      exact not_lt.mp fun hlt => hp ⟨hlt, rfl⟩
  have hother : ∀ k, k ≠ q.heapBucket addr → q'.leafOf k = q.leafOf k :=
    fun k hk => by rw [hl', if_neg fun hp => hk hp.2]
  have hbound : ∀ a, S a → q.mem a ≤ q'.leafOf (q.heapBucket a) := by
    intro a ha
    by_cases hb : q.heapBucket a = q.heapBucket addr
    · rw [hb, hown]
      by_cases haa : a = addr
      · rw [haa]; exact le_max_right _ _
      · exact le_max_of_le_left (h.bound a ha haa hb)
    · rw [hother _ hb]; exact (h.other _ hb).bound a ha rfl
  refine ⟨q', ?_, hr'.same, hr'.geometry, ?_, hr'.index, ?_, ?_, ?_⟩
  · have hf : blockFree (q.mem prev) = false := by
      rw [blockFree, decide_eq_false_iff_not]
      omega
    rw [freeLeft]
    simp only [hf]
    exact hq'
  · rw [hr'.same.mem, hr'.same.arenaBase, hr'.same.arenaEnd]; exact h.tiling
  · intro k
    refine FirstOK.same ?_ hr'.same
    rw [hf']
    split_ifs with hp
    · rw [hp.2, min_eq_left ((h.first _).le addr h.start rfl)]
      exact h.first _
    · exact h.first k
  · intro a ha
    rw [hr'.same.mem, hr'.same.heapBucket]; exact hbound a ha
  · intro k _
    refine LeafOK.same ?_ hr'.same
    by_cases hk : k = q.heapBucket addr
    · subst hk
      refine ⟨hr'.index.leaf_nonneg _, fun a ha hb => hb ▸ hbound a ha, ?_⟩
      rw [hown]
      rcases le_or_gt (q.leafOf (q.heapBucket addr)) (q.mem addr) with hle | hgt
      · exact Or.inr ⟨addr, h.start, rfl, (max_eq_right hle).symm⟩
      · rw [max_eq_left hgt.le]
        have hred : reduce = false := by
          by_contra hred
          have := h.small (by simpa using hred)
          omega
        rcases h.attained hred with h0 | ⟨a, ha, -, hb, hav⟩
        · exact Or.inl h0
        · exact Or.inr ⟨a, ha, hb, hav⟩
    · rw [hother k hk]; exact h.other k hk

/-- **Merging to the left.** The free block before the freed one takes it in. -/
theorem Released.mergeLeft {reduce : Bool} (h : Released q S addr reduce) (prev : ℕ)
    (hS : S prev) (hfree : q.mem prev = blockSize (q.mem prev))
    (hprev : prev + blockSize (q.mem prev) = addr) :
    ∃ q', freeLeft q prev addr (q.heapBucket addr) (q.mem addr) reduce = some q' ∧
      SameArena (q.blockSetFree prev ((addr + blockSize (q.mem addr) : ℕ) - prev)) q' ∧
      Loose q' (RecutStarts S prev (addr + blockSize (q.mem addr))
        (addr + blockSize (q.mem addr))) (fun _ => False) := by
  have hspace := h.geometry.space
  have hpos := h.tiling.pos h.start
  have hposp := h.tiling.pos hS
  have hend := h.tiling.end_le h.start
  have hlo := h.tiling.lo_le hS
  have haddr := h.free
  set r := addr + blockSize (q.mem addr) with hr
  set q₁ := q.blockSetFree prev ((r : ℕ) - prev) with hq₁
  set k₀ := q.heapBucket addr with hk₀
  have hrec : Recut q q₁ S prev r r := by
    refine ⟨rfl, rfl, hS, by omega, le_rfl, h.tiling.next h.start, hend, ?_⟩
    intro a _ hor
    exact Function.update_of_ne (by omega) _ _
  have hself : q₁.mem prev = (r : ℤ) - prev := by
    rw [hq₁, HeapControl.blockSetFree]
    simp only
    rw [Function.update_self, freeWord_eq (by omega) (by omega)]
  have hgrow : q.mem prev < q₁.mem prev := by omega
  have htil : Tiling (fun a => blockSize (q₁.mem a)) q₁.arenaBase q₁.arenaEnd
      (RecutStarts S prev r r) := by
    refine h.tiling.recut hS (by omega) le_rfl (h.tiling.next h.start) hend ?_ ?_
      (fun hlt => absurd hlt (lt_irrefl _))
    · intro a ha hor
      rw [hrec.outside a ha hor]
    · have := blockSize_freeWord (n := (r : ℤ) - prev) (by omega) (by omega)
      rw [freeWord_eq (by omega) (by omega), ← hself] at this
      omega
  have hinner : ∀ a, S a → prev ≤ a → a < r → a = prev ∨ a = addr := by
    intro a ha hsa har
    rcases Nat.eq_or_lt_of_le hsa with heq | hlt
    · exact Or.inl heq.symm
    · have h1 : prev + blockSize (q.mem prev) ≤ a := h.tiling.gap hS ha hlt
      rcases Nat.eq_or_lt_of_le (hprev ▸ h1) with heq | hlt'
      · exact Or.inr heq.symm
      · have : addr + blockSize (q.mem addr) ≤ a := h.tiling.gap h.start ha hlt'
        omega
  have hsum : q.mem addr + q.mem prev = (r : ℤ) - prev := by omega
  have hf : blockFree (q.mem prev) = true := by
    rw [blockFree, decide_eq_true_eq]
    omega
  have hg₁ : Geometry q₁ := ⟨h.geometry.1, h.geometry.2, h.geometry.3, h.geometry.4⟩
  have hi₁ : IndexTree q₁ := ⟨h.index.1, h.index.2⟩
  have hle := q.heapBucket_mono (a := prev) (b := addr) (by omega)
  -- the tables before the last call of `st_grown`
  have key : ∃ q₂, (if q₁.bucketFirst k₀ = addr then
        (reduceWhen (reduce = true) (q₁.setFirst k₀ (heapNext prev ((r : ℤ) - prev))) k₀).bind
          fun q => stGrown q prev (q.heapBucket prev)
      else stGrown q₁ prev k₀) = stGrown q₂ prev (q.heapBucket prev) ∧ SameArena q₁ q₂ ∧
      Geometry q₂ ∧ IndexTree q₂ ∧
      (∀ k, FirstOK q₂ (RecutStarts S prev r r) k (q₂.firstOf k)) ∧
      (∀ k, k ≠ q.heapBucket prev → LeafOK q₂ (RecutStarts S prev r r) k (q₂.leafOf k)) ∧
      (q₂.leafOf (q.heapBucket prev) = q.leafOf (q.heapBucket prev)) := by
    have hkept : ∀ {q₂ : HeapControl}, Recut q q₂ S prev r r → ∀ k, (k = k₀ → q.firstOf k ≠ addr) →
        FirstOK q₂ (RecutStarts S prev r r) k (q.firstOf k) := by
      intro q₂ hrec₂ k hne
      refine hrec₂.first_kept (h.first k) ?_ (fun hlt _ => absurd hlt (lt_irrefl _))
      rcases (h.first k).found with ⟨hSf, hb⟩ | hpast
      · by_contra hcon
        rcases hinner _ hSf (by omega) (by omega) with heq | heq
        · omega
        · rw [heq] at hb
          exact hne hb.symm heq
      · exact Or.inr (Or.inr hpast)
    have hleafkept : ∀ {q₂ : HeapControl}, Recut q q₂ S prev r r → ∀ k, k ≠ k₀ →
        k ≠ q.heapBucket prev → LeafOK q₂ (RecutStarts S prev r r) k (q.leafOf k) := by
      intro q₂ hrec₂ k hk hkp
      refine hrec₂.leaf_kept (h.other k hk) (fun hb => absurd hb.symm hkp)
        (fun hlt => absurd hlt (lt_irrefl _)) ?_
      intro a ha hsa har hb _
      rcases hinner a ha hsa har with rfl | rfl
      · exact absurd hb.symm hkp
      · exact absurd hb.symm hk
    have hfo : q.firstOf k₀ = q.bucketFirst k₀ := if_pos h.inuse
    by_cases hfirst : q.bucketFirst k₀ = addr
    · -- the freed block was the first of its bucket: `prev` lies in an earlier one
      have hlt : q.heapBucket prev < k₀ := by
        rcases Nat.eq_or_lt_of_le hle with heq | hlt
        · have := (h.first k₀).le prev hS heq
          omega
        · exact hlt
      set q₁' := q₁.setFirst k₀ r with hq₁'
      have hrec' : Recut q q₁' S prev r r :=
        ⟨rfl, rfl, hrec.left, hrec.lt, hrec.le, hrec.right, hrec.le_end, hrec.outside⟩
      have hfok : ∀ k, FirstOK q₁' (RecutStarts S prev r r) k (q₁'.firstOf k) := by
        intro k
        by_cases hk : k = k₀
        · have : q₁'.firstOf k = r := by
            rw [hk]
            simp only [HeapControl.firstOf, hq₁', HeapControl.setFirst, Function.update_self]
            exact if_pos h.inuse
          rw [this, hk]
          exact hrec'.first_past h.geometry (x := addr) (by omega) (by omega) rfl hlt
            (fun hlt => absurd hlt (lt_irrefl _))
        · have : q₁'.firstOf k = q.firstOf k := by
            simp only [HeapControl.firstOf, hq₁', HeapControl.setFirst, Function.update_of_ne hk]
            rfl
          rw [this]
          exact hkept hrec' k fun heq => absurd heq hk
      obtain ⟨q₂, hq₂, hr₂, -, hfirst₂, hok₂, hother₂⟩ := reduceWhen_spec
        (p := reduce = true) (q := q₁') (k := k₀)
        ⟨hg₁.1, hg₁.2, hg₁.3, hg₁.4⟩ ⟨hi₁.1, hi₁.2⟩ htil h.inuse (hfok k₀)
        (by
          rintro a (⟨ha, hor⟩ | rfl | ⟨-, hlt'⟩) hb
          · rw [hrec'.outside a ha hor]; exact h.bound a ha (by omega) hb
          · exact absurd hb (by exact hlt.ne)
          · exact absurd hlt' (lt_irrefl _))
        (by
          intro hred
          refine ⟨h.index.leaf_nonneg k₀, ?_, ?_⟩
          · rintro a (⟨ha, hor⟩ | rfl | ⟨-, hlt'⟩) hb
            · rw [hrec'.outside a ha hor]; exact h.bound a ha (by omega) hb
            · exact absurd hb (by exact hlt.ne)
            · exact absurd hlt' (lt_irrefl _)
          · rcases h.attained (by simpa using hred) with h0 | ⟨a, ha, haa, hb, hav⟩
            · exact Or.inl h0
            · have hor : a < prev ∨ r ≤ a := by
                by_contra hcon
                rcases hinner a ha (by omega) (by omega) with heq | heq
                · rw [heq] at hb
                  omega
                · exact haa heq
              exact Or.inr ⟨a, Or.inl ⟨ha, hor⟩, hb, by rw [hrec'.outside a ha hor]; exact hav⟩)
      have hcode : heapNext prev ((r : ℤ) - prev) = r := by
        rw [show (r : ℤ) - prev = ((r - prev : ℕ) : ℤ) by omega, heapNext_natCast (by omega)]
        omega
      have hs₂ : SameArena q₁ q₂ := ⟨hr₂.same.1, hr₂.same.2, hr₂.same.3, hr₂.same.4, hr₂.same.5,
        hr₂.same.6⟩
      refine ⟨q₂, ?_, hs₂, hr₂.geometry, hr₂.index, ?_, ?_, ?_⟩
      · rw [if_pos (by exact hfirst), hcode, ← hq₁', hq₂]
        simp only [Option.bind_some]
        rw [hs₂.heapBucket]
        rfl
      · intro k
        rw [hfirst₂]; exact (hfok k).same hr₂.same
      · intro k hk
        by_cases hk₀' : k = k₀
        · rw [hk₀']; exact hok₂.same hr₂.same
        · rw [hother₂ k hk₀']; exact (hleafkept hrec' k hk₀' hk).same hr₂.same
      · exact hother₂ _ hlt.ne
    · -- the first block of the bucket is `prev` or lies before it
      have hne : q.firstOf k₀ ≠ addr := by rw [hfo]; exact hfirst
      have hsame : q.heapBucket prev = k₀ := by
        have hfle := (h.first k₀).le addr h.start rfl
        rcases (h.first k₀).found with ⟨hSf, hb⟩ | hpast
        · have hfp : q.firstOf k₀ ≤ prev := by
            by_contra hcon
            rcases hinner _ hSf (by omega) (by omega) with heq | heq
            · omega
            · exact hne heq
          have := q.heapBucket_mono hfp
          omega
        · have := (h.geometry.lt_bucketEnd_iff (k := k₀) (h.tiling.lt_hi h.start)
            (h.tiling.lo_le h.start)).mpr le_rfl
          omega
      refine ⟨q₁, ?_, SameArena.refl _, hg₁, hi₁, ?_, ?_, rfl⟩
      · rw [if_neg (by exact hfirst), hsame]
      · intro k
        exact hkept hrec k fun heq => heq ▸ hne
      · intro k hk
        exact hleafkept hrec k (hsame ▸ hk) hk
  obtain ⟨q₂, hcode, hs₂, hg₂, hi₂, hfok, hother, hown⟩ := key
  obtain ⟨q₃, hq₃, hs₃, hg₃, hi₃, -, -, hf₃, hl₃⟩ := stGrown_spec hg₂ hi₂ (a := prev)
    (k := q.heapBucket prev)
    (by
      rw [hs₂.bucketsMaximum]
      exact h.geometry.heapBucket_lt (h.tiling.lt_hi hS) hlo)
    (by rw [hs₂.mem]; omega)
  have hs : SameArena q₁ q₃ := hs₂.trans hs₃
  have hrec₃ := hrec.trans_same hs
  have hv : q₃.leafOf (q.heapBucket prev) = max (q.leafOf (q.heapBucket prev)) (q₃.mem prev) := by
    rw [hl₃, if_pos rfl, hown, hs₃.mem]
  rw [← hs.mem] at hgrow hself
  -- what the leaf of the bucket of `prev` was before
  have hold : (∀ a, S a → a ≠ addr → q.heapBucket a = q.heapBucket prev →
        q.mem a ≤ q.leafOf (q.heapBucket prev)) ∧
      (q.leafOf (q.heapBucket prev) < q.mem addr ∨ q.leafOf (q.heapBucket prev) = 0 ∨
        ∃ a, S a ∧ a ≠ addr ∧ q.heapBucket a = q.heapBucket prev ∧
          q.mem a = q.leafOf (q.heapBucket prev)) := by
    by_cases hk : q.heapBucket prev = k₀
    · rw [hk]
      refine ⟨h.bound, ?_⟩
      cases hred : reduce with
      | true => exact Or.inl (h.small hred)
      | false => exact Or.inr (h.attained hred)
    · have hok := h.other _ hk
      refine ⟨fun a ha _ hb => hok.bound a ha hb, Or.inr ?_⟩
      rcases hok.attained with h0 | ⟨a, ha, hb, hav⟩
      · exact Or.inl h0
      · exact Or.inr ⟨a, ha, by rintro rfl; exact hk hb.symm, hb, hav⟩
  have hlast : LeafOK q₃ (RecutStarts S prev r r) (q.heapBucket prev)
      (q₃.leafOf (q.heapBucket prev)) := by
    refine ⟨hi₃.leaf_nonneg _, ?_, ?_⟩
    · rw [hv]
      rintro a (⟨ha, hor⟩ | rfl | ⟨-, hlt⟩) hb
      · rw [hrec₃.heapBucket] at hb
        rw [hrec₃.outside a ha hor]
        exact le_max_of_le_left (hold.1 a ha (by omega) hb)
      · exact le_max_right _ _
      · exact absurd hlt (lt_irrefl _)
    · rw [hv]
      have hnew : q.leafOf (q.heapBucket prev) ≤ q₃.mem prev →
          ∃ a, RecutStarts S prev r r a ∧ q₃.heapBucket a = q.heapBucket prev ∧
            q₃.mem a = max (q.leafOf (q.heapBucket prev)) (q₃.mem prev) :=
        fun hle => ⟨prev, Recut.mem_left, by rw [hrec₃.heapBucket], (max_eq_right hle).symm⟩
      rcases le_or_gt (q.leafOf (q.heapBucket prev)) (q₃.mem prev) with hle | hgt
      · exact Or.inr (hnew hle)
      · rw [max_eq_left hgt.le]
        rcases hold.2 with hlt | h0 | ⟨a, ha, haa, hb, hav⟩
        · omega
        · exact Or.inl h0
        · have hor : a < prev ∨ r ≤ a := by
            by_contra hcon
            rcases hinner a ha (by omega) (by omega) with heq | heq
            · rw [heq] at hav
              omega
            · exact haa heq
          exact Or.inr ⟨a, Or.inl ⟨ha, hor⟩, by rw [hrec₃.heapBucket, hb],
            by rw [hrec₃.outside a ha hor, hav]⟩
  have hleaf : ∀ k, LeafOK q₃ (RecutStarts S prev r r) k (q₃.leafOf k) := by
    intro k
    by_cases hk : k = q.heapBucket prev
    · rw [hk]; exact hlast
    · rw [hl₃, if_neg hk]; exact (hother k hk).same hs₃
  refine ⟨q₃, ?_, hs, hg₃, ?_, hi₃, ?_, fun a ha => (hleaf _).bound a ha rfl, fun k _ => hleaf k⟩
  · rw [freeLeft]
    simp only [if_pos hf, hsum]
    rw [← hq₃, ← hcode]
    rfl
  · rw [hs.mem, hs.arenaBase, hs.arenaEnd]; exact htil
  · intro k
    refine FirstOK.same ?_ hs₃
    rw [hf₃]
    split_ifs with hk
    · have hle := (hfok (q.heapBucket prev)).le prev Recut.mem_left
        (by rw [(hrec.trans_same hs₂).heapBucket])
      rw [min_eq_left hle, hk]
      exact hfok _
    · exact hfok k

/-- The merge with the right neighbour, if that is free. -/
theorem Inv.release_right (h : Inv q S) (hS : S addr) (hused : q.mem addr < 0) :
    ∃ (q₁ : HeapControl) (reduce : Bool) (r : ℕ),
      freeRight (q.blockSetFree addr (blockSize (q.mem addr))) addr
        (q.heapBucket addr) (blockSize (q.mem addr)) = some (q₁, q₁.mem addr, reduce) ∧
      SameArena (q.blockSetFree addr ((r : ℤ) - addr)) q₁ ∧
      Released q₁ (RecutStarts S addr r r) addr reduce ∧ addr < r ∧
      r = addr + blockSize (q₁.mem addr) ∧ (r < q.arenaEnd → S r ∧ q.mem r < 0) ∧
      (∀ b, S b → addr ≤ b → b < r → b = addr ∨ 0 ≤ q.mem b) := by
  have hspace := h.geometry.space
  have hend := h.blocks.tiling.end_le hS
  have hpos := h.blocks.tiling.pos hS
  have hrel := h.released hS hused
  set next := addr + blockSize (q.mem addr) with hnext
  set q₀ := q.blockSetFree addr (blockSize (q.mem addr)) with hq₀
  have hself : q₀.mem addr = blockSize (q.mem addr) := by
    rw [hq₀, HeapControl.blockSetFree]
    simp only
    rw [Function.update_self, freeWord_eq (by omega) (by omega)]
  have hsz : blockSize (q₀.mem addr) = blockSize (q.mem addr) := by
    have := hrel.free
    omega
  have hne : q₀.mem next = q.mem next := Function.update_of_ne (by omega) _ _
  have hcode : heapNext addr ((blockSize (q.mem addr) : ℕ) : ℤ) = next :=
    heapNext_natCast (by omega)
  by_cases hfree : next < q.arenaEnd ∧ 0 ≤ q.mem next
  · have hnS := h.blocks.tiling.next hS hfree.1
    have hword := h.blocks.free_eq hspace hnS hfree.2
    have hposn := h.blocks.tiling.pos hnS
    have hendn := h.blocks.tiling.end_le hnS
    obtain ⟨q₁, reduce, hq₁, hs₁, hrel₁⟩ := hrel.mergeRight next (by rw [hsz]) hnS
      (by rw [hne]; exact hword)
    rw [hne] at hq₁ hs₁ hrel₁
    set r := next + blockSize (q.mem next) with hr
    have hfw : freeWord ((r : ℤ) - addr) = (r : ℤ) - addr := freeWord_eq (by omega) (by omega)
    have hmem : q₁.mem addr = (r : ℤ) - addr := by
      rw [hs₁.mem, HeapControl.blockSetFree]
      simp only
      rw [Function.update_self, hfw]
    have hword₁ := hrel₁.free
    have hs : SameArena (q.blockSetFree addr ((r : ℤ) - addr)) q₁ := by
      refine ⟨hs₁.1, hs₁.2, hs₁.3, hs₁.4, hs₁.5, ?_⟩
      rw [hs₁.mem]
      simp only [HeapControl.blockSetFree, hq₀, Function.update_idem]
    refine ⟨q₁, reduce, r, ?_, hs, hrel₁, by omega, by omega, ?_, ?_⟩
    · rw [hsz] at hq₁
      rw [hmem]
      exact hq₁
    · intro hlt
      exact ⟨h.blocks.tiling.next hnS hlt,
        h.blocks.separated hnS (h.blocks.tiling.next hnS hlt) hfree.2⟩
    · intro b hb hab hbr
      rcases Nat.eq_or_lt_of_le hab with heq | hlt
      · exact Or.inl heq.symm
      · have h1 : next ≤ b := h.blocks.tiling.gap hS hb hlt
        rcases Nat.eq_or_lt_of_le h1 with heq | hlt'
        · exact Or.inr (heq ▸ hfree.2)
        · have : r ≤ b := h.blocks.tiling.gap hnS hb hlt'
          omega
  · have hcond : ¬(next < q₀.arenaEnd ∧ blockFree (q₀.mem next) = true) := by
      rw [hne, blockFree, decide_eq_true_eq]
      exact hfree
    have hsame : RecutStarts S addr next next = S := recutStarts_self h.blocks.tiling hS
    refine ⟨q₀, false, next, ?_, ?_, hsame.symm ▸ hrel, by omega, by omega, ?_, ?_⟩
    · rw [freeRight]
      simp only [hcode]
      rw [if_neg hcond, hself]
    · rw [show ((next : ℕ) : ℤ) - addr = (blockSize (q.mem addr) : ℤ) by omega]
      exact SameArena.refl _
    · intro hlt
      exact ⟨h.blocks.tiling.next hS hlt, not_le.mp fun hle => hfree ⟨hlt, hle⟩⟩
    · intro b hb hab hbr
      rcases Nat.eq_or_lt_of_le hab with heq | hlt
      · exact Or.inl heq.symm
      · have : next ≤ b := h.blocks.tiling.gap hS hb hlt
        omega

/-- The starts after two recuts, the second of which swallows the first. -/
theorem recutStarts_left {l m r : ℕ} (hlm : l < m) (hmr : m < r) :
    RecutStarts (RecutStarts S m r r) l r r = RecutStarts S l r r := by
  funext a
  refine propext ⟨?_, ?_⟩
  · rintro (⟨⟨ha, -⟩ | rfl | ⟨-, hlt⟩, hor⟩ | rfl | ⟨-, hlt⟩)
    · exact Or.inl ⟨ha, hor⟩
    · omega
    · exact absurd hlt (lt_irrefl _)
    · exact Or.inr (Or.inl rfl)
    · exact absurd hlt (lt_irrefl _)
  · rintro (⟨ha, hor⟩ | rfl | ⟨-, hlt⟩)
    · exact Or.inl ⟨Or.inl ⟨ha, by omega⟩, hor⟩
    · exact Or.inr (Or.inl rfl)
    · exact absurd hlt (lt_irrefl _)

/-- **`st_free`** of a used block other than the first one: the run `[l, r)` of the block and
    its free neighbours becomes one free block. -/
theorem stFree_merged (h : Inv q S) (hS : S addr) (hbase : q.arenaBase < addr)
    (hused : q.mem addr < 0) (size : ℕ) (hsize : blockSize (q.mem addr) = blockWords size) :
    ∃ q' l r, stFree q (addr + 1) size = some (0, q') ∧ S l ∧ l ≤ addr ∧ addr < r ∧
      (∀ b, S b → l ≤ b → b < r → b = addr ∨ 0 ≤ q.mem b) ∧
      (∀ w, w ≠ l → w ≠ addr → q'.mem w = q.mem w) ∧
      SameArena { q with mem := q'.mem } q' ∧ Inv q' (RecutStarts S l r r) ∧ 0 ≤ q'.mem l := by
  have hspace := h.geometry.space
  obtain ⟨prev, v, hpred, hSp, hprev⟩ := stPred_spec h hS hbase
  have hposp := h.blocks.tiling.pos hSp
  have h₀ := h.setSentinel v
  set q₀ : HeapControl := { q with bucketBiggest := Function.update q.bucketBiggest 0 v } with hq₀
  obtain ⟨q₁, reduce, r, hq₁, hs₁, hrel, har, hr, hright, hruns⟩ := h₀.release_right hS hused
  have hmem₁ : ∀ w, w ≠ addr → q₁.mem w = q.mem w := by
    intro w hw
    rw [hs₁.mem]
    exact Function.update_of_ne hw _ _
  have hrend : r ≤ q.arenaEnd := by
    have := hrel.tiling.end_le hrel.start
    rw [hs₁.arenaEnd] at this
    exact hr ▸ this
  have hb₁ : q₁.heapBucket addr = q.heapBucket addr := by rw [hs₁.heapBucket]; rfl
  have hcode : stFree q (addr + 1) size
      = (freeLeft q₁ prev addr (q.heapBucket addr) (q₁.mem addr) reduce).bind
          fun q => some (0, q) := by
    have hnf : blockFree (q.mem addr) = false := by
      rw [blockFree, decide_eq_false_iff_not]
      omega
    have heq : ((blockSize (q.mem addr) : ℕ) : ℤ) = byte2word size := by
      rw [hsize, byte2word_eq]
    simp only [stFree, Nat.add_sub_cancel, hnf, heq, hpred, Option.bind_eq_bind, Option.bind_some,
      ne_eq, not_true_eq_false, if_false, Bool.false_eq_true]
    rw [if_neg (by omega), ← heq]
    change (freeRight (q₀.blockSetFree addr (blockSize (q₀.mem addr))) addr (q₀.heapBucket addr)
      (blockSize (q₀.mem addr))).bind _ = _
    rw [hq₁]
    rfl
  have hfp : ∀ p, S p → p + blockSize (q.mem p) = addr → p = prev := by
    intro p hp hpa
    have := h.blocks.tiling.pos hp
    rcases Nat.lt_trichotomy p prev with hlt | heq | hgt
    · have : p + blockSize (q.mem p) ≤ prev := h.blocks.tiling.gap hp hSp hlt
      omega
    · exact heq
    · have : prev + blockSize (q.mem prev) ≤ p := h.blocks.tiling.gap hSp hp hgt
      omega
  rcases lt_or_ge (q.mem prev) 0 with hpu | hpf
  · -- the left neighbour is used
    obtain ⟨q₂, hq₂, hs₂, hloose⟩ := hrel.keepLeft prev
      (by rw [hmem₁ prev (by omega)]; exact hpu)
    have hs := hs₁.trans hs₂
    rw [hb₁] at hq₂
    refine ⟨q₂, addr, r, ?_, hS, le_rfl, har, hruns, ?_, ⟨hs.1, hs.2, hs.3, hs.4, hs.5, rfl⟩, ?_,
      ?_⟩
    · rw [hcode, hq₂]
      rfl
    · intro w hw _
      rw [hs₂.mem, hmem₁ w hw]
    · refine hloose.inv (fun _ hf => hf) ?_
      rw [hs.arenaBase, hs.arenaEnd, hs₂.mem]
      refine h.blocks.recut hspace hS har le_rfl (fun hlt => (hright hlt).1) hrend ?_
        (Or.inr ⟨?_, rfl, ?_⟩) (fun hlt => absurd hlt (lt_irrefl _))
        (fun hlt _ => (hright hlt).2)
      · intro a _ hor
        exact hmem₁ a (by omega)
      · rw [hs₁.mem]
        exact Function.update_self ..
      · intro p hp hpa
        rw [hfp p hp hpa]; exact hpu
    · rw [hs₂.mem]
      exact hrel.free ▸ Int.natCast_nonneg _
  · -- the left neighbour is free
    have hword := h.blocks.free_eq hspace hSp hpf
    have hmp := hmem₁ prev (by omega)
    obtain ⟨q₂, hq₂, hs₂, hloose⟩ := hrel.mergeLeft prev
      (Or.inl ⟨hSp, Or.inl (by omega)⟩) (by rw [hmp]; exact hword) (by rw [hmp, hprev])
    rw [← hr] at hs₂ hloose
    rw [recutStarts_left (by omega) har] at hloose
    rw [hb₁] at hq₂
    have hs' : q₂.arenaBase = q.arenaBase ∧ q₂.arenaEnd = q.arenaEnd :=
      ⟨hs₂.arenaBase.trans hs₁.arenaBase, hs₂.arenaEnd.trans hs₁.arenaEnd⟩
    have hmem₂ : ∀ w, w ≠ prev → w ≠ addr → q₂.mem w = q.mem w := by
      intro w hw hwa
      rw [hs₂.mem, ← hmem₁ w hwa]
      exact Function.update_of_ne hw _ _
    refine ⟨q₂, prev, r, ?_, hSp, by omega, har, ?_, hmem₂, ?_, ?_, ?_⟩
    · rw [hcode, hq₂]
      rfl
    · intro b hb hpb hbr
      rcases Nat.lt_or_ge b addr with hlt | hge
      · rcases Nat.eq_or_lt_of_le hpb with heq | hgt
        · exact Or.inr (heq ▸ hpf)
        · have : prev + blockSize (q.mem prev) ≤ b := h.blocks.tiling.gap hSp hb hgt
          omega
      · exact hruns b hb hge hbr
    · exact ⟨hs₂.1.trans hs₁.1, hs₂.2.trans hs₁.2, hs₂.3.trans hs₁.3, hs'.1, hs'.2, rfl⟩
    · refine hloose.inv (fun _ hf => hf) ?_
      rw [hs'.1, hs'.2]
      refine h.blocks.recut hspace hSp (by omega) le_rfl (fun hlt => (hright hlt).1) hrend ?_
        (Or.inr ⟨?_, rfl, ?_⟩) (fun hlt => absurd hlt (lt_irrefl _))
        (fun hlt _ => (hright hlt).2)
      · intro a _ hor
        exact hmem₂ a (by omega) (by omega)
      · rw [hs₂.mem]
        exact Function.update_self ..
      · intro p hp hpp
        by_contra hcon
        have := h.blocks.separated hp (hpp.symm ▸ hSp) (not_lt.mp hcon)
        rw [hpp] at this
        omega
    · rw [hs₂.mem]
      show 0 ≤ Function.update q₁.mem prev (freeWord (r - prev)) prev
      rw [Function.update_self]
      exact Int.emod_nonneg _ (by norm_num)

theorem stFree_spec (h : Inv q S) (hS : S addr) (hbase : q.arenaBase < addr)
    (hused : q.mem addr < 0) (size : ℕ) (hsize : blockSize (q.mem addr) = blockWords size) :
    ∃ q' l r, stFree q (addr + 1) size = some (0, q') ∧ S l ∧ l ≤ addr ∧ addr < r ∧
      (∀ b, S b → l ≤ b → b < r → b = addr ∨ 0 ≤ q.mem b) ∧
      (∀ w, w ≠ l → w ≠ addr → q'.mem w = q.mem w) ∧
      SameArena { q with mem := q'.mem } q' ∧ Inv q' (RecutStarts S l r r) := by
  obtain ⟨q', l, r, hq', hl, hla, har, hrun, hmem, hs, hinv, -⟩ :=
    stFree_merged h hS hbase hused size hsize
  exact ⟨q', l, r, hq', hl, hla, har, hrun, hmem, hs, hinv⟩

end CohKernel.StAlloc
