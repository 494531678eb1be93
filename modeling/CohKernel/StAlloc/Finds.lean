import CohKernel.StAlloc.FirstFit

namespace CohKernel.StAlloc

open CohKernel.Lib

/-!
# `st_realloc` finds what there is

* `HasRoom` — a block can be resized in place, with its free neighbours, or elsewhere;
* `Inv.realloc_spares` — then `st_realloc` returns a block;
* `realloc_finds` — in every run that meets `Enters`;
* `realloc_overlooks` — after the defect of `st_realloc` a free block is overlooked.
-/

/-- There is room for `n` words: the block at `addr` with the free words on its right, these and the
    free block on its left, or another free block. -/
def HasRoom (q : HeapControl) (addr n : ℕ) : Prop :=
  let here : ℤ := blockSize (q.mem addr) + rightRoom q (addr + blockSize (q.mem addr))
  (n : ℤ) ≤ here ∨
    (∃ prev, IsBlock q prev ∧ prev + blockSize (q.mem prev) = addr ∧
      blockFree (q.mem prev) = true ∧ (n : ℤ) ≤ blockSize (q.mem prev) + here) ∨
    ∃ b, FreeBlock q n b

/-- `st_realloc` returns a block. -/
def ReallocFinds (q : HeapControl) (a newsize oldsize : ℕ) : Prop :=
  ∃ r q', stRealloc q a newsize oldsize = some (r, q') ∧ 0 < r

variable {q : HeapControl} {S : ℕ → Prop} {addr n : ℕ}

/-- The words that there can be room for are fewer than those of the address space. -/
theorem Inv.hasRoom_lt (h : Inv q S) (hS : S addr) (hbase : q.arenaBase < addr)
    (hused : q.mem addr < 0) (hsent : q.mem q.arenaBase < 0) (hroom : HasRoom q addr n) :
    n < 2 ^ 30 := by
  have hspace := h.geometry.space
  have hend := h.blocks.tiling.end_le hS
  have hright : ((addr + blockSize (q.mem addr) : ℕ) : ℤ) +
      rightRoom q (addr + blockSize (q.mem addr)) ≤ q.arenaEnd := by
    rcases (h.edge hS hused).right_cases with ⟨-, hfree, hnS, -, hroom, -⟩ | ⟨-, hroom, -⟩
    · have hword := h.blocks.free_eq hspace hnS hfree
      have hle := h.blocks.tiling.end_le hnS
      omega
    · omega
  unfold HasRoom at hroom
  rcases hroom with hle | ⟨prev, hprev, heq, hfree, hle⟩ | ⟨b, hb, hfree, hsize⟩
  · push_cast at hright
    omega
  · have hlo := h.blocks.tiling.lo_le (h.isBlock_iff.mp hprev)
    have hne : prev ≠ q.arenaBase := by
      rintro rfl
      rw [blockFree, decide_eq_true_eq] at hfree
      omega
    push_cast at hright
    omega
  · have hSb := h.isBlock_iff.mp hb
    have hlo := h.blocks.tiling.lo_le hSb
    have hle := h.blocks.tiling.end_le hSb
    have hne : b ≠ q.arenaBase := by
      rintro rfl
      rw [blockFree, decide_eq_true_eq] at hfree
      omega
    omega

/-- The copy and the release find the new block that `st_alloc` has found. -/
theorem Inv.moveAway_finds (h : Inv q S) (hS : S addr) (hbase : q.arenaBase < addr)
    (hused : q.mem addr < 0) (hsent : q.mem q.arenaBase < 0) (hn : 1 ≤ n) (hlt : n < 2 ^ 30)
    {oldsize : ℕ} (hgrow : blockSize (q.mem addr) < n)
    (hold : blockSize (q.mem addr) = blockWords oldsize) (hex : ∃ b, FreeBlock q n b) :
    ∃ r q', moveAway q (addr + 1) addr n oldsize = some (r, q') ∧ 0 < r := by
  obtain ⟨t, hSt, htn, hlow⟩ := h.lowest hn hex
  obtain ⟨q₁, hq₁⟩ := h.alloc_lowest hn hSt htn hlow (blockWords_word2byte hn hlt)
  rcases h.resize_moveAway hS hbase hused hsent hn hlt hgrow hold with
    hnone | ⟨scan, q', S', hq', -⟩
  · -- a failing allocation is excluded
    simp only [moveAway, hq₁, Option.bind_eq_bind, Option.bind_some] at hnone
    rw [if_neg (by omega)] at hnone
    obtain ⟨⟨r, q₂⟩, -, hret⟩ := Option.bind_eq_some_iff.mp hnone
    have hzero := congrArg Prod.fst (Option.some.inj hret)
    simp only at hzero
    omega
  · exact ⟨_, q', hq', by omega⟩

/-- **`st_realloc` of a used block finds a block** when there is room for one. -/
theorem Inv.realloc_spares (h : Inv q S) (hS : S addr) (hbase : q.arenaBase < addr)
    (hused : q.mem addr < 0) (hsent : q.mem q.arenaBase < 0) {newsize oldsize : ℕ}
    (hold : blockSize (q.mem addr) = blockWords oldsize)
    (hroom : HasRoom q addr (roundedWords newsize)) :
    ReallocFinds q (addr + 1) newsize oldsize := by
  have hlt := h.hasRoom_lt hS hbase hused hsent hroom
  have hwords : blockWords newsize = roundedWords newsize := by
    unfold blockWords roundedWords at *
    omega
  have hn := roundedWords_pos newsize
  obtain ⟨prev, v, hSp, hprev, heq⟩ := stRealloc_eq h hS hbase hused newsize hold
  unfold ReallocFinds
  rw [heq]
  dsimp only
  rw [hwords]
  unfold HasRoom at hroom
  have h₀ := h.setSentinel v
  set n := roundedWords newsize with hndef
  set q₀ : HeapControl := { q with bucketBiggest := Function.update q.bucketBiggest 0 v } with hq₀
  set c := blockSize (q.mem addr) with hc
  by_cases hzero : (n : ℤ) - c = 0
  · rw [if_pos hzero]
    exact ⟨_, q, rfl, by omega⟩
  rw [if_neg hzero]
  by_cases hright : rightRoom q (addr + c) ≥ (n : ℤ) - c
  · -- in place
    rw [if_pos hright]
    have hfit : ((addr + n : ℕ) : ℤ) ≤ (addr + c : ℕ) + rightRoom q₀ (addr + c) := by
      show ((addr + n : ℕ) : ℤ) ≤ (addr + c : ℕ) + rightRoom q (addr + c)
      push_cast
      omega
    obtain ⟨q', hq'⟩ := (h₀.edge hS hused).adjustRight_returns (e := addr + n) (by omega) hfit
    have hcast : (((addr + n : ℕ) : ℤ) - addr) = n := by omega
    have hdelta : (((addr + n : ℕ) : ℤ) - (addr + c : ℕ)) = (n : ℤ) - c := by
      push_cast
      ring
    have hmem : q₀.mem = q.mem := rfl
    rw [hcast, hmem, ← hc, hdelta] at hq'
    exact ⟨_, q', hq', by omega⟩
  rw [if_neg hright]
  have hgrow : c < n := by
    have hcases := (h.edge hS hused).right_cases
    rw [← hc] at hcases
    have hnn : 0 ≤ rightRoom q (addr + c) := by
      rcases hcases with ⟨-, hf, -, -, hr, -⟩ | ⟨-, hr, -⟩ <;> omega
    omega
  by_cases hdown : blockFree (q.mem prev) = true ∧
      q.mem prev + rightRoom q (addr + c) ≥ (n : ℤ) - c
  · -- down into the free block on the left
    rw [if_pos hdown]
    have hfree : 0 ≤ q.mem prev := by
      have hf := hdown.1
      rwa [blockFree, decide_eq_true_eq] at hf
    have hword := h.blocks.free_eq h.geometry.space hSp hfree
    obtain ⟨qv, hedge, hmove, hsv, -, hout, -⟩ := h₀.moveDown_edge hS hused hSp hprev hfree n
    have hroomv : rightRoom qv (addr + c) = rightRoom q (addr + c) := by
      rw [rightRoom, rightRoom, hout _ (Or.inr le_rfl), hsv.arenaEnd]
    obtain ⟨q', hq'⟩ := hedge.adjustRight_returns (e := prev + n) (by omega) (by
      show ((prev + n : ℕ) : ℤ) ≤ (addr + c : ℕ) + rightRoom qv (addr + c)
      rw [hroomv]
      have hd := hdown.2
      push_cast
      omega)
    exact ⟨_, q', hmove.trans hq', by omega⟩
  · -- elsewhere
    rw [if_neg hdown]
    refine h₀.moveAway_finds hS hbase hused hsent hn hlt hgrow hold ?_
    rcases hroom with hle | ⟨prev', hblock, hadj, hfree, hle⟩ | ⟨b, hb⟩
    · omega
    · have hSp' := h.isBlock_iff.mp hblock
      have hpos := h.blocks.tiling.pos hSp
      have hpos' := h.blocks.tiling.pos hSp'
      have hsame : prev' = prev := by
        rcases Nat.lt_trichotomy prev' prev with hlt' | heq' | hgt
        · have hgap : prev' + blockSize (q.mem prev') ≤ prev := h.blocks.tiling.gap hSp' hSp hlt'
          omega
        · exact heq'
        · have hgap : prev + blockSize (q.mem prev) ≤ prev' := h.blocks.tiling.gap hSp hSp' hgt
          omega
      subst hsame
      have hf : 0 ≤ q.mem prev' := by rwa [blockFree, decide_eq_true_eq] at hfree
      have hword := h.blocks.free_eq h.geometry.space hSp' hf
      exact absurd ⟨hfree, by omega⟩ hdown
    · exact ⟨b, hb.isBlock, hb.free, hb.size⟩

/-! ### Runs -/

/-- **In every run that meets `Enters`** `st_realloc` of a live block returns a block whenever there
    is room for one. -/
theorem realloc_finds (h : Heap) (hr : Reachable Enters h) (a newsize oldsize : ℕ)
    (hlive : (a, oldsize) ∈ h.live) (hroom : HasRoom h.q (a - 1) (roundedWords newsize)) :
    ReallocFinds h.q a newsize oldsize := by
  obtain ⟨S, hl⟩ := hr.ledger
  obtain ⟨hlo, hS, -, -⟩ := hl.block _ hlive
  obtain ⟨hsize, hused⟩ := hl.size hlive
  have hfinds := hl.inv.realloc_spares hS (by omega) hused (hl.used_base hlive) hsize hroom
  rwa [Nat.sub_add_cancel (by omega)] at hfinds

/-- A heap of two buckets in which a block of one word grows to three. -/
theorem realloc_finds_right :
    ∃ h, Reachable Enters h ∧ (2, 0) ∈ h.live ∧ ReallocFinds h.q 2 8 0 := by
  have heval : ((stCtor (fun _ => 0) (fun _ => 0) (fun _ => 0) (2 ^ 1) 16 0).bind fun q =>
      (Heap.call ⟨q, []⟩ (.alloc 0)).map fun h =>
        (h.live, blockSize (h.q.mem 1), rightRoom h.q 2)) = some ([(2, 0)], 1, 14) := by
    decide +kernel
  obtain ⟨q, hq, hmap⟩ := Option.bind_eq_some_iff.mp heval
  obtain ⟨h, hcall, hval⟩ := Option.map_eq_some_iff.mp hmap
  simp only [Prod.mk.injEq] at hval
  obtain ⟨hlive, hsize, hright⟩ := hval
  have hr : Reachable Enters h :=
    (Reachable.ctor (by norm_num) hq).call (c := .alloc 0) (by norm_num [Call.Legal])
      (by norm_num [Enters, blockWords]) hcall
  have hmem : (2, 0) ∈ h.live := hlive ▸ List.mem_cons_self
  refine ⟨h, hr, hmem, realloc_finds h hr 2 8 0 hmem (.inl ?_)⟩
  show ((roundedWords 8 : ℕ) : ℤ) ≤ blockSize (h.q.mem 1) + rightRoom h.q
    (1 + blockSize (h.q.mem 1))
  rw [hsize, hright]
  decide

/-- Two buckets of eight words: the first of three blocks is shrunk by two words, and the words at
    the end of the arena are allocated. -/
def staleRoom : Option Heap :=
  (stCtor (fun _ => 0) (fun _ => 0) (fun _ => 0) (2 ^ 1) 16 0).bind fun q =>
    Heap.run ⟨q, []⟩ [.alloc 36, .alloc 0, .alloc 0, .realloc 2 28 36, .alloc 8]

/-- **A free block is overlooked**: the two words at word 9 are not in the tables, and `st_realloc`
    finds no room for the block at word 12. -/
theorem realloc_overlooks :
    ¬ ∀ h, Reachable (fun _ _ => True) h → ∀ a newsize oldsize, (a, oldsize) ∈ h.live →
      newsize < 2 ^ 32 → HasRoom h.q (a - 1) (roundedWords newsize) →
      ReallocFinds h.q a newsize oldsize := by
  intro hall
  have heval : (staleRoom.map fun h => (h.live.contains (13, 0), [h.q.arenaBase, h.q.arenaEnd,
      blockSize (h.q.mem 0), blockSize (h.q.mem 1), blockSize (h.q.mem 9)], h.q.mem 9,
      (stRealloc h.q 13 4 0).map Prod.fst)) = some (true, [0, 16, 1, 8, 2], 2, some 0) := by
    decide +kernel
  obtain ⟨h, hh, hval⟩ := Option.map_eq_some_iff.mp heval
  obtain ⟨q, hq, hrun⟩ := Option.bind_eq_some_iff.mp hh
  simp only [List.cons.injEq, and_true, Prod.mk.injEq] at hval
  obtain ⟨hlive, ⟨hbase, hend, hs0, hs1, hs9⟩, hm9, hres⟩ := hval
  -- the block at word 9
  have hb0 : IsBlock h.q 0 := by
    unfold IsBlock
    rw [hbase]
    exact BlockAt.start (by omega)
  have hb1 : IsBlock h.q (0 + blockSize (h.q.mem 0)) := BlockAt.next hb0 (by omega)
  rw [hs0, Nat.zero_add] at hb1
  have hb9 : IsBlock h.q (1 + blockSize (h.q.mem 1)) := BlockAt.next hb1 (by omega)
  rw [hs1] at hb9
  have hfree : FreeBlock h.q (roundedWords 4) 9 := by
    refine ⟨hb9, ?_, hs9.ge⟩
    rw [hm9]
    rfl
  obtain ⟨r, q', hr, hpos⟩ := hall h ((Reachable.ctor (by norm_num) hq).run hrun) 13 4 0
    (List.contains_iff_mem.mp hlive) (by norm_num) (.inr (.inr ⟨9, hfree⟩))
  rw [hr] at hres
  have hzero : r = 0 := Option.some.inj hres
  omega

end CohKernel.StAlloc
