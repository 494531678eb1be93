import CohKernel.Fs.Defs
import CohKernel.Lib.Runs

namespace CohKernel.Fs

open CohKernel.Lib

/-!
# The free list

* `Chain` — the blocks that a part of the list leads to;
* `Listed` — the blocks on the list are apart from each other, inside the filesystem, and counted;
* `reachable_listed` — so it is in every run in which no part of the list is lost;
* `reachable_parted` — in the others they are not counted.
-/

variable {s s' : Fs} {b n : ℕ} {L : List ℕ}

/-! ### Stored parts -/

theorem dfNfree_fblk {nfree : ℤ} (h0 : 0 ≤ nfree) (hn : nfree ≤ NICFREE) (free : ℕ → ℕ) :
    dfNfree (fblk nfree free) = nfree := by
  unfold NICFREE at hn
  have hword : (fblk nfree free).word 0 = nfree.toNat := by
    refine word_eq_of_bytes (by omega) fun k hk => ?_
    unfold fblk
    rw [if_pos (by omega), Nat.zero_add]
  rw [dfNfree, hword, short_val]
  omega

/-- The numbers of a part that `bfree` has written are read back. -/
theorem canndaddr_dfFree {nfree : ℤ} {free : ℕ → ℕ} {i : ℕ} (hfree : free i < 2 ^ 32)
    (hi : (i : ℤ) < nfree) (hmax : nfree ≤ NICFREE) :
    canndaddr nfree (dfFree (fblk nfree free)) i = free i := by
  have hcan : canndaddr nfree free i = rol16 (free i) := if_pos hi
  have hlong : dfFree (fblk nfree free) i = canndaddr nfree free i := by
    unfold NICFREE at hmax
    refine long_eq_of_bytes (by rw [hcan]; exact rol16_lt _) fun k hk => ?_
    unfold fblk NICFREE
    rw [if_neg (by omega), if_pos (by omega), show (2 + 4 * i + k - 2) / 4 = i by omega,
      show (2 + 4 * i + k - 2) % 4 = k by omega]
  rw [canndaddr, if_pos hi, hlong, hcan, rol16_rol16 hfree]

/-! ### Chains -/

/-- The numbers from position 1 to `n`, the last one first. -/
def tops (free : ℕ → ℕ) : ℕ → List ℕ
  | 0 => []
  | n + 1 => free (n + 1) :: tops free n

/-- The blocks on the list whose current part has the `n` numbers `free`, in the order in which
    `balloc` takes them. -/
inductive Chain (blocks : ℕ → Bytes) : ℕ → (ℕ → ℕ) → List ℕ → Prop
  | empty (free : ℕ → ℕ) : Chain blocks 0 free []
  | last (n : ℕ) (free : ℕ → ℕ) : n < NICFREE → free 0 = 0 → Chain blocks (n + 1) free (tops free n)
  | link (n m : ℕ) (free free' : ℕ → ℕ) (L : List ℕ) : n < NICFREE → free 0 ≠ 0 →
      dfNfree (blocks (free 0)) = m →
      (∀ i < m, free' i = canndaddr m (dfFree (blocks (free 0))) i) → Chain blocks m free' L →
      Chain blocks (n + 1) free (tops free n ++ free 0 :: L)

variable {blocks : ℕ → Bytes} {free free' : ℕ → ℕ}

theorem tops_congr (h : ∀ i, i ≤ n → free' i = free i) : tops free' n = tops free n := by
  induction n with
  | zero => rfl
  | succ n ih =>
    rw [tops, tops, h (n + 1) le_rfl, ih fun i hi => h i (by omega)]

theorem Chain.congr (h : Chain blocks n free L) (heq : ∀ i < n, free' i = free i) :
    Chain blocks n free' L := by
  cases h with
  | empty => exact Chain.empty free'
  | last n free hn h0 =>
    rw [← tops_congr fun i hi => heq i (by omega)]
    exact Chain.last n free' hn (by rw [heq 0 (by omega), h0])
  | link n m free free₁ L hn h0 hm hread hL =>
    rw [← tops_congr fun i hi => heq i (by omega), ← heq 0 (by omega)]
    rw [← heq 0 (by omega)] at h0 hm hread
    exact Chain.link n m free' free₁ L hn h0 hm hread hL

theorem Chain.le (h : Chain blocks n free L) : n ≤ NICFREE := by
  cases h with
  | empty => exact Nat.zero_le _
  | last n free hn => exact hn
  | link n m free free₁ L hn => exact hn

/-- What is not on the list can be changed. -/
theorem Chain.frame (h : Chain blocks n free L) {b : ℕ} (hb : b ∉ L) (blk : Bytes) :
    Chain (Function.update blocks b blk) n free L := by
  induction h with
  | empty free => exact Chain.empty free
  | last n free hn h0 => exact Chain.last n free hn h0
  | link n m free free' L hn h0 hm hread _ ih =>
    rw [List.mem_append, List.mem_cons, not_or, not_or] at hb
    have hblk : Function.update blocks b blk (free 0) = blocks (free 0) :=
      Function.update_of_ne (Ne.symm hb.2.1) blk blocks
    refine Chain.link n m free free' L hn h0 ?_ ?_ (ih hb.2.2)
    · rw [hblk]
      exact hm
    · rw [hblk]
      exact hread

/-- A part with one number more. -/
theorem Chain.push (h : Chain blocks n free L) (hpos : 0 < n) (hn : n < NICFREE) (b : ℕ) :
    Chain blocks (n + 1) (Function.update free n b) (b :: L) := by
  have heq : ∀ i < n, Function.update free n b i = free i :=
    fun i hi => Function.update_of_ne (by omega) b free
  have h' := h.congr heq
  have htop : Function.update free n b n = b := Function.update_self n b free
  cases h' with
  | empty => omega
  | last n _ _ h0 =>
    have hchain := @Chain.last blocks (n + 1) (Function.update free (n + 1) b) hn h0
    rw [tops, htop] at hchain
    exact hchain
  | link n m _ free₁ L _ h0 hm hread hL =>
    have hchain := Chain.link (n + 1) m (Function.update free (n + 1) b) free₁ L hn h0 hm hread hL
    rw [tops, htop] at hchain
    exact hchain

/-- A part with one number less. -/
theorem Chain.pop (h : Chain blocks (n + 1) free L) (hpos : 0 < n) :
    ∃ L', L = free n :: L' ∧ Chain blocks n free L' := by
  obtain ⟨k, rfl⟩ : ∃ k, n = k + 1 := ⟨n - 1, by omega⟩
  cases h with
  | last _ _ hn h0 => exact ⟨tops free k, rfl, Chain.last k free (by omega) h0⟩
  | link _ m _ free' L hn h0 hm hread hL =>
    exact ⟨tops free k ++ free 0 :: L, rfl, Chain.link k m free free' L (by omega) h0 hm hread hL⟩

/-! ### Sorted insertion -/

theorem daddrAdd_perm (list : List ℕ) {b b' : ℕ} {list' : List ℕ} (hb : b ∉ list)
    (h : daddrAdd list b = (list', b')) : (b' :: list').Perm (b :: list) := by
  induction list generalizing list' b' with
  | nil =>
    cases h
    exact List.Perm.refl _
  | cons d list ih =>
    rw [List.mem_cons, not_or] at hb
    unfold daddrAdd at h
    rw [if_neg hb.1] at h
    by_cases hgt : b > d
    · rw [if_pos hgt] at h
      cases h
      -- the last number moves to the front
      refine (List.Perm.swap _ _ _).trans (List.Perm.cons b ?_)
      have hsplit := List.dropLast_append_getLast (List.cons_ne_nil d list)
      conv_rhs => rw [← hsplit]
      exact List.perm_append_singleton _ _ |>.symm
    · rw [if_neg hgt] at h
      cases hrest : daddrAdd list b with
      | mk l r =>
        rw [hrest] at h
        cases h
        exact (List.Perm.swap _ _ _).trans
          (((ih hb.2 hrest).cons d).trans (List.Perm.swap _ _ _))

theorem daddrAdd_length (list : List ℕ) (b : ℕ) : (daddrAdd list b).1.length = list.length := by
  induction list with
  | nil => rfl
  | cons d list ih =>
    unfold daddrAdd
    split_ifs
    · rfl
    · simp
    · simp [ih]

/-! ### The list of a filesystem -/

/-- The list of the filesystem has the blocks `L`. -/
def Lists (s : Fs) (L : List ℕ) : Prop :=
  ∃ n : ℕ, s.super.sNfree = n ∧ Chain s.blocks n s.super.sFree L

/-- The blocks `L` are on the list, apart from each other and inside the filesystem, and nobody has
    left the gate locked. -/
structure Listed (s : Fs) (L : List ℕ) : Prop where
  chain : Lists s L
  nodup : L.Nodup
  inside : ∀ b ∈ L, s.super.inside b
  isize : 0 < s.super.sIsize
  gate : s.gate = false

/-- A call changes no limit of the filesystem. -/
structure SameLimits (s s' : Fs) : Prop where
  isize : s'.super.sIsize = s.super.sIsize
  fsize : s'.super.sFsize = s.super.sFsize

theorem SameLimits.refl (s : Fs) : SameLimits s s := ⟨rfl, rfl⟩

theorem SameLimits.inside (h : SameLimits s s') : s'.super.inside b ↔ s.super.inside b := by
  rw [Filsys.inside, Filsys.inside, h.isize, h.fsize]

theorem Listed.pos (h : Listed s L) (hb : b ∈ L) : b ≠ 0 := by
  have := h.inside b hb
  have := h.isize
  unfold Filsys.inside at *
  omega

theorem mem_tops {i : ℕ} (h0 : 0 < i) (hi : i ≤ n) : free i ∈ tops free n := by
  induction n with
  | zero => omega
  | succ n ih =>
    rcases Nat.lt_or_ge n i with hlt | hge
    · rw [show i = n + 1 by omega]
      exact List.mem_cons_self
    · exact List.mem_cons_of_mem _ (ih hge)

/-- The numbers of the super block are on the list, but for the zero at its end. -/
theorem Chain.mem (h : Chain blocks n free L) {i : ℕ} (hi : i < n) :
    free i ∈ L ∨ i = 0 ∧ free 0 = 0 := by
  cases h with
  | empty => omega
  | last n free hn h0 =>
    rcases Nat.eq_zero_or_pos i with rfl | hpos
    · exact Or.inr ⟨rfl, h0⟩
    · exact Or.inl (mem_tops hpos (by omega))
  | link n m free free' L hn h0 hm hread hL =>
    left
    rcases Nat.eq_zero_or_pos i with rfl | hpos
    · exact List.mem_append_right _ List.mem_cons_self
    · exact List.mem_append_left _ (mem_tops hpos (by omega))

theorem enospc_listed (h : Listed s L) :
    Listed s.enospc.2 [] ∧ s.enospc.1 = 0 ∧ s.enospc.2.super.sTfree = s.super.sTfree ∧
      s.enospc.2.blocks = s.blocks ∧ SameLimits s s.enospc.2 :=
  ⟨⟨⟨0, rfl, Chain.empty _⟩, List.nodup_nil, fun b hb => (by cases hb), h.isize, h.gate⟩, rfl, rfl,
    rfl, rfl, rfl⟩

/-- What `balloc` can do: hand out the first block of the list, or find the list empty, or lose
    it. -/
inductive Balloc (s : Fs) (readable : Bool) (L : List ℕ) : ℕ × Fs → Prop
  | given (b : ℕ) (L' : List ℕ) (s' : Fs) : L = b :: L' → Listed s' L' →
      s'.super.sTfree = s.super.sTfree - 1 → s'.blocks = s.blocks → SameLimits s s' →
      Balloc s readable L (b, s')
  | full (s' : Fs) : L = [] → Listed s' [] → s'.super.sTfree = s.super.sTfree →
      s'.blocks = s.blocks → SameLimits s s' → Balloc s readable L (0, s')
  | lost (s' : Fs) : s.super.sNfree = 1 → s.super.sFree 0 ≠ 0 → readable = false → Listed s' [] →
      s'.super.sTfree = s.super.sTfree → s'.blocks = s.blocks → SameLimits s s' →
      Balloc s readable L (0, s')

/-- A block has been taken off the list: the end of `balloc` counts it. -/
theorem allocated_listed (h : Listed s L) (hb : s.super.inside b) :
    ∃ s', s.allocated b = (b, s') ∧ Listed s' L ∧ s'.super.sTfree = s.super.sTfree - 1 ∧
      s'.blocks = s.blocks ∧ SameLimits s s' :=
  ⟨_, if_pos hb, ⟨h.chain, h.nodup, h.inside, h.isize, h.gate⟩, rfl, rfl, rfl, rfl⟩

/-- **`balloc`** takes the first block off the list. -/
theorem Listed.balloc (h : Listed s L) (readable : Bool) : Balloc s readable L
    (s.balloc readable) := by
  obtain ⟨n, hn, hchain⟩ := h.chain
  have hle := hchain.le
  have hfull : L = [] → Balloc s readable L s.enospc := by
    intro hL
    obtain ⟨hl, -, ht, hb, hs⟩ := enospc_listed h
    exact Balloc.full _ hL hl ht hb hs
  unfold Fs.balloc
  cases n with
  | zero =>
    cases hchain
    rw [if_pos (Or.inl (by rw [hn]; rfl))]
    exact hfull rfl
  | succ k =>
    rw [if_neg (by rw [hn]; push_cast; omega)]
    have hk : (s.super.sNfree - 1).toNat = k := by omega
    simp only [hk]
    rcases Nat.eq_zero_or_pos k with rfl | hpos
    · cases hchain with
      | last _ _ _ h0 =>
        rw [if_pos h0]
        exact hfull rfl
      | link _ m _ free' L' _ h0 hm hread hL' =>
        rw [if_neg h0, if_pos (by simp [Fs.withSuper, hn])]
        -- the next part of the list is in the block itself
        have hin : s.super.inside (s.super.sFree 0) := h.inside _ List.mem_cons_self
        unfold Fs.refill
        cases readable with
        | false =>
          rw [if_neg fun hc => Bool.false_ne_true hc.2]
          exact Balloc.lost _ (by rw [hn]; rfl) h0 rfl
            ⟨⟨0, rfl, Chain.empty _⟩, List.nodup_nil, fun b hb => (by cases hb), h.isize, h.gate⟩
            rfl rfl ⟨rfl, rfl⟩
        | true =>
          have hmax := hL'.le
          rw [if_pos ⟨hin, rfl⟩]
          simp only [Fs.withSuper, hm]
          rw [if_neg (by omega)]
          have hl : Listed { s with super := { s.super with
              sNfree := m, sFree := canndaddr m (dfFree (s.blocks (s.super.sFree 0))) } } L' :=
            ⟨⟨m, rfl, hL'.congr fun i hi => (hread i hi).symm⟩, (List.nodup_cons.mp h.nodup).2,
              fun b hb => h.inside b (List.mem_cons_of_mem _ hb), h.isize, h.gate⟩
          obtain ⟨s', hs', hl', ht, hblk, hlim⟩ := allocated_listed hl (b := s.super.sFree 0) hin
          rw [hs']
          exact Balloc.given _ L' s' rfl hl' ht hblk ⟨hlim.isize, hlim.fsize⟩
    · obtain ⟨L', rfl, hL'⟩ := hchain.pop hpos
      have hb : s.super.sFree k ≠ 0 := h.pos List.mem_cons_self
      rw [if_neg hb, if_neg (by simp only [Fs.withSuper, hn]; push_cast; omega)]
      have hl : Listed (s.withSuper fun sb =>
          { sb with sNfree := sb.sNfree - 1, sFree := Function.update sb.sFree k 0 }) L' := by
        refine ⟨⟨k, ?_, hL'.congr fun i hi => Function.update_of_ne (by omega) _ _⟩,
          (List.nodup_cons.mp h.nodup).2, fun b hb => h.inside b (List.mem_cons_of_mem _ hb),
          h.isize, h.gate⟩
        simp only [Fs.withSuper, hn]
        push_cast
        omega
      obtain ⟨s', hs', hl', ht, hblk, hlim⟩ :=
        allocated_listed hl (b := s.super.sFree k) (h.inside _ List.mem_cons_self)
      rw [hs']
      exact Balloc.given _ L' s' rfl hl' ht hblk ⟨hlim.isize, hlim.fsize⟩

/-! ### Freeing -/

/-- The rest of `bfree` puts the block on the list. -/
theorem freed_listed (h : Listed s L) (hb : s.super.inside b) (hnot : b ∉ L) :
    Listed (s.freed b) (b :: L) ∧ (s.freed b).super.sTfree = s.super.sTfree + 1 ∧
      (∀ x, x ≠ b → (s.freed b).blocks x = s.blocks x) ∧ SameLimits s (s.freed b) := by
  obtain ⟨n, hn, hchain⟩ := h.chain
  have hle := hchain.le
  have hmem := fun i (hi : i < n) => hchain.mem hi
  have hb0 : b ≠ 0 := by
    have := h.isize
    unfold Filsys.inside at hb
    omega
  have hinside : ∀ x ∈ b :: L, s.super.inside x := by
    intro x hx
    rcases List.mem_cons.mp hx with rfl | hx
    · exact hb
    · exact h.inside x hx
  unfold Fs.freed
  by_cases hspill : s.super.sNfree = 0 ∨ s.super.sNfree = NICFREE
  · -- the numbers go into the block, and the block is the new part
    rw [if_pos hspill]
    refine ⟨⟨⟨1, rfl, ?_⟩, List.nodup_cons.mpr ⟨hnot, h.nodup⟩, hinside, h.isize, h.gate⟩, rfl,
      fun x hx => Function.update_of_ne hx _ _, rfl, rfl⟩
    have hfirst : Function.update s.super.sFree 0 b 0 = b := Function.update_self _ _ _
    have hblk : Function.update s.blocks b (fblk s.super.sNfree s.super.sFree)
        (Function.update s.super.sFree 0 b 0) = fblk s.super.sNfree s.super.sFree := by
      rw [hfirst, Function.update_self]
    have hlink := @Chain.link (Function.update s.blocks b
        (fblk s.super.sNfree s.super.sFree)) 0 n (Function.update s.super.sFree 0 b) s.super.sFree L
      (by norm_num [NICFREE]) (by rw [hfirst]; exact hb0)
      (by rw [hblk, dfNfree_fblk (by omega) (by omega), hn])
      (fun i hi => by
        rw [hblk, ← hn, canndaddr_dfFree ?_ (by omega) (by omega)]
        rcases hmem i hi with hL | ⟨rfl, h0⟩
        · have := (h.inside _ hL).2
          have := s.super.sFsize_lt
          omega
        · rw [h0]
          norm_num)
      (hchain.frame hnot _)
    rw [hfirst] at hlink
    exact hlink
  · rw [if_neg hspill]
    have hpos : 0 < n := by
      by_contra hc
      exact hspill (Or.inl (by omega))
    have hlt : n < NICFREE := by
      rcases Nat.lt_or_ge n NICFREE with hlt | hge
      · exact hlt
      · exact absurd (Or.inr (by omega)) hspill
    refine ⟨⟨⟨n + 1, ?_, ?_⟩, List.nodup_cons.mpr ⟨hnot, h.nodup⟩, hinside, h.isize, h.gate⟩, rfl,
      fun _ _ => rfl, rfl, rfl⟩
    · simp only [Fs.withSuper, hn]
      push_cast
      rfl
    · simp only [Fs.withSuper, hn, Int.toNat_natCast]
      exact hchain.push hpos hlt b

theorem tops_eq (free : ℕ → ℕ) (n : ℕ) :
    tops free n = ((List.range n).map fun i => free (i + 1)).reverse := by
  induction n with
  | zero => rfl
  | succ n ih => rw [List.range_succ, List.map_append, List.reverse_append, ← ih]; rfl

/-- Other numbers from position 1 on. -/
theorem Chain.setTops (h : Chain blocks (n + 1) free L) (h0 : free' 0 = free 0) {b' : ℕ}
    (hperm : (b' :: tops free' n).Perm (b :: tops free n)) :
    ∃ L', Chain blocks (n + 1) free' L' ∧ (b' :: L').Perm (b :: L) := by
  cases h with
  | last _ _ hn hz => exact ⟨tops free' n, Chain.last n free' hn (by rw [h0, hz]), hperm⟩
  | link _ m _ free₁ L hn hz hm hread hL =>
    refine ⟨tops free' n ++ free' 0 :: L, ?_, ?_⟩
    · rw [← h0] at hz hm hread
      exact Chain.link n m free' free₁ L hn hz hm hread hL
    · rw [h0]
      exact hperm.append_right (free 0 :: L)

theorem setUpper_tops (sb : Filsys) {list : List ℕ} (hlen : list.length = (sb.sNfree - 1).toNat) :
    tops (sb.setUpper list).sFree (sb.sNfree - 1).toNat = list.reverse := by
  rw [tops_eq]
  refine congrArg List.reverse (List.ext_getElem (by simp [hlen]) fun i h1 h2 => ?_)
  simp [Filsys.setUpper, List.getElem?_eq_getElem h2]

/-- **`bfree`** puts the block on the list. -/
theorem Listed.bfree (h : Listed s L) (sortblocks : Bool) (hb : s.super.inside b) (hnot : b ∉ L) :
    ∃ L', L'.Perm (b :: L) ∧ Listed (s.bfree sortblocks b) L' ∧
      (s.bfree sortblocks b).super.sTfree = s.super.sTfree + 1 ∧
      (∀ x, x ∉ b :: L → (s.bfree sortblocks b).blocks x = s.blocks x) ∧
      SameLimits s (s.bfree sortblocks b) := by
  unfold Fs.bfree
  rw [if_pos hb]
  by_cases hsort : sortblocks = true ∧ s.super.sNfree > 0
  swap
  · rw [if_neg hsort]
    obtain ⟨hl, ht, hblk, hlim⟩ := freed_listed h hb hnot
    exact ⟨b :: L, List.Perm.refl _, hl, ht, fun x hx => hblk x fun hc =>
      hx (hc ▸ List.mem_cons_self),
      hlim⟩
  rw [if_pos hsort]
  obtain ⟨n, hn, hchain⟩ := h.chain
  obtain ⟨k, rfl⟩ : ∃ k, n = k + 1 := ⟨n - 1, by omega⟩
  have hk : (s.super.sNfree - 1).toNat = k := by omega
  have htops : tops s.super.sFree k = s.super.upper.reverse := by
    rw [tops_eq, Filsys.upper, hk]
  have hupper : ∀ x ∈ s.super.upper, x ∈ L := by
    intro x hx
    rw [← List.mem_reverse, ← htops] at hx
    cases hchain with
    | last => exact hx
    | link => exact List.mem_append_left _ hx
  cases hadd : daddrAdd s.super.upper b with
  | mk list newblk =>
    have hperm := daddrAdd_perm s.super.upper (fun hc => hnot (hupper b hc)) hadd
    have hlen : list.length = (s.super.sNfree - 1).toNat := by
      have := daddrAdd_length s.super.upper b
      rw [hadd] at this
      rw [this, Filsys.upper, List.length_map, List.length_range]
    -- the number that is returned is the new one or one of the list
    have hnew : newblk = b ∨ newblk ∈ s.super.upper :=
      List.mem_cons.mp (hperm.subset List.mem_cons_self)
    have hinside : s.super.inside newblk := by
      rcases hnew with rfl | hnew
      · exact hb
      · exact h.inside _ (hupper _ hnew)
    have hne : newblk ≠ 0 := by
      have := h.isize
      unfold Filsys.inside at hinside
      omega
    simp only [hne, if_false]
    obtain ⟨L₁, hL₁, hp₁⟩ := @Chain.setTops b _ _ _ _
      (s.super.setUpper list).sFree hchain rfl newblk (by
        rw [htops, ← hk, setUpper_tops s.super hlen]
        exact ((List.reverse_perm list).cons _).trans
          (hperm.trans ((List.reverse_perm _).symm.cons _)))
    have hnodup : (newblk :: L₁).Nodup := hp₁.nodup_iff.mpr (List.nodup_cons.mpr ⟨hnot, h.nodup⟩)
    obtain ⟨hnot₁, hnd₁⟩ := List.nodup_cons.mp hnodup
    have hl₁ : Listed (s.withSuper fun sb => sb.setUpper list) L₁ := by
      refine ⟨⟨k + 1, hn, hL₁⟩, hnd₁, fun x hx => ?_, h.isize, h.gate⟩
      rcases List.mem_cons.mp (hp₁.subset (List.mem_cons_of_mem _ hx)) with rfl | hx
      · exact hb
      · exact h.inside x hx
    obtain ⟨hl, ht, hblk, hlim⟩ := freed_listed hl₁ (b := newblk) hinside hnot₁
    exact ⟨newblk :: L₁, hp₁, hl, ht,
      fun x hx => hblk x fun hc => hx (hp₁.subset (hc ▸ List.mem_cons_self)),
      ⟨hlim.isize, hlim.fsize⟩⟩

/-! ### Runs -/

/-- A mounted filesystem, and the blocks that are handed out. -/
structure Mounted where
  fs : Fs
  out : ℕ → Bool

/-- A call of `balloc` or `bfree`.  `ment` is the result of `getment`, which looks for the mounted
    filesystem; `readable` says whether `balloc` can read a block of the list. -/
inductive Call where
  | balloc (ment readable : Bool)
  | bfree (ment sortblocks : Bool) (b : ℕ)

/-- The result of `balloc` is handed out. -/
def Mounted.handOut (s : Mounted) (r : ℕ × Fs) : Mounted :=
  { fs := r.2, out := if r.1 = 0 then s.out else Function.update s.out r.1 true }

/-- A call.  Blocks are freed by those that they have been handed out to; a call that finds the
    gate locked never returns. -/
def Mounted.step (s : Mounted) : Call → Option Mounted
  | .balloc ment readable =>
      if ment = false then some s
      else if s.fs.gate = true then none
      else some (s.handOut (s.fs.balloc readable))
  | .bfree ment sortblocks b =>
      if s.out b = false then none
      else if ment = false then some s
      else if s.fs.super.inside b ∧ s.fs.gate = true then none
      else some { fs := s.fs.bfree sortblocks b, out := Function.update s.out b false }

/-- The filesystem when it is mounted: its list is in order. -/
def Init (s : Mounted) : Prop :=
  ∃ L, Listed s.fs L ∧ s.fs.super.sTfree = L.length ∧ (∀ b ∈ L, s.out b = false) ∧
    ∀ b, s.out b = true → s.fs.super.inside b

/-- The next part of the list can be read when it is needed. -/
def Readable (s : Mounted) : Call → Prop
  | .balloc _ readable => s.fs.super.sNfree = 1 → s.fs.super.sFree 0 ≠ 0 → readable = true
  | .bfree _ _ _ => True

/-- The blocks on the list are not handed out. -/
structure Apart (s : Mounted) (L : List ℕ) : Prop where
  listed : Listed s.fs L
  free : ∀ b ∈ L, s.out b = false
  inside : ∀ b, s.out b = true → s.fs.super.inside b

variable {m m' : Mounted} {a : Call}

/-- **A call** keeps the list and what is handed out apart.  It keeps the count when the next part
    of the list can be read. -/
theorem Apart.step (h : Apart m L) (hstep : m.step a = some m') :
    ∃ L', Apart m' L' ∧
      (Readable m a → m'.fs.super.sTfree - L'.length = m.fs.super.sTfree - L.length) := by
  cases a with
  | balloc ment readable =>
    unfold Mounted.step at hstep
    simp only at hstep
    split_ifs at hstep with hment hgate
    · cases hstep
      exact ⟨L, h, fun _ => rfl⟩
    have hb := h.listed.balloc readable
    cases hstep
    revert hb
    generalize m.fs.balloc readable = r
    intro hb
    unfold Mounted.handOut
    cases hb with
    | given b L' fs' hL hl ht _ hlim =>
      subst hL
      have hne : b ≠ 0 := h.listed.pos List.mem_cons_self
      obtain ⟨hnot, -⟩ := List.nodup_cons.mp h.listed.nodup
      simp only [hne, if_false]
      refine ⟨L', ⟨hl, fun x hx => ?_, fun x hx => ?_⟩, fun _ => ?_⟩
      · have hxb : x ≠ b := by
          rintro rfl
          exact hnot hx
        simp only [Function.update_of_ne hxb]
        exact h.free x (List.mem_cons_of_mem _ hx)
      · rw [hlim.inside]
        by_cases hxb : x = b
        · rw [hxb]
          exact h.listed.inside b List.mem_cons_self
        · simp only [Function.update_of_ne hxb] at hx
          exact h.inside x hx
      · rw [ht, List.length_cons]
        push_cast
        ring
    | full fs' hL hl ht _ hlim =>
      subst hL
      exact ⟨[], ⟨hl, h.free, fun x hx => hlim.inside.mpr (h.inside x hx)⟩, fun _ => by rw [ht]⟩
    | lost fs' hn h0 hread hl ht _ hlim =>
      refine ⟨[], ⟨hl, fun b hb => (by cases hb), fun x hx => hlim.inside.mpr (h.inside x hx)⟩,
        fun hok => ?_⟩
      rw [hok hn h0] at hread
      cases hread
  | bfree ment sortblocks b =>
    unfold Mounted.step at hstep
    simp only at hstep
    split_ifs at hstep with hout hment hgate
    · cases hstep
      exact ⟨L, h, fun _ => rfl⟩
    rw [Bool.not_eq_false] at hout
    obtain ⟨L', hperm, hl, ht, -, hlim⟩ := h.listed.bfree sortblocks (h.inside b hout) fun hb => by
      rw [h.free b hb] at hout
      cases hout
    cases hstep
    refine ⟨L', ⟨hl, fun x hx => ?_, fun x hx => ?_⟩, fun _ => ?_⟩
    · simp only [Function.update_apply]
      split_ifs with hxb
      · rfl
      · exact h.free x ((List.mem_cons.mp (hperm.subset hx)).resolve_left hxb)
    · rw [hlim.inside]
      simp only [Function.update_apply] at hx
      split_ifs at hx
      exact h.inside x hx
    · rw [ht, hperm.length_eq, List.length_cons]
      push_cast
      ring

/-- **Free blocks are free.** In every run, also one with failing calls, the blocks on the list are
    apart from each other, inside the filesystem, and not handed out. -/
theorem reachable_parted (h : Reach Init Mounted.step (fun _ _ => True) m) : ∃ L, Apart m L := by
  have hinit : ∀ m : Mounted, Init m → ∃ L, Apart m L := by
    rintro m ⟨L, hl, -, hfree, hin⟩
    exact ⟨L, hl, hfree, hin⟩
  refine h.invariant hinit ?_
  rintro m a m' ⟨L, hl⟩ - hstep
  obtain ⟨L', hl', -⟩ := hl.step hstep
  exact ⟨L', hl'⟩

/-- **The free list.** In every run in which the next part of the list can be read when it is
    needed, the blocks on the list are apart from each other, inside the filesystem, counted by
    `s_tfree`, and not handed out. -/
theorem reachable_listed (h : Reach Init Mounted.step Readable m) :
    ∃ L, Lists m.fs L ∧ L.Nodup ∧ (∀ b ∈ L, m.fs.super.inside b) ∧
      m.fs.super.sTfree = L.length ∧ ∀ b ∈ L, m.out b = false := by
  have hinit : ∀ m : Mounted, Init m → ∃ L, Apart m L ∧ m.fs.super.sTfree - L.length = 0 := by
    rintro m ⟨L, hl, ht, hfree, hin⟩
    exact ⟨L, ⟨hl, hfree, hin⟩, by omega⟩
  have hinv : ∃ L, Apart m L ∧ m.fs.super.sTfree - L.length = 0 := by
    refine h.invariant hinit ?_
    rintro m a m' ⟨L, hl, ht⟩ hok hstep
    obtain ⟨L', hl', ht'⟩ := hl.step hstep
    exact ⟨L', hl', (ht' hok).trans ht⟩
  obtain ⟨L, hl, ht⟩ := hinv
  exact ⟨L, hl.listed.chain, hl.listed.nodup, hl.listed.inside, by omega, hl.free⟩

/-- A full filesystem: blocks 2 to 9 are handed out. -/
def fullFs : Mounted where
  fs :=
    { super := { sIsize := 2, sFsize := 10, sNfree := 0, sFree := fun _ => 0, sTfree := 0,
                 sFsize_lt := by norm_num }
      blocks := fun _ _ => 0
      gate := false }
  out := fun b => decide (2 ≤ b ∧ b < 10)

theorem fullFs_init : Init fullFs :=
  ⟨[], ⟨⟨0, rfl, Chain.empty _⟩, List.nodup_nil, fun b hb => (by cases hb), by decide, rfl⟩, rfl,
    fun b hb => (by cases hb), fun _ hb => of_decide_eq_true hb⟩

/-- The first block that is freed. -/
theorem reachable_listed_first : ∃ m, fullFs.step (.bfree true true 5) = some m ∧
    ∃ L, Lists m.fs L ∧ L.Nodup ∧ (∀ b ∈ L, m.fs.super.inside b) ∧
      m.fs.super.sTfree = L.length ∧ ∀ b ∈ L, m.out b = false := by
  have hsome : (fullFs.step (.bfree true true 5)).isSome = true := by decide +kernel
  obtain ⟨m, hm⟩ := Option.isSome_iff_exists.mp hsome
  have hok : Readable fullFs (.bfree true true 5) := trivial
  exact ⟨m, hm, reachable_listed ((Reach.init fullFs_init).step hok hm)⟩

/-- A call that fails. -/
theorem reachable_parted_lost : ∃ m, runFrom Mounted.step fullFs
    [.bfree true true 5, .balloc true false] = some m ∧ ∃ L, Apart m L := by
  have hsome : (runFrom Mounted.step fullFs [.bfree true true 5, .balloc true false]).isSome := by
    decide +kernel
  obtain ⟨m, hm⟩ := Option.isSome_iff_exists.mp hsome
  exact ⟨m, hm, reachable_parted ((Reach.init fullFs_init).run (fun _ _ => trivial) hm)⟩

/-- **A lost list.** The block with the next part cannot be read: the list is empty then, but still
    counted. -/
theorem unreadable_not_counted : ¬ ∀ m, Reach Init Mounted.step (fun _ _ => True) m →
    ∃ L, Lists m.fs L ∧ m.fs.super.sTfree = L.length := by
  intro hall
  have heval : (runFrom Mounted.step fullFs [.bfree true true 5, .balloc true false]).map
      (fun m => (m.fs.super.sNfree, m.fs.super.sTfree)) = some (0, 1) := by
    decide +kernel
  obtain ⟨m, hm, hval⟩ := Option.map_eq_some_iff.mp heval
  rw [Prod.mk.injEq] at hval
  obtain ⟨L, ⟨n, hn, hchain⟩, ht⟩ := hall m ((Reach.init fullFs_init).run (fun _ _ => trivial) hm)
  obtain rfl : n = 0 := by omega
  cases hchain
  rw [hval.2] at ht
  exact absurd ht (by decide)

end CohKernel.Fs
