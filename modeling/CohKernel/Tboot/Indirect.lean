import CohKernel.Fs.Layout
import CohKernel.Fs.Read

namespace CohKernel.Tboot

open CohKernel.Lib CohKernel.Fs

/-!
# The block map of the boot loader

`vmap` of `tboot/indirect.c`, beside `vmap` of the kernel.  The boot loader has a decomposition of
block numbers of its own: it chooses the level from bounds on the number, and takes the indices out
of the number by shifts.

* `vmap_eq_walk`, `vmap_gap` — the way that the boot loader takes;
* `agrees_iff` — where it gets to the block of the kernel.
-/

/-! ### Definitions -/

/-- `ind_index`: seven bits of the number. -/
def indIndex (indLevel : ℕ) (vblockno : ℤ) : ℕ := ((vblockno >>> (7 * (indLevel - 1))) % 128).toNat

/-- `ind_lookup`, in a table in disk order. -/
def indLookup (indLevel : ℕ) (indTable : Bytes) (vblockno : ℤ) : ℕ :=
  indTable.long (4 * indIndex indLevel vblockno)

/-- `indirect`.  It ends in a call of itself without `return`, which leaves the value of the call
    as its own. -/
def indirect (blocks : ℕ → Bytes) : ℕ → ℕ → ℤ → ℕ
  | 0, indTablePtr, _ => indTablePtr
  | indLevel + 1, indTablePtr, vblockno =>
      let nextPtr := indLookup (indLevel + 1) (blocks indTablePtr) vblockno
      indirect blocks indLevel (rol16 nextPtr) vblockno

/-- `vmap` of the boot loader. -/
def vmap (blocks : ℕ → Bytes) (addr : ℕ → ℕ) (vblockno : ℕ) : ℕ :=
  if vblockno < ND then addr vblockno
  else if vblockno < ND + NBN then indirect blocks 1 (addr ND) ((vblockno : ℤ) - ND)
  else if vblockno < ND + NBN * NBN then
    indirect blocks 2 (addr (ND + 1)) ((vblockno : ℤ) - (ND + NBN))
  else indirect blocks 3 (addr (ND + 2)) ((vblockno : ℤ) - (ND + NBN + NBN * NBN))

/-- The kernel and the boot loader get to the same block; the boot loader has zero for no block. -/
def Agrees (blocks : ℕ → Bytes) (addr : ℕ → ℕ) (lbn : ℕ) : Prop :=
  ∀ groupmode, Fs.vmap groupmode (fun _ => true) blocks addr 1 lbn 1 =
    some [blockEntry (vmap blocks addr lbn)]

/-! ### The way of the boot loader -/

/-- The block at the end of a path from a block on, also when the path leads through block zero. -/
def walk (blocks : ℕ → Bytes) : ℕ → List ℕ → ℕ
  | b, [] => b
  | b, i :: q => walk blocks (dp (blocks b) i) q

/-- The numbers of blocks that a test for double indirection without `NBN` takes for triple ones. -/
def Gap (lbn : ℕ) : Prop := ND + NBN ^ 2 ≤ lbn ∧ lbn < ND + NBN + NBN ^ 2

instance (lbn : ℕ) : Decidable (Gap lbn) := inferInstanceAs (Decidable (_ ∧ _))

variable {blocks : ℕ → Bytes} {addr : ℕ → ℕ} {lbn b i f : ℕ} {p q : List ℕ}

theorem indIndex_eq (level : ℕ) (v : ℤ) :
    indIndex level v = (v / 128 ^ (level - 1) % 128).toNat := by
  unfold indIndex
  rw [Int.shiftRight_eq_div_pow, pow_mul]
  norm_num

theorem indirect_one (v : ℤ) :
    indirect blocks 1 b v = walk blocks b [(v % 128).toNat] := by
  simp only [indirect, indLookup, indIndex_eq, walk, dp]
  norm_num

theorem indirect_two (v : ℤ) :
    indirect blocks 2 b v = walk blocks b [(v / 128 % 128).toNat, (v % 128).toNat] := by
  simp only [indirect, indLookup, indIndex_eq, walk, dp]
  norm_num

theorem indirect_three (v : ℤ) : indirect blocks 3 b v =
    walk blocks b [(v / 16384 % 128).toNat, (v / 128 % 128).toNat, (v % 128).toNat] := by
  simp only [indirect, indLookup, indIndex_eq, walk, dp]
  norm_num

/-- Outside of the gap the boot loader takes the path of `lmap`. -/
theorem vmap_eq_walk (h : blockPath lbn = some (i :: q)) (hgap : ¬Gap lbn) :
    vmap blocks addr lbn = walk blocks (addr i) q := by
  unfold blockPath at h
  unfold Gap ND NBN at hgap
  unfold vmap ND NBN
  rcases lmap_cases lbn with ⟨hlt, hl⟩ | ⟨n, hn, rfl, hl⟩ | ⟨n₁, n, hn, h₁, rfl, hl⟩ |
    ⟨n₂, n₁, n, hn, h₁, h₂, rfl, hl⟩ | ⟨-, hl⟩ <;> rw [hl] at h <;> cases h
  · rw [if_pos hlt]
    rfl
  · rw [if_neg (by omega), if_pos (by omega), indirect_one]
    congr 2
    push_cast
    omega
  · rw [if_neg (by omega), if_neg (by omega), if_pos (by omega), indirect_two]
    congr 2
    · push_cast
      omega
    · congr 1
      push_cast
      omega
  · rw [if_neg (by omega), if_neg (by omega), if_neg (by omega), indirect_three]
    congr 2
    · push_cast
      omega
    · congr 1
      · push_cast
        omega
      · congr 1
        push_cast
        omega

/-- In the gap the number that is left after the double indirect blocks is negative. -/
theorem vmap_gap {n : ℕ} (hn : n < 128) :
    vmap blocks addr (16394 + n) = walk blocks (addr 12) [127, 127, n] := by
  unfold vmap ND NBN
  rw [if_neg (by omega), if_neg (by omega), if_neg (by omega), indirect_three]
  congr 2
  · push_cast
    omega
  · congr 1
    · push_cast
      omega
    · congr 1
      push_cast
      omega

theorem agrees_eq (h : lbn < maxBlocks) :
    Agrees blocks addr lbn ↔
      blockEntry (phys blocks addr lbn) = blockEntry (vmap blocks addr lbn) := by
  have hk : ∀ g, Fs.vmap g (fun _ => true) blocks addr 1 lbn 1 =
      some [blockEntry (phys blocks addr lbn)] := by
    intro g
    obtain ⟨list, hlist, hpos, hle, hmaps⟩ := @vmap_spec _ blocks addr
      (fun _ => rfl) g 1 lbn 1 le_rfl Nat.one_pos h
    obtain ⟨e, rfl⟩ := List.length_eq_one_iff.mp (by omega : list.length = 1)
    rw [hlist]
    exact congrArg some (congrArg (fun e => [e]) (hmaps 0 Nat.one_pos))
  unfold Agrees
  constructor
  · intro hag
    have := (hk true).symm.trans (hag true)
    simpa using this
  · intro heq g
    rw [hk g, heq]

/-! ### Blocks on the way -/

/-- All blocks that a path leads through are there. -/
def Through (blocks : ℕ → Bytes) : ℕ → List ℕ → Prop
  | _, [] => True
  | b, i :: q => b ≠ 0 ∧ Through blocks (dp (blocks b) i) q

/-- All indirect blocks on the way to a block of the file are there. -/
def Mapped (blocks : ℕ → Bytes) (addr : ℕ → ℕ) (lbn : ℕ) : Prop :=
  ∃ i q, blockPath lbn = some (i :: q) ∧ Through blocks (addr i) q

/-- The disk has the same numbers of blocks on the way to a block of the file, and anything
    elsewhere. -/
def SameWay (blocks : ℕ → Bytes) (addr : ℕ → ℕ) (blocks' : ℕ → Bytes) (addr' : ℕ → ℕ) (lbn : ℕ) :
    Prop :=
  ∀ p q, blockPath lbn = some (p ++ q) → look blocks' addr' p = look blocks addr p

theorem walk_eq_follow (h : Through blocks b q) : walk blocks b q = follow blocks b q := by
  induction q generalizing b with
  | nil => rfl
  | cons i q ih =>
    rw [walk, follow, if_neg h.1]
    exact ih h.2

theorem blockPath_cons (h : lbn < maxBlocks) : ∃ i q, blockPath lbn = some (i :: q) := by
  obtain ⟨r, hr⟩ := lmap_isSome h
  have hp : blockPath lbn = some (r.1 ++ [r.2.1]) := by rw [blockPath, hr]; rfl
  cases hidx : r.1 with
  | nil => exact ⟨r.2.1, [], by rw [hp, hidx]; rfl⟩
  | cons i q => exact ⟨i, q ++ [r.2.1], by rw [hp, hidx]; rfl⟩

theorem phys_cons (h : blockPath lbn = some (i :: q)) :
    phys blocks addr lbn = follow blocks (addr i) q := by
  unfold phys
  rw [h]
  rfl

theorem length_blockPath (h : blockPath lbn = some p) : p.length ≤ 4 := by
  unfold blockPath at h
  rcases lmap_cases lbn with ⟨hlt, hl⟩ | ⟨n, hn, rfl, hl⟩ | ⟨n₁, n, hn, h₁, rfl, hl⟩ |
    ⟨n₂, n₁, n, hn, h₁, h₂, rfl, hl⟩ | ⟨-, hl⟩ <;> rw [hl] at h <;> cases h <;> simp

/-- Outside of the gap the boot loader finds the block of the kernel when it is not led through
    block zero. -/
theorem vmap_of_mapped (h : Mapped blocks addr lbn) (hgap : ¬Gap lbn) :
    vmap blocks addr lbn = phys blocks addr lbn := by
  obtain ⟨i, q, hp, hthrough⟩ := h
  rw [vmap_eq_walk hp hgap, walk_eq_follow hthrough, phys_cons hp]

theorem through_congr {blocks' : ℕ → Bytes} {b' : ℕ}
    (h : ∀ p r, q = p ++ r → follow blocks' b' p = follow blocks b p) (ht : Through blocks b q) :
    Through blocks' b' q := by
  induction q generalizing b b' with
  | nil => trivial
  | cons i q ih =>
    have hb : b' = b := h [] (i :: q) rfl
    subst hb
    refine ⟨ht.1, ih (fun p r hpr => ?_) ht.2⟩
    have := h (i :: p) r (by rw [hpr, List.cons_append])
    rwa [follow, follow, if_neg ht.1, if_neg ht.1] at this

theorem SameWay.mapped {blocks' : ℕ → Bytes} {addr' : ℕ → ℕ}
    (h : SameWay blocks addr blocks' addr' lbn) (hm : Mapped blocks addr lbn) :
    Mapped blocks' addr' lbn := by
  obtain ⟨i, q, hp, ht⟩ := hm
  refine ⟨i, q, hp, through_congr (fun p r hpr => ?_) ht⟩
  exact h (i :: p) r (by rw [hp, hpr, List.cons_append])

/-! ### Astray -/

/-- A block in which every address is `f`. -/
def fill (f : ℕ) : Bytes := fun i => byte (rol16 f / 256 ^ (i % 4))

theorem dp_fill (hf : f < 2 ^ 32) (i : ℕ) : dp (fill f) i = f := by
  have hlong : (fill f).long (4 * i) = rol16 f := by
    refine long_eq_of_bytes (rol16_lt f) fun k hk => ?_
    unfold fill
    rw [show (4 * i + k) % 4 = k by omega]
  unfold dp
  rw [hlong, rol16_rol16 hf]

/-- Block zero and block `f` lead to block `f`. -/
def astray (blocks : ℕ → Bytes) (f : ℕ) : ℕ → Bytes :=
  fun b => if b = 0 ∨ b = f then fill f else blocks b

theorem walk_astray_self (hf : f < 2 ^ 32) (q : List ℕ) : walk (astray blocks f) f q = f := by
  induction q with
  | nil => rfl
  | cons i q ih =>
    rw [walk, astray, if_pos (Or.inr rfl), dp_fill hf]
    exact ih

/-- A path that leads through block zero ends in block `f`. -/
theorem walk_astray (hf : f < 2 ^ 32) (hq : ∀ p r, q = p ++ r → follow blocks b p ≠ f)
    (h : ¬Through blocks b q) : walk (astray blocks f) b q = f := by
  induction q generalizing b with
  | nil => exact absurd trivial h
  | cons i q ih =>
    by_cases hb : b = 0
    · rw [walk, hb, astray, if_pos (Or.inl rfl), dp_fill hf]
      exact walk_astray_self hf q
    · have hbf : b ≠ f := hq [] (i :: q) rfl
      rw [walk, astray, if_neg (by simp [hb, hbf])]
      refine ih (fun p r hpr => ?_) fun ht => h ⟨hb, ht⟩
      have := hq (i :: p) r (by rw [hpr, List.cons_append])
      rwa [follow, if_neg hb] at this

/-- Paths of the kernel end at block zero. -/
theorem follow_astray (hq : ∀ p r, q = p ++ r → follow blocks b p ≠ f) :
    follow (astray blocks f) b q = follow blocks b q := by
  refine follow_congr fun q₁ q₂ hsplit _ h0 i => ?_
  rw [astray, if_neg (by simp [h0, hq q₁ q₂ hsplit])]

/-- There is a number that is not on the way to a block. -/
theorem exists_free (blocks : ℕ → Bytes) (addr : ℕ → ℕ) (h : blockPath lbn = some p) :
    ∃ f, f ≠ 0 ∧ f < 2 ^ 32 ∧ ∀ q r, p = q ++ r → look blocks addr q ≠ f := by
  let way := (p.inits.map (look blocks addr)).toFinset
  have hcard : way.card < (Finset.range 6).card := by
    have h1 : way.card ≤ (p.inits.map (look blocks addr)).length := List.toFinset_card_le _
    rw [List.length_map, List.length_inits] at h1
    have h2 := length_blockPath h
    rw [Finset.card_range]
    omega
  obtain ⟨f, hf, hnot⟩ := Finset.exists_mem_notMem_of_card_lt_card hcard
  have hnot' : ∀ q r, p = q ++ r → look blocks addr q ≠ f := by
    intro q r hpr heq
    refine hnot (List.mem_toFinset.mpr (List.mem_map.mpr ⟨q, ?_, heq⟩))
    exact (List.mem_inits q p).mpr ⟨r, hpr.symm⟩
  refine ⟨f, fun h0 => hnot' [] p rfl h0.symm, ?_, hnot'⟩
  have := Finset.mem_range.mp hf
  omega

theorem blockEntry_ne {c : ℕ} (hf : f ≠ 0) (hc : c ≠ f) : blockEntry c ≠ blockEntry f := by
  unfold blockEntry
  rw [if_neg hf]
  split_ifs
  · exact Option.some_ne_none f ∘ Eq.symm
  · exact fun h => hc (Option.some.inj h)

/-- **The block map of the boot loader.**  For a block of a file of any length, the boot loader
    gets to the block of the kernel, whatever else is on the disk, if and only if all indirect
    blocks on the way are there and the number of the block is not one of the last 128 that have
    double indirection. -/
theorem agrees_iff (h : lbn < maxBlocks) (blocks : ℕ → Bytes) (addr : ℕ → ℕ) :
    (∀ blocks' addr', SameWay blocks addr blocks' addr' lbn → Agrees blocks' addr' lbn) ↔
      Mapped blocks addr lbn ∧ ¬Gap lbn := by
  constructor
  · intro hall
    obtain ⟨i, q, hp⟩ := blockPath_cons h
    obtain ⟨f, hf, hlt, hfree⟩ := exists_free blocks addr hp
    have hfree' : ∀ p r, q = p ++ r → follow blocks (addr i) p ≠ f := fun p r hpr =>
      hfree (i :: p) r (by rw [hpr, List.cons_append])
    have hway : ∀ addr', addr' i = addr i → SameWay blocks addr (astray blocks f) addr' lbn := by
      intro addr' hi p r hpr
      rw [hp] at hpr
      cases p with
      | nil => rfl
      | cons j p =>
        rw [Option.some.injEq, List.cons_append, List.cons.injEq] at hpr
        obtain ⟨rfl, rfl⟩ := hpr
        rw [look, look, hi]
        exact follow_astray fun p' r' hsplit => hfree' p' (r' ++ r)
          (by rw [hsplit, List.append_assoc])
    -- the kernel finds another block than `f`
    have hne : ∀ addr', addr' i = addr i → vmap (astray blocks f) addr' lbn = f → False := by
      intro addr' hi hv
      have hag := (agrees_eq h).mp (hall _ addr' (hway addr' hi))
      rw [hv, phys_cons hp, hi, follow_astray hfree'] at hag
      exact blockEntry_ne hf (hfree' q [] (List.append_nil q).symm) hag
    have hgap : ¬Gap lbn := by
      intro hg
      unfold Gap ND NBN at hg
      obtain ⟨n, rfl⟩ := Nat.exists_eq_add_of_le (show 16394 ≤ lbn by omega)
      have hroot : i = 11 := by
        have hdouble := @lmap_double 127 n (by omega) (by omega)
        rw [show 138 + 128 * 127 + n = 16394 + n by omega] at hdouble
        rw [blockPath, hdouble] at hp
        cases hp
        rfl
      refine hne (Function.update addr 12 f) (Function.update_of_ne (by omega) _ _) ?_
      rw [vmap_gap (by omega), Function.update_self]
      exact walk_astray_self hlt _
    refine ⟨?_, hgap⟩
    by_contra hm
    refine hne addr rfl ?_
    rw [vmap_eq_walk hp hgap]
    exact walk_astray hlt hfree' fun ht => hm ⟨i, q, hp, ht⟩
  · rintro ⟨hm, hgap⟩ blocks' addr' hway
    rw [agrees_eq h, vmap_of_mapped (hway.mapped hm) hgap]

/-- A direct block. -/
theorem agrees_iff_direct :
    0 < maxBlocks ∧ ((∀ blocks' addr', SameWay (fun _ _ => 0) (fun _ => 5) blocks' addr' 0 →
      Agrees blocks' addr' 0) ↔ Mapped (fun _ _ => 0) (fun _ => 5) 0 ∧ ¬Gap 0) :=
  ⟨by decide, agrees_iff (by decide) _ _⟩

/-- A file of 16395 blocks: the indirect blocks that lead to the last one are block 20 and
    block 21, and the boot loader reads block 30. -/
theorem gap_astray : ¬∀ blocks addr lbn, lbn < maxBlocks → Agrees blocks addr lbn := by
  intro hall
  have h := (agrees_eq (by decide)).mp (hall
    (fun b => if b = 20 then fill 21 else if b = 21 then fill 22 else fill 30)
    (fun i => if i = 11 then 20 else if i = 12 then 30 else 5) 16394 (by decide))
  exact absurd h (by decide +kernel)

end CohKernel.Tboot
