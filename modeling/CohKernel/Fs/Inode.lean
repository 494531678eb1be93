import CohKernel.Fs.Defs

namespace CohKernel.Fs

open CohKernel.Lib

/-!
# Blocks of a file

An inode has the addresses of ten blocks of its file and of three indirect blocks.  A path is the
list of the indices that lead from the inode to a block; `lmap` turns the number of a block in the
file into the path to it.

* `lmap_add` — the blocks that `lmap` counts have paths that differ in the last index;
* `lmap_path`, `lmap_inj` — the paths of the blocks of a file;
* `fileByte` — the contents of a file.
-/

/-- Direct addresses of an inode, addresses of an indirect block, addresses of an inode. -/
def ND : ℕ := 10
def NBN : ℕ := 128
def NADDR : ℕ := 13

/-- The type of a file; `other` is none that has blocks. -/
inductive Mode where
  | IFREG
  | IFDIR
  | IFPIPE
  | other
deriving DecidableEq

/-- `struct inode`.  The addresses of a pipe are the first `ND`; in place of the rest it has its
    counts. -/
structure Inode where
  iMode : Mode
  iSize : ℕ
  iAddr : ℕ → ℕ
  iPnc : ℕ
  iPrx : ℕ
  iPwx : ℕ
  iLastblock : ℤ

/-- An address of an indirect block. -/
def dp (blk : Bytes) (i : ℕ) : ℕ := rol16 (blk.long (4 * i))

/-- `lmap`: the indices that lead to the table of a block, from the inode on, the index in that
    table, and the number of blocks from there to its end.  `none` stands for `EFBIG`. -/
def lmap (blockofs : ℕ) : Option (List ℕ × ℕ × ℕ) :=
  if blockofs < ND then some ([], blockofs, ND - blockofs)
  else
    let blockofs := blockofs - ND
    let n := blockofs % NBN
    let blockofs := blockofs / NBN
    if blockofs = 0 then some ([ND], n, NBN - n)
    else
      let blockofs := blockofs - 1
      let n₁ := blockofs % NBN
      let blockofs := blockofs / NBN
      if blockofs = 0 then some ([ND + 1, n₁], n, NBN - n)
      else
        let blockofs := blockofs - 1
        let n₂ := blockofs % NBN
        let blockofs := blockofs / NBN
        if blockofs = 0 then some ([ND + 2, n₂, n₁], n, NBN - n) else none

/-- The number of blocks that a file can have. -/
def maxBlocks : ℕ := ND + NBN + NBN ^ 2 + NBN ^ 3

/-! ### Paths -/

/-- The number of indices on the path from an inode to a block of the file. -/
def depth (root : ℕ) : ℕ := if root < ND then 1 else root - 8

/-- A path from an inode to one of its blocks. -/
structure Path (p : List ℕ) : Prop where
  length : 0 < p.length ∧ p.length ≤ depth (p.headD 0)
  root : p.headD 0 < NADDR
  tail : ∀ i ∈ p.tail, i < NBN

theorem lmap_direct {lbn : ℕ} (h : lbn < ND) : lmap lbn = some ([], lbn, ND - lbn) := if_pos h

/-- The cases of `lmap`. -/
theorem lmap_cases (lbn : ℕ) :
    lbn < 10 ∧ lmap lbn = some ([], lbn, 10 - lbn) ∨
    (∃ n, n < 128 ∧ lbn = 10 + n ∧ lmap lbn = some ([10], n, 128 - n)) ∨
    (∃ n₁ n, n < 128 ∧ n₁ < 128 ∧ lbn = 138 + 128 * n₁ + n ∧ lmap lbn = some ([11, n₁], n, 128 - n))
      ∨
    (∃ n₂ n₁ n, n < 128 ∧ n₁ < 128 ∧ n₂ < 128 ∧ lbn = 16522 + 16384 * n₂ + 128 * n₁ + n ∧
      lmap lbn = some ([12, n₂, n₁], n, 128 - n)) ∨
    maxBlocks ≤ lbn ∧ lmap lbn = none := by
  unfold lmap maxBlocks ND NBN
  by_cases h0 : lbn < 10
  · exact Or.inl ⟨h0, if_pos h0⟩
  rw [if_neg h0]
  simp only
  right
  by_cases h1 : (lbn - 10) / 128 = 0
  · rw [if_pos h1]
    exact Or.inl ⟨(lbn - 10) % 128, by omega, by omega, rfl⟩
  rw [if_neg h1]
  right
  by_cases h2 : ((lbn - 10) / 128 - 1) / 128 = 0
  · rw [if_pos h2]
    exact Or.inl ⟨((lbn - 10) / 128 - 1) % 128, (lbn - 10) % 128, by omega, by omega, by omega, rfl⟩
  rw [if_neg h2]
  right
  by_cases h3 : (((lbn - 10) / 128 - 1) / 128 - 1) / 128 = 0
  · rw [if_pos h3]
    exact Or.inl ⟨(((lbn - 10) / 128 - 1) / 128 - 1) % 128, ((lbn - 10) / 128 - 1) % 128,
      (lbn - 10) % 128, by omega, by omega, by omega, by omega, rfl⟩
  · rw [if_neg h3]
    exact Or.inr ⟨by omega, rfl⟩

theorem lmap_single {n : ℕ} (hn : n < 128) : lmap (10 + n) = some ([10], n, 128 - n) := by
  rcases lmap_cases (10 + n) with ⟨h, -⟩ | ⟨m, -, heq, hl⟩ | ⟨m₁, m, -, -, heq, -⟩ |
    ⟨m₂, m₁, m, -, -, -, heq, -⟩ | ⟨h, -⟩
  · omega
  · obtain rfl : n = m := by omega
    exact hl
  · omega
  · omega
  · unfold maxBlocks ND NBN at h
    omega

theorem lmap_double {n₁ n : ℕ} (hn : n < 128) (h₁ : n₁ < 128) :
    lmap (138 + 128 * n₁ + n) = some ([11, n₁], n, 128 - n) := by
  rcases lmap_cases (138 + 128 * n₁ + n) with ⟨h, -⟩ | ⟨m, hm, heq, -⟩ | ⟨m₁, m, hm, -, heq, hl⟩ |
    ⟨m₂, m₁, m, -, -, -, heq, -⟩ | ⟨h, -⟩
  · omega
  · omega
  · obtain ⟨rfl, rfl⟩ : n₁ = m₁ ∧ n = m := by omega
    exact hl
  · omega
  · unfold maxBlocks ND NBN at h
    omega

theorem lmap_triple {n₂ n₁ n : ℕ} (hn : n < 128) (h₁ : n₁ < 128) (h₂ : n₂ < 128) :
    lmap (16522 + 16384 * n₂ + 128 * n₁ + n) = some ([12, n₂, n₁], n, 128 - n) := by
  rcases lmap_cases (16522 + 16384 * n₂ + 128 * n₁ + n) with ⟨h, -⟩ | ⟨m, hm, heq, -⟩ |
    ⟨m₁, m, hm, hm₁, heq, -⟩ | ⟨m₂, m₁, m, hm, hm₁, -, heq, hl⟩ | ⟨h, -⟩
  · omega
  · omega
  · omega
  · obtain ⟨rfl, rfl, rfl⟩ : n₂ = m₂ ∧ n₁ = m₁ ∧ n = m := by omega
    exact hl
  · unfold maxBlocks ND NBN at h
    omega

theorem lmap_isSome {lbn : ℕ} (h : lbn < maxBlocks) : ∃ r, lmap lbn = some r := by
  rcases lmap_cases lbn with ⟨-, hl⟩ | ⟨n, -, -, hl⟩ | ⟨n₁, n, -, -, -, hl⟩ |
    ⟨n₂, n₁, n, -, -, -, -, hl⟩ |
    ⟨hge, -⟩
  · exact ⟨_, hl⟩
  · exact ⟨_, hl⟩
  · exact ⟨_, hl⟩
  · exact ⟨_, hl⟩
  · omega

theorem lmap_none {lbn : ℕ} (h : maxBlocks ≤ lbn) : lmap lbn = none := by
  rcases lmap_cases lbn with ⟨hlt, -⟩ | ⟨n, hn, rfl, -⟩ | ⟨n₁, n, hn, h₁, rfl, -⟩ |
    ⟨n₂, n₁, n, hn, h₁, h₂, rfl, -⟩ | ⟨-, hl⟩
  · unfold maxBlocks ND NBN at h
    omega
  · unfold maxBlocks ND NBN at h
    omega
  · unfold maxBlocks ND NBN at h
    omega
  · unfold maxBlocks ND NBN at h
    omega
  · exact hl

/-- The blocks that follow in the same table. -/
theorem lmap_add {lbn leaf nblocks k : ℕ} {idx : List ℕ} (h : lmap lbn = some (idx, leaf, nblocks))
    (hk : k < nblocks) : lmap (lbn + k) = some (idx, leaf + k, nblocks - k) := by
  rcases lmap_cases lbn with ⟨hlt, hl⟩ | ⟨n, hn, rfl, hl⟩ | ⟨n₁, n, hn, h₁, rfl, hl⟩ |
    ⟨n₂, n₁, n, hn, h₁, h₂, rfl, hl⟩ | ⟨-, hl⟩ <;> rw [hl] at h <;> cases h
  · rw [lmap_direct (by unfold ND; omega)]
    unfold ND
    rw [Nat.sub_sub]
  · rw [Nat.add_assoc, lmap_single (by omega), Nat.sub_sub]
  · rw [Nat.add_assoc, lmap_double (by omega) h₁, Nat.sub_sub]
  · rw [Nat.add_assoc, lmap_triple (by omega) h₁ h₂, Nat.sub_sub]

/-- The path to a block of a file. -/
def blockPath (lbn : ℕ) : Option (List ℕ) := (lmap lbn).map fun r => r.1 ++ [r.2.1]

/-- The path of a block is a path to a block, and no longer than it has to be. -/
theorem lmap_path {lbn : ℕ} {p : List ℕ} (h : blockPath lbn = some p) :
    Path p ∧ p.length = depth (p.headD 0) := by
  unfold blockPath at h
  rcases lmap_cases lbn with ⟨hlt, hl⟩ | ⟨n, hn, rfl, hl⟩ | ⟨n₁, n, hn, h₁, rfl, hl⟩ |
    ⟨n₂, n₁, n, hn, h₁, h₂, rfl, hl⟩ | ⟨-, hl⟩ <;> rw [hl] at h <;> cases h
  · have hd : depth lbn = 1 := if_pos (by unfold ND; exact hlt)
    exact ⟨⟨⟨by simp, by simp [hd]⟩, by simp [NADDR]; omega, by simp⟩, by simp [hd]⟩
  · exact ⟨⟨by simp [depth, ND], by simp [NADDR], by simpa [NBN] using hn⟩, by simp [depth, ND]⟩
  · exact ⟨⟨by simp [depth, ND], by simp [NADDR], by simpa [NBN] using ⟨h₁, hn⟩⟩,
      by simp [depth, ND]⟩
  · exact ⟨⟨by simp [depth, ND], by simp [NADDR], by simpa [NBN] using ⟨h₂, h₁, hn⟩⟩,
      by simp [depth, ND]⟩

/-- Different blocks have different paths. -/
theorem lmap_inj {lbn lbn' : ℕ} {p : List ℕ} (h : blockPath lbn = some p)
    (h' : blockPath lbn' = some p) : lbn = lbn' := by
  unfold blockPath at h h'
  rcases lmap_cases lbn with ⟨hlt, hl⟩ | ⟨n, hn, rfl, hl⟩ | ⟨n₁, n, hn, h₁, rfl, hl⟩ |
    ⟨n₂, n₁, n, hn, h₁, h₂, rfl, hl⟩ | ⟨-, hl⟩ <;> rw [hl] at h <;> cases h <;>
  rcases lmap_cases lbn' with ⟨hlt', hl'⟩ | ⟨m, hm, rfl, hl'⟩ | ⟨m₁, m, hm, hm₁, rfl, hl'⟩ |
    ⟨m₂, m₁, m, hm, hm₁, hm₂, rfl, hl'⟩ | ⟨-, hl'⟩ <;> rw [hl'] at h' <;> simp at h' <;> omega

/-! ### Following a path -/

/-- The block at the end of a path from a block on; zero when the path breaks off. -/
def follow (blocks : ℕ → Bytes) : ℕ → List ℕ → ℕ
  | b, [] => b
  | b, i :: q => if b = 0 then 0 else follow blocks (dp (blocks b) i) q

/-- The block at the end of a path from a table of addresses on. -/
def look (blocks : ℕ → Bytes) (table : ℕ → ℕ) : List ℕ → ℕ
  | [] => 0
  | i :: q => follow blocks (table i) q

/-- The block with number `lbn` of the file with the addresses `addr`, zero when there is none. -/
def phys (blocks : ℕ → Bytes) (addr : ℕ → ℕ) (lbn : ℕ) : ℕ :=
  match blockPath lbn with
  | none => 0
  | some p => look blocks addr p

/-- The byte at offset `k` of the file. -/
def fileByte (blocks : ℕ → Bytes) (addr : ℕ → ℕ) (k : ℕ) : Byte :=
  if phys blocks addr (k / BSIZE) = 0 then 0 else blocks (phys blocks addr (k / BSIZE)) (k % BSIZE)

variable {blocks : ℕ → Bytes} {b i : ℕ} {p q : List ℕ}

theorem follow_zero (blocks : ℕ → Bytes) (q : List ℕ) : follow blocks 0 q = 0 := by
  cases q with
  | nil => rfl
  | cons i q => exact if_pos rfl

theorem follow_append (blocks : ℕ → Bytes) (b : ℕ) (p q : List ℕ) :
    follow blocks b (p ++ q) = follow blocks (follow blocks b p) q := by
  induction p generalizing b with
  | nil => rfl
  | cons i p ih =>
    rw [List.cons_append, follow, follow]
    split_ifs with h
    · rw [follow_zero]
    · exact ih _

theorem look_append {table : ℕ → ℕ} (hp : p ≠ []) (q : List ℕ) :
    look blocks table (p ++ q) = follow blocks (look blocks table p) q := by
  cases p with
  | nil => exact absurd rfl hp
  | cons i p => exact follow_append blocks (table i) p q

/-- A path through other blocks. -/
theorem follow_congr {blocks' : ℕ → Bytes}
    (h : ∀ q₁ q₂, q = q₁ ++ q₂ → q₂ ≠ [] → follow blocks b q₁ ≠ 0 →
      ∀ i, dp (blocks' (follow blocks b q₁)) i = dp (blocks (follow blocks b q₁)) i) :
    follow blocks' b q = follow blocks b q := by
  induction q generalizing b with
  | nil => rfl
  | cons i q ih =>
    rw [follow, follow]
    split_ifs with hb
    · rfl
    · have hdp := h [] (i :: q) rfl (List.cons_ne_nil i q) hb i
      rw [show dp (blocks' b) i = dp (blocks b) i from hdp]
      refine ih fun q₁ q₂ hq hne h0 j => ?_
      have hstep : follow blocks b (i :: q₁) = follow blocks (dp (blocks b) i) q₁ := if_neg hb
      rw [← hstep] at h0 ⊢
      exact h (i :: q₁) q₂ (by rw [hq, List.cons_append]) hne h0 j

end CohKernel.Fs
