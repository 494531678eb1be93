import CohKernel.Fs.Inode

namespace CohKernel.Fs

open CohKernel.Lib

/-!
# Bad blocks

`bad` of `fs2.c`, with `icopydm` and `l3tol` as far as it relies on them: the inode 1 of a
filesystem is a file whose blocks are the bad ones.

* `bad_direct` — the direct addresses are compared as they are recorded;
* `bad_recorded` — when `bad` finds exactly the recorded blocks;
* `bad_misses` — the numbers of the indirect block are looked for in the buffer header.
-/

/-! ### The inode -/

/-- Mask of the file type, and the type of a regular file. -/
def IFMT : ℕ := 0xF000
def IFREG : ℕ := 0x8000

/-- The bad-block inode on the disk, a regular file. -/
structure Badfin where
  dinode : Bytes
  regular : dinode.word 0 &&& IFMT = IFREG

/-- Offsets of `di_size` and of `di_addb`. -/
def DI_SIZE : ℕ := 8
def DI_ADDB : ℕ := 12

/-- `l3tol` for one number: the high byte comes first, then the low one. -/
def l3tol (cp : Bytes) (o : ℕ) : ℕ :=
  (cp o).val <<< 16 ||| (cp (o + 1)).val ||| (cp (o + 2)).val <<< 8

/-- `icopydm`: the size and the addresses of the inode. -/
def Badfin.iSize (ip : Badfin) : ℕ := rol16 (ip.dinode.long DI_SIZE)

def Badfin.iAddr (ip : Badfin) (i : ℕ) : ℕ := l3tol ip.dinode (DI_ADDB + 3 * i)

/-- `blockn` -/
def blockn (n : ℕ) : ℕ := n / BSIZE

/-! ### `bad` -/

/-- `bad`.  `readable` says whether the indirect block can be read; `bp` is the memory from the
    header of its buffer on. -/
def Badfin.bad (ip : Badfin) (readable : Bool) (bp : Bytes) (b : ℕ) : Bool :=
  let n := blockn ip.iSize
  let m := if n > ND then ND else n
  if (List.range m).any fun i => b = ip.iAddr i then true
  else
    let n := n - m
    if n = 0 then false
    else if readable = false then false
    else
      let m := if n > NBN then NBN else n
      (List.range m).any fun i => b = rol16 (bp.long (4 * i))

/-! ### What is recorded -/

/-- The number of three bytes: the high byte, the low one, and the middle one. -/
def threeByte (cp : Bytes) (o : ℕ) : ℕ :=
  65536 * (cp o).val + 256 * (cp (o + 2)).val + (cp (o + 1)).val

/-- The block is one of those that the inode has the addresses of. -/
def Badfin.Direct (ip : Badfin) (b : ℕ) : Prop :=
  ∃ i < ND, i < blockn ip.iSize ∧ b = threeByte ip.dinode (DI_ADDB + 3 * i)

/-- The block is one of those that the indirect block has the numbers of. -/
def Badfin.Indirect (ip : Badfin) (blk : Bytes) (b : ℕ) : Prop :=
  ∃ i < NBN, ND + i < blockn ip.iSize ∧ b = dp blk i

/-- The block is among the recorded ones, for the contents of the blocks of the device. -/
def Badfin.Recorded (ip : Badfin) (blocks : ℕ → Bytes) (b : ℕ) : Prop :=
  ip.Direct b ∨ ip.Indirect (blocks (threeByte ip.dinode (DI_ADDB + 3 * ND))) b

/-- The memory from the buffer header on has the block in place of one of those. -/
def Badfin.InHeader (ip : Badfin) (bp : Bytes) (b : ℕ) : Prop := ip.Indirect bp b

variable {ip : Badfin} {b : ℕ} {readable : Bool} {bp : Bytes}

/-- `l3tol` puts the bytes in their places. -/
theorem l3tol_eq (cp : Bytes) (o : ℕ) : l3tol cp o = threeByte cp o := by
  have h₀ := (cp o).isLt
  have h₁ := (cp (o + 1)).isLt
  have h₂ := (cp (o + 2)).isLt
  have hlow : (cp (o + 1)).val < 2 ^ 8 := h₁
  have hmid : 2 ^ 8 * (cp (o + 2)).val + (cp (o + 1)).val < 2 ^ 16 := by omega
  unfold l3tol threeByte
  rw [Nat.shiftLeft_eq, Nat.shiftLeft_eq, Nat.or_assoc, Nat.or_comm (cp (o + 1)).val,
    Nat.mul_comm _ (2 ^ 8), ← Nat.two_pow_add_eq_or_of_lt hlow, Nat.mul_comm _ (2 ^ 16),
    ← Nat.two_pow_add_eq_or_of_lt hmid]
  omega

/-- **The direct addresses** are compared as they are recorded. -/
theorem bad_direct (ip : Badfin) (b : ℕ) :
    ((List.range (if blockn ip.iSize > ND then ND else blockn ip.iSize)).any
      fun i => b = ip.iAddr i) = true ↔ ip.Direct b := by
  rw [List.any_eq_true]
  constructor
  · rintro ⟨i, hi, hb⟩
    rw [List.mem_range] at hi
    refine ⟨i, ?_, ?_, (of_decide_eq_true hb).trans (l3tol_eq _ _)⟩
    · split_ifs at hi <;> omega
    · split_ifs at hi <;> omega
  · rintro ⟨i, hnd, hn, hb⟩
    refine ⟨i, ?_, decide_eq_true (hb.trans (l3tol_eq _ _).symm)⟩
    rw [List.mem_range]
    split_ifs <;> omega

/-- The rest of `bad` looks through the memory from the buffer header on. -/
theorem bad_header (ip : Badfin) (bp : Bytes) (b : ℕ) (h : ¬ ip.Direct b) :
    ip.bad readable bp b = true ↔ readable = true ∧ ip.InHeader bp b := by
  unfold Badfin.bad
  dsimp only
  rw [if_neg (mt (bad_direct ip b).mp h)]
  by_cases hn : blockn ip.iSize > ND
  · rw [if_pos hn, if_neg (Nat.sub_ne_zero_of_lt hn)]
    cases readable with
    | false =>
      rw [if_pos rfl]
      exact iff_of_false Bool.false_ne_true fun h => Bool.false_ne_true h.1
    | true =>
      rw [if_neg Bool.true_eq_false.mp, and_iff_right rfl, List.any_eq_true]
      constructor
      · rintro ⟨i, hi, hb⟩
        rw [List.mem_range] at hi
        exact ⟨i, by split_ifs at hi <;> omega, by split_ifs at hi <;> omega, of_decide_eq_true hb⟩
      · rintro ⟨i, hi, hlt, hb⟩
        exact ⟨i, List.mem_range.mpr (by split_ifs <;> omega), decide_eq_true hb⟩
  · -- there is nothing in the indirect block
    rw [if_neg hn, Nat.sub_self, if_pos rfl]
    refine iff_of_false Bool.false_ne_true ?_
    rintro ⟨-, i, -, hlt, -⟩
    omega

/-- **When `bad` finds exactly the recorded blocks**: for blocks that are listed directly, when no
    more than ten are listed, and when the memory of the buffer header happens to have the numbers
    of the indirect block. -/
theorem bad_recorded (ip : Badfin) (readable : Bool) (bp : Bytes) (blocks : ℕ → Bytes) (b : ℕ) :
    (ip.bad readable bp b = true ↔ ip.Recorded blocks b) ↔
      ip.Direct b ∨ blockn ip.iSize ≤ ND ∨
        (readable = true ∧ ip.InHeader bp b ↔
          ip.Indirect (blocks (threeByte ip.dinode (DI_ADDB + 3 * ND))) b) := by
  by_cases hdirect : ip.Direct b
  · have hbad : ip.bad readable bp b = true := if_pos ((bad_direct ip b).mpr hdirect)
    exact iff_of_true (iff_of_true hbad (.inl hdirect)) (.inl hdirect)
  · unfold Badfin.Recorded
    rw [bad_header ip bp b hdirect, or_iff_right hdirect, or_iff_right hdirect]
    refine ⟨.inr, ?_⟩
    rintro (hn | h)
    · have hnone : ∀ blk, ¬ ip.Indirect blk b := by
        rintro blk ⟨i, -, hlt, -⟩
        omega
      exact iff_of_false (fun h => hnone bp h.2) (hnone _)
    · exact h

/-- An inode with 11 blocks listed. -/
def eleven : Badfin where
  dinode := fun i => if i = 1 then 0x80 else if i = 11 then 0x16 else 0
  regular := by decide

/-- **A recorded block is not found**: its number is in the indirect block. -/
theorem bad_misses : ¬ ∀ (ip : Badfin) (readable : Bool) (bp : Bytes) (blocks : ℕ → Bytes) (b : ℕ),
    ip.bad readable bp b = true ↔ ip.Recorded blocks b := by
  intro hall
  have hfound := (hall eleven true (fun _ => 0) (fun _ i => if i = 2 then 77 else 0) 77).mpr
    (.inr ⟨0, by decide, by decide, by decide⟩)
  exact absurd hfound (by decide)

end CohKernel.Fs
