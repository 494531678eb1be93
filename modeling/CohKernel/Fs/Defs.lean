import CohKernel.Lib.Bytes
import CohKernel.Lib.Machine

namespace CohKernel.Fs

open CohKernel.Lib

/-!
# Free blocks

`balloc` and `bfree` of `fs2.c` on a mounted filesystem.  The free blocks hang off the super block:
`s_free` has the numbers of `s_nfree` of them, and `s_free [0]` is a block whose contents are the
next part of the list, or zero at its end.  The gate of the list is held to the end of a call, also
while the call reads a block, so a call is one step.
-/

/-- The number of block numbers in a part of the list. -/
def NICFREE : ℕ := 64

/-- `BSIZE`. -/
def BSIZE : ℕ := 512

/-! ### Data -/

/-- `struct filsys`, the super block in memory; `daddr_t` is a signed type. -/
structure Filsys where
  sIsize : ℕ
  sFsize : ℕ
  sNfree : ℤ
  sFree : ℕ → ℕ
  sTfree : ℤ
  sFsize_lt : sFsize < 2 ^ 31

/-- A mounted filesystem: its super block, the contents of its blocks, and whether the gate of the
    free list has been left locked. -/
structure Fs where
  super : Filsys
  blocks : ℕ → Bytes
  gate : Bool

/-- `canndaddr`. -/
def canndaddr (n : ℤ) (dp : ℕ → ℕ) : ℕ → ℕ := fun i => if (i : ℤ) < n then rol16 (dp i) else dp i

/-- `df_nfree` of a block of the list; it is assigned to a `short`. -/
def dfNfree (blk : Bytes) : ℤ := (short (blk.word 0)).val

/-- `df_free` of a block of the list. -/
def dfFree (blk : Bytes) (i : ℕ) : ℕ := blk.long (2 + 4 * i)

/-- The `struct fblk` that `bfree` makes of a cleared block. -/
def fblk (nfree : ℤ) (free : ℕ → ℕ) : Bytes := fun i =>
  if i < 2 then byte (nfree.toNat / 256 ^ i)
  else if i < 2 + 4 * NICFREE then
    byte (canndaddr nfree free ((i - 2) / 4) / 256 ^ ((i - 2) % 4))
  else 0

/-! ### Allocation -/

/-- Change the super block. -/
def Fs.withSuper (s : Fs) (f : Filsys → Filsys) : Fs := { s with super := f s.super }

/-- The label `enospc`. -/
def Fs.enospc (s : Fs) : ℕ × Fs := (0, s.withSuper fun sb => { sb with sNfree := 0 })

/-- A block of the filesystem. -/
def Filsys.inside (sb : Filsys) (b : ℕ) : Prop := sb.sIsize ≤ b ∧ b < sb.sFsize

instance (sb : Filsys) (b : ℕ) : Decidable (sb.inside b) := inferInstanceAs (Decidable (_ ∧ _))

/-- The end of `balloc`. -/
def Fs.allocated (s : Fs) (b : ℕ) : ℕ × Fs :=
  let s := s.withSuper fun sb => { sb with sTfree := sb.sTfree - 1 }
  if s.super.inside b then (b, s) else s.enospc

/-- `balloc` has taken the last number of the super block, and goes on with the next part of the
    list. -/
def Fs.refill (s : Fs) (b : ℕ) (readable : Bool) : ℕ × Fs :=
  if s.super.inside b ∧ readable = true then
    let blk := s.blocks b
    let s := s.withSuper fun sb => { sb with sNfree := dfNfree blk, sFree := dfFree blk }
    if s.super.sNfree > NICFREE then s.enospc
    else
      let s := s.withSuper fun sb => { sb with sFree := canndaddr sb.sNfree sb.sFree }
      s.allocated b
  else s.enospc

/-- `balloc` on a mounted filesystem.  `readable` says whether the block with the next part of
    the list can be read. -/
def Fs.balloc (s : Fs) (readable : Bool) : ℕ × Fs :=
  if s.super.sNfree = 0 ∨ s.super.sNfree > NICFREE then s.enospc
  else
    let n := (s.super.sNfree - 1).toNat
    let b := s.super.sFree n
    if b = 0 then s.enospc
    else
      let s := s.withSuper fun sb =>
        { sb with sNfree := sb.sNfree - 1, sFree := Function.update sb.sFree n 0 }
      if s.super.sNfree = 0 then s.refill b readable else s.allocated b

/-! ### Freeing -/

/-- `daddr_add` on a list of numbers: the list with the new number, less the last one, which is
    returned; zero when the number is there. -/
def daddrAdd : List ℕ → ℕ → List ℕ × ℕ
  | [], newblock => ([], newblock)
  | d :: list, newblock =>
      if newblock = d then (d :: list, 0)
      else if newblock > d then
        (newblock :: (d :: list).dropLast, (d :: list).getLast (List.cons_ne_nil d list))
      else
        let (list, b) := daddrAdd list newblock
        (d :: list, b)

/-- The numbers from `s_free [1]` on. -/
def Filsys.upper (sb : Filsys) : List ℕ :=
  (List.range (sb.sNfree - 1).toNat).map fun i => sb.sFree (i + 1)

/-- Store the numbers from `s_free [1]` on. -/
def Filsys.setUpper (sb : Filsys) (list : List ℕ) : Filsys :=
  { sb with sFree := fun i => if i = 0 then sb.sFree 0 else list.getD (i - 1) (sb.sFree i) }

/-- The rest of `bfree`, from the test for a full super block on. -/
def Fs.freed (s : Fs) (b : ℕ) : Fs :=
  let s :=
    if s.super.sNfree = 0 ∨ s.super.sNfree = NICFREE then
      let blk := fblk s.super.sNfree s.super.sFree
      { s.withSuper fun sb => { sb with sNfree := 0 } with
          blocks := Function.update s.blocks b blk }
    else s
  s.withSuper fun sb => { sb with
    sFree := Function.update sb.sFree sb.sNfree.toNat b
    sNfree := sb.sNfree + 1
    sTfree := sb.sTfree + 1 }

/-- `bfree` on a mounted filesystem.  When it finds the block in the list, it returns with the
    gate locked. -/
def Fs.bfree (s : Fs) (sortblocks : Bool) (b : ℕ) : Fs :=
  if s.super.inside b then
    if sortblocks = true ∧ s.super.sNfree > 0 then
      let (list, newblk) := daddrAdd s.super.upper b
      if newblk = 0 then { s with gate := true }
      else (s.withSuper fun sb => sb.setUpper list).freed newblk
    else s.freed b
  else s

end CohKernel.Fs
