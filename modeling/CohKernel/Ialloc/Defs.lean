import CohKernel.Lib.Machine
import CohKernel.Lib.Runs

namespace CohKernel.Ialloc

open CohKernel.Lib

/-!
# Allocation of inodes

`ialloc` and `ifree` of `fs2.c`, with `isync`, `icopymd`, and the part of `iattach` that they rely
on, of `fs1.c`, for one filesystem that is mounted for writing.
-/

/-- Number of free in core inodes. -/
def NICINOD : ℕ := 100

/-- Number of inodes per block. -/
def INOPB : ℕ := 8

/-- Inode block index. -/
def INODEI : ℕ := 2

/-- The file type of a mode. -/
def IFMT : ℕ := 0o170000

/-- Character special file. -/
def IFCHR : ℕ := 0o020000

/-- Pipe. -/
def IFPIPE : ℕ := 0o010000

/-! ### Data -/

/-- `struct inode`.  `marked` is that one of `IFACC`, `IFMOD` and `IFCRT` is set. -/
structure Inode where
  iMode : Ushort
  marked : Bool

/-- `struct filsys`, the modes of the inodes on the disk, and the inodes in the table.  The entries
    of `s_inode` below `s_ninode` are a list with the last one first.  The field `allocated` is not
    of the source: the inodes that have been handed out, or were in use at the start, and have not
    been freed. -/
@[ext] structure State where
  sInode : List ℕ
  sTinode : Ushort
  diMode : ℕ → Ushort
  inode : ℕ → Option Inode
  allocated : ℕ → Bool

/-- Change an inode of the table. -/
def State.setInode (s : State) (ino : ℕ) (ip : Option Inode) : State :=
  { s with inode := Function.update s.inode ino ip }

/-- The inode of a number, as `iattach` finds it or reads it. -/
def State.iattach (s : State) (ino : ℕ) : Inode := (s.inode ino).getD ⟨s.diMode ino, false⟩

/-! ### Writing inodes -/

/-- `isync` writes the inode. -/
def Inode.syncs (ip : Inode) : Bool :=
  ip.marked && decide (ip.iMode.val &&& IFMT ≠ IFCHR) && decide (ip.iMode.val &&& IFMT ≠ IFPIPE)

/-- `isync`.  An inode is not written when its block cannot be read. -/
def State.isync (s : State) (written : ℕ → Bool) : State :=
  { s with
    diMode := fun ino =>
      match s.inode ino with
      | none => s.diMode ino
      | some ip => if written ino && ip.syncs then ip.iMode else s.diMode ino
    inode := fun ino => (s.inode ino).map fun ip =>
      if written ino && ip.syncs then { ip with marked := false } else ip }

/-- `ifree` -/
def State.ifree (s : State) (ino : ℕ) : State :=
  { s with
    sInode := if s.sInode.length < NICINOD then ino :: s.sInode else s.sInode
    sTinode := ushort (s.sTinode.val + 1)
    allocated := Function.update s.allocated ino false }

/-- `icopymd`.  `unlinked` is that there are no links and no references, and `readable` that the
    block of the inode can be read. -/
def State.icopymd (s : State) (ino : ℕ) (ip : Inode) (unlinked readable : Bool) : State :=
  let iMode := if unlinked then 0 else ip.iMode
  if readable then
    let s := { s.setInode ino (some ⟨iMode, false⟩) with
      diMode := Function.update s.diMode ino iMode }
    if unlinked then s.ifree ino else s
  else s.setInode ino (some ⟨iMode, ip.marked⟩)

/-! ### Allocation -/

/-- The numbers of the inodes of a block. -/
def inodesOf (b : ℕ) : List ℕ := List.range' (1 + (b - INODEI) * INOPB) INOPB

/-- The blocks of the inode list. -/
def inodeBlocks (sIsize : ℕ) : List ℕ := List.range' INODEI (sIsize - INODEI)

/-- What a turn of `ialloc` meets: the inodes that `isync` can write, the blocks that can be read,
    and whether `iattach` succeeds. -/
structure Turn where
  written : ℕ → Bool
  readable : ℕ → Bool
  attached : Bool

/-- How a turn of `ialloc` ends. -/
inductive Outcome where
  | again
  | returned (ino : Option ℕ)

/-- The inodes that the scan of the inode list finds free on the disk. -/
def State.scanned (s : State) (sIsize : ℕ) (bad readable : ℕ → Bool) : List ℕ :=
  (((inodeBlocks sIsize).filter fun b => !bad b && readable b).flatMap inodesOf).filter
    fun ino => decide (s.diMode ino = 0)

/-- The cache is filled: the scan stops when it is full. -/
def State.refill (s : State) (sIsize : ℕ) (bad : ℕ → Bool) (t : Turn) : State :=
  let s := s.isync t.written
  { s with sInode := ((s.scanned sIsize bad t.readable).take NICINOD).reverse }

/-- A number is taken from the cache. -/
def State.pop (s : State) (inodes : List ℕ) : State :=
  { s with sInode := inodes, sTinode := ushort (s.sTinode.val - 1) }

/-- One turn of `ialloc`. -/
def State.turn (s : State) (sIsize : ℕ) (bad : ℕ → Bool) (mode : Ushort) (t : Turn) :
    State × Outcome :=
  let s := if s.sInode = [] then s.refill sIsize bad t else s
  match s.sInode with
  | [] => ({ s with sTinode := 0 }, .returned none)
  | ino :: inodes =>
      let s := s.pop inodes
      if t.attached then
        let ip := s.iattach ino
        if ip.iMode ≠ 0 then
          ({ s.setInode ino (some ip) with sTinode := ushort (s.sTinode.val + 1) }, .again)
        else
          ({ s.setInode ino (some ⟨mode, false⟩) with
            allocated := Function.update s.allocated ino true }, .returned (some ino))
      else (s, .returned none)

/-- `ialloc`, which has not returned when there are no more turns. -/
def State.ialloc (s : State) (sIsize : ℕ) (bad : ℕ → Bool) (mode : Ushort) :
    List Turn → Option (State × Option ℕ)
  | [] => none
  | t :: ts =>
      match s.turn sIsize bad mode t with
      | (s', .again) => s'.ialloc sIsize bad mode ts
      | (s', .returned ino) => some (s', ino)

/-! ### Steps -/

/-- What happens: a call of `ialloc`; an inode is attached, changed, written (which frees it when it
    is unlinked), or leaves the table. -/
inductive Event where
  | ialloc (mode : Ushort) (turns : List Turn)
  | iattach (ino : ℕ)
  | change (ino : ℕ) (mode : Ushort)
  | icopymd (ino : ℕ) (unlinked readable : Bool)
  | recycle (ino : ℕ)

variable (sIsize : ℕ) (bad : ℕ → Bool)

/-- One step. -/
def step (s : State) : Event → Option State
  | .ialloc mode turns => (s.ialloc sIsize bad mode turns).map Prod.fst
  | .iattach ino => some (s.setInode ino (some (s.iattach ino)))
  | .change ino mode =>
      match s.inode ino with
      | none => none
      | some _ => if s.allocated ino then some (s.setInode ino (some ⟨mode, true⟩)) else none
  | .icopymd ino unlinked readable =>
      match s.inode ino with
      | none => none
      | some ip =>
          if unlinked = true → s.allocated ino = true then
            some (s.icopymd ino ip unlinked readable)
          else none
  | .recycle ino => some (s.setInode ino none)

/-- The numbers of the inodes. -/
def inodeNumbers : Finset ℕ := Finset.Icc 1 ((sIsize - INODEI) * INOPB)

/-- How many inodes are free. -/
def State.freeCount (s : State) : ℕ :=
  ((inodeNumbers sIsize).filter fun ino => s.allocated ino = false).card

/-- The block of an inode. -/
def iblockn (ino : ℕ) : ℕ := INODEI + (ino - 1) / INOPB

/-- The inode is on the disk, in a good block. -/
def Usable (ino : ℕ) : Prop := ino ∈ inodeNumbers sIsize ∧ bad (iblockn ino) = false

/-- A filesystem that has just been mounted, with the right count.  The numbers of its inodes are of
    type `o_ino_t`. -/
structure Initial (s : State) : Prop where
  size : (sIsize - INODEI) * INOPB < 2 ^ 16
  inode : ∀ ino, s.inode ino = none
  allocated : ∀ ino, s.allocated ino = true ↔ s.diMode ino ≠ 0
  used : ∀ ino, s.diMode ino ≠ 0 → Usable sIsize bad ino
  cached : ∀ ino ∈ s.sInode, Usable sIsize bad ino
  count : s.sTinode.val = s.freeCount sIsize

end CohKernel.Ialloc
