import CohKernel.Lib.Runs
import CohKernel.Lib.Scan

namespace CohKernel.Itable

open CohKernel.Lib

/-!
# The table of in-core inodes

`inode_find`, `iattach`, `inode_clone` and `idetach` of `fs1.c`.  A process goes on from one place
where it may sleep to the next: for the gate of an inode, in `icopydm`, which reads the inode from
the disk, and in `icopymd`, which writes it.
-/

/-- `NODEV`, as an `o_dev_t`. -/
def NODEV : ℕ := 0xffff

/-- The number of the root inode of a filesystem. -/
def ROOTIN : ℕ := 2

/-- `struct inode`.  The field `mount` is not of the source: it is the device of the entry of the
    mount table for the inode, when `IFMNT` is set. -/
structure Inode (P : Type) where
  iDev : ℕ
  iIno : ℕ
  iRefc : ℕ
  iLrt : ℕ
  iLastblock : ℤ
  mount : Option ℕ
  lock : Option P

/-- Which of the two functions calls `inode_find`. -/
inductive Caller where
  | iattach
  | inodeClone
deriving DecidableEq

/-- Where a process is: in none of the calls, at the start of another turn of `iattach`, waiting for
    the gate of the free inode or of the inode that `inode_find` has found, in `icopydm` with a new
    inode, or in the `icopymd` of `idetach`. -/
inductive Pc where
  | idle
  | again (dev ino : ℕ)
  | claiming (who : Caller) (dev ino free : ℕ)
  | locking (who : Caller) (dev ino temp : ℕ)
  | reading (ip dev ino : ℕ)
  | writing (ip : ℕ)

/-- An inode that has been attached: its place in the table, and the inode that was asked for. -/
structure Attached where
  ip : ℕ
  dev : ℕ
  ino : ℕ
deriving DecidableEq

/-- `inode_table` and `timer.t_time`.  The list `attached` is not of the source: the inodes that
    have been attached and not yet detached. -/
structure State (P : Type) where
  inodeTable : ℕ → Inode P
  tTime : ℕ
  pc : P → Pc
  attached : List Attached

variable {P : Type} [DecidableEq P]

/-- Change an inode. -/
def State.setInode (s : State P) (i : ℕ) (ip : Inode P) : State P :=
  { s with inodeTable := Function.update s.inodeTable i ip }

/-- Change what a process does. -/
def State.setPc (s : State P) (p : P) (pc : Pc) : State P :=
  { s with pc := Function.update s.pc p pc }

/-- `iunlock`. -/
def State.iunlock (s : State P) (i : ℕ) : State P :=
  s.setInode i { s.inodeTable i with lock := none }

/-- The inode is in the place. -/
def Inode.carries (ip : Inode P) (dev ino : ℕ) : Bool := decide (ip.iDev = dev ∧ ip.iIno = ino)

/-- The scan of `inode_find` over a table of `NINODE` inodes: the inode, or else the free inode with
    the earliest time, if there is one. -/
def State.scan (s : State P) (NINODE dev ino : ℕ) : ℕ ⊕ Option ℕ :=
  match (List.range NINODE).find? fun i => (s.inodeTable i).carries dev ino with
  | some i => .inl i
  | none =>
      .inr ((List.range NINODE).foldl
        (keepOlder (fun i => decide ((s.inodeTable i).iRefc ≠ 0)) fun i => (s.inodeTable i).iLrt)
        none)

/-- The free inode becomes the inode that was asked for.  `inode_clone` returns it unlocked;
    `iattach` reads it. -/
def State.claim (s : State P) (p : P) (who : Caller) (dev ino free : ℕ) : State P :=
  let ip := { s.inodeTable free with
    iDev := dev, iIno := ino, iRefc := 1, iLrt := s.tTime, iLastblock := -1, mount := none
    lock := if who = .iattach then some p else none }
  { s.setInode free ip with
    attached := ⟨free, dev, ino⟩ :: s.attached
    pc := Function.update s.pc p (if who = .iattach then .reading free dev ino else .idle) }

/-- The inode has been found, and its gate is locked. -/
def State.hit (s : State P) (p : P) (who : Caller) (dev ino temp : ℕ) : State P :=
  let ip := s.inodeTable temp
  let ip := match who with
    | .iattach => { ip with iRefc := ip.iRefc + 1, iLrt := s.tTime, lock := some p }
    | .inodeClone => { ip with iRefc := ip.iRefc + 1, lock := none }
  { s.setInode temp ip with
    attached := ⟨temp, dev, ino⟩ :: s.attached
    pc := Function.update s.pc p .idle }

/-- `iattach` or `inode_clone`, from the start of a turn up to its end or its first sleep. -/
def State.find (s : State P) (NINODE : ℕ) (p : P) (who : Caller) (dev ino : ℕ) : State P :=
  match s.scan NINODE dev ino with
  | .inl temp =>
      match who, (s.inodeTable temp).mount with
      | .iattach, some mDev => s.setPc p (.again mDev ROOTIN)
      | _, _ =>
          if (s.inodeTable temp).lock = none then s.hit p who dev ino temp
          else s.setPc p (.locking who dev ino temp)
  | .inr none => s.setPc p .idle
  | .inr (some free) =>
      if (s.inodeTable free).lock = none then s.claim p who dev ino free
      else s.setPc p (.claiming who dev ino free)

/-- What happens: a process makes a call, or goes on where it was asleep, or locks or unlocks an
    inode; or the clock changes; or an inode becomes a mount point, or ceases to be one.  `fails` is
    the result of `icopydm`, `removed` that `icopymd` has removed the file and cleared `i_lrt`, and
    `sleeps` that `icopymd` is called at all. -/
inductive Event (P : Type) where
  | iattach (p : P) (dev ino : ℕ)
  | inodeClone (p : P) (dev : ℕ)
  | idetach (p : P) (a : Attached) (sleeps : Bool)
  | resume (p : P)
  | copied (p : P) (fails : Bool)
  | written (p : P) (removed : Bool)
  | ilock (p : P) (i : ℕ)
  | iunlock (p : P) (i : ℕ)
  | time (t : ℕ)
  | mount (i : ℕ) (mDev : Option ℕ)

/-- The process is in none of the calls. -/
def Pc.isIdle : Pc → Bool
  | .idle => true
  | _ => false

/-- A process goes on where it was asleep, or makes another turn of `iattach`. -/
def State.resume (s : State P) (NINODE : ℕ) (p : P) : Option (State P) :=
  match s.pc p with
  | .again dev ino => some (s.find NINODE p .iattach dev ino)
  | .claiming who dev ino free =>
      let ip := s.inodeTable free
      if ip.lock ≠ none then none
      else if ip.iRefc ≠ 0 then
        some ((s.setInode free { ip with iLrt := s.tTime }).find NINODE p who dev ino)
      else some (s.claim p who dev ino free)
  | .locking who dev ino temp =>
      let ip := s.inodeTable temp
      if ip.lock ≠ none then none
      else if ip.carries dev ino then some (s.hit p who dev ino temp)
      else some (s.find NINODE p who dev ino)
  | _ => none

/-- `idetach`, up to its end or its first sleep. -/
def State.idetach (s : State P) (p : P) (a : Attached) (sleeps : Bool) : State P :=
  let ip := s.inodeTable a.ip
  let s := { s.setInode a.ip { ip with iRefc := ip.iRefc - 1 } with
    attached := s.attached.erase a }
  if ip.iRefc = 1 ∧ sleeps = true then s.setPc p (.writing a.ip) else s.iunlock a.ip

/-- One step. -/
def step (NINODE : ℕ) (s : State P) : Event P → Option (State P)
  | .iattach p dev ino =>
      if (s.pc p).isIdle then some (s.find NINODE p .iattach dev ino) else none
  | .inodeClone p dev =>
      if (s.pc p).isIdle then some (s.find NINODE p .inodeClone NODEV dev) else none
  | .idetach p a sleeps =>
      if (s.pc p).isIdle = true ∧ (s.inodeTable a.ip).lock = some p ∧ a ∈ s.attached then
        some (s.idetach p a sleeps)
      else none
  | .resume p => s.resume NINODE p
  | .copied p fails =>
      match s.pc p with
      | .reading i dev ino =>
          if fails then
            some { (s.setInode i { s.inodeTable i with
              iIno := 0, iRefc := 0, lock := none }).setPc p .idle with
              attached := s.attached.erase ⟨i, dev, ino⟩ }
          else some (s.setPc p .idle)
      | _ => none
  | .written p removed =>
      match s.pc p with
      | .writing i =>
          let ip := s.inodeTable i
          some ((s.setInode i { ip with
            iLrt := if removed = true ∧ ip.iDev ≠ NODEV then 0 else ip.iLrt
            lock := none }).setPc p .idle)
      | _ => none
  | .ilock p i =>
      if (s.pc p).isIdle = true ∧ i < NINODE ∧ (s.inodeTable i).lock = none then
        some (s.setInode i { s.inodeTable i with lock := some p })
      else none
  | .iunlock p i =>
      if (s.pc p).isIdle = true ∧ (s.inodeTable i).lock = some p then some (s.iunlock i) else none
  | .time t => some { s with tTime := t }
  | .mount i mDev => some (s.setInode i { s.inodeTable i with mount := mDev })

/-- The state after `fsminit` has set up the table, which is cleared. -/
def Initial (s : State P) : Prop :=
  (∀ i, (s.inodeTable i).iIno = 0 ∧ (s.inodeTable i).iRefc = 0 ∧ (s.inodeTable i).lock = none) ∧
  (∀ p, s.pc p = .idle) ∧ s.attached = []

end CohKernel.Itable
