import CohKernel.Lib.Machine
import CohKernel.Lib.Runs
import CohKernel.Lib.Scan
import CohKernel.Lib.Count
import CohKernel.Ipc.Perm
import CohKernel.Mmu.Segment

namespace CohKernel.Shm

open CohKernel.Lib CohKernel.Ipc
open CohKernel.Mmu (NBPC btocru btocrd ctob)

/-!
# Shared memory

`shm1.c` and `shm0.c`, `shmDup` of `pfork`, `ubrk` of `sys1.c`, and the growth of the stack by a
signal.  No call sleeps, so each is one step.  The segments of `shmAlloc` are numbered as they are
made; a pointer to a segment is its number.  A call that follows a null or wild pointer, or that
indexes outside a table, ends in `fault`.
-/

/-! ### Data -/

/-- The configurable values, in the ranges that `mtune` admits. -/
structure Tune where
  SHMMNI : ℕ
  SHMMAX : ℕ
  shmmni_ge : 10 ≤ SHMMNI
  shmmni_le : SHMMNI ≤ 400
  shmmax_ge : 4096 ≤ SHMMAX
  shmmax_le : SHMMAX ≤ 4194304

/-- User segments per process. -/
abbrev NUSEG : ℕ := 4

/-- Shared segments per process. -/
abbrev NSHMSEG : ℕ := 6

def SIUSERP : Fin NUSEG := 0
def SISTEXT : Fin NUSEG := 1
def SIPDATA : Fin NUSEG := 2
def SISTACK : Fin NUSEG := 3

/-- The first address that `shmat` chooses. -/
def SHMBASE : ℕ := 0x40000000

def INT_MAX : ℕ := 0x7fffffff

def SHM_DEST : ℕ := 0x400
def SHM_RDONLY : ℕ := 0o10000

def SFCORE : ℕ := 0x01
def SFTEXT : ℕ := 0x08
def SFSYST : ℕ := 0x20

def SRFDUMP : ℕ := 0x02
def SRFDATA : ℕ := 0x04
def SRFRODT : ℕ := 0x08
def SRFBERM : ℕ := 0x10

def SEG_RO : ℕ := 0x05
def SEG_RW : ℕ := 0x07
def SEG_SRW : ℕ := 0x03

/-- A virtual address, `caddr_t`. -/
abbrev Addr := Fin (2 ^ 32)

/-- Conversion to an address. -/
def addr (n : ℕ) : Addr := ⟨n % 2 ^ 32, Nat.mod_lt n (by decide)⟩

/-- `SR`: a reference to a segment. -/
structure SR where
  srFlag : ℕ
  srBase : Addr
  srSize : ℕ
  srSegp : Option ℕ
deriving DecidableEq

/-- A reference to no segment. -/
def SR.none : SR := ⟨0, 0, 0, Option.none⟩

/-- `SEG` of a shared segment.  Two fields are not of the source: `removed` says that `IPC_RMID`
    has been done, `freed` counts how often the memory has been given back. -/
structure Seg where
  sFlags : ℕ
  sUrefc : Short
  sLrefc : Short
  sSize : ℕ
  removed : Bool
  freed : ℕ

/-- `struct shmid_ds`. -/
structure ShmidDs where
  shmPerm : IpcPerm
  shmSegsz : ℕ
  shmNattch : Ushort
  shmCtime : ℕ

/-- The arrays `shmids` and `shmsegs`. -/
structure Tables where
  shmids : ℕ → ShmidDs
  shmsegs : ℕ → Option ℕ

/-- How an attachment was made: the flags of `shmat`, its caller, and the permissions that were
    checked. -/
structure Made where
  shmFlag : ℕ
  byAddr : Bool
  cred : Cred
  perm : IpcPerm

/-- The tables once they are allocated, the segments, and the processes with their `p_segl` and
    `p_shmsr`.  The record `made` is not of the source. -/
structure State (P : Type) where
  tables : Option Tables
  segs : ℕ → Seg
  nsegs : ℕ
  live : P → Bool
  segl : P → Fin NUSEG → SR
  shmsr : P × Fin NSHMSEG → SR
  made : P × Fin NSHMSEG → Made

/-- `errno` values. -/
inductive Errno where
  | EINVAL
  | EPERM
  | EACCES
  | EEXIST
  | ENOENT
  | ENOSPC
  | ENOMEM
  | EMFILE
  | EFAULT
deriving DecidableEq, Repr

/-- What a call ends with. -/
inductive Outcome (P : Type) where
  | done (s : State P) (retval : ℤ) (err : Option Errno)
  | fault

variable {P : Type} [DecidableEq P]

/-- A call that fails. -/
def State.fail (s : State P) (e : Errno) : Outcome P := .done s (-1) (some e)

/-- `__IPC_ALLOC` is set. -/
def ShmidDs.alloc (ds : ShmidDs) : Bool := decide (ds.shmPerm.mode &&& IPC_ALLOC ≠ 0)

/-- Change an entry of `shmids`. -/
def Tables.put (tb : Tables) (i : ℕ) (ds : ShmidDs) : Tables :=
  { tb with shmids := Function.update tb.shmids i ds }

/-- Change an entry of `shmsegs`. -/
def Tables.point (tb : Tables) (i : ℕ) (segp : Option ℕ) : Tables :=
  { tb with shmsegs := Function.update tb.shmsegs i segp }

/-- Change the tables. -/
def State.setTables (s : State P) (tb : Tables) : State P := { s with tables := some tb }

/-- Change a segment. -/
def State.setSeg (s : State P) (k : ℕ) (seg : Seg) : State P :=
  { s with segs := Function.update s.segs k seg }

/-- Change a reference of `p_shmsr`. -/
def State.setSr (s : State P) (pi : P × Fin NSHMSEG) (sr : SR) : State P :=
  { s with shmsr := Function.update s.shmsr pi sr }

/-- The segment that a pointer points to, if it points to one. -/
def State.segAt (s : State P) (segp : Option ℕ) : Option ℕ := segp.filter (· < s.nsegs)

/-! ### `shm0.c` -/

/-- `shmFree`. -/
def Seg.shmFree (seg : Seg) : Seg :=
  if seg.sUrefc.val ≠ 1 ∨ seg.sLrefc.val ≠ 1 then seg else { seg with freed := seg.freed + 1 }

/-- Add to both reference counts of a segment. -/
def Seg.addRefs (seg : Seg) (d : ℤ) : Seg :=
  { seg with sUrefc := short (seg.sUrefc.val + d), sLrefc := short (seg.sLrefc.val + d) }

/-- A new reference to a segment. -/
def State.refer (s : State P) (pi : P × Fin NSHMSEG) (k : ℕ) (sr : SR) (m : Made) : State P :=
  { (s.setSr pi sr).setSeg k ((s.segs k).addRefs 1) with made := Function.update s.made pi m }

/-- The reference that `shmAttach` makes. -/
def attachSr (numBytes : ℕ) (base : Addr) (k : ℕ) (shmReadonly : Bool) : SR where
  srFlag := if shmReadonly then SRFDUMP ||| SRFDATA ||| SRFRODT else SRFDUMP ||| SRFDATA
  srBase := base
  srSize := numBytes
  srSegp := some k

/-- The value that `shm_nattch` gets. -/
def Seg.nattch (seg : Seg) : Ushort := ushort (seg.sUrefc.val - 1)

/-- Store `shm_nattch`. -/
def Tables.setNattch (tb : Tables) (i : ℕ) (v : Ushort) : Tables :=
  tb.put i { tb.shmids i with shmNattch := v }

/-- The first entry of `shmsegs` with a segment. -/
def Tables.entryOf (tb : Tables) (t : Tune) (k : ℕ) : Option ℕ :=
  (List.range t.SHMMNI).find? fun j => tb.shmsegs j = some k

/-- `shmSetDs`. -/
def Tables.shmSetDs (tb : Tables) (t : Tune) (k : ℕ) (seg : Seg) : Tables :=
  match tb.entryOf t k with
  | none => tb
  | some j => tb.setNattch j seg.nattch

/-- A segment that loses a reference: the last one frees it if it is to be removed. -/
def Seg.detach (seg : Seg) : Seg :=
  let seg := seg.addRefs (-1)
  if seg.sFlags &&& SRFBERM ≠ 0 ∧ seg.sUrefc.val = 1 ∧ seg.sLrefc.val = 1 then seg.shmFree else seg

/-- What `shmDetachP` does for the segment of a reference. -/
def State.unrefer (s : State P) (t : Tune) (k : ℕ) : State P :=
  { s.setSeg k (s.segs k).detach with
    tables := s.tables.map fun tb => tb.shmSetDs t k ((s.segs k).addRefs (-1)) }

/-- `shmDetachP`. -/
def State.shmDetachP (s : State P) (t : Tune) (pi : P × Fin NSHMSEG) : State P :=
  match (s.shmsr pi).srSegp with
  | none => s.setSr pi SR.none
  | some k => (s.unrefer t k).setSr pi SR.none

/-- `shmAllDt`. -/
def State.shmAllDt (s : State P) (t : Tune) (p : P) : State P :=
  (List.finRange NSHMSEG).foldl (fun s i => s.shmDetachP t (p, i)) s

/-- One turn of `shmDup`. -/
def State.shmDup1 (s : State P) (p cp : P) (i : Fin NSHMSEG) : State P :=
  let sr := s.shmsr (p, i)
  match sr.srSegp with
  | none => s.setSr (cp, i) sr
  | some k => s.refer (cp, i) k sr (s.made (p, i))

/-- `shmDup`. -/
def State.shmDup (s : State P) (p cp : P) : State P :=
  (List.finRange NSHMSEG).foldl (fun s i => s.shmDup1 p cp i) s

/-! ### `shmctl` -/

/-- `cmd` and `ushm_buf` of `shmctl`: whether the buffer of `IPC_STAT` can be written, and what
    `getuwd` reads of that of `IPC_SET`. -/
inductive Cmd where
  | IPC_STAT (useracc : Bool)
  | IPC_SET (uid gid mode : ℕ)
  | IPC_RMID
  | SHM_LOCK
  | SHM_UNLOCK
  | other

/-- The command is `IPC_STAT`. -/
def Cmd.isStat : Cmd → Bool
  | .IPC_STAT _ => true
  | _ => false

/-- `IPC_SET` on an entry. -/
def ShmidDs.set (ds : ShmidDs) (uid gid mode : ℕ) : ShmidDs :=
  { ds with shmPerm := { ds.shmPerm with
      uid := uid, gid := gid
      mode := clearBits ds.shmPerm.mode IRWXUGO ||| (mode &&& IRWXUGO) } }

/-- `IPC_RMID` on an entry. -/
def ShmidDs.remove (ds : ShmidDs) : ShmidDs :=
  { ds with shmPerm := { ds.shmPerm with seq := 0, mode := 0 } }

/-- `IPC_RMID` on a segment. -/
def Seg.remove (seg : Seg) (nattch : Ushort) : Seg :=
  if nattch > 0 then { seg with sFlags := seg.sFlags ||| SRFBERM, removed := true }
  else Seg.shmFree { seg with removed := true }

/-- `IPC_RMID`, for the owner. -/
def State.ipcRmid (s : State P) (tb : Tables) (i : ℕ) : Outcome P :=
  let s' := s.setTables ((tb.put i (tb.shmids i).remove).point i none)
  match tb.shmsegs i with
  | none => if (tb.shmids i).shmNattch > 0 then .fault else .done s' 0 none
  | some k =>
      if k < s.nsegs then .done (s'.setSeg k ((s.segs k).remove (tb.shmids i).shmNattch)) 0 none
      else .fault

/-- `ushmctl`. -/
def State.ushmctl (s : State P) (t : Tune) (c : Cred) (shmId : CInt) (cmd : Cmd) : Outcome P :=
  if inRange 0 shmId.val (t.SHMMNI - 1) = false then s.fail .EINVAL
  else
    match s.tables with
    | none => s.fail .EINVAL
    | some tb =>
        let i := shmId.val.toNat
        let shmBuf := tb.shmids i
        if shmBuf.alloc = false ∧ ¬(cmd.isStat = true ∧ super c = true) then s.fail .EINVAL
        else
          match cmd with
          | .IPC_STAT useracc =>
              if ipcLackPerm c shmBuf.shmPerm IRUGO then s.fail .EACCES
              else if useracc = false then s.fail .EFAULT
              else .done s 0 none
          | .IPC_SET uid gid mode =>
              if ipcCredMatch c shmBuf.shmPerm ≠ CRED_OWNER then s.fail .EPERM
              else .done (s.setTables (tb.put i (shmBuf.set uid gid mode))) 0 none
          | .IPC_RMID =>
              if ipcCredMatch c shmBuf.shmPerm ≠ CRED_OWNER then s.fail .EPERM
              else s.ipcRmid tb i
          | .SHM_LOCK | .SHM_UNLOCK => if super c = false then s.fail .EPERM else .done s 0 none
          | .other => s.fail .EINVAL

/-! ### `shmget` -/

/-- The caller of `shmget`, the time, what the memory that `shminit` gets for the tables holds, if
    it gets any, and whether `shmAlloc` gets its memory. -/
structure Ctx where
  cred : Cred
  now : ℕ
  tables : Option Tables
  room : Bool

/-- The allocated entry with the key. -/
def Tables.keyed (tb : Tables) (t : Tune) (shmKey : ℤ) : Option ℕ :=
  (List.range t.SHMMNI).find? fun i =>
    (tb.shmids i).alloc ∧ shmKey ≠ IPC_PRIVATE ∧ (tb.shmids i).shmPerm.key = shmKey

/-- The free entry that was made first. -/
def Tables.oldest (tb : Tables) (t : Tune) : Option ℕ :=
  (List.range t.SHMMNI).foldl
    (keepOlder (fun i => (tb.shmids i).alloc) fun i => (tb.shmids i).shmCtime) none

/-- The segment of `shmAlloc`. -/
def newSeg (bytesWanted : ℕ) : Seg where
  sFlags := SFCORE
  sUrefc := short 1
  sLrefc := short 1
  sSize := ctob (btocru bytesWanted)
  removed := false
  freed := 0

/-- The entry of a new segment: `shm_nattch` stays. -/
def ShmidDs.fill (ds : ShmidDs) (c : Ctx) (i : ℕ) (shmKey : ℤ) (shmSize shmFlag : ℕ) : ShmidDs :=
  let perm := ipcPermInit c.cred shmFlag shmKey i
  { ds with
    shmPerm := if shmKey = IPC_PRIVATE then { perm with mode := perm.mode ||| SHM_DEST } else perm
    shmSegsz := shmSize
    shmCtime := c.now }

/-- `shmAlloc`, and the entry `i` for the segment. -/
def State.create (s : State P) (tb : Tables) (c : Ctx) (i : ℕ) (shmKey : ℤ)
    (shmSize shmFlag : ℕ) : State P :=
  { (s.setSeg s.nsegs (newSeg shmSize)).setTables
      ((tb.put i ((tb.shmids i).fill c i shmKey shmSize shmFlag)).point i (some s.nsegs)) with
    nsegs := s.nsegs + 1 }

/-- `ushmget` once there are tables.  A segment of no page makes `c_alloc` fault. -/
def State.shmSearch (s : State P) (t : Tune) (tb : Tables) (c : Ctx) (shmKey : ℤ)
    (shmSize shmFlag : ℕ) : Outcome P :=
  match tb.keyed t shmKey with
  | some i =>
      if shmFlag &&& (IPC_CREAT ||| IPC_EXCL) = (IPC_CREAT ||| IPC_EXCL) then s.fail .EEXIST
      else if (tb.shmids i).shmSegsz < shmSize then s.fail .EINVAL
      else if ipcLackPerm c.cred (tb.shmids i).shmPerm shmFlag then s.fail .EACCES
      else .done s i none
  | none =>
      match tb.oldest t with
      | none => s.fail .ENOSPC
      | some i =>
          if shmFlag &&& IPC_CREAT = 0 then s.fail .ENOENT
          else if c.room = false then s.fail .ENOSPC
          else if shmSize = 0 then .fault
          else .done (s.create tb c i shmKey shmSize shmFlag) i none

/-- `ushmget`. -/
def State.ushmget (s : State P) (t : Tune) (c : Ctx) (shmKey shmSize : CInt) (shmFlag : ℕ) :
    Outcome P :=
  if inRange 0 shmSize.val t.SHMMAX = false then s.fail .EINVAL
  else
    match s.tables with
    | some tb => s.shmSearch t tb c shmKey.val shmSize.val.toNat shmFlag
    | none =>
        match c.tables with
        | none => s.fail .ENOSPC
        | some tb => (s.setTables tb).shmSearch t tb c shmKey.val shmSize.val.toNat shmFlag

/-! ### `shmat` -/

def NO_OVERLAP : ℕ := 0
def CONTAINS_BASE : ℕ := 1
def CONTAINS_LIMIT : ℕ := 2

/-- `seg_overlap`; the arithmetic is that of `size_t`. -/
def segOverlap (srp : SR) (base : Addr) (len : ℕ) : ℕ :=
  if srp.srSegp = none then 0
  else
    let temp := base - srp.srBase
    (if temp.val < srp.srSize then CONTAINS_BASE else 0) +
      (if (temp + addr len).val ≤ srp.srSize then CONTAINS_LIMIT else 0)

/-- `check_request_address`: whether the address can be used. -/
def State.checkRequestAddress (s : State P) (p : P) (a : Addr) (len : ℕ) : Bool :=
  if a.val > INT_MAX then false
  else
    decide ((∀ i : Fin NUSEG, segOverlap (s.segl p i) a len = NO_OVERLAP) ∧
      ∀ i : Fin NSHMSEG, segOverlap (s.shmsr (p, i)) a len = NO_OVERLAP)

/-- The first element of `p_shmsr` without a segment. -/
def State.freeSlot (s : State P) (p : P) : Option (Fin NSHMSEG) :=
  (List.finRange NSHMSEG).find? fun i => (s.shmsr (p, i)).srSegp = none

/-- The automatic address of an element of `p_shmsr`. -/
def autoAddr (t : Tune) (i : Fin NSHMSEG) : Addr := addr (SHMBASE + i.val * (t.SHMMAX + NBPC))

/-- The address that is chosen, or the requested one if it can be used. -/
def State.attachAddr (s : State P) (t : Tune) (p : P) (shmAddr : Addr) (len : ℕ) : Option Addr :=
  if shmAddr = 0 then
    ((List.finRange NSHMSEG).find? fun i => (s.shmsr (p, i)).srBase = 0).map (autoAddr t)
  else if s.checkRequestAddress p shmAddr len then some shmAddr
  else none

/-- `read_only` of `ushmat`: nothing sets it. -/
def readOnly : Bool := false

/-- `shmAtt` and the entries of `shmids` that follow it. -/
def State.shmAtt (s : State P) (tb : Tables) (i : ℕ) (pi : P × Fin NSHMSEG) (a : Addr) (k : ℕ)
    (m : Made) : State P :=
  (s.refer pi k (attachSr (s.segs k).sSize a k readOnly) m).setTables
    (tb.setNattch i ((s.segs k).addRefs 1).nattch)

/-- The permission that `ushmat` asks for. -/
def shmatMode (shmFlag : ℕ) : ℕ := if shmFlag &&& SHM_RDONLY ≠ 0 then IRUGO else IWUGO

/-- `ushmat` once the identifier is accepted. -/
def State.shmatSlot (s : State P) (t : Tune) (tb : Tables) (p : P) (c : Cred) (i : ℕ)
    (shmAddr : Addr) (shmFlag : ℕ) : Outcome P :=
  let shmId := tb.shmids i
  if ipcLackPerm c shmId.shmPerm (shmatMode shmFlag) then s.fail .EACCES
  else
    match s.freeSlot p with
    | none => s.fail .EMFILE
    | some segId =>
        match s.attachAddr t p shmAddr shmId.shmSegsz with
        | none => s.fail .EINVAL
        | some a =>
            match s.segAt (tb.shmsegs i) with
            | none => .fault
            | some k =>
                .done (s.shmAtt tb i (p, segId) a k
                  ⟨shmFlag, decide (shmAddr ≠ 0), c, shmId.shmPerm⟩)
                  a.val none

/-- `ushmat`. -/
def State.ushmat (s : State P) (t : Tune) (p : P) (c : Cred) (sysId : CInt) (shmAddr : Addr)
    (shmFlag : ℕ) : Outcome P :=
  if inRange 0 sysId.val t.SHMMNI = false then s.fail .EINVAL
  else
    match s.tables with
    | none => .fault
    | some tb =>
        let i := sysId.val.toNat
        if i ≥ t.SHMMNI then .fault
        else if ((tb.shmids i).shmPerm.seq : ℤ) ≠ sysId.val then s.fail .EINVAL
        else s.shmatSlot t tb p c i shmAddr shmFlag

/-! ### `shmdt` -/

/-- The segment of a reference has no entry in `shmsegs`. -/
def State.unlisted (s : State P) (t : Tune) (pi : P × Fin NSHMSEG) : Bool :=
  match (s.shmsr pi).srSegp, s.tables with
  | some k, some tb => (tb.entryOf t k).isNone
  | _, _ => false

/-- `ushmdt`; `shmSetDs` sets the error when it does not find the segment. -/
def State.ushmdt (s : State P) (t : Tune) (p : P) (shmAddr : Addr) : Outcome P :=
  match (List.finRange NSHMSEG).find? fun i => (s.shmsr (p, i)).srBase = shmAddr with
  | none => s.fail .EINVAL
  | some i =>
      .done (s.shmDetachP t (p, i)) 0 (if s.unlisted t (p, i) then some .EINVAL else none)

/-! ### Processes -/

/-- Change the size of a segment of `p_segl`. -/
def State.resize (s : State P) (p : P) (n : Fin NUSEG) (size : ℕ) : State P :=
  { s with segl := Function.update s.segl p (Function.update (s.segl p) n
      { s.segl p n with srSize := size }) }

/-- `ubrk`; `room` says whether `seggrow` succeeds. -/
def State.ubrk (s : State P) (p : P) (cp : Addr) (room : Bool) : Outcome P :=
  let sb := (s.segl p SIPDATA).srBase
  let stackSr := s.segl p SISTACK
  let topOfStack := stackSr.srBase - addr stackSr.srSize
  if cp < sb then s.fail .ENOMEM
  else if btocru cp.val ≥ btocru topOfStack.val then s.fail .ENOMEM
  else if cp = sb ∨ room = false then
    .done s (sb + addr (s.segl p SIPDATA).srSize).val (some .ENOMEM)
  else .done (s.resize p SIPDATA (cp.val - sb.val)) cp.val none

/-- The stack gets a page, for the frame of a signal. -/
def State.growStack (s : State P) (p : P) : State P :=
  s.resize p SISTACK ((s.segl p SISTACK).srSize + NBPC)

/-- `pfork`, when it gets a process and the copies of the segments. -/
def State.pfork (s : State P) (p cp : P) : State P :=
  ({ s with
    live := Function.update s.live cp true
    segl := Function.update s.segl cp (s.segl p) }).shmDup p cp

/-- `pexit`. -/
def State.pexit (s : State P) (t : Tune) (p : P) : State P :=
  { s.shmAllDt t p with
    live := Function.update s.live p false
    segl := Function.update s.segl p fun n =>
      if n = SIUSERP then s.segl p n else { s.segl p n with srSegp := none } }

/-- `pexece`, with the segments of the new image. -/
def State.pexece (s : State P) (t : Tune) (p : P) (segl : Fin NUSEG → SR) : State P :=
  { s.shmAllDt t p with segl := Function.update s.segl p segl }

/-- What a process does; a call carries the credentials that the process has then. -/
inductive Event (P : Type) where
  | shmget (p : P) (c : Ctx) (shmKey shmSize : CInt) (shmFlag : ℕ)
  | shmat (p : P) (c : Cred) (sysId : CInt) (shmAddr : Addr) (shmFlag : ℕ)
  | shmctl (p : P) (c : Cred) (shmId : CInt) (cmd : Cmd)
  | shmdt (p : P) (shmAddr : Addr)
  | brk (p : P) (cp : Addr) (room : Bool)
  | growStack (p : P)
  | fork (p cp : P)
  | exec (p : P) (segl : Fin NUSEG → SR)
  | exit (p : P)

/-- The process that acts. -/
def Event.self : Event P → P
  | .shmget p _ _ _ _ | .shmat p _ _ _ _ | .shmctl p _ _ _ | .shmdt p _ | .brk p _ _
  | .growStack p | .fork p _ | .exec p _ | .exit p => p

/-- What the action ends with. -/
def State.outcome (s : State P) (t : Tune) : Event P → Outcome P
  | .shmget _ c shmKey shmSize shmFlag => s.ushmget t c shmKey shmSize shmFlag
  | .shmat p c sysId shmAddr shmFlag => s.ushmat t p c sysId shmAddr shmFlag
  | .shmctl _ c shmId cmd => s.ushmctl t c shmId cmd
  | .shmdt p shmAddr => s.ushmdt t p shmAddr
  | .brk p cp room => s.ubrk p cp room
  | .growStack p => .done (s.growStack p) 0 none
  | .fork p cp => if s.live cp then s.fail .ENOMEM else .done (s.pfork p cp) 0 none
  | .exec p segl => .done (s.pexece t p segl) 0 none
  | .exit p => .done (s.pexit t p) 0 none

/-- The state after a call. -/
def Outcome.state? : Outcome P → Option (State P)
  | .done s _ _ => some s
  | .fault => none

/-- One step of the system. -/
def step (t : Tune) (s : State P) (e : Event P) : Option (State P) :=
  if s.live e.self then (s.outcome t e).state? else none

/-- No shared memory has been asked for. -/
def Initial (s : State P) : Prop :=
  s.tables = none ∧ s.nsegs = 0 ∧ ∀ pi, s.shmsr pi = SR.none

/-! ### A small system -/

/-- The least values that can be configured. -/
def smallTune : Tune := ⟨10, 4096, by decide, by decide, by decide, by decide⟩

def root : Cred := ⟨0, 0⟩

def emptyPerm : IpcPerm := ⟨0, 0, 0, 0, 0, 0, 0⟩

/-- Clear arrays. -/
def clearTables : Tables := ⟨fun _ => ⟨emptyPerm, 0, 0, 0⟩, fun _ => none⟩

/-- The context of a `shmget` at time `now`. -/
def getCtx (now : ℕ) : Ctx := ⟨root, now, some clearTables, true⟩

/-- The segments of a program with a page each of text and data, and a page of stack. -/
def smallImage (n : Fin NUSEG) : SR :=
  if n = SIUSERP then ⟨0, addr 0xfffff000, 4096, some 0⟩
  else if n = SISTEXT then ⟨1, addr 0, 4096, some 1⟩
  else if n = SIPDATA then ⟨7, addr 0x400000, 4096, some 2⟩
  else ⟨7, addr 0x80000000, 4096, some 3⟩

/-- Process `p` is alone. -/
def alone (p : P) : State P where
  tables := none
  segs := fun _ => newSeg 0
  nsegs := 0
  live := fun q => decide (q = p)
  segl := fun _ => smallImage
  shmsr := fun _ => SR.none
  made := fun _ => ⟨0, false, root, emptyPerm⟩

theorem alone_initial (p : P) : Initial (alone p) := ⟨rfl, rfl, fun _ => rfl⟩

end CohKernel.Shm
