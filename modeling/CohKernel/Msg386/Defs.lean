import CohKernel.Lib.Machine
import CohKernel.Lib.Runs
import CohKernel.Ipc.Perm

namespace CohKernel.Msg386

open CohKernel.Lib CohKernel.Ipc

/-!
# Message queues

`umsgget`, `umsgsnd`, `umsgrcv` and `umsgctl` of `msg386.c`.  The list from `msg_first` over
`msg_next` is a list of messages with their addresses, so that `msg_last` can be compared with
them.  A call runs in one step up to its end or its sleep; `umsgsndWake` and `umsgrcvWake` are the
steps that a sleeper makes when it wakes up.  A call that finds the gate of its queue locked, that
asks `kalloc` for no bytes (a panic), or that finds no queue table has no step.
-/

/-! ### Data -/

/-- The number of queues, in the range that `mtune` admits. -/
structure Tune where
  NMSQID : ℕ
  nmsqid_pos : 1 ≤ NMSQID
  nmsqid_le : NMSQID ≤ 400

/-- The maximum number of messages per queue. -/
def NMSG : ℕ := 50

/-- The maximum size of a message text. -/
def NMSC : ℕ := 2048

def MSG_RWAIT : ℕ := 0o1000
def MSG_WWAIT : ℕ := 0o2000
def MSG_NOERROR : ℕ := 0o10000

/-- `struct msg`, with its address. -/
structure Msg where
  addr : ℕ
  msgType : ℤ
  msgTs : Ushort
  msgSpot : ℕ
deriving DecidableEq

/-- `struct msqid_ds`. -/
structure MsqidDs where
  msgPerm : IpcPerm
  msgs : List Msg
  msgLast : Option ℕ
  msgCbytes : Ushort
  msgQnum : Ushort
  msgQbytes : Ushort
  msgLspid : ℕ
  msgLrpid : ℕ
  msgStime : ℕ
  msgRtime : ℕ
  msgCtime : ℕ

/-- The queues, their gates, the message map with the texts it points to, and `NMSQB`. -/
structure Tables (t : Tune) where
  msqs : ℕ → MsqidDs
  gate : ℕ → Bool
  msgMap : ℕ → Option (List ℕ)
  NMSQB : ℕ

/-- `errno` values. -/
inductive Errno where
  | EINVAL
  | EPERM
  | EACCES
  | EEXIST
  | ENOENT
  | ENOSPC
  | EAGAIN
  | EINTR
  | EFAULT
  | ENOMSG
  | E2BIG
deriving DecidableEq, Repr

/-- What a call or a wake-up ends with. -/
inductive Outcome where
  | done (retval : ℤ) (err : Option Errno)
  | sleep
deriving DecidableEq

/-- The outcome, the queue that is woken, and the tables. -/
structure Result (t : Tune) where
  outcome : Outcome
  woken : Option ℕ
  tables : Tables t

/-- The calling process, and what the rest of the kernel does in the call: `kMsg` and `kText` are
    the results of `kalloc` for a header and a text, `faultType` and `faultText` those of the
    copies. -/
structure Ctx where
  self : ℕ
  cred : Cred
  now : ℕ
  kMsg : Option ℕ
  kText : Bool
  faultType : Bool
  faultText : Bool

variable {t : Tune}

/-- `__IPC_ALLOC` is set. -/
def MsqidDs.alloc (qp : MsqidDs) : Bool := decide (qp.msgPerm.mode &&& IPC_ALLOC ≠ 0)

/-- Change a queue. -/
def Tables.put (s : Tables t) (i : ℕ) (qp : MsqidDs) : Tables t :=
  { s with msqs := Function.update s.msqs i qp }

/-- Lock or unlock a gate. -/
def Tables.lock (s : Tables t) (i : ℕ) (b : Bool) : Tables t :=
  { s with gate := Function.update s.gate i b }

/-- A call that fails. -/
def Tables.fail (s : Tables t) (e : Errno) : Result t := ⟨.done (-1) (some e), none, s⟩

/-- Set or clear a bit of the mode. -/
def MsqidDs.setMode (qp : MsqidDs) (mode : ℕ) : MsqidDs :=
  { qp with msgPerm := { qp.msgPerm with mode := mode } }

/-! ### `msgget` -/

/-- What the memory that `msginit` gets from `kalloc` holds where it stores nothing: the map,
    which it means to clear, and the owners of the queues. -/
structure InitMem where
  map : ℕ → Option (List ℕ)
  perm : ℕ → IpcPerm

/-- `msginit`.  The arguments of `memset` are swapped: no byte of the map is cleared. -/
def msginit (t : Tune) (mem : InitMem) (NMSQB now : ℕ) : Tables t where
  msqs := fun i =>
    { msgPerm := { mem.perm i with seq := i, mode := 0 }
      msgs := []
      msgLast := none
      msgCbytes := 0
      msgQnum := 0
      msgQbytes := ushort NMSQB
      msgLspid := 0
      msgLrpid := 0
      msgStime := 0
      msgRtime := 0
      msgCtime := now }
  gate := fun _ => false
  msgMap := mem.map
  NMSQB := NMSQB

/-- The allocated queue with the key. -/
def Tables.keyed (s : Tables t) (mykey : ℤ) : Option ℕ :=
  (List.range t.NMSQID).find? fun i =>
    (s.msqs i).alloc ∧ mykey ≠ IPC_PRIVATE ∧ (s.msqs i).msgPerm.key = mykey

/-- The free queue that was changed first. -/
def Tables.oldestFree (s : Tables t) : Option ℕ :=
  (List.range t.NMSQID).foldl (fun freeidp i =>
    if (s.msqs i).alloc then freeidp
    else
      match freeidp with
      | none => some i
      | some j => if (s.msqs j).msgCtime > (s.msqs i).msgCtime then some i else some j) none

/-- `umsgget`. -/
def Tables.umsgget (s : Tables t) (c : Ctx) (mykey : ℤ) (msgflg : ℕ) : Result t :=
  match s.keyed mykey with
  | some i =>
      if msgflg &&& (IPC_CREAT ||| IPC_EXCL) = (IPC_CREAT ||| IPC_EXCL) then s.fail .EEXIST
      else if ipcLackPerm c.cred (s.msqs i).msgPerm msgflg then s.fail .EACCES
      else ⟨.done (s.msqs i).msgPerm.seq none, none, s⟩
  | none =>
      if msgflg &&& IPC_CREAT = 0 then s.fail .ENOENT
      else
        match s.oldestFree with
        | none => s.fail .ENOSPC
        | some i =>
            let qp := s.msqs i
            let qp := { qp with
              msgPerm := ipcPermInit c.cred msgflg mykey qp.msgPerm.seq
              msgCtime := c.now, msgQnum := 0, msgLspid := 0, msgLrpid := 0, msgStime := 0
              msgRtime := 0 }
            ⟨.done qp.msgPerm.seq none, none, s.put i qp⟩

/-! ### `msgctl` -/

/-- What `IPC_SET` reads of the user's `struct msqid_ds`. -/
structure SetBuf where
  uid : ℕ
  gid : ℕ
  mode : ℕ
  qbytes : Ushort

/-- `cmd` and `buf` of `msgctl`; the buffer of `IPC_SET` may be unreadable. -/
inductive Cmd where
  | IPC_STAT
  | IPC_SET (buf : Option SetBuf)
  | IPC_RMID
  | other

/-- `msgfree` of every message of a queue: its slots of the map. -/
def freeSpots (map : ℕ → Option (List ℕ)) (msgs : List Msg) : ℕ → Option (List ℕ) :=
  fun k => if ∃ mp ∈ msgs, mp.msgSpot = k then none else map k

/-- `umsgctl` names the queue `qid % NMSQID`, if its id is `qid` and it is allocated; only the
    super-user's `IPC_STAT` takes what it finds there. -/
def Tables.ctlSlot (s : Tables t) (c : Ctx) (qid : ℤ) (cmd : Cmd) : Option ℕ :=
  if qid < 0 then none
  else
    let i := qid.toNat % t.NMSQID
    let qp := s.msqs i
    if ((qp.msgPerm.seq : ℤ) ≠ qid ∨ qp.alloc = false) ∧
        ¬(cmd matches .IPC_STAT ∧ super c.cred = true) then none
    else some i

/-- `IPC_SET` on a queue. -/
def Tables.ipcSet (s : Tables t) (c : Ctx) (i : ℕ) (buf : Option SetBuf) : Result t :=
  let qp := s.msqs i
  if ipcCredMatch c.cred qp.msgPerm ≠ CRED_OWNER then s.fail .EPERM
  else
    match buf with
    | none => s.fail .EFAULT
    | some temp =>
        if temp.qbytes > qp.msgQbytes ∧ super c.cred = false then s.fail .EPERM
        else
          let mode := clearBits qp.msgPerm.mode IRWXUGO ||| (temp.mode &&& IRWXUGO)
          let qp := { qp with
            msgPerm := { qp.msgPerm with uid := temp.uid, gid := temp.gid, mode := mode }
            msgQbytes := temp.qbytes }
          ⟨.done 0 none, none, { s.put i qp with NMSQB := temp.qbytes.val }⟩

/-- `IPC_RMID` on a queue. -/
def Tables.ipcRmid (s : Tables t) (c : Ctx) (i : ℕ) : Result t :=
  let qp := s.msqs i
  if ipcCredMatch c.cred qp.msgPerm ≠ CRED_OWNER then s.fail .EPERM
  else
    let perm := { qp.msgPerm with mode := 0, seq := (ushort (qp.msgPerm.seq + 50)).val }
    let map := freeSpots s.msgMap qp.msgs
    let qp := { qp with
      msgPerm := perm, msgs := [], msgLast := none, msgQnum := 0, msgCbytes := 0
      msgCtime := c.now }
    ⟨.done 0 none, none, { s.put i qp with msgMap := map }⟩

/-- `umsgctl`. -/
def Tables.umsgctl (s : Tables t) (c : Ctx) (qid : ℤ) (cmd : Cmd) : Result t :=
  match s.ctlSlot c qid cmd with
  | none => s.fail .EINVAL
  | some i =>
      match cmd with
      | .IPC_STAT =>
          if ipcLackPerm c.cred (s.msqs i).msgPerm IRUGO then s.fail .EACCES
          else ⟨.done 0 none, none, s⟩
      | .IPC_SET buf => s.ipcSet c i buf
      | .IPC_RMID => s.ipcRmid c i
      | .other => s.fail .EINVAL

/-! ### `msgsnd` -/

/-- The user's message. -/
structure UserMsg where
  mtype : ℤ
  mtext : List ℕ

/-- The queue that `umsgsnd` finds: the first one with that id, allocated or not. -/
def Tables.sndSlot (s : Tables t) (qid : ℤ) : Option ℕ :=
  (List.range t.NMSQID).find? fun i => ((s.msqs i).msgPerm.seq : ℤ) = qid

/-- The first free slot of the message map. -/
def Tables.freeSpot (s : Tables t) : Option ℕ :=
  (List.range (t.NMSQID * NMSG)).find? fun k => (s.msgMap k).isNone

/-- No room for the message. -/
def MsqidDs.full (qp : MsqidDs) (msgsz : ℕ) : Prop :=
  qp.msgQnum.val ≥ NMSG ∨ qp.msgQbytes.val < qp.msgCbytes.val + msgsz

instance (qp : MsqidDs) (msgsz : ℕ) : Decidable (qp.full msgsz) :=
  inferInstanceAs (Decidable (_ ∨ _))

/-- A queue with one more message. -/
def MsqidDs.append (qp : MsqidDs) (c : Ctx) (mp : Msg) : MsqidDs :=
  { qp with
    msgs := qp.msgs ++ [mp]
    msgLast := some mp.addr
    msgCbytes := ushort (qp.msgCbytes.val + mp.msgTs.val)
    msgQnum := ushort (qp.msgQnum.val + 1)
    msgLspid := c.self
    msgStime := c.now }

/-- The rest of `umsgsnd` when there is room; the gate is locked. -/
def Tables.enqueue (s : Tables t) (c : Ctx) (i : ℕ) (m : UserMsg) (msgsz : ℕ) :
    Option (Result t) :=
  match s.freeSpot with
  -- this exit leaves the gate locked
  | none => some (s.fail .ENOSPC)
  | some spot =>
      match c.kMsg with
      | none => some ((s.lock i false).fail .ENOSPC)
      | some addr =>
          if msgsz = 0 then none
          else if c.kText = false then some ((s.lock i false).fail .ENOSPC)
          else if c.faultType ∨ c.faultText then some ((s.lock i false).fail .EFAULT)
          else
            let mp : Msg := { addr := addr, msgType := m.mtype, msgTs := ushort msgsz,
                              msgSpot := spot }
            let qp := (s.msqs i).append c mp
            let woken := qp.msgPerm.mode &&& MSG_RWAIT ≠ 0
            let qp := if woken then qp.setMode (clearBits qp.msgPerm.mode MSG_RWAIT) else qp
            let s := { (s.lock i false).put i qp with
              msgMap := Function.update s.msgMap spot (some (m.mtext.take msgsz)) }
            some ⟨.done 0 none, if woken then some i else none, s⟩

/-- The loop of `umsgsnd` from the locking of the gate on, up to the end or the sleep. -/
def Tables.sndLoop (s : Tables t) (c : Ctx) (i : ℕ) (m : UserMsg) (msgsz msgflg : ℕ) :
    Option (Result t) :=
  if s.gate i then none
  else if (s.msqs i).full msgsz then
    if msgflg &&& IPC_NOWAIT ≠ 0 then some (s.fail .EAGAIN)
    else
      let qp := s.msqs i
      some ⟨.sleep, none, s.put i (qp.setMode (qp.msgPerm.mode ||| MSG_WWAIT))⟩
  else (s.lock i true).enqueue c i m msgsz

/-- `umsgsnd`, up to its end or its sleep. -/
def Tables.umsgsnd (s : Tables t) (c : Ctx) (qid : ℤ) (m : UserMsg) (msgsz : ℤ) (msgflg : ℕ) :
    Option (Result t) :=
  match s.sndSlot qid with
  | none => some (s.fail .EINVAL)
  | some i =>
      if ipcLackPerm c.cred (s.msqs i).msgPerm IWUGO then some (s.fail .EACCES)
      else if m.mtype < 1 ∨ msgsz < 0 ∨ msgsz > NMSC ∨ msgsz > s.NMSQB then some (s.fail .EINVAL)
      else s.sndLoop c i m msgsz.toNat msgflg

/-- `umsgsnd` after its sleep on queue `i`. -/
def Tables.umsgsndWake (s : Tables t) (c : Ctx) (i : ℕ) (qid : ℤ) (m : UserMsg) (msgsz msgflg : ℕ)
    (signalled : Bool) : Option (Result t) :=
  if signalled then some (s.fail .EINTR)
  else if qid ≠ (s.msqs i).msgPerm.seq then some (s.fail .EINVAL)
  else s.sndLoop c i m msgsz msgflg

/-! ### `msgrcv` -/

/-- Negation of a `long`. -/
def negLong (z : ℤ) : ℤ := if z = -2 ^ 31 then z else -z

/-- The scan for the lowest type not above `msgtyp`, from position `k` on; `qmin` is the best one
    so far. -/
def lowest (msgtyp : ℤ) : ℕ → Option (ℕ × Msg) → List Msg → Option (ℕ × Msg)
  | _, qmin, [] => qmin
  | k, qmin, mp :: rest =>
      if mp.msgType > msgtyp then lowest msgtyp (k + 1) qmin rest
      else
        match qmin with
        | none => lowest msgtyp (k + 1) (some (k, mp)) rest
        | some (j, q) =>
            if mp.msgType < q.msgType then lowest msgtyp (k + 1) (some (k, mp)) rest
            else lowest msgtyp (k + 1) (some (j, q)) rest

/-- The position of the message that `umsgrcv` takes, and the message. -/
def select (msgtyp : ℤ) (msgs : List Msg) : Option (ℕ × Msg) :=
  if msgtyp < 0 then lowest (negLong msgtyp) 0 none msgs
  else if msgtyp > 0 then
    (msgs.findIdx? fun mp => mp.msgType = msgtyp).bind fun k => msgs[k]?.map fun mp => (k, mp)
  else msgs.head?.map fun mp => (0, mp)

/-- A queue without the message `mp` at position `k`. -/
def MsqidDs.remove (qp : MsqidDs) (c : Ctx) (k : ℕ) (mp : Msg) : MsqidDs :=
  { qp with
    msgs := qp.msgs.eraseIdx k
    msgLast :=
      if qp.msgLast = some mp.addr then
        if k = 0 then none else qp.msgs[k - 1]?.map (·.addr)
      else qp.msgLast
    msgCbytes := ushort (qp.msgCbytes.val - mp.msgTs.val)
    msgQnum := ushort (qp.msgQnum.val - 1)
    msgLrpid := c.self
    msgRtime := c.now }

/-- The rest of `umsgrcv` when there is a message. -/
def Tables.dequeue (s : Tables t) (c : Ctx) (i k : ℕ) (mp : Msg) (msgsz : ℤ) (msgflg : ℕ) :
    Result t :=
  if msgsz < mp.msgTs.val ∧ msgflg &&& MSG_NOERROR = 0 then s.fail .E2BIG
  else
    let msgsz := if msgsz > mp.msgTs.val then (mp.msgTs.val : ℤ) else msgsz
    if c.faultType ∨ c.faultText then s.fail .EFAULT
    else
      let qp := (s.msqs i).remove c k mp
      let woken := qp.msgPerm.mode &&& MSG_WWAIT ≠ 0
      let qp := if woken then qp.setMode (clearBits qp.msgPerm.mode MSG_WWAIT) else qp
      let s := { s.put i qp with msgMap := Function.update s.msgMap mp.msgSpot none }
      ⟨.done msgsz none, if woken then some i else none, s⟩

/-- The loop of `umsgrcv` from the locking of the gate on, up to the end or the sleep. -/
def Tables.rcvLoop (s : Tables t) (c : Ctx) (i : ℕ) (msgsz msgtyp : ℤ) (msgflg : ℕ) :
    Option (Result t) :=
  if s.gate i then none
  else
    match select msgtyp (s.msqs i).msgs with
    | some (k, mp) => some (s.dequeue c i k mp msgsz msgflg)
    | none =>
        if msgflg &&& IPC_NOWAIT ≠ 0 then some (s.fail .ENOMSG)
        else
          let qp := s.msqs i
          some ⟨.sleep, none, s.put i (qp.setMode (qp.msgPerm.mode ||| MSG_RWAIT))⟩

/-- The queue that `umsgrcv` names. -/
def Tables.rcvSlot (s : Tables t) (qid : ℤ) : Option ℕ :=
  if qid < 0 then none
  else
    let i := qid.toNat % t.NMSQID
    if ((s.msqs i).msgPerm.seq : ℤ) ≠ qid ∨ (s.msqs i).alloc = false then none else some i

/-- `umsgrcv`, up to its end or its sleep. -/
def Tables.umsgrcv (s : Tables t) (c : Ctx) (qid msgsz msgtyp : ℤ) (msgflg : ℕ) :
    Option (Result t) :=
  match s.rcvSlot qid with
  | none => some (s.fail .EINVAL)
  | some i =>
      if ipcLackPerm c.cred (s.msqs i).msgPerm IRUGO then some (s.fail .EACCES)
      else s.rcvLoop c i msgsz msgtyp msgflg

/-- `umsgrcv` after its sleep on queue `i`. -/
def Tables.umsgrcvWake (s : Tables t) (c : Ctx) (i : ℕ) (qid msgsz msgtyp : ℤ) (msgflg : ℕ)
    (signalled : Bool) : Option (Result t) :=
  if signalled then some (s.fail .EINTR)
  else if qid ≠ (s.msqs i).msgPerm.seq then some (s.fail .EINVAL)
  else s.rcvLoop c i msgsz msgtyp msgflg

end CohKernel.Msg386
