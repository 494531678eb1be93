import CohKernel.Lib.Bytes
import CohKernel.Lib.Ring
import CohKernel.Lib.Runs

namespace CohKernel.Pipe

open CohKernel.Lib

/-!
# Pipes

`pipe.c`, and the part of `uchsize` of `sys5.c` that changes a pipe: the processes that open, close,
read, write and resize one pipe.  The data of a pipe is a ring in the first `PIPE_MAX` bytes of its
file.  Every call locks the inode, and `psleep` unlocks it for the time of the sleep, so a step is
what a process does from one sleep to the next; `fread` and `fwrite` sleep with the inode locked.
-/

/-- The size of the ring. -/
def PIPE_MAX : ℤ := 5120

/-! ### Data -/

/-- What a process waits for: a reader, or a writer. -/
inductive Who where
  | IFWFR
  | IFWFW
deriving DecidableEq

/-- A file table entry that is open on the pipe, or is being opened: its modes `IPR` and `IPW`. -/
structure File where
  id : ℕ
  ipr : Bool
  ipw : Bool
deriving DecidableEq

/-- `io_flag`: `IONDLY` and `IONONBLOCK`. -/
structure Flag where
  ionDly : Bool
  ionNonblock : Bool
deriving DecidableEq

/-- The part of a call that is left when it sleeps in `psleep`; `pwrite` is the call number `c`,
    with the bytes that it has not written. -/
inductive Call where
  | popenR
  | popenW
  | pread (ioc : ℤ) (flag : Flag)
  | pwrite (c : ℕ) (data : List Byte) (flag : Flag)
deriving DecidableEq

/-- The argument of `psleep`. -/
def Call.who : Call → Who
  | .popenR | .pread _ _ => .IFWFW
  | .popenW | .pwrite _ _ _ => .IFWFR

/-- What a process does.  It sleeps in `psleep`, has been woken and has not run yet, or waits for
    the lock at the end of `psleep`; or it is in `fread` or `fwrite` of `n` bytes. -/
inductive Phase where
  | idle
  | asleep (f : File) (call : Call)
  | woken (sig : Bool) (f : File) (call : Call)
  | locking (sig : Bool) (f : File) (call : Call)
  | reading (f : File) (ioc n : ℤ)
  | writing (f : File) (c : ℕ) (data : List Byte) (flag : Flag) (n : ℤ)
deriving DecidableEq

/-- The inode of a pipe: `i_size`, and the counts.  The counts of awake processes can be negative,
    when several processes sleep on one file table entry. -/
structure Inode where
  iSize : ℤ
  iPnc : ℤ
  iPrx : ℤ
  iPwx : ℤ
  iPar : ℤ
  iPaw : ℤ
  iPsr : ℤ
  iPsw : ℤ
deriving DecidableEq

/-- The pipe, and the processes.  `file` are the bytes of its file, `lock` is the process that has
    the inode locked while it sleeps.  What no step looks at: `data` are the bytes of each call of
    `pwrite`, `calls` is the number of these calls, `accepted` are the bytes that have been put
    into the pipe, with the number of the call, `delivered` are those that have been taken out of
    it, `stream` are the accepted bytes but for those that `pclear` has thrown away, and `lost` is
    the number of these. -/
structure System (P : Type*) where
  ip : Inode
  file : ℕ → Byte
  files : List File
  phase : P → Phase
  lock : Option P
  data : ℕ → List Byte
  calls : ℕ
  accepted : List (ℕ × Byte)
  delivered : List Byte
  stream : List Byte
  lost : ℕ

variable {P : Type*} [DecidableEq P]

/-! ### Sleeping and waking -/

/-- `! ip->i_par && ! ip->i_psr`. -/
def Inode.noReaders (ip : Inode) : Prop := ip.iPar = 0 ∧ ip.iPsr = 0

/-- `! ip->i_paw && ! ip->i_psw`. -/
def Inode.noWriters (ip : Inode) : Prop := ip.iPaw = 0 ∧ ip.iPsw = 0

instance (ip : Inode) : Decidable ip.noReaders := inferInstanceAs (Decidable (_ ∧ _))
instance (ip : Inode) : Decidable ip.noWriters := inferInstanceAs (Decidable (_ ∧ _))

/-- `wakeup`, for one process. -/
def Phase.wake (who : Who) : Phase → Phase
  | .asleep f call => if call.who = who then .woken false f call else .asleep f call
  | ph => ph

/-- `pwake`, without the polling. -/
def System.pwake (m : System P) (who : Who) : System P :=
  match who with
  | .IFWFW =>
      if m.ip.iPsr ≠ 0 then { m with phase := fun p => (m.phase p).wake .IFWFW } else m
  | .IFWFR =>
      if m.ip.iPsw ≠ 0 then { m with phase := fun p => (m.phase p).wake .IFWFR } else m

/-- `psleep` up to the sleep. -/
def System.psleep (m : System P) (p : P) (f : File) (call : Call) : System P :=
  { m with
    ip := match call.who with
      | .IFWFW => { m.ip with iPar := m.ip.iPar - 1, iPsr := m.ip.iPsr + 1 }
      | .IFWFR => { m.ip with iPaw := m.ip.iPaw - 1, iPsw := m.ip.iPsw + 1 }
    phase := Function.update m.phase p (.asleep f call) }

/-- `psleep` from the end of the sleep to `ilock`. -/
def System.wokenUp (m : System P) (p : P) (sig : Bool) (f : File) (call : Call) : System P :=
  { m with
    ip := match call.who with
      | .IFWFW => { m.ip with iPar := m.ip.iPar + 1, iPsr := m.ip.iPsr - 1 }
      | .IFWFR => { m.ip with iPaw := m.ip.iPaw + 1, iPsw := m.ip.iPsw - 1 }
    phase := Function.update m.phase p (.locking sig f call) }

/-- The process `p` goes to sleep in `fread` or `fwrite`, with the inode locked. -/
def System.hold (m : System P) (p : P) (ph : Phase) : System P :=
  { m with lock := some p, phase := Function.update m.phase p ph }

/-- The process `p` runs, and does not sleep any more. -/
def System.runs (m : System P) (p : P) : System P :=
  { m with lock := none, phase := Function.update m.phase p .idle }

/-! ### Opening and closing -/

/-- `pclear`. -/
def System.pclear (m : System P) : System P :=
  { m with
    ip := { m.ip with iPnc := 0, iPrx := 0, iPwx := 0, iPar := 0, iPaw := 0, iPsr := 0, iPsw := 0 }
    stream := m.stream.take m.delivered.length
    lost := m.lost + (m.stream.length - m.delivered.length) }

/-- One more file table entry. -/
def System.opened (m : System P) (f : File) : System P :=
  { m with
    ip := { m.ip with
      iPar := if f.ipr = true then m.ip.iPar + 1 else m.ip.iPar
      iPaw := if f.ipw = true then m.ip.iPaw + 1 else m.ip.iPaw }
    files := f :: m.files }

/-- One file table entry less. -/
def System.closed (m : System P) (f : File) : System P :=
  { m with
    ip := { m.ip with
      iPar := if f.ipr = true then m.ip.iPar - 1 else m.ip.iPar
      iPaw := if f.ipw = true then m.ip.iPaw - 1 else m.ip.iPaw }
    files := m.files.erase f }

/-- The loop of `popen` for reading, from its test on. -/
def System.popenR (m : System P) (p : P) (f : File) (ipNdly : Bool) : System P :=
  if m.ip.noWriters ∧ ipNdly = false then m.psleep p f .popenR else m.pwake .IFWFR

/-- `popen`; a call with `IPNDLY` or `IPNONBLOCK` that would have to wait for a reader fails. -/
def System.popen (m : System P) (p : P) (f : File) (ipNdly : Bool) : System P :=
  match f.ipr, f.ipw with
  | true, false => (m.opened f).popenR p f ipNdly
  | false, true =>
      if m.ip.noReaders then
        if ipNdly = true then m else (m.opened f).psleep p f .popenW
      else (m.opened f).pwake .IFWFW
  | true, true => ((m.opened f).pwake .IFWFW).pwake .IFWFR
  | false, false => m.opened f

/-- `pclose`; `none` stands for `panic`. -/
def System.pclose (m : System P) (f : File) : Option (System P) :=
  let m := ((m.pwake .IFWFR).pwake .IFWFW).closed f
  if f.ipr = true ∧ m.ip.iPar < 0 ∨ f.ipw = true ∧ m.ip.iPaw < 0 then none
  else if m.ip.noWriters ∧ m.ip.noReaders then some m.pclear
  else some m

/-! ### Reading -/

/-- The loop of `pread` that transfers, from its test to the next `fread` or to the end. -/
def System.readLoop (m : System P) (p : P) (f : File) (ioc : ℤ) (err : Bool) : System P :=
  if err = false ∧ ioc > 0 ∧ m.ip.iPnc > 0 then
    let n := if PIPE_MAX - m.ip.iPrx > ioc then ioc else PIPE_MAX - m.ip.iPrx
    let n := if n > m.ip.iPnc then m.ip.iPnc else n
    m.hold p (.reading f ioc n)
  else if m.ip.iPnc < PIPE_MAX then m.pwake .IFWFR
  else m

/-- `pread`, from the test for an empty pipe on. -/
def System.pread (m : System P) (p : P) (f : File) (ioc : ℤ) (flag : Flag) : System P :=
  if m.ip.iPnc = 0 then
    if flag.ionDly = true then m
    else if m.ip.noWriters then m
    else if flag.ionNonblock = true then m
    else m.psleep p f (.pread ioc flag)
  else m.readLoop p f ioc false

/-- `iread`. -/
def System.iread (m : System P) (p : P) (f : File) (ioc : ℕ) (flag : Flag) : System P :=
  if ioc = 0 then m else m.pread p f ioc flag

/-- The number of bytes that `fread` has to deliver. -/
def Inode.readable (ip : Inode) (n : ℤ) : ℤ :=
  if ip.iPrx > ip.iSize then 0 else if ip.iSize - ip.iPrx > n then n else ip.iSize - ip.iPrx

/-- `fread` has delivered `k` bytes. -/
def System.taken (m : System P) (k : ℕ) : System P :=
  let prx := if m.ip.iPrx + k = PIPE_MAX then 0 else m.ip.iPrx + k
  let pnc := m.ip.iPnc - k
  { m with
    ip := { m.ip with
      iPnc := pnc
      iPrx := if pnc = 0 then 0 else prx
      iPwx := if pnc = 0 then 0 else m.ip.iPwx }
    delivered := m.delivered ++ (List.range k).map fun i => m.file (m.ip.iPrx.toNat + i) }

/-! ### Writing -/

/-- The loop of `pwrite`, from its test to the next `fwrite`, to a sleep or to the end. -/
def System.writeLoop (m : System P) (p : P) (f : File) (c : ℕ) (data : List Byte) (flag : Flag)
    (err : Bool) : System P :=
  let ioc : ℤ := data.length
  if err = false ∧ ioc > 0 then
    if m.ip.noReaders then m
    else
      let n := if PIPE_MAX - m.ip.iPwx > ioc then ioc else PIPE_MAX - m.ip.iPwx
      let n := if n > PIPE_MAX - m.ip.iPnc then PIPE_MAX - m.ip.iPnc else n
      if n = 0 ∨ ioc ≤ PIPE_MAX ∧ n ≠ ioc then
        if flag.ionDly = true then m
        else if flag.ionNonblock = true then m
        else m.psleep p f (.pwrite c data flag)
      else m.hold p (.writing f c data flag n)
  else m

/-- `fwrite` has stored `k` bytes. -/
def System.put (m : System P) (c : ℕ) (data : List Byte) (k : ℕ) : System P :=
  let pwx := m.ip.iPwx + k
  { m with
    ip := { m.ip with
      iSize := if 0 < k ∧ pwx > m.ip.iSize then pwx else m.ip.iSize
      iPnc := m.ip.iPnc + k
      iPwx := if pwx = PIPE_MAX then 0 else pwx }
    file := store m.file m.ip.iPwx.toNat data k 0
    accepted := m.accepted ++ (data.take k).map fun x => (c, x)
    stream := m.stream ++ data.take k }

/-- The end of a turn of the loop of `pwrite`. -/
def System.stored (m : System P) (c : ℕ) (data : List Byte) (k : ℕ) : System P :=
  let m := m.put c data k
  if m.ip.iPnc > 0 then m.pwake .IFWFW else m

/-- One more call of `pwrite`. -/
def System.called (m : System P) (data : List Byte) : System P :=
  { m with data := Function.update m.data m.calls data, calls := m.calls + 1 }

/-! ### Changing the size -/

/-- The counts of a pipe whose size is changed. -/
def Inode.resize (ip : Inode) (size : ℤ) : Inode :=
  let pwx := ip.iPwx + (size - ip.iPnc)
  let pwx :=
    if size > ip.iPnc then if pwx ≥ PIPE_MAX then pwx - PIPE_MAX else pwx
    else if size < ip.iPnc then if pwx < 0 then pwx + PIPE_MAX else pwx
    else pwx
  { ip with iPwx := pwx, iPnc := size }

/-- `uchsize` of a file table entry that is open on the pipe. -/
def System.uchsize (m : System P) (f : File) (size : ℤ) : System P :=
  if size < 0 then m
  else if f.ipw = false then m
  else if size > PIPE_MAX then m
  else if m.ip.noReaders then m
  else
    let m := { m with ip := m.ip.resize size }
    let m := if size > 0 then m.pwake .IFWFW else m
    if size < PIPE_MAX then m.pwake .IFWFR else m

/-! ### Steps -/

/-- What happens next: a process makes a call, gets a signal in its sleep, goes on after the sleep,
    gets the lock, or gets to the end of `fread` or `fwrite` after `k` bytes; `err` says whether
    that has set an error. -/
inductive Event (P : Type*) where
  | popen (p : P) (f : File) (ipNdly : Bool)
  | pclose (p : P) (f : File)
  | pread (p : P) (f : File) (ioc : ℕ) (flag : Flag)
  | pwrite (p : P) (f : File) (data : List Byte) (flag : Flag)
  | uchsize (p : P) (f : File) (size : ℤ)
  | signal (p : P)
  | run (p : P) (sig : Bool)
  | lock (p : P)
  | transfer (p : P) (k : ℕ) (err : Bool)

/-- The file table entry of a call. -/
def Phase.file : Phase → Option File
  | .idle => none
  | .asleep f _ | .woken _ f _ | .locking _ f _ | .reading f _ _ | .writing f _ _ _ _ => some f

/-- The process is in `popen`. -/
def Phase.opens : Phase → Bool
  | .asleep _ .popenR | .asleep _ .popenW | .woken _ _ .popenR | .woken _ _ .popenW
  | .locking _ _ .popenR | .locking _ _ .popenW => true
  | _ => false

/-- A process can make a call, which locks the inode. -/
def System.free (m : System P) (p : P) : Prop := m.phase p = .idle ∧ m.lock = none

/-- A file table entry that `popen` is done with. -/
def System.usable (m : System P) (f : File) : Prop :=
  f ∈ m.files ∧ ∀ q, (m.phase q).file = some f → (m.phase q).opens = false

instance (m : System P) (p : P) : Decidable (m.free p) := inferInstanceAs (Decidable (_ ∧ _))

instance [Fintype P] (m : System P) (f : File) : Decidable (m.usable f) :=
  inferInstanceAs (Decidable (_ ∧ _))

/-- `psleep` has ended, with the inode locked. -/
def System.goOn (m : System P) (p : P) (sig : Bool) (f : File) : Call → System P
  | .popenR =>
      if sig = true then m.closed f
      else if m.ip.iPnc ≠ 0 then m.pwake .IFWFR
      else m.popenR p f false
  | .popenW => if sig = true then m.closed f else m.pwake .IFWFW
  | .pread ioc flag => if sig = true then m else m.pread p f ioc flag
  | .pwrite c data flag => if sig = true then m else m.writeLoop p f c data flag false

/-- A step.  A file table entry is not closed while a process is in a call on it. -/
def System.step [Fintype P] (m : System P) : Event P → Option (System P)
  | .popen p f ipNdly =>
      if m.free p ∧ f ∉ m.files then some (m.popen p f ipNdly) else none
  | .pclose p f =>
      if m.free p ∧ f ∈ m.files ∧ ∀ q, (m.phase q).file ≠ some f then m.pclose f else none
  | .pread p f ioc flag =>
      if m.free p ∧ m.usable f ∧ f.ipr = true then some (m.iread p f ioc flag) else none
  | .pwrite p f data flag =>
      if m.free p ∧ m.usable f ∧ f.ipw = true then
        some ((m.called data).writeLoop p f m.calls data flag false)
      else none
  | .uchsize p f size => if m.free p ∧ m.usable f then some (m.uchsize f size) else none
  | .signal p =>
      match m.phase p with
      | .asleep f call => some { m with phase := Function.update m.phase p (.woken true f call) }
      | _ => none
  | .run p sig =>
      match m.phase p with
      | .woken sig' f call => some (m.wokenUp p (sig' || sig) f call)
      | _ => none
  | .lock p =>
      match m.phase p with
      | .locking sig f call => if m.lock = none then some ((m.runs p).goOn p sig f call) else none
      | _ => none
  | .transfer p k err =>
      match m.phase p with
      | .reading f ioc n =>
          if k ≤ m.ip.readable n ∧ (err = true → k < m.ip.readable n) then
            some (((m.runs p).taken k).readLoop p f (ioc - k) err)
          else none
      | .writing f c data flag n =>
          if k ≤ n ∧ (err = true → k < n) then
            some (((m.runs p).stored c data k).writeLoop p f c (data.drop k) flag err)
          else none
      | _ => none

end CohKernel.Pipe
