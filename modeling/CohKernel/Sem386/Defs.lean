import CohKernel.Lib.Machine
import CohKernel.Ipc.Perm

namespace CohKernel.Sem386

open CohKernel.Lib CohKernel.Ipc

/-!
# Semaphores

`usemop` of `sem386.c` with what it calls: `semundo`, `iSubAdj` and `semwait`.  A call holds the
semaphore gate from `TRY_AGAIN` to its end or its sleep, so it runs in passes: the first one
starts in `usemop`, every later one in `usemopWake`, when the process wakes up.
-/

/-! ### Data -/

/-- The tunable limits, with the ranges that `mtune` admits. -/
structure Tune where
  SEMMNI : ℕ
  SEMMSL : ℕ
  SEMVMX : ℕ
  semmsl_le : SEMMSL ≤ 2500
  semvmx_le : SEMVMX ≤ 65535

/-- `struct sem`. -/
structure Sem where
  semval : Ushort
  sempid : ℕ
  semncnt : Ushort
  semzcnt : Ushort
deriving DecidableEq

/-- `struct semid_ds`; `usemget` makes no set of `SEMMSL` or more semaphores. -/
structure SemidDs (t : Tune) where
  semPerm : IpcPerm
  semBase : ℕ → Sem
  semNsems : ℕ
  semOtime : ℕ
  semCtime : ℕ
  semNsems_lt : semNsems < t.SEMMSL

/-- `struct sembuf`, an operation of the user. -/
structure SemBuf where
  semNum : Ushort
  semOp : Short
  semFlg : Ushort
deriving DecidableEq

/-- `struct sem_undo`. -/
structure SemUndo where
  unAoe : Short
  unNum : Short
  unId : ℤ
deriving DecidableEq

def SEM_UNDO : ℕ := 0o10000

/-- A flag bit of an operation. -/
def SemBuf.has (op : SemBuf) (bit : ℕ) : Bool := decide (op.semFlg.val &&& bit ≠ 0)

/-- The addresses that `semwait` sleeps on: `semncnt` or `semzcnt` of a semaphore. -/
inductive Event where
  | semncnt (n : ℕ)
  | semzcnt (n : ℕ)
deriving DecidableEq

/-- `errno` values. -/
inductive Errno where
  | EINVAL
  | EFAULT
  | E2BIG
  | EFBIG
  | EACCES
  | EAGAIN
  | ERANGE
  | ENOSPC
  | EIDRM
  | EINTR
  | EEXIST
  | ENOENT
  | EPERM
deriving DecidableEq, Repr

/-- What a pass ends with. -/
inductive Outcome where
  | ok
  | error
  | sleep (e : Event)
deriving DecidableEq

/-- The calling process.  `kalloc n` is what `kalloc` gives for an undo entry of semaphore `n`:
    nothing, or memory with that word where `un_aoe` is. -/
structure Ctx where
  self : ℕ
  cred : Cred
  now : ℕ
  kalloc : ℕ → Option Short

/-- What a pass works on: the set, the undo list and the user error of the process, and the
    events it has woken. -/
structure Pass (t : Tune) where
  set : SemidDs t
  semu : List SemUndo
  uError : Option Errno
  wakeups : List Event

variable {t : Tune}

/-! ### Undo adjustments -/

/-- `iSubAdj` from an entry of the list on: subtract `sValue` from the adjustment. -/
def iSubAdj (t : Tune) (c : Ctx) (semId : ℕ) (semNum : Ushort) (sValue : Short) :
    List SemUndo → Except Errno (List SemUndo)
  | [] =>
      match c.kalloc semNum.val with
      | none => .error .ENOSPC
      | some un =>
          .ok [{ unAoe := short (un.val - sValue.val), unNum := short semNum.val, unId := semId }]
  | unNext :: rest =>
      if unNext.unNum.val = semNum.val ∧ unNext.unId = semId then
        let newAdjust := unNext.unAoe.val - sValue.val
        if inRange (-t.SEMVMX) newAdjust t.SEMVMX then
          .ok ({ unNext with unAoe := short newAdjust } :: rest)
        else .error .ERANGE
      else (iSubAdj t c semId semNum sValue rest).map (unNext :: ·)

/-- `iSubAdj` on the list of the process; `true` when it fails. -/
def Pass.subAdj (p : Pass t) (c : Ctx) (semId : ℕ) (semNum : Ushort) (sValue : Short) :
    Bool × Pass t :=
  match iSubAdj t c semId semNum sValue p.semu with
  | .ok semu => (false, { p with semu := semu })
  | .error e => (true, { p with uError := some e })

/-- Store a semaphore value. -/
def Pass.setVal (p : Pass t) (n : ℕ) (v : Ushort) : Pass t :=
  { p with set := { p.set with
      semBase := Function.update p.set.semBase n { p.set.semBase n with semval := v } } }

/-- `semundo` from position `i` on: the operation at position `i` is taken back from semaphore
    `i`, its adjustment from the semaphore it names. -/
def semundo (c : Ctx) (semId : ℕ) : ℕ → List SemBuf → Pass t → Pass t
  | _, [], p => p
  | i, op :: undo, p =>
      let p := p.setVal i (ushort ((p.set.semBase i).semval.val - op.semOp.val))
      let p := if op.has SEM_UNDO then (p.subAdj c semId op.semNum (short (-op.semOp.val))).2 else p
      semundo c semId (i + 1) undo p

/-! ### One operation -/

/-- `wakeup`. -/
def Pass.wakeup (p : Pass t) (e : Event) : Pass t := { p with wakeups := e :: p.wakeups }

/-- `set_user_error`. -/
def Pass.fail (p : Pass t) (e : Errno) : Pass t := { p with uError := some e }

/-- `set_user_error` unless an error is set. -/
def Pass.failFirst (p : Pass t) (e : Errno) : Pass t := if p.uError = none then p.fail e else p

/-- Change the count of sleepers on an event. -/
def SemidDs.count (s : SemidDs t) (d : ℤ) : Event → SemidDs t
  | .semncnt n =>
      let sem := { s.semBase n with semncnt := ushort ((s.semBase n).semncnt.val + d) }
      { s with semBase := Function.update s.semBase n sem }
  | .semzcnt n =>
      let sem := { s.semBase n with semzcnt := ushort ((s.semBase n).semzcnt.val + d) }
      { s with semBase := Function.update s.semBase n sem }

/-- The beginning of `semwait`. -/
def Pass.semwait (p : Pass t) (e : Event) : Outcome × Pass t :=
  (.sleep e, { p with set := p.set.count 1 e })

/-- What the loop of `usemop` does with an operation: go on, or end the pass. -/
inductive Turn (t : Tune) where
  | next (p : Pass t)
  | ret (r : Outcome × Pass t)

/-- The process lacks a permission on the set. -/
def Pass.lacks (p : Pass t) (c : Ctx) (mode : ℕ) : Bool := ipcLackPerm c.cred p.set.semPerm mode

/-- The end of a pass whose operation cannot go through now. -/
def Pass.block (p : Pass t) (c : Ctx) (semId : ℕ) (done : List SemBuf) (op : SemBuf) (e : Event) :
    Outcome × Pass t :=
  let p := semundo c semId 0 done p
  if op.has IPC_NOWAIT then (.error, p.failFirst .EAGAIN) else p.semwait e

/-- The loop body of `usemop` for an operation below zero. -/
def Pass.decrement (p : Pass t) (c : Ctx) (semId : ℕ) (done : List SemBuf) (op : SemBuf) :
    Turn t :=
  let n := op.semNum.val
  let sem := p.set.semBase n
  if p.lacks c IWRITE then .ret (.error, p.fail .EACCES)
  else if (sem.semval.val : ℤ) ≥ -op.semOp.val then
    let v := ushort (sem.semval.val + op.semOp.val)
    let p := p.setVal n v
    let p := if v.val = 0 ∧ sem.semzcnt.val ≠ 0 then p.wakeup (.semzcnt n) else p
    if op.has SEM_UNDO then
      match p.subAdj c semId op.semNum op.semOp with
      | (true, p) => .ret (.error, semundo c semId 0 done p)
      | (false, p) => .next p
    else .next p
  else .ret (p.block c semId done op (.semncnt n))

/-- The loop body of `usemop` for a zero operation. -/
def Pass.waitZero (p : Pass t) (c : Ctx) (semId : ℕ) (done : List SemBuf) (op : SemBuf) :
    Turn t :=
  let n := op.semNum.val
  if p.lacks c IREAD then
    let p := p.fail .EACCES
    .ret (.error, if p.lacks c IWRITE then semundo c semId 0 done p else p)
  else if (p.set.semBase n).semval.val = 0 then .next p
  else .ret (p.block c semId done op (.semzcnt n))

/-- The rest of the loop body for an operation above zero, after the adjustment. -/
def Pass.raise (p : Pass t) (c : Ctx) (semId : ℕ) (done : List SemBuf) (op : SemBuf) : Turn t :=
  let n := op.semNum.val
  let sem := p.set.semBase n
  if (sem.semval.val : ℤ) > t.SEMVMX - op.semOp.val then
    let p := semundo c semId 0 done p
    let p := if op.has SEM_UNDO then (p.subAdj c semId op.semNum (short (-op.semOp.val))).2 else p
    .ret (.error, p.fail .ERANGE)
  else
    let p := p.setVal n (ushort (sem.semval.val + op.semOp.val))
    .next (if sem.semncnt.val ≠ 0 then p.wakeup (.semncnt n) else p)

/-- The loop body of `usemop` for an operation above zero. -/
def Pass.increment (p : Pass t) (c : Ctx) (semId : ℕ) (done : List SemBuf) (op : SemBuf) :
    Turn t :=
  if p.lacks c IWRITE then .ret (.error, p.fail .EACCES)
  else if op.has SEM_UNDO then
    match p.subAdj c semId op.semNum op.semOp with
    | (true, p) => .ret (.error, semundo c semId 0 done p)
    | (false, p) => p.raise c semId done op
  else p.raise c semId done op

/-- The loop body of `usemop`; `done` are the operations before `op`. -/
def Pass.turn (p : Pass t) (c : Ctx) (semId : ℕ) (done : List SemBuf) (op : SemBuf) : Turn t :=
  if inRange (-t.SEMVMX) op.semOp.val t.SEMVMX = false then
    .ret (.error, (semundo c semId 0 done p).fail .E2BIG)
  else if p.uError ≠ none ∨ op.semNum.val ≥ p.set.semNsems then
    .ret (.error, (semundo c semId 0 done p).failFirst .EFBIG)
  else if op.semOp.val < 0 then p.decrement c semId done op
  else if op.semOp.val = 0 then p.waitZero c semId done op
  else p.increment c semId done op

/-! ### A pass -/

/-- The end of a pass that has gone through: times and `sempid`. -/
def Pass.finish (p : Pass t) (c : Ctx) (sops : List SemBuf) : Pass t :=
  -- `change` is a `short`
  let change := short ((sops.filter fun op => op.semOp.val ≠ 0).length : ℤ)
  { p with set := { p.set with
      semOtime := c.now
      semCtime := if change.val ≠ 0 then c.now else p.set.semCtime
      semBase := fun n =>
        if ∃ op ∈ sops, op.semNum.val = n then { p.set.semBase n with sempid := c.self }
        else p.set.semBase n } }

/-- The pass from `TRY_AGAIN` on: the operations `done` are executed, `rest` are to come. -/
def Pass.run (c : Ctx) (semId : ℕ) : List SemBuf → List SemBuf → Pass t → Outcome × Pass t
  | done, [], p => (.ok, p.finish c done)
  | done, op :: rest, p =>
      match p.turn c semId done op with
      | .ret r => r
      | .next p => p.run c semId (done ++ [op]) rest

/-! ### `usemop` -/

/-- The semaphore sets, and `p_semu` of every process. -/
structure Tables (t : Tune) where
  semids : Option (ℕ → SemidDs t)
  semu : ℕ → List SemUndo

/-- What a call, or its continuation after a sleep, gives. -/
structure Result (t : Tune) where
  outcome : Outcome
  uError : Option Errno
  wakeups : List Event
  tables : Tables t

/-- A call that ends with an error before it looks at its operations. -/
def Tables.fail (s : Tables t) (e : Errno) : Result t := ⟨.error, some e, [], s⟩

/-- The state in which a pass starts. -/
def Tables.start (s : Tables t) (c : Ctx) (set : SemidDs t) (uError : Option Errno) : Pass t :=
  ⟨set, s.semu c.self, uError, []⟩

/-- `TRY_AGAIN`. -/
def Tables.tryAgain (s : Tables t) (c : Ctx) (semids : ℕ → SemidDs t) (semId : ℕ)
    (sops : List SemBuf) (uError : Option Errno) : Result t :=
  let (outcome, p) := (s.start c (semids semId) uError).run c semId [] sops
  ⟨outcome, p.uError, p.wakeups,
    { semids := some (Function.update semids semId p.set)
      semu := Function.update s.semu c.self p.semu }⟩

/-- The set is allocated. -/
def SemidDs.alloc (set : SemidDs t) : Bool := decide (set.semPerm.mode &&& IPC_ALLOC ≠ 0)

/-- `usemop`, up to its end or its sleep.  `acc` is the result of `useracc` on the array. -/
def Tables.usemop (s : Tables t) (c : Ctx) (semId : ℤ) (acc : Bool) (sops : List SemBuf) :
    Result t :=
  match s.semids with
  | none => s.fail .EINVAL
  | some semids =>
      if inRange 0 semId (t.SEMMNI - 1) = false then s.fail .EINVAL
      else if acc = false ∨ sops.length < 1 then s.fail .EFAULT
      else if (semids semId.toNat).alloc = false then s.fail .EINVAL
      else s.tryAgain c semids semId.toNat sops none

/-- `usemop` from the end of its sleep in `semwait` on, up to its end or its next sleep. -/
def Tables.usemopWake (s : Tables t) (c : Ctx) (semids : ℕ → SemidDs t) (semId : ℕ)
    (sops : List SemBuf) (uError : Option Errno) (e : Event) (signalled : Bool) : Result t :=
  if (semids semId).alloc = false then s.fail .EIDRM
  else
    let semids := Function.update semids semId ((semids semId).count (-1) e)
    if signalled then { s with semids := some semids }.fail .EINTR
    else s.tryAgain c semids semId sops uError

end CohKernel.Sem386
