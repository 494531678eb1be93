import CohKernel.Lib.Instances

namespace CohKernel.Rlock

/-!
# Record locking

The record locks of `rlock.c`.  Active locks hang off their inode, unused `RLOCK` structures
off the free list, and a process that sleeps for a lock points at its pending one.  A list is
walked by `nextmeet` and `nextblock` from a position in it; here a walk is a recursion over the
rest of the list.  `rlgate` is held from the beginning of a call to its end or to its sleep, so
a call runs in one step up to there, and `waitlockWake` is the step a sleeper makes when it is
woken.

`long` arithmetic wraps at 32 bits.
-/

/-! ### Locks -/

/-- A value of the 32-bit type `long`. -/
def long (z : ℤ) : ℤ := (z + 2 ^ 31) % 2 ^ 32 - 2 ^ 31

/-- `RLOCK`.  `entry` is the address of the structure, `rlType` is set for a write lock, and
    `rlEnd = -1` is the end of the file. -/
structure RLock where
  entry : ℕ
  rlType : Bool
  rlStart : ℤ
  rlEnd : ℤ
  rlProc : ℕ
deriving DecidableEq, Repr

/-- The lock references an offset that `block` references: the test of `nextmeet`. -/
def meets (lock block : RLock) : Bool :=
  if lock.rlEnd = -1 then decide (block.rlEnd = -1 ∨ block.rlEnd ≥ lock.rlStart)
  else decide (lock.rlEnd ≥ block.rlStart ∧ (block.rlEnd = -1 ∨ block.rlEnd ≥ lock.rlStart))

/-- The test of `nextblock`: `block` keeps another process from getting the lock. -/
def blocks (lock block : RLock) : Bool :=
  meets lock block && decide (lock.rlProc ≠ block.rlProc) && (lock.rlType || block.rlType)

/-- `nextblock`: the rest of the list from the next conflicting lock on. -/
def nextblock (lock : RLock) : List RLock → List RLock
  | [] => []
  | block :: rest => if blocks lock block then block :: rest else nextblock lock rest

/-! ### Removing a range -/

/-- What `extract` tells its caller: to free `old`, to go on with the changed `old`, to go on
    with a new lock after it, or that the free list is empty. -/
inductive Extracted where
  | free
  | keep (old : RLock)
  | split (old lock : RLock) (freerl : List ℕ)
  | fail

/-- `extract`: remove the range of `new` from `old`. -/
def extract (old new : RLock) (freerl : List ℕ) : Extracted :=
  if new.rlStart ≤ old.rlStart then
    if new.rlEnd = -1 ∨ (old.rlEnd ≠ -1 ∧ new.rlEnd ≥ old.rlEnd) then .free
    else .keep { old with rlStart := long (new.rlEnd + 1) }
  else
    let tend := old.rlEnd
    let old := { old with rlEnd := long (new.rlStart - 1) }
    if new.rlEnd = -1 ∨ (tend ≠ -1 ∧ new.rlEnd ≥ tend) then .keep old
    else
      match freerl with
      | [] => .fail
      | a :: freerl =>
          .split old { entry := a, rlType := old.rlType, rlProc := old.rlProc,
                       rlStart := long (new.rlEnd + 1), rlEnd := tend } freerl

/-- The result of a walk that changes the list, with `block` left in front of it. -/
def consLock (block : RLock) (r : ℤ × List RLock × List ℕ) : ℤ × List RLock × List ℕ :=
  (r.1, block :: r.2.1, r.2.2)

/-- The loop of `remlock`; after a split the walk goes on with the new lock. -/
def remlockLoop (lock : RLock) : ℕ → List RLock → List ℕ → Option (ℤ × List RLock × List ℕ)
  | 0, _, _ => none
  | _ + 1, [], freerl => some (0, [], freerl)
  | fuel + 1, block :: rest, freerl =>
      if meets lock block = false ∨ block.rlProc ≠ lock.rlProc then
        (remlockLoop lock fuel rest freerl).map (consLock block)
      else
        match extract block lock freerl with
        | .free => remlockLoop lock fuel rest (block.entry :: freerl)
        | .keep old => (remlockLoop lock fuel rest freerl).map (consLock old)
        | .split old new freerl => (remlockLoop lock fuel (new :: rest) freerl).map (consLock old)
        | .fail => some (-1, block :: rest, freerl)

/-- `remlock`: remove the range of `lock` from the locks of its process; `-1` when the free list
    runs out.  Every turn takes a lock off the walk or an entry off the free list. -/
def remlock (list : List RLock) (lock : RLock) (freerl : List ℕ) :
    Option (ℤ × List RLock × List ℕ) :=
  remlockLoop lock (2 * list.length + freerl.length + 1) list freerl

/-! ### Adding a range -/

/-- The lock `addlock` walks the list with: one offset wider on both sides. -/
def widen (lock : RLock) : RLock :=
  { lock with
    rlStart := if lock.rlStart ≠ 0 then long (lock.rlStart - 1) else lock.rlStart
    rlEnd := if lock.rlEnd ≠ -1 then long (lock.rlEnd + 1) else lock.rlEnd }

/-- The loop of `addlock`: neighbours of the same owner and type are freed and `top` and `bot`
    widened to cover them. -/
def mergeLoop (wide : RLock) : List RLock → ℤ → ℤ → List ℕ → ℤ × ℤ × List RLock × List ℕ
  | [], top, bot, freerl => (top, bot, [], freerl)
  | block :: rest, top, bot, freerl =>
      if meets wide block ∧ block.rlProc = wide.rlProc ∧ block.rlType = wide.rlType then
        let top := if block.rlStart < top then block.rlStart else top
        let bot := if bot ≠ -1 ∧ (block.rlEnd = -1 ∨ block.rlEnd ≥ bot) then block.rlEnd else bot
        mergeLoop wide rest top bot (block.entry :: freerl)
      else
        let (top, bot, list, freerl) := mergeLoop wide rest top bot freerl
        (top, bot, block :: list, freerl)

/-- `errno` values. -/
inductive Errno where
  | EINVAL
  | EACCES
  | ENOLCK
  | EDEADLK
  | EINTR
deriving DecidableEq, Repr

/-- `addlock`: the returned value, the user error, the list and the free list.  A failure of the
    inner `remlock` leaves its error set but does not change the returned value. -/
def addlock (list : List RLock) (lock : RLock) (freerl : List ℕ) :
    Option (ℤ × Option Errno × List RLock × List ℕ) :=
  let (top, bot, list, freerl) := mergeLoop (widen lock) list lock.rlStart lock.rlEnd freerl
  match freerl with
  | [] => some (-1, some .ENOLCK, list, [])
  | a :: freerl => do
      let new : RLock := { entry := a, rlType := lock.rlType, rlProc := lock.rlProc,
                           rlStart := top, rlEnd := bot }
      let (r, list, freerl) ← remlock list new freerl
      some (0, if r = 0 then none else some .ENOLCK, new :: list, freerl)

/-! ### The tables -/

/-- `i_rl` of every inode, the free list, and `p_prl` of every process with the inode that the
    pending lock's `rl_next` points to. -/
structure Tables where
  rl : ℕ → List RLock
  freerl : List ℕ
  prl : ℕ → Option (ℕ × RLock)

/-- `waiting`: whether the pending lock of `pp` waits, even indirectly, for `self`.  `none` when
    the recursion does not end within `fuel` levels. -/
def waiting (s : Tables) (self : ℕ) : ℕ → ℕ → Option Bool
  | 0, _ => none
  | fuel + 1, pp =>
      match s.prl pp with
      | none => some false
      | some (ino, lock) =>
          ((s.rl ino).filter (blocks lock)).anyM fun e =>
            if e.rlProc = self then some true else waiting s self fuel e.rlProc

/-- The inner loop of `waitlock`: whether one of the locks in the way waits for `self`. -/
def deadlocked (s : Tables) (self fuel ino : ℕ) (rl : RLock) : Option Bool :=
  ((s.rl ino).filter (blocks rl)).anyM fun e => waiting s self fuel e.rlProc

/-- What a system call or a wake-up ends with. -/
inductive Outcome where
  | done (retval : ℤ) (err : Option Errno)
  | sleep
deriving DecidableEq, Repr

/-- `addlock` on the list of an inode. -/
def Tables.addlock (s : Tables) (ino : ℕ) (srl : RLock) : Option (Outcome × Tables) := do
  let (r, err, list, freerl) ← Rlock.addlock (s.rl ino) srl s.freerl
  some (.done r err, { s with rl := Function.update s.rl ino list, freerl := freerl })

/-- `remlock` on the list of an inode. -/
def Tables.remlock (s : Tables) (ino : ℕ) (srl : RLock) : Option (Outcome × Tables) := do
  let (r, list, freerl) ← Rlock.remlock (s.rl ino) srl s.freerl
  some (.done r (if r = 0 then none else some .ENOLCK),
    { s with rl := Function.update s.rl ino list, freerl := freerl })

/-- The macro `cleanup`. -/
def Tables.cleanup (s : Tables) (self : ℕ) (rl : RLock) : Tables :=
  { s with prl := Function.update s.prl self none, freerl := rl.entry :: s.freerl }

/-- The loop of `waitlock` before its sleep. -/
def Tables.sleepFor (s : Tables) (self fuel ino : ℕ) (rl : RLock) : Option (Outcome × Tables) := do
  let dead ← deadlocked s self fuel ino rl
  if dead then some (.done (-1) (some .EDEADLK), s.cleanup self rl) else some (.sleep, s)

/-- `waitlock`, up to the sleep. -/
def Tables.waitlock (s : Tables) (self fuel ino : ℕ) (srl : RLock) : Option (Outcome × Tables) :=
  if nextblock srl (s.rl ino) ≠ [] then
    match s.freerl with
    | [] => some (.done (-1) (some .ENOLCK), s)
    | a :: freerl =>
        let rl := { srl with entry := a }
        let s := { s with freerl := freerl, prl := Function.update s.prl self (some (ino, rl)) }
        s.sleepFor self fuel ino rl
  else s.addlock ino srl

/-- `waitlock`, after the sleep. -/
def Tables.waitlockWake (s : Tables) (self fuel : ℕ) (signalled : Bool) :
    Option (Outcome × Tables) :=
  match s.prl self with
  | none => none
  | some (ino, rl) =>
      if signalled then some (.done (-1) (some .EINTR), s.cleanup self rl)
      else if nextblock rl (s.rl ino) ≠ [] then s.sleepFor self fuel ino rl
      else (s.cleanup self rl).addlock ino rl

/-! ### `rlock` -/

/-- `struct flock`. -/
structure Flock where
  lType : ℤ
  lWhence : ℤ
  lStart : ℤ
  lLen : ℤ
  lPid : ℕ
deriving DecidableEq, Repr

/-- The open file, with the size of its inode. -/
structure FileDesc where
  ip : ℕ
  size : ℤ
  seek : ℤ
  flag : ℕ

def F_RDLCK : ℤ := 1
def F_WRLCK : ℤ := 2
def F_UNLCK : ℤ := 3
def IPW : ℕ := 2
def IPR : ℕ := 4

/-- `cmd` of `fcntl`. -/
inductive Cmd where
  | F_GETLK
  | F_SETLK
  | F_SETLKW
deriving DecidableEq, Repr

/-- The range that a `struct flock` names, `none` for `EINVAL`. -/
def lockRange (fdp : FileDesc) (flp : Flock) : Option (ℤ × ℤ) :=
  let start := long flp.lStart
  let start := if flp.lWhence = 1 then long (start + fdp.seek)
    else if flp.lWhence = 2 then long (start + fdp.size) else start
  let (start, stop) :=
    if flp.lLen > 0 then (start, long (start + (flp.lLen - 1)))
    else if flp.lLen = 0 then (start, -1)
    else (long (start + flp.lLen), long (start - 1))
  if start < 0 ∨ stop < -1 ∨ (stop ≠ -1 ∧ start > stop) then none else some (start, stop)

/-- The lock `srl` that `rlock` builds for its caller. -/
def requested (self : ℕ) (flp : Flock) (range : ℤ × ℤ) : RLock :=
  { entry := 0, rlType := decide (flp.lType ≠ F_RDLCK), rlStart := range.1, rlEnd := range.2,
    rlProc := self }

/-- What `F_GETLK` stores into the caller's `struct flock`. -/
def getlk (list : List RLock) (srl : RLock) (flp : Flock) : Flock :=
  match nextblock srl list with
  | [] => { flp with lType := F_UNLCK }
  | e :: _ =>
      { lType := if e.rlType then F_WRLCK else F_RDLCK
        lWhence := 0
        lStart := e.rlStart
        lLen := if e.rlEnd = -1 then 0 else long (e.rlEnd - e.rlStart + 1)
        lPid := e.rlProc }

/-- `rlock`, up to its end or its sleep. -/
def rlock (s : Tables) (self fuel : ℕ) (fdp : FileDesc) (cmd : Cmd) (flp : Flock) :
    Option (Outcome × Flock × Tables) :=
  match lockRange fdp flp with
  | none => some (.done (-1) (some .EINVAL), flp, s)
  | some range =>
      let srl := requested self flp range
      if cmd = .F_GETLK then some (.done 0 none, getlk (s.rl fdp.ip) srl flp, s)
      else if flp.lType = F_UNLCK then
        (s.remlock fdp.ip srl).map fun r => (r.1, flp, r.2)
      else if (srl.rlType = true ∧ fdp.flag &&& IPW = 0) ∨
          (srl.rlType = false ∧ fdp.flag &&& IPR = 0) then
        some (.done (-1) (some .EINVAL), flp, s)
      else if cmd = .F_SETLKW then
        (s.waitlock self fuel fdp.ip srl).map fun r => (r.1, flp, r.2)
      else if nextblock srl (s.rl fdp.ip) = [] then
        (s.addlock fdp.ip srl).map fun r => (r.1, flp, r.2)
      else some (.done (-1) (some .EACCES), flp, s)

/-- `rlinit`: `n` entries on the free list. -/
def rlinit (n : ℕ) : Tables := ⟨fun _ => [], List.range n, fun _ => none⟩

end CohKernel.Rlock
