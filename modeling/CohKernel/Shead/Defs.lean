import CohKernel.Lib.Runs
import Mathlib.Data.Finset.Card

namespace CohKernel.Shead

open CohKernel.Lib

/-!
# Stream-head locks

The locks of a stream head that processes sleep for, and their timeouts: `SHEAD_SLEEP_LOCKED`,
`SHEAD_SLEEP_LOCK`, `SHEAD_OPEN_LOCK`, `SHEAD_SLEEP_UNLOCK`, `SHEAD_UNREFERENCE` and the functions
of the timer.  The two ends of a pipe have one set of locks, that of the master end.

A participant is a process that has a lock or waits for one, or is about to set the bits of the
lock that it takes.  The wait bits of the mask are left out: `SHEAD_WAKE` may come at any time.
-/

/-- The categories of locks. -/
inductive Cat where
  | openclose
  | ioctl
  | read
  | write
  | peek
  deriving DecidableEq

/-- `__clock_t` -/
abbrev Clock := BitVec 32

/-- Where a participant is: it waits, it is between the `SHEAD_UNLOCK` and the setting of its bits
    in the mask, or it has the lock. -/
inductive Role where
  | waiter
  | acquiring
  | holder
  deriving DecidableEq

/-- A participant; `devno` and `endTime` are variables of `SHEAD_SLEEP_LOCKED`.  A holder may be
    asleep for a timeout of its own. -/
structure Proc where
  cats : Finset Cat
  role : Role
  asleep : Bool
  endTime : Option Clock
  devno : ℕ
  interruptible : Bool

/-- The stream head.  The timer is the tick that the pending `ltimeout` is for.  The last two fields
    are not of the source: the number of times that it has been freed, and the participants, in no
    particular order. -/
structure State where
  isPipe : Bool
  rwLocking : Bool
  dev : ℕ
  openCount : ℤ
  slaveOpenCount : ℤ
  lockMask : Finset Cat
  timeFlag : Bool
  lockCount : ℤ
  timeCount : ℤ
  timeoutTick : Clock
  timeoutId : Option Clock
  lbolt : Clock
  listed : Bool
  freed : ℕ
  procs : List Proc

/-! ### The timer -/

/-- `SV_BROADCAST` -/
def State.broadcast (s : State) : State :=
  { s with procs := s.procs.map fun p => { p with asleep := false } }

/-- `shead_timer_func` -/
def State.timerFunc (s : State) : State :=
  { s.broadcast with timeFlag := false, timeoutId := none, timeCount := s.lockMask.card }

/-- `SHEAD_START_TIMEOUT`, and its result; `ok` tells if `ltimeout` gets its memory. -/
def State.startTimeout (s : State) (ok : Bool) : State × Bool :=
  if s.timeFlag = false ∨ s.timeoutId ≠ none then (s, true)
  else if ok then
    ({ s with timeoutId := some (s.lbolt + (s.timeoutTick - s.lbolt)) }, true)
  else (s.timerFunc, false)

/-- The end of `SHEAD_NO_TIMEOUT` and `SHEAD_LOCK_TIMEOUT`: the last process to register starts the
    timeout. -/
def State.register (s : State) (ok : Bool) : State × Bool :=
  let s := { s with timeCount := s.timeCount + 1 }
  if s.timeCount = s.lockCount then s.startTimeout ok else (s, true)

/-- `SHEAD_NO_TIMEOUT` -/
def State.noTimeout (s : State) (ok : Bool) : State := (s.register ok).1

/-- A tick is not after another one. -/
def Reached (now tick : Clock) : Prop := now - tick < 0x7fffffff

instance (now tick : Clock) : Decidable (Reached now tick) := inferInstanceAs (Decidable (_ < _))

/-- `SHEAD_LOCK_TIMEOUT`, and its result.  `sh_timeout_tick` is not set. -/
def State.lockTimeout (s : State) (endTime : Clock) (ok : Bool) : State × Bool :=
  if Reached s.lbolt endTime then ({ s with timeCount := s.timeCount + 1 }, false)
  else if s.timeFlag = false ∨ Reached s.timeoutTick endTime then
    { s with timeoutId := none, timeFlag := true }.register ok
  else s.register ok

/-- `SHEAD_LOCKED_TIMEOUT`, and its result. -/
def State.lockedTimeout (s : State) (endTime : Clock) (ok : Bool) : State × Bool :=
  { s with timeCount := s.timeCount - 1 }.lockTimeout endTime ok

/-! ### Locking -/

/-- `SHEAD_UNREFERENCE`.  `SHEAD_M2SLAVE (sheadp->sh_open_count)` is the open count plus one. -/
def State.unreference (s : State) : State :=
  let unlink := s.openCount = 0 ∨ s.isPipe ∧ s.openCount + 1 = 0
  if s.lockCount > 1 ∧ ¬unlink then { s with lockCount := s.lockCount - 1 }
  else
    let s := { s with lockCount := s.lockCount - 1 }
    if s.lockCount = 0 ∧ (s.openCount = 0 ∨ s.isPipe ∧ s.slaveOpenCount = 0) then
      { s with listed := false, freed := s.freed + 1 }
    else s

/-- The end of `SHEAD_SLEEP_LOCKED` for a process that gives up. -/
def State.giveUp (s : State) (ok : Bool) : State :=
  let s :=
    if s.timeCount > s.lockCount then ({ s with timeCount := s.timeCount - 1 }.startTimeout ok).1
    else s
  s.unreference

/-- What a turn of the loop of `SHEAD_SLEEP_LOCKED` ends with. -/
inductive Result where
  | locked
  | asleep
  | ETIME
  | EINTR
  | ENODEV
  deriving DecidableEq

/-- A participant is added. -/
def State.join (s : State) (p : Proc) : State := { s with procs := p :: s.procs }

/-- The first part of a turn, up to the sleep, for a process that is counted. -/
def State.attempt (s : State) (p : Proc) (ok : Bool) : State × Result :=
  if Disjoint s.lockMask p.cats then
    ((s.noTimeout ok).join { p with role := .acquiring, asleep := false }, .locked)
  else
    match p.endTime with
    | none => ((s.noTimeout ok).join { p with asleep := true }, .asleep)
    | some endTime =>
        match s.lockTimeout endTime ok with
        | (s, true) => (s.join { p with asleep := true }, .asleep)
        | (s, false) => (s.giveUp ok, .ETIME)

/-- A turn, from the end of the sleep on. -/
def State.turn (s : State) (p : Proc) (ok : Bool) : State × Result :=
  if s.dev ≠ p.devno then (s.giveUp ok, .ENODEV) else s.attempt p ok

/-- A process that starts to wait. -/
def State.newProc (s : State) (cats : Finset Cat) (timeout : Clock) (interruptible : Bool) :
    Proc where
  cats := cats
  role := .waiter
  asleep := false
  endTime := if timeout = 0 then none else some (s.lbolt + timeout)
  devno := s.dev
  interruptible := interruptible

/-- The increment of the lock count, and `SHEAD_SLEEP_LOCKED` up to the first sleep. -/
def State.sleepLocked (s : State) (cats : Finset Cat) (timeout : Clock) (interruptible ok : Bool) :
    State × Result :=
  let p := s.newProc cats timeout interruptible
  { s with lockCount := s.lockCount + 1 }.attempt p ok

/-- `SHEAD_SLEEP_UNLOCK`, for a participant that has been taken out. -/
def State.sleepUnlock (s : State) (cats : Finset Cat) : State :=
  let s := { s with lockMask := s.lockMask \ cats }.broadcast
  let s := { s with timeCount := s.timeCount - 1 }
  let s :=
    if s.timeCount = 0 ∧ s.timeoutId ≠ none then { s with lockMask := ∅, timeoutId := none }
    else s
  s.unreference

/-! ### Steps -/

/-- Take a participant out. -/
def State.take (s : State) (i : ℕ) : Option (Proc × State) :=
  s.procs[i]?.map fun p => (p, { s with procs := s.procs.eraseIdx i })

/-- The steps.  A participant is given by its index. -/
inductive Event where
  | lock (cats : Finset Cat) (timeout : Clock) (interruptible ok : Bool)
  | openLock (ok : Bool)
  | mark (i : ℕ)
  | run (i : ℕ) (ok : Bool)
  | interrupt (i : ℕ) (ok : Bool)
  | unlock (i : ℕ)
  | wake
  | tick
  | expire
  | lockedTimeout (i : ℕ) (endTime : Clock) (ok : Bool)
  | opened (i : ℕ) (slave : Bool)
  | closed (i : ℕ) (slave : Bool)
  | rename (i : ℕ) (dev : ℕ)

/-- Somebody has the stream, or an end of the pipe, open. -/
def State.IsOpen (s : State) : Prop := 0 < s.openCount ∨ s.isPipe ∧ 0 < s.slaveOpenCount

instance (s : State) : Decidable s.IsOpen := inferInstanceAs (Decidable (_ ∨ _))

/-- The locks that are not taken. -/
def State.Unlocked (s : State) (cats : Finset Cat) : Prop :=
  s.rwLocking = false ∧ cats ⊆ {.read, .write}

instance (s : State) (cats : Finset Cat) : Decidable (s.Unlocked cats) :=
  inferInstanceAs (Decidable (_ ∧ _))

/-- The open count of an end changes. -/
def State.addOpen (s : State) (slave : Bool) (n : ℤ) : State :=
  if slave then { s with slaveOpenCount := s.slaveOpenCount + n }
  else { s with openCount := s.openCount + n }

/-- The open count of an end. -/
def State.opens (s : State) (slave : Bool) : ℤ := if slave then s.slaveOpenCount else s.openCount

/-- One step.  A process locks a stream that somebody has open, or one that it finds in the
    directory of devices; a process that waits goes on when it is woken or gets a signal; one that
    has the open/close lock opens or closes the stream, or gives it another device number. -/
def step (s : State) : Event → Option State
  | .lock cats timeout interruptible ok =>
      if s.IsOpen ∧ cats ≠ ∅ then
        if s.Unlocked cats then some s
        else some (s.sleepLocked cats timeout interruptible ok).1
      else none
  | .openLock ok =>
      if s.listed = true ∧ s.isPipe = false then
        some (s.sleepLocked {.openclose} 0 true ok).1
      else none
  | .mark i => (s.take i).bind fun (p, s) =>
      if p.role = .acquiring then
        some ({ s with lockMask := s.lockMask ∪ p.cats }.join { p with role := .holder })
      else none
  | .run i ok => (s.take i).bind fun (p, s) =>
      if p.role = .waiter ∧ p.asleep = false then some (s.turn p ok).1 else none
  | .interrupt i ok => (s.take i).bind fun (p, s) =>
      if p.role = .waiter ∧ p.interruptible then some (s.giveUp ok) else none
  | .unlock i => (s.take i).bind fun (p, s) =>
      if p.role = .holder ∧ p.asleep = false then some (s.sleepUnlock p.cats) else none
  | .wake => some s.broadcast
  | .tick => some { s with lbolt := s.lbolt + 1 }
  | .expire =>
      match s.timeoutId with
      | none => none
      | some tick => if Reached s.lbolt tick then some s.timerFunc else none
  | .lockedTimeout i endTime ok => (s.take i).bind fun (p, s) =>
      if p.role = .holder ∧ p.asleep = false then
        let r := s.lockedTimeout endTime ok
        some (r.1.join { p with asleep := r.2, endTime := some endTime })
      else none
  | .opened i slave => (s.take i).bind fun (p, t) =>
      if p.role = .holder ∧ .openclose ∈ p.cats ∧ (slave = true → s.isPipe) then
        some ((t.join p).addOpen slave 1)
      else none
  | .closed i slave => (s.take i).bind fun (p, t) =>
      if p.role = .holder ∧ .openclose ∈ p.cats ∧ 0 < s.opens slave then
        some ((t.join p).addOpen slave (-1))
      else none
  | .rename i dev => (s.take i).bind fun (p, s) =>
      if p.role = .holder ∧ .openclose ∈ p.cats then some { s.join p with dev := dev } else none

/-- A process that opens a stream for the first time. -/
def opener (dev : ℕ) : Proc := ⟨{.openclose}, .holder, false, none, dev, true⟩

/-- A stream head as `SHEAD_OPEN_LOCK` makes it, or a pipe both ends of which are open. -/
def Initial (s : State) : Prop :=
  s.timeFlag = false ∧ s.timeoutTick = 0 ∧ s.timeoutId = none ∧ s.listed = true ∧ s.freed = 0 ∧
    (s.isPipe = false ∧ s.openCount = 0 ∧ s.slaveOpenCount = 0 ∧ s.lockMask = {.openclose} ∧
        s.lockCount = 1 ∧ s.timeCount = 1 ∧ s.procs = [opener s.dev] ∨
      s.isPipe = true ∧ s.openCount = 1 ∧ s.slaveOpenCount = 1 ∧ s.lockMask = ∅ ∧
        s.lockCount = 0 ∧ s.timeCount = 0 ∧ s.procs = [])

end CohKernel.Shead
