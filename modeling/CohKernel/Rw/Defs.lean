import CohKernel.Lib.Runs
import CohKernel.Lib.Machine

namespace CohKernel.Rw

open CohKernel.Lib

/-!
# Read/write locks

`RW_RDLOCK`, `RW_TRYRDLOCK`, `RW_WRLOCK`, `RW_TRYWRLOCK` and `RW_UNLOCK` of `lib/ksynch.c`, on any
number of processors.  A step is one `ATOMIC_` operation on the lock, with the code up to the next
one.  The panics of a uniprocessor are left out: a processor that does not get the test-and-set lock
tries again.
-/

/-! ### Data -/

/-- How a processor holds the lock. -/
inductive Mode where
  | rd
  | wr
  deriving DecidableEq

/-- Where a processor is: the operation that it executes next, with what it has fetched before.
    `reading` and `writing` are between the calls; `panic` is `cmn_err (CE_PANIC)`.  The mode in
    `RW_UNLOCK` is the one in which its caller holds the lock, and is not of the source. -/
inductive Pc where
  | idle
  | reading
  | writing
  | panic
  -- `RW_RDLOCK`
  | rdTas
  | rdHolder
  | rdNext (holder : Ushort)
  | rdBack
  | spinHolder
  | spinNext (holder : Ushort)
  | spinLocked
  -- `RW_TRYRDLOCK`
  | tryRdTestHolder
  | tryRdTestNext (holder : Ushort)
  | tryRdTas
  | tryRdNext
  | tryRdHolder (next : Ushort)
  | tryBack
  -- the end of both
  | rdReaders
  | rdStore (readers : Ushort)
  | rdClear
  -- `RW_WRLOCK`
  | wrTas
  | wrSpin
  | wrNext
  | wrStore (next : Ushort)
  | wrClear (ticket : Ushort)
  | wrWait (ticket : Ushort)
  | wrReaders (ticket : Ushort)
  -- `RW_TRYWRLOCK`
  | tryWrTestHolder
  | tryWrTestNext (holder : Ushort)
  | tryWrTestReaders
  | tryWrTas
  | tryWrNext
  | tryWrHolder (next : Ushort)
  | tryWrReaders (next : Ushort)
  | tryWrStore (next : Ushort)
  | tryWrClear
  -- `RW_UNLOCK`
  | unReaders (m : Mode)
  | unTas (m : Mode)
  | unSpin (m : Mode)
  | unFetch (m : Mode)
  | unStore (m : Mode) (readers : Ushort)
  | unClear
  | unHolder (m : Mode)
  | unNext (m : Mode) (holder : Ushort)
  | unInc (m : Mode) (holder : Ushort)

/-- `rwlock_t`, and the processors.  `queue` is not of the source: the processors that have taken a
    ticket and not released the lock, in the order in which they took them. -/
structure State (P : Type) where
  locked : Bool
  readers : Ushort
  nextTicket : Ushort
  lockHolder : Ushort
  pc : P → Pc
  queue : List P

variable {P : Type} [DecidableEq P]

/-! ### Operations -/

/-- A processor goes on. -/
def State.setPc (s : State P) (p : P) (pc : Pc) : State P :=
  { s with pc := Function.update s.pc p pc }

/-- `ATOMIC_TEST_AND_SET_UCHAR (lockp->rw_locked)`. -/
def State.testAndSet (s : State P) (p : P) (won lost : Pc) : State P :=
  if s.locked then s.setPc p lost else { s.setPc p won with locked := true }

/-- `ATOMIC_CLEAR_UCHAR (lockp->rw_locked)`. -/
def State.clear (s : State P) (p : P) (pc : Pc) : State P := { s.setPc p pc with locked := false }

/-- `ATOMIC_FETCH_AND_STORE_USHORT (lockp->rw_readers, new)`, with the comparison. -/
def State.storeReaders (s : State P) (p : P) (ticketNo : Ushort) (new : ℤ) (pc : Pc) : State P :=
  { s.setPc p (if s.readers = ticketNo then pc else .panic) with readers := ushort new }

/-- `ATOMIC_FETCH_AND_STORE_USHORT (lockp->rw_next_ticket, ticket_no + 1)`: the processor takes a
    ticket. -/
def State.storeNext (s : State P) (p : P) (ticketNo : Ushort) (pc : Pc) : State P :=
  { s.setPc p (if s.nextTicket = ticketNo then pc else .panic) with
    nextTicket := ushort (ticketNo.val + 1), queue := s.queue ++ [p] }

/-- `ATOMIC_FETCH_AND_STORE_USHORT (lockp->rw_lock_holder, ticket_no + 1)`: the processor releases
    the lock. -/
def State.storeHolder (s : State P) (p : P) (ticketNo : Ushort) (pc : Pc) : State P :=
  { s.setPc p (if s.lockHolder = ticketNo then pc else .panic) with
    lockHolder := ushort (ticketNo.val + 1), queue := s.queue.erase p }

/-! ### Steps -/

/-- The calls. -/
inductive Op where
  | rdlock
  | tryrdlock
  | wrlock
  | trywrlock
  | unlock

/-- A processor calls one of the functions, or executes the next operation of the one it is in. -/
inductive Event (P : Type) where
  | call (p : P) (op : Op)
  | go (p : P)

/-- `__TEST_AND_TEST__` is `tat`: the loops and the first tests look before they leap. -/
def Pc.call (tat : Bool) : Op → Pc → Option Pc
  | .rdlock, .idle => some .rdTas
  | .tryrdlock, .idle => some (if tat then .tryRdTestHolder else .tryRdTas)
  | .wrlock, .idle => some .wrTas
  | .trywrlock, .idle => some (if tat then .tryWrTestHolder else .tryWrTas)
  | .unlock, .reading => some (.unReaders .rd)
  | .unlock, .writing => some (.unReaders .wr)
  | _, _ => none

/-- The next operation of a processor. -/
def State.go (tat : Bool) (s : State P) (p : P) : Option (State P) :=
  match s.pc p with
  | .idle | .reading | .writing | .panic => none
  | .rdTas => some (s.testAndSet p .rdHolder (if tat then .spinHolder else .rdTas))
  | .rdHolder => some (s.setPc p (.rdNext s.lockHolder))
  | .rdNext holder => some (s.setPc p (if holder = s.nextTicket then .rdReaders else .rdBack))
  | .rdBack => some (s.clear p (if tat then .spinHolder else .rdTas))
  | .spinHolder => some (s.setPc p (.spinNext s.lockHolder))
  | .spinNext holder =>
    some (s.setPc p (if holder ≠ s.nextTicket then .spinHolder else .spinLocked))
  | .spinLocked => some (s.setPc p (if s.locked then .spinHolder else .rdTas))
  | .tryRdTestHolder => some (s.setPc p (.tryRdTestNext s.lockHolder))
  | .tryRdTestNext holder =>
      some (s.setPc p (if holder ≠ s.nextTicket then .idle else .tryRdTas))
  | .tryRdTas => some (s.testAndSet p .tryRdNext .idle)
  | .tryRdNext => some (s.setPc p (.tryRdHolder s.nextTicket))
  | .tryRdHolder next => some (s.setPc p (if next ≠ s.lockHolder then .tryBack else .rdReaders))
  | .tryBack => some (s.clear p .idle)
  | .rdReaders => some (s.setPc p (.rdStore s.readers))
  | .rdStore readers => some (s.storeReaders p readers (readers.val + 1) .rdClear)
  | .rdClear => some (s.clear p .reading)
  | .wrTas => some (s.testAndSet p .wrNext (if tat then .wrSpin else .wrTas))
  | .wrSpin => some (s.setPc p (if s.locked then .wrSpin else .wrTas))
  | .wrNext => some (s.setPc p (.wrStore s.nextTicket))
  | .wrStore next => some (s.storeNext p next (.wrClear next))
  | .wrClear ticket => some (s.clear p (.wrWait ticket))
  | .wrWait ticket =>
      some (s.setPc p (if s.lockHolder ≠ ticket then .wrWait ticket else .wrReaders ticket))
  | .wrReaders ticket =>
      some (s.setPc p (if s.readers.val ≠ 0 then .wrWait ticket else .writing))
  | .tryWrTestHolder => some (s.setPc p (.tryWrTestNext s.lockHolder))
  | .tryWrTestNext holder =>
      some (s.setPc p (if holder ≠ s.nextTicket then .idle else .tryWrTestReaders))
  | .tryWrTestReaders => some (s.setPc p (if s.readers.val ≠ 0 then .idle else .tryWrTas))
  | .tryWrTas => some (s.testAndSet p .tryWrNext .idle)
  | .tryWrNext => some (s.setPc p (.tryWrHolder s.nextTicket))
  | .tryWrHolder next =>
      some (s.setPc p (if next ≠ s.lockHolder then .tryBack else .tryWrReaders next))
  | .tryWrReaders next =>
      some (s.setPc p (if s.readers.val ≠ 0 then .tryBack else .tryWrStore next))
  | .tryWrStore next => some (s.storeNext p next .tryWrClear)
  | .tryWrClear => some (s.clear p .writing)
  | .unReaders m => some (s.setPc p (if s.readers.val ≠ 0 then .unTas m else .unHolder m))
  | .unTas m => some (s.testAndSet p (.unFetch m) (if tat then .unSpin m else .unTas m))
  | .unSpin m => some (s.setPc p (if s.locked then .unSpin m else .unTas m))
  | .unFetch m => some (s.setPc p (.unStore m s.readers))
  | .unStore _ readers => some (s.storeReaders p readers (readers.val - 1) .unClear)
  | .unClear => some (s.clear p .idle)
  | .unHolder m => some (s.setPc p (.unNext m s.lockHolder))
  | .unNext m holder =>
      some (s.setPc p (if holder ≠ s.nextTicket then .unInc m holder else .panic))
  | .unInc _ holder => some (s.storeHolder p holder .idle)

/-- One step. -/
def step (tat : Bool) (s : State P) : Event P → Option (State P)
  | .call p op => (Pc.call tat op (s.pc p)).map (s.setPc p)
  | .go p => s.go tat p

/-- A lock as `RW_ALLOC` leaves it. -/
def Initial (s : State P) : Prop :=
  s.locked = false ∧ s.readers = 0 ∧ s.nextTicket = 0 ∧ s.lockHolder = 0 ∧ s.queue = [] ∧
    ∀ p, s.pc p = .idle

end CohKernel.Rw
