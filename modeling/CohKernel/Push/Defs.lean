import Mathlib.Data.Fintype.Prod
import CohKernel.Lib.Links
import CohKernel.Lib.Runs

namespace CohKernel.Push

open CohKernel.Lib

/-!
# Modules of a stream

`PUSH_MODULE` and `POP_MODULE`, which put queue pairs below a stream head and take them out again,
and `TOP_QUEUE` and `TOP_MODULE`, which find the pair to take out.  A queue is one of a pair.  A
stream is that of a device, or a pipe with two heads, where the write side of one end crosses over
to the read side of the other.
-/

/-! ### Queues -/

/-- The side of a queue: the flag `QREADR`. -/
inductive Side where
  | read
  | write
deriving DecidableEq

instance : Fintype Side := ⟨{.read, .write}, fun s => by cases s <;> decide⟩

/-- A queue: its pair, and its side. -/
structure Queue (π : Type) where
  pair : π
  side : Side
deriving DecidableEq

namespace Queue

variable {π : Type}

/-- `R` of a queue of a pair. -/
def R (p : π) : Queue π := ⟨p, .read⟩

/-- `W` of a queue of a pair. -/
def W (p : π) : Queue π := ⟨p, .write⟩

/-- `OTHERQ` -/
def otherq (q : Queue π) : Queue π :=
  match q.side with
  | .read => W q.pair
  | .write => R q.pair

@[simp] theorem otherq_R (p : π) : (R p).otherq = W p := rfl

@[simp] theorem otherq_W (p : π) : (W p).otherq = R p := rfl

@[simp] theorem otherq_otherq (q : Queue π) : q.otherq.otherq = q := by
  obtain ⟨p, side⟩ := q
  cases side <;> rfl

@[simp] theorem otherq_pair (q : Queue π) : q.otherq.pair = q.pair := by
  obtain ⟨p, side⟩ := q
  cases side <;> rfl

theorem otherq_ne (q : Queue π) : q.otherq ≠ q := by
  obtain ⟨p, side⟩ := q
  cases side <;> nofun

theorem otherq_inj {q q' : Queue π} : q.otherq = q'.otherq ↔ q = q' := by
  constructor
  · intro h
    rw [← otherq_otherq q, h, otherq_otherq]
  · rintro rfl
    rfl

instance [Fintype π] : Fintype (Queue π) :=
  Fintype.ofEquiv (π × Side)
    ⟨fun p => ⟨p.1, p.2⟩, fun q => (q.pair, q.side), fun _ => rfl, fun _ => rfl⟩

end Queue

open Queue

/-- What the kernel has of queues: `q_next`, the flag `QPROCSOFF`, and the pairs that are allocated.
    -/
structure Streams (π : Type) where
  qNext : Queue π → Option (Queue π)
  procsoff : Queue π → Bool
  allocated : π → Bool

namespace Streams

variable {π : Type} [DecidableEq π]

/-- `q->q_next = next` -/
def setNext (m : Streams π) (q : Queue π) (next : Option (Queue π)) : Streams π :=
  { m with qNext := Function.update m.qNext q next }

/-- `QPROCSOFF` is set or cleared on both queues of a pair. -/
def setProcs (m : Streams π) (p : π) (off : Bool) : Streams π :=
  { m with procsoff := Function.update (Function.update m.procsoff (R p) off) (W p) off }

/-- `qprocson` as far as it concerns the flag. -/
def qprocson (m : Streams π) (p : π) : Streams π := m.setProcs p false

/-- `qprocsoff` as far as it concerns the flag. -/
def qprocsoff (m : Streams π) (p : π) : Streams π := m.setProcs p true

/-- `QUEUE_ALLOC` for one pair, which `kmem_zalloc` has found. -/
def queueAlloc (m : Streams π) (p : π) : Streams π :=
  let m := { m with allocated := Function.update m.allocated p true }
  (((m.setNext (R p) none).setNext (W p) none).setProcs p true)

/-- `QUEUE_FREE` for one pair. -/
def queueFree (m : Streams π) (p : π) : Streams π :=
  { m with allocated := Function.update m.allocated p false }

/-! ### Pushing and popping -/

/-- `PUSH_MODULE` links a pair below a stream head, unless it follows a null pointer. -/
def pushLink (m : Streams π) (head p : π) : Option (Streams π) :=
  let next := m.qNext (W head)
  let m := (m.setNext (W p) next).setNext (W head) (some (W p))
  match m.qNext (W p) with
  | none => none
  | some below => some ((m.setNext (R p) (some (R head))).setNext below.otherq (some (R p)))

/-- `POP_AND_FREE` -/
def popAndFree (m : Streams π) (head module : π) : Option (Streams π) :=
  let m := m.setNext (W head) (m.qNext (W module))
  match m.qNext (W head) with
  | none => none
  | some next => some ((m.setNext next.otherq (some (R head))).queueFree module)

/-- The `open` of a module may call `qprocson`. -/
def openModule (m : Streams π) (p : π) (enabled : Bool) : Streams π :=
  if enabled then m.qprocson p else m

/-- `PUSH_MODULE` calls `qprocson` for a module whose `open` has not. -/
def afterOpen (m : Streams π) (p : π) : Streams π :=
  if m.procsoff (R p) then m.qprocson p else m

/-- `PUSH_MODULE` calls `qprocson` for a module whose `open` has called it and failed. -/
def afterFailure (m : Streams π) (p : π) : Streams π :=
  if m.procsoff (R p) then m else m.qprocson p

/-- `PUSH_MODULE` for a pair that has been allocated: what the module's `open` returns, and whether
    it has called `qprocson`. -/
def pushModule (m : Streams π) (head p : π) (retval : ℕ) (enabled : Bool) : Option (Streams π) := do
  let m ← (m.queueAlloc p).pushLink head p
  let m := m.openModule p enabled
  if retval ≠ 0 then (m.afterFailure p).popAndFree head p else some (m.afterOpen p)

/-- `POP_MODULE`: whether the module's `close` has called `qprocsoff` makes no difference. -/
def popModule (m : Streams π) (head module : π) : Option (Streams π) :=
  (m.qprocsoff module).popAndFree head module

variable [Fintype π]

/-- `TOP_QUEUE`, unless it gets off the end of the stream. -/
def topQueue (m : Streams π) (head : π) : Option (Queue π) :=
  (walk m.qNext (Fintype.card (Queue π)) (m.qNext (W head))).find? fun scan => !m.procsoff scan

/-- `TOP_MODULE`: the pair of the module, if there is one, unless `TOP_QUEUE` fails. -/
def topModule (m : Streams π) (head : π) : Option (Option π) :=
  (m.topQueue head).map fun scan =>
    if scan.side ≠ .write then none else if m.qNext scan = none then none else some scan.pair

end Streams

/-! ### Runs -/

/-- The end of a stream at which there is a stream head. -/
inductive End where
  | front
  | back
deriving DecidableEq

/-- A stream: the pair of its head, and that of its driver, or of the other head. -/
inductive Shape (π : Type) where
  | device (head driver : π)
  | pipe (head other : π)

/-- The pair of the stream head at an end. -/
def Shape.head {π : Type} : Shape π → End → Option π
  | .device head _, .front => some head
  | .device _ _, .back => none
  | .pipe head _, .front => some head
  | .pipe _ other, .back => some other

/-- The calls: a module is pushed, with a pair that `kmem_zalloc` finds and what its `open` does, or
    popped. -/
inductive Event (π ι : Type) where
  | push (i : ι) (e : End) (pair : Option π) (retval : ℕ) (enabled : Bool)
  | pop (i : ι) (e : End)

/-- The streams in a run, with the modules that have been pushed and not popped at each end, the
    last one first. -/
structure Sys (π ι : Type) where
  mem : Streams π
  halted : Bool
  stack : ι → End → List π

namespace Sys

variable {π ι : Type} [DecidableEq π] [DecidableEq ι]

/-- The record of an end is changed. -/
def setStack (s : Sys π ι) (i : ι) (e : End) (ps : List π) : Sys π ι :=
  { s with stack := Function.update s.stack i (Function.update (s.stack i) e ps) }

/-- A module is pushed at an end. -/
def push (s : Sys π ι) (i : ι) (e : End) (head p : π) (retval : ℕ) (enabled : Bool) : Sys π ι :=
  match s.mem.pushModule head p retval enabled with
  | none => { s with halted := true }
  | some m =>
      let s := { s with mem := m }
      if retval ≠ 0 then s else s.setStack i e (p :: s.stack i e)

variable [Fintype π]

/-- A module is popped at an end. -/
def pop (s : Sys π ι) (i : ι) (e : End) (head : π) : Sys π ι :=
  match s.mem.topModule head with
  | none => { s with halted := true }
  | some none => s
  | some (some module) =>
      match s.mem.popModule head module with
      | none => { s with halted := true }
      | some m => { s with mem := m }.setStack i e ((s.stack i e).erase module)

/-- A call at an end that has a stream head, as long as the kernel runs.  A pair that is allocated
    is not in use. -/
def step (shape : ι → Shape π) (s : Sys π ι) : Event π ι → Option (Sys π ι)
  | .push i e pair retval enabled =>
      if s.halted then none
      else
        match (shape i).head e, pair with
        | none, _ => none
        | some _, none => some s
        | some head, some p =>
            if s.mem.allocated p then none else some (s.push i e head p retval enabled)
  | .pop i e =>
      if s.halted then none else ((shape i).head e).map (s.pop i e)

end Sys

end CohKernel.Push
