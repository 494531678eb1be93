import Mathlib.Data.List.Basic
import Mathlib.Logic.Function.Basic
import CohKernel.Lib.Runs

namespace CohKernel.Qprocs

open CohKernel.Lib

/-!
# Putting the procedures of a module off and on

`qprocsoff` and `qprocson`, and those that go into a queue and count themselves in `q_active`:
`put`, `QUEUE_PUTNEXT`, the service procedures that `RUN_STREAMS` runs, and `QUEUE_BACKENAB`.
-/

/-! ### Data -/

/-- The two queues of a pair. -/
inductive Side where
  | rd
  | wr
  deriving DecidableEq

/-- A queue: the pair, and which of the two it is. -/
structure QueueId (μ : Type) where
  pair : μ
  side : Side
  deriving DecidableEq

/-- `OTHERQ` -/
def QueueId.other {μ : Type} (q : QueueId μ) : QueueId μ :=
  match q.side with
  | .rd => ⟨q.pair, .wr⟩
  | .wr => ⟨q.pair, .rd⟩

/-- A queue as far as it concerns its procedures. -/
structure Queue (μ : Type) where
  qNext : Option (QueueId μ)
  procsoff : Bool
  srvactive : Bool
  enab : Bool
  putp : Bool
  srvp : Bool
  qActive : UInt8

/-- What goes on: `QUEUE_PUTNEXT` looks for a queue after one; a put or a service procedure runs;
    `QUEUE_BACKENAB` looks for a queue after one, has gone into one, or has tried to schedule the
    queue behind it. -/
inductive Act (μ : Type) where
  | putnext (q : QueueId μ)
  | put (q : QueueId μ)
  | srv (q : QueueId μ)
  | back (q : QueueId μ)
  | held (q : QueueId μ)
  | tried (q : QueueId μ) (done : Bool)
  deriving DecidableEq

/-- A process in `qprocsoff`: the pair, the queue that it is at, and whether it sleeps. -/
structure Off (μ : Type) where
  pair : μ
  side : Side
  asleep : Bool

/-- The queues, what goes on, in no particular order, and the processes in `qprocsoff`.  What is
    recorded: the pairs for which `qprocsoff` has returned, and not `qprocson` since. -/
structure Sys (μ τ : Type) where
  queue : QueueId μ → Queue μ
  acts : List (Act μ)
  off : τ → Option (Off μ)
  down : μ → Bool

namespace Sys

variable {μ τ : Type} [DecidableEq μ]

/-- A queue is changed. -/
def set (s : Sys μ τ) (q : QueueId μ) (f : Queue μ → Queue μ) : Sys μ τ :=
  { s with queue := Function.update s.queue q (f (s.queue q)) }

/-- Something goes on. -/
def begin (s : Sys μ τ) (a : Act μ) : Sys μ τ := { s with acts := a :: s.acts }

/-- `q->q_active ++` -/
def enter (s : Sys μ τ) (q : QueueId μ) (a : Act μ) : Sys μ τ :=
  (s.set q fun queue => { queue with qActive := queue.qActive + 1 }).begin a

/-- `SV_BROADCAST (str_mem->sm_proc_sv, 0)` -/
def broadcast (s : Sys μ τ) : Sys μ τ :=
  { s with off := fun t => (s.off t).map fun off => { off with asleep := false } }

/-- `q->q_active --` -/
def leave (s : Sys μ τ) (q : QueueId μ) : Sys μ τ :=
  s.set q fun queue => { queue with qActive := queue.qActive - 1 }

/-- The sleepers are woken up if a queue is off and nothing goes on in it. -/
def wake (s : Sys μ τ) (q : QueueId μ) : Sys μ τ :=
  if (s.queue q).procsoff ∧ (s.queue q).qActive = 0 then s.broadcast else s

/-- `QUEUE_TRYSCHED`, and whether it returns 1. -/
def queueTrysched (s : Sys μ τ) (q : QueueId μ) : Sys μ τ × Bool :=
  if (s.queue q).srvp = false ∨ (s.queue q).procsoff then (s, false)
  else if (s.queue q).enab then (s, true)
  else (s.set q fun queue => { queue with enab := true }, true)

/-- What goes on comes to its next point.  `QUEUE_NEXT` takes a step for each queue that it passes;
    `QUEUE_BACKENAB` looks at the other queue of the pair before it wakes the sleepers up. -/
def next (s : Sys μ τ) : Act μ → Sys μ τ
  | .putnext q =>
      match (s.queue q).qNext with
      | none => s
      | some q => if (s.queue q).procsoff then s.begin (.putnext q) else s.enter q (.put q)
  | .put q => (s.leave q).wake q
  | .srv q => ((s.set q fun queue => { queue with srvactive := false }).leave q).wake q
  | .back q =>
      match (s.queue q).qNext with
      | none => s
      | some q => if (s.queue q).procsoff then s.begin (.back q) else s.enter q (.held q)
  | .held q =>
      let r := s.queueTrysched q.other
      r.1.begin (.tried q r.2)
  | .tried q done =>
      let s := (s.leave q).wake q.other
      if done then s else s.begin (.back q)

/-- `put` -/
def put (s : Sys μ τ) (q : QueueId μ) : Sys μ τ :=
  if (s.queue q).qActive = 0 ∧ (s.queue q).procsoff ∨ (s.queue q).putp = false then s
  else s.enter q (.put q)

/-- `RUN_STREAMS` for a queue that has been on the schedule. -/
def serve (s : Sys μ τ) (q : QueueId μ) : Sys μ τ :=
  if (s.queue q).srvactive then s
  else
    let s := s.set q fun queue => { queue with enab := false, srvactive := true }
    if (s.queue q).procsoff then s else s.enter q (.srv q)

/-! ### `qprocsoff` and `qprocson` -/

variable [DecidableEq τ]

/-- A process is in another place of `qprocsoff`. -/
def setOff (s : Sys μ τ) (t : τ) (off : Option (Off μ)) : Sys μ τ :=
  { s with off := Function.update s.off t off }

/-- `qprocsoff` at one of its queues. -/
def qprocsoff (s : Sys μ τ) (t : τ) (off : Off μ) : Sys μ τ :=
  let q : QueueId μ := ⟨off.pair, off.side⟩
  let s := s.set q fun queue => { queue with procsoff := true }
  if (s.queue q).qActive > 0 then s.setOff t (some { off with asleep := true })
  else
    match off.side with
    | .rd => s.setOff t (some { off with side := .wr })
    | .wr => { s.setOff t none with down := Function.update s.down off.pair true }

/-- `qprocson`.  A queue is scheduled if it has messages and is not enabled, and the queues behind
    it are if they are waited for. -/
def qprocson (s : Sys μ τ) (pair : μ) (sched back : Side → Bool) : Sys μ τ :=
  let on := fun (s : Sys μ τ) side => s.set ⟨pair, side⟩ fun queue =>
      { queue with procsoff := false }
  let try1 := fun (s : Sys μ τ) side =>
    if sched side then (s.queueTrysched ⟨pair, side⟩).1 else s
  let back1 := fun (s : Sys μ τ) side =>
    if back side then s.begin (.back (QueueId.other ⟨pair, side⟩)) else s
  let s := on (on { s with down := Function.update s.down pair false } .rd) .wr
  back1 (back1 (try1 (try1 s .rd) .wr) .rd) .wr

end Sys

/-! ### Runs -/

/-- What may happen: a message is put, or put to the next queue; a queue is enabled, or those behind
    it; a queue on the schedule is serviced; what goes on comes to its next point; `qprocsoff`
    begins, or looks at a queue; `qprocson`; and the stream is changed. -/
inductive Event (μ τ : Type) where
  | put (q : QueueId μ)
  | putnext (q : QueueId μ)
  | qenable (q : QueueId μ)
  | backenab (q : QueueId μ)
  | serve (q : QueueId μ)
  | next (a : Act μ)
  | qprocsoff (t : τ) (pair : μ)
  | look (t : τ)
  | qprocson (pair : μ) (sched back : Side → Bool)
  | setNext (q : QueueId μ) (qNext : Option (QueueId μ))

namespace Sys

variable {μ τ : Type} [DecidableEq μ] [DecidableEq τ]

def step (s : Sys μ τ) : Event μ τ → Option (Sys μ τ)
  | .put q => some (s.put q)
  | .putnext q => some (s.begin (.putnext q))
  | .qenable q => some (s.queueTrysched q).1
  | .backenab q => some (s.begin (.back q.other))
  | .serve q => if (s.queue q).enab then some (s.serve q) else none
  | .next a => if a ∈ s.acts then some (Sys.next { s with acts := s.acts.erase a } a) else none
  | .qprocsoff t pair =>
      match s.off t with
      | none => some (s.setOff t (some ⟨pair, .rd, false⟩))
      | some _ => none
  | .look t =>
      match s.off t with
      | none => none
      | some off => if off.asleep then none else some (s.qprocsoff t off)
  | .qprocson pair sched back => some (s.qprocson pair sched back)
  | .setNext q qNext => some (s.set q fun queue => { queue with qNext := qNext })

end Sys

end CohKernel.Qprocs
