import Mathlib.Data.Fintype.Card
import CohKernel.Lib.Links
import CohKernel.Lib.Runs

namespace CohKernel.Strsched

open CohKernel.Lib

/-!
# The schedule of service procedures

The list of queues that are to be serviced, `RUN_STREAMS`, which runs the service procedures, and
the functions that put a queue on the list or take it off.  `RUN_STREAMS` may run on several
processors. A queue has as many messages as are counted; their order is that of `putq`.
-/

/-! ### Data -/

/-- A queue as far as it concerns the schedule: its links, its flags, the band of the last message
    that was taken off, the number of messages, and whether it has a service procedure. -/
structure Queue (κ : Type) where
  qNext : Option κ
  qLink : Option κ
  enab : Bool
  srvactive : Bool
  procsoff : Bool
  noenb : Bool
  wantr : Bool
  wantw : Bool
  qLastband : UInt8
  count : ℕ
  srvp : Bool

/-- The queues, the schedule `sm_sched`, `dg_run_strsched`, whether `RUN_STREAMS` is deferred, and
    what it does on each processor: nothing, or it is at its loop, or in the service procedure of a
    queue. What is recorded: the queues that have been enabled and not serviced since. -/
structure Sys (κ ρ : Type) where
  queue : κ → Queue κ
  ssHead : Option κ
  ssTail : Option κ
  runStrsched : Bool
  deferred : Bool
  runner : ρ → Option (Option κ)
  owed : κ → Bool

namespace Sys

variable {κ ρ : Type} [DecidableEq κ]

/-- A queue is changed. -/
def set (s : Sys κ ρ) (q : κ) (f : Queue κ → Queue κ) : Sys κ ρ :=
  { s with queue := Function.update s.queue q (f (s.queue q)) }

/-- The links of the schedule. -/
def link (s : Sys κ ρ) (q : κ) : Option κ := (s.queue q).qLink

/-! ### The schedule -/

/-- `q->q_link = link` -/
def setLink (s : Sys κ ρ) (q : κ) (link : Option κ) : Sys κ ρ :=
  s.set q fun queue => { queue with qLink := link }

/-- `QSCHED_SCHEDULE` -/
def qschedSchedule (s : Sys κ ρ) (q : κ) : Sys κ ρ :=
  match s.ssTail with
  | none => { s.setLink q none with ssHead := some q, ssTail := some q }
  | some tail => { (s.setLink q none).setLink tail (some q) with ssTail := some q }

/-- `QSCHED_GETFIRST`: the first queue, if there is one, and what is left. -/
def qschedGetfirst (s : Sys κ ρ) : Option κ × Sys κ ρ :=
  match s.ssHead with
  | none => (none, s)
  | some q =>
      let s := { s with ssHead := s.link q }
      (some q, if s.ssHead = none then { s with ssTail := none } else s)

/-- `QSCHED_UNSCHEDULE`, which goes along the links of the schedule. -/
def qschedUnschedule [Fintype κ] (s : Sys κ ρ) (q : κ) : Sys κ ρ :=
  let scan := walk s.link (Fintype.card κ) s.ssHead
  if q ∈ scan then
    let prev := (scan.takeWhile fun q' => q' ≠ q).getLast?
    let next := (s.queue q).qNext
    let s :=
      match prev with
      | none => { s with ssHead := next }
      | some prev => s.setLink prev next
    if s.ssTail = some q then { s with ssTail := prev } else s
  else s

/-- `QUEUE_TRYSCHED`: whether it returns 1.  `room` is whether `defer_int_any` has room. -/
def queueTrysched (s : Sys κ ρ) (q : κ) (room : Bool) : Sys κ ρ × Bool :=
  if (s.queue q).srvp = false ∨ (s.queue q).procsoff then (s, false)
  else
    let s := { s with owed := Function.update s.owed q true }
    if (s.queue q).enab then (s, true)
    else
      let s := (s.qschedSchedule q).set q fun queue => { queue with enab := true }
      if s.runStrsched then (s, true)
      else ({ s with runStrsched := true, deferred := s.deferred || room }, true)

/-- `QUEUE_BACKENAB`: the queues behind are tried one after another until one is scheduled. -/
def queueBackenab (s : Sys κ ρ) (room : Bool) : List κ → Sys κ ρ
  | [] => s
  | q :: behind =>
      let r := s.queueTrysched q room
      if r.2 then r.1 else r.1.queueBackenab room behind

/-! ### Calls -/

/-- `qenable` -/
def qenable (s : Sys κ ρ) (q : κ) (room : Bool) : Sys κ ρ := (s.queueTrysched q room).1

/-- `QUEUE_CHECK_SCHED` as far as it concerns the schedule. -/
def queueCheckSched (s : Sys κ ρ) (q : κ) (band : UInt8) (room : Bool) : Sys κ ρ :=
  let queue := s.queue q
  if queue.noenb = false ∧ (queue.wantr ∨ queue.qLastband < band) then
    ((s.set q fun queue => { queue with qLastband := band }).queueTrysched q room).1
  else s

/-- `putq` for a message with a priority or in a band; `alloc` is whether the band can be had. -/
def putq (s : Sys κ ρ) (q : κ) (pri : Bool) (band : UInt8) (alloc room : Bool) : Sys κ ρ :=
  if pri = false ∧ band > 0 ∧ alloc = false then s
  else
    let s := if pri then s.qenable q room else s.queueCheckSched q band room
    s.set q fun queue => { queue with count := queue.count + 1 }

/-- `getq`, which takes a message in a band off, if there is one. -/
def getq (s : Sys κ ρ) (q : κ) (band : UInt8) : Sys κ ρ :=
  s.set q fun queue =>
    if queue.count = 0 then { queue with wantr := true }
    else { queue with count := queue.count - 1, qLastband := band }

/-- `qprocson` schedules one of the two queues. -/
def resume (s : Sys κ ρ) (q : κ) (room : Bool) : Sys κ ρ :=
  if (s.queue q).count ≠ 0 ∧ (s.queue q).noenb then (s.queueTrysched q room).1 else s

/-- `qprocson` enables the queues behind one of the two queues. -/
def backward (s : Sys κ ρ) (q : κ) (room : Bool) (behind : List κ) : Sys κ ρ :=
  if (s.queue q).wantw then
    (s.set q fun queue => { queue with wantw := false }).queueBackenab room behind
  else s

/-- `qprocson` -/
def qprocson (s : Sys κ ρ) (rq wq : κ) (room : Bool) (rbehind wbehind : List κ) : Sys κ ρ :=
  let s := s.set rq fun queue => { queue with procsoff := false }
  let s := s.set wq fun queue => { queue with procsoff := false }
  (((s.resume rq room).resume wq room).backward rq room rbehind).backward wq room wbehind

/-! ### `RUN_STREAMS` -/

variable [DecidableEq ρ]

/-- `RUN_STREAMS` goes on in another place. -/
def setRunner (s : Sys κ ρ) (r : ρ) (place : Option (Option κ)) : Sys κ ρ :=
  { s with runner := Function.update s.runner r place }

/-- `RUN_STREAMS` marks a queue that it is going to service. -/
def claim (s : Sys κ ρ) (q : κ) : Sys κ ρ :=
  s.set q fun queue => { queue with enab := false, srvactive := true }

/-- The loop of `RUN_STREAMS`, up to a service procedure. -/
def take (s : Sys κ ρ) (r : ρ) : Sys κ ρ :=
  match s.qschedGetfirst with
  | (none, s) => s.setRunner r none
  | (some q, s) =>
      if (s.queue q).srvactive then s.qschedSchedule q
      else
        let s := s.claim q
        if (s.queue q).procsoff then s
        else { s.setRunner r (some (some q)) with owed := Function.update s.owed q false }

/-- The service procedure of a queue returns. -/
def finish (s : Sys κ ρ) (r : ρ) (q : κ) : Sys κ ρ :=
  (s.set q fun queue => { queue with srvactive := false }).setRunner r (some none)

end Sys

/-! ### Runs -/

/-- The calls, and `RUN_STREAMS`, which begins, and goes on, on a processor. -/
inductive Event (κ ρ : Type) where
  | qenable (q : κ) (room : Bool)
  | putq (q : κ) (pri : Bool) (band : UInt8) (alloc room : Bool)
  | getq (q : κ) (band : UInt8)
  | noenable (q : κ)
  | enableok (q : κ)
  | want (q : κ)
  | qprocsoff (q : κ)
  | qprocson (rq wq : κ) (room : Bool) (rbehind wbehind : List κ)
  | unschedule (q : κ)
  | start (r : ρ)
  | run (r : ρ)

namespace Sys

variable {κ ρ : Type} [DecidableEq κ] [Fintype κ] [DecidableEq ρ]

/-- A step.  `qprocsoff` takes one step for each of the two queues; `want` is a test for flow
    control that fails. -/
def step (s : Sys κ ρ) : Event κ ρ → Option (Sys κ ρ)
  | .qenable q room => some (s.qenable q room)
  | .putq q pri band alloc room => some (s.putq q pri band alloc room)
  | .getq q band => some (s.getq q band)
  | .noenable q => some (s.set q fun queue => { queue with noenb := true })
  | .enableok q => some (s.set q fun queue => { queue with noenb := false })
  | .want q => some (s.set q fun queue => { queue with wantw := true })
  | .qprocsoff q => some (s.set q fun queue => { queue with procsoff := true })
  | .qprocson rq wq room rbehind wbehind => some (s.qprocson rq wq room rbehind wbehind)
  | .unschedule q => some (s.qschedUnschedule q)
  | .start r =>
      if s.deferred ∧ s.runner r = none then
        some { s with
          runStrsched := false
          deferred := false
          runner := Function.update s.runner r (some none) }
      else none
  | .run r =>
      match s.runner r with
      | none => none
      | some none => some (s.take r)
      | some (some q) => some (s.finish r q)

end Sys

end CohKernel.Strsched
