import CohKernel.Lib.Runs
import Mathlib.Data.Fintype.Card

namespace CohKernel.SleepLock

open CohKernel.Lib

/-!
# Sleep locks

`SLEEP_LOCK`, `SLEEP_LOCK_SIG`, `SLEEP_TRYLOCK` and `SLEEP_UNLOCK` of `lib/ksynch.c` over the
process lists of `v_proc.c`.  Other processes run while one is in `x_sleep`, and the calls are steps
up to there: the process list is locked with interrupts disabled.
-/

/-! ### Data -/

/-- The abstract priorities, the indices of `_pri_map`, which maps them to themselves. -/
abbrev Pri := Fin 49

/-- Where a process is: in none of the calls that sleep, or asleep in one for a lock; or it has been
    woken there, by a signal or with the lock, and has not run yet. -/
inductive Pc (L : Type) where
  | running
  | asleep (l : L)
  | signalled (l : L)
  | granted (l : L)
  deriving DecidableEq

/-- `sleep_t` with its `plist_t`, and the `pnode_t` of the processes.  The last three fields are not
    of the source: which calls have returned with a lock that has not been released, and the order
    in which the processes went to sleep. -/
structure State (P L : Type) where
  slLocked : L → Bool
  slHolder : L → Option P
  plHead : L → Option P
  pnNext : P → Option P
  pnPrev : P → Option P
  pnPlistp : P → Option L
  pnPriority : P → Pri
  pnFlag : P → Bool
  pc : P → Pc L
  holds : L → P → Bool
  came : P → ℕ
  time : ℕ

variable {P L : Type} [DecidableEq P] [DecidableEq L]

/-- Change what a process does. -/
def State.setPc (s : State P L) (p : P) (pc : Pc L) : State P L :=
  { s with pc := Function.update s.pc p pc }

/-- A call returns with the lock, or the lock is released. -/
def State.setHolds (s : State P L) (l : L) (p : P) (b : Bool) : State P L :=
  { s with holds := Function.update s.holds l (Function.update (s.holds l) p b) }

/-! ### Process lists -/

/-- The walk of `MAKE_SLEEPING`: the nodes before and after the place of a process. -/
def State.scan (s : State P L) (priority : Pri) : ℕ → Option P → Option P →
    Option (Option P × Option P)
  | 0, _, _ => none
  | _ + 1, pprev, none => some (pprev, none)
  | fuel + 1, pprev, some pscan =>
      if s.pnPriority pscan < priority then some (pprev, some pscan)
      else s.scan priority fuel (some pscan) (s.pnNext pscan)

/-- A process is put between two nodes of a list. -/
def State.link (s : State P L) (l : L) (p : P) (pprev pscan : Option P) : State P L :=
  { s with
    plHead := match pprev with
      | none => Function.update s.plHead l (some p)
      | some _ => s.plHead
    pnNext := Function.update
      (match pprev with
        | none => s.pnNext
        | some q => Function.update s.pnNext q (some p)) p pscan
    pnPrev := Function.update
      (match pscan with
        | none => s.pnPrev
        | some q => Function.update s.pnPrev q (some p)) p pprev
    pnPlistp := Function.update s.pnPlistp p (some l) }

/-- `MAKE_SLEEPING`, up to `x_sleep`.  A list has as many nodes as there are processes, at most. -/
def State.makeSleeping [Fintype P] (s : State P L) (l : L) (p : P) (priority : Pri)
    (interruptible : Bool) : Option (State P L) :=
  (s.scan priority (Fintype.card P + 1) none (s.plHead l)).map fun place =>
    { (s.link l p place.1 place.2).setPc p (.asleep l) with
      pnPriority := Function.update s.pnPriority p priority
      pnFlag := Function.update s.pnFlag p interruptible
      came := Function.update s.came p s.time
      time := s.time + 1 }

/-- The node after a process becomes the head of the list.  `WAKE_ONE` does this to the head, and
    `KERNEL_SLEEP` to the process that a signal has woken. -/
def State.unlinkHead (s : State P L) (l : L) (p : P) : State P L :=
  { s with
    plHead := Function.update s.plHead l (s.pnNext p)
    pnPrev := match s.pnNext p with
      | none => s.pnPrev
      | some n => Function.update s.pnPrev n none
    pnPlistp := Function.update s.pnPlistp p none }

/-- The end of `KERNEL_SLEEP` after a signal.  It stores into the next node, and the kernel stops
    when there is none. -/
def State.dequeue (s : State P L) (l : L) (p : P) : Option (State P L) :=
  match s.pnNext p with
  | none => none
  | some _ => some ((s.unlinkHead l p).setPc p .running)

/-! ### The calls -/

/-- `SLEEP_TRYLOCK`, and the beginning of `SLEEP_LOCK`, when the lock is free. -/
def State.take (s : State P L) (l : L) (p : P) : State P L :=
  ({ s with
    slLocked := Function.update s.slLocked l true
    slHolder := Function.update s.slHolder l (some p) }).setHolds l p true

/-- `SLEEP_UNLOCK`, with `WAKE_ONE`. -/
def State.sleepUnlock (s : State P L) (l : L) (p : P) : State P L :=
  let s := s.setHolds l p false
  match s.plHead l with
  | none =>
      { s with
        slLocked := Function.update s.slLocked l false
        slHolder := Function.update s.slHolder l none }
  | some q =>
      { (s.unlinkHead l q).setPc q (.granted l) with
        slHolder := Function.update s.slHolder l (some q) }

/-! ### Steps -/

/-- What happens: a process calls `SLEEP_LOCK`, or `SLEEP_LOCK_SIG` when `interruptible`, or one of
    the calls that do not sleep; a signal wakes a sleeping process; a process that has been woken
    runs. -/
inductive Event (P L : Type) where
  | lock (p : P) (l : L) (priority : Pri) (interruptible : Bool)
  | trylock (p : P) (l : L)
  | unlock (p : P) (l : L)
  | signal (p : P)
  | resume (p : P)

/-- One step.  `KERNEL_SLEEP` tells by `pn_plistp` what has woken its process. -/
def step [Fintype P] (s : State P L) : Event P L → Option (State P L)
  | .lock p l priority interruptible =>
      if s.pc p = .running then
        if s.slLocked l = false then some (s.take l p)
        else s.makeSleeping l p priority interruptible
      else none
  | .trylock p l =>
      if s.pc p = .running then
        some (if s.slLocked l = false then s.take l p else s)
      else none
  | .unlock p l =>
      if s.pc p = .running ∧ s.holds l p = true then some (s.sleepUnlock l p) else none
  | .signal p =>
      match s.pc p with
      | .asleep l => some (s.setPc p (.signalled l))
      | _ => none
  | .resume p =>
      match s.pc p with
      | .signalled l | .granted l =>
          if s.pnPlistp p = none then some ((s.setPc p .running).setHolds l p true)
          else if s.pnFlag p then s.dequeue l p
          else some (s.setPc p (.asleep l))
      | _ => none

/-- Locks as `SLEEP_ALLOC` leaves them. -/
def Initial (s : State P L) : Prop :=
  (∀ l, s.slLocked l = false ∧ s.slHolder l = none ∧ s.plHead l = none ∧
    ∀ p, s.holds l p = false) ∧
  ∀ p, s.pnPlistp p = none ∧ s.pc p = .running

end CohKernel.SleepLock
