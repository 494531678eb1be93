import CohKernel.Lib.Dll
import CohKernel.Lib.Runs

namespace CohKernel.Clock

open CohKernel.Lib

/-!
# Timers

`timeout` and `timeout2` of `timeout.c`, and the walk of `check_clock` of `clock.c`.  The walk holds
interrupts off but for the functions that it calls, and these may call `timeout` for any timer.
-/

/-! ### Data -/

/-- The number of values of `lbolt`, which is read as an unsigned number, and of queues. -/
def LBOLTS : ℕ := 4294967296
def TIMQ : ℕ := 32

/-- `struct tim`, without the links. -/
structure Tim where
  tLbolt : ℕ
  tFunc : Option ℕ
  tFarg : ℤ

/-- Where `check_clock` is: outside of the walk, at the timer that it goes on with, or in a
    function, after which it goes on with a timer. -/
inductive Phase (τ : Type*) where
  | idle
  | walk (np : Option τ)
  | call (np : Option τ)
deriving DecidableEq

/-- The timers.  `links` has `timq`, and the `t_next` and `t_last` of the timers; a `t_last` points
    to the pointer to the timer. -/
structure Timers (τ : Type*) where
  links : Links ℕ τ
  tim : τ → Tim
  lbolt : ℕ
  phase : Phase τ

variable {τ : Type*} [DecidableEq τ]

/-! ### Arming -/

/-- Set the fields of a timer. -/
def Timers.setTim (m : Timers τ) (tp : τ) (t : Tim) : Timers τ :=
  { m with tim := Function.update m.tim tp t }

/-- Take a timer off its queue. -/
def Timers.unlink (m : Timers τ) (tp : τ) : Timers τ := { m with links := m.links.unlink tp }

/-- Put a timer on the queue that it belongs to. -/
def Timers.enqueue (m : Timers τ) (tp : τ) : Timers τ :=
  { m with links := m.links.push ((m.tim tp).tLbolt % TIMQ) tp }

/-- `timeout`. -/
def Timers.timeout (m : Timers τ) (tp : τ) (n : ℕ) (f : Option ℕ) (a : ℤ) : Timers τ :=
  let m := m.unlink tp
  let m := m.setTim tp { m.tim tp with tFunc := f }
  if f = none then m
  else
    let m := m.setTim tp { m.tim tp with tLbolt := (m.lbolt + n) % LBOLTS, tFarg := a }
    m.enqueue tp

/-- `timeout2`. -/
def Timers.timeout2 (m : Timers τ) (tp : τ) (n : ℤ) (f : Option ℕ) (a : ℤ) : Timers τ :=
  let m := m.unlink tp
  if f = none ∨ n = 0 then m
  else
    let m := m.setTim tp
      { tLbolt := ((m.lbolt + n) % LBOLTS).toNat, tFunc := f, tFarg := a }
    m.enqueue tp

/-! ### The walk -/

/-- `check_clock` serves a tick: it starts a walk. -/
def Timers.tick (m : Timers τ) : Timers τ :=
  let lbolt := (m.lbolt + 1) % LBOLTS
  { m with lbolt := lbolt, phase := .walk (m.links.next (.head (lbolt % TIMQ))) }

/-- `check_clock` looks at the timer `tp`, and calls its function when it is due: the result has the
    function and its argument then.  A null pointer ends the run. -/
def Timers.look (m : Timers τ) (tp : τ) : Option (Timers τ × Option (ℕ × ℤ)) :=
  let np := m.links.next (.cell tp)
  if (m.tim tp).tLbolt ≠ m.lbolt then some ({ m with phase := .walk np }, none)
  else
    match m.links.last tp, (m.tim tp).tFunc with
    | some _, some f => some ({ m.unlink tp with phase := .call np }, some (f, (m.tim tp).tFarg))
    | _, _ => none

/-! ### The system -/

/-- The timers, and their history: the number of ticks, of which `lbolt` has the low bits, and the
    requests.  For each request there are the tick, the function and the argument that it asks for,
    the calls that it has got, and whether it has been ended by another one; `arming` has the last
    request for a timer. -/
structure System (τ : Type*) where
  timers : Timers τ
  ticks : ℕ
  count : ℕ
  arming : τ → ℕ
  want : ℕ → ℕ × ℕ × ℤ
  ran : ℕ → List (ℕ × ℕ × ℤ)
  ended : ℕ → Bool

/-- A step: a call of `timeout` or `timeout2`, or one of `check_clock`. -/
inductive Event (τ : Type*) where
  | timeout (tp : τ) (n : Fin LBOLTS) (f : Option ℕ) (a : ℤ)
  | timeout2 (tp : τ) (n : ℤ) (f : Option ℕ) (a : ℤ)
  | tick
  | look
  | ret
  | done

/-- The ticks until `lbolt` is `n` more: `lbolt` has to come round for none. -/
def wait (n : ℕ) : ℕ := if n = 0 then LBOLTS else n

/-- A request ends the one that the timer is queued for. -/
def System.endRequest (m : System τ) (tp : τ) : System τ :=
  { m with ended := if m.timers.links.last tp = none then m.ended
           else Function.update m.ended (m.arming tp) true }

/-- A new request. -/
def System.request (m : System τ) (tp : τ) (n : ℕ) (f : ℕ) (a : ℤ) : System τ :=
  { m with
    count := m.count + 1
    arming := Function.update m.arming tp m.count
    want := Function.update m.want m.count (m.ticks + wait n, f, a) }

/-- A step.  Requests come from outside of the walk, or while it calls a function. -/
def System.step (m : System τ) : Event τ → Option (System τ)
  | .timeout tp n f a =>
      match m.timers.phase with
      | .walk _ => none
      | _ =>
          let s := m.endRequest tp
          let s := match f with
            | none => s
            | some f => s.request tp n f a
          some { s with timers := m.timers.timeout tp n f a }
  | .timeout2 tp n f a =>
      match m.timers.phase with
      | .walk _ => none
      | _ =>
          let s := m.endRequest tp
          let s := match f with
            | none => s
            | some f => if n = 0 then s else s.request tp (n % LBOLTS).toNat f a
          some { s with timers := m.timers.timeout2 tp n f a }
  | .tick =>
      match m.timers.phase with
      | .idle => some { m with timers := m.timers.tick, ticks := m.ticks + 1 }
      | _ => none
  | .look =>
      match m.timers.phase with
      | .walk (some tp) =>
          (m.timers.look tp).map fun (timers, call) =>
            { m with
              timers := timers
              ran := match call with
                | none => m.ran
                | some call =>
                    Function.update m.ran (m.arming tp)
                      (m.ran (m.arming tp) ++ [(m.ticks, call)]) }
      | _ => none
  | .ret =>
      match m.timers.phase with
      | .call np => some { m with timers := { m.timers with phase := .walk np } }
      | _ => none
  | .done =>
      match m.timers.phase with
      | .walk none => some { m with timers := { m.timers with phase := .idle } }
      | _ => none

/-- No timers yet. -/
def Init (m : System τ) : Prop :=
  (∀ i, m.timers.links.next (.head i) = none) ∧ (∀ t, m.timers.links.last t = none) ∧
    m.timers.lbolt = m.ticks % LBOLTS ∧ m.timers.phase = .idle ∧ m.count = 0 ∧
    ∀ n, m.ran n = [] ∧ m.ended n = false

end CohKernel.Clock
