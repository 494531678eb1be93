import CohKernel.Lib.Links
import CohKernel.Lib.Runs

namespace CohKernel.Dma

open CohKernel.Lib

/-!
# The lock of the DMA controller

`dmalock` and `dmaunlock` of `dmalock.c`.  The caller's own `TIM` is the node of the queue: it has
the link, and the function to be called when the request comes to the head.  Both functions run with
interrupts masked, so a call is one step; the deferred function is called last, and the calls that
it makes are the next steps.
-/

variable {Tim Fn : Type} [DecidableEq Tim]

/-- The queue, and the fields of the `TIM` structures that it uses; `tFunc` is the function with its
    argument. -/
structure Queue (Tim Fn : Type) where
  dmalck : Bool
  dmahead : Option Tim
  dmatail : Option Tim
  tNext : Tim → Option Tim
  tFunc : Tim → Fn

namespace Queue

/-- `dmalock`: the queue and what it returns.  It fails at a null `dmatail`. -/
def dmalock (q : Queue Tim Fn) (dfp : Tim) (fn : Fn) : Option (Queue Tim Fn × ℤ) :=
  if q.dmalck then
    -- the structure is written before it is looked for
    let q := { q with
      tFunc := Function.update q.tFunc dfp fn
      tNext := Function.update q.tNext dfp none }
    match q.dmahead with
    | none => some ({ q with dmahead := some dfp, dmatail := some dfp }, 0)
    | some head =>
      if head = dfp then some (q, 0)
      else do
        let tail ← q.dmatail
        some ({ q with tNext := Function.update q.tNext tail (some dfp), dmatail := some dfp }, -1)
  else some (q, 0)

/-- The loop of `dmaunlock` that looks for the link to `dfp`.  It fails at a null `qp`, or when it
    goes on longer than there are structures, and so for ever. -/
def search (q : Queue Tim Fn) (dfp : Tim) : ℕ → Option Tim → Option (Option Tim)
  | 0, _ => none
  | fuel + 1, qp =>
      if qp = q.dmatail then some none
      else do
        let qp ← qp
        if q.tNext qp = some dfp then some (some qp) else search q dfp fuel (q.tNext qp)

/-- The request of `dfp` is taken out behind `qp`. -/
def remove (q : Queue Tim Fn) (qp dfp : Tim) : Queue Tim Fn :=
  { q with
    tNext := Function.update q.tNext qp (q.tNext dfp)
    dmatail := if q.dmatail = some dfp then some qp else q.dmatail }

/-- `dmaunlock`: the queue, and the request whose function is called.  It fails at a call through a
    null `dmahead`. -/
def dmaunlock [Fintype Tim] (q : Queue Tim Fn) (dfp : Tim) :
    Option (Queue Tim Fn × Option (Tim × Fn)) :=
  match q.dmahead with
  | none => some (q, none)
  | some head =>
    if head ≠ dfp then do
      match ← q.search dfp (Fintype.card Tim + 1) q.dmahead with
      | none => some (q, none)
      | some qp => some (q.remove qp dfp, none)
    else if q.dmahead = q.dmatail then some ({ q with dmahead := none }, none)
    else do
      let next ← q.tNext head
      some ({ q with dmahead := some next }, some (next, q.tFunc next))

/-- The structures that the links lead to. -/
def queued [Fintype Tim] (q : Queue Tim Fn) : List Tim :=
  walk q.tNext (Fintype.card Tim) q.dmahead

end Queue

/-! ### Runs -/

/-- The queue, and what has come of the calls: `owners` have been told that the controller is
    theirs, by a return of zero or by a call of their function, and have not unlocked it; `asked`
    are the requests that were put off, `called` those whose function has been called, and `gone`
    those that were given up. -/
structure Sys (Tim Fn : Type) where
  q : Queue Tim Fn
  owners : Tim → Bool
  asked : List (Tim × Fn)
  called : List (Tim × Fn)
  gone : List (Tim × Fn)

/-- A call by a driver. -/
inductive Call (Tim Fn : Type) where
  | dmalock (dfp : Tim) (fn : Fn)
  | dmaunlock (dfp : Tim)

/-- A call is made.  With the lock disabled nothing is recorded. -/
def Sys.step [Fintype Tim] (s : Sys Tim Fn) : Call Tim Fn → Option (Sys Tim Fn)
  | .dmalock dfp fn => do
      let (q, r) ← s.q.dmalock dfp fn
      if s.q.dmalck = false then some s
      else if r = 0 then some { s with q := q, owners := Function.update s.owners dfp true }
      else some { s with q := q, asked := s.asked ++ [(dfp, fn)] }
  | .dmaunlock dfp => do
      let (q, called) ← s.q.dmaunlock dfp
      let owners := Function.update s.owners dfp false
      match called with
      | some (next, fn) =>
        some { s with
          q := q, owners := Function.update owners next true, called := s.called ++ [(next, fn)] }
      | none =>
        -- a request that waits is given up
        let gone := if dfp ∈ s.q.queued.tail then [(dfp, s.q.tFunc dfp)] else []
        some { s with q := q, owners := owners, gone := s.gone ++ gone }

/-- At the start the queue is empty. -/
def Sys.Start (s : Sys Tim Fn) : Prop :=
  s.q.dmahead = none ∧ s.q.dmatail = none ∧ (∀ d, s.owners d = false) ∧ s.asked = [] ∧
    s.called = [] ∧ s.gone = []

/-- The requests that wait, in order. -/
def Sys.waiting [Fintype Tim] (s : Sys Tim Fn) : List (Tim × Fn) :=
  s.q.queued.tail.map fun d => (d, s.q.tFunc d)

/-- What is claimed: the queue is a finite chain of distinct requests from `dmahead` to `dmatail`,
    its head and nobody else has the controller, the requests that were put off have been called in
    their order or wait in it, and each of them has been called once, or waits, or has been given
    up. -/
structure Sys.Kept [Fintype Tim] (s : Sys Tim Fn) : Prop where
  linked : Linked s.q.tNext s.q.dmahead s.q.queued
  distinct : s.q.queued.Nodup
  tail : s.q.dmahead ≠ none → s.q.dmatail = s.q.queued.getLast?
  owner : ∀ d, s.owners d = true ↔ s.q.dmahead = some d
  order : (s.called ++ s.waiting).Sublist s.asked
  account : s.asked.Perm (s.called ++ s.waiting ++ s.gone)

/-- The call does not lock with a structure that is in the queue, unless it is there alone. -/
def Sys.Fresh [Fintype Tim] (s : Sys Tim Fn) : Call Tim Fn → Prop
  | .dmalock dfp _ => s.q.dmalck = true → dfp ∈ s.q.queued → s.q.queued = [dfp]
  | .dmaunlock _ => True

end CohKernel.Dma
