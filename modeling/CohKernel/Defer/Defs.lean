import CohKernel.Lib.Ring
import CohKernel.Lib.Runs

namespace CohKernel.Defer

open CohKernel.Lib

/-!
# Deferred functions

The two rings of deferred functions: `defer0` and `defend` of `defer.c`, and `DEFER` and
`__RUN_INT_DEFER` of the DDI/DKI library.  Functions are deferred with interrupts disabled; the
functions that run them may be interrupted before each of their steps, and while a deferred function
runs, which may do the same calls.
-/

/-! ### The ring of `defer.c` -/

/-- Maximum number of deferred functions. -/
def DEFLIM : ℕ := 128

/-- Where an activation of `defend` is: before its test of the count, in a function, or before it
    decrements the count. -/
inductive Frame where
  | test
  | calling
  | advanced
  deriving DecidableEq

/-- The ring, and the activations of `defend`, the innermost first.  A function stands for its
    argument and tag as well.  The last two fields are not of the source: the functions that have
    been accepted, and those that have been called. -/
structure State (F : Type) where
  defunc : ℕ → F
  defqix : ℕ
  defqox : ℕ
  defcnt : ℤ
  stack : List Frame
  accepted : List F
  started : List F

variable {F : Type}

/-- `++ index`, with wrap-around. -/
def next (index max : ℕ) : ℕ := if index + 1 ≥ max then 0 else index + 1

/-- `defer0` -/
def State.defer0 (s : State F) (f : F) : State F :=
  if s.defcnt < DEFLIM then
    { s with
      defunc := Function.update s.defunc s.defqix f
      defqix := next s.defqix DEFLIM
      defcnt := s.defcnt + 1
      accepted := s.accepted ++ [f] }
  else s

/-- The innermost `defend` goes on.  `defcnt --` is one instruction. -/
def State.go (s : State F) : Option (State F) :=
  match s.stack with
  | [] => none
  | .test :: frames =>
      if s.defcnt ≠ 0 then
        some { s with stack := .calling :: frames, started := s.started ++ [s.defunc s.defqox] }
      else some { s with stack := frames }
  | .calling :: frames =>
      some { s with defqox := next s.defqox DEFLIM, stack := .advanced :: frames }
  | .advanced :: frames => some { s with defcnt := s.defcnt - 1, stack := .test :: frames }

/-- A function is deferred, at any time; `defend` is called, when it is not active or by a function
    that it has called; or it goes on. -/
inductive Event (F : Type) where
  | defer (f : F)
  | defend
  | go

/-- One step. -/
def step (s : State F) : Event F → Option (State F)
  | .defer f => some (s.defer0 f)
  | .defend =>
      if s.stack = [] ∨ s.stack.head? = some .calling then
        some { s with stack := .test :: s.stack }
      else none
  | .go => s.go

/-- The ring is empty. -/
def Initial (s : State F) : Prop :=
  s.defqix = 0 ∧ s.defqox = 0 ∧ s.defcnt = 0 ∧ s.stack = [] ∧ s.accepted = [] ∧ s.started = []

/-! ### The ring of the library -/

/-- Where the activation of `__RUN_INT_DEFER` that has the lock is: there is none, or it is before
    its test of the indices, in a function, or before it stores the index. -/
inductive RunPc where
  | idle
  | test
  | calling (idx : ℕ)
  | returned (idx : ℕ)
  deriving DecidableEq

/-- `defer_t`, and the activation that has the lock `df_rlock`. -/
structure Ring (F : Type) where
  dfTab : ℕ → F
  dfRead : ℕ
  dfMax : ℕ
  dfWrite : ℕ
  dfRlock : Bool
  pc : RunPc
  accepted : List F
  started : List F

/-- The index after another one. -/
def Ring.wrap (r : Ring F) (idx : ℕ) : ℕ := if idx + 1 = r.dfMax then 0 else idx + 1

/-- `DEFER` -/
def Ring.defer (r : Ring F) (funcp : F) : Ring F :=
  let r := { r with dfTab := Function.update r.dfTab r.dfWrite funcp }
  if r.wrap r.dfWrite ≠ r.dfRead then
    { r with dfWrite := r.wrap r.dfWrite, accepted := r.accepted ++ [funcp] }
  else r

/-- `__RUN_INT_DEFER` is called.  It returns when the table is locked. -/
def Ring.run (r : Ring F) : Ring F :=
  if r.dfRlock then r else { r with dfRlock := true, pc := .test }

/-- The activation that has the lock goes on. -/
def Ring.go (r : Ring F) : Option (Ring F) :=
  match r.pc with
  | .idle => none
  | .test =>
      if r.dfRead ≠ r.dfWrite then
        some { r with pc := .calling r.dfRead, started := r.started ++ [r.dfTab r.dfRead] }
      else some { r with dfRlock := false, pc := .idle }
  | .calling idx => some { r with pc := .returned (r.wrap idx) }
  | .returned idx => some { r with dfRead := idx, pc := .test }

/-- One step. -/
def Ring.step (r : Ring F) : Event F → Option (Ring F)
  | .defer f => some (r.defer f)
  | .defend => some r.run
  | .go => r.go

/-- The ring as `DEFER_INIT` leaves it.  The number of its entries is of type `uchar_t`. -/
def Ring.Initial (r : Ring F) : Prop :=
  0 < r.dfMax ∧ r.dfMax < 2 ^ 8 ∧ r.dfRead = 0 ∧ r.dfWrite = 0 ∧ r.dfRlock = false ∧
    r.pc = .idle ∧ r.accepted = [] ∧ r.started = []

end CohKernel.Defer
