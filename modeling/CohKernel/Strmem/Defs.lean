import Mathlib.Data.Fintype.Card
import Mathlib.Data.Fintype.EquivFin
import CohKernel.Lib.Runs
import CohKernel.Lib.Links

namespace CohKernel.Strmem

open CohKernel.Lib

/-!
# STREAMS memory

`STRMEM_ALLOC` and `STRMEM_FREE` with their watermarks, and the events that wait for memory:
`bufcall`, `esbbcall`, `unbufcall` and `RUN_BUFCALLS`.  `st_alloc` and `st_free` are functions of
the heap.  A process that waits for memory is on `sm_msg_sv`, which nothing signals.
-/

/-! ### Data -/

/-- The priorities of a request for memory, with which `sm_max` and `sm_bcevents` are indexed. -/
inductive Pri where
  | BPRI_LO
  | BPRI_MED
  | BPRI_HI
deriving DecidableEq

/-- `N_PRI_LEVELS` -/
def N_PRI_LEVELS : UInt32 := 3

/-- `TOID_INCREMENT` -/
def TOID_INCREMENT : UInt32 := N_PRI_LEVELS + 1

/-- `TOID_MAX` -/
def TOID_MAX : UInt32 := 0xffffffff

/-- `TOID_MODULUS` -/
def TOID_MODULUS : UInt32 := TOID_MAX - TOID_MAX % TOID_INCREMENT

/-- `TOID_TO_PRI` -/
def toidToPri (id : UInt32) : UInt32 := id % TOID_INCREMENT - 1

/-- The index of a priority. -/
def Pri.index : Pri → UInt32
  | .BPRI_LO => 0
  | .BPRI_MED => 1
  | .BPRI_HI => 2

/-- The priority with an index, if there is one. -/
def Pri.ofIndex (i : UInt32) : Option Pri :=
  if i = 0 then some .BPRI_LO else if i = 1 then some .BPRI_MED
  else if i = 2 then some .BPRI_HI else none

/-- `MSGB_SIZE`: the sizes of a message block and of a data block are added. -/
def msgbSize (n : UInt32) : UInt32 := n + 32 + 20

/-- What stops the kernel: a list is locked that is not there, or a loop does not end. -/
inductive Halt where
  | wild
  | endless
deriving DecidableEq

/-- An event. -/
structure Sevent (γ : Type) where
  seNext : Option γ
  sePrev : Option γ
  seArg : UInt32
  seFunc : UInt32
  seSize : UInt32
  seId : UInt32

/-- A list of events. -/
structure Selist (γ : Type) where
  slHead : Option γ
  slTail : Option γ
  slId : UInt32
deriving DecidableEq

/-- The functions of `<kernel/st_alloc.h>`; `st_free` may complain. -/
structure StHeap (β σ : Type) where
  stAlloc : σ → UInt32 → Option (β × σ)
  stFree : σ → β → UInt32 → Option σ

/-- A process that waits for memory: the size, and the priority. -/
structure Waiter where
  size : UInt32
  pri : Pri
deriving DecidableEq

/-- `RUN_BUFCALLS` under way: its list of events, and whether it has given up on some. -/
structure Runner (γ : Type) where
  runlist : Option γ
  again : Bool

/-- `struct streams_mem` as far as it concerns memory, with the event cells, the processes on
    `sm_msg_sv`, `dg_run_bufcalls`, and `RUN_BUFCALLS`. -/
structure StreamsMem (P γ σ : Type) where
  smUsed : UInt32
  smMax : Pri → UInt32
  smBcevents : Pri → Selist γ
  smMsgHeap : σ
  smMsgNeeded : UInt32
  cell : γ → Sevent γ
  asleep : P → Option Waiter
  runBufcalls : Bool
  runner : Option (Runner γ)

/-- `RUN_BUFCALLS` between two lists: the memory that it counts as used, the events that are to be
    run, and whether it has given up. -/
structure Gathered (P γ σ : Type) where
  mem : StreamsMem P γ σ
  memLevel : UInt32
  runlist : Option γ
  gaveUp : Bool

/-- A sixteenth less, as `STRMEM_INIT` computes it. -/
def lessSixteenth (size : UInt32) : UInt32 := size - size >>> 4

/-- `STRMEM_INIT`: the watermarks for a heap of a size. -/
def initMax (size : UInt32) : Pri → UInt32
  | .BPRI_HI => size
  | .BPRI_MED => lessSixteenth size
  | .BPRI_LO => lessSixteenth (lessSixteenth size)

namespace StreamsMem

variable {P β γ σ : Type}

/-! ### Memory -/

/-- `SCHEDULE_BUFCALLS`: `RUN_BUFCALLS` is deferred, unless it is already. -/
def scheduleBufcalls (m : StreamsMem P γ σ) : StreamsMem P γ σ := { m with runBufcalls := true }

/-- The attempt of `STRMEM_ALLOC` to get memory. -/
def tryAlloc (h : StHeap β σ) (m : StreamsMem P γ σ) (size : UInt32) (pri : Pri) :
    Option (β × StreamsMem P γ σ) :=
  if m.smUsed + size ≤ m.smMax pri then
    (h.stAlloc m.smMsgHeap size).map fun got =>
      (got.1, { m with smMsgHeap := got.2, smUsed := m.smUsed + size })
  else none

/-- A process goes to sleep in `STRMEM_ALLOC`. -/
def sleep [DecidableEq P] (m : StreamsMem P γ σ) (p : P) (size : UInt32) (pri : Pri) :
    StreamsMem P γ σ :=
  { m with
    smMsgNeeded := if m.smMsgNeeded = 0 ∨ size < m.smMsgNeeded then size else m.smMsgNeeded
    asleep := Function.update m.asleep p (some ⟨size, pri⟩) }

/-- `STRMEM_ALLOC`, to where it returns or sleeps, with the block that it returns. -/
def strmemAlloc [DecidableEq P] (h : StHeap β σ) (m : StreamsMem P γ σ) (p : P) (size : UInt32)
    (pri : Pri) (kmSleep : Bool) : StreamsMem P γ σ × Option β :=
  if m.smMax pri < size then (m, none)
  else
    match m.tryAlloc h size pri with
    | some (b, m) => (m, some b)
    | none => if kmSleep then (m.sleep p size pri, none) else (m, none)

/-- `STRMEM_FREE`, with whether `st_free` has freed the block. -/
def strmemFree (h : StHeap β σ) (m : StreamsMem P γ σ) (b : β) (size : UInt32) :
    StreamsMem P γ σ × Bool :=
  match h.stFree m.smMsgHeap b size with
  | none => (m, false)
  | some heap =>
      ({ m with smMsgHeap := heap, smUsed := m.smUsed - size }.scheduleBufcalls, true)

/-! ### Events -/

section Events

variable [DecidableEq γ]

/-- Store a list of events. -/
def setList (m : StreamsMem P γ σ) (pri : Pri) (l : Selist γ) : StreamsMem P γ σ :=
  { m with smBcevents := Function.update m.smBcevents pri l }

/-- Store an event. -/
def setCell (m : StreamsMem P γ σ) (c : γ) (e : Sevent γ) : StreamsMem P γ σ :=
  { m with cell := Function.update m.cell c e }

/-- `STORE_EVENT`, with the identifier that it returns. -/
def storeEvent (m : StreamsMem P γ σ) (c : γ) (pri : Pri) : StreamsMem P γ σ × UInt32 :=
  let l := m.smBcevents pri
  let id := l.slId
  let l := { l with slId := (id + TOID_INCREMENT) % TOID_MODULUS }
  match l.slTail with
  | none =>
      ((m.setCell c { m.cell c with seId := id, sePrev := none, seNext := none }).setList pri
        { l with slHead := some c, slTail := some c }, id)
  | some sprev =>
      let m := m.setCell sprev { m.cell sprev with seNext := some c }
      ((m.setCell c { m.cell c with seId := id, sePrev := some sprev, seNext := none }).setList pri
        { l with slTail := some c }, id)

/-- `bufcall` for a message of a size, with the cell that `kmem_alloc` gives it. -/
def bufcall (m : StreamsMem P γ σ) (size : UInt32) (pri : Pri) (func arg : UInt32) (c : γ) :
    StreamsMem P γ σ × UInt32 :=
  let event := { m.cell c with seArg := arg, seFunc := func, seSize := msgbSize size }
  (m.setCell c event).storeEvent c pri

/-- `esbbcall` -/
def esbbcall (m : StreamsMem P γ σ) (pri : Pri) (func arg : UInt32) (c : γ) :
    StreamsMem P γ σ × UInt32 := m.bufcall 0 pri func arg c

variable [Fintype γ]

/-- The loop of `unbufcall`. -/
def unbufScan (id : UInt32) (pri : Pri) :
    ℕ → StreamsMem P γ σ → Option γ → Option γ → Except Halt (StreamsMem P γ σ)
  | _, m, _, none => .ok m
  | 0, _, _, some _ => .error .endless
  | fuel + 1, m, sprev, some scan =>
      if (m.cell scan).seId = id then
        let next := (m.cell scan).seNext
        let m := match sprev with
          | none => m.setList pri { m.smBcevents pri with slHead := next }
          | some sprev => m.setCell sprev { m.cell sprev with seNext := next }
        .ok (if (m.smBcevents pri).slTail = some scan then
          m.setList pri { m.smBcevents pri with slTail := sprev } else m)
      else unbufScan id pri fuel m (some scan) (m.cell scan).seNext

/-- `unbufcall`: the list is that with the index `TOID_TO_PRI (id)`, which need not be there. -/
def unbufcall (m : StreamsMem P γ σ) (id : UInt32) : Except Halt (StreamsMem P γ σ) :=
  match Pri.ofIndex (toidToPri id) with
  | none => .error .wild
  | some pri => unbufScan id pri (Fintype.card γ) m none (m.smBcevents pri).slHead

/-- An event goes from the head of its list to the events that are to be run. -/
def takeEvent (g : Gathered P γ σ) (pri : Pri) (c : γ) (memLevel : UInt32) : Gathered P γ σ :=
  let e := g.mem.cell c
  { g with
    mem := (g.mem.setList pri { g.mem.smBcevents pri with slHead := e.seNext }).setCell c
      { e with seNext := g.runlist }
    memLevel := memLevel
    runlist := some c }

/-- The loop of `RUN_BUFCALLS` over a list of events. -/
def drain (pri : Pri) : ℕ → Gathered P γ σ → Except Halt (Gathered P γ σ)
  | fuel, g =>
    match (g.mem.smBcevents pri).slHead, fuel with
    | none, _ =>
        .ok { g with mem := g.mem.setList pri { g.mem.smBcevents pri with slTail := none } }
    | some _, 0 => .error .endless
    | some c, fuel + 1 =>
        let memLevel := g.memLevel + (g.mem.cell c).seSize
        if g.mem.smMax pri < memLevel then .ok { g with memLevel := memLevel, gaveUp := true }
        else drain pri fuel (takeEvent g pri c memLevel)

/-- `RUN_BUFCALLS` goes on to the next list unless it has given up. -/
def gather (pri : Pri) (g : Gathered P γ σ) : Except Halt (Gathered P γ σ) :=
  if g.gaveUp then .ok g else drain pri (Fintype.card γ) g

/-- `RUN_BUFCALLS`, to where it begins to run the events. -/
def runBufcallsStart (m : StreamsMem P γ σ) : Except Halt (StreamsMem P γ σ) := do
  let g ← gather .BPRI_HI ⟨{ m with runBufcalls := false }, m.smUsed, none, false⟩
  let g ← gather .BPRI_MED g
  let g ← gather .BPRI_LO g
  return { g.mem with runner := some ⟨g.runlist, g.gaveUp⟩ }

/-- `RUN_BUFCALLS` runs an event and frees its cell; when all have been run, it defers itself if it
    has given up.  The cell is returned. -/
def runBufcallsNext (m : StreamsMem P γ σ) (r : Runner γ) : StreamsMem P γ σ × Option γ :=
  match r.runlist with
  | some c => ({ m with runner := some { r with runlist := (m.cell c).seNext } }, some c)
  | none =>
      let m := { m with runner := none }
      (if r.again then m.scheduleBufcalls else m, none)

end Events

end StreamsMem

end CohKernel.Strmem
