import Mathlib.Data.List.Basic
import Mathlib.Logic.Function.Basic
import CohKernel.Lib.Runs

namespace CohKernel.Mux

open CohKernel.Lib

/-!
# Streams linked below multiplexors

`SHEAD_LINK` with `DETECT_LOOP`, `SHEAD_UNLINK` and the loop of `SHEAD_FINAL_CLOSE` that unlinks
what is linked below a stream, for device streams.  A process goes from one point where others may
come in to the next; the sleep lock of a stream is the one for open and close.
-/

/-! ### Data -/

/-- `muxid_t` -/
abbrev Muxid := BitVec 32

/-- A stream head: the driver, its device number, the stream that it is linked below, with what
    identifier and whether for good, and the open count. -/
structure Shead (κ δ : Type) where
  shTab : δ
  shDev : Muxid
  shLinked : Option κ
  shMuxid : Muxid
  shPlink : Bool
  shOpenCount : ℕ

/-- Where a process is.  In `SHEAD_LINK`: it looks for an identifier, it waits for the lower stream,
    or for the driver.  In `SHEAD_UNLINK`: it waits for the lower stream, for the driver, or until
    the lower stream is closed.  In `SHEAD_FINAL_CLOSE`: it is at the loop. The commands for
    persistent links are those with `plink`. -/
inductive Frame (κ : Type) where
  | naming (upper lower : κ) (plink : Bool) (muxid : Muxid)
  | named (upper lower : κ) (plink : Bool) (muxid : Muxid)
  | linked (upper lower : κ)
  | unlinking (upper lower : κ) (plink : Bool)
  | unlinked (upper lower : κ)
  | unlinkClosed (upper lower : κ)
  | closing (sheadp : κ)

/-- The stream heads and `sm_streams [DEV_SLIST]`, which drivers are multiplexors, and for each
    stream the process that has its sleep lock; for each process, where it is, the last call first.
    What is recorded: how often each stream is open for users, and of each `SHEAD_UNLINK` whether
    the link was of the kind asked for and whether the driver was asked to undo it. -/
structure Sys (κ δ τ : Type) where
  head : κ → Shead κ δ
  streams : List κ
  muxinit : δ → Bool
  holder : κ → Option τ
  stack : τ → List (Frame κ)
  opens : κ → ℕ
  unlinks : List (Bool × Bool)

namespace Sys

variable {κ δ τ : Type} [DecidableEq κ] [DecidableEq δ] [DecidableEq τ]

/-- A stream head is changed. -/
def set (s : Sys κ δ τ) (k : κ) (f : Shead κ δ → Shead κ δ) : Sys κ δ τ :=
  { s with head := Function.update s.head k (f (s.head k)) }

/-- A process is in another place. -/
def setStack (s : Sys κ δ τ) (t : τ) (stack : List (Frame κ)) : Sys κ δ τ :=
  { s with stack := Function.update s.stack t stack }

/-- A process takes the sleep lock of a stream. -/
def hold (s : Sys κ δ τ) (k : κ) (t : τ) : Sys κ δ τ :=
  { s with holder := Function.update s.holder k (some t) }

/-- `SHEAD_SLEEP_UNLOCK`; `last` is whether no other process waits for the lock. -/
def unlock (s : Sys κ δ τ) (k : κ) (last : Bool) : Sys κ δ τ :=
  let s := { s with holder := Function.update s.holder k none }
  if last ∧ (s.head k).shOpenCount = 0 then { s with streams := s.streams.erase k } else s

/-! ### Linking -/

/-- `SHEAD_FIND_MUXID` -/
def sheadFindMuxid (s : Sys κ δ τ) (upper : κ) (plink : Bool) (muxid : Muxid) : Option κ :=
  s.streams.find? fun scan =>
    (s.head scan).shLinked = some upper ∧ (s.head scan).shPlink = plink ∧
      ((s.head scan).shMuxid = muxid ∨ muxid = -1)

/-- `DETECT_LOOP`, with a limit on the depth of the recursion. -/
def detectLoop (s : Sys κ δ τ) : ℕ → κ → κ → Option Bool
  | 0, _, _ => none
  | depth + 1, upper, lower =>
      if (s.head upper).shTab = (s.head lower).shTab then some true
      else
        match (s.head upper).shLinked with
        | none => some false
        | some upper =>
            s.streams.anyM fun scan =>
              if (s.head scan).shTab = (s.head upper).shTab then s.detectLoop depth scan lower
              else some false

/-- `SHEAD_LINK` sets the lower stream up. -/
def setLinked (s : Sys κ δ τ) (upper lower : κ) (plink : Bool) (muxid : Muxid) : Sys κ δ τ :=
  s.set lower fun head =>
    { head with
      shOpenCount := head.shOpenCount + 1
      shLinked := some upper
      shMuxid := muxid
      shPlink := head.shPlink || plink }

/-- `SHEAD_INIT_UNLINKED` -/
def sheadInitUnlinked (s : Sys κ δ τ) (k : κ) : Sys κ δ τ :=
  s.set k fun head =>
    { head with shLinked := none, shPlink := false, shOpenCount := head.shOpenCount - 1 }

/-- `SHEAD_LINK` returns. -/
def linkReturn (s : Sys κ δ τ) (t : τ) (upper : κ) (last : Bool) : Sys κ δ τ :=
  (s.setStack t []).unlock upper last

/-! ### Unlinking -/

/-- Whether a stream is linked below another one with a link of the kind that is asked for. -/
def matching (s : Sys κ δ τ) (upper lower : κ) (plink : Bool) : Bool :=
  (s.head lower).shLinked = some upper ∧ (s.head lower).shPlink = plink

/-- Whether `LOCKED_UNLINK` returns `EINVAL` at once. -/
def refused (s : Sys κ δ τ) (upper lower : κ) (plink : Bool) : Bool :=
  (s.head lower).shLinked ≠ some upper ∨ (s.head lower).shPlink = plink

/-- `SHEAD_UNLINK` returns a number to the function that called it. -/
def unlinkReturn (s : Sys κ δ τ) (t : τ) (upper lower : κ) (rest : List (Frame κ))
    (success last : Bool) : Sys κ δ τ :=
  match rest with
  | [] => (s.setStack t []).unlock upper last
  | frame :: rest =>
      if success then s.setStack t (frame :: rest)
      else (s.set lower fun head => { head with shLinked := none }).setStack t (frame :: rest)

/-! ### A process goes on -/

/-- A process goes on, up to the next point where others may come in.  `ok` is whether a lock can be
    had and the lower stream is in order, or whether the driver has acknowledged; a stream that is
    linked is open for users until it is. -/
def next (s : Sys κ δ τ) (t : τ) (ok last : Bool) : List (Frame κ) → Option (Sys κ δ τ)
  | [] => none
  | .naming upper lower plink muxid :: rest =>
      if (s.sheadFindMuxid upper plink muxid).isSome then
        some (s.setStack t (.naming upper lower plink (muxid + 1) :: rest))
      else some (s.setStack t (.named upper lower plink muxid :: rest))
  | .named upper lower plink muxid :: rest =>
      if ok = false then some (s.linkReturn t upper last)
      else if s.holder lower ≠ none ∨ s.opens lower = 0 then none
      else if (s.head lower).shLinked ≠ none then some (s.linkReturn t upper last)
      else
        some (((s.hold lower t).setLinked upper lower plink muxid).setStack t
          (.linked upper lower :: rest))
  | .linked upper lower :: _ =>
      let s := if ok then s else s.sheadInitUnlinked lower
      some ((s.unlock lower last).linkReturn t upper last)
  | .unlinking upper lower plink :: rest =>
      if ok = false then some (s.unlinkReturn t upper lower rest true last)
      else if s.holder lower ≠ none then none
      else
        let refused := s.refused upper lower plink
        let s := { s with unlinks := (s.matching upper lower plink, !refused) :: s.unlinks }
        if refused then some (s.unlinkReturn t upper lower rest true last)
        else some ((s.hold lower t).setStack t (.unlinked upper lower :: rest))
  | .unlinked upper lower :: rest =>
      if ok = false then some ((s.unlock lower last).unlinkReturn t upper lower rest false last)
      else
        let s := s.sheadInitUnlinked lower
        if (s.head lower).shOpenCount = 0 then
          some (s.setStack t (.closing lower :: .unlinkClosed upper lower :: rest))
        else some ((s.unlock lower last).unlinkReturn t upper lower rest true last)
  | .unlinkClosed upper lower :: rest =>
      some ((s.unlock lower last).unlinkReturn t upper lower rest true last)
  | .closing sheadp :: rest =>
      match s.sheadFindMuxid sheadp false (-1) with
      | some scan => some (s.setStack t (.unlinking sheadp scan false :: .closing sheadp :: rest))
      | none =>
          match rest with
          | [] => some ((s.setStack t []).unlock sheadp last)
          | frame :: rest => some (s.setStack t (frame :: rest))

end Sys

/-! ### Runs -/

/-- What may happen: a stream is opened, two are linked, one is unlinked, one is closed, and a
    process goes on. -/
inductive Event (κ δ τ : Type) where
  | opens (k : κ) (tab : δ) (dev : Muxid)
  | link (t : τ) (upper lower : κ) (plink : Bool) (depth : ℕ)
  | unlink (t : τ) (upper lower : κ) (plink : Bool)
  | close (t : τ) (k : κ)
  | next (t : τ) (ok last : Bool)

namespace Sys

variable {κ δ τ : Type} [DecidableEq κ] [DecidableEq δ] [DecidableEq τ]

/-- A step.  A stream that is not on the list is given a stream head; the callers of `SHEAD_LINK`,
    `SHEAD_UNLINK` and `SHEAD_DO_CLOSE` have the sleep lock of the stream. -/
def step (s : Sys κ δ τ) : Event κ δ τ → Option (Sys κ δ τ)
  | .opens k tab dev =>
      if s.holder k ≠ none then none
      else
        let s := { s with opens := Function.update s.opens k (s.opens k + 1) }
        if k ∈ s.streams then
          some (s.set k fun head => { head with shOpenCount := head.shOpenCount + 1 })
        else some { s.set k fun _ => ⟨tab, dev, none, 0, false, 1⟩ with streams := k :: s.streams }
  | .link t upper lower plink depth =>
      if s.stack t ≠ [] ∨ s.holder upper ≠ none ∨ s.opens upper = 0 then none
      else if s.muxinit (s.head upper).shTab = false then some s
      else
        match s.detectLoop depth upper lower with
        | none => none
        | some true => some s
        | some false =>
            some ((s.hold upper t).setStack t
              [.naming upper lower plink (s.head lower).shDev])
  | .unlink t upper lower plink =>
      if s.stack t ≠ [] ∨ s.holder upper ≠ none ∨ s.opens upper = 0 then none
      else some ((s.hold upper t).setStack t [.unlinking upper lower plink])
  | .close t k =>
      if s.stack t ≠ [] ∨ s.holder k ≠ none ∨ s.opens k = 0 then none
      else
        let s := { s with opens := Function.update s.opens k (s.opens k - 1) }
        let s := s.set k fun head => { head with shOpenCount := head.shOpenCount - 1 }
        if (s.head k).shOpenCount = 0 then some ((s.hold k t).setStack t [.closing k]) else some s
  | .next t ok last => s.next t ok last (s.stack t)

end Sys

end CohKernel.Mux
