import CohKernel.Lib.Runs
import CohKernel.Lib.Machine

namespace CohKernel.Fd

open CohKernel.Lib

/-!
# File descriptors

The file table entries of `fd.c`, the descriptors of the processes, and the calls that open, pipe,
duplicate, inherit, pass and close them.  An open, and the close of an inode, may sleep, and go on
in steps of their process.  A file table entry is named by a number; `kmem_alloc` gives a new one.
-/

/-! ### Data -/

/-- `__fd_t`.  The fields after `fIp` are not of the source: `kmem_alloc` has given the memory and
    `kmem_free` has not taken it back; `fd_init` has opened the inode; and how often `iclose` has
    been called for the entry. -/
structure File where
  fFlag : ℕ
  fRefc : Short
  fSeek : ℕ
  fIp : Option ℕ
  allocated : Bool
  opened : Bool
  closes : ℕ

/-- Who opens a descriptor: `uopen`, or `upipe` with its first one, or with its second one after the
    first. -/
inductive Opener (N : ℕ) where
  | uopen
  | first
  | second (fd1 : Fin N)

/-- Where a process is: it does not exist, it is in none of the calls, it opens a descriptor, it
    closes the inode of an entry, and exits afterwards or not, or it exits. -/
inductive Pc (N : ℕ) where
  | none
  | idle
  | opening (fd : Fin N) (who : Opener N)
  | closing (f : ℕ) (exits : Bool)
  | exiting

/-- The file table, the descriptors, and the processes.  `passing` are the messages of `FH_SEND`
    that have not been received. -/
structure State (P : Type) (N : ℕ) where
  file : ℕ → File
  nfiles : ℕ
  uFilep : P × Fin N → Option ℕ
  pc : P → Pc N
  passing : List ℕ

variable {P : Type} [DecidableEq P] {N : ℕ}

/-- Change an entry. -/
def State.setFile (s : State P N) (f : ℕ) (fdp : File) : State P N :=
  { s with file := Function.update s.file f fdp }

/-- Change a descriptor. -/
def State.setFilep (s : State P N) (p : P) (fd : Fin N) (f : Option ℕ) : State P N :=
  { s with uFilep := Function.update s.uFilep (p, fd) f }

/-- Change what a process does. -/
def State.setPc (s : State P N) (p : P) (pc : Pc N) : State P N :=
  { s with pc := Function.update s.pc p pc }

/-- `f_refc ++`. -/
def File.hold (fdp : File) : File := { fdp with fRefc := short (fdp.fRefc.val + 1) }

/-! ### The functions of `fd.c` -/

/-- The first free descriptor from a number on. -/
def State.freeFrom (s : State P N) (p : P) (base : ℕ) : Option (Fin N) :=
  (List.finRange N).find? fun fd => decide (base ≤ fd.val ∧ s.uFilep (p, fd) = none)

/-- `fd_dup`. -/
def State.fdDup (s : State P N) (p : P) (old : Fin N) (base : ℕ) : State P N :=
  match s.freeFrom p base, s.uFilep (p, old) with
  | some fd, some f => (s.setFilep p fd (some f)).setFile f (s.file f).hold
  | _, _ => s

/-- `fd_alloc`, when `kmem_alloc` has memory. -/
def State.fdAlloc (s : State P N) (p : P) (fd : Fin N) : State P N :=
  let fdp : File :=
    { fFlag := 0, fRefc := short 0, fSeek := 0, fIp := none
      allocated := true, opened := false, closes := 0 }
  { (s.setFile s.nfiles fdp).setFilep p fd (some s.nfiles) with nfiles := s.nfiles + 1 }

/-- `fd_init`, when `iopen` opens the inode. -/
def State.fdInit (s : State P N) (f ip mode : ℕ) : State P N :=
  s.setFile f { s.file f with fIp := some ip, fFlag := mode, fRefc := short 1, opened := true }

/-- `fd_finish`. -/
def State.fdFinish (s : State P N) (p : P) (fd : Fin N) : State P N :=
  match s.uFilep (p, fd) with
  | none => s
  | some f =>
      if (s.file f).fRefc.val = 0 then
        (s.setFile f { s.file f with allocated := false }).setFilep p fd none
      else s

/-- `fd_recv`. -/
def State.fdRecv (s : State P N) (p : P) (fd : Fin N) (f : ℕ) : State P N :=
  (s.setFilep p fd (some f)).setFile f (s.file f).hold

/-- `fd_close`, up to the call of `iclose`. -/
def State.fdClose (s : State P N) (p : P) (fd : Fin N) (exits : Bool) : State P N :=
  match s.uFilep (p, fd) with
  | none => s
  | some f =>
      let refc := short ((s.file f).fRefc.val - 1)
      let s := (s.setFilep p fd none).setFile f { s.file f with fRefc := refc }
      s.setPc p (if refc.val = 0 then .closing f exits else if exits then .exiting else .idle)

/-- `fd_dup_all`. -/
def fdDupAll (file : ℕ → File) : List (Option ℕ) → ℕ → File
  | [] => file
  | none :: fds => fdDupAll file fds
  | some f :: fds => fdDupAll (Function.update file f (file f).hold) fds

/-! ### Steps -/

/-- What happens: a process makes a call, or goes on in one.  `opened` is the end of `iopen`, which
    opens an inode or fails, with whatever fails before it; it has, for the second descriptor of
    `upipe`, the result of `kmem_alloc`.  `iclosed` is the end of `iclose`, and may leave the error
    `EINTR`. -/
inductive Event (P : Type) (N : ℕ) where
  | uopen (p : P)
  | upipe (p : P)
  | opened (p : P) (ip : Option (ℕ × ℕ)) (mem : Bool)
  | dup (p : P) (old : Fin N) (base : ℕ)
  | close (p : P) (fd : Fin N)
  | iclosed (p : P) (eintr : Bool)
  | pfork (p c : P)
  | send (p : P) (fd : Fin N)
  | recv (p : P) (f : ℕ)
  | drop (f : ℕ)
  | pexit (p : P)
  | closeNext (p : P)

/-- The process is in none of the calls. -/
def Pc.isIdle : Pc N → Bool
  | .idle => true
  | _ => false

/-- The process does not exist. -/
def Pc.isNone : Pc N → Bool
  | .none => true
  | _ => false

/-- An open goes on: `fd_init` and `fd_finish`, and for a pipe the second descriptor, or the close
    of the first one. -/
def State.goOn (s : State P N) (p : P) (fd : Fin N) (who : Opener N) (ip : Option (ℕ × ℕ))
    (mem : Bool) : State P N :=
  let s := match ip, s.uFilep (p, fd) with
    | some (ip, mode), some f => s.fdInit f ip mode
    | _, _ => s
  let s := (s.fdFinish p fd).setPc p .idle
  match who, ip with
  | .uopen, _ => s
  | .first, none => s
  | .first, some _ =>
      match mem, s.freeFrom p 0 with
      | true, some fd2 => (s.fdAlloc p fd2).setPc p (.opening fd2 (.second fd))
      | _, _ => s.fdClose p fd false
  | .second _, some _ => s
  | .second fd1, none => s.fdClose p fd1 false

/-- One step. -/
def step (s : State P N) : Event P N → Option (State P N)
  | .uopen p =>
      if (s.pc p).isIdle then
        (s.freeFrom p 0).map fun fd => (s.fdAlloc p fd).setPc p (.opening fd .uopen)
      else none
  | .upipe p =>
      if (s.pc p).isIdle then
        (s.freeFrom p 0).map fun fd => (s.fdAlloc p fd).setPc p (.opening fd .first)
      else none
  | .opened p ip mem =>
      match s.pc p with
      | .opening fd who => some (s.goOn p fd who ip mem)
      | _ => none
  | .dup p old base => if (s.pc p).isIdle then some (s.fdDup p old base) else none
  | .close p fd => if (s.pc p).isIdle then some (s.fdClose p fd false) else none
  | .iclosed p eintr =>
      match s.pc p with
      | .closing f exits =>
          let fdp := { s.file f with closes := (s.file f).closes + 1 }
          if eintr then some (s.setFile f fdp)
          else
            some ((s.setFile f { fdp with allocated := false }).setPc p
              (if exits then .exiting else .idle))
      | _ => none
  | .pfork p c =>
      if (s.pc p).isIdle = true ∧ (s.pc c).isNone = true then
        some { s with
          file := fdDupAll s.file ((List.finRange N).map fun fd => s.uFilep (p, fd))
          uFilep := fun i => if i.1 = c then s.uFilep (p, i.2) else s.uFilep i
          pc := Function.update s.pc c .idle }
      else none
  | .send p fd =>
      if (s.pc p).isIdle then
        (s.uFilep (p, fd)).map fun f => { s with passing := f :: s.passing }
      else none
  | .recv p f =>
      if (s.pc p).isIdle = true ∧ f ∈ s.passing then
        (s.freeFrom p 0).map fun fd => { s.fdRecv p fd f with passing := s.passing.erase f }
      else none
  | .drop f => some { s with passing := s.passing.erase f }
  | .pexit p => if (s.pc p).isIdle then some (s.setPc p .exiting) else none
  | .closeNext p =>
      match s.pc p with
      | .exiting =>
          match (List.finRange N).find? fun fd => (s.uFilep (p, fd)).isSome with
          | some fd => some (s.fdClose p fd true)
          | none => some (s.setPc p .none)
      | _ => none

/-- The first process, and no open file. -/
def Initial (s : State P N) : Prop :=
  (∀ f, (s.file f).allocated = false ∧ (s.file f).opened = false ∧ (s.file f).closes = 0) ∧
  (∀ i, s.uFilep i = none) ∧ (∃ p, ∀ q, s.pc q = if q = p then .idle else .none) ∧ s.passing = []

end CohKernel.Fd
