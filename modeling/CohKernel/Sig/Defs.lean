import CohKernel.Lib.Runs

namespace CohKernel.Sig

open CohKernel.Lib

/-!
# Signals of a process

The mask, the ignored and the pending signals and the dispositions of a process: `sig_act.c`,
`sig_mask.c` and `sig_pend.c` of the library, `usigsys` and `curr_check_signals` of `sig.c`, the
calls of `sys6.c`, and the part of `msigstart` and `msigend` that saves and restores the mask.
-/

/-! ### Sets and dispositions -/

/-- A set of signals. -/
abbrev Sigset := ℕ → Bool

/-- `_SIGNAL_MAX` -/
def SIGNAL_MAX : ℕ := 31

/-- The signals with a meaning of their own here. -/
def SIGILL : ℕ := 4

/-- `SIGTRAP` -/
def SIGTRAP : ℕ := 5

/-- `SIGKILL` -/
def SIGKILL : ℕ := 9

/-- `SIGSEGV` -/
def SIGSEGV : ℕ := 11

/-- `SIGCHLD` -/
def SIGCHLD : ℕ := 18

/-- `SIGPWR` -/
def SIGPWR : ℕ := 19

/-- `SIGWINCH` -/
def SIGWINCH : ℕ := 20

/-- `SIGURG` -/
def SIGURG : ℕ := 21

/-- `SIGPOLL` -/
def SIGPOLL : ℕ := 22

/-- `SIGSTOP` -/
def SIGSTOP : ℕ := 23

/-- `SIGTSTP` -/
def SIGTSTP : ℕ := 24

/-- `SIGCONT` -/
def SIGCONT : ℕ := 25

/-- `SIGTTIN` -/
def SIGTTIN : ℕ := 26

/-- `SIGTTOU` -/
def SIGTTOU : ℕ := 27

/-- The values of `sa_handler` that are not addresses of functions. -/
def SIG_DFL : ℕ := 0

/-- `SIG_IGN` -/
def SIG_IGN : ℕ := 1

/-- `SIG_HOLD` -/
def SIG_HOLD : ℕ := 2

/-- The default action for these signals is for them to be ignored. -/
def defaultIgnored (n : ℕ) : Bool :=
  decide (n = SIGCHLD ∨ n = SIGPWR ∨ n = SIGWINCH ∨ n = SIGURG ∨ n = SIGPOLL ∨ n = SIGCONT)

/-- `STOP_SIGNALS` -/
def stopSignals (n : ℕ) : Bool :=
  decide (n = SIGSTOP ∨ n = SIGTSTP ∨ n = SIGTTIN ∨ n = SIGTTOU)

/-- `SIGKILL` and `SIGSTOP` may never be blocked or caught. -/
def unblockable (n : ℕ) : Bool := decide (n = SIGKILL ∨ n = SIGSTOP)

/-- `__sigaction_t`.  `resethand` is `__SA_RESETHAND`; no caller sets another flag. -/
structure Sigaction where
  saHandler : ℕ
  saMask : Sigset
  resethand : Bool

/-! ### Processes -/

/-- A signal frame on the user's stack.  The last two fields are not of the source: the mask that
    was in force before the delivery, or before the call of `sigsuspend` in which it was made; and
    the signals that the handler has blocked, less those that the program itself has unblocked
    since. -/
structure Frame where
  sfSignalMask : Sigset
  before : Sigset
  blocked : Sigset

/-- Where a process is: at user level or in a call that does not end by a signal, asleep in
    `sigsuspend` with the mask of before, or in `pexit`. -/
inductive Pc where
  | running
  | suspended (mask : Sigset)
  | exiting

/-- The signal state of a process, and its signal frames, the innermost first. -/
structure State where
  pSignalMask : Sigset
  pIgnoredSignals : Sigset
  pPendingSignals : Sigset
  uSigact : ℕ → Sigaction
  frames : List Frame
  pc : Pc

/-! ### The library -/

/-- `curr_signal_mask`, with a mask. -/
def State.currSignalMask (s : State) (mask : Sigset) : State :=
  { s with pSignalMask := fun n => mask n && !unblockable n }

/-- The action that `curr_signal_action` stores. -/
def storedAction (signal : ℕ) (act : Sigaction) : Sigaction :=
  let act := if signal = SIGILL ∨ signal = SIGTRAP ∨ signal = SIGPWR then
    { act with resethand := false } else act
  if act.saHandler = SIG_IGN ∨ act.saHandler = SIG_DFL then
    { act with saMask := fun _ => false } else act

/-- `curr_signal_action`, with an action. -/
def State.currSignalAction (s : State) (signal : ℕ) (act : Sigaction) : State :=
  let act := storedAction signal act
  let ignored := decide (act.saHandler = SIG_IGN)
  let ignored := if defaultIgnored signal ∧ act.saHandler = SIG_DFL then true else ignored
  { s with
    uSigact := Function.update s.uSigact signal act
    pIgnoredSignals := Function.update s.pIgnoredSignals signal ignored }

/-- `curr_signal_pending` takes the ignored signals out of the pending ones. -/
def State.dropIgnored (s : State) : State :=
  { s with pPendingSignals := fun n => s.pPendingSignals n && !s.pIgnoredSignals n }

/-- What `curr_signal_pending` returns: the first signal that is pending and not held. -/
def State.currSignalPending (s : State) : Option ℕ :=
  (List.range' 1 SIGNAL_MAX).find? fun n =>
    s.pPendingSignals n && !s.pIgnoredSignals n && !s.pSignalMask n

/-- `proc_unkill` -/
def State.procUnkill (s : State) (signal : ℕ) : State :=
  { s with pPendingSignals := Function.update s.pPendingSignals signal false }

/-- `proc_send_signal`, for the receiver. -/
def State.procSendSignal (s : State) (signal : ℕ) : State :=
  let pending : Sigset := fun n =>
    if signal = SIGCONT ∧ stopSignals n then false
    else if stopSignals signal ∧ n = SIGCONT then false
    else s.pPendingSignals n
  { s with pPendingSignals := Function.update pending signal true }

/-- The program itself changes the mask. -/
def State.setMask (s : State) (mask : Sigset) : State :=
  let s := s.currSignalMask mask
  match s.frames with
  | [] => s
  | f :: fs =>
      { s with frames := { f with blocked := fun n => f.blocked n && s.pSignalMask n } :: fs }

/-! ### System calls -/

/-- What `sigaction` or `sigset` may be used for. -/
def validSignal (signal : ℕ) : Bool :=
  decide (1 ≤ signal ∧ signal ≤ SIGNAL_MAX ∧ signal ≠ SIGKILL ∧ signal ≠ SIGSTOP)

/-- `usigaction` with a handler and a mask, when there is an action.  It is undone when the old one
    cannot be stored. -/
def State.usigaction (s : State) (sig : ℕ) (act : Option (ℕ × Sigset)) (stored : Bool) : State :=
  if validSignal sig then
    match act with
    | none => s
    | some (handler, mask) =>
        let s' := s.currSignalAction sig ⟨handler, Function.update mask sig true, false⟩
        if stored then s' else s'.currSignalAction sig (s.uSigact sig)
  else s

/-- The calls of `usigsys`. -/
inductive Sigtype where
  | signal
  | sighold
  | sigrelse
  | sigignore
  | sigset
  | sigpause

/-- `usigsys`.  The sleep of `sigpause` has no effect on the state. -/
def State.usigsys (s : State) (catchSegv : Bool) (sigtype : Sigtype) (signal func : ℕ) : State :=
  if validSignal signal then
    match sigtype with
    | .sighold => s.setMask (Function.update s.pSignalMask signal true)
    | .sigrelse => s.setMask (Function.update s.pSignalMask signal false)
    | .sigignore =>
        (s.currSignalAction signal ⟨SIG_IGN, fun _ => false, false⟩).setMask
          (Function.update s.pSignalMask signal false)
    | .signal =>
        if signal = SIGSEGV ∧ catchSegv = false then s
        else (s.currSignalAction signal ⟨func, fun _ => false, true⟩).procUnkill signal
    | .sigset =>
        if func = SIG_HOLD then s.setMask (Function.update s.pSignalMask signal true)
        else
          (s.currSignalAction signal
            ⟨func, Function.update (fun _ => false) signal true, false⟩).setMask
            (Function.update s.pSignalMask signal false)
    | .sigpause => s.setMask (Function.update s.pSignalMask signal false)
  else s

/-- The values of `how`. -/
inductive How where
  | block
  | unblock
  | setmask

/-- `usigprocmask`, with a set.  It is undone when the old mask cannot be stored. -/
def State.usigprocmask (s : State) (how : How) (set : Sigset) (stored : Bool) : State :=
  let mask : Sigset := match how with
    | .unblock => fun n => s.pSignalMask n && !set n
    | .block => fun n => s.pSignalMask n || set n
    | .setmask => set
  if stored then s.setMask mask else (s.currSignalMask mask).currSignalMask s.pSignalMask

/-! ### Delivery -/

/-- `msigstart` and the rest of the delivery to a handler.  The frame is built when the stack can
    hold it; `before` is the mask in force before the delivery. -/
def State.deliver (s : State) (signum : ℕ) (oldmask : Option Sigset) (before : Sigset)
    (built : Bool) : State :=
  let act := s.uSigact signum
  let frame : Frame := ⟨oldmask.getD s.pSignalMask, before, fun n => act.saMask n && !unblockable n⟩
  let s := if built then { s with frames := frame :: s.frames } else s
  if act.resethand then s.currSignalAction signum { act with saHandler := SIG_DFL }
  else s.currSignalMask fun n => s.pSignalMask n || act.saMask n

/-- What `curr_check_signals` does about a signal. -/
inductive Choice where
  | nothing
  | handler (signum : ℕ)
  | exit

/-- `pexit` -/
def State.pexit (s : State) : State :=
  { s with pSignalMask := fun _ => true, pc := .exiting }

/-- After a stop of a traced process all signals that are pending are dropped. -/
def State.dropPending (s : State) : State :=
  { s with pPendingSignals := fun n =>
      s.pPendingSignals n && !s.pIgnoredSignals n && s.pSignalMask n }

/-- `got_signal`.  A traced process is stopped, with a value of `ptret` for each stop. -/
def State.gotSignal (traced : Bool) : List ℕ → ℕ → State → Option (State × Choice)
  | ptvals, signum, s =>
      let s := s.procUnkill signum
      if (s.uSigact signum).saHandler ≠ SIG_DFL then some (s, .handler signum)
      else if traced then
        match ptvals with
        | [] => none
        | ptval :: ptvals =>
            let s := s.dropPending
            if ptval = 0 then
              match s.currSignalPending with
              | none => some (s, .nothing)
              | some signum => State.gotSignal traced ptvals signum s.dropIgnored
            else if ptval ≠ SIGKILL then State.gotSignal traced ptvals ptval s
            else some (s, .exit)
      else some (s, .exit)

/-- The loop of `curr_check_signals`, up to a signal that is dealt with. -/
def State.choose (s : State) (traced : Bool) (ptvals : List ℕ) : Option (State × Choice) :=
  match s.currSignalPending with
  | none => some (s.dropIgnored, .nothing)
  | some signum => State.gotSignal traced ptvals signum s.dropIgnored

/-- `curr_check_signals` -/
def State.currCheckSignals (s : State) (oldmask : Option Sigset) (before : Sigset)
    (traced built : Bool) (ptvals : List ℕ) : Option State :=
  (s.choose traced ptvals).map fun (s, choice) =>
    match choice with
    | .nothing => s
    | .handler signum => s.deliver signum oldmask before built
    | .exit => s.pexit

/-! ### Steps -/

/-- What happens: a call; a signal is sent; the process returns to user level; `sigsuspend` begins,
    and ends its sleep; a handler returns with its frame as it was built, or the program calls
    `msigend` with a mask of its own; the process executes a file; or the process is the child of a
    fork. -/
inductive Event where
  | sigaction (sig : ℕ) (act : Option (ℕ × Sigset)) (stored : Bool)
  | sigsys (sigtype : Sigtype) (signal func : ℕ)
  | sigprocmask (how : How) (set : Sigset) (stored : Bool)
  | send (signal : ℕ)
  | returnToUser (traced built : Bool) (ptvals : List ℕ)
  | sigsuspend (set : Sigset)
  | wake (traced built : Bool) (ptvals : List ℕ)
  | handlerReturn
  | msigend (mask : Sigset)
  | exec
  | child

/-- `pexece` sets every signal that is not ignored to its default. -/
def State.execSignals (s : State) : State :=
  (List.range' 1 SIGNAL_MAX).foldl (fun s n =>
    if (s.uSigact n).saHandler ≠ SIG_IGN then
      s.currSignalAction n ⟨SIG_DFL, fun _ => false, false⟩
    else s) s

/-- One step. -/
def step (catchSegv : Bool) (s : State) (e : Event) : Option State :=
  match s.pc, e with
  | .running, .sigaction sig act stored => some (s.usigaction sig act stored)
  | .running, .sigsys sigtype signal func => some (s.usigsys catchSegv sigtype signal func)
  | .running, .sigprocmask how set stored => some (s.usigprocmask how set stored)
  | .running, .returnToUser traced built ptvals =>
      s.currCheckSignals none s.pSignalMask traced built ptvals
  | .running, .sigsuspend set => some { s.currSignalMask set with pc := .suspended s.pSignalMask }
  | .suspended mask, .wake traced built ptvals =>
      (s.currCheckSignals (some mask) mask traced built ptvals).map fun s =>
        match s.pc with
        | .exiting => s
        | _ => { s.currSignalMask mask with pc := .running }
  | .running, .handlerReturn =>
      match s.frames with
      | [] => none
      | f :: fs => some { s.currSignalMask f.sfSignalMask with frames := fs }
  | .running, .msigend mask => some (s.setMask mask)
  | .running, .exec => some { s.execSignals with frames := [] }
  | .running, .child => some { s with pPendingSignals := fun _ => false }
  | .exiting, _ => none
  | _, .send signal => some (s.procSendSignal signal)
  | _, _ => none

/-- The first process: the signals have their default actions. -/
def Initial (s : State) : Prop :=
  (∀ n, s.pSignalMask n = false) ∧ (∀ n, s.pIgnoredSignals n = defaultIgnored n) ∧
    (∀ n, (s.uSigact n).saHandler = SIG_DFL ∧ (s.uSigact n).resethand = false) ∧ s.frames = [] ∧
    s.pc = .running

end CohKernel.Sig
