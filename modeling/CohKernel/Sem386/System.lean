import CohKernel.Lib.Runs
import CohKernel.Sem386.AllOrNothing
import CohKernel.Sem386.Ctl
import CohKernel.Sem386.Moves

namespace CohKernel.Sem386

open CohKernel.Lib CohKernel.Ipc

/-!
# Processes and semaphores

The system of all processes that call `semget`, `semctl` and `semop`, sleep in `semop`, and exit.
The kernel switches processes at a sleep only, so a step is a call up to its end or its sleep, or
what a process does from the end of its sleep on.
-/

variable {t : Tune}

/-- Process identifiers are below it. -/
def PID_MAX : ℕ := 30000

/-- A process that sleeps in `semwait`, or has been woken and has not run yet.  `op` is the
    operation that it waits for. -/
structure Sleeper where
  semId : ℕ
  sops : List SemBuf
  uError : Option Errno
  event : Event
  op : SemBuf
  woken : Bool

/-- The sets and the processes.  What no step looks at: `gen` counts the sets that a slot has
    held, `made` is the set in whose time an undo entry was made, and `sums` adds up the
    successful operations with `SEM_UNDO`. -/
structure State (t : Tune) where
  sets : Sets t
  sleepers : ℕ → Option Sleeper
  gen : ℕ → ℕ
  made : ℕ → ℤ → ℤ → ℕ
  sums : ℕ → ℤ → ℤ → ℤ

/-- What a process does next. -/
inductive Call where
  | get (c : GetCtx) (skey nsems : ℤ) (semflg : ℕ)
  | ctl (c : Ctx) (semid semnum : ℤ) (cmd : Cmd)
  | op (c : Ctx) (semId : ℤ) (acc : Bool) (sops : List SemBuf)
  | wake (c : Ctx) (signalled : Bool)
  | exit (c : Ctx)

/-- The process. -/
def Call.self : Call → ℕ
  | .get c _ _ _ => c.self
  | .ctl c _ _ _ => c.self
  | .op c _ _ _ => c.self
  | .wake c _ => c.self
  | .exit c => c.self

/-- `wakeup` for the sleepers of a set. -/
def wakeAll (semId : ℕ) (events : List Event) (sleepers : ℕ → Option Sleeper) :
    ℕ → Option Sleeper :=
  fun pid => (sleepers pid).map fun sl =>
    if sl.semId = semId ∧ sl.event ∈ events then { sl with woken := true } else sl

/-- The counts of the sets after a call of `semget`: a set that was not there is a new one. -/
def State.genAfter (s : State t) : Except Errno ℕ → ℕ → ℕ
  | .ok id => if (s.sets.live id).isSome then s.gen else Function.update s.gen id (s.gen id + 1)
  | .error _ => s.gen

/-- `semget`. -/
def State.get (s : State t) (c : GetCtx) (skey nsems : ℤ) (semflg : ℕ) : State t :=
  let r := s.sets.usemget c skey nsems semflg
  { s with sets := r.sets, gen := s.genAfter r.value }

/-- `semctl`. -/
def State.ctl (s : State t) (c : Ctx) (semid semnum : ℤ) (cmd : Cmd) : State t :=
  let r := s.sets.usemctl c semid semnum cmd
  let nsems := ((s.sets.live semid.toNat).map (·.semNsems)).getD 0
  { s with
    sets := r.sets
    sleepers := wakeAll semid.toNat r.woken s.sleepers
    sums := fun pid id n =>
      if id = semid ∧ 0 ≤ n ∧ setBy t nsems semnum.toNat cmd r.value n.toNat then 0
      else s.sums pid id n }

/-- The process after a pass: asleep on the operation that has stopped it, or not. -/
def asleep (c : Ctx) (semId : ℕ) (sops : List SemBuf) (p : Pass t) (r : Result t) :
    Option Sleeper :=
  match r.outcome, stop c semId p [] sops with
  | .sleep e, some (_, op, _) =>
      some { semId := semId, sops := sops, uError := r.uError, event := e, op := op, woken :=
        false }
  | _, _ => none

/-- The system after a pass with the result `r`. -/
def State.passed (s : State t) (c : Ctx) (semId : ℕ) (sops : List SemBuf) (p : Pass t)
    (r : Result t) : State t :=
  let sleepers := wakeAll semId r.wakeups s.sleepers
  let semu := s.sets.tables.semu c.self
  { sets := { s.sets with tables := r.tables }
    sleepers := Function.update sleepers c.self (asleep c semId sops p r)
    gen := s.gen
    made := fun pid id n =>
      if pid = c.self ∧ id = semId ∧ entry semu id n = none then s.gen semId
      else s.made pid id n
    sums := fun pid id n =>
      if pid = c.self ∧ id = semId ∧ r.outcome = .ok then s.sums pid id n + total (undoOps sops n)
      else s.sums pid id n }

/-- `semop`, or its continuation after a sleep. -/
def State.semop (s : State t) (c : Ctx) (g : Segment) : Option (State t) :=
  (s.sets.tables.semop c g).map fun r =>
    match s.sets.tables.begins c g with
    | none =>
        { s with
          sets := { s.sets with tables := r.tables }
          sleepers := Function.update s.sleepers c.self none }
    | some (semId, sops, p) => s.passed c semId sops p r

/-- A process exits: `semAllAdjust`. -/
def State.exit (s : State t) (c : Ctx) : State t :=
  { s with
    sets := { s.sets with tables := s.sets.tables.semAllAdjust c }
    sums := Function.update s.sums c.self fun _ _ => 0 }

/-- A step.  A sleeper goes on when it has been woken or has got a signal. -/
def State.step (s : State t) (a : Call) : Option (State t) :=
  if a.self < PID_MAX then
    match a, s.sleepers a.self with
    | .wake c signalled, some sl =>
        if sl.woken ∨ signalled then
          s.semop c (.wake sl.semId sl.sops sl.uError sl.event signalled)
        else none
    | .wake _ _, none => none
    | _, some _ => none
    | .get c skey nsems semflg, none => some (s.get c skey nsems semflg)
    | .ctl c semid semnum cmd, none => some (s.ctl c semid semnum cmd)
    | .op c semId acc sops, none => s.semop c (.call semId acc sops)
    | .exit c, none => some (s.exit c)
  else none

/-- The system before the first call. -/
structure Init (s : State t) : Prop where
  semids : s.sets.tables.semids = none
  semu : ∀ pid, s.sets.tables.semu pid = []
  sleepers : ∀ pid, s.sleepers pid = none
  sums : ∀ pid id n, s.sums pid id n = 0

/-- The operations of a pass, and the state it starts in, for a step that makes one. -/
def State.begins (s : State t) : Call → Option (Ctx × ℕ × List SemBuf × Pass t)
  | .op c semId acc sops => (s.sets.tables.begins c (.call semId acc sops)).map (c, ·)
  | .wake c signalled => (s.sleepers c.self).bind fun sl =>
      (s.sets.tables.begins c (.wake sl.semId sl.sops sl.uError sl.event signalled)).map (c, ·)
  | _ => none

/-! ### What a step does -/

/-- A process that does not sleep any more, in a system with the sets `semids`. -/
def State.awake (s : State t) (pid : ℕ) (semids : ℕ → SemidDs t) : State t :=
  { s with
    sets := { s.sets with tables := { s.sets.tables with semids := some semids } }
    sleepers := Function.update s.sleepers pid none }

/-- The system after the pass of a process that is awake. -/
def State.pass (s : State t) (c : Ctx) (semids : ℕ → SemidDs t) (semId : ℕ) (sops : List SemBuf)
    (uError : Option Errno) : State t :=
  s.passed c semId sops (s.sets.tables.start c (semids semId) uError)
    (s.sets.tables.tryAgain c semids semId sops uError)

/-- The sets once a sleeper has left its event. -/
def leave (semids : ℕ → SemidDs t) (sl : Sleeper) : ℕ → SemidDs t :=
  Function.update semids sl.semId ((semids sl.semId).count (-1) sl.event)

/-- The steps, one by one. -/
inductive Stepped (s : State t) : Call → State t → Prop
  | get (c : GetCtx) (skey nsems : ℤ) (semflg : ℕ) : s.sleepers c.self = none →
      Stepped s (.get c skey nsems semflg) (s.get c skey nsems semflg)
  | ctl (c : Ctx) (semid semnum : ℤ) (cmd : Cmd) : s.sleepers c.self = none →
      Stepped s (.ctl c semid semnum cmd) (s.ctl c semid semnum cmd)
  | refused (c : Ctx) (semId : ℤ) (acc : Bool) (sops : List SemBuf) :
      s.sleepers c.self = none → Stepped s (.op c semId acc sops) s
  | pass (c : Ctx) (semId : ℤ) (acc : Bool) (sops : List SemBuf) (semids : ℕ → SemidDs t) :
      c.self < PID_MAX → s.sleepers c.self = none → s.sets.tables.semids = some semids →
      (semids semId.toNat).alloc = true →
      s.begins (.op c semId acc sops) =
        some (c, semId.toNat, sops, s.sets.tables.start c (semids semId.toNat) none) →
      Stepped s (.op c semId acc sops) (s.pass c semids semId.toNat sops none)
  | removed (c : Ctx) (signalled : Bool) (sl : Sleeper) (semids : ℕ → SemidDs t) :
      s.sleepers c.self = some sl → s.sets.tables.semids = some semids →
      (semids sl.semId).alloc = false → Stepped s (.wake c signalled) (s.awake c.self semids)
  | interrupted (c : Ctx) (sl : Sleeper) (semids : ℕ → SemidDs t) :
      s.sleepers c.self = some sl → s.sets.tables.semids = some semids →
      (semids sl.semId).alloc = true →
      Stepped s (.wake c true) (s.awake c.self (leave semids sl))
  | retry (c : Ctx) (sl : Sleeper) (semids : ℕ → SemidDs t) :
      c.self < PID_MAX → s.sleepers c.self = some sl → s.sets.tables.semids = some semids →
      (semids sl.semId).alloc = true →
      s.begins (.wake c false) = some (c, sl.semId, sl.sops,
        s.sets.tables.start c (leave semids sl sl.semId) sl.uError) →
      Stepped s (.wake c false)
        ((s.awake c.self (leave semids sl)).pass c (leave semids sl) sl.semId sl.sops sl.uError)
  | exit (c : Ctx) : s.sleepers c.self = none → Stepped s (.exit c) (s.exit c)

theorem wakeAll_update (semId : ℕ) (events : List Event) (sleepers : ℕ → Option Sleeper)
    (pid : ℕ) (o o' : Option Sleeper) :
    Function.update (wakeAll semId events (Function.update sleepers pid o)) pid o' =
      Function.update (wakeAll semId events sleepers) pid o' := by
  funext q
  unfold wakeAll
  simp only [Function.update_apply]
  split_ifs <;> rfl

/-- **A step** is one of these. -/
theorem step_cases {s s' : State t} {a : Call} (h : s.step a = some s') : Stepped s a s' := by
  unfold State.step at h
  by_cases hpid : a.self < PID_MAX
  swap
  · rw [if_neg hpid] at h
    cases h
  rw [if_pos hpid] at h
  cases a with
  | get c skey nsems semflg =>
    cases hsl : s.sleepers c.self with
    | none =>
      simp only [Call.self, hsl, Option.some_inj] at h
      subst h
      exact Stepped.get c skey nsems semflg hsl
    | some sl =>
      simp only [Call.self, hsl] at h
      cases h
  | ctl c semid semnum cmd =>
    cases hsl : s.sleepers c.self with
    | none =>
      simp only [Call.self, hsl, Option.some_inj] at h
      subst h
      exact Stepped.ctl c semid semnum cmd hsl
    | some sl =>
      simp only [Call.self, hsl] at h
      cases h
  | exit c =>
    cases hsl : s.sleepers c.self with
    | none =>
      simp only [Call.self, hsl, Option.some_inj] at h
      subst h
      exact Stepped.exit c hsl
    | some sl =>
      simp only [Call.self, hsl] at h
      cases h
  | op c semId acc sops =>
    cases hsl : s.sleepers c.self with
    | some sl =>
      simp only [Call.self, hsl] at h
      cases h
    | none =>
      simp only [Call.self, hsl] at h
      obtain ⟨r, hr, rfl⟩ := Option.map_eq_some_iff.mp h
      have hnone : Function.update s.sleepers c.self none = s.sleepers := by
        rw [Function.update_eq_self_iff, hsl]
      cases hr
      unfold Tables.begins Tables.usemop
      cases hsem : s.sets.tables.semids with
      | none =>
        simp only [Option.bind_none, hnone]
        exact Stepped.refused c semId acc sops hsl
      | some semids =>
        simp only [Option.bind_some]
        have hrefused : ∀ r : Result t, r.tables = s.sets.tables →
            Stepped s (.op c semId acc sops) { s with
              sets := { s.sets with tables := r.tables }
              sleepers := Function.update s.sleepers c.self none } := by
          intro r hr
          rw [hr, hnone]
          exact Stepped.refused c semId acc sops hsl
        by_cases hid : inRange 0 semId (t.SEMMNI - 1) = false
        · rw [if_pos hid, if_neg fun hc => by rw [hid] at hc; exact Bool.noConfusion hc.1]
          exact hrefused _ rfl
        by_cases hacc : acc = false ∨ sops.length < 1
        · rw [if_neg hid, if_pos hacc, if_neg fun hc => hc.2.1 hacc]
          exact hrefused _ rfl
        by_cases halloc : (semids semId.toNat).alloc = false
        · rw [if_neg hid, if_neg hacc, if_pos halloc,
            if_neg fun hc => by rw [halloc] at hc; exact Bool.noConfusion hc.2.2]
          exact hrefused _ rfl
        · rw [Bool.not_eq_false] at hid halloc
          have hgo : inRange 0 semId (t.SEMMNI - 1) = true ∧ ¬(acc = false ∨ sops.length < 1) ∧
              (semids semId.toNat).alloc = true := ⟨hid, hacc, halloc⟩
          rw [if_pos hgo, if_neg (by simp [hid]), if_neg hacc, if_neg (by simp [halloc])]
          refine Stepped.pass c semId acc sops semids hpid hsl hsem halloc ?_
          rw [State.begins, Tables.begins, hsem, Option.bind_some, if_pos hgo]
          rfl
  | wake c signalled =>
    cases hsl : s.sleepers c.self with
    | none =>
      simp only [Call.self, hsl] at h
      cases h
    | some sl =>
      simp only [Call.self, hsl] at h
      split_ifs at h with hrun
      obtain ⟨r, hr, rfl⟩ := Option.map_eq_some_iff.mp h
      obtain ⟨semids, hsem, rfl⟩ := Option.map_eq_some_iff.mp hr
      unfold Tables.begins Tables.usemopWake
      simp only [hsem, Option.bind_some]
      by_cases halloc : (semids sl.semId).alloc = false
      · have hset : s.sets.tables = { s.sets.tables with semids := some semids } := by
          rw [← hsem]
        rw [if_pos halloc, if_neg fun hc => by rw [halloc] at hc; exact Bool.noConfusion hc.1]
        have hstep := Stepped.removed (s := s) c signalled sl semids hsl hsem halloc
        unfold State.awake at hstep
        rw [← hset] at hstep
        exact hstep
      rw [if_neg halloc]
      rw [Bool.not_eq_false] at halloc
      cases signalled with
      | true =>
        rw [if_pos rfl, if_neg fun hc => Bool.noConfusion hc.2]
        exact Stepped.interrupted c sl semids hsl hsem halloc
      | false =>
        have hbegins : s.begins (.wake c false) = some (c, sl.semId, sl.sops,
            s.sets.tables.start c (leave semids sl sl.semId) sl.uError) := by
          simp only [State.begins, hsl, Option.bind_some, Tables.begins, hsem]
          rw [if_pos ⟨halloc, trivial⟩, leave, Function.update_self]
          rfl
        have hgo : (semids sl.semId).alloc = true ∧ false = false := ⟨halloc, rfl⟩
        rw [if_pos hgo, if_neg Bool.false_ne_true]
        have hstep := Stepped.retry (s := s) c sl semids hpid hsl hsem halloc hbegins
        unfold State.pass State.passed at hstep
        simp only [State.awake, wakeAll_update] at hstep
        unfold State.passed
        simp only
        rw [leave, Function.update_self] at hstep
        exact hstep

/-! ### Where memory is lost -/

/-- `semget` creates no set in a slot whose last set still has a sleeper: the counter that the
    sleeper is going to decrement is in memory that has been freed. -/
def Unclaimed (s : State t) : Call → Prop
  | .get c skey nsems semflg => ∀ id, (s.sets.usemget c skey nsems semflg).value = .ok id →
      s.sets.live id = none → ∀ pid sl, s.sleepers pid = some sl → sl.semId ≠ id
  | _ => True

/-- The step makes a pass on a set that starts in `p` and is rolled back from `op` on. -/
def RollsBack (s : State t) (a : Call) (semId : ℕ) (p : Pass t) (done : List SemBuf) (op : SemBuf)
    (h : Halt) : Prop :=
  ∃ c sops, s.begins a = some (c, semId, sops, p) ∧
    stop c semId p [] sops = some (done, op, h) ∧ h.undoes = true

/-- A rollback takes nothing back from semaphores past the end of the set. -/
def Inside (s : State t) (a : Call) : Prop :=
  ∀ semId p done op h, RollsBack s a semId p done op h → ∀ n, p.set.semNsems ≤ n → opAt done n = 0

/-- The value that a rollback leaves: the operation at position `n` is taken back from
    semaphore `n`. -/
def leftVal (p : Pass t) (done : List SemBuf) (op : SemBuf) (h : Halt) (n : ℕ) : ℤ :=
  (p.val n).val + net (h.vals done op) n - opAt done n

/-! ### The unconfigured kernel -/

/-- The default limits, and no set. -/
def noSets : State defaultTune where
  sets := { tables := { semids := none, semu := fun _ => [] }, semTotal := 0, SEMMNS := 60 }
  sleepers := fun _ => none
  gen := fun _ => 0
  made := fun _ _ _ => 0
  sums := fun _ _ _ => 0

theorem noSets_init : Init noSets := ⟨rfl, fun _ => rfl, fun _ => rfl, fun _ _ _ => rfl⟩

/-- A process of user 1; `kalloc` gives memory that holds `un`. -/
def user (pid : ℕ) (un : ℤ) : Ctx := ⟨pid, ⟨1, 1⟩, 0, fun _ => some (short un)⟩

/-- The user makes a set of `nsems` semaphores. -/
def makeSet (nsems : ℤ) : Call :=
  .get { user 1 0 with kInit := true, kSems := true } 5 nsems 0o1666

end CohKernel.Sem386
