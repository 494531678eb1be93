import CohKernel.Shead.Locks

namespace CohKernel.Shead

open CohKernel.Lib

/-!
# The timer of a stream head

* `Steadily.attempt` — a process waits, and the last one to register starts the timer;
* `Steadily.step` — the invariant of the runs in which nobody leaves a wait;
* `timer_iff` — the tick that the timer is for.
-/

variable {s s' t : State} {p : Proc} {i : ℕ} {e : Event} {endTime : Clock}

/-! ### Who is registered -/

/-- The participant is counted in the count of the timeouts. -/
def Proc.registered (p : Proc) : Bool := decide (p.role ≠ .waiter) || p.asleep

/-- The number of those that are. -/
def State.registered (s : State) : ℕ := s.procs.countP Proc.registered

/-- The end times of the participants that are asleep. -/
def State.ends (s : State) : List Clock := s.procs.filterMap fun p =>
    if p.asleep then p.endTime else none

/-- The end time that comes first. -/
def Earliest (s : State) (endTime : Clock) : Prop :=
  endTime ∈ s.ends ∧ ∀ other ∈ s.ends, endTime - s.lbolt ≤ other - s.lbolt

/-- All participants are registered. -/
def State.AllRegistered (s : State) : Prop :=
  ∀ p ∈ s.procs, p.role = .waiter → p.asleep = true

/-- The timer is for `sh_timeout_tick`, which has the value that it had when the stream head was
    made; when somebody is asleep with an end time, the flag is set. -/
structure Ticking (s : State) : Prop where
  tick : s.timeoutTick = 0
  timer : ∀ tick, s.timeoutId = some tick → tick = 0
  flag : s.ends ≠ [] → s.timeFlag = true

/-- The counts are exact, and the timer has been started when all participants are registered. -/
structure Steadily (s : State) : Prop extends Ticking s where
  count : s.lockCount = s.procs.length
  time : s.timeCount = s.registered
  armed : s.ends ≠ [] → s.timeCount = s.lockCount → s.timeoutId ≠ none

/-- The same, when a participant that is not registered has been taken out. -/
structure Waiting (s : State) : Prop extends Ticking s where
  count : s.lockCount = s.procs.length + 1
  time : s.timeCount = s.registered

theorem join_ends : (t.join p).ends = (if p.asleep then p.endTime else none).toList ++ t.ends := by
  unfold State.ends State.join
  rw [List.filterMap_cons]
  cases (if p.asleep then p.endTime else none) <;> rfl

theorem join_registered :
    (t.join p).registered = t.registered + if p.registered then 1 else 0 := List.countP_cons

theorem broadcast_ends : s.broadcast.ends = [] := by
  unfold State.ends State.broadcast
  rw [List.filterMap_map, List.filterMap_eq_nil_iff]
  exact fun _ _ => rfl

/-- **A process registers**; when it is the last one, the timer is started. -/
theorem Waiting.register (h : Waiting s) {p : Proc} (hreg : p.registered = true)
    (hflag : p.asleep = true → p.endTime ≠ none → s.timeFlag = true) :
    (s.register true).2 = true ∧ Steadily ((s.register true).1.join p) := by
  have hends : ((s.register true).1.join p).ends ≠ [] → s.timeFlag = true := by
    have hsame : (s.register true).1.ends = s.ends := by
      unfold State.register State.startTimeout
      dsimp only
      split
      · split <;> rfl
      · rfl
    intro hne
    rw [join_ends, hsame] at hne
    by_cases hold : s.ends = []
    · rw [hold, List.append_nil] at hne
      by_cases hasleep : p.asleep = true
      · rw [if_pos hasleep] at hne
        refine hflag hasleep fun hc => hne ?_
        rw [hc]
        rfl
      · rw [if_neg hasleep] at hne
        exact absurd rfl hne
    · exact h.flag hold
  have htime : ((s.registered + 1 : ℕ) : ℤ) = s.timeCount + 1 := by
    rw [h.time]
    rfl
  have hjoin {t : State} (hprocs : t.procs = s.procs) (htick : t.timeoutTick = 0)
      (htimer : ∀ tick, t.timeoutId = some tick → tick = 0) (hflag' : t.timeFlag = s.timeFlag)
      (hcount : t.lockCount = s.lockCount) (htime' : t.timeCount = s.timeCount + 1)
      (hends' : (t.join p).ends ≠ [] → s.timeFlag = true)
      (harmed : s.timeFlag = true → s.timeCount + 1 = s.lockCount → t.timeoutId ≠ none) :
      Steadily (t.join p) := by
    refine ⟨⟨htick, htimer, fun hne => hflag'.trans (hends' hne)⟩, ?_, ?_, fun hne heq => ?_⟩
    · show t.lockCount = ((p :: t.procs).length : ℤ)
      rw [hcount, h.count, List.length_cons, hprocs]
      rfl
    · rw [join_registered, if_pos hreg]
      show t.timeCount = ((t.registered + 1 : ℕ) : ℤ)
      have hregistered : t.registered = s.registered := by
        unfold State.registered
        rw [hprocs]
      rw [htime', hregistered, htime]
    · refine harmed (hends' hne) ?_
      rw [← htime', ← hcount]
      exact heq
  unfold State.register State.startTimeout at hends ⊢
  dsimp only at hends ⊢
  by_cases hlast : s.timeCount + 1 = s.lockCount
  · rw [if_pos hlast] at hends ⊢
    by_cases hset : s.timeFlag = false ∨ s.timeoutId ≠ none
    · rw [if_pos hset] at hends ⊢
      refine ⟨rfl, hjoin rfl h.tick h.timer rfl rfl rfl hends fun hflag' _ => ?_⟩
      exact hset.resolve_left fun hc => Bool.noConfusion (hflag'.symm.trans hc)
    · rw [if_neg hset] at hends ⊢
      refine ⟨rfl, hjoin rfl h.tick (fun tick htick => ?_) rfl rfl rfl hends fun _ _ => ?_⟩
      · rw [if_pos rfl] at htick
        obtain rfl := Option.some.inj htick
        rw [h.tick]
        show s.lbolt + (0#32 - s.lbolt) = 0#32
        bv_omega
      · exact Option.some_ne_none _
  · rw [if_neg hlast] at hends ⊢
    exact ⟨rfl, hjoin rfl h.tick h.timer rfl rfl rfl hends fun _ hc => absurd hc hlast⟩

/-- A pending timeout is cancelled, and the flag is set. -/
theorem Waiting.cancel (h : Waiting s) : Waiting { s with timeoutId := none, timeFlag := true } :=
  ⟨⟨h.tick, fun _ hc => absurd hc (Option.some_ne_none _).symm, fun _ => rfl⟩, h.count, h.time⟩

/-- **A process registers with an end time** that is not over. -/
theorem Waiting.lockTimeout (h : Waiting s) {p : Proc} (hreg : p.registered = true)
    (hnot : ¬Reached s.lbolt endTime) :
    (s.lockTimeout endTime true).2 = true ∧ Steadily ((s.lockTimeout endTime true).1.join p) := by
  unfold State.lockTimeout
  rw [if_neg hnot]
  by_cases hset : s.timeFlag = false ∨ Reached s.timeoutTick endTime
  · rw [if_pos hset]
    exact h.cancel.register hreg fun _ _ => rfl
  · rw [if_neg hset]
    exact h.register hreg fun _ _ => Bool.eq_true_of_not_eq_false fun hc => hset (Or.inl hc)

/-- **A turn of the loop**, when the end time is not over. -/
theorem Waiting.attempt (h : Waiting s)
    (hnot : Disjoint s.lockMask p.cats ∨
      ∀ endTime, p.endTime = some endTime → ¬Reached s.lbolt endTime) :
    Steadily (s.attempt p true).1 := by
  unfold State.attempt
  by_cases hfree : Disjoint s.lockMask p.cats
  · rw [if_pos hfree]
    exact (h.register (p := { p with role := .acquiring, asleep := false }) (by rfl)
      fun hc => Bool.noConfusion hc).2
  · rw [if_neg hfree]
    have hreg : Proc.registered { p with asleep := true } = true := by
      unfold Proc.registered
      exact Bool.or_true _
    cases hend : p.endTime with
    | none =>
      rw [hend] at hreg
      exact (h.register hreg fun _ hc => absurd rfl hc).2
    | some endTime =>
      rw [hend] at hreg
      obtain ⟨hresult, hafter⟩ := h.lockTimeout hreg ((hnot.resolve_left hfree) endTime hend)
      rcases hr : s.lockTimeout endTime true with ⟨t, result⟩
      rw [hr] at hresult hafter
      obtain rfl : result = true := hresult
      simp only [hr]
      exact hafter

/-! ### Steps -/

theorem take_ends (ht : s.take i = some (p, t)) :
    s.ends.Perm ((if p.asleep then p.endTime else none).toList ++ t.ends) := by
  obtain ⟨rfl, hperm⟩ := take_cases ht
  rw [← join_ends]
  exact hperm.filterMap _

/-- The order of the participants does not matter. -/
theorem Steadily.take (h : Steadily s) (ht : s.take i = some (p, t)) : Steadily (t.join p) := by
  have hends : (t.join p).ends ≠ [] → s.ends ≠ [] := by
    rw [join_ends]
    intro hne hnil
    have hperm := take_ends ht
    rw [hnil] at hperm
    exact hne hperm.symm.eq_nil
  obtain ⟨rfl, hperm⟩ := take_cases ht
  refine ⟨⟨h.tick, h.timer, fun hne => h.flag (hends hne)⟩, ?_, ?_, fun hne => h.armed (hends hne)⟩
  · show s.lockCount = _
    rw [h.count, hperm.length_eq]
    rfl
  · show s.timeCount = _
    rw [h.time]
    exact congrArg Nat.cast (hperm.countP_eq _)

/-- A participant that is not registered. -/
theorem Steadily.takeWaiter (h : Steadily (t.join p)) (hreg : p.registered = false) :
    Waiting t := by
  refine ⟨⟨h.tick, h.timer, fun hne => h.flag ?_⟩, ?_, ?_⟩
  · rw [join_ends]
    exact fun hc => hne (List.append_eq_nil_iff.mp hc).2
  · show (t.join p).lockCount = _
    rw [h.count]
    rfl
  · show (t.join p).timeCount = _
    rw [h.time, join_registered, if_neg (by rw [hreg]; exact Bool.false_ne_true), Nat.add_zero]

/-- What else a step changes does not matter. -/
theorem Steadily.congr (h : Steadily s) (hlength : s'.procs.length = s.procs.length)
    (hregistered : s'.registered = s.registered) (hends : s'.ends = s.ends)
    (htick : s'.timeoutTick = s.timeoutTick) (htimer : s'.timeoutId = s.timeoutId)
    (hflag : s'.timeFlag = s.timeFlag) (hcount : s'.lockCount = s.lockCount)
    (htime : s'.timeCount = s.timeCount) : Steadily s' := by
  refine ⟨⟨htick.trans h.tick, ?_, ?_⟩, ?_, ?_, ?_⟩
  · rw [htimer]
    exact h.timer
  · rw [hends, hflag]
    exact h.flag
  · rw [hcount, hlength]
    exact h.count
  · rw [htime, hregistered]
    exact h.time
  · rw [hends, htime, hcount, htimer]
    exact h.armed

/-- All participants are awake, and registered. -/
theorem Steadily.awake (h : Ticking s) (hends : s.ends = []) (hcount : s.lockCount = s.procs.length)
    (htime : s.timeCount = s.registered) : Steadily s :=
  ⟨h, hcount, htime, fun hne => absurd hends hne⟩

theorem Ticking.wake (h : Ticking s) (htimer : s'.timeoutId = none ∨ s'.timeoutId = s.timeoutId)
    (htick : s'.timeoutTick = s.timeoutTick) (hends : s'.ends = []) : Ticking s' := by
  refine ⟨htick.trans h.tick, fun tick hc => ?_, fun hne => absurd hends hne⟩
  obtain hnone | hsame := htimer
  · rw [hnone] at hc
    cases hc
  · exact h.timer tick (hsame ▸ hc)

theorem broadcast_registered : s.broadcast.registered = s.held := by
  unfold State.registered State.broadcast State.held State.locks
  rw [List.countP_map, List.countP_map]
  refine List.countP_congr fun p _ => ?_
  unfold Proc.registered
  simp

/-- Nobody waits for a lock. -/
def State.NoWaiter (s : State) : Prop := ∀ l ∈ s.locks, l.2 ≠ Role.waiter

theorem NoWaiter.held (h : s.NoWaiter) : s.held = s.procs.length := by
  have hlength : s.locks.length = s.procs.length := List.length_map _
  rw [← hlength]
  exact List.countP_eq_length.mpr fun l hl => decide_eq_true (h l hl)

/-- The steps of the runs in which nobody leaves a wait: locks are released and events are signalled
    while nobody waits for a lock, no process that waits gets a signal, and each goes on before its
    end time; `ltimeout` gets its memory, and the timer finds one bit for each holder. -/
def Steady (s : State) (e : Event) : Prop :=
  match e with
  | .lock cats timeout interruptible ok => ok = true ∧ s.Quiet ∧
      (Disjoint s.lockMask cats ∨
        ∀ endTime, (s.newProc cats timeout interruptible).endTime = some endTime →
          ¬Reached s.lbolt endTime)
  | .openLock ok => ok = true ∧ s.Quiet
  | .run i ok => ok = true ∧ s.Quiet ∧ ∀ p t, s.take i = some (p, t) → t.dev = p.devno ∧
      ∀ endTime, p.endTime = some endTime → ¬Reached t.lbolt endTime
  | .interrupt _ _ => False
  | .unlock _ | .wake => s.Quiet ∧ s.NoWaiter
  | .expire => s.Quiet ∧ s.lockMask.card = s.held
  | .lockedTimeout _ _ ok => ok = true ∧ s.Quiet
  | .mark _ | .tick => True
  | .opened _ _ | .closed _ _ | .rename _ _ => s.Quiet

/-- **A holder waits for a timeout** of its own, or finds that it is over. -/
theorem Steadily.lockedTimeout (h : Steadily (t.join p)) (hrole : p.role = .holder)
    (hawake : p.asleep = false) : Steadily ((t.lockedTimeout endTime true).1.join
      { p with asleep := (t.lockedTimeout endTime true).2, endTime := some endTime }) := by
  have hreg (asleep : Bool) : Proc.registered { p with asleep := asleep, endTime := some endTime } =
      true := by
    unfold Proc.registered
    simp [hrole]
  have hpreg : p.registered = true := by
    unfold Proc.registered
    simp [hrole]
  have htime := h.time
  rw [join_registered, if_pos hpreg] at htime
  have hends : (t.join p).ends = t.ends := by
    rw [join_ends, hawake]
    rfl
  have hwaiting : Waiting { t with timeCount := t.timeCount - 1 } := by
    refine ⟨⟨h.tick, h.timer, fun hne => h.flag (hends ▸ hne)⟩, h.count, ?_⟩
    show t.timeCount - 1 = (t.registered : ℤ)
    have : (t.join p).timeCount = t.timeCount := rfl
    omega
  unfold State.lockedTimeout
  by_cases hover : Reached t.lbolt endTime
  · unfold State.lockTimeout
    rw [if_pos hover]
    refine h.congr rfl ?_ ?_ rfl rfl rfl rfl ?_
    · rw [join_registered, join_registered, if_pos (hreg false), if_pos hpreg]
      rfl
    · rw [hends, join_ends]
      rfl
    · show t.timeCount - 1 + 1 = t.timeCount
      omega
  · obtain ⟨hresult, hafter⟩ := hwaiting.lockTimeout (hreg true) hover
    rw [hresult]
    exact hafter

/-- **An unlock** while nobody waits. -/
theorem Steadily.sleepUnlock (h : Steadily (t.join p)) (hnone : (t.join p).NoWaiter)
    (cats : Finset Cat) : Steadily (t.sleepUnlock cats) := by
  have hheld : t.held = t.procs.length :=
    NoWaiter.held fun l hl => hnone l (List.mem_cons_of_mem _ hl)
  have hpreg : p.registered = true := by
    unfold Proc.registered
    simpa using Or.inl (hnone (p.cats, p.role) List.mem_cons_self)
  have hregistered : t.registered = t.procs.length := by
    refine List.countP_eq_length.mpr fun q hq => ?_
    unfold Proc.registered
    have := hnone (q.cats, q.role) (List.mem_cons_of_mem _ (List.mem_map_of_mem hq))
    simpa using Or.inl this
  have htime : t.timeCount = t.procs.length + 1 := by
    have := h.time
    rw [join_registered, if_pos hpreg, hregistered] at this
    exact this
  have hcount : t.lockCount = t.procs.length + 1 := h.count
  -- all that matters after the release
  have hend {s' : State} (hprocs : s'.procs = t.broadcast.procs)
      (htimer : s'.timeoutId = none ∨ s'.timeoutId = t.timeoutId)
      (htick : s'.timeoutTick = t.timeoutTick) (hcount' : s'.lockCount = t.lockCount - 1)
      (htime' : s'.timeCount = t.timeCount - 1) : Steadily s' := by
    have hends : s'.ends = [] := by
      unfold State.ends
      rw [hprocs]
      exact broadcast_ends
    have hreg : s'.registered = t.procs.length := by
      unfold State.registered
      rw [hprocs, ← hheld]
      exact broadcast_registered
    have hlength : s'.procs.length = t.procs.length := by
      rw [hprocs]
      exact List.length_map _
    refine Steadily.awake (h.toTicking.wake htimer htick hends) hends ?_ ?_
    · rw [hcount', hlength]
      omega
    · rw [htime', hreg]
      omega
  unfold State.sleepUnlock State.unreference
  dsimp only
  split
  · split
    · exact hend rfl (Or.inl rfl) rfl rfl rfl
    · split
      · exact hend rfl (Or.inl rfl) rfl rfl rfl
      · exact hend rfl (Or.inl rfl) rfl rfl rfl
  · split
    · exact hend rfl (Or.inr rfl) rfl rfl rfl
    · split
      · exact hend rfl (Or.inr rfl) rfl rfl rfl
      · exact hend rfl (Or.inr rfl) rfl rfl rfl

/-- A process that arrives is counted, and not registered. -/
theorem Steadily.arrive (h : Steadily s) : Waiting { s with lockCount := s.lockCount + 1 } := by
  refine ⟨⟨h.tick, h.timer, h.flag⟩, ?_, h.time⟩
  show s.lockCount + 1 = _
  rw [h.count]

/-- **Every step** keeps the invariant. -/
theorem Steadily.step (h : Steadily s) (hok : Steady s e) (hs : step s e = some s') :
    Steadily s' := by
  cases e with
  | lock cats timeout interruptible ok =>
    obtain ⟨-, hs⟩ := Option.ite_none_right_eq_some.mp hs
    obtain ⟨rfl, -, hnot⟩ := hok
    split at hs
    · cases hs
      exact h
    · cases hs
      exact h.arrive.attempt hnot
  | openLock ok =>
    obtain ⟨-, ⟨⟩⟩ := Option.ite_none_right_eq_some.mp hs
    obtain ⟨rfl, -⟩ := hok
    exact h.arrive.attempt (Or.inr fun _ hc => by cases hc)
  | mark i =>
    obtain ⟨⟨p, t⟩, ht, hs⟩ := Option.bind_eq_some_iff.mp hs
    obtain ⟨hrole, ⟨⟩⟩ := Option.ite_none_right_eq_some.mp hs
    refine (h.take ht).congr rfl ?_ ?_ rfl rfl rfl rfl rfl
    · rw [join_registered, join_registered]
      unfold Proc.registered
      simp [hrole, State.registered]
    · rw [join_ends, join_ends]
      rfl
  | run i ok =>
    obtain ⟨⟨p, t⟩, ht, hs⟩ := Option.bind_eq_some_iff.mp hs
    obtain ⟨⟨hrole, hawake⟩, ⟨⟩⟩ := Option.ite_none_right_eq_some.mp hs
    obtain ⟨rfl, -, hturn⟩ := hok
    obtain ⟨hdev, hnot⟩ := hturn p t ht
    have hwaiting : Waiting t := by
      refine (h.take ht).takeWaiter ?_
      unfold Proc.registered
      simp [hrole, hawake]
    unfold State.turn
    rw [if_neg (not_not.mpr hdev)]
    exact hwaiting.attempt (Or.inr hnot)
  | interrupt i ok => exact hok.elim
  | unlock i =>
    obtain ⟨⟨p, t⟩, ht, hs⟩ := Option.bind_eq_some_iff.mp hs
    obtain ⟨-, ⟨⟩⟩ := Option.ite_none_right_eq_some.mp hs
    refine (h.take ht).sleepUnlock (fun l hl => ?_) p.cats
    obtain ⟨rfl, hperm⟩ := take_cases ht
    obtain ⟨q, hq, rfl⟩ := List.mem_map.mp hl
    exact hok.2 _ (List.mem_map_of_mem (hperm.mem_iff.mpr hq))
  | wake =>
    cases hs
    refine Steadily.awake (h.toTicking.wake (Or.inr rfl) rfl broadcast_ends) broadcast_ends ?_ ?_
    · show s.lockCount = ((s.procs.map _).length : ℤ)
      rw [h.count, List.length_map]
    · have hall : s.registered = s.procs.length := by
        refine List.countP_eq_length.mpr fun q hq => ?_
        unfold Proc.registered
        have := hok.2 (q.cats, q.role) (List.mem_map_of_mem hq)
        simpa using Or.inl this
      rw [broadcast_registered, NoWaiter.held hok.2, ← hall]
      exact h.time
  | tick =>
    cases hs
    exact h.congr rfl rfl rfl rfl rfl rfl rfl rfl
  | expire =>
    unfold Shead.step at hs
    dsimp only at hs
    split at hs
    · cases hs
    · obtain ⟨-, ⟨⟩⟩ := Option.ite_none_right_eq_some.mp hs
      refine Steadily.awake (h.toTicking.wake (Or.inl rfl) rfl broadcast_ends) broadcast_ends ?_ ?_
      · show s.lockCount = ((s.procs.map _).length : ℤ)
        rw [h.count, List.length_map]
      · show (s.lockMask.card : ℤ) = (s.broadcast.registered : ℤ)
        rw [broadcast_registered, hok.2]
  | lockedTimeout i endTime ok =>
    obtain ⟨⟨p, t⟩, ht, hs⟩ := Option.bind_eq_some_iff.mp hs
    obtain ⟨⟨hrole, hawake⟩, ⟨⟩⟩ := Option.ite_none_right_eq_some.mp hs
    obtain ⟨rfl, -⟩ := hok
    exact (h.take ht).lockedTimeout hrole hawake
  | opened i slave =>
    obtain ⟨⟨p, t⟩, ht, hs⟩ := Option.bind_eq_some_iff.mp hs
    obtain ⟨-, ⟨⟩⟩ := Option.ite_none_right_eq_some.mp hs
    unfold State.addOpen
    cases slave <;> exact (h.take ht).congr rfl rfl rfl rfl rfl rfl rfl rfl
  | closed i slave =>
    obtain ⟨⟨p, t⟩, ht, hs⟩ := Option.bind_eq_some_iff.mp hs
    obtain ⟨-, ⟨⟩⟩ := Option.ite_none_right_eq_some.mp hs
    unfold State.addOpen
    cases slave <;> exact (h.take ht).congr rfl rfl rfl rfl rfl rfl rfl rfl
  | rename i dev =>
    obtain ⟨⟨p, t⟩, ht, hs⟩ := Option.bind_eq_some_iff.mp hs
    obtain ⟨-, ⟨⟩⟩ := Option.ite_none_right_eq_some.mp hs
    exact (h.take ht).congr rfl rfl rfl rfl rfl rfl rfl rfl

theorem Steadily.initial (h : Initial s) : Steadily s := by
  obtain ⟨-, htick, htimer, -, -, ⟨-, -, -, -, hcount, htime, hprocs⟩ |
    ⟨-, -, -, -, hcount, htime, hprocs⟩⟩ := h
  · have hends : s.ends = [] := by
      unfold State.ends
      rw [hprocs]
      rfl
    refine Steadily.awake ⟨htick, fun tick hc => ?_, fun hne => absurd hends hne⟩ hends ?_ ?_
    · rw [htimer] at hc
      cases hc
    · rw [hcount, hprocs]
      rfl
    · unfold State.registered
      rw [htime, hprocs]
      rfl
  · have hends : s.ends = [] := by
      unfold State.ends
      rw [hprocs]
      rfl
    refine Steadily.awake ⟨htick, fun tick hc => ?_, fun hne => absurd hends hne⟩ hends ?_ ?_
    · rw [htimer] at hc
      cases hc
    · rw [hcount, hprocs]
      rfl
    · unfold State.registered
      rw [htime, hprocs]
      rfl

/-- **The timer is for tick zero**: when all participants are registered, a timer is pending for the
    earliest of the end times if and only if that is tick zero.  A process that goes on finds that
    its time is over at its end time, and not before. -/
theorem timer_iff (h : Reach Initial step Steady s) :
    (s.AllRegistered → Earliest s endTime → (s.timeoutId = some endTime ↔ endTime = 0)) ∧
    ∀ i p t, s.take i = some (p, t) → p.role = .waiter → t.dev = p.devno →
      ¬Disjoint t.lockMask p.cats → p.endTime = some endTime →
      ((t.turn p true).2 = .ETIME ↔ Reached t.lbolt endTime) := by
  have hinv : Steadily s :=
    h.invariant (fun _ => Steadily.initial) fun _ _ _ h hok hs => h.step hok hs
  refine ⟨fun hall hearliest => ⟨fun htimer => hinv.timer endTime htimer, fun hzero => ?_⟩,
    fun i p t _ _ hdev hblocked hend => ?_⟩
  · have hne : s.ends ≠ [] := List.ne_nil_of_mem hearliest.1
    have hregistered : s.registered = s.procs.length := by
      refine List.countP_eq_length.mpr fun p hp => ?_
      unfold Proc.registered
      by_cases hrole : p.role = .waiter
      · simp [hall p hp hrole]
      · simp [hrole]
    have hlast : s.timeCount = s.lockCount := by
      rw [hinv.time, hinv.count, hregistered]
    obtain ⟨tick, htick⟩ := Option.ne_none_iff_exists'.mp (hinv.armed hne hlast)
    rw [htick, hinv.timer tick htick, hzero]
  · unfold State.turn State.attempt
    rw [if_neg (not_not.mpr hdev), if_neg hblocked]
    simp only [hend]
    obtain ⟨-, ⟨-, hiff⟩ | ⟨hc, -⟩⟩ := lockTimeout_cases t endTime true
    · rw [← hiff]
      rcases t.lockTimeout endTime true with ⟨t', result⟩
      cases result with
      | true => exact iff_of_false Result.noConfusion Bool.noConfusion
      | false => exact iff_of_true rfl rfl
    · cases hc

/-- The opener of a stream has a lock that another process waits for, ten ticks at most. -/
def timed (now : Clock) : State :=
  { contended with
    lbolt := now
    timeFlag := true
    timeoutId := some 0
    procs := [⟨{.openclose}, .waiter, true, some (now + 10), 1, true⟩, opener 1] }

theorem timed_earliest (now : Clock) : Earliest (timed now) (now + 10) := by
  have hends : (timed now).ends = [now + 10] := rfl
  refine ⟨by rw [hends]; exact List.mem_singleton_self _, fun other hother => ?_⟩
  rw [hends, List.mem_singleton] at hother
  rw [hother]
  exact BitVec.le_refl _

/-- Ten ticks before the clock wraps around. -/
theorem timed_reach : Reach Initial step Steady (timed 0xfffffff6) := by
  have hstart : Initial { start with lbolt := 0xfffffff6 } :=
    ⟨rfl, rfl, rfl, rfl, rfl, Or.inl ⟨rfl, rfl, rfl, rfl, rfl, rfl, rfl⟩⟩
  have hquiet : State.Quiet { start with lbolt := 0xfffffff6 } := by
    unfold State.Quiet
    decide
  have hopened : Reach Initial step Steady { start with lbolt := 0xfffffff6, openCount := 1 } :=
    (Reach.init hstart).step (e := .opened 0 false) hquiet rfl
  refine hopened.step (e := .lock {.openclose} 10 true true) ⟨rfl, hquiet, Or.inr ?_⟩ (by rfl)
  rintro endTime ⟨⟩
  decide

/-- The timer is for the end time. -/
theorem timer_iff_wrapped : (timed 0xfffffff6).timeoutId = some 0 := by
  refine ((timer_iff timed_reach).1 ?_ (timed_earliest 0xfffffff6)).mpr rfl
  unfold State.AllRegistered
  decide

/-- **A timer that comes too late**: the process waits until tick 110. -/
theorem timer_late : ∃ s : State, Reach Initial step (fun _ _ => True) s ∧ s.AllRegistered ∧
    Earliest s 110 ∧ s.timeoutId ≠ some 110 := by
  refine ⟨timed 100, ?_, ?_, timed_earliest 100, by decide⟩
  · have hopened : Reach Initial step (fun _ _ => True) { start with openCount := 1 } :=
      (Reach.init start_initial).step (e := .opened 0 false) trivial rfl
    exact hopened.step (e := .lock {.openclose} 10 true true) trivial (by rfl)
  · unfold State.AllRegistered
    decide

end CohKernel.Shead
