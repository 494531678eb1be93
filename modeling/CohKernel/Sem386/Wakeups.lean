import CohKernel.Sem386.Undo

namespace CohKernel.Sem386

open CohKernel.Lib CohKernel.Ipc

/-!
# Wake-ups

`usemop` wakes the sleepers of an event when it changes a value, `SETVAL` and `IPC_RMID` do so as
well; `semundo`, `SETALL` and `semAllAdjust` wake nobody.

* `Noted` — the operations that go through wake whom they let go on;
* `Heard` — the steps whose silent changes let nobody go on;
* `Watched` — a sleeper that has not been woken is blocked, and the counters count the sleepers;
* `reachable_blocked` — so it is in every run of such steps;
* `setall_not_heard` — a sleeper that `SETALL` leaves asleep.
-/

variable {t : Tune} {c : Ctx} {semId : ℕ} {p₀ p p' : Pass t} {done rest : List SemBuf} {op : SemBuf}

/-! ### Events -/

/-- The event that an operation waits for. -/
def eventOf (op : SemBuf) : Event :=
  if op.semOp.val < 0 then .semncnt op.semNum.val else .semzcnt op.semNum.val

/-- The operation cannot go through: the value is too low for the decrement, or not zero. -/
def Blocks (op : SemBuf) (val : ℕ → Ushort) : Prop :=
  if op.semOp.val < 0 then ((val op.semNum.val).val : ℤ) < -op.semOp.val
  else (val op.semNum.val).val ≠ 0

/-- The semaphore of an event. -/
def Event.num : Event → ℕ
  | .semncnt n => n
  | .semzcnt n => n

/-- The counter of an event. -/
def countAt (base : ℕ → Sem) : Event → Ushort
  | .semncnt n => (base n).semncnt
  | .semzcnt n => (base n).semzcnt

theorem eventOf_num (op : SemBuf) : (eventOf op).num = op.semNum.val := by
  unfold eventOf
  split_ifs <;> rfl

theorem count_countAt (set : SemidDs t) (d : ℤ) (e e' : Event) :
    countAt (set.count d e).semBase e' =
      if e' = e then ushort ((countAt set.semBase e).val + d) else countAt set.semBase e' := by
  cases e <;> cases e' <;>
    simp only [SemidDs.count, countAt, Function.update_apply, Event.semncnt.injEq,
      Event.semzcnt.injEq, reduceCtorEq, if_false] <;> split_ifs with h <;>
    first | rfl | (subst h; rfl)

theorem Framed.countAt (h : Framed p p') (e : Event) :
    Sem386.countAt p'.set.semBase e = Sem386.countAt p.set.semBase e := by
  cases e with
  | semncnt n => exact h.semncnt n
  | semzcnt n => exact h.semzcnt n

/-! ### The operations that go through -/

/-- Whom the values of `p` let go on, has been woken. -/
structure Noted (p₀ p : Pass t) : Prop where
  frame : Framed p₀ p
  grown : ∀ n, (p₀.set.semBase n).semncnt.val ≠ 0 → (p₀.val n).val < (p.val n).val →
    .semncnt n ∈ p.wakeups
  zeroed : ∀ n, (p₀.set.semBase n).semzcnt.val ≠ 0 → (p₀.val n).val ≠ 0 → (p.val n).val = 0 →
    .semzcnt n ∈ p.wakeups

theorem Noted.refl (p : Pass t) : Noted p p :=
  ⟨Framed.refl p, fun _ _ h => absurd h (lt_irrefl _), fun _ _ h h' => absurd h' h⟩

/-- Nothing but the adjustments and the error has changed. -/
theorem Noted.congr (h : Noted p₀ p) (hset : p'.set = p.set) (hw : p'.wakeups = p.wakeups) :
    Noted p₀ p' := by
  have hval : ∀ n, p'.val n = p.val n := by
    intro n
    unfold Pass.val
    rw [hset]
  refine ⟨h.frame.trans (Framed.of_set hset), fun n hc hv => ?_, fun n hc hv hz => ?_⟩
  · rw [hval] at hv
    rw [hw]
    exact h.grown n hc hv
  · rw [hval] at hz
    rw [hw]
    exact h.zeroed n hc hv hz

theorem Pass.subAdj_wakeups (p : Pass t) (c : Ctx) (semId : ℕ) (num : Ushort) (v : Short) :
    (p.subAdj c semId num v).2.wakeups = p.wakeups := by
  unfold Pass.subAdj
  cases iSubAdj t c semId num v p.semu <;> rfl

theorem Noted.subAdj (h : Noted p₀ p) (c : Ctx) (semId : ℕ) (num : Ushort) (v : Short) :
    Noted p₀ (p.subAdj c semId num v).2 :=
  h.congr (Pass.subAdj_set c semId p num v) (p.subAdj_wakeups c semId num v)

theorem Noted.fail (h : Noted p₀ p) (e : Errno) : Noted p₀ (p.fail e) := h.congr rfl rfl

/-- A value gets lower, and the sleepers that wait for zero are woken. -/
theorem Noted.lower (h : Noted p₀ p) {n : ℕ} {v : Ushort} (hlt : v.val ≤ (p.val n).val) :
    Noted p₀ (if v.val = 0 ∧ (p.set.semBase n).semzcnt.val ≠ 0 then
      (p.setVal n v).wakeup (.semzcnt n) else p.setVal n v) := by
  have hgrown : ∀ m, (p₀.set.semBase m).semncnt.val ≠ 0 →
      (p₀.val m).val < ((p.setVal n v).val m).val → .semncnt m ∈ p.wakeups := by
    intro m hc hv
    rw [Pass.setVal_val] at hv
    split_ifs at hv with hm
    · subst hm
      exact h.grown m hc (by omega)
    · exact h.grown m hc hv
  have hframe : Framed p₀ (p.setVal n v) := h.frame.trans (Framed.setVal p n v)
  split_ifs with hz
  · refine ⟨hframe.trans (Framed.of_set rfl), fun m hc hv => ?_, fun m hc hv hm => ?_⟩
    · exact List.mem_cons_of_mem _ (hgrown m hc hv)
    · have hm : ((p.setVal n v).val m).val = 0 := hm
      rw [Pass.setVal_val] at hm
      split_ifs at hm with hmn
      · rw [hmn]
        exact List.mem_cons_self
      · exact List.mem_cons_of_mem _ (h.zeroed m hc hv hm)
  · refine ⟨hframe, hgrown, fun m hc hv hm => ?_⟩
    rw [Pass.setVal_val] at hm
    split_ifs at hm with hmn
    · subst hmn
      rw [← h.frame.semzcnt] at hc
      exact absurd ⟨hm, hc⟩ hz
    · exact h.zeroed m hc hv hm

/-- A value gets higher, and the sleepers that wait for that are woken. -/
theorem Noted.raise (h : Noted p₀ p) {n : ℕ} {v : Ushort} (hpos : v.val ≠ 0) :
    Noted p₀ (if (p.set.semBase n).semncnt.val ≠ 0 then
      (p.setVal n v).wakeup (.semncnt n) else p.setVal n v) := by
  have hzeroed : ∀ m, (p₀.set.semBase m).semzcnt.val ≠ 0 → (p₀.val m).val ≠ 0 →
      ((p.setVal n v).val m).val = 0 → .semzcnt m ∈ p.wakeups := by
    intro m hc hv hm
    rw [Pass.setVal_val] at hm
    split_ifs at hm
    · exact absurd hm hpos
    · exact h.zeroed m hc hv hm
  have hframe : Framed p₀ (p.setVal n v) := h.frame.trans (Framed.setVal p n v)
  split_ifs with hw
  · refine ⟨hframe.trans (Framed.of_set rfl), fun m hc hv => ?_, fun m hc hv hm => ?_⟩
    · have hv : (p₀.val m).val < ((p.setVal n v).val m).val := hv
      rw [Pass.setVal_val] at hv
      split_ifs at hv with hmn
      · rw [hmn]
        exact List.mem_cons_self
      · exact List.mem_cons_of_mem _ (h.grown m hc hv)
    · exact List.mem_cons_of_mem _ (hzeroed m hc hv hm)
  · refine ⟨hframe, fun m hc hv => ?_, hzeroed⟩
    rw [Pass.setVal_val] at hv
    split_ifs at hv with hmn
    · subst hmn
      rw [← h.frame.semncnt] at hc
      exact absurd hc hw
    · exact h.grown m hc hv

/-- What a turn makes of `Noted`: it stays when the operation goes through, and when the pass ends
    there without a rollback. -/
def TurnNoted (p₀ : Pass t) : Turn t → Prop
  | .next p' => Noted p₀ p'
  | .ret _ => True

/-- An adjustment wakes nobody. -/
theorem Noted.recorded (h : Noted p₀ p) : TurnNoted p₀
    (match p.subAdj c semId op.semNum op.semOp with
      | (true, p) => .ret (.error, semundo c semId 0 done p)
      | (false, p) => .next p) := by
  have hsub := h.subAdj c semId op.semNum op.semOp
  revert hsub
  cases p.subAdj c semId op.semNum op.semOp with
  | mk b q =>
    cases b with
    | true => exact fun _ => trivial
    | false => exact fun hsub => hsub

theorem decrement_noted (h : Noted p₀ p) (hneg : op.semOp.val < 0) :
    TurnNoted p₀ (p.decrement c semId done op) := by
  have hval := ushort_val ((p.val op.semNum.val).val + op.semOp.val)
  have hlt := (p.val op.semNum.val).isLt
  unfold Pass.decrement
  simp only
  by_cases hw : p.lacks c IWRITE = true
  · rw [if_pos hw]
    exact trivial
  rw [if_neg hw]
  by_cases hge : ((p.set.semBase op.semNum.val).semval.val : ℤ) ≥ -op.semOp.val
  swap
  · rw [if_neg hge]
    exact trivial
  rw [if_pos hge]
  have hge' : ((p.val op.semNum.val).val : ℤ) ≥ -op.semOp.val := hge
  have hlow : (ushort ((p.val op.semNum.val).val + op.semOp.val)).val ≤
      (p.val op.semNum.val).val := by
    omega
  have hnoted := h.lower hlow
  by_cases hflag : op.has SEM_UNDO = true
  · rw [if_pos hflag]
    exact hnoted.recorded
  · rw [if_neg hflag]
    exact hnoted

theorem raise_noted (h : Noted p₀ p) (hpos : 0 < op.semOp.val) :
    TurnNoted p₀ (p.raise c semId done op) := by
  have hmax := t.semvmx_le
  have hval := ushort_val ((p.val op.semNum.val).val + op.semOp.val)
  unfold Pass.raise
  simp only
  by_cases hover : ((p.set.semBase op.semNum.val).semval.val : ℤ) > t.SEMVMX - op.semOp.val
  · rw [if_pos hover]
    exact trivial
  rw [if_neg hover]
  have hover' : ¬((p.val op.semNum.val).val : ℤ) > t.SEMVMX - op.semOp.val := hover
  have hne : (ushort ((p.val op.semNum.val).val + op.semOp.val)).val ≠ 0 := by omega
  exact h.raise hne

theorem increment_noted (h : Noted p₀ p) (hpos : 0 < op.semOp.val) :
    TurnNoted p₀ (p.increment c semId done op) := by
  have hsub := h.subAdj c semId op.semNum op.semOp
  unfold Pass.increment
  by_cases hw : p.lacks c IWRITE = true
  · rw [if_pos hw]
    exact trivial
  rw [if_neg hw]
  by_cases hflag : op.has SEM_UNDO = true
  · rw [if_pos hflag]
    revert hsub
    cases p.subAdj c semId op.semNum op.semOp with
    | mk b q =>
      cases b with
      | true => exact fun _ => trivial
      | false => exact fun hsub => raise_noted hsub hpos
  · rw [if_neg hflag]
    exact raise_noted h hpos

/-- **An operation that goes through** wakes whom it lets go on. -/
theorem turn_noted (h : Noted p₀ p) : TurnNoted p₀ (p.turn c semId done op) := by
  unfold Pass.turn
  by_cases hbig : inRange (-t.SEMVMX) op.semOp.val t.SEMVMX = false
  · rw [if_pos hbig]
    exact trivial
  rw [if_neg hbig]
  by_cases hno : p.uError ≠ none ∨ op.semNum.val ≥ p.set.semNsems
  · rw [if_pos hno]
    exact trivial
  rw [if_neg hno]
  by_cases hneg : op.semOp.val < 0
  · rw [if_pos hneg]
    exact decrement_noted h hneg
  rw [if_neg hneg]
  by_cases hzero : op.semOp.val = 0
  · rw [if_pos hzero]
    unfold Pass.waitZero
    simp only
    split_ifs
    · exact trivial
    · exact trivial
    · exact h
    · exact trivial
  · rw [if_neg hzero]
    exact increment_noted h (by omega)

/-! ### The operation that stops a pass -/

/-- How a turn that ends the pass does so: without a rollback it is an error in the state before,
    and the process sleeps on an operation that does not go through. -/
structure Stops (c : Ctx) (p₀ p : Pass t) (op : SemBuf) (h : Halt) (r : Outcome × Pass t) :
    Prop where
  stay : h.undoes = false → r = (.error, p.fail .EACCES)
  sleep : ∀ e, r.1 = .sleep e → h = .block ∧ op.has IPC_NOWAIT = false ∧ e = eventOf op ∧
    op.semOp.val ≤ 0 ∧ op.semNum.val < p₀.set.semNsems

/-- `Stops`, for a turn that ends the pass. -/
def TurnStops (c : Ctx) (p₀ p : Pass t) (op : SemBuf) : Option Halt → Turn t → Prop
  | some h, .ret r => Stops c p₀ p op h r
  | _, _ => True

theorem Stops.error {h : Halt} (hun : h.undoes = true) (q : Pass t) :
    Stops c p₀ p op h (.error, q) :=
  ⟨fun hc => Bool.noConfusion (hun.symm.trans hc), fun _ he => Outcome.noConfusion he⟩

theorem Stops.stay' {h : Halt} : Stops c p₀ p op h (.error, p.fail .EACCES) :=
  ⟨fun _ => rfl, fun _ he => Outcome.noConfusion he⟩

theorem block_stops (hle : op.semOp.val ≤ 0) (hnum : op.semNum.val < p₀.set.semNsems)
    {e : Event} (hev : e = eventOf op) :
    Stops c p₀ p op .block (p.block c semId done op e) := by
  unfold Pass.block
  simp only
  split_ifs with hno
  · exact Stops.error rfl _
  · refine ⟨fun hc => Bool.noConfusion hc, fun e' he' => ?_⟩
    cases he'
    exact ⟨rfl, by simpa using hno, hev, hle, hnum⟩

theorem turn_stops (he : Executed c semId p₀ p done) :
    TurnStops c p₀ p op (halt c semId p₀ done op) (p.turn c semId done op) := by
  have hval : ((p.set.semBase op.semNum.val).semval.val : ℤ) = valueAt p₀ done op.semNum.val :=
    he.val _
  unfold Pass.turn halt
  simp only [he.uError, he.nsems]
  by_cases hbig : inRange (-t.SEMVMX) op.semOp.val t.SEMVMX = false
  · rw [if_pos hbig, if_pos hbig]
    exact Stops.error rfl _
  rw [if_neg hbig, if_neg hbig]
  by_cases hno : p₀.uError ≠ none ∨ op.semNum.val ≥ p₀.set.semNsems
  · rw [if_pos hno, if_pos hno]
    exact Stops.error rfl _
  rw [if_neg hno, if_neg hno]
  have hnum : op.semNum.val < p₀.set.semNsems := by
    by_contra hc
    exact hno (Or.inr (by omega))
  -- every error but a missing permission comes with a rollback
  have hsub : ∀ (h : Option Halt) (q : Pass t) (g : Pass t → Turn t),
      (∀ q, TurnStops c p₀ p op h (g q)) → (∀ h', h = some h' → h'.undoes = true) →
      TurnStops c p₀ p op h (match q.subAdj c semId op.semNum op.semOp with
        | (true, p) => .ret (.error, semundo c semId 0 done p)
        | (false, p) => g p) := by
    intro h q g hg hun
    cases q.subAdj c semId op.semNum op.semOp with
    | mk b q' =>
      cases b with
      | false => exact hg q'
      | true =>
        cases h with
        | none => exact trivial
        | some h' => exact Stops.error (hun h' rfl) _
  by_cases hneg : op.semOp.val < 0
  · rw [if_pos hneg, if_pos hneg]
    unfold Pass.decrement
    simp only [he.lacks, hval]
    by_cases hw : p₀.lacks c IWRITE = true
    · rw [if_pos hw, if_pos hw]
      exact Stops.stay'
    rw [if_neg hw, if_neg hw]
    by_cases hge : valueAt p₀ done op.semNum.val ≥ -op.semOp.val
    · rw [if_pos hge, if_pos hge]
      have hun : ∀ h', (if refuses c semId p₀ done op then some Halt.adjust else none) = some h' →
          h'.undoes = true := by
        intro h' hh
        split_ifs at hh
        cases hh
        rfl
      by_cases hflag : op.has SEM_UNDO = true
      · rw [if_pos hflag]
        refine hsub _ _ _ (fun q => ?_) hun
        cases (if refuses c semId p₀ done op then some Halt.adjust else none) <;> exact trivial
      · rw [if_neg hflag]
        cases (if refuses c semId p₀ done op then some Halt.adjust else none) <;> exact trivial
    · rw [if_neg hge, if_neg hge]
      exact block_stops (by omega) hnum (if_pos hneg).symm
  rw [if_neg hneg, if_neg hneg]
  by_cases hzero : op.semOp.val = 0
  · rw [if_pos hzero, if_pos hzero]
    have hfail : ∀ mode, (p.fail .EACCES).lacks c mode = p₀.lacks c mode := he.lacks
    unfold Pass.waitZero
    simp only [he.lacks, hfail]
    by_cases hr : p₀.lacks c IREAD = true
    · rw [if_pos hr, if_pos hr]
      by_cases hw : p₀.lacks c IWRITE = true
      · rw [if_pos hw, if_pos hw]
        exact Stops.error rfl _
      · rw [if_neg hw, if_neg hw]
        exact Stops.stay'
    rw [if_neg hr, if_neg hr]
    by_cases hz : valueAt p₀ done op.semNum.val = 0
    · rw [if_pos hz, if_pos (by omega)]
      exact trivial
    · rw [if_neg hz, if_neg (by omega)]
      exact block_stops (by omega) hnum (if_neg hneg).symm
  · rw [if_neg hzero, if_neg hzero]
    unfold Pass.increment
    simp only [he.lacks]
    by_cases hw : p₀.lacks c IWRITE = true
    · rw [if_pos hw, if_pos hw]
      exact Stops.stay'
    rw [if_neg hw, if_neg hw]
    have hun : ∀ h', (if refuses c semId p₀ done op then some Halt.adjust
        else if valueAt p₀ done op.semNum.val > t.SEMVMX - op.semOp.val then some .over
        else none) = some h' → h'.undoes = true := by
      intro h' hh
      split_ifs at hh <;> cases hh <;> rfl
    revert hun
    generalize (if refuses c semId p₀ done op then some Halt.adjust
      else if valueAt p₀ done op.semNum.val > t.SEMVMX - op.semOp.val then some .over
      else none) = o
    intro hun
    have hraise : ∀ q : Pass t, TurnStops c p₀ p op o (q.raise c semId done op) := by
      intro q
      unfold Pass.raise
      simp only
      cases o with
      | none => exact trivial
      | some h' =>
        by_cases hover : ((q.set.semBase op.semNum.val).semval.val : ℤ) > t.SEMVMX - op.semOp.val
        · rw [if_pos hover]
          exact Stops.error (hun h' rfl) _
        · rw [if_neg hover]
          exact trivial
    split_ifs
    · exact hsub _ _ _ hraise hun
    · exact hraise p

/-- **A pass** wakes whom it lets go on, up to the operation that stops it. -/
theorem run_noted : ∀ (rest done : List SemBuf) (p : Pass t), Executed c semId p₀ p done →
    Noted p₀ p →
    match stop c semId p₀ done rest with
    | none => ∃ q, Noted p₀ q ∧ (p.run c semId done rest).2 = q.finish c (done ++ rest)
    | some (_, op, h) => ∃ q, Noted p₀ q ∧ Stops c p₀ q op h (p.run c semId done rest) := by
  intro rest
  induction rest with
  | nil =>
    intro done p _ hn
    exact ⟨p, hn, by rw [List.append_nil]; rfl⟩
  | cons op rest ih =>
    intro done p he hn
    have hspec : TurnSpec c semId p₀ done op _ _ := turn_spec he
    have hstops : TurnStops c p₀ p op _ _ := turn_stops he
    have hnoted : TurnNoted p₀ (p.turn c semId done op) := turn_noted hn
    unfold stop Pass.run
    revert hspec hstops hnoted
    cases halt c semId p₀ done op with
    | none =>
      cases p.turn c semId done op with
      | ret r => exact fun hspec => hspec.elim
      | next p' =>
        intro hspec _ hnoted
        have hrest := ih (done ++ [op]) p' hspec hnoted
        rw [List.append_assoc, List.singleton_append] at hrest
        exact hrest
    | some h =>
      cases p.turn c semId done op with
      | next p' => exact fun hspec => hspec.elim
      | ret r => exact fun _ hstops _ => ⟨p, hn, hstops⟩

/-! ### The sleepers of an event -/

/-- The process sleeps on the event. -/
def waits (o : Option Sleeper) (id : ℕ) (e : Event) : Bool :=
  o.any fun sl => decide (sl.semId = id ∧ sl.event = e)

/-- The number of processes that sleep on an event. -/
def waiting (sleepers : ℕ → Option Sleeper) (id : ℕ) (e : Event) : ℕ :=
  ((Finset.range PID_MAX).filter fun pid => waits (sleepers pid) id e = true).card

theorem waiting_le (sleepers : ℕ → Option Sleeper) (id : ℕ) (e : Event) :
    waiting sleepers id e ≤ PID_MAX := by
  refine (Finset.card_filter_le _ _).trans ?_
  rw [Finset.card_range]

theorem waits_some {o : Option Sleeper} {id : ℕ} {e : Event} :
    waits o id e = true ↔ ∃ sl, o = some sl ∧ sl.semId = id ∧ sl.event = e := by
  cases o <;> simp [waits]

/-- A sleeper is counted. -/
theorem waiting_pos {sleepers : ℕ → Option Sleeper} {pid : ℕ} {sl : Sleeper}
    (hpid : pid < PID_MAX) (hsl : sleepers pid = some sl) :
    0 < waiting sleepers sl.semId sl.event := by
  refine Finset.card_pos.mpr ⟨pid, Finset.mem_filter.mpr ⟨Finset.mem_range.mpr hpid, ?_⟩⟩
  exact waits_some.mpr ⟨sl, hsl, rfl, rfl⟩

theorem waiting_wakeAll (semId : ℕ) (events : List Event) (sleepers : ℕ → Option Sleeper) (id : ℕ)
    (e : Event) : waiting (wakeAll semId events sleepers) id e = waiting sleepers id e := by
  refine congrArg Finset.card (Finset.filter_congr fun pid _ => ?_)
  rw [wakeAll]
  cases sleepers pid with
  | none => exact Iff.rfl
  | some sl =>
    simp only [Option.map_some]
    split_ifs <;> exact Iff.rfl

/-- One process more or less. -/
theorem waiting_update {pid : ℕ} (hpid : pid < PID_MAX) (sleepers : ℕ → Option Sleeper)
    (o : Option Sleeper) (id : ℕ) (e : Event) :
    waiting (Function.update sleepers pid o) id e + (if waits (sleepers pid) id e then 1 else 0) =
      waiting sleepers id e + if waits o id e then 1 else 0 := by
  have hmem : pid ∈ Finset.range PID_MAX := Finset.mem_range.mpr hpid
  have hrest : ∑ q ∈ (Finset.range PID_MAX).erase pid,
      (if waits (Function.update sleepers pid o q) id e then 1 else 0) =
      ∑ q ∈ (Finset.range PID_MAX).erase pid, if waits (sleepers q) id e then 1 else 0 := by
    refine Finset.sum_congr rfl fun q hq => ?_
    rw [Function.update_of_ne (Finset.ne_of_mem_erase hq)]
  unfold waiting
  rw [Finset.card_filter, Finset.card_filter, ← Finset.add_sum_erase _ _ hmem,
    ← Finset.add_sum_erase _ _ hmem, hrest, Function.update_self]
  omega

/-! ### The condition -/

/-- The process is asleep on the set and has not been woken. -/
def Asleep (s : State t) (pid id : ℕ) (sl : Sleeper) : Prop :=
  s.sleepers pid = some sl ∧ sl.woken = false ∧ sl.semId = id

/-- The values that a rollback leaves. -/
def leftVals (p : Pass t) (done : List SemBuf) (op : SemBuf) (h : Halt) (n : ℕ) : Ushort :=
  ushort (leftVal p done op h n)

/-- What the steps that wake nobody do to the sleepers. -/
structure Heard (s : State t) (a : Call) : Prop where
  unclaimed : Unclaimed s a
  inside : Inside s a
  /-- The values that a rollback leaves block whoever sleeps on the set. -/
  rollback : ∀ semId p done op h, RollsBack s a semId p done op h → ∀ pid sl,
    Asleep s pid semId sl → Blocks sl.op (leftVals p done op h)
  /-- They block the operation that the process goes to sleep on. -/
  sleep : ∀ semId p done op, RollsBack s a semId p done op .block →
    op.has IPC_NOWAIT = false → Blocks op (leftVals p done op .block)
  /-- The values that `SETALL` stores block whoever sleeps on them. -/
  setall : ∀ c semid semnum array, a = .ctl c semid semnum (.SETALL array) → ∀ set,
    s.sets.live semid.toNat = some set → ipcLackPerm c.cred set.semPerm IWRITE = false →
    ∀ pid sl, Asleep s pid semid.toNat sl → sl.op.semNum.val < set.semNsems →
      (∀ i < sl.op.semNum.val + 1, Fits t (array i)) → Blocks sl.op fun n => (array n).getD 0
  /-- The values after the adjustments of an exiting process block whoever sleeps on them. -/
  exit : ∀ c, a = .exit c → ∀ id nsems base, s.sets.sems id = some (nsems, base) → ∀ pid sl,
    Asleep s pid id sl →
      Blocks sl.op fun n => ushort ((base n).semval.val + applied (s.sets.tables.semu c.self) id n)

/-! ### The invariant -/

/-- The sleepers of the set are blocked, and counted. -/
structure Watched (s : State t) : Prop where
  pid : ∀ pid sl, s.sleepers pid = some sl → pid < PID_MAX
  event : ∀ pid sl, s.sleepers pid = some sl → sl.event = eventOf sl.op
  blocked : ∀ pid sl, s.sleepers pid = some sl → sl.woken = false → ∃ nsems base,
    s.sets.sems sl.semId = some (nsems, base) ∧ sl.op.semNum.val < nsems ∧
      Blocks sl.op fun n => (base n).semval
  counted : ∀ id nsems base, s.sets.sems id = some (nsems, base) → ∀ e, e.num < nsems →
    (countAt base e).val = waiting s.sleepers id e

variable {s s' : State t} {a : Call} {semids : ℕ → SemidDs t}

theorem blocks_congr {op : SemBuf} {val val' : ℕ → Ushort}
    (h : val' op.semNum.val = val op.semNum.val) (hb : Blocks op val) : Blocks op val' := by
  unfold Blocks at hb ⊢
  rw [h]
  exact hb

/-- A counter that is not zero has a sleeper, and the other way round. -/
theorem Watched.pos (hw : Watched s) {pid : ℕ} {sl : Sleeper} (hsl : s.sleepers pid = some sl)
    {nsems : ℕ} {base : ℕ → Sem} (hs : s.sets.sems sl.semId = some (nsems, base))
    (hlt : sl.op.semNum.val < nsems) : (countAt base (eventOf sl.op)).val ≠ 0 := by
  have hev := hw.event pid sl hsl
  rw [hw.counted _ _ _ hs _ (by rw [eventOf_num]; exact hlt), ← hev]
  exact (waiting_pos (hw.pid pid sl hsl) hsl).ne'

/-- A sleeper of a removed set goes on. -/
theorem Watched.leaveRemoved (hw : Watched s) {pid : ℕ} {sl : Sleeper}
    (hsl : s.sleepers pid = some sl) (hs : s.sets.sems sl.semId = none)
    (hsets : s'.sets = s.sets) (hsleep : s'.sleepers = Function.update s.sleepers pid none) :
    Watched s' := by
  have hold : ∀ q sl', s'.sleepers q = some sl' → s.sleepers q = some sl' := by
    intro q sl' hq
    rw [hsleep, Function.update_apply] at hq
    split_ifs at hq
    exact hq
  refine ⟨fun q sl' hq => hw.pid q sl' (hold q sl' hq), fun q sl' hq => hw.event q sl'
    (hold q sl' hq),
    fun q sl' hq hwok => ?_, fun id nsems base hid e he => ?_⟩
  · rw [hsets]
    exact hw.blocked q sl' (hold q sl' hq) hwok
  · rw [hsets] at hid
    have hupd := waiting_update (hw.pid pid sl hsl) s.sleepers none id e
    have hne : waits (s.sleepers pid) id e = false := by
      rw [hsl]
      refine decide_eq_false fun hc => ?_
      rw [hc.1, hid] at hs
      cases hs
    rw [hne, show waits none id e = false from rfl] at hupd
    rw [hsleep, hw.counted id nsems base hid e he]
    omega

/-- A sleeper of an allocated set goes on. -/
theorem Watched.awake (hw : Watched s) {pid : ℕ} {sl : Sleeper} (hsl : s.sleepers pid = some sl)
    (hsem : s.sets.tables.semids = some semids) (halloc : (semids sl.semId).alloc = true) :
    Watched (s.awake pid (leave semids sl)) := by
  have hsems := sems_alloc hsem halloc
  obtain ⟨hn, hv⟩ := count_same (semids sl.semId) (-1) sl.event
  have hold : ∀ q sl', (s.awake pid (leave semids sl)).sleepers q = some sl' →
      s.sleepers q = some sl' := by
    intro q sl' hq
    rw [State.awake] at hq
    simp only [Function.update_apply] at hq
    split_ifs at hq
    exact hq
  refine ⟨fun q sl' hq => hw.pid q sl' (hold q sl' hq), fun q sl' hq => hw.event q sl'
    (hold q sl' hq),
    fun q sl' hq hwok => ?_, fun id nsems base hid e he => ?_⟩
  · obtain ⟨nsems, base, hs, hlt, hb⟩ := hw.blocked q sl' (hold q sl' hq) hwok
    rw [awake_sems hsem sl halloc]
    by_cases hid : sl'.semId = sl.semId
    · rw [hid, hsems] at hs
      cases hs
      rw [if_pos hid]
      exact ⟨_, _, rfl, by rw [hn]; exact hlt, blocks_congr (hv _) hb⟩
    · rw [if_neg hid]
      exact ⟨nsems, base, hs, hlt, hb⟩
  · have hupd := waiting_update (hw.pid pid sl hsl) s.sleepers none id e
    rw [show waits none id e = false from rfl, hsl] at hupd
    have hbound := waiting_le s.sleepers id e
    have hmax : PID_MAX < 2 ^ 15 := by decide
    show (countAt base e).val = waiting (Function.update s.sleepers pid none) id e
    rw [awake_sems hsem sl halloc] at hid
    by_cases hsid : id = sl.semId
    · subst hsid
      rw [if_pos rfl] at hid
      cases hid
      rw [hn] at he
      have hcount := hw.counted _ _ _ hsems e he
      rw [count_countAt]
      by_cases hee : e = sl.event
      · subst hee
        have hwaits : waits (some sl) sl.semId sl.event = true := by simp [waits]
        have hval := ushort_val ((countAt (semids sl.semId).semBase sl.event).val + (-1))
        rw [hwaits, if_pos rfl] at hupd
        rw [if_pos rfl]
        simp only [Bool.false_eq_true, if_false] at hupd
        omega
      · have hwaits : waits (some sl) sl.semId e = false := by
          simp [waits, Ne.symm hee]
        rw [hwaits] at hupd
        rw [if_neg hee, hcount]
        omega
    · have hwaits : waits (some sl) id e = false := by
        simp [waits, Ne.symm hsid]
      rw [hwaits] at hupd
      rw [if_neg hsid] at hid
      rw [hw.counted id _ _ hid e he]
      omega

/-! ### A pass and the sleepers -/

/-- Whom the values of `p` let go on, is woken. -/
theorem Noted.blocks (h : Noted p₀ p) {op' : SemBuf} (hb : Blocks op' p₀.val)
    (hc : (countAt p₀.set.semBase (eventOf op')).val ≠ 0) (hw : eventOf op' ∉ p.wakeups) :
    Blocks op' p.val := by
  unfold Blocks eventOf at *
  split_ifs at * with hneg
  · have hle : ¬(p₀.val op'.semNum.val).val < (p.val op'.semNum.val).val :=
      fun hlt => hw (h.grown _ hc hlt)
    omega
  · exact fun hz => hw (h.zeroed _ hc hb hz)

/-- **A pass** leaves a sleeper blocked, or wakes it. -/
theorem run_blocks {sops : List SemBuf} {op' : SemBuf} (hb : Blocks op' p.val)
    (hc : (countAt p.set.semBase (eventOf op')).val ≠ 0)
    (hw : eventOf op' ∉ (p.run c semId [] sops).2.wakeups)
    (hroll : ∀ done op h, stop c semId p [] sops = some (done, op, h) → h.undoes = true →
      Blocks op' (leftVals p done op h)) : Blocks op' (p.run c semId [] sops).2.val := by
  have hnoted := run_noted sops [] p (executed_nil c semId p) (Noted.refl p)
  have hspec := run_spec sops [] p (executed_nil c semId p)
  cases hstop : stop c semId p [] sops with
  | none =>
    rw [hstop] at hnoted
    obtain ⟨q, hq, heq⟩ := hnoted
    rw [heq] at hw ⊢
    have hfin : ∀ n, (q.finish c ([] ++ sops)).val n = q.val n := by
      intro n
      unfold Pass.finish Pass.val
      simp only
      split_ifs <;> rfl
    exact blocks_congr (hfin _) (hq.blocks hb hc hw)
  | some r =>
    obtain ⟨done, op, h⟩ := r
    rw [hstop] at hnoted hspec
    obtain ⟨q, hq, hstops⟩ := hnoted
    by_cases hun : h.undoes = true
    · refine blocks_congr ?_ (hroll done op h hstop hun)
      rw [hspec.2.val, if_pos hun]
      rfl
    · rw [Bool.not_eq_true] at hun
      rw [hstops.stay hun] at hw ⊢
      exact (hq.fail .EACCES).blocks hb hc hw

/-- **A pass** counts its process when it goes to sleep, and changes no counter otherwise. -/
theorem run_counts (c : Ctx) (semId : ℕ) (p : Pass t) (sops : List SemBuf) :
    (∃ done op, (p.run c semId [] sops).1 = .sleep (eventOf op) ∧
      stop c semId p [] sops = some (done, op, .block) ∧ op.has IPC_NOWAIT = false ∧
      op.semNum.val < p.set.semNsems ∧ ∀ e, countAt (p.run c semId [] sops).2.set.semBase e =
        if e = eventOf op then ushort ((countAt p.set.semBase e).val + 1)
        else countAt p.set.semBase e) ∨
    (∀ e, (p.run c semId [] sops).1 ≠ .sleep e) ∧
      ∀ e, countAt (p.run c semId [] sops).2.set.semBase e = countAt p.set.semBase e := by
  have hnoted := run_noted sops [] p (executed_nil c semId p) (Noted.refl p)
  rcases @run_moves t c semId sops [] p (by simp) with hends | ⟨q, hq, heq⟩
  · cases hr : p.run c semId [] sops with
    | mk o p' =>
      rw [hr] at hends
      cases hends with
      | error _ hq => exact Or.inr ⟨fun e => by simp, fun e => hq.framed.countAt e⟩
      | sleep q e hq =>
        left
        cases hstop : stop c semId p [] sops with
        | none =>
          have hspec := run_spec sops [] p (executed_nil c semId p)
          rw [hstop, hr] at hspec
          cases hspec
        | some r =>
          obtain ⟨done, op, h⟩ := r
          rw [hstop, hr] at hnoted
          obtain ⟨_, _, hstops⟩ := hnoted
          obtain ⟨rfl, hno, rfl, _, hnum⟩ := hstops.sleep e rfl
          refine ⟨done, op, rfl, rfl, hno, hnum, fun e' => ?_⟩
          show countAt (q.set.count 1 (eventOf op)).semBase e' = _
          rw [count_countAt, hq.framed.countAt, hq.framed.countAt]
          split_ifs with he
          · rw [he]
          · rfl
  · right
    rw [heq]
    refine ⟨fun e => by simp, fun e => ?_⟩
    have hfin : countAt (q.finish c ([] ++ sops)).set.semBase e = countAt q.set.semBase e := by
      unfold Pass.finish
      cases e <;> simp only [countAt] <;> split_ifs <;> rfl
    rw [hfin]
    exact hq.framed.countAt e

/-- What `wakeup` makes of a sleeper. -/
theorem wakeAll_some {events : List Event} {sleepers : ℕ → Option Sleeper} {q : ℕ} {sl : Sleeper}
    (h : wakeAll semId events sleepers q = some sl) : ∃ sl₀, sleepers q = some sl₀ ∧
      sl.semId = sl₀.semId ∧ sl.event = sl₀.event ∧ sl.op = sl₀.op ∧
      (sl.woken = false → sl₀.woken = false ∧ ¬(sl₀.semId = semId ∧ sl₀.event ∈ events)) := by
  obtain ⟨sl₀, hsl₀, heq⟩ := Option.map_eq_some_iff.mp h
  refine ⟨sl₀, hsl₀, ?_⟩
  split_ifs at heq with hc
  · subst heq
    exact ⟨rfl, rfl, rfl, fun hw => Bool.noConfusion hw⟩
  · subst heq
    exact ⟨rfl, rfl, rfl, fun hw => ⟨hw, hc⟩⟩

/-- The process after a pass, and the counters. -/
theorem asleep_cases (c : Ctx) (semId : ℕ) (sops : List SemBuf) (p : Pass t) (r : Result t)
    (hr : r.outcome = (p.run c semId [] sops).1) :
    (∃ done op sl, asleep c semId sops p r = some sl ∧ sl.semId = semId ∧ sl.event = eventOf op ∧
      sl.op = op ∧ stop c semId p [] sops = some (done, op, .block) ∧ op.has IPC_NOWAIT = false ∧
      op.semNum.val < p.set.semNsems ∧ ∀ e, countAt (p.run c semId [] sops).2.set.semBase e =
        if e = eventOf op then ushort ((countAt p.set.semBase e).val + 1)
        else countAt p.set.semBase e) ∨
    asleep c semId sops p r = none ∧
      ∀ e, countAt (p.run c semId [] sops).2.set.semBase e = countAt p.set.semBase e := by
  unfold asleep
  rw [hr]
  rcases run_counts c semId p sops with ⟨done, op, hout, hstop, hno, hnum, hcount⟩ | ⟨hout, hcount⟩
  · left
    rw [hout, hstop]
    exact ⟨done, op, _, rfl, rfl, rfl, rfl, rfl, hno, hnum, hcount⟩
  · right
    refine ⟨?_, hcount⟩
    cases hrun : (p.run c semId [] sops).1 with
    | ok => rfl
    | error => rfl
    | sleep e => exact (hout e hrun).elim

/-- **A pass** of a process that is awake keeps the sleepers blocked and counted. -/
theorem Watched.pass {sops : List SemBuf} {uError : Option Errno} (hw : Watched s)
    (hpid : c.self < PID_MAX) (hnone : s.sleepers c.self = none)
    (hsem : s.sets.tables.semids = some semids) (halloc : (semids semId).alloc = true)
    (hroll : ∀ done op h, stop c semId (s.start c semids semId uError) [] sops =
        some (done, op, h) → h.undoes = true → ∀ pid sl, Asleep s pid semId sl →
      Blocks sl.op (leftVals (s.start c semids semId uError) done op h))
    (hsleep : ∀ done op, stop c semId (s.start c semids semId uError) [] sops =
        some (done, op, .block) → op.has IPC_NOWAIT = false →
      Blocks op (leftVals (s.start c semids semId uError) done op .block)) :
    Watched (s.pass c semids semId sops uError) := by
  set p := s.start c semids semId uError with hp
  have hsems := sems_alloc hsem halloc
  have hpsems := pass_sems hsem halloc c sops uError
  rw [← hp] at hpsems
  obtain ⟨hframe, -⟩ := @run_frame t c semId sops p
  have hsl : (s.pass c semids semId sops uError).sleepers =
      Function.update (wakeAll semId (p.run c semId [] sops).2.wakeups s.sleepers) c.self
        (asleep c semId sops p (s.sets.tables.tryAgain c semids semId sops uError)) := rfl
  have hold := asleep_cases c semId sops p (s.sets.tables.tryAgain c semids semId sops uError) rfl
  generalize asleep c semId sops p (s.sets.tables.tryAgain c semids semId sops uError) = o
    at hsl hold
  -- a sleeper of before, or the process itself
  have hwho : ∀ q sl, (s.pass c semids semId sops uError).sleepers q = some sl →
      q = c.self ∧ o = some sl ∨ ∃ sl₀, s.sleepers q = some sl₀ ∧ sl.semId = sl₀.semId ∧
        sl.event = sl₀.event ∧ sl.op = sl₀.op ∧ (sl.woken = false → sl₀.woken = false ∧
          ¬(sl₀.semId = semId ∧ sl₀.event ∈ (p.run c semId [] sops).2.wakeups)) := by
    intro q sl hq
    rw [hsl, Function.update_apply] at hq
    split_ifs at hq with hself
    · exact Or.inl ⟨hself, hq⟩
    · exact Or.inr (wakeAll_some hq)
  have hself : ∀ sl, o = some sl → sl.semId = semId ∧ sl.event = eventOf sl.op ∧
      sl.op.semNum.val < p.set.semNsems ∧ Blocks sl.op (p.run c semId [] sops).2.val := by
    intro sl ho
    rcases hold with ⟨done, op, sl', hsl', hid, hev, hop, hstop, hno, hnum, -⟩ | ⟨hnone', -⟩
    · rw [ho] at hsl'
      cases hsl'
      rw [hop]
      refine ⟨hid, by rw [hev], hnum, blocks_congr ?_ (hsleep done op hstop hno)⟩
      have hspec := run_spec sops [] p (executed_nil c semId p)
      rw [hstop] at hspec
      rw [hspec.2.val]
      rfl
    · rw [ho] at hnone'
      cases hnone'
  refine ⟨fun q sl hq => ?_, fun q sl hq => ?_, fun q sl hq hwok => ?_,
    fun id nsems base hid e he => ?_⟩
  · rcases hwho q sl hq with ⟨rfl, -⟩ | ⟨sl₀, hsl₀, -⟩
    · exact hpid
    · exact hw.pid q sl₀ hsl₀
  · rcases hwho q sl hq with ⟨-, ho⟩ | ⟨sl₀, hsl₀, -, hev, hop, -⟩
    · exact (hself sl ho).2.1
    · rw [hev, hop]
      exact hw.event q sl₀ hsl₀
  · rw [hpsems]
    rcases hwho q sl hq with ⟨-, ho⟩ | ⟨sl₀, hsl₀, hid, hev, hop, hwoken⟩
    · obtain ⟨hid, -, hnum, hb⟩ := hself sl ho
      rw [if_pos hid]
      exact ⟨_, _, rfl, by rw [hframe]; exact hnum, hb⟩
    · obtain ⟨hwok₀, hnot⟩ := hwoken hwok
      obtain ⟨nsems, base, hs, hlt, hb⟩ := hw.blocked q sl₀ hsl₀ hwok₀
      rw [hid, hop]
      by_cases hsid : sl₀.semId = semId
      · have hpos := hw.pos hsl₀ hs hlt
        rw [hsid, hsems] at hs
        cases hs
        rw [if_pos hsid]
        refine ⟨_, _, rfl, by rw [hframe]; exact hlt, run_blocks (p := p) hb hpos ?_ ?_⟩
        · rw [← hw.event q sl₀ hsl₀]
          exact fun hc => hnot ⟨hsid, hc⟩
        · exact fun done op h hstop hun => hroll done op h hstop hun q sl₀ ⟨hsl₀, hwok₀, hsid⟩
      · rw [if_neg hsid]
        exact ⟨nsems, base, hs, hlt, hb⟩
  · rw [hpsems] at hid
    have hupd := waiting_update hpid (wakeAll semId (p.run c semId [] sops).2.wakeups s.sleepers) o
      id e
    rw [← hsl, waiting_wakeAll, wakeAll, hnone] at hupd
    have hbound := waiting_le s.sleepers id e
    have hmax : PID_MAX < 2 ^ 15 := by decide
    rw [Option.map_none, show waits none id e = false from rfl] at hupd
    have hsame : waits o id e = false →
        waiting (s.pass c semids semId sops uError).sleepers id e = waiting s.sleepers id e := by
      intro hwaits
      rw [hwaits] at hupd
      omega
    by_cases hsid : id = semId
    · subst hsid
      rw [if_pos rfl] at hid
      cases hid
      have he' : e.num < p.set.semNsems := by
        rw [← hframe]
        exact he
      have hcount : (countAt p.set.semBase e).val = waiting s.sleepers id e :=
        hw.counted _ _ _ hsems e he'
      rcases hold with ⟨done, op, sl, hsl', hid, hev, -, -, -, -, hafter⟩ | ⟨hnone', hafter⟩
      · show (countAt (p.run c id [] sops).2.set.semBase e).val = _
        rw [hafter]
        split_ifs with hee
        · have hwaits : waits o id e = true := by
            rw [hsl', waits_some]
            exact ⟨sl, rfl, hid, by rw [hev, hee]⟩
          have hval := ushort_val ((countAt p.set.semBase e).val + 1)
          rw [hwaits] at hupd
          simp only [Bool.false_eq_true, if_false, if_true] at hupd
          omega
        · rw [hcount, hsame]
          rw [hsl']
          refine decide_eq_false fun hc => hee ?_
          rw [← hc.2, hev]
      · show (countAt (p.run c id [] sops).2.set.semBase e).val = _
        rw [hafter, hcount, hsame]
        rw [hnone']
        rfl
    · rw [if_neg hsid] at hid
      rw [hw.counted id _ _ hid e he, hsame]
      cases o with
      | none => rfl
      | some sl =>
        refine decide_eq_false fun hc => hsid ?_
        rw [← hc.1]
        exact (hself sl rfl).1

/-! ### The other steps -/

/-- A step that changes no counter and no sleeper but by waking it. -/
theorem Watched.of_sems (hw : Watched s) {id₀ : ℕ} {events : List Event}
    (hsl : s'.sleepers = wakeAll id₀ events s.sleepers)
    (hsems : ∀ id nsems base, s'.sets.sems id = some (nsems, base) →
      (∀ e, e.num < nsems → (countAt base e).val = waiting s.sleepers id e))
    (hblocked : ∀ pid sl, s.sleepers pid = some sl → sl.woken = false →
      ¬(sl.semId = id₀ ∧ sl.event ∈ events) → ∀ nsems base,
      s.sets.sems sl.semId = some (nsems, base) → sl.op.semNum.val < nsems →
      (Blocks sl.op fun n => (base n).semval) → ∃ nsems base,
        s'.sets.sems sl.semId = some (nsems, base) ∧ sl.op.semNum.val < nsems ∧
          Blocks sl.op fun n => (base n).semval) : Watched s' := by
  refine ⟨fun q sl hq => ?_, fun q sl hq => ?_, fun q sl hq hwok => ?_,
    fun id nsems base hid e he => ?_⟩
  · rw [hsl] at hq
    obtain ⟨sl₀, hsl₀, -⟩ := wakeAll_some hq
    exact hw.pid q sl₀ hsl₀
  · rw [hsl] at hq
    obtain ⟨sl₀, hsl₀, -, hev, hop, -⟩ := wakeAll_some hq
    rw [hev, hop]
    exact hw.event q sl₀ hsl₀
  · rw [hsl] at hq
    obtain ⟨sl₀, hsl₀, hid, hev, hop, hwoken⟩ := wakeAll_some hq
    obtain ⟨hwok₀, hnot⟩ := hwoken hwok
    obtain ⟨nsems, base, hs, hlt, hb⟩ := hw.blocked q sl₀ hsl₀ hwok₀
    rw [hid, hop]
    exact hblocked q sl₀ hsl₀ hwok₀ hnot nsems base hs hlt hb
  · rw [hsl, waiting_wakeAll]
    exact hsems id nsems base hid e he

theorem wakeAll_nil (id : ℕ) (sleepers : ℕ → Option Sleeper) : wakeAll id [] sleepers =
    sleepers := by
  funext q
  rw [wakeAll]
  cases sleepers q with
  | none => rfl
  | some sl => simp

theorem withVals_countAt (i j : ℕ) (v : ℕ → Ushort) (base : ℕ → Sem) (e : Event) :
    countAt (withVals i j v base) e = countAt base e := by
  cases e <;> simp only [countAt, withVals] <;> split_ifs <;> rfl

/-- Changed values of one set. -/
theorem Watched.setTo (hw : Watched s) {semid i j nsems : ℕ} {base : ℕ → Sem} {v : ℕ → Ushort}
    {events : List Event} (hsl : s'.sleepers = wakeAll semid events s.sleepers)
    (hs : s.sets.sems semid = some (nsems, base))
    (hsems : ∀ id, s'.sets.sems id =
      if id = semid then some (nsems, withVals i j v base) else s.sets.sems id)
    (hb : ∀ pid sl, Asleep s pid semid sl → sl.event ∉ events → sl.op.semNum.val < nsems →
      i ≤ sl.op.semNum.val → sl.op.semNum.val < j → Blocks sl.op v) : Watched s' := by
  refine hw.of_sems hsl (fun id nsems' base' hid e he => ?_)
    fun pid sl hsl hwok hnot nsems' base' hs' hlt hbl => ?_
  · rw [hsems] at hid
    split_ifs at hid with hsid
    · cases hid
      rw [withVals_countAt, hsid]
      exact hw.counted _ _ _ hs e he
    · exact hw.counted _ _ _ hid e he
  · by_cases hsid : sl.semId = semid
    · rw [hsid, hs] at hs'
      cases hs'
      rw [hsems, if_pos hsid]
      refine ⟨_, _, rfl, hlt, ?_⟩
      by_cases hin : i ≤ sl.op.semNum.val ∧ sl.op.semNum.val < j
      · refine blocks_congr ?_ (hb pid sl ⟨hsl, hwok, hsid⟩ (fun hc => hnot ⟨hsid, hc⟩) hlt
          hin.1 hin.2)
        simp only [withVals, if_pos hin]
      · refine blocks_congr ?_ hbl
        simp only [withVals, if_neg hin]
    · rw [hsems, if_neg hsid]
      exact ⟨nsems', base', hs', hlt, hbl⟩

theorem Watched.ctl (hw : Watched s) (semid semnum : ℤ) (cmd : Cmd)
    (hsetall : ∀ array, cmd = .SETALL array → ∀ set, s.sets.live semid.toNat = some set →
      ipcLackPerm c.cred set.semPerm IWRITE = false → ∀ pid sl, Asleep s pid semid.toNat sl →
      sl.op.semNum.val < set.semNsems → (∀ i < sl.op.semNum.val + 1, Fits t (array i)) →
      Blocks sl.op fun n => (array n).getD 0) : Watched (s.ctl c semid semnum cmd) := by
  have hctl := usemctl_controlled s.sets c semid semnum cmd
  have hsl : (s.ctl c semid semnum cmd).sleepers =
      wakeAll semid.toNat (s.sets.usemctl c semid semnum cmd).woken s.sleepers := rfl
  have hsets : (s.ctl c semid semnum cmd).sets = (s.sets.usemctl c semid semnum cmd).sets := rfl
  revert hctl hsl hsets
  generalize s.sets.usemctl c semid semnum cmd = r
  intro hctl hsl hsets
  cases hctl with
  | kept _ _ hsems _ hwoken _ =>
    rw [← hsets] at hsems
    refine hw.of_sems hsl (fun id nsems base hid => ?_)
      fun pid sl _ _ _ nsems base hs hlt hb => ⟨nsems, base, by rw [hsems]; exact hs, hlt, hb⟩
    rw [hsems] at hid
    exact hw.counted id nsems base hid
  | setval _ val v nsems base hs _ _ _ hsems _ hwoken _ =>
    rw [← hsets] at hsems
    refine hw.setTo hsl hs hsems fun pid sl hasleep hnot hlt hge hlt' => ?_
    have hnum : sl.op.semNum.val = semnum.toNat := by omega
    have hpos := hw.pos hasleep.1 (by rw [hasleep.2.2]; exact hs) hlt
    rw [hw.event pid sl hasleep.1, hwoken, ← hnum] at hnot
    unfold Blocks
    by_cases hneg : sl.op.semOp.val < 0
    · rw [eventOf, if_pos hneg] at hpos hnot
      rw [countAt] at hpos
      rw [if_pos hneg]
      by_cases hv : v.val = 0
      · rw [hv]
        push_cast
        omega
      · rw [if_pos hv, if_pos hpos] at hnot
        exact absurd List.mem_cons_self hnot
    · rw [eventOf, if_neg hneg] at hpos hnot
      rw [countAt] at hpos
      rw [if_neg hneg]
      intro hv
      rw [if_neg (not_not.mpr hv), if_pos hpos] at hnot
      exact hnot List.mem_cons_self
  | setall _ array j nsems base hs hj hperm hfits hsems _ hwoken _ =>
    rw [← hsets] at hsems
    obtain ⟨semids, hsem, halloc, hn, -⟩ := sems_eq_some hs
    refine hw.setTo hsl hs hsems fun pid sl hasleep _ hlt _ hlt' => ?_
    have hlive := live_alloc hsem halloc
    exact hsetall array rfl _ hlive (hperm _ hlive) pid sl hasleep (by rw [hn]; exact hlt)
      fun i hi => hfits i (by omega)
  | removed _ nsems base hs hsems _ hwoken =>
    rw [← hsets] at hsems
    refine hw.of_sems hsl (fun id nsems' base' hid => ?_)
      fun pid sl hsl₀ _ hnot nsems' base' hs' hlt hb => ?_
    · rw [hsems] at hid
      split_ifs at hid
      exact hw.counted id _ _ hid
    · have hpos := hw.pos hsl₀ hs' hlt
      have hne : sl.semId ≠ semid.toNat := by
        intro hsid
        rw [hsid, hs] at hs'
        cases hs'
        refine hnot ⟨hsid, ?_⟩
        rw [hwoken, List.mem_flatMap]
        refine ⟨sl.op.semNum.val, List.mem_range.mpr hlt, ?_⟩
        rw [hw.event pid sl hsl₀]
        rw [Sem.sleepers, List.mem_append]
        by_cases hneg : sl.op.semOp.val < 0
        · rw [eventOf, if_pos hneg] at hpos ⊢
          rw [countAt] at hpos
          exact Or.inl (by rw [if_pos hpos]; exact List.mem_cons_self)
        · rw [eventOf, if_neg hneg] at hpos ⊢
          rw [countAt] at hpos
          exact Or.inr (by rw [if_pos hpos]; exact List.mem_cons_self)
      exact ⟨nsems', base', by rw [hsems, if_neg hne]; exact hs', hlt, hb⟩

theorem Watched.get (hw : Watched s) (c : GetCtx) (skey nsems : ℤ) (semflg : ℕ)
    (hfree : Unclaimed s (.get c skey nsems semflg)) : Watched (s.get c skey nsems semflg) := by
  have hgot := usemget_got s.sets c skey nsems semflg
  have hsl : (s.get c skey nsems semflg).sleepers = wakeAll 0 [] s.sleepers :=
    (wakeAll_nil 0 s.sleepers).symm
  have hsets : (s.get c skey nsems semflg).sets =
      (s.sets.usemget c skey nsems semflg).sets := rfl
  have hnone : ∀ id, (s.sets.usemget c skey nsems semflg).value = .ok id →
      s.sets.live id = none → ∀ pid sl, s.sleepers pid = some sl → sl.semId ≠ id := hfree
  generalize s.sets.usemget c skey nsems semflg = r at hgot hsets hnone
  cases hgot with
  | kept hsems _ _ =>
    rw [← hsets] at hsems
    refine hw.of_sems hsl (fun id nsems base hid => ?_)
      fun pid sl _ _ _ nsems base hs hlt hb => ⟨nsems, base, by rw [hsems]; exact hs, hlt, hb⟩
    rw [hsems] at hid
    exact hw.counted id nsems base hid
  | created id nsems base hval hlive hzero hsems _ =>
    rw [← hsets] at hsems
    have hnone := hnone id hval hlive
    refine hw.of_sems hsl (fun id' nsems' base' hid e he => ?_)
      fun pid sl hsl₀ _ _ nsems' base' hs hlt hb => ?_
    · rw [hsems] at hid
      split_ifs at hid with hsid
      · cases hid
        have hwaiting : waiting s.sleepers id' e = 0 := by
          refine Finset.card_eq_zero.mpr (Finset.filter_eq_empty_iff.mpr fun q _ hq => ?_)
          obtain ⟨sl, hq, hid, -⟩ := waits_some.mp hq
          exact hnone q sl hq (hid.trans hsid)
        rw [hwaiting]
        cases e with
        | semncnt n => rw [countAt, hzero n he]; rfl
        | semzcnt n => rw [countAt, hzero n he]; rfl
      · exact hw.counted id' _ _ hid e he
    · exact ⟨nsems', base', by rw [hsems, if_neg (hnone pid sl hsl₀)]; exact hs, hlt, hb⟩

theorem Watched.exit (hw : Watched s) (c : Ctx)
    (hb : ∀ id nsems base, s.sets.sems id = some (nsems, base) → ∀ pid sl, Asleep s pid id sl →
      Blocks sl.op fun n =>
        ushort ((base n).semval.val + applied (s.sets.tables.semu c.self) id n)) :
    Watched (s.exit c) := by
  have hsl : (s.exit c).sleepers = wakeAll 0 [] s.sleepers := (wakeAll_nil 0 s.sleepers).symm
  refine hw.of_sems hsl (fun id nsems' base' hid e he => ?_)
    fun pid sl hsl₀ hwok _ nsems base hs hlt hbl => ?_
  · have hexit := exit_sems s c id
    rw [hid] at hexit
    cases hs : s.sets.sems id with
    | none =>
      rw [hs] at hexit
      exact hexit.elim
    | some r =>
      obtain ⟨nsems, base⟩ := r
      rw [hs] at hexit
      obtain ⟨rfl, hval⟩ := hexit
      have hcount : countAt base' e = countAt base e := by
        cases e with
        | semncnt n => exact (hval n).2.1
        | semzcnt n => exact (hval n).2.2
      rw [hcount]
      exact hw.counted id _ _ hs e he
  · have hexit := exit_sems s c sl.semId
    rw [hs] at hexit
    cases hs' : (s.exit c).sets.sems sl.semId with
    | none =>
      rw [hs'] at hexit
      exact hexit.elim
    | some r =>
      obtain ⟨nsems', base'⟩ := r
      rw [hs'] at hexit
      obtain ⟨rfl, hval⟩ := hexit
      exact ⟨_, _, rfl, hlt, blocks_congr (hval _).1 (hb _ _ _ hs pid sl ⟨hsl₀, hwok, rfl⟩)⟩

/-! ### Runs -/

theorem Watched.init (h : Init s) : Watched s := by
  have hsl : ∀ pid sl, s.sleepers pid ≠ some sl := by
    intro pid sl hsl
    rw [h.sleepers] at hsl
    cases hsl
  refine ⟨fun pid sl hs => (hsl pid sl hs).elim, fun pid sl hs => (hsl pid sl hs).elim,
    fun pid sl hs => (hsl pid sl hs).elim, fun id nsems base hs => ?_⟩
  obtain ⟨semids, hsem, -⟩ := sems_eq_some hs
  rw [h.semids] at hsem
  cases hsem

theorem Watched.step (hw : Watched s) (hheard : Heard s a) (h : s.step a = some s') :
    Watched s' := by
  cases step_cases h with
  | get c skey nsems semflg _ => exact hw.get c skey nsems semflg hheard.unclaimed
  | ctl c semid semnum cmd _ =>
    refine hw.ctl semid semnum cmd fun array hcmd => ?_
    subst hcmd
    exact hheard.setall c semid semnum array rfl
  | refused c semId acc sops _ => exact hw
  | pass c semId acc sops semids hpid hnone hsem halloc hbegins =>
    refine hw.pass hpid hnone hsem halloc (fun done op h hstop hun pid sl hasleep => ?_)
      fun done op hstop hno => ?_
    · exact hheard.rollback _ _ done op h ⟨_, _, hbegins, hstop, hun⟩ pid sl hasleep
    · exact hheard.sleep _ _ done op ⟨_, _, hbegins, hstop, rfl⟩ hno
  | removed c signalled sl semids hsl hsem halloc =>
    have hsets : (s.awake c.self semids).sets = s.sets := by
      rw [State.awake, ← hsem]
    refine hw.leaveRemoved hsl ?_ hsets rfl
    rw [Sets.sems, live_of_semids hsem, if_neg (by simp [halloc])]
    rfl
  | interrupted c sl semids hsl hsem halloc => exact hw.awake hsl hsem halloc
  | retry c sl semids hpid hsl hsem halloc hbegins =>
    have hal : (leave semids sl sl.semId).alloc = true := by
      rw [leave, Function.update_self, SemidDs.alloc, (count_frame _ _ _).2]
      exact halloc
    have hself : (s.awake c.self (leave semids sl)).sleepers c.self = none :=
      Function.update_self _ _ _
    refine (hw.awake hsl hsem halloc).pass hpid hself rfl hal
      (fun done op h hstop hun pid sl' hasleep => ?_) fun done op hstop hno => ?_
    · refine hheard.rollback _ _ done op h ⟨_, _, hbegins, hstop, hun⟩ pid sl' ⟨?_, hasleep.2⟩
      have hq : Function.update s.sleepers c.self none pid = some sl' := hasleep.1
      rw [Function.update_apply] at hq
      split_ifs at hq
      exact hq
    · exact hheard.sleep _ _ done op ⟨_, _, hbegins, hstop, rfl⟩ hno
  | exit c _ => exact hw.exit c (hheard.exit c rfl)

/-- **No sleeper is forgotten.** In a run whose silent changes let nobody go on, a process that is
    asleep and has not been woken sleeps on a set that exists, and its operation cannot go
    through. -/
theorem reachable_blocked (h : Reach Init State.step Heard s) : ∀ pid sl,
    s.sleepers pid = some sl → sl.woken = false → ∃ nsems base,
      s.sets.sems sl.semId = some (nsems, base) ∧ sl.op.semNum.val < nsems ∧
        Blocks sl.op fun n => (base n).semval := by
  have hstep : ∀ (s : State t) a s', Watched s → Heard s a → s.step a = some s' → Watched s' :=
    fun s a s' hw hheard hs => hw.step hheard hs
  exact (h.invariant (fun s h => Watched.init h) hstep).blocked

/-- Take one from the first semaphore. -/
def takeOne : SemBuf := ⟨ushort 0, short (-1), 0⟩

/-- Process 2 waits for a set that has just been made. -/
def waitForOne : List Call := [makeSet 1, .op (user 2 0) 0 true [takeOne]]

/-- Process 2 sleeps, and its operation cannot go through. -/
theorem reachable_blocked_first : ∃ s sl, runFrom State.step noSets waitForOne = some s ∧
    s.sleepers 2 = some sl ∧ ∃ nsems base, s.sets.sems sl.semId = some (nsems, base) ∧
      sl.op.semNum.val < nsems ∧ Blocks sl.op fun n => (base n).semval := by
  -- the step that makes the set
  obtain ⟨s₁, hs₁⟩ : ∃ s₁, noSets.step (makeSet 1) = some s₁ := ⟨_, rfl⟩
  have hnone : ∀ pid, s₁.sleepers pid = none := by
    cases hs₁
    exact fun _ => rfl
  have hheard₁ : Heard noSets (makeSet 1) := by
    refine ⟨fun _ _ _ _ _ hsl => (by cases hsl), ?_, ?_, ?_, fun _ _ _ _ ha => (by cases ha),
      fun _ ha => (by cases ha)⟩
    · rintro semId p done op h ⟨c, sops, hb, -⟩
      cases hb
    · rintro semId p done op h ⟨c, sops, hb, -⟩
      cases hb
    · rintro semId p done op ⟨c, sops, hb, -⟩
      cases hb
  -- the step in which process 2 goes to sleep
  have heval : ((noSets.step (makeSet 1)).bind fun s =>
      (s.begins (.op (user 2 0) 0 true [takeOne])).bind fun r =>
        (stop r.1 r.2.1 r.2.2.2 [] r.2.2.1).map fun q =>
          (q.1, q.2.1, (r.2.2.2.val 0).val)) = some ([], takeOne, 0) := by
    decide +kernel
  have hstop : ∀ semId p done op h, RollsBack s₁ (.op (user 2 0) 0 true [takeOne]) semId p done op h
      →
      done = [] ∧ op = takeOne ∧ (p.val 0).val = 0 := by
    rintro semId p done op h ⟨c, sops, hb, hst, -⟩
    rw [hs₁, Option.bind_some, hb, Option.bind_some, hst] at heval
    simpa using heval
  have hheard₂ : Heard s₁ (.op (user 2 0) 0 true [takeOne]) := by
    refine ⟨trivial, ?_, ?_, ?_, fun _ _ _ _ ha => (by cases ha), fun _ ha => (by cases ha)⟩
    · intro semId p done op h hr n _
      rw [(hstop semId p done op h hr).1]
      rfl
    · rintro semId p done op h - pid sl ⟨hsl, -⟩
      rw [hnone] at hsl
      cases hsl
    · intro semId p done op hr _
      obtain ⟨rfl, rfl, hval⟩ := hstop semId p done op .block hr
      have hleft : leftVal p [] takeOne .block 0 = 0 := by
        rw [leftVal, hval]
        rfl
      show Blocks takeOne (leftVals p [] takeOne .block)
      unfold Blocks leftVals
      rw [show takeOne.semNum.val = 0 from rfl, hleft]
      decide
  have hrun : ((s₁.step (.op (user 2 0) 0 true [takeOne])).bind fun s =>
      (s.sleepers 2).map fun sl => sl.woken) = some false := by
    cases hs₁
    decide +kernel
  obtain ⟨s₂, hs₂, hsl⟩ := Option.bind_eq_some_iff.mp hrun
  obtain ⟨sl, hsl, hwok⟩ := Option.map_eq_some_iff.mp hsl
  have hreach := ((Reach.init noSets_init).step hheard₁ hs₁).step hheard₂ hs₂
  refine ⟨s₂, sl, ?_, hsl, reachable_blocked hreach 2 sl hsl hwok⟩
  rw [waitForOne, runFrom, hs₁, Option.bind_some, runFrom, hs₂]
  rfl

/-- **Left asleep.** `SETALL` stores 5, and the process that waits for 1 sleeps on. -/
theorem setall_not_heard : ¬ ∀ s : State defaultTune, Reach Init State.step (fun _ _ => True) s →
    ∀ pid sl, s.sleepers pid = some sl → sl.woken = false → ∃ nsems base,
      s.sets.sems sl.semId = some (nsems, base) ∧ sl.op.semNum.val < nsems ∧
        Blocks sl.op fun n => (base n).semval := by
  intro hall
  have heval : ((runFrom State.step noSets (waitForOne ++
      [.ctl (user 1 0) 0 0 (.SETALL fun _ => some (ushort 5))])).bind fun s =>
        (s.sleepers 2).bind fun sl => (s.sets.sems sl.semId).map fun r =>
          (sl.woken, sl.op, (r.2 0).semval)) = some (false, takeOne, ushort 5) := by
    decide +kernel
  obtain ⟨s, hs, hval⟩ := Option.bind_eq_some_iff.mp heval
  obtain ⟨sl, hsl, hval⟩ := Option.bind_eq_some_iff.mp hval
  obtain ⟨⟨nsems, base⟩, hsems, hr⟩ := Option.map_eq_some_iff.mp hval
  simp only [Prod.mk.injEq] at hr
  have hreach := (Reach.init noSets_init).run (fun _ _ => trivial) hs
  obtain ⟨nsems', base', hsems', -, hb⟩ := hall s hreach 2 sl hsl hr.1
  rw [hsems] at hsems'
  cases hsems'
  rw [hr.2.1] at hb
  have hfive : Blocks takeOne fun _ => ushort 5 := blocks_congr hr.2.2.symm hb
  unfold Blocks at hfive
  exact absurd hfive (by decide)

end CohKernel.Sem386
