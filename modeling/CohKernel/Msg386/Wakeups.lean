import CohKernel.Msg386.Queues

namespace CohKernel.Msg386

open CohKernel.Lib CohKernel.Ipc

/-!
# Sleepers on a queue

`umsgsnd` and `umsgrcv` wake the sleepers of a queue when they add or take a message; `umsgctl`
and the creation of a queue wake nobody, and one exit of `umsgsnd` forgets to unlock the gate.

* `Sleeper.Waits` — the queue is still there, and what the sleeper waits for does not hold;
* `Disturbs`, `LeaksGate` — the steps after which this may fail;
* `reachable_served` — without such steps it holds of every sleeper in every state, and every gate
  is unlocked;
* `removed_asleep` — a receiver that the removal of its queue leaves asleep.
-/

variable {t : Tune}

/-! ### Processes -/

/-- What a sleeper waits for, with the arguments of its call. -/
inductive Wait where
  | snd (m : UserMsg) (msgsz msgflg : ℕ)
  | rcv (msgsz msgtyp : ℤ) (msgflg : ℕ)

/-- A process in `x_sleep`, or one that is about to return from it. -/
inductive SleepState where
  | asleep
  | woken
  | signalled
deriving DecidableEq

/-- A process that sleeps in `umsgsnd` or `umsgrcv`, on the address of queue `slot`. -/
structure Sleeper where
  slot : ℕ
  qid : ℤ
  wait : Wait
  state : SleepState

/-- The tables, and the sleepers by their process id. -/
structure System (t : Tune) where
  tables : Tables t
  sleepers : ℕ → Option Sleeper

/-- A call, a signal for a sleeper, and a woken sleeper that goes on. -/
inductive Action where
  | get (c : Ctx) (mykey : ℤ) (msgflg : ℕ)
  | ctl (c : Ctx) (qid : ℤ) (cmd : Cmd)
  | snd (c : Ctx) (qid : ℤ) (m : UserMsg) (msgsz : ℤ) (msgflg : ℕ)
  | rcv (c : Ctx) (qid msgsz msgtyp : ℤ) (msgflg : ℕ)
  | signal (pid : ℕ)
  | resume (c : Ctx)

/-- `wakeup` of a queue, at a sleeper. -/
def Sleeper.hear (sl : Sleeper) (woken : Option ℕ) : Sleeper :=
  if woken = some sl.slot ∧ sl.state = .asleep then { sl with state := .woken } else sl

/-- How a sleeper goes on. -/
def Sleeper.event (sl : Sleeper) (c : Ctx) : Event :=
  let signalled := decide (sl.state = .signalled)
  match sl.wait with
  | .snd m msgsz msgflg => .sndWake c sl.slot sl.qid m msgsz msgflg signalled
  | .rcv msgsz msgtyp msgflg => .rcvWake c sl.slot sl.qid msgsz msgtyp msgflg signalled

/-- The end of a step of process `pid`; it is `sl` if it sleeps. -/
def System.settle (s : System t) (pid : ℕ) (sl : Option Sleeper) (r : Result t) : System t where
  tables := r.tables
  sleepers := Function.update (fun p => (s.sleepers p).map (·.hear r.woken)) pid
    (if r.outcome = .sleep then sl else none)

/-- What an action does to the tables: the process, its call or the rest of it, and the sleeper
    that the process is if it sleeps. -/
def System.act (s : System t) : Action → Option (ℕ × Event × Option Sleeper)
  | .get c mykey msgflg =>
      if (s.sleepers c.self).isNone then some (c.self, .get c mykey msgflg, none) else none
  | .ctl c qid cmd =>
      if (s.sleepers c.self).isNone then some (c.self, .ctl c qid cmd, none) else none
  | .snd c qid m msgsz msgflg =>
      if (s.sleepers c.self).isNone then
        some (c.self, .snd c qid m msgsz msgflg, (s.tables.sndSlot qid).map fun i =>
          ⟨i, qid, .snd m msgsz.toNat msgflg, .asleep⟩)
      else none
  | .rcv c qid msgsz msgtyp msgflg =>
      if (s.sleepers c.self).isNone then
        some (c.self, .rcv c qid msgsz msgtyp msgflg, (s.tables.rcvSlot qid).map fun i =>
          ⟨i, qid, .rcv msgsz msgtyp msgflg, .asleep⟩)
      else none
  | .signal _ => none
  | .resume c =>
      match s.sleepers c.self with
      | none => none
      | some sl =>
          if sl.state = .asleep then none
          else some (c.self, sl.event c, some { sl with state := .asleep })

/-- A signal that ends the sleep. -/
def System.signal (s : System t) (pid : ℕ) : Option (System t) :=
  match s.sleepers pid with
  | none => none
  | some sl =>
      if sl.state = .asleep then
        some { s with sleepers :=
          Function.update s.sleepers pid (some { sl with state := .signalled }) }
      else none

/-- One step. -/
def System.step (s : System t) : Action → Option (System t)
  | .signal pid => s.signal pid
  | a => (s.act a).bind fun (pid, e, sl) => (s.tables.call e).map (s.settle pid sl)

/-! ### What a sleeper waits for -/

/-- The messages that `umsgrcv` takes. -/
def accepts (msgtyp : ℤ) (mp : Msg) : Prop :=
  if msgtyp < 0 then mp.msgType ≤ negLong msgtyp
  else if msgtyp > 0 then mp.msgType = msgtyp
  else True

/-- The queue is there, and the process cannot go on: there is no room for its message, or no
    message that it would take. -/
def Sleeper.Waits (sl : Sleeper) (qp : MsqidDs) : Prop :=
  (qp.msgPerm.seq : ℤ) = sl.qid ∧
    match sl.wait with
    | .snd _ msgsz _ => qp.full msgsz
    | .rcv _ msgtyp _ => ∀ mp ∈ qp.msgs, ¬ accepts msgtyp mp

/-- The bit that the sleeper has set is still set. -/
def Sleeper.Marked (sl : Sleeper) (qp : MsqidDs) : Prop :=
  match sl.wait with
  | .snd _ _ _ => qp.msgPerm.mode &&& MSG_WWAIT ≠ 0
  | .rcv _ _ _ => qp.msgPerm.mode &&& MSG_RWAIT ≠ 0

/-- The queue in which `umsgget` creates one. -/
def Tables.creates (s : Tables t) (mykey : ℤ) (msgflg : ℕ) : Option ℕ :=
  if (s.keyed mykey).isSome ∨ msgflg &&& IPC_CREAT = 0 then none else s.oldestFree

/-- The call lets the sleeper go on, or clears its bit, and does not wake it: a queue is created
    where it sleeps, its queue is removed, or the limit is raised so far that its message fits. -/
def Disturbs (s : Tables t) (sl : Sleeper) : Event → Prop
  | .get _ mykey msgflg => s.creates mykey msgflg = some sl.slot
  | .ctl c qid .IPC_RMID => s.ctlSlot c qid .IPC_RMID = some sl.slot ∧
      ipcCredMatch c.cred (s.msqs sl.slot).msgPerm = CRED_OWNER
  | .ctl c qid (.IPC_SET (some temp)) =>
      s.ctlSlot c qid (.IPC_SET (some temp)) = some sl.slot ∧
      ipcCredMatch c.cred (s.msqs sl.slot).msgPerm = CRED_OWNER ∧
      ¬(temp.qbytes > (s.msqs sl.slot).msgQbytes ∧ super c.cred = false) ∧
      ∃ m msgsz msgflg, sl.wait = .snd m msgsz msgflg ∧ (s.msqs sl.slot).full msgsz ∧
        ¬ ({ s.msqs sl.slot with msgQbytes := temp.qbytes } : MsqidDs).full msgsz
  | _ => False

/-- A send that has room in the queue finds no free slot in the message map. -/
def LeaksGate (s : Tables t) : Event → Prop
  | .snd c qid m msgsz _ => ∃ i, s.sndSlot qid = some i ∧
      ipcLackPerm c.cred (s.msqs i).msgPerm IWUGO = false ∧
      ¬(m.mtype < 1 ∨ msgsz < 0 ∨ msgsz > NMSC ∨ msgsz > s.NMSQB) ∧
      ¬ (s.msqs i).full msgsz.toNat ∧ s.freeSpot = none
  | .sndWake _ i qid _ msgsz _ signalled => signalled = false ∧ (s.msqs i).msgPerm.seq = qid ∧
      ¬ (s.msqs i).full msgsz ∧ s.freeSpot = none
  | _ => False

/-- The action disturbs no sleeper and leaves no gate locked. -/
def Mindful (s : System t) (a : Action) : Prop :=
  ∀ pid e sl, s.act a = some (pid, e, sl) →
    (∀ p sl, s.sleepers p = some sl → sl.state = .asleep → ¬ Disturbs s.tables sl e) ∧
      ¬ LeaksGate s.tables e

/-! ### The message that `umsgrcv` takes -/

theorem lowest_eq_none {msgtyp : ℤ} (msgs : List Msg) (k : ℕ) (qmin : Option (ℕ × Msg)) :
    lowest msgtyp k qmin msgs = none ↔ qmin = none ∧ ∀ mp ∈ msgs, msgtyp < mp.msgType := by
  induction msgs generalizing k qmin with
  | nil => simp [lowest]
  | cons m rest ih =>
    rw [lowest.eq_def, List.forall_mem_cons]
    simp only
    split_ifs with htype
    · rw [ih]
      exact ⟨fun h => ⟨h.1, htype, h.2⟩, fun h => ⟨h.1, h.2.2⟩⟩
    · have hsome : ∀ r, ¬ lowest msgtyp (k + 1) (some r) rest = none :=
        fun r h => Option.some_ne_none r ((ih _ _).mp h).1
      refine ⟨fun h => ?_, fun h => absurd h.2.1 htype⟩
      cases qmin with
      | none => exact absurd h (hsome _)
      | some r =>
        simp only at h
        split_ifs at h
        · exact absurd h (hsome _)
        · exact absurd h (hsome _)

/-- `umsgrcv` finds nothing if and only if there is no message that it accepts. -/
theorem select_eq_none {msgtyp : ℤ} {msgs : List Msg} :
    select msgtyp msgs = none ↔ ∀ mp ∈ msgs, ¬ accepts msgtyp mp := by
  unfold select accepts
  split_ifs
  · rw [lowest_eq_none]
    simp only [true_and, not_le]
  · cases hidx : msgs.findIdx? fun mp => mp.msgType = msgtyp with
    | none =>
      rw [List.findIdx?_eq_none_iff] at hidx
      simpa using hidx
    | some k =>
      obtain ⟨hlt, hk, -⟩ := List.findIdx?_eq_some_iff_getElem.mp hidx
      have hget : msgs[k]? = some msgs[k] := List.getElem?_eq_getElem hlt
      rw [Option.bind_some, hget]
      exact ⟨fun h => (by cases h),
        fun h => absurd (of_decide_eq_true hk) (h _ (List.getElem_mem hlt))⟩
  · simp [List.eq_nil_iff_forall_not_mem]

/-! ### Quiet changes of a queue -/

variable {s s' : Tables t} {c : Ctx} {i : ℕ} {sl : Sleeper} {qp qp' : MsqidDs} {r : Result t}

/-- The sleeper cannot go on, and whoever lets it go on will wake it. -/
def Sleeper.Ok (sl : Sleeper) (qp : MsqidDs) : Prop := sl.Waits qp ∧ sl.Marked qp

/-- A change of a queue that lets no sleeper go on whose bit is set. -/
structure Quiet (qp qp' : MsqidDs) : Prop where
  seq : qp'.msgPerm.seq = qp.msgPerm.seq
  snd : qp.msgPerm.mode &&& MSG_WWAIT ≠ 0 →
    qp'.msgPerm.mode &&& MSG_WWAIT ≠ 0 ∧ ∀ n, qp.full n → qp'.full n
  rcv : qp.msgPerm.mode &&& MSG_RWAIT ≠ 0 →
    qp'.msgPerm.mode &&& MSG_RWAIT ≠ 0 ∧ ∀ mp ∈ qp'.msgs, mp ∈ qp.msgs

theorem Sleeper.Ok.quiet (h : sl.Ok qp) (hq : Quiet qp qp') : sl.Ok qp' := by
  obtain ⟨slot, qid, wait, state⟩ := sl
  obtain ⟨⟨hseq, hwait⟩, hmark⟩ := h
  refine ⟨⟨by rw [hq.seq]; exact hseq, ?_⟩, ?_⟩
  · cases wait with
    | snd m msgsz msgflg => exact (hq.snd hmark).2 _ hwait
    | rcv msgsz msgtyp msgflg => exact fun mp hmp => hwait mp ((hq.rcv hmark).2 mp hmp)
  · cases wait with
    | snd m msgsz msgflg => exact (hq.snd hmark).1
    | rcv msgsz msgtyp msgflg => exact (hq.rcv hmark).1

/-- A set bit of a mode stays set. -/
theorem and_or_ne_zero {mode bit : ℕ} (bit' : ℕ) (h : mode &&& bit ≠ 0) :
    (mode ||| bit') &&& bit ≠ 0 := by
  rw [Nat.and_or_distrib_right]
  exact fun h0 => h (Nat.or_eq_zero_iff.mp h0).1

theorem or_and_self_ne_zero (mode : ℕ) {bit : ℕ} (h : bit ≠ 0) : (mode ||| bit) &&& bit ≠ 0 := by
  rw [Nat.and_or_distrib_right, Nat.and_self]
  exact fun h0 => h (Nat.or_eq_zero_iff.mp h0).2

theorem Quiet.setBit (qp : MsqidDs) (bit : ℕ) :
    Quiet qp (qp.setMode (qp.msgPerm.mode ||| bit)) :=
  ⟨rfl, fun h => ⟨and_or_ne_zero _ h, fun _ hf => hf⟩,
    fun h => ⟨and_or_ne_zero _ h, fun _ hmp => hmp⟩⟩

/-- One more message, when no receiver waits. -/
theorem Quiet.append (c : Ctx) {mp : Msg} {msgsz : ℕ} (hroom : ¬ qp.full msgsz)
    (hts : mp.msgTs = ushort msgsz) (hbit : qp.msgPerm.mode &&& MSG_RWAIT = 0) :
    Quiet qp (qp.append c mp) := by
  refine ⟨rfl, fun h => ⟨h, fun n hn => ?_⟩, fun h => absurd hbit h⟩
  obtain ⟨hnum, hbytes⟩ := not_or.mp hroom
  have hmax := qp.msgQbytes.isLt
  have hval : mp.msgTs.val = msgsz := by
    have := ushort_val msgsz
    rw [hts]
    omega
  rcases hn with hn | hn
  · exact absurd hn hnum
  · have := ushort_val (qp.msgCbytes.val + mp.msgTs.val)
    right
    show qp.msgQbytes.val < (ushort _).val + n
    omega

/-- One message less, when no sender waits. -/
theorem Quiet.remove (c : Ctx) (k : ℕ) (mp : Msg) (hbit : qp.msgPerm.mode &&& MSG_WWAIT = 0) :
    Quiet qp (qp.remove c k mp) :=
  ⟨rfl, fun h => absurd hbit h, fun h => ⟨h, fun _ hmp => List.mem_of_mem_eraseIdx hmp⟩⟩

/-! ### The calls -/

/-- A sleeper that the call does not wake is left as it should be. -/
def LeavesOk (s : Tables t) (r : Result t) (sl : Sleeper) : Prop :=
  r.woken ≠ some sl.slot → sl.Ok (s.msqs sl.slot) → sl.Ok (r.tables.msqs sl.slot)

theorem LeavesOk.of_msqs (h : r.tables.msqs = s.msqs) : LeavesOk s r sl := by
  intro _ hok
  rw [h]
  exact hok

theorem LeavesOk.of_put (h : r.tables.msqs = Function.update s.msqs i qp)
    (hq : r.woken ≠ some i → Quiet (s.msqs i) qp) : LeavesOk s r sl := by
  intro hw hok
  rw [h, Function.update_apply]
  split_ifs with hi
  · subst hi
    exact hok.quiet (hq hw)
  · exact hok

/-- What a call or a wake-up does for the sleepers, and with the gates: `qid` and `wait` are those
    of the process itself. -/
structure Serves (s : Tables t) (r : Result t) (i : ℕ) (wait : Wait) : Prop where
  keeps : ∀ sl, LeavesOk s r sl
  gate : (∀ j, s.gate j = false) → ∀ j, r.tables.gate j = false
  sleep : r.outcome = .sleep → ∀ sl : Sleeper, sl.slot = i → sl.wait = wait →
    ((s.msqs i).msgPerm.seq : ℤ) = sl.qid → sl.Ok (r.tables.msqs i)

/-- A call that ends without a change. -/
theorem Serves.done {wait : Wait} {ret : ℤ} {err : Option Errno}
    (hmsqs : r.tables.msqs = s.msqs)
    (hgate : (∀ j, s.gate j = false) → ∀ j, r.tables.gate j = false)
    (hout : r.outcome = .done ret err) : Serves s r i wait := by
  refine ⟨fun sl => LeavesOk.of_msqs hmsqs, hgate, fun h => ?_⟩
  rw [hout] at h
  cases h

theorem Serves.fail (s : Tables t) (e : Errno) (i : ℕ) (wait : Wait) : Serves s (s.fail e) i wait :=
  Serves.done rfl (fun h => h) rfl

/-- A gate that has been locked and unlocked. -/
theorem gate_relock (h : ∀ j, s.gate j = false) (j : ℕ) :
    ((s.lock i true).lock i false).gate j = false := by
  simp only [Tables.lock, Function.update_idem, Function.update_apply]
  split_ifs
  · rfl
  · exact h j

theorem Serves.enqueue {m : UserMsg} {msgsz : ℕ} {wait : Wait} (hroom : ¬ (s.msqs i).full msgsz)
    (hspot : s.freeSpot ≠ none) (h : (s.lock i true).enqueue c i m msgsz = some r) :
    Serves s r i wait := by
  have hfail : ∀ e, Serves s (((s.lock i true).lock i false).fail e) i wait :=
    fun e => Serves.done rfl gate_relock rfl
  unfold Tables.enqueue at h
  cases hfree : (s.lock i true).freeSpot with
  | none => exact absurd hfree hspot
  | some spot =>
    rw [hfree] at h
    cases hk : c.kMsg with
    | none =>
      simp only [hk] at h
      cases h
      exact hfail _
    | some addr =>
      simp only [hk] at h
      split_ifs at h with hz htext hfault hwoken
      · cases h
        exact hfail _
      · cases h
        exact hfail _
      · cases h
        exact ⟨fun sl => LeavesOk.of_put rfl fun hw => absurd rfl hw, gate_relock,
          fun h => by cases h⟩
      · cases h
        refine ⟨fun sl => LeavesOk.of_put rfl fun _ => ?_, gate_relock, fun h => by cases h⟩
        exact Quiet.append c hroom rfl (not_not.mp hwoken)

theorem Serves.sndLoop {m : UserMsg} {msgsz msgflg : ℕ}
    (hspot : ¬ (s.msqs i).full msgsz → s.freeSpot ≠ none)
    (h : s.sndLoop c i m msgsz msgflg = some r) : Serves s r i (.snd m msgsz msgflg) := by
  unfold Tables.sndLoop at h
  split_ifs at h with hgate hfull hnowait
  · cases h
    exact Serves.fail s _ _ _
  · cases h
    refine ⟨fun sl => LeavesOk.of_put rfl fun _ => Quiet.setBit _ _, fun h => h, ?_⟩
    rintro - ⟨_, qid, _, state⟩ rfl rfl hseq
    show Sleeper.Ok _ (Function.update s.msqs _ _ _)
    rw [Function.update_self]
    exact ⟨⟨hseq, hfull⟩, or_and_self_ne_zero _ (by decide)⟩
  · exact Serves.enqueue hfull (hspot hfull) h

theorem Serves.dequeue {k : ℕ} {mp : Msg} {msgsz : ℤ} {msgflg : ℕ} {wait : Wait} :
    Serves s (s.dequeue c i k mp msgsz msgflg) i wait := by
  unfold Tables.dequeue
  simp only
  split_ifs with hbig hfault hsize hbit hbit
  · exact Serves.fail s _ _ _
  · exact Serves.fail s _ _ _
  all_goals
    refine ⟨fun sl => LeavesOk.of_put rfl fun hw => ?_, fun h => h, fun h => by cases h⟩
  · exact absurd rfl hw
  · exact Quiet.remove c k mp (not_not.mp hbit)
  · exact absurd rfl hw
  · exact Quiet.remove c k mp (not_not.mp (by assumption))

theorem Serves.rcvLoop {msgsz msgtyp : ℤ} {msgflg : ℕ}
    (h : s.rcvLoop c i msgsz msgtyp msgflg = some r) :
    Serves s r i (.rcv msgsz msgtyp msgflg) := by
  unfold Tables.rcvLoop at h
  by_cases hgate : s.gate i = true
  · rw [if_pos hgate] at h
    cases h
  rw [if_neg hgate] at h
  cases hsel : select msgtyp (s.msqs i).msgs with
  | some r' =>
    rw [hsel] at h
    cases h
    exact Serves.dequeue
  | none =>
    rw [hsel] at h
    simp only at h
    split_ifs at h
    · cases h
      exact Serves.fail s _ _ _
    · cases h
      refine ⟨fun sl => LeavesOk.of_put rfl fun _ => Quiet.setBit _ _, fun h => h, ?_⟩
      rintro - ⟨_, qid, _, state⟩ rfl rfl hseq
      show Sleeper.Ok _ (Function.update s.msqs _ _ _)
      rw [Function.update_self]
      exact ⟨⟨hseq, select_eq_none.mp hsel⟩, or_and_self_ne_zero _ (by decide)⟩

/-- `umsgctl` and `umsgget` keep the sleepers that they do not disturb. -/
theorem keeps_umsgget {mykey : ℤ} {msgflg : ℕ} (h : ¬ Disturbs s sl (.get c mykey msgflg)) :
    LeavesOk s (s.umsgget c mykey msgflg) sl := by
  have hcreates : s.creates mykey msgflg ≠ some sl.slot := h
  unfold Tables.creates at hcreates
  unfold Tables.umsgget
  cases hkey : s.keyed mykey with
  | some i =>
    simp only
    split_ifs <;> exact LeavesOk.of_msqs rfl
  | none =>
    simp only
    split_ifs with hcreat
    · exact LeavesOk.of_msqs rfl
    rw [hkey, if_neg (by simp [hcreat])] at hcreates
    cases hfree : s.oldestFree with
    | none => exact LeavesOk.of_msqs rfl
    | some i =>
      have hne : sl.slot ≠ i := fun heq => hcreates (by rw [hfree, heq])
      intro _ hok
      show Sleeper.Ok _ (Function.update s.msqs _ _ _)
      rw [Function.update_of_ne hne]
      exact hok

/-- A queue whose limit changes, at a sleeper that it does not let go on. -/
theorem Sleeper.Ok.limit (h : sl.Ok qp) {uid gid mode : ℕ} {qbytes : Ushort}
    (hfit : ∀ m msgsz msgflg, sl.wait = .snd m msgsz msgflg → qp.full msgsz →
      ({ qp with msgQbytes := qbytes } : MsqidDs).full msgsz) :
    sl.Ok { qp with
      msgPerm := { qp.msgPerm with
        uid := uid, gid := gid, mode := clearBits qp.msgPerm.mode IRWXUGO ||| mode }
      msgQbytes := qbytes } := by
  obtain ⟨slot, qid, wait, state⟩ := sl
  obtain ⟨⟨hseq, hwait⟩, hmark⟩ := h
  refine ⟨⟨hseq, ?_⟩, ?_⟩
  · cases wait with
    | snd m msgsz msgflg => exact hfit m msgsz msgflg rfl hwait
    | rcv msgsz msgtyp msgflg => exact hwait
  · cases wait with
    | snd m msgsz msgflg =>
      refine and_or_ne_zero _ ?_
      rw [clearBits_and _ (by decide)]
      exact hmark
    | rcv msgsz msgtyp msgflg =>
      refine and_or_ne_zero _ ?_
      rw [clearBits_and _ (by decide)]
      exact hmark

theorem keeps_umsgctl {qid : ℤ} {cmd : Cmd} (h : ¬ Disturbs s sl (.ctl c qid cmd)) :
    LeavesOk s (s.umsgctl c qid cmd) sl := by
  unfold Tables.umsgctl
  cases hslot : s.ctlSlot c qid cmd with
  | none => exact LeavesOk.of_msqs rfl
  | some i =>
    cases cmd with
    | IPC_STAT =>
      simp only
      split_ifs <;> exact LeavesOk.of_msqs rfl
    | other => exact LeavesOk.of_msqs rfl
    | IPC_SET buf =>
      simp only [Tables.ipcSet]
      split_ifs with hcred
      · exact LeavesOk.of_msqs rfl
      cases buf with
      | none => exact LeavesOk.of_msqs rfl
      | some temp =>
        simp only
        split_ifs with hraise
        · exact LeavesOk.of_msqs rfl
        intro _ hok
        show Sleeper.Ok _ (Function.update s.msqs _ _ _)
        by_cases heq : sl.slot = i
        · subst heq
          rw [Function.update_self]
          refine hok.limit fun m msgsz msgflg hwait hfull => ?_
          by_contra hfit
          exact h ⟨hslot, not_not.mp hcred, hraise, m, msgsz, msgflg, hwait, hfull, hfit⟩
        · rw [Function.update_of_ne heq]
          exact hok
    | IPC_RMID =>
      simp only [Tables.ipcRmid]
      split_ifs with hcred
      · exact LeavesOk.of_msqs rfl
      have hne : sl.slot ≠ i := by
        rintro rfl
        exact h ⟨hslot, not_not.mp hcred⟩
      intro _ hok
      show Sleeper.Ok _ (Function.update s.msqs _ _ _)
      rw [Function.update_of_ne hne]
      exact hok

theorem gate_umsgget (mykey : ℤ) (msgflg : ℕ) :
    (s.umsgget c mykey msgflg).tables.gate = s.gate := by
  unfold Tables.umsgget
  cases s.keyed mykey with
  | some i =>
    simp only
    split_ifs <;> rfl
  | none =>
    simp only
    split_ifs
    · rfl
    cases s.oldestFree <;> rfl

theorem gate_umsgctl (qid : ℤ) (cmd : Cmd) : (s.umsgctl c qid cmd).tables.gate = s.gate := by
  unfold Tables.umsgctl
  cases s.ctlSlot c qid cmd with
  | none => rfl
  | some i =>
    cases cmd with
    | IPC_STAT =>
      simp only
      split_ifs <;> rfl
    | other => rfl
    | IPC_SET buf =>
      simp only [Tables.ipcSet]
      split_ifs
      · rfl
      cases buf with
      | none => rfl
      | some temp =>
        simp only
        split_ifs <;> rfl
    | IPC_RMID =>
      simp only [Tables.ipcRmid]
      split_ifs <;> rfl

theorem umsgget_outcome (mykey : ℤ) (msgflg : ℕ) :
    (s.umsgget c mykey msgflg).outcome ≠ .sleep := by
  unfold Tables.umsgget
  cases s.keyed mykey with
  | some i =>
    simp only
    split_ifs <;> exact fun h => by cases h
  | none =>
    simp only
    split_ifs
    · exact fun h => by cases h
    cases s.oldestFree <;> exact fun h => by cases h

theorem umsgctl_outcome (qid : ℤ) (cmd : Cmd) : (s.umsgctl c qid cmd).outcome ≠ .sleep := by
  unfold Tables.umsgctl
  cases s.ctlSlot c qid cmd with
  | none => exact fun h => by cases h
  | some i =>
    cases cmd with
    | IPC_STAT =>
      simp only
      split_ifs <;> exact fun h => by cases h
    | other => exact fun h => by cases h
    | IPC_SET buf =>
      simp only [Tables.ipcSet]
      split_ifs
      · exact fun h => by cases h
      cases buf with
      | none => exact fun h => by cases h
      | some temp =>
        simp only
        split_ifs <;> exact fun h => by cases h
    | IPC_RMID =>
      simp only [Tables.ipcRmid]
      split_ifs <;> exact fun h => by cases h

/-! ### Every run -/

variable {s s' : System t} {a : Action} {pid : ℕ} {e : Event} {new : Option Sleeper}

/-- What a call does for the sleepers and the gates, in a system. -/
structure Attends (s : Tables t) (r : Result t) (e : Event) (new : Option Sleeper) : Prop where
  keeps : ∀ sl, ¬ Disturbs s sl e → LeavesOk s r sl
  gate : (∀ j, s.gate j = false) → ∀ j, r.tables.gate j = false
  sleep : r.outcome = .sleep → ∀ sl, new = some sl → sl.Ok (r.tables.msqs sl.slot)

theorem Serves.attends {s : Tables t} {r : Result t} {wait : Wait} (h : Serves s r i wait)
    (hnew : ∀ sl, new = some sl →
      sl.slot = i ∧ sl.wait = wait ∧ ((s.msqs i).msgPerm.seq : ℤ) = sl.qid) :
    Attends s r e new := by
  refine ⟨fun sl _ => h.keeps sl, h.gate, fun hsleep sl hsl => ?_⟩
  obtain ⟨hslot, hwait, hseq⟩ := hnew sl hsl
  rw [hslot]
  exact h.sleep hsleep sl hslot hwait hseq

theorem attends_fail (s : Tables t) (err : Errno) : Attends s (s.fail err) e new :=
  ⟨fun _ _ => LeavesOk.of_msqs rfl, fun h => h, fun h => by cases h⟩

theorem rcvSlot_seq {s : Tables t} {qid : ℤ} (h : s.rcvSlot qid = some i) :
    ((s.msqs i).msgPerm.seq : ℤ) = qid := by
  unfold Tables.rcvSlot at h
  simp only at h
  split_ifs at h with hneg hseq
  cases h
  exact not_not.mp (not_or.mp hseq).1

theorem sndSlot_seq {s : Tables t} {qid : ℤ} (h : s.sndSlot qid = some i) :
    ((s.msqs i).msgPerm.seq : ℤ) = qid := by
  have hseq := List.find?_some h
  exact of_decide_eq_true hseq

theorem attends_snd {s : Tables t} {r : Result t} {qid msgsz : ℤ} {m : UserMsg} {msgflg : ℕ}
    (hleak : ¬ LeaksGate s (.snd c qid m msgsz msgflg))
    (hr : s.umsgsnd c qid m msgsz msgflg = some r) :
    Attends s r (.snd c qid m msgsz msgflg) ((s.sndSlot qid).map fun i =>
      ⟨i, qid, .snd m msgsz.toNat msgflg, .asleep⟩) := by
  unfold Tables.umsgsnd at hr
  cases hslot : s.sndSlot qid with
  | none =>
    rw [hslot] at hr
    cases hr
    exact attends_fail _ _
  | some i =>
    rw [hslot] at hr
    simp only at hr
    split_ifs at hr with hlack hsize
    · cases hr
      exact attends_fail _ _
    · cases hr
      exact attends_fail _ _
    · refine (Serves.sndLoop (fun hroom hspot => hleak ?_) hr).attends ?_
      · exact ⟨i, hslot, by simpa using hlack, hsize, hroom, hspot⟩
      · rintro sl hsl
        cases hsl
        exact ⟨rfl, rfl, sndSlot_seq hslot⟩

theorem attends_rcv {s : Tables t} {r : Result t} {qid msgsz msgtyp : ℤ} {msgflg : ℕ}
    (hr : s.umsgrcv c qid msgsz msgtyp msgflg = some r) :
    Attends s r (.rcv c qid msgsz msgtyp msgflg) ((s.rcvSlot qid).map fun i =>
      ⟨i, qid, .rcv msgsz msgtyp msgflg, .asleep⟩) := by
  unfold Tables.umsgrcv at hr
  cases hslot : s.rcvSlot qid with
  | none =>
    rw [hslot] at hr
    cases hr
    exact attends_fail _ _
  | some i =>
    rw [hslot] at hr
    simp only at hr
    split_ifs at hr
    · cases hr
      exact attends_fail _ _
    · refine (Serves.rcvLoop hr).attends ?_
      rintro sl hsl
      cases hsl
      exact ⟨rfl, rfl, rcvSlot_seq hslot⟩

/-- A sleeper goes on, and sleeps again if it cannot. -/
theorem attends_resume {s : Tables t} {r : Result t} {sl : Sleeper}
    (hleak : ¬ LeaksGate s (sl.event c)) (hr : s.call (sl.event c) = some r) :
    Attends s r (sl.event c) (some { sl with state := .asleep }) := by
  obtain ⟨slot, qid, wait, state⟩ := sl
  cases wait with
  | snd m msgsz msgflg =>
    unfold Tables.call Sleeper.event Tables.umsgsndWake at hr
    simp only at hr
    split_ifs at hr with hfresh hsig hseq
    · cases hr
      exact attends_fail _ _
    · cases hr
      exact attends_fail _ _
    · refine (Serves.sndLoop (fun hroom hspot => hleak ?_) hr).attends ?_
      · exact ⟨by simpa using hsig, (not_not.mp hseq).symm, hroom, hspot⟩
      · rintro sl hsl
        cases hsl
        exact ⟨rfl, rfl, (not_not.mp hseq).symm⟩
  | rcv msgsz msgtyp msgflg =>
    unfold Tables.call Sleeper.event Tables.umsgrcvWake at hr
    simp only at hr
    split_ifs at hr with hlt hsig hseq
    · cases hr
      exact attends_fail _ _
    · cases hr
      exact attends_fail _ _
    · refine (Serves.rcvLoop hr).attends ?_
      rintro sl hsl
      cases hsl
      exact ⟨rfl, rfl, (not_not.mp hseq).symm⟩

theorem attends_act (hact : s.act a = some (pid, e, new)) (hleak : ¬ LeaksGate s.tables e)
    {r : Result t} (hr : s.tables.call e = some r) : Attends s.tables r e new := by
  cases a with
  | get c mykey msgflg =>
    simp only [System.act] at hact
    split_ifs at hact
    cases hact
    cases hr
    refine ⟨fun sl hd => keeps_umsgget hd, fun h => ?_, fun h => absurd h (umsgget_outcome _ _)⟩
    rw [gate_umsgget]
    exact h
  | ctl c qid cmd =>
    simp only [System.act] at hact
    split_ifs at hact
    cases hact
    cases hr
    refine ⟨fun sl hd => keeps_umsgctl hd, fun h => ?_, fun h => absurd h (umsgctl_outcome _ _)⟩
    rw [gate_umsgctl]
    exact h
  | snd c qid m msgsz msgflg =>
    simp only [System.act] at hact
    split_ifs at hact
    cases hact
    rw [Tables.call] at hr
    split_ifs at hr
    exact attends_snd hleak hr
  | rcv c qid msgsz msgtyp msgflg =>
    simp only [System.act] at hact
    split_ifs at hact
    cases hact
    exact attends_rcv hr
  | signal p => cases hact
  | resume c =>
    unfold System.act at hact
    cases hsl : s.sleepers c.self with
    | none =>
      simp only [hsl] at hact
      cases hact
    | some sl =>
      simp only [hsl] at hact
      split_ifs at hact
      cases hact
      exact attends_resume hleak hr

/-- Every sleeper that has not been woken is where it should be, and no gate is locked. -/
structure Attended (s : System t) : Prop where
  ok : ∀ p sl, s.sleepers p = some sl → sl.state = .asleep → sl.Ok (s.tables.msqs sl.slot)
  gate : ∀ i, s.tables.gate i = false

theorem Attended.signal (h : Attended s) (hs : s.signal pid = some s') : Attended s' := by
  unfold System.signal at hs
  cases hsl : s.sleepers pid with
  | none =>
    simp only [hsl] at hs
    cases hs
  | some sl =>
    simp only [hsl] at hs
    split_ifs at hs
    cases hs
    refine ⟨fun p sl' hp hst => ?_, h.gate⟩
    simp only [Function.update_apply] at hp
    split_ifs at hp
    · cases hp
      cases hst
    · exact h.ok p sl' hp hst

/-- A sleeper that is still asleep has not heard of the wake-up. -/
theorem Sleeper.hear_asleep {sl : Sleeper} {woken : Option ℕ}
    (h : (sl.hear woken).state = .asleep) :
    sl.state = .asleep ∧ woken ≠ some sl.slot ∧ sl.hear woken = sl := by
  unfold Sleeper.hear at h ⊢
  split_ifs at h ⊢ with hw
  exact ⟨h, fun hslot => hw ⟨hslot, h⟩, rfl⟩

theorem Attended.settle (h : Attended s) {r : Result t} (hatt : Attends s.tables r e new)
    (hdist : ∀ p sl, s.sleepers p = some sl → sl.state = .asleep → ¬ Disturbs s.tables sl e) :
    Attended (s.settle pid new r) := by
  refine ⟨fun p sl hp hst => ?_, hatt.gate h.gate⟩
  simp only [System.settle, Function.update_apply] at hp
  split_ifs at hp with hpid hsleep
  · exact hatt.sleep hsleep sl hp
  · obtain ⟨sl', hsl', rfl⟩ := Option.map_eq_some_iff.mp hp
    obtain ⟨hst', hw, heq⟩ := Sleeper.hear_asleep hst
    rw [heq]
    exact hatt.keeps sl' (hdist p sl' hsl' hst') hw (h.ok p sl' hsl' hst')

theorem Attended.step (h : Attended s) (hok : Mindful s a) (hs : s.step a = some s') :
    Attended s' := by
  by_cases hsig : ∃ p, a = .signal p
  · obtain ⟨p, rfl⟩ := hsig
    exact h.signal hs
  have hbind : ((s.act a).bind fun (pid, e, sl) => (s.tables.call e).map (s.settle pid sl)) =
      some s' := by
    rw [← hs]
    cases a with
    | signal p => exact absurd ⟨p, rfl⟩ hsig
    | _ => rfl
  obtain ⟨⟨pid, e, new⟩, hact, hmap⟩ := Option.bind_eq_some_iff.mp hbind
  obtain ⟨r, hr, rfl⟩ := Option.map_eq_some_iff.mp hmap
  obtain ⟨hdist, hleak⟩ := hok pid e new hact
  exact h.settle (attends_act hact hleak hr) hdist

/-- No process is in a call when `msginit` has run. -/
def Fresh (s : System t) : Prop := Init (fun _ => True) s.tables ∧ ∀ p, s.sleepers p = none

theorem Attended.fresh (h : Fresh s) : Attended s := by
  obtain ⟨⟨mem, NMSQB, now, -, htab⟩, hnone⟩ := h
  refine ⟨fun p sl hp => ?_, fun i => ?_⟩
  · rw [hnone] at hp
    cases hp
  · rw [htab]
    rfl

/-- **No sleeper is forgotten.** In every run in which nobody sleeps on a queue when it is removed
    or created, no new limit lets a sleeping sender go on, and no send finds the message map full,
    every process that is asleep waits for something that does not hold, and every gate is
    unlocked. -/
theorem reachable_served (h : Reach Fresh System.step Mindful s) :
    (∀ p sl, s.sleepers p = some sl → sl.state = .asleep → sl.Waits (s.tables.msqs sl.slot)) ∧
      ∀ i, s.tables.gate i = false := by
  have hi : Attended s :=
    h.invariant (fun _ h => Attended.fresh h) fun _ _ _ hi hok hs => hi.step hok hs
  exact ⟨fun p sl hp hst => (hi.ok p sl hp hst).1, hi.gate⟩

/-- Two queues, and no process in a call. -/
def quietQueues : System twoTune := ⟨twoQueues, fun _ => none⟩

/-- A process of the super-user. -/
def rootProc (pid : ℕ) : Ctx := { rootCtx 0 0 with self := pid }

/-- Process 2 waits for a message in a queue that process 1 has made. -/
def waitForMsg : List Action := [.get (rootProc 1) 7 0o1666, .rcv (rootProc 2) 0 10 0 0]

/-- A call that disturbs nobody, when nobody sleeps. -/
theorem mindful_of_none {s : System t} (hnone : ∀ p, s.sleepers p = none)
    (hleak : ∀ pid e sl, s.act a = some (pid, e, sl) → ¬ LeaksGate s.tables e) : Mindful s a := by
  refine fun pid e new hact => ⟨fun p sl hsl => ?_, hleak pid e new hact⟩
  rw [hnone] at hsl
  cases hsl

/-- Process 2 sleeps, and there is no message in its queue. -/
theorem reachable_served_first : ∃ s sl, runFrom System.step quietQueues waitForMsg = some s ∧
    s.sleepers 2 = some sl ∧ sl.state = .asleep ∧ sl.Waits (s.tables.msqs sl.slot) ∧
      s.tables.gate 0 = false := by
  obtain ⟨s₁, hs₁⟩ : ∃ s₁, quietQueues.step (.get (rootProc 1) 7 0o1666) = some s₁ := ⟨_, rfl⟩
  have hnone : ∀ p, s₁.sleepers p = none := by
    cases hs₁
    intro p
    simp only [System.settle, Function.update_apply]
    split_ifs <;> rfl
  have heval : (runFrom System.step quietQueues waitForMsg).bind (fun s =>
      (s.sleepers 2).map (·.state)) = some .asleep := by
    decide +kernel
  obtain ⟨s, hs, hsl⟩ := Option.bind_eq_some_iff.mp heval
  obtain ⟨sl, hsl, hst⟩ := Option.map_eq_some_iff.mp hsl
  have hs₂ : s₁.step (.rcv (rootProc 2) 0 10 0 0) = some s := by
    have hrun := hs
    rw [waitForMsg, runFrom, hs₁, Option.bind_some, runFrom] at hrun
    obtain ⟨s₂, hs₂, hlast⟩ := Option.bind_eq_some_iff.mp hrun
    cases hlast
    exact hs₂
  have hget : Mindful quietQueues (.get (rootProc 1) 7 0o1666) :=
    mindful_of_none (fun _ => rfl) fun pid e sl hact => by
      cases hact
      exact fun h => h
  have hrcv : Mindful s₁ (.rcv (rootProc 2) 0 10 0 0) :=
    mindful_of_none hnone fun pid e sl hact => by
      simp only [System.act] at hact
      split_ifs at hact
      cases hact
      exact fun h => h
  have hfresh : Fresh quietQueues := ⟨⟨_, _, _, trivial, rfl⟩, fun _ => rfl⟩
  obtain ⟨hwaits, hgate⟩ := reachable_served (((Reach.init hfresh).step hget hs₁).step hrcv hs₂)
  exact ⟨s, sl, hs, hsl, hst, hwaits 2 sl hsl hst, hgate 0⟩

/-- **Asleep on a removed queue.** Process 2 waits for a message, process 1 removes the queue, and
    process 2 is still asleep. -/
theorem removed_asleep : ∃ s : System ⟨2, by decide, by decide⟩,
    Reach Fresh System.step (fun _ _ => True) s ∧
      ¬ ((∀ p sl, s.sleepers p = some sl → sl.state = .asleep → sl.Waits (s.tables.msqs sl.slot)) ∧
        ∀ i, s.tables.gate i = false) := by
  have heval :
      (runFrom System.step quietQueues (waitForMsg ++ [.ctl (rootProc 1) 0 .IPC_RMID])).bind
      (fun s => (s.sleepers 2).map fun sl =>
        decide (sl.state = .asleep ∧ ((s.tables.msqs sl.slot).msgPerm.seq : ℤ) ≠ sl.qid)) =
      some true := by
    decide +kernel
  obtain ⟨s, hs, hsl⟩ := Option.bind_eq_some_iff.mp heval
  obtain ⟨sl, hsl, hval⟩ := Option.map_eq_some_iff.mp hsl
  obtain ⟨hst, hseq⟩ := of_decide_eq_true hval
  refine ⟨s, Reach.run (fun _ _ => trivial)
    (Reach.init ⟨⟨_, _, _, trivial, rfl⟩, fun _ => rfl⟩) hs, fun h => ?_⟩
  exact hseq (h.1 2 sl hsl hst).1

end CohKernel.Msg386
