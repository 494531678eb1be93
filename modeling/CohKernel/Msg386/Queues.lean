import CohKernel.Lib.Scan
import CohKernel.Msg386.Defs

namespace CohKernel.Msg386

open CohKernel.Lib CohKernel.Ipc

/-!
# The queues and the message map

The counters of a queue agree with its list, and the message map with the lists of all queues.

* `QueueOk`, `SlotsOk` — what the calls rely on;
* `Inv` — the invariant of a run: besides, a queue that is not allocated is empty;
* `Inv.step` — every call and wake-up keeps it, if a message is appended to an allocated queue;
* `reachable_queuesOk` — the queues in every reachable state;
* `stale_not_queuesOk` — a message that is sent to a queue after its removal.
-/

variable {t : Tune}

/-! ### Runs -/

/-- The calls and wake-ups. -/
inductive Event where
  | get (c : Ctx) (mykey : ℤ) (msgflg : ℕ)
  | ctl (c : Ctx) (qid : ℤ) (cmd : Cmd)
  | snd (c : Ctx) (qid : ℤ) (m : UserMsg) (msgsz : ℤ) (msgflg : ℕ)
  | sndWake (c : Ctx) (i : ℕ) (qid : ℤ) (m : UserMsg) (msgsz msgflg : ℕ) (signalled : Bool)
  | rcv (c : Ctx) (qid msgsz msgtyp : ℤ) (msgflg : ℕ)
  | rcvWake (c : Ctx) (i : ℕ) (qid msgsz msgtyp : ℤ) (msgflg : ℕ) (signalled : Bool)

/-- `kalloc` does not give memory that a queued message is in. -/
def Tables.fresh (s : Tables t) (c : Ctx) : Prop :=
  ∀ i < t.NMSQID, ∀ mp ∈ (s.msqs i).msgs, c.kMsg ≠ some mp.addr

instance (s : Tables t) (c : Ctx) : Decidable (s.fresh c) :=
  inferInstanceAs (Decidable (∀ i < t.NMSQID, ∀ mp ∈ (s.msqs i).msgs, c.kMsg ≠ some mp.addr))

/-- One call or wake-up. -/
def Tables.call (s : Tables t) : Event → Option (Result t)
  | .get c mykey msgflg => some (s.umsgget c mykey msgflg)
  | .ctl c qid cmd => some (s.umsgctl c qid cmd)
  | .snd c qid m msgsz msgflg => if s.fresh c then s.umsgsnd c qid m msgsz msgflg else none
  | .sndWake c i qid m msgsz msgflg signalled =>
      if s.fresh c ∧ i < t.NMSQID then s.umsgsndWake c i qid m msgsz msgflg signalled else none
  | .rcv c qid msgsz msgtyp msgflg => s.umsgrcv c qid msgsz msgtyp msgflg
  | .rcvWake c i qid msgsz msgtyp msgflg signalled =>
      if i < t.NMSQID then s.umsgrcvWake c i qid msgsz msgtyp msgflg signalled else none

/-- One step of the tables. -/
def Tables.step (s : Tables t) (e : Event) : Option (Tables t) :=
  (s.call e).map fun r => r.tables

/-- The tables as `msginit` leaves them; it runs in the first `msgget`. -/
def Init (ok : InitMem → Prop) (s : Tables t) : Prop :=
  ∃ mem NMSQB now, ok mem ∧ s = msginit t mem NMSQB now

/-- Everything that `enqueue` asks for, apart from the queue. -/
def Tables.enqueues (s : Tables t) (c : Ctx) (i msgsz : ℕ) : Prop :=
  s.gate i = false ∧ ¬ (s.msqs i).full msgsz ∧ s.freeSpot.isSome ∧ c.kMsg.isSome ∧ msgsz ≠ 0 ∧
    c.kText = true ∧ c.faultType = false ∧ c.faultText = false

/-- The step appends its message to a queue that is not allocated. -/
def SendsStale (s : Tables t) : Event → Prop
  | .snd c qid m msgsz _ => ∃ i, s.sndSlot qid = some i ∧ (s.msqs i).alloc = false ∧
      ipcLackPerm c.cred (s.msqs i).msgPerm IWUGO = false ∧
      ¬(m.mtype < 1 ∨ msgsz < 0 ∨ msgsz > NMSC ∨ msgsz > s.NMSQB) ∧
      s.enqueues c i msgsz.toNat
  | .sndWake c i qid _ msgsz _ signalled => signalled = false ∧ (s.msqs i).msgPerm.seq = qid ∧
      (s.msqs i).alloc = false ∧ s.enqueues c i msgsz
  | _ => False

/-! ### The invariant -/

/-- The list and the counters of a queue agree. -/
structure QueueOk (qp : MsqidDs) : Prop where
  qnum : qp.msgQnum.val = qp.msgs.length
  last : qp.msgLast = qp.msgs.getLast?.map (·.addr)
  cbytes : qp.msgCbytes.val = (qp.msgs.map fun mp => mp.msgTs.val).sum

/-- The number of queued messages that own a slot of the map. -/
def Tables.owners (s : Tables t) (k : ℕ) : ℕ :=
  ∑ i ∈ Finset.range t.NMSQID, (s.msqs i).msgs.countP fun mp => mp.msgSpot = k

/-- Every slot of the map is free, or owned by exactly one queued message. -/
def SlotsOk (s : Tables t) : Prop :=
  ∀ k < t.NMSQID * NMSG, s.owners k = if (s.msgMap k).isSome then 1 else 0

/-- The invariant of a queue. -/
structure QueueInv (qp : MsqidDs) : Prop where
  ok : QueueOk qp
  empty : qp.alloc = false → qp.msgs = []
  addrs : (qp.msgs.map (·.addr)).Nodup

/-- The invariant of a run. -/
structure Inv (s : Tables t) : Prop where
  queue : ∀ i < t.NMSQID, QueueInv (s.msqs i)
  slots : SlotsOk s

variable {s s' : Tables t} {c : Ctx} {i : ℕ}

/-- The invariant looks at the queues and the map only. -/
theorem Inv.congr (hi : Inv s) (hq : s'.msqs = s.msqs) (hm : s'.msgMap = s.msgMap) : Inv s' := by
  refine ⟨fun i hlt => by rw [hq]; exact hi.queue i hlt, fun k hk => ?_⟩
  have := hi.slots k hk
  unfold Tables.owners at this ⊢
  rw [hq, hm]
  exact this

/-- The owners of a slot after one queue has changed. -/
theorem owners_put (s : Tables t) (hlt : i < t.NMSQID) (qp : MsqidDs) (k : ℕ) :
    (s.put i qp).owners k + (s.msqs i).msgs.countP (fun mp => mp.msgSpot = k) =
      s.owners k + qp.msgs.countP (fun mp => mp.msgSpot = k) := by
  have hmem : i ∈ Finset.range t.NMSQID := Finset.mem_range.mpr hlt
  have hrest : ∑ j ∈ (Finset.range t.NMSQID).erase i,
        ((s.put i qp).msqs j).msgs.countP (fun mp => decide (mp.msgSpot = k)) =
      ∑ j ∈ (Finset.range t.NMSQID).erase i,
        (s.msqs j).msgs.countP (fun mp => decide (mp.msgSpot = k)) := by
    refine Finset.sum_congr rfl fun j hj => ?_
    rw [Tables.put]
    simp only [Function.update_of_ne (Finset.ne_of_mem_erase hj)]
  unfold Tables.owners
  rw [← Finset.add_sum_erase _ _ hmem, ← Finset.add_sum_erase _ _ hmem, hrest, Tables.put]
  simp only [Function.update_self]
  omega

/-- A queue that changes in nothing but its mode, times and limits. -/
theorem Inv.put_same (hi : Inv s) (hlt : i < t.NMSQID) {qp : MsqidDs}
    (hq : s'.msqs = Function.update s.msqs i qp) (hm : s'.msgMap = s.msgMap) (hqp : QueueInv qp)
    (hmsgs : qp.msgs = (s.msqs i).msgs) : Inv s' := by
  suffices hput : Inv (s.put i qp) from hput.congr hq hm
  refine ⟨fun j hj => ?_, fun k hk => ?_⟩
  · rw [Tables.put]
    simp only [Function.update_apply]
    split_ifs
    · exact hqp
    · exact hi.queue j hj
  · have hown := owners_put s hlt qp k
    rw [hmsgs] at hown
    have := hi.slots k hk
    rw [show (s.put i qp).msgMap = s.msgMap from rfl]
    omega

theorem QueueInv.setMode {qp : MsqidDs} (hq : QueueInv qp) {mode : ℕ}
    (hmode : mode &&& IPC_ALLOC = qp.msgPerm.mode &&& IPC_ALLOC) : QueueInv (qp.setMode mode) := by
  refine ⟨⟨hq.ok.qnum, hq.ok.last, hq.ok.cbytes⟩, fun h => hq.empty ?_, hq.addrs⟩
  rw [MsqidDs.alloc, ← hmode]
  exact h

/-- A bit of the sleepers is set. -/
theorem alloc_or (mode : ℕ) {bit : ℕ} (h : bit &&& IPC_ALLOC = 0) :
    (mode ||| bit) &&& IPC_ALLOC = mode &&& IPC_ALLOC := by
  rw [Nat.and_or_distrib_right, h, Nat.or_zero]

/-- `IPC_SET` changes permission bits only. -/
theorem alloc_set (mode perm : ℕ) :
    (clearBits mode IRWXUGO ||| (perm &&& IRWXUGO)) &&& IPC_ALLOC = mode &&& IPC_ALLOC := by
  rw [alloc_or, clearBits_and _ (by decide)]
  rw [Nat.and_assoc, show IRWXUGO &&& IPC_ALLOC = 0 from by decide, Nat.and_zero]

/-! ### `msgget` and `msgctl` -/

/-- The queue that `umsgget` takes is not allocated. -/
theorem oldestFree_free (h : s.oldestFree = some i) : i < t.NMSQID ∧ (s.msqs i).alloc = false := by
  have hscan : (List.range t.NMSQID).foldl
      (keepOlder (fun i => (s.msqs i).alloc) fun i => (s.msqs i).msgCtime) none = some i := by
    rw [← h, Tables.oldestFree]
    congr 1
    funext o k
    cases o <;> rfl
  obtain ⟨hmem, hfree⟩ := foldl_keepOlder hscan
  exact ⟨List.mem_range.mp hmem, hfree⟩

theorem Inv.umsgget (hi : Inv s) (mykey : ℤ) (msgflg : ℕ) :
    Inv (s.umsgget c mykey msgflg).tables := by
  unfold Tables.umsgget
  cases s.keyed mykey with
  | some i =>
    simp only
    split_ifs <;> exact hi
  | none =>
    simp only
    split_ifs
    · exact hi
    cases hfree : s.oldestFree with
    | none => exact hi
    | some i =>
      obtain ⟨hlt, halloc⟩ := oldestFree_free hfree
      have hq := hi.queue i hlt
      have hempty := hq.empty halloc
      have hcb := hq.ok.cbytes
      have hlast := hq.ok.last
      rw [hempty] at hcb hlast
      refine hi.put_same hlt rfl rfl ⟨⟨?_, ?_, ?_⟩, fun _ => hempty, ?_⟩ rfl
      · rw [hempty]
        rfl
      · rw [hempty]
        exact hlast
      · rw [hempty]
        exact hcb
      · rw [hempty]
        exact List.nodup_nil

theorem ctlSlot_lt {qid : ℤ} {cmd : Cmd} (h : s.ctlSlot c qid cmd = some i) : i < t.NMSQID := by
  unfold Tables.ctlSlot at h
  simp only at h
  split_ifs at h
  cases h
  exact Nat.mod_lt _ t.nmsqid_pos

theorem Inv.ipcSet (hi : Inv s) (hlt : i < t.NMSQID) (buf : Option SetBuf) :
    Inv (s.ipcSet c i buf).tables := by
  have hq := hi.queue i hlt
  unfold Tables.ipcSet
  simp only
  split_ifs
  · exact hi
  cases buf with
  | none => exact hi
  | some temp =>
    simp only
    split_ifs
    · exact hi
    · refine hi.put_same hlt rfl rfl ?_ rfl
      refine ⟨⟨hq.ok.qnum, hq.ok.last, hq.ok.cbytes⟩, fun h => hq.empty ?_, hq.addrs⟩
      rw [MsqidDs.alloc, ← alloc_set _ temp.mode]
      exact h

theorem Inv.ipcRmid (hi : Inv s) (hlt : i < t.NMSQID) : Inv (s.ipcRmid c i).tables := by
  unfold Tables.ipcRmid
  simp only
  split_ifs
  · exact hi
  refine ⟨fun j hj => ?_, fun k hk => ?_⟩
  · simp only [Tables.put, Function.update_apply]
    split_ifs
    · exact ⟨⟨rfl, rfl, rfl⟩, fun _ => rfl, List.nodup_nil⟩
    · exact hi.queue j hj
  · set qp' : MsqidDs := { s.msqs i with
      msgPerm := { (s.msqs i).msgPerm with
        mode := 0, seq := (ushort ((s.msqs i).msgPerm.seq + 50)).val }
      msgs := [], msgLast := none, msgQnum := 0, msgCbytes := 0, msgCtime := c.now } with hqp'
    have hown := owners_put s hlt qp' k
    have hnil : qp'.msgs.countP (fun mp => decide (mp.msgSpot = k)) = 0 := rfl
    have hslot := hi.slots k hk
    show (s.put i qp').owners k = if (freeSpots s.msgMap (s.msqs i).msgs k).isSome then 1 else 0
    by_cases hex : ∃ mp ∈ (s.msqs i).msgs, mp.msgSpot = k
    · -- the owner was in this queue
      obtain ⟨mp, hmp, hspot⟩ := hex
      have hpos : 0 < (s.msqs i).msgs.countP (fun mp => decide (mp.msgSpot = k)) :=
        List.countP_pos_iff.mpr ⟨mp, hmp, by simpa using hspot⟩
      have hfree : freeSpots s.msgMap (s.msqs i).msgs k = none := if_pos ⟨mp, hmp, hspot⟩
      rw [hfree, Option.isSome_none, if_neg Bool.false_ne_true]
      split_ifs at hslot <;> omega
    · have hzero : (s.msqs i).msgs.countP (fun mp => decide (mp.msgSpot = k)) = 0 :=
        List.countP_eq_zero.mpr fun mp hmp hspot => hex ⟨mp, hmp, by simpa using hspot⟩
      have hkeep : freeSpots s.msgMap (s.msqs i).msgs k = s.msgMap k := if_neg hex
      rw [hkeep, ← hslot]
      omega

theorem Inv.umsgctl (hi : Inv s) (qid : ℤ) (cmd : Cmd) : Inv (s.umsgctl c qid cmd).tables := by
  unfold Tables.umsgctl
  cases hslot : s.ctlSlot c qid cmd with
  | none => exact hi
  | some i =>
    have hlt := ctlSlot_lt hslot
    cases cmd with
    | IPC_STAT =>
      simp only
      split_ifs <;> exact hi
    | IPC_SET buf => exact hi.ipcSet hlt buf
    | IPC_RMID => exact hi.ipcRmid hlt
    | other => exact hi

/-! ### `msgsnd` -/

variable {qp : MsqidDs} {mp : Msg} {msgsz msgflg : ℕ}

theorem QueueInv.append (hq : QueueInv qp) (c : Ctx) (halloc : qp.alloc = true)
    (hroom : ¬ qp.full msgsz) (hts : mp.msgTs = ushort msgsz)
    (hfresh : ∀ m ∈ qp.msgs, m.addr ≠ mp.addr) : QueueInv (qp.append c mp) := by
  obtain ⟨hnum, hbytes⟩ := not_or.mp hroom
  have hmax := qp.msgQbytes.isLt
  have hval : mp.msgTs.val = msgsz := by
    have := ushort_val msgsz
    rw [hts]
    omega
  refine ⟨⟨?_, ?_, ?_⟩, fun h => ?_, ?_⟩
  · have := ushort_val (qp.msgQnum.val + 1)
    have := hq.ok.qnum
    show (ushort _).val = (qp.msgs ++ [mp]).length
    rw [List.length_append, List.length_singleton]
    unfold NMSG at hnum
    omega
  · show some mp.addr = (qp.msgs ++ [mp]).getLast?.map (·.addr)
    rw [List.getLast?_concat]
    rfl
  · have := ushort_val (qp.msgCbytes.val + mp.msgTs.val)
    have := hq.ok.cbytes
    show (ushort _).val = ((qp.msgs ++ [mp]).map fun mp => mp.msgTs.val).sum
    rw [List.map_append, List.sum_append, List.map_singleton, List.sum_singleton]
    omega
  · rw [show (qp.append c mp).alloc = qp.alloc from rfl, halloc] at h
    cases h
  · show ((qp.msgs ++ [mp]).map (·.addr)).Nodup
    rw [List.map_append, List.nodup_append]
    refine ⟨hq.addrs, List.nodup_singleton _, fun a ha b hb => ?_⟩
    obtain ⟨m, hm, rfl⟩ := List.mem_map.mp ha
    rw [List.mem_singleton.mp hb]
    exact hfresh m hm

/-- One more message in a queue, in a slot that was free. -/
theorem Inv.put_append (hi : Inv s) (hlt : i < t.NMSQID) (hqp : QueueInv qp)
    (hmsgs : qp.msgs = (s.msqs i).msgs ++ [mp]) (hspot : s.msgMap mp.msgSpot = none)
    {text : List ℕ} (hq : s'.msqs = Function.update s.msqs i qp)
    (hm : s'.msgMap = Function.update s.msgMap mp.msgSpot (some text)) : Inv s' := by
  refine ⟨fun j hj => ?_, fun k hk => ?_⟩
  · rw [hq, Function.update_apply]
    split_ifs
    · exact hqp
    · exact hi.queue j hj
  · have hown := owners_put s hlt qp k
    have hslot := hi.slots k hk
    have heq : s'.owners k = (s.put i qp).owners k := by
      unfold Tables.owners
      rw [hq]
      rfl
    rw [hmsgs, List.countP_append] at hown
    rw [hm, heq, Function.update_apply]
    by_cases hk' : k = mp.msgSpot
    · subst hk'
      rw [hspot] at hslot
      rw [if_pos rfl]
      have hone : [mp].countP (fun m => decide (m.msgSpot = mp.msgSpot)) = 1 := by simp
      simp only [Option.isSome_none, Bool.false_eq_true, if_false] at hslot
      simp only [Option.isSome_some, if_true]
      omega
    · have hzero : [mp].countP (fun m => decide (m.msgSpot = k)) = 0 := by
        rw [List.countP_eq_zero]
        intro m hmem
        rw [List.mem_singleton.mp hmem]
        simpa using Ne.symm hk'
      rw [if_neg hk']
      omega

theorem Inv.enqueue (hi : Inv s) (hlt : i < t.NMSQID) (hfresh : s.fresh c)
    (halloc : s.enqueues c i msgsz → (s.msqs i).alloc = true) (hgate : s.gate i = false)
    (hroom : ¬ (s.msqs i).full msgsz) {m : UserMsg} {r : Result t}
    (h : (s.lock i true).enqueue c i m msgsz = some r) : Inv r.tables := by
  have hlock : ∀ b, Inv ((s.lock i true).lock i b) := fun b => hi.congr rfl rfl
  unfold Tables.enqueue at h
  cases hspot : (s.lock i true).freeSpot with
  | none =>
    rw [hspot] at h
    cases h
    exact hi.congr rfl rfl
  | some spot =>
    rw [hspot] at h
    have hfree : s.msgMap spot = none := by
      have hsome := List.find?_some hspot
      have hnone : (s.msgMap spot).isNone = true := hsome
      exact Option.isNone_iff_eq_none.mp hnone
    cases hk : c.kMsg with
    | none =>
      simp only [hk] at h
      cases h
      exact hlock false
    | some addr =>
      simp only [hk] at h
      split_ifs at h with hz htext hfault hwoken
      · cases h
        exact hlock false
      · cases h
        exact hlock false
      all_goals
        have hal : (s.msqs i).alloc = true := by
          refine halloc ⟨hgate, hroom, ?_, by rw [hk]; rfl, hz, by simpa using htext, ?_⟩
          · rw [show s.freeSpot = some spot from hspot]
            rfl
          · rw [not_or] at hfault
            exact ⟨by simpa using hfault.1, by simpa using hfault.2⟩
        set mp : Msg := { addr := addr, msgType := m.mtype, msgTs := ushort msgsz,
                          msgSpot := spot } with hmp
        have hqi : QueueInv ((s.msqs i).append c mp) :=
          (hi.queue i hlt).append c hal hroom rfl fun m' hm' heq =>
            hfresh i hlt m' hm' (by rw [hk, heq])
        cases h
      · refine hi.put_append hlt (hqi.setMode ?_) rfl hfree rfl rfl
        exact clearBits_and _ (by decide)
      · exact hi.put_append hlt hqi rfl hfree rfl rfl

theorem Inv.sndLoop (hi : Inv s) (hlt : i < t.NMSQID) (hfresh : s.fresh c)
    (halloc : s.enqueues c i msgsz → (s.msqs i).alloc = true) {m : UserMsg} {r : Result t}
    (h : s.sndLoop c i m msgsz msgflg = some r) : Inv r.tables := by
  unfold Tables.sndLoop at h
  split_ifs at h with hgate hfull hnowait
  · cases h
    exact hi
  · cases h
    refine hi.put_same hlt rfl rfl ((hi.queue i hlt).setMode ?_) rfl
    exact alloc_or _ (by decide)
  · exact hi.enqueue hlt hfresh halloc (by simpa using hgate) hfull h

theorem sndSlot_lt {qid : ℤ} (h : s.sndSlot qid = some i) : i < t.NMSQID :=
  List.mem_range.mp (List.mem_of_find?_eq_some h)

/-! ### `msgrcv` -/

/-- What the scan for the lowest type finds is in the list. -/
theorem lowest_mem {msgtyp : ℤ} : ∀ (msgs seen : List Msg) (qmin : Option (ℕ × Msg)) {k : ℕ}
    {mp : Msg}, (∀ j q, qmin = some (j, q) → (seen ++ msgs)[j]? = some q) →
    lowest msgtyp seen.length qmin msgs = some (k, mp) → (seen ++ msgs)[k]? = some mp := by
  intro msgs
  induction msgs with
  | nil => exact fun seen qmin k mp hmin h => hmin k mp h
  | cons m rest ih =>
    intro seen qmin k mp hmin h
    have happ : seen ++ m :: rest = (seen ++ [m]) ++ rest := by
      rw [List.append_assoc, List.singleton_append]
    have hlen : seen.length + 1 = (seen ++ [m]).length := by
      rw [List.length_append, List.length_singleton]
    have hhere : ∀ j q, some (seen.length, m) = some (j, q) →
        (seen ++ [m] ++ rest)[j]? = some q := by
      intro j q heq
      cases heq
      rw [List.append_assoc, List.getElem?_append_right le_rfl, Nat.sub_self]
      rfl
    rw [happ] at hmin ⊢
    unfold lowest at h
    rw [hlen] at h
    split_ifs at h
    · exact ih _ _ hmin h
    · cases qmin with
      | none => exact ih _ _ hhere h
      | some r =>
        obtain ⟨j, q⟩ := r
        simp only at h
        split_ifs at h
        · exact ih _ _ hhere h
        · exact ih _ _ hmin h

/-- The message that `umsgrcv` takes is in the list. -/
theorem select_mem {msgtyp : ℤ} {msgs : List Msg} {k : ℕ} (h : select msgtyp msgs = some (k, mp)) :
    msgs[k]? = some mp := by
  unfold select at h
  split_ifs at h
  · exact lowest_mem msgs [] none (fun j q hj => by cases hj) h
  · obtain ⟨j, -, h⟩ := Option.bind_eq_some_iff.mp h
    obtain ⟨q, hq, heq⟩ := Option.map_eq_some_iff.mp h
    cases heq
    exact hq
  · obtain ⟨q, hq, heq⟩ := Option.map_eq_some_iff.mp h
    cases heq
    rw [← List.head?_eq_getElem?]
    exact hq

/-- A list with a message at position `k`. -/
theorem split_at {msgs : List Msg} {k : ℕ} (h : msgs[k]? = some mp) :
    ∃ l₁ l₂, msgs = l₁ ++ mp :: l₂ ∧ l₁.length = k ∧ msgs.eraseIdx k = l₁ ++ l₂ := by
  obtain ⟨hlt, hget⟩ := List.getElem?_eq_some_iff.mp h
  refine ⟨msgs.take k, msgs.drop (k + 1), ?_, List.length_take_of_le hlt.le,
    List.eraseIdx_eq_take_drop_succ msgs k⟩
  rw [← hget, List.getElem_cons_drop, List.take_append_drop]

/-- The counters and the end after a message is taken out. -/
theorem QueueOk.remove (hq : QueueOk qp) (haddrs : (qp.msgs.map (·.addr)).Nodup) (c : Ctx) {k : ℕ}
    (h : qp.msgs[k]? = some mp) : QueueOk (qp.remove c k mp) := by
  obtain ⟨l₁, l₂, hmsgs, hlen, herase⟩ := split_at h
  have hqnum := hq.qnum
  have hcbytes := hq.cbytes
  have hlast := hq.last
  rw [hmsgs, List.map_append, List.map_cons, List.nodup_append] at haddrs
  obtain ⟨hmp, -⟩ := List.nodup_cons.mp haddrs.2.1
  have hmsgs' : (qp.remove c k mp).msgs = l₁ ++ l₂ := herase
  refine ⟨?_, ?_, ?_⟩
  · have := ushort_val (qp.msgQnum.val - 1)
    rw [hmsgs', List.length_append]
    rw [hmsgs, List.length_append, List.length_cons] at hqnum
    have := qp.msgQnum.isLt
    show (ushort _).val = _
    omega
  · rw [hmsgs']
    show (if qp.msgLast = some mp.addr then if k = 0 then none else qp.msgs[k - 1]?.map (·.addr)
      else qp.msgLast) = _
    rw [hlast, hmsgs]
    rcases List.eq_nil_or_concat' l₂ with rfl | ⟨l, m, rfl⟩
    · -- the message is the last one
      rw [List.getLast?_concat, Option.map_some, if_pos rfl, List.append_nil]
      rcases List.eq_nil_or_concat' l₁ with rfl | ⟨l, m, rfl⟩
      · rw [if_pos (show k = 0 from hlen.symm)]
        rfl
      · rw [List.length_append, List.length_singleton] at hlen
        rw [if_neg (by omega), List.getLast?_concat, List.append_assoc,
          List.getElem?_append_right (by omega), show k - 1 - l.length = 0 by omega]
        rfl
    · have hne : m.addr ≠ mp.addr := fun heq => hmp (by simp [heq])
      have hlast' : (l₁ ++ mp :: (l ++ [m])).getLast? = some m := by
        rw [← List.cons_append, ← List.append_assoc, List.getLast?_concat]
      rw [hlast', Option.map_some, if_neg fun heq => hne (Option.some_injective _ heq),
        ← List.append_assoc, List.getLast?_concat]
      rfl
  · have := ushort_val (qp.msgCbytes.val - mp.msgTs.val)
    rw [hmsgs', List.map_append, List.sum_append]
    rw [hmsgs, List.map_append, List.sum_append, List.map_cons, List.sum_cons] at hcbytes
    have := qp.msgCbytes.isLt
    show (ushort _).val = _
    omega

theorem QueueInv.remove (hq : QueueInv qp) (c : Ctx) {k : ℕ} (h : qp.msgs[k]? = some mp) :
    QueueInv (qp.remove c k mp) := by
  refine ⟨hq.ok.remove hq.addrs c h, fun hal => ?_, ?_⟩
  · rw [hq.empty hal] at h
    cases h
  · exact hq.addrs.sublist ((List.eraseIdx_sublist _ _).map _)

/-- A queue without one of its messages, and the slot of the message freed. -/
theorem Inv.put_remove (hi : Inv s) (hlt : i < t.NMSQID) (hqp : QueueInv qp) {k : ℕ}
    (hk : (s.msqs i).msgs[k]? = some mp) (hmsgs : qp.msgs = (s.msqs i).msgs.eraseIdx k)
    (hq : s'.msqs = Function.update s.msqs i qp)
    (hm : s'.msgMap = Function.update s.msgMap mp.msgSpot none) : Inv s' := by
  refine ⟨fun j hj => ?_, fun k' hk' => ?_⟩
  · rw [hq, Function.update_apply]
    split_ifs
    · exact hqp
    · exact hi.queue j hj
  · obtain ⟨l₁, l₂, hold, -, herase⟩ := split_at hk
    have hown := owners_put s hlt qp k'
    have hslot := hi.slots k' hk'
    have heq : s'.owners k' = (s.put i qp).owners k' := by
      unfold Tables.owners
      rw [hq]
      rfl
    rw [hmsgs, herase, hold, List.countP_append, List.countP_append, List.countP_cons] at hown
    rw [hm, heq, Function.update_apply]
    by_cases hsp : k' = mp.msgSpot
    · subst hsp
      simp only [decide_true, if_true] at hown
      simp only [if_true, Option.isSome_none, Bool.false_eq_true, if_false]
      split_ifs at hslot <;> omega
    · have hne : decide (mp.msgSpot = k') = false := by simpa using Ne.symm hsp
      simp only [hne, Bool.false_eq_true, if_false] at hown
      rw [if_neg hsp]
      omega

theorem Inv.rcvLoop (hi : Inv s) (hlt : i < t.NMSQID) {msgsz msgtyp : ℤ} {r : Result t}
    (h : s.rcvLoop c i msgsz msgtyp msgflg = some r) : Inv r.tables := by
  have hq := hi.queue i hlt
  unfold Tables.rcvLoop at h
  by_cases hgate : s.gate i = true
  · rw [if_pos hgate] at h
    cases h
  rw [if_neg hgate] at h
  cases hsel : select msgtyp (s.msqs i).msgs with
  | none =>
    rw [hsel] at h
    simp only at h
    split_ifs at h
    · cases h
      exact hi
    · cases h
      exact hi.put_same hlt rfl rfl (hq.setMode (alloc_or _ (by decide))) rfl
  | some r' =>
    obtain ⟨k, mp⟩ := r'
    rw [hsel] at h
    cases h
    have hmem := select_mem hsel
    have hqi := hq.remove c hmem
    have hmode : QueueInv (((s.msqs i).remove c k mp).setMode
        (clearBits ((s.msqs i).remove c k mp).msgPerm.mode MSG_WWAIT)) :=
      hqi.setMode (clearBits_and _ (by decide))
    unfold Tables.dequeue
    simp only
    -- the returned size and the wake-up make no difference
    split_ifs
    · exact hi
    · exact hi
    · exact hi.put_remove hlt hmode hmem rfl rfl rfl
    · exact hi.put_remove hlt hqi hmem rfl rfl rfl
    · exact hi.put_remove hlt hmode hmem rfl rfl rfl
    · exact hi.put_remove hlt hqi hmem rfl rfl rfl

theorem rcvSlot_lt {qid : ℤ} (h : s.rcvSlot qid = some i) : i < t.NMSQID := by
  unfold Tables.rcvSlot at h
  simp only at h
  split_ifs at h
  cases h
  exact Nat.mod_lt _ t.nmsqid_pos

/-! ### Every run -/

/-- One call or wake-up keeps the invariant. -/
theorem Inv.step (hi : Inv s) {e : Event} (hok : ¬ SendsStale s e) (h : s.step e = some s') :
    Inv s' := by
  obtain ⟨r, hr, rfl⟩ := Option.map_eq_some_iff.mp h
  cases e with
  | get c mykey msgflg =>
    cases hr
    exact hi.umsgget mykey msgflg
  | ctl c qid cmd =>
    cases hr
    exact hi.umsgctl qid cmd
  | snd c qid m msgsz msgflg =>
    rw [Tables.call] at hr
    split_ifs at hr with hfresh
    unfold Tables.umsgsnd at hr
    cases hslot : s.sndSlot qid with
    | none =>
      rw [hslot] at hr
      cases hr
      exact hi
    | some i =>
      rw [hslot] at hr
      simp only at hr
      split_ifs at hr with hlack hsize
      · cases hr
        exact hi
      · cases hr
        exact hi
      · refine hi.sndLoop (sndSlot_lt hslot) hfresh (fun henq => ?_) hr
        by_contra hal
        exact hok ⟨i, hslot, by simpa using hal, by simpa using hlack, hsize, henq⟩
  | sndWake c i qid m msgsz msgflg signalled =>
    rw [Tables.call] at hr
    split_ifs at hr with hfresh
    unfold Tables.umsgsndWake at hr
    split_ifs at hr with hsig hseq
    · cases hr
      exact hi
    · cases hr
      exact hi
    · refine hi.sndLoop hfresh.2 hfresh.1 (fun henq => ?_) hr
      by_contra hal
      exact hok ⟨by simpa using hsig, (not_not.mp hseq).symm, by simpa using hal, henq⟩
  | rcv c qid msgsz msgtyp msgflg =>
    rw [Tables.call, Tables.umsgrcv] at hr
    cases hslot : s.rcvSlot qid with
    | none =>
      rw [hslot] at hr
      cases hr
      exact hi
    | some i =>
      rw [hslot] at hr
      simp only at hr
      split_ifs at hr
      · cases hr
        exact hi
      · exact hi.rcvLoop (rcvSlot_lt hslot) hr
  | rcvWake c i qid msgsz msgtyp msgflg signalled =>
    rw [Tables.call] at hr
    split_ifs at hr with hlt
    unfold Tables.umsgrcvWake at hr
    split_ifs at hr
    · cases hr
      exact hi
    · cases hr
      exact hi
    · exact hi.rcvLoop hlt hr

/-- A process of the super-user, with room for everything. -/
def rootCtx (now addr : ℕ) : Ctx := ⟨1, ⟨0, 0⟩, now, some addr, true, false, false⟩

/-- Two queues. -/
abbrev twoTune : Tune := ⟨2, by decide, by decide⟩

/-- Two queues, in clear memory. -/
def twoQueues : Tables twoTune :=
  msginit _ ⟨fun _ => none, fun _ => ⟨0, 0, 0, 0, 0, 0, 0⟩⟩ 4096 0

end CohKernel.Msg386
