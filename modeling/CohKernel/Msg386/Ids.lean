import CohKernel.Msg386.Queues

namespace CohKernel.Msg386

open CohKernel.Lib CohKernel.Ipc

/-!
# Queue identifiers

The identifier of a queue is the sequence number of its slot; a removal adds 50.  `umsgsnd` looks
for the slot with the number, `umsgrcv` and `umsgctl` compute it as the remainder by `NMSQID`.

* `Keeps`, `step_ids` — only a removal changes the number of a slot;
* `Congruent` — the number of a slot stays in its residue class when `NMSQID` divides 50;
* `msgget_id_names` — an identifier names its queue in all calls until the removal, and no queue
  afterwards;
* `stat_accepts_removed` — the super-user's `IPC_STAT` is not checked.
-/

variable {t : Tune} {s s' : Tables t} {c : Ctx} {i : ℕ}

/-- The identifier that the slot has at the time. -/
def Tables.id (s : Tables t) (i : ℕ) : ℕ := (s.msqs i).msgPerm.seq

/-- All calls find the queue under the identifier. -/
structure Names (s : Tables t) (id i : ℕ) : Prop where
  snd : s.sndSlot id = some i
  rcv : s.rcvSlot id = some i
  ctl : ∀ c cmd, s.ctlSlot c id cmd = some i

/-- No call accepts the identifier, but for the super-user's `IPC_STAT`. -/
structure Rejects (s : Tables t) (id : ℕ) : Prop where
  snd : s.sndSlot id = none
  rcv : s.rcvSlot id = none
  ctl : ∀ c cmd, ¬(cmd matches .IPC_STAT ∧ super c.cred = true) → s.ctlSlot c id cmd = none

/-- The step removes the queue in slot `i`. -/
def Removes (s : Tables t) (i : ℕ) : Event → Prop
  | .ctl c qid cmd => cmd matches .IPC_RMID ∧ s.ctlSlot c qid cmd = some i ∧
      ipcCredMatch c.cred (s.msqs i).msgPerm = CRED_OWNER
  | _ => False

/-- The step carries an identifier past the largest `unsigned short`. -/
def Wraps (s : Tables t) (e : Event) : Prop := ∃ i, Removes s i e ∧ s.id i + 50 ≥ 2 ^ 16

/-! ### What a step does to the identifiers -/

/-- The slots keep their numbers, and the allocated queues stay allocated. -/
def Keeps (s s' : Tables t) : Prop :=
  ∀ i, s'.id i = s.id i ∧ ((s.msqs i).alloc = true → (s'.msqs i).alloc = true)

theorem Keeps.refl (s : Tables t) : Keeps s s := fun _ => ⟨rfl, id⟩

/-- A queue that keeps its number and its `__IPC_ALLOC`. -/
theorem Keeps.put {qp : MsqidDs} (hq : s'.msqs = Function.update s.msqs i qp)
    (hseq : qp.msgPerm.seq = s.id i) (hal : (s.msqs i).alloc = true → qp.alloc = true) :
    Keeps s s' := by
  intro j
  unfold Tables.id at hseq ⊢
  rw [hq, Function.update_apply]
  split_ifs with hj
  · subst hj
    exact ⟨hseq, hal⟩
  · exact ⟨rfl, id⟩

theorem alloc_setMode {qp : MsqidDs} {mode : ℕ}
    (hmode : mode &&& IPC_ALLOC = qp.msgPerm.mode &&& IPC_ALLOC) (h : qp.alloc = true) :
    (qp.setMode mode).alloc = true := by
  rw [MsqidDs.alloc, MsqidDs.setMode]
  simp only [hmode]
  exact h

theorem Keeps.umsgget (s : Tables t) (c : Ctx) (mykey : ℤ) (msgflg : ℕ) :
    Keeps s (s.umsgget c mykey msgflg).tables := by
  unfold Tables.umsgget
  cases s.keyed mykey with
  | some i =>
    simp only
    split_ifs <;> exact Keeps.refl s
  | none =>
    simp only
    split_ifs
    · exact Keeps.refl s
    cases s.oldestFree with
    | none => exact Keeps.refl s
    | some i =>
      refine Keeps.put rfl rfl fun _ => ?_
      rw [MsqidDs.alloc, decide_eq_true_eq]
      exact ipcPermInit_alloc _ _ _ _

theorem Keeps.ipcSet (s : Tables t) (c : Ctx) (i : ℕ) (buf : Option SetBuf) :
    Keeps s (s.ipcSet c i buf).tables := by
  unfold Tables.ipcSet
  simp only
  split_ifs
  · exact Keeps.refl s
  cases buf with
  | none => exact Keeps.refl s
  | some temp =>
    simp only
    split_ifs
    · exact Keeps.refl s
    · refine Keeps.put rfl rfl fun hal => ?_
      rw [MsqidDs.alloc, ← alloc_set _ temp.mode] at hal
      exact hal

theorem Keeps.sndLoop {m : UserMsg} {msgsz msgflg : ℕ} {r : Result t}
    (h : s.sndLoop c i m msgsz msgflg = some r) : Keeps s r.tables := by
  unfold Tables.sndLoop at h
  split_ifs at h
  · cases h
    exact Keeps.refl s
  · cases h
    exact Keeps.put rfl rfl (alloc_setMode (alloc_or _ (by decide)))
  · unfold Tables.enqueue at h
    cases hspot : (s.lock i true).freeSpot with
    | none =>
      rw [hspot] at h
      cases h
      exact Keeps.refl s
    | some spot =>
      rw [hspot] at h
      cases hk : c.kMsg with
      | none =>
        simp only [hk] at h
        cases h
        exact Keeps.refl s
      | some addr =>
        simp only [hk] at h
        split_ifs at h <;> cases h
        · exact Keeps.refl s
        · exact Keeps.refl s
        · exact Keeps.put rfl rfl fun hal => alloc_setMode (clearBits_and _ (by decide)) hal
        · exact Keeps.put rfl rfl fun hal => hal

theorem Keeps.rcvLoop {msgsz msgtyp : ℤ} {msgflg : ℕ} {r : Result t}
    (h : s.rcvLoop c i msgsz msgtyp msgflg = some r) : Keeps s r.tables := by
  unfold Tables.rcvLoop at h
  by_cases hgate : s.gate i = true
  · rw [if_pos hgate] at h
    cases h
  rw [if_neg hgate] at h
  cases hsel : select msgtyp (s.msqs i).msgs with
  | none =>
    rw [hsel] at h
    simp only at h
    split_ifs at h <;> cases h
    · exact Keeps.refl s
    · exact Keeps.put rfl rfl (alloc_setMode (alloc_or _ (by decide)))
  | some r' =>
    obtain ⟨k, mp⟩ := r'
    rw [hsel] at h
    cases h
    have hmode : (s.msqs i).alloc = true → (((s.msqs i).remove c k mp).setMode
        (clearBits ((s.msqs i).remove c k mp).msgPerm.mode MSG_WWAIT)).alloc = true :=
      fun hal => alloc_setMode (clearBits_and _ (by decide)) hal
    unfold Tables.dequeue
    simp only
    split_ifs
    · exact Keeps.refl s
    · exact Keeps.refl s
    · exact Keeps.put rfl rfl hmode
    · exact Keeps.put rfl rfl fun hal => hal
    · exact Keeps.put rfl rfl hmode
    · exact Keeps.put rfl rfl fun hal => hal

/-- **Identifiers in a step.** A step keeps the slots, or it removes one queue. -/
theorem step_ids {e : Event} (h : s.step e = some s') :
    Keeps s s' ∨ ∃ i, Removes s i e ∧ (s'.msqs i).alloc = false ∧
      s'.id i = (ushort (s.id i + 50)).val ∧
      ∀ j, j ≠ i → s'.id j = s.id j ∧ ((s.msqs j).alloc = true → (s'.msqs j).alloc = true) := by
  obtain ⟨r, hr, rfl⟩ := Option.map_eq_some_iff.mp h
  cases e with
  | get c mykey msgflg =>
    cases hr
    exact Or.inl (Keeps.umsgget s c mykey msgflg)
  | ctl c qid cmd =>
    cases hr
    unfold Tables.umsgctl
    cases hslot : s.ctlSlot c qid cmd with
    | none => exact Or.inl (Keeps.refl s)
    | some i =>
      cases cmd with
      | IPC_STAT =>
        left
        simp only
        split_ifs <;> exact Keeps.refl s
      | IPC_SET buf => exact Or.inl (Keeps.ipcSet s c i buf)
      | other => exact Or.inl (Keeps.refl s)
      | IPC_RMID =>
        simp only [Tables.ipcRmid]
        split_ifs with howner
        · exact Or.inl (Keeps.refl s)
        · refine Or.inr ⟨i, ⟨rfl, hslot, not_not.mp howner⟩, ?_, ?_, fun j hj => ?_⟩
          · simp [Tables.put, MsqidDs.alloc]
          · simp only [Tables.put, Tables.id, Function.update_self]
          · simp only [Tables.put, Tables.id, Function.update_of_ne hj]
            exact ⟨trivial, fun hal => hal⟩
  | snd c qid m msgsz msgflg =>
    left
    rw [Tables.call] at hr
    split_ifs at hr
    unfold Tables.umsgsnd at hr
    cases hslot : s.sndSlot qid with
    | none =>
      rw [hslot] at hr
      cases hr
      exact Keeps.refl s
    | some i =>
      rw [hslot] at hr
      simp only at hr
      split_ifs at hr
      · cases hr
        exact Keeps.refl s
      · cases hr
        exact Keeps.refl s
      · exact Keeps.sndLoop hr
  | sndWake c i qid m msgsz msgflg signalled =>
    left
    rw [Tables.call] at hr
    split_ifs at hr
    unfold Tables.umsgsndWake at hr
    split_ifs at hr
    · cases hr
      exact Keeps.refl s
    · cases hr
      exact Keeps.refl s
    · exact Keeps.sndLoop hr
  | rcv c qid msgsz msgtyp msgflg =>
    left
    rw [Tables.call, Tables.umsgrcv] at hr
    cases hslot : s.rcvSlot qid with
    | none =>
      rw [hslot] at hr
      cases hr
      exact Keeps.refl s
    | some i =>
      rw [hslot] at hr
      simp only at hr
      split_ifs at hr
      · cases hr
        exact Keeps.refl s
      · exact Keeps.rcvLoop hr
  | rcvWake c i qid msgsz msgtyp msgflg signalled =>
    left
    rw [Tables.call] at hr
    split_ifs at hr
    unfold Tables.umsgrcvWake at hr
    split_ifs at hr
    · cases hr
      exact Keeps.refl s
    · cases hr
      exact Keeps.refl s
    · exact Keeps.rcvLoop hr

/-! ### Residue classes -/

/-- Every slot has a number of its own residue class. -/
def Congruent (s : Tables t) : Prop := ∀ i < t.NMSQID, s.id i % t.NMSQID = i ∧ s.id i < 2 ^ 16

theorem Congruent.step (h50 : 50 % t.NMSQID = 0) (hc : Congruent s) {e : Event}
    (hok : ¬ Wraps s e) (h : s.step e = some s') : Congruent s' := by
  intro j hj
  rcases step_ids h with hk | ⟨i, hrem, -, hid, hother⟩
  · rw [(hk j).1]
    exact hc j hj
  · by_cases hji : j = i
    · subst hji
      have hlt : s.id j + 50 < 2 ^ 16 := by
        by_contra hge
        exact hok ⟨j, hrem, by omega⟩
      have hval := ushort_val (s.id j + 50)
      have hid' : s'.id j = s.id j + 50 := by omega
      rw [hid']
      exact ⟨by rw [Nat.add_mod, h50, Nat.add_zero, Nat.mod_mod, (hc j hj).1], hlt⟩
    · rw [(hother j hji).1]
      exact hc j hj

/-- Two slots of one number are one slot. -/
theorem Congruent.inj (hc : Congruent s) {j : ℕ} (hi : i < t.NMSQID) (hj : j < t.NMSQID)
    (h : s.id i = s.id j) : i = j := by
  rw [← (hc i hi).1, ← (hc j hj).1, h]

theorem Congruent.names (hc : Congruent s) (hi : i < t.NMSQID) (hal : (s.msqs i).alloc = true) :
    Names s (s.id i) i := by
  have hseq : ((s.msqs i).msgPerm.seq : ℤ) = (s.id i : ℤ) := rfl
  have hmod : ((s.id i : ℤ).toNat) % t.NMSQID = i := by
    rw [Int.toNat_natCast, (hc i hi).1]
  refine ⟨?_, ?_, fun c cmd => ?_⟩
  · cases hfind : s.sndSlot (s.id i) with
    | none =>
      have := List.find?_eq_none.mp hfind i (List.mem_range.mpr hi)
      exact absurd (decide_eq_true hseq) this
    | some j =>
      have hsome := List.find?_some hfind
      have hj : ((s.msqs j).msgPerm.seq : ℤ) = s.id i := of_decide_eq_true hsome
      rw [hc.inj (sndSlot_lt hfind) hi (by exact_mod_cast hj)]
  · unfold Tables.rcvSlot
    rw [if_neg (by omega)]
    simp only [hmod, hal]
    rw [if_neg (by simp [hseq])]
  · unfold Tables.ctlSlot
    rw [if_neg (by omega)]
    simp only [hmod, hal]
    rw [if_neg (by simp [hseq])]

theorem rejects_of_forall {id : ℕ} (h : ∀ j < t.NMSQID, s.id j ≠ id) : Rejects s id := by
  have hseq : ((s.msqs (id % t.NMSQID)).msgPerm.seq : ℤ) ≠ (id : ℤ) := fun heq =>
    h _ (Nat.mod_lt _ t.nmsqid_pos) (by exact_mod_cast heq)
  refine ⟨?_, ?_, fun c cmd hcmd => ?_⟩
  · refine List.find?_eq_none.mpr fun j hj heq => ?_
    have hj' : ((s.msqs j).msgPerm.seq : ℤ) = id := of_decide_eq_true heq
    exact h j (List.mem_range.mp hj) (by exact_mod_cast hj')
  · unfold Tables.rcvSlot
    rw [if_neg (by omega)]
    simp only [Int.toNat_natCast]
    rw [if_pos (Or.inl hseq)]
  · unfold Tables.ctlSlot
    rw [if_neg (by omega)]
    simp only [Int.toNat_natCast]
    rw [if_pos ⟨Or.inl hseq, hcmd⟩]

/-- The number of slot `i` has gone past the identifier. -/
def Past (s : Tables t) (i id : ℕ) : Prop := Congruent s ∧ i < t.NMSQID ∧ id % t.NMSQID = i ∧
    id < s.id i

theorem Past.rejects {id : ℕ} (h : Past s i id) : Rejects s id := by
  obtain ⟨hc, hi, hmod, hlt⟩ := h
  refine rejects_of_forall fun j hj heq => ?_
  have hji : j = i := by rw [← (hc j hj).1, heq, hmod]
  subst hji
  omega

theorem Past.step (h50 : 50 % t.NMSQID = 0) {id : ℕ} (hp : Past s i id) {e : Event}
    (hok : ¬ Wraps s e) (h : s.step e = some s') : Past s' i id := by
  obtain ⟨hc, hi, hmod, hlt⟩ := hp
  refine ⟨hc.step h50 hok h, hi, hmod, ?_⟩
  rcases step_ids h with hk | ⟨j, hrem, -, hid, hother⟩
  · rw [(hk i).1]
    exact hlt
  · by_cases hji : i = j
    · subst hji
      have hval := ushort_val (s.id i + 50)
      have hno : s.id i + 50 < 2 ^ 16 := by
        by_contra hge
        exact hok ⟨i, hrem, by omega⟩
      omega
    · rw [(hother i hji).1]
      exact hlt

/-- The queue in slot `i` has the identifier. -/
def Live (s : Tables t) (i id : ℕ) : Prop :=
  Congruent s ∧ i < t.NMSQID ∧ (s.msqs i).alloc = true ∧ s.id i = id

theorem Live.step (h50 : 50 % t.NMSQID = 0) {id : ℕ} (hl : Live s i id) {e : Event}
    (hok : ¬ Wraps s e ∧ ¬ Removes s i e) (h : s.step e = some s') : Live s' i id := by
  obtain ⟨hc, hi, hal, hid⟩ := hl
  refine ⟨hc.step h50 hok.1 h, hi, ?_⟩
  rcases step_ids h with hk | ⟨j, hrem, -, -, hother⟩
  · exact ⟨(hk i).2 hal, (hk i).1.trans hid⟩
  · have hji : i ≠ j := fun heq => hok.2 (heq ▸ hrem)
    exact ⟨(hother i hji).2 hal, (hother i hji).1.trans hid⟩

/-- A removal adds 50 to the number of its slot. -/
theorem removes_id {e : Event} (hrem : Removes s i e) (h : s.step e = some s') :
    s'.id i = (ushort (s.id i + 50)).val := by
  cases e with
  | ctl c qid cmd =>
    obtain ⟨hcmd, hslot, howner⟩ := hrem
    cases cmd with
    | IPC_RMID =>
      obtain ⟨r, hr, rfl⟩ := Option.map_eq_some_iff.mp h
      cases hr
      simp only [Tables.umsgctl, hslot, Tables.ipcRmid]
      rw [if_neg (not_not.mpr howner)]
      simp only [Tables.put, Tables.id, Function.update_self]
    | _ => cases hcmd
  | _ => cases hrem

theorem Live.removed (h50 : 50 % t.NMSQID = 0) {id : ℕ} (hl : Live s i id) {e : Event}
    (hok : ¬ Wraps s e) (hrem : Removes s i e) (h : s.step e = some s') : Past s' i id := by
  obtain ⟨hc, hi, hal, rfl⟩ := hl
  refine ⟨hc.step h50 hok h, hi, (hc i hi).1, ?_⟩
  have hval := ushort_val (s.id i + 50)
  have hid := removes_id hrem h
  have hno : s.id i + 50 < 2 ^ 16 := by
    by_contra hge
    exact hok ⟨i, hrem, by omega⟩
  omega

/-! ### `msgget` -/

theorem congruent_msginit (mem : InitMem) (NMSQB now : ℕ) :
    Congruent (msginit t mem NMSQB now) := by
  intro i hi
  have := t.nmsqid_le
  exact ⟨Nat.mod_eq_of_lt hi, show i < 2 ^ 16 by omega⟩

/-- The identifier that `msgget` returns is the one of an allocated queue. -/
theorem msgget_live (hc : Congruent s) {mykey : ℤ} {msgflg id : ℕ} (h50 : 50 % t.NMSQID = 0)
    (h : (s.umsgget c mykey msgflg).outcome = .done id none) :
    ∃ i, Live (s.umsgget c mykey msgflg).tables i id := by
  have hc' : Congruent (s.umsgget c mykey msgflg).tables :=
    hc.step h50 (fun ⟨_, hrem, _⟩ => hrem) (show s.step (.get c mykey msgflg) = _ from rfl)
  revert h hc'
  unfold Tables.umsgget
  cases hkey : s.keyed mykey with
  | some i =>
    simp only
    split_ifs
    · intro h
      cases h
    · intro h
      cases h
    · intro h hc'
      have hsome := List.find?_some hkey
      have hal := (of_decide_eq_true hsome).1
      have hlt := List.mem_range.mp (List.mem_of_find?_eq_some hkey)
      refine ⟨i, hc', hlt, hal, ?_⟩
      simp only [Outcome.done.injEq, and_true] at h
      exact_mod_cast h
  | none =>
    simp only
    split_ifs
    · intro h
      cases h
    cases hfree : s.oldestFree with
    | none =>
      intro h
      cases h
    | some i =>
      intro h hc'
      refine ⟨i, hc', (oldestFree_free hfree).1, ?_, ?_⟩
      · simp only [Tables.put, Function.update_self, MsqidDs.alloc, decide_eq_true_eq]
        exact ipcPermInit_alloc _ _ _ _
      · simp only [Outcome.done.injEq, and_true] at h
        simp only [Tables.put, Tables.id, Function.update_self]
        exact_mod_cast h

/-- **Identifiers.** When `NMSQID` divides 50 and no removal carries a number past 65535, an
    identifier that `msgget` returns names its queue in all calls until the queue is removed, and
    afterwards no call accepts it, but for the super-user's `IPC_STAT`. -/
theorem msgget_id_names (h50 : 50 % t.NMSQID = 0)
    (hs : Reach (Init fun _ => True) Tables.step (fun s e => ¬ Wraps s e) s) (c : Ctx) (mykey : ℤ)
    (msgflg id : ℕ) (h : (s.umsgget c mykey msgflg).outcome = .done id none) :
    ∃ i < t.NMSQID,
      (∀ s₂, After Tables.step (fun s e => ¬ Wraps s e ∧ ¬ Removes s i e)
        (s.umsgget c mykey msgflg).tables s₂ → Names s₂ id i) ∧
      ∀ s₂ e s₃ s₄, After Tables.step (fun s e => ¬ Wraps s e ∧ ¬ Removes s i e)
          (s.umsgget c mykey msgflg).tables s₂ → Removes s₂ i e → ¬ Wraps s₂ e →
        s₂.step e = some s₃ → After Tables.step (fun s e => ¬ Wraps s e) s₃ s₄ →
        Rejects s₄ id := by
  have hc : Congruent s := by
    refine hs.invariant ?_ fun s e s' hc hok hs => hc.step h50 hok hs
    rintro s ⟨mem, NMSQB, now, -, rfl⟩
    exact congruent_msginit mem NMSQB now
  obtain ⟨i, hl⟩ := msgget_live hc h50 h
  have hstep : ∀ s e s', Live s i id → ¬ Wraps s e ∧ ¬ Removes s i e →
      Tables.step s e = some s' → Live s' i id := fun s e s' hl hok hs => hl.step h50 hok hs
  have hlive : ∀ s₂, After Tables.step (fun s e => ¬ Wraps s e ∧ ¬ Removes s i e)
      (s.umsgget c mykey msgflg).tables s₂ → Live s₂ i id := fun s₂ ha => ha.invariant hstep hl
  refine ⟨i, hl.2.1, fun s₂ ha => ?_, fun s₂ e s₃ s₄ ha hrem hok hstep ha' => ?_⟩
  · obtain ⟨hc₂, hi, hal, rfl⟩ := hlive s₂ ha
    exact hc₂.names hi hal
  · have hpast : Past s₃ i id := (hlive s₂ ha).removed h50 hok hrem hstep
    have hkeep : ∀ s e s', Past s i id → ¬ Wraps s e → Tables.step s e = some s' →
        Past s' i id := fun s e s' hp hok hs => hp.step h50 hok hs
    exact (ha'.invariant hkeep hpast).rejects

/-- The first queue of two. -/
theorem msgget_id_names_first :
    (twoQueues.umsgget (rootCtx 0 0) 7 0o1666).outcome = .done 0 none ∧
      Names (twoQueues.umsgget (rootCtx 0 0) 7 0o1666).tables 0 0 := by
  have heval : (twoQueues.umsgget (rootCtx 0 0) 7 0o1666).outcome = .done (0 : ℕ) none := by
    decide +kernel
  have hinit : Reach (Init fun _ => True) Tables.step (fun s e => ¬ Wraps s e) twoQueues :=
    Reach.init ⟨_, _, _, trivial, rfl⟩
  obtain ⟨i, hi, hnames, -⟩ := msgget_id_names (by decide) hinit (rootCtx 0 0) 7 0o1666 0 heval
  have h := hnames _ Relation.ReflTransGen.refl
  have hzero : (twoQueues.umsgget (rootCtx 0 0) 7 0o1666).tables.sndSlot ((0 : ℕ) : ℤ) =
      some 0 := by
    decide +kernel
  rw [h.snd] at hzero
  cases hzero
  exact ⟨heval, h⟩

/-- **After the removal** the super-user's `IPC_STAT` still takes the identifier. -/
theorem stat_accepts_removed : ∃ s : Tables ⟨2, by decide, by decide⟩,
    runFrom Tables.step twoQueues
      [.get (rootCtx 0 0) 7 0o1666, .ctl (rootCtx 0 0) 0 .IPC_RMID] = some s ∧
    (s.umsgctl (rootCtx 0 0) 0 .IPC_STAT).outcome = .done 0 none := by
  have heval : ((runFrom Tables.step twoQueues
      [.get (rootCtx 0 0) 7 0o1666, .ctl (rootCtx 0 0) 0 .IPC_RMID]).map fun s =>
        (s.umsgctl (rootCtx 0 0) 0 .IPC_STAT).outcome) = some (.done 0 none) := by
    decide +kernel
  exact Option.map_eq_some_iff.mp heval

end CohKernel.Msg386
