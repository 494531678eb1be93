import CohKernel.Shm.Slots
import CohKernel.Shm.Segments

namespace CohKernel.Shm

open CohKernel.Lib CohKernel.Ipc

/-!
# The release of a segment

Every call keeps the invariant of the segments and the tables, if it does not meet one of the
slips of `shm1.c`: `ushmat` admits the identifier `SHMMNI`, reads `shmids` before there is one, and
takes the slot 0 of a removed segment from the super-user; `shminit` does not clear its arrays, and
`shm_nattch` of a removed segment stays for the next one of the entry.

* `Allowed` — the actions that meet none of them;
* `Inv.step` — an allowed action keeps the invariant;
* `reachable_released` — a segment is freed once, when it is removed and its last attachment is
  gone, and no allowed call faults;
* `shmat_faults` — the slips.
-/

variable {P : Type} [Fintype P] [DecidableEq P] {t : Tune} {s s' : State P} {tb : Tables}
variable {k : ℕ}

/-! ### Processes -/

/-- The references of a process to a segment. -/
def State.held (s : State P) (p : P) (k : ℕ) : ℕ :=
  (List.finRange NSHMSEG).countP fun i => Refers k (s.shmsr (p, i))

omit [DecidableEq P] in
/-- Only the processes change. -/
theorem Inv.withProcs (h : Inv t s) (live : P → Bool) (segl : P → Fin NUSEG → SR)
    (hdead : ∀ p i, live p = false → (s.shmsr (p, i)).srSegp = none) :
    Inv t { s with live := live, segl := segl } where
  counted := h.counted
  known := h.known
  tables := fun tb htb => (h.tables tb htb).congr le_rfl (fun _ _ => rfl) fun _ _ _ _ hpos =>
    Or.inl hpos
  dead := hdead

/-- A reference to no segment is replaced by another one. -/
theorem Inv.setSr_empty (h : Inv t s) {pi : P × Fin NSHMSEG} {sr : SR}
    (hpi : (s.shmsr pi).srSegp = none) (hsr : sr.srSegp = none) : Inv t (s.setSr pi sr) := by
  have hsegp : ∀ pj, ((s.setSr pi sr).shmsr pj).srSegp = (s.shmsr pj).srSegp := by
    intro pj
    by_cases hp : pj = pi
    · subst hp
      simp only [State.setSr, Function.update_self, hsr, hpi]
    · simp only [State.setSr, Function.update_of_ne hp]
  have hatt : ∀ j, (s.setSr pi sr).attached j = s.attached j := fun j =>
    count_congr fun pj => by
      rw [Bool.eq_iff_iff, refers_iff, refers_iff, hsegp]
  refine ⟨fun j hj => ?_, fun pj j hj => h.known pj j (hsegp pj ▸ hj), fun tb htb => ?_,
    fun p i hp => (hsegp _).trans (h.dead p i hp)⟩
  · rw [hatt]
    exact h.counted j hj
  · exact (h.tables tb htb).congr le_rfl (fun _ _ => rfl) fun i _ j _ hpos => Or.inl (hatt j ▸ hpos)

theorem Inv.shmDetachP (h : Inv t s) (pi : P × Fin NSHMSEG) : Inv t (s.shmDetachP t pi) := by
  unfold State.shmDetachP
  split
  · next hpi => exact h.setSr_empty hpi rfl
  · next hpi => exact h.drop hpi

theorem Inv.shmAllDt (h : Inv t s) (p : P) : Inv t (s.shmAllDt t p) :=
  shmAllDt_induction (fun _ pi h => h.shmDetachP pi) p h

/-- The child gets a reference of its parent. -/
theorem Inv.shmDup1 (h : Inv t s) {p cp : P} {i : Fin NSHMSEG} (hlive : s.live cp = true)
    (hempty : (s.shmsr (cp, i)).srSegp = none)
    (hlt : ∀ k, (s.shmsr (p, i)).srSegp = some k → s.attached k + 1 < 2 ^ 15 - 1) :
    Inv t (s.shmDup1 p cp i) := by
  unfold State.shmDup1
  simp only
  split
  · next hnone => exact h.setSr_empty hempty hnone
  · next k hk =>
    have hpos : 0 < s.attached k := State.attached_pos hk
    exact h.refer hlive hempty hk (h.known _ k hk) (fun _ => hpos) (hlt k hk) fun tb htb i hi hi' =>
      (h.tables tb htb).noted i hi k hi' hpos

/-- The child gets all of them. -/
theorem Inv.shmDup (h : Inv t s) {p cp : P} (hne : p ≠ cp) (hlive : s.live cp = true)
    (hempty : ∀ i, (s.shmsr (cp, i)).srSegp = none)
    (hlt : ∀ k, s.attached k + s.held p k < 2 ^ 15 - 1) : Inv t (s.shmDup p cp) := by
  have hfold : ∀ (l : List (Fin NSHMSEG)) (s : State P), l.Nodup → Inv t s →
      s.live cp = true → (∀ i ∈ l, (s.shmsr (cp, i)).srSegp = none) →
      (∀ k, s.attached k + l.countP (fun i => Refers k (s.shmsr (p, i))) < 2 ^ 15 - 1) →
      Inv t (l.foldl (fun s i => s.shmDup1 p cp i) s) := by
    intro l
    induction l with
    | nil => exact fun s _ h _ _ _ => h
    | cons i l ih =>
      intro s hnodup h hlive hempty hlt
      obtain ⟨hi, hnodup⟩ := List.nodup_cons.mp hnodup
      have hempty_i := hempty i List.mem_cons_self
      have hslots := shmDup1_shmsr (s := s) p cp i
      have hparent : ∀ j, (s.shmDup1 p cp i).shmsr (p, j) = s.shmsr (p, j) := fun j => by
        rw [hslots, Function.update_of_ne fun h => hne (congrArg Prod.fst h)]
      refine ih _ hnodup (h.shmDup1 hlive hempty_i fun k hk => ?_)
        ((shmDup1_live p cp i).symm ▸ hlive)
        (fun j hj => ?_) fun k => ?_
      · have := hlt k
        rw [List.countP_cons, if_pos (refers_iff.mpr hk)] at this
        omega
      · have hji : (cp, j) ≠ (cp, i) := fun heq => hi ((Prod.mk.inj heq).2 ▸ hj)
        rw [hslots, Function.update_of_ne hji]
        exact hempty j (List.mem_cons_of_mem i hj)
      · -- the new reference is one of those that were to come
        have hcount := count_update (Refers k) s.shmsr (cp, i) (s.shmsr (p, i))
        rw [if_neg (not_refers_none hempty_i)] at hcount
        have hatt : (s.shmDup1 p cp i).attached k =
            s.attached k + if Refers k (s.shmsr (p, i)) = true then 1 else 0 := by
          unfold State.attached
          rw [hslots]
          exact hcount
        have hk := hlt k
        rw [List.countP_cons] at hk
        rw [hatt, List.countP_congr fun j _ => by rw [hparent]]
        omega
  exact hfold _ s (List.nodup_finRange NSHMSEG) h hlive (fun i _ => hempty i) hlt

/-! ### `shmget` -/

/-- What `shminit` relies on: its arrays are clear. -/
def Tables.Clear (tb : Tables) (t : Tune) : Prop :=
  ∀ i < t.SHMMNI, (tb.shmids i).shmPerm.mode = 0 ∧ (tb.shmids i).shmPerm.seq = 0 ∧
    tb.shmsegs i = none

section

omit [DecidableEq P]

/-- The tables are allocated. -/
theorem Inv.shminit (h : Inv t s) (hclear : tb.Clear t) : Inv t (s.setTables tb) where
  counted := h.counted
  known := h.known
  dead := h.dead
  tables := by
    intro tb' htb'
    cases htb'
    have hnone : ∀ i < t.SHMMNI, ∀ k, tb.shmsegs i ≠ some k := fun i hi k hk => by
      cases (hclear i hi).2.2.symm.trans hk
    exact
      { free := fun i hi _ => hclear i hi
        used := fun i hi halloc => absurd (hclear i hi).1 fun hmode => by
          rw [ShmidDs.alloc, hmode, Nat.zero_and] at halloc
          exact absurd halloc (by decide)
        known := fun i hi k hk => absurd hk (hnone i hi k)
        inj := fun i hi _ _ k hk _ => absurd hk (hnone i hi k)
        noted := fun i hi k hk _ => absurd hk (hnone i hi k) }

theorem or_alloc {m : ℕ} (h : m &&& IPC_ALLOC ≠ 0) (b : ℕ) : (m ||| b) &&& IPC_ALLOC ≠ 0 := by
  intro hzero
  rw [Nat.and_or_distrib_right, Nat.or_eq_zero_iff] at hzero
  exact h hzero.1

theorem ShmidDs.fill_alloc (ds : ShmidDs) (c : Ctx) (i : ℕ) (shmKey : ℤ) (shmSize shmFlag : ℕ) :
    (ds.fill c i shmKey shmSize shmFlag).alloc = true := by
  have hinit := ipcPermInit_alloc c.cred shmFlag shmKey i
  unfold ShmidDs.alloc ShmidDs.fill
  rw [decide_eq_true_eq]
  simp only
  split
  · exact or_alloc hinit _
  · exact hinit

theorem ShmidDs.fill_seq (ds : ShmidDs) (c : Ctx) (i : ℕ) (shmKey : ℤ) (shmSize shmFlag : ℕ) :
    (ds.fill c i shmKey shmSize shmFlag).shmPerm.seq = i := by
  unfold ShmidDs.fill
  simp only
  split <;> rfl

theorem Inv.attached_new (h : Inv t s) : s.attached s.nsegs = 0 :=
  count_eq_zero fun pi => by
    rw [Bool.eq_false_iff]
    exact not_refers fun hpi => lt_irrefl _ (h.known pi _ hpi)

/-- **A segment is made**, for a free entry. -/
theorem Inv.create (h : Inv t s) (htb : s.tables = some tb) {i : ℕ} (c : Ctx) (shmKey : ℤ)
    (shmSize shmFlag : ℕ) : Inv t (s.create tb c i shmKey shmSize shmFlag) := by
  have hatt : ∀ j, (s.create tb c i shmKey shmSize shmFlag).attached j = s.attached j := fun _ =>
      rfl
  have hsound := h.tables tb htb
  have hold : ∀ j < t.SHMMNI, ∀ k, tb.shmsegs j = some k → k ≠ s.nsegs := fun j hj k hk =>
    (hsound.known j hj k hk).1.ne
  refine ⟨fun k hk => ?_, fun pi k hk => Nat.lt_succ_of_lt (h.known pi k hk), ?_, h.dead⟩
  · by_cases hnew : k = s.nsegs
    · subst hnew
      rw [hatt, h.attached_new]
      simp only [State.create, State.setTables, State.setSeg, Function.update_self]
      exact newSeg_counted shmSize
    · rw [hatt]
      simp only [State.create, State.setTables, State.setSeg, Function.update_of_ne hnew]
      exact h.counted k (lt_of_le_of_ne (Nat.lt_succ_iff.mp hk) hnew)
  · intro tb' htb'
    cases htb'
    refine ⟨fun j hj halloc => ?_, fun j hj halloc => ?_, fun j hj k hk => ?_,
      fun j hj j' hj' k hk hk' => ?_, fun j hj k hk hpos => ?_⟩
    · by_cases hji : j = i
      · subst hji
        simp only [Tables.point, Tables.put, Function.update_self] at halloc
        exact absurd ((ShmidDs.fill_alloc _ _ _ _ _ _).symm.trans halloc) (by decide)
      · simp only [Tables.point, Tables.put, Function.update_of_ne hji] at halloc ⊢
        exact hsound.free j hj halloc
    · by_cases hji : j = i
      · subst hji
        simp only [Tables.point, Tables.put, Function.update_self]
        exact ⟨ShmidDs.fill_seq _ _ _ _ _ _, _, rfl⟩
      · simp only [Tables.point, Tables.put, Function.update_of_ne hji] at halloc ⊢
        exact hsound.used j hj halloc
    · by_cases hji : j = i
      · subst hji
        simp only [Tables.point, Tables.put, Function.update_self, Option.some_inj] at hk
        subst hk
        simp only [State.create, State.setTables, State.setSeg, Function.update_self]
        exact ⟨Nat.lt_succ_self _, rfl⟩
      · simp only [Tables.point, Tables.put, Function.update_of_ne hji] at hk
        simp only [State.create, State.setTables, State.setSeg,
          Function.update_of_ne (hold j hj k hk)]
        exact ⟨Nat.lt_succ_of_lt (hsound.known j hj k hk).1, (hsound.known j hj k hk).2⟩
    · by_cases hji : j = i
      · by_cases hji' : j' = i
        · exact hji.trans hji'.symm
        · subst hji
          simp only [Tables.point, Tables.put, Function.update_self, Function.update_of_ne hji',
            Option.some_inj] at hk hk'
          exact absurd hk.symm (hold j' hj' k hk')
      · by_cases hji' : j' = i
        · subst hji'
          simp only [Tables.point, Tables.put, Function.update_self, Function.update_of_ne hji,
            Option.some_inj] at hk hk'
          exact absurd hk'.symm (hold j hj k hk)
        · simp only [Tables.point, Tables.put, Function.update_of_ne hji,
            Function.update_of_ne hji'] at hk hk'
          exact hsound.inj j hj j' hj' k hk hk'
    · by_cases hji : j = i
      · subst hji
        simp only [Tables.point, Tables.put, Function.update_self, Option.some_inj] at hk
        subst hk
        rw [hatt, h.attached_new] at hpos
        exact absurd hpos (lt_irrefl 0)
      · simp only [Tables.point, Tables.put, Function.update_of_ne hji] at hk ⊢
        exact hsound.noted j hj k hk hpos

/-! ### `shmctl` -/

theorem ShmidDs.set_alloc (ds : ShmidDs) (uid gid mode : ℕ) :
    (ds.set uid gid mode).alloc = ds.alloc := by
  have hmask : IRWXUGO &&& IPC_ALLOC = 0 := by decide
  unfold ShmidDs.alloc ShmidDs.set
  simp only
  rw [Nat.and_or_distrib_right, clearBits_and _ hmask, Nat.and_assoc, hmask, Nat.and_zero,
    Nat.or_zero]

/-- The owner and the permissions of an entry are set. -/
theorem Inv.ipcSet (h : Inv t s) (htb : s.tables = some tb) {i : ℕ}
    (hset : (tb.shmids i).alloc = true) (uid gid mode : ℕ) :
    Inv t (s.setTables (tb.put i ((tb.shmids i).set uid gid mode))) where
  counted := h.counted
  known := h.known
  dead := h.dead
  tables := by
    intro tb' htb'
    cases htb'
    have hsound := h.tables tb htb
    refine ⟨fun j hj halloc => ?_, fun j hj halloc => ?_, hsound.known, hsound.inj,
      fun j hj k hk hpos => ?_⟩
    · by_cases hji : j = i
      · subst hji
        simp only [Tables.put, Function.update_self, ShmidDs.set_alloc] at halloc ⊢
        exact absurd (hset.symm.trans halloc) (by decide)
      · simp only [Tables.put, Function.update_of_ne hji] at halloc ⊢
        exact hsound.free j hj halloc
    · by_cases hji : j = i
      · subst hji
        simp only [Tables.put, Function.update_self, ShmidDs.set_alloc] at halloc ⊢
        exact hsound.used j hj halloc
      · simp only [Tables.put, Function.update_of_ne hji] at halloc ⊢
        exact hsound.used j hj halloc
    · by_cases hji : j = i
      · subst hji
        simp only [Tables.put, Function.update_self]
        exact hsound.noted j hj k hk hpos
      · simp only [Tables.put, Function.update_of_ne hji]
        exact hsound.noted j hj k hk hpos

/-- **A segment is removed**, if a segment without attachments has a count of 0. -/
theorem Inv.remove (h : Inv t s) (htb : s.tables = some tb) {i : ℕ} (hi : i < t.SHMMNI)
    (hk : tb.shmsegs i = some k)
    (hnattch : s.attached k = 0 → (tb.shmids i).shmNattch = 0) :
    Inv t ((s.setTables ((tb.put i (tb.shmids i).remove).point i none)).setSeg k
      ((s.segs k).remove (tb.shmids i).shmNattch)) := by
  have hsound := h.tables tb htb
  obtain ⟨hlt, hrm⟩ := hsound.known i hi k hk
  have hiff : (tb.shmids i).shmNattch > 0 ↔ 0 < s.attached k := by
    refine ⟨fun hpos => Nat.pos_of_ne_zero fun hzero => ?_, hsound.noted i hi k hk⟩
    rw [hnattch hzero] at hpos
    exact lt_irrefl _ hpos
  refine ⟨fun j hj => ?_, h.known, ?_, h.dead⟩
  · by_cases hjk : j = k
    · subst hjk
      simp only [State.setSeg, Function.update_self]
      exact (h.counted j hlt).remove hrm hiff
    · simp only [State.setSeg, Function.update_of_ne hjk]
      exact h.counted j hj
  · intro tb' htb'
    cases htb'
    -- the other entries have other segments
    have hne : ∀ j < t.SHMMNI, j ≠ i → ∀ k', tb.shmsegs j = some k' → k' ≠ k :=
      fun j hj hji k' hk' heq => hji (hsound.inj j hj i hi k (heq ▸ hk') hk)
    refine ⟨fun j hj halloc => ?_, fun j hj halloc => ?_, fun j hj k' hk' => ?_,
      fun j hj j' hj' k' hk' hk'' => ?_, fun j hj k' hk' hpos => ?_⟩
    · by_cases hji : j = i
      · subst hji
        simp only [Tables.point, Tables.put, Function.update_self]
        exact ⟨rfl, rfl, trivial⟩
      · simp only [Tables.point, Tables.put, Function.update_of_ne hji] at halloc ⊢
        exact hsound.free j hj halloc
    · by_cases hji : j = i
      · subst hji
        simp only [Tables.point, Tables.put, Function.update_self, ShmidDs.alloc, ShmidDs.remove,
          Nat.zero_and] at halloc
        exact absurd halloc (by decide)
      · simp only [Tables.point, Tables.put, Function.update_of_ne hji] at halloc ⊢
        exact hsound.used j hj halloc
    · by_cases hji : j = i
      · subst hji
        simp only [Tables.point, Function.update_self] at hk'
        cases hk'
      · simp only [Tables.point, Tables.put, Function.update_of_ne hji] at hk'
        simp only [State.setSeg, Function.update_of_ne (hne j hj hji k' hk')]
        exact hsound.known j hj k' hk'
    · by_cases hji : j = i
      · subst hji
        simp only [Tables.point, Function.update_self] at hk'
        cases hk'
      by_cases hji' : j' = i
      · subst hji'
        simp only [Tables.point, Function.update_self] at hk''
        cases hk''
      simp only [Tables.point, Tables.put, Function.update_of_ne hji,
        Function.update_of_ne hji'] at hk' hk''
      exact hsound.inj j hj j' hj' k' hk' hk''
    · by_cases hji : j = i
      · subst hji
        simp only [Tables.point, Function.update_self] at hk'
        cases hk'
      · simp only [Tables.point, Tables.put, Function.update_of_ne hji] at hk' ⊢
        exact hsound.noted j hj k' hk' hpos

end

/-! ### `shmat` -/

/-- **A segment is attached.** -/
theorem Inv.shmAtt (h : Inv t s) (htb : s.tables = some tb) {i : ℕ} {pi : P × Fin NSHMSEG}
    (hi : i < t.SHMMNI) (hk : tb.shmsegs i = some k) (hlive : s.live pi.1 = true)
    (hpi : (s.shmsr pi).srSegp = none) (hlt : s.attached k + 1 < 2 ^ 15 - 1) (a : Addr) (m : Made) :
    Inv t (s.shmAtt tb i pi a k m) := by
  have hsound := h.tables tb htb
  obtain ⟨hk', hrm⟩ := hsound.known i hi k hk
  have hval : ((s.segs k).addRefs 1).nattch.val = s.attached k + 1 :=
    ((h.counted k hk').add (fun htrue => absurd (hrm.symm.trans htrue) (by decide)) hlt).nattch
  have hpos : ((s.segs k).addRefs 1).nattch > 0 := by
    rw [gt_iff_lt, Fin.lt_def, hval]
    exact Nat.succ_pos _
  -- the note is stored first, so that the reference finds it
  have hnoted : Inv t (s.setTables (tb.setNattch i ((s.segs k).addRefs 1).nattch)) := by
    refine ⟨h.counted, h.known, fun tb' htb' => ?_, h.dead⟩
    cases htb'
    exact (hsound.setNattch fun _ _ _ => hpos).congr le_rfl (fun _ _ => rfl) fun _ _ _ _ h =>
      Or.inl h
  refine hnoted.refer hlive hpi rfl hk' (fun htrue => absurd (hrm.symm.trans htrue) (by decide)) hlt
    fun tb' htb' j hj hj' => ?_
  cases htb'
  obtain rfl : j = i := hsound.inj j hj i hi k hj' hk
  simp only [Tables.setNattch, Tables.put, Function.update_self]
  exact hpos

/-! ### Steps -/

/-- The actions that meet none of the slips. -/
def Allowed (t : Tune) (s : State P) : Event P → Prop
  | .shmget _ c _ _ _ => s.tables = none → ∀ tb, c.tables = some tb → tb.Clear t
  | .shmat _ c sysId _ _ =>
      (s.tables = none → sysId.val < 0 ∨ (t.SHMMNI : ℤ) < sysId.val) ∧ sysId.val ≠ t.SHMMNI ∧
        ∀ tb, s.tables = some tb →
          ¬(super c = true ∧ sysId.val = 0 ∧ (tb.shmids 0).alloc = false) ∧
          ∀ k, tb.shmsegs sysId.val.toNat = some k → s.attached k + 1 < 2 ^ 15 - 1
  | .shmctl _ _ shmId .IPC_RMID => ∀ tb k, s.tables = some tb →
      tb.shmsegs shmId.val.toNat = some k → s.attached k = 0 →
        (tb.shmids shmId.val.toNat).shmNattch = 0
  | .fork p _ => ∀ k, s.attached k + s.held p k < 2 ^ 15 - 1
  | _ => True

omit [DecidableEq P] in
theorem Inv.ushmget (h : Inv t s) {p : P} {c : Ctx} {shmKey shmSize : CInt} {shmFlag : ℕ}
    (hok : Allowed t s (.shmget p c shmKey shmSize shmFlag)) {v : ℤ} {e : Option Errno}
    (hs : s.ushmget t c shmKey shmSize shmFlag = .done s' v e) : Inv t s' := by
  have hsearch : ∀ (s₀ : State P) (tb : Tables), Inv t s₀ → s₀.tables = some tb →
      s₀.shmSearch t tb c shmKey.val shmSize.val.toNat shmFlag = .done s' v e → Inv t s' := by
    intro s₀ tb h htb hs
    rcases shmSearch_cases s₀ t tb c shmKey.val shmSize.val.toNat shmFlag with
      hfault | ⟨_, _, hsame⟩ | ⟨i, _, hnew⟩
    · cases hfault.symm.trans hs
    · cases hsame.symm.trans hs
      exact h
    · cases hnew.symm.trans hs
      exact h.create htb c shmKey.val shmSize.val.toNat shmFlag
  rcases ushmget_cases s t c shmKey shmSize shmFlag with ⟨e', hfail⟩ | ⟨tb, htb, heq⟩ |
    ⟨tb, htb, hmem, heq⟩
  · cases hfail.symm.trans hs
    exact h
  · exact hsearch s tb h htb (heq.symm.trans hs)
  · exact hsearch _ tb (h.shminit (hok htb tb hmem)) rfl (heq.symm.trans hs)

omit [DecidableEq P] in
/-- An allowed `shmat` that does not fail attaches the segment of an allocated entry. -/
theorem Inv.attaches_alloc (h : Inv t s) {p : P} {c : Cred} {sysId : CInt} {shmAddr : Addr}
    {shmFlag : ℕ} (hok : Allowed t s (.shmat p c sysId shmAddr shmFlag)) (htb : s.tables = some tb)
    {i : ℕ} (hi : i < t.SHMMNI) (hid : (i : ℤ) = sysId.val) (hseq : (tb.shmids i).shmPerm.seq = i)
    (hperm : ipcLackPerm c (tb.shmids i).shmPerm (shmatMode shmFlag) = false) :
    (tb.shmids i).alloc = true := by
  rw [← Bool.not_eq_false]
  intro hfree
  obtain ⟨hmode, hzero, _⟩ := (h.tables tb htb).free i hi hfree
  obtain rfl : i = 0 := hseq.symm.trans hzero
  refine (hok.2.2 tb htb).1 ⟨?_, hid.symm, hfree⟩
  -- no permission is granted by an empty mode
  have hlevel : ∀ l, permExtract 0 l = 0 := fun l => Nat.zero_shiftRight _
  have hbits : shmatMode shmFlag &&& IRWXUGO ≠ 0 := by
    unfold shmatMode
    split <;> decide
  unfold ipcLackPerm at hperm
  rw [if_neg hbits, hmode] at hperm
  simp only [hlevel, Nat.zero_and] at hperm
  split at hperm
  · next hmode' => exact absurd hmode'.2.symm hmode'.1
  · simpa using hperm

theorem Inv.pexit (h : Inv t s) (p : P) : Inv t (s.pexit t p) := by
  refine (h.shmAllDt p).withProcs _ _ fun q i hq => ?_
  rw [shmAllDt_shmsr]
  by_cases hqp : q = p
  · rw [if_pos hqp]
    rfl
  · rw [if_neg hqp]
    rw [Function.update_of_ne hqp] at hq
    exact h.dead q i hq

theorem Inv.pfork (h : Inv t s) {p cp : P} (hp : s.live p = true) (hcp : s.live cp = false)
    (hlt : ∀ k, s.attached k + s.held p k < 2 ^ 15 - 1) : Inv t (s.pfork p cp) := by
  have hne : p ≠ cp := fun heq => absurd (hp.symm.trans (heq ▸ hcp)) (by decide)
  refine (h.withProcs (Function.update s.live cp true) _ fun q i hq => ?_).shmDup hne
    (Function.update_self cp true s.live) (h.dead cp · hcp) hlt
  by_cases hqc : q = cp
  · exact hqc ▸ h.dead cp i hcp
  · rw [Function.update_of_ne hqc] at hq
    exact h.dead q i hq

theorem Inv.pexece (h : Inv t s) (p : P) (segl : Fin NUSEG → SR) : Inv t (s.pexece t p segl) :=
  (h.shmAllDt p).withProcs _ _ (h.shmAllDt p).dead

/-- **An allowed action keeps the invariant.** -/
theorem Inv.step {e : Event P} (h : Inv t s) (hok : Allowed t s e) (hs : step t s e = some s') :
    Inv t s' := by
  unfold Shm.step at hs
  split at hs
  case isFalse => cases hs
  next hlive =>
  cases e with
  | shmget p c shmKey shmSize shmFlag =>
    simp only [State.outcome] at hs
    cases hr : s.ushmget t c shmKey shmSize shmFlag with
    | fault => rw [hr] at hs; cases hs
    | done s₁ v err =>
      rw [hr] at hs
      cases hs
      exact h.ushmget hok hr
  | shmat p c sysId shmAddr shmFlag =>
    simp only [State.outcome] at hs
    rcases ushmat_cases t s p c sysId shmAddr shmFlag with ⟨hfault, _⟩ | ⟨_, hfail⟩ |
      ⟨tb, i, segId, a, k, hatt, hdone⟩
    · rw [hfault] at hs
      cases hs
    · rw [hfail] at hs
      cases hs
      exact h
    · rw [hdone] at hs
      cases hs
      have hk := segAt_eq hatt.segp
      refine h.shmAtt hatt.tables hatt.lt hk hlive (freeSlot_empty hatt.slot) ?_ a _
      refine (hok.2.2 tb hatt.tables).2 k ?_
      rw [← hatt.id]
      exact hk
  | shmctl p c shmId cmd =>
    simp only [State.outcome] at hs
    rcases ushmctl_cases s t c shmId cmd with ⟨_, _, hsame⟩ |
      ⟨tb, i, htb, hi, hid, halloc, ⟨_, _, _, hset⟩ | ⟨rfl, hrm⟩⟩
    · rw [hsame] at hs
      cases hs
      exact h
    · rw [hset] at hs
      cases hs
      exact h.ipcSet htb halloc _ _ _
    · rw [hrm] at hs
      obtain ⟨_, k, hk⟩ := (h.tables tb htb).used i hi halloc
      have hlt := ((h.tables tb htb).known i hi k hk).1
      unfold State.ipcRmid at hs
      simp only [hk, if_pos hlt] at hs
      cases hs
      refine h.remove htb hi hk fun hzero => ?_
      have hnat : shmId.val.toNat = i := by omega
      have := hok tb k htb (hnat.symm ▸ hk) hzero
      rwa [hnat] at this
  | shmdt p shmAddr =>
    simp only [State.outcome, State.ushmdt] at hs
    split at hs
    · cases hs
      exact h
    · cases hs
      exact h.shmDetachP _
  | brk p cp room =>
    simp only [State.outcome, State.ubrk] at hs
    split_ifs at hs <;> cases hs
    · exact h
    · exact h
    · exact h
    · exact h.withProcs s.live _ h.dead
  | growStack p =>
    cases hs
    exact h.withProcs s.live _ h.dead
  | fork p cp =>
    simp only [State.outcome] at hs
    split at hs
    · cases hs
      exact h
    · next hcp =>
      cases hs
      exact h.pfork hlive (Bool.eq_false_of_not_eq_true hcp) hok
  | exec p segl =>
    cases hs
    exact h.pexece p segl
  | exit p =>
    cases hs
    exact h.pexit p

/-! ### Runs -/

/-- What holds of the segments of a state, and of the calls that are `ok` in it: a segment is freed
    once, exactly when it has been removed and its last attachment is gone; `shmat` does not fault,
    and only attaches the segment of an allocated entry; and `shmctl` does not fault. -/
structure Orderly (t : Tune) (s : State P) (ok : Event P → Prop) : Prop where
  freed : ∀ k < s.nsegs, (s.segs k).freed =
    if (s.segs k).removed = true ∧ s.attached k = 0 then 1 else 0
  shmat : ∀ p c sysId shmAddr shmFlag, ok (.shmat p c sysId shmAddr shmFlag) →
    s.ushmat t p c sysId shmAddr shmFlag ≠ .fault ∧
    ∀ s' v, s.ushmat t p c sysId shmAddr shmFlag = .done s' v none →
      ∃ tb k, s.tables = some tb ∧ 0 ≤ sysId.val ∧ sysId.val < t.SHMMNI ∧
        (tb.shmids sysId.val.toNat).alloc = true ∧ tb.shmsegs sysId.val.toNat = some k ∧
        k < s.nsegs ∧ (s.segs k).freed = 0
  shmctl : ∀ p c shmId cmd, ok (.shmctl p c shmId cmd) → s.ushmctl t c shmId cmd ≠ .fault

omit [DecidableEq P] in
theorem Inv.freed (h : Inv t s) (hk : k < s.nsegs) : (s.segs k).freed =
    if (s.segs k).removed = true ∧ s.attached k = 0 then 1 else 0 := by
  have hcounted := h.counted k hk
  split
  · next hgone => exact hcounted.gone hgone.1 hgone.2
  · next hheld =>
    refine hcounted.held ?_
    cases hrm : (s.segs k).removed with
    | false => exact Or.inl rfl
    | true => exact Or.inr (Nat.pos_of_ne_zero fun hzero => hheld ⟨hrm, hzero⟩)

theorem Inv.shmat_ne_fault (h : Inv t s) {p : P} {c : Cred} {sysId : CInt} {shmAddr : Addr}
    {shmFlag : ℕ} (hok : Allowed t s (.shmat p c sysId shmAddr shmFlag)) :
    s.ushmat t p c sysId shmAddr shmFlag ≠ .fault := by
  intro hfault
  rcases ushmat_cases t s p c sysId shmAddr shmFlag with
    ⟨_, hlo, hhi, hnone | hid | ⟨tb, i, htb, hi, hid, hseq, hperm, hsegp⟩⟩ | ⟨_, hfail⟩ |
    ⟨_, _, _, _, _, _, hdone⟩
  · rcases hok.1 hnone with hlt | hlt <;> omega
  · exact hok.2.1 hid
  · have halloc := h.attaches_alloc hok htb hi hid hseq hperm
    obtain ⟨_, k, hk⟩ := (h.tables tb htb).used i hi halloc
    have hlt := ((h.tables tb htb).known i hi k hk).1
    rw [State.segAt, hk, Option.filter_some, if_pos (decide_eq_true hlt)] at hsegp
    cases hsegp
  · cases hfail.symm.trans hfault
  · cases hdone.symm.trans hfault

theorem Inv.orderly (h : Inv t s) : Orderly t s (Allowed t s) where
  freed := fun _ hk => h.freed hk
  shmat := by
    intro p c sysId shmAddr shmFlag hok
    refine ⟨h.shmat_ne_fault hok, fun s' v hdone => ?_⟩
    rcases ushmat_cases t s p c sysId shmAddr shmFlag with ⟨hfault, _⟩ | ⟨_, hfail⟩ |
      ⟨tb, i, segId, a, k, hatt, _⟩
    · cases hfault.symm.trans hdone
    · cases hfail.symm.trans hdone
    · have hk := segAt_eq hatt.segp
      have hid := hatt.id
      have hlt := hatt.lt
      have hsound := h.tables tb hatt.tables
      obtain ⟨hks, hrm⟩ := hsound.known i hatt.lt k hk
      obtain rfl : sysId.val.toNat = i := by omega
      exact ⟨tb, k, hatt.tables, by omega, by omega,
        h.attaches_alloc hok hatt.tables hatt.lt hatt.id hatt.seq hatt.perm, hk, hks,
        (h.counted k hks).held (Or.inl hrm)⟩
  shmctl := by
    intro _ c shmId cmd _ hfault
    rcases ushmctl_cases s t c shmId cmd with ⟨_, _, hsame⟩ |
      ⟨tb, i, htb, hi, _, halloc, ⟨_, _, _, hset⟩ | ⟨_, hrm⟩⟩
    · cases hsame.symm.trans hfault
    · cases hset.symm.trans hfault
    · obtain ⟨_, k, hk⟩ := (h.tables tb htb).used i hi halloc
      have hlt := ((h.tables tb htb).known i hi k hk).1
      have := hrm.symm.trans hfault
      unfold State.ipcRmid at this
      simp only [hk, if_pos hlt] at this
      cases this

omit [DecidableEq P] in
theorem Inv.initial (h : Initial s) : Inv t s where
  counted := fun k hk => absurd (h.2.1 ▸ hk) (Nat.not_lt_zero k)
  known := fun pi k hk => by
    rw [h.2.2 pi] at hk
    cases hk
  tables := fun tb htb => by cases h.1.symm.trans htb
  dead := fun p i _ => by rw [h.2.2 (p, i), SR.none]

/-- **Release.**  In every run of allowed actions, by any number of processes, a segment is freed
    once, exactly when it has been removed and its last attachment is gone; and in every state that
    is reached the allowed calls do not fault, and attach only segments of allocated entries. -/
theorem reachable_released (h : Reach Initial (step t) (Allowed t) s) :
    Orderly t s (Allowed t s) := by
  have hinv : Inv t s :=
    h.invariant (fun _ => Inv.initial) fun _ _ _ hinv hok hs => hinv.step hok hs
  exact hinv.orderly

/-- A segment is made and removed. -/
theorem reachable_released_removed : ∃ s : State (Fin 2), s.nsegs = 1 ∧ (s.segs 0).freed = 1 := by
  obtain ⟨s₁, hget, htb, hatt⟩ : ∃ s₁ : State (Fin 2), step smallTune (alone (0 : Fin 2))
      (.shmget 0 (getCtx 9) ⟨7, by decide⟩ ⟨4096, by decide⟩ 0o1666) = some s₁ ∧
      s₁ = ((alone 0).setTables clearTables).create clearTables (getCtx 9) 0 7 4096 0o1666 ∧
      s₁.attached 0 = 0 := ⟨_, rfl, rfl, by decide +kernel⟩
  obtain ⟨s₂, hrm, hn, hremoved, hnone⟩ : ∃ s₂ : State (Fin 2), step smallTune s₁
      (.shmctl 0 root ⟨0, by decide⟩ .IPC_RMID) = some s₂ ∧ s₂.nsegs = 1 ∧
      (s₂.segs 0).removed = true ∧ s₂.attached 0 = 0 := by
    subst htb
    exact ⟨_, rfl, rfl, rfl, by decide +kernel⟩
  have hget_ok : Allowed smallTune (alone (0 : Fin 2))
      (.shmget 0 (getCtx 9) ⟨7, by decide⟩ ⟨4096, by decide⟩ 0o1666) := by
    intro _ tb htb i _
    cases htb
    exact ⟨rfl, rfl, rfl⟩
  have hrm_ok : Allowed smallTune s₁ (.shmctl 0 root ⟨0, by decide⟩ .IPC_RMID) := by
    intro tb k htb' _ _
    subst htb
    cases htb'
    rfl
  have horderly := reachable_released
    (((Reach.init (alone_initial 0)).step hget_ok hget).step hrm_ok hrm)
  refine ⟨s₂, hn, ?_⟩
  rw [horderly.freed 0 (by omega), if_pos ⟨hremoved, hnone⟩]

/-- **The identifier `SHMMNI`.**  Once there is a table, `shmat` of the identifier `SHMMNI` reads
    the entry behind it. -/
theorem shmat_faults : ∃ s : State Unit, Reach Initial (step smallTune) (fun _ _ => True) s ∧
    ¬Orderly smallTune s (fun _ => True) := by
  obtain ⟨s, hget, hs⟩ : ∃ s : State Unit, step smallTune (alone ())
      (.shmget () (getCtx 9) ⟨7, by decide⟩ ⟨4096, by decide⟩ 0o1666) = some s ∧
      s.ushmat smallTune () root ⟨10, by decide⟩ 0 0 = .fault := ⟨_, rfl, rfl⟩
  refine ⟨s, (Reach.init (alone_initial ())).step trivial hget, fun h => ?_⟩
  exact (h.shmat () root ⟨10, by decide⟩ 0 0 trivial).1 hs

end CohKernel.Shm
