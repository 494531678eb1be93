import CohKernel.Shm.Defs

namespace CohKernel.Shm

open CohKernel.Lib CohKernel.Ipc

/-!
# The references of the processes

What the loops of `shmAllDt` and `shmDup` leave in `p_shmsr`, and what a call leaves as it is.

* `step_slot` — what a step does to a reference;
* `AllSegs.step` — what every segment keeps;
* `ushmat_cases`, `ushmget_cases`, `ushmctl_cases` — everything that a call can do.
-/

variable {P : Type} [DecidableEq P] {t : Tune} {s s' : State P}

/-! ### Detaching -/

theorem shmDetachP_shmsr (pi : P × Fin NSHMSEG) :
    (s.shmDetachP t pi).shmsr = Function.update s.shmsr pi SR.none := by
  unfold State.shmDetachP
  split <;> rfl

theorem shmDetachP_made (pi : P × Fin NSHMSEG) : (s.shmDetachP t pi).made = s.made := by
  unfold State.shmDetachP
  split <;> rfl

theorem shmDetachP_segl (pi : P × Fin NSHMSEG) : (s.shmDetachP t pi).segl = s.segl := by
  unfold State.shmDetachP
  split <;> rfl

theorem shmDetachP_live (pi : P × Fin NSHMSEG) : (s.shmDetachP t pi).live = s.live := by
  unfold State.shmDetachP
  split <;> rfl

/-- Detaching keeps what one turn keeps. -/
theorem shmAllDt_induction {φ : State P → Prop} (hstep : ∀ s pi, φ s → φ (s.shmDetachP t pi))
    (p : P) (h : φ s) : φ (s.shmAllDt t p) := by
  unfold State.shmAllDt
  generalize List.finRange NSHMSEG = l
  induction l generalizing s with
  | nil => exact h
  | cons i l ih => exact ih (hstep s (p, i) h)

theorem shmAllDt_made (p : P) : (s.shmAllDt t p).made = s.made :=
  shmAllDt_induction (φ := fun s' => s'.made = s.made)
    (fun _ pi h => (shmDetachP_made pi).trans h) p rfl

theorem shmAllDt_segl (p : P) : (s.shmAllDt t p).segl = s.segl :=
  shmAllDt_induction (φ := fun s' => s'.segl = s.segl)
    (fun _ pi h => (shmDetachP_segl pi).trans h) p rfl

theorem shmAllDt_live (p : P) : (s.shmAllDt t p).live = s.live :=
  shmAllDt_induction (φ := fun s' => s'.live = s.live)
    (fun _ pi h => (shmDetachP_live pi).trans h) p rfl

/-- The references of the process are cleared, and the others stay. -/
theorem shmAllDt_shmsr (p : P) (pi : P × Fin NSHMSEG) :
    (s.shmAllDt t p).shmsr pi = if pi.1 = p then SR.none else s.shmsr pi := by
  have hfold : ∀ (l : List (Fin NSHMSEG)) (s : State P),
      (l.foldl (fun s i => s.shmDetachP t (p, i)) s).shmsr pi =
        if pi.1 = p ∧ pi.2 ∈ l then SR.none else s.shmsr pi := by
    intro l
    induction l with
    | nil =>
      intro s
      rw [if_neg fun h => List.not_mem_nil h.2]
      rfl
    | cons i l ih =>
      intro s
      rw [List.foldl_cons, ih, shmDetachP_shmsr]
      by_cases hl : pi.1 = p ∧ pi.2 ∈ l
      · rw [if_pos hl, if_pos ⟨hl.1, List.mem_cons_of_mem i hl.2⟩]
      rw [if_neg hl]
      by_cases hpi : pi = (p, i)
      · subst hpi
        rw [Function.update_self, if_pos ⟨rfl, List.mem_cons_self⟩]
      · rw [Function.update_of_ne hpi, if_neg]
        rintro ⟨hp, hmem⟩
        rcases List.mem_cons.mp hmem with hi | hmem
        · exact hpi (Prod.ext hp hi)
        · exact hl ⟨hp, hmem⟩
  unfold State.shmAllDt
  rw [hfold]
  exact if_congr (and_iff_left (List.mem_finRange pi.2)) rfl rfl

/-! ### Duplicating -/

theorem shmDup1_shmsr (p cp : P) (i : Fin NSHMSEG) :
    (s.shmDup1 p cp i).shmsr = Function.update s.shmsr (cp, i) (s.shmsr (p, i)) := by
  unfold State.shmDup1
  simp only
  split <;> rfl

/-- Duplicating keeps what one turn keeps. -/
theorem shmDup_induction {φ : State P → Prop} (p cp : P)
    (hstep : ∀ s i, φ s → φ (s.shmDup1 p cp i)) (h : φ s) : φ (s.shmDup p cp) := by
  unfold State.shmDup
  generalize List.finRange NSHMSEG = l
  induction l generalizing s with
  | nil => exact h
  | cons i l ih => exact ih (hstep s i h)

theorem shmDup1_segl (p cp : P) (i : Fin NSHMSEG) : (s.shmDup1 p cp i).segl = s.segl := by
  unfold State.shmDup1
  simp only
  split <;> rfl

theorem shmDup1_live (p cp : P) (i : Fin NSHMSEG) : (s.shmDup1 p cp i).live = s.live := by
  unfold State.shmDup1
  simp only
  split <;> rfl

theorem shmDup_segl (p cp : P) : (s.shmDup p cp).segl = s.segl :=
  shmDup_induction (φ := fun s' => s'.segl = s.segl) p cp
    (fun _ i h => (shmDup1_segl p cp i).trans h) rfl

theorem shmDup_live (p cp : P) : (s.shmDup p cp).live = s.live :=
  shmDup_induction (φ := fun s' => s'.live = s.live) p cp
    (fun _ i h => (shmDup1_live p cp i).trans h) rfl

theorem shmDup1_made (p cp : P) (i : Fin NSHMSEG) :
    (s.shmDup1 p cp i).made = if (s.shmsr (p, i)).srSegp = none then s.made
      else Function.update s.made (cp, i) (s.made (p, i)) := by
  unfold State.shmDup1
  simp only
  split
  · next h => rw [if_pos h]; rfl
  · next h => rw [if_neg (by rw [h]; exact Option.some_ne_none _)]; rfl

/-- The child has the references of its parent, made in the same way. -/
theorem shmDup_slot {p cp : P} (hne : p ≠ cp) (pi : P × Fin NSHMSEG) :
    if pi.1 = cp then (s.shmDup p cp).shmsr pi = s.shmsr (p, pi.2) ∧
      ((s.shmsr (p, pi.2)).srSegp ≠ none → (s.shmDup p cp).made pi = s.made (p, pi.2))
    else (s.shmDup p cp).shmsr pi = s.shmsr pi ∧ (s.shmDup p cp).made pi = s.made pi := by
  have hfold : ∀ (l : List (Fin NSHMSEG)) (s : State P),
      if pi.1 = cp ∧ pi.2 ∈ l then
        (l.foldl (fun s i => s.shmDup1 p cp i) s).shmsr pi = s.shmsr (p, pi.2) ∧
        ((s.shmsr (p, pi.2)).srSegp ≠ none →
          (l.foldl (fun s i => s.shmDup1 p cp i) s).made pi = s.made (p, pi.2))
      else (l.foldl (fun s i => s.shmDup1 p cp i) s).shmsr pi = s.shmsr pi ∧
        (l.foldl (fun s i => s.shmDup1 p cp i) s).made pi = s.made pi := by
    intro l
    induction l with
    | nil =>
      intro s
      rw [if_neg fun h => List.not_mem_nil h.2]
      exact ⟨rfl, rfl⟩
    | cons i l ih =>
      intro s
      -- a turn leaves the parent's references as they are
      have hparent : ∀ j, (s.shmDup1 p cp i).shmsr (p, j) = s.shmsr (p, j) := fun j => by
        rw [shmDup1_shmsr, Function.update_of_ne fun h => hne (congrArg Prod.fst h)]
      have hmade : ∀ j, (s.shmDup1 p cp i).made (p, j) = s.made (p, j) := fun j => by
        rw [shmDup1_made]
        split
        · rfl
        · rw [Function.update_of_ne fun h => hne (congrArg Prod.fst h)]
      have hrest := ih (s.shmDup1 p cp i)
      rw [List.foldl_cons]
      by_cases hl : pi.1 = cp ∧ pi.2 ∈ l
      · rw [if_pos hl, hparent, hmade] at hrest
        rw [if_pos ⟨hl.1, List.mem_cons_of_mem i hl.2⟩]
        exact hrest
      rw [if_neg hl] at hrest
      by_cases hpi : pi = (cp, i)
      · subst hpi
        rw [if_pos ⟨rfl, List.mem_cons_self⟩, hrest.1, hrest.2, shmDup1_shmsr, shmDup1_made,
          Function.update_self]
        refine ⟨rfl, fun hsome => ?_⟩
        rw [if_neg hsome, Function.update_self]
      · rw [if_neg, hrest.1, hrest.2, shmDup1_shmsr, shmDup1_made, Function.update_of_ne hpi]
        · refine ⟨rfl, ?_⟩
          split
          · rfl
          · rw [Function.update_of_ne hpi]
        · rintro ⟨hp, hmem⟩
          rcases List.mem_cons.mp hmem with hi | hmem
          · exact hpi (Prod.ext hp hi)
          · exact hl ⟨hp, hmem⟩
  have := hfold (List.finRange NSHMSEG) s
  by_cases hcp : pi.1 = cp
  · rw [if_pos ⟨hcp, List.mem_finRange pi.2⟩] at this
    rw [if_pos hcp]
    exact this
  · rw [if_neg fun h => hcp h.1] at this
    rw [if_neg hcp]
    exact this

theorem shmDup_child {p cp : P} (hne : p ≠ cp) (i : Fin NSHMSEG) :
    (s.shmDup p cp).shmsr (cp, i) = s.shmsr (p, i) ∧
      ((s.shmsr (p, i)).srSegp ≠ none → (s.shmDup p cp).made (cp, i) = s.made (p, i)) := by
  have := shmDup_slot (s := s) hne (cp, i)
  rwa [if_pos rfl] at this

theorem shmDup_others {p cp q : P} (hne : p ≠ cp) (hq : q ≠ cp) (i : Fin NSHMSEG) :
    (s.shmDup p cp).shmsr (q, i) = s.shmsr (q, i) ∧
      (s.shmDup p cp).made (q, i) = s.made (q, i) := by
  have := shmDup_slot (s := s) hne (q, i)
  rwa [if_neg hq] at this

/-! ### Attaching -/

omit [DecidableEq P] in
theorem freeSlot_empty {p : P} {i : Fin NSHMSEG} (h : s.freeSlot p = some i) :
    (s.shmsr (p, i)).srSegp = none := by
  simpa using List.find?_some h

omit [DecidableEq P] in
theorem segAt_eq {segp : Option ℕ} {k : ℕ} (h : s.segAt segp = some k) : segp = some k :=
  (Option.filter_eq_some_iff.mp h).1

/-- What an attachment finds. -/
structure Attaches (t : Tune) (s : State P) (p : P) (c : Cred) (sysId : CInt) (shmAddr : Addr)
    (shmFlag : ℕ) (tb : Tables) (i : ℕ) (segId : Fin NSHMSEG) (a : Addr) (k : ℕ) : Prop where
  tables : s.tables = some tb
  lt : i < t.SHMMNI
  id : (i : ℤ) = sysId.val
  seq : (tb.shmids i).shmPerm.seq = i
  perm : ipcLackPerm c (tb.shmids i).shmPerm (shmatMode shmFlag) = false
  slot : s.freeSlot p = some segId
  addr : s.attachAddr t p shmAddr (tb.shmids i).shmSegsz = some a
  segp : s.segAt (tb.shmsegs i) = some k

/-- Everything that `ushmat` can do: it faults, it fails, or it attaches. -/
theorem ushmat_cases (t : Tune) (s : State P) (p : P) (c : Cred) (sysId : CInt) (shmAddr : Addr)
    (shmFlag : ℕ) :
    (s.ushmat t p c sysId shmAddr shmFlag = .fault ∧ 0 ≤ sysId.val ∧ sysId.val ≤ t.SHMMNI ∧
      (s.tables = none ∨ sysId.val = t.SHMMNI ∨ ∃ tb i, s.tables = some tb ∧ i < t.SHMMNI ∧
        (i : ℤ) = sysId.val ∧ (tb.shmids i).shmPerm.seq = i ∧
        ipcLackPerm c (tb.shmids i).shmPerm (shmatMode shmFlag) = false ∧
        s.segAt (tb.shmsegs i) = none)) ∨
    (∃ e, s.ushmat t p c sysId shmAddr shmFlag = s.fail e) ∨
    ∃ tb i segId a k, Attaches t s p c sysId shmAddr shmFlag tb i segId a k ∧
      s.ushmat t p c sysId shmAddr shmFlag = .done (s.shmAtt tb i (p, segId) a k
        ⟨shmFlag, decide (shmAddr ≠ 0), c, (tb.shmids i).shmPerm⟩) a.val none := by
  generalize hr : s.ushmat t p c sysId shmAddr shmFlag = r
  unfold State.ushmat at hr
  by_cases hrange : inRange 0 sysId.val t.SHMMNI = false
  · rw [if_pos hrange] at hr
    exact Or.inr (Or.inl ⟨_, hr.symm⟩)
  rw [if_neg hrange] at hr
  have hmni := t.shmmni_le
  have hid := (inRange_zero_iff (by omega) (by omega)).mp (Bool.eq_true_of_not_eq_false hrange)
  cases htb : s.tables with
  | none =>
    rw [htb] at hr
    exact Or.inl ⟨hr.symm, hid.1, hid.2, Or.inl rfl⟩
  | some tb =>
    rw [htb] at hr
    simp only at hr
    split_ifs at hr with hlt hseq
    · exact Or.inl ⟨hr.symm, hid.1, hid.2, Or.inr (Or.inl (by omega))⟩
    · exact Or.inr (Or.inl ⟨_, hr.symm⟩)
    unfold State.shmatSlot at hr
    simp only at hr
    split_ifs at hr with hperm
    · exact Or.inr (Or.inl ⟨_, hr.symm⟩)
    cases hslot : s.freeSlot p with
    | none =>
      rw [hslot] at hr
      exact Or.inr (Or.inl ⟨_, hr.symm⟩)
    | some segId =>
      rw [hslot] at hr
      simp only at hr
      cases haddr : s.attachAddr t p shmAddr (tb.shmids sysId.val.toNat).shmSegsz with
      | none =>
        rw [haddr] at hr
        exact Or.inr (Or.inl ⟨_, hr.symm⟩)
      | some a =>
        rw [haddr] at hr
        simp only at hr
        cases hsegp : s.segAt (tb.shmsegs sysId.val.toNat) with
        | none =>
          rw [hsegp] at hr
          exact Or.inl ⟨hr.symm, hid.1, hid.2, Or.inr (Or.inr ⟨tb, sysId.val.toNat, rfl, by omega,
            by omega, by omega, Bool.eq_false_of_not_eq_true hperm, hsegp⟩)⟩
        | some k =>
          rw [hsegp] at hr
          refine Or.inr (Or.inr ⟨tb, sysId.val.toNat, segId, a, k, ?_, hr.symm⟩)
          exact
            { tables := htb
              lt := by omega
              id := by omega
              seq := by omega
              perm := Bool.eq_false_of_not_eq_true hperm
              slot := hslot
              addr := haddr
              segp := hsegp }

/-! ### `shmget` and `shmctl` -/

section

omit [DecidableEq P]

/-- Everything that the search of `ushmget` can do. -/
theorem shmSearch_cases (s : State P) (t : Tune) (tb : Tables) (c : Ctx) (shmKey : ℤ)
    (shmSize shmFlag : ℕ) :
    s.shmSearch t tb c shmKey shmSize shmFlag = .fault ∨
    (∃ v e, s.shmSearch t tb c shmKey shmSize shmFlag = .done s v e) ∨
    ∃ i v, s.shmSearch t tb c shmKey shmSize shmFlag =
      .done (s.create tb c i shmKey shmSize shmFlag) v none := by
  unfold State.shmSearch State.fail
  split
  · split_ifs <;> exact Or.inr (Or.inl ⟨_, _, rfl⟩)
  · split
    · exact Or.inr (Or.inl ⟨_, _, rfl⟩)
    · split_ifs
      · exact Or.inr (Or.inl ⟨_, _, rfl⟩)
      · exact Or.inr (Or.inl ⟨_, _, rfl⟩)
      · exact Or.inl rfl
      · exact Or.inr (Or.inr ⟨_, _, rfl⟩)

/-- `ushmget` fails, or searches the tables, which may be new. -/
theorem ushmget_cases (s : State P) (t : Tune) (c : Ctx) (shmKey shmSize : CInt) (shmFlag : ℕ) :
    (∃ e, s.ushmget t c shmKey shmSize shmFlag = s.fail e) ∨
    (∃ tb, s.tables = some tb ∧ s.ushmget t c shmKey shmSize shmFlag =
      s.shmSearch t tb c shmKey.val shmSize.val.toNat shmFlag) ∨
    ∃ tb, s.tables = none ∧ c.tables = some tb ∧ s.ushmget t c shmKey shmSize shmFlag =
      (s.setTables tb).shmSearch t tb c shmKey.val shmSize.val.toNat shmFlag := by
  unfold State.ushmget
  split
  · exact Or.inl ⟨_, rfl⟩
  · split
    · next tb htb => exact Or.inr (Or.inl ⟨tb, htb, rfl⟩)
    · next htb =>
      split
      · exact Or.inl ⟨_, rfl⟩
      · next tb hmem => exact Or.inr (Or.inr ⟨tb, htb, hmem, rfl⟩)

/-- Everything that `ushmctl` can do to an entry. -/
theorem ushmctl_cases (s : State P) (t : Tune) (c : Cred) (shmId : CInt) (cmd : Cmd) :
    (∃ v e, s.ushmctl t c shmId cmd = .done s v e) ∨
    ∃ tb i, s.tables = some tb ∧ i < t.SHMMNI ∧ (i : ℤ) = shmId.val ∧ (tb.shmids i).alloc = true ∧
      ((∃ uid gid mode, s.ushmctl t c shmId cmd =
          .done (s.setTables (tb.put i ((tb.shmids i).set uid gid mode))) 0 none) ∨
        cmd = .IPC_RMID ∧ s.ushmctl t c shmId cmd = s.ipcRmid tb i) := by
  generalize hr : s.ushmctl t c shmId cmd = r
  unfold State.ushmctl at hr
  by_cases hrange : inRange 0 shmId.val (t.SHMMNI - 1) = false
  · rw [if_pos hrange] at hr
    exact Or.inl ⟨_, _, hr.symm⟩
  rw [if_neg hrange] at hr
  have hge := t.shmmni_ge
  have hle := t.shmmni_le
  have hid := (inRange_zero_iff (by omega) (by omega)).mp (Bool.eq_true_of_not_eq_false hrange)
  cases htb : s.tables with
  | none =>
    rw [htb] at hr
    exact Or.inl ⟨_, _, hr.symm⟩
  | some tb =>
    rw [htb] at hr
    simp only at hr
    by_cases hunused : (tb.shmids shmId.val.toNat).alloc = false ∧
        ¬(cmd.isStat = true ∧ super c = true)
    · rw [if_pos hunused] at hr
      exact Or.inl ⟨_, _, hr.symm⟩
    rw [if_neg hunused] at hr
    have halloc : cmd.isStat = false → (tb.shmids shmId.val.toNat).alloc = true := fun hcmd =>
      Bool.eq_true_of_not_eq_false fun h =>
        hunused ⟨h, fun hstat => absurd (hstat.1.symm.trans hcmd) (by decide)⟩
    cases cmd with
    | IPC_STAT useracc =>
      simp only at hr
      split_ifs at hr <;> exact Or.inl ⟨_, _, hr.symm⟩
    | IPC_SET uid gid mode =>
      simp only at hr
      split_ifs at hr
      · exact Or.inl ⟨_, _, hr.symm⟩
      · exact Or.inr ⟨tb, shmId.val.toNat, rfl, by omega, by omega, halloc rfl,
          Or.inl ⟨uid, gid, mode, hr.symm⟩⟩
    | IPC_RMID =>
      simp only at hr
      split_ifs at hr
      · exact Or.inl ⟨_, _, hr.symm⟩
      · exact Or.inr ⟨tb, shmId.val.toNat, rfl, by omega, by omega, halloc rfl,
          Or.inr ⟨rfl, hr.symm⟩⟩
    | SHM_LOCK =>
      simp only at hr
      split_ifs at hr <;> exact Or.inl ⟨_, _, hr.symm⟩
    | SHM_UNLOCK =>
      simp only at hr
      split_ifs at hr <;> exact Or.inl ⟨_, _, hr.symm⟩
    | other => exact Or.inl ⟨_, _, hr.symm⟩

/-! ### Steps -/

/-- `ushmget` and `ushmctl` leave the processes as they are. -/
structure SameProcs (s s' : State P) : Prop where
  live : s'.live = s.live
  segl : s'.segl = s.segl
  shmsr : s'.shmsr = s.shmsr
  made : s'.made = s.made

theorem SameProcs.refl (s : State P) : SameProcs s s := ⟨rfl, rfl, rfl, rfl⟩

theorem ushmget_procs {c : Ctx} {shmKey shmSize : CInt} {shmFlag : ℕ} {v : ℤ} {e : Option Errno}
    (h : s.ushmget t c shmKey shmSize shmFlag = .done s' v e) : SameProcs s s' := by
  have hsearch : ∀ (s₀ : State P) (tb : Tables), SameProcs s s₀ →
      s₀.shmSearch t tb c shmKey.val shmSize.val.toNat shmFlag = .done s' v e → SameProcs s s' := by
    intro s₀ tb hsame h
    rcases shmSearch_cases s₀ t tb c shmKey.val shmSize.val.toNat shmFlag with
      hfault | ⟨_, _, hdone⟩ | ⟨_, _, hdone⟩
    · cases hfault.symm.trans h
    · cases hdone.symm.trans h
      exact hsame
    · cases hdone.symm.trans h
      exact ⟨hsame.live, hsame.segl, hsame.shmsr, hsame.made⟩
  rcases ushmget_cases s t c shmKey shmSize shmFlag with ⟨e', hfail⟩ | ⟨tb, _, heq⟩ |
    ⟨tb, _, _, heq⟩
  · cases hfail.symm.trans h
    exact SameProcs.refl s
  · exact hsearch s tb (SameProcs.refl s) (heq.symm.trans h)
  · exact hsearch (s.setTables tb) tb ⟨rfl, rfl, rfl, rfl⟩ (heq.symm.trans h)

theorem ushmctl_procs {c : Cred} {shmId : CInt} {cmd : Cmd} {v : ℤ} {e : Option Errno}
    (h : s.ushmctl t c shmId cmd = .done s' v e) : SameProcs s s' := by
  rcases ushmctl_cases s t c shmId cmd with ⟨_, _, hsame⟩ |
    ⟨tb, i, _, _, _, _, ⟨_, _, _, hset⟩ | ⟨_, hrm⟩⟩
  · cases hsame.symm.trans h
    exact SameProcs.refl s
  · cases hset.symm.trans h
    exact ⟨rfl, rfl, rfl, rfl⟩
  · have hr := hrm.symm.trans h
    unfold State.ipcRmid at hr
    simp only at hr
    split at hr
    · split at hr <;> cases hr
      exact ⟨rfl, rfl, rfl, rfl⟩
    · split at hr <;> cases hr
      exact ⟨rfl, rfl, rfl, rfl⟩

end

/-- A reference after a step: it is empty, or one of the same place before, or it has just been
    attached. -/
theorem step_slot {e : Event P} (h : step t s e = some s') (pi : P × Fin NSHMSEG) :
    s'.shmsr pi = SR.none ∨
    (∃ q, s'.shmsr pi = s.shmsr (q, pi.2) ∧
      ((s.shmsr (q, pi.2)).srSegp ≠ none → s'.made pi = s.made (q, pi.2))) ∨
    ∃ p c sysId shmAddr shmFlag tb i a k, e = .shmat p c sysId shmAddr shmFlag ∧
      Attaches t s p c sysId shmAddr shmFlag tb i pi.2 a k ∧ pi.1 = p ∧
      s'.shmsr pi = attachSr (s.segs k).sSize a k readOnly ∧
      s'.made pi = ⟨shmFlag, decide (shmAddr ≠ 0), c, (tb.shmids i).shmPerm⟩ := by
  have hsame : SameProcs s s' → ∃ q, s'.shmsr pi = s.shmsr (q, pi.2) ∧
      ((s.shmsr (q, pi.2)).srSegp ≠ none → s'.made pi = s.made (q, pi.2)) := fun hsame =>
    ⟨pi.1, congrFun hsame.shmsr pi, fun _ => congrFun hsame.made pi⟩
  have hall : ∀ p, (s.shmAllDt t p).shmsr pi = SR.none ∨ ∃ q,
      (s.shmAllDt t p).shmsr pi = s.shmsr (q, pi.2) ∧
      ((s.shmsr (q, pi.2)).srSegp ≠ none → (s.shmAllDt t p).made pi = s.made (q, pi.2)) := by
    intro p
    rw [shmAllDt_shmsr, shmAllDt_made]
    split
    · exact Or.inl rfl
    · exact Or.inr ⟨pi.1, rfl, fun _ => rfl⟩
  unfold step at h
  split at h
  case isFalse => cases h
  next hlive =>
  cases e with
  | shmget p c shmKey shmSize shmFlag =>
    simp only [State.outcome] at h
    cases hr : s.ushmget t c shmKey shmSize shmFlag with
    | fault => rw [hr] at h; cases h
    | done s₁ v err =>
      rw [hr] at h
      cases h
      exact Or.inr (Or.inl (hsame (ushmget_procs hr)))
  | shmat p c sysId shmAddr shmFlag =>
    simp only [State.outcome] at h
    rcases ushmat_cases t s p c sysId shmAddr shmFlag with ⟨hfault, _⟩ | ⟨_, hfail⟩ |
      ⟨tb, i, segId, a, k, hatt, hdone⟩
    · rw [hfault] at h
      cases h
    · rw [hfail] at h
      cases h
      exact Or.inr (Or.inl (hsame (SameProcs.refl s)))
    · rw [hdone] at h
      cases h
      by_cases hpi : pi = (p, segId)
      · subst hpi
        exact Or.inr (Or.inr ⟨p, c, sysId, shmAddr, shmFlag, tb, i, a, k, rfl, hatt, rfl,
          Function.update_self .., Function.update_self ..⟩)
      · refine Or.inr (Or.inl ⟨pi.1, ?_, fun _ => ?_⟩)
        · exact Function.update_of_ne hpi _ _
        · exact Function.update_of_ne hpi _ _
  | shmctl p c shmId cmd =>
    simp only [State.outcome] at h
    cases hr : s.ushmctl t c shmId cmd with
    | fault => rw [hr] at h; cases h
    | done s₁ v err =>
      rw [hr] at h
      cases h
      exact Or.inr (Or.inl (hsame (ushmctl_procs hr)))
  | shmdt p shmAddr =>
    simp only [State.outcome, State.ushmdt] at h
    split at h
    · cases h
      exact Or.inr (Or.inl (hsame (SameProcs.refl s)))
    · next i _ =>
      cases h
      rw [shmDetachP_shmsr, shmDetachP_made]
      by_cases hpi : pi = (p, i)
      · subst hpi
        exact Or.inl (Function.update_self ..)
      · exact Or.inr (Or.inl ⟨pi.1, Function.update_of_ne hpi _ _, fun _ => rfl⟩)
  | brk p cp room =>
    simp only [State.outcome, State.ubrk] at h
    split_ifs at h <;> cases h <;> exact Or.inr (Or.inl ⟨pi.1, rfl, fun _ => rfl⟩)
  | growStack p =>
    cases h
    exact Or.inr (Or.inl ⟨pi.1, rfl, fun _ => rfl⟩)
  | fork p cp =>
    simp only [State.outcome] at h
    split at h
    · cases h
      exact Or.inr (Or.inl (hsame (SameProcs.refl s)))
    · next hcp =>
      cases h
      have hne : p ≠ cp := fun heq => hcp (heq ▸ hlive)
      obtain ⟨q, i⟩ := pi
      by_cases hq : q = cp
      · subst hq
        exact Or.inr (Or.inl ⟨p, shmDup_child hne i⟩)
      · have := shmDup_others (s := { s with
          live := Function.update s.live cp true
          segl := Function.update s.segl cp (s.segl p) }) hne hq i
        exact Or.inr (Or.inl ⟨q, this.1, fun _ => this.2⟩)
  | exec p segl =>
    cases h
    exact (hall p).imp_right Or.inl
  | exit p =>
    cases h
    exact (hall p).imp_right Or.inl

/-! ### Segments -/

/-- Everything that happens to a segment keeps `φ`. -/
structure SegClosed (t : Tune) (φ : Seg → Prop) : Prop where
  new : ∀ size ≤ t.SHMMAX, φ (newSeg size)
  addRefs : ∀ seg, φ seg → φ (seg.addRefs 1)
  detach : ∀ seg, φ seg → φ seg.detach
  remove : ∀ seg nattch, φ seg → φ (seg.remove nattch)

/-- Every segment of the state meets `φ`, and there are at least `n`. -/
def AllSegs (φ : Seg → Prop) (n : ℕ) (s : State P) : Prop :=
  n ≤ s.nsegs ∧ ∀ k < s.nsegs, φ (s.segs k)

variable {φ : Seg → Prop} {n : ℕ}

omit [DecidableEq P] in
theorem AllSegs.setSeg (h : AllSegs φ n s) (k : ℕ) {seg : Seg} (hseg : φ (s.segs k) → φ seg) :
    AllSegs φ n (s.setSeg k seg) := by
  refine ⟨h.1, fun j hj => ?_⟩
  by_cases hjk : j = k
  · subst hjk
    simp only [State.setSeg, Function.update_self]
    exact hseg (h.2 j hj)
  · simp only [State.setSeg, Function.update_of_ne hjk]
    exact h.2 j hj

theorem AllSegs.shmDetachP (hφ : SegClosed t φ) (h : AllSegs φ n s) (pi : P × Fin NSHMSEG) :
    AllSegs φ n (s.shmDetachP t pi) := by
  unfold State.shmDetachP
  split
  · exact h
  · next k _ => exact h.setSeg k (hφ.detach _)

theorem AllSegs.shmDup1 (hφ : SegClosed t φ) (h : AllSegs φ n s) (p cp : P) (i : Fin NSHMSEG) :
    AllSegs φ n (s.shmDup1 p cp i) := by
  unfold State.shmDup1
  simp only
  split
  · exact h
  · next k _ => exact h.setSeg k (hφ.addRefs _)

section

omit [DecidableEq P]

theorem AllSegs.create (hφ : SegClosed t φ) (h : AllSegs φ n s) {tb : Tables} {c : Ctx} {i : ℕ}
    {shmKey : ℤ} {shmSize shmFlag : ℕ} (hsize : shmSize ≤ t.SHMMAX) :
    AllSegs φ n (s.create tb c i shmKey shmSize shmFlag) := by
  refine ⟨Nat.le_succ_of_le h.1, fun k hk => ?_⟩
  by_cases hnew : k = s.nsegs
  · subst hnew
    simp only [State.create, State.setTables, State.setSeg, Function.update_self]
    exact hφ.new shmSize hsize
  · simp only [State.create, State.setTables, State.setSeg, Function.update_of_ne hnew]
    exact h.2 k (lt_of_le_of_ne (Nat.lt_succ_iff.mp hk) hnew)

theorem AllSegs.ushmget (hφ : SegClosed t φ) (h : AllSegs φ n s) {c : Ctx} {shmKey shmSize : CInt}
    {shmFlag : ℕ} {v : ℤ} {e : Option Errno}
    (hs : s.ushmget t c shmKey shmSize shmFlag = .done s' v e) : AllSegs φ n s' := by
  have hmax := t.shmmax_le
  by_cases hrange : inRange 0 shmSize.val t.SHMMAX = false
  · unfold State.ushmget at hs
    rw [if_pos hrange] at hs
    cases hs
    exact h
  have hsize := (inRange_zero_iff (by omega) (by omega)).mp (Bool.eq_true_of_not_eq_false hrange)
  have hsearch : ∀ (s₀ : State P) (tb : Tables), AllSegs φ n s₀ →
      s₀.shmSearch t tb c shmKey.val shmSize.val.toNat shmFlag = .done s' v e → AllSegs φ n s' := by
    intro s₀ tb h hs
    rcases shmSearch_cases s₀ t tb c shmKey.val shmSize.val.toNat shmFlag with
      hfault | ⟨_, _, hdone⟩ | ⟨_, _, hdone⟩
    · cases hfault.symm.trans hs
    · cases hdone.symm.trans hs
      exact h
    · cases hdone.symm.trans hs
      exact h.create hφ (by omega)
  rcases ushmget_cases s t c shmKey shmSize shmFlag with ⟨e', hfail⟩ | ⟨tb, _, heq⟩ |
    ⟨tb, _, _, heq⟩
  · cases hfail.symm.trans hs
    exact h
  · exact hsearch s tb h (heq.symm.trans hs)
  · exact hsearch (s.setTables tb) tb h (heq.symm.trans hs)

theorem AllSegs.ushmctl (hφ : SegClosed t φ) (h : AllSegs φ n s) {c : Cred} {shmId : CInt}
    {cmd : Cmd} {v : ℤ} {e : Option Errno} (hs : s.ushmctl t c shmId cmd = .done s' v e) :
    AllSegs φ n s' := by
  rcases ushmctl_cases s t c shmId cmd with ⟨_, _, hsame⟩ |
    ⟨tb, i, _, _, _, _, ⟨_, _, _, hset⟩ | ⟨_, hrm⟩⟩
  · cases hsame.symm.trans hs
    exact h
  · cases hset.symm.trans hs
    exact h
  · have hr := hrm.symm.trans hs
    unfold State.ipcRmid at hr
    simp only at hr
    split at hr
    · split at hr <;> cases hr
      exact h
    · next k _ =>
      split at hr <;> cases hr
      exact AllSegs.setSeg (s := s.setTables _) h k (hφ.remove _ _)

end

/-- **What everything that happens to a segment keeps, a step keeps for all of them.** -/
theorem AllSegs.step {e : Event P} (hφ : SegClosed t φ) (h : AllSegs φ n s)
    (hs : Shm.step t s e = some s') : AllSegs φ n s' := by
  have hall : ∀ p, AllSegs φ n (s.shmAllDt t p) := fun p =>
    shmAllDt_induction (fun _ pi h => h.shmDetachP hφ pi) p h
  unfold Shm.step at hs
  split at hs
  case isFalse => cases hs
  cases e with
  | shmget p c shmKey shmSize shmFlag =>
    simp only [State.outcome] at hs
    cases hr : s.ushmget t c shmKey shmSize shmFlag with
    | fault => rw [hr] at hs; cases hs
    | done s₁ v err =>
      rw [hr] at hs
      cases hs
      exact h.ushmget hφ hr
  | shmat p c sysId shmAddr shmFlag =>
    simp only [State.outcome] at hs
    rcases ushmat_cases t s p c sysId shmAddr shmFlag with ⟨hfault, _⟩ | ⟨_, hfail⟩ |
      ⟨tb, i, segId, a, k, hatt, hdone⟩
    · rw [hfault] at hs
      cases hs
    · rw [hfail] at hs
      cases hs
      exact h
    · rw [hdone] at hs
      cases hs
      exact h.setSeg k (hφ.addRefs _)
  | shmctl p c shmId cmd =>
    simp only [State.outcome] at hs
    cases hr : s.ushmctl t c shmId cmd with
    | fault => rw [hr] at hs; cases hs
    | done s₁ v err =>
      rw [hr] at hs
      cases hs
      exact h.ushmctl hφ hr
  | shmdt p shmAddr =>
    simp only [State.outcome, State.ushmdt] at hs
    split at hs <;> cases hs
    · exact h
    · exact h.shmDetachP hφ _
  | brk p cp room =>
    simp only [State.outcome, State.ubrk] at hs
    split_ifs at hs <;> cases hs <;> exact h
  | growStack p =>
    cases hs
    exact h
  | fork p cp =>
    simp only [State.outcome] at hs
    split at hs <;> cases hs
    · exact h
    · exact shmDup_induction p cp (fun _ i h => h.shmDup1 hφ p cp i) h
  | exec p segl =>
    cases hs
    exact hall p
  | exit p =>
    cases hs
    exact hall p

end CohKernel.Shm
