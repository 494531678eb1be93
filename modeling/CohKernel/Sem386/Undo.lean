import CohKernel.Sem386.System

namespace CohKernel.Sem386

open CohKernel.Lib CohKernel.Ipc

/-!
# Undo lists

The undo list of a process has one entry at most for a semaphore, so what `semAllAdjust` adds to a
semaphore is its adjustment.

* `Moves.keys` — a pass adds entries for its set only, and none twice;
* `entry_clearRange` — what `SETVAL` and `SETALL` do to the entries;
* `semAllAdjust_sems` — what the exit of a process does to the semaphores.
-/

variable {t : Tune} {c : Ctx} {semId : ℕ} {p p' : Pass t}

/-! ### Keys -/

/-- The set and the semaphore of an entry. -/
def SemUndo.key (un : SemUndo) : ℤ × ℤ := (un.unId, un.unNum.val)

/-- The sets and the semaphores of a list. -/
def keys (semu : List SemUndo) : List (ℤ × ℤ) := semu.map SemUndo.key

theorem entry_eq_none (semu : List SemUndo) (id n : ℤ) :
    entry semu id n = none ↔ (id, n) ∉ keys semu := by
  induction semu with
  | nil => simp [entry, keys]
  | cons un semu ih =>
    rw [entry_cons, keys, List.map_cons, List.mem_cons, not_or]
    by_cases h : un.unNum.val = n ∧ un.unId = id
    · rw [if_pos h]
      refine iff_of_false (by simp) fun hc => hc.1 ?_
      rw [SemUndo.key, h.1, h.2]
    · rw [if_neg h, ih]
      refine ⟨fun hk => ⟨fun hc => h ?_, hk⟩, fun hk => hk.2⟩
      rw [SemUndo.key, Prod.mk.injEq] at hc
      exact ⟨hc.2.symm, hc.1.symm⟩

/-- `iSubAdj` keeps the keys, or adds the one of its semaphore at the end. -/
theorem iSubAdj_keys {num : Ushort} (hnum : num.val < 2 ^ 15) (v : Short) :
    ∀ semu semu', iSubAdj t c semId num v semu = .ok semu' →
      keys semu' = keys semu ∨
        keys semu' = keys semu ++ [((semId : ℤ), (num.val : ℤ))] ∧
          ((semId : ℤ), (num.val : ℤ)) ∉ keys semu := by
  have hshort : (short (num.val : ℤ)).val = num.val := by
    rw [short_val]
    omega
  intro semu
  induction semu with
  | nil =>
    intro semu' h
    unfold iSubAdj at h
    cases hk : c.kalloc num.val with
    | none =>
      rw [hk] at h
      cases h
    | some un =>
      rw [hk] at h
      cases h
      refine Or.inr ⟨?_, by simp [keys]⟩
      simp [keys, SemUndo.key, hshort]
  | cons un semu ih =>
    intro semu' h
    unfold iSubAdj at h
    by_cases hun : un.unNum.val = num.val ∧ un.unId = semId
    · rw [if_pos hun] at h
      simp only at h
      split_ifs at h
      cases h
      exact Or.inl rfl
    · rw [if_neg hun] at h
      cases hrest : iSubAdj t c semId num v semu with
      | error e =>
        rw [hrest] at h
        cases h
      | ok rest =>
        rw [hrest] at h
        cases h
        have hne : un.key ≠ ((semId : ℤ), (num.val : ℤ)) := by
          intro hc
          rw [SemUndo.key, Prod.mk.injEq] at hc
          exact hun ⟨hc.2, hc.1⟩
        rcases ih rest hrest with heq | ⟨heq, hnot⟩
        · exact Or.inl (by rw [keys, List.map_cons, ← keys, heq]; rfl)
        · refine Or.inr ⟨by rw [keys, List.map_cons, ← keys, heq]; rfl, fun hc => ?_⟩
          rcases List.mem_cons.mp hc with hc | hc
          · exact hne hc.symm
          · exact hnot hc

/-- The entries of a list after a pass on a set of `nsems` semaphores. -/
structure KeysFrom (semId nsems : ℕ) (semu semu' : List SemUndo) : Prop where
  nodup : (keys semu).Nodup → (keys semu').Nodup
  old : ∀ k ∈ keys semu, k ∈ keys semu'
  new : ∀ k ∈ keys semu', k ∈ keys semu ∨ k.1 = semId ∧ 0 ≤ k.2 ∧ k.2 < nsems

theorem KeysFrom.refl (semId nsems : ℕ) (semu : List SemUndo) : KeysFrom semId nsems semu semu :=
  ⟨id, fun _ => id, fun _ => Or.inl⟩

theorem KeysFrom.subAdj (p : Pass t) {num : Ushort} (hnum : num.val < p.set.semNsems) (v : Short) :
    KeysFrom semId p.set.semNsems p.semu (p.subAdj c semId num v).2.semu := by
  have hlt := p.set.semNsems_lt
  have hmax := t.semmsl_le
  unfold Pass.subAdj
  cases hsub : iSubAdj t c semId num v p.semu with
  | error e => exact KeysFrom.refl _ _ _
  | ok semu' =>
    rcases iSubAdj_keys (by omega) v _ _ hsub with heq | ⟨heq, hnot⟩
    · refine ⟨fun h => ?_, fun k hk => ?_, fun k hk => Or.inl ?_⟩
      · rw [heq]
        exact h
      · rw [heq]
        exact hk
      · rw [heq] at hk
        exact hk
    · refine ⟨fun h => ?_, fun k hk => ?_, fun k hk => ?_⟩
      · rw [heq]
        exact List.nodup_append.mpr ⟨h, List.nodup_singleton _, fun a ha b hb => by
          rw [List.mem_singleton.mp hb]
          exact fun hc => hnot (hc ▸ ha)⟩
      · rw [heq]
        exact List.mem_append_left _ hk
      · rw [heq] at hk
        rcases List.mem_append.mp hk with hk | hk
        · exact Or.inl hk
        · rw [List.mem_singleton.mp hk]
          exact Or.inr ⟨rfl, by omega, by omega⟩

/-- **The keys of a pass.** -/
theorem Moves.keys (h : Moves c semId p p') : KeysFrom semId p.set.semNsems p.semu p'.semu := by
  induction h with
  | refl => exact KeysFrom.refl _ _ _
  | @tail q q' hq hm ih =>
    have hframe := Moves.framed hq
    cases hm with
    | setVal n v => exact ih
    | wakeup e => exact ih
    | fail e => exact ih
    | subAdj num v hnum =>
      have hsub := @KeysFrom.subAdj t c semId q _ hnum v
      rw [hframe.nsems] at hsub
      refine ⟨fun h => hsub.nodup (ih.nodup h), fun k hk => hsub.old k (ih.old k hk),
        fun k hk => ?_⟩
      rcases hsub.new k hk with hk | hk
      · exact ih.new k hk
      · exact Or.inr hk

/-- The undo list of the process after a pass. -/
theorem run_keys (sops : List SemBuf) (p : Pass t) :
    KeysFrom semId p.set.semNsems p.semu (p.run c semId [] sops).2.semu := by
  rcases @run_moves t c semId sops [] p (by simp) with hends | ⟨q, hq, heq⟩
  · cases hr : p.run c semId [] sops with
    | mk o p' =>
      rw [hr] at hends
      cases hends with
      | error _ hq => exact hq.keys
      | sleep q e hq => exact hq.keys
  · rw [heq]
    exact hq.keys

/-! ### Cleared entries -/

theorem keys_clearRange (semid i j : ℤ) (semu : List SemUndo) :
    keys (clearRange semid i j semu) = keys semu := by
  rw [keys, clearRange, List.map_map]
  refine List.map_congr_left fun un _ => ?_
  simp only [Function.comp_apply]
  split_ifs <;> rfl

/-- `SETVAL` and `SETALL` clear the entries of the semaphores that they set. -/
theorem entry_clearRange (semid i j : ℤ) (semu : List SemUndo) (id n : ℤ) :
    entry (clearRange semid i j semu) id n =
      if id = semid ∧ i ≤ n ∧ n < j then (entry semu id n).map fun _ => short 0
      else entry semu id n := by
  induction semu with
  | nil =>
    split_ifs <;> rfl
  | cons un semu ih =>
    rw [clearRange, List.map_cons, ← clearRange, entry_cons, entry_cons, ih]
    by_cases hun : un.unNum.val = n ∧ un.unId = id
    · obtain ⟨rfl, rfl⟩ := hun
      split_ifs <;> simp_all
    · have hun' : ¬((if un.unId = semid ∧ i ≤ un.unNum.val ∧ un.unNum.val < j then
          { un with unAoe := short 0 } else un).unNum.val = n ∧
          (if un.unId = semid ∧ i ≤ un.unNum.val ∧ un.unNum.val < j then
          { un with unAoe := short 0 } else un).unId = id) := by
        split_ifs <;> exact hun
      rw [if_neg hun', if_neg hun]

theorem adjustment_clearRange (semid i j : ℤ) (semu : List SemUndo) (id n : ℤ) :
    adjustment (clearRange semid i j semu) id n =
      if id = semid ∧ i ≤ n ∧ n < j then short 0 else adjustment semu id n := by
  unfold adjustment
  rw [entry_clearRange]
  split_ifs
  · cases entry semu id n <;> rfl
  · rfl

/-! ### Exit -/

/-- What `semAllAdjust` adds to a semaphore. -/
def applied (semu : List SemUndo) (id n : ℕ) : ℤ :=
  ((semu.filter fun un => un.unId.toNat = id ∧ un.unNum.val.toNat = n).map fun un =>
    un.unAoe.val).sum

/-- One entry at most adds to a semaphore. -/
theorem applied_eq {semu : List SemUndo} (hnodup : (keys semu).Nodup)
    (hpos : ∀ k ∈ keys semu, 0 ≤ k.1 ∧ 0 ≤ k.2) (id n : ℕ) :
    applied semu id n = (adjustment semu id n).val := by
  induction semu with
  | nil => rfl
  | cons un semu ih =>
    obtain ⟨hnot, hnodup⟩ := List.nodup_cons.mp hnodup
    have hkey := hpos un.key List.mem_cons_self
    have ih := ih hnodup fun k hk => hpos k (List.mem_cons_of_mem _ hk)
    simp only [SemUndo.key] at hkey
    unfold applied adjustment at ih ⊢
    rw [entry_cons]
    by_cases hun : un.unNum.val = n ∧ un.unId = id
    · have hmatch : un.unId.toNat = id ∧ un.unNum.val.toNat = n := by omega
      have hnone : entry semu id n = none := by
        rw [entry_eq_none, ← hun.1, ← hun.2]
        exact hnot
      rw [List.filter_cons_of_pos (by simpa using hmatch), List.map_cons, List.sum_cons, ih, hnone,
        if_pos hun]
      exact add_zero _
    · have hmatch : ¬(un.unId.toNat = id ∧ un.unNum.val.toNat = n) := by omega
      rw [List.filter_cons_of_neg (by simpa using hmatch), ih, if_neg hun]

/-- What is left of a set by an exit: all but the values. -/
structure AdjustedBy (set set' : SemidDs t) (v : ℕ → ℤ) : Prop where
  nsems : set'.semNsems = set.semNsems
  perm : set'.semPerm = set.semPerm
  val : ∀ n, (set'.semBase n).semval = ushort ((set.semBase n).semval.val + v n)
  semncnt : ∀ n, (set'.semBase n).semncnt = (set.semBase n).semncnt
  semzcnt : ∀ n, (set'.semBase n).semzcnt = (set.semBase n).semzcnt

theorem adjustOne_adjusted (c : Ctx) (semids : ℕ → SemidDs t) (un : SemUndo) (id : ℕ) :
    AdjustedBy (semids id) (adjustOne c semids un id) fun n => applied [un] id n := by
  have happ : ∀ n, applied [un] id n =
      if un.unId.toNat = id ∧ un.unNum.val.toNat = n then un.unAoe.val else 0 := by
    intro n
    unfold applied
    by_cases h : un.unId.toNat = id ∧ un.unNum.val.toNat = n
    · simp [h]
    · rw [if_neg h, List.filter_cons_of_neg (by simpa using h)]
      rfl
  by_cases hid : id = un.unId.toNat
  · subst hid
    unfold adjustOne
    simp only [Function.update_self]
    refine ⟨rfl, rfl, fun n => ?_, fun n => ?_, fun n => ?_⟩
    · simp only [happ, Function.update_apply, true_and]
      by_cases hn : n = un.unNum.val.toNat
      · rw [if_pos hn, if_pos hn.symm, hn]
      · rw [if_neg hn, if_neg (Ne.symm hn), add_zero, ushort_self]
    all_goals
      simp only [Function.update_apply]
      split_ifs with hn
      · rw [hn]
      · rfl
  · unfold adjustOne
    rw [Function.update_of_ne hid]
    refine ⟨rfl, rfl, fun n => ?_, fun _ => rfl, fun _ => rfl⟩
    rw [happ, if_neg fun hc => hid hc.1.symm, add_zero, ushort_self]

/-- **`semAllAdjust`** adds the adjustments to the values. -/
theorem semAllAdjust_adjusted (c : Ctx) (semu : List SemUndo) : ∀ (semids : ℕ → SemidDs t) (id : ℕ),
    AdjustedBy (semids id) (semAllAdjust c semu semids id) fun n => applied semu id n := by
  induction semu with
  | nil =>
    intro semids id
    refine ⟨rfl, rfl, fun n => ?_, fun _ => rfl, fun _ => rfl⟩
    rw [show applied [] id n = 0 from rfl, add_zero, ushort_self]
    rfl
  | cons un semu ih =>
    intro semids id
    have hone := adjustOne_adjusted c semids un id
    have hrest := ih (adjustOne c semids un) id
    have happ : ∀ n, applied (un :: semu) id n = applied [un] id n + applied semu id n := by
      intro n
      unfold applied
      rw [← List.singleton_append, List.filter_append, List.map_append, List.sum_append]
    refine ⟨hrest.nsems.trans hone.nsems, hrest.perm.trans hone.perm, fun n => ?_,
      fun n => (hrest.semncnt n).trans (hone.semncnt n),
      fun n => (hrest.semzcnt n).trans (hone.semzcnt n)⟩
    rw [happ, ← add_assoc]
    refine (hrest.val n).trans ?_
    rw [hone.val, ushort_add]

/-! ### The semaphores after a step -/

variable {s : State t} {semids : ℕ → SemidDs t}

theorem count_frame (set : SemidDs t) (d : ℤ) (e : Event) :
    (set.count d e).semNsems = set.semNsems ∧ (set.count d e).semPerm = set.semPerm := by
  cases e <;> exact ⟨rfl, rfl⟩

/-- A pass keeps the size and the permissions of its set. -/
theorem run_frame (sops : List SemBuf) (p : Pass t) :
    (p.run c semId [] sops).2.set.semNsems = p.set.semNsems ∧
      (p.run c semId [] sops).2.set.semPerm = p.set.semPerm := by
  rcases @run_moves t c semId sops [] p (by simp) with hends | ⟨q, hq, heq⟩
  · cases hr : p.run c semId [] sops with
    | mk o p' =>
      rw [hr] at hends
      cases hends with
      | error _ hq => exact ⟨hq.framed.nsems, hq.framed.perm⟩
      | sleep q e hq =>
        obtain ⟨hn, hp⟩ := count_frame q.set 1 e
        exact ⟨hn.trans hq.framed.nsems, hp.trans hq.framed.perm⟩
  · rw [heq]
    exact ⟨hq.framed.nsems, hq.framed.perm⟩

/-- The state in which a pass of the system starts. -/
def State.start (s : State t) (c : Ctx) (semids : ℕ → SemidDs t) (semId : ℕ)
    (uError : Option Errno) : Pass t :=
  s.sets.tables.start c (semids semId) uError

theorem pass_sems (hsem : s.sets.tables.semids = some semids) (halloc : (semids semId).alloc = true)
    (c : Ctx) (sops : List SemBuf) (uError : Option Errno) (id : ℕ) :
    (s.pass c semids semId sops uError).sets.sems id =
      if id = semId then
        some (((s.start c semids semId uError).run c semId [] sops).2.set.sems)
      else s.sets.sems id := by
  have hput := sems_put hsem semId ((s.start c semids semId uError).run c semId [] sops).2.set id
  have hal : ((s.start c semids semId uError).run c semId [] sops).2.set.alloc = true := by
    rw [SemidDs.alloc, (run_frame sops _).2]
    exact halloc
  rw [if_pos hal] at hput
  exact hput

theorem pass_semu (s : State t) (c : Ctx) (semids : ℕ → SemidDs t) (semId : ℕ)
    (sops : List SemBuf) (uError : Option Errno) :
    (s.pass c semids semId sops uError).sets.tables.semu =
      Function.update s.sets.tables.semu c.self
        ((s.start c semids semId uError).run c semId [] sops).2.semu := rfl

/-- A sleeper that leaves its event changes no value. -/
theorem awake_sems (hsem : s.sets.tables.semids = some semids) (sl : Sleeper)
    (halloc : (semids sl.semId).alloc = true) (pid id : ℕ) :
    (s.awake pid (leave semids sl)).sets.sems id =
      if id = sl.semId then some ((semids sl.semId).count (-1) sl.event).sems
      else s.sets.sems id := by
  have hput := sems_put hsem sl.semId ((semids sl.semId).count (-1) sl.event) id
  have hal : ((semids sl.semId).count (-1) sl.event).alloc = true := by
    rw [SemidDs.alloc, (count_frame _ _ _).2]
    exact halloc
  rw [if_pos hal] at hput
  exact hput

/-- An exit adds the adjustments of the process to the values of the allocated sets. -/
theorem exit_sems (s : State t) (c : Ctx) (id : ℕ) :
    match s.sets.sems id, (s.exit c).sets.sems id with
    | none, none => True
    | some (nsems, base), some (nsems', base') => nsems' = nsems ∧
        ∀ n, (base' n).semval =
            ushort ((base n).semval.val + applied (s.sets.tables.semu c.self) id n) ∧
          (base' n).semncnt = (base n).semncnt ∧ (base' n).semzcnt = (base n).semzcnt
    | _, _ => False := by
  have hexit : (s.exit c).sets.tables.semids =
      s.sets.tables.semids.map (semAllAdjust c (s.sets.tables.semu c.self)) := rfl
  unfold Sets.sems Sets.live
  rw [hexit]
  cases s.sets.tables.semids with
  | none => exact trivial
  | some semids =>
    have hadj := semAllAdjust_adjusted c (s.sets.tables.semu c.self) semids id
    simp only [Option.map_some, Option.bind_some]
    have hal : (semAllAdjust c (s.sets.tables.semu c.self) semids id).alloc =
        (semids id).alloc := by
      rw [SemidDs.alloc, SemidDs.alloc, hadj.perm]
    rw [hal]
    by_cases halloc : (semids id).alloc = true
    · rw [if_pos halloc, if_pos halloc]
      exact ⟨hadj.nsems, fun n => ⟨hadj.val n, hadj.semncnt n, hadj.semzcnt n⟩⟩
    · rw [if_neg halloc, if_neg halloc]
      exact trivial

end CohKernel.Sem386
