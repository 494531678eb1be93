import CohKernel.Sem386.Undo

namespace CohKernel.Sem386

open CohKernel.Lib CohKernel.Ipc

/-!
# The range of the values

`usemop`, `SETVAL` and `SETALL` look at a value before they store it; `semundo` and `semAllAdjust`
do not.  `IPC_RMID` leaves the adjustments for its set with the processes.

* `Safe` — the steps at which nothing of this shows;
* `Bounded` — every value is in range, and every adjustment is for the set that is there;
* `reachable_bounded` — so it is in every run of such steps;
* `exit_not_bounded` — an adjustment that takes a value below zero.
-/

variable {t : Tune} {s s' : State t} {a : Call} {semids : ℕ → SemidDs t}

/-! ### The condition -/

/-- The removal of a set while a process has an adjustment for it. -/
def Orphans (s : State t) : Call → Prop
  | .ctl c semid semnum cmd => ∃ id, (s.sets.sems id).isSome ∧
      (s.sets.usemctl c semid semnum cmd).sets.sems id = none ∧
      ∃ pid, ∃ k ∈ keys (s.sets.tables.semu pid), k.1 = id
  | _ => False

/-- The adjustments of an exiting process fit the values. -/
def Adjustable (s : State t) : Call → Prop
  | .exit c => ∀ id nsems base, s.sets.sems id = some (nsems, base) → ∀ n < nsems,
      0 ≤ (base n).semval.val + (adjustment (s.sets.tables.semu c.self) id n).val ∧
        (base n).semval.val + (adjustment (s.sets.tables.semu c.self) id n).val ≤ t.SEMVMX
  | _ => True

/-- What a step is to look at, and does not. -/
structure Safe (s : State t) (a : Call) : Prop where
  unclaimed : Unclaimed s a
  inside : Inside s a
  rollback : ∀ semId p done op h, RollsBack s a semId p done op h → ∀ n < p.set.semNsems,
    0 ≤ leftVal p done op h n ∧ leftVal p done op h n ≤ t.SEMVMX
  kept : ¬ Orphans s a
  exit : Adjustable s a

/-! ### The invariant -/

/-- The set that an adjustment has been recorded against is there, with its semaphore. -/
def Owned (s : State t) (pid : ℕ) (k : ℤ × ℤ) : Prop :=
  0 ≤ k.1 ∧ 0 ≤ k.2 ∧ s.made pid k.1 k.2 = s.gen k.1.toNat ∧
    ∃ nsems base, s.sets.sems k.1.toNat = some (nsems, base) ∧ k.2 < nsems

/-- The values are in range, and the adjustments are for sets that are there. -/
structure Bounded (s : State t) : Prop where
  vals : ∀ id nsems base, s.sets.sems id = some (nsems, base) → ∀ n < nsems,
    (base n).semval.val ≤ t.SEMVMX
  nodup : ∀ pid, (keys (s.sets.tables.semu pid)).Nodup
  owned : ∀ pid, ∀ k ∈ keys (s.sets.tables.semu pid), Owned s pid k

/-- The sets are as large as before, and the values in range. -/
theorem Bounded.of_sems (hb : Bounded s)
    (hsems : ∀ id, match s.sets.sems id, s'.sets.sems id with
      | none, none => True
      | some (nsems, _), some (nsems', base') => nsems' = nsems ∧
          ∀ n < nsems, (base' n).semval.val ≤ t.SEMVMX
      | _, _ => False)
    (hnodup : ∀ pid, (keys (s'.sets.tables.semu pid)).Nodup)
    (howned : ∀ pid, ∀ k ∈ keys (s'.sets.tables.semu pid),
      k ∈ keys (s.sets.tables.semu pid) ∧ s'.made pid k.1 k.2 = s.made pid k.1 k.2 ∨
      0 ≤ k.1 ∧ 0 ≤ k.2 ∧ s'.made pid k.1 k.2 = s.gen k.1.toNat ∧
        ∃ nsems base, s.sets.sems k.1.toNat = some (nsems, base) ∧ k.2 < nsems)
    (hgen : s'.gen = s.gen) : Bounded s' := by
  refine ⟨fun id nsems' base' hs' n hn => ?_, hnodup, fun pid k hk => ?_⟩
  · have h := hsems id
    rw [hs'] at h
    cases hs : s.sets.sems id with
    | none =>
      rw [hs] at h
      exact h.elim
    | some r =>
      obtain ⟨nsems, base⟩ := r
      rw [hs] at h
      obtain ⟨rfl, hv⟩ := h
      exact hv n hn
  · have hold : 0 ≤ k.1 ∧ 0 ≤ k.2 ∧ s'.made pid k.1 k.2 = s.gen k.1.toNat ∧
        ∃ nsems base, s.sets.sems k.1.toNat = some (nsems, base) ∧ k.2 < nsems := by
      rcases howned pid k hk with ⟨hk, hmade⟩ | hnew
      · obtain ⟨h1, h2, h3, h4⟩ := hb.owned pid k hk
        exact ⟨h1, h2, hmade.trans h3, h4⟩
      · exact hnew
    obtain ⟨h1, h2, h3, nsems, base, hs, hlt⟩ := hold
    have h := hsems k.1.toNat
    rw [hs] at h
    cases hs' : s'.sets.sems k.1.toNat with
    | none =>
      rw [hs'] at h
      exact h.elim
    | some r =>
      obtain ⟨nsems', base'⟩ := r
      rw [hs'] at h
      obtain ⟨rfl, -⟩ := h
      exact ⟨h1, h2, by rw [hgen]; exact h3, nsems', base', hs', hlt⟩

/-! ### Passes -/

/-- **A pass** keeps the values in range when its rollback does. -/
theorem run_bounded {c : Ctx} {semId : ℕ} {sops : List SemBuf} {p : Pass t}
    (hb : ∀ n < p.set.semNsems, (p.val n).val ≤ t.SEMVMX)
    (hroll : ∀ done op h, stop c semId p [] sops = some (done, op, h) → h.undoes = true →
      ∀ n < p.set.semNsems, 0 ≤ leftVal p done op h n ∧ leftVal p done op h n ≤ t.SEMVMX) :
    ∀ n < p.set.semNsems, ((p.run c semId [] sops).2.val n).val ≤ t.SEMVMX := by
  intro n hn
  have hmax := t.semvmx_le
  have hstart : ∀ n < p.set.semNsems, 0 ≤ valueAt p [] n ∧ valueAt p [] n ≤ t.SEMVMX := by
    intro n hn
    have := hb n hn
    unfold valueAt
    rw [show net [] n = 0 from rfl]
    omega
  have hbound := stop_bounded c semId sops [] hstart
  cases hstop : stop c semId p [] sops with
  | none =>
    obtain ⟨q, hq, heq⟩ := run_done sops [] p (executed_nil c semId p) hstop
    rw [hstop] at hbound
    have hval := hq.val n
    have hfin : (q.finish c sops).val n = q.val n := by
      unfold Pass.finish Pass.val
      simp only
      split_ifs <;> rfl
    rw [List.nil_append] at heq hval
    rw [heq, hfin]
    have := (hbound n hn).2
    rw [List.nil_append] at this
    omega
  | some r =>
    obtain ⟨done, op, h⟩ := r
    have hspec := run_spec sops [] p (executed_nil c semId p)
    rw [hstop] at hspec hbound
    have hval := hspec.2.val n
    rw [hval]
    by_cases hun : h.undoes = true
    · have hleft := hroll done op h hstop hun n hn
      rw [if_pos hun]
      have := ushort_val (leftVal p done op h n)
      unfold leftVal at this hleft
      omega
    · have hvals : h.vals done op = done := if_neg fun hc => by rw [hc.1] at hun; exact hun rfl
      have hv := hbound n hn
      rw [if_neg hun, hvals, sub_zero]
      have := ushort_val (valueAt p done n)
      unfold valueAt at this hv
      omega

theorem Bounded.pass {c : Ctx} {semId : ℕ} {sops : List SemBuf} {uError : Option Errno}
    (hb : Bounded s) (hsem : s.sets.tables.semids = some semids)
    (halloc : (semids semId).alloc = true)
    (hroll : ∀ done op h, stop c semId (s.start c semids semId uError) [] sops =
        some (done, op, h) → h.undoes = true → ∀ n < (semids semId).semNsems,
      0 ≤ leftVal (s.start c semids semId uError) done op h n ∧
        leftVal (s.start c semids semId uError) done op h n ≤ t.SEMVMX) :
    Bounded (s.pass c semids semId sops uError) := by
  have hsems := sems_alloc hsem halloc
  have hkeys : KeysFrom semId (semids semId).semNsems (s.sets.tables.semu c.self)
      ((s.start c semids semId uError).run c semId [] sops).2.semu :=
    run_keys sops (s.start c semids semId uError)
  refine hb.of_sems (fun id => ?_) (fun pid => ?_) (fun pid k hk => ?_) rfl
  · rw [pass_sems hsem halloc]
    by_cases hid : id = semId
    · subst hid
      rw [if_pos rfl, hsems]
      exact ⟨(run_frame sops _).1, run_bounded (hb.vals id _ _ hsems) hroll⟩
    · rw [if_neg hid]
      cases hs : s.sets.sems id with
      | none => exact trivial
      | some r => exact ⟨rfl, hb.vals id _ _ hs⟩
  · rw [pass_semu, Function.update_apply]
    split_ifs
    · exact hkeys.nodup (hb.nodup c.self)
    · exact hb.nodup pid
  · rw [pass_semu, Function.update_apply] at hk
    have hmade : (s.pass c semids semId sops uError).made pid k.1 k.2 =
        if pid = c.self ∧ k.1 = semId ∧ entry (s.sets.tables.semu c.self) k.1 k.2 = none then
          s.gen semId
        else s.made pid k.1 k.2 := rfl
    rw [hmade]
    by_cases hpid : pid = c.self
    · subst hpid
      rw [if_pos rfl] at hk
      by_cases hold : k ∈ keys (s.sets.tables.semu c.self)
      · left
        refine ⟨hold, if_neg fun hc => ?_⟩
        exact (entry_eq_none _ _ _).mp hc.2.2 hold
      · obtain ⟨hid, hlo, hhi⟩ := (hkeys.new k hk).resolve_left hold
        right
        have hnat : k.1.toNat = semId := by omega
        rw [if_pos ⟨rfl, hid, (entry_eq_none _ _ _).mpr hold⟩, hnat]
        exact ⟨by omega, hlo, rfl, _, _, hsems, hhi⟩
    · rw [if_neg hpid] at hk
      exact Or.inl ⟨hk, if_neg fun hc => hpid hc.1⟩

/-! ### The other steps -/

/-- The same undo lists, with the same sets behind them. -/
theorem owned_same (hsemu : s'.sets.tables.semu = s.sets.tables.semu) (hmade : s'.made = s.made)
    (pid : ℕ) (k : ℤ × ℤ) (hk : k ∈ keys (s'.sets.tables.semu pid)) :
    k ∈ keys (s.sets.tables.semu pid) ∧ s'.made pid k.1 k.2 = s.made pid k.1 k.2 := by
  rw [hsemu] at hk
  rw [hmade]
  exact ⟨hk, rfl⟩

theorem Bounded.awake (hb : Bounded s) (hsem : s.sets.tables.semids = some semids) (sl : Sleeper)
    (halloc : (semids sl.semId).alloc = true) (pid : ℕ) :
    Bounded (s.awake pid (leave semids sl)) := by
  refine hb.of_sems (fun id => ?_) hb.nodup (fun pid' k hk => Or.inl (owned_same rfl rfl pid' k hk))
    rfl
  rw [awake_sems hsem sl halloc]
  by_cases hid : id = sl.semId
  · subst hid
    obtain ⟨hn, hv⟩ := count_same (semids sl.semId) (-1) sl.event
    have hsems := sems_alloc hsem halloc
    rw [if_pos rfl, hsems]
    refine ⟨hn, fun n hlt => ?_⟩
    have := hb.vals _ _ _ hsems n hlt
    rw [← hv n] at this
    exact this
  · rw [if_neg hid]
    cases hs : s.sets.sems id with
    | none => exact trivial
    | some r => exact ⟨rfl, hb.vals id _ _ hs⟩

/-- Changed values of one set. -/
theorem Bounded.setTo (hb : Bounded s) {semid i j nsems : ℕ} {base : ℕ → Sem} {v : ℕ → Ushort}
    (hs : s.sets.sems semid = some (nsems, base)) (hv : ∀ n, i ≤ n → n < j → (v n).val ≤ t.SEMVMX)
    (hsems : ∀ id, s'.sets.sems id =
      if id = semid then some (nsems, withVals i j v base) else s.sets.sems id)
    (hsemu : ∀ pid, s'.sets.tables.semu pid = clearRange semid i j (s.sets.tables.semu pid))
    (hmade : s'.made = s.made) (hgen : s'.gen = s.gen) : Bounded s' := by
  have hkeys : ∀ pid, keys (s'.sets.tables.semu pid) = keys (s.sets.tables.semu pid) := by
    intro pid
    rw [hsemu, keys_clearRange]
  refine hb.of_sems (fun id => ?_) (fun pid => ?_) (fun pid k hk => Or.inl ?_) hgen
  · rw [hsems]
    by_cases hid : id = semid
    · subst hid
      rw [if_pos rfl, hs]
      refine ⟨rfl, fun n hn => ?_⟩
      unfold withVals
      split_ifs with hin
      · exact hv n hin.1 hin.2
      · exact hb.vals id _ _ hs n hn
    · rw [if_neg hid]
      cases hs' : s.sets.sems id with
      | none => exact trivial
      | some r => exact ⟨rfl, hb.vals id _ _ hs'⟩
  · rw [hkeys]
    exact hb.nodup pid
  · rw [hkeys] at hk
    rw [hmade]
    exact ⟨hk, rfl⟩

theorem Bounded.ctl (hb : Bounded s) (c : Ctx) (semid semnum : ℤ) (cmd : Cmd)
    (hkept : ¬ Orphans s (.ctl c semid semnum cmd)) : Bounded (s.ctl c semid semnum cmd) := by
  have hctl := usemctl_controlled s.sets c semid semnum cmd
  have hsets : (s.ctl c semid semnum cmd).sets = (s.sets.usemctl c semid semnum cmd).sets := rfl
  have horphans : ∀ id, (s.sets.sems id).isSome →
      (s.sets.usemctl c semid semnum cmd).sets.sems id = none →
      ∀ pid, ∀ k ∈ keys (s.sets.tables.semu pid), k.1 ≠ id :=
    fun id hs hs' pid k hk heq => hkept ⟨id, hs, hs', pid, k, hk, heq⟩
  revert horphans hsets hctl
  generalize s.sets.usemctl c semid semnum cmd = r
  intro hctl hsets horphans
  cases hctl with
  | kept _ _ hsems hsemu _ _ =>
    rw [← hsets] at hsems hsemu
    refine hb.of_sems (fun id => ?_) ?_ (fun pid k hk => Or.inl (owned_same hsemu rfl pid k hk)) rfl
    · rw [hsems]
      cases hs : s.sets.sems id with
      | none => exact trivial
      | some r => exact ⟨rfl, hb.vals id _ _ hs⟩
    · rw [hsemu]
      exact hb.nodup
  | setval _ val v nsems base hs _ _ hv hsems hsemu _ _ =>
    rw [← hsets] at hsems hsemu
    exact hb.setTo hs (fun _ _ _ => hv) hsems hsemu rfl rfl
  | setall _ array j nsems base hs _ _ hfits hsems hsemu _ _ =>
    rw [← hsets] at hsems hsemu
    refine hb.setTo hs (fun n _ hn => ?_) hsems hsemu rfl rfl
    obtain ⟨u, hu, hle⟩ := hfits n hn
    rw [hu]
    exact hle
  | removed _ nsems base hs hsems hsemu _ =>
    have hgone : ∀ pid, ∀ k ∈ keys (s.sets.tables.semu pid), k.1 ≠ semid.toNat :=
      horphans _ (by rw [hs]; rfl) (by rw [hsems, if_pos rfl])
    rw [← hsets] at hsems hsemu
    refine ⟨fun id nsems' base' hs' n hn => ?_, ?_, fun pid k hk => ?_⟩
    · rw [hsems] at hs'
      split_ifs at hs'
      exact hb.vals id _ _ hs' n hn
    · rw [hsemu]
      exact hb.nodup
    · rw [hsemu] at hk
      obtain ⟨h1, h2, h3, nsems', base', hs', hlt⟩ := hb.owned pid k hk
      have hne : k.1.toNat ≠ semid.toNat := by
        have := hgone pid k hk
        omega
      exact ⟨h1, h2, h3, nsems', base', by rw [hsems, if_neg hne]; exact hs', hlt⟩

theorem Bounded.get (hb : Bounded s) (c : GetCtx) (skey nsems : ℤ) (semflg : ℕ) :
    Bounded (s.get c skey nsems semflg) := by
  have hgot := usemget_got s.sets c skey nsems semflg
  unfold State.get
  revert hgot
  generalize s.sets.usemget c skey nsems semflg = r
  intro hgot
  cases hgot with
  | kept hsems hsemu hlive =>
    have hgen : s.genAfter r.value = s.gen := by
      cases hr : r.value with
      | error e => rfl
      | ok id => exact if_pos (hlive id hr)
    simp only [hgen]
    refine hb.of_sems (fun id => ?_) ?_ (fun pid k hk => Or.inl ⟨?_, rfl⟩) rfl
    · rw [hsems]
      cases hs : s.sets.sems id with
      | none => exact trivial
      | some r => exact ⟨rfl, hb.vals id _ _ hs⟩
    · rw [hsemu]
      exact hb.nodup
    · rw [hsemu] at hk
      exact hk
  | created id nsems base hval hlive hzero hsems hsemu =>
    simp only [hval, State.genAfter, hlive, Option.isSome_none, Bool.false_eq_true, if_false]
    have hnone : s.sets.sems id = none := by rw [Sets.sems, hlive]; rfl
    refine ⟨fun id' nsems' base' hs' n hn => ?_, ?_, fun pid k hk => ?_⟩
    · rw [hsems] at hs'
      split_ifs at hs'
      · cases hs'
        rw [hzero n hn]
        exact Nat.zero_le _
      · exact hb.vals id' _ _ hs' n hn
    · rw [hsemu]
      exact hb.nodup
    · rw [hsemu] at hk
      obtain ⟨h1, h2, h3, nsems', base', hs', hlt⟩ := hb.owned pid k hk
      have hne : k.1.toNat ≠ id := by
        intro heq
        rw [heq, hnone] at hs'
        cases hs'
      refine ⟨h1, h2, ?_, nsems', base', by rw [hsems, if_neg hne]; exact hs', hlt⟩
      simp only [Function.update_of_ne hne]
      exact h3

theorem Bounded.exit (hb : Bounded s) (c : Ctx) (hfit : Adjustable s (.exit c)) :
    Bounded (s.exit c) := by
  have hmax := t.semvmx_le
  have hsemu : (s.exit c).sets.tables.semu = Function.update s.sets.tables.semu c.self [] := rfl
  have hpos : ∀ k ∈ keys (s.sets.tables.semu c.self), 0 ≤ k.1 ∧ 0 ≤ k.2 := fun k hk =>
    ⟨(hb.owned c.self k hk).1, (hb.owned c.self k hk).2.1⟩
  refine hb.of_sems (fun id => ?_) (fun pid => ?_) (fun pid k hk => ?_) rfl
  · have hsems := exit_sems s c id
    revert hsems
    cases hs : s.sets.sems id with
    | none =>
      cases (s.exit c).sets.sems id with
      | none => exact fun h => h
      | some r' => exact fun h => h
    | some r =>
      obtain ⟨nsems, base⟩ := r
      cases (s.exit c).sets.sems id with
      | none => exact fun h => h
      | some r' =>
        obtain ⟨nsems', base'⟩ := r'
        rintro ⟨rfl, hval⟩
        refine ⟨rfl, fun n hn => ?_⟩
        have hin := hfit id _ _ hs n hn
        rw [(hval n).1, applied_eq (hb.nodup c.self) hpos]
        have := ushort_val ((base n).semval.val +
          (adjustment (s.sets.tables.semu c.self) id n).val)
        omega
  · rw [hsemu, Function.update_apply]
    split_ifs
    · exact List.nodup_nil
    · exact hb.nodup pid
  · rw [hsemu, Function.update_apply] at hk
    split_ifs at hk
    · cases hk
    · exact Or.inl ⟨hk, rfl⟩

/-! ### Runs -/

theorem Bounded.init (h : Init s) : Bounded s := by
  refine ⟨fun id nsems base hs => ?_, fun pid => ?_, fun pid k hk => ?_⟩
  · obtain ⟨semids, hsem, -⟩ := sems_eq_some hs
    rw [h.semids] at hsem
    cases hsem
  · rw [h.semu]
    exact List.nodup_nil
  · rw [h.semu] at hk
    cases hk

theorem Bounded.step (hb : Bounded s) (hsafe : Safe s a) (h : s.step a = some s') : Bounded s' := by
  cases step_cases h with
  | get c skey nsems semflg _ => exact hb.get c skey nsems semflg
  | ctl c semid semnum cmd _ => exact hb.ctl c semid semnum cmd hsafe.kept
  | refused c semId acc sops _ => exact hb
  | pass c semId acc sops semids _ _ hsem halloc hbegins =>
    refine hb.pass hsem halloc fun done op h hstop hun => ?_
    exact hsafe.rollback _ _ done op h ⟨_, _, hbegins, hstop, hun⟩
  | removed c signalled sl semids _ hsem _ =>
    have hsets : (s.awake c.self semids).sets = s.sets := by
      rw [State.awake, ← hsem]
    exact ⟨by rw [hsets]; exact hb.vals, by rw [hsets]; exact hb.nodup,
      by unfold Owned; rw [hsets]; exact hb.owned⟩
  | interrupted c sl semids _ hsem halloc => exact hb.awake hsem sl halloc c.self
  | retry c sl semids _ _ hsem halloc hbegins =>
    have hal : (leave semids sl sl.semId).alloc = true := by
      rw [leave, Function.update_self, SemidDs.alloc, (count_frame _ _ _).2]
      exact halloc
    refine (hb.awake hsem sl halloc c.self).pass rfl hal fun done op h hstop hun => ?_
    exact hsafe.rollback _ _ done op h ⟨_, _, hbegins, hstop, hun⟩
  | exit c _ => exact hb.exit c hsafe.exit

end CohKernel.Sem386
