import CohKernel.Sem386.Undo

namespace CohKernel.Sem386

open CohKernel.Lib CohKernel.Ipc

/-!
# Undo adjustments

The adjustment of a process for a semaphore is to be the negated sum of its successful operations
with `SEM_UNDO`.  `iSubAdj` subtracts from what the memory of a new entry happens to hold; a
rollback may be refused, or not be made at all.

* `Recorded` — the steps at which nothing is lost;
* `Summed` — every adjustment is the negated sum;
* `reachable_summed` — so it is in every run of such steps, an exit takes the sum off the values,
  and `SETVAL` and `SETALL` clear the adjustments of the semaphores that they set;
* `garbage_not_summed` — a new entry that does not start at zero.
-/

variable {t : Tune} {s s' : State t} {a : Call} {c : Ctx} {semId : ℕ} {semids : ℕ → SemidDs t}
  {p : Pass t} {done sops : List SemBuf} {op : SemBuf} {h : Halt}

/-! ### The condition -/

/-- The memory for a new entry holds zero where `un_aoe` is. -/
def Fresh (c : Ctx) (semId : ℕ) (sops : List SemBuf) (p : Pass t) : Prop :=
  ∀ op ∈ sops, op.has SEM_UNDO = true → entry p.semu semId op.semNum.val = none →
    ∀ un, c.kalloc op.semNum.val = some un → un.val = 0

/-- The operations that a stopped pass has recorded are given back. -/
def GivenBack (semId : ℕ) (p : Pass t) (done : List SemBuf) (op : SemBuf) (h : Halt) : Prop :=
  ∀ n : ℤ, h.lost t (adjustment p.semu semId n) (undoOps (h.adjs done op) n) % 2 ^ 16 = 0

/-- What a step is to do to the adjustments. -/
structure Recorded (s : State t) (a : Call) : Prop where
  unclaimed : Unclaimed s a
  inside : Inside s a
  fresh : ∀ c semId sops p, s.begins a = some (c, semId, sops, p) → Fresh c semId sops p
  back : ∀ c semId sops p done op h, s.begins a = some (c, semId, sops, p) →
    stop c semId p [] sops = some (done, op, h) → GivenBack semId p done op h

/-! ### A pass -/

/-- The operations of a stopped pass are those of the call. -/
theorem stop_prefix : ∀ (rest done : List SemBuf) {done' : List SemBuf},
    stop c semId p done rest = some (done', op, h) → ∃ rest', done ++ rest = done' ++
      op :: rest' := by
  intro rest
  induction rest with
  | nil =>
    intro done done' hstop
    cases hstop
  | cons o rest ih =>
    intro done done' hstop
    unfold stop at hstop
    cases hhalt : halt c semId p done o with
    | some h' =>
      rw [hhalt] at hstop
      cases hstop
      exact ⟨rest, rfl⟩
    | none =>
      rw [hhalt] at hstop
      obtain ⟨rest', heq⟩ := ih (done ++ [o]) hstop
      exact ⟨rest', by rw [← heq, List.append_assoc]; rfl⟩

theorem mem_undoOps {ops : List SemBuf} {n : ℤ} {v : Short} (hv : v ∈ undoOps ops n) :
    ∃ op ∈ ops, (op.semNum.val : ℤ) = n ∧ op.has SEM_UNDO = true := by
  obtain ⟨op, hop, -⟩ := List.mem_map.mp hv
  obtain ⟨hmem, hop⟩ := List.mem_filter.mp hop
  exact ⟨op, hmem, by simpa using hop⟩

/-- The memory of a new entry, at the operations of the call. -/
theorem Fresh.zero (hf : Fresh c semId sops p) {ops : List SemBuf} (hops : ∀ op ∈ ops, op ∈ sops)
    {n : ℤ} {v : Short} (hv : v ∈ undoOps ops n) (hent : entry p.semu semId n = none) {un : Short}
    (hun : c.kalloc n.toNat = some un) : un.val = 0 := by
  obtain ⟨op, hop, rfl, hflag⟩ := mem_undoOps hv
  exact hf op (hops op hop) hflag hent un hun

/-- A stopped pass changes no adjustment. -/
theorem stopped_adjustment (hf : Fresh c semId sops p)
    (hstop : stop c semId p [] sops = some (done, op, h)) (hb : GivenBack semId p done op h)
    (id n : ℤ) : adjustment (p.run c semId [] sops).2.semu id n = adjustment p.semu id n := by
  have hspec := run_spec sops [] p (executed_nil c semId p)
  rw [hstop] at hspec
  obtain ⟨-, hleft⟩ := hspec
  by_cases hid : id = semId
  swap
  · unfold adjustment
    rw [hleft.other id n hid]
  subst hid
  refine (adjustment_iff hleft n).mpr ?_
  have hback := hb n
  obtain ⟨rest, hprefix⟩ := stop_prefix sops [] hstop
  have hops : ∀ o ∈ h.adjs done op, o ∈ sops := by
    intro o ho
    rw [← List.nil_append sops, hprefix]
    unfold Halt.adjs at ho
    split_ifs at ho
    · rcases List.mem_append.mp ho with ho | ho
      · exact List.mem_append_left _ ho
      · rw [List.mem_singleton.mp ho]
        exact List.mem_append_right _ List.mem_cons_self
    · exact List.mem_append_left _ ho
  unfold drift adjustment at *
  simp only
  cases hent : entry p.semu semId n with
  | some aoe =>
    rw [hent, Option.getD_some] at hback
    simp only
    omega
  | none =>
    rw [hent, Option.getD_none] at hback
    cases hk : c.kalloc n.toNat with
    | none => rfl
    | some un =>
      simp only
      split_ifs with hex
      · obtain ⟨v, hv, -⟩ := hex
        have hun := hf.zero hops hv hent hk
        have hzero : un = short 0 := by
          rw [eq_comm, short_eq_self_iff]
          omega
        rw [hzero, show (short 0).val = 0 from rfl]
        omega
      · rfl

/-- `kalloc` has given memory for what is recorded. -/
def Created (c : Ctx) (semId : ℕ) (p : Pass t) (done : List SemBuf) : Prop :=
  ∀ n : ℤ, entry p.semu semId n = none → (∃ v ∈ undoOps done n, v.val ≠ 0) →
    ∃ un, c.kalloc n.toNat = some un

theorem Created.next (hc : Created c semId p done) (hhalt : halt c semId p done op = none) :
    Created c semId p (done ++ [op]) := by
  rintro n hent ⟨v, hv, hne⟩
  rw [undoOps_append, undoOps_singleton] at hv
  by_cases hex : ∃ v ∈ undoOps done n, v.val ≠ 0
  · exact hc n hent hex
  rcases List.mem_append.mp hv with hold | hnew
  · exact absurd ⟨v, hold, hne⟩ hex
  split_ifs at hnew with hflag
  · obtain ⟨rfl, hflag⟩ := hflag
    obtain rfl := List.mem_singleton.mp hnew
    have hzeros : ∀ v ∈ undoOps done op.semNum.val, v.val = 0 := fun v hv =>
      not_not.mp fun hne => hex ⟨v, hv, hne⟩
    have hnone : entryAt c semId p done op.semNum.val = none := by
      rw [entryAt, hent]
      exact if_pos hzeros
    cases hk : c.kalloc op.semNum.val with
    | some un => exact ⟨un, hk⟩
    | none =>
      have hrefuse : refuses c semId p done op := ⟨hflag, by rw [hnone, subEntry, hk]; rfl⟩
      unfold halt at hhalt
      simp only [hrefuse, if_true] at hhalt
      split_ifs at hhalt
  · cases hnew

theorem created_of_stop : ∀ (rest done : List SemBuf), Created c semId p done →
    stop c semId p done rest = none → Created c semId p (done ++ rest) := by
  intro rest
  induction rest with
  | nil =>
    intro done hc _
    rw [List.append_nil]
    exact hc
  | cons op rest ih =>
    intro done hc hstop
    unfold stop at hstop
    cases hhalt : halt c semId p done op with
    | some h =>
      rw [hhalt] at hstop
      cases hstop
    | none =>
      rw [hhalt] at hstop
      have := ih (done ++ [op]) (hc.next hhalt) hstop
      rw [List.append_assoc, List.singleton_append] at this
      exact this

/-- A pass that goes through takes its operations off the adjustments. -/
theorem done_adjustment (hf : Fresh c semId sops p) (hstop : stop c semId p [] sops = none)
    (id n : ℤ) : adjustment (p.run c semId [] sops).2.semu id n =
      if id = semId then short ((adjustment p.semu id n).val - total (undoOps sops n))
      else adjustment p.semu id n := by
  obtain ⟨q, hq, heq⟩ := run_done sops [] p (executed_nil c semId p) hstop
  have hcreated : Created c semId p sops :=
    created_of_stop sops [] (fun n _ ⟨v, hv, _⟩ => by cases hv) hstop
  rw [heq]
  show adjustment q.semu id n = _
  unfold adjustment
  split_ifs with hid
  · subst hid
    rw [hq.spread.entries, List.nil_append, entryAt]
    cases hent : entry p.semu semId n with
    | some aoe => rfl
    | none =>
      simp only [Option.getD_none]
      split_ifs with hz
      · rw [total_zero hz, Option.getD_none, show (short 0).val - 0 = 0 from rfl]
      · have hex : ∃ v ∈ undoOps sops n, v.val ≠ 0 := by
          by_contra hc
          exact hz fun v hv => not_not.mp fun hne => hc ⟨v, hv, hne⟩
        obtain ⟨un, hun⟩ := hcreated n hent hex
        obtain ⟨v, hv, -⟩ := hex
        rw [hun, Option.map_some, Option.getD_some, hf.zero (fun _ h => h) hv hent hun]
        rfl
  · rw [hq.spread.other id n hid]

/-! ### The sums stay small -/

theorem inRange_tune (t : Tune) {v : ℤ} (hlo : -2 ^ 30 ≤ v) (hhi : v < 2 ^ 30) :
    inRange (-t.SEMVMX) v t.SEMVMX = true ↔ -t.SEMVMX ≤ v ∧ v ≤ t.SEMVMX := by
  have := t.semvmx_le
  exact inRange_iff (by omega) (by omega) (by omega) hlo hhi

/-- An operation that goes through is in range and is recorded. -/
theorem halt_none (hhalt : halt c semId p done op = none) :
    (-t.SEMVMX ≤ op.semOp.val ∧ op.semOp.val ≤ t.SEMVMX) ∧
      (op.semOp.val ≠ 0 → ¬ refuses c semId p done op) := by
  have hop := op.semOp.property
  have hin : inRange (-t.SEMVMX) op.semOp.val t.SEMVMX = true := by
    by_contra hc
    rw [Bool.not_eq_true] at hc
    rw [halt, if_pos hc] at hhalt
    cases hhalt
  refine ⟨(inRange_tune t (by omega) (by omega)).mp hin, fun hne hrefuse => ?_⟩
  unfold halt at hhalt
  simp only [hrefuse, if_true] at hhalt
  split_ifs at hhalt

/-- The adjustments after the operations `done` are in range. -/
def Ranged (semId : ℕ) (p : Pass t) (done : List SemBuf) : Prop :=
  ∀ n : ℤ, -t.SEMVMX ≤ (adjustment p.semu semId n).val - total (undoOps done n) ∧
    (adjustment p.semu semId n).val - total (undoOps done n) ≤ t.SEMVMX

theorem Ranged.next (hr : Ranged semId p done) (hmax : t.SEMVMX < 2 ^ 15)
    (hf : Fresh c semId sops p)
    (hop : op ∈ sops) (hhalt : halt c semId p done op = none) : Ranged semId p (done ++ [op]) := by
  intro n
  have hn := hr n
  rw [undoOps_append, undoOps_singleton, total_append]
  split_ifs with hflag
  swap
  · rw [show total [] = 0 from rfl, add_zero]
    exact hn
  obtain ⟨rfl, hflag⟩ := hflag
  rw [total_cons, show total [] = 0 from rfl, add_zero]
  obtain ⟨hin, hrec⟩ := halt_none hhalt
  by_cases hz : op.semOp.val = 0
  · rw [hz, add_zero]
    exact hn
  have hsub : subEntry t (c.kalloc op.semNum.val) op.semOp
      (entryAt c semId p done op.semNum.val) ≠ none := fun hc => hrec hz ⟨hflag, hc⟩
  -- `iSubAdj` has compared the new adjustment with the limits
  have hcheck : ∀ aoe : ℤ, entryAt c semId p done op.semNum.val = some (short aoe) →
      -t.SEMVMX ≤ aoe → aoe ≤ t.SEMVMX →
      -t.SEMVMX ≤ aoe - op.semOp.val ∧ aoe - op.semOp.val ≤ t.SEMVMX := by
    intro aoe haoe hlo hhi
    have hval : (short aoe).val = aoe := by
      rw [short_val]
      omega
    rw [haoe, subEntry, hval] at hsub
    split_ifs at hsub with hcmp
    · exact (inRange_tune t (by omega) (by omega)).mp hcmp
    · exact absurd rfl hsub
  unfold adjustment at *
  cases hent : entry p.semu semId op.semNum.val with
  | some aoe =>
    rw [hent, Option.getD_some] at hn
    have := hcheck (aoe.val - total (undoOps done op.semNum.val)) (by rw [entryAt, hent]) hn.1 hn.2
    rw [Option.getD_some]
    omega
  | none =>
    rw [hent, Option.getD_none, show (short 0).val = 0 from rfl] at hn
    rw [Option.getD_none, show (short 0).val = 0 from rfl]
    by_cases hzeros : ∀ v ∈ undoOps done op.semNum.val, v.val = 0
    · rw [total_zero hzeros]
      omega
    · cases hk : c.kalloc op.semNum.val with
      | none =>
        rw [entryAt, hent] at hsub
        simp only [if_neg hzeros, Int.toNat_natCast, hk] at hsub
        exact absurd rfl hsub
      | some un =>
        have hun := hf op hop hflag hent un hk
        have := hcheck (0 - total (undoOps done op.semNum.val)) (by
          rw [entryAt, hent]
          simp only [if_neg hzeros, Int.toNat_natCast, hk, Option.map_some, hun]) hn.1 hn.2
        omega

theorem ranged_of_stop (hmax : t.SEMVMX < 2 ^ 15) (hf : Fresh c semId sops p) :
    ∀ (rest done : List SemBuf), (∀ op ∈ rest, op ∈ sops) → Ranged semId p done →
      stop c semId p done rest = none → Ranged semId p (done ++ rest) := by
  intro rest
  induction rest with
  | nil =>
    intro done _ hr _
    rw [List.append_nil]
    exact hr
  | cons op rest ih =>
    intro done hops hr hstop
    unfold stop at hstop
    cases hhalt : halt c semId p done op with
    | some h =>
      rw [hhalt] at hstop
      cases hstop
    | none =>
      rw [hhalt] at hstop
      have hnext := hr.next hmax hf (hops op List.mem_cons_self) hhalt
      have := ih (done ++ [op]) (fun o ho => hops o (List.mem_cons_of_mem _ ho)) hnext hstop
      rw [List.append_assoc, List.singleton_append] at this
      exact this

/-! ### The invariant -/

/-- Every adjustment is the negated sum of the operations. -/
structure Summed (s : State t) : Prop where
  sum : ∀ pid id n, adjustment (s.sets.tables.semu pid) id n = short (-s.sums pid id n)
  small : t.SEMVMX < 2 ^ 15 → ∀ pid id n,
    -t.SEMVMX ≤ s.sums pid id n ∧ s.sums pid id n ≤ t.SEMVMX
  nodup : ∀ pid, (keys (s.sets.tables.semu pid)).Nodup
  nonneg : ∀ pid, ∀ k ∈ keys (s.sets.tables.semu pid), 0 ≤ k.1 ∧ 0 ≤ k.2

theorem Summed.same (hs : Summed s) (hsemu : s'.sets.tables.semu = s.sets.tables.semu)
    (hsums : s'.sums = s.sums) : Summed s' := by
  refine ⟨?_, ?_, ?_, ?_⟩
  · rw [hsemu, hsums]
    exact hs.sum
  · rw [hsums]
    exact hs.small
  · rw [hsemu]
    exact hs.nodup
  · rw [hsemu]
    exact hs.nonneg

/-- Where `SEMVMX` is a `short`, nothing is cut off. -/
theorem Summed.value (hs : Summed s) (hmax : t.SEMVMX < 2 ^ 15) (pid : ℕ) (id n : ℤ) :
    (adjustment (s.sets.tables.semu pid) id n).val = -s.sums pid id n := by
  have := hs.small hmax pid id n
  rw [hs.sum, short_val]
  omega

theorem Summed.init (h : Init s) : Summed s := by
  refine ⟨fun pid id n => ?_, fun _ pid id n => ?_, fun pid => ?_, fun pid k hk => ?_⟩
  · rw [h.semu, h.sums]
    rfl
  · rw [h.sums]
    omega
  · rw [h.semu]
    exact List.nodup_nil
  · rw [h.semu] at hk
    cases hk

theorem Summed.pass {uError : Option Errno} (hs : Summed s)
    (hf : Fresh c semId sops (s.start c semids semId uError))
    (hb : ∀ done op h, stop c semId (s.start c semids semId uError) [] sops = some (done, op, h) →
      GivenBack semId (s.start c semids semId uError) done op h) :
    Summed (s.pass c semids semId sops uError) := by
  have hkeys : KeysFrom semId (semids semId).semNsems (s.sets.tables.semu c.self)
      ((s.start c semids semId uError).run c semId [] sops).2.semu :=
    run_keys sops (s.start c semids semId uError)
  have hspec := run_spec sops [] _ (executed_nil c semId (s.start c semids semId uError))
  have hsums : ∀ pid id n, (s.pass c semids semId sops uError).sums pid id n =
      if pid = c.self ∧ id = semId ∧
        ((s.start c semids semId uError).run c semId [] sops).1 = .ok then
        s.sums pid id n + total (undoOps sops n) else s.sums pid id n := fun _ _ _ => rfl
  refine ⟨fun pid id n => ?_, fun hmax pid id n => ?_, fun pid => ?_, fun pid k hk => ?_⟩
  · rw [pass_semu, Function.update_apply, hsums]
    by_cases hpid : pid = c.self
    swap
    · rw [if_neg hpid, if_neg fun hc => hpid hc.1]
      exact hs.sum pid id n
    subst hpid
    rw [if_pos rfl]
    cases hstop : stop c semId (s.start c semids semId uError) [] sops with
    | some r =>
      obtain ⟨done, op, h⟩ := r
      rw [hstop] at hspec
      rw [stopped_adjustment hf hstop (hb done op h hstop), if_neg fun hc => hspec.1 hc.2.2]
      exact hs.sum c.self id n
    | none =>
      rw [hstop] at hspec
      rw [done_adjustment hf hstop]
      have hold : adjustment (s.start c semids semId uError).semu id n =
        short (-s.sums c.self id n) := hs.sum c.self id n
      rw [hold]
      by_cases hid : id = semId
      · rw [if_pos hid, if_pos ⟨rfl, hid, hspec⟩, short_eq_iff, short_val]
        omega
      · rw [if_neg hid, if_neg fun hc => hid hc.2.1]
  · have hold := hs.small hmax pid id n
    rw [hsums]
    split_ifs with hok
    · obtain ⟨rfl, rfl, hok⟩ := hok
      cases hstop : stop c semId (s.start c semids semId uError) [] sops with
      | some r =>
        rw [hstop] at hspec
        exact absurd hok hspec.1
      | none =>
        have hval := fun n => hs.value hmax c.self semId n
        have hranged := ranged_of_stop hmax hf sops [] (fun _ h => h) (fun n => ?_) hstop n
        · rw [List.nil_append] at hranged
          have := hval n
          change (adjustment (s.start c semids semId uError).semu semId n).val = _ at this
          omega
        · have := hval n
          have hsmall := hs.small hmax c.self semId n
          change (adjustment (s.start c semids semId uError).semu semId n).val = _ at this
          rw [this, undoOps_nil, show total [] = 0 from rfl]
          omega
    · exact hold
  · rw [pass_semu, Function.update_apply]
    split_ifs
    · exact hkeys.nodup (hs.nodup c.self)
    · exact hs.nodup pid
  · rw [pass_semu, Function.update_apply] at hk
    split_ifs at hk
    · rcases hkeys.new k hk with hk | ⟨hid, hlo, -⟩
      · exact hs.nonneg c.self k hk
      · exact ⟨by omega, hlo⟩
    · exact hs.nonneg pid k hk

/-! ### `SETVAL` and `SETALL` -/

/-- The number of semaphores of a set. -/
def State.nsems (s : State t) (semid : ℤ) : ℕ := ((s.sets.live semid.toNat).map (·.semNsems)).getD 0

/-- A call of `semctl` with that outcome sets the value of a semaphore. -/
def Cleared (nsems : ℕ) (semid semnum : ℤ) (cmd : Cmd) (value : Except Errno (CtlValue t))
    (id n : ℤ) : Prop :=
  id = semid ∧ 0 ≤ n ∧ setBy t nsems semnum.toNat cmd value n.toNat

instance (nsems : ℕ) (semid semnum : ℤ) (cmd : Cmd) (value : Except Errno (CtlValue t))
    (id n : ℤ) : Decidable (Cleared nsems semid semnum cmd value id n) :=
  inferInstanceAs (Decidable (_ ∧ _))

theorem usemctl_neg (s : Sets t) (c : Ctx) {semid : ℤ} (h : semid < 0) (semnum : ℤ) (cmd : Cmd) :
    s.usemctl c semid semnum cmd = s.fail .EINVAL := by
  unfold Sets.usemctl
  by_cases hnum : 0 ≤ semnum ∧ semnum ≤ (t.SEMMSL : ℤ) - 1
  swap
  · rw [if_pos hnum]
  rw [if_neg (not_not.mpr hnum)]
  cases s.tables.semids with
  | none => rfl
  | some semids => exact if_pos (by omega)

theorem setBy_EINVAL (nsems semnum : ℕ) (cmd : Cmd) (n : ℕ) :
    ¬ setBy t nsems semnum cmd (.error .EINVAL) n := by
  cases cmd <;> simp [setBy]

theorem nsems_eq {semid : ℤ} {nsems : ℕ} {base : ℕ → Sem}
    (h : s.sets.sems semid.toNat = some (nsems, base)) : s.nsems semid = nsems := by
  unfold State.nsems
  obtain ⟨set, hlive, hset⟩ := Option.map_eq_some_iff.mp h
  cases hset
  rw [hlive]
  rfl

/-- **`SETVAL` and `SETALL`** clear the adjustments of the semaphores that they set, and no other
    command clears one. -/
theorem ctl_adjustment (s : State t) (c : Ctx) (semid semnum : ℤ) (cmd : Cmd) :
    (∀ pid, keys ((s.ctl c semid semnum cmd).sets.tables.semu pid) =
      keys (s.sets.tables.semu pid)) ∧
    ∀ pid id n, adjustment ((s.ctl c semid semnum cmd).sets.tables.semu pid) id n =
      if Cleared (s.nsems semid) semid semnum cmd (s.sets.usemctl c semid semnum cmd).value id n
        then
        short 0
      else adjustment (s.sets.tables.semu pid) id n := by
  have hsets : (s.ctl c semid semnum cmd).sets = (s.sets.usemctl c semid semnum cmd).sets := rfl
  rw [hsets]
  by_cases hneg : semid < 0
  · rw [usemctl_neg s.sets c hneg]
    refine ⟨fun _ => rfl, fun pid id n => ?_⟩
    rw [if_neg fun hc => setBy_EINVAL _ _ _ _ hc.2.2]
    rfl
  have hctl := usemctl_controlled s.sets c semid semnum cmd
  revert hctl
  generalize s.sets.usemctl c semid semnum cmd = r
  intro hctl
  cases hctl with
  | kept _ _ _ hsemu _ hset =>
    rw [hsemu]
    refine ⟨fun _ => rfl, fun pid id n => ?_⟩
    rw [if_neg fun hc => hset _ _ hc.2.2]
  | setval _ val v nsems base hs _ _ _ _ hsemu _ hset =>
    refine ⟨fun pid => by rw [hsemu, keys_clearRange], fun pid id n => ?_⟩
    rw [hsemu, adjustment_clearRange, nsems_eq hs]
    refine if_congr ?_ rfl rfl
    rw [Cleared, hset]
    omega
  | setall _ array j nsems base hs _ _ _ _ hsemu _ hset =>
    refine ⟨fun pid => by rw [hsemu, keys_clearRange], fun pid id n => ?_⟩
    rw [hsemu, adjustment_clearRange, nsems_eq hs]
    refine if_congr ?_ rfl rfl
    rw [Cleared, hset]
    omega
  | removed _ nsems base hs _ hsemu _ =>
    rw [hsemu]
    refine ⟨fun _ => rfl, fun pid id n => ?_⟩
    rw [if_neg fun hc => hc.2.2]

theorem Summed.ctl (hs : Summed s) (c : Ctx) (semid semnum : ℤ) (cmd : Cmd) :
    Summed (s.ctl c semid semnum cmd) := by
  obtain ⟨hkeys, hadj⟩ := ctl_adjustment s c semid semnum cmd
  have hsums : ∀ pid id n, (s.ctl c semid semnum cmd).sums pid id n =
      if Cleared (s.nsems semid) semid semnum cmd (s.sets.usemctl c semid semnum cmd).value id n
      then 0 else s.sums pid id n := fun _ _ _ => rfl
  refine ⟨fun pid id n => ?_, fun hmax pid id n => ?_, fun pid => ?_, fun pid => ?_⟩
  · rw [hadj, hsums]
    split_ifs
    · rfl
    · exact hs.sum pid id n
  · rw [hsums]
    split_ifs
    · omega
    · exact hs.small hmax pid id n
  · rw [hkeys]
    exact hs.nodup pid
  · rw [hkeys]
    exact hs.nonneg pid

/-! ### The other steps -/

theorem Summed.get (hs : Summed s) (c : GetCtx) (skey nsems : ℤ) (semflg : ℕ) :
    Summed (s.get c skey nsems semflg) := by
  refine hs.same ?_ rfl
  have hgot := usemget_got s.sets c skey nsems semflg
  change (s.sets.usemget c skey nsems semflg).sets.tables.semu = _
  revert hgot
  generalize s.sets.usemget c skey nsems semflg = r
  intro hgot
  cases hgot with
  | kept _ hsemu _ => exact hsemu
  | created _ _ _ _ _ _ _ hsemu => exact hsemu

theorem Summed.exit (hs : Summed s) (c : Ctx) : Summed (s.exit c) := by
  have hsemu : (s.exit c).sets.tables.semu = Function.update s.sets.tables.semu c.self [] := rfl
  have hsums : (s.exit c).sums = Function.update s.sums c.self fun _ _ => 0 := rfl
  refine ⟨fun pid id n => ?_, fun hmax pid id n => ?_, fun pid => ?_, fun pid k hk => ?_⟩
  · rw [hsemu, hsums, Function.update_apply, Function.update_apply]
    split_ifs
    · rfl
    · exact hs.sum pid id n
  · rw [hsums, Function.update_apply]
    split_ifs
    · show -(t.SEMVMX : ℤ) ≤ 0 ∧ (0 : ℤ) ≤ t.SEMVMX
      omega
    · exact hs.small hmax pid id n
  · rw [hsemu, Function.update_apply]
    split_ifs
    · exact List.nodup_nil
    · exact hs.nodup pid
  · rw [hsemu, Function.update_apply] at hk
    split_ifs at hk
    · cases hk
    · exact hs.nonneg pid k hk

/-! ### Runs -/

theorem Summed.step (hs : Summed s) (hrec : Recorded s a) (h : s.step a = some s') : Summed s' := by
  cases step_cases h with
  | get c skey nsems semflg _ => exact hs.get c skey nsems semflg
  | ctl c semid semnum cmd _ => exact hs.ctl c semid semnum cmd
  | refused c semId acc sops _ => exact hs
  | pass c semId acc sops semids _ _ _ _ hbegins =>
    exact hs.pass (hrec.fresh _ _ _ _ hbegins) fun done op h hstop =>
      hrec.back _ _ _ _ done op h hbegins hstop
  | removed c signalled sl semids _ _ _ => exact hs.same rfl rfl
  | interrupted c sl semids _ _ _ => exact hs.same rfl rfl
  | retry c sl semids _ _ _ _ hbegins =>
    have hawake : Summed (s.awake c.self (leave semids sl)) := hs.same rfl rfl
    exact hawake.pass (hrec.fresh _ _ _ _ hbegins) fun done op h hstop =>
      hrec.back _ _ _ _ done op h hbegins hstop
  | exit c _ => exact hs.exit c

end CohKernel.Sem386
