import CohKernel.Sem386.Rollback

namespace CohKernel.Sem386

open CohKernel.Lib CohKernel.Ipc

/-!
# The passes of `semop`

Where a pass stops and what is left of it is described by the operations and by the state in
which the pass starts.

* `halt`, `stop` — the first operation that does not go through, and why;
* `turn_spec` — one operation goes through or stops the pass, as `halt` says;
* `run_spec` — what a pass leaves behind when it stops.
-/

variable {t : Tune} {c : Ctx} {semId : ℕ}

/-! ### Where a pass stops -/

/-- Why an operation does not go through. -/
inductive Halt where
  | tooBig
  | number
  | noWrite
  | noAccess
  | noRead
  | block
  | adjust
  | over
deriving DecidableEq

/-- The value of semaphore `n` after the operations `done`. -/
def valueAt (p : Pass t) (done : List SemBuf) (n : ℕ) : ℤ := (p.val n).val + net done n

/-- The undo entry for semaphore `n` after the operations `done`. -/
def entryAt (c : Ctx) (semId : ℕ) (p : Pass t) (done : List SemBuf) (n : ℤ) : Option Short :=
  match entry p.semu semId n with
  | some aoe => some (short (aoe.val - total (undoOps done n)))
  | none =>
      if ∀ v ∈ undoOps done n, v.val = 0 then none
      else (c.kalloc n.toNat).map fun un => short (un.val - total (undoOps done n))

/-- `iSubAdj` fails for the operation. -/
def refuses (c : Ctx) (semId : ℕ) (p : Pass t) (done : List SemBuf) (op : SemBuf) : Prop :=
  op.has SEM_UNDO = true ∧
    subEntry t (c.kalloc op.semNum.val) op.semOp (entryAt c semId p done op.semNum.val) = none

instance (p : Pass t) (done : List SemBuf) (op : SemBuf) : Decidable (refuses c semId p done op) :=
  inferInstanceAs (Decidable (_ ∧ _))

/-- Why `op` does not go through after the operations `done` of a pass that starts in `p`. -/
def halt (c : Ctx) (semId : ℕ) (p : Pass t) (done : List SemBuf) (op : SemBuf) : Option Halt :=
  let v := valueAt p done op.semNum.val
  if inRange (-t.SEMVMX) op.semOp.val t.SEMVMX = false then some .tooBig
  else if p.uError ≠ none ∨ op.semNum.val ≥ p.set.semNsems then some .number
  else if op.semOp.val < 0 then
    if p.lacks c IWRITE then some .noWrite
    else if v ≥ -op.semOp.val then if refuses c semId p done op then some .adjust else none
    else some .block
  else if op.semOp.val = 0 then
    if p.lacks c IREAD then some (if p.lacks c IWRITE then .noAccess else .noRead)
    else if v = 0 then none else some .block
  else if p.lacks c IWRITE then some .noWrite
  else if refuses c semId p done op then some .adjust
  else if v > t.SEMVMX - op.semOp.val then some .over else none

/-- The operations that go through, the one that does not, and why; `none` when all do. -/
def stop (c : Ctx) (semId : ℕ) (p : Pass t) :
    List SemBuf → List SemBuf → Option (List SemBuf × SemBuf × Halt)
  | _, [] => none
  | done, op :: rest =>
      match halt c semId p done op with
      | some h => some (done, op, h)
      | none => stop c semId p (done ++ [op]) rest

/-- The operations whose values are in the set when the pass stops: a decrement that cannot be
    recorded has been made. -/
def Halt.vals (h : Halt) (done : List SemBuf) (op : SemBuf) : List SemBuf :=
  if h = .adjust ∧ op.semOp.val < 0 then done ++ [op] else done

/-- The operations whose adjustments are in the undo list when the pass stops: an increment out
    of range has been recorded. -/
def Halt.adjs (h : Halt) (done : List SemBuf) (op : SemBuf) : List SemBuf :=
  if h = .over then done ++ [op] else done

/-- The pass is rolled back. -/
def Halt.undoes (h : Halt) : Bool := decide (h ≠ .noWrite ∧ h ≠ .noRead)

/-! ### The operations that go through -/

/-- `p` is `p₀` with the values of `vals` and the adjustments of `adjs`. -/
structure Spread (c : Ctx) (semId : ℕ) (p₀ p : Pass t) (vals adjs : List SemBuf) : Prop where
  val : ∀ n, p.val n = ushort ((p₀.val n).val + net vals n)
  entries : ∀ n : ℤ, entry p.semu semId n = entryAt c semId p₀ adjs n
  other : ∀ id n : ℤ, id ≠ semId → entry p.semu id n = entry p₀.semu id n

/-- `p` is the state of the pass after the operations `done`. -/
structure Executed (c : Ctx) (semId : ℕ) (p₀ p : Pass t) (done : List SemBuf) : Prop where
  spread : Spread c semId p₀ p done done
  val : ∀ n, ((p.val n).val : ℤ) = valueAt p₀ done n
  nsems : p.set.semNsems = p₀.set.semNsems
  perm : p.set.semPerm = p₀.set.semPerm
  uError : p.uError = p₀.uError
  nums : ∀ op ∈ done, op.semNum.val < 2 ^ 15

theorem undoOps_nil (n : ℤ) : undoOps [] n = [] := rfl

theorem entryAt_nil (p : Pass t) (n : ℤ) : entryAt c semId p [] n = entry p.semu semId n := by
  rw [entryAt, undoOps_nil]
  cases entry p.semu semId n with
  | none => simp
  | some aoe =>
    simp only [total, List.map_nil, List.sum_nil, sub_zero, short_self]

theorem executed_nil (c : Ctx) (semId : ℕ) (p : Pass t) : Executed c semId p p [] := by
  refine ⟨⟨fun n => ?_, fun n => (entryAt_nil p n).symm, fun _ _ _ => rfl⟩, fun n => ?_, rfl, rfl,
    rfl, fun op hop => by cases hop⟩
  · rw [show net [] n = 0 from rfl, add_zero, ushort_self]
  · rw [valueAt, show net [] n = 0 from rfl, add_zero]

/-- The entry after one more operation. -/
theorem entryAt_snoc (p : Pass t) (done : List SemBuf) (op : SemBuf) (n : ℤ) :
    entryAt c semId p (done ++ [op]) n =
      if n = op.semNum.val ∧ op.has SEM_UNDO = true ∧ op.semOp.val ≠ 0 then
        match entryAt c semId p done n with
        | some aoe => some (short (aoe.val - op.semOp.val))
        | none => (c.kalloc n.toNat).map fun un => short (un.val - op.semOp.val)
      else entryAt c semId p done n := by
  by_cases h : n = op.semNum.val ∧ op.has SEM_UNDO = true
  · obtain ⟨rfl, hflag⟩ := h
    have happ : undoOps (done ++ [op]) op.semNum.val =
        undoOps done op.semNum.val ++ [op.semOp] := by
      rw [undoOps_append, undoOps_singleton, if_pos ⟨rfl, hflag⟩]
    have htot : total (undoOps (done ++ [op]) op.semNum.val) =
        total (undoOps done op.semNum.val) + op.semOp.val := by
      rw [happ, total_append]
      simp [total]
    have hadd : ∀ z : ℤ,
        short ((short (z - total (undoOps done op.semNum.val))).val - op.semOp.val) =
          short (z - (total (undoOps done op.semNum.val) + op.semOp.val)) := by
      intro z
      rw [short_eq_iff, short_val]
      omega
    have hzeros : (∀ v ∈ undoOps done op.semNum.val ++ [op.semOp], v.val = 0) ↔
        (∀ v ∈ undoOps done op.semNum.val, v.val = 0) ∧ op.semOp.val = 0 := by
      rw [List.forall_mem_append, List.forall_mem_singleton]
    unfold entryAt
    rw [htot, happ]
    simp only [hzeros]
    by_cases hz : op.semOp.val = 0
    · simp only [hz, and_true, add_zero, ne_eq, not_true_eq_false, and_false, if_false]
    · simp only [hflag, hz, and_false, if_false, ne_eq, not_false_eq_true, and_self, if_true]
      cases entry p.semu semId op.semNum.val with
      | some aoe => simp only [hadd]
      | none =>
        split_ifs with hall
        · rw [total_zero hall, zero_add]
        · cases c.kalloc (Int.toNat op.semNum.val) with
          | none => rfl
          | some un => simp only [Option.map_some, hadd]
  · have happ : undoOps (done ++ [op]) n = undoOps done n := by
      rw [undoOps_append, undoOps_singleton, if_neg fun hc => h ⟨hc.1.symm, hc.2⟩, List.append_nil]
    rw [if_neg fun hc => h ⟨hc.1, hc.2.1⟩]
    unfold entryAt
    rw [happ]

theorem ushort_add (a b : ℤ) : ushort ((ushort a).val + b) = ushort (a + b) := by
  rw [ushort_eq_iff, ushort_val]
  omega

variable {p₀ p : Pass t} {vals done : List SemBuf} {op : SemBuf}

/-- The value of one more operation. -/
theorem Spread.setVal {adjs : List SemBuf} (hs : Spread c semId p₀ p vals adjs) (op : SemBuf) :
    Spread c semId p₀ (p.setVal op.semNum.val
      (ushort ((p.val op.semNum.val).val + op.semOp.val))) (vals ++ [op]) adjs := by
  refine ⟨fun n => ?_, hs.entries, hs.other⟩
  rw [Pass.setVal_val, net_append, net_singleton]
  by_cases hn : n = op.semNum.val
  · subst hn
    rw [if_pos rfl, if_pos rfl, hs.val, ushort_add, add_assoc]
  · rw [if_neg hn, if_neg (Ne.symm hn), add_zero, hs.val]

/-- An operation that is not recorded. -/
theorem Spread.unrecorded (hs : Spread c semId p₀ p vals done)
    (hop : op.has SEM_UNDO = false ∨ op.semOp.val = 0) :
    Spread c semId p₀ p vals (done ++ [op]) := by
  refine ⟨hs.val, fun n => ?_, hs.other⟩
  rw [entryAt_snoc, if_neg, hs.entries]
  rintro ⟨-, hflag, hz⟩
  rcases hop with hop | hop
  · rw [hflag] at hop
    cases hop
  · exact hz hop

/-- An operation that `iSubAdj` records. -/
theorem Spread.recorded (hs : Spread c semId p₀ p vals done) (hnum : op.semNum.val < 2 ^ 15)
    (hflag : op.has SEM_UNDO = true) (hz : op.semOp.val ≠ 0)
    (hr : ¬ refuses c semId p₀ done op) :
    (p.subAdj c semId op.semNum op.semOp).1 = false ∧
      Spread c semId p₀ (p.subAdj c semId op.semNum op.semOp).2 vals (done ++ [op]) := by
  obtain ⟨hfail, hent⟩ := p.subAdj_entry c semId hnum op.semOp
  rw [hs.entries] at hfail hent
  have hsub : subEntry t (c.kalloc op.semNum.val) op.semOp
      (entryAt c semId p₀ done op.semNum.val) ≠ none := fun hc => hr ⟨hflag, hc⟩
  refine ⟨Bool.eq_false_iff.mpr fun hc => hsub (hfail.mp hc), fun n => ?_, fun n => ?_,
    fun id n hid => ?_⟩
  · rw [Pass.val, Pass.subAdj_set]
    exact hs.val n
  · rw [hent, entryAt_snoc]
    by_cases hn : n = op.semNum.val
    · subst hn
      rw [if_pos ⟨rfl, rfl⟩, if_pos ⟨rfl, hflag, hz⟩]
      revert hsub
      cases entryAt c semId p₀ done op.semNum.val with
      | some aoe =>
        intro hsub
        rw [subEntry] at hsub ⊢
        split_ifs at hsub ⊢
        · rfl
        · exact absurd rfl hsub
      | none =>
        intro hsub
        rw [subEntry] at hsub ⊢
        rw [Int.toNat_natCast]
        cases hk : c.kalloc op.semNum.val with
        | none =>
          rw [hk] at hsub
          exact absurd rfl hsub
        | some un => rfl
    · rw [if_neg fun hc => hn hc.2, if_neg fun hc => hn hc.1, hs.entries]
  · rw [hent, if_neg fun hc => hid hc.1, hs.other id n hid]

/-- An operation that `iSubAdj` fails for. -/
theorem Spread.refused (hs : Spread c semId p₀ p vals done) (hnum : op.semNum.val < 2 ^ 15)
    (hr : refuses c semId p₀ done op) :
    (p.subAdj c semId op.semNum op.semOp).1 = true ∧
      Spread c semId p₀ (p.subAdj c semId op.semNum op.semOp).2 vals done := by
  obtain ⟨hfail, hent⟩ := p.subAdj_entry c semId hnum op.semOp
  rw [hs.entries] at hfail hent
  refine ⟨hfail.mpr hr.2, fun n => ?_, fun n => ?_, fun id n hid => ?_⟩
  · rw [Pass.val, Pass.subAdj_set]
    exact hs.val n
  · rw [hent, hr.2, Option.none_or, hs.entries]
    exact ite_self _
  · rw [hent, if_neg fun hc => hid hc.1, hs.other id n hid]

theorem Pass.subAdj_uError {num : Ushort} {v : Short} (h : (p.subAdj c semId num v).1 = false) :
    (p.subAdj c semId num v).2.uError = p.uError := by
  unfold Pass.subAdj at h ⊢
  cases hi : iSubAdj t c semId num v p.semu with
  | ok semu => rfl
  | error e =>
    rw [hi] at h
    cases h

/-- One more operation has gone through. -/
theorem Executed.next (he : Executed c semId p₀ p done) {p' : Pass t}
    (hs : Spread c semId p₀ p' (done ++ [op]) (done ++ [op]))
    (hlo : 0 ≤ valueAt p₀ done op.semNum.val + op.semOp.val)
    (hhi : valueAt p₀ done op.semNum.val + op.semOp.val < 2 ^ 16)
    (hnsems : p'.set.semNsems = p.set.semNsems) (hperm : p'.set.semPerm = p.set.semPerm)
    (herr : p'.uError = p.uError) (hnum : op.semNum.val < 2 ^ 15) :
    Executed c semId p₀ p' (done ++ [op]) := by
  refine ⟨hs, fun n => ?_, hnsems.trans he.nsems, hperm.trans he.perm, herr.trans he.uError, ?_⟩
  · have hv := he.val n
    unfold valueAt at hv hlo hhi ⊢
    rw [hs.val, ushort_val, net_append, net_singleton]
    split_ifs with hn
    · subst hn
      omega
    · omega
  · intro o ho
    rcases List.mem_append.mp ho with ho | ho
    · exact he.nums o ho
    · rw [List.mem_singleton.mp ho]
      exact hnum

/-! ### What is left behind -/

/-- What a pass that starts in `p₀` leaves behind when `op` stops it after `done`. -/
structure Left (c : Ctx) (semId : ℕ) (p₀ p' : Pass t) (done : List SemBuf) (op : SemBuf)
    (h : Halt) : Prop where
  val : ∀ n, p'.val n = ushort ((p₀.val n).val + net (h.vals done op) n -
    if h.undoes then opAt done n else 0)
  entries : ∀ n : ℤ, entry p'.semu semId n =
    if h.undoes then giveBack t (c.kalloc n.toNat) (entryAt c semId p₀ (h.adjs done op) n)
      (undoOps (h.adjs done op) n)
    else entryAt c semId p₀ (h.adjs done op) n
  other : ∀ id n : ℤ, id ≠ semId → entry p'.semu id n = entry p₀.semu id n

/-- Errors, sleeper counts and wake-ups make no difference. -/
theorem Left.congr {p' p'' : Pass t} {h : Halt} (hl : Left c semId p₀ p' done op h)
    (hval : ∀ n, p''.val n = p'.val n) (hsemu : p''.semu = p'.semu) :
    Left c semId p₀ p'' done op h := by
  refine ⟨fun n => ?_, fun n => ?_, fun id n hid => ?_⟩
  · rw [hval, hl.val]
  · rw [hsemu, hl.entries]
  · rw [hsemu, hl.other id n hid]

theorem Left.fail {p' : Pass t} {h : Halt} (hl : Left c semId p₀ p' done op h) (e : Errno) :
    Left c semId p₀ (p'.fail e) done op h := hl.congr (fun _ => rfl) rfl

theorem Left.failFirst {p' : Pass t} {h : Halt} (hl : Left c semId p₀ p' done op h) (e : Errno) :
    Left c semId p₀ (p'.failFirst e) done op h := by
  unfold Pass.failFirst
  split_ifs
  · exact hl.fail e
  · exact hl

theorem Left.semwait {p' : Pass t} {h : Halt} (hl : Left c semId p₀ p' done op h) (e : Event) :
    Left c semId p₀ (p'.semwait e).2 done op h := by
  refine hl.congr (fun n => ?_) rfl
  unfold Pass.semwait Pass.val
  cases e <;> simp only [SemidDs.count, Function.update_apply] <;> split_ifs with hn <;>
    first | rw [hn] | rfl

/-- A rollback by `semundo`. -/
theorem Spread.left {h : Halt} (hs : Spread c semId p₀ p (h.vals done op) done)
    (hnums : ∀ o ∈ done, o.semNum.val < 2 ^ 15) (hun : h.undoes = true) (hover : h ≠ .over) :
    Left c semId p₀ (semundo c semId 0 done p) done op h := by
  have hadjs : h.adjs done op = done := if_neg hover
  refine ⟨fun n => ?_, fun n => ?_, fun id n hid => ?_⟩
  · rw [semundo_val, if_pos (Nat.zero_le n), if_pos hun, Nat.sub_zero, hs.val, sub_eq_add_neg,
      ushort_add]
    rfl
  · rw [semundo_entry hnums, if_pos rfl, if_pos hun, hadjs, hs.entries]
  · rw [semundo_entry hnums, if_neg hid, hs.other id n hid]

/-- No rollback. -/
theorem Spread.stay {h : Halt} (hs : Spread c semId p₀ p done done) (hun : h.undoes = false) :
    Left c semId p₀ p done op h := by
  have hadjs : h.adjs done op = done := if_neg fun hc => by subst hc; cases hun
  have hvals : h.vals done op = done := if_neg fun hc => by rw [hc.1] at hun; cases hun
  have hun' : ¬ h.undoes = true := by simp [hun]
  refine ⟨fun n => ?_, fun n => ?_, hs.other⟩
  · rw [if_neg hun', hvals, sub_zero, hs.val]
  · rw [if_neg hun', hadjs, hs.entries]

theorem giveBack_append (fresh e : Option Short) (a b : List Short) :
    giveBack t fresh e (a ++ b) = giveBack t fresh (giveBack t fresh e a) b := by
  induction a generalizing e with
  | nil => rfl
  | cons v a ih => exact ih _

/-- The rollback of an increment out of range gives its own adjustment back as well. -/
theorem Spread.left_over (hs : Spread c semId p₀ p done (done ++ [op]))
    (hnums : ∀ o ∈ done, o.semNum.val < 2 ^ 15) (hnum : op.semNum.val < 2 ^ 15) :
    Left c semId p₀ (if op.has SEM_UNDO then
        ((semundo c semId 0 done p).subAdj c semId op.semNum (short (-op.semOp.val))).2
      else semundo c semId 0 done p) done op .over := by
  have hval : ∀ n, (semundo c semId 0 done p).val n =
      ushort ((p₀.val n).val + net done n - opAt done n) := by
    intro n
    rw [semundo_val, if_pos (Nat.zero_le n), Nat.sub_zero, hs.val, sub_eq_add_neg, ushort_add]
    rfl
  have hent : ∀ n : ℤ, entry (semundo c semId 0 done p).semu semId n =
      giveBack t (c.kalloc n.toNat) (entryAt c semId p₀ (done ++ [op]) n) (undoOps done n) := by
    intro n
    rw [semundo_entry hnums, if_pos rfl, hs.entries]
  have hother : ∀ id n : ℤ, id ≠ semId →
      entry (semundo c semId 0 done p).semu id n = entry p₀.semu id n := by
    intro id n hid
    rw [semundo_entry hnums, if_neg hid, hs.other id n hid]
  split_ifs with hflag
  · have hsub := (Pass.subAdj_entry (semundo c semId 0 done p) c semId hnum
      (short (-op.semOp.val))).2
    refine ⟨fun n => ?_, fun n => ?_, fun id n hid => ?_⟩
    · rw [Pass.val, Pass.subAdj_set]
      exact hval n
    · show _ = giveBack t _ (entryAt c semId p₀ (done ++ [op]) n) (undoOps (done ++ [op]) n)
      rw [undoOps_append, undoOps_singleton, giveBack_append, hsub, hent, hent]
      by_cases hn : n = op.semNum.val
      · subst hn
        rw [if_pos ⟨rfl, rfl⟩, if_pos ⟨rfl, hflag⟩, Int.toNat_natCast]
        rfl
      · rw [if_neg fun hc => hn hc.2, if_neg fun hc => hn hc.1.symm]
        rfl
    · rw [hsub, if_neg fun hc => hid hc.1, hother id n hid]
  · refine ⟨hval, fun n => ?_, hother⟩
    show _ = giveBack t _ (entryAt c semId p₀ (done ++ [op]) n) (undoOps (done ++ [op]) n)
    rw [undoOps_append, undoOps_singleton, if_neg fun hc => hflag hc.2, List.append_nil, hent]

/-! ### One operation -/

/-- The turn of an operation is what `halt` says. -/
def TurnSpec (c : Ctx) (semId : ℕ) (p₀ : Pass t) (done : List SemBuf) (op : SemBuf) :
    Option Halt → Turn t → Prop
  | none, .next p' => Executed c semId p₀ p' (done ++ [op])
  | some h, .ret r => r.1 ≠ .ok ∧ Left c semId p₀ r.2 done op h
  | _, _ => False

variable (he : Executed c semId p₀ p done) (hnum : op.semNum.val < 2 ^ 15)
include he

theorem Executed.lacks (mode : ℕ) : p.lacks c mode = p₀.lacks c mode := by
  rw [Pass.lacks, he.perm]
  rfl

/-- The end of a pass whose operation cannot go through now. -/
theorem Executed.block (e : Event) :
    (p.block c semId done op e).1 ≠ .ok ∧
      Left c semId p₀ (p.block c semId done op e).2 done op .block := by
  have hl : Left c semId p₀ (semundo c semId 0 done p) done op .block :=
    he.spread.left he.nums rfl (by decide)
  unfold Pass.block
  simp only
  split_ifs
  · exact ⟨by simp, hl.failFirst _⟩
  · exact ⟨by simp [Pass.semwait], hl.semwait e⟩

include hnum

theorem decrement_spec (hneg : op.semOp.val < 0) :
    TurnSpec c semId p₀ done op
      (if p₀.lacks c IWRITE then some .noWrite
        else if valueAt p₀ done op.semNum.val ≥ -op.semOp.val then
          if refuses c semId p₀ done op then some .adjust else none
        else some .block)
      (p.decrement c semId done op) := by
  have hval : ((p.set.semBase op.semNum.val).semval.val : ℤ) = valueAt p₀ done op.semNum.val :=
    he.val _
  have hlt := (p.set.semBase op.semNum.val).semval.isLt
  unfold Pass.decrement
  simp only [he.lacks, hval]
  by_cases hw : p₀.lacks c IWRITE = true
  · rw [if_pos hw, if_pos hw]
    exact ⟨by simp, (he.spread.stay rfl).fail _⟩
  rw [if_neg hw, if_neg hw]
  by_cases hge : valueAt p₀ done op.semNum.val ≥ -op.semOp.val
  · rw [if_pos hge, if_pos hge]
    -- the value is stored before the adjustment is looked at
    have hset := he.spread.setVal op
    rw [show ((p.val op.semNum.val).val : ℤ) = valueAt p₀ done op.semNum.val from hval] at hset
    set v := ushort (valueAt p₀ done op.semNum.val + op.semOp.val)
    set p' := if v.val = 0 ∧ (p.set.semBase op.semNum.val).semzcnt.val ≠ 0 then
      (p.setVal op.semNum.val v).wakeup (.semzcnt op.semNum.val) else p.setVal op.semNum.val v
      with hp'
    have hs : Spread c semId p₀ p' (done ++ [op]) done := by
      rw [hp']
      split_ifs
      · exact ⟨hset.val, hset.entries, hset.other⟩
      · exact hset
    have hsame : p'.set.semNsems = p.set.semNsems ∧ p'.set.semPerm = p.set.semPerm ∧
        p'.uError = p.uError := by
      rw [hp']
      split_ifs <;> exact ⟨rfl, rfl, rfl⟩
    by_cases hflag : op.has SEM_UNDO = true
    · rw [if_pos hflag]
      by_cases hr : refuses c semId p₀ done op
      · obtain ⟨hfail, hs'⟩ := hs.refused hnum hr
        rw [if_pos hr]
        revert hfail hs'
        cases p'.subAdj c semId op.semNum op.semOp with
        | mk b p'' =>
          rintro (rfl : b = true) hs'
          have hvals : Halt.adjust.vals done op = done ++ [op] := if_pos ⟨rfl, hneg⟩
          exact ⟨by simp, Spread.left (by rw [hvals]; exact hs') he.nums rfl (by decide)⟩
      · obtain ⟨hok, hs'⟩ := hs.recorded hnum hflag (by omega) hr
        have hset' := Pass.subAdj_set c semId p' op.semNum op.semOp
        have herr := Pass.subAdj_uError hok
        rw [if_neg hr]
        revert hok hs' hset' herr
        cases p'.subAdj c semId op.semNum op.semOp with
        | mk b p'' =>
          rintro (rfl : b = false) hs' (hset' : p''.set = p'.set) (herr : p''.uError = p'.uError)
          exact he.next hs' (by omega) (by omega) (by rw [hset', hsame.1])
            (by rw [hset', hsame.2.1]) (by rw [herr, hsame.2.2]) hnum
    · rw [if_neg hflag, if_neg fun hc => hflag hc.1]
      exact he.next (hs.unrecorded (Or.inl (by simpa using hflag))) (by omega) (by omega)
        hsame.1 hsame.2.1 hsame.2.2 hnum
  · rw [if_neg hge, if_neg hge]
    exact he.block _

theorem waitZero_spec (hzero : op.semOp.val = 0) :
    TurnSpec c semId p₀ done op
      (if p₀.lacks c IREAD then some (if p₀.lacks c IWRITE then .noAccess else .noRead)
        else if valueAt p₀ done op.semNum.val = 0 then none else some .block)
      (p.waitZero c semId done op) := by
  have hval : ((p.set.semBase op.semNum.val).semval.val : ℤ) = valueAt p₀ done op.semNum.val :=
    he.val _
  have hlt := (p.set.semBase op.semNum.val).semval.isLt
  have hfail : ∀ mode, (p.fail .EACCES).lacks c mode = p₀.lacks c mode := he.lacks
  unfold Pass.waitZero
  simp only [he.lacks, hfail]
  by_cases hr : p₀.lacks c IREAD = true
  · rw [if_pos hr, if_pos hr]
    by_cases hw : p₀.lacks c IWRITE = true
    · rw [if_pos hw, if_pos hw]
      have hs : Spread c semId p₀ (p.fail .EACCES) (Halt.noAccess.vals done op) done :=
        ⟨he.spread.val, he.spread.entries, he.spread.other⟩
      exact ⟨by simp, hs.left he.nums rfl (by decide)⟩
    · rw [if_neg hw, if_neg hw]
      exact ⟨by simp, (he.spread.stay rfl).fail _⟩
  rw [if_neg hr, if_neg hr]
  by_cases hz : valueAt p₀ done op.semNum.val = 0
  · rw [if_pos hz, if_pos (by omega)]
    have hs : Spread c semId p₀ p done (done ++ [op]) := he.spread.unrecorded (Or.inr hzero)
    have hv : ∀ n, net (done ++ [op]) n = net done n := by
      intro n
      rw [net_append, net_singleton, hzero, ite_self, add_zero]
    exact he.next ⟨fun n => by rw [hv, hs.val], hs.entries, hs.other⟩ (by omega) (by omega)
      rfl rfl rfl hnum
  · rw [if_neg hz, if_neg (by omega)]
    exact he.block _

/-- The rest of the turn of an increment, in the state after its adjustment. -/
theorem raise_spec {p' : Pass t} (hpos : 0 < op.semOp.val)
    (hs : Spread c semId p₀ p' done (done ++ [op])) (hset : p'.set = p.set)
    (herr : p'.uError = p.uError) :
    TurnSpec c semId p₀ done op
      (if valueAt p₀ done op.semNum.val > t.SEMVMX - op.semOp.val then some .over else none)
      (p'.raise c semId done op) := by
  have hval : ((p'.set.semBase op.semNum.val).semval.val : ℤ) = valueAt p₀ done op.semNum.val := by
    rw [hset]
    exact he.val _
  have hlt := (p'.set.semBase op.semNum.val).semval.isLt
  have hmax := t.semvmx_le
  unfold Pass.raise
  simp only [hval]
  by_cases hover : valueAt p₀ done op.semNum.val > t.SEMVMX - op.semOp.val
  · rw [if_pos hover, if_pos hover]
    exact ⟨by simp, (hs.left_over he.nums hnum).fail _⟩
  · rw [if_neg hover, if_neg hover]
    have hs' := hs.setVal op
    rw [show ((p'.val op.semNum.val).val : ℤ) = valueAt p₀ done op.semNum.val from hval] at hs'
    show Executed c semId p₀ _ (done ++ [op])
    split_ifs
    · exact he.next ⟨hs'.val, hs'.entries, hs'.other⟩ (by omega) (by omega)
        (by rw [← hset]; rfl) (by rw [← hset]; rfl) herr hnum
    · exact he.next hs' (by omega) (by omega) (by rw [← hset]; rfl) (by rw [← hset]; rfl) herr hnum

theorem increment_spec (hpos : 0 < op.semOp.val) :
    TurnSpec c semId p₀ done op
      (if p₀.lacks c IWRITE then some .noWrite
        else if refuses c semId p₀ done op then some .adjust
        else if valueAt p₀ done op.semNum.val > t.SEMVMX - op.semOp.val then some .over else none)
      (p.increment c semId done op) := by
  unfold Pass.increment
  simp only [he.lacks]
  by_cases hw : p₀.lacks c IWRITE = true
  · rw [if_pos hw, if_pos hw]
    exact ⟨by simp, (he.spread.stay rfl).fail _⟩
  rw [if_neg hw, if_neg hw]
  by_cases hflag : op.has SEM_UNDO = true
  · rw [if_pos hflag]
    by_cases hr : refuses c semId p₀ done op
    · obtain ⟨hfail, hs⟩ := he.spread.refused hnum hr
      rw [if_pos hr]
      revert hfail hs
      cases p.subAdj c semId op.semNum op.semOp with
      | mk b p' =>
        rintro (rfl : b = true) hs
        have hvals : Halt.adjust.vals done op = done := if_neg fun hc => absurd hc.2 (by omega)
        exact ⟨by simp, Spread.left (by rw [hvals]; exact hs) he.nums rfl (by decide)⟩
    · obtain ⟨hok, hs⟩ := he.spread.recorded hnum hflag (by omega) hr
      have hset := Pass.subAdj_set c semId p op.semNum op.semOp
      have herr := Pass.subAdj_uError hok
      rw [if_neg hr]
      revert hok hs hset herr
      cases p.subAdj c semId op.semNum op.semOp with
      | mk b p' =>
        rintro (rfl : b = false) hs hset herr
        exact raise_spec he hnum hpos hs hset herr
  · rw [if_neg hflag, if_neg fun hc => hflag hc.1]
    exact raise_spec he hnum hpos (he.spread.unrecorded (Or.inl (by simpa using hflag))) rfl rfl

omit hnum in
/-- **One operation** goes through, or stops the pass as `halt` says. -/
theorem turn_spec :
    TurnSpec c semId p₀ done op (halt c semId p₀ done op) (p.turn c semId done op) := by
  unfold Pass.turn halt
  simp only [he.uError, he.nsems]
  by_cases hbig : inRange (-t.SEMVMX) op.semOp.val t.SEMVMX = false
  · rw [if_pos hbig, if_pos hbig]
    exact ⟨by simp, (Spread.left he.spread he.nums rfl (by decide)).fail _⟩
  rw [if_neg hbig, if_neg hbig]
  by_cases hno : p₀.uError ≠ none ∨ op.semNum.val ≥ p₀.set.semNsems
  · rw [if_pos hno, if_pos hno]
    exact ⟨by simp, (Spread.left he.spread he.nums rfl (by decide)).failFirst _⟩
  rw [if_neg hno, if_neg hno]
  have hnum : op.semNum.val < 2 ^ 15 := by
    have := p₀.set.semNsems_lt
    have := t.semmsl_le
    omega
  rcases lt_trichotomy op.semOp.val 0 with hneg | hzero | hpos
  · rw [if_pos hneg, if_pos hneg]
    exact decrement_spec he hnum hneg
  · have hneg : ¬ op.semOp.val < 0 := by omega
    rw [if_neg hneg, if_neg hneg, if_pos hzero, if_pos hzero]
    exact waitZero_spec he hnum hzero
  · have hneg : ¬ op.semOp.val < 0 := by omega
    have hzero : ¬ op.semOp.val = 0 := by omega
    rw [if_neg hneg, if_neg hneg, if_neg hzero, if_neg hzero]
    exact increment_spec he hnum hpos

omit he hnum

/-! ### The pass -/

/-- **A pass** goes through when all its operations do, and leaves behind what `stop` says
    otherwise. -/
theorem run_spec : ∀ (rest done : List SemBuf) (p : Pass t), Executed c semId p₀ p done →
    match stop c semId p₀ done rest with
    | none => (p.run c semId done rest).1 = .ok
    | some (done', op, h) => (p.run c semId done rest).1 ≠ .ok ∧
        Left c semId p₀ (p.run c semId done rest).2 done' op h := by
  intro rest
  induction rest with
  | nil =>
    intro done p _
    rfl
  | cons op rest ih =>
    intro done p he
    have hturn : TurnSpec c semId p₀ done op _ _ := turn_spec he
    unfold stop Pass.run
    revert hturn
    cases halt c semId p₀ done op with
    | none =>
      cases p.turn c semId done op with
      | next p' => exact fun hturn => ih _ _ hturn
      | ret r => exact fun hturn => hturn.elim
    | some h =>
      cases p.turn c semId done op with
      | next p' => exact fun hturn => hturn.elim
      | ret r => exact fun hturn => hturn

end CohKernel.Sem386
