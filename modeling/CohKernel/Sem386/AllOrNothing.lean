import CohKernel.Sem386.Passes

namespace CohKernel.Sem386

open CohKernel.Lib CohKernel.Ipc

/-!
# When `semop` is all or nothing

A call, or its continuation after a sleep, that does not succeed is to leave every semaphore
value and every undo adjustment as it has found them.

* `Cancels` — the condition on the operations and the state in which the pass starts;
* `restored_iff` — a stopped pass restores everything exactly on that condition;
* `semop_kept_iff` — so does a call or its continuation;
* `semop_not_kept` — a rollback that takes an operation back from the wrong semaphore.
-/

variable {t : Tune} {c : Ctx} {semId : ℕ} {p₀ p : Pass t} {done : List SemBuf} {op : SemBuf}

/-! ### When it is what was found -/

/-- What an adjustment that starts as `un` loses: with a rollback the operations that it is not
    given back, without one all of them. -/
def Halt.lost (h : Halt) (t : Tune) (un : Short) (ops : List Short) : ℤ :=
  if h.undoes then refused t (short (un.val - total ops)) ops else total ops

/-- How far the adjustment for semaphore `n` is off after the pass.  An entry that the pass adds
    to the list starts as what the memory happens to hold. -/
def drift (c : Ctx) (semId : ℕ) (p : Pass t) (done : List SemBuf) (op : SemBuf) (h : Halt)
    (n : ℤ) : ℤ :=
  let ops := undoOps (h.adjs done op) n
  match entry p.semu semId n, c.kalloc n.toNat with
  | some aoe, _ => -h.lost t aoe ops
  | none, none => 0
  | none, some un =>
      if ∃ v ∈ ops, h.undoes = true ∨ v.val ≠ 0 then un.val - h.lost t un ops else 0

/-- What the pass has done and what it takes back cancel out.  The rollback takes the operation
    at position `n` of the array from semaphore `n`. -/
structure Cancels (c : Ctx) (semId : ℕ) (p : Pass t) (done : List SemBuf) (op : SemBuf)
    (h : Halt) : Prop where
  vals : ∀ n < p.set.semNsems,
    (net (h.vals done op) n - if h.undoes then opAt done n else 0) % 2 ^ 16 = 0
  adjs : ∀ n : ℤ, drift c semId p done op h n % 2 ^ 16 = 0

/-- The pass has changed no value of the set and no adjustment of the process. -/
structure Restored (p p' : Pass t) : Prop where
  vals : ∀ n < p.set.semNsems, p'.val n = p.val n
  adjs : ∀ id n : ℤ, adjustment p'.semu id n = adjustment p.semu id n

theorem giveBack_none (ops : List Short) : giveBack t none none ops = none := by
  induction ops with
  | nil => rfl
  | cons v ops ih => exact ih

/-- The adjustment that an entry with start `un` ends with. -/
theorem lost_val (h : Halt) (fresh : Option Short) (un : Short) (ops : List Short) :
    (if h.undoes then giveBack t fresh (some (short (un.val - total ops))) ops
      else some (short (un.val - total ops))) = some (short (un.val - h.lost t un ops)) := by
  unfold Halt.lost
  split_ifs
  · rw [giveBack_val]
    refine congrArg some (short_eq_iff.mpr ?_)
    rw [short_val]
    omega
  · rfl

/-- The adjustment for one semaphore. -/
theorem adjustment_iff {p' : Pass t} {h : Halt} (hl : Left c semId p₀ p' done op h) (n : ℤ) :
    adjustment p'.semu semId n = adjustment p₀.semu semId n ↔
      drift c semId p₀ done op h n % 2 ^ 16 = 0 := by
  have hent := hl.entries n
  unfold adjustment drift
  rw [hent]
  unfold entryAt
  generalize undoOps (h.adjs done op) n = ops
  cases entry p₀.semu semId n with
  | some aoe =>
    simp only
    rw [lost_val, Option.getD_some, Option.getD_some, short_eq_self_iff]
    omega
  | none =>
    cases c.kalloc n.toNat with
    | none => simp [giveBack_none]
    | some un =>
      simp only [Option.getD_none]
      by_cases hz : ∀ v ∈ ops, v.val = 0
      · have hlost : h.lost t un ops = 0 := by
          unfold Halt.lost
          split_ifs
          · exact giveBack_zeros _ hz
          · exact total_zero hz
        rw [if_pos hz, hlost]
        cases ops with
        | nil => simp [giveBack]
        | cons v ops =>
          by_cases hun : h.undoes = true
          · -- the rollback of a zero operation adds an entry
            have hv : (short (-v.val)).val = 0 := by
              rw [hz v List.mem_cons_self]
              rfl
            have hz' : ∀ w ∈ ops, w.val = 0 := fun w hw => hz w (List.mem_cons_of_mem _ hw)
            rw [if_pos hun, if_pos ⟨v, List.mem_cons_self, Or.inl hun⟩, giveBack, subEntry,
              Option.map_some, Option.some_or, hv, sub_zero, short_self, giveBack_val,
              total_zero hz', giveBack_zeros _ hz', Option.getD_some, short_eq_iff]
            omega
          · rw [if_neg hun, if_neg]
            · simp
            · rintro ⟨w, hw, hc⟩
              rcases hc with hc | hc
              · exact hun hc
              · exact hc (hz w hw)
      · have hex : ∃ v ∈ ops, h.undoes = true ∨ v.val ≠ 0 := by
          by_contra hc
          exact hz fun v hv => by_contra fun hne => hc ⟨v, hv, Or.inr hne⟩
        rw [if_neg hz, if_pos hex, Option.map_some, lost_val, Option.getD_some, short_eq_iff]
        omega

/-- A stopped pass restores what it has found exactly when its operations cancel out. -/
theorem restored_iff {p' : Pass t} {h : Halt} (hl : Left c semId p₀ p' done op h) :
    Restored p₀ p' ↔ Cancels c semId p₀ done op h := by
  have hval : ∀ n, p'.val n = p₀.val n ↔
      (net (h.vals done op) n - if h.undoes then opAt done n else 0) % 2 ^ 16 = 0 := by
    intro n
    rw [hl.val, ushort_eq_self_iff, add_sub_assoc, add_sub_cancel_left]
  constructor
  · rintro ⟨hv, ha⟩
    exact ⟨fun n hn => (hval n).mp (hv n hn), fun n => (adjustment_iff hl n).mp (ha _ n)⟩
  · rintro ⟨hv, ha⟩
    refine ⟨fun n hn => (hval n).mpr (hv n hn), fun id n => ?_⟩
    by_cases hid : id = semId
    · subst hid
      exact (adjustment_iff hl n).mpr (ha n)
    · unfold adjustment
      rw [hl.other id n hid]

/-! ### Calls -/

/-- A call of `semop`, or its continuation when the process wakes up. -/
inductive Segment where
  | call (semId : ℤ) (acc : Bool) (sops : List SemBuf)
  | wake (semId : ℕ) (sops : List SemBuf) (uError : Option Errno) (e : Event) (signalled : Bool)

/-- A call or its continuation, up to the end or the next sleep. -/
def Tables.semop (s : Tables t) (c : Ctx) : Segment → Option (Result t)
  | .call semId acc sops => some (s.usemop c semId acc sops)
  | .wake semId sops uError e signalled =>
      s.semids.map fun semids => s.usemopWake c semids semId sops uError e signalled

/-- The set, the operations and the state with which the pass starts, `none` when the call ends
    without one. -/
def Tables.begins (s : Tables t) (c : Ctx) : Segment → Option (ℕ × List SemBuf × Pass t)
  | .call semId acc sops => s.semids.bind fun semids =>
      if inRange 0 semId (t.SEMMNI - 1) = true ∧ ¬(acc = false ∨ sops.length < 1) ∧
          (semids semId.toNat).alloc = true then
        some (semId.toNat, sops, s.start c (semids semId.toNat) none)
      else none
  | .wake semId sops uError e signalled => s.semids.bind fun semids =>
      if (semids semId).alloc = true ∧ signalled = false then
        some (semId, sops, s.start c ((semids semId).count (-1) e) uError)
      else none

/-- Every value of every set and every adjustment of every process is as before. -/
structure Kept (s s' : Tables t) : Prop where
  vals : ∀ semids, s.semids = some semids → ∃ semids', s'.semids = some semids' ∧
    ∀ id n, n < (semids id).semNsems →
      ((semids' id).semBase n).semval = ((semids id).semBase n).semval
  adjs : ∀ self (id n : ℤ), adjustment (s'.semu self) id n = adjustment (s.semu self) id n

variable {s : Tables t} {semids : ℕ → SemidDs t}

theorem count_same (set : SemidDs t) (d : ℤ) (e : Event) :
    (set.count d e).semNsems = set.semNsems ∧
      ∀ n, ((set.count d e).semBase n).semval = (set.semBase n).semval := by
  cases e <;> refine ⟨rfl, fun n => ?_⟩ <;>
    simp only [SemidDs.count, Function.update_apply] <;> split_ifs with hn <;>
    first | rw [hn] | rfl

/-- The tables after a pass are kept when the pass restores what it starts with. -/
theorem tryAgain_kept_iff (hsem : s.semids = some semids) {semids₁ : ℕ → SemidDs t}
    (hsame : ∀ id, (semids₁ id).semNsems = (semids id).semNsems ∧
      ∀ n, ((semids₁ id).semBase n).semval = ((semids id).semBase n).semval)
    (c : Ctx) (semId : ℕ) (sops : List SemBuf) (uError : Option Errno) :
    Kept s (s.tryAgain c semids₁ semId sops uError).tables ↔
      Restored (s.start c (semids₁ semId) uError)
        ((s.start c (semids₁ semId) uError).run c semId [] sops).2 := by
  unfold Tables.tryAgain
  generalize hrun : (s.start c (semids₁ semId) uError).run c semId [] sops = r
  obtain ⟨o, p'⟩ := r
  constructor
  · rintro ⟨hv, ha⟩
    obtain ⟨semids', heq, hv⟩ := hv semids hsem
    cases heq
    refine ⟨fun n hn => ?_, fun id n => ?_⟩
    · have := hv semId n (by rw [← (hsame semId).1]; exact hn)
      rw [Function.update_self] at this
      exact this.trans ((hsame semId).2 n).symm
    · have := ha c.self id n
      simp only [Function.update_self] at this
      exact this
  · rintro ⟨hv, ha⟩
    refine ⟨fun semids₂ heq => ⟨_, rfl, fun id n hn => ?_⟩, fun self id n => ?_⟩
    · obtain rfl : semids = semids₂ := Option.some_injective _ (hsem.symm.trans heq)
      by_cases hid : id = semId
      · subst hid
        rw [Function.update_self]
        exact (hv n (by rw [← (hsame id).1] at hn; exact hn)).trans ((hsame id).2 n)
      · rw [Function.update_of_ne hid]
        exact (hsame id).2 n
    · simp only [Function.update_apply]
      split_ifs with hself
      · subst hself
        exact ha id n
      · rfl

/-- A call that ends before its pass. -/
theorem Kept.refl (s : Tables t) : Kept s s :=
  ⟨fun semids h => ⟨semids, h, fun _ _ _ => rfl⟩, fun _ _ _ => rfl⟩

/-- A pass that does not succeed, in terms of the condition. -/
theorem run_restored_iff (c : Ctx) (semId : ℕ) (p₀ : Pass t) (sops : List SemBuf) :
    ((p₀.run c semId [] sops).1 ≠ .ok → Restored p₀ (p₀.run c semId [] sops).2) ↔
      ∀ done op h, stop c semId p₀ [] sops = some (done, op, h) →
        Cancels c semId p₀ done op h := by
  have hspec := run_spec sops [] p₀ (executed_nil c semId p₀)
  revert hspec
  cases stop c semId p₀ [] sops with
  | none =>
    intro hok
    constructor
    · intro _ done op h heq
      cases heq
    · exact fun _ hne => absurd hok hne
  | some r =>
    obtain ⟨done, op, h⟩ := r
    rintro ⟨hne, hl⟩
    constructor
    · intro hres done' op' h' heq
      cases heq
      exact (restored_iff hl).mp (hres hne)
    · exact fun hc _ => (restored_iff hl).mpr (hc done op h rfl)

/-- A call or its continuation ends before its pass, or makes one. -/
theorem semop_cases (hsem : s.semids = some semids) (c : Ctx) (g : Segment) :
    (s.begins c g = none ∧ ∀ r, s.semop c g = some r → Kept s r.tables) ∨
    ∃ semId sops semids₁ uError,
      (∀ id, (semids₁ id).semNsems = (semids id).semNsems ∧
        ∀ n, ((semids₁ id).semBase n).semval = ((semids id).semBase n).semval) ∧
      s.begins c g = some (semId, sops, s.start c (semids₁ semId) uError) ∧
      s.semop c g = some (s.tryAgain c semids₁ semId sops uError) := by
  cases g with
  | call semId acc sops =>
    simp only [Tables.begins, Tables.semop, Tables.usemop, hsem, Option.bind_some]
    by_cases hid : inRange 0 semId (t.SEMMNI - 1) = false
    · exact Or.inl ⟨by simp [hid], by rintro r ⟨⟩; rw [if_pos hid]; exact Kept.refl s⟩
    by_cases hacc : acc = false ∨ sops.length < 1
    · refine Or.inl ⟨if_neg fun hc => hc.2.1 hacc, ?_⟩
      rintro r ⟨⟩
      rw [if_neg hid, if_pos hacc]
      exact Kept.refl s
    by_cases halloc : (semids semId.toNat).alloc = false
    · refine Or.inl ⟨by simp [halloc], ?_⟩
      rintro r ⟨⟩
      rw [if_neg hid, if_neg hacc, if_pos halloc]
      exact Kept.refl s
    · refine Or.inr ⟨semId.toNat, sops, semids, none, fun id => ⟨rfl, fun _ => rfl⟩, if_pos ?_, ?_⟩
      · exact ⟨by simpa using hid, hacc, by simpa using halloc⟩
      · rw [if_neg hid, if_neg hacc, if_neg halloc]
  | wake semId sops uError e signalled =>
    -- the counts of sleepers are not looked at
    have hsame : ∀ id, (Function.update semids semId ((semids semId).count (-1) e) id).semNsems =
        (semids id).semNsems ∧
        ∀ n, ((Function.update semids semId ((semids semId).count (-1) e) id).semBase n).semval =
          ((semids id).semBase n).semval := by
      intro id
      rw [Function.update_apply]
      split_ifs with hid
      · rw [hid]
        exact count_same _ _ _
      · exact ⟨rfl, fun _ => rfl⟩
    simp only [Tables.begins, Tables.semop, Tables.usemopWake, hsem, Option.bind_some,
      Option.map_some]
    by_cases halloc : (semids semId).alloc = false
    · refine Or.inl ⟨by simp [halloc], ?_⟩
      rintro r ⟨⟩
      rw [if_pos halloc]
      exact Kept.refl s
    cases signalled with
    | true =>
      refine Or.inl ⟨if_neg fun hc => Bool.noConfusion hc.2, ?_⟩
      rintro r ⟨⟩
      rw [if_neg halloc, if_pos rfl]
      refine ⟨fun semids₂ heq => ⟨_, rfl, fun id n _ => ?_⟩, fun _ _ _ => rfl⟩
      obtain rfl : semids = semids₂ := Option.some_injective _ (hsem.symm.trans heq)
      exact (hsame id).2 n
    | false =>
      refine Or.inr ⟨semId, sops, _, uError, hsame, ?_, ?_⟩
      · rw [if_pos ⟨by simpa using halloc, rfl⟩, Function.update_self]
      · rw [if_neg halloc, if_neg (by decide)]

/-- **All or nothing.** A call of `semop`, or its continuation after a sleep, that fails or goes
    to sleep keeps every value and every adjustment exactly when the operations that its pass
    has executed cancel out with those that its rollback takes back. -/
theorem semop_kept_iff (s : Tables t) (c : Ctx) (g : Segment) :
    (∀ r, s.semop c g = some r → r.outcome ≠ .ok → Kept s r.tables) ↔
      ∀ semId sops p, s.begins c g = some (semId, sops, p) →
        ∀ done op h, stop c semId p [] sops = some (done, op, h) → Cancels c semId p done op h := by
  cases hsem : s.semids with
  | none =>
    constructor
    · intro _ semId sops p hb
      cases g <;> simp only [Tables.begins, hsem, Option.bind_none] at hb <;> cases hb
    · intro _ r hr _
      cases g with
      | call semId acc sops =>
        cases hr
        simp only [Tables.usemop, hsem]
        exact Kept.refl s
      | wake semId sops uError e signalled =>
        rw [Tables.semop, hsem] at hr
        cases hr
  | some semids =>
    rcases semop_cases hsem c g with ⟨hb, hkept⟩ | ⟨semId, sops, semids₁, uError, hsame, hb, hr⟩
    · constructor
      · intro _ semId sops p hb'
        rw [hb] at hb'
        cases hb'
      · exact fun _ r hr _ => hkept r hr
    · have hpass := run_restored_iff c semId (s.start c (semids₁ semId) uError) sops
      have hkept := tryAgain_kept_iff hsem hsame c semId sops uError
      constructor
      · intro hall semId' sops' p hb'
        rw [hb] at hb'
        cases hb'
        exact hpass.mp fun hne => hkept.mp (hall _ hr hne)
      · intro hall r hr' hne
        rw [hr] at hr'
        cases hr'
        exact hkept.mpr (hpass.mpr (hall semId sops _ hb) hne)

/-- The limits of an unconfigured kernel. -/
def defaultTune : Tune := ⟨10, 25, 32767, by decide, by decide⟩

/-- A set of two semaphores with the values 5 and 7, owned by user 1. -/
def twoSems : Tables defaultTune where
  semids := some fun _ =>
    { semPerm := { uid := 1, gid := 1, cuid := 1, cgid := 1, mode := 0o100600, seq := 0, key := 1 }
      semBase := fun n => ⟨ushort (if n = 0 then 5 else 7), 0, 0, 0⟩
      semNsems := 2
      semOtime := 0
      semCtime := 0
      semNsems_lt := by decide }
  semu := fun _ => []

/-- Decrement semaphore 1, then semaphore 0 by more than it has. -/
def halfDone : Segment :=
  .call 0 true [⟨ushort 1, short (-1), 0⟩, ⟨ushort 0, short (-9), ushort 0x800⟩]

/-- **The wrong semaphore.** The rollback of the first operation adds to semaphore 0 what was
    taken from semaphore 1. -/
theorem semop_not_kept : ¬ ∀ (s : Tables defaultTune) (c : Ctx) (g : Segment) (r),
    s.semop c g = some r → r.outcome ≠ .ok → Kept s r.tables := by
  intro hall
  have heval : (twoSems.semop ⟨1, ⟨1, 1⟩, 0, fun _ => none⟩ halfDone).map (fun r =>
      (r.outcome, r.uError, r.tables.semids.map fun semids => [((semids 0).semBase 0).semval.val,
        ((semids 0).semBase 1).semval.val])) = some (.error, some .EAGAIN, some [6, 6]) := by
    decide +kernel
  obtain ⟨r, hr, hval⟩ := Option.map_eq_some_iff.mp heval
  simp only [Prod.mk.injEq] at hval
  obtain ⟨ho, -, hvals⟩ := hval
  obtain ⟨semids', hs', hsame⟩ := (hall twoSems _ halfDone r hr (by rw [ho]; decide)).vals _ rfl
  rw [hs', Option.map_some, Option.some_inj, List.cons.injEq] at hvals
  have hzero : ((semids' 0).semBase 0).semval = ushort 5 := hsame 0 0 (by decide)
  rw [hzero] at hvals
  exact absurd hvals.1 (by decide)

end CohKernel.Sem386
