import CohKernel.Sem386.Defs

namespace CohKernel.Sem386

open CohKernel.Lib CohKernel.Ipc

/-!
# What a stopped pass leaves behind

The values and the undo adjustments after the operations of a pass and after its rollback.

* `entry semu id n` — the adjustment that the undo list has for semaphore `n` of set `id`;
* `Forward` — the entry after the operations that have gone through;
* `semundo_val`, `semundo_entry` — what `semundo` does to the values and to the entries.
-/

variable {t : Tune} {c : Ctx} {semId : ℕ}

/-! ### Sums of operations -/

/-- The sum of the operations on semaphore `n`. -/
def net (ops : List SemBuf) (n : ℕ) : ℤ :=
  ((ops.filter fun op => op.semNum.val = n).map fun op => op.semOp.val).sum

/-- The operation at position `n`, zero when there is none. -/
def opAt (ops : List SemBuf) (n : ℕ) : ℤ := (ops[n]?.map fun op => op.semOp.val).getD 0

/-- The operations on semaphore `n` that ask for `SEM_UNDO`. -/
def undoOps (ops : List SemBuf) (n : ℤ) : List Short :=
  (ops.filter fun op => (op.semNum.val : ℤ) = n ∧ op.has SEM_UNDO = true).map (·.semOp)

/-- The sum of a list of operations. -/
def total (ops : List Short) : ℤ := (ops.map Subtype.val).sum

theorem net_append (ops ops' : List SemBuf) (n : ℕ) : net (ops ++ ops') n =
    net ops n + net ops' n := by
  simp only [net, List.filter_append, List.map_append, List.sum_append]

theorem net_singleton (op : SemBuf) (n : ℕ) :
    net [op] n = if op.semNum.val = n then op.semOp.val else 0 := by
  unfold net
  by_cases h : op.semNum.val = n <;> simp [h]

theorem undoOps_append (ops ops' : List SemBuf) (n : ℤ) :
    undoOps (ops ++ ops') n = undoOps ops n ++ undoOps ops' n := by
  simp only [undoOps, List.filter_append, List.map_append]

theorem undoOps_singleton (op : SemBuf) (n : ℤ) : undoOps [op] n =
    if (op.semNum.val : ℤ) = n ∧ op.has SEM_UNDO = true then [op.semOp] else [] := by
  unfold undoOps
  by_cases h : (op.semNum.val : ℤ) = n ∧ op.has SEM_UNDO = true
  · rw [if_pos h, List.filter_cons_of_pos (by simpa using h)]
    rfl
  · rw [if_neg h, List.filter_cons_of_neg (by simpa using h)]
    rfl

theorem total_append (a b : List Short) : total (a ++ b) = total a + total b := by
  simp only [total, List.map_append, List.sum_append]

theorem total_cons (v : Short) (a : List Short) : total (v :: a) = v.val + total a := by
  simp only [total, List.map_cons, List.sum_cons]

theorem total_zero {a : List Short} (h : ∀ v ∈ a, v.val = 0) : total a = 0 := by
  induction a with
  | nil => rfl
  | cons v a ih =>
    rw [total_cons, h v List.mem_cons_self, ih fun w hw => h w (List.mem_cons_of_mem _ hw)]
    rfl

/-! ### The entries of the undo list -/

/-- The adjustment that the first entry for semaphore `n` of set `id` has. -/
def entry (semu : List SemUndo) (id n : ℤ) : Option Short :=
  (semu.find? fun u => u.unNum.val = n ∧ u.unId = id).map (·.unAoe)

/-- The undo adjustment for semaphore `n` of set `id`; no entry means zero. -/
def adjustment (semu : List SemUndo) (id n : ℤ) : Short := (entry semu id n).getD (short 0)

/-- What subtracting `v` makes of an entry, `none` when `iSubAdj` fails; `fresh` is what `kalloc`
    gives. -/
def subEntry (t : Tune) (fresh : Option Short) (v : Short) : Option Short → Option Short
  | none => fresh.map fun un => short (un.val - v.val)
  | some aoe =>
      if inRange (-t.SEMVMX) (aoe.val - v.val) t.SEMVMX then some
        (short (aoe.val - v.val)) else none

theorem entry_cons (u : SemUndo) (semu : List SemUndo) (id n : ℤ) : entry (u :: semu) id n =
    if u.unNum.val = n ∧ u.unId = id then some u.unAoe else entry semu id n := by
  unfold entry
  by_cases h : u.unNum.val = n ∧ u.unId = id
  · rw [List.find?_cons_of_pos (by simpa using h), if_pos h]
    rfl
  · rw [List.find?_cons_of_neg (by simpa using h), if_neg h]

/-- **`iSubAdj`** changes the entry of its semaphore and no other one. -/
theorem iSubAdj_entry {num : Ushort} (hnum : num.val < 2 ^ 15) (v : Short) (semu : List SemUndo) :
    match iSubAdj t c semId num v semu with
    | .ok semu' => ∃ x, subEntry t (c.kalloc num.val) v (entry semu semId num.val) = some x ∧
        ∀ id n : ℤ, entry semu' id n =
          if id = semId ∧ n = num.val then some x else entry semu id n
    | .error _ => subEntry t (c.kalloc num.val) v (entry semu semId num.val) = none := by
  have hshort : (short (num.val : ℤ)).val = num.val := by
    rw [short_val]
    omega
  induction semu with
  | nil =>
    unfold iSubAdj
    cases hk : c.kalloc num.val with
    | none => rfl
    | some un =>
      refine ⟨short (un.val - v.val), rfl, fun id n => ?_⟩
      rw [entry_cons, hshort]
      by_cases h : id = semId ∧ n = num.val
      · rw [if_pos h, if_pos ⟨h.2.symm, h.1.symm⟩]
      · rw [if_neg h, if_neg fun hc => h ⟨hc.2.symm, hc.1.symm⟩]
  | cons u rest ih =>
    unfold iSubAdj
    by_cases hu : u.unNum.val = num.val ∧ u.unId = semId
    · rw [if_pos hu, entry_cons, if_pos hu]
      by_cases hr : inRange (-t.SEMVMX) (u.unAoe.val - v.val) t.SEMVMX = true
      · simp only [hr, if_true]
        refine ⟨_, by rw [subEntry, if_pos hr], fun id n => ?_⟩
        rw [entry_cons, entry_cons]
        by_cases h : id = semId ∧ n = num.val
        · rw [if_pos h, if_pos ⟨hu.1.trans h.2.symm, hu.2.trans h.1.symm⟩]
        · have hne : ¬(u.unNum.val = n ∧ u.unId = id) := fun hc =>
            h ⟨hc.2.symm.trans hu.2, hc.1.symm.trans hu.1⟩
          rw [if_neg h, if_neg hne, if_neg hne]
      · simp only [hr, Bool.false_eq_true, if_false]
        rw [subEntry, if_neg hr]
    · rw [if_neg hu, entry_cons, if_neg hu]
      revert ih
      cases iSubAdj t c semId num v rest with
      | error e => exact id
      | ok semu' =>
        rintro ⟨x, hx, hent⟩
        refine ⟨x, hx, fun id n => ?_⟩
        rw [entry_cons, entry_cons, hent]
        by_cases h : id = semId ∧ n = num.val
        · rw [if_pos h, if_neg fun hc => hu ⟨hc.1.trans h.2, hc.2.trans h.1⟩, if_pos h]
        · rw [if_neg h, if_neg h]

/-- The value of semaphore `n`. -/
def Pass.val (p : Pass t) (n : ℕ) : Ushort := (p.set.semBase n).semval

@[simp] theorem Pass.setVal_val (p : Pass t) (n m : ℕ) (v : Ushort) :
    (p.setVal n v).val m = if m = n then v else p.val m := by
  unfold Pass.setVal Pass.val
  simp only [Function.update_apply]
  split_ifs <;> rfl

@[simp] theorem Pass.setVal_semu (p : Pass t) (n : ℕ) (v : Ushort) :
    (p.setVal n v).semu = p.semu := rfl

theorem Pass.subAdj_set (c : Ctx) (semId : ℕ) (p : Pass t) (num : Ushort) (v : Short) :
    (p.subAdj c semId num v).2.set = p.set := by
  unfold Pass.subAdj
  cases iSubAdj t c semId num v p.semu <;> rfl

/-- `iSubAdj` on the list of the process. -/
theorem Pass.subAdj_entry (p : Pass t) (c : Ctx) (semId : ℕ) {num : Ushort}
    (hnum : num.val < 2 ^ 15) (v : Short) :
    ((p.subAdj c semId num v).1 = true ↔
      subEntry t (c.kalloc num.val) v (entry p.semu semId num.val) = none) ∧
    ∀ id n : ℤ, entry (p.subAdj c semId num v).2.semu id n =
      if id = semId ∧ n = num.val then
        (subEntry t (c.kalloc num.val) v (entry p.semu semId num.val)).or (entry p.semu id n)
      else entry p.semu id n := by
  have h := @iSubAdj_entry t c semId _ hnum v p.semu
  unfold Pass.subAdj
  revert h
  cases iSubAdj t c semId num v p.semu with
  | error e =>
    intro h
    simp only at h
    refine ⟨by simp [h], fun id n => ?_⟩
    rw [h]
    split_ifs <;> rfl
  | ok semu' =>
    rintro ⟨x, hx, hent⟩
    refine ⟨by simp [hx], fun id n => ?_⟩
    rw [hx, hent]
    split_ifs <;> rfl

/-! ### The rollback -/

/-- What `semundo` makes of an entry: every operation is given back unless `iSubAdj` fails. -/
def giveBack (t : Tune) (fresh : Option Short) : Option Short → List Short → Option Short
  | e, [] => e
  | e, op :: ops => giveBack t fresh ((subEntry t fresh (short (-op.val)) e).or e) ops

/-- The sum of the operations that `iSubAdj` refuses to give back to an adjustment `v`. -/
def refused (t : Tune) : Short → List Short → ℤ
  | _, [] => 0
  | v, op :: ops =>
      let newAdjust := v.val - (short (-op.val)).val
      if inRange (-t.SEMVMX) newAdjust t.SEMVMX then refused t (short newAdjust) ops
      else op.val + refused t v ops

/-- **The rollback of an entry.** -/
theorem giveBack_val (fresh : Option Short) (ops : List Short) (v : Short) :
    giveBack t fresh (some v) ops = some (short (v.val + total ops - refused t v ops)) := by
  induction ops generalizing v with
  | nil =>
    have : v.val + total [] - refused t v [] = v.val := by simp [total, refused]
    rw [this, short_self]
    rfl
  | cons op ops ih =>
    have hneg := short_val (-op.val)
    rw [giveBack, subEntry, refused, total_cons]
    split_ifs with hr
    · rw [Option.some_or, ih, short_val]
      refine congrArg some (short_eq_iff.mpr ?_)
      omega
    · rw [Option.none_or, ih]
      refine congrArg some (short_eq_iff.mpr ?_)
      omega

/-- A list of zeros is given back without effect. -/
theorem giveBack_zeros (v : Short) {ops : List Short} (h : ∀ w ∈ ops, w.val = 0) :
    refused t v ops = 0 := by
  induction ops generalizing v with
  | nil => rfl
  | cons op ops ih =>
    have hop := h op List.mem_cons_self
    have hops : ∀ w ∈ ops, w.val = 0 := fun w hw => h w (List.mem_cons_of_mem _ hw)
    rw [refused]
    split_ifs
    · exact ih _ hops
    · rw [hop, ih _ hops]
      rfl

/-- **`semundo`** takes the operation at position `n` back from semaphore `n`. -/
theorem semundo_val (undo : List SemBuf) : ∀ (i : ℕ) (p : Pass t) (n : ℕ),
    (semundo c semId i undo p).val n =
      ushort ((p.val n).val - if i ≤ n then opAt undo (n - i) else 0) := by
  induction undo with
  | nil =>
    intro i p n
    have : (if i ≤ n then opAt [] (n - i) else 0) = 0 := by simp [opAt]
    rw [this, sub_zero, ushort_self]
    rfl
  | cons op undo ih =>
    intro i p n
    have hval : ∀ (p : Pass t),
        (if op.has SEM_UNDO then (p.subAdj c semId op.semNum (short (-op.semOp.val))).2
          else p).val = p.val := by
      intro p
      split_ifs
      · exact funext fun m => by rw [Pass.val, Pass.subAdj_set, Pass.val]
      · rfl
    rw [semundo, ih, hval, Pass.setVal_val]
    rcases Nat.lt_trichotomy n i with hlt | rfl | hgt
    · rw [if_neg (by omega), if_neg (by omega), if_neg (by omega)]
    · rw [if_pos rfl, if_neg (by omega), if_pos le_rfl, sub_zero, ushort_self, Nat.sub_self]
      rfl
    · obtain ⟨k, rfl⟩ : ∃ k, n = i + 1 + k := ⟨n - (i + 1), by omega⟩
      rw [if_neg (by omega), if_pos (by omega), if_pos (by omega),
        show i + 1 + k - (i + 1) = k by omega, show i + 1 + k - i = k + 1 by omega]
      rfl

/-- **`semundo`** gives the adjustments of the operations back. -/
theorem semundo_entry {undo : List SemBuf} (hnum : ∀ op ∈ undo, op.semNum.val < 2 ^ 15) :
    ∀ (i : ℕ) (p : Pass t) (id n : ℤ), entry (semundo c semId i undo p).semu id n =
      if id = semId then giveBack t (c.kalloc n.toNat) (entry p.semu id n) (undoOps undo n)
      else entry p.semu id n := by
  induction undo with
  | nil =>
    intro i p id n
    split_ifs <;> rfl
  | cons op undo ih =>
    intro i p id n
    have hop := hnum op List.mem_cons_self
    rw [semundo, ih fun o ho => hnum o (List.mem_cons_of_mem _ ho)]
    rw [← List.singleton_append, undoOps_append, undoOps_singleton]
    by_cases hflag : op.has SEM_UNDO = true
    · rw [if_pos hflag, (Pass.subAdj_entry _ c semId hop _).2]
      by_cases hid : id = semId
      · subst hid
        by_cases hn : (op.semNum.val : ℤ) = n
        · subst hn
          simp only [and_self, if_true, hflag, Pass.setVal_semu, Int.toNat_natCast,
            List.singleton_append]
          rfl
        · rw [if_pos rfl, if_pos rfl, if_neg fun hc => hn hc.2.symm, if_neg fun hc => hn hc.1]
          rfl
      · rw [if_neg hid, if_neg hid, if_neg fun hc => hid hc.1]
        rfl
    · simp only [hflag, Bool.false_eq_true, and_false, if_false, List.nil_append]
      rfl

end CohKernel.Sem386
