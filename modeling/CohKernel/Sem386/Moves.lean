import CohKernel.Sem386.Passes

namespace CohKernel.Sem386

open CohKernel.Lib CohKernel.Ipc

/-!
# What a pass can do

Every pass of `semop` is made of four kinds of moves; a property that each of them keeps holds
after the pass.

* `run_moves` — a pass is a sequence of moves, and then its end or its sleep;
* `run_done` — a pass that goes through has executed all its operations;
* `halt_bounded`, `stop_bounded` — the operations that go through keep the values in range.
-/

variable {t : Tune} {c : Ctx} {semId : ℕ} {p₀ p p' q : Pass t} {done rest : List SemBuf}
  {op : SemBuf}

/-! ### Moves -/

/-- A value is stored, an adjustment changed, an event woken, or an error set. -/
inductive Move (c : Ctx) (semId : ℕ) (p : Pass t) : Pass t → Prop
  | setVal (n : ℕ) (v : Ushort) : Move c semId p (p.setVal n v)
  | subAdj (num : Ushort) (v : Short) : num.val < p.set.semNsems →
      Move c semId p (p.subAdj c semId num v).2
  | wakeup (e : Event) : Move c semId p (p.wakeup e)
  | fail (e : Errno) : Move c semId p (p.fail e)

/-- A sequence of moves. -/
abbrev Moves (c : Ctx) (semId : ℕ) : Pass t → Pass t → Prop := Relation.ReflTransGen (Move c semId)

/-- What is left of the set by moves: all but the values. -/
structure Framed (p p' : Pass t) : Prop where
  nsems : p'.set.semNsems = p.set.semNsems
  perm : p'.set.semPerm = p.set.semPerm
  semncnt : ∀ n, (p'.set.semBase n).semncnt = (p.set.semBase n).semncnt
  semzcnt : ∀ n, (p'.set.semBase n).semzcnt = (p.set.semBase n).semzcnt

theorem Framed.refl (p : Pass t) : Framed p p := ⟨rfl, rfl, fun _ => rfl, fun _ => rfl⟩

theorem Framed.trans (h : Framed p p') (h' : Framed p' q) : Framed p q :=
  ⟨h'.nsems.trans h.nsems, h'.perm.trans h.perm, fun n => (h'.semncnt n).trans (h.semncnt n),
    fun n => (h'.semzcnt n).trans (h.semzcnt n)⟩

theorem Framed.of_set (h : p'.set = p.set) : Framed p p' := by
  refine ⟨?_, ?_, fun n => ?_, fun n => ?_⟩ <;> rw [h]

theorem Framed.setVal (p : Pass t) (n : ℕ) (v : Ushort) : Framed p (p.setVal n v) := by
  refine ⟨rfl, rfl, fun m => ?_, fun m => ?_⟩ <;>
    simp only [Pass.setVal, Function.update_apply] <;> split_ifs with h <;> first | rw [h] | rfl

theorem Moves.framed (h : Moves c semId p p') : Framed p p' := by
  induction h with
  | refl => exact Framed.refl p
  | tail _ hm ih =>
    refine ih.trans ?_
    cases hm with
    | setVal n v => exact Framed.setVal _ n v
    | subAdj num v hnum => exact Framed.of_set (Pass.subAdj_set c semId _ num v)
    | wakeup e => exact Framed.of_set rfl
    | fail e => exact Framed.of_set rfl

theorem Moves.single (h : Move c semId p p') : Moves c semId p p' := Relation.ReflTransGen.single h

/-! ### A pass is made of moves -/

theorem semundo_moves {undo : List SemBuf} : ∀ (i : ℕ) (p : Pass t),
    (∀ op ∈ undo, op.semNum.val < p.set.semNsems) → Moves c semId p (semundo c semId i undo p) := by
  induction undo with
  | nil => exact fun i p _ => Relation.ReflTransGen.refl
  | cons op undo ih =>
    intro i p hnum
    rw [semundo]
    have hval : Moves c semId p
        (p.setVal i (ushort ((p.set.semBase i).semval.val - op.semOp.val))) :=
      Moves.single (Move.setVal _ _)
    have hop := hnum op List.mem_cons_self
    have hundo := fun o ho => hnum o (List.mem_cons_of_mem _ ho)
    split_ifs
    · refine (hval.tail (Move.subAdj op.semNum _ hop)).trans (ih _ _ ?_)
      rw [Pass.subAdj_set]
      exact hundo
    · exact hval.trans (ih _ _ hundo)

theorem failFirst_moves (p : Pass t) (e : Errno) : Moves c semId p (p.failFirst e) := by
  unfold Pass.failFirst
  split_ifs
  · exact Moves.single (Move.fail e)
  · exact Relation.ReflTransGen.refl

/-- What a turn that ends the pass leaves: moves, and the beginning of `semwait` when the
    process goes to sleep. -/
inductive Ends (c : Ctx) (semId : ℕ) (p : Pass t) : Outcome × Pass t → Prop
  | error (q : Pass t) : Moves c semId p q → Ends c semId p (.error, q)
  | sleep (q : Pass t) (e : Event) : Moves c semId p q → Ends c semId p (q.semwait e)

theorem Ends.of_moves {r : Outcome × Pass t} (h : Moves c semId p p') (he : Ends c semId p' r) :
    Ends c semId p r := by
  cases he with
  | error q hq => exact Ends.error q (h.trans hq)
  | sleep q e hq => exact Ends.sleep q e (h.trans hq)

/-- What a turn does. -/
def TurnMoves (c : Ctx) (semId : ℕ) (p : Pass t) : Turn t → Prop
  | .next p' => Moves c semId p p'
  | .ret r => Ends c semId p r

section
variable (hdone : ∀ o ∈ done, o.semNum.val < p.set.semNsems)
include hdone

theorem block_ends (e : Event) : Ends c semId p (p.block c semId done op e) := by
  have hundo : Moves c semId p (semundo c semId 0 done p) := semundo_moves 0 p hdone
  unfold Pass.block
  simp only
  split_ifs
  · exact Ends.error _ (hundo.trans (failFirst_moves _ _))
  · exact Ends.sleep _ e hundo

/-- A rollback in a state with the same set. -/
theorem undo_ends (hm : Moves c semId p p') :
    Ends c semId p (.error, semundo c semId 0 done p') :=
  Ends.error _ (hm.trans (semundo_moves 0 p' (by rw [hm.framed.nsems]; exact hdone)))

variable (hop : op.semNum.val < p.set.semNsems)
include hop

/-- An adjustment, and the rollback when it fails. -/
theorem subAdj_moves (hm : Moves c semId p p') : TurnMoves c semId p
    (match p'.subAdj c semId op.semNum op.semOp with
      | (true, p) => .ret (.error, semundo c semId 0 done p)
      | (false, p) => .next p) := by
  have hsub := hm.tail (Move.subAdj op.semNum op.semOp (by rw [hm.framed.nsems]; exact hop))
  revert hsub
  cases p'.subAdj c semId op.semNum op.semOp with
  | mk b q =>
    intro hsub
    cases b with
    | true => exact undo_ends hdone hsub
    | false => exact hsub

theorem decrement_moves : TurnMoves c semId p (p.decrement c semId done op) := by
  unfold Pass.decrement
  simp only
  by_cases hw : p.lacks c IWRITE = true
  · rw [if_pos hw]
    exact Ends.error _ (Moves.single (Move.fail _))
  rw [if_neg hw]
  by_cases hge : ((p.set.semBase op.semNum.val).semval.val : ℤ) ≥ -op.semOp.val
  · rw [if_pos hge]
    have hset : Moves c semId p (p.setVal op.semNum.val
        (ushort ((p.set.semBase op.semNum.val).semval.val + op.semOp.val))) :=
      Moves.single (Move.setVal _ _)
    split_ifs
    · exact subAdj_moves hdone hop (hset.tail (Move.wakeup _))
    · exact subAdj_moves hdone hop hset
    · exact hset.tail (Move.wakeup _)
    · exact hset
  · rw [if_neg hge]
    exact block_ends hdone _

omit hop in
theorem waitZero_moves : TurnMoves c semId p (p.waitZero c semId done op) := by
  have hfail : Moves c semId p (p.fail .EACCES) := Moves.single (Move.fail _)
  unfold Pass.waitZero
  simp only
  split_ifs
  · exact undo_ends hdone hfail
  · exact Ends.error _ hfail
  · exact Relation.ReflTransGen.refl
  · exact block_ends hdone _

theorem raise_moves (hm : Moves c semId p p') : TurnMoves c semId p (p'.raise c semId done op) := by
  have hundo : Moves c semId p (semundo c semId 0 done p') :=
    hm.trans (semundo_moves 0 p' (by rw [hm.framed.nsems]; exact hdone))
  have hnum : op.semNum.val < (semundo c semId 0 done p').set.semNsems := by
    rw [hundo.framed.nsems]
    exact hop
  unfold Pass.raise
  simp only
  split_ifs
  · exact Ends.error _ ((hundo.tail (Move.subAdj _ _ hnum)).tail (Move.fail _))
  · exact Ends.error _ (hundo.tail (Move.fail _))
  · exact (hm.tail (Move.setVal _ _)).tail (Move.wakeup _)
  · exact hm.tail (Move.setVal _ _)

theorem increment_moves : TurnMoves c semId p (p.increment c semId done op) := by
  unfold Pass.increment
  split_ifs with hw hflag
  · exact Ends.error _ (Moves.single (Move.fail _))
  · have hsub : Moves c semId p (p.subAdj c semId op.semNum op.semOp).2 :=
      Moves.single (Move.subAdj _ _ hop)
    revert hsub
    cases p.subAdj c semId op.semNum op.semOp with
    | mk b p' =>
      intro hsub
      cases b with
      | true => exact undo_ends hdone hsub
      | false => exact raise_moves hdone hop hsub
  · exact raise_moves hdone hop Relation.ReflTransGen.refl

omit hop in
/-- **One operation** is a sequence of moves; when it goes through its semaphore is in the set. -/
theorem turn_moves : TurnMoves c semId p (p.turn c semId done op) ∧
    ∀ p', p.turn c semId done op = .next p' → op.semNum.val < p.set.semNsems := by
  have hundo : Ends c semId p (.error, semundo c semId 0 done p) :=
    undo_ends hdone Relation.ReflTransGen.refl
  have hmoves : Moves c semId p (semundo c semId 0 done p) := semundo_moves 0 p hdone
  unfold Pass.turn
  by_cases hbig : inRange (-t.SEMVMX) op.semOp.val t.SEMVMX = false
  · rw [if_pos hbig]
    exact ⟨Ends.error _ (hmoves.tail (Move.fail _)), fun p' h => by cases h⟩
  rw [if_neg hbig]
  by_cases hno : p.uError ≠ none ∨ op.semNum.val ≥ p.set.semNsems
  · rw [if_pos hno]
    exact ⟨Ends.error _ (hmoves.trans (failFirst_moves _ _)), fun p' h => by cases h⟩
  rw [if_neg hno]
  have hop : op.semNum.val < p.set.semNsems := by
    by_contra hc
    exact hno (Or.inr (by omega))
  refine ⟨?_, fun _ _ => hop⟩
  split_ifs
  · exact decrement_moves hdone hop
  · exact waitZero_moves hdone
  · exact increment_moves hdone hop

end

/-! ### The whole pass -/

/-- **A pass** is a sequence of moves, and then its end or its sleep. -/
theorem run_moves : ∀ (rest done : List SemBuf) (p : Pass t),
    (∀ o ∈ done, o.semNum.val < p.set.semNsems) →
    Ends c semId p (p.run c semId done rest) ∨
      ∃ q, Moves c semId p q ∧ p.run c semId done rest = (.ok, q.finish c (done ++ rest)) := by
  intro rest
  induction rest with
  | nil =>
    intro done p _
    exact Or.inr ⟨p, Relation.ReflTransGen.refl, by rw [List.append_nil]; rfl⟩
  | cons op rest ih =>
    intro done p hdone
    obtain ⟨hturn, hnum⟩ := @turn_moves t c semId _ _ op hdone
    unfold Pass.run
    revert hturn hnum
    cases p.turn c semId done op with
    | ret r => exact fun hturn _ => Or.inl hturn
    | next p' =>
      intro hturn hnum
      have hturn : Moves c semId p p' := hturn
      have hdone' : ∀ o ∈ done ++ [op], o.semNum.val < p'.set.semNsems := by
        intro o ho
        rw [hturn.framed.nsems]
        rcases List.mem_append.mp ho with ho | ho
        · exact hdone o ho
        · rw [List.mem_singleton.mp ho]
          exact hnum p' rfl
      rcases ih (done ++ [op]) p' hdone' with hends | ⟨q, hq, heq⟩
      · exact Or.inl (hends.of_moves hturn)
      · refine Or.inr ⟨q, hturn.trans hq, ?_⟩
        rw [List.append_assoc, List.singleton_append] at heq
        exact heq

/-- **A pass that goes through** has executed all its operations. -/
theorem run_done : ∀ (rest done : List SemBuf) (p : Pass t), Executed c semId p₀ p done →
    stop c semId p₀ done rest = none →
    ∃ q, Executed c semId p₀ q (done ++ rest) ∧
      p.run c semId done rest = (.ok, q.finish c (done ++ rest)) := by
  intro rest
  induction rest with
  | nil =>
    intro done p he _
    exact ⟨p, by rw [List.append_nil]; exact he, by rw [List.append_nil]; rfl⟩
  | cons op rest ih =>
    intro done p he hstop
    have hturn : TurnSpec c semId p₀ done op _ _ := turn_spec he
    unfold stop at hstop
    unfold Pass.run
    revert hturn hstop
    cases halt c semId p₀ done op with
    | some h =>
      intro _ hstop
      cases hstop
    | none =>
      cases p.turn c semId done op with
      | ret r => exact fun hturn => hturn.elim
      | next p' =>
        intro hturn hstop
        obtain ⟨q, hq, heq⟩ := ih (done ++ [op]) p' hturn hstop
        rw [List.append_assoc, List.singleton_append] at hq heq
        exact ⟨q, hq, heq⟩

/-! ### Bounds -/

/-- An operation that goes through keeps the values in range. -/
theorem halt_bounded (hb : ∀ n < p₀.set.semNsems, 0 ≤ valueAt p₀ done n ∧
      valueAt p₀ done n ≤ t.SEMVMX) (h : halt c semId p₀ done op = none) :
    ∀ n < p₀.set.semNsems, 0 ≤ valueAt p₀ (done ++ [op]) n ∧
      valueAt p₀ (done ++ [op]) n ≤ t.SEMVMX := by
  intro n hn
  have hbn := hb n hn
  have hval : valueAt p₀ (done ++ [op]) n =
      valueAt p₀ done n + if op.semNum.val = n then op.semOp.val else 0 := by
    unfold valueAt
    rw [net_append, net_singleton]
    omega
  rw [hval]
  unfold halt at h
  simp only at h
  split_ifs at h <;> split_ifs with hnum <;> (try subst hnum) <;> omega

theorem stop_bounded (c : Ctx) (semId : ℕ) : ∀ (rest done : List SemBuf),
    (∀ n < p₀.set.semNsems, 0 ≤ valueAt p₀ done n ∧ valueAt p₀ done n ≤ t.SEMVMX) →
    match stop c semId p₀ done rest with
    | none => ∀ n < p₀.set.semNsems, 0 ≤ valueAt p₀ (done ++ rest) n ∧
        valueAt p₀ (done ++ rest) n ≤ t.SEMVMX
    | some (done', _, _) => ∀ n < p₀.set.semNsems, 0 ≤ valueAt p₀ done' n ∧
        valueAt p₀ done' n ≤ t.SEMVMX := by
  intro rest
  induction rest with
  | nil =>
    intro done hb
    rw [List.append_nil]
    exact hb
  | cons op rest ih =>
    intro done hb
    unfold stop
    cases hhalt : halt c semId p₀ done op with
    | some h => exact hb
    | none =>
      have := ih (done ++ [op]) (halt_bounded hb hhalt)
      rw [List.append_assoc, List.singleton_append] at this
      exact this

end CohKernel.Sem386
