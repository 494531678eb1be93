import CohKernel.Lib.Deque
import CohKernel.Lib.Runs

namespace CohKernel.Bufq

open CohKernel.Lib

/-!
# The queues of the disk drivers

`bufq_wr_tail`, `bufq_rd_head` and `bufq_rm_head` of `bufq.c`: one queue for each unit of a driver,
linked through the buffers.

* `queues_fifo` — what a queue gives back is what has been put into it, in the same order.
-/

/-- `bufq_type` -/
structure BufqType (ι : Type*) where
  head : Option ι
  tail : Option ι
  count : ℕ

/-- The queues, and `b_actf` and `b_actl` of the buffers. -/
structure State (ι : Type*) where
  numQ : ℕ
  bufqQ : ℕ → BufqType ι
  bActf : ι → Option ι
  bActl : ι → Option ι

variable {ι : Type*} [DecidableEq ι] {s : State ι} {l : List ι} {b : ι} {q q' : ℕ}

def bufqWrTail (s : State ι) (sId : ℕ) (bp : ι) : State ι :=
  let bqp := s.bufqQ sId
  if ¬ sId < s.numQ then s
  else if bqp.count = 0 then
    { s with
      bufqQ := Function.update s.bufqQ sId ⟨some bp, some bp, bqp.count + 1⟩
      bActf := Function.update s.bActf bp none
      bActl := Function.update s.bActl bp none }
  else
    let bActf := bqp.tail.elim s.bActf fun t => Function.update s.bActf t (some bp)
    { s with
      bufqQ := Function.update s.bufqQ sId ⟨bqp.head, some bp, bqp.count + 1⟩
      bActf := Function.update bActf bp none
      bActl := Function.update s.bActl bp bqp.tail }

def bufqRdHead (s : State ι) (sId : ℕ) : Option ι :=
  if sId < s.numQ then (s.bufqQ sId).head else none

def bufqRmHead (s : State ι) (sId : ℕ) : Option ι × State ι :=
  let bqp := s.bufqQ sId
  if ¬ sId < s.numQ ∨ bqp.count = 0 then (none, s)
  else if bqp.count = 1 then
    (bqp.head, { s with bufqQ := Function.update s.bufqQ sId ⟨none, none, bqp.count - 1⟩ })
  else
    let head := bqp.head.bind s.bActf
    (bqp.head, { s with
      bufqQ := Function.update s.bufqQ sId ⟨head, bqp.tail, bqp.count - 1⟩
      bActl := head.elim s.bActl fun h => Function.update s.bActl h none })

/-- A queue and the links. -/
def State.deque (s : State ι) (q : ℕ) : Deque ι where
  next := fun y => y.elim (s.bufqQ q).head s.bActf
  prev := fun y => y.elim (s.bufqQ q).tail s.bActl

/-! ### One call -/

/-- A call keeps the other queues, and `n` buffers are in its own one. -/
def Changed (s s' : State ι) (q n : ℕ) : Prop :=
  s'.numQ = s.numQ ∧ (s'.bufqQ q).count = n ∧ ∀ q' ≠ q, s'.bufqQ q' = s.bufqQ q'

/-- A buffer is linked in at the end. -/
theorem wrTail_deque (h : (s.deque q).Holds l) (hcount : (s.bufqQ q).count = l.length)
    (hq : q < s.numQ) (hb : b ∉ l) :
    (bufqWrTail s q b).deque q = (s.deque q).insert l.getLast? b none ∧
      Changed s (bufqWrTail s q b) q (l.length + 1) := by
  have htail : (s.bufqQ q).tail = l.getLast? := h.last_eq
  unfold bufqWrTail State.deque Deque.insert
  simp only [hq, not_true, if_false]
  split_ifs with h0
  · obtain rfl : l = [] := List.length_eq_zero_iff.mp (hcount ▸ h0)
    refine ⟨?_, rfl, by simp [hcount], fun q' hne => Function.update_of_ne hne _ _⟩
    congr 1 <;> funext y <;> cases y <;> simp [Function.update_apply]
  · have hl : l ≠ [] := by
      rintro rfl
      exact h0 hcount
    obtain ⟨t, ht⟩ := Option.ne_none_iff_exists'.mp (Deque.last_ne_none hl)
    have hbt : b ≠ t := by
      rintro rfl
      exact hb (List.mem_of_getLast? ht)
    refine ⟨?_, rfl, by simp [hcount], fun q' hne => Function.update_of_ne hne _ _⟩
    rw [htail, ht]
    congr 1 <;> funext y <;> cases y <;> simp [Function.update_apply]
    grind

/-- The first buffer is taken out. -/
theorem rmHead_deque (h : (s.deque q).Holds (b :: l))
    (hcount : (s.bufqQ q).count = l.length + 1) (hq : q < s.numQ) :
    (bufqRmHead s q).1 = some b ∧
      (bufqRmHead s q).2.deque q = (s.deque q).join none l.head? ∧
      Changed s (bufqRmHead s q).2 q l.length := by
  have hhead : (s.bufqQ q).head = some b := h.first_eq
  have hnext : s.bActf b = l.head? := Deque.Holds.next_cell (a := []) h
  have htail : (s.bufqQ q).tail = (b :: l).getLast? := h.last_eq
  unfold bufqRmHead
  simp only [hq, hcount, not_true, false_or, Nat.succ_ne_zero, if_false, hhead]
  cases l with
  | nil =>
    refine ⟨rfl, ?_, rfl, by simp, fun q' hne => Function.update_of_ne hne _ _⟩
    unfold State.deque Deque.join
    congr 1 <;> funext y <;> cases y <;> simp
  | cons c l =>
    refine ⟨rfl, ?_, rfl, by simp, fun q' hne => Function.update_of_ne hne _ _⟩
    unfold State.deque Deque.join
    congr 1 <;> funext y <;> cases y <;> simp [Function.update_apply, hnext]

/-! ### Runs -/

/-- The queues, with what has been put into each and what it has given back. -/
structure Sys (ι : Type*) where
  s : State ι
  entered : ℕ → List ι
  left : ℕ → List ι

/-- What is still in a queue. -/
def Sys.waiting (m : Sys ι) (q : ℕ) : List ι := (m.entered q).drop (m.left q).length

inductive Call (ι : Type*) where
  | wrTail (sId : ℕ) (bp : ι)
  | rmHead (sId : ℕ)

def Sys.step (m : Sys ι) : Call ι → Option (Sys ι)
  | .wrTail q b =>
      some { m with s := bufqWrTail m.s q b
                    entered := Function.update m.entered q (m.entered q ++ [b]) }
  | .rmHead q =>
      let r := bufqRmHead m.s q
      some { m with s := r.2, left := Function.update m.left q (m.left q ++ r.1.toList) }

/-- A driver puts a buffer into one of its queues, when it is in none. -/
def Apart (m : Sys ι) : Call ι → Prop
  | .wrTail q b => q < m.s.numQ ∧ ∀ q' < m.s.numQ, b ∉ m.waiting q'
  | .rmHead _ => True

instance (m : Sys ι) (c : Call ι) : Decidable (Apart m c) := by
  cases c <;> unfold Apart <;> infer_instance

/-- `bufq_init` -/
def Init (m : Sys ι) : Prop :=
  (∀ q, m.s.bufqQ q = ⟨none, none, 0⟩) ∧ (∀ q, m.entered q = []) ∧ ∀ q, m.left q = []

/-- A queue has what has not been given back. -/
def Sys.Fifo (m : Sys ι) (q : ℕ) : Prop :=
  m.entered q = m.left q ++ m.waiting q ∧ (m.s.deque q).Holds (m.waiting q) ∧
    (m.s.bufqQ q).count = (m.waiting q).length

/-- No buffer is in two queues. -/
structure Inv (m : Sys ι) : Prop where
  fifo : ∀ q < m.s.numQ, m.Fifo q
  apart : ∀ q < m.s.numQ, ∀ q' < m.s.numQ, q ≠ q' → ∀ x ∈ m.waiting q, x ∉ m.waiting q'

variable {m m' : Sys ι}

omit [DecidableEq ι] in
/-- A call changes one queue, and no link of a buffer in another one. -/
theorem Inv.update (h : Inv m) (hc : Changed m.s m'.s q l.length)
    (hfifo : m'.entered q = m'.left q ++ l) (hholds : (m'.s.deque q).Holds l)
    (hother : ∀ q' ≠ q, m'.entered q' = m.entered q' ∧ m'.left q' = m.left q')
    (hlinks : ∀ q' < m.s.numQ, q' ≠ q → ∀ x ∈ m.waiting q', x ∉ l ∧
      m'.s.bActf x = m.s.bActf x ∧ m'.s.bActl x = m.s.bActl x) : Inv m' := by
  obtain ⟨hnum, hcount, hrest⟩ := hc
  have hself : m'.waiting q = l := by rw [Sys.waiting, hfifo, List.drop_left]
  have hwait : ∀ q' ≠ q, m'.waiting q' = m.waiting q' := fun q' hne => by
    rw [Sys.waiting, Sys.waiting, (hother q' hne).1, (hother q' hne).2]
  constructor <;> rw [hnum] <;> intro q₁ h₁ <;> by_cases h1 : q₁ = q
  · rw [h1, Sys.Fifo, hself]
    exact ⟨hfifo, hholds, hcount⟩
  · obtain ⟨hf, hh, hn⟩ := h.fifo q₁ h₁
    rw [Sys.Fifo, hwait q₁ h1, (hother q₁ h1).1, (hother q₁ h1).2, hrest q₁ h1]
    refine ⟨hf, hh.congr ?_ ?_, hn⟩ <;> rintro (_ | x) hx
    · exact congrArg BufqType.head (hrest q₁ h1)
    · exact (hlinks q₁ h₁ h1 x (hx x rfl)).2.1
    · exact congrArg BufqType.tail (hrest q₁ h1)
    · exact (hlinks q₁ h₁ h1 x (hx x rfl)).2.2
  · intro q₂ h₂ hne x hx hx'
    rw [h1, hself] at hx
    rw [hwait q₂ (h1 ▸ hne.symm)] at hx'
    exact (hlinks q₂ h₂ (h1 ▸ hne.symm) x hx').1 hx
  · intro q₂ h₂ hne x hx
    rw [hwait q₁ h1] at hx
    by_cases h2 : q₂ = q
    · rw [h2, hself]
      exact (hlinks q₁ h₁ h1 x hx).1
    · rw [hwait q₂ h2]
      exact h.apart q₁ h₁ q₂ h₂ hne x hx

theorem Inv.wrTail (h : Inv m) (hok : Apart m (.wrTail q b))
    (hs : m.step (.wrTail q b) = some m') : Inv m' := by
  obtain ⟨hq, hb⟩ := hok
  obtain rfl := Option.some.inj hs
  obtain ⟨hf, hholds, hn⟩ := h.fifo q hq
  obtain ⟨hdeque, hc⟩ := wrTail_deque hholds hn hq (hb q hq)
  refine h.update (l := m.waiting q ++ [b]) (by rwa [List.length_append]) ?_ ?_
    (fun q' hne => ⟨Function.update_of_ne hne _ _, rfl⟩) fun q' hq' hne x hx => ?_
  · dsimp only
    rw [Function.update_self, hf, List.append_assoc]
  · rw [hdeque]
    rw [← List.append_nil (m.waiting q)] at hholds
    exact hholds.insert (by simpa using hb q hq)
  · have hxb : x ≠ b := fun heq => hb q' hq' (heq ▸ hx)
    have hxl := h.apart q' hq' q hq hne x hx
    have hlast : some x ≠ (m.waiting q).getLast? := fun heq =>
      hxl (List.mem_of_getLast? heq.symm)
    refine ⟨by simp [hxl, hxb], ?_, ?_⟩
    · exact (congrFun (congrArg Deque.next hdeque) (some x)).trans
        (Deque.insert_next_of_ne hlast (by simpa using hxb))
    · exact (congrFun (congrArg Deque.prev hdeque) (some x)).trans
        (Deque.insert_prev_of_ne (by simp) (by simpa using hxb))

theorem Inv.rmHead (h : Inv m) (hs : m.step (.rmHead q) = some m') : Inv m' := by
  obtain rfl := Option.some.inj hs
  by_cases hq : q < m.s.numQ ∧ m.waiting q ≠ []
  · obtain ⟨hq, hne⟩ := hq
    obtain ⟨b, l, hl⟩ := List.exists_cons_of_ne_nil hne
    obtain ⟨hf, hholds, hn⟩ := h.fifo q hq
    rw [hl] at hf hholds hn
    obtain ⟨hret, hdeque, hc⟩ := rmHead_deque hholds hn hq
    refine h.update (l := l) hc ?_ ?_
      (fun q' hne => ⟨rfl, Function.update_of_ne hne _ _⟩) fun q' hq' hne x hx => ?_
    · dsimp only
      rw [Function.update_self, hf, hret, List.append_assoc]
      rfl
    · rw [hdeque]
      exact Deque.Holds.join (a := []) hholds
    · have hxl : x ∉ l := fun hm =>
        h.apart q' hq' q hq hne x hx (hl ▸ List.mem_cons_of_mem b hm)
      have hfirst : some x ≠ l.head? := fun heq => hxl (List.mem_of_mem_head? heq.symm)
      exact ⟨hxl, congrFun (congrArg Deque.next hdeque) (some x),
        (congrFun (congrArg Deque.prev hdeque) (some x)).trans (Function.update_of_ne hfirst _ _)⟩
  · -- the call returns no buffer
    have hnone : bufqRmHead m.s q = (none, m.s) := by
      refine if_pos ?_
      by_contra hcon
      obtain ⟨hin, hpos⟩ := not_or.mp hcon
      have hl : m.waiting q = [] := by
        by_contra hne
        exact hq ⟨not_not.mp hin, hne⟩
      exact hpos (by rw [(h.fifo q (not_not.mp hin)).2.2, hl]; rfl)
    rw [hnone]
    simpa using h

/-- **First in, first out.** In every run in which no buffer is put into a queue while it is in
    one, a queue has given back the first of the buffers put into it, in their order, and has the
    others, linked both ways; `bufq_rd_head` returns the first of these. -/
theorem queues_fifo (m : Sys ι) (h : Reach Init Sys.step Apart m) (q : ℕ) (hq : q < m.s.numQ) :
    m.Fifo q ∧ bufqRdHead m.s q = (m.waiting q).head? := by
  have hinv : Inv m := by
    refine h.invariant (fun m hm => ?_) fun m c m' hinv hok hs => ?_
    · obtain ⟨hs, he, hl⟩ := hm
      have hw : ∀ q, m.waiting q = [] := fun q => by simp [Sys.waiting, he]
      refine ⟨fun q _ => ⟨by simp [hw, he, hl], ?_, by simp [hw, hs]⟩, by simp [hw]⟩
      rw [hw]
      refine Deque.holds_empty.congr ?_ ?_ <;> rintro (_ | x) hx
      · simp [State.deque, hs, Deque.empty]
      · cases hx x rfl
      · simp [State.deque, hs, Deque.empty]
      · cases hx x rfl
    · cases c with
      | wrTail q b => exact hinv.wrTail hok hs
      | rmHead q => exact hinv.rmHead hs
  refine ⟨hinv.fifo q hq, ?_⟩
  rw [bufqRdHead, if_pos hq]
  exact (hinv.fifo q hq).2.1.first_eq

/-- Two buffers wait in one queue, and one in another. -/
theorem queues_fifo_two : ∃ m : Sys ℕ, m.left 0 = [7] ∧ m.waiting 0 = [9, 6] ∧ m.Fifo 0 ∧
    bufqRdHead m.s 0 = some 9 := by
  have hrun : (runFrom (fun m c => if decide (Apart m c) then m.step c else none)
      (⟨⟨2, fun _ => ⟨none, none, 0⟩, fun _ => none, fun _ => none⟩, fun _ => [],
        fun _ => []⟩ : Sys ℕ)
      [.wrTail 0 7, .wrTail 1 8, .wrTail 0 9, .rmHead 0, .wrTail 0 6]).any
      (fun m => m.s.numQ = 2 ∧ m.left 0 = [7] ∧ m.waiting 0 = [9, 6]) = true := by decide
  obtain ⟨m, hm, hval⟩ := (Option.any_eq_true _ _).mp hrun
  obtain ⟨hnum, hleft, hwait⟩ := of_decide_eq_true hval
  obtain ⟨hfifo, hhead⟩ := queues_fifo m (Reach.checked (fun _ _ hc => of_decide_eq_true hc)
    (Reach.init ⟨fun _ => rfl, fun _ => rfl, fun _ => rfl⟩) hm) 0 (by omega)
  exact ⟨m, hleft, hwait, hfifo, hhead.trans (by rw [hwait]; rfl)⟩

end CohKernel.Bufq
