import Mathlib.Algebra.BigOperators.Group.List.Basic
import CohKernel.Strmem.Defs

namespace CohKernel.Strmem

open CohKernel.Lib

/-!
# Accounts of STREAMS memory

STREAMS memory over a run of calls, with the blocks that are allocated.

* `memory_accounted` — `sm_used` is the size of what is allocated, an allocation stays below its
  watermark, and no process waits for memory that there is, as long as no block is freed that leaves
  room for a process that waits;
* `waiter_stays` — a process that waits for memory is not woken.
-/

/-! ### Runs -/

/-- The calls.  A cell is what `kmem_alloc` gives to `bufcall` or `esbbcall`. -/
inductive Event (P β γ : Type) where
  | alloc (p : P) (size : UInt32) (pri : Pri) (kmSleep : Bool)
  | free (b : β) (size : UInt32)
  | bufcall (size : UInt32) (pri : Pri) (func arg : UInt32) (cell : Option γ)
  | esbbcall (pri : Pri) (func arg : UInt32) (cell : Option γ)
  | unbufcall (id : UInt32)
  | runBufcalls
  | runEvent

/-- An event that has been stored: its priority, its identifier and its size. -/
structure Stored where
  pri : Pri
  id : UInt32
  size : UInt32

/-- What is recorded: the blocks that are allocated; for each allocation its priority and the bytes
    allocated with it; the processes for which a block that was freed has left room; the events that
    have been stored, in order; the number of the event in each cell that is in use; the numbers of
    the events that have been cancelled, taken off a list with the memory used then, called, and
    freed. -/
structure Log (P β γ : Type) where
  live : List (β × UInt32)
  granted : List (Pri × ℕ)
  due : P → Bool
  stored : List Stored
  serial : γ → Option ℕ
  cancelled : List ℕ
  taken : List (ℕ × UInt32)
  called : List ℕ
  freed : List ℕ

/-- The bytes that are allocated. -/
def outstanding {β : Type} (live : List (β × UInt32)) : ℕ := (live.map fun b => b.2.toNat).sum

/-- STREAMS memory in a run. -/
structure Sys (P β γ σ : Type) where
  mem : StreamsMem P γ σ
  halted : Option Halt
  log : Log P β γ

namespace Sys

variable {P β γ σ : Type}

/-- There is room for a process. -/
def room (h : StHeap β σ) (m : StreamsMem P γ σ) (w : Waiter) : Bool :=
  (m.tryAlloc h w.size w.pri).isSome

variable [DecidableEq P] [DecidableEq β] [DecidableEq γ] [Fintype γ]

/-- The events of a list. -/
def chain (m : StreamsMem P γ σ) (head : Option γ) : List γ :=
  walk (fun c => (m.cell c).seNext) (Fintype.card γ) head

/-- The events of all lists. -/
def pending (m : StreamsMem P γ σ) : List γ :=
  [Pri.BPRI_HI, .BPRI_MED, .BPRI_LO].flatMap fun pri => chain m (m.smBcevents pri).slHead

/-- The events that `RUN_BUFCALLS` is to run. -/
def running (m : StreamsMem P γ σ) : List γ := m.runner.elim [] fun r => chain m r.runlist

/-- The numbers of events. -/
def numbers (s : Sys P β γ σ) (cs : List γ) : List ℕ := cs.filterMap s.log.serial

/-- `STRMEM_ALLOC` -/
def alloc (h : StHeap β σ) (s : Sys P β γ σ) (p : P) (size : UInt32) (pri : Pri) (kmSleep : Bool) :
    Sys P β γ σ :=
  let r := s.mem.strmemAlloc h p size pri kmSleep
  match r.2 with
  | none => { s with mem := r.1, log := { s.log with due := Function.update s.log.due p false } }
  | some b =>
      let live := (b, size) :: s.log.live
      { s with
        mem := r.1
        log := { s.log with live := live, granted := (pri, outstanding live) :: s.log.granted } }

/-- `STRMEM_FREE` -/
def free (h : StHeap β σ) (s : Sys P β γ σ) (b : β) (size : UInt32) : Sys P β γ σ :=
  let r := s.mem.strmemFree h b size
  if r.2 then
    { s with
      mem := r.1
      log := { s.log with
        live := s.log.live.erase (b, size)
        due := fun p => s.log.due p || (r.1.asleep p).any (room h r.1) } }
  else { s with mem := r.1 }

/-- `bufcall` and `esbbcall` for a message of a size. -/
def store (s : Sys P β γ σ) (size : UInt32) (pri : Pri) (func arg : UInt32) (c : γ) : Sys P β γ σ :=
  let r := s.mem.bufcall size pri func arg c
  { s with
    mem := r.1
    log := { s.log with
      stored := s.log.stored ++ [⟨pri, r.2, msgbSize size⟩]
      serial := Function.update s.log.serial c (some s.log.stored.length) } }

/-- `unbufcall` -/
def cancel (s : Sys P β γ σ) (id : UInt32) : Sys P β γ σ :=
  match s.mem.unbufcall id with
  | .error halt => { s with halted := some halt }
  | .ok m =>
      let gone := (pending s.mem).filter fun c => decide (c ∉ pending m)
      { s with mem := m, log := { s.log with cancelled := s.log.cancelled ++ s.numbers gone } }

/-- `RUN_BUFCALLS` begins. -/
def start (s : Sys P β γ σ) : Sys P β γ σ :=
  match s.mem.runBufcallsStart with
  | .error halt => { s with halted := some halt }
  | .ok m =>
      let taken := (s.numbers (running m)).map fun n => (n, s.mem.smUsed)
      { s with mem := m, log := { s.log with taken := s.log.taken ++ taken } }

/-- `RUN_BUFCALLS` goes on. -/
def next (s : Sys P β γ σ) (r : Runner γ) : Sys P β γ σ :=
  let m := s.mem.runBufcallsNext r
  match m.2 with
  | none => { s with mem := m.1 }
  | some c =>
      { s with
        mem := m.1
        log := { s.log with
          called := s.log.called ++ s.numbers [c]
          freed := s.log.freed ++ s.numbers [c]
          serial := Function.update s.log.serial c none } }

/-- A call, as long as the kernel runs.  A process that sleeps makes no call, a block is freed with
    its size, a cell that is allocated is not in use, only an identifier that has been returned is
    cancelled, and `RUN_BUFCALLS` runs when it has been deferred. -/
def step (h : StHeap β σ) (s : Sys P β γ σ) : Event P β γ → Option (Sys P β γ σ)
  | e =>
    if s.halted.isSome then none
    else
      match e with
      | .alloc p size pri kmSleep =>
          if (s.mem.asleep p).isSome || size == 0 then none else some (s.alloc h p size pri kmSleep)
      | .free b size => if (b, size) ∈ s.log.live then some (s.free h b size) else none
      | .bufcall _ _ _ _ none | .esbbcall _ _ _ none => some s
      | .bufcall size pri func arg (some c) =>
          if (s.log.serial c).isSome then none else some (s.store size pri func arg c)
      | .esbbcall pri func arg (some c) =>
          if (s.log.serial c).isSome then none else some (s.store 0 pri func arg c)
      | .unbufcall id => if s.log.stored.any fun e => e.id == id then some (s.cancel id) else none
      | .runBufcalls =>
          if s.mem.runBufcalls && s.mem.runner.isNone then some s.start else none
      | .runEvent => s.mem.runner.map s.next

/-- STREAMS memory as `STRMEM_INIT` leaves it, in static storage, for a heap of at most the size
    that can be configured. -/
structure Initial (s : Sys P β γ σ) : Prop where
  used : s.mem.smUsed = 0
  max : ∃ size, size ≤ 131072 ∧ s.mem.smMax = initMax size
  lists : ∀ pri, s.mem.smBcevents pri = ⟨none, none, 0⟩
  asleep : ∀ p, s.mem.asleep p = none
  runner : s.mem.runner = none
  halted : s.halted = none
  log : s.log = ⟨[], [], fun _ => false, [], fun _ => none, [], [], [], []⟩

end Sys

/-! ### Calls that leave the accounts alone -/

section Same

variable {P β γ σ : Type} {m m' m'' : StreamsMem P γ σ}

/-- The accounts, and the processes that wait, are the same. -/
structure Same (m m' : StreamsMem P γ σ) : Prop where
  used : m'.smUsed = m.smUsed
  max : m'.smMax = m.smMax
  asleep : m'.asleep = m.asleep

theorem Same.refl (m : StreamsMem P γ σ) : Same m m := ⟨rfl, rfl, rfl⟩

theorem Same.trans (h : Same m m') (h' : Same m' m'') : Same m m'' :=
  ⟨h'.used.trans h.used, h'.max.trans h.max, h'.asleep.trans h.asleep⟩

variable [DecidableEq γ]

theorem bufcall_same (m : StreamsMem P γ σ) (size : UInt32) (pri : Pri) (func arg : UInt32)
    (c : γ) : Same m (m.bufcall size pri func arg c).1 := by
  unfold StreamsMem.bufcall StreamsMem.storeEvent
  dsimp only
  split <;> exact ⟨rfl, rfl, rfl⟩

omit [DecidableEq γ] in
theorem runBufcallsNext_same (m : StreamsMem P γ σ) (r : Runner γ) :
    Same m (m.runBufcallsNext r).1 := by
  unfold StreamsMem.runBufcallsNext
  split
  · exact ⟨rfl, rfl, rfl⟩
  · dsimp only
    split <;> exact ⟨rfl, rfl, rfl⟩

theorem unbufScan_same {id : UInt32} {pri : Pri} {fuel : ℕ} {sprev scan : Option γ}
    (h : StreamsMem.unbufScan id pri fuel m sprev scan = .ok m') : Same m m' := by
  induction fuel generalizing sprev scan with
  | zero =>
    cases scan with
    | none =>
      cases h
      exact Same.refl m
    | some c => cases h
  | succ fuel ih =>
    cases scan with
    | none =>
      cases h
      exact Same.refl m
    | some c =>
      unfold StreamsMem.unbufScan at h
      split at h
      · cases h
        cases sprev with
        | none =>
          dsimp only
          split <;> exact ⟨rfl, rfl, rfl⟩
        | some sprev =>
          dsimp only
          split <;> exact ⟨rfl, rfl, rfl⟩
      · exact ih h

theorem drain_same {pri : Pri} {fuel : ℕ} {g g' : Gathered P γ σ}
    (h : StreamsMem.drain pri fuel g = .ok g') : Same g.mem g'.mem := by
  induction fuel generalizing g with
  | zero =>
    unfold StreamsMem.drain at h
    split at h
    · cases h
      exact ⟨rfl, rfl, rfl⟩
    · cases h
    · next hfuel => cases hfuel
  | succ fuel ih =>
    unfold StreamsMem.drain at h
    split at h
    · cases h
      exact ⟨rfl, rfl, rfl⟩
    · next hfuel => cases hfuel
    · next c fuel' hhead hfuel =>
      cases hfuel
      dsimp only at h
      split at h
      · cases h
        exact Same.refl _
      · have htake :
            Same g.mem (StreamsMem.takeEvent g pri c (g.memLevel + (g.mem.cell c).seSize)).mem :=
          ⟨rfl, rfl, rfl⟩
        exact htake.trans (ih h)

variable [Fintype γ]

theorem gather_same {pri : Pri} {g g' : Gathered P γ σ} (h : StreamsMem.gather pri g = .ok g') :
    Same g.mem g'.mem := by
  unfold StreamsMem.gather at h
  split at h
  · cases h
    exact Same.refl _
  · exact drain_same h

theorem runBufcallsStart_same (h : m.runBufcallsStart = .ok m') : Same m m' := by
  obtain ⟨g, hg, h⟩ := bind_ok h
  obtain ⟨g', hg', h⟩ := bind_ok h
  obtain ⟨g'', hg'', h⟩ := bind_ok h
  cases h
  have hclear : Same m { m with runBufcalls := false } := ⟨rfl, rfl, rfl⟩
  have hrunner : Same g''.mem { g''.mem with runner := some ⟨g''.runlist, g''.gaveUp⟩ } :=
    ⟨rfl, rfl, rfl⟩
  exact (((hclear.trans (gather_same hg)).trans (gather_same hg')).trans (gather_same hg'')).trans
    hrunner

theorem unbufcall_same {id : UInt32} (h : m.unbufcall id = .ok m') : Same m m' := by
  unfold StreamsMem.unbufcall at h
  split at h
  · cases h
  · exact unbufScan_same h

end Same

/-! ### The accounts -/

section Accounts

variable {P β γ σ : Type}

/-- `sm_used` is what is allocated, each allocation has stayed below its watermark, and no process
    waits for which a block that was freed has left room. -/
structure Sys.Accounted (s : Sys P β γ σ) : Prop where
  used : s.mem.smUsed.toNat = outstanding s.log.live
  granted : ∀ g ∈ s.log.granted, g.2 ≤ (s.mem.smMax g.1).toNat
  woken : ∀ p, (s.mem.asleep p).isSome = true → s.log.due p = false

/-- A block that is freed does not leave room for a process that waits. -/
def Sys.freesNoWaiter (h : StHeap β σ) (s : Sys P β γ σ) : Event P β γ → Prop
  | .free b size =>
      let r := s.mem.strmemFree h b size
      ∀ p, (r.2 && (s.mem.asleep p).any (Sys.room h r.1)) = false
  | _ => True

instance [Fintype P] (h : StHeap β σ) (s : Sys P β γ σ) (e : Event P β γ) :
    Decidable (s.freesNoWaiter h e) :=
  match e with
  | .free b size => inferInstanceAs (Decidable (∀ p, ((s.mem.strmemFree h b size).2 &&
      (s.mem.asleep p).any (Sys.room h (s.mem.strmemFree h b size).1)) = false))
  | .alloc _ _ _ _ | .bufcall _ _ _ _ _ | .esbbcall _ _ _ _ | .unbufcall _ | .runBufcalls
  | .runEvent => .isTrue trivial

/-- What is kept: the watermarks are those of a heap that can be configured. -/
structure Sys.Kept (s : Sys P β γ σ) : Prop where
  accounted : s.Accounted
  max : ∀ pri, (s.mem.smMax pri).toNat ≤ 131072
  bound : s.mem.smUsed.toNat ≤ 131072

theorem lessSixteenth_le (size : UInt32) : (lessSixteenth size).toNat ≤ size.toNat := by
  have hle : size >>> 4 ≤ size := by
    rw [UInt32.le_iff_toNat_le, UInt32.toNat_shiftRight]
    exact Nat.shiftRight_le _ _
  unfold lessSixteenth
  rw [UInt32.toNat_sub_of_le _ _ hle]
  exact Nat.sub_le _ _

theorem initMax_le (size : UInt32) (pri : Pri) : (initMax size pri).toNat ≤ size.toNat := by
  cases pri with
  | BPRI_HI => exact le_refl _
  | BPRI_MED => exact lessSixteenth_le size
  | BPRI_LO => exact le_trans (lessSixteenth_le _) (lessSixteenth_le size)

theorem Sys.Initial.kept {s : Sys P β γ σ} (hs : s.Initial) : s.Kept := by
  obtain ⟨size, hsize, hmax⟩ := hs.max
  refine ⟨⟨?_, ?_, ?_⟩, ?_, ?_⟩
  · rw [hs.used, hs.log]
    rfl
  · rw [hs.log]
    exact fun g hg => absurd hg List.not_mem_nil
  · intro p hp
    rw [hs.asleep] at hp
    cases hp
  · intro pri
    rw [hmax]
    exact le_trans (initMax_le size pri) (UInt32.le_iff_toNat_le.mp hsize)
  · rw [hs.used]
    exact Nat.zero_le _

variable {s s' : Sys P β γ σ} {h : StHeap β σ} {p : P} {b : β} {size : UInt32} {pri : Pri}

/-- Only the accounts count. -/
theorem Sys.Kept.same (hs : s.Kept) (hmem : Same s.mem s'.mem) (hlive : s'.log.live = s.log.live)
    (hgranted : s'.log.granted = s.log.granted) (hdue : s'.log.due = s.log.due) : s'.Kept := by
  refine ⟨⟨?_, ?_, ?_⟩, ?_, ?_⟩
  · rw [hmem.used, hlive]
    exact hs.accounted.used
  · rw [hmem.max, hgranted]
    exact hs.accounted.granted
  · rw [hmem.asleep, hdue]
    exact hs.accounted.woken
  · rw [hmem.max]
    exact hs.max
  · rw [hmem.used]
    exact hs.bound

/-- Memory is given out below the watermark. -/
theorem tryAlloc_some {m m' : StreamsMem P γ σ} (hm : m.tryAlloc h size pri = some (b, m')) :
    m.smUsed + size ≤ m.smMax pri ∧ m'.smUsed = m.smUsed + size ∧ m'.smMax = m.smMax ∧
      m'.asleep = m.asleep := by
  obtain ⟨hle, hm⟩ := Option.ite_none_right_eq_some.mp hm
  obtain ⟨got, -, hgot⟩ := Option.map_eq_some_iff.mp hm
  cases hgot
  exact ⟨hle, rfl, rfl, rfl⟩

/-- What `STRMEM_ALLOC` does: it refuses, it gives out memory, or it sleeps. -/
theorem strmemAlloc_cases [DecidableEq P] (m : StreamsMem P γ σ) (h : StHeap β σ) (p : P)
    (size : UInt32) (pri : Pri) (kmSleep : Bool) :
    m.strmemAlloc h p size pri kmSleep = (m, none) ∨
    (∃ b m', size ≤ m.smMax pri ∧ m.tryAlloc h size pri = some (b, m') ∧
      m.strmemAlloc h p size pri kmSleep = (m', some b)) ∨
    m.strmemAlloc h p size pri kmSleep = (m.sleep p size pri, none) := by
  unfold StreamsMem.strmemAlloc
  split
  · exact .inl rfl
  · next hlt =>
    cases htry : m.tryAlloc h size pri with
    | some got => exact .inr (.inl ⟨got.1, got.2, UInt32.not_lt.mp hlt, rfl, rfl⟩)
    | none =>
      cases kmSleep with
      | true => exact .inr (.inr rfl)
      | false => exact .inl rfl

/-- `STRMEM_ALLOC` keeps the accounts. -/
theorem Sys.Kept.alloc [DecidableEq P] (hs : s.Kept) (kmSleep : Bool) :
    (s.alloc h p size pri kmSleep).Kept := by
  have hdue : ∀ q, (s.mem.asleep q).isSome = true →
      Function.update s.log.due p false q = false := by
    intro q hq
    by_cases hqp : q = p
    · subst hqp
      exact Function.update_self _ _ _
    · rw [Function.update_of_ne hqp]
      exact hs.accounted.woken q hq
  unfold Sys.alloc
  rcases strmemAlloc_cases s.mem h p size pri kmSleep with
    heq | ⟨b, m', hsize, htry, heq⟩ | heq
  · rw [heq]
    exact ⟨⟨hs.accounted.used, hs.accounted.granted, hdue⟩, hs.max, hs.bound⟩
  · rw [heq]
    obtain ⟨hle, hused, hmax, hasleep⟩ := tryAlloc_some htry
    have hsize' := le_trans (UInt32.le_iff_toNat_le.mp hsize) (hs.max pri)
    -- the sum does not wrap
    have hsum : (s.mem.smUsed + size).toNat = s.mem.smUsed.toNat + size.toNat := by
      have hbound := hs.bound
      rw [UInt32.toNat_add, Nat.mod_eq_of_lt (by omega)]
    have hout : outstanding ((b, size) :: s.log.live) = (s.mem.smUsed + size).toNat := by
      rw [hsum, hs.accounted.used, Nat.add_comm]
      rfl
    refine ⟨⟨?_, ?_, ?_⟩, ?_, ?_⟩
    · show m'.smUsed.toNat = _
      rw [hused, hout]
    · intro g hg
      show g.2 ≤ (m'.smMax g.1).toNat
      rw [hmax]
      rcases List.mem_cons.mp hg with rfl | hg
      · rw [hout]
        exact UInt32.le_iff_toNat_le.mp hle
      · exact hs.accounted.granted g hg
    · show ∀ q, (m'.asleep q).isSome = true → _
      rw [hasleep]
      exact hs.accounted.woken
    · show ∀ q, (m'.smMax q).toNat ≤ _
      rw [hmax]
      exact hs.max
    · show m'.smUsed.toNat ≤ _
      rw [hused]
      exact le_trans (UInt32.le_iff_toNat_le.mp hle) (hs.max pri)
  · rw [heq]
    refine ⟨⟨hs.accounted.used, hs.accounted.granted, ?_⟩, hs.max, hs.bound⟩
    intro q hq
    show Function.update s.log.due p false q = false
    by_cases hqp : q = p
    · subst hqp
      exact Function.update_self _ _ _
    · refine hdue q ?_
      have hq' : (Function.update s.mem.asleep p (some ⟨size, pri⟩) q).isSome = true := hq
      rw [Function.update_of_ne hqp] at hq'
      exact hq'

/-- `STRMEM_FREE` keeps the accounts. -/
theorem Sys.Kept.free [DecidableEq β] (hs : s.Kept) (hlive : (b, size) ∈ s.log.live)
    (hok : s.freesNoWaiter h (.free b size)) : (s.free h b size).Kept := by
  have hout : size.toNat + outstanding (s.log.live.erase (b, size)) = s.mem.smUsed.toNat := by
    rw [hs.accounted.used]
    have hperm := (List.perm_cons_erase hlive).map fun b : β × UInt32 => b.2.toNat
    exact hperm.sum_eq.symm
  have hok' : ∀ p, ((s.mem.strmemFree h b size).2 &&
    (s.mem.asleep p).any (Sys.room h (s.mem.strmemFree h b size).1)) = false := hok
  unfold Sys.free
  cases hfree : h.stFree s.mem.smMsgHeap b size with
  | none =>
    have heq : s.mem.strmemFree h b size = (s.mem, false) := by
      unfold StreamsMem.strmemFree
      rw [hfree]
    rw [heq]
    exact hs
  | some heap =>
    have heq : s.mem.strmemFree h b size =
        (StreamsMem.scheduleBufcalls
          { s.mem with smMsgHeap := heap, smUsed := s.mem.smUsed - size }, true) := by
      unfold StreamsMem.strmemFree
      rw [hfree]
    rw [heq] at hok' ⊢
    have hsub : (s.mem.smUsed - size).toNat = s.mem.smUsed.toNat - size.toNat := by
      apply UInt32.toNat_sub_of_le
      rw [UInt32.le_iff_toNat_le]
      omega
    refine ⟨⟨?_, hs.accounted.granted, ?_⟩, hs.max, ?_⟩
    · show (s.mem.smUsed - size).toNat = outstanding (s.log.live.erase (b, size))
      rw [hsub]
      omega
    · intro p hp
      show (s.log.due p || (s.mem.asleep p).any _) = false
      rw [hs.accounted.woken p hp, Bool.false_or]
      exact hok' p
    · show (s.mem.smUsed - size).toNat ≤ 131072
      rw [hsub]
      exact le_trans (Nat.sub_le _ _) hs.bound

variable [DecidableEq P] [DecidableEq β] [DecidableEq γ] [Fintype γ]

/-- A call keeps the accounts. -/
theorem Sys.Kept.step {e : Event P β γ} (hs : s.Kept) (hok : s.freesNoWaiter h e)
    (hstep : s.step h e = some s') : s'.Kept := by
  obtain ⟨-, hstep⟩ := Option.ite_none_left_eq_some.mp hstep
  cases e with
  | alloc p size pri kmSleep =>
    obtain ⟨-, hstep⟩ := Option.ite_none_left_eq_some.mp hstep
    cases hstep
    exact hs.alloc kmSleep
  | free b size =>
    obtain ⟨hlive, hstep⟩ := Option.ite_none_right_eq_some.mp hstep
    cases hstep
    exact hs.free hlive hok
  | bufcall size pri func arg cell =>
    cases cell with
    | none =>
      cases hstep
      exact hs
    | some c =>
      obtain ⟨-, hstep⟩ := Option.ite_none_left_eq_some.mp hstep
      cases hstep
      exact hs.same (bufcall_same _ _ _ _ _ _) rfl rfl rfl
  | esbbcall pri func arg cell =>
    cases cell with
    | none =>
      cases hstep
      exact hs
    | some c =>
      obtain ⟨-, hstep⟩ := Option.ite_none_left_eq_some.mp hstep
      cases hstep
      exact hs.same (bufcall_same _ _ _ _ _ _) rfl rfl rfl
  | unbufcall id =>
    obtain ⟨-, hstep⟩ := Option.ite_none_right_eq_some.mp hstep
    cases hstep
    unfold Sys.cancel
    cases hm : s.mem.unbufcall id with
    | error halt => exact hs.same (Same.refl _) rfl rfl rfl
    | ok m => exact hs.same (unbufcall_same hm) rfl rfl rfl
  | runBufcalls =>
    obtain ⟨-, hstep⟩ := Option.ite_none_right_eq_some.mp hstep
    cases hstep
    unfold Sys.start
    cases hm : s.mem.runBufcallsStart with
    | error halt => exact hs.same (Same.refl _) rfl rfl rfl
    | ok m => exact hs.same (runBufcallsStart_same hm) rfl rfl rfl
  | runEvent =>
    obtain ⟨r, -, hr⟩ := Option.map_eq_some_iff.mp hstep
    have hsame := runBufcallsNext_same s.mem r
    subst hr
    unfold Sys.next
    dsimp only
    split
    · exact hs.same hsame rfl rfl rfl
    · exact hs.same hsame rfl rfl rfl

/-- **Memory is accounted for.**  In a run in which no block that is freed leaves room for a process
    that waits for memory, `sm_used` is what is allocated, no allocation has taken it above its
    watermark, and no process waits for which there is room. -/
theorem memory_accounted (hr : Reach Sys.Initial (Sys.step h) (fun s e => s.freesNoWaiter h e) s) :
    s.Accounted := by
  have hinv : s.Kept := by
    refine @Reach.invariant _ _ _ _ _ Sys.Kept ?_ ?_ s hr
    · exact fun s hs => hs.kept
    · exact fun s e s' hs hok hstep => hs.step hok hstep
  exact hinv.accounted

end Accounts

/-! ### Computed runs -/

/-- A heap of a number of bytes, as the bytes that are free. -/
def byteHeap : StHeap ℕ ℕ where
  stAlloc free size := if size.toNat ≤ free then some (size.toNat, free - size.toNat) else none
  stFree free block _ := some (free + block)

/-- The start of a run with a heap of 8192 bytes. -/
def Sys.fresh : Sys (Fin 2) ℕ (Fin 2) ℕ where
  mem := ⟨0, initMax 8192, fun _ => ⟨none, none, 0⟩, 8192, 0, fun _ => ⟨none, none, 0, 0, 0, 0⟩,
    fun _ => none, false, none⟩
  halted := none
  log := ⟨[], [], fun _ => false, [], fun _ => none, [], [], [], []⟩

theorem Sys.fresh_initial : Sys.fresh.Initial :=
  ⟨rfl, ⟨8192, by decide, rfl⟩, fun _ => rfl, fun _ => rfl, rfl, rfl, rfl⟩

/-- Two blocks are allocated and one is freed. -/
theorem memory_accounted_freed :
    ∃ s : Sys (Fin 2) ℕ (Fin 2) ℕ, s.Accounted ∧ s.mem.smUsed = 1000 := by
  have hrun : (runFrom (fun (s : Sys (Fin 2) ℕ (Fin 2) ℕ) e =>
      if decide (s.freesNoWaiter byteHeap e) then s.step byteHeap e else none) Sys.fresh
      [.alloc 0 4000 .BPRI_LO true, .alloc 1 1000 .BPRI_HI false, .free 4000 4000]).any
      (fun s => s.mem.smUsed = 1000) = true := by decide +kernel
  obtain ⟨s, hs, hused⟩ := (Option.any_eq_true _ _).mp hrun
  exact ⟨s, memory_accounted (Reach.checked (fun _ _ h => of_decide_eq_true h)
    (Reach.init Sys.fresh_initial) hs), of_decide_eq_true hused⟩

/-- **A process is not woken**: the memory that it waits for is freed. -/
theorem waiter_stays : ¬ ∀ s : Sys (Fin 2) ℕ (Fin 2) ℕ,
    Reach Sys.Initial (Sys.step byteHeap) (fun _ _ => True) s → s.Accounted := by
  intro hall
  have hrun : (runFrom (Sys.step byteHeap) Sys.fresh
      [.alloc 0 7000 .BPRI_LO true, .alloc 1 1000 .BPRI_LO true, .free 7000 7000]).any
      (fun s => (s.mem.asleep 1).isSome ∧ s.log.due 1 = true) = true := by decide +kernel
  obtain ⟨s, hs, hdue⟩ := (Option.any_eq_true _ _).mp hrun
  obtain ⟨hasleep, hdue⟩ := of_decide_eq_true hdue
  have hreach := Reach.run (fun _ _ => trivial) (Reach.init Sys.fresh_initial) hs
  have hwoken := (hall s hreach).woken 1 hasleep
  rw [hdue] at hwoken
  cases hwoken

end CohKernel.Strmem
