import CohKernel.Shead.Defs

namespace CohKernel.Shead

open CohKernel.Lib

/-!
# Holders of stream-head locks

* `Held.leave`, `Held.acquire` — a participant gives up or unlocks, or takes its locks;
* `Inv.step` — the invariant of the runs in which the counts are right;
* `locks_sound` — what is promised of the locks.
-/

variable {s s' t : State} {p : Proc} {i : ℕ} {ok : Bool} {e : Event}

/-! ### What the functions of the timer leave alone -/

/-- What the participants lock, and which of them have their locks. -/
def State.locks (s : State) : List (Finset Cat × Role) := s.procs.map fun p => (p.cats, p.role)

/-- All but the timer, the count of the timeouts, and who is asleep. -/
structure Same (s s' : State) : Prop where
  locks : s'.locks = s.locks
  isPipe : s'.isPipe = s.isPipe
  openCount : s'.openCount = s.openCount
  slaveOpenCount : s'.slaveOpenCount = s.slaveOpenCount
  lockMask : s'.lockMask = s.lockMask
  lockCount : s'.lockCount = s.lockCount
  listed : s'.listed = s.listed
  freed : s'.freed = s.freed

theorem Same.trans {s s' s'' : State} (h : Same s s') (h' : Same s' s'') : Same s s'' :=
  ⟨h'.locks.trans h.locks, h'.isPipe.trans h.isPipe, h'.openCount.trans h.openCount,
    h'.slaveOpenCount.trans h.slaveOpenCount, h'.lockMask.trans h.lockMask,
    h'.lockCount.trans h.lockCount, h'.listed.trans h.listed, h'.freed.trans h.freed⟩

theorem broadcast_locks : s.broadcast.locks = s.locks := by
  unfold State.locks State.broadcast
  rw [List.map_map]
  rfl

theorem broadcast_same : Same s s.broadcast :=
  ⟨broadcast_locks, rfl, rfl, rfl, rfl, rfl, rfl, rfl⟩

theorem timerFunc_same : Same s s.timerFunc :=
  ⟨broadcast_locks, rfl, rfl, rfl, rfl, rfl, rfl, rfl⟩

/-- The timer is started, or it is already, or `shead_timer_func` is called for want of memory. -/
theorem startTimeout_cases (s : State) (ok : Bool) : Same s (s.startTimeout ok).1 ∧
    ((s.startTimeout ok).2 = true ∧ (s.startTimeout ok).1.timeCount = s.timeCount ∨
      ok = false ∧ (s.startTimeout ok).2 = false ∧
        (s.startTimeout ok).1.timeCount = s.lockMask.card) := by
  unfold State.startTimeout
  split
  · exact ⟨⟨rfl, rfl, rfl, rfl, rfl, rfl, rfl, rfl⟩, Or.inl ⟨rfl, rfl⟩⟩
  · cases ok with
    | true => exact ⟨⟨rfl, rfl, rfl, rfl, rfl, rfl, rfl, rfl⟩, Or.inl ⟨rfl, rfl⟩⟩
    | false => exact ⟨timerFunc_same, Or.inr ⟨rfl, rfl, rfl⟩⟩

theorem register_cases (s : State) (ok : Bool) : Same s (s.register ok).1 ∧
    ((s.register ok).2 = true ∧ (s.register ok).1.timeCount = s.timeCount + 1 ∨
      ok = false ∧ (s.register ok).2 = false ∧
        (s.register ok).1.timeCount = s.lockMask.card) := by
  unfold State.register
  dsimp only
  split
  · obtain ⟨hsame, hcases⟩ :=
      startTimeout_cases { s with timeCount := s.timeCount + 1 } ok
    exact ⟨⟨hsame.1, hsame.2, hsame.3, hsame.4, hsame.5, hsame.6, hsame.7, hsame.8⟩, hcases⟩
  · exact ⟨⟨rfl, rfl, rfl, rfl, rfl, rfl, rfl, rfl⟩, Or.inl ⟨rfl, rfl⟩⟩

/-- `SHEAD_LOCK_TIMEOUT` fails when the time is over, or for want of memory. -/
theorem lockTimeout_cases (s : State) (endTime : Clock) (ok : Bool) :
    Same s (s.lockTimeout endTime ok).1 ∧
    ((s.lockTimeout endTime ok).1.timeCount = s.timeCount + 1 ∧
        ((s.lockTimeout endTime ok).2 = false ↔ Reached s.lbolt endTime) ∨
      ok = false ∧ (s.lockTimeout endTime ok).2 = false ∧
        (s.lockTimeout endTime ok).1.timeCount = s.lockMask.card) := by
  have hregister {t : State} (hsame : Same s t) (htime : t.timeCount = s.timeCount)
      (h : ¬Reached s.lbolt endTime) : Same s (t.register ok).1 ∧
      ((t.register ok).1.timeCount = s.timeCount + 1 ∧
          ((t.register ok).2 = false ↔ Reached s.lbolt endTime) ∨
        ok = false ∧ (t.register ok).2 = false ∧
          (t.register ok).1.timeCount = s.lockMask.card) := by
    obtain ⟨hsame', ⟨hresult, htime'⟩ | ⟨hok, hresult, htime'⟩⟩ := register_cases t ok
    · refine ⟨hsame.trans hsame', Or.inl ⟨by rw [htime', htime], ?_⟩⟩
      rw [hresult]
      exact ⟨fun hc => Bool.noConfusion hc, fun hc => absurd hc h⟩
    · exact ⟨hsame.trans hsame', Or.inr ⟨hok, hresult, by rw [htime', hsame.lockMask]⟩⟩
  unfold State.lockTimeout
  split
  case isTrue h =>
    exact ⟨⟨rfl, rfl, rfl, rfl, rfl, rfl, rfl, rfl⟩, Or.inl ⟨rfl, iff_of_true rfl h⟩⟩
  case isFalse h =>
    split
    · exact hregister ⟨rfl, rfl, rfl, rfl, rfl, rfl, rfl, rfl⟩ rfl h
    · exact hregister ⟨rfl, rfl, rfl, rfl, rfl, rfl, rfl, rfl⟩ rfl h

/-! ### Who has which locks -/

/-- The number of the participants that have their locks. -/
def State.held (s : State) : ℕ := s.locks.countP fun l => decide (l.2 ≠ .waiter)

/-- Nobody is about to set bits in the mask. -/
def State.Quiet (s : State) : Prop := ∀ l ∈ s.locks, l.2 ≠ Role.acquiring

/-- The locks of the participants: the mask has the bits of the holders, who have different ones. -/
structure Locks (s : State) : Prop where
  mask : ∀ c, c ∈ s.lockMask ↔ ∃ l ∈ s.locks, l.2 = .holder ∧ c ∈ l.1
  disjoint : s.locks.Pairwise fun l l' => l.2 ≠ .waiter → l'.2 ≠ .waiter → Disjoint l.1 l'.1
  cats : ∀ l ∈ s.locks, l.1 ≠ ∅
  opens : 0 ≤ s.openCount ∧ 0 ≤ s.slaveOpenCount ∧ (s.isPipe = false → s.slaveOpenCount = 0)

/-- The participants are counted, and there is none when the stream head has been freed. -/
structure Held (s : State) : Prop extends Locks s where
  count : s.lockCount = s.locks.length
  freed : s.freed = 0 ∧ s.listed = true ∨
    s.freed = 1 ∧ s.listed = false ∧ s.locks = [] ∧ s.openCount = 0 ∧ s.slaveOpenCount = 0

/-- A participant has been taken out, and is still counted. -/
structure Left (s : State) : Prop extends Locks s where
  count : s.lockCount = s.locks.length + 1
  freed : s.freed = 0 ∧ s.listed = true

theorem Same.held (h : Same s s') : s'.held = s.held := by
  unfold State.held
  rw [h.locks]

theorem Same.quiet (h : Same s s') (hq : s.Quiet) : s'.Quiet := by
  unfold State.Quiet
  rw [h.locks]
  exact hq

theorem Locks.same (h : Locks s) (hs : Same s s') : Locks s' := by
  refine ⟨fun c => ?_, ?_, ?_, ?_⟩
  · rw [hs.lockMask, hs.locks]
    exact h.mask c
  · rw [hs.locks]
    exact h.disjoint
  · rw [hs.locks]
    exact h.cats
  · rw [hs.openCount, hs.slaveOpenCount, hs.isPipe]
    exact h.opens

theorem Held.same (h : Held s) (hs : Same s s') : Held s' := by
  refine ⟨h.toLocks.same hs, ?_, ?_⟩
  · rw [hs.lockCount, hs.locks]
    exact h.count
  · rw [hs.freed, hs.listed, hs.locks, hs.openCount, hs.slaveOpenCount]
    exact h.freed

theorem Left.same (h : Left s) (hs : Same s s') : Left s' := by
  refine ⟨h.toLocks.same hs, ?_, ?_⟩
  · rw [hs.lockCount, hs.locks]
    exact h.count
  · rw [hs.freed, hs.listed]
    exact h.freed

theorem join_locks : (t.join p).locks = (p.cats, p.role) :: t.locks := rfl

/-- `shead_timer_func` counts at least the holders. -/
theorem Locks.held_le_card (h : Locks s) (hq : s.Quiet) : s.held ≤ s.lockMask.card := by
  have hunion : ∀ locks : List (Finset Cat × Role),
      locks.Pairwise (fun l l' => l.2 ≠ .waiter → l'.2 ≠ .waiter → Disjoint l.1 l'.1) →
      (∀ l ∈ locks, l.1 ≠ ∅) → (∀ l ∈ locks, l.2 ≠ Role.acquiring) →
      ∃ mask : Finset Cat, (∀ c, c ∈ mask ↔ ∃ l ∈ locks, l.2 = .holder ∧ c ∈ l.1) ∧
        locks.countP (fun l => decide (l.2 ≠ .waiter)) ≤ mask.card := by
    intro locks
    induction locks with
    | nil => exact fun _ _ _ => ⟨∅, by simp, le_rfl⟩
    | cons l locks ih =>
      intro hdisjoint hcats hquiet
      obtain ⟨hfirst, hrest⟩ := List.pairwise_cons.mp hdisjoint
      obtain ⟨mask, hmask, hle⟩ := ih hrest (fun l' hl' => hcats l' (List.mem_cons_of_mem l hl'))
        fun l' hl' => hquiet l' (List.mem_cons_of_mem l hl')
      by_cases hrole : l.2 = .waiter
      · refine ⟨mask, fun c => ?_, ?_⟩
        · rw [hmask]
          simp [hrole]
        · rw [List.countP_cons_of_neg (by simp [hrole])]
          exact hle
      · have hholder : l.2 = .holder := by
          have := hquiet l List.mem_cons_self
          cases hl : l.2 with
          | waiter => exact absurd hl hrole
          | acquiring => exact absurd hl this
          | holder => rfl
        have hdis : Disjoint l.1 mask := by
          rw [Finset.disjoint_left]
          intro c hc hcm
          obtain ⟨l', hl', hrole', hc'⟩ := (hmask c).mp hcm
          exact Finset.disjoint_left.mp
            (hfirst l' hl' hrole (by rw [hrole']; exact Role.noConfusion)) hc hc'
        refine ⟨l.1 ∪ mask, fun c => ?_, ?_⟩
        · rw [Finset.mem_union, hmask]
          simp [hholder]
        · rw [List.countP_cons_of_pos (by simp [hrole]), Finset.card_union_of_disjoint hdis]
          have := Finset.card_pos.mpr
            (Finset.nonempty_iff_ne_empty.mpr (hcats l List.mem_cons_self))
          omega
  obtain ⟨mask, hmask, hle⟩ := hunion s.locks h.disjoint h.cats hq
  have heq : s.lockMask = mask := by
    ext c
    rw [h.mask, hmask]
  rw [heq]
  exact hle

/-! ### A participant comes and goes -/

/-- A process is counted that is not a participant yet. -/
theorem Held.arrive (h : Held s) (hopen : s.IsOpen ∨ s.listed = true) :
    Left { s with lockCount := s.lockCount + 1 } := by
  refine ⟨⟨h.mask, h.disjoint, h.cats, h.opens⟩, ?_, ?_⟩
  · show s.lockCount + 1 = (s.locks.length : ℤ) + 1
    rw [h.count]
  · obtain hfreed | ⟨-, hlisted, -, hopens, hslave⟩ := h.freed
    · exact hfreed
    · obtain (hpos | ⟨-, hpos⟩) | htrue := hopen
      · omega
      · omega
      · rw [hlisted] at htrue
        cases htrue

/-- A process that waits has been taken out. -/
theorem Held.takeWaiter (h : Held (t.join p)) (hrole : p.role = .waiter) : Left t := by
  refine ⟨⟨fun c => ?_, (List.pairwise_cons.mp h.disjoint).2,
    fun l hl => h.cats l (List.mem_cons_of_mem _ hl), h.opens⟩, ?_, ?_⟩
  · have hmask := h.mask c
    rw [join_locks] at hmask
    simp only [List.mem_cons, exists_eq_or_imp, hrole, reduceCtorEq, false_and, false_or] at hmask
    exact hmask
  · rw [show t.lockCount = (t.join p).lockCount from rfl, h.count, join_locks, List.length_cons]
    rfl
  · obtain hfreed | ⟨-, -, hnil, -⟩ := h.freed
    · exact hfreed
    · rw [join_locks] at hnil
      cases hnil

/-- A holder has been taken out, and its bits have been cleared. -/
theorem Held.takeHolder (h : Held (t.join p)) (hrole : p.role = .holder) :
    Left { t with lockMask := t.lockMask \ p.cats } := by
  obtain ⟨hfirst, hrest⟩ := List.pairwise_cons.mp h.disjoint
  refine ⟨⟨fun c => ?_, hrest, fun l hl => h.cats l (List.mem_cons_of_mem _ hl), h.opens⟩, ?_, ?_⟩
  · have hmask := h.mask c
    rw [join_locks] at hmask
    simp only [List.mem_cons, exists_eq_or_imp, hrole, true_and] at hmask
    show c ∈ t.lockMask \ p.cats ↔ _
    rw [Finset.mem_sdiff, show t.lockMask = (t.join p).lockMask from rfl, hmask]
    constructor
    · rintro ⟨hc | hex, hnot⟩
      · exact absurd hc hnot
      · exact hex
    · rintro ⟨l, hl, hl2, hc⟩
      refine ⟨Or.inr ⟨l, hl, hl2, hc⟩, fun hcp => ?_⟩
      have hne : p.role ≠ .waiter := by
        rw [hrole]
        exact Role.noConfusion
      have hdis := hfirst l hl hne (by rw [hl2]; exact Role.noConfusion)
      exact Finset.disjoint_left.mp hdis hcp hc
  · show t.lockCount = (t.locks.length : ℤ) + 1
    rw [show t.lockCount = (t.join p).lockCount from rfl, h.count, join_locks, List.length_cons]
    rfl
  · obtain hfreed | ⟨-, -, hnil, -⟩ := h.freed
    · exact hfreed
    · rw [join_locks] at hnil
      cases hnil

/-- It waits. -/
theorem Left.wait (h : Left s) {p : Proc} (hrole : p.role = .waiter) (hcats : p.cats ≠ ∅) :
    Held (s.join p) := by
  refine ⟨⟨fun c => ?_, List.pairwise_cons.mpr ⟨fun l _ hr => absurd hrole hr, h.disjoint⟩,
    fun l hl => ?_, h.opens⟩, ?_, Or.inl h.freed⟩
  · rw [join_locks]
    simp only [List.mem_cons, exists_eq_or_imp, hrole, reduceCtorEq, false_and, false_or]
    exact h.mask c
  · obtain rfl | hl := List.mem_cons.mp hl
    · exact hcats
    · exact h.cats l hl
  · rw [join_locks, List.length_cons]
    exact h.count

/-- It takes its locks, which nobody has. -/
theorem Left.acquire (h : Left s) (hq : s.Quiet) {p : Proc} (hrole : p.role = .acquiring)
    (hcats : p.cats ≠ ∅) (hfree : Disjoint s.lockMask p.cats) : Held (s.join p) := by
  refine ⟨⟨fun c => ?_, List.pairwise_cons.mpr ⟨fun l hl _ hrole' => ?_, h.disjoint⟩,
    fun l hl => ?_, h.opens⟩, ?_, Or.inl h.freed⟩
  · rw [join_locks]
    simp only [List.mem_cons, exists_eq_or_imp, hrole, reduceCtorEq, false_and, false_or]
    exact h.mask c
  · have hholder : l.2 = .holder := by
      have := hq l hl
      cases hl2 : l.2 with
      | waiter => exact absurd hl2 hrole'
      | acquiring => exact absurd hl2 this
      | holder => rfl
    rw [Finset.disjoint_right]
    intro c hc hcp
    exact Finset.disjoint_left.mp hfree ((h.mask c).mpr ⟨l, hl, hholder, hc⟩) hcp
  · obtain rfl | hl := List.mem_cons.mp hl
    · exact hcats
    · exact h.cats l hl
  · rw [join_locks, List.length_cons]
    exact h.count

/-- When the last participant has gone, both ends of a pipe are open, or none is. -/
def State.PipeOk (s : State) : Prop :=
  s.locks = [] → s.isPipe = true → (s.openCount = 0 ↔ s.slaveOpenCount = 0)

/-- **It goes.**  The stream head is freed with the last participant, when it is not open. -/
theorem Left.unreference (h : Left s) (hpipe : s.PipeOk) : Held s.unreference ∧
    s.unreference.locks = s.locks ∧ s.unreference.timeCount = s.timeCount ∧
    s.unreference.lockCount = s.lockCount - 1 := by
  have hcount := h.count
  unfold State.unreference
  dsimp only
  split
  case isTrue hmany =>
    refine ⟨⟨⟨h.mask, h.disjoint, h.cats, h.opens⟩, ?_, Or.inl h.freed⟩, rfl, rfl, rfl⟩
    show s.lockCount - 1 = (s.locks.length : ℤ)
    omega
  case isFalse =>
    split
    case isTrue hlast =>
      obtain ⟨hzero, hclosed⟩ := hlast
      have hnil : s.locks = [] := List.length_eq_zero_iff.mp (by omega)
      have hopens := h.opens
      have hboth : s.openCount = 0 ∧ s.slaveOpenCount = 0 := by
        cases hp : s.isPipe with
        | false =>
          rw [hp] at hclosed hopens
          exact ⟨hclosed.resolve_right fun hc => Bool.noConfusion hc.1, hopens.2.2 rfl⟩
        | true =>
          have hiff := hpipe hnil hp
          obtain hopen | ⟨-, hslave⟩ := hclosed
          · exact ⟨hopen, hiff.mp hopen⟩
          · exact ⟨hiff.mpr hslave, hslave⟩
      refine ⟨⟨⟨h.mask, h.disjoint, h.cats, h.opens⟩, ?_, Or.inr ⟨?_, rfl, hnil, hboth⟩⟩, rfl, rfl,
        rfl⟩
      · show s.lockCount - 1 = (s.locks.length : ℤ)
        omega
      · show s.freed + 1 = 1
        rw [h.freed.1]
    case isFalse =>
      refine ⟨⟨⟨h.mask, h.disjoint, h.cats, h.opens⟩, ?_, Or.inl h.freed⟩, rfl, rfl, rfl⟩
      show s.lockCount - 1 = (s.locks.length : ℤ)
      omega

/-! ### Steps -/

/-- The counts are right between the steps. -/
structure Inv (s : State) : Prop extends Held s where
  ge : (s.held : ℤ) ≤ s.timeCount
  le : s.timeCount ≤ s.lockCount

theorem take_cases (ht : s.take i = some (p, t)) :
    t = { s with procs := s.procs.eraseIdx i } ∧ s.procs.Perm (p :: s.procs.eraseIdx i) := by
  obtain ⟨q, hq, heq⟩ := Option.map_eq_some_iff.mp ht
  obtain ⟨rfl, rfl⟩ := Prod.mk.inj heq
  obtain ⟨hi, rfl⟩ := List.getElem?_eq_some_iff.mp hq
  exact ⟨rfl, (List.getElem_cons_eraseIdx_perm hi).symm⟩

/-- The order of the participants does not matter. -/
theorem Inv.take (h : Inv s) (ht : s.take i = some (p, t)) : Inv (t.join p) := by
  obtain ⟨rfl, hperm⟩ := take_cases ht
  have hlocks : s.locks.Perm ((p.cats, p.role) :: (s.procs.eraseIdx i).map fun p =>
      (p.cats, p.role)) := hperm.map fun q : Proc => (q.cats, q.role)
  refine ⟨⟨⟨fun c => ?_, ?_, fun l hl => h.cats l (hlocks.mem_iff.mpr hl), h.opens⟩, ?_, ?_⟩, ?_,
    h.le⟩
  · exact (h.mask c).trans (exists_congr fun l => and_congr_left fun _ => hlocks.mem_iff)
  · refine (hlocks.pairwise_iff fun hdis hr hr' => ?_).mp h.disjoint
    exact (hdis hr' hr).symm
  · rw [join_locks]
    show s.lockCount = _
    rw [h.count, hlocks.length_eq]
    rfl
  · refine h.freed.imp_right ?_
    rintro ⟨hfreed, hlisted, hnil, hopens⟩
    rw [hnil] at hlocks
    exact absurd hlocks.symm.eq_nil (List.cons_ne_nil _ _)
  · have hheld : State.held ({ s with procs := s.procs.eraseIdx i }.join p) = s.held :=
      (hlocks.countP_eq _).symm
    rw [hheld]
    exact h.ge

theorem Quiet.take (hq : s.Quiet) (ht : s.take i = some (p, t)) : t.Quiet := by
  obtain ⟨rfl, -⟩ := take_cases ht
  intro l hl
  obtain ⟨q, hq', rfl⟩ := List.mem_map.mp hl
  exact hq _ (List.mem_map_of_mem (List.mem_of_mem_eraseIdx hq'))

/-- A process can give up: it is not counted as registered. -/
theorem Left.giveUp (h : Left s) (hge : (s.held : ℤ) ≤ s.timeCount)
    (hlt : s.timeCount < s.lockCount) (hpipe : s.PipeOk) : Inv (s.giveUp ok) := by
  obtain ⟨hheld, hlocks, htime, hcount⟩ := h.unreference hpipe
  unfold State.giveUp
  rw [if_neg (by omega)]
  show Inv s.unreference
  refine ⟨hheld, ?_, by omega⟩
  unfold State.held at hge ⊢
  rw [hlocks]
  omega

/-- A process can register: another one that is counted in the lock count has not; when it gets its
    locks, `ltimeout` does not fail; and when it gives up, it leaves another one that has not. -/
def AttemptOk (s : State) (p : Proc) (ok : Bool) : Prop :=
  s.timeCount < s.lockCount ∧
    if Disjoint s.lockMask p.cats then ok = true
    else (ok = true ∨ (s.lockMask.card : ℤ) < s.lockCount) ∧
      ∀ endTime, p.endTime = some endTime → Reached s.lbolt endTime →
        s.timeCount + 1 < s.lockCount

/-- **A turn of the loop**, for a process that is not counted as registered. -/
theorem Left.attempt (h : Left s) (hq : s.Quiet) (hge : (s.held : ℤ) ≤ s.timeCount)
    (hrole : p.role = .waiter) (hcats : p.cats ≠ ∅) (hok : AttemptOk s p ok) :
    Inv (s.attempt p ok).1 := by
  obtain ⟨hlt, hok⟩ := hok
  have hcard := h.toLocks.held_le_card hq
  unfold State.attempt
  by_cases hfree : Disjoint s.lockMask p.cats
  · rw [if_pos hfree] at hok
    rw [if_pos hfree]
    obtain ⟨hsame, ⟨-, htime⟩ | ⟨hfail, -⟩⟩ := register_cases s ok
    · have hfree' : Disjoint (s.noTimeout ok).lockMask p.cats := by
        unfold State.noTimeout
        rw [hsame.lockMask]
        exact hfree
      refine ⟨(h.same hsame).acquire (hsame.quiet hq) rfl hcats hfree', ?_, ?_⟩
      · have hheld : ((s.noTimeout ok).join { p with role := .acquiring, asleep := false }).held =
            s.held + 1 := by
          rw [← hsame.held]
          unfold State.held
          rw [join_locks, List.countP_cons_of_pos (by simp)]
          rfl
        rw [hheld]
        show ((s.held + 1 : ℕ) : ℤ) ≤ (s.register ok).1.timeCount
        omega
      · show (s.register ok).1.timeCount ≤ (s.register ok).1.lockCount
        rw [htime, hsame.lockCount]
        omega
    · rw [hok] at hfail
      cases hfail
  · rw [if_neg hfree] at hok
    rw [if_neg hfree]
    obtain ⟨hmem, hgone⟩ := hok
    -- the process sleeps
    have hsleep {t : State} (hsame : Same s t) (htime : t.timeCount = s.timeCount + 1 ∨
        ok = false ∧ t.timeCount = s.lockMask.card) :
        Inv (t.join { p with asleep := true }) := by
      refine ⟨(h.same hsame).wait hrole hcats, ?_, ?_⟩
      · have hheld : (t.join { p with asleep := true }).held = s.held := by
          rw [← hsame.held]
          unfold State.held
          rw [join_locks, List.countP_cons_of_neg (by simp [hrole])]
        rw [hheld]
        show (s.held : ℤ) ≤ t.timeCount
        omega
      · show t.timeCount ≤ t.lockCount
        rw [hsame.lockCount]
        obtain htime | ⟨hfail, htime⟩ := htime
        · omega
        · obtain hok | hcard := hmem
          · rw [hok] at hfail
            cases hfail
          · omega
    cases hend : p.endTime with
    | none =>
      obtain ⟨hsame, ⟨-, htime⟩ | ⟨hfail, -, htime⟩⟩ := register_cases s ok
      · have := hsleep hsame (Or.inl htime)
        rw [hend] at this
        exact this
      · have := hsleep hsame (Or.inr ⟨hfail, htime⟩)
        rw [hend] at this
        exact this
    | some endTime =>
      obtain ⟨hsame, hcases⟩ := lockTimeout_cases s endTime ok
      have hpipe : (s.lockTimeout endTime ok).1.PipeOk := by
        intro hnil
        rw [hsame.locks] at hnil
        refine absurd (Finset.disjoint_left.mpr fun c hc _ => ?_) hfree
        obtain ⟨l, hl, -⟩ := (h.mask c).mp hc
        rw [hnil] at hl
        cases hl
      rcases hresult : s.lockTimeout endTime ok with ⟨t, result⟩
      rw [hresult] at hsame hcases hpipe
      simp only [hresult]
      have hge' : (t.held : ℤ) ≤ t.timeCount := by
        rw [hsame.held]
        obtain ⟨htime, -⟩ | ⟨-, -, htime⟩ := hcases
        · dsimp only at htime
          omega
        · dsimp only at htime
          omega
      cases result with
      | true =>
        obtain ⟨htime, -⟩ | ⟨-, hc, -⟩ := hcases
        · have := hsleep hsame (Or.inl htime)
          rw [hend] at this
          exact this
        · cases hc
      | false =>
        have hsame' : t.lockCount = s.lockCount := hsame.lockCount
        refine (h.same hsame).giveUp hge' ?_ hpipe
        obtain ⟨htime, hreached⟩ | ⟨hfail, -, htime⟩ := hcases
        · have := hgone endTime hend (hreached.mp rfl)
          dsimp only at htime ⊢
          omega
        · obtain hok | hcard := hmem
          · rw [hok] at hfail
            cases hfail
          · dsimp only at htime ⊢
            omega

/-- **An unlock** clears the bits of the process, and those that are left when nobody is counted. -/
theorem Inv.sleepUnlock (h : Inv (t.join p)) (hrole : p.role = .holder) (hpipe : t.PipeOk) :
    Inv (t.sleepUnlock p.cats) := by
  have hheld : (t.join p).held = t.held + 1 := by
    unfold State.held
    rw [join_locks, List.countP_cons_of_pos (by simp [hrole])]
  have hge := h.ge
  rw [hheld] at hge
  have hle := h.le
  have hleft := (h.takeHolder hrole).same (broadcast_same (s := { t with
    lockMask := t.lockMask \ p.cats }))
  -- the mask is cleared when it is already
  have hclear (htime : t.timeCount - 1 = 0) : t.lockMask \ p.cats = ∅ := by
    by_contra hne
    obtain ⟨c, hc⟩ := Finset.nonempty_iff_ne_empty.mpr hne
    obtain ⟨l, hl, hl2, -⟩ := (hleft.mask c).mp hc
    rw [broadcast_locks] at hl
    have hpos : 0 < t.held := List.countP_pos_iff.mpr ⟨l, hl, by simp [hl2]⟩
    have : t.timeCount = (t.join p).timeCount := rfl
    omega
  have hafter : ∃ s' : State, t.sleepUnlock p.cats = s'.unreference ∧ Left s' ∧
      s'.locks = t.locks ∧ s'.timeCount = t.timeCount - 1 ∧ s'.lockCount = t.lockCount ∧
      s'.PipeOk := by
    unfold State.sleepUnlock
    dsimp only
    split
    case isTrue hnone =>
      refine ⟨_, rfl, hleft.same ⟨rfl, rfl, rfl, rfl, ?_, rfl, rfl, rfl⟩, broadcast_locks, rfl, rfl,
        fun hnil => hpipe (broadcast_locks.symm.trans hnil)⟩
      exact (hclear hnone.1).symm
    case isFalse =>
      exact ⟨_, rfl, hleft.same ⟨rfl, rfl, rfl, rfl, rfl, rfl, rfl, rfl⟩, broadcast_locks, rfl, rfl,
        fun hnil => hpipe (broadcast_locks.symm.trans hnil)⟩
  obtain ⟨s', heq, hs', hlocks, htime, hcount, hpipe'⟩ := hafter
  obtain ⟨hend, hlocks', htime', hcount'⟩ := hs'.unreference hpipe'
  rw [heq]
  refine ⟨hend, ?_, ?_⟩
  · rw [htime', htime]
    unfold State.held
    rw [hlocks', hlocks]
    have : t.timeCount = (t.join p).timeCount := rfl
    show (t.held : ℤ) ≤ t.timeCount - 1
    omega
  · have : t.timeCount = (t.join p).timeCount := rfl
    have : t.lockCount = (t.join p).lockCount := rfl
    omega

/-- The bits of a lock are set. -/
theorem Inv.mark (h : Inv (t.join p)) (hrole : p.role = .acquiring) :
    Inv ({ t with lockMask := t.lockMask ∪ p.cats }.join { p with role := .holder }) := by
  obtain ⟨hfirst, hrest⟩ := List.pairwise_cons.mp h.disjoint
  have hne : p.role ≠ .waiter := by
    rw [hrole]
    exact Role.noConfusion
  refine ⟨⟨⟨fun c => ?_, List.pairwise_cons.mpr ⟨fun l hl _ => hfirst l hl hne, hrest⟩,
    fun l hl => ?_, h.opens⟩, h.count, ?_⟩, ?_, h.le⟩
  · have hmask : c ∈ t.lockMask ↔ ∃ l ∈ t.locks, l.2 = .holder ∧ c ∈ l.1 := by
      have := h.mask c
      rw [join_locks] at this
      simp only [List.mem_cons, exists_eq_or_imp, hrole, reduceCtorEq, false_and, false_or] at this
      exact this
    show c ∈ t.lockMask ∪ p.cats ↔ ∃ l ∈ (p.cats, Role.holder) :: t.locks, _
    rw [Finset.mem_union, hmask]
    simp only [List.mem_cons, exists_eq_or_imp, true_and]
    exact or_comm
  · obtain rfl | hl := List.mem_cons.mp hl
    · exact h.cats (p.cats, p.role) List.mem_cons_self
    · exact h.cats l (List.mem_cons_of_mem _ hl)
  · refine h.freed.imp_right ?_
    rintro ⟨-, -, hnil, -⟩
    cases hnil
  · have hheld : (State.join { t with lockMask := t.lockMask ∪ p.cats }
        { p with role := .holder }).held = (t.join p).held := by
      unfold State.held
      rw [join_locks, join_locks, List.countP_cons_of_pos (by simp),
        List.countP_cons_of_pos (by simp [hne])]
      rfl
    rw [hheld]
    exact h.ge

/-- What the functions of the timer do keeps the invariant when the count of the timeouts stays in
    its bounds. -/
theorem Inv.same (h : Inv s) (hs : Same s s') (hge : (s.held : ℤ) ≤ s'.timeCount)
    (hle : s'.timeCount ≤ s.lockCount) : Inv s' := by
  refine ⟨h.toHeld.same hs, ?_, ?_⟩
  · rw [hs.held]
    exact hge
  · rw [hs.lockCount]
    exact hle

/-- The stream is opened or closed by a participant. -/
theorem Inv.addOpen (h : Inv (t.join p)) {slave : Bool} {n : ℤ} (hn : 0 ≤ t.opens slave + n)
    (hslave : slave = true → t.isPipe = true) : Inv ((t.join p).addOpen slave n) := by
  have hfreed := h.freed.resolve_right fun hc => by cases hc.2.2.1
  have hopens := h.opens
  unfold State.addOpen
  unfold State.opens at hn
  cases slave with
  | false =>
    exact ⟨⟨⟨h.mask, h.disjoint, h.cats, hn, hopens.2⟩, h.count, Or.inl hfreed⟩, h.ge, h.le⟩
  | true =>
    refine ⟨⟨⟨h.mask, h.disjoint, h.cats, hopens.1, hn, fun hc => ?_⟩, h.count, Or.inl hfreed⟩,
      h.ge,
      h.le⟩
    cases (hslave rfl).symm.trans hc

/-- A turn of a process that has been woken: when it gives up, it is not counted as registered. -/
def TurnOk (s : State) (p : Proc) (ok : Bool) : Prop :=
  if s.dev ≠ p.devno then s.timeCount < s.lockCount ∧ s.PipeOk else AttemptOk s p ok

/-- The steps that keep the counts right.  Nothing is done to the stream head while a process is
    about to set its bits; a process registers, or gives up, when it is not counted as registered;
    the timer does not find more bits than participants; and the last participant of a pipe goes
    when both ends are open or none is. -/
def Ok (s : State) (e : Event) : Prop :=
  match e with
  | .lock cats timeout interruptible ok => s.Quiet ∧ (s.Unlocked cats ∨
      AttemptOk { s with lockCount := s.lockCount + 1 } (s.newProc cats timeout interruptible) ok)
  | .openLock ok => s.Quiet ∧
      AttemptOk { s with lockCount := s.lockCount + 1 } (s.newProc {.openclose} 0 true) ok
  | .run i ok => s.Quiet ∧ ∀ p t, s.take i = some (p, t) → TurnOk t p ok
  | .interrupt i _ => s.Quiet ∧
      ∀ p t, s.take i = some (p, t) → t.timeCount < t.lockCount ∧ t.PipeOk
  | .unlock i => s.Quiet ∧ ∀ p t, s.take i = some (p, t) → t.PipeOk
  | .expire => s.Quiet ∧ (s.lockMask.card : ℤ) ≤ s.lockCount
  | .lockedTimeout _ _ ok => s.Quiet ∧ (ok = true ∨ (s.lockMask.card : ℤ) ≤ s.lockCount)
  | .mark _ | .tick => True
  | .wake | .opened _ _ | .closed _ _ | .rename _ _ => s.Quiet

theorem Inv.sleepLocked (h : Inv s) (hq : s.Quiet) (hopen : s.IsOpen ∨ s.listed = true)
    {cats : Finset Cat} {timeout : Clock} {interruptible : Bool} (hcats : cats ≠ ∅)
    (hok : AttemptOk { s with lockCount := s.lockCount + 1 }
      (s.newProc cats timeout interruptible) ok) :
    Inv (s.sleepLocked cats timeout interruptible ok).1 :=
  (h.arrive hopen).attempt hq h.ge rfl hcats hok

/-- **Every step** keeps the invariant. -/
theorem Inv.step (h : Inv s) (hok : Ok s e) (hs : step s e = some s') : Inv s' := by
  cases e with
  | lock cats timeout interruptible ok =>
    obtain ⟨⟨hopen, hcats⟩, hs⟩ := Option.ite_none_right_eq_some.mp hs
    obtain ⟨hq, hok⟩ := hok
    by_cases hun : s.Unlocked cats
    · rw [if_pos hun] at hs
      cases hs
      exact h
    · rw [if_neg hun] at hs
      cases hs
      exact h.sleepLocked hq (Or.inl hopen) hcats (hok.resolve_left hun)
  | openLock ok =>
    obtain ⟨⟨hlisted, -⟩, ⟨⟩⟩ := Option.ite_none_right_eq_some.mp hs
    exact h.sleepLocked hok.1 (Or.inr hlisted) (Finset.singleton_ne_empty _) hok.2
  | mark i =>
    obtain ⟨⟨p, t⟩, ht, hs⟩ := Option.bind_eq_some_iff.mp hs
    obtain ⟨hrole, ⟨⟩⟩ := Option.ite_none_right_eq_some.mp hs
    exact (h.take ht).mark hrole
  | run i ok =>
    obtain ⟨⟨p, t⟩, ht, hs⟩ := Option.bind_eq_some_iff.mp hs
    obtain ⟨⟨hrole, -⟩, ⟨⟩⟩ := Option.ite_none_right_eq_some.mp hs
    have hinv := h.take ht
    have hleft : Left t := hinv.takeWaiter hrole
    have hge : (t.held : ℤ) ≤ t.timeCount := by
      have hheld : (t.join p).held = t.held := by
        unfold State.held
        rw [join_locks, List.countP_cons_of_neg (by simp [hrole])]
      exact hheld ▸ hinv.ge
    have hturn := hok.2 p t ht
    unfold TurnOk at hturn
    unfold State.turn
    by_cases hdev : t.dev ≠ p.devno
    · rw [if_pos hdev] at hturn ⊢
      exact hleft.giveUp hge hturn.1 hturn.2
    · rw [if_neg hdev] at hturn ⊢
      exact hleft.attempt (Quiet.take hok.1 ht) hge hrole
        (hinv.cats (p.cats, p.role) List.mem_cons_self) hturn
  | interrupt i ok =>
    obtain ⟨⟨p, t⟩, ht, hs⟩ := Option.bind_eq_some_iff.mp hs
    obtain ⟨⟨hrole, -⟩, ⟨⟩⟩ := Option.ite_none_right_eq_some.mp hs
    have hinv := h.take ht
    have hge : (t.held : ℤ) ≤ t.timeCount := by
      have hheld : (t.join p).held = t.held := by
        unfold State.held
        rw [join_locks, List.countP_cons_of_neg (by simp [hrole])]
      exact hheld ▸ hinv.ge
    obtain ⟨hlt, hpipe⟩ := hok.2 p t ht
    exact (hinv.takeWaiter hrole).giveUp hge hlt hpipe
  | unlock i =>
    obtain ⟨⟨p, t⟩, ht, hs⟩ := Option.bind_eq_some_iff.mp hs
    obtain ⟨⟨hrole, -⟩, ⟨⟩⟩ := Option.ite_none_right_eq_some.mp hs
    exact (h.take ht).sleepUnlock hrole (hok.2 p t ht)
  | wake =>
    cases hs
    exact h.same broadcast_same h.ge h.le
  | tick =>
    cases hs
    exact h.same ⟨rfl, rfl, rfl, rfl, rfl, rfl, rfl, rfl⟩ h.ge h.le
  | expire =>
    unfold Shead.step at hs
    dsimp only at hs
    split at hs
    · cases hs
    · obtain ⟨-, ⟨⟩⟩ := Option.ite_none_right_eq_some.mp hs
      refine h.same timerFunc_same ?_ hok.2
      show (s.held : ℤ) ≤ (s.lockMask.card : ℤ)
      exact_mod_cast h.toLocks.held_le_card hok.1
  | lockedTimeout i endTime ok =>
    obtain ⟨⟨p, t⟩, ht, hs⟩ := Option.bind_eq_some_iff.mp hs
    obtain ⟨⟨hrole, -⟩, ⟨⟩⟩ := Option.ite_none_right_eq_some.mp hs
    have hinv := h.take ht
    have hq : (t.join p).Quiet := by
      intro l hl
      obtain rfl | hl := List.mem_cons.mp hl
      · show p.role ≠ .acquiring
        rw [hrole]
        exact Role.noConfusion
      · exact Quiet.take hok.1 ht l hl
    have hcard := hinv.toLocks.held_le_card hq
    obtain ⟨hsame, hcases⟩ := lockTimeout_cases { t with timeCount := t.timeCount - 1 }
      endTime ok
    have hge := hinv.ge
    have hle := hinv.le
    have htime : (t.join p).timeCount = t.timeCount := rfl
    have hcount : (t.join p).lockCount = s.lockCount := by rw [(take_cases ht).1]; rfl
    have hmask : (t.join p).lockMask = s.lockMask := by rw [(take_cases ht).1]; rfl
    refine hinv.same ⟨congrArg (List.cons _) hsame.locks, hsame.2, hsame.3, hsame.4, hsame.5,
      hsame.6, hsame.7,
      hsame.8⟩ ?_ ?_
    · show _ ≤ (State.lockTimeout { t with timeCount := t.timeCount - 1 } endTime ok).1.timeCount
      obtain ⟨hc, -⟩ | ⟨-, -, hc⟩ := hcases
      · rw [hc]
        show _ ≤ t.timeCount - 1 + 1
        omega
      · rw [hc]
        exact_mod_cast hcard
    · show (State.lockTimeout { t with timeCount := t.timeCount - 1 } endTime ok).1.timeCount ≤ _
      obtain ⟨hc, -⟩ | ⟨hfail, -, hc⟩ := hcases
      · rw [hc]
        show t.timeCount - 1 + 1 ≤ _
        omega
      · obtain htrue | hle' := hok.2
        · rw [htrue] at hfail
          cases hfail
        · rw [hc, hcount, ← hmask] at *
          exact hle'
  | opened i slave =>
    obtain ⟨⟨p, t⟩, ht, hs⟩ := Option.bind_eq_some_iff.mp hs
    obtain ⟨⟨-, -, hslave⟩, ⟨⟩⟩ := Option.ite_none_right_eq_some.mp hs
    obtain ⟨rfl, -⟩ := take_cases ht
    refine (h.take ht).addOpen ?_ hslave
    have := h.opens
    unfold State.opens
    cases slave with
    | false =>
      show 0 ≤ s.openCount + 1
      omega
    | true =>
      show 0 ≤ s.slaveOpenCount + 1
      omega
  | closed i slave =>
    obtain ⟨⟨p, t⟩, ht, hs⟩ := Option.bind_eq_some_iff.mp hs
    obtain ⟨⟨-, -, hpos⟩, ⟨⟩⟩ := Option.ite_none_right_eq_some.mp hs
    obtain ⟨rfl, -⟩ := take_cases ht
    refine (h.take ht).addOpen (by unfold State.opens at hpos ⊢; dsimp only; omega) ?_
    rintro rfl
    show s.isPipe = true
    by_contra hpipe
    have hzero := h.opens.2.2 (Bool.eq_false_iff.mpr hpipe)
    unfold State.opens at hpos
    rw [if_pos rfl, hzero] at hpos
    exact absurd hpos (lt_irrefl 0)
  | rename i dev =>
    obtain ⟨⟨p, t⟩, ht, hs⟩ := Option.bind_eq_some_iff.mp hs
    obtain ⟨-, ⟨⟩⟩ := Option.ite_none_right_eq_some.mp hs
    have hinv := h.take ht
    exact hinv.same ⟨rfl, rfl, rfl, rfl, rfl, rfl, rfl, rfl⟩ hinv.ge hinv.le

/-! ### What is promised -/

/-- What is promised of the locks of a stream head. -/
structure Sound (s : State) : Prop where
  /-- A category is held by one participant at most. -/
  exclusive : s.procs.Pairwise fun p q =>
    p.role = .holder → q.role = .holder → Disjoint p.cats q.cats
  /-- The mask has the bits of all holders: none has been released with those of another. -/
  mask : ∀ c, c ∈ s.lockMask ↔ ∃ p ∈ s.procs, p.role = .holder ∧ c ∈ p.cats
  /-- The lock count is that of the participants. -/
  count : s.lockCount = s.procs.length
  /-- The count of the timeouts does not exceed it. -/
  times : s.timeCount ≤ s.lockCount
  /-- The stream head is removed from the directory when it is freed, which happens once. -/
  once : s.freed = 0 ∧ s.listed = true ∨ s.freed = 1 ∧ s.listed = false
  /-- No open and no participant refers to a stream head that has been freed. -/
  unused : s.freed = 1 → s.procs = [] ∧ ¬s.IsOpen

theorem Inv.initial (h : Initial s) : Inv s := by
  obtain ⟨-, -, -, hlisted, hfreed, ⟨hpipe, hopen, hslave, hmask, hcount, htime, hprocs⟩ |
    ⟨hpipe, hopen, hslave, hmask, hcount, htime, hprocs⟩⟩ := h
  · have hlocks : s.locks = [({.openclose}, .holder)] := by
      unfold State.locks
      rw [hprocs]
      rfl
    refine ⟨⟨⟨fun c => ?_, ?_, ?_, ?_⟩, ?_, Or.inl ⟨hfreed, hlisted⟩⟩, ?_, ?_⟩
    · rw [hmask, hlocks]
      simp
    · rw [hlocks]
      exact List.pairwise_singleton _ _
    · rw [hlocks]
      simp
    · rw [hopen, hslave]
      exact ⟨le_rfl, le_rfl, fun _ => rfl⟩
    · rw [hcount, hlocks]
      rfl
    · unfold State.held
      rw [htime, hlocks]
      decide
    · rw [htime, hcount]
  · have hlocks : s.locks = [] := by
      unfold State.locks
      rw [hprocs]
      rfl
    refine ⟨⟨⟨fun c => ?_, ?_, ?_, ?_⟩, ?_, Or.inl ⟨hfreed, hlisted⟩⟩, ?_, ?_⟩
    · rw [hmask, hlocks]
      simp
    · rw [hlocks]
      exact List.Pairwise.nil
    · rw [hlocks]
      simp
    · rw [hopen, hslave, hpipe]
      exact ⟨zero_le_one, zero_le_one, fun hc => Bool.noConfusion hc⟩
    · rw [hcount, hlocks]
      rfl
    · unfold State.held
      rw [htime, hlocks]
      rfl
    · rw [htime, hcount]

/-- **Locks of a stream head** are exclusive, and counted, in the runs whose steps keep the counts
    right. -/
theorem locks_sound (h : Reach Initial step Ok s) : Sound s := by
  have hinv : Inv s := h.invariant (fun _ => Inv.initial) fun _ _ _ h hok hs => h.step hok hs
  refine ⟨?_, fun c => ?_, ?_, hinv.le, ?_, fun hfreed => ?_⟩
  · refine (List.pairwise_map.mp hinv.disjoint).imp fun h hr hr' => h ?_ ?_
    · dsimp only
      rw [hr]
      exact Role.noConfusion
    · dsimp only
      rw [hr']
      exact Role.noConfusion
  · rw [hinv.mask]
    unfold State.locks
    simp only [List.mem_map, exists_exists_and_eq_and]
  · rw [hinv.count]
    unfold State.locks
    rw [List.length_map]
  · exact hinv.freed.imp_right fun hc => ⟨hc.1, hc.2.1⟩
  · obtain ⟨hzero, -⟩ | ⟨-, -, hnil, hopen, hslave⟩ := hinv.freed
    · omega
    · refine ⟨List.map_eq_nil_iff.mp hnil, ?_⟩
      unfold State.IsOpen
      rw [hopen, hslave]
      rintro (hc | ⟨-, hc⟩) <;> exact absurd hc (lt_irrefl 0)

/-- A stream head that has just been made. -/
def start : State where
  isPipe := false
  rwLocking := false
  dev := 1
  openCount := 0
  slaveOpenCount := 0
  lockMask := {.openclose}
  timeFlag := false
  lockCount := 1
  timeCount := 1
  timeoutTick := 0
  timeoutId := none
  lbolt := 100
  listed := true
  freed := 0
  procs := [opener 1]

theorem start_initial : Initial start :=
  ⟨rfl, rfl, rfl, rfl, rfl, Or.inl ⟨rfl, rfl, rfl, rfl, rfl, rfl, rfl⟩⟩

/-- The stream is open, and its opener has the lock that another process waits for. -/
def contended : State :=
  { start with
    openCount := 1
    lockCount := 2
    timeCount := 2
    procs := [⟨{.openclose}, .waiter, true, none, 1, true⟩, opener 1] }

/-- One process has the lock, and one waits. -/
theorem locks_sound_contended : contended.procs.length = 2 ∧ Sound contended := by
  have hquiet : start.Quiet := by
    unfold State.Quiet
    decide
  have hopened : Reach Initial step Ok { start with openCount := 1 } :=
    (Reach.init start_initial).step (e := .opened 0 false) hquiet rfl
  refine ⟨rfl, locks_sound (hopened.step (e := .lock {.openclose} 0 true true) ?_ (by rfl))⟩
  refine ⟨hquiet, Or.inr ⟨by decide, ?_⟩⟩
  rw [if_neg (by decide)]
  exact ⟨Or.inl rfl, fun _ hc => by cases hc⟩

/-- **A handover** counts the new holder twice: it has registered before it slept, and it does again
    when it takes the lock. -/
theorem handover_counts : ∃ s : State, Reach Initial step (fun _ _ => True) s ∧ ¬Sound s := by
  have hrun : (runFrom step start [.opened 0 false, .lock {.openclose} 0 true true, .unlock 1,
      .run 0 true]).any fun s => decide (s.lockCount < s.timeCount) := by
    decide +kernel
  obtain ⟨s, hs, h⟩ := (Option.any_eq_true _ _).mp hrun
  refine ⟨s, Reach.run (fun _ _ => trivial) (Reach.init start_initial) hs, fun hsound => ?_⟩
  exact absurd hsound.times (not_le.mpr (of_decide_eq_true h))

end CohKernel.Shead
