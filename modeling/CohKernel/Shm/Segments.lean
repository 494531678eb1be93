import CohKernel.Shm.Defs

namespace CohKernel.Shm

open CohKernel.Lib CohKernel.Ipc
open CohKernel.Mmu (NBPC btocru btocrd ctob)

/-!
# The segments and their attachments

The reference counts of a segment are one more than its attachments, and the entries of `shmids`
and `shmsegs` describe the segments that have not been removed.

* `Inv` — the invariant of the segments and the tables;
* `Inv.refer`, `Inv.detach` — a reference is made or dropped;
* `Inv.create`, `Inv.remove` — a segment is made, or removed.
-/

variable {P : Type} [Fintype P] [DecidableEq P] {t : Tune} {s : State P} {tb : Tables}
variable {pi : P × Fin NSHMSEG} {k n : ℕ}

/-! ### One segment -/

/-- What a segment with `n` attachments is like. -/
structure Seg.Counted (seg : Seg) (n : ℕ) : Prop where
  lt : n < 2 ^ 15 - 1
  urefc : seg.sUrefc.val = n + 1
  lrefc : seg.sLrefc.val = n + 1
  gone : seg.removed = true → n = 0 → seg.freed = 1
  held : seg.removed = false ∨ 0 < n → seg.freed = 0
  berm : seg.removed = true → 0 < n → seg.sFlags &&& SRFBERM ≠ 0
  keep : seg.removed = false → seg.sFlags &&& SRFBERM = 0

theorem short_of_lt {z : ℤ} (hlo : 0 ≤ z) (hhi : z < 2 ^ 15) : (short z).val = z := by
  rw [short_val]
  omega

theorem newSeg_counted (size : ℕ) : (newSeg size).Counted 0 where
  lt := by decide
  urefc := short_of_lt (by decide) (by decide)
  lrefc := short_of_lt (by decide) (by decide)
  gone := fun hrm => by cases hrm
  held := fun _ => rfl
  berm := fun hrm => by cases hrm
  keep := fun _ => (by decide : SFCORE &&& SRFBERM = 0)

@[simp] theorem Seg.addRefs_removed (seg : Seg) (d : ℤ) : (seg.addRefs d).removed = seg.removed :=
  rfl

@[simp] theorem Seg.addRefs_freed (seg : Seg) (d : ℤ) : (seg.addRefs d).freed = seg.freed := rfl

@[simp] theorem Seg.shmFree_removed (seg : Seg) : seg.shmFree.removed = seg.removed := by
  unfold Seg.shmFree
  split <;> rfl

@[simp] theorem Seg.detach_removed (seg : Seg) : seg.detach.removed = seg.removed := by
  unfold Seg.detach
  simp only
  split
  · rw [Seg.shmFree_removed, Seg.addRefs_removed]
  · rfl

/-- A segment that has not been freed gets an attachment. -/
theorem Seg.Counted.add {seg : Seg} (h : seg.Counted n) (hkeep : seg.removed = true → 0 < n)
    (hlt : n + 1 < 2 ^ 15 - 1) : (seg.addRefs 1).Counted (n + 1) where
  lt := hlt
  urefc := by
    have := h.urefc
    simp only [Seg.addRefs]
    rw [short_of_lt (by omega) (by omega), this]
    push_cast
    rfl
  lrefc := by
    have := h.lrefc
    simp only [Seg.addRefs]
    rw [short_of_lt (by omega) (by omega), this]
    push_cast
    rfl
  gone := fun _ hn => absurd hn (Nat.succ_ne_zero n)
  held := fun _ => h.held ((Bool.eq_false_or_eq_true seg.removed).symm.imp_right hkeep)
  berm := fun hrm _ => h.berm hrm (hkeep hrm)
  keep := h.keep

/-- An attachment is dropped. -/
theorem Seg.Counted.detach {seg : Seg} (h : seg.Counted (n + 1)) : seg.detach.Counted n := by
  have hlt := h.lt
  have hu : (seg.addRefs (-1)).sUrefc.val = n + 1 := by
    have := h.urefc
    simp only [Seg.addRefs]
    rw [short_of_lt (by omega) (by omega), this]
    push_cast
    ring
  have hl : (seg.addRefs (-1)).sLrefc.val = n + 1 := by
    have := h.lrefc
    simp only [Seg.addRefs]
    rw [short_of_lt (by omega) (by omega), this]
    push_cast
    ring
  have hfreed : seg.freed = 0 := h.held (Or.inr n.succ_pos)
  have hdetach : seg.detach = if seg.sFlags &&& SRFBERM ≠ 0 ∧
      (seg.addRefs (-1)).sUrefc.val = 1 ∧ (seg.addRefs (-1)).sLrefc.val = 1 then
      (seg.addRefs (-1)).shmFree else seg.addRefs (-1) := rfl
  rw [hdetach]
  by_cases hlast : seg.sFlags &&& SRFBERM ≠ 0 ∧ (seg.addRefs (-1)).sUrefc.val = 1 ∧
      (seg.addRefs (-1)).sLrefc.val = 1
  · -- the last attachment of a segment that is to be removed
    rw [if_pos hlast]
    obtain ⟨hberm, hone, _⟩ := hlast
    have hn : n = 0 := by omega
    have hrm : seg.removed = true := by
      rw [← Bool.not_eq_false]
      exact fun hrm => hberm (h.keep hrm)
    have hfree : (seg.addRefs (-1)).shmFree =
        { seg.addRefs (-1) with freed := seg.freed + 1 } := by
      unfold Seg.shmFree
      rw [if_neg (by omega), Seg.addRefs_freed]
    rw [hfree]
    exact
      { lt := by omega
        urefc := hu
        lrefc := hl
        gone := fun _ _ => congrArg Nat.succ hfreed
        held := fun hheld => by
          rcases hheld with hfalse | hpos
          · exact absurd (hrm.symm.trans hfalse) (by decide)
          · omega
        berm := fun _ hpos => by omega
        keep := h.keep }
  · rw [if_neg hlast]
    exact
      { lt := by omega
        urefc := hu
        lrefc := hl
        gone := fun hrm hn =>
          absurd ⟨h.berm hrm n.succ_pos, by omega, by omega⟩ hlast
        held := fun _ => hfreed
        berm := fun hrm _ => h.berm hrm (by omega)
        keep := h.keep }

theorem or_berm (m : ℕ) : (m ||| SRFBERM) &&& SRFBERM ≠ 0 := by
  intro h
  have hberm : SRFBERM.testBit 4 = true := by decide
  have hbit := congrArg (Nat.testBit · 4) h
  simp [hberm] at hbit

/-- A segment is removed: it is freed if nothing has attached it. -/
theorem Seg.Counted.remove {seg : Seg} {nattch : Ushort} (h : seg.Counted n)
    (hrm : seg.removed = false) (hnattch : nattch > 0 ↔ 0 < n) : (seg.remove nattch).Counted n := by
  have hfreed : seg.freed = 0 := h.held (Or.inl hrm)
  have hu := h.urefc
  have hl := h.lrefc
  unfold Seg.remove
  split_ifs with hpos
  · have hn := hnattch.mp hpos
    exact
      { lt := h.lt
        urefc := hu
        lrefc := hl
        gone := fun _ hzero => by omega
        held := fun _ => hfreed
        berm := fun _ _ => or_berm _
        keep := fun hfalse => by cases hfalse }
  · have hn : n = 0 := Nat.eq_zero_of_not_pos fun hn => hpos (hnattch.mpr hn)
    have hfree : ({ seg with removed := true } : Seg).shmFree =
        { seg with removed := true, freed := seg.freed + 1 } := by
      unfold Seg.shmFree
      rw [if_neg (by simp only; omega)]
    rw [hfree]
    exact
      { lt := h.lt
        urefc := hu
        lrefc := hl
        gone := fun _ _ => congrArg Nat.succ hfreed
        held := fun hheld => by
          rcases hheld with hfalse | hpos
          · cases hfalse
          · omega
        berm := fun _ hpos => by omega
        keep := fun hfalse => by cases hfalse }

/-- The count that `shmat` and `shmdt` store. -/
theorem Seg.Counted.nattch {seg : Seg} (h : seg.Counted n) : seg.nattch.val = n := by
  have hlt := h.lt
  have hval := ushort_val (seg.sUrefc.val - 1)
  rw [h.urefc] at hval
  unfold Seg.nattch
  rw [h.urefc]
  omega

/-! ### Attachments -/

/-- The reference is to the segment. -/
def Refers (k : ℕ) (sr : SR) : Bool := decide (sr.srSegp = some k)

theorem refers_iff {sr : SR} : Refers k sr = true ↔ sr.srSegp = some k := decide_eq_true_iff

theorem not_refers {sr : SR} (h : sr.srSegp ≠ some k) : ¬Refers k sr = true :=
  fun href => h (refers_iff.mp href)

theorem not_refers_none {sr : SR} (h : sr.srSegp = none) : ¬Refers k sr = true :=
  not_refers fun hk => by cases h.symm.trans hk

/-- The number of attachments of a segment. -/
def State.attached (s : State P) (k : ℕ) : ℕ := count (Refers k) s.shmsr

omit [DecidableEq P] in
theorem State.attached_pos (h : (s.shmsr pi).srSegp = some k) : 0 < s.attached k :=
  count_pos (refers_iff.mpr h)

theorem State.attached_refer_self {sr : SR} {m : Made} (hpi : (s.shmsr pi).srSegp = none)
    (hsr : sr.srSegp = some k) : (s.refer pi k sr m).attached k = s.attached k + 1 := by
  have hcount := count_update (Refers k) s.shmsr pi sr
  rw [if_neg (not_refers_none hpi), if_pos (refers_iff.mpr hsr)] at hcount
  exact hcount

theorem State.attached_refer_ne {sr : SR} {m : Made} {j : ℕ} (hpi : (s.shmsr pi).srSegp = none)
    (hsr : sr.srSegp = some k) (hj : j ≠ k) : (s.refer pi k sr m).attached j = s.attached j := by
  refine count_update_same ?_
  rw [Bool.eq_iff_iff]
  exact iff_of_false (not_refers_none hpi)
    (not_refers fun h => hj (Option.some_inj.mp (h.symm.trans hsr)))

/-- What `shmDetachP` does when there is a segment. -/
def State.drop (s : State P) (t : Tune) (pi : P × Fin NSHMSEG) (k : ℕ) : State P :=
  (s.unrefer t k).setSr pi SR.none

theorem State.attached_drop_self (hpi : (s.shmsr pi).srSegp = some k) :
    (s.drop t pi k).attached k + 1 = s.attached k := by
  have hcount := count_update (Refers k) s.shmsr pi SR.none
  rw [if_pos (refers_iff.mpr hpi), if_neg (not_refers_none rfl)] at hcount
  exact hcount

theorem State.attached_drop_ne {j : ℕ} (hpi : (s.shmsr pi).srSegp = some k) (hj : j ≠ k) :
    (s.drop t pi k).attached j = s.attached j := by
  refine count_update_same ?_
  have hne : (s.shmsr pi).srSegp ≠ some j := fun h => hj (Option.some_inj.mp (h.symm.trans hpi))
  rw [Bool.eq_iff_iff]
  exact iff_of_false (not_refers hne) (not_refers_none rfl)

/-! ### The invariant -/

/-- The entries describe the segments that have not been removed. -/
structure Tables.Sound (tb : Tables) (t : Tune) (s : State P) : Prop where
  free : ∀ i < t.SHMMNI, (tb.shmids i).alloc = false →
    (tb.shmids i).shmPerm.mode = 0 ∧ (tb.shmids i).shmPerm.seq = 0 ∧ tb.shmsegs i = none
  used : ∀ i < t.SHMMNI, (tb.shmids i).alloc = true →
    (tb.shmids i).shmPerm.seq = i ∧ ∃ k, tb.shmsegs i = some k
  known : ∀ i < t.SHMMNI, ∀ k, tb.shmsegs i = some k → k < s.nsegs ∧ (s.segs k).removed = false
  inj : ∀ i < t.SHMMNI, ∀ j < t.SHMMNI, ∀ k, tb.shmsegs i = some k → tb.shmsegs j = some k → i = j
  noted : ∀ i < t.SHMMNI, ∀ k, tb.shmsegs i = some k → 0 < s.attached k →
    (tb.shmids i).shmNattch > 0

/-- The segments are counted, and the tables describe them. -/
structure Inv (t : Tune) (s : State P) : Prop where
  counted : ∀ k < s.nsegs, (s.segs k).Counted (s.attached k)
  known : ∀ pi k, (s.shmsr pi).srSegp = some k → k < s.nsegs
  tables : ∀ tb, s.tables = some tb → tb.Sound t s
  dead : ∀ p i, s.live p = false → (s.shmsr (p, i)).srSegp = none

omit [DecidableEq P] in
/-- The segments change, but none that is listed is removed or attached without a note. -/
theorem Tables.Sound.congr {s' : State P} (h : tb.Sound t s) (hn : s.nsegs ≤ s'.nsegs)
    (hrm : ∀ k < s.nsegs, (s'.segs k).removed = (s.segs k).removed)
    (hatt : ∀ i < t.SHMMNI, ∀ k, tb.shmsegs i = some k → 0 < s'.attached k →
      0 < s.attached k ∨ (tb.shmids i).shmNattch > 0) : tb.Sound t s' where
  free := h.free
  used := h.used
  known := by
    intro i hi k hk
    obtain ⟨hlt, hfalse⟩ := h.known i hi k hk
    exact ⟨lt_of_lt_of_le hlt hn, (hrm k hlt).trans hfalse⟩
  inj := h.inj
  noted := fun i hi k hk hpos => (hatt i hi k hk hpos).elim (h.noted i hi k hk) id

omit [DecidableEq P] in
/-- An attach count is stored. -/
theorem Tables.Sound.setNattch {i : ℕ} {v : Ushort} (h : tb.Sound t s)
    (hv : ∀ k, tb.shmsegs i = some k → 0 < s.attached k → v > 0) :
    (tb.setNattch i v).Sound t s where
  free := by
    intro j hj halloc
    by_cases hij : j = i
    · subst hij
      simp only [Tables.setNattch, Tables.put, Function.update_self] at halloc ⊢
      exact h.free j hj halloc
    · simp only [Tables.setNattch, Tables.put, Function.update_of_ne hij] at halloc ⊢
      exact h.free j hj halloc
  used := by
    intro j hj halloc
    by_cases hij : j = i
    · subst hij
      simp only [Tables.setNattch, Tables.put, Function.update_self] at halloc ⊢
      exact h.used j hj halloc
    · simp only [Tables.setNattch, Tables.put, Function.update_of_ne hij] at halloc ⊢
      exact h.used j hj halloc
  known := h.known
  inj := h.inj
  noted := by
    intro j hj k hk hpos
    by_cases hij : j = i
    · subst hij
      simp only [Tables.setNattch, Tables.put, Function.update_self]
      exact hv k hk hpos
    · simp only [Tables.setNattch, Tables.put, Function.update_of_ne hij]
      exact h.noted j hj k hk hpos

/-! ### References -/

/-- **A reference is made.**  A listed segment must have a note of it. -/
theorem Inv.refer {sr : SR} {m : Made} (h : Inv t s) (hlive : s.live pi.1 = true)
    (hpi : (s.shmsr pi).srSegp = none) (hsr : sr.srSegp = some k) (hk : k < s.nsegs)
    (hkeep : (s.segs k).removed = true → 0 < s.attached k)
    (hlt : s.attached k + 1 < 2 ^ 15 - 1)
    (hnote : ∀ tb, s.tables = some tb → ∀ i < t.SHMMNI, tb.shmsegs i = some k →
      (tb.shmids i).shmNattch > 0) : Inv t (s.refer pi k sr m) where
  counted := by
    intro j hj
    by_cases hjk : j = k
    · subst hjk
      rw [State.attached_refer_self hpi hsr]
      simp only [State.refer, State.setSeg, State.setSr, Function.update_self]
      exact (h.counted j hk).add hkeep hlt
    · rw [State.attached_refer_ne hpi hsr hjk]
      simp only [State.refer, State.setSeg, State.setSr, Function.update_of_ne hjk]
      exact h.counted j hj
  known := by
    intro pj j hj
    by_cases hp : pj = pi
    · subst hp
      simp only [State.refer, State.setSeg, State.setSr, Function.update_self] at hj
      exact Option.some_inj.mp (hsr.symm.trans hj) ▸ hk
    · simp only [State.refer, State.setSeg, State.setSr, Function.update_of_ne hp] at hj
      exact h.known pj j hj
  tables := by
    intro tb htb
    refine (h.tables tb htb).congr le_rfl (fun j hj => ?_) fun i hi j hj hpos => ?_
    · by_cases hjk : j = k
      · subst hjk
        simp only [State.refer, State.setSeg, State.setSr, Function.update_self,
          Seg.addRefs_removed]
      · simp only [State.refer, State.setSeg, State.setSr, Function.update_of_ne hjk]
    · by_cases hjk : j = k
      · subst hjk
        exact Or.inr (hnote tb htb i hi hj)
      · rw [State.attached_refer_ne hpi hsr hjk] at hpos
        exact Or.inl hpos
  dead := by
    intro p i hp
    by_cases hpi' : (p, i) = pi
    · subst hpi'
      exact absurd (hlive.symm.trans hp) (by decide)
    · simp only [State.refer, State.setSeg, State.setSr, Function.update_of_ne hpi']
      exact h.dead p i hp

/-- **A reference is dropped.** -/
theorem Inv.drop (h : Inv t s) (hpi : (s.shmsr pi).srSegp = some k) : Inv t (s.drop t pi k) := by
  have hk := h.known pi k hpi
  have hself := State.attached_drop_self (t := t) hpi
  have hcounted : ((s.segs k).detach).Counted ((s.drop t pi k).attached k) :=
    Seg.Counted.detach (hself ▸ h.counted k hk)
  have hremoved : ∀ j < s.nsegs, ((s.drop t pi k).segs j).removed = (s.segs j).removed := by
    intro j _
    by_cases hjk : j = k
    · subst hjk
      simp only [State.drop, State.unrefer, State.setSeg, State.setSr, Function.update_self,
        Seg.detach_removed]
    · simp only [State.drop, State.unrefer, State.setSeg, State.setSr, Function.update_of_ne hjk]
  have hle : ∀ j, (s.drop t pi k).attached j ≤ s.attached j := by
    intro j
    by_cases hjk : j = k
    · subst hjk
      omega
    · exact (State.attached_drop_ne hpi hjk).le
  refine ⟨fun j hj => ?_, fun pj j hj => ?_, fun tb htb => ?_, fun p i hp => ?_⟩
  · by_cases hjk : j = k
    · subst hjk
      simp only [State.drop, State.unrefer, State.setSeg, State.setSr, Function.update_self] at *
      exact hcounted
    · rw [State.attached_drop_ne hpi hjk]
      simp only [State.drop, State.unrefer, State.setSeg, State.setSr, Function.update_of_ne hjk]
      exact h.counted j hj
  · by_cases hp : pj = pi
    · subst hp
      simp only [State.drop, State.unrefer, State.setSeg, State.setSr, Function.update_self,
        SR.none] at hj
      cases hj
    · simp only [State.drop, State.unrefer, State.setSeg, State.setSr,
        Function.update_of_ne hp] at hj
      exact h.known pj j hj
  · simp only [State.drop, State.unrefer, State.setSr, Option.map_eq_some_iff] at htb
    obtain ⟨tb₀, htb₀, rfl⟩ := htb
    have hsound : tb₀.Sound t (s.drop t pi k) :=
      (h.tables tb₀ htb₀).congr le_rfl hremoved fun i _ j _ hpos =>
        Or.inl (lt_of_lt_of_le hpos (hle j))
    unfold Tables.shmSetDs
    split
    · exact hsound
    · next j hj =>
      -- the count that is stored is that of the attachments that are left
      have hj : tb₀.shmsegs j = some k := by
        simpa using List.find?_some hj
      refine hsound.setNattch fun k' hk' hpos => ?_
      obtain rfl : k' = k := Option.some_inj.mp (hk'.symm.trans hj)
      have hlt := (h.counted k' hk).lt
      have hval := ushort_val (((s.segs k').addRefs (-1)).sUrefc.val - 1)
      have hurefc : ((s.segs k').addRefs (-1)).sUrefc.val = (s.drop t pi k').attached k' + 1 := by
        have := (h.counted k' hk).urefc
        simp only [Seg.addRefs]
        rw [short_of_lt (by omega) (by omega)]
        omega
      rw [gt_iff_lt, Fin.lt_def]
      unfold Seg.nattch
      rw [hurefc] at hval ⊢
      simp only [Fin.val_zero]
      omega
  · by_cases hpi' : (p, i) = pi
    · subst hpi'
      simp only [State.drop, State.unrefer, State.setSeg, State.setSr, Function.update_self,
        SR.none]
    · simp only [State.drop, State.unrefer, State.setSeg, State.setSr,
        Function.update_of_ne hpi'] at hp ⊢
      exact h.dead p i hp

end CohKernel.Shm
