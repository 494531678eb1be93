import CohKernel.Shm.Disjoint

namespace CohKernel.Shm

/-!
# The test of a requested address

`check_request_address` against the bytes of the segments that a process has mapped.  Addresses are
those of a space of 2^32 bytes, in which a range may go past the end; the stack lies below the base
that is recorded for it.

* `request_accepted` — when the test accepts exactly the ranges that meet no segment;
* `request_covers` — a range that holds a whole segment is accepted.
-/

/-! ### Ranges -/

/-- The bytes of a range. -/
def bytesFrom (base : Addr) (len : ℕ) : Set Addr := { x | (x - base).val < len }

/-- A segment reference of a process: one of `p_segl` or one of `p_shmsr`. -/
abbrev SegRef := Fin NUSEG ⊕ Fin NSHMSEG

variable {P : Type} [DecidableEq P]

def State.srOf (s : State P) (p : P) : SegRef → SR :=
  Sum.elim (s.segl p) fun i => s.shmsr (p, i)

/-- The stack. -/
def stackRef : SegRef := .inl SISTACK

/-- The bytes of a mapped segment. -/
def State.mapped (s : State P) (p : P) (r : SegRef) : Set Addr :=
  let srp := s.srOf p r
  if srp.srSegp = none then ∅
  else if r = stackRef then bytesFrom (srp.srBase - addr srp.srSize) srp.srSize
  else bytesFrom srp.srBase srp.srSize

/-- The range meets no mapped segment. -/
def State.Clear (s : State P) (p : P) (a : Addr) (len : ℕ) : Prop :=
  ∀ r, Disjoint (bytesFrom a len) (s.mapped p r)

variable {s : State P} {p : P} {a base : Addr} {len size : ℕ} {r : SegRef} {srp : SR}

theorem sub_val (a b : Addr) : (a - b).val = (2 ^ 32 - b.val + a.val) % 2 ^ 32 := rfl

theorem bytesFrom_zero (a : Addr) : bytesFrom a 0 = ∅ :=
  Set.eq_empty_of_forall_notMem fun _ h => Nat.not_lt_zero _ h

/-- **Two ranges without a byte in common**: neither begins in the other. -/
theorem bytesFrom_disjoint (hlen : len < 2 ^ 32) :
    Disjoint (bytesFrom a len) (bytesFrom base size) ↔
      len = 0 ∨ size = 0 ∨ size ≤ (a - base).val ∧ len ≤ (base - a).val := by
  have ha := a.isLt
  have hb := base.isLt
  have hmem : ∀ {x c : Addr} {n : ℕ}, x ∈ bytesFrom c n ↔ (x - c).val < n := Iff.rfl
  rw [Set.disjoint_left]
  constructor
  · intro h
    by_contra hmeet
    rw [not_or, not_or, not_and_or, Nat.not_le, Nat.not_le] at hmeet
    obtain ⟨hlen', hsize, hmeet⟩ := hmeet
    rcases hmeet with hmeet | hmeet
    · refine h (a := a) (hmem.mpr ?_) (hmem.mpr hmeet)
      rw [sub_self]
      exact Nat.pos_of_ne_zero hlen'
    · refine h (hmem.mpr hmeet) (hmem.mpr ?_)
      rw [sub_self]
      exact Nat.pos_of_ne_zero hsize
  · rintro (rfl | rfl | ⟨hsize, hle⟩) x hx hx'
    · exact Nat.not_lt_zero _ hx
    · exact Nat.not_lt_zero _ hx'
    · rw [hmem] at hx hx'
      have hxl := x.isLt
      rw [sub_val] at hx hx' hsize hle
      omega

/-! ### `seg_overlap` -/

/-- The range begins in some bytes, or ends in them or with the first of them. -/
def Touches (srp : SR) (a : Addr) (len : ℕ) : Prop :=
  (a - srp.srBase).val < srp.srSize ∨ (a + addr len - srp.srBase).val ≤ srp.srSize

/-- The range begins before some bytes and goes on behind them. -/
def Holds (srp : SR) (a : Addr) (len : ℕ) : Prop :=
  0 < (srp.srBase - a).val ∧ (srp.srBase - a).val + srp.srSize < len

theorem segOverlap_iff (hsegp : srp.srSegp ≠ none) :
    segOverlap srp a len = NO_OVERLAP ↔ ¬ Touches srp a len := by
  have hend : a - srp.srBase + addr len = a + addr len - srp.srBase := by
    rw [sub_add_eq_add_sub]
  unfold segOverlap NO_OVERLAP CONTAINS_BASE CONTAINS_LIMIT Touches
  rw [if_neg hsegp, not_or]
  dsimp only
  rw [hend]
  split_ifs with hbegin hlimit hlimit
  · exact iff_of_false (by decide) fun h => h.1 hbegin
  · exact iff_of_false (by decide) fun h => h.1 hbegin
  · exact iff_of_false (by decide) fun h => h.2 hlimit
  · exact iff_of_true rfl ⟨hbegin, hlimit⟩

theorem end_val (a base : Addr) (len : ℕ) :
    (a + addr len - base).val = (2 ^ 32 - base.val + (a.val + len)) % 2 ^ 32 := by
  rw [sub_val, Fin.val_add]
  unfold addr
  dsimp only
  omega

/-- **A segment that the range does not meet** is taken for one that it meets if the range ends
    where it begins. -/
theorem overlap_clear (hlen : len < 2 ^ 32) (hpos : len ≠ 0)
    (hclear : Disjoint (bytesFrom a len) (bytesFrom srp.srBase srp.srSize)) :
    Touches srp a len ↔ a + addr len = srp.srBase := by
  have ha := a.isLt
  have hb := srp.srBase.isLt
  have hzero : a + addr len = srp.srBase ↔ (a + addr len - srp.srBase).val = 0 := by
    rw [← sub_eq_zero]
    exact ⟨fun h => by rw [h]; rfl, fun h => Fin.ext h⟩
  rw [bytesFrom_disjoint hlen] at hclear
  unfold Touches
  rw [hzero, end_val]
  rw [sub_val, sub_val] at hclear
  rw [sub_val]
  omega

/-- **A segment that the range meets** is taken for one that it does not meet if the range begins
    before it and goes on behind it. -/
theorem overlap_met (hlen : len < 2 ^ 32)
    (hmet : ¬ Disjoint (bytesFrom a len) (bytesFrom srp.srBase srp.srSize)) :
    Touches srp a len ↔ ¬ Holds srp a len := by
  have ha := a.isLt
  have hb := srp.srBase.isLt
  rw [bytesFrom_disjoint hlen] at hmet
  unfold Touches Holds
  rw [end_val]
  rw [sub_val, sub_val] at hmet
  rw [sub_val, sub_val]
  omega

/-! ### `check_request_address` -/

/-- **The condition.**  An empty range neither begins in a segment nor touches one.  Another one
    that meets no segment is not above `INT_MAX`, does not end where a segment begins, and does not
    touch the bytes from the recorded base of the stack up; one that meets a segment is above
    `INT_MAX`, or meets a segment that it does not go beyond on both sides, or does what the others
    may not do. -/
structure State.Tested (s : State P) (p : P) (a : Addr) (len : ℕ) : Prop where
  empty : len = 0 → a.val ≤ INT_MAX ∧
    ∀ r, (s.srOf p r).srSegp ≠ none → (s.srOf p r).srSize < (a - (s.srOf p r).srBase).val
  clear : len ≠ 0 → s.Clear p a len → a.val ≤ INT_MAX ∧
    (∀ r ≠ stackRef, (s.srOf p r).srSegp ≠ none → a + addr len ≠ (s.srOf p r).srBase) ∧
    ((s.srOf p stackRef).srSegp ≠ none → ¬ Touches (s.srOf p stackRef) a len)
  met : ¬ s.Clear p a len → INT_MAX < a.val ∨
    (∃ r ≠ stackRef, ¬ Disjoint (bytesFrom a len) (s.mapped p r) ∧ ¬ Holds (s.srOf p r) a len) ∨
    (∃ r ≠ stackRef, (s.srOf p r).srSegp ≠ none ∧ a + addr len = (s.srOf p r).srBase) ∨
    (s.srOf p stackRef).srSegp ≠ none ∧ Touches (s.srOf p stackRef) a len

section

omit [DecidableEq P]

theorem mapped_none (h : (s.srOf p r).srSegp = none) : s.mapped p r = ∅ := if_pos h

theorem mapped_some (hr : r ≠ stackRef) (h : (s.srOf p r).srSegp ≠ none) :
    s.mapped p r = bytesFrom (s.srOf p r).srBase (s.srOf p r).srSize :=
  (if_neg h).trans (if_neg hr)

/-- What the test tests. -/
theorem checkRequestAddress_iff : s.checkRequestAddress p a len = true ↔
    a.val ≤ INT_MAX ∧ ∀ r, (s.srOf p r).srSegp ≠ none → ¬ Touches (s.srOf p r) a len := by
  have hone : ∀ srp : SR, segOverlap srp a len = NO_OVERLAP ↔
      (srp.srSegp ≠ none → ¬ Touches srp a len) := by
    intro srp
    by_cases h : srp.srSegp = none
    · exact iff_of_true (if_pos h) fun h' => absurd h h'
    · rw [segOverlap_iff h]
      exact ⟨fun h' _ => h', fun h' => h' h⟩
  unfold State.checkRequestAddress
  split_ifs with habove
  · exact iff_of_false id fun h => absurd h.1 (Nat.not_le.mpr habove)
  · rw [decide_eq_true_iff, and_iff_right (Nat.not_lt.mp habove), Sum.forall]
    exact and_congr (forall_congr' fun i => hone _) (forall_congr' fun i => hone _)

theorem empty_clear : s.Clear p a 0 := fun r => by
  rw [bytesFrom_zero]
  exact Set.empty_disjoint _

end

/-- An empty range touches what it begins in, or what ends where it is. -/
theorem touches_empty : ¬ Touches srp a 0 ↔ srp.srSize < (a - srp.srBase).val := by
  have hzero : a + addr 0 = a := add_zero a
  unfold Touches
  rw [hzero]
  omega

omit [DecidableEq P] in
/-- **When a requested address is accepted if and only if the range meets no segment.** -/
theorem request_accepted (s : State P) (p : P) (a : Addr) (len : Fin (2 ^ 32)) :
    (s.checkRequestAddress p a len.val = true ↔ s.Clear p a len.val) ↔
      s.Tested p a len.val := by
  obtain ⟨len, hlen⟩ := len
  dsimp only
  rw [checkRequestAddress_iff]
  by_cases hzero : len = 0
  · subst hzero
    rw [iff_true_right empty_clear]
    constructor
    · intro ⟨hmax, htest⟩
      exact ⟨fun _ => ⟨hmax, fun r hr => touches_empty.mp (htest r hr)⟩, fun h => absurd rfl h,
        fun h => absurd empty_clear h⟩
    · intro htested
      obtain ⟨hmax, htest⟩ := htested.empty rfl
      exact ⟨hmax, fun r hr => touches_empty.mpr (htest r hr)⟩
  by_cases hclear : s.Clear p a len
  · -- all segments but the stack are tested by `overlap_clear`
    have htest : ∀ r ≠ stackRef, (s.srOf p r).srSegp ≠ none →
        (Touches (s.srOf p r) a len ↔ a + addr len = (s.srOf p r).srBase) := by
      intro r hr hsegp
      exact overlap_clear hlen hzero (mapped_some hr hsegp ▸ hclear r)
    rw [iff_true_right hclear]
    constructor
    · intro ⟨hmax, hall⟩
      exact ⟨fun h => absurd h hzero, fun _ _ => ⟨hmax, fun r hr hsegp => (htest r hr hsegp).not.mp
        (hall r hsegp), hall stackRef⟩, fun h => absurd hclear h⟩
    · intro htested
      obtain ⟨hmax, hothers, hstack⟩ := htested.clear hzero hclear
      refine ⟨hmax, fun r hsegp => ?_⟩
      by_cases hr : r = stackRef
      · subst hr
        exact hstack hsegp
      · exact (htest r hr hsegp).not.mpr (hothers r hr hsegp)
  · rw [iff_false_right hclear, not_and_or, not_forall, Nat.not_le]
    constructor
    · intro hrefused
      refine ⟨fun h => absurd h hzero, fun _ h => absurd h hclear, fun _ => ?_⟩
      rcases hrefused with habove | ⟨r, htouch⟩
      · exact .inl habove
      · obtain ⟨hsegp, htouch⟩ := Classical.not_imp.mp htouch
        rw [not_not] at htouch
        refine .inr ?_
        by_cases hr : r = stackRef
        · subst hr
          exact .inr (.inr ⟨hsegp, htouch⟩)
        · by_cases hdisj : Disjoint (bytesFrom a len) (s.mapped p r)
          · rw [mapped_some hr hsegp] at hdisj
            exact .inr (.inl ⟨r, hr, hsegp, (overlap_clear hlen hzero hdisj).mp htouch⟩)
          · refine .inl ⟨r, hr, hdisj, ?_⟩
            rw [mapped_some hr hsegp] at hdisj
            exact (overlap_met hlen hdisj).mp htouch
    · intro htested
      rcases htested.met hclear with habove | ⟨r, hr, hmet, hholds⟩ | ⟨r, hr, hsegp, hend⟩ | hstack
      · exact .inl habove
      · have hsegp : (s.srOf p r).srSegp ≠ none := fun h => by
          rw [mapped_none h] at hmet
          exact hmet (Set.disjoint_empty _)
        rw [mapped_some hr hsegp] at hmet
        exact .inr ⟨r, fun h => h hsegp ((overlap_met hlen hmet).mpr hholds)⟩
      · refine .inr ⟨r, fun h => h hsegp (.inr ?_)⟩
        rw [hend, sub_self]
        exact Nat.zero_le _
      · exact .inr ⟨stackRef, fun h => h hstack.1 hstack.2⟩

/-- A process whose data segment is one page, with nothing else mapped. -/
def onePage : State Unit :=
  { alone () with
    segl := fun _ i => if i = SIPDATA then ⟨0, addr 0x401000, 0x1000, some 0⟩ else .none }

/-- **A range that holds a whole segment** is accepted. -/
theorem request_covers : ¬ ∀ (s : State Unit) (p : Unit) (a : Addr) (len : Fin (2 ^ 32)),
    s.checkRequestAddress p a len.val = true ↔ s.Clear p a len.val := by
  intro hall
  have haccept : onePage.checkRequestAddress () (addr 0x400000) 0x3000 = true := by decide
  have hclear := (hall onePage () (addr 0x400000) 0x3000).mp haccept (.inl SIPDATA)
  have hmapped : onePage.mapped () (.inl SIPDATA) = bytesFrom (addr 0x401000) 0x1000 := rfl
  rw [hmapped] at hclear
  have hrange : addr 0x401000 ∈ bytesFrom (addr 0x400000) 0x3000 := by
    show (_ : ℕ) < _
    decide
  have hpage : addr 0x401000 ∈ bytesFrom (addr 0x401000) 0x1000 := by
    show (_ : ℕ) < _
    decide
  exact Set.disjoint_left.mp hclear hrange hpage

end CohKernel.Shm
