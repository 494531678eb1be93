import CohKernel.Dir.Defs

namespace CohKernel.Dir

open CohKernel.Lib CohKernel.Fs

/-!
# Is a directory empty

`isdirempty` of `sys5.c` counts in bytes, and hands its count to `vread`, which takes the number of
a block: of a directory with more than one block it looks at the blocks 0, 512, 1024 and so on.

* `isdirempty_iff` — the slots that it looks at;
* `isdirempty_sound_iff` — when its answer is right.
-/

/-! ### Definitions -/

/-- The character `.`. -/
def DOT : Byte := 46

/-- The tests of the inner loop of `isdirempty` on the slot at `cp`. -/
def slotEmpty (m : Bytes) (cp : ℕ) : Bool :=
  if m cp = 0 ∧ m (cp + 1) = 0 then true
  else if m (cp + 2) ≠ DOT then false
  else if m (cp + 3) = 0 then true
  else if m (cp + 3) ≠ DOT ∨ m (cp + 4) ≠ 0 then false
  else true

/-- The inner loop: every slot of a block. -/
def blockEmpty (blk : Bytes) : Bool :=
  (List.range (BSIZE / SLOT)).all fun i => slotEmpty blk (SLOT * i)

/-- The outer loop of `isdirempty`, with the turns that are left. -/
def emptyLoop (rd : ℕ → Bool) (blocks : ℕ → Bytes) (ip : Inode) : ℕ → ℕ → Bool
  | 0, _ => true
  | left + 1, count =>
      match vread rd blocks ip count with
      | none => true
      | some blk =>
          if blockEmpty blk then emptyLoop rd blocks ip left (count + BSIZE) else false

/-- `isdirempty`; the outer loop has one turn for each block of the directory. -/
def isdirempty (rd : ℕ → Bool) (blocks : ℕ → Bytes) (ip : Inode) : Bool :=
  emptyLoop rd blocks ip ((ip.iSize + BSIZE - 1) / BSIZE) 0

/-! ### The slots that it looks at -/

/-- The slot at an offset is a live entry other than `.` and `..`. -/
def Other (m : Bytes) (o : ℕ) : Prop :=
  dIno m o ≠ 0 ∧ cname (dName m o) ≠ [DOT] ∧ cname (dName m o) ≠ [DOT, DOT]

variable {rd : ℕ → Bool} {blocks : ℕ → Bytes} {ip : Inode} {m m' : Bytes} {o o' : ℕ}

theorem other_congr (h : ∀ j < SLOT, m (o + j) = m' (o' + j)) : Other m o ↔ Other m' o' := by
  obtain ⟨hino, hname⟩ := slot_congr h
  unfold Other
  rw [hino, hname]

theorem cname_dot (a b c : Byte) (rest : List Byte) :
    (cname (a :: b :: c :: rest) = [DOT] ↔ a = DOT ∧ b = 0) ∧
      (cname (a :: b :: c :: rest) = [DOT, DOT] ↔ a = DOT ∧ b = DOT ∧ c = 0) := by
  have hdot : DOT ≠ 0 := by decide
  unfold cname
  simp only [List.takeWhile_cons, decide_eq_true_eq]
  by_cases ha : a = 0
  · subst ha
    simp [hdot.symm]
  by_cases hb : b = 0
  · subst hb
    simp [ha, hdot.symm]
  by_cases hc : c = 0
  · subst hc
    simp [ha, hb]
  · simp [ha, hb, hc]

/-- The tests find the other entries. -/
theorem slotEmpty_iff (m : Bytes) (cp : ℕ) : slotEmpty m cp = false ↔ Other m cp := by
  have hname : dName m cp = m (cp + 2) :: m (cp + 3) :: m (cp + 4) ::
      (List.range' 3 11).map fun j => m (cp + 2 + j) := rfl
  have hino : dIno m cp = 0 ↔ m cp = 0 ∧ m (cp + 1) = 0 := by
    unfold dIno Bytes.word
    rw [Fin.ext_iff, Fin.ext_iff]
    show _ ↔ (m cp).val = 0 ∧ (m (cp + 1)).val = 0
    omega
  obtain ⟨hone, htwo⟩ := cname_dot (m (cp + 2)) (m (cp + 3)) (m (cp + 4))
    ((List.range' 3 11).map fun j => m (cp + 2 + j))
  unfold slotEmpty Other
  simp only [hname, ne_eq, hino, hone, htwo]
  by_cases hfree : m cp = 0 ∧ m (cp + 1) = 0
  · simp [hfree]
  by_cases hfirst : m (cp + 2) = DOT
  swap
  · simp [hfree, hfirst]
  by_cases hsecond : m (cp + 3) = 0
  · simp [hfree, hfirst, hsecond]
  by_cases hdots : m (cp + 3) = DOT
  · by_cases hthird : m (cp + 4) = 0
    · simp [hfree, hfirst, hdots, hthird]
    · simp [hfree, hfirst, hdots, hthird, show DOT ≠ 0 by decide]
  · simp [hfree, hfirst, hsecond, hdots]

theorem blockEmpty_iff {b : ℕ} {blk : Bytes} (h : vread rd blocks ip b = some blk) :
    blockEmpty blk = false ↔
      ∃ i < BSIZE / SLOT, Other (content blocks ip) (b * BSIZE + SLOT * i) := by
  have hslot : ∀ i < BSIZE / SLOT, slotEmpty blk (SLOT * i) = false ↔
      Other (content blocks ip) (b * BSIZE + SLOT * i) := by
    intro i hi
    rw [slotEmpty_iff]
    refine other_congr fun j hj => ?_
    rw [vread_spec h (by unfold BSIZE SLOT at *; omega), Nat.add_assoc]
  unfold blockEmpty
  rw [← Bool.not_eq_true, List.all_eq_true]
  push Not
  constructor
  · rintro ⟨i, hi, hne⟩
    rw [List.mem_range] at hi
    exact ⟨i, hi, (hslot i hi).mp (Bool.not_eq_true _ ▸ hne)⟩
  · rintro ⟨i, hi, hother⟩
    refine ⟨i, List.mem_range.mpr hi, ?_⟩
    rw [(hslot i hi).mpr hother]
    exact Bool.false_ne_true

/-- One of the slots at which `isdirempty` gets to look is another entry: its block has a multiple
    of `BSIZE` as its number, and those before can be read. -/
def Reached (rd : ℕ → Bool) (blocks : ℕ → Bytes) (ip : Inode) : Prop :=
  ∃ k, k * BSIZE < ip.iSize ∧ (∀ l ≤ k, (vread rd blocks ip (l * BSIZE)).isSome) ∧
    ∃ i < BSIZE / SLOT, Other (content blocks ip) (k * BSIZE * BSIZE + SLOT * i)

theorem emptyLoop_iff (left k : ℕ) : emptyLoop rd blocks ip left (k * BSIZE) = false ↔
    ∃ d < left, (∀ l ≤ d, (vread rd blocks ip ((k + l) * BSIZE)).isSome) ∧
      ∃ i < BSIZE / SLOT, Other (content blocks ip) ((k + d) * BSIZE * BSIZE + SLOT * i) := by
  induction left generalizing k with
  | zero =>
    unfold emptyLoop
    exact ⟨fun h => absurd h.symm Bool.false_ne_true, fun ⟨d, hd, _⟩ =>
      absurd hd (Nat.not_lt_zero d)⟩
  | succ left ih =>
    unfold emptyLoop
    cases hv : vread rd blocks ip (k * BSIZE) with
    | none =>
      refine ⟨fun h => absurd h.symm Bool.false_ne_true, fun ⟨d, _, hread, _⟩ => ?_⟩
      have := hread 0 (Nat.zero_le d)
      rw [Nat.add_zero, hv] at this
      cases this
    | some blk =>
      have hhere := blockEmpty_iff hv
      have hnext : k * BSIZE + BSIZE = (k + 1) * BSIZE := (Nat.succ_mul k BSIZE).symm
      simp only
      by_cases hempty : blockEmpty blk = true
      · rw [if_pos hempty, hnext, ih (k + 1)]
        constructor
        · rintro ⟨d, hd, hread, hother⟩
          refine ⟨d + 1, by omega, fun l hl => ?_, ?_⟩
          · cases l with
            | zero =>
              rw [Nat.add_zero, hv]
              rfl
            | succ l =>
              rw [Nat.add_comm l 1, ← Nat.add_assoc]
              exact hread l (by omega)
          · rwa [Nat.add_comm d 1, ← Nat.add_assoc]
        · rintro ⟨d, hd, hread, hother⟩
          cases d with
          | zero =>
            rw [Nat.add_zero] at hother
            rw [hhere.mpr hother] at hempty
            cases hempty
          | succ d =>
            refine ⟨d, by omega, fun l hl => ?_, ?_⟩
            · rw [Nat.add_assoc, Nat.add_comm 1 l]
              exact hread (l + 1) (by omega)
            · rwa [Nat.add_assoc, Nat.add_comm 1 d]
      · rw [if_neg hempty]
        refine ⟨fun _ => ⟨0, Nat.succ_pos left, fun l hl => ?_, ?_⟩, fun _ => rfl⟩
        · rw [Nat.le_zero.mp hl, Nat.add_zero, hv]
          rfl
        · rw [Nat.add_zero]
          exact hhere.mp (Bool.not_eq_true _ ▸ hempty)

/-- `isdirempty` says no when one of the slots at which it looks is another entry. -/
theorem isdirempty_iff : isdirempty rd blocks ip = false ↔ Reached rd blocks ip := by
  have hloop := @emptyLoop_iff rd blocks ip ((ip.iSize + BSIZE - 1) / BSIZE) 0
  have hturns : ∀ k, k < (ip.iSize + BSIZE - 1) / BSIZE ↔ k * BSIZE < ip.iSize := by
    intro k
    unfold BSIZE
    omega
  rw [Nat.zero_mul] at hloop
  unfold isdirempty
  rw [hloop]
  simp only [Nat.zero_add, hturns]
  rfl

/-! ### When it is right -/

/-- A directory without entries other than `.` and `..`. -/
def Vacant (blocks : ℕ → Bytes) (ip : Inode) : Prop :=
  ∀ i < slots ip, ¬ Other (content blocks ip) (SLOT * i)

/-- **Is a directory empty.** `isdirempty` is right about a directory exactly when the directory has
    another entry if and only if one of the slots at which it looks is one. -/
theorem isdirempty_sound_iff (rd : ℕ → Bool) (blocks : ℕ → Bytes) (ip : Inode) :
    (isdirempty rd blocks ip = true ↔ Vacant blocks ip) ↔
      ((∃ i < slots ip, Other (content blocks ip) (SLOT * i)) ↔ Reached rd blocks ip) := by
  have hno : isdirempty rd blocks ip = true ↔ ¬ Reached rd blocks ip := by
    rw [← isdirempty_iff, Bool.not_eq_false]
  have hother : (∃ i < slots ip, Other (content blocks ip) (SLOT * i)) ↔ ¬ Vacant blocks ip := by
    unfold Vacant
    push Not
    rfl
  rw [hno, hother, not_iff_comm, iff_comm]

/-- `isdirempty` does not see the file. -/
theorem crowded_empty : isdirempty (fun _ => true) crowdedBlocks crowded = true ∧
    ¬ Vacant crowdedBlocks crowded := by
  refine ⟨by decide +kernel, fun h => h 32 (by decide) ?_⟩
  rw [← slotEmpty_iff]
  decide +kernel

end CohKernel.Dir
