import Mathlib.Data.BitVec
import Mathlib.Logic.Function.Basic

namespace CohKernel.Mmu.MapPhys

/-!
# Mapping physical memory for a user

`physValid` and `mapPhysUser` of `mmu.c`, on words of 32 bits.  The page table and the page list of
the segment are maps from indexes to entries.

* `entries_eq` — the entries that a request writes;
* `accepted_of_wraps` — a request that wraps around the end of the address space is accepted;
* `mapPhysUser_keeps_iff` — which requests map no installed RAM outside of the pool.
-/

/-! ### Definitions -/

abbrev Word := BitVec 32

/-- `NBPC` -/
def NBPC : Word := 4096

def BPCSHIFT : ℕ := 12

def ONE_MEG : Word := 1048576

def SEG_RW : Word := 0x07

def SEG_NPL : Word := 0x80

/-- What the sizes in the CMOS say, and the pool of contiguous memory.  The lowest page of RAM has
    the data of the BIOS, so it is not one of the pool; the pool does not reach the upper half of
    the address space. -/
structure Machine where
  /-- `read16_cmos (LOMEM)`, the size of the memory below 1 MB in K. -/
  lomem : BitVec 16
  /-- `read16_cmos (EXTMEM)`, the size of the memory above 1 MB in K. -/
  extmem : BitVec 16
  PHYS_MEM : Word
  /-- The physical address of `physPoolStart`. -/
  vpool : Word
  low : 0 < lomem
  apart : PHYS_MEM ≠ 0 → NBPC ≤ vpool
  fits : PHYS_MEM ≠ 0 → vpool.toNat + PHYS_MEM.toNat < 2 ^ 31

/-- The user data segment: `sr_base` and `sr_size`. -/
structure SR where
  base : Word
  size : Word

/-- The entries of the segment and of the page table, and the free pages. -/
structure Tables where
  vmem : ℕ → Word
  ptable1 : ℕ → Word
  pfree : List Word

/-- `__ROUND_UP_TO_MULTIPLE` of a page, which is unsigned. -/
def roundUp (n : Word) : Word := (n - 1 + NBPC) / NBPC * NBPC

/-- `btocrd` -/
def btocrd (n : Word) : Word := n >>> BPCSHIFT

/-- `ctob` -/
def ctob (n : Word) : Word := n <<< BPCSHIFT

/-- The end of the base RAM. -/
def Machine.physLow (m : Machine) : Word := ctob ((m.lomem.setWidth 32 + 3) >>> 2)

/-- The end of the extended RAM. -/
def Machine.physHigh (m : Machine) : Word := ctob ((m.extmem.setWidth 32 + 3) >>> 2) + ONE_MEG

/-- `physValid` -/
def physValid (m : Machine) (base numBytes : Word) : Bool :=
  if m.PHYS_MEM ≠ 0 then
    decide (base ≥ m.vpool ∧ base + numBytes ≤ m.vpool + m.PHYS_MEM)
  else false

/-- The loop of `mapPhysUser`, from page `i` on; `pvalid` says which pages are from the pool of
    pages. -/
def mapPages (pvalid : Word → Bool) (virtAddr physAddr pageOffset : Word) :
    ℕ → ℕ → Tables → Tables
  | 0, _, s => s
  | left + 1, i, s =>
      let q := pageOffset.toNat + i
      let pfree :=
        if s.vmem q &&& SEG_NPL = 0 then
          let pno := btocrd (s.vmem q)
          if pvalid pno then s.pfree ++ [pno] else s.pfree
        else s.pfree
      let entry := (physAddr + ctob (BitVec.ofNat 32 i)) ||| (SEG_RW ||| SEG_NPL)
      mapPages pvalid virtAddr physAddr pageOffset left (i + 1)
        { vmem := Function.update s.vmem q entry
          ptable1 := Function.update s.ptable1 ((btocrd virtAddr).toNat + i) entry
          pfree := pfree }

/-- The check of the physical addresses in `mapPhysUser`. -/
def physOk (m : Machine) (physAddr numBytes : Word) : Bool :=
  if physValid m physAddr numBytes then true
  else if physAddr < m.physLow then false
  else if physAddr < m.physHigh ∧ ONE_MEG.sle (physAddr + numBytes) then false
  else true

/-- `mapPhysUser` -/
def mapPhysUser (m : Machine) (pvalid : Word → Bool) (sr : SR)
    (virtAddr physAddr numBytes : Word) (s : Tables) : ℕ × Tables :=
  if virtAddr &&& (NBPC - 1) ≠ 0 ∨ physAddr &&& (NBPC - 1) ≠ 0 then (0, s)
  else
    let numBytes := roundUp numBytes
    if virtAddr < sr.base ∨ virtAddr + numBytes ≥ sr.base + sr.size then (0, s)
    else if physOk m physAddr numBytes = false then (0, s)
    else
      let pageOffset := btocrd (virtAddr - sr.base)
      -- `numBytes` is signed, so there are no pages when it is negative
      let numPages := (numBytes.sshiftRight BPCSHIFT).toInt
      (1, mapPages pvalid virtAddr physAddr pageOffset numPages.toNat 0 s)

/-- The page of an entry. -/
def page (entry : Word) : Word := entry &&& ~~~(NBPC - 1)

/-- The page is installed RAM. -/
def Machine.Ram (m : Machine) (p : Word) : Prop :=
  p < m.physLow ∨ ONE_MEG ≤ p ∧ p < m.physHigh

/-- The page is one of the pool. -/
def Machine.Pool (m : Machine) (p : Word) : Prop :=
  m.vpool ≤ p ∧ p.toNat < m.vpool.toNat + m.PHYS_MEM.toNat

/-! ### Words -/

variable {x : Word} {i : ℕ}

theorem aligned_iff (x : Word) : x &&& (NBPC - 1) = 0 ↔ x.toNat % 4096 = 0 := by
  have hval : (x &&& (NBPC - 1)).toNat = x.toNat % 4096 := by
    rw [BitVec.toNat_and]
    exact Nat.and_two_pow_sub_one_eq_mod x.toNat 12
  rw [← hval]
  exact ⟨fun h => by rw [h]; rfl, fun h => BitVec.eq_of_toNat_eq h⟩

theorem ctob_toNat (h : x.toNat < 2 ^ 20) : (ctob x).toNat = x.toNat * 4096 := by
  unfold ctob BPCSHIFT
  rw [BitVec.toNat_shiftLeft, Nat.shiftLeft_eq]
  omega

/-- The bytes of a request, rounded up to pages. -/
theorem roundUp_toNat (n : Word) :
    (roundUp n).toNat = (n.toNat + 4095) % 2 ^ 32 / 4096 * 4096 := by
  have hsum : (n - 1 + NBPC).toNat = (n.toNat + 4095) % 2 ^ 32 := by
    unfold NBPC
    rw [BitVec.toNat_add, BitVec.toNat_sub]
    show ((2 ^ 32 - 1 + n.toNat) % 2 ^ 32 + 4096) % 2 ^ 32 = _
    omega
  unfold roundUp
  rw [BitVec.toNat_mul, BitVec.toNat_udiv, hsum]
  show (_ / 4096 * 4096) % 2 ^ 32 = _
  omega

/-- The pages that the loop goes over. -/
theorem numPages_eq (n : Word) :
    (n.sshiftRight BPCSHIFT).toInt.toNat = if n.toNat < 2 ^ 31 then n.toNat / 4096 else 0 := by
  rw [BitVec.toInt_sshiftRight, Int.shiftRight_eq_div_pow, BitVec.toInt_eq_toNat_cond]
  unfold BPCSHIFT
  split_ifs <;> omega

theorem sle_iff (x : Word) : ONE_MEG.sle x = true ↔ 2 ^ 20 ≤ x.toNat ∧ x.toNat < 2 ^ 31 := by
  rw [BitVec.sle_iff_toInt_le, BitVec.toInt_eq_toNat_cond x]
  show (1048576 : ℤ) ≤ _ ↔ _
  have := x.isLt
  split_ifs <;> omega

/-- The entry of a page has the page, whatever its flags. -/
theorem page_entry (h : x.toNat % 4096 = 0) : page (x ||| (SEG_RW ||| SEG_NPL)) = x := by
  have hx : x &&& (NBPC - 1) = 0 := (aligned_iff x).mpr h
  have hflags : (SEG_RW ||| SEG_NPL) &&& ~~~(NBPC - 1) = 0 := by decide
  have hsplit : x = x &&& (NBPC - 1) ||| x &&& ~~~(NBPC - 1) := by
    rw [← BitVec.and_or_distrib_left,
      show (NBPC - 1) ||| ~~~(NBPC - 1) = BitVec.allOnes 32 by decide, BitVec.and_allOnes]
  unfold page
  rw [BitVec.and_or_distrib_right, hflags]
  rw [hx] at hsplit
  simpa using hsplit.symm

theorem entry_ne_zero (x : Word) : x ||| (SEG_RW ||| SEG_NPL) ≠ 0 := by
  intro h
  have hbit := congrArg (·.getLsbD 0) h
  simp [SEG_RW, SEG_NPL] at hbit

/-! ### The entries -/

variable {pvalid : Word → Bool} {virtAddr physAddr numBytes pageOffset : Word} {left : ℕ}
  {s : Tables} {m : Machine} {sr : SR}

/-- The entry of the `i`-th page of a request. -/
def entryOf (physAddr : Word) (i : ℕ) : Word :=
  (physAddr + ctob (BitVec.ofNat 32 i)) ||| (SEG_RW ||| SEG_NPL)

/-- **The entries** that the loop writes are those of its pages. -/
theorem entries_eq (s : Tables) (i j : ℕ) :
    (mapPages pvalid virtAddr physAddr pageOffset left i s).ptable1 j =
      if (btocrd virtAddr).toNat + i ≤ j ∧ j < (btocrd virtAddr).toNat + i + left then
        entryOf physAddr (j - (btocrd virtAddr).toNat)
      else s.ptable1 j := by
  induction left generalizing i s with
  | zero =>
    rw [if_neg (by omega)]
    rfl
  | succ left ih =>
    obtain ⟨s', hstep, htable⟩ : ∃ s', mapPages pvalid virtAddr physAddr pageOffset (left + 1) i s =
        mapPages pvalid virtAddr physAddr pageOffset left (i + 1) s' ∧
        s'.ptable1 = Function.update s.ptable1 ((btocrd virtAddr).toNat + i) (entryOf physAddr i) :=
      ⟨_, rfl, rfl⟩
    rw [hstep, ih, htable]
    by_cases hj : j = (btocrd virtAddr).toNat + i
    · rw [if_neg (by omega), if_pos (by omega), hj, Nat.add_sub_cancel_left]
      exact Function.update_self _ _ _
    · by_cases hin : (btocrd virtAddr).toNat + (i + 1) ≤ j ∧
          j < (btocrd virtAddr).toNat + (i + 1) + left
      · rw [if_pos hin, if_pos (by omega)]
      · rw [if_neg hin, if_neg (by omega)]
        exact Function.update_of_ne hj _ _

/-- The physical address of the `i`-th page, modulo the address space. -/
theorem page_entryOf (h : physAddr.toNat % 4096 = 0) (hi : i < 2 ^ 20) :
    (page (entryOf physAddr i)).toNat = (physAddr.toNat + i * 4096) % 2 ^ 32 := by
  have hctob : (ctob (BitVec.ofNat 32 i)).toNat = i * 4096 := by
    rw [ctob_toNat (by rw [BitVec.toNat_ofNat]; omega), BitVec.toNat_ofNat]
    omega
  have hsum : (physAddr + ctob (BitVec.ofNat 32 i)).toNat =
      (physAddr.toNat + i * 4096) % 2 ^ 32 := by
    rw [BitVec.toNat_add, hctob]
  unfold entryOf
  rw [page_entry (by rw [hsum]; omega), hsum]

/-! ### The checks -/

/-- A size of the CMOS, in bytes. -/
theorem ctob_cmos (n : BitVec 16) :
    (ctob ((n.setWidth 32 + 3) >>> 2)).toNat = (n.toNat + 3) / 4 * 4096 := by
  have hval : ((n.setWidth 32 + 3) >>> 2).toNat = (n.toNat + 3) / 4 := by
    rw [BitVec.toNat_ushiftRight, Nat.shiftRight_eq_div_pow, BitVec.toNat_add,
      BitVec.toNat_setWidth]
    show (n.toNat % 2 ^ 32 + 3) % 2 ^ 32 / 4 = _
    have := n.isLt
    omega
  have := n.isLt
  rw [ctob_toNat (by omega), hval]

theorem physLow_pos (m : Machine) : 0 < m.physLow.toNat := by
  have hlow : 0 < m.lomem.toNat := m.low
  unfold Machine.physLow
  rw [ctob_cmos]
  omega

theorem physLow_lt (m : Machine) : m.physLow.toNat < 2 ^ 31 := by
  have := m.lomem.isLt
  unfold Machine.physLow
  rw [ctob_cmos]
  omega

theorem physHigh_lt (m : Machine) : m.physHigh.toNat < 2 ^ 31 := by
  have := m.extmem.isLt
  unfold Machine.physHigh
  rw [BitVec.toNat_add, ctob_cmos]
  show (_ + 1048576) % 2 ^ 32 < _
  omega

theorem physValid_iff (m : Machine) (base numBytes : Word) :
    physValid m base numBytes = true ↔ m.PHYS_MEM ≠ 0 ∧ m.vpool.toNat ≤ base.toNat ∧
      (base.toNat + numBytes.toNat) % 2 ^ 32 ≤ m.vpool.toNat + m.PHYS_MEM.toNat := by
  unfold physValid
  by_cases hpool : m.PHYS_MEM ≠ 0
  swap
  · rw [if_neg hpool]
    exact ⟨fun h => Bool.noConfusion h, fun h => absurd h.1 hpool⟩
  have hfits := m.fits hpool
  rw [if_pos hpool, decide_eq_true_eq, ge_iff_le, BitVec.le_def, BitVec.le_def, BitVec.toNat_add,
    BitVec.toNat_add m.vpool, Nat.mod_eq_of_lt (by omega : m.vpool.toNat + m.PHYS_MEM.toNat < _)]
  exact ⟨fun h => ⟨hpool, h⟩, fun h => h.2⟩

/-- The check of the physical addresses. -/
theorem physOk_iff (m : Machine) (base numBytes : Word) :
    physOk m base numBytes = true ↔ physValid m base numBytes = true ∨
      m.physLow.toNat ≤ base.toNat ∧ ¬(base.toNat < m.physHigh.toNat ∧
        2 ^ 20 ≤ (base.toNat + numBytes.toNat) % 2 ^ 32 ∧
        (base.toNat + numBytes.toNat) % 2 ^ 32 < 2 ^ 31) := by
  unfold physOk
  by_cases hvalid : physValid m base numBytes = true
  · rw [if_pos hvalid]
    exact ⟨fun _ => Or.inl hvalid, fun _ => rfl⟩
  rw [if_neg hvalid]
  by_cases hlow : base < m.physLow
  · rw [if_pos hlow]
    exact ⟨fun h => Bool.noConfusion h, fun h => h.elim (fun h => absurd h hvalid)
      (fun h => absurd h.1 (not_le.mpr hlow))⟩
  rw [if_neg hlow]
  have hover := sle_iff (base + numBytes)
  rw [BitVec.toNat_add] at hover
  by_cases hhigh : base < m.physHigh ∧ ONE_MEG.sle (base + numBytes) = true
  · rw [if_pos hhigh]
    exact ⟨fun h => Bool.noConfusion h, fun h => h.elim (fun h => absurd h hvalid)
      (fun h => absurd ⟨hhigh.1, hover.mp hhigh.2⟩ h.2)⟩
  · rw [if_neg hhigh]
    exact ⟨fun _ => Or.inr ⟨not_lt.mp hlow, fun h => hhigh ⟨h.1, hover.mpr h.2⟩⟩, fun _ => rfl⟩

/-- **A request that wraps** around the end of the address space is accepted. -/
theorem accepted_of_wraps {base numBytes : Word} (hn : numBytes.toNat < 2 ^ 31)
    (hwraps : 2 ^ 32 < base.toNat + numBytes.toNat) : physOk m base numBytes = true := by
  have hlow := physLow_lt m
  have hhigh := physHigh_lt m
  exact (physOk_iff m base numBytes).mpr (Or.inr ⟨by omega, by omega⟩)

/-! ### The result -/

/-- The call maps no page of installed RAM that is not one of the pool, whatever the tables. -/
def Keeps (m : Machine) (pvalid : Word → Bool) (sr : SR) (virtAddr physAddr numBytes : Word) :
    Prop :=
  ∀ (s : Tables) (j : ℕ) (entry : Word),
    (mapPhysUser m pvalid sr virtAddr physAddr numBytes s).2.ptable1 j = entry →
      entry ≠ s.ptable1 j → m.Ram (page entry) → m.Pool (page entry)

/-- The addresses of the request are aligned, those of the user are in the segment, and there is a
    page. -/
def Asks (sr : SR) (virtAddr physAddr numBytes : Word) : Prop :=
  virtAddr &&& (NBPC - 1) = 0 ∧ physAddr &&& (NBPC - 1) = 0 ∧ sr.base ≤ virtAddr ∧
    virtAddr + roundUp numBytes < sr.base + sr.size ∧ 0 < (roundUp numBytes).toInt

/-- The request does not wrap around the end of the address space; and it does not go from below the
    end of the RAM to the upper half of the address space, or not over RAM that is not in the
    pool. -/
def Plain (m : Machine) (physAddr numBytes : Word) : Prop :=
  physAddr.toNat + (roundUp numBytes).toNat ≤ 2 ^ 32 ∧
    (physAddr.toNat + (roundUp numBytes).toNat < 2 ^ 31 ∨ physAddr < m.physLow ∨
      m.physHigh ≤ physAddr ∨
      ∀ p : Word, p &&& (NBPC - 1) = 0 → physAddr ≤ p → ONE_MEG ≤ p → p < m.physHigh → m.Pool p)

theorem toInt_pos (n : Word) : 0 < n.toInt ↔ 0 < n.toNat ∧ n.toNat < 2 ^ 31 := by
  have := n.isLt
  rw [BitVec.toInt_eq_toNat_cond]
  split_ifs <;> omega

/-- A request that is not refused. -/
theorem mapPhysUser_accepted (h : Asks sr virtAddr physAddr numBytes)
    (hok : physOk m physAddr (roundUp numBytes) = true) (s : Tables) :
    (mapPhysUser m pvalid sr virtAddr physAddr numBytes s).2 =
      mapPages pvalid virtAddr physAddr (btocrd (virtAddr - sr.base))
        ((roundUp numBytes).toNat / 4096) 0 s := by
  obtain ⟨hv, hp, hbase, hend, hpos⟩ := h
  have halign : ¬(virtAddr &&& (NBPC - 1) ≠ 0 ∨ physAddr &&& (NBPC - 1) ≠ 0) :=
    not_or.mpr ⟨not_not.mpr hv, not_not.mpr hp⟩
  have hrange : ¬(virtAddr < sr.base ∨ virtAddr + roundUp numBytes ≥ sr.base + sr.size) :=
    not_or.mpr ⟨BitVec.not_lt.mpr hbase, BitVec.not_le.mpr hend⟩
  unfold mapPhysUser
  rw [if_neg halign]
  simp only
  rw [if_neg hrange, if_neg (by rw [hok]; decide), numPages_eq, if_pos ((toInt_pos _).mp hpos).2]

/-- A request that is refused, or has no pages. -/
theorem mapPhysUser_refused (h : ¬(Asks sr virtAddr physAddr numBytes ∧
    physOk m physAddr (roundUp numBytes) = true)) (s : Tables) :
    (mapPhysUser m pvalid sr virtAddr physAddr numBytes s).2 = s := by
  unfold mapPhysUser
  by_cases halign : virtAddr &&& (NBPC - 1) ≠ 0 ∨ physAddr &&& (NBPC - 1) ≠ 0
  · rw [if_pos halign]
  rw [if_neg halign]
  simp only
  by_cases hrange : virtAddr < sr.base ∨ virtAddr + roundUp numBytes ≥ sr.base + sr.size
  · rw [if_pos hrange]
  rw [if_neg hrange]
  by_cases hok : physOk m physAddr (roundUp numBytes) = false
  · rw [if_pos hok]
  rw [if_neg hok, numPages_eq]
  obtain ⟨hv, hp⟩ := not_or.mp halign
  obtain ⟨hbase, hend⟩ := not_or.mp hrange
  have hpages : (if (roundUp numBytes).toNat < 2 ^ 31 then (roundUp numBytes).toNat / 4096 else 0) =
      0 := by
    by_contra hne
    refine h ⟨⟨not_not.mp hv, not_not.mp hp, BitVec.not_lt.mp hbase, BitVec.not_le.mp hend, ?_⟩,
      eq_true_of_ne_false hok⟩
    rw [toInt_pos]
    split_ifs at hne with hlt
    · exact ⟨by omega, hlt⟩
    · exact absurd rfl hne
  rw [hpages]
  rfl

/-- What the pages of a request that is accepted have to be. -/
theorem keeps_iff_pages (h : Asks sr virtAddr physAddr numBytes)
    (hok : physOk m physAddr (roundUp numBytes) = true) :
    Keeps m pvalid sr virtAddr physAddr numBytes ↔
      ∀ i < (roundUp numBytes).toNat / 4096,
        m.Ram (page (entryOf physAddr i)) → m.Pool (page (entryOf physAddr i)) := by
  unfold Keeps
  simp only [mapPhysUser_accepted h hok, entries_eq, Nat.add_zero]
  constructor
  · intro hkeeps i hi
    -- a table that has no entries yet
    refine hkeeps ⟨fun _ => 0, fun _ => 0, []⟩ ((btocrd virtAddr).toNat + i) _ ?_ (entry_ne_zero _)
    rw [if_pos ⟨Nat.le_add_right _ _, Nat.add_lt_add_left hi _⟩, Nat.add_sub_cancel_left]
  · intro hpages s j entry hentry hne
    split_ifs at hentry with hj
    · subst hentry
      exact hpages _ (by omega)
    · exact absurd hentry.symm hne

/-- The pages of a request that does not wrap. -/
theorem plain_keeps (hp : physAddr.toNat % 4096 = 0) (hn : numBytes.toNat < 2 ^ 31)
    (hok : physOk m physAddr numBytes = true) (hwraps : physAddr.toNat + numBytes.toNat ≤ 2 ^ 32)
    (hplain : physAddr.toNat + numBytes.toNat < 2 ^ 31 ∨ physAddr < m.physLow ∨
      m.physHigh ≤ physAddr ∨
      ∀ p : Word, p &&& (NBPC - 1) = 0 → physAddr ≤ p → ONE_MEG ≤ p → p < m.physHigh → m.Pool p)
    (hi : i < numBytes.toNat / 4096) (hram : m.Ram (page (entryOf physAddr i))) :
    m.Pool (page (entryOf physAddr i)) := by
  have hpage : (page (entryOf physAddr i)).toNat = physAddr.toNat + i * 4096 := by
    rw [page_entryOf hp (by omega)]
    omega
  generalize hq : page (entryOf physAddr i) = q at hpage hram ⊢
  have hlow := physLow_lt m
  have hhigh := physHigh_lt m
  unfold Machine.Ram at hram
  rw [BitVec.lt_def, BitVec.le_def, BitVec.lt_def,
    show ONE_MEG.toNat = 2 ^ 20 from rfl] at hram
  rcases (physOk_iff m physAddr numBytes).mp hok with hvalid | ⟨hle, hover⟩
  · -- the pages of the pool; a request that ends with the address space has no RAM
    obtain ⟨hpool, hbase, hend⟩ := (physValid_iff m physAddr numBytes).mp hvalid
    have hfits := m.fits hpool
    unfold Machine.Pool
    rw [BitVec.le_def]
    omega
  · rcases hplain with hlt | hlt | hlt | hall
    · omega
    · rw [BitVec.lt_def] at hlt
      omega
    · rw [BitVec.le_def] at hlt
      omega
    · refine hall q ((aligned_iff q).mpr (by omega)) ?_ ?_ ?_
      · rw [BitVec.le_def]
        omega
      · rw [BitVec.le_def]
        show 2 ^ 20 ≤ q.toNat
        omega
      · rw [BitVec.lt_def]
        omega

/-- A request that wraps maps the page at the address zero. -/
theorem keeps_fits (hp : physAddr.toNat % 4096 = 0) (hn : numBytes.toNat < 2 ^ 31)
    (hrounded : numBytes.toNat % 4096 = 0)
    (hkeeps : physOk m physAddr numBytes = true → ∀ i < numBytes.toNat / 4096,
      m.Ram (page (entryOf physAddr i)) → m.Pool (page (entryOf physAddr i))) :
    physAddr.toNat + numBytes.toNat ≤ 2 ^ 32 := by
  by_contra hover
  have hok := accepted_of_wraps (m := m) hn (not_le.mp hover)
  have hi : (2 ^ 32 - physAddr.toNat) / 4096 < numBytes.toNat / 4096 := by omega
  have hpage := page_entryOf hp (by omega : (2 ^ 32 - physAddr.toNat) / 4096 < 2 ^ 20)
  have hzero : page (entryOf physAddr ((2 ^ 32 - physAddr.toNat) / 4096)) = 0 := by
    have := physAddr.isLt
    refine BitVec.eq_of_toNat_eq (hpage.trans ?_)
    show _ = 0
    omega
  have hin := hkeeps hok _ hi
  rw [hzero] at hin
  obtain ⟨hbase, hend⟩ := hin (Or.inl (physLow_pos m))
  rw [BitVec.le_def] at hbase
  have hpool : m.PHYS_MEM ≠ 0 := by
    intro hnone
    rw [hnone] at hend
    exact absurd hend (not_lt.mpr hbase)
  have hapart : 4096 ≤ m.vpool.toNat := m.apart hpool
  have hnone : m.vpool.toNat ≤ 0 := hbase
  omega

/-- A request that goes over the RAM to the upper half of the address space maps all of it. -/
theorem keeps_plain (hp : physAddr.toNat % 4096 = 0)
    (hwraps : physAddr.toNat + numBytes.toNat ≤ 2 ^ 32) (hn : numBytes.toNat < 2 ^ 31)
    (hkeeps : physOk m physAddr numBytes = true → ∀ i < numBytes.toNat / 4096,
      m.Ram (page (entryOf physAddr i)) → m.Pool (page (entryOf physAddr i)))
    (hup : ¬ physAddr.toNat + numBytes.toNat < 2 ^ 31) (hlow : ¬ physAddr < m.physLow)
    (hhigh : ¬ m.physHigh ≤ physAddr) {q : Word} (hq : q &&& (NBPC - 1) = 0)
    (hfrom : physAddr ≤ q) (hmeg : ONE_MEG ≤ q) (hto : q < m.physHigh) : m.Pool q := by
  rw [BitVec.lt_def] at hlow
  rw [BitVec.le_def] at hhigh
  have hend := physHigh_lt m
  have hok : physOk m physAddr numBytes = true :=
    (physOk_iff m physAddr numBytes).mpr (Or.inr ⟨by omega, by omega⟩)
  have haligned := (aligned_iff q).mp hq
  have hram : m.Ram q := Or.inr ⟨hmeg, hto⟩
  rw [BitVec.le_def] at hfrom
  rw [BitVec.lt_def] at hto
  have hi : (q.toNat - physAddr.toNat) / 4096 < numBytes.toNat / 4096 := by omega
  have hpage := page_entryOf hp (by omega : (q.toNat - physAddr.toNat) / 4096 < 2 ^ 20)
  have heq : page (entryOf physAddr ((q.toNat - physAddr.toNat) / 4096)) = q := by
    refine BitVec.eq_of_toNat_eq (hpage.trans ?_)
    omega
  have hin := hkeeps hok _ hi
  rw [heq] at hin
  exact hin hram

/-- **`mapPhysUser` maps no installed RAM** that is not in the pool just when the request is refused
    by the alignment or the addresses of the user, or is a plain one. -/
theorem mapPhysUser_keeps_iff (m : Machine) (pvalid : Word → Bool) (sr : SR)
    (virtAddr physAddr numBytes : Word) :
    Keeps m pvalid sr virtAddr physAddr numBytes ↔
      (Asks sr virtAddr physAddr numBytes → Plain m physAddr numBytes) := by
  by_cases hasks : Asks sr virtAddr physAddr numBytes
  swap
  · refine ⟨fun _ h => absurd h hasks, fun _ s j entry hentry hne => ?_⟩
    rw [mapPhysUser_refused (fun h => hasks h.1)] at hentry
    exact absurd hentry.symm hne
  have hp := (aligned_iff physAddr).mp hasks.2.1
  have hn := ((toInt_pos _).mp hasks.2.2.2.2).2
  have hrounded : (roundUp numBytes).toNat % 4096 = 0 := by
    rw [roundUp_toNat]
    omega
  constructor
  · intro hkeeps _
    have hpages := fun hok => (keeps_iff_pages hasks hok).mp hkeeps
    have hwraps := keeps_fits hp hn hrounded hpages
    refine ⟨hwraps, or_iff_not_imp_left.mpr fun hup => or_iff_not_imp_left.mpr fun hlow =>
      or_iff_not_imp_left.mpr fun hhigh q hq hfrom hmeg hto => ?_⟩
    exact keeps_plain hp hwraps hn hpages hup hlow hhigh hq hfrom hmeg hto
  · intro hplain
    obtain ⟨hwraps, hplain⟩ := hplain hasks
    by_cases hok : physOk m physAddr (roundUp numBytes) = true
    · rw [keeps_iff_pages hasks hok]
      exact fun i hi => plain_keeps hp hn hok hwraps hplain hi
    · intro s j entry hentry hne
      rw [mapPhysUser_refused (fun h => hok h.2)] at hentry
      exact absurd hentry.symm hne

/-- A machine with 640 K and 3 MB, and a pool of 64 K. -/
def fourMegs : Machine where
  lomem := 640
  extmem := 3072
  PHYS_MEM := 0x10000
  vpool := 0x200000
  low := by decide
  apart := fun _ => by decide
  fits := fun _ => by decide

/-- Two pages from the last one of the address space on: the second is the one at the address zero.
    -/
theorem mapPhysUser_wraps :
    ¬ Keeps fourMegs (fun _ => true) ⟨0x400000, 0x100000⟩ 0x400000 0xFFFFF000 0x2000 := by
  intro hkeeps
  have hpool := hkeeps ⟨fun _ => 0, fun _ => 0, []⟩ 0x401 0x87 (by decide) (by decide)
    (Or.inl (by decide))
  exact absurd hpool.1 (by decide)

end CohKernel.Mmu.MapPhys
