import CohKernel.Lib.Bytes
import CohKernel.Lib.Words

namespace CohKernel.Ft

open CohKernel.Lib

/-!
# Places on a floppy tape

The conversions of `ftCvt.c`: a logical block of a cartridge, its segment, its track and segment,
and the cylinder, side and sector by which the floppy controller finds it.  They all read one
geometry, which `ftCvtSetFmt` takes from a table and `ftCvtSetFtParms` from the header of the tape.

* `Converts` — two conversions that are inverse to each other;
* `Cvt.Sound` — what the conversions of a geometry are for;
* `sound_iff` — when the conversions are sound after any calls.
-/

/-! ### The geometry -/

/-- `struct FtParm` -/
structure FtParm where
  segPerTrk : ℕ
  tracks : ℕ
  blkPerTrk : ℕ
  heads : ℕ
  cyls : ℕ
deriving DecidableEq

/-- The formats of QIC-80 and QIC-40, with long tapes and short ones. -/
def ftParm : List FtParm :=
  [⟨150, 28, 128, 7, 150⟩, ⟨100, 28, 128, 5, 150⟩, ⟨102, 20, 128, 2, 255⟩, ⟨68, 20, 128, 2, 170⟩]

def FT_BLK_PER_SEG : ℕ := 32

/-- The static variables of `ftCvt.c`. -/
structure Cvt where
  ftP : FtParm
  formatSet : Bool
  ftSegsPerVol : ℤ
  ftBlksPerVol : ℤ

/-- The variables when the driver is loaded. -/
def Cvt.loaded : Cvt := ⟨⟨0, 0, 0, 0, 0⟩, false, 0, 0⟩

/-- The size of the volume is computed. -/
def Cvt.volume (s : Cvt) : Cvt :=
  { s with
    ftSegsPerVol := asInt (s.ftP.segPerTrk * s.ftP.tracks % 2 ^ 32)
    ftBlksPerVol := asInt (s.ftP.segPerTrk * s.ftP.tracks * FT_BLK_PER_SEG % 2 ^ 32) }

/-- `ftCvtSetFmt` -/
def Cvt.ftCvtSetFmt (s : Cvt) (format : ℤ) : ℤ × Cvt :=
  if format < 0 ∨ format ≥ ftParm.length then (-1, { s with formatSet := false })
  else (0, { s with formatSet := true, ftP := ftParm.getD format.toNat s.ftP }.volume)

/-- A parameter that is given, or kept when it is zero. -/
def given (x : Fin (2 ^ 32)) (old : ℕ) : ℕ := if x.val > 0 then x.val else old

/-- `ftCvtSetFtParms` -/
def Cvt.ftCvtSetFtParms (s : Cvt) (spt tracks heads cyls : Fin (2 ^ 32)) : Cvt :=
  { s with
    formatSet := true
    ftP :=
      { s.ftP with
        segPerTrk := given spt s.ftP.segPerTrk
        tracks := given tracks s.ftP.tracks
        heads := given heads s.ftP.heads
        cyls := given cyls s.ftP.cyls } }.volume

/-- A call that sets the geometry. -/
inductive Call where
  | setFmt (format : ℤ)
  | setFtParms (spt tracks heads cyls : Fin (2 ^ 32))

def Cvt.call (s : Cvt) : Call → Cvt
  | .setFmt format => (s.ftCvtSetFmt format).2
  | .setFtParms spt tracks heads cyls => s.ftCvtSetFtParms spt tracks heads cyls

/-- The variables after some calls. -/
def Cvt.after (calls : List Call) : Cvt := calls.foldl Cvt.call Cvt.loaded

/-! ### Conversions -/

/-- `struct ftTapeLocn` -/
structure TapeLocn where
  track : ℕ
  segment : ℕ
  block : ℕ
deriving DecidableEq

/-- `struct ftDiskLocn`, of unsigned characters. -/
structure DiskLocn where
  cylinder : Byte
  head : Byte
  sector : Byte
  secsize : Byte
deriving DecidableEq

/-- What a conversion does: it divides by zero, returns -1, or returns 0 with a result. -/
inductive Conv (α : Type) where
  | fault
  | fail
  | ok (a : α)
deriving DecidableEq

/-- `ftCBlksPerVol` -/
def Cvt.ftCBlksPerVol (s : Cvt) : ℤ := if s.formatSet = true then s.ftBlksPerVol else -1

/-- `ftCDLInc`: the value that it returns, and the position. -/
def Cvt.ftCDLInc (s : Cvt) (d : DiskLocn) : ℤ × DiskLocn :=
  if s.formatSet = false then (-1, d)
  else
    let d := { d with sector := d.sector + 1 }
    if d.sector.val > s.ftP.blkPerTrk then
      -- Over to the next pseudotrack; sectors start at 1.
      let d := { d with sector := 1, cylinder := d.cylinder + 1 }
      if d.cylinder.val ≥ s.ftP.cyls then
        let d := { d with cylinder := 0, head := d.head + 1 }
        if d.head.val ≥ s.ftP.heads then (-1, d) else (0, d)
      else (0, d)
    else (0, d)

/-- `ftCLBtoDL` -/
def Cvt.ftCLBtoDL (s : Cvt) (logicalBlk : ℤ) : Conv DiskLocn :=
  if s.formatSet = false then .fail
  else if logicalBlk < 0 ∨ logicalBlk ≥ s.ftBlksPerVol then .fail
  else if s.ftP.blkPerTrk = 0 ∨ s.ftP.cyls = 0 then .fault
  else
    let blk := logicalBlk.toNat
    .ok
      { sector := byte (blk % s.ftP.blkPerTrk + 1)
        cylinder := byte (blk / s.ftP.blkPerTrk % s.ftP.cyls)
        head := byte (blk / s.ftP.blkPerTrk / s.ftP.cyls)
        secsize := 3 }

/-- `ftCLStoTL` -/
def Cvt.ftCLStoTL (s : Cvt) (logicalSeg : ℤ) : Conv TapeLocn :=
  if s.formatSet = false then .fail
  else if logicalSeg < 0 ∨ logicalSeg ≥ s.ftSegsPerVol then .fail
  else if s.ftP.segPerTrk = 0 then .fault
  else
    let seg := logicalSeg.toNat
    .ok ⟨seg / s.ftP.segPerTrk, seg % s.ftP.segPerTrk, 0⟩

/-- `ftCSectoTL` -/
def Cvt.ftCSectoTL (s : Cvt) (sector : ℤ) : Conv TapeLocn :=
  if s.formatSet = false then .fail
  else if sector < 0 ∨ sector ≥ s.ftBlksPerVol then .fail
  else if s.ftP.segPerTrk = 0 then .fault
  else
    let segment := sector.toNat / FT_BLK_PER_SEG
    .ok
      { block := sector.toNat % FT_BLK_PER_SEG
        segment := segment % s.ftP.segPerTrk
        track := segment / s.ftP.segPerTrk }

/-- `ftCDLtoSec`, by Horner's rule in 32 bits; the sector before 1 is the word of -1. -/
def Cvt.ftCDLtoSec (s : Cvt) (d : DiskLocn) : Conv ℤ :=
  if s.formatSet = false then .fail
  else
    let lsn := d.head.val * s.ftP.cyls % 2 ^ 32
    let lsn := (lsn + d.cylinder.val) % 2 ^ 32
    let lsn := lsn * s.ftP.blkPerTrk % 2 ^ 32
    .ok (asInt ((lsn + (d.sector.val + 2 ^ 32 - 1)) % 2 ^ 32))

/-- `ftCDLtoLS` -/
def Cvt.ftCDLtoLS (s : Cvt) (d : DiskLocn) : Conv ℤ :=
  match s.ftCDLtoSec d with
  | .ok lsn => .ok (lsn.tdiv FT_BLK_PER_SEG)
  | .fail => .fail
  | .fault => .fault

/-! ### What they are for -/

/-- Two conversions are inverse to each other, between `A` and `B`. -/
def Converts {α β : Type} (A : Set α) (f : α → Conv β) (B : Set β) (g : β → Conv α) : Prop :=
  (∀ a ∈ A, ∃ b ∈ B, f a = .ok b ∧ g b = .ok a) ∧ ∀ b ∈ B, ∃ a ∈ A, g b = .ok a ∧ f a = .ok b

/-- The blocks of a volume. -/
def Cvt.blocks (s : Cvt) : Set ℤ := {b | 0 ≤ b ∧ b < s.ftCBlksPerVol}

/-- The places for the floppy controller. -/
def Cvt.disk (s : Cvt) : Set DiskLocn :=
  {d | d.cylinder.val < s.ftP.cyls ∧ d.head.val < s.ftP.heads ∧
    1 ≤ d.sector.val ∧ d.sector.val ≤ s.ftP.blkPerTrk ∧ d.secsize = 3}

/-- The places on the tape. -/
def Cvt.tape (s : Cvt) : Set TapeLocn :=
  {t | t.track < s.ftP.tracks ∧ t.segment < s.ftP.segPerTrk ∧ t.block < FT_BLK_PER_SEG}

/-- The block at a place on the tape: the segments of the tracks one after the other. -/
def Cvt.tapeBlock (s : Cvt) (t : TapeLocn) : ℤ :=
  (((t.track * s.ftP.segPerTrk + t.segment) * FT_BLK_PER_SEG + t.block : ℕ) : ℤ)

/-- The conversions of a geometry: no divisor is zero, each way of naming a block is a bijection,
    they agree, and `ftCDLInc` goes to the place of the next block, and fails at the last one. -/
structure Cvt.Sound (s : Cvt) : Prop where
  divisors : s.ftP.segPerTrk ≠ 0 ∧ s.ftP.blkPerTrk ≠ 0 ∧ s.ftP.cyls ≠ 0
  disk : Converts s.blocks s.ftCLBtoDL s.disk s.ftCDLtoSec
  tape : Converts s.blocks s.ftCSectoTL s.tape fun t => .ok (s.tapeBlock t)
  segments : ∀ (seg : ℤ) (blk : ℕ), 0 ≤ seg → seg < s.ftSegsPerVol → blk < FT_BLK_PER_SEG →
    seg * FT_BLK_PER_SEG + blk ∈ s.blocks ∧
      ∃ t, s.ftCLStoTL seg = .ok t ∧
        s.ftCSectoTL (seg * FT_BLK_PER_SEG + blk) = .ok { t with block := blk }
  segment : ∀ b ∈ s.blocks, ∀ d, s.ftCLBtoDL b = .ok d →
    s.ftCDLtoLS d = .ok (b / FT_BLK_PER_SEG) ∧ b / FT_BLK_PER_SEG < s.ftSegsPerVol
  next : ∀ b ∈ s.blocks, ∀ d, s.ftCLBtoDL b = .ok d →
    if b + 1 < s.ftCBlksPerVol then
      (s.ftCDLInc d).1 = 0 ∧ s.ftCLBtoDL (b + 1) = .ok (s.ftCDLInc d).2
    else (s.ftCDLInc d).1 = -1

/-- The geometry of the tape is that of its pseudo floppy, whose cylinders and sides fit in unsigned
    characters that can go one further; the number of sectors of a pseudotrack has been set. -/
def Cvt.Fits (s : Cvt) : Prop :=
  s.ftP.blkPerTrk ≠ 0 ∧ s.ftP.cyls < 256 ∧ s.ftP.heads < 256 ∧
    s.ftP.segPerTrk * s.ftP.tracks * FT_BLK_PER_SEG = s.ftP.heads * s.ftP.cyls * s.ftP.blkPerTrk

/-! ### What the calls leave -/

/-- What holds of the geometry after any calls. -/
structure Cvt.Inv (s : Cvt) : Prop where
  table : s.ftP.blkPerTrk ≠ 0 → s.ftP.blkPerTrk = 128 ∧ 0 < s.ftP.segPerTrk ∧ 0 < s.ftP.tracks ∧
    0 < s.ftP.heads ∧ 0 < s.ftP.cyls
  volume : s.formatSet = true → s.volume = s

variable {s : Cvt}

theorem given_pos {old : ℕ} (h : 0 < old) (x : Fin (2 ^ 32)) : 0 < given x old := by
  unfold given
  split_ifs with hx
  · exact hx
  · exact h

/-- Every format of the table has 128 sectors in a pseudotrack. -/
theorem ftParm_table : ∀ p ∈ ftParm, p.blkPerTrk = 128 ∧ 0 < p.segPerTrk ∧ 0 < p.tracks ∧
    0 < p.heads ∧ 0 < p.cyls := by decide

/-- A call keeps the invariant. -/
theorem Cvt.Inv.call (h : s.Inv) (c : Call) : (s.call c).Inv := by
  cases c with
  | setFmt format =>
    show (s.ftCvtSetFmt format).2.Inv
    unfold Cvt.ftCvtSetFmt
    split_ifs with hf
    · exact ⟨h.table, fun hset => absurd hset Bool.false_ne_true⟩
    · refine ⟨fun _ => ?_, fun _ => rfl⟩
      apply ftParm_table
      have hlt : format.toNat < ftParm.length := by omega
      show ftParm.getD format.toNat s.ftP ∈ ftParm
      rw [← List.getElem_eq_getD (h := hlt)]
      exact List.getElem_mem hlt
  | setFtParms spt tracks heads cyls =>
    refine ⟨fun hne => ?_, fun _ => rfl⟩
    obtain ⟨hblk, hspt, htracks, hheads, hcyls⟩ := h.table hne
    exact ⟨hblk, given_pos hspt _, given_pos htracks _, given_pos hheads _, given_pos hcyls _⟩

theorem reached (calls : List Call) : (Cvt.after calls).Inv := by
  have hrun : ∀ s : Cvt, s.Inv → (calls.foldl Cvt.call s).Inv := by
    induction calls with
    | nil => exact fun s h => h
    | cons c cs ih => exact fun s h => ih _ (h.call c)
  exact hrun _ ⟨fun h => absurd rfl h, fun h => absurd h Bool.false_ne_true⟩

/-! ### Digits -/

theorem byte_val {n : ℕ} (h : n < 256) : (byte n).val = n := Nat.mod_eq_of_lt h

/-- The byte after another one. -/
theorem val_succ (b : Byte) : (b + 1).val = if b.val = 255 then 0 else b.val + 1 := by
  rw [Fin.val_add]
  have := b.isLt
  show (b.val + 1) % 256 = _
  split_ifs <;> omega

/-- The place with a side, a cylinder and a sector from 0. -/
def locn (head cyl sector : ℕ) : DiskLocn := ⟨byte cyl, byte head, byte (sector + 1), 3⟩

theorem div_digits {q r m : ℕ} (h : r < m) : (q * m + r) / m = q ∧ (q * m + r) % m = r := by
  rw [Nat.mul_comm]
  constructor
  · rw [Nat.mul_add_div (by omega), Nat.div_eq_of_lt h, Nat.add_zero]
  · rw [Nat.mul_add_mod, Nat.mod_eq_of_lt h]

section
variable (hset : s.formatSet = true)
include hset

theorem mem_blocks {b : ℤ} : b ∈ s.blocks ↔ 0 ≤ b ∧ b < s.ftBlksPerVol := by
  show 0 ≤ b ∧ b < s.ftCBlksPerVol ↔ _
  rw [Cvt.ftCBlksPerVol, if_pos hset]

/-- The sector at a place. -/
theorem ftCDLtoSec_eq (d : DiskLocn) (hsec : 1 ≤ d.sector.val) : s.ftCDLtoSec d =
    .ok (asInt (((d.head.val * s.ftP.cyls + d.cylinder.val) * s.ftP.blkPerTrk +
      (d.sector.val - 1)) % 2 ^ 32)) := by
  have hnot : ¬s.formatSet = false := by rw [hset]; decide
  have hsucc : d.sector.val + 2 ^ 32 - 1 = d.sector.val - 1 + 2 ^ 32 := by omega
  rw [Cvt.ftCDLtoSec, if_neg hnot]
  simp only [hsucc, ← Nat.add_assoc, Nat.add_mod_right]
  have hmod : ∀ x k : ℕ, (x % 2 ^ 32 * s.ftP.blkPerTrk + k) % 2 ^ 32 =
      (x * s.ftP.blkPerTrk + k) % 2 ^ 32 := fun x k =>
    ((Nat.mod_modEq x (2 ^ 32)).mul_right s.ftP.blkPerTrk).add_right k
  rw [Nat.mod_add_mod, Nat.mod_add_mod, hmod]

/-- The sector at a place that is not too far. -/
theorem ftCDLtoSec_locn {h c k : ℕ} (hh : h < 256) (hc : c < 256) (hk : k < 255)
    (hsmall : (h * s.ftP.cyls + c) * s.ftP.blkPerTrk + k < 2 ^ 31) :
    s.ftCDLtoSec (locn h c k) =
      .ok (((h * s.ftP.cyls + c) * s.ftP.blkPerTrk + k : ℕ) : ℤ) := by
  have hsec : (byte (k + 1)).val = k + 1 := byte_val (by omega)
  rw [ftCDLtoSec_eq hset _ (by show 1 ≤ (byte (k + 1)).val; omega)]
  show Conv.ok (asInt ((((byte h).val * s.ftP.cyls + (byte c).val) * s.ftP.blkPerTrk +
    ((byte (k + 1)).val - 1)) % 2 ^ 32)) = _
  rw [byte_val hh, byte_val hc, hsec, Nat.add_sub_cancel, Nat.mod_eq_of_lt (by omega),
    asInt_small hsmall]

/-- The place of a sector. -/
theorem ftCLBtoDL_locn {h c k : ℕ} (hc : c < s.ftP.cyls) (hk : k < s.ftP.blkPerTrk)
    (hcap : (((h * s.ftP.cyls + c) * s.ftP.blkPerTrk + k : ℕ) : ℤ) < s.ftBlksPerVol) :
    s.ftCLBtoDL (((h * s.ftP.cyls + c) * s.ftP.blkPerTrk + k : ℕ) : ℤ) = .ok (locn h c k) := by
  have hnot : ¬s.formatSet = false := by rw [hset]; decide
  obtain ⟨hdiv, hmod⟩ := div_digits (q := h * s.ftP.cyls + c) hk
  obtain ⟨hdiv', hmod'⟩ := div_digits (q := h) hc
  rw [Cvt.ftCLBtoDL, if_neg hnot, if_neg (by omega), if_neg (by omega)]
  simp only [Int.toNat_natCast]
  rw [hdiv, hmod, hdiv', hmod']
  rfl

/-! ### One further -/

/-- To the next sector of a pseudotrack. -/
theorem ftCDLInc_sector {h c k : ℕ} (hk : k + 1 < s.ftP.blkPerTrk) (hlt : k + 2 < 256) :
    s.ftCDLInc (locn h c k) = (0, locn h c (k + 1)) := by
  have hnot : ¬s.formatSet = false := by rw [hset]; decide
  have hsec : (byte (k + 1)).val = k + 1 := byte_val (by omega)
  have hnext : byte (k + 1) + 1 = byte (k + 2) := by
    apply Fin.ext
    rw [val_succ, hsec, byte_val hlt, if_neg (by omega)]
  rw [Cvt.ftCDLInc, if_neg hnot]
  show (if (byte (k + 1) + 1).val > s.ftP.blkPerTrk then _ else _) = _
  rw [hnext, byte_val hlt, if_neg (by omega)]
  show (0, (⟨byte c, byte h, byte (k + 1) + 1, 3⟩ : DiskLocn)) = _
  rw [hnext]
  rfl

/-- Over the end of a pseudotrack. -/
theorem ftCDLInc_over {d : DiskLocn} (h : (d.sector + 1).val > s.ftP.blkPerTrk) :
    s.ftCDLInc d =
      if (d.cylinder + 1).val ≥ s.ftP.cyls then
        (if (d.head + 1).val ≥ s.ftP.heads then -1 else 0, ⟨0, d.head + 1, 1, d.secsize⟩)
      else (0, ⟨d.cylinder + 1, d.head, 1, d.secsize⟩) := by
  have hnot : ¬s.formatSet = false := by rw [hset]; decide
  rw [Cvt.ftCDLInc, if_neg hnot]
  simp only [if_pos h]
  split_ifs <;> rfl

end

/-! ### Sound conversions -/

theorem last_row {m n : ℕ} (hm : 0 < m) (hn : 0 < n) : (m - 1) * n + (n - 1) + 1 = m * n := by
  obtain ⟨k, rfl⟩ := Nat.exists_eq_add_of_lt hm
  rw [Nat.zero_add, Nat.add_sub_cancel, Nat.add_mul]
  omega

section
variable (hset : s.formatSet = true)
include hset

/-- The first place does not come after another one. -/
theorem Cvt.Sound.not_wrapped (h : s.Sound) {d : DiskLocn} (hd : d ∈ s.disk) :
    s.ftCDLInc d ≠ (0, locn 0 0 0) := fun hinc => by
  obtain ⟨b, hb, -, hto⟩ := h.disk.2 d hd
  have hnext := h.next b hb d hto
  rw [hinc] at hnext
  have hpos := hb.1
  split_ifs at hnext with hcap
  obtain ⟨d', -, hd', hsec⟩ := h.disk.1 (b + 1) ⟨by omega, hcap⟩
  have hzero : s.ftCDLtoSec (locn 0 0 0) = .ok 0 := by
    rw [ftCDLtoSec_locn hset (by decide) (by decide) (by decide) (by simp)]
    simp
  obtain rfl := Conv.ok.inj (hnext.2.symm.trans hd')
  have heq := Conv.ok.inj (hzero.symm.trans hsec)
  omega

variable (hblk : s.ftP.blkPerTrk = 128)
include hblk

/-- There are fewer than 256 cylinders. -/
theorem Cvt.Sound.cyls_lt (h : s.Sound) (hheads : 0 < s.ftP.heads) : s.ftP.cyls < 256 := by
  by_contra hge
  have hd : (⟨255, 0, 128, 3⟩ : DiskLocn) ∈ s.disk := by
    refine ⟨?_, hheads, by decide, by rw [hblk]; decide, rfl⟩
    show 255 < s.ftP.cyls
    omega
  refine h.not_wrapped hset hd ?_
  rw [ftCDLInc_over hset (by rw [hblk]; decide), if_neg]
  · rfl
  · show ¬0 ≥ s.ftP.cyls
    omega

omit hset in
/-- The place with the last cylinder and the last sector of a side. -/
theorem disk_last {i : ℕ} (hc : 0 < s.ftP.cyls) (hcyls : s.ftP.cyls < 256)
    (hi : i < s.ftP.heads) (hlt : i < 256) : locn i (s.ftP.cyls - 1) 127 ∈ s.disk := by
  refine ⟨?_, ?_, ?_, ?_, rfl⟩
  · show (byte (s.ftP.cyls - 1)).val < _
    rw [byte_val (by omega)]
    omega
  · show (byte i).val < _
    rwa [byte_val hlt]
  · show 1 ≤ (byte 128).val
    decide
  · show (byte 128).val ≤ _
    rw [hblk]
    decide

/-- Over the end of a side. -/
theorem ftCDLInc_last {i : ℕ} (hc : 0 < s.ftP.cyls) (hcyls : s.ftP.cyls < 256) :
    s.ftCDLInc (locn i (s.ftP.cyls - 1) 127) =
      (if (byte i + 1).val ≥ s.ftP.heads then -1 else 0, ⟨0, byte i + 1, 1, 3⟩) := by
  have hsec : (byte 128 + 1).val > s.ftP.blkPerTrk := by rw [hblk]; decide
  rw [ftCDLInc_over hset hsec, if_pos]
  · rfl
  · show (byte (s.ftP.cyls - 1) + 1).val ≥ _
    rw [val_succ, byte_val (by omega), if_neg (by omega)]
    omega

/-- There are fewer than 256 sides. -/
theorem Cvt.Sound.heads_lt (h : s.Sound) (hc : 0 < s.ftP.cyls) (hcyls : s.ftP.cyls < 256) :
    s.ftP.heads < 256 := by
  by_contra hge
  refine h.not_wrapped hset (disk_last hblk (i := 255) hc hcyls (by omega) (by decide)) ?_
  rw [ftCDLInc_last hset hblk hc hcyls, if_neg]
  · rfl
  · show ¬0 ≥ s.ftP.heads
    omega

/-- The volume is that of the pseudo floppy. -/
theorem Cvt.Sound.blocks_disk (h : s.Sound) (hc : 0 < s.ftP.cyls) (hcyls : s.ftP.cyls < 256)
    (hheads : 0 < s.ftP.heads) (hlt : s.ftP.heads < 256) :
    s.ftCBlksPerVol = ((s.ftP.heads * s.ftP.cyls * 128 : ℕ) : ℤ) := by
  obtain ⟨b, hb, hsec, hto⟩ := h.disk.2 _
    (disk_last hblk (i := s.ftP.heads - 1) hc hcyls (by omega) (by omega))
  have hlast : (s.ftP.heads - 1) * s.ftP.cyls + (s.ftP.cyls - 1) + 1 =
      s.ftP.heads * s.ftP.cyls := last_row hheads hc
  have hsmall : s.ftP.heads * s.ftP.cyls ≤ 255 * 255 :=
    Nat.mul_le_mul (by omega) (by omega)
  rw [ftCDLtoSec_locn hset (by omega) (by omega) (by decide) (by rw [hblk]; omega), hblk] at hsec
  have hb' := Conv.ok.inj hsec
  have hend := h.next b hb _ hto
  have hge : (byte (s.ftP.heads - 1) + 1).val ≥ s.ftP.heads := by
    rw [val_succ, byte_val (by omega), if_neg (by omega)]
    omega
  rw [ftCDLInc_last hset hblk hc hcyls, if_pos hge] at hend
  have hcap : ¬b + 1 < s.ftCBlksPerVol := fun hcap => by
    rw [if_pos hcap] at hend
    exact absurd hend.1 nofun
  have := hb.2
  omega

end

/-- The volume is that of the tape. -/
theorem Cvt.Sound.blocks_tape (h : s.Sound) (hspt : 0 < s.ftP.segPerTrk)
    (htracks : 0 < s.ftP.tracks) (hcap : 0 < s.ftCBlksPerVol) :
    s.ftCBlksPerVol = ((s.ftP.segPerTrk * s.ftP.tracks * FT_BLK_PER_SEG : ℕ) : ℤ) := by
  have hblocks : FT_BLK_PER_SEG = 32 := rfl
  have hmem : (⟨s.ftP.tracks - 1, s.ftP.segPerTrk - 1, 31⟩ : TapeLocn) ∈ s.tape :=
    ⟨Nat.sub_lt htracks Nat.one_pos, Nat.sub_lt hspt Nat.one_pos, Nat.lt_succ_self 31⟩
  obtain ⟨b, hb, hto, -⟩ := h.tape.2 _ hmem
  obtain ⟨t, ⟨ht, hs, hk⟩, -, hback⟩ := h.tape.1 (s.ftCBlksPerVol - 1) ⟨by omega, by omega⟩
  have hlast : (s.ftP.tracks - 1) * s.ftP.segPerTrk + (s.ftP.segPerTrk - 1) + 1 =
      s.ftP.segPerTrk * s.ftP.tracks := (last_row htracks hspt).trans (Nat.mul_comm _ _)
  have htop : t.track * s.ftP.segPerTrk + t.segment + 1 ≤ s.ftP.segPerTrk * s.ftP.tracks := by
    calc t.track * s.ftP.segPerTrk + t.segment + 1 ≤ (t.track + 1) * s.ftP.segPerTrk := by
          rw [Nat.add_mul]
          omega
      _ ≤ s.ftP.tracks * s.ftP.segPerTrk := Nat.mul_le_mul_right _ ht
      _ = s.ftP.segPerTrk * s.ftP.tracks := Nat.mul_comm _ _
  have hfirst := Conv.ok.inj hto
  have hsecond := Conv.ok.inj hback
  unfold Cvt.tapeBlock at hfirst hsecond
  simp only [hblocks] at hfirst hsecond hk ⊢
  have := hb.2
  omega

/-- Sound conversions have a geometry that fits. -/
theorem Cvt.Sound.fits (h : s.Sound) (hinv : s.Inv) (hset : s.formatSet = true) : s.Fits := by
  obtain ⟨hblk, hspt, htracks, hheads, hc⟩ := hinv.table h.divisors.2.1
  have hcyls := h.cyls_lt hset hblk hheads
  have hlt := h.heads_lt hset hblk hc hcyls
  have hdisk := h.blocks_disk hset hblk hc hcyls hheads hlt
  have hpos : 0 < s.ftP.heads * s.ftP.cyls := Nat.mul_pos hheads hc
  have htape := h.blocks_tape hspt htracks (by omega)
  refine ⟨h.divisors.2.1, hcyls, hlt, ?_⟩
  rw [hblk]
  exact_mod_cast htape.symm.trans hdisk

/-! ### A geometry that fits -/

/-- The sizes of a geometry that fits. -/
structure Cvt.Shape (s : Cvt) : Prop where
  formatSet : s.formatSet = true
  blk : s.ftP.blkPerTrk = 128
  spt : 0 < s.ftP.segPerTrk
  heads : s.ftP.heads < 256
  cyls : s.ftP.cyls < 256
  cyls_pos : 0 < s.ftP.cyls
  blocks : s.ftBlksPerVol = ((s.ftP.heads * s.ftP.cyls * 128 : ℕ) : ℤ)
  segs : s.ftSegsPerVol = ((s.ftP.segPerTrk * s.ftP.tracks : ℕ) : ℤ)
  same : s.ftP.segPerTrk * s.ftP.tracks * 32 = s.ftP.heads * s.ftP.cyls * 128

theorem Cvt.Fits.shape (h : s.Fits) (hinv : s.Inv) (hset : s.formatSet = true) : s.Shape := by
  obtain ⟨hne, hcyls, hheads, hsame⟩ := h
  obtain ⟨hblk, hspt, -, -, hc⟩ := hinv.table hne
  have hunit : FT_BLK_PER_SEG = 32 := rfl
  rw [hblk, hunit] at hsame
  have hsmall : s.ftP.heads * s.ftP.cyls ≤ 255 * 255 := Nat.mul_le_mul (by omega) (by omega)
  have hvolume := hinv.volume hset
  have hblocks := congrArg Cvt.ftBlksPerVol hvolume
  have hsegs := congrArg Cvt.ftSegsPerVol hvolume
  simp only [Cvt.volume] at hblocks hsegs
  rw [hunit, hsame, Nat.mod_eq_of_lt (by omega), asInt_small (by omega)] at hblocks
  rw [Nat.mod_eq_of_lt (by omega), asInt_small (by omega)] at hsegs
  exact ⟨hset, hblk, hspt, hheads, hcyls, hc, hblocks.symm, hsegs.symm, hsame⟩

theorem Cvt.Shape.mem (h : s.Shape) {n : ℕ} :
    (n : ℤ) ∈ s.blocks ↔ n < s.ftP.heads * s.ftP.cyls * 128 := by
  rw [mem_blocks h.formatSet, h.blocks]
  omega

theorem rows {i j m n : ℕ} (hi : i < m) (hj : j < n) : i * n + j < m * n := by
  calc i * n + j < (i + 1) * n := by
        rw [Nat.add_mul]
        omega
    _ ≤ m * n := Nat.mul_le_mul_right n hi

/-- A place of the pseudo floppy is in the volume. -/
theorem Cvt.Shape.lt (h : s.Shape) {i c k : ℕ} (hi : i < s.ftP.heads) (hc : c < s.ftP.cyls)
    (hk : k < 128) : ((((i * s.ftP.cyls + c) * 128 + k : ℕ) : ℤ)) ∈ s.blocks :=
  h.mem.mpr (rows (rows hi hc) hk)

/-- The side, the cylinder and the sector of a block. -/
theorem Cvt.Shape.digits (h : s.Shape) {b : ℤ} (hb : b ∈ s.blocks) :
    ∃ i c k, i < s.ftP.heads ∧ c < s.ftP.cyls ∧ k < 128 ∧
      b = (((i * s.ftP.cyls + c) * 128 + k : ℕ) : ℤ) := by
  obtain ⟨n, rfl⟩ := Int.eq_ofNat_of_zero_le hb.1
  have hn := h.mem.mp hb
  have hrow : n / 128 < s.ftP.heads * s.ftP.cyls := by omega
  refine ⟨n / 128 / s.ftP.cyls, n / 128 % s.ftP.cyls, n % 128, ?_, Nat.mod_lt _ h.cyls_pos,
    Nat.mod_lt _ (by decide), ?_⟩
  · exact Nat.div_lt_of_lt_mul ((Nat.mul_comm _ _).symm ▸ hrow)
  · rw [Nat.mul_comm (n / 128 / s.ftP.cyls), Nat.div_add_mod, Nat.mul_comm (n / 128),
      Nat.div_add_mod]

theorem Cvt.Shape.toDL (h : s.Shape) {i c k : ℕ} (hi : i < s.ftP.heads) (hc : c < s.ftP.cyls)
    (hk : k < 128) : s.ftCLBtoDL (((i * s.ftP.cyls + c) * 128 + k : ℕ) : ℤ) = .ok (locn i c k) := by
  have hcap := ((mem_blocks h.formatSet).mp (h.lt hi hc hk)).2
  rw [← h.blk] at hk hcap ⊢
  exact ftCLBtoDL_locn h.formatSet hc hk hcap

theorem Cvt.Shape.toSec (h : s.Shape) {i c k : ℕ} (hi : i < s.ftP.heads) (hc : c < s.ftP.cyls)
    (hk : k < 128) : s.ftCDLtoSec (locn i c k) =
      .ok (((i * s.ftP.cyls + c) * 128 + k : ℕ) : ℤ) := by
  have hlt := h.mem.mp (h.lt hi hc hk)
  have hheads := h.heads
  have hcyls := h.cyls
  have hsmall : s.ftP.heads * s.ftP.cyls ≤ 255 * 255 := Nat.mul_le_mul (by omega) (by omega)
  rw [ftCDLtoSec_locn h.formatSet (by omega) (by omega) (by omega) (by rw [h.blk]; omega), h.blk]

/-- Blocks and places of the pseudo floppy. -/
theorem Cvt.Shape.disk (h : s.Shape) : Converts s.blocks s.ftCLBtoDL s.disk s.ftCDLtoSec := by
  have hheads := h.heads
  have hcyls := h.cyls
  refine ⟨fun b hb => ?_, fun d hd => ?_⟩
  · obtain ⟨i, c, k, hi, hc, hk, rfl⟩ := h.digits hb
    have hsec : (byte (k + 1)).val = k + 1 := byte_val (by omega)
    refine ⟨locn i c k, ⟨?_, ?_, ?_, ?_, rfl⟩, h.toDL hi hc hk, h.toSec hi hc hk⟩
    · show (byte c).val < _
      rwa [byte_val (by omega)]
    · show (byte i).val < _
      rwa [byte_val (by omega)]
    · show 1 ≤ (byte (k + 1)).val
      omega
    · show (byte (k + 1)).val ≤ _
      rw [h.blk]
      omega
  · obtain ⟨hc, hi, hlow, hhigh, hsize⟩ := hd
    rw [h.blk] at hhigh
    have hback : ∀ x : Byte, byte x.val = x := fun x => Fin.ext (byte_val x.isLt)
    have hd : d = locn d.head.val d.cylinder.val (d.sector.val - 1) := by
      rw [locn, hback, hback, Nat.sub_add_cancel hlow, hback, ← hsize]
    have hk : d.sector.val - 1 < 128 := by omega
    rw [hd]
    exact ⟨_, h.lt hi hc hk, h.toSec hi hc hk, h.toDL hi hc hk⟩

/-- The track, the segment and the block of a block. -/
theorem Cvt.Shape.toTL (h : s.Shape) {i c k : ℕ} (hc : c < s.ftP.segPerTrk) (hk : k < 32)
    (hmem : (((i * s.ftP.segPerTrk + c) * 32 + k : ℕ) : ℤ) ∈ s.blocks) :
    s.ftCSectoTL (((i * s.ftP.segPerTrk + c) * 32 + k : ℕ) : ℤ) = .ok ⟨i, c, k⟩ := by
  have hnot : ¬s.formatSet = false := by rw [h.formatSet]; decide
  have hcap := ((mem_blocks h.formatSet).mp hmem).2
  have hunit : FT_BLK_PER_SEG = 32 := rfl
  have hspt := h.spt
  obtain ⟨hdiv, hmod⟩ := div_digits (q := i * s.ftP.segPerTrk + c) hk
  obtain ⟨hdiv', hmod'⟩ := div_digits (q := i) hc
  rw [Cvt.ftCSectoTL, if_neg hnot, if_neg (by omega), if_neg (by omega)]
  simp only [Int.toNat_natCast, hunit]
  rw [hdiv, hmod, hdiv', hmod']

/-- Blocks and places on the tape. -/
theorem Cvt.Shape.tape (h : s.Shape) :
    Converts s.blocks s.ftCSectoTL s.tape fun t => .ok (s.tapeBlock t) := by
  have hspt := h.spt
  have hsame : s.ftP.tracks * s.ftP.segPerTrk * 32 = s.ftP.heads * s.ftP.cyls * 128 := by
    rw [Nat.mul_comm s.ftP.tracks, h.same]
  refine ⟨fun b hb => ?_, fun t ht => ?_⟩
  · obtain ⟨n, rfl⟩ := Int.eq_ofNat_of_zero_le hb.1
    have hn := h.mem.mp hb
    have hback : (n / 32 / s.ftP.segPerTrk * s.ftP.segPerTrk + n / 32 % s.ftP.segPerTrk) * 32 +
        n % 32 = n := by
      rw [Nat.mul_comm (n / 32 / s.ftP.segPerTrk), Nat.div_add_mod, Nat.mul_comm (n / 32),
        Nat.div_add_mod]
    have hc : n / 32 % s.ftP.segPerTrk < s.ftP.segPerTrk := Nat.mod_lt _ hspt
    have hk : n % 32 < 32 := Nat.mod_lt _ (by decide)
    refine ⟨⟨n / 32 / s.ftP.segPerTrk, n / 32 % s.ftP.segPerTrk, n % 32⟩, ⟨?_, hc, hk⟩, ?_, ?_⟩
    · have hrow : n / 32 < s.ftP.tracks * s.ftP.segPerTrk := by omega
      exact Nat.div_lt_of_lt_mul ((Nat.mul_comm _ _).symm ▸ hrow)
    · have hto := h.toTL (i := n / 32 / s.ftP.segPerTrk) hc hk (by rw [hback]; exact hb)
      rwa [hback] at hto
    · exact congrArg (fun m : ℕ => Conv.ok (m : ℤ)) hback
  · have hmem : s.tapeBlock t ∈ s.blocks := by
      refine h.mem.mpr ?_
      rw [← hsame]
      exact rows (rows ht.1 ht.2.1) ht.2.2
    exact ⟨s.tapeBlock t, hmem, rfl, h.toTL ht.2.1 ht.2.2 hmem⟩

/-- Segments and blocks in them. -/
theorem Cvt.Shape.segments (h : s.Shape) (seg : ℤ) (blk : ℕ) (hlow : 0 ≤ seg)
    (hseg : seg < s.ftSegsPerVol) (hblk : blk < FT_BLK_PER_SEG) :
    seg * FT_BLK_PER_SEG + blk ∈ s.blocks ∧
      ∃ t, s.ftCLStoTL seg = .ok t ∧
        s.ftCSectoTL (seg * FT_BLK_PER_SEG + blk) = .ok { t with block := blk } := by
  have hnot : ¬s.formatSet = false := by rw [h.formatSet]; decide
  have hunit : FT_BLK_PER_SEG = 32 := rfl
  have hspt := h.spt
  have hsame := h.same
  obtain ⟨n, rfl⟩ := Int.eq_ofNat_of_zero_le hlow
  rw [hunit] at hblk
  have hrow := hseg
  rw [h.segs] at hrow
  have hsum : (n : ℤ) * FT_BLK_PER_SEG + blk = ((n * 32 + blk : ℕ) : ℤ) := by
    rw [hunit]
    push_cast
    rfl
  have hmem : ((n * 32 + blk : ℕ) : ℤ) ∈ s.blocks := h.mem.mpr (by omega)
  have hback : (n / s.ftP.segPerTrk * s.ftP.segPerTrk + n % s.ftP.segPerTrk) * 32 + blk =
      n * 32 + blk := by
    rw [Nat.mul_comm (n / s.ftP.segPerTrk), Nat.div_add_mod]
  have hto := h.toTL (i := n / s.ftP.segPerTrk) (Nat.mod_lt n hspt) hblk (by rwa [hback])
  rw [hback] at hto
  rw [hsum]
  refine ⟨hmem, ⟨n / s.ftP.segPerTrk, n % s.ftP.segPerTrk, 0⟩, ?_, hto⟩
  rw [Cvt.ftCLStoTL, if_neg hnot, if_neg (by omega), if_neg (by omega)]
  simp only [Int.toNat_natCast]

/-- The segment of a place of the pseudo floppy. -/
theorem Cvt.Shape.segment (h : s.Shape) {b : ℤ} (hb : b ∈ s.blocks) {d : DiskLocn}
    (hd : s.ftCLBtoDL b = .ok d) :
    s.ftCDLtoLS d = .ok (b / FT_BLK_PER_SEG) ∧ b / FT_BLK_PER_SEG < s.ftSegsPerVol := by
  obtain ⟨i, c, k, hi, hc, hk, rfl⟩ := h.digits hb
  obtain rfl := Conv.ok.inj ((h.toDL hi hc hk).symm.trans hd)
  have hlt := h.mem.mp hb
  have hsame := h.same
  constructor
  · rw [Cvt.ftCDLtoLS, h.toSec hi hc hk]
    exact congrArg Conv.ok (Int.tdiv_eq_ediv_of_nonneg (Int.natCast_nonneg _))
  · rw [h.segs]
    show ((_ : ℕ) : ℤ) / ((32 : ℕ) : ℤ) < _
    omega

/-- The place of the next block. -/
theorem Cvt.Shape.next (h : s.Shape) {b : ℤ} (hb : b ∈ s.blocks) {d : DiskLocn}
    (hd : s.ftCLBtoDL b = .ok d) :
    if b + 1 < s.ftCBlksPerVol then
      (s.ftCDLInc d).1 = 0 ∧ s.ftCLBtoDL (b + 1) = .ok (s.ftCDLInc d).2
    else (s.ftCDLInc d).1 = -1 := by
  have hheads := h.heads
  have hcyls := h.cyls
  have hpos := h.cyls_pos
  have hcap : s.ftCBlksPerVol = ((s.ftP.heads * s.ftP.cyls * 128 : ℕ) : ℤ) := by
    rw [Cvt.ftCBlksPerVol, if_pos h.formatSet, h.blocks]
  obtain ⟨i, c, k, hi, hc, hk, rfl⟩ := h.digits hb
  obtain rfl := Conv.ok.inj ((h.toDL hi hc hk).symm.trans hd)
  rw [hcap]
  by_cases hsec : k + 1 < 128
  · -- In the same pseudotrack.
    have hlt := h.mem.mp (h.lt hi hc hsec)
    have hsucc : (((i * s.ftP.cyls + c) * 128 + k : ℕ) : ℤ) + 1 =
        (((i * s.ftP.cyls + c) * 128 + (k + 1) : ℕ) : ℤ) := by omega
    rw [hsucc, if_pos (by omega),
      ftCDLInc_sector h.formatSet (by rw [h.blk]; exact hsec) (by omega)]
    exact ⟨rfl, h.toDL hi hc hsec⟩
  obtain rfl : k = 127 := by omega
  by_cases hcyl : c + 1 < s.ftP.cyls
  · -- In the next cylinder.
    have hlt := h.mem.mp (h.lt hi hcyl (by decide : 0 < 128))
    have hinc : s.ftCDLInc (locn i c 127) = (0, locn i (c + 1) 0) := by
      have hover : (byte 128 + 1).val > s.ftP.blkPerTrk := by rw [h.blk]; decide
      have hnext : byte c + 1 = byte (c + 1) := by
        apply Fin.ext
        rw [val_succ, byte_val (by omega), byte_val (by omega), if_neg (by omega)]
      rw [ftCDLInc_over h.formatSet hover]
      show (if (byte c + 1).val ≥ s.ftP.cyls then _
        else ((0 : ℤ), (⟨byte c + 1, byte i, 1, 3⟩ : DiskLocn))) = _
      rw [hnext, byte_val (by omega), if_neg (by omega)]
      rfl
    have hsucc : (((i * s.ftP.cyls + c) * 128 + 127 : ℕ) : ℤ) + 1 =
        (((i * s.ftP.cyls + (c + 1)) * 128 + 0 : ℕ) : ℤ) := by omega
    rw [hinc, hsucc, if_pos (by omega)]
    exact ⟨rfl, h.toDL hi hcyl (by decide)⟩
  obtain rfl : c = s.ftP.cyls - 1 := by omega
  have hrow : i * s.ftP.cyls + (s.ftP.cyls - 1) + 1 = (i + 1) * s.ftP.cyls := by
    rw [Nat.add_mul]
    omega
  have hval : (byte i + 1).val = i + 1 := by
    rw [val_succ, byte_val (by omega), if_neg (by omega)]
  rw [ftCDLInc_last h.formatSet h.blk hpos hcyls, hval]
  by_cases hhead : i + 1 < s.ftP.heads
  · -- On the next side.
    have hlt := h.mem.mp (h.lt hhead hpos (by decide : 0 < 128))
    have hnext : byte i + 1 = byte (i + 1) := Fin.ext (hval.trans (byte_val (by omega)).symm)
    have hsucc : (((i * s.ftP.cyls + (s.ftP.cyls - 1)) * 128 + 127 : ℕ) : ℤ) + 1 =
        ((((i + 1) * s.ftP.cyls + 0) * 128 + 0 : ℕ) : ℤ) := by omega
    rw [hsucc, if_pos (by omega), if_neg (by omega), hnext]
    exact ⟨rfl, h.toDL hhead hpos (by decide)⟩
  · -- At the end of the volume.
    have hend : (i + 1) * s.ftP.cyls = s.ftP.heads * s.ftP.cyls := by
      rw [show i + 1 = s.ftP.heads by omega]
    rw [if_neg (by omega), if_pos (by omega)]

theorem Cvt.Shape.sound (h : s.Shape) : s.Sound where
  divisors := ⟨by have := h.spt; omega, by rw [h.blk]; decide, by have := h.cyls_pos; omega⟩
  disk := h.disk
  tape := h.tape
  segments := h.segments
  segment := fun _ hb _ hd => h.segment hb hd
  next := fun _ hb _ hd => h.next hb hd

/-- **The conversions are sound**, after any calls that leave a format set, exactly when the
    geometry fits. -/
theorem sound_iff (calls : List Call) (hset : (Cvt.after calls).formatSet = true) :
    (Cvt.after calls).Sound ↔ (Cvt.after calls).Fits :=
  ⟨fun h => h.fits (reached calls) hset, fun h => (h.shape (reached calls) hset).sound⟩

theorem sound_iff_long : (Cvt.after [.setFmt 0]).Sound ↔ (Cvt.after [.setFmt 0]).Fits :=
  sound_iff [.setFmt 0] rfl

/-- The parameters of a tape header, with no format set before: the number of sectors of a
    pseudotrack is zero, and so is the divisor of the first conversion.  With the format of a short
    QIC-80 tape, `ftCDLInc` goes on after the last block. -/
theorem not_sound :
    (Cvt.after [.setFtParms 150 28 7 150]).ftCLBtoDL 0 = .fault ∧
      ¬(Cvt.after [.setFtParms 150 28 7 150]).Sound ∧
      ¬(Cvt.after [.setFmt 1]).Sound := by
  refine ⟨by decide, fun h => h.divisors.2.1 rfl, fun h => ?_⟩
  have hlast := h.next 89599 ⟨by decide, by decide⟩ _ rfl
  revert hlast
  decide

end CohKernel.Ft
