import CohKernel.Fs.Files

namespace CohKernel.Fs

open CohKernel.Lib

/-!
# A write under the limit on the size of a file

`sysio` of `sys3.c` for a write to a file, with `uulimit` of `sys5.c`, which sets the limit, and
`ulseek` of `sys2.c`, which sets the position.  The limit counts blocks; `sysio` takes it times the
size of a block, and the product is cut to 32 bits.

* `sysio_iff` — a write stays below the limit and advances the position by what it reports; and it
  is shortened only for the limit, but for a limit whose product does not fit;
* `large_limit_refuses` — under a limit of 2^32 bytes nothing can be written.
-/

/-! ### Definitions -/

/-- A command of `uulimit` on the limit. -/
inductive UlimitCmd where
  | UL_GETFSIZE
  | UL_SETFSIZE (newlimit : BitVec 32)

/-- `uulimit`: what it returns, and the limit `u_bpfmax`.  The comparison is one of unsigned
    numbers. -/
def uulimit (bpfmax : BitVec 32) (super : Bool) : UlimitCmd → BitVec 32 × BitVec 32
  | .UL_GETFSIZE => (bpfmax, bpfmax)
  | .UL_SETFSIZE newlimit =>
      if newlimit ≤ bpfmax ∨ super = true then (0, newlimit) else (-1, bpfmax)

/-- What a seek starts from. -/
inductive Whence where
  | SEEK_SET
  | SEEK_CUR
  | SEEK_END

/-- What `sysio` and `ulseek` use of an entry of the file table: the flags `IPW` and `IPAPPEND`, and
    the position. -/
structure Fdesc where
  ipw : Bool
  ipappend : Bool
  fSeek : BitVec 32

/-- `ulseek` on a file of some size. -/
def ulseek (fdp : Fdesc) (size off : BitVec 32) (whence : Whence) : BitVec 32 × Fdesc :=
  let off :=
    match whence with
    | .SEEK_SET => off
    | .SEEK_CUR => off + fdp.fSeek
    | .SEEK_END => off + size
  if off.toInt < 0 then (-1, fdp) else (off, { fdp with fSeek := off })

/-- Writes in append mode are forced to end of file. -/
def Fdesc.forced (fdp : Fdesc) (ip : Inode) : Fdesc :=
  if fdp.ipappend then { fdp with fSeek := BitVec.ofNat 32 ip.iSize } else fdp

/-- The count that `sysio` passes on for a file.  `maxbyte` is a `long`, but the position is
    unsigned, and so are both comparisons. -/
def writeCount (bpfmax fSeek n : BitVec 32) : BitVec 32 :=
  let maxbyte := bpfmax * 512#32
  if maxbyte ≤ fSeek then 0
  else if maxbyte - fSeek < n then maxbyte - fSeek
  else n

/-- `iwrite` to a file, or a directory, on a device that `getment` finds; the last number is what is
    left of `io_ioc`. -/
def iwrite (rd : ℕ → Bool) (getment : Bool) (s : Fs) (ip : Inode) (seek : ℕ) (data : List Byte) :
    Fs × Inode × ℕ :=
  if data.length = 0 then (s, ip, 0)
  else if getment then
    let (s, ip, stop) := fwrite rd s ip seek data
    (s, ip, seek + data.length - stop)
  else (s, ip, data.length)

/-- `sysio` for a write of the bytes at `bp` to a file, or a directory.  `useracc` says whether they
    can be read.  It returns the number of bytes, unless it fails before it has locked the inode. -/
def sysio (rd : ℕ → Bool) (useracc getment : Bool) (bpfmax : BitVec 32) (s : Fs) (ip : Inode)
    (fdp : Fdesc) (bp : List Byte) : Option (BitVec 32) × Fdesc × Fs × Inode :=
  if fdp.ipw = false then (none, fdp, s, ip)
  else if useracc = false then (none, fdp, s, ip)
  else
    let fdp := fdp.forced ip
    let n := BitVec.ofNat 32 bp.length
    let n := if ip.iMode = .IFREG then writeCount bpfmax fdp.fSeek n else n
    let (s, ip, ioc) := iwrite rd getment s ip fdp.fSeek.toNat (bp.take n.toNat)
    let n := n - BitVec.ofNat 32 ioc
    (some n, { fdp with fSeek := fdp.fSeek + n }, s, ip)

variable {ι : Type*} [DecidableEq ι] {m : Files ι} {f : ι} {fdp : Fdesc} {data : List Byte}

/-- The files after a write to the file `f` through the entry `fdp`. -/
def Files.sysio (m : Files ι) (rd : ℕ → Bool) (getment : Bool) (bpfmax : BitVec 32) (f : ι)
    (fdp : Fdesc) (data : List Byte) : Option (BitVec 32) × Fdesc × Fs × (ι → Inode) :=
  let (ret, fdp, s, ip) := Fs.sysio rd true getment bpfmax m.fs (m.inode f) fdp data
  (ret, fdp, s, Function.update m.inode f ip)

/-- What a write under a limit is to do, in numbers without a bound: the position is that of the
    entry, or the end of the file in append mode. -/
structure Files.Obeys (m : Files ι) (rd : ℕ → Bool) (getment : Bool) (bpfmax : BitVec 32) (f : ι)
    (fdp : Fdesc) (data : List Byte) (pos : ℕ) (ret : Option (BitVec 32)) (fdp' : Fdesc) (s' : Fs)
    (inode' : ι → Inode) : Prop where
  /-- It touches bytes below the position plus the count, and below the limit. -/
  touched : ∀ g k, fileByte s'.blocks (inode' g).iAddr k ≠ m.byte g k →
    g = f ∧ pos ≤ k ∧ k < pos + data.length ∧ k < bpfmax.toNat * BSIZE
  size : (inode' f).iSize = (m.inode f).iSize ∨
    (inode' f).iSize ≤ pos + data.length ∧ (inode' f).iSize ≤ bpfmax.toNat * BSIZE
  /-- The count that is passed on is that of the caller, unless the limit is below. -/
  shortened : (writeCount bpfmax (fdp.forced (m.inode f)).fSeek
      (BitVec.ofNat 32 data.length)).toNat < data.length →
    bpfmax.toNat * BSIZE < pos + data.length
  /-- The position has advanced by the number of bytes that is reported. -/
  advanced : ∃ n, ret = some n ∧ fdp'.fSeek.toNat = pos + n.toNat

/-! ### The limit and the position -/

/-- A seek keeps the position from being negative. -/
theorem ulseek_lt (size off : BitVec 32) (whence : Whence) (h : fdp.fSeek.toNat < 2 ^ 31) :
    (ulseek fdp size off whence).2.fSeek.toNat < 2 ^ 31 := by
  unfold ulseek
  simp only
  generalize (match whence with
    | .SEEK_SET => off
    | .SEEK_CUR => off + fdp.fSeek
    | .SEEK_END => off + size) = sum
  split_ifs with hneg
  · exact h
  · rw [BitVec.toInt_eq_toNat_cond] at hneg
    show sum.toNat < 2 ^ 31
    split_ifs at hneg <;> omega

/-- The count is cut at the product, as far as it fits. -/
theorem writeCount_toNat (bpfmax fSeek n : BitVec 32) :
    (writeCount bpfmax fSeek n).toNat =
      min n.toNat (bpfmax.toNat * BSIZE % 2 ^ 32 - fSeek.toNat) := by
  have hmax : (bpfmax * 512#32).toNat = bpfmax.toNat * BSIZE % 2 ^ 32 := by
    rw [BitVec.toNat_mul]
    rfl
  unfold writeCount
  simp only [BitVec.le_def, BitVec.lt_def]
  by_cases hpast : (bpfmax * 512#32).toNat ≤ fSeek.toNat
  · rw [if_pos hpast, ← hmax, Nat.sub_eq_zero_of_le hpast, Nat.min_zero]
    rfl
  · have hsub : (bpfmax * 512#32 - fSeek).toNat = (bpfmax * 512#32).toNat - fSeek.toNat :=
      BitVec.toNat_sub_of_le (BitVec.le_def.mpr (by omega))
    rw [if_neg hpast, hsub, ← hmax]
    split_ifs with hcut
    · rw [hsub, min_eq_right hcut.le]
    · rw [min_eq_left (not_lt.mp hcut)]

/-! ### A write -/

/-- A file that is as long as it can be has less than 2^31 bytes. -/
theorem maxBlocks_lt : maxBlocks * BSIZE < 2 ^ 31 := by decide

/-- What `iwrite` to a file of the filesystem does, when it stops at some position. -/
theorem iwrite_spec {L : List ℕ} (h : Laid m.fs m.inode L) (rd : ℕ → Bool) (getment : Bool)
    (f : ι) (seek : ℕ) (data : List Byte) :
    ∃ stop, (iwrite rd getment m.fs (m.inode f) seek data).2.2 = seek + data.length - stop ∧
      (seek ≤ stop ∧ stop ≤ seek + data.length) ∧ (stop = seek ∨ stop ≤ maxBlocks * BSIZE) ∧
      (∀ g k, fileByte (iwrite rd getment m.fs (m.inode f) seek data).1.blocks
          (Function.update m.inode f
            (iwrite rd getment m.fs (m.inode f) seek data).2.1 g).iAddr k =
        if g = f ∧ seek ≤ k ∧ k < stop then data.getD (k - seek) 0 else m.byte g k) ∧
      (iwrite rd getment m.fs (m.inode f) seek data).2.1.iSize =
        if stop = seek then (m.inode f).iSize else max (m.inode f).iSize stop := by
  -- when nothing is written it stops where it is
  have hnone : ∀ g k, fileByte m.fs.blocks
      (Function.update m.inode f (m.inode f) g).iAddr k =
        if g = f ∧ seek ≤ k ∧ k < seek then data.getD (k - seek) 0 else m.byte g k := by
    intro g k
    rw [Function.update_eq_self, if_neg (by omega)]
    rfl
  unfold iwrite
  by_cases hzero : data.length = 0
  · rw [if_pos hzero]
    have hleft : 0 = seek + data.length - seek := by omega
    exact ⟨seek, hleft, by omega, Or.inl rfl, hnone, (if_pos rfl).symm⟩
  rw [if_neg hzero]
  cases getment with
  | false =>
    rw [if_neg (by decide)]
    have hleft : data.length = seek + data.length - seek := by omega
    exact ⟨seek, hleft, by omega, Or.inl rfl, hnone, (if_pos rfl).symm⟩
  | true =>
    obtain ⟨L', hwr⟩ := @fwrite_spec _ _ _ rd _ _ h f seek data
    rw [if_pos rfl]
    exact ⟨_, rfl, hwr.le, hwr.below, hwr.bytes, by simpa using hwr.size⟩

omit [DecidableEq ι] in
/-- The position that a write is forced to is not negative. -/
theorem Kept.forced_lt {L : List ℕ} (h : Kept m L) (f : ι) (hpos : fdp.fSeek.toNat < 2 ^ 31) :
    (fdp.forced (m.inode f)).fSeek.toNat < 2 ^ 31 := by
  unfold Fdesc.forced
  split_ifs with happend
  · have := h.size f
    have := maxBlocks_lt
    show (BitVec.ofNat 32 (m.inode f).iSize).toNat < 2 ^ 31
    rw [BitVec.toNat_ofNat, Nat.mod_eq_of_lt (by omega)]
    omega
  · exact hpos

/-- A write that is let through reports what has been written, and the position is behind that. -/
theorem sysio_spec {L : List ℕ} (h : Kept m L) (hmode : (m.inode f).iMode = .IFREG)
    (hipw : fdp.ipw = true) (hpos : fdp.fSeek.toNat < 2 ^ 31) (hlen : data.length < 2 ^ 32)
    (rd : ℕ → Bool) (getment : Bool) (bpfmax : BitVec 32) :
    ∃ stop, (fdp.forced (m.inode f)).fSeek.toNat ≤ stop ∧
      stop ≤ (fdp.forced (m.inode f)).fSeek.toNat +
        (writeCount bpfmax (fdp.forced (m.inode f)).fSeek
          (BitVec.ofNat 32 data.length)).toNat ∧
      (∃ n, (m.sysio rd getment bpfmax f fdp data).1 = some n ∧
        n.toNat = stop - (fdp.forced (m.inode f)).fSeek.toNat) ∧
      (m.sysio rd getment bpfmax f fdp data).2.1.fSeek.toNat = stop ∧
      (∀ g k, fileByte (m.sysio rd getment bpfmax f fdp data).2.2.1.blocks
          ((m.sysio rd getment bpfmax f fdp data).2.2.2 g).iAddr k ≠ m.byte g k →
        g = f ∧ (fdp.forced (m.inode f)).fSeek.toNat ≤ k ∧ k < stop) ∧
      (((m.sysio rd getment bpfmax f fdp data).2.2.2 f).iSize = (m.inode f).iSize ∨
        ((m.sysio rd getment bpfmax f fdp data).2.2.2 f).iSize = stop ∧
          (fdp.forced (m.inode f)).fSeek.toNat < stop) := by
  have hstart := h.forced_lt f hpos
  have hmax := maxBlocks_lt
  generalize hn : writeCount bpfmax (fdp.forced (m.inode f)).fSeek
    (BitVec.ofNat 32 data.length) = n
  have hle : n.toNat ≤ data.length := by
    rw [← hn, writeCount_toNat, BitVec.toNat_ofNat, Nat.mod_eq_of_lt hlen]
    exact min_le_left _ _
  unfold Files.sysio sysio
  rw [if_neg (by rw [hipw]; decide), if_neg (by decide)]
  simp only [if_pos hmode, hn]
  obtain ⟨stop, hleft, ⟨hlo, hhi⟩, hbelow, hbytes, hsize⟩ := iwrite_spec h.laid rd getment f
    (fdp.forced (m.inode f)).fSeek.toNat (data.take n.toNat)
  rw [List.length_take, min_eq_left hle] at hleft hhi
  rw [hleft]
  have hcount : (n - BitVec.ofNat 32
      ((fdp.forced (m.inode f)).fSeek.toNat + n.toNat - stop)).toNat =
      stop - (fdp.forced (m.inode f)).fSeek.toNat := by
    have := n.isLt
    have hioc : (BitVec.ofNat 32
        ((fdp.forced (m.inode f)).fSeek.toNat + n.toNat - stop)).toNat =
        (fdp.forced (m.inode f)).fSeek.toNat + n.toNat - stop := by
      rw [BitVec.toNat_ofNat, Nat.mod_eq_of_lt (by omega)]
    rw [BitVec.toNat_sub_of_le (BitVec.le_def.mpr (by omega)), hioc]
    omega
  refine ⟨stop, hlo, hhi, ⟨_, rfl, hcount⟩, ?_, fun g k hne => ?_, ?_⟩
  · rw [BitVec.toNat_add, hcount, Nat.mod_eq_of_lt (by omega)]
    omega
  · rw [hbytes g k] at hne
    by_contra hout
    rw [if_neg hout] at hne
    exact hne rfl
  · rw [Function.update_self, hsize]
    split_ifs with hsame
    · exact Or.inl rfl
    · rcases max_choice (m.inode f).iSize stop with hc | hc
      · exact Or.inl hc
      · exact Or.inr ⟨hc, by omega⟩

/-- **A write under the limit** stays below it, is shortened for it alone, and advances the position
    by what it reports, in every state of the files that can be reached, just when it has no bytes,
    or the product of the limit is not below its end, or the limit itself is. -/
theorem sysio_iff (h : Reach Fresh Files.step (fun _ _ => True) m)
    (hmode : (m.inode f).iMode = .IFREG) (hipw : fdp.ipw = true)
    (hpos : fdp.fSeek.toNat < 2 ^ 31) (hlen : data.length < 2 ^ 32) (rd : ℕ → Bool)
    (getment : Bool) (bpfmax : BitVec 32) :
    m.Obeys rd getment bpfmax f fdp data (fdp.forced (m.inode f)).fSeek.toNat
        (m.sysio rd getment bpfmax f fdp data).1 (m.sysio rd getment bpfmax f fdp data).2.1
        (m.sysio rd getment bpfmax f fdp data).2.2.1 (m.sysio rd getment bpfmax f fdp data).2.2.2 ↔
      data = [] ∨
      (fdp.forced (m.inode f)).fSeek.toNat + data.length ≤ bpfmax.toNat * BSIZE % 2 ^ 32 ∨
      bpfmax.toNat * BSIZE < (fdp.forced (m.inode f)).fSeek.toNat + data.length := by
  obtain ⟨L, hk⟩ := reach_files h
  obtain ⟨stop, hlo, hhi, ⟨n, hret, hn⟩, hseek, hbytes, hsize⟩ :=
    sysio_spec hk hmode hipw hpos hlen rd getment bpfmax
  have hcount := writeCount_toNat bpfmax (fdp.forced (m.inode f)).fSeek
    (BitVec.ofNat 32 data.length)
  rw [BitVec.toNat_ofNat, Nat.mod_eq_of_lt hlen] at hcount
  have hproduct : bpfmax.toNat * BSIZE % 2 ^ 32 ≤ bpfmax.toNat * BSIZE := Nat.mod_le _ _
  constructor
  · intro hobeys
    have hshort := hobeys.shortened
    rw [hcount] at hshort
    rcases data.length.eq_zero_or_pos with hzero | hsome
    · exact Or.inl (List.length_eq_zero_iff.mp hzero)
    · right
      by_contra hout
      have := hshort (by omega)
      omega
  · intro hwhen
    refine ⟨fun g k hne => ?_, ?_, fun hshort => ?_, n, hret, by omega⟩
    · obtain ⟨hg, hfrom, hbefore⟩ := hbytes g k hne
      exact ⟨hg, hfrom, by omega, by omega⟩
    · rcases hsize with hsame | ⟨hstop, hmore⟩
      · exact Or.inl hsame
      · exact Or.inr ⟨by omega, by omega⟩
    · rw [hcount] at hshort
      rcases hwhen with rfl | hfits | hover
      · exact absurd hshort (Nat.not_lt_zero _)
      · omega
      · exact hover

/-- An entry at the beginning of a file. -/
def atStart : Fdesc := ⟨true, false, 0⟩

/-- A write of a byte under a limit of one block. -/
theorem sysio_iff_block :
    smallFs.Obeys (fun _ => true) true 1 0 atStart [7] 0
        (smallFs.sysio (fun _ => true) true 1 0 atStart [7]).1
        (smallFs.sysio (fun _ => true) true 1 0 atStart [7]).2.1
        (smallFs.sysio (fun _ => true) true 1 0 atStart [7]).2.2.1
        (smallFs.sysio (fun _ => true) true 1 0 atStart [7]).2.2.2 ↔
      [(7 : Byte)] = [] ∨ 0 + 1 ≤ (1 : BitVec 32).toNat * BSIZE % 2 ^ 32 ∨
      (1 : BitVec 32).toNat * BSIZE < 0 + 1 :=
  sysio_iff (Reach.init smallFs_fresh) rfl rfl (by decide) (by decide) (fun _ => true) true 1

/-- **The product of a large limit is lost.** The superuser has set the limit to 2^23 blocks, which
    are 2^32 bytes; a write of a byte to an empty file is shortened to nothing. -/
theorem large_limit_refuses : ¬ ∀ (m : Files (Fin 2)), Reach Fresh Files.step (fun _ _ => True) m →
    ∀ f (fdp : Fdesc) (data : List Byte) rd getment old newlimit, (m.inode f).iMode = .IFREG →
      fdp.ipw = true → fdp.fSeek.toNat < 2 ^ 31 → data.length < 2 ^ 32 →
      (uulimit old true (.UL_SETFSIZE newlimit)).1 = 0 →
      m.Obeys rd getment (uulimit old true (.UL_SETFSIZE newlimit)).2 f fdp data
        (fdp.forced (m.inode f)).fSeek.toNat
        (m.sysio rd getment (uulimit old true (.UL_SETFSIZE newlimit)).2 f fdp data).1
        (m.sysio rd getment (uulimit old true (.UL_SETFSIZE newlimit)).2 f fdp data).2.1
        (m.sysio rd getment (uulimit old true (.UL_SETFSIZE newlimit)).2 f fdp data).2.2.1
        (m.sysio rd getment (uulimit old true (.UL_SETFSIZE newlimit)).2 f fdp data).2.2.2 := by
  intro hall
  have hobeys := hall smallFs (Reach.init smallFs_fresh) 0 atStart [7] (fun _ => true) true 1
    0x800000 rfl rfl (by decide) (by decide) rfl
  have hnothing : (writeCount 0x800000 0 1).toNat = 0 := by decide
  have hshort := hobeys.shortened (by
    show (writeCount 0x800000 0 1).toNat < 1
    rw [hnothing]
    exact Nat.one_pos)
  revert hshort
  decide

end CohKernel.Fs
