import CohKernel.Dir.Lookup
import CohKernel.Fs.Files

namespace CohKernel.Dir

open CohKernel.Lib CohKernel.Fs

/-!
# Listing a directory

`ugetdents` of `sys5.c` with `dirio`: the live slots of a directory are packed into the buffer of
the caller as records of different lengths.

* `nextEntry_spec`, `getLoop_spec` — the next live slot, and the records that fit;
* `ugetdents_spec` — one call;
* `ugetdents_lists` — every sequence of calls on an open directory.
-/

/-! ### Definitions -/

/-- `kucopy`: store bytes at an address of the user, who has access to it. -/
def kucopy (m : Bytes) (dst : ℕ) (data : List Byte) : Bytes :=
  fun a => if dst ≤ a ∧ a < dst + data.length then data.getD (a - dst) 0 else m a

/-- The low bytes of a number. -/
def lowBytes (k v : ℕ) : List Byte := (List.range k).map fun i => byte (v / 256 ^ i)

/-- `ofnm`: the offset of the name in a record. -/
def OFNM : ℕ := 10

/-- `sizeof (long)`. -/
def LONG : ℕ := 4

/-- `minbuf`: the length of the longest record. -/
def MINBUF : ℕ :=
  let entry := OFNM + DIRSIZ + 1
  let mod := entry % LONG
  entry + if mod ≠ 0 then LONG - mod else 0

/-- An open file: whether `f_flag` has `IPR`, the inode, and `f_seek`. -/
structure OpenFile where
  ipr : Bool
  fIp : Inode
  fSeek : ℕ

/-- The parameters of the filesystem that a call finds. -/
structure Device where
  params : Params
  rd : ℕ → Bool
  blocks : ℕ → Bytes

/-- `dirio` of `n` bytes: the bytes, and the offset at which they are. -/
def dirio (d : Device) (fdp : OpenFile) (n : ℕ) : List Byte × ℕ × OpenFile :=
  if fdp.ipr = false ∨ fdp.fIp.iMode ≠ .IFDIR then ([], fdp.fSeek, fdp)
  else
    let (bytes, ip) := fread d.params d.rd d.blocks fdp.fIp fdp.fSeek n
    (bytes, fdp.fSeek, { fdp with fIp := ip, fSeek := fdp.fSeek + bytes.length })

/-- The bytes of `r_dir`. -/
def rDir (bytes : List Byte) : Bytes := fun k => bytes.getD k 0

/-- The inner loop of `ugetdents`: the next slot that is not free, with its offset. -/
def nextEntry (d : Device) : ℕ → OpenFile → Option (Bytes × ℕ) × OpenFile
  | 0, fdp => (none, fdp)
  | left + 1, fdp =>
      let (bytes, off, fdp) := dirio d fdp SLOT
      if bytes.length = 0 then (none, fdp)
      else if dIno (rDir bytes) 0 = 0 then nextEntry d left fdp
      else (some (rDir bytes, off), fdp)

/-- `d_reclen` of a record with a name of `i` characters. -/
def reclen (i : ℕ) : ℕ :=
  let i := i + 1
  let mod := (OFNM + i) % LONG
  OFNM + i + if mod ≠ 0 then LONG - mod else 0

/-- One record: the name, its terminator, the padding, and the header are copied to `cw`.  A name of
    no bytes is taken for a copy that failed. -/
def putRecord (mem : Bytes) (cw : ℕ) (dir : Bytes) (off : ℕ) : Option Bytes :=
  let name := cname (dName dir 0)
  let i := name.length
  if i = 0 then none else
  let mem := kucopy mem (cw + OFNM) name
  let mem := kucopy mem (cw + OFNM + i) [0]
  let mod := (OFNM + (i + 1)) % LONG
  let mem := if mod ≠ 0 then kucopy mem (cw + OFNM + (i + 1)) (List.replicate (LONG - mod) 0) else
      mem
  some (kucopy mem cw (lowBytes 4 (dIno dir 0) ++ lowBytes 4 off ++ lowBytes 2 (reclen i)))

/-- The outer loop of `ugetdents`: `total` bytes have been stored from `bp` on. -/
def getLoop (d : Device) (bp n : ℕ) : ℕ → OpenFile → Bytes → ℕ → ℤ × Bytes × OpenFile
  | 0, fdp, mem, total => (total, mem, fdp)
  | left + 1, fdp, mem, total =>
      if n - total ≥ MINBUF then
        match nextEntry d (slots fdp.fIp + 1) fdp with
        | (none, fdp) => (total, mem, fdp)
        | (some (dir, off), fdp) =>
            match putRecord mem (bp + total) dir off with
            | none => (-1, mem, fdp)
            | some mem => getLoop d bp n left fdp mem (total + reclen (cname (dName dir 0)).length)
      else (total, mem, fdp)

/-- `ugetdents`, with the answer of `useracc`. -/
def ugetdents (d : Device) (fdp : OpenFile) (useracc : Bool) (mem : Bytes) (bp n : ℕ) :
    ℤ × Bytes × OpenFile :=
  if useracc = false ∨ n < MINBUF then (-1, mem, fdp)
  else getLoop d bp n (n + 1) fdp mem 0

/-! ### Stores -/

variable {m mem : Bytes} {a b : List Byte} {dst : ℕ}

@[simp] theorem kucopy_nil (m : Bytes) (dst : ℕ) : kucopy m dst [] = m := by
  funext k
  exact if_neg (by simp)

/-- Two stores one behind the other. -/
theorem kucopy_append (m : Bytes) (dst : ℕ) (a b : List Byte) :
    kucopy m dst (a ++ b) = kucopy (kucopy m dst a) (dst + a.length) b := by
  funext k
  unfold kucopy
  rw [List.length_append]
  by_cases hb : dst + a.length ≤ k ∧ k < dst + a.length + b.length
  · rw [if_pos hb, if_pos ⟨by omega, by omega⟩, List.getD_eq_getElem?_getD,
      List.getElem?_append_right (by omega), ← List.getD_eq_getElem?_getD, Nat.sub_add_eq]
  rw [if_neg hb]
  by_cases ha : dst ≤ k ∧ k < dst + a.length
  · rw [if_pos ha, if_pos ⟨ha.1, by omega⟩, List.getD_eq_getElem?_getD,
      List.getElem?_append_left (by omega), ← List.getD_eq_getElem?_getD]
  · rw [if_neg ha, if_neg (by omega)]

theorem kucopy_append' (m : Bytes) (dst : ℕ) (a b : List Byte) :
    kucopy m dst (a ++ b) = kucopy (kucopy m (dst + a.length) b) dst a := by
  rw [kucopy_append]
  funext k
  unfold kucopy
  by_cases ha : dst ≤ k ∧ k < dst + a.length
  · rw [if_pos ha, if_pos ha, if_neg (by omega)]
  · rw [if_neg ha, if_neg ha]

/-- The bytes that have been stored. -/
theorem kucopy_at (m : Bytes) (dst : ℕ) {k : ℕ} (hk : k < a.length) :
    kucopy m dst a (dst + k) = a.getD k 0 := by
  unfold kucopy
  rw [if_pos ⟨by omega, by omega⟩, Nat.add_sub_cancel_left]

/-! ### Records -/

/-- The padding of a record with a name of `i` characters. -/
def padding (i : ℕ) : ℕ :=
  let mod := (OFNM + (i + 1)) % LONG
  if mod ≠ 0 then LONG - mod else 0

/-- The record of the slot at an offset: the number of the inode, the offset, the length of the
    record, the name with its terminator, and zeros up to a multiple of four bytes. -/
def record (m : Bytes) (o : ℕ) : List Byte :=
  let name := cname (dName m o)
  (lowBytes 4 (dIno m o) ++ lowBytes 4 o ++ lowBytes 2 (reclen name.length)) ++
    (name ++ [0] ++ List.replicate (padding name.length) 0)

theorem lowBytes_length (k v : ℕ) : (lowBytes k v).length = k := by
  rw [lowBytes, List.length_map, List.length_range]

theorem header_length (x y z : ℕ) :
    (lowBytes 4 x ++ lowBytes 4 y ++ lowBytes 2 z).length = OFNM := by
  rw [List.length_append, List.length_append, lowBytes_length, lowBytes_length, lowBytes_length]
  rfl

theorem record_length (m : Bytes) (o : ℕ) :
    (record m o).length = reclen (cname (dName m o)).length := by
  unfold record
  simp only
  rw [List.length_append, header_length, List.length_append, List.length_append,
    List.length_singleton, List.length_replicate]
  unfold reclen padding
  simp only
  omega

/-- A record is a number of long words, and fits into the smallest buffer. -/
theorem reclen_spec {i : ℕ} (h : i ≤ DIRSIZ) :
    LONG ∣ reclen i ∧ 0 < reclen i ∧ reclen i ≤ MINBUF := by
  have key : ∀ i ≤ DIRSIZ, reclen i % LONG = 0 ∧ 0 < reclen i ∧ reclen i ≤ MINBUF := by decide
  obtain ⟨hmod, hpos, hle⟩ := key i h
  exact ⟨Nat.dvd_of_mod_eq_zero hmod, hpos, hle⟩

theorem cname_length (m : Bytes) (o : ℕ) : (cname (dName m o)).length ≤ DIRSIZ := by
  rw [← dName_length m o]
  exact (List.takeWhile_sublist _).length_le

/-- The stores of one turn are those of a record. -/
theorem putRecord_eq (mem : Bytes) (cw : ℕ) {dir : Bytes} {o : ℕ} (hino : dIno dir 0 = dIno m o)
    (hname : dName dir 0 = dName m o) (hne : cname (dName m o) ≠ []) :
    putRecord mem cw dir o = some (kucopy mem cw (record m o)) := by
  have hpad : ∀ (mem : Bytes) (dst i : ℕ), (if (OFNM + (i + 1)) % LONG ≠ 0 then
      kucopy mem dst (List.replicate (LONG - (OFNM + (i + 1)) % LONG) 0) else mem) =
      kucopy mem dst (List.replicate (padding i) 0) := by
    intro mem dst i
    unfold padding
    simp only
    split_ifs
    · rfl
    · rw [List.replicate_zero, kucopy_nil]
  have hparts : ∀ header name pad : List Byte, header.length = OFNM →
      kucopy mem cw (header ++ (name ++ [0] ++ pad)) =
        kucopy (kucopy (kucopy (kucopy mem (cw + OFNM) name) (cw + OFNM + name.length) [0])
          (cw + OFNM + (name.length + 1)) pad) cw header := by
    intro header name pad h
    rw [kucopy_append', h, kucopy_append, kucopy_append, List.length_append, List.length_singleton]
  unfold putRecord record
  simp only [hino, hname]
  rw [if_neg fun h => hne (List.length_eq_zero_iff.mp h), hparts _ _ _ (header_length _ _ _), hpad]

/-! ### The live slots -/

/-- The live ones of the slots from `i` on. -/
def liveFrom (m : Bytes) (nslots i : ℕ) : List ℕ :=
  (List.range' i (nslots - i)).filter fun j => dIno m (SLOT * j) ≠ 0

variable {nslots i : ℕ}

theorem liveFrom_end (m : Bytes) (nslots : ℕ) : liveFrom m nslots nslots = [] := by
  rw [liveFrom, Nat.sub_self]
  rfl

theorem liveFrom_succ (h : i < nslots) : liveFrom m nslots i =
    if dIno m (SLOT * i) ≠ 0 then i :: liveFrom m nslots (i + 1)
    else liveFrom m nslots (i + 1) := by
  have hrange : List.range' i (nslots - i) = i :: List.range' (i + 1) (nslots - (i + 1)) := by
    rw [show nslots - i = nslots - (i + 1) + 1 by omega]
    rfl
  unfold liveFrom
  rw [hrange, List.filter_cons]
  simp only [decide_eq_true_eq]

theorem liveFrom_live {j : ℕ} (h : j ∈ liveFrom m nslots i) :
    j < nslots ∧ dIno m (SLOT * j) ≠ 0 := by
  obtain ⟨hrange, hlive⟩ := List.mem_filter.mp h
  have hj := List.mem_range'_1.mp hrange
  exact ⟨by omega, of_decide_eq_true hlive⟩

/-- Every entry of a directory has a name. -/
def Named (m : Bytes) (nslots : ℕ) : Prop :=
  ∀ j < nslots, dIno m (SLOT * j) ≠ 0 → cname (dName m (SLOT * j)) ≠ []

variable {ι : Type} [DecidableEq ι] {files : ι → Inode} {s : Fs} {L : List ℕ} {f : ι}

/-! ### The next slot -/

variable {d : Device} {fdp : OpenFile} {size : ℕ} {addr : ℕ → ℕ}

/-- An open directory of `size` bytes whose position is that of the slot `i`. -/
structure At (addr : ℕ → ℕ) (size : ℕ) (fdp : OpenFile) (i : ℕ) : Prop where
  ipr : fdp.ipr = true
  mode : fdp.fIp.iMode = .IFDIR
  iAddr : fdp.fIp.iAddr = addr
  iSize : fdp.fIp.iSize = size
  seek : fdp.fSeek = SLOT * i
  le : i ≤ size / SLOT

/-- `dirio` of one slot. -/
theorem dirio_spec (hrd : ∀ b, d.rd b = true) (hsize : size ≤ maxBlocks * BSIZE)
    (hwhole : SLOT ∣ size) (h : At addr size fdp i) :
    if i < size / SLOT then ∃ fdp', At addr size fdp' (i + 1) ∧
      dirio d fdp SLOT = (bytesFrom d.blocks addr (SLOT * i) SLOT, SLOT * i, fdp')
    else ∃ fdp', At addr size fdp' i ∧ dirio d fdp SLOT = ([], SLOT * i, fdp') := by
  obtain ⟨q, hq⟩ := hwhole
  have hread : (fread d.params d.rd d.blocks fdp.fIp (SLOT * i) SLOT).1 =
      bytesFrom d.blocks fdp.fIp.iAddr (SLOT * i) (min SLOT (fdp.fIp.iSize - SLOT * i)) :=
    fread_spec hrd d.params (h.iSize.le.trans hsize) (SLOT * i) SLOT
  obtain ⟨haddr, hsz, hmode⟩ := fread_inode d.params d.rd d.blocks fdp.fIp (SLOT * i) SLOT
  have hnot : ¬ (fdp.ipr = false ∨ fdp.fIp.iMode ≠ .IFDIR) := by
    rw [h.ipr, h.mode]
    decide
  rw [h.iAddr, h.iSize] at hread
  unfold dirio
  rw [if_neg hnot, h.seek]
  generalize fread d.params d.rd d.blocks fdp.fIp (SLOT * i) SLOT = r at hread haddr hsz hmode
  obtain ⟨bytes, ip⟩ := r
  simp only at hread haddr hsz hmode ⊢
  have hlen : bytes.length = min SLOT (size - SLOT * i) := by
    rw [hread, bytesFrom, List.length_map, List.length_range]
  have hle := h.le
  split_ifs with hlt
  · have hmin : min SLOT (size - SLOT * i) = SLOT := by
      unfold SLOT at *
      omega
    rw [hmin] at hread hlen
    refine ⟨{ fdp with fIp := ip, fSeek := SLOT * i + bytes.length }, ⟨h.ipr, hmode.trans h.mode,
      haddr.trans h.iAddr, hsz.trans h.iSize, ?_, hlt⟩, by rw [hread]⟩
    simp only [hlen]
    exact (Nat.mul_succ SLOT i).symm
  · have hmin : min SLOT (size - SLOT * i) = 0 := by
      unfold SLOT at *
      omega
    rw [hmin] at hread hlen
    have hnil : bytes = [] := List.length_eq_zero_iff.mp hlen
    refine ⟨{ fdp with fIp := ip, fSeek := SLOT * i + bytes.length }, ⟨h.ipr, hmode.trans h.mode,
      haddr.trans h.iAddr, hsz.trans h.iSize, ?_, hle⟩, by rw [hnil]⟩
    simp only [hlen]
    rfl

/-- The bytes that have been read are those of the slot. -/
theorem rDir_slot (blocks : ℕ → Bytes) (addr : ℕ → ℕ) (o : ℕ) :
    dIno (rDir (bytesFrom blocks addr o SLOT)) 0 = dIno (fileByte blocks addr) o ∧
      dName (rDir (bytesFrom blocks addr o SLOT)) 0 = dName (fileByte blocks addr) o := by
  refine slot_congr fun j hj => ?_
  unfold rDir bytesFrom
  rw [Nat.zero_add, List.getD_eq_getElem?_getD, List.getElem?_map, List.getElem?_range hj]
  rfl

/-- The inner loop finds the next live slot, or gets to the end. -/
theorem nextEntry_spec (hrd : ∀ b, d.rd b = true) (hsize : size ≤ maxBlocks * BSIZE)
    (hwhole : SLOT ∣ size) {left : ℕ} (hleft : size / SLOT - i < left) (h : At addr size fdp i) :
    match liveFrom (fileByte d.blocks addr) (size / SLOT) i with
    | [] => ∃ fdp', nextEntry d left fdp = (none, fdp') ∧ At addr size fdp' (size / SLOT)
    | j :: rest => ∃ fdp' r, nextEntry d left fdp = (some (r, SLOT * j), fdp') ∧
        At addr size fdp' (j + 1) ∧ dIno r 0 = dIno (fileByte d.blocks addr) (SLOT * j) ∧
        dName r 0 = dName (fileByte d.blocks addr) (SLOT * j) ∧
        rest = liveFrom (fileByte d.blocks addr) (size / SLOT) (j + 1) := by
  induction left generalizing i fdp with
  | zero => exact absurd hleft (Nat.not_lt_zero _)
  | succ left ih =>
    have hdirio := dirio_spec hrd hsize hwhole h
    unfold nextEntry
    by_cases hlt : i < size / SLOT
    swap
    · rw [if_neg hlt] at hdirio
      obtain ⟨fdp', hat, heq⟩ := hdirio
      obtain rfl : i = size / SLOT := le_antisymm h.le (not_lt.mp hlt)
      rw [liveFrom_end, heq]
      exact ⟨fdp', rfl, hat⟩
    rw [if_pos hlt] at hdirio
    obtain ⟨fdp', hat, heq⟩ := hdirio
    obtain ⟨hino, hname⟩ := rDir_slot d.blocks addr (SLOT * i)
    have hlen : (bytesFrom d.blocks addr (SLOT * i) SLOT).length ≠ 0 := by
      rw [bytesFrom, List.length_map, List.length_range]
      decide
    rw [heq, liveFrom_succ hlt]
    simp only [if_neg hlen, hino]
    by_cases hfree : dIno (fileByte d.blocks addr) (SLOT * i) = 0
    · rw [if_pos hfree, if_neg (not_not.mpr hfree)]
      exact ih (by omega) hat
    · rw [if_neg hfree, if_pos hfree]
      exact ⟨fdp', _, rfl, hat, hino, hname, rfl⟩

/-! ### One call -/

/-- The records of some slots. -/
def records (m : Bytes) (js : List ℕ) : List Byte := js.flatMap fun j => record m (SLOT * j)

theorem getLoop_spec (hrd : ∀ b, d.rd b = true) (hsize : size ≤ maxBlocks * BSIZE)
    (hwhole : SLOT ∣ size) (hnamed : Named (fileByte d.blocks addr) (size / SLOT)) (bp : ℕ)
    {n left total : ℕ} (hleft : n - total < left) (hle : total ≤ n) (mem : Bytes)
    (h : At addr size fdp i) :
    ∃ fdp' js i', getLoop d bp n left fdp mem total =
        (((total + (records (fileByte d.blocks addr) js).length : ℕ) : ℤ),
          kucopy mem (bp + total) (records (fileByte d.blocks addr) js), fdp') ∧
      At addr size fdp' i' ∧
      liveFrom (fileByte d.blocks addr) (size / SLOT) i =
        js ++ liveFrom (fileByte d.blocks addr) (size / SLOT) i' ∧
      total + (records (fileByte d.blocks addr) js).length ≤ n ∧
      (n - total ≥ MINBUF → js = [] →
        liveFrom (fileByte d.blocks addr) (size / SLOT) i' = []) := by
  induction left generalizing fdp i mem total with
  | zero => exact absurd hleft (Nat.not_lt_zero _)
  | succ left ih =>
    unfold getLoop
    by_cases hroom : n - total ≥ MINBUF
    swap
    · rw [if_neg hroom]
      refine ⟨fdp, [], i, ?_, h, rfl, hle, fun hmore => absurd hmore hroom⟩
      rw [records, List.flatMap_nil, List.length_nil, Nat.add_zero, kucopy_nil]
    rw [if_pos hroom]
    have hnext := nextEntry_spec hrd hsize hwhole
      (show size / SLOT - i < slots fdp.fIp + 1 by
        unfold slots
        rw [h.iSize]
        exact Nat.lt_succ_of_le (Nat.sub_le _ _)) h
    cases hlive : liveFrom (fileByte d.blocks addr) (size / SLOT) i with
    | nil =>
      rw [hlive] at hnext
      obtain ⟨fdp', heq, hat⟩ := hnext
      refine ⟨fdp', [], size / SLOT, ?_, hat, ?_, hle, fun _ _ => liveFrom_end _ _⟩
      · rw [heq, records, List.flatMap_nil, List.length_nil, Nat.add_zero, kucopy_nil]
      · rw [liveFrom_end, List.append_nil]
    | cons j rest =>
      rw [hlive] at hnext
      obtain ⟨hj, hjlive⟩ := liveFrom_live (hlive ▸ List.mem_cons_self)
      obtain ⟨fdp₁, r, heq, hat, hino, hname, rfl⟩ := hnext
      have hlen := record_length (fileByte d.blocks addr) (SLOT * j)
      obtain ⟨-, hpos, hfit⟩ := reclen_spec (cname_length (fileByte d.blocks addr) (SLOT * j))
      rw [← hlen] at hpos hfit
      obtain ⟨fdp', js, i', hloop, hat', hjs, hle', -⟩ :=
        ih (show n - (total + (record (fileByte d.blocks addr) (SLOT * j)).length) < left by omega)
          (by omega) (kucopy mem (bp + total) (record (fileByte d.blocks addr) (SLOT * j))) hat
      have hrecords : records (fileByte d.blocks addr) (j :: js) =
          record (fileByte d.blocks addr) (SLOT * j) ++ records (fileByte d.blocks addr) js :=
        List.flatMap_cons
      refine ⟨fdp', j :: js, i', ?_, hat', ?_, ?_, fun _ hnil =>
        absurd hnil (List.cons_ne_nil j js)⟩
      · rw [heq]
        simp only [hname, putRecord_eq mem (bp + total) hino hname (hnamed j hj hjlive), ← hlen]
        rw [hloop, hrecords, List.length_append, kucopy_append, Nat.add_assoc, Nat.add_assoc]
      · rw [hjs, List.cons_append]
      · rw [hrecords, List.length_append, ← Nat.add_assoc]
        exact hle'

/-- A call: the answer of `useracc`, the buffer of the caller, its length, and the memory of the
    user before it. -/
structure Call where
  acc : Bool
  bp : ℕ
  n : ℕ
  mem : Bytes

/-- What a call has returned, when it is the records of the slots `js`: they are one behind the
    other at the beginning of the buffer, each on a long word and inside the buffer. -/
structure Returned (m : Bytes) (c : Call) (js : List ℕ) (out : ℤ × Bytes) : Prop where
  total : out.1 = (records m js).length
  mem : out.2 = kucopy c.mem c.bp (records m js)
  inside : ∀ pre j post, js = pre ++ j :: post →
    LONG ∣ (records m pre).length ∧ LONG ∣ (record m (SLOT * j)).length ∧
      (records m pre).length + (record m (SLOT * j)).length ≤ c.n ∧
      ∀ k < (record m (SLOT * j)).length,
        out.2 (c.bp + (records m pre).length + k) = (record m (SLOT * j)).getD k 0

theorem records_append (m : Bytes) (pre post : List ℕ) :
    records m (pre ++ post) = records m pre ++ records m post := List.flatMap_append

theorem records_aligned (m : Bytes) (js : List ℕ) : LONG ∣ (records m js).length := by
  induction js with
  | nil => exact Nat.dvd_zero LONG
  | cons j js ih =>
    obtain ⟨hdvd, -, -⟩ := reclen_spec (cname_length m (SLOT * j))
    have hcons : records m (j :: js) = record m (SLOT * j) ++ records m js := List.flatMap_cons
    rw [hcons, List.length_append, record_length]
    exact Nat.dvd_add hdvd ih

/-- **One call** returns the records of the next live slots, at least one if there are any. -/
theorem ugetdents_spec (hrd : ∀ b, d.rd b = true) (hsize : size ≤ maxBlocks * BSIZE)
    (hwhole : SLOT ∣ size) (hnamed : Named (fileByte d.blocks addr) (size / SLOT)) {c : Call}
    (hn : MINBUF ≤ c.n) (h : At addr size fdp i) :
    ∃ ret mem' fdp' js i', ugetdents d fdp true c.mem c.bp c.n = (ret, mem', fdp') ∧
      Returned (fileByte d.blocks addr) c js (ret, mem') ∧ At addr size fdp' i' ∧
      liveFrom (fileByte d.blocks addr) (size / SLOT) i =
        js ++ liveFrom (fileByte d.blocks addr) (size / SLOT) i' ∧
      (js = [] → liveFrom (fileByte d.blocks addr) (size / SLOT) i' = []) := by
  obtain ⟨fdp', js, i', hloop, hat, hjs, hle, hsome⟩ := getLoop_spec hrd hsize hwhole hnamed c.bp
    (show c.n - 0 < c.n + 1 by omega) (Nat.zero_le _) c.mem h
  rw [Nat.zero_add, show c.bp + 0 = c.bp from rfl] at hloop
  rw [Nat.zero_add] at hle
  refine ⟨((records (fileByte d.blocks addr) js).length : ℤ),
    kucopy c.mem c.bp (records (fileByte d.blocks addr) js), fdp', js, i', ?_,
    ⟨rfl, rfl, fun pre j post hsplit => ?_⟩, hat, hjs, hsome hn⟩
  · unfold ugetdents
    have hnot : ¬ (true = false ∨ c.n < MINBUF) := by
      rintro (h | h)
      · cases h
      · omega
    rw [if_neg hnot, hloop]
  · obtain ⟨hdvd, -, -⟩ := reclen_spec (cname_length (fileByte d.blocks addr) (SLOT * j))
    have hcons : records (fileByte d.blocks addr) (j :: post) =
        record (fileByte d.blocks addr) (SLOT * j) ++ records (fileByte d.blocks addr) post :=
      List.flatMap_cons
    rw [← record_length] at hdvd
    have hall : (records (fileByte d.blocks addr) js).length =
        (records (fileByte d.blocks addr) pre).length +
          ((record (fileByte d.blocks addr) (SLOT * j)).length +
            (records (fileByte d.blocks addr) post).length) := by
      rw [hsplit, records_append, hcons, List.length_append, List.length_append]
    refine ⟨records_aligned _ _, hdvd, by omega, fun k hk => ?_⟩
    show kucopy c.mem c.bp (records (fileByte d.blocks addr) js) _ = _
    rw [Nat.add_assoc, kucopy_at _ _ (by omega), hsplit, records_append, hcons,
      List.getD_eq_getElem?_getD, List.getElem?_append_right (by omega), Nat.add_sub_cancel_left,
      List.getElem?_append_left hk, ← List.getD_eq_getElem?_getD]

/-! ### Every sequence of calls -/

/-- The results of a sequence of calls on an open directory. -/
def getdentsRun (d : Device) : List Call → OpenFile → List (ℤ × Bytes) × OpenFile
  | [], fdp => ([], fdp)
  | c :: calls, fdp =>
      let (ret, mem, fdp) := ugetdents d fdp c.acc c.mem c.bp c.n
      let (outs, fdp) := getdentsRun d calls fdp
      ((ret, mem) :: outs, fdp)

/-- A call that is refused: its buffer is not the user's, or shorter than the longest record. -/
def Refused (c : Call) : Prop := c.acc = false ∨ c.n < MINBUF

/-- What the calls have returned, one after the other; the refused ones return an error and leave
    the memory as it is. -/
inductive AllReturned (m : Bytes) : List Call → List (List ℕ) → List (ℤ × Bytes) → Prop
  | nil : AllReturned m [] [] []
  | refused {c : Call} {calls : List Call} {jss : List (List ℕ)} {outs : List (ℤ × Bytes)}
      (here : Refused c) (rest : AllReturned m calls jss outs) :
      AllReturned m (c :: calls) jss ((-1, c.mem) :: outs)
  | returned {c : Call} {js : List ℕ} {out : ℤ × Bytes} {calls : List Call} {jss : List (List ℕ)}
      {outs : List (ℤ × Bytes)} (room : ¬ Refused c) (here : Returned m c js out)
      (rest : AllReturned m calls jss outs) : AllReturned m (c :: calls) (js :: jss) (out :: outs)

/-- **Listing a directory.** Over every sequence of calls on a directory that has been opened and
    can be read, and whose entries have names, the records are those of the live slots in their
    order, each once, as far as the position, which is behind the last one returned; a call that
    returns none finds that there are no more.  Each record is on a long word and inside the
    buffer.  A buffer that is shorter than the longest record is refused, and the position stays. -/
theorem ugetdents_lists (hrd : ∀ b, d.rd b = true) (hsize : size ≤ maxBlocks * BSIZE)
    (hwhole : SLOT ∣ size) (hnamed : Named (fileByte d.blocks addr) (size / SLOT))
    (calls : List Call) (h : At addr size fdp i) :
    ∃ outs fdp' jss i', getdentsRun d calls fdp = (outs, fdp') ∧
      AllReturned (fileByte d.blocks addr) calls jss outs ∧ At addr size fdp' i' ∧
      liveFrom (fileByte d.blocks addr) (size / SLOT) i =
        jss.flatten ++ liveFrom (fileByte d.blocks addr) (size / SLOT) i' ∧
      ([] ∈ jss → liveFrom (fileByte d.blocks addr) (size / SLOT) i' = []) := by
  induction calls generalizing fdp i with
  | nil => exact ⟨[], fdp, [], i, rfl, .nil, h, rfl, fun hmem => absurd hmem List.not_mem_nil⟩
  | cons c calls ih =>
    by_cases hrefused : Refused c
    · obtain ⟨outs, fdp', jss, i', hrun, hall, hat, hjss, hend⟩ := ih h
      have hcall : ugetdents d fdp c.acc c.mem c.bp c.n = (-1, c.mem, fdp) := if_pos hrefused
      refine ⟨(-1, c.mem) :: outs, fdp', jss, i', ?_, .refused hrefused hall, hat, hjss, hend⟩
      rw [getdentsRun, hcall]
      simp only [hrun]
    obtain ⟨hacc, hn⟩ := not_or.mp hrefused
    obtain ⟨ret, mem', fdp₁, js, i₁, hcall, hreturned, hat₁, hjs, hdone⟩ :=
      ugetdents_spec hrd hsize hwhole hnamed (not_lt.mp hn) h
    obtain ⟨outs, fdp', jss, i', hrun, hall, hat, hjss, hend⟩ := ih hat₁
    refine ⟨(ret, mem') :: outs, fdp', js :: jss, i', ?_, .returned hrefused hreturned hall, hat,
      ?_, fun hmem => ?_⟩
    · rw [getdentsRun, eq_true_of_ne_false hacc, hcall]
      simp only [hrun]
    · rw [hjs, hjss, List.flatten_cons, List.append_assoc]
    · rcases List.mem_cons.mp hmem with hnil | hmem
      · have hnone := hdone hnil.symm
        rw [hjss] at hnone
        exact (List.append_eq_nil_iff.mp hnone).2
      · exact hend hmem

/-! ### A directory with a gap -/

/-- A device with a directory of three slots: `a`, a free one, and `bc`. -/
def gappy : Device where
  params := { tSortblocks := true, tGroupmode := true, tReadahead := 0 }
  rd _ := true
  blocks := fun b k => if b = 10 then ([3, 0, 97, 0, 0, 0, 0, 0, 0, 0, 0, 0, 0, 0, 0, 0,
    0, 0, 120, 0, 0, 0, 0, 0, 0, 0, 0, 0, 0, 0, 0, 0, 4, 0, 98, 99] : List Byte).getD k 0 else 0

def gappyAddr (i : ℕ) : ℕ := if i = 0 then 10 else 0

/-- The directory, just opened. -/
def gappyOpen : OpenFile where
  ipr := true
  fIp := { iMode := .IFDIR, iSize := 48, iAddr := gappyAddr, iPnc := 0, iPrx := 0, iPwx := 0,
           iLastblock := -1 }
  fSeek := 0

/-- A call with the least buffer that is not refused. -/
def leastCall : Call := ⟨true, 0, MINBUF, fun _ => 0⟩

/-- Three calls list the two entries; the last one finds that there are no more. -/
theorem ugetdents_lists_gappy :
    (getdentsRun gappy [leastCall, leastCall, leastCall] gappyOpen).1.map Prod.fst = [12, 16, 0] ∧
      ∃ outs jss, AllReturned (fileByte gappy.blocks gappyAddr) [leastCall, leastCall, leastCall]
        jss
        outs ∧ jss.flatten = [0, 2] := by
  have hrun : (getdentsRun gappy [leastCall, leastCall, leastCall] gappyOpen).1.map Prod.fst =
      [12, 16, 0] ∧
      (getdentsRun gappy [leastCall, leastCall, leastCall] gappyOpen).2.fSeek = 48 := by
    decide +kernel
  have hnamed : Named (fileByte gappy.blocks gappyAddr) (48 / SLOT) := by
    unfold Named
    decide +kernel
  obtain ⟨outs, fdp', jss, i', heq, hall, hat, hjss, -⟩ :=
    @ugetdents_lists 0 gappy gappyOpen 48 gappyAddr (fun _ => rfl) (by decide) (by decide) hnamed
      [leastCall, leastCall, leastCall] ⟨rfl, rfl, rfl, rfl, rfl, Nat.zero_le _⟩
  refine ⟨hrun.1, outs, jss, hall, ?_⟩
  have hseek : SLOT * i' = 48 := by
    rw [← hat.seek, ← hrun.2, heq]
  obtain rfl : i' = 3 := by
    unfold SLOT at hseek
    omega
  rw [show liveFrom (fileByte gappy.blocks gappyAddr) (48 / SLOT) 3 = [] by decide +kernel,
    List.append_nil] at hjss
  rw [← hjss]
  decide +kernel

/-- After one call the position is that of the free slot, not that of the next entry; and a buffer
    as long as the record of the first entry is refused. -/
theorem position_on_free_slot :
    (ugetdents gappy gappyOpen true (fun _ => 0) 0 MINBUF).1 = 12 ∧
      (ugetdents gappy gappyOpen true (fun _ => 0) 0 MINBUF).2.2.fSeek = SLOT ∧
      liveFrom (fileByte gappy.blocks gappyAddr) 3 0 = [0, 2] ∧
      (record (fileByte gappy.blocks gappyAddr) 0).length = 12 ∧
      (ugetdents gappy gappyOpen true (fun _ => 0) 0 12).1 = -1 := by
  decide +kernel

end CohKernel.Dir
