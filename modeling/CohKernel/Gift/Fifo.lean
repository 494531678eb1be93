import CohKernel.Lib.Halves

namespace CohKernel.Gift

open CohKernel.Lib

/-!
# The boot gift

The tertiary boot hands what it has learned to the kernel in a fifo of typed spaces: `prepare_gift`
of `gift.c` writes them with `fifo_write_untyped` of `fifo_b.c` and copies the fifo over
`boot_gift`, and the kernel reads them with `fifo_read` of `fifo.c`.

* `fill_held` — what is written is there, one space after the other, with an empty one at the end;
* `fifoReadAll_held` — what is there is read;
* `gift_received` — the kernel gets the spaces, from the first one to the last one that has room.
-/

/-- `sizeof (typed_space)`: `ts_size` and `ts_type`. -/
def TYPED_SPACE : ℕ := 6

def T_FIFO : ℕ := 0x100
def T_FIFO_SIC : ℕ := 0x101
def F_READ : ℕ := 1
def F_WRITE : ℕ := 2
def GIFTBOX : ℕ := 4096

/-- The `ts_type` and the `ts_data` of a space. -/
structure Space where
  tsType : ℕ
  tsData : List Byte

/-- The type and the size, a signed number, fit their fields. -/
def Space.Fits (sp : Space) : Prop := sp.tsType < 2 ^ 16 ∧ sp.tsData.length < 2 ^ 31

/-- `FIFO`, with `f_offset` relative to `f_space`. -/
structure Fifo where
  fOffset : ℕ
  fFlags : ℕ

/-- `memcpy` into a space. -/
def copyTo (m : Bytes) (o : ℕ) (datum : List Byte) : Bytes :=
  fun i => if o ≤ i then datum.getD (i - o) (m i) else m i

/-- `fifo_open`: `least` is the least size that is accepted, and `ffTable` holds the flags of the
    table's entries. -/
def fifoOpen (least : ℕ) (m : Bytes) (ffTable : List ℕ) (mode : ℕ) : Option Fifo × Bytes :=
  let m := if m.word 4 = T_FIFO then m.setWord 4 T_FIFO_SIC else m
  if m.word 4 ≠ T_FIFO_SIC ∨ m.long 0 < least ∨ 0 ∉ ffTable then (none, m)
  else if mode = 0 then (some ⟨TYPED_SPACE, F_READ⟩, m)
  else if mode = 1 then (some ⟨TYPED_SPACE, F_WRITE⟩, m)
  else (none, m)

/-- `flag != flag & flags`: the comparison binds first. -/
def notSet (flag flags : ℕ) : Bool := (if flag ≠ flag then 1 else 0) &&& flags ≠ 0

/-- `fifo_write_untyped`: nothing, when the space is not written. -/
def fifoWriteUntyped (f : Fifo) (m : Bytes) (sp : Space) : Option (Fifo × Bytes) :=
  if notSet F_WRITE f.fFlags then none
  else if m.long 0 < f.fOffset + (TYPED_SPACE + sp.tsData.length + TYPED_SPACE) then none
  else
    let m := m.setLong f.fOffset (TYPED_SPACE + sp.tsData.length)
    let m := m.setWord (f.fOffset + 4) sp.tsType
    let m := copyTo m (f.fOffset + TYPED_SPACE) sp.tsData
    let fOffset := f.fOffset + TYPED_SPACE + sp.tsData.length
    some ({ f with fOffset := fOffset }, (m.setLong fOffset 0).setWord (fOffset + 4) 0)

/-- The routines that fill the box write one space after the other; the first one that has no room
    is the last one. -/
def fill (f : Fifo) (m : Bytes) : List Space → Bytes
  | [] => m
  | sp :: sps =>
      match fifoWriteUntyped f m sp with
      | none => m
      | some (f, m) => fill f m sps

/-- `prepare_gift`: what becomes of `boot_gift`, when the local gift box holds `m`. -/
def prepareGift (m bootGift : Bytes) (ffTable : List ℕ) (sps : List Space) : Bytes :=
  let m := if bootGift.long 0 > m.long 0 then m else m.setLong 0 (bootGift.long 0)
  match fifoOpen (2 * TYPED_SPACE) m ffTable 1 with
  | (none, _) => bootGift
  | (some f, m) =>
      let m := fill f m sps
      fun i => if i < m.long 0 then m i else bootGift i

/-- `fifo_read`: the offset of the space that is read. -/
def fifoRead (f : Fifo) (m : Bytes) : Option ℕ × Fifo :=
  if notSet F_READ f.fFlags then (none, f)
  else if m.long f.fOffset = 0 then (none, f)
  else (some f.fOffset, { f with fOffset := f.fOffset + m.long f.fOffset })

/-- The loop over a fifo, `fifo_read` until it fails. -/
def fifoReadAll (m : Bytes) : ℕ → Fifo → List Space
  | 0, _ => []
  | fuel + 1, f =>
      match fifoRead f m with
      | (none, _) => []
      | (some o, f) =>
          let tsData := (List.range (m.long o - TYPED_SPACE)).map fun i => m (o + TYPED_SPACE + i)
          ⟨m.word (o + 4), tsData⟩ :: fifoReadAll m fuel f

/-- What the kernel finds in `boot_gift`. -/
def received (m : Bytes) (ffTable : List ℕ) : List Space :=
  match fifoOpen 0 m ffTable 0 with
  | (none, _) => []
  | (some f, m) => fifoReadAll m (m.long 0) f

/-- The spaces that have room in a fifo of `size` bytes from offset `o` on, with an empty one behind
    them. -/
def fitting (size : ℕ) : ℕ → List Space → List Space
  | _, [] => []
  | o, sp :: sps =>
      if size < o + (TYPED_SPACE + sp.tsData.length + TYPED_SPACE) then []
      else sp :: fitting size (o + TYPED_SPACE + sp.tsData.length) sps

/-- The spaces are in memory from an offset on, and an empty one ends them. -/
def Held (m : Bytes) : ℕ → List Space → Prop
  | o, [] => m.long o = 0
  | o, sp :: sps => m.long o = TYPED_SPACE + sp.tsData.length ∧ m.word (o + 4) = sp.tsType ∧
      (∀ i, (h : i < sp.tsData.length) → m (o + TYPED_SPACE + i) = sp.tsData[i]) ∧
      Held m (o + TYPED_SPACE + sp.tsData.length) sps

variable {m m' : Bytes} {o size : ℕ} {sp : Space} {sps : List Space}

/-! ### Reading -/

/-- The test of the flags never fails. -/
theorem notSet_false (flag flags : ℕ) : notSet flag flags = false := by
  simp [notSet]

/-- The spaces that are held are read, whatever the flags are. -/
theorem fifoReadAll_held (h : Held m o sps) {fuel : ℕ} (hfuel : sps.length < fuel)
    (flags : ℕ) : fifoReadAll m fuel ⟨o, flags⟩ = sps := by
  induction sps generalizing o fuel with
  | nil =>
    obtain ⟨fuel, rfl⟩ := Nat.exists_eq_succ_of_ne_zero (by omega : fuel ≠ 0)
    simp [fifoReadAll, fifoRead, notSet_false, show m.long o = 0 from h]
  | cons sp sps ih =>
    obtain ⟨fuel, rfl⟩ := Nat.exists_eq_succ_of_ne_zero (by omega : fuel ≠ 0)
    obtain ⟨hsize, htype, hdata, hrest⟩ := h
    have hread : fifoRead ⟨o, flags⟩ m =
        (some o, ⟨o + TYPED_SPACE + sp.tsData.length, flags⟩) := by
      have hne : ¬ TYPED_SPACE + sp.tsData.length = 0 := by simp [TYPED_SPACE]
      simp only [fifoRead, notSet_false, hsize, if_neg hne, Bool.false_eq_true, if_false,
        Nat.add_assoc]
    have hlist : (List.range sp.tsData.length).map (fun i => m (o + TYPED_SPACE + i)) =
        sp.tsData := by
      apply List.ext_getElem (by simp)
      intro i _ hi
      simpa using hdata i hi
    rw [fifoReadAll, hread]
    simp only [hsize, Nat.add_sub_cancel_left, hlist, htype]
    rw [ih hrest (Nat.lt_of_succ_lt_succ hfuel)]

/-! ### Writing -/

theorem copyTo_below {l : List Byte} {i : ℕ} (h : i < o) : copyTo m o l i = m i :=
  if_neg (by omega)

/-- What `fifo_write_untyped` stores when there is room. -/
theorem write_held (hfits : sp.Fits)
    (hroom : ¬ m.long 0 < o + (TYPED_SPACE + sp.tsData.length + TYPED_SPACE)) (flags : ℕ) :
    ∃ m', fifoWriteUntyped ⟨o, flags⟩ m sp =
        some (⟨o + TYPED_SPACE + sp.tsData.length, flags⟩, m') ∧ (∀ i < o, m' i = m i) ∧
      m'.long o = TYPED_SPACE + sp.tsData.length ∧ m'.word (o + 4) = sp.tsType ∧
      (∀ i, (h : i < sp.tsData.length) → m' (o + TYPED_SPACE + i) = sp.tsData[i]) ∧
      m'.long (o + TYPED_SPACE + sp.tsData.length) = 0 := by
  obtain ⟨htype, hlen⟩ := hfits
  refine ⟨_, by rw [fifoWriteUntyped, notSet_false, if_neg Bool.false_ne_true, if_neg hroom], ?_⟩
  simp only [TYPED_SPACE]
  refine ⟨fun i hi => ?_, ?_, ?_, fun i hi => ?_, ?_⟩
  · rw [setWord_of_not_mem (by omega), setLong_of_not_mem (by omega), copyTo_below (by omega),
      setWord_of_not_mem (by omega), setLong_of_not_mem (by omega)]
  · rw [long_setWord_of_ne (by omega), long_setLong_of_ne (by omega),
      long_congr fun i _ hi => copyTo_below (by omega), long_setWord_of_ne (by omega),
      long_setLong (by omega)]
  · rw [word_setWord_of_ne (by omega), word_setLong_of_ne (by omega),
      word_congr fun i _ hi => copyTo_below (by omega), word_setWord htype]
  · rw [setWord_of_not_mem (by omega), setLong_of_not_mem (by omega), copyTo, if_pos (by omega),
      Nat.add_sub_cancel_left, List.getD_eq_getElem?_getD, List.getElem?_eq_getElem hi,
      Option.getD_some]
  · rw [long_setWord_of_ne (by omega), long_setLong (by norm_num)]

/-- **The box is filled** with the spaces that have room, as every memory shows it that has the same
    bytes below the size. -/
theorem fill_held (hfits : ∀ sp ∈ sps, sp.Fits) (hend : m.long o = 0) (ho : 4 ≤ o)
    (hsize : m.long 0 = size) (hle : o + TYPED_SPACE ≤ size) (flags : ℕ) :
    (∀ i < o, fill ⟨o, flags⟩ m sps i = m i) ∧
      ∀ n : Bytes, (∀ i < size, n i = fill ⟨o, flags⟩ m sps i) → Held n o (fitting size o sps) := by
  have hempty : ∀ n : Bytes, (∀ i < size, n i = m i) → n.long o = 0 := fun n hn => by
    rw [← hend]
    exact long_congr fun i _ hi => hn i (by simp only [TYPED_SPACE] at hle; omega)
  induction sps generalizing m o with
  | nil => exact ⟨fun _ _ => rfl, hempty⟩
  | cons sp sps ih =>
    by_cases hroom : m.long 0 < o + (TYPED_SPACE + sp.tsData.length + TYPED_SPACE)
    · have hnone : fifoWriteUntyped ⟨o, flags⟩ m sp = none := by
        rw [fifoWriteUntyped, notSet_false, if_neg Bool.false_ne_true, if_pos hroom]
      rw [fill, hnone, fitting, if_pos (hsize ▸ hroom)]
      exact ⟨fun _ _ => rfl, hempty⟩
    obtain ⟨m', hwrite, hbelow, hlong, hword, hdata, hend'⟩ :=
      write_held (hfits sp List.mem_cons_self) hroom flags
    have hsize' : m'.long 0 = size := by
      rw [← hsize]
      exact long_congr fun i _ hi => hbelow i (by omega)
    rw [hsize] at hroom
    rw [fill, hwrite, fitting, if_neg hroom]
    simp only [TYPED_SPACE] at *
    obtain ⟨hsame, hheld⟩ := ih (fun sp h => hfits sp (List.mem_cons_of_mem _ h)) hend' (by omega)
      hsize' (by omega) fun n hn => by
        rw [← hend']
        exact long_congr fun i _ hi => hn i (by omega)
    refine ⟨fun i hi => (hsame i (by omega)).trans (hbelow i hi), fun n hn => ?_⟩
    have hn' : ∀ i < o + 6 + sp.tsData.length, n i = m' i := fun i hi =>
      (hn i (by omega)).trans (hsame i hi)
    refine ⟨(long_congr fun i _ hi => hn' i (by omega)).trans hlong,
      (word_congr fun i _ hi => hn' i (by omega)).trans hword, fun i hi => ?_, hheld n hn⟩
    exact (hn' (o + 6 + i) (by omega)).trans (hdata i hi)

/-! ### From the boot to the kernel -/

theorem fitting_length (size : ℕ) (sps : List Space) :
    o + (fitting size o sps).length ≤ max o size := by
  induction sps generalizing o with
  | nil => simp [fitting]
  | cons sp sps ih =>
    have h6 : TYPED_SPACE = 6 := rfl
    rw [fitting]
    split_ifs with hroom
    · simp
    · have := ih (o := o + TYPED_SPACE + sp.tsData.length)
      rw [List.length_cons]
      omega

theorem fifoOpen_eq (least mode : ℕ) {ffTable : List ℕ} (htype : m.word 4 = T_FIFO_SIC)
    (hleast : least ≤ m.long 0) (hfree : 0 ∈ ffTable) (hmode : mode < 2) :
    ∃ flags, fifoOpen least m ffTable mode = (some ⟨TYPED_SPACE, flags⟩, m) := by
  have hne : ¬ T_FIFO_SIC = T_FIFO := by decide
  have hok : ¬ (m.word 4 ≠ T_FIFO_SIC ∨ m.long 0 < least ∨ 0 ∉ ffTable) := by
    simp [htype, hfree, hleast]
  simp only [fifoOpen, htype, if_neg hne] at hok ⊢
  rw [if_neg hok]
  obtain rfl | rfl : mode = 0 ∨ mode = 1 := by omega
  · exact ⟨F_READ, rfl⟩
  · exact ⟨F_WRITE, rfl⟩

/-- **The kernel gets the gift**: of what the boot has to give, the spaces from the first one to the
    last one that has room in the smaller of the two boxes. -/
theorem gift_received (m bootGift : Bytes) (ffTable ffTable' : List ℕ) (sps : List Space)
    (hbox : m.long 0 = GIFTBOX) (htype : m.word 4 = T_FIFO_SIC) (hclear : m.long TYPED_SPACE = 0)
    (hboot : 2 * TYPED_SPACE ≤ bootGift.long 0 ∧ bootGift.long 0 < 2 ^ 31)
    (hfree : 0 ∈ ffTable) (hfree' : 0 ∈ ffTable') (hfits : ∀ sp ∈ sps, sp.Fits) :
    received (prepareGift m bootGift ffTable sps) ffTable' =
      fitting (min GIFTBOX (bootGift.long 0)) TYPED_SPACE sps := by
  have h6 : TYPED_SPACE = 6 := rfl
  have hbox' : 2 * TYPED_SPACE ≤ GIFTBOX := by decide
  obtain ⟨m₀, hm₀, hsize, htype₀, hclear₀⟩ : ∃ m₀ : Bytes,
      (if bootGift.long 0 > m.long 0 then m else m.setLong 0 (bootGift.long 0)) = m₀ ∧
        m₀.long 0 = min GIFTBOX (bootGift.long 0) ∧ m₀.word 4 = T_FIFO_SIC ∧
        m₀.long TYPED_SPACE = 0 := by
    refine ⟨_, rfl, ?_⟩
    split_ifs with hmore
    · exact ⟨by omega, htype, hclear⟩
    · rw [long_setLong (long_lt _ _), word_setLong_of_ne (by omega), long_setLong_of_ne (by omega)]
      exact ⟨by omega, htype, hclear⟩
  obtain ⟨flags, hwrite⟩ := fifoOpen_eq (2 * TYPED_SPACE) 1 htype₀ (by omega) hfree
    (by norm_num)
  obtain ⟨hsame, hheld⟩ := fill_held hfits hclear₀ (by omega) rfl (by omega) flags
  set full := fill ⟨TYPED_SPACE, flags⟩ m₀ sps with hfull
  have hlong : full.long 0 = m₀.long 0 := long_congr fun i _ hi => hsame i (by omega)
  set n : Bytes := fun i => if i < full.long 0 then full i else bootGift i with hn
  have hgift : prepareGift m bootGift ffTable sps = n := by
    simp only [prepareGift, hm₀, hwrite, ← hfull, hn]
  have hbytes : ∀ i < m₀.long 0, n i = full i := fun i hi => if_pos (hlong.symm ▸ hi)
  have hstart : ∀ i < TYPED_SPACE, n i = m₀ i := fun i hi =>
    (hbytes i (by omega)).trans (hsame i hi)
  have hword : n.word 4 = T_FIFO_SIC :=
    (word_congr fun i _ hi => hstart i (by omega)).trans htype₀
  have hlen : n.long 0 = m₀.long 0 := long_congr fun i _ hi => hstart i (by omega)
  obtain ⟨flags', hread⟩ := fifoOpen_eq 0 0 hword (Nat.zero_le _) hfree' (by norm_num)
  have hcount := fitting_length (o := TYPED_SPACE) (m₀.long 0) sps
  rw [received, hgift, hread, ← hsize]
  exact fifoReadAll_held (hheld n hbytes) (by omega) flags'

/-- The box of the boot as it is loaded, and the one of the kernel, whose size is 512. -/
def emptyBox (size : ℕ) : Bytes := (Bytes.setLong (fun _ => 0) 0 size).setWord 4 T_FIFO_SIC

/-- Two spaces have room for the first one only. -/
theorem gift_received_truncated :
    received (prepareGift (emptyBox GIFTBOX) (emptyBox 512) [0]
      [⟨0x201, List.replicate 8 1⟩, ⟨0x303, List.replicate 500 65⟩]) [0] =
        [⟨0x201, List.replicate 8 1⟩] := by
  refine (gift_received _ _ _ _ _ (by decide) (by decide) (by decide) (by decide) (by simp)
    (by simp) (by simp [Space.Fits, -List.reduceReplicate])).trans ?_
  rw [show min GIFTBOX ((emptyBox 512).long 0) = 512 by decide]
  simp [fitting, TYPED_SPACE, -List.reduceReplicate]

end CohKernel.Gift
