import CohKernel.Lib.Halves
import CohKernel.Fs.Bad

namespace CohKernel.Fs.Icopy

open CohKernel.Lib

/-!
# Inodes in memory and on the disk

`icopymd` and `icopydm` of `fs1.c`, with `ltol3` and `l3tol` of `md.c`.  The unions `i_a` and `di_a`
are memories of bytes, and an inode on the disk is the 64 bytes of a `struct dinode`.

* `l3tol_ltol3` — three bytes are enough for the number of a block;
* `icopydm_icopymd` — what `icopydm` reads is what `icopymd` has written;
* `icopymd_icopydm` — and what `icopymd` writes then is the same again.
-/

/-! ### Definitions -/

/-- An unsigned number of 16 bits, and one of 32 bits. -/
abbrev Short := Fin 65536
abbrev Long := Fin 4294967296

def IFDIR : ℕ := 0x4000
def IFCHR : ℕ := 0x2000
def IFBLK : ℕ := 0x6000
def IFPIPE : ℕ := 0x1000

/-- Flags of an inode: it has been accessed, modified or created, and it is write-protected. -/
def IFACC : ℕ := 0x01
def IFMOD : ℕ := 0x02
def IFCRT : ℕ := 0x04
def IFWPROT : ℕ := 0x10

/-- The inode of the bad blocks, and the one of the root. -/
def BADFIN : ℕ := 1
def ROOTIN : ℕ := 2

def INOPB : ℕ := 8
def INODEI : ℕ := 2

/-- `iblockn` and `iblocko`: the place of an inode on the disk. -/
def iblockn (ino : ℕ) : ℕ := INODEI + (ino - 1) / INOPB
def iblocko (ino : ℕ) : ℕ := (ino - 1) % INOPB

/-- Offsets in `struct dinode`. -/
def DI_MODE : ℕ := 0
def DI_NLINK : ℕ := 2
def DI_UID : ℕ := 4
def DI_GID : ℕ := 6
def DI_PNC : ℕ := DI_ADDB + 30
def DI_PRX : ℕ := DI_ADDB + 32
def DI_PWX : ℕ := DI_ADDB + 34
def DI_ATIME : ℕ := 52
def DI_MTIME : ℕ := 56
def DI_CTIME : ℕ := 60

/-- Offsets in the union `i_a`: the real device, and the numbers behind the ten addresses of a
    pipe. -/
def ID_RDEV : ℕ := 0
def IP_PNC : ℕ := 40
def IP_PRX : ℕ := 42
def IP_PWX : ℕ := 44

/-- An inode in memory.  The union `iA` has the addresses, the device or the pipe. -/
structure Inode where
  iDev : Short
  iIno : Short
  iRefc : ℕ
  iLrt : Long
  iFlag : ℕ
  iMode : Short
  iNlink : Short
  iUid : Short
  iGid : Short
  iSize : Long
  iA : Bytes
  iAtime : Long
  iMtime : Long
  iCtime : Long
  iRl : Option ℕ

/-- The type of an inode. -/
def Inode.type (ip : Inode) : ℕ := ip.iMode.val &&& IFMT

/-- The device: whether it is `NODEV`, whether `getment` finds it mounted for writing, which of its
    blocks can be read, and the time. -/
structure Env where
  nodev : Short → Bool
  getment : Short → Bool
  readable : ℕ → Bool
  time : Long

/-- The inodes on the disk, by block and place in it. -/
abbrev Disk := ℕ × ℕ → Bytes

/-- `cansize` and `cantime`, which are `_canl`. -/
def canl (v : Long) : Long := ⟨rol16 v.val, rol16_lt v.val⟩

/-- `ltol3`: `nl` numbers from `lp` on are written from `cp` on. -/
def ltol3 (m : Bytes) (cp : ℕ) (lm : Bytes) (lp : ℕ) : ℕ → Bytes
  | 0 => m
  | nl + 1 =>
      let l := lm.long lp
      let m := Function.update m cp (byte (l >>> 16))
      let m := Function.update m (cp + 1) (byte l)
      let m := Function.update m (cp + 2) (byte (l >>> 8))
      ltol3 m (cp + 3) lm (lp + 4) nl

/-- `l3tol`: `nl` numbers from `cp` on are written from `lp` on. -/
def l3tols (m : Bytes) (lp : ℕ) (cm : Bytes) (cp : ℕ) : ℕ → Bytes
  | 0 => m
  | nl + 1 => l3tols (m.setLong lp (l3tol cm cp)) (lp + 4) cm (cp + 3) nl

/-- `memset` to zero of `n` bytes from `o` on. -/
def clear (m : Bytes) (o n : ℕ) : Bytes := fun i => if o ≤ i ∧ i < o + n then 0 else m i

/-- The part of `icopymd` that goes into the union. -/
def putUnion (dip : Bytes) (ip : Inode) : Bytes :=
  if ip.type = IFBLK ∨ ip.type = IFCHR then dip.setWord DI_ADDB (ip.iA.word ID_RDEV)
  else if ip.type = IFREG ∨ ip.type = IFDIR then ltol3 dip DI_ADDB ip.iA 0 NADDR
  else if ip.type = IFPIPE then
    let dip := ltol3 dip DI_ADDB ip.iA 0 ND
    let dip := dip.setWord DI_PNC (ip.iA.word IP_PNC)
    let dip := dip.setWord DI_PRX (ip.iA.word IP_PRX)
    dip.setWord DI_PWX (ip.iA.word IP_PWX)
  else clear dip DI_ADDB 40

/-- The part of `icopymd` before the union. -/
def putHead (dip : Bytes) (ip : Inode) : Bytes :=
  let dip := dip.setWord DI_MODE ip.iMode.val
  let dip := dip.setWord DI_NLINK ip.iNlink.val
  let dip := dip.setWord DI_UID ip.iUid.val
  let dip := dip.setWord DI_GID ip.iGid.val
  dip.setLong DI_SIZE (canl ip.iSize).val

/-- The part of `icopymd` behind the union. -/
def putTimes (dip : Bytes) (ip : Inode) : Bytes :=
  let dip := dip.setLong DI_ATIME (canl ip.iAtime).val
  let dip := dip.setLong DI_MTIME (canl ip.iMtime).val
  dip.setLong DI_CTIME (canl ip.iCtime).val

/-- The inode that `icopymd` makes for the disk; `stack` is what was on the stack. -/
def putDinode (stack : Bytes) (ip : Inode) : Bytes :=
  putTimes (putUnion (putHead stack ip) ip) ip

/-- The part of `icopydm` that comes from the union. -/
def getUnion (type : ℕ) (dip : Bytes) : Bytes :=
  let iA : Bytes := fun _ => 0
  if type = IFBLK ∨ type = IFCHR then iA.setWord ID_RDEV (dip.word DI_ADDB)
  else if type = IFREG ∨ type = IFDIR then l3tols iA 0 dip DI_ADDB NADDR
  else if type = IFPIPE then
    let iA := l3tols iA 0 dip DI_ADDB ND
    let iA := iA.setWord IP_PNC (dip.word DI_PNC)
    let iA := iA.setWord IP_PRX (dip.word DI_PRX)
    iA.setWord IP_PWX (dip.word DI_PWX)
  else iA

/-- The number at an offset. -/
def half (m : Bytes) (o : ℕ) : Short := ⟨m.word o, word_lt m o⟩

def whole (m : Bytes) (o : ℕ) : Long := ⟨m.long o, long_lt m o⟩

/-- `icopydm`, and whether it has read the inode. -/
def icopydm (env : Env) (ip : Inode) (disk : Disk) : Bool × Inode :=
  let ip := { ip with iFlag := if env.getment ip.iDev = false then IFWPROT else 0 }
  let ino := ip.iIno.val
  if env.readable (iblockn ino) = false then (false, ip)
  else
    let dip := disk (iblockn ino, iblocko ino)
    let iMode := half dip DI_MODE
    (true,
      { ip with
        iMode := iMode
        iNlink := half dip DI_NLINK
        iUid := half dip DI_UID
        iGid := half dip DI_GID
        iSize := canl (whole dip DI_SIZE)
        iA := getUnion (iMode.val &&& IFMT) dip
        iAtime := canl (whole dip DI_ATIME)
        iMtime := canl (whole dip DI_MTIME)
        iCtime := canl (whole dip DI_CTIME)
        iRl := none })

/-- The inode has no references and no links left. -/
def Inode.unused (ip : Inode) : Prop :=
  ip.iRefc = 0 ∧ ip.iNlink.val = 0 ∧ ip.iIno.val ≠ BADFIN ∧ ip.iIno.val ≠ ROOTIN

instance (ip : Inode) : Decidable ip.unused := inferInstanceAs (Decidable (_ ∧ _))

/-- `itruncate`, as far as it is seen in the inode. -/
def itruncate (env : Env) (ip : Inode) : Inode :=
  if ip.type = IFPIPE ∨ ip.type = IFDIR ∨ ip.type = IFREG then
    let ip := { ip with iSize := 0 }
    if ip.iFlag &&& IFWPROT ≠ 0 then ip
    else
      { ip with
        iFlag := ip.iFlag ||| (IFACC ||| IFMOD ||| IFCRT)
        iAtime := env.time
        iMtime := env.time
        iCtime := env.time }
  else ip

/-- An inode that is not used is cleared before it is written. -/
def Inode.release (env : Env) (ip : Inode) : Inode :=
  if ip.unused then { itruncate env ip with iLrt := 0, iMode := 0, iA := fun _ => 0 } else ip

/-- `icopymd`: the inode and the disk behind it. -/
def icopymd (env : Env) (stack : Bytes) (ip : Inode) (disk : Disk) : Inode × Disk :=
  if env.nodev ip.iDev = true ∨ env.getment ip.iDev = false then (ip, disk)
  else
    let ip := ip.release env
    let ino := ip.iIno.val
    let dip := putDinode stack ip
    if env.readable (iblockn ino) = false then (ip, disk)
    else
      ({ ip with iFlag := ip.iFlag - (ip.iFlag &&& (IFACC ||| IFMOD ||| IFCRT)) },
        Function.update disk (iblockn ino, iblocko ino) dip)

/-! ### What is kept -/

/-- The bytes of `i_a` that are kept on the disk, for the type of an inode. -/
def kept (type : ℕ) : ℕ :=
  if type = IFBLK ∨ type = IFCHR then 2
  else if type = IFREG ∨ type = IFDIR then 4 * NADDR
  else if type = IFPIPE then IP_PWX + 2
  else 0

/-- The bytes of `di_a` that are written for the type of an inode. -/
def written (type : ℕ) : ℕ :=
  if type = IFBLK ∨ type = IFCHR then 2
  else if type = IFREG ∨ type = IFDIR then 3 * NADDR
  else if type = IFPIPE then 3 * ND + 6
  else 40

/-- The addresses of blocks in an inode. -/
def addresses (type : ℕ) : ℕ :=
  if type = IFREG ∨ type = IFDIR then NADDR else if type = IFPIPE then ND else 0

/-- The addresses of the blocks are below `2 ^ 24`. -/
def Inode.Addressed (ip : Inode) : Prop := ∀ k < addresses ip.type, ip.iA.long (4 * k) < 2 ^ 24

/-- Every field that an inode has on the disk is the same; the rest of the union is cleared. -/
structure Restored (ip r : Inode) : Prop where
  iMode : r.iMode = ip.iMode
  iNlink : r.iNlink = ip.iNlink
  iUid : r.iUid = ip.iUid
  iGid : r.iGid = ip.iGid
  iSize : r.iSize = ip.iSize
  iA : ∀ i, r.iA i = if i < kept ip.type then ip.iA i else 0
  iAtime : r.iAtime = ip.iAtime
  iMtime : r.iMtime = ip.iMtime
  iCtime : r.iCtime = ip.iCtime

/-! ### Numbers of three bytes -/

variable {m m' lm lm' cm : Bytes} {cp lp lp' nl i k : ℕ}

theorem l3tol_val (cm : Bytes) (o : ℕ) :
    l3tol cm o = (cm o).val * 65536 + (cm (o + 2)).val * 256 + (cm (o + 1)).val := by
  rw [l3tol_eq]
  unfold threeByte
  omega

theorem l3tol_lt (cm : Bytes) (o : ℕ) : l3tol cm o < 2 ^ 24 := by
  rw [l3tol_val]
  omega

/-- The three bytes of a number. -/
def put3 (m : Bytes) (cp l : ℕ) : Bytes :=
  Function.update (Function.update (Function.update m cp (byte (l >>> 16))) (cp + 1) (byte l))
    (cp + 2) (byte (l >>> 8))

theorem put3_of_not_mem {l : ℕ} (h : ¬(cp ≤ i ∧ i < cp + 3)) : put3 m cp l i = m i := by
  unfold put3
  rw [Function.update_of_ne (by omega), Function.update_of_ne (by omega),
    Function.update_of_ne (by omega)]

theorem put3_eq {l : ℕ} (h : cp ≤ i) (h' : i < cp + 3) : put3 m cp l i = put3 m' cp l i := by
  unfold put3
  simp only [Function.update_apply]
  split_ifs <;> first | rfl | omega

theorem l3tol_put3 (m : Bytes) (cp l : ℕ) : l3tol (put3 m cp l) cp = l % 2 ^ 24 := by
  rw [l3tol_val]
  unfold put3
  rw [Function.update_self, Function.update_of_ne (by omega), Function.update_of_ne (by omega),
    Function.update_self, Function.update_of_ne (by omega), Function.update_self]
  simp only [byte_val, Nat.shiftRight_eq_div_pow]
  omega

theorem l3tol_congr (h : ∀ k < 3, m (cp + k) = m' (cp + k)) : l3tol m cp = l3tol m' cp := by
  rw [l3tol_val, l3tol_val, h 1 (by norm_num), h 2 (by norm_num),
    show m cp = m' cp from h 0 (by norm_num)]

theorem ltol3_succ : ltol3 m cp lm lp (nl + 1) =
    ltol3 (put3 m cp (lm.long lp)) (cp + 3) lm (lp + 4) nl := rfl

theorem ltol3_of_not_mem (h : ¬(cp ≤ i ∧ i < cp + 3 * nl)) : ltol3 m cp lm lp nl i = m i := by
  induction nl generalizing m cp lp with
  | zero => rfl
  | succ nl ih =>
    rw [ltol3_succ, ih (by omega)]
    exact put3_of_not_mem (by omega)

/-- **Three bytes are enough** for a number below `2 ^ 24`. -/
theorem l3tol_ltol3 (m : Bytes) (cp : ℕ) (lm : Bytes) (lp : ℕ) (hk : k < nl) :
    l3tol (ltol3 m cp lm lp nl) (cp + 3 * k) = lm.long (lp + 4 * k) % 2 ^ 24 := by
  induction nl generalizing m cp lp k with
  | zero => exact absurd hk (Nat.not_lt_zero k)
  | succ nl ih =>
    rw [ltol3_succ]
    cases k with
    | zero =>
      have hfirst : l3tol (ltol3 (put3 m cp (lm.long lp)) (cp + 3) lm (lp + 4) nl) cp =
          l3tol (put3 m cp (lm.long lp)) cp :=
        l3tol_congr fun k hk => ltol3_of_not_mem (by omega)
      exact hfirst.trans (l3tol_put3 _ _ _)
    | succ k =>
      have hnext := @ih k (put3 m cp (lm.long lp)) (cp + 3) (lp + 4) (by omega)
      rw [show cp + 3 * (k + 1) = cp + 3 + 3 * k by ring,
        show lp + 4 * (k + 1) = lp + 4 + 4 * k by ring]
      exact hnext

/-- The bytes that `ltol3` writes are those of its numbers. -/
theorem ltol3_congr (h : ∀ k < nl, lm.long (lp + 4 * k) = lm'.long (lp + 4 * k)) (hi : cp ≤ i)
    (hi' : i < cp + 3 * nl) : ltol3 m cp lm lp nl i = ltol3 m' cp lm' lp nl i := by
  induction nl generalizing m m' cp lp with
  | zero => omega
  | succ nl ih =>
    have hnext : ∀ k < nl, lm.long (lp + 4 + 4 * k) = lm'.long (lp + 4 + 4 * k) := by
      intro k hk
      have := h (k + 1) (by omega)
      rwa [show lp + 4 * (k + 1) = lp + 4 + 4 * k by ring] at this
    rw [ltol3_succ, ltol3_succ, show lm.long lp = lm'.long lp from h 0 (by omega)]
    by_cases hin : cp + 3 ≤ i
    · exact ih hnext hin (by omega)
    · rw [ltol3_of_not_mem (by omega), ltol3_of_not_mem (by omega)]
      exact put3_eq hi (by omega)

theorem l3tols_of_not_mem (h : ¬(lp ≤ i ∧ i < lp + 4 * nl)) : l3tols m lp cm cp nl i = m i := by
  induction nl generalizing m cp lp with
  | zero => rfl
  | succ nl ih =>
    unfold l3tols
    rw [ih (by omega)]
    exact setLong_of_not_mem (by omega)

theorem long_l3tols (m : Bytes) (lp : ℕ) (cm : Bytes) (cp : ℕ) (hk : k < nl) :
    (l3tols m lp cm cp nl).long (lp + 4 * k) = l3tol cm (cp + 3 * k) := by
  induction nl generalizing m cp lp k with
  | zero => exact absurd hk (Nat.not_lt_zero k)
  | succ nl ih =>
    unfold l3tols
    cases k with
    | zero =>
      have hfirst : (l3tols (m.setLong lp (l3tol cm cp)) (lp + 4) cm (cp + 3) nl).long lp =
          (m.setLong lp (l3tol cm cp)).long lp :=
        long_congr fun i _ _ => l3tols_of_not_mem (by omega)
      exact hfirst.trans (long_setLong ((l3tol_lt cm cp).trans (by norm_num)))
    | succ k =>
      have hnext := @ih k (m.setLong lp (l3tol cm cp)) (lp + 4) (cp + 3) (by omega)
      rw [show cp + 3 * (k + 1) = cp + 3 + 3 * k by ring,
        show lp + 4 * (k + 1) = lp + 4 + 4 * k by ring]
      exact hnext

/-! ### Fields -/

variable {env : Env} {ip q r : Inode} {dip stack stack' : Bytes} {disk : Disk} {type : ℕ}

/-- The union is between the size and the times. -/
theorem putUnion_of_not_mem (h : ¬(DI_ADDB ≤ i ∧ i < DI_ATIME)) : putUnion dip ip i = dip i := by
  unfold DI_ADDB DI_ATIME at h
  unfold putUnion
  simp only [DI_ADDB, DI_PNC, DI_PRX, DI_PWX, NADDR, ND]
  split_ifs
  · exact setWord_of_not_mem (by omega)
  · exact ltol3_of_not_mem (by omega)
  · rw [setWord_of_not_mem (by omega), setWord_of_not_mem (by omega), setWord_of_not_mem (by omega)]
    exact ltol3_of_not_mem (by omega)
  · exact if_neg (by omega)

theorem putTimes_of_lt (h : i < DI_ATIME) : putTimes dip ip i = dip i := by
  unfold DI_ATIME at h
  simp only [putTimes, DI_ATIME, DI_MTIME, DI_CTIME]
  rw [setLong_of_not_mem (by omega), setLong_of_not_mem (by omega), setLong_of_not_mem (by omega)]

/-- The bytes before the union. -/
theorem putDinode_head (h : i < DI_ADDB) : putDinode stack ip i = putHead stack ip i := by
  unfold DI_ADDB at h
  unfold putDinode
  rw [putTimes_of_lt (by unfold DI_ATIME; omega),
    putUnion_of_not_mem (by unfold DI_ADDB DI_ATIME; omega)]

/-- The bytes of the union. -/
theorem putDinode_union (h : i < DI_ATIME) :
    putDinode stack ip i = putUnion (putHead stack ip) ip i := putTimes_of_lt h

/-- A number before the union, and one behind it. -/
theorem word_putDinode (h : i + 2 ≤ DI_ADDB) : (putDinode stack ip).word i =
    (putHead stack ip).word i :=
  word_congr fun _ _ _ => putDinode_head (by omega)

theorem long_putDinode (h : i + 4 ≤ DI_ADDB) : (putDinode stack ip).long i =
    (putHead stack ip).long i :=
  long_congr fun _ _ _ => putDinode_head (by omega)

/-- **The numbers before the union**. -/
theorem putHead_words (dip : Bytes) (ip : Inode) : (putHead dip ip).word DI_MODE = ip.iMode.val ∧
    (putHead dip ip).word DI_NLINK = ip.iNlink.val ∧ (putHead dip ip).word DI_UID = ip.iUid.val ∧
    (putHead dip ip).word DI_GID = ip.iGid.val ∧
    (putHead dip ip).long DI_SIZE = (canl ip.iSize).val := by
  simp only [putHead, DI_SIZE, DI_GID, DI_UID, DI_NLINK, DI_MODE]
  refine ⟨?_, ?_, ?_, ?_, long_setLong (canl ip.iSize).isLt⟩
  · rw [word_setLong_of_ne (by omega), word_setWord_of_ne (by omega), word_setWord_of_ne (by omega),
      word_setWord_of_ne (by omega), word_setWord ip.iMode.isLt]
  · rw [word_setLong_of_ne (by omega), word_setWord_of_ne (by omega), word_setWord_of_ne (by omega),
      word_setWord ip.iNlink.isLt]
  · rw [word_setLong_of_ne (by omega), word_setWord_of_ne (by omega), word_setWord ip.iUid.isLt]
  · rw [word_setLong_of_ne (by omega), word_setWord ip.iGid.isLt]

/-- **The times**. -/
theorem putDinode_times (stack : Bytes) (ip : Inode) :
    (putDinode stack ip).long DI_ATIME = (canl ip.iAtime).val ∧
    (putDinode stack ip).long DI_MTIME = (canl ip.iMtime).val ∧
    (putDinode stack ip).long DI_CTIME = (canl ip.iCtime).val := by
  simp only [putDinode, putTimes, DI_ATIME, DI_MTIME, DI_CTIME]
  refine ⟨?_, ?_, long_setLong (canl ip.iCtime).isLt⟩
  · rw [long_setLong_of_ne (by omega), long_setLong_of_ne (by omega),
      long_setLong (canl ip.iAtime).isLt]
  · rw [long_setLong_of_ne (by omega), long_setLong (canl ip.iMtime).isLt]

theorem canl_canl (v : Long) : canl (canl v) = v := Fin.ext (rol16_rol16 v.isLt)

theorem canl_whole {v : Long} (h : dip.long i = (canl v).val) : canl (whole dip i) = v := by
  have hwhole : whole dip i = canl v := Fin.ext h
  rw [hwhole, canl_canl]

/-! ### The union -/

/-- The addresses are read back. -/
theorem addr_bytes {n : ℕ} (haddr : ∀ k < n, ip.iA.long (4 * k) < 2 ^ 24)
    (hdip : ∀ j < 3 * n, dip (cp + j) = ltol3 stack cp ip.iA 0 n (cp + j)) (hi : i < 4 * n) :
    l3tols (fun _ => 0) 0 dip cp n i = ip.iA i := by
  have hk : i / 4 < n := by omega
  have hlong : (l3tols (fun _ => 0) 0 dip cp n).long (4 * (i / 4)) = ip.iA.long (4 * (i / 4)) := by
    have hread := long_l3tols (fun _ => 0) 0 dip cp hk
    rw [Nat.zero_add] at hread
    have htriple : l3tol dip (cp + 3 * (i / 4)) = l3tol (ltol3 stack cp ip.iA 0 n)
        (cp + 3 * (i / 4)) :=
      l3tol_congr fun j hj => by
        rw [Nat.add_assoc]
        exact hdip _ (by omega)
    have hwritten := l3tol_ltol3 stack cp ip.iA 0 hk
    rw [Nat.zero_add, Nat.mod_eq_of_lt (haddr _ hk)] at hwritten
    rw [hread, htriple, hwritten]
  have hbyte := bytes_of_long hlong (Nat.mod_lt i (by norm_num : 0 < 4))
  rwa [Nat.div_add_mod] at hbyte

/-- A number of 16 bits that is read back. -/
theorem word_bytes {o w : ℕ} (hw : w = ip.iA.word o) (h : o ≤ i) (h' : i < o + 2) (m : Bytes) :
    m.setWord o w i = ip.iA i := by
  have hword : (m.setWord o w).word o = ip.iA.word o := by
    rw [hw]
    exact word_setWord (word_lt _ _)
  have hbyte := bytes_of_word hword (by omega : i - o < 2)
  rwa [Nat.add_sub_cancel' h] at hbyte

/-- A device. -/
theorem getUnion_device (hdev : ip.type = IFBLK ∨ ip.type = IFCHR)
    (hdip : ∀ i, DI_ADDB ≤ i → i < DI_ATIME → dip i = putUnion stack ip i) (i : ℕ) :
    getUnion ip.type dip i = if i < kept ip.type then ip.iA i else 0 := by
  have hword : dip.word DI_ADDB = ip.iA.word ID_RDEV := by
    have heq : dip.word DI_ADDB = (putUnion stack ip).word DI_ADDB :=
      word_congr fun i hlo hhi => hdip i hlo (by unfold DI_ATIME; unfold DI_ADDB at hhi; omega)
    unfold putUnion at heq
    rwa [if_pos hdev, word_setWord (word_lt _ _)] at heq
  unfold getUnion kept
  rw [if_pos hdev, if_pos hdev]
  by_cases hi : i < 2
  · rw [if_pos hi]
    exact word_bytes hword (Nat.zero_le i) hi _
  · rw [if_neg hi]
    exact setWord_of_not_mem (by unfold ID_RDEV; omega)

/-- A file or a directory. -/
theorem getUnion_file (hdev : ¬(ip.type = IFBLK ∨ ip.type = IFCHR))
    (hfile : ip.type = IFREG ∨ ip.type = IFDIR) (haddr : ip.Addressed)
    (hdip : ∀ i, DI_ADDB ≤ i → i < DI_ATIME → dip i = putUnion stack ip i) (i : ℕ) :
    getUnion ip.type dip i = if i < kept ip.type then ip.iA i else 0 := by
  unfold Inode.Addressed addresses at haddr
  rw [if_pos hfile] at haddr
  have hlist : ∀ j < 3 * NADDR, dip (DI_ADDB + j) = ltol3 stack DI_ADDB ip.iA 0 NADDR
      (DI_ADDB + j) := by
    intro j hj
    have heq := hdip (DI_ADDB + j) (Nat.le_add_right _ _) (by
      unfold DI_ADDB DI_ATIME
      unfold NADDR at hj
      omega)
    unfold putUnion at heq
    rwa [if_neg hdev, if_pos hfile] at heq
  unfold getUnion kept
  rw [if_neg hdev, if_neg hdev, if_pos hfile, if_pos hfile]
  by_cases hi : i < 4 * NADDR
  · rw [if_pos hi]
    exact addr_bytes haddr hlist hi
  · rw [if_neg hi]
    exact l3tols_of_not_mem (by omega)

/-- A pipe: its addresses, the number of characters, and the places to read and to write. -/
theorem getUnion_pipe (hdev : ¬(ip.type = IFBLK ∨ ip.type = IFCHR))
    (hfile : ¬(ip.type = IFREG ∨ ip.type = IFDIR)) (hpipe : ip.type = IFPIPE)
    (haddr : ip.Addressed)
    (hdip : ∀ i, DI_ADDB ≤ i → i < DI_ATIME → dip i = putUnion stack ip i) (i : ℕ) :
    getUnion ip.type dip i = if i < kept ip.type then ip.iA i else 0 := by
  unfold Inode.Addressed addresses at haddr
  rw [if_neg hfile, if_pos hpipe] at haddr
  unfold putUnion at hdip
  simp only [if_neg hdev, if_neg hfile, if_pos hpipe, DI_ADDB, DI_PNC, DI_PRX, DI_PWX, DI_ATIME]
    at hdip
  have hlist : ∀ j < 3 * ND, dip (DI_ADDB + j) = ltol3 stack DI_ADDB ip.iA 0 ND (DI_ADDB + j) := by
    intro j hj
    unfold ND at hj
    unfold DI_ADDB
    rw [hdip _ (by omega) (by omega), setWord_of_not_mem (by omega), setWord_of_not_mem (by omega),
      setWord_of_not_mem (by omega)]
  have hpnc : dip.word DI_PNC = ip.iA.word IP_PNC := by
    unfold DI_PNC DI_ADDB
    rw [word_congr fun i hlo hhi => hdip i (by omega) (by omega), word_setWord_of_ne (by omega),
      word_setWord_of_ne (by omega), word_setWord (word_lt _ _)]
  have hprx : dip.word DI_PRX = ip.iA.word IP_PRX := by
    unfold DI_PRX DI_ADDB
    rw [word_congr fun i hlo hhi => hdip i (by omega) (by omega), word_setWord_of_ne (by omega),
      word_setWord (word_lt _ _)]
  have hpwx : dip.word DI_PWX = ip.iA.word IP_PWX := by
    unfold DI_PWX DI_ADDB
    rw [word_congr fun i hlo hhi => hdip i (by omega) (by omega), word_setWord (word_lt _ _)]
  unfold getUnion kept
  simp only [if_neg hdev, if_neg hfile, if_pos hpipe]
  unfold IP_PNC at hpnc ⊢
  unfold IP_PRX at hprx ⊢
  unfold IP_PWX at hpwx ⊢
  by_cases hi : i < 44 + 2
  · rw [if_pos hi]
    by_cases h₂ : 44 ≤ i
    · exact word_bytes hpwx h₂ hi _
    rw [setWord_of_not_mem (by omega)]
    by_cases h₁ : 42 ≤ i
    · exact word_bytes hprx h₁ (by omega) _
    rw [setWord_of_not_mem (by omega)]
    by_cases h₀ : 40 ≤ i
    · exact word_bytes hpnc h₀ (by omega) _
    rw [setWord_of_not_mem (by omega)]
    exact addr_bytes haddr hlist (by unfold ND; omega)
  · rw [if_neg hi, setWord_of_not_mem (by omega), setWord_of_not_mem (by omega),
      setWord_of_not_mem (by omega)]
    exact l3tols_of_not_mem (by unfold ND; omega)

/-- **What is read of the union** is what has been written, for each type of an inode. -/
theorem getUnion_putUnion (haddr : ip.Addressed)
    (hdip : ∀ i, DI_ADDB ≤ i → i < DI_ATIME → dip i = putUnion stack ip i) (i : ℕ) :
    getUnion ip.type dip i = if i < kept ip.type then ip.iA i else 0 := by
  by_cases hdev : ip.type = IFBLK ∨ ip.type = IFCHR
  · exact getUnion_device hdev hdip i
  by_cases hfile : ip.type = IFREG ∨ ip.type = IFDIR
  · exact getUnion_file hdev hfile haddr hdip i
  by_cases hpipe : ip.type = IFPIPE
  · exact getUnion_pipe hdev hfile hpipe haddr hdip i
  unfold getUnion kept
  rw [if_neg hdev, if_neg hfile, if_neg hpipe, if_neg hdev, if_neg hfile, if_neg hpipe]
  exact (if_neg (Nat.not_lt_zero i)).symm

/-! ### Both copies -/

/-- **What `icopydm` reads** is what `icopymd` has written. -/
theorem icopydm_restores (haddr : ip.Addressed) (hread : env.readable (iblockn q.iIno.val) = true)
    (hdisk : disk (iblockn q.iIno.val, iblocko q.iIno.val) = putDinode stack ip) :
    (icopydm env q disk).1 = true ∧ Restored ip (icopydm env q disk).2 := by
  obtain ⟨hmode, hnlink, huid, hgid, hsize⟩ := putHead_words stack ip
  obtain ⟨hatime, hmtime, hctime⟩ := putDinode_times stack ip
  unfold icopydm
  simp only
  rw [if_neg (by rw [hread]; decide), hdisk]
  have hhalf : half (putDinode stack ip) DI_MODE = ip.iMode :=
    Fin.ext ((word_putDinode (by decide)).trans hmode)
  refine ⟨rfl, hhalf, ?_, ?_, ?_, ?_, fun i => ?_, canl_whole hatime, canl_whole hmtime,
    canl_whole hctime⟩
  · exact Fin.ext ((word_putDinode (by decide)).trans hnlink)
  · exact Fin.ext ((word_putDinode (by decide)).trans huid)
  · exact Fin.ext ((word_putDinode (by decide)).trans hgid)
  · exact canl_whole ((long_putDinode (by decide)).trans hsize)
  · rw [hhalf]
    exact getUnion_putUnion haddr (fun j hlo hhi => putDinode_union hhi) i

theorem putHead_congr (h : Restored ip r) (hi : i < DI_ADDB) :
    putHead stack' r i = putHead stack ip i := by
  unfold DI_ADDB at hi
  simp only [putHead, h.iMode, h.iNlink, h.iUid, h.iGid, h.iSize, Bytes.setWord, Bytes.setLong,
    DI_MODE, DI_NLINK, DI_UID, DI_GID, DI_SIZE]
  split_ifs <;> first | rfl | omega

theorem putTimes_congr (h : Restored ip r) (hi : DI_ATIME ≤ i) (hi' : i < 64) :
    putTimes stack' r i = putTimes stack ip i := by
  unfold DI_ATIME at hi
  simp only [putTimes, h.iAtime, h.iMtime, h.iCtime, Bytes.setLong, DI_ATIME, DI_MTIME, DI_CTIME]
  split_ifs <;> first | rfl | omega

theorem setWord_congr {o : ℕ} (hw : m.word cp = m'.word lp) (hi : o ≤ i) (hi' : i < o + 2) :
    lm.setWord o (m.word cp) i = lm'.setWord o (m'.word lp) i := by
  rw [hw]
  unfold Bytes.setWord
  rw [if_pos ⟨hi, hi'⟩, if_pos ⟨hi, hi'⟩]

theorem setWord_skip {o v v' : ℕ} (h : ¬(o ≤ i ∧ i < o + 2)) (heq : m i = m' i) :
    m.setWord o v i = m'.setWord o v' i := by
  rw [setWord_of_not_mem h, setWord_of_not_mem h, heq]

/-- The bytes of the union depend on those that are kept. -/
theorem putUnion_congr (h : Restored ip r) (hi : DI_ADDB ≤ i)
    (hi' : i < DI_ADDB + written ip.type) :
    putUnion stack' r i = putUnion stack ip i := by
  have htype : r.type = ip.type := by
    unfold Inode.type
    rw [h.iMode]
  have hbytes : ∀ j < kept ip.type, r.iA j = ip.iA j := fun j hj => (h.iA j).trans (if_pos hj)
  have hword : ∀ o, o + 2 ≤ kept ip.type → r.iA.word o = ip.iA.word o :=
    fun o ho => word_congr fun j _ _ => hbytes j (by omega)
  have hlong : ∀ k, 4 * k + 4 ≤ kept ip.type → r.iA.long (0 + 4 * k) = ip.iA.long (0 + 4 * k) :=
    fun k hk => long_congr fun j _ _ => hbytes j (by omega)
  unfold putUnion
  unfold written at hi'
  unfold kept at hword hlong
  rw [htype]
  by_cases hdev : ip.type = IFBLK ∨ ip.type = IFCHR
  · rw [if_pos hdev, if_pos hdev]
    rw [if_pos hdev] at hi' hword
    exact setWord_congr (hword _ (by decide)) hi hi'
  rw [if_neg hdev, if_neg hdev]
  simp only [if_neg hdev] at hi' hword hlong
  by_cases hfile : ip.type = IFREG ∨ ip.type = IFDIR
  · rw [if_pos hfile, if_pos hfile]
    simp only [if_pos hfile] at hi' hlong
    exact ltol3_congr (fun k hk => hlong k (by omega)) hi hi'
  rw [if_neg hfile, if_neg hfile]
  simp only [if_neg hfile] at hi' hword hlong
  by_cases hpipe : ip.type = IFPIPE
  · rw [if_pos hpipe, if_pos hpipe]
    simp only [if_pos hpipe, IP_PWX, ND, DI_ADDB] at hi hi' hword hlong
    simp only [DI_ADDB, DI_PNC, DI_PRX, DI_PWX, IP_PNC, IP_PRX, IP_PWX, ND]
    by_cases h₂ : 46 ≤ i
    · exact setWord_congr (hword 44 (by norm_num)) h₂ (by omega)
    refine setWord_skip (by omega) ?_
    by_cases h₁ : 44 ≤ i
    · exact setWord_congr (hword 42 (by norm_num)) h₁ (by omega)
    refine setWord_skip (by omega) ?_
    by_cases h₀ : 42 ≤ i
    · exact setWord_congr (hword 40 (by norm_num)) h₀ (by omega)
    refine setWord_skip (by omega) ?_
    exact ltol3_congr (fun k hk => hlong k (by omega)) hi (by omega)
  · rw [if_neg hpipe, if_neg hpipe]
    simp only [if_neg hpipe] at hi'
    unfold clear
    rw [if_pos ⟨hi, hi'⟩, if_pos ⟨hi, hi'⟩]

/-- **What `icopymd` writes again** is the same, but for the bytes that its type does not use. -/
theorem putDinode_congr (h : Restored ip r) (hi : i < 64)
    (hused : ¬(DI_ADDB + written ip.type ≤ i ∧ i < DI_ATIME)) :
    putDinode stack' r i = putDinode stack ip i := by
  by_cases hhead : i < DI_ADDB
  · rw [putDinode_head hhead, putDinode_head hhead]
    exact putHead_congr h hhead
  by_cases htimes : i < DI_ATIME
  · rw [putDinode_union htimes, putDinode_union htimes]
    exact putUnion_congr h (not_lt.mp hhead) (by omega)
  · exact putTimes_congr h (not_lt.mp htimes) hi

theorem itruncate_ino (env : Env) (ip : Inode) : (itruncate env ip).iIno = ip.iIno := by
  unfold itruncate
  by_cases h : ip.type = IFPIPE ∨ ip.type = IFDIR ∨ ip.type = IFREG
  · rw [if_pos h]
    simp only
    split_ifs <;> rfl
  · rw [if_neg h]

theorem release_ino (env : Env) (ip : Inode) : (ip.release env).iIno = ip.iIno := by
  unfold Inode.release
  split_ifs
  · exact itruncate_ino env ip
  · rfl

/-- An inode that is cleared has no addresses. -/
theorem Inode.Addressed.release (h : ip.Addressed) (env : Env) : (ip.release env).Addressed := by
  unfold Inode.release
  split_ifs
  · intro k hk
    have hnone : addresses ((0 : Short).val &&& IFMT) = 0 := by decide
    have hlt : k < addresses ((0 : Short).val &&& IFMT) := hk
    rw [hnone] at hlt
    exact absurd hlt (Nat.not_lt_zero k)
  · exact h

/-- What `icopymd` writes. -/
theorem icopymd_disk (stack : Bytes) (disk : Disk) (hdev : env.nodev ip.iDev = false)
    (hmount : env.getment ip.iDev = true)
    (hread : env.readable (iblockn ip.iIno.val) = true) :
    (icopymd env stack ip disk).2 (iblockn ip.iIno.val, iblocko ip.iIno.val) =
      putDinode stack (ip.release env) := by
  unfold icopymd
  rw [if_neg (by rw [hdev, hmount]; decide)]
  simp only
  rw [release_ino, if_neg (by rw [hread]; decide)]
  exact Function.update_self _ _ _

/-- **An inode is copied to the disk and back** with all the fields that it has there; and what is
    copied to the disk then has the same bytes, but for those that the type does not use. -/
theorem icopy_round (env : Env) (stack : Bytes) (ip q : Inode) (disk : Disk)
    (hdev : env.nodev ip.iDev = false) (hmount : env.getment ip.iDev = true)
    (hread : env.readable (iblockn ip.iIno.val) = true) (haddr : ip.Addressed)
    (hslot : q.iDev = ip.iDev ∧ q.iIno = ip.iIno) :
    let w := icopymd env stack ip disk
    let r := icopydm env q w.2
    (r.1 = true ∧ Restored (ip.release env) r.2) ∧
    (q.iRefc ≠ 0 → ∀ stack' i, i < 64 →
      ¬(DI_ADDB + written (ip.release env).type ≤ i ∧ i < DI_ATIME) →
        (icopymd env stack' r.2 w.2).2 (iblockn ip.iIno.val, iblocko ip.iIno.val) i =
          w.2 (iblockn ip.iIno.val, iblocko ip.iIno.val) i) ∧
    (¬ ip.unused → ip.release env = ip) := by
  have hino : (ip.release env).iIno = ip.iIno := release_ino env ip
  have hdisk : (icopymd env stack ip disk).2 (iblockn ip.iIno.val, iblocko ip.iIno.val) =
      putDinode stack (ip.release env) :=
    icopymd_disk stack disk hdev hmount hread
  have hread' : env.readable (iblockn q.iIno.val) = true := by rw [hslot.2, hread]
  have hback : (icopydm env q (icopymd env stack ip disk).2).1 = true ∧
      Restored (ip.release env) (icopydm env q (icopymd env stack ip disk).2).2 :=
    icopydm_restores (haddr.release env) hread' (by rw [hslot.2]; exact hdisk)
  refine ⟨hback, fun hrefc stack' i hi hused => ?_, fun h => if_neg h⟩
  obtain ⟨hok, hrestored⟩ := hback
  have hr : (icopydm env q (icopymd env stack ip disk).2).2.iIno = ip.iIno ∧
      (icopydm env q (icopymd env stack ip disk).2).2.iDev = ip.iDev ∧
      (icopydm env q (icopymd env stack ip disk).2).2.iRefc = q.iRefc := by
    unfold icopydm
    simp only
    rw [if_neg (by rw [hread']; decide)]
    exact ⟨hslot.2, hslot.1, rfl⟩
  generalize (icopydm env q (icopymd env stack ip disk).2).2 = r at hr hrestored ⊢
  have hkept : r.release env = r := if_neg fun h => hrefc (hr.2.2 ▸ h.1)
  have hagain := icopymd_disk stack' (icopymd env stack ip disk).2
    (by rw [hr.2.1, hdev] : env.nodev r.iDev = false) (by rw [hr.2.1, hmount])
    (by rw [hr.1, hread])
  rw [hr.1, hkept] at hagain
  rw [hagain, hdisk]
  exact putDinode_congr hrestored hi hused

/-- A disk that is mounted for writing and can be read, and an inode of it. -/
def mounted : Env := ⟨fun _ => false, fun _ => true, fun _ => true, 0⟩

def inodeOf (mode : Short) (iA : Bytes) : Inode :=
  ⟨0, 5, 1, 0, 0, mode, 1, 7, 8, 70000, iA, 1, 2, 3, none⟩

def zeros : Bytes := fun _ => 0

/-- A pipe with 300 characters in its two blocks, the next one to be read at 512. -/
def fullPipe : Inode :=
  inodeOf 0x1180 ((((zeros.setLong 0 900).setLong 4 65537).setWord 40 300).setWord 42 512)

theorem icopy_round_pipe : Restored fullPipe
    (icopydm mounted (inodeOf 0 fun _ => 9)
      (icopymd mounted (fun _ => 3) fullPipe fun _ _ => 0).2).2 := by
  have haddr : fullPipe.Addressed := by
    unfold Inode.Addressed
    decide
  have h := icopy_round mounted (fun _ => 3) fullPipe (inodeOf 0 fun _ => 9) (fun _ _ => 0) rfl rfl
    rfl haddr ⟨rfl, rfl⟩
  have hkept := h.2.2 (by decide)
  rw [hkept] at h
  exact h.1.2

/-- A character device with a pointer to what its driver keeps. -/
def charDevice : Inode := inodeOf 0x2180 ((zeros.setWord 0 0x0501).setLong 4 0x1234)

/-- The pointer of the driver is not on the disk; and the bytes behind the number of the device
    there are what was on the stack. -/
theorem private_cleared :
    (icopydm mounted (inodeOf 0 fun _ => 9)
      (icopymd mounted (fun _ => 3) charDevice fun _ _ => 0).2).2.iA 4 ≠ charDevice.iA 4 ∧
    (icopymd mounted (fun _ => 3) charDevice fun _ _ => 0).2 (2, 4) 20 ≠
      (icopymd mounted (fun _ => 4) charDevice fun _ _ => 0).2 (2, 4) 20 := by
  decide

end CohKernel.Fs.Icopy
