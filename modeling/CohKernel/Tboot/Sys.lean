import CohKernel.Lib.Runs
import CohKernel.Tboot.Indirect

namespace CohKernel.Tboot

open CohKernel.Lib

/-!
# The file calls of the boot loader

`open`, `read` and `close` of `tboot/sys.c`, on the `iread` of `diskio.c`.  Files are found by name
in the root directory of an image, and lie in the blocks that `vmap` gives.

* `ifread_eq` — `ifread` copies the bytes of the file;
* `openRead_spec`, `toRead_eq_iff` — the descriptor that is lost, and the byte too many;
* `behaves_iff` — in the runs without those calls every call does what it should.
-/

/-! ### Files -/

/-- The size of a block. -/
def BLOCK : ℕ := 512

/-- What the calls use of `struct inode`. -/
structure Inode where
  iIno : ℕ
  iSize : ℕ
  iAddr : ℕ → ℕ

/-- A disk: its blocks, the root directory for `namei`, and the inodes for `iopen`.  A size is a
    number of 32 bits. -/
structure Image where
  blocks : ℕ → Bytes
  namei : List Byte → ℕ
  dinode : ℕ → Inode
  size_lt : ∀ ino, (dinode ino).iSize < 2 ^ 32

/-- A byte of a file. -/
def fileByte (blocks : ℕ → Bytes) (ip : Inode) (x : ℕ) : Byte :=
  blocks (vmap blocks ip.iAddr (x / BLOCK)) (x % BLOCK)

/-- `ffcopy` out of a block of the file. -/
def ffcopy (blocks : ℕ → Bytes) (ip : Inode) (fblockno blockoffset n : ℕ) : List Byte :=
  (List.range n).map fun j => blocks (vmap blocks ip.iAddr fblockno) (blockoffset + j)

/-- The middle blocks and the last fraction of a block in `ifread`. -/
def ifreadRest (blocks : ℕ → Bytes) (ip : Inode) (fblockno length : ℕ) : List Byte :=
  if BLOCK < length then
    ffcopy blocks ip fblockno 0 BLOCK ++ ifreadRest blocks ip (fblockno + 1) (length - BLOCK)
  else if 0 < length then ffcopy blocks ip fblockno 0 length
  else []
termination_by length
decreasing_by
  have : 0 < BLOCK := by decide
  omega

/-- `ifread`, with the bytes that it copies. -/
def ifread (blocks : ℕ → Bytes) (ip : Inode) (offset length : ℕ) : List Byte :=
  let fblockno := offset / BLOCK
  let blockoffset := offset % BLOCK
  let blocklen := min (BLOCK - blockoffset) length
  let first := ffcopy blocks ip fblockno blockoffset blocklen
  if blocklen = length % 2 ^ 16 then first
  else first ++ ifreadRest blocks ip (fblockno + 1) (length - blocklen)

/-- `iread`. -/
def iread (blocks : ℕ → Bytes) (ip : Inode) (offset lenarg : ℕ) : List Byte :=
  ifread blocks ip offset lenarg

/-! ### Calls -/

/-- The errors of the calls. -/
inductive Errno where
  | ENOENT
  | EMFILE
  | EACCES
  | EBADF
deriving DecidableEq

/-- A file descriptor.  `f_ip` always points to the inode of the same number in `ip_table`. -/
structure FD where
  fRefc : ℕ
  fSeek : ℕ
  fIp : Inode

/-- `u_filep`, of `NOFILE` descriptors, with `inited` and `errno`. -/
structure Sys where
  uFilep : List FD
  inited : Bool
  errno : Option Errno

/-- The beginning of `open`. -/
def Sys.init (s : Sys) : Sys :=
  if s.inited = true then s
  else
    { s with
      uFilep := s.uFilep.map fun f => { fRefc := 0, fSeek := 0, fIp := { f.fIp with iIno := 0 } }
      inited := true }

/-- The loop of `open` that looks for a free descriptor, from number `i` on: the number that it
    stops at, the descriptor that it has taken, and the table. -/
def findFd : List FD → ℕ → ℕ × Option ℕ × List FD
  | [], i => (i, none, [])
  | f :: fs, i =>
      if f.fRefc = 0 then (i + 1, some i, { f with fRefc := f.fRefc + 1 } :: fs)
      else
        let r := findFd fs (i + 1)
        (r.1, r.2.1, f :: r.2.2)

/-- `open` for reading.  `iopen` always returns 1. -/
def Sys.openRead (im : Image) (s : Sys) (file : List Byte) : ℤ × Sys :=
  let ino := im.namei file
  if ino = 0 then (-1, { s with errno := some .ENOENT })
  else
    let r := findFd s.uFilep 0
    if r.1 = s.uFilep.length then (-1, { s with uFilep := r.2.2, errno := some .EMFILE })
    else
      match r.2.1 with
      | none => (-1, { s with uFilep := r.2.2 })
      | some fd =>
          (fd, { s with
            uFilep := r.2.2.modify fd fun f => { f with fIp := im.dinode ino, fSeek := 0 } })

/-- `open`. -/
def Sys.openFile (im : Image) (s : Sys) (file : List Byte) (type : ℤ) : ℤ × Sys :=
  let s := s.init
  if type = 0 then s.openRead im file
  else if type = 1 ∨ type = 2 then (-1, { s with errno := some .EACCES })
  else (-1, s)

/-- The descriptor of a call, if it is valid. -/
def Sys.lookup (s : Sys) (fd : ℤ) : Option FD :=
  if fd < 0 then none
  else
    match s.uFilep[fd.toNat]? with
    | none => none
    | some f => if f.fRefc = 0 then none else some f

/-- `to_read`: 16 bits of the number of bytes, which is an `fsize_t` of 32 bits. -/
def FD.toRead (f : FD) (n : ℕ) : ℕ :=
  min n ((1 + f.fIp.iSize + 2 ^ 32 - f.fSeek) % 2 ^ 32) % 2 ^ 16

/-- `read`, with the bytes that get into the buffer. -/
def Sys.read (im : Image) (s : Sys) (fd : ℤ) (n : ℕ) : ℤ × List Byte × Sys :=
  match s.lookup fd with
  | none => (-1, [], { s with errno := some .EBADF })
  | some f =>
      let toRead := f.toRead n
      if toRead > 0 then
        (toRead, iread im.blocks f.fIp f.fSeek toRead,
          { s with uFilep := s.uFilep.set fd.toNat { f with fSeek := f.fSeek + toRead } })
      else (toRead, [], s)

/-- `close`. -/
def Sys.close (s : Sys) (fd : ℤ) : ℤ × Sys :=
  match s.lookup fd with
  | none => (-1, { s with errno := some .EBADF })
  | some f => (0, { s with uFilep := s.uFilep.set fd.toNat { f with fRefc := f.fRefc - 1 } })

/-! ### Reading -/

variable {blocks : ℕ → Bytes} {ip : Inode} {offset length n : ℕ}

theorem block_pos : 0 < BLOCK := by decide

/-- A copy out of one block is a part of the file. -/
theorem ffcopy_eq (x : ℕ) (h : x % BLOCK + n ≤ BLOCK) :
    ffcopy blocks ip (x / BLOCK) (x % BLOCK) n =
      (List.range n).map fun j => fileByte blocks ip (x + j) := by
  refine List.map_congr_left fun j hj => ?_
  have hj := List.mem_range.mp hj
  have hlt : x % BLOCK + j < BLOCK := by omega
  have hx : x + j = BLOCK * (x / BLOCK) + (x % BLOCK + j) := by
    rw [← Nat.add_assoc, Nat.div_add_mod]
  rw [fileByte, hx, Nat.mul_add_div block_pos, Nat.div_eq_of_lt hlt, Nat.add_zero, Nat.mul_add_mod,
    Nat.mod_eq_of_lt hlt]

theorem range_append (f : ℕ → Byte) (a b : ℕ) :
    (List.range (a + b)).map f = (List.range a).map f ++ (List.range b).map fun j => f (a + j) := by
  rw [List.range_add, List.map_append, List.map_map]
  rfl

theorem ifreadRest_eq (fblockno length : ℕ) : ifreadRest blocks ip fblockno length =
    (List.range length).map fun j => fileByte blocks ip (fblockno * BLOCK + j) := by
  induction length using Nat.strong_induction_on generalizing fblockno with
  | _ length ih =>
    have hdiv : fblockno * BLOCK / BLOCK = fblockno := Nat.mul_div_cancel _ block_pos
    have hmod : fblockno * BLOCK % BLOCK = 0 := Nat.mul_mod_left _ _
    have hcopy : ∀ n ≤ BLOCK, ffcopy blocks ip fblockno 0 n =
        (List.range n).map fun j => fileByte blocks ip (fblockno * BLOCK + j) := by
      intro n hn
      have h := @ffcopy_eq blocks ip n (fblockno * BLOCK) (by omega)
      rw [hdiv, hmod] at h
      exact h
    rw [ifreadRest]
    split_ifs with hlt hpos
    · obtain ⟨k, rfl⟩ := Nat.exists_eq_add_of_lt hlt
      have hk : BLOCK + k + 1 - BLOCK = k + 1 := by omega
      have hpos := block_pos
      have hrest := ih (k + 1) (by omega) (fblockno + 1)
      have hnext : ∀ j, (fblockno + 1) * BLOCK + j = fblockno * BLOCK + (BLOCK + j) := fun j => by
        rw [Nat.succ_mul, Nat.add_assoc]
      rw [hcopy BLOCK (le_refl _), hk, hrest, Nat.add_assoc BLOCK k 1, range_append _ BLOCK (k + 1)]
      simp only [hnext]
    · exact hcopy length (not_lt.mp hlt)
    · rw [Nat.eq_zero_of_not_pos hpos]
      rfl

/-- **`ifread` copies the bytes of the file**, as long as 16 bits can count them. -/
theorem ifread_eq (h : length < 2 ^ 16) : ifread blocks ip offset length =
    (List.range length).map fun j => fileByte blocks ip (offset + j) := by
  have hmod := Nat.mod_lt offset block_pos
  have hfirst := @ffcopy_eq blocks ip (min (BLOCK - offset % BLOCK) length) offset (by omega)
  unfold ifread
  simp only
  rw [Nat.mod_eq_of_lt h, hfirst]
  split_ifs with heq
  · rw [heq]
  · have hmin : min (BLOCK - offset % BLOCK) length = BLOCK - offset % BLOCK := by omega
    have hnext : (offset / BLOCK + 1) * BLOCK = offset + (BLOCK - offset % BLOCK) := by
      have := Nat.div_add_mod' offset BLOCK
      rw [Nat.succ_mul]
      omega
    obtain ⟨k, hk⟩ := Nat.exists_eq_add_of_le (by omega : BLOCK - offset % BLOCK ≤ length)
    have hrest : length - (BLOCK - offset % BLOCK) = k := by omega
    rw [hmin, ifreadRest_eq, hnext, hrest, hk, range_append]
    refine congrArg (_ ++ ·) (List.map_congr_left fun j _ => ?_)
    rw [Nat.add_assoc]

/-- What `read` makes of the count: one byte too many at the end of the file, and 16 bits. -/
theorem toRead_eq_iff {f : FD} (hseek : f.fSeek ≤ f.fIp.iSize) (hsize : f.fIp.iSize < 2 ^ 32)
    (n : ℕ) : f.toRead n = min n (f.fIp.iSize - f.fSeek) ↔
      n = 0 ∨ n ≤ f.fIp.iSize - f.fSeek ∧ n < 2 ^ 16 ∧ 1 + (f.fIp.iSize - f.fSeek) < 2 ^ 32 := by
  have hsum : 1 + f.fIp.iSize + 2 ^ 32 - f.fSeek = 1 + (f.fIp.iSize - f.fSeek) + 2 ^ 32 := by omega
  rw [FD.toRead, hsum, Nat.add_mod_right]
  generalize f.fIp.iSize - f.fSeek = r at *
  omega

/-! ### Descriptors -/

variable {im : Image} {s s' : Sys} {f g : FD} {fs pre post : List FD}

theorem findFd_none (h : ∀ f ∈ fs, f.fRefc ≠ 0) (i : ℕ) :
    findFd fs i = (i + fs.length, none, fs) := by
  induction fs generalizing i with
  | nil => rfl
  | cons f fs ih =>
    rw [findFd, if_neg (h f List.mem_cons_self), ih fun g hg => h g (List.mem_cons_of_mem f hg)]
    simp only [List.length_cons, Nat.add_assoc, Nat.add_comm 1]

theorem findFd_some (hpre : ∀ g ∈ pre, g.fRefc ≠ 0) (hf : f.fRefc = 0) (i : ℕ) :
    findFd (pre ++ f :: post) i =
      (i + pre.length + 1, some (i + pre.length), pre ++ { f with fRefc := 1 } :: post) := by
  induction pre generalizing i with
  | nil => rw [List.nil_append, findFd, if_pos hf, hf]; rfl
  | cons g pre ih =>
    rw [List.cons_append, findFd, if_neg (hpre g List.mem_cons_self),
      ih fun g' hg' => hpre g' (List.mem_cons_of_mem g hg')]
    simp only [List.length_cons, Nat.add_assoc, Nat.add_comm 1, List.cons_append]

/-- The first free descriptor. -/
theorem first_free (h : ∃ f ∈ fs, f.fRefc = 0) :
    ∃ pre f post, fs = pre ++ f :: post ∧ (∀ g ∈ pre, g.fRefc ≠ 0) ∧ f.fRefc = 0 := by
  induction fs with
  | nil =>
    obtain ⟨f, hf, -⟩ := h
    cases hf
  | cons g fs ih =>
    by_cases hg : g.fRefc = 0
    · exact ⟨[], g, fs, rfl, nofun, hg⟩
    · obtain ⟨f, hf, hfree⟩ := h
      have hf : f ∈ fs := (List.mem_cons.mp hf).resolve_left fun heq => hg (heq ▸ hfree)
      obtain ⟨pre, f, post, rfl, hpre, hfree⟩ := ih ⟨f, hf, hfree⟩
      refine ⟨g :: pre, f, post, rfl, fun g' hg' => ?_, hfree⟩
      rcases List.mem_cons.mp hg' with rfl | hg'
      · exact hg
      · exact hpre g' hg'

theorem modify_middle (pre : List FD) (f : FD) (post : List FD) (op : FD → FD) :
    (pre ++ f :: post).modify pre.length op = pre ++ op f :: post := by
  induction pre with
  | nil => rfl
  | cons g pre ih => rw [List.cons_append, List.length_cons, List.modify_succ_cons, ih]; rfl

theorem set_middle (pre : List FD) (f : FD) (post : List FD) (g : FD) :
    (pre ++ f :: post).set pre.length g = pre ++ g :: post := by
  induction pre with
  | nil => rfl
  | cons g' pre ih => rw [List.cons_append, List.length_cons, List.set_cons_succ, ih]; rfl

/-- A valid descriptor. -/
theorem lookup_iff {fd : ℤ} : s.lookup fd = some f ↔
    0 ≤ fd ∧ s.uFilep[fd.toNat]? = some f ∧ f.fRefc ≠ 0 := by
  unfold Sys.lookup
  by_cases hneg : fd < 0
  · rw [if_pos hneg]
    exact iff_of_false nofun fun h => not_le.mpr hneg h.1
  · rw [if_neg hneg]
    cases hget : s.uFilep[fd.toNat]? with
    | none => exact iff_of_false nofun fun h => nomatch h.2.1
    | some g =>
      simp only
      split_ifs with hzero
      · refine iff_of_false nofun ?_
        rintro ⟨-, heq, hne⟩
        cases heq
        exact hne hzero
      · constructor
        · intro heq
          cases heq
          exact ⟨not_lt.mp hneg, rfl, hzero⟩
        · exact fun h => h.2.1

/-! ### Runs -/

/-- A call. -/
inductive Event where
  | openFile (file : List Byte) (type : ℤ)
  | read (fd : ℤ) (n : ℕ)
  | close (fd : ℤ)

/-- A step. -/
def Sys.step (im : Image) (s : Sys) : Event → Option Sys
  | .openFile file type => some (s.openFile im file type).2
  | .read fd n => some (s.read im fd n).2.2
  | .close fd => some (s.close fd).2

/-- What a call should do. -/
def Behaves (im : Image) (s : Sys) : Event → Prop
  | .openFile file type =>
      let r := s.openFile im file type
      (type = 0 → (0 ≤ r.1 ↔ im.namei file ≠ 0 ∧ ∃ f ∈ s.uFilep, f.fRefc = 0)) ∧
        (r.1 < 0 → r.2.uFilep = s.uFilep) ∧
        (0 ≤ r.1 → r.2.uFilep = s.uFilep.set r.1.toNat
          { fRefc := 1, fSeek := 0, fIp := im.dinode (im.namei file) })
  | .read fd n => ∀ f, s.lookup fd = some f →
      let k := min n (f.fIp.iSize - f.fSeek)
      let r := s.read im fd n
      r.1 = k ∧ r.2.1 = ((List.range k).map fun j => fileByte im.blocks f.fIp (f.fSeek + j)) ∧
        r.2.2.uFilep = s.uFilep.set fd.toNat { f with fSeek := f.fSeek + k }
  | .close fd => ∀ f, s.lookup fd = some f →
      let r := s.close fd
      r.1 = 0 ∧ r.2.uFilep = s.uFilep.set fd.toNat { f with fRefc := 0 }

/-- The calls that the code copes with. -/
def Ok (im : Image) (s : Sys) : Event → Prop
  | .openFile file type => type = 0 → im.namei file ≠ 0 → (∃ f ∈ s.uFilep, f.fRefc = 0) →
      ∃ f ∈ s.uFilep.dropLast, f.fRefc = 0
  | .read fd n => ∀ f, s.lookup fd = some f →
      n = 0 ∨ n ≤ f.fIp.iSize - f.fSeek ∧ n < 2 ^ 16 ∧ 1 + (f.fIp.iSize - f.fSeek) < 2 ^ 32
  | .close _ => True

/-- The static table, which the first `open` initializes. -/
def Blank (f : FD) : Prop := f.fRefc = 0 ∧ f.fSeek = 0 ∧ f.fIp.iIno = 0

/-- No call has been made. -/
structure Sys.Fresh (s : Sys) : Prop where
  inited : s.inited = false
  blank : ∀ f ∈ s.uFilep, Blank f

/-- The invariant of the runs that work. -/
structure Inv (s : Sys) : Prop where
  refc : ∀ f ∈ s.uFilep, f.fRefc ≤ 1
  seek : ∀ f ∈ s.uFilep, f.fRefc ≠ 0 → f.fSeek ≤ f.fIp.iSize ∧ f.fIp.iSize < 2 ^ 32
  blank : s.inited = false → ∀ f ∈ s.uFilep, Blank f

theorem Sys.Fresh.inv (h : s.Fresh) : Inv s :=
  ⟨fun f hf => (h.blank f hf).1 ▸ Nat.zero_le 1, fun f hf hne => absurd (h.blank f hf).1 hne,
    fun _ => h.blank⟩

/-- `open` finds the table as it was. -/
theorem init_table (h : Inv s) : s.init.uFilep = s.uFilep := by
  unfold Sys.init
  split_ifs with hinit
  · rfl
  · have hblank := h.blank (Bool.eq_false_of_not_eq_true hinit)
    show s.uFilep.map _ = s.uFilep
    refine (List.map_congr_left fun f hf => ?_).trans (List.map_id _)
    obtain ⟨hrefc, hseek, hino⟩ := hblank f hf
    obtain ⟨refc, seek, ino, size, addr⟩ := f
    cases hrefc
    cases hseek
    cases hino
    rfl

theorem init_inited (s : Sys) : s.init.inited = true := by
  unfold Sys.init
  split_ifs with h
  · exact h
  · rfl

/-- `open` of a file that is not there, or without a free descriptor. -/
theorem openRead_fails {file : List Byte} (h : im.namei file = 0 ∨ ∀ f ∈ s.uFilep, f.fRefc ≠ 0) :
    (s.openRead im file).1 = -1 ∧ (s.openRead im file).2.uFilep = s.uFilep := by
  unfold Sys.openRead
  by_cases hino : im.namei file = 0
  · simp only [if_pos hino, and_self]
  · simp only [if_neg hino, findFd_none (h.resolve_left hino), Nat.zero_add, if_true, and_self]

/-- **`open` with a free descriptor.**  When it is the last one, it is lost. -/
theorem openRead_spec {file : List Byte} (hino : im.namei file ≠ 0)
    (htable : s.uFilep = pre ++ f :: post) (hpre : ∀ g ∈ pre, g.fRefc ≠ 0) (hf : f.fRefc = 0) :
    if post = [] then
      (s.openRead im file).1 = -1 ∧
        (s.openRead im file).2.uFilep = s.uFilep.set pre.length { f with fRefc := 1 }
    else
      (s.openRead im file).1 = pre.length ∧
        (s.openRead im file).2.uFilep = s.uFilep.set pre.length
          { fRefc := 1, fSeek := 0, fIp := im.dinode (im.namei file) } := by
  have hlen : (pre ++ f :: post).length = pre.length + 1 + post.length := by
    rw [List.length_append, List.length_cons]
    omega
  unfold Sys.openRead
  simp only [if_neg hino, htable, findFd_some hpre hf, Nat.zero_add, hlen, set_middle]
  split_ifs with hpost hlast hlast
  · exact ⟨rfl, rfl⟩
  · exact absurd (by rw [hpost]; rfl) hlast
  · exact absurd (List.length_eq_zero_iff.mp (by omega)) hpost
  · refine ⟨rfl, ?_⟩
    show (pre ++ { f with fRefc := 1 } :: post).modify pre.length _ = _
    rw [modify_middle]

theorem dropLast_free (hpre : ∀ g ∈ pre, g.fRefc ≠ 0) (hf : f.fRefc = 0) :
    (∃ g ∈ (pre ++ f :: post).dropLast, g.fRefc = 0) ↔ post ≠ [] := by
  constructor
  · rintro ⟨g, hg, hfree⟩ rfl
    rw [List.dropLast_concat] at hg
    exact hpre g hg hfree
  · intro hpost
    refine ⟨f, ?_, hf⟩
    rw [List.dropLast_append_of_ne_nil (List.cons_ne_nil f post),
      List.dropLast_cons_of_ne_nil hpost]
    exact List.mem_append_right pre List.mem_cons_self

/-- **`open` does what it should** but for the last descriptor. -/
theorem open_behaves_iff (h : Inv s) (file : List Byte) (type : ℤ) :
    Behaves im s (.openFile file type) ↔ Ok im s (.openFile file type) := by
  have htab := init_table h
  by_cases htype : type = 0
  · subst htype
    have hopen : s.openFile im file 0 = s.init.openRead im file := by
      simp only [Sys.openFile, if_true]
    simp only [Behaves, Ok, hopen, true_implies]
    by_cases hcan : im.namei file ≠ 0 ∧ ∃ f ∈ s.uFilep, f.fRefc = 0
    · obtain ⟨hino, hfree⟩ := hcan
      obtain ⟨pre, f, post, htable, hpre, hf⟩ := first_free hfree
      have hspec := openRead_spec hino (htab.trans htable) hpre hf
      rw [htab] at hspec
      have hlast := @dropLast_free f pre post hpre hf
      rw [← htable] at hlast
      split_ifs at hspec with hpost
      · -- The last descriptor: it is taken, and the call fails.
        refine iff_of_false (fun hbeh => ?_) fun hok => ?_
        · have hpos := hbeh.1.mpr ⟨hino, hfree⟩
          rw [hspec.1] at hpos
          exact absurd hpos (by decide)
        · exact hlast.mp (hok hino hfree) hpost
      · refine iff_of_true ⟨iff_of_true ?_ ⟨hino, hfree⟩, fun hneg => ?_, fun _ => ?_⟩
          fun _ _ => hlast.mpr hpost
        · rw [hspec.1]
          exact Int.natCast_nonneg _
        · rw [hspec.1] at hneg
          exact absurd (Int.natCast_nonneg _) (not_le.mpr hneg)
        · rw [hspec.1, Int.toNat_natCast]
          exact hspec.2
    · have hfails := @openRead_fails im s.init file (by
        rw [htab]
        by_contra hno
        push Not at hno
        exact hcan hno)
      rw [htab] at hfails
      have hneg : ¬(0 : ℤ) ≤ -1 := by decide
      refine iff_of_true ⟨?_, fun _ => hfails.2, fun hpos => ?_⟩ fun hino hfree =>
        absurd ⟨hino, hfree⟩ hcan
      · rw [hfails.1]
        exact iff_of_false hneg hcan
      · rw [hfails.1] at hpos
        exact absurd hpos hneg
  · have hopen : (s.openFile im file type).1 = -1 ∧
        (s.openFile im file type).2.uFilep = s.uFilep := by
      unfold Sys.openFile
      simp only [if_neg htype]
      split_ifs <;> exact ⟨rfl, htab⟩
    have hneg : ¬(0 : ℤ) ≤ -1 := by decide
    simp only [Behaves, Ok]
    refine iff_of_true ⟨fun h => absurd h htype, fun _ => hopen.2, fun hpos => ?_⟩ fun h =>
      absurd h htype
    rw [hopen.1] at hpos
    exact absurd hpos hneg

/-- **`read` does what it should** up to the end of the file, and below 65536 bytes. -/
theorem read_behaves_iff (h : Inv s) (fd : ℤ) (n : ℕ) :
    Behaves im s (.read fd n) ↔ Ok im s (.read fd n) := by
  refine forall_congr' fun f => forall_congr' fun hlook => ?_
  obtain ⟨hfd, hget, hrefc⟩ := lookup_iff.mp hlook
  obtain ⟨hseek, hsize⟩ := h.seek f (List.mem_of_getElem? hget) hrefc
  rw [← toRead_eq_iff hseek hsize]
  have hlt : f.toRead n < 2 ^ 16 := Nat.mod_lt _ (by decide)
  have hread : s.read im fd n = if f.toRead n > 0 then
      ((f.toRead n : ℤ), iread im.blocks f.fIp f.fSeek (f.toRead n),
        { s with uFilep := s.uFilep.set fd.toNat { f with fSeek := f.fSeek + f.toRead n } })
      else ((f.toRead n : ℤ), [], s) := by
    rw [Sys.read, hlook]
  constructor
  · intro hbeh
    have hval := hbeh.1
    rw [hread] at hval
    split_ifs at hval <;> exact Int.natCast_inj.mp hval
  · intro heq
    by_cases hpos : f.toRead n > 0
    · rw [if_pos hpos] at hread
      simp only [← heq, hread]
      exact ⟨trivial, ifread_eq hlt, trivial⟩
    · have hzero : f.toRead n = 0 := Nat.eq_zero_of_not_pos hpos
      rw [if_neg hpos, hzero] at hread
      simp only [← heq, hread, hzero, List.range_zero, List.map_nil, Nat.add_zero]
      refine ⟨trivial, trivial, ?_⟩
      obtain ⟨hbound, rfl⟩ := List.getElem?_eq_some_iff.mp hget
      exact (List.set_getElem_self hbound).symm

/-- `close` always does what it should. -/
theorem close_behaves (h : Inv s) (fd : ℤ) : Behaves im s (.close fd) := by
  intro f hlook
  obtain ⟨hfd, hget, hrefc⟩ := lookup_iff.mp hlook
  have hone := h.refc f (List.mem_of_getElem? hget)
  have hzero : f.fRefc - 1 = 0 := by omega
  simp only [Sys.close, hlook, hzero, and_self]

theorem behaves_iff_of_inv (h : Inv s) (e : Event) : Behaves im s e ↔ Ok im s e := by
  cases e with
  | openFile file type => exact open_behaves_iff h file type
  | read fd n => exact read_behaves_iff h fd n
  | close fd => exact iff_of_true (close_behaves h fd) trivial

/-- One descriptor of the table has changed. -/
theorem Inv.set (h : Inv s) {i : ℕ} (htable : s'.uFilep = s.uFilep.set i f)
    (hrefc : f.fRefc ≤ 1)
    (hseek : f.fRefc ≠ 0 → f.fSeek ≤ f.fIp.iSize ∧ f.fIp.iSize < 2 ^ 32)
    (hinit : s'.inited = true) : Inv s' := by
  refine ⟨fun g hg => ?_, fun g hg hne => ?_, fun hno => Bool.noConfusion (hinit.symm.trans hno)⟩
  · rw [htable] at hg
    rcases List.mem_or_eq_of_mem_set hg with hg | rfl
    · exact h.refc g hg
    · exact hrefc
  · rw [htable] at hg
    rcases List.mem_or_eq_of_mem_set hg with hg | rfl
    · exact h.seek g hg hne
    · exact hseek hne

theorem Inv.same (h : Inv s) (htable : s'.uFilep = s.uFilep)
    (hinit : s'.inited = false → s.inited = false) : Inv s' :=
  ⟨htable ▸ h.refc, htable ▸ h.seek, fun hno => htable ▸ h.blank (hinit hno)⟩

theorem open_inited (s : Sys) (file : List Byte) (type : ℤ) :
    (s.openFile im file type).2.inited = true := by
  have hinit := init_inited s
  simp only [Sys.openFile, Sys.openRead]
  split_ifs
  · exact hinit
  · exact hinit
  · cases (findFd s.init.uFilep 0).2.1 <;> exact hinit
  · exact hinit
  · exact hinit

/-- A valid descriptor needs an initialized table. -/
theorem lookup_inited (h : Inv s) {fd : ℤ} (hlook : s.lookup fd = some f) : s.inited = true := by
  obtain ⟨-, hget, hrefc⟩ := lookup_iff.mp hlook
  by_contra hno
  exact hrefc (h.blank (Bool.eq_false_of_not_eq_true hno) f (List.mem_of_getElem? hget)).1

theorem Inv.step (h : Inv s) {e : Event} (hok : Ok im s e) (hstep : s.step im e = some s') :
    Inv s' := by
  have hbeh := (behaves_iff_of_inv h e).mpr hok
  cases e with
  | openFile file type =>
    cases hstep
    obtain ⟨-, hfail, hdone⟩ := hbeh
    have hinit := @open_inited im s file type
    rcases lt_or_ge (s.openFile im file type).1 0 with hneg | hpos
    · exact h.same (hfail hneg) fun hno => Bool.noConfusion (hinit.symm.trans hno)
    · exact h.set (hdone hpos) (le_refl 1) (fun _ => ⟨Nat.zero_le _, im.size_lt _⟩) hinit
  | read fd n =>
    cases hstep
    cases hlook : s.lookup fd with
    | none =>
      have hread : s.read im fd n = (-1, [], { s with errno := some .EBADF }) := by
        rw [Sys.read, hlook]
      rw [hread]
      exact h.same rfl id
    | some f =>
      obtain ⟨-, hget, hrefc⟩ := lookup_iff.mp hlook
      have hmem := List.mem_of_getElem? hget
      obtain ⟨hseek, hsize⟩ := h.seek f hmem hrefc
      have hinit : (s.read im fd n).2.2.inited = true := by
        have hs := lookup_inited h hlook
        simp only [Sys.read, hlook]
        split_ifs <;> exact hs
      refine h.set (hbeh f hlook).2.2 (h.refc f hmem) (fun _ => ⟨?_, hsize⟩) hinit
      show f.fSeek + min n (f.fIp.iSize - f.fSeek) ≤ f.fIp.iSize
      omega
  | close fd =>
    cases hstep
    cases hlook : s.lookup fd with
    | none =>
      have hclose : s.close fd = (-1, { s with errno := some .EBADF }) := by
        rw [Sys.close, hlook]
      rw [hclose]
      exact h.same rfl id
    | some f =>
      have hinit : (s.close fd).2.inited = true := by
        simp only [Sys.close, hlook]
        exact lookup_inited h hlook
      exact h.set (hbeh f hlook).2 (Nat.zero_le 1) (fun hne => absurd rfl hne) hinit

/-- **What the calls depend on.**  In every run of calls that the code copes with a call does what
    it should if and only if it is such a call, too: `open` does not need the last descriptor, and
    `read` asks for no more than the rest of the file, and for less than 65536 bytes. -/
theorem behaves_iff (h : Reach Sys.Fresh (Sys.step im) (Ok im) s) (e : Event) :
    Behaves im s e ↔ Ok im s e :=
  behaves_iff_of_inv
    (h.invariant (fun _ => Sys.Fresh.inv) fun _ _ _ hi hok hstep => hi.step hok hstep) e

/-- One file of three bytes. -/
def oneFile : Image where
  blocks := fun _ i => byte i
  namei := fun _ => 3
  dinode := fun ino => ⟨ino, 3, fun _ => 0⟩
  size_lt := fun _ => (by decide : 3 < 2 ^ 32)

/-- Two descriptors. -/
def twoFds : Sys where
  uFilep := [⟨0, 0, ⟨0, 0, fun _ => 0⟩⟩, ⟨0, 0, ⟨0, 0, fun _ => 0⟩⟩]
  inited := false
  errno := none

theorem twoFds_fresh : twoFds.Fresh := by
  refine ⟨rfl, fun f hf => ?_⟩
  have hblank : f = ⟨0, 0, ⟨0, 0, fun _ => 0⟩⟩ := by
    simpa [twoFds] using hf
  exact hblank ▸ ⟨rfl, rfl, rfl⟩

/-- The first descriptor, and all three bytes. -/
theorem behaves_iff_all : ∃ s, twoFds.step oneFile (.openFile [] 0) = some s ∧
    Behaves oneFile s (.read 0 3) := by
  obtain ⟨s, hs, hlook⟩ : ∃ s, twoFds.step oneFile (.openFile [] 0) = some s ∧
      s.lookup 0 = some ⟨1, 0, ⟨3, 3, fun _ => 0⟩⟩ := ⟨_, rfl, rfl⟩
  have hok : Ok oneFile twoFds (.openFile [] 0) := fun _ _ _ =>
    ⟨⟨0, 0, ⟨0, 0, fun _ => 0⟩⟩, List.mem_cons_self, rfl⟩
  have hreach := (Reach.init twoFds_fresh).step hok hs
  refine ⟨s, hs, (behaves_iff hreach (.read 0 3)).mpr fun f hf => ?_⟩
  rw [hlook] at hf
  cases hf
  decide

/-- **One byte too many.**  A file of three bytes is read with room for five: four are delivered. -/
theorem read_beyond : ¬∀ (im : Image) (s : Sys) (e : Event),
    Reach Sys.Fresh (Sys.step im) (fun _ _ => True) s → Behaves im s e := by
  intro hall
  obtain ⟨s, hs, hlook, hread⟩ : ∃ s, twoFds.step oneFile (.openFile [] 0) = some s ∧
      s.lookup 0 = some ⟨1, 0, ⟨3, 3, fun _ => 0⟩⟩ ∧ (s.read oneFile 0 5).1 = 4 :=
    ⟨_, rfl, rfl, rfl⟩
  have hreach : Reach Sys.Fresh (Sys.step oneFile) (fun _ _ => True) s :=
    (Reach.init twoFds_fresh).step trivial hs
  have hval := (hall oneFile s (.read 0 5) hreach _ hlook).1
  rw [hread] at hval
  exact absurd hval (by decide)

end CohKernel.Tboot
