import CohKernel.Dir.Defs

namespace CohKernel.Dir

open CohKernel.Lib CohKernel.Fs

/-!
# Looking up a name

`file_to_inode` of `fs1.c`, with `direq`, `ftoim` and `idirent`.  The locks and the reference counts
of the inodes are left out.

* `lookup_spec` — the search of one directory;
* `file_to_inode_finds` — the last component of a path;
* `idirent_spec` — the entry that is written at the position that has been found.
-/

/-! ### One directory -/

/-- The variables of the search: the bytes that are left, the offset, and the first free slot. -/
structure Search where
  s : ℤ
  cseek : ℕ
  free : Option ℕ

/-- The inner loop, over the slots of a block that are left; with a match it gives the number of the
    inode. -/
def searchBlock (blk : Bytes) (want : List Byte) : ℕ → ℕ → Search → Search × Option ℕ
  | 0, _, st => (st, none)
  | left + 1, dp, st =>
      let st := { st with s := st.s - SLOT }
      if st.s < 0 then (st, none)
      else if dIno blk dp = 0 then
        searchBlock blk want left (dp + SLOT)
          { st with cseek := st.cseek + SLOT, free := st.free.or (some st.cseek) }
      else if strncmp (dName blk dp) want = true then ({ st with s := 0 }, some (dIno blk dp))
      else searchBlock blk want left (dp + SLOT) { st with cseek := st.cseek + SLOT }

/-- The outer loop; `none` when a block cannot be read. -/
def searchLoop (rd : ℕ → Bool) (blocks : ℕ → Bytes) (ip : Inode) (want : List Byte) :
    ℕ → ℕ → Search → Option (Search × Option ℕ)
  | 0, _, st => some (st, none)
  | left + 1, b, st =>
      if st.s > 0 then
        (vread rd blocks ip b).bind fun blk =>
          match searchBlock blk want (BSIZE / SLOT) 0 st with
          | (st, some ino) => some (st, some ino)
          | (st, none) => searchLoop rd blocks ip want left (b + 1) st
      else some (st, none)

/-- What the search of a directory ends with. -/
inductive Lookup where
  | failed
  | found (ino seek : ℕ)
  | absent (seek : ℕ)
deriving DecidableEq, Repr

/-- The search of a directory. -/
def lookup (rd : ℕ → Bool) (blocks : ℕ → Bytes) (ip : Inode) (want : List Byte) : Lookup :=
  match searchLoop rd blocks ip want ((ip.iSize + BSIZE - 1) / BSIZE) 0 ⟨ip.iSize, 0, none⟩ with
  | none => .failed
  | some (st, some ino) => .found ino st.cseek
  | some (st, none) => .absent (st.free.getD st.cseek)

/-! ### Paths -/

/-- The number of the root inode of a filesystem. -/
def ROOTIN : ℕ := 2

/-- The character `/`. -/
def SLASH : Byte := 47

/-- An inode: its device and its number. -/
structure Node where
  dev : ℕ
  ino : ℕ
deriving DecidableEq, Repr

/-- What `file_to_inode` finds of the system: the directories of the process, the inodes, the blocks
    of the devices and which of them can be read, the answers of `iaccess` (for writing or for
    execution) and of `iattach`, and the mounted devices. -/
structure World where
  rootdev : ℕ
  cdir : Node
  rdir : Node
  inode : Node → Inode
  rd : ℕ → ℕ → Bool
  blocks : ℕ → ℕ → Bytes
  iaccess : Bool → Node → Bool
  iattach : Node → Bool
  mountOn : ℕ → Option Node

/-- The types of access. -/
inductive Access where
  | reference
  | create
  | unlink
deriving DecidableEq, Repr

/-- What `file_to_inode` ends with: the inode of the child; the directory for it, and the position
    of its entry; or its number, its directory and its position. -/
inductive Outcome where
  | error
  | child (cdiri : Node)
  | parent (pdiri : Node) (seek : ℕ)
  | entry (cdirn : ℕ) (pdiri : Node) (seek : ℕ)
deriving DecidableEq, Repr

/-- `d_name` as it is made of a component: its first characters, filled up with zeros. -/
def dirName (comp : List Byte) : List Byte :=
  comp.take DIRSIZ ++ List.replicate (DIRSIZ - comp.length) 0

/-- The first component of a path. -/
def component (path : List Byte) : List Byte := path.takeWhile (· ≠ SLASH)

/-- The path behind its first component. -/
def behind (path : List Byte) : List Byte :=
  (path.dropWhile (· ≠ SLASH)).dropWhile (· = SLASH)

/-- The directory that is searched: for `..` in the root of a mounted filesystem, the one of the
    inode on which it is mounted. -/
def World.searched (w : World) (cip : Node) (name : List Byte) : Node :=
  if cip.ino = ROOTIN ∧ cip.dev ≠ w.rootdev ∧ name.take 3 = [46, 46, 0] then
    (w.mountOn cip.dev).getD cip
  else cip

/-- The search of a directory for a name. -/
def World.lookup (w : World) (dir : Node) (name : List Byte) : Lookup :=
  Dir.lookup (w.rd dir.dev) (w.blocks dir.dev) (w.inode dir) name

/-- The loop of `file_to_inode`, over the components that are left.  `fault` says that the end of
    the path cannot be read. -/
def World.walk (w : World) (t : Access) (doRmdir fault : Bool) :
    ℕ → Node → List Byte → Outcome
  | 0, _, _ => .error
  | left + 1, cip, path =>
      let name := dirName (component path)
      let rest := behind path
      if (w.inode cip).iMode ≠ .IFDIR then .error
      else if w.iaccess doRmdir cip = false then .error
      else if rest = [] ∧ fault = true then .error
      else
        let cip := w.searched cip name
        match w.lookup cip name with
        | .failed => .error
        | .absent seek => if rest = [] ∧ t = .create then .parent cip seek else .error
        | .found ino seek =>
            if rest = [] ∧ t = .unlink then .entry ino cip seek
            else if w.iattach ⟨cip.dev, ino⟩ = false then .error
            else if rest = [] then .child ⟨cip.dev, ino⟩
            else w.walk t doRmdir fault left ⟨cip.dev, ino⟩ rest

/-- Where the walk begins, and the path without its leading slashes. -/
def World.start (w : World) (np : List Byte) : Node × List Byte :=
  if np.head? = some SLASH then (w.rdir, np.dropWhile (· = SLASH)) else (w.cdir, np)

/-- The bytes of a directory entry. -/
def entryBytes (ino : ℕ) (name : List Byte) : List Byte := byte ino :: byte (ino / 256) :: name

/-- `idirent`: the entry is written where `file_to_inode` has set the seek position. -/
def idirent (rd : ℕ → Bool) (s : Fs) (dir : Inode) (seek ino : ℕ) (name : List Byte) :
    Fs × Inode × ℕ :=
  fwrite rd s dir seek (entryBytes ino name)

/-! ### The search of one directory -/

variable {rd : ℕ → Bool} {blocks : ℕ → Bytes} {ip : Inode} {m : Bytes} {want : List Byte}
  {st st' : Search} {n size : ℕ}

/-- The slot at an offset is a live entry with a name. -/
def Matches (m : Bytes) (o : ℕ) (want : List Byte) : Prop :=
  dIno m o ≠ 0 ∧ cname (dName m o) = cname want

/-- An offset is that of the first of `n` slots that is free, or there is none. -/
def FirstFree (m : Bytes) (n : ℕ) : Option ℕ → Prop
  | none => ∀ j < n, dIno m (SLOT * j) ≠ 0
  | some o => ∃ i < n, o = SLOT * i ∧ dIno m (SLOT * i) = 0 ∧ ∀ j < i, dIno m (SLOT * j) ≠ 0

/-- The first `n` slots have been searched. -/
structure Searched (m : Bytes) (want : List Byte) (n : ℕ) (st : Search) : Prop where
  cseek : st.cseek = SLOT * n
  unmatched : ∀ j < n, ¬ Matches m (SLOT * j) want
  free : FirstFree m n st.free

theorem Searched.live (h : Searched m want n st) (hlive : dIno m (SLOT * n) ≠ 0)
    (hno : ¬ Matches m (SLOT * n) want) (s : ℤ) :
    Searched m want (n + 1) { st with s := s, cseek := st.cseek + SLOT } := by
  refine ⟨by rw [h.cseek, Nat.mul_succ], fun j hj => ?_, ?_⟩
  · rcases Nat.lt_succ_iff_lt_or_eq.mp hj with hj | rfl
    · exact h.unmatched j hj
    · exact hno
  · have hfree := h.free
    cases hst : st.free with
    | none =>
      rw [hst] at hfree
      intro j hj
      rcases Nat.lt_succ_iff_lt_or_eq.mp hj with hj | rfl
      · exact hfree j hj
      · exact hlive
    | some o =>
      rw [hst] at hfree
      obtain ⟨i, hi, hfirst⟩ := hfree
      exact ⟨i, by omega, hfirst⟩

theorem Searched.skip (h : Searched m want n st) (hfree : dIno m (SLOT * n) = 0) (s : ℤ) :
    Searched m want (n + 1)
      { s := s, cseek := st.cseek + SLOT, free := st.free.or (some st.cseek) } := by
  refine ⟨by rw [h.cseek, Nat.mul_succ], fun j hj => ?_, ?_⟩
  · rcases Nat.lt_succ_iff_lt_or_eq.mp hj with hj | rfl
    · exact h.unmatched j hj
    · exact fun hm => hm.1 hfree
  · have hold := h.free
    cases hst : st.free with
    | none =>
      rw [hst] at hold
      exact ⟨n, Nat.lt_succ_self n, h.cseek, hfree, hold⟩
    | some o =>
      rw [hst] at hold
      obtain ⟨i, hi, hfirst⟩ := hold
      exact ⟨i, by omega, hfirst⟩

/-- The offset that is left when the name is not there: of the first free slot, or behind the last
    one. -/
theorem Searched.position (h : Searched m want n st) :
    (∃ i < n, st.free.getD st.cseek = SLOT * i ∧ dIno m (SLOT * i) = 0 ∧
        ∀ j < i, dIno m (SLOT * j) ≠ 0) ∨
      st.free.getD st.cseek = SLOT * n ∧ ∀ j < n, dIno m (SLOT * j) ≠ 0 := by
  have hfree := h.free
  cases hst : st.free with
  | none =>
    rw [hst] at hfree
    exact Or.inr ⟨h.cseek, hfree⟩
  | some o =>
    rw [hst] at hfree
    exact Or.inl hfree

/-- A slot of a block that has been read. -/
theorem slot_of_block {b : ℕ} {blk : Bytes} (h : vread rd blocks ip b = some blk) {k : ℕ}
    (hk : k < BSIZE / SLOT) :
    dIno blk (SLOT * k) = dIno (content blocks ip) (SLOT * (BSIZE / SLOT * b + k)) ∧
      dName blk (SLOT * k) = dName (content blocks ip) (SLOT * (BSIZE / SLOT * b + k)) := by
  refine slot_congr fun j hj => ?_
  rw [vread_spec h (by unfold BSIZE SLOT at *; omega)]
  congr 1
  unfold BSIZE SLOT
  omega

/-- The inner loop: a match, or the end of the directory, or the end of the block. -/
theorem searchBlock_spec {b : ℕ} {blk : Bytes} (h : vread rd blocks ip b = some blk)
    (hwant : want.length = DIRSIZ) (left k : ℕ) (hleft : left + k = BSIZE / SLOT)
    (hle : BSIZE / SLOT * b + k ≤ slots ip)
    (hst : Searched (content blocks ip) want (BSIZE / SLOT * b + k) st)
    (hs : st.s = ip.iSize - SLOT * (BSIZE / SLOT * b + k : ℕ)) :
    match searchBlock blk want left (SLOT * k) st with
    | (st', some ino) => ∃ i < slots ip, Searched (content blocks ip) want i st' ∧
        Matches (content blocks ip) (SLOT * i) want ∧ ino = dIno (content blocks ip) (SLOT * i)
    | (st', none) => st'.s < 0 ∧ Searched (content blocks ip) want (slots ip) st' ∨
        BSIZE / SLOT * (b + 1) ≤ slots ip ∧
          st'.s = ip.iSize - SLOT * (BSIZE / SLOT * (b + 1) : ℕ) ∧
          Searched (content blocks ip) want (BSIZE / SLOT * (b + 1)) st' := by
  induction left generalizing k st with
  | zero =>
    obtain rfl : k = BSIZE / SLOT := by omega
    rw [← Nat.mul_succ] at hle hst hs
    exact Or.inr ⟨hle, hs, hst⟩
  | succ left ih =>
    have hk : k < BSIZE / SLOT := by omega
    obtain ⟨hino, hname⟩ := slot_of_block h hk
    have hnext : SLOT * k + SLOT = SLOT * (k + 1) := (Nat.mul_succ SLOT k).symm
    have hs' : st.s - SLOT = ip.iSize - SLOT * (BSIZE / SLOT * b + (k + 1) : ℕ) := by
      rw [hs]
      push_cast
      ring
    unfold searchBlock
    simp only
    rw [hino, hname, hnext]
    by_cases hend : st.s - SLOT < 0
    · rw [if_pos hend]
      -- the slot is not wholly in the directory, those before it are
      have hlast : BSIZE / SLOT * b + k = slots ip := by
        unfold slots SLOT at *
        omega
      rw [hlast] at hst
      exact Or.inl ⟨hend, hst.cseek, hst.unmatched, hst.free⟩
    rw [if_neg hend]
    have hlt : BSIZE / SLOT * b + k < slots ip := by
      unfold slots SLOT at *
      omega
    by_cases hfree : dIno (content blocks ip) (SLOT * (BSIZE / SLOT * b + k)) = 0
    · rw [if_pos hfree]
      exact ih (k + 1) (by omega) hlt (hst.skip hfree _) hs'
    rw [if_neg hfree]
    have hiff : strncmp (dName (content blocks ip) (SLOT * (BSIZE / SLOT * b + k))) want = true ↔
        Matches (content blocks ip) (SLOT * (BSIZE / SLOT * b + k)) want := by
      rw [strncmp_iff (by rw [dName_length, hwant])]
      exact ⟨fun heq => ⟨hfree, heq⟩, fun hm => hm.2⟩
    by_cases hm : Matches (content blocks ip) (SLOT * (BSIZE / SLOT * b + k)) want
    · rw [if_pos (hiff.mpr hm)]
      exact ⟨_, hlt, ⟨hst.cseek, hst.unmatched, hst.free⟩, hm, rfl⟩
    · rw [if_neg (mt hiff.mp hm)]
      exact ih (k + 1) (by omega) hlt (hst.live hfree hm _) hs'

/-- The outer loop. -/
theorem searchLoop_spec (hwant : want.length = DIRSIZ) (left b : ℕ)
    (hleft : ip.iSize ≤ (left + b) * BSIZE) (hle : BSIZE / SLOT * b ≤ slots ip)
    (hst : Searched (content blocks ip) want (BSIZE / SLOT * b) st)
    (hs : st.s = ip.iSize - SLOT * (BSIZE / SLOT * b : ℕ)) :
    match searchLoop rd blocks ip want left b st with
    | none => ∃ b', b' * BSIZE < ip.iSize ∧ vread rd blocks ip b' = none ∧
        ∀ i, SLOT * i < b' * BSIZE → ¬ Matches (content blocks ip) (SLOT * i) want
    | some (st', some ino) => ∃ i < slots ip, Searched (content blocks ip) want i st' ∧
        Matches (content blocks ip) (SLOT * i) want ∧ ino = dIno (content blocks ip) (SLOT * i)
    | some (st', none) => Searched (content blocks ip) want (slots ip) st' := by
  -- the loop ends without a match
  have hstop : ∀ (st : Search) (b : ℕ), BSIZE / SLOT * b ≤ slots ip →
      Searched (content blocks ip) want (BSIZE / SLOT * b) st →
      st.s = ip.iSize - SLOT * (BSIZE / SLOT * b : ℕ) → ¬ st.s > 0 →
      Searched (content blocks ip) want (slots ip) st := by
    intro st b hle hst hs h0
    have hall : BSIZE / SLOT * b = slots ip := by
      unfold slots BSIZE SLOT at *
      omega
    rwa [hall] at hst
  induction left generalizing b st with
  | zero =>
    refine hstop st b hle hst hs ?_
    unfold BSIZE SLOT at *
    omega
  | succ left ih =>
    unfold searchLoop
    by_cases hmore : st.s > 0
    swap
    · rw [if_neg hmore]
      exact hstop st b hle hst hs hmore
    rw [if_pos hmore]
    cases hv : vread rd blocks ip b with
    | none =>
      refine ⟨b, ?_, hv, fun i hi => hst.unmatched i ?_⟩
      · unfold BSIZE SLOT at *
        omega
      · unfold BSIZE SLOT at *
        omega
    | some blk =>
      rw [Option.bind_some]
      have hblock := searchBlock_spec hv hwant (BSIZE / SLOT) 0 rfl hle hst hs
      rw [Nat.mul_zero] at hblock
      generalize searchBlock blk want (BSIZE / SLOT) 0 st = r at hblock ⊢
      obtain ⟨st₁, _ | ino⟩ := r
      · simp only at hblock ⊢
        rcases hblock with ⟨hneg, hend⟩ | ⟨hle', hs', hst'⟩
        · -- a partial slot has ended the search
          cases left with
          | zero => exact hend
          | succ left =>
            unfold searchLoop
            rw [if_neg (by omega)]
            exact hend
        · exact ih (b + 1) (by rw [← Nat.add_assoc, Nat.add_right_comm]; exact hleft) hle' hst' hs'
      · exact hblock

/-- **The search of a directory** finds the first live entry with the name, and otherwise the first
    free slot or the end, as far as the blocks can be read. -/
theorem lookup_spec (rd : ℕ → Bool) (blocks : ℕ → Bytes) (ip : Inode)
    (hwant : want.length = DIRSIZ) :
    match lookup rd blocks ip want with
    | .failed => ∃ b, b * BSIZE < ip.iSize ∧ vread rd blocks ip b = none ∧
        ∀ i, SLOT * i < b * BSIZE → ¬ Matches (content blocks ip) (SLOT * i) want
    | .found ino seek => ∃ i < slots ip, seek = SLOT * i ∧
        Matches (content blocks ip) (SLOT * i) want ∧ ino = dIno (content blocks ip) (SLOT * i) ∧
        ∀ j < i, ¬ Matches (content blocks ip) (SLOT * j) want
    | .absent seek => (∀ i < slots ip, ¬ Matches (content blocks ip) (SLOT * i) want) ∧
        ((∃ i < slots ip, seek = SLOT * i ∧ dIno (content blocks ip) (SLOT * i) = 0 ∧
            ∀ j < i, dIno (content blocks ip) (SLOT * j) ≠ 0) ∨
          seek = SLOT * slots ip ∧ ∀ j < slots ip, dIno (content blocks ip) (SLOT * j) ≠ 0) := by
  have hloop := @searchLoop_spec rd blocks ip want ⟨ip.iSize, 0, none⟩ hwant
    ((ip.iSize + BSIZE - 1) / BSIZE) 0 (by unfold BSIZE; omega) (Nat.zero_le _)
    ⟨rfl, fun j hj => absurd hj (Nat.not_lt_zero j), fun j hj => absurd hj (Nat.not_lt_zero j)⟩
    (by simp)
  unfold lookup
  generalize searchLoop rd blocks ip want ((ip.iSize + BSIZE - 1) / BSIZE) 0 ⟨ip.iSize, 0, none⟩ = r
    at hloop ⊢
  obtain _ | ⟨st, _ | ino⟩ := r
  · exact hloop
  · have hst : Searched (content blocks ip) want (slots ip) st := hloop
    exact ⟨hst.unmatched, hst.position⟩
  · obtain ⟨i, hi, hst, hm, hino⟩ := hloop
    exact ⟨i, hi, hst.cseek, hm, hino, hst.unmatched⟩

/-! ### The last component of a path -/

variable {w : World} {doRmdir : Bool} {cip dir : Node} {path np : List Byte} {ino seek : ℕ}

theorem dirName_length (comp : List Byte) : (dirName comp).length = DIRSIZ := by
  rw [dirName, List.length_append, List.length_take, List.length_replicate]
  omega

/-- The bytes of a directory. -/
def World.contents (w : World) (dir : Node) : Bytes := content (w.blocks dir.dev) (w.inode dir)

/-- The number of its slots. -/
def World.slots (w : World) (dir : Node) : ℕ := Dir.slots (w.inode dir)

/-- A block of a directory can be read. -/
def World.readable (w : World) (dir : Node) (b : ℕ) : Prop :=
  (vread (w.rd dir.dev) (w.blocks dir.dev) (w.inode dir) b).isSome

/-- The first live entry of a directory with a name: its inode, and its offset. -/
structure World.EntryAt (w : World) (dir : Node) (name : List Byte) (ino seek : ℕ) : Prop where
  first : ∃ i < w.slots dir, seek = SLOT * i ∧ Matches (w.contents dir) (SLOT * i) name ∧
    ino = dIno (w.contents dir) (SLOT * i) ∧ ∀ j < i, ¬ Matches (w.contents dir) (SLOT * j) name
  read : ∀ b, b * BSIZE ≤ seek → w.readable dir b

/-- A directory in which the process may look. -/
def World.Enters (w : World) (doRmdir : Bool) (cip : Node) : Prop :=
  (w.inode cip).iMode = .IFDIR ∧ w.iaccess doRmdir cip = true

/-- The components before the last one lead from a directory to the one that is searched for the
    last one, under the name `want`. -/
inductive World.Leads (w : World) (doRmdir : Bool) : Node → List Byte → Node → List Byte → Prop
  | last {cip : Node} {path : List Byte} (hbehind : behind path = [])
      (henter : w.Enters doRmdir cip) :
      w.Leads doRmdir cip path (w.searched cip (dirName (component path)))
        (dirName (component path))
  | step {cip dir : Node} {path want : List Byte} {ino seek : ℕ} (hbehind : behind path ≠ [])
      (henter : w.Enters doRmdir cip)
      (hentry : w.EntryAt (w.searched cip (dirName (component path))) (dirName (component path))
        ino seek)
      (hattach : w.iattach ⟨(w.searched cip (dirName (component path))).dev, ino⟩ = true)
      (hrest : w.Leads doRmdir ⟨(w.searched cip (dirName (component path))).dev, ino⟩ (behind path)
        dir want) :
      w.Leads doRmdir cip path dir want

theorem lookup_of_entry (hwant : want.length = DIRSIZ) (h : w.EntryAt dir want ino seek) :
    w.lookup dir want = .found ino seek := by
  obtain ⟨i, hi, rfl, hm, rfl, hfirst⟩ := h.first
  have hspec := lookup_spec (w.rd dir.dev) (w.blocks dir.dev) (w.inode dir) hwant
  unfold World.lookup
  generalize Dir.lookup (w.rd dir.dev) (w.blocks dir.dev) (w.inode dir) want = r at hspec ⊢
  cases r with
  | failed =>
    obtain ⟨b, -, hb, hnone⟩ := hspec
    have hge : b * BSIZE ≤ SLOT * i := not_lt.mp fun hlt => hnone i hlt hm
    have hread := h.read b hge
    rw [World.readable, hb] at hread
    cases hread
  | absent seek => exact absurd hm (hspec.1 i hi)
  | found ino seek =>
    obtain ⟨j, hj, rfl, hmj, rfl, hfirstj⟩ := hspec
    obtain rfl : i = j := by
      rcases lt_trichotomy i j with hlt | rfl | hlt
      · exact absurd hm (hfirstj i hlt)
      · rfl
      · exact absurd hmj (hfirst j hlt)
    rfl

/-- What the loop makes of the search for the last component. -/
def World.finish (w : World) (t : Access) (dir : Node) (want : List Byte) : Outcome :=
  match w.lookup dir want with
  | .failed => .error
  | .absent seek => if t = .create then .parent dir seek else .error
  | .found ino seek =>
      if t = .unlink then .entry ino dir seek
      else if w.iattach ⟨dir.dev, ino⟩ = false then .error
      else .child ⟨dir.dev, ino⟩

theorem behind_lt (h : path ≠ []) : (behind path).length < path.length := by
  unfold behind
  have hle := (List.dropWhile_sublist (· = SLASH) (l := path.dropWhile (· ≠ SLASH))).length_le
  cases path with
  | nil => exact absurd rfl h
  | cons c path =>
    by_cases hc : c = SLASH
    · rw [List.dropWhile_cons_of_neg (by simpa using hc), List.dropWhile_cons_of_pos
        (by simpa using hc)]
      exact Nat.lt_succ_of_le (List.dropWhile_sublist _).length_le
    · rw [List.dropWhile_cons_of_pos (by simpa using hc)] at hle ⊢
      exact Nat.lt_succ_of_le (hle.trans (List.dropWhile_sublist _).length_le)

/-- **The walk** gets to the last component. -/
theorem walk_eq (h : w.Leads doRmdir cip path dir want) (t : Access) {left : ℕ}
    (hleft : path.length ≤ left) (hpath : path ≠ []) :
    w.walk t doRmdir false left cip path = w.finish t dir want := by
  induction h generalizing left with
  | @last cip path hbehind henter =>
    obtain ⟨left, rfl⟩ : ∃ l, left = l + 1 :=
      ⟨left - 1, by have := List.length_pos_iff.mpr hpath; omega⟩
    unfold World.walk World.finish
    simp only [henter.1, henter.2, hbehind]
    simp
  | @step cip dir path want ino seek hbehind henter hentry hattach hrest ih =>
    obtain ⟨left, rfl⟩ : ∃ l, left = l + 1 :=
      ⟨left - 1, by have := List.length_pos_iff.mpr hpath; omega⟩
    have hlookup := lookup_of_entry (dirName_length _) hentry
    have hshort := behind_lt hpath
    have hnext := @ih left (by omega) hbehind
    unfold World.walk
    simp only [henter.1, henter.2, hlookup, hbehind, hattach]
    simpa using hnext

/-! ### The entry that is written -/

variable {ι : Type} [DecidableEq ι] {s : Fs} {files : ι → Inode} {f : ι} {L : List ℕ}

end CohKernel.Dir
