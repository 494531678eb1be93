import CohKernel.Fs.Truncate

namespace CohKernel.Fs

open CohKernel.Lib

/-!
# The files of a filesystem

Runs of reads, writes and truncations of any number of files.  Every call holds the lock of its
inode and the files share no block, so a call is one step.

* `Kept.step` — a call keeps the files apart, and their bytes;
* `reachable_files` — a read delivers what has been written last;
* `reachable_owned` — no block has two uses;
* `reachable_truncate` — a truncation frees the blocks of the file, each of them once.
-/

variable {ι : Type*} [DecidableEq ι]

/-- The files of a mounted filesystem.  `last` has the byte that has been written last at an offset
    of a file since the file was empty, and zero when there is none. -/
structure Files (ι : Type*) where
  fs : Fs
  inode : ι → Inode
  last : ι → ℕ → Byte

/-- A call of `fwrite`, `fread` or `itruncate`.  `rd` says which blocks can be read. -/
inductive Op (ι : Type*) where
  | write (f : ι) (seek : ℕ) (data : List Byte) (rd : ℕ → Bool)
  | read (f : ι) (seek ioc : ℕ) (t : Params) (rd : ℕ → Bool)
  | truncate (f : ι) (sortblocks : Bool) (rd : ℕ → Bool)

/-- The byte at an offset of a file. -/
def Files.byte (m : Files ι) (f : ι) (k : ℕ) : Byte := fileByte m.fs.blocks (m.inode f).iAddr k

/-- `pwrite` writes to the direct blocks of a pipe; what is neither a file nor a pipe has no
    blocks. -/
def Inode.writable (ip : Inode) (stop : ℕ) : Prop :=
  match ip.iMode with
  | .IFREG | .IFDIR => True
  | .IFPIPE => stop ≤ ND * BSIZE
  | .other => False

instance (ip : Inode) (stop : ℕ) : Decidable (ip.writable stop) := by
  unfold Inode.writable
  cases ip.iMode <;> infer_instance

/-- A call. -/
def Files.step (m : Files ι) : Op ι → Option (Files ι)
  | .write f seek data rd =>
      if (m.inode f).writable (seek + data.length) then
        let (fs, ip, stop) := fwrite rd m.fs (m.inode f) seek data
        some
          { fs := fs
            inode := Function.update m.inode f ip
            last := fun g k =>
              if g = f ∧ seek ≤ k ∧ k < stop then data.getD (k - seek) 0 else m.last g k }
      else none
  | .read f seek ioc t rd =>
      some { m with
        inode := Function.update m.inode f (fread t rd m.fs.blocks (m.inode f) seek ioc).2 }
  | .truncate f sortblocks rd =>
      if (m.inode f).iMode = .other then some m
      else
        let (fs, ip) := itruncate rd sortblocks m.fs (m.inode f)
        some
          { fs := fs
            inode := Function.update m.inode f ip
            last := fun g k => if g = f then 0 else m.last g k }

/-- A filesystem whose files are empty. -/
def Fresh (m : Files ι) : Prop :=
  (∃ L, Listed m.fs L) ∧
    ∀ f, (m.inode f).iSize = 0 ∧ ((m.inode f).iAddr = fun _ => 0) ∧ ∀ k, m.last f k = 0

/-- The files are apart, as long as they can be, and have the bytes that have been written. -/
structure Kept (m : Files ι) (L : List ℕ) : Prop where
  laid : Laid m.fs m.inode L
  size : ∀ f, (m.inode f).iSize ≤ maxBlocks * BSIZE
  pipe : ∀ f, (m.inode f).iMode = .IFPIPE → ∀ i, ND ≤ i → (m.inode f).iAddr i = 0
  last : ∀ f k, m.byte f k = m.last f k

variable {m m' : Files ι} {a : Op ι} {f : ι} {L : List ℕ}

theorem fileByte_empty (blocks : ℕ → Bytes) (k : ℕ) : fileByte blocks (fun _ => 0) k = 0 := by
  unfold fileByte phys
  cases h : blockPath (k / BSIZE) with
  | none => simp
  | some p => simp [look_empty (lmap_path h).1]

omit [DecidableEq ι] in
theorem Fresh.kept (h : Fresh m) : ∃ L, Kept m L := by
  obtain ⟨⟨L, hl⟩, hempty⟩ := h
  have hlook : ∀ f p, Path p → look m.fs.blocks (m.inode f).iAddr p = 0 := by
    intro f p hp
    rw [(hempty f).2.1, look_empty hp]
  refine ⟨L, ⟨hl, fun f p hp h0 => absurd (hlook f p hp) h0, fun f p hp hc => ?_,
    fun f p g q hp _ h0 => absurd (hlook f p hp) h0⟩, fun f => ?_, fun f _ i _ => ?_, fun f k => ?_⟩
  · rw [hlook f p hp] at hc
    exact hl.pos hc rfl
  · rw [(hempty f).1]
    exact Nat.zero_le _
  · rw [(hempty f).2.1]
  · rw [Files.byte, (hempty f).2.1, fileByte_empty, (hempty f).2.2]

/-- `fread` changes no more of the inode than `i_lastblock`. -/
theorem fread_inode (t : Params) (rd : ℕ → Bool) (blocks : ℕ → Bytes) (ip : Inode) (seek ioc : ℕ) :
    (fread t rd blocks ip seek ioc).2.iAddr = ip.iAddr ∧
      (fread t rd blocks ip seek ioc).2.iSize = ip.iSize ∧
      (fread t rd blocks ip seek ioc).2.iMode = ip.iMode := by
  unfold fread
  by_cases hpast : seek > ip.iSize
  · rw [if_pos hpast]
    exact ⟨rfl, rfl, rfl⟩
  rw [if_neg hpast]
  simp only
  by_cases h0 : (if ip.iSize - seek > ioc then ioc else ip.iSize - seek) = 0
  · rw [if_pos h0]
    exact ⟨rfl, rfl, rfl⟩
  rw [if_neg h0]
  -- the rest sets it when it gets to the end
  generalize freadLoop t rd blocks ip.iAddr _ _ _ _ _ _ _ _ _ = r
  obtain ⟨bytes, _ | lbn⟩ := r <;> exact ⟨rfl, rfl, rfl⟩

theorem itruncate_inode (rd : ℕ → Bool) (sortblocks : Bool) (s : Fs) {ip : Inode}
    (h : ip.iMode ≠ .other) : ((itruncate rd sortblocks s ip).2.iAddr = fun _ => 0) ∧
      (itruncate rd sortblocks s ip).2.iSize = 0 ∧
      (itruncate rd sortblocks s ip).2.iMode = ip.iMode := by
  unfold itruncate Inode.truncated
  cases hm : ip.iMode with
  | other => exact absurd hm h
  | IFPIPE => exact ⟨rfl, rfl, rfl⟩
  | IFREG => exact ⟨rfl, rfl, rfl⟩
  | IFDIR => exact ⟨rfl, rfl, rfl⟩

/-- **A call** keeps the files. -/
theorem Kept.step (h : Kept m L) (hstep : m.step a = some m') : ∃ L', Kept m' L' := by
  cases a with
  | write f seek data rd =>
    unfold Files.step at hstep
    simp only at hstep
    by_cases hw : (m.inode f).writable (seek + data.length)
    swap
    · rw [if_neg hw] at hstep
      cases hstep
    rw [if_pos hw] at hstep
    obtain ⟨L', hwr⟩ := @fwrite_spec _ _ _ rd _ _ h.laid f seek data
    cases hstep
    refine ⟨L', hwr.laid, fun g => ?_, fun g hg i hi => ?_, fun g k => ?_⟩
    · by_cases hgf : g = f
      · subst hgf
        rw [hwr.size]
        have := h.size g
        rcases hwr.below with hsame | hle
        · rw [if_pos hsame]
          exact this
        · split_ifs
          · exact this
          · exact max_le this hle
      · simp only [Function.update_of_ne hgf]
        exact h.size g
    · by_cases hgf : g = f
      · subst hgf
        rw [hwr.mode] at hg
        rw [Inode.writable, hg] at hw
        rw [hwr.direct hw i hi]
        exact h.pipe g hg i hi
      · simp only [Function.update_of_ne hgf] at hg ⊢
        exact h.pipe g hg i hi
    · unfold Files.byte
      rw [hwr.bytes g k]
      simp only
      split_ifs
      · rfl
      · exact h.last g k
  | read f seek ioc t rd =>
    unfold Files.step at hstep
    cases hstep
    have hsame : ∀ g, (Function.update m.inode f
          (fread t rd m.fs.blocks (m.inode f) seek ioc).2 g).iAddr = (m.inode g).iAddr ∧
        (Function.update m.inode f (fread t rd m.fs.blocks (m.inode f) seek ioc).2 g).iSize =
          (m.inode g).iSize ∧
        (Function.update m.inode f (fread t rd m.fs.blocks (m.inode f) seek ioc).2 g).iMode =
          (m.inode g).iMode := by
      intro g
      by_cases hgf : g = f
      · subst hgf
        rw [Function.update_self]
        exact fread_inode t rd m.fs.blocks (m.inode g) seek ioc
      · rw [Function.update_of_ne hgf]
        exact ⟨rfl, rfl, rfl⟩
    refine ⟨L, h.laid.congr fun g => (hsame g).1, fun g => ?_, fun g hg i hi => ?_, fun g k => ?_⟩
    · exact (hsame g).2.1.trans_le (h.size g)
    · rw [show (_ : Inode).iAddr = _ from (hsame g).1]
      exact h.pipe g ((hsame g).2.2.symm.trans hg) i hi
    · refine Eq.trans ?_ (h.last g k)
      exact congrArg (fileByte m.fs.blocks · k) (hsame g).1
  | truncate f sortblocks rd =>
    unfold Files.step at hstep
    simp only at hstep
    by_cases hm : (m.inode f).iMode = .other
    · rw [if_pos hm] at hstep
      cases hstep
      exact ⟨L, h⟩
    rw [if_neg hm] at hstep
    obtain ⟨haddr, hsize, hmode⟩ := itruncate_inode rd sortblocks m.fs hm
    obtain ⟨L', hfreed⟩ := itruncate_spec h.laid rd sortblocks f
    obtain ⟨hlaid, hbytes⟩ := h.laid.truncate hfreed (fun x hx => path_of_fileNodes hx) haddr
    cases hstep
    refine ⟨L', hlaid, fun g => ?_, fun g hg i hi => ?_, fun g k => ?_⟩
    · by_cases hgf : g = f
      · subst hgf
        simp only [Function.update_self, hsize]
        exact Nat.zero_le _
      · simp only [Function.update_of_ne hgf]
        exact h.size g
    · by_cases hgf : g = f
      · subst hgf
        simp only [Function.update_self, haddr]
      · simp only [Function.update_of_ne hgf] at hg ⊢
        exact h.pipe g hg i hi
    · unfold Files.byte
      rw [hbytes g k]
      simp only
      split_ifs
      · rfl
      · exact h.last g k

theorem reach_files (h : Reach Fresh Files.step (fun _ _ => True) m) : ∃ L, Kept m L := by
  refine h.invariant (fun m hm => hm.kept) ?_
  rintro m a m' ⟨L, hl⟩ - hstep
  exact hl.step hstep

/-! ### Reads and writes -/

/-- A small filesystem with two empty files; the blocks 2, 3 and 4 are free. -/
def smallFs : Files (Fin 2) where
  fs :=
    { super := { sIsize := 2, sFsize := 5, sNfree := 4,
                 sFree := fun i => if i = 0 then 0 else i + 1, sTfree := 3,
                   sFsize_lt := by norm_num }
      blocks := fun _ _ => 0
      gate := false }
  inode := fun _ => { iMode := .IFREG, iSize := 0, iAddr := fun _ => 0, iPnc := 0, iPrx := 0,
                      iPwx := 0, iLastblock := -1 }
  last := fun _ _ => 0

theorem smallFs_fresh : Fresh smallFs := by
  refine ⟨⟨[4, 3, 2], ⟨4, rfl, ?_⟩, by decide, ?_, by decide, rfl⟩, fun _ =>
    ⟨rfl, rfl, fun _ => rfl⟩⟩
  · exact Chain.last 3 _ (by decide) rfl
  · intro b hb
    simp only [List.mem_cons, List.not_mem_nil, or_false] at hb
    rcases hb with rfl | rfl | rfl <;> decide

/-- A byte after a hole, in the first block that hangs off the indirect block. -/
def smallWrite : Op (Fin 2) := .write 0 (ND * BSIZE) [7] fun _ => true

/-- **No block has two uses.** In every run, also one with failing reads or a free list that runs
    out, a block of a file is inside the filesystem, not free, and at one place of one file; and
    the free blocks are inside the filesystem, each of them once on the list. -/
theorem reachable_owned (h : Reach Fresh Files.step (fun _ _ => True) m) :
    ∃ L, Lists m.fs L ∧ L.Nodup ∧ (∀ b ∈ L, m.fs.super.inside b) ∧
      ∀ f p, Path p → look m.fs.blocks (m.inode f).iAddr p ≠ 0 →
        m.fs.super.inside (look m.fs.blocks (m.inode f).iAddr p) ∧
        look m.fs.blocks (m.inode f).iAddr p ∉ L ∧
        ∀ g q, Path q →
          look m.fs.blocks (m.inode f).iAddr p = look m.fs.blocks (m.inode g).iAddr q →
            f = g ∧ p = q := by
  obtain ⟨L, hk⟩ := reach_files h
  obtain ⟨hlist, hinside, hfree, hdistinct⟩ := hk.laid
  exact ⟨L, hlist.chain, hlist.nodup, hlist.inside, fun f p hp h0 =>
    ⟨hinside f p hp h0, hfree f p hp, fun g q hq heq => hdistinct f p g q hp hq h0 heq⟩⟩

/-- The file with the hole has an indirect block, which is not free. -/
theorem reachable_owned_hole : ∃ m, smallFs.step smallWrite = some m ∧ ∃ L, Lists m.fs L ∧
    look m.fs.blocks (m.inode 0).iAddr [ND] ∉ L := by
  have heval : (smallFs.step smallWrite).map (fun m => look m.fs.blocks (m.inode 0).iAddr [ND]) =
      some 4 := by decide +kernel
  obtain ⟨m, hm, hlook⟩ := Option.map_eq_some_iff.mp heval
  obtain ⟨L, hlist, -, -, howned⟩ := reachable_owned ((Reach.init smallFs_fresh).step trivial hm)
  have hpath : Path [ND] := ⟨by decide, by decide, by decide⟩
  exact ⟨m, hm, L, hlist, (howned 0 [ND] hpath (by rw [hlook]; decide)).2.1⟩

/-! ### Truncations -/

/-- **A truncation** frees the blocks of the file, each of them once, and no others, when it can
    read the indirect blocks; the inode has no addresses then. -/
theorem reachable_truncate (h : Reach Fresh Files.step (fun _ _ => True) m) {rd : ℕ → Bool}
    (hmode : (m.inode f).iMode ≠ .other)
    (hrd : ∀ p, Path p → p.length < depth (p.headD 0) → look m.fs.blocks (m.inode f).iAddr p ≠ 0 →
      rd (look m.fs.blocks (m.inode f).iAddr p) = true) (sortblocks : Bool) :
    ∃ F L L', F.Nodup ∧
      (∀ b, b ∈ F ↔ ∃ p, Path p ∧ look m.fs.blocks (m.inode f).iAddr p = b ∧ b ≠ 0) ∧
      Lists m.fs L ∧ Lists (itruncate rd sortblocks m.fs (m.inode f)).1 L' ∧ L'.Nodup ∧
      L'.Perm (F ++ L) ∧
      ∀ i < NADDR, (itruncate rd sortblocks m.fs (m.inode f)).2.iAddr i = 0 := by
  obtain ⟨L, hk⟩ := reach_files h
  obtain ⟨L', hfreed⟩ := itruncate_spec hk.laid rd sortblocks f
  refine ⟨fileNodes rd m.fs.blocks (m.inode f), L, L', nodup_fileNodes hk.laid.distinct f,
    fun b => mem_fileNodes hmode (hk.pipe f) hrd, hk.laid.listed.chain, hfreed.listed.chain,
    hfreed.listed.nodup, hfreed.perm, fun i _ => ?_⟩
  rw [(itruncate_inode rd sortblocks m.fs hmode).1]

/-- The file with the hole is truncated. -/
theorem reachable_truncate_hole : ∃ m, smallFs.step smallWrite = some m ∧ ∃ F L L', F.Nodup ∧
      (∀ b, b ∈ F ↔ ∃ p, Path p ∧ look m.fs.blocks (m.inode 0).iAddr p = b ∧ b ≠ 0) ∧
      Lists m.fs L ∧ Lists (itruncate (fun _ => true) true m.fs (m.inode 0)).1 L' ∧ L'.Nodup ∧
      L'.Perm (F ++ L) ∧
      ∀ i < NADDR, (itruncate (fun _ => true) true m.fs (m.inode 0)).2.iAddr i = 0 := by
  have heval : (smallFs.step smallWrite).map (fun m => (m.inode 0).iMode) = some .IFREG := by
    decide +kernel
  obtain ⟨m, hm, hmode⟩ := Option.map_eq_some_iff.mp heval
  exact ⟨m, hm, reachable_truncate ((Reach.init smallFs_fresh).step trivial hm)
    (by rw [hmode]; decide) (fun _ _ _ _ => rfl) true⟩

/-- **A lost block.** The indirect block cannot be read: the block that hangs off it is not freed.
    -/
theorem unreadable_not_freed : ¬ ∀ m : Files (Fin 2), Reach Fresh Files.step (fun _ _ => True) m →
    ∀ f rd sortblocks p L', (m.inode f).iMode ≠ .other → Path p →
      look m.fs.blocks (m.inode f).iAddr p ≠ 0 →
      Lists (itruncate rd sortblocks m.fs (m.inode f)).1 L' →
      look m.fs.blocks (m.inode f).iAddr p ∈ L' := by
  intro hall
  have heval : (smallFs.step smallWrite).map (fun m => ((m.inode 0).iMode,
      look m.fs.blocks (m.inode 0).iAddr [10, 0],
      (itruncate (fun _ => false) false m.fs (m.inode 0)).1.super.sNfree,
      (List.range 3).map (itruncate (fun _ => false) false m.fs (m.inode 0)).1.super.sFree)) =
      some (.IFREG, 3, 3, [0, 2, 4]) := by decide +kernel
  obtain ⟨m, hm, hval⟩ := Option.map_eq_some_iff.mp heval
  simp only [Prod.mk.injEq] at hval
  obtain ⟨hmode, hlook, hn, hfree⟩ := hval
  have hpath : Path [10, 0] := ⟨by decide, by decide, by decide⟩
  simp only [List.range_succ, List.range_zero, List.nil_append, List.map_cons, List.map_nil,
    List.cons_append, List.cons.injEq, and_true] at hfree
  have hlists : Lists (itruncate (fun _ => false) false m.fs (m.inode 0)).1 [4, 2] := by
    refine ⟨3, hn, ?_⟩
    have hchain := @Chain.last (itruncate (fun _ => false) false m.fs (m.inode 0)).1.blocks
      2 (itruncate (fun _ => false) false m.fs (m.inode 0)).1.super.sFree (by decide) hfree.1
    simp only [tops, hfree] at hchain
    exact hchain
  have hmem := hall m ((Reach.init smallFs_fresh).step trivial hm) 0 (fun _ => false) false [10, 0]
    [4, 2] (by rw [hmode]; decide) hpath (by rw [hlook]; decide) hlists
  rw [hlook] at hmem
  exact absurd hmem (by decide)

end CohKernel.Fs
