import CohKernel.Fs.Write

namespace CohKernel.Dir

open CohKernel.Lib CohKernel.Fs

/-!
# Directories

A directory is a file of slots of sixteen bytes: the number of an inode, zero when the slot is free,
and a name of fourteen bytes, filled up with zeros.

* `vread_spec` — `vread` of `fs3.c` gets a block of the file;
* `cname`, `strncmp_iff` — names, and how they are compared.
-/

/-- The bytes of a name. -/
def DIRSIZ : ℕ := 14

/-- The bytes of a slot, `sizeof (struct direct)`. -/
def SLOT : ℕ := 16

/-! ### Slots -/

/-- `d_ino` of the slot at an offset. -/
def dIno (m : Bytes) (o : ℕ) : ℕ := m.word o

/-- `d_name` of the slot at an offset. -/
def dName (m : Bytes) (o : ℕ) : List Byte := (List.range DIRSIZ).map fun j => m (o + 2 + j)

/-- The bytes of a name before its terminator. -/
def cname (name : List Byte) : List Byte := name.takeWhile (· ≠ 0)

/-- `strncmp` of two arrays of one size gives 0. -/
def strncmp : List Byte → List Byte → Bool
  | x :: xs, y :: ys => if x ≠ y then false else if x = 0 then true else strncmp xs ys
  | _, _ => true

/-- The bytes of a file. -/
def content (blocks : ℕ → Bytes) (ip : Inode) : Bytes := fileByte blocks ip.iAddr

/-- The slots that are wholly in the file. -/
def slots (ip : Inode) : ℕ := ip.iSize / SLOT

theorem strncmp_iff {xs ys : List Byte} (h : xs.length = ys.length) :
    strncmp xs ys = true ↔ cname xs = cname ys := by
  induction xs generalizing ys with
  | nil =>
    rw [List.length_nil] at h
    rw [List.length_eq_zero_iff.mp h.symm]
    exact ⟨fun _ => rfl, fun _ => rfl⟩
  | cons x xs ih =>
    cases ys with
    | nil => cases h
    | cons y ys =>
      have hlen : xs.length = ys.length := Nat.succ.inj h
      unfold strncmp cname
      by_cases hxy : x = y
      · subst hxy
        rw [if_neg (not_not.mpr rfl)]
        by_cases h0 : x = 0
        · subst h0
          rw [if_pos rfl]
          simp
        · rw [if_neg h0, ih hlen, List.takeWhile_cons_of_pos (by simpa using h0),
            List.takeWhile_cons_of_pos (by simpa using h0), List.cons_inj_right]
          rfl
      · rw [if_pos hxy]
        refine ⟨fun h => absurd h Bool.false_ne_true, fun h => ?_⟩
        by_cases hx : x = 0
        · rw [List.takeWhile_cons_of_neg (by simpa using hx),
            List.takeWhile_cons_of_pos (by simpa [hx] using Ne.symm hxy)] at h
          cases h
        · rw [List.takeWhile_cons_of_pos (by simpa using hx)] at h
          by_cases hy : y = 0
          · rw [List.takeWhile_cons_of_neg (by simpa using hy)] at h
            cases h
          · rw [List.takeWhile_cons_of_pos (by simpa using hy)] at h
            exact absurd (List.cons.inj h).1 hxy

theorem dName_length (m : Bytes) (o : ℕ) : (dName m o).length = DIRSIZ := by
  rw [dName, List.length_map, List.length_range]

/-- A slot depends on its bytes. -/
theorem slot_congr {m m' : Bytes} {o o' : ℕ} (h : ∀ j < SLOT, m (o + j) = m' (o' + j)) :
    dIno m o = dIno m' o' ∧ dName m o = dName m' o' := by
  unfold dIno Bytes.word dName
  have h0 := h 0 (by decide)
  have h1 := h 1 (by decide)
  rw [Nat.add_zero, Nat.add_zero] at h0
  rw [h0, h1]
  refine ⟨rfl, List.map_congr_left fun j hj => ?_⟩
  rw [List.mem_range] at hj
  rw [Nat.add_assoc, Nat.add_assoc]
  exact h (2 + j) (by unfold SLOT DIRSIZ at *; omega)

/-! ### Blocks -/

/-- `vread`: the contents of a block of a file, unless it or an indirect block cannot be read. -/
def vread (rd : ℕ → Bool) (blocks : ℕ → Bytes) (ip : Inode) (blockofs : ℕ) : Option Bytes :=
  (vmap false rd blocks ip.iAddr 1 blockofs 1).bind fun list =>
    match list.getD 0 none with
    | none => some fun _ => 0
    | some b => if rd b = true then some (blocks b) else none

variable {rd : ℕ → Bool} {blocks : ℕ → Bytes} {ip : Inode} {b : ℕ} {blk : Bytes}

theorem descend_sound (idx : List ℕ) (table : ℕ → ℕ) :
    match descend rd blocks table idx with
    | none => True
    | some none => ∀ leaf, look blocks table (idx ++ [leaf]) = 0
    | some (some outlist) => ∀ leaf, look blocks table (idx ++ [leaf]) = outlist leaf := by
  induction idx generalizing table with
  | nil => exact fun _ => rfl
  | cons i idx ih =>
    unfold descend
    by_cases h0 : table i = 0
    · rw [if_pos h0]
      intro leaf
      rw [List.cons_append, look, h0, follow_zero]
    rw [if_neg h0]
    by_cases hrd : rd (table i) = true
    · rw [if_pos hrd]
      have hstep : ∀ leaf, look blocks table (i :: idx ++ [leaf]) =
          look blocks (dp (blocks (table i))) (idx ++ [leaf]) := by
        intro leaf
        cases idx with
        | nil => exact if_neg h0
        | cons j idx => exact if_neg h0
      simp only [hstep]
      exact ih _
    · rw [if_neg hrd]
      trivial

/-- **`vread`** gets a block of the file. -/
theorem vread_spec (h : vread rd blocks ip b = some blk) {j : ℕ} (hj : j < BSIZE) :
    blk j = content blocks ip (b * BSIZE + j) := by
  obtain ⟨list, hmap, hblk⟩ := Option.bind_eq_some_iff.mp h
  have hdiv : (b * BSIZE + j) / BSIZE = b ∧ (b * BSIZE + j) % BSIZE = j := by
    unfold BSIZE at *
    omega
  -- the one block that is asked for
  have hlist : list.getD 0 none = blockEntry (phys blocks ip.iAddr b) := by
    unfold vmap at hmap
    obtain ⟨part, hpart, hmap⟩ := Option.bind_eq_some_iff.mp hmap
    rw [if_neg (by simp)] at hmap
    cases hmap
    obtain ⟨⟨idx, leaf, n⟩, hl, hpart⟩ := Option.bind_eq_some_iff.mp hpart
    have hn : 0 < n := lmap_pos hl
    have hcount : (if n > 1 then 1 else n) = 1 := by split_ifs <;> omega
    have hphys : phys blocks ip.iAddr b = look blocks ip.iAddr (idx ++ [leaf]) := by
      have := @phys_of_lmap blocks ip.iAddr b _ _ _ 0 hl hn
      rwa [Nat.add_zero, Nat.add_zero] at this
    have hdesc := @descend_sound rd blocks idx ip.iAddr
    obtain ⟨o, ho, hpart⟩ := Option.bind_eq_some_iff.mp hpart
    rw [ho] at hdesc
    cases o with
    | none =>
      cases hpart
      simp only at hdesc
      rw [hphys, hdesc, hcount]
      rfl
    | some outlist =>
      cases hpart
      simp only at hdesc
      rw [hphys, hdesc, hcount]
      rfl
  rw [hlist] at hblk
  unfold content fileByte
  rw [hdiv.1, hdiv.2]
  unfold blockEntry at hblk
  by_cases h0 : phys blocks ip.iAddr b = 0
  · rw [if_pos h0] at hblk ⊢
    cases hblk
    rfl
  · rw [if_neg h0] at hblk ⊢
    obtain ⟨-, hblk⟩ := Option.ite_none_right_eq_some.mp hblk
    cases hblk
    rfl

/-- The name of a file, as long as a name can be. -/
def longName : List Byte := [97, 98, 99, 100, 101, 102, 103, 104, 105, 106, 107, 108, 109, 110]

/-- A directory of two blocks: `.`, `..`, thirty free slots, and a file in the second block. -/
def crowded : Inode where
  iMode := .IFDIR
  iSize := 33 * SLOT
  iAddr i := if i = 0 then 10 else if i = 1 then 11 else 0
  iPnc := 0
  iPrx := 0
  iPwx := 0
  iLastblock := -1

def crowdedBlocks : ℕ → Bytes
  | 10 => fun k => ([2, 0, 46, 0, 0, 0, 0, 0, 0, 0, 0, 0, 0, 0, 0, 0,
      2, 0, 46, 46] : List Byte).getD k 0
  | 11 => fun k => (7 :: 0 :: longName).getD k 0
  | _ => fun _ => 0

end CohKernel.Dir
