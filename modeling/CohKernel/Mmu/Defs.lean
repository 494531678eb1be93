import CohKernel.Lib.Buddy

namespace CohKernel.Mmu

open CohKernel.Lib

/-!
# The buddy allocator of page tables

`areasize`, `areafree`, `arealloc` and `areainit` of `mmu.c`.  An area is a run of chunks of four
page table entries each, and is given by the index of its first chunk in `budtab`.  A list
`bfree [n]` is the list of the indexes over `forw`, so `INSERT2` appends to it.  The index of a
list may go beyond `NBUDDY`: what is inserted there is in no list, and a search that starts out of
range has no result.
-/

/-- Segments of `2 ^ NBUDDY` chunks. -/
def NBUDDY : ℕ := 12

/-- The table of `areasize`. -/
def buddysize : List ℤ :=
  [-1, 0, 1, 2, 2, 3, 3, 3, 3, 4, 4, 4, 4, 4, 4, 4, 4, 5, 5, 5, 5, 5, 5, 5, 5, 5, 5, 5, 5, 5, 5, 5,
    5, 6, 6, 6, 6, 6, 6, 6, 6, 6, 6, 6, 6, 6, 6, 6, 6, 6, 6, 6, 6, 6, 6, 6, 6, 6, 6, 6, 6, 6, 6, 6]

/-- `areasize`: the order of the area for `n` entries; it panics above `0x3F00`. -/
def areasize (n : ℕ) : Option ℤ :=
  if n > 0x3F00 then none
  else
    let n := (n + 3) >>> 2
    let m := n &&& 0x3F
    let n := n >>> 6
    if n = 0 then buddysize[m]? else buddysize[n + if m ≠ 0 then 1 else 0]?.map (· + 6)

/-- The lists of free areas, the bitmap and the `kval` of every chunk. -/
structure Sysmem where
  bfree : ℕ → List ℕ
  budfree : ℕ → Bool
  kval : ℕ → ℤ

/-- Free an area: its bit, its list and its `kval`. -/
def Sysmem.link (s : Sysmem) (ix n : ℕ) : Sysmem where
  bfree := if n < NBUDDY then Function.update s.bfree n (s.bfree n ++ [ix]) else s.bfree
  budfree := Function.update s.budfree ix true
  kval := Function.update s.kval ix n

/-- Take an area from its list, and clear its bit. -/
def Sysmem.unlink (s : Sysmem) (ix : ℕ) : Sysmem where
  bfree := fun n => (s.bfree n).erase ix
  budfree := Function.update s.budfree ix false
  kval := s.kval

/-- The loop of `areafree`: join the area with its buddy as long as that is free.  `left` counts
    the sizes up to `NBUDDY`. -/
def Sysmem.coalesce : ℕ → Sysmem → ℕ → ℕ → Sysmem × ℕ × ℕ
  | 0, s, ix, n => (s, ix, n)
  | left + 1, s, ix, n =>
      let nx := buddy ix n
      if s.budfree nx then
        if s.kval nx ≠ n then (s, ix, n)
        else Sysmem.coalesce left (s.unlink nx) (if nx < ix then nx else ix) (n + 1)
      else (s, ix, n)

/-- `areafree` of an area of order `n`. -/
def Sysmem.freeArea (s : Sysmem) (ix n : ℕ) : Sysmem :=
  let (s, ix, n) := Sysmem.coalesce (NBUDDY - n) s ix n
  s.link ix n

/-- The order of the area for `numPages` entries, if there is a list for it. -/
def orderOf (numPages : ℕ) : Option ℕ :=
  (areasize numPages).bind fun size => if 0 ≤ size ∧ size < NBUDDY then some size.toNat else none

/-- `areafree`. -/
def Sysmem.areafree (s : Sysmem) (ix numPages : ℕ) : Option Sysmem :=
  (orderOf numPages).map fun n => s.freeArea ix n

/-- The search of `arealloc`: the first list from `size` on that is not empty. -/
def Sysmem.findFit (s : Sysmem) : ℕ → ℕ → Option (ℕ × ℕ)
  | 0, _ => none
  | left + 1, size =>
      match s.bfree size with
      | [] => s.findFit left (size + 1)
      | rsp :: _ => some (size, rsp)

/-- Free the upper halves of an area of order `q + d`, down to the order `q`. -/
def Sysmem.splitDown (s : Sysmem) (rsp q : ℕ) : ℕ → Sysmem
  | 0 => s
  | d + 1 => (s.link (rsp + 2 ^ (q + d)) (q + d)).splitDown rsp q d

/-- `arealloc` of an area of order `q`. -/
def Sysmem.takeArea (s : Sysmem) (q : ℕ) : Option ℕ × Sysmem :=
  match s.findFit (NBUDDY - q) q with
  | none => (none, s)
  | some (size, rsp) => (some rsp, (s.unlink rsp).splitDown rsp q (size - q))

/-- `arealloc`. -/
def Sysmem.arealloc (s : Sysmem) (pages : ℕ) : Option (Option ℕ × Sysmem) :=
  (orderOf pages).map fun q => s.takeArea q

/-- The size of a chunk in bytes, and in page table entries. -/
def CHUNK : ℕ := 16
def CHUNK_PAGES : ℕ := 4

/-- `areainit`: every chunk of the arena is freed; `kval` is what the memory holds. -/
def areainit (kval : ℕ → ℤ) (budArenaBytes : ℕ) : Option Sysmem :=
  let n := budArenaBytes / CHUNK
  if n > 2 ^ NBUDDY then none
  else (List.range n).foldlM (fun s i => s.areafree i CHUNK_PAGES)
    ⟨fun _ => [], fun _ => false, kval⟩

end CohKernel.Mmu
