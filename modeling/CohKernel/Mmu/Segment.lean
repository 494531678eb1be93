import CohKernel.Mmu.Defs

namespace CohKernel.Mmu

open CohKernel.Lib

/-!
# Segments and their page tables

`c_alloc`, `c_free`, `c_grow` and `c_extend` of `mmu.c`, and their callers `smalloc`, `sfree` and
`seggrow` of `seg.c`.  The page tables are the words `pbase` of the arena, four of them to a chunk;
the free-page stack from `tfree` up to `pfree` is the list of its pages from the top.  A call that
panics has no step, nor has an allocation of no page, for which `arealloc` takes an element before
`bfree`.
-/

/-! ### Pages -/

/-- The size of a page. -/
def NBPC : ℕ := 4096

def SEG_PRE : ℕ := 1
def SEG_RW : ℕ := 7
def SEG_NPL : ℕ := 0x80

/-- Bytes to pages, rounding up; the addition is one of `unsigned long`. -/
def btocru (n : ℕ) : ℕ := (n + NBPC - 1) % 2 ^ 32 / NBPC

/-- Bytes to pages, rounding down. -/
def btocrd (n : ℕ) : ℕ := n / NBPC

/-- Pages to bytes. -/
def ctob (n : ℕ) : ℕ := n * NBPC

/-- A segment: its references, its size in bytes, and the area of its page table. -/
structure Seg where
  sUrefc : ℤ
  sSize : ℕ
  sVmem : ℕ

/-- The page tables, the free-page stack with the space that it has, the range of valid pages, and
    the queue of segments. -/
structure Mem where
  sysmem : Sysmem
  pbase : ℕ → ℕ
  pfree : List ℕ
  efree : ℕ
  lo : ℕ
  hi : ℕ
  segmq : List Seg

/-- Change the queue of segments. -/
def Mem.setQueue (m : Mem) (segmq : List Seg) : Mem := { m with segmq := segmq }

/-- `pvalid`. -/
def Mem.pvalid (m : Mem) (p : ℕ) : Bool := decide (m.lo ≤ p ∧ p < m.hi)

/-- `allocno`. -/
def Mem.allocno (m : Mem) : ℕ := m.pfree.length

/-- The index of the first entry of a table. -/
def tableAt (area : ℕ) : ℕ := CHUNK_PAGES * area

/-! ### Loops over a page table -/

/-- Pop `k` pages that pass a check, and store them with the flags from entry `qp` on. -/
def fillTable (check : ℕ → Bool) (bits : ℕ) :
    ℕ → (ℕ → ℕ) → List ℕ → ℕ → Option ((ℕ → ℕ) × List ℕ)
  | 0, v, pfree, _ => some (v, pfree)
  | _ + 1, _, [], _ => none
  | k + 1, v, pno :: pfree, qp =>
      if check pno then
        fillTable check bits k (Function.update v qp (ctob pno + bits)) pfree (qp + 1)
      else none

/-- Push the pages of `k` entries, apart from those that are not from the pool. -/
def freePages (check : ℕ → Bool) (v : ℕ → ℕ) : ℕ → List ℕ → ℕ → Option (List ℕ)
  | 0, pfree, _ => some pfree
  | k + 1, pfree, qp =>
      if v qp &&& SEG_NPL = 0 then
        if check (btocrd (v qp)) then freePages check v k (btocrd (v qp) :: pfree) (qp + 1)
        else none
      else freePages check v k pfree (qp + 1)

/-- Copy `k` entries. -/
def copyTable (src dst : ℕ) : ℕ → (ℕ → ℕ) → ℕ → ℕ
  | 0, v => v
  | k + 1, v =>
      let v := copyTable src dst k v
      Function.update v (dst + k) (v (src + k))

/-- Move `k` entries up by one, from the last one on. -/
def shiftTable (pp : ℕ) : ℕ → (ℕ → ℕ) → ℕ → ℕ
  | 0, v => v
  | k + 1, v => shiftTable pp k (Function.update v (pp + k + 1) (v (pp + k)))

/-! ### Page tables -/

/-- `c_alloc`: the area of a new table, if there is room. -/
def Mem.cAlloc (m : Mem) (pagesWanted : ℕ) : Option (Option ℕ × Mem) :=
  if pagesWanted > m.allocno then some (none, m)
  else
    (m.sysmem.arealloc pagesWanted).bind fun (r, s) =>
      match r with
      | none => some (none, { m with sysmem := s })
      | some pp =>
          (fillTable m.pvalid SEG_PRE pagesWanted m.pbase m.pfree (tableAt pp)).map fun
            (v, pfree) =>
            (some pp, { m with sysmem := s, pbase := v, pfree := pfree })

/-- `c_free`. -/
def Mem.cFree (m : Mem) (pp numPages : ℕ) : Option Mem :=
  if m.pfree.length + numPages > m.efree then none
  else
    (freePages m.pvalid m.pbase numPages m.pfree (tableAt pp)).bind fun pfree =>
      (m.sysmem.areafree pp numPages).map fun s => { m with sysmem := s, pfree := pfree }

/-- A new table for a segment that grows: the old entries are copied, and their area is freed. -/
def Mem.moveTable (m : Mem) (sp : Seg) (pp oldPages : ℕ) : Option (Seg × Mem) :=
  let v := copyTable (tableAt sp.sVmem) (tableAt pp) oldPages m.pbase
  (m.sysmem.areafree sp.sVmem oldPages).map fun s =>
    ({ sp with sVmem := pp }, { m with sysmem := s, pbase := v })

/-- `c_grow`: the segment with a table of the new size, or nothing if it fails. -/
def Mem.cGrow (m : Mem) (sp : Seg) (newBytes : ℕ) : Option (Option Seg × Mem) :=
  let newPages := btocru newBytes
  let oldPages := btocru sp.sSize
  if newPages = oldPages then some (some sp, m)
  else if newPages < oldPages then some (none, m)
  else if newPages - oldPages > m.allocno then some (none, m)
  else
    (areasize newPages).bind fun nsize =>
      (areasize oldPages).bind fun osize =>
        if nsize = osize then
          (fillTable (fun _ => true) SEG_RW (newPages - oldPages) m.pbase m.pfree
              (tableAt sp.sVmem + oldPages)).map fun (v, pfree) =>
            (some sp, { m with pbase := v, pfree := pfree })
        else
          (m.sysmem.arealloc newPages).bind fun (r, s) =>
            match r with
            | none => some (none, { m with sysmem := s })
            | some pp =>
                (fillTable (fun _ => true) SEG_RW (newPages - oldPages) m.pbase m.pfree
                    (tableAt pp + oldPages)).bind fun (v, pfree) =>
                  (Mem.moveTable { m with sysmem := s, pbase := v, pfree := pfree } sp pp
                    oldPages).map fun (sp, m) => (some sp, m)

/-- `__IS_POWER_OF_TWO`, for a positive number. -/
def isPowerOfTwo (n : ℕ) : Bool := (n - 1) &&& n = 0

/-- `c_extend`: the segment with one page more at its beginning, or nothing if it fails. -/
def Mem.cExtend (m : Mem) (sp : Seg) : Option (Option Seg × Mem) :=
  let osz := btocru sp.sSize
  if m.pfree = [] then some (none, m)
  else if osz ≥ 1024 then some (none, m)
  else
    -- a table of a power of two may have used up its area
    let room : Option (Option Seg × Mem) :=
      if isPowerOfTwo osz then
        (m.sysmem.arealloc (osz + 1)).bind fun (r, s) =>
          match r with
          | none => some (none, { m with sysmem := s })
          | some pp => (Mem.moveTable { m with sysmem := s } sp pp osz).map fun (sp, m) =>
              (some sp, m)
      else some (some sp, m)
    room.bind fun (r, m) =>
      match r with
      | none => some (none, m)
      | some sp =>
          let pp := tableAt sp.sVmem
          (fillTable m.pvalid SEG_RW 1 (shiftTable pp osz m.pbase) m.pfree pp).map fun (v, pfree) =>
            (some sp, { m with pbase := v, pfree := pfree })

/-! ### Segments -/

/-- `countsize`. -/
def countsize (n : ℕ) : ℕ := if n ≤ 1024 then n + 1 else n + (n + 1024 - 1) / 1024 + 1

/-- `smalloc`; `kseg` says whether `kalloc` gives a segment structure. -/
def Mem.smalloc (m : Mem) (kseg : Bool) (bytesWanted : ℕ) : Option (Option Seg × Mem) :=
  let pagesWanted := btocru bytesWanted
  if countsize pagesWanted > m.allocno then some (none, m)
  else if kseg = false then some (none, m)
  else
    (m.cAlloc pagesWanted).map fun (r, m) =>
      match r with
      | none => (none, m)
      | some pp =>
          let sp : Seg := { sUrefc := 1, sSize := bytesWanted, sVmem := pp }
          (some sp, m.setQueue (sp :: m.segmq))

/-- `segdupl` of a shared segment. -/
def Mem.segdupl (m : Mem) (i : ℕ) : Option Mem :=
  m.segmq[i]?.map fun sp => m.setQueue (m.segmq.set i { sp with sUrefc := sp.sUrefc + 1 })

/-- `sfree`. -/
def Mem.sfree (m : Mem) (i : ℕ) : Option Mem :=
  m.segmq[i]?.bind fun sp =>
    if sp.sUrefc ≠ 1 then
      some (m.setQueue (m.segmq.set i { sp with sUrefc := sp.sUrefc - 1 }))
    else (m.setQueue (m.segmq.eraseIdx i)).cFree sp.sVmem (btocru sp.sSize)

/-- `seggrow` by a new segment, whose table and place in the queue the old one takes over. -/
def Mem.segcopy (m : Mem) (kseg : Bool) (i : ℕ) (sp : Seg) (newBytes : ℕ) : Option Mem :=
  (m.smalloc kseg newBytes).bind fun (r, m') =>
    match r with
    | none => some m'
    | some sp1 =>
        (m'.setQueue ({ sp with sSize := sp1.sSize, sVmem := sp1.sVmem } ::
          m.segmq.eraseIdx i)).cFree sp.sVmem (btocru sp.sSize)

/-- `seggrow`. -/
def Mem.seggrow (m : Mem) (kseg : Bool) (i newBytes : ℕ) : Option Mem :=
  m.segmq[i]?.bind fun sp =>
    if newBytes = sp.sSize then some m
    else if newBytes < sp.sSize then m.segcopy kseg i sp newBytes
    else
      (m.cGrow sp newBytes).bind fun (r, m) =>
        match r with
        | none => m.segcopy kseg i sp newBytes
        | some sp => some (m.setQueue (m.segmq.set i { sp with sSize := newBytes }))

/-- A stack segment that gets another page, when a page fault or a signal asks for it. -/
def Mem.growStack (m : Mem) (i : ℕ) : Option Mem :=
  m.segmq[i]?.bind fun sp =>
    (m.cExtend sp).map fun (r, m) =>
      match r with
      | none => m
      | some sp => m.setQueue (m.segmq.set i { sp with sSize := sp.sSize + NBPC })

end CohKernel.Mmu
