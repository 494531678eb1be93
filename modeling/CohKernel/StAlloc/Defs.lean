import CohKernel.Lib.MaxTree

namespace CohKernel.StAlloc

open CohKernel.Lib

/-!
# The heap manager: `st_alloc`, `st_free`, `st_realloc`

The first-fit heap of `lib/st_alloc.c`.  The arena is a sequence of words; a block starts
with a control word that holds its size in words, with the sign bit set while the block is
allocated.  The arena is cut into buckets; `_bucket_first` names the first block that starts
in each bucket and `_bucket_biggest` is a max tree over the largest free block of each.

Memory addresses are word addresses.  `int` values are `ℤ`; a `_ST_WORD_T` in memory is the
signed value of a 32-bit word, so `& _ST_SIZE_MASK` is the remainder modulo `2 ^ 31` and
`& _ST_FREE_MASK` tests the sign.  A loop that would not end returns `none`.  `ASSERT` is
empty in the kernel's build and is left out.
-/

/-! ### Control words -/

/-- `_ST_BLOCK_SIZE (c)`. -/
def blockSize (c : ℤ) : ℕ := (c % 2 ^ 31).toNat

/-- `_ST_BLOCK_FREE (c)`. -/
def blockFree (c : ℤ) : Bool := decide (0 ≤ c)

/-- The word `_ST_BLOCK_SET_FREE` stores. -/
def freeWord (n : ℤ) : ℤ := n % 2 ^ 31

/-- The word `_ST_BLOCK_SET_USED` stores. -/
def usedWord (n : ℤ) : ℤ := n % 2 ^ 31 - 2 ^ 31

/-- `_ST_HEAP_NEXT (a, c)`: the masked size of `c` is added to the address. -/
def heapNext (a : ℕ) (c : ℤ) : ℕ := a + blockSize c

/-- `_ST_HEAP_NEXT (a, delta)` for a signed word count: masking a negative `delta` adds
    `2 ^ 31` words, that is twice the 32-bit address space, which the addition drops. -/
def heapMove (a : ℕ) (delta : ℤ) : ℕ := (a + delta).toNat

/-- `_ST_BYTE2WORD (s)`: the block size in words for a request of `s` bytes.  The addition
    is made in `size_t` and wraps. -/
def byte2word (s : ℕ) : ℤ := ((s + 7) % 2 ^ 32 / 4 : ℕ)

/-- `_ST_WORD2BYTE (n)`, in `size_t`. -/
def word2byte (n : ℤ) : ℕ := ((n - 1) * 4 % 2 ^ 32).toNat

/-! ### The heap control block -/

/-- `struct _st_heap_control`, with the memory it manages. -/
structure HeapControl where
  bucketsInuse : ℕ
  bucketsMaximum : ℕ
  wordsPerBucket : ℕ
  arenaSize : ℕ
  bucketBiggest : ℕ → ℤ
  bucketFirst : ℕ → ℕ
  arenaBase : ℕ
  arenaEnd : ℕ
  heapError : Option String
  mem : ℕ → ℤ

namespace HeapControl

/-- `_ST_HEAP_BUCKET (q, a)`. -/
def heapBucket (q : HeapControl) (a : ℕ) : ℕ := (a - q.arenaBase) / q.wordsPerBucket

/-- `_ST_BLOCK_SET_FREE (q, a, n)`. -/
def blockSetFree (q : HeapControl) (a : ℕ) (n : ℤ) : HeapControl :=
  { q with mem := Function.update q.mem a (freeWord n) }

/-- `_ST_BLOCK_SET_USED (q, a, n)`. -/
def blockSetUsed (q : HeapControl) (a : ℕ) (n : ℤ) : HeapControl :=
  { q with mem := Function.update q.mem a (usedWord n) }

/-- `_ST_HEAP_FIRST (q, b) = a`. -/
def setFirst (q : HeapControl) (b a : ℕ) : HeapControl :=
  { q with bucketFirst := Function.update q.bucketFirst b a }

/-- `_ST_HEAP_BIGGEST (q, bucket + q->_buckets_inuse)`: the leaf of a bucket. -/
def leaf (q : HeapControl) (bucket : ℕ) : ℤ := q.bucketBiggest (bucket + q.bucketsInuse)

/-- A bound on the steps of a walk over the blocks of the arena. -/
def walkFuel (q : HeapControl) : ℕ := q.arenaSize + 1

end HeapControl

open HeapControl

/-! ### The index heap -/

/-- `st_double`. -/
def stDouble (q : HeapControl) : HeapControl :=
  let k := q.bucketsInuse
  { q with
    bucketFirst :=
      (List.range k).foldl (fun f i => Function.update f (i + k) q.arenaEnd) q.bucketFirst
    bucketBiggest := MaxTree.copyLevels (k + 1) k q.bucketBiggest
    bucketsInuse := k * 2 }

/-- The walk of `st_reduced` over the blocks that start before `next`. -/
def reducedWalk (mem : ℕ → ℤ) (next : ℕ) : ℕ → ℕ → ℤ → Option ℤ
  | 0, _, _ => none
  | fuel + 1, first, max =>
      if first < next then
        let cntl := mem first
        reducedWalk mem next fuel (heapNext first cntl) (if max < cntl then cntl else max)
      else some max

/-- `st_reduced`. -/
def stReduced (q : HeapControl) (bucket : ℕ) : Option HeapControl := do
  let next := q.arenaBase + (bucket + 1) * q.wordsPerBucket
  let next := if next ≥ q.arenaEnd then q.arenaEnd else next
  let max ← reducedWalk q.mem next q.walkFuel (q.bucketFirst bucket) 0
  let node := bucket + q.bucketsInuse
  let biggest ← MaxTree.lower (node + 1) max node (Function.update q.bucketBiggest 0 0)
  some { q with bucketBiggest := biggest }

/-- `while (bucket >= q->_buckets_inuse) st_double (q)`. -/
def growBuckets (bucket : ℕ) : ℕ → HeapControl → Option HeapControl
  | 0, _ => none
  | fuel + 1, q =>
      if bucket ≥ q.bucketsInuse then growBuckets bucket fuel (stDouble q) else some q

/-- `st_grown`. -/
def stGrown (q : HeapControl) (a bucket : ℕ) : Option HeapControl := do
  let q ← growBuckets bucket (bucket + 2) q
  let q := if q.bucketFirst bucket > a then q.setFirst bucket a else q
  let node := bucket + q.bucketsInuse
  let max := q.mem a
  let biggest ← MaxTree.raise max (node + 1) node (Function.update q.bucketBiggest 0 max)
  some { q with bucketBiggest := biggest }

/-- `if (…) st_reduced (q, bucket)`. -/
def reduceWhen (p : Prop) [Decidable p] (q : HeapControl) (bucket : ℕ) : Option HeapControl :=
  if p then stReduced q bucket else some q

/-- `if (…) st_grown (q, a, bucket)`. -/
def growWhen (p : Prop) [Decidable p] (q : HeapControl) (a bucket : ℕ) : Option HeapControl :=
  if p then stGrown q a bucket else some q

/-! ### The predecessor of a block -/

/-- `IS_POWER_OF_TWO (b)`. -/
def isPowerOfTwo (b : ℕ) : Bool := decide ((b - 1) &&& b = 0)

/-- The `do … while (scan < a)` walk of `st_pred`: the last two blocks it has seen. -/
def predWalk (mem : ℕ → ℤ) (a : ℕ) : ℕ → ℕ → Option (ℕ × ℕ)
  | 0, _ => none
  | fuel + 1, prev =>
      let scan := heapNext prev (mem prev)
      if scan < a then predWalk mem a fuel scan else some (prev, scan)

/-- The part of `st_pred` that finds the bucket to start the walk in when `a` is the first
    block of its own: the nearest bucket on the left that has a free block, or bucket `0`. -/
def predBucket (q : HeapControl) (bucket : ℕ) : Option ℕ := do
  let node := bucket + q.bucketsInuse
  let node ← MaxTree.climbLeft q.bucketBiggest (node + 1) node
  if isPowerOfTwo node then some 0
  else
    let node ← MaxTree.descendRight q.bucketBiggest q.bucketsInuse (q.bucketsInuse + 1) (node - 1)
    some (node - q.bucketsInuse)

/-- `st_pred`: the block before `a`, or `a` itself when there is none. -/
def stPred (q : HeapControl) (a bucket : ℕ) : Option (ℕ × HeapControl) := do
  let q' :=
    if q.bucketFirst bucket = a then
      { q with bucketBiggest := Function.update q.bucketBiggest 0 1 }
    else q
  let bucket' ← if q.bucketFirst bucket = a then predBucket q' bucket else some bucket
  let (prev, scan) ← predWalk q.mem a q.walkFuel (q.bucketFirst bucket')
  if scan ≠ a then
    some (a, { q' with heapError := some "Unable to find previous for block" })
  else some (prev, q')

/-! ### Allocation -/

/-- The first-fit walk of `st_alloc` inside the bucket. -/
def allocWalk (mem : ℕ → ℤ) (n : ℤ) : ℕ → ℕ → Option ℕ
  | 0, _ => none
  | fuel + 1, scan =>
      if mem scan < n then allocWalk mem n fuel (heapNext scan (mem scan)) else some scan

/-- The split that `st_alloc` and `adjust_right` share: `n` words have been taken from the front
    of a free block of size `cntl`, and what is left of it now starts at `next`. -/
def splitFree (q : HeapControl) (bucket next : ℕ) (cntl n : ℤ) : Option HeapControl :=
  if cntl > n then
    growWhen (q.heapBucket next > bucket) (q.blockSetFree next (cntl - n)) next
      (q.heapBucket next)
  else some q

/-- The tail of `st_alloc`: the free block at `scan` is cut down to `n` words. -/
def allocAt (q : HeapControl) (bucket scan : ℕ) (n : ℤ) : Option HeapControl := do
  let cntl := q.mem scan
  let q ← splitFree (q.blockSetUsed scan n) bucket (heapNext scan n) cntl n
  reduceWhen (cntl = q.leaf bucket) q bucket

/-- `st_alloc`: the payload address, `0` when no block is large enough. -/
def stAlloc (q : HeapControl) (size : ℕ) : Option (ℕ × HeapControl) := do
  let n := byte2word size
  if q.bucketBiggest 1 < n then some (0, q)
  else
    let node ← MaxTree.descendLeft q.bucketBiggest q.bucketsInuse n (q.bucketsInuse + 1) 1
    let bucket := node - q.bucketsInuse
    let scan ← allocWalk q.mem n q.walkFuel (q.bucketFirst bucket)
    let q ← allocAt q bucket scan n
    some (heapNext scan 1, q)

/-! ### Release -/

/-- The part of `st_free` that merges the block at `addr` with a free right neighbour.
    Returns the merged size and the `reduce` flag. -/
def freeRight (q : HeapControl) (addr bucket : ℕ) (cntl : ℤ) :
    Option (HeapControl × ℤ × Bool) :=
  let next := heapNext addr cntl
  if next < q.arenaEnd ∧ blockFree (q.mem next) then do
    let cntl := cntl + q.mem next
    let q := q.blockSetFree addr cntl
    let temp := q.heapBucket next
    let reduce := decide (q.leaf temp = q.mem next)
    if temp > bucket then
      let q ← reduceWhen reduce (q.setFirst temp (heapNext addr cntl)) temp
      some (q, cntl, false)
    else some (q, cntl, reduce)
  else some (q, cntl, false)

/-- The part of `st_free` that merges the block at `addr` with a free left neighbour. -/
def freeLeft (q : HeapControl) (prev addr bucket : ℕ) (cntl : ℤ) (reduce : Bool) :
    Option HeapControl :=
  let temp := q.mem prev
  if blockFree temp then do
    let cntl := cntl + temp
    let q := q.blockSetFree prev cntl
    if q.bucketFirst bucket = addr then
      let q ← reduceWhen reduce (q.setFirst bucket (heapNext prev cntl)) bucket
      stGrown q prev (q.heapBucket prev)
    else stGrown q prev bucket
  else growWhen (cntl > q.leaf bucket) q addr bucket

/-- `st_free`: `0`, or a negative code when `a` is not a live block of that size. -/
def stFree (q : HeapControl) (a size : ℕ) : Option (ℤ × HeapControl) := do
  let addr := a - 1
  let cntl := q.mem addr
  if blockFree cntl then some (-1, q)
  else
    let cntl : ℤ := blockSize cntl
    if cntl ≠ byte2word size then some (-2, q)
    else
      let bucket := q.heapBucket addr
      let (prev, q) ← stPred q addr bucket
      if prev = addr then some (-3, q)
      else
        let q := q.blockSetFree addr cntl
        let (q, cntl, reduce) ← freeRight q addr bucket cntl
        let q ← freeLeft q prev addr bucket cntl reduce
        some (0, q)

/-! ### Reallocation -/

/-- `_ST_BLOCK_COPY (q, d, s, n)`: `memcpy` copies upwards, one word after the other. -/
def blockCopy (q : HeapControl) (d s n : ℕ) : HeapControl :=
  { q with
    mem := (List.range n).foldl (fun mem i => Function.update mem (d + i) (mem (s + i))) q.mem }

/-- The words `st_realloc` can take from the right of the block that ends at `next`. -/
def rightRoom (q : HeapControl) (next : ℕ) : ℤ :=
  if next < q.arenaEnd ∧ blockFree (q.mem next) then q.mem next else 0

/-- The case `delta > 0` of `adjust_right`: the free block of size `cntl` loses its first
    `delta` words, so that the block after the edge starts at `next`. -/
def eatRight (q : HeapControl) (bucket next : ℕ) (cntl delta : ℤ) (nextFirst : Bool) :
    Option HeapControl := do
  let q := if nextFirst then q.setFirst bucket next else q
  let q ← splitFree q bucket next cntl delta
  reduceWhen (q.leaf bucket = cntl) q bucket

/-- The case `delta < 0` of `adjust_right`: `-delta` free words appear at `next`, in front of
    the block with control word `cntl`. -/
def openRight (q : HeapControl) (bucket next nextBucket : ℕ) (cntl delta : ℤ) :
    Option HeapControl := do
  let q := q.blockSetFree next ((if blockFree cntl then cntl else 0) - delta)
  let q := if nextBucket < bucket then q.setFirst bucket (heapNext next (q.mem next)) else q
  let q ← reduceWhen (nextBucket < bucket ∧ q.leaf bucket = cntl) q bucket
  growWhen (q.mem next > q.leaf nextBucket) q next nextBucket

/-- The three cases of `adjust_right`, for the edge at `next` before the move. -/
def moveEdge (q : HeapControl) (next : ℕ) (delta : ℤ) : Option HeapControl :=
  -- the end of the arena counts as an allocated block
  let inside := decide (next < q.arenaEnd)
  let cntl := if inside then q.mem next else -1
  let bucket := if inside then q.heapBucket next else 0
  let nextFirst := inside && decide (q.bucketFirst bucket = next)
  let next := heapMove next delta
  if delta > 0 then eatRight q bucket next cntl delta nextFirst
  else if delta < 0 then openRight q bucket next (q.heapBucket next) cntl delta
  else some q

/-- The label `adjust_right` of `st_realloc`: the right edge of the block at `prev` moves by
    `delta` words from `next`. -/
def adjustRight (q : HeapControl) (prev next : ℕ) (delta : ℤ) (prevReduce : Bool) :
    Option (ℤ × HeapControl) := do
  let q ← moveEdge q next delta
  let q ← reduceWhen prevReduce q (q.heapBucket prev)
  some ((prev + 1 : ℕ), q)

/-- The part of `st_realloc` that moves the block at `addr` down into the free block `prev`
    and then adjusts the right edge. -/
def moveDown (q : HeapControl) (prev addr next : ℕ) (newsize delta : ℤ) :
    Option (ℤ × HeapControl) :=
  let cntl := q.mem prev
  let q := q.blockSetUsed prev newsize
  let bucket := q.heapBucket addr
  let q := if q.bucketFirst bucket = addr then q.setFirst bucket next else q
  let prevReduce := decide (q.leaf (q.heapBucket prev) = cntl)
  let q := blockCopy q (heapNext prev 1) (heapNext addr 1) (blockSize (q.mem addr) - 1)
  adjustRight q prev next (delta - cntl) prevReduce

/-- The naive path of `st_realloc`: a new block, a copy, and the release of the old one. -/
def moveAway (q : HeapControl) (a addr : ℕ) (newsize : ℤ) (oldsize : ℕ) :
    Option (ℤ × HeapControl) := do
  let (prev, q) ← stAlloc q (word2byte newsize)
  if prev = 0 then some (0, q)
  else
    let q := blockCopy q prev (heapNext addr 1) (blockSize (q.mem addr) - 1)
    let (_, q) ← stFree q a oldsize
    some (prev, q)

/-- `st_realloc`: the payload address of the resized block, `0` when there is no room, a
    negative code when `a` is not a live block of size `oldsize`. -/
def stRealloc (q : HeapControl) (a newsize oldsize : ℕ) : Option (ℤ × HeapControl) := do
  let addr := a - 1
  let cntl := q.mem addr
  if blockFree cntl then some (-1, q)
  else
    let cntl : ℤ := blockSize cntl
    let newwords := byte2word newsize
    if cntl ≠ byte2word oldsize then some (-2, q)
    else
      let delta := newwords - cntl
      if delta = 0 then some (a, q)
      else
        let (prev, q) ← stPred q addr (q.heapBucket addr)
        if prev = addr then some (-3, q)
        else
          let next := heapNext addr cntl
          let room := rightRoom q next
          if room ≥ delta then
            adjustRight (q.blockSetUsed addr newwords) addr next delta false
          else if blockFree (q.mem prev) ∧ q.mem prev + room ≥ delta then
            moveDown q prev addr next newwords delta
          else moveAway q a addr newwords oldsize

/-! ### Construction -/

/-- `st_ctor`, over whatever the control arrays and the arena hold beforehand. -/
def stCtor (biggest : ℕ → ℤ) (first : ℕ → ℕ) (mem : ℕ → ℤ) (segs arensize arenabase : ℕ) :
    Option HeapControl := do
  let q : HeapControl :=
    { bucketsInuse := 1
      bucketsMaximum := segs
      wordsPerBucket := (arensize + segs - 1) / segs
      arenaSize := arensize
      bucketBiggest := Function.update biggest 1 arensize
      bucketFirst := Function.update first 0 arenabase
      arenaBase := arenabase
      arenaEnd := arenabase + arensize
      heapError := none
      mem := mem }
  let q := q.blockSetFree arenabase arensize
  let (_, q) ← stAlloc q 0
  some q

end CohKernel.StAlloc
