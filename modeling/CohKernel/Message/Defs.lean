import Mathlib.Tactic

namespace CohKernel.Message

/-!
# The bytes of a message

A STREAMS message is a chain of blocks.  Here are the functions that trim one, pull its bytes up
into one block and copy it: `adjmsg`, `msgpullup`, `pullupmsg`, `dupmsg`, `copyb` and `copymsg`.
-/

/-! ### Messages -/

/-- A message block: what a message function reads of it, of its data block and of its buffer.
    `data` is what lies between `b_rptr` and `b_wptr`. -/
structure Mblk where
  dbType : UInt8
  dbBase : UInt32
  bBand : UInt8
  bFlag : UInt16
  bRptr : UInt32
  data : List UInt8
deriving DecidableEq

namespace Mblk

/-- `b_wptr - b_rptr` -/
def size (b : Mblk) : ℕ := b.data.length

/-- `b_rptr += n` -/
def advance (b : Mblk) (n : ℕ) : Mblk :=
  { b with bRptr := b.bRptr + UInt32.ofNat n, data := b.data.drop n }

/-- `b_rptr = b_wptr` -/
def finish (b : Mblk) : Mblk := b.advance b.size

/-- `b_wptr = b_rptr = b_datap->db_base` -/
def clear (b : Mblk) : Mblk := { b with bRptr := b.dbBase, data := [] }

/-- `b_wptr -= n` -/
def shorten (b : Mblk) (n : ℕ) : Mblk := { b with data := b.data.take (b.size - n) }

end Mblk

/-- The number of bytes in a chain of blocks. -/
def total (bs : List Mblk) : ℕ := (bs.map Mblk.size).sum

/-- The blocks of one type at the head of a chain. -/
def leadRun (msgtype : UInt8) (bs : List Mblk) : List Mblk := bs.takeWhile fun b => b.dbType =
    msgtype

/-- The bytes in a chain of blocks. -/
def bytes (bs : List Mblk) : List UInt8 := bs.flatMap Mblk.data

/-- A message: a chain of blocks, whose bytes can be counted in an `int`. -/
structure Msg where
  blocks : List Mblk
  ne : blocks ≠ []
  fits : total blocks < 2 ^ 31

/-- What stops the kernel: a null pointer is followed. -/
inductive Halt where
  | null
deriving DecidableEq

/-! ### Trimming -/

/-- `adjmsg` for a length that is not negative: the loop that removes bytes from the head of a
    message. -/
def adjHead (msgtype : UInt8) : List Mblk → ℕ → List Mblk × Bool
  | [], _ => ([], false)
  | mp :: rest, len =>
      if len = 0 then (mp :: rest, true)
      else if len ≤ mp.size then (mp.advance len :: rest, true)
      else
        match rest with
        | [] => ([mp.finish], false)
        | next :: more =>
            if next.dbType ≠ msgtype then (mp.clear :: next :: more, false)
            else
              let adjusted := adjHead msgtype (next :: more) (len - mp.size)
              (mp.clear :: adjusted.1, adjusted.2)

/-- The scan for the last span of blocks of one type: where it starts, and its size.  `pos` is the
    place of the first block of the list. -/
def lastSpan (msgtype : UInt8) (span : ℕ) (size : ℤ) : ℕ → List Mblk → ℕ × ℤ
  | _, [] => (span, size)
  | _, [mp] => (span, size + mp.size)
  | pos, mp :: next :: rest =>
      if next.dbType ≠ msgtype then lastSpan next.dbType (pos + 1) 0 (pos + 1) (next :: rest)
      else lastSpan msgtype span (size + mp.size) (pos + 1) (next :: rest)

/-- The loop that removes bytes from the span, with the blocks that it comes to.  It goes on by
    `b_next`, as in the source. -/
def trimSpan : List Mblk → ℤ → ℤ → Except Halt (List Mblk)
  | spans, size, len =>
      if size ≤ 0 then .ok spans
      else
        match spans with
        | [] => .error .null
        | span :: rest => do
            let size := size - span.size
            if size < len then
              return span.shorten (len - size).toNat :: (← trimSpan rest size size)
            else return span :: (← trimSpan rest size len)

/-- What `adjmsg` leaves: the blocks of the message, those of other messages, and its value. -/
structure Adjusted where
  blocks : List Mblk
  next : ℕ → List Mblk
  val : Bool

/-- `adjmsg`.  `next` has the blocks of other messages to which `b_next` leads from each block. -/
def adjmsg (m : Msg) (next : ℕ → List Mblk) (len : ℤ) : Except Halt Adjusted :=
  let msgtype := (m.blocks.head m.ne).dbType
  if 0 ≤ len then
    let adjusted := adjHead msgtype m.blocks len.toNat
    .ok ⟨adjusted.1, next, adjusted.2⟩
  else
    let span := lastSpan msgtype 0 0 0 m.blocks
    let result := decide (len ≤ span.2)
    let len := if span.2 < len then span.2 else len
    do
      let trimmed ← trimSpan (m.blocks[span.1]?.toList ++ next span.1) span.2 len
      return ⟨m.blocks.take span.1 ++ trimmed.take 1 ++ m.blocks.drop (span.1 + 1),
        Function.update next span.1 (trimmed.drop 1), result⟩

/-! ### Allocation -/

/-- What is left in the memory of a message block, which `dupb` does not store. -/
structure Junk where
  bBand : UInt8
  bFlag : UInt16

/-- The allocations of a call, in order: the address of the buffer and what is left in the memory,
    if there is memory. -/
abbrev Memory := ℕ → Option (UInt32 × Junk)

/-- The type of data messages. -/
def M_DATA : UInt8 := 0

/-- The flag of a block that is part of a triple. -/
def MSGTRIPLE : UInt16 := 0x0100

/-- The flags that are private to the system. -/
def MSGMASK_SYSTEM : UInt16 := 0x0300

/-- A block as `MSGB_ALLOC` makes it. -/
def Mblk.fresh (base : UInt32) : Mblk :=
  { dbType := M_DATA, dbBase := base, bBand := 0, bFlag := MSGTRIPLE, bRptr := base, data := [] }

/-- `MSGB_ALLOC` -/
def msgbAlloc (mem : Memory) (n : ℕ) : Option Mblk := (mem n).map fun got => .fresh got.1

/-- `dupb` -/
def dupb (mem : Memory) (n : ℕ) (bp : Mblk) : Option Mblk :=
  (mem n).map fun got => { bp with bBand := got.2.bBand, bFlag := got.2.bFlag }

/-- Blocks are made for those of a message, each with the next allocation; there is no message if
    one of them fails. -/
def makeBlocks (make : ℕ → Mblk → Option Mblk) : ℕ → List Mblk → Option (List Mblk)
  | _, [] => some []
  | n, mp :: rest => do return (← make n mp) :: (← makeBlocks make (n + 1) rest)

/-- `dupmsg` -/
def dupmsg (mem : Memory) (n : ℕ) (bs : List Mblk) : Option (List Mblk) :=
    makeBlocks (dupb mem) n bs

/-! ### Pulling up -/

/-- What `msgpullup` makes: the blocks of the new message, and whether it has written beyond the
    block that it allocated. -/
structure Pulled where
  blocks : List Mblk
  overrun : Bool
deriving DecidableEq

/-- The copy loop of `msgpullup`, with what has been copied: the contents of the new block, and the
    blocks that have been duplicated. -/
def pullLoop (mem : Memory) : List Mblk → List UInt8 → UInt32 → Option (List UInt8 × List Mblk)
  | [], copied, _ => some (copied, [])
  | mp :: rest, copied, len =>
      let blklen := UInt32.ofNat mp.size
      let len := len - blklen
      if len < blklen then (dupmsg mem 1 (mp :: rest)).map fun cont => (copied ++ mp.data, cont)
      else pullLoop mem rest (copied ++ mp.data) len

/-- `msgpullup`; `len` is the bit pattern of an `int`, which is compared as an unsigned number. -/
def msgpullup (m : Msg) (len : UInt32) (mem : Memory) : Option Pulled :=
  let mp := m.blocks.head m.ne
  if len = 0 then (dupmsg mem 0 m.blocks).map fun dup => ⟨dup, false⟩
  else
    let size := UInt32.ofNat (total (leadRun mp.dbType m.blocks))
    if len ≠ -1 ∧ size < len then none
    else
      let len := if len = -1 then size else len
      do
        let scan ← msgbAlloc mem 0
        let (copied, cont) ← pullLoop mem m.blocks [] len
        let scan :=
          { scan with bBand := mp.bBand, bFlag := scan.bFlag ||| (mp.bFlag &&& ~~~MSGMASK_SYSTEM)
                      data := copied }
        return ⟨scan :: cont, decide (len.toNat < copied.length)⟩

/-- The signed value of a bit pattern. -/
def toInt (len : UInt32) : ℤ := len.toBitVec.toInt

/-- The test of `pullupmsg`: there is nothing to do. -/
def pulledUp (m : Msg) (len : UInt32) : Bool :=
  let mp := m.blocks.head m.ne
  (decide (toInt len < mp.size) || (decide (len = -1) && m.blocks.tail.isEmpty)) &&
    decide (mp.bRptr &&& 3 = 0)

/-- `pullupmsg`, with the blocks of the message after it, where it does not fail. -/
def pullupmsg (m : Msg) (len : UInt32) (mem : Memory) : Option Pulled :=
  if pulledUp m len then some ⟨m.blocks, false⟩
  else do
    let newmsg ← msgpullup m len mem
    let mp := m.blocks.head m.ne
    match newmsg.blocks with
    | [] => none
    | new :: cont =>
        return ⟨{ new with bBand := mp.bBand, bFlag := mp.bFlag } :: cont, newmsg.overrun⟩

/-! ### Copying -/

/-- `copymsg`: all blocks are allocated before the first one is filled. -/
def copymsg (m : Msg) (mem : Memory) : Option (List Mblk) :=
  (makeBlocks (fun n _ => msgbAlloc mem n) 0 m.blocks).map fun new =>
    List.zipWith (fun blk old => { blk with data := old.data }) new m.blocks

end CohKernel.Message
