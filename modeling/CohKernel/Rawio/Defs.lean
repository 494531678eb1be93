import CohKernel.Lib.Bytes

namespace CohKernel.Rawio

open CohKernel.Lib

/-!
# Raw transfers

`physiock` and `io_user_req` of `bio.c`: a request of a process is moved in chunks between its
memory and the blocks of a device, through the buffer of the caller when there is one, and through
the buffer cache when a chunk would be shorter than a block.
-/

/-! ### Requests -/

/-- The bytes of a block. -/
def NBPSCTR : ℕ := 512

/-- The bytes of a page. -/
def NBPC : ℕ := 4096

/-- `blockn` and `blocko`: the number of a block, and the offset in it. -/
def blockn (n : ℕ) : ℕ := n / NBPSCTR
def blocko (n : ℕ) : ℕ := n % NBPSCTR

def EIO : ℤ := 5
def ENXIO : ℤ := 6
def EAGAIN : ℤ := 11

/-- A request as `physiock` gets it: the direction, the offset, the count and the address of the
    user's buffer, the number of blocks of the device, and `b_bufsiz` of the buffer that is given,
    if one is. The offsets are values of `off_t`, and the addresses of `caddr_t`. -/
structure Request where
  write : Bool
  seek : ℕ
  count : ℕ
  vbase : ℕ
  nblocks : ℕ
  given : Option ℕ
  seek_le : seek + count ≤ 2 ^ 31
  vbase_le : vbase + count ≤ 2 ^ 32
  nblocks_lt : nblocks < 2 ^ 31

/-! ### The device -/

/-- How far the strategy routine gets with a transfer: the blocks, and the error. -/
structure Reply where
  blocks : ℕ
  err : Bool
  errno : ℤ

/-- The bytes of a transfer of `count` bytes that are moved, `b_count - b_resid`. -/
def Reply.done (r : Reply) (count : ℕ) : ℕ := min (r.blocks * NBPSCTR) count

/-- `BFERR`, or `b_count == b_resid`. -/
def Reply.failed (r : Reply) (count : ℕ) : Prop := r.err = true ∨ r.done count = 0

instance (r : Reply) (count : ℕ) : Decidable (r.failed count) := inferInstanceAs (Decidable (_ ∨ _))

/-- What a call finds: whether the device has a driver, whether there is a raw buffer header,
    whether the user's buffer is in a data segment, the blocks that are in the buffer cache, as they
    are on the device, the old contents of the buffers of the cache, and the strategy routine: its
    reply to the transfer of some bytes from or to a block. -/
structure Env where
  drvmap : Bool
  getrbuf : Bool
  iomapvp : Bool
  cached : ℕ → Bool
  stale : Bytes
  strat : Bool → ℕ → ℕ → Reply

/-- Move `n` bytes. -/
def move (dst : Bytes) (d : ℕ) (src : Bytes) (s n : ℕ) : Bytes :=
  fun k => if d ≤ k ∧ k < d + n then src (s + (k - d)) else dst k

/-! ### The state -/

/-- `IO` -/
structure Io where
  vbase : ℕ
  ioc : ℕ
  seek : ℕ

/-- `ioread` and `iowrite` count what they have moved. -/
def Io.advance (io : Io) (n : ℕ) : Io := { io with vbase := io.vbase + n, ioc := io.ioc - n }

/-- The request as far as it is done, the memory of the user, the bytes of the device, and the
    buffer that is given. -/
structure State where
  io : Io
  mem : Bytes
  disk : Bytes
  vaddr : Bytes

/-- `io_seek += n` -/
def State.seekBy (st : State) (n : ℕ) : State :=
    { st with io := { st.io with seek := st.io.seek + n } }

/-- `ioread`: from the user into a buffer. -/
def ioread (st : State) (v : Bytes) (n : ℕ) : Bytes × State :=
  (move v 0 st.mem st.io.vbase n, { st with io := st.io.advance n })

/-- `iowrite`: from a buffer to the user. -/
def iowrite (st : State) (v : Bytes) (n : ℕ) : State :=
  { st with mem := move st.mem st.io.vbase v 0 n, io := st.io.advance n }

/-- The end of a call: the value that it returns, `none` for that of `tmp_err` when nothing has set
    it, and `u_error`. -/
structure Result where
  ret : Option ℤ
  uError : Option ℤ
  st : State

/-- The end of a turn of the loop. -/
inductive Turn where
  | next (st : State)
  | stop (res : Result)

/-! ### One turn -/

/-- The length of a chunk. -/
def chunk (given : Option ℕ) (io : Io) : ℕ :=
  match given with
  | none =>
      -- up to the end of the page, not more than is left, and whole blocks
      let amount := NBPC - io.vbase % NBPC
      let amount := if amount > io.ioc then io.ioc else amount
      if amount > NBPSCTR then amount - amount % NBPSCTR else amount
  | some bufsiz => if bufsiz < io.ioc then bufsiz else io.ioc

/-- `raw_buf_read`: a buffer of the cache with a block of the device. -/
def rawBufRead (e : Env) (disk : Bytes) (bno : ℕ) : Except ℤ Bytes :=
  if e.cached bno = true then .ok (move e.stale 0 disk (bno * NBPSCTR) NBPSCTR)
  else
    let r := e.strat false bno NBPSCTR
    if r.failed NBPSCTR then .error r.errno
    else .ok (move e.stale 0 disk (bno * NBPSCTR) (r.done NBPSCTR))

/-- A chunk that goes through the buffer cache. -/
def cacheTurn (e : Env) (write : Bool) (st : State) (amount : ℕ) : Turn :=
  let amount := if st.io.ioc ≥ NBPSCTR then NBPSCTR else amount
  let bno := blockn st.io.seek
  match if write = false ∨ amount < NBPSCTR then rawBufRead e st.disk bno else .ok e.stale with
  | .error errno => .stop ⟨some errno, some errno, st⟩
  | .ok v =>
      if write = false then .next ((iowrite st v amount).seekBy amount)
      else
        let (v, st) := ioread st v amount
        let r := e.strat true bno NBPSCTR
        let st := { st with disk := move st.disk (bno * NBPSCTR) v 0 (r.done NBPSCTR) }
        if r.failed NBPSCTR then .stop ⟨some r.errno, some r.errno, st⟩
        else .next (st.seekBy amount)

/-- A chunk between the device and the user's memory. -/
def directTurn (e : Env) (write : Bool) (st : State) (amount : ℕ) : Turn :=
  let bno := blockn st.io.seek
  let r := e.strat write bno amount
  let result := r.done amount
  let st :=
    if write = true then { st with disk := move st.disk (bno * NBPSCTR) st.mem st.io.vbase result }
    else { st with mem := move st.mem st.io.vbase st.disk (bno * NBPSCTR) result }
  if r.failed amount then .stop ⟨some r.errno, some r.errno, st⟩
  else .next ({ st with io := st.io.advance result }.seekBy result)

/-- A chunk that goes through the buffer that is given. -/
def givenTurn (e : Env) (write : Bool) (st : State) (amount : ℕ) : Turn :=
  let bno := blockn st.io.seek
  let r := e.strat write bno amount
  let result := r.done amount
  let st :=
    if write = true then
      let (v, st) := ioread st st.vaddr amount
      { st with vaddr := v, disk := move st.disk (bno * NBPSCTR) v 0 result }
    else
      let v := move st.vaddr 0 st.disk (bno * NBPSCTR) result
      iowrite { st with vaddr := v } v result
  if r.failed amount then .stop ⟨some r.errno, some r.errno, st⟩
  else .next (st.seekBy result)

/-- A turn of the loop of `io_user_req`. -/
def turn (e : Env) (write : Bool) (given : Option ℕ) (st : State) : Turn :=
  if blocko st.io.seek ≠ 0 then .stop ⟨some EIO, some EIO, st⟩
  else if given = none ∧ e.iomapvp = false then .stop ⟨none, some EIO, st⟩
  else
    let amount := chunk given st.io
    if amount < NBPSCTR then cacheTurn e write st amount
    else
      match given with
      | none => directTurn e write st amount
      | some _ => givenTurn e write st amount

/-! ### The call -/

/-- The loop, with a bound for its turns. -/
def loop (e : Env) (write : Bool) (given : Option ℕ) : ℕ → State → Option Result
  | 0, st => if st.io.ioc = 0 then some ⟨none, none, st⟩ else none
  | left + 1, st =>
      if st.io.ioc = 0 then some ⟨none, none, st⟩
      else
        match turn e write given st with
        | .next st => loop e write given left st
        | .stop res => some res

/-- What a call comes to: it refuses the request, it takes it for the end of the device, it
    transfers it, or its loop does not end. -/
inductive Outcome where
  | refused (errno : ℤ)
  | eof
  | transferred (res : Result)
  | endless

/-- `io_user_req` -/
def ioUserReq (e : Env) (write : Bool) (given : Option ℕ) (st : State) : Outcome :=
  if e.drvmap = false then .refused ENXIO
  else if blocko st.io.seek ≠ 0 ∨ given.getD 0 % NBPSCTR ≠ 0 then .refused EIO
  else if given = none ∧ e.getrbuf = false then .refused EAGAIN
  else
    match loop e write given st.io.ioc st with
    | none => .endless
    | some res => .transferred res

/-- `physiock`.  The comparisons are those of `unsigned long`. -/
def physiock (e : Env) (r : Request) (mem disk vaddr : Bytes) : Outcome :=
  let last := (r.nblocks + (2 ^ 32 - 1)) % 2 ^ 32
  if blocko (r.seek + r.count) > last then .refused ENXIO
  else if blocko (r.seek + r.count) = last then if r.write = false then .eof else .refused ENXIO
  else ioUserReq e r.write r.given ⟨⟨r.vbase, r.count, r.seek⟩, mem, disk, vaddr⟩

end CohKernel.Rawio
