import CohKernel.Strmem.Defs

namespace CohKernel.Strwrite

open CohKernel.Strmem

/-!
# Writing to a stream

`STREAMS_WRITE`, which spreads the bytes of a `write` over messages, and `SHEAD_MAKEMSG`, which
makes the message of a `putmsg`.  An `int` is an integer, and the sum of two is taken as an `int`
again.
-/

/-! ### Data -/

/-- The value of an `int`, or a `long`, that is computed. -/
def toInt (x : ℤ) : ℤ := (x + 2 ^ 31) % 2 ^ 32 - 2 ^ 31

/-- The limits of the queue that `TOP_QUEUE` finds, which are `long`. -/
structure Queue where
  qMinpsz : ℤ
  qMaxpsz : ℤ
  min_long : -2 ^ 31 ≤ qMinpsz ∧ qMinpsz < 2 ^ 31
  max_long : -2 ^ 31 ≤ qMaxpsz ∧ qMaxpsz < 2 ^ 31

/-- What these functions read of a stream head: the read options, whether `SNDZERO` is one of the
    write options, the write offset, and whether it is linked. -/
structure Shead where
  shReadopt : ℤ
  sndzero : Bool
  shWroff : ℕ
  shLinked : Bool
  readopt_short : -2 ^ 15 ≤ shReadopt ∧ shReadopt < 2 ^ 15
  wroff_ushort : shWroff < 2 ^ 16

/-- The limits of the system: the sizes of the parts of a message, and the watermark of `BPRI_LO`,
    for a heap of at most the size that can be configured. -/
structure Limits where
  smMaxctlsize : ℤ
  smMaxdatasize : ℤ
  smMax : UInt32
  max_le : smMax ≤ 131072

/-- `M_DATA`, `M_PROTO` and `M_PCPROTO` -/
inductive MsgType where
  | M_DATA
  | M_PROTO
  | M_PCPROTO
deriving DecidableEq

/-- A message block: the space in front of `b_rptr`, `b_wptr - b_rptr`, and the bytes that have been
    copied to `b_rptr`. -/
structure Mblk where
  dbType : MsgType
  bBand : UInt8
  front : ℤ
  size : ℤ
  data : List UInt8

/-- `EBADF` -/
def EBADF : ℕ := 9

/-- `EFAULT` -/
def EFAULT : ℕ := 14

/-- `EINVAL` -/
def EINVAL : ℕ := 22

/-- `ERANGE` -/
def ERANGE : ℕ := 34

/-- `ENOSR` -/
def ENOSR : ℕ := 63

/-- `MSGB_ALLOC` for `BPRI_LO` and `KM_SLEEP` returns `NULL`: the block is larger than can ever be
    allocated.  The size is converted to a `size_t`. -/
def Limits.refuses (m : Limits) (size : ℤ) : Bool := m.smMax < msgbSize (UInt32.ofInt size)

/-- `SHEAD_WRITEOFFSET`, which reads `sh_readopt`. -/
def Shead.writeoffset (sh : Shead) : ℤ := sh.shReadopt

/-! ### `STREAMS_WRITE` -/

/-- A `write`: whether `uio_fmode` has `FWRITE`, and the bytes, of which there are `uio_resid`. -/
structure WriteReq where
  fwrite : Bool
  bytes : List UInt8
  resid_int : bytes.length < 2 ^ 31

/-- What becomes of one turn of the loop: what `SHEAD_WRITE_TEST` returns, and whether the bytes can
    be copied. -/
structure Turn where
  test : ℕ
  copied : Bool

/-- A `write` under way: the messages that have been queued, and the bytes that are left. -/
structure Writing where
  queued : List Mblk
  rest : List UInt8

/-- A `write` that has ended. -/
structure Written where
  retval : ℕ
  queued : List Mblk
  rest : List UInt8

/-- It ends. -/
def Writing.stop (st : Writing) (retval : ℕ) : Written := ⟨retval, st.queued, st.rest⟩

/-- An error is not reported when some of the bytes have been written. -/
def Written.report (w : Written) (writecount : ℕ) : Written :=
  if w.retval ≠ 0 ∧ w.rest.length ≠ writecount then { w with retval := 0 } else w

@[simp] theorem Written.report_queued (w : Written) (n : ℕ) : (w.report n).queued = w.queued := by
  unfold Written.report
  split_ifs <;> rfl

@[simp] theorem Written.report_rest (w : Written) (n : ℕ) : (w.report n).rest = w.rest := by
  unfold Written.report
  split_ifs <;> rfl

/-- The size of the next message. -/
def messageSize (q : Queue) (resid : ℕ) (wroff : ℤ) : Except ℕ ℤ :=
  if toInt (resid + wroff) > q.qMaxpsz then
    if q.qMinpsz > 0 then .error ERANGE
    else .ok (toInt (q.qMaxpsz - wroff))
  else if toInt (resid + wroff) < q.qMinpsz then .error ERANGE
  else .ok resid

/-- `uiomove`, from a single `iovec` that has all the bytes; it is not called for more. -/
def uiomove (rest : List UInt8) (nbytes : ℤ) (copied : Bool) : Option (List UInt8 × List UInt8) :=
  if copied ∧ nbytes ≤ rest.length then some (rest.take nbytes.toNat, rest.drop nbytes.toNat)
  else none

/-- A message of a size is made and queued. -/
def Writing.turn (st : Writing) (m : Limits) (wroff size : ℤ) (t : Turn) : Except ℕ Writing :=
  if t.test ≠ 0 then .error t.test
  else if m.refuses (size + wroff) then .error ENOSR
  else if size > 0 then
    match uiomove st.rest size t.copied with
    | none => .error EFAULT
    | some (data, rest) => .ok ⟨st.queued ++ [⟨.M_DATA, 0, wroff, size, data⟩], rest⟩
  else .ok ⟨st.queued ++ [⟨.M_DATA, 0, wroff, size, []⟩], st.rest⟩

/-- The loop of `STREAMS_WRITE`; it may still be going. -/
def writeLoop (q : Queue) (m : Limits) (wroff : ℤ) (turns : ℕ → Turn) : ℕ → Writing → Option Written
  | 0, _ => none
  | fuel + 1, st =>
      match messageSize q st.rest.length wroff with
      | .error retval => some (st.stop retval)
      | .ok size =>
          match st.turn m wroff size (turns st.queued.length) with
          | .error retval => some (st.stop retval)
          | .ok st' =>
              if st'.rest.length > 0 then writeLoop q m wroff turns fuel st' else some (st'.stop 0)

/-- `STREAMS_WRITE`: `lock` is what `SHEAD_SLEEP_LOCK` returns. -/
def streamsWrite (sh : Shead) (q : Queue) (m : Limits) (r : WriteReq) (lock : ℕ) (turns : ℕ → Turn)
    (fuel : ℕ) : Option Written :=
  let start : Writing := ⟨[], r.bytes⟩
  if ¬ r.fwrite then some (start.stop EBADF)
  else if sh.shLinked then some (start.stop EINVAL)
  else if r.bytes.length = 0 ∧ ¬ sh.sndzero then some (start.stop 0)
  else if lock ≠ 0 then some (start.stop lock)
  else
    (writeLoop q m sh.writeoffset turns fuel start).map fun w => w.report r.bytes.length

/-! ### `SHEAD_MAKEMSG` -/

/-- `MSG_HIPRI` -/
def MSG_HIPRI : ℤ := 1

/-- `MSG_BAND` -/
def MSG_BAND : ℤ := 4

/-- A `struct strbuf` with the bytes at `buf`. -/
structure Strbuf where
  len : ℤ
  buf : List UInt8
  len_int : -2 ^ 31 ≤ len ∧ len < 2 ^ 31
  length_eq : buf.length = len.toNat

/-- A `putmsg`: whether the mode has `FWRITE`, and the parts of the message. -/
structure PutReq where
  fwrite : Bool
  ctlbuf : Option Strbuf
  databuf : Option Strbuf
  flags : ℤ
  band : ℤ

/-- The size of a part. -/
def partSize (b : Option Strbuf) : ℤ := b.elim (-1) Strbuf.len

/-- The bytes of a part. -/
def partBytes (b : Option Strbuf) : List UInt8 := b.elim [] Strbuf.buf

/-- What becomes of a `putmsg`: what `SHEAD_WRITE_TEST` returns, and whether the parts can be
    copied. -/
structure PutTurn where
  test : ℕ
  ctlCopied : Bool
  dataCopied : Bool

/-- The checks of `SHEAD_MAKEMSG`: the value to return if there is no message to make. -/
def PutReq.check (r : PutReq) (sh : Shead) (q : Queue) (m : Limits) : Except ℕ Unit :=
  let ctlsize := partSize r.ctlbuf
  let datasize := partSize r.databuf
  let wroff := sh.writeoffset
  if r.flags ≠ MSG_BAND ∧ r.flags ≠ MSG_HIPRI then .error EINVAL
  else if ¬ r.fwrite then .error EBADF
  else if sh.shLinked then .error EINVAL
  else if ctlsize > m.smMaxctlsize ∨ toInt (datasize + wroff) > m.smMaxdatasize ∨
      toInt (datasize + wroff) < q.qMinpsz ∨ toInt (datasize + wroff) > q.qMaxpsz then .error ERANGE
  else if r.flags = MSG_HIPRI then
    if ctlsize < 0 ∨ r.band ≠ 0 then .error EINVAL else .ok ()
  else if datasize < 0 ∧ ctlsize < 0 then .error 0
  else .ok ()

/-- The control part, which has room for 64 bytes. -/
def PutReq.ctl (r : PutReq) (m : Limits) (copied : Bool) : Except ℕ (List Mblk) :=
  let ctlsize := partSize r.ctlbuf
  if ctlsize ≥ 0 then
    if m.refuses (max 64 ctlsize) then .error ENOSR
    else if ctlsize > 0 ∧ ¬ copied then .error EFAULT
    else
      .ok [⟨if r.flags = MSG_HIPRI then .M_PCPROTO else .M_PROTO, UInt8.ofInt r.band, 0, ctlsize,
        partBytes r.ctlbuf⟩]
  else .ok []

/-- The data part, behind the write offset. -/
def PutReq.data (r : PutReq) (m : Limits) (wroff : ℤ) (copied : Bool) : Except ℕ (List Mblk) :=
  let datasize := partSize r.databuf
  if datasize ≥ 0 then
    if m.refuses (datasize + wroff) then .error ENOSR
    else if datasize > 0 ∧ ¬ copied then .error EFAULT
    else .ok [⟨.M_DATA, UInt8.ofInt r.band, wroff, datasize, partBytes r.databuf⟩]
  else .ok []

/-- `SHEAD_MAKEMSG`: the blocks of the message, or the value to return. -/
def sheadMakemsg (sh : Shead) (q : Queue) (m : Limits) (r : PutReq) (t : PutTurn) :
    Except ℕ (List Mblk) := do
  r.check sh q m
  if t.test ≠ 0 then throw t.test
  let ctlmsg ← r.ctl m t.ctlCopied
  let datamsg ← r.data m sh.writeoffset t.dataCopied
  return ctlmsg ++ datamsg

end CohKernel.Strwrite
