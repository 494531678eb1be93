import Mathlib.Data.UInt
import CohKernel.Lib.Deque

namespace CohKernel.Strm

open CohKernel.Lib

/-!
# STREAMS queues

A queue of messages with its priority bands and its flow control: `putq`, `putbq`, `insq`, `getq`,
`rmvq`, `flushq`, `flushband`, the tests `canput` and `bcanput`, and the changes of the watermarks
by `QBAND_SETOPT` and `strqset`.  Each is one call; the calls that freeze the queue do so for their
whole length.  Bands are linked structures, as they are without `_VECTOR_BANDS`.  What
`QUEUE_BACKENAB` does to other queues is not part of a queue: a call says whether it ends in one.
-/

/-! ### Data -/

/-- What stops the kernel: a null pointer is followed, a frozen queue is frozen again, or a loop
    does not end. -/
inductive Halt where
  | null
  | deadlock
  | endless
deriving DecidableEq

/-- The first type of a high-priority message. -/
def QPCTL : UInt8 := 0x80

/-- The last of the data types. -/
def M_DELAY : UInt8 := 2

/-- What a queue reads of a message: the type of its data, its band, and the bytes in each of its
    blocks. -/
structure Msgb where
  dbType : UInt8
  bBand : UInt8
  blocks : List UInt32
deriving DecidableEq

/-- Test whether a message is a high-priority message. -/
def pcmsg (type : UInt8) : Bool := decide (QPCTL ≤ type)

/-- Test whether a message is a data message. -/
def datamsg (type : UInt8) : Bool := decide (type &&& 0x7f ≤ M_DELAY)

/-- `MSG_SIZE` -/
def msgSize (mp : Msgb) : UInt32 := mp.blocks.sum

/-- A band, without `QB_FIRST`. -/
structure Qband (μ : Type) where
  qbNext : Option ℕ
  qbCount : UInt32
  qbFirst : Option μ
  qbLast : Option μ
  qbHiwat : UInt32
  qbLowat : UInt32
  qbFull : Bool
  qbWantw : Bool

/-- A band as `kmem_zalloc` makes it. -/
def Qband.zero (μ : Type) (next : Option ℕ) : Qband μ :=
  { qbNext := next, qbCount := 0, qbFirst := none, qbLast := none, qbHiwat := 0, qbLowat := 0
    qbFull := false, qbWantw := false }

/-- A queue: `b_next` and `b_prev` of the messages with `q_first` and `q_last`, the messages,
    whether there is a service procedure, the flags one by one, the bands that have been allocated
    so far and their number, and `q_locked`. -/
structure Queue (μ : Type) where
  link : Deque μ
  msg : μ → Msgb
  qiSrvp : Bool
  qCount : UInt32
  qHiwat : UInt32
  qLowat : UInt32
  qMinpsz : UInt32
  qMaxpsz : UInt32
  qenab : Bool
  qwantr : Bool
  qwantw : Bool
  qfull : Bool
  qnoenb : Bool
  qback : Bool
  qprocsoff : Bool
  qdrain : Bool
  qLastband : UInt8
  qBandp : Option ℕ
  qNband : UInt8
  band : ℕ → Qband μ
  bands : ℕ
  qLocked : Bool

/-- What a call leaves: the queue, the value of the functions that return 1 or 0, and whether the
    call goes on to `QUEUE_BACKENAB`. -/
structure Ret (μ : Type) where
  q : Queue μ
  val : Bool
  back : Bool

namespace Queue

variable {μ : Type}

/-- `q_first` -/
def qFirst (q : Queue μ) : Option μ := q.link.next none

/-- `q_last` -/
def qLast (q : Queue μ) : Option μ := q.link.prev none

/-- `IS_PRI_MSG` -/
def isPri (q : Queue μ) (mp : μ) : Bool := pcmsg (q.msg mp).dbType

/-- Store `q_locked`. -/
def setLocked (q : Queue μ) (locked : Bool) : Queue μ := { q with qLocked := locked }

/-- `QFREEZE_TRACE`, on one processor. -/
def freeze (q : Queue μ) : Except Halt (Queue μ) :=
  if q.qLocked then .error .deadlock else .ok (q.setLocked true)

/-- `QUNFREEZE_TRACE` -/
def unfreeze (q : Queue μ) : Queue μ := q.setLocked false

/-- Store the links of the messages. -/
def setLink (q : Queue μ) (link : Deque μ) : Queue μ := { q with link := link }

/-- The end of the calls that test `QBACK` before they unfreeze the queue. -/
def release (q : Queue μ) (val : Bool) : Ret μ := ⟨{ q with qback := false }.unfreeze, val, q.qback⟩

/-- Change a band. -/
def setBand (q : Queue μ) (b : ℕ) (f : Qband μ → Qband μ) : Queue μ :=
  { q with band := Function.update q.band b (f (q.band b)) }

/-! ### Bands -/

/-- `QUEUE_BAND`: the number of turns is that of an unsigned character. -/
def queueBand (q : Queue μ) (pri : UInt8) : Option ℕ :=
  (fun b : Option ℕ => b.bind fun b => (q.band b).qbNext)^[(pri - 1).toNat] q.qBandp

/-- The search of `QBAND_PREV`. -/
def scanPrev (q : Queue μ) (b : ℕ) : ℕ → Option ℕ → Except Halt (Option ℕ)
  | _, none => .error .null
  | 0, some _ => .error .endless
  | fuel + 1, some scan =>
      if (q.band scan).qbNext = some b then .ok (some scan) else q.scanPrev b fuel
        (q.band scan).qbNext

/-- `QBAND_PREV` -/
def qbandPrev (q : Queue μ) (b : ℕ) : Except Halt (Option ℕ) :=
  if q.qBandp = some b then .ok none else q.scanPrev b q.bands q.qBandp

/-- `QBAND_ALLOC`: the new bands are linked to each other and to the last of the old ones.  `alloc`
    tells whether `kmem_zalloc` has memory; it has none of size 0. -/
def qbandAlloc (q : Queue μ) (pri : UInt8) (alloc : Bool) : Except Halt (Queue μ × Option ℕ) :=
  let n := pri.toNat - q.qNband.toNat
  if !alloc || n == 0 then .ok (q, none)
  else do
    let newband := q.bands
    let fresh := { q with
      band := fun b =>
        if newband ≤ b ∧ b < newband + n then
          Qband.zero μ (if b + 1 < newband + n then some (b + 1) else none)
        else q.band b
      bands := newband + n }
    if q.qNband = 0 then .ok (fresh, some (newband + n - 1))
    else
      match q.queueBand q.qNband with
      | none => .error .null
      | some b =>
        .ok (fresh.setBand b fun x => { x with qbNext := some newband }, some (newband + n - 1))

/-- `QUEUE_BAND`, and `QBAND_ALLOC` where there is no such band. -/
def getBand (q : Queue μ) (pri : UInt8) (alloc : Bool) : Except Halt (Queue μ × Option ℕ) :=
  match q.queueBand pri with
  | some b => .ok (q, some b)
  | none => q.qbandAlloc pri alloc

/-! ### Flow control -/

/-- The loop of `QBAND_INCREASE`: a band and those below it are marked full. -/
def markDown : ℕ → Queue μ → ℕ → Except Halt (Queue μ)
  | 0, _, _ => .error .endless
  | fuel + 1, q, b => do
      let q := q.setBand b fun x => { x with qbFull := true }
      match ← q.qbandPrev b with
      | none => .ok q
      | some b' => markDown fuel q b'

/-- `QBAND_INCREASE` -/
def qbandIncrease (q : Queue μ) (b : ℕ) (adjust : UInt32) : Except Halt (Queue μ) :=
  let q := q.setBand b fun x => { x with qbCount := x.qbCount + adjust }
  if (q.band b).qbFull then .ok q
  else if (q.band b).qbHiwat ≤ (q.band b).qbCount then do
    let q ← markDown (q.bands + 1) q b
    .ok (if q.qHiwat ≤ q.qCount then { q with qfull := true } else q)
  else .ok q

/-- `QFULL` is cleared, and whoever waits for it is back-enabled. -/
def clearFull (q : Queue μ) : Queue μ :=
  { q with qfull := false, qwantw := false, qback := q.qback || q.qwantw }

/-- The loop of `QBAND_REDUCE`: a band and those below it are released. -/
def releaseDown : ℕ → Queue μ → ℕ → Except Halt (Queue μ)
  | 0, _, _ => .error .endless
  | fuel + 1, q, b => do
      let wantw := (q.band b).qbWantw
      let q := { q.setBand b fun x => { x with qbFull := false, qbWantw := false } with
        qback := q.qback || wantw }
      match ← q.qbandPrev b with
      | none => .ok (if q.qCount ≤ q.qLowat then q.clearFull else q)
      | some b' =>
          if (q.band b').qbCount ≤ (q.band b').qbLowat then releaseDown fuel q b' else .ok q

/-- `QBAND_REDUCE` -/
def qbandReduce (q : Queue μ) (b : ℕ) (adjust : UInt32) : Except Halt (Queue μ) :=
  let q := q.setBand b fun x => { x with qbCount := x.qbCount - adjust }
  if !(q.band b).qbFull then .ok q
  else if (q.band b).qbCount ≤ (q.band b).qbLowat ∧
      ((q.band b).qbNext.all fun next => !(q.band next).qbFull) then releaseDown (q.bands + 1) q b
  else .ok q

/-- `QUEUE_REDUCE` -/
def queueReduce (q : Queue μ) (adjust : UInt32) : Queue μ :=
  let q := { q with qCount := q.qCount - adjust }
  if q.qfull ∧ q.qCount ≤ q.qLowat then q.clearFull else q

/-- `QUEUE_TRYSCHED`, with whether the queue is scheduled. -/
def queueTrysched (q : Queue μ) : Queue μ × Bool :=
  if !q.qiSrvp || q.qprocsoff then (q, false) else ({ q with qenab := true }, true)

/-- The first part of `QUEUE_CHECK_SCHED`. -/
def checkSched (q : Queue μ) (band : UInt8) : Queue μ :=
  if !q.qnoenb ∧ (q.qwantr ∨ q.qLastband < band) then { q with qLastband := band }.queueTrysched.1
  else q

/-- The flow control of `QUEUE_CHECK_SCHED` for a message of band 0. -/
def queueIncrease (q : Queue μ) (adjust : UInt32) : Queue μ :=
  let q := { q with qCount := q.qCount + adjust }
  if q.qHiwat < q.qCount then { q with qfull := true } else q

/-- `QUEUE_CHECK_SCHED`, with whether the message is of a band. -/
def queueCheckSched (q : Queue μ) (mp : μ) (b : Option ℕ) : Except Halt (Queue μ × Bool) :=
  let band := (q.msg mp).bBand
  let q := q.checkSched band
  if 0 < band then
    match b with
    | none => .error .null
    | some b => do .ok (← q.qbandIncrease b (msgSize (q.msg mp)), true)
  else .ok (q.queueIncrease (msgSize (q.msg mp)), false)

/-- `QUEUE_DRAINED`, without those who wait. -/
def queueDrained (q : Queue μ) : Queue μ := { q with qdrain := false }

/-- `QBAND_CANPUT` -/
def qbandCanput (q : Queue μ) (pri : UInt8) : Queue μ × Bool :=
  if 0 < pri then
    match q.queueBand pri with
    | none => (q, true)
    | some b =>
        if (q.band b).qbFull then
          ({ q.setBand b fun x => { x with qbWantw := true } with qwantw := true }, false)
        else (q, true)
  else if q.qfull then ({ q with qwantw := true }, false)
  else (q, true)

/-! ### Linking messages -/

section Links

variable [DecidableEq μ]

/-- `QBAND_DEQUEUE` -/
def qbandDequeue (q : Queue μ) (b : ℕ) (mp : μ) : Queue μ :=
  if (q.band b).qbFirst = some mp then
    if (q.band b).qbLast = some mp then
      q.setBand b fun x => { x with qbFirst := none, qbLast := none }
    else q.setBand b fun x => { x with qbFirst := q.link.next (some mp) }
  else if (q.band b).qbLast = some mp then
    q.setBand b fun x => { x with qbLast := q.link.prev (some mp) }
  else q

variable [Fintype μ]

/-- The messages on the queue. -/
def chain (q : Queue μ) : List μ :=
  walk (fun mp => q.link.next (some mp)) (Fintype.card μ) q.qFirst

/-- A message is linked in before another one. -/
def linkBefore (q : Queue μ) (mp : μ) (scan : Option μ) : Queue μ :=
  q.setLink (q.link.insert (q.link.prev scan) mp scan)

/-- Where `QUEUE_PLACE_MSG` ends its search. -/
def findPlace (q : Queue μ) (band : UInt8) : Option μ :=
  q.link.skip (fun m => decide (band < (q.msg m).bBand)) (Fintype.card μ)
    (q.link.skip q.isPri (Fintype.card μ) q.qFirst)

/-- `QUEUE_PLACE_MSG` -/
def queuePlaceMsg (q : Queue μ) (mp : μ) (band : UInt8) : Queue μ := q.linkBefore mp
    (q.findPlace band)

/-- The band of a message is stored. -/
def setMsgBand (q : Queue μ) (mp : μ) (band : UInt8) : Queue μ :=
  { q with msg := Function.update q.msg mp { q.msg mp with bBand := band } }

/-- The band of an ordinary message; there is none for band 0. -/
def bandOf (q : Queue μ) (mp : μ) (alloc : Bool) : Except Halt (Queue μ × Option ℕ) :=
  if 0 < (q.msg mp).bBand then q.getBand (q.msg mp).bBand alloc else .ok (q, none)

/-- The band that is needed has not been allocated. -/
def lacksBand (q : Queue μ) (mp : μ) (b : Option ℕ) : Bool :=
    decide (0 < (q.msg mp).bBand) && b.isNone

/-- `putq` and `putbq` link in a message of a band: in front of the band, or where `QUEUE_PLACE_MSG`
    puts it in an empty one. -/
def linkBand (q : Queue μ) (mp : μ) (b : ℕ) (place : UInt8) : Queue μ :=
  match (q.band b).qbFirst with
  | some first => (q.linkBefore mp (some first)).setBand b fun x => { x with qbFirst := some mp }
  | none =>
      (q.setBand b fun x => { x with qbFirst := some mp, qbLast := some mp }).queuePlaceMsg mp place

/-- The part of `putq` and `putbq` for an ordinary message; `place` is the band for
    `QUEUE_PLACE_MSG`, and `base` links in a message of band 0.  Where a band cannot be allocated
    the queue stays frozen, as in the source. -/
def putOrdinary (q : Queue μ) (mp : μ) (alloc : Bool) (place : UInt8)
    (base : Queue μ → Queue μ) : Except Halt (Ret μ) := do
  let got ← q.bandOf mp alloc
  if got.1.lacksBand mp got.2 then .ok ⟨got.1, false, false⟩
  else do
    let checked ← got.1.queueCheckSched mp got.2
    match checked.2, got.2 with
    | true, some b => .ok ⟨(checked.1.linkBand mp b place).unfreeze, true, false⟩
    | _, _ => .ok ⟨(base checked.1).unfreeze, true, false⟩

/-- `putq` -/
def putq (q : Queue μ) (mp : μ) (alloc : Bool) : Except Halt (Ret μ) := do
  let q ← q.freeze
  if q.isPri mp then
    .ok ⟨((q.setMsgBand mp 0).queueTrysched.1.queuePlaceMsg mp (0 - 1)).unfreeze, true, false⟩
  else q.putOrdinary mp alloc ((q.msg mp).bBand - 1) fun q => q.linkBefore mp none

/-- `putbq` -/
def putbq (q : Queue μ) (mp : μ) (alloc : Bool) : Except Halt (Ret μ) := do
  let q ← q.freeze
  if q.isPri mp then
    .ok ⟨((q.linkBefore mp q.qFirst).setMsgBand mp 0).queueTrysched.1.unfreeze, true, false⟩
  else
    q.putOrdinary mp alloc (q.msg mp).bBand fun q => q.queuePlaceMsg mp (q.msg mp).bBand

/-- `insq` keeps the pointers of the band. -/
def insBand (q : Queue μ) (emp : Option μ) (nmp : μ) (b : ℕ) : Queue μ :=
  let q := if (q.band b).qbFirst = emp then q.setBand b fun x =>
      { x with qbFirst := some nmp } else q
  if (q.band b).qbLast.all fun last => decide (q.link.next (some last) = emp) then
    q.setBand b fun x => { x with qbLast := some nmp }
  else q

/-- `insq` would break the order of the bands: the message before which it inserts goes before a
    message of that band. -/
def tooLate (q : Queue μ) (emp : Option μ) (band : UInt8) : Bool :=
  emp.any fun emp => decide (band < (q.msg emp).bBand) || q.isPri emp

/-- The message after which `insq` inserts goes behind a message of that band. -/
def tooEarly (q : Queue μ) (prev : Option μ) (band : UInt8) : Bool :=
  prev.any fun prev => decide ((q.msg prev).bBand < band)

/-- The part of `insq` for an ordinary message.  The pointers of a message that is refused have been
    stored. -/
def insOrdinary (q : Queue μ) (emp : Option μ) (nmp : μ) (b : Option ℕ) : Except Halt (Ret μ) :=
  let band := (q.msg nmp).bBand
  if q.tooLate emp band then
    .ok ⟨q.setLink (q.link.set (q.link.prev (some nmp)) nmp emp), false, false⟩
  else if q.tooEarly (q.link.prev emp) band then
    .ok ⟨q.setLink (q.link.set (q.link.prev emp) nmp emp), false, false⟩
  else do
    let checked ← (q.linkBefore nmp emp).queueCheckSched nmp b
    match checked.2, b with
    | true, some b => .ok ⟨checked.1.insBand emp nmp b, true, false⟩
    | _, _ => .ok ⟨checked.1, true, false⟩

/-- The part of `insq` for a high-priority message. -/
def insPri (q : Queue μ) (emp : Option μ) (nmp : μ) : Ret μ :=
  if (q.link.prev emp).all q.isPri then ⟨(q.linkBefore nmp emp).queueTrysched.1, true, false⟩
  else ⟨q.setLink (q.link.set (q.link.prev emp) nmp emp), false, false⟩

/-- `insq`, with the queue frozen by the caller. -/
def insq (q : Queue μ) (emp : Option μ) (nmp : μ) (alloc : Bool) : Except Halt (Ret μ) :=
  if q.isPri nmp then .ok ((q.setMsgBand nmp 0).insPri emp nmp)
  else do
    let got ← q.bandOf nmp alloc
    if got.1.lacksBand nmp got.2 then .ok ⟨got.1, false, false⟩
    else got.1.insOrdinary emp nmp got.2

/-- The flow control of a message that has been taken off the queue, in `getq` and `rmvq`. -/
def takeOff (q : Queue μ) (mp : μ) : Except Halt (Queue μ) :=
  if q.isPri mp then .ok q
  else if 0 < (q.msg mp).bBand then
    match q.queueBand (q.msg mp).bBand with
    | none => .error .null
    | some b => (q.qbandDequeue b mp).qbandReduce b (msgSize (q.msg mp))
  else .ok (q.queueReduce (msgSize (q.msg mp)))

/-- A message after `prev` is unlinked; at the front of the queue its band is recorded. -/
def unlink (q : Queue μ) (prev : Option μ) (mp : μ) : Queue μ :=
  let next := q.link.next (some mp)
  let q := q.setLink (q.link.join prev next)
  let q := if prev.isNone && next.isNone then q.queueDrained else q
  if prev.isNone then { q with qLastband := (q.msg mp).bBand } else q

/-- `getq`, which returns `q_first`. -/
def getq (q : Queue μ) : Except Halt (Ret μ) := do
  let q ← q.freeze
  match q.qFirst with
  | none => .ok ({ q with qwantr := true }.release false)
  | some mp => do .ok ((← (q.unlink none mp).takeOff mp).release true)

/-- `rmvq`, with the queue frozen by the caller. -/
def rmvq (q : Queue μ) (mp : μ) : Except Halt (Ret μ) := do
  .ok ⟨← (q.unlink (q.link.prev (some mp)) mp).takeOff mp, true, false⟩

/-! ### Flushing -/

/-- The loop of `flushq`, with the size of the messages that it has freed. -/
def flushLoop (all : Bool) : ℕ → Queue μ → Option μ → UInt32 → Queue μ × UInt32
  | 0, q, _, size => (q, size)
  | _ + 1, q, none, size => (q, size)
  | fuel + 1, q, some mp, size =>
      let next := q.link.next (some mp)
      if (q.msg mp).bBand = 0 ∧ (all || datamsg (q.msg mp).dbType) then
        flushLoop all fuel (q.setLink (q.link.remove mp)) next
          (if q.isPri mp then size else size + msgSize (q.msg mp))
      else flushLoop all fuel q next size

/-- `flushq`; `all` is `FLUSHALL`. -/
def flushq (q : Queue μ) (all : Bool) : Except Halt (Ret μ) := do
  let q ← q.freeze
  let flushed := flushLoop all (Fintype.card μ) q q.qFirst 0
  .ok ((flushed.1.queueReduce flushed.2).release true)

/-- The loop of `flushband`. -/
def flushBandLoop (all : Bool) (b : ℕ) :
    ℕ → Queue μ → Option μ → UInt32 → Except Halt (Queue μ × UInt32)
  | _, _, none, _ => .error .null
  | 0, _, some _, _ => .error .endless
  | fuel + 1, q, some mp, size =>
      let next := q.link.next (some mp)
      let freed := if all || datamsg (q.msg mp).dbType then
          ((q.setLink (q.link.remove mp)).qbandDequeue b mp, size + msgSize (q.msg mp))
        else (q, size)
      if next = (freed.1.band b).qbLast then .ok freed
      else flushBandLoop all b fuel freed.1 next freed.2

/-- `flushband` -/
def flushband (q : Queue μ) (pri : UInt8) (all : Bool) : Except Halt (Ret μ) :=
  if pri = 0 then q.flushq all
  else do
    let q ← q.freeze
    match q.queueBand pri with
    | none => .ok (q.release true)
    | some b =>
        match (q.band b).qbFirst with
        | none => .ok (q.release true)
        | some mp => do
            let flushed ← flushBandLoop all b (Fintype.card μ) q (some mp) 0
            .ok ((← flushed.1.qbandReduce b flushed.2).release true)

end Links

/-! ### Watermarks -/

/-- The watermarks of a band are set. -/
def setBandMarks (q : Queue μ) (b : ℕ) (lowat hiwat : Option UInt32) : Except Halt (Queue μ) := do
  let q ← lowat.elim (.ok q) fun lowat =>
    (q.setBand b fun x => { x with qbLowat := lowat }).qbandReduce b 0
  hiwat.elim (.ok q) fun hiwat =>
    (q.setBand b fun x => { x with qbHiwat := hiwat }).qbandIncrease b 0

/-- The watermarks of the queue are set. -/
def setMarks (q : Queue μ) (lowat hiwat : Option UInt32) : Queue μ :=
  let q := lowat.elim q fun lowat => { q with qLowat := lowat }.queueReduce 0
  hiwat.elim q fun hiwat =>
    if hiwat < q.qCount then { q with qHiwat := hiwat, qfull := true } else
      { q with qHiwat := hiwat }

/-- `QBAND_SETOPT`, with the options that are set.  Without a watermark the queue stays frozen, as
    in the source. -/
def qbandSetopt (q : Queue μ) (lowat hiwat : Option UInt32) (band : Option UInt8) (alloc : Bool) :
    Except Halt (Ret μ) := do
  let q ← q.freeze
  if lowat.isNone && hiwat.isNone then .ok ⟨q, true, false⟩
  else
    match band.filter (0 < ·) with
    | none => .ok ((q.setMarks lowat hiwat).release true)
    | some band => do
        let got ← q.getBand band alloc
        match got.2 with
        | none => .ok ⟨got.1.unfreeze, true, false⟩
        | some b => do .ok ((← got.1.setBandMarks b lowat hiwat).release true)

/-- The fields that `strqset` sets. -/
inductive Qfields where
  | QHIWAT
  | QLOWAT
  | QMAXPSZ
  | QMINPSZ
deriving DecidableEq

/-- `strqset`, with the queue frozen by the caller; the branches for the queue and for a band are as
    they stand in the source. -/
def strqset (q : Queue μ) (what : Qfields) (pri : UInt8) (val : UInt32) (alloc : Bool) :
    Except Halt (Ret μ) :=
  if 0 < pri then
    match what with
    | .QHIWAT => .ok ⟨{ q with qHiwat := val }, true, false⟩
    | .QLOWAT => .ok ⟨{ q with qLowat := val }, true, false⟩
    | .QMAXPSZ => .ok ⟨{ q with qMaxpsz := val }, true, false⟩
    | .QMINPSZ => .ok ⟨{ q with qMinpsz := val }, true, false⟩
  else do
    let got ← q.getBand pri alloc
    match got.2, what with
    | none, _ => .ok ⟨got.1, false, false⟩
    | some b, .QHIWAT => .ok ⟨got.1.setBand b fun x => { x with qbHiwat := val }, true, false⟩
    | some b, .QLOWAT => .ok ⟨got.1.setBand b fun x => { x with qbLowat := val }, true, false⟩
    | some _, _ => .ok ⟨got.1, false, false⟩

/-! ### Calls -/

/-- `canput` -/
def canput (q : Queue μ) : Except Halt (Ret μ) := do
  let q ← q.freeze
  if q.qfull then .ok ⟨{ q with qwantw := true }.unfreeze, false, false⟩
  else .ok ⟨q.unfreeze, true, false⟩

/-- `bcanput` -/
def bcanput (q : Queue μ) (pri : UInt8) : Except Halt (Ret μ) := do
  let q ← q.freeze
  .ok ⟨(q.qbandCanput pri).1.unfreeze, (q.qbandCanput pri).2, false⟩

/-- `freezestr` -/
def freezestr (q : Queue μ) : Except Halt (Ret μ) := do .ok ⟨← q.freeze, true, false⟩

/-- `unfreezestr` -/
def unfreezestr (q : Queue μ) : Ret μ := q.release true

end Queue

/-- The calls on a queue; a message that is to be queued comes with what is in it.  `qunfreeze` is
    the `QUNFREEZE_TRACE` of the stream head, which reads its queue with `rmvq`. -/
inductive Event (μ : Type) where
  | freezestr
  | unfreezestr
  | qunfreeze
  | putq (mp : μ) (m : Msgb) (alloc : Bool)
  | putbq (mp : μ) (m : Msgb) (alloc : Bool)
  | insq (emp : Option μ) (nmp : μ) (m : Msgb) (alloc : Bool)
  | getq
  | rmvq (mp : μ)
  | flushq (all : Bool)
  | flushband (pri : UInt8) (all : Bool)
  | canput
  | bcanput (pri : UInt8)
  | setopt (lowat hiwat : Option UInt32) (band : Option UInt8) (alloc : Bool)
  | strqset (what : Queue.Qfields) (pri : UInt8) (val : UInt32) (alloc : Bool)

namespace Queue

variable {μ : Type} [DecidableEq μ] [Fintype μ]

/-- The caller has filled a message. -/
def fill (q : Queue μ) (mp : μ) (m : Msgb) : Queue μ :=
  { q with msg := Function.update q.msg mp m }

/-- A call. -/
def exec (q : Queue μ) : Event μ → Except Halt (Ret μ)
  | .freezestr => q.freezestr
  | .unfreezestr => .ok q.unfreezestr
  | .qunfreeze => .ok ⟨q.unfreeze, true, false⟩
  | .putq mp m alloc => (q.fill mp m).putq mp alloc
  | .putbq mp m alloc => (q.fill mp m).putbq mp alloc
  | .insq emp nmp m alloc => (q.fill nmp m).insq emp nmp alloc
  | .getq => q.getq
  | .rmvq mp => q.rmvq mp
  | .flushq all => q.flushq all
  | .flushband pri all => q.flushband pri all
  | .canput => q.canput
  | .bcanput pri => q.bcanput pri
  | .setopt lowat hiwat band alloc => q.qbandSetopt lowat hiwat band alloc
  | .strqset what pri val alloc => q.strqset what pri val alloc

/-- What the callers see to: the calls that freeze the queue are not made with the queue frozen by
    the caller, and the others are; a message to queue is not on the queue, and the message before
    which another one is to be inserted, or which is to be removed, is. -/
def allowed (q : Queue μ) (held : Bool) : Event μ → Bool
  | .unfreezestr | .qunfreeze | .strqset _ _ _ _ => held
  | .putq mp _ _ | .putbq mp _ _ => !held && decide (mp ∉ q.chain)
  | .insq emp nmp _ _ => held && decide (nmp ∉ q.chain) && emp.all fun emp => decide (emp ∈ q.chain)
  | .rmvq mp => held && decide (mp ∈ q.chain)
  | _ => !held

end Queue

/-- The caller has the queue frozen after a call. -/
def Event.holds {μ : Type} (held : Bool) : Event μ → Bool
  | .freezestr => true
  | .unfreezestr | .qunfreeze => false
  | _ => held

end CohKernel.Strm
