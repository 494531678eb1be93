import CohKernel.Lib.Runs
import CohKernel.Lib.Chains

namespace CohKernel.Bio

open CohKernel.Lib

/-!
# The buffer cache

The block buffers of `bio.c` with their hash chains and the LRU chain, the raw buffers of `getrbuf`,
and the calls that find, claim, release, flush and invalidate them.  A call that may sleep in the
middle goes on in steps of its process, from one place where it may sleep to the next.  A gate is
free, or held by a process, or by an asynchronous transfer.  A buffer is named by a number, the
buffers of `bufinit` first.
-/

/-! ### Data -/

/-- The numbers of buffers and of hash chains, for which `bufinit` does not panic. -/
structure Tune where
  NBUF : ℕ
  NHASH : ℕ
  nbuf_ge : 32 ≤ NBUF
  nhash_ge : 32 ≤ NHASH

/-- The least numbers. -/
def leastTune : Tune := ⟨32, 32, le_rfl, le_rfl⟩

/-- `NODEV`, as an `o_dev_t`. -/
def NODEV : ℕ := 0xffff

/-- `HASH (dev, bno) % NHASH`; the arithmetic is that of `unsigned`. -/
def HASH (t : Tune) (dev bno : ℕ) : ℕ := (dev * 257 + bno) % 2 ^ 32 % t.NHASH

/-- A gate. -/
inductive Lock (P : Type) where
  | free
  | proc (p : P)
  | io
deriving DecidableEq

/-- `b_iodone`, where it is set. -/
inductive Iodone where
  | sync
  | bflush
deriving DecidableEq

/-- `buf_t`.  The flags are `BFERR`, `BFNTP`, `BFMOD`, `BFASY` and `BFNSY`; `write` says that
    `b_req` is `BWRITE`.  The field `busy` is not of the source: the driver has the buffer. -/
structure Buf (P : Type) where
  dev : ℕ
  bno : ℕ
  hashval : ℕ
  err : Bool
  ntp : Bool
  modified : Bool
  asy : Bool
  nosync : Bool
  write : Bool
  iodone : Option Iodone
  lock : Lock P
  busy : Bool

/-- The selection, the finalization and the mode of `general_sync`. -/
structure Sync where
  sel : Option ℕ
  fin : Bool
  sync : Bool

/-- Where `general_sync` is: it builds its list, it sorts it, it writes the buffers of the list, or
    it waits for the transfers. -/
inductive Phase where
  | build (rest acc : List ℕ)
  | sort (acc : List ℕ)
  | write (rest : List ℕ)
  | syncwait

/-- A search of `bclaim` for an old buffer: the block, the mode, and the buffer at which the scan
    of the LRU chain stopped. -/
structure Search where
  dev : ℕ
  bno : ℕ
  sync : Bool
  cursor : ℕ

/-- Where a process is: it is in none of the calls, it waits for the gate of a buffer that
    `buffer_find` has found, it is in `general_sync`, which `bclaim` may have called, or it waits
    for a buffer to become free. -/
inductive Pc where
  | idle
  | find (dev bno b : ℕ)
  | syncing (g : Sync) (phase : Phase) (back : Option Search)
  | need (dev bno : ℕ) (sync woken : Bool)

/-- The buffers, `hasharray`, the LRU chain from `firstbuf` to `lastbuf`, and the processes.  When
    `stale` is set, the first buffer of the LRU chain still points back at a buffer that has been
    freed. -/
structure State (P : Type) where
  bufs : ℕ → Buf P
  nbufs : ℕ
  alive : ℕ → Bool
  hasharray : ℕ → List ℕ
  lru : List ℕ
  stale : Bool
  bufneed : Bool
  bufsync : ℕ
  pc : P → Pc

variable {P : Type} [DecidableEq P]

/-- Change a buffer. -/
def State.setBuf (s : State P) (b : ℕ) (buf : Buf P) : State P :=
  { s with bufs := Function.update s.bufs b buf }

/-- Change what a process does. -/
def State.setPc (s : State P) (p : P) (pc : Pc) : State P :=
  { s with pc := Function.update s.pc p pc }

/-- The buffer carries the identity. -/
def Buf.carries (buf : Buf P) (dev bno : ℕ) : Bool := decide (buf.bno = bno ∧ buf.dev = dev)

/-! ### Gates -/

/-- `unlock_block`. -/
def State.unlockBlock (s : State P) (b : ℕ) : State P :=
  let s := s.setBuf b { s.bufs b with lock := .free }
  if s.bufneed then
    { s with
      bufneed := false
      pc := fun q =>
        match s.pc q with
        | .need dev bno sync _ => .need dev bno sync true
        | pc => pc }
  else s

/-! ### The chains -/

/-- `HASHinsert`. -/
def State.hashInsert (s : State P) (b : ℕ) : State P :=
  let h := (s.bufs b).hashval
  { s with hasharray := Function.update s.hasharray h (b :: s.hasharray h) }

/-- `HASHdelete`. -/
def State.hashDelete (s : State P) (b : ℕ) : State P :=
  let h := (s.bufs b).hashval
  { s with hasharray := Function.update s.hasharray h ((s.hasharray h).erase b) }

/-- `LRUupdate`. -/
def State.lruUpdate (s : State P) (b : ℕ) : State P :=
  if s.lru.head? = some b then s else { s with lru := b :: s.lru.erase b, stale := false }

/-- `LRUinsert`. -/
def State.lruInsert (s : State P) (b : ℕ) : State P := { s with lru := b :: s.lru, stale := false }

/-- `LRUremove`: the link back of the next buffer stays when the first one is removed. -/
def State.lruRemove (s : State P) (b : ℕ) : State P :=
  { s with
    lru := s.lru.erase b
    stale := if s.lru.head? = some b then true else s.stale }

/-- The buffers before one on the LRU chain, from it on back. -/
def State.lruBack (s : State P) (b : ℕ) : List ℕ := (s.lru.takeWhile fun c => c ≠ b).reverse

/-! ### `general_sync` -/

/-- `bflush_finish` and `buf_invalidate`. -/
def Buf.invalid (buf : Buf P) : Buf P :=
  { buf with
    dev := NODEV, err := false, ntp := true, modified := false, asy := false, nosync := false }

/-- `buffer_write_start`, by a process. -/
def Buf.writeStart (buf : Buf P) (p : P) (sync : Bool) : Buf P :=
  { buf with
    asy := !sync, ntp := true, write := true, busy := true
    lock := if sync then .proc p else .io }

/-- The selection function. -/
def Sync.selects (g : Sync) (buf : Buf P) : Bool :=
  match g.sel with
  | none => true
  | some dev => decide (buf.dev = dev)

/-- The finalization function. -/
def Sync.finish (g : Sync) (buf : Buf P) : Buf P := if g.fin then buf.invalid else buf

/-- The transfer that `general_sync` starts. -/
def Sync.start (g : Sync) (buf : Buf P) (p : P) : Buf P :=
  let iodone := if g.sync then some (if g.fin then Iodone.bflush else Iodone.sync) else buf.iodone
  { buf with iodone := iodone }.writeStart p g.sync

/-- One buffer further in `general_sync`: the state and the phase, which is `none` at the end.  A
    gate that is not free has no step. -/
def State.syncStep (s : State P) (p : P) (g : Sync) : Phase → Option (State P × Option Phase)
  | .build (b :: rest) acc =>
      let buf := s.bufs b
      if buf.lock ≠ .free then none
      else if g.selects buf = false ∨ buf.ntp = true then some (s, some (.build rest acc))
      else if buf.modified = false then some (s.setBuf b (g.finish buf), some (.build rest acc))
      else some (s, some (.build rest (b :: acc)))
  | .build [] acc => some (s, some (.sort acc))
  | .sort acc =>
      some (s, some (.write (acc.mergeSort fun a b => decide ((s.bufs a).bno ≤ (s.bufs b).bno))))
  | .write (b :: rest) =>
      let buf := s.bufs b
      if buf.lock ≠ .free then none
      else if buf.ntp = true ∨ buf.err = true ∨ g.selects buf = false then
        some (s, some (.write rest))
      else if buf.modified = false then some (s.setBuf b (g.finish buf), some (.write rest))
      else
        some ({ s.setBuf b (g.start buf p) with
          bufsync := if g.sync then s.bufsync + 1 else s.bufsync }, some (.write rest))
  | .write [] => some (s, if g.sync then some .syncwait else none)
  | .syncwait => if s.bufsync = 0 then some (s, none) else none

/-- The `general_sync` of `bclaim`, of `bsync`, and of `bflush`. -/
def claimSync : Sync := ⟨none, false, false⟩

def bsyncSync : Sync := ⟨none, false, true⟩

def bflushSync (dev : ℕ) : Sync := ⟨some dev, true, true⟩

/-- The first phase: the static buffers; those of `getrbuf` are not synced. -/
def Tune.buildAll (t : Tune) : Phase := .build (List.range t.NBUF) []

/-! ### `bclaim` -/

/-- The scan of `buffer_find`. -/
def State.lookup (s : State P) (t : Tune) (dev bno : ℕ) : Option ℕ :=
  (s.hasharray (HASH t dev bno)).find? fun b => (s.bufs b).carries dev bno

/-- `bclaim` with a buffer that `buffer_find` has found. -/
def State.hit (s : State P) (p : P) (b : ℕ) (sync : Bool) : State P :=
  let buf := s.bufs b
  (if sync then
    s.setBuf b { buf with
      ntp := buf.ntp || buf.err, err := false, write := true, lock := .proc p }
  else s).lruUpdate b

/-- A buffer that `bclaim` gives an identity. -/
def Buf.claim (buf : Buf P) (t : Tune) (p : P) (dev bno : ℕ) (sync : Bool) : Buf P :=
  { buf with
    dev := dev, bno := bno, hashval := HASH t dev bno
    err := false, ntp := true, modified := false, asy := false, nosync := false, write := true
    iodone := none
    lock := if sync then .proc p else buf.lock }

/-- `bclaim` takes an old buffer. -/
def State.take (s : State P) (t : Tune) (p : P) (b dev bno : ℕ) (sync : Bool) : State P :=
  let s := (s.hashDelete b).lruUpdate b
  (s.setBuf b ((s.bufs b).claim t p dev bno sync)).hashInsert b

/-- The scan of the LRU chain over the buffers `cands`, up to the next sleep or the end of the call.
    It has no step when it goes on to a buffer that has been freed. -/
def State.search (s : State P) (t : Tune) (p : P) (dev bno : ℕ) (sync : Bool) (cands : List ℕ) :
    Option (State P) :=
  match cands.find? fun b => decide ((s.bufs b).lock = .free) with
  | some b =>
      if (s.bufs b).modified then
        some (s.setPc p (.syncing claimSync t.buildAll (some ⟨dev, bno, sync, b⟩)))
      else some ((s.take t p b dev bno sync).setPc p .idle)
  | none =>
      if s.stale then none
      else some { s.setPc p (.need dev bno sync false) with bufneed := true }

/-- `bclaim`, up to its end or its first sleep. -/
def State.bclaim (s : State P) (t : Tune) (p : P) (dev bno : ℕ) (sync : Bool) :
    Option (State P) :=
  match s.lookup t dev bno with
  | some b =>
      if sync = true ∧ (s.bufs b).lock ≠ .free then some (s.setPc p (.find dev bno b))
      else some ((s.hit p b sync).setPc p .idle)
  | none => s.search t p dev bno sync s.lru.reverse

/-- The process goes on where it was asleep. -/
def State.resume (s : State P) (t : Tune) (p : P) : Option (State P) :=
  match s.pc p with
  | .idle => none
  | .find dev bno b =>
      if s.alive b = false ∨ (s.bufs b).lock ≠ .free then none
      else if (s.bufs b).carries dev bno then some ((s.hit p b true).setPc p .idle)
      else s.bclaim t p dev bno true
  | .syncing g phase back =>
      (s.syncStep p g phase).bind fun (s, next) =>
        match next, back with
        | some phase, _ => some (s.setPc p (.syncing g phase back))
        | none, none => some (s.setPc p .idle)
        | none, some k =>
            if s.alive k.cursor = false then none
            else s.search t p k.dev k.bno k.sync (s.lruBack k.cursor)
  | .need dev bno sync woken =>
      if woken then s.search t p dev bno sync s.lru.reverse else none

/-! ### Release -/

/-- `brelease`. -/
def State.brelease (s : State P) (b : ℕ) : State P :=
  let buf := s.bufs b
  (s.setBuf b { buf with
    dev := if buf.err then NODEV else buf.dev, err := false, ntp := false }).unlockBlock b

/-- `brelse`. -/
def State.brelse (s : State P) (b : ℕ) : State P :=
  (s.setBuf b { s.bufs b with ntp := false }).unlockBlock b

/-- `sync_iodone`. -/
def State.syncIodone (s : State P) (b : ℕ) : State P :=
  { s.unlockBlock b with bufsync := s.bufsync - 1 }

/-- `biodone`; `fails` says that the driver has set the error. -/
def State.biodone (s : State P) (b : ℕ) (fails : Bool) : State P :=
  let buf := s.bufs b
  let err := buf.err || fails
  let buf := { buf with
    err := err
    modified := if buf.write then false else buf.modified
    dev := if err then NODEV else buf.dev
    ntp := false, iodone := none, busy := false }
  match (s.bufs b).iodone with
  | some .sync => (s.setBuf b buf).syncIodone b
  | some .bflush => (s.setBuf b buf.invalid).syncIodone b
  | none =>
      if buf.asy then (s.setBuf b { buf with asy := false }).unlockBlock b else s.setBuf b buf

/-! ### Raw buffers -/

/-- `getrbuf`: a new buffer, on the chain of the device and block 0. -/
def State.getrbuf (s : State P) (t : Tune) (p : P) : State P :=
  let b := s.nbufs
  let buf : Buf P :=
    { dev := NODEV, bno := 0, hashval := HASH t 0 0, err := false, ntp := true, modified := false
      asy := false, nosync := true, write := true, iodone := none, lock := .proc p, busy := false }
  { ((s.setBuf b buf).hashInsert b).lruInsert b with
    nbufs := b + 1
    alive := Function.update s.alive b true }

/-- `io_user_req` sets up a raw buffer for a transfer. -/
def State.ioUserReq (s : State P) (b dev bno : ℕ) (read : Bool) : State P :=
  let buf := s.bufs b
  s.setBuf b { buf with
    dev := dev, bno := bno, ntp := true, write := !read
    modified := if read then buf.modified else true
    busy := true }

/-- `io_user_req` is done: `buf_invalidate`, `brelease` and `freerbuf`. -/
def State.freerbuf (s : State P) (b : ℕ) : State P :=
  let s := (s.setBuf b (s.bufs b).invalid).brelease b
  let s := (s.hashDelete b).lruRemove b
  { s with alive := Function.update s.alive b false }

/-! ### Steps -/

/-- What happens: a process makes a call, or does something to a buffer whose gate it holds, or goes
    on where it was asleep; or a transfer ends. -/
inductive Event (P : Type) where
  | bclaim (p : P) (dev bno : ℕ) (sync : Bool)
  | bsync (p : P)
  | bflush (p : P) (dev : ℕ)
  | resume (p : P)
  | lockBlock (p : P) (b dev bno : ℕ)
  | breadStart (p : P) (b : ℕ) (sync : Bool)
  | modify (p : P) (b : ℕ)
  | bwrite (p : P) (b : ℕ) (sync : Bool)
  | brelease (p : P) (b : ℕ)
  | brelse (p : P) (b : ℕ)
  | bufInvalidate (p : P) (b : ℕ)
  | vreadHole (p : P) (b dev : ℕ)
  | getrbuf (p : P)
  | ioUserReq (p : P) (b dev bno : ℕ) (read : Bool)
  | freerbuf (p : P) (b : ℕ)
  | biodone (b : ℕ) (fails : Bool)

/-- The process is in none of the calls. -/
def Pc.isIdle : Pc → Bool
  | .idle => true
  | _ => false

/-- The process holds the gate of the buffer, and the driver does not have it. -/
def State.holds (s : State P) (p : P) (b : ℕ) : Bool :=
  decide ((s.pc p).isIdle = true ∧ s.alive b = true ∧ (s.bufs b).lock = .proc p ∧
    (s.bufs b).busy = false)

/-- One step. -/
def step (t : Tune) (s : State P) : Event P → Option (State P)
  | .bclaim p dev bno sync => if (s.pc p).isIdle then s.bclaim t p dev bno sync else none
  | .bsync p =>
      if (s.pc p).isIdle then some (s.setPc p (.syncing bsyncSync t.buildAll none)) else none
  | .bflush p dev =>
      if (s.pc p).isIdle then some (s.setPc p (.syncing (bflushSync dev) t.buildAll none)) else none
  | .resume p => s.resume t p
  | .lockBlock p b dev bno =>
      if (s.pc p).isIdle = true ∧ s.alive b = true ∧ (s.bufs b).lock = .free ∧
          (s.bufs b).carries dev bno = true then
        some (s.setBuf b { s.bufs b with lock := .proc p })
      else none
  | .breadStart p b sync =>
      if s.holds p b then
        some (s.setBuf b { s.bufs b with
          write := false, busy := true
          asy := if sync then (s.bufs b).asy else true
          lock := if sync then .proc p else .io })
      else none
  | .modify p b => if s.holds p b then some (s.setBuf b { s.bufs b with modified := true }) else
    none
  | .bwrite p b sync =>
      if s.holds p b then some (s.setBuf b ((s.bufs b).writeStart p sync)) else none
  | .brelease p b => if s.holds p b then some (s.brelease b) else none
  | .brelse p b => if s.holds p b then some (s.brelse b) else none
  | .bufInvalidate p b => if s.holds p b then some (s.setBuf b (s.bufs b).invalid) else none
  | .vreadHole p b dev =>
      if s.holds p b = true ∧ (s.bufs b).carries NODEV 0 = true then
        some (s.setBuf b { s.bufs b with dev := dev })
      else none
  | .getrbuf p => if (s.pc p).isIdle then some (s.getrbuf t p) else none
  | .ioUserReq p b dev bno read =>
      if s.holds p b = true ∧ (s.bufs b).nosync = true then some (s.ioUserReq b dev bno read)
      else none
  | .freerbuf p b =>
      if s.holds p b = true ∧ t.NBUF ≤ b then some (s.freerbuf b) else none
  | .biodone b fails =>
      if s.alive b = true ∧ (s.bufs b).busy = true then some (s.biodone b fails) else none

/-- A buffer after `bufinit`, which does not set the block number. -/
def initBuf (t : Tune) (b bno : ℕ) : Buf P where
  dev := NODEV
  bno := bno
  hashval := b % t.NHASH
  err := false
  ntp := false
  modified := false
  asy := false
  nosync := false
  write := false
  iodone := none
  lock := .free
  busy := false

/-- The state after `bufinit`. -/
def Initial (t : Tune) (s : State P) : Prop :=
  s.nbufs = t.NBUF ∧ (∀ b, s.alive b = decide (b < t.NBUF)) ∧
  (∀ b < t.NBUF, ∃ bno, s.bufs b = initBuf t b bno) ∧
  (∀ h, s.hasharray h = ((List.range t.NBUF).filter fun b => b % t.NHASH = h).reverse) ∧
  s.lru = List.range t.NBUF ∧ s.stale = false ∧ s.bufneed = false ∧ s.bufsync = 0 ∧
  ∀ p, s.pc p = .idle

end CohKernel.Bio
