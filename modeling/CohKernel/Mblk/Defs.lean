import CohKernel.Lib.Runs

namespace CohKernel.Mblk

open CohKernel.Lib

/-!
# Message blocks

Message blocks of STREAMS: `MSGB_ALLOC`, `esballoc`, `dupb`, `dupmsg`, `copyb`, `msgpullup`,
`pullupmsg`, `freeb` and `freemsg`.  A message block, a data block and a buffer are one piece of the
message heap, a triple; `dupb` allocates message blocks that stand alone.

What the functions do to the blocks is made of a few steps (`Event`); a function is the list of the
steps that it makes (`trace`).  The contents of the buffers are not modelled.
-/

/-- `sizeof (mblk_t)` -/
def SIZEOF_MBLK : ℕ := 32

/-- `sizeof (dblk_t)` -/
def SIZEOF_DBLK : ℕ := 20

/-- The data block of the triple that starts at an address. -/
def mbToDb (mp : ℕ) : ℕ := mp + SIZEOF_MBLK

/-- The message block of the triple of a data block. -/
def dbToMb (db : ℕ) : ℕ := db - SIZEOF_MBLK

/-- The buffer of the triple of a data block. -/
def dbToData (db : ℕ) : ℕ := db + SIZEOF_DBLK

/-- The size of a triple. -/
def msgbSize (n : ℕ) : ℕ := n + SIZEOF_MBLK + SIZEOF_DBLK

/-- Message block is part of triple. -/
def MSGTRIPLE : BitVec 16 := 0x0100

/-- Message block is free. -/
def MSGFREE : BitVec 16 := 0x0200

/-- The system's flags. -/
def MSGMASK_SYSTEM : BitVec 16 := 0x0300

/-- The type of a new data block. -/
def M_DATA : ℕ := 0

/-- A message block. -/
structure Msgb where
  bCont : Option ℕ
  bRptr : ℕ
  bWptr : ℕ
  bDatap : ℕ
  bFlag : BitVec 16

/-- A data block.  A free routine stands for its argument as well. -/
structure Datab where
  dbFrtnp : Option ℕ
  dbBase : ℕ
  dbLim : ℕ
  dbRef : ℕ
  dbType : ℕ

/-- The blocks, and the pieces of the heap that are allocated, with their sizes.  The last fields
    are not of the source: the message blocks that have been obtained and not been freed, the free
    routines of the external buffers, those that have been called, and the number of pieces that
    were returned otherwise than they were allocated. -/
structure State where
  heap : List (ℕ × ℕ)
  msgb : ℕ → Msgb
  datab : ℕ → Datab
  live : List ℕ
  given : List ℕ
  calls : List ℕ
  complaints : ℕ

/-- The message block is part of a triple. -/
def Msgb.IsTriple (m : Msgb) : Prop := m.bFlag &&& MSGTRIPLE ≠ 0

instance (m : Msgb) : Decidable m.IsTriple := inferInstanceAs (Decidable (_ ≠ _))

/-- The message block of the triple is free. -/
def Msgb.IsFree (m : Msgb) : Prop := m.bFlag &&& MSGFREE ≠ 0

instance (m : Msgb) : Decidable m.IsFree := inferInstanceAs (Decidable (_ ≠ _))

/-- The buffer of the data block is not in its triple. -/
def State.External (s : State) (db : ℕ) : Prop := (s.datab db).dbBase ≠ dbToData db

instance (s : State) (db : ℕ) : Decidable (s.External db) := inferInstanceAs (Decidable (_ ≠ _))

/-- Where the heap has room. -/
def State.Room (s : State) (p size : ℕ) : Prop := ∀ b ∈ s.heap, p + size ≤ b.1 ∨ b.1 + b.2 ≤ p

instance (s : State) (p size : ℕ) : Decidable (s.Room p size) :=
  inferInstanceAs (Decidable (∀ b ∈ s.heap, _))

/-- `STRMEM_FREE` -/
def State.strmemFree (s : State) (bp size : ℕ) : State :=
  if (bp, size) ∈ s.heap then { s with heap := s.heap.erase (bp, size) }
  else { s with complaints := s.complaints + 1 }

/-- A new triple, and its message block. -/
def State.newTriple (s : State) (p rptr size : ℕ) (frtnp : Option ℕ) (d : Datab) : State :=
  { s with
    heap := (p, msgbSize size) :: s.heap
    msgb := Function.update s.msgb p ⟨none, rptr, rptr, mbToDb p, MSGTRIPLE⟩
    datab := Function.update s.datab (mbToDb p) d
    live := p :: s.live
    given := frtnp.toList ++ s.given }

/-- `MSGB_ALLOC`, when the heap has room at `p`. -/
def State.msgbAlloc (s : State) (size p : ℕ) : State :=
  let data := dbToData (mbToDb p)
  s.newTriple p data size none ⟨none, data, data + size, 1, M_DATA⟩

/-- `esballoc`, when the heap has room at `p`. -/
def State.esballoc (s : State) (base size : ℕ) (frRtnp : Option ℕ) (p : ℕ) : State :=
  s.newTriple p base 0 frRtnp ⟨frRtnp, base, base + size, 1, M_DATA⟩

/-- `dupb`, when the heap has room at `p`.  `b_flag` is not set: it is what the memory holds. -/
def State.dupb (s : State) (bp p : ℕ) (flag : BitVec 16) : State :=
  let b := s.msgb bp
  let d := s.datab b.bDatap
  { s with
    heap := (p, SIZEOF_MBLK) :: s.heap
    msgb := Function.update s.msgb p ⟨none, b.bRptr, b.bWptr, b.bDatap, flag⟩
    datab := Function.update s.datab b.bDatap { d with dbRef := (d.dbRef + 1) % 2 ^ 8 }
    live := p :: s.live }

/-- The end of `freeb`: the triple of `bp`, with the data block that is to be freed. -/
def State.freeTriple (s : State) (bp datap : ℕ) : State :=
  let d := s.datab datap
  if s.External datap then
    let s := s.strmemFree bp (msgbSize 0)
    { s with calls := d.dbFrtnp.toList ++ s.calls }
  else s.strmemFree bp (msgbSize (d.dbLim - d.dbBase))

/-- `-- datap->db_ref`, for a block that is not live any more. -/
def State.drop (s : State) (bp : ℕ) : State :=
  let datap := (s.msgb bp).bDatap
  let d := s.datab datap
  { s with
    datab := Function.update s.datab datap { d with dbRef := (d.dbRef + (2 ^ 8 - 1)) % 2 ^ 8 }
    live := s.live.erase bp }

/-- Set `MSGFREE`. -/
def State.setFree (s : State) (bp : ℕ) : State :=
  let b := s.msgb bp
  { s with msgb := Function.update s.msgb bp { b with bFlag := b.bFlag ||| MSGFREE } }

/-- `freeb` -/
def State.freeb (s : State) (bp : ℕ) : State :=
  let datap := (s.msgb bp).bDatap
  let s := s.drop bp
  if (s.datab datap).dbRef > 0 then
    if ¬(s.msgb bp).IsTriple then s.strmemFree bp SIZEOF_MBLK
    else if (s.datab (mbToDb bp)).dbRef > 0 then s.setFree bp
    else s.freeTriple bp (mbToDb bp)
  else if ¬(s.msgb bp).IsTriple then
    let s := s.strmemFree bp SIZEOF_MBLK
    let bp := dbToMb datap
    if ¬(s.msgb bp).IsFree then s else s.freeTriple bp datap
  else s.freeTriple bp datap

/-- What the holder of a message block writes to it, and to the type of its data block. -/
def State.edit (s : State) (bp rptr wptr : ℕ) (cont : Option ℕ) (flag : BitVec 16) (type : ℕ) :
    State :=
  let b := s.msgb bp
  { s with
    msgb := Function.update s.msgb bp
      ⟨cont, rptr, wptr, b.bDatap, b.bFlag &&& MSGMASK_SYSTEM ||| flag &&& ~~~MSGMASK_SYSTEM⟩
    datab := Function.update s.datab b.bDatap { s.datab b.bDatap with dbType := type } }

/-- What `pullupmsg` does to the old and the new message block. -/
def State.exchange (s : State) (mp newmsg : ℕ) : State :=
  let m := s.msgb mp
  let n := s.msgb newmsg
  { s with
    msgb := Function.update (Function.update s.msgb newmsg { n with bDatap := m.bDatap
                                                                    bCont := m.bCont })
      mp { m with bDatap := n.bDatap, bCont := n.bCont, bRptr := n.bRptr, bWptr := n.bWptr } }

/-- The steps.  An allocation has the address that the heap gives. -/
inductive Event where
  | msgbAlloc (size p : ℕ)
  | esballoc (base size : ℕ) (frRtnp : Option ℕ) (p : ℕ)
  | dupb (bp p : ℕ) (flag : BitVec 16)
  | freeb (bp : ℕ)
  | edit (bp rptr wptr : ℕ) (cont : Option ℕ) (flag : BitVec 16) (type : ℕ)
  | exchange (mp newmsg : ℕ)

/-- One step.  Memory that is allocated is free, and only blocks that have been obtained and not
    been freed are used. -/
def step (s : State) : Event → Option State
  | .msgbAlloc size p => if s.Room p (msgbSize size) then some (s.msgbAlloc size p) else none
  | .esballoc base size frRtnp p =>
      if s.Room p (msgbSize 0) then some (s.esballoc base size frRtnp p) else none
  | .dupb bp p flag =>
      if bp ∈ s.live ∧ s.Room p SIZEOF_MBLK then some (s.dupb bp p flag) else none
  | .freeb bp => if bp ∈ s.live then some (s.freeb bp) else none
  | .edit bp rptr wptr cont flag type =>
      if bp ∈ s.live then some (s.edit bp rptr wptr cont flag type) else none
  | .exchange mp newmsg =>
      if mp ∈ s.live ∧ newmsg ∈ s.live then some (s.exchange mp newmsg) else none

/-! ### Messages -/

/-- What the heap does when memory is asked for: it fails, or gives an address, and the memory there
    holds some value for the flags. -/
abbrev Mem := Option (ℕ × BitVec 16)

/-- The number of bytes in a message block. -/
def Msgb.size (m : Msgb) : ℕ := m.bWptr - m.bRptr

/-- `freemsg`, for a message of at most as many blocks as the first argument. -/
def freemsg : ℕ → State → ℕ → Option (List Event)
  | 0, _, _ => none
  | n + 1, s, mp =>
      match (s.msgb mp).bCont with
      | none => some [.freeb mp]
      | some next =>
          (step s (.freeb mp)).bind fun s => (freemsg n s next).map fun es => .freeb mp :: es

/-- The loop of `dupmsg`.  The result is the new message, if there is one. -/
def dupRest (msg : ℕ) : ℕ → State → ℕ → ℕ → List Mem → Option (List Event × Option ℕ)
  | 0, _, _, _, _ => none
  | n + 1, s, newblk, mp, mems =>
      match (s.msgb mp).bCont, mems with
      | none, _ => some ([], some msg)
      | some _, [] => none
      | some _, none :: _ => (freemsg s.live.length s msg).map fun es => (es, none)
      | some mp, some (p, flag) :: mems =>
          let b := s.msgb newblk
          let es := [.dupb mp p flag,
            .edit newblk b.bRptr b.bWptr (some p) b.bFlag (s.datab b.bDatap).dbType]
          (runFrom step s es).bind fun s =>
            (dupRest msg n s p mp mems).map fun r => (es ++ r.1, r.2)

/-- `dupmsg` -/
def dupmsg (s : State) (mp : ℕ) : List Mem → Option (List Event × Option ℕ)
  | [] => none
  | none :: _ => some ([], none)
  | some (p, flag) :: mems =>
      (step s (.dupb mp p flag)).bind fun s' =>
        (dupRest p s.live.length s' p mp mems).map fun r => (.dupb mp p flag :: r.1, r.2)

/-- Conversion to `size_t`. -/
def sizeT (len : ℤ) : ℕ := (len % 2 ^ 32).toNat

/-- The number of bytes of one type, in the blocks from the first on. -/
def State.typedSize (s : State) (msgtype : ℕ) : ℕ → ℕ → ℕ
  | 0, _ => 0
  | n + 1, scan =>
      (s.msgb scan).size +
        match (s.msgb scan).bCont with
        | none => 0
        | some scan =>
            if (s.datab (s.msgb scan).bDatap).dbType = msgtype then s.typedSize msgtype n scan
            else 0

/-- The loop of `msgpullup` that copies blocks: the number of the bytes that have been copied, and
    the block that is taken to be copied in part. -/
def State.pullCopy (s : State) : ℕ → Option ℕ → ℤ → ℕ → ℕ × Option ℕ
  | 0, _, _, copied => (copied, none)
  | _ + 1, none, _, copied => (copied, none)
  | n + 1, some mp, len, copied =>
      let blklen := (s.msgb mp).size
      let len := len - blklen
      if blklen > sizeT len then (copied + blklen, some mp)
      else s.pullCopy n (s.msgb mp).bCont len (copied + blklen)

/-- `msgpullup`.  The type of the new data block is not set. -/
def msgpullup (s : State) (mp : ℕ) (len : ℤ) (mems : List Mem) :
    Option (List Event × Option ℕ) :=
  if len = 0 then dupmsg s mp mems
  else
    let size := s.typedSize (s.datab (s.msgb mp).bDatap).dbType s.live.length mp
    if len ≠ -1 ∧ sizeT len > size then some ([], none)
    else
      match mems with
      | [] => none
      | none :: _ => some ([], none)
      | some (scan, _) :: mems =>
          let len := if len = -1 then (size : ℤ) else len
          let data := dbToData (mbToDb scan)
          let copy := s.pullCopy (s.live.length + 1) (some mp) len 0
          let fill := fun cont =>
            .edit scan data (data + copy.1) cont (s.msgb mp).bFlag M_DATA
          let es := [.msgbAlloc (sizeT len) scan, fill none]
          match copy.2 with
          | none => some (es, some scan)
          | some mp =>
              (runFrom step s es).bind fun s => (dupmsg s mp mems).map fun r =>
                match r.2 with
                | none => (es ++ r.1 ++ [.freeb scan], none)
                | some rest => (es ++ r.1 ++ [fill (some rest)], some scan)

/-- `pullupmsg` -/
def pullupmsg (s : State) (mp : ℕ) (len : ℤ) (mems : List Mem) : Option (List Event) :=
  let b := s.msgb mp
  if ((b.size : ℤ) > len ∨ len = -1 ∧ b.bCont = none) ∧ b.bRptr % 4 = 0 then some []
  else (msgpullup s mp len mems).bind fun r =>
    match r.2 with
    | none => some r.1
    | some newmsg =>
        let es := r.1 ++ [.exchange mp newmsg]
        (runFrom step s es).bind fun s =>
          (freemsg s.live.length s newmsg).map fun es' => es ++ es'

/-- `copyb` -/
def copyb (s : State) (bp : ℕ) : Mem → List Event
  | none => []
  | some (p, _) =>
      let size := (s.msgb bp).size
      let data := dbToData (mbToDb p)
      if size = 0 then [.msgbAlloc 0 p]
      else [.msgbAlloc size p,
        .edit p data (data + size) none 0 (s.datab (s.msgb bp).bDatap).dbType]

/-- The operations, with what the heap does for them; a holder may write to a block between them. -/
inductive Op where
  | allocb (size : ℕ) (mem : Mem)
  | esballoc (base size : ℕ) (frRtnp : Option ℕ) (mem : Mem)
  | dupb (bp : ℕ) (mem : Mem)
  | dupmsg (mp : ℕ) (mems : List Mem)
  | copyb (bp : ℕ) (mem : Mem)
  | pullupmsg (mp : ℕ) (len : ℤ) (mems : List Mem)
  | freeb (bp : ℕ)
  | freemsg (mp : ℕ)
  | edit (bp rptr wptr : ℕ) (cont : Option ℕ) (flag : BitVec 16) (type : ℕ)

/-- The steps that an operation makes. -/
def trace (s : State) : Op → Option (List Event)
  | .allocb size mem => some (mem.toList.map fun m => .msgbAlloc size m.1)
  | .esballoc base size frRtnp mem => some (mem.toList.map fun m => .esballoc base size frRtnp m.1)
  | .dupb bp mem => some (mem.toList.map fun m => .dupb bp m.1 m.2)
  | .dupmsg mp mems => (dupmsg s mp mems).map Prod.fst
  | .copyb bp mem => some (copyb s bp mem)
  | .pullupmsg mp len mems => pullupmsg s mp len mems
  | .freeb bp => some [.freeb bp]
  | .freemsg mp => freemsg s.live.length s mp
  | .edit bp rptr wptr cont flag type => some [.edit bp rptr wptr cont flag type]

/-- An operation. -/
def opStep (s : State) (op : Op) : Option State := (trace s op).bind (runFrom step s)

/-- There is no message block. -/
def Initial (s : State) : Prop :=
  s.heap = [] ∧ s.live = [] ∧ s.given = [] ∧ s.calls = [] ∧ s.complaints = 0

end CohKernel.Mblk
