import CohKernel.Lib.Runs

namespace CohKernel.DdiTime

/-!
# Timeouts

`QUEUE_TIMEOUT`, `CHECK_TIMEOUT`, `untimeout` and `RUN_TIMEOUTS` of `ddi_time.c`.  The queue is one
list: from `td_run` on are the cells that have been set off, and from `td_first` on those that are
waiting, each with the ticks from the one before it.  The global lock makes a call one step, but for
an `untimeout` that waits for the function of its cell.
-/

/-! ### Data -/

/-- The number of values of a `toid_t`. -/
def IDS : ℕ := 4294967296

/-- `struct timeout`; `serial` is the number of the request. -/
structure Timeout where
  tDelta : ℤ
  tId : ℕ
  tTicket : ℕ
  tTicketHolder : ℕ
  serial : ℕ
deriving DecidableEq

/-- The timeouts: the cells from `td_run` up to `td_first`, and from `td_first` on. -/
structure Timedata where
  tdId : ℕ
  run : List Timeout
  first : List Timeout
deriving DecidableEq

/-- The whole list. -/
def Timedata.list (td : Timedata) : List Timeout := td.run ++ td.first

/-- Another list, whose first `n` cells have been set off. -/
def Timedata.split (td : Timedata) (n : ℕ) (list : List Timeout) : Timedata :=
  { td with run := list.take n, first := list.drop n }

/-! ### Queueing -/

/-- What a walk of `QUEUE_TIMEOUT` ends with: it has found the id and starts again, with the ticks
    that are left, or it has found the place. -/
inductive Walk where
  | idScan (ticks : ℤ)
  | place (before after : List Timeout) (ticks : ℤ)

/-- The walk of `QUEUE_TIMEOUT` over the list. -/
def walk (id : ℕ) : List Timeout → ℤ → Walk
  | [], ticks => .place [] [] ticks
  | scan :: list, ticks =>
      if scan.tId = id then .idScan ticks
      else if ticks < scan.tDelta then
        .place [] ({ scan with tDelta := scan.tDelta - ticks } :: list) ticks
      else
        match walk id list (ticks - scan.tDelta) with
        | .idScan ticks => .idScan ticks
        | .place before after ticks => .place (scan :: before) after ticks

/-- The next id, and the one after it. -/
def Timedata.nextId (td : Timedata) : ℕ × Timedata :=
  let id := if td.tdId = 0 then 1 else td.tdId
  (id, { td with tdId := (id + 1) % IDS })

/-- Put a cell between others.  It becomes the first one that waits when it is put before that. -/
def Timedata.insert (td : Timedata) (before : List Timeout) (timep : Timeout)
    (after : List Timeout) : Timedata :=
  td.split (if before.length < td.run.length then td.run.length + 1 else td.run.length)
    (before ++ timep :: after)

/-- The label `id_scan` of `QUEUE_TIMEOUT`. -/
def idScan : ℕ → Timedata → ℤ → ℕ → Option (ℕ × Timedata)
  | 0, _, _, _ => none
  | fuel + 1, td, ticks, serial =>
      let (id, td) := td.nextId
      match walk id td.list ticks with
      | .idScan ticks => idScan fuel td ticks serial
      | .place before after ticks =>
          some (id, td.insert before
            { tDelta := ticks, tId := id, tTicket := 0, tTicketHolder := 0, serial := serial }
              after)

/-- `QUEUE_TIMEOUT`.  Every turn finds another cell with the id. -/
def queueTimeout (td : Timedata) (ticks : ℤ) (serial : ℕ) : Option (ℕ × Timedata) :=
  idScan (td.list.length + 1) td (if ticks = 0 then 1 else ticks) serial

/-! ### Ticks -/

/-- `CHECK_TIMEOUT`. -/
def checkTimeout (td : Timedata) : Timedata :=
  match td.first with
  | [] => td
  | scan :: list =>
      let scan := { scan with tDelta := scan.tDelta - 1 }
      if scan.tDelta = 0 then
        { td with
          run := td.run ++ scan :: list.takeWhile fun c => c.tDelta = 0
          first := list.dropWhile fun c => c.tDelta = 0 }
      else { td with first := scan :: list }

/-! ### Cancelling -/

/-- The first cell with a property, and the cells before and after it. -/
def findCell (p : Timeout → Bool) : List Timeout → Option (List Timeout × Timeout × List Timeout)
  | [] => none
  | scan :: list =>
      if p scan = true then some ([], scan, list)
      else (findCell p list).map fun (before, c, after) => (scan :: before, c, after)

/-- A distance is pushed onto the successor. -/
def pushDelta (delta : ℤ) : List Timeout → List Timeout
  | [] => []
  | c :: list => { c with tDelta := c.tDelta + delta } :: list

/-- A ticket is an `unsigned char`. -/
def nextTicket (ticket : ℕ) : ℕ := (ticket + 1) % 256

/-- The end of `untimeout`, when the ticket is the one that is held. -/
def Timedata.passOn (td : Timedata) (before : List Timeout) (scan : Timeout) (after : List Timeout)
    (ticket : ℕ) : Timedata :=
  if ticket = 0 ∧ before ≠ [] then
    td.split (if before.length < td.run.length then td.run.length else td.run.length + 1)
      ({ scan with tDelta := 0, tTicketHolder := nextTicket ticket } ::
        (before ++ pushDelta scan.tDelta after))
  else
    td.split td.run.length (before ++ { scan with tTicketHolder := nextTicket ticket } :: after)

/-- `untimeout`: the cell that it finds, and the ticket that it waits for. -/
def untimeout (td : Timedata) (id : ℕ) : Timedata × Option Timeout × Option ℕ :=
  match findCell (fun c => c.tId = id) td.list with
  | none => (td, none, none)
  | some (before, scan, after) =>
      let ticket := scan.tTicket
      let scan := { scan with tTicket := nextTicket ticket }
      if ticket ≠ scan.tTicketHolder then
        (td.split td.run.length (before ++ scan :: after), some scan, some ticket)
      else (td.passOn before scan after ticket, some scan, none)

/-- The rest of an `untimeout` that has waited. -/
def untimeoutRest (td : Timedata) (serial ticket : ℕ) : Option Timedata :=
  match findCell (fun c => c.serial = serial) td.list with
  | none => none
  | some (before, scan, after) =>
      if scan.tTicketHolder = ticket then some (td.passOn before scan after ticket) else none

/-! ### Running -/

/-- `RUN_TIMEOUTS` begins with the function of a cell. -/
def begin (td : Timedata) (serial : ℕ) : Option Timedata :=
  match findCell (fun c => c.serial = serial) td.run with
  | none => none
  | some (before, scan, after) =>
      if scan.tTicket > 0 then none
      else some { td with run := before ++ { scan with tTicket := 1 } :: after }

/-- `RUN_TIMEOUTS` comes back from the function of a cell. -/
def finish (td : Timedata) (serial : ℕ) : Option Timedata :=
  match findCell (fun c => c.serial = serial) td.run with
  | none => none
  | some (before, scan, after) =>
      if scan.tTicket > 0 ∧ scan.tTicketHolder = 0 then
        some { td with run := before ++ { scan with tTicketHolder := 1 } :: after }
      else none

/-- `RUN_TIMEOUTS` frees the cells that are done with. -/
def reap (td : Timedata) : Timedata :=
  { td with run := td.run.dropWhile fun c => c.tTicketHolder = c.tTicket ∧ c.tTicket ≠ 0 }

/-! ### The system -/

/-- The timeouts, and the calls of `untimeout` that wait: their cell and their ticket.  The rest is
    the history: the number of ticks and of requests, and for each request the tick at which it is
    to be set off, the tick at which it was, and whether it has been cancelled. -/
structure System where
  td : Timedata
  waiting : List (ℕ × ℕ)
  now : ℕ
  count : ℕ
  due : ℕ → ℕ
  moved : ℕ → Option ℕ
  cancelled : ℕ → Bool

/-- A step.  `alloc` says whether there is memory for the cell. -/
inductive Event where
  | queue (ticks : ℤ) (alloc : Bool)
  | check
  | untimeout (id : ℕ)
  | resume (i : ℕ)
  | begin (serial : ℕ)
  | finish (serial : ℕ)
  | reap

/-- A step. -/
def System.step (m : System) : Event → Option System
  | .queue _ false => some m
  | .queue ticks true =>
      (queueTimeout m.td ticks m.count).map fun (_, td) =>
        { m with
          td := td
          count := m.count + 1
          due := Function.update m.due m.count (m.now + (max ticks 1).toNat) }
  | .check =>
      let td := checkTimeout m.td
      some
        { m with
          td := td
          now := m.now + 1
          moved := fun n => if n ∈ (td.run.drop m.td.run.length).map Timeout.serial then
            some (m.now + 1) else m.moved n }
  | .untimeout id =>
      let (td, scan, ticket) := untimeout m.td id
      match scan with
      | none => some m
      | some scan => some
          { m with
            td := td
            waiting := m.waiting ++ ticket.toList.map fun ticket => (scan.serial, ticket)
            cancelled := Function.update m.cancelled scan.serial true }
  | .resume i =>
      match m.waiting[i]? with
      | none => none
      | some (serial, ticket) =>
          (untimeoutRest m.td serial ticket).map fun td =>
            { m with td := td, waiting := m.waiting.eraseIdx i }
  | .begin serial => (begin m.td serial).map fun td => { m with td := td }
  | .finish serial => (finish m.td serial).map fun td => { m with td := td }
  | .reap => some { m with td := reap m.td }

/-- No timeouts yet. -/
def Init (m : System) : Prop :=
  m.td = { tdId := 0, run := [], first := [] } ∧ m.waiting = [] ∧ m.now = 0 ∧ m.count = 0 ∧
    ∀ n, m.moved n = none ∧ m.cancelled n = false

end CohKernel.DdiTime
