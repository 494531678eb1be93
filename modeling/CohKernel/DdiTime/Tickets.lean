import CohKernel.DdiTime.Due

namespace CohKernel.DdiTime

open CohKernel.Lib

/-!
# Cancelling against running

The loop of `RUN_TIMEOUTS`, which lets go of the global lock while a function runs, and the calls of
`untimeout` that wait for it.

* `tickets_kept` — as long as no cell gives out its 256th ticket, a function runs once at most and
  not after it has been cancelled, `untimeout` returns when it is over, and a cell is freed once,
  and not while anybody refers to it;
* `cancelled_runs` — after 256 calls of `untimeout` the function of the cell runs all the same.
-/

/-! ### The calls -/

/-- The timeouts, and the calls in progress: the cells whose function `RUN_TIMEOUTS` has called, and
    the cells and tickets of the calls of `untimeout` that wait.  The rest is recorded: the number
    of requests, how often the function of each has been called, whether an `untimeout` has
    cancelled it, whether one has returned, and the cells that have been freed. -/
structure Calls where
  td : Timedata
  running : List ℕ
  waiting : List (ℕ × ℕ)
  count : ℕ
  runs : ℕ → ℕ
  cancelled : ℕ → Bool
  returned : ℕ → Bool
  freed : List ℕ

/-- A change of one cell. -/
def Timedata.setCell (td : Timedata) (serial : ℕ) (f : Timeout → Timeout) : Timedata :=
  { td with
    run := td.run.map fun c => if c.serial = serial then f c else c
    first := td.first.map fun c => if c.serial = serial then f c else c }

/-- The first loop of `RUN_TIMEOUTS` from some cell on: the cell whose function it calls.  `can`
    tells of which cells are of this processor and have their lock free. -/
def nextRun (can : ℕ → Bool) (cells : List Timeout) : Option ℕ :=
  (cells.find? fun scan => can scan.serial && scan.tTicket = 0).map Timeout.serial

/-- A cell that the second loop of `RUN_TIMEOUTS` frees. -/
def Timeout.done (scan : Timeout) : Bool := scan.tTicketHolder = scan.tTicket ∧ scan.tTicket ≠ 0

/-- `RUN_TIMEOUTS` up to where it calls a function or returns. -/
def Calls.runLoop (s : Calls) (can : ℕ → Bool) (cells : List Timeout) : Calls :=
  match nextRun can cells with
  | some serial =>
      { s with
        td := s.td.setCell serial fun scan => { scan with tTicket := 1 }
        running := serial :: s.running
        runs := Function.update s.runs serial (s.runs serial + 1) }
  | none =>
      { s with
        td := reap s.td
        freed := s.freed ++ (s.td.run.takeWhile Timeout.done).map Timeout.serial }

/-- What may happen: a request, a tick, a call of `untimeout`, the end of one that waits, a call of
    `RUN_TIMEOUTS`, and the return of a function that it has called. -/
inductive Call where
  | queue (ticks : ℤ) (alloc : Bool)
  | check
  | untimeout (id : ℕ)
  | resume (serial ticket : ℕ)
  | run (can : ℕ → Bool)
  | back (serial : ℕ) (can : ℕ → Bool)

def Calls.step (s : Calls) : Call → Option Calls
  | .queue _ false => some s
  | .queue ticks true =>
      (queueTimeout s.td ticks s.count).map fun (_, td) => { s with td := td, count := s.count + 1 }
  | .check => some { s with td := checkTimeout s.td }
  | .untimeout id =>
      match DdiTime.untimeout s.td id with
      | (_, none, _) => some s
      | (td, some scan, some ticket) =>
          some { s with td := td, waiting := (scan.serial, ticket) :: s.waiting }
      | (td, some scan, none) =>
          some { s with
            td := td
            cancelled := Function.update s.cancelled scan.serial
              (s.cancelled scan.serial || scan.tTicketHolder = 0)
            returned := Function.update s.returned scan.serial true }
  | .resume serial ticket =>
      if (serial, ticket) ∈ s.waiting then
        (untimeoutRest s.td serial ticket).map fun td =>
          { s with
            td := td
            waiting := s.waiting.erase (serial, ticket)
            returned := Function.update s.returned serial true }
      else none
  | .run can => some (s.runLoop can s.td.run)
  | .back serial can =>
      if serial ∈ s.running ∧ serial ∈ s.td.run.map Timeout.serial then
        let s := { s with
          td := s.td.setCell serial fun scan => { scan with tTicketHolder := 1 }
          running := s.running.erase serial }
        some (s.runLoop can (s.td.run.dropWhile fun scan => scan.serial ≠ serial).tail)
      else none

/-- No timeouts yet. -/
structure Calls.Initial (s : Calls) : Prop where
  td : s.td = ⟨0, [], []⟩
  running : s.running = []
  waiting : s.waiting = []
  count : s.count = 0
  runs : ∀ n, s.runs n = 0
  cancelled : ∀ n, s.cancelled n = false
  returned : ∀ n, s.returned n = false
  freed : s.freed = []

/-- **What the callers rely on.**  A function runs once at most, and not if it has been cancelled;
    it is over when an `untimeout` for it has returned; each cell is on the list or has been freed,
    once; a cell that a call refers to is on the list; and `RUN_TIMEOUTS` frees every cell that has
    been set off when nothing is left to run or to wait for. -/
structure Calls.Sound (s : Calls) : Prop where
  once : ∀ n, s.runs n ≤ 1
  cancelled : ∀ n, s.cancelled n = true → s.runs n = 0
  finished : ∀ n, s.returned n = true → n ∉ s.running
  cells : (s.td.list.map Timeout.serial ++ s.freed).Perm (List.range s.count)
  held : ∀ w ∈ s.waiting, w.1 ∈ s.td.list.map Timeout.serial
  called : ∀ n ∈ s.running, n ∈ s.td.run.map Timeout.serial
  reaped : s.running = [] → s.waiting = [] → (∀ scan ∈ s.td.run, scan.tTicket ≠ 0) →
    (reap s.td).run = []

/-- **The condition**: the cell that `untimeout` finds has not given out 255 tickets. -/
def Calls.Few (s : Calls) : Call → Prop
  | .untimeout id => ∀ found ∈ findCell (fun c => c.tId = id) s.td.list, found.2.1.tTicket < 255
  | _ => True

/-! ### Cells by their tickets -/

/-- What matters of a cell here. -/
structure Tag where
  serial : ℕ
  ticket : ℕ
  holder : ℕ

def Timeout.tag (c : Timeout) : Tag := ⟨c.serial, c.tTicket, c.tTicketHolder⟩

/-- The tags of some cells. -/
def tags (l : List Timeout) : List Tag := l.map Timeout.tag

variable {td td' : Timedata} {s s' : Calls} {before after l : List Timeout} {scan : Timeout}
variable {n ticket : ℕ} {x y : Tag}

theorem tags_append (l l' : List Timeout) : tags (l ++ l') = tags l ++ tags l' := List.map_append

theorem serials_tags (l : List Timeout) : l.map Timeout.serial = (tags l).map Tag.serial := by
  unfold tags
  rw [List.map_map]
  rfl

theorem tags_pushDelta (d : ℤ) (l : List Timeout) : tags (pushDelta d l) = tags l := by
  cases l <;> rfl

/-- A step gives a cell another tag, and the cells keep their places or come to those that have been
    set off. -/
structure Retag (td td' : Timedata) (x y : Tag) : Prop where
  perm : ∃ rest, (tags td.list).Perm (x :: rest) ∧ (tags td'.list).Perm (y :: rest)
  first : ∀ z ∈ tags td'.first, z ∈ tags td.first ∨ z = y ∧ x ∈ tags td.first

theorem split_list (td : Timedata) (n : ℕ) (l : List Timeout) : (td.split n l).list = l :=
  List.take_append_drop n l

/-- A cell in its place. -/
theorem retag_split (h : td.list = before ++ scan :: after) (scan' : Timeout) :
    Retag td (td.split td.run.length (before ++ scan' :: after)) scan.tag scan'.tag := by
  refine ⟨⟨tags (before ++ after), ?_, ?_⟩, fun z hz => ?_⟩
  · rw [h]
    exact List.perm_middle.map Timeout.tag
  · rw [split_list]
    exact List.perm_middle.map Timeout.tag
  · rcases run_or_first h with ⟨r₂, hr, rfl⟩ | ⟨b₂, rfl, hf⟩
    · have hdrop : (before ++ scan' :: (r₂ ++ td.first)).drop td.run.length = td.first := by
        rw [← List.cons_append, ← List.append_assoc]
        refine List.drop_left' ?_
        rw [hr, List.length_append, List.length_append]
        rfl
      unfold Timedata.split at hz
      rw [hdrop] at hz
      exact .inl hz
    · unfold Timedata.split at hz
      dsimp only at hz
      rw [List.append_assoc, List.drop_left' rfl, tags_append] at hz
      rw [hf, tags_append]
      rcases List.mem_append.mp hz with hz | hz
      · exact .inl (List.mem_append_left _ hz)
      · rcases List.mem_cons.mp hz with rfl | hz
        · exact .inr ⟨rfl, List.mem_append_right _ List.mem_cons_self⟩
        · exact .inl (List.mem_append_right _ (List.mem_cons_of_mem _ hz))

/-- **The end of `untimeout`** as far as the tags are concerned. -/
theorem retag_passOn (h : td.list = before ++ scan :: after) (scan' : Timeout) (ticket : ℕ) :
    Retag td (td.passOn before scan' after ticket) scan.tag
      ⟨scan'.serial, scan'.tTicket, nextTicket ticket⟩ := by
  unfold Timedata.passOn
  split
  · refine ⟨⟨tags (before ++ after), ?_, ?_⟩, fun z hz => .inl ?_⟩
    · rw [h]
      exact List.perm_middle.map Timeout.tag
    · rw [split_list]
      show (_ :: tags (before ++ pushDelta _ after)).Perm _
      rw [tags_append, tags_pushDelta, ← tags_append]
      rfl
    · unfold Timedata.split tags at hz
      dsimp only at hz
      rw [List.map_drop, List.map_cons, List.map_append] at hz
      have hpush : (pushDelta scan'.tDelta after).map Timeout.tag = after.map Timeout.tag :=
        tags_pushDelta _ after
      rw [hpush, ← List.map_append] at hz
      rcases run_or_first h with ⟨r₂, hr, rfl⟩ | ⟨b₂, rfl, hf⟩
      · -- it was set off before
        have hlen : td.run.length = (before ++ r₂).length + 1 := by
          rw [hr, List.length_append, List.length_append]
          rfl
        have hlt : before.length < td.run.length := by
          rw [hlen, List.length_append]
          omega
        rw [if_pos hlt, hlen, List.drop_succ_cons, ← List.append_assoc, List.map_append,
          List.drop_left' (List.length_map _)] at hz
        exact hz
      · have hge : ¬ (td.run ++ b₂).length < td.run.length := by
          rw [List.length_append]
          omega
        rw [if_neg hge, List.drop_succ_cons, List.append_assoc, List.map_append,
          List.drop_left' (List.length_map _)] at hz
        rw [hf]
        exact (tags_append b₂ (scan :: after)) ▸ (List.mem_append.mp
          (List.map_append (f := Timeout.tag) ▸ hz)).elim (List.mem_append_left _)
            fun hz => List.mem_append_right _ (List.mem_cons_of_mem _ hz)
  · exact retag_split h { scan' with tTicketHolder := nextTicket ticket }

/-! ### What a cell says about the calls -/

/-- A cell and the calls: no ticket has been passed on that has not been given out, a function that
    has been called or whose call has been prevented has a ticket, and the calls that wait have the
    tickets from the one that is held on, the first one being that of `RUN_TIMEOUTS`. -/
structure Fits (s : Calls) (x : Tag) : Prop where
  held : x.holder ≤ x.ticket
  few : x.ticket < 256
  new : x.ticket = 0 → s.runs x.serial = 0
  past : s.cancelled x.serial = true ∨ s.returned x.serial = true → 0 < x.holder
  running : x.serial ∈ s.running ↔ x.holder = 0 ∧ 0 < x.ticket
  waiting : ∀ t, (x.serial, t) ∈ s.waiting ↔ max x.holder 1 ≤ t ∧ t < x.ticket

/-- **The invariant.** -/
structure Kept (s : Calls) : Prop where
  fits : ∀ x ∈ tags s.td.list, Fits s x
  first : ∀ x ∈ tags s.td.first, 0 < x.ticket → 0 < x.holder
  cells : ((tags s.td.list).map Tag.serial ++ s.freed).Perm (List.range s.count)
  running : ∀ n ∈ s.running, n ∈ (tags s.td.list).map Tag.serial
  waiting : ∀ w ∈ s.waiting, w.1 ∈ (tags s.td.list).map Tag.serial
  calls : s.running.Nodup
  tickets : s.waiting.Nodup
  once : ∀ n, s.runs n ≤ 1
  cancelled : ∀ n, s.cancelled n = true → s.runs n = 0
  fresh : ∀ n, s.count ≤ n → s.runs n = 0 ∧ s.cancelled n = false ∧ s.returned n = false

theorem Kept.nodup (h : Kept s) : ((tags s.td.list).map Tag.serial).Nodup :=
  (List.nodup_append.mp (h.cells.nodup_iff.mpr List.nodup_range)).1

/-- A cell that the calls say the same of. -/
theorem Fits.same (h : Fits s x) (hruns : s'.runs x.serial = s.runs x.serial)
    (hcancelled : s'.cancelled x.serial = s.cancelled x.serial)
    (hreturned : s'.returned x.serial = s.returned x.serial)
    (hrunning : x.serial ∈ s'.running ↔ x.serial ∈ s.running)
    (hwaiting : ∀ t, (x.serial, t) ∈ s'.waiting ↔ (x.serial, t) ∈ s.waiting) : Fits s' x := by
  refine ⟨h.held, h.few, fun h0 => hruns.trans (h.new h0), ?_, hrunning.trans h.running,
    fun t => (hwaiting t).trans (h.waiting t)⟩
  rw [hcancelled, hreturned]
  exact h.past

/-- What a step does to one cell, and to the calls that refer to it, keeps the invariant if it keeps
    what is said about that cell. -/
structure Moves (s s' : Calls) (x y : Tag) : Prop where
  retag : Retag s.td s'.td x y
  serial : y.serial = x.serial
  fits : Fits s x → Fits s' y
  others : ∀ z : Tag, z.serial ≠ x.serial → Fits s z → Fits s' z
  first : x ∈ tags s.td.first → (0 < x.ticket → 0 < x.holder) → 0 < y.ticket → 0 < y.holder
  count : s'.count = s.count
  freed : s'.freed = s.freed
  running : ∀ n ∈ s'.running, n = x.serial ∨ n ∈ s.running
  waiting : ∀ w ∈ s'.waiting, w.1 = x.serial ∨ w ∈ s.waiting
  calls : s'.running.Nodup
  tickets : s'.waiting.Nodup
  once : s'.runs x.serial ≤ 1
  cancelled : s'.cancelled x.serial = true → s'.runs x.serial = 0
  frame : ∀ n, n ≠ x.serial → s'.runs n = s.runs n ∧ s'.cancelled n = s.cancelled n ∧
    s'.returned n = s.returned n

/-- **A step about one cell.** -/
theorem Kept.moves (h : Kept s) (hm : Moves s s' x y) : Kept s' := by
  obtain ⟨rest, hold, hnew⟩ := hm.retag.perm
  have hserials : ((tags s'.td.list).map Tag.serial).Perm ((tags s.td.list).map Tag.serial) := by
    refine (hnew.map _).trans (List.Perm.trans ?_ (hold.map _).symm)
    rw [List.map_cons, List.map_cons, hm.serial]
  have hx : x ∈ tags s.td.list := hold.symm.subset List.mem_cons_self
  have hserial : x.serial ∈ (tags s.td.list).map Tag.serial := List.mem_map_of_mem hx
  have hlt : x.serial < s.count :=
    List.mem_range.mp (h.cells.subset (List.mem_append_left _ hserial))
  have hrest : ∀ z ∈ rest, z.serial ≠ x.serial := by
    have hnd := ((hold.map Tag.serial).nodup_iff.mp h.nodup)
    rw [List.map_cons, List.nodup_cons] at hnd
    exact fun z hz heq => hnd.1 (heq ▸ List.mem_map_of_mem hz)
  refine ⟨fun z hz => ?_, fun z hz => ?_, ?_, fun n hn => ?_, fun w hw => ?_, hm.calls, hm.tickets,
    fun n => ?_, fun n hn => ?_, fun n hn => ?_⟩
  · rcases List.mem_cons.mp (hnew.subset hz) with rfl | hz
    · exact hm.fits (h.fits x hx)
    · exact hm.others z (hrest z hz) (h.fits z (hold.symm.subset (List.mem_cons_of_mem _ hz)))
  · rcases hm.retag.first z hz with hz | ⟨rfl, hx⟩
    · exact h.first z hz
    · exact hm.first hx (h.first x hx)
  · rw [hm.freed, hm.count]
    exact (hserials.append_right _).trans h.cells
  · refine hserials.symm.subset ?_
    rcases hm.running n hn with rfl | hn
    · exact hserial
    · exact h.running n hn
  · refine hserials.symm.subset ?_
    rcases hm.waiting w hw with hw | hw
    · exact hw ▸ hserial
    · exact h.waiting w hw
  · by_cases hnx : n = x.serial
    · exact hnx ▸ hm.once
    · exact (hm.frame n hnx).1 ▸ h.once n
  · by_cases hnx : n = x.serial
    · subst hnx
      exact hm.cancelled hn
    · obtain ⟨hruns, hcancelled, -⟩ := hm.frame n hnx
      rw [hruns]
      exact h.cancelled n (hcancelled ▸ hn)
  · rw [hm.count] at hn
    obtain ⟨hruns, hcancelled, hreturned⟩ := hm.frame n (by omega)
    rw [hruns, hcancelled, hreturned]
    exact h.fresh n hn

/-! ### `untimeout` -/

theorem nextTicket_of_lt (h : ticket < 255) : nextTicket ticket = ticket + 1 :=
  Nat.mod_eq_of_lt (by omega)

/-- The cell that is looked for, among the tags. -/
theorem mem_tags (h : td.list = before ++ scan :: after) : scan.tag ∈ tags td.list := by
  rw [h]
  exact List.mem_map_of_mem (List.mem_append_right _ List.mem_cons_self)

/-- An `untimeout` takes a ticket and waits. -/
theorem Kept.wait (h : Kept s) (hl : s.td.list = before ++ scan :: after) (hlt : scan.tTicket < 255)
    (hne : scan.tTicket ≠ scan.tTicketHolder) :
    Kept { s with
      td := s.td.split s.td.run.length
        (before ++ { scan with tTicket := nextTicket scan.tTicket } :: after)
      waiting := (scan.serial, scan.tTicket) :: s.waiting } := by
  have hfits := h.fits _ (mem_tags hl)
  have hheld : scan.tTicketHolder ≤ scan.tTicket := hfits.held
  have hnew : (scan.serial, scan.tTicket) ∉ s.waiting :=
    fun hw => absurd ((hfits.waiting _).mp hw).2 (lt_irrefl _)
  refine h.moves (x := scan.tag) ⟨retag_split hl _, rfl, fun hx => ?_, fun z hz hfit => ?_,
    fun _ hfirst _ => ?_, rfl, rfl, fun n hn => .inr hn, fun w hw => ?_, h.calls,
    List.nodup_cons.mpr ⟨hnew, h.tickets⟩, h.once _, h.cancelled _, fun n _ => ⟨rfl, rfl, rfl⟩⟩
  · replace hx : Fits s ⟨scan.serial, scan.tTicket, scan.tTicketHolder⟩ := hx
    show Fits _ ⟨scan.serial, nextTicket scan.tTicket, scan.tTicketHolder⟩
    rw [nextTicket_of_lt hlt]
    refine ⟨Nat.le_succ_of_le hx.held, Nat.succ_lt_succ hlt, fun h0 =>
      absurd h0 (Nat.succ_ne_zero _),
      hx.past, ?_, fun t => ?_⟩
    · refine hx.running.trans (and_congr_right fun h0 => ?_)
      dsimp only at h0 ⊢
      omega
    · rw [List.mem_cons, Prod.mk.injEq]
      refine (or_congr_right (hx.waiting t)).trans ?_
      dsimp only
      omega
  · refine hfit.same rfl rfl rfl Iff.rfl fun t => ?_
    rw [List.mem_cons, Prod.mk.injEq]
    exact or_iff_right fun heq => hz heq.1
  · unfold Timeout.tag at hfirst ⊢
    dsimp only at hfirst ⊢
    exact hfirst (by omega)
  · rcases List.mem_cons.mp hw with rfl | hw
    · exact .inl rfl
    · exact .inr hw

/-- An `untimeout` takes the ticket that is held, and passes it on. -/
theorem Kept.take (h : Kept s) (hl : s.td.list = before ++ scan :: after) (hlt : scan.tTicket < 255)
    (heq : scan.tTicket = scan.tTicketHolder) :
    Kept { s with
      td := s.td.passOn before { scan with tTicket := nextTicket scan.tTicket } after scan.tTicket
      cancelled := Function.update s.cancelled scan.serial
        (s.cancelled scan.serial || scan.tTicketHolder = 0)
      returned := Function.update s.returned scan.serial true } := by
  have hfits := h.fits _ (mem_tags hl)
  refine h.moves (x := scan.tag) ⟨retag_passOn hl _ _, rfl, fun hx => ?_, fun z hz hfit => ?_,
    fun _ _ _ => ?_, rfl, rfl, fun n hn => .inr hn, fun w hw => .inr hw, h.calls, h.tickets,
      h.once _,
    fun hc => ?_, fun n hn => ?_⟩
  · replace hx : Fits s ⟨scan.serial, scan.tTicket, scan.tTicketHolder⟩ := hx
    show Fits _ ⟨scan.serial, nextTicket scan.tTicket, nextTicket scan.tTicket⟩
    rw [nextTicket_of_lt hlt]
    refine ⟨le_rfl, Nat.succ_lt_succ hlt, fun h0 => absurd h0 (Nat.succ_ne_zero _),
      fun _ => Nat.succ_pos _, ?_, fun t => (hx.waiting t).trans ?_⟩
    · refine hx.running.trans ?_
      dsimp only
      omega
    · dsimp only
      omega
  · exact hfit.same rfl (Function.update_of_ne hz _ _) (Function.update_of_ne hz _ _) Iff.rfl
      fun t => Iff.rfl
  · show 0 < nextTicket scan.tTicket
    rw [nextTicket_of_lt hlt]
    exact Nat.succ_pos _
  · have hc : Function.update s.cancelled scan.serial
        (s.cancelled scan.serial || scan.tTicketHolder = 0) scan.serial = true := hc
    rw [Function.update_self, Bool.or_eq_true, decide_eq_true_eq] at hc
    rcases hc with hc | hc
    · exact h.cancelled _ hc
    · exact hfits.new (heq.trans hc)
  · exact ⟨rfl, Function.update_of_ne hn _ _, Function.update_of_ne hn _ _⟩

/-- An `untimeout` that has waited comes to its ticket, and passes it on. -/
theorem Kept.resume (h : Kept s) (hl : s.td.list = before ++ scan :: after)
    (hw : (scan.serial, ticket) ∈ s.waiting) (heq : scan.tTicketHolder = ticket) :
    Kept { s with
      td := s.td.passOn before scan after ticket
      waiting := s.waiting.erase (scan.serial, ticket)
      returned := Function.update s.returned scan.serial true } := by
  have hfits := h.fits _ (mem_tags hl)
  obtain ⟨hle, hlt⟩ : max scan.tTicketHolder 1 ≤ ticket ∧ ticket < scan.tTicket :=
    (hfits.waiting ticket).mp hw
  have hfew : scan.tTicket < 256 := hfits.few
  refine h.moves (x := scan.tag) ⟨retag_passOn hl _ _, rfl, fun hx => ?_, fun z hz hfit => ?_,
    fun _ _ _ => ?_, rfl, rfl, fun n hn => .inr hn, fun w hw => .inr (List.mem_of_mem_erase hw),
    h.calls, h.tickets.erase _, h.once _, h.cancelled _, fun n hn => ?_⟩
  · replace hx : Fits s ⟨scan.serial, scan.tTicket, scan.tTicketHolder⟩ := hx
    show Fits _ ⟨scan.serial, scan.tTicket, nextTicket ticket⟩
    rw [nextTicket_of_lt (by omega)]
    refine ⟨hlt, hx.few, hx.new, fun _ => Nat.succ_pos _, ?_, fun t => ?_⟩
    · refine hx.running.trans ?_
      dsimp only
      omega
    · rw [h.tickets.mem_erase_iff, Ne, Prod.mk.injEq]
      refine (and_congr_right fun _ => hx.waiting t).trans ?_
      dsimp only
      omega
  · refine hfit.same rfl rfl (Function.update_of_ne hz _ _) Iff.rfl fun t => ?_
    rw [h.tickets.mem_erase_iff, Ne, Prod.mk.injEq]
    exact and_iff_right fun heq => hz heq.1
  · show 0 < nextTicket ticket
    rw [nextTicket_of_lt (by omega)]
    exact Nat.succ_pos _
  · exact ⟨rfl, rfl, Function.update_of_ne hn _ _⟩

/-! ### `RUN_TIMEOUTS` -/

/-- Where a cell that has been set off is, and that no other one is for its request. -/
theorem setCell_eq (hnd : ((tags td.list).map Tag.serial).Nodup)
    (hrun : td.run = before ++ scan :: after) (f : Timeout → Timeout) :
    td.setCell scan.serial f = { td with run := before ++ f scan :: after } := by
  unfold Timedata.list at hnd
  rw [← serials_tags, hrun, List.append_assoc, List.cons_append,
    (List.perm_middle.map Timeout.serial).nodup_iff, List.map_cons, List.nodup_cons] at hnd
  have hother : ∀ c ∈ before ++ (after ++ td.first), c.serial ≠ scan.serial :=
    fun c hc heq => hnd.1 (heq ▸ List.mem_map_of_mem hc)
  have hsame : ∀ l : List Timeout, (∀ c ∈ l, c.serial ≠ scan.serial) →
      l.map (fun c => if c.serial = scan.serial then f c else c) = l := by
    intro l hl
    refine (List.map_congr_left fun c hc => ?_).trans (List.map_id l)
    rw [if_neg (hl c hc)]
    rfl
  unfold Timedata.setCell
  rw [hrun, List.map_append, List.map_cons, if_pos rfl,
    hsame before fun c hc => hother c (List.mem_append_left _ hc),
    hsame after fun c hc => hother c (List.mem_append_right _ (List.mem_append_left _ hc)),
    hsame td.first fun c hc => hother c (List.mem_append_right _ (List.mem_append_right _ hc))]

/-- A cell that has been set off is changed. -/
theorem retag_setCell (hnd : ((tags td.list).map Tag.serial).Nodup) (hmem : scan ∈ td.run)
    (f : Timeout → Timeout) : Retag td (td.setCell scan.serial f) scan.tag (f scan).tag := by
  obtain ⟨before, after, hrun⟩ := List.append_of_mem hmem
  rw [setCell_eq hnd hrun]
  refine ⟨⟨tags (before ++ (after ++ td.first)), ?_, ?_⟩, fun z hz => .inl hz⟩
  · unfold Timedata.list
    rw [hrun, List.append_assoc]
    exact List.perm_middle.map Timeout.tag
  · unfold Timedata.list
    rw [List.append_assoc]
    exact List.perm_middle.map Timeout.tag

/-- It does not wait. -/
theorem run_not_first (hnd : ((tags td.list).map Tag.serial).Nodup) (hmem : scan ∈ td.run) :
    scan.tag ∉ tags td.first := by
  intro hfirst
  unfold Timedata.list at hnd
  rw [tags_append, List.map_append, List.nodup_append] at hnd
  exact hnd.2.2 _ (List.mem_map_of_mem (List.mem_map_of_mem hmem)) _
    (List.mem_map_of_mem hfirst) rfl

theorem run_tags (hmem : scan ∈ td.run) : scan.tag ∈ tags td.list :=
  List.mem_map_of_mem (List.mem_append_left _ hmem)

/-- The function of a cell is called. -/
theorem Kept.begin (h : Kept s) (hmem : scan ∈ s.td.run) (hzero : scan.tTicket = 0) :
    Kept { s with
      td := s.td.setCell scan.serial fun scan => { scan with tTicket := 1 }
      running := scan.serial :: s.running
      runs := Function.update s.runs scan.serial (s.runs scan.serial + 1) } := by
  have hfits := h.fits _ (run_tags hmem)
  have hnot : scan.serial ∉ s.running :=
    fun hr => absurd (hfits.running.mp hr).2 (by rw [show scan.tag.ticket = 0 from hzero]; omega)
  have hholder : scan.tTicketHolder = 0 := Nat.le_zero.mp (hzero ▸ hfits.held)
  have hruns : s.runs scan.serial = 0 := hfits.new hzero
  refine h.moves (x := scan.tag) ⟨retag_setCell h.nodup hmem _, rfl, fun hx => ?_,
    fun z hz hfit => ?_, fun hx => absurd hx (run_not_first h.nodup hmem), rfl, rfl,
    fun n hn => List.mem_cons.mp hn, fun w hw => .inr hw, List.nodup_cons.mpr ⟨hnot, h.calls⟩,
    h.tickets, ?_, fun hc => ?_, fun n hn => ⟨Function.update_of_ne hn _ _, rfl, rfl⟩⟩
  · replace hx : Fits s ⟨scan.serial, scan.tTicket, scan.tTicketHolder⟩ := hx
    show Fits _ ⟨scan.serial, 1, scan.tTicketHolder⟩
    refine ⟨hholder.le.trans zero_le_one, by norm_num, fun h0 => absurd h0 one_ne_zero, hx.past,
      iff_of_true List.mem_cons_self ⟨hholder, one_pos⟩, fun t => (hx.waiting t).trans ?_⟩
    dsimp only
    omega
  · exact hfit.same (Function.update_of_ne hz _ _) rfl rfl
      (List.mem_cons.trans (or_iff_right hz)) fun t => Iff.rfl
  · exact ((Function.update_self _ _ _).trans (congrArg (· + 1) hruns)).le
  · have hpast := hfits.past (.inl hc)
    rw [show scan.tag.holder = 0 from hholder] at hpast
    exact absurd hpast (lt_irrefl 0)

/-- It has returned. -/
theorem Kept.finish (h : Kept s) (hmem : scan ∈ s.td.run) (hr : scan.serial ∈ s.running) :
    Kept { s with
      td := s.td.setCell scan.serial fun scan => { scan with tTicketHolder := 1 }
      running := s.running.erase scan.serial } := by
  have hfits := h.fits _ (run_tags hmem)
  obtain ⟨hholder, hticket⟩ : scan.tTicketHolder = 0 ∧ 0 < scan.tTicket := hfits.running.mp hr
  refine h.moves (x := scan.tag) ⟨retag_setCell h.nodup hmem _, rfl, fun hx => ?_,
    fun z hz hfit => ?_, fun hx => absurd hx (run_not_first h.nodup hmem), rfl, rfl,
    fun n hn => .inr (List.mem_of_mem_erase hn), fun w hw => .inr hw, h.calls.erase _, h.tickets,
    h.once _, h.cancelled _, fun n hn => ⟨rfl, rfl, rfl⟩⟩
  · replace hx : Fits s ⟨scan.serial, scan.tTicket, scan.tTicketHolder⟩ := hx
    show Fits _ ⟨scan.serial, scan.tTicket, 1⟩
    refine ⟨hticket, hx.few, hx.new, fun _ => one_pos, ?_,
      fun t => (hx.waiting t).trans ?_⟩
    · exact iff_of_false (fun hr => ((h.calls.mem_erase_iff).mp hr).1 rfl)
        fun h1 => absurd h1.1 one_ne_zero
    · dsimp only
      omega
  · exact hfit.same rfl rfl rfl (h.calls.mem_erase_iff.trans (and_iff_right hz)) fun t => Iff.rfl

theorem reap_run (td : Timedata) : (reap td).run = td.run.dropWhile Timeout.done := rfl

/-- No call refers to a cell that is freed. -/
theorem Fits.unused (h : Fits s scan.tag) (hdone : scan.done = true) :
    scan.serial ∉ s.running ∧ ∀ t, (scan.serial, t) ∉ s.waiting := by
  obtain ⟨heq, hne⟩ : scan.tTicketHolder = scan.tTicket ∧ scan.tTicket ≠ 0 :=
      of_decide_eq_true hdone
  refine ⟨fun hr => ?_, fun t hw => ?_⟩
  · obtain ⟨h0, -⟩ : scan.tTicketHolder = 0 ∧ _ := h.running.mp hr
    exact hne (heq.symm.trans h0)
  · obtain ⟨hle, hlt⟩ : max scan.tTicketHolder 1 ≤ t ∧ t < scan.tTicket := (h.waiting t).mp hw
    omega

/-- Cells that are done with are freed. -/
theorem Kept.reap (h : Kept s) :
    Kept { s with
      td := reap s.td
      freed := s.freed ++ (s.td.run.takeWhile Timeout.done).map Timeout.serial } := by
  have hsplit : tags s.td.list =
      tags (s.td.run.takeWhile Timeout.done) ++ tags (DdiTime.reap s.td).list := by
    unfold Timedata.list
    rw [← tags_append, reap_run, ← List.append_assoc, List.takeWhile_append_dropWhile]
    rfl
  have hsub : ∀ z ∈ tags (DdiTime.reap s.td).list, z ∈ tags s.td.list :=
    fun z hz => hsplit ▸ List.mem_append_right _ hz
  -- a cell that a call refers to is not freed
  have hstays : ∀ n, n ∈ (tags s.td.list).map Tag.serial →
      (n ∈ s.running ∨ ∃ t, (n, t) ∈ s.waiting) →
        n ∈ (tags (DdiTime.reap s.td).list).map Tag.serial := by
    intro n hn hcall
    obtain ⟨z, hz, rfl⟩ := List.mem_map.mp hn
    rcases List.mem_append.mp (hsplit ▸ hz) with hz' | hz'
    · obtain ⟨scan, hscan, rfl⟩ := List.mem_map.mp hz'
      obtain ⟨hrun, hwait⟩ := (h.fits _ hz).unused (List.mem_takeWhile_imp hscan)
      rcases hcall with hr | ⟨t, hw⟩
      · exact absurd hr hrun
      · exact absurd hw (hwait t)
    · exact List.mem_map_of_mem hz'
  refine ⟨fun z hz => (h.fits z (hsub z hz)).same rfl rfl rfl Iff.rfl fun t => Iff.rfl, h.first, ?_,
    fun n hn => hstays n (h.running n hn) (.inl hn),
    fun w hw => hstays w.1 (h.waiting w hw) (.inr ⟨w.2, hw⟩), h.calls, h.tickets, h.once,
    h.cancelled, h.fresh⟩
  refine List.Perm.trans ?_ h.cells
  rw [hsplit, List.map_append, ← serials_tags (s.td.run.takeWhile Timeout.done), List.append_assoc,
    ← List.append_assoc]
  exact List.perm_append_comm

theorem nextRun_mem {can : ℕ → Bool} {cells : List Timeout} (h : nextRun can cells = some n) :
    ∃ scan ∈ cells, scan.serial = n ∧ scan.tTicket = 0 := by
  obtain ⟨scan, hfind, hn⟩ := Option.map_eq_some_iff.mp h
  have hp := List.find?_some hfind
  rw [Bool.and_eq_true, decide_eq_true_eq] at hp
  exact ⟨scan, List.mem_of_find?_eq_some hfind, hn, hp.2⟩

/-- **`RUN_TIMEOUTS`** up to the next function. -/
theorem Kept.runLoop (h : Kept s) (can : ℕ → Bool) {cells : List Timeout}
    (hcells : ∀ c ∈ cells, c ∈ s.td.run) : Kept (s.runLoop can cells) := by
  unfold Calls.runLoop
  cases hnext : nextRun can cells with
  | none => exact h.reap
  | some n =>
    obtain ⟨scan, hmem, rfl, hzero⟩ := nextRun_mem hnext
    exact h.begin (hcells scan hmem) hzero

/-! ### Queueing and ticks -/

/-- A walk changes no tag. -/
theorem walk_tags {id : ℕ} {ticks t : ℤ} (h : walk id l ticks = .place before after t) :
    tags before ++ tags after = tags l := by
  induction l generalizing ticks before with
  | nil =>
    cases h
    rfl
  | cons scan list ih =>
    unfold walk at h
    split_ifs at h
    · cases h
      rfl
    · cases hw : walk id list (ticks - scan.tDelta) with
      | idScan ticks =>
        rw [hw] at h
        cases h
      | place b a t =>
        rw [hw] at h
        cases h
        exact congrArg (scan.tag :: ·) (ih hw)

/-- A place in a list moves the later places by one. -/
theorem drop_insert {k : ℕ} {b a : List Tag} (h : b.length ≤ k) :
    (b ++ x :: a).drop (k + 1) = (b ++ a).drop k := by
  rw [List.drop_append, List.drop_append, List.drop_eq_nil_of_le h,
    List.drop_eq_nil_of_le (Nat.le_succ_of_le h), Nat.succ_sub h, List.drop_succ_cons]

/-- A new cell among the others. -/
theorem insert_tags (h : tags before ++ tags after = tags td.list) (timep : Timeout) :
    (tags (td.insert before timep after).list).Perm (timep.tag :: tags td.list) ∧
    ∀ z ∈ tags (td.insert before timep after).first, z ∈ tags td.first ∨ z = timep.tag := by
  have hlen : ∀ l : List Timeout, (tags l).length = l.length := fun l => List.length_map _
  have hall : tags (before ++ timep :: after) = tags before ++ timep.tag :: tags after :=
    tags_append before (timep :: after)
  have hfirst : tags td.first = (tags before ++ tags after).drop td.run.length := by
    rw [h, ← hlen td.run]
    unfold Timedata.list
    rw [tags_append, List.drop_left]
  unfold Timedata.insert
  rw [split_list, hall]
  refine ⟨h ▸ List.perm_middle, fun z hz => ?_⟩
  have hz : z ∈ ((tags before ++ timep.tag :: tags after).drop
      (if before.length < td.run.length then td.run.length + 1 else td.run.length)) := by
    rw [← hall]
    exact List.map_drop ▸ hz
  split_ifs at hz with hlt
  · rw [drop_insert (by rw [hlen]; omega), ← hfirst] at hz
    exact .inl hz
  · have hle : td.run.length ≤ (tags before).length := by
      rw [hlen]
      omega
    rw [List.drop_append_of_le_length hle, List.mem_append, List.mem_cons] at hz
    rw [hfirst, List.drop_append_of_le_length hle, List.mem_append]
    tauto

/-- `QUEUE_TIMEOUT` adds one cell. -/
theorem idScan_tags {fuel serial id : ℕ} {ticks : ℤ}
    (h : idScan fuel td ticks serial = some (id, td')) :
    (tags td'.list).Perm (⟨serial, 0, 0⟩ :: tags td.list) ∧
    ∀ z ∈ tags td'.first, z ∈ tags td.first ∨ z = ⟨serial, 0, 0⟩ := by
  induction fuel generalizing td ticks with
  | zero => cases h
  | succ fuel ih =>
    unfold idScan at h
    cases hw : walk td.nextId.1 td.nextId.2.list ticks with
    | idScan ticks =>
      simp only [hw] at h
      have hnext : (tags td'.list).Perm (⟨serial, 0, 0⟩ :: tags td.nextId.2.list) ∧
          ∀ z ∈ tags td'.first, z ∈ tags td.nextId.2.first ∨ z = ⟨serial, 0, 0⟩ := ih h
      exact hnext
    | place before after t =>
      simp only [hw, Option.some.injEq, Prod.mk.injEq] at h
      obtain ⟨-, rfl⟩ := h
      have hlist : tags before ++ tags after = tags td.nextId.2.list := walk_tags hw
      exact insert_tags hlist _

/-- A new request. -/
theorem Kept.queue (h : Kept s) (hperm : (tags td.list).Perm (⟨s.count, 0, 0⟩ :: tags s.td.list))
    (hfirst : ∀ z ∈ tags td.first, z ∈ tags s.td.first ∨ z = ⟨s.count, 0, 0⟩) :
    Kept { s with td := td, count := s.count + 1 } := by
  have hserials : ((tags td.list).map Tag.serial).Perm
      (s.count :: (tags s.td.list).map Tag.serial) := hperm.map Tag.serial
  have hnew : s.count ∉ (tags s.td.list).map Tag.serial := fun hmem =>
    absurd (List.mem_range.mp (h.cells.subset (List.mem_append_left _ hmem))) (lt_irrefl _)
  obtain ⟨hruns, hcancelled, hreturned⟩ := h.fresh s.count le_rfl
  refine ⟨fun z hz => ?_, fun z hz hpos => ?_, ?_,
    fun n hn => hserials.symm.subset (List.mem_cons_of_mem _ (h.running n hn)),
    fun w hw => hserials.symm.subset (List.mem_cons_of_mem _ (h.waiting w hw)), h.calls, h.tickets,
    h.once, h.cancelled, fun n hn => h.fresh n (Nat.le_of_succ_le hn)⟩
  · rcases List.mem_cons.mp (hperm.subset hz) with rfl | hz
    · refine ⟨le_rfl, by norm_num, fun _ => hruns, fun hc => ?_,
        iff_of_false (fun hr => hnew (h.running _ hr)) fun h0 => absurd h0.2 (lt_irrefl 0),
        fun t => iff_of_false (fun hw => hnew (h.waiting _ hw)) fun ht => Nat.not_lt_zero t ht.2⟩
      rcases hc with hc | hc
      · exact Bool.noConfusion (hcancelled.symm.trans hc)
      · exact Bool.noConfusion (hreturned.symm.trans hc)
    · exact (h.fits z hz).same rfl rfl rfl Iff.rfl fun t => Iff.rfl
  · rcases hfirst z hz with hz | rfl
    · exact h.first z hz hpos
    · exact absurd hpos (lt_irrefl 0)
  · rw [List.range_succ]
    refine (hserials.append_right _).trans ?_
    rw [List.cons_append]
    exact (h.cells.cons _).trans (List.perm_append_singleton _ _).symm

/-- A tick changes no tag. -/
theorem check_tags (td : Timedata) : tags (checkTimeout td).list = tags td.list ∧
    ∀ z ∈ tags (checkTimeout td).first, z ∈ tags td.first := by
  unfold checkTimeout
  cases hfirst : td.first with
  | nil =>
    refine ⟨rfl, fun z hz => ?_⟩
    rw [hfirst] at hz
    exact hz
  | cons scan list =>
    dsimp only
    split_ifs
    · refine ⟨?_, fun z hz => ?_⟩
      · unfold Timedata.list
        dsimp only
        rw [List.append_assoc, List.cons_append, List.takeWhile_append_dropWhile, hfirst,
          tags_append,
          tags_append]
        rfl
      · exact List.mem_cons_of_mem _ (((List.dropWhile_sublist _).map _).subset hz)
    · refine ⟨?_, fun z hz => hz⟩
      unfold Timedata.list
      rw [hfirst, tags_append, tags_append]
      rfl

theorem Kept.check (h : Kept s) : Kept { s with td := checkTimeout s.td } := by
  obtain ⟨hlist, hfirst⟩ := check_tags s.td
  refine ⟨fun z hz => ?_, fun z hz => h.first z (hfirst z hz), ?_, fun n hn => ?_, fun w hw => ?_,
    h.calls, h.tickets, h.once, h.cancelled, h.fresh⟩
  · exact (h.fits z (hlist ▸ hz)).same rfl rfl rfl Iff.rfl fun t => Iff.rfl
  · rw [hlist]
    exact h.cells
  · rw [hlist]
    exact h.running n hn
  · rw [hlist]
    exact h.waiting w hw

/-! ### Whole runs -/

theorem Calls.Initial.kept (h : s.Initial) : Kept s := by
  obtain ⟨htd, hrunning, hwaiting, hcount, hruns, hcancelled, hreturned, hfreed⟩ := h
  refine ⟨fun z hz => ?_, fun z hz => ?_, ?_, fun n hn => ?_, fun w hw => ?_, ?_, ?_,
    fun n => (hruns n).le.trans zero_le_one, fun n _ => hruns n,
    fun n _ => ⟨hruns n, hcancelled n, hreturned n⟩⟩
  · rw [htd] at hz
    cases hz
  · rw [htd] at hz
    cases hz
  · rw [htd, hfreed, hcount]
    rfl
  · rw [hrunning] at hn
    cases hn
  · rw [hwaiting] at hw
    cases hw
  · rw [hrunning]
    exact List.nodup_nil
  · rw [hwaiting]
    exact List.nodup_nil

/-- **Every step** keeps the invariant. -/
theorem Kept.step {e : Call} (h : Kept s) (hok : s.Few e) (hstep : s.step e = some s') :
    Kept s' := by
  cases e with
  | queue ticks alloc =>
    cases alloc with
    | false =>
      cases hstep
      exact h
    | true =>
      obtain ⟨⟨id, td⟩, hq, rfl⟩ := Option.map_eq_some_iff.mp hstep
      obtain ⟨hperm, hfirst⟩ := idScan_tags hq
      exact h.queue hperm hfirst
  | check =>
    cases hstep
    exact h.check
  | untimeout id =>
    unfold Calls.step DdiTime.untimeout at hstep
    cases hf : findCell (fun c => c.tId = id) s.td.list with
    | none =>
      simp only [hf] at hstep
      cases hstep
      exact h
    | some found =>
      obtain ⟨before, scan, after⟩ := found
      obtain ⟨hl, -⟩ := findCell_spec hf
      have hlt : scan.tTicket < 255 := hok _ hf
      simp only [hf] at hstep
      by_cases hne : scan.tTicket ≠ scan.tTicketHolder
      · simp only [if_pos hne] at hstep
        cases hstep
        exact h.wait hl hlt hne
      · simp only [if_neg hne] at hstep
        cases hstep
        exact h.take hl hlt (not_not.mp hne)
  | resume serial ticket =>
    obtain ⟨hw, hstep⟩ := Option.ite_none_right_eq_some.mp hstep
    obtain ⟨td, hrest, rfl⟩ := Option.map_eq_some_iff.mp hstep
    unfold untimeoutRest at hrest
    cases hf : findCell (fun c => c.serial = serial) s.td.list with
    | none =>
      rw [hf] at hrest
      cases hrest
    | some found =>
      obtain ⟨before, scan, after⟩ := found
      obtain ⟨hl, hserial⟩ := findCell_spec hf
      obtain rfl := of_decide_eq_true hserial
      rw [hf] at hrest
      obtain ⟨heq, hrest⟩ := Option.ite_none_right_eq_some.mp hrest
      cases hrest
      exact h.resume hl hw heq
  | run can =>
    cases hstep
    exact h.runLoop can fun c hc => hc
  | back serial can =>
    obtain ⟨⟨hr, hmem⟩, hstep⟩ := Option.ite_none_right_eq_some.mp hstep
    obtain ⟨scan, hscan, rfl⟩ := List.mem_map.mp hmem
    cases hstep
    exact (h.finish hscan hr).runLoop can fun c hc =>
      (List.dropWhile_sublist _).subset (List.mem_of_mem_tail hc)

/-- A function that runs is one of the list from `td_run` on. -/
theorem Kept.called (h : Kept s) (hn : n ∈ s.running) : n ∈ s.td.run.map Timeout.serial := by
  obtain ⟨z, hz, rfl⟩ := List.mem_map.mp (h.running n hn)
  obtain ⟨hholder, hticket⟩ := (h.fits z hz).running.mp hn
  unfold Timedata.list at hz
  rw [tags_append] at hz
  rcases List.mem_append.mp hz with hz | hz
  · rw [serials_tags]
    exact List.mem_map_of_mem hz
  · have := h.first z hz hticket
    omega

/-- **What the callers rely on** follows. -/
theorem Kept.sound (h : Kept s) : s.Sound := by
  refine ⟨h.once, h.cancelled, fun n hn hr => ?_, ?_, fun w hw => ?_, fun n hn => h.called hn,
    fun hrunning hwaiting htickets => ?_⟩
  · obtain ⟨z, hz, rfl⟩ := List.mem_map.mp (h.running n hr)
    have hfits := h.fits z hz
    exact absurd (hfits.past (.inr hn)) (by rw [(hfits.running.mp hr).1]; omega)
  · rw [serials_tags]
    exact h.cells
  · rw [serials_tags]
    exact h.waiting w hw
  · rw [reap_run, List.dropWhile_eq_nil_iff]
    intro scan hscan
    have hfits := h.fits _ (run_tags hscan)
    have hle : scan.tTicketHolder ≤ scan.tTicket := hfits.held
    have hne := htickets scan hscan
    have hholder : scan.tTicketHolder ≠ 0 := fun h0 =>
      absurd (hfits.running.mpr ⟨h0, Nat.pos_of_ne_zero hne⟩)
        (by rw [hrunning]; exact List.not_mem_nil)
    have heq : scan.tTicketHolder = scan.tTicket := by
      by_contra hlt
      have hw := (hfits.waiting scan.tTicketHolder).mpr
        ⟨max_le le_rfl (Nat.one_le_iff_ne_zero.mpr hholder), lt_of_le_of_ne hle hlt⟩
      rw [hwaiting] at hw
      exact absurd hw List.not_mem_nil
    exact decide_eq_true ⟨heq, hne⟩

/-- **The tickets**: in every run in which no cell gives out its 256th ticket, the calls do what
    their callers rely on. -/
theorem tickets_kept (h : Reach Calls.Initial Calls.step Calls.Few s) : s.Sound := by
  have hkept : Kept s :=
    h.invariant (fun s hs => hs.kept) fun s e s' hs hok hstep => hs.step hok hstep
  exact hkept.sound

/-- No request yet. -/
def noCalls : Calls :=
  ⟨⟨0, [], []⟩, [], [], 0, fun _ => 0, fun _ => false, fun _ => false, []⟩

theorem noCalls_initial : noCalls.Initial :=
  ⟨rfl, rfl, rfl, rfl, fun _ => rfl, fun _ => rfl, fun _ => rfl, rfl⟩

/-- Every processor may run every cell. -/
def anyCell : ℕ → Bool := fun _ => true

/-- A function runs while an `untimeout` for it waits. -/
theorem tickets_kept_waiting : ∃ s : Calls, s.running = [0] ∧ s.waiting = [(0, 1)] ∧ s.Sound := by
  have h₀ : Reach Calls.Initial Calls.step Calls.Few noCalls := Reach.init noCalls_initial
  have hq : noCalls.Few (.queue 1 true) := trivial
  have h₁ := h₀.step hq rfl
  have h₂ := h₁.step (show Calls.Few _ .check from trivial) rfl
  have h₃ := h₂.step (show Calls.Few _ (.run anyCell) from trivial) rfl
  have h₄ := h₃.step (show Calls.Few _ (.untimeout 1) by unfold Calls.Few; decide) rfl
  exact ⟨_, rfl, rfl, tickets_kept h₄⟩

/-- **The tickets wrap around**: the function of a cell whose request has been cancelled runs, after
    256 calls of `untimeout` for it. -/
theorem cancelled_runs : ¬ ∀ s, Reach Calls.Initial Calls.step (fun _ _ => True) s → s.Sound := by
  intro hall
  have heval : (runFrom Calls.step noCalls ([.queue 1 true, .check] ++
      List.replicate 256 (.untimeout 1) ++ [.run anyCell])).any
        (fun s => s.cancelled 0 && s.runs 0 == 1) = true := by
    decide +kernel
  obtain ⟨s, hs, hend⟩ := (Option.any_eq_true _ _).mp heval
  rw [Bool.and_eq_true, beq_iff_eq] at hend
  have hsound := hall s (Reach.run (fun _ _ => trivial) (Reach.init noCalls_initial) hs)
  exact absurd (hend.2.symm.trans (hsound.cancelled 0 hend.1)) one_ne_zero

end CohKernel.DdiTime
