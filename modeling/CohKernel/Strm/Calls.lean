import Mathlib.Data.List.TakeWhile
import CohKernel.Strm.Defs

namespace CohKernel.Strm

open CohKernel.Lib

/-!
# What a call does

No call stores `q_bandp`, so that a queue never gets its bands; an ordinary message of a band above
0 is then not queued.  This file has the parts of the calls that do not try to queue one.
-/

variable {μ : Type}

/-! ### What counts -/

/-- The links, the messages and the flow control of a queue. -/
structure Core (μ : Type) where
  link : Deque μ
  msg : μ → Msgb
  count : UInt32
  hiwat : UInt32
  lowat : UInt32
  full : Bool
  wantw : Bool
  back : Bool

namespace Core

/-- A message is a high-priority message. -/
def isPri (c : Core μ) (mp : μ) : Bool := pcmsg (c.msg mp).dbType

/-- More bytes are queued. -/
def grow (c : Core μ) (n : UInt32) : Core μ :=
  { c with count := c.count + n, full := c.full || decide (c.hiwat < c.count + n) }

/-- The mark is cleared, and whoever waits for it is back-enabled. -/
def clear (c : Core μ) : Core μ :=
  { c with full := false, wantw := false, back := c.back || c.wantw }

/-- Fewer bytes are queued. -/
def shrink (c : Core μ) (n : UInt32) : Core μ :=
  let c := { c with count := c.count - n }
  if c.full ∧ c.count ≤ c.lowat then c.clear else c

/-- A message counts, unless it is a high-priority message. -/
def charge (c : Core μ) (mp : μ) : Core μ := if c.isPri mp then c else c.grow (msgSize (c.msg mp))

/-- A message does not count any more. -/
def discharge (c : Core μ) (mp : μ) : Core μ :=
  if c.isPri mp then c else c.shrink (msgSize (c.msg mp))

/-- A message is filled. -/
def fill [DecidableEq μ] (c : Core μ) (mp : μ) (m : Msgb) : Core μ :=
  { c with msg := Function.update c.msg mp m }

/-- The links of the messages are stored. -/
def setLink (c : Core μ) (link : Deque μ) : Core μ := { c with link := link }

/-- The watermarks are set. -/
def setMarks (c : Core μ) (lowat hiwat : Option UInt32) : Core μ :=
  let c := lowat.elim c fun lowat => { c with lowat := lowat }.shrink 0
  hiwat.elim c fun hiwat => { c with hiwat := hiwat, full := c.full || decide (hiwat < c.count) }

/-- A test has found the queue full. -/
def want (c : Core μ) : Core μ := { c with wantw := c.wantw || c.full }

/-- The messages are linked, the high-priority messages first, and all are of band 0. -/
structure Plain (c : Core μ) (ms : List μ) : Prop where
  holds : c.link.Holds ms
  ordered : ms.Pairwise fun x y => c.isPri y = true → c.isPri x = true
  band : ∀ x ∈ ms, (c.msg x).bBand = 0

end Core

/-- What counts of a queue. -/
def Queue.core (q : Queue μ) : Core μ :=
  ⟨q.link, q.msg, q.qCount, q.qHiwat, q.qLowat, q.qfull, q.qwantw, q.qback⟩

/-- What counts of what a call leaves; a back-enabling that the call goes on to is one that is due.
    -/
def Ret.core (r : Ret μ) : Core μ := { r.q.core with back := r.q.qback || r.back }

/-! ### Messages in order -/

namespace Core

variable {c c' : Core μ} {ms a b : List μ} {x : μ}

/-- Only the links and the messages count. -/
theorem Plain.congr (h : c.Plain ms) (hlink : c'.link.Holds ms)
    (hmsg : ∀ x ∈ ms, c'.msg x = c.msg x) : c'.Plain ms := by
  have hpri : ∀ x ∈ ms, c'.isPri x = c.isPri x := fun x hx => by unfold isPri; rw [hmsg x hx]
  refine ⟨hlink, ?_, fun x hx => ?_⟩
  · refine h.ordered.imp_of_mem ?_
    intro x y hx hy hxy
    rw [hpri x hx, hpri y hy]
    exact hxy
  · rw [hmsg x hx]
    exact h.band x hx

/-- The ordinary messages come last. -/
theorem Plain.ordinary (h : c.Plain ms) (hx : x ∈ ms.dropWhile c.isPri) : c.isPri x = false := by
  have hordered := h.ordered
  clear h
  induction ms with
  | nil => cases hx
  | cons y ms ih =>
    obtain ⟨hy, hrest⟩ := List.pairwise_cons.mp hordered
    cases hpri : c.isPri y with
    | true =>
      rw [List.dropWhile_cons_of_pos hpri] at hx
      exact ih hx hrest
    | false =>
      rw [List.dropWhile_cons_of_neg (by simp [hpri])] at hx
      rcases List.mem_cons.mp hx with rfl | hx
      · exact hpri
      · exact Bool.eq_false_iff.mpr fun hc => Bool.false_ne_true (hpri.symm.trans (hy x hx hc))

theorem charge_link (c : Core μ) (mp : μ) : (c.charge mp).link = c.link := by
  unfold charge
  split <;> rfl

theorem charge_msg (c : Core μ) (mp : μ) : (c.charge mp).msg = c.msg := by
  unfold charge
  split <;> rfl

theorem shrink_link (c : Core μ) (n : UInt32) : (c.shrink n).link = c.link := by
  unfold shrink
  dsimp only
  split <;> rfl

theorem shrink_msg (c : Core μ) (n : UInt32) : (c.shrink n).msg = c.msg := by
  unfold shrink
  dsimp only
  split <;> rfl

theorem discharge_link (c : Core μ) (mp : μ) : (c.discharge mp).link = c.link := by
  unfold discharge
  split
  · rfl
  · exact c.shrink_link _

theorem discharge_msg (c : Core μ) (mp : μ) : (c.discharge mp).msg = c.msg := by
  unfold discharge
  split
  · rfl
  · exact c.shrink_msg _

theorem setMarks_link (c : Core μ) (lowat hiwat : Option UInt32) :
    (c.setMarks lowat hiwat).link = c.link := by
  cases lowat <;> cases hiwat <;> first | rfl | exact shrink_link _ _

theorem setMarks_msg (c : Core μ) (lowat hiwat : Option UInt32) :
    (c.setMarks lowat hiwat).msg = c.msg := by
  cases lowat <;> cases hiwat <;> first | rfl | exact shrink_msg _ _

end Core

/-- The queue has no bands. -/
structure Queue.Bandless (q : Queue μ) : Prop where
  bandp : q.qBandp = none
  nband : q.qNband = 0

/-- A part of a call changes what counts, and leaves the bands and the lock alone. -/
structure Part (q : Queue μ) (c : Core μ) (q' : Queue μ) : Prop where
  core : q'.core = c
  bandp : q'.qBandp = q.qBandp
  nband : q'.qNband = q.qNband
  locked : q'.qLocked = q.qLocked

/-- What a call leaves. -/
structure Leaves (q : Queue μ) (c : Core μ) (locked : Bool) (r : Ret μ) : Prop where
  core : r.core = c
  bandp : r.q.qBandp = q.qBandp
  nband : r.q.qNband = q.qNband
  locked : r.q.qLocked = locked

section Parts

variable {q q' q'' : Queue μ} {c c' : Core μ} {n : UInt32} {band pri : UInt8}

theorem Part.refl (q : Queue μ) : Part q q.core q := ⟨rfl, rfl, rfl, rfl⟩

theorem Part.trans (h : Part q c q') (h' : Part q' c' q'') : Part q c' q'' :=
  ⟨h'.core, h'.bandp.trans h.bandp, h'.nband.trans h.nband, h'.locked.trans h.locked⟩

theorem Leaves.bandless {locked : Bool} {r : Ret μ} (h : Leaves q c locked r) (hq : q.Bandless) :
    r.q.Bandless := ⟨h.bandp.trans hq.bandp, h.nband.trans hq.nband⟩

theorem Part.ret (h : Part q c q') (val : Bool) : Leaves q c q.qLocked ⟨q', val, false⟩ := by
  refine ⟨?_, h.bandp, h.nband, h.locked⟩
  show { q'.core with back := q'.qback || false } = c
  rw [Bool.or_false]
  exact h.core

theorem Part.unfreeze (h : Part (q.setLocked true) c q') (val : Bool) :
    Leaves q c false ⟨q'.unfreeze, val, false⟩ := by
  refine ⟨?_, h.bandp, h.nband, rfl⟩
  show { q'.core with back := q'.qback || false } = c
  rw [Bool.or_false]
  exact h.core

theorem Part.release (h : Part (q.setLocked true) c q') (val : Bool) :
    Leaves q c false (q'.release val) := by
  refine ⟨?_, h.bandp, h.nband, rfl⟩
  show { q'.core with back := false || q'.qback } = c
  rw [Bool.false_or]
  exact h.core

namespace Queue

theorem queueBand_none (h : q.qBandp = none) : q.queueBand pri = none := by
  unfold queueBand
  rw [h]
  exact Function.iterate_fixed rfl _

theorem freeze_eq (h : q.qLocked = false) : q.freeze = .ok (q.setLocked true) := by
  rw [freeze, if_neg (by simp [h])]

theorem queueTrysched_part (q : Queue μ) : Part q q.core q.queueTrysched.1 := by
  unfold queueTrysched
  split <;> exact ⟨rfl, rfl, rfl, rfl⟩

theorem checkSched_part (q : Queue μ) (band : UInt8) : Part q q.core (q.checkSched band) := by
  unfold checkSched
  split
  · have hband : Part q q.core { q with qLastband := band } := ⟨rfl, rfl, rfl, rfl⟩
    exact hband.trans (queueTrysched_part _)
  · exact Part.refl q

/-- A watermark is passed. -/
theorem mark_part (q : Queue μ) (hiwat : UInt32) :
    Part q { q.core with full := q.qfull || decide (hiwat < q.qCount) }
      (if hiwat < q.qCount then { q with qfull := true } else q) := by
  split <;> rename_i h
  · rw [decide_eq_true h, Bool.or_true]
    exact ⟨rfl, rfl, rfl, rfl⟩
  · rw [decide_eq_false h, Bool.or_false]
    exact ⟨rfl, rfl, rfl, rfl⟩

theorem queueIncrease_part (q : Queue μ) (n : UInt32) :
    Part q (q.core.grow n) (q.queueIncrease n) := by
  have hcount : Part q { q.core with count := q.qCount + n } { q with qCount := q.qCount + n } :=
    ⟨rfl, rfl, rfl, rfl⟩
  exact hcount.trans (mark_part _ _)

theorem queueReduce_part (q : Queue μ) (n : UInt32) :
    Part q (q.core.shrink n) (q.queueReduce n) := by
  have hcore : (q.queueReduce n).core = q.core.shrink n := by
    show Queue.core (if q.qfull = true ∧ q.qCount - n ≤ q.qLowat then _ else _) =
      if q.qfull = true ∧ q.qCount - n ≤ q.qLowat then _ else _
    split <;> rfl
  refine ⟨hcore, ?_, ?_, ?_⟩
  all_goals
    unfold queueReduce
    dsimp only
    split <;> rfl

theorem setMarks_part (q : Queue μ) (lowat hiwat : Option UInt32) :
    Part q (q.core.setMarks lowat hiwat) (q.setMarks lowat hiwat) := by
  have hhiwat : ∀ q : Queue μ, Part q
      (hiwat.elim q.core fun hiwat =>
        { q.core with hiwat := hiwat, full := q.core.full || decide (hiwat < q.core.count) })
      (hiwat.elim q fun hiwat =>
        if hiwat < q.qCount then { q with qHiwat := hiwat, qfull := true }
        else { q with qHiwat := hiwat }) := by
    intro q
    cases hiwat with
    | none => exact Part.refl q
    | some hiwat =>
      have hset : Part q { q.core with hiwat := hiwat } { q with qHiwat := hiwat } :=
        ⟨rfl, rfl, rfl, rfl⟩
      exact hset.trans (mark_part _ _)
  cases lowat with
  | none => exact hhiwat q
  | some lowat =>
    have hlowat : Part q ({ q.core with lowat := lowat }.shrink 0)
        ({ q with qLowat := lowat }.queueReduce 0) := by
      have hset : Part q { q.core with lowat := lowat } { q with qLowat := lowat } :=
        ⟨rfl, rfl, rfl, rfl⟩
      exact hset.trans (queueReduce_part _ _)
    have h := hlowat.trans (hhiwat _)
    rw [hlowat.core] at h
    exact h

section Searching

variable [Fintype μ] {ms : List μ}

theorem chain_eq (h : q.link.Holds ms) : q.chain = ms := by
  refine walk_eq ?_ (List.Nodup.length_le_card h.nodup)
  have hfrom : ∀ a b : List μ, q.link.Holds (a ++ b) →
      Linked (fun mp => q.link.next (some mp)) b.head? b := by
    intro a b
    induction b generalizing a with
    | nil => exact fun _ => rfl
    | cons x b ih =>
      intro h
      refine ⟨rfl, ?_⟩
      show Linked _ (q.link.next (some x)) b
      rw [h.next_cell]
      exact ih (a ++ [x]) (by simpa using h)
  show Linked _ (q.link.next none) ms
  rw [h.first_eq]
  exact hfrom [] ms h

/-- `QUEUE_PLACE_MSG` looks for the first ordinary message. -/
theorem findPlace_eq (h : q.core.Plain ms) (band : UInt8) :
    q.findPlace band = (ms.dropWhile q.isPri).head? := by
  have hfirst : q.link.next none = ms.head? := h.holds.first_eq
  have hholds : q.link.Holds ([] ++ ms) := h.holds
  have hsplit : q.link.Holds (ms.takeWhile q.isPri ++ ms.dropWhile q.isPri) := by
    rw [List.takeWhile_append_dropWhile]
    exact h.holds
  have hlen := List.Nodup.length_le_card h.holds.nodup
  unfold findPlace
  rw [qFirst, hfirst, hholds.skip q.isPri hlen, hsplit.skip _
    ((List.length_dropWhile_le _ _).trans hlen)]
  congr 1
  apply List.dropWhile_eq_self_iff.mpr
  intro hpos
  have hband : (q.msg _).bBand = 0 :=
      h.band _ ((List.dropWhile_sublist _).mem (List.getElem_mem hpos))
  simp [hband]

end Searching

section Linking

variable [DecidableEq μ]

theorem linkBefore_part (q : Queue μ) (mp : μ) (scan : Option μ) :
    Part q (q.core.setLink (q.link.insert (q.link.prev scan) mp scan)) (q.linkBefore mp scan) :=
  ⟨rfl, rfl, rfl, rfl⟩

theorem unlink_part (q : Queue μ) (prev : Option μ) (mp : μ) :
    Part q (q.core.setLink (q.link.join prev (q.link.next (some mp)))) (q.unlink prev mp) := by
  unfold unlink
  dsimp only
  split <;> split <;> exact ⟨rfl, rfl, rfl, rfl⟩

/-- A message that is taken off counts no more. -/
theorem takeOff_part {mp : μ} (hband : (q.msg mp).bBand = 0) :
    ∃ q', q.takeOff mp = .ok q' ∧ Part q (q.core.discharge mp) q' := by
  show ∃ q', _ ∧ Part q (if q.isPri mp = true then q.core else q.core.shrink (msgSize (q.msg mp)))
    q'
  unfold takeOff
  by_cases hpri : q.isPri mp = true
  · rw [if_pos hpri, if_pos hpri]
    exact ⟨q, rfl, Part.refl q⟩
  · rw [if_neg hpri, if_neg hpri, if_neg (by simp [hband])]
    exact ⟨_, rfl, queueReduce_part q _⟩

end Linking

end Queue

end Parts

end CohKernel.Strm
