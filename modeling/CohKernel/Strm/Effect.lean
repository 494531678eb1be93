import CohKernel.Strm.Put

namespace CohKernel.Strm

open CohKernel.Lib

/-!
# The effect of a call

What the calls do that take messages off, that test the queue and that change its options; and what
any call does.

* `Queue.exec_effect` — the effect of a call;
* `Effect.plain` — the messages stay in order.
-/

variable {μ : Type} [DecidableEq μ] [Fintype μ]

/-! ### Messages that are taken off -/

section Take

variable {q : Queue μ} {c : Core μ} {ms a b : List μ} {mp : μ} {all : Bool}

omit [Fintype μ] in
/-- A message is unlinked, and counts no more. -/
theorem Queue.take_part (h : q.core.Plain (a ++ mp :: b)) :
    ∃ q', (q.unlink a.getLast? mp).takeOff mp = .ok q' ∧
      Part q ((q.core.setLink (q.link.join a.getLast? b.head?)).discharge mp) q' := by
  have hnext : q.link.next (some mp) = b.head? := h.holds.next_cell
  have hunlink := Queue.unlink_part q a.getLast? mp
  rw [hnext] at hunlink
  have hmsg : (q.unlink a.getLast? mp).msg = q.msg := congrArg Core.msg hunlink.core
  have hband : ((q.unlink a.getLast? mp).msg mp).bBand = 0 := by
    rw [hmsg]
    exact h.band mp (List.mem_append_right a List.mem_cons_self)
  obtain ⟨q', hq', hpart⟩ := Queue.takeOff_part hband
  rw [hunlink.core] at hpart
  exact ⟨q', hq', hunlink.trans hpart⟩

/-- `getq` takes the first message off. -/
theorem Queue.getq_effect (hl : q.qLocked = false) (h : q.core.Plain ms) :
    ∃ r c' ms', q.exec .getq = .ok r ∧ Effect q.core ms .getq c' ms' ∧ Leaves q c' false r := by
  have hfirst : (q.setLocked true).qFirst = ms.head? := h.holds.first_eq
  cases ms with
  | nil =>
    have hpart : Part (q.setLocked true) q.core { q.setLocked true with qwantr := true } :=
      ⟨rfl, rfl, rfl, rfl⟩
    refine ⟨_, _, _, ?_, .tune rfl (fun _ => rfl) rfl (fun mp he => by cases he),
      hpart.release false⟩
    show q.getq = _
    unfold Queue.getq
    rw [Queue.freeze_eq hl]
    simp only [bind, Except.bind, hfirst, List.head?_nil]
  | cons mp b =>
    obtain ⟨q', hq', hpart⟩ := Queue.take_part (q := q.setLocked true) (a := []) (b := b) h
    rw [List.getLast?_nil] at hq'
    refine ⟨q'.release true, _, _, ?_, .take (a := []) (b := b) rfl rfl, hpart.release true⟩
    show q.getq = _
    unfold Queue.getq
    rw [Queue.freeze_eq hl]
    simp only [bind, Except.bind, hfirst, List.head?_cons, hq']

/-- `rmvq` takes a message off. -/
theorem Queue.rmvq_effect (h : q.core.Plain ms) (hmp : mp ∈ ms) :
    ∃ r c' ms', q.exec (.rmvq mp) = .ok r ∧ Effect q.core ms (.rmvq mp) c' ms' ∧
      Leaves q c' q.qLocked r := by
  obtain ⟨a, b, rfl⟩ := List.append_of_mem hmp
  have hprev : q.link.prev (some mp) = a.getLast? := h.holds.prev_cell
  obtain ⟨q', hq', hpart⟩ := Queue.take_part h
  show ∃ r c' ms', q.rmvq mp = .ok r ∧ _
  unfold Queue.rmvq
  rw [hprev, hq']
  exact ⟨_, _, _, rfl, .take rfl rfl, hpart.ret true⟩

omit [DecidableEq μ] [Fintype μ] in
theorem Core.total_cons (c : Core μ) (x : μ) (ms : List μ) :
    c.total (x :: ms) = (if c.isPri x then 0 else msgSize (c.msg x)) + c.total ms := by
  unfold Core.total
  cases h : c.isPri x with
  | true => simp [h]
  | false => simp [h]

omit [Fintype μ] in
/-- The loop of `flushq` unlinks the messages that are flushed. -/
theorem Queue.flushLoop_eq (all : Bool) (hband : ∀ x ∈ b, (q.msg x).bBand = 0)
    (h : q.link.Holds (a ++ b))
    {fuel : ℕ} (hfuel : b.length ≤ fuel) (size : UInt32) :
    ∃ link, flushLoop all fuel q b.head? size =
        (q.setLink link, size + q.core.total (b.filter fun mp => !q.core.spares all mp)) ∧
      link.Holds (a ++ b.filter (q.core.spares all)) := by
  induction b generalizing a fuel size q with
  | nil =>
    refine ⟨q.link, ?_, by simpa using h⟩
    have hsize : size + q.core.total [] = size := UInt32.add_zero size
    show flushLoop all fuel q none size = (q, size + q.core.total [])
    rw [hsize]
    cases fuel <;> rfl
  | cons x b ih =>
    cases fuel with
    | zero => cases hfuel
    | succ fuel =>
      have hfuel' := Nat.le_of_succ_le_succ hfuel
      have hx := hband x List.mem_cons_self
      show ∃ link, (if (q.msg x).bBand = 0 ∧ (all || datamsg (q.msg x).dbType) = true then _ else _)
        =
        _ ∧ _
      rw [h.next_cell]
      by_cases hfree : (all || datamsg (q.msg x).dbType) = true
      · have hspares : q.core.spares all x = false := by
          show (!(all || datamsg (q.msg x).dbType)) = false
          rw [hfree]
          rfl
        rw [if_pos ⟨hx, hfree⟩, List.filter_cons_of_pos (by simp [hspares]),
          List.filter_cons_of_neg (by simp [hspares]), Core.total_cons, ← UInt32.add_assoc]
        obtain ⟨link, hloop, hholds⟩ := ih (q := q.setLink (q.link.remove x)) (a := a)
          (fun y hy => hband y (List.mem_cons_of_mem x hy)) h.remove hfuel'
          (if q.isPri x then size else size + msgSize (q.msg x))
        refine ⟨link, hloop.trans ?_, hholds⟩
        have hsize : (if q.isPri x = true then size else size + msgSize (q.msg x)) =
            size + (if q.core.isPri x = true then 0 else msgSize (q.core.msg x)) := by
          show (if q.isPri x = true then _ else _) = _ + if q.isPri x = true then _ else _
          split
          · exact (UInt32.add_zero size).symm
          · rfl
        rw [hsize]
        rfl
      · have hspares : q.core.spares all x = true := by
          rw [Bool.not_eq_true] at hfree
          show (!(all || datamsg (q.msg x).dbType)) = true
          rw [hfree]
          rfl
        rw [if_neg fun hc => hfree hc.2, List.filter_cons_of_neg (by simp [hspares]),
          List.filter_cons_of_pos hspares]
        obtain ⟨link, hloop, hholds⟩ := ih (a := a ++ [x])
          (fun y hy => hband y (List.mem_cons_of_mem x hy)) (by simpa using h) hfuel' size
        exact ⟨link, hloop, by simpa using hholds⟩

/-- `flushq` takes the messages off that it flushes. -/
theorem Queue.flushq_effect {e : Event μ} (hl : q.qLocked = false) (h : q.core.Plain ms)
    (he : e.flushes = some all) :
    ∃ r c' ms', q.flushq all = .ok r ∧ Effect q.core ms e c' ms' ∧ Leaves q c' false r := by
  have hfirst : (q.setLocked true).qFirst = ms.head? := h.holds.first_eq
  obtain ⟨link, hloop, hholds⟩ := Queue.flushLoop_eq (q := q.setLocked true) (a := []) (b := ms)
    all h.band h.holds (List.Nodup.length_le_card h.holds.nodup) 0
  rw [UInt32.zero_add] at hloop
  show ∃ r c' ms', q.flushq all = .ok r ∧ _
  unfold Queue.flushq
  rw [Queue.freeze_eq hl]
  show ∃ r c' ms', Except.ok (((flushLoop all (Fintype.card μ) (q.setLocked true)
    (q.setLocked true).qFirst 0).1.queueReduce _).release true) = Except.ok r ∧ _
  rw [hfirst, hloop]
  have hpart := Queue.queueReduce_part ((q.setLocked true).setLink link)
    (q.core.total (ms.filter fun mp => !q.core.spares all mp))
  exact ⟨_, _, _, rfl, .flush he hholds,
    (Part.mk (q := q.setLocked true) hpart.core hpart.bandp hpart.nband hpart.locked).release true⟩

end Take

/-! ### Tests and options -/

section Tune

variable {q : Queue μ} {c : Core μ} {ms : List μ} {pri : UInt8} {alloc : Bool}

omit [DecidableEq μ] [Fintype μ] in
/-- A test of the queue. -/
theorem Queue.want_part (q : Queue μ) :
    Part q q.core.want (if q.qfull then { q with qwantw := true } else q) := by
  by_cases hfull : q.qfull = true
  · have hwant : q.core.want = { q.core with wantw := true } := by
      show { q.core with wantw := q.qwantw || q.qfull } = _
      rw [hfull, Bool.or_true]
    rw [if_pos hfull, hwant]
    exact ⟨rfl, rfl, rfl, rfl⟩
  · have hwant : q.core.want = q.core := by
      show { q.core with wantw := q.qwantw || q.qfull } = _
      rw [Bool.eq_false_iff.mpr hfull, Bool.or_false]
      rfl
    rw [if_neg hfull, hwant]
    exact Part.refl q

theorem Queue.canput_effect (hl : q.qLocked = false) :
    ∃ r, q.exec .canput = .ok r ∧ Leaves q (q.core.tune .canput) false r := by
  have hpart := Queue.want_part (q.setLocked true)
  show ∃ r, q.canput = .ok r ∧ _
  unfold Queue.canput
  rw [Queue.freeze_eq hl]
  show ∃ r, (if (q.setLocked true).qfull = true then _ else _) = _ ∧ _
  cases hfull : (q.setLocked true).qfull with
  | true =>
    rw [hfull, if_pos rfl] at hpart
    exact ⟨_, rfl, hpart.unfreeze false⟩
  | false =>
    rw [hfull, if_neg Bool.false_ne_true] at hpart
    exact ⟨_, rfl, hpart.unfreeze true⟩

omit [DecidableEq μ] [Fintype μ] in
/-- `QBAND_CANPUT` finds no bands. -/
theorem Queue.qbandCanput_part (hq : q.Bandless) (pri : UInt8) :
    Part q (if pri = 0 then q.core.want else q.core) (q.qbandCanput pri).1 := by
  unfold Queue.qbandCanput
  by_cases hpri : pri = 0
  · rw [if_pos hpri, if_neg (by simp [hpri])]
    have hpart := Queue.want_part q
    cases hfull : q.qfull with
    | true =>
      rw [hfull, if_pos rfl] at hpart
      exact hpart
    | false =>
      rw [hfull, if_neg Bool.false_ne_true] at hpart
      exact hpart
  · rw [if_neg hpri, if_pos (UInt8.pos_iff_ne_zero.mpr hpri), Queue.queueBand_none hq.bandp]
    exact Part.refl q

theorem Queue.bcanput_effect (hq : q.Bandless) (hl : q.qLocked = false) :
    ∃ r, q.exec (.bcanput pri) = .ok r ∧ Leaves q (q.core.tune (.bcanput pri)) false r := by
  have hpart := Queue.qbandCanput_part (q := q.setLocked true) ⟨hq.bandp, hq.nband⟩ pri
  show ∃ r, q.bcanput pri = .ok r ∧ _
  unfold Queue.bcanput
  rw [Queue.freeze_eq hl]
  exact ⟨_, rfl, hpart.unfreeze _⟩

section

omit [DecidableEq μ] [Fintype μ]

theorem Queue.setBand_band (q : Queue μ) (n : ℕ) (f : Qband μ → Qband μ) :
    (q.setBand n f).band n = f (q.band n) := Function.update_self _ _ _

/-- A band that is not full is reduced. -/
theorem Queue.qbandReduce_eq {n : ℕ} {k : UInt32} (hfull : (q.band n).qbFull = false) :
    q.qbandReduce n k = .ok (q.setBand n fun x => { x with qbCount := x.qbCount - k }) := by
  unfold Queue.qbandReduce
  dsimp only
  rw [Queue.setBand_band]
  apply if_pos
  rw [hfull]
  rfl

/-- A band that stays below its mark is increased. -/
theorem Queue.qbandIncrease_eq {n : ℕ} {k : UInt32} (hfull : (q.band n).qbFull = false)
    (hmark : ¬ (q.band n).qbHiwat ≤ (q.band n).qbCount + k) :
    q.qbandIncrease n k = .ok (q.setBand n fun x => { x with qbCount := x.qbCount + k }) := by
  unfold Queue.qbandIncrease
  dsimp only
  rw [Queue.setBand_band, if_neg (by simp [hfull]), if_neg hmark]

/-- The watermarks of a band that is not in the queue. -/
theorem Queue.setBandMarks_part {n : ℕ} (lowat : Option UInt32) {hiwat : Option UInt32}
    (hn : q.band n = Qband.zero μ none) (hhiwat : hiwat ≠ some 0) :
    ∃ q', q.setBandMarks n lowat hiwat = .ok q' ∧ Part q q.core q' := by
  obtain ⟨q', hq', hpart, hfull, hcount⟩ : ∃ q', (lowat.elim (.ok q) fun lowat =>
      (q.setBand n fun x => { x with qbLowat := lowat }).qbandReduce n 0 : Except Halt (Queue μ)) =
        .ok q' ∧ Part q q.core q' ∧ (q'.band n).qbFull = false ∧ (q'.band n).qbCount = 0 := by
    cases lowat with
    | none => exact ⟨q, rfl, Part.refl q, by rw [hn]; rfl, by rw [hn]; rfl⟩
    | some lowat =>
      refine ⟨_, Queue.qbandReduce_eq (by rw [Queue.setBand_band, hn]; rfl), ⟨rfl, rfl, rfl, rfl⟩,
        ?_, ?_⟩
      · rw [Queue.setBand_band, Queue.setBand_band, hn]
        rfl
      · rw [Queue.setBand_band, Queue.setBand_band, hn]
        exact UInt32.sub_zero 0
  unfold Queue.setBandMarks
  rw [hq']
  cases hiwat with
  | none => exact ⟨q', rfl, hpart⟩
  | some hiwat =>
    refine ⟨_, Queue.qbandIncrease_eq ?_ ?_, hpart.core, hpart.bandp, hpart.nband, hpart.locked⟩
    · rw [Queue.setBand_band]
      exact hfull
    · rw [Queue.setBand_band]
      show ¬ hiwat ≤ (q'.band n).qbCount + 0
      rw [hcount]
      intro hle
      apply hhiwat
      rw [UInt32.add_zero] at hle
      exact congrArg some (UInt32.toNat_inj.mp (Nat.le_zero.mp (UInt32.le_iff_toNat_le.mp hle)))

end

/-- `QBAND_SETOPT` sets the watermarks of the queue; those of a band are lost. -/
theorem Queue.setopt_effect {lowat hiwat : Option UInt32} {band : Option UInt8} (hq : q.Bandless)
    (hl : q.qLocked = false) (hreg : q.regular (.setopt lowat hiwat band alloc) = true) :
    ∃ r, q.exec (.setopt lowat hiwat band alloc) = .ok r ∧
      Leaves q (q.core.tune (.setopt lowat hiwat band alloc)) false r := by
  obtain ⟨hsome, hband⟩ := Bool.and_eq_true_iff.mp hreg
  have hnone : (lowat.isNone && hiwat.isNone) = false := by
    cases lowat <;> cases hiwat <;> first | rfl | cases hsome
  show ∃ r, q.qbandSetopt lowat hiwat band alloc = .ok r ∧
    Leaves q (if band.any (0 < ·) then q.core else q.core.setMarks lowat hiwat) false r
  unfold Queue.qbandSetopt
  rw [Queue.freeze_eq hl]
  simp only [bind, Except.bind, hnone, Bool.false_eq_true, if_false]
  cases hfilter : band.filter (0 < ·) with
  | none =>
    have hany : band.any (0 < ·) = false := by
      cases band with
      | none => rfl
      | some pri => simpa using hfilter
    rw [hany, if_neg Bool.false_ne_true]
    exact ⟨_, rfl, (Queue.setMarks_part (q.setLocked true) lowat hiwat).release true⟩
  | some pri =>
    obtain ⟨rfl, hpri⟩ := Option.filter_eq_some_iff.mp hfilter
    have hany : (some pri).any (0 < ·) = true := hpri
    obtain ⟨q', n, hget, hpart, hsome', hzero⟩ :=
      Queue.getBand_bandless (q := q.setLocked true) ⟨hq.bandp, hq.nband⟩ pri alloc
    rw [hany, if_pos rfl]
    dsimp only
    rw [hget]
    cases n with
    | none => exact ⟨_, rfl, hpart.unfreeze true⟩
    | some n =>
      have halloc : alloc = true := (Bool.and_eq_true_iff.mp hsome'.symm).1
      have hhiwat : hiwat ≠ some 0 := by
        rintro rfl
        rw [hany, halloc] at hband
        cases hband
      obtain ⟨q'', hq'', hpart'⟩ := Queue.setBandMarks_part lowat (hzero n rfl) hhiwat
      rw [hpart.core] at hpart'
      simp only [hq'']
      exact ⟨_, rfl, (hpart.trans hpart').release true⟩

/-- `strqset` sets the watermarks of the queue where it is asked for those of a band. -/
theorem Queue.strqset_effect (what : Qfields) (val : UInt32) (alloc : Bool) (hq : q.Bandless) :
    ∃ r, q.exec (.strqset what pri val alloc) = .ok r ∧
      Leaves q (q.core.tune (.strqset what pri val alloc)) q.qLocked r := by
  show ∃ r, q.strqset what pri val alloc = .ok r ∧ _
  unfold Queue.strqset
  by_cases hpri : 0 < pri
  · rw [if_pos hpri]
    cases what
    · have htune : q.core.tune (.strqset .QHIWAT pri val alloc) = { q.core with hiwat := val } :=
        if_pos hpri
      have hpart : Part q { q.core with hiwat := val } { q with qHiwat := val } :=
        ⟨rfl, rfl, rfl, rfl⟩
      rw [htune]
      exact ⟨_, rfl, hpart.ret true⟩
    · have htune : q.core.tune (.strqset .QLOWAT pri val alloc) = { q.core with lowat := val } :=
        if_pos hpri
      have hpart : Part q { q.core with lowat := val } { q with qLowat := val } :=
        ⟨rfl, rfl, rfl, rfl⟩
      rw [htune]
      exact ⟨_, rfl, hpart.ret true⟩
    · have hpart : Part q q.core { q with qMaxpsz := val } := ⟨rfl, rfl, rfl, rfl⟩
      exact ⟨_, rfl, hpart.ret true⟩
    · have hpart : Part q q.core { q with qMinpsz := val } := ⟨rfl, rfl, rfl, rfl⟩
      exact ⟨_, rfl, hpart.ret true⟩
  · rw [if_neg hpri]
    have htune : q.core.tune (.strqset what pri val alloc) = q.core := by
      cases what
      · exact if_neg hpri
      · exact if_neg hpri
      · rfl
      · rfl
    obtain ⟨q', n, hget, hpart, hsome, -⟩ := Queue.getBand_bandless hq pri alloc
    have hn : n = none := by
      rw [decide_eq_false hpri, Bool.and_false] at hsome
      exact Option.not_isSome_iff_eq_none.mp (by rw [hsome]; exact Bool.false_ne_true)
    subst hn
    rw [hget, htune]
    exact ⟨_, rfl, hpart.ret false⟩

end Tune

/-! ### Calls -/

section Calls

variable {q : Queue μ} {c c' : Core μ} {ms ms' : List μ} {e : Event μ} {held : Bool}

/-- **The effect of a call** that does not reach the code of the bands. -/
theorem Queue.exec_effect (hq : q.Bandless) (h : q.core.Plain ms) (hl : q.qLocked = held)
    (hall : q.allowed held e = true) (hreg : q.regular e = true) :
    ∃ r c' ms', q.exec e = .ok r ∧ Effect q.core ms e c' ms' ∧ Leaves q c' (e.holds held) r := by
  have hchain : q.chain = ms := Queue.chain_eq h.holds
  cases e with
  | freezestr =>
    obtain rfl : held = false := by simpa [Queue.allowed] using hall
    have hpart : Part q q.core q := Part.refl q
    refine ⟨⟨q.setLocked true, true, false⟩, _, _, ?_,
      .tune rfl (fun he => by cases he) rfl (fun mp he => by cases he),
      ⟨(hpart.ret true).core, rfl, rfl, rfl⟩⟩
    show q.freezestr = _
    unfold Queue.freezestr
    rw [Queue.freeze_eq hl]
    rfl
  | unfreezestr =>
    have hpart : Part (q.setLocked true) q.core q := by
      have hheld : held = true := hall
      exact ⟨rfl, rfl, rfl, hl.trans hheld⟩
    exact ⟨_, _, _, rfl, .tune rfl (fun he => by cases he) rfl (fun mp he => by cases he),
      hpart.release true⟩
  | qunfreeze =>
    have hpart : Part (q.setLocked true) q.core q := by
      have hheld : held = true := hall
      exact ⟨rfl, rfl, rfl, hl.trans hheld⟩
    exact ⟨_, _, _, rfl, .tune rfl (fun he => by cases he) rfl (fun mp he => by cases he),
      hpart.unfreeze true⟩
  | putq mp m alloc =>
    obtain ⟨hheld, hmp⟩ : held = false ∧ mp ∉ q.chain := by simpa [Queue.allowed] using hall
    subst hheld
    rw [hchain] at hmp
    exact Queue.putq_effect hl h hmp hreg
  | putbq mp m alloc =>
    obtain ⟨hheld, hmp⟩ : held = false ∧ mp ∉ q.chain := by simpa [Queue.allowed] using hall
    subst hheld
    rw [hchain] at hmp
    exact Queue.putbq_effect hl h hmp hreg
  | insq emp mp m alloc =>
    obtain ⟨⟨-, hmp⟩, hemp⟩ : (held = true ∧ mp ∉ q.chain) ∧
        (emp.all fun emp => decide (emp ∈ q.chain)) = true := by
      simpa [Queue.allowed] using hall
    rw [hchain] at hmp hemp
    subst hl
    refine Queue.insq_effect hq h hmp (fun x hx => ?_) hreg
    rw [hx] at hemp
    exact of_decide_eq_true hemp
  | getq =>
    obtain rfl : held = false := by simpa [Queue.allowed] using hall
    exact Queue.getq_effect hl h
  | rmvq mp =>
    obtain ⟨-, hmp⟩ : held = true ∧ mp ∈ q.chain := by simpa [Queue.allowed] using hall
    rw [hchain] at hmp
    subst hl
    exact Queue.rmvq_effect h hmp
  | flushq all =>
    obtain rfl : held = false := by simpa [Queue.allowed] using hall
    exact Queue.flushq_effect hl h rfl
  | flushband pri all =>
    obtain rfl : held = false := by simpa [Queue.allowed] using hall
    show ∃ r c' ms', q.flushband pri all = .ok r ∧ _
    unfold Queue.flushband
    by_cases hpri : pri = 0
    · rw [if_pos hpri]
      exact Queue.flushq_effect hl h (if_pos hpri)
    · rw [if_neg hpri, Queue.freeze_eq hl]
      have hnone : (q.setLocked true).queueBand pri = none :=
        Queue.queueBand_none hq.bandp
      simp only [bind, Except.bind, hnone]
      exact ⟨_, _, _, rfl, .tune rfl (fun he => by cases he) (if_neg hpri)
        (fun mp he => by cases he),
        (Part.refl (q.setLocked true)).release true⟩
  | canput =>
    obtain rfl : held = false := by simpa [Queue.allowed] using hall
    obtain ⟨r, hr, hleaves⟩ := Queue.canput_effect hl
    exact ⟨r, _, _, hr, .tune rfl (fun he => by cases he) rfl (fun mp he => by cases he), hleaves⟩
  | bcanput pri =>
    obtain rfl : held = false := by simpa [Queue.allowed] using hall
    obtain ⟨r, hr, hleaves⟩ := Queue.bcanput_effect hq hl
    exact ⟨r, _, _, hr, .tune rfl (fun he => by cases he) rfl (fun mp he => by cases he), hleaves⟩
  | setopt lowat hiwat band alloc =>
    obtain rfl : held = false := by simpa [Queue.allowed] using hall
    obtain ⟨r, hr, hleaves⟩ := Queue.setopt_effect hq hl hreg
    exact ⟨r, _, _, hr, .tune rfl (fun he => by cases he) rfl (fun mp he => by cases he), hleaves⟩
  | strqset what pri val alloc =>
    subst hl
    obtain ⟨r, hr, hleaves⟩ := Queue.strqset_effect what val alloc hq
    exact ⟨r, _, _, hr, .tune rfl (fun he => by cases he) rfl (fun mp he => by cases he), hleaves⟩

omit [DecidableEq μ] [Fintype μ] in
/-- Tests and options leave the messages alone. -/
theorem Core.tune_same (c : Core μ) (e : Event μ) :
    (c.tune e).link = c.link ∧ (c.tune e).msg = c.msg := by
  cases e with
  | bcanput pri =>
    show (if pri = 0 then c.want else c).link = _ ∧ (if pri = 0 then c.want else c).msg = _
    split <;> exact ⟨rfl, rfl⟩
  | setopt lowat hiwat band alloc =>
    show (if _ then c else c.setMarks lowat hiwat).link = _ ∧
      (if _ then c else c.setMarks lowat hiwat).msg = _
    split
    · exact ⟨rfl, rfl⟩
    · exact ⟨c.setMarks_link lowat hiwat, c.setMarks_msg lowat hiwat⟩
  | strqset what pri val alloc =>
    cases what
    · show (if _ then _ else _ : Core μ).link = _ ∧ (if _ then _ else _ : Core μ).msg = _
      split <;> exact ⟨rfl, rfl⟩
    · show (if _ then _ else _ : Core μ).link = _ ∧ (if _ then _ else _ : Core μ).msg = _
      split <;> exact ⟨rfl, rfl⟩
    · exact ⟨rfl, rfl⟩
    · exact ⟨rfl, rfl⟩
  | _ => exact ⟨rfl, rfl⟩

omit [Fintype μ] in
/-- A message that is put where it belongs keeps the messages in order. -/
theorem Core.Plain.put {a b : List μ} {mp : μ} {m : Msgb} (h : c.Plain (a ++ b)) (hmp : mp ∉ a ++ b)
    (hplaced : Placed (c.fill mp m.toBase) mp a b e) : (c.put a mp b m).Plain (a ++ mp :: b) := by
  have hfill := h.fill hmp m.toBase
  obtain ⟨ha, hb, hab⟩ := List.pairwise_append.mp hfill.ordered
  have hkind : ∀ x, (c.put a mp b m).isPri x = (c.fill mp m.toBase).isPri x := by
    intro x
    unfold Core.put Core.isPri
    rw [Core.charge_msg]
    rfl
  refine ⟨?_, ?_, ?_⟩
  · unfold Core.put
    rw [Core.charge_link]
    exact h.holds.insert hmp
  · simp only [hkind]
    refine List.pairwise_append.mpr ⟨ha, List.pairwise_cons.mpr ⟨?_, hb⟩, ?_⟩
    · intro x hx hpri
      by_contra hc
      exact Bool.false_ne_true
        ((hplaced.behind (Bool.eq_false_iff.mpr hc) x hx).symm.trans hpri)
    · intro x hx y hy hpri
      rcases List.mem_cons.mp hy with rfl | hy
      · exact hplaced.before hpri x hx
      · exact hab x hx y hy hpri
  · intro x hx
    unfold Core.put
    rw [Core.charge_msg]
    by_cases he : x = mp
    · subst he
      have hmsg : (c.fill x m.toBase).msg x = m.toBase := Function.update_self _ _ _
      show ((c.fill x m.toBase).msg x).bBand = 0
      rw [hmsg]
      rfl
    · have hx' : x ∈ a ++ b := by
        rcases List.mem_append.mp hx with hx | hx
        · exact List.mem_append_left b hx
        · exact List.mem_append_right a ((List.mem_cons.mp hx).resolve_left he)
      exact hfill.band x hx'

omit [DecidableEq μ] [Fintype μ] in
/-- Fewer messages are in order too. -/
theorem Core.Plain.sublist {link : Deque μ} (h : c.Plain ms) (hsub : ms'.Sublist ms)
    (hlink : c'.link = link) (hholds : link.Holds ms') (hmsg : c'.msg = c.msg) : c'.Plain ms' := by
  subst hlink
  refine ⟨hholds, ?_, fun x hx => ?_⟩
  · unfold Core.isPri
    rw [hmsg]
    exact h.ordered.sublist hsub
  · rw [hmsg]
    exact h.band x (hsub.mem hx)

omit [Fintype μ] in
/-- **The messages stay in order.** -/
theorem Effect.plain (heffect : Effect c ms e c' ms') (h : c.Plain ms) : c'.Plain ms' := by
  cases heffect with
  | put hput hms hmp _ hplaced =>
    subst hms
    exact h.put hmp hplaced
  | refuse hput hmp _ =>
    refine h.congr ?_ fun x hx => Function.update_of_ne (ne_of_mem_of_not_mem hx hmp) _ _
    exact h.holds.set hmp
  | take htakes hms =>
    subst hms
    refine h.sublist ?_ (Core.discharge_link _ _) h.holds.join (Core.discharge_msg _ _)
    exact (List.sublist_cons_self _ _).append_left _
  | flush hflush hholds =>
    exact h.sublist List.filter_sublist (Core.shrink_link _ _) hholds (Core.shrink_msg _ _)
  | tune _ _ _ _ =>
    obtain ⟨hlink, hmsg⟩ := c.tune_same e
    exact h.sublist (List.Sublist.refl ms) hlink h.holds hmsg

end Calls

end CohKernel.Strm
