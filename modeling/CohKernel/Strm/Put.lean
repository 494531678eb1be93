import CohKernel.Strm.Calls

namespace CohKernel.Strm

open CohKernel.Lib

/-!
# Queueing messages

What the calls do to the messages and to the flow control of a queue of band 0, for the calls that
do not reach the code of the bands; first the calls that queue a message.

* `Queue.putq_effect`, `Queue.putbq_effect`, `Queue.insq_effect` — the effects of these calls.
-/

variable {μ : Type} [DecidableEq μ] [Fintype μ]

/-! ### Effects -/

/-- The message that a call queues. -/
def Event.puts : Event μ → Option (μ × Msgb)
  | .putq mp m _ | .putbq mp m _ | .insq _ mp m _ => some (mp, m)
  | _ => none

/-- A call takes a message off, with the messages before it. -/
def Event.takes (a : List μ) (mp : μ) : Event μ → Prop
  | .getq => a = []
  | .rmvq mp' => mp' = mp
  | _ => False

/-- A call flushes the messages of band 0. -/
def Event.flushes : Event μ → Option Bool
  | .flushq all => some all
  | .flushband pri all => if pri = 0 then some all else none
  | _ => none

/-- `flushq` leaves a message of band 0. -/
def Core.spares (c : Core μ) (all : Bool) (mp : μ) : Bool :=
  !(all || datamsg (c.msg mp).dbType)

/-- The bytes of a list of messages that count. -/
def Core.total (c : Core μ) (ms : List μ) : UInt32 :=
  ((ms.filter fun mp => !c.isPri mp).map fun mp => msgSize (c.msg mp)).sum

/-- A message with its band set to 0. -/
def Msgb.toBase (m : Msgb) : Msgb := { m with bBand := 0 }

/-- What a call that puts a message leaves. -/
def Core.put (c : Core μ) (a : List μ) (mp : μ) (b : List μ) (m : Msgb) : Core μ :=
  ((c.fill mp m.toBase).setLink (c.link.insert a.getLast? mp b.head?)).charge mp

/-- Where a call links in a message: high-priority messages go before the others, and `putq` puts it
    behind all of its kind. -/
structure Placed (c : Core μ) (mp : μ) (a b : List μ) (e : Event μ) : Prop where
  before : c.isPri mp = true → ∀ x ∈ a, c.isPri x = true
  behind : c.isPri mp = false → ∀ x ∈ b, c.isPri x = false
  last : (∃ m alloc, e = .putq mp m alloc) → ∀ x ∈ b, c.isPri x ≠ c.isPri mp

/-- What a call does that neither puts nor takes a message: it records that the queue has been found
    full, or it changes the watermarks. -/
def Core.tune (c : Core μ) : Event μ → Core μ
  | .canput => c.want
  | .bcanput pri => if pri = 0 then c.want else c
  | .setopt lowat hiwat band _ => if band.any (0 < ·) then c else c.setMarks lowat hiwat
  | .strqset .QHIWAT pri val _ => if 0 < pri then { c with hiwat := val } else c
  | .strqset .QLOWAT pri val _ => if 0 < pri then { c with lowat := val } else c
  | _ => c

/-- What a call does to the messages `ms`. -/
inductive Effect (c : Core μ) (ms : List μ) (e : Event μ) : Core μ → List μ → Prop
  | put {a b : List μ} {mp : μ} {m : Msgb} : e.puts = some (mp, m) → ms = a ++ b → mp ∉ ms →
      pcmsg m.dbType = true ∨ m.bBand = 0 → Placed (c.fill mp m.toBase) mp a b e →
      Effect c ms e (c.put a mp b m) (a ++ mp :: b)
  | refuse {mp : μ} {m m' : Msgb} {p n : Option μ} : e.puts = some (mp, m) → mp ∉ ms →
      (∀ m alloc, e ≠ .putq mp m alloc) →
      Effect c ms e ((c.fill mp m').setLink (c.link.set p mp n)) ms
  | take {a b : List μ} {mp : μ} : e.takes a mp → ms = a ++ mp :: b →
      Effect c ms e ((c.setLink (c.link.join a.getLast? b.head?)).discharge mp) (a ++ b)
  | flush {all : Bool} {link : Deque μ} : e.flushes = some all →
    link.Holds (ms.filter (c.spares all)) →
      Effect c ms e ((c.setLink link).shrink (c.total (ms.filter fun mp => !c.spares all mp)))
        (ms.filter (c.spares all))
  | tune : e.puts = none → (e = .getq → ms = []) → e.flushes = none → (∀ mp, e ≠ .rmvq mp) →
      Effect c ms e (c.tune e) ms

/-- The call does not reach the code of the bands, and does not leave the queue frozen. -/
def Queue.regular (q : Queue μ) : Event μ → Bool
  | .putq _ m _ | .putbq _ m _ => pcmsg m.dbType || decide (m.bBand = 0)
  | .insq emp _ m alloc =>
      pcmsg m.dbType || decide (m.bBand = 0) || !alloc || q.tooLate emp m.bBand ||
        q.tooEarly (q.link.prev emp) m.bBand
  | .setopt lowat hiwat band alloc =>
      (lowat.isSome || hiwat.isSome) && !(band.any (0 < ·) && alloc && decide (hiwat = some 0))
  | _ => true

/-! ### Linking a message in -/

section Place

variable {q : Queue μ} {c : Core μ} {ms a b : List μ} {mp : μ} {m : Msgb}

omit [DecidableEq μ] [Fintype μ]

theorem Core.charge_setLink (c : Core μ) (mp : μ) (link : Deque μ) :
    (c.charge mp).setLink link = (c.setLink link).charge mp := by
  show (if c.isPri mp = true then _ else _ : Core μ).setLink link = if c.isPri mp =
    true then _ else _
  split <;> rfl

/-- The first ordinary message is a place for a message. -/
theorem Core.Plain.placed (h : c.Plain ms) (e : Event μ)
    (hput : (∃ m alloc, e = .putq mp m alloc) → c.isPri mp = true) :
    Placed c mp (ms.takeWhile c.isPri) (ms.dropWhile c.isPri) e := by
  refine ⟨fun _ x hx => List.mem_takeWhile_imp hx, fun _ x hx => h.ordinary hx, ?_⟩
  intro he x hx
  rw [hput he, h.ordinary hx]
  exact Bool.false_ne_true

/-- The flow control of an ordinary message of band 0. -/
theorem Queue.check_part (q : Queue μ) (hpri : q.isPri mp = false) :
    Part q (q.core.charge mp) ((q.checkSched 0).queueIncrease (msgSize (q.msg mp))) := by
  have h := (Queue.checkSched_part q 0).trans (Queue.queueIncrease_part _ (msgSize (q.msg mp)))
  rw [(Queue.checkSched_part q 0).core] at h
  have hcharge : q.core.charge mp = q.core.grow (msgSize (q.msg mp)) := by
    show (if q.isPri mp = true then _ else _) = _
    rw [hpri, if_neg Bool.false_ne_true]
    rfl
  rw [hcharge]
  exact h

/-- A message of band 0 is queued. -/
theorem Queue.queueCheckSched_eq (hband : (q.msg mp).bBand = 0) :
    q.queueCheckSched mp none =
      .ok ((q.checkSched 0).queueIncrease (msgSize (q.msg mp)), false) := by
  have hmsg : (q.checkSched 0).msg = q.msg := congrArg Core.msg (Queue.checkSched_part q 0).core
  unfold Queue.queueCheckSched
  dsimp only
  rw [hband, if_neg (by decide), hmsg]

/-- No ordinary message is before a high-priority one. -/
theorem Core.Plain.none_pri (h : c.Plain (a ++ b))
    (hfirst : ∀ x, b.head? = some x → c.isPri x = false) :
    ∀ x ∈ b, c.isPri x = false := by
  cases b with
  | nil => exact fun x hx => absurd hx List.not_mem_nil
  | cons y b =>
    intro x hx
    have hy := hfirst y rfl
    rcases List.mem_cons.mp hx with rfl | hx
    · exact hy
    · have hordered := (List.pairwise_append.mp h.ordered).2.1
      have hyx := (List.pairwise_cons.mp hordered).1 x hx
      exact Bool.eq_false_iff.mpr fun hc => Bool.false_ne_true (hy.symm.trans (hyx hc))

variable [DecidableEq μ]

theorem Core.isPri_fill (c : Core μ) (mp : μ) (m : Msgb) :
    (c.fill mp m).isPri mp = pcmsg m.dbType := by
  have hmsg : (c.fill mp m).msg mp = m := Function.update_self _ _ _
  unfold Core.isPri
  rw [hmsg]

/-- A message that is not on the queue is filled. -/
theorem Core.Plain.fill (h : c.Plain ms) (hmp : mp ∉ ms) (m : Msgb) : (c.fill mp m).Plain ms :=
  h.congr h.holds fun _ hx => Function.update_of_ne (ne_of_mem_of_not_mem hx hmp) _ _

/-- A message is linked in at a cut of the queue. -/
theorem Queue.linkBefore_cut (hc : q.core = c) (h : c.link.Holds (a ++ b)) (mp : μ) :
    Part q (c.setLink (c.link.insert a.getLast? mp b.head?)) (q.linkBefore mp b.head?) := by
  subst hc
  have hprev : q.link.prev b.head? = a.getLast? := h.prev_eq
  have hpart := Queue.linkBefore_part q mp b.head?
  rw [hprev] at hpart
  exact hpart

variable [Fintype μ]

/-- A message is linked in before the first ordinary one. -/
theorem Queue.queuePlaceMsg_part (hc : q.core = c) (h : c.Plain ms) (mp : μ) (band : UInt8) :
    Part q (c.setLink (c.link.insert (ms.takeWhile c.isPri).getLast? mp
      (ms.dropWhile c.isPri).head?)) (q.queuePlaceMsg mp band) := by
  have hplace : q.findPlace band = (ms.dropWhile c.isPri).head? := by
    subst hc
    exact Queue.findPlace_eq h band
  unfold Queue.queuePlaceMsg
  rw [hplace]
  apply Queue.linkBefore_cut hc
  rw [List.takeWhile_append_dropWhile]
  exact h.holds

end Place

/-! ### Messages that are put -/

section Put

variable {q : Queue μ} {ms a b : List μ} {mp : μ} {m : Msgb} {alloc : Bool} {place : UInt8}
variable {base : Queue μ → Queue μ}

/-- The part of `putq` and `putbq` for an ordinary message of band 0. -/
theorem Queue.putOrdinary_eq (hband : (q.msg mp).bBand = 0) :
    q.putOrdinary mp alloc place base =
      .ok ⟨(base ((q.checkSched 0).queueIncrease (msgSize (q.msg mp)))).unfreeze, true, false⟩ := by
  have hof : q.bandOf mp alloc = .ok (q, none) := by
    unfold Queue.bandOf
    rw [if_neg (by simp [hband])]
  have hlacks : q.lacksBand mp none = false := by
    unfold Queue.lacksBand
    simp [hband]
  unfold Queue.putOrdinary
  rw [hof]
  show (if q.lacksBand mp none = true then _ else _) = _
  rw [hlacks, if_neg Bool.false_ne_true, Queue.queueCheckSched_eq hband]
  rfl

/-- An ordinary message of band 0 is put. -/
theorem Queue.putBase (alloc : Bool) (base : Queue μ → Queue μ)
    (hpri : pcmsg m.dbType = false) (hband : m.bBand = 0)
    (hbase : ∀ (q' : Queue μ) (c : Core μ), c = (q.core.fill mp m.toBase).charge mp → q'.core = c →
      Part q' (c.setLink (c.link.insert a.getLast? mp b.head?)) (base q')) :
    ∃ r, ((q.fill mp m).setLocked true).putOrdinary mp alloc place base = .ok r ∧
      Leaves q (q.core.put a mp b m) false r := by
  have hmsg : ((q.fill mp m).setLocked true).msg mp = m := Function.update_self _ _ _
  have hm : m = m.toBase := by
    unfold Msgb.toBase
    rw [← hband]
  have hcore : ((q.fill mp m).setLocked true).core = q.core.fill mp m.toBase := by
    rw [← hm]
    rfl
  have hord : ((q.fill mp m).setLocked true).isPri mp = false := by
    unfold Queue.isPri
    rw [hmsg, hpri]
  have hcheck := Queue.check_part ((q.fill mp m).setLocked true) hord
  rw [hcore] at hcheck
  refine ⟨_, Queue.putOrdinary_eq (by rw [hmsg, hband]), ?_⟩
  generalize (((q.fill mp m).setLocked true).checkSched 0).queueIncrease _ = q' at hcheck
  have hpart := hcheck.trans (hbase q' _ rfl hcheck.core)
  rw [Core.charge_link, Core.charge_setLink] at hpart
  exact (Part.mk (q := q.setLocked true) hpart.core hpart.bandp hpart.nband hpart.locked).unfreeze
    true

omit [Fintype μ] in
/-- A high-priority message does not count. -/
theorem Core.put_pri (c : Core μ) (a : List μ) (mp : μ) (b : List μ)
    (hpri : pcmsg m.dbType = true) :
    c.put a mp b m = (c.fill mp m.toBase).setLink
      (c.link.insert a.getLast? mp b.head?) :=
  if_pos ((Core.isPri_fill c mp m.toBase).trans hpri)

omit [Fintype μ] in
/-- A high-priority message with its band set to 0. -/
theorem Queue.setMsgBand_core (q : Queue μ) (mp : μ) (m : Msgb) (locked : Bool) :
    (((q.fill mp m).setLocked locked).setMsgBand mp 0).core = q.core.fill mp m.toBase := by
  have hmsg : ((q.fill mp m).setLocked locked).msg mp = m := Function.update_self _ _ _
  have hidem : Function.update (Function.update q.msg mp m) mp m.toBase =
      Function.update q.msg mp m.toBase := Function.update_idem _ _ _
  unfold Queue.setMsgBand
  rw [hmsg]
  show { q.core with msg := Function.update (Function.update q.msg mp m) mp m.toBase } = _
  rw [hidem]
  rfl

omit [DecidableEq μ] [Fintype μ] in
/-- The messages of band 0 that are put are high-priority messages, or of band 0 already. -/
theorem Queue.regular_put (h : (pcmsg m.dbType || decide (m.bBand = 0)) = true)
    (hpri : ¬ pcmsg m.dbType = true) : pcmsg m.dbType = false ∧ m.bBand = 0 := by
  rw [Bool.not_eq_true] at hpri
  rw [hpri, Bool.false_or, decide_eq_true_eq] at h
  exact ⟨hpri, h⟩

/-- `putq` puts a message of band 0 behind those of its kind. -/
theorem Queue.putq_effect (hl : q.qLocked = false) (h : q.core.Plain ms) (hmp : mp ∉ ms)
    (hreg : q.regular (.putq mp m alloc) = true) :
    ∃ r c' ms', q.exec (.putq mp m alloc) = .ok r ∧ Effect q.core ms (.putq mp m alloc) c' ms' ∧
      Leaves q c' false r := by
  have hplain := h.fill hmp m.toBase
  show ∃ r c' ms', (q.fill mp m).putq mp alloc = .ok r ∧ _
  unfold Queue.putq
  rw [Queue.freeze_eq (q := q.fill mp m) hl]
  show ∃ r c' ms', (if ((q.fill mp m).setLocked true).isPri mp = true then _ else _) = _ ∧ _
  have hkind : ((q.fill mp m).setLocked true).isPri mp = pcmsg m.dbType :=
    Core.isPri_fill q.core mp m
  rw [hkind]
  by_cases hpri : pcmsg m.dbType = true
  · -- after the high-priority messages that are there
    rw [if_pos hpri]
    have hsched := Queue.queueTrysched_part (((q.fill mp m).setLocked true).setMsgBand mp 0)
    have hc := hsched.core.trans (Queue.setMsgBand_core q mp m true)
    have hplace := hsched.trans (Queue.queuePlaceMsg_part hc hplain mp (0 - 1))
    have hrest := (Part.mk (q := q.setLocked true) hplace.core hplace.bandp hplace.nband
      hplace.locked).unfreeze true
    refine ⟨_, _, _, rfl, .put rfl List.takeWhile_append_dropWhile.symm hmp (.inl hpri)
      (hplain.placed _ ?_), ?_⟩
    · exact fun _ => (Core.isPri_fill _ _ _).trans hpri
    · rw [Core.put_pri _ _ _ _ hpri]
      exact hrest
  · -- at the end of the queue
    rw [if_neg hpri]
    obtain ⟨hord, hband⟩ := Queue.regular_put hreg hpri
    have hkind' : (q.core.fill mp m.toBase).isPri mp = false := (Core.isPri_fill _ _ _).trans hord
    obtain ⟨r, hr, hrest⟩ := Queue.putBase (q := q) (a := ms) (b := []) alloc
      (fun q => q.linkBefore mp none) hord hband fun q' c hc hq' => by
        refine Queue.linkBefore_cut hq' ?_ mp
        rw [hc, Core.charge_link, List.append_nil]
        exact h.holds
    refine ⟨r, _, _, hr, .put rfl (List.append_nil ms).symm hmp (.inr hband) ⟨?_, ?_, ?_⟩, hrest⟩
    · exact fun hc => absurd (hkind'.symm.trans hc) Bool.false_ne_true
    · exact fun _ x hx => absurd hx List.not_mem_nil
    · exact fun _ x hx => absurd hx List.not_mem_nil

/-- `putbq` puts a message of band 0 before those of its kind. -/
theorem Queue.putbq_effect (hl : q.qLocked = false) (h : q.core.Plain ms) (hmp : mp ∉ ms)
    (hreg : q.regular (.putbq mp m alloc) = true) :
    ∃ r c' ms', q.exec (.putbq mp m alloc) = .ok r ∧ Effect q.core ms (.putbq mp m alloc) c' ms' ∧
      Leaves q c' false r := by
  have hplain := h.fill hmp m.toBase
  show ∃ r c' ms', (q.fill mp m).putbq mp alloc = .ok r ∧ _
  unfold Queue.putbq
  rw [Queue.freeze_eq (q := q.fill mp m) hl]
  show ∃ r c' ms', (if ((q.fill mp m).setLocked true).isPri mp = true then _ else _) = _ ∧ _
  have hkind : ((q.fill mp m).setLocked true).isPri mp = pcmsg m.dbType :=
    Core.isPri_fill q.core mp m
  rw [hkind]
  by_cases hpri : pcmsg m.dbType = true
  · -- at the front of the queue
    rw [if_pos hpri]
    have hfirst : ((q.fill mp m).setLocked true).qFirst = ms.head? := h.holds.first_eq
    have hc := Queue.setMsgBand_core q mp m true
    have hlink := Queue.linkBefore_cut (a := []) (b := ms) hc h.holds mp
    have hsched := hlink.trans (Queue.queueTrysched_part _)
    rw [hlink.core] at hsched
    have hrest := (Part.mk (q := q.setLocked true) hsched.core hsched.bandp hsched.nband
      hsched.locked).unfreeze true
    rw [hfirst]
    refine ⟨_, _, _, rfl, .put rfl (List.nil_append ms).symm hmp (.inl hpri) ⟨?_, ?_, ?_⟩, ?_⟩
    · exact fun _ x hx => absurd hx List.not_mem_nil
    · exact fun hc' => absurd (hc'.symm.trans ((Core.isPri_fill _ _ _).trans hpri))
        Bool.false_ne_true
    · rintro ⟨m, alloc, he⟩
      cases he
    · rw [Core.put_pri _ _ _ _ hpri]
      exact hrest
  · -- before the first ordinary message
    rw [if_neg hpri]
    obtain ⟨hord, hband⟩ := Queue.regular_put hreg hpri
    have hkind' : (q.core.fill mp m.toBase).isPri mp = false := (Core.isPri_fill _ _ _).trans hord
    obtain ⟨r, hr, hrest⟩ := Queue.putBase (q := q)
      (a := ms.takeWhile (q.core.fill mp m.toBase).isPri)
      (b := ms.dropWhile (q.core.fill mp m.toBase).isPri)
      alloc (fun q => q.queuePlaceMsg mp (q.msg mp).bBand) hord hband fun q' c hc hq' => by
        have hsame : c.isPri = (q.core.fill mp m.toBase).isPri := by
          unfold Core.isPri
          rw [hc, Core.charge_msg]
        have hc' : c.Plain ms := hplain.congr (by rw [hc, Core.charge_link]; exact h.holds)
          fun x _ => by rw [hc, Core.charge_msg]
        rw [← hsame]
        exact Queue.queuePlaceMsg_part hq' hc' mp _
    exact ⟨r, _, _, hr, .put rfl List.takeWhile_append_dropWhile.symm hmp (.inr hband)
      (hplain.placed _
      fun ⟨m, alloc, he⟩ => by cases he), hrest⟩

end Put

/-! ### Bands that are allocated and lost -/

section Alloc

variable {q : Queue μ} {c : Core μ} {ms a b : List μ} {mp : μ} {m : Msgb} {pri : UInt8}
  {alloc : Bool}

omit [DecidableEq μ] [Fintype μ] in
/-- A band that is allocated is the last of its block, and is not stored in the queue. -/
theorem Queue.getBand_bandless (h : q.Bandless) (pri : UInt8) (alloc : Bool) :
    ∃ q' b, q.getBand pri alloc = .ok (q', b) ∧ Part q q.core q' ∧
      (b.isSome = (alloc && decide (0 < pri))) ∧
      ∀ n, b = some n → q'.band n = Qband.zero μ none := by
  unfold Queue.getBand
  rw [Queue.queueBand_none h.bandp]
  show ∃ q' b, q.qbandAlloc pri alloc = _ ∧ _
  have hn : pri.toNat - q.qNband.toNat = pri.toNat := by rw [h.nband]; rfl
  unfold Queue.qbandAlloc
  rw [hn]
  dsimp only
  have hpri : (pri.toNat = 0) ↔ pri = 0 := UInt8.toNat_inj (b := 0)
  by_cases hnone : (!alloc || pri.toNat == 0) = true
  · rw [if_pos hnone]
    refine ⟨q, none, rfl, Part.refl q, ?_, fun n hn => by cases hn⟩
    rw [Bool.or_eq_true, beq_iff_eq, hpri] at hnone
    rcases hnone with halloc | rfl
    · cases alloc
      · rfl
      · cases halloc
    · cases alloc <;> rfl
  · rw [if_neg hnone]
    rw [Bool.or_eq_true, beq_iff_eq, hpri, not_or] at hnone
    show ∃ q' b, (if q.qNband = 0 then _ else _) = _ ∧ _
    rw [if_pos h.nband]
    have hpos : 0 < pri.toNat := Nat.pos_of_ne_zero (mt hpri.mp hnone.2)
    refine ⟨_, _, rfl, ⟨rfl, rfl, rfl, rfl⟩, ?_, ?_⟩
    · have halloc : alloc = true := by
        cases alloc
        · exact absurd rfl hnone.1
        · rfl
      have hlt : 0 < pri := UInt8.lt_iff_toNat_lt.mpr hpos
      rw [halloc, decide_eq_true hlt]
      rfl
    · intro n hn
      cases hn
      show (if q.bands ≤ _ ∧ _ then Qband.zero μ (if _ then _ else _) else _) = _
      rw [if_pos ⟨by omega, by omega⟩, if_neg (by omega)]

end Alloc

/-! ### Messages that are inserted -/

section Insert

variable {q : Queue μ} {c : Core μ} {ms a b : List μ} {mp : μ} {m : Msgb} {alloc : Bool}
variable {emp : Option μ}

omit [DecidableEq μ] [Fintype μ] in
/-- All messages before a high-priority message are high-priority messages. -/
theorem Core.Plain.all_pri (h : c.Plain (a ++ b)) (hlast : a.getLast?.all c.isPri = true) :
    ∀ x ∈ a, c.isPri x = true := by
  cases a using List.reverseRecOn with
  | nil => exact fun x hx => absurd hx List.not_mem_nil
  | append_singleton a y =>
    rw [List.getLast?_concat] at hlast
    intro x hx
    rcases List.mem_append.mp hx with hx | hx
    · have hordered := (List.pairwise_append.mp h.ordered).1
      exact (List.pairwise_append.mp hordered).2.2 x hx y List.mem_cons_self hlast
    · obtain rfl := List.mem_singleton.mp hx
      exact hlast

section

omit [Fintype μ]

/-- A message that is refused has its pointers stored. -/
theorem Queue.refuse_effect {q' : Queue μ} {m' : Msgb} {p n : Option μ} (hmp : mp ∉ ms)
    (hpart : Part q (q.core.fill mp m') q') :
    Effect q.core ms (.insq emp mp m alloc) ((q.core.fill mp m').setLink (q.link.set p mp n)) ms ∧
      Leaves q ((q.core.fill mp m').setLink (q.link.set p mp n)) q.qLocked
        ⟨q'.setLink (q.link.set p mp n), false, false⟩ := by
  refine ⟨.refuse rfl hmp (fun m alloc he => by cases he), ?_⟩
  have hset : Part q ((q.core.fill mp m').setLink (q.link.set p mp n))
      (q'.setLink (q.link.set p mp n)) := by
    refine ⟨?_, hpart.bandp, hpart.nband, hpart.locked⟩
    rw [← hpart.core]
    rfl
  exact hset.ret false

/-- A high-priority message is inserted behind high-priority messages only. -/
theorem Queue.insPri_effect (alloc : Bool) (h : q.core.Plain (a ++ b)) (hmp : mp ∉ a ++ b)
    (hpri : pcmsg m.dbType = true) (hemp : b.head? = emp) :
    ∃ c' ms', Effect q.core (a ++ b) (.insq emp mp m alloc) c' ms' ∧
      Leaves q c' q.qLocked (((q.fill mp m).setMsgBand mp 0).insPri emp mp) := by
  subst hemp
  have hplain := h.fill hmp m.toBase
  have hc : ((q.fill mp m).setMsgBand mp 0).core = q.core.fill mp m.toBase :=
    Queue.setMsgBand_core q mp m q.qLocked
  have hprev : ((q.fill mp m).setMsgBand mp 0).link.prev b.head? = a.getLast? := h.holds.prev_eq
  have hkind : ((q.fill mp m).setMsgBand mp 0).isPri = (q.core.fill mp m.toBase).isPri := by
    rw [← hc]
    rfl
  unfold Queue.insPri
  rw [hprev, hkind]
  by_cases hall : a.getLast?.all (q.core.fill mp m.toBase).isPri = true
  · rw [if_pos hall]
    have hlink := Queue.linkBefore_cut (a := a) (b := b) hc h.holds mp
    have hsched := hlink.trans (Queue.queueTrysched_part _)
    rw [hlink.core] at hsched
    have hrest := (Part.mk (q := q) hsched.core hsched.bandp hsched.nband hsched.locked).ret true
    refine ⟨_, _, .put rfl rfl hmp (.inl hpri) ⟨fun _ => hplain.all_pri hall, ?_, ?_⟩, ?_⟩
    · exact fun hc' => absurd (hc'.symm.trans ((Core.isPri_fill _ _ _).trans hpri))
        Bool.false_ne_true
    · rintro ⟨m, alloc, he⟩
      cases he
    · rw [Core.put_pri _ _ _ _ hpri]
      exact hrest
  · rw [if_neg hall]
    exact ⟨_, _, Queue.refuse_effect hmp ⟨hc, rfl, rfl, rfl⟩⟩

/-- An ordinary message of band 0 is inserted, or refused before a high-priority message. -/
theorem Queue.insBase_effect (h : q.core.Plain (a ++ b)) (hmp : mp ∉ a ++ b)
    (hord : pcmsg m.dbType = false) (hband : m.bBand = 0) (hemp : b.head? = emp) :
    ∃ r c' ms', (q.fill mp m).insOrdinary emp mp none = .ok r ∧
      Effect q.core (a ++ b) (.insq emp mp m alloc) c' ms' ∧ Leaves q c' q.qLocked r := by
  subst hemp
  have hm : m = m.toBase := by
    unfold Msgb.toBase
    rw [← hband]
  have hplain := h.fill hmp m.toBase
  have hc : (q.fill mp m).core = q.core.fill mp m.toBase := by
    rw [← hm]
    rfl
  have hmsg : (q.fill mp m).msg mp = m := Function.update_self _ _ _
  have hprev : (q.fill mp m).link.prev b.head? = a.getLast? := h.holds.prev_eq
  have hkind : ((q.fill mp m).linkBefore mp b.head?).isPri mp = false := by
    show pcmsg ((q.fill mp m).msg mp).dbType = false
    rw [hmsg, hord]
  have hearly : (q.fill mp m).tooEarly ((q.fill mp m).link.prev b.head?) 0 = false := by
    unfold Queue.tooEarly
    simp
  unfold Queue.insOrdinary
  rw [hmsg, hband]
  dsimp only
  by_cases hlate : (q.fill mp m).tooLate b.head? 0 = true
  · rw [if_pos hlate]
    exact ⟨_, _, _, rfl, Queue.refuse_effect hmp ⟨hc, rfl, rfl, rfl⟩⟩
  · rw [if_neg hlate, hearly, if_neg Bool.false_ne_true]
    have hlink := Queue.linkBefore_cut (a := a) (b := b) hc h.holds mp
    have hcheck := hlink.trans (Queue.check_part _ hkind)
    rw [hlink.core] at hcheck
    have hbase : (((q.fill mp m).linkBefore mp b.head?).msg mp).bBand = 0 := by
      show ((q.fill mp m).msg mp).bBand = 0
      rw [hmsg, hband]
    have hkind' : (q.core.fill mp m.toBase).isPri mp = false := (Core.isPri_fill _ _ _).trans hord
    rw [Queue.queueCheckSched_eq hbase]
    refine ⟨_, _, _, rfl, .put rfl rfl hmp (.inr hband) ⟨?_, ?_, ?_⟩,
      (Part.mk (q := q) hcheck.core hcheck.bandp hcheck.nband hcheck.locked).ret true⟩
    · exact fun hc' => absurd (hkind'.symm.trans hc') Bool.false_ne_true
    · intro _
      apply hplain.none_pri
      intro x hx
      rw [hx, Bool.not_eq_true] at hlate
      rw [← hc]
      exact (Bool.or_eq_false_iff.mp hlate).2
    · rintro ⟨m, alloc, he⟩
      cases he

/-- An ordinary message of a band is refused. -/
theorem Queue.insBanded_effect (hq : q.Bandless) (h : q.core.Plain (a ++ b)) (hmp : mp ∉ a ++ b)
    (hord : pcmsg m.dbType = false) (hband : 0 < m.bBand) (hemp : b.head? = emp)
    (hreg : q.regular (.insq emp mp m alloc) = true) :
    ∃ r c' ms', (q.fill mp m).insq emp mp alloc = .ok r ∧
      Effect q.core (a ++ b) (.insq emp mp m alloc) c' ms' ∧ Leaves q c' q.qLocked r := by
  have hmsg : (q.fill mp m).msg mp = m := Function.update_self _ _ _
  have hkind : (q.fill mp m).isPri mp = false := (Core.isPri_fill q.core mp m).trans hord
  obtain ⟨q', n, hget, hpart, hsome, -⟩ :=
    Queue.getBand_bandless (q := q.fill mp m) ⟨hq.bandp, hq.nband⟩ m.bBand alloc
  have hpart' : Part q (q.core.fill mp m) q' :=
    ⟨hpart.core, hpart.bandp, hpart.nband, hpart.locked⟩
  have hmsg' : q'.msg = (q.fill mp m).msg := congrArg Core.msg hpart.core
  have hlink : q'.link = q.link := congrArg Core.link hpart.core
  have hof : (q.fill mp m).bandOf mp alloc = .ok (q', n) := by
    unfold Queue.bandOf
    rw [hmsg, if_pos hband, hget]
  have hlacks : q'.lacksBand mp n = !alloc := by
    unfold Queue.lacksBand
    rw [hmsg', hmsg, decide_eq_true hband, ← Option.not_isSome, hsome, decide_eq_true hband]
    cases alloc <;> rfl
  unfold Queue.insq
  rw [hkind, if_neg Bool.false_ne_true, hof]
  show ∃ r c' ms', (if q'.lacksBand mp n = true then _ else _) = _ ∧ _
  rw [hlacks]
  cases alloc with
  | false =>
    have hset : q' = q'.setLink
        (q.link.set (q.link.prev (some mp)) mp (q.link.next (some mp))) := by
      rw [Deque.set_self, ← hlink]
      rfl
    show ∃ r c' ms', Except.ok (Ret.mk q' false false) = Except.ok r ∧ _
    rw [hset]
    exact ⟨_, _, _, rfl, Queue.refuse_effect hmp hpart'⟩
  | true =>
    rw [if_neg (by decide)]
    have hsame : ∀ x, x ∈ a ++ b → q'.msg x = q.msg x := fun x hx => by
      rw [hmsg']
      exact Function.update_of_ne (ne_of_mem_of_not_mem hx hmp) _ _
    have hlate : q'.tooLate emp m.bBand = q.tooLate emp m.bBand := by
      cases emp with
      | none => rfl
      | some x =>
        have hx := hsame x (List.mem_append_right a (List.mem_of_mem_head? hemp))
        show (decide (_ < (q'.msg x).bBand) || pcmsg (q'.msg x).dbType) = _
        rw [hx]
        rfl
    have hprev : q.link.prev emp = a.getLast? := hemp ▸ h.holds.prev_eq
    have hearly : q'.tooEarly (q'.link.prev emp) m.bBand =
        q.tooEarly (q.link.prev emp) m.bBand := by
      rw [hlink, hprev]
      cases hlast : a.getLast? with
      | none => rfl
      | some x =>
        have hx := hsame x (List.mem_append_left b (List.mem_of_mem_getLast? hlast))
        show decide ((q'.msg x).bBand < _) = _
        rw [hx]
        rfl
    have hplace : (q.tooLate emp m.bBand || q.tooEarly (q.link.prev emp) m.bBand) = true := by
      have hzero : decide (m.bBand = 0) = false := decide_eq_false (UInt8.pos_iff_ne_zero.mp hband)
      unfold Queue.regular at hreg
      simpa [hord, hzero] using hreg
    unfold Queue.insOrdinary
    rw [hmsg', hmsg]
    dsimp only
    rw [hlate, hearly]
    by_cases hl : q.tooLate emp m.bBand = true
    · rw [if_pos hl, hlink]
      exact ⟨_, _, _, rfl, Queue.refuse_effect hmp hpart'⟩
    · rw [Bool.not_eq_true] at hl
      rw [hl, Bool.false_or] at hplace
      rw [hl, if_neg Bool.false_ne_true, hplace, if_pos rfl, hlink]
      exact ⟨_, _, _, rfl, Queue.refuse_effect hmp hpart'⟩

end

/-- `insq` does not change the order of the messages. -/
theorem Queue.insq_effect (hq : q.Bandless) (h : q.core.Plain ms) (hmp : mp ∉ ms)
    (hemp : ∀ x, emp = some x → x ∈ ms) (hreg : q.regular (.insq emp mp m alloc) = true) :
    ∃ r c' ms', q.exec (.insq emp mp m alloc) = .ok r ∧
      Effect q.core ms (.insq emp mp m alloc) c' ms' ∧ Leaves q c' q.qLocked r := by
  obtain ⟨a, b, rfl, hcut⟩ : ∃ a b, ms = a ++ b ∧ b.head? = emp := by
    cases emp with
    | none => exact ⟨ms, [], (List.append_nil ms).symm, rfl⟩
    | some x =>
      obtain ⟨a, b, rfl⟩ := List.append_of_mem (hemp x rfl)
      exact ⟨a, x :: b, rfl, rfl⟩
  show ∃ r c' ms', (q.fill mp m).insq emp mp alloc = .ok r ∧ _
  have hmsg : (q.fill mp m).msg mp = m := Function.update_self _ _ _
  have hkind : (q.fill mp m).isPri mp = pcmsg m.dbType := Core.isPri_fill q.core mp m
  by_cases hpri : pcmsg m.dbType = true
  · obtain ⟨c', ms', heffect, hleaves⟩ := Queue.insPri_effect alloc h hmp hpri hcut
    refine ⟨_, c', ms', ?_, heffect, hleaves⟩
    unfold Queue.insq
    rw [hkind, if_pos hpri]
  · rw [Bool.not_eq_true] at hpri
    by_cases hband : m.bBand = 0
    · have hof : (q.fill mp m).bandOf mp alloc = .ok (q.fill mp m, none) := by
        unfold Queue.bandOf
        rw [hmsg, if_neg (by simp [hband])]
      have hlacks : (q.fill mp m).lacksBand mp none = false := by
        unfold Queue.lacksBand
        simp [hmsg, hband]
      unfold Queue.insq
      rw [hkind, hpri, if_neg Bool.false_ne_true, hof]
      show ∃ r c' ms', (if (q.fill mp m).lacksBand mp none = true then _ else _) = _ ∧ _
      rw [hlacks, if_neg Bool.false_ne_true]
      exact Queue.insBase_effect h hmp hpri hband hcut
    · exact Queue.insBanded_effect hq h hmp hpri (UInt8.pos_iff_ne_zero.mpr hband) hcut hreg

end Insert

end CohKernel.Strm
