import CohKernel.Strm.Order

namespace CohKernel.Strm

open CohKernel.Lib

/-!
# Counts and full marks

The counts of a queue against the bytes that are queued, and its full marks against its watermarks,
over a run of calls.

* `marks_kept` — the counts and the marks of a queue of band 0 are right, as long as its watermarks
  are set in order and by `QBAND_SETOPT`;
* `mark_missed` — `strqset` for a band sets the watermark of the queue, which is over it unmarked.
-/

variable {μ : Type} [DecidableEq μ] [Fintype μ]

/-! ### Counts and marks -/

/-- The flow control of a band. -/
structure Level where
  count : UInt32
  hiwat : UInt32
  lowat : UInt32
  full : Bool

/-- The flow control of a band of a queue; band 0 is the queue. -/
def Queue.level (q : Queue μ) (pri : UInt8) : Option Level :=
  if pri = 0 then some ⟨q.qCount, q.qHiwat, q.qLowat, q.qfull⟩
  else (q.queueBand pri).map fun b =>
    ⟨(q.band b).qbCount, (q.band b).qbHiwat, (q.band b).qbLowat, (q.band b).qbFull⟩

/-- The bytes of a message. -/
def Msgb.bytes (m : Msgb) : ℕ := (m.blocks.map UInt32.toNat).sum

/-- The bytes of the messages of a band. -/
def Queue.bytes (q : Queue μ) (pri : UInt8) (ms : List μ) : ℕ :=
  ((q.ofBand pri ms).map fun mp => (q.msg mp).bytes).sum

/-- A band has been over its high-water mark, and has not been back at its low-water mark since. -/
def Level.passed (l : Level) (before : Bool) : Bool :=
  if l.hiwat < l.count then true else if l.count ≤ l.lowat then false else before

/-- A run of calls, and the bands that have been over their marks. -/
structure Meter (μ : Type) where
  sys : Sys μ
  passed : UInt8 → Bool

def Meter.step (m : Meter μ) (e : Event μ) : Option (Meter μ) :=
  (m.sys.step e).map fun s =>
    ⟨s, fun pri => (s.q.level pri).elim false fun l => l.passed (m.passed pri)⟩

/-- The counts and the marks of a queue are right. -/
structure Marked (q : Queue μ) (passed : UInt8 → Bool) (ms : List μ) : Prop where
  count : ∀ pri l, q.level pri = some l → l.count.toNat = q.bytes pri ms
  unbanded : ∀ pri, q.level pri = none → q.ofBand pri ms = []
  full : ∀ pri l, q.level pri = some l → (∃ pri', pri ≤ pri' ∧ passed pri' = true) → l.full = true
  clear : ∀ pri l, q.level pri = some l →
    (∀ pri' l', pri ≤ pri' → q.level pri' = some l' → l'.count ≤ l'.lowat) → l.full = false

/-- The kernel runs, and the counts and the marks are right. -/
def Meter.Sound (m : Meter μ) : Prop :=
  m.sys.halted = none ∧ ∃ ms, m.sys.q.link.Holds ms ∧ Marked m.sys.q m.passed ms

/-- An empty queue without bands, whose low-water mark is not above its high-water mark. -/
structure Meter.Initial (m : Meter μ) : Prop where
  sys : m.sys.Initial
  count : m.sys.q.qCount = 0
  full : m.sys.q.qfull = false
  marks : m.sys.q.qLowat ≤ m.sys.q.qHiwat
  passed : m.passed = fun _ => false

/-- With `n` bytes queued, the call keeps the bytes that are queued below 2³², leaves the low-water
    mark at most at the high-water mark, and is not a `strqset` for a mark of a band. -/
def Core.inBounds (c : Core μ) (n : ℕ) : Event μ → Bool
  | .putq _ m _ | .putbq _ m _ | .insq _ _ m _ =>
      pcmsg m.dbType || decide (m.bBand ≠ 0) || decide (n + m.bytes < 2 ^ 32)
  | .setopt lowat hiwat band _ =>
      band.any (0 < ·) || decide (lowat.getD c.lowat ≤ hiwat.getD c.hiwat)
  | .strqset .QHIWAT pri _ _ | .strqset .QLOWAT pri _ _ => decide (pri = 0)
  | _ => true

/-- The call does not reach the code of the bands, and its sizes and watermarks are in bounds. -/
def Meter.regular (m : Meter μ) (e : Event μ) : Bool :=
  m.sys.q.regular e && m.sys.q.core.inBounds (m.sys.q.bytes 0 m.sys.q.chain) e

/-! ### The full mark -/

/-- The marks of a queue are in order, and its full mark follows its count. -/
structure Core.Steady (c : Core μ) (passed : Bool) : Prop where
  marks : c.lowat ≤ c.hiwat
  full : c.full = passed
  high : c.hiwat < c.count → passed = true
  low : c.count ≤ c.lowat → passed = false

/-- The mark that follows the count. -/
def Core.passed (c : Core μ) (before : Bool) : Bool :=
  (Level.mk c.count c.hiwat c.lowat c.full).passed before

section Steady

variable {c c' : Core μ} {before : Bool} {mp : μ} {n : UInt32}

omit [DecidableEq μ] [Fintype μ]

/-- The marks are steady again where the full mark follows the count. -/
theorem Core.Steady.of_full (hmarks : c.lowat ≤ c.hiwat) (hfull : c.full = c.passed before) :
    c.Steady (c.passed before) := by
  refine ⟨hmarks, hfull, ?_, ?_⟩
  · exact fun h => if_pos h
  · intro h
    have hnot : ¬ c.hiwat < c.count := by
      rw [UInt32.not_lt]
      exact UInt32.le_trans h hmarks
    exact (if_neg hnot).trans (if_pos h)

/-- Where the mark is steady it stays. -/
theorem Core.Steady.kept (h : c.Steady before) : c.passed before = before := by
  show (if c.hiwat < c.count then true else if c.count ≤ c.lowat then false else before) = before
  split
  · next hlt => exact (h.high hlt).symm
  · split
    · next hle => exact (h.low hle).symm
    · rfl

/-- More bytes are queued. -/
theorem Core.Steady.grow (h : c.Steady before) (hfit : c.count ≤ c.count + n) :
    (c.grow n).full = (c.grow n).passed before := by
  show (c.full || decide (c.hiwat < c.count + n)) =
    if c.hiwat < c.count + n then true else if c.count + n ≤ c.lowat then false else before
  rw [h.full]
  split
  · next hlt => rw [decide_eq_true hlt, Bool.or_true]
  · next hlt =>
    rw [decide_eq_false hlt, Bool.or_false]
    split
    · next hle => exact h.low (UInt32.le_trans hfit hle)
    · rfl

/-- Fewer bytes are queued. -/
theorem Core.Steady.shrink (h : c.Steady before) (hfit : c.count - n ≤ c.count) :
    (c.shrink n).full = (c.shrink n).passed before := by
  have hclear : c.shrink n = if c.full = true ∧ c.count - n ≤ c.lowat then
      ({ c with count := c.count - n } : Core μ).clear else { c with count := c.count - n } := rfl
  rw [hclear]
  split
  · next hc =>
    have hnot : ¬ c.hiwat < c.count - n := by
      rw [UInt32.not_lt]
      exact UInt32.le_trans hc.2 h.marks
    exact ((if_neg hnot).trans (if_pos hc.2)).symm
  · next hc =>
    show c.full =
      if c.hiwat < c.count - n then true else if c.count - n ≤ c.lowat then false else before
    split
    · next hlt =>
      rw [h.full]
      exact h.high (UInt32.lt_of_lt_of_le hlt hfit)
    · split
      · next hle => exact Bool.eq_false_iff.mpr fun hfull => hc ⟨hfull, hle⟩
      · exact h.full

/-- The low-water mark is set. -/
theorem Core.shrink_zero (c : Core μ) :
    c.shrink 0 = if c.full = true ∧ c.count ≤ c.lowat then c.clear else c := by
  have hcount : c.count - 0 = c.count := UInt32.sub_zero c.count
  unfold Core.shrink
  rw [hcount]

/-- What `QBAND_SETOPT` does to the flow control. -/
structure Core.Tuned (c : Core μ) (low high : Option UInt32) (c' : Core μ) : Prop where
  count : c'.count = c.count
  lowat : c'.lowat = low.getD c.lowat
  hiwat : c'.hiwat = high.getD c.hiwat
  full : c'.full = ((c.full && !low.any (c.count ≤ ·)) || high.any (· < c.count))

theorem Core.setMarks_tuned (c : Core μ) (lowat hiwat : Option UInt32) :
    c.Tuned lowat hiwat (c.setMarks lowat hiwat) := by
  obtain ⟨d, hd, hcount, hlow, hhigh, hfull⟩ : ∃ d : Core μ,
      (lowat.elim c fun lowat => ({ c with lowat := lowat } : Core μ).shrink 0) = d ∧
      d.count = c.count ∧ d.lowat = lowat.getD c.lowat ∧ d.hiwat = c.hiwat ∧
      d.full = (c.full && !lowat.any (c.count ≤ ·)) := by
    refine ⟨_, rfl, ?_⟩
    cases lowat with
    | none => exact ⟨rfl, rfl, rfl, (Bool.and_true _).symm⟩
    | some lowat =>
      rw [Option.elim_some, Core.shrink_zero]
      split
      · next hc =>
        have hle : c.count ≤ lowat := hc.2
        refine ⟨rfl, rfl, rfl, ?_⟩
        simp [hle, Core.clear]
      · next hc =>
        refine ⟨rfl, rfl, rfl, ?_⟩
        have hc' : ¬ (c.full = true ∧ c.count ≤ lowat) := hc
        cases hf : c.full with
        | true => simpa [hf] using hc'
        | false => simp
  unfold Core.setMarks
  dsimp only
  rw [hd]
  cases hiwat with
  | none => exact ⟨hcount, hlow, hhigh, hfull.trans (Bool.or_false _).symm⟩
  | some hiwat =>
    refine ⟨hcount, hlow, rfl, ?_⟩
    show (d.full || decide (hiwat < d.count)) = _
    rw [hfull, hcount, Option.any_some]

/-- The watermarks are set. -/
theorem Core.Steady.setMarks (h : c.Steady before) (lowat hiwat : Option UInt32)
    (hmarks : lowat.getD c.lowat ≤ hiwat.getD c.hiwat) :
    (c.setMarks lowat hiwat).full = (c.setMarks lowat hiwat).passed before := by
  obtain ⟨hcount, hlow, hhigh, hfull⟩ := c.setMarks_tuned lowat hiwat
  show _ = if (c.setMarks lowat hiwat).hiwat < (c.setMarks lowat hiwat).count then true
    else if (c.setMarks lowat hiwat).count ≤ (c.setMarks lowat hiwat).lowat then false else before
  rw [hcount, hlow, hhigh, hfull, h.full]
  split
  · next hlt =>
    cases hiwat with
    | some hiwat =>
      have hany : (some hiwat).any (· < c.count) = true := decide_eq_true hlt
      rw [hany, Bool.or_true]
    | none =>
      -- the low-water mark is below the count as well
      have hnot : lowat.any (c.count ≤ ·) = false := by
        cases lowat with
        | none => rfl
        | some lowat =>
          apply decide_eq_false
          rw [UInt32.not_le]
          exact UInt32.lt_of_le_of_lt hmarks hlt
      rw [hnot, h.high hlt]
      rfl
  · next hlt =>
    have hnot : hiwat.any (· < c.count) = false := by
      cases hiwat with
      | none => rfl
      | some hiwat => exact decide_eq_false hlt
    rw [hnot, Bool.or_false]
    cases lowat with
    | none =>
      show (before && true) = if c.count ≤ c.lowat then false else before
      rw [Bool.and_true]
      split
      · next hle => exact h.low hle
      · rfl
    | some lowat =>
      show (before && !decide (c.count ≤ lowat)) = if c.count ≤ lowat then false else before
      split
      · next hle => rw [decide_eq_true hle, Bool.not_true, Bool.and_false]
      · next hle => rw [decide_eq_false hle, Bool.not_false, Bool.and_true]

end Steady

/-! ### The count -/

/-- The bytes of a list of messages that count. -/
def Core.bytes (c : Core μ) (ms : List μ) : ℕ :=
  ((ms.filter fun mp => !c.isPri mp).map fun mp => (c.msg mp).bytes).sum

section Count

variable {c c' : Core μ} {ms ms' a b : List μ} {mp : μ} {m : Msgb} {e : Event μ} {before : Bool}

omit [DecidableEq μ] [Fintype μ]

theorem msgSize_eq (m : Msgb) : msgSize m = UInt32.ofNat m.bytes := by
  unfold msgSize Msgb.bytes
  induction m.blocks with
  | nil => rfl
  | cons n ns ih =>
    rw [List.sum_cons, List.map_cons, List.sum_cons, UInt32.ofNat_add, ih, UInt32.ofNat_toNat]

theorem Core.total_eq (c : Core μ) (ms : List μ) : c.total ms = UInt32.ofNat (c.bytes ms) := by
  unfold Core.total Core.bytes
  induction ms.filter fun mp => !c.isPri mp with
  | nil => rfl
  | cons x ms ih =>
    rw [List.map_cons, List.sum_cons, List.map_cons, List.sum_cons, UInt32.ofNat_add, ih,
      msgSize_eq]

/-- What a message adds to the bytes. -/
theorem Core.bytes_middle (c : Core μ) (a b : List μ) (mp : μ) :
    c.bytes (a ++ mp :: b) = c.bytes (a ++ b) + if c.isPri mp then 0 else (c.msg mp).bytes := by
  unfold Core.bytes
  rw [List.filter_append, List.filter_append, List.map_append, List.map_append, List.sum_append,
    List.sum_append]
  cases h : c.isPri mp with
  | true => simp [h]
  | false =>
    rw [List.filter_cons_of_pos (by simp [h]), List.map_cons, List.sum_cons,
      if_neg Bool.false_ne_true]
    omega

/-- The bytes of a list are those of its two parts. -/
theorem Core.bytes_filter (c : Core μ) (p : μ → Bool) (ms : List μ) :
    c.bytes ms = c.bytes (ms.filter p) + c.bytes (ms.filter fun mp => !p mp) := by
  induction ms with
  | nil => rfl
  | cons x ms ih =>
    have hx := c.bytes_middle [] ms x
    rw [List.nil_append, List.nil_append] at hx
    rw [hx, ih]
    cases h : p x with
    | true =>
      have hx' := c.bytes_middle [] (ms.filter p) x
      rw [List.nil_append, List.nil_append] at hx'
      rw [List.filter_cons_of_pos h, List.filter_cons_of_neg (by simp [h]), hx']
      omega
    | false =>
      have hx' := c.bytes_middle [] (ms.filter fun mp => !p mp) x
      rw [List.nil_append, List.nil_append] at hx'
      rw [List.filter_cons_of_neg (by simp [h]), List.filter_cons_of_pos (by simp [h]), hx']
      omega

/-- Only the messages count. -/
theorem Core.bytes_congr (hmsg : ∀ x ∈ ms, c'.msg x = c.msg x) : c'.bytes ms = c.bytes ms := by
  induction ms with
  | nil => rfl
  | cons x ms ih =>
    have h := c.bytes_middle [] ms x
    have h' := c'.bytes_middle [] ms x
    rw [List.nil_append, List.nil_append] at h h'
    have hpri : c'.isPri x = c.isPri x := by
      unfold Core.isPri
      rw [hmsg x List.mem_cons_self]
    rw [h, h', hpri, hmsg x List.mem_cons_self, ih fun y hy => hmsg y (List.mem_cons_of_mem x hy)]

theorem ofNat_le {n k : ℕ} (h : n ≤ k) (hk : k < 2 ^ 32) : UInt32.ofNat n ≤ UInt32.ofNat k := by
  rw [UInt32.le_iff_toNat_le, UInt32.toNat_ofNat_of_lt' (lt_of_le_of_lt h hk),
    UInt32.toNat_ofNat_of_lt' hk]
  exact h

/-- The count is that of the bytes, and the full mark follows it. -/
structure Core.Metered (c : Core μ) (ms : List μ) (passed : Bool) : Prop where
  steady : c.Steady passed
  count : c.count = UInt32.ofNat (c.bytes ms)
  fits : c.bytes ms < 2 ^ 32

/-- More bytes are queued. -/
theorem Core.Metered.grow {n : ℕ} (h : c.Metered ms before) (hcore : c' = c.grow (UInt32.ofNat n))
    (hbytes : c'.bytes ms' = c.bytes ms + n) (hfits : c.bytes ms + n < 2 ^ 32) :
    c'.Metered ms' (c'.passed before) := by
  have hcount : c.count + UInt32.ofNat n = UInt32.ofNat (c.bytes ms + n) := by
    rw [h.count, UInt32.ofNat_add]
  subst hcore
  refine ⟨.of_full h.steady.marks (h.steady.grow ?_), ?_, ?_⟩
  · rw [hcount, h.count]
    exact ofNat_le (Nat.le_add_right _ _) hfits
  · rw [hbytes]
    exact hcount
  · rw [hbytes]
    exact hfits

/-- Fewer bytes are queued. -/
theorem Core.Metered.shrink {n : ℕ} (h : c.Metered ms before)
    (hcore : c' = c.shrink (UInt32.ofNat n)) (hbytes : c.bytes ms = c'.bytes ms' + n) :
    c'.Metered ms' (c'.passed before) := by
  have hcount : c.count - UInt32.ofNat n = UInt32.ofNat (c'.bytes ms') := by
    rw [h.count, hbytes, UInt32.ofNat_add, UInt32.add_sub_cancel]
  have hmarks : (c.shrink (UInt32.ofNat n)).lowat ≤ (c.shrink (UInt32.ofNat n)).hiwat ∧
      (c.shrink (UInt32.ofNat n)).count = c.count - UInt32.ofNat n := by
    unfold Core.shrink
    dsimp only
    split <;> exact ⟨h.steady.marks, rfl⟩
  have hle : c'.bytes ms' ≤ c.bytes ms := hbytes ▸ Nat.le_add_right _ _
  subst hcore
  refine ⟨.of_full hmarks.1 (h.steady.shrink ?_), hmarks.2.trans hcount, lt_of_le_of_lt hle h.fits⟩
  rw [hcount, h.count]
  exact ofNat_le hle h.fits

/-- The bytes and the marks stay the same. -/
theorem Core.Metered.congr (h : c.Metered ms before) (hbytes : c'.bytes ms' = c.bytes ms)
    (hcount : c'.count = c.count) (hhiwat : c'.hiwat = c.hiwat) (hlowat : c'.lowat = c.lowat)
    (hfull : c'.full = c.full) : c'.Metered ms' before := by
  refine ⟨⟨?_, hfull.trans h.steady.full, ?_, ?_⟩, ?_, ?_⟩
  · rw [hlowat, hhiwat]
    exact h.steady.marks
  · rw [hcount, hhiwat]
    exact h.steady.high
  · rw [hcount, hlowat]
    exact h.steady.low
  · rw [hcount, hbytes]
    exact h.count
  · rw [hbytes]
    exact h.fits

/-- The watermarks are set. -/
theorem Core.Metered.setMarks (h : c.Metered ms before) (lowat hiwat : Option UInt32)
    (hmarks : lowat.getD c.lowat ≤ hiwat.getD c.hiwat) :
    (c.setMarks lowat hiwat).Metered ms ((c.setMarks lowat hiwat).passed before) := by
  have htuned := c.setMarks_tuned lowat hiwat
  have hbytes : (c.setMarks lowat hiwat).bytes ms = c.bytes ms :=
    Core.bytes_congr fun x _ => congrFun (c.setMarks_msg lowat hiwat) x
  refine ⟨.of_full ?_ (h.steady.setMarks lowat hiwat hmarks), ?_, ?_⟩
  · rw [htuned.lowat, htuned.hiwat]
    exact hmarks
  · rw [htuned.count, hbytes]
    exact h.count
  · rw [hbytes]
    exact h.fits

end Count

/-! ### Calls -/

section Effects

variable {c c' : Core μ} {ms ms' a b : List μ} {mp : μ} {m : Msgb} {e : Event μ} {before : Bool}

omit [Fintype μ]

/-- The bytes with a message that is put. -/
theorem Core.bytes_put (c : Core μ) (hmp : mp ∉ a ++ b) :
    (c.put a mp b m).bytes (a ++ mp :: b) =
      c.bytes (a ++ b) + if pcmsg m.dbType then 0 else m.bytes := by
  have hmsg : (c.put a mp b m).msg = Function.update c.msg mp m.toBase := Core.charge_msg _ _
  have hself : (c.put a mp b m).msg mp = m.toBase := by rw [hmsg, Function.update_self]
  have hrest : (c.put a mp b m).bytes (a ++ b) = c.bytes (a ++ b) := by
    apply Core.bytes_congr
    intro x hx
    rw [hmsg, Function.update_of_ne (ne_of_mem_of_not_mem hx hmp)]
  have hpri : (c.put a mp b m).isPri mp = pcmsg m.dbType := by
    unfold Core.isPri
    rw [hself]
    rfl
  rw [Core.bytes_middle, hrest, hpri, hself]
  rfl

/-- A message is put. -/
theorem Core.Metered.put (h : c.Metered (a ++ b) before) (hmp : mp ∉ a ++ b)
    (hfits : pcmsg m.dbType = true ∨ c.bytes (a ++ b) + m.bytes < 2 ^ 32) :
    (c.put a mp b m).Metered (a ++ mp :: b) ((c.put a mp b m).passed before) := by
  have hbytes := c.bytes_put (m := m) hmp
  cases hm : pcmsg m.dbType with
  | true =>
    rw [hm, if_pos rfl, Nat.add_zero] at hbytes
    have hput := c.put_pri a mp b hm
    have hkept : (c.put a mp b m).Metered (a ++ mp :: b) before := by
      refine h.congr hbytes ?_ ?_ ?_ ?_
      all_goals
        rw [hput]
        rfl
    rw [hkept.steady.kept]
    exact hkept
  | false =>
    rw [hm, if_neg Bool.false_ne_true] at hbytes
    have hfits' := hfits.resolve_left (by simp [hm])
    have hfill : ((c.fill mp m.toBase).setLink (c.link.insert a.getLast? mp b.head?)).Metered
        (a ++ b) before := by
      refine h.congr (Core.bytes_congr fun x hx => ?_) rfl rfl rfl rfl
      exact Function.update_of_ne (ne_of_mem_of_not_mem hx hmp) _ _
    have hput : c.put a mp b m =
        ((c.fill mp m.toBase).setLink (c.link.insert a.getLast? mp b.head?)).grow
          (UInt32.ofNat m.bytes) := by
      have hself : (c.fill mp m.toBase).msg mp = m.toBase := Function.update_self _ _ _
      have hpri : (c.fill mp m.toBase).isPri mp = false := (Core.isPri_fill c mp m.toBase).trans hm
      show (if (c.fill mp m.toBase).isPri mp = true then _ else Core.grow _ _) = _
      rw [if_neg (by simp [hpri])]
      show Core.grow _ (msgSize ((c.fill mp m.toBase).msg mp)) = _
      rw [hself, msgSize_eq]
      rfl
    have hsame : ((c.fill mp m.toBase).setLink (c.link.insert a.getLast? mp b.head?)).bytes
        (a ++ b) =
        c.bytes (a ++ b) := by
      refine Core.bytes_congr fun x hx => ?_
      exact Function.update_of_ne (ne_of_mem_of_not_mem hx hmp) _ _
    exact hfill.grow hput (by rw [hbytes, hsame]) (by rw [hsame]; exact hfits')

omit [DecidableEq μ] in
/-- A message is taken off. -/
theorem Core.Metered.take (h : c.Metered (a ++ mp :: b) before) (link : Deque μ)
    (hc : c' = (c.setLink link).discharge mp) : c'.Metered (a ++ b) (c'.passed before) := by
  have hbytes := c.bytes_middle a b mp
  have hmsg : c'.msg = c.msg := by
    rw [hc]
    exact Core.discharge_msg _ _
  have hrest : c'.bytes (a ++ b) = c.bytes (a ++ b) :=
    Core.bytes_congr fun x _ => congrFun hmsg x
  have hlink : (c.setLink link).Metered (a ++ mp :: b) before := h.congr rfl rfl rfl rfl rfl
  cases hpri : c.isPri mp with
  | true =>
    have hsame : c' = c.setLink link := hc.trans (if_pos hpri)
    have hkept : c'.Metered (a ++ b) before := by
      refine h.congr ?_ ?_ ?_ ?_ ?_
      · rw [hrest, hbytes, hpri, if_pos rfl, Nat.add_zero]
      all_goals
        rw [hsame]
        rfl
    rw [hkept.steady.kept]
    exact hkept
  | false =>
    rw [hpri, if_neg Bool.false_ne_true] at hbytes
    have hshrink : c' = (c.setLink link).shrink (UInt32.ofNat (c.msg mp).bytes) := by
      rw [hc, ← msgSize_eq]
      exact if_neg
        (by rw [show (c.setLink link).isPri mp = false from hpri]; exact Bool.false_ne_true)
    exact hlink.shrink hshrink (hbytes.trans (by rw [hrest]))

/-- A call that is in bounds keeps the count and the marks. -/
theorem Effect.metered (heffect : Effect c ms e c' ms') (h : c.Metered ms before)
    (hin : c.inBounds (c.bytes ms) e = true) : c'.Metered ms' (c'.passed before) := by
  cases heffect with
  | @put a b mp m hput hms hmp hkind _ =>
    subst hms
    refine h.put hmp ?_
    cases hm : pcmsg m.dbType with
    | true => exact .inl rfl
    | false =>
      have hband : m.bBand = 0 := hkind.resolve_left (by simp [hm])
      refine .inr ?_
      cases e with
      | putq | putbq | insq =>
        cases hput
        simpa [Core.inBounds, hm, hband] using hin
      | _ => cases hput
  | @refuse mp m m' p n _ hmp _ =>
    have hkept : ((c.fill mp m').setLink (c.link.set p mp n)).Metered ms before := by
      refine h.congr (Core.bytes_congr fun x hx => ?_) rfl rfl rfl rfl
      exact Function.update_of_ne (ne_of_mem_of_not_mem hx hmp) _ _
    rw [hkept.steady.kept]
    exact hkept
  | take _ hms =>
    subst hms
    exact h.take _ rfl
  | @flush all link _ _ =>
    have hbytes := c.bytes_filter (c.spares all) ms
    have hlink : (c.setLink link).Metered ms before := h.congr rfl rfl rfl rfl rfl
    have hrest : ((c.setLink link).shrink (c.total (ms.filter fun mp => !c.spares all mp))).bytes
        (ms.filter (c.spares all)) = c.bytes (ms.filter (c.spares all)) :=
      Core.bytes_congr fun x _ => congrFun (Core.shrink_msg (c.setLink link) _) x
    refine hlink.shrink (congrArg _ (c.total_eq _)) (hbytes.trans ?_)
    rw [hrest]
  | tune hputs _ hflush _ =>
    have hkept : ∀ c' : Core μ, c'.msg = c.msg → c'.count = c.count → c'.hiwat = c.hiwat →
        c'.lowat = c.lowat → c'.full = c.full → c'.Metered ms (c'.passed before) := by
      intro c' hmsg hcount hhiwat hlowat hfull
      have hkept := h.congr (Core.bytes_congr fun x _ => congrFun hmsg x) hcount hhiwat hlowat hfull
      rw [hkept.steady.kept]
      exact hkept
    cases e with
    | bcanput pri =>
      show (if pri = 0 then c.want else c).Metered ms
        ((if pri = 0 then c.want else c).passed before)
      split
      · exact hkept _ rfl rfl rfl rfl rfl
      · exact hkept _ rfl rfl rfl rfl rfl
    | canput => exact hkept c.want rfl rfl rfl rfl rfl
    | setopt lowat hiwat band alloc =>
      show (if _ then c else c.setMarks lowat hiwat).Metered ms
        ((if _ then c else c.setMarks lowat hiwat).passed before)
      split
      · exact hkept _ rfl rfl rfl rfl rfl
      · next hband =>
        refine h.setMarks lowat hiwat (of_decide_eq_true ?_)
        exact (Bool.or_eq_true_iff.mp hin).resolve_left hband
    | strqset what pri val alloc =>
      have hpri : what = .QHIWAT ∨ what = .QLOWAT → ¬ 0 < pri := by
        rintro (rfl | rfl)
        all_goals
          rw [of_decide_eq_true hin]
          decide
      have hc : c.tune (.strqset what pri val alloc) = c := by
        cases what with
        | QHIWAT => exact if_neg (hpri (.inl rfl))
        | QLOWAT => exact if_neg (hpri (.inr rfl))
        | QMAXPSZ => rfl
        | QMINPSZ => rfl
      rw [hc]
      exact hkept c rfl rfl rfl rfl rfl
    | _ => exact hkept c rfl rfl rfl rfl rfl

end Effects

/-! ### Runs -/

section Runs

variable {m m' : Meter μ} {ms : List μ} {e : Event μ}

/-- Where the calls do not reach the code of the bands: the count and the mark of the queue are
    right, and no band is marked. -/
structure Meter.Inv (m : Meter μ) (ms : List μ) : Prop where
  sys : m.sys.Inv ms
  metered : m.sys.q.core.Metered ms (m.passed 0)
  unpassed : ∀ pri, pri ≠ 0 → m.passed pri = false

section

omit [DecidableEq μ] [Fintype μ]

/-- Without bands there is only band 0. -/
theorem Queue.level_bandless {q : Queue μ} (h : q.Bandless) {pri : UInt8} (hpri : pri ≠ 0) :
    q.level pri = none := by
  unfold Queue.level
  rw [if_neg hpri, Queue.queueBand_none h.bandp]
  rfl

/-- The bytes of band 0 are those that count. -/
theorem Queue.bytes_eq {q : Queue μ} (h : q.core.Plain ms) : q.bytes 0 ms = q.core.bytes ms := by
  unfold Queue.bytes Core.bytes Queue.ofBand
  congr 2
  apply List.filter_congr
  intro x hx
  have hband : (q.msg x).bBand = 0 := h.band x hx
  rw [hband]
  show (!q.isPri x && true) = !q.isPri x
  rw [Bool.and_true]

theorem Meter.Inv.sound (h : m.Inv ms) : m.Sound := by
  have hbase : ∀ {pri l}, m.sys.q.level pri = some l →
      pri = 0 ∧ l = ⟨m.sys.q.qCount, m.sys.q.qHiwat, m.sys.q.qLowat, m.sys.q.qfull⟩ := by
    intro pri l hl
    by_cases hpri : pri = 0
    · subst hpri
      exact ⟨rfl, (Option.some.inj hl).symm⟩
    · rw [Queue.level_bandless h.sys.bandless hpri] at hl
      cases hl
  have hcount : m.sys.q.qCount = UInt32.ofNat (m.sys.q.core.bytes ms) := h.metered.count
  have hfull : m.sys.q.qfull = m.passed 0 := h.metered.steady.full
  refine ⟨h.sys.halted, ms, h.sys.plain.holds, ?_, ?_, ?_, ?_⟩
  · intro pri l hl
    obtain ⟨rfl, rfl⟩ := hbase hl
    rw [Queue.bytes_eq h.sys.plain, hcount]
    exact UInt32.toNat_ofNat_of_lt' h.metered.fits
  · intro pri hl
    have hpri : pri ≠ 0 := by
      rintro rfl
      cases hl
    refine List.filter_eq_nil_iff.mpr fun x hx => ?_
    have hband : (m.sys.q.msg x).bBand = 0 := h.sys.plain.band x hx
    simp [hband, hpri.symm]
  · rintro pri l hl ⟨pri', _, hpassed⟩
    obtain ⟨rfl, rfl⟩ := hbase hl
    have hzero : pri' = 0 := by
      by_contra hpri
      rw [h.unpassed pri' hpri] at hpassed
      cases hpassed
    rw [hzero] at hpassed
    exact hfull.trans hpassed
  · intro pri l hl hlow
    obtain ⟨rfl, rfl⟩ := hbase hl
    exact hfull.trans (h.metered.steady.low (hlow 0 _ (UInt8.le_refl _) rfl))

end

/-- A call that is regular keeps the counts and the marks. -/
theorem Meter.Inv.step (h : m.Inv ms) (hreg : m.regular e = true) (hstep : m.step e = some m') :
    ∃ ms', m'.Inv ms' := by
  obtain ⟨hregular, hin⟩ := (Bool.and_eq_true _ _).mp hreg
  obtain ⟨s', hs, rfl⟩ := Option.map_eq_some_iff.mp hstep
  rw [Queue.chain_eq h.sys.plain.holds, Queue.bytes_eq h.sys.plain] at hin
  obtain ⟨c', ms', heffect, hcore, hinv⟩ := h.sys.step hregular hs
  have hmetered := heffect.metered h.metered hin
  have hpassed : c'.passed (m.passed 0) = s'.q.core.passed (m.passed 0) := by
    rw [← hcore]
    rfl
  refine ⟨ms', hinv, ?_, ?_⟩
  · show s'.q.core.Metered ms' (s'.q.core.passed (m.passed 0))
    rw [← hpassed]
    refine hmetered.congr (Core.bytes_congr fun x _ => ?_) ?_ ?_ ?_ ?_
    all_goals
      rw [← hcore]
  · intro pri hpri
    show ((s'.q.level pri).elim false fun l => l.passed (m.passed pri)) = false
    rw [Queue.level_bandless hinv.bandless hpri]
    rfl

/-- **Counts and marks are right** in a run in which no call reaches the code of the bands, less
    than 2³² bytes are queued, and the watermarks are in order and set by `QBAND_SETOPT`. -/
theorem marks_kept {m : Meter μ}
    (h : Reach Meter.Initial Meter.step (fun m e => m.regular e = true) m) : m.Sound := by
  have hinv : ∃ ms, m.Inv ms := by
    refine @Reach.invariant _ _ _ _ _ (fun m => ∃ ms, m.Inv ms) ?_ ?_ m h
    · intro m hm
      have hs := hm.sys
      refine ⟨[], ⟨hs.halted, ⟨hs.empty, List.Pairwise.nil, fun x hx => absurd hx List.not_mem_nil⟩,
        ⟨hs.bandp, hs.nband⟩, hs.locked.trans hs.held.symm, ?_⟩, ⟨?_, hm.count, Nat.two_pow_pos 32⟩,
          ?_⟩
      · rw [hs.log]
        exact ⟨List.Perm.refl _, fun _ => List.Pairwise.nil, fun x hx => absurd hx List.not_mem_nil⟩
      · rw [hm.passed]
        refine ⟨hm.marks, hm.full, ?_, fun _ => rfl⟩
        intro hlt
        have hzero : m.sys.q.core.count = 0 := hm.count
        rw [hzero] at hlt
        exact absurd hlt (UInt32.not_lt.mpr UInt32.zero_le)
      · rw [hm.passed]
        exact fun _ _ => rfl
    · rintro m e m' ⟨ms, hm⟩ hreg hstep
      exact hm.step hreg hstep
  obtain ⟨ms, hm⟩ := hinv
  exact hm.sound

/-- The start of a run. -/
def Meter.start (μ : Type) : Meter μ := ⟨.start μ, fun _ => false⟩

omit [DecidableEq μ] [Fintype μ] in
theorem Meter.start_initial : (Meter.start μ).Initial :=
  ⟨Sys.start_initial, rfl, rfl, UInt32.zero_le, rfl⟩

/-- The queue is filled, and emptied to its low-water mark. -/
theorem marks_kept_filled : ∃ m : Meter (Fin 3), m.Sound ∧ m.sys.q.qCount = 300 ∧
    m.sys.q.qfull = true := by
  have hrun : (runFrom (fun (m : Meter (Fin 3)) e => if m.regular e then m.step e else none)
      (Meter.start (Fin 3))
      [.setopt (some 200) (some 400) none false, .putq 0 ⟨0, 0, [200]⟩ false,
        .putq 1 ⟨0, 0, [100, 200]⟩ false, .canput, .getq]).any
      (fun m => m.sys.q.qCount = 300 ∧ m.sys.q.qfull = true) = true := by
    decide +kernel
  obtain ⟨m, hm, hfull⟩ := (Option.any_eq_true _ _).mp hrun
  have hfull := of_decide_eq_true hfull
  exact ⟨m, marks_kept (Reach.checked (fun _ _ h => h) (Reach.init Meter.start_initial) hm), hfull⟩

/-- **A mark is missed**: `strqset` for a band sets the high-water mark of the queue and does not
    mark the queue full, which is over it. -/
theorem mark_missed :
    ¬ ∀ m : Meter (Fin 1), Reach Meter.Initial Meter.step (fun _ _ => True) m → m.Sound := by
  intro hall
  have hrun : (runFrom Meter.step (Meter.start (Fin 1))
      [.putq 0 ⟨0, 0, [5]⟩ false, .freezestr, .strqset .QHIWAT 1 3 false]).any
      (fun m => m.passed 0 = true ∧ m.sys.q.qfull = false) = true := by decide +kernel
  obtain ⟨m, hm, hmark⟩ := (Option.any_eq_true _ _).mp hrun
  obtain ⟨hpassed, hfull⟩ := of_decide_eq_true hmark
  obtain ⟨-, ms, -, hmarked⟩ :=
      hall m (Reach.run (fun _ _ => trivial) (Reach.init Meter.start_initial) hm)
  have hmarked := hmarked.full 0 _ rfl ⟨0, UInt8.le_refl _, hpassed⟩
  rw [hfull] at hmarked
  cases hmarked

end Runs

end CohKernel.Strm
