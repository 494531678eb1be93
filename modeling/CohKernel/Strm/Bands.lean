import CohKernel.Strm.Order

namespace CohKernel.Strm

open CohKernel.Lib

/-!
# Queues with bands

`getq` and `putbq` on a queue that has its bands, as the header of the source describes it, although
no call stores them: the loops over the bands end, and a message that has been taken off goes back
where it was.

* `Shape`, `Queue.Bands` — a queue without its flow control, and its list of bands.
-/

variable {μ : Type} {q q' : Queue μ} {bs l₁ l₂ : List ℕ} {b b' : ℕ} {pri : UInt8}

/-! ### Bands -/

/-- A queue without its flow control and its lock. -/
structure Shape (μ : Type) where
  link : Deque μ
  msg : μ → Msgb
  srvp : Bool
  enab : Bool
  wantr : Bool
  noenb : Bool
  procsoff : Bool
  lastband : UInt8
  bandp : Option ℕ
  next : ℕ → Option ℕ
  first : ℕ → Option μ
  last : ℕ → Option μ
  bands : ℕ

/-- The shape of a queue. -/
def Queue.shape (q : Queue μ) : Shape μ where
  link := q.link
  msg := q.msg
  srvp := q.qiSrvp
  enab := q.qenab
  wantr := q.qwantr
  noenb := q.qnoenb
  procsoff := q.qprocsoff
  lastband := q.qLastband
  bandp := q.qBandp
  next := fun b => (q.band b).qbNext
  first := fun b => (q.band b).qbFirst
  last := fun b => (q.band b).qbLast
  bands := q.bands

/-- The bands are linked in this order. -/
structure Queue.Bands (q : Queue μ) (bs : List ℕ) : Prop where
  chain : Linked (fun b => (q.band b).qbNext) q.qBandp bs
  nodup : bs.Nodup
  bound : ∀ b ∈ bs, b < q.bands

/-- The bands are linked in the same way. -/
structure Queue.SameBands (q q' : Queue μ) : Prop where
  bandp : q'.qBandp = q.qBandp
  next : (fun b => (q'.band b).qbNext) = fun b => (q.band b).qbNext
  bands : q'.bands = q.bands

theorem Queue.SameBands.of_shape {s : Shape μ} (hs : q'.shape = s) (hbandp : s.bandp = q.qBandp)
    (hnext : s.next = fun b => (q.band b).qbNext) (hbands : s.bands = q.bands) :
    q.SameBands q' :=
  ⟨(congrArg Shape.bandp hs).trans hbandp, (congrArg Shape.next hs).trans hnext,
    (congrArg Shape.bands hs).trans hbands⟩

theorem Queue.Bands.same (h : q.Bands bs) (hs : q.SameBands q') : q'.Bands bs := by
  refine ⟨?_, h.nodup, ?_⟩
  · rw [hs.next, hs.bandp]
    exact h.chain
  · rw [hs.bands]
    exact h.bound

theorem Queue.Bands.congr (h : q.Bands bs) (hs : q'.shape = q.shape) : q'.Bands bs :=
  h.same (.of_shape hs rfl rfl rfl)

theorem Queue.SameBands.queueBand (hs : q.SameBands q') (pri : UInt8) :
    q'.queueBand pri = q.queueBand pri := by
  show (fun o : Option ℕ => o.bind fun b => (q'.band b).qbNext)^[_] q'.qBandp = _
  rw [hs.next, hs.bandp]
  rfl

theorem Queue.Bands.length_le (h : q.Bands bs) : bs.length ≤ q.bands := by
  have hsub : bs ⊆ List.range q.bands := fun b hb => List.mem_range.mpr (h.bound b hb)
  have hle := (List.subperm_of_subset h.nodup hsub).length_le
  rwa [List.length_range] at hle

/-- A change of a band that keeps its links. -/
theorem Queue.shape_setBand (q : Queue μ) (b : ℕ) {f : Qband μ → Qband μ}
    (hnext : (f (q.band b)).qbNext = (q.band b).qbNext)
    (hfirst : (f (q.band b)).qbFirst = (q.band b).qbFirst)
    (hlast : (f (q.band b)).qbLast = (q.band b).qbLast) : (q.setBand b f).shape = q.shape := by
  have hband : ∀ {β : Type} (g : Qband μ → β), g (f (q.band b)) = g (q.band b) →
      (fun i => g ((q.setBand b f).band i)) = fun i => g (q.band i) := by
    intro β g hg
    funext i
    by_cases hi : i = b
    · subst hi
      rw [Queue.setBand_band, hg]
    · show g (Function.update q.band b _ i) = _
      rw [Function.update_of_ne hi]
  unfold Queue.shape
  rw [hband _ hnext, hband _ hfirst, hband _ hlast]
  rfl

/-- The ends of a band are stored. -/
theorem Queue.shape_setEnds (q : Queue μ) (b : ℕ) (first last : Option μ) :
    (q.setBand b fun x => { x with qbFirst := first, qbLast := last }).shape =
      { q.shape with
        first := Function.update q.shape.first b first
        last := Function.update q.shape.last b last } := by
  have hband : ∀ {β : Type} (g : Qband μ → β),
      (fun i => g ((q.setBand b fun x => { x with qbFirst := first, qbLast := last }).band i)) =
        Function.update (fun i => g (q.band i)) b
          (g { q.band b with qbFirst := first, qbLast := last }) :=
    fun g => Function.comp_update g q.band b _
  unfold Queue.shape
  rw [hband, hband, hband, Function.update_eq_self_iff.mpr rfl]
  rfl

/-- The search of `QBAND_PREV` comes to the band before. -/
theorem scanPrev_eq {y : ℕ} {fuel : ℕ} {head : Option ℕ}
    (h : Linked (fun b => (q.band b).qbNext) head (l₁ ++ y :: b :: l₂))
    (hnodup : (l₁ ++ y :: b :: l₂).Nodup) (hfuel : l₁.length < fuel) :
    q.scanPrev b fuel head = .ok (some y) := by
  induction l₁ generalizing head fuel with
  | nil =>
    obtain ⟨rfl, hnext, -⟩ := h
    cases fuel with
    | zero => cases hfuel
    | succ fuel => exact if_pos hnext
  | cons z l₁ ih =>
    obtain ⟨rfl, hnext⟩ := h
    obtain ⟨hz, hnodup⟩ := List.nodup_cons.mp hnodup
    cases fuel with
    | zero => cases hfuel
    | succ fuel =>
      have hne : (q.band z).qbNext ≠ some b := by
        intro heq
        cases l₁ with
        | nil =>
          have hy : (q.band z).qbNext = some y := hnext.1
          have hyb : y = b := Option.some_injective _ (hy.symm.trans heq)
          exact (List.nodup_cons.mp hnodup).1 (hyb ▸ List.mem_cons_self)
        | cons w l₁ =>
          have hw : (q.band z).qbNext = some w := hnext.1
          have hwb : w = b := Option.some_injective _ (hw.symm.trans heq)
          exact (List.nodup_cons.mp hnodup).1 (hwb ▸ by simp)
      exact (if_neg hne).trans (ih hnext hnodup (Nat.lt_of_succ_lt_succ hfuel))

theorem Queue.Bands.prev_eq (h : q.Bands (l₁ ++ b :: l₂)) : q.qbandPrev b = .ok l₁.getLast? := by
  have hlen := h.length_le
  unfold Queue.qbandPrev
  rcases List.eq_nil_or_concat' l₁ with rfl | ⟨l, y, rfl⟩
  · exact if_pos h.chain.1
  · have hnodup := h.nodup
    have hchain := h.chain
    rw [List.append_assoc] at hnodup hchain hlen
    have hne : q.qBandp ≠ some b := by
      intro heq
      cases l with
      | nil =>
        have hyb : y = b := Option.some_injective _ (hchain.1.symm.trans heq)
        exact (List.nodup_cons.mp hnodup).1 (hyb ▸ List.mem_cons_self)
      | cons z l =>
        have hzb : z = b := Option.some_injective _ (hchain.1.symm.trans heq)
        exact (List.nodup_cons.mp hnodup).1 (hzb ▸ by simp)
    rw [if_neg hne, List.getLast?_concat]
    apply scanPrev_eq hchain hnodup
    simp at hlen
    omega

/-- The loop of `QBAND_INCREASE` ends. -/
theorem markDown_shape {fuel : ℕ} (h : q.Bands (l₁ ++ b :: l₂)) (hfuel : l₁.length < fuel) :
    ∃ q', Queue.markDown fuel q b = .ok q' ∧ q'.shape = q.shape := by
  induction fuel generalizing q l₁ b l₂ with
  | zero => cases hfuel
  | succ fuel ih =>
    have hset : (q.setBand b fun x => { x with qbFull := true }).shape = q.shape :=
      q.shape_setBand b rfl rfl rfl
    unfold Queue.markDown
    simp only [(h.congr hset).prev_eq, bind, Except.bind]
    rcases List.eq_nil_or_concat' l₁ with rfl | ⟨l, y, rfl⟩
    · exact ⟨_, rfl, hset⟩
    · rw [List.getLast?_concat]
      rw [List.append_assoc] at h
      obtain ⟨q', hq', hshape⟩ := ih (h.congr hset) (by simp at hfuel; omega)
      exact ⟨q', hq', hshape.trans hset⟩

/-- The loop of `QBAND_REDUCE` ends. -/
theorem releaseDown_shape {fuel : ℕ} (h : q.Bands (l₁ ++ b :: l₂)) (hfuel : l₁.length < fuel) :
    ∃ q', Queue.releaseDown fuel q b = .ok q' ∧ q'.shape = q.shape := by
  induction fuel generalizing q l₁ b l₂ with
  | zero => cases hfuel
  | succ fuel ih =>
    have hset : ({ q.setBand b fun x => { x with qbFull := false, qbWantw := false } with
        qback := q.qback || (q.band b).qbWantw } : Queue μ).shape = q.shape := by
      show (q.setBand b fun x => { x with qbFull := false, qbWantw := false }).shape = q.shape
      exact q.shape_setBand b rfl rfl rfl
    unfold Queue.releaseDown
    simp only [(h.congr hset).prev_eq, bind, Except.bind]
    rcases List.eq_nil_or_concat' l₁ with rfl | ⟨l, y, rfl⟩
    · refine ⟨_, rfl, ?_⟩
      split_ifs
      · exact hset
      · exact hset
    · rw [List.getLast?_concat]
      rw [List.append_assoc] at h
      dsimp only
      split_ifs
      · obtain ⟨q', hq', hshape⟩ := ih (h.congr hset) (by simp at hfuel; omega)
        exact ⟨q', hq', hshape.trans hset⟩
      · exact ⟨_, rfl, hset⟩

theorem Queue.qbandIncrease_shape (h : q.Bands bs) (hb : b ∈ bs) (n : UInt32) :
    ∃ q', q.qbandIncrease b n = .ok q' ∧ q'.shape = q.shape := by
  obtain ⟨l₁, l₂, rfl⟩ := List.append_of_mem hb
  have hset : (q.setBand b fun x => { x with qbCount := x.qbCount + n }).shape = q.shape :=
    q.shape_setBand b rfl rfl rfl
  have hbands := h.congr hset
  unfold Queue.qbandIncrease
  dsimp only
  split_ifs
  · exact ⟨_, rfl, hset⟩
  · obtain ⟨q', hq', hshape⟩ := markDown_shape hbands
      (show l₁.length < (q.setBand b fun x => { x with qbCount := x.qbCount + n }).bands + 1 by
        have := hbands.length_le
        simp at this
        omega)
    simp only [hq', bind, Except.bind]
    refine ⟨_, rfl, ?_⟩
    split_ifs
    · exact hshape.trans hset
    · exact hshape.trans hset
  · exact ⟨_, rfl, hset⟩

theorem Queue.qbandReduce_shape (h : q.Bands bs) (hb : b ∈ bs) (n : UInt32) :
    ∃ q', q.qbandReduce b n = .ok q' ∧ q'.shape = q.shape := by
  obtain ⟨l₁, l₂, rfl⟩ := List.append_of_mem hb
  have hset : (q.setBand b fun x => { x with qbCount := x.qbCount - n }).shape = q.shape :=
    q.shape_setBand b rfl rfl rfl
  have hbands := h.congr hset
  unfold Queue.qbandReduce
  dsimp only
  split_ifs
  · exact ⟨_, rfl, hset⟩
  · obtain ⟨q', hq', hshape⟩ := releaseDown_shape hbands
      (show l₁.length < (q.setBand b fun x => { x with qbCount := x.qbCount - n }).bands + 1 by
        have := hbands.length_le
        simp at this
        omega)
    exact ⟨q', hq', hshape.trans hset⟩
  · exact ⟨_, rfl, hset⟩

theorem Queue.queueReduce_shape (q : Queue μ) (n : UInt32) : (q.queueReduce n).shape = q.shape := by
  unfold Queue.queueReduce
  dsimp only
  split_ifs
  · rfl
  · rfl

theorem Queue.queueIncrease_shape (q : Queue μ) (n : UInt32) :
    (q.queueIncrease n).shape = q.shape := by
  unfold Queue.queueIncrease
  dsimp only
  split_ifs
  · rfl
  · rfl

/-- `QUEUE_BAND` counts along the bands. -/
theorem Queue.Bands.queueBand_eq (h : q.Bands bs) (pri : UInt8) :
    q.queueBand pri = bs[(pri - 1).toNat]? := h.chain.iterate _

theorem Queue.Bands.mem (h : q.Bands bs) (hb : q.queueBand pri = some b) : b ∈ bs := by
  rw [h.queueBand_eq] at hb
  exact List.mem_of_getElem? hb

/-- Two bands have structures of their own. -/
theorem Queue.Bands.ne (h : q.Bands bs) {pri' : UInt8} (hne : pri' ≠ pri)
    (hb : q.queueBand pri = some b) (hb' : q.queueBand pri' = some b') : b' ≠ b := by
  rw [h.queueBand_eq] at hb hb'
  obtain ⟨hlt, hget⟩ := List.getElem?_eq_some_iff.mp hb
  obtain ⟨hlt', hget'⟩ := List.getElem?_eq_some_iff.mp hb'
  rintro rfl
  have hidx := (h.nodup.getElem_inj_iff).mp (hget.trans hget'.symm)
  apply hne
  rw [UInt8.toNat_inj] at hidx
  exact ((UInt8.sub_left_inj 1).mp hidx).symm

/-! ### Messages -/

variable {ms : List μ} {mp : μ}

theorem Queue.rank_eq (hpri : q.isPri mp = false) : q.rank mp = (q.msg mp).bBand.toNat :=
  if_neg (by simp [hpri])

theorem Queue.ofBand_cons (q : Queue μ) (pri : UInt8) (mp : μ) (ms : List μ) :
    q.ofBand pri (mp :: ms) =
      if q.isPri mp = false ∧ (q.msg mp).bBand = pri then mp :: q.ofBand pri ms
      else q.ofBand pri ms := by
  show List.filter _ (mp :: ms) = _
  rw [List.filter_cons]
  refine if_congr ?_ rfl rfl
  simp

/-- The first message of a band is the first of all, if no other band and no high-priority message
    comes before it. -/
theorem Queue.ofBand_head (horder : ms.Pairwise fun x y => q.rank y ≤ q.rank x)
    (hrank : ∀ x ∈ ms, q.rank x ≤ pri.toNat) (hne : q.ofBand pri ms ≠ []) :
    (q.ofBand pri ms).head? = ms.head? := by
  cases ms with
  | nil => rfl
  | cons y ms =>
    obtain ⟨z, hz⟩ := List.exists_mem_of_ne_nil _ hne
    obtain ⟨hmem, hband⟩ := List.mem_filter.mp hz
    obtain ⟨hpri, hband⟩ : q.isPri z = false ∧ (q.msg z).bBand = pri := by simpa using hband
    have hzy : q.rank z ≤ q.rank y := by
      rcases List.mem_cons.mp hmem with rfl | hmem
      · exact le_rfl
      · exact (List.pairwise_cons.mp horder).1 z hmem
    have hy := hrank y List.mem_cons_self
    rw [Queue.rank_eq hpri, hband] at hzy
    have hlt := pri.toNat_lt
    have hypri : q.isPri y = false := by
      by_contra hpri'
      have : q.rank y = 256 := if_pos (by simpa using hpri')
      omega
    rw [Queue.rank_eq hypri] at hzy hy
    have hyband : (q.msg y).bBand = pri := UInt8.toNat_inj.mp (le_antisymm hy hzy)
    rw [Queue.ofBand_cons, if_pos ⟨hypri, hyband⟩]
    rfl

/-- The messages are in order, as the classes of another queue say. -/
theorem Queue.Ordered.of_msg (hmsg : q'.msg = q.msg)
    (hqueue : ∀ pri, q'.queueBand pri = q.queueBand pri) (holds : q'.link.Holds ms)
    (horder : ms.Pairwise fun x y => q.rank y ≤ q.rank x)
    (hnone : ∀ pri, pri ≠ 0 → q.queueBand pri = none → q.ofBand pri ms = [])
    (hends : ∀ pri b, pri ≠ 0 → q.queueBand pri = some b →
      (q'.band b).qbFirst = (q.ofBand pri ms).head? ∧
        (q'.band b).qbLast = (q.ofBand pri ms).getLast?) : q'.Ordered ms := by
  have hpri : q'.isPri = q.isPri := by
    unfold Queue.isPri
    rw [hmsg]
  have hrank : q'.rank = q.rank := by
    unfold Queue.rank
    rw [hpri, hmsg]
  have hof : ∀ pri, q'.ofBand pri ms = q.ofBand pri ms := by
    intro pri
    unfold Queue.ofBand
    rw [hpri, hmsg]
  refine ⟨holds, hrank ▸ horder, fun pri hne hb => ?_, fun pri b hne hb => ?_⟩
  · rw [hqueue] at hb
    rw [hof]
    exact hnone pri hne hb
  · rw [hqueue] at hb
    rw [hof]
    exact hends pri b hne hb

/-- The order of the messages is a matter of the shape. -/
theorem Queue.Ordered.of_shape (h : q.Ordered ms) (hs : q'.shape = q.shape) : q'.Ordered ms := by
  have hlink : q'.link = q.link := congrArg Shape.link hs
  have hsame : q.SameBands q' := .of_shape hs rfl rfl rfl
  refine .of_msg (congrArg Shape.msg hs) hsame.queueBand (hlink ▸ h.holds) h.order h.unbanded ?_
  intro pri b hne hb
  have hfirst : (q'.band b).qbFirst = (q.band b).qbFirst := congrFun (congrArg Shape.first hs) b
  have hlast : (q'.band b).qbLast = (q.band b).qbLast := congrFun (congrArg Shape.last hs) b
  rw [hfirst, hlast]
  exact h.ends pri b hne hb

variable [DecidableEq μ]

/-- The shape after a message is unlinked at the front. -/
theorem Queue.unlink_shape (q : Queue μ) (mp : μ) :
    (q.unlink none mp).shape =
      { q.shape with
        link := q.link.join none (q.link.next (some mp)), lastband := (q.msg mp).bBand } := by
  unfold Queue.unlink
  cases q.link.next (some mp) <;> rfl

/-- `QBAND_DEQUEUE` of the first message of a band. -/
theorem Queue.qbandDequeue_first {l : List μ} (hfirst : (q.band b).qbFirst = some mp)
    (hlast : (q.band b).qbLast = (mp :: l).getLast?) (hmp : mp ∉ l)
    (hnext : l ≠ [] → q.link.next (some mp) = l.head?) :
    q.qbandDequeue b mp =
      q.setBand b fun x => { x with qbFirst := l.head?, qbLast := l.getLast? } := by
  unfold Queue.qbandDequeue
  rw [if_pos hfirst]
  cases l with
  | nil =>
    rw [if_pos (show (q.band b).qbLast = some mp from hlast)]
    rfl
  | cons y l =>
    rw [List.getLast?_cons_cons] at hlast
    have hne : (q.band b).qbLast ≠ some mp := by
      rw [hlast]
      exact fun heq => hmp (List.mem_of_getLast? heq)
    rw [if_neg hne]
    unfold Queue.setBand
    rw [hnext (List.cons_ne_nil y l), ← hlast]

/-! ### The calls -/

/-- What decides whether a queue is enabled stays as it is, and so do the messages and the bands. -/
structure Queue.Kept (q q' : Queue μ) (bs : List ℕ) : Prop where
  msg : q'.msg = q.msg
  srvp : q'.qiSrvp = q.qiSrvp
  wantr : q'.qwantr = q.qwantr
  noenb : q'.qnoenb = q.qnoenb
  procsoff : q'.qprocsoff = q.qprocsoff
  bands : q'.Bands bs
  queueBand : ∀ pri, q'.queueBand pri = q.queueBand pri
  locked : q'.qLocked = false

omit [DecidableEq μ] in
/-- The band of an ordinary message that is queued. -/
theorem Queue.Ordered.band_of (h : q.Ordered ms) (hmp : mp ∈ ms) (hpri : q.isPri mp = false)
    (hband : (q.msg mp).bBand ≠ 0) : ∃ b, q.queueBand (q.msg mp).bBand = some b := by
  rw [← Option.ne_none_iff_exists']
  intro hnone
  have hnil := h.unbanded _ hband hnone
  have hmem : mp ∈ q.ofBand (q.msg mp).bBand ms := List.mem_filter.mpr ⟨hmp, by simp [hpri]⟩
  rw [hnil] at hmem
  cases hmem

/-- The first message is taken off, and counts no more. -/
theorem Queue.Ordered.takeOff (h : q.Ordered (mp :: ms)) (hb : q.Bands bs) :
    ∃ q' first last, (q.unlink none mp).takeOff mp = .ok q' ∧ q'.Ordered ms ∧
      q'.shape = { q.shape with
        link := q.link.join none (q.link.next (some mp)), lastband := (q.msg mp).bBand
        first := first, last := last } := by
  have hshape := q.unlink_shape mp
  have hmsg : (q.unlink none mp).msg = q.msg := congrArg Shape.msg hshape
  have hlink : (q.unlink none mp).link = q.link.join none (q.link.next (some mp)) :=
    congrArg Shape.link hshape
  have hfirst : ∀ b, ((q.unlink none mp).band b).qbFirst = (q.band b).qbFirst :=
    congrFun (congrArg Shape.first hshape)
  have hlast : ∀ b, ((q.unlink none mp).band b).qbLast = (q.band b).qbLast :=
    congrFun (congrArg Shape.last hshape)
  have hsame : q.SameBands (q.unlink none mp) := .of_shape hshape rfl rfl rfl
  have hnext : q.link.next (some mp) = ms.head? := Deque.Holds.next_cell (a := []) h.holds
  have hholds : (q.unlink none mp).link.Holds ms := by
    rw [hlink, hnext]
    exact Deque.Holds.join (a := []) h.holds
  obtain ⟨hrank, horder⟩ := List.pairwise_cons.mp h.order
  have hnot : mp ∉ ms := (List.nodup_cons.mp h.holds.nodup).1
  have hnone : ∀ pri, pri ≠ 0 → q.queueBand pri = none → q.ofBand pri ms = [] := by
    intro pri hne hb
    have hnil := h.unbanded pri hne hb
    rw [Queue.ofBand_cons] at hnil
    split_ifs at hnil
    exact hnil
  -- the ends of the bands that the message is not in
  have hother : ∀ pri b, pri ≠ 0 → q.queueBand pri = some b →
      ¬ (q.isPri mp = false ∧ (q.msg mp).bBand = pri) →
      ((q.unlink none mp).band b).qbFirst = (q.ofBand pri ms).head? ∧
        ((q.unlink none mp).band b).qbLast = (q.ofBand pri ms).getLast? := by
    intro pri b hne hb hno
    have hends := h.ends pri b hne hb
    rw [Queue.ofBand_cons, if_neg hno] at hends
    rw [hfirst, hlast]
    exact hends
  have hpri' : (q.unlink none mp).isPri mp = q.isPri mp := by
    unfold Queue.isPri
    rw [hmsg]
  unfold Queue.takeOff
  rw [hpri', hmsg]
  by_cases hpri : q.isPri mp = true
  · rw [if_pos hpri]
    refine ⟨_, q.shape.first, q.shape.last, rfl, ?_, hshape⟩
    refine .of_msg hmsg hsame.queueBand hholds horder hnone fun pri b hne hb => ?_
    exact hother pri b hne hb fun hc => by simp [hpri] at hc
  rw [if_neg hpri]
  by_cases hband : 0 < (q.msg mp).bBand
  · rw [if_pos hband]
    have hne : (q.msg mp).bBand ≠ 0 := (UInt8.pos_iff_ne_zero).mp hband
    obtain ⟨n, hn⟩ := h.band_of List.mem_cons_self (by simpa using hpri) hne
    obtain ⟨hmpfirst, hmplast⟩ := h.ends _ n hne hn
    rw [Queue.ofBand_cons, if_pos ⟨by simpa using hpri, rfl⟩] at hmpfirst hmplast
    have hle : ∀ x ∈ ms, q.rank x ≤ (q.msg mp).bBand.toNat := by
      intro x hx
      rw [← Queue.rank_eq (by simpa using hpri)]
      exact hrank x hx
    have hdequeue := Queue.qbandDequeue_first (q := q.unlink none mp)
      ((hfirst n).trans hmpfirst) ((hlast n).trans hmplast)
      (fun hmem => hnot (List.mem_of_mem_filter hmem)) fun hl => by
        rw [Queue.ofBand_head horder hle hl, hlink]
        exact hnext
    have hends := Queue.shape_setEnds (q.unlink none mp) n
      (q.ofBand (q.msg mp).bBand ms).head? (q.ofBand (q.msg mp).bBand ms).getLast?
    have hsame' := Queue.SameBands.of_shape hends rfl rfl rfl
    obtain ⟨q', hq', hshape'⟩ := Queue.qbandReduce_shape ((hb.same hsame).same hsame')
      (hb.mem hn) (msgSize (q.msg mp))
    rw [hsame.queueBand, hn]
    show ∃ q' first last, ((q.unlink none mp).qbandDequeue n mp).qbandReduce n _ = _ ∧ _
    rw [hdequeue, hq']
    refine ⟨q', Function.update q.shape.first n (q.ofBand (q.msg mp).bBand ms).head?,
      Function.update q.shape.last n (q.ofBand (q.msg mp).bBand ms).getLast?, rfl, ?_, ?_⟩
    · refine Queue.Ordered.of_shape ?_ hshape'
      refine .of_msg hmsg (fun pri => (hsame'.queueBand pri).trans (hsame.queueBand pri)) hholds
        horder hnone fun pri b hne hb' => ?_
      by_cases hpri' : pri = (q.msg mp).bBand
      · subst hpri'
        cases hn.symm.trans hb'
        rw [Queue.setBand_band]
        exact ⟨rfl, rfl⟩
      · have hbn : b ≠ n := hb.ne hpri' hn hb'
        have hkeep : ((q.unlink none mp).setBand n fun x => { x with
            qbFirst := (q.ofBand (q.msg mp).bBand ms).head?
            qbLast := (q.ofBand (q.msg mp).bBand ms).getLast? }).band b =
            (q.unlink none mp).band b := Function.update_of_ne hbn _ _
        rw [hkeep]
        exact hother pri b hne hb' fun hc => hpri' hc.2.symm
    · rw [hshape', hends, hshape]
  · rw [if_neg hband]
    have hzero : (q.msg mp).bBand = 0 := by
      by_contra hne
      exact hband (UInt8.pos_iff_ne_zero.mpr hne)
    refine ⟨_, q.shape.first, q.shape.last, rfl, ?_, (Queue.queueReduce_shape _ _).trans hshape⟩
    have hord : (q.unlink none mp).Ordered ms := by
      refine .of_msg hmsg hsame.queueBand hholds horder hnone fun pri b hne hb => ?_
      exact hother pri b hne hb fun hc => hne (hc.2.symm.trans hzero)
    exact hord.of_shape (Queue.queueReduce_shape _ _)

/-- `getq` takes the first message off. -/
theorem Queue.getq_first (hl : q.qLocked = false) (h : q.Ordered (mp :: ms)) (hb : q.Bands bs) :
    ∃ r, q.getq = .ok r ∧ r.q.Ordered ms ∧ q.Kept r.q bs ∧ r.q.qenab = q.qenab ∧
      r.q.qLastband = (q.msg mp).bBand := by
  have h' : (q.setLocked true).Ordered (mp :: ms) := h.of_shape rfl
  have hb' : (q.setLocked true).Bands bs := hb.congr rfl
  obtain ⟨q', first, last, hq', hord, hshape⟩ := h'.takeOff hb'
  have hfirst : (q.setLocked true).qFirst = some mp := h.holds.first_eq
  have hsame : q.SameBands q' := .of_shape hshape rfl rfl rfl
  refine ⟨q'.release true, ?_, hord.of_shape rfl, ?_, congrArg Shape.enab hshape,
    congrArg Shape.lastband hshape⟩
  · unfold Queue.getq
    rw [Queue.freeze_eq hl]
    simp only [bind, Except.bind, hfirst, hq']
  · exact ⟨congrArg Shape.msg hshape, congrArg Shape.srvp hshape, congrArg Shape.wantr hshape,
      congrArg Shape.noenb hshape, congrArg Shape.procsoff hshape, (hb.same hsame).congr rfl,
      hsame.queueBand, rfl⟩

/-- `getq` finds no message. -/
theorem Queue.getq_empty (hl : q.qLocked = false) (h : q.Ordered []) :
    ∃ r, q.getq = .ok r ∧ r.q.Ordered [] ∧ r.q.qenab = q.qenab := by
  have hfirst : (q.setLocked true).qFirst = none := h.holds.first_eq
  refine ⟨({ q.setLocked true with qwantr := true } : Queue μ).release false, ?_,
    Queue.Ordered.of_msg rfl (fun _ => rfl) h.holds h.order h.unbanded h.ends, rfl⟩
  unfold Queue.getq
  rw [Queue.freeze_eq hl]
  simp only [bind, Except.bind, hfirst]

/-- A message of this band that is put on the queue enables it. -/
def Queue.enables (q : Queue μ) (band : UInt8) : Bool :=
  !q.qnoenb && (q.qwantr || decide (q.qLastband < band)) && q.qiSrvp && !q.qprocsoff

omit [DecidableEq μ] in
/-- The test of `QUEUE_CHECK_SCHED`. -/
theorem Queue.checkSched_shape (q : Queue μ) (band : UInt8) : ∃ lastband,
    (q.checkSched band).shape =
      { q.shape with enab := q.qenab || q.enables band, lastband := lastband } := by
  unfold Queue.checkSched Queue.queueTrysched Queue.enables
  by_cases hwant : (!q.qnoenb) = true ∧ (q.qwantr = true ∨ q.qLastband < band)
  · have hwant' : (!q.qnoenb && (q.qwantr || decide (q.qLastband < band))) = true := by
      simpa using hwant
    rw [if_pos hwant, hwant']
    refine ⟨band, ?_⟩
    dsimp only
    by_cases hsrvp : (!q.qiSrvp || q.qprocsoff) = true
    · rw [if_pos hsrvp]
      have hoff : (q.qiSrvp && !q.qprocsoff) = false := by
        revert hsrvp
        cases q.qiSrvp <;> cases q.qprocsoff <;> decide
      rw [Bool.true_and, hoff, Bool.or_false]
      rfl
    · rw [if_neg hsrvp]
      have hon : (q.qiSrvp && !q.qprocsoff) = true := by
        revert hsrvp
        cases q.qiSrvp <;> cases q.qprocsoff <;> decide
      rw [Bool.true_and, hon, Bool.or_true]
      rfl
  · have hwant' : (!q.qnoenb && (q.qwantr || decide (q.qLastband < band))) = false := by
      rw [Bool.eq_false_iff]
      simpa using hwant
    rw [if_neg hwant, hwant', Bool.false_and, Bool.false_and, Bool.or_false]
    exact ⟨q.qLastband, rfl⟩

/-- A message goes to the front of a queue that is in order. -/
theorem Queue.Ordered.front (h : q.Ordered ms) (hmp : mp ∉ ms) (hpri : q.isPri mp = false)
    (hrank : ∀ x ∈ ms, q.rank x ≤ q.rank mp) (hmsg : q'.msg = q.msg)
    (hqueue : ∀ pri, q'.queueBand pri = q.queueBand pri)
    (hlink : q'.link = q.link.insert none mp ms.head?)
    (hband : (q.msg mp).bBand ≠ 0 → ∃ b, q.queueBand (q.msg mp).bBand = some b ∧
      (q'.band b).qbFirst = some mp ∧
      (q'.band b).qbLast = (mp :: q.ofBand (q.msg mp).bBand ms).getLast?)
    (hother : ∀ pri b, pri ≠ (q.msg mp).bBand → q.queueBand pri = some b →
      (q'.band b).qbFirst = (q.band b).qbFirst ∧ (q'.band b).qbLast = (q.band b).qbLast) :
    q'.Ordered (mp :: ms) := by
  refine .of_msg hmsg hqueue ?_ (List.pairwise_cons.mpr ⟨hrank, h.order⟩) ?_ ?_
  · rw [hlink]
    exact Deque.Holds.insert (a := []) h.holds hmp
  · intro pri hne hb
    rw [Queue.ofBand_cons]
    split_ifs with hc
    · obtain ⟨-, rfl⟩ := hc
      obtain ⟨b, hb', -⟩ := hband hne
      cases hb.symm.trans hb'
    · exact h.unbanded pri hne hb
  · intro pri b hne hb
    rw [Queue.ofBand_cons]
    split_ifs with hc
    · obtain ⟨-, rfl⟩ := hc
      obtain ⟨b', hb', hfirst, hlast⟩ := hband hne
      cases hb.symm.trans hb'
      exact ⟨hfirst, hlast⟩
    · obtain ⟨hfirst, hlast⟩ := hother pri b (fun heq => hc ⟨hpri, heq.symm⟩) hb
      rw [hfirst, hlast]
      exact h.ends pri b hne hb

omit [DecidableEq μ] in
theorem dropWhile_eq_of_neg {p : μ → Bool} (h : ∀ x ∈ ms, p x = false) : ms.dropWhile p = ms := by
  cases ms with
  | nil => rfl
  | cons x ms => exact List.dropWhile_cons_of_neg (by simp [h x List.mem_cons_self])

variable [Fintype μ]

/-- `QUEUE_PLACE_MSG` of a message that goes before all others. -/
theorem Queue.queuePlaceMsg_front {band : UInt8} (h : q.link.Holds ms)
    (hpri : ∀ x ∈ ms, q.isPri x = false) (hle : ∀ x ∈ ms, (q.msg x).bBand ≤ band) (mp : μ) :
    q.queuePlaceMsg mp band = q.setLink (q.link.insert none mp ms.head?) := by
  have hlen := List.Nodup.length_le_card h.nodup
  have hfirst : q.qFirst = ms.head? := h.first_eq
  have hpris := Deque.Holds.skip (a := []) h q.isPri hlen
  have hbands := Deque.Holds.skip (a := []) h (fun m => decide (band < (q.msg m).bBand)) hlen
  rw [dropWhile_eq_of_neg hpri] at hpris
  have hnone : ∀ x ∈ ms, (fun m => decide (band < (q.msg m).bBand)) x = false :=
    fun x hx => decide_eq_false (UInt8.not_lt.mpr (hle x hx))
  rw [dropWhile_eq_of_neg hnone] at hbands
  have hplace : q.findPlace band = ms.head? := by
    unfold Queue.findPlace
    rw [hfirst, hpris, hbands]
  have hprev : q.link.prev ms.head? = none := Deque.Holds.prev_eq (a := []) h
  unfold Queue.queuePlaceMsg Queue.linkBefore
  rw [hplace, hprev]

/-- The part of `putbq` for an ordinary message, before messages of its class and of lower ones. -/
theorem Queue.putOrdinary_front (alloc : Bool) (h : q.Ordered ms) (hb : q.Bands bs) (hmp : mp ∉ ms)
    (hpri : q.isPri mp = false) (hrank : ∀ x ∈ ms, q.rank x ≤ q.rank mp)
    (hband : (q.msg mp).bBand ≠ 0 → ∃ b, q.queueBand (q.msg mp).bBand = some b) :
    ∃ r, (q.putOrdinary mp alloc (q.msg mp).bBand fun q => q.queuePlaceMsg mp (q.msg mp).bBand) =
        .ok r ∧ r.val = true ∧ r.q.Ordered (mp :: ms) ∧
      r.q.qenab = (q.qenab || q.enables (q.msg mp).bBand) := by
  have hlow : ∀ x ∈ ms, q.isPri x = false ∧ (q.msg x).bBand ≤ (q.msg mp).bBand := by
    intro x hx
    have hle := hrank x hx
    have hlt := (q.msg mp).bBand.toNat_lt
    rw [Queue.rank_eq hpri] at hle
    have hxpri : q.isPri x = false := by
      by_contra hx'
      have : q.rank x = 256 := if_pos (by simpa using hx')
      omega
    rw [Queue.rank_eq hxpri] at hle
    exact ⟨hxpri, UInt8.le_iff_toNat_le.mpr hle⟩
  -- a queue that differs in its flow control, and in whether it is enabled
  have hplace : ∀ q' : Queue μ, q'.link = q.link → q'.msg = q.msg →
      q'.queuePlaceMsg mp (q.msg mp).bBand = q'.setLink (q.link.insert none mp ms.head?) := by
    intro q' hlink hmsg
    have hpri' : q'.isPri = q.isPri := by
      unfold Queue.isPri
      rw [hmsg]
    rw [← hlink]
    apply Queue.queuePlaceMsg_front (hlink ▸ h.holds)
    · exact fun x hx => by rw [hpri']; exact (hlow x hx).1
    · exact fun x hx => by rw [hmsg]; exact (hlow x hx).2
  obtain ⟨lastband, hcheck⟩ := q.checkSched_shape (q.msg mp).bBand
  by_cases hzero : (q.msg mp).bBand = 0
  · have hshape := (Queue.queueIncrease_shape (q.checkSched 0) (msgSize (q.msg mp))).trans
      (hzero ▸ hcheck)
    have hsame : q.SameBands ((q.checkSched 0).queueIncrease (msgSize (q.msg mp))) :=
      .of_shape hshape rfl rfl rfl
    have hmsg : ((q.checkSched 0).queueIncrease (msgSize (q.msg mp))).msg = q.msg :=
      congrArg Shape.msg hshape
    have hlink : ((q.checkSched 0).queueIncrease (msgSize (q.msg mp))).link = q.link :=
      congrArg Shape.link hshape
    have hput := hplace _ hlink hmsg
    rw [Queue.putOrdinary_eq hzero, hmsg, hput]
    refine ⟨_, rfl, rfl, ?_, ?_⟩
    · refine h.front hmp hpri hrank hmsg hsame.queueBand rfl (fun hne => absurd hzero hne) ?_
      intro pri b _ _
      exact ⟨congrFun (congrArg Shape.first hshape) b, congrFun (congrArg Shape.last hshape) b⟩
    · rw [hzero]
      exact congrArg Shape.enab hshape
  · obtain ⟨b, hbq⟩ := hband hzero
    have hpos : 0 < (q.msg mp).bBand := UInt8.pos_iff_ne_zero.mpr hzero
    have hof : q.bandOf mp alloc = .ok (q, some b) := by
      unfold Queue.bandOf Queue.getBand
      rw [if_pos hpos, hbq]
    have hlacks : q.lacksBand mp (some b) = false := by simp [Queue.lacksBand]
    obtain ⟨q₂, hinc, hinc'⟩ := Queue.qbandIncrease_shape (hb.same (.of_shape hcheck rfl rfl rfl))
      (hb.mem hbq) (msgSize ((q.checkSched (q.msg mp).bBand).msg mp))
    have hshape := hinc'.trans hcheck
    have hsame : q.SameBands q₂ := .of_shape hshape rfl rfl rfl
    have hmsg : q₂.msg = q.msg := congrArg Shape.msg hshape
    have hlink : q₂.link = q.link := congrArg Shape.link hshape
    have hfirst : ∀ b, (q₂.band b).qbFirst = (q.band b).qbFirst :=
      congrFun (congrArg Shape.first hshape)
    have hlast : ∀ b, (q₂.band b).qbLast = (q.band b).qbLast :=
      congrFun (congrArg Shape.last hshape)
    have hchecked : q.queueCheckSched mp (some b) = .ok (q₂, true) := by
      unfold Queue.queueCheckSched
      simp only [if_pos hpos, hinc, bind, Except.bind]
    have hput : (q.putOrdinary mp alloc (q.msg mp).bBand fun q =>
        q.queuePlaceMsg mp (q.msg mp).bBand) =
        .ok ⟨(q₂.linkBand mp b (q.msg mp).bBand).unfreeze, true, false⟩ := by
      unfold Queue.putOrdinary
      simp only [hof, hlacks, hchecked, bind, Except.bind, Bool.false_eq_true, if_false]
    rw [hput]
    obtain ⟨hbfirst, hblast⟩ := h.ends _ b hzero hbq
    have hprev : q.link.prev ms.head? = none := Deque.Holds.prev_eq (a := []) h.holds
    have hlinked : ∃ first last, q₂.linkBand mp b (q.msg mp).bBand =
        (q₂.setLink (q.link.insert none mp ms.head?)).setBand b
          (fun x => { x with qbFirst := first, qbLast := last }) ∧ first = some mp ∧
        last = (mp :: q.ofBand (q.msg mp).bBand ms).getLast? := by
      unfold Queue.linkBand
      rw [hfirst, hbfirst]
      cases hof : q.ofBand (q.msg mp).bBand ms with
      | nil =>
        refine ⟨some mp, some mp, ?_, rfl, rfl⟩
        exact hplace (q₂.setBand b fun x => { x with qbFirst := some mp, qbLast := some mp })
          hlink hmsg
      | cons y l =>
        have hhead : some y = ms.head? := by
          rw [← Queue.ofBand_head h.order (fun x hx => Queue.rank_eq hpri ▸ hrank x hx)
            (hof ▸ List.cons_ne_nil y l), hof]
          rfl
        refine ⟨some mp, (q₂.band b).qbLast, ?_, rfl, ?_⟩
        · show (q₂.linkBefore mp (some y)).setBand b _ = _
          unfold Queue.linkBefore
          rw [hhead, hlink, hprev]
          rfl
        · rw [hlast, hblast, hof, List.getLast?_cons_cons]
    obtain ⟨_, _, hlinked, rfl, rfl⟩ := hlinked
    rw [hlinked]
    refine ⟨_, rfl, rfl, ?_, congrArg Shape.enab hshape⟩
    have hends := Queue.shape_setEnds (q₂.setLink (q.link.insert none mp ms.head?)) b (some mp)
      (mp :: q.ofBand (q.msg mp).bBand ms).getLast?
    have hsame' : q₂.SameBands _ := .of_shape hends rfl rfl rfl
    have hqueue := fun pri => (hsame'.queueBand pri).trans (hsame.queueBand pri)
    refine h.front hmp hpri hrank hmsg hqueue rfl (fun _ => ⟨b, hbq, ?_⟩) fun pri b' hne hb' => ?_
    · show (Function.update q₂.band b _ b).qbFirst = _ ∧ (Function.update q₂.band b _ b).qbLast = _
      rw [Function.update_self]
      exact ⟨rfl, rfl⟩
    · have hbn : b' ≠ b := hb.ne hne hbq hb'
      show (Function.update q₂.band b _ b').qbFirst = _ ∧
        (Function.update q₂.band b _ b').qbLast = _
      rw [Function.update_of_ne hbn]
      exact ⟨hfirst b', hlast b'⟩

/-- `putbq` puts a message back before messages of its class and of lower ones. -/
theorem Queue.putbq_front (alloc : Bool) (hl : q.qLocked = false) (h : q.Ordered ms)
    (hb : q.Bands bs) (hmp : mp ∉ ms) (hpri : q.isPri mp = false)
    (hrank : ∀ x ∈ ms, q.rank x ≤ q.rank mp)
    (hband : (q.msg mp).bBand ≠ 0 → ∃ b, q.queueBand (q.msg mp).bBand = some b) :
    ∃ r, q.putbq mp alloc = .ok r ∧ r.val = true ∧ r.q.Ordered (mp :: ms) ∧
      r.q.qenab = (q.qenab || q.enables (q.msg mp).bBand) := by
  have h' : (q.setLocked true).Ordered ms := h.of_shape rfl
  have hb' : (q.setLocked true).Bands bs := hb.congr rfl
  have hpri' : (q.setLocked true).isPri mp = false := hpri
  unfold Queue.putbq
  rw [Queue.freeze_eq hl]
  simp only [bind, Except.bind, hpri', Bool.false_eq_true, if_false]
  exact Queue.putOrdinary_front alloc h' hb' hmp hpri hrank hband

end CohKernel.Strm
