import CohKernel.Strm.Bands

namespace CohKernel.Strhead

open CohKernel.Lib CohKernel.Strm

/-!
# The write service procedure of the stream head

`headwsrv` takes messages from the write queue of the stream head and passes them on until one is
refused below; that one it puts back with `putbq`, which is to leave the queue unscheduled until the
queue below has room again.

* `Serves` — messages go in order, when the queue below takes their band, and the procedure waits
  for the back-enable;
* `headwsrv_serves` — when it does so;
* `headwsrv_spins` — an ordinary message that is refused: the queue is scheduled again at once.
-/

variable {μ ν : Type} [DecidableEq μ] [Fintype μ]

/-! ### The procedure -/

/-- The queue below the stream head, as it is when `bcanputnext` and `canputnext` test it for the
    message with a number. -/
structure Below (ν : Type) where
  bcan : ℕ → Queue ν
  can : ℕ → Queue ν

/-- The queue takes messages of a band. -/
def accepts (q : Queue ν) (pri : UInt8) : Bool := (q.qbandCanput pri).2

/-- The test of `headwsrv` for message number `i`. -/
def Below.passes (below : Below ν) (i : ℕ) (m : Msgb) : Bool :=
  pcmsg m.dbType || (decide (0 < m.bBand) && accepts (below.bcan i) m.bBand) ||
    accepts (below.can i) 0

/-- Who is woken up: processes that poll for a writeable band, or for output, and those that wait to
    write. -/
inductive Wake where
  | POLLWRBAND
  | POLLOUT
  | SH_WRITE_WAIT
deriving DecidableEq

/-- What the procedure leaves: its queue, the messages that it has passed on, the one that it has
    put back, and whom it has woken up. -/
structure Service (μ : Type) where
  q : Queue μ
  sent : List μ
  blocked : Option μ
  wakes : List Wake

/-- The loop of `headwsrv`. -/
def headwsrvLoop (below : Below ν) (alloc : Bool) :
    ℕ → ℕ → Queue μ → List μ → Except Halt (Service μ)
  | 0, _, _, _ => .error .endless
  | fuel + 1, i, q, sent => do
      let r ← q.getq
      match q.qFirst with
      | none => .ok ⟨r.q, sent, none, [.POLLWRBAND, .POLLOUT, .SH_WRITE_WAIT]⟩
      | some mp =>
          if below.passes i (r.q.msg mp) then
            headwsrvLoop below alloc fuel (i + 1) r.q (sent ++ [mp])
          else do
            let back ← r.q.putbq mp alloc
            .ok ⟨back.q, sent, some mp, [.POLLWRBAND]⟩

/-- `headwsrv`; `alloc` tells whether `putbq` finds memory for a band. -/
def headwsrv (below : Below ν) (alloc : Bool) (q : Queue μ) : Except Halt (Service μ) :=
  headwsrvLoop below alloc (Fintype.card μ + 1) 0 q []

/-! ### The loop -/

/-- `putbq` of the message that `getq` has just returned enables the queue. -/
def reenables (q : Queue μ) : Bool := !q.qnoenb && q.qwantr && q.qiSrvp && !q.qprocsoff

variable {q : Queue μ} {below : Below ν} {ms sent : List μ} {bs : List ℕ} {alloc : Bool} {i : ℕ}

/-- What the loop does from message number `i` on. -/
structure Loop (below : Below ν) (i : ℕ) (q : Queue μ) (ms sent : List μ) (s : Service μ) :
    Prop where
  parts : ∃ l rest, s.sent = sent ++ l ∧ ms = l ++ s.blocked.toList ++ rest ∧
    s.q.Ordered (s.blocked.toList ++ rest) ∧ (s.blocked = none → rest = []) ∧
    (∀ j mp, l[j]? = some mp → below.passes (i + j) (q.msg mp) = true) ∧
    ∀ mp, s.blocked = some mp → below.passes (i + l.length) (q.msg mp) = false
  enab : s.q.qenab = (q.qenab || (s.blocked.isSome && reenables q))

/-- **The loop** passes messages on up to the first one that is refused. -/
theorem headwsrvLoop_spec (alloc : Bool) {fuel : ℕ} (hl : q.qLocked = false) (h : q.Ordered ms)
    (hb : q.Bands bs) (hfuel : ms.length < fuel) :
    ∃ s, headwsrvLoop below alloc fuel i q sent = .ok s ∧ Loop below i q ms sent s := by
  induction ms generalizing q i sent fuel with
  | nil =>
    cases fuel with
    | zero => cases hfuel
    | succ fuel =>
      obtain ⟨r, hr, hord, henab⟩ := Queue.getq_empty hl h
      have hfirst : q.qFirst = none := h.holds.first_eq
      refine ⟨⟨r.q, sent, none, [.POLLWRBAND, .POLLOUT, .SH_WRITE_WAIT]⟩, ?_, ?_, ?_⟩
      · simp only [headwsrvLoop, hr, hfirst, bind, Except.bind]
      · refine ⟨[], [], (List.append_nil _).symm, rfl, hord, fun _ => rfl, fun j mp hj => ?_,
          fun mp hmp => ?_⟩
        · cases hj
        · cases hmp
      · show r.q.qenab = (q.qenab || false)
        rw [Bool.or_false]
        exact henab
  | cons mp ms ih =>
    cases fuel with
    | zero => cases hfuel
    | succ fuel =>
      obtain ⟨r, hr, hord, hkept, henab, hlast⟩ := Queue.getq_first hl h hb
      have hfirst : q.qFirst = some mp := h.holds.first_eq
      have hre : reenables r.q = reenables q := by
        unfold reenables
        rw [hkept.noenb, hkept.wantr, hkept.srvp, hkept.procsoff]
      cases hpass : below.passes i (q.msg mp) with
      | true =>
        obtain ⟨s, hs, ⟨l, rest, hsent, hms, hleft, hnil, hall, hblocked⟩, hen⟩ :
            ∃ s, headwsrvLoop below alloc fuel (i + 1) r.q (sent ++ [mp]) = .ok s ∧
              Loop below (i + 1) r.q ms (sent ++ [mp]) s :=
          ih hkept.locked hord hkept.bands (Nat.lt_of_succ_lt_succ hfuel)
        refine ⟨s, ?_, ⟨mp :: l, rest, ?_, ?_, hleft, hnil, ?_, ?_⟩, ?_⟩
        · simp only [headwsrvLoop, hr, hfirst, hkept.msg, hpass, bind, Except.bind, if_true, hs]
        · rw [hsent, List.append_assoc, List.singleton_append]
        · rw [hms]
          rfl
        · intro j x hj
          cases j with
          | zero =>
            cases hj
            exact hpass
          | succ j =>
            have hx := hall j x hj
            rw [hkept.msg] at hx
            rwa [Nat.add_assoc, Nat.add_comm 1] at hx
        · intro x hx
          have hx' := hblocked x hx
          rw [hkept.msg] at hx'
          rwa [Nat.add_assoc, Nat.add_comm 1] at hx'
        · rw [hen, henab, hre]
      | false =>
        have hpri : q.isPri mp = false := by
          unfold Below.passes at hpass
          simp only [Bool.or_eq_false_iff] at hpass
          exact hpass.1.1
        obtain ⟨hrank, -⟩ := List.pairwise_cons.mp h.order
        have hisPri : r.q.isPri = q.isPri := by
          unfold Queue.isPri
          rw [hkept.msg]
        have hrank' : r.q.rank = q.rank := by
          unfold Queue.rank
          rw [hisPri, hkept.msg]
        have hband : (r.q.msg mp).bBand ≠ 0 → ∃ b, r.q.queueBand (r.q.msg mp).bBand = some b := by
          rw [hkept.msg, hkept.queueBand]
          exact h.band_of List.mem_cons_self hpri
        obtain ⟨back, hback, -, hord', henab'⟩ := Queue.putbq_front alloc hkept.locked hord
          hkept.bands (List.nodup_cons.mp h.holds.nodup).1 (hisPri ▸ hpri) (hrank' ▸ hrank) hband
        refine ⟨⟨back.q, sent, some mp, [.POLLWRBAND]⟩, ?_,
          ⟨[], ms, (List.append_nil _).symm, rfl, hord',
            fun hno => absurd hno (Option.some_ne_none mp), fun j x hj => ?_, fun x hx => ?_⟩, ?_⟩
        · simp only [headwsrvLoop, hr, hfirst, hkept.msg, hpass, bind, Except.bind,
            Bool.false_eq_true, if_false, hback]
        · cases hj
        · cases hx
          exact hpass
        · -- `q_lastband` is the band of the message, so that only `QWANTR` counts
          have hre' : r.q.enables (r.q.msg mp).bBand = reenables q := by
            rw [← hre]
            unfold Queue.enables reenables
            rw [hlast, hkept.msg, decide_eq_false (UInt8.lt_irrefl _), Bool.or_false]
          rw [henab', henab, hre']
          rfl

/-! ### What the procedure is for -/

/-- The queue below as it is at the last test for a message. -/
def Below.moment (below : Below ν) (i : ℕ) (m : Msgb) : Queue ν :=
  if 0 < m.bBand ∧ accepts (below.bcan i) m.bBand then below.bcan i else below.can i

/-- The queue below is marked, so that a band that is full is back-enabled when it has room. -/
def Wanted (q : Queue ν) (pri : UInt8) : Prop :=
  (q.qbandCanput pri).1.qwantw = true ∧
    (pri ≠ 0 → ∃ b, q.queueBand pri = some b ∧ ((q.qbandCanput pri).1.band b).qbWantw = true)

/-- The test for the band of a message has refused it. -/
def Below.refused (below : Below ν) (i : ℕ) (m : Msgb) : Prop :=
  let tested := if 0 < m.bBand then below.bcan i else below.can i
  accepts tested m.bBand = false ∧ Wanted tested m.bBand

/-- The procedure, on a queue with the messages `ms`: it passes them on in order, those that are not
    high-priority messages when the queue below takes their band; the first one that is refused is
    back before all that are left, the queue below is marked, and the queue is not enabled by it. -/
structure Serves (below : Below ν) (q : Queue μ) (ms : List μ) (s : Service μ) : Prop where
  order : ∃ rest, ms = s.sent ++ s.blocked.toList ++ rest ∧
    s.q.Ordered (s.blocked.toList ++ rest) ∧ (s.blocked = none → rest = [])
  accepted : ∀ i mp, s.sent[i]? = some mp → q.isPri mp = false →
    accepts (below.moment i (q.msg mp)) (q.msg mp).bBand = true
  refused : ∀ mp, s.blocked = some mp →
    q.isPri mp = false ∧ below.refused s.sent.length (q.msg mp)
  waits : s.q.qenab = q.qenab

/-- The queue below refuses the band of a message number `i`, and then takes ordinary messages only.
    -/
def Below.mixed (below : Below ν) (i : ℕ) (m : Msgb) : Prop :=
  pcmsg m.dbType = false ∧ 0 < m.bBand ∧ accepts (below.bcan i) m.bBand = false ∧
    accepts (below.can i) 0 = true ∧ accepts (below.can i) m.bBand = false

/-- The first messages of the queue all pass. -/
def AllPass (below : Below ν) (q : Queue μ) (ms : List μ) (n : ℕ) : Prop :=
  ∀ j < n, ∀ mp, ms[j]? = some mp → below.passes j (q.msg mp) = true

/-- No message that is reached finds the queue below mixed, and if one of them is refused, it does
    not enable the queue. -/
def Fits (below : Below ν) (q : Queue μ) (ms : List μ) : Prop :=
  ∀ i mp, ms[i]? = some mp → AllPass below q ms i →
    ¬ below.mixed i (q.msg mp) ∧
      (below.passes i (q.msg mp) = false → q.qenab = true ∨ reenables q = false)

section

omit [DecidableEq μ] [Fintype μ]

/-- A test that refuses a band leaves the mark. -/
theorem wanted_of_refused {q : Queue ν} {pri : UInt8} (h : accepts q pri = false) :
    Wanted q pri := by
  unfold accepts at h
  unfold Wanted
  unfold Queue.qbandCanput at h ⊢
  by_cases hpri : 0 < pri
  · rw [if_pos hpri] at h
    simp only [if_pos hpri]
    cases hb : q.queueBand pri with
    | none =>
      rw [hb] at h
      cases h
    | some b =>
      rw [hb] at h
      dsimp only at h ⊢
      split_ifs at h ⊢
      have hset := Queue.setBand_band q b fun x => { x with qbWantw := true }
      exact ⟨rfl, fun _ => ⟨b, rfl, congrArg Qband.qbWantw hset⟩⟩
  · rw [if_neg hpri] at h
    simp only [if_neg hpri]
    split_ifs at h ⊢
    exact ⟨rfl, fun hne => absurd (UInt8.pos_iff_ne_zero.mpr hne) hpri⟩

/-- A message that passes goes to a queue that takes it, unless that is mixed. -/
theorem accepts_moment {m : Msgb} (hpass : below.passes i m = true)
    (hpri : pcmsg m.dbType = false) :
    accepts (below.moment i m) m.bBand = true ↔ ¬ below.mixed i m := by
  unfold Below.passes at hpass
  unfold Below.moment Below.mixed
  rw [hpri, Bool.false_or] at hpass
  by_cases hpos : 0 < m.bBand
  · cases hbcan : accepts (below.bcan i) m.bBand with
    | true => simp [hpos, hbcan]
    | false =>
      have hcan : accepts (below.can i) 0 = true := by simpa [hbcan] using hpass
      simp [hpos, hpri, hcan]
  · have hzero : m.bBand = 0 := by
      by_contra hne
      exact hpos (UInt8.pos_iff_ne_zero.mpr hne)
    have hcan : accepts (below.can i) 0 = true := by simpa [hzero] using hpass
    rw [if_neg fun hc => hpos hc.1, hzero, hcan]
    simp

/-- A message that does not pass is refused. -/
theorem refused_of_passes {m : Msgb} (hpass : below.passes i m = false) :
    pcmsg m.dbType = false ∧ below.refused i m := by
  unfold Below.passes at hpass
  simp only [Bool.or_eq_false_iff, Bool.and_eq_false_iff, decide_eq_false_iff_not] at hpass
  obtain ⟨⟨hpri, hband⟩, hcan⟩ := hpass
  refine ⟨hpri, ?_⟩
  unfold Below.refused
  dsimp only
  by_cases hpos : 0 < m.bBand
  · have hbcan := hband.resolve_left (not_not.mpr hpos)
    rw [if_pos hpos]
    exact ⟨hbcan, wanted_of_refused hbcan⟩
  · have hzero : m.bBand = 0 := by
      by_contra hne
      exact hpos (UInt8.pos_iff_ne_zero.mpr hne)
    rw [if_neg hpos, hzero]
    exact ⟨hcan, wanted_of_refused hcan⟩

end

/-- **The service procedure** of the stream head does what it is for, on a queue with any messages
    and for any flow control below, if and only if no message that it reaches is of a band that is
    refused while ordinary messages are taken, and no message is refused when `QWANTR` is set. -/
theorem headwsrv_serves (below : Below ν) (alloc : Bool) (hl : q.qLocked = false)
    (h : q.Ordered ms) (hb : q.Bands bs) :
    ∃ s, headwsrv below alloc q = .ok s ∧ (Serves below q ms s ↔ Fits below q ms) := by
  obtain ⟨s, hs, ⟨l, rest, hsent, hms, hleft, hnil, hall, hblocked⟩, henab⟩ :
      ∃ s, headwsrvLoop below alloc (Fintype.card μ + 1) 0 q [] = .ok s ∧ Loop below 0 q ms [] s :=
    headwsrvLoop_spec alloc hl h hb (Nat.lt_succ_of_le (List.Nodup.length_le_card h.holds.nodup))
  rw [List.nil_append] at hsent
  subst hsent
  simp only [Nat.zero_add] at hall hblocked
  have hsent : ∀ j < s.sent.length, ms[j]? = s.sent[j]? := by
    intro j hj
    rw [hms, List.append_assoc, List.getElem?_append_left hj]
  have hpassed : ∀ n ≤ s.sent.length, AllPass below q ms n := by
    intro n hn j hj mp hmp
    rw [hsent j (hj.trans_le hn)] at hmp
    exact hall j mp hmp
  have hback : ∀ mp, s.blocked = some mp → ms[s.sent.length]? = some mp := by
    intro mp hmp
    rw [hms, hmp, List.append_assoc, List.getElem?_append_right le_rfl, Nat.sub_self]
    rfl
  refine ⟨s, hs, fun hserves => ?_, fun hfits => ?_⟩
  · intro i mp hi hpass
    rcases lt_or_ge i s.sent.length with hlt | hge
    · rw [hsent i hlt] at hi
      have hgo := hall i mp hi
      refine ⟨fun hmixed => ?_, fun hno => ?_⟩
      · exact (accepts_moment hgo hmixed.1).mp (hserves.accepted i mp hi hmixed.1) hmixed
      · rw [hgo] at hno
        cases hno
    · -- only the message that is put back is left
      cases hblk : s.blocked with
      | none =>
        rw [hms, hblk, hnil hblk] at hi
        have hlt := (List.getElem?_eq_some_iff.mp hi).1
        simp at hlt
        omega
      | some b =>
        have hno := hblocked b hblk
        have hi' : i = s.sent.length := by
          by_contra hne
          rw [hpass s.sent.length (by omega) b (hback b hblk)] at hno
          cases hno
        subst hi'
        cases (hback b hblk).symm.trans hi
        refine ⟨fun hmixed => ?_, fun _ => ?_⟩
        · unfold Below.passes at hno
          rw [hmixed.2.2.2.1, Bool.or_true] at hno
          cases hno
        · have hwaits := hserves.waits
          rw [henab, hblk] at hwaits
          cases hen : q.qenab with
          | true => exact .inl rfl
          | false =>
            rw [hen] at hwaits
            exact .inr hwaits
  · refine ⟨⟨rest, hms, hleft, hnil⟩, fun i mp hi hpri => ?_, fun mp hmp => ?_, ?_⟩
    · obtain ⟨hlt, -⟩ := List.getElem?_eq_some_iff.mp hi
      have hfit := hfits i mp ((hsent i hlt).trans hi) (hpassed i hlt.le)
      exact (accepts_moment (hall i mp hi) hpri).mpr hfit.1
    · exact refused_of_passes (hblocked mp hmp)
    · rw [henab]
      cases hblk : s.blocked with
      | none => exact Bool.or_false _
      | some b =>
        have hfit := hfits _ b (hback b hblk) (hpassed _ le_rfl)
        rcases hfit.2 (hblocked b hblk) with hen | hre
        · rw [hen]
          rfl
        · rw [hre]
          exact Bool.or_false _

/-! ### One message -/

/-- A write queue with one ordinary message, whose service procedure is run. -/
def oneWrite : Queue Unit :=
  { Queue.fresh Unit 512 0 with
    link := Deque.empty.insert none () none, msg := fun _ => ⟨0, 0, [5]⟩, qCount := 5 }

/-- The queue below is full, or not, all the time. -/
def steady (full : Bool) : Below Unit :=
  ⟨fun _ => { Queue.fresh Unit 512 0 with qfull := full },
    fun _ => { Queue.fresh Unit 512 0 with qfull := full }⟩

theorem oneWrite_ordered : oneWrite.Ordered [()] := by
  refine ⟨Deque.Holds.insert (a := []) (b := []) Deque.holds_empty List.not_mem_nil,
    List.pairwise_singleton _ _, fun pri hne _ => ?_, fun pri b _ hb => ?_⟩
  · rw [Queue.ofBand_cons, if_neg fun hc => hne hc.2.symm]
    rfl
  · rw [Queue.queueBand_none rfl] at hb
    cases hb

theorem oneWrite_bands : oneWrite.Bands [] :=
  ⟨rfl, List.nodup_nil, fun _ hb => absurd hb List.not_mem_nil⟩

/-- The message is passed on. -/
theorem headwsrv_serves_open : ∃ s, headwsrv (steady false) true oneWrite = .ok s ∧
    Serves (steady false) oneWrite [()] s := by
  obtain ⟨s, hs, hiff⟩ := headwsrv_serves (steady false) true rfl oneWrite_ordered oneWrite_bands
  refine ⟨s, hs, hiff.mpr fun i mp _ _ => ⟨fun hmixed => ?_, fun hno => ?_⟩⟩
  · exact absurd hmixed.2.1 (show ¬ (0 : UInt8) < 0 by decide)
  · have hpass : (steady false).passes i (oneWrite.msg mp) = true := rfl
    rw [hpass] at hno
    cases hno

/-- **A queue that spins.** One ordinary message is on the write queue, and the queue below is full:
    `headwsrv` puts the message back, and `putbq` enables the queue, because `getq` never clears
    `QWANTR`. -/
theorem headwsrv_spins : ∃ s, headwsrv (steady true) true oneWrite = .ok s ∧
    s.blocked = some () ∧ s.q.qenab = true ∧ ¬ Serves (steady true) oneWrite [()] s := by
  have heval : (headwsrv (steady true) true oneWrite).toOption.map
      (fun s => (s.blocked, s.q.qenab)) = some (some (), true) := by
    decide +kernel
  obtain ⟨s, hs, hval⟩ := Option.map_eq_some_iff.mp heval
  simp only [Prod.mk.injEq] at hval
  have hok : headwsrv (steady true) true oneWrite = .ok s := by
    cases hrun : headwsrv (steady true) true oneWrite with
    | error h => rw [hrun] at hs; cases hs
    | ok s' => rw [hrun] at hs; cases hs; rfl
  refine ⟨s, hok, hval.1, hval.2, fun hserves => ?_⟩
  have hwaits := hserves.waits
  rw [hval.2] at hwaits
  cases hwaits

end CohKernel.Strhead
