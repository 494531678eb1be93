import CohKernel.Pipe.Stream

namespace CohKernel.Pipe

open CohKernel.Lib

/-!
# Calls that do not wait

`ppoll`, and the calls of `pwrite` with `IONDLY` or `IONONBLOCK`.  Such a call of at most `PIPE_MAX`
bytes writes them all or none, and what decides that is the piece of the ring from the write offset
to the end, not the free space alone.

* `ppoll_writable` — `POLLOUT` is set if and only if one byte can be written;
* `ppoll_readable` — the poll for reading has an answer if and only if a read does not sleep;
* `pwrite_agrees_iff` — the exact condition under which a write that fits is done.
-/

/-! ### Polling -/

/-- The bits of `ev`, and of the value of `ppoll`. -/
structure Bits where
  pollIn : Bool
  pollOut : Bool
  pollHup : Bool
deriving DecidableEq

/-- No bit is set. -/
def Bits.none : Bits := ⟨false, false, false⟩

/-- What `ppoll` does: its value, and whether it waits on `i_iev` and `i_oev`. -/
structure Polled where
  rval : Bits
  iIev : Bool
  iOev : Bool
deriving DecidableEq

/-- The half of `ppoll` for `POLLIN`. -/
def Inode.ppollIn (ip : Inode) (msec : ℤ) (r : Polled) : Polled :=
  let rval := if ip.iPnc > 0 then { r.rval with pollIn := true } else r.rval
  let rval := if ip.noWriters then { rval with pollHup := true } else rval
  { r with rval := rval, iIev := decide (rval = .none ∧ msec ≠ 0) }

/-- The half of `ppoll` for `POLLOUT`. -/
def Inode.ppollOut (ip : Inode) (msec : ℤ) (r : Polled) : Polled :=
  let rval :=
    if ip.iPnc < PIPE_MAX ∧ ¬ip.noReaders then { r.rval with pollOut := true } else r.rval
  let rval := if ip.noReaders then { rval with pollHup := true } else rval
  { r with rval := rval, iOev := decide (rval = .none ∧ msec ≠ 0) }

/-- `ppoll`. -/
def Inode.ppoll (ip : Inode) (ev : Bits) (msec : ℤ) : Polled :=
  let r : Polled := ⟨.none, false, false⟩
  let r := if ev.pollIn = true then ip.ppollIn msec r else r
  if ev.pollOut = true then ip.ppollOut msec r else r

/-- `POLLIN`. -/
def POLLIN : Bits := ⟨true, false, false⟩

/-- `POLLOUT`. -/
def POLLOUT : Bits := ⟨false, true, false⟩

/-! ### Whole calls -/

/-- The flags of a call that does not wait. -/
def Flag.noWait (flag : Flag) : Prop := flag.ionDly = true ∨ flag.ionNonblock = true

variable {P : Type*} [Fintype P] [DecidableEq P]

/-- The turns of the loop of `pwrite`, when `fwrite` stores all the bytes that it is asked for. -/
def System.fwrites (m : System P) (p : P) : ℕ → System P
  | 0 => m
  | k + 1 =>
      match m.phase p with
      | .writing _ _ _ _ n =>
          match m.step (.transfer p n.toNat false) with
          | some m' => m'.fwrites p k
          | none => m
      | _ => m

/-- A call of `pwrite` to its end; each turn of the loop stores at least one byte. -/
def System.writes (m : System P) (p : P) (f : File) (data : List Byte) (flag : Flag) :
    Option (System P) :=
  (m.step (.pwrite p f data flag)).map fun m' => m'.fwrites p data.length

/-- The call has returned, and has put `bytes` into the pipe. -/
def Wrote (m m' : System P) (p : P) (bytes : List Byte) : Prop :=
  m'.phase p = .idle ∧ m'.accepted = m.accepted ++ bytes.map fun x => (m.calls, x)

/-- Bytes of this number are written in one piece. -/
def Inode.Goes (ip : Inode) (n : ℤ) : Prop :=
  0 < n ∧ ¬ip.noReaders ∧ n ≤ PIPE_MAX - ip.iPwx ∧ n ≤ PIPE_MAX - ip.iPnc

instance (ip : Inode) (n : ℤ) : Decidable (ip.Goes n) := inferInstanceAs (Decidable (_ ∧ _))

variable {m m' : System P} {p q : P} {f g : File} {data : List Byte} {flag : Flag} {c : ℕ}

omit [Fintype P] in
theorem writeLoop_goes (hgo : m.ip.Goes data.length) :
    m.writeLoop p f c data flag false = m.hold p (.writing f c data flag data.length) := by
  obtain ⟨hpos, hr, hpwx, hpnc⟩ := hgo
  have hn : (if PIPE_MAX - m.ip.iPwx > data.length then (data.length : ℤ)
      else PIPE_MAX - m.ip.iPwx) = data.length := by
    split <;> omega
  simp only [System.writeLoop, hn, if_neg hr, if_neg (not_lt.mpr hpnc)]
  rw [if_pos ⟨trivial, hpos⟩, if_neg]
  omega

omit [Fintype P] in
theorem writeLoop_refuses (hmax : (data.length : ℤ) ≤ PIPE_MAX) (hflag : flag.noWait)
    (hgo : ¬m.ip.Goes data.length) : m.writeLoop p f c data flag false = m := by
  simp only [System.writeLoop]
  by_cases hpos : (data.length : ℤ) > 0
  · rw [if_pos ⟨trivial, hpos⟩]
    by_cases hr : m.ip.noReaders
    · rw [if_pos hr]
    · -- What is left of the count is smaller: nothing is written, and nobody waits.
      rw [if_neg hr, if_pos]
      · rcases hflag with h | h
        · rw [if_pos h]
        · rw [if_pos h, ite_self]
      · refine or_iff_not_imp_left.mpr fun _ => ⟨hmax, fun heq => hgo ⟨hpos, hr, ?_⟩⟩
        split at heq <;> split at heq <;> omega
  · rw [if_neg fun h => hpos h.2]

theorem fwrites_idle (h : m.phase p = .idle) (k : ℕ) : m.fwrites p k = m := by
  cases k with
  | zero => rfl
  | succ k => simp only [System.fwrites, h]

omit [Fintype P] [DecidableEq P] in
theorem pwake_phase_idle (who : Who) : (m.pwake who).phase p = .idle ↔ m.phase p = .idle := by
  cases who <;> simp only [System.pwake] <;> split_ifs <;> simp only [Phase.wake_idle]

/-- The state after a call that has written all its bytes. -/
def System.wrote (m : System P) (p : P) (data : List Byte) : System P :=
  ((m.called data).runs p).stored m.calls data data.length

theorem fwrites_hold (k : ℕ) :
    ((m.called data).hold p (.writing f m.calls data flag data.length)).fwrites p (k + 1) =
      (m.wrote p data).fwrites p k := by
  have hphase : ((m.called data).hold p (.writing f m.calls data flag data.length)).phase p =
      .writing f m.calls data flag data.length := Function.update_self p _ _
  have hruns : ((m.called data).hold p (.writing f m.calls data flag data.length)).runs p =
      (m.called data).runs p := by
    simp only [System.hold, System.runs, Function.update_idem]
  simp only [System.fwrites, hphase, System.step, Int.toNat_natCast]
  rw [if_pos ⟨le_refl _, fun herr => by cases herr⟩, hruns, List.drop_length]
  rfl

omit [Fintype P] in
theorem wrote_spec (m : System P) (p : P) (data : List Byte) : Wrote m (m.wrote p data) p data := by
  have hidle : (((m.called data).runs p).put m.calls data data.length).phase p = .idle :=
    runs_phase _ p
  have hput : (((m.called data).runs p).put m.calls data data.length).accepted =
      m.accepted ++ data.map fun x => (m.calls, x) := by
    show m.accepted ++ (data.take data.length).map _ = _
    rw [List.take_length]
  show Wrote m (if _ then _ else _) p data
  split
  · exact ⟨(pwake_phase_idle .IFWFW).mpr hidle, (pwake_fields _ .IFWFW).2.2.2.2.2.2.1.trans hput⟩
  · exact ⟨hidle, hput⟩

/-- A call of at most `PIPE_MAX` bytes that does not wait. -/
theorem writes_eq (hp : m.free p) (hf : m.usable f) (hw : f.ipw = true) (hflag : flag.noWait)
    (hmax : (data.length : ℤ) ≤ PIPE_MAX) :
    m.writes p f data flag =
      some (if m.ip.Goes data.length then m.wrote p data else m.called data) := by
  have hstep : m.step (.pwrite p f data flag) =
      some ((m.called data).writeLoop p f m.calls data flag false) :=
    if_pos ⟨hp, hf, hw⟩
  have hidle : (m.called data).phase p = .idle := hp.1
  rw [System.writes, hstep, Option.map_some]
  split_ifs with hgo
  · obtain ⟨k, hk⟩ : ∃ k, data.length = k + 1 := Nat.exists_eq_succ_of_ne_zero (by
      have := hgo.1
      omega)
    have hgo' : (m.called data).ip.Goes data.length := hgo
    rw [writeLoop_goes hgo']
    have hturn := @fwrites_hold P _ _ m p f data flag k
    rw [← hk, fwrites_idle (wrote_spec m p data).1] at hturn
    rw [hturn]
  · have hgo' : ¬(m.called data).ip.Goes data.length := hgo
    rw [writeLoop_refuses hmax hflag hgo', fwrites_idle hidle]

omit [Fintype P] [DecidableEq P] in
theorem wrote_iff (m : System P) (p : P) (data : List Byte) (hp : m.free p) :
    Wrote m (m.called data) p data ↔ data = [] := by
  constructor
  · intro h
    exact List.map_eq_nil_iff.mp (List.self_eq_append_right.mp h.2)
  · rintro rfl
    exact ⟨hp.1, (List.append_nil _).symm⟩

/-- **`POLLOUT` is set if and only if one byte can be written.** -/
theorem ppoll_writable (h : m.ip.Ring) (hp : m.free p) (hf : m.usable f) (hw : f.ipw = true)
    (hflag : flag.noWait) (msec : ℤ) (x : Byte) :
    (m.ip.ppoll POLLOUT msec).rval.pollOut = true ↔
      ∃ m', m.writes p f [x] flag = some m' ∧ Wrote m m' p [x] := by
  have hpwx : m.ip.iPwx < PIPE_MAX := h.pwx ▸ Int.emod_lt_of_pos _ (by decide)
  have hgo : m.ip.Goes ([x].length : ℕ) ↔ m.ip.iPnc < PIPE_MAX ∧ ¬m.ip.noReaders := by
    simp only [Inode.Goes, List.length_singleton, Nat.cast_one]
    constructor
    · rintro ⟨-, hr, -, hpnc⟩
      exact ⟨by omega, hr⟩
    · rintro ⟨hpnc, hr⟩
      exact ⟨one_pos, hr, by omega, by omega⟩
  have hpoll : (m.ip.ppoll POLLOUT msec).rval.pollOut = true ↔ m.ip.Goes ([x].length : ℕ) := by
    rw [hgo]
    by_cases hr : m.ip.noReaders <;> by_cases hpnc : m.ip.iPnc < PIPE_MAX <;>
      simp [Inode.ppoll, Inode.ppollOut, POLLOUT, Bits.none, hr, hpnc]
  have hmax : ([x].length : ℤ) ≤ PIPE_MAX := (by decide : ((1 : ℕ) : ℤ) ≤ PIPE_MAX)
  rw [hpoll, writes_eq hp hf hw hflag hmax]
  split_ifs with hg
  · exact iff_of_true hg ⟨_, rfl, wrote_spec m p [x]⟩
  · refine iff_of_false hg ?_
    rintro ⟨m', hm', hwrote⟩
    cases hm'
    cases (wrote_iff m p [x] hp).mp hwrote

/-- **The poll for reading has an answer if and only if a read does not sleep**: `POLLIN` when there
    are bytes, and `POLLHUP` at the end of the file. -/
theorem ppoll_readable (hi : Inv m) (hq : m.free q) (hg : m.usable g) (hr : g.ipr = true) {ioc : ℕ}
    (hioc : 0 < ioc) (msec : ℤ) :
    (m.ip.ppoll POLLIN msec).rval ≠ .none ↔
      ∃ m', m.step (.pread q g ioc ⟨false, false⟩) = some m' ∧
        ∀ call, m'.phase q ≠ .asleep g call := by
  have hstep : m.step (.pread q g ioc ⟨false, false⟩) = some (m.pread q g ioc ⟨false, false⟩) := by
    have hread : m.iread q g ioc ⟨false, false⟩ = m.pread q g ioc ⟨false, false⟩ :=
      if_neg hioc.ne'
    exact (if_pos ⟨hq, hg, hr⟩).trans (congrArg some hread)
  have hpoll : (m.ip.ppoll POLLIN msec).rval ≠ .none ↔ 0 < m.ip.iPnc ∨ m.ip.noWriters := by
    by_cases hw : m.ip.noWriters <;> by_cases hpnc : 0 < m.ip.iPnc <;>
      simp [Inode.ppoll, Inode.ppollIn, POLLIN, Bits.none, hw, hpnc]
  have hnonneg : 0 ≤ m.ip.iPnc := hi.ring.nonneg
  rw [hpoll, hstep]
  by_cases hpnc : m.ip.iPnc = 0
  · by_cases hw : m.ip.noWriters
    · have hread : m.pread q g ioc ⟨false, false⟩ = m := by
        rw [System.pread, if_pos hpnc, if_neg Bool.false_ne_true, if_pos hw]
      refine iff_of_true (Or.inr hw) ⟨_, rfl, fun call h => ?_⟩
      rw [hread, hq.1] at h
      cases h
    · have hread : m.pread q g ioc ⟨false, false⟩ =
          m.psleep q g (.pread ioc ⟨false, false⟩) := by
        rw [System.pread, if_pos hpnc, if_neg Bool.false_ne_true, if_neg hw,
          if_neg Bool.false_ne_true]
      refine iff_of_false (by rintro (h | h) <;> [omega; exact hw h]) ?_
      rintro ⟨m', hm', hno⟩
      cases hm'
      exact hno (.pread ioc ⟨false, false⟩) (hread ▸ Function.update_self q _ _)
  · have hpos : m.ip.iPnc > 0 := by omega
    have hread : m.pread q g ioc ⟨false, false⟩ = m.readLoop q g ioc false := by
      rw [System.pread, if_neg hpnc]
    refine iff_of_true (Or.inl hpos) ⟨_, rfl, fun call h => ?_⟩
    simp only [hread, System.readLoop] at h
    rw [if_pos ⟨trivial, by exact_mod_cast hioc, hpos⟩] at h
    rw [show (System.hold _ _ _).phase q = _ from Function.update_self q _ _] at h
    cases h

/-! ### The whole promise -/

/-- What is promised of a call that does not wait, and of the polls beside it. -/
structure Agrees (m : System P) (p : P) (f : File) (data : List Byte) (flag : Flag) : Prop where
  fits : (data.length : ℤ) ≤ PIPE_MAX - m.ip.iPnc →
    ∃ m', m.writes p f data flag = some m' ∧ Wrote m m' p data
  larger : (data.length : ℤ) > PIPE_MAX - m.ip.iPnc → (data.length : ℤ) ≤ PIPE_MAX →
    ∃ m', m.writes p f data flag = some m' ∧ Wrote m m' p []
  writable : ∀ msec x, (m.ip.ppoll POLLOUT msec).rval.pollOut = true ↔
    ∃ m', m.writes p f [x] flag = some m' ∧ Wrote m m' p [x]
  readable : ∀ q g ioc msec, m.free q → m.usable g → g.ipr = true → 0 < ioc →
    ((m.ip.ppoll POLLIN msec).rval ≠ .none ↔
      ∃ m', m.step (.pread q g ioc ⟨false, false⟩) = some m' ∧
        ∀ call, m'.phase q ≠ .asleep g call)

/-- **What a call that does not wait depends on.**  In every state that a run can reach the polls
    agree with the calls, and a write that is too large is not done.  A write that fits is done if
    and only if there is a reader, and the bytes do not go around the end of the ring. -/
theorem pwrite_agrees_iff (h : Reach Fresh System.step (fun _ _ => True) m) (hp : m.free p)
    (hf : m.usable f) (hw : f.ipw = true) (hflag : flag.noWait) (data : List Byte) :
    Agrees m p f data flag ↔
      data = [] ∨ (data.length : ℤ) > PIPE_MAX - m.ip.iPnc ∨
        ¬m.ip.noReaders ∧ (data.length : ℤ) ≤ PIPE_MAX - m.ip.iPwx := by
  have hi : Inv m := h.invariant (fun _ => Fresh.inv) fun _ _ _ hi _ => hi.step
  constructor
  · intro hagree
    by_contra hno
    simp only [not_or, not_lt] at hno
    obtain ⟨hne, hfits, hgo⟩ := hno
    have hmax : (data.length : ℤ) ≤ PIPE_MAX := by
      have := hi.ring.nonneg
      omega
    have hrefuse : ¬m.ip.Goes data.length := fun hg => hgo ⟨hg.2.1, hg.2.2.1⟩
    obtain ⟨m', hm', hwrote⟩ := hagree.fits hfits
    rw [writes_eq hp hf hw hflag hmax, if_neg hrefuse] at hm'
    cases hm'
    exact hne ((wrote_iff m p data hp).mp hwrote)
  · intro hcond
    refine ⟨fun hfits => ?_, fun hlarge hmax => ?_, ppoll_writable hi.ring hp hf hw hflag,
      fun q g ioc msec hq hg hr hioc => ppoll_readable hi hq hg hr hioc msec⟩
    · have hmax : (data.length : ℤ) ≤ PIPE_MAX := by
        have := hi.ring.nonneg
        omega
      rw [writes_eq hp hf hw hflag hmax]
      refine ⟨_, rfl, ?_⟩
      split_ifs with hg
      · exact wrote_spec m p data
      · refine (wrote_iff m p data hp).mpr ?_
        by_contra hne
        obtain ⟨hr, hpwx⟩ := (hcond.resolve_left hne).resolve_left (by omega)
        have hpos : 0 < data.length := List.length_pos_of_ne_nil hne
        exact hg ⟨by omega, hr, hpwx, hfits⟩
    · have hrefuse : ¬m.ip.Goes data.length := fun hg => by
        have := hg.2.2.2
        omega
      rw [writes_eq hp hf hw hflag hmax, if_neg hrefuse]
      exact ⟨_, rfl, hp.1, (List.append_nil _).symm⟩

/-- The only file table entry. -/
def both : File := ⟨0, true, true⟩

/-- Two bytes go into a new pipe. -/
theorem pwrite_agrees_two : ∃ m : System (Fin 1),
    Reach Fresh System.step (fun _ _ => True) m ∧ m.free 0 ∧ m.usable both ∧
      Agrees m 0 both [1, 2] ⟨true, false⟩ := by
  have heval : (oneProcess.step (.popen 0 both false)).map
      (fun m => decide (m.free 0 ∧ m.usable both ∧ ¬m.ip.noReaders ∧
        (([1, 2] : List Byte).length : ℤ) ≤ PIPE_MAX - m.ip.iPwx)) = some true := by
    decide +kernel
  obtain ⟨m, hm, hval⟩ := Option.map_eq_some_iff.mp heval
  obtain ⟨hp, hf, hr, hpwx⟩ := of_decide_eq_true hval
  have hreach : Reach Fresh System.step (fun _ _ => True) m :=
    (Reach.init oneProcess_fresh).step trivial hm
  exact ⟨m, hreach, hp, hf, (pwrite_agrees_iff hreach hp hf rfl (Or.inl rfl) [1, 2]).mpr
    (Or.inr (Or.inr ⟨hr, hpwx⟩))⟩

/-- **A write that fits, and is refused.**  After 3000 bytes written and 2000 read there is room for
    4120 bytes, but a write of 4000 bytes goes around the end of the ring. -/
theorem pwrite_refused : ¬∀ (m : System (Fin 1)) (p : Fin 1) (f : File) (data : List Byte)
    (flag : Flag), Reach Fresh System.step (fun _ _ => True) m → m.free p → m.usable f →
      f.ipw = true → flag.noWait → Agrees m p f data flag := by
  intro hall
  have heval : (runFrom System.step oneProcess
      [.popen 0 both false, .pwrite 0 both (List.replicate 3000 0) ⟨false, false⟩,
        .transfer 0 3000 false, .pread 0 both 2000 ⟨false, false⟩, .transfer 0 2000 false]).map
      (fun m => decide (m.free 0 ∧ m.usable both ∧ m.ip.iPnc = 1000 ∧ m.ip.iPwx = 3000)) =
      some true := by
    decide +kernel
  obtain ⟨m, hm, hval⟩ := Option.map_eq_some_iff.mp heval
  obtain ⟨hp, hf, hpnc, hpwx⟩ := of_decide_eq_true hval
  have hlen : (List.replicate 4000 (0 : Byte)).length = 4000 := List.length_replicate
  have hmax : ((List.replicate 4000 (0 : Byte)).length : ℤ) ≤ PIPE_MAX := by
    rw [hlen]
    decide
  have hfits := (hall m 0 both (List.replicate 4000 0) ⟨true, false⟩
    ((Reach.init oneProcess_fresh).run (fun _ _ => trivial) hm) hp hf rfl (Or.inl rfl)).fits (by
      rw [hlen, hpnc]
      decide)
  have hrefuse : ¬m.ip.Goes (List.replicate 4000 (0 : Byte)).length := by
    rintro ⟨-, -, hgo, -⟩
    rw [hlen, hpwx] at hgo
    exact absurd hgo (by decide)
  obtain ⟨m', hm', hwrote⟩ := hfits
  rw [writes_eq hp hf rfl (Or.inl rfl) hmax, if_neg hrefuse] at hm'
  cases hm'
  exact absurd ((wrote_iff m 0 _ hp).mp hwrote) (by decide)

end CohKernel.Pipe
