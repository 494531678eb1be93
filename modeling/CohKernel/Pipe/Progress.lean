import CohKernel.Pipe.Counts

namespace CohKernel.Pipe

open CohKernel.Lib

/-!
# Progress on a pipe

A process that sleeps on a pipe waits for something that is not there: bytes, room, a reader or a
writer.  Readers and writers never wait for each other, since an empty pipe has all of its room in
one piece; only `uchsize` makes empty pipes that have not.

* `Awake.step` — the sleeping processes have been left alone for a reason;
* `reachable_progress` — no reader sleeps beside a writer, and the loops of transfers end.
-/

variable {P : Type*}

/-- What a sleeping process waits for is not there. -/
def Call.Waits (m : System P) : Call → Prop
  | .popenR => m.files.countP File.ipw = 0
  | .popenW => m.files.countP File.ipr = 0
  | .pread _ _ => m.ip.iPnc = 0
  | .pwrite _ _ _ => 0 < m.ip.iPnc

/-- An empty pipe starts at the beginning of its file, the file has all bytes of the pipe, and the
    processes that are asleep wait, but for those that are going to be woken in a moment. -/
structure Awake (but : List Who) (m : System P) : Prop where
  empty : m.ip.iPnc = 0 → m.ip.iPrx = 0
  size : min (m.ip.iPrx + m.ip.iPnc) PIPE_MAX ≤ m.ip.iSize
  sleeper : ∀ p f call, m.phase p = .asleep f call → call.who ∈ but ∨ call.Waits m

variable {m m' : System P} {p : P} {f : File} {call : Call} {but : List Who} {who : Who}

/-! ### Sleeping and waking -/

/-- Nobody falls asleep, and the reasons for sleeping stay. -/
theorem Awake.keep {but' : List Who} (h : Awake but m) (hempty : m'.ip.iPnc = 0 → m'.ip.iPrx = 0)
    (hsize : min (m'.ip.iPrx + m'.ip.iPnc) PIPE_MAX ≤ m'.ip.iSize)
    (hphase : ∀ p f call, m'.phase p = .asleep f call → m.phase p = .asleep f call)
    (hwaits : ∀ call : Call, call.who ∈ but ∨ call.Waits m → call.who ∈ but' ∨ call.Waits m') :
    Awake but' m' :=
  ⟨hempty, hsize, fun p f call hp => hwaits call (h.sleeper p f call (hphase p f call hp))⟩

theorem Awake.weaken (h : Awake but m) (who : Who) : Awake (who :: but) m :=
  ⟨h.empty, h.size, fun q f call hq => (h.sleeper q f call hq).imp_left (List.mem_cons_of_mem who)⟩

variable [Fintype P]

theorem Awake.pwake (h : Awake (who :: but) m) (hi : Inv m) : Awake but (m.pwake who) := by
  obtain ⟨hip, -, hfiles, -⟩ := pwake_fields m who
  refine ⟨hip ▸ h.empty, hip ▸ h.size, fun q f call hq => ?_⟩
  rw [hi.pwake_phase] at hq
  rcases (m.phase q).wake_cases who with ⟨heq, hne⟩ | ⟨g, c, -, -, heq⟩
  · rw [heq] at hq
    rcases h.sleeper q f call hq with hmem | hw
    · exact Or.inl ((List.mem_cons.mp hmem).resolve_left (hne f call hq))
    · refine Or.inr ?_
      cases call <;> simp only [Call.Waits, hip, hfiles] <;> exact hw
  · rw [heq] at hq
    cases hq

variable [DecidableEq P]

section

omit [Fintype P]

theorem psleep_phase (m : System P) (p : P) (f : File) (call : Call) :
    (m.psleep p f call).phase p = .asleep f call := Function.update_self p _ _

theorem hold_phase (m : System P) (p : P) (ph : Phase) : (m.hold p ph).phase p = ph :=
  Function.update_self p _ _

theorem Awake.psleep (h : Awake but m) (hw : call.Waits m) : Awake but (m.psleep p f call) := by
  have hsame : ∀ c : Call, c.Waits m → c.Waits (m.psleep p f call) := by
    intro c hc
    unfold System.psleep
    cases c <;> cases call.who <;> exact hc
  refine ⟨?_, ?_, fun q g c hq => ?_⟩
  · unfold System.psleep
    cases call.who <;> exact h.empty
  · unfold System.psleep
    cases call.who <;> exact h.size
  · by_cases hqp : q = p
    · rw [hqp, System.psleep] at hq
      obtain ⟨rfl, rfl⟩ := Phase.asleep.inj ((Function.update_self p _ _).symm.trans hq)
      exact Or.inr (hsame _ hw)
    · rw [System.psleep] at hq
      exact (h.sleeper q g c ((Function.update_of_ne hqp _ _).symm.trans hq)).imp_right (hsame c)

/-- A process that changes to another phase is not asleep. -/
theorem update_asleep {ph : Phase} (hph : ∀ f call, ph ≠ .asleep f call) (q : P) (f : File)
    (call : Call) (hq : Function.update m.phase p ph q = .asleep f call) :
    m.phase q = .asleep f call := by
  by_cases hqp : q = p
  · rw [hqp, Function.update_self] at hq
    exact absurd hq (hph f call)
  · rwa [Function.update_of_ne hqp] at hq

theorem Awake.hold (h : Awake but m) {ph : Phase} (hph : ∀ f call, ph ≠ .asleep f call) :
    Awake but (m.hold p ph) :=
  h.keep h.empty h.size (fun q f call hq => update_asleep hph q f call hq) fun call hc => by
    cases call <;> exact hc

theorem Awake.runs (h : Awake but m) (p : P) : Awake but (m.runs p) :=
  h.keep h.empty h.size (fun q f call hq => update_asleep (fun _ _ h => by cases h) q f call hq) fun
    call hc => by
    cases call <;> exact hc

theorem Awake.wokenUp (h : Awake but m) (sig : Bool) : Awake but (m.wokenUp p sig f call) := by
  have hip : (m.wokenUp p sig f call).ip.iPnc = m.ip.iPnc ∧
      (m.wokenUp p sig f call).ip.iPrx = m.ip.iPrx ∧
      (m.wokenUp p sig f call).ip.iSize = m.ip.iSize := by
    unfold System.wokenUp
    cases call.who <;> exact ⟨rfl, rfl, rfl⟩
  refine h.keep ?_ ?_ (fun q g c hq => update_asleep (fun _ _ h => by cases h) q g c hq) fun c hc =>
    ?_
  · rw [hip.1, hip.2.1]
    exact h.empty
  · rw [hip.1, hip.2.1, hip.2.2]
    exact h.size
  · cases c <;> simp only [Call.Waits, hip.1] <;> exact hc

end

/-! ### Opening and closing -/

omit [Fintype P] [DecidableEq P] in
theorem Awake.closed (h : Awake but m) (f : File) : Awake but (m.closed f) := by
  refine h.keep h.empty h.size (fun _ _ _ hq => hq) fun c hc => hc.imp_right fun hw => ?_
  cases c with
  | popenR =>
    have : m.files.countP File.ipw = 0 := hw
    simp only [Call.Waits, System.closed, List.countP_erase, this, Nat.zero_sub]
  | popenW =>
    have : m.files.countP File.ipr = 0 := hw
    simp only [Call.Waits, System.closed, List.countP_erase, this, Nat.zero_sub]
  | pread ioc flag => exact hw
  | pwrite c data flag => exact hw

omit [Fintype P] [DecidableEq P] in
/-- A file that is opened for writing is what the readers wait for, and the other way round. -/
theorem Awake.opened (h : Awake [] m) (f : File) :
    Awake ((if f.ipr = true then [Who.IFWFR] else []) ++ if f.ipw = true then [Who.IFWFW] else [])
      (m.opened f) := by
  refine h.keep h.empty h.size (fun _ _ _ hq => hq) fun c hc => ?_
  have hw : c.Waits m := hc.resolve_left List.not_mem_nil
  cases c with
  | popenR =>
    have h0 : m.files.countP File.ipw = 0 := hw
    simp only [Call.Waits, Call.who, System.opened, List.countP_cons, h0]
    split_ifs <;> simp
  | popenW =>
    have h0 : m.files.countP File.ipr = 0 := hw
    simp only [Call.Waits, Call.who, System.opened, List.countP_cons, h0]
    split_ifs <;> simp
  | pread ioc flag => exact Or.inr hw
  | pwrite c data flag => exact Or.inr hw

theorem Awake.popenR (h : Awake [.IFWFR] m) (hi : Inv m) (nd : Bool)
    (hnone : m.ip.noWriters → Awake [] m) : Awake [] (m.popenR p f nd) := by
  unfold System.popenR
  split_ifs with hw
  · exact (hnone hw.1).psleep (hi.noWriters_iff.mp hw.1)
  · exact h.pwake hi

omit [DecidableEq P] in
/-- When there are no writers nobody waits for a reader. -/
theorem Awake.of_noWriters (h : Awake [.IFWFR] m) (hi : Inv m) (hw : m.ip.noWriters) :
    Awake [] m := by
  refine ⟨h.empty, h.size, fun q g c hq => (h.sleeper q g c hq).imp_left fun hmem => ?_⟩
  have hwho := List.mem_singleton.mp hmem
  have hs : (m.phase q).sleeps .IFWFR = true := by
    rw [hq]
    exact decide_eq_true hwho
  have := hi.writer hs
  rw [hi.noWriters_iff] at hw
  omega

omit [DecidableEq P] in
theorem Awake.of_noReaders (h : Awake [.IFWFW] m) (hi : Inv m) (hr : m.ip.noReaders) :
    Awake [] m := by
  refine ⟨h.empty, h.size, fun q g c hq => (h.sleeper q g c hq).imp_left fun hmem => ?_⟩
  have hwho := List.mem_singleton.mp hmem
  have hs : (m.phase q).sleeps .IFWFW = true := by
    rw [hq]
    exact decide_eq_true hwho
  have := hi.reader hs
  rw [hi.noReaders_iff] at hr
  omega

theorem Awake.popen (h : Awake [] m) (hi : Inv m) (nd : Bool) : Awake [] (m.popen p f nd) := by
  have ho := h.opened f
  have hio := hi.opened f
  unfold System.popen
  cases hr : f.ipr <;> cases hw : f.ipw <;>
    simp only [hr, hw, if_true, if_false, Bool.false_eq_true, List.nil_append, List.append_nil,
      List.singleton_append] at ho ⊢
  · exact ho
  · by_cases hno : m.ip.noReaders
    · rw [if_pos hno]
      split_ifs
      · exact h
      · have h0 := hi.noReaders_iff.mp hno
        have h0' : (m.opened f).files.countP File.ipr = 0 := by
          simp only [System.opened, List.countP_cons, h0, hr, Bool.false_eq_true, if_false]
        exact (ho.of_noReaders hio (hio.noReaders_iff.mpr h0')).psleep h0'
    · rw [if_neg hno]
      exact ho.pwake hio
  · exact ho.popenR hio nd fun hnw => ho.of_noWriters hio hnw
  · refine @Awake.pwake _ _ _ .IFWFR _ ?_ (hio.pwake _)
    refine @Awake.pwake _ _ _ .IFWFW _ ?_ hio
    exact ⟨ho.empty, ho.size, fun q g c hq => (ho.sleeper q g c hq).imp_left fun hm => by
      simpa [or_comm] using hm⟩

omit [DecidableEq P] in
theorem Awake.pclose (h : Awake [] m) (hi : Inv m) (hstep : m.pclose f = some m') :
    Awake [] m' := by
  have h2 := ((h.weaken .IFWFW).weaken .IFWFR).pwake hi
  have h3 := (h2.pwake (hi.pwake _)).closed f
  unfold System.pclose at hstep
  simp only at hstep
  split_ifs at hstep with hpanic hlast
  · cases hstep
    have hring := ((hi.pwake .IFWFR).pwake .IFWFW).ring
    have hsize := h3.size
    have hnobody : ∀ q g c, (((m.pwake .IFWFR).pwake .IFWFW).closed f).phase q ≠ .asleep g c := by
      intro q g c hq
      change ((m.pwake .IFWFR).pwake .IFWFW).phase q = _ at hq
      rw [(hi.pwake _).pwake_phase, hi.pwake_phase] at hq
      rcases ((m.phase q).wake .IFWFR).wake_cases .IFWFW with ⟨heq, hne⟩ | ⟨g', c', -, -, heq⟩
      · rw [heq] at hq
        have hne' := hne g c hq
        rcases (m.phase q).wake_cases .IFWFR with ⟨heq', hne''⟩ | ⟨g', c', -, -, heq'⟩
        · rw [heq'] at hq
          have := hne'' g c hq
          cases hc : c.who <;> contradiction
        · rw [heq'] at hq
          cases hq
      · rw [heq] at hq
        cases hq
    refine ⟨fun _ => rfl, ?_, fun q g c hq => absurd hq (hnobody q g c)⟩
    obtain ⟨r1, -, r3, -⟩ := ring_iff.mp hring
    have hip : (((m.pwake .IFWFR).pwake .IFWFW).closed f).ip.iSize =
        ((m.pwake .IFWFR).pwake .IFWFW).ip.iSize := rfl
    simp only [System.closed, System.pclear, PIPE_MAX] at hsize ⊢
    omega
  · cases hstep
    exact h3

/-! ### Reading and writing -/

theorem Awake.readLoop (h : Awake [.IFWFR] m) (hi : Inv m) (hpos : 0 < m.ip.iPnc → Awake [] m)
    (ioc : ℤ) (err : Bool) : Awake [] (m.readLoop p f ioc err) := by
  unfold System.readLoop
  by_cases hloop : err = false ∧ ioc > 0 ∧ m.ip.iPnc > 0
  · rw [if_pos hloop]
    exact (hpos hloop.2.2).hold fun _ _ => nofun
  rw [if_neg hloop]
  split_ifs with hfull
  · exact h.pwake hi
  · refine hpos ?_
    unfold PIPE_MAX at hfull
    omega

theorem Awake.pread (h : Awake [] m) (hi : Inv m) (ioc : ℤ) (flag : Flag) :
    Awake [] (m.pread p f ioc flag) := by
  unfold System.pread
  split_ifs with h0
  · exact h
  · exact h
  · exact h
  · exact h.psleep h0
  · exact (h.weaken _).readLoop hi (fun _ => h) ioc false

omit [DecidableEq P] in
/-- Bytes that are taken make room, which is what writers wait for. -/
theorem Awake.taken (h : Awake [] m) (hi : Inv m) {k : ℕ} (hk : k ≤ m.ip.iPnc)
    (hk' : k ≤ PIPE_MAX - m.ip.iPrx) :
    Awake [.IFWFR] (m.taken k) ∧ (0 < (m.taken k).ip.iPnc → Awake [] (m.taken k)) := by
  obtain ⟨h1, h2, h3, h4, -⟩ := ring_iff.mp hi.ring
  have hsize := h.size
  unfold PIPE_MAX at hk' hsize
  have hempty : (m.taken k).ip.iPnc = 0 → (m.taken k).ip.iPrx = 0 := fun h0 => if_pos h0
  have hsize' : min ((m.taken k).ip.iPrx + (m.taken k).ip.iPnc) PIPE_MAX ≤
      (m.taken k).ip.iSize := by
    simp only [System.taken, PIPE_MAX]
    split_ifs <;> omega
  have hpnc : (m.taken k).ip.iPnc = m.ip.iPnc - k := rfl
  refine ⟨h.keep hempty hsize' (fun _ _ _ hq => hq) fun c hc => ?_, fun hpos =>
    h.keep hempty hsize' (fun _ _ _ hq => hq) fun c hc => ?_⟩
  · have hw : c.Waits m := hc.resolve_left List.not_mem_nil
    cases c with
    | popenR => exact Or.inr hw
    | popenW => exact Or.inr hw
    | pread ioc flag =>
      have h0 : m.ip.iPnc = 0 := hw
      refine Or.inr ?_
      rw [Call.Waits, hpnc]
      omega
    | pwrite c data flag => exact Or.inl (List.mem_singleton.mpr rfl)
  · have hw : c.Waits m := hc.resolve_left List.not_mem_nil
    cases c with
    | popenR => exact Or.inr hw
    | popenW => exact Or.inr hw
    | pread ioc flag =>
      have h0 : m.ip.iPnc = 0 := hw
      rw [hpnc] at hpos
      omega
    | pwrite c data flag => exact Or.inr hpos

/-- An empty pipe has room for every write, so that no writer waits for it to be read. -/
theorem Awake.writeLoop (h : Awake [] m) (hi : Inv m) (c : ℕ) (data : List Byte) (flag : Flag)
    (err : Bool) : Awake [] (m.writeLoop p f c data flag err) := by
  obtain ⟨h1, h2, h3, h4, h5⟩ := ring_iff.mp hi.ring
  have hempty := h.empty
  unfold System.writeLoop
  by_cases hloop : err = false ∧ (data.length : ℤ) > 0
  swap
  · rw [if_neg hloop]
    exact h
  rw [if_pos hloop]
  by_cases hnr : m.ip.noReaders
  · rw [if_pos hnr]
    exact h
  rw [if_neg hnr]
  simp only
  set n := if m.ip.iPnc > 0 then m.ip.iPnc else 0 with hn
  split_ifs <;> first
    | exact h
    | exact h.hold fun _ _ => nofun
    | skip
  all_goals
    refine h.psleep ?_
    unfold Call.Waits
    by_contra h0
    have hpnc : m.ip.iPnc = 0 := by omega
    have hprx := hempty hpnc
    have hpwx : m.ip.iPwx = 0 := by
      rw [h5, hprx, hpnc]
      rfl
    unfold PIPE_MAX at *
    omega

omit [DecidableEq P] in
/-- Bytes that are stored are what readers wait for. -/
theorem Awake.stored (h : Awake [] m) (hi : Inv m) (hl : m.lock = none) (c : ℕ) (data : List Byte)
    {k : ℕ} (hk : k ≤ PIPE_MAX - m.ip.iPnc) (hk' : k ≤ PIPE_MAX - m.ip.iPwx) :
    Awake [] (m.stored c data k) := by
  have hput := hi.put hl c data hk hk'
  obtain ⟨h1, h2, h3, h4, h5⟩ := ring_iff.mp hi.ring
  have hempty := h.empty
  have hsize := h.size
  unfold PIPE_MAX at hk hk' hsize
  have hempty' : (m.put c data k).ip.iPnc = 0 → (m.put c data k).ip.iPrx = 0 := by
    intro h0
    exact hempty (by simp only [System.put] at h0; omega)
  have hsize' : min ((m.put c data k).ip.iPrx + (m.put c data k).ip.iPnc) PIPE_MAX ≤
      (m.put c data k).ip.iSize := by
    simp only [System.put, PIPE_MAX]
    split_ifs <;> omega
  have hpnc : (m.put c data k).ip.iPnc = m.ip.iPnc + k := rfl
  unfold System.stored
  simp only
  split_ifs with hpos
  · refine Awake.pwake ?_ hput
    refine h.keep hempty' hsize' (fun _ _ _ hq => hq) fun call hc => ?_
    have hw : call.Waits m := hc.resolve_left List.not_mem_nil
    cases call with
    | popenR => exact Or.inr hw
    | popenW => exact Or.inr hw
    | pread ioc flag => exact Or.inl (List.mem_singleton.mpr rfl)
    | pwrite c data flag => exact Or.inr hpos
  · refine h.keep hempty' hsize' (fun _ _ _ hq => hq) fun call hc => hc.imp_right fun hw => ?_
    cases call with
    | popenR => exact hw
    | popenW => exact hw
    | pread ioc flag =>
      have h0 : m.ip.iPnc = 0 := hw
      rw [Call.Waits, hpnc]
      omega
    | pwrite c data flag =>
      have h0 : 0 < m.ip.iPnc := hw
      omega

/-! ### Steps -/

/-- A size that leaves the pipe empty at the beginning of its file only, and that adds no bytes
    that the file does not have. -/
def Inode.Fits (ip : Inode) (size : ℤ) : Prop :=
  (size = 0 → ip.iPrx = 0) ∧ min (ip.iPrx + size) PIPE_MAX ≤ ip.iSize

instance (ip : Inode) (size : ℤ) : Decidable (ip.Fits size) := inferInstanceAs (Decidable (_ ∧ _))

/-- What the steps must be like: `uchsize` gives the pipe a size that fits, and `fread` and `fwrite`
    set an error when they stop short. -/
def Orderly (m : System P) : Event P → Prop
  | .uchsize _ f size =>
      size < 0 ∨ f.ipw = false ∨ size > PIPE_MAX ∨ m.ip.noReaders ∨ m.ip.Fits size
  | .transfer p k err =>
      match m.phase p with
      | .reading _ _ n => err = true ∨ k = m.ip.readable n
      | .writing _ _ _ _ n => err = true ∨ k = n
      | _ => True
  | _ => True

omit [DecidableEq P] in
theorem Awake.uchsize (h : Awake [] m) (hi : Inv m) (hl : m.lock = none) (f : File) {size : ℤ}
    (hok : Orderly m (.uchsize p f size)) : Awake [] (m.uchsize f size) := by
  rcases uchsize_cases m f size with heq | ⟨h0, hw, hmax, hnr, heq⟩
  · rw [heq]
    exact h
  have hfits : m.ip.Fits size := by
    rcases hok with hneg | hmode | hbig | hno | hfits
    · omega
    · exact absurd (hmode.symm.trans hw) Bool.false_ne_true
    · omega
    · exact absurd hno hnr
    · exact hfits
  have hset := hi.resize hl h0 hmax
  -- readers wait no more when there are bytes, writers when there are none
  have hawake : ∀ but : List Who, (size > 0 → .IFWFW ∈ but) → (size = 0 → .IFWFR ∈ but) →
      Awake but { m with ip := m.ip.resize size } := by
    intro but hpos hzero
    refine h.keep hfits.1 hfits.2 (fun _ _ _ hq => hq) fun call hc => ?_
    have hw : call.Waits m := hc.resolve_left List.not_mem_nil
    cases call with
    | popenR => exact Or.inr hw
    | popenW => exact Or.inr hw
    | pread ioc flag =>
      rcases h0.eq_or_lt with hz | hp
      · exact Or.inr hz.symm
      · exact Or.inl (hpos hp)
    | pwrite c data flag =>
      rcases h0.eq_or_lt with hz | hp
      · exact Or.inl (hzero hz.symm)
      · exact Or.inr hp
  rw [heq]
  simp only
  by_cases hpos : size > 0
  · rw [if_pos hpos]
    have h1 := (hawake [.IFWFW] (fun _ => List.mem_singleton.mpr rfl) (by omega)).pwake hset
    split_ifs
    · exact (h1.weaken _).pwake (hset.pwake _)
    · exact h1
  · rw [if_neg hpos, if_pos (by unfold PIPE_MAX; omega)]
    exact (hawake [.IFWFR] (by omega) fun _ => List.mem_singleton.mpr rfl).pwake hset

theorem Awake.goOn (h : Awake [] m) (hi : Inv m) (sig : Bool) (call : Call) :
    Awake [] (m.goOn p sig f call) := by
  cases call with
  | popenR =>
    simp only [System.goOn]
    split_ifs
    · exact h.closed f
    · exact (h.weaken _).pwake hi
    · exact (h.weaken _).popenR hi false fun _ => h
  | popenW =>
    simp only [System.goOn]
    split_ifs
    · exact h.closed f
    · exact (h.weaken _).pwake hi
  | pread ioc flag =>
    simp only [System.goOn]
    split_ifs
    · exact h
    · exact h.pread hi ioc flag
  | pwrite c data flag =>
    simp only [System.goOn]
    split_ifs
    · exact h
    · exact h.writeLoop hi c data flag false

/-- **A step** that is orderly leaves the sleeping processes alone only while they wait. -/
theorem Awake.step (h : Awake [] m) (hi : Inv m) {a : Event P} (hok : Orderly m a)
    (hstep : m.step a = some m') : Awake [] m' := by
  cases step_cases hstep with
  | popen p f nd hp hf heq => exact heq ▸ h.popen hi nd
  | pclose p f hp hf hno hc => exact h.pclose hi hc
  | pread p f ioc flag hp hf hr heq =>
    rw [heq, System.iread]
    split_ifs
    · exact h
    · exact h.pread hi ioc flag
  | pwrite p f data flag hp hf hw heq =>
    have hc : Awake [] (m.called data) := h.keep h.empty h.size (fun _ _ _ hq => hq) fun c hc => by
      cases c <;> exact hc
    exact heq ▸ hc.writeLoop (hi.called data) m.calls data flag false
  | uchsize p f size hp hf heq => exact heq ▸ h.uchsize hi hp.2 f hok
  | signal p f call hp heq =>
    rw [heq]
    exact h.keep h.empty h.size (fun q g c hq => update_asleep (fun _ _ h => by cases h) q g c hq)
      fun c hc => by cases c <;> exact hc
  | run p sig sig' f call hp heq => exact heq ▸ h.wokenUp _
  | lock p sig f call hp hl heq =>
    obtain ⟨hr, -⟩ := hi.runs (p := p) (fun who => by rw [hp]; rfl) (Or.inl hl)
    exact heq ▸ (h.runs p).goOn hr sig call
  | fread p k err f ioc n hp hk herr heq =>
    obtain ⟨hr, hfree, hip, hn, -, hpnc, hprx⟩ := hi.transfer hp rfl
    have hle := readable_le m.ip hn.le
    have hk1 := hk.trans (hle.trans hpnc)
    have hk2 := hk.trans (hle.trans hprx)
    obtain ⟨ht, htpos⟩ := (h.runs p).taken hr hk1 hk2
    exact heq ▸ ht.readLoop (hr.taken hfree.2 hk1 hk2) htpos _ err
  | fwrite p k err f c data flag n hp hk herr heq =>
    obtain ⟨hr, hfree, hip, hn, -, hpnc, hpwx, -⟩ := hi.transfer hp rfl
    have hs := (h.runs p).stored hr hfree.2 c data (hk.trans hpnc) (hk.trans hpwx)
    exact heq ▸ hs.writeLoop (hr.stored hfree.2 c data (hk.trans hpnc) (hk.trans hpwx)).1 c _ flag
      err

/-! ### The end of a loop -/

/-- The bytes that are left to move. -/
def Phase.left : Phase → ℕ
  | .reading _ ioc _ => ioc.toNat
  | .writing _ _ data _ _ => data.length
  | _ => 0

theorem readLoop_moves (hi : Inv m) (hp : m.free p) {ioc : ℤ} {err : Bool}
    (hmv : ((m.readLoop p f ioc err).phase p).moves = true) :
    err = false ∧ ((m.readLoop p f ioc err).phase p).left = ioc.toNat := by
  unfold System.readLoop at hmv ⊢
  by_cases hloop : err = false ∧ ioc > 0 ∧ m.ip.iPnc > 0
  · simp only [if_pos hloop]
    refine ⟨hloop.1, ?_⟩
    rw [hold_phase]
    rfl
  · rw [if_neg hloop] at hmv
    split_ifs at hmv
    · rw [(hi.pwake_free hp _).1] at hmv
      cases hmv
    · rw [hp.1] at hmv
      cases hmv

omit [Fintype P] in
theorem writeLoop_moves (hp : m.free p) {c : ℕ} {data : List Byte} {flag : Flag} {err : Bool}
    (hmv : ((m.writeLoop p f c data flag err).phase p).moves = true) :
    err = false ∧ ((m.writeLoop p f c data flag err).phase p).left = data.length := by
  have hidle : ¬(m.phase p).moves = true := by rw [hp.1]; exact nofun
  unfold System.writeLoop at hmv ⊢
  by_cases hloop : err = false ∧ (data.length : ℤ) > 0
  swap
  · rw [if_neg hloop] at hmv
    exact absurd hmv hidle
  simp only [if_pos hloop] at hmv ⊢
  by_cases hnr : m.ip.noReaders
  · rw [if_pos hnr] at hmv
    exact absurd hmv hidle
  rw [if_neg hnr] at hmv ⊢
  refine ⟨hloop.1, ?_⟩
  split_ifs at hmv ⊢ <;> first
    | exact absurd hmv hidle
    | (rw [hold_phase]; rfl)
    | (rw [psleep_phase] at hmv; cases hmv)

/-- A turn of a loop is the last one or leaves less to move. -/
theorem left_transfer (hi : Inv m) (h : Awake [] m) {k : ℕ} {err : Bool}
    (hok : Orderly m (.transfer p k err)) (hstep : m.step (.transfer p k err) = some m')
    (hmv : (m'.phase p).moves = true) : (m'.phase p).left < (m.phase p).left := by
  cases step_cases hstep with
  | fread _ _ _ f ioc n hp hk herr heq =>
    obtain ⟨hr, hfree, hip, hn, hioc, hpnc, hprx⟩ := hi.transfer hp rfl
    have hsize := h.size
    obtain ⟨h1, h2, h3, h4, -⟩ := ring_iff.mp hi.ring
    -- all bytes of the pipe are in the file, so that `fread` finds one
    have hread : 0 < m.ip.readable n := by
      unfold Inode.readable
      unfold PIPE_MAX at hprx hsize
      split_ifs <;> omega
    rw [Orderly, hp] at hok
    have hle := readable_le m.ip hn.le
    have ht := hr.taken (k := k) hfree.2 (hk.trans (hle.trans hpnc)) (hk.trans (hle.trans hprx))
    rw [heq] at hmv ⊢
    obtain ⟨herr', hleft⟩ := readLoop_moves ht hfree hmv
    rw [hleft, hp]
    have hk' := hok.resolve_left (by rw [herr']; exact nofun)
    simp only [Phase.left]
    omega
  | fwrite _ _ _ f c data flag n hp hk herr heq =>
    obtain ⟨hr, hfree, hip, hn, hlen, hpnc, hpwx, -⟩ := hi.transfer hp rfl
    rw [Orderly, hp] at hok
    obtain ⟨hs, hsfree, -⟩ := hr.stored hfree.2 c data (k := k) (hk.trans hpnc) (hk.trans hpwx)
    rw [heq] at hmv ⊢
    obtain ⟨herr', hleft⟩ := writeLoop_moves (hsfree p hfree) hmv
    rw [hleft, hp, List.length_drop]
    have hk' := hok.resolve_left (by rw [herr']; exact nofun)
    simp only [Phase.left]
    omega

/-- The other processes leave a process in its loop alone, since it has the lock. -/
theorem phase_of_moves (hi : Inv m) {a : Event P} (hmv : (m.phase p).moves = true)
    (ha : ∀ k err, a ≠ .transfer p k err) (hstep : m.step a = some m') :
    m'.phase p = m.phase p := by
  have hlock := (hi.lock p).mp hmv
  have hno : m.lock ≠ none := by rw [hlock]; exact nofun
  have hsame : ∀ q k err, (m.phase q).moves = true → a ≠ .transfer q k err := by
    intro q k err hq
    have hlq := (hi.lock q).mp hq
    rw [hlock, Option.some.injEq] at hlq
    exact hlq ▸ ha k err
  have hother : ∀ q ph, (m.phase q).moves = false → Function.update m.phase q ph p = m.phase p := by
    intro q ph hq
    refine Function.update_of_ne (fun hpq => ?_) _ _
    rw [hpq] at hmv
    exact absurd (hq.symm.trans hmv) Bool.false_ne_true
  cases step_cases hstep with
  | popen q f nd hp hf heq => exact absurd hp.2 hno
  | pclose q f hp hf hn hc => exact absurd hp.2 hno
  | pread q f ioc flag hp hf hr heq => exact absurd hp.2 hno
  | pwrite q f data flag hp hf hw heq => exact absurd hp.2 hno
  | uchsize q f size hp hf heq => exact absurd hp.2 hno
  | signal q f call hp heq =>
    rw [heq]
    exact hother q _ (by rw [hp]; rfl)
  | run q sig sig' f call hp heq =>
    rw [heq, System.wokenUp]
    exact hother q _ (by rw [hp]; rfl)
  | lock q sig f call hp hl heq => exact absurd hl hno
  | fread q k err f ioc n hp hk herr heq => exact absurd rfl (hsame q k err (by rw [hp]; rfl))
  | fwrite q k err f c data flag n hp hk herr heq =>
    exact absurd rfl (hsame q k err (by rw [hp]; rfl))

/-- A run of orderly steps in which a process stays in its loop, with the number of its turns. -/
inductive Turns (p : P) (m : System P) : ℕ → System P → Prop
  | refl : Turns p m 0 m
  | other {m₁ m₂ : System P} {n : ℕ} {a : Event P} : Turns p m n m₁ → Orderly m₁ a →
      (∀ k err, a ≠ .transfer p k err) → m₁.step a = some m₂ → Turns p m n m₂
  | turn {m₁ m₂ : System P} {n k : ℕ} {err : Bool} : Turns p m n m₁ →
      Orderly m₁ (.transfer p k err) → m₁.step (.transfer p k err) = some m₂ →
      (m₂.phase p).moves = true → Turns p m (n + 1) m₂

/-- Every turn leaves less to move. -/
theorem Turns.left {n : ℕ} (ht : Turns p m n m') (hi : Inv m) (h : Awake [] m)
    (hmv : (m.phase p).moves = true) : Inv m' ∧ Awake [] m' ∧ (m'.phase p).moves = true ∧
      n + (m'.phase p).left ≤ (m.phase p).left := by
  induction ht with
  | refl => exact ⟨hi, h, hmv, (Nat.zero_add _).le⟩
  | other _ hok ha hstep ih =>
    obtain ⟨hi₁, h₁, hmv₁, hle⟩ := ih
    have hsame := phase_of_moves hi₁ hmv₁ ha hstep
    exact ⟨hi₁.step hstep, h₁.step hi₁ hok hstep, hsame ▸ hmv₁, hsame ▸ hle⟩
  | turn _ hok hstep hmv₂ ih =>
    obtain ⟨hi₁, h₁, hmv₁, hle⟩ := ih
    have hlt := left_transfer hi₁ h₁ hok hstep hmv₂
    exact ⟨hi₁.step hstep, h₁.step hi₁ hok hstep, hmv₂, by omega⟩

/-! ### Runs -/

/-- A reader sleeps that only a writer wakes, and the other way round. -/
def Stuck (m : System P) : Prop :=
  (∃ p f call, m.phase p = .asleep f call ∧ call.who = .IFWFW) ∧
    ∃ p f call, m.phase p = .asleep f call ∧ call.who = .IFWFR

omit [DecidableEq P] in
theorem Awake.not_stuck (h : Awake [] m) (hi : Inv m) : ¬Stuck m := by
  rintro ⟨⟨p, f, c, hp, hc⟩, q, g, d, hq, hd⟩
  have hw := (h.sleeper p f c hp).resolve_left List.not_mem_nil
  have hv := (h.sleeper q g d hq).resolve_left List.not_mem_nil
  have hreader := hi.reader (p := p) (by rw [hp]; exact decide_eq_true hc)
  have hwriter := hi.writer (p := q) (by rw [hq]; exact decide_eq_true hd)
  cases c with
  | popenR => exact absurd hw (by unfold Call.Waits; omega)
  | popenW => cases hc
  | pwrite c data flag => cases hc
  | pread ioc flag =>
    cases d with
    | popenR => cases hd
    | pread ioc flag => cases hd
    | popenW => exact absurd hv (by unfold Call.Waits; omega)
    | pwrite c data flag =>
      unfold Call.Waits at hw hv
      omega

theorem reach_awake (h : Reach Fresh System.step Orderly m) : Inv m ∧ Awake [] m := by
  refine @Reach.invariant _ _ _ _ _ (fun m => Inv m ∧ Awake [] m) (fun m hf => ⟨hf.inv, ?_⟩)
    (fun m a m' hm hok hs => ⟨hm.1.step hs, hm.2.step hm.1 hok hs⟩) _ h
  obtain ⟨h1, h2, -⟩ := hf.ip
  have hsize := hf.size
  refine ⟨fun _ => h2, ?_, fun p f call hp => ?_⟩
  · rw [h1, h2]
    unfold PIPE_MAX
    omega
  · rw [hf.phase p] at hp
    cases hp

/-- **Progress.**  In every run in which `uchsize` gives the pipe a size that fits, and `fread` and
    `fwrite` set an error when they stop short, readers and writers do not wait for each other, and
    a process in `pread` or `pwrite` gets to the end of its loop in as many turns as it has bytes to
    move at most. -/
theorem reachable_progress (h : Reach Fresh System.step Orderly m) :
    ¬Stuck m ∧ ∀ p, (m.phase p).moves = true → ∀ n m', Turns p m n m' → n < (m.phase p).left := by
  obtain ⟨hi, ha⟩ := reach_awake h
  refine ⟨ha.not_stuck hi, fun p hmv n m' ht => ?_⟩
  obtain ⟨hi', -, hmv', hle⟩ := ht.left hi ha hmv
  have hpos : 0 < (m'.phase p).left := by
    have hw := hi'.within p
    revert hw hmv'
    cases m'.phase p with
    | reading f ioc n =>
      rintro - ⟨h1, h2, -⟩
      simp only [Phase.left]
      omega
    | writing f c data flag n =>
      rintro - ⟨h1, h2, -⟩
      simp only [Phase.left]
      omega
    | _ => exact nofun
  omega

/-- A new pipe, and two processes. -/
def newPipe : System (Fin 2) where
  ip := { iSize := 0, iPnc := 0, iPrx := 0, iPwx := 0, iPar := 0, iPaw := 0, iPsr := 0, iPsw := 0 }
  file := fun _ => 0
  files := []
  phase := fun _ => .idle
  lock := none
  data := fun _ => []
  calls := 0
  accepted := []
  delivered := []
  stream := []
  lost := 0

theorem newPipe_fresh : Fresh newPipe :=
  ⟨by decide, by decide, rfl, fun _ => rfl, rfl, rfl, rfl, rfl, rfl, rfl⟩

/-- Process 1 writes two bytes to a pipe that it has opened for reading, too. -/
theorem reachable_progress_write : ∃ m : System (Fin 2), Reach Fresh System.step Orderly m ∧
    (m.phase 1).moves = true ∧
    ¬Stuck m ∧ ∀ p, (m.phase p).moves = true → ∀ n m', Turns p m n m' → n < (m.phase p).left := by
  have heval : ((newPipe.step (.popen 1 ⟨0, true, true⟩ false)).bind fun m =>
      m.step (.pwrite 1 ⟨0, true, true⟩ [1, 2] ⟨false, false⟩)).map
        (fun m => (m.phase 1).moves) = some true := by
    decide +kernel
  obtain ⟨m, hm, hmv⟩ := Option.map_eq_some_iff.mp heval
  obtain ⟨m₁, hm₁, hm₂⟩ := Option.bind_eq_some_iff.mp hm
  have hok₁ : Orderly newPipe (.popen 1 ⟨0, true, true⟩ false) := trivial
  have hok₂ : Orderly m₁ (.pwrite 1 ⟨0, true, true⟩ [1, 2] ⟨false, false⟩) := trivial
  have hreach := ((Reach.init newPipe_fresh).step hok₁ hm₁).step hok₂ hm₂
  exact ⟨m, hreach, hmv, reachable_progress hreach⟩

/-- **A reader and a writer that wait for each other.**  2000 of 3000 bytes are read, and `uchsize`
    cuts off the rest: the pipe is empty, but has no room for 4000 bytes in one piece. -/
theorem both_asleep : ¬∀ m : System (Fin 2), Reach Fresh System.step (fun _ _ => True) m →
    ¬Stuck m := by
  intro hall
  have heval : (runFrom System.step newPipe
      [.popen 0 ⟨0, true, false⟩ true, .popen 1 ⟨1, false, true⟩ false,
        .pwrite 1 ⟨1, false, true⟩ (List.replicate 3000 0) ⟨false, false⟩, .transfer 1 3000 false,
        .pread 0 ⟨0, true, false⟩ 2000 ⟨false, false⟩, .transfer 0 2000 false,
        .uchsize 1 ⟨1, false, true⟩ 0, .pread 0 ⟨0, true, false⟩ 10 ⟨false, false⟩,
        .pwrite 1 ⟨1, false, true⟩ (List.replicate 4000 0) ⟨false, false⟩]).map
      (fun m => decide (m.phase 0 = .asleep ⟨0, true, false⟩ (.pread 10 ⟨false, false⟩) ∧
        m.phase 1 = .asleep ⟨1, false, true⟩
          (.pwrite 1 (List.replicate 4000 0) ⟨false, false⟩))) = some true := by
    decide +kernel
  obtain ⟨m, hm, hval⟩ := Option.map_eq_some_iff.mp heval
  obtain ⟨hr, hw⟩ := of_decide_eq_true hval
  exact hall m ((Reach.init newPipe_fresh).run (fun _ _ => trivial) hm)
    ⟨⟨0, _, _, hr, rfl⟩, 1, _, _, hw, rfl⟩

end CohKernel.Pipe
