import CohKernel.Lib.Count
import CohKernel.Pipe.Defs

namespace CohKernel.Pipe

open CohKernel.Lib

/-!
# The counts of a pipe

What holds of the inode of a pipe in every run: the offsets are those of a ring, the counts of
sleeping processes are those of the processes that sleep, and together with the counts of awake
ones those of the open files.

* `Inv.noReaders_iff`, `Inv.noWriters_iff` — what `pread` and `pwrite` test;
* `Inv.step` — a step keeps the invariant.
-/

/-! ### The invariant -/

/-- The process is counted as asleep. -/
def Phase.sleeps (who : Who) : Phase → Bool
  | .asleep _ call | .woken _ _ call => decide (call.who = who)
  | _ => false

/-- The process is in `fread` or `fwrite`. -/
def Phase.moves : Phase → Bool
  | .reading _ _ _ | .writing _ _ _ _ _ => true
  | _ => false

/-- The call that sleeps in `psleep`. -/
def Phase.call : Phase → Option (File × Call)
  | .asleep f call | .woken _ f call | .locking _ f call => some (f, call)
  | _ => none

/-- The modes of the file of a call. -/
def Call.Fits (f : File) : Call → Prop
  | .popenR => f.ipr = true ∧ f.ipw = false
  | .popenW => f.ipr = false ∧ f.ipw = true
  | .pread _ _ => f.ipr = true
  | .pwrite _ _ _ => f.ipw = true

/-- The bytes in the pipe are a part of the ring. -/
structure Inode.Ring (ip : Inode) : Prop where
  nonneg : 0 ≤ ip.iPnc
  le : ip.iPnc ≤ PIPE_MAX
  prx : 0 ≤ ip.iPrx
  prx_lt : ip.iPrx < PIPE_MAX
  pwx : ip.iPwx = (ip.iPrx + ip.iPnc) % PIPE_MAX

/-- What is moved lies in one piece of the ring, and what is written belongs to a writer. -/
def Phase.Within (ip : Inode) : Phase → Prop
  | .reading _ ioc n => 0 < n ∧ n ≤ ioc ∧ n ≤ ip.iPnc ∧ n ≤ PIPE_MAX - ip.iPrx
  | .writing f _ data _ n =>
      0 < n ∧ n ≤ data.length ∧ n ≤ PIPE_MAX - ip.iPnc ∧ n ≤ PIPE_MAX - ip.iPwx ∧ f.ipw = true
  | _ => True

theorem ring_iff {ip : Inode} : ip.Ring ↔ 0 ≤ ip.iPnc ∧ ip.iPnc ≤ 5120 ∧ 0 ≤ ip.iPrx ∧
    ip.iPrx < 5120 ∧ ip.iPwx = (ip.iPrx + ip.iPnc) % 5120 :=
  ⟨fun h => ⟨h.nonneg, h.le, h.prx, h.prx_lt, h.pwx⟩,
    fun ⟨h1, h2, h3, h4, h5⟩ => ⟨h1, h2, h3, h4, h5⟩⟩

theorem ring_empty : (0 : ℤ) ≤ PIPE_MAX ∧ (0 : ℤ) < PIPE_MAX := by decide

variable {P : Type*} [Fintype P]

/-- The invariant of all runs. -/
structure Inv (m : System P) : Prop where
  ring : m.ip.Ring
  psr : m.ip.iPsr = count (Phase.sleeps .IFWFW) m.phase
  psw : m.ip.iPsw = count (Phase.sleeps .IFWFR) m.phase
  readers : m.ip.iPar + m.ip.iPsr = m.files.countP File.ipr
  writers : m.ip.iPaw + m.ip.iPsw = m.files.countP File.ipw
  file : ∀ p f, (m.phase p).file = some f → f ∈ m.files
  fits : ∀ p f call, (m.phase p).call = some (f, call) → call.Fits f
  alone : ∀ p q f, (m.phase p).opens = true → (m.phase p).file = some f →
    (m.phase q).file = some f → q = p
  lock : ∀ p, (m.phase p).moves = true ↔ m.lock = some p
  within : ∀ p, (m.phase p).Within m.ip

variable {m m' : System P} {p q : P} {f : File} {call : Call} {who : Who}

/-! ### Readers and writers -/

theorem Phase.sleeps_call {ph : Phase} (h : ph.sleeps who = true) :
    ∃ f call, ph.call = some (f, call) ∧ ph.file = some f ∧ call.who = who := by
  cases ph with
  | asleep f call => exact ⟨f, call, rfl, rfl, of_decide_eq_true h⟩
  | woken sig f call => exact ⟨f, call, rfl, rfl, of_decide_eq_true h⟩
  | idle => exact absurd h Bool.false_ne_true
  | locking sig f call => exact absurd h Bool.false_ne_true
  | reading f ioc n => exact absurd h Bool.false_ne_true
  | writing f c data flag n => exact absurd h Bool.false_ne_true

/-- A file of a process that waits for a writer is open for reading, and the other way round. -/
theorem Call.Fits.mode (h : call.Fits f) :
    (call.who = .IFWFW → f.ipr = true) ∧ (call.who = .IFWFR → f.ipw = true) := by
  cases call with
  | popenR => exact ⟨fun _ => h.1, nofun⟩
  | popenW => exact ⟨nofun, fun _ => h.2⟩
  | pread ioc flag => exact ⟨fun _ => h, nofun⟩
  | pwrite c data flag => exact ⟨nofun, fun _ => h⟩

theorem Inv.reader (h : Inv m) (hs : (m.phase p).sleeps .IFWFW = true) :
    0 < m.files.countP File.ipr := by
  obtain ⟨f, call, hcall, hfile, hwho⟩ := Phase.sleeps_call hs
  exact List.countP_pos_iff.mpr ⟨f, h.file p f hfile, (h.fits p f call hcall).mode.1 hwho⟩

theorem Inv.writer (h : Inv m) (hs : (m.phase p).sleeps .IFWFR = true) :
    0 < m.files.countP File.ipw := by
  obtain ⟨f, call, hcall, hfile, hwho⟩ := Phase.sleeps_call hs
  exact List.countP_pos_iff.mpr ⟨f, h.file p f hfile, (h.fits p f call hcall).mode.2 hwho⟩

/-- There are no readers when no file is open for reading. -/
theorem Inv.noReaders_iff (h : Inv m) : m.ip.noReaders ↔ m.files.countP File.ipr = 0 := by
  have hsum := h.readers
  unfold Inode.noReaders
  constructor
  · rintro ⟨h1, h2⟩
    omega
  · intro h0
    have hcount : count (Phase.sleeps .IFWFW) m.phase = 0 := by
      refine count_eq_zero fun p => ?_
      by_contra hs
      have := h.reader (eq_true_of_ne_false hs)
      omega
    have hpsr := h.psr
    omega

/-- There are no writers when no file is open for writing. -/
theorem Inv.noWriters_iff (h : Inv m) : m.ip.noWriters ↔ m.files.countP File.ipw = 0 := by
  have hsum := h.writers
  unfold Inode.noWriters
  constructor
  · rintro ⟨h1, h2⟩
    omega
  · intro h0
    have hcount : count (Phase.sleeps .IFWFR) m.phase = 0 := by
      refine count_eq_zero fun p => ?_
      by_contra hs
      have := h.writer (eq_true_of_ne_false hs)
      omega
    have hpsw := h.psw
    omega

/-! ### Waking -/

omit [Fintype P] in
theorem pwake_fields (m : System P) (who : Who) :
    (m.pwake who).ip = m.ip ∧ (m.pwake who).file = m.file ∧ (m.pwake who).files = m.files ∧
      (m.pwake who).lock = m.lock ∧ (m.pwake who).data = m.data ∧ (m.pwake who).calls = m.calls ∧
      (m.pwake who).accepted = m.accepted ∧ (m.pwake who).delivered = m.delivered ∧
      (m.pwake who).stream = m.stream ∧ (m.pwake who).lost = m.lost := by
  unfold System.pwake
  cases who <;> simp only <;> split_ifs <;>
    exact ⟨rfl, rfl, rfl, rfl, rfl, rfl, rfl, rfl, rfl, rfl⟩

/-- What `wakeup` does to a process. -/
theorem Phase.wake_cases (ph : Phase) (who : Who) :
    (ph.wake who = ph ∧ ∀ f call, ph = .asleep f call → call.who ≠ who) ∨
      ∃ f call, ph = .asleep f call ∧ call.who = who ∧ ph.wake who = .woken false f call := by
  cases ph with
  | asleep f call =>
    by_cases hw : call.who = who
    · exact Or.inr ⟨f, call, rfl, hw, if_pos hw⟩
    · exact Or.inl ⟨if_neg hw, fun f' call' heq => by cases heq; exact hw⟩
  | idle => exact Or.inl ⟨rfl, nofun⟩
  | woken sig f call => exact Or.inl ⟨rfl, nofun⟩
  | locking sig f call => exact Or.inl ⟨rfl, nofun⟩
  | reading f ioc n => exact Or.inl ⟨rfl, nofun⟩
  | writing f c data flag n => exact Or.inl ⟨rfl, nofun⟩

theorem Phase.wake_of_not_sleeps {ph : Phase} (h : ph.sleeps who = false) : ph.wake who = ph := by
  rcases ph.wake_cases who with ⟨heq, -⟩ | ⟨f, call, rfl, hw, -⟩
  · exact heq
  · exact absurd hw (of_decide_eq_false h)

theorem Phase.wake_sleeps (ph : Phase) (who who' : Who) :
    (ph.wake who).sleeps who' = ph.sleeps who' := by
  rcases ph.wake_cases who with ⟨heq, -⟩ | ⟨f, call, rfl, -, heq⟩ <;> rw [heq]
  rfl

theorem Phase.wake_file (ph : Phase) (who : Who) : (ph.wake who).file = ph.file := by
  rcases ph.wake_cases who with ⟨heq, -⟩ | ⟨f, call, rfl, -, heq⟩ <;> rw [heq]
  rfl

theorem Phase.wake_call (ph : Phase) (who : Who) : (ph.wake who).call = ph.call := by
  rcases ph.wake_cases who with ⟨heq, -⟩ | ⟨f, call, rfl, -, heq⟩ <;> rw [heq]
  rfl

theorem Phase.wake_moves (ph : Phase) (who : Who) : (ph.wake who).moves = ph.moves := by
  rcases ph.wake_cases who with ⟨heq, -⟩ | ⟨f, call, rfl, -, heq⟩ <;> rw [heq]
  rfl

theorem Phase.wake_opens (ph : Phase) (who : Who) : (ph.wake who).opens = ph.opens := by
  rcases ph.wake_cases who with ⟨heq, -⟩ | ⟨f, call, rfl, -, heq⟩ <;> rw [heq]
  cases call <;> rfl

theorem Phase.wake_within {ph : Phase} {ip : Inode} (h : ph.Within ip) (who : Who) :
    (ph.wake who).Within ip := by
  rcases ph.wake_cases who with ⟨heq, -⟩ | ⟨f, call, rfl, -, heq⟩ <;> rw [heq]
  · exact h
  · trivial

theorem Phase.wake_idle {ph : Phase} : ph.wake who = .idle ↔ ph = .idle := by
  rcases ph.wake_cases who with ⟨heq, -⟩ | ⟨f, call, rfl, -, heq⟩ <;> rw [heq]
  simp

/-- The count of sleeping processes is zero only when nobody sleeps. -/
theorem Inv.pwake_phase (h : Inv m) (who : Who) (p : P) :
    (m.pwake who).phase p = (m.phase p).wake who := by
  have hzero : ∀ who, (count (Phase.sleeps who) m.phase : ℤ) = 0 →
      m.phase p = (m.phase p).wake who := by
    intro who h0
    refine (Phase.wake_of_not_sleeps ?_).symm
    by_contra hs
    have hpos := @count_pos _ _ _ (Phase.sleeps who) m.phase p (eq_true_of_ne_false hs)
    omega
  unfold System.pwake
  cases who with
  | IFWFW =>
    simp only
    split_ifs with h0
    · rfl
    · exact hzero _ (h.psr ▸ not_not.mp h0)
  | IFWFR =>
    simp only
    split_ifs with h0
    · rfl
    · exact hzero _ (h.psw ▸ not_not.mp h0)

theorem Inv.pwake (h : Inv m) (who : Who) : Inv (m.pwake who) := by
  obtain ⟨hip, -, hfiles, hlock, -⟩ := pwake_fields m who
  have hcount : ∀ w, count (Phase.sleeps w) (m.pwake who).phase =
      count (Phase.sleeps w) m.phase := by
    intro w
    refine count_congr fun q => ?_
    rw [h.pwake_phase, Phase.wake_sleeps]
  refine ⟨hip ▸ h.ring, ?_, ?_, ?_, ?_, ?_, ?_, ?_, ?_, ?_⟩
  · rw [hip, hcount, h.psr]
  · rw [hip, hcount, h.psw]
  · rw [hip, hfiles, h.readers]
  · rw [hip, hfiles, h.writers]
  · intro q f hq
    rw [h.pwake_phase, Phase.wake_file] at hq
    exact hfiles ▸ h.file q f hq
  · intro q f call hq
    rw [h.pwake_phase, Phase.wake_call] at hq
    exact h.fits q f call hq
  · intro q r f hq hqf hrf
    rw [h.pwake_phase, Phase.wake_opens] at hq
    rw [h.pwake_phase, Phase.wake_file] at hqf hrf
    exact h.alone q r f hq hqf hrf
  · intro q
    rw [h.pwake_phase, Phase.wake_moves, hlock]
    exact h.lock q
  · intro q
    rw [h.pwake_phase, hip]
    exact Phase.wake_within (h.within q) who

theorem Inv.pwake_usable (h : Inv m) (hf : m.usable f) (who : Who) : (m.pwake who).usable f := by
  refine ⟨(pwake_fields m who).2.2.1 ▸ hf.1, fun q hq => ?_⟩
  rw [h.pwake_phase, Phase.wake_file] at hq
  rw [h.pwake_phase, Phase.wake_opens]
  exact hf.2 q hq

theorem Inv.pwake_free (h : Inv m) (hp : m.free p) (who : Who) : (m.pwake who).free p :=
  ⟨by rw [h.pwake_phase]; exact Phase.wake_idle.mpr hp.1, (pwake_fields m who).2.2.2.1 ▸ hp.2⟩

/-! ### What a process does -/

/-- While nobody has the lock the offsets can change, as long as they are those of a ring. -/
theorem Inv.withIp (h : Inv m) (hlock : m.lock = none) (hring : m'.ip.Ring)
    (hphase : m'.phase = m.phase) (hlock' : m'.lock = m.lock) (hfiles : m'.files = m.files)
    (hpar : m'.ip.iPar = m.ip.iPar) (hpaw : m'.ip.iPaw = m.ip.iPaw)
    (hpsr : m'.ip.iPsr = m.ip.iPsr) (hpsw : m'.ip.iPsw = m.ip.iPsw) : Inv m' := by
  refine ⟨hring, ?_, ?_, ?_, ?_, ?_, ?_, ?_, ?_, ?_⟩
  · rw [hpsr, hphase, h.psr]
  · rw [hpsw, hphase, h.psw]
  · rw [hpar, hpsr, hfiles, h.readers]
  · rw [hpaw, hpsw, hfiles, h.writers]
  · rw [hphase, hfiles]
    exact h.file
  · rw [hphase]
    exact h.fits
  · rw [hphase]
    exact h.alone
  · rw [hphase, hlock']
    exact h.lock
  · intro q
    have hno : (m.phase q).moves = false := by
      by_contra hmv
      have := (h.lock q).mp (eq_true_of_ne_false hmv)
      rw [hlock] at this
      cases this
    rw [hphase]
    revert hno
    cases m.phase q <;> intro hno
    · trivial
    · trivial
    · trivial
    · trivial
    · exact absurd hno.symm Bool.false_ne_true
    · exact absurd hno.symm Bool.false_ne_true

variable [DecidableEq P]

/-- One process changes to a phase in which it does not have the lock. -/
theorem Inv.setPhase (h : Inv m) {ph : Phase} (hring : m'.ip.Ring) (hlock : m.lock ≠ some p)
    (hphase : m'.phase = Function.update m.phase p ph) (hlock' : m'.lock = m.lock)
    (hfiles : ∀ f ∈ m.files, f ∈ m'.files)
    (hpsr : m'.ip.iPsr = count (Phase.sleeps .IFWFW) m'.phase)
    (hpsw : m'.ip.iPsw = count (Phase.sleeps .IFWFR) m'.phase)
    (hreaders : m'.ip.iPar + m'.ip.iPsr = m'.files.countP File.ipr)
    (hwriters : m'.ip.iPaw + m'.ip.iPsw = m'.files.countP File.ipw)
    (hfile : ∀ f, ph.file = some f → f ∈ m'.files)
    (hfits : ∀ f call, ph.call = some (f, call) → call.Fits f)
    (halone : ∀ q f, q ≠ p → ph.file = some f → (m.phase q).file = some f →
      ph.opens = false ∧ (m.phase q).opens = false)
    (hmoves : ph.moves = false)
    (hsame : m'.ip.iPnc = m.ip.iPnc ∧ m'.ip.iPrx = m.ip.iPrx ∧ m'.ip.iPwx = m.ip.iPwx) :
    Inv m' := by
  refine ⟨hring, hpsr, hpsw, hreaders, hwriters, fun q f hq => ?_, fun q f call hq => ?_,
    fun q r f hq hqf hrf => ?_, fun q => ?_, fun q => ?_⟩
  · rw [hphase] at hq
    by_cases hqp : q = p
    · subst hqp
      rw [Function.update_self] at hq
      exact hfile f hq
    · rw [Function.update_of_ne hqp] at hq
      exact hfiles f (h.file q f hq)
  · rw [hphase] at hq
    by_cases hqp : q = p
    · subst hqp
      rw [Function.update_self] at hq
      exact hfits f call hq
    · rw [Function.update_of_ne hqp] at hq
      exact h.fits q f call hq
  · rw [hphase] at hq hqf hrf
    by_cases hqp : q = p <;> by_cases hrp : r = p
    · rw [hqp, hrp]
    · subst hqp
      rw [Function.update_self] at hq hqf
      rw [Function.update_of_ne hrp] at hrf
      exact absurd ((halone r f hrp hqf hrf).1.symm.trans hq) Bool.false_ne_true
    · subst hrp
      rw [Function.update_of_ne hqp] at hq hqf
      rw [Function.update_self] at hrf
      exact absurd ((halone q f hqp hrf hqf).2.symm.trans hq) Bool.false_ne_true
    · rw [Function.update_of_ne hqp] at hq hqf
      rw [Function.update_of_ne hrp] at hrf
      exact h.alone q r f hq hqf hrf
  · rw [hphase, hlock']
    by_cases hqp : q = p
    · subst hqp
      rw [Function.update_self, hmoves]
      exact ⟨fun hf => absurd hf Bool.false_ne_true, fun hl => absurd hl hlock⟩
    · rw [Function.update_of_ne hqp]
      exact h.lock q
  · rw [hphase]
    by_cases hqp : q = p
    · subst hqp
      rw [Function.update_self]
      revert hmoves
      cases ph <;> intro hmoves
      · trivial
      · trivial
      · trivial
      · trivial
      · exact absurd hmoves.symm Bool.false_ne_true
      · exact absurd hmoves.symm Bool.false_ne_true
    · rw [Function.update_of_ne hqp]
      have := h.within q
      revert this
      cases m.phase q with
      | reading f ioc n =>
        intro hw
        unfold Phase.Within at hw ⊢
        rw [hsame.1, hsame.2.1]
        exact hw
      | writing f c data flag n =>
        intro hw
        unfold Phase.Within at hw ⊢
        rw [hsame.1, hsame.2.2]
        exact hw
      | _ => exact id

theorem Inv.psleep (h : Inv m) (hp : m.free p) (hf : f ∈ m.files) (hfits : call.Fits f)
    (halone : ∀ q, (m.phase q).file = some f →
      (Phase.asleep f call).opens = false ∧ (m.phase q).opens = false) :
    Inv (m.psleep p f call) := by
  have hidle : ∀ who, (m.phase p).sleeps who = false := fun who => by rw [hp.1]; rfl
  have hcount : ∀ who, count (Phase.sleeps who) (Function.update m.phase p (.asleep f call)) =
      count (Phase.sleeps who) m.phase + if call.who = who then 1 else 0 := by
    intro who
    have := count_update (Phase.sleeps who) m.phase p (.asleep f call)
    rw [hidle who, if_neg Bool.false_ne_true] at this
    simpa [Phase.sleeps] using this
  have hr := h.readers
  have hw := h.writers
  have hpsr := h.psr
  have hpsw := h.psw
  have hring := h.ring
  have hset := @Inv.setPhase _ _ _ (m.psleep p f call) p _ h (.asleep f call)
  unfold System.psleep at hset ⊢
  simp only [hcount] at hset
  have hnot : m.lock ≠ some p := by rw [hp.2]; exact nofun
  cases hcw : call.who with
  | IFWFW =>
    simp only [hcw, if_true, reduceCtorEq, if_false] at hset
    exact hset ⟨hring.nonneg, hring.le, hring.prx, hring.prx_lt, hring.pwx⟩ hnot trivial trivial
      (fun _ hf => hf) (by push_cast; omega) (by push_cast; omega) (by omega) (by omega)
      (fun g hg => by cases hg; exact hf) (fun g c hg => by cases hg; exact hfits)
      (fun q g _ hg hq => by cases hg; exact halone q hq) rfl
      (by exact ⟨trivial, trivial, trivial⟩)
  | IFWFR =>
    simp only [hcw, if_true, reduceCtorEq, if_false] at hset
    exact hset ⟨hring.nonneg, hring.le, hring.prx, hring.prx_lt, hring.pwx⟩ hnot trivial trivial
      (fun _ hf => hf) (by push_cast; omega) (by push_cast; omega) (by omega) (by omega)
      (fun g hg => by cases hg; exact hf) (fun g c hg => by cases hg; exact hfits)
      (fun q g _ hg hq => by cases hg; exact halone q hq) rfl
      (by exact ⟨trivial, trivial, trivial⟩)

theorem Inv.wokenUp (h : Inv m) {sig sig' : Bool} (hp : m.phase p = .woken sig f call) :
    Inv (m.wokenUp p sig' f call) := by
  have hcount : ∀ who, count (Phase.sleeps who) (Function.update m.phase p (.locking sig' f call)) +
      (if call.who = who then 1 else 0) = count (Phase.sleeps who) m.phase := by
    intro who
    have := count_update (Phase.sleeps who) m.phase p (.locking sig' f call)
    rw [hp] at this
    simpa [Phase.sleeps] using this
  have hr := h.readers
  have hw := h.writers
  have hpsr := h.psr
  have hpsw := h.psw
  have hring := h.ring
  have hr' := hcount .IFWFW
  have hw' := hcount .IFWFR
  have hfile : (m.phase p).file = some f := by rw [hp]; rfl
  have hcall : (m.phase p).call = some (f, call) := by rw [hp]; rfl
  have hopens : (Phase.locking sig' f call).opens = (m.phase p).opens := by
    rw [hp]
    cases call <;> rfl
  have hnot : m.lock ≠ some p := by
    intro hl
    have := (h.lock p).mpr hl
    rw [hp] at this
    exact absurd this Bool.false_ne_true
  have hset := @Inv.setPhase _ _ _ (m.wokenUp p sig' f call) p _ h (.locking sig' f call)
  have halone : ∀ q g, q ≠ p → (Phase.locking sig' f call).file = some g →
      (m.phase q).file = some g →
      (Phase.locking sig' f call).opens = false ∧ (m.phase q).opens = false := by
    intro q g hqp hg hq
    cases hg
    rw [hopens]
    refine ⟨?_, ?_⟩
    · by_contra ho
      exact hqp (h.alone p q f (eq_true_of_ne_false ho) hfile hq)
    · by_contra ho
      exact hqp (h.alone q p f (eq_true_of_ne_false ho) hq hfile).symm
  unfold System.wokenUp at hset ⊢
  cases hcw : call.who with
  | IFWFW =>
    simp only [hcw, if_true, reduceCtorEq, if_false] at hset hr' hw'
    exact hset ⟨hring.nonneg, hring.le, hring.prx, hring.prx_lt, hring.pwx⟩ hnot trivial trivial
      (fun _ hf => hf) (by omega) (by omega) (by omega) (by omega)
      (fun g hg => by cases hg; exact h.file p f hfile)
      (fun g c hg => by cases hg; exact h.fits p f call hcall) halone rfl
      ⟨trivial, trivial, trivial⟩
  | IFWFR =>
    simp only [hcw, if_true, reduceCtorEq, if_false] at hset hr' hw'
    exact hset ⟨hring.nonneg, hring.le, hring.prx, hring.prx_lt, hring.pwx⟩ hnot trivial trivial
      (fun _ hf => hf) (by omega) (by omega) (by omega) (by omega)
      (fun g hg => by cases hg; exact h.file p f hfile)
      (fun g c hg => by cases hg; exact h.fits p f call hcall) halone rfl
      ⟨trivial, trivial, trivial⟩

omit [Fintype P] in
theorem runs_phase (m : System P) (p : P) : (m.runs p).phase p = .idle := Function.update_self p _ _

/-- A process that does not sleep in `psleep` goes on. -/
theorem Inv.runs (h : Inv m) (hs : ∀ who, (m.phase p).sleeps who = false)
    (hl : m.lock = none ∨ m.lock = some p) : Inv (m.runs p) ∧ (m.runs p).free p := by
  have hcount : ∀ who, count (Phase.sleeps who) (Function.update m.phase p .idle) =
      count (Phase.sleeps who) m.phase := fun who => count_update_same (hs who)
  have hmoves : ∀ q, q ≠ p → (m.phase q).moves = false := by
    intro q hqp
    by_contra hmv
    have hlq := (h.lock q).mp (eq_true_of_ne_false hmv)
    rcases hl with hl | hl
    · rw [hlq] at hl
      cases hl
    · rw [hlq, Option.some.injEq] at hl
      exact hqp hl
  have hphase : ∀ q, q ≠ p → (m.runs p).phase q = m.phase q := fun q hqp =>
    Function.update_of_ne hqp _ _
  have hself := runs_phase m p
  refine ⟨⟨h.ring, ?_, ?_, h.readers, h.writers, fun q f hq => ?_, fun q f call hq => ?_,
    fun q r f hq hqf hrf => ?_, fun q => ?_, fun q => ?_⟩, hself, rfl⟩
  · exact h.psr.trans (congrArg _ (hcount _).symm)
  · exact h.psw.trans (congrArg _ (hcount _).symm)
  · by_cases hqp : q = p
    · rw [hqp, hself] at hq
      cases hq
    · rw [hphase q hqp] at hq
      exact h.file q f hq
  · by_cases hqp : q = p
    · rw [hqp, hself] at hq
      cases hq
    · rw [hphase q hqp] at hq
      exact h.fits q f call hq
  · by_cases hqp : q = p
    · rw [hqp, hself] at hqf
      cases hqf
    by_cases hrp : r = p
    · rw [hrp, hself] at hrf
      cases hrf
    rw [hphase q hqp] at hq hqf
    rw [hphase r hrp] at hrf
    exact h.alone q r f hq hqf hrf
  · by_cases hqp : q = p
    · rw [hqp, hself]
      exact ⟨nofun, nofun⟩
    · rw [hphase q hqp, hmoves q hqp]
      exact ⟨nofun, nofun⟩
  · by_cases hqp : q = p
    · rw [hqp, hself]
      trivial
    · rw [hphase q hqp]
      exact h.within q

/-- A process goes to sleep in `fread` or `fwrite`. -/
theorem Inv.hold (h : Inv m) (hp : m.free p) {ph : Phase} (hf : m.usable f)
    (hfile : ph.file = some f) (hmoves : ph.moves = true) (hwithin : ph.Within m.ip) :
    Inv (m.hold p ph) := by
  have hidle : ∀ who, (m.phase p).sleeps who = ph.sleeps who := by
    intro who
    rw [hp.1]
    revert hmoves
    cases ph <;> intro hmoves <;> first | rfl | exact absurd hmoves Bool.false_ne_true
  have hcount : ∀ who, count (Phase.sleeps who) (Function.update m.phase p ph) =
      count (Phase.sleeps who) m.phase := fun who => count_update_same (hidle who)
  have hnone : ph.call = none ∧ ph.opens = false := by
    revert hmoves
    cases ph <;> intro hmoves <;> first | exact ⟨rfl, rfl⟩ | exact absurd hmoves Bool.false_ne_true
  have hphase : ∀ q, q ≠ p → (m.hold p ph).phase q = m.phase q := fun q hqp =>
    Function.update_of_ne hqp _ _
  have hself : (m.hold p ph).phase p = ph := Function.update_self p _ _
  refine ⟨h.ring, ?_, ?_, h.readers, h.writers, fun q g hq => ?_, fun q g call hq => ?_,
    fun q r g hq hqf hrf => ?_, fun q => ?_, fun q => ?_⟩
  · exact h.psr.trans (congrArg _ (hcount _).symm)
  · exact h.psw.trans (congrArg _ (hcount _).symm)
  · by_cases hqp : q = p
    · rw [hqp, hself, hfile] at hq
      cases hq
      exact hf.1
    · rw [hphase q hqp] at hq
      exact h.file q g hq
  · by_cases hqp : q = p
    · rw [hqp, hself, hnone.1] at hq
      cases hq
    · rw [hphase q hqp] at hq
      exact h.fits q g call hq
  · by_cases hqp : q = p
    · rw [hqp, hself, hnone.2] at hq
      cases hq
    rw [hphase q hqp] at hq hqf
    by_cases hrp : r = p
    · rw [hrp, hself, hfile] at hrf
      cases hrf
      exact absurd ((hf.2 q hqf).symm.trans hq) Bool.false_ne_true
    · rw [hphase r hrp] at hrf
      exact h.alone q r g hq hqf hrf
  · by_cases hqp : q = p
    · rw [hqp, hself]
      exact ⟨fun _ => rfl, fun _ => hmoves⟩
    · rw [hphase q hqp]
      have hno := h.lock q
      rw [hp.2] at hno
      refine ⟨fun hmv => ?_, fun hl => absurd (Option.some.inj hl) (Ne.symm hqp)⟩
      exact absurd (hno.mp hmv) nofun
  · by_cases hqp : q = p
    · rw [hqp, hself]
      exact hwithin
    · rw [hphase q hqp]
      exact h.within q

/-! ### Opening and closing -/

omit [DecidableEq P] in
theorem Inv.opened (h : Inv m) (f : File) : Inv (m.opened f) := by
  have hr := h.readers
  have hw := h.writers
  refine ⟨⟨h.ring.nonneg, h.ring.le, h.ring.prx, h.ring.prx_lt, h.ring.pwx⟩, h.psr, h.psw, ?_, ?_,
    fun q g hq => List.mem_cons_of_mem f (h.file q g hq), h.fits, h.alone, h.lock, fun q => ?_⟩
  · simp only [System.opened, List.countP_cons]
    split_ifs <;> push_cast <;> omega
  · simp only [System.opened, List.countP_cons]
    split_ifs <;> push_cast <;> omega
  · have := h.within q
    revert this
    cases hq : m.phase q <;> simp only [System.opened, hq] <;> exact id

omit [DecidableEq P] in
theorem Inv.closed (h : Inv m) (hf : f ∈ m.files) (hno : ∀ q, (m.phase q).file ≠ some f) :
    Inv (m.closed f) := by
  have hr := h.readers
  have hw := h.writers
  have hcr := List.countP_pos_iff (p := File.ipr) (l := m.files)
  have hcw := List.countP_pos_iff (p := File.ipw) (l := m.files)
  refine ⟨⟨h.ring.nonneg, h.ring.le, h.ring.prx, h.ring.prx_lt, h.ring.pwx⟩, h.psr, h.psw, ?_, ?_,
    fun q g hq => ?_, h.fits, h.alone, h.lock, fun q => ?_⟩
  · simp only [System.closed, List.countP_erase]
    by_cases hm : f.ipr = true
    · have := hcr.mpr ⟨f, hf, hm⟩
      rw [if_pos hm, if_pos ⟨hf, hm⟩]
      omega
    · rw [if_neg hm, if_neg fun hc => hm hc.2]
      omega
  · simp only [System.closed, List.countP_erase]
    by_cases hm : f.ipw = true
    · have := hcw.mpr ⟨f, hf, hm⟩
      rw [if_pos hm, if_pos ⟨hf, hm⟩]
      omega
    · rw [if_neg hm, if_neg fun hc => hm hc.2]
      omega
  · have hne : g ≠ f := by
      rintro rfl
      exact hno q hq
    exact (List.mem_erase_of_ne hne).mpr (h.file q g hq)
  · have := h.within q
    revert this
    cases hq : m.phase q <;> simp only [System.closed, hq] <;> exact id

theorem Inv.popenR (h : Inv m) (hp : m.free p) (hf : f ∈ m.files)
    (hno : ∀ q, (m.phase q).file ≠ some f) (hmode : f.ipr = true ∧ f.ipw = false) (nd : Bool) :
    Inv (m.popenR p f nd) := by
  unfold System.popenR
  split_ifs
  · exact h.psleep hp hf hmode fun q hq => absurd hq (hno q)
  · exact h.pwake _

theorem Inv.popen (h : Inv m) (hp : m.free p) (hf : f ∉ m.files) (nd : Bool) :
    Inv (m.popen p f nd) := by
  have hno : ∀ q, (m.phase q).file ≠ some f := fun q hq => hf (h.file q f hq)
  have ho := h.opened f
  have hmem : f ∈ (m.opened f).files := List.mem_cons_self
  unfold System.popen
  cases hr : f.ipr <;> cases hw : f.ipw <;> simp only
  · exact ho
  · split_ifs
    · exact h
    · exact ho.psleep hp hmem ⟨hr, hw⟩ fun q hq => absurd hq (hno q)
    · exact ho.pwake _
  · exact ho.popenR hp hmem hno ⟨hr, hw⟩ nd
  · exact (ho.pwake _).pwake _

omit [DecidableEq P] in
theorem Inv.pclose (h : Inv m) (hf : f ∈ m.files) (hno : ∀ q, (m.phase q).file ≠ some f)
    (hl : m.lock = none) (hstep : m.pclose f = some m') : Inv m' := by
  have h2 := (h.pwake .IFWFR).pwake .IFWFW
  have hfiles : ((m.pwake .IFWFR).pwake .IFWFW).files = m.files :=
    (pwake_fields _ _).2.2.1.trans (pwake_fields _ _).2.2.1
  have hlock : ((m.pwake .IFWFR).pwake .IFWFW).lock = none :=
    ((pwake_fields _ _).2.2.2.1.trans (pwake_fields _ _).2.2.2.1).trans hl
  have hc := h2.closed (hfiles ▸ hf) fun q => by
    rw [(h.pwake _).pwake_phase, h.pwake_phase, Phase.wake_file, Phase.wake_file]
    exact hno q
  unfold System.pclose at hstep
  simp only at hstep
  split_ifs at hstep with hpanic hlast
  · cases hstep
    refine hc.withIp hlock ⟨le_rfl, ring_empty.1, le_rfl, ring_empty.2, rfl⟩ rfl rfl rfl
      hlast.2.1.symm
      hlast.1.1.symm hlast.2.2.symm hlast.1.2.symm
  · cases hstep
    exact hc

/-! ### Reading and writing -/

theorem Inv.readLoop (h : Inv m) (hp : m.free p) (hf : m.usable f) (ioc : ℤ) (err : Bool) :
    Inv (m.readLoop p f ioc err) := by
  unfold System.readLoop
  have hlt := h.ring.prx_lt
  by_cases hloop : err = false ∧ ioc > 0 ∧ m.ip.iPnc > 0
  · rw [if_pos hloop]
    refine h.hold hp hf rfl rfl ?_
    unfold Phase.Within
    obtain ⟨-, hioc, hpnc⟩ := hloop
    split_ifs <;> omega
  · rw [if_neg hloop]
    split_ifs
    · exact h.pwake _
    · exact h

theorem Inv.pread (h : Inv m) (hp : m.free p) (hf : m.usable f) (hr : f.ipr = true) (ioc : ℤ)
    (flag : Flag) : Inv (m.pread p f ioc flag) := by
  unfold System.pread
  split_ifs
  · exact h
  · exact h
  · exact h
  · exact h.psleep hp hf.1 hr fun q hq => ⟨rfl, hf.2 q hq⟩
  · exact h.readLoop hp hf ioc false

omit [DecidableEq P] in
theorem Inv.taken (h : Inv m) (hl : m.lock = none) {k : ℕ} (hk : k ≤ m.ip.iPnc)
    (hk' : k ≤ PIPE_MAX - m.ip.iPrx) : Inv (m.taken k) := by
  obtain ⟨h1, h2, h3, h4, h5⟩ := ring_iff.mp h.ring
  refine h.withIp hl (ring_iff.mpr ?_) rfl rfl rfl rfl rfl rfl rfl
  unfold PIPE_MAX at hk'
  simp only [System.taken, PIPE_MAX]
  split_ifs <;> omega

theorem Inv.writeLoop (h : Inv m) (hp : m.free p) (hf : m.usable f) (hw : f.ipw = true) (c : ℕ)
    (data : List Byte) (flag : Flag) (err : Bool) : Inv (m.writeLoop p f c data flag err) := by
  obtain ⟨h1, h2, h3, h4, h5⟩ := ring_iff.mp h.ring
  unfold System.writeLoop
  by_cases hloop : err = false ∧ (data.length : ℤ) > 0
  swap
  · rw [if_neg hloop]
    exact h
  rw [if_pos hloop]
  by_cases hnr : m.ip.noReaders
  · rw [if_pos hnr]
    exact h
  rw [if_neg hnr]
  simp only
  split_ifs with _ _ hroom
  all_goals first
    | exact h
    | exact h.psleep hp hf.1 hw fun q hq => ⟨rfl, hf.2 q hq⟩
    | skip
  all_goals
    refine h.hold hp hf rfl rfl ?_
    unfold Phase.Within
    unfold PIPE_MAX at *
    exact ⟨by omega, by omega, by omega, by omega, hw⟩

section

omit [DecidableEq P]

theorem Inv.put (h : Inv m) (hl : m.lock = none) (c : ℕ) (data : List Byte) {k : ℕ}
    (hk : k ≤ PIPE_MAX - m.ip.iPnc) (hk' : k ≤ PIPE_MAX - m.ip.iPwx) : Inv (m.put c data k) := by
  obtain ⟨h1, h2, h3, h4, h5⟩ := ring_iff.mp h.ring
  refine h.withIp hl (ring_iff.mpr ?_) rfl rfl rfl rfl rfl rfl rfl
  unfold PIPE_MAX at hk hk'
  simp only [System.put, PIPE_MAX]
  split_ifs <;> omega

theorem Inv.stored (h : Inv m) (hl : m.lock = none) (c : ℕ) (data : List Byte) {k : ℕ}
    (hk : k ≤ PIPE_MAX - m.ip.iPnc) (hk' : k ≤ PIPE_MAX - m.ip.iPwx) :
    Inv (m.stored c data k) ∧ (∀ p, m.free p → (m.stored c data k).free p) ∧
      ∀ f, m.usable f → (m.stored c data k).usable f := by
  have hput := h.put hl c data hk hk'
  unfold System.stored
  simp only
  split_ifs
  · exact ⟨hput.pwake _, fun p hp => hput.pwake_free hp _, fun f hf => hput.pwake_usable hf _⟩
  · exact ⟨hput, fun p hp => hp, fun f hf => hf⟩

theorem Inv.resize (h : Inv m) (hl : m.lock = none) {size : ℤ} (h0 : 0 ≤ size)
    (hsize : size ≤ PIPE_MAX) : Inv { m with ip := m.ip.resize size } := by
  obtain ⟨h1, h2, h3, h4, h5⟩ := ring_iff.mp h.ring
  refine h.withIp hl (ring_iff.mpr ?_) rfl rfl rfl rfl rfl rfl rfl
  unfold PIPE_MAX at hsize
  simp only [Inode.resize, PIPE_MAX]
  split_ifs <;> omega

/-- `uchsize` changes nothing, or the size. -/
theorem uchsize_cases (m : System P) (f : File) (size : ℤ) :
    m.uchsize f size = m ∨ 0 ≤ size ∧ f.ipw = true ∧ size ≤ PIPE_MAX ∧ ¬m.ip.noReaders ∧
      m.uchsize f size =
        let m := { m with ip := m.ip.resize size }
        let m := if size > 0 then m.pwake .IFWFW else m
        if size < PIPE_MAX then m.pwake .IFWFR else m := by
  unfold System.uchsize
  by_cases h0 : size < 0
  · exact Or.inl (if_pos h0)
  rw [if_neg h0]
  by_cases hw : f.ipw = false
  · exact Or.inl (if_pos hw)
  rw [if_neg hw]
  by_cases hbig : size > PIPE_MAX
  · exact Or.inl (if_pos hbig)
  rw [if_neg hbig]
  by_cases hnr : m.ip.noReaders
  · exact Or.inl (if_pos hnr)
  rw [if_neg hnr]
  exact Or.inr ⟨not_lt.mp h0, eq_true_of_ne_false hw, not_lt.mp hbig, hnr, rfl⟩

theorem Inv.uchsize (h : Inv m) (hl : m.lock = none) (f : File) (size : ℤ) :
    Inv (m.uchsize f size) := by
  rcases uchsize_cases m f size with heq | ⟨h0, -, hmax, -, heq⟩
  · rw [heq]
    exact h
  · rw [heq]
    have hset := h.resize hl h0 hmax
    simp only
    split_ifs
    · exact (hset.pwake _).pwake _
    · exact hset.pwake _
    · exact hset.pwake _
    · exact hset

/-! ### Steps -/

theorem Inv.called (h : Inv m) (data : List Byte) : Inv (m.called data) :=
  ⟨h.ring, h.psr, h.psw, h.readers, h.writers, h.file, h.fits, h.alone, h.lock, h.within⟩

end

theorem Inv.goOn (h : Inv m) (hp : m.free p) (hf : f ∈ m.files) (hfits : call.Fits f) (sig : Bool)
    (halone : ∀ q, (m.phase q).file = some f →
      (Phase.asleep f call).opens = false ∧ (m.phase q).opens = false) :
    Inv (m.goOn p sig f call) := by
  cases call with
  | popenR =>
    have hno : ∀ q, (m.phase q).file ≠ some f := fun q hq => absurd (halone q hq).1 nofun
    simp only [System.goOn]
    split_ifs
    · exact h.closed hf hno
    · exact h.pwake _
    · exact h.popenR hp hf hno hfits false
  | popenW =>
    have hno : ∀ q, (m.phase q).file ≠ some f := fun q hq => absurd (halone q hq).1 nofun
    simp only [System.goOn]
    split_ifs
    · exact h.closed hf hno
    · exact h.pwake _
  | pread ioc flag =>
    simp only [System.goOn]
    split_ifs
    · exact h
    · exact h.pread hp ⟨hf, fun q hq => (halone q hq).2⟩ hfits ioc flag
  | pwrite c data flag =>
    simp only [System.goOn]
    split_ifs
    · exact h
    · exact h.writeLoop hp ⟨hf, fun q hq => (halone q hq).2⟩ hfits c data flag false

/-- The processes that use the file of a process that goes on after a sleep. -/
theorem Inv.alone_locking (h : Inv m) {sig : Bool} (hp : m.phase p = .locking sig f call) :
    ∀ q, ((m.runs p).phase q).file = some f →
      (Phase.asleep f call).opens = false ∧ ((m.runs p).phase q).opens = false := by
  intro q hq
  by_cases hqp : q = p
  · rw [hqp, runs_phase] at hq
    cases hq
  simp only [System.runs, Function.update_of_ne hqp] at hq ⊢
  have hfile : (m.phase p).file = some f := by rw [hp]; rfl
  have hopens : (Phase.asleep f call).opens = (m.phase p).opens := by
    rw [hp]
    cases call <;> rfl
  rw [hopens]
  refine ⟨?_, ?_⟩
  · by_contra ho
    exact hqp (h.alone p q f (eq_true_of_ne_false ho) hfile hq)
  · by_contra ho
    exact hqp (h.alone q p f (eq_true_of_ne_false ho) hq hfile).symm

/-- The file of a process in `fread` or `fwrite` stays usable. -/
theorem Inv.runs_usable (h : Inv m) (hf : (m.phase p).file = some f) :
    (m.runs p).usable f := by
  refine ⟨h.file p f hf, fun q hq => ?_⟩
  by_cases hqp : q = p
  · rw [hqp, runs_phase] at hq
    cases hq
  simp only [System.runs, Function.update_of_ne hqp] at hq ⊢
  by_contra ho
  exact hqp (h.alone q p f (eq_true_of_ne_false ho) hq hf).symm

/-- What a process in `fread` or `fwrite` moves, when that comes to its end. -/
theorem Inv.transfer (h : Inv m) {ph : Phase} (hp : m.phase p = ph) (hmv : ph.moves = true) :
    Inv (m.runs p) ∧ (m.runs p).free p ∧ (m.runs p).ip = m.ip ∧ ph.Within m.ip := by
  subst hp
  obtain ⟨hr, hfree⟩ := h.runs (p := p) (fun who => by
    revert hmv
    cases m.phase p <;> intro hmv <;> first | rfl | exact absurd hmv Bool.false_ne_true)
    (Or.inr ((h.lock p).mp hmv))
  exact ⟨hr, hfree, rfl, h.within p⟩

/-- `fread` delivers no more than it is asked for. -/
theorem readable_le (ip : Inode) {n : ℤ} (hn : 0 ≤ n) : ip.readable n ≤ n := by
  unfold Inode.readable
  split_ifs <;> omega

/-- A signal wakes a process. -/
theorem Inv.signal (h : Inv m) (hp : m.phase p = .asleep f call) :
    Inv { m with phase := Function.update m.phase p (.woken true f call) } := by
  have hcount : ∀ who, count (Phase.sleeps who)
      (Function.update m.phase p (.woken true f call)) = count (Phase.sleeps who) m.phase :=
    fun who => count_update_same (by rw [hp]; rfl)
  have hfile : (m.phase p).file = some f := by rw [hp]; rfl
  have hopens : (Phase.woken true f call).opens = (m.phase p).opens := by
    rw [hp]
    cases call <;> rfl
  refine @Inv.setPhase _ _ _ _ p _ h (.woken true f call) h.ring ?_ rfl rfl (fun _ hf => hf)
    (h.psr.trans (congrArg _ (hcount _).symm)) (h.psw.trans (congrArg _ (hcount _).symm)) h.readers
    h.writers (fun g hg => by cases hg; exact h.file p f hfile)
    (fun g c hg => by cases hg; exact h.fits p f call (by rw [hp]; rfl)) (fun q g hqp hg hq => ?_)
    rfl ⟨rfl, rfl, rfl⟩
  · intro hl
    have := (h.lock p).mpr hl
    rw [hp] at this
    exact absurd this Bool.false_ne_true
  · cases hg
    rw [hopens]
    refine ⟨?_, ?_⟩
    · by_contra ho
      exact hqp (h.alone p q f (eq_true_of_ne_false ho) hfile hq)
    · by_contra ho
      exact hqp (h.alone q p f (eq_true_of_ne_false ho) hq hfile).symm

/-- What the steps of the processes do. -/
inductive Step (m m' : System P) : Event P → Prop
  | popen (p : P) (f : File) (nd : Bool) : m.free p → f ∉ m.files → m' = m.popen p f nd →
      Step m m' (.popen p f nd)
  | pclose (p : P) (f : File) : m.free p → f ∈ m.files → (∀ q, (m.phase q).file ≠ some f) →
      m.pclose f = some m' → Step m m' (.pclose p f)
  | pread (p : P) (f : File) (ioc : ℕ) (flag : Flag) : m.free p → m.usable f → f.ipr = true →
      m' = m.iread p f ioc flag → Step m m' (.pread p f ioc flag)
  | pwrite (p : P) (f : File) (data : List Byte) (flag : Flag) : m.free p → m.usable f →
      f.ipw = true →
      m' = (m.called data).writeLoop p f m.calls data flag false → Step m m' (.pwrite p f data flag)
  | uchsize (p : P) (f : File) (size : ℤ) : m.free p → m.usable f → m' = m.uchsize f size →
      Step m m' (.uchsize p f size)
  | signal (p : P) (f : File) (call : Call) : m.phase p = .asleep f call →
      m' = { m with phase := Function.update m.phase p (.woken true f call) } →
      Step m m' (.signal p)
  | run (p : P) (sig sig' : Bool) (f : File) (call : Call) : m.phase p = .woken sig' f call →
      m' = m.wokenUp p (sig' || sig) f call → Step m m' (.run p sig)
  | lock (p : P) (sig : Bool) (f : File) (call : Call) : m.phase p = .locking sig f call →
      m.lock = none → m' = (m.runs p).goOn p sig f call → Step m m' (.lock p)
  | fread (p : P) (k : ℕ) (err : Bool) (f : File) (ioc n : ℤ) : m.phase p = .reading f ioc n →
      k ≤ m.ip.readable n → (err = true → k < m.ip.readable n) →
      m' = ((m.runs p).taken k).readLoop p f (ioc - k) err → Step m m' (.transfer p k err)
  | fwrite (p : P) (k : ℕ) (err : Bool) (f : File) (c : ℕ) (data : List Byte) (flag : Flag)
    (n : ℤ) :
      m.phase p = .writing f c data flag n → k ≤ n → (err = true → k < n) →
      m' = ((m.runs p).stored c data k).writeLoop p f c (data.drop k) flag err →
      Step m m' (.transfer p k err)

/-- The cases of a step. -/
theorem step_cases {a : Event P} (h : m.step a = some m') : Step m m' a := by
  cases a with
  | popen p f nd =>
    simp only [System.step, Option.ite_none_right_eq_some, Option.some.injEq] at h
    exact .popen p f nd h.1.1 h.1.2 h.2.symm
  | pclose p f =>
    simp only [System.step, Option.ite_none_right_eq_some] at h
    exact .pclose p f h.1.1 h.1.2.1 h.1.2.2 h.2
  | pread p f ioc flag =>
    simp only [System.step, Option.ite_none_right_eq_some, Option.some.injEq] at h
    exact .pread p f ioc flag h.1.1 h.1.2.1 h.1.2.2 h.2.symm
  | pwrite p f data flag =>
    simp only [System.step, Option.ite_none_right_eq_some, Option.some.injEq] at h
    exact .pwrite p f data flag h.1.1 h.1.2.1 h.1.2.2 h.2.symm
  | uchsize p f size =>
    simp only [System.step, Option.ite_none_right_eq_some, Option.some.injEq] at h
    exact .uchsize p f size h.1.1 h.1.2 h.2.symm
  | signal p =>
    cases hp : m.phase p with
    | asleep f call =>
      simp only [System.step, hp, Option.some.injEq] at h
      exact .signal p f call hp h.symm
    | _ => simp [System.step, hp] at h
  | run p sig =>
    cases hp : m.phase p with
    | woken sig' f call =>
      simp only [System.step, hp, Option.some.injEq] at h
      exact .run p sig sig' f call hp h.symm
    | _ => simp [System.step, hp] at h
  | lock p =>
    cases hp : m.phase p with
    | locking sig f call =>
      simp only [System.step, hp, Option.ite_none_right_eq_some, Option.some.injEq] at h
      exact .lock p sig f call hp h.1 h.2.symm
    | _ => simp [System.step, hp] at h
  | transfer p k err =>
    cases hp : m.phase p with
    | reading f ioc n =>
      simp only [System.step, hp, Option.ite_none_right_eq_some, Option.some.injEq] at h
      exact .fread p k err f ioc n hp h.1.1 h.1.2 h.2.symm
    | writing f c data flag n =>
      simp only [System.step, hp, Option.ite_none_right_eq_some, Option.some.injEq] at h
      exact .fwrite p k err f c data flag n hp h.1.1 h.1.2 h.2.symm
    | _ => simp [System.step, hp] at h

/-- **A step** keeps the invariant. -/
theorem Inv.step (h : Inv m) {a : Event P} (hstep : m.step a = some m') : Inv m' := by
  cases step_cases hstep with
  | popen p f nd hp hf heq => exact heq ▸ h.popen hp hf nd
  | pclose p f hp hf hno hc => exact h.pclose hf hno hp.2 hc
  | pread p f ioc flag hp hf hr heq =>
    rw [heq, System.iread]
    split_ifs
    · exact h
    · exact h.pread hp hf hr ioc flag
  | pwrite p f data flag hp hf hw heq =>
    exact heq ▸ (h.called data).writeLoop hp hf hw m.calls data flag false
  | uchsize p f size hp hf heq => exact heq ▸ h.uchsize hp.2 f size
  | signal p f call hp heq => exact heq ▸ h.signal hp
  | run p sig sig' f call hp heq => exact heq ▸ h.wokenUp hp
  | lock p sig f call hp hl heq =>
    obtain ⟨hr, hfree⟩ := h.runs (p := p) (fun who => by rw [hp]; rfl) (Or.inl hl)
    exact heq ▸ hr.goOn hfree (h.file p f (by rw [hp]; rfl)) (h.fits p f call (by rw [hp]; rfl)) sig
      (h.alone_locking hp)
  | fread p k err f ioc n hp hk herr heq =>
    have hmv : (m.phase p).moves = true := by rw [hp]; rfl
    have hw := h.within p
    rw [hp] at hw
    obtain ⟨hn, -, hpnc, hprx⟩ := hw
    have hle := readable_le m.ip hn.le
    obtain ⟨hr, hfree⟩ := h.runs (p := p) (fun who => by rw [hp]; rfl)
      (Or.inr ((h.lock p).mp hmv))
    have hu := h.runs_usable (p := p) (f := f) (by rw [hp]; rfl)
    have ht := hr.taken (k := k) hfree.2 (hk.trans (hle.trans hpnc)) (hk.trans (hle.trans hprx))
    exact heq ▸ ht.readLoop hfree hu _ err
  | fwrite p k err f c data flag n hp hk herr heq =>
    have hmv : (m.phase p).moves = true := by rw [hp]; rfl
    have hw := h.within p
    rw [hp] at hw
    obtain ⟨hn, -, hpnc, hpwx, hmode⟩ := hw
    obtain ⟨hr, hfree⟩ := h.runs (p := p) (fun who => by rw [hp]; rfl)
      (Or.inr ((h.lock p).mp hmv))
    have hu := h.runs_usable (p := p) (f := f) (by rw [hp]; rfl)
    obtain ⟨hs, hsfree, hsuse⟩ :=
      hr.stored hfree.2 c data (k := k) (hk.trans hpnc) (hk.trans hpwx)
    exact heq ▸ hs.writeLoop (hsfree p hfree) (hsuse f hu) hmode c _ flag err

/-- A pipe that nobody has opened, and that is empty. -/
structure Fresh (m : System P) : Prop where
  ip : m.ip.iPnc = 0 ∧ m.ip.iPrx = 0 ∧ m.ip.iPwx = 0 ∧ m.ip.iPar = 0 ∧ m.ip.iPaw = 0 ∧
    m.ip.iPsr = 0 ∧ m.ip.iPsw = 0
  size : 0 ≤ m.ip.iSize
  files : m.files = []
  phase : ∀ p, m.phase p = .idle
  lock : m.lock = none
  streams : m.accepted = [] ∧ m.delivered = [] ∧ m.stream = [] ∧ m.calls = 0 ∧ m.lost = 0

omit [DecidableEq P] in
theorem Fresh.inv (h : Fresh m) : Inv m := by
  obtain ⟨h1, h2, h3, h4, h5, h6, h7⟩ := h.ip
  have hcount : ∀ who, count (Phase.sleeps who) m.phase = 0 := fun who =>
    count_eq_zero fun p => by rw [h.phase p]; rfl
  refine ⟨ring_iff.mpr (by rw [h1, h2, h3]; decide), ?_, ?_, ?_, ?_, ?_, ?_, ?_, ?_, ?_⟩
  · rw [h6, hcount]
    rfl
  · rw [h7, hcount]
    rfl
  · rw [h4, h6, h.files]
    rfl
  · rw [h5, h7, h.files]
    rfl
  · intro p f hf
    rw [h.phase p] at hf
    cases hf
  · intro p f call hf
    rw [h.phase p] at hf
    cases hf
  · intro p q f ho
    rw [h.phase p] at ho
    cases ho
  · intro p
    rw [h.phase p, h.lock]
    exact ⟨nofun, nofun⟩
  · intro p
    rw [h.phase p]
    trivial

end CohKernel.Pipe
