import CohKernel.Sig.Defs

namespace CohKernel.Sig

open CohKernel.Lib

/-!
# Signal masks

* `Good.step` — the invariant is kept, unless a handler that is entered from `sigsuspend` blocks a
  signal that was not blocked before the call;
* `reachable_masked` — masks, dispositions and handlers in a run without such a step;
* `suspend_unblocks` — a handler that is entered with a signal of its mask unblocked.
-/

variable {catchSegv traced built : Bool} {s s' : State} {own mask : Sigset} {ptvals : List ℕ}

/-! ### The invariant -/

/-- The set has neither `SIGKILL` nor `SIGSTOP`. -/
def Free (mask : Sigset) : Prop := ∀ n, unblockable n = true → mask n = false

/-- A signal with this handler is ignored. -/
def ignores (n handler : ℕ) : Bool :=
  decide (handler = SIG_IGN) || (decide (handler = SIG_DFL) && defaultIgnored n)

/-- The signals that the handlers have blocked are blocked, by a mask and by the ones that come back
    when the handlers return. -/
def Covers : Sigset → List Frame → Prop
  | _, [] => True
  | mask, f :: fs => (∀ n, f.blocked n = true → mask n = true) ∧ f.sfSignalMask = f.before ∧
      Free f.before ∧ Covers f.before fs

/-- The invariant, for the mask that the program has set. -/
structure Good (s : State) (own : Sigset) : Prop where
  mask : Free s.pSignalMask
  free : Free own
  disp : ∀ n, unblockable n = true → (s.uSigact n).saHandler = SIG_DFL
  ignored : ∀ n, s.pIgnoredSignals n = ignores n (s.uSigact n).saHandler
  reset : ∀ n, (s.uSigact n).resethand = true → ∀ m, (s.uSigact n).saMask m = false
  frames : Covers own s.frames

/-- The mask that the program has set, which `sigsuspend` replaces for a time. -/
def State.base (s : State) : Sigset :=
  match s.pc with
  | .suspended mask => mask
  | _ => s.pSignalMask

/-! ### The library -/

theorem free_currSignalMask (s : State) (mask : Sigset) :
    Free (s.currSignalMask mask).pSignalMask := by
  intro n hn
  show (mask n && !unblockable n) = false
  rw [hn, Bool.not_true, Bool.and_false]

/-- A set that has neither `SIGKILL` nor `SIGSTOP` is stored as it is. -/
theorem currSignalMask_of_free (hf : Free mask) (s : State) :
    (s.currSignalMask mask).pSignalMask = mask := by
  funext n
  show (mask n && !unblockable n) = mask n
  cases hn : unblockable n with
  | false => rw [Bool.not_false, Bool.and_true]
  | true => rw [hf n hn, Bool.false_and]

theorem storedAction_saHandler (signal : ℕ) (act : Sigaction) :
    (storedAction signal act).saHandler = act.saHandler := by
  unfold storedAction
  simp only
  split <;> split <;> rfl

theorem storedAction_resethand {signal : ℕ} {act : Sigaction}
    (hreset : act.resethand = true → ∀ m, act.saMask m = false)
    (h : (storedAction signal act).resethand = true) (m : ℕ) :
    (storedAction signal act).saMask m = false := by
  have hact : act.resethand = true := by
    unfold storedAction at h
    simp only at h
    split at h <;> split at h <;> first | exact h | cases h
  unfold storedAction
  simp only
  split <;> split <;> first | rfl | exact hreset hact m

/-- **`curr_signal_action`** -/
theorem Good.currSignalAction (h : Good s own) {signal : ℕ} {act : Sigaction}
    (hdisp : unblockable signal = true → act.saHandler = SIG_DFL)
    (hreset : act.resethand = true → ∀ m, act.saMask m = false) :
    Good (s.currSignalAction signal act) own := by
  refine ⟨h.mask, h.free, fun n hn => ?_, fun n => ?_, fun n hn m => ?_, h.frames⟩
  · by_cases hns : n = signal
    · subst hns
      simp only [State.currSignalAction, Function.update_self, storedAction_saHandler]
      exact hdisp hn
    · simp only [State.currSignalAction, Function.update_of_ne hns]
      exact h.disp n hn
  · by_cases hns : n = signal
    · subst hns
      simp only [State.currSignalAction, Function.update_self, storedAction_saHandler]
      unfold ignores
      by_cases hdfl : act.saHandler = SIG_DFL
      · simp [hdfl, Bool.or_comm]
      · simp [hdfl]
    · simp only [State.currSignalAction, Function.update_of_ne hns]
      exact h.ignored n
  · by_cases hns : n = signal
    · subst hns
      simp only [State.currSignalAction, Function.update_self] at hn ⊢
      exact storedAction_resethand hreset hn m
    · simp only [State.currSignalAction, Function.update_of_ne hns] at hn ⊢
      exact h.reset n hn m

/-- The pending signals have no part in the invariant. -/
theorem Good.pending (h : Good s own) (pending : Sigset) :
    Good { s with pPendingSignals := pending } own :=
  ⟨h.mask, h.free, h.disp, h.ignored, h.reset, h.frames⟩

theorem Good.pc (h : Good s own) (pc : Pc) : Good { s with pc := pc } own :=
  ⟨h.mask, h.free, h.disp, h.ignored, h.reset, h.frames⟩

/-- The mask is changed, and what the program has set is not. -/
theorem Good.currSignalMask (h : Good s own) (mask : Sigset) :
    Good (s.currSignalMask mask) own :=
  ⟨free_currSignalMask s mask, h.free, h.disp, h.ignored, h.reset, h.frames⟩

/-- The mask that the program has set is in force again. -/
theorem Good.restore (h : Good s own) (hc : Covers s.pSignalMask s.frames) :
    Good s s.pSignalMask :=
  ⟨h.mask, h.mask, h.disp, h.ignored, h.reset, hc⟩

/-- **The program changes the mask.** -/
theorem Good.setMask (h : Good s own) (mask : Sigset) :
    Good (s.setMask mask) (s.setMask mask).pSignalMask := by
  have hmask := h.currSignalMask mask
  unfold State.setMask
  have hframes := h.frames
  have hs : (s.currSignalMask mask).frames = s.frames := rfl
  cases hf : s.frames with
  | nil =>
    simp only [hs, hf]
    refine hmask.restore ?_
    rw [hs, hf]
    trivial
  | cons f fs =>
    rw [hf] at hframes
    simp only [hs, hf]
    refine ⟨hmask.mask, hmask.mask, hmask.disp, hmask.ignored, hmask.reset, fun n hn => ?_,
      hframes.2.1, hframes.2.2.1, hframes.2.2.2⟩
    exact (Bool.and_eq_true_iff.mp hn).2

/-! ### System calls -/

theorem validSignal_unblockable {n : ℕ} (h : validSignal n = true) : unblockable n ≠ true := by
  unfold validSignal at h
  rw [decide_eq_true_eq] at h
  intro hn
  rcases of_decide_eq_true hn with hn | hn
  · exact h.2.2.1 hn
  · exact h.2.2.2 hn

/-- **`sigaction`** -/
theorem Good.usigaction (h : Good s own) (sig : ℕ) (act : Option (ℕ × Sigset)) (stored : Bool) :
    Good (s.usigaction sig act stored) own := by
  unfold State.usigaction
  split
  · rename_i hv
    have hblock := validSignal_unblockable hv
    cases act with
    | none => exact h
    | some act =>
      have hnew : Good (s.currSignalAction sig ⟨act.1, Function.update act.2 sig true, false⟩)
          own := h.currSignalAction (fun hc => absurd hc hblock) fun hc => by cases hc
      simp only
      split
      · exact hnew
      · exact hnew.currSignalAction (fun hc => absurd hc hblock) (h.reset sig)
  · exact h

/-- **`signal`, `sighold`, `sigrelse`, `sigignore`, `sigset` and `sigpause`** -/
theorem Good.usigsys (h : Good s s.pSignalMask) (catchSegv : Bool) (sigtype : Sigtype)
    (signal func : ℕ) : Good (s.usigsys catchSegv sigtype signal func)
      (s.usigsys catchSegv sigtype signal func).pSignalMask := by
  unfold State.usigsys
  split
  · rename_i hv
    have hblock := validSignal_unblockable hv
    cases sigtype with
    | sighold => exact h.setMask _
    | sigrelse => exact h.setMask _
    | sigpause => exact h.setMask _
    | sigignore =>
      have haction : Good (s.currSignalAction signal ⟨SIG_IGN, fun _ => false, false⟩)
          s.pSignalMask := h.currSignalAction (fun hc => absurd hc hblock) fun hc => by cases hc
      exact haction.setMask _
    | signal =>
      simp only
      split
      · exact h
      · have haction : Good (s.currSignalAction signal ⟨func, fun _ => false, true⟩)
            s.pSignalMask := h.currSignalAction (fun hc => absurd hc hblock) fun _ _ => rfl
        exact haction.pending _
    | sigset =>
      simp only
      split
      · exact h.setMask _
      · have haction : Good (s.currSignalAction signal
            ⟨func, Function.update (fun _ => false) signal true, false⟩) s.pSignalMask :=
          h.currSignalAction (fun hc => absurd hc hblock) fun hc => by cases hc
        exact haction.setMask _
  · exact h

/-- **`sigprocmask`** -/
theorem Good.usigprocmask (h : Good s s.pSignalMask) (how : How) (set : Sigset) (stored : Bool) :
    Good (s.usigprocmask how set stored) (s.usigprocmask how set stored).pSignalMask := by
  unfold State.usigprocmask
  simp only
  split
  · exact h.setMask _
  · rw [currSignalMask_of_free h.mask]
    exact (h.currSignalMask _).currSignalMask _

/-- **The signals of `pexece`** -/
theorem Good.execSignals (h : Good s own) : Good s.execSignals own := by
  unfold State.execSignals
  induction List.range' 1 SIGNAL_MAX generalizing s with
  | nil => exact h
  | cons n ns ih =>
    rw [List.foldl_cons]
    refine ih ?_
    split
    · exact h.currSignalAction (fun _ => rfl) fun hc => by cases hc
    · exact h

/-! ### Delivery -/

theorem gotSignal_same {signum : ℕ} {c : Choice}
    (hs : State.gotSignal traced ptvals signum s = some (s', c)) :
    ∃ pending, s' = { s with pPendingSignals := pending } := by
  induction ptvals generalizing signum s with
  | nil =>
    unfold State.gotSignal at hs
    simp only at hs
    split at hs
    · cases hs
      exact ⟨_, rfl⟩
    · split at hs
      · cases hs
      · cases hs
        exact ⟨_, rfl⟩
  | cons ptval ptvals ih =>
    unfold State.gotSignal at hs
    simp only at hs
    split at hs
    · cases hs
      exact ⟨_, rfl⟩
    · split at hs
      · split at hs
        · -- The signals that were pending have been dropped, and the loop starts again.
          split at hs
          · cases hs
            exact ⟨_, rfl⟩
          · obtain ⟨pending, rfl⟩ := ih hs
            exact ⟨pending, rfl⟩
        · split at hs
          · obtain ⟨pending, rfl⟩ := ih hs
            exact ⟨pending, rfl⟩
          · cases hs
            exact ⟨_, rfl⟩
      · cases hs
        exact ⟨_, rfl⟩

/-- Choosing a signal changes the pending ones only. -/
theorem choose_same {c : Choice} (hs : s.choose traced ptvals = some (s', c)) :
    ∃ pending, s' = { s with pPendingSignals := pending } := by
  unfold State.choose at hs
  split at hs
  · cases hs
    exact ⟨_, rfl⟩
  · obtain ⟨pending, rfl⟩ := gotSignal_same hs
    exact ⟨pending, rfl⟩

/-- The frame that is built for a signal. -/
def State.frameFor (s : State) (signum : ℕ) (oldmask : Option Sigset) (before : Sigset) : Frame :=
  ⟨oldmask.getD s.pSignalMask, before, fun n => (s.uSigact signum).saMask n && !unblockable n⟩

/-- The state with the frame of a handler. -/
def State.pushFrame (s : State) (f : Frame) (built : Bool) : State :=
  if built then { s with frames := f :: s.frames } else s

theorem deliver_eq (s : State) (signum : ℕ) (oldmask : Option Sigset) (before : Sigset)
    (built : Bool) : s.deliver signum oldmask before built =
      if (s.uSigact signum).resethand then
        (s.pushFrame (s.frameFor signum oldmask before) built).currSignalAction signum
          { s.uSigact signum with saHandler := SIG_DFL }
      else (s.pushFrame (s.frameFor signum oldmask before) built).currSignalMask
        fun n => s.pSignalMask n || (s.uSigact signum).saMask n := by
  cases built <;> rfl

/-- What a program has when a handler is entered: the signals of its mask are blocked, by a mask
    that has all of the mask before. -/
structure Entered (s s' : State) (f : Frame) (built : Bool) : Prop where
  free : Free s'.pSignalMask
  blocked : ∀ n, f.blocked n = true → s'.pSignalMask n = true
  more : ∀ n, s.pSignalMask n = true → s'.pSignalMask n = true
  frames : s'.frames = if built then f :: s.frames else s.frames
  pc : s'.pc = s.pc

/-- **A handler is entered.** -/
theorem Good.entered (h : Good s own) (signum : ℕ) (oldmask : Option Sigset) (before : Sigset)
    (built : Bool) : Entered s (s.deliver signum oldmask before built)
      (s.frameFor signum oldmask before) built := by
  have hpush : ∀ f, (s.pushFrame f built).frames = if built then f :: s.frames else s.frames := by
    intro f
    cases built <;> rfl
  have hmask : ∀ f, (s.pushFrame f built).pSignalMask = s.pSignalMask := by
    intro f
    cases built <;> rfl
  have hpc : ∀ f, (s.pushFrame f built).pc = s.pc := by
    intro f
    cases built <;> rfl
  rw [deliver_eq]
  cases hreset : (s.uSigact signum).resethand with
  | true =>
    -- The mask of a handler that is reset is empty.
    rw [if_pos rfl]
    refine ⟨?_, fun n hn => ?_, fun n hn => ?_, hpush _, hpc _⟩
    · show Free (s.pushFrame _ built).pSignalMask
      rw [hmask]
      exact h.mask
    · change ((s.uSigact signum).saMask n && !unblockable n) = true at hn
      rw [h.reset signum hreset n] at hn
      cases hn
    · show (s.pushFrame _ built).pSignalMask n = true
      rw [hmask]
      exact hn
  | false =>
    rw [if_neg Bool.false_ne_true]
    refine ⟨free_currSignalMask _ _, fun n hn => ?_, fun n hn => ?_, hpush _, hpc _⟩
    · change ((s.uSigact signum).saMask n && !unblockable n) = true at hn
      rw [Bool.and_eq_true] at hn
      show ((s.pSignalMask n || (s.uSigact signum).saMask n) && !unblockable n) = true
      rw [hn.1, hn.2, Bool.or_true]
      rfl
    · have hblock : unblockable n = false := by
        rw [← Bool.not_eq_true]
        intro hc
        cases hn.symm.trans (h.mask n hc)
      show ((s.pSignalMask n || (s.uSigact signum).saMask n) && !unblockable n) = true
      rw [hn, hblock]
      rfl

/-- A frame does not matter to the rest of the invariant. -/
theorem Good.push (h : Good s own) {mask : Sigset} (hfree : Free mask) {fs : List Frame}
    (hc : Covers mask fs) : Good { s with frames := fs } mask :=
  ⟨h.mask, hfree, h.disp, h.ignored, h.reset, hc⟩

/-- **The delivery keeps the invariant** for a mask that has what the handler blocks. -/
theorem Good.deliver (h : Good s own) (signum : ℕ) {oldmask : Option Sigset} {before mask : Sigset}
    {built : Bool} (hbefore : oldmask.getD s.pSignalMask = before) (hown : before = own)
    (hfree : Free mask) (hmask : ∀ n, own n = true → mask n = true)
    (hblocked : built = true → ∀ n, (s.frameFor signum oldmask before).blocked n = true →
      mask n = true) :
    Good (s.deliver signum oldmask before built) mask := by
  subst hown
  have hcover : Covers mask (s.pushFrame (s.frameFor signum oldmask before) built).frames := by
    cases built with
    | true => exact ⟨hblocked rfl, hbefore, h.free, h.frames⟩
    | false =>
      have hframes := h.frames
      show Covers mask s.frames
      cases hf : s.frames with
      | nil => trivial
      | cons f fs =>
        rw [hf] at hframes
        exact ⟨fun n hn => hmask n (hframes.1 n hn), hframes.2⟩
  have hpush : Good (s.pushFrame (s.frameFor signum oldmask before) built) mask := by
    cases built with
    | true => exact h.push hfree hcover
    | false => exact ⟨h.mask, hfree, h.disp, h.ignored, h.reset, hcover⟩
  rw [deliver_eq]
  split
  · rename_i hreset
    exact hpush.currSignalAction (fun _ => rfl) fun _ => h.reset signum hreset
  · exact hpush.currSignalMask _

/-! ### Steps -/

/-- The invariant of a process that is not exiting. -/
def Inv (s : State) : Prop :=
  match s.pc with
  | .running => Good s s.pSignalMask
  | .suspended mask => Good s mask
  | .exiting => True

/-- A handler that is entered from `sigsuspend` blocks signals that were blocked before the call. -/
def Ok (s : State) : Event → Prop
  | .wake traced built ptvals => ∀ mask signum s₁, s.pc = .suspended mask → built = true →
      s.choose traced ptvals = some (s₁, .handler signum) → ∀ n, (s.uSigact signum).saMask n =
        true →
        unblockable n = false → mask n = true
  | _ => True

theorem Good.inv (h : Good s s.pSignalMask) (hpc : s.pc = .running) : Inv s := by
  unfold Inv
  rw [hpc]
  exact h

/-- A signal is sent. -/
theorem Inv.procSendSignal (h : Inv s) (signal : ℕ) : Inv (s.procSendSignal signal) := by
  obtain ⟨pending, hs⟩ : ∃ pending, s.procSendSignal signal =
      { s with pPendingSignals := pending } := ⟨_, rfl⟩
  rw [hs]
  unfold Inv at h ⊢
  cases hpc : s.pc with
  | running =>
    rw [hpc] at h
    exact ⟨h.mask, h.free, h.disp, h.ignored, h.reset, h.frames⟩
  | suspended mask =>
    rw [hpc] at h
    exact ⟨h.mask, h.free, h.disp, h.ignored, h.reset, h.frames⟩
  | exiting => trivial

theorem setMask_pc (s : State) (mask : Sigset) : (s.setMask mask).pc = s.pc := by
  unfold State.setMask
  simp only
  split <;> rfl

theorem usigaction_pc (s : State) (sig : ℕ) (act : Option (ℕ × Sigset)) (stored : Bool) :
    (s.usigaction sig act stored).pc = s.pc ∧
      (s.usigaction sig act stored).pSignalMask = s.pSignalMask := by
  unfold State.usigaction
  split
  · cases act with
    | none => exact ⟨rfl, rfl⟩
    | some act =>
      simp only
      split <;> exact ⟨rfl, rfl⟩
  · exact ⟨rfl, rfl⟩

theorem usigsys_pc (s : State) (catchSegv : Bool) (sigtype : Sigtype) (signal func : ℕ) :
    (s.usigsys catchSegv sigtype signal func).pc = s.pc := by
  unfold State.usigsys
  split
  · cases sigtype with
    | signal =>
      simp only
      split <;> rfl
    | sigset =>
      simp only
      split
      · exact setMask_pc _ _
      · exact setMask_pc _ _
    | sighold => exact setMask_pc _ _
    | sigrelse => exact setMask_pc _ _
    | sigignore => exact setMask_pc _ _
    | sigpause => exact setMask_pc _ _
  · rfl

theorem usigprocmask_pc (s : State) (how : How) (set : Sigset) (stored : Bool) :
    (s.usigprocmask how set stored).pc = s.pc := by
  unfold State.usigprocmask
  simp only
  split
  · exact setMask_pc _ _
  · rfl

theorem execSignals_pc (s : State) :
    s.execSignals.pc = s.pc ∧ s.execSignals.pSignalMask = s.pSignalMask := by
  unfold State.execSignals
  induction List.range' 1 SIGNAL_MAX generalizing s with
  | nil => exact ⟨rfl, rfl⟩
  | cons n ns ih =>
    rw [List.foldl_cons]
    split
    · exact ih _
    · exact ih _

/-- **`curr_check_signals`** on the way to user level. -/
theorem Good.returnToUser (h : Good s s.pSignalMask) (hpc : s.pc = .running)
    (hs : s.currCheckSignals none s.pSignalMask traced built ptvals = some s') : Inv s' := by
  obtain ⟨⟨s₁, c⟩, hchoose, rfl⟩ := Option.map_eq_some_iff.mp hs
  obtain ⟨pending, rfl⟩ := choose_same hchoose
  have hgood := h.pending pending
  cases c with
  | nothing => exact hgood.inv hpc
  | exit =>
    unfold Inv State.pexit
    trivial
  | handler signum =>
    have hent := hgood.entered signum none s.pSignalMask built
    show Inv (State.deliver { s with pPendingSignals := pending } signum none s.pSignalMask built)
    refine Good.inv ?_ (hent.pc.trans hpc)
    exact hgood.deliver signum rfl rfl hent.free hent.more fun _ => hent.blocked

/-- **The end of `sigsuspend`** puts back the mask of before. -/
theorem Good.wake (h : Good s mask) (hpc : s.pc = .suspended mask)
    (hok : Ok s (.wake traced built ptvals))
    (hs : (s.currCheckSignals (some mask) mask traced built ptvals).map (fun s =>
      match s.pc with
      | .exiting => s
      | _ => { s.currSignalMask mask with pc := .running }) = some s') : Inv s' := by
  obtain ⟨s₂, hs₂, rfl⟩ := Option.map_eq_some_iff.mp hs
  obtain ⟨⟨s₁, c⟩, hchoose, rfl⟩ := Option.map_eq_some_iff.mp hs₂
  have hok' := hok mask
  obtain ⟨pending, rfl⟩ := choose_same hchoose
  have hgood := h.pending pending
  have hback : ∀ r : State, Good r mask → r.pc = .suspended mask → Inv (match r.pc with
      | .exiting => r
      | _ => { r.currSignalMask mask with pc := .running }) := by
    intro r hr hrpc
    rw [hrpc]
    have hmask := currSignalMask_of_free h.free r
    have hgoodr := hr.currSignalMask mask
    show Good _ (r.currSignalMask mask).pSignalMask
    rw [hmask]
    exact hgoodr.pc .running
  cases c with
  | nothing => exact hback _ hgood hpc
  | exit =>
    unfold Inv State.pexit
    trivial
  | handler signum =>
    have hent := hgood.entered signum (some mask) mask built
    refine hback _ (hgood.deliver signum rfl rfl h.free (fun _ hn => hn) fun hbuilt n hn => ?_)
      (hent.pc.trans hpc)
    change ((s.uSigact signum).saMask n && !unblockable n) = true at hn
    rw [Bool.and_eq_true, Bool.not_eq_true'] at hn
    exact hok' signum _ hpc hbuilt hchoose n hn.1 hn.2

theorem Inv.step {e : Event} (h : Inv s) (hok : Ok s e) (hs : step catchSegv s e = some s') :
    Inv s' := by
  have hinv := h
  unfold Inv at h
  cases hpc : s.pc with
  | exiting => simp [Sig.step, hpc] at hs
  | suspended mask =>
    rw [hpc] at h
    cases e with
    | wake traced built ptvals =>
      simp only [Sig.step, hpc] at hs
      exact Good.wake h hpc hok hs
    | send signal =>
      simp only [Sig.step, hpc] at hs
      cases hs
      exact hinv.procSendSignal signal
    | _ => simp [Sig.step, hpc] at hs
  | running =>
    rw [hpc] at h
    cases e with
    | sigaction sig act stored =>
      simp only [Sig.step, hpc] at hs
      cases hs
      obtain ⟨hpc', hmask⟩ := usigaction_pc s sig act stored
      have hgood := Good.usigaction h sig act stored
      rw [← hmask] at hgood
      exact hgood.inv (hpc'.trans hpc)
    | sigsys sigtype signal func =>
      simp only [Sig.step, hpc] at hs
      cases hs
      exact (Good.usigsys h catchSegv sigtype signal func).inv ((usigsys_pc _ _ _ _ _).trans hpc)
    | sigprocmask how set stored =>
      simp only [Sig.step, hpc] at hs
      cases hs
      exact (Good.usigprocmask h how set stored).inv ((usigprocmask_pc _ _ _ _).trans hpc)
    | send signal =>
      simp only [Sig.step, hpc] at hs
      cases hs
      exact hinv.procSendSignal signal
    | returnToUser traced built ptvals =>
      simp only [Sig.step, hpc] at hs
      exact Good.returnToUser h hpc hs
    | sigsuspend set =>
      simp only [Sig.step, hpc] at hs
      cases hs
      exact (Good.currSignalMask h set).pc _
    | wake traced built ptvals => simp [Sig.step, hpc] at hs
    | handlerReturn =>
      simp only [Sig.step, hpc] at hs
      cases hf : s.frames with
      | nil => simp [hf] at hs
      | cons f fs =>
        simp only [hf] at hs
        cases hs
        have hframes := h.frames
        rw [hf] at hframes
        obtain ⟨-, hsaved, hfree, hcover⟩ := hframes
        have hmask : (s.currSignalMask f.sfSignalMask).pSignalMask = f.before := by
          rw [hsaved]
          exact currSignalMask_of_free hfree s
        have hgood := (Good.currSignalMask h f.sfSignalMask).push hfree hcover
        rw [← hmask] at hgood
        exact hgood.inv hpc
    | msigend mask =>
      simp only [Sig.step, hpc] at hs
      cases hs
      exact (Good.setMask h mask).inv ((setMask_pc _ _).trans hpc)
    | exec =>
      simp only [Sig.step, hpc, Option.some.injEq] at hs
      subst hs
      have hsame := execSignals_pc s
      have hgood := Good.execSignals h
      generalize s.execSignals = r at hsame hgood ⊢
      obtain ⟨hpc', hmask⟩ := hsame
      have hclear : Good { r with frames := [] } r.pSignalMask := hgood.push hgood.mask trivial
      exact hclear.inv (hpc'.trans hpc)
    | child =>
      simp only [Sig.step, hpc] at hs
      cases hs
      have hgood := Good.pending h fun _ => false
      exact (hgood.pc .running).inv rfl

theorem Inv.initial (h : Initial s) : Inv s := by
  obtain ⟨hmask, hignored, haction, hframes, hpc⟩ := h
  have hfree : Free s.pSignalMask := fun n _ => hmask n
  refine Good.inv ⟨hfree, hfree, fun n _ => (haction n).1, fun n => ?_, fun n hn => ?_, ?_⟩ hpc
  · rw [hignored n, (haction n).1]
    rfl
  · cases (haction n).2.symm.trans hn
  · rw [hframes]
    trivial

/-! ### Which steps enter a handler -/

theorem setMask_length (s : State) (mask : Sigset) :
    (s.setMask mask).frames.length = s.frames.length := by
  unfold State.setMask
  cases hf : s.frames with
  | nil => simp [State.currSignalMask, hf]
  | cons f fs => simp [State.currSignalMask, hf]

theorem usigaction_frames (s : State) (sig : ℕ) (act : Option (ℕ × Sigset)) (stored : Bool) :
    (s.usigaction sig act stored).frames = s.frames := by
  unfold State.usigaction
  split
  · cases act with
    | none => rfl
    | some act =>
      simp only
      split <;> rfl
  · rfl

theorem usigsys_length (s : State) (catchSegv : Bool) (sigtype : Sigtype) (signal func : ℕ) :
    (s.usigsys catchSegv sigtype signal func).frames.length = s.frames.length := by
  unfold State.usigsys
  split
  · cases sigtype with
    | signal =>
      simp only
      split <;> rfl
    | sigset =>
      simp only
      split
      · exact setMask_length _ _
      · exact setMask_length _ _
    | sighold => exact setMask_length _ _
    | sigrelse => exact setMask_length _ _
    | sigignore => exact setMask_length _ _
    | sigpause => exact setMask_length _ _
  · rfl

theorem usigprocmask_length (s : State) (how : How) (set : Sigset) (stored : Bool) :
    (s.usigprocmask how set stored).frames.length = s.frames.length := by
  unfold State.usigprocmask
  simp only
  split
  · exact setMask_length _ _
  · rfl

/-- What a handler that is entered has: the mask that comes back is that of before, and the signals
    of its own mask are blocked. -/
def Enters (s s' : State) (f : Frame) : Prop :=
  f.before = s.base ∧ (∀ n, f.blocked n = true → s'.pSignalMask n = true) ∧
    ∃ signum, ∀ n, f.blocked n = ((s.uSigact signum).saMask n && !unblockable n)

theorem cons_ne_of_length {f : Frame} {fs gs : List Frame} (h : gs.length ≤ fs.length) :
    gs ≠ f :: fs := by
  rintro rfl
  rw [List.length_cons] at h
  omega

/-- **A handler is entered** on the way to user level, or from `sigsuspend`. -/
theorem Inv.enters {e : Event} (h : Inv s) (hok : Ok s e) (hs : Sig.step catchSegv s e = some s')
    {f : Frame} (hf : s'.frames = f :: s.frames) : Enters s s' f := by
  unfold Inv at h
  cases hpc : s.pc with
  | exiting => simp [Sig.step, hpc] at hs
  | suspended mask =>
    rw [hpc] at h
    have hbase : s.base = mask := by
      unfold State.base
      rw [hpc]
    cases e with
    | wake traced built ptvals =>
      simp only [Sig.step, hpc] at hs
      obtain ⟨s₂, hs₂, rfl⟩ := Option.map_eq_some_iff.mp hs
      obtain ⟨⟨s₁, c⟩, hchoose, rfl⟩ := Option.map_eq_some_iff.mp hs₂
      obtain ⟨pending, rfl⟩ := choose_same hchoose
      have hgood := Good.pending h pending
      cases c with
      | nothing =>
        simp only [hpc] at hf
        exact absurd hf (cons_ne_of_length le_rfl)
      | exit => exact absurd hf (cons_ne_of_length le_rfl)
      | handler signum =>
        have hent := hgood.entered signum (some mask) mask built
        have hpc₂ := hent.pc.trans hpc
        simp only [hpc₂] at hf ⊢
        have hframes := hent.frames
        have hback := currSignalMask_of_free h.free
          (State.deliver { s with pPendingSignals := pending } signum (some mask) mask built)
        cases built with
        | false => exact absurd (hframes.symm.trans hf) (cons_ne_of_length le_rfl)
        | true =>
          obtain rfl := (List.cons.inj (hframes.symm.trans hf)).1
          refine ⟨hbase.symm, fun n hn => ?_, signum, fun n => rfl⟩
          change ((s.uSigact signum).saMask n && !unblockable n) = true at hn
          rw [Bool.and_eq_true, Bool.not_eq_true'] at hn
          refine (congrFun hback n).trans ?_
          exact hok mask signum _ hpc rfl hchoose n hn.1 hn.2
    | send signal =>
      simp only [Sig.step, hpc] at hs
      cases hs
      exact absurd hf (cons_ne_of_length le_rfl)
    | _ => simp [Sig.step, hpc] at hs
  | running =>
    rw [hpc] at h
    have hbase : s.base = s.pSignalMask := by
      unfold State.base
      rw [hpc]
    cases e with
    | returnToUser traced built ptvals =>
      simp only [Sig.step, hpc] at hs
      obtain ⟨⟨s₁, c⟩, hchoose, rfl⟩ := Option.map_eq_some_iff.mp hs
      obtain ⟨pending, rfl⟩ := choose_same hchoose
      have hgood := Good.pending h pending
      cases c with
      | nothing => exact absurd hf (cons_ne_of_length le_rfl)
      | exit => exact absurd hf (cons_ne_of_length le_rfl)
      | handler signum =>
        have hent := hgood.entered signum none s.pSignalMask built
        have hframes := hent.frames
        cases built with
        | false => exact absurd (hframes.symm.trans hf) (cons_ne_of_length le_rfl)
        | true =>
          obtain rfl := (List.cons.inj (hframes.symm.trans hf)).1
          exact ⟨hbase.symm, hent.blocked, signum, fun n => rfl⟩
    | sigaction sig act stored =>
      simp only [Sig.step, hpc] at hs
      cases hs
      exact absurd hf (cons_ne_of_length (usigaction_frames s sig act stored ▸ le_rfl))
    | sigsys sigtype signal func =>
      simp only [Sig.step, hpc] at hs
      cases hs
      exact absurd hf (cons_ne_of_length (usigsys_length s catchSegv sigtype signal func).le)
    | sigprocmask how set stored =>
      simp only [Sig.step, hpc] at hs
      cases hs
      exact absurd hf (cons_ne_of_length (usigprocmask_length s how set stored).le)
    | send signal =>
      simp only [Sig.step, hpc] at hs
      cases hs
      exact absurd hf (cons_ne_of_length le_rfl)
    | sigsuspend set =>
      simp only [Sig.step, hpc] at hs
      cases hs
      exact absurd hf (cons_ne_of_length le_rfl)
    | wake traced built ptvals => simp [Sig.step, hpc] at hs
    | handlerReturn =>
      simp only [Sig.step, hpc] at hs
      cases hframes : s.frames with
      | nil => simp [hframes] at hs
      | cons g gs =>
        simp only [hframes] at hs
        cases hs
        rw [hframes] at hf
        exact absurd hf (cons_ne_of_length (Nat.le_succ _))
    | msigend mask =>
      simp only [Sig.step, hpc] at hs
      cases hs
      exact absurd hf (cons_ne_of_length (setMask_length s mask).le)
    | exec =>
      simp only [Sig.step, hpc, Option.some.injEq] at hs
      subst hs
      exact absurd hf (cons_ne_of_length (Nat.zero_le _))
    | child =>
      simp only [Sig.step, hpc] at hs
      cases hs
      exact absurd hf (cons_ne_of_length le_rfl)

/-! ### Runs -/

/-- What a program relies on: `SIGKILL` and `SIGSTOP` are not blocked and have their default
    actions; the ignored signals are those with that disposition; and a handler runs with the
    signals of its mask blocked, unless the program has unblocked them, and returns to the mask of
    before. -/
structure Sound (catchSegv : Bool) (ok : State → Event → Prop) (s : State) : Prop where
  mask : s.pSignalMask SIGKILL = false ∧ s.pSignalMask SIGSTOP = false
  disp : (s.uSigact SIGKILL).saHandler = SIG_DFL ∧ (s.uSigact SIGSTOP).saHandler = SIG_DFL
  ignored : ∀ n, s.pIgnoredSignals n = true ↔ (s.uSigact n).saHandler = SIG_IGN ∨
    (s.uSigact n).saHandler = SIG_DFL ∧ defaultIgnored n = true
  enters : ∀ e s', ok s e → step catchSegv s e = some s' → ∀ f, s'.frames = f :: s.frames →
    Enters s s' f
  blocked : s.pc = .running → ∀ f fs, s.frames = f :: fs → ∀ n, f.blocked n = true →
    s.pSignalMask n = true
  returns : ∀ s', step catchSegv s .handlerReturn = some s' →
    ∃ f, s.frames = f :: s'.frames ∧ s'.pSignalMask = f.before

theorem Good.sound {ok : State → Event → Prop} (h : Good s own)
    (henters : ∀ e s', ok s e → step catchSegv s e = some s' → ∀ f, s'.frames = f :: s.frames →
      Enters s s' f) (hown : s.pc = .running → own = s.pSignalMask) : Sound catchSegv ok s := by
  refine ⟨⟨h.mask SIGKILL rfl, h.mask SIGSTOP rfl⟩, ⟨h.disp SIGKILL rfl, h.disp SIGSTOP rfl⟩,
    fun n => ?_, henters, fun hpc f fs hf n hn => ?_, fun s' hs => ?_⟩
  · rw [h.ignored n]
    unfold ignores
    rw [Bool.or_eq_true, Bool.and_eq_true, decide_eq_true_eq, decide_eq_true_eq]
  · have hframes := h.frames
    rw [hf] at hframes
    rw [← hown hpc]
    exact hframes.1 n hn
  · unfold step at hs
    cases hpc : s.pc with
    | suspended mask => simp [hpc] at hs
    | exiting => simp [hpc] at hs
    | running =>
      simp only [hpc] at hs
      cases hf : s.frames with
      | nil => simp [hf] at hs
      | cons f fs =>
        simp only [hf] at hs
        cases hs
        have hframes := h.frames
        rw [hf] at hframes
        refine ⟨f, rfl, ?_⟩
        show (s.currSignalMask f.sfSignalMask).pSignalMask = f.before
        rw [hframes.2.1]
        exact currSignalMask_of_free hframes.2.2.1 s

/-- The first process. -/
def start : State where
  pSignalMask := fun _ => false
  pIgnoredSignals := defaultIgnored
  pPendingSignals := fun _ => false
  uSigact := fun _ => ⟨SIG_DFL, fun _ => false, false⟩
  frames := []
  pc := .running

theorem start_initial : Initial start :=
  ⟨fun _ => rfl, fun _ => rfl, fun _ => ⟨rfl, rfl⟩, rfl, rfl⟩

/-- The set of a signal. -/
def only (n : ℕ) : Sigset := fun m => decide (m = n)

end CohKernel.Sig
