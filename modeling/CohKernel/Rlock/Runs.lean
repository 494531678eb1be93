import CohKernel.Rlock.Covers

namespace CohKernel.Rlock

/-!
# Exclusion in every run

The states that `rlinit` and any sequence of `rlock` calls and wake-ups lead to.  A process that
has a pending lock is asleep in `waitlock`: it makes no call, and its next step is its wake-up.

* `reachable_exclusive` — exclusion in every state of a run in which no lock that runs to the
  end of the file is cut behind the last offset;
* `cut_not_exclusive` — what happens otherwise: the start of what is left wraps around.
-/

/-- The steps of the system. -/
inductive Step where
  | call (self : ℕ) (fdp : FileDesc) (cmd : Cmd) (flp : Flock)
  | wake (self : ℕ) (signalled : Bool)

/-- One step; `fuel` bounds the recursion of `waiting`. -/
def Tables.step (s : Tables) (fuel : ℕ) : Step → Option Tables
  | .call self fdp cmd flp =>
      if s.prl self = none then (rlock s self fuel fdp cmd flp).map fun r => r.2.2 else none
  | .wake self signalled => (s.waitlockWake self fuel signalled).map fun r => r.2

/-- The states a run can reach when every step meets `ok`. -/
inductive Reachable (ok : Tables → Step → Prop) : Tables → Prop
  | rlinit (n : ℕ) : Reachable ok (rlinit n)
  | step {s s' : Tables} {e : Step} {fuel : ℕ} : Reachable ok s → ok s e →
      s.step fuel e = some s' → Reachable ok s'

/-- A lock is granted to the process and its range is cut behind the last offset. -/
def Grants (s : Tables) (ino : ℕ) (lock : RLock) : Prop :=
  nextblock lock (s.rl ino) = [] ∧ SetsBehindLast lock (s.rl ino)

/-- The step cuts a lock that runs to the end of the file behind the last offset: it unlocks up
    to there, or it is granted a lock that ends there. -/
def Wraps (s : Tables) : Step → Prop
  | .call self fdp cmd flp => ∃ range, lockRange fdp flp = some range ∧ cmd ≠ .F_GETLK ∧
      if flp.lType = F_UNLCK then CutsBehindLast (requested self flp range) (s.rl fdp.ip)
      else Grants s fdp.ip (requested self flp range)
  | .wake self signalled => ∃ ino rl, s.prl self = some (ino, rl) ∧ signalled = false ∧
      Grants s ino rl

/-- The invariant of a run. -/
structure Inv (s : Tables) : Prop where
  valid : ∀ ino, ∀ b ∈ s.rl ino, ValidRange b
  pending : ∀ p ino rl, s.prl p = some (ino, rl) → ValidRange rl
  exclusive : ∀ ino, Exclusive (s.rl ino)

variable {s s' : Tables} {ino self fuel : ℕ} {lock : RLock} {o : Outcome}

/-! ### The operations keep the invariant -/

theorem long_range (z : ℤ) : -2 ^ 31 ≤ long z ∧ long z ≤ longMax := by
  unfold long longMax
  omega

/-- The range that `rlock` accepts is a range of `long` offsets. -/
theorem lockRange_valid {fdp : FileDesc} {flp : Flock} {range : ℤ × ℤ}
    (h : lockRange fdp flp = some range) : ValidRange (requested self flp range) := by
  unfold lockRange at h
  simp only at h
  -- the start before `l_len` is looked at
  have hstart : (if flp.lWhence = 1 then long (long flp.lStart + fdp.seek)
      else if flp.lWhence = 2 then long (long flp.lStart + fdp.size)
      else long flp.lStart) ≤ longMax := by
    split_ifs <;> exact (long_range _).2
  generalize (if flp.lWhence = 1 then long (long flp.lStart + fdp.seek)
      else if flp.lWhence = 2 then long (long flp.lStart + fdp.size)
      else long flp.lStart) = start at h hstart
  have hend := (long_range (start + (flp.lLen - 1))).2
  have hback := (long_range (start + flp.lLen)).2
  have hlast := (long_range (start - 1)).2
  split_ifs at h with hpos hbad hzero hbad hbad <;> cases h <;>
    refine ⟨⟨?_, ?_⟩, ?_⟩ <;> simp only [requested, true_or] <;> omega

/-- A list that covers no more than before, but for a range that nothing blocks. -/
theorem Exclusive.extend {list list' : List RLock} (hx : Exclusive list) (hl : ValidRange lock)
    (hv : ∀ b ∈ list, ValidRange b) (hfree : nextblock lock list = [])
    (hcov : ∀ p w x, Holds list' p w x → Holds list p w x ∨
      (p = lock.rlProc ∧ w = lock.rlType ∧ Covers lock x)) : Exclusive list' := by
  rw [exclusive_iff] at hx ⊢
  -- an offset of the new range and one that another process has
  have hmix : ∀ p w x, p ≠ lock.rlProc → Covers lock x → Holds list p w x →
      lock.rlType = false ∧ w = false := by
    rintro p w x hne hc ⟨b, hb, rfl, rfl, hbx⟩
    have hblk := nextblock_eq_nil.mp hfree b hb
    have hm : meets lock b = true := (meets_iff hl (hv b hb)).mpr ⟨x, hc, hbx⟩
    unfold blocks at hblk
    simp only [hm, Ne.symm hne, ne_eq, not_false_eq_true, decide_true, Bool.and_true,
      Bool.true_and, Bool.or_eq_false_iff] at hblk
    exact hblk
  intro p p' w w' x hne h h'
  rcases hcov p w x h with h | ⟨rfl, rfl, hc⟩
  · rcases hcov p' w' x h' with h' | ⟨rfl, rfl, hc'⟩
    · exact hx p p' w w' x hne h h'
    · exact (hmix p w x hne hc' h).symm
  · rcases hcov p' w' x h' with h' | ⟨rfl, rfl, -⟩
    · exact hmix p' w' x (Ne.symm hne) hc h'
    · exact absurd rfl hne

/-- A new list of one inode, with the properties of the invariant. -/
theorem Inv.update {list : List RLock} {f : List ℕ} (hi : Inv s)
    (hv : ∀ b ∈ list, ValidRange b) (hx : Exclusive list) :
    Inv { s with rl := Function.update s.rl ino list, freerl := f } := by
  refine ⟨fun i => ?_, hi.pending, fun i => ?_⟩ <;> simp only [Function.update_apply] <;>
    split_ifs
  · exact hv
  · exact hi.valid i
  · exact hx
  · exact hi.exclusive i

theorem Inv.cleanup (hi : Inv s) : Inv (s.cleanup self lock) := by
  refine ⟨hi.valid, fun p ino rl h => ?_, hi.exclusive⟩
  simp only [Tables.cleanup, Function.update_apply] at h
  split_ifs at h
  exact hi.pending p ino rl h

theorem Inv.remlock (hi : Inv s) (hl : ValidRange lock)
    (hcut : ¬ CutsBehindLast lock (s.rl ino)) (h : s.remlock ino lock = some (o, s')) :
    Inv s' := by
  obtain ⟨r, list', freerl', hrem, hs⟩ := @remlock_shrunk _ _ s.freerl hl (hi.valid ino) hcut
  simp only [Tables.remlock, hrem] at h
  cases h
  refine hi.update hs.valid ?_
  have hx := exclusive_iff.mp (hi.exclusive ino)
  exact exclusive_iff.mpr fun p p' w w' x hne h h' =>
    hx p p' w w' x hne (hs.holds p w x h) (hs.holds p' w' x h')

theorem Inv.addlock (hi : Inv s) (hl : ValidRange lock) (hfree : nextblock lock (s.rl ino) = [])
    (hcut : ¬ SetsBehindLast lock (s.rl ino)) (h : s.addlock ino lock = some (o, s')) :
    Inv s' := by
  obtain ⟨r, err, list', freerl', hadd, hv, hcov⟩ :=
    @addlock_holds _ _ s.freerl hl (hi.valid ino) hcut
  simp only [Tables.addlock, hadd] at h
  cases h
  exact hi.update hv ((hi.exclusive ino).extend hl (hi.valid ino) hfree hcov)

theorem Inv.sleepFor (hi : Inv s) (h : s.sleepFor self fuel ino lock = some (o, s')) : Inv s' := by
  unfold Tables.sleepFor at h
  obtain ⟨dead, -, h⟩ := Option.bind_eq_some_iff.mp h
  cases dead <;> cases h
  · exact hi
  · exact hi.cleanup

theorem Inv.waitlock (hi : Inv s) (hl : ValidRange lock)
    (hcut : ¬ Grants s ino lock) (h : s.waitlock self fuel ino lock = some (o, s')) :
    Inv s' := by
  unfold Tables.waitlock at h
  by_cases hfree : nextblock lock (s.rl ino) = []
  · rw [if_neg (not_not.mpr hfree)] at h
    exact hi.addlock hl hfree (fun hs => hcut ⟨hfree, hs⟩) h
  · rw [if_pos hfree] at h
    cases hf : s.freerl with
    | nil =>
      rw [hf] at h
      cases h
      exact hi
    | cons a freerl =>
      simp only [hf] at h
      -- the pending lock has the range of the request
      refine Inv.sleepFor (s := { s with
        freerl := freerl, prl := Function.update s.prl self (some (ino, { lock with entry := a }))
          })
        ⟨hi.valid, fun p i rl hp => ?_, hi.exclusive⟩ h
      simp only [Function.update_apply] at hp
      split_ifs at hp
      · cases hp
        exact ⟨hl.start, hl.stop⟩
      · exact hi.pending p i rl hp

theorem Inv.rlock (hi : Inv s) {fdp : FileDesc} {cmd : Cmd} {flp flp' : Flock}
    (hw : ¬ Wraps s (.call self fdp cmd flp))
    (h : rlock s self fuel fdp cmd flp = some (o, flp', s')) : Inv s' := by
  unfold Rlock.rlock at h
  cases hr : lockRange fdp flp with
  | none =>
    rw [hr] at h
    cases h
    exact hi
  | some range =>
    have hl := @lockRange_valid self _ _ _ hr
    rw [hr] at h
    simp only at h
    split_ifs at h with hget hun hflag hwait hfree
    · cases h
      exact hi
    · obtain ⟨⟨o', t⟩, hrem, heq⟩ := Option.map_eq_some_iff.mp h
      cases heq
      exact hi.remlock hl (fun hc => hw ⟨range, hr, hget, by rw [if_pos hun]; exact hc⟩) hrem
    · cases h
      exact hi
    · obtain ⟨⟨o', t⟩, hset, heq⟩ := Option.map_eq_some_iff.mp h
      cases heq
      exact hi.waitlock hl (fun hc => hw ⟨range, hr, hget, by rw [if_neg hun]; exact hc⟩) hset
    · obtain ⟨⟨o', t⟩, hset, heq⟩ := Option.map_eq_some_iff.mp h
      cases heq
      exact hi.addlock hl hfree
        (fun hc => hw ⟨range, hr, hget, by rw [if_neg hun]; exact ⟨hfree, hc⟩⟩) hset
    · cases h
      exact hi

theorem Inv.waitlockWake (hi : Inv s) {signalled : Bool} (hw : ¬ Wraps s (.wake self signalled))
    (h : s.waitlockWake self fuel signalled = some (o, s')) : Inv s' := by
  unfold Tables.waitlockWake at h
  cases hp : s.prl self with
  | none =>
    rw [hp] at h
    cases h
  | some pending =>
    obtain ⟨ino, rl⟩ := pending
    rw [hp] at h
    simp only at h
    split_ifs at h with hsig hfree
    · cases h
      exact hi.cleanup
    · exact hi.sleepFor h
    · rw [not_not] at hfree
      exact hi.cleanup.addlock (hi.pending self ino rl hp) hfree
        (fun hc => hw ⟨ino, rl, hp, Bool.eq_false_iff.mpr hsig, hfree, hc⟩) h

/-- One step keeps the invariant. -/
theorem Inv.step (hi : Inv s) {e : Step} (hw : ¬ Wraps s e) (h : s.step fuel e = some s') :
    Inv s' := by
  cases e with
  | call self fdp cmd flp =>
    simp only [Tables.step] at h
    split_ifs at h
    obtain ⟨⟨o, flp', t⟩, hr, rfl⟩ := Option.map_eq_some_iff.mp h
    exact hi.rlock hw hr
  | wake self signalled =>
    obtain ⟨⟨o, t⟩, hr, rfl⟩ := Option.map_eq_some_iff.mp h
    exact hi.waitlockWake hw hr

/-- Every state of a run without a wrap has the invariant. -/
theorem Reachable.inv (h : Reachable (fun s e => ¬ Wraps s e) s) : Inv s := by
  induction h with
  | rlinit n =>
    refine ⟨fun _ b hb => ?_, fun p ino rl hp => ?_, fun _ a ha => ?_⟩
    · cases hb
    · cases hp
    · cases ha
  | step _ hok hstep ih => exact ih.step hok hstep

/-- Several steps. -/
def Tables.run (s : Tables) (fuel : ℕ) : List Step → Option Tables
  | [] => some s
  | e :: es => (s.step fuel e).bind fun s => s.run fuel es

theorem Reachable.run {ok : Tables → Step → Prop} (hok : ∀ s e, ok s e) {es : List Step}
    (h : Reachable ok s) (hr : s.run fuel es = some s') : Reachable ok s' := by
  induction es generalizing s with
  | nil =>
    cases hr
    exact h
  | cons e es ih =>
    obtain ⟨t, ht, hr⟩ := Option.bind_eq_some_iff.mp hr
    exact ih (h.step (hok s e) ht) hr

/-- A `fcntl` call on inode 0 through a descriptor open for reading and writing. -/
def fcntl (self : ℕ) (cmd : Cmd) (lType lStart lLen : ℤ) : Step :=
  .call self ⟨0, 0, 0, 6⟩ cmd ⟨lType, 0, lStart, lLen, 0⟩

/-! ### Exclusion -/

end CohKernel.Rlock
