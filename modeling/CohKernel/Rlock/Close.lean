import CohKernel.Lib.Runs
import CohKernel.Rlock.Pool

namespace CohKernel.Rlock

open CohKernel.Lib

/-!
# Locks of files that are closed

The processes with their descriptors, over the lock tables: `fcntl` locks through a descriptor,
`fd_close` removes the locks of the process on the file, `pexit` closes all descriptors, and
`iattach` gives the place of an unused inode in the inode table to another one.  The reference
counts of the file table are left out: they decide when the inode is closed, and no lock depends
on it.

* `Sound` — the entries are placed, and only a process that has the file open has locks on it;
* `closed_released` — its run theorem: a closed file has none of the locks of its process.
-/

/-! ### The system -/

/-- The lock tables, the process table, the processes in `pexit`, and the descriptors with the
    inode and the `f_flag` of their files. -/
structure State (N : ℕ) where
  tables : Tables
  procs : Finset ℕ
  exiting : Finset ℕ
  uFilep : ℕ × Fin N → Option (ℕ × ℕ)

/-- What happens.  The steps that call `rlock` have the size of the inode and the seek pointer of
    the file, and those that may sleep for a lock the bound of `waiting`. -/
inductive Event (N : ℕ) where
  | fdOpen (p : ℕ) (fd : Fin N) (ip flag : ℕ)
  | fdDup (p : ℕ) (old fd : Fin N)
  | fcntl (p : ℕ) (fd : Fin N) (size seek : ℤ) (cmd : Cmd) (flp : Flock) (fuel : ℕ)
  | wake (p : ℕ) (signalled : Bool) (fuel : ℕ)
  | fdClose (p : ℕ) (fd : Fin N) (size seek : ℤ)
  | pfork (p c : ℕ)
  | pexit (p : ℕ)
  | closeNext (p : ℕ) (size seek : ℤ)
  | iattach (ip : ℕ)

variable {N : ℕ}

/-- The process can make a system call. -/
def State.Runs (s : State N) (p : ℕ) : Prop :=
  p ∈ s.procs ∧ p ∉ s.exiting ∧ s.tables.prl p = none

instance (s : State N) (p : ℕ) : Decidable (s.Runs p) := inferInstanceAs (Decidable (_ ∧ _ ∧ _))

/-- The `flock` of `fd_close`. -/
def flock : Flock := ⟨F_UNLCK, 0, 0, 0, 0⟩

/-- `fd_close`. -/
def State.fdClose (s : State N) (p : ℕ) (fd : Fin N) (size seek : ℤ) : Option (State N) :=
  match s.uFilep (p, fd) with
  | none => some s
  | some (ip, flag) => do
      let tables ←
        if s.tables.rl ip ≠ [] then
          (rlock s.tables p 0 ⟨ip, size, seek, flag⟩ .F_SETLK flock).map fun r => r.2.2
        else some s.tables
      some { s with tables := tables, uFilep := Function.update s.uFilep (p, fd) none }

/-- The next descriptor that `fd_close_all` closes. -/
def State.nextOpen (s : State N) (p : ℕ) : Option (Fin N) :=
  (List.finRange N).find? fun fd => (s.uFilep (p, fd)).isSome

/-- No descriptor is open for the inode. -/
def State.Unused (s : State N) (ip : ℕ) : Prop :=
  ∀ p ∈ s.procs, ∀ fd, (s.uFilep (p, fd)).map Prod.fst ≠ some ip

instance (s : State N) (ip : ℕ) : Decidable (s.Unused ip) :=
  inferInstanceAs (Decidable (∀ p ∈ s.procs, _))

/-- One step. -/
def step (s : State N) : Event N → Option (State N)
  | .fdOpen p fd ip flag =>
      if s.Runs p ∧ s.uFilep (p, fd) = none then
        some { s with uFilep := Function.update s.uFilep (p, fd) (some (ip, flag)) }
      else none
  | .fdDup p old fd =>
      if s.Runs p ∧ s.uFilep (p, fd) = none then
        some { s with uFilep := Function.update s.uFilep (p, fd) (s.uFilep (p, old)) }
      else none
  | .fcntl p fd size seek cmd flp fuel =>
      if s.Runs p then
        match s.uFilep (p, fd) with
        | none => some s
        | some (ip, flag) =>
            (s.tables.step fuel (.call p ⟨ip, size, seek, flag⟩ cmd flp)).map fun t =>
              { s with tables := t }
      else none
  | .wake p signalled fuel =>
      (s.tables.step fuel (.wake p signalled)).map fun t => { s with tables := t }
  | .fdClose p fd size seek => if s.Runs p then s.fdClose p fd size seek else none
  | .pfork p c =>
      if s.Runs p ∧ c ∉ s.procs then
        some { s with
          procs := insert c s.procs
          uFilep := fun i => if i.1 = c then s.uFilep (p, i.2) else s.uFilep i }
      else none
  | .pexit p => if s.Runs p then some { s with exiting := insert p s.exiting } else none
  | .closeNext p size seek =>
      if p ∈ s.exiting then
        match s.nextOpen p with
        | some fd => s.fdClose p fd size seek
        | none => some { s with procs := s.procs.erase p, exiting := s.exiting.erase p }
      else none
  | .iattach ip =>
      if s.Unused ip then
        some { s with tables := { s.tables with rl := Function.update s.tables.rl ip [] } }
      else none

/-- After `rlinit`: no process has a file open. -/
def Initial (n : ℕ) (s : State N) : Prop :=
  s.tables = rlinit n ∧ s.exiting = ∅ ∧ ∀ i, s.uFilep i = none

/-- The step does not cut a lock that runs to the end of the file behind the last offset. -/
def Ok (s : State N) : Event N → Prop
  | .fcntl p fd size seek cmd flp _ => ∀ ip flag, s.uFilep (p, fd) = some (ip, flag) →
      ¬ Wraps s.tables (.call p ⟨ip, size, seek, flag⟩ cmd flp)
  | .wake p signalled _ => ¬ Wraps s.tables (.wake p signalled)
  | _ => True

variable {n p ip flag : ℕ} {s s' : State N} {fd : Fin N}

/-- The process has the file open. -/
def State.Opens (s : State N) (p ino : ℕ) : Prop := ∃ fd flag, s.uFilep (p, fd) = some (ino, flag)

/-- The invariant of a run. -/
structure Sound (n : ℕ) (s : State N) : Prop where
  tables : Reachable (fun t e => ¬ Wraps t e) s.tables
  placed : Placed n s.tables
  gone : ∀ p, p ∉ s.procs → ∀ fd, s.uFilep (p, fd) = none
  owned : ∀ ino, ∀ b ∈ s.tables.rl ino, s.Opens b.rlProc ino
  pending : ∀ p ino rl, s.tables.prl p = some (ino, rl) → s.Opens p ino ∧ p ∉ s.exiting

/-! ### Removing all locks of a process -/

theorem remlockLoop_all (lock : RLock) (hstart : lock.rlStart = 0) (hstop : lock.rlEnd = -1) :
    ∀ (fuel : ℕ) (list : List RLock) (freerl : List ℕ), 2 * list.length + freerl.length < fuel →
      (∀ b ∈ list, ValidRange b) → ∃ freerl', remlockLoop lock fuel list freerl =
        some (0, list.filter fun b => decide (b.rlProc ≠ lock.rlProc), freerl') := by
  intro fuel
  induction fuel with
  | zero => exact fun _ _ hf => absurd hf (Nat.not_lt_zero _)
  | succ fuel ih =>
    intro list freerl hf hv
    cases list with
    | nil => exact ⟨freerl, rfl⟩
    | cons b rest =>
      rw [List.length_cons] at hf
      obtain ⟨hb, hrest⟩ := List.forall_mem_cons.mp hv
      have hmeets : meets lock b = true := by
        have := hb.stop
        have := hb.start
        rw [meets, if_pos hstop, hstart, decide_eq_true_eq]
        omega
      unfold remlockLoop
      by_cases hproc : b.rlProc = lock.rlProc
      · have hfree : extract b lock freerl = .free := by
          unfold extract
          rw [if_pos (hstart ▸ hb.start.1), if_pos (Or.inl hstop)]
        obtain ⟨f, hr⟩ := ih rest (b.entry :: freerl) (by rw [List.length_cons]; omega) hrest
        rw [if_neg (by rw [hmeets]; simp [hproc]), hfree]
        refine ⟨f, hr.trans ?_⟩
        rw [List.filter_cons_of_neg (by simp [hproc])]
      · obtain ⟨f, hr⟩ := ih rest freerl (by omega) hrest
        rw [if_pos (Or.inr hproc), hr]
        refine ⟨f, ?_⟩
        rw [List.filter_cons_of_pos (by simp [hproc])]
        rfl

/-- The tables after a process has closed a descriptor of the inode. -/
structure Released (t t' : Tables) (p ip : ℕ) : Prop where
  reach : Reachable (fun t e => ¬ Wraps t e) t'
  moved : Moved t t' p ip
  prl : t'.prl = t.prl
  list : ∀ b ∈ t'.rl ip, b ∈ t.rl ip ∧ b.rlProc ≠ p

/-- **`fd_close`** returns, and leaves no lock of the process on the file. -/
theorem fdClose_spec (hs : Sound n s) (hidle : s.tables.prl p = none)
    (hfd : s.uFilep (p, fd) = some (ip, flag)) (size seek : ℤ) :
    ∃ t, s.fdClose p fd size seek = some { s with
        tables := t, uFilep := Function.update s.uFilep (p, fd) none } ∧
      Released s.tables t p ip := by
  unfold State.fdClose
  simp only [hfd]
  by_cases hnil : s.tables.rl ip = []
  · rw [if_neg (not_not.mpr hnil)]
    refine ⟨s.tables, rfl, hs.tables, Moved.refl _ _ _, rfl, fun b hb => ?_⟩
    rw [hnil] at hb
    cases hb
  · rw [if_pos hnil]
    have hrange : lockRange ⟨ip, size, seek, flag⟩ flock = some (0, -1) := rfl
    have hvalid := hs.tables.inv.valid ip
    obtain ⟨f, hrem⟩ := remlockLoop_all (requested p flock (0, -1)) rfl rfl _ _ s.tables.freerl
      (Nat.lt_succ_self _) hvalid
    obtain ⟨o, t, htables, hrl, hprl⟩ : ∃ o t,
        s.tables.remlock ip (requested p flock (0, -1)) = some (o, t) ∧
        t.rl ip = (s.tables.rl ip).filter (fun b => decide (b.rlProc ≠ p)) ∧
        t.prl = s.tables.prl := by
      unfold Tables.remlock remlock
      rw [hrem]
      exact ⟨_, _, rfl, Function.update_self .., rfl⟩
    have hcall : rlock s.tables p 0 ⟨ip, size, seek, flag⟩ .F_SETLK flock =
        some (o, flock, t) := by
      unfold rlock
      rw [hrange]
      show (s.tables.remlock ip (requested p flock (0, -1))).map _ = _
      rw [htables]
      rfl
    have hok : ¬ Wraps s.tables (.call p ⟨ip, size, seek, flag⟩ .F_SETLK flock) := by
      rintro ⟨range, hr, -, hcut⟩
      rw [hrange] at hr
      cases hr
      rw [if_pos (show flock.lType = F_UNLCK from rfl)] at hcut
      exact absurd hcut.1 (show (-1 : ℤ) ≠ longMax by decide)
    have hstep : s.tables.step 0 (.call p ⟨ip, size, seek, flag⟩ .F_SETLK flock) = some t := by
      rw [Tables.step, if_pos hidle, hcall]
      rfl
    rw [hcall]
    refine ⟨t, rfl, hs.tables.step hok hstep, Moved.remlock htables, hprl, fun b hb => ?_⟩
    rw [hrl, List.mem_filter, decide_eq_true_eq] at hb
    exact hb

/-! ### One step -/

theorem nextOpen_none (h : s.nextOpen p = none) (fd : Fin N) : s.uFilep (p, fd) = none := by
  have hfd := List.find?_eq_none.mp h fd (List.mem_finRange fd)
  exact Option.not_isSome_iff_eq_none.mp hfd

theorem Sound.initial (h : Initial n s) : Sound n s := by
  obtain ⟨htables, -, hnone⟩ := h
  refine ⟨htables ▸ Reachable.rlinit n, htables ▸ rlinit_placed n, fun p _ fd => hnone (p, fd),
    fun ino b hb => ?_, fun p ino rl hp => ?_⟩
  · rw [htables] at hb
    cases hb
  · rw [htables] at hp
    cases hp

/-- More descriptors are open. -/
theorem Sound.more {procs : Finset ℕ} {uFilep : ℕ × Fin N → Option (ℕ × ℕ)} (hs : Sound n s)
    (hgone : ∀ q, q ∉ procs → ∀ fd, uFilep (q, fd) = none)
    (hmore : ∀ i x, s.uFilep i = some x → uFilep i = some x) :
    Sound n { s with procs := procs, uFilep := uFilep } := by
  have hopens : ∀ q ino, s.Opens q ino →
      State.Opens { s with procs := procs, uFilep := uFilep } q ino :=
    fun q ino ⟨fd, flag, hfd⟩ => ⟨fd, flag, hmore _ _ hfd⟩
  exact ⟨hs.tables, hs.placed, hgone, fun ino b hb => hopens _ _ (hs.owned ino b hb),
    fun q ino rl hq => (hs.pending q ino rl hq).imp_left (hopens q ino)⟩

/-- A descriptor that was free is opened. -/
theorem Sound.openFd (hs : Sound n s) (hp : s.Runs p) (hfree : s.uFilep (p, fd) = none)
    (x : Option (ℕ × ℕ)) : Sound n { s with uFilep := Function.update s.uFilep (p, fd) x } := by
  refine hs.more (fun q hq fd' => ?_) fun i y hi => ?_
  · rw [Function.update_of_ne]
    · exact hs.gone q hq fd'
    · rintro heq
      exact hq ((Prod.mk.inj heq).1 ▸ hp.1)
  · rw [Function.update_of_ne]
    · exact hi
    · rintro rfl
      rw [hfree] at hi
      cases hi

/-- A process that has the inode open locks it. -/
theorem Sound.setTables {t : Tables} (hs : Sound n s) (hopen : s.Opens p ip)
    (hrun : p ∉ s.exiting) (hreach : Reachable (fun t e => ¬ Wraps t e) t)
    (hm : Moved s.tables t p ip) (hown : OwnChanges p (s.tables.rl ip) (t.rl ip)) :
    Sound n { s with tables := t } := by
  refine ⟨hreach, hs.placed.moved hm, hs.gone, fun ino b hb => ?_, fun q ino rl hq => ?_⟩
  · by_cases hino : ino = ip
    · subst hino
      rcases hown b hb with hb | hb
      · exact hs.owned ino b hb
      · rw [hb]
        exact hopen
    · have hb' : b ∈ s.tables.rl ino := hm.inode ino hino ▸ hb
      exact hs.owned ino b hb'
  · by_cases hqp : q = p
    · subst hqp
      rcases hm.pend ino rl hq with rfl | hq
      · exact ⟨hopen, hrun⟩
      · exact hs.pending q ino rl hq
    · exact hs.pending q ino rl ((hm.prl q hqp).symm.trans hq)

/-- A process closes a descriptor. -/
theorem Sound.release {t : Tables} (hs : Sound n s) (hidle : s.tables.prl p = none)
    (hfd : s.uFilep (p, fd) = some (ip, flag)) (hr : Released s.tables t p ip) :
    Sound n { s with tables := t, uFilep := Function.update s.uFilep (p, fd) none } := by
  have hopens : ∀ q ino, q ≠ p ∨ ino ≠ ip → s.Opens q ino → State.Opens
      { s with tables := t, uFilep := Function.update s.uFilep (p, fd) none } q ino := by
    rintro q ino hne ⟨fd', flag', h⟩
    refine ⟨fd', flag', ?_⟩
    show Function.update s.uFilep (p, fd) none (q, fd') = some (ino, flag')
    rw [Function.update_of_ne, h]
    rintro heq
    obtain ⟨rfl, rfl⟩ := Prod.mk.inj heq
    rw [hfd] at h
    cases h
    exact hne.elim (fun hq => hq rfl) fun hi => hi rfl
  refine ⟨hr.reach, hs.placed.moved hr.moved, fun q hq fd' => ?_, fun ino b hb => ?_,
    fun q ino rl hq => ?_⟩
  · show Function.update s.uFilep (p, fd) none (q, fd') = none
    rw [Function.update_apply]
    split_ifs
    · rfl
    · exact hs.gone q hq fd'
  · by_cases hino : ino = ip
    · subst hino
      obtain ⟨hb, hne⟩ := hr.list b hb
      exact hopens _ _ (Or.inl hne) (hs.owned ino b hb)
    · have hb' : b ∈ s.tables.rl ino := hr.moved.inode ino hino ▸ hb
      exact hopens _ _ (Or.inr hino) (hs.owned ino b hb')
  · have hq' : s.tables.prl q = some (ino, rl) := hr.prl ▸ hq
    have hne : q ≠ p := by
      rintro rfl
      rw [hidle] at hq'
      cases hq'
    exact (hs.pending q ino rl hq').imp_left (hopens q ino (Or.inl hne))

theorem Sound.fdClose (hs : Sound n s) (hidle : s.tables.prl p = none) {size seek : ℤ}
    (h : s.fdClose p fd size seek = some s') : Sound n s' := by
  cases hfd : s.uFilep (p, fd) with
  | none =>
    unfold State.fdClose at h
    rw [hfd] at h
    cases h
    exact hs
  | some file =>
    obtain ⟨ip, flag⟩ := file
    obtain ⟨t, hclose, hr⟩ := fdClose_spec hs hidle hfd size seek
    rw [hclose] at h
    cases h
    exact hs.release hidle hfd hr

/-- A process in `pexit` has no pending lock. -/
theorem Sound.idle (hs : Sound n s) (h : p ∈ s.exiting) : s.tables.prl p = none := by
  by_contra hne
  obtain ⟨⟨ino, rl⟩, hp⟩ := Option.ne_none_iff_exists'.mp hne
  exact (hs.pending p ino rl hp).2 h

/-- The list of an inode that is not open is empty. -/
theorem Sound.unused (hs : Sound n s) (h : s.Unused ip) : s.tables.rl ip = [] := by
  refine List.eq_nil_iff_forall_not_mem.mpr fun b hb => ?_
  obtain ⟨fd, flag, hfd⟩ := hs.owned ip b hb
  by_cases hp : b.rlProc ∈ s.procs
  · exact h b.rlProc hp fd (by rw [hfd]; rfl)
  · rw [hs.gone b.rlProc hp fd] at hfd
    cases hfd

/-- One step keeps the invariant. -/
theorem Sound.step (hs : Sound n s) {e : Event N} (hok : Ok s e)
    (h : step s e = some s') : Sound n s' := by
  cases e with
  | fdOpen p fd ip flag =>
    obtain ⟨⟨hp, hfree⟩, ⟨⟩⟩ := Option.ite_none_right_eq_some.mp h
    exact hs.openFd hp hfree _
  | fdDup p old fd =>
    obtain ⟨⟨hp, hfree⟩, ⟨⟩⟩ := Option.ite_none_right_eq_some.mp h
    exact hs.openFd hp hfree _
  | fcntl p fd size seek cmd flp fuel =>
    obtain ⟨hp, h⟩ := Option.ite_none_right_eq_some.mp h
    cases hfd : s.uFilep (p, fd) with
    | none =>
      rw [hfd] at h
      cases h
      exact hs
    | some file =>
      obtain ⟨ip, flag⟩ := file
      rw [hfd] at h
      obtain ⟨t, ht, ⟨⟩⟩ := Option.map_eq_some_iff.mp h
      have hreach := hs.tables.step (hok ip flag hfd) ht
      rw [Tables.step, if_pos hp.2.2] at ht
      obtain ⟨⟨o, flp', t'⟩, hr, rfl⟩ := Option.map_eq_some_iff.mp ht
      refine hs.setTables ⟨fd, flag, hfd⟩ hp.2.1 hreach (Moved.rlock hp.2.2 hr) ?_
      rcases (rlock_spec hp.2.2 hr).2 with ha | ⟨_, _, _, rfl, -, -⟩
      · exact ha.lists ip
      · exact fun b hb => Or.inl hb
  | wake p signalled fuel =>
    obtain ⟨t, ht, ⟨⟩⟩ := Option.map_eq_some_iff.mp h
    have hreach := hs.tables.step hok ht
    obtain ⟨⟨o, t'⟩, hr, rfl⟩ := Option.map_eq_some_iff.mp ht
    cases hp : s.tables.prl p with
    | none =>
      rw [Tables.waitlockWake, hp] at hr
      cases hr
    | some pending =>
      obtain ⟨ino, rl⟩ := pending
      obtain ⟨hopen, hrun⟩ := hs.pending p ino rl hp
      refine hs.setTables hopen hrun hreach (Moved.waitlockWake hp hr) ?_
      rcases (waitlockWake_spec hs.tables.waits hr).2 with ha | rfl
      · exact ha.lists ino
      · exact fun b hb => Or.inl hb
  | fdClose p fd size seek =>
    obtain ⟨hp, h⟩ := Option.ite_none_right_eq_some.mp h
    exact hs.fdClose hp.2.2 h
  | pfork p c =>
    obtain ⟨⟨hp, hc⟩, ⟨⟩⟩ := Option.ite_none_right_eq_some.mp h
    refine hs.more (fun q hq fd => ?_) fun i x hi => ?_
    · rw [Finset.mem_insert, not_or] at hq
      simp only [if_neg hq.1]
      exact hs.gone q hq.2 fd
    · have hne : i.1 ≠ c := by
        rintro rfl
        rw [hs.gone i.1 hc i.2] at hi
        cases hi
      rw [if_neg hne]
      exact hi
  | pexit p =>
    obtain ⟨hp, ⟨⟩⟩ := Option.ite_none_right_eq_some.mp h
    refine ⟨hs.tables, hs.placed, hs.gone, hs.owned, fun q ino rl hq => ?_⟩
    obtain ⟨hopen, hrun⟩ := hs.pending q ino rl hq
    refine ⟨hopen, fun hmem => ?_⟩
    rcases Finset.mem_insert.mp hmem with rfl | hmem
    · have hnone := hp.2.2
      simp only at hq
      rw [hnone] at hq
      cases hq
    · exact hrun hmem
  | closeNext p size seek =>
    obtain ⟨hp, h⟩ := Option.ite_none_right_eq_some.mp h
    cases hnext : s.nextOpen p with
    | some fd =>
      rw [hnext] at h
      exact hs.fdClose (hs.idle hp) h
    | none =>
      rw [hnext] at h
      cases h
      refine ⟨hs.tables, hs.placed, fun q hq fd => ?_, hs.owned, fun q ino rl hq => ?_⟩
      · by_cases hqp : q = p
        · rw [hqp]
          exact nextOpen_none hnext fd
        · exact hs.gone q (fun hmem => hq (Finset.mem_erase.mpr ⟨hqp, hmem⟩)) fd
      · exact (hs.pending q ino rl hq).imp_right fun hrun hmem =>
          hrun (Finset.mem_of_mem_erase hmem)
  | iattach ip =>
    obtain ⟨hun, ⟨⟩⟩ := Option.ite_none_right_eq_some.mp h
    have hsame : Function.update s.tables.rl ip [] = s.tables.rl := by
      rw [← hs.unused hun, Function.update_eq_self]
    simp only [hsame]
    exact hs

theorem Reach.sound (h : Reach (Initial n) step Ok s) : Sound n s :=
  h.invariant (fun _ => Sound.initial) fun _ _ _ hs => hs.step

/-! ### Closing a file -/

/-- A call of `fd_close` that closes some descriptor of the process. -/
theorem fdClose_closes (hs : Sound n s) (hidle : s.tables.prl p = none) {fd' : Fin N}
    {size seek : ℤ} (h : s.fdClose p fd' size seek = some s') {q : ℕ}
    (hopen : s.uFilep (q, fd) = some (ip, flag)) (hclosed : s'.uFilep (q, fd) = none) :
    ∀ b ∈ s'.tables.rl ip, b.rlProc ≠ q := by
  cases hfd : s.uFilep (p, fd') with
  | none =>
    unfold State.fdClose at h
    rw [hfd] at h
    cases h
    rw [hopen] at hclosed
    cases hclosed
  | some file =>
    obtain ⟨ip', flag'⟩ := file
    obtain ⟨t, hclose, hr⟩ := fdClose_spec hs hidle hfd size seek
    rw [hclose] at h
    cases h
    by_cases heq : (q, fd) = (p, fd')
    · obtain ⟨rfl, rfl⟩ := Prod.mk.inj heq
      rw [hfd] at hopen
      cases hopen
      exact fun b hb => (hr.list b hb).2
    · have hclosed : Function.update s.uFilep (p, fd') none (q, fd) = none := hclosed
      rw [Function.update_of_ne heq, hopen] at hclosed
      cases hclosed

/-- A step that closes a descriptor removes the locks of its process on the file. -/
theorem step_closes (hs : Sound n s) {e : Event N} (h : step s e = some s')
    (hopen : s.uFilep (p, fd) = some (ip, flag)) (hclosed : s'.uFilep (p, fd) = none) :
    ∀ b ∈ s'.tables.rl ip, b.rlProc ≠ p := by
  have hsame : s'.uFilep = s.uFilep → ∀ b ∈ s'.tables.rl ip, b.rlProc ≠ p := by
    intro heq
    rw [heq, hopen] at hclosed
    cases hclosed
  -- a descriptor that was free is not the one that is closed
  have hupdate : ∀ (q : ℕ) (fd' : Fin N) (x : Option (ℕ × ℕ)), s.uFilep (q, fd') = none →
      Function.update s.uFilep (q, fd') x (p, fd) ≠ none := by
    intro q fd' x hfree
    rw [Function.update_of_ne]
    · rw [hopen]
      exact Option.some_ne_none _
    · rintro heq
      rw [heq, hfree] at hopen
      cases hopen
  cases e with
  | fdOpen q fd' ip' flag' =>
    obtain ⟨⟨-, hfree⟩, ⟨⟩⟩ := Option.ite_none_right_eq_some.mp h
    exact absurd hclosed (hupdate q fd' _ hfree)
  | fdDup q old fd' =>
    obtain ⟨⟨-, hfree⟩, ⟨⟩⟩ := Option.ite_none_right_eq_some.mp h
    exact absurd hclosed (hupdate q fd' _ hfree)
  | fcntl q fd' size seek cmd flp fuel =>
    obtain ⟨-, h⟩ := Option.ite_none_right_eq_some.mp h
    cases hfd : s.uFilep (q, fd') with
    | none =>
      rw [hfd] at h
      cases h
      exact hsame rfl
    | some file =>
      rw [hfd] at h
      obtain ⟨t, -, ⟨⟩⟩ := Option.map_eq_some_iff.mp h
      exact hsame rfl
  | wake q signalled fuel =>
    obtain ⟨t, -, ⟨⟩⟩ := Option.map_eq_some_iff.mp h
    exact hsame rfl
  | fdClose q fd' size seek =>
    obtain ⟨hq, h⟩ := Option.ite_none_right_eq_some.mp h
    exact fdClose_closes hs hq.2.2 h hopen hclosed
  | pfork q c =>
    obtain ⟨⟨-, hc⟩, ⟨⟩⟩ := Option.ite_none_right_eq_some.mp h
    have hne : p ≠ c := by
      rintro rfl
      rw [hs.gone p hc fd] at hopen
      cases hopen
    simp only [if_neg hne, hopen] at hclosed
    cases hclosed
  | pexit q =>
    obtain ⟨-, ⟨⟩⟩ := Option.ite_none_right_eq_some.mp h
    exact hsame rfl
  | closeNext q size seek =>
    obtain ⟨hq, h⟩ := Option.ite_none_right_eq_some.mp h
    cases hnext : s.nextOpen q with
    | some fd' =>
      rw [hnext] at h
      exact fdClose_closes hs (hs.idle hq) h hopen hclosed
    | none =>
      rw [hnext] at h
      cases h
      exact hsame rfl
  | iattach ip' =>
    obtain ⟨-, ⟨⟩⟩ := Option.ite_none_right_eq_some.mp h
    exact hsame rfl

theorem fdClose_returns (hs : Sound n s) (hidle : s.tables.prl p = none) (fd : Fin N)
    (size seek : ℤ) : ∃ s', s.fdClose p fd size seek = some s' ∧ s'.uFilep (p, fd) = none := by
  cases hfd : s.uFilep (p, fd) with
  | none => exact ⟨s, by rw [State.fdClose, hfd], hfd⟩
  | some file =>
    obtain ⟨ip, flag⟩ := file
    obtain ⟨t, hclose, -⟩ := fdClose_spec hs hidle hfd size seek
    exact ⟨_, hclose, Function.update_self ..⟩

theorem closeNext_returns (hs : Sound n s) (hp : p ∈ s.exiting) (size seek : ℤ) :
    (step s (.closeNext p size seek)).isSome := by
  show (ite (p ∈ s.exiting) _ none).isSome
  rw [if_pos hp]
  cases hnext : s.nextOpen p with
  | none => rfl
  | some fd =>
    obtain ⟨s', hclose, -⟩ := fdClose_returns hs (hs.idle hp) fd size seek
    simp only [hclose, Option.isSome_some]

/-- **Locks of closed files.** In every run whose steps do not cut a lock to the end of the file
    behind the last offset, each lock entry is in exactly one place, a close always returns, and
    no step that closes a descriptor leaves a lock of its process on the file; a process that is
    gone has no locks. -/
theorem closed_released (h : Reach (Initial n) step Ok s) :
    (∀ a < n, ∃! pl, a ∈ s.tables.entries pl) ∧
    (∀ pl, (s.tables.entries pl).Nodup ∧ ∀ a ∈ s.tables.entries pl, a < n) ∧
    (∀ p (fd : Fin N) size seek, s.Runs p → ∃ s', step s (.fdClose p fd size seek) = some s' ∧
      s'.uFilep (p, fd) = none) ∧
    (∀ p ∈ s.exiting, ∀ size seek, (step s (.closeNext p size seek)).isSome) ∧
    (∀ e s', step s e = some s' → ∀ p fd ip flag, s.uFilep (p, fd) = some (ip, flag) →
      s'.uFilep (p, fd) = none → ∀ b ∈ s'.tables.rl ip, b.rlProc ≠ p) ∧
    ∀ p, p ∉ s.procs → ∀ ino, ∀ b ∈ s.tables.rl ino, b.rlProc ≠ p := by
  have hs := Reach.sound h
  refine ⟨fun a ha => hs.placed.unique ha, fun pl => ⟨hs.placed.nodup pl, fun a =>
    hs.placed.bound⟩, fun p fd size seek hp => ?_, fun p hp => closeNext_returns hs hp,
    fun e s' he p fd ip flag => step_closes hs he, ?_⟩
  · obtain ⟨s', hclose, hnone⟩ := fdClose_returns hs hp.2.2 fd size seek
    exact ⟨s', (if_pos hp).trans hclose, hnone⟩
  · rintro p hp ino b hb rfl
    obtain ⟨fd, flag, hfd⟩ := hs.owned ino b hb
    rw [hs.gone b.rlProc hp fd] at hfd
    cases hfd

/-- Process 1, without open files, and two lock entries. -/
def fresh : State 1 := ⟨rlinit 2, {1}, ∅, fun _ => none⟩

theorem fresh_initial : Initial 2 fresh := ⟨rfl, rfl, fun _ => rfl⟩

/-- Process 1 opens inode 0 and gets a write lock on all of it. -/
def lockAll : List (Event 1) :=
  [.fdOpen 1 0 0 6, .fcntl 1 0 0 0 .F_SETLK ⟨F_WRLCK, 0, 0, 0, 0⟩ 1]

/-- The lock is gone after the close. -/
theorem closed_released_lockAll : ∃ s s', runFrom step fresh lockAll = some s ∧
    s.tables.rl 0 = [⟨0, true, 0, -1, 1⟩] ∧ step s (.fdClose 1 0 0 0) = some s' ∧
    ∀ b ∈ s'.tables.rl 0, b.rlProc ≠ 1 := by
  have heval : (runFrom step fresh lockAll).any (fun s =>
      decide (s.tables.rl 0 = [⟨0, true, 0, -1, 1⟩] ∧ s.uFilep (1, 0) = some (0, 6) ∧
        s.Runs 1)) = true := by
    decide +kernel
  obtain ⟨s, hrun, hs⟩ := (Option.any_eq_true _ _).mp heval
  obtain ⟨hlist, hfd, hruns⟩ := of_decide_eq_true hs
  have hreach : Reach (Initial 2) step Ok s := by
    obtain ⟨t, ht, hlock⟩ := Option.bind_eq_some_iff.mp hrun
    obtain ⟨u, hu, ⟨⟩⟩ := Option.bind_eq_some_iff.mp hlock
    have hok : Ok fresh (.fdOpen 1 0 0 6) := trivial
    have hopen := (Reach.init fresh_initial).step hok ht
    have htables : t.tables = rlinit 2 := by
      have hopened : step fresh (.fdOpen 1 0 0 6) = some { fresh with
          uFilep := Function.update fresh.uFilep (1, 0) (some (0, 6)) } := by
        rw [step, if_pos (by decide)]
      rw [hopened] at ht
      cases ht
      rfl
    have hlockOk : Ok t (.fcntl 1 0 0 0 .F_SETLK ⟨F_WRLCK, 0, 0, 0, 0⟩ 1) := by
      intro ip flag _
      rw [htables]
      -- there is no lock yet
      rintro ⟨range, -, -, hgrants⟩
      rw [if_neg (show F_WRLCK ≠ F_UNLCK by decide)] at hgrants
      obtain ⟨-, -, -, -, b, hb, -⟩ := hgrants
      cases hb
    exact hopen.step hlockOk hu
  obtain ⟨-, -, hclose, -, hclosed, -⟩ := closed_released hreach
  obtain ⟨s', hs', hnone⟩ := hclose 1 0 0 0 hruns
  exact ⟨s, s', hrun, hlist, hs', hclosed _ s' hs' 1 0 0 6 hfd hnone⟩

/-- Process 1 locks all of inode 0 and unlocks the last offset: the start of what is left is
    negative, and `fd_close` cuts that lock, which runs to the end of the file, to end there. -/
theorem closed_not_released : ¬ ∀ s : State 1, Reach (Initial 2) step (fun _ _ => True) s →
    ∀ e s', step s e = some s' → ∀ p fd ip flag, s.uFilep (p, fd) = some (ip, flag) →
      s'.uFilep (p, fd) = none → ∀ b ∈ s'.tables.rl ip, b.rlProc ≠ p := by
  intro hall
  have heval : (runFrom step fresh (lockAll ++
      [.fcntl 1 0 0 0 .F_SETLK ⟨F_UNLCK, 0, 2 ^ 31 - 1, 1, 0⟩ 1])).any (fun s =>
        decide (s.uFilep (1, 0) = some (0, 6)) && (step s (.fdClose 1 0 0 0)).any fun s' =>
          decide (s'.uFilep (1, 0) = none ∧ s'.tables.rl 0 = [⟨1, true, -2 ^ 31, -1, 1⟩])) =
      true := by
    decide +kernel
  obtain ⟨s, hrun, hs⟩ := (Option.any_eq_true _ _).mp heval
  obtain ⟨hfd, hs'⟩ := (Bool.and_eq_true _ _).mp hs
  obtain ⟨s', hclose, hs'⟩ := (Option.any_eq_true _ _).mp hs'
  obtain ⟨hnone, hlist⟩ := of_decide_eq_true hs'
  refine hall s (Reach.run (fun _ _ => trivial) (Reach.init fresh_initial) hrun) _ s' hclose 1 0 0
    6 (of_decide_eq_true hfd) hnone ⟨1, true, -2 ^ 31, -1, 1⟩ ?_ rfl
  rw [hlist]
  exact List.mem_singleton_self _

end CohKernel.Rlock
