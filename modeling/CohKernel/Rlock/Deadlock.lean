import CohKernel.Lib.Waits
import CohKernel.Rlock.Runs

namespace CohKernel.Rlock

open CohKernel.Lib Relation

/-!
# Deadlocks

A process whose pending lock is blocked waits for the owners of the locks in its way.  Only a
process that is awake changes its locks, and only its own ones, so new edges lead to a process
that waits for nobody; `waitlock` searches the edges out of a process before it sleeps.

* `Tables.waitsFor` — the processes that a process waits for;
* `reachable_acyclic` — nobody ever waits for himself, every step ends, and `EDEADLK` is returned
  when a sleep would close a cycle and there is a lock structure for it;
* `exhausted_no_deadlock` — what is returned when there is none.
-/

variable {s s' : Tables} {ino self fuel : ℕ} {lock rl : RLock} {o : Outcome}

/-! ### The processes that a process waits for -/

/-- The owners of the locks that block the pending lock of a process. -/
def Tables.waitsFor (s : Tables) (p : ℕ) : List ℕ :=
  match s.prl p with
  | none => []
  | some (ino, lock) => ((s.rl ino).filter (blocks lock)).map (·.rlProc)

/-- Process `p` waits for process `q`. -/
def Tables.WaitsFor (s : Tables) (p q : ℕ) : Prop := q ∈ s.waitsFor p

/-- The process has the lock pending. -/
def Tables.pend (s : Tables) (self ino : ℕ) (lock : RLock) : Tables :=
  { s with prl := Function.update s.prl self (some (ino, lock)) }

@[simp] theorem pend_self (s : Tables) (self ino : ℕ) (lock : RLock) :
    (s.pend self ino lock).prl self = some (ino, lock) := Function.update_self ..

theorem waitsFor_none {p : ℕ} (h : s.prl p = none) : s.waitsFor p = [] := by
  unfold Tables.waitsFor
  rw [h]

theorem waitsFor_some {p : ℕ} (h : s.prl p = some (ino, lock)) :
    s.waitsFor p = ((s.rl ino).filter (blocks lock)).map (·.rlProc) := by
  unfold Tables.waitsFor
  rw [h]

theorem waitsFor_iff {p q : ℕ} : s.WaitsFor p q ↔
    ∃ ino lock, s.prl p = some (ino, lock) ∧ ∃ b ∈ s.rl ino, blocks lock b = true ∧ b.rlProc =
      q := by
  unfold Tables.WaitsFor
  cases hp : s.prl p with
  | none => simp [waitsFor_none hp]
  | some r =>
    obtain ⟨ino, lock⟩ := r
    rw [waitsFor_some hp]
    simp [and_assoc]

theorem anyM_map {α β : Type} (f : α → β) (p : β → Option Bool) (l : List α) :
    (l.map f).anyM p = l.anyM fun a => p (f a) := by
  induction l with
  | nil => rfl
  | cons a l ih =>
    rw [List.map_cons, List.anyM, List.anyM, ih]

/-- **`waiting`** is a search. -/
theorem waiting_eq (s : Tables) (self fuel pp : ℕ) :
    waiting s self fuel pp = search s.waitsFor self fuel pp := by
  induction fuel generalizing pp with
  | zero => rfl
  | succ fuel ih =>
    unfold waiting search
    cases hp : s.prl pp with
    | none =>
      rw [waitsFor_none hp]
      rfl
    | some r =>
      rw [waitsFor_some hp, anyM_map]
      simp only [ih]

/-- A lock is not blocked by a lock of the same process. -/
theorem blocks_proc {b : RLock} (h : blocks lock b = true) : b.rlProc ≠ lock.rlProc := by
  unfold blocks at h
  simp only [Bool.and_eq_true, decide_eq_true_eq] at h
  exact Ne.symm h.1.2

/-- The check before a sleep is a search for the process itself. -/
theorem deadlocked_eq (hp : s.prl self = some (ino, rl)) (hproc : rl.rlProc = self) :
    deadlocked s self fuel ino rl = search s.waitsFor self (fuel + 1) self := by
  unfold deadlocked search
  rw [waitsFor_some hp, anyM_map]
  -- the owner of a blocking lock is another process
  have hne : ∀ b ∈ (s.rl ino).filter (blocks rl), b.rlProc ≠ self := by
    intro b hb
    rw [← hproc]
    exact blocks_proc (List.mem_filter.mp hb).2
  generalize (s.rl ino).filter (blocks rl) = l at hne
  induction l with
  | nil => rfl
  | cons b l ih =>
    obtain ⟨hb, hl⟩ := List.forall_mem_cons.mp hne
    rw [List.anyM, List.anyM, ih hl, if_neg hb, waiting_eq]

/-! ### The lists -/

/-- `extract` makes locks of the same process. -/
theorem extract_proc (old new : RLock) (freerl : List ℕ) :
    match extract old new freerl with
    | .keep old' => old'.rlProc = old.rlProc
    | .split old' lock freerl' => old'.rlProc = old.rlProc ∧ lock.rlProc = old.rlProc ∧
        freerl'.length < freerl.length
    | _ => True := by
  unfold extract
  by_cases hfront : new.rlStart ≤ old.rlStart
  · rw [if_pos hfront]
    split_ifs <;> trivial
  · rw [if_neg hfront]
    simp only
    split_ifs
    · rfl
    · cases freerl with
      | nil => trivial
      | cons a freerl => exact ⟨rfl, rfl, Nat.lt_succ_self _⟩

/-- The locks of a list are those of another one, or belong to the process. -/
def OwnChanges (p : ℕ) (list list' : List RLock) : Prop := ∀ b ∈ list', b ∈ list ∨ b.rlProc = p

theorem OwnChanges.cons {p : ℕ} {list list' : List RLock} {b b' : RLock}
    (h : OwnChanges p list list') (hb : b' = b ∨ b'.rlProc = p) :
    OwnChanges p (b :: list) (b' :: list') := by
  intro c hc
  rcases List.mem_cons.mp hc with rfl | hc
  · rcases hb with rfl | hb
    · exact Or.inl List.mem_cons_self
    · exact Or.inr hb
  · exact (h c hc).imp_left (List.mem_cons_of_mem _)

theorem OwnChanges.trans {p : ℕ} {list list' list'' : List RLock} (h : OwnChanges p list list')
    (h' : OwnChanges p list' list'') : OwnChanges p list list'' := by
  intro c hc
  rcases h' c hc with hc | hc
  · exact h c hc
  · exact Or.inr hc

/-- `remlock` returns, and changes no lock of another process. -/
theorem remlockLoop_own (lock : RLock) : ∀ (fuel : ℕ) (list : List RLock) (freerl : List ℕ),
    2 * list.length + freerl.length < fuel → ∃ r list' freerl',
      remlockLoop lock fuel list freerl = some (r, list', freerl') ∧
      OwnChanges lock.rlProc list list' := by
  intro fuel
  induction fuel with
  | zero => exact fun _ _ hf => absurd hf (Nat.not_lt_zero _)
  | succ fuel ih =>
    intro list freerl hf
    cases list with
    | nil => exact ⟨0, [], freerl, rfl, fun b hb => Or.inl hb⟩
    | cons block rest =>
      rw [List.length_cons] at hf
      unfold remlockLoop
      by_cases hskip : meets lock block = false ∨ block.rlProc ≠ lock.rlProc
      · obtain ⟨r, l', f', hr, hs⟩ := ih rest freerl (by omega)
        rw [if_pos hskip, hr]
        exact ⟨r, block :: l', f', rfl, hs.cons (Or.inl rfl)⟩
      rw [if_neg hskip]
      have hproc : block.rlProc = lock.rlProc := not_not.mp fun hc => hskip (Or.inr hc)
      have hext := extract_proc block lock freerl
      cases hx : extract block lock freerl with
      | free =>
        obtain ⟨r, l', f', hr, hs⟩ := ih rest (block.entry :: freerl)
          (by rw [List.length_cons]; omega)
        exact ⟨r, l', f', hr, fun b hb => (hs b hb).imp_left (List.mem_cons_of_mem _)⟩
      | keep old =>
        rw [hx] at hext
        obtain ⟨r, l', f', hr, hs⟩ := ih rest freerl (by omega)
        simp only [hr]
        exact ⟨r, old :: l', f', rfl, hs.cons (Or.inr (hext.trans hproc))⟩
      | split old new freerl' =>
        rw [hx] at hext
        obtain ⟨hold, hnew, hlen⟩ := hext
        obtain ⟨r, l', f', hr, hs⟩ := ih (new :: rest) freerl' (by rw [List.length_cons]; omega)
        simp only [hr]
        refine ⟨r, old :: l', f', rfl, OwnChanges.cons (fun b hb => ?_)
          (Or.inr (hold.trans hproc))⟩
        rcases hs b hb with hb | hb
        · rcases List.mem_cons.mp hb with rfl | hb
          · exact Or.inr (hnew.trans hproc)
          · exact Or.inl hb
        · exact Or.inr hb
      | fail => exact ⟨-1, block :: rest, freerl, rfl, fun b hb => Or.inl hb⟩

theorem remlock_own (list : List RLock) (lock : RLock) (freerl : List ℕ) : ∃ r list' freerl',
    remlock list lock freerl = some (r, list', freerl') ∧ OwnChanges lock.rlProc list list' :=
  remlockLoop_own lock _ list freerl (by omega)

theorem mergeLoop_own (wide : RLock) : ∀ (list : List RLock) (top bot : ℤ) (freerl : List ℕ),
    ∀ b ∈ (mergeLoop wide list top bot freerl).2.2.1, b ∈ list := by
  intro list
  induction list with
  | nil => exact fun _ _ _ _ hb => hb
  | cons block rest ih =>
    intro top bot freerl b hb
    unfold mergeLoop at hb
    by_cases hm : meets wide block ∧ block.rlProc = wide.rlProc ∧ block.rlType = wide.rlType
    · rw [if_pos hm] at hb
      exact List.mem_cons_of_mem _ (ih _ _ _ b hb)
    · rw [if_neg hm] at hb
      rcases List.mem_cons.mp hb with rfl | hb
      · exact List.mem_cons_self
      · exact List.mem_cons_of_mem _ (ih _ _ _ b hb)

/-- `addlock` returns, and changes no lock of another process. -/
theorem addlock_own (list : List RLock) (lock : RLock) (freerl : List ℕ) :
    ∃ r err list' freerl', addlock list lock freerl = some (r, err, list', freerl') ∧
      err ≠ some .EDEADLK ∧ OwnChanges lock.rlProc list list' := by
  unfold addlock
  have hmerge : OwnChanges lock.rlProc list
      (mergeLoop (widen lock) list lock.rlStart lock.rlEnd freerl).2.2.1 :=
    fun b hb => Or.inl (mergeLoop_own _ _ _ _ _ b hb)
  revert hmerge
  generalize mergeLoop (widen lock) list lock.rlStart lock.rlEnd freerl = m
  obtain ⟨top, bot, list₁, freerl₁⟩ := m
  intro hmerge
  cases freerl₁ with
  | nil => exact ⟨_, _, _, _, rfl, by simp, hmerge⟩
  | cons a freerl₁ =>
    obtain ⟨r, list₂, freerl₂, hrem, hown⟩ := remlock_own list₁
      { entry := a, rlType := lock.rlType, rlProc := lock.rlProc, rlStart := top, rlEnd := bot }
      freerl₁
    refine ⟨0, if r = 0 then none else some .ENOLCK, _, freerl₂, by simp only [hrem]; rfl, ?_,
      fun b hb => ?_⟩
    · split_ifs <;> simp
    · rcases List.mem_cons.mp hb with rfl | hb
      · exact Or.inr rfl
      · exact hmerge.trans hown b hb

/-! ### Steps -/

/-- The invariant of a run. -/
structure Waits (s : Tables) : Prop where
  acyclic : Acyclic s.WaitsFor
  finite : {p | s.prl p ≠ none}.Finite
  own : ∀ p ino rl, s.prl p = some (ino, rl) → rl.rlProc = p

/-- The step of a process that is awake at its end: its own locks have changed. -/
structure Awake (s s' : Tables) (pid : ℕ) : Prop where
  idle : s'.prl pid = none
  other : ∀ p, p ≠ pid → s'.prl p = s.prl p
  lists : ∀ ino, OwnChanges pid (s.rl ino) (s'.rl ino)

/-- **A process that is awake** closes no cycle: the new edges lead to it. -/
theorem Waits.awake (hw : Waits s) (ha : Awake s s' self) : Waits s' := by
  have hprl : ∀ p ino rl, s'.prl p = some (ino, rl) → s.prl p = some (ino, rl) := by
    intro p ino rl hp
    by_cases hself : p = self
    · rw [hself, ha.idle] at hp
      cases hp
    · rw [← ha.other p hself]
      exact hp
  refine ⟨hw.acyclic.of_sink (d := self) (fun a b hab => ?_) fun b hb => ?_,
    hw.finite.subset fun p hp => ?_, fun p ino rl hp => hw.own p ino rl (hprl p ino rl hp)⟩
  · obtain ⟨ino, rl, hp, c, hc, hblk, rfl⟩ := waitsFor_iff.mp hab
    rcases ha.lists ino c hc with hc | hc
    · exact Or.inl (waitsFor_iff.mpr ⟨ino, rl, hprl a ino rl hp, c, hc, hblk, rfl⟩)
    · exact Or.inr hc
  · obtain ⟨ino, rl, hp, -⟩ := waitsFor_iff.mp hb
    rw [ha.idle] at hp
    cases hp
  · obtain ⟨⟨ino, rl⟩, hs⟩ := Option.ne_none_iff_exists'.mp hp
    rw [Set.mem_ofPred_eq, hprl p ino rl hs]
    exact Option.some_ne_none _

theorem Awake.refl (h : s.prl self = none) : Awake s s self :=
  ⟨h, fun _ _ => rfl, fun _ _ hb => Or.inl hb⟩

theorem Awake.cleanup (s : Tables) (self : ℕ) (rl : RLock) : Awake s (s.cleanup self rl) self :=
  ⟨Function.update_self .., fun _ hp => Function.update_of_ne hp .., fun _ _ hb => Or.inl hb⟩

/-- A new list of the process for one inode. -/
theorem Awake.put (ha : Awake s s' self) {list : List RLock} {freerl : List ℕ}
    (hown : OwnChanges self (s'.rl ino) list) :
    Awake s { s' with rl := Function.update s'.rl ino list, freerl := freerl } self := by
  refine ⟨ha.idle, ha.other, fun i => ?_⟩
  simp only [Function.update_apply]
  split_ifs with hi
  · rw [hi]
    exact (ha.lists ino).trans hown
  · exact ha.lists i

theorem Awake.addlock (ha : Awake s s' self) (ino : ℕ) (hproc : lock.rlProc = self) :
    ∃ o t, s'.addlock ino lock = some (o, t) ∧ o ≠ .done (-1) (some .EDEADLK) ∧
      Awake s t self := by
  obtain ⟨r, err, list', freerl', hadd, herr, hown⟩ := addlock_own (s'.rl ino) lock s'.freerl
  refine ⟨_, _, by simp only [Tables.addlock, hadd]; rfl, fun hc => ?_, ha.put (hproc ▸ hown)⟩
  cases hc
  exact herr rfl

theorem Awake.remlock (ha : Awake s s' self) (ino : ℕ) (hproc : lock.rlProc = self) :
    ∃ o t, s'.remlock ino lock = some (o, t) ∧ Awake s t self := by
  obtain ⟨r, list', freerl', hrem, hown⟩ := remlock_own (s'.rl ino) lock s'.freerl
  exact ⟨_, _, by simp only [Tables.remlock, hrem]; rfl, ha.put (hproc ▸ hown)⟩

/-! ### Before a sleep -/

/-- What a process that has a lock pending is about to do: sleep, or give up because its sleep
    would close a cycle. -/
theorem sleepFor_spec (hp : s.prl self = some (ino, rl)) (hproc : rl.rlProc = self)
    (h : s.sleepFor self fuel ino rl = some (o, s')) :
    o = .sleep ∧ s' = s ∧ ¬ TransGen s.WaitsFor self self ∨
      o = .done (-1) (some .EDEADLK) ∧ s' = s.cleanup self rl ∧ TransGen s.WaitsFor self self := by
  unfold Tables.sleepFor at h
  rw [deadlocked_eq hp hproc] at h
  obtain ⟨dead, hdead, h⟩ := Option.bind_eq_some_iff.mp h
  cases dead with
  | true =>
    cases h
    exact Or.inr ⟨rfl, rfl, search_true hdead⟩
  | false =>
    cases h
    exact Or.inl ⟨rfl, rfl, search_false hdead⟩

/-- The recursion of `waiting` ends. -/
theorem sleepFor_ends (hacyc : Acyclic fun a b => s.WaitsFor a b ∧ a ≠ self)
    (hfin : {p | s.prl p ≠ none}.Finite) (ino : ℕ) (hproc : rl.rlProc = self) :
    ∃ F, ∀ fuel ≥ F, s.sleepFor self fuel ino rl ≠ none := by
  refine ⟨hfin.toFinset.card + 1, fun fuel hfuel => ?_⟩
  have hdead : deadlocked s self fuel ino rl ≠ none := by
    refine anyM_ne_none fun b hb => ?_
    rw [waiting_eq]
    refine search_ne_none hacyc hfin.toFinset b.rlProc (fun x _ hx => ?_)
      (hproc ▸ blocks_proc (List.mem_filter.mp hb).2) (by omega)
    rw [Set.Finite.mem_toFinset]
    exact fun hc => hx (waitsFor_none hc)
  obtain ⟨dead, hdead⟩ := Option.ne_none_iff_exists'.mp hdead
  unfold Tables.sleepFor
  rw [hdead, Option.bind_eq_bind, Option.bind_some]
  split_ifs <;> exact Option.some_ne_none _

/-- A process that has not slept yet, with a lock pending. -/
theorem pend_other {p : ℕ} (hp : p ≠ self) (q : ℕ) :
    (s.pend self ino lock).WaitsFor p q ↔ s.WaitsFor p q := by
  rw [waitsFor_iff, waitsFor_iff]
  unfold Tables.pend
  simp only [Function.update_of_ne hp]

theorem Waits.pend (hw : Waits s) (hproc : lock.rlProc = self)
    (hcyc : ¬ TransGen (s.pend self ino lock).WaitsFor self self) :
      Waits (s.pend self ino lock) := by
  refine ⟨?_, ?_, fun p i rl hp => ?_⟩
  · by_contra hc
    refine hcyc ((cyclic_iff hw.acyclic fun a b hab => ?_).mp hc)
    by_cases ha : a = self
    · exact Or.inr ha
    · exact Or.inl ((pend_other ha b).mp hab)
  · refine (hw.finite.insert self).subset fun p hp => ?_
    by_cases hself : p = self
    · exact Or.inl hself
    · right
      simp only [Tables.pend, Set.mem_ofPred_eq, Function.update_of_ne hself] at hp
      exact hp
  · simp only [Tables.pend, Function.update_apply] at hp
    split_ifs at hp with hself
    · cases hp
      rw [hself]
      exact hproc
    · exact hw.own p i rl hp

/-! ### Calls and wake-ups -/

/-- The process sleeps, and its sleep closes no cycle. -/
def Asleep (s s' : Tables) (self : ℕ) : Prop :=
  ∃ ino rl freerl, s' = ({ s with freerl := freerl } : Tables).pend self ino rl ∧ rl.rlProc = self ∧
    ¬ TransGen (s.pend self ino rl).WaitsFor self self

theorem Waits.asleep (hw : Waits s) (ha : Asleep s s' self) : Waits s' := by
  obtain ⟨ino, rl, freerl, rfl, hproc, hcyc⟩ := ha
  have hw' : Waits { s with freerl := freerl } := ⟨hw.acyclic, hw.finite, hw.own⟩
  exact hw'.pend hproc hcyc

/-- The address of a pending lock makes no difference. -/
theorem pend_entry (s : Tables) (self ino : ℕ) (lock : RLock) (a : ℕ) :
    (s.pend self ino { lock with entry := a }).WaitsFor = (s.pend self ino lock).WaitsFor := by
  funext p q
  rw [eq_iff_iff, waitsFor_iff, waitsFor_iff]
  unfold Tables.pend
  simp only [Function.update_apply]
  by_cases hp : p = self
  · simp only [if_pos hp, Option.some.injEq, Prod.mk.injEq, and_assoc, exists_eq_left',
      exists_and_left]
    exact Iff.rfl
  · simp only [if_neg hp]

/-- A lock that nothing blocks waits for nobody. -/
theorem pend_free (hfree : nextblock lock (s.rl ino) = []) :
    ¬ TransGen (s.pend self ino lock).WaitsFor self self := by
  intro hc
  obtain ⟨b, hb, -⟩ := TransGen.head'_iff.mp hc
  obtain ⟨i, rl, hp, e, he, hblk, -⟩ := waitsFor_iff.mp hb
  rw [pend_self] at hp
  cases hp
  rw [nextblock_eq_nil.mp hfree e he] at hblk
  cases hblk

/-- **`waitlock`** fails with `EDEADLK` when a sleep would close a cycle. -/
theorem waitlock_spec (hp : s.prl self = none) (hproc : lock.rlProc = self)
    (h : s.waitlock self fuel ino lock = some (o, s')) :
    (o = .done (-1) (some .EDEADLK) ↔
      s.freerl ≠ [] ∧ TransGen (s.pend self ino lock).WaitsFor self self) ∧
    (Awake s s' self ∨ Asleep s s' self) := by
  unfold Tables.waitlock at h
  by_cases hfree : nextblock lock (s.rl ino) = []
  · rw [if_neg (not_not.mpr hfree)] at h
    obtain ⟨o₁, t, hadd, hne, ha⟩ := (Awake.refl hp).addlock ino hproc
    rw [hadd] at h
    cases h
    exact ⟨iff_of_false hne fun hc => pend_free hfree hc.2, Or.inl ha⟩
  rw [if_pos hfree] at h
  cases hf : s.freerl with
  | nil =>
    rw [hf] at h
    cases h
    exact ⟨iff_of_false (by simp) fun hc => hc.1 rfl, Or.inl (Awake.refl hp)⟩
  | cons a freerl =>
    simp only [hf] at h
    have hprl := pend_self { s with freerl := freerl } self ino { lock with entry := a }
    have hwaits : (({ s with freerl := freerl } : Tables).pend self ino
        { lock with entry := a }).WaitsFor = (s.pend self ino lock).WaitsFor :=
      pend_entry s self ino lock a
    rcases sleepFor_spec hprl hproc h with ⟨rfl, rfl, hcyc⟩ | ⟨rfl, rfl, hcyc⟩
    · rw [hwaits] at hcyc
      refine ⟨iff_of_false (by simp) fun hc => hcyc hc.2,
        Or.inr ⟨ino, { lock with entry := a }, freerl, rfl, hproc, ?_⟩⟩
      rw [pend_entry]
      exact hcyc
    · rw [hwaits] at hcyc
      refine ⟨iff_of_true rfl ⟨List.cons_ne_nil _ _, hcyc⟩, Or.inl ⟨?_, fun p hne => ?_,
        fun _ _ hb => Or.inl hb⟩⟩
      · exact Function.update_self ..
      · simp only [Tables.cleanup, Tables.pend, Function.update_of_ne hne]

/-- A wake-up never fails with `EDEADLK`. -/
theorem waitlockWake_spec (hw : Waits s) {signalled : Bool}
    (h : s.waitlockWake self fuel signalled = some (o, s')) :
    o ≠ .done (-1) (some .EDEADLK) ∧ (Awake s s' self ∨ s' = s) := by
  unfold Tables.waitlockWake at h
  cases hp : s.prl self with
  | none =>
    rw [hp] at h
    cases h
  | some r =>
    obtain ⟨ino, rl⟩ := r
    have hproc := hw.own self ino rl hp
    rw [hp] at h
    simp only at h
    split_ifs at h with hsig hfree
    · cases h
      exact ⟨by simp, Or.inl (Awake.cleanup s self rl)⟩
    · rcases sleepFor_spec hp hproc h with ⟨rfl, rfl, -⟩ | ⟨-, -, hcyc⟩
      · exact ⟨by simp, Or.inr rfl⟩
      · exact absurd hcyc (hw.acyclic self)
    · obtain ⟨o₁, t, hadd, hne, ha⟩ := (Awake.cleanup s self rl).addlock ino hproc
      rw [hadd] at h
      cases h
      exact ⟨hne, Or.inl ha⟩

/-- The descriptor is open for the lock. -/
def Permits (fdp : FileDesc) (srl : RLock) : Prop :=
  ¬((srl.rlType = true ∧ fdp.flag &&& IPW = 0) ∨ (srl.rlType = false ∧ fdp.flag &&& IPR = 0))

/-- A call of `rlock`. -/
theorem rlock_spec (hp : s.prl self = none) {fdp : FileDesc} {cmd : Cmd} {flp flp' : Flock}
    (h : rlock s self fuel fdp cmd flp = some (o, flp', s')) :
    (cmd = .F_SETLKW → (o = .done (-1) (some .EDEADLK) ↔ ∃ range, lockRange fdp flp = some range ∧
      flp.lType ≠ F_UNLCK ∧ Permits fdp (requested self flp range) ∧ s.freerl ≠ [] ∧
      TransGen (s.pend self fdp.ip (requested self flp range)).WaitsFor self self)) ∧
    (Awake s s' self ∨ Asleep s s' self) := by
  unfold Rlock.rlock at h
  cases hr : lockRange fdp flp with
  | none =>
    rw [hr] at h
    cases h
    exact ⟨fun _ => iff_of_false (by simp) fun ⟨_, hc, _⟩ => (by cases hc), Or.inl (Awake.refl hp)⟩
  | some range =>
    rw [hr] at h
    simp only at h
    split_ifs at h with hget hun hflag hwait hfree
    · cases h
      exact ⟨fun hc => (by rw [hget] at hc; cases hc), Or.inl (Awake.refl hp)⟩
    · obtain ⟨⟨o₁, t⟩, hrem, heq⟩ := Option.map_eq_some_iff.mp h
      cases heq
      obtain ⟨o₂, t₂, hrem', ha⟩ := (Awake.refl hp).remlock fdp.ip
        (show (requested self flp range).rlProc = self from rfl)
      rw [hrem'] at hrem
      cases hrem
      refine ⟨fun _ => iff_of_false ?_ fun ⟨_, _, hne, _⟩ => hne hun, Or.inl ha⟩
      unfold Tables.remlock at hrem'
      obtain ⟨⟨r, l, f⟩, -, heq⟩ := Option.bind_eq_some_iff.mp hrem'
      cases heq
      split_ifs <;> simp
    · cases h
      refine ⟨fun _ => iff_of_false (by simp) fun ⟨range', hr', _, hperm, _⟩ => ?_,
        Or.inl (Awake.refl hp)⟩
      cases hr'
      exact hperm hflag
    · obtain ⟨⟨o₁, t⟩, hset, heq⟩ := Option.map_eq_some_iff.mp h
      cases heq
      obtain ⟨hiff, hmoved⟩ := waitlock_spec hp rfl hset
      refine ⟨fun _ => hiff.trans ⟨fun hc => ⟨range, rfl, hun, hflag, hc⟩, ?_⟩, hmoved⟩
      rintro ⟨range', hr', -, -, hc⟩
      cases hr'
      exact hc
    · obtain ⟨⟨o₁, t⟩, hset, heq⟩ := Option.map_eq_some_iff.mp h
      cases heq
      obtain ⟨o₂, t₂, hadd, -, ha⟩ := (Awake.refl hp).addlock fdp.ip
        (show (requested self flp range).rlProc = self from rfl)
      rw [hadd] at hset
      cases hset
      exact ⟨fun hc => absurd hc hwait, Or.inl ha⟩
    · cases h
      exact ⟨fun hc => absurd hc hwait, Or.inl (Awake.refl hp)⟩

/-- One step keeps the invariant. -/
theorem Waits.step (hw : Waits s) {e : Step} (h : s.step fuel e = some s') : Waits s' := by
  cases e with
  | call self fdp cmd flp =>
    simp only [Tables.step] at h
    split_ifs at h with hp
    obtain ⟨⟨o, flp', t⟩, hr, rfl⟩ := Option.map_eq_some_iff.mp h
    rcases (rlock_spec hp hr).2 with ha | ha
    · exact hw.awake ha
    · exact hw.asleep ha
  | wake self signalled =>
    obtain ⟨⟨o, t⟩, hr, rfl⟩ := Option.map_eq_some_iff.mp h
    rcases (waitlockWake_spec hw hr).2 with ha | rfl
    · exact hw.awake ha
    · exact hw

theorem Reachable.waits {ok : Tables → Step → Prop} (h : Reachable ok s) : Waits s := by
  induction h with
  | rlinit n =>
    refine ⟨fun a hc => ?_, ?_, fun p ino rl hp => by cases hp⟩
    · obtain ⟨b, hb, -⟩ := TransGen.head'_iff.mp hc
      cases hb
    · exact Set.finite_empty.subset fun p hp => hp rfl
  | step _ _ hstep ih => exact ih.step hstep

/-! ### Every step ends -/

/-- The process can make the step: it is awake for a call, asleep for a wake-up. -/
def Tables.Ready (s : Tables) : Step → Prop
  | .call self _ _ _ => s.prl self = none
  | .wake self _ => s.prl self ≠ none

theorem waitlock_ends (hw : Waits s) (ino : ℕ) (hproc : lock.rlProc = self)
    (hp : s.prl self = none) : ∃ F, ∀ fuel ≥ F, s.waitlock self fuel ino lock ≠ none := by
  unfold Tables.waitlock
  by_cases hfree : nextblock lock (s.rl ino) = []
  · obtain ⟨o, t, hadd, -, -⟩ := (Awake.refl hp).addlock ino hproc
    refine ⟨0, fun fuel _ => ?_⟩
    rw [if_neg (not_not.mpr hfree), hadd]
    exact Option.some_ne_none _
  simp only [ne_eq, hfree, not_false_eq_true, if_true]
  cases s.freerl with
  | nil => exact ⟨0, fun _ _ => Option.some_ne_none _⟩
  | cons a freerl =>
    refine sleepFor_ends
      (s := ({ s with freerl := freerl } : Tables).pend self ino { lock with entry := a })
      (hw.acyclic.mono fun p q hpq => ?_) ?_ ino hproc
    · exact (pend_other hpq.2 q).mp hpq.1
    · refine (hw.finite.insert self).subset fun p hp' => ?_
      by_cases hself : p = self
      · exact Or.inl hself
      · right
        simp only [Tables.pend, Set.mem_ofPred_eq, Function.update_of_ne hself] at hp'
        exact hp'

theorem rlock_ends (hw : Waits s) (hp : s.prl self = none) (fdp : FileDesc) (cmd : Cmd)
    (flp : Flock) : ∃ F, ∀ fuel ≥ F, rlock s self fuel fdp cmd flp ≠ none := by
  unfold Rlock.rlock
  cases lockRange fdp flp with
  | none => exact ⟨0, fun _ _ => Option.some_ne_none _⟩
  | some range =>
    have hproc : (requested self flp range).rlProc = self := rfl
    obtain ⟨F, hF⟩ := waitlock_ends hw fdp.ip hproc hp
    obtain ⟨_, _, hadd, -, -⟩ := (Awake.refl hp).addlock fdp.ip hproc
    obtain ⟨_, _, hrem, -⟩ := (Awake.refl hp).remlock fdp.ip hproc
    refine ⟨F, fun fuel hfuel => ?_⟩
    simp only
    split_ifs
    · exact Option.some_ne_none _
    · rw [hrem]
      exact Option.some_ne_none _
    · exact Option.some_ne_none _
    · obtain ⟨r, hr⟩ := Option.ne_none_iff_exists'.mp (hF fuel hfuel)
      rw [hr]
      exact Option.some_ne_none _
    · rw [hadd]
      exact Option.some_ne_none _
    · exact Option.some_ne_none _

theorem waitlockWake_ends (hw : Waits s) (hp : s.prl self ≠ none) (signalled : Bool) :
    ∃ F, ∀ fuel ≥ F, s.waitlockWake self fuel signalled ≠ none := by
  obtain ⟨⟨ino, rl⟩, hp⟩ := Option.ne_none_iff_exists'.mp hp
  have hproc := hw.own self ino rl hp
  obtain ⟨F, hF⟩ := sleepFor_ends (hw.acyclic.mono fun _ _ h => h.1) hw.finite ino hproc
  obtain ⟨_, _, hadd, -, -⟩ := (Awake.cleanup s self rl).addlock ino hproc
  refine ⟨F, fun fuel hfuel => ?_⟩
  unfold Tables.waitlockWake
  rw [hp]
  simp only
  split_ifs
  · exact Option.some_ne_none _
  · exact hF fuel hfuel
  · rw [hadd]
    exact Option.some_ne_none _

/-- **Every step ends.** -/
theorem Waits.step_ends (hw : Waits s) {e : Step} (hr : s.Ready e) :
    ∃ F, ∀ fuel ≥ F, s.step fuel e ≠ none := by
  cases e with
  | call self fdp cmd flp =>
    have hp : s.prl self = none := hr
    obtain ⟨F, hF⟩ := rlock_ends hw hp fdp cmd flp
    refine ⟨F, fun fuel hfuel => ?_⟩
    simp only [Tables.step, if_pos hp, ne_eq, Option.map_eq_none_iff]
    exact hF fuel hfuel
  | wake self signalled =>
    obtain ⟨F, hF⟩ := waitlockWake_ends hw hr signalled
    refine ⟨F, fun fuel hfuel => ?_⟩
    simp only [Tables.step, ne_eq, Option.map_eq_none_iff]
    exact hF fuel hfuel

/-! ### Runs -/

/-- A sleep of the process on the lock would close a cycle. -/
def ClosesCycle (s : Tables) (self ino : ℕ) (lock : RLock) : Prop :=
  ¬ Acyclic (s.pend self ino lock).WaitsFor

theorem closesCycle_iff (hw : Waits s) :
    ClosesCycle s self ino lock ↔ TransGen (s.pend self ino lock).WaitsFor self self := by
  refine cyclic_iff hw.acyclic fun a b hab => ?_
  by_cases ha : a = self
  · exact Or.inr ha
  · exact Or.inl ((pend_other ha b).mp hab)

/-- **Deadlocks.** In every run no process waits for itself, even indirectly; every step ends; and
    `F_SETLKW` fails with `EDEADLK` exactly when it asks for a lock that the descriptor permits,
    there is a lock structure for its pending lock, and its sleep would close a cycle.  A process
    that wakes up never fails so. -/
theorem reachable_acyclic {ok : Tables → Step → Prop} (h : Reachable ok s) :
    Acyclic s.WaitsFor ∧
    (∀ e, s.Ready e → ∃ F, ∀ fuel ≥ F, s.step fuel e ≠ none) ∧
    (∀ self fuel fdp flp o flp' s', s.prl self = none →
      rlock s self fuel fdp .F_SETLKW flp = some (o, flp', s') →
      (o = .done (-1) (some .EDEADLK) ↔ ∃ range, lockRange fdp flp = some range ∧
        flp.lType ≠ F_UNLCK ∧ Permits fdp (requested self flp range) ∧ s.freerl ≠ [] ∧
        ClosesCycle s self fdp.ip (requested self flp range))) ∧
    ∀ self fuel signalled o s', s.waitlockWake self fuel signalled = some (o, s') →
      o ≠ .done (-1) (some .EDEADLK) := by
  have hw := h.waits
  refine ⟨hw.acyclic, fun e hr => hw.step_ends hr, fun self fuel fdp flp o flp' s' hp hlock => ?_,
    fun self fuel signalled o s' hwake => (waitlockWake_spec hw hwake).1⟩
  simp only [closesCycle_iff hw]
  exact (rlock_spec hp hlock).1 rfl

/-- Processes 1 and 2 have locked an offset each, and process 1 sleeps for the one of process 2. -/
def oneWaits : List Step :=
  [fcntl 1 .F_SETLK F_WRLCK 0 1, fcntl 2 .F_SETLK F_WRLCK 1 1, fcntl 1 .F_SETLKW F_WRLCK 1 1]

/-- The descriptor and the request with which process 2 then asks for the offset of process 1. -/
def backRequest : FileDesc × Flock := (⟨0, 0, 0, 6⟩, ⟨F_WRLCK, 0, 0, 1, 0⟩)

/-- With a lock structure left, process 2 is refused, as its sleep would close a cycle. -/
theorem reachable_acyclic_two : ∃ s, (rlinit 4).run 9 oneWaits = some s ∧
    Acyclic s.WaitsFor ∧ ClosesCycle s 2 0 (requested 2 backRequest.2 (0, 0)) := by
  have heval : (((rlinit 4).run 9 oneWaits).bind fun s =>
      (rlock s 2 9 backRequest.1 .F_SETLKW backRequest.2).map fun r => (s.prl 2, r.1)) =
      some (none, .done (-1) (some .EDEADLK)) := by
    decide +kernel
  obtain ⟨s, hs, hlock⟩ := Option.bind_eq_some_iff.mp heval
  obtain ⟨⟨o, flp', s'⟩, hlock, hval⟩ := Option.map_eq_some_iff.mp hlock
  rw [Prod.mk.injEq] at hval
  have hreach : Reachable (fun _ _ => True) s :=
    (Reachable.rlinit 4).run (fun _ _ => trivial) hs
  obtain ⟨hacyc, -, hiff, -⟩ := reachable_acyclic hreach
  obtain ⟨range, hr, -, -, -, hc⟩ := (hiff 2 9 _ _ o flp' s' hval.1 hlock).mp hval.2
  have hrange : lockRange backRequest.1 backRequest.2 = some (0, 0) := by decide +kernel
  rw [hrange] at hr
  cases hr
  exact ⟨s, hs, hacyc, hc⟩

/-- **No lock structure left.** The sleep of process 2 would close a cycle, but it gets `ENOLCK`. -/
theorem exhausted_no_deadlock : ¬ ∀ s, Reachable (fun _ _ => True) s →
    ∀ self fuel fdp flp o flp' s', s.prl self = none →
      rlock s self fuel fdp .F_SETLKW flp = some (o, flp', s') →
      (o = .done (-1) (some .EDEADLK) ↔ ∃ range, lockRange fdp flp = some range ∧
        flp.lType ≠ F_UNLCK ∧ Permits fdp (requested self flp range) ∧
        ClosesCycle s self fdp.ip (requested self flp range)) := by
  intro hall
  have heval : (((rlinit 3).run 9 oneWaits).bind fun s =>
      (rlock s 2 9 backRequest.1 .F_SETLKW backRequest.2).map fun r => (s.prl 2, r.1,
        (s.pend 2 0 (requested 2 backRequest.2 (0, 0))).waitsFor 2,
        (s.pend 2 0 (requested 2 backRequest.2 (0, 0))).waitsFor 1)) =
      some (none, .done (-1) (some .ENOLCK), [1], [2]) := by
    decide +kernel
  obtain ⟨s, hs, hlock⟩ := Option.bind_eq_some_iff.mp heval
  obtain ⟨⟨o, flp', s'⟩, hlock, hval⟩ := Option.map_eq_some_iff.mp hlock
  simp only [Prod.mk.injEq] at hval
  obtain ⟨hp, ho, htwo, hone⟩ := hval
  have hreach := (Reachable.rlinit 3).run (fun _ _ => trivial) hs
  have hcycle : ClosesCycle s 2 0 (requested 2 backRequest.2 (0, 0)) := by
    have hthere : (s.pend 2 0 (requested 2 backRequest.2 (0, 0))).WaitsFor 2 1 := by
      rw [Tables.WaitsFor, htwo]
      exact List.mem_singleton_self 1
    have hback : (s.pend 2 0 (requested 2 backRequest.2 (0, 0))).WaitsFor 1 2 := by
      rw [Tables.WaitsFor, hone]
      exact List.mem_singleton_self 2
    exact fun hacyc => hacyc 2 ((TransGen.single hthere).tail hback)
  have hdead := (hall s hreach 2 9 _ _ o flp' s' hp hlock).mpr
    ⟨(0, 0), by decide +kernel, by decide, by unfold Permits; decide +kernel, hcycle⟩
  rw [hdead] at ho
  exact absurd ho (by decide)

end CohKernel.Rlock
