import CohKernel.Qprocs.Defs

namespace CohKernel.Qprocs

open CohKernel.Lib

/-!
# Procedures that are off stay off

* `procsoff_kept` — no procedure runs in a pair for which `qprocsoff` has returned, `q_active` is
  the number of those in the queue, and nobody sleeps for a queue that nothing goes on in, as long
  as `QUEUE_BACKENAB` is not the last to leave a queue that somebody sleeps for, less than 256 are
  in a queue, and `qprocson` is not called in the middle of `qprocsoff`;
* `backenab_loses` — a process that sleeps for a queue that `QUEUE_BACKENAB` has left.
-/

section Runs

variable {μ τ : Type} {s s' : Sys μ τ} {q : QueueId μ}

/-! ### What is to hold -/

/-- Whether something that goes on is counted in a queue. -/
def Act.inside [DecidableEq μ] (q : QueueId μ) : Act μ → Bool
  | .put q' | .srv q' | .held q' | .tried q' _ => q' = q
  | .putnext _ | .back _ => false

/-- The queue that a process in `qprocsoff` waits for. -/
def Off.queue (off : Off μ) : QueueId μ := ⟨off.pair, off.side⟩

/-- A queue is off, and nothing goes on in it. -/
def Sys.Quiet (s : Sys μ τ) (q : QueueId μ) : Prop :=
  (s.queue q).procsoff = true ∧ (s.queue q).qActive = 0

/-- No procedure of a pair runs for which `qprocsoff` has returned, and not `qprocson` since;
    `q_active` is the number of those that are in the queue; and nobody sleeps for a queue that
    nothing goes on in. -/
structure Sys.Safe [DecidableEq μ] (s : Sys μ τ) : Prop where
  off : ∀ pair side, s.down pair = true →
    Act.put ⟨pair, side⟩ ∉ s.acts ∧ Act.srv ⟨pair, side⟩ ∉ s.acts
  active : ∀ q, (s.queue q).qActive.toNat = s.acts.countP (Act.inside q)
  woken : ∀ t off, s.off t = some off → off.asleep = true → (s.queue off.queue).qActive ≠ 0

/-- Nothing goes on. -/
structure Sys.Initial (s : Sys μ τ) : Prop where
  active : ∀ q, (s.queue q).qActive = 0
  acts : s.acts = []
  off : ∀ t, s.off t = none
  down : ∀ pair, s.down pair = false

/-- Less than 256 are in the queue that something goes into; `QUEUE_BACKENAB` is not the last to
    leave a queue that somebody sleeps for, unless the other queue of the pair is off and nothing
    goes on in it; and `qprocson` is not called in the middle of `qprocsoff`. -/
def Sys.calm (s : Sys μ τ) : Event μ τ → Prop
  | .put q => (s.queue q).qActive ≠ 255
  | .serve q => (s.queue q).srvactive = false → (s.queue q).procsoff = false →
      (s.queue q).qActive ≠ 255
  | .next (.putnext q) | .next (.back q) => ∀ q' ∈ (s.queue q).qNext,
      (s.queue q').procsoff = false → (s.queue q').qActive ≠ 255
  | .next (.tried q _) => (∃ t off, s.off t = some off ∧ off.asleep = true ∧ off.queue = q) →
      (s.queue q).qActive = 1 → s.Quiet q.other
  | .qprocson pair _ _ => ∀ t off, s.off t = some off → off.pair ≠ pair
  | _ => True

variable [DecidableEq μ]

/-- What is kept. -/
structure Sys.Inv (s : Sys μ τ) : Prop where
  active : ∀ q, (s.queue q).qActive.toNat = s.acts.countP (Act.inside q)
  down : ∀ pair side, s.down pair = true → s.Quiet ⟨pair, side⟩
  first : ∀ t off, s.off t = some off → off.side = .wr → s.Quiet ⟨off.pair, .rd⟩
  asleep : ∀ t off, s.off t = some off → off.asleep = true →
    (s.queue off.queue).procsoff = true ∧ (s.queue off.queue).qActive ≠ 0

/-! ### Counting -/

theorem countP_erase {a : Act μ} {acts : List (Act μ)} (ha : a ∈ acts) (q : QueueId μ) :
    acts.countP (Act.inside q) =
      (acts.erase a).countP (Act.inside q) + if a.inside q then 1 else 0 := by
  rw [(List.perm_cons_erase ha).countP_eq, List.countP_cons]

omit [DecidableEq μ] in
@[simp] theorem set_self [DecidableEq μ] (s : Sys μ τ) (q : QueueId μ) (f : Queue μ → Queue μ) :
    (s.set q f).queue q = f (s.queue q) := Function.update_self _ _ _

theorem set_ne (s : Sys μ τ) {q q' : QueueId μ} (f : Queue μ → Queue μ) (h : q' ≠ q) :
    (s.set q f).queue q' = s.queue q' := Function.update_of_ne h _ _

/-- A field that is not changed is what it was. -/
theorem set_field {α : Type} (field : Queue μ → α) (s : Sys μ τ) (q : QueueId μ)
    {f : Queue μ → Queue μ} (hf : ∀ queue, field (f queue) = field queue) (q' : QueueId μ) :
    field ((s.set q f).queue q') = field (s.queue q') := by
  by_cases h : q' = q
  · subst h
    rw [set_self, hf]
  · rw [set_ne s f h]

/-! ### Changes -/

/-- The processes in `qprocsoff` are where they were, or have been woken up. -/
def Waits (s s' : Sys μ τ) : Prop := ∀ t off', s'.off t = some off' →
  ∃ off, s.off t = some off ∧ off.pair = off'.pair ∧ off.side = off'.side ∧
    (off'.asleep = true → off.asleep = true)

omit [DecidableEq μ] in
theorem Waits.of_eq (h : s'.off = s.off) : Waits s s' := fun _ off' hoff =>
  ⟨off', h ▸ hoff, rfl, rfl, id⟩

/-- A change that leaves quiet queues quiet, and wakes the sleepers up in time. -/
theorem Sys.Inv.change (hs : s.Inv)
    (hactive : ∀ q, (s'.queue q).qActive.toNat = s'.acts.countP (Act.inside q))
    (hquiet : ∀ q, s.Quiet q → s'.Quiet q) (hdown : s'.down = s.down) (hwaits : Waits s s')
    (hasleep : ∀ t off, s'.off t = some off → off.asleep = true →
      (s'.queue off.queue).procsoff = true ∧ (s'.queue off.queue).qActive ≠ 0) : s'.Inv := by
  refine ⟨hactive, fun pair side hpair => ?_, fun t off' hoff hside => ?_, hasleep⟩
  · rw [hdown] at hpair
    exact hquiet _ (hs.down pair side hpair)
  · obtain ⟨off, hoff, hpair, hside', -⟩ := hwaits t off' hoff
    rw [← hpair]
    exact hquiet _ (hs.first t off hoff (hside'.trans hside))

/-- A change that concerns neither the queues' marks nor what is counted. -/
theorem Sys.Inv.keep (hs : s.Inv) (hprocs : ∀ q, (s'.queue q).procsoff = (s.queue q).procsoff)
    (hact : ∀ q, (s'.queue q).qActive = (s.queue q).qActive)
    (hcount : ∀ q, s'.acts.countP (Act.inside q) = s.acts.countP (Act.inside q))
    (hdown : s'.down = s.down) (hoff : s'.off = s.off) : s'.Inv := by
  refine hs.change (fun q => ?_) (fun q hq => ?_) hdown (Waits.of_eq hoff) fun t off h hsleep => ?_
  · rw [hact, hcount]
    exact hs.active q
  · unfold Sys.Quiet
    rw [hprocs, hact]
    exact hq
  · rw [hprocs, hact]
    exact hs.asleep t off (hoff ▸ h) hsleep

/-- Something goes into a queue that is not quiet. -/
theorem Sys.Inv.enter {a : Act μ} (hs : s.Inv) (hq : ¬ s.Quiet q)
    (hroom : (s.queue q).qActive ≠ 255)
    (ha : ∀ q', a.inside q' = decide (q = q')) : (s.enter q a).Inv := by
  have hlt : (s.queue q).qActive.toNat < 255 := by
    have hle := (s.queue q).qActive.toNat_lt
    have hne : (s.queue q).qActive.toNat ≠ 255 := fun h => hroom (UInt8.toNat_inj.mp h)
    omega
  have heq : (s.enter q a).queue =
      (s.set q fun queue => { queue with qActive := queue.qActive + 1 }).queue := rfl
  have hself : ((s.enter q a).queue q).qActive = (s.queue q).qActive + 1 := by
    rw [heq, set_self]
  have hnat : ((s.queue q).qActive + 1).toNat = (s.queue q).qActive.toNat + 1 := by
    rw [UInt8.toNat_add]
    exact Nat.mod_eq_of_lt (Nat.succ_lt_succ hlt)
  have hne : ∀ q', q' ≠ q → (s.enter q a).queue q' = s.queue q' := by
    intro q' h
    rw [heq, set_ne s _ h]
  have hprocs : ∀ q', ((s.enter q a).queue q').procsoff = (s.queue q').procsoff := by
    rw [heq]
    exact set_field Queue.procsoff s q fun _ => rfl
  refine hs.change (fun q' => ?_) (fun q' hq' => ?_) rfl (Waits.of_eq rfl) fun t off h hoff => ?_
  · show _ = (a :: s.acts).countP _
    rw [List.countP_cons, ha, ← hs.active]
    by_cases h : q' = q
    · subst h
      rw [hself, hnat, decide_eq_true rfl, if_pos rfl]
    · rw [hne q' h, decide_eq_false fun heq => h heq.symm, if_neg nofun]
      rfl
  · have h : q' ≠ q := by
      rintro rfl
      exact hq hq'
    unfold Sys.Quiet
    rw [hne q' h]
    exact hq'
  · obtain ⟨hprocs', hactive⟩ := hs.asleep t off h hoff
    rw [hprocs]
    refine ⟨hprocs', ?_⟩
    by_cases hoffq : off.queue = q
    · rw [hoffq, hself]
      intro hzero
      rw [hzero] at hnat
      cases hnat
    · rw [hne _ hoffq]
      exact hactive

section

omit [DecidableEq μ]

theorem broadcast_awake {t : τ} {off : Off μ} (h : s.broadcast.off t = some off) :
    off.asleep = false := by
  obtain ⟨off', -, rfl⟩ := Option.map_eq_some_iff.mp h
  rfl

theorem Waits.broadcast (s : Sys μ τ) : Waits s s.broadcast := by
  intro t off' hoff
  obtain ⟨off, h, rfl⟩ := Option.map_eq_some_iff.mp hoff
  exact ⟨off, h, rfl, rfl, nofun⟩

theorem wake_cases (s : Sys μ τ) (q : QueueId μ) :
    s.Quiet q ∧ s.wake q = s.broadcast ∨ ¬ s.Quiet q ∧ s.wake q = s := by
  unfold Sys.wake
  by_cases h : s.Quiet q
  · exact .inl ⟨h, if_pos h⟩
  · exact .inr ⟨h, if_neg h⟩

end

/-- Something leaves a queue, and the sleepers are woken up if it is the last. -/
theorem Sys.Inv.leave {a : Act μ} (hs : s.Inv) (ha : a ∈ s.acts)
    (hin : ∀ q', a.inside q' = decide (q = q'))
    (hprocs : ∀ q', (s'.queue q').procsoff = (s.queue q').procsoff)
    (hself : (s'.queue q).qActive = (s.queue q).qActive - 1)
    (hne : ∀ q', q' ≠ q → (s'.queue q').qActive = (s.queue q').qActive)
    (hacts : ∀ q', s'.acts.countP (Act.inside q') = (s.acts.erase a).countP (Act.inside q'))
    (hdown : s'.down = s.down) (hwaits : Waits s s')
    (hwake : ∀ t off, s'.off t = some off → off.asleep = true → off.queue = q →
      (s.queue q).qActive ≠ 1) : s'.Inv := by
  have hcount : (s.queue q).qActive.toNat = (s.acts.erase a).countP (Act.inside q) + 1 := by
    rw [hs.active, countP_erase ha, hin, decide_eq_true rfl, if_pos rfl]
  have hle : (1 : UInt8) ≤ (s.queue q).qActive := by
    rw [UInt8.le_iff_toNat_le, hcount]
    exact Nat.le_add_left 1 _
  have hnat : ((s.queue q).qActive - 1).toNat = (s.queue q).qActive.toNat - 1 :=
    UInt8.toNat_sub_of_le _ _ hle
  refine hs.change (fun q' => ?_) (fun q' hq' => ?_) hdown hwaits fun t off' h hasleep => ?_
  · by_cases h : q' = q
    · subst h
      rw [hself, hnat, hcount, hacts]
      rfl
    · rw [hne q' h, hacts, hs.active, countP_erase ha, hin, decide_eq_false fun heq => h heq.symm,
        if_neg nofun]
      rfl
  · have h : q' ≠ q := by
      rintro rfl
      rw [hq'.2] at hcount
      cases hcount
    unfold Sys.Quiet
    rw [hprocs, hne q' h]
    exact hq'
  · obtain ⟨off, hoff, hpair, hside, hold⟩ := hwaits t off' h
    have hqueue : off.queue = off'.queue := by
      unfold Off.queue
      rw [hpair, hside]
    obtain ⟨hprocs', hactive⟩ := hs.asleep t off hoff (hold hasleep)
    rw [hqueue] at hprocs' hactive
    rw [hprocs]
    refine ⟨hprocs', ?_⟩
    by_cases hq : off'.queue = q
    · have hone := hwake t off' h hasleep hq
      rw [hq, hself]
      intro hzero
      rw [hzero] at hnat
      refine hone (UInt8.toNat_inj.mp ?_)
      change 0 = _ at hnat
      show _ = 1
      omega
    · rw [hne _ hq]
      exact hactive

/-! ### Steps -/

theorem trysched_fields (s : Sys μ τ) (q : QueueId μ) :
    (∀ q', ((s.queueTrysched q).1.queue q').procsoff = (s.queue q').procsoff) ∧
    (∀ q', ((s.queueTrysched q).1.queue q').qActive = (s.queue q').qActive) ∧
    (s.queueTrysched q).1.acts = s.acts ∧ (s.queueTrysched q).1.off = s.off ∧
    (s.queueTrysched q).1.down = s.down := by
  unfold Sys.queueTrysched
  split_ifs
  · exact ⟨fun _ => rfl, fun _ => rfl, rfl, rfl, rfl⟩
  · exact ⟨fun _ => rfl, fun _ => rfl, rfl, rfl, rfl⟩
  · let f : Queue μ → Queue μ := fun queue => { queue with enab := true }
    exact ⟨set_field Queue.procsoff s q (f := f) fun _ => rfl,
      set_field Queue.qActive s q (f := f) fun _ => rfl, rfl, rfl, rfl⟩

theorem trysched_inv (hs : s.Inv) (q : QueueId μ) : (s.queueTrysched q).1.Inv := by
  obtain ⟨hprocs, hactive, hacts, hoff, hdown⟩ := trysched_fields s q
  refine hs.keep hprocs hactive (fun q' => ?_) hdown hoff
  rw [hacts]

/-- Something begins that is not in a queue. -/
theorem begin_inv {a : Act μ} (hs : s.Inv) (ha : ∀ q, a.inside q = false) : (s.begin a).Inv := by
  refine hs.keep (fun _ => rfl) (fun _ => rfl) (fun q => ?_) rfl rfl
  show (a :: s.acts).countP _ = _
  rw [List.countP_cons, ha, if_neg nofun]
  rfl

/-- Something ends that is not in a queue. -/
theorem erase_inv {a : Act μ} (hs : s.Inv) (hmem : a ∈ s.acts) (ha : ∀ q, a.inside q = false) :
    Sys.Inv { s with acts := s.acts.erase a } := by
  refine hs.keep (fun _ => rfl) (fun _ => rfl) (fun q => ?_) rfl rfl
  rw [countP_erase hmem, ha, if_neg nofun]
  rfl

/-- Something leaves a queue, and then a queue is looked at that is quiet if it has to be. -/
theorem wake_inv {a : Act μ} {s₁ : Sys μ τ} {q₁ : QueueId μ} (hs : s.Inv) (ha : a ∈ s.acts)
    (hin : ∀ q', a.inside q' = decide (q = q'))
    (hprocs : ∀ q', (s₁.queue q').procsoff = (s.queue q').procsoff)
    (hactive : ∀ q', (s₁.queue q').qActive = (s.queue q').qActive)
    (hacts : s₁.acts = s.acts.erase a) (hoff : s₁.off = s.off) (hdown : s₁.down = s.down)
    (hquiet : (∃ t off, s.off t = some off ∧ off.asleep = true ∧ off.queue = q) →
      (s.queue q).qActive = 1 → (s₁.leave q).Quiet q₁) : ((s₁.leave q).wake q₁).Inv := by
  have heq : (s₁.leave q).queue =
      (s₁.set q fun queue => { queue with qActive := queue.qActive - 1 }).queue := rfl
  have hprocs' : ∀ q', ((s₁.leave q).queue q').procsoff = (s.queue q').procsoff := by
    intro q'
    rw [← hprocs, heq]
    refine set_field Queue.procsoff s₁ q ?_ q'
    exact fun _ => rfl
  have hself : ((s₁.leave q).queue q).qActive = (s.queue q).qActive - 1 := by
    rw [heq, set_self, ← hactive]
  have hne : ∀ q', q' ≠ q → ((s₁.leave q).queue q').qActive = (s.queue q').qActive := by
    intro q' h
    rw [heq, set_ne s₁ _ h, hactive]
  have hacts' : ∀ q', (s₁.leave q).acts.countP (Act.inside q') =
      (s.acts.erase a).countP (Act.inside q') := by
    intro q'
    show s₁.acts.countP _ = _
    rw [hacts]
  have hwaits : Waits s (s₁.leave q) := Waits.of_eq hoff
  rcases wake_cases (s₁.leave q) q₁ with ⟨-, hwake⟩ | ⟨hnot, hwake⟩
  · rw [hwake]
    refine hs.leave ha hin hprocs' hself hne hacts' hdown (fun t off' hoff' => ?_) ?_
    · obtain ⟨off, hoff₁, hpair, hside, -⟩ := Waits.broadcast (s₁.leave q) t off' hoff'
      refine ⟨off, hoff ▸ hoff₁, hpair, hside, fun hasleep => ?_⟩
      rw [broadcast_awake hoff'] at hasleep
      cases hasleep
    · intro t off hoff' hasleep
      rw [broadcast_awake hoff'] at hasleep
      cases hasleep
  · rw [hwake]
    refine hs.leave ha hin hprocs' hself hne hacts' hdown hwaits fun t off hoff' hasleep hq hone =>
      ?_
    exact hnot (hquiet ⟨t, off, hoff ▸ hoff', hasleep, hq⟩ hone)

/-- A procedure returns. -/
theorem return_inv {a : Act μ} {s₁ : Sys μ τ} (hs : s.Inv) (ha : a ∈ s.acts)
    (hin : ∀ q', a.inside q' = decide (q = q'))
    (hprocs : ∀ q', (s₁.queue q').procsoff = (s.queue q').procsoff)
    (hactive : ∀ q', (s₁.queue q').qActive = (s.queue q').qActive)
    (hacts : s₁.acts = s.acts.erase a) (hoff : s₁.off = s.off) (hdown : s₁.down = s.down) :
    ((s₁.leave q).wake q).Inv := by
  refine wake_inv hs ha hin hprocs hactive hacts hoff hdown ?_
  rintro ⟨t, off, hoff', hasleep, rfl⟩ hone
  refine ⟨?_, ?_⟩
  · refine (set_field Queue.procsoff s₁ off.queue ?_ off.queue).trans ((hprocs _).trans ?_)
    · exact fun _ => rfl
    · exact (hs.asleep t off hoff' hasleep).1
  · unfold Sys.leave
    rw [set_self]
    show (s₁.queue off.queue).qActive - 1 = 0
    rw [hactive, hone]
    rfl

omit [DecidableEq μ] in
theorem other_ne (q : QueueId μ) : q.other ≠ q := by
  obtain ⟨pair, side⟩ := q
  cases side <;> exact fun h => nomatch congrArg QueueId.side h

/-- What goes on comes to its next point. -/
theorem next_inv {a : Act μ} (hs : s.Inv) (ha : a ∈ s.acts) (hok : s.calm (.next a)) :
    (Sys.next { s with acts := s.acts.erase a } a).Inv := by
  cases a with
  | putnext q =>
    have hs₁ : Sys.Inv { s with acts := s.acts.erase (.putnext q) } := erase_inv hs ha fun _ => rfl
    unfold Sys.next
    dsimp only
    cases hnext : (s.queue q).qNext with
    | none => exact hs₁
    | some q' =>
      dsimp only
      split_ifs with hprocs
      · exact begin_inv hs₁ fun _ => rfl
      · refine hs₁.enter (fun h => hprocs h.1) (hok q' hnext (Bool.eq_false_iff.mpr hprocs)) ?_
        exact fun _ => rfl
  | put q => exact return_inv hs ha (fun _ => rfl) (fun _ => rfl) (fun _ => rfl) rfl rfl rfl
  | srv q =>
    let f : Queue μ → Queue μ := fun queue => { queue with srvactive := false }
    let s₁ : Sys μ τ := { s with acts := s.acts.erase (.srv q) }
    exact return_inv hs ha (fun _ => rfl) (set_field Queue.procsoff s₁ q (f := f) fun _ => rfl)
      (set_field Queue.qActive s₁ q (f := f) fun _ => rfl) rfl rfl rfl
  | back q =>
    have hs₁ : Sys.Inv { s with acts := s.acts.erase (.back q) } := erase_inv hs ha fun _ => rfl
    unfold Sys.next
    dsimp only
    cases hnext : (s.queue q).qNext with
    | none => exact hs₁
    | some q' =>
      dsimp only
      split_ifs with hprocs
      · exact begin_inv hs₁ fun _ => rfl
      · refine hs₁.enter (fun h => hprocs h.1) (hok q' hnext (Bool.eq_false_iff.mpr hprocs)) ?_
        exact fun _ => rfl
  | held q =>
    -- it is still counted
    obtain ⟨hprocs, hactive, hacts, hoff, hdown⟩ :=
      trysched_fields { s with acts := s.acts.erase (.held q) } q.other
    refine hs.keep hprocs hactive (fun q' => ?_) hdown hoff
    show (Act.tried q _ :: Sys.acts _).countP _ = _
    rw [List.countP_cons, hacts, countP_erase ha]
    rfl
  | tried q done =>
    have hs₁ : Sys.Inv (((Sys.leave { s with acts := s.acts.erase (.tried q done) } q)).wake
        q.other) := by
      refine wake_inv hs ha (fun _ => rfl) (fun _ => rfl) (fun _ => rfl) rfl rfl rfl ?_
      intro hsleeper hone
      unfold Sys.Quiet Sys.leave
      rw [set_ne _ _ (other_ne q)]
      exact hok hsleeper hone
    cases done with
    | true => exact hs₁
    | false => exact begin_inv hs₁ fun _ => rfl

theorem put_inv (hs : s.Inv) (hok : (s.queue q).qActive ≠ 255) : (s.put q).Inv := by
  unfold Sys.put
  split_ifs with hnot
  · exact hs
  · refine hs.enter (fun h => hnot (.inl ⟨h.2, h.1⟩)) hok ?_
    exact fun _ => rfl

/-- A change of the marks that concern the schedule. -/
theorem mark_inv {f : Queue μ → Queue μ} (hs : s.Inv) (q : QueueId μ)
    (hprocs : ∀ queue, (f queue).procsoff = queue.procsoff)
    (hactive : ∀ queue, (f queue).qActive = queue.qActive) : (s.set q f).Inv :=
  hs.keep (set_field Queue.procsoff s q hprocs) (set_field Queue.qActive s q hactive)
    (fun _ => rfl) rfl rfl

theorem serve_inv (hs : s.Inv) (hok : (s.queue q).srvactive = false →
    (s.queue q).procsoff = false → (s.queue q).qActive ≠ 255) : (s.serve q).Inv := by
  have hs₁ : (s.set q fun queue => { queue with enab := false, srvactive := true }).Inv :=
    mark_inv hs q (fun _ => rfl) fun _ => rfl
  unfold Sys.serve
  dsimp only
  rw [set_self]
  split_ifs with hactive hprocs
  · exact hs
  · exact hs₁
  · refine hs₁.enter (fun h => hprocs ?_) ?_ ?_
    · have hoff := h.1
      rw [set_self] at hoff
      exact hoff
    · rw [set_self]
      exact hok (Bool.eq_false_iff.mpr hactive) (Bool.eq_false_iff.mpr hprocs)
    · exact fun _ => rfl

/-! ### `qprocsoff` and `qprocson` -/

/-- A queue is put off. -/
theorem off_inv (hs : s.Inv) (q : QueueId μ) :
    (s.set q fun queue => { queue with procsoff := true }).Inv := by
  let f : Queue μ → Queue μ := fun queue => { queue with procsoff := true }
  have hactive : ∀ q', ((s.set q f).queue q').qActive = (s.queue q').qActive :=
    set_field Queue.qActive s q fun _ => rfl
  have hprocs : ∀ q', (s.queue q').procsoff = true → ((s.set q f).queue q').procsoff = true := by
    intro q' h
    by_cases hq : q' = q
    · subst hq
      rw [set_self]
    · rw [set_ne s f hq]
      exact h
  refine hs.change (fun q' => ?_) (fun q' hq' => ?_) rfl (Waits.of_eq rfl) fun t off h hasleep => ?_
  · rw [hactive]
    exact hs.active q'
  · exact ⟨hprocs q' hq'.1, (hactive q').trans hq'.2⟩
  · obtain ⟨hoff, hne⟩ := hs.asleep t off h hasleep
    exact ⟨hprocs _ hoff, fun hzero => hne ((hactive _).symm.trans hzero)⟩

variable [DecidableEq τ] {t : τ}

omit [DecidableEq μ] in
theorem setOff_cases {off' : Option (Off μ)} {t' : τ} {off : Off μ}
    (h : (s.setOff t off').off t' = some off) : off' = some off ∨ s.off t' = some off := by
  change Function.update s.off t off' t' = some off at h
  by_cases ht : t' = t
  · subst ht
    rw [Function.update_self] at h
    exact .inl h
  · rw [Function.update_of_ne ht] at h
    exact .inr h

/-- A process comes to another place of `qprocsoff`. -/
theorem setOff_inv {off' : Option (Off μ)} (hs : s.Inv)
    (hfirst : ∀ off, off' = some off → off.side = .wr → s.Quiet ⟨off.pair, .rd⟩)
    (hasleep : ∀ off, off' = some off → off.asleep = true →
      (s.queue off.queue).procsoff = true ∧ (s.queue off.queue).qActive ≠ 0) :
    (s.setOff t off').Inv := by
  refine ⟨hs.active, hs.down, fun t' off h => ?_, fun t' off h => ?_⟩
  · rcases setOff_cases h with h | h
    · exact hfirst off h
    · exact hs.first t' off h
  · rcases setOff_cases h with h | h
    · exact hasleep off h
    · exact hs.asleep t' off h

theorem qprocsoff_inv {off : Off μ} (hs : s.Inv) (hoff : s.off t = some off)
    (hawake : off.asleep = false) : (s.qprocsoff t off).Inv := by
  have hs₁ := off_inv hs ⟨off.pair, off.side⟩
  unfold Sys.qprocsoff
  dsimp only
  rw [set_self]
  split_ifs with hpos
  · -- it sleeps for the queue
    refine setOff_inv hs₁ (fun off' h hside => ?_) (fun off' h _ => ?_)
    · cases h
      exact hs₁.first t off hoff hside
    · cases h
      unfold Off.queue
      rw [set_self]
      exact ⟨rfl, fun hzero => absurd hpos (by rw [hzero]; decide)⟩
  · have hzero : (s.queue ⟨off.pair, off.side⟩).qActive = 0 := by
      by_contra h
      exact hpos (UInt8.pos_iff_ne_zero.mpr h)
    have hquiet : (s.set ⟨off.pair, off.side⟩ fun queue => { queue with procsoff := true }).Quiet
        ⟨off.pair, off.side⟩ := by
      unfold Sys.Quiet
      rw [set_self]
      exact ⟨rfl, hzero⟩
    cases hside : off.side with
    | rd =>
      rw [hside] at hquiet hs₁
      refine setOff_inv hs₁ (fun off' h _ => ?_) (fun off' h hasleep => ?_)
      · cases h
        exact hquiet
      · cases h
        rw [hawake] at hasleep
        cases hasleep
    | wr =>
      rw [hside] at hquiet hs₁
      have hs₂ : Sys.Inv (Sys.setOff _ t none) := setOff_inv hs₁ nofun nofun
      refine ⟨hs₂.active, fun pair side hpair => ?_, hs₂.first, hs₂.asleep⟩
      by_cases hp : pair = off.pair
      · subst hp
        cases side with
        | rd => exact hs₁.first t off hoff hside
        | wr => exact hquiet
      · refine hs₁.down pair side ?_
        exact (Function.update_of_ne hp true s.down) ▸ hpair

omit [DecidableEq τ] in
/-- A queue is put on, with no process in `qprocsoff` for its pair. -/
theorem on_inv {pair : μ} (hs : s.Inv) (side : Side) (hdown : s.down pair = false)
    (hoff : ∀ t off, s.off t = some off → off.pair ≠ pair) :
    (s.set ⟨pair, side⟩ fun queue => { queue with procsoff := false }).Inv := by
  let s₁ : Sys μ τ := s.set ⟨pair, side⟩ fun queue => { queue with procsoff := false }
  have hactive : ∀ q', (s₁.queue q').qActive = (s.queue q').qActive :=
    set_field Queue.qActive s ⟨pair, side⟩ fun _ => rfl
  have hne : ∀ q' : QueueId μ, q'.pair ≠ pair → s₁.queue q' = s.queue q' := by
    refine fun q' h => set_ne s _ ?_
    rintro rfl
    exact h rfl
  have hquiet : ∀ q' : QueueId μ, q'.pair ≠ pair → s.Quiet q' → s₁.Quiet q' := by
    intro q' h hq'
    unfold Sys.Quiet
    rw [hne q' h]
    exact hq'
  refine ⟨fun q' => ?_, fun pair' side' h => ?_, fun t off h hside => ?_, fun t off h hasleep => ?_⟩
  · rw [hactive]
    exact hs.active q'
  · refine hquiet _ ?_ (hs.down pair' side' h)
    rintro rfl
    change s.down _ = true at h
    rw [hdown] at h
    cases h
  · exact hquiet _ (hoff t off h) (hs.first t off h hside)
  · show (s₁.queue off.queue).procsoff = true ∧ (s₁.queue off.queue).qActive ≠ 0
    rw [hne _ (hoff t off h)]
    exact hs.asleep t off h hasleep

omit [DecidableEq τ] in
theorem qprocson_inv {pair : μ} (hs : s.Inv) (hoff : ∀ t off, s.off t = some off → off.pair ≠ pair)
    (sched back : Side → Bool) : (s.qprocson pair sched back).Inv := by
  have hs₀ : Sys.Inv { s with down := Function.update s.down pair false } := by
    refine ⟨hs.active, fun pair' side h => ?_, hs.first, hs.asleep⟩
    change Function.update s.down pair false pair' = true at h
    by_cases hp : pair' = pair
    · subst hp
      rw [Function.update_self] at h
      cases h
    · rw [Function.update_of_ne hp] at h
      exact hs.down pair' side h
  have hdown : Function.update s.down pair false pair = false := Function.update_self _ _ _
  have hs₁ := on_inv (on_inv hs₀ .rd hdown hoff) .wr hdown hoff
  have htry : ∀ (s : Sys μ τ) side, s.Inv →
      (if sched side then (s.queueTrysched ⟨pair, side⟩).1 else s).Inv := by
    intro s side hs
    split_ifs
    · exact trysched_inv hs _
    · exact hs
  have hback : ∀ (s : Sys μ τ) side, s.Inv →
      (if back side then s.begin (.back (QueueId.other ⟨pair, side⟩)) else s).Inv := by
    intro s side hs
    split_ifs
    · exact begin_inv hs fun _ => rfl
    · exact hs
  exact hback _ .wr (hback _ .rd (htry _ .wr (htry _ .rd hs₁)))

/-! ### Every run -/

/-- A step keeps what is to be kept. -/
theorem Sys.Inv.step {e : Event μ τ} (hs : s.Inv) (hok : s.calm e) (h : s.step e = some s') :
    s'.Inv := by
  cases e with
  | put q =>
    cases h
    exact put_inv hs hok
  | putnext q =>
    cases h
    exact begin_inv hs fun _ => rfl
  | qenable q =>
    cases h
    exact trysched_inv hs q
  | backenab q =>
    cases h
    exact begin_inv hs fun _ => rfl
  | serve q =>
    obtain ⟨-, h⟩ := Option.ite_none_right_eq_some.mp h
    cases h
    exact serve_inv hs hok
  | next a =>
    obtain ⟨ha, h⟩ := Option.ite_none_right_eq_some.mp h
    cases h
    exact next_inv hs ha hok
  | qprocsoff t pair =>
    unfold Sys.step at h
    dsimp only at h
    cases hoff : s.off t with
    | some off =>
      rw [hoff] at h
      cases h
    | none =>
      rw [hoff] at h
      cases h
      refine setOff_inv hs (fun off h hside => ?_) (fun off h hasleep => ?_)
      · cases h
        cases hside
      · cases h
        cases hasleep
  | look t =>
    unfold Sys.step at h
    dsimp only at h
    cases hoff : s.off t with
    | none =>
      rw [hoff] at h
      cases h
    | some off =>
      rw [hoff] at h
      obtain ⟨hawake, h⟩ := Option.ite_none_left_eq_some.mp h
      cases h
      exact qprocsoff_inv hs hoff (Bool.eq_false_iff.mpr hawake)
  | qprocson pair sched back =>
    cases h
    exact qprocson_inv hs hok sched back
  | setNext q qNext =>
    cases h
    exact mark_inv hs q (fun _ => rfl) fun _ => rfl

omit [DecidableEq τ] in
theorem Sys.Initial.inv (hs : s.Initial) : s.Inv := by
  refine ⟨fun q => ?_, fun pair side h => ?_, fun t off h => ?_, fun t off h => ?_⟩
  · rw [hs.active, hs.acts]
    rfl
  · rw [hs.down] at h
    cases h
  · rw [hs.off] at h
    cases h
  · rw [hs.off] at h
    cases h

/-- **Procedures that are off** stay off, everything in a queue is counted, and nobody sleeps for a
    queue that nothing goes on in, in every run in which `QUEUE_BACKENAB` is not the last to leave a
    queue that somebody sleeps for, less than 256 are in a queue, and `qprocson` is not called in
    the middle of `qprocsoff`. -/
theorem procsoff_kept (hr : Reach Sys.Initial Sys.step (fun (s : Sys μ τ) e => s.calm e) s) :
    s.Safe := by
  have hinv : s.Inv := by
    refine @Reach.invariant _ _ _ _ _ Sys.Inv ?_ ?_ s hr
    · exact fun s hs => hs.inv
    · exact fun s e s' hs hok hstep => hs.step hok hstep
  -- what runs is counted
  have hnot : ∀ (a : Act μ) q, s.Quiet q → a.inside q = true → a ∉ s.acts := by
    intro a q hq ha hmem
    have hcount := hinv.active q
    rw [hq.2, countP_erase hmem, ha, if_pos rfl] at hcount
    cases hcount
  refine ⟨fun pair side h => ?_, hinv.active, fun t off h hasleep =>
    (hinv.asleep t off h hasleep).2⟩
  have hq := hinv.down pair side h
  exact ⟨hnot _ _ hq (decide_eq_true rfl), hnot _ _ hq (decide_eq_true rfl)⟩

end Runs

/-! ### Computed runs -/

/-- Two pairs of queues, each next to the other. -/
def Sys.quiet : Sys (Fin 2) (Fin 1) where
  queue := fun q => ⟨some ⟨1 - q.pair, q.side⟩, false, false, false, true, true, 0⟩
  acts := []
  off := fun _ => none
  down := fun _ => false

theorem Sys.quiet_initial : Sys.quiet.Initial :=
  ⟨fun _ => rfl, rfl, fun _ => rfl, fun _ => rfl⟩

instance {μ τ : Type} [DecidableEq μ] [Fintype τ] (s : Sys μ τ) (q : QueueId μ) :
    Decidable (∃ t off, s.off t = some off ∧ off.asleep = true ∧ off.queue = q) :=
  decidable_of_iff (∃ t, (s.off t).any (fun off => off.asleep ∧ off.queue = q) = true)
    (exists_congr fun _ => by rw [Option.any_eq_true]; simp only [decide_eq_true_eq])

instance {μ τ : Type} [DecidableEq μ] [Fintype τ] (s : Sys μ τ) (pair : μ) :
    Decidable (∀ t off, s.off t = some off → off.pair ≠ pair) :=
  decidable_of_iff (∀ t, (s.off t).all (fun off => off.pair ≠ pair) = true)
    (forall_congr' fun _ => by rw [Option.all_eq_true]; simp only [decide_eq_true_eq])

instance {μ τ : Type} [DecidableEq μ] [Fintype τ] (s : Sys μ τ) (e : Event μ τ) :
    Decidable (s.calm e) := by
  unfold Sys.calm Sys.Quiet
  split <;> infer_instance

/-- `qprocsoff` sleeps until a put procedure has returned; a message that comes later is discarded.
    -/
theorem procsoff_kept_run : ∃ s : Sys (Fin 2) (Fin 1), s.Safe ∧ s.down 0 = true ∧
    s.acts = [.put ⟨1, .rd⟩] := by
  have hrun : (runFrom (fun (s : Sys (Fin 2) (Fin 1)) e =>
      if decide (s.calm e) then s.step e else none) Sys.quiet
        [.put ⟨0, .rd⟩, .qprocsoff 0 0, .look 0, .next (.put ⟨0, .rd⟩), .look 0, .look 0,
          .put ⟨0, .wr⟩, .put ⟨1, .rd⟩]).any
      (fun s => s.down 0 = true ∧ s.acts = [.put ⟨1, .rd⟩]) = true := by
    decide +kernel
  obtain ⟨s, hs, hend⟩ := (Option.any_eq_true _ _).mp hrun
  exact ⟨s, procsoff_kept (Reach.checked (fun _ _ h => of_decide_eq_true h)
    (Reach.init Sys.quiet_initial) hs), of_decide_eq_true hend⟩

/-- **A process sleeps for ever** that `QUEUE_BACKENAB` does not wake up. -/
theorem backenab_loses : ¬ ∀ s : Sys (Fin 2) (Fin 1),
    Reach Sys.Initial Sys.step (fun _ _ => True) s → s.Safe := by
  intro hall
  have hrun : (runFrom Sys.step Sys.quiet
      [.backenab ⟨1, .wr⟩, .next (.back ⟨1, .rd⟩), .qprocsoff 0 0, .look 0, .next (.held ⟨0, .rd⟩),
        .next (.tried ⟨0, .rd⟩ true)]).any (fun s => (s.queue ⟨0, .rd⟩).qActive = 0 ∧
          ((s.off 0).any fun off => off.asleep ∧ off.pair = 0 ∧ off.side = .rd) = true) = true := by
    decide +kernel
  obtain ⟨s, hs, hend⟩ := (Option.any_eq_true _ _).mp hrun
  obtain ⟨hzero, hoff⟩ := of_decide_eq_true hend
  obtain ⟨⟨pair, side, asleep⟩, hoff, hsleep⟩ := (Option.any_eq_true _ _).mp hoff
  obtain ⟨hasleep, rfl, rfl⟩ := of_decide_eq_true hsleep
  exact (hall s (Reach.run (fun _ _ => trivial) (Reach.init Sys.quiet_initial) hs)).woken 0 _ hoff
    hasleep hzero

end CohKernel.Qprocs
