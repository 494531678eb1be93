import CohKernel.SleepLock.Lists

namespace CohKernel.SleepLock

open CohKernel.Lib

/-!
# The holders and the waiting lists of sleep locks

* `Inv.step` — the invariant is kept, unless a signal takes a process from its list that is not the
  first of two;
* `reachable_granted` — locks and lists in a run without such a step;
* `waiter_lost` — a process that waits and is in no list.
-/

variable {P L : Type} {s s' : State P L} {p q : P} {l m : L}
  {Q : L → List P}

/-! ### The invariant -/

/-- The process has the lock: a call has returned with it, or it has been woken with it. -/
def State.Has (s : State P L) (l : L) (p : P) : Prop := s.holds l p = true ∨ s.pc p = .granted l

/-- The process waits for the lock.  A signal has ended the wait when the process has run. -/
def State.Waits (s : State P L) (l : L) (p : P) : Prop := s.pc p = .asleep l ∨ s.pc p = .signalled l

/-- A higher priority comes first, and of one priority the process that waits for longer. -/
def State.Before (s : State P L) (p q : P) : Prop :=
  s.pnPriority q < s.pnPriority p ∨ s.pnPriority q = s.pnPriority p ∧ s.came p < s.came q

/-- The lists are doubly linked and have the processes that wait, in order. -/
structure Listed (s : State P L) (Q : L → List P) : Prop where
  queues : Queues s.links Q
  member : ∀ p l, p ∈ Q l ↔ s.Waits l p
  plistp : ∀ p l, s.pnPlistp p = some l ↔ p ∈ Q l
  sorted : ∀ l, (Q l).Pairwise s.Before
  came : ∀ p l, p ∈ Q l → s.came p < s.time

/-- The holder of a lock that is taken has it, and nobody else; and a lock that is waited for is
    taken. -/
structure Inv (s : State P L) (Q : L → List P) : Prop extends Listed s Q where
  has : ∀ l p, s.Has l p ↔ s.slLocked l = true ∧ s.slHolder l = some p
  taken : ∀ l, s.slLocked l = true → s.slHolder l ≠ none
  busy : ∀ l p, p ∈ Q l → s.slLocked l = true

theorem Inv.free (h : Inv s Q) (hl : s.slLocked l = false) (p : P) : ¬s.Has l p := by
  rw [h.has l p, hl]
  exact fun hc => Bool.false_ne_true hc.1

theorem Inv.out (h : Inv s Q) (hp : s.pc p = .running ∨ ∃ m, s.pc p = .granted m) (l : L) :
    p ∉ Q l := by
  rw [h.member p l]
  unfold State.Waits
  rcases hp with hp | ⟨m, hp⟩ <;> rw [hp] <;> simp

/-! ### The order of a list -/

theorem mem_of_lastNode {ts : List P} (h : lastNode none ts = some p) : p ∈ ts := by
  have hcases : ∀ (pprev : Option P) (ts : List P), lastNode pprev ts = pprev ∨
      ∃ x ∈ ts, lastNode pprev ts = some x := by
    intro pprev ts
    induction ts generalizing pprev with
    | nil => exact Or.inl rfl
    | cons t ts ih =>
      rcases ih (some t) with hx | ⟨x, hx, heq⟩
      · exact Or.inr ⟨t, List.mem_cons_self, hx⟩
      · exact Or.inr ⟨x, List.mem_cons_of_mem t hx, heq⟩
  rcases hcases none ts with hnone | ⟨x, hx, heq⟩
  · cases hnone.symm.trans h
  · cases heq.symm.trans h
    exact hx

/-- After the place of a priority come lower ones. -/
theorem lower_of_dropWhile {ts : List P} {priority : Pri} (hs : ts.Pairwise s.Before)
    (hq : q ∈ ts.dropWhile (s.stays priority)) : s.pnPriority q < priority := by
  induction ts with
  | nil => cases hq
  | cons t ts ih =>
    rw [List.pairwise_cons] at hs
    rw [List.dropWhile_cons] at hq
    split at hq
    · exact ih hs.2 hq
    · rename_i hstays
      have hlt : s.pnPriority t < priority := not_le.mp fun hle => hstays (decide_eq_true hle)
      rcases List.mem_cons.mp hq with rfl | hmem
      · exact hlt
      · rcases hs.1 q hmem with hbefore | ⟨heq, -⟩
        · exact hbefore.trans hlt
        · rw [heq]
          exact hlt

theorem higher_of_takeWhile {ts : List P} {priority : Pri}
    (hq : q ∈ ts.takeWhile (s.stays priority)) : priority ≤ s.pnPriority q := by
  have hstays : s.stays priority q = true := List.mem_takeWhile_imp hq
  exact of_decide_eq_true hstays

theorem Listed.head (h : Listed s Q) : s.plHead l = (Q l).head? :=
  h.queues.next_eq (a := []) (b := Q l) rfl

variable [DecidableEq P] [DecidableEq L]

/-! ### A lock is taken -/

/-- **A free lock is taken.** -/
theorem Inv.take (h : Inv s Q) (hl : s.slLocked l = false) : Inv (s.take l p) Q := by
  have hempty : ∀ q, q ∉ Q l := by
    intro q hq
    cases hl.symm.trans (h.busy l q hq)
  refine ⟨⟨h.queues, h.member, h.plistp, h.sorted, h.came⟩, fun m q => ?_, fun m hm => ?_,
    fun m q hq => ?_⟩
  · by_cases hml : m = l
    · subst hml
      have hnot := h.free hl q
      unfold State.Has at hnot
      rw [not_or] at hnot
      simp only [State.Has, State.take, State.setHolds, Function.update_self]
      by_cases hqp : q = p
      · simp [hqp]
      · rw [Function.update_of_ne hqp]
        simp [hnot.1, hnot.2, Ne.symm hqp]
    · simp only [State.Has, State.take, State.setHolds, Function.update_of_ne hml]
      exact h.has m q
  · by_cases hml : m = l
    · subst hml
      simp only [State.take, State.setHolds, Function.update_self]
      exact Option.some_ne_none p
    · simp only [State.take, State.setHolds, Function.update_of_ne hml] at hm ⊢
      exact h.taken m hm
  · have hml : m ≠ l := by
      rintro rfl
      exact hempty q hq
    simp only [State.take, State.setHolds, Function.update_of_ne hml]
    exact h.busy m q hq

/-! ### A process goes to sleep -/

/-- **`MAKE_SLEEPING`** -/
theorem Inv.makeSleeping [Fintype P] (h : Inv s Q) (hp : s.pc p = .running)
    (hl : s.slLocked l = true) {priority : Pri} {interruptible : Bool}
    (hs : s.makeSleeping l p priority interruptible = some s') :
    Inv s' (Function.update Q l ((Q l).takeWhile (s.stays priority) ++
      p :: (Q l).dropWhile (s.stays priority))) := by
  have hout : ∀ m, p ∉ Q m := h.out (Or.inl hp)
  set a := (Q l).takeWhile (s.stays priority) with ha
  set b := (Q l).dropWhile (s.stays priority) with hb
  have hab : Q l = a ++ b := List.takeWhile_append_dropWhile.symm
  have hhead : s.plHead l = (Q l).head? := h.queues.next_eq (a := []) (b := Q l) rfl
  have hlen : (Q l).length < Fintype.card P + 1 :=
    Nat.lt_succ_of_le (h.queues.nodup l).length_le_card
  have hscan := @scan_eq P L s l (Q l) priority (Fintype.card P + 1) none (h.queues.seg l)
    (h.queues.stop l) hlen
  unfold State.makeSleeping at hs
  rw [hhead, hscan, Option.map_some] at hs
  cases hs
  have hhere : linkAfter l (lastNode none a) = endLink (.head l) a := linkAfter_lastNode l none a
  have hnext : s.links.next (linkAfter l (lastNode none a)) = b.head? := by
    rw [hhere]
    exact h.queues.next_eq hab
  have hlinks : (s.link l p (lastNode none a) b.head?).links =
      s.links.insert (endLink (.head l) a) p := by
    rw [← hhere]
    refine links_link hnext (fun q hq => ?_) fun heq => ?_
    · have hmem : q ∈ Q l := by
        rw [hab]
        exact List.mem_append_right a (List.mem_of_mem_head? hq)
      exact ⟨by rw [(h.plistp q l).mpr hmem]; exact Option.some_ne_none l,
        fun heq => hout l (heq ▸ hmem)⟩
    · have hmem : p ∈ a := mem_of_lastNode heq
      exact hout l (by rw [hab]; exact List.mem_append_left b hmem)
  have hmember : ∀ q m, q ∈ Function.update Q l (a ++ p :: b) m ↔ q = p ∧ m = l ∨ q ∈ Q m := by
    intro q m
    by_cases hm : m = l
    · subst hm
      rw [Function.update_self, hab, List.mem_append, List.mem_cons, List.mem_append]
      tauto
    · rw [Function.update_of_ne hm]
      simp [hm]
  have hne : ∀ q m, q ∈ Q m → q ≠ p := fun q m hq heq => hout m (heq ▸ hq)
  have hbefore : ∀ x y, x ≠ p → y ≠ p → s.Before x y → State.Before
      { (s.link l p (lastNode none a) b.head?).setPc p (.asleep l) with
        pnPriority := Function.update s.pnPriority p priority
        pnFlag := Function.update s.pnFlag p interruptible
        came := Function.update s.came p s.time
        time := s.time + 1 } x y := by
    intro x y hx hy hxy
    unfold State.Before
    simp only [Function.update_of_ne hx, Function.update_of_ne hy]
    exact hxy
  refine ⟨⟨?_, fun q m => ?_, fun q m => ?_, fun m => ?_, fun q m hq => ?_⟩, fun m q => ?_,
    h.taken, fun m q hq => ?_⟩
  · show Queues (s.link l p (lastNode none a) b.head?).links _
    rw [hlinks]
    exact h.queues.insert hab rfl hout
  · rw [hmember q m, h.member q m]
    unfold State.Waits
    by_cases hqp : q = p
    · subst hqp
      simp only [State.setPc, State.link, Function.update_self, hp]
      simp [eq_comm]
    · simp only [State.setPc, State.link, Function.update_of_ne hqp]
      simp [hqp]
  · rw [hmember q m, ← h.plistp q m]
    by_cases hqp : q = p
    · subst hqp
      have hnone : s.pnPlistp q ≠ some m := fun hc => hout m ((h.plistp q m).mp hc)
      simp only [State.setPc, State.link, Function.update_self]
      simp [hnone, eq_comm]
    · simp only [State.setPc, State.link, Function.update_of_ne hqp]
      simp [hqp]
  · -- The process is behind those that stay, and before those of lower priorities.
    have hsorted := h.sorted m
    by_cases hm : m = l
    · subst hm
      have hain : ∀ x ∈ a, x ∈ Q m := fun x hx => by
        rw [hab]
        exact List.mem_append_left b hx
      have hbin : ∀ x ∈ b, x ∈ Q m := fun x hx => by
        rw [hab]
        exact List.mem_append_right a hx
      have hlow : ∀ y ∈ b, s.pnPriority y < priority := fun y hy => lower_of_dropWhile hsorted hy
      rw [hab, List.pairwise_append] at hsorted
      obtain ⟨hsa, hsb, hsab⟩ := hsorted
      rw [Function.update_self, List.pairwise_append, List.pairwise_cons]
      refine ⟨hsa.imp_of_mem fun hx hy => hbefore _ _ (hne _ m (hain _ hx)) (hne _ m (hain _ hy)),
        ⟨fun y hy => Or.inl ?_, hsb.imp_of_mem fun hx hy =>
          hbefore _ _ (hne _ m (hbin _ hx)) (hne _ m (hbin _ hy))⟩, fun x hx y hy => ?_⟩
      · simp only [Function.update_self, Function.update_of_ne (hne y m (hbin y hy))]
        exact hlow y hy
      · have hxp := hne x m (hain x hx)
        have hxpri : priority ≤ s.pnPriority x := higher_of_takeWhile hx
        rcases List.mem_cons.mp hy with rfl | hy
        · unfold State.Before
          simp only [Function.update_self, Function.update_of_ne hxp]
          rcases hxpri.lt_or_eq with hlt | heq
          · exact Or.inl hlt
          · exact Or.inr ⟨heq, h.came x m (hain x hx)⟩
        · exact hbefore x y hxp (hne y m (hbin y hy)) (hsab x hx y hy)
    · rw [Function.update_of_ne hm]
      exact hsorted.imp_of_mem fun hx hy => hbefore _ _ (hne _ m hx) (hne _ m hy)
  · rcases (hmember q m).mp hq with ⟨rfl, rfl⟩ | hq
    · simp only [Function.update_self]
      exact Nat.lt_succ_self _
    · simp only [Function.update_of_ne (hne q m hq)]
      exact (h.came q m hq).trans (Nat.lt_succ_self _)
  · have hsame : ∀ q, (s.setPc p (.asleep l)).Has m q ↔ s.Has m q := by
      intro q
      unfold State.Has
      by_cases hqp : q = p
      · subst hqp
        simp [State.setPc, hp]
      · simp only [State.setPc, Function.update_of_ne hqp]
    exact (hsame q).trans (h.has m q)
  · rcases (hmember q m).mp hq with ⟨-, rfl⟩ | hq
    · exact hl
    · exact h.busy m q hq

/-! ### A process leaves its list -/

/-- **The first process of a list** leaves it. -/
theorem Listed.unlinkHead (h : Listed s Q) {rest : List P} (hQ : Q l = p :: rest) {pc : Pc L}
    (hpc : pc = .running ∨ ∃ m, pc = .granted m) :
    Listed ((s.unlinkHead l p).setPc p pc) fun i => (Q i).erase p := by
  have hmem : p ∈ Q l := by
    rw [hQ]
    exact List.mem_cons_self
  have honly : ∀ m, p ∈ Q m → m = l := fun m hm => h.queues.apart m l p hm hmem
  have hnd := h.queues.nodup l
  rw [hQ, List.nodup_cons] at hnd
  have hafter : s.pnNext p = rest.head? := h.queues.next_eq (a := [p]) (b := rest) hQ
  have hseg := h.queues.seg l
  rw [hQ] at hseg
  have hplistp := (h.plistp p l).mpr hmem
  have hprev : s.pnPrev p = none := by
    have hlast : s.links.last p = some (Link.head l) := hseg.2.1
    cases hp : s.pnPrev p with
    | none => rfl
    | some q => simp [State.links, hplistp, hp] at hlast
  have hlinks : (s.unlinkHead l p).links = s.links.unlink p := by
    refine links_unlinkHead hplistp hprev fun n hn => ?_
    have hrest : n ∈ rest := List.mem_of_mem_head? (hafter.symm.trans hn)
    refine ⟨(h.plistp n l).mpr ?_, fun heq => hnd.1 (heq ▸ hrest)⟩
    rw [hQ]
    exact List.mem_cons_of_mem p hrest
  have hmember : ∀ q m, q ∈ (Q m).erase p ↔ q ≠ p ∧ q ∈ Q m := fun q m =>
    (h.queues.nodup m).mem_erase_iff
  refine ⟨?_, fun q m => ?_, fun q m => ?_, fun m => ?_, fun q m hq => ?_⟩
  · show Queues (s.unlinkHead l p).links _
    rw [hlinks]
    exact h.queues.unlink p
  · rw [hmember q m, h.member q m]
    unfold State.Waits
    by_cases hqp : q = p
    · subst hqp
      simp only [State.setPc, Function.update_self]
      rcases hpc with rfl | ⟨m, rfl⟩ <;> simp
    · simp only [State.setPc, State.unlinkHead, Function.update_of_ne hqp]
      simp [hqp]
  · rw [hmember q m, ← h.plistp q m]
    by_cases hqp : q = p
    · subst hqp
      simp [State.setPc, State.unlinkHead]
    · simp [State.setPc, State.unlinkHead, hqp]
  · exact (h.sorted m).sublist List.erase_sublist
  · exact h.came q m ((hmember q m).mp hq).2

/-- **`SLEEP_UNLOCK`** -/
theorem Inv.sleepUnlock (h : Inv s Q) (hp : s.pc p = .running) (hhas : s.holds l p = true) :
    (Q l = [] → Inv (s.sleepUnlock l p) Q ∧ (s.sleepUnlock l p).slLocked l = false) ∧
    ∀ q rest, Q l = q :: rest → Inv (s.sleepUnlock l p) (fun i => (Q i).erase q) ∧
      (s.sleepUnlock l p).slHolder l = some q ∧ (s.sleepUnlock l p).pc q = .granted l := by
  have honly : ∀ q, s.Has l q → q = p := by
    intro q hq
    have hholder := ((h.has l p).mp (Or.inl hhas)).2
    exact Option.some_inj.mp (((h.has l q).mp hq).2.symm.trans hholder)
  have hhead := h.head (l := l)
  constructor
  · intro hQ
    rw [hQ, List.head?_nil] at hhead
    have hs : s.sleepUnlock l p = { s.setHolds l p false with
        slLocked := Function.update s.slLocked l false
        slHolder := Function.update s.slHolder l none } := by
      unfold State.sleepUnlock
      simp only [State.setHolds, hhead]
    rw [hs]
    refine ⟨⟨⟨h.queues, h.member, h.plistp, h.sorted, h.came⟩, fun m q => ?_, fun m hm => ?_,
      fun m q hq => ?_⟩, Function.update_self _ _ _⟩
    · by_cases hml : m = l
      · subst hml
        have hnot : ¬(q ≠ p ∧ s.Has m q) := fun hc => hc.1 (honly q hc.2)
        simp only [State.Has, State.setHolds, Function.update_self]
        by_cases hqp : q = p
        · subst hqp
          simp [hp]
        · rw [Function.update_of_ne hqp]
          have hfree : ¬s.Has m q := fun hc => hnot ⟨hqp, hc⟩
          unfold State.Has at hfree
          simp [hfree]
      · simp only [State.Has, State.setHolds, Function.update_of_ne hml]
        exact h.has m q
    · by_cases hml : m = l
      · subst hml
        simp only [Function.update_self] at hm
        cases hm
      · simp only [Function.update_of_ne hml] at hm ⊢
        exact h.taken m hm
    · have hml : m ≠ l := by
        rintro rfl
        rw [hQ] at hq
        cases hq
      simp only [Function.update_of_ne hml]
      exact h.busy m q hq
  · intro q rest hQ
    rw [hQ, List.head?_cons] at hhead
    have hs : s.sleepUnlock l p =
        { ((s.setHolds l p false).unlinkHead l q).setPc q (.granted l) with
        slHolder := Function.update s.slHolder l (some q) } := by
      unfold State.sleepUnlock
      simp only [State.setHolds, State.unlinkHead, State.setPc, hhead]
    have hlisted : Listed (s.setHolds l p false) Q :=
      ⟨h.queues, h.member, h.plistp, h.sorted, h.came⟩
    have hleave := hlisted.unlinkHead hQ (Or.inr ⟨l, rfl⟩)
    have hq : q ∈ Q l := by
      rw [hQ]
      exact List.mem_cons_self
    have hlocked := h.busy l q hq
    rw [hs]
    refine ⟨⟨⟨hleave.queues, hleave.member, hleave.plistp, hleave.sorted, hleave.came⟩,
      fun m r => ?_, fun m hm => ?_, fun m r hr => h.busy m r (List.mem_of_mem_erase hr)⟩,
      Function.update_self _ _ _, Function.update_self _ _ _⟩
    · have hqp : q ≠ p := fun heq => h.out (Or.inl hp) l (heq ▸ hq)
      have hwaits := (h.member q l).mp hq
      unfold State.Waits at hwaits
      simp only [State.Has, State.setPc, State.unlinkHead, State.setHolds]
      by_cases hml : m = l
      · subst hml
        rw [Function.update_self, Function.update_self, hlocked]
        by_cases hrq : r = q
        · subst hrq
          simp
        · rw [Function.update_of_ne hrq]
          have hnone : ¬(Function.update (s.holds m) p false r = true ∨ s.pc r = .granted m) := by
            by_cases hrp : r = p
            · subst hrp
              simp [hp]
            · rw [Function.update_of_ne hrp]
              exact fun hc => hrp (honly r hc)
          simp only [hnone, false_iff, true_and, Option.some.injEq]
          exact fun heq => hrq heq.symm
      · rw [Function.update_of_ne hml, Function.update_of_ne hml, ← h.has m r]
        unfold State.Has
        by_cases hrq : r = q
        · subst hrq
          rw [Function.update_self]
          rcases hwaits with hw | hw <;> rw [hw] <;> simp [Ne.symm hml]
        · rw [Function.update_of_ne hrq]
    · by_cases hml : m = l
      · subst hml
        simp only [Function.update_self]
        exact Option.some_ne_none q
      · simp only [Function.update_of_ne hml]
        exact h.taken m hm

/-! ### A process has been woken -/

/-- A process that has the lock runs. -/
theorem Inv.wake (h : Inv s Q) (hp : s.pc p = .granted l) :
    Inv ((s.setPc p .running).setHolds l p true) Q := by
  refine ⟨⟨h.queues, fun q m => ?_, h.plistp, h.sorted, h.came⟩, fun m q => ?_, h.taken, h.busy⟩
  · rw [h.member q m]
    unfold State.Waits
    by_cases hqp : q = p
    · subst hqp
      simp [State.setPc, State.setHolds, hp]
    · simp only [State.setPc, State.setHolds, Function.update_of_ne hqp]
  · refine Iff.trans ?_ (h.has m q)
    unfold State.Has
    by_cases hqp : q = p
    · subst hqp
      by_cases hml : m = l
      · subst hml
        simp [State.setPc, State.setHolds, hp]
      · simp [State.setPc, State.setHolds, hp, hml, Ne.symm hml]
    · by_cases hml : m = l
      · subst hml
        simp [State.setPc, State.setHolds, hqp]
      · simp [State.setPc, State.setHolds, hqp, hml]

omit [DecidableEq L] in
/-- A process that waits is woken by a signal, or goes back to sleep. -/
theorem Inv.rouse (h : Inv s Q) (hp : s.Waits l p) {pc : Pc L}
    (hpc : pc = .asleep l ∨ pc = .signalled l) : Inv (s.setPc p pc) Q := by
  unfold State.Waits at hp
  refine ⟨⟨h.queues, fun q m => ?_, h.plistp, h.sorted, h.came⟩, fun m q => ?_, h.taken, h.busy⟩
  · rw [h.member q m]
    unfold State.Waits
    by_cases hqp : q = p
    · subst hqp
      simp only [State.setPc, Function.update_self]
      rcases hp with hp | hp <;> rcases hpc with rfl | rfl <;> rw [hp] <;> simp
    · simp only [State.setPc, Function.update_of_ne hqp]
  · refine Iff.trans ?_ (h.has m q)
    unfold State.Has
    by_cases hqp : q = p
    · subst hqp
      simp only [State.setPc, Function.update_self]
      rcases hp with hp | hp <;> rcases hpc with rfl | rfl <;> rw [hp] <;> simp
    · simp only [State.setPc, Function.update_of_ne hqp]

/-- A signal ends the wait of the first process of a list. -/
theorem Inv.interrupt (h : Inv s Q) {rest : List P} (hQ : Q l = p :: rest) :
    Inv ((s.unlinkHead l p).setPc p .running) fun i => (Q i).erase p := by
  have hmem : p ∈ Q l := by
    rw [hQ]
    exact List.mem_cons_self
  have hwaits := (h.member p l).mp hmem
  refine ⟨h.toListed.unlinkHead hQ (Or.inl rfl), fun m q => ?_, h.taken,
    fun m q hq => h.busy m q (List.mem_of_mem_erase hq)⟩
  refine Iff.trans ?_ (h.has m q)
  unfold State.Has
  by_cases hqp : q = p
  · subst hqp
    simp only [State.setPc, State.unlinkHead, Function.update_self]
    unfold State.Waits at hwaits
    rcases hwaits with hw | hw <;> rw [hw] <;> simp
  · simp only [State.setPc, State.unlinkHead, Function.update_of_ne hqp]

/-! ### Steps and runs -/

variable [Fintype P]

/-- A signal takes a process from its list only when it is the first one, and not the last. -/
def Ok (s : State P L) (e : Event P L) : Prop :=
  ∀ p l, e = .resume p → s.pc p = .signalled l → s.pnFlag p = true →
    s.plHead l = some p ∧ s.pnNext p ≠ none

/-- What a step does to the lists and the holders: an unlock gives the lock to the first process of
    the list, or frees it; a process whose wait is interrupted leaves its list, and nothing else
    changes. -/
def Effect (s s' : State P L) (Q : L → List P) : Event P L → Prop
  | .unlock _ l =>
      (Q l = [] → s'.slLocked l = false) ∧
      ∀ q rest, Q l = q :: rest → s'.slHolder l = some q ∧ s'.pc q = .granted l ∧
        Queues s'.links fun i => (Q i).erase q
  | .resume p =>
      ∀ l, s.pc p = .signalled l → s.pnFlag p = true → s'.pc p = .running ∧
        Queues s'.links (fun i => (Q i).erase p) ∧ (∀ m q, s'.Has m q ↔ s.Has m q) ∧
        ∀ q, q ≠ p → s'.pc q = s.pc q
  | _ => True

theorem Inv.step (h : Inv s Q) {e : Event P L} (hok : Ok s e) (hs : step s e = some s') :
    (∃ Q', Inv s' Q') ∧ Effect s s' Q e := by
  cases e with
  | lock p l priority interruptible =>
    refine ⟨?_, trivial⟩
    obtain ⟨hp, hs⟩ := Option.ite_none_right_eq_some.mp hs
    by_cases hl : s.slLocked l = false
    · rw [if_pos hl] at hs
      cases hs
      exact ⟨Q, h.take hl⟩
    · rw [if_neg hl] at hs
      exact ⟨_, h.makeSleeping hp (Bool.eq_true_of_not_eq_false hl) hs⟩
  | trylock p l =>
    refine ⟨⟨Q, ?_⟩, trivial⟩
    obtain ⟨-, hs⟩ := Option.ite_none_right_eq_some.mp hs
    by_cases hl : s.slLocked l = false
    · rw [if_pos hl] at hs
      cases hs
      exact h.take hl
    · rw [if_neg hl] at hs
      cases hs
      exact h
  | unlock p l =>
    obtain ⟨⟨hp, hhas⟩, hs⟩ := Option.ite_none_right_eq_some.mp hs
    cases hs
    obtain ⟨hnone, hfirst⟩ := h.sleepUnlock hp hhas
    refine ⟨?_, fun hQ => (hnone hQ).2, fun q rest hQ => ?_⟩
    · rcases hQ : Q l with - | ⟨q, rest⟩
      · exact ⟨Q, (hnone hQ).1⟩
      · exact ⟨_, (hfirst q rest hQ).1⟩
    · obtain ⟨hinv, hholder, hpc⟩ := hfirst q rest hQ
      exact ⟨hholder, hpc, hinv.queues⟩
  | signal p =>
    refine ⟨⟨Q, ?_⟩, trivial⟩
    unfold SleepLock.step at hs
    cases hp : s.pc p with
    | asleep l =>
      simp only [hp] at hs
      cases hs
      exact h.rouse (Or.inl hp) (Or.inr rfl)
    | running => simp [hp] at hs
    | signalled l => simp [hp] at hs
    | granted l => simp [hp] at hs
  | resume p =>
    unfold SleepLock.step at hs
    cases hp : s.pc p with
    | running => simp [hp] at hs
    | asleep l => simp [hp] at hs
    | granted l =>
      have hnone : s.pnPlistp p = none := by
        rw [Option.eq_none_iff_forall_ne_some]
        intro m hm
        exact h.out (Or.inr ⟨l, hp⟩) m ((h.plistp p m).mp hm)
      simp only [hp, if_pos hnone] at hs
      cases hs
      refine ⟨⟨Q, h.wake hp⟩, fun m hm => ?_⟩
      cases hp.symm.trans hm
    | signalled l =>
      have hmem : p ∈ Q l := (h.member p l).mpr (Or.inr hp)
      have hsome : s.pnPlistp p ≠ none := by
        rw [(h.plistp p l).mpr hmem]
        exact Option.some_ne_none l
      simp only [hp, if_neg hsome] at hs
      by_cases hflag : s.pnFlag p = true
      · -- The process is the head of its list, and has a successor.
        obtain ⟨hhead, hnext⟩ := hok p l rfl hp hflag
        obtain ⟨n, hn⟩ := Option.ne_none_iff_exists'.mp hnext
        obtain ⟨rest, hQ⟩ : ∃ rest, Q l = p :: rest :=
          List.head?_eq_some_iff.mp (h.head.symm.trans hhead)
        simp only [if_pos hflag, State.dequeue, hn] at hs
        cases hs
        have hinv := h.interrupt hQ
        refine ⟨⟨_, hinv⟩, fun m hm _ => ?_⟩
        obtain rfl : l = m := by
          cases hp.symm.trans hm
          rfl
        refine ⟨Function.update_self _ _ _, hinv.queues, fun k q => ?_, fun q hq =>
          Function.update_of_ne hq _ _⟩
        rw [hinv.has k q, h.has k q]
        rfl
      · rw [if_neg hflag] at hs
        cases hs
        exact ⟨⟨Q, h.rouse (Or.inr hp) (Or.inl rfl)⟩, fun m _ hc => absurd hc hflag⟩

omit [DecidableEq P] [DecidableEq L] [Fintype P] in
theorem Inv.initial (h : Initial s) : Inv s fun _ => [] := by
  obtain ⟨hl, hp⟩ := h
  have hwaits : ∀ l p, ¬s.Waits l p := by
    intro l p
    unfold State.Waits
    rw [(hp p).2]
    simp
  refine ⟨⟨⟨fun _ => trivial, fun l => (hl l).2.2.1, fun _ => List.nodup_nil,
    fun l m p hx _ => absurd hx List.not_mem_nil, fun p _ => ?_⟩, fun p l => ?_, fun p l => ?_,
    fun _ => List.Pairwise.nil, fun p l hx => absurd hx List.not_mem_nil⟩, fun l p => ?_,
    fun l hc => ?_, fun l p hx => absurd hx List.not_mem_nil⟩
  · simp [State.links, (hp p).1]
  · simp [hwaits l p]
  · simp [(hp p).1]
  · unfold State.Has
    simp [(hl l).1, (hl l).2.2.2 p, (hp p).2]
  · cases (hl l).1.symm.trans hc

/-- The holder of a lock is named by it, so that there is one at most; and the waiting lists have
    the processes that wait, in order, as the steps that are allowed leave them. -/
structure Served (ok : State P L → Event P L → Prop) (s : State P L) : Prop where
  holder : ∀ l p, s.Has l p → s.slHolder l = some p
  waiting : ∃ Q, Listed s Q ∧ ∀ e s', ok s e → step s e = some s' → Effect s s' Q e

/-- **Sleep locks and their lists** in every run in which a signal takes no process from its list
    but the first of two or more. -/
theorem reachable_granted (hr : Reach Initial step Ok s) : Served Ok s := by
  have hinit : ∀ s : State P L, Initial s → ∃ Q, Inv s Q := fun s h => ⟨_, Inv.initial h⟩
  have hstep : ∀ (s : State P L) e s', (∃ Q, Inv s Q) → Ok s e → step s e = some s' →
      ∃ Q', Inv s' Q' := by
    rintro s e s' ⟨Q, h⟩ hok hs
    exact (h.step hok hs).1
  obtain ⟨Q, h⟩ := hr.invariant hinit hstep
  exact ⟨fun l p hp => ((h.has l p).mp hp).2, Q, h.toListed, fun e s' hok hs =>
    (h.step hok hs).2⟩

/-! ### Three waiting processes -/

/-- Four processes and a lock that is free. -/
def start : State (Fin 4) Unit where
  slLocked := fun _ => false
  slHolder := fun _ => none
  plHead := fun _ => none
  pnNext := fun _ => none
  pnPrev := fun _ => none
  pnPlistp := fun _ => none
  pnPriority := fun _ => 0
  pnFlag := fun _ => false
  pc := fun _ => .running
  holds := fun _ _ => false
  came := fun _ => 0
  time := 0

theorem start_initial : Initial start :=
  ⟨fun _ => ⟨rfl, rfl, rfl, fun _ => rfl⟩, fun _ => ⟨rfl, rfl⟩⟩

/-- A process has the lock, and three wait for it, in `SLEEP_LOCK_SIG`. -/
def contended : List (Event (Fin 4) Unit) :=
  [.lock 0 () 0 true, .lock 1 () 0 true, .lock 2 () 0 true, .lock 3 () 5 true]

/-- The last process comes first, because of its priority. -/
theorem reachable_granted_contended :
    ∃ s : State (Fin 4) Unit, s.plHead () = some 3 ∧ s.slHolder () = some 0 ∧ Served Ok s := by
  have hrun : (runFrom step start contended).any fun s =>
      decide (s.plHead () = some 3) && decide (s.slHolder () = some 0) := by
    decide +kernel
  have hok : ∀ e ∈ contended, ∀ s, Ok s e := by
    rintro e he s p l rfl
    simp [contended] at he
  obtain ⟨s, hs, h⟩ := (Option.any_eq_true _ _).mp hrun
  rw [Bool.and_eq_true, decide_eq_true_eq, decide_eq_true_eq] at h
  exact ⟨s, h.1, h.2, reachable_granted (Reach.runOf hok (Reach.init start_initial) hs)⟩

/-- **A process that waits and is in no list.**  A signal ends the wait of the second of three
    processes, and the list begins with the third: the first one is not there any more. -/
theorem waiter_lost :
    ∃ s : State (Fin 4) Unit, Reach Initial step (fun _ _ => True) s ∧
      ¬Served (fun _ _ => True) s := by
  have hrun : (runFrom step start (contended ++ [.signal 1, .resume 1])).any fun s =>
      decide (s.plHead () = some 2) && decide (s.pnNext 2 = none) &&
        decide (s.pc 3 = .asleep ()) := by
    decide +kernel
  obtain ⟨s, hs, h⟩ := (Option.any_eq_true _ _).mp hrun
  rw [Bool.and_eq_true, Bool.and_eq_true, decide_eq_true_eq, decide_eq_true_eq,
    decide_eq_true_eq] at h
  obtain ⟨⟨hhead, hnext⟩, hpc⟩ := h
  refine ⟨s, Reach.run (fun _ _ => trivial) (Reach.init start_initial) hs, ?_⟩
  rintro ⟨-, Q, hlisted, -⟩
  have hmem : 3 ∈ Q () := (hlisted.member 3 ()).mpr (Or.inl hpc)
  obtain ⟨rest, hQ⟩ : ∃ rest, Q () = 2 :: rest :=
    List.head?_eq_some_iff.mp (hlisted.head.symm.trans hhead)
  have hafter : s.pnNext 2 = rest.head? := hlisted.queues.next_eq (a := [2]) (b := rest) hQ
  rw [hnext] at hafter
  have hrest : rest = [] := List.head?_eq_none_iff.mp hafter.symm
  rw [hQ, hrest, List.mem_singleton] at hmem
  exact absurd hmem (by decide)

end CohKernel.SleepLock
