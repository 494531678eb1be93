import CohKernel.Clock.Defs

namespace CohKernel.Clock

open CohKernel.Lib

/-!
# Timers go off in time

* `Armed` — the timers on the queues are those with a request that is waiting;
* `reachable_ran` — every request gets its call at its tick, in every run in which nobody takes the
  timer that `check_clock` goes on with off its queue;
* `skipped` — without this a timer can be passed over.
-/

variable {τ : Type*} [DecidableEq τ] {m m' : System τ} {Q : ℕ → List τ} {rest : List τ} {tp t : τ}
  {n : ℕ} {e : Event τ}

/-- The tick that the last request for a timer asks for. -/
def System.due (m : System τ) (t : τ) : ℕ := (m.want (m.arming t)).1

/-- The queues are `Q`, and the walk has the timers `rest` before it. -/
structure Armed (m : System τ) (Q : ℕ → List τ) (rest : List τ) : Prop where
  queues : Queues m.timers.links Q
  lbolt : m.timers.lbolt = m.ticks % LBOLTS
  place : ∀ i t, t ∈ Q i → (m.timers.tim t).tLbolt % TIMQ = i
  tLbolt : ∀ i t, t ∈ Q i → (m.timers.tim t).tLbolt = m.due t % LBOLTS
  call : ∀ i t, t ∈ Q i → ∃ f, (m.timers.tim t).tFunc = some f ∧
    (m.want (m.arming t)).2 = (f, (m.timers.tim t).tFarg)
  late : ∀ i t, t ∈ Q i → t ∉ rest → m.ticks < m.due t ∧ m.due t ≤ m.ticks + LBOLTS
  soon : ∀ t ∈ rest, m.ticks ≤ m.due t ∧ m.due t < m.ticks + LBOLTS
  fresh : ∀ i t, t ∈ Q i → m.arming t < m.count ∧ m.ran (m.arming t) = [] ∧
    m.ended (m.arming t) = false
  inj : ∀ i j t t', t ∈ Q i → t' ∈ Q j → m.arming t = m.arming t' → t = t'
  kept : ∀ n < m.count, (∃ i t, t ∈ Q i ∧ m.arming t = n) ∨
    (m.ran n = [m.want n] ∧ (m.want n).1 ≤ m.ticks) ∨ m.ran n = [] ∧ m.ended n = true
  later : ∀ n, m.count ≤ n → m.ran n = [] ∧ m.ended n = false
  walk : match m.timers.phase with
    | .idle => rest = []
    | .walk np | .call np => ∃ pre, Q (m.timers.lbolt % TIMQ) = pre ++ rest ∧ np = rest.head?

/-! ### Requests -/

omit [DecidableEq τ] in
/-- The walk goes on with another timer than the one that is taken off. -/
theorem Armed.head_ne (h : Armed m Q rest) (hcall : m.timers.phase ≠ .call (some tp))
    (hwalk : ∀ np, m.timers.phase ≠ .walk np) : ∀ t ∈ rest.head?, t ≠ tp := by
  rintro t ht rfl
  have hw := h.walk
  cases hphase : m.timers.phase with
  | idle =>
    rw [hphase] at hw
    simp only at hw
    rw [hw] at ht
    cases ht
  | walk np => exact hwalk np hphase
  | call np =>
    rw [hphase] at hw
    obtain ⟨pre, -, rfl⟩ := hw
    exact hcall (by rw [hphase, ht])

/-- **A timer is taken off** its queue, and its request is ended. -/
theorem Armed.cancel (h : Armed m Q rest) (hne : ∀ t ∈ rest.head?, t ≠ tp) (c : Tim) :
    Armed { m.endRequest tp with timers := (m.timers.unlink tp).setTim tp c }
      (fun i => (Q i).erase tp) (rest.erase tp) := by
  have hmem : ∀ i t, t ∈ (Q i).erase tp → t ∈ Q i ∧ t ≠ tp := by
    intro i t ht
    have hnd := h.queues.nodup i
    exact ⟨List.mem_of_mem_erase ht, fun hc => hnd.not_mem_erase (hc ▸ ht)⟩
  have htim : ∀ t, t ≠ tp → Function.update m.timers.tim tp c t = m.timers.tim t :=
    fun t ht => Function.update_of_ne ht _ _
  -- only the request for this timer is ended
  have hended : ∀ n, (m.endRequest tp).ended n = true ↔
      ((∃ i, tp ∈ Q i) ∧ n = m.arming tp) ∨ m.ended n = true := by
    intro n
    unfold System.endRequest
    simp only
    by_cases hl : m.timers.links.last tp = none
    · have hq : ¬∃ i, tp ∈ Q i := fun hq => (h.queues.last_iff.mpr hq) hl
      simp [hl, hq]
    · have hq := h.queues.last_iff.mp hl
      rw [if_neg hl, Function.update_apply]
      by_cases hn : n = m.arming tp
      · simp [hn, hq]
      · simp [hn]
  refine ⟨h.queues.unlink tp, h.lbolt, fun i t ht => ?_, fun i t ht => ?_, fun i t ht => ?_,
    fun i t ht hr => ?_, fun t ht => ?_, fun i t ht => ?_, fun i j t t' ht ht' => ?_, fun n hn =>
      ?_,
    fun n hn => ?_, ?_⟩
  · obtain ⟨hq, hne⟩ := hmem i t ht
    exact (congrArg (fun x : Tim => x.tLbolt % TIMQ) (htim t hne)).trans (h.place i t hq)
  · obtain ⟨hq, hne⟩ := hmem i t ht
    exact (congrArg Tim.tLbolt (htim t hne)).trans (h.tLbolt i t hq)
  · obtain ⟨hq, hne⟩ := hmem i t ht
    change ∃ f, (Function.update m.timers.tim tp c t).tFunc = some f ∧
      (m.want (m.arming t)).2 = (f, (Function.update m.timers.tim tp c t).tFarg)
    rw [htim t hne]
    exact h.call i t hq
  · obtain ⟨hq, hne⟩ := hmem i t ht
    exact h.late i t hq fun hc => hr ((List.mem_erase_of_ne hne).mpr hc)
  · exact h.soon t (List.mem_of_mem_erase ht)
  · obtain ⟨hq, hne⟩ := hmem i t ht
    obtain ⟨hlt, hran, hend⟩ := h.fresh i t hq
    refine ⟨hlt, hran, ?_⟩
    change (m.endRequest tp).ended (m.arming t) = false
    rw [← Bool.not_eq_true, hended]
    rintro (⟨⟨j, hj⟩, heq⟩ | hc)
    · exact hne (h.inj i j t tp hq hj heq)
    · rw [hend] at hc
      cases hc
  · exact h.inj i j t t' (hmem i t ht).1 (hmem j t' ht').1
  · change _ ∨ (m.ran n = _ ∧ _) ∨ m.ran n = [] ∧ (m.endRequest tp).ended n = true
    rw [hended]
    rcases h.kept n hn with ⟨i, t, ht, rfl⟩ | hran | ⟨hran, hend⟩
    · by_cases hte : t = tp
      · subst hte
        exact Or.inr (Or.inr ⟨(h.fresh i t ht).2.1, Or.inl ⟨⟨i, ht⟩, rfl⟩⟩)
      · exact Or.inl ⟨i, t, (List.mem_erase_of_ne hte).mpr ht, rfl⟩
    · exact Or.inr (Or.inl hran)
    · exact Or.inr (Or.inr ⟨hran, Or.inr hend⟩)
  · obtain ⟨hran, hend⟩ := h.later n hn
    refine ⟨hran, ?_⟩
    change (m.endRequest tp).ended n = false
    rw [← Bool.not_eq_true, hended]
    rintro (⟨⟨i, hi⟩, rfl⟩ | hc)
    · exact absurd (h.fresh i tp hi).1 (not_lt.mpr hn)
    · rw [hend] at hc
      cases hc
  · have hwalk := h.walk
    -- the walk goes on with the same timer
    have hsplit : ∀ pre, Q (m.timers.lbolt % TIMQ) = pre ++ rest →
        (∃ pre', (Q (m.timers.lbolt % TIMQ)).erase tp = pre' ++ rest.erase tp) ∧
        (rest.erase tp).head? = rest.head? := by
      intro pre hpre
      constructor
      · rw [hpre]
        by_cases hin : tp ∈ pre
        · have hnd := h.queues.nodup (m.timers.lbolt % TIMQ)
          rw [hpre, List.nodup_append'] at hnd
          rw [List.erase_append_left _ hin, List.erase_of_not_mem (hnd.2.2 hin)]
          exact ⟨_, rfl⟩
        · rw [List.erase_append_right _ hin]
          exact ⟨_, rfl⟩
      · cases hrest : rest with
        | nil => rfl
        | cons x rest =>
          have hx := hne x (by rw [hrest]; rfl)
          rw [List.erase_cons_tail (by simpa using hx)]
          rfl
    change match m.timers.phase with
      | .idle => rest.erase tp = []
      | .walk np | .call np => ∃ pre, (Q (m.timers.lbolt % TIMQ)).erase tp = pre ++ rest.erase tp ∧
          np = (rest.erase tp).head?
    cases hphase : m.timers.phase with
    | idle =>
      rw [hphase] at hwalk
      simp only at hwalk ⊢
      rw [hwalk]
      rfl
    | walk np | call np =>
      rw [hphase] at hwalk
      obtain ⟨pre, hpre, hnp⟩ := hwalk
      obtain ⟨⟨pre', hpre'⟩, hhead⟩ := hsplit pre hpre
      exact ⟨pre', hpre', by rw [hhead, hnp]⟩

theorem wait_pos (n : ℕ) : 0 < wait n := by
  unfold wait LBOLTS
  split_ifs <;> omega

theorem wait_le (h : n < LBOLTS) : wait n ≤ LBOLTS := by
  unfold wait
  split_ifs <;> omega

theorem wait_mod (k n : ℕ) : (k % LBOLTS + n) % LBOLTS = (k + wait n) % LBOLTS := by
  unfold wait LBOLTS
  split_ifs <;> omega

/-- The queue of a timer that is put at the head of a queue. -/
theorem mem_push {i j : ℕ} : t ∈ Function.update Q i (tp :: Q i) j ↔ t = tp ∧ j = i ∨ t ∈ Q j := by
  rw [Function.update_apply]
  by_cases hj : j = i
  · subst hj
    simp
  · simp [hj]

/-- **A timer is put on** a queue, with a new request. -/
theorem Armed.request (h : Armed m Q rest) (hout : ∀ i, tp ∉ Q i) {c : Tim} {f : ℕ}
    (hn : n < LBOLTS)
    (hl : c.tLbolt = (m.timers.lbolt + n) % LBOLTS) (hf : c.tFunc = some f) :
    Armed { m.request tp n f c.tFarg with timers := (m.timers.setTim tp c).enqueue tp }
      (Function.update Q (c.tLbolt % TIMQ) (tp :: Q (c.tLbolt % TIMQ))) rest := by
  have hself : (m.timers.setTim tp c).tim tp = c := by
    unfold Timers.setTim
    exact Function.update_self _ _ _
  have hc : (m.timers.setTim tp c).enqueue tp =
      { m.timers.setTim tp c with links := m.timers.links.push (c.tLbolt % TIMQ) tp } := by
    unfold Timers.enqueue
    rw [hself]
    rfl
  have hne : ∀ i t, t ∈ Q i → t ≠ tp := fun i t ht hc => hout i (hc ▸ ht)
  -- the other timers have the requests that they had
  have hold : ∀ i t, t ∈ Q i → (m.timers.setTim tp c).tim t = m.timers.tim t ∧
      Function.update m.arming tp m.count t = m.arming t ∧
      Function.update m.want m.count (m.ticks + wait n, f, c.tFarg) (m.arming t) =
        m.want (m.arming t) := by
    intro i t ht
    exact ⟨Function.update_of_ne (hne i t ht) _ _, Function.update_of_ne (hne i t ht) _ _,
      Function.update_of_ne (h.fresh i t ht).1.ne _ _⟩
  have hnew : Function.update m.arming tp m.count tp = m.count ∧
      Function.update m.want m.count (m.ticks + wait n, f, c.tFarg) m.count =
        (m.ticks + wait n, f, c.tFarg) := ⟨Function.update_self _ _ _, Function.update_self _ _ _⟩
  have hdue : ∀ i t, t ∈ Q i → (m.request tp n f c.tFarg).due t = m.due t := by
    intro i t ht
    obtain ⟨-, harm, hwant⟩ := hold i t ht
    change (Function.update m.want m.count _ (Function.update m.arming tp m.count t)).1 = _
    rw [harm, hwant]
    rfl
  have hdue' : (m.request tp n f c.tFarg).due tp = m.ticks + wait n := by
    change (Function.update m.want m.count _ (Function.update m.arming tp m.count tp)).1 = _
    rw [hnew.1, hnew.2]
  have hrest : ∀ t ∈ rest, ∃ i, t ∈ Q i := by
    intro t ht
    have hwalk := h.walk
    cases hphase : m.timers.phase with
    | idle =>
      rw [hphase] at hwalk
      simp only at hwalk
      rw [hwalk] at ht
      cases ht
    | walk np | call np =>
      rw [hphase] at hwalk
      obtain ⟨pre, hpre, -⟩ := hwalk
      exact ⟨_, by rw [hpre]; exact List.mem_append_right _ ht⟩
  have hlbolt : c.tLbolt = (m.ticks + wait n) % LBOLTS := by rw [hl, h.lbolt, wait_mod]
  rw [hc]
  refine ⟨h.queues.push _ hout, h.lbolt, fun i t ht => ?_, fun i t ht => ?_, fun i t ht => ?_,
    fun i t ht hr => ?_, fun t ht => ?_, fun i t ht => ?_, fun i j t t' ht ht' heq => ?_,
    fun k hk => ?_, fun k hk => h.later k ((Nat.le_succ _).trans hk), ?_⟩
  · change ((m.timers.setTim tp c).tim t).tLbolt % TIMQ = i
    rcases mem_push.mp ht with ⟨rfl, rfl⟩ | ht
    · rw [hself]
    · rw [(hold i t ht).1]
      exact h.place i t ht
  · change ((m.timers.setTim tp c).tim t).tLbolt = (m.request tp n f c.tFarg).due t % LBOLTS
    rcases mem_push.mp ht with ⟨rfl, rfl⟩ | ht
    · rw [hself, hdue', hlbolt]
    · rw [(hold i t ht).1, hdue i t ht]
      exact h.tLbolt i t ht
  · change ∃ f', ((m.timers.setTim tp c).tim t).tFunc = some f' ∧
      (Function.update m.want m.count (m.ticks + wait n, f, c.tFarg)
        (Function.update m.arming tp m.count t)).2 = (f', ((m.timers.setTim tp c).tim t).tFarg)
    rcases mem_push.mp ht with ⟨rfl, rfl⟩ | ht
    · rw [hself, hnew.1, hnew.2]
      exact ⟨f, hf, rfl⟩
    · obtain ⟨htim, harm, hwant⟩ := hold i t ht
      rw [htim, harm, hwant]
      exact h.call i t ht
  · change m.ticks < (m.request tp n f c.tFarg).due t ∧
      (m.request tp n f c.tFarg).due t ≤ m.ticks + LBOLTS
    rcases mem_push.mp ht with ⟨rfl, rfl⟩ | ht
    · rw [hdue']
      have := wait_pos n
      have := wait_le hn
      omega
    · rw [hdue i t ht]
      exact h.late i t ht hr
  · change m.ticks ≤ (m.request tp n f c.tFarg).due t ∧
      (m.request tp n f c.tFarg).due t < m.ticks + LBOLTS
    obtain ⟨i, hi⟩ := hrest t ht
    rw [hdue i t hi]
    exact h.soon t ht
  · change Function.update m.arming tp m.count t < m.count + 1 ∧
      m.ran (Function.update m.arming tp m.count t) = [] ∧
      m.ended (Function.update m.arming tp m.count t) = false
    rcases mem_push.mp ht with ⟨rfl, rfl⟩ | ht
    · rw [hnew.1]
      exact ⟨Nat.lt_succ_self _, h.later _ le_rfl⟩
    · rw [(hold i t ht).2.1]
      obtain ⟨hlt, hran⟩ := h.fresh i t ht
      exact ⟨by omega, hran⟩
  · change Function.update m.arming tp m.count t = Function.update m.arming tp m.count t' at heq
    rcases mem_push.mp ht with ⟨rfl, rfl⟩ | hti <;> rcases mem_push.mp ht' with ⟨rfl, rfl⟩ | htj
    · rfl
    · rw [hnew.1, (hold j t' htj).2.1] at heq
      exact absurd (h.fresh j t' htj).1 (by omega)
    · rw [hnew.1, (hold i t hti).2.1] at heq
      exact absurd (h.fresh i t hti).1 (by omega)
    · rw [(hold i t hti).2.1, (hold j t' htj).2.1] at heq
      exact h.inj i j t t' hti htj heq
  · change (∃ i t, t ∈ _ ∧ Function.update m.arming tp m.count t = k) ∨
      (m.ran k = [Function.update m.want m.count (m.ticks + wait n, f, c.tFarg) k] ∧
        (Function.update m.want m.count (m.ticks + wait n, f, c.tFarg) k).1 ≤ m.ticks) ∨
      m.ran k = [] ∧ m.ended k = true
    rcases Nat.lt_succ_iff_lt_or_eq.mp hk with hk | rfl
    · rw [Function.update_of_ne hk.ne]
      rcases h.kept k hk with ⟨i, t, ht, rfl⟩ | hran
      · exact Or.inl ⟨i, t, mem_push.mpr (Or.inr ht), (hold i t ht).2.1⟩
      · exact Or.inr hran
    · exact Or.inl ⟨_, tp, mem_push.mpr (Or.inl ⟨rfl, rfl⟩), hnew.1⟩
  · have hwalk := h.walk
    -- the timers before the walk are the same
    have hpush : ∀ q pre, Q q = pre ++ rest →
        ∃ pre', Function.update Q (c.tLbolt % TIMQ) (tp :: Q (c.tLbolt % TIMQ)) q = pre' ++
          rest := by
      intro q pre hpre
      rw [Function.update_apply]
      split_ifs with hq
      · exact ⟨tp :: pre, by rw [← hq, hpre]; rfl⟩
      · exact ⟨pre, hpre⟩
    change match m.timers.phase with
      | .idle => rest = []
      | .walk np | .call np => ∃ pre, Function.update Q (c.tLbolt % TIMQ)
        (tp :: Q (c.tLbolt % TIMQ))
          (m.timers.lbolt % TIMQ) = pre ++ rest ∧ np = rest.head?
    cases hphase : m.timers.phase with
    | idle =>
      rw [hphase] at hwalk
      exact hwalk
    | walk np | call np =>
      rw [hphase] at hwalk
      obtain ⟨pre, hpre, hnp⟩ := hwalk
      obtain ⟨pre', hpre'⟩ := hpush _ pre hpre
      exact ⟨pre', hpre', hnp⟩

/-! ### The walk -/

omit [DecidableEq τ] in
/-- **A tick**: the walk has the timers of the queue before it. -/
theorem Armed.tick (h : Armed m Q rest) (hphase : m.timers.phase = .idle) :
    Armed { m with timers := m.timers.tick, ticks := m.ticks + 1 } Q
      (Q ((m.timers.lbolt + 1) % LBOLTS % TIMQ)) := by
  have hrest : rest = [] := by
    have hwalk := h.walk
    rw [hphase] at hwalk
    exact hwalk
  have hl : (m.timers.lbolt + 1) % LBOLTS = (m.ticks + 1) % LBOLTS := by
    rw [h.lbolt, Nat.mod_add_mod]
  have hlate : ∀ i t, t ∈ Q i → m.ticks < m.due t ∧ m.due t ≤ m.ticks + LBOLTS := by
    intro i t ht
    exact h.late i t ht (by rw [hrest]; exact List.not_mem_nil)
  have hq : ∀ i t, t ∈ Q i → m.due t % LBOLTS % TIMQ = i := by
    intro i t ht
    rw [← h.tLbolt i t ht]
    exact h.place i t ht
  refine ⟨h.queues, hl, h.place, h.tLbolt, h.call, fun i t ht hr => ?_, fun t ht => ?_, h.fresh,
    h.inj,
    fun k hk => ?_, h.later, ⟨[], rfl, ?_⟩⟩
  · change m.ticks + 1 < m.due t ∧ m.due t ≤ m.ticks + 1 + LBOLTS
    obtain ⟨hlt, hle⟩ := hlate i t ht
    have hne : m.due t ≠ m.ticks + 1 := by
      intro hc
      have hi := hq i t ht
      rw [hc, ← hl] at hi
      exact hr (hi ▸ ht)
    omega
  · change m.ticks + 1 ≤ m.due t ∧ m.due t < m.ticks + 1 + LBOLTS
    have := hlate _ t ht
    omega
  · rcases h.kept k hk with hin | ⟨hran, hle⟩ | hend
    · exact Or.inl hin
    · exact Or.inr (Or.inl ⟨hran, by simp only; omega⟩)
    · exact Or.inr (Or.inr hend)
  · exact h.queues.next_eq (a := []) rfl

/-- The timer that the walk goes on with. -/
theorem Armed.walk_head (h : Armed m Q rest) (hphase : m.timers.phase = .walk (some tp)) :
    ∃ pre rest', rest = tp :: rest' ∧ Q (m.timers.lbolt % TIMQ) = pre ++ tp :: rest' ∧
      m.timers.links.next (.cell tp) = rest'.head? := by
  have hwalk := h.walk
  rw [hphase] at hwalk
  obtain ⟨pre, hpre, hnp⟩ := hwalk
  cases rest with
  | nil => cases hnp
  | cons x rest' =>
    cases hnp
    refine ⟨pre, rest', rfl, hpre, ?_⟩
    have hnext := h.queues.next_eq (a := pre ++ [tp]) (b := rest') (i := m.timers.lbolt % TIMQ)
      (by rw [hpre]; simp)
    rw [endLink_append] at hnext
    exact hnext

/-- The walk passes a timer that is not due. -/
theorem Armed.pass (h : Armed m Q rest) (hphase : m.timers.phase = .walk (some tp))
    (hne : (m.timers.tim tp).tLbolt ≠ m.timers.lbolt) :
    Armed { m with timers := { m.timers with phase := .walk (m.timers.links.next (.cell tp)) } } Q
      rest.tail := by
  obtain ⟨pre, rest', rfl, hQ, hnext⟩ := h.walk_head hphase
  refine ⟨h.queues, h.lbolt, h.place, h.tLbolt, h.call, fun i t ht hr => ?_,
    fun t ht => h.soon t (List.mem_cons_of_mem tp ht), h.fresh, h.inj, h.kept, h.later,
    ⟨pre ++ [tp], by rw [List.append_assoc]; exact hQ, hnext⟩⟩
  change m.ticks < m.due t ∧ m.due t ≤ m.ticks + LBOLTS
  by_cases htp : t = tp
  · subst htp
    have hdue := h.soon t List.mem_cons_self
    have hneq : m.due t ≠ m.ticks := by
      intro hc
      rw [h.tLbolt i t ht, hc, h.lbolt] at hne
      exact hne rfl
    omega
  · refine h.late i t ht fun hc => hr ?_
    exact (List.mem_cons.mp hc).resolve_left htp

/-- **The walk calls** the function of a timer that is due. -/
theorem Armed.serve (h : Armed m Q rest) (hphase : m.timers.phase = .walk (some tp))
    (heq : (m.timers.tim tp).tLbolt = m.timers.lbolt) {f : ℕ}
    (hf : (m.timers.tim tp).tFunc = some f) :
    Armed
      { m with
        timers := { m.timers.unlink tp with phase := .call (m.timers.links.next (.cell tp)) }
        ran := Function.update m.ran (m.arming tp)
          (m.ran (m.arming tp) ++ [(m.ticks, f, (m.timers.tim tp).tFarg)]) }
      (fun i => (Q i).erase tp) rest.tail := by
  obtain ⟨pre, rest', rfl, hQ, hnext⟩ := h.walk_head hphase
  have htp : tp ∈ Q (m.timers.lbolt % TIMQ) := by rw [hQ]; simp
  have hmem : ∀ i t, t ∈ (Q i).erase tp → t ∈ Q i ∧ t ≠ tp := by
    intro i t ht
    exact ⟨List.mem_of_mem_erase ht, fun hc => (h.queues.nodup i).not_mem_erase (hc ▸ ht)⟩
  have hother : ∀ i t, t ∈ (Q i).erase tp → m.arming t ≠ m.arming tp := by
    intro i t ht hc
    obtain ⟨hq, hne⟩ := hmem i t ht
    exact hne (h.inj _ _ _ _ hq htp hc)
  -- it is due now
  have hdue : m.due tp = m.ticks := by
    have hsoon := h.soon tp List.mem_cons_self
    have hmod := h.tLbolt _ tp htp
    rw [heq, h.lbolt] at hmod
    unfold LBOLTS at *
    omega
  obtain ⟨f', hf', hwant⟩ := h.call _ tp htp
  rw [hf] at hf'
  cases hf'
  have hcall : m.want (m.arming tp) = (m.ticks, f, (m.timers.tim tp).tFarg) := by
    rw [← hwant, ← hdue]
    rfl
  obtain ⟨hlt, hran, -⟩ := h.fresh _ tp htp
  refine ⟨h.queues.unlink tp, h.lbolt, fun i t ht => h.place i t (hmem i t ht).1,
    fun i t ht => h.tLbolt i t (hmem i t ht).1, fun i t ht => h.call i t (hmem i t ht).1,
    fun i t ht hr => ?_, fun t ht => h.soon t (List.mem_cons_of_mem tp ht), fun i t ht => ?_,
    fun i j t t' ht ht' => h.inj i j t t' (hmem i t ht).1 (hmem j t' ht').1, fun n hn => ?_,
    fun n hn => ?_, ?_⟩
  · refine h.late i t (hmem i t ht).1 fun hc => hr ?_
    exact (List.mem_cons.mp hc).resolve_left (hmem i t ht).2
  · obtain ⟨hlt, hran, hend⟩ := h.fresh i t (hmem i t ht).1
    exact ⟨hlt, (Function.update_of_ne (hother i t ht) _ _).trans hran, hend⟩
  · simp only [Function.update_apply]
    by_cases hn' : n = m.arming tp
    · subst hn'
      right
      left
      rw [if_pos rfl, hran, hcall]
      exact ⟨rfl, le_rfl⟩
    · rw [if_neg hn']
      rcases h.kept n hn with ⟨i, t, ht, rfl⟩ | hrest
      · exact Or.inl ⟨i, t, (List.mem_erase_of_ne fun hc => hn' (by rw [hc])).mpr ht, rfl⟩
      · exact Or.inr hrest
  · have hne : n ≠ m.arming tp := by
      rintro rfl
      exact absurd hlt (not_lt.mpr hn)
    exact ⟨(Function.update_of_ne hne _ _).trans (h.later n hn).1, (h.later n hn).2⟩
  · refine ⟨pre, ?_, hnext⟩
    have hnd := h.queues.nodup (m.timers.lbolt % TIMQ)
    rw [hQ, List.nodup_append'] at hnd
    change (Q (m.timers.lbolt % TIMQ)).erase tp = pre ++ rest'
    rw [hQ, erase_append fun hc => hnd.2.2 hc List.mem_cons_self]

/-! ### Runs -/

/-- Nobody takes the timer that the walk goes on with off its queue. -/
def Untouched (m : System τ) : Event τ → Prop
  | .timeout tp _ _ _ | .timeout2 tp _ _ _ => m.timers.phase ≠ .call (some tp)
  | _ => True

theorem not_walk {a : System τ} {x : Option (System τ)} (hstep : (match m.timers.phase with
    | .walk _ => none
    | _ => x) = some a) : (∀ np, m.timers.phase ≠ .walk np) ∧ x = some a := by
  cases hphase : m.timers.phase with
  | walk np =>
    rw [hphase] at hstep
    cases hstep
  | idle | call np =>
    rw [hphase] at hstep
    exact ⟨fun np hc => (by cases hc), hstep⟩

/-- `timeout` keeps the timers. -/
theorem Armed.timeout (h : Armed m Q rest) {n : Fin LBOLTS} {f : Option ℕ} {a : ℤ}
    (hok : m.timers.phase ≠ .call (some tp)) (hstep : m.step (.timeout tp n f a) = some m') :
    ∃ Q' rest', Armed m' Q' rest' := by
  obtain ⟨hwalk, hstep⟩ := not_walk hstep
  have hcancel := h.cancel (h.head_ne hok hwalk) { m.timers.tim tp with tFunc := f }
  cases f with
  | none =>
    cases hstep
    exact ⟨_, _, hcancel⟩
  | some f =>
    cases hstep
    exact ⟨_, _, hcancel.request (n := n) (f := f) (c :=
      { ((m.timers.unlink tp).setTim tp { m.timers.tim tp with tFunc := some f }).tim tp with
        tLbolt := (m.timers.lbolt + n) % LBOLTS, tFarg := a })
      (fun i => (h.queues.nodup i).not_mem_erase) n.isLt rfl
      (congrArg Tim.tFunc (Function.update_self tp _ m.timers.tim))⟩

/-- `timeout2` keeps the timers. -/
theorem Armed.timeout2 (h : Armed m Q rest) {n : ℤ} {f : Option ℕ} {a : ℤ}
    (hok : m.timers.phase ≠ .call (some tp)) (hstep : m.step (.timeout2 tp n f a) = some m') :
    ∃ Q' rest', Armed m' Q' rest' := by
  obtain ⟨hwalk, hstep⟩ := not_walk hstep
  have hcancel := h.cancel (h.head_ne hok hwalk) (m.timers.tim tp)
  have hsame : (m.timers.unlink tp).setTim tp (m.timers.tim tp) = m.timers.unlink tp := by
    unfold Timers.setTim Timers.unlink
    rw [Function.update_eq_self]
  rw [hsame] at hcancel
  unfold Timers.timeout2 at hstep
  cases f with
  | none =>
    cases hstep
    exact ⟨_, _, hcancel⟩
  | some f =>
    by_cases hn : n = 0
    · simp only [hn, or_true, if_true] at hstep
      cases hstep
      exact ⟨_, _, hcancel⟩
    · simp only [hn, reduceCtorEq, or_false, if_false] at hstep
      cases hstep
      refine ⟨_, _, hcancel.request (n := (n % LBOLTS).toNat) (f := f) (c :=
        { tLbolt := ((m.timers.lbolt + n) % LBOLTS).toNat, tFunc := some f, tFarg := a })
        (fun i => (h.queues.nodup i).not_mem_erase) ?_ ?_ rfl⟩
      · unfold LBOLTS
        omega
      · change ((m.timers.lbolt + n) % LBOLTS).toNat =
          (m.timers.lbolt + (n % LBOLTS).toNat) % LBOLTS
        unfold LBOLTS
        omega

/-- **Every step** keeps the timers. -/
theorem Armed.step (h : Armed m Q rest) (hok : Untouched m e) (hstep : m.step e = some m') :
    ∃ Q' rest', Armed m' Q' rest' := by
  cases e with
  | timeout tp n f a => exact h.timeout hok hstep
  | timeout2 tp n f a => exact h.timeout2 hok hstep
  | tick =>
    unfold System.step at hstep
    cases hphase : m.timers.phase with
    | idle =>
      rw [hphase] at hstep
      cases hstep
      exact ⟨_, _, h.tick hphase⟩
    | walk np | call np =>
      rw [hphase] at hstep
      cases hstep
  | look =>
    unfold System.step at hstep
    cases hphase : m.timers.phase with
    | idle | call np =>
      rw [hphase] at hstep
      cases hstep
    | walk np =>
      cases np with
      | none =>
        rw [hphase] at hstep
        cases hstep
      | some tp =>
        rw [hphase] at hstep
        obtain ⟨⟨timers, call⟩, hlook, rfl⟩ := Option.map_eq_some_iff.mp hstep
        unfold Timers.look at hlook
        by_cases hne : (m.timers.tim tp).tLbolt ≠ m.timers.lbolt
        · rw [if_pos hne] at hlook
          cases hlook
          exact ⟨_, _, h.pass hphase hne⟩
        · rw [if_neg hne] at hlook
          cases hl : m.timers.links.last tp with
          | none =>
            rw [hl] at hlook
            cases hlook
          | some l =>
            cases hf : (m.timers.tim tp).tFunc with
            | none =>
              rw [hl, hf] at hlook
              cases hlook
            | some f =>
              rw [hl, hf] at hlook
              cases hlook
              exact ⟨_, _, h.serve hphase (not_not.mp hne) hf⟩
  | ret =>
    unfold System.step at hstep
    cases hphase : m.timers.phase with
    | idle | walk np =>
      rw [hphase] at hstep
      cases hstep
    | call np =>
      rw [hphase] at hstep
      cases hstep
      have hwalk := h.walk
      rw [hphase] at hwalk
      exact ⟨Q, rest, h.queues, h.lbolt, h.place, h.tLbolt, h.call, h.late, h.soon, h.fresh, h.inj,
        h.kept, h.later, hwalk⟩
  | done =>
    unfold System.step at hstep
    cases hphase : m.timers.phase with
    | idle | call np =>
      rw [hphase] at hstep
      cases hstep
    | walk np =>
      cases np with
      | some tp =>
        rw [hphase] at hstep
        cases hstep
      | none =>
        rw [hphase] at hstep
        cases hstep
        have hwalk := h.walk
        rw [hphase] at hwalk
        obtain ⟨pre, -, hnp⟩ := hwalk
        exact ⟨Q, rest, h.queues, h.lbolt, h.place, h.tLbolt, h.call, h.late, h.soon, h.fresh,
          h.inj,
          h.kept, h.later, List.head?_eq_none_iff.mp hnp.symm⟩

omit [DecidableEq τ] in
theorem Init.armed (h : Init m) : Armed m (fun _ => []) [] := by
  obtain ⟨hnext, hlast, hl, hphase, hcount, hold⟩ := h
  refine ⟨⟨fun i => trivial, hnext, fun _ => List.nodup_nil, fun i j t ht => (by cases ht),
    fun t _ => hlast t⟩, hl, fun i t ht => (by cases ht), fun i t ht => (by cases ht),
    fun i t ht => (by cases ht), fun i t ht => (by cases ht), fun t ht => (by cases ht),
    fun i t ht => (by cases ht), fun i j t t' ht => (by cases ht), fun n hn => ?_, fun n _ =>
      hold n,
    ?_⟩
  · rw [hcount] at hn
    exact absurd hn (Nat.not_lt_zero n)
  · rw [hphase]

end CohKernel.Clock
