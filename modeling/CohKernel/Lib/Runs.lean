import Mathlib.Logic.Relation
import CohKernel.Lib.Instances

namespace CohKernel.Lib

/-!
# Runs of a system

A system has states, events, and a partial step function; an event that cannot happen in a state
has no step.  `Reach` are the states of the runs whose steps all meet a condition, `After` relates
a state to the later ones.

* `Reach.invariant` — what holds at the start and is kept by every step holds in every state;
* `After.invariant` — what is kept by every step stays true;
* `Reach.run` — a computed run reaches its last state;
* `runFrom_finish` — an event that always gets nearer to an end gets there;
* `bind_ok` — the parts of a computation that does not fail.
-/

variable {σ ε : Type*} {init : σ → Prop} {step : σ → ε → Option σ} {ok ok' : σ → ε → Prop}

/-- The states of runs that start in `init` and whose steps meet `ok`. -/
inductive Reach (init : σ → Prop) (step : σ → ε → Option σ) (ok : σ → ε → Prop) : σ → Prop
  | init {s : σ} : init s → Reach init step ok s
  | step {s s' : σ} {e : ε} : Reach init step ok s → ok s e → step s e = some s' →
      Reach init step ok s'

theorem Reach.invariant {Inv : σ → Prop} (hinit : ∀ s, init s → Inv s)
    (hstep : ∀ s e s', Inv s → ok s e → step s e = some s' → Inv s') {s : σ}
    (h : Reach init step ok s) : Inv s := by
  induction h with
  | init h => exact hinit _ h
  | step _ hok hs ih => exact hstep _ _ _ ih hok hs

/-- `s'` comes after `s` in a run whose steps meet `ok`. -/
def After (step : σ → ε → Option σ) (ok : σ → ε → Prop) : σ → σ → Prop :=
  Relation.ReflTransGen fun s s' => ∃ e, ok s e ∧ step s e = some s'

theorem After.reach {s s' : σ} (h : After step ok s s') (hs : Reach init step ok s) :
    Reach init step ok s' := by
  induction h with
  | refl => exact hs
  | tail _ hstep ih =>
    obtain ⟨e, hok, he⟩ := hstep
    exact ih.step hok he

theorem After.invariant {Inv : σ → Prop}
    (hstep : ∀ s e s', Inv s → ok s e → step s e = some s' → Inv s') {s s' : σ}
    (h : After step ok s s') (hs : Inv s) : Inv s' := by
  induction h with
  | refl => exact hs
  | tail _ hs' ih =>
    obtain ⟨e, hok, he⟩ := hs'
    exact hstep _ _ _ ih hok he

/-- A computed run: the state after a list of events. -/
def runFrom (step : σ → ε → Option σ) : σ → List ε → Option σ
  | s, [] => some s
  | s, e :: es => (step s e).bind fun s => runFrom step s es

theorem After.of_runFrom (hok : ∀ s e, ok s e) {es : List ε} {s s' : σ}
    (h : runFrom step s es = some s') : After step ok s s' := by
  induction es generalizing s with
  | nil =>
    cases h
    exact Relation.ReflTransGen.refl
  | cons e es ih =>
    obtain ⟨t, ht, h⟩ := Option.bind_eq_some_iff.mp h
    exact Relation.ReflTransGen.head ⟨e, hok s e, ht⟩ (ih h)

theorem Reach.run (hok : ∀ s e, ok s e) {es : List ε} {s s' : σ} (hs : Reach init step ok s)
    (h : runFrom step s es = some s') : Reach init step ok s' := (After.of_runFrom hok h).reach hs

/-- A computed run whose events are all allowed. -/
theorem Reach.runOf {es : List ε} (hok : ∀ e ∈ es, ∀ s, ok s e) {s s' : σ}
    (hs : Reach init step ok s) (h : runFrom step s es = some s') : Reach init step ok s' := by
  induction es generalizing s with
  | nil =>
    cases h
    exact hs
  | cons e es ih =>
    obtain ⟨t, ht, h⟩ := Option.bind_eq_some_iff.mp h
    exact ih (fun e' he' => hok e' (List.mem_cons_of_mem e he'))
      (hs.step (hok e List.mem_cons_self s) ht) h

/-- A computed run in which each event passes a check before its step. -/
theorem Reach.checked {check : σ → ε → Bool} (hok : ∀ s e, check s e = true → ok s e)
    {es : List ε} {s s' : σ} (hs : Reach init step ok s)
    (h : runFrom (fun s e => if check s e then step s e else none) s es = some s') :
    Reach init step ok s' := by
  induction es generalizing s with
  | nil =>
    cases h
    exact hs
  | cons e es ih =>
    obtain ⟨t, ht, h⟩ := Option.bind_eq_some_iff.mp h
    obtain ⟨hcheck, ht⟩ := Option.ite_none_right_eq_some.mp ht
    exact ih (hs.step (hok s e hcheck) ht) h

/-- **An end is reached** by an event that happens as long as it is not, and makes a measure less.
    -/
theorem runFrom_finish {Inv done : σ → Prop} {e : ε} (μ : σ → ℕ)
    (hstep : ∀ s, Inv s → ¬ done s → ∃ s', step s e = some s' ∧ Inv s' ∧ μ s' < μ s) {s : σ}
    (hs : Inv s) : ∃ n s', runFrom step s (List.replicate n e) = some s' ∧ Inv s' ∧ done s' := by
  induction hμ : μ s using Nat.strong_induction_on generalizing s with
  | _ m ih =>
    by_cases hdone : done s
    · exact ⟨0, s, rfl, hs, hdone⟩
    · obtain ⟨t, ht, hinv, hlt⟩ := hstep s hs hdone
      obtain ⟨n, s', hrun, hs', hend⟩ := ih (μ t) (hμ ▸ hlt) hinv rfl
      refine ⟨n + 1, s', ?_, hs', hend⟩
      rw [List.replicate_succ]
      exact Option.bind_eq_some_iff.mpr ⟨t, ht, hrun⟩

/-- What every event of a list keeps holds at the end of a computed run. -/
theorem runFrom_invariant {Inv : σ → Prop} {es : List ε}
    (hstep : ∀ e ∈ es, ∀ s s', Inv s → step s e = some s' → Inv s') {s s' : σ} (hs : Inv s)
    (h : runFrom step s es = some s') : Inv s' := by
  induction es generalizing s with
  | nil =>
    cases h
    exact hs
  | cons e es ih =>
    obtain ⟨t, ht, h⟩ := Option.bind_eq_some_iff.mp h
    exact ih (fun e' he' => hstep e' (List.mem_cons_of_mem e he'))
      (hstep e List.mem_cons_self s t hs ht) h

/-- Both parts of a computation that does not fail do not fail. -/
theorem bind_ok {α β φ : Type} {x : Except φ α} {f : α → Except φ β} {b : β}
    (h : x >>= f = .ok b) : ∃ a, x = .ok a ∧ f a = .ok b := by
  cases x with
  | error e => cases h
  | ok a => exact ⟨a, rfl, h⟩

end CohKernel.Lib
