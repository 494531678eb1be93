import Mathlib.Tactic
import Mathlib.Logic.Relation

namespace CohKernel.Lib

open Relation

/-!
# Waiting for one another

A relation `r a b`, read "`a` waits for `b`", and the recursive search for a vertex along it.

* `Acyclic.of_sink` — new edges into a vertex that waits for nobody close no cycle;
* `cyclic_iff` — new edges out of one vertex close a cycle when they lead back to it;
* `Acyclic.insert` — one edge closes no cycle when no path leads back from its end;
* `Acyclic.rank_lt` — the number of the vertices that can be reached gets smaller along an edge;
* `search_true`, `search_false` — what the search finds;
* `search_ne_none` — without cycles the search ends.
-/

variable {α : Type*} {r r' : α → α → Prop} {a b d : α}

/-! ### Cycles -/

/-- Nobody waits for himself, even indirectly. -/
def Acyclic (r : α → α → Prop) : Prop := ∀ a, ¬ TransGen r a a

theorem Acyclic.mono (h : Acyclic r) (himp : ∀ a b, r' a b → r a b) : Acyclic r' :=
  fun a hc => h a (TransGen.mono himp _ _ hc)

/-- A path that does not end at `d` uses no edge into `d` when none leads out of it. -/
theorem path_avoids (hnew : ∀ a b, r' a b → r a b ∨ b = d) (hd : ∀ b, ¬ r' d b)
    (h : TransGen r' a b) (hb : b ≠ d) : TransGen r a b := by
  induction h with
  | single he => exact TransGen.single ((hnew _ _ he).resolve_right hb)
  | @tail b c _ he ih =>
    -- the path goes on at `b`
    have hbd : b ≠ d := by
      rintro rfl
      exact hd c he
    exact (ih hbd).tail ((hnew _ _ he).resolve_right hb)

/-- New edges into a vertex that waits for nobody close no cycle. -/
theorem Acyclic.of_sink (h : Acyclic r) (hnew : ∀ a b, r' a b → r a b ∨ b = d)
    (hd : ∀ b, ¬ r' d b) : Acyclic r' := by
  intro a hc
  obtain ⟨b, hab, -⟩ := TransGen.head'_iff.mp hc
  have had : a ≠ d := by
    rintro rfl
    exact hd b hab
  exact h a (path_avoids hnew hd hc had)

/-- A path with edges out of `d` goes through `d`. -/
theorem path_through (hnew : ∀ a b, r' a b → r a b ∨ a = d) (h : TransGen r' a b) :
    TransGen r a b ∨ ReflTransGen r' a d ∧ TransGen r' d b := by
  induction h with
  | single he =>
    rcases hnew _ _ he with he' | rfl
    · exact Or.inl (TransGen.single he')
    · exact Or.inr ⟨ReflTransGen.refl, TransGen.single he⟩
  | tail hab he ih =>
    rcases ih with ih | ⟨had, hdb⟩
    · rcases hnew _ _ he with he' | rfl
      · exact Or.inl (ih.tail he')
      · exact Or.inr ⟨hab.to_reflTransGen, TransGen.single he⟩
    · exact Or.inr ⟨had, hdb.tail he⟩

/-- **New edges out of one vertex** close a cycle when they lead back to it. -/
theorem cyclic_iff (h : Acyclic r) (hnew : ∀ a b, r' a b → r a b ∨ a = d) :
    ¬ Acyclic r' ↔ TransGen r' d d := by
  refine ⟨fun hc => ?_, fun hd hc => hc d hd⟩
  obtain ⟨a, ha⟩ := not_forall_not.mp hc
  rcases path_through hnew ha with ha | ⟨had, hda⟩
  · exact absurd ha (h a)
  · exact hda.trans_left had

/-- A path with one edge more goes along that edge or does not. -/
theorem path_insert {x y : α} (h : TransGen (fun x y => r x y ∨ x = a ∧ y = b) x y) :
    TransGen r x y ∨ ReflTransGen r x a ∧ ReflTransGen r b y := by
  induction h with
  | single he =>
    rcases he with he | ⟨rfl, rfl⟩
    · exact Or.inl (TransGen.single he)
    · exact Or.inr ⟨ReflTransGen.refl, ReflTransGen.refl⟩
  | tail _ he ih =>
    rcases he with he | ⟨rfl, rfl⟩
    · rcases ih with ih | ⟨hx, hy⟩
      · exact Or.inl (ih.tail he)
      · exact Or.inr ⟨hx, hy.tail he⟩
    · rcases ih with ih | ⟨hx, -⟩
      · exact Or.inr ⟨ih.to_reflTransGen, ReflTransGen.refl⟩
      · exact Or.inr ⟨hx, ReflTransGen.refl⟩

/-- One edge closes no cycle when no path leads back from its end. -/
theorem Acyclic.insert (h : Acyclic r) (hab : ¬ ReflTransGen r b a) :
    Acyclic fun x y => r x y ∨ x = a ∧ y = b := by
  intro x hc
  rcases path_insert hc with hc | ⟨hxa, hbx⟩
  · exact h x hc
  · exact hab (hbx.trans hxa)

/-! ### How far the vertices are from the end -/

open Classical in
/-- How many vertices of a set can be reached. -/
noncomputable def rank (r : α → α → Prop) (V : Finset α) (a : α) : ℕ :=
  (V.filter fun b => TransGen r a b).card

theorem rank_le (r : α → α → Prop) (V : Finset α) (a : α) : rank r V a ≤ V.card := by
  classical
  exact Finset.card_filter_le _ _

theorem Acyclic.rank_lt {V : Finset α} (h : Acyclic r) (hab : r a b) (hb : b ∈ V) :
    rank r V b < rank r V a := by
  classical
  refine Finset.card_lt_card (Finset.ssubset_iff_subset_ne.mpr ⟨fun x hx => ?_, fun heq => ?_⟩)
  · obtain ⟨hx, hbx⟩ := Finset.mem_filter.mp hx
    exact Finset.mem_filter.mpr ⟨hx, TransGen.head hab hbx⟩
  · -- `b` is reached from `a` but not from itself
    have hb' := Finset.mem_filter.mpr ⟨hb, TransGen.single hab⟩
    rw [← heq] at hb'
    exact h b (Finset.mem_filter.mp hb').2

/-! ### The search -/

variable {p : α → Option Bool} {l : List α}

theorem anyM_true (h : l.anyM p = some true) : ∃ a ∈ l, p a = some true := by
  induction l with
  | nil => cases h
  | cons a l ih =>
    rw [List.anyM] at h
    obtain ⟨v, hv, h⟩ := Option.bind_eq_some_iff.mp h
    cases v with
    | true => exact ⟨a, List.mem_cons_self, hv⟩
    | false =>
      obtain ⟨b, hb, hpb⟩ := ih h
      exact ⟨b, List.mem_cons_of_mem _ hb, hpb⟩

theorem anyM_false (h : l.anyM p = some false) : ∀ a ∈ l, p a = some false := by
  induction l with
  | nil => simp
  | cons a l ih =>
    rw [List.anyM] at h
    obtain ⟨v, hv, h⟩ := Option.bind_eq_some_iff.mp h
    cases v with
    | true => cases h
    | false => exact List.forall_mem_cons.mpr ⟨hv, ih h⟩

theorem anyM_ne_none (h : ∀ a ∈ l, p a ≠ none) : l.anyM p ≠ none := by
  induction l with
  | nil => exact Option.some_ne_none _
  | cons a l ih =>
    obtain ⟨ha, hl⟩ := List.forall_mem_cons.mp h
    obtain ⟨v, hv⟩ := Option.ne_none_iff_exists'.mp ha
    rw [List.anyM, hv]
    cases v with
    | true => exact Option.some_ne_none _
    | false => exact ih hl

variable [DecidableEq α] {next : α → List α} {goal : α} {fuel : ℕ}

/-- Whether `goal` is found from a vertex on, at most `fuel` levels deep. -/
def search (next : α → List α) (goal : α) : ℕ → α → Option Bool
  | 0, _ => none
  | fuel + 1, a =>
      (next a).anyM fun b => if b = goal then some true else search next goal fuel b

/-- What the search finds is there. -/
theorem search_true (h : search next goal fuel a = some true) :
    TransGen (fun a b => b ∈ next a) a goal := by
  induction fuel generalizing a with
  | zero => cases h
  | succ fuel ih =>
    obtain ⟨b, hb, hsearch⟩ := anyM_true h
    split_ifs at hsearch with hgoal
    · exact hgoal ▸ TransGen.single hb
    · exact TransGen.head hb (ih hsearch)

/-- What the search does not find is not there. -/
theorem search_false (h : search next goal fuel a = some false) :
    ¬ TransGen (fun a b => b ∈ next a) a goal := by
  induction fuel generalizing a with
  | zero => cases h
  | succ fuel ih =>
    intro hpath
    obtain ⟨b, hb, hrest⟩ := TransGen.head'_iff.mp hpath
    have hsearch := anyM_false h b hb
    split_ifs at hsearch with hgoal
    · cases hsearch
    rcases reflTransGen_iff_eq_or_transGen.mp hrest with heq | hrest
    · exact hgoal heq.symm
    · exact ih hsearch hrest

/-- **The search ends** where no path from the vertex on has a cycle that misses `goal`: it goes
    no deeper than there are vertices that wait. -/
theorem search_ne_none (hacyc : Acyclic fun a b => b ∈ next a ∧ a ≠ goal) (V : Finset α) :
    ∀ a, (∀ x, ReflTransGen (fun a b => b ∈ next a ∧ a ≠ goal) a x → next x ≠ [] → x ∈ V) →
      a ≠ goal → V.card < fuel → search next goal fuel a ≠ none := by
  induction fuel generalizing V with
  | zero => exact fun _ _ _ hcard => absurd hcard (Nat.not_lt_zero _)
  | succ fuel ih =>
    intro a hV ha hcard
    refine anyM_ne_none fun b hb => ?_
    by_cases hgoal : b = goal
    · rw [if_pos hgoal]
      exact Option.some_ne_none _
    rw [if_neg hgoal]
    have haV : a ∈ V := hV a ReflTransGen.refl (List.ne_nil_of_mem hb)
    have hcard' : (V.erase a).card < fuel := by
      rw [Finset.card_erase_of_mem haV]
      have := Finset.card_pos.mpr ⟨a, haV⟩
      omega
    refine ih (V.erase a) b (fun x hx hne => Finset.mem_erase.mpr ⟨?_, ?_⟩) hgoal hcard'
    · -- `a` does not come back
      rintro rfl
      exact hacyc x (TransGen.head' ⟨hb, ha⟩ hx)
    · exact hV x (ReflTransGen.head ⟨hb, ha⟩ hx) hne

end CohKernel.Lib
