import CohKernel.Lib.Bytes

namespace CohKernel.Lib

/-!
# Stores

A memory is told by the stores into it.  When every store agrees with what is meant to be at its
address, what is meant to be there is read from each address that has been written, in whatever
order the stores were made.

* `Fine` — every store agrees with what is meant;
* `read_fine` — what is read after such stores;
* `shows_append` — a list in memory is its parts one after the other.
-/

variable {α : Type}

/-- What is read after some stores, of which the last one is the first of the list. -/
def readStores (init : α) : List (ℕ × α) → ℕ → α
  | [], _ => init
  | (b, v) :: log, a => if b = a then v else readStores init log a

/-- An address has been written. -/
def Written (log : List (ℕ × α)) (a : ℕ) : Prop := ∃ v, (a, v) ∈ log

/-- Every store agrees with what is meant to be at its address. -/
def Fine (spec : ℕ → Option α) (log : List (ℕ × α)) : Prop := ∀ p ∈ log, spec p.1 = some p.2

/-- A list is in memory from an address on. -/
def Shows (spec : ℕ → Option α) (o : ℕ) (l : List α) : Prop :=
  ∀ i, (h : i < l.length) → spec (o + i) = some (l.get ⟨i, h⟩)

variable {spec : ℕ → Option α} {log : List (ℕ × α)} {a o : ℕ} {init v : α} {l l' : List α}

/-- **What is meant is read**, at an address that has been written, or where it is what was there
    before. -/
theorem read_fine (hfine : Fine spec log) (hspec : spec a = some v)
    (h : Written log a ∨ init = v) : readStores init log a = v := by
  induction log with
  | nil =>
    rcases h with ⟨w, hw⟩ | h
    · cases hw
    · exact h
  | cons p log ih =>
    obtain ⟨b, w⟩ := p
    unfold readStores
    by_cases hb : b = a
    · rw [if_pos hb]
      have hw := hfine (b, w) List.mem_cons_self
      rw [hb] at hw
      exact Option.some.inj (hw.symm.trans hspec)
    · rw [if_neg hb]
      refine ih (fun p hp => hfine p (List.mem_cons_of_mem _ hp)) (h.imp_left ?_)
      rintro ⟨x, hx⟩
      rcases List.mem_cons.mp hx with heq | hx
      · exact absurd (Prod.mk.inj heq).1.symm hb
      · exact ⟨x, hx⟩

theorem Fine.cons (h : Fine spec log) (hv : spec a = some v) : Fine spec ((a, v) :: log) :=
  fun _ hp => (List.mem_cons.mp hp).elim (fun heq => heq ▸ hv) fun hp => h _ hp

theorem Written.cons (h : Written log a) (p : ℕ × α) : Written (p :: log) a :=
  h.imp fun _ => List.mem_cons_of_mem p

theorem shows_nil : Shows spec o [] := fun _ h => absurd h (Nat.not_lt_zero _)

theorem shows_cons : Shows spec o (v :: l) ↔ spec o = some v ∧ Shows spec (o + 1) l := by
  constructor
  · refine fun h => ⟨h 0 (Nat.succ_pos _), fun i hi => ?_⟩
    rw [Nat.add_assoc, Nat.add_comm 1 i]
    exact h (i + 1) (Nat.succ_lt_succ hi)
  · rintro ⟨hv, hl⟩ (_ | i) hi
    · exact hv
    · have := hl i (Nat.lt_of_succ_lt_succ hi)
      rwa [Nat.add_assoc, Nat.add_comm 1 i] at this

/-- A list in memory is its parts one after the other. -/
theorem shows_append : Shows spec o (l ++ l') ↔ Shows spec o l ∧ Shows spec (o + l.length) l' := by
  induction l generalizing o with
  | nil => exact ⟨fun h => ⟨shows_nil, h⟩, fun h => h.2⟩
  | cons x l ih =>
    rw [List.cons_append, shows_cons, shows_cons, ih, and_assoc, List.length_cons, Nat.add_assoc,
      Nat.add_comm 1]

/-- A list that is placed at an address. -/
def place (base : ℕ) (l : List α) (a : ℕ) : Option α := if base ≤ a then l[a - base]? else none

theorem shows_place (base : ℕ) (l : List α) : Shows (place base l) base l := fun i h => by
  rw [place, if_pos (Nat.le_add_right _ _), Nat.add_sub_cancel_left, List.getElem?_eq_getElem h]
  rfl

theorem place_lt (h : place o l a = some v) : a < o + l.length := by
  unfold place at h
  split_ifs at h with ho
  obtain ⟨hlt, -⟩ := List.getElem?_eq_some_iff.mp h
  omega

end CohKernel.Lib
