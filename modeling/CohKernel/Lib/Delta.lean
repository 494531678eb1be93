import Mathlib.Tactic

namespace CohKernel.Lib

/-!
# Delta queues

A queue of cells in the order in which they are due; each has the distance to the one before it.

* `Delta.append` — a queue in two parts;
* `Delta.head` — the distance of the first cell after a change before it;
* `Delta.lt_due` — when the first cell is not due, none is.
-/

variable {α : Type*} {delta due delta' due' : α → ℤ} {b : ℤ} {c c' : α} {cs cs' : List α}

/-- The cells are due at the times `due`, counted from `b` on. -/
def Delta (delta due : α → ℤ) : ℤ → List α → Prop
  | _, [] => True
  | b, c :: cs => due c = b + delta c ∧ 0 ≤ delta c ∧ Delta delta due (due c) cs

/-- The time at which the last cell is due. -/
def lastDue (due : α → ℤ) (b : ℤ) (cs : List α) : ℤ := (cs.getLast?.map due).getD b

@[simp] theorem lastDue_nil : lastDue due b [] = b := rfl

@[simp] theorem lastDue_cons : lastDue due b (c :: cs) = lastDue due (due c) cs := by
  unfold lastDue
  cases cs with
  | nil => rfl
  | cons d cs => simp [List.getLast?_cons]

/-- A queue in two parts. -/
theorem Delta.append : Delta delta due b (cs ++ cs') ↔
    Delta delta due b cs ∧ Delta delta due (lastDue due b cs) cs' := by
  induction cs generalizing b with
  | nil => simp [Delta]
  | cons c cs ih =>
    rw [List.cons_append, Delta, Delta, ih, lastDue_cons]
    tauto

/-- Cells that have the same distances and are due at the same times. -/
theorem Delta.congr (h : Delta delta due b cs) (hdelta : ∀ c ∈ cs, delta' c = delta c)
    (hdue : ∀ c ∈ cs, due' c = due c) : Delta delta' due' b cs := by
  induction cs generalizing b with
  | nil => exact trivial
  | cons c cs ih =>
    obtain ⟨heq, hpos, hrest⟩ := h
    rw [Delta, hdelta c List.mem_cons_self, hdue c List.mem_cons_self]
    exact ⟨heq, hpos, ih hrest (fun d hd => hdelta d (List.mem_cons_of_mem c hd))
      fun d hd => hdue d (List.mem_cons_of_mem c hd)⟩

/-- The first cell gets another distance, counted from another time. -/
theorem Delta.head (h : Delta delta due b (c :: cs)) {b' : ℤ} (hdue : due c' = due c)
    (hdelta : delta c' = due c - b') (hle : b' ≤ due c) : Delta delta due b' (c' :: cs) := by
  obtain ⟨-, -, hrest⟩ := h
  refine ⟨by omega, by omega, ?_⟩
  rw [hdue]
  exact hrest

/-- The times do not go down. -/
theorem Delta.le_due (h : Delta delta due b cs) : ∀ c ∈ cs, b ≤ due c := by
  induction cs generalizing b with
  | nil => exact fun c hc => by cases hc
  | cons d cs ih =>
    obtain ⟨heq, hpos, hrest⟩ := h
    intro c hc
    rcases List.mem_cons.mp hc with rfl | hc
    · omega
    · have := ih hrest c hc
      omega

/-- When the first cell is not due, none is. -/
theorem Delta.lt_due (h : Delta delta due b (c :: cs)) (hpos : 0 < delta c) :
    ∀ d ∈ c :: cs, b < due d := by
  obtain ⟨heq, -, hrest⟩ := h
  intro d hd
  rcases List.mem_cons.mp hd with rfl | hd
  · omega
  · have := hrest.le_due d hd
    omega

end CohKernel.Lib
