import Mathlib.Tactic

namespace CohKernel.Lib

/-!
# Singly linked lists

Lists of cells that each name the next one, with a head outside of the cells.  A search goes along
the links, so that a cell can be taken out through the link it has been found at.

* `Linked` — the cells of a list, in order; `walk_eq` computes them;
* `Linked.push` — a new cell at the head;
* `Linked.append` — a new cell at the tail;
* `Linked.unlink` — a cell is taken out at the link that names it.
-/

variable {ι : Type*} {next : ι → Option ι} {head : Option ι} {l : List ι} {x y : ι}

/-- From `head` on, the cells are those of the list. -/
def Linked (next : ι → Option ι) : Option ι → List ι → Prop
  | head, [] => head = none
  | head, x :: l => head = some x ∧ Linked next (next x) l

/-- The first `fuel` cells. -/
def walk (next : ι → Option ι) : ℕ → Option ι → List ι
  | 0, _ => []
  | _ + 1, none => []
  | fuel + 1, some x => x :: walk next fuel (next x)

theorem walk_eq {fuel : ℕ} (h : Linked next head l) (hl : l.length ≤ fuel) :
    walk next fuel head = l := by
  induction l generalizing head fuel with
  | nil =>
    rw [Linked] at h
    cases h
    cases fuel <;> rfl
  | cons x l ih =>
    obtain ⟨rfl, h⟩ := h
    cases fuel with
    | zero => cases hl
    | succ fuel => rw [walk, ih h (Nat.le_of_succ_le_succ hl)]

theorem Linked.congr {next' : ι → Option ι} (h : Linked next head l)
    (hnext : ∀ x ∈ l, next' x = next x) : Linked next' head l := by
  induction l generalizing head with
  | nil => exact h
  | cons x l ih =>
    obtain ⟨hx, hl⟩ := List.forall_mem_cons.mp hnext
    exact ⟨h.1, ih (hx ▸ h.2) hl⟩

/-- Each cell names the one behind it. -/
theorem Linked.next_eq {l₁ l₂ : List ι} (h : Linked next head (l₁ ++ y :: x :: l₂)) :
    next y = some x := by
  induction l₁ generalizing head with
  | nil => exact h.2.1
  | cons z l₁ ih => exact ih h.2

/-- The cells are those that the links lead to, one after the other. -/
theorem Linked.iterate (h : Linked next head l) (n : ℕ) :
    (fun y : Option ι => y.bind next)^[n] head = l[n]? := by
  induction n generalizing head l with
  | zero =>
    cases l with
    | nil => exact h
    | cons x l => exact h.1
  | succ n ih =>
    rw [Function.iterate_succ_apply]
    cases l with
    | nil =>
      rw [Linked] at h
      subst h
      exact ih (show Linked next none [] from rfl)
    | cons x l =>
      obtain ⟨rfl, h⟩ := h
      exact ih h

variable [DecidableEq ι]

/-- A new cell at the head. -/
theorem Linked.push (h : Linked next head l) (hx : x ∉ l) :
    Linked (Function.update next x head) (some x) (x :: l) := by
  refine ⟨rfl, ?_⟩
  rw [Function.update_self]
  apply h.congr
  rintro y hy
  apply Function.update_of_ne
  rintro rfl
  exact hx hy

/-- A new cell behind the last one. -/
theorem Linked.append (h : Linked next head l) (hnodup : l.Nodup) (hx : x ∉ l) :
    Linked (match l.getLast? with
      | none => Function.update next x none
      | some y => Function.update (Function.update next x none) y (some x))
      (if l.getLast? = none then some x else head) (l ++ [x]) := by
  induction l generalizing head with
  | nil => exact ⟨rfl, Function.update_self _ _ _⟩
  | cons y l ih =>
    obtain ⟨rfl, h⟩ := h
    obtain ⟨hy, hnodup⟩ := List.nodup_cons.mp hnodup
    obtain ⟨hxy, hx⟩ := List.ne_and_not_mem_of_not_mem_cons hx
    rw [if_neg (by simp)]
    refine ⟨rfl, ?_⟩
    cases l with
    | nil =>
      rw [Linked] at h
      show Linked (Function.update (Function.update next x none) y (some x)) _ [x]
      refine ⟨Function.update_self _ _ _, ?_⟩
      rw [Function.update_of_ne hxy]
      exact Function.update_self _ _ _
    | cons z l =>
      have ih := ih h hnodup hx
      rw [if_neg (by simp)] at ih
      rw [List.getLast?_cons_cons]
      obtain ⟨w, hw⟩ : ∃ w, (z :: l).getLast? = some w := Option.isSome_iff_exists.mp (by simp)
      have hyw : y ≠ w := by
        rintro rfl
        exact hy (List.mem_of_getLast? hw)
      rw [hw] at ih ⊢
      dsimp only at ih ⊢
      rw [Function.update_of_ne hyw, Function.update_of_ne (Ne.symm hxy)]
      exact ih

/-! ### Taking a cell out -/

/-- A pointer to a link: to the head, or to the link of a cell. -/
inductive Via (ι : Type*) where
  | head
  | next (x : ι)
deriving DecidableEq

/-- What the link names. -/
def Via.read (next : ι → Option ι) (head : Option ι) : Via ι → Option ι
  | .head => head
  | .next x => next x

/-- The link belongs to the list. -/
def Via.live (l : List ι) : Via ι → Prop
  | .head => True
  | .next x => x ∈ l

/-- The head after a store through the link. -/
def Via.storeHead (head y : Option ι) : Via ι → Option ι
  | .head => y
  | .next _ => head

/-- The links after a store through the link. -/
def Via.storeNext (next : ι → Option ι) (y : Option ι) : Via ι → ι → Option ι
  | .head => next
  | .next x => Function.update next x y

omit [DecidableEq ι] in
theorem Via.read_mem (via : Via ι) (h : Linked next head l) (hlive : via.live l)
    (hread : via.read next head = some x) : x ∈ l := by
  cases via with
  | head =>
    cases l with
    | nil => cases h.symm.trans hread
    | cons y l =>
      cases h.1.symm.trans hread
      exact List.mem_cons_self
  | next z =>
    change z ∈ l at hlive
    change next z = some x at hread
    induction l generalizing head with
    | nil => cases hlive
    | cons y l ih =>
      rcases List.mem_cons.mp hlive with rfl | hz
      · have h := h.2
        rw [hread] at h
        cases l with
        | nil => cases h
        | cons w l =>
          cases h.1
          exact List.mem_cons_of_mem _ List.mem_cons_self
      · exact List.mem_cons_of_mem _ (ih h.2 hz)

/-- **A cell is taken out** at the link that names it. -/
theorem Linked.unlink {via : Via ι} (h : Linked next head l) (hnodup : l.Nodup)
    (hlive : via.live l) (hread : via.read next head = some x) :
    Linked (via.storeNext next (next x)) (via.storeHead head (next x)) (l.erase x) := by
  cases via with
  | head =>
    change head = some x at hread
    subst hread
    cases l with
    | nil => cases h
    | cons y l =>
      obtain ⟨hy, h⟩ := h
      cases hy
      rw [List.erase_cons_head]
      exact h
  | next z =>
    change z ∈ l at hlive
    change next z = some x at hread
    show Linked (Function.update next z (next x)) head (l.erase x)
    induction l generalizing head with
    | nil => cases hlive
    | cons y l ih =>
      obtain ⟨rfl, h⟩ := h
      obtain ⟨hy, hnodup⟩ := List.nodup_cons.mp hnodup
      rcases List.mem_cons.mp hlive with rfl | hz
      · rw [hread] at h
        cases l with
        | nil => cases h
        | cons w l =>
          obtain ⟨hw, h⟩ := h
          cases hw
          have hwz : z ≠ x := fun heq => hy (heq ▸ List.mem_cons_self)
          rw [List.erase_cons_tail (by simpa using hwz), List.erase_cons_head]
          refine ⟨rfl, ?_⟩
          rw [Function.update_self]
          apply h.congr
          rintro v hv
          apply Function.update_of_ne
          rintro rfl
          exact hy (List.mem_cons_of_mem _ hv)
      · have hx : x ∈ l := Via.read_mem (.next z) h hz hread
        have hyx : y ≠ x := fun heq => hy (heq ▸ hx)
        have hyz : y ≠ z := fun heq => hy (heq ▸ hz)
        rw [List.erase_cons_tail (by simpa using hyx)]
        refine ⟨rfl, ?_⟩
        rw [Function.update_of_ne hyz]
        exact ih h hnodup hz

end CohKernel.Lib
