import Mathlib.Tactic

namespace CohKernel.Lib

/-!
# Rings

A ring of `N` cells that is filled from `head` on, with wrap-around.

* `window_add` — the first cells and the rest;
* `window_store` — what is stored behind the last cell is appended;
* `Queued.push`, `Queued.pop` — a queue in a ring: what is put into it, and what is taken out.
-/

variable {α : Type*}

/-- The contents of `count` cells from `head` on. -/
def window (cells : ℕ → α) (N head count : ℕ) : List α :=
  (List.range count).map fun i => cells ((head + i) % N)

/-- Store the first `k` values of a list in a row of cells. -/
def store (cells : ℕ → α) (off : ℕ) (data : List α) (k : ℕ) (d : α) : ℕ → α :=
  fun i => if off ≤ i ∧ i < off + k then data.getD (i - off) d else cells i

variable {cells : ℕ → α} {N head count k : ℕ} {data : List α} {d : α}

@[simp] theorem length_window : (window cells N head count).length = count := by simp [window]

/-- The index of a cell that is not a round away. -/
theorem wrap_cases {i : ℕ} (hhead : head < N) (hi : i ≤ N) :
    head + i < N ∧ (head + i) % N = head + i ∨ N ≤ head + i ∧ (head + i) % N = head + i - N := by
  rcases Nat.lt_or_ge (head + i) N with hlt | hge
  · exact Or.inl ⟨hlt, Nat.mod_eq_of_lt hlt⟩
  · refine Or.inr ⟨hge, ?_⟩
    rw [Nat.mod_eq_sub_mod hge, Nat.mod_eq_of_lt (by omega)]

theorem window_add (cells : ℕ → α) (N head k count : ℕ) :
    window cells N head (k + count) =
      window cells N head k ++ window cells N ((head + k) % N) count := by
  unfold window
  rw [List.range_add, List.map_append, List.map_map]
  congr 1
  refine List.map_congr_left fun i _ => ?_
  rw [Function.comp_apply, Nat.mod_add_mod, Nat.add_assoc]

/-- Cells that do not wrap around. -/
theorem window_flat (h : head + k ≤ N) :
    window cells N head k = (List.range k).map fun i => cells (head + i) := by
  refine List.map_congr_left fun i hi => ?_
  have := List.mem_range.mp hi
  rw [Nat.mod_eq_of_lt (by omega)]

theorem take_eq_map_getD (hk : k ≤ data.length) :
    data.take k = (List.range k).map fun i => data.getD i d := by
  refine List.ext_getElem (by simpa using hk) fun i h1 h2 => ?_
  rw [List.length_take] at h1
  rw [List.getElem_take, List.getElem_map, List.getElem_range, List.getD_eq_getElem?_getD,
    List.getElem?_eq_getElem (by omega), Option.getD_some]

/-- Values that are stored in free cells in a row. -/
theorem window_store (hhead : head < N) (hroom : count + k ≤ N) (hrow : (head + count) % N + k ≤ N)
    (hk : k ≤ data.length) :
    window (store cells ((head + count) % N) data k d) N head (count + k) =
      window cells N head count ++ data.take k := by
  rw [window_add]
  congr 1
  · -- the cells before are others
    refine List.map_congr_left fun i hi => ?_
    have hlt := List.mem_range.mp hi
    refine if_neg ?_
    rcases wrap_cases hhead (by omega : i ≤ N) with ⟨h1, heq⟩ | ⟨h1, heq⟩ <;>
      rcases wrap_cases hhead (by omega : count ≤ N) with ⟨h2, heq'⟩ | ⟨h2, heq'⟩ <;>
      rw [heq, heq'] <;> rw [heq'] at hrow <;> omega
  · rw [window_flat hrow, take_eq_map_getD (d := d) hk]
    refine List.map_congr_left fun i hi => ?_
    have hlt := List.mem_range.mp hi
    rw [store, if_pos (by omega), Nat.add_sub_cancel_left]

/-- One value is stored. -/
theorem window_push {x : α} (hhead : head < N) (hroom : count < N) :
    window (Function.update cells ((head + count) % N) x) N head (count + 1) =
      window cells N head count ++ [x] := by
  have hstore : store cells ((head + count) % N) [x] 1 x =
      Function.update cells ((head + count) % N) x := by
    funext i
    unfold store
    by_cases hi : i = (head + count) % N
    · rw [if_pos (by omega), hi, Function.update_self, Nat.sub_self]
      rfl
    · rw [if_neg (by omega), Function.update_of_ne hi]
  have hrow : (head + count) % N + 1 ≤ N := Nat.mod_lt _ (by omega)
  rw [← hstore]
  exact window_store hhead hroom hrow le_rfl

/-- The first value is taken. -/
theorem window_pop (hhead : head < N) : window cells N head (count + 1) =
    cells head :: window cells N ((head + 1) % N) count := by
  rw [Nat.add_comm count 1, window_add]
  unfold window
  rw [List.range_one, List.map_singleton, Nat.add_zero, Nat.mod_eq_of_lt hhead]
  rfl

/-! ### Queues -/

/-- The items are in the cells of a ring from `head` on, and `tail` is the first cell after them; of
    the other cells, some are reserved. -/
structure Queued (cells : ℕ → α) (N head tail reserved : ℕ) (items : List α) : Prop where
  head_lt : head < N
  tail_eq : tail = (head + items.length) % N
  room : items.length + reserved ≤ N
  window : window cells N head items.length = items

variable {tail reserved : ℕ} {items : List α} {x : α}

/-- An item is put at the end. -/
theorem Queued.push (h : Queued cells N head tail reserved items)
    (hroom : items.length + reserved < N) :
    Queued (Function.update cells tail x) N head ((tail + 1) % N) reserved (items ++ [x]) := by
  refine ⟨h.head_lt, ?_, ?_, ?_⟩
  · rw [h.tail_eq, List.length_append, List.length_singleton, Nat.mod_add_mod, Nat.add_assoc]
  · rw [List.length_append, List.length_singleton]
    omega
  · rw [List.length_append, List.length_singleton, h.tail_eq,
      window_push h.head_lt (by omega), h.window]

/-- The cell after the items does not matter. -/
theorem Queued.overwrite (h : Queued cells N head tail reserved items) (hroom : items.length < N) :
    Queued (Function.update cells tail x) N head tail reserved items := by
  refine ⟨h.head_lt, h.tail_eq, h.room, ?_⟩
  have hpush : Lib.window (Function.update cells tail x) N head (items.length + 1) = items ++
      [x] := by
    rw [h.tail_eq, window_push h.head_lt hroom, h.window]
  rw [window_add] at hpush
  exact (List.append_inj hpush length_window).1

/-- The first item is taken, and its cell is reserved. -/
theorem Queued.pop (h : Queued cells N head tail reserved (x :: items)) :
    cells head = x ∧ Queued cells N ((head + 1) % N) tail (reserved + 1) items := by
  have hwindow := h.window
  rw [List.length_cons, window_pop h.head_lt] at hwindow
  obtain ⟨hx, hrest⟩ := List.cons.inj hwindow
  have hroom := h.room
  rw [List.length_cons] at hroom
  refine ⟨hx, Nat.mod_lt _ (by omega), ?_, by omega, hrest⟩
  rw [h.tail_eq, List.length_cons, Nat.mod_add_mod]
  congr 1
  omega

/-- A cell is not reserved any more. -/
theorem Queued.release (h : Queued cells N head tail (reserved + 1) items) :
    Queued cells N head tail reserved items :=
  ⟨h.head_lt, h.tail_eq, by have := h.room; omega, h.window⟩

end CohKernel.Lib
