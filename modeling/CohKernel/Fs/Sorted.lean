import CohKernel.Fs.FreeList
import Mathlib.Data.List.Sort

namespace CohKernel.Fs

/-!
# The sorted list of free blocks

`daddr_add` of `fs2.c` on the array itself: the loop that looks for the place of the new number, and
the loop that moves the smaller ones up.

* `daddrScan_orderedInsert` — the numbers of the array and the one returned are the old ones with
  the new one in its place;
* `daddrAddAt_sorted` — so the array stays in descending order, and the smallest number is returned;
* `daddrAdd_eq` — on the numbers of a super block this is `daddrAdd`.
-/

variable {α : Type*}

/-! ### The loops -/

/-- The inner loop, with `n` numbers between `list` and `end`: each one moves up a place, the last
    one first. -/
def daddrMove (list : ℕ) : ℕ → (ℕ → α) → ℕ → α
  | 0, a => a
  | n + 1, a => daddrMove list n (Function.update a (list + n + 1) (a (list + n)))

/-- The numbers from `list` to `end`, of which there are `n`. -/
def entries (a : ℕ → α) : ℕ → ℕ → List α
  | _, 0 => []
  | list, n + 1 => a list :: entries a (list + 1) n

theorem entries_succ (a : ℕ → α) (list n : ℕ) :
    entries a list (n + 1) = entries a list n ++ [a (list + n)] := by
  induction n generalizing list with
  | zero => rfl
  | succ n ih =>
    rw [entries, ih, entries, List.cons_append]
    congr 4
    omega

theorem entries_eq_map (a : ℕ → α) (list n : ℕ) :
    entries a list n = (List.range n).map fun i => a (list + i) := by
  induction n with
  | zero => rfl
  | succ n ih => rw [entries_succ, ih, List.range_succ, List.map_append]; rfl

theorem daddrMove_apply (list n i : ℕ) (a : ℕ → α) :
    daddrMove list n a i = if list < i ∧ i ≤ list + n then a (i - 1) else a i := by
  induction n generalizing a with
  | zero => rw [daddrMove, if_neg (by omega)]
  | succ n ih =>
    rw [daddrMove, ih]
    by_cases hlast : i = list + n + 1
    · subst hlast
      rw [if_neg (by omega), if_pos (by omega), Function.update_self, Nat.add_sub_cancel]
    · have hne : i - 1 ≠ list + n + 1 ∨ ¬ (list < i ∧ i ≤ list + n) := by omega
      by_cases hin : list < i ∧ i ≤ list + n
      · rw [if_pos hin, if_pos (by omega), Function.update_of_ne (by omega)]
      · rw [if_neg hin, if_neg (by omega), Function.update_of_ne hlast]

/-- The numbers that have moved stand behind the new one. -/
theorem entries_move (a : ℕ → α) (list n : ℕ) (x : α) :
    entries (Function.update (daddrMove list n a) list x) list (n + 1) =
      x :: entries a list n := by
  rw [entries, Function.update_self]
  congr 1
  rw [entries_eq_map, entries_eq_map]
  apply List.map_congr_left
  intro i hi
  rw [List.mem_range] at hi
  rw [Function.update_of_ne (by omega), daddrMove_apply, if_pos (by omega)]
  congr 1
  omega

/-- An insertion into a strictly descending list of a number that is not there. -/
theorem orderedInsert_descending [LinearOrder α] {l : List α} {x : α}
    (h : l.Pairwise (· > ·)) (hx : x ∉ l) :
    (l.orderedInsert (· ≥ ·) x).Pairwise (· > ·) := by
  have hnodup : (l.orderedInsert (· ≥ ·) x).Nodup := by
    rw [(List.perm_orderedInsert (· ≥ ·) x l).nodup_iff, List.nodup_cons]
    exact ⟨hx, h.imp fun hgt => hgt.ne'⟩
  have hsorted : (l.orderedInsert (· ≥ ·) x).Pairwise (· ≥ ·) :=
    (h.imp fun hgt => le_of_lt hgt).orderedInsert x l
  exact (hsorted.and hnodup).imp fun ⟨hge, hne⟩ => lt_of_le_of_ne hge hne.symm

section
variable [LinearOrder α] [Zero α]

/-- The outer loop of `daddr_add`, with `n` numbers between `list` and `end`. -/
def daddrScan (newblock : α) : ℕ → ℕ → (ℕ → α) → (ℕ → α) × α
  | 0, _, a => (a, newblock)
  | n + 1, list, a =>
      if newblock = a list then (a, 0)
      else if newblock > a list then
        -- `end` steps back onto the last number, which falls out
        (Function.update (daddrMove list n a) list newblock, a (list + n))
      else daddrScan newblock n (list + 1) a

/-- `daddr_add`: the array that it leaves, and what it returns. -/
def daddrAddAt (list : ℕ → α) (count : ℕ) (newblock : α) : (ℕ → α) × α :=
  daddrScan newblock count 0 list

/-- The numbers below `count` are in strictly descending order. -/
def Descending (a : ℕ → α) (count : ℕ) : Prop := (entries a 0 count).Pairwise (· > ·)

instance (a : ℕ → α) (count : ℕ) : Decidable (Descending a count) :=
  inferInstanceAs (Decidable (List.Pairwise _ _))

/-! ### Insertion -/

theorem daddrScan_before (newblock : α) (n list : ℕ) (a : ℕ → α) {i : ℕ}
    (hi : i < list ∨ list + n ≤ i) : (daddrScan newblock n list a).1 i = a i := by
  induction n generalizing list with
  | zero => rfl
  | succ n ih =>
    unfold daddrScan
    split_ifs with heq hgt
    · rfl
    · show Function.update (daddrMove list n a) list newblock i = a i
      rw [Function.update_of_ne (by omega), daddrMove_apply, if_neg (by omega)]
    · exact ih (list + 1) (by omega)

/-- **The place of the new number.** The array and the number returned are the old numbers with the
    new one in front of the first smaller one. -/
theorem daddrScan_orderedInsert (newblock : α) (n list : ℕ) (a : ℕ → α)
    (hnew : newblock ∉ entries a list n) :
    entries (daddrScan newblock n list a).1 list n ++ [(daddrScan newblock n list a).2] =
      (entries a list n).orderedInsert (· ≥ ·) newblock := by
  induction n generalizing list with
  | zero => rfl
  | succ n ih =>
    rw [entries, List.mem_cons, not_or] at hnew
    obtain ⟨hne, hrest⟩ := hnew
    rw [daddrScan, if_neg hne]
    by_cases hgt : newblock > a list
    · have hold : (entries a list (n + 1)).orderedInsert (· ≥ ·) newblock =
          newblock :: entries a list (n + 1) := by
        rw [entries, List.orderedInsert_cons, if_pos (le_of_lt hgt)]
      rw [if_pos hgt, hold, entries_move, entries_succ, List.cons_append]
    · have hold : (entries a list (n + 1)).orderedInsert (· ≥ ·) newblock =
          a list :: (entries a (list + 1) n).orderedInsert (· ≥ ·) newblock := by
        rw [entries, List.orderedInsert_cons, if_neg]
        exact fun hge => hgt (lt_of_le_of_ne hge (Ne.symm hne))
      rw [if_neg hgt, hold, entries, List.cons_append, ih (list + 1) hrest,
        daddrScan_before newblock n (list + 1) a (Or.inl (Nat.lt_succ_self list))]

/-- A number that is in the array ends the search. -/
theorem daddrScan_present (newblock : α) (n list : ℕ) (a : ℕ → α)
    (h : (entries a list n).Pairwise (· > ·)) (hin : newblock ∈ entries a list n) :
    daddrScan newblock n list a = (a, 0) := by
  induction n generalizing list with
  | zero => exact absurd hin List.not_mem_nil
  | succ n ih =>
    rw [entries, List.pairwise_cons] at h
    rw [entries, List.mem_cons] at hin
    rcases hin with heq | hin
    · rw [daddrScan, if_pos heq]
    · have hlt : a list > newblock := h.1 newblock hin
      rw [daddrScan, if_neg hlt.ne, if_neg hlt.not_gt]
      exact ih (list + 1) h.2 hin

/-- **`daddr_add`.** A number that is in the array changes nothing.  Any other one makes of the
    array and the number returned a strictly descending permutation of the old numbers and the new
    one, so that the smallest of them is returned and the rest kept. -/
theorem daddrAddAt_sorted (list : ℕ → α) (count : ℕ) (newblock : α)
    (h : Descending list count) :
    (newblock ∈ entries list 0 count → daddrAddAt list count newblock = (list, 0)) ∧
      (newblock ∉ entries list 0 count →
        Descending (daddrAddAt list count newblock).1 count ∧
        (∀ d ∈ entries (daddrAddAt list count newblock).1 0 count,
          (daddrAddAt list count newblock).2 < d) ∧
        (entries (daddrAddAt list count newblock).1 0 count ++
            [(daddrAddAt list count newblock).2]).Perm (newblock :: entries list 0 count)) ∧
      ∀ i, count ≤ i → (daddrAddAt list count newblock).1 i = list i := by
  refine ⟨daddrScan_present newblock count 0 list h, fun hnew => ?_, fun i hi => ?_⟩
  · have hins := daddrScan_orderedInsert newblock count 0 list hnew
    have hall := orderedInsert_descending h hnew
    rw [← hins, List.pairwise_append] at hall
    refine ⟨hall.1, fun d hd => hall.2.2 d hd _ List.mem_cons_self, ?_⟩
    unfold daddrAddAt
    rw [hins]
    exact List.perm_orderedInsert _ _ _
  · exact daddrScan_before newblock count 0 list (Or.inr (by omega))

/-- A full array: the new number moves into its place, and the smallest one is returned. -/
theorem daddrAddAt_sorted_full :
    Descending (daddrAddAt (fun i : ℕ => (200 - 2 * i : ℤ)) NICFREE 101).1 NICFREE ∧
      (daddrAddAt (fun i : ℕ => (200 - 2 * i : ℤ)) NICFREE 101).2 = 74 := by
  have h : Descending (fun i : ℕ => (200 - 2 * i : ℤ)) NICFREE := by decide +kernel
  have hnot : (101 : ℤ) ∉ entries (fun i : ℕ => (200 - 2 * i : ℤ)) 0 NICFREE := by decide +kernel
  exact ⟨((daddrAddAt_sorted _ NICFREE 101 h).2.1 hnot).1, by decide +kernel⟩

end

/-! ### The super block -/

/-- The array of a super block above its link. -/
theorem upper_eq (sb : Filsys) :
    sb.upper = entries (fun i => sb.sFree (i + 1)) 0 (sb.sNfree - 1).toNat := by
  rw [entries_eq_map, Filsys.upper]
  apply List.map_congr_left
  intro i hi
  rw [Nat.zero_add]

theorem daddrAdd_of_scan (newblock : ℕ) (n list : ℕ) (a : ℕ → ℕ) :
    daddrAdd (entries a list n) newblock =
      (entries (daddrScan newblock n list a).1 list n, (daddrScan newblock n list a).2) := by
  induction n generalizing list with
  | zero => rfl
  | succ n ih =>
    rw [daddrScan, entries, daddrAdd]
    by_cases heq : newblock = a list
    · rw [if_pos heq, if_pos heq]
      rfl
    rw [if_neg heq, if_neg heq]
    by_cases hgt : newblock > a list
    · rw [if_pos hgt, if_pos hgt, entries_move]
      have hlast : a list :: entries a (list + 1) n = entries a list n ++ [a (list + n)] :=
        entries_succ a list n
      simp only [hlast, List.dropLast_concat, List.getLast_append_singleton]
    · rw [if_neg hgt, if_neg hgt, ih (list + 1), entries,
        daddrScan_before newblock n (list + 1) a (Or.inl (Nat.lt_succ_self list))]

/-- **Refinement.** On the numbers of a super block above its link, `daddr_add` is `daddrAdd`. -/
theorem daddrAdd_eq (sb : Filsys) (newblock : ℕ) :
    daddrAdd sb.upper newblock =
      let r := daddrAddAt (fun i => sb.sFree (i + 1)) (sb.sNfree - 1).toNat newblock
      (entries r.1 0 (sb.sNfree - 1).toNat, r.2) := by
  rw [upper_eq]
  exact daddrAdd_of_scan newblock _ 0 _

end CohKernel.Fs
