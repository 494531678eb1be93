import CohKernel.Lib.Links

namespace CohKernel.Lib

/-!
# Lists linked both ways

Cells with a next and a previous pointer, and a first and a last pointer for the list.  The pointers
of the list are those of the cell `none`, so that a cell has the same two neighbours at the ends as
in the middle.

* `Deque.Holds.insert`, `Deque.Holds.remove` — a cell is linked in, and taken out;
* `Deque.Holds.linked`, `Deque.Holds.linked_back` — the list from its two ends;
* `Deque.Holds.skip` — a search along the list.
-/

variable {ι : Type*}

/-- The pointers of the cells; `next none` is the first cell of the list and `prev none` the last.
    -/
structure Deque (ι : Type*) where
  next : Option ι → Option ι
  prev : Option ι → Option ι

namespace Deque

variable {d d' : Deque ι} {l a b : List ι} {x : ι} {p n : Option ι}

/-- The pointers are those of a list: at every cut of it the two cells beside the cut point at each
    other. -/
structure Holds (d : Deque ι) (l : List ι) : Prop where
  nodup : l.Nodup
  cut : ∀ a b, l = a ++ b → d.next a.getLast? = b.head? ∧ d.prev b.head? = a.getLast?

/-- The list without cells. -/
def empty : Deque ι := ⟨fun _ => none, fun _ => none⟩

theorem holds_empty : Holds (empty (ι := ι)) [] := by
  refine ⟨List.nodup_nil, ?_⟩
  intro a b h
  obtain ⟨rfl, rfl⟩ := List.nil_eq_append_iff.mp h
  exact ⟨rfl, rfl⟩

theorem Holds.prev_eq (h : d.Holds (a ++ b)) : d.prev b.head? = a.getLast? := (h.cut a b rfl).2

theorem Holds.first_eq (h : d.Holds l) : d.next none = l.head? := (h.cut [] l rfl).1

theorem Holds.last_eq (h : d.Holds l) : d.prev none = l.getLast? :=
  (h.cut l [] (List.append_nil l).symm).2

theorem Holds.next_cell (h : d.Holds (a ++ x :: b)) : d.next (some x) = b.head? := by
  have hcut := (h.cut (a ++ [x]) b (by simp)).1
  rwa [List.getLast?_concat] at hcut

theorem Holds.prev_cell (h : d.Holds (a ++ x :: b)) : d.prev (some x) = a.getLast? :=
  (h.cut a (x :: b) rfl).2

/-- Only the pointers of the cells and the ends of the list count. -/
theorem Holds.congr (h : d.Holds l) (hnext : ∀ y, (∀ x, y = some x → x ∈ l) → d'.next y = d.next y)
    (hprev : ∀ y, (∀ x, y = some x → x ∈ l) → d'.prev y = d.prev y) : d'.Holds l := by
  refine ⟨h.nodup, ?_⟩
  rintro a b rfl
  obtain ⟨hn, hp⟩ := h.cut a b rfl
  refine ⟨?_, ?_⟩
  · rw [hnext _ fun x hx => List.mem_append_left b (List.mem_of_mem_getLast? hx), hn]
  · rw [hprev _ fun x hx => List.mem_append_right a (List.mem_of_mem_head? hx), hp]

/-- A cell of one list is not at the end of another one. -/
theorem ne_of_disjoint (hdisj : a.Disjoint b) (hp : ∀ x, p = some x → x ∈ a)
    (hn : ∀ x, n = some x → x ∈ b) (hsome : p ≠ none) : p ≠ n := by
  rintro rfl
  obtain ⟨x, hx⟩ := Option.ne_none_iff_exists'.mp hsome
  exact hdisj (hp x hx) (hn x hx)

theorem ne_cell (hx : x ∉ a) (hp : ∀ y, p = some y → y ∈ a) : p ≠ some x := by
  rintro rfl
  exact hx (hp x rfl)

theorem mem_last (x : ι) (h : a.getLast? = some x) : x ∈ a := List.mem_of_mem_getLast? h

theorem mem_first (x : ι) (h : a.head? = some x) : x ∈ a := List.mem_of_mem_head? h

/-- The end of a list that does not end at its beginning. -/
theorem getLast_append (a : List ι) (hb : b ≠ []) : (a ++ b).getLast? = b.getLast? :=
  List.getLast?_append_of_ne_nil a hb

theorem head_append (hb : b ≠ []) (a : List ι) : (b ++ a).head? = b.head? :=
  List.head?_append_of_ne_nil b hb

theorem last_ne_none (hb : b ≠ []) : b.getLast? ≠ none := mt List.getLast?_eq_none_iff.mp hb

theorem first_ne_none (hb : b ≠ []) : b.head? ≠ none := mt List.head?_eq_none_iff.mp hb

section Update

variable [DecidableEq ι]

/-- A cell is linked in between two neighbours. -/
def insert (d : Deque ι) (p : Option ι) (x : ι) (n : Option ι) : Deque ι where
  next := Function.update (Function.update d.next (some x) n) p (some x)
  prev := Function.update (Function.update d.prev (some x) p) n (some x)

/-- Two cells point at each other. -/
def join (d : Deque ι) (p n : Option ι) : Deque ι where
  next := Function.update d.next p n
  prev := Function.update d.prev n p

/-- A cell is taken out: its neighbours point at each other. -/
def remove (d : Deque ι) (x : ι) : Deque ι := d.join (d.prev (some x)) (d.next (some x))

/-- The pointers of a cell are stored. -/
def set (d : Deque ι) (p : Option ι) (x : ι) (n : Option ι) : Deque ι where
  next := Function.update d.next (some x) n
  prev := Function.update d.prev (some x) p

theorem set_self (d : Deque ι) (x : ι) : d.set (d.prev (some x)) x (d.next (some x)) = d := by
  unfold set
  rw [Function.update_eq_self, Function.update_eq_self]

/-- The pointers of a cell that is not in the list do not count. -/
theorem Holds.set (h : d.Holds l) (hx : x ∉ l) : (d.set p x n).Holds l :=
  h.congr (fun _ hy => Function.update_of_ne (ne_cell hx hy) _ _)
    fun _ hy => Function.update_of_ne (ne_cell hx hy) _ _

theorem insert_next_of_ne {y : Option ι} (hy : y ≠ p) (hx : y ≠ some x) :
    (d.insert p x n).next y = d.next y := by
  show Function.update _ _ _ y = _
  rw [Function.update_of_ne hy, Function.update_of_ne hx]

theorem insert_prev_of_ne {y : Option ι} (hy : y ≠ n) (hx : y ≠ some x) :
    (d.insert p x n).prev y = d.prev y := by
  show Function.update _ _ _ y = _
  rw [Function.update_of_ne hy, Function.update_of_ne hx]

/-- **A cell is linked in** at a cut of the list. -/
theorem Holds.insert (h : d.Holds (a ++ b)) (hx : x ∉ a ++ b) :
    (d.insert a.getLast? x b.head?).Holds (a ++ x :: b) := by
  have hdisj := List.disjoint_of_nodup_append h.nodup
  have hxa : x ∉ a := fun hm => hx (List.mem_append_left b hm)
  have hxb : x ∉ b := fun hm => hx (List.mem_append_right a hm)
  refine ⟨List.nodup_middle.mpr (List.nodup_cons.mpr ⟨hx, h.nodup⟩), ?_⟩
  intro a' b' heq
  rcases List.append_eq_append_iff.mp heq with ⟨c, rfl, hc⟩ | ⟨c, rfl, rfl⟩
  · -- the cut is at the new cell or after it
    cases c with
    | nil =>
      obtain rfl : b' = x :: b := hc.symm
      rw [List.append_nil]
      refine ⟨Function.update_self _ _ _, ?_⟩
      show Function.update _ _ _ (some x) = _
      rw [Function.update_of_ne (ne_cell hxb mem_first).symm, Function.update_self]
    | cons y c =>
      obtain ⟨rfl, hb⟩ := List.cons_eq_cons.mp hc
      obtain rfl : b = c ++ b' := hb
      by_cases hnil : c = []
      · subst hnil
        rw [List.getLast?_concat]
        refine ⟨?_, Function.update_self _ _ _⟩
        show Function.update _ _ _ (some x) = _
        rw [Function.update_of_ne (ne_cell hxa mem_last).symm, Function.update_self]
        rfl
      · obtain ⟨hn, hp⟩ := h.cut (a ++ c) b' (List.append_assoc a c b').symm
        have hlast : (a ++ x :: c).getLast? = c.getLast? := by
          rw [getLast_append a (List.cons_ne_nil x c), List.getLast?_cons_of_ne_nil hnil]
        have hdisj' := List.disjoint_of_nodup_append (List.Nodup.of_append_right h.nodup)
        rw [getLast_append a hnil] at hn hp
        rw [hlast, head_append hnil b']
        have hin : ∀ z, c.getLast? = some z → z ∈ c ++ b' := fun z hz =>
          List.mem_append_left b' (mem_last z hz)
        have hin' : ∀ z, b'.head? = some z → z ∈ c ++ b' := fun z hz =>
          List.mem_append_right c (mem_first z hz)
        refine ⟨?_, ?_⟩
        · rw [insert_next_of_ne (ne_of_disjoint hdisj.symm hin mem_last (last_ne_none hnil))
            (ne_cell hxb hin), hn]
        · rw [insert_prev_of_ne (ne_of_disjoint hdisj' mem_first mem_first
            (first_ne_none hnil)).symm (ne_cell hxb hin'), hp]
  · -- the cut is before the new cell
    by_cases hnil : c = []
    · subst hnil
      rw [List.append_nil]
      refine ⟨Function.update_self _ _ _, ?_⟩
      show Function.update _ _ _ (some x) = _
      rw [Function.update_of_ne (ne_cell hxb mem_first).symm, Function.update_self]
    · obtain ⟨hn, hp⟩ := h.cut a' (c ++ b) (List.append_assoc a' c b)
      have hdisj' := List.disjoint_of_nodup_append (List.Nodup.of_append_left h.nodup)
      rw [head_append hnil b] at hn hp
      rw [getLast_append a' hnil, head_append hnil (x :: b)]
      have hin : ∀ z, a'.getLast? = some z → z ∈ a' ++ c := fun z hz =>
        List.mem_append_left c (mem_last z hz)
      have hin' : ∀ z, c.head? = some z → z ∈ a' ++ c := fun z hz =>
        List.mem_append_right a' (mem_first z hz)
      refine ⟨?_, ?_⟩
      · rw [insert_next_of_ne (ne_of_disjoint hdisj'.symm mem_last mem_last
          (last_ne_none hnil)).symm (ne_cell hxa hin), hn]
      · rw [insert_prev_of_ne (ne_of_disjoint hdisj hin' mem_first (first_ne_none hnil))
          (ne_cell hxa hin'), hp]

/-- **A cell is taken out** of the list. -/
theorem Holds.remove (h : d.Holds (a ++ x :: b)) : (d.remove x).Holds (a ++ b) := by
  have hnodup := List.nodup_cons.mp (List.nodup_middle.mp h.nodup)
  have hdisj := List.disjoint_of_nodup_append hnodup.2
  refine ⟨hnodup.2, ?_⟩
  show ∀ _ _, _ → Function.update d.next (d.prev (some x)) (d.next (some x)) _ = _ ∧
    Function.update d.prev (d.next (some x)) (d.prev (some x)) _ = _
  rw [h.next_cell, h.prev_cell]
  intro a' b' heq
  rcases List.append_eq_append_iff.mp heq with ⟨c, rfl, rfl⟩ | ⟨c, rfl, rfl⟩
  · by_cases hnil : c = []
    · subst hnil
      rw [List.append_nil]
      exact ⟨Function.update_self _ _ _, Function.update_self _ _ _⟩
    · obtain ⟨hn, hp⟩ := h.cut (a ++ x :: c) b' (by simp)
      have hdisj' := List.disjoint_of_nodup_append (List.Nodup.of_append_right hnodup.2)
      rw [getLast_append a (List.cons_ne_nil x c), List.getLast?_cons_of_ne_nil hnil] at hn hp
      rw [getLast_append a hnil, head_append hnil b']
      refine ⟨?_, ?_⟩
      · rw [Function.update_of_ne (ne_of_disjoint hdisj.symm (fun z hz =>
          List.mem_append_left b' (mem_last z hz)) mem_last (last_ne_none hnil)), hn]
      · rw [Function.update_of_ne (ne_of_disjoint hdisj' mem_first mem_first
          (first_ne_none hnil)).symm, hp]
  · by_cases hnil : c = []
    · subst hnil
      rw [List.append_nil]
      exact ⟨Function.update_self _ _ _, Function.update_self _ _ _⟩
    · obtain ⟨hn, hp⟩ := h.cut a' (c ++ x :: b) (by simp)
      have hdisj' := List.disjoint_of_nodup_append (List.Nodup.of_append_left hnodup.2)
      rw [head_append hnil (x :: b)] at hn hp
      rw [getLast_append a' hnil, head_append hnil b]
      refine ⟨?_, ?_⟩
      · rw [Function.update_of_ne (ne_of_disjoint hdisj'.symm mem_last mem_last
          (last_ne_none hnil)).symm, hn]
      · rw [Function.update_of_ne (ne_of_disjoint hdisj (fun z hz =>
          List.mem_append_right a' (mem_first z hz)) mem_first (first_ne_none hnil)), hp]

theorem Holds.join (h : d.Holds (a ++ x :: b)) : (d.join a.getLast? b.head?).Holds (a ++ b) := by
  have hremove := h.remove
  unfold Deque.remove at hremove
  rw [h.prev_cell, h.next_cell] at hremove
  exact hremove

end Update

/-! ### Walking -/

theorem Holds.linked_from (h : d.Holds (a ++ b)) : Linked (fun x => d.next (some x)) b.head? b := by
  induction b generalizing a with
  | nil => rfl
  | cons x b ih =>
    have h' : d.Holds ((a ++ [x]) ++ b) := by simpa using h
    refine ⟨rfl, ?_⟩
    show Linked _ (d.next (some x)) b
    rw [h.next_cell]
    exact ih h'

/-- The next pointers link the list. -/
theorem Holds.linked (h : d.Holds l) : Linked (fun x => d.next (some x)) (d.next none) l := by
  rw [h.first_eq]
  exact Holds.linked_from (a := []) h

theorem Holds.linked_back_from (h : d.Holds (a ++ b)) :
    Linked (fun x => d.prev (some x)) a.getLast? a.reverse := by
  induction a using List.reverseRecOn generalizing b with
  | nil => rfl
  | append_singleton a x ih =>
    have h' : d.Holds (a ++ x :: b) := by simpa using h
    rw [List.reverse_concat, List.getLast?_concat]
    refine ⟨rfl, ?_⟩
    show Linked _ (d.prev (some x)) a.reverse
    rw [h'.prev_cell]
    exact ih h'

/-- The previous pointers link it the other way round. -/
theorem Holds.linked_back (h : d.Holds l) :
    Linked (fun x => d.prev (some x)) (d.prev none) l.reverse := by
  rw [h.last_eq]
  exact Holds.linked_back_from (b := []) (by rwa [List.append_nil])

/-! ### Searching -/

/-- Go on along the list as long as a check holds. -/
def skip (d : Deque ι) (p : ι → Bool) : ℕ → Option ι → Option ι
  | 0, y => y
  | _ + 1, none => none
  | fuel + 1, some x => if p x then d.skip p fuel (d.next (some x)) else some x

theorem Holds.skip (h : d.Holds (a ++ b)) (p : ι → Bool) {fuel : ℕ} (hfuel : b.length ≤ fuel) :
    d.skip p fuel b.head? = (b.dropWhile p).head? := by
  induction b generalizing a fuel with
  | nil => cases fuel <;> rfl
  | cons x b ih =>
    cases fuel with
    | zero => cases hfuel
    | succ fuel =>
      show (if p x then d.skip p fuel (d.next (some x)) else some x) = _
      cases hp : p x with
      | true =>
        have h' : d.Holds ((a ++ [x]) ++ b) := by simpa using h
        rw [if_pos rfl, h.next_cell, ih h' (Nat.le_of_succ_le_succ hfuel),
          List.dropWhile_cons_of_pos hp]
      | false => rw [if_neg Bool.false_ne_true, List.dropWhile_cons_of_neg (by simp [hp])]; rfl

end Deque

end CohKernel.Lib
