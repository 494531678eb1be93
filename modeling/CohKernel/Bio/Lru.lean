import CohKernel.Bio.Defs
import CohKernel.Lib.Deque

namespace CohKernel.Bio

open CohKernel.Lib

/-!
# The pointers of the LRU chain

`LRUupdate`, `LRUinsert` and `LRUremove` of `bio.c` with the pointers that they store, and the
search of `bclaim` for a buffer to take.  `LRUremove` clears a pointer of the buffer that it takes
out where it should clear that of its neighbour, when the buffer is the first or the last one of the
chain.

* `lruUpdate_cache`, `lruInsert_cache`, `lruRemove_cache` — the three do to the list of the buffers
  what the buffer cache relies on;
* `lru_linked` — in every run in which no buffer at an end of the chain is given back, the chain has
  every buffer once, and a search goes through all of them;
* `end_unlinked` — the first raw buffer is given back at once.
-/

/-! ### The chain -/

/-- `firstbuf` and `lastbuf`, and the fields `b_LRUf` and `b_LRUb` of the buffers. -/
structure Lru where
  firstbuf : Option ℕ
  lastbuf : Option ℕ
  bLRUf : ℕ → Option ℕ
  bLRUb : ℕ → Option ℕ

/-- Store into `b_LRUf` of a buffer, if there is one. -/
def Lru.setF (s : Lru) (p q : Option ℕ) : Lru :=
  match p with
  | none => s
  | some b => { s with bLRUf := Function.update s.bLRUf b q }

/-- Store into `b_LRUb` of a buffer, if there is one. -/
def Lru.setB (s : Lru) (p q : Option ℕ) : Lru :=
  match p with
  | none => s
  | some b => { s with bLRUb := Function.update s.bLRUb b q }

/-- `LRUupdate`. -/
def Lru.lruUpdate (s : Lru) (bp : ℕ) : Lru :=
  if s.firstbuf = some bp then s
  else
    let s := if s.lastbuf = some bp then { s with lastbuf := s.bLRUb bp } else s
    let s := s.setF (s.bLRUb bp) (s.bLRUf bp)
    let s := s.setB (s.bLRUf bp) (s.bLRUb bp)
    let s := s.setB (some bp) none
    let s := s.setF (some bp) s.firstbuf
    let s := s.setB s.firstbuf (some bp)
    { s with firstbuf := some bp }

/-- `LRUinsert`. -/
def Lru.lruInsert (s : Lru) (bp : ℕ) : Lru :=
  let s := s.setF (some bp) s.firstbuf
  let s := s.setB (some bp) none
  let s := s.setB s.firstbuf (some bp)
  { s with firstbuf := some bp }

/-- `LRUremove`. -/
def Lru.lruRemove (s : Lru) (bp : ℕ) : Lru :=
  if s.firstbuf = some bp then
    let s := s.setB s.firstbuf none
    { s with firstbuf := s.bLRUf bp }
  else if s.lastbuf = some bp then
    let s := s.setF s.lastbuf none
    { s with lastbuf := s.bLRUb bp }
  else
    let s := s.setF (s.bLRUb bp) (s.bLRUf bp)
    s.setB (s.bLRUf bp) (s.bLRUb bp)

/-- The search of `bclaim`, from some buffer on back, for one whose gate is free: the outer option
    is empty when it has not come to an end. -/
def Lru.victim (s : Lru) (free : ℕ → Bool) : ℕ → Option ℕ → Option (Option ℕ)
  | _, none => some none
  | 0, some _ => none
  | fuel + 1, some bp => if free bp then some (some bp) else s.victim free fuel (s.bLRUb bp)

/-! ### Runs -/

/-- The chain, and which buffers there are. -/
structure Pool where
  chain : Lru
  alive : ℕ → Bool

/-- What is done to the chain: a lookup finds a buffer, or takes one whose gate is free, or waits; a
    buffer is released; a raw buffer is made, at any free address, or given back. -/
inductive LruEvent where
  | lookup (b : ℕ)
  | claim (free : ℕ → Bool) (fuel : ℕ)
  | release (b : ℕ)
  | getrbuf (b : ℕ)
  | freerbuf (b : ℕ)

def Pool.step (t : Tune) (s : Pool) : LruEvent → Option Pool
  | .lookup b => if s.alive b then some { s with chain := s.chain.lruUpdate b } else none
  | .claim free fuel =>
      (s.chain.victim free fuel s.chain.lastbuf).map fun r =>
        match r with
        | none => s
        | some b => { s with chain := s.chain.lruUpdate b }
  | .release b => if s.alive b then some s else none
  | .getrbuf b =>
      if s.alive b = true ∨ b < t.NBUF then none
      else some ⟨s.chain.lruInsert b, Function.update s.alive b true⟩
  | .freerbuf b =>
      if s.alive b = true ∧ t.NBUF ≤ b then
        some ⟨s.chain.lruRemove b, Function.update s.alive b false⟩
      else none

/-- The chain that `bufinit` makes. -/
structure Pool.Initial (t : Tune) (s : Pool) : Prop where
  alive : ∀ b, s.alive b = decide (b < t.NBUF)
  firstbuf : s.chain.firstbuf = some 0
  lastbuf : s.chain.lastbuf = some (t.NBUF - 1)
  bLRUf : ∀ b < t.NBUF, s.chain.bLRUf b = if b + 1 = t.NBUF then none else some (b + 1)
  bLRUb : ∀ b < t.NBUF, s.chain.bLRUb b = if b = 0 then none else some (b - 1)

/-- **What a search needs.**  The buffers are those of one list, in which each of them is once; the
    links forward go through it from `firstbuf` on, and the links back the other way round from
    `lastbuf` on; each link has its opposite; and a search ends, and has seen all of them when it
    has found none. -/
structure Pool.Sound (s : Pool) : Prop where
  list : ∃ l : List ℕ, l.Nodup ∧ (∀ b, b ∈ l ↔ s.alive b = true) ∧
    Lib.Linked s.chain.bLRUf s.chain.firstbuf l ∧ Lib.Linked s.chain.bLRUb s.chain.lastbuf l.reverse
      ∧
    ∀ free fuel, l.length ≤ fuel →
      s.chain.victim free fuel s.chain.lastbuf = some (l.reverse.find? free)
  links : ∀ b c, s.alive b = true → s.alive c = true →
    (s.chain.bLRUf b = some c ↔ s.chain.bLRUb c = some b)
  first : ∀ b, s.chain.firstbuf = some b → s.chain.bLRUb b = none
  last : ∀ b, s.chain.lastbuf = some b → s.chain.bLRUf b = none

/-- **The condition**: a raw buffer that is given back is not at an end of the chain. -/
def Pool.Inside (s : Pool) : LruEvent → Prop
  | .freerbuf b => s.chain.firstbuf ≠ some b ∧ s.chain.lastbuf ≠ some b
  | _ => True

/-! ### The chain as a list -/

variable {s : Lru} {a c l : List ℕ} {b p q : ℕ} {n : Option ℕ}

/-- The pointers, those of the ends with those of the buffers. -/
def Lru.deque (s : Lru) : Deque ℕ where
  next
    | none => s.firstbuf
    | some b => s.bLRUf b
  prev
    | none => s.lastbuf
    | some b => s.bLRUb b

/-- The pointers of the buffers beside a cut in the middle, of a buffer in it, and of the ends. -/
theorem Lru.deque_ext {d : Deque ℕ} (hfirst : s.firstbuf = d.next none)
    (hlast : s.lastbuf = d.prev none) (hf : ∀ b, s.bLRUf b = d.next (some b))
    (hb : ∀ b, s.bLRUb b = d.prev (some b)) : s.deque = d := by
  obtain ⟨next, prev⟩ := d
  unfold Lru.deque
  rw [Deque.mk.injEq]
  constructor
  · ext1 y
    cases y with
    | none => exact hfirst
    | some b => exact hf b
  · ext1 y
    cases y with
    | none => exact hlast
    | some b => exact hb b

/-- The first buffer, which is not one further back. -/
theorem first_ne (h : s.deque.Holds (a ++ b :: c)) (ha : a ≠ []) :
    ∃ f, s.firstbuf = some f ∧ f ≠ b ∧ (a ++ c).head? = some f := by
  obtain ⟨f, a, rfl⟩ := List.exists_cons_of_ne_nil ha
  refine ⟨f, h.first_eq, ?_, rfl⟩
  rintro rfl
  exact (List.nodup_cons.mp h.nodup).1 (by simp)

/-- The last buffer, which is not one further in front. -/
theorem last_ne (h : s.deque.Holds (a ++ b :: c)) (hc : c ≠ []) : s.lastbuf ≠ some b := by
  have hlast : s.lastbuf = c.getLast? := by
    have heq := h.last_eq
    rwa [Deque.getLast_append a (List.cons_ne_nil b c), List.getLast?_cons_of_ne_nil hc] at heq
  rw [hlast]
  intro heq
  have hnodup := List.nodup_cons.mp (List.nodup_middle.mp h.nodup)
  exact hnodup.1 (List.mem_append_right a (Deque.mem_last b heq))

/-- **`LRUinsert`** puts a new buffer at the front. -/
theorem lruInsert_holds (h : s.deque.Holds l) (hl : l ≠ []) (hb : b ∉ l) :
    (s.lruInsert b).deque.Holds (b :: l) := by
  obtain ⟨f, l, rfl⟩ := List.exists_cons_of_ne_nil hl
  have hfirst : s.firstbuf = some f := h.first_eq
  have hins := Deque.Holds.insert (a := []) h hb
  have hdeque : (s.lruInsert b).deque = s.deque.insert none b (some f) := by
    unfold Lru.lruInsert Lru.setF Lru.setB
    simp only [hfirst]
    refine Lru.deque_ext rfl rfl (fun y => ?_) fun y => ?_
    · simp [Deque.insert, Function.update_apply, Lru.deque]
    · simp [Deque.insert, Function.update_apply, Lru.deque]
  rw [hdeque]
  exact hins

/-- **`LRUupdate`** of a buffer that is not the first one moves it to the front. -/
theorem lruUpdate_moves (h : s.deque.Holds (a ++ b :: c)) (ha : a ≠ []) :
    (s.lruUpdate b).deque.Holds (b :: (a ++ c)) := by
  obtain ⟨f, hfirst, hfb, hhead⟩ := first_ne h ha
  obtain ⟨p, hp⟩ : ∃ p, a.getLast? = some p := Option.ne_none_iff_exists'.mp (Deque.last_ne_none ha)
  have hnodup := List.nodup_cons.mp (List.nodup_middle.mp h.nodup)
  have hpb : b ≠ p := by
    rintro rfl
    exact hnodup.1 (List.mem_append_left c (Deque.mem_last b hp))
  have hback : s.bLRUb b = some p := h.prev_cell.trans hp
  have hforw : s.bLRUf b = c.head? := h.next_cell
  have hjoin := h.join
  have hins := Deque.Holds.insert (a := []) hjoin hnodup.1
  have hdeque : (s.lruUpdate b).deque =
      (s.deque.join a.getLast? c.head?).insert none b (a ++ c).head? := by
    rw [hp, hhead]
    unfold Lru.lruUpdate
    rw [hfirst, if_neg (by simpa using hfb)]
    cases c with
    | nil =>
      have hlast : s.lastbuf = some b := by
        have heq := h.last_eq
        rwa [List.getLast?_concat] at heq
      have hnext : s.bLRUf b = none := hforw
      simp only [hlast, if_true, Lru.setF, Lru.setB, hback, Function.update_of_ne hpb, hnext]
      refine Lru.deque_ext ?_ ?_ (fun y => ?_) fun y => ?_
      all_goals simp [Deque.insert, Deque.join, Function.update_apply, Lru.deque]
    | cons n c =>
      have hlast := last_ne h (List.cons_ne_nil n c)
      simp only [if_neg hlast, Lru.setF, Lru.setB, hback, hfirst, Function.update_of_ne hpb, hforw,
        List.head?_cons]
      refine Lru.deque_ext ?_ ?_ (fun y => ?_) fun y => ?_
      all_goals simp [Deque.insert, Deque.join, Function.update_apply, Lru.deque]
  rw [hdeque]
  exact hins

/-- **`LRUupdate`** does to the chain what `State.lruUpdate` says. -/
theorem lruUpdate_holds (h : s.deque.Holds l) (hb : b ∈ l) :
    (s.lruUpdate b).deque.Holds (if l.head? = some b then l else b :: l.erase b) := by
  obtain ⟨a, c, rfl⟩ := List.append_of_mem hb
  by_cases ha : a = []
  · subst ha
    have hfirst : s.firstbuf = some b := h.first_eq
    unfold Lru.lruUpdate
    rw [if_pos hfirst, List.nil_append, if_pos (List.head?_cons)]
    exact h
  · obtain ⟨f, -, hfb, hhead⟩ := first_ne h ha
    have hne : (a ++ b :: c).head? ≠ some b := by
      rw [Deque.head_append ha] at hhead ⊢
      rw [hhead]
      simpa using hfb
    have hnot : b ∉ a := fun hm =>
      (List.nodup_cons.mp (List.nodup_middle.mp h.nodup)).1 (List.mem_append_left c hm)
    rw [if_neg hne, List.erase_append_right _ hnot, List.erase_cons_head]
    exact lruUpdate_moves h ha

/-- **`LRUremove`** takes a buffer out that is not at an end. -/
theorem lruRemove_holds (h : s.deque.Holds (a ++ b :: c)) (ha : a ≠ []) (hc : c ≠ []) :
    (s.lruRemove b).deque.Holds (a ++ c) := by
  obtain ⟨f, hfirst, hfb, -⟩ := first_ne h ha
  obtain ⟨p, hp⟩ : ∃ p, a.getLast? = some p := Option.ne_none_iff_exists'.mp (Deque.last_ne_none ha)
  obtain ⟨n, hn⟩ : ∃ n, c.head? = some n := Option.ne_none_iff_exists'.mp (Deque.first_ne_none hc)
  have hlast := last_ne h hc
  have hnodup := List.nodup_cons.mp (List.nodup_middle.mp h.nodup)
  have hpb : b ≠ p := by
    rintro rfl
    exact hnodup.1 (List.mem_append_left c (Deque.mem_last b hp))
  have hback : s.bLRUb b = some p := h.prev_cell.trans hp
  have hforw : s.bLRUf b = some n := h.next_cell.trans hn
  have hjoin := h.join
  have hdeque : (s.lruRemove b).deque = s.deque.join a.getLast? c.head? := by
    rw [hp, hn]
    unfold Lru.lruRemove
    rw [hfirst, if_neg (by simpa using hfb), if_neg hlast]
    simp only [Lru.setF, Lru.setB, hback, Function.update_of_ne hpb, hforw]
    refine Lru.deque_ext ?_ ?_ (fun y => ?_) fun y => ?_
    all_goals simp [Deque.join, Function.update_apply, Lru.deque]
  rw [hdeque]
  exact hjoin

/-- A search that ends has found the first free buffer, if there is one. -/
theorem victim_spec {free : ℕ → Bool} {fuel : ℕ} (h : Lib.Linked s.bLRUb n l) :
    (l.length ≤ fuel → s.victim free fuel n = some (l.find? free)) ∧
      ∀ r, s.victim free fuel n = some r → r = l.find? free := by
  induction l generalizing n fuel with
  | nil =>
    rw [Lib.Linked] at h
    subst h
    have heq : s.victim free fuel none = some none := by cases fuel <;> rfl
    exact ⟨fun _ => heq, fun r hr => Option.some.inj (hr.symm.trans heq)⟩
  | cons x l ih =>
    obtain ⟨rfl, h⟩ := h
    cases fuel with
    | zero => exact ⟨fun hle => absurd hle (by simp), fun r hr => by cases hr⟩
    | succ fuel =>
      obtain ⟨hends, hfinds⟩ : (l.length ≤ fuel → s.victim free fuel (s.bLRUb x) =
          some (l.find? free)) ∧ ∀ r, s.victim free fuel (s.bLRUb x) = some r → r = l.find? free :=
        ih h
      rw [Lru.victim]
      cases hx : free x with
      | true =>
        rw [if_pos rfl, List.find?_cons_of_pos hx]
        exact ⟨fun _ => rfl, fun r hr => (Option.some.inj hr).symm⟩
      | false =>
        rw [if_neg Bool.false_ne_true, List.find?_cons_of_neg (by simp [hx])]
        exact ⟨fun hle => hends (Nat.le_of_succ_le_succ hle), hfinds⟩

variable {m m' : Pool} {t : Tune}

/-- A chain that holds the buffers is sound. -/
theorem sound_of_holds (h : m.chain.deque.Holds l) (hmem : ∀ b, b ∈ l ↔ m.alive b = true) :
    m.Sound := by
  have hback : Lib.Linked m.chain.bLRUb m.chain.lastbuf l.reverse := h.linked_back
  refine ⟨⟨l, h.nodup, hmem, h.linked, hback, fun free fuel hle =>
    (victim_spec hback).1 (by rwa [List.length_reverse])⟩, fun b c hb hc => ⟨fun hn => ?_,
    fun hp => ?_⟩, fun b hb => ?_, fun b hb => ?_⟩
  · obtain ⟨a, d, rfl⟩ := List.append_of_mem ((hmem b).mpr hb)
    obtain ⟨d, rfl⟩ : ∃ d', d = c :: d' := List.head?_eq_some_iff.mp (h.next_cell.symm.trans hn)
    have h' : m.chain.deque.Holds ((a ++ [b]) ++ c :: d) := by simpa using h
    exact h'.prev_cell.trans List.getLast?_concat
  · obtain ⟨a, d, rfl⟩ := List.append_of_mem ((hmem c).mpr hc)
    obtain ⟨a, rfl⟩ : ∃ a', a = a' ++ [b] :=
      List.getLast?_eq_some_iff.mp (h.prev_cell.symm.trans hp)
    have h' : m.chain.deque.Holds (a ++ b :: (c :: d)) := by simpa using h
    exact h'.next_cell
  · obtain ⟨d, rfl⟩ : ∃ d, l = b :: d := List.head?_eq_some_iff.mp (h.first_eq.symm.trans hb)
    exact h.prev_cell (a := [])
  · obtain ⟨a, rfl⟩ : ∃ a, l = a ++ [b] :=
      List.getLast?_eq_some_iff.mp (h.last_eq.symm.trans hb)
    exact h.next_cell

/-! ### The chain of the buffer cache -/

section cache

variable {P : Type} {σ : State P}

/-- `State.lruUpdate` is what `LRUupdate` does. -/
theorem lruUpdate_cache (h : s.deque.Holds σ.lru) (hb : b ∈ σ.lru) :
    (s.lruUpdate b).deque.Holds (σ.lruUpdate b).lru := by
  have hmoved := lruUpdate_holds h hb
  unfold State.lruUpdate
  split_ifs at hmoved ⊢
  · exact hmoved
  · exact hmoved

/-- `State.lruInsert` is what `LRUinsert` does. -/
theorem lruInsert_cache (h : s.deque.Holds σ.lru) (hl : σ.lru ≠ []) (hb : b ∉ σ.lru) :
    (s.lruInsert b).deque.Holds (σ.lruInsert b).lru := lruInsert_holds h hl hb

/-- `State.lruRemove` is what `LRUremove` does inside the chain. -/
theorem lruRemove_cache (h : s.deque.Holds σ.lru) (hl : σ.lru = a ++ b :: c) (ha : a ≠ [])
    (hc : c ≠ []) : (s.lruRemove b).deque.Holds (σ.lruRemove b).lru := by
  have hlru : (σ.lruRemove b).lru = a ++ c := by
    have hnodup := hl ▸ h.nodup
    have hnot : b ∉ a := fun hm =>
      (List.nodup_cons.mp (List.nodup_middle.mp hnodup)).1 (List.mem_append_left c hm)
    show σ.lru.erase b = a ++ c
    rw [hl, List.erase_append_right _ hnot, List.erase_cons_head]
  rw [hlru]
  exact lruRemove_holds (hl ▸ h) ha hc

end cache

/-! ### Whole runs -/

/-- The chain has the buffers, those of `bufinit` among them. -/
def Pool.Inv (t : Tune) (m : Pool) : Prop :=
  (∀ b < t.NBUF, m.alive b = true) ∧
    ∃ l, m.chain.deque.Holds l ∧ ∀ b, b ∈ l ↔ m.alive b = true

/-- **`bufinit`** makes one list of the buffers. -/
theorem Pool.Initial.inv (h : m.Initial t) : m.Inv t := by
  have hpos := t.nbuf_ge
  refine ⟨fun b hb => by rw [h.alive]; exact decide_eq_true hb, List.range t.NBUF, ?_, fun b => ?_⟩
  · refine ⟨List.nodup_range, fun a b hab => ?_⟩
    have hlen : a.length + b.length = t.NBUF := by
      rw [← List.length_append, ← hab, List.length_range]
    have ha : a = List.range a.length := by
      have htake := congrArg (List.take a.length) hab
      rw [List.take_left, List.take_range, min_eq_left (by omega)] at htake
      exact htake.symm
    have hb : b = (List.range t.NBUF).drop a.length := by
      rw [hab, List.drop_left]
    generalize a.length = k at ha hb hlen
    have hlast : a.getLast? = if k = 0 then none else some (k - 1) := by
      rw [ha, List.getLast?_range]
    have hhead : b.head? = if k < t.NBUF then some k else none := by
      rw [hb, List.head?_drop]
      split_ifs with hk
      · rw [List.getElem?_range hk]
      · exact List.getElem?_eq_none (by rw [List.length_range]; omega)
    rw [hlast, hhead]
    refine ⟨?_, ?_⟩
    · by_cases hk : k = 0
      · rw [if_pos hk, if_pos (by omega), hk]
        exact h.firstbuf
      · rw [if_neg hk]
        refine (h.bLRUf (k - 1) (by omega)).trans ?_
        by_cases hlt : k < t.NBUF
        · rw [if_pos hlt, if_neg (by omega), Nat.sub_add_cancel (by omega)]
        · rw [if_neg hlt, if_pos (by omega)]
    · by_cases hlt : k < t.NBUF
      · rw [if_pos hlt]
        exact h.bLRUb k hlt
      · rw [if_neg hlt, if_neg (by omega)]
        refine h.lastbuf.trans ?_
        congr
        omega
  · rw [h.alive, List.mem_range, decide_eq_true_eq]

/-- A chain is not empty. -/
theorem Pool.Inv.ne_nil (h : m.Inv t) (hmem : ∀ b, b ∈ l ↔ m.alive b = true) : 0 ∈ l :=
  (hmem 0).mpr (h.1 0 (by have := t.nbuf_ge; omega))

/-- Moving a buffer to the front. -/
theorem Pool.Inv.update (h : m.Inv t) (hb : m.alive b = true) :
    Pool.Inv t { m with chain := m.chain.lruUpdate b } := by
  obtain ⟨hpool, l, hl, hmem⟩ := h
  have hb' := (hmem b).mpr hb
  refine ⟨hpool, _, lruUpdate_holds hl hb', fun x => (Iff.trans ?_ (hmem x))⟩
  split_ifs with hfirst
  · rfl
  · exact (List.perm_cons_erase hb').mem_iff.symm

/-- A raw buffer that is not at an end has neighbours on both sides. -/
theorem inside_ne_nil (h : m.chain.deque.Holds (a ++ b :: c)) (hok : m.Inside (.freerbuf b)) :
    a ≠ [] ∧ c ≠ [] := by
  obtain ⟨hfirst, hlast⟩ := hok
  constructor
  · rintro rfl
    exact hfirst h.first_eq
  · rintro rfl
    exact hlast (h.last_eq.trans List.getLast?_concat)

/-- **Every step** that meets the condition keeps the chain. -/
theorem Pool.Inv.step {e : LruEvent} (h : m.Inv t) (hok : m.Inside e)
    (hstep : m.step t e = some m') :
    m'.Inv t := by
  cases e with
  | lookup b =>
    obtain ⟨hb, hstep⟩ := Option.ite_none_right_eq_some.mp hstep
    cases hstep
    exact h.update hb
  | claim free fuel =>
    obtain ⟨r, hr, rfl⟩ := Option.map_eq_some_iff.mp hstep
    obtain ⟨-, l, hl, hmem⟩ := id h
    have hfound : r = l.reverse.find? free := (victim_spec hl.linked_back).2 r hr
    cases r with
    | none => exact h
    | some b =>
      refine h.update ((hmem b).mp (List.mem_reverse.mp (List.mem_of_find?_eq_some hfound.symm)))
  | release b =>
    obtain ⟨-, hstep⟩ := Option.ite_none_right_eq_some.mp hstep
    cases hstep
    exact h
  | getrbuf b =>
    obtain ⟨hb, hstep⟩ := Option.ite_none_left_eq_some.mp hstep
    cases hstep
    obtain ⟨hpool, l, hl, hmem⟩ := id h
    obtain ⟨hdead, -⟩ := not_or.mp hb
    have hbl : b ∉ l := mt (hmem b).mp hdead
    refine ⟨fun x hx => ?_, b :: l,
      lruInsert_holds hl (List.ne_nil_of_mem (h.ne_nil hmem)) hbl, fun x => ?_⟩
    · have hxb : x ≠ b := by
        rintro rfl
        exact hdead (hpool x hx)
      show Function.update m.alive b true x = true
      rw [Function.update_of_ne hxb]
      exact hpool x hx
    · show x ∈ b :: l ↔ Function.update m.alive b true x = true
      rw [List.mem_cons, hmem, Function.update_apply]
      by_cases hxb : x = b
      · simp [hxb]
      · simp [hxb]
  | freerbuf b =>
    obtain ⟨⟨hb, hraw⟩, hstep⟩ := Option.ite_none_right_eq_some.mp hstep
    cases hstep
    obtain ⟨hpool, l, hl, hmem⟩ := h
    obtain ⟨a, c, rfl⟩ := List.append_of_mem ((hmem b).mpr hb)
    obtain ⟨ha, hc⟩ := inside_ne_nil hl hok
    have hnot := (List.nodup_cons.mp (List.nodup_middle.mp hl.nodup)).1
    refine ⟨fun x hx => ?_, a ++ c, lruRemove_holds hl ha hc, fun x => ?_⟩
    · show Function.update m.alive b false x = true
      rw [Function.update_of_ne (by omega)]
      exact hpool x hx
    · show x ∈ a ++ c ↔ Function.update m.alive b false x = true
      rw [Function.update_apply]
      by_cases hxb : x = b
      · subst hxb
        simp [hnot]
      · rw [if_neg hxb, ← hmem, List.perm_middle.mem_iff, List.mem_cons]
        exact (or_iff_right hxb).symm

/-- A raw buffer is never alone on the chain. -/
theorem Pool.Inv.beside (h : m.Inv t) (hmem : ∀ x, x ∈ a ++ b :: c ↔ m.alive x = true)
    (hb : t.NBUF ≤ b) : a ≠ [] ∨ c ≠ [] := by
  by_contra hboth
  rw [not_or, not_not, not_not] at hboth
  obtain ⟨rfl, rfl⟩ := hboth
  have h0 := h.ne_nil hmem
  have := t.nbuf_ge
  obtain rfl : 0 = b := by simpa using h0
  omega

/-- **A raw buffer at an end** leaves a link to itself behind. -/
theorem Pool.Inv.unlinked (h : m.Inv t) (hstep : m.step t (.freerbuf b) = some m')
    (hsound : m'.Sound) : m.Inside (.freerbuf b) := by
  obtain ⟨⟨hb, hraw⟩, hstep⟩ := Option.ite_none_right_eq_some.mp hstep
  cases hstep
  obtain ⟨-, l, hl, hmem⟩ := id h
  constructor
  · intro hfirst
    obtain ⟨c, rfl⟩ : ∃ c, l = b :: c := List.head?_eq_some_iff.mp (hl.first_eq.symm.trans hfirst)
    obtain ⟨f, c, rfl⟩ := List.exists_cons_of_ne_nil
      ((h.beside (a := []) hmem hraw).resolve_left (not_not.mpr rfl))
    -- the next buffer still points back
    have hl' : m.chain.deque.Holds ([b] ++ f :: c) := hl
    have hback : m.chain.bLRUb f = some b := hl'.prev_cell
    have hforw : m.chain.bLRUf b = some f := hl.next_cell (a := [])
    have hfb : f ≠ b := by
      rintro rfl
      exact (List.nodup_cons.mp hl.nodup).1 List.mem_cons_self
    have hnone := hsound.first f
    unfold Lru.lruRemove at hnone
    rw [if_pos hfirst, hfirst] at hnone
    have hstale : Function.update m.chain.bLRUb b none f = none := hnone hforw
    rw [Function.update_of_ne hfb, hback] at hstale
    cases hstale
  · intro hlast
    obtain ⟨a, rfl⟩ : ∃ a, l = a ++ [b] := List.getLast?_eq_some_iff.mp
        (hl.last_eq.symm.trans hlast)
    have ha : a ≠ [] := (h.beside hmem hraw).resolve_right (not_not.mpr rfl)
    obtain ⟨f, hfirst, hfb, -⟩ := first_ne hl ha
    obtain ⟨p, hp⟩ : ∃ p, a.getLast? = some p :=
      Option.ne_none_iff_exists'.mp (Deque.last_ne_none ha)
    obtain ⟨a, rfl⟩ := List.getLast?_eq_some_iff.mp hp
    have hl' : m.chain.deque.Holds (a ++ p :: [b]) := by simpa using hl
    have hforw : m.chain.bLRUf p = some b := hl'.next_cell
    have hback : m.chain.bLRUb b = some p := hl.prev_cell.trans hp
    have hpb : p ≠ b := by
      rintro rfl
      exact (List.nodup_cons.mp (List.nodup_middle.mp hl.nodup)).1 (by simp)
    have hnone := hsound.last p
    unfold Lru.lruRemove at hnone
    rw [hfirst, if_neg (by simpa using hfb), if_pos hlast, hlast] at hnone
    have hstale : Function.update m.chain.bLRUf b none p = none := hnone hback
    rw [Function.update_of_ne hpb, hforw] at hstale
    cases hstale

/-- **The LRU chain** has every buffer once and is linked both ways in every run in which no raw
    buffer is given back from an end of it; and giving back the buffer `b` keeps it so if and only
    if `b` is not at an end. -/
theorem lru_linked (t : Tune) (s : Pool) (h : Reach (Pool.Initial t) (Pool.step t) Pool.Inside s) :
    s.Sound ∧ ∀ b s', s.step t (.freerbuf b) = some s' → (s'.Sound ↔ s.Inside (.freerbuf b)) := by
  have hinv : ∀ {s}, Pool.Inv t s → s.Sound := fun hs => by
    obtain ⟨-, l, hl, hmem⟩ := hs
    exact sound_of_holds hl hmem
  have hreach : Pool.Inv t s :=
    h.invariant (fun s hs => hs.inv) fun s e s' hs hok hstep => hs.step hok hstep
  exact ⟨hinv hreach, fun b s' hstep =>
    ⟨hreach.unlinked hstep, fun hok => hinv (hreach.step hok hstep)⟩⟩

/-- The chain of 32 buffers. -/
def freshPool : Pool where
  chain :=
    { firstbuf := some 0
      lastbuf := some 31
      bLRUf := fun b => if b + 1 = 32 then none else some (b + 1)
      bLRUb := fun b => if b = 0 then none else some (b - 1) }
  alive := fun b => decide (b < 32)

def smallPool : Tune := leastTune

theorem freshPool_initial : freshPool.Initial smallPool :=
  ⟨fun _ => rfl, rfl, rfl, fun _ _ => rfl, fun _ _ => rfl⟩

/-- A raw buffer is given back after another buffer has been looked up. -/
theorem lru_linked_inside : ∃ s, runFrom (Pool.step smallPool) freshPool
    [.getrbuf 32, .lookup 5, .freerbuf 32] = some s ∧ s.Sound := by
  have h₀ : Reach (Pool.Initial smallPool) (Pool.step smallPool) Pool.Inside freshPool :=
    Reach.init freshPool_initial
  have h₁ := h₀.step (show freshPool.Inside (.getrbuf 32) from trivial) rfl
  have h₂ := h₁.step (show Pool.Inside _ (.lookup 5) from trivial) rfl
  have h₃ := h₂.step (show Pool.Inside _ (.freerbuf 32) by unfold Pool.Inside; decide) rfl
  exact ⟨_, rfl, (lru_linked smallPool _ h₃).1⟩

/-- **A link to a buffer that has been freed**: a raw buffer is made and given back. -/
theorem end_unlinked : ¬ ∀ (t : Tune) (s : Pool),
    Reach (Pool.Initial t) (Pool.step t) (fun _ _ => True) s → s.Sound := by
  intro hall
  have heval : (runFrom (Pool.step smallPool) freshPool [.getrbuf 32, .freerbuf 32]).any
      (fun s => s.chain.firstbuf == some 0 && s.chain.bLRUb 0 == some 32) = true := by
    decide +kernel
  obtain ⟨s, hs, hend⟩ := (Option.any_eq_true _ _).mp heval
  rw [Bool.and_eq_true, beq_iff_eq, beq_iff_eq] at hend
  have hsound := hall smallPool s
    (Reach.run (fun _ _ => trivial) (Reach.init freshPool_initial) hs)
  have hnone := hsound.first 0 hend.1
  rw [hend.2] at hnone
  cases hnone

end CohKernel.Bio
