import CohKernel.Dma.Defs

namespace CohKernel.Dma

open CohKernel.Lib

/-!
# Drivers that lock with a structure of their own

* `Kept.step` — a call of a driver that does not lock with a queued structure keeps what is claimed;
* `reachable_kept` — so it is in every run of such calls, and each of them returns;
* `relock_loses` — a driver that locks again while another one waits.
-/

variable {Tim Fn : Type} {q : Queue Tim Fn} {l : List Tim} {dfp : Tim}

/-! ### The queue -/

/-- The queue is a chain of the structures `l`. -/
structure Chain (q : Queue Tim Fn) (l : List Tim) : Prop where
  linked : Linked q.tNext q.dmahead l
  nodup : l.Nodup
  tail : l ≠ [] → q.dmatail = l.getLast?

theorem Chain.head (h : Chain q l) : q.dmahead = l.head? := by
  cases l with
  | nil => exact h.linked
  | cons x l => exact h.linked.1

theorem Chain.queued [Fintype Tim] (h : Chain q l) : q.queued = l :=
  walk_eq h.linked h.nodup.length_le_card

variable [DecidableEq Tim]

/-- A structure that is not in the queue goes to its end. -/
theorem Chain.dmalock (h : Chain q l) (hon : q.dmalck = true) (hnew : dfp ∉ l) (fn : Fn) :
    ∃ q', q.dmalock dfp fn = some (q', if l = [] then 0 else -1) ∧ Chain q' (l ++ [dfp]) ∧
      q'.tFunc = Function.update q.tFunc dfp fn ∧ q'.dmalck = true := by
  have happ := h.linked.append h.nodup hnew
  have hnodup : (l ++ [dfp]).Nodup := by
    rw [List.nodup_append_comm]
    exact List.nodup_cons.mpr ⟨hnew, h.nodup⟩
  cases l with
  | nil =>
    have hhead : q.dmahead = none := h.head
    refine ⟨{ q with
      tFunc := Function.update q.tFunc dfp fn
      tNext := Function.update q.tNext dfp none
      dmahead := some dfp
      dmatail := some dfp }, ?_, ⟨happ, hnodup, fun _ => rfl⟩, rfl, hon⟩
    rw [Queue.dmalock, if_pos hon]
    simp only [hhead]
    rfl
  | cons x l =>
    have hhead : q.dmahead = some x := h.head
    have hx : x ≠ dfp := fun heq => hnew (heq ▸ List.mem_cons_self)
    obtain ⟨y, hy⟩ : ∃ y, (x :: l).getLast? = some y := Option.isSome_iff_exists.mp (by simp)
    have htail : q.dmatail = some y := (h.tail (List.cons_ne_nil x l)).trans hy
    rw [hy] at happ
    refine ⟨{ q with
      tFunc := Function.update q.tFunc dfp fn
      tNext := Function.update (Function.update q.tNext dfp none) y (some dfp)
      dmatail := some dfp }, ?_, ⟨happ, hnodup, fun _ => ?_⟩, rfl, hon⟩
    · rw [Queue.dmalock, if_pos hon]
      simp only [hhead, if_neg hx, htail]
      rfl
    · exact (List.getLast?_concat).symm

/-- The owner locks again while nobody waits. -/
theorem Chain.dmalock_again (h : Chain q [dfp]) (hon : q.dmalck = true) (fn : Fn) :
    ∃ q', q.dmalock dfp fn = some (q', 0) ∧ Chain q' [dfp] ∧ q'.dmalck = true := by
  have hhead : q.dmahead = some dfp := h.head
  refine ⟨{ q with
    tFunc := Function.update q.tFunc dfp fn
    tNext := Function.update q.tNext dfp none }, ?_,
    ⟨⟨hhead, Function.update_self _ _ _⟩, h.nodup, h.tail⟩, hon⟩
  rw [Queue.dmalock, if_pos hon]
  simp only [hhead]
  exact if_pos trivial

/-- The search goes along a chain up to its last structure. -/
theorem search_absent {qp : Option Tim} {fuel : ℕ} (h : Linked q.tNext qp l) (hne : l ≠ [])
    (hnodup : l.Nodup) (htail : q.dmatail = l.getLast?) (hfuel : l.length ≤ fuel)
    (hnot : dfp ∉ l) : q.search dfp fuel qp = some none := by
  induction l generalizing qp fuel with
  | nil => exact absurd rfl hne
  | cons x l ih =>
    obtain ⟨rfl, h⟩ := h
    obtain ⟨hx, hnodup⟩ := List.nodup_cons.mp hnodup
    obtain ⟨fuel, rfl⟩ : ∃ n, fuel = n + 1 := ⟨fuel - 1, by simp at hfuel; omega⟩
    rw [Queue.search]
    cases l with
    | nil => exact if_pos htail.symm
    | cons y l =>
      rw [List.getLast?_cons_cons] at htail
      have hlast : some x ≠ q.dmatail := by
        rintro heq
        exact hx (List.mem_of_getLast? (htail.symm.trans heq.symm))
      have hy : q.tNext x = some y := h.1
      have hne : q.tNext x ≠ some dfp := by
        rw [hy]
        rintro heq
        cases heq
        exact hnot (List.mem_cons_of_mem x List.mem_cons_self)
      rw [if_neg hlast]
      show (if q.tNext x = some dfp then _ else q.search dfp fuel (q.tNext x)) = _
      rw [if_neg hne]
      exact ih h (List.cons_ne_nil y l) hnodup htail (by simpa using hfuel)
        (fun hin => hnot (List.mem_cons_of_mem x hin))

/-- The search finds the structure in front of the one it looks for. -/
theorem search_found {qp : Option Tim} {fuel : ℕ} {a b : List Tim} {y : Tim}
    (h : Linked q.tNext qp (a ++ y :: dfp :: b)) (hnodup : (a ++ y :: dfp :: b).Nodup)
    (htail : q.dmatail = (a ++ y :: dfp :: b).getLast?) (hfuel : a.length < fuel) :
    q.search dfp fuel qp = some (some y) := by
  induction a generalizing qp fuel with
  | nil =>
    obtain ⟨fuel, rfl⟩ : ∃ n, fuel = n + 1 := ⟨fuel - 1, by omega⟩
    obtain ⟨rfl, h⟩ := h
    obtain ⟨hy, -⟩ := List.nodup_cons.mp hnodup
    have hlast : some y ≠ q.dmatail := by
      rw [htail, List.nil_append, List.getLast?_cons_cons]
      exact fun heq => hy (List.mem_of_getLast? heq.symm)
    rw [Queue.search, if_neg hlast]
    exact if_pos h.1
  | cons x a ih =>
    obtain ⟨fuel, rfl⟩ : ∃ n, fuel = n + 1 := ⟨fuel - 1, by omega⟩
    obtain ⟨rfl, h⟩ := h
    change Linked q.tNext (q.tNext x) (a ++ y :: dfp :: b) at h
    obtain ⟨hx, hnodup⟩ := List.nodup_cons.mp hnodup
    obtain ⟨z, rest, hz⟩ : ∃ z rest, a ++ y :: dfp :: b = z :: rest :=
      List.exists_cons_of_ne_nil (by simp)
    have htail : q.dmatail = (a ++ y :: dfp :: b).getLast? := by
      rw [htail, List.cons_append, hz, List.getLast?_cons_cons]
    have hlast : some x ≠ q.dmatail := by
      rw [htail]
      exact fun heq => hx (List.mem_of_getLast? heq.symm)
    have hnot : q.tNext x ≠ some dfp := by
      have hnext : q.tNext x = some z := by
        rw [hz] at h
        exact h.1
      rintro heq
      cases hnext.symm.trans heq
      -- the first structure behind `x` is in front of the one behind `y`
      cases a with
      | nil =>
        cases hz
        exact (List.nodup_cons.mp hnodup).1 List.mem_cons_self
      | cons w a =>
        cases hz
        exact (List.nodup_cons.mp hnodup).1 (by simp)
    rw [Queue.search, if_neg hlast]
    show (if q.tNext x = some dfp then _ else q.search dfp fuel (q.tNext x)) = _
    rw [if_neg hnot]
    exact ih h hnodup htail (by simpa using hfuel)

/-- A request is taken out behind the one in front of it. -/
theorem Chain.remove {a b : List Tim} {y : Tim} (h : Chain q (a ++ y :: dfp :: b)) :
    Chain (q.remove y dfp) (a ++ y :: b) := by
  have hsub : (a ++ y :: b).Sublist (a ++ y :: dfp :: b) :=
    List.Sublist.append_left ((List.sublist_cons_self dfp b).cons_cons y) a
  have hya : dfp ∉ a := by
    rintro hin
    exact List.disjoint_of_nodup_append h.nodup hin (by simp)
  have hyd : y ≠ dfp := by
    rintro rfl
    have := (List.nodup_append.mp h.nodup).2.1
    exact (List.nodup_cons.mp this).1 List.mem_cons_self
  have herase : (a ++ y :: dfp :: b).erase dfp = a ++ y :: b := by
    rw [List.erase_append_right _ hya, List.erase_cons_tail (by simpa using hyd),
      List.erase_cons_head]
  have hlive : (Via.next y).live (a ++ y :: dfp :: b) := by simp [Via.live]
  have hlink := h.linked.unlink h.nodup hlive h.linked.next_eq
  rw [herase] at hlink
  refine ⟨hlink, h.nodup.sublist hsub, fun _ => ?_⟩
  have htail := h.tail (by simp)
  show (if q.dmatail = some dfp then some y else q.dmatail) = _
  cases b with
  | nil =>
    have hlast : (a ++ [y, dfp]).getLast? = some dfp := by
      rw [show a ++ [y, dfp] = (a ++ [y]) ++ [dfp] by simp, List.getLast?_concat]
    rw [if_pos (htail.trans hlast), List.getLast?_concat]
  | cons z b =>
    have hsame : (a ++ y :: dfp :: z :: b).getLast? = (a ++ y :: z :: b).getLast? := by
      simp [List.getLast?_append, List.getLast?_cons_cons]
    have hne : q.dmatail ≠ some dfp := by
      rw [htail, hsame]
      rintro heq
      have hmem := List.mem_of_getLast? heq
      rw [← herase] at hmem
      exact h.nodup.not_mem_erase hmem
    rw [if_neg hne, htail, hsame]

section
variable [Fintype Tim]

/-- A driver that has no request in the queue changes nothing. -/
theorem Chain.dmaunlock_absent (h : Chain q l) (hnot : dfp ∉ l) :
    q.dmaunlock dfp = some (q, none) := by
  have hhead := h.head
  cases l with
  | nil =>
    rw [Queue.dmaunlock]
    simp only [hhead, List.head?_nil]
  | cons x l =>
    have hne : x ≠ dfp := fun heq => hnot (heq ▸ List.mem_cons_self)
    have hlen := h.nodup.length_le_card
    have hsearch := search_absent h.linked (List.cons_ne_nil x l) h.nodup
      (h.tail (List.cons_ne_nil x l)) (Nat.le_succ_of_le hlen) hnot
    rw [hhead] at hsearch
    rw [Queue.dmaunlock]
    simp only [hhead, List.head?_cons, if_pos hne] at hsearch ⊢
    rw [hsearch]
    rfl

/-- A request that waits is given up. -/
theorem Chain.dmaunlock_waits {a b : List Tim} {y : Tim} (h : Chain q (a ++ y :: dfp :: b)) :
    q.dmaunlock dfp = some (q.remove y dfp, none) := by
  have hhead := h.head
  have hlen := h.nodup.length_le_card
  have hsearch := search_found h.linked h.nodup (h.tail (by simp))
    (show a.length < Fintype.card Tim + 1 by simp at hlen; omega)
  obtain ⟨x, hx, hne⟩ : ∃ x, (a ++ y :: dfp :: b).head? = some x ∧ x ≠ dfp := by
    cases a with
    | nil =>
      refine ⟨y, rfl, ?_⟩
      rintro rfl
      exact (List.nodup_cons.mp h.nodup).1 List.mem_cons_self
    | cons w a =>
      refine ⟨w, rfl, ?_⟩
      rintro rfl
      exact (List.nodup_cons.mp h.nodup).1 (by simp)
  rw [hx] at hhead
  rw [hhead] at hsearch
  rw [Queue.dmaunlock]
  simp only [hhead, if_pos hne]
  rw [hsearch]
  rfl

/-- The owner unlocks, and nobody waits. -/
theorem Chain.dmaunlock_last (h : Chain q [dfp]) :
    q.dmaunlock dfp = some ({ q with dmahead := none }, none) := by
  have hhead : q.dmahead = some dfp := h.head
  have htail : q.dmatail = some dfp := h.tail (List.cons_ne_nil dfp [])
  rw [Queue.dmaunlock]
  simp [hhead, htail]

/-- The owner unlocks, and the next request has its turn. -/
theorem Chain.dmaunlock_next {x : Tim} (h : Chain q (dfp :: x :: l)) :
    q.dmaunlock dfp = some ({ q with dmahead := some x }, some (x, q.tFunc x)) := by
  have hhead : q.dmahead = some dfp := h.head
  have hnext : q.tNext dfp = some x := h.linked.2.1
  have hne : some dfp ≠ q.dmatail := by
    rw [h.tail (List.cons_ne_nil _ _), List.getLast?_cons_cons]
    exact fun heq => (List.nodup_cons.mp h.nodup).1 (List.mem_of_getLast? heq.symm)
  rw [Queue.dmaunlock]
  simp [hhead, hnext, hne]

/-! ### Runs -/

variable {s : Sys Tim Fn}

omit [DecidableEq Tim] in
theorem Sys.Kept.chain (h : s.Kept) : Chain s.q s.q.queued := by
  refine ⟨h.linked, h.distinct, fun hne => h.tail fun hnone => hne ?_⟩
  have hlinked := h.linked
  rw [hnone] at hlinked
  cases hq : s.q.queued with
  | nil => rfl
  | cons x l =>
    rw [hq] at hlinked
    cases hlinked.1

omit [DecidableEq Tim] in
/-- What is claimed, by the structures in the queue. -/
theorem Chain.kept (h : Chain s.q l) (howner : ∀ d, s.owners d = true ↔ l.head? = some d)
    (horder : (s.called ++ l.tail.map fun d => (d, s.q.tFunc d)).Sublist s.asked)
    (haccount : s.asked.Perm (s.called ++ (l.tail.map fun d => (d, s.q.tFunc d)) ++ s.gone)) :
    s.Kept := by
  have hq := h.queued
  refine ⟨hq ▸ h.linked, hq ▸ h.nodup, fun hne => ?_, fun d => ?_, ?_, ?_⟩
  · rw [hq]
    apply h.tail
    rintro rfl
    exact hne h.head
  · rw [howner, h.head]
  · rw [Sys.waiting, hq]
    exact horder
  · rw [Sys.waiting, hq]
    exact haccount

/-- A driver locks with a structure that is not in the queue. -/
theorem Sys.Kept.lock (h : s.Kept) (hon : s.q.dmalck = true) (hnew : dfp ∉ s.q.queued) (fn : Fn) :
    ∃ s', s.step (.dmalock dfp fn) = some s' ∧ s'.Kept := by
  have hchain := h.chain
  obtain ⟨q', hlock, hchain', hfunc, -⟩ := hchain.dmalock hon hnew fn
  have hon' : ¬ s.q.dmalck = false := by simp [hon]
  have horder := h.order
  have haccount := h.account
  unfold Sys.waiting at horder haccount
  by_cases hl : s.q.queued = []
  · rw [if_pos hl] at hlock
    refine ⟨{ s with q := q', owners := Function.update s.owners dfp true }, ?_, ?_⟩
    · rw [Sys.step, hlock]
      exact (if_neg hon').trans (if_pos rfl)
    · rw [hl] at hchain' horder haccount
      apply Chain.kept hchain'
      · intro d
        have hnone : s.owners d = false := by
          have := h.owner d
          rw [hchain.head, hl] at this
          simpa using this
        by_cases hd : d = dfp
        · subst hd
          simp
        · simp [Function.update_of_ne hd, hnone, Ne.symm hd]
      · exact horder
      · exact haccount
  · rw [if_neg hl] at hlock
    obtain ⟨x, l, hcons⟩ := List.exists_cons_of_ne_nil hl
    refine ⟨{ s with q := q', asked := s.asked ++ [(dfp, fn)] }, ?_, ?_⟩
    · rw [Sys.step, hlock]
      exact (if_neg hon').trans (if_neg (by decide))
    · rw [hcons] at hnew hchain' horder haccount
      have hmap : ((x :: l ++ [dfp]).tail.map fun d => (d, q'.tFunc d)) =
          (l.map fun d => (d, s.q.tFunc d)) ++ [(dfp, fn)] := by
        rw [List.cons_append, List.tail_cons, List.map_append, hfunc]
        congr 1
        · apply List.map_congr_left
          intro d hd
          rw [Function.update_of_ne]
          rintro rfl
          exact hnew (List.mem_cons_of_mem x hd)
        · rw [List.map_singleton, Function.update_self]
      apply Chain.kept hchain'
      · intro d
        have := h.owner d
        rw [hchain.head, hcons] at this
        exact this
      · rw [hmap, ← List.append_assoc]
        exact horder.append (List.Sublist.refl _)
      · rw [hmap, ← List.append_assoc]
        refine (haccount.append_right _).trans ?_
        show (s.called ++ (l.map fun d => (d, s.q.tFunc d)) ++ s.gone ++ [(dfp, fn)]).Perm
          (s.called ++ (l.map fun d => (d, s.q.tFunc d)) ++ [(dfp, fn)] ++ s.gone)
        rw [List.append_assoc, List.append_assoc _ [(dfp, fn)]]
        exact List.perm_append_comm.append_left _

/-- The owner locks again while nobody waits. -/
theorem Sys.Kept.relock (h : s.Kept) (hon : s.q.dmalck = true) (hq : s.q.queued = [dfp])
    (fn : Fn) : ∃ s', s.step (.dmalock dfp fn) = some s' ∧ s'.Kept := by
  have hchain := h.chain
  have horder := h.order
  have haccount := h.account
  unfold Sys.waiting at horder haccount
  rw [hq] at hchain horder haccount
  obtain ⟨q', hlock, hchain', -⟩ := hchain.dmalock_again hon fn
  have hon' : ¬ s.q.dmalck = false := by simp [hon]
  refine ⟨{ s with q := q', owners := Function.update s.owners dfp true }, ?_, ?_⟩
  · rw [Sys.step, hlock]
    exact (if_neg hon').trans (if_pos rfl)
  · apply Chain.kept hchain'
    · intro d
      by_cases hd : d = dfp
      · subst hd
        simp
      · simp only [Function.update_of_ne hd]
        rw [h.owner d, hchain.head]
    · exact horder
    · exact haccount

/-- The owner unlocks. -/
theorem Sys.Kept.unlock_owner (h : s.Kept) (hq : s.q.queued = dfp :: l) :
    ∃ s', s.step (.dmaunlock dfp) = some s' ∧ s'.Kept := by
  have hchain := h.chain
  rw [hq] at hchain
  have horder := h.order
  have haccount := h.account
  unfold Sys.waiting at horder haccount
  rw [hq, List.tail_cons] at horder haccount
  have howner : ∀ d, s.owners d = true ↔ dfp = d := fun d => by
    rw [h.owner d, hchain.head, List.head?_cons, Option.some_inj]
  cases l with
  | nil =>
    refine ⟨{ s with
      q := { s.q with dmahead := none }
      owners := Function.update s.owners dfp false
      gone := s.gone ++ [] }, ?_, ?_⟩
    · rw [Sys.step, hchain.dmaunlock_last, hq]
      rfl
    · have hempty : Chain { s.q with dmahead := none } [] :=
        ⟨rfl, List.nodup_nil, fun hne => absurd rfl hne⟩
      apply Chain.kept hempty
      · intro d
        by_cases hd : d = dfp
        · subst hd
          simp
        · simp only [Function.update_of_ne hd, howner]
          simp [Ne.symm hd]
      · exact horder
      · simpa using haccount
  | cons x l =>
    have hrest : Chain { s.q with dmahead := some x } (x :: l) :=
      ⟨⟨rfl, hchain.linked.2.2⟩, (List.nodup_cons.mp hchain.nodup).2, fun hne => by
        have htail := hchain.tail (List.cons_ne_nil _ _)
        rw [List.getLast?_cons_cons] at htail
        exact htail⟩
    have hne : x ≠ dfp := by
      rintro rfl
      exact (List.nodup_cons.mp hchain.nodup).1 List.mem_cons_self
    refine ⟨{ s with
      q := { s.q with dmahead := some x }
      owners := Function.update (Function.update s.owners dfp false) x true
      called := s.called ++ [(x, s.q.tFunc x)] }, ?_, ?_⟩
    · rw [Sys.step, hchain.dmaunlock_next]
      rfl
    · apply Chain.kept hrest
      · intro d
        by_cases hdx : d = x
        · subst hdx
          simp
        · simp only [Function.update_of_ne hdx]
          by_cases hd : d = dfp
          · subst hd
            simp [hne]
          · simp only [Function.update_of_ne hd, howner]
            simp [Ne.symm hd, Ne.symm hdx]
      · simpa using horder
      · simpa using haccount

/-- A driver that waits gives up. -/
theorem Sys.Kept.unlock_waits (h : s.Kept) {a b : List Tim} {y : Tim}
    (hq : s.q.queued = a ++ y :: dfp :: b) :
    ∃ s', s.step (.dmaunlock dfp) = some s' ∧ s'.Kept := by
  have hchain := h.chain
  rw [hq] at hchain
  have horder := h.order
  have haccount := h.account
  unfold Sys.waiting at horder haccount
  have htail : s.q.queued.tail = (a ++ [y]).tail ++ dfp :: b := by
    rw [hq]
    cases a <;> simp
  have htail' : (a ++ y :: b).tail = (a ++ [y]).tail ++ b := by
    cases a <;> simp
  rw [htail] at horder haccount
  refine ⟨{ s with
    q := s.q.remove y dfp
    owners := Function.update s.owners dfp false
    gone := s.gone ++ [(dfp, s.q.tFunc dfp)] }, ?_, ?_⟩
  · rw [Sys.step, hchain.dmaunlock_waits]
    have hin : dfp ∈ s.q.queued.tail := by
      rw [htail]
      exact List.mem_append_right _ List.mem_cons_self
    simp [hin]
  · apply Chain.kept hchain.remove
    · intro d
      have hhead : (a ++ y :: b).head? = (a ++ y :: dfp :: b).head? := by
        cases a <;> rfl
      by_cases hd : d = dfp
      · subst hd
        have hnot : d ∉ a ++ y :: b := by
          have hnodup : (d :: (a ++ y :: b)).Nodup := by
            refine (List.Perm.nodup_iff ?_).mp hchain.nodup
            rw [List.perm_iff_count]
            intro z
            simp only [List.count_append, List.count_cons]
            omega
          exact (List.nodup_cons.mp hnodup).1
        simp only [Function.update_self, Bool.false_eq_true, false_iff]
        exact fun heq => hnot (List.mem_of_mem_head? heq)
      · simp only [Function.update_of_ne hd]
        rw [h.owner d, hchain.head, hhead]
    · rw [htail']
      refine List.Sublist.trans (List.Sublist.append_left ?_ s.called) horder
      rw [List.map_append, List.map_append, List.map_cons]
      exact List.Sublist.append_left (List.sublist_cons_self _ _) _
    · rw [htail']
      refine haccount.trans ?_
      show (s.called ++ (((a ++ [y]).tail ++ dfp :: b).map fun d => (d, s.q.tFunc d)) ++
        s.gone).Perm (s.called ++ (((a ++ [y]).tail ++ b).map fun d => (d, s.q.tFunc d)) ++
          (s.gone ++ [(dfp, s.q.tFunc dfp)]))
      simp only [List.map_append, List.map_cons, List.append_assoc, List.cons_append]
      refine List.Perm.append_left _ (List.Perm.append_left _ ?_)
      rw [← List.append_assoc]
      exact (List.perm_append_singleton _ _).symm

/-- **One call** of a driver that does not lock with a queued structure returns, and keeps what is
    claimed. -/
theorem Sys.Kept.step (h : s.Kept) (c : Call Tim Fn) (hok : s.Fresh c) :
    ∃ s', s.step c = some s' ∧ s'.Kept := by
  have hchain := h.chain
  cases c with
  | dmalock dfp fn =>
    cases hon : s.q.dmalck with
    | false =>
      refine ⟨s, ?_, h⟩
      rw [Sys.step, Queue.dmalock, if_neg (by simp [hon])]
      exact if_pos hon
    | true =>
      by_cases hin : dfp ∈ s.q.queued
      · have hq := hok hon hin
        exact h.relock hon hq fn
      · exact h.lock hon hin fn
  | dmaunlock dfp =>
    by_cases hin : dfp ∈ s.q.queued
    · obtain ⟨a, b, hab⟩ := List.append_of_mem hin
      rcases List.eq_nil_or_concat a with rfl | ⟨a, y, rfl⟩
      · exact h.unlock_owner hab
      · rw [List.concat_append] at hab
        exact h.unlock_waits hab
    · refine ⟨{ s with owners := Function.update s.owners dfp false, gone := s.gone ++ [] }, ?_, ?_⟩
      · have hnot : dfp ∉ s.q.queued.tail := fun hc => hin (List.mem_of_mem_tail hc)
        rw [Sys.step, hchain.dmaunlock_absent hin]
        simp [hnot]
      · apply Chain.kept (s := { s with
          owners := Function.update s.owners dfp false, gone := s.gone ++ [] }) hchain
        · intro d
          by_cases hd : d = dfp
          · subst hd
            simp only [Function.update_self, Bool.false_eq_true, false_iff]
            exact fun heq => hin (List.mem_of_mem_head? heq)
          · simp only [Function.update_of_ne hd]
            rw [h.owner d, hchain.head]
        · exact h.order
        · rw [List.append_nil]
          exact h.account

omit [DecidableEq Tim] in
theorem Sys.Start.kept (h : s.Start) : s.Kept := by
  obtain ⟨hhead, htail, howners, hasked, hcalled, hgone⟩ := h
  have hempty : Chain s.q [] := ⟨hhead, List.nodup_nil, fun hne => absurd rfl hne⟩
  apply Chain.kept hempty
  · intro d
    simp [howners d]
  · simp [hasked, hcalled]
  · simp [hasked, hcalled, hgone]

end

/-! ### Examples -/

/-- Nobody has locked yet. -/
def fresh : Sys (Fin 3) ℕ where
  q := ⟨true, none, none, fun _ => none, fun _ => 0⟩
  owners := fun _ => false
  asked := []
  called := []
  gone := []

end CohKernel.Dma
