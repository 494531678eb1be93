import Mathlib.Tactic

namespace CohKernel.Lib

/-!
# Doubly linked queues

Queues of cells with a link forward, and a link back to where the link to the cell is: the head of
the queue or the cell before it.

* `Queues` — the links are those of the queues `Q`;
* `Queues.unlink` — a cell is taken out of its queue;
* `Queues.insert` — a cell is put into a queue after a link;
* `Queues.push` — a cell is put at the head of a queue.
-/

/-- Where the link to a cell is. -/
inductive Link (ι τ : Type*) where
  | head (i : ι)
  | cell (t : τ)
deriving DecidableEq

/-- The links forward and back. -/
@[ext] structure Links (ι τ : Type*) where
  next : Link ι τ → Option τ
  last : τ → Option (Link ι τ)

variable {ι τ : Type*} {s s' : Links ι τ} {l l' : Link ι τ} {t n : τ} {ts a b : List τ}
  {Q : ι → List τ} {i : ι}

/-! ### Segments -/

/-- From the link `l` on are the cells `ts`. -/
def Seg (s : Links ι τ) : Link ι τ → List τ → Prop
  | _, [] => True
  | l, t :: ts => s.next l = some t ∧ s.last t = some l ∧ Seg s (.cell t) ts

/-- The link after the last cell. -/
def endLink : Link ι τ → List τ → Link ι τ
  | l, [] => l
  | _, t :: ts => endLink (.cell t) ts

theorem endLink_append : endLink l (a ++ b) = endLink (endLink l a) b := by
  induction a generalizing l with
  | nil => rfl
  | cons t a ih => exact ih

theorem Seg.append : Seg s l (a ++ b) ↔ Seg s l a ∧ Seg s (endLink l a) b := by
  induction a generalizing l with
  | nil => simp [Seg, endLink]
  | cons t a ih =>
    rw [List.cons_append, Seg, Seg, ih, endLink]
    tauto

/-- The link to a cell. -/
theorem Seg.mem (h : Seg s l ts) (ht : t ∈ ts) :
    ∃ l', s.last t = some l' ∧ s.next l' = some t ∧ (l' = l ∨ ∃ x ∈ ts, l' = .cell x) := by
  induction ts generalizing l with
  | nil => cases ht
  | cons x ts ih =>
    obtain ⟨hnext, hlast, hrest⟩ := h
    rcases List.mem_cons.mp ht with rfl | ht
    · exact ⟨l, hlast, hnext, Or.inl rfl⟩
    · obtain ⟨l', hl, hn, rfl | ⟨y, hy, rfl⟩⟩ := ih hrest ht
      · exact ⟨_, hl, hn, Or.inr ⟨x, List.mem_cons_self, rfl⟩⟩
      · exact ⟨_, hl, hn, Or.inr ⟨y, List.mem_cons_of_mem x hy, rfl⟩⟩

/-- The links of other cells can be changed. -/
theorem Seg.frame (h : Seg s l ts)
    (hs : ∀ t ∈ ts, s'.last t = s.last t ∧ ∀ l', s.last t = some l' → s'.next l' = s.next l') :
    Seg s' l ts := by
  induction ts generalizing l with
  | nil => exact trivial
  | cons t ts ih =>
    obtain ⟨hnext, hlast, hrest⟩ := h
    obtain ⟨hl, hn⟩ := hs t List.mem_cons_self
    exact ⟨(hn l hlast).trans hnext, hl.trans hlast,
      ih hrest fun x hx => hs x (List.mem_cons_of_mem t hx)⟩

/-! ### Queues -/

/-- The links are those of the queues `Q`. -/
structure Queues (s : Links ι τ) (Q : ι → List τ) : Prop where
  seg : ∀ i, Seg s (.head i) (Q i)
  stop : ∀ i, s.next (endLink (.head i) (Q i)) = none
  nodup : ∀ i, (Q i).Nodup
  apart : ∀ i j t, t ∈ Q i → t ∈ Q j → i = j
  out : ∀ t, (∀ i, t ∉ Q i) → s.last t = none

/-- A cell is in a queue when it has a link back. -/
theorem Queues.last_iff (h : Queues s Q) : s.last t ≠ none ↔ ∃ i, t ∈ Q i := by
  constructor
  · intro hl
    by_contra hc
    exact hl (h.out t fun i hi => hc ⟨i, hi⟩)
  · rintro ⟨i, hi⟩
    obtain ⟨l, hl, -⟩ := (h.seg i).mem hi
    rw [hl]
    exact Option.some_ne_none l

/-- The cell after a part of a queue. -/
theorem Queues.next_eq (h : Queues s Q) (hQ : Q i = a ++ b) :
    s.next (endLink (.head i) a) = b.head? := by
  have hseg := h.seg i
  have hstop := h.stop i
  rw [hQ] at hseg hstop
  cases b with
  | nil =>
    rw [List.append_nil] at hstop
    exact hstop
  | cons t b => exact (Seg.append.mp hseg).2.1

variable [DecidableEq ι] [DecidableEq τ]

/-- Take a cell out of its queue, if it is in one. -/
def Links.unlink (s : Links ι τ) (t : τ) : Links ι τ :=
  match s.last t with
  | none => s
  | some l =>
      { next := Function.update s.next l (s.next (.cell t))
        last :=
          match s.next (.cell t) with
          | none => Function.update s.last t none
          | some n => Function.update (Function.update s.last t none) n (some l) }

/-- Put a cell at the head of a queue. -/
def Links.push (s : Links ι τ) (i : ι) (t : τ) : Links ι τ :=
  { next := Function.update (Function.update s.next (.cell t) (s.next (.head i))) (.head i) (some t)
    last := Function.update
      (match s.next (.head i) with
        | none => s.last
        | some n => Function.update s.last n (some (.cell t))) t (some (.head i)) }

omit [DecidableEq ι] in
theorem erase_append (hnot : t ∉ a) : (a ++ t :: b).erase t = a ++ b := by
  rw [List.erase_append_right _ hnot, List.erase_cons_head]

/-- **A cell is taken out** of its queue. -/
theorem Queues.unlink (h : Queues s Q) (t : τ) : Queues (s.unlink t) fun i => (Q i).erase t := by
  by_cases hout : ∀ i, t ∉ Q i
  · have hsame : (fun i => (Q i).erase t) = Q := funext fun i => List.erase_of_not_mem (hout i)
    unfold Links.unlink
    rw [h.out t hout, hsame]
    exact h
  push Not at hout
  obtain ⟨i, hi⟩ := hout
  obtain ⟨a, b, hQ⟩ := List.append_of_mem hi
  have hnd := h.nodup i
  rw [hQ, List.nodup_append'] at hnd
  obtain ⟨hnda, hndb, hdisj⟩ := hnd
  obtain ⟨htb, hndb⟩ := List.nodup_cons.mp hndb
  have hta : t ∉ a := fun hc => hdisj hc List.mem_cons_self
  have hother : ∀ j, j ≠ i → t ∉ Q j := fun j hj hc => hj (h.apart j i t hc hi)
  -- the link to the cell, and the cell after it
  have hseg := h.seg i
  rw [hQ] at hseg
  obtain ⟨hsega, hnext, hlast, hsegb⟩ := Seg.append.mp hseg
  generalize hl : endLink (.head i) a = l at hnext hlast
  have hafter : s.next (.cell t) = b.head? := by
    have := h.next_eq (a := a ++ [t]) (b := b) (i := i) (by rw [hQ]; simp)
    rw [endLink_append] at this
    exact this
  have hunlink : s.unlink t =
      { next := Function.update s.next l b.head?
        last := match b.head? with
          | none => Function.update s.last t none
          | some n => Function.update (Function.update s.last t none) n (some l) } := by
    unfold Links.unlink
    rw [hlast, ← hafter]
  rw [hunlink]
  -- the cells whose links do not change
  have hkeep : ∀ x, x ≠ t → (∀ n ∈ b.head?, x ≠ n) → ∀ {l₀ ts}, Seg s l₀ ts → x ∈ ts →
      (match b.head? with
        | none => Function.update s.last t none
        | some n => Function.update (Function.update s.last t none) n (some l)) x = s.last x ∧
      ∀ l', s.last x = some l' → Function.update s.next l b.head? l' = s.next l' := by
    intro x hxt hxn l₀ ts hsegx hx
    constructor
    · cases hb : b.head? with
      | none => exact Function.update_of_ne hxt _ _
      | some n =>
        simp only
        rw [Function.update_of_ne (hxn n (by rw [hb]; rfl)), Function.update_of_ne hxt]
    · intro l' hl'
      refine Function.update_of_ne ?_ _ _
      rintro rfl
      obtain ⟨l'', hl'', hn'', -⟩ := hsegx.mem hx
      rw [hl'] at hl''
      cases hl''
      rw [hnext] at hn''
      exact hxt (Option.some.inj hn'').symm
  have hbhead : ∀ n ∈ b.head?, n ∈ b := fun n hn => List.mem_of_mem_head? hn
  refine ⟨fun j => ?_, fun j => ?_, fun j => (h.nodup j).erase t, fun j k x hj hk =>
    h.apart j k x (List.mem_of_mem_erase hj) (List.mem_of_mem_erase hk), fun x hx => ?_⟩
  · by_cases hj : j = i
    · subst hj
      rw [hQ, erase_append hta]
      refine Seg.append.mpr ⟨hsega.frame fun x hx => ?_, ?_⟩
      · exact hkeep x (fun hc => hta (hc ▸ hx))
          (fun n hn hc => hdisj hx (List.mem_cons_of_mem t (hc ▸ hbhead n hn))) hsega hx
      · rw [hl]
        cases b with
        | nil => exact trivial
        | cons n b =>
          obtain ⟨-, -, hsegb⟩ := hsegb
          have hnb := List.nodup_cons.mp hndb
          refine ⟨Function.update_self _ _ _, Function.update_self _ _ _, hsegb.frame fun x hx =>
            ?_⟩
          exact hkeep x (fun hc => htb (List.mem_cons_of_mem n (hc ▸ hx)))
            (fun m hm hc => by cases hm; exact hnb.1 (hc ▸ hx)) hsegb hx
    · rw [List.erase_of_not_mem (hother j hj)]
      refine (h.seg j).frame fun x hx => ?_
      refine hkeep x (fun hc => hother j hj (hc ▸ hx)) (fun n hn hc => hj ?_) (h.seg j) hx
      refine h.apart j i x hx ?_
      rw [hc, hQ]
      exact List.mem_append_right _ (List.mem_cons_of_mem t (hbhead n hn))
  · by_cases hj : j = i
    · subst hj
      rw [hQ, erase_append hta, endLink_append, hl]
      cases b with
      | nil => exact Function.update_self _ _ _
      | cons n b =>
        have hstop := h.stop j
        rw [hQ, endLink_append] at hstop
        have hne : endLink l (n :: b) ≠ l := by
          intro hc
          rw [show endLink (endLink (.head j) a) (t :: n :: b) = endLink l (n :: b) from rfl, hc,
            hnext] at hstop
          cases hstop
        exact (Function.update_of_ne hne _ _).trans hstop
    · rw [List.erase_of_not_mem (hother j hj)]
      have hne : endLink (.head j) (Q j) ≠ l := by
        intro hc
        have hstop := h.stop j
        rw [hc, hnext] at hstop
        cases hstop
      exact (Function.update_of_ne hne _ _).trans (h.stop j)
  · by_cases hxt : x = t
    · subst hxt
      cases hb : b.head? with
      | none => exact Function.update_self _ _ _
      | some n =>
        have hne : x ≠ n := fun hc => htb (hc ▸ hbhead n (by rw [hb]; rfl))
        simp only
        rw [Function.update_of_ne hne, Function.update_self]
    · have hxQ : ∀ j, x ∉ Q j := fun j hc => hx j ((List.mem_erase_of_ne hxt).mpr hc)
      have hlx := h.out x hxQ
      cases hb : b.head? with
      | none => exact (Function.update_of_ne hxt _ _).trans hlx
      | some n =>
        have hne : x ≠ n := by
          rintro rfl
          refine hxQ i ?_
          rw [hQ]
          exact List.mem_append_right _ (List.mem_cons_of_mem t (hbhead x (by rw [hb]; rfl)))
        simp only
        rw [Function.update_of_ne hne, Function.update_of_ne hxt, hlx]

/-- Put a cell after a link. -/
def Links.insert (s : Links ι τ) (l : Link ι τ) (t : τ) : Links ι τ :=
  { next := Function.update (Function.update s.next (.cell t) (s.next l)) l (some t)
    last := Function.update
      (match s.next l with
        | none => s.last
        | some n => Function.update s.last n (some (.cell t))) t (some l) }

omit [DecidableEq ι] [DecidableEq τ] in
/-- The last link of a segment is where it starts, or in one of its cells. -/
theorem endLink_cases (l : Link ι τ) (ts : List τ) :
    endLink l ts = l ∨ ∃ x ∈ ts, endLink l ts = .cell x := by
  induction ts generalizing l with
  | nil => exact Or.inl rfl
  | cons x ts ih =>
    rcases ih (.cell x) with hx | ⟨y, hy, hl⟩
    · exact Or.inr ⟨x, List.mem_cons_self, hx⟩
    · exact Or.inr ⟨y, List.mem_cons_of_mem x hy, hl⟩

/-- **A cell is put** into a queue. -/
theorem Queues.insert (h : Queues s Q) (hQ : Q i = a ++ b) (hl : endLink (.head i) a = l)
    (hout : ∀ j, t ∉ Q j) : Queues (s.insert l t) (Function.update Q i (a ++ t :: b)) := by
  have hnext : s.next l = b.head? := by
    rw [← hl]
    exact h.next_eq hQ
  have hinsert : s.insert l t =
      { next := Function.update (Function.update s.next (.cell t) b.head?) l (some t)
        last := Function.update
          (match b.head? with
            | none => s.last
            | some n => Function.update s.last n (some (.cell t))) t (some l) } := by
    unfold Links.insert
    rw [hnext]
  rw [hinsert]
  have hnd := h.nodup i
  rw [hQ, List.nodup_append'] at hnd
  obtain ⟨-, hndb, hdisj⟩ := hnd
  have hina : ∀ x ∈ a, x ∈ Q i := fun x hx => by
    rw [hQ]
    exact List.mem_append_left b hx
  have hinb : ∀ x ∈ b, x ∈ Q i := fun x hx => by
    rw [hQ]
    exact List.mem_append_right a hx
  have hfirst : ∀ n ∈ b.head?, n ∈ b := fun n hn => List.mem_of_mem_head? hn
  have hlcell : ∀ x, l = .cell x → x ∈ a := by
    intro x hx
    rcases endLink_cases (.head i) a with hc | ⟨y, hy, hc⟩
    · cases (hc.symm.trans hl).trans hx
    · cases (hc.symm.trans hl).trans hx
      exact hy
  have hlink : ∀ j x, x ∈ Q j → (Link.cell x : Link ι τ) ≠ .cell t := by
    intro j x hx hc
    cases hc
    exact hout j hx
  have hlt : l ≠ .cell t := fun hc => hout i (hina t (hlcell t hc))
  -- the cells whose links do not change
  have hkeep : ∀ j x, x ∈ Q j → (∀ n ∈ b.head?, x ≠ n) →
      Function.update (match b.head? with
            | none => s.last
            | some n => Function.update s.last n (some (.cell t))) t (some l) x = s.last x ∧
      ∀ l', s.last x = some l' →
        Function.update (Function.update s.next (.cell t) b.head?) l (some t) l' = s.next l' := by
    intro j x hx hxn
    have hxt : x ≠ t := fun hc => hout j (hc ▸ hx)
    constructor
    · rw [Function.update_of_ne hxt]
      cases hb : b.head? with
      | none => rfl
      | some n => exact Function.update_of_ne (hxn n (by rw [hb]; rfl)) _ _
    · intro l' hl'
      obtain ⟨l'', hl'', hn'', hwhere⟩ := (h.seg j).mem hx
      rw [hl'] at hl''
      cases hl''
      have hne : l' ≠ l := by
        rintro rfl
        exact hxn x (by rw [← hnext, hn'']; rfl) rfl
      have hne' : l' ≠ .cell t := by
        rintro rfl
        rcases hwhere with hc | ⟨y, hy, hc⟩
        · cases hc
        · cases hc
          exact hout j hy
      rw [Function.update_of_ne hne, Function.update_of_ne hne']
  have hseg := h.seg i
  rw [hQ] at hseg
  obtain ⟨hsega, hsegb⟩ := Seg.append.mp hseg
  refine ⟨fun j => ?_, fun j => ?_, fun j => ?_, fun j k x hj hk => ?_, fun x hx => ?_⟩
  · by_cases hj : j = i
    · subst hj
      rw [Function.update_self, Seg.append, hl]
      refine ⟨hsega.frame fun x hx => hkeep j x (hina x hx) fun n hn hc => ?_,
        Function.update_self _ _ _, Function.update_self _ _ _, ?_⟩
      · exact hdisj hx (hc ▸ hfirst n hn)
      · cases b with
        | nil => exact trivial
        | cons n b =>
          obtain ⟨-, -, hsegb⟩ := hsegb
          obtain ⟨hnb, -⟩ := List.nodup_cons.mp hndb
          have hnt : n ≠ t := by
            rintro rfl
            exact hout j (hinb n List.mem_cons_self)
          refine ⟨?_, ?_, hsegb.frame fun x hx => ?_⟩
          · simp only
            rw [Function.update_of_ne hlt.symm, Function.update_self]
            rfl
          · simp only [List.head?_cons]
            rw [Function.update_of_ne hnt, Function.update_self]
          · exact hkeep j x (hinb x (List.mem_cons_of_mem n hx)) fun m hm hc => by
              cases hm
              exact hnb (hc ▸ hx)
    · rw [Function.update_of_ne hj]
      exact (h.seg j).frame fun x hx => hkeep j x hx fun n hn hc =>
        hj (h.apart j i x hx (hinb x (hc ▸ hfirst n hn)))
  · by_cases hj : j = i
    · subst hj
      rw [Function.update_self, endLink_append, hl, endLink]
      cases b with
      | nil =>
        simp only [endLink, List.head?_nil]
        rw [Function.update_of_ne hlt.symm, Function.update_self]
      | cons n b =>
        have hstop := h.stop j
        rw [hQ, endLink_append, hl] at hstop
        rw [endLink] at hstop ⊢
        have hne : endLink (.cell n) b ≠ l := by
          intro hc
          rw [hc, hnext] at hstop
          cases hstop
        have hne' : endLink (.cell n : Link ι τ) b ≠ .cell t := by
          rcases endLink_cases (.cell n : Link ι τ) b with hc | ⟨x, hx, hc⟩
          · rw [hc]
            exact hlink j n (hinb n List.mem_cons_self)
          · rw [hc]
            exact hlink j x (hinb x (List.mem_cons_of_mem n hx))
        simp only
        rw [Function.update_of_ne hne, Function.update_of_ne hne']
        exact hstop
    · rw [Function.update_of_ne hj]
      have hstop := h.stop j
      have hne : endLink (.head j) (Q j) ≠ l := by
        rcases endLink_cases (.head j) (Q j) with hc | ⟨x, hx, hc⟩
        · rw [hc]
          rintro hl'
          rcases endLink_cases (.head i) a with hc' | ⟨y, -, hc'⟩
          · cases hl'.trans (hl.symm.trans hc')
            exact hj rfl
          · cases hl'.trans (hl.symm.trans hc')
        · rw [hc]
          exact fun hl' => hj (h.apart j i x hx (hina x (hlcell x hl'.symm)))
      have hne' : endLink (.head j) (Q j) ≠ .cell t := by
        rcases endLink_cases (.head j) (Q j) with hc | ⟨x, hx, hc⟩
        · rw [hc]
          exact fun hc => by cases hc
        · rw [hc]
          exact hlink j x hx
      simp only
      rw [Function.update_of_ne hne, Function.update_of_ne hne']
      exact hstop
  · by_cases hj : j = i
    · subst hj
      rw [Function.update_self, List.nodup_middle, List.nodup_cons, ← hQ]
      exact ⟨hout j, h.nodup j⟩
    · rw [Function.update_of_ne hj]
      exact h.nodup j
  · have hmem : ∀ j, x ∈ Function.update Q i (a ++ t :: b) j → x = t ∧ j = i ∨ x ∈ Q j := by
      intro j hj
      by_cases hji : j = i
      · subst hji
        rw [Function.update_self] at hj
        rcases List.mem_append.mp hj with hxa | hxb
        · exact Or.inr (hina x hxa)
        · rcases List.mem_cons.mp hxb with rfl | hxb
          · exact Or.inl ⟨rfl, rfl⟩
          · exact Or.inr (hinb x hxb)
      · rw [Function.update_of_ne hji] at hj
        exact Or.inr hj
    rcases hmem j hj with ⟨hxt, hji⟩ | hxj <;> rcases hmem k hk with ⟨hxt', hki⟩ | hxk
    · rw [hji, hki]
    · exact absurd (hxt ▸ hxk) (hout k)
    · exact absurd (hxt' ▸ hxj) (hout j)
    · exact h.apart j k x hxj hxk
  · have hxt : x ≠ t := by
      rintro rfl
      refine hx i ?_
      rw [Function.update_self]
      exact List.mem_append_right a List.mem_cons_self
    have hxQ : ∀ j, x ∉ Q j := by
      intro j hc
      refine hx j ?_
      by_cases hj : j = i
      · subst hj
        rw [Function.update_self]
        rw [hQ, List.mem_append] at hc
        exact List.mem_append.mpr (hc.imp_right (List.mem_cons_of_mem t))
      · rw [Function.update_of_ne hj]
        exact hc
    have hlx := h.out x hxQ
    simp only
    rw [Function.update_of_ne hxt]
    cases hb : b.head? with
    | none => exact hlx
    | some n =>
      have hne : x ≠ n := by
        rintro rfl
        exact hxQ i (hinb x (hfirst x (by rw [hb]; rfl)))
      exact (Function.update_of_ne hne _ _).trans hlx

/-- **A cell is put** at the head of a queue. -/
theorem Queues.push (h : Queues s Q) (i : ι) (hout : ∀ j, t ∉ Q j) :
    Queues (s.push i t) (Function.update Q i (t :: Q i)) :=
  h.insert (a := []) (b := Q i) rfl rfl hout

end CohKernel.Lib
