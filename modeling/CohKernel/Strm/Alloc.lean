import CohKernel.Strm.Put
import CohKernel.Lib.Runs

namespace CohKernel.Strm

open CohKernel.Lib

/-!
# Memory for bands

The look-ups of bands with the allocations that they lead to, and `QBAND_FREE`, which finds the
blocks by the flag `QB_FIRST` of their first bands.

* `Queue.qbandAlloc_keeps` — an allocation stores neither the bands nor their number in the queue;
* `exact_iff_refused` — so the queue has its bands, and gives their memory back, only if none is
  ever granted.
-/

variable {μ : Type}

/-- A queue with the flags `QB_FIRST` of its bands, and the blocks that `kmem_zalloc` has returned:
    their first bands and how many there are. -/
structure Bandmem (μ : Type) where
  q : Queue μ
  qbFirst : ℕ → Bool
  blocks : List (ℕ × ℕ)

/-- A call that looks up a band, and allocates it where there is none. -/
structure Lookup where
  pri : UInt8
  alloc : Bool

/-- The loop of `QBAND_FREE`: the blocks that are freed, with their sizes in bands. -/
def freeBands (s : Bandmem μ) : ℕ → Option ℕ → ℕ → Option ℕ → List (ℕ × ℕ)
  | 0, _, _, _ => []
  | fuel + 1, prev, nbands, some scan =>
      let next := (s.q.band scan).qbNext
      if s.qbFirst scan then
        -- the first band of all ends a block of no bands
        (prev.getD 0, nbands) :: freeBands s fuel (some scan) 1 next
      else freeBands s fuel prev (nbands + 1) next
  | _ + 1, prev, nbands, none => if nbands > 0 then [(prev.getD 0, nbands)] else []

/-- `QBAND_FREE` -/
def Bandmem.qbandFree (s : Bandmem μ) : List (ℕ × ℕ) :=
  freeBands s (s.q.bands + 1) s.q.qBandp 0 s.q.qBandp

/-- `QUEUE_BAND`, and `QBAND_ALLOC` where there is no such band; the bands above zero have
    structures. -/
def Bandmem.step (s : Bandmem μ) (c : Lookup) : Option (Bandmem μ) :=
  if c.pri = 0 then none
  else
    match s.q.queueBand c.pri with
    | some _ => some s
    | none =>
      match s.q.qbandAlloc c.pri c.alloc with
      | .error _ => none
      | .ok (q, none) => some { s with q := q }
      | .ok (q, some _) => some {
          q := q
          qbFirst := Function.update s.qbFirst s.q.bands true
          blocks := s.blocks ++ [(s.q.bands, q.bands - s.q.bands)] }

/-! ### What is claimed -/

/-- The queue has the bands up to `pri`, of which `r` is the last; those that it had are still
    there, with what was in them. -/
structure Recorded (q q' : Queue μ) (pri : UInt8) (r : ℕ) : Prop where
  nband : q'.qNband = pri
  last : q'.queueBand pri = some r
  each : ∀ i, 0 < i → i ≤ pri → (q'.queueBand i).isSome
  distinct : ∀ i j, 0 < i → i ≤ pri → 0 < j → j ≤ pri → q'.queueBand i = q'.queueBand j → i = j
  above : ∀ i, pri < i → q'.queueBand i = none
  kept : ∀ i b, 0 < i → q.queueBand i = some b → q'.queueBand i = some b ∧
    { q'.band b with qbNext := none } = { q.band b with qbNext := none }

/-- A call that allocates leaves the queue with its bands. -/
def Bandmem.Exact (s : Bandmem μ) (c : Lookup) : Prop :=
  s.q.queueBand c.pri = none → ∀ q r, s.q.qbandAlloc c.pri c.alloc = .ok (q, some r) →
    Recorded s.q q c.pri r

/-- Each block is freed once, with its size. -/
def Bandmem.Released (s : Bandmem μ) : Prop := s.qbandFree.Perm s.blocks

/-- What is claimed of a sequence of calls. -/
def ExactRun (s : Bandmem μ) (calls : List Lookup) : Prop :=
  (∀ l₁ c l₂ t, calls = l₁ ++ c :: l₂ → runFrom Bandmem.step s l₁ = some t → t.Exact c) ∧
    ∀ t, runFrom Bandmem.step s calls = some t → t.Released

/-- A new queue. -/
def Bandmem.New (s : Bandmem μ) : Prop := s.q.Bandless ∧ s.blocks = []

/-! ### What is so -/

/-- **No band is stored.** `QBAND_ALLOC` leaves `q_bandp` and `q_nband` as they are. -/
theorem Queue.qbandAlloc_keeps {q q' : Queue μ} {pri : UInt8} {alloc : Bool} {r : Option ℕ}
    (h : q.qbandAlloc pri alloc = .ok (q', r)) : q'.qBandp = q.qBandp ∧ q'.qNband = q.qNband := by
  unfold Queue.qbandAlloc at h
  dsimp only at h
  split_ifs at h with hnone h0
  · cases h
    exact ⟨rfl, rfl⟩
  · cases h
    exact ⟨rfl, rfl⟩
  · cases hq : q.queueBand q.qNband with
    | none =>
      rw [hq] at h
      cases h
    | some b =>
      rw [hq] at h
      cases h
      exact ⟨rfl, rfl⟩

/-- An allocation for a new queue is granted, or not. -/
theorem Queue.qbandAlloc_granted {q : Queue μ} (h : q.Bandless) {pri : UInt8} (hpri : pri ≠ 0)
    (alloc : Bool) : ∃ q' r, q.qbandAlloc pri alloc = .ok (q', r) ∧ r.isSome = alloc := by
  have hpos : 0 < pri := UInt8.pos_iff_ne_zero.mpr hpri
  obtain ⟨q', r, hget, -, hsome, -⟩ := Queue.getBand_bandless h pri alloc
  refine ⟨q', r, ?_, ?_⟩
  · rw [Queue.getBand, Queue.queueBand_none h.bandp] at hget
    exact hget
  · rw [hsome, decide_eq_true hpos, Bool.and_true]

variable {s t : Bandmem μ} {c : Lookup} {calls : List Lookup}

/-- One call for a queue that has stored no bands. -/
theorem step_bandless (h : s.q.Bandless) (hstep : s.step c = some t) :
    c.pri ≠ 0 ∧ t.q.Bandless ∧ (c.alloc = false → t.blocks = s.blocks) := by
  obtain ⟨hpri, hstep⟩ := Option.ite_none_left_eq_some.mp hstep
  obtain ⟨q', r, halloc, hsome⟩ := Queue.qbandAlloc_granted h hpri c.alloc
  obtain ⟨hbandp, hnband⟩ := Queue.qbandAlloc_keeps halloc
  have hq' : q'.Bandless := ⟨hbandp.trans h.bandp, hnband.trans h.nband⟩
  rw [Queue.queueBand_none h.bandp] at hstep
  simp only [halloc] at hstep
  refine ⟨hpri, ?_⟩
  cases r with
  | none =>
    cases hstep
    exact ⟨hq', fun _ => rfl⟩
  | some r =>
    cases hstep
    refine ⟨hq', fun hrefused => ?_⟩
    rw [hrefused] at hsome
    cases hsome

theorem run_bandless (h : s.q.Bandless) (hrun : runFrom Bandmem.step s calls = some t) :
    t.q.Bandless :=
  runFrom_invariant (fun _ _ _ _ hq hstep => (step_bandless hq hstep).2.1) h hrun

/-- Without an allocation there is no block. -/
theorem run_blocks (h : s.New) (hrun : runFrom Bandmem.step s calls = some t)
    (hrefused : ∀ c ∈ calls, c.alloc = false) : t.New :=
  runFrom_invariant (fun c hc _ _ hs hstep =>
    ⟨(step_bandless hs.1 hstep).2.1,
      ((step_bandless hs.1 hstep).2.2 (hrefused c hc)).trans hs.2⟩) h hrun

theorem run_append {l₁ l₂ : List Lookup} (h : (runFrom Bandmem.step s (l₁ ++ l₂)).isSome) :
    ∃ t, runFrom Bandmem.step s l₁ = some t ∧ (runFrom Bandmem.step t l₂).isSome := by
  induction l₁ generalizing s with
  | nil => exact ⟨s, rfl, h⟩
  | cons c l₁ ih =>
    obtain ⟨u, hu⟩ := Option.isSome_iff_exists.mp h
    obtain ⟨v, hv, hrest⟩ := Option.bind_eq_some_iff.mp hu
    obtain ⟨t, ht, hl₂⟩ := ih (Option.isSome_iff_exists.mpr ⟨u, hrest⟩)
    exact ⟨t, Option.bind_eq_some_iff.mpr ⟨v, hv, ht⟩, hl₂⟩

/-- **Bands are never had.** Sequences of look-ups and allocations on a new queue leave what is
    claimed if and only if none of them is granted memory. -/
theorem exact_iff_refused (s : Bandmem μ) (hnew : s.New) (calls : List Lookup)
    (hrun : (runFrom Bandmem.step s calls).isSome) :
    ExactRun s calls ↔ ∀ c ∈ calls, c.alloc = false := by
  constructor
  · rintro ⟨hexact, -⟩ c hc
    by_contra halloc
    rw [Bool.not_eq_false] at halloc
    obtain ⟨l₁, l₂, rfl⟩ := List.append_of_mem hc
    obtain ⟨t, ht, hstep⟩ := run_append hrun
    have hbandless := run_bandless hnew.1 ht
    obtain ⟨u, hu⟩ := Option.isSome_iff_exists.mp hstep
    obtain ⟨v, hv, -⟩ := Option.bind_eq_some_iff.mp hu
    have hpri := (step_bandless hbandless hv).1
    obtain ⟨q', r, hq', hsome⟩ := Queue.qbandAlloc_granted hbandless hpri c.alloc
    rw [halloc] at hsome
    obtain ⟨r, rfl⟩ := Option.isSome_iff_exists.mp hsome
    have hrec := hexact l₁ c l₂ t rfl ht (Queue.queueBand_none hbandless.bandp) q' r hq'
    -- the number of bands is still zero
    exact hpri (hrec.nband.symm.trans ((Queue.qbandAlloc_keeps hq').2.trans hbandless.nband))
  · intro hrefused
    refine ⟨fun l₁ c l₂ t hcalls ht _ q' r hq' => ?_, fun t ht => ?_⟩
    · have hbandless := run_bandless hnew.1 ht
      have hc := hrefused c (hcalls ▸ by simp)
      unfold Queue.qbandAlloc at hq'
      rw [hc] at hq'
      cases hq'
    · obtain ⟨hbandless, hblocks⟩ := run_blocks hnew ht hrefused
      unfold Bandmem.Released Bandmem.qbandFree
      rw [hbandless.bandp, hblocks]
      rfl

/-- A queue as it is made. -/
def newQueue : Bandmem ℕ where
  q := { link := Deque.empty, msg := fun _ => ⟨0, 0, []⟩, qiSrvp := true, qCount := 0
         qHiwat := 0, qLowat := 0, qMinpsz := 0, qMaxpsz := 0, qenab := false, qwantr := false
         qwantw := false, qfull := false, qnoenb := false, qback := false, qprocsoff := false
         qdrain := false, qLastband := 0, qBandp := none, qNband := 0
         band := fun _ => Qband.zero ℕ none, bands := 0, qLocked := false }
  qbFirst := fun _ => false
  blocks := []

theorem newQueue_new : newQueue.New := ⟨⟨rfl, rfl⟩, rfl⟩

/-- A look-up that finds no memory. -/
theorem exact_iff_refused_once : ExactRun newQueue [⟨3, false⟩] :=
  (exact_iff_refused newQueue newQueue_new [⟨3, false⟩] rfl).mpr fun c hc => by
    rw [List.mem_singleton.mp hc]

/-- The first band that is allocated is not recorded, and its memory is not freed. -/
theorem granted_lost : ¬ ∀ calls : List Lookup, (runFrom Bandmem.step newQueue calls).isSome →
    ExactRun newQueue calls := by
  intro hall
  have hexact := (hall [⟨1, true⟩] rfl).1 [] ⟨1, true⟩ [] newQueue rfl rfl rfl _ 0 rfl
  exact absurd hexact.nband (by decide)

end CohKernel.Strm
