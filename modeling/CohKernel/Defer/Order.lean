import CohKernel.Defer.Defs

namespace CohKernel.Defer

open CohKernel.Lib

/-!
# The order of deferred functions

* `Inv.step` — the ring of `defer.c`, while `defend` is not called by a function that it has called;
* `Ring.Inv.step` — the ring of the library;
* `rings_sound` — what both do in all their runs;
* `count_with_running` — the count while a function runs.
-/

variable {F : Type} {s s' : State F} {r r' : Ring F} {pending : List F}

/-! ### The ring of `defer.c` -/

/-- One if a function has been called and is still in the ring. -/
def State.running (s : State F) : ℕ :=
  match s.stack with
  | .calling :: _ | .advanced :: _ => 1
  | _ => 0

/-- The index of the first function that has not been called. -/
def State.first (s : State F) : ℕ :=
  match s.stack with
  | .calling :: _ => (s.defqox + 1) % DEFLIM
  | _ => s.defqox

/-- `defend` is not called by a function that it has called. -/
def Ok (s : State F) : Event F → Prop
  | .defend => s.stack = []
  | _ => True

/-- The functions that have not been called are in the ring, in the order in which they have been
    accepted. -/
structure Holds (s : State F) (pending : List F) : Prop where
  accepted : s.accepted = s.started ++ pending
  queued : Queued s.defunc DEFLIM s.first s.defqix s.running pending
  count : s.defcnt = (pending.length + s.running : ℕ)
  single : s.stack.length ≤ 1
  index : s.defqox < DEFLIM

theorem next_eq {index max : ℕ} (h : index < max) : next index max = (index + 1) % max := by
  unfold next
  split
  · have : index + 1 = max := by omega
    rw [this, Nat.mod_self]
  · rw [Nat.mod_eq_of_lt (by omega)]

/-- **`defer0`** accepts a function when there is room. -/
theorem Holds.defer0 (h : Holds s pending) (f : F) :
    s.defer0 f = s ∧ pending.length + s.running = DEFLIM ∨
      pending.length + s.running < DEFLIM ∧ (s.defer0 f).accepted = s.accepted ++ [f] ∧
        Holds (s.defer0 f) (pending ++ [f]) := by
  have hroom := h.queued.room
  have hcount := h.count
  unfold State.defer0
  by_cases hlt : s.defcnt < DEFLIM
  · have hfits : pending.length + s.running < DEFLIM := by omega
    rw [if_pos hlt]
    refine Or.inr ⟨hfits, rfl, ?_, ?_, ?_, h.single, h.index⟩
    · show s.accepted ++ [f] = s.started ++ (pending ++ [f])
      rw [h.accepted, List.append_assoc]
    · have hix : s.defqix < DEFLIM := by
        rw [h.queued.tail_eq]
        exact Nat.mod_lt _ (by decide)
      have hpush := h.queued.push (x := f) hfits
      rw [← next_eq hix] at hpush
      exact hpush
    · show s.defcnt + 1 = _
      rw [hcount, List.length_append, List.length_singleton]
      show ((pending.length + s.running : ℕ) : ℤ) + 1 = ((pending.length + 1 + s.running : ℕ) : ℤ)
      omega
  · rw [if_neg hlt]
    exact Or.inl ⟨rfl, by omega⟩

/-- **`defend` goes on**: it calls the first of the functions, takes it out of the ring, or returns,
    when there is none. -/
theorem Holds.go (h : Holds s pending) (hs : s.go = some s') :
    s'.accepted = s.accepted ∧ (s'.stack = [] → s'.started = s'.accepted) ∧
      ((∃ f rest, pending = f :: rest ∧ s'.started = s.started ++ [f] ∧ Holds s' rest) ∨
        s'.started = s.started ∧ Holds s' pending) := by
  have hsingle := h.single
  have hcount := h.count
  have hq := h.queued
  unfold State.go at hs
  cases hstack : s.stack with
  | nil => simp [hstack] at hs
  | cons frame frames =>
    obtain rfl : frames = [] := by
      rw [hstack, List.length_cons] at hsingle
      exact List.length_eq_zero_iff.mp (by omega)
    cases frame with
    | test =>
      have hfirst : s.first = s.defqox := by
        unfold State.first
        rw [hstack]
      have hrunning : s.running = 0 := by
        unfold State.running
        rw [hstack]
      rw [hfirst, hrunning] at hq
      simp only [hstack] at hs
      by_cases hzero : s.defcnt = 0
      · rw [if_neg (by omega), Option.some.injEq] at hs
        subst hs
        have hnil : pending = [] := List.length_eq_zero_iff.mp (by omega)
        refine ⟨rfl, fun _ => ?_, Or.inr ⟨rfl, h.accepted, hq, ?_, Nat.zero_le 1, h.index⟩⟩
        · show s.started = s.accepted
          rw [h.accepted, hnil, List.append_nil]
        show s.defcnt = _
        rw [hcount, hrunning]
        rfl
      · rw [if_pos hzero, Option.some.injEq] at hs
        subst hs
        obtain ⟨f, rest, rfl⟩ : ∃ f rest, pending = f :: rest :=
          List.exists_cons_of_ne_nil fun hnil => hzero (by rw [hcount, hrunning, hnil]; rfl)
        obtain ⟨hf, hrest⟩ := hq.pop
        refine ⟨rfl, fun hc => ?_,
          Or.inl ⟨f, rest, rfl, by rw [hf], ?_, hrest, ?_, le_rfl, h.index⟩⟩
        · cases hc
        · show s.accepted = (s.started ++ [s.defunc s.defqox]) ++ rest
          rw [h.accepted, hf, List.append_assoc, List.singleton_append]
        · show s.defcnt = ((rest.length + 1 : ℕ) : ℤ)
          rw [hcount, hrunning, List.length_cons, Nat.add_zero]
    | calling =>
      have hfirst : s.first = (s.defqox + 1) % DEFLIM := by
        unfold State.first
        rw [hstack]
      have hrunning : s.running = 1 := by
        unfold State.running
        rw [hstack]
      rw [hfirst, hrunning] at hq
      simp only [hstack, Option.some.injEq] at hs
      subst hs
      refine ⟨rfl, fun hc => ?_, Or.inr ⟨rfl, h.accepted, ?_, ?_, le_rfl, ?_⟩⟩
      · cases hc
      · show Queued s.defunc DEFLIM (next s.defqox DEFLIM) s.defqix 1 pending
        rw [next_eq h.index]
        exact hq
      · show s.defcnt = ((pending.length + 1 : ℕ) : ℤ)
        rw [hcount, hrunning]
      · show next s.defqox DEFLIM < DEFLIM
        rw [next_eq h.index]
        exact Nat.mod_lt _ (by decide)
    | advanced =>
      have hfirst : s.first = s.defqox := by
        unfold State.first
        rw [hstack]
      have hrunning : s.running = 1 := by
        unfold State.running
        rw [hstack]
      rw [hfirst, hrunning] at hq
      simp only [hstack, Option.some.injEq] at hs
      subst hs
      refine ⟨rfl, fun hc => ?_, Or.inr ⟨rfl, h.accepted, hq.release, ?_, le_rfl, h.index⟩⟩
      · cases hc
      · show s.defcnt - 1 = ((pending.length + 0 : ℕ) : ℤ)
        rw [hcount, hrunning]
        omega

/-- While `defend` is not called by a function that it has called. -/
def Inv (s : State F) : Prop := ∃ pending, Holds s pending

theorem Inv.initial (h : Initial s) : Inv s := by
  obtain ⟨hqix, hqox, hcnt, hstack, haccepted, hstarted⟩ := h
  have hrunning : s.running = 0 := by
    unfold State.running
    rw [hstack]
  refine ⟨[], ⟨by rw [haccepted, hstarted, List.append_nil], ?_, by rw [hcnt, hrunning]; rfl,
    by rw [hstack]; exact Nat.zero_le 1, by rw [hqox]; decide⟩⟩
  have hfirst : s.first = 0 := by
    unfold State.first
    rw [hstack]
    exact hqox
  rw [hfirst, hrunning, hqix]
  exact ⟨by decide, rfl, Nat.zero_le DEFLIM, rfl⟩

theorem Inv.step {e : Event F} (h : Inv s) (hok : Ok s e) (hs : step s e = some s') : Inv s' := by
  obtain ⟨pending, h⟩ := h
  cases e with
  | defer f =>
    cases hs
    obtain ⟨heq, -⟩ | ⟨-, -, hafter⟩ := h.defer0 f
    · exact ⟨pending, heq.symm ▸ h⟩
    · exact ⟨pending ++ [f], hafter⟩
  | defend =>
    have hstack : s.stack = [] := hok
    obtain ⟨-, hs⟩ := Option.ite_none_right_eq_some.mp hs
    obtain rfl := Option.some.inj hs
    have hq := h.queued
    have hcount := h.count
    unfold State.first State.running at hq
    unfold State.running at hcount
    rw [hstack] at hq hcount ⊢
    exact ⟨pending, ⟨h.accepted, hq, hcount, le_rfl, h.index⟩⟩
  | go =>
    obtain ⟨-, -, ⟨f, rest, -, -, hafter⟩ | ⟨-, hafter⟩⟩ := h.go hs
    · exact ⟨rest, hafter⟩
    · exact ⟨pending, hafter⟩

/-! ### The ring of the library -/

/-- One if a function has been called and is still in the ring. -/
def Ring.running (r : Ring F) : ℕ :=
  match r.pc with
  | .calling _ | .returned _ => 1
  | _ => 0

/-- The functions that have not been called are in the ring, in the order in which they have been
    accepted.  One entry is never used. -/
structure Ring.Holds (r : Ring F) (pending : List F) : Prop where
  accepted : r.accepted = r.started ++ pending
  queued : Queued r.dfTab r.dfMax ((r.dfRead + r.running) % r.dfMax) r.dfWrite (r.running + 1)
    pending
  lock : r.dfRlock = true ↔ r.pc ≠ .idle
  calling : ∀ idx, r.pc = .calling idx → idx = r.dfRead
  returned : ∀ idx, r.pc = .returned idx → idx = (r.dfRead + 1) % r.dfMax
  index : r.dfRead < r.dfMax

theorem Ring.wrap_eq {idx : ℕ} (h : idx < r.dfMax) : r.wrap idx = (idx + 1) % r.dfMax := by
  unfold wrap
  split
  case isTrue heq => rw [heq, Nat.mod_self]
  case isFalse hne => rw [Nat.mod_eq_of_lt (by omega)]

/-- A round is made by all the steps. -/
theorem add_mod_eq_self {head k N : ℕ} (hhead : head < N) (hpos : 0 < k) (hk : k ≤ N) :
    (head + k) % N = head ↔ k = N := by
  rcases wrap_cases hhead hk with ⟨hlt, heq⟩ | ⟨hge, heq⟩ <;> rw [heq] <;> omega

/-- **`DEFER`** accepts a function when there is room; the entry it writes is not used otherwise. -/
theorem Ring.Holds.defer (h : r.Holds pending) (f : F) :
    (r.defer f).accepted = r.accepted ∧ pending.length + r.running + 1 = r.dfMax ∧
        (r.defer f).Holds pending ∨
      pending.length + r.running + 1 < r.dfMax ∧ (r.defer f).accepted = r.accepted ++ [f] ∧
        (r.defer f).Holds (pending ++ [f]) := by
  have hq := h.queued
  have hroom := hq.room
  have hindex := h.index
  have hwrite : r.dfWrite < r.dfMax := by
    rw [hq.tail_eq]
    exact Nat.mod_lt _ (by omega)
  have hnext : r.wrap r.dfWrite = (r.dfRead + (r.running + pending.length + 1)) % r.dfMax := by
    rw [wrap_eq hwrite, hq.tail_eq, Nat.mod_add_mod, Nat.add_assoc, Nat.mod_add_mod]
    congr 1
    omega
  have hfull := add_mod_eq_self (k := r.running + pending.length + 1) h.index (by omega) (by omega)
  rw [← hnext] at hfull
  unfold Ring.defer
  by_cases hne : r.wrap r.dfWrite ≠ r.dfRead
  · have hfits : r.running + pending.length + 1 ≠ r.dfMax := fun hc => hne (hfull.mpr hc)
    refine Or.inr ⟨by omega, ?_⟩
    have hpush := hq.push (x := f) (by omega)
    rw [← wrap_eq hwrite] at hpush
    simp only [Ring.wrap] at hne hpush ⊢
    rw [if_pos hne]
    refine ⟨rfl, ?_, hpush, h.lock, h.calling, h.returned, h.index⟩
    show r.accepted ++ [f] = r.started ++ (pending ++ [f])
    rw [h.accepted, List.append_assoc]
  · have hfits := hfull.mp (not_not.mp hne)
    refine Or.inl ?_
    simp only [Ring.wrap] at hne ⊢
    rw [if_neg hne]
    exact ⟨rfl, by omega, h.accepted, hq.overwrite (by omega), h.lock, h.calling, h.returned,
      h.index⟩

/-- **`__RUN_INT_DEFER` goes on**: it calls the first of the functions, stores the index, or
    returns, when there is none. -/
theorem Ring.Holds.go (h : r.Holds pending) (hs : r.go = some r') :
    r'.accepted = r.accepted ∧ (r'.pc = .idle → r'.started = r'.accepted) ∧
      ((∃ f rest, pending = f :: rest ∧ r'.started = r.started ++ [f] ∧ r'.Holds rest) ∨
        r'.started = r.started ∧ r'.Holds pending) := by
  have hq := h.queued
  have hindex := h.index
  unfold Ring.go at hs
  cases hpc : r.pc with
  | idle => simp [hpc] at hs
  | test =>
    have hrunning : r.running = 0 := by
      unfold Ring.running
      rw [hpc]
    rw [hrunning, Nat.add_zero, Nat.mod_eq_of_lt h.index] at hq
    have htail := hq.tail_eq
    simp only [hpc] at hs
    by_cases hempty : r.dfRead = r.dfWrite
    · have hnil : pending = [] := by
        by_contra hne
        have hpos := List.length_pos_iff.mpr hne
        have hround := (add_mod_eq_self h.index hpos (by have := hq.room; omega)).mp
          (htail ▸ hempty.symm)
        have := hq.room
        omega
      rw [if_neg (not_not.mpr hempty), Option.some.injEq] at hs
      subst hs
      refine ⟨rfl, fun _ => ?_, Or.inr ⟨rfl, h.accepted, ?_, ?_, ?_, ?_, h.index⟩⟩
      · show r.started = r.accepted
        rw [h.accepted, hnil, List.append_nil]
      · show Queued r.dfTab r.dfMax ((r.dfRead + 0) % r.dfMax) r.dfWrite 1 pending
        rw [Nat.add_zero, Nat.mod_eq_of_lt h.index]
        exact hq
      · simp
      · simp
      · simp
    · rw [if_pos hempty, Option.some.injEq] at hs
      subst hs
      obtain ⟨f, rest, rfl⟩ : ∃ f rest, pending = f :: rest := by
        refine List.exists_cons_of_ne_nil fun hnil => hempty ?_
        rw [htail, hnil, List.length_nil, Nat.add_zero, Nat.mod_eq_of_lt h.index]
      obtain ⟨hf, hrest⟩ := hq.pop
      refine ⟨rfl, fun hc => ?_, Or.inl ⟨f, rest, rfl, by rw [hf], ?_, hrest, ?_, ?_, ?_, h.index⟩⟩
      · cases hc
      · show r.accepted = (r.started ++ [r.dfTab r.dfRead]) ++ rest
        rw [h.accepted, hf, List.append_assoc, List.singleton_append]
      · simpa [hpc] using h.lock
      · simp
      · simp
  | calling idx =>
    have hrunning : r.running = 1 := by
      unfold Ring.running
      rw [hpc]
    have hidx := h.calling idx hpc
    rw [hrunning] at hq
    simp only [hpc, Option.some.injEq] at hs
    subst hs
    refine ⟨rfl, fun hc => ?_, Or.inr ⟨rfl, h.accepted, hq, ?_, ?_, ?_, h.index⟩⟩
    · cases hc
    · simpa [hpc] using h.lock
    · simp
    · rintro idx' hidx'
      cases hidx'
      rw [hidx]
      exact wrap_eq h.index
  | returned idx =>
    have hrunning : r.running = 1 := by
      unfold Ring.running
      rw [hpc]
    have hidx := h.returned idx hpc
    rw [hrunning, ← hidx] at hq
    have hlt : idx < r.dfMax := hq.head_lt
    simp only [hpc, Option.some.injEq] at hs
    subst hs
    refine ⟨rfl, fun hc => ?_, Or.inr ⟨rfl, h.accepted, ?_, ?_, ?_, ?_, hlt⟩⟩
    · cases hc
    · show Queued r.dfTab r.dfMax ((idx + 0) % r.dfMax) r.dfWrite 1 pending
      rw [Nat.add_zero, Nat.mod_eq_of_lt hlt]
      exact hq.release
    · simpa [hpc] using h.lock
    · simp
    · simp

/-- In every run. -/
def Ring.Inv (r : Ring F) : Prop := ∃ pending, r.Holds pending

theorem Ring.Inv.initial (h : r.Initial) : r.Inv := by
  obtain ⟨hpos, -, hread, hwrite, hlock, hpc, haccepted, hstarted⟩ := h
  have hrunning : r.running = 0 := by
    unfold Ring.running
    rw [hpc]
  refine ⟨[], ⟨by rw [haccepted, hstarted, List.append_nil], ?_, by simp [hlock, hpc],
    by simp [hpc], by simp [hpc], by rw [hread]; exact hpos⟩⟩
  rw [hrunning, hread, hwrite]
  exact ⟨Nat.mod_lt _ hpos, by simp, hpos, rfl⟩

theorem Ring.Inv.step {e : Event F} (h : r.Inv) (hs : r.step e = some r') : r'.Inv := by
  obtain ⟨pending, h⟩ := h
  cases e with
  | defer f =>
    cases hs
    obtain ⟨-, -, hafter⟩ | ⟨-, -, hafter⟩ := h.defer f
    · exact ⟨pending, hafter⟩
    · exact ⟨pending ++ [f], hafter⟩
  | defend =>
    cases hs
    unfold Ring.run
    split
    case isTrue => exact ⟨pending, h⟩
    case isFalse hlock =>
      have hpc : r.pc = .idle := by
        by_contra hne
        exact hlock (h.lock.mpr hne)
      have hq := h.queued
      unfold Ring.running at hq
      rw [hpc] at hq
      exact ⟨pending, ⟨h.accepted, hq, by simp, by simp, by simp, h.index⟩⟩
  | go =>
    obtain ⟨-, -, ⟨f, rest, -, -, hafter⟩ | ⟨-, hafter⟩⟩ := h.go hs
    · exact ⟨rest, hafter⟩
    · exact ⟨pending, hafter⟩

/-! ### Every function is called -/

/-- The steps that an activation makes without a call that is to come. -/
def State.left (s : State F) : ℕ :=
  match s.stack with
  | [] => 0
  | .test :: _ => 1
  | .advanced :: _ => 2
  | .calling :: _ => 3

/-- As long as it is active, `defend` gets on. -/
theorem State.go_progress (hactive : s.stack ≠ []) (hsingle : s.stack.length ≤ 1) :
    ∃ s', s.go = some s' ∧ s'.left + 3 * s.started.length < s.left + 3 * s'.started.length := by
  obtain ⟨frame, frames, hstack⟩ := List.exists_cons_of_ne_nil hactive
  rw [hstack, List.length_cons] at hsingle
  obtain rfl : frames = [] := List.length_eq_zero_iff.mp (by omega)
  unfold State.go State.left
  rw [hstack]
  cases frame with
  | test =>
    by_cases hzero : s.defcnt = 0
    · exact ⟨_, if_neg (not_not.mpr hzero), by simp⟩
    · exact ⟨_, if_pos hzero, by simp; omega⟩
  | calling => exact ⟨_, rfl, by simp⟩
  | advanced => exact ⟨_, rfl, by simp⟩

/-- Once it is called, `defend` returns, and all functions have been called. -/
theorem Inv.finish (h : Inv s) (hactive : s.stack ≠ []) :
    ∃ n s', runFrom Defer.step s (List.replicate n Event.go) = some s' ∧ s'.stack = [] ∧
      s'.started = s.accepted := by
  have hfinish : ∃ n s', runFrom Defer.step s (List.replicate n Event.go) = some s' ∧
      (Inv s' ∧ s'.accepted = s.accepted ∧ (s'.stack = [] → s'.started = s'.accepted)) ∧
      s'.stack = [] := by
    refine runFrom_finish (fun t => t.left + 3 * (t.accepted.length - t.started.length)) ?_
      ⟨h, rfl, fun hnil => absurd hnil hactive⟩
    rintro t ⟨ht, heq, -⟩ hne
    obtain ⟨pending, hpending⟩ := id ht
    obtain ⟨t', hgo, hless⟩ := State.go_progress hne hpending.single
    obtain ⟨haccepted, hall, hcases⟩ := hpending.go hgo
    have hlen := congrArg List.length hpending.accepted
    rw [List.length_append] at hlen
    refine ⟨t', hgo, ⟨ht.step (e := .go) trivial hgo, haccepted.trans heq, hall⟩, ?_⟩
    rw [haccepted]
    obtain ⟨f, rest, hcons, hstarted, -⟩ | ⟨hstarted, -⟩ := hcases
    · rw [hcons, List.length_cons] at hlen
      rw [hstarted, List.length_append, List.length_singleton] at hless ⊢
      omega
    · rw [hstarted] at hless ⊢
      omega
  obtain ⟨n, s', hrun, ⟨-, haccepted, hall⟩, hnil⟩ := hfinish
  exact ⟨n, s', hrun, hnil, (hall hnil).trans haccepted⟩

/-- The steps that an activation makes without a call that is to come. -/
def Ring.left (r : Ring F) : ℕ :=
  match r.pc with
  | .idle => 0
  | .test => 1
  | .returned _ => 2
  | .calling _ => 3

/-- As long as it is active, `__RUN_INT_DEFER` gets on. -/
theorem Ring.go_progress (hactive : r.pc ≠ .idle) :
    ∃ r', r.go = some r' ∧ r'.left + 3 * r.started.length < r.left + 3 * r'.started.length := by
  unfold Ring.go Ring.left
  cases hpc : r.pc with
  | idle => exact absurd hpc hactive
  | test =>
    by_cases hempty : r.dfRead = r.dfWrite
    · exact ⟨_, if_neg (not_not.mpr hempty), by simp⟩
    · exact ⟨_, if_pos hempty, by simp; omega⟩
  | calling idx => exact ⟨_, rfl, by simp⟩
  | returned idx => exact ⟨_, rfl, by simp⟩

/-- Once it is called, `__RUN_INT_DEFER` returns, and all functions have been called. -/
theorem Ring.Inv.finish (h : r.Inv) (hactive : r.pc ≠ .idle) :
    ∃ n r', runFrom Ring.step r (List.replicate n Event.go) = some r' ∧ r'.pc = .idle ∧
      r'.started = r.accepted := by
  have hfinish : ∃ n r', runFrom Ring.step r (List.replicate n Event.go) = some r' ∧
      (r'.Inv ∧ r'.accepted = r.accepted ∧ (r'.pc = .idle → r'.started = r'.accepted)) ∧
      r'.pc = .idle := by
    refine runFrom_finish (fun t => t.left + 3 * (t.accepted.length - t.started.length)) ?_
      ⟨h, rfl, fun hidle => absurd hidle hactive⟩
    rintro t ⟨ht, heq, -⟩ hne
    obtain ⟨pending, hpending⟩ := id ht
    obtain ⟨t', hgo, hless⟩ := Ring.go_progress hne
    obtain ⟨haccepted, hall, hcases⟩ := hpending.go hgo
    have hlen := congrArg List.length hpending.accepted
    rw [List.length_append] at hlen
    refine ⟨t', hgo, ⟨ht.step (e := .go) hgo, haccepted.trans heq, hall⟩, ?_⟩
    rw [haccepted]
    obtain ⟨f, rest, hcons, hstarted, -⟩ | ⟨hstarted, -⟩ := hcases
    · rw [hcons, List.length_cons] at hlen
      rw [hstarted, List.length_append, List.length_singleton] at hless ⊢
      omega
    · rw [hstarted] at hless ⊢
      omega
  obtain ⟨n, r', hrun, ⟨-, haccepted, hall⟩, hidle⟩ := hfinish
  exact ⟨n, r', hrun, hidle, (hall hidle).trans haccepted⟩

/-! ### Both rings -/

/-- **Deferred functions run once and in order.**  What has been called is the beginning of what has
    been accepted; the rest is in the ring, from the first index on, and the count or the indices
    are of this and of the function that is running.  A function is refused when as many are in the
    ring as it holds, and a call of the runner gets to its return, with nothing left. -/
theorem rings_sound (hs : Reach Initial step Ok s)
    (hr : Reach Ring.Initial Ring.step (fun _ _ => True) r) :
    (∃ pending, s.accepted = s.started ++ pending ∧
      window s.defunc DEFLIM s.first pending.length = pending ∧
      s.defcnt = (pending.length + s.running : ℕ) ∧
      s.defqix = (s.first + pending.length) % DEFLIM ∧
      (∀ f, s.defer0 f = s ∧ pending.length + s.running = DEFLIM ∨
        pending.length + s.running < DEFLIM ∧ (s.defer0 f).accepted = s.accepted ++ [f]) ∧
      (∀ s', s.go = some s' → s'.started = s.started ∨
        ∃ f rest, pending = f :: rest ∧ s'.started = s.started ++ [f]) ∧
      (s.stack ≠ [] → ∃ n s', runFrom step s (List.replicate n Event.go) = some s' ∧
        s'.stack = [] ∧ s'.started = s.accepted)) ∧
    ∃ pending, r.accepted = r.started ++ pending ∧
      window r.dfTab r.dfMax ((r.dfRead + r.running) % r.dfMax) pending.length = pending ∧
      r.dfWrite = (r.dfRead + r.running + pending.length) % r.dfMax ∧
      (∀ f, (r.defer f).accepted = r.accepted ∧ pending.length + r.running + 1 = r.dfMax ∨
        pending.length + r.running + 1 < r.dfMax ∧ (r.defer f).accepted = r.accepted ++ [f]) ∧
      (∀ r', r.go = some r' → r'.started = r.started ∨
        ∃ f rest, pending = f :: rest ∧ r'.started = r.started ++ [f]) ∧
      (r.pc ≠ .idle → ∃ n r', runFrom Ring.step r (List.replicate n Event.go) = some r' ∧
        r'.pc = .idle ∧ r'.started = r.accepted) := by
  have hinv : Inv s := hs.invariant (fun _ => Inv.initial) fun _ _ _ h hok hs => h.step hok hs
  have hring : r.Inv := hr.invariant (fun _ => Ring.Inv.initial) fun _ _ _ h _ hs => h.step hs
  constructor
  · obtain ⟨pending, h⟩ := id hinv
    refine ⟨pending, h.accepted, h.queued.window, h.count, h.queued.tail_eq, fun f => ?_,
      fun s' hgo => ?_, hinv.finish⟩
    · obtain hfull | ⟨hroom, haccepted, -⟩ := h.defer0 f
      · exact Or.inl hfull
      · exact Or.inr ⟨hroom, haccepted⟩
    · obtain ⟨-, -, ⟨f, rest, hcons, hstarted, -⟩ | ⟨hstarted, -⟩⟩ := h.go hgo
      · exact Or.inr ⟨f, rest, hcons, hstarted⟩
      · exact Or.inl hstarted
  · obtain ⟨pending, h⟩ := id hring
    refine ⟨pending, h.accepted, h.queued.window, ?_, fun f => ?_, fun r' hgo => ?_, hring.finish⟩
    · rw [h.queued.tail_eq, Nat.mod_add_mod]
    · obtain ⟨haccepted, hfull, -⟩ | ⟨hroom, haccepted, -⟩ := h.defer f
      · exact Or.inl ⟨haccepted, hfull⟩
      · exact Or.inr ⟨hroom, haccepted⟩
    · obtain ⟨-, -, ⟨f, rest, hcons, hstarted, -⟩ | ⟨hstarted, -⟩⟩ := h.go hgo
      · exact Or.inr ⟨f, rest, hcons, hstarted⟩
      · exact Or.inl hstarted

/-- No function is deferred. -/
def empty : State ℕ := ⟨fun _ => 0, 0, 0, 0, [], [], []⟩

/-- The same, with three entries. -/
def emptyRing : Ring ℕ := ⟨fun _ => 0, 0, 3, 0, false, .idle, [], []⟩

theorem empty_initial : Initial empty := ⟨rfl, rfl, rfl, rfl, rfl, rfl⟩

theorem emptyRing_initial : emptyRing.Initial :=
  ⟨by decide, by decide, rfl, rfl, rfl, rfl, rfl, rfl⟩

/-- A function is running, and another one has been deferred. -/
def busy : State ℕ :=
  ({ empty.defer0 4 with stack := [.calling], started := [4] } : State ℕ).defer0 5

/-- The same. -/
def busyRing : Ring ℕ :=
  ({ emptyRing.defer 4 with dfRlock := true, pc := .calling 0, started := [4] } : Ring ℕ).defer 5

theorem running_reach : Reach Initial step Ok
    ({ empty.defer0 4 with stack := [.calling], started := [4] } : State ℕ) := by
  have hdefend : step (empty.defer0 4) .defend =
      some { empty.defer0 4 with stack := [.test] } := rfl
  have hfirst : Reach Initial step Ok (empty.defer0 4) :=
    (Reach.init empty_initial).step (e := .defer 4) (show True from trivial) rfl
  have hok : Ok (empty.defer0 4) Event.defend := rfl
  exact (hfirst.step hok hdefend).step (e := .go) (show True from trivial) rfl

theorem busy_reach : Reach Initial step Ok busy :=
  running_reach.step (e := .defer 5) (show True from trivial) rfl

theorem busyRing_reach : Reach Ring.Initial Ring.step (fun _ _ => True) busyRing :=
  have hrun : runFrom Ring.step emptyRing [.defer 4, .defend, .go, .defer 5] = some busyRing := rfl
  Reach.run (fun _ _ => trivial) (Reach.init emptyRing_initial) hrun

/-- Both functions of each ring are called. -/
theorem rings_sound_busy :
    (∃ n s', runFrom step busy (List.replicate n Event.go) = some s' ∧ s'.stack = [] ∧
      s'.started = [4, 5]) ∧
    ∃ n r', runFrom Ring.step busyRing (List.replicate n Event.go) = some r' ∧ r'.pc = .idle ∧
      r'.started = [4, 5] := by
  obtain ⟨⟨_, -, -, -, -, -, -, hs⟩, _, -, -, -, -, -, hr⟩ := rings_sound busy_reach busyRing_reach
  exact ⟨hs (List.cons_ne_nil _ _), hr RunPc.noConfusion⟩

/-- **The count while a function runs**: it has been started, and it is still counted. -/
theorem count_with_running : ∃ s : State ℕ, Reach Initial step Ok s ∧ s.accepted = [4] ∧
    s.started = [4] ∧ s.defcnt = 1 :=
  ⟨_, running_reach, rfl, rfl, rfl⟩

end CohKernel.Defer
