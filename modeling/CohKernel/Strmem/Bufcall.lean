import CohKernel.Strmem.Memory

namespace CohKernel.Strmem

open CohKernel.Lib

/-!
# Events that wait for memory

The identifiers of the events of `bufcall` and `esbbcall`, and what becomes of the events, over a
run of calls.

* `bufcall_served` — identifiers and events are right in exactly the runs in which none is stored;
* `first_id_zero` — the identifier of the first event is 0.
-/

/-! ### What is to hold -/

/-- The identifiers that are returned are not 0 and name their list, those of pending events are
    distinct, and the lists are linked from their head to their tail; each event is pending or on
    its way to be called, or has been cancelled or called, once; the cells of those that have been
    cancelled or called are free; an event has been taken off its list when there was room for it;
    and `RUN_BUFCALLS` is due when there is room for a pending event. -/
structure Sys.Served {P β γ σ : Type} [DecidableEq γ] [Fintype γ] (s : Sys P β γ σ) : Prop where
  running : s.halted = none
  ids : ∀ e ∈ s.log.stored, e.id ≠ 0 ∧ toidToPri e.id = e.pri.index
  distinct : (Sys.pending s.mem).Pairwise fun c d => (s.mem.cell c).seId ≠ (s.mem.cell d).seId
  lists : ∀ pri, ∃ cs, Linked (fun c => (s.mem.cell c).seNext) (s.mem.smBcevents pri).slHead cs ∧
    (s.mem.smBcevents pri).slTail = cs.getLast?
  once : (List.range s.log.stored.length).Perm (s.numbers (Sys.pending s.mem) ++
    s.numbers (Sys.running s.mem) ++ s.log.cancelled ++ s.log.called)
  freed : s.log.freed.Perm (s.log.cancelled ++ s.log.called)
  room : ∀ t ∈ s.log.taken, ∃ e, s.log.stored[t.1]? = some e ∧
    t.2.toNat + e.size.toNat ≤ (s.mem.smMax e.pri).toNat
  due : ∀ pri, ∀ c ∈ Sys.chain s.mem (s.mem.smBcevents pri).slHead,
    s.mem.smUsed.toNat + (s.mem.cell c).seSize.toNat ≤ (s.mem.smMax pri).toNat →
      s.mem.runBufcalls = true ∨ s.mem.runner.isSome = true

/-- The call stores an event: `kmem_alloc` has memory for it. -/
def Event.stores {P β γ : Type} : Event P β γ → Bool
  | .bufcall _ _ _ _ cell | .esbbcall _ _ _ cell => cell.isSome
  | _ => false

section Runs

variable {P β γ σ : Type} [DecidableEq P] [DecidableEq β] [DecidableEq γ] [Fintype γ]
variable {s s' : Sys P β γ σ} {h : StHeap β σ} {e : Event P β γ} {es : List (Event P β γ)}

/-! ### Without events -/

/-- The lists of events are empty, with their identifiers as they are in static storage. -/
structure StreamsMem.Vacant (m : StreamsMem P γ σ) : Prop where
  lists : ∀ pri, m.smBcevents pri = ⟨none, none, 0⟩
  runner : ∀ r, m.runner = some r → r = ⟨none, false⟩

/-- No event has been stored. -/
structure Sys.Vacant (s : Sys P β γ σ) : Prop where
  mem : StreamsMem.Vacant s.mem
  halted : s.halted = none
  stored : s.log.stored = []
  gone : s.log.cancelled = [] ∧ s.log.taken = [] ∧ s.log.called = [] ∧ s.log.freed = []

/-- The first event that has been stored has the identifier 0. -/
def Sys.Named (s : Sys P β γ σ) : Prop := ∃ e rest, s.log.stored = e :: rest ∧ e.id = 0

omit [DecidableEq γ] [Fintype γ] in
theorem walk_none (next : γ → Option γ) (fuel : ℕ) : walk next fuel none = [] := by
  cases fuel <;> rfl

omit [DecidableEq P] [DecidableEq β] in
theorem Sys.Vacant.served (hs : s.Vacant) : s.Served := by
  obtain ⟨hcancelled, htaken, hcalled, hfreed⟩ := hs.gone
  have hchain : ∀ pri, Sys.chain s.mem (s.mem.smBcevents pri).slHead = [] := fun pri => by
    rw [hs.mem.lists pri]
    exact walk_none _ _
  have hpending : Sys.pending s.mem = [] := by
    unfold Sys.pending
    simp only [List.flatMap_cons, List.flatMap_nil, hchain, List.append_nil]
  have hrunning : Sys.running s.mem = [] := by
    unfold Sys.running
    cases hr : s.mem.runner with
    | none => rfl
    | some r =>
      rw [hs.mem.runner r hr]
      exact walk_none _ _
  refine ⟨hs.halted, ?_, ?_, fun pri => ⟨[], ?_⟩, ?_, ?_, ?_, ?_⟩
  · rw [hs.stored]
    exact fun e he => absurd he List.not_mem_nil
  · rw [hpending]
    exact List.Pairwise.nil
  · rw [hs.mem.lists pri]
    exact ⟨rfl, rfl⟩
  · rw [hpending, hrunning, hcancelled, hcalled, hs.stored]
    exact List.Perm.refl _
  · rw [hfreed, hcancelled, hcalled]
    exact List.Perm.refl _
  · rw [htaken]
    exact fun t ht => absurd ht List.not_mem_nil
  · intro pri c hc
    rw [hchain pri] at hc
    exact absurd hc List.not_mem_nil

/-! ### Calls that store no event -/

omit [DecidableEq β] [DecidableEq γ] [Fintype γ] in
/-- Memory that is given out leaves the events alone. -/
theorem Vacant.strmemAlloc {m : StreamsMem P γ σ} (hm : StreamsMem.Vacant m) (p : P) (size : UInt32)
    (pri : Pri) (kmSleep : Bool) : StreamsMem.Vacant (m.strmemAlloc h p size pri kmSleep).1 := by
  rcases strmemAlloc_cases m h p size pri kmSleep with
    heq | ⟨b, m', -, htry, heq⟩ | heq
  · rw [heq]
    exact hm
  · obtain ⟨-, htry⟩ := Option.ite_none_right_eq_some.mp htry
    obtain ⟨got, -, hgot⟩ := Option.map_eq_some_iff.mp htry
    cases hgot
    rw [heq]
    exact ⟨hm.lists, hm.runner⟩
  · rw [heq]
    exact ⟨hm.lists, hm.runner⟩

omit [DecidableEq γ] [Fintype γ] [DecidableEq P] [DecidableEq β] in
theorem Vacant.strmemFree {m : StreamsMem P γ σ} (hm : StreamsMem.Vacant m) (b : β)
    (size : UInt32) : StreamsMem.Vacant (m.strmemFree h b size).1 := by
  unfold StreamsMem.strmemFree
  split
  · exact hm
  · exact ⟨hm.lists, hm.runner⟩

omit [DecidableEq P] [DecidableEq β] in
/-- `RUN_BUFCALLS` finds nothing in an empty list. -/
theorem gather_vacant {g : Gathered P γ σ} (hlists : ∀ pri, g.mem.smBcevents pri = ⟨none, none, 0⟩)
    (hgave : g.gaveUp = false) (hrun : g.runlist = none) (pri : Pri) :
    ∃ g', StreamsMem.gather pri g = .ok g' ∧ (∀ pri, g'.mem.smBcevents pri = ⟨none, none, 0⟩) ∧
      g'.gaveUp = false ∧ g'.runlist = none := by
  refine ⟨{ g with mem := g.mem.setList pri { g.mem.smBcevents pri with slTail := none } }, ?_, ?_,
    hgave, hrun⟩
  · unfold StreamsMem.gather StreamsMem.drain
    rw [if_neg (by simp [hgave]), hlists pri]
  · intro pri'
    show Function.update g.mem.smBcevents pri _ pri' = _
    by_cases heq : pri' = pri
    · subst heq
      rw [Function.update_self, hlists]
    · rw [Function.update_of_ne heq, hlists]

omit [DecidableEq P] [DecidableEq β] in
theorem Vacant.runBufcallsStart {m : StreamsMem P γ σ} (hm : StreamsMem.Vacant m) :
    ∃ m', m.runBufcallsStart = .ok m' ∧ StreamsMem.Vacant m' ∧ m'.runner = some ⟨none, false⟩ := by
  obtain ⟨g, hg, hlists, hgave, hrun⟩ := gather_vacant
    (g := ⟨{ m with runBufcalls := false }, m.smUsed, none, false⟩) hm.lists rfl rfl .BPRI_HI
  obtain ⟨g', hg', hlists', hgave', hrun'⟩ := gather_vacant hlists hgave hrun .BPRI_MED
  obtain ⟨g'', hg'', hlists'', hgave'', hrun''⟩ := gather_vacant hlists' hgave' hrun' .BPRI_LO
  refine ⟨{ g''.mem with runner := some ⟨g''.runlist, g''.gaveUp⟩ }, ?_, ⟨hlists'', ?_⟩, ?_⟩
  · unfold StreamsMem.runBufcallsStart
    simp only [bind, Except.bind, hg, hg', hg'']
    rfl
  · intro r hr
    cases hr
    rw [hgave'', hrun'']
  · rw [hgave'', hrun'']

/-- A call that stores no event leaves the lists empty. -/
theorem Sys.Vacant.step (hs : s.Vacant) (he : e.stores = false) (hstep : s.step h e = some s') :
    s'.Vacant := by
  obtain ⟨-, hstep⟩ := Option.ite_none_left_eq_some.mp hstep
  cases e with
  | alloc p size pri kmSleep =>
    obtain ⟨-, hstep⟩ := Option.ite_none_left_eq_some.mp hstep
    cases hstep
    have hmem := Vacant.strmemAlloc (h := h) hs.mem p size pri kmSleep
    unfold Sys.alloc
    dsimp only
    split
    · exact ⟨hmem, hs.halted, hs.stored, hs.gone⟩
    · exact ⟨hmem, hs.halted, hs.stored, hs.gone⟩
  | free b size =>
    obtain ⟨-, hstep⟩ := Option.ite_none_right_eq_some.mp hstep
    cases hstep
    have hmem := Vacant.strmemFree (h := h) hs.mem b size
    unfold Sys.free
    dsimp only
    split
    · exact ⟨hmem, hs.halted, hs.stored, hs.gone⟩
    · exact ⟨hmem, hs.halted, hs.stored, hs.gone⟩
  | bufcall size pri func arg cell =>
    cases cell with
    | none =>
      cases hstep
      exact hs
    | some c => cases he
  | esbbcall pri func arg cell =>
    cases cell with
    | none =>
      cases hstep
      exact hs
    | some c => cases he
  | unbufcall id =>
    obtain ⟨hid, -⟩ := Option.ite_none_right_eq_some.mp hstep
    rw [hs.stored] at hid
    cases hid
  | runBufcalls =>
    obtain ⟨-, hstep⟩ := Option.ite_none_right_eq_some.mp hstep
    cases hstep
    obtain ⟨m, hm, hvacant, hrunner⟩ := Vacant.runBufcallsStart hs.mem
    have hrunning : Sys.running m = [] := by
      unfold Sys.running
      rw [hrunner]
      exact walk_none _ _
    unfold Sys.start
    rw [hm]
    refine ⟨hvacant, hs.halted, hs.stored, hs.gone.1, ?_, hs.gone.2.2⟩
    show s.log.taken ++ (s.numbers (Sys.running m)).map _ = []
    rw [hrunning, hs.gone.2.1]
    rfl
  | runEvent =>
    obtain ⟨r, hr, hnext⟩ := Option.map_eq_some_iff.mp hstep
    rw [hs.mem.runner r hr] at hnext
    cases hnext
    exact ⟨⟨hs.mem.lists, fun r hr => by cases hr⟩, hs.halted, hs.stored, hs.gone⟩

/-! ### The first identifier -/

omit [DecidableEq P] [DecidableEq β] [Fintype γ] in
/-- The first event gets the identifier 0. -/
theorem Sys.Vacant.store (hs : s.Vacant) (size : UInt32) (pri : Pri) (func arg : UInt32) (c : γ) :
    (s.store size pri func arg c).Named := by
  refine ⟨⟨pri, (s.mem.bufcall size pri func arg c).2, msgbSize size⟩, [], ?_, ?_⟩
  · show s.log.stored ++ _ = _
    rw [hs.stored]
    rfl
  · have hid : (s.mem.bufcall size pri func arg c).2 = (s.mem.smBcevents pri).slId := by
      unfold StreamsMem.bufcall StreamsMem.storeEvent
      dsimp only
      split <;> rfl
    show (s.mem.bufcall size pri func arg c).2 = 0
    rw [hid, hs.mem.lists]

omit [DecidableEq P] [DecidableEq β] [DecidableEq γ] [Fintype γ] in
/-- The events that have been stored are recorded for good. -/
theorem Sys.Named.of_prefix (hs : s.Named) (hstored : s.log.stored <+: s'.log.stored) :
    s'.Named := by
  obtain ⟨e, rest, he, hid⟩ := hs
  obtain ⟨more, hmore⟩ := hstored
  exact ⟨e, rest ++ more, by rw [← hmore, he]; rfl, hid⟩

theorem step_stored (hstep : s.step h e = some s') : s.log.stored <+: s'.log.stored := by
  obtain ⟨-, hstep⟩ := Option.ite_none_left_eq_some.mp hstep
  cases e with
  | alloc p size pri kmSleep =>
    obtain ⟨-, hstep⟩ := Option.ite_none_left_eq_some.mp hstep
    cases hstep
    unfold Sys.alloc
    dsimp only
    split <;> exact List.prefix_rfl
  | free b size =>
    obtain ⟨-, hstep⟩ := Option.ite_none_right_eq_some.mp hstep
    cases hstep
    unfold Sys.free
    dsimp only
    split <;> exact List.prefix_rfl
  | bufcall size pri func arg cell =>
    cases cell with
    | none =>
      cases hstep
      exact List.prefix_rfl
    | some c =>
      obtain ⟨-, hstep⟩ := Option.ite_none_left_eq_some.mp hstep
      cases hstep
      exact List.prefix_append _ _
  | esbbcall pri func arg cell =>
    cases cell with
    | none =>
      cases hstep
      exact List.prefix_rfl
    | some c =>
      obtain ⟨-, hstep⟩ := Option.ite_none_left_eq_some.mp hstep
      cases hstep
      exact List.prefix_append _ _
  | unbufcall id =>
    obtain ⟨-, hstep⟩ := Option.ite_none_right_eq_some.mp hstep
    cases hstep
    unfold Sys.cancel
    split <;> exact List.prefix_rfl
  | runBufcalls =>
    obtain ⟨-, hstep⟩ := Option.ite_none_right_eq_some.mp hstep
    cases hstep
    unfold Sys.start
    split <;> exact List.prefix_rfl
  | runEvent =>
    obtain ⟨r, -, hr⟩ := Option.map_eq_some_iff.mp hstep
    subst hr
    unfold Sys.next
    dsimp only
    split <;> exact List.prefix_rfl

/-- A call that stores the first event gives it the identifier 0. -/
theorem Sys.Vacant.names (hs : s.Vacant) (he : e.stores = true) (hstep : s.step h e = some s') :
    s'.Named := by
  obtain ⟨-, hstep⟩ := Option.ite_none_left_eq_some.mp hstep
  cases e with
  | bufcall size pri func arg cell =>
    cases cell with
    | none => cases he
    | some c =>
      obtain ⟨-, hstep⟩ := Option.ite_none_left_eq_some.mp hstep
      cases hstep
      exact hs.store size pri func arg c
  | esbbcall pri func arg cell =>
    cases cell with
    | none => cases he
    | some c =>
      obtain ⟨-, hstep⟩ := Option.ite_none_left_eq_some.mp hstep
      cases hstep
      exact hs.store 0 pri func arg c
  | _ => cases he

/-- Once an event has been stored the first one has the identifier 0. -/
theorem run_named (hs : s.Vacant ∨ s.Named) (hrun : runFrom (Sys.step h) s es = some s')
    (hes : s.Named ∨ ∃ e ∈ es, e.stores = true) : s'.Named := by
  induction es generalizing s with
  | nil =>
    cases hrun
    rcases hes with hnamed | ⟨e, he, -⟩
    · exact hnamed
    · exact absurd he List.not_mem_nil
  | cons e es ih =>
    obtain ⟨t, ht, hrun⟩ := Option.bind_eq_some_iff.mp hrun
    rcases hs with hs | hs
    · cases he : e.stores with
      | true =>
        have hnamed := hs.names he ht
        exact ih (.inr hnamed) hrun (.inl hnamed)
      | false =>
        refine ih (.inl (hs.step he ht)) hrun ?_
        rcases hes with ⟨e', rest, he', -⟩ | ⟨e', he', hstores⟩
        · rw [hs.stored] at he'
          cases he'
        · rcases List.mem_cons.mp he' with rfl | he'
          · rw [he] at hstores
            cases hstores
          · exact .inr ⟨e', he', hstores⟩
    · have hnamed := hs.of_prefix (step_stored ht)
      exact ih (.inr hnamed) hrun (.inl hnamed)

omit [DecidableEq P] [DecidableEq β] [DecidableEq γ] [Fintype γ] in
theorem Sys.Initial.vacant (hs : s.Initial) : s.Vacant := by
  refine ⟨⟨hs.lists, fun r hr => ?_⟩, hs.halted, ?_, ?_⟩
  · rw [hs.runner] at hr
    cases hr
  · rw [hs.log]
  · rw [hs.log]
    exact ⟨rfl, rfl, rfl, rfl⟩

/-- **Exactly when identifiers and events are right.**  The identifiers of the lists start at 0, so
    that the first event that is stored has no identifier and names no list. -/
theorem bufcall_served (hs : s.Initial) (hrun : runFrom (Sys.step h) s es = some s') :
    s'.Served ↔ ∀ e ∈ es, e.stores = false := by
  constructor
  · intro hserved e he
    by_contra hstores
    obtain ⟨first, rest, hfirst, hid⟩ :=
      run_named (.inl hs.vacant) hrun (.inr ⟨e, he, Bool.not_eq_false _ ▸ hstores⟩)
    refine (hserved.ids first ?_).1 hid
    rw [hfirst]
    exact List.mem_cons_self
  · intro hnone
    refine Sys.Vacant.served ?_
    exact runFrom_invariant (fun e he s s' hs hstep => hs.step (hnone e he) hstep) hs.vacant hrun

end Runs

/-! ### Computed runs -/

/-- `bufcall` gets no memory for its event, and `RUN_BUFCALLS` runs after a block has been freed. -/
theorem bufcall_served_refused : ∃ s : Sys (Fin 2) ℕ (Fin 2) ℕ, s.Served ∧ s.mem.smUsed = 1000 := by
  have hrun : (runFrom (Sys.step byteHeap) Sys.fresh
      [.alloc 0 4000 .BPRI_LO true, .alloc 1 1000 .BPRI_HI false, .bufcall 3000 .BPRI_MED 1 2 none,
        .free 4000 4000]).any (fun s => s.mem.smUsed = 1000) = true := by decide +kernel
  obtain ⟨s, hs, hused⟩ := (Option.any_eq_true _ _).mp hrun
  refine ⟨s, (bufcall_served Sys.fresh_initial hs).mpr ?_, of_decide_eq_true hused⟩
  intro e he
  fin_cases he <;> rfl

/-- **The first identifier is 0**, and `TOID_TO_PRI` of it is no list. -/
theorem first_id_zero : ¬ ∀ s : Sys (Fin 2) ℕ (Fin 2) ℕ,
    Reach Sys.Initial (Sys.step byteHeap) (fun _ _ => True) s → s.Served := by
  intro hall
  have hrun : (runFrom (Sys.step byteHeap) Sys.fresh [.bufcall 3000 .BPRI_MED 1 2 (some 0)]).any
      (fun s => s.log.stored.any fun e => e.id == 0) = true := by decide +kernel
  obtain ⟨s, hs, hzero⟩ := (Option.any_eq_true _ _).mp hrun
  obtain ⟨e, he, hid⟩ := List.any_eq_true.mp hzero
  have hserved := hall s (Reach.run (fun _ _ => trivial) (Reach.init Sys.fresh_initial) hs)
  exact (hserved.ids e he).1 (eq_of_beq hid)

end CohKernel.Strmem
