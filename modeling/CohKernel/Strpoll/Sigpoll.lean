import CohKernel.Lib.Links
import CohKernel.Lib.Machine
import CohKernel.Lib.Runs

namespace CohKernel.Strpoll

open CohKernel.Lib

/-!
# Registering for `SIGPOLL`

`FIND_SIGPOLL` and `REGISTER_SIGPOLL` of `struser.c`.  Memory is an array of words, and a record is
three of them; both functions step from one record to what stands behind it in memory.

* `Good.step` — one registration by the only process on the list;
* `reachable_sigpoll` — runs in which no second process registers;
* `second_unrecorded` — a second process that does.
-/

/-- The words of the address space. -/
def SPACE : ℕ := 2 ^ 30

/-- `EAGAIN`. -/
def EAGAIN : ℤ := 11

/-- `EINVAL`. -/
def EINVAL : ℤ := 22

/-! ### Records -/

variable {mem : ℕ → ℕ} {c c' p : ℕ}

/-- A word of the record at `c`. -/
def field (mem : ℕ → ℕ) (c i : ℕ) : ℕ := mem ((c + i) % SPACE)

/-- `sp_next`. -/
def spNext (mem : ℕ → ℕ) (c : ℕ) : ℕ := field mem c 0

/-- `sp_proc`. -/
def spProc (mem : ℕ → ℕ) (c : ℕ) : ℕ := field mem c 1

/-- `sp_events`, the lower half of its word. -/
def spEvents (mem : ℕ → ℕ) (c : ℕ) : Ushort := ushort (field mem c 2)

/-- A store to a word of a record. -/
def storeField (mem : ℕ → ℕ) (c i v : ℕ) : ℕ → ℕ := Function.update mem ((c + i) % SPACE) v

/-- A store to `sp_events`. -/
def storeEvents (mem : ℕ → ℕ) (c : ℕ) (events : Ushort) : ℕ → ℕ :=
  storeField mem c 2 (field mem c 2 / 2 ^ 16 * 2 ^ 16 + events)

/-- The record at `c` is inside the address space. -/
def Inside (c : ℕ) : Prop := c ≠ 0 ∧ c + 3 ≤ SPACE

instance (c : ℕ) : Decidable (Inside c) := inferInstanceAs (Decidable (_ ∧ _))

theorem field_store_self (mem : ℕ → ℕ) (c i v : ℕ) : field (storeField mem c i v) c i = v :=
  Function.update_self _ _ _

theorem field_store_of_ne (hc : Inside c) {i j : ℕ} (hi : i < 3) (hj : j < 3) (hne : j ≠ i)
    (v : ℕ) : field (storeField mem c i v) c j = field mem c j := by
  have hle := hc.2
  apply Function.update_of_ne
  rw [Nat.mod_eq_of_lt (by omega), Nat.mod_eq_of_lt (by omega)]
  omega

theorem spEvents_store (mem : ℕ → ℕ) (c : ℕ) (events : Ushort) :
    spEvents (storeEvents mem c events) c = events := by
  unfold spEvents storeEvents
  rw [field_store_self, ushort_eq_self_iff]
  push_cast
  omega

/-! ### The functions -/

/-- The stream head's list, and what has come of the calls: `refs` counts the references to a
    process that have been taken and not released, `cells` are the records that have been allocated
    and not freed, and `last` is the mask of a process's last call that found memory. -/
structure Sigsys where
  shSigs : ℕ
  mem : ℕ → ℕ
  refs : ℕ → ℤ
  cells : List ℕ
  last : ℕ → Ushort

variable {s s' : Sigsys}

/-- The loop of both functions, with the previous record.  It steps through all words before it
    comes back to one, so it ends at the null pointer at the latest. -/
def sigScan (mem : ℕ → ℕ) (proc : ℕ) : ℕ → ℕ → ℕ → Option (ℕ × ℕ)
  | 0, _, _ => none
  | fuel + 1, prev, scan =>
      if scan = 0 then none
      else if spProc mem scan = proc then some (prev, scan)
      -- `scan ++` goes behind the record, not along `sp_next`
      else sigScan mem proc fuel scan ((scan + 3) % SPACE)

/-- `proc_ref` by the process. -/
def Sigsys.procRef (s : Sigsys) (proc : ℕ) : Sigsys :=
  { s with refs := Function.update s.refs proc (s.refs proc + 1) }

/-- `proc_unref`. -/
def Sigsys.procUnref (s : Sigsys) (proc : ℕ) : Sigsys :=
  { s with refs := Function.update s.refs proc (s.refs proc - 1) }

/-- `FIND_SIGPOLL` by the process; its reference is released before it returns. -/
def findSigpoll (s : Sigsys) (proc : ℕ) : ℕ :=
  match sigScan s.mem proc (SPACE + 1) 0 s.shSigs with
  | none => 0
  | some (_, scan) => scan

/-- `REGISTER_SIGPOLL` by the process, with the memory that `kmem_alloc` would return. -/
def registerSigpoll (s : Sigsys) (proc : ℕ) (events : Ushort) (cell : Option ℕ) : Sigsys × ℤ :=
  let s := s.procRef proc
  match sigScan s.mem proc (SPACE + 1) 0 s.shSigs with
  | some (prev, scan) =>
    let s := s.procUnref proc
    let s := { s with mem := storeEvents s.mem scan events }
    if events = 0 then
      let s :=
        if prev = 0 then { s with shSigs := spNext s.mem scan }
        else { s with mem := storeField s.mem prev 0 (spNext s.mem scan) }
      let s := { s with cells := s.cells.erase scan }
      (s.procUnref proc, 0)
    else (s, 0)
  | none =>
    if events = 0 then (s, EINVAL)
    else
      match cell with
      | none => (s.procUnref proc, EAGAIN)
      | some scan =>
        let mem := storeEvents (storeField s.mem scan 1 proc) scan events
        ({ s with
          mem := storeField mem scan 0 s.shSigs
          shSigs := scan
          cells := scan :: s.cells }, 0)

/-! ### Runs -/

/-- A call of `REGISTER_SIGPOLL`. -/
structure Register where
  proc : ℕ
  events : Ushort
  cell : Option ℕ

/-- The allocator returns memory that no record has. -/
def Sigsys.Free (s : Sigsys) (c : ℕ) : Prop :=
  Inside c ∧ ∀ d ∈ s.cells, c + 3 ≤ d ∨ d + 3 ≤ c

instance (s : Sigsys) (c : ℕ) : Decidable (s.Free c) := inferInstanceAs (Decidable (_ ∧ _))

/-- A process registers. -/
def Sigsys.step (s : Sigsys) (e : Register) : Option Sigsys :=
  if ∀ c ∈ e.cell, s.Free c then
    let (t, r) := registerSigpoll s e.proc e.events e.cell
    some { t with
      last := if r = EAGAIN then s.last else Function.update s.last e.proc e.events }
  else none

/-- A null pointer is no record. -/
def ptr (a : ℕ) : Option ℕ := if a = 0 then none else some a

/-- What is claimed, of the records `l` of the list: there is one for each process whose last mask
    is not zero, it has that mask and the only reference to the process, and there are no other
    records and references. -/
structure Sigsys.Holds (s : Sigsys) (l : List ℕ) : Prop where
  linked : Linked (fun c => ptr (spNext s.mem c)) (ptr s.shSigs) l
  cells : s.cells.Perm l
  single : (l.map (spProc s.mem)).Nodup
  recorded : ∀ p, s.last p ≠ 0 ↔ p ∈ l.map (spProc s.mem)
  mask : ∀ c ∈ l, spEvents s.mem c = s.last (spProc s.mem c)
  refs : ∀ p, s.refs p = if p ∈ l.map (spProc s.mem) then 1 else 0

/-- What is claimed. -/
def Sigsys.Kept (s : Sigsys) : Prop := ∃ l, s.Holds l

/-- `FIND_SIGPOLL` returns the record of the process, if it has one. -/
def Sigsys.Finds (s : Sigsys) (proc : ℕ) : Prop :=
  (findSigpoll s proc ∈ s.cells ∧ spProc s.mem (findSigpoll s proc) = proc) ∨
    findSigpoll s proc = 0 ∧ ∀ c ∈ s.cells, spProc s.mem c ≠ proc

/-- No process is registered. -/
def Sigsys.Start (s : Sigsys) : Prop :=
  s.shSigs = 0 ∧ s.cells = [] ∧ (∀ p, s.refs p = 0) ∧ ∀ p, s.last p = 0

/-- The first record of the list, if there is one, is that of the process. -/
def Sigsys.First (s : Sigsys) (proc : ℕ) : Prop := s.shSigs ≠ 0 → spProc s.mem s.shSigs = proc

/-- The loop does not step past a record, and there is something to do. -/
def Sigsys.Direct (s : Sigsys) (e : Register) : Prop :=
  s.First e.proc ∧ (s.shSigs = 0 → e.events ≠ 0)

/-- Nobody is registered, or one process is. -/
inductive Sigsys.Good (s : Sigsys) : Prop
  | nobody : s.Start → s.Good
  | single (c p : ℕ) : Inside c → s.shSigs = c → s.cells = [c] → spNext s.mem c = 0 →
      spProc s.mem c = p → spEvents s.mem c = s.last p → s.last p ≠ 0 → s.refs p = 1 →
      (∀ p', p' ≠ p → s.last p' = 0 ∧ s.refs p' = 0) → s.Good

theorem Sigsys.Good.kept (h : s.Good) : s.Kept := by
  cases h with
  | nobody h =>
    obtain ⟨hsigs, hcells, hrefs, hlast⟩ := h
    refine ⟨[], ?_, ?_, List.nodup_nil, fun p => ?_, fun c hc => ?_, fun p => ?_⟩
    · rw [hsigs]
      rfl
    · rw [hcells]
    · simp [hlast p]
    · cases hc
    · rw [hrefs p]
      rfl
  | single c p hin hsigs hcells hnext hproc hmask hlast hrefs hothers =>
    have hmap : [c].map (spProc s.mem) = [p] := by rw [List.map_singleton, hproc]
    refine ⟨[c], ⟨?_, ?_⟩, ?_, ?_, fun p' => ?_, fun c' hc' => ?_, fun p' => ?_⟩
    · rw [hsigs]
      exact if_neg hin.1
    · show ptr (spNext s.mem c) = none
      rw [hnext]
      rfl
    · rw [hcells]
    · rw [hmap]
      exact List.nodup_singleton p
    · rw [hmap, List.mem_singleton]
      by_cases hp : p' = p
      · simp [hp, hlast]
      · simp [hp, (hothers p' hp).1]
    · rw [List.mem_singleton.mp hc', hproc, hmask]
    · rw [hmap]
      by_cases hp : p' = p
      · simp [hp, hrefs]
      · simp [hp, (hothers p' hp).2]

/-- The loop stops at once. -/
theorem sigScan_direct (h : s.First p) (fuel : ℕ) :
    sigScan s.mem p (fuel + 1) 0 s.shSigs =
      if s.shSigs = 0 then none else some (0, s.shSigs) := by
  rw [sigScan]
  by_cases h0 : s.shSigs = 0
  · rw [if_pos h0, if_pos h0]
  · rw [if_neg h0, if_neg h0, if_pos (h h0)]

theorem Sigsys.Good.finds (h : s.Good) (hfirst : s.First p) : s.Finds p := by
  have hscan : findSigpoll s p = s.shSigs := by
    rw [findSigpoll, sigScan_direct hfirst]
    by_cases h0 : s.shSigs = 0
    · rw [if_pos h0, h0]
    · rw [if_neg h0]
  unfold Sigsys.Finds
  rw [hscan]
  cases h with
  | nobody h =>
    right
    rw [h.2.1]
    exact ⟨h.1, fun c hc => absurd hc List.not_mem_nil⟩
  | single c p' hin hsigs hcells =>
    left
    rw [hcells, hsigs]
    exact ⟨List.mem_singleton_self c, hsigs ▸ hfirst (hsigs ▸ hin.1)⟩

/-! ### Registrations -/

/-- The first process to register. -/
theorem register_first (proc : ℕ) (events : Ushort) (cell : Option ℕ) (hsigs : s.shSigs = 0)
    (hevents : events ≠ 0) :
    registerSigpoll s proc events cell =
      match cell with
      | none => ((s.procRef proc).procUnref proc, EAGAIN)
      | some scan =>
        let mem := storeEvents (storeField s.mem scan 1 proc) scan events
        ({ s.procRef proc with
          mem := storeField mem scan 0 s.shSigs
          shSigs := scan
          cells := scan :: s.cells }, 0) := by
  have hscan : sigScan (s.procRef proc).mem proc (SPACE + 1) 0 (s.procRef proc).shSigs = none :=
    (sigScan_direct (fun hne => absurd hsigs hne) SPACE).trans (if_pos hsigs)
  unfold registerSigpoll
  simp only [hscan]
  rw [if_neg hevents]
  rfl

/-- The process that is registered calls again. -/
theorem register_again (proc : ℕ) (events : Ushort) (cell : Option ℕ) (hsigs : s.shSigs ≠ 0)
    (hproc : spProc s.mem s.shSigs = proc) :
    registerSigpoll s proc events cell =
      let t := (s.procRef proc).procUnref proc
      let mem := storeEvents s.mem s.shSigs events
      (if events = 0 then
        ({ t with mem := mem, shSigs := spNext mem s.shSigs,
                  cells := s.cells.erase s.shSigs } : Sigsys).procUnref proc
      else { t with mem := mem }, 0) := by
  have hscan : sigScan (s.procRef proc).mem proc (SPACE + 1) 0 (s.procRef proc).shSigs =
      some (0, s.shSigs) :=
    (sigScan_direct (fun _ => hproc) SPACE).trans (if_neg hsigs)
  unfold registerSigpoll
  simp only [hscan]
  by_cases hevents : events = 0
  · rw [if_pos hevents, if_pos hevents]
    rfl
  · rw [if_neg hevents, if_neg hevents]
    rfl

theorem refs_ref_unref (s : Sigsys) (proc : ℕ) : (s.procRef proc).procUnref proc = s := by
  unfold Sigsys.procUnref Sigsys.procRef
  simp

/-- **One registration** that finds nobody, or its own record. -/
theorem Sigsys.Good.step (h : s.Good) {e : Register} (hdirect : s.Direct e)
    (hstep : s.step e = some s') : s'.Good := by
  obtain ⟨hfirst, hevents⟩ := hdirect
  obtain ⟨hfree, hstep⟩ := Option.ite_none_right_eq_some.mp hstep
  cases h with
  | nobody h =>
    obtain ⟨hsigs, hcells, hrefs, hlast⟩ := h
    have hevents := hevents hsigs
    rw [register_first e.proc e.events e.cell hsigs hevents] at hstep
    cases hcell : e.cell with
    | none =>
      rw [hcell] at hstep
      cases hstep
      rw [refs_ref_unref]
      exact Sigsys.Good.nobody ⟨hsigs, hcells, hrefs, hlast⟩
    | some c =>
      have hin : Inside c := (hfree c hcell).1
      rw [hcell] at hstep
      cases hstep
      refine Sigsys.Good.single c e.proc hin rfl ?_ ?_ ?_ ?_ ?_ ?_ ?_
      · show c :: s.cells = [c]
        rw [hcells]
      · exact (field_store_self _ _ _ _).trans hsigs
      · refine (field_store_of_ne hin (by omega) (by omega) (by omega) _).trans ?_
        refine (field_store_of_ne hin (by omega) (by omega) (by omega) _).trans ?_
        exact field_store_self _ _ _ _
      · show ushort (field (storeField _ c 0 _) c 2) = Function.update s.last e.proc e.events e.proc
        rw [field_store_of_ne hin (by omega) (by omega) (by omega), Function.update_self]
        exact spEvents_store _ _ _
      · show Function.update s.last e.proc e.events e.proc ≠ 0
        rw [Function.update_self]
        exact hevents
      · show Function.update s.refs e.proc (s.refs e.proc + 1) e.proc = 1
        rw [Function.update_self, hrefs]
        rfl
      · intro p' hp'
        refine ⟨?_, ?_⟩
        · exact (Function.update_of_ne hp' _ _).trans (hlast p')
        · exact (Function.update_of_ne hp' _ _).trans (hrefs p')
  | single c p hin hsigs hcells hnext hproc hmask hlast hrefs hothers =>
    have hne : s.shSigs ≠ 0 := hsigs ▸ hin.1
    have hp : spProc s.mem s.shSigs = e.proc := hfirst hne
    rw [register_again e.proc e.events e.cell hne hp] at hstep
    cases hstep
    rw [hsigs, hproc] at hp
    subst hp
    rw [refs_ref_unref]
    by_cases h0 : e.events = 0
    · rw [if_pos h0]
      refine Sigsys.Good.nobody ⟨?_, ?_, fun p' => ?_, fun p' => ?_⟩
      · show field (storeField s.mem s.shSigs 2 _) s.shSigs 0 = 0
        rw [hsigs, field_store_of_ne hin (by omega) (by omega) (by omega)]
        exact hnext
      · show s.cells.erase s.shSigs = []
        rw [hcells, hsigs, List.erase_cons_head]
      · show Function.update s.refs e.proc (s.refs e.proc - 1) p' = 0
        by_cases hp' : p' = e.proc
        · rw [hp', Function.update_self, hrefs]
          rfl
        · rw [Function.update_of_ne hp']
          exact (hothers p' hp').2
      · show Function.update s.last e.proc e.events p' = 0
        by_cases hp' : p' = e.proc
        · rw [hp', Function.update_self, h0]
        · rw [Function.update_of_ne hp']
          exact (hothers p' hp').1
    · rw [if_neg h0]
      refine Sigsys.Good.single c e.proc hin hsigs hcells ?_ ?_ ?_ ?_ hrefs ?_
      · show field (storeField s.mem s.shSigs 2 _) c 0 = 0
        rw [hsigs, field_store_of_ne hin (by omega) (by omega) (by omega)]
        exact hnext
      · show field (storeField s.mem s.shSigs 2 _) c 1 = e.proc
        rw [hsigs, field_store_of_ne hin (by omega) (by omega) (by omega)]
        exact hproc
      · show spEvents (storeEvents s.mem s.shSigs e.events) c = Function.update s.last _ _ e.proc
        rw [hsigs, spEvents_store, Function.update_self]
      · show Function.update s.last e.proc e.events e.proc ≠ 0
        rw [Function.update_self]
        exact h0
      · intro p' hp'
        refine ⟨?_, (hothers p' hp').2⟩
        exact (Function.update_of_ne hp' _ _).trans (hothers p' hp').1

/-- **Runs without a second process.** As long as the first record is that of the caller, and no
    call takes away what is not there, the list has what is claimed, and the caller whose record is
    the first one, or that has none on an empty list, is told so. -/
theorem reachable_sigpoll (s : Sigsys) (hr : Reach Sigsys.Start Sigsys.step Sigsys.Direct s) :
    s.Kept ∧ ∀ p, s.First p → s.Finds p := by
  have hgood : s.Good := hr.invariant (fun s h => Sigsys.Good.nobody h) fun s e s' h hok hstep =>
    h.step hok hstep
  exact ⟨hgood.kept, fun p hfirst => hgood.finds hfirst⟩

/-- Nobody is registered, and a word of memory is the address of a process. -/
def unregistered : Sigsys := ⟨0, fun a => if a = 104 then 7 else 0, fun _ => 0, [], fun _ => 0⟩

theorem unregistered_start : unregistered.Start := ⟨rfl, rfl, fun _ => rfl, fun _ => rfl⟩

/-- A process registers, and is found. -/
theorem reachable_sigpoll_first :
    ∃ s, unregistered.step ⟨5, 1, some 100⟩ = some s ∧ s.Kept ∧ s.Finds 5 := by
  have hsome : (unregistered.step ⟨5, 1, some 100⟩).isSome = true := by decide +kernel
  obtain ⟨s, hs⟩ := Option.isSome_iff_exists.mp hsome
  have hok : unregistered.Direct ⟨5, 1, some 100⟩ := ⟨fun h => absurd rfl h, fun _ => by decide⟩
  obtain ⟨hkept, hfinds⟩ :=
    reachable_sigpoll s ((Reach.init unregistered_start).step hok hs)
  have hproc : (unregistered.step ⟨5, 1, some 100⟩).map (fun s => spProc s.mem s.shSigs) =
      some 5 := by decide +kernel
  rw [hs] at hproc
  exact ⟨s, hs, hkept, hfinds 5 fun _ => Option.some_inj.mp hproc⟩

/-- A second process finds its own address behind the record of the first one, and gets no record.
    -/
theorem second_unrecorded :
    ¬ ∀ s : Sigsys, Reach Sigsys.Start Sigsys.step (fun _ _ => True) s → s.Kept := by
  intro hall
  have hsome : (runFrom Sigsys.step unregistered [⟨5, 1, some 100⟩, ⟨7, 1, some 200⟩]).isSome =
      true := by decide +kernel
  obtain ⟨s, hs⟩ := Option.isSome_iff_exists.mp hsome
  obtain ⟨l, hl⟩ := hall s ((Reach.init unregistered_start).run (fun _ _ => trivial) hs)
  have hstate : (runFrom Sigsys.step unregistered [⟨5, 1, some 100⟩, ⟨7, 1, some 200⟩]).map
      (fun s => (s.cells, spProc s.mem 100, s.last 7)) = some ([100], 5, 1) := by decide +kernel
  rw [hs] at hstate
  simp only [Option.map_some, Option.some_inj, Prod.mk.injEq] at hstate
  obtain ⟨hcells, hproc, hlast⟩ := hstate
  have hlist : l = [100] := List.perm_singleton.mp (hcells ▸ hl.cells).symm
  have hin := (hl.recorded 7).mp (by rw [hlast]; decide)
  rw [hlist, List.map_singleton, hproc] at hin
  exact absurd hin (by decide)

end CohKernel.Strpoll
