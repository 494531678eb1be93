import CohKernel.DdiTime.Due

namespace CohKernel.DdiTime

open CohKernel.Lib

/-!
# Ids that come back

The ids of the timeouts go round, and a walk that finds its id starts again.

* `queueTimeout_isSome` — it does so only as often as there are cells;
* `lost_ticks` — but the ticks of the cells that it has passed are lost.
-/

variable {td : Timedata} {list : List Timeout} {id serial fuel : ℕ} {ticks t : ℤ} {m : System}

/-- The ids go round. -/
def succId (id : ℕ) : ℕ := if (id + 1) % IDS = 0 then 1 else (id + 1) % IDS

theorem succId_iterate (hpos : 0 < id) (hlt : id < IDS) (k : ℕ) :
    succId^[k] id = (id - 1 + k) % (IDS - 1) + 1 := by
  induction k with
  | zero =>
    unfold IDS at *
    simp only [Function.iterate_zero, id_eq]
    omega
  | succ k ih =>
    rw [Function.iterate_succ_apply', ih]
    unfold succId IDS at *
    split_ifs <;> omega

theorem walk_mem (h : walk id list ticks = .idScan t) : id ∈ list.map Timeout.tId := by
  induction list generalizing ticks with
  | nil => cases h
  | cons scan list ih =>
    unfold walk at h
    rw [List.map_cons, List.mem_cons]
    by_cases hid : scan.tId = id
    · exact Or.inl hid.symm
    rw [if_neg hid] at h
    by_cases hlt : ticks < scan.tDelta
    · rw [if_pos hlt] at h
      cases h
    rw [if_neg hlt] at h
    cases hw : walk id list (ticks - scan.tDelta) with
    | idScan t' =>
      rw [hw] at h
      cases h
      exact Or.inr (ih hw)
    | place before after t' =>
      rw [hw] at h
      cases h

/-- Every walk that starts again has found its id. -/
theorem idScan_none (h : idScan fuel td ticks serial = none) :
    ∀ k < fuel, succId^[k] td.nextId.1 ∈ td.list.map Timeout.tId := by
  induction fuel generalizing td ticks with
  | zero => exact fun k hk => absurd hk (Nat.not_lt_zero k)
  | succ fuel ih =>
    unfold idScan at h
    simp only at h
    rw [show td.nextId.2.list = td.list from rfl] at h
    cases hw : walk td.nextId.1 td.list ticks with
    | place before after t =>
      rw [hw] at h
      cases h
    | idScan t =>
      rw [hw] at h
      intro k hk
      cases k with
      | zero => exact walk_mem hw
      | succ k =>
        rw [Function.iterate_succ_apply]
        exact ih h k (by omega)

/-- **`QUEUE_TIMEOUT` comes to an end**: not all ids are in use. -/
theorem queueTimeout_isSome (hid : td.tdId < IDS) (hlen : td.list.length + 1 < IDS) :
    (queueTimeout td ticks serial).isSome = true := by
  by_contra hnone
  have hmem := idScan_none (Option.not_isSome_iff_eq_none.mp hnone)
  have hpos : 0 < td.nextId.1 ∧ td.nextId.1 < IDS := by
    unfold Timedata.nextId IDS at *
    simp only
    split_ifs <;> omega
  have hnodup : ((List.range (td.list.length + 1)).map fun k => succId^[k] td.nextId.1).Nodup := by
    refine List.Nodup.map_on (fun i hi j hj heq => ?_) List.nodup_range
    rw [List.mem_range] at hi hj
    rw [succId_iterate hpos.1 hpos.2, succId_iterate hpos.1 hpos.2] at heq
    unfold IDS at *
    omega
  have hsub : ((List.range (td.list.length + 1)).map fun k => succId^[k] td.nextId.1) ⊆
      td.list.map Timeout.tId := by
    intro x hx
    obtain ⟨k, hk, rfl⟩ := List.mem_map.mp hx
    exact hmem k (List.mem_range.mp hk)
  have hle := (hnodup.subperm hsub).length_le
  simp at hle

/-! ### Lost ticks -/

/-- The cell of a request for 3 ticks, and one for 5 ticks behind it. -/
def cell3 : Timeout := { tDelta := 3, tId := 2, tTicket := 0, tTicketHolder := 0, serial := 1 }
def cell5 : Timeout := { tDelta := 2, tId := 1, tTicket := 0, tTicketHolder := 0, serial := 0 }

/-- The first two ids that are tried are in use. -/
theorem queueTimeout_isSome_third : (queueTimeout ⟨1, [], [cell5, cell3]⟩ 9 0).isSome = true :=
  queueTimeout_isSome (by decide) (by decide)

/-- The two requests wait, and `id` is the next id. -/
structure Waits (id : ℕ) (m : System) : Prop where
  td : m.td = { tdId := id, run := [], first := [cell3, cell5] }
  now : m.now = 0

/-- A request that is cancelled uses an id. -/
theorem Waits.next (h : Waits id m) (hlo : 3 ≤ id) :
    ∃ m', After System.step (fun _ _ => True) m m' ∧ Waits ((id + 1) % IDS) m' := by
  obtain ⟨htd, hnow⟩ := h
  have h0 : id ≠ 0 := by omega
  have h1 : ¬1 = id := by omega
  have h2 : ¬2 = id := by omega
  have hq : queueTimeout m.td 8 m.count = some (id,
      { tdId := (id + 1) % IDS
        run := []
        first := [cell3, cell5, { tDelta := 3, tId := id, tTicket := 0, tTicketHolder := 0,
                                  serial := m.count }] }) := by
    rw [htd]
    simp [queueTimeout, idScan, Timedata.nextId, Timedata.list, walk, cell3, cell5, h0, h1, h2,
      Timedata.insert, Timedata.split]
  have hu : untimeout
      { tdId := (id + 1) % IDS
        run := []
        first := [cell3, cell5, { tDelta := 3, tId := id, tTicket := 0, tTicketHolder := 0,
                                  serial := m.count }] } id =
      ({ tdId := (id + 1) % IDS
         run := [{ tDelta := 0, tId := id, tTicket := 1, tTicketHolder := 1, serial := m.count }]
         first := [cell3, cell5] },
       some { tDelta := 3, tId := id, tTicket := 1, tTicketHolder := 0, serial := m.count },
         none) := by
    simp [untimeout, findCell, Timedata.list, cell3, cell5, h1, h2, nextTicket, Timedata.passOn,
      Timedata.split, pushDelta]
  have hrun : runFrom System.step m [.queue 8 true, .untimeout id, .reap] = some
      { m with
        td := { tdId := (id + 1) % IDS, run := [], first := [cell3, cell5] }
        count := m.count + 1
        due := Function.update m.due m.count (m.now + (max 8 1 : ℤ).toNat)
        cancelled := Function.update m.cancelled m.count true } := by
    simp [runFrom, System.step, hq, hu, reap]
  exact ⟨_, After.of_runFrom (fun _ _ => trivial) hrun, rfl, hnow⟩

end CohKernel.DdiTime
