import CohKernel.DdiTime.Defs
import CohKernel.Lib.Delta
import Mathlib.Data.List.TakeWhile

namespace CohKernel.DdiTime

open CohKernel.Lib

/-!
# When timeouts are due

* `Timely` — the cells that wait are not due, and those that have been set off were due then;
* `reachable_timely` — so it is in every run in which no walk starts again with less ticks.
-/

/-! ### The abstract queue -/

/-- What matters of a cell: its distance, and the request that it is for. -/
def Timeout.core (c : Timeout) : ℤ × ℕ := (c.tDelta, c.serial)

/-- The cells `r` have been set off, and the cells `f` are waiting. -/
structure Timely (r f : List (ℤ × ℕ)) (now count : ℕ) (due : ℕ → ℕ) (moved : ℕ → Option ℕ)
    (cancelled : ℕ → Bool) : Prop where
  idle : ∀ c ∈ r, c.1 = 0
  delta : Delta Prod.fst (fun c => (due c.2 : ℤ)) now f
  late : ∀ c ∈ f, now < due c.2
  fresh : ∀ c ∈ f, c.2 < count
  nodup : (f.map Prod.snd).Nodup
  pending : ∀ c ∈ f, moved c.2 = none
  kept : ∀ n < count, (∃ c ∈ f, c.2 = n) ∨ (moved n = some (due n) ∧ due n ≤ now) ∨
    moved n = none ∧ cancelled n = true
  later : ∀ n, count ≤ n → moved n = none

variable {r r' f f' before after : List (ℤ × ℕ)} {now count n : ℕ} {due : ℕ → ℕ}
  {moved : ℕ → Option ℕ} {cancelled : ℕ → Bool} {c : ℤ × ℕ} {d : ℤ}

/-- Other cells that have been set off. -/
theorem Timely.withRun (h : Timely r f now count due moved cancelled) (hr : ∀ c ∈ r', c.1 = 0) :
    Timely r' f now count due moved cancelled :=
  ⟨hr, h.delta, h.late, h.fresh, h.nodup, h.pending, h.kept, h.later⟩

/-- A cancelled request. -/
theorem Timely.mark (h : Timely r f now count due moved cancelled) (n : ℕ) :
    Timely r f now count due moved (Function.update cancelled n true) := by
  refine ⟨h.idle, h.delta, h.late, h.fresh, h.nodup, h.pending, fun k hk => ?_, h.later⟩
  rcases h.kept k hk with hf | hm | ⟨hm, hc⟩
  · exact Or.inl hf
  · exact Or.inr (Or.inl hm)
  · refine Or.inr (Or.inr ⟨hm, ?_⟩)
    rw [Function.update_apply]
    split_ifs
    · rfl
    · exact hc

/-- The distance of a cell that is taken out is pushed onto its successor. -/
def push (d : ℤ) : List (ℤ × ℕ) → List (ℤ × ℕ)
  | [] => []
  | c :: cs => (c.1 + d, c.2) :: cs

@[simp] theorem push_serials (d : ℤ) (cs : List (ℤ × ℕ)) :
    (push d cs).map Prod.snd = cs.map Prod.snd := by
  cases cs <;> rfl

@[simp] theorem push_zero (cs : List (ℤ × ℕ)) : push 0 cs = cs := by
  cases cs with
  | nil => rfl
  | cons c cs => simp [push]

/-- What is said about the requests is said about the cells. -/
theorem forall_serials {P : ℕ → Prop} (f : List (ℤ × ℕ)) :
    (∀ c ∈ f, P c.2) ↔ ∀ n ∈ f.map Prod.snd, P n :=
  List.forall_mem_map.symm

/-- **A cell is taken out**: the others are due when they were. -/
theorem Timely.cancel (h : Timely r (before ++ c :: after) now count due moved cancelled)
    (hc : cancelled c.2 = true) :
    Timely r (before ++ push c.1 after) now count due moved cancelled := by
  have hserials : (before ++ push c.1 after).map Prod.snd =
      (before ++ after).map Prod.snd := by simp
  have hsub : ∀ n ∈ (before ++ after).map Prod.snd, n ∈ (before ++ c :: after).map Prod.snd := by
    intro n hn
    simp only [List.map_append, List.map_cons, List.mem_append, List.mem_cons] at hn ⊢
    tauto
  refine ⟨h.idle, ?_, ?_, ?_, ?_, ?_, fun n hn => ?_, h.later⟩
  · obtain ⟨hbefore, heq, hpos, hrest⟩ := Delta.append.mp h.delta
    refine Delta.append.mpr ⟨hbefore, ?_⟩
    cases after with
    | nil => exact trivial
    | cons a after =>
      have hle := hrest.le_due a List.mem_cons_self
      exact hrest.head rfl (by have := hrest.1; simp only at *; omega) (by omega)
  · rw [forall_serials (P := fun n => now < due n), hserials]
    exact fun n hn => (forall_serials (P := fun n => now < due n) _).mp h.late n (hsub n hn)
  · rw [forall_serials (P := fun n => n < count), hserials]
    exact fun n hn => (forall_serials (P := fun n => n < count) _).mp h.fresh n (hsub n hn)
  · rw [hserials]
    refine h.nodup.sublist ?_
    simp only [List.map_append, List.map_cons]
    exact (List.sublist_cons_self _ _).append_left _
  · rw [forall_serials (P := fun n => moved n = none), hserials]
    exact fun n hn => (forall_serials (P := fun n => moved n = none) _).mp h.pending n (hsub n hn)
  · rcases h.kept n hn with ⟨x, hx, rfl⟩ | hm
    · by_cases hxc : x.2 = c.2
      · right
        right
        exact ⟨h.pending x hx, by rw [hxc]; exact hc⟩
      · left
        have hmem : x.2 ∈ (before ++ push c.1 after).map Prod.snd := by
          rw [hserials]
          have := List.mem_map_of_mem (f := Prod.snd) hx
          simp only [List.map_append, List.map_cons, List.mem_append, List.mem_cons] at this ⊢
          tauto
        obtain ⟨y, hy, hyx⟩ := List.mem_map.mp hmem
        exact ⟨y, hy, hyx⟩
    · exact Or.inr hm

/-- **A tick** before the first cell is due. -/
theorem Timely.check_wait {cs : List (ℤ × ℕ)} (h : Timely r (c :: cs) now count due moved cancelled)
    (hd : c.1 - 1 ≠ 0) :
    Timely r ((c.1 - 1, c.2) :: cs) (now + 1) count due moved cancelled := by
  obtain ⟨heq, hpos, hrest⟩ := h.delta
  have hlate := h.late c List.mem_cons_self
  have hdelta : Delta Prod.fst (fun c : ℤ × ℕ => (due c.2 : ℤ)) ((now + 1 : ℕ) : ℤ)
      ((c.1 - 1, c.2) :: cs) := by
    refine h.delta.head rfl ?_ ?_
    · push_cast
      simp only at *
      omega
    · push_cast
      simp only at *
      omega
  refine ⟨h.idle, hdelta, fun x hx => ?_, ?_, h.nodup, ?_, fun n hn => ?_, h.later⟩
  · have := hdelta.lt_due (by simp only at *; omega) x hx
    exact_mod_cast this
  · exact fun x hx => by
      rcases List.mem_cons.mp hx with rfl | hx
      · exact h.fresh c List.mem_cons_self
      · exact h.fresh x (List.mem_cons_of_mem c hx)
  · exact fun x hx => by
      rcases List.mem_cons.mp hx with rfl | hx
      · exact h.pending c List.mem_cons_self
      · exact h.pending x (List.mem_cons_of_mem c hx)
  · rcases h.kept n hn with ⟨x, hx, rfl⟩ | ⟨hm, hle⟩ | hm
    · left
      rcases List.mem_cons.mp hx with rfl | hx
      · exact ⟨_, List.mem_cons_self, rfl⟩
      · exact ⟨x, List.mem_cons_of_mem _ hx, rfl⟩
    · exact Or.inr (Or.inl ⟨hm, by omega⟩)
    · exact Or.inr (Or.inr hm)

/-- The cells that a tick sets off, and the ones after them. -/
theorem check_due {cs : List (ℤ × ℕ)} {b : ℤ} (h : Delta Prod.fst (fun c => (due c.2 : ℤ)) b cs) :
    (∀ c ∈ cs.takeWhile (fun c => c.1 = 0), (due c.2 : ℤ) = b) ∧
    Delta Prod.fst (fun c => (due c.2 : ℤ)) b (cs.dropWhile fun c => c.1 = 0) ∧
    ∀ c ∈ cs.dropWhile (fun c => c.1 = 0), b < due c.2 := by
  induction cs generalizing b with
  | nil => simp [Delta]
  | cons c cs ih =>
    by_cases h0 : c.1 = 0
    · obtain ⟨heq, -, hrest⟩ := h
      obtain rfl : b = due c.2 := by
        simp only at heq
        omega
      rw [List.takeWhile_cons_of_pos (by simpa using h0), List.dropWhile_cons_of_pos
        (by simpa using h0)]
      obtain ⟨h1, h2, h3⟩ := ih hrest
      refine ⟨fun x hx => ?_, h2, h3⟩
      rcases List.mem_cons.mp hx with rfl | hx
      · rfl
      · exact h1 x hx
    · rw [List.takeWhile_cons_of_neg (by simpa using h0), List.dropWhile_cons_of_neg
        (by simpa using h0)]
      have hpos : 0 < c.1 := lt_of_le_of_ne h.2.1 (Ne.symm h0)
      exact ⟨fun x hx => (by cases hx), h, h.lt_due hpos⟩

/-- **A tick** sets off the cells that are due. -/
theorem Timely.check {cs : List (ℤ × ℕ)} (h : Timely r (c :: cs) now count due moved cancelled)
    (hd : c.1 - 1 = 0) :
    Timely (r ++ (c.1 - 1, c.2) :: cs.takeWhile fun c => c.1 = 0) (cs.dropWhile fun c => c.1 = 0)
      (now + 1) count due
      (fun n => if n ∈ (((c.1 - 1, c.2) :: cs.takeWhile fun c => c.1 = 0)).map Prod.snd then
        some (now + 1) else moved n) cancelled := by
  obtain ⟨heq, hpos, hrest⟩ := h.delta
  have hdue : due c.2 = now + 1 := by
    simp only at *
    omega
  replace hrest : Delta Prod.fst (fun c => (due c.2 : ℤ)) ((due c.2 : ℕ) : ℤ) cs := hrest
  rw [hdue] at hrest
  obtain ⟨htake, hdrop, hlt⟩ := check_due hrest
  have hsplit : cs = (cs.takeWhile fun c => c.1 = 0) ++ cs.dropWhile fun c => c.1 = 0 :=
    (List.takeWhile_append_dropWhile).symm
  have hmem : ∀ x ∈ cs.dropWhile (fun c => c.1 = 0), x ∈ c :: cs := by
    intro x hx
    exact List.mem_cons_of_mem c ((List.dropWhile_sublist _).subset hx)
  -- all the cells that are set off are due now
  have hset : ∀ n ∈ ((c.1 - 1, c.2) :: cs.takeWhile fun c => c.1 = 0).map Prod.snd,
      due n = now + 1 := by
    intro n hn
    rw [List.map_cons, List.mem_cons] at hn
    rcases hn with rfl | hn
    · exact hdue
    · obtain ⟨x, hx, rfl⟩ := List.mem_map.mp hn
      have := htake x hx
      exact_mod_cast this
  refine ⟨fun x hx => ?_, hdrop, fun x hx => ?_, fun x hx => h.fresh x (hmem x hx), ?_,
    fun x hx => ?_, fun n hn => ?_, fun n hn => ?_⟩
  · rcases List.mem_append.mp hx with hx | hx
    · exact h.idle x hx
    · rcases List.mem_cons.mp hx with rfl | hx
      · exact hd
      · simpa using List.mem_takeWhile_imp hx
  · have := hlt x hx
    exact_mod_cast this
  · have hnd := h.nodup
    rw [List.map_cons, List.nodup_cons] at hnd
    exact hnd.2.sublist ((List.dropWhile_sublist _).map _)
  · rw [if_neg]
    · exact h.pending x (hmem x hx)
    · intro hc
      have := hset _ hc
      have := hlt x hx
      omega
  · by_cases hnow : n ∈ ((c.1 - 1, c.2) :: cs.takeWhile fun c => c.1 = 0).map Prod.snd
    · right
      left
      rw [if_pos hnow, hset n hnow]
      exact ⟨rfl, le_rfl⟩
    rw [if_neg hnow]
    rcases h.kept n hn with ⟨x, hx, rfl⟩ | ⟨hm, hle⟩ | hm
    · left
      rw [List.map_cons, List.mem_cons, not_or] at hnow
      rcases List.mem_cons.mp hx with rfl | hx
      · exact absurd rfl hnow.1
      · rw [hsplit] at hx
        rcases List.mem_append.mp hx with hx | hx
        · exact absurd (List.mem_map_of_mem hx) hnow.2
        · exact ⟨x, hx, rfl⟩
    · exact Or.inr (Or.inl ⟨hm, by omega⟩)
    · exact Or.inr (Or.inr hm)
  · rw [if_neg]
    · exact h.later n hn
    · intro hc
      rw [List.map_cons, List.mem_cons] at hc
      rcases hc with rfl | hc
      · exact absurd (h.fresh c List.mem_cons_self) (not_lt.mpr hn)
      · obtain ⟨x, hx, rfl⟩ := List.mem_map.mp hc
        exact absurd (h.fresh x (List.mem_cons_of_mem c ((List.takeWhile_sublist _).subset hx)))
          (not_lt.mpr hn)

/-- **A new cell** is put between two others, which are due when they were. -/
theorem Timely.insert (h : Timely r f now count due moved cancelled) {t : ℤ} {at' : ℕ}
    (hserials : (before ++ after).map Prod.snd = f.map Prod.snd)
    (hdelta : Delta Prod.fst (fun c => (Function.update due count at' c.2 : ℤ)) now
      (before ++ (t, count) :: after)) (hlate : now < at') :
    Timely r (before ++ (t, count) :: after) now (count + 1) (Function.update due count at') moved
      cancelled := by
  have hmem : ∀ x ∈ before ++ (t, count) :: after, x.2 = count ∨ x.2 ∈ f.map Prod.snd := by
    intro x hx
    rw [← hserials]
    simp only [List.mem_append, List.mem_cons] at hx
    rcases hx with hx | rfl | hx
    · exact Or.inr (List.mem_map_of_mem (List.mem_append_left _ hx))
    · exact Or.inl rfl
    · exact Or.inr (List.mem_map_of_mem (List.mem_append_right _ hx))
  have hne : ∀ n < count, Function.update due count at' n = due n :=
    fun n hn => Function.update_of_ne hn.ne _ _
  have hlt := (forall_serials (P := fun n => n < count) _).mp h.fresh
  refine ⟨h.idle, hdelta, fun x hx => ?_, fun x hx => ?_, ?_, fun x hx => ?_, fun n hn => ?_,
    fun n hn => h.later n (by omega)⟩
  · rcases hmem x hx with hc | hf
    · rw [hc, Function.update_self]
      exact hlate
    · rw [hne _ (hlt _ hf)]
      exact (forall_serials (P := fun n => now < due n) _).mp h.late _ hf
  · rcases hmem x hx with hc | hf
    · omega
    · have := hlt _ hf
      omega
  · have hperm : ((before ++ (t, count) :: after).map Prod.snd).Perm (count :: f.map Prod.snd) := by
      rw [← hserials, List.map_append, List.map_append, List.map_cons]
      exact List.perm_middle
    rw [hperm.nodup_iff, List.nodup_cons]
    exact ⟨fun hc => absurd (hlt _ hc) (lt_irrefl _), h.nodup⟩
  · rcases hmem x hx with hc | hf
    · rw [hc]
      exact h.later count le_rfl
    · exact (forall_serials (P := fun n => moved n = none) _).mp h.pending _ hf
  · rcases Nat.lt_succ_iff_lt_or_eq.mp hn with hn | rfl
    · rw [hne n hn]
      rcases h.kept n hn with ⟨x, hx, rfl⟩ | hm
      · left
        have hx' : x.2 ∈ (before ++ after).map Prod.snd := by
          rw [hserials]
          exact List.mem_map_of_mem hx
        obtain ⟨y, hy, hyx⟩ := List.mem_map.mp hx'
        refine ⟨y, ?_, hyx⟩
        rcases List.mem_append.mp hy with hy | hy
        · exact List.mem_append_left _ hy
        · exact List.mem_append_right _ (List.mem_cons_of_mem _ hy)
      · exact Or.inr hm
    · exact Or.inl ⟨(t, n), List.mem_append_right _ List.mem_cons_self, rfl⟩

/-! ### The walk -/

variable {td td' : Timedata} {list run first : List Timeout} {scan scan' timep : Timeout}
  {id serial ticket fuel : ℕ} {ticks t b : ℤ} {m m' : System} {e : Event}

/-- The ticks up to the first cell with an id. -/
def ahead (id : ℕ) : List Timeout → Option ℤ
  | [] => none
  | scan :: list => if scan.tId = id then some 0 else (ahead id list).map (scan.tDelta + ·)

/-- The ids from the counter on: those that are in use are in use by a cell with no ticks before it,
    up to one that is free or that is in use only by a later cell. -/
def Spared (ticks : ℤ) : ℕ → Timedata → Prop
  | 0, _ => True
  | fuel + 1, td =>
      match ahead td.nextId.1 td.list with
      | none => True
      | some p => if p = 0 then Spared ticks fuel td.nextId.2 else ticks < p

/-- A walk that starts again has lost the ticks up to the cell with the id. -/
theorem walk_idScan : ∀ {list : List Timeout} {ticks : ℤ}, walk id list ticks = .idScan t →
    0 ≤ ticks → 0 ≤ t ∧ ahead id list = some (ticks - t) := by
  intro list
  induction list with
  | nil => exact fun h => by cases h
  | cons scan list ih =>
    intro ticks h h0
    unfold walk at h
    unfold ahead
    by_cases hid : scan.tId = id
    · rw [if_pos hid] at h ⊢
      cases h
      exact ⟨h0, by rw [sub_self]⟩
    rw [if_neg hid] at h ⊢
    by_cases hlt : ticks < scan.tDelta
    · rw [if_pos hlt] at h
      cases h
    rw [if_neg hlt] at h
    cases hw : walk id list (ticks - scan.tDelta) with
    | idScan t' =>
      rw [hw] at h
      cases h
      obtain ⟨ht, ha⟩ := ih hw (by omega)
      exact ⟨ht, by rw [ha, Option.map_some]; congr 1; ring⟩
    | place before after t' =>
      rw [hw] at h
      cases h

/-- The cells that have been set off do not count. -/
theorem walk_run (hrun : ∀ c ∈ run, c.tDelta = 0) (h0 : 0 ≤ ticks) {before after : List Timeout}
    (h : walk id (run ++ first) ticks = .place before after t) :
    ∃ b₂, before = run ++ b₂ ∧ walk id first ticks = .place b₂ after t := by
  induction run generalizing before with
  | nil => exact ⟨before, rfl, h⟩
  | cons scan run ih =>
    have hz := hrun scan List.mem_cons_self
    rw [List.cons_append] at h
    unfold walk at h
    rw [hz] at h
    by_cases hid : scan.tId = id
    · rw [if_pos hid] at h
      cases h
    rw [if_neg hid, if_neg (not_lt.mpr h0), sub_zero] at h
    cases hw : walk id (run ++ first) ticks with
    | idScan t' =>
      rw [hw] at h
      cases h
    | place before' after' t' =>
      rw [hw] at h
      cases h
      obtain ⟨b₂, rfl, hw'⟩ := ih (fun c hc => hrun c (List.mem_cons_of_mem scan hc)) hw
      exact ⟨b₂, rfl, hw'⟩

/-- **The walk** finds the place of the cell: it is due after its ticks, and the others are due when
    they were. -/
theorem walk_place {due : ℤ × ℕ → ℤ} (due' : ℤ × ℕ → ℤ) :
    ∀ {list before after : List Timeout} {ticks b : ℤ},
    walk id list ticks = .place before after t → 0 ≤ ticks →
    Delta Prod.fst due b (list.map Timeout.core) →
    (∀ d, due' (d, n) = b + ticks) → (∀ c ∈ list, ∀ d, due' (d, c.serial) = due c.core) →
    Delta Prod.fst due' b (before.map Timeout.core ++ (t, n) :: after.map Timeout.core) ∧
      (before ++ after).map Timeout.serial = list.map Timeout.serial := by
  intro list
  induction list with
  | nil =>
    intro before after ticks b h h0 _ hn _
    cases h
    refine ⟨⟨by rw [hn], h0, trivial⟩, rfl⟩
  | cons scan list ih =>
    intro before after ticks b h h0 hd hn hsame
    unfold walk at h
    by_cases hid : scan.tId = id
    · rw [if_pos hid] at h
      cases h
    rw [if_neg hid] at h
    have hd' : Delta Prod.fst due' b ((scan :: list).map Timeout.core) := by
      refine hd.congr (fun _ _ => rfl) fun c hc => ?_
      obtain ⟨x, hx, rfl⟩ := List.mem_map.mp hc
      exact hsame x hx _
    obtain ⟨heq, hpos, hrest⟩ := hd'
    by_cases hlt : ticks < scan.tDelta
    · rw [if_pos hlt] at h
      cases h
      refine ⟨⟨hn t, h0, ?_⟩, rfl⟩
      rw [hn]
      have hdue : ∀ d, due' (d, scan.serial) = b + scan.tDelta := by
        intro d
        rw [hsame scan List.mem_cons_self d, ← hsame scan List.mem_cons_self scan.core.1]
        exact heq
      refine ⟨?_, ?_, ?_⟩
      · change due' (_, scan.serial) = _ + (scan.tDelta - t)
        rw [hdue]
        ring
      · change 0 ≤ scan.tDelta - t
        omega
      · change Delta Prod.fst due' (due' (_, scan.serial)) _
        rw [hdue]
        rw [show due' scan.core = b + scan.tDelta from heq] at hrest
        exact hrest
    · rw [if_neg hlt] at h
      cases hw : walk id list (ticks - scan.tDelta) with
      | idScan t' =>
        rw [hw] at h
        cases h
      | place before' after' t' =>
        rw [hw] at h
        cases h
        have hscan : due' scan.core = due scan.core := hsame scan List.mem_cons_self _
        have hbase : due' scan.core = b + scan.tDelta := heq
        obtain ⟨hdelta, hserials⟩ := ih hw (by omega) hd.2.2
          (fun d => by rw [hn, ← hscan, hbase]; ring)
          fun c hc => hsame c (List.mem_cons_of_mem scan hc)
        refine ⟨⟨heq, hpos, ?_⟩, ?_⟩
        · rw [hscan]
          exact hdelta
        · rw [List.cons_append, List.map_cons, List.map_cons, hserials]

/-- **`QUEUE_TIMEOUT`** walks with all its ticks when the ids are spared. -/
theorem idScan_spec (hrun : ∀ c ∈ td.run, c.tDelta = 0) (h0 : 0 ≤ ticks)
    (hspared : Spared ticks fuel td) (h : idScan fuel td ticks serial = some (id, td')) :
    ∃ before after t, td'.run = td.run ∧
      td'.first = before ++
        { tDelta := t, tId := id, tTicket := 0, tTicketHolder := 0, serial := serial } :: after ∧
      walk id td.first ticks = .place before after t := by
  induction fuel generalizing td with
  | zero => cases h
  | succ fuel ih =>
    unfold idScan at h
    simp only at h
    have hlists : td.nextId.2.run = td.run ∧ td.nextId.2.first = td.first := ⟨rfl, rfl⟩
    have hlist : td.nextId.2.list = td.list := rfl
    rw [hlist] at h
    cases hw : walk td.nextId.1 td.list ticks with
    | idScan t =>
      rw [hw] at h
      simp only at h
      obtain ⟨ht, ha⟩ := walk_idScan hw h0
      unfold Spared at hspared
      rw [ha] at hspared
      simp only at hspared
      by_cases hz : ticks - t = 0
      · rw [if_pos hz] at hspared
        obtain rfl : t = ticks := by omega
        exact @ih td.nextId.2 hrun hspared h
      · rw [if_neg hz] at hspared
        omega
    | place before after t =>
      rw [hw] at h
      cases h
      obtain ⟨b₂, rfl, hw'⟩ := walk_run hrun h0 hw
      refine ⟨b₂, after, t, ?_, ?_, hw'⟩
      · unfold Timedata.insert Timedata.split
        simp only [hlists.1, List.length_append]
        rw [if_neg (by omega), List.append_assoc, List.take_left']
        rfl
      · unfold Timedata.insert Timedata.split
        simp only [hlists.1, List.length_append]
        rw [if_neg (by omega), List.append_assoc, List.drop_left']
        rfl

/-! ### The calls -/

/-- The timeouts are in order, and what an `untimeout` waits for has been cancelled. -/
structure System.Ordered (m : System) : Prop where
  timely : Timely (m.td.run.map Timeout.core) (m.td.first.map Timeout.core) m.now m.count m.due
    m.moved m.cancelled
  waiting : ∀ w ∈ m.waiting, m.cancelled w.1 = true

theorem core_idle (h : ∀ c ∈ run.map Timeout.core, c.1 = 0) : ∀ c ∈ run, c.tDelta = 0 :=
  fun c hc => h c.core (List.mem_map_of_mem hc)

theorem findCell_spec {p : Timeout → Bool} {l before after : List Timeout}
    (h : findCell p l = some (before, scan, after)) : l = before ++ scan :: after ∧ p scan =
      true := by
  induction l generalizing before with
  | nil => cases h
  | cons c l ih =>
    unfold findCell at h
    by_cases hp : p c = true
    · rw [if_pos hp] at h
      cases h
      exact ⟨rfl, hp⟩
    · rw [if_neg hp] at h
      obtain ⟨⟨b, d, a⟩, hf, heq⟩ := Option.map_eq_some_iff.mp h
      cases heq
      obtain ⟨rfl, hd⟩ := ih hf
      exact ⟨rfl, hd⟩

/-- Where a cell of the list is. -/
theorem run_or_first {before after : List Timeout} (h : td.list = before ++ scan :: after) :
    (∃ r₂, td.run = before ++ scan :: r₂ ∧ after = r₂ ++ td.first) ∨
    ∃ b₂, before = td.run ++ b₂ ∧ td.first = b₂ ++ scan :: after := by
  rcases List.append_eq_append_iff.mp h with ⟨b₂, hb, hf⟩ | ⟨r₂, hr, ha⟩
  · exact Or.inr ⟨b₂, hb, hf⟩
  · cases r₂ with
    | nil =>
      refine Or.inr ⟨[], ?_, ?_⟩
      · rw [List.append_nil] at hr ⊢
        exact hr.symm
      · exact ha.symm
    | cons c r₂ =>
      rw [List.cons_append, List.cons.injEq] at ha
      obtain ⟨rfl, ha⟩ := ha
      exact Or.inl ⟨r₂, hr, ha⟩

/-- The tickets of a cell change nothing. -/
theorem split_core {before after : List Timeout} (h : td.list = before ++ scan :: after)
    (hcore : scan'.core = scan.core) :
    (td.split td.run.length (before ++ scan' :: after)).run.map Timeout.core =
      td.run.map Timeout.core ∧
    (td.split td.run.length (before ++ scan' :: after)).first.map Timeout.core =
      td.first.map Timeout.core := by
  have hmap : (before ++ scan' :: after).map Timeout.core = td.list.map Timeout.core := by
    rw [h]
    simp [hcore]
  unfold Timedata.split
  simp only [List.map_take, List.map_drop, hmap]
  unfold Timedata.list
  rw [List.map_append, ← @List.length_map _ _ td.run Timeout.core]
  exact ⟨List.take_left' rfl, List.drop_left' rfl⟩

theorem pushDelta_core (d : ℤ) (l : List Timeout) :
    (pushDelta d l).map Timeout.core = push d (l.map Timeout.core) := by
  cases l <;> rfl

/-- **The end of `untimeout`** changes no due time. -/
theorem passOn_timely (scan' : Timeout) {before after : List Timeout}
    (hl : td.list = before ++ scan :: after)
    (hcore : scan'.core = scan.core)
    (h : Timely (td.run.map Timeout.core) (td.first.map Timeout.core) now count due moved
      cancelled) (hc : cancelled scan.serial = true) (ticket : ℕ) :
    Timely ((td.passOn before scan' after ticket).run.map Timeout.core)
      ((td.passOn before scan' after ticket).first.map Timeout.core) now count due moved
      cancelled := by
  have hdelta : scan'.tDelta = scan.tDelta := congrArg Prod.fst hcore
  unfold Timedata.passOn
  by_cases hout : ticket = 0 ∧ before ≠ []
  swap
  · rw [if_neg hout]
    obtain ⟨hr, hf⟩ := @split_core _ _ { scan' with tTicketHolder := nextTicket ticket } _ _ hl
      hcore
    rw [hr, hf]
    exact h
  rw [if_pos hout]
  unfold Timedata.split
  rcases run_or_first hl with ⟨r₂, hr, rfl⟩ | ⟨b₂, rfl, hf⟩
  · -- the cell has been set off, and has no distance
    have hidle := core_idle h.idle
    have h0 : scan.tDelta = 0 := hidle scan (by rw [hr]; simp)
    have hlen : td.run.length = (before ++ r₂).length + 1 := by
      rw [hr]
      simp
      omega
    have hlt : before.length < td.run.length := by
      rw [hlen, List.length_append]
      omega
    have hpush : (pushDelta scan'.tDelta (r₂ ++ td.first)).map Timeout.core =
        (r₂ ++ td.first).map Timeout.core := by
      rw [pushDelta_core, hdelta, h0, push_zero]
    rw [if_pos hlt, hlen]
    simp only [List.take_succ_cons, List.drop_succ_cons, List.map_cons,
      List.map_take, List.map_drop, List.map_append, hpush]
    rw [← List.append_assoc, ← List.map_append, ← @List.length_map _ _ (before ++ r₂) Timeout.core,
      List.take_left' rfl, List.drop_left' rfl]
    refine h.withRun fun c hc => ?_
    rcases List.mem_cons.mp hc with rfl | hc
    · rfl
    · obtain ⟨x, hx, rfl⟩ := List.mem_map.mp hc
      refine hidle x ?_
      rw [hr]
      simp only [List.mem_append, List.mem_cons] at hx ⊢
      tauto
  · have hge : ¬(td.run ++ b₂).length < td.run.length := by
      rw [List.length_append]
      omega
    simp only [if_neg hge, List.take_succ_cons, List.drop_succ_cons, List.append_assoc]
    rw [List.take_left' rfl, List.drop_left' rfl, List.map_cons, List.map_append, pushDelta_core,
      hdelta]
    rw [hf, List.map_append, List.map_cons] at h
    refine (h.cancel hc).withRun fun c hc => ?_
    rcases List.mem_cons.mp hc with rfl | hc
    · rfl
    · exact h.idle c hc

/-- The ticks after which a request is due. -/
theorem queue_ticks (h : 0 ≤ ticks) : (if ticks = 0 then 1 else ticks) = max ticks 1 := by
  split_ifs <;> omega

/-- **What a walk may not do**: start again with less ticks.  The ticks are not negative. -/
def Prompt (m : System) : Event → Prop
  | .queue ticks true => 0 ≤ ticks ∧ Spared (max ticks 1) (m.td.list.length + 1) m.td
  | _ => True

theorem core_serials (l : List Timeout) :
    (l.map Timeout.core).map Prod.snd = l.map Timeout.serial := by
  rw [List.map_map]
  rfl

/-- `CHECK_TIMEOUT` keeps the timeouts in order. -/
theorem check_ordered (h : m.Ordered) (hstep : m.step .check = some m') : m'.Ordered := by
  obtain ⟨h, hwait⟩ := h
  unfold System.step checkTimeout at hstep
  cases hfirst : m.td.first with
  | nil =>
    simp only [hfirst, List.drop_length, List.map_nil, List.not_mem_nil, if_false] at hstep
    cases hstep
    refine ⟨?_, hwait⟩
    simp only [hfirst, List.map_nil] at h ⊢
    refine ⟨h.idle, trivial, fun c hc => (by cases hc), fun c hc => (by cases hc), List.nodup_nil,
      fun c hc => (by cases hc), fun n hn => ?_, h.later⟩
    rcases h.kept n hn with ⟨x, hx, -⟩ | ⟨hm, hle⟩ | hm
    · cases hx
    · exact Or.inr (Or.inl ⟨hm, by omega⟩)
    · exact Or.inr (Or.inr hm)
  | cons scan list =>
    rw [hfirst, List.map_cons] at h
    by_cases hd : scan.tDelta - 1 = 0
    · simp only [hfirst, hd, if_true] at hstep
      have hcheck := h.check (c := scan.core) hd
      rw [List.takeWhile_map, List.dropWhile_map, List.map_cons, core_serials,
        show scan.core.1 - 1 = 0 from hd] at hcheck
      cases hstep
      refine ⟨?_, hwait⟩
      simp only [List.map_append, List.map_cons, List.drop_left]
      exact hcheck
    · simp only [hfirst, hd, if_false, List.drop_length, List.map_nil, List.not_mem_nil] at hstep
      have hlater := h.check_wait (c := scan.core) hd
      cases hstep
      exact ⟨hlater, hwait⟩

/-- `QUEUE_TIMEOUT` keeps the timeouts in order, when the ids are spared. -/
theorem queue_ordered (h : m.Ordered) (hok : Prompt m (.queue ticks true))
    (hstep : m.step (.queue ticks true) = some m') : m'.Ordered := by
  obtain ⟨h, hwait⟩ := h
  obtain ⟨h0, hspared⟩ := hok
  unfold System.step at hstep
  obtain ⟨⟨id, td⟩, hq, heq⟩ := Option.map_eq_some_iff.mp hstep
  unfold queueTimeout at hq
  rw [queue_ticks h0] at hq
  have hidle := core_idle h.idle
  obtain ⟨before, after, t, hrun, hfirst, hw⟩ :=
    idScan_spec hidle (by omega) hspared hq
  have hne : ∀ c ∈ m.td.first, c.serial ≠ m.count :=
    fun c hc => (h.fresh c.core (List.mem_map_of_mem hc)).ne
  have hnat : ((m.now + (max ticks 1).toNat : ℕ) : ℤ) = m.now + max ticks 1 := by
    push_cast
    omega
  obtain ⟨hdelta, hserials⟩ := walk_place (n := m.count)
    (fun c => ((Function.update m.due m.count (m.now + (max ticks 1).toNat) c.2 : ℕ) : ℤ))
    hw (by omega) h.delta (fun d => by rw [Function.update_self]; exact hnat)
    fun c hc d => by rw [Function.update_of_ne (hne c hc)]; rfl
  cases heq
  refine ⟨?_, hwait⟩
  simp only [hrun, hfirst, List.map_append, List.map_cons]
  refine h.insert ?_ hdelta (by omega)
  rw [← List.map_append, core_serials, core_serials, hserials]

/-- `untimeout` keeps the timeouts in order. -/
theorem untimeout_ordered (h : m.Ordered) (hstep : m.step (.untimeout id) = some m') :
    m'.Ordered := by
  obtain ⟨h, hwait⟩ := h
  unfold System.step untimeout at hstep
  simp only at hstep
  cases hf : findCell (fun c => c.tId = id) m.td.list with
  | none =>
    rw [hf] at hstep
    cases hstep
    exact ⟨h, hwait⟩
  | some r =>
    obtain ⟨before, scan, after⟩ := r
    obtain ⟨hl, -⟩ := findCell_spec hf
    rw [hf] at hstep
    simp only at hstep
    have hmark := h.mark scan.serial
    have hwaiting : ∀ w ∈ m.waiting, Function.update m.cancelled scan.serial true w.1 = true := by
      intro w hw
      rw [Function.update_apply]
      split_ifs
      · rfl
      · exact hwait w hw
    by_cases htaken : scan.tTicket ≠ scan.tTicketHolder
    · simp only [if_pos htaken] at hstep
      cases hstep
      obtain ⟨hr, hf⟩ := @split_core _ _ { scan with tTicket := nextTicket scan.tTicket } _ _ hl rfl
      refine ⟨?_, fun w hw => ?_⟩
      · simp only [hr, hf]
        exact hmark
      · simp only [Option.toList_some, List.map_cons, List.map_nil, List.mem_append,
          List.mem_singleton] at hw
        rcases hw with hw | rfl
        · exact hwaiting w hw
        · exact Function.update_self _ _ _
    · simp only [if_neg htaken] at hstep
      cases hstep
      refine ⟨passOn_timely { scan with tTicket := nextTicket scan.tTicket } hl rfl hmark
        (Function.update_self _ _ _) scan.tTicket, fun w hw => ?_⟩
      simp only [Option.toList_none, List.map_nil, List.append_nil] at hw
      exact hwaiting w hw

/-- The end of an `untimeout` that has waited. -/
theorem resume_ordered {i : ℕ} (h : m.Ordered) (hstep : m.step (.resume i) = some m') :
    m'.Ordered := by
  obtain ⟨h, hwait⟩ := h
  unfold System.step at hstep
  simp only at hstep
  cases hw : m.waiting[i]? with
  | none =>
    rw [hw] at hstep
    cases hstep
  | some w =>
    obtain ⟨serial, ticket⟩ := w
    rw [hw] at hstep
    obtain ⟨td, hrest, rfl⟩ := Option.map_eq_some_iff.mp hstep
    unfold untimeoutRest at hrest
    cases hf : findCell (fun c => c.serial = serial) m.td.list with
    | none =>
      rw [hf] at hrest
      cases hrest
    | some r =>
      obtain ⟨before, scan, after⟩ := r
      obtain ⟨hl, hs⟩ := findCell_spec hf
      obtain rfl := of_decide_eq_true hs
      rw [hf] at hrest
      simp only at hrest
      split_ifs at hrest
      cases hrest
      exact ⟨passOn_timely _ hl rfl h (hwait _ (List.mem_of_getElem? hw)) ticket,
        fun w hw => hwait w (List.mem_of_mem_eraseIdx hw)⟩

/-- A cell that has been set off is changed. -/
theorem run_ordered (h : m.Ordered) {before after : List Timeout}
    (hrun : m.td.run = before ++ scan :: after) (hcore : scan'.core = scan.core) :
    ({ m with td := { m.td with run := before ++ scan' :: after } } : System).Ordered := by
  refine ⟨?_, h.waiting⟩
  have hsame : (before ++ scan' :: after).map Timeout.core = m.td.run.map Timeout.core := by
    rw [hrun]
    simp [hcore]
  simp only [hsame]
  exact h.timely

/-- **Every call** keeps the timeouts in order. -/
theorem System.Ordered.step (h : m.Ordered) (hok : Prompt m e) (hstep : m.step e = some m') :
    m'.Ordered := by
  cases e with
  | queue ticks alloc =>
    cases alloc with
    | false =>
      cases hstep
      exact h
    | true => exact queue_ordered h hok hstep
  | check => exact check_ordered h hstep
  | untimeout id => exact untimeout_ordered h hstep
  | resume i => exact resume_ordered h hstep
  | begin serial =>
    obtain ⟨td, hb, rfl⟩ := Option.map_eq_some_iff.mp hstep
    unfold DdiTime.begin at hb
    cases hf : findCell (fun c => c.serial = serial) m.td.run with
    | none =>
      rw [hf] at hb
      cases hb
    | some r =>
      obtain ⟨before, scan, after⟩ := r
      rw [hf] at hb
      simp only at hb
      split_ifs at hb
      cases hb
      exact run_ordered h (findCell_spec hf).1 rfl
  | finish serial =>
    obtain ⟨td, hb, rfl⟩ := Option.map_eq_some_iff.mp hstep
    unfold DdiTime.finish at hb
    cases hf : findCell (fun c => c.serial = serial) m.td.run with
    | none =>
      rw [hf] at hb
      cases hb
    | some r =>
      obtain ⟨before, scan, after⟩ := r
      rw [hf] at hb
      simp only at hb
      split_ifs at hb
      cases hb
      exact run_ordered h (findCell_spec hf).1 rfl
  | reap =>
    cases hstep
    refine ⟨h.timely.withRun fun c hc => h.timely.idle c ?_, h.waiting⟩
    exact ((List.dropWhile_sublist _).map _).subset hc

end CohKernel.DdiTime
