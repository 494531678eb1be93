import CohKernel.Mblk.Safe

namespace CohKernel.Mblk

open CohKernel.Lib

/-!
# Sequences of message operations

* `messages_sound` — pieces of the heap are returned once, when nothing refers to them any more;
* `pullupmsg_frees` — `pullupmsg` returns a triple whose data block is in use.
-/

variable {s s' : State} {es : List Event} {op : Op}

/-- All steps of a list do what the blocks are made for. -/
def Meets : State → List Event → Prop
  | _, [] => True
  | s, e :: es => Ok s e ∧ match step s e with | none => True | some s' => Meets s' es

/-- All steps of an operation do. -/
def OpOk (s : State) (op : Op) : Prop := ∀ es, trace s op = some es → Meets s es

theorem Inv.run (h : Inv s) (hok : Meets s es) (hs : runFrom Mblk.step s es = some s') :
    Inv s' := by
  induction es generalizing s with
  | nil =>
    cases hs
    exact h
  | cons e es ih =>
    obtain ⟨t, ht, hs⟩ := Option.bind_eq_some_iff.mp hs
    obtain ⟨hfirst, hrest⟩ := hok
    rw [ht] at hrest
    exact ih (h.step hfirst ht) hrest hs

theorem Inv.initial (h : Initial s) : Inv s := by
  obtain ⟨hheap, hlive, hgiven, hcalls, hcomplaints⟩ := h
  have hpieces : s.pieces = [] := by
    unfold State.pieces
    rw [hheap]
    rfl
  refine ⟨⟨?_, ?_, ?_, ?_, ?_, ?_, fun r => ?_, hcomplaints⟩, ?_⟩
  · rw [hpieces]
    exact List.nodup_nil
  · rw [hlive]
    exact List.nodup_nil
  · simp [hlive]
  · simp [hlive]
  · simp [hheap]
  · simp [hpieces]
  · rw [hgiven, hcalls, hheap]
    rfl
  · simp [hpieces]

/-- What is promised of the message heap. -/
structure Sound (s : State) : Prop where
  /-- No piece has been returned twice, or with another size than it was allocated with. -/
  returned : s.complaints = 0
  /-- A message block that has been obtained and not been freed is in memory that is allocated, and
      so is the data block that it refers to. -/
  used : ∀ p ∈ s.live, p ∈ s.pieces ∧ ∃ q ∈ s.pieces, (s.msgb p).bDatap = mbToDb q
  /-- A piece that has not been returned has such a message block, or a data block that such a
      message block refers to. -/
  needed : ∀ p ∈ s.pieces, p ∈ s.live ∨ ∃ m ∈ s.live, (s.msgb m).bDatap = mbToDb p
  /-- A free routine has been called as many times as it was given for buffers that are not used any
      more. -/
  called : ∀ r, s.given.count r = s.calls.count r + s.heap.countP (s.attached r)
  /-- These have no reference left. -/
  external : ∀ r, ∀ b ∈ s.heap, s.attached r b = true →
    ∃ m ∈ s.live, (s.msgb m).bDatap = mbToDb b.1

/-- **Message blocks** share memory safely in the runs whose steps do what the blocks are made
    for. -/
theorem messages_sound (h : Reach Initial opStep OpOk s) : Sound s := by
  have hinv : Inv s := by
    refine h.invariant (fun _ => Inv.initial) fun s op s' h hok hs => ?_
    obtain ⟨es, hes, hrun⟩ := Option.bind_eq_some_iff.mp hs
    exact h.run (hok es hes) hrun
  have href {db : ℕ} (hpos : 0 < s.refs db) : ∃ m ∈ s.live, (s.msgb m).bDatap = db := by
    obtain ⟨m, hm, hd⟩ := List.countP_pos_iff.mp hpos
    exact ⟨m, hm, of_decide_eq_true hd⟩
  refine ⟨hinv.complaints, fun p hp => ?_, fun p hp => ?_, hinv.calls, fun r b hb hr => ?_⟩
  · obtain ⟨q, hq, hdatap, -⟩ := hinv.data p hp
    exact ⟨hinv.memory p hp, q, hq, hdatap⟩
  · have hneeded := hinv.needed p hp
    by_cases htriple : (s.msgb p).IsTriple
    · exact (hneeded.triple htriple).imp_right href
    · exact Or.inl (hneeded.alone htriple)
  · unfold State.attached at hr
    obtain ⟨htriple, hext, -⟩ := of_decide_eq_true hr
    exact href ((hinv.needed b.1 (List.mem_map_of_mem hb)).external htriple hext)

/-! ### Two messages -/

/-- No memory is allocated. -/
def empty : State where
  heap := []
  msgb := fun _ => ⟨none, 0, 0, 0, 0⟩
  datab := fun _ => ⟨none, 0, 0, 0, 0⟩
  live := []
  given := []
  calls := []
  complaints := 0

theorem empty_initial : Initial empty := ⟨rfl, rfl, rfl, rfl, rfl⟩

/-- An external buffer with two message blocks, the first of which has been freed. -/
def shared : State := ((empty.esballoc 9000 64 (some 7) 1024).dupb 1024 2048 0).freeb 1024

/-- The routine is called when the second one is freed. -/
theorem messages_sound_shared : shared.calls = [] ∧ shared.heap.length = 2 ∧
    (shared.freeb 2048).calls = [7] ∧ (shared.freeb 2048).heap = [] ∧
    Sound (shared.freeb 2048) := by
  have hfirst : Reach Initial opStep OpOk (empty.esballoc 9000 64 (some 7) 1024) := by
    refine (Reach.init empty_initial).step (e := .esballoc 9000 64 (some 7) (some (1024, 0))) ?_ rfl
    rintro es ⟨⟩
    exact ⟨by show (9000 : ℕ) ≠ _; decide, trivial⟩
  have hdup : Reach Initial opStep OpOk
      ((empty.esballoc 9000 64 (some 7) 1024).dupb 1024 2048 0) := by
    refine hfirst.step (e := .dupb 1024 (some (2048, 0))) ?_ rfl
    rintro es ⟨⟩
    exact ⟨⟨by decide, by decide⟩, trivial⟩
  have hshared : Reach Initial opStep OpOk shared := by
    refine hdup.step (e := .freeb 1024) ?_ rfl
    rintro es ⟨⟩
    exact ⟨fun h => absurd h (by decide), trivial⟩
  have hend : Reach Initial opStep OpOk (shared.freeb 2048) := by
    refine hshared.step (e := .freeb 2048) ?_ rfl
    rintro es ⟨⟩
    refine ⟨fun _ => ?_, trivial⟩
    rw [if_neg (by decide)]
    intro _
    decide
  exact ⟨by decide, by decide, by decide, by decide, messages_sound hend⟩

/-- **A triple that is returned while its data block is in use.**  The two blocks of a message are
    pulled up; the new message block is freed with the old data block, and its triple is returned.
    -/
theorem pullupmsg_frees :
    ∃ s : State, Reach Initial opStep (fun _ _ => True) s ∧ ¬Sound s := by
  have hrun : (runFrom opStep empty [.allocb 8 (some (1024, 0)), .allocb 4 (some (2048, 0)),
      .edit 1024 1076 1080 (some 2048) 0 M_DATA, .edit 2048 2100 2104 none 0 M_DATA,
      .pullupmsg 1024 8 [some (4096, 0), some (8192, 0)]]).any fun s =>
        decide (1024 ∈ s.live ∧ (s.msgb 1024).bDatap = mbToDb 4096 ∧ 4096 ∉ s.pieces) := by
    decide +kernel
  obtain ⟨s, hs, h⟩ := (Option.any_eq_true _ _).mp hrun
  obtain ⟨hlive, hdatap, hpieces⟩ := of_decide_eq_true h
  refine ⟨s, Reach.run (fun _ _ => trivial) (Reach.init empty_initial) hs, fun hsound => ?_⟩
  obtain ⟨-, q, hq, heq⟩ := hsound.used 1024 hlive
  rw [hdatap, mbToDb_inj] at heq
  exact hpieces (heq ▸ hq)

end CohKernel.Mblk
