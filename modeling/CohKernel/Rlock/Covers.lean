import CohKernel.Rlock.Defs

namespace CohKernel.Rlock

/-!
# What a list of record locks covers

* `Holds list p w x` — process `p` has a lock of type `w` on offset `x`; `remlock_shrunk` and
  `addlock_holds` say how the two list operations change it;
* `meets_iff` — the test of `nextmeet` decides overlapping;
* `CutsBehindLast`, `SetsBehindLast` — when the start of what is left of a lock wraps around.
-/

/-- The largest `long`. -/
def longMax : ℤ := 2 ^ 31 - 1

theorem long_eq {z : ℤ} (h0 : -2 ^ 31 ≤ z) (h1 : z ≤ longMax) : long z = z := by
  unfold long longMax at *
  omega

/-- The lock covers offset `x`. -/
def Covers (l : RLock) (x : ℤ) : Prop := l.rlStart ≤ x ∧ (l.rlEnd = -1 ∨ x ≤ l.rlEnd)

/-- Process `p` has a lock of type `w` on offset `x`. -/
def Holds (list : List RLock) (p : ℕ) (w : Bool) (x : ℤ) : Prop :=
  ∃ l ∈ list, l.rlProc = p ∧ l.rlType = w ∧ Covers l x

/-- The range of a lock that `rlock` accepts. -/
structure ValidRange (l : RLock) : Prop where
  start : 0 ≤ l.rlStart ∧ l.rlStart ≤ longMax
  stop : l.rlEnd = -1 ∨ (l.rlStart ≤ l.rlEnd ∧ l.rlEnd ≤ longMax)

/-- Two locks overlap when some offset is covered by both. -/
def Overlap (a b : RLock) : Prop := ∃ x, Covers a x ∧ Covers b x

/-- No two processes hold overlapping ranges of which one is a write lock. -/
def Exclusive (list : List RLock) : Prop :=
  ∀ a ∈ list, ∀ b ∈ list, a.rlProc ≠ b.rlProc → (a.rlType = true ∨ b.rlType = true) →
    ¬ Overlap a b

variable {list : List RLock} {lock : RLock} {freerl : List ℕ} {p : ℕ} {w : Bool} {x : ℤ}

theorem holds_cons {b : RLock} : Holds (b :: list) p w x ↔
    (b.rlProc = p ∧ b.rlType = w ∧ Covers b x) ∨ Holds list p w x := by
  unfold Holds
  constructor
  · rintro ⟨l, hl, h⟩
    rcases List.mem_cons.mp hl with rfl | hl
    · exact Or.inl h
    · exact Or.inr ⟨l, hl, h⟩
  · rintro (h | ⟨l, hl, h⟩)
    · exact ⟨b, List.mem_cons_self, h⟩
    · exact ⟨l, List.mem_cons_of_mem _ hl, h⟩

/-- Exclusion, offset by offset. -/
theorem exclusive_iff : Exclusive list ↔ ∀ p p' w w' x, p ≠ p' → Holds list p w x →
    Holds list p' w' x → w = false ∧ w' = false := by
  constructor
  · rintro h p p' w w' x hne ⟨a, ha, rfl, rfl, hax⟩ ⟨b, hb, rfl, rfl, hbx⟩
    by_contra hcon
    refine h a ha b hb hne ?_ ⟨x, hax, hbx⟩
    cases hat : a.rlType <;> cases hbt : b.rlType <;> simp_all
  · rintro h a ha b hb hne htype ⟨x, hax, hbx⟩
    obtain ⟨h1, h2⟩ := h _ _ _ _ x hne ⟨a, ha, rfl, rfl, hax⟩ ⟨b, hb, rfl, rfl, hbx⟩
    rcases htype with ht | ht <;> simp_all

/-- The test of `nextmeet` decides overlapping. -/
theorem meets_iff (hl : ValidRange lock) {b : RLock} (hb : ValidRange b) :
    meets lock b = true ↔ Overlap lock b := by
  obtain ⟨⟨hl0, -⟩, hls⟩ := hl
  obtain ⟨⟨hb0, -⟩, hbs⟩ := hb
  unfold Overlap Covers meets
  constructor
  · intro h
    refine ⟨max lock.rlStart b.rlStart, ?_⟩
    split_ifs at h with hend <;> rw [decide_eq_true_eq] at h <;> omega
  · rintro ⟨x, ⟨h1, h2⟩, h3, h4⟩
    split_ifs with hend <;> rw [decide_eq_true_eq] <;> omega

/-- No lock found by `nextblock` means that none of them blocks. -/
theorem nextblock_eq_nil : nextblock lock list = [] ↔ ∀ b ∈ list, blocks lock b = false := by
  induction list with
  | nil => simp [nextblock]
  | cons b rest ih =>
    rw [nextblock]
    by_cases hb : blocks lock b = true
    · simp [hb]
    · simp only [Bool.not_eq_true] at hb
      simp [hb, ih]

/-! ### Removing a range -/

/-- Cutting `lock` out of `list` wraps around: it ends at the last offset, and one of the locks
    of its process that it meets runs to the end of the file. -/
def CutsBehindLast (lock : RLock) (list : List RLock) : Prop :=
  lock.rlEnd = longMax ∧ ∃ b ∈ list, b.rlProc = lock.rlProc ∧ b.rlEnd = -1 ∧ meets lock b = true

/-- `b'` is a valid lock of the same process and type that covers nothing that `b` does not. -/
structure Piece (b' b : RLock) : Prop where
  valid : ValidRange b'
  proc : b'.rlProc = b.rlProc
  type : b'.rlType = b.rlType
  covers : ∀ x, Covers b' x → Covers b x

/-- The part of `b` before `stop + 1` is gone. -/
theorem piece_back {b : RLock} (hb : ValidRange b) {a : ℕ} {stop : ℤ} (h0 : b.rlStart ≤ stop + 1)
    (h1 : stop < longMax) (hend : b.rlEnd = -1 ∨ stop < b.rlEnd) :
    Piece { entry := a, rlType := b.rlType, rlStart := long (stop + 1), rlEnd := b.rlEnd,
            rlProc := b.rlProc } b := by
  obtain ⟨⟨hb0, -⟩, hbs⟩ := hb
  have hlong : long (stop + 1) = stop + 1 := long_eq (by omega) (by omega)
  rw [hlong]
  refine ⟨⟨⟨by simp only; omega, by simp only; omega⟩, ?_⟩, rfl, rfl, fun y hy => ⟨?_, hy.2⟩⟩
  · simp only
    omega
  · have := hy.1
    simp only at this
    omega

/-- The part of `b` from `start` on is gone. -/
theorem piece_front {b : RLock} (hb : ValidRange b) {start : ℤ} (h0 : b.rlStart < start)
    (h1 : start ≤ longMax) (hend : b.rlEnd = -1 ∨ start ≤ b.rlEnd) :
    Piece { b with rlEnd := long (start - 1) } b := by
  obtain ⟨⟨hb0, hb1⟩, hbs⟩ := hb
  have hlong : long (start - 1) = start - 1 := long_eq (by omega) (by omega)
  rw [hlong]
  refine ⟨⟨⟨hb0, hb1⟩, Or.inr ⟨by simp only; omega, by simp only; omega⟩⟩, rfl, rfl,
    fun y hy => ⟨hy.1, ?_⟩⟩
  have := hy.2
  simp only at this
  omega

/-- The locks `extract` leaves behind are pieces of the old one. -/
theorem extract_keep (hl : ValidRange lock) {b b' : RLock} (hb : ValidRange b)
    (hm : meets lock b = true) (hcut : ¬(lock.rlEnd = longMax ∧ b.rlEnd = -1))
    (h : extract b lock freerl = .keep b') : Piece b' b := by
  obtain ⟨x, ⟨h1, h2⟩, h3, h4⟩ := (meets_iff hl hb).mp hm
  obtain ⟨⟨hl0, hl1⟩, hls⟩ := hl
  have hbs := hb.stop
  unfold extract at h
  by_cases hle : lock.rlStart ≤ b.rlStart
  · rw [if_pos hle] at h
    split_ifs at h with hfree
    cases h
    exact piece_back hb (by omega) (by omega) (by omega)
  · rw [if_neg hle] at h
    by_cases hfree : lock.rlEnd = -1 ∨ (b.rlEnd ≠ -1 ∧ lock.rlEnd ≥ b.rlEnd)
    · simp only [if_pos hfree] at h
      cases h
      exact piece_front hb (by omega) (by omega) (by omega)
    · simp only [if_neg hfree] at h
      cases freerl <;> cases h

theorem extract_split (hl : ValidRange lock) {b b' n : RLock} {freerl' : List ℕ}
    (hb : ValidRange b) (hm : meets lock b = true)
    (hcut : ¬(lock.rlEnd = longMax ∧ b.rlEnd = -1))
    (h : extract b lock freerl = .split b' n freerl') :
    Piece b' b ∧ Piece n b ∧ meets lock n = false ∧ freerl'.length + 1 = freerl.length := by
  obtain ⟨x, ⟨h1, h2⟩, h3, h4⟩ := (meets_iff hl hb).mp hm
  obtain ⟨⟨hl0, hl1⟩, hls⟩ := hl
  have hbs := hb.stop
  unfold extract at h
  by_cases hle : lock.rlStart ≤ b.rlStart
  · rw [if_pos hle] at h
    split_ifs at h
  · rw [if_neg hle] at h
    by_cases hfree : lock.rlEnd = -1 ∨ (b.rlEnd ≠ -1 ∧ lock.rlEnd ≥ b.rlEnd)
    · simp only [if_pos hfree] at h
      cases h
    · simp only [if_neg hfree] at h
      cases freerl with
      | nil => cases h
      | cons a freerl =>
        cases h
        refine ⟨piece_front hb (by omega) (by omega) (by omega),
          piece_back hb (by omega) (by omega) (by omega), ?_, rfl⟩
        have hlong : long (lock.rlEnd + 1) = lock.rlEnd + 1 := long_eq (by omega) (by omega)
        rw [meets, if_neg (by omega), hlong, decide_eq_false_iff_not]
        simp only
        omega

/-- A list that another one is made from by cutting locks down. -/
structure Shrunk (list' list : List RLock) : Prop where
  valid : ∀ b ∈ list', ValidRange b
  holds : ∀ p w x, Holds list' p w x → Holds list p w x

theorem Shrunk.refl (h : ∀ b ∈ list, ValidRange b) : Shrunk list list := ⟨h, fun _ _ _ h => h⟩

theorem Shrunk.cons {list' : List RLock} {b b' : RLock} (h : Shrunk list' list)
    (hb : Piece b' b) : Shrunk (b' :: list') (b :: list) := by
  refine ⟨?_, fun p w x hx => ?_⟩
  · intro c hc
    rcases List.mem_cons.mp hc with rfl | hc
    · exact hb.valid
    · exact h.valid c hc
  · rw [holds_cons] at hx ⊢
    rcases hx with ⟨hp, hw, hc⟩ | hx
    · exact Or.inl ⟨hb.proc ▸ hp, hb.type ▸ hw, hb.covers x hc⟩
    · exact Or.inr (h.holds p w x hx)

theorem Shrunk.drop {list' : List RLock} {b : RLock} (h : Shrunk list' list) :
    Shrunk list' (b :: list) :=
  ⟨h.valid, fun p w x hx => holds_cons.mpr (Or.inr (h.holds p w x hx))⟩

/-- **`remlock`** returns, and only cuts the locks of the list down. -/
theorem remlockLoop_shrunk (hl : ValidRange lock) : ∀ (fuel : ℕ) (list : List RLock)
    (freerl : List ℕ), 2 * list.length + freerl.length < fuel →
    (∀ b ∈ list, ValidRange b) → ¬ CutsBehindLast lock list →
    ∃ r list' freerl', remlockLoop lock fuel list freerl = some (r, list', freerl') ∧
      Shrunk list' list := by
  intro fuel
  induction fuel with
  | zero => intro list freerl hf; omega
  | succ fuel ih =>
    intro list freerl hf hv hcut
    cases list with
    | nil => exact ⟨0, [], freerl, rfl, Shrunk.refl hv⟩
    | cons b rest =>
      rw [List.length_cons] at hf
      have hb := hv b List.mem_cons_self
      have hrest : ∀ c ∈ rest, ValidRange c := fun c hc => hv c (List.mem_cons_of_mem _ hc)
      have hcrest : ¬ CutsBehindLast lock rest := fun hc =>
        hcut ⟨hc.1, hc.2.imp fun c hc => ⟨List.mem_cons_of_mem _ hc.1, hc.2⟩⟩
      have hbb : Piece b b := ⟨hb, rfl, rfl, fun _ h => h⟩
      unfold remlockLoop
      by_cases hskip : meets lock b = false ∨ b.rlProc ≠ lock.rlProc
      · obtain ⟨r, l', f', hr, hs⟩ := ih rest freerl (by omega) hrest hcrest
        rw [if_pos hskip, hr]
        exact ⟨r, b :: l', f', rfl, hs.cons hbb⟩
      · rw [if_neg hskip]
        obtain ⟨hm, hp⟩ := not_or.mp hskip
        simp only [Bool.not_eq_false, not_not] at hm hp
        have hnc : ¬(lock.rlEnd = longMax ∧ b.rlEnd = -1) := fun hc =>
          hcut ⟨hc.1, b, List.mem_cons_self, hp, hc.2, hm⟩
        cases hx : extract b lock freerl with
        | free =>
          obtain ⟨r, l', f', hr, hs⟩ := ih rest (b.entry :: freerl)
            (by rw [List.length_cons]; omega) hrest hcrest
          exact ⟨r, l', f', hr, hs.drop⟩
        | keep b' =>
          obtain ⟨r, l', f', hr, hs⟩ := ih rest freerl (by omega) hrest hcrest
          simp only [hr]
          exact ⟨r, b' :: l', f', rfl, hs.cons (extract_keep hl hb hm hnc hx)⟩
        | split b' n freerl' =>
          obtain ⟨hb', hn, hmn, hlen⟩ := extract_split hl hb hm hnc hx
          obtain ⟨r, l', f', hr, hs⟩ := ih (n :: rest) freerl'
            (by rw [List.length_cons]; omega)
            (by
              intro c hc
              rcases List.mem_cons.mp hc with rfl | hc
              · exact hn.valid
              · exact hrest c hc)
            (by
              rintro ⟨he, c, hc, hcp, hce, hcm⟩
              rcases List.mem_cons.mp hc with rfl | hc
              · rw [hmn] at hcm
                cases hcm
              · exact hcrest ⟨he, c, hc, hcp, hce, hcm⟩)
          simp only [hr]
          refine ⟨r, b' :: l', f', rfl, ⟨(hs.cons hb').valid, fun p w x hx => ?_⟩⟩
          -- both pieces of `b` are in `b`
          rw [holds_cons] at hx ⊢
          rcases hx with ⟨hp', hw, hc⟩ | hx
          · exact Or.inl ⟨hb'.proc ▸ hp', hb'.type ▸ hw, hb'.covers x hc⟩
          · rcases holds_cons.mp (hs.holds p w x hx) with ⟨hp', hw, hc⟩ | hx'
            · exact Or.inl ⟨hn.proc ▸ hp', hn.type ▸ hw, hn.covers x hc⟩
            · exact Or.inr hx'
        | fail => exact ⟨-1, b :: rest, freerl, rfl, Shrunk.refl hv⟩

theorem remlock_shrunk (hl : ValidRange lock) (hv : ∀ b ∈ list, ValidRange b)
    (hcut : ¬ CutsBehindLast lock list) :
    ∃ r list' freerl', remlock list lock freerl = some (r, list', freerl') ∧ Shrunk list' list :=
  remlockLoop_shrunk hl _ list freerl (by omega) hv hcut

/-! ### Adding a range -/

/-- A lock that meets the widened request overlaps or touches the request. -/
theorem touches_of_meets (hl : ValidRange lock) {b : RLock} (hb : ValidRange b)
    (hm : meets (widen lock) b = true) :
    (b.rlEnd = -1 ∨ lock.rlStart ≤ b.rlEnd + 1) ∧
      (lock.rlEnd = -1 ∨ b.rlStart ≤ lock.rlEnd + 1) := by
  obtain ⟨⟨hl0, hl1⟩, hls⟩ := hl
  obtain ⟨⟨hb0, hb1⟩, hbs⟩ := hb
  have hstart : lock.rlStart - 1 ≤ (widen lock).rlStart := by
    unfold widen
    simp only
    split_ifs with h
    · rw [long_eq (by omega) (by omega)]
    · omega
  have hstop : (widen lock).rlEnd = -1 ∧ lock.rlEnd = -1 ∨
      (widen lock).rlEnd ≠ -1 ∧ (widen lock).rlEnd ≤ lock.rlEnd + 1 := by
    unfold widen
    simp only
    by_cases h : lock.rlEnd = -1
    · rw [if_neg (not_not.mpr h)]
      exact Or.inl ⟨h, h⟩
    · rw [if_pos h]
      right
      -- at the last offset the end wraps to the smallest `long`
      unfold long longMax at *
      omega
  rw [meets] at hm
  split_ifs at hm with hend <;> rw [decide_eq_true_eq] at hm <;> omega

/-- The test of `addlock`'s loop: `b` is a neighbour of `lock` of the same owner and type. -/
def Merges (lock b : RLock) : Prop :=
  meets (widen lock) b = true ∧ b.rlProc = lock.rlProc ∧ b.rlType = lock.rlType

theorem mergeLoop_merges {b : RLock} (hm : Merges lock b) (top bot : ℤ) :
    mergeLoop (widen lock) (b :: list) top bot freerl =
      mergeLoop (widen lock) list (if b.rlStart < top then b.rlStart else top)
        (if bot ≠ -1 ∧ (b.rlEnd = -1 ∨ b.rlEnd ≥ bot) then b.rlEnd else bot)
        (b.entry :: freerl) := by
  rw [mergeLoop]
  exact if_pos hm

theorem mergeLoop_skips {b : RLock} (hm : ¬ Merges lock b) (top bot : ℤ) :
    mergeLoop (widen lock) (b :: list) top bot freerl =
      ((mergeLoop (widen lock) list top bot freerl).1,
        (mergeLoop (widen lock) list top bot freerl).2.1,
        b :: (mergeLoop (widen lock) list top bot freerl).2.2.1,
        (mergeLoop (widen lock) list top bot freerl).2.2.2) := by
  rw [mergeLoop]
  exact if_neg hm

/-- **The loop of `addlock`.**  `seen` are the locks it has already merged or kept. -/
theorem mergeLoop_merged (hl : ValidRange lock) : ∀ (list : List RLock) (top bot : ℤ)
    (freerl : List ℕ) (seen : List RLock), (∀ b ∈ list, ValidRange b) →
    0 ≤ top → top ≤ lock.rlStart → (bot = -1 ∨ (lock.rlEnd ≠ -1 ∧ lock.rlEnd ≤ bot)) →
    (bot = -1 ∨ bot ≤ longMax) →
    (∀ x, top ≤ x → (bot = -1 ∨ x ≤ bot) →
      Covers lock x ∨ Holds seen lock.rlProc lock.rlType x) →
    ∃ top' bot' rest freerl', mergeLoop (widen lock) list top bot freerl
        = (top', bot', rest, freerl') ∧ 0 ≤ top' ∧ top' ≤ lock.rlStart ∧
      (bot' = -1 ∨ (lock.rlEnd ≠ -1 ∧ lock.rlEnd ≤ bot')) ∧ (bot' = -1 ∨ bot' ≤ longMax) ∧
      (∀ b ∈ rest, b ∈ list) ∧
      (∀ x, top' ≤ x → (bot' = -1 ∨ x ≤ bot') →
        Covers lock x ∨ Holds (seen ++ list) lock.rlProc lock.rlType x) := by
  intro list
  induction list with
  | nil =>
    intro top bot freerl seen _ h0 hts hbe hbm hcov
    exact ⟨top, bot, [], freerl, rfl, h0, hts, hbe, hbm, fun b hb => hb,
      by rw [List.append_nil]; exact hcov⟩
  | cons b rest ih =>
    intro top bot freerl seen hv h0 hts hbe hbm hcov
    have hb := hv b List.mem_cons_self
    have hrest : ∀ c ∈ rest, ValidRange c := fun c hc => hv c (List.mem_cons_of_mem _ hc)
    have happ : seen ++ b :: rest = (seen ++ [b]) ++ rest := by
      rw [List.append_assoc, List.singleton_append]
    have hseen : ∀ {x}, Holds seen lock.rlProc lock.rlType x →
        Holds (seen ++ [b]) lock.rlProc lock.rlType x :=
      fun ⟨c, hc, h⟩ => ⟨c, List.mem_append_left _ hc, h⟩
    by_cases hm : Merges lock b
    · rw [mergeLoop_merges hm, happ]
      obtain ⟨hmeet, hproc, htype⟩ := hm
      obtain ⟨ht1, ht2⟩ := touches_of_meets hl hb hmeet
      obtain ⟨⟨hb0, hb1⟩, hbs⟩ := hb
      obtain ⟨top', bot', rest', f', hr, h1, h2, h3, h4, h5, h6⟩ := ih
        (if b.rlStart < top then b.rlStart else top)
        (if bot ≠ -1 ∧ (b.rlEnd = -1 ∨ b.rlEnd ≥ bot) then b.rlEnd else bot)
        (b.entry :: freerl) (seen ++ [b]) hrest (by split_ifs <;> omega)
        (by split_ifs <;> omega) (by split_ifs <;> omega) (by split_ifs <;> omega)
        (by
          intro x hx1 hx2
          by_cases hbx : Covers b x
          · exact Or.inr ⟨b, List.mem_append_right _ List.mem_cons_self, hproc, htype, hbx⟩
          · refine (hcov x ?_ ?_).imp id hseen <;> unfold Covers at hbx <;>
              split_ifs at hx1 hx2 <;> omega)
      exact ⟨top', bot', rest', f', hr, h1, h2, h3, h4,
        fun c hc => List.mem_cons_of_mem _ (h5 c hc), h6⟩
    · obtain ⟨top', bot', rest', f', hr, h1, h2, h3, h4, h5, h6⟩ :=
        ih top bot freerl (seen ++ [b]) hrest h0 hts hbe hbm
          (fun x hx1 hx2 => (hcov x hx1 hx2).imp id hseen)
      rw [mergeLoop_skips hm, hr, happ]
      refine ⟨top', bot', b :: rest', f', rfl, h1, h2, h3, h4, ?_, h6⟩
      intro c hc
      rcases List.mem_cons.mp hc with rfl | hc
      · exact List.mem_cons_self
      · exact List.mem_cons_of_mem _ (h5 c hc)

/-- Installing `lock` wraps around: with its neighbours of the same type it ends at the last
    offset, while a lock of its process runs to the end of the file. -/
def SetsBehindLast (lock : RLock) (list : List RLock) : Prop :=
  (lock.rlEnd = longMax ∨ ∃ b ∈ list, Merges lock b ∧ b.rlEnd = longMax) ∧
    lock.rlEnd ≠ -1 ∧ (∀ b ∈ list, Merges lock b → b.rlEnd ≠ -1) ∧
    ∃ b ∈ list, b.rlProc = lock.rlProc ∧ b.rlEnd = -1

/-- Where the merged lock can end at the last offset. -/
theorem mergeLoop_stop (lock : RLock) : ∀ (list : List RLock) (top bot : ℤ) (freerl : List ℕ),
    (mergeLoop (widen lock) list top bot freerl).2.1 = longMax →
    (bot = longMax ∨ ∃ b ∈ list, Merges lock b ∧ b.rlEnd = longMax) ∧ bot ≠ -1 ∧
      ∀ b ∈ list, Merges lock b → b.rlEnd ≠ -1 := by
  intro list
  induction list with
  | nil =>
    intro top bot freerl h
    have hbot : bot = longMax := h
    exact ⟨Or.inl hbot, by unfold longMax at hbot; omega, fun b hb => by cases hb⟩
  | cons b rest ih =>
    intro top bot freerl h
    by_cases hm : Merges lock b
    · rw [mergeLoop_merges hm] at h
      obtain ⟨h1, h2, h3⟩ := ih _ _ _ h
      refine ⟨?_, ?_, ?_⟩
      · rcases h1 with h1 | ⟨c, hc, h1⟩
        · split_ifs at h1 with hbot
          · exact Or.inr ⟨b, List.mem_cons_self, hm, h1⟩
          · exact Or.inl h1
        · exact Or.inr ⟨c, List.mem_cons_of_mem _ hc, h1⟩
      · split_ifs at h2 with hbot
        · exact hbot.1
        · exact h2
      · intro c hc hmc
        rcases List.mem_cons.mp hc with rfl | hc
        · intro hend
          split_ifs at h2 with hbot
          · exact h2 hend
          · exact hbot ⟨h2, Or.inl hend⟩
        · exact h3 c hc hmc
    · rw [mergeLoop_skips hm] at h
      obtain ⟨h1, h2, h3⟩ := ih top bot freerl h
      refine ⟨h1.imp id fun ⟨c, hc, hmc⟩ => ⟨c, List.mem_cons_of_mem _ hc, hmc⟩, h2, ?_⟩
      intro c hc hmc
      rcases List.mem_cons.mp hc with rfl | hc
      · exact absurd hmc hm
      · exact h3 c hc hmc

/-- **`addlock`** returns; afterwards a process holds no offset that it did not hold before, but
    for the requested range. -/
theorem addlock_holds (hl : ValidRange lock) (hv : ∀ b ∈ list, ValidRange b)
    (hcut : ¬ SetsBehindLast lock list) :
    ∃ r err list' freerl', addlock list lock freerl = some (r, err, list', freerl') ∧
      (∀ b ∈ list', ValidRange b) ∧
      ∀ p w x, Holds list' p w x → Holds list p w x ∨
        (p = lock.rlProc ∧ w = lock.rlType ∧ Covers lock x) := by
  obtain ⟨top, bot, rest, f, hr, h0, hts, hbe, hbm, hsub, hcov⟩ := mergeLoop_merged hl list
    lock.rlStart lock.rlEnd freerl [] hv hl.start.1 le_rfl
    (by rcases hl.stop with h | h
        · exact Or.inl h
        · exact Or.inr ⟨by have := hl.start; omega, le_rfl⟩)
    (by rcases hl.stop with h | h
        · exact Or.inl h
        · exact Or.inr h.2)
    (fun x h1 h2 => Or.inl ⟨h1, h2⟩)
  rw [List.nil_append] at hcov
  have hvrest : ∀ b ∈ rest, ValidRange b := fun b hb => hv b (hsub b hb)
  have hkeep : ∀ p w x, Holds rest p w x → Holds list p w x :=
    fun p w x ⟨b, hb, h⟩ => ⟨b, hsub b hb, h⟩
  unfold addlock
  simp only [hr]
  cases f with
  | nil => exact ⟨-1, _, rest, [], rfl, hvrest, fun p w x h => Or.inl (hkeep p w x h)⟩
  | cons a f =>
    have hstart := hl.start
    have hstop := hl.stop
    set new : RLock := { entry := a, rlType := lock.rlType, rlProc := lock.rlProc,
                         rlStart := top, rlEnd := bot } with hnew
    have hvnew : ValidRange new := ⟨⟨h0, by simp only [hnew]; omega⟩, by
      rcases hbe with hbe | hbe
      · exact Or.inl hbe
      · right
        simp only [hnew]
        omega⟩
    have hcutnew : ¬ CutsBehindLast new rest := by
      rintro ⟨he, b, hb, hp, hbe', -⟩
      obtain ⟨h1, h2, h3⟩ := mergeLoop_stop lock list lock.rlStart lock.rlEnd freerl
        (by rw [hr]; exact he)
      exact hcut ⟨h1, h2, h3, b, hsub b hb, hp, hbe'⟩
    obtain ⟨r, list', f', hrem, hs⟩ := @remlock_shrunk _ _ f hvnew hvrest hcutnew
    refine ⟨0, if r = 0 then none else some .ENOLCK, new :: list', f', ?_, ?_, ?_⟩
    · change (remlock rest new f).bind _ = _
      rw [hrem]
      rfl
    · intro b hb
      rcases List.mem_cons.mp hb with rfl | hb
      · exact hvnew
      · exact hs.valid b hb
    · intro p w x hx
      rcases holds_cons.mp hx with ⟨rfl, rfl, hc⟩ | hx
      · rcases hcov x hc.1 hc.2 with hc | hh
        · exact Or.inr ⟨rfl, rfl, hc⟩
        · exact Or.inl hh
      · exact Or.inl (hkeep p w x (hs.holds p w x hx))

end CohKernel.Rlock
