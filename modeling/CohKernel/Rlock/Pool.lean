import CohKernel.Lib.Places
import CohKernel.Rlock.Deadlock

namespace CohKernel.Rlock

open CohKernel.Lib

/-!
# The pool of lock entries

Where the `RLOCK` structures are: on the free list, on the list of an inode, or at the `p_prl` of
a process.

* `Tables.entries` — the addresses at a place;
* `Moved` — a call or a wake-up moves entries between the free list, the list of its inode, and the
  `p_prl` of its process;
* `Placed` — every entry is in exactly one place: `Placed.unique`; `Placed.moved` keeps it so.
-/

/-! ### Places -/

/-- A place of an `RLOCK`. -/
inductive Place where
  | free
  | inode (ino : ℕ)
  | pending (p : ℕ)
deriving DecidableEq

/-- The addresses of the locks of a list. -/
def addrs (list : List RLock) : List ℕ := list.map RLock.entry

/-- The addresses of the entries at a place. -/
def Tables.entries (s : Tables) : Place → List ℕ
  | .free => s.freerl
  | .inode ino => addrs (s.rl ino)
  | .pending p => (s.prl p).toList.map fun r => r.2.entry

/-- How often an entry is at each place. -/
def Tables.copies (s : Tables) (a : ℕ) (pl : Place) : ℕ := (s.entries pl).count a

/-- Each of the `n` entries is at one place, and there are no others. -/
def Placed (n : ℕ) (s : Tables) : Prop := ∀ a, Spread (s.copies a) (if a < n then 1 else 0)

/-- Entries have moved between the free list, the list of an inode and the `p_prl` of a process. -/
structure Moved (s s' : Tables) (p ino : ℕ) : Prop where
  inode : ∀ i, i ≠ ino → s'.rl i = s.rl i
  prl : ∀ q, q ≠ p → s'.prl q = s.prl q
  pend : ∀ i rl, s'.prl p = some (i, rl) → i = ino ∨ s.prl p = some (i, rl)
  sum : ∀ a, s'.copies a .free + s'.copies a (.inode ino) + s'.copies a (.pending p) =
    s.copies a .free + s.copies a (.inode ino) + s.copies a (.pending p)

variable {n : ℕ} {s s' s'' : Tables} {self ino fuel : ℕ} {lock : RLock} {o : Outcome}

theorem rlinit_placed (n : ℕ) : Placed n (rlinit n) := by
  intro a
  have hfree : (rlinit n).copies a .free = if a < n then 1 else 0 := by
    show (List.range n).count a = _
    split_ifs with ha
    · exact List.count_eq_one_of_mem List.nodup_range (List.mem_range.mpr ha)
    · exact List.count_eq_zero.mpr fun hmem => ha (List.mem_range.mp hmem)
  rw [← hfree]
  apply Spread.single
  intro pl hpl
  cases pl with
  | free => exact absurd rfl hpl
  | inode i => rfl
  | pending p => rfl

theorem Placed.unique (h : Placed n s) {a : ℕ} (ha : a < n) : ∃! pl, a ∈ s.entries pl := by
  have hspread := h a
  rw [if_pos ha] at hspread
  obtain ⟨pl, hpl, honly⟩ := hspread.unique
  exact ⟨pl, List.count_pos_iff.mp hpl, fun pl' hpl' => honly pl' (List.count_pos_iff.mpr hpl')⟩

theorem Placed.nodup (h : Placed n s) (pl : Place) : (s.entries pl).Nodup := by
  rw [List.nodup_iff_count_le_one]
  intro a
  refine ((h a).le pl).trans ?_
  split_ifs
  · exact le_refl 1
  · exact Nat.zero_le 1

theorem Placed.bound (h : Placed n s) {pl : Place} {a : ℕ} (ha : a ∈ s.entries pl) : a < n := by
  by_contra hlt
  have hle := (h a).le pl
  rw [if_neg hlt] at hle
  exact absurd (List.count_pos_iff.mpr ha) (Nat.not_lt.mpr hle)

/-- Entries that move stay in exactly one place each. -/
theorem Placed.moved (h : Placed n s) (hm : Moved s s' self ino) : Placed n s' := by
  intro a
  apply (h a).congr {.free, .inode ino, .pending self}
  · intro pl hpl
    simp only [Finset.mem_insert, Finset.mem_singleton, not_or] at hpl
    obtain ⟨hfree, hinode, hpending⟩ := hpl
    unfold Tables.copies Tables.entries
    cases pl with
    | free => exact absurd rfl hfree
    | inode i =>
      have hi : i ≠ ino := fun heq => hinode (heq ▸ rfl)
      simp only [hm.inode i hi]
    | pending q =>
      have hq : q ≠ self := fun heq => hpending (heq ▸ rfl)
      simp only [hm.prl q hq]
  · rw [Finset.sum_insert (by simp), Finset.sum_pair (by simp), Finset.sum_insert (by simp),
      Finset.sum_pair (by simp), ← Nat.add_assoc, ← Nat.add_assoc]
    exact hm.sum a

theorem Moved.refl (s : Tables) (p ino : ℕ) : Moved s s p ino :=
  ⟨fun _ _ => rfl, fun _ _ => rfl, fun _ _ h => Or.inr h, fun _ => rfl⟩

theorem Moved.trans (h : Moved s s' self ino) (h' : Moved s' s'' self ino) :
    Moved s s'' self ino :=
  ⟨fun i hi => (h'.inode i hi).trans (h.inode i hi), fun p hp => (h'.prl p hp).trans (h.prl p hp),
    fun i rl hp => (h'.pend i rl hp).elim Or.inl (h.pend i rl),
    fun a => (h'.sum a).trans (h.sum a)⟩

/-! ### The lists -/

/-- How often an address is on the free list and on a list of locks. -/
def total (freerl : List ℕ) (list : List RLock) (a : ℕ) : ℕ :=
  freerl.count a + (addrs list).count a

theorem total_cons (freerl : List ℕ) (b : RLock) (list : List RLock) (a : ℕ) :
    total freerl (b :: list) a = total freerl list a + if b.entry = a then 1 else 0 := by
  unfold total addrs
  rw [List.map_cons, List.count_cons, Nat.add_assoc]
  simp only [beq_iff_eq]

theorem total_free (freerl : List ℕ) (b : RLock) (list : List RLock) (a : ℕ) :
    total (b.entry :: freerl) list a = total freerl (b :: list) a := by
  rw [total_cons]
  unfold total
  rw [List.count_cons, Nat.add_right_comm]
  simp only [beq_iff_eq]

/-- `extract` changes a lock in place, or takes the entry for the new one off the free list. -/
theorem extract_entry (old new : RLock) (freerl : List ℕ) :
    match extract old new freerl with
    | .keep old' => old'.entry = old.entry
    | .split old' lock freerl' => old'.entry = old.entry ∧ freerl = lock.entry :: freerl'
    | _ => True := by
  unfold extract
  by_cases hfront : new.rlStart ≤ old.rlStart
  · rw [if_pos hfront]
    split_ifs <;> trivial
  · rw [if_neg hfront]
    simp only
    split_ifs
    · rfl
    · cases freerl with
      | nil => trivial
      | cons a freerl => exact ⟨rfl, rfl⟩

theorem remlockLoop_total (lock : RLock) (a : ℕ) : ∀ (fuel : ℕ) (list : List RLock)
    (freerl : List ℕ) (r : ℤ) (list' : List RLock) (freerl' : List ℕ),
    remlockLoop lock fuel list freerl = some (r, list', freerl') →
      total freerl' list' a = total freerl list a := by
  intro fuel
  induction fuel with
  | zero =>
    intro list freerl r list' freerl' h
    cases h
  | succ fuel ih =>
    intro list freerl r list' freerl' h
    cases list with
    | nil =>
      cases h
      rfl
    | cons b rest =>
      -- the walk goes on with `b'` left in front
      have hcons : ∀ {b' : RLock} {rest' : List RLock} {f : List ℕ},
          (remlockLoop lock fuel rest' f).map (consLock b') = some (r, list', freerl') →
          total freerl' list' a = total f rest' a + if b'.entry = a then 1 else 0 := by
        intro b' rest' f hm
        obtain ⟨⟨r₀, l₀, f₀⟩, hloop, heq⟩ := Option.map_eq_some_iff.mp hm
        cases heq
        rw [total_cons, ih _ _ _ _ _ hloop]
      unfold remlockLoop at h
      by_cases hskip : meets lock b = false ∨ b.rlProc ≠ lock.rlProc
      · rw [if_pos hskip] at h
        rw [hcons h, total_cons]
      · rw [if_neg hskip] at h
        have hext := extract_entry b lock freerl
        cases hx : extract b lock freerl with
        | free =>
          simp only [hx] at h
          rw [ih _ _ _ _ _ h, total_free]
        | keep old =>
          rw [hx] at hext
          simp only [hx] at h
          rw [hcons h, total_cons, hext]
        | split old new f =>
          rw [hx] at hext
          simp only [hx] at h
          obtain ⟨hold, hfree⟩ := hext
          rw [hcons h, hold, ← total_free, ← hfree, total_cons]
        | fail =>
          simp only [hx] at h
          cases h
          rfl

theorem remlock_total {list list' : List RLock} {freerl freerl' : List ℕ} {r : ℤ}
    (h : remlock list lock freerl = some (r, list', freerl')) (a : ℕ) :
    total freerl' list' a = total freerl list a :=
  remlockLoop_total lock a _ list freerl r list' freerl' h

theorem mergeLoop_total (wide : RLock) (a : ℕ) : ∀ (list : List RLock) (top bot : ℤ)
    (freerl : List ℕ), total (mergeLoop wide list top bot freerl).2.2.2
      (mergeLoop wide list top bot freerl).2.2.1 a = total freerl list a := by
  intro list
  induction list with
  | nil => exact fun _ _ _ => rfl
  | cons b rest ih =>
    intro top bot freerl
    unfold mergeLoop
    by_cases hm : meets wide b ∧ b.rlProc = wide.rlProc ∧ b.rlType = wide.rlType
    · rw [if_pos hm, ih, total_free]
    · rw [if_neg hm]
      show total (mergeLoop wide rest top bot freerl).2.2.2
        (b :: (mergeLoop wide rest top bot freerl).2.2.1) a = _
      rw [total_cons, ih, total_cons]

theorem addlock_total {list list' : List RLock} {freerl freerl' : List ℕ} {r : ℤ}
    {err : Option Errno} (h : addlock list lock freerl = some (r, err, list', freerl')) (a : ℕ) :
    total freerl' list' a = total freerl list a := by
  have hmerge := mergeLoop_total (widen lock) a list lock.rlStart lock.rlEnd freerl
  unfold addlock at h
  revert h hmerge
  generalize mergeLoop (widen lock) list lock.rlStart lock.rlEnd freerl = m
  obtain ⟨top, bot, list₁, freerl₁⟩ := m
  intro h hmerge
  cases freerl₁ with
  | nil =>
    cases h
    exact hmerge
  | cons b freerl₁ =>
    obtain ⟨⟨r₂, list₂, freerl₂⟩, hrem, heq⟩ := Option.bind_eq_some_iff.mp h
    cases heq
    rw [← hmerge, total_cons, remlock_total hrem]
    -- the new lock has the entry that was taken off the free list
    exact (total_cons _ ⟨b, lock.rlType, top, bot, lock.rlProc⟩ _ a).symm.trans
      (total_free _ _ _ a).symm

/-! ### Calls and wake-ups -/

/-- A new list for the inode. -/
theorem Moved.put {list : List RLock} {freerl : List ℕ}
    (htotal : ∀ a, total freerl list a = total s.freerl (s.rl ino) a) :
    Moved s { s with rl := Function.update s.rl ino list, freerl := freerl } self ino := by
  refine ⟨fun i hi => Function.update_of_ne hi .., fun _ _ => rfl, fun _ _ h => Or.inr h,
    fun a => ?_⟩
  have h := htotal a
  unfold total at h
  unfold Tables.copies Tables.entries
  simp only [Function.update_self]
  omega

theorem Moved.addlock (h : s.addlock ino lock = some (o, s')) : Moved s s' self ino := by
  obtain ⟨⟨r, err, list, freerl⟩, hadd, heq⟩ := Option.bind_eq_some_iff.mp h
  cases heq
  exact Moved.put (addlock_total hadd)

theorem Moved.remlock (h : s.remlock ino lock = some (o, s')) : Moved s s' self ino := by
  obtain ⟨⟨r, list, freerl⟩, hrem, heq⟩ := Option.bind_eq_some_iff.mp h
  cases heq
  exact Moved.put (remlock_total hrem)

/-- The pending lock goes back to the free list. -/
theorem Moved.cleanup {i : ℕ} (hp : s.prl self = some (i, lock)) :
    Moved s (s.cleanup self lock) self ino := by
  refine ⟨fun _ _ => rfl, fun q hq => Function.update_of_ne hq .., fun i rl h => ?_, fun a => ?_⟩
  · have hnone : (s.cleanup self lock).prl self = none := Function.update_self ..
    rw [hnone] at h
    cases h
  unfold Tables.copies Tables.entries Tables.cleanup
  simp only [Function.update_self, hp, Option.toList_none, Option.toList_some, List.map_nil,
    List.map_cons, List.count_nil, List.count_cons]
  omega

theorem Moved.sleepFor {i : ℕ} (hp : s.prl self = some (i, lock))
    (h : s.sleepFor self fuel i lock = some (o, s')) : Moved s s' self ino := by
  obtain ⟨dead, -, h⟩ := Option.bind_eq_some_iff.mp h
  cases dead with
  | true =>
    cases h
    exact Moved.cleanup hp
  | false =>
    cases h
    exact Moved.refl s self ino

theorem Moved.waitlock (hp : s.prl self = none)
    (h : s.waitlock self fuel ino lock = some (o, s')) : Moved s s' self ino := by
  unfold Tables.waitlock at h
  by_cases hfree : nextblock lock (s.rl ino) = []
  · rw [if_neg (not_not.mpr hfree)] at h
    exact Moved.addlock h
  · rw [if_pos hfree] at h
    cases hf : s.freerl with
    | nil =>
      rw [hf] at h
      cases h
      exact Moved.refl s self ino
    | cons a freerl =>
      simp only [hf] at h
      refine Moved.trans ?_ (Moved.sleepFor (Function.update_self ..) h)
      -- the first entry of the free list becomes the pending lock
      refine ⟨fun _ _ => rfl, fun q hq => Function.update_of_ne hq .., fun i rl h => ?_,
        fun b => ?_⟩
      · cases (Function.update_self (f := s.prl) self _).symm.trans h
        exact Or.inl rfl
      unfold Tables.copies Tables.entries
      simp only [Function.update_self, hp, hf, Option.toList_none, Option.toList_some,
        List.map_nil, List.map_cons, List.count_nil, List.count_cons]
      omega

theorem Moved.rlock (hp : s.prl self = none) {fdp : FileDesc} {cmd : Cmd} {flp flp' : Flock}
    (h : rlock s self fuel fdp cmd flp = some (o, flp', s')) : Moved s s' self fdp.ip := by
  unfold Rlock.rlock at h
  cases hr : lockRange fdp flp with
  | none =>
    rw [hr] at h
    cases h
    exact Moved.refl s self fdp.ip
  | some range =>
    rw [hr] at h
    simp only at h
    split_ifs at h with hget hun hflag hwait hfree
    · cases h
      exact Moved.refl s self fdp.ip
    · obtain ⟨⟨o', t⟩, hrem, heq⟩ := Option.map_eq_some_iff.mp h
      cases heq
      exact Moved.remlock hrem
    · cases h
      exact Moved.refl s self fdp.ip
    · obtain ⟨⟨o', t⟩, hset, heq⟩ := Option.map_eq_some_iff.mp h
      cases heq
      exact Moved.waitlock hp hset
    · obtain ⟨⟨o', t⟩, hset, heq⟩ := Option.map_eq_some_iff.mp h
      cases heq
      exact Moved.addlock hset
    · cases h
      exact Moved.refl s self fdp.ip

theorem Moved.waitlockWake {rl : RLock} (hp : s.prl self = some (ino, rl)) {signalled : Bool}
    (h : s.waitlockWake self fuel signalled = some (o, s')) : Moved s s' self ino := by
  unfold Tables.waitlockWake at h
  rw [hp] at h
  simp only at h
  split_ifs at h with hsig hfree
  · cases h
    exact Moved.cleanup hp
  · exact Moved.sleepFor hp h
  · exact (Moved.cleanup hp).trans (Moved.addlock h)

end CohKernel.Rlock
