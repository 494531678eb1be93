import CohKernel.Fs.Defs

namespace CohKernel.Fs

open CohKernel.Lib

/-!
# What `balloc` and `bfree` hold

The gate of the free list and the buffers that `balloc` and `bfree` claim, along every path through
them, with `bread` of `bio.c`.

* `blocks_let_go` — when they return with nothing held;
* `gate_left_locked` — a block that is freed twice leaves the gate locked.
-/

/-! ### Buffers -/

/-- The gate of the free list, and the number of buffers that the caller has claimed. -/
structure Held where
  gate : Bool
  bufs : ℕ
deriving DecidableEq

/-- Nothing is held. -/
def Held.none : Held := ⟨false, 0⟩

/-- `bclaim` with `BUF_SYNC`. -/
def Held.bclaim (h : Held) : Held := { h with bufs := h.bufs + 1 }

/-- `brelease` -/
def Held.brelease (h : Held) : Held := { h with bufs := h.bufs - 1 }

/-- `__LOCK_FREE_BLOCK_LIST` -/
def Held.lock (h : Held) : Held := { h with gate := true }

/-- `__UNLOCK_FREE_BLOCK_LIST` -/
def Held.unlock (h : Held) : Held := { h with gate := false }

/-- What `bread` meets: the block is in its buffer; the buffer is busy with asynchronous I/O;
    `lock_block` gets the buffer; the block is in the buffer that is claimed when it does not; and
    the read fails, or transfers nothing. -/
structure Bread where
  valid : Bool
  asy : Bool
  locked : Bool
  again : Bool
  err : Bool
  short : Bool

/-- `bread`: whether it returns a buffer, and what is held then.  A buffer that is read
    asynchronously is released when that is done. -/
def Bread.bread (io : Bread) (sync : Bool) (h : Held) : Bool × Held :=
  if sync then
    let h := h.bclaim
    if io.valid then (true, h)
    else if io.err ∨ io.short then (false, h.brelease)
    else (true, h)
  else if io.valid then (true, h)
  else if io.asy then (false, h)
  else
    let h := h.bclaim
    if io.locked = false ∧ io.again then (true, h)
    else (false, h.brelease)

/-- `read_free_block_list` -/
def Filsys.readFreeBlockList (sb : Filsys) (b : ℕ) (io : Bread) (sync : Bool) (h : Held) :
    Bool × Held :=
  if sb.inside b then io.bread sync h else (false, h)

/-! ### `balloc` and `bfree` -/

/-- The end of a call. -/
structure Ret where
  block : ℕ
  fs : Fs
  held : Held

/-- The label `enospc` of `balloc`, and the end of it. -/
def Fs.enospcHeld (s : Fs) (h : Held) : Option Ret := some ⟨s.enospc.1, s.enospc.2, h.unlock⟩

def Fs.allocatedHeld (s : Fs) (b : ℕ) (h : Held) : Option Ret :=
  some ⟨(s.allocated b).1, (s.allocated b).2, h.unlock⟩

/-- `balloc` goes on with the next part of the list.  With a count below zero `canndaddr` does not
    come to an end.  `io` and `ahead` are of the two calls of `bread`. -/
def Fs.refillHeld (s : Fs) (b : ℕ) (io ahead : Bread) (h : Held) : Option Ret :=
  let r := s.super.readFreeBlockList b io true h
  if r.1 = false then s.enospcHeld r.2
  else
    let blk := s.blocks b
    let s := s.withSuper fun sb => { sb with sNfree := dfNfree blk, sFree := dfFree blk }
    -- this way out is taken before the buffer is released
    if s.super.sNfree > NICFREE then s.enospcHeld r.2
    else if s.super.sNfree < 0 then none
    else
      let s := s.withSuper fun sb => { sb with sFree := canndaddr sb.sNfree sb.sFree }
      let h := r.2.brelease
      s.allocatedHeld b
        (if s.super.sNfree > 0 then
          (s.super.readFreeBlockList (s.super.sFree 0) ahead false h).2
        else h)

/-- `balloc` with what it holds.  `mounted` says whether `getment` finds the filesystem. -/
def Fs.ballocHeld (s : Fs) (mounted : Bool) (io ahead : Bread) : Option Ret :=
  if mounted = false then some ⟨0, s, .none⟩
  else
    let h := Held.none.lock
    if s.super.sNfree = 0 ∨ s.super.sNfree > NICFREE then s.enospcHeld h
    else
      let n := (s.super.sNfree - 1).toNat
      let b := s.super.sFree n
      if b = 0 then s.enospcHeld h
      else
        let s := s.withSuper fun sb =>
          { sb with sNfree := sb.sNfree - 1, sFree := Function.update sb.sFree n 0 }
        if s.super.sNfree = 0 then s.refillHeld b io ahead h else s.allocatedHeld b h

/-- `bfree` with what it holds. -/
def Fs.bfreeHeld (s : Fs) (mounted sortblocks : Bool) (b : ℕ) : Fs × Held :=
  if mounted = false then (s, .none)
  else if ¬ s.super.inside b then (s, .none)
  else
    let h := Held.none.lock
    let done (s : Fs) (b : ℕ) : Fs × Held :=
      let h := if s.super.sNfree = 0 ∨ s.super.sNfree = NICFREE then h.bclaim.brelease else h
      (s.freed b, h.unlock)
    if sortblocks = true ∧ s.super.sNfree > 0 then
      let (list, newblk) := daddrAdd s.super.upper b
      if newblk = 0 then (s, h) else done (s.withSuper fun sb => sb.setUpper list) newblk
    else done s b

variable {s : Fs} {mounted sortblocks : Bool} {io ahead : Bread} {b : ℕ} {h : Held} {r : Ret}

/-! ### `bread` -/

/-- The block is read. -/
def Bread.reads (io : Bread) : Bool := io.valid || !(io.err || io.short)

/-- The buffer that is read ahead is claimed and not released: another process has had the buffer in
    the meantime, and has read the block. -/
def Bread.strays (io : Bread) : Bool := !io.valid && !io.asy && !io.locked && io.again

theorem bread_sync (io : Bread) (h : Held) :
    io.bread true h = (io.reads, if io.reads then h.bclaim else h) := by
  obtain ⟨valid, asy, locked, again, err, short⟩ := io
  cases valid <;> cases err <;> cases short <;> rfl

theorem bread_async (io : Bread) (h : Held) :
    (io.bread false h).2 = if io.strays then h.bclaim else h := by
  obtain ⟨valid, asy, locked, again, err, short⟩ := io
  cases valid <;> cases asy <;> cases locked <;> cases again <;> rfl

/-! ### The same calls -/

/-- The number of the block that is read ahead. -/
def nextLink (blk : Bytes) : ℕ := canndaddr (dfNfree blk) (dfFree blk) 0

/-- A part of the list with which `balloc` lets go of what it holds: it has a count from 0 to
    `NICFREE`, and the buffer that is read ahead does not stray. -/
structure Part (sb : Filsys) (blk : Bytes) (ahead : Bread) : Prop where
  nonneg : 0 ≤ dfNfree blk
  le : dfNfree blk ≤ NICFREE
  ahead : 0 < dfNfree blk → sb.inside (nextLink blk) → ahead.strays = false

theorem withSuper_super (s : Fs) (f : Filsys → Filsys) : (s.withSuper f).super = f s.super := rfl

theorem exists_held (x : Ret) : (∃ r, some x = some r ∧ r.held = .none) ↔ x.held = .none := by
  constructor
  · rintro ⟨r, h, hheld⟩
    rw [Option.some.inj h]
    exact hheld
  · exact fun h => ⟨x, rfl, h⟩

/-- What is held when a block may have been read ahead. -/
theorem ahead_held {count : ℤ} {link : Prop} {_ : Decidable link} {ahead : Bread} :
    (if count > 0 then
        (if link then ahead.bread false Held.none.lock else (false, Held.none.lock)).2
      else Held.none.lock).unlock = .none ↔ (0 < count → link → ahead.strays = false) := by
  by_cases hcount : 0 < count
  swap
  · rw [if_neg hcount]
    exact iff_of_true rfl fun h => absurd h hcount
  rw [if_pos hcount]
  by_cases hlink : link
  swap
  · rw [if_neg hlink]
    exact iff_of_true rfl fun _ h => absurd h hlink
  rw [if_pos hlink, bread_async]
  cases hstrays : ahead.strays with
  | false => exact iff_of_true rfl fun _ _ => rfl
  | true => exact iff_of_false (by decide) fun h => Bool.false_ne_true (h hcount hlink).symm

/-- The next part of the list. -/
theorem refillHeld_spec (s : Fs) (b : ℕ) (io ahead : Bread) :
    (∀ r, s.refillHeld b io ahead Held.none.lock = some r → (r.block, r.fs) = s.refill b io.reads) ∧
    ((∃ r, s.refillHeld b io ahead Held.none.lock = some r ∧ r.held = .none) ↔
      (s.super.inside b → io.reads = true → Part s.super (s.blocks b) ahead)) := by
  unfold Fs.refillHeld Filsys.readFreeBlockList Fs.refill
  rw [bread_sync]
  dsimp only
  by_cases hin : s.super.inside b
  swap
  · rw [if_neg hin, if_pos rfl, if_neg fun h => hin h.1]
    exact ⟨fun r h => by rw [← Option.some.inj h], iff_of_true ⟨_, rfl, rfl⟩ fun h => absurd h hin⟩
  rw [if_pos hin]
  cases hreads : io.reads with
  | false =>
    have hnot : ¬ (s.super.inside b ∧ false = true) := fun h => Bool.false_ne_true h.2
    rw [if_pos rfl, if_neg hnot]
    exact ⟨fun r h => by rw [← Option.some.inj h], iff_of_true ⟨_, rfl, rfl⟩ fun _ h => by cases h⟩
  | true =>
    have hboth : s.super.inside b ∧ true = true := ⟨hin, rfl⟩
    rw [if_pos hboth]
    simp only [withSuper_super, if_true, Bool.true_eq_false, if_false]
    by_cases hbig : dfNfree (s.blocks b) > NICFREE
    · simp only [hbig, if_true]
      refine ⟨fun r h => by rw [← Option.some.inj h], iff_of_false ?_ fun h => ?_⟩
      · rintro ⟨r, h, hheld⟩
        rw [← Option.some.inj h] at hheld
        cases hheld
      · exact absurd (h hin trivial).le (not_le.mpr hbig)
    simp only [hbig, if_false]
    by_cases hneg : dfNfree (s.blocks b) < 0
    · simp only [hneg, if_true]
      exact ⟨nofun, iff_of_false (fun ⟨r, h, _⟩ => by cases h) fun h =>
        absurd (h hin trivial).nonneg (not_le.mpr hneg)⟩
    simp only [hneg, if_false]
    refine ⟨fun r h => by rw [← Option.some.inj h], ?_⟩
    have hnext : Part s.super (s.blocks b) ahead ↔
        (0 < dfNfree (s.blocks b) → s.super.inside (nextLink (s.blocks b)) → ahead.strays =
          false) :=
      ⟨Part.ahead, fun h => ⟨not_lt.mp hneg, not_lt.mp hbig, h⟩⟩
    have hpart : (s.super.inside b → True → Part s.super (s.blocks b) ahead) ↔ _ :=
      ⟨fun h => h hin trivial, fun h _ _ => h⟩
    refine Iff.trans ?_ (hpart.trans hnext).symm
    unfold Fs.allocatedHeld nextLink
    rw [exists_held]
    simp only [Filsys.inside]
    exact ahead_held

/-- `balloc` goes on with the next part of the list. -/
structure Fs.Refills (s : Fs) (io : Bread) : Prop where
  last : s.super.sNfree = 1
  some : s.super.sFree 0 ≠ 0
  inside : s.super.inside (s.super.sFree 0)
  reads : io.reads = true

/-- The cases of `balloc` on a mounted filesystem. -/
theorem ballocHeld_cases (s : Fs) (io ahead : Bread) :
    (∀ r, s.ballocHeld true io ahead = some r → (r.block, r.fs) = s.balloc io.reads) ∧
    ((∃ r, s.ballocHeld true io ahead = some r ∧ r.held = .none) ↔
      (s.Refills io → Part s.super (s.blocks (s.super.sFree 0)) ahead)) := by
  unfold Fs.ballocHeld Fs.balloc
  rw [if_neg Bool.true_eq_false.mp]
  dsimp only
  by_cases hspace : s.super.sNfree = 0 ∨ s.super.sNfree > NICFREE
  · rw [if_pos hspace, if_pos hspace]
    refine ⟨fun r h => by rw [← Option.some.inj h], iff_of_true ⟨_, rfl, rfl⟩ fun h => ?_⟩
    have hone := h.last
    unfold NICFREE at hspace
    omega
  rw [if_neg hspace, if_neg hspace]
  by_cases hb : s.super.sFree (s.super.sNfree - 1).toNat = 0
  · rw [if_pos hb, if_pos hb]
    refine ⟨fun r h => by rw [← Option.some.inj h], iff_of_true ⟨_, rfl, rfl⟩ fun h => ?_⟩
    rw [h.last] at hb
    exact absurd hb h.some
  rw [if_neg hb, if_neg hb]
  by_cases hlast : s.super.sNfree - 1 = 0
  · have hn : (s.super.sNfree - 1).toNat = 0 := by omega
    rw [hn] at hb ⊢
    simp only [withSuper_super, hlast, if_true]
    obtain ⟨hresult, hheld⟩ := refillHeld_spec (s.withSuper fun sb =>
      { sb with sNfree := sb.sNfree - 1, sFree := Function.update sb.sFree 0 0 })
      (s.super.sFree 0) io ahead
    refine ⟨hresult, hheld.trans ⟨fun h hr => ?_, fun h hin hreads => ?_⟩⟩
    · obtain ⟨h₁, h₂, h₃⟩ := h hr.inside hr.reads
      exact ⟨h₁, h₂, h₃⟩
    · obtain ⟨h₁, h₂, h₃⟩ := h ⟨by omega, hb, hin, hreads⟩
      exact ⟨h₁, h₂, h₃⟩
  · simp only [withSuper_super, hlast, if_false]
    refine ⟨fun r h => by rw [← Option.some.inj h], iff_of_true ⟨_, rfl, rfl⟩ fun h => ?_⟩
    have hone := h.last
    omega

/-! ### `bfree` -/

/-- `daddr_add` finds the block, or the number that drops out of the list is 0. -/
def Refused (list : List ℕ) (b : ℕ) : Prop :=
  match list.dropWhile fun d => b < d with
  | [] => b = 0
  | d :: _ => d = b ∨ list.getLast? = some 0

/-- **When `daddr_add` returns zero.** -/
theorem daddrAdd_zero (list : List ℕ) (b : ℕ) : (daddrAdd list b).2 = 0 ↔ Refused list b := by
  induction list with
  | nil => exact Iff.rfl
  | cons d list ih =>
    unfold daddrAdd Refused
    by_cases heq : b = d
    · rw [if_pos heq, List.dropWhile_cons_of_neg (by simp [heq])]
      exact iff_of_true rfl (.inl heq.symm)
    rw [if_neg heq]
    by_cases hgt : b > d
    · rw [if_pos hgt, List.dropWhile_cons_of_neg (by simpa using Nat.le_of_lt hgt)]
      dsimp only
      rw [or_iff_right (Ne.symm heq), List.getLast?_eq_getLast_of_ne_nil (List.cons_ne_nil d list)]
      exact ⟨congrArg some, Option.some.inj⟩
    · have hlt : b < d := lt_of_le_of_ne (not_lt.mp hgt) heq
      rw [if_neg hgt, List.dropWhile_cons_of_pos (by simpa using hlt)]
      refine Iff.trans ih ?_
      unfold Refused
      cases hdrop : list.dropWhile fun d => b < d with
      | nil => exact Iff.rfl
      | cons x rest =>
        cases list with
        | nil => cases hdrop
        | cons y list => exact Iff.rfl

/-- The buffer that `bfree` writes is released. -/
theorem freedHeld (s : Fs) :
    (if s.super.sNfree = 0 ∨ s.super.sNfree = NICFREE then Held.none.lock.bclaim.brelease
      else Held.none.lock).unlock = .none := by
  split_ifs <;> rfl

/-- What `bfree` holds in the end. -/
theorem bfreeHeld_free (s : Fs) (mounted sortblocks : Bool) (b : ℕ) :
    (s.bfreeHeld mounted sortblocks b).2 = .none ↔
      (mounted = true → s.super.inside b → sortblocks = true → 0 < s.super.sNfree →
        ¬ Refused s.super.upper b) := by
  unfold Fs.bfreeHeld
  cases mounted with
  | false => exact iff_of_true rfl fun h => by cases h
  | true =>
    rw [if_neg Bool.true_eq_false.mp]
    by_cases hin : s.super.inside b
    swap
    · rw [if_pos hin]
      exact iff_of_true rfl fun _ h => absurd h hin
    rw [if_neg (not_not.mpr hin)]
    by_cases hsort : sortblocks = true ∧ s.super.sNfree > 0
    swap
    · rw [if_neg hsort]
      exact iff_of_true (freedHeld s) fun _ _ h hpos => absurd ⟨h, hpos⟩ hsort
    rw [if_pos hsort]
    dsimp only
    by_cases hzero : (daddrAdd s.super.upper b).2 = 0
    · rw [if_pos hzero]
      refine iff_of_false (by show ¬ Held.none.lock = Held.none; decide) fun h => ?_
      exact h rfl hin hsort.1 hsort.2 ((daddrAdd_zero _ _).mp hzero)
    · rw [if_neg hzero]
      exact iff_of_true (freedHeld _) fun _ _ _ _ => mt (daddrAdd_zero _ _).mpr hzero

/-! ### Both -/

/-- **When `balloc` and `bfree` return with nothing held.** -/
theorem blocks_let_go (s : Fs) : (∀ (mounted : Bool) (io ahead : Bread),
    (∃ r, s.ballocHeld mounted io ahead = some r ∧ r.held = .none) ↔
      (mounted = true → s.Refills io → Part s.super (s.blocks (s.super.sFree 0)) ahead)) ∧
    ∀ (mounted sortblocks : Bool) (b : ℕ),
      (s.bfreeHeld mounted sortblocks b).2 = .none ↔
        (mounted = true → s.super.inside b → sortblocks = true → 0 < s.super.sNfree →
          ¬ Refused s.super.upper b) := by
  refine ⟨fun mounted io ahead => ?_, bfreeHeld_free s⟩
  cases mounted with
  | false => exact iff_of_true ⟨_, rfl, rfl⟩ fun h => by cases h
  | true =>
    rw [(ballocHeld_cases s io ahead).2]
    exact ⟨fun h _ => h, fun h => h rfl⟩

/-- A filesystem with the block 50 on its free list. -/
def oneFree : Fs where
  super := ⟨10, 100, 2, fun i => if i = 1 then 50 else 0, 1, by decide⟩
  blocks := fun _ _ => 0
  gate := false

/-- **The gate stays locked** when the block 50 is freed once more. -/
theorem gate_left_locked : ¬ ((∀ (s : Fs) (mounted : Bool) (io ahead : Bread),
    ∃ r, s.ballocHeld mounted io ahead = some r ∧ r.held = .none) ∧
    ∀ (s : Fs) (mounted sortblocks : Bool) (b : ℕ),
      (s.bfreeHeld mounted sortblocks b).2 = .none) := by
  rintro ⟨-, hall⟩
  exact absurd (hall oneFree true true 50) (by decide)

end CohKernel.Fs
