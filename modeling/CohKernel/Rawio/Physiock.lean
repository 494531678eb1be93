import CohKernel.Rawio.Defs

namespace CohKernel.Rawio

open CohKernel.Lib

/-!
# What a raw transfer moves

* `physiock_accepted` — the requests that are let through;
* `physiock_correct_iff` — the requests for which the call does what it is for, whatever the device
  does.
-/

/-! ### Bytes that are moved -/

/-- The first `t` of `count` bytes have been moved, and the bytes elsewhere are as before. -/
def Filled (dst₀ src : Bytes) (d s count t : ℕ) (dst : Bytes) : Prop :=
  (∀ i < t, dst (d + i) = src (s + i)) ∧ ∀ a, ¬(d ≤ a ∧ a < d + count) → dst a = dst₀ a

variable {dst₀ src dst : Bytes} {d s count t t' n m : ℕ}

theorem Filled.zero (dst₀ src : Bytes) (d s count : ℕ) : Filled dst₀ src d s count 0 dst₀ :=
  ⟨fun _ h => absurd h (Nat.not_lt_zero _), fun _ _ => rfl⟩

/-- The next bytes are moved. -/
theorem Filled.move (h : Filled dst₀ src d s count t dst) (hn : t + n ≤ count) (ht : t' ≤ t + n) :
    Filled dst₀ src d s count t' (move dst (d + t) src (s + t) n) := by
  unfold Rawio.move
  refine ⟨fun i hi => ?_, fun a ha => ?_⟩
  · simp only
    by_cases hin : d + t ≤ d + i ∧ d + i < d + t + n
    · rw [if_pos hin]
      congr 1
      omega
    · rw [if_neg hin]
      exact h.1 i (by omega)
  · simp only
    rw [if_neg (by omega)]
    exact h.2 a ha

/-- Bytes that go through a buffer. -/
theorem move_move (dst buf : Bytes) (h : m ≤ n) :
    move dst d (move buf 0 src s n) 0 m = move dst d src s m := by
  funext k
  unfold move
  by_cases hin : d ≤ k ∧ k < d + m
  · rw [if_pos hin, if_pos hin, if_pos ⟨Nat.zero_le _, by omega⟩]
    congr 1
    omega
  · rw [if_neg hin, if_neg hin]

/-! ### Requests -/

/-- The offset and the count are those of whole blocks. -/
def Request.Aligned (r : Request) : Prop := r.seek % NBPSCTR = 0 ∧ r.count % NBPSCTR = 0

/-- The number of every block of the request is below that of the blocks of the device. -/
def Request.InRange (r : Request) : Prop :=
  ∀ b, r.seek < (b + 1) * NBPSCTR → b * NBPSCTR < r.seek + r.count → b < r.nblocks

/-- No block of the request is on two pages of the user. -/
def Request.Uncrossed (r : Request) : Prop :=
  ∀ p < r.count, p % NBPSCTR = 0 → (r.vbase + p) % NBPC + NBPSCTR ≤ NBPC

variable {e : Env} {r : Request} {write : Bool} {given : Option ℕ} {s₀ st st' : State}
  {res : Result} {mem disk vaddr : Bytes}

/-- What has been moved when all but `ioc` bytes of a request are done. -/
structure Moved (r : Request) (s₀ st : State) : Prop where
  le : st.io.ioc ≤ r.count
  read : r.write = false → st.disk = s₀.disk ∧
    Filled s₀.mem s₀.disk r.vbase r.seek r.count (r.count - st.io.ioc) st.mem
  write : r.write = true → st.mem = s₀.mem ∧
    Filled s₀.disk s₀.mem r.seek r.vbase r.count (r.count - st.io.ioc) st.disk

/-- The state between two chunks. -/
structure Between (r : Request) (s₀ st : State) : Prop extends Moved r s₀ st where
  whole : st.io.ioc % NBPSCTR = 0
  vbase : st.io.vbase = r.vbase + (r.count - st.io.ioc)
  seek : st.io.seek = r.seek + (r.count - st.io.ioc)

/-- The strategy routine transfers all that it is asked for. -/
def Env.Healthy (e : Env) : Prop :=
  ∀ write bno count, (e.strat write bno count).err = false ∧
    count ≤ (e.strat write bno count).blocks * NBPSCTR

/-- What a turn comes to: the next bytes are moved, or a device error has been reported, and what is
    reported as moved has been. -/
def Turn.Good (e : Env) (r : Request) (s₀ st : State) : Turn → Prop
  | .next st' => Between r s₀ st' ∧ st'.io.ioc < st.io.ioc
  | .stop res => Moved r s₀ res.st ∧ res.uError ≠ none ∧ ¬ e.Healthy

theorem Healthy.not_failed (h : e.Healthy) (hn : 0 < n) (write : Bool) (bno : ℕ) :
    ¬ (e.strat write bno n).failed n := by
  obtain ⟨herr, hle⟩ := h write bno n
  rintro (h | h)
  · rw [herr] at h
    cases h
  · unfold Reply.done at h
    omega

theorem done_le (r : Reply) (n : ℕ) : r.done n ≤ n := Nat.min_le_right _ _

theorem done_whole (r : Reply) (hn : n % NBPSCTR = 0) : r.done n % NBPSCTR = 0 := by
  unfold Reply.done
  rcases Nat.le_total (r.blocks * NBPSCTR) n with h | h
  · rw [Nat.min_eq_left h, Nat.mul_mod_left]
  · rw [Nat.min_eq_right h, hn]

/-- The block at an offset. -/
theorem blockn_mul (h : st.io.seek % NBPSCTR = 0) : blockn st.io.seek * NBPSCTR = st.io.seek :=
  Nat.div_mul_cancel (Nat.dvd_of_mod_eq_zero h)

/-- A state after `n` more bytes. -/
theorem Between.next (h : Between r s₀ st) (hn : n ≤ st.io.ioc) (hwhole : n % NBPSCTR = 0)
    (hio : st'.io = ⟨st.io.vbase + n, st.io.ioc - n, st.io.seek + n⟩)
    (hread : r.write = false → st'.disk = st.disk ∧
      st'.mem = move st.mem st.io.vbase st.disk st.io.seek n)
    (hwrite : r.write = true → st'.mem = st.mem ∧
      st'.disk = move st.disk st.io.seek st.mem st.io.vbase n) : Between r s₀ st' := by
  have hle := h.le
  have hioc := h.whole
  have hcount : r.count - (st.io.ioc - n) = r.count - st.io.ioc + n := by omega
  refine ⟨⟨?_, fun hr => ?_, fun hw => ?_⟩, ?_, ?_, ?_⟩
  · rw [hio]
    show st.io.ioc - n ≤ _
    omega
  · obtain ⟨hdisk, hfilled⟩ := h.read hr
    obtain ⟨hdisk', hmem'⟩ := hread hr
    rw [hdisk', hmem', hio, h.vbase, h.seek, hdisk]
    exact ⟨rfl, hfilled.move (by omega) hcount.le⟩
  · obtain ⟨hmem, hfilled⟩ := h.write hw
    obtain ⟨hmem', hdisk'⟩ := hwrite hw
    rw [hdisk', hmem', hio, h.vbase, h.seek, hmem]
    exact ⟨rfl, hfilled.move (by omega) hcount.le⟩
  · rw [hio]
    show (st.io.ioc - n) % NBPSCTR = 0
    unfold NBPSCTR at *
    omega
  · rw [hio]
    show st.io.vbase + n = r.vbase + (r.count - (st.io.ioc - n))
    rw [hcount, h.vbase, Nat.add_assoc]
  · rw [hio]
    show st.io.seek + n = r.seek + (r.count - (st.io.ioc - n))
    rw [hcount, h.seek, Nat.add_assoc]

/-! ### Chunks -/

/-- A chunk that does not go through the cache is of whole blocks. -/
theorem chunk_spec (io : Io) (hioc : io.ioc % NBPSCTR = 0) (hgiven : given.getD 0 % NBPSCTR = 0) :
    chunk given io ≤ io.ioc ∧ (NBPSCTR ≤ chunk given io → chunk given io % NBPSCTR = 0) := by
  cases given with
  | none =>
    unfold chunk NBPSCTR NBPC at *
    simp only
    split_ifs <;> omega
  | some bufsiz =>
    have hbuf : bufsiz % NBPSCTR = 0 := hgiven
    unfold chunk NBPSCTR at *
    simp only
    split_ifs <;> omega

/-- A chunk of the user's memory goes through the cache just when its first block is on two pages.
    -/
theorem chunk_cached {io : Io} (hioc : io.ioc % NBPSCTR = 0) (hpos : 0 < io.ioc) :
    chunk none io < NBPSCTR ↔ NBPC < io.vbase % NBPC + NBPSCTR := by
  unfold chunk NBPSCTR NBPC at *
  simp only
  split_ifs <;> omega

section turns

variable {amount : ℕ}

/-- A block that is read through the cache. -/
theorem cacheTurn_spec (hw : r.write = false) (h : Between r s₀ st)
    (hat : st.io.seek % NBPSCTR = 0) (hioc : NBPSCTR ≤ st.io.ioc) (amount : ℕ) :
    (cacheTurn e r.write st amount).Good e r s₀ st := by
  have hbno := blockn_mul hat
  have hpos : 0 < NBPSCTR := by decide
  unfold cacheTurn
  simp only [hw, if_pos hioc, true_or, if_true]
  have hgo : ∀ v : Bytes, v = move e.stale 0 st.disk (blockn st.io.seek * NBPSCTR) NBPSCTR →
      Turn.Good e r s₀ st (.next ((iowrite st v NBPSCTR).seekBy NBPSCTR)) := by
    rintro v rfl
    refine ⟨h.next hioc (Nat.mod_self _) rfl (fun _ => ⟨rfl, ?_⟩) (fun hr => ?_), ?_⟩
    · show move st.mem st.io.vbase _ 0 NBPSCTR = _
      rw [move_move _ _ le_rfl, hbno]
    · rw [hw] at hr
      cases hr
    · show st.io.ioc - NBPSCTR < st.io.ioc
      omega
  unfold rawBufRead
  by_cases hc : e.cached (blockn st.io.seek) = true
  · rw [if_pos hc]
    exact hgo _ rfl
  rw [if_neg hc]
  by_cases hf : (e.strat false (blockn st.io.seek) NBPSCTR).failed NBPSCTR
  · simp only [if_pos hf]
    exact ⟨h.toMoved, Option.some_ne_none _, fun hh => Healthy.not_failed hh hpos _ _ hf⟩
  · simp only [if_neg hf]
    refine hgo _ ?_
    -- a transfer of one block is whole, or has failed
    have hwhole := done_whole (e.strat false (blockn st.io.seek) NBPSCTR) (Nat.mod_self NBPSCTR)
    have hle := done_le (e.strat false (blockn st.io.seek) NBPSCTR) NBPSCTR
    have h0 : (e.strat false (blockn st.io.seek) NBPSCTR).done NBPSCTR ≠ 0 :=
      fun h0 => hf (Or.inr h0)
    congr 1
    unfold NBPSCTR at *
    omega

/-- What is moved directly is behind the bytes that are reported, until it is counted. -/
theorem Between.moved (h : Between r s₀ st) (hn : n ≤ st.io.ioc) (hio : st'.io = st.io)
    (hread : r.write = false → st'.disk = st.disk ∧
      st'.mem = move st.mem st.io.vbase st.disk st.io.seek n)
    (hwrite : r.write = true → st'.mem = st.mem ∧
      st'.disk = move st.disk st.io.seek st.mem st.io.vbase n) : Moved r s₀ st' := by
  have hle := h.le
  refine ⟨by rw [hio]; exact hle, fun hr => ?_, fun hw => ?_⟩
  · obtain ⟨hdisk, hfilled⟩ := h.read hr
    obtain ⟨hdisk', hmem'⟩ := hread hr
    rw [hdisk', hmem', hio, h.vbase, h.seek, hdisk]
    exact ⟨rfl, hfilled.move (by omega) (Nat.le_add_right _ _)⟩
  · obtain ⟨hmem, hfilled⟩ := h.write hw
    obtain ⟨hmem', hdisk'⟩ := hwrite hw
    rw [hdisk', hmem', hio, h.vbase, h.seek, hmem]
    exact ⟨rfl, hfilled.move (by omega) (Nat.le_add_right _ _)⟩

/-- A chunk of the user's memory. -/
theorem directTurn_spec (h : Between r s₀ st) (hat : st.io.seek % NBPSCTR = 0) (hpos : 0 < amount)
    (hle : amount ≤ st.io.ioc) (hwhole : amount % NBPSCTR = 0) :
    (directTurn e r.write st amount).Good e r s₀ st := by
  have hdone := done_le (e.strat r.write (blockn st.io.seek) amount) amount
  have hdonew := done_whole (e.strat r.write (blockn st.io.seek) amount) hwhole
  have hfail : (e.strat r.write (blockn st.io.seek) amount).failed amount → ¬ e.Healthy :=
    fun hf hh => Healthy.not_failed hh hpos _ _ hf
  unfold directTurn
  simp only [blockn_mul hat]
  generalize e.strat r.write (blockn st.io.seek) amount = reply at *
  by_cases hf : reply.failed amount
  · rw [if_pos hf]
    refine ⟨h.moved (n := reply.done amount) (by omega) ?_ ?_ ?_, Option.some_ne_none _, hfail hf⟩
    · cases r.write <;> rfl
    · intro hr
      simp only [hr, Bool.false_eq_true, if_false]
      exact ⟨trivial, trivial⟩
    · intro hw
      simp only [hw, if_true]
      exact ⟨trivial, trivial⟩
  · rw [if_neg hf]
    have hne : reply.done amount ≠ 0 := fun h0 => hf (Or.inr h0)
    refine ⟨h.next (n := reply.done amount) (by omega) hdonew ?_ ?_ ?_, ?_⟩
    · cases r.write <;> rfl
    · intro hr
      simp only [hr, Bool.false_eq_true, if_false]
      exact ⟨rfl, rfl⟩
    · intro hw
      simp only [hw, if_true]
      exact ⟨rfl, rfl⟩
    · have : st.io.ioc - reply.done amount < st.io.ioc := by omega
      cases r.write <;> exact this

/-- A chunk that is read into the buffer that is given. -/
theorem givenTurn_spec (hw : r.write = false) (h : Between r s₀ st)
    (hat : st.io.seek % NBPSCTR = 0) (hpos : 0 < amount) (hle : amount ≤ st.io.ioc)
    (hwhole : amount % NBPSCTR = 0) : (givenTurn e r.write st amount).Good e r s₀ st := by
  have hdone := done_le (e.strat r.write (blockn st.io.seek) amount) amount
  have hdonew := done_whole (e.strat r.write (blockn st.io.seek) amount) hwhole
  have hfail : (e.strat r.write (blockn st.io.seek) amount).failed amount → ¬ e.Healthy :=
    fun hf hh => Healthy.not_failed hh hpos _ _ hf
  unfold givenTurn
  simp only [blockn_mul hat]
  generalize e.strat r.write (blockn st.io.seek) amount = reply at *
  simp only [hw, Bool.false_eq_true, if_false]
  have hnext : Between r s₀ ((iowrite { st with
      vaddr := move st.vaddr 0 st.disk st.io.seek (reply.done amount) }
      (move st.vaddr 0 st.disk st.io.seek (reply.done amount)) (reply.done amount)).seekBy
      (reply.done amount)) := by
    refine h.next (n := reply.done amount) (by omega) hdonew rfl (fun _ => ⟨rfl, ?_⟩) fun hw' => ?_
    · exact move_move _ _ le_rfl
    · rw [hw] at hw'
      cases hw'
  by_cases hf : reply.failed amount
  · rw [if_pos hf]
    exact ⟨⟨hnext.le, hnext.read, hnext.write⟩, Option.some_ne_none _, hfail hf⟩
  · rw [if_neg hf]
    have hne : reply.done amount ≠ 0 := fun h0 => hf (Or.inr h0)
    refine ⟨hnext, ?_⟩
    show st.io.ioc - reply.done amount < st.io.ioc
    omega

end turns

/-- **A turn** of a read, or of a write that needs no buffer. -/
theorem turn_spec (hmapped : e.iomapvp = true) (haligned : r.Aligned)
    (hgiven : r.given.getD 0 % NBPSCTR = 0)
    (hsafe : r.write = true → 0 < r.count → r.given = none ∧ r.Uncrossed) (h : Between r s₀ st)
    (hpos : 0 < st.io.ioc) : (turn e r.write r.given st).Good e r s₀ st := by
  obtain ⟨hseek, hcount⟩ := haligned
  have hle := h.le
  have hwhole := h.whole
  have hat : st.io.seek % NBPSCTR = 0 := by
    rw [h.seek]
    unfold NBPSCTR at *
    omega
  have hioc : NBPSCTR ≤ st.io.ioc := by
    unfold NBPSCTR at *
    omega
  obtain ⟨hchunk, hblocks⟩ := chunk_spec st.io hwhole hgiven
  unfold turn blocko
  rw [if_neg (not_not.mpr hat), if_neg (by rw [hmapped]; exact fun h => Bool.noConfusion h.2)]
  simp only
  by_cases hcached : chunk r.given st.io < NBPSCTR
  · rw [if_pos hcached]
    cases hw : r.write with
    | true =>
      -- no block of a write is on two pages
      obtain ⟨hnone, huncrossed⟩ := hsafe hw (by omega)
      rw [hnone, chunk_cached hwhole hpos, h.vbase] at hcached
      have := huncrossed (r.count - st.io.ioc) (by omega) (by unfold NBPSCTR at *; omega)
      omega
    | false =>
      rw [← hw]
      exact cacheTurn_spec hw h hat hioc _
  · rw [if_neg hcached]
    have hamount := hblocks (not_lt.mp hcached)
    have hpos' : 0 < chunk r.given st.io := by
      unfold NBPSCTR at hcached
      omega
    cases hg : r.given with
    | none =>
      rw [hg] at hchunk hamount hpos'
      exact directTurn_spec h hat hpos' hchunk hamount
    | some bufsiz =>
      have hw : r.write = false := by
        by_contra hw
        rw [(hsafe (eq_true_of_ne_false hw) (by omega)).1] at hg
        cases hg
      rw [hg] at hchunk hamount hpos'
      exact givenTurn_spec hw h hat hpos' hchunk hamount

/-! ### The loop -/

/-- The loop ends; what it reports as moved has been, and that is all when there is no error. -/
theorem loop_spec (hmapped : e.iomapvp = true) (haligned : r.Aligned)
    (hgiven : r.given.getD 0 % NBPSCTR = 0)
    (hsafe : r.write = true → 0 < r.count → r.given = none ∧ r.Uncrossed) {left : ℕ}
    (hleft : st.io.ioc ≤ left)
    (h : Between r s₀ st) :
    ∃ res, loop e r.write r.given left st = some res ∧ Moved r s₀ res.st ∧
      (res.uError = none → res.st.io.ioc = 0) ∧ (e.Healthy → res.uError = none) := by
  induction left generalizing st with
  | zero =>
    have h0 := Nat.le_zero.mp hleft
    exact ⟨⟨none, none, st⟩, if_pos h0, h.toMoved, fun _ => h0, fun _ => rfl⟩
  | succ left ih =>
    unfold loop
    by_cases h0 : st.io.ioc = 0
    · rw [if_pos h0]
      exact ⟨_, rfl, h.toMoved, fun _ => h0, fun _ => rfl⟩
    rw [if_neg h0]
    have hturn := turn_spec hmapped haligned hgiven hsafe h (Nat.pos_of_ne_zero h0)
    cases ht : turn e r.write r.given st with
    | next st' =>
      rw [ht] at hturn
      obtain ⟨hnext, hlt⟩ := hturn
      exact ih (by omega) hnext
    | stop res =>
      rw [ht] at hturn
      obtain ⟨hmoved, herr, hsick⟩ := hturn
      exact ⟨res, rfl, hmoved, fun hnone => absurd hnone herr, fun hh => absurd hh hsick⟩

/-! ### What is let through -/

/-- The request has not been refused, nor taken for the end of the device. -/
def Outcome.accepted : Outcome → Prop
  | .refused _ | .eof => False
  | .transferred _ | .endless => True

/-- The device has a driver, there is a buffer header, and the user's buffer is in a data segment.
    -/
structure Env.Ready (e : Env) : Prop where
  drvmap : e.drvmap = true
  getrbuf : e.getrbuf = true
  iomapvp : e.iomapvp = true

/-- The start of a request. -/
def Request.start (r : Request) (mem disk vaddr : Bytes) : State :=
  ⟨⟨r.vbase, r.count, r.seek⟩, mem, disk, vaddr⟩

/-- **The check** compares the offset in the last block with the number of the last block. -/
theorem physiock_accepted (he : e.Ready) (r : Request) (mem disk vaddr : Bytes) :
    (physiock e r mem disk vaddr).accepted ↔
      (r.seek + r.count) % NBPSCTR < (r.nblocks + (2 ^ 32 - 1)) % 2 ^ 32 ∧ r.seek % NBPSCTR = 0 ∧
        r.given.getD 0 % NBPSCTR = 0 := by
  unfold physiock blocko
  simp only
  by_cases hgt : (r.seek + r.count) % NBPSCTR > (r.nblocks + (2 ^ 32 - 1)) % 2 ^ 32
  · rw [if_pos hgt]
    exact ⟨False.elim, fun h => absurd h.1 (by omega)⟩
  rw [if_neg hgt]
  by_cases heq : (r.seek + r.count) % NBPSCTR = (r.nblocks + (2 ^ 32 - 1)) % 2 ^ 32
  · rw [if_pos heq]
    refine ⟨fun h => ?_, fun h => absurd h.1 (by omega)⟩
    cases hw : r.write with
    | false =>
      rw [hw, if_pos rfl] at h
      exact h.elim
    | true =>
      rw [hw, if_neg (by decide)] at h
      exact h.elim
  rw [if_neg heq]
  have hlt : (r.seek + r.count) % NBPSCTR < (r.nblocks + (2 ^ 32 - 1)) % 2 ^ 32 := by omega
  unfold ioUserReq blocko
  rw [if_neg (by rw [he.drvmap]; decide)]
  by_cases hodd : r.seek % NBPSCTR ≠ 0 ∨ r.given.getD 0 % NBPSCTR ≠ 0
  · rw [if_pos hodd]
    exact ⟨False.elim, fun h => hodd.elim (fun h' => absurd h.2.1 h') fun h' => absurd h.2.2 h'⟩
  obtain ⟨hseek, hgiven⟩ := not_or.mp hodd
  rw [if_neg hodd, if_neg (by rw [he.getrbuf]; exact fun h => Bool.noConfusion h.2)]
  refine ⟨fun _ => ⟨hlt, not_not.mp hseek, not_not.mp hgiven⟩, fun _ => ?_⟩
  simp only
  cases loop e r.write r.given r.count _ <;> trivial

/-- A request that is let through is left to the loop. -/
theorem physiock_eq (he : e.Ready) (h : (physiock e r mem disk vaddr).accepted) :
    physiock e r mem disk vaddr =
      match loop e r.write r.given r.count (r.start mem disk vaddr) with
      | none => .endless
      | some res => .transferred res := by
  obtain ⟨hlt, hseek, hgiven⟩ := (physiock_accepted he r mem disk vaddr).mp h
  unfold physiock blocko ioUserReq blocko
  simp only
  rw [if_neg (by omega), if_neg (by omega), if_neg (by rw [he.drvmap]; decide),
    if_neg (not_or.mpr ⟨not_not.mpr hseek, not_not.mpr hgiven⟩),
      if_neg (by rw [he.getrbuf]; exact fun h => Bool.noConfusion h.2)]
  rfl

/-- The requests for which the check is right. -/
def Request.Checked (r : Request) : Prop :=
  r.seek % NBPSCTR = 0 →
    if r.given.getD 0 % NBPSCTR ≠ 0 then ¬(r.count % NBPSCTR = 0 ∧ r.InRange)
    else if r.count % NBPSCTR = 0 then r.InRange ↔ r.nblocks ≠ 1
    else r.nblocks ≠ 0 ∧ r.nblocks - 1 ≤ r.count % NBPSCTR

theorem checked_iff (he : e.Ready) (r : Request) (mem disk vaddr : Bytes) :
    ((physiock e r mem disk vaddr).accepted ↔ r.Aligned ∧ r.InRange) ↔ r.Checked := by
  rw [physiock_accepted he]
  have hlast : (r.nblocks + (2 ^ 32 - 1)) % 2 ^ 32 =
      if r.nblocks = 0 then 2 ^ 32 - 1 else r.nblocks - 1 := by
    have := r.nblocks_lt
    split_ifs <;> omega
  rw [hlast]
  unfold Request.Checked Request.Aligned
  by_cases hseek : r.seek % NBPSCTR = 0
  swap
  · exact ⟨fun _ h => absurd h hseek, fun _ => ⟨fun h => absurd h.2.1 hseek,
      fun h => absurd h.1.1 hseek⟩⟩
  by_cases hgiven : r.given.getD 0 % NBPSCTR = 0
  swap
  · rw [if_pos hgiven]
    simp only [hseek, hgiven, and_false, false_iff, true_and, true_implies]
  rw [if_neg (not_not.mpr hgiven)]
  by_cases hcount : r.count % NBPSCTR = 0
  · rw [if_pos hcount]
    have hsum : (r.seek + r.count) % NBPSCTR = 0 := by
      unfold NBPSCTR at *
      omega
    rw [hsum]
    have hone : (0 < if r.nblocks = 0 then 2 ^ 32 - 1 else r.nblocks - 1) ↔ r.nblocks ≠ 1 := by
      split_ifs <;> omega
    rw [hone]
    simp only [hseek, hgiven, hcount, true_and, and_true, true_implies]
    exact iff_comm
  · rw [if_neg hcount]
    have hsum : (r.seek + r.count) % NBPSCTR = r.count % NBPSCTR := by
      unfold NBPSCTR at *
      omega
    rw [hsum]
    have hbelow : (r.count % NBPSCTR < if r.nblocks = 0 then 2 ^ 32 - 1 else r.nblocks - 1) ↔
        ¬(r.nblocks ≠ 0 ∧ r.nblocks - 1 ≤ r.count % NBPSCTR) := by
      unfold NBPSCTR at *
      split_ifs <;> omega
    rw [hbelow]
    simp only [hseek, hgiven, hcount, and_true, true_implies, and_false, false_and, iff_false,
      not_not]

/-! ### Writes through a buffer -/

/-- A transfer that fails before it has moved anything. -/
def nothing : Reply := ⟨0, true, EIO⟩

theorem move_zero (dst src : Bytes) (d s : ℕ) : move dst d src s 0 = dst := by
  funext k
  exact if_neg (by omega)

theorem nothing_done (n : ℕ) : nothing.done n = 0 := by
  unfold Reply.done nothing
  rw [Nat.zero_mul, Nat.zero_min]

theorem nothing_failed (n : ℕ) : nothing.failed n := Or.inl rfl

/-- A block that cannot be written through the cache has been counted all the same. -/
theorem cacheTurn_fails (hioc : NBPSCTR ≤ st.io.ioc)
    (hfail : e.strat true (blockn st.io.seek) NBPSCTR = nothing) (amount : ℕ) :
    ∃ res, cacheTurn e true st amount = .stop res ∧ res.st.io.ioc = st.io.ioc - NBPSCTR ∧
      res.st.disk = st.disk := by
  refine ⟨⟨some EIO, some EIO, { st with io := st.io.advance NBPSCTR }⟩, ?_, rfl, rfl⟩
  unfold cacheTurn
  simp only [if_pos hioc, Bool.true_eq_false, false_or, lt_irrefl, if_false, hfail, nothing_done]
  rw [if_pos (nothing_failed _)]
  unfold ioread
  simp only [move_zero]
  rfl

/-- So has a chunk of the buffer that is given. -/
theorem givenTurn_fails {amount : ℕ} (hfail : e.strat true (blockn st.io.seek) amount = nothing) :
    ∃ res, givenTurn e true st amount = .stop res ∧ res.st.io.ioc = st.io.ioc - amount ∧
      res.st.disk = st.disk := by
  refine ⟨⟨some EIO, some EIO, { st with io := st.io.advance amount
                                         vaddr := (ioread st st.vaddr amount).1 }⟩, ?_, rfl, rfl⟩
  unfold givenTurn
  simp only [if_true, hfail, nothing_done]
  rw [if_pos (nothing_failed _)]
  unfold ioread
  simp only [move_zero]
  rfl

/-- A chunk that is written wholly. -/
theorem directTurn_whole {amount : ℕ} (hat : st.io.seek % NBPSCTR = 0) (hpos : 0 < amount)
    (hok : e.strat true (blockn st.io.seek) amount = ⟨amount, false, 0⟩) :
    directTurn e true st amount = .next ⟨⟨st.io.vbase + amount, st.io.ioc - amount,
      st.io.seek + amount⟩, st.mem, move st.disk st.io.seek st.mem st.io.vbase amount,
      st.vaddr⟩ := by
  have hdone : (⟨amount, false, 0⟩ : Reply).done amount = amount :=
    Nat.min_eq_right (Nat.le_mul_of_pos_right amount (by decide))
  have hnot : ¬ (⟨amount, false, 0⟩ : Reply).failed amount := by
    rintro (h | h)
    · cases h
    · omega
  unfold directTurn
  simp only [if_true, blockn_mul hat, hok, hdone]
  rw [if_neg hnot]
  rfl

/-- A device that fails at one block. -/
def badAt (bad : ℕ) : Env where
  drvmap := true
  getrbuf := true
  iomapvp := true
  cached _ := false
  stale _ := 0
  strat _ bno count := if bno = bad then nothing else ⟨count, false, 0⟩

theorem badAt_ready (bad : ℕ) : (badAt bad).Ready := ⟨rfl, rfl, rfl⟩

/-- The first block that is on two pages is counted when it cannot be written. -/
theorem loop_loses (haligned : r.Aligned) {p : ℕ} (hp : p < r.count) (hpw : p % NBPSCTR = 0)
    (hcross : NBPC < (r.vbase + p) % NBPC + NBPSCTR)
    (hleast : ∀ q < p, q % NBPSCTR = 0 → (r.vbase + q) % NBPC + NBPSCTR ≤ NBPC) {left : ℕ}
    (hleft : st.io.ioc ≤ left) (hle : st.io.ioc ≤ r.count) (hfar : r.count - st.io.ioc ≤ p)
    (hwhole : st.io.ioc % NBPSCTR = 0) (hvbase : st.io.vbase = r.vbase + (r.count - st.io.ioc))
    (hseek : st.io.seek = r.seek + (r.count - st.io.ioc)) :
    ∃ res, loop (badAt (blockn (r.seek + p))) true none left st = some res ∧
      r.count - res.st.io.ioc = p + NBPSCTR ∧
      res.st.disk (r.seek + p) = st.disk (r.seek + p) := by
  obtain ⟨hs, hc⟩ := haligned
  induction left generalizing st with
  | zero => omega
  | succ left ih =>
    have hpos : 0 < st.io.ioc := by omega
    have hioc : NBPSCTR ≤ st.io.ioc := by
      unfold NBPSCTR at *
      omega
    have hat : st.io.seek % NBPSCTR = 0 := by
      rw [hseek]
      unfold NBPSCTR at *
      omega
    unfold loop turn blocko
    rw [if_neg (by omega), if_neg (not_not.mpr hat), if_neg (fun h => Bool.noConfusion h.2)]
    simp only
    rcases hfar.lt_or_eq with hlt | heq
    · -- a chunk before that block, which ends before it as well
      have hfree := hleast _ hlt (by unfold NBPSCTR at *; omega)
      have hdirect : ¬ chunk none st.io < NBPSCTR := by
        rw [chunk_cached hwhole hpos, hvbase]
        omega
      obtain ⟨hchunk, hblocks⟩ := @chunk_spec none st.io hwhole rfl
      have hamount := hblocks (not_lt.mp hdirect)
      have hpage : chunk none st.io ≤ NBPC - st.io.vbase % NBPC := by
        unfold chunk
        simp only
        split_ifs <;> omega
      have hbefore : r.count - st.io.ioc + chunk none st.io ≤ p := by
        by_contra hover
        rw [hvbase] at hpage
        unfold NBPSCTR NBPC at *
        omega
      have hpos' : 0 < chunk none st.io := by
        unfold NBPSCTR at hdirect
        omega
      generalize chunk none st.io = amount at *
      have hok : (badAt (blockn (r.seek + p))).strat true (blockn st.io.seek) amount =
          ⟨amount, false, 0⟩ := by
        refine if_neg ?_
        unfold blockn
        unfold NBPSCTR at *
        omega
      rw [if_neg hdirect, directTurn_whole hat hpos' hok]
      obtain ⟨res, hloop, hres, hdisk⟩ :=
        @ih ⟨⟨st.io.vbase + amount, st.io.ioc - amount, st.io.seek + amount⟩, st.mem,
          move st.disk st.io.seek st.mem st.io.vbase amount, st.vaddr⟩
        (by simp only; omega) (by simp only; omega) (by simp only; omega)
        (by simp only; unfold NBPSCTR at *; omega) (by simp only; omega) (by simp only; omega)
      refine ⟨res, hloop, hres, hdisk.trans ?_⟩
      exact if_neg (by omega)
    · -- that block
      have hcached : chunk none st.io < NBPSCTR := by
        rw [chunk_cached hwhole hpos, hvbase, heq]
        exact hcross
      have hfail : (badAt (blockn (r.seek + p))).strat true (blockn st.io.seek) NBPSCTR =
          nothing := by
        rw [hseek, heq]
        exact if_pos rfl
      obtain ⟨res, hturn, hres, hdisk⟩ := cacheTurn_fails hioc hfail (chunk none st.io)
      rw [if_pos hcached, hturn]
      refine ⟨res, rfl, ?_, congrFun hdisk _⟩
      rw [hres]
      omega

/-! ### The call -/

/-- What `physiock` is for: it lets through just the requests of whole blocks that the device has;
    and then its loop ends, it moves the bytes of the request to their places and no others, all of
    them unless it reports an error, which it does only when the device has failed, and what it
    reports as moved has been. -/
structure Request.Served (r : Request) : Prop where
  accepts : ∀ e mem disk vaddr, e.Ready →
    ((physiock e r mem disk vaddr).accepted ↔ r.Aligned ∧ r.InRange)
  moves : ∀ e mem disk vaddr, e.Ready → (physiock e r mem disk vaddr).accepted →
    ∃ res, physiock e r mem disk vaddr = .transferred res ∧
      Moved r (r.start mem disk vaddr) res.st ∧ (res.uError = none → res.st.io.ioc = 0) ∧
      (e.Healthy → res.uError = none)

theorem start_between (haligned : r.Aligned) (mem disk vaddr : Bytes) :
    Between r (r.start mem disk vaddr) (r.start mem disk vaddr) := by
  have h0 : r.count - (r.start mem disk vaddr).io.ioc = 0 := Nat.sub_self _
  refine ⟨⟨le_rfl, fun _ => ⟨rfl, ?_⟩, fun _ => ⟨rfl, ?_⟩⟩, haligned.2, ?_, ?_⟩
  · rw [h0]
    exact Filled.zero _ _ _ _ _
  · rw [h0]
    exact Filled.zero _ _ _ _ _
  · rw [h0]
    rfl
  · rw [h0]
    rfl

/-- Bytes that differ show what has been moved. -/
theorem moved_shows (hw : r.write = true) (h : Moved r (r.start (fun _ => 1) (fun _ => 0) vaddr) st)
    {p : ℕ} (hp : p < r.count - st.io.ioc) : st.disk (r.seek + p) = 1 := (h.write hw).2.1 p hp

/-- The first chunk of the buffer that is given is counted when it cannot be written. -/
theorem given_loses (haligned : r.Aligned) (hcount : 0 < r.count) (bufsiz : ℕ)
    (mem disk vaddr : Bytes) :
    ∃ res, loop (badAt (blockn r.seek)) true (some bufsiz) r.count (r.start mem disk vaddr) =
        some res ∧ 0 < r.count - res.st.io.ioc ∧ res.st.disk = disk := by
  have hblock : NBPSCTR ≤ (r.start mem disk vaddr).io.ioc := by
    show NBPSCTR ≤ r.count
    have := haligned.2
    unfold NBPSCTR at *
    omega
  have hat : (r.start mem disk vaddr).io.seek % NBPSCTR = 0 := haligned.1
  have hstart : (r.start mem disk vaddr).io.ioc = r.count := rfl
  have hfail : ∀ n, (badAt (blockn r.seek)).strat true
      (blockn (r.start mem disk vaddr).io.seek) n = nothing := fun n => if_pos rfl
  obtain ⟨left, hleft⟩ : ∃ left, r.count = left + 1 := ⟨r.count - 1, by omega⟩
  have hturn : ∃ res, turn (badAt (blockn r.seek)) true (some bufsiz) (r.start mem disk vaddr) =
      .stop res ∧ 0 < r.count - res.st.io.ioc ∧ res.st.disk = disk := by
    unfold turn blocko
    rw [if_neg (not_not.mpr hat), if_neg (fun h => absurd h.1 (Option.some_ne_none _))]
    simp only
    by_cases hsmall : chunk (some bufsiz) (r.start mem disk vaddr).io < NBPSCTR
    · rw [if_pos hsmall]
      obtain ⟨res, hcache, hioc, hdisk⟩ := cacheTurn_fails hblock (hfail _)
        (chunk (some bufsiz) (r.start mem disk vaddr).io)
      refine ⟨res, hcache, ?_, hdisk⟩
      unfold NBPSCTR at *
      omega
    · rw [if_neg hsmall]
      obtain ⟨res, hgiven, hioc, hdisk⟩ :=
        givenTurn_fails (hfail (chunk (some bufsiz) (r.start mem disk vaddr).io))
      refine ⟨res, hgiven, ?_, hdisk⟩
      unfold NBPSCTR at *
      omega
  obtain ⟨res, hturn, hioc, hdisk⟩ := hturn
  refine ⟨res, ?_, hioc, hdisk⟩
  rw [hleft, loop, if_neg (by omega), hturn]

/-- A write that is served needs no buffer. -/
theorem served_safe (h : r.Served) (hw : r.write = true) (haligned : r.Aligned)
    (hrange : r.InRange) (hcount : 0 < r.count) : r.given = none ∧ r.Uncrossed := by
  have hrun : ∀ bad, ∃ res,
      loop (badAt bad) true r.given r.count (r.start (fun _ => 1) (fun _ => 0) fun _ => 0) =
        some res ∧ Moved r (r.start (fun _ => 1) (fun _ => 0) fun _ => 0) res.st := by
    intro bad
    have hok := (h.accepts (badAt bad) (fun _ => 1) (fun _ => 0) (fun _ => 0)
      (badAt_ready bad)).mpr ⟨haligned, hrange⟩
    obtain ⟨res, hres, hmoved, -, -⟩ := h.moves (badAt bad) _ _ _ (badAt_ready bad) hok
    rw [physiock_eq (badAt_ready bad) hok, hw] at hres
    cases hloop : loop (badAt bad) true r.given r.count
        (r.start (fun _ => 1) (fun _ => 0) fun _ => 0) with
    | none =>
      rw [hloop] at hres
      cases hres
    | some res' =>
      rw [hloop] at hres
      cases hres
      exact ⟨res, rfl, hmoved⟩
  cases hg : r.given with
  | some bufsiz =>
    obtain ⟨res, hloop, hmoved⟩ := hrun (blockn r.seek)
    obtain ⟨res', hloop', hioc, hdisk⟩ :=
      given_loses haligned hcount bufsiz (fun _ => 1) (fun _ => 0) fun _ => 0
    rw [hg, hloop'] at hloop
    cases hloop
    have hbyte := moved_shows hw hmoved hioc
    rw [hdisk] at hbyte
    exact absurd hbyte zero_ne_one
  | none =>
    refine ⟨rfl, ?_⟩
    by_contra hcrossed
    have hex : ∃ p, p < r.count ∧ p % NBPSCTR = 0 ∧ NBPC < (r.vbase + p) % NBPC + NBPSCTR := by
      unfold Request.Uncrossed at hcrossed
      push Not at hcrossed
      exact hcrossed
    obtain ⟨hp, hpw, hcross⟩ := Nat.find_spec hex
    have hleast : ∀ q < Nat.find hex, q % NBPSCTR = 0 →
        (r.vbase + q) % NBPC + NBPSCTR ≤ NBPC := by
      intro q hq hqw
      have hnot := Nat.find_min hex hq
      by_contra hcr
      exact hnot ⟨by omega, hqw, not_le.mp hcr⟩
    obtain ⟨res, hloop, hmoved⟩ := hrun (blockn (r.seek + Nat.find hex))
    rw [hg] at hloop
    have h0 : r.count - (r.start (fun _ => 1) (fun _ => 0) fun _ => 0).io.ioc = 0 := Nat.sub_self _
    obtain ⟨res', hloop', hioc, hdisk⟩ := loop_loses haligned hp hpw hcross hleast
      (show (r.start (fun _ => 1) (fun _ => 0) fun _ => 0).io.ioc ≤ r.count from le_rfl) le_rfl
      (h0.trans_le (Nat.zero_le _)) haligned.2 (by rw [h0]; rfl) (by rw [h0]; rfl)
    rw [hloop'] at hloop
    cases hloop
    have hcounted : Nat.find hex < r.count - res.st.io.ioc := by
      rw [hioc]
      exact Nat.lt_add_of_pos_right (by decide)
    have hbyte := moved_shows hw hmoved hcounted
    rw [hdisk] at hbyte
    exact absurd hbyte zero_ne_one

/-- **Raw transfers.** `physiock` does what it is for, whatever the device does and whatever the
    bytes are, just when its check is right about the request, and the request does not write
    through a buffer: that of the caller, or one of the cache for a block that is on two pages of
    the user. -/
theorem physiock_served_iff (r : Request) : r.Served ↔
    r.Checked ∧ (r.write = true → r.Aligned → r.InRange → 0 < r.count →
      r.given = none ∧ r.Uncrossed) := by
  constructor
  · intro h
    have hready := badAt_ready 0
    exact ⟨(checked_iff hready r (fun _ => 0) (fun _ => 0) fun _ => 0).mp
      (h.accepts _ _ _ _ hready),
      served_safe h⟩
  · rintro ⟨hchecked, hsafe⟩
    have haccepts : ∀ e mem disk vaddr, e.Ready →
        ((physiock e r mem disk vaddr).accepted ↔ r.Aligned ∧ r.InRange) :=
      fun e mem disk vaddr he => (checked_iff he r mem disk vaddr).mpr hchecked
    refine ⟨haccepts, fun e mem disk vaddr he hok => ?_⟩
    obtain ⟨haligned, hrange⟩ := (haccepts e mem disk vaddr he).mp hok
    obtain ⟨-, -, hgiven⟩ := (physiock_accepted he r mem disk vaddr).mp hok
    obtain ⟨res, hloop, hmoved, hall, hhealthy⟩ := loop_spec he.iomapvp haligned hgiven
      (fun hw hcount => hsafe hw haligned hrange hcount)
      (show (r.start mem disk vaddr).io.ioc ≤ r.count from le_rfl)
      (start_between haligned mem disk vaddr)
    refine ⟨res, ?_, hmoved, hall, hhealthy⟩
    rw [physiock_eq he hok, hloop]

/-- A block is read from a device of a thousand blocks, behind its last one. -/
def behindLast : Request where
  write := false
  seek := 1000 * NBPSCTR
  count := NBPSCTR
  vbase := 0
  nblocks := 1000
  given := none
  seek_le := by decide
  vbase_le := by decide
  nblocks_lt := by decide

/-- **The check fails**: a block that the device does not have is asked for. -/
theorem behindLast_accepted : ¬ behindLast.Served := by
  intro h
  have hok : (physiock (badAt 0) behindLast (fun _ => 0) (fun _ => 0) fun _ => 0).accepted := by
    rw [physiock_accepted (badAt_ready 0)]
    exact ⟨by decide, by decide, by decide⟩
  obtain ⟨-, hrange⟩ := (h.accepts _ _ _ _ (badAt_ready 0)).mp hok
  exact absurd (hrange 1000 (by decide) (by decide)) (by decide)

end CohKernel.Rawio
