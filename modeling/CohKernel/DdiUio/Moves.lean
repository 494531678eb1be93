import Mathlib.Algebra.Order.BigOperators.Group.List
import Mathlib.Tactic.Ring
import CohKernel.DdiUio.Defs

namespace CohKernel.DdiUio

/-!
# What `uiomove`, `ureadc` and `uwritec` move

A request is a stream of places in memory, and each routine is to move the next of them.

* `sound_advance` — the residual count stays the sum of the lengths;
* `uiomove_moves`, `ureadc_moves`, `uwritec_moves` — when the routines move the next bytes;
* `stream_moved` — the three together;
* `second_entry_stuck` — `uiomove` does not come back when the first entry has not all bytes.
-/

variable {iov : List Iovec} {s : State} {fault : Fault} {addr : ℕ} {nbytes : ℤ} {rwflag : Rw}

/-! ### The stream -/

/-- The places of an entry. -/
def Iovec.places (v : Iovec) : List ℕ := List.range' v.iovBase v.iovLen.toNat

/-- The places of all entries in order. -/
def places (iov : List Iovec) : List ℕ := iov.flatMap Iovec.places

/-- The entries after `m` bytes have been moved. -/
def advance : ℕ → List Iovec → List Iovec
  | _, [] => []
  | m, v :: iov =>
    ⟨v.iovBase + min m v.iovLen.toNat, v.iovLen - (min m v.iovLen.toNat : ℕ)⟩ ::
      advance (m - v.iovLen.toNat) iov

/-- The request after `m` bytes have been moved. -/
def Uio.advance (uiop : Uio) (m : ℕ) : Uio :=
  { uiop with
    uioIov := DdiUio.advance m uiop.uioIov
    uioOffset := uiop.uioOffset + m
    uioResid := uiop.uioResid - m }

/-- The lengths are those of an `int`, and the residual count is their sum. -/
structure Uio.Sound (uiop : Uio) : Prop where
  len : ∀ v ∈ uiop.uioIov, 0 ≤ v.iovLen ∧ v.iovLen < 2 ^ 31
  resid : uiop.uioResid = (uiop.uioIov.map Iovec.iovLen).sum

theorem advance_zero (iov : List Iovec) : advance 0 iov = iov := by
  induction iov with
  | nil => rfl
  | cons v iov ih =>
    unfold advance
    rw [Nat.zero_min, Nat.zero_sub, ih]
    simp

theorem sum_nonneg (hlen : ∀ v ∈ iov, 0 ≤ v.iovLen) : 0 ≤ (iov.map Iovec.iovLen).sum :=
  List.sum_nonneg fun x hx => by
    obtain ⟨v, hv, rfl⟩ := List.mem_map.mp hx
    exact hlen v hv

theorem length_places (hlen : ∀ v ∈ iov, 0 ≤ v.iovLen) :
    ((places iov).length : ℤ) = (iov.map Iovec.iovLen).sum := by
  induction iov with
  | nil => rfl
  | cons v iov ih =>
    have hv := hlen v List.mem_cons_self
    show ((v.places ++ places iov).length : ℤ) = _
    rw [List.length_append, List.map_cons, List.sum_cons,
      ← ih fun w hw => hlen w (List.mem_cons_of_mem v hw)]
    unfold Iovec.places
    rw [List.length_range']
    omega

theorem sum_advance (hlen : ∀ v ∈ iov, 0 ≤ v.iovLen) (m : ℕ)
    (hm : (m : ℤ) ≤ (iov.map Iovec.iovLen).sum) :
    ((advance m iov).map Iovec.iovLen).sum = (iov.map Iovec.iovLen).sum - m := by
  induction iov generalizing m with
  | nil => simpa [advance] using hm
  | cons v iov ih =>
    have hv := hlen v List.mem_cons_self
    have htail : ∀ w ∈ iov, 0 ≤ w.iovLen := fun w hw => hlen w (List.mem_cons_of_mem v hw)
    have hsum := sum_nonneg htail
    simp only [advance, List.map_cons, List.sum_cons] at hm ⊢
    rw [ih htail _ (by omega)]
    omega

theorem len_advance (hlen : ∀ v ∈ iov, 0 ≤ v.iovLen ∧ v.iovLen < 2 ^ 31) (m : ℕ) :
    ∀ v ∈ advance m iov, 0 ≤ v.iovLen ∧ v.iovLen < 2 ^ 31 := by
  induction iov generalizing m with
  | nil => exact fun v hv => by cases hv
  | cons w iov ih =>
    intro v hv
    have hw := hlen w List.mem_cons_self
    rcases List.mem_cons.mp hv with rfl | hv
    · dsimp only
      omega
    · exact ih (fun x hx => hlen x (List.mem_cons_of_mem w hx)) _ v hv

/-- **The residual count stays the sum of the lengths.** -/
theorem sound_advance {uiop : Uio} (h : uiop.Sound) {m : ℕ} (hm : (m : ℤ) ≤ uiop.uioResid) :
    (uiop.advance m).Sound where
  len := len_advance h.len m
  resid := by
    show uiop.uioResid - m = ((advance m uiop.uioIov).map Iovec.iovLen).sum
    rw [sum_advance (fun v hv => (h.len v hv).1) m (h.resid ▸ hm), h.resid]

/-! ### What is to be moved -/

/-- The state after `uiomove` has moved `m` bytes. -/
def State.moves (s : State) (addr m : ℕ) (rwflag : Rw) : State :=
  let next := (places s.uio.uioIov).take m
  match rwflag with
  | .read =>
    { s.setMem (s.mem.puts next (s.kernel.bytes addr m)) with uio := s.uio.advance m }
  | .write =>
    { s with
      kernel := s.kernel.puts (List.range' addr m) (next.map s.mem)
      uio := s.uio.advance m }

/-- `uiomove` moves the next bytes, as many as are asked for and left. -/
def State.UiomoveMoves (s : State) (fault : Fault) (addr : ℕ) (nbytes : ℤ) (rwflag : Rw) : Prop :=
  ∃ fuel ret s', s.uiomove fault addr nbytes rwflag fuel = some (ret, s') ∧ s'.uio.Sound ∧
    s' = s.moves addr (min nbytes s.uio.uioResid).toNat rwflag

/-- `ureadc` moves the character to the next place, if there is one. -/
def State.UreadcMoves (s : State) (fault : Fault) (c : UInt8) : Prop :=
  let m := (min 1 s.uio.uioResid).toNat
  ∃ ret s', s.ureadc fault c = some (ret, s') ∧ s'.uio.Sound ∧
    s' = { s.setMem (s.mem.puts ((places s.uio.uioIov).take m) [c]) with uio := s.uio.advance m }

/-- `uwritec` returns the next character, or −1 if there is none. -/
def State.UwritecMoves (s : State) (fault : Fault) (signed : Bool) : Prop :=
  let m := (min 1 s.uio.uioResid).toNat
  ∃ ret s', s.uwritec fault signed = some (ret, s') ∧ s'.uio.Sound ∧
    s' = { s with uio := s.uio.advance m } ∧
    ret = ((places s.uio.uioIov).take m).head?.elim (-1) fun a => ((s.mem a).toNat : ℤ)

/-! ### `uiomove` -/

/-- **The condition of `uiomove`.**  The first entry has all bytes, and they are there. -/
def State.InFirst (s : State) (fault : Fault) (nbytes : ℤ) : Prop :=
  nbytes ≤ 0 ∨ ∃ v ∈ s.uio.uioIov.head?, nbytes ≤ v.iovLen ∧
    (s.uio.uioSegflg = .userspace → fault v.iovBase nbytes.toNat = none)

/-- With an empty first entry `uiomove` goes on for ever. -/
theorem loop_stuck {v : Iovec} (hv : s.uio.uioIov.head? = some v) (hlen : v.iovLen = 0)
    (hpos : 0 < nbytes) (fuel scan : ℕ) :
    State.uiomoveLoop fault rwflag fuel scan addr nbytes s = none := by
  induction fuel generalizing scan with
  | zero => rfl
  | succ fuel ih =>
    unfold State.uiomoveLoop
    have hsize : ¬ nbytes < (sizeT v.iovLen : ℤ) := by
      rw [hlen]
      exact not_lt.mpr hpos.le
    rw [if_pos hpos, hv]
    dsimp only
    rw [if_neg hsize, if_pos (by rw [hlen]; rfl)]
    exact ih _

theorem sizeT_eq {len : ℤ} (h : 0 ≤ len ∧ len < 2 ^ 31) : sizeT len = len.toNat := by
  unfold sizeT
  omega

/-- The first block. -/
theorem loop_first (fault : Fault) (addr : ℕ) (rwflag : Rw) {v : Iovec} {iov : List Iovec}
    (hv : s.uio.uioIov = v :: iov) (hlen : 0 ≤ v.iovLen ∧ v.iovLen < 2 ^ 31) (hpos : 0 < nbytes)
    (hne : v.iovLen ≠ 0) (fuel : ℕ) :
    let size := (min nbytes v.iovLen).toNat
    let r := s.block fault addr v.iovBase size rwflag
    State.uiomoveLoop fault rwflag (fuel + 1) 0 addr nbytes s =
      if r.1 then
        State.uiomoveLoop fault rwflag fuel 1 (addr + size) (nbytes - size)
          { r.2 with uio := r.2.uio.moved 0 size }
      else some (nbytes, r.2) := by
  intro size r
  have hsize : (if nbytes < (sizeT v.iovLen : ℤ) then nbytes.toNat else sizeT v.iovLen) = size := by
    rw [sizeT_eq hlen]
    show _ = (min nbytes v.iovLen).toNat
    split <;> omega
  have hne' : size ≠ 0 := by
    show (min nbytes v.iovLen).toNat ≠ 0
    omega
  rw [State.uiomoveLoop, if_pos hpos, hv]
  simp only [List.head?_cons, hsize, hne', if_false, List.getElem?_cons_zero]
  cases hwhole : r.1 with
  | false =>
    simp only [Bool.not_false, if_true, Bool.false_eq_true, if_false]
    rfl
  | true =>
    simp only [Bool.not_true, if_true, Bool.false_eq_true, if_false]
    rfl

/-- A block changes nothing of the request. -/
theorem block_uio (base size : ℕ) : (s.block fault addr base size rwflag).2.uio = s.uio := by
  unfold State.block State.kucopy State.ukcopy
  cases rwflag <;> cases s.uio.uioSegflg <;> dsimp only <;>
    cases fault base size <;> rfl

/-- A block is moved whole unless the user's memory faults. -/
theorem block_whole {base size : ℕ} (hsize : size ≠ 0) :
    (s.block fault addr base size rwflag).1 = true ↔
      (s.uio.uioSegflg = .userspace → fault base size = none) := by
  unfold State.block State.kucopy State.ukcopy
  cases rwflag <;> cases s.uio.uioSegflg <;> dsimp only <;>
    cases fault base size <;> simp [hsize.symm]

theorem take_places {v : Iovec} {iov : List Iovec} {m : ℕ} (hm : m ≤ v.iovLen.toNat) :
    (places (v :: iov)).take m = List.range' v.iovBase m := by
  show (v.places ++ places iov).take m = _
  rw [List.take_append_of_le_length (by simpa [Iovec.places] using hm)]
  unfold Iovec.places
  rw [List.take_range'_of_length_ge hm]

theorem modify_advance {v : Iovec} {iov : List Iovec} {m : ℕ} (hm : m ≤ v.iovLen.toNat) :
    (v :: iov).modify 0 (fun v => ⟨v.iovBase + m, v.iovLen - m⟩) = advance m (v :: iov) := by
  show _ :: iov = _ :: advance (m - v.iovLen.toNat) iov
  rw [Nat.sub_eq_zero_of_le hm, advance_zero, min_eq_left hm]

/-- **One block of the first entry** is what is to be moved. -/
theorem block_moves {v : Iovec} {iov : List Iovec} {m : ℕ} (hv : s.uio.uioIov = v :: iov)
    (hm : m ≤ v.iovLen.toNat) (hfault : s.uio.uioSegflg = .userspace → fault v.iovBase m = none) :
    { (s.block fault addr v.iovBase m rwflag).2 with
      uio := (s.block fault addr v.iovBase m rwflag).2.uio.moved 0 m } =
        s.moves addr m rwflag := by
  have huio : s.uio.moved 0 m = s.uio.advance m := by
    unfold Uio.moved Uio.advance
    rw [hv, modify_advance hm]
  rw [block_uio, huio]
  unfold State.block State.kucopy State.ukcopy State.memcpy State.moves State.setMem State.mem
  rw [hv, take_places hm]
  cases rwflag <;> cases hseg : s.uio.uioSegflg <;> dsimp only
  all_goals first | rw [hfault hseg] | skip
  all_goals rfl

theorem moves_zero (addr : ℕ) (rwflag : Rw) : s.moves addr 0 rwflag = s := by
  have huio : s.uio.advance 0 = s.uio := by simp [Uio.advance, advance_zero]
  unfold State.moves State.setMem State.mem
  rw [huio]
  cases rwflag <;> cases hseg : s.uio.uioSegflg <;> rfl

theorem moves_uio (addr m : ℕ) (rwflag : Rw) : (s.moves addr m rwflag).uio = s.uio.advance m := by
  cases rwflag <;> rfl

/-- Nothing that is asked for is refused. -/
theorem uiomove_first (h : s.uio.Sound) (hcond : s.InFirst fault nbytes) :
    s.UiomoveMoves fault addr nbytes rwflag := by
  unfold State.UiomoveMoves State.uiomove
  by_cases hpos : 0 < nbytes
  swap
  · have hzero : (min nbytes s.uio.uioResid).toNat = 0 := by omega
    rw [hzero, moves_zero]
    refine ⟨1, if nbytes = 0 then 0 else EFAULT, s, ?_, h, rfl⟩
    rw [State.uiomoveLoop, if_neg hpos]
    rfl
  · obtain ⟨v, hv, hle, hfault⟩ := hcond.resolve_left (not_le.mpr hpos)
    obtain ⟨iov, hiov⟩ : ∃ iov, s.uio.uioIov = v :: iov := List.head?_eq_some_iff.mp hv
    have hlen := h.len v (hiov ▸ List.mem_cons_self)
    have htail : 0 ≤ (iov.map Iovec.iovLen).sum :=
      sum_nonneg fun w hw => (h.len w (hiov ▸ List.mem_cons_of_mem v hw)).1
    have hresid := h.resid
    rw [hiov, List.map_cons, List.sum_cons] at hresid
    have hm : (min nbytes s.uio.uioResid).toNat = nbytes.toNat := by omega
    have hsize : (min nbytes v.iovLen).toNat = nbytes.toNat := by omega
    have hfirst := loop_first fault addr rwflag hiov hlen hpos (by omega) 1
    dsimp only at hfirst
    have hnone : ¬ nbytes - (nbytes.toNat : ℤ) > 0 := by omega
    have hend : State.uiomoveLoop fault rwflag 1 1 (addr + nbytes.toNat) (nbytes - nbytes.toNat)
        (s.moves addr nbytes.toNat rwflag) =
          some (nbytes - nbytes.toNat, s.moves addr nbytes.toNat rwflag) := by
      rw [State.uiomoveLoop, if_neg hnone]
    rw [hsize, if_pos ((block_whole (by omega)).mpr hfault), block_moves hiov (by omega) hfault,
      hend] at hfirst
    rw [hm]
    refine ⟨2, _, s.moves addr nbytes.toNat rwflag, Option.map_eq_some_iff.mpr ⟨_, hfirst, rfl⟩, ?_,
      rfl⟩
    rw [moves_uio]
    exact sound_advance h (by omega)

/-- What `uiomove` moves is in the first entry. -/
theorem first_uiomove (h : s.uio.Sound) (hmoves : s.UiomoveMoves fault addr nbytes rwflag) :
    s.InFirst fault nbytes := by
  unfold State.InFirst
  rw [or_iff_not_imp_left, not_le]
  intro hpos
  obtain ⟨fuel, ret, s', hrun, -, heq⟩ := hmoves
  obtain ⟨r, hrun, hr⟩ := Option.map_eq_some_iff.mp hrun
  have hs' : r.2 = s' := congrArg Prod.snd hr
  cases fuel with
  | zero => cases hrun
  | succ fuel =>
  cases hiov : s.uio.uioIov with
  | nil =>
    rw [State.uiomoveLoop, if_pos hpos, hiov] at hrun
    cases hrun
  | cons v iov =>
    have hlen := h.len v (hiov ▸ List.mem_cons_self)
    have htail : 0 ≤ (iov.map Iovec.iovLen).sum :=
      sum_nonneg fun w hw => (h.len w (hiov ▸ List.mem_cons_of_mem v hw)).1
    have hresid := h.resid
    rw [hiov, List.map_cons, List.sum_cons] at hresid
    by_cases hempty : v.iovLen = 0
    · rw [loop_stuck (congrArg List.head? hiov) hempty hpos] at hrun
      cases hrun
    have hsize : (min nbytes v.iovLen).toNat ≠ 0 := by omega
    have hfirst := loop_first fault addr rwflag hiov hlen hpos hempty fuel
    dsimp only at hfirst
    rw [hrun] at hfirst
    by_cases hwhole : (s.block fault addr v.iovBase (min nbytes v.iovLen).toNat rwflag).1 = true
    swap
    · -- a fault leaves the counts as they are
      rw [if_neg hwhole] at hfirst
      have hsame : s'.uio = s.uio := by
        rw [← hs', Option.some.inj hfirst]
        exact block_uio _ _
      rw [heq, moves_uio] at hsame
      have hcount := congrArg Uio.uioResid hsame
      simp only [Uio.advance] at hcount
      omega
    · have hfault := (block_whole hsize).mp hwhole
      rw [if_pos hwhole, block_moves hiov (by omega) hfault] at hfirst
      by_cases hle : nbytes ≤ v.iovLen
      · refine ⟨v, rfl, hle, fun hseg => ?_⟩
        rw [← hfault hseg, min_eq_left hle]
      · -- the first entry is empty now
        have hnext : (s.moves addr (min nbytes v.iovLen).toNat rwflag).uio.uioIov.head? =
            some ⟨v.iovBase + v.iovLen.toNat, 0⟩ := by
          rw [moves_uio]
          show (advance (min nbytes v.iovLen).toNat s.uio.uioIov).head? = _
          rw [hiov]
          simp only [advance, List.head?_cons, Option.some.injEq, Iovec.mk.injEq]
          omega
        rw [loop_stuck hnext rfl (by omega)] at hfirst
        cases hfirst

/-- **When `uiomove` moves the next bytes.** -/
theorem uiomove_moves (h : s.uio.Sound) :
    s.UiomoveMoves fault addr nbytes rwflag ↔ s.InFirst fault nbytes :=
  ⟨first_uiomove h, uiomove_first h⟩

/-! ### `ureadc` and `uwritec` -/

/-- The first entry that is not empty has the next place. -/
theorem full_spec {uiop : Uio} (h : uiop.Sound) (hpos : 0 < uiop.uioResid) :
    ∃ i v, uiop.full = some i ∧ uiop.uioIov[i]? = some v ∧ 0 < v.iovLen ∧
      (places uiop.uioIov).take 1 = [v.iovBase] ∧
      uiop.uioIov.modify i (fun v => ⟨v.iovBase + 1, v.iovLen - 1⟩) = advance 1 uiop.uioIov := by
  obtain ⟨hlen, hresid⟩ := h
  rw [hresid] at hpos
  unfold Uio.full
  generalize uiop.uioIov = iov at hlen hpos
  induction iov with
  | nil => exact absurd hpos (lt_irrefl 0)
  | cons v iov ih =>
    have hv := hlen v List.mem_cons_self
    by_cases hempty : v.iovLen = 0
    · rw [List.map_cons, List.sum_cons, hempty, zero_add] at hpos
      obtain ⟨i, w, hi, hw, hwpos, hplace, hnext⟩ :=
        ih (fun w hw => hlen w (List.mem_cons_of_mem v hw)) hpos
      refine ⟨i + 1, w, ?_, hw, hwpos, ?_, ?_⟩
      · rw [List.findIdx?_cons, if_neg (by simpa using hempty), hi]
        rfl
      · have hnone : v.places = [] := by
          unfold Iovec.places
          rw [hempty]
          rfl
        show (v.places ++ places iov).take 1 = _
        rw [hnone]
        exact hplace
      · show v :: iov.modify i _ = _
        rw [hnext]
        cases v with
        | mk base len =>
          cases (show len = 0 from hempty)
          rfl
    · refine ⟨0, v, ?_, rfl, by omega, take_places (by omega), modify_advance (by omega)⟩
      rw [List.findIdx?_cons, if_pos (by simpa using hempty)]

/-- **The entry grows** by the character that `ureadc` puts into it. -/
theorem ureadc_grows {c : UInt8} {i : ℕ} {v : Iovec} {ret : ℤ} {s' : State}
    (hpos : 0 < s.uio.uioResid) (hi : s.uio.full = some i) (hv : s.uio.uioIov[i]? = some v)
    (hrun : s.ureadc fault c = some (ret, s')) :
    s'.uio = s.uio ∨ s'.uio.uioIov[i]? = some ⟨v.iovBase + 1, v.iovLen + 1⟩ := by
  unfold State.ureadc at hrun
  rw [if_neg (not_le.mpr hpos), hi, Option.bind_eq_bind, Option.bind_some, hv] at hrun
  have hput : ∀ x : Bool × State, x.2.uio = s.uio →
      (if x.1 then some (EFAULT, x.2)
        else some (0, { x.2 with uio :=
          { x.2.uio with
            uioIov := x.2.uio.uioIov.modify i fun v => ⟨v.iovBase + 1, v.iovLen + 1⟩
            uioResid := x.2.uio.uioResid - 1
            uioOffset := x.2.uio.uioOffset + 1 } })) = some (ret, s') →
      s'.uio = s.uio ∨ s'.uio.uioIov[i]? = some ⟨v.iovBase + 1, v.iovLen + 1⟩ := by
    intro x hx h
    cases herr : x.1 with
    | true =>
      rw [herr, if_pos rfl] at h
      cases h
      exact .inl hx
    | false =>
      rw [herr, if_neg Bool.false_ne_true] at h
      cases h
      right
      show (x.2.uio.uioIov.modify i _)[i]? = _
      rw [hx, List.getElem?_modify_eq, hv]
      rfl
  refine hput _ ?_ hrun
  unfold State.putbyte
  cases s.uio.uioSegflg with
  | sysspace => rfl
  | userspace => cases fault v.iovBase 1 <;> rfl

/-- **`ureadc` moves a character only if there is no place for it.** -/
theorem ureadc_moves (h : s.uio.Sound) (c : UInt8) :
    s.UreadcMoves fault c ↔ s.uio.uioResid = 0 := by
  unfold State.UreadcMoves
  have hresid : 0 ≤ s.uio.uioResid := by
    rw [h.resid]
    exact sum_nonneg fun v hv => (h.len v hv).1
  by_cases hzero : s.uio.uioResid = 0
  · refine iff_of_true ⟨EFAULT, s, if_pos hzero.le, h, ?_⟩ hzero
    rw [hzero]
    exact (moves_zero 0 .read).symm
  · refine iff_of_false ?_ hzero
    obtain ⟨i, v, hi, hv, hpos, -, hnext⟩ := full_spec h (by omega)
    rintro ⟨ret, s', hrun, -, heq⟩
    have hm : (min 1 s.uio.uioResid).toNat = 1 := by omega
    rw [hm] at heq
    have huio : s'.uio = s.uio.advance 1 := congrArg State.uio heq
    have hat : s'.uio.uioIov[i]? = some ⟨v.iovBase + 1, v.iovLen - 1⟩ := by
      rw [huio]
      show (advance 1 s.uio.uioIov)[i]? = _
      rw [← hnext, List.getElem?_modify_eq, hv]
      rfl
    rcases ureadc_grows (by omega) hi hv hrun with hsame | hgrown
    · rw [huio] at hsame
      have hcount := congrArg Uio.uioResid hsame
      simp only [Uio.advance] at hcount
      omega
    · rw [hat] at hgrown
      injection hgrown with hgrown
      injection hgrown with _ hgrown
      omega

/-- **The condition of `uwritec`.**  The next place can be read, no error is pending, and a `char`
    that stands there is not negative. -/
def State.Readable (s : State) (fault : Fault) (signed : Bool) : Prop :=
  ∀ a ∈ (places s.uio.uioIov).head?,
    match s.uio.uioSegflg with
    | .userspace => fault a 1 = none ∧ s.uError = false
    | .sysspace => signed = true → (s.kernel a).toNat < 128

theorem ofChar_eq {signed : Bool} {b : UInt8} :
    ofChar signed b = (b.toNat : ℤ) ↔ (signed = true → b.toNat < 128) := by
  unfold ofChar
  split <;> grind

/-- **When `uwritec` returns the next character.** -/
theorem uwritec_moves (h : s.uio.Sound) (signed : Bool) :
    s.UwritecMoves fault signed ↔ s.Readable fault signed := by
  unfold State.UwritecMoves State.Readable
  dsimp only
  by_cases hpos : 0 < s.uio.uioResid
  swap
  · have hm : (min 1 s.uio.uioResid).toNat = 0 := by omega
    have hnone : places s.uio.uioIov = [] := by
      have hlen := length_places fun v hv => (h.len v hv).1
      rw [← h.resid] at hlen
      exact List.eq_nil_of_length_eq_zero (by omega)
    rw [hm, hnone]
    have huio : s.uio.advance 0 = s.uio := congrArg State.uio (moves_zero 0 .read)
    rw [huio]
    exact iff_of_true ⟨-1, s, if_pos (not_lt.mp hpos), h, rfl, rfl⟩ fun a ha => by cases ha
  · obtain ⟨i, v, hi, hv, hlen, hplace, hnext⟩ := full_spec h hpos
    have hm : (min 1 s.uio.uioResid).toNat = 1 := by omega
    have hhead : (places s.uio.uioIov).head? = some v.iovBase := by
      cases hps : places s.uio.uioIov with
      | nil => rw [hps] at hplace; cases hplace
      | cons a ps => rw [hps] at hplace; cases hplace; rfl
    have hmoved : s.uio.moved i 1 = s.uio.advance 1 := by
      unfold Uio.moved Uio.advance
      rw [← hnext, Nat.cast_one]
    have hsound : (s.uio.advance 1).Sound := sound_advance h (by omega)
    rw [hm, hplace, hhead]
    simp only [Option.mem_def, Option.some.injEq, forall_eq']
    show (∃ ret s', _ ∧ _ ∧ _ ∧ ret = ((s.mem v.iovBase).toNat : ℤ)) ↔ _
    unfold State.uwritec State.mem
    rw [if_neg (not_le.mpr hpos), hi, Option.bind_eq_bind, Option.bind_some, hv]
    cases hseg : s.uio.uioSegflg with
    | sysspace =>
      show (∃ ret s', some (ofChar signed (s.kernel v.iovBase),
        { s with uio := s.uio.moved i 1 }) = some (ret, s') ∧ _) ↔ _
      rw [hmoved]
      refine Iff.trans ?_ ofChar_eq
      constructor
      · rintro ⟨ret, s', hrun, -, -, hret⟩
        cases hrun
        exact hret
      · exact fun hret => ⟨_, _, rfl, hsound, rfl, hret⟩
    | userspace =>
      show (∃ ret s', (if decide ((s.getbyte fault v.iovBase).1 < 0) then
        some (-1, (s.getbyte fault v.iovBase).2)
        else some ((s.getbyte fault v.iovBase).1, { (s.getbyte fault v.iovBase).2 with
          uio := (s.getbyte fault v.iovBase).2.uio.moved i 1 })) = some (ret, s') ∧ _) ↔ _
      have hkept : s.uio ≠ s.uio.advance 1 := fun heq => by
        have hcount := congrArg Uio.uioResid heq
        simp only [Uio.advance] at hcount
        omega
      have hbyte := (s.user v.iovBase).toNat_lt
      unfold State.getbyte
      cases hf : fault v.iovBase 1 with
      | some k =>
        refine iff_of_false ?_ fun h => by cases h.1
        rintro ⟨ret, s', hrun, -, hs', -⟩
        cases hrun
        exact hkept (congrArg State.uio hs')
      | none =>
        dsimp only
        cases he : s.uError with
        | false =>
          have hnot : ¬ decide (((s.user v.iovBase).toNat : ℤ) - 0 < 0) = true := by
            rw [decide_eq_true_iff]
            omega
          rw [if_neg Bool.false_ne_true, if_neg hnot, hmoved, sub_zero]
          exact iff_of_true ⟨_, _, rfl, hsound, rfl, rfl⟩ ⟨rfl, rfl⟩
        | true =>
          -- an error from before: the character is lost, or 255 becomes 0
          refine iff_of_false ?_ fun h => by cases h.2
          rintro ⟨ret, s', hrun, -, hs', hret⟩
          rw [if_pos rfl] at hrun
          split at hrun
          · cases hrun
            exact hkept (congrArg State.uio hs')
          · cases hrun
            omega

/-! ### All three -/

/-- **When the three routines move the next bytes of the stream.** -/
theorem stream_moved (h : s.uio.Sound) :
    (∀ fault addr nbytes rwflag,
      s.UiomoveMoves fault addr nbytes rwflag ↔ s.InFirst fault nbytes) ∧
    (∀ fault c, s.UreadcMoves fault c ↔ s.uio.uioResid = 0) ∧
    ∀ fault signed, s.UwritecMoves fault signed ↔ s.Readable fault signed :=
  ⟨fun _ _ _ _ => uiomove_moves h, fun _ c => ureadc_moves h c, fun _ signed =>
    uwritec_moves h signed⟩

/-- A request for two bytes of the kernel, with an entry for each. -/
def twoEntries : State where
  user := fun _ => 0
  kernel := fun _ => 0
  uError := false
  uio := ⟨[⟨100, 1⟩, ⟨200, 1⟩], 0, .sysspace, 2⟩

/-- **Two entries** of a byte each. -/
theorem stream_moved_two : twoEntries.uio.Sound ∧
    ((∀ fault addr nbytes rwflag,
      twoEntries.UiomoveMoves fault addr nbytes rwflag ↔ twoEntries.InFirst fault nbytes) ∧
    (∀ fault c, twoEntries.UreadcMoves fault c ↔ twoEntries.uio.uioResid = 0) ∧
    ∀ fault signed, twoEntries.UwritecMoves fault signed ↔ twoEntries.Readable fault signed) :=
  have h : twoEntries.uio.Sound := ⟨by decide, by decide⟩
  ⟨h, stream_moved h⟩

/-- **`uiomove` does not come back** from the second entry. -/
theorem second_entry_stuck : ¬ ∀ s : State, s.uio.Sound →
    (∀ fault addr nbytes rwflag, s.UiomoveMoves fault addr nbytes rwflag) ∧
    (∀ fault c, s.UreadcMoves fault c) ∧ ∀ fault signed, s.UwritecMoves fault signed := by
  intro hall
  have h : twoEntries.uio.Sound := ⟨by decide, by decide⟩
  rcases first_uiomove h ((hall twoEntries h).1 (fun _ _ => none) 300 2 .read) with
    hle | ⟨v, hv, hle, -⟩
  · exact absurd hle (by decide)
  · cases hv
    exact absurd hle (by decide)

end CohKernel.DdiUio
