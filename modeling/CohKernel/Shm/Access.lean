import CohKernel.Shm.Writable

namespace CohKernel.Shm

open CohKernel.Lib CohKernel.Ipc

/-!
# What a process may ask the kernel to access

`useracc` of `sys3.c`, which the system calls ask before they touch a range of addresses, with
`accdata`, `accstack` and `acctext` of `mmu.c` and `accShm` of `shm0.c`.  The sums and differences
are those of 32-bit addresses.

* `useracc_inside` — a range that is accepted does not wrap around, and lies inside one segment of
  the process, which is not the text if the access is to write;
* `rdonly_accepted` — attached segments are accepted for writing however they were attached.
-/

variable {P : Type} {s : State P} {p : P} {base count : Addr} {sr : SR}

/-! ### The tests -/

/-- The test of `accdata` and `acctext`, and of `accShm` for one reference. -/
def SR.holdsUp (srp : SR) (base count : Addr) : Bool :=
  decide (base ≥ srp.srBase ∧ base + count ≤ srp.srBase + addr srp.srSize)

/-- The test of `accstack`: the base of the stack is its upper end. -/
def SR.holdsDown (srp : SR) (base count : Addr) : Bool :=
  decide (base ≥ srp.srBase - addr srp.srSize ∧ base + count ≤ srp.srBase)

/-- `accdata`. -/
def State.accdata (s : State P) (p : P) (base count : Addr) : Bool :=
  (s.segl p SIPDATA).holdsUp base count

/-- `accstack`. -/
def State.accstack (s : State P) (p : P) (base count : Addr) : Bool :=
  (s.segl p SISTACK).holdsDown base count

/-- `acctext`. -/
def State.acctext (s : State P) (p : P) (base count : Addr) : Bool :=
  (s.segl p SISTEXT).holdsUp base count

/-- `accShm`: the first reference to a segment that has the range. -/
def State.accShm (s : State P) (p : P) (base count : Addr) : Option (Fin NSHMSEG) :=
  (List.finRange NSHMSEG).find? fun i =>
    (s.shmsr (p, i)).srSegp.isSome && (s.shmsr (p, i)).holdsUp base count

/-- `useracc`. -/
def State.useracc (s : State P) (p : P) (base count : Addr) (writeUsr : Bool) : Bool :=
  if base + count ≥ base then
    let ret := s.accdata p base count || s.accstack p base count || (s.accShm p base count).isSome
    if writeUsr = false then ret || s.acctext p base count else ret
  else false

/-! ### Segments and ranges -/

/-- The references of a process. -/
inductive Ref where
  | segl (n : Fin NUSEG)
  | shmsr (i : Fin NSHMSEG)
deriving DecidableEq

/-- The reference. -/
def State.refAt (s : State P) (p : P) : Ref → SR
  | .segl n => s.segl p n
  | .shmsr i => s.shmsr (p, i)

/-- All addresses from `base` up to `base + count` are those of the reference, as numbers. -/
def State.inside (s : State P) (p : P) (r : Ref) (base count : ℕ) : Prop :=
  let sr := s.refAt p r
  if r = .segl SISTACK then sr.srBase.val ≤ base + sr.srSize ∧ base + count ≤ sr.srBase.val
  else sr.srBase.val ≤ base ∧ base + count ≤ sr.srBase.val + sr.srSize

/-- The reference is for the process to use: not the user area; the text is not for writing, and
    there is an attached segment. -/
def State.usable (s : State P) (p : P) (writeUsr : Bool) : Ref → Prop
  | .segl n => n ≠ SIUSERP ∧ (writeUsr = true → n ≠ SISTEXT)
  | .shmsr i => (s.shmsr (p, i)).srSegp ≠ none

/-- Besides this, an attached segment is written only by a process that has attached it for writing,
    with the permission to write. -/
def State.permits (s : State P) (p : P) (writeUsr : Bool) (r : Ref) : Prop :=
  s.usable p writeUsr r ∧ ∀ i, r = .shmsr i → writeUsr = true → (s.made (p, i)).forWriting

/-- A sum of addresses is not above that of the numbers. -/
theorem add_val_le (a b : Addr) : (a + b).val ≤ a.val + b.val := by
  rw [Fin.val_add]
  exact Nat.mod_le _ _

theorem addr_val_le (n : ℕ) : (addr n).val ≤ n := Nat.mod_le _ _

/-- A sum that is not below its first part has not wrapped around. -/
theorem add_val_eq (h : base ≤ base + count) : (base + count).val = base.val + count.val := by
  have hle : base.val ≤ (base + count).val := h
  rw [Fin.val_add] at hle ⊢
  omega

/-- A range that is accepted is inside, upwards of the base. -/
theorem SR.holdsUp_inside (hwrap : base ≤ base + count) (h : sr.holdsUp base count = true) :
    sr.srBase.val ≤ base.val ∧ base.val + count.val ≤ sr.srBase.val + sr.srSize := by
  obtain ⟨hbase, hend⟩ : sr.srBase ≤ base ∧ base + count ≤ sr.srBase + addr sr.srSize :=
    of_decide_eq_true h
  refine ⟨hbase, ?_⟩
  calc base.val + count.val = (base + count).val := (add_val_eq hwrap).symm
    _ ≤ (sr.srBase + addr sr.srSize).val := hend
    _ ≤ sr.srBase.val + (addr sr.srSize).val := add_val_le _ _
    _ ≤ sr.srBase.val + sr.srSize := Nat.add_le_add_left (addr_val_le _) _

/-- A range that is accepted is inside, downwards of the base. -/
theorem SR.holdsDown_inside (hwrap : base ≤ base + count) (h : sr.holdsDown base count = true) :
    sr.srBase.val ≤ base.val + sr.srSize ∧ base.val + count.val ≤ sr.srBase.val := by
  obtain ⟨hbase, hend⟩ : sr.srBase - addr sr.srSize ≤ base ∧ base + count ≤ sr.srBase :=
    of_decide_eq_true h
  have hsum : base.val + count.val ≤ sr.srBase.val := (add_val_eq hwrap).symm.trans_le hend
  refine ⟨?_, hsum⟩
  have hsize := addr_val_le sr.srSize
  have hlow : (sr.srBase - addr sr.srSize).val ≤ base.val := hbase
  -- a difference that wraps around would be above the base
  have hlt := (addr sr.srSize).isLt
  rw [Fin.val_sub] at hlow
  omega

theorem State.accShm_inside (h : (s.accShm p base count).isSome = true) :
    ∃ i, (s.shmsr (p, i)).srSegp ≠ none ∧ (s.shmsr (p, i)).holdsUp base count = true := by
  obtain ⟨i, hi⟩ := Option.isSome_iff_exists.mp h
  have hp := List.find?_some hi
  rw [Bool.and_eq_true] at hp
  exact ⟨i, Option.isSome_iff_ne_none.mp hp.1, hp.2⟩

/-! ### What is accepted -/

/-- **`useracc`** accepts a range only if it does not wrap around and lies inside one segment of the
    process that may be used so. -/
theorem useracc_inside (s : State P) (p : P) (base count : Addr) (writeUsr : Bool)
    (h : s.useracc p base count writeUsr = true) : base.val + count.val < 2 ^ 32 ∧
      ∃ r, s.inside p r base.val count.val ∧ s.usable p writeUsr r := by
  unfold State.useracc at h
  obtain ⟨hwrap, h⟩ : base ≤ base + count ∧ _ := by
    by_cases hwrap : base + count ≥ base
    · rw [if_pos hwrap] at h
      exact ⟨hwrap, h⟩
    · rw [if_neg hwrap] at h
      cases h
  refine ⟨(add_val_eq hwrap).symm.trans_lt (base + count).isLt, ?_⟩
  have hcases : s.accdata p base count = true ∨ s.accstack p base count = true ∨
      (s.accShm p base count).isSome = true ∨
      writeUsr = false ∧ s.acctext p base count = true := by
    cases writeUsr with
    | false =>
      simp only [if_true, Bool.or_eq_true] at h
      tauto
    | true =>
      simp only [Bool.true_eq_false, if_false, Bool.or_eq_true] at h
      tauto
  rcases hcases with hdata | hstack | hshm | ⟨hread, htext⟩
  · refine ⟨.segl SIPDATA, ?_, by decide, fun _ => by decide⟩
    unfold State.inside
    rw [if_neg (by decide)]
    exact SR.holdsUp_inside hwrap hdata
  · refine ⟨.segl SISTACK, ?_, by decide, fun _ => by decide⟩
    unfold State.inside
    rw [if_pos rfl]
    exact SR.holdsDown_inside hwrap hstack
  · obtain ⟨i, hsegp, hup⟩ := State.accShm_inside hshm
    refine ⟨.shmsr i, ?_, hsegp⟩
    unfold State.inside
    rw [if_neg (by simp)]
    exact SR.holdsUp_inside hwrap hup
  · refine ⟨.segl SISTEXT, ?_, by decide, fun hw => ?_⟩
    · unfold State.inside
      rw [if_neg (by decide)]
      exact SR.holdsUp_inside hwrap htext
    · rw [hread] at hw
      cases hw

/-- The page of data of a process. -/
theorem useracc_inside_data : (addr 0x400000).val + (addr 4096).val < 2 ^ 32 ∧
    ∃ r, (alone ()).inside () r (addr 0x400000).val (addr 4096).val ∧ (alone ()).usable () true r :=
  useracc_inside (alone ()) () (addr 0x400000) (addr 4096) true (by decide +kernel)

/-- **A range that may only be read**: the mode 0444 lets another user only read the segment, which
    he attaches with `SHM_RDONLY`; it is accepted for writing. -/
theorem rdonly_accepted : ∃ s : State Unit, Reach Initial (step smallTune) (fun _ _ => True) s ∧
    ¬∀ base count writeUsr, s.useracc () base count writeUsr = true →
      base.val + count.val < 2 ^ 32 ∧
        ∃ r, s.inside () r base.val count.val ∧ s.permits () writeUsr r := by
  obtain ⟨s₁, hget, s₂, hat, hacc, hsegl, hnone, hflag⟩ : ∃ s₁ : State Unit,
      step smallTune (alone ()) (.shmget () (getCtx 9) ⟨7, by decide⟩ ⟨4096, by decide⟩ 0o1444) =
        some s₁ ∧
      ∃ s₂, step smallTune s₁ (.shmat () ⟨5, 5⟩ ⟨0, by decide⟩ 0 SHM_RDONLY) = some s₂ ∧
        s₂.useracc () (addr SHMBASE) (addr 4096) true = true ∧ s₂.segl () = smallImage ∧
        (∀ i, i ≠ 0 → (s₂.shmsr ((), i)).srSegp = none) ∧
        (s₂.made ((), 0)).shmFlag = SHM_RDONLY :=
    ⟨_, rfl, _, rfl, by decide +kernel, rfl, by decide +kernel, rfl⟩
  refine ⟨s₂, ((Reach.init (alone_initial ())).step trivial hget).step trivial hat, fun h => ?_⟩
  obtain ⟨-, r, hinside, husable, hpermits⟩ := h _ _ _ hacc
  cases r with
  | segl n =>
    -- no segment of the program is there
    have hout : ∀ n : Fin NUSEG, ¬ (if n = SISTACK then
        (smallImage n).srBase.val ≤ (addr SHMBASE).val + (smallImage n).srSize ∧
          (addr SHMBASE).val + (addr 4096).val ≤ (smallImage n).srBase.val
        else (smallImage n).srBase.val ≤ (addr SHMBASE).val ∧
          (addr SHMBASE).val + (addr 4096).val ≤
            (smallImage n).srBase.val + (smallImage n).srSize) := by
      decide +kernel
    unfold State.inside State.refAt at hinside
    rw [hsegl] at hinside
    simp only [Ref.segl.injEq] at hinside
    exact hout n hinside
  | shmsr i =>
    by_cases hi : i = 0
    · subst hi
      have hzero := (hpermits 0 rfl rfl).1
      rw [hflag] at hzero
      exact absurd hzero (by decide)
    · exact husable (hnone i hi)

end CohKernel.Shm
