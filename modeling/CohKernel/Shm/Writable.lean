import CohKernel.Shm.Slots

namespace CohKernel.Shm

open CohKernel.Lib CohKernel.Ipc

/-!
# Read-only attachments

`load_seg_pages` of `mmu.c` maps the pages of a reference with `SRFRODT` read-only.  `ushmat` asks
for read permission when it gets `SHM_RDONLY`, but never sets its variable `read_only`, so that the
pages can be written all the same.

* `reachable_writable` — without `SHM_RDONLY` a writable mapping belongs to an attachment that was
  allowed to write;
* `rdonly_writable` — an attachment with `SHM_RDONLY` of a segment that may not be written.
-/

variable {P : Type} [DecidableEq P] {t : Tune} {s s' : State P}

/-- The bits that `load_seg_pages` sets in the page table entries of a reference. -/
def akey (srp : SR) (sFlags : ℕ) : ℕ :=
  if srp.srFlag &&& SRFRODT ≠ 0 then SEG_RO
  else if sFlags &&& (SFSYST ||| SFTEXT) = SFTEXT then SEG_RO
  else if sFlags &&& (SFSYST ||| SFTEXT) = SFSYST then SEG_SRW
  else SEG_RW

/-- The process can write on the pages of the reference. -/
def State.writable (s : State P) (pi : P × Fin NSHMSEG) : Bool :=
  match (s.shmsr pi).srSegp with
  | none => false
  | some k => decide (akey (s.shmsr pi) (s.segs k).sFlags = SEG_RW)

/-- The attachment was made for writing, by a process with the permission to write. -/
def Made.forWriting (m : Made) : Prop :=
  m.shmFlag &&& SHM_RDONLY = 0 ∧ ipcLackPerm m.cred m.perm IWUGO = false

/-- `shmat` is not called with `SHM_RDONLY`. -/
def ReadWrite : Event P → Prop
  | .shmat _ _ _ _ shmFlag => shmFlag &&& SHM_RDONLY = 0
  | _ => True

/-- Every attachment was made for writing. -/
def AllForWriting (s : State P) : Prop :=
  ∀ pi, (s.shmsr pi).srSegp ≠ none → (s.made pi).forWriting

theorem AllForWriting.step {e : Event P} (h : AllForWriting s) (hok : ReadWrite e)
    (hs : Shm.step t s e = some s') : AllForWriting s' := by
  intro pi hpi
  rcases step_slot hs pi with hnone | ⟨q, hsr, hmade⟩ |
    ⟨p, c, sysId, shmAddr, shmFlag, tb, i, a, k, rfl, hatt, _, _, hmade⟩
  · rw [hnone] at hpi
    exact absurd rfl hpi
  · rw [hsr] at hpi
    rw [hmade hpi]
    exact h (q, pi.2) hpi
  · have hflag : shmFlag &&& SHM_RDONLY = 0 := hok
    have hperm := hatt.perm
    rw [shmatMode, if_neg (not_not.mpr hflag)] at hperm
    rw [hmade]
    exact ⟨hflag, hperm⟩

/-- **Read-only attachments.**  In every run in which no `shmat` is called with `SHM_RDONLY`, a
    process that can write on the pages of a segment has attached it for writing, or has inherited
    such an attachment, and the permission to write was checked. -/
theorem reachable_writable (h : Reach Initial (step t) (fun _ e => ReadWrite e) s)
    (pi : P × Fin NSHMSEG) (hw : s.writable pi = true) : (s.made pi).forWriting := by
  have hall : AllForWriting s := by
    refine h.invariant (fun s₀ hs₀ pi hpi => ?_) fun _ _ _ hinv hok hs => hinv.step hok hs
    rw [hs₀.2.2 pi] at hpi
    exact absurd rfl hpi
  refine hall pi fun hnone => ?_
  unfold State.writable at hw
  rw [hnone] at hw
  cases hw

/-- A segment is attached for writing. -/
theorem reachable_writable_attached : ∃ s : State Unit, s.writable ((), 0) = true ∧
    (s.made ((), 0)).forWriting := by
  obtain ⟨s₁, hget, s₂, hat, hw⟩ : ∃ s₁ : State Unit, step smallTune (alone ())
      (.shmget () (getCtx 9) ⟨7, by decide⟩ ⟨4096, by decide⟩ 0o1666) = some s₁ ∧
      ∃ s₂, step smallTune s₁ (.shmat () root ⟨0, by decide⟩ 0 0) = some s₂ ∧
        s₂.writable ((), 0) = true := ⟨_, rfl, _, rfl, by decide +kernel⟩
  have hreach : Reach Initial (step smallTune) (fun _ e => ReadWrite e) s₂ := by
    refine Reach.step (Reach.step (Reach.init (alone_initial ())) ?_ hget) ?_ hat
    · exact trivial
    · exact (rfl : 0 &&& SHM_RDONLY = 0)
  exact ⟨s₂, hw, reachable_writable hreach _ hw⟩

/-- **A read-only attachment that can be written.**  The mode 0444 lets another user only read the
    segment; `shmat` with `SHM_RDONLY` maps it writable. -/
theorem rdonly_writable : ∃ s : State Unit, Reach Initial (step smallTune) (fun _ _ => True) s ∧
    ¬∀ pi, s.writable pi = true → (s.made pi).forWriting := by
  obtain ⟨s₁, hget, s₂, hat, hw, hflag⟩ : ∃ s₁ : State Unit, step smallTune (alone ())
      (.shmget () (getCtx 9) ⟨7, by decide⟩ ⟨4096, by decide⟩ 0o1444) = some s₁ ∧
      ∃ s₂, step smallTune s₁ (.shmat () ⟨5, 5⟩ ⟨0, by decide⟩ 0 SHM_RDONLY) = some s₂ ∧
        s₂.writable ((), 0) = true ∧ (s₂.made ((), 0)).shmFlag = SHM_RDONLY :=
    ⟨_, rfl, _, rfl, by decide +kernel, rfl⟩
  refine ⟨s₂, ((Reach.init (alone_initial ())).step trivial hget).step trivial hat, fun h => ?_⟩
  have hzero := (h _ hw).1
  rw [hflag] at hzero
  exact absurd hzero (by decide)

end CohKernel.Shm
