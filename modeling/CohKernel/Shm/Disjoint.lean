import Mathlib
import CohKernel.Shm.Slots

namespace CohKernel.Shm

open CohKernel.Lib CohKernel.Ipc
open CohKernel.Mmu (NBPC btocru btocrd ctob)

/-!
# The segments of a process

The pages on which the text, the data, the stack and the attached segments of a process are
mapped.  `seg_overlap` does not see a segment that lies inside the new one, the stack grows down
from its recorded base, an automatic address is not checked at all, and `ubrk` and the growth of
the stack do not look at attached segments.

* `Fits` — the actions that meet none of this;
* `segOverlap_disjoint`, `auto_disjoint` — what the test and the automatic addresses achieve;
* `reachable_apart` — the segments of a process are pairwise disjoint;
* `auto_on_requested` — an automatic address that is in use.
-/

variable {P : Type} [DecidableEq P] {t : Tune} {s s' : State P} {p q : P}

/-! ### Pages -/

/-- The segments of a process. -/
inductive Region where
  | text
  | data
  | stack
  | shm (i : Fin NSHMSEG)
deriving DecidableEq

/-- The reference to a segment of a process. -/
def refOf (segl : Fin NUSEG → SR) (shmsr : Fin NSHMSEG → SR) : Region → SR
  | .text => segl SISTEXT
  | .data => segl SIPDATA
  | .stack => segl SISTACK
  | .shm i => shmsr i

def State.ref (s : State P) (p : P) : Region → SR := refOf (s.segl p) fun i => s.shmsr (p, i)

/-- The pages of `size` bytes from an address on, as `load_seg_pages` counts them. -/
def pageRange (base : Addr) (size : ℕ) : Set ℕ :=
  Set.Ico (btocrd base.val) (btocrd base.val + btocru size)

/-- The lowest address of a reference: the base of the stack is its top. -/
def SR.lowest (srp : SR) : Region → Addr
  | .stack => srp.srBase - addr srp.srSize
  | _ => srp.srBase

/-- The pages on which a segment is mapped. -/
def pagesOf (ref : Region → SR) (r : Region) : Set ℕ :=
  if (ref r).srSegp = none then ∅ else pageRange ((ref r).lowest r) (ref r).srSize

def State.pages (s : State P) (p : P) : Region → Set ℕ := pagesOf (s.ref p)

theorem pagesOf_none {ref : Region → SR} {r : Region} (h : (ref r).srSegp = none) :
    pagesOf ref r = ∅ := if_pos h

theorem pagesOf_stack {ref : Region → SR} (h : (ref .stack).srSegp ≠ none) :
    pagesOf ref .stack =
      pageRange ((ref .stack).srBase - addr (ref .stack).srSize) (ref .stack).srSize := if_neg h

theorem pagesOf_some {ref : Region → SR} {r : Region} (hr : r ≠ .stack)
    (h : (ref r).srSegp ≠ none) : pagesOf ref r = pageRange (ref r).srBase (ref r).srSize := by
  unfold pagesOf
  rw [if_neg h]
  cases r with
  | stack => exact absurd rfl hr
  | _ => rfl

/-- The segments of a process are pairwise disjoint. -/
def State.Apart (s : State P) (p : P) : Prop :=
  Pairwise fun r r' => Disjoint (s.pages p r) (s.pages p r')

theorem pageRange_disjoint {a b : Addr} {m n : ℕ}
    (h : btocrd a.val + btocru m ≤ btocrd b.val ∨ btocrd b.val + btocru n ≤ btocrd a.val) :
    Disjoint (pageRange a m) (pageRange b n) := by
  unfold pageRange
  rw [Set.Ico_disjoint_Ico]
  omega

section

omit [DecidableEq P]

theorem pages_congr (hsegl : s'.segl p = s.segl q)
    (hshmsr : ∀ i, s'.shmsr (p, i) = s.shmsr (q, i)) : s'.pages p = s.pages q := by
  unfold State.pages State.ref
  rw [hsegl, funext hshmsr]

theorem State.Apart.mono (h : s.Apart q) (hsub : ∀ r, s'.pages p r ⊆ s.pages q r) :
    s'.Apart p :=
  fun _ _ hne => (h hne).mono (hsub _) (hsub _)

/-- One segment changes, and stays clear of the others. -/
theorem State.Apart.change (h : s.Apart p) (r : Region)
    (hothers : ∀ r' ≠ r, s'.pages p r' = s.pages p r')
    (hclear : ∀ r' ≠ r, Disjoint (s'.pages p r) (s.pages p r')) : s'.Apart p := by
  intro r₁ r₂ hne
  by_cases h₁ : r₁ = r
  · subst h₁
    rw [hothers r₂ hne.symm]
    exact hclear r₂ hne.symm
  · by_cases h₂ : r₂ = r
    · subst h₂
      rw [hothers r₁ hne]
      exact (hclear r₁ hne).symm
    · rw [hothers r₁ h₁, hothers r₂ h₂]
      exact h hne

/-! ### The checks -/

/-- **The test of a requested address.**  A page-aligned range that passes `seg_overlap` meets no
    page of the segment, unless it contains the segment, or reaches into it only by the rounding of
    its size to pages. -/
theorem segOverlap_disjoint {srp : SR} {a : Addr} {len size : ℕ}
    (hpass : segOverlap srp a len = NO_OVERLAP) (hsegp : srp.srSegp ≠ none)
    (halign : a.val % NBPC = 0) (hsize : size % NBPC = 0)
    (hcontains : ¬(a.val < srp.srBase.val ∧ srp.srBase.val + srp.srSize < a.val + len))
    (hrounds : ¬(a.val + len < srp.srBase.val ∧ srp.srBase.val < a.val + size)) :
    Disjoint (pageRange a size) (pageRange srp.srBase srp.srSize) := by
  unfold segOverlap NO_OVERLAP at hpass
  rw [if_neg hsegp] at hpass
  simp only at hpass
  have hbase : ¬(a - srp.srBase).val < srp.srSize := by
    intro hlt
    rw [if_pos hlt] at hpass
    exact absurd (Nat.add_eq_zero_iff.mp hpass).1 (by decide)
  have hlimit : ¬(a - srp.srBase + addr len).val ≤ srp.srSize := by
    intro hle
    rw [if_pos hle] at hpass
    exact absurd (Nat.add_eq_zero_iff.mp hpass).2 (by decide)
  have ha := a.isLt
  have hb := srp.srBase.isLt
  rw [Fin.sub_def] at hbase hlimit
  rw [Fin.add_def] at hlimit
  simp only [addr] at hbase hlimit
  apply pageRange_disjoint
  unfold btocrd btocru NBPC at *
  rcases Nat.lt_or_ge a.val srp.srBase.val with hlt | hge
  · left
    omega
  · right
    omega

theorem autoAddr_val (t : Tune) (i : Fin NSHMSEG) :
    (autoAddr t i).val = SHMBASE + i.val * (t.SHMMAX + NBPC) := by
  have hmul : i.val * (t.SHMMAX + NBPC) ≤ 6 * (4194304 + 4096) :=
    Nat.mul_le_mul i.isLt.le (Nat.add_le_add_right t.shmmax_le 4096)
  unfold autoAddr addr SHMBASE
  exact Nat.mod_eq_of_lt (by omega)

/-- **The automatic addresses** are far enough apart for any two segments. -/
theorem auto_disjoint (t : Tune) {i j : Fin NSHMSEG} (hne : i ≠ j) {m n : ℕ}
    (hm : m ≤ t.SHMMAX + (NBPC - 1)) (hm' : m % NBPC = 0) (hn : n ≤ t.SHMMAX + (NBPC - 1))
    (hn' : n % NBPC = 0) : Disjoint (pageRange (autoAddr t i) m) (pageRange (autoAddr t j) n) := by
  have hgap : ∀ {i j : Fin NSHMSEG}, i.val < j.val →
      i.val * (t.SHMMAX + NBPC) + (t.SHMMAX + NBPC) ≤ j.val * (t.SHMMAX + NBPC) := by
    intro i j hlt
    rw [← Nat.succ_mul]
    exact Nat.mul_le_mul_right _ hlt
  have hmax := t.shmmax_le
  apply pageRange_disjoint
  rw [autoAddr_val, autoAddr_val]
  rcases lt_or_gt_of_ne (Fin.val_ne_of_ne hne) with hlt | hlt
  · left
    have := hgap hlt
    unfold btocrd btocru NBPC at *
    omega
  · right
    have := hgap hlt
    unfold btocrd btocru NBPC at *
    omega

/-! ### Attached segments -/

/-- What an element of `p_shmsr` always is: empty, or a reference to whole pages, at its automatic
    address if no address was requested. -/
structure Placed (t : Tune) (i : Fin NSHMSEG) (sr : SR) (m : Made) : Prop where
  empty : sr.srSegp = none → sr.srBase = 0
  base : sr.srSegp ≠ none → sr.srBase ≠ 0
  whole : sr.srSegp ≠ none → sr.srSize % NBPC = 0 ∧ sr.srSize ≤ t.SHMMAX + (NBPC - 1)
  auto : sr.srSegp ≠ none → m.byAddr = false → sr.srBase = autoAddr t i

/-- A segment of whole pages, no larger than `SHMMAX` allows. -/
def Seg.Whole (t : Tune) (seg : Seg) : Prop :=
  seg.sSize % NBPC = 0 ∧ seg.sSize ≤ t.SHMMAX + (NBPC - 1)

theorem Seg.shmFree_sSize (seg : Seg) : seg.shmFree.sSize = seg.sSize := by
  unfold Seg.shmFree
  split <;> rfl

theorem whole_closed (t : Tune) : SegClosed t (Seg.Whole t) where
  new := by
    intro size hsize
    have hmax := t.shmmax_le
    unfold Seg.Whole newSeg ctob btocru NBPC
    simp only
    omega
  addRefs := fun _ h => h
  detach := by
    intro seg h
    unfold Seg.Whole Seg.detach
    simp only
    split
    · rw [Seg.shmFree_sSize]
      exact h
    · exact h
  remove := by
    intro seg nattch h
    unfold Seg.Whole Seg.remove
    split
    · exact h
    · rw [Seg.shmFree_sSize]
      exact h

/-- The segments are whole, and the elements of `p_shmsr` are placed. -/
structure Arranged (t : Tune) (s : State P) : Prop where
  whole : AllSegs (Seg.Whole t) 0 s
  placed : ∀ pi, Placed t pi.2 (s.shmsr pi) (s.made pi)

theorem placed_none (t : Tune) (i : Fin NSHMSEG) (m : Made) : Placed t i SR.none m where
  empty := fun _ => rfl
  base := fun h => absurd rfl h
  whole := fun h => absurd rfl h
  auto := fun h => absurd rfl h

theorem Placed.congr {i : Fin NSHMSEG} {sr : SR} {m m' : Made} (h : Placed t i sr m)
    (hm : sr.srSegp ≠ none → m' = m) : Placed t i sr m' where
  empty := h.empty
  base := h.base
  whole := h.whole
  auto := fun hsome => hm hsome ▸ h.auto hsome

/-- An automatic address belongs to the element that is free. -/
theorem Arranged.auto_slot (h : Arranged t s) {i : Fin NSHMSEG} {a : Addr} {len : ℕ}
    (hslot : s.freeSlot p = some i) (haddr : s.attachAddr t p 0 len = some a) :
    a = autoAddr t i := by
  have hsame : (fun j => decide ((s.shmsr (p, j)).srBase = 0)) =
      fun j => decide ((s.shmsr (p, j)).srSegp = none) := by
    funext j
    rw [decide_eq_decide]
    exact ⟨fun hzero => by_contra fun hsome => (h.placed (p, j)).base hsome hzero,
      (h.placed (p, j)).empty⟩
  unfold State.attachAddr at haddr
  rw [if_pos rfl, hsame, Option.map_eq_some_iff] at haddr
  obtain ⟨j, hj, rfl⟩ := haddr
  rw [Option.some_inj.mp (hj.symm.trans hslot)]

theorem attachAddr_ne_zero {shmAddr a : Addr} {len : ℕ}
    (h : s.attachAddr t p shmAddr len = some a) : a ≠ 0 := by
  unfold State.attachAddr at h
  split_ifs at h with hzero
  · obtain ⟨j, _, rfl⟩ := Option.map_eq_some_iff.mp h
    intro heq
    have := congrArg Fin.val heq
    rw [autoAddr_val] at this
    exact absurd (Nat.add_eq_zero_iff.mp this).1 (by decide)
  · cases h
    exact hzero

end

theorem Arranged.step {e : Event P} (h : Arranged t s) (hs : Shm.step t s e = some s') :
    Arranged t s' := by
  refine ⟨h.whole.step (whole_closed t) hs, fun pi => ?_⟩
  rcases step_slot hs pi with hnone | ⟨q, hsr, hmade⟩ |
    ⟨p, c, sysId, shmAddr, shmFlag, tb, i, a, k, _, hatt, _, hsr, hmade⟩
  · rw [hnone]
    exact placed_none t pi.2 _
  · rw [hsr]
    exact (h.placed (q, pi.2)).congr hmade
  · have hk : k < s.nsegs := by
      simpa using (Option.filter_eq_some_iff.mp hatt.segp).2
    rw [hsr, hmade]
    exact
      { empty := fun hnone => absurd hnone (Option.some_ne_none k)
        base := fun _ => attachAddr_ne_zero hatt.addr
        whole := fun _ => h.whole.2 k hk
        auto := fun _ hauto => by
          have hzero : shmAddr = 0 := by
            simpa using hauto
          subst hzero
          exact h.auto_slot hatt.slot hatt.addr }

/-! ### Steps -/

/-- A new image whose segments are apart. -/
def LaidOut (segl : Fin NUSEG → SR) : Prop :=
  Pairwise fun r r' => Disjoint (pagesOf (refOf segl fun _ => SR.none) r)
    (pagesOf (refOf segl fun _ => SR.none) r')

/-- The segment was placed there by the program, or by a request. -/
def State.fixed (s : State P) (p : P) : Region → Prop
  | .shm i => (s.made (p, i)).byAddr = true
  | _ => True

/-- A requested address is page-aligned, its range is clear of the stack, and it neither contains a
    segment nor reaches into one by the rounding of its size. -/
structure RequestFits (s : State P) (p : P) (a : Addr) (len size : ℕ) : Prop where
  align : a.val % NBPC = 0
  stack : Disjoint (pageRange a size) (s.pages p .stack)
  contains : ∀ r ≠ .stack, (s.ref p r).srSegp ≠ none →
    ¬(a.val < (s.ref p r).srBase.val ∧
      (s.ref p r).srBase.val + (s.ref p r).srSize < a.val + len)
  rounds : ∀ r ≠ .stack, (s.ref p r).srSegp ≠ none →
    ¬(a.val + len < (s.ref p r).srBase.val ∧ (s.ref p r).srBase.val < a.val + size)

/-- The actions that meet none of the gaps of the checks. -/
def Fits (t : Tune) (s : State P) : Event P → Prop
  | .shmat p _ sysId shmAddr _ => ∀ tb i k, s.tables = some tb →
      s.segAt (tb.shmsegs sysId.val.toNat) = some k → s.freeSlot p = some i →
      if shmAddr = 0 then
        ∀ r, s.fixed p r → Disjoint (pageRange (autoAddr t i) (s.segs k).sSize) (s.pages p r)
      else RequestFits s p shmAddr (tb.shmids sysId.val.toNat).shmSegsz (s.segs k).sSize
  | .brk p cp _ => cp.val + NBPC ≤ 2 ^ 32 ∧ ∀ r, r ≠ .data → r ≠ .stack →
      Disjoint (pageRange (s.segl p SIPDATA).srBase (cp.val - (s.segl p SIPDATA).srBase.val))
        (s.pages p r)
  | .growStack p => ∀ r ≠ .stack,
      Disjoint (pageRange ((s.segl p SISTACK).srBase - addr ((s.segl p SISTACK).srSize + NBPC))
        ((s.segl p SISTACK).srSize + NBPC)) (s.pages p r)
  | .exec _ segl => LaidOut segl
  | _ => True

/-- An attachment changes one segment. -/
theorem Arranged.attach_apart (h : Arranged t s) (hp : s.Apart p) {c : Cred} {sysId : CInt}
    {shmAddr : Addr} {shmFlag : ℕ} (hok : Fits t s (.shmat p c sysId shmAddr shmFlag))
    {tb : Tables} {i : ℕ} {segId : Fin NSHMSEG} {a : Addr} {k : ℕ}
    (hatt : Attaches t s p c sysId shmAddr shmFlag tb i segId a k) (m : Made) :
    (s.shmAtt tb i (p, segId) a k m).Apart p := by
  have hk : k < s.nsegs := by
    simpa using (Option.filter_eq_some_iff.mp hatt.segp).2
  have hwhole := h.whole.2 k hk
  have hid : sysId.val.toNat = i := by
    have := hatt.id
    omega
  have hfit := hok tb segId k hatt.tables (hid.symm ▸ hatt.segp) hatt.slot
  rw [hid] at hfit
  have hnew : (s.shmAtt tb i (p, segId) a k m).pages p (.shm segId) =
      pageRange a (s.segs k).sSize := by
    have href : (s.shmAtt tb i (p, segId) a k m).ref p (.shm segId) =
        attachSr (s.segs k).sSize a k readOnly := Function.update_self ..
    have hsome : ((s.shmAtt tb i (p, segId) a k m).ref p (.shm segId)).srSegp ≠ none :=
      href ▸ Option.some_ne_none k
    rw [State.pages, pagesOf_some Region.noConfusion hsome, href]
    rfl
  refine hp.change (.shm segId) (fun r hr => ?_) fun r hr => ?_
  · have href : (s.shmAtt tb i (p, segId) a k m).ref p r = s.ref p r := by
      cases r with
      | shm j =>
        have hne : (p, j) ≠ (p, segId) := fun heq => hr (congrArg Region.shm (Prod.mk.inj heq).2)
        exact Function.update_of_ne hne _ _
      | _ => rfl
    rw [State.pages, State.pages, pagesOf, pagesOf, href]
  · rw [hnew]
    by_cases hzero : shmAddr = 0
    · -- an automatic address
      subst hzero
      rw [if_pos rfl] at hfit
      rw [h.auto_slot hatt.slot hatt.addr]
      by_cases hfixed : s.fixed p r
      · exact hfit r hfixed
      cases r with
      | shm j =>
        have hauto : (s.made (p, j)).byAddr = false := Bool.eq_false_of_not_eq_true hfixed
        have hplaced := h.placed (p, j)
        by_cases hnone : (s.shmsr (p, j)).srSegp = none
        · rw [State.pages, pagesOf_none hnone]
          exact Set.disjoint_empty _
        · have hbase : (s.ref p (.shm j)).srBase = autoAddr t j := hplaced.auto hnone hauto
          rw [State.pages, pagesOf_some Region.noConfusion hnone, hbase]
          obtain ⟨hmod, hle⟩ := hplaced.whole hnone
          exact auto_disjoint t (fun heq => hr (congrArg Region.shm heq.symm)) hwhole.2 hwhole.1
            hle hmod
      | _ => exact absurd trivial hfixed
    · -- a requested one
      rw [if_neg hzero] at hfit
      have haddr := hatt.addr
      unfold State.attachAddr at haddr
      rw [if_neg hzero] at haddr
      split at haddr
      case isFalse => cases haddr
      next hcheck =>
      cases haddr
      unfold State.checkRequestAddress at hcheck
      split at hcheck
      · cases hcheck
      obtain ⟨hsegl, hshm⟩ := of_decide_eq_true hcheck
      have hclear : ∀ r ≠ .stack, segOverlap (s.ref p r) shmAddr (tb.shmids i).shmSegsz =
          NO_OVERLAP → Disjoint (pageRange shmAddr (s.segs k).sSize) (s.pages p r) := by
        intro r hstack hpass
        by_cases hnone : (s.ref p r).srSegp = none
        · rw [State.pages, pagesOf_none hnone]
          exact Set.disjoint_empty _
        · rw [State.pages, pagesOf_some hstack hnone]
          exact segOverlap_disjoint hpass hnone hfit.align hwhole.1
            (hfit.contains r hstack hnone) (hfit.rounds r hstack hnone)
      cases r with
      | text => exact hclear _ Region.noConfusion (hsegl SISTEXT)
      | data => exact hclear _ Region.noConfusion (hsegl SIPDATA)
      | stack => exact hfit.stack
      | shm j => exact hclear _ Region.noConfusion (hshm j)

/-- The end of the data below the stack. -/
theorem brk_below_stack {sb cp top : Addr} (hsb : sb ≤ cp) (hcp : cp.val + NBPC ≤ 2 ^ 32)
    (hlt : btocru cp.val < btocru top.val) :
    btocrd sb.val + btocru (cp.val - sb.val) ≤ btocrd top.val := by
  have hle : sb.val ≤ cp.val := hsb
  have htop := top.isLt
  unfold btocrd btocru NBPC at *
  omega

/-- The segments of every living process are apart. -/
def AllApart (s : State P) : Prop := ∀ p, s.live p = true → s.Apart p

omit [DecidableEq P] in
theorem SameProcs.apart (h : SameProcs s s') (hs : AllApart s) : AllApart s' := fun p hp =>
  (hs p (h.live ▸ hp)).mono fun r => by
    rw [pages_congr (congrFun h.segl p) fun i => congrFun h.shmsr (p, i)]

omit [DecidableEq P] in
/-- Detaching only makes the mapped pages fewer. -/
theorem detach_pages (hsegl : s'.segl = s.segl)
    (hshmsr : ∀ pi, s'.shmsr pi = SR.none ∨ s'.shmsr pi = s.shmsr pi) (p : P) (r : Region) :
    s'.pages p r ⊆ s.pages p r := by
  by_cases hsame : s'.ref p r = s.ref p r
  · rw [State.pages, State.pages, pagesOf, pagesOf, hsame]
  · have hnone : s'.ref p r = SR.none := by
      cases r with
      | shm i => exact (hshmsr (p, i)).resolve_right hsame
      | text => exact absurd (congrFun (congrFun hsegl p) SISTEXT) hsame
      | data => exact absurd (congrFun (congrFun hsegl p) SIPDATA) hsame
      | stack => exact absurd (congrFun (congrFun hsegl p) SISTACK) hsame
    have hsegp : (s'.ref p r).srSegp = none := by
      rw [hnone, SR.none]
    rw [State.pages, pagesOf_none hsegp]
    exact Set.empty_subset _

/-- A segment of `p_segl` gets another size. -/
theorem resize_apart {n : Fin NUSEG} {r : Region} {size : ℕ} (h : s.Apart p)
    (hn : ∀ r' ≠ r, (s.resize p n size).ref p r' = s.ref p r')
    (hclear : ∀ r' ≠ r, Disjoint ((s.resize p n size).pages p r) (s.pages p r')) :
    (s.resize p n size).Apart p :=
  h.change r (fun r' hr' => by rw [State.pages, State.pages, pagesOf, pagesOf, hn r' hr']) hclear

theorem resize_others {n : Fin NUSEG} {size : ℕ} (hq : q ≠ p) :
    (s.resize p n size).pages q = s.pages q :=
  pages_congr (Function.update_of_ne hq _ _) fun _ => rfl

theorem resize_data (size : ℕ) {r : Region} (hr : r ≠ .data) :
    (s.resize p SIPDATA size).ref p r = s.ref p r := by
  unfold State.ref State.resize
  simp only [Function.update_self]
  cases r with
  | data => exact absurd rfl hr
  | _ => rfl

theorem resize_stack (size : ℕ) {r : Region} (hr : r ≠ .stack) :
    (s.resize p SISTACK size).ref p r = s.ref p r := by
  unfold State.ref State.resize
  simp only [Function.update_self]
  cases r with
  | stack => exact absurd rfl hr
  | _ => rfl

/-- `ubrk` keeps the data below the stack. -/
theorem brk_apart {cp : Addr} {room : Bool} (h : s.Apart p) (hok : Fits t s (.brk p cp room))
    (hsb : ¬cp < (s.segl p SIPDATA).srBase)
    (hstack : ¬btocru cp.val ≥ btocru
      ((s.segl p SISTACK).srBase - addr (s.segl p SISTACK).srSize).val) :
    (s.resize p SIPDATA (cp.val - (s.segl p SIPDATA).srBase.val)).Apart p := by
  refine resize_apart h (fun r hr => resize_data _ hr) fun r hr => ?_
  have href : (s.resize p SIPDATA (cp.val - (s.segl p SIPDATA).srBase.val)).ref p .data =
      { s.segl p SIPDATA with srSize := cp.val - (s.segl p SIPDATA).srBase.val } := by
    unfold State.ref State.resize refOf
    simp only [Function.update_self]
  by_cases hdata : (s.segl p SIPDATA).srSegp = none
  · rw [State.pages, pagesOf_none (by rw [href]; exact hdata)]
    exact Set.empty_disjoint _
  rw [State.pages, pagesOf_some Region.noConfusion (by rw [href]; exact hdata), href]
  by_cases hr' : r = .stack
  · subst hr'
    by_cases hnone : (s.segl p SISTACK).srSegp = none
    · rw [State.pages, pagesOf_none (show (s.ref p .stack).srSegp = none from hnone)]
      exact Set.disjoint_empty _
    · rw [State.pages, pagesOf_stack (show (s.ref p .stack).srSegp ≠ none from hnone)]
      exact pageRange_disjoint (Or.inl (brk_below_stack (not_lt.mp hsb) hok.1 (not_le.mp hstack)))
  · exact hok.2 r hr hr'

theorem growStack_apart (h : s.Apart p) (hok : Fits t s (.growStack p)) :
    (s.growStack p).Apart p := by
  refine resize_apart h (fun r hr => resize_stack _ hr) fun r hr => ?_
  have href : (s.growStack p).ref p .stack =
      { s.segl p SISTACK with srSize := (s.segl p SISTACK).srSize + NBPC } := by
    unfold State.ref State.growStack State.resize refOf
    simp only [Function.update_self]
  by_cases hnone : (s.segl p SISTACK).srSegp = none
  · rw [← State.growStack, State.pages, pagesOf_none (by rw [href]; exact hnone)]
    exact Set.empty_disjoint _
  · rw [← State.growStack, State.pages, pagesOf_stack (by rw [href]; exact hnone), href]
    exact hok r hr

theorem shmAllDt_apart (h : AllApart s) (hq : s.live q = true) : (s.shmAllDt t p).Apart q := by
  refine (h q hq).mono (detach_pages (shmAllDt_segl p) (fun pi => ?_) q)
  rw [shmAllDt_shmsr]
  split
  · exact Or.inl rfl
  · exact Or.inr rfl

theorem pfork_apart {cp : P} (h : AllApart s) (hne : p ≠ cp) (hp : s.live p = true) :
    AllApart (s.pfork p cp) := by
  intro q hq
  have hsegl : (s.pfork p cp).segl = Function.update s.segl cp (s.segl p) := shmDup_segl p cp
  have hlive : (s.pfork p cp).live = Function.update s.live cp true := shmDup_live p cp
  rw [hlive] at hq
  by_cases hqc : q = cp
  · subst hqc
    have hpages : (s.pfork p q).pages q = s.pages p :=
      pages_congr (by rw [hsegl, Function.update_self]) fun i => (shmDup_child hne i).1
    rw [State.Apart, hpages]
    exact h p hp
  · rw [Function.update_of_ne hqc] at hq
    have hpages : (s.pfork p cp).pages q = s.pages q :=
      pages_congr (by rw [hsegl, Function.update_of_ne hqc]) fun i => (shmDup_others hne hqc i).1
    rw [State.Apart, hpages]
    exact h q hq

theorem pexece_apart {segl : Fin NUSEG → SR} (h : AllApart s) (hlaid : LaidOut segl) :
    AllApart (s.pexece t p segl) := by
  intro q hq
  have hlive : (s.pexece t p segl).live = s.live := shmAllDt_live p
  rw [hlive] at hq
  by_cases hqp : q = p
  · subst hqp
    have href : (s.pexece t q segl).ref q = refOf segl fun _ => SR.none := by
      unfold State.ref State.pexece
      simp only [Function.update_self]
      congr 1
      funext i
      rw [shmAllDt_shmsr, if_pos rfl]
    intro r r' hne
    rw [State.pages, href]
    exact hlaid hne
  · have hpages : (s.pexece t p segl).pages q = (s.shmAllDt t p).pages q :=
      pages_congr (by rw [shmAllDt_segl]; exact Function.update_of_ne hqp _ _) fun _ => rfl
    rw [State.Apart, hpages]
    exact shmAllDt_apart h hq

theorem pexit_apart (h : AllApart s) : AllApart (s.pexit t p) := by
  intro q hq
  have hlive : (s.pexit t p).live = Function.update s.live p false := rfl
  by_cases hqp : q = p
  · rw [hlive, hqp, Function.update_self] at hq
    cases hq
  · rw [hlive, Function.update_of_ne hqp] at hq
    have hpages : (s.pexit t p).pages q = (s.shmAllDt t p).pages q :=
      pages_congr (by rw [shmAllDt_segl]; exact Function.update_of_ne hqp _ _) fun _ => rfl
    rw [State.Apart, hpages]
    exact shmAllDt_apart h hq

/-- **A step that fits** keeps the segments of every process apart. -/
theorem AllApart.step {e : Event P} (h : AllApart s) (harr : Arranged t s) (hok : Fits t s e)
    (hs : Shm.step t s e = some s') : AllApart s' := by
  unfold Shm.step at hs
  split at hs
  case isFalse => cases hs
  next hlive =>
  cases e with
  | shmget p c shmKey shmSize shmFlag =>
    simp only [State.outcome] at hs
    cases hr : s.ushmget t c shmKey shmSize shmFlag with
    | fault => rw [hr] at hs; cases hs
    | done s₁ v err =>
      rw [hr] at hs
      cases hs
      exact (ushmget_procs hr).apart h
  | shmat p c sysId shmAddr shmFlag =>
    simp only [State.outcome] at hs
    rcases ushmat_cases t s p c sysId shmAddr shmFlag with ⟨hfault, _⟩ | ⟨_, hfail⟩ |
      ⟨tb, i, segId, a, k, hatt, hdone⟩
    · rw [hfault] at hs
      cases hs
    · rw [hfail] at hs
      cases hs
      exact h
    · rw [hdone] at hs
      cases hs
      intro q hq
      by_cases hqp : q = p
      · subst hqp
        exact harr.attach_apart (h q hlive) hok hatt _
      · have hother : ∀ j, (q, j) ≠ (p, segId) := fun j heq => hqp (congrArg Prod.fst heq)
        have hpages : (s.shmAtt tb i (p, segId) a k
            ⟨shmFlag, decide (shmAddr ≠ 0), c, (tb.shmids i).shmPerm⟩).pages q = s.pages q :=
          pages_congr rfl fun j => Function.update_of_ne (hother j) _ _
        rw [State.Apart, hpages]
        exact h q hq
  | shmctl p c shmId cmd =>
    simp only [State.outcome] at hs
    cases hr : s.ushmctl t c shmId cmd with
    | fault => rw [hr] at hs; cases hs
    | done s₁ v err =>
      rw [hr] at hs
      cases hs
      exact (ushmctl_procs hr).apart h
  | shmdt p shmAddr =>
    simp only [State.outcome, State.ushmdt] at hs
    split at hs
    · cases hs
      exact h
    · next i _ =>
      cases hs
      intro q hq
      rw [shmDetachP_live] at hq
      refine (h q hq).mono (detach_pages (shmDetachP_segl _) (fun pi => ?_) q)
      rw [shmDetachP_shmsr]
      by_cases hpi : pi = (p, i)
      · exact Or.inl (hpi ▸ Function.update_self ..)
      · exact Or.inr (Function.update_of_ne hpi _ _)
  | brk p cp room =>
    simp only [State.outcome, State.ubrk] at hs
    split_ifs at hs with hsb hstack hroom <;> cases hs
    · exact h
    · exact h
    · exact h
    · intro q hq
      by_cases hqp : q = p
      · subst hqp
        exact brk_apart (h q hlive) hok hsb hstack
      · rw [State.Apart, resize_others hqp]
        exact h q hq
  | growStack p =>
    cases hs
    intro q hq
    by_cases hqp : q = p
    · subst hqp
      exact growStack_apart (h q hlive) hok
    · rw [State.Apart, State.growStack, resize_others hqp]
      exact h q hq
  | fork p cp =>
    simp only [State.outcome] at hs
    split at hs <;> cases hs
    · exact h
    · next hcp => exact pfork_apart h (fun heq => hcp (heq ▸ hlive)) hlive
  | exec p segl =>
    cases hs
    exact pexece_apart h hok
  | exit p =>
    cases hs
    exact pexit_apart h

/-! ### Runs -/

/-- No shared memory has been asked for, and the images of the processes are laid out. -/
def InitialImages (s : State P) : Prop := Initial s ∧ ∀ p, LaidOut (s.segl p)

omit [DecidableEq P] in
theorem initial_apart (h : InitialImages s) : Arranged t s ∧ AllApart s := by
  refine ⟨⟨⟨Nat.zero_le _, fun k hk => ?_⟩, fun pi => ?_⟩, fun p _ r r' hne => ?_⟩
  · exact absurd (h.1.2.1 ▸ hk) (Nat.not_lt_zero k)
  · rw [h.1.2.2 pi]
    exact placed_none t pi.2 _
  · have href : s.ref p = refOf (s.segl p) fun _ => SR.none := by
      unfold State.ref
      congr 1
      funext i
      exact h.1.2.2 (p, i)
    rw [State.pages, href]
    exact h.2 p hne

/-- **Disjoint segments.**  In every run in which the requested addresses, the automatic ones, the
    ends of the data and the pages of the stack meet none of the gaps, the text, the data, the stack
    and the attached segments of every living process are pairwise disjoint. -/
theorem reachable_apart (h : Reach InitialImages (step t) (Fits t) s) (hp : s.live p = true) :
    Pairwise fun r r' => Disjoint (s.pages p r) (s.pages p r') := by
  have hinv : Arranged t s ∧ AllApart s :=
    h.invariant (fun _ => initial_apart) fun _ _ _ hinv hok hs =>
      ⟨hinv.1.step hs, hinv.2.step hinv.1 hok hs⟩
  exact hinv.2 p hp

theorem smallImage_laidOut : LaidOut smallImage := by
  have hrange : ∀ {a b : Addr}, btocrd a.val + 1 ≤ btocrd b.val ∨ btocrd b.val + 1 ≤ btocrd a.val →
      Disjoint (pageRange a 4096) (pageRange b 4096) := fun h => pageRange_disjoint h
  intro r r' hne
  cases r with
  | shm i => exact Set.empty_disjoint _
  | text =>
    cases r' with
    | text => exact absurd rfl hne
    | shm i => exact Set.disjoint_empty _
    | data => exact hrange (by decide)
    | stack => exact hrange (by decide)
  | data =>
    cases r' with
    | data => exact absurd rfl hne
    | shm i => exact Set.disjoint_empty _
    | text => exact hrange (by decide)
    | stack => exact hrange (by decide)
  | stack =>
    cases r' with
    | stack => exact absurd rfl hne
    | shm i => exact Set.disjoint_empty _
    | text => exact hrange (by decide)
    | data => exact hrange (by decide)

theorem alone_initialImages (p : P) : InitialImages (alone p) :=
  ⟨alone_initial p, fun _ => smallImage_laidOut⟩

/-- A segment at its automatic address, and the stack. -/
theorem reachable_apart_attached : ∃ s : State Unit, (s.shmsr ((), 0)).srSegp = some 0 ∧
    Disjoint (s.pages () (.shm 0)) (s.pages () .stack) := by
  obtain ⟨s₁, hget, heq⟩ : ∃ s₁ : State Unit, step smallTune (alone ())
      (.shmget () (getCtx 9) ⟨7, by decide⟩ ⟨4096, by decide⟩ 0o1666) = some s₁ ∧
      s₁ = ((alone ()).setTables clearTables).create clearTables (getCtx 9) 0 7 4096 0o1666 :=
    ⟨_, rfl, rfl⟩
  obtain ⟨s₂, hat, hlive, hsegp⟩ : ∃ s₂ : State Unit, step smallTune s₁
      (.shmat () root ⟨0, by decide⟩ 0 0) = some s₂ ∧ s₂.live () = true ∧
      (s₂.shmsr ((), 0)).srSegp = some 0 := by
    subst heq
    exact ⟨_, rfl, rfl, rfl⟩
  have hfits : Fits smallTune s₁ (.shmat () root ⟨0, by decide⟩ 0 0) := by
    intro tb i k htb hk hi
    subst heq
    cases htb
    cases hk
    cases hi
    rw [if_pos rfl]
    intro r _
    cases r with
    | shm j => exact Set.disjoint_empty _
    | text => exact pageRange_disjoint (by decide)
    | data => exact pageRange_disjoint (by decide)
    | stack => exact pageRange_disjoint (by decide)
  have hreach : Reach InitialImages (step smallTune) (Fits smallTune) s₂ := by
    refine Reach.step (Reach.step (Reach.init (alone_initialImages ())) ?_ hget) hfits hat
    exact trivial
  exact ⟨s₂, hsegp, reachable_apart hreach hlive Region.noConfusion⟩

/-- **An automatic address in use.**  The second automatic address is requested for the first
    attachment; the second attachment is mapped on the same page. -/
theorem auto_on_requested : ∃ s : State Unit,
    Reach InitialImages (step smallTune) (fun _ _ => True) s ∧ s.live () = true ∧
    ¬Pairwise fun r r' => Disjoint (s.pages () r) (s.pages () r') := by
  obtain ⟨s₁, hget, s₂, hreq, s₃, hauto, hlive, h₀, h₁⟩ : ∃ s₁ : State Unit,
      step smallTune (alone ())
        (.shmget () (getCtx 9) ⟨7, by decide⟩ ⟨4096, by decide⟩ 0o1666) = some s₁ ∧
      ∃ s₂, step smallTune s₁ (.shmat () root ⟨0, by decide⟩ (addr 0x40002000) 0) = some s₂ ∧
      ∃ s₃, step smallTune s₂ (.shmat () root ⟨0, by decide⟩ 0 0) = some s₃ ∧
        s₃.live () = true ∧ s₃.pages () (.shm 0) = pageRange (addr 0x40002000) 4096 ∧
        s₃.pages () (.shm 1) = pageRange (addr 0x40002000) 4096 :=
    ⟨_, rfl, _, rfl, _, rfl, rfl, rfl, rfl⟩
  refine ⟨s₃, ?_, hlive, fun h => ?_⟩
  · exact (((Reach.init (alone_initialImages ())).step trivial hget).step trivial hreq).step
      trivial hauto
  · have hdisj : Disjoint (s₃.pages () (.shm 0)) (s₃.pages () (.shm 1)) := h (by decide)
    rw [h₀, h₁, disjoint_self] at hdisj
    have hmem : 0x40002 ∈ pageRange (addr 0x40002000) 4096 := by
      rw [pageRange, Set.mem_Ico]
      decide
    rw [hdisj] at hmem
    exact hmem

end CohKernel.Shm
