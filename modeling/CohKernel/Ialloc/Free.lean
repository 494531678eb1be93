import CohKernel.Ialloc.Defs

namespace CohKernel.Ialloc

open CohKernel.Lib

/-!
# The count of the free inodes

* `reachable_sound` — the allocator in every run without lost writes and failed reads;
* `attach_failed` — the count after `iattach` has failed.
-/

variable {sIsize : ℕ} {bad : ℕ → Bool} {s s' : State} {ino : ℕ} {ip : Inode}

/-! ### The invariant -/

/-- A free inode has mode zero on the disk and in the table; an inode that is in use has not, in the
    table, or on the disk when it is not there. -/
structure Inv (sIsize : ℕ) (bad : ℕ → Bool) (s : State) : Prop where
  size : (sIsize - INODEI) * INOPB < 2 ^ 16
  disk : ∀ ino, s.allocated ino = false → s.diMode ino = 0
  free : ∀ ino, s.allocated ino = false → (s.iattach ino).iMode = 0
  busy : ∀ ino, s.allocated ino = true → (s.iattach ino).iMode ≠ 0
  used : ∀ ino, s.allocated ino = true → Usable sIsize bad ino
  cached : ∀ ino ∈ s.sInode, Usable sIsize bad ino
  count : s.sTinode.val = s.freeCount sIsize

theorem Inv.initial (h : Initial sIsize bad s) : Inv sIsize bad s := by
  have hattach : ∀ ino, (s.iattach ino).iMode = s.diMode ino := by
    intro ino
    unfold State.iattach
    rw [h.inode ino]
    rfl
  have hfree : ∀ ino, s.allocated ino = false → s.diMode ino = 0 := by
    intro ino hino
    by_contra hne
    cases hino.symm.trans ((h.allocated ino).mpr hne)
  refine ⟨h.size, hfree, fun ino hino => ?_, fun ino hino => ?_, fun ino hino => ?_, h.cached,
    h.count⟩
  · rw [hattach, hfree ino hino]
  · rw [hattach]
    exact (h.allocated ino).mp hino
  · exact h.used ino ((h.allocated ino).mp hino)

theorem freeCount_lt (h : Inv sIsize bad s) : s.freeCount sIsize < 2 ^ 16 := by
  have hle : s.freeCount sIsize ≤ (inodeNumbers sIsize).card := Finset.card_filter_le _ _
  have hcard : (inodeNumbers sIsize).card = (sIsize - INODEI) * INOPB := by
    unfold inodeNumbers
    rw [Nat.card_Icc]
    omega
  have hsize := h.size
  omega

/-- One inode less is free. -/
theorem freeCount_alloc (hs : s'.allocated = Function.update s.allocated ino true)
    (hin : ino ∈ inodeNumbers sIsize) (hfree : s.allocated ino = false) :
    s'.freeCount sIsize + 1 = s.freeCount sIsize := by
  have hmem : ino ∈ (inodeNumbers sIsize).filter fun i => s.allocated i = false :=
    Finset.mem_filter.mpr ⟨hin, hfree⟩
  have hset : ((inodeNumbers sIsize).filter fun i => s'.allocated i = false) =
      ((inodeNumbers sIsize).filter fun i => s.allocated i = false).erase ino := by
    ext i
    rw [Finset.mem_erase, Finset.mem_filter, Finset.mem_filter, hs]
    by_cases hi : i = ino
    · subst hi
      simp
    · rw [Function.update_of_ne hi]
      simp [hi]
  unfold State.freeCount
  rw [hset]
  exact Finset.card_erase_add_one hmem

/-- One inode more is free. -/
theorem freeCount_free (hs : s'.allocated = Function.update s.allocated ino false)
    (hin : ino ∈ inodeNumbers sIsize) (hused : s.allocated ino = true) :
    s'.freeCount sIsize = s.freeCount sIsize + 1 := by
  have hback : s.allocated = Function.update s'.allocated ino true := by
    rw [hs, Function.update_idem, ← hused, Function.update_eq_self]
  have hfree : s'.allocated ino = false := by
    rw [hs, Function.update_self]
  exact (freeCount_alloc hback hin hfree).symm

/-! ### Inodes in the table -/

theorem iattach_setInode (s : State) (ino : ℕ) (ip : Inode) (i : ℕ) :
    (s.setInode ino (some ip)).iattach i = if i = ino then ip else s.iattach i := by
  unfold State.iattach State.setInode
  by_cases hi : i = ino
  · subst hi
    simp
  · simp [hi]

/-- An inode of the table is changed, and its mode does not become or cease to be zero. -/
theorem Inv.setInode (h : Inv sIsize bad s) (hmode : ip.iMode = 0 ↔ (s.iattach ino).iMode = 0) :
    Inv sIsize bad (s.setInode ino (some ip)) := by
  have hzero : ∀ i, ((s.setInode ino (some ip)).iattach i).iMode = 0 ↔ (s.iattach i).iMode = 0 := by
    intro i
    rw [iattach_setInode]
    split
    · rename_i hi
      rw [hi]
      exact hmode
    · exact Iff.rfl
  exact ⟨h.size, h.disk, fun i hi => (hzero i).mpr (h.free i hi),
    fun i hi hc => h.busy i hi ((hzero i).mp hc), h.used, h.cached, h.count⟩

/-- **`isync`** -/
theorem Inv.isync (h : Inv sIsize bad s) (written : ℕ → Bool) :
    Inv sIsize bad (s.isync written) := by
  have hattach : ∀ i, ((s.isync written).iattach i).iMode = (s.iattach i).iMode := by
    intro i
    unfold State.isync State.iattach
    cases hi : s.inode i with
    | none => simp [hi]
    | some ip =>
      simp only [hi, Option.map_some, Option.getD_some]
      split <;> rfl
  refine ⟨h.size, fun i hi => ?_, fun i hi => (hattach i).trans (h.free i hi),
    fun i hi => (hattach i).symm ▸ h.busy i hi, h.used, h.cached, h.count⟩
  have hfree := h.free i hi
  unfold State.iattach at hfree
  unfold State.isync
  cases hip : s.inode i with
  | none => simp [hip, h.disk i hi]
  | some ip =>
    rw [hip, Option.getD_some] at hfree
    simp only [hip]
    split
    · exact hfree
    · exact h.disk i hi

/-! ### The scan -/

theorem mem_inodesOf {b : ℕ} (hb : INODEI ≤ b) : ino ∈ inodesOf b ↔ 1 ≤ ino ∧ iblockn ino = b := by
  unfold inodesOf iblockn INOPB
  rw [List.mem_range'_1]
  constructor
  · intro h
    omega
  · intro h
    omega

theorem usable_iff : Usable sIsize bad ino ↔
    ∃ b ∈ inodeBlocks sIsize, bad b = false ∧ ino ∈ inodesOf b := by
  unfold Usable inodeNumbers inodeBlocks
  rw [Finset.mem_Icc]
  constructor
  · rintro ⟨⟨hlo, hhi⟩, hgood⟩
    have hb : INODEI ≤ iblockn ino := Nat.le_add_right _ _
    refine ⟨iblockn ino, ?_, hgood, (mem_inodesOf hb).mpr ⟨hlo, rfl⟩⟩
    rw [List.mem_range'_1]
    unfold iblockn INOPB at *
    omega
  · rintro ⟨b, hb, hgood, hin⟩
    rw [List.mem_range'_1] at hb
    obtain ⟨hlo, rfl⟩ := (mem_inodesOf hb.1).mp hin
    refine ⟨⟨hlo, ?_⟩, hgood⟩
    unfold iblockn INOPB at *
    omega

theorem mem_scanned {readable : ℕ → Bool} : ino ∈ s.scanned sIsize bad readable ↔
    Usable sIsize bad ino ∧ readable (iblockn ino) = true ∧ s.diMode ino = 0 := by
  unfold State.scanned
  rw [List.mem_filter, List.mem_flatMap, usable_iff, decide_eq_true_eq]
  constructor
  · rintro ⟨⟨b, hb, hin⟩, hmode⟩
    rw [List.mem_filter, Bool.and_eq_true, Bool.not_eq_true'] at hb
    obtain ⟨hb, hgood, hread⟩ := hb
    have hle : INODEI ≤ b := (List.mem_range'_1.mp hb).1
    have hblock := ((mem_inodesOf hle).mp hin).2
    exact ⟨⟨b, hb, hgood, hin⟩, hblock.symm ▸ hread, hmode⟩
  · rintro ⟨⟨b, hb, hgood, hin⟩, hread, hmode⟩
    have hle : INODEI ≤ b := (List.mem_range'_1.mp hb).1
    have hblock := ((mem_inodesOf hle).mp hin).2
    refine ⟨⟨b, ?_, hin⟩, hmode⟩
    rw [List.mem_filter, Bool.and_eq_true, Bool.not_eq_true']
    exact ⟨hb, hgood, hblock ▸ hread⟩

theorem Inv.refill (h : Inv sIsize bad s) (t : Turn) : Inv sIsize bad (s.refill sIsize bad t) := by
  have hs := h.isync t.written
  refine ⟨hs.size, hs.disk, hs.free, hs.busy, hs.used, fun i hi => ?_, hs.count⟩
  have hmem := List.mem_of_mem_take (List.mem_reverse.mp hi)
  exact (mem_scanned.mp hmem).1

/-! ### A turn of `ialloc` -/

/-- `iattach` succeeds, and the blocks that are skipped by a scan that finds nothing have no free
    inode. -/
def TurnOk (sIsize : ℕ) (bad : ℕ → Bool) (s : State) (t : Turn) : Prop :=
  t.attached = true ∧ (s.sInode = [] → (s.refill sIsize bad t).sInode = [] →
    ∀ ino ∈ inodeNumbers sIsize, bad (iblockn ino) = true ∨ t.readable (iblockn ino) = false →
      (s.isync t.written).diMode ino ≠ 0)

/-- A scan that finds nothing has seen that there is nothing. -/
theorem Inv.empty (h : Inv sIsize bad s) {t : Turn} (hok : TurnOk sIsize bad s t)
    (hs : s.sInode = []) (hnone : (s.refill sIsize bad t).sInode = []) :
    s.freeCount sIsize = 0 := by
  unfold State.freeCount
  rw [Finset.card_eq_zero, Finset.filter_eq_empty_iff]
  intro i hi hfree
  have hmode : (s.isync t.written).diMode i = 0 := (h.isync t.written).disk i hfree
  by_cases hskip : bad (iblockn i) = true ∨ t.readable (iblockn i) = false
  · exact hok.2 hs hnone i hi hskip hmode
  · rw [not_or, Bool.not_eq_true, Bool.not_eq_false] at hskip
    have hmem : i ∈ (s.isync t.written).scanned sIsize bad t.readable :=
      mem_scanned.mpr ⟨⟨hi, hskip.1⟩, hskip.2, hmode⟩
    have hscan : (s.isync t.written).scanned sIsize bad t.readable = [] := by
      have htake := List.reverse_eq_nil_iff.mp hnone
      rcases List.take_eq_nil_iff.mp htake with hz | hnil
      · cases hz
      · exact hnil
    rw [hscan] at hmem
    cases hmem

/-- What `ialloc` returns: a free inode, which it hands out, or nothing, when no inode is free. -/
def Returns (sIsize : ℕ) (bad : ℕ → Bool) (s s' : State) : Option ℕ → Prop
  | none => s.freeCount sIsize = 0
  | some ino => Usable sIsize bad ino ∧ s.diMode ino = 0 ∧ s.allocated ino = false ∧
      s'.allocated = Function.update s.allocated ino true

theorem ushort_pred_succ (u : Ushort) : ushort ((ushort (u.val - 1)).val + 1) = u := by
  rw [ushort_eq_self_iff, ushort_val]
  omega

/-- An inode that is in use is skipped, and the count is as it was. -/
theorem Inv.skip (h : Inv sIsize bad s) {inodes : List ℕ} (hl : s.sInode = ino :: inodes) :
    Inv sIsize bad { (s.pop inodes).setInode ino (some (s.iattach ino)) with
      sTinode := ushort ((s.pop inodes).sTinode.val + 1) } := by
  have hset : Inv sIsize bad (s.setInode ino (some (s.iattach ino))) := h.setInode Iff.rfl
  refine ⟨hset.size, hset.disk, hset.free, hset.busy, hset.used, fun i hi => ?_, ?_⟩
  · refine h.cached i ?_
    rw [hl]
    exact List.mem_cons_of_mem ino hi
  · have hcount : ushort ((s.pop inodes).sTinode.val + 1) = s.sTinode := ushort_pred_succ s.sTinode
    show (ushort ((s.pop inodes).sTinode.val + 1)).val = s.freeCount sIsize
    rw [hcount]
    exact h.count

/-- A free inode is handed out. -/
theorem Inv.hand (h : Inv sIsize bad s) {inodes : List ℕ} (hl : s.sInode = ino :: inodes)
    (hmode : ip.iMode ≠ 0) (hfree : s.allocated ino = false) (hdisk : s'.diMode = s.diMode)
    (hattach : ∀ i, s'.iattach i = if i = ino then ip else s.iattach i)
    (halloc : s'.allocated = Function.update s.allocated ino true) (hin : s'.sInode = inodes)
    (hcount : s'.sTinode = ushort (s.sTinode.val - 1)) : Inv sIsize bad s' := by
  have husable : Usable sIsize bad ino := h.cached ino (by rw [hl]; exact List.mem_cons_self)
  have hother : ∀ i, i ≠ ino → s'.allocated i = s.allocated i := fun i hi => by
    rw [halloc, Function.update_of_ne hi]
  refine ⟨h.size, fun i hi => ?_, fun i hi => ?_, fun i hi => ?_, fun i hi => ?_, fun i hi => ?_,
    ?_⟩
  · rw [hdisk]
    by_cases hino : i = ino
    · rw [hino]
      exact h.disk ino hfree
    · exact h.disk i ((hother i hino).symm.trans hi)
  · rw [hattach]
    by_cases hino : i = ino
    · rw [hino, halloc, Function.update_self] at hi
      cases hi
    · rw [if_neg hino]
      exact h.free i ((hother i hino).symm.trans hi)
  · rw [hattach]
    by_cases hino : i = ino
    · rw [if_pos hino]
      exact hmode
    · rw [if_neg hino]
      exact h.busy i ((hother i hino).symm.trans hi)
  · by_cases hino : i = ino
    · rw [hino]
      exact husable
    · exact h.used i ((hother i hino).symm.trans hi)
  · refine h.cached i ?_
    rw [hl, ← hin]
    exact List.mem_cons_of_mem ino hi
  · have hless := freeCount_alloc halloc husable.1 hfree
    have hval := ushort_val (s.sTinode.val - 1)
    have hold := h.count
    have hlt := freeCount_lt h
    rw [hcount]
    omega

/-- **One turn of `ialloc`** hands out a free inode, or skips one that is in use. -/
theorem Inv.turn (h : Inv sIsize bad s) {mode : Ushort} (hmode : mode ≠ 0) {t : Turn}
    (hok : TurnOk sIsize bad s t) {o : Outcome} (hs : s.turn sIsize bad mode t = (s', o)) :
    Inv sIsize bad s' ∧ match o with
      | .again => s'.allocated = s.allocated
      | .returned r => Returns sIsize bad s s' r := by
  obtain ⟨r, hr⟩ : ∃ r, (if s.sInode = [] then s.refill sIsize bad t else s) = r := ⟨_, rfl⟩
  have hinv : Inv sIsize bad r := by
    rw [← hr]
    split
    · exact h.refill t
    · exact h
  have halloc : r.allocated = s.allocated := by
    rw [← hr]
    split <;> rfl
  unfold State.turn at hs
  rw [hr] at hs
  cases hl : r.sInode with
  | nil =>
    have hempty : s.sInode = [] := by
      by_contra hne
      rw [if_neg hne] at hr
      exact hne (hr ▸ hl)
    rw [if_pos hempty] at hr
    have hnone := h.empty hok hempty (hr.symm ▸ hl)
    have hcount : r.freeCount sIsize = 0 := by
      unfold State.freeCount
      rw [halloc]
      exact hnone
    simp only [hl, Prod.mk.injEq] at hs
    obtain ⟨rfl, rfl⟩ := hs
    exact ⟨⟨hinv.size, hinv.disk, hinv.free, hinv.busy, hinv.used,
      fun i hi => hinv.cached i (hl ▸ hi), hcount.symm⟩, hnone⟩
  | cons ino inodes =>
    have husable : Usable sIsize bad ino := hinv.cached ino (by rw [hl]; exact List.mem_cons_self)
    simp only [hl, if_pos hok.1] at hs
    by_cases hbusy : (r.iattach ino).iMode = 0
    · have hfree : r.allocated ino = false := by
        rw [← Bool.not_eq_true]
        exact fun hc => hinv.busy ino hc hbusy
      have hskip : ¬(State.iattach (r.pop inodes) ino).iMode ≠ 0 := fun hc => hc hbusy
      rw [if_neg hskip, Prod.mk.injEq] at hs
      obtain ⟨rfl, rfl⟩ := hs
      have hattach := iattach_setInode (r.pop inodes) ino ⟨mode, false⟩
      have hfree' : s.allocated ino = false := halloc ▸ hfree
      exact ⟨hinv.hand hl hmode hfree rfl hattach rfl rfl rfl, husable, h.disk ino hfree', hfree',
        halloc ▸ rfl⟩
    · have hskip : (State.iattach (r.pop inodes) ino).iMode ≠ 0 := hbusy
      rw [if_pos hskip, Prod.mk.injEq] at hs
      obtain ⟨rfl, rfl⟩ := hs
      exact ⟨hinv.skip hl, halloc⟩

/-! ### Calls of `ialloc` -/

/-- The turns of a call meet the condition. -/
def TurnsOk (sIsize : ℕ) (bad : ℕ → Bool) (mode : Ushort) : State → List Turn → Prop
  | _, [] => True
  | s, t :: ts => TurnOk sIsize bad s t ∧
      ∀ s', s.turn sIsize bad mode t = (s', .again) → TurnsOk sIsize bad mode s' ts

theorem Returns.trans (h : Inv sIsize bad s) {s₁ : State} (halloc : s₁.allocated = s.allocated)
    {r : Option ℕ} (hr : Returns sIsize bad s₁ s' r) : Returns sIsize bad s s' r := by
  have hcount : s₁.freeCount sIsize = s.freeCount sIsize := by
    unfold State.freeCount
    rw [halloc]
  cases r with
  | none => exact hcount.symm.trans hr
  | some ino =>
    obtain ⟨husable, -, hfree, hs'⟩ := hr
    rw [halloc] at hfree hs'
    exact ⟨husable, h.disk ino hfree, hfree, hs'⟩

/-- **A call of `ialloc`** -/
theorem Inv.ialloc (h : Inv sIsize bad s) {mode : Ushort} (hmode : mode ≠ 0) {turns : List Turn}
    (hok : TurnsOk sIsize bad mode s turns) {r : Option ℕ}
    (hs : s.ialloc sIsize bad mode turns = some (s', r)) :
    Inv sIsize bad s' ∧ Returns sIsize bad s s' r := by
  induction turns generalizing s with
  | nil => cases hs
  | cons t ts ih =>
    unfold State.ialloc at hs
    obtain ⟨⟨s₁, o⟩, hturn⟩ : ∃ x, s.turn sIsize bad mode t = x := ⟨_, rfl⟩
    rw [hturn] at hs
    obtain ⟨hinv, ho⟩ := h.turn hmode hok.1 hturn
    cases o with
    | again =>
      obtain ⟨hinv', hr⟩ := ih hinv (hok.2 s₁ hturn) hs
      exact ⟨hinv', Returns.trans h ho hr⟩
    | returned r' =>
      cases hs
      exact ⟨hinv, ho⟩

/-! ### Steps -/

/-- **An inode is freed**, and its modes are cleared. -/
theorem Inv.ifree (h : Inv sIsize bad s) (hused : s.allocated ino = true)
    (hdisk : s'.diMode = Function.update s.diMode ino 0)
    (hattach : ∀ i, s'.iattach i = if i = ino then ⟨0, false⟩ else s.iattach i)
    (halloc : s'.allocated = Function.update s.allocated ino false)
    (hin : ∀ i ∈ s'.sInode, i = ino ∨ i ∈ s.sInode)
    (hcount : s'.sTinode = ushort (s.sTinode.val + 1)) : Inv sIsize bad s' := by
  have husable := h.used ino hused
  have hother : ∀ i, i ≠ ino → s'.allocated i = s.allocated i := fun i hi => by
    rw [halloc, Function.update_of_ne hi]
  have hthis : ∀ i, s'.allocated i = true → i ≠ ino := by
    rintro i hi rfl
    rw [halloc, Function.update_self] at hi
    cases hi
  refine ⟨h.size, fun i hi => ?_, fun i hi => ?_, fun i hi => ?_, fun i hi => ?_, fun i hi => ?_,
    ?_⟩
  · rw [hdisk]
    by_cases hino : i = ino
    · rw [hino, Function.update_self]
    · rw [Function.update_of_ne hino]
      exact h.disk i ((hother i hino).symm.trans hi)
  · rw [hattach]
    by_cases hino : i = ino
    · rw [if_pos hino]
    · rw [if_neg hino]
      exact h.free i ((hother i hino).symm.trans hi)
  · have hino := hthis i hi
    rw [hattach, if_neg hino]
    exact h.busy i ((hother i hino).symm.trans hi)
  · exact h.used i ((hother i (hthis i hi)).symm.trans hi)
  · rcases hin i hi with rfl | hi
    · exact husable
    · exact h.cached i hi
  · have hmore := freeCount_free halloc husable.1 hused
    have hval := ushort_val (s.sTinode.val + 1)
    have hold := h.count
    have hle : s'.freeCount sIsize ≤ (inodeNumbers sIsize).card := Finset.card_filter_le _ _
    have hcard : (inodeNumbers sIsize).card = (sIsize - INODEI) * INOPB := by
      unfold inodeNumbers
      rw [Nat.card_Icc]
      omega
    have hsize := h.size
    rw [hcount]
    omega

/-- **`icopymd`** frees an inode that is unlinked. -/
theorem Inv.icopymd (h : Inv sIsize bad s) (hip : s.inode ino = some ip) {unlinked readable : Bool}
    (hused : unlinked = true → s.allocated ino = true)
    (hread : unlinked = true → readable = true) :
    Inv sIsize bad (s.icopymd ino ip unlinked readable) := by
  have hattach : s.iattach ino = ip := by
    unfold State.iattach
    rw [hip]
    rfl
  unfold State.icopymd
  cases readable with
  | false =>
    have hlinked : unlinked = false := by
      rw [← Bool.not_eq_true]
      exact fun hc => Bool.false_ne_true (hread hc)
    subst hlinked
    exact h.setInode (by rw [hattach]; exact Iff.rfl)
  | true =>
    cases unlinked with
    | false =>
      have hset : Inv sIsize bad (s.setInode ino (some ⟨ip.iMode, false⟩)) :=
        h.setInode (by rw [hattach])
      have hsame : ∀ i, State.iattach { s.setInode ino (some ⟨ip.iMode, false⟩) with
          diMode := Function.update s.diMode ino ip.iMode } i =
          (s.setInode ino (some ⟨ip.iMode, false⟩)).iattach i := by
        intro i
        unfold State.iattach State.setInode
        by_cases hi : i = ino
        · subst hi
          simp
        · simp [hi]
      refine ⟨h.size, fun i hi => ?_, fun i hi => ?_, fun i hi => ?_, h.used, h.cached, h.count⟩
      · show Function.update s.diMode ino ip.iMode i = 0
        by_cases hino : i = ino
        · subst hino
          rw [Function.update_self, ← hattach]
          exact h.free i hi
        · rw [Function.update_of_ne hino]
          exact h.disk i hi
      · exact (congrArg Inode.iMode (hsame i)).trans (hset.free i hi)
      · exact fun hc => hset.busy i hi ((congrArg Inode.iMode (hsame i)).symm.trans hc)
    | true =>
      have hino := hused rfl
      refine h.ifree hino rfl (fun i => ?_) rfl (fun i hi => ?_) rfl
      · unfold State.iattach
        simp only [if_true, State.ifree, State.setInode]
        by_cases hi : i = ino
        · subst hi
          simp
        · simp [hi]
      · change i ∈ (if s.sInode.length < NICINOD then ino :: s.sInode else s.sInode) at hi
        split at hi
        · exact List.mem_cons.mp hi
        · exact Or.inr hi

/-- `iattach` does not fail in `ialloc`, and a scan that finds nothing skips no free inode; no inode
    is given the mode zero; and no inode is lost because its block cannot be read: one that is
    unlinked is written, and one that leaves the table has been written. -/
def Ok (sIsize : ℕ) (bad : ℕ → Bool) (s : State) : Event → Prop
  | .ialloc mode turns => mode ≠ 0 ∧ TurnsOk sIsize bad mode s turns
  | .iattach _ => True
  | .change _ mode => mode ≠ 0
  | .icopymd _ unlinked readable => unlinked = true → readable = true
  | .recycle ino => ∀ ip, s.inode ino = some ip → s.diMode ino = ip.iMode

theorem Inv.step (h : Inv sIsize bad s) {e : Event} (hok : Ok sIsize bad s e)
    (hs : step sIsize bad s e = some s') : Inv sIsize bad s' := by
  cases e with
  | ialloc mode turns =>
    obtain ⟨⟨s₁, r⟩, hcall, rfl⟩ := Option.map_eq_some_iff.mp hs
    exact (h.ialloc hok.1 hok.2 hcall).1
  | iattach ino =>
    cases hs
    exact h.setInode Iff.rfl
  | change ino mode =>
    cases hip : s.inode ino with
    | none => simp [Ialloc.step, hip] at hs
    | some ip =>
      simp only [Ialloc.step, hip] at hs
      obtain ⟨hused, hs⟩ := Option.ite_none_right_eq_some.mp hs
      cases hs
      exact h.setInode (iff_of_false hok (h.busy ino hused))
  | icopymd ino unlinked readable =>
    cases hip : s.inode ino with
    | none => simp [Ialloc.step, hip] at hs
    | some ip =>
      simp only [Ialloc.step, hip] at hs
      obtain ⟨hused, hs⟩ := Option.ite_none_right_eq_some.mp hs
      cases hs
      exact h.icopymd hip hused hok
  | recycle ino =>
    cases hs
    have hsame : ∀ i, ((s.setInode ino none).iattach i).iMode = (s.iattach i).iMode := by
      intro i
      unfold State.iattach State.setInode
      by_cases hi : i = ino
      · subst hi
        cases hip : s.inode i with
        | none => simp
        | some ip => simp [hok ip hip]
      · simp [hi]
    exact ⟨h.size, h.disk, fun i hi => (hsame i).trans (h.free i hi),
      fun i hi => (hsame i).symm ▸ h.busy i hi, h.used, h.cached, h.count⟩

/-! ### A free inode can be allocated -/

/-- The inodes of a list that are in use have been written. -/
theorem Inv.write (h : Inv sIsize bad s) (l : List ℕ) :
    ∃ s', After (Ialloc.step sIsize bad) (Ok sIsize bad) s s' ∧ Inv sIsize bad s' ∧
      s'.allocated = s.allocated ∧
      ∀ ino, s.allocated ino = true → ino ∈ l ∨ s.diMode ino ≠ 0 → s'.diMode ino ≠ 0 := by
  induction l generalizing s with
  | nil =>
    refine ⟨s, Relation.ReflTransGen.refl, h, rfl, ?_⟩
    rintro ino - (hino | hino)
    · cases hino
    · exact hino
  | cons x l ih =>
    cases hx : s.inode x with
    | none =>
      obtain ⟨s', hafter, hinv, halloc, hwrote⟩ := ih h
      refine ⟨s', hafter, hinv, halloc, fun ino hino hmem => hwrote ino hino ?_⟩
      rcases hmem with hmem | hmode
      · rcases List.mem_cons.mp hmem with rfl | hmem
        · have hbusy := h.busy ino hino
          unfold State.iattach at hbusy
          rw [hx] at hbusy
          exact Or.inr hbusy
        · exact Or.inl hmem
      · exact Or.inr hmode
    | some ip =>
      have hstep : Ialloc.step sIsize bad s (.icopymd x false true) =
          some (s.icopymd x ip false true) := by
        unfold Ialloc.step
        simp [hx]
      have hinv : Inv sIsize bad (s.icopymd x ip false true) :=
        h.icopymd hx (fun hc => absurd hc Bool.false_ne_true) fun _ => rfl
      obtain ⟨s', hafter, hinv', halloc, hwrote⟩ := ih hinv
      have hok : Ok sIsize bad s (.icopymd x false true) := fun _ => rfl
      refine ⟨s', Relation.ReflTransGen.head ⟨_, hok, hstep⟩ hafter, hinv', halloc,
        fun ino hino hmem => hwrote ino hino ?_⟩
      have hmode : (s.icopymd x ip false true).diMode = Function.update s.diMode x ip.iMode := rfl
      rw [hmode]
      by_cases hix : ino = x
      · subst hix
        have hbusy := h.busy ino hino
        unfold State.iattach at hbusy
        rw [hx] at hbusy
        rw [Function.update_self]
        exact Or.inr hbusy
      · rw [Function.update_of_ne hix]
        exact hmem.imp (fun hm => (List.mem_cons.mp hm).resolve_left hix) id

theorem isync_none : s.isync (fun _ => false) = s := by
  apply State.ext
  · rfl
  · rfl
  · ext ino
    unfold State.isync
    cases hip : s.inode ino <;> simp [hip]
  · ext ino
    unfold State.isync
    cases hip : s.inode ino <;> simp [hip]
  · rfl

/-- A turn in which everything can be read. -/
def clean : Turn := ⟨fun _ => false, fun _ => true, true⟩

/-- A turn that takes a free inode from the cache. -/
theorem turn_hands {r : State} {inodes : List ℕ}
    (hr : (if s.sInode = [] then s.refill sIsize bad clean else s) = r)
    (hl : r.sInode = ino :: inodes) (hmode : (r.iattach ino).iMode = 0) (mode : Ushort) :
    ∃ s', s.turn sIsize bad mode clean = (s', .returned (some ino)) := by
  have hattach : ((r.pop inodes).iattach ino).iMode = 0 := hmode
  unfold State.turn
  rw [hr]
  simp only [hl, hattach]
  exact ⟨_, rfl⟩

/-- When all inodes in use have been written and there is a free one, `ialloc` finds one. -/
theorem Inv.find (h : Inv sIsize bad s) (hwrote : ∀ i, s.allocated i = true → s.diMode i ≠ 0)
    {x : ℕ} (hx : Usable sIsize bad x) (hfree : s.allocated x = false) :
    ∃ turns s' ino, s.ialloc sIsize bad 1 turns = some (s', some ino) ∧
      TurnsOk sIsize bad 1 s turns := by
  induction hl : s.sInode generalizing s with
  | nil =>
    -- The cache is filled, with a free inode at least.
    have hmem : x ∈ s.scanned sIsize bad fun _ => true :=
      mem_scanned.mpr ⟨hx, rfl, h.disk x hfree⟩
    have hcache : (s.refill sIsize bad clean).sInode =
        ((s.scanned sIsize bad fun _ => true).take NICINOD).reverse := by
      unfold State.refill
      rw [show clean.written = fun _ => false from rfl, isync_none]
      rfl
    obtain ⟨ino, inodes, hr⟩ : ∃ ino inodes, (s.refill sIsize bad clean).sInode =
      ino :: inodes := by
      refine List.exists_cons_of_ne_nil fun hnil => ?_
      rw [hcache, List.reverse_eq_nil_iff, List.take_eq_nil_iff] at hnil
      rcases hnil with hz | hnil
      · cases hz
      · rw [hnil] at hmem
        cases hmem
    have hin : ino ∈ s.scanned sIsize bad fun _ => true := by
      have hmem : ino ∈ (s.refill sIsize bad clean).sInode := by
        rw [hr]
        exact List.mem_cons_self
      rw [hcache, List.mem_reverse] at hmem
      exact List.mem_of_mem_take hmem
    have hino : s.allocated ino = false := by
      rw [← Bool.not_eq_true]
      exact fun hc => hwrote ino hc (mem_scanned.mp hin).2.2
    obtain ⟨s', hs'⟩ := turn_hands (if_pos hl) hr ((h.refill clean).free ino hino) 1
    refine ⟨[clean], s', ino, ?_, ⟨rfl, fun _ hnil => ?_⟩, fun s₁ hs₁ => ?_⟩
    · unfold State.ialloc
      rw [hs']
    · cases hr.symm.trans hnil
    · cases hs'.symm.trans hs₁
  | cons ino inodes ih =>
    have hne : s.sInode ≠ [] := by
      rw [hl]
      exact List.cons_ne_nil ino inodes
    have hok : TurnOk sIsize bad s clean := ⟨rfl, fun hnil => absurd hnil hne⟩
    by_cases hino : s.allocated ino = true
    · have hbusy : ((s.pop inodes).iattach ino).iMode ≠ 0 := h.busy ino hino
      obtain ⟨s₁, hs₁, hcache, hdisk⟩ : ∃ s₁, s.turn sIsize bad 1 clean = (s₁, .again) ∧
          s₁.sInode = inodes ∧ s₁.diMode = s.diMode := by
        unfold State.turn
        rw [if_neg hne]
        simp only [hl]
        have hattached : clean.attached = true := rfl
        rw [if_pos hattached, if_pos hbusy]
        exact ⟨_, rfl, rfl, rfl⟩
      obtain ⟨hinv, halloc⟩ := h.turn (by decide) hok hs₁
      obtain ⟨turns, s', y, hs', hoks⟩ := ih hinv
        (fun i hi => by rw [hdisk]; exact hwrote i (halloc ▸ hi)) (halloc ▸ hfree) hcache
      refine ⟨clean :: turns, s', y, ?_, hok, fun s₂ hs₂ => ?_⟩
      · unfold State.ialloc
        rw [hs₁]
        exact hs'
      · cases hs₁.symm.trans hs₂
        exact hoks
    · rw [Bool.not_eq_true] at hino
      obtain ⟨s', hs'⟩ := turn_hands (if_neg hne) hl (h.free ino hino) 1
      refine ⟨[clean], s', ino, ?_, hok, fun s₁ hs₁ => ?_⟩
      · unfold State.ialloc
        rw [hs']
      · cases hs'.symm.trans hs₁

/-- **A free inode can be allocated**: calls of `ialloc` hand out all free inodes. -/
theorem Inv.again (h : Inv sIsize bad s) {x : ℕ} (hx : Usable sIsize bad x)
    (hfree : s.allocated x = false) :
    ∃ s', After (Ialloc.step sIsize bad) (Ok sIsize bad) s s' ∧ s'.allocated x = true := by
  induction hn : s.freeCount sIsize using Nat.strong_induction_on generalizing s with
  | _ n ih =>
    obtain ⟨s₁, hafter, hinv, halloc, hwrote⟩ := h.write (inodeNumbers sIsize).toList
    have hcount : s₁.freeCount sIsize = n := by
      rw [← hn]
      unfold State.freeCount
      rw [halloc]
    have hwrote' : ∀ i, s₁.allocated i = true → s₁.diMode i ≠ 0 := by
      intro i hi
      have hi' : s.allocated i = true := halloc ▸ hi
      exact hwrote i hi' (Or.inl (Finset.mem_toList.mpr (h.used i hi').1))
    obtain ⟨turns, s₂, ino, hs₂, hok⟩ := hinv.find hwrote' hx (halloc ▸ hfree)
    obtain ⟨hinv₂, husable, -, hino, hupdate⟩ := hinv.ialloc (by decide) hok hs₂
    have hstep : Ialloc.step sIsize bad s₁ (.ialloc 1 turns) = some s₂ := by
      unfold Ialloc.step
      simp only [hs₂, Option.map_some]
    have hevent : Ok sIsize bad s₁ (.ialloc 1 turns) := ⟨by decide, hok⟩
    have hafter₂ : After (Ialloc.step sIsize bad) (Ok sIsize bad) s s₂ :=
      hafter.tail ⟨_, hevent, hstep⟩
    by_cases hxi : x = ino
    · refine ⟨s₂, hafter₂, ?_⟩
      rw [hupdate, hxi, Function.update_self]
    · have hless := freeCount_alloc hupdate husable.1 hino
      have hfree₂ : s₂.allocated x = false := by
        rw [hupdate, Function.update_of_ne hxi, halloc]
        exact hfree
      obtain ⟨s', hafter', hs'⟩ := ih (s₂.freeCount sIsize) (by omega) hinv₂ hfree₂ rfl
      exact ⟨s', hafter₂.trans hafter', hs'⟩

/-! ### Runs -/

/-- The allocator as its callers rely on it: the count is right, `ialloc` hands out a free inode or
    there is none, and an inode that is freed can be allocated again. -/
structure Sound (sIsize : ℕ) (bad : ℕ → Bool) (ok : State → Event → Prop) (s : State) : Prop where
  count : s.sTinode.val = s.freeCount sIsize
  returns : ∀ mode turns s' r, ok s (.ialloc mode turns) →
    s.ialloc sIsize bad mode turns = some (s', r) → Returns sIsize bad s s' r
  again : ∀ ino s', s.allocated ino = true → ok s (.icopymd ino true true) →
    step sIsize bad s (.icopymd ino true true) = some s' → s'.allocated ino = false ∧
      s'.diMode ino = 0 ∧ ∃ t, After (step sIsize bad) ok s' t ∧ t.allocated ino = true

/-- **The allocator is sound** in every run in which no inode is lost to a failed read. -/
theorem reachable_sound (hr : Reach (Initial sIsize bad) (step sIsize bad) (Ok sIsize bad) s) :
    Sound sIsize bad (Ok sIsize bad) s := by
  have hinv : Inv sIsize bad s :=
    hr.invariant (fun _ h => Inv.initial h) fun _ _ _ h hok hs => h.step hok hs
  refine ⟨hinv.count, fun mode turns s' r hok hs => (hinv.ialloc hok.1 hok.2 hs).2,
    fun ino s' hino hok hs => ?_⟩
  have hinv' := hinv.step hok hs
  have hfree : s'.allocated ino = false := by
    cases hip : s.inode ino with
    | none => simp [step, hip] at hs
    | some ip =>
      simp only [step, hip] at hs
      rw [if_pos fun _ => hino] at hs
      cases hs
      exact Function.update_self _ _ _
  exact ⟨hfree, hinv'.disk ino hfree, hinv'.again (hinv.used ino hino) hfree⟩

/-- A filesystem of eight inodes: the first two are in use. -/
def start : State where
  sInode := []
  sTinode := 6
  diMode := fun ino => if ino = 1 ∨ ino = 2 then 0o100644 else 0
  inode := fun _ => none
  allocated := fun ino => decide (ino = 1 ∨ ino = 2)

theorem start_initial : Initial 3 (fun _ => false) start := by
  refine ⟨by decide, fun _ => rfl, fun ino => ?_, fun ino hino => ?_, fun ino hino => ?_, by decide⟩
  · unfold start
    simp only [decide_eq_true_eq]
    by_cases h : ino = 1 ∨ ino = 2
    · simp only [if_pos h]
      exact iff_of_true h (by decide)
    · simp only [if_neg h]
      exact iff_of_false h (by decide)
  · by_cases h : ino = 1 ∨ ino = 2
    · refine ⟨?_, rfl⟩
      rcases h with rfl | rfl <;> decide
    · unfold start at hino
      simp only [if_neg h] at hino
      exact absurd rfl hino
  · cases hino

/-- The cache is filled, and an inode is handed out. -/
theorem reachable_sound_created :
    ∃ s, s.allocated 8 = true ∧ s.sTinode = 5 ∧ Sound 3 (fun _ => false)
      (Ok 3 fun _ => false) s := by
  have hrun : (step 3 (fun _ => false) start (.ialloc 0o100644 [clean])).any fun s =>
      s.allocated 8 && decide (s.sTinode = 5) := by
    decide +kernel
  obtain ⟨s, hs, h⟩ := (Option.any_eq_true _ _).mp hrun
  rw [Bool.and_eq_true, decide_eq_true_eq] at h
  have hok : Ok 3 (fun _ => false) start (.ialloc 0o100644 [clean]) := by
    refine ⟨by decide, ⟨rfl, fun _ _ ino _ hskip => ?_⟩, fun _ _ => trivial⟩
    rcases hskip with hbad | hread
    · cases hbad
    · cases hread
  exact ⟨s, h.1, h.2, reachable_sound ((Reach.init start_initial).step hok hs)⟩

/-- **The count after a failed `iattach`.**  No inode is handed out, six are free, and `s_tinode` is
    five. -/
theorem attach_failed :
    ∃ s, Reach (Initial 3 fun _ => false) (step 3 fun _ => false) (fun _ _ => True) s ∧
      ¬Sound 3 (fun _ => false) (fun _ _ => True) s := by
  have hrun :
      (step 3 (fun _ => false) start (.ialloc 0o100644 [{ clean with attached := false }])).any
      fun s => decide (s.sTinode = 5) && decide (s.freeCount 3 = 6) := by
    decide +kernel
  obtain ⟨s, hs, h⟩ := (Option.any_eq_true _ _).mp hrun
  rw [Bool.and_eq_true, decide_eq_true_eq, decide_eq_true_eq] at h
  refine ⟨s, (Reach.init start_initial).step trivial hs, fun hsound => ?_⟩
  have hcount := hsound.count
  rw [h.1, h.2] at hcount
  exact absurd hcount (by decide)

end CohKernel.Ialloc
