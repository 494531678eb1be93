import CohKernel.Mblk.Defs

namespace CohKernel.Mblk

open CohKernel.Lib

/-!
# The pieces of the message heap

* `Core.free` — a piece that nothing refers to any more is returned;
* `Inv.freeb` — what `freeb` keeps;
* `Inv.step` — what every step keeps.
-/

variable {s s' : State} {p q bp db n : ℕ}

/-! ### Flags -/

theorem flag_or_free (f : BitVec 16) : (f ||| MSGFREE) &&& MSGTRIPLE = f &&& MSGTRIPLE := by
  ext i hi
  simp only [BitVec.getElem_and, BitVec.getElem_or, MSGFREE, MSGTRIPLE]
  interval_cases i <;> simp

theorem free_flag_or_free (f : BitVec 16) : (f ||| MSGFREE) &&& MSGFREE = MSGFREE := by
  ext i hi
  simp only [BitVec.getElem_and, BitVec.getElem_or]
  cases MSGFREE[i] <;> simp

/-- The holder of a block does not write to the system's flags. -/
theorem flag_edit {mask : BitVec 16} (hmask : mask &&& MSGMASK_SYSTEM = mask) (f g : BitVec 16) :
    (f &&& MSGMASK_SYSTEM ||| g &&& ~~~MSGMASK_SYSTEM) &&& mask = f &&& mask := by
  rw [← hmask]
  ext i hi
  simp only [BitVec.getElem_and, BitVec.getElem_or, BitVec.getElem_not]
  cases MSGMASK_SYSTEM[i] <;> simp

/-! ### Blocks and their pieces -/

/-- The number of message blocks that refer to a data block. -/
def State.refs (s : State) (db : ℕ) : ℕ := s.live.countP fun p => decide ((s.msgb p).bDatap = db)

/-- The addresses of the pieces of the heap that are allocated. -/
def State.pieces (s : State) : List ℕ := s.heap.map Prod.fst

/-- The size that `freeb` returns a piece with. -/
def State.pieceSize (s : State) (p : ℕ) : ℕ :=
  if (s.msgb p).IsTriple then
    if s.External (mbToDb p) then msgbSize 0
    else msgbSize ((s.datab (mbToDb p)).dbLim - (s.datab (mbToDb p)).dbBase)
  else SIZEOF_MBLK

/-- The piece is a triple whose data block has an external buffer with this free routine. -/
def State.attached (s : State) (r : ℕ) (b : ℕ × ℕ) : Bool :=
  decide ((s.msgb b.1).IsTriple ∧ s.External (mbToDb b.1) ∧
    (s.datab (mbToDb b.1)).dbFrtnp = some r)

/-- What is true of the blocks also inside of `freeb`. -/
structure Core (s : State) : Prop where
  distinct : s.pieces.Nodup
  nodup : s.live.Nodup
  memory : ∀ p ∈ s.live, p ∈ s.pieces
  data : ∀ p ∈ s.live, ∃ q ∈ s.pieces, (s.msgb p).bDatap = mbToDb q ∧ (s.msgb q).IsTriple
  size : ∀ b ∈ s.heap, b.2 = s.pieceSize b.1
  ref : ∀ q ∈ s.pieces, (s.msgb q).IsTriple →
    (s.datab (mbToDb q)).dbRef = s.refs (mbToDb q) ∧ s.refs (mbToDb q) < 2 ^ 8
  calls : ∀ r, s.given.count r = s.calls.count r + s.heap.countP (s.attached r)
  complaints : s.complaints = 0

/-- Why a piece has not been returned, and what is marked in it. -/
structure Needed (s : State) (p : ℕ) : Prop where
  alone : ¬(s.msgb p).IsTriple → p ∈ s.live
  free : (s.msgb p).IsTriple → ((s.msgb p).IsFree ↔ p ∉ s.live)
  triple : (s.msgb p).IsTriple → p ∈ s.live ∨ 0 < s.refs (mbToDb p)
  external : (s.msgb p).IsTriple → s.External (mbToDb p) → 0 < s.refs (mbToDb p)

/-- What is true between the steps. -/
structure Inv (s : State) : Prop extends Core s where
  needed : ∀ p ∈ s.pieces, Needed s p

theorem mbToDb_inj {p q : ℕ} : mbToDb p = mbToDb q ↔ p = q := by
  unfold mbToDb
  omega

@[simp] theorem dbToMb_mbToDb (p : ℕ) : dbToMb (mbToDb p) = p := by
  unfold dbToMb mbToDb
  omega

theorem mem_pieces : p ∈ s.pieces ↔ ∃ n, (p, n) ∈ s.heap := by
  unfold State.pieces
  simp

theorem refs_pos (hp : p ∈ s.live) : 0 < s.refs (s.msgb p).bDatap :=
  List.countP_pos_iff.mpr ⟨p, hp, decide_eq_true rfl⟩

/-! ### A piece is returned -/

/-- The pieces after one has been returned. -/
theorem mem_erase_pieces (h : s.pieces.Nodup) (hp : (p, n) ∈ s.heap) :
    q ∈ (s.heap.erase (p, n)).map Prod.fst ↔ q ∈ s.pieces ∧ q ≠ p := by
  have hperm : s.pieces.Perm (p :: (s.heap.erase (p, n)).map Prod.fst) :=
    (List.perm_cons_erase hp).map Prod.fst
  have hnodup := hperm.nodup_iff.mp h
  rw [hperm.mem_iff, List.mem_cons]
  constructor
  · intro hq
    exact ⟨Or.inr hq, fun heq => (List.nodup_cons.mp hnodup).1 (heq ▸ hq)⟩
  · rintro ⟨rfl | hq, hne⟩
    · exact absurd rfl hne
    · exact hq

/-- **A piece is returned** that no message block is in and none refers to. -/
theorem Core.free (h : Core s) (hp : (p, n) ∈ s.heap) (hlive : p ∉ s.live)
    (hrefs : (s.msgb p).IsTriple → s.refs (mbToDb p) = 0) {calls : List ℕ}
    (hcalls : ∀ r, calls.count r = s.calls.count r + if s.attached r (p, n) then 1 else 0) :
    Core { s with heap := s.heap.erase (p, n), calls := calls } := by
  have hmem {q : ℕ} : q ∈ (s.heap.erase (p, n)).map Prod.fst ↔ q ∈ s.pieces ∧ q ≠ p :=
    mem_erase_pieces h.distinct hp
  refine ⟨h.distinct.sublist ((List.erase_sublist (a := (p, n))).map Prod.fst), h.nodup,
    fun m hm => hmem.mpr ⟨h.memory m hm, fun heq => hlive (heq ▸ hm)⟩, fun m hm => ?_,
    fun b hb => h.size b (List.mem_of_mem_erase hb), fun q hq => h.ref q (hmem.mp hq).1,
    fun r => ?_, h.complaints⟩
  · obtain ⟨q, hq, hdatap, htriple⟩ := h.data m hm
    refine ⟨q, hmem.mpr ⟨hq, ?_⟩, hdatap, htriple⟩
    rintro rfl
    have hpos : 0 < s.refs (s.msgb m).bDatap := refs_pos hm
    rw [hdatap, hrefs htriple] at hpos
    exact absurd hpos (lt_irrefl 0)
  · have hcount := (List.perm_cons_erase hp).countP_eq (s.attached r)
    rw [List.countP_cons] at hcount
    have := h.calls r
    have := hcalls r
    show s.given.count r = calls.count r + (s.heap.erase (p, n)).countP (s.attached r)
    omega

/-- A message block that stands alone is returned. -/
theorem Core.freeAlone (h : Core s) (hp : p ∈ s.pieces) (hlive : p ∉ s.live)
    (halone : ¬(s.msgb p).IsTriple) :
    ∃ n, (p, n) ∈ s.heap ∧
      s.strmemFree p SIZEOF_MBLK = { s with heap := s.heap.erase (p, n) } ∧
      Core { s with heap := s.heap.erase (p, n) } := by
  obtain ⟨n, hn⟩ := mem_pieces.mp hp
  obtain rfl : n = SIZEOF_MBLK := (h.size _ hn).trans (if_neg halone)
  refine ⟨_, hn, if_pos hn, h.free hn hlive (fun ht => absurd ht halone) fun r => ?_⟩
  have hattached : ¬s.attached r (p, SIZEOF_MBLK) = true := by
    unfold State.attached
    rw [decide_eq_true_eq]
    exact fun hc => halone hc.1
  rw [if_neg hattached]
  rfl

/-- A triple is returned, and the free routine of an external buffer is called. -/
theorem Core.freeTriple (h : Core s) (hp : p ∈ s.pieces) (hlive : p ∉ s.live)
    (htriple : (s.msgb p).IsTriple) (hrefs : s.refs (mbToDb p) = 0) :
    ∃ n calls, (p, n) ∈ s.heap ∧
      s.freeTriple p (mbToDb p) = { s with heap := s.heap.erase (p, n), calls := calls } ∧
      Core { s with heap := s.heap.erase (p, n), calls := calls } := by
  obtain ⟨n, hn⟩ := mem_pieces.mp hp
  have hsize := h.size _ hn
  unfold State.pieceSize at hsize
  rw [if_pos htriple] at hsize
  unfold State.freeTriple
  by_cases hext : s.External (mbToDb p)
  · rw [if_pos hext] at hsize
    obtain rfl : n = msgbSize 0 := hsize
    refine ⟨_, (s.datab (mbToDb p)).dbFrtnp.toList ++ s.calls, hn, ?_,
      h.free hn hlive (fun _ => hrefs) fun r => ?_⟩
    · rw [if_pos hext]
      unfold State.strmemFree
      rw [if_pos hn]
    · have hattached : s.attached r (p, msgbSize 0) =
          decide ((s.datab (mbToDb p)).dbFrtnp = some r) := by
        unfold State.attached
        simp only [htriple, hext, true_and]
      rw [hattached, List.count_append]
      cases (s.datab (mbToDb p)).dbFrtnp with
      | none => simp
      | some f =>
        by_cases hf : f = r
        · simp [hf, Nat.add_comm]
        · simp [hf]
  · rw [if_neg hext] at hsize
    refine ⟨n, s.calls, hn, ?_, h.free hn hlive (fun _ => hrefs) fun r => ?_⟩
    · rw [if_neg hext]
      show s.strmemFree p (msgbSize ((s.datab (mbToDb p)).dbLim - (s.datab (mbToDb p)).dbBase)) = _
      rw [← hsize]
      exact if_pos hn
    · have hattached : ¬s.attached r (p, n) = true := by
        unfold State.attached
        rw [decide_eq_true_eq]
        exact fun hc => hext hc.2.1
      rw [if_neg hattached]
      rfl

/-! ### A reference is dropped -/

theorem refs_drop (hbp : bp ∈ s.live) (db : ℕ) :
    s.refs db = (s.drop bp).refs db + if (s.msgb bp).bDatap = db then 1 else 0 := by
  unfold State.refs
  rw [(List.perm_cons_erase hbp).countP_eq, List.countP_cons]
  simp only [decide_eq_true_eq]
  rfl

@[simp] theorem drop_dbBase : ((s.drop bp).datab db).dbBase = (s.datab db).dbBase := by
  unfold State.drop
  by_cases hdb : db = (s.msgb bp).bDatap
  · simp [hdb]
  · simp [hdb]

@[simp] theorem drop_dbLim : ((s.drop bp).datab db).dbLim = (s.datab db).dbLim := by
  unfold State.drop
  by_cases hdb : db = (s.msgb bp).bDatap
  · simp [hdb]
  · simp [hdb]

@[simp] theorem drop_dbFrtnp : ((s.drop bp).datab db).dbFrtnp = (s.datab db).dbFrtnp := by
  unfold State.drop
  by_cases hdb : db = (s.msgb bp).bDatap
  · simp [hdb]
  · simp [hdb]

theorem drop_external : (s.drop bp).External db ↔ s.External db := by
  unfold State.External
  rw [drop_dbBase]

theorem drop_attached : (s.drop bp).attached = s.attached := by
  funext r b
  unfold State.attached
  simp only [drop_external, drop_dbFrtnp]
  rfl

theorem drop_pieceSize : (s.drop bp).pieceSize p = s.pieceSize p := by
  unfold State.pieceSize
  simp only [drop_external, drop_dbLim, drop_dbBase]
  rfl

/-- **The reference count goes down with the references.** -/
theorem Core.drop (h : Core s) (hbp : bp ∈ s.live) : Core (s.drop bp) := by
  have hlive {p : ℕ} (hp : p ∈ (s.drop bp).live) : p ∈ s.live := List.mem_of_mem_erase hp
  refine ⟨h.distinct, h.nodup.erase bp, fun p hp => h.memory p (hlive hp),
    fun p hp => h.data p (hlive hp), fun b hb => ?_, fun q hq htriple => ?_, fun r => ?_,
    h.complaints⟩
  · rw [drop_pieceSize]
    exact h.size b hb
  · obtain ⟨href, hlt⟩ := h.ref q hq htriple
    have hrefs := refs_drop hbp (mbToDb q)
    unfold State.drop
    by_cases hd : (s.msgb bp).bDatap = mbToDb q
    · rw [if_pos hd] at hrefs
      simp only [hd, Function.update_self]
      show _ = (s.drop bp).refs (mbToDb q) ∧ (s.drop bp).refs (mbToDb q) < 2 ^ 8
      omega
    · rw [if_neg hd] at hrefs
      simp only [Function.update_of_ne (Ne.symm hd)]
      show _ = (s.drop bp).refs (mbToDb q) ∧ (s.drop bp).refs (mbToDb q) < 2 ^ 8
      omega
  · rw [drop_attached]
    exact h.calls r

/-- Another piece, whose data block still has references or never had the one that is dropped. -/
theorem Needed.drop (h : Needed s p) (hbp : bp ∈ s.live) (hne : p ≠ bp)
    (hdb : (s.msgb bp).bDatap ≠ mbToDb p ∨ 0 < (s.drop bp).refs (mbToDb p)) :
    Needed (s.drop bp) p := by
  have hlive : p ∈ (s.drop bp).live ↔ p ∈ s.live := List.mem_erase_of_ne hne
  have hrefs : 0 < s.refs (mbToDb p) → 0 < (s.drop bp).refs (mbToDb p) := by
    intro hpos
    obtain hd | hpos' := hdb
    · have := refs_drop hbp (mbToDb p)
      rw [if_neg hd] at this
      omega
    · exact hpos'
  refine ⟨fun ha => hlive.mpr (h.alone ha), fun ht => ?_, fun ht => ?_, fun ht hext => ?_⟩
  · rw [hlive]
    exact h.free ht
  · rw [hlive]
    exact (h.triple ht).imp_right hrefs
  · exact hrefs (h.external ht (drop_external.mp hext))

/-! ### The message block of a triple is freed -/

theorem setFree_isTriple : ((s.setFree bp).msgb p).IsTriple ↔ (s.msgb p).IsTriple := by
  unfold State.setFree Msgb.IsTriple
  by_cases hp : p = bp
  · simp only [hp, Function.update_self, flag_or_free]
  · simp only [Function.update_of_ne hp]

theorem setFree_bDatap : ((s.setFree bp).msgb p).bDatap = (s.msgb p).bDatap := by
  unfold State.setFree
  by_cases hp : p = bp
  · simp only [hp, Function.update_self]
  · simp only [Function.update_of_ne hp]

theorem setFree_refs : (s.setFree bp).refs db = s.refs db := by
  unfold State.refs
  simp only [setFree_bDatap]
  rfl

theorem Core.setFree (h : Core s) : Core (s.setFree bp) := by
  have hpiece {p : ℕ} : (s.setFree bp).pieceSize p = s.pieceSize p := by
    unfold State.pieceSize
    simp only [setFree_isTriple]
    rfl
  have hattached : (s.setFree bp).attached = s.attached := by
    unfold State.attached
    simp only [setFree_isTriple]
    rfl
  refine ⟨h.distinct, h.nodup, h.memory, fun p hp => ?_, fun b hb => ?_, fun q hq htriple => ?_,
    fun r => ?_, h.complaints⟩
  · obtain ⟨q, hq, hdatap, htriple⟩ := h.data p hp
    exact ⟨q, hq, setFree_bDatap.trans hdatap, setFree_isTriple.mpr htriple⟩
  · rw [hpiece]
    exact h.size b hb
  · rw [setFree_refs]
    exact h.ref q hq (setFree_isTriple.mp htriple)
  · rw [hattached]
    exact h.calls r

/-- Another piece. -/
theorem Needed.setFree (h : Needed s p) (hne : p ≠ bp) : Needed (s.setFree bp) p := by
  have hmsgb : (s.setFree bp).msgb p = s.msgb p := Function.update_of_ne hne _ _
  refine ⟨fun ha => ?_, fun ht => ?_, fun ht => ?_, fun ht hext => ?_⟩
  · exact h.alone (hmsgb ▸ ha)
  · rw [hmsgb]
    exact h.free (hmsgb ▸ ht)
  · rw [setFree_refs]
    exact h.triple (hmsgb ▸ ht)
  · rw [setFree_refs]
    exact h.external (hmsgb ▸ ht) hext

/-- The piece of the message block itself: its data block is still referred to. -/
theorem Needed.setFree_self (htriple : (s.msgb bp).IsTriple) (hlive : bp ∉ s.live)
    (hrefs : 0 < s.refs (mbToDb bp)) : Needed (s.setFree bp) bp := by
  have hfree : ((s.setFree bp).msgb bp).IsFree := by
    unfold Msgb.IsFree State.setFree
    simp only [Function.update_self, free_flag_or_free]
    decide
  refine ⟨fun ha => absurd (setFree_isTriple.mpr htriple) ha, fun _ =>
    ⟨fun _ => hlive, fun _ => hfree⟩,
    fun _ => Or.inr ?_, fun _ _ => ?_⟩ <;>
  · rw [setFree_refs]
    exact hrefs

/-! ### `freeb` -/

/-- A message block can be freed: with the last reference to a data block, a message block of a
    triple is that of the data block, and one that stands alone is freed after the message block of
    the triple, when the buffer is external. -/
def FreeOk (s : State) (bp : ℕ) : Prop :=
  let datap := (s.msgb bp).bDatap
  (s.datab datap).dbRef = 1 →
    if (s.msgb bp).IsTriple then datap = mbToDb bp
    else s.External datap → (s.msgb (dbToMb datap)).IsFree

/-- The pieces that are left are needed. -/
theorem Needed.erase (hdistinct : s.pieces.Nodup) (hp : (p, n) ∈ s.heap) {calls : List ℕ}
    (h : ∀ q ∈ s.pieces, q ≠ p → Needed s q) :
    ∀ q ∈ State.pieces { s with heap := s.heap.erase (p, n), calls := calls },
      Needed { s with heap := s.heap.erase (p, n), calls := calls } q := by
  intro q hq
  obtain ⟨hmem, hne⟩ := (mem_erase_pieces hdistinct hp).mp hq
  have hneeded := h q hmem hne
  exact ⟨hneeded.alone, hneeded.free, hneeded.triple, hneeded.external⟩

/-- **`freeb`** returns the pieces that nothing refers to any more. -/
theorem Inv.freeb (h : Inv s) (hbp : bp ∈ s.live) (hok : FreeOk s bp) : Inv (s.freeb bp) := by
  obtain ⟨q, hq, hdatap, hqtriple⟩ := h.data bp hbp
  have hcore : Core (s.drop bp) := h.toCore.drop hbp
  have hgone : bp ∉ (s.drop bp).live := fun hc => (h.nodup.mem_erase_iff.mp hc).1 rfl
  have hbpiece : bp ∈ (s.drop bp).pieces := h.memory bp hbp
  obtain ⟨href, -⟩ := hcore.ref q hq hqtriple
  have hself {p : ℕ} (hp : p ∈ s.pieces) (hne : p ≠ bp) (hpos : p = q → 0 < (s.drop bp).refs
      (mbToDb q)) : Needed (s.drop bp) p := by
    refine (h.needed p hp).drop hbp hne ?_
    rw [hdatap]
    by_cases hpq : p = q
    · exact Or.inr (hpq ▸ hpos hpq)
    · exact Or.inl fun hc => hpq (mbToDb_inj.mp hc).symm
  unfold State.freeb
  rw [hdatap]
  show Inv (if ((s.drop bp).datab (mbToDb q)).dbRef > 0 then _ else _)
  rw [href]
  by_cases hpos : (s.drop bp).refs (mbToDb q) > 0
  · -- the data block stays
    rw [if_pos hpos]
    by_cases htriple : ((s.drop bp).msgb bp).IsTriple
    · rw [if_neg (not_not.mpr htriple)]
      obtain ⟨hown, -⟩ := hcore.ref bp hbpiece htriple
      rw [hown]
      by_cases hownpos : (s.drop bp).refs (mbToDb bp) > 0
      · rw [if_pos hownpos]
        refine ⟨hcore.setFree, fun p hp => ?_⟩
        by_cases hne : p = bp
        · subst hne
          exact Needed.setFree_self htriple hgone hownpos
        · exact (hself hp hne fun _ => hpos).setFree hne
      · rw [if_neg hownpos]
        obtain ⟨n, calls, hn, heq, hafter⟩ :=
          hcore.freeTriple hbpiece hgone htriple (Nat.eq_zero_of_not_pos hownpos)
        rw [heq]
        exact ⟨hafter, Needed.erase hcore.distinct hn fun p hp hne => hself hp hne fun _ => hpos⟩
    · rw [if_pos htriple]
      obtain ⟨n, hn, heq, hafter⟩ := hcore.freeAlone hbpiece hgone htriple
      rw [heq]
      exact ⟨hafter, Needed.erase hcore.distinct hn fun p hp hne => hself hp hne fun _ => hpos⟩
  · -- this was the last reference
    have hzero : (s.drop bp).refs (mbToDb q) = 0 := Nat.eq_zero_of_not_pos hpos
    have hlast : (s.datab (s.msgb bp).bDatap).dbRef = 1 := by
      have hrefs := refs_drop hbp (mbToDb q)
      rw [if_pos hdatap] at hrefs
      rw [hdatap, (h.ref q hq hqtriple).1]
      omega
    have hlast := hok hlast
    rw [hdatap, dbToMb_mbToDb] at hlast
    rw [if_neg hpos]
    by_cases htriple : ((s.drop bp).msgb bp).IsTriple
    · rw [if_pos (show (s.msgb bp).IsTriple from htriple)] at hlast
      obtain rfl := mbToDb_inj.mp hlast
      rw [if_neg (not_not.mpr htriple)]
      obtain ⟨n, calls, hn, heq, hafter⟩ := hcore.freeTriple hbpiece hgone htriple hzero
      rw [heq]
      exact ⟨hafter, Needed.erase hcore.distinct hn fun p hp hne => hself hp hne (absurd · hne)⟩
    · rw [if_neg (show ¬(s.msgb bp).IsTriple from htriple)] at hlast
      have hneq : q ≠ bp := by
        rintro rfl
        exact htriple hqtriple
      obtain ⟨n, hn, heq, hafter⟩ := hcore.freeAlone hbpiece hgone htriple
      rw [if_pos htriple, dbToMb_mbToDb, heq]
      show Inv (if ¬(s.msgb q).IsFree then _ else _)
      have hfree := (h.needed q hq).free hqtriple
      have hmem : q ∈ (s.drop bp).live ↔ q ∈ s.live := List.mem_erase_of_ne hneq
      by_cases hqfree : (s.msgb q).IsFree
      · -- both parts of the triple are free
        rw [if_neg (not_not.mpr hqfree)]
        have hqpiece := (mem_erase_pieces hcore.distinct hn).mpr ⟨hq, hneq⟩
        obtain ⟨m, calls, hm, heq', hafter'⟩ := hafter.freeTriple hqpiece
          (fun hc => hfree.mp hqfree (hmem.mp hc)) hqtriple hzero
        rw [heq']
        refine ⟨hafter', Needed.erase hafter.distinct hm fun p hp hne => ?_⟩
        obtain ⟨hp, hpbp⟩ := (mem_erase_pieces hcore.distinct hn).mp hp
        have hneeded := hself hp hpbp (absurd · hne)
        exact ⟨hneeded.alone, hneeded.free, hneeded.triple, hneeded.external⟩
      · -- the message block of the triple is in use
        rw [if_pos hqfree]
        have hqlive : q ∈ s.live := by
          by_contra hc
          exact hqfree (hfree.mpr hc)
        refine ⟨hafter, Needed.erase hcore.distinct hn fun p hp hne => ?_⟩
        by_cases hpq : p = q
        · subst hpq
          refine ⟨fun ha => absurd hqtriple ha, fun _ => ?_, fun _ => Or.inl (hmem.mpr hqlive),
            fun _ hext => absurd (hlast (drop_external.mp hext)) hqfree⟩
          rw [hmem]
          exact hfree
        · exact hself hp hne (absurd · hpq)

/-! ### A new message block -/

theorem Core.fresh (h : Core s) (hroom : s.Room p n) (hn : 0 < n) : p ∉ s.pieces := by
  intro hp
  obtain ⟨k, hk⟩ := mem_pieces.mp hp
  have hpos : 0 < s.pieceSize p := by
    unfold State.pieceSize msgbSize SIZEOF_MBLK
    split <;> [split; skip] <;> omega
  have hsize : k = s.pieceSize p := h.size _ hk
  have hdisjoint := hroom _ hk
  dsimp only at hdisjoint
  omega

/-- **A message block is new**, with the data block of its triple or with one more reference to
    another. -/
theorem Inv.add (h : Inv s) {m : Msgb} (hfresh : p ∉ s.pieces) (hheap : s'.heap = (p, n) :: s.heap)
    (hmsgb : s'.msgb = Function.update s.msgb p m) (hlive : s'.live = p :: s.live)
    (hcalls : s'.calls = s.calls) (hcomplaints : s'.complaints = s.complaints)
    (hdata : ∀ q ∈ s.pieces, (s'.datab (mbToDb q)).dbBase = (s.datab (mbToDb q)).dbBase ∧
      (s'.datab (mbToDb q)).dbLim = (s.datab (mbToDb q)).dbLim ∧
      (s'.datab (mbToDb q)).dbFrtnp = (s.datab (mbToDb q)).dbFrtnp ∧
      ((s.msgb q).IsTriple → (s'.datab (mbToDb q)).dbRef =
        (s.datab (mbToDb q)).dbRef + if m.bDatap = mbToDb q then 1 else 0))
    (hroom : ∀ q ∈ s.pieces, m.bDatap = mbToDb q → s.refs (mbToDb q) + 1 < 2 ^ 8)
    (htarget : m.bDatap = mbToDb p ∧ m.IsTriple ∨
      ∃ q ∈ s.pieces, m.bDatap = mbToDb q ∧ (s.msgb q).IsTriple)
    (htriple : m.IsTriple →
      m.bDatap = mbToDb p ∧ (s'.datab (mbToDb p)).dbRef = 1 ∧ ¬m.IsFree)
    (hsize : n = s'.pieceSize p)
    (hgiven : ∀ r, s'.given.count r = s.given.count r + if s'.attached r (p, n) then 1 else 0) :
    Inv s' := by
  have hpieces : s'.pieces = p :: s.pieces := by
    unfold State.pieces
    rw [hheap]
    rfl
  have hplive : p ∉ s.live := fun hp => hfresh (h.memory p hp)
  have hself : s'.msgb p = m := by rw [hmsgb, Function.update_self]
  have hother {q : ℕ} (hq : q ∈ s.pieces) : s'.msgb q = s.msgb q := by
    have hne : q ≠ p := by
      rintro rfl
      exact hfresh hq
    rw [hmsgb, Function.update_of_ne hne]
  have hexternal {q : ℕ} (hq : q ∈ s.pieces) : s'.External (mbToDb q) ↔ s.External (mbToDb q) := by
    unfold State.External
    rw [(hdata q hq).1]
  have hrefs (db : ℕ) : s'.refs db = s.refs db + if m.bDatap = db then 1 else 0 := by
    unfold State.refs
    rw [hlive, List.countP_cons, hself]
    simp only [decide_eq_true_eq]
    congr 1
    refine List.countP_congr fun q hq => ?_
    rw [hother (h.memory q hq)]
  have hzero (q : ℕ) (hq : q ∉ s.pieces) : s.refs (mbToDb q) = 0 := by
    refine List.countP_eq_zero.mpr fun l hl hc => ?_
    obtain ⟨q', hq', hdatap, -⟩ := h.data l hl
    rw [decide_eq_true_eq, hdatap] at hc
    exact hq (mbToDb_inj.mp hc ▸ hq')
  have hmem {q : ℕ} (hq : q ∈ s.pieces) : q ∈ s'.live ↔ q ∈ s.live := by
    rw [hlive, List.mem_cons]
    refine or_iff_right ?_
    rintro rfl
    exact hfresh hq
  refine ⟨⟨?_, ?_, fun l hl => ?_, fun l hl => ?_, fun b hb => ?_, fun q hq ht => ?_, fun r => ?_,
    hcomplaints.trans h.complaints⟩, fun q hq => ?_⟩
  · rw [hpieces]
    exact List.nodup_cons.mpr ⟨hfresh, h.distinct⟩
  · rw [hlive]
    exact List.nodup_cons.mpr ⟨hplive, h.nodup⟩
  · rw [hlive] at hl
    rw [hpieces]
    obtain rfl | hl := List.mem_cons.mp hl
    · exact List.mem_cons_self
    · exact List.mem_cons_of_mem p (h.memory l hl)
  · rw [hlive] at hl
    rw [hpieces]
    obtain rfl | hl := List.mem_cons.mp hl
    · rw [hself]
      obtain ⟨hown, ht⟩ | ⟨q, hq, hdatap, ht⟩ := htarget
      · exact ⟨l, List.mem_cons_self, hown, hself.symm ▸ ht⟩
      · exact ⟨q, List.mem_cons_of_mem l hq, hdatap, (hother hq).symm ▸ ht⟩
    · obtain ⟨q, hq, hdatap, ht⟩ := h.data l hl
      rw [hother (h.memory l hl)]
      exact ⟨q, List.mem_cons_of_mem p hq, hdatap, (hother hq).symm ▸ ht⟩
  · rw [hheap] at hb
    obtain rfl | hb := List.mem_cons.mp hb
    · exact hsize
    · have hq : b.1 ∈ s.pieces := List.mem_map_of_mem hb
      obtain ⟨hbase, hlim, -, -⟩ := hdata b.1 hq
      rw [h.size b hb]
      unfold State.pieceSize
      simp only [hother hq, hexternal hq, hbase, hlim]
  · rw [hpieces] at hq
    rw [hrefs]
    obtain rfl | hq := List.mem_cons.mp hq
    · rw [hself] at ht
      obtain ⟨hown, href, -⟩ := htriple ht
      rw [hown, if_pos rfl, href, hzero q hfresh]
      decide
    · rw [hother hq] at ht
      obtain ⟨href, hlt⟩ := h.ref q hq ht
      rw [(hdata q hq).2.2.2 ht, href]
      refine ⟨rfl, ?_⟩
      by_cases hd : m.bDatap = mbToDb q
      · rw [if_pos hd]
        exact hroom q hq hd
      · rw [if_neg hd]
        exact hlt
  · rw [hgiven r, h.calls r, hcalls, hheap, List.countP_cons]
    have hcount : s.heap.countP (s'.attached r) = s.heap.countP (s.attached r) := by
      refine List.countP_congr fun b hb => ?_
      have hq : b.1 ∈ s.pieces := List.mem_map_of_mem hb
      unfold State.attached
      simp only [hother hq, hexternal hq, (hdata b.1 hq).2.2.1]
    omega
  · rw [hpieces] at hq
    obtain rfl | hq := List.mem_cons.mp hq
    · have hqlive : q ∈ s'.live := hlive ▸ List.mem_cons_self
      refine ⟨fun _ => hqlive, fun ht => ?_, fun _ => Or.inl hqlive, fun ht _ => ?_⟩
      · rw [hself] at ht ⊢
        exact ⟨fun hf => absurd hf (htriple ht).2.2, fun hn => absurd hqlive hn⟩
      · rw [hself] at ht
        rw [hrefs, (htriple ht).1, if_pos rfl]
        omega
    · have hneeded := h.needed q hq
      have hle : s.refs (mbToDb q) ≤ s'.refs (mbToDb q) := by
        rw [hrefs]
        omega
      refine ⟨fun ha => ?_, fun ht => ?_, fun ht => ?_, fun ht hext => ?_⟩
      · exact (hmem hq).mpr (hneeded.alone (hother hq ▸ ha))
      · rw [hother hq] at ht ⊢
        rw [hmem hq]
        exact hneeded.free ht
      · rw [hother hq] at ht
        rw [hmem hq]
        exact (hneeded.triple ht).imp_right (lt_of_lt_of_le · hle)
      · rw [hother hq] at ht
        exact lt_of_lt_of_le (hneeded.external ht ((hexternal hq).mp hext)) hle

theorem Inv.newTriple (h : Inv s) {rptr size : ℕ} {frtnp : Option ℕ} {d : Datab}
    (hroom : s.Room p (msgbSize size)) (href : d.dbRef = 1) (hfrtn : d.dbFrtnp = frtnp)
    (hbuffer : d.dbBase ≠ dbToData (mbToDb p) ∧ size = 0 ∨
      d.dbBase = dbToData (mbToDb p) ∧ d.dbLim - d.dbBase = size ∧ frtnp = none) :
    Inv (s.newTriple p rptr size frtnp d) := by
  have hfresh : p ∉ s.pieces := h.fresh hroom (by unfold msgbSize SIZEOF_MBLK; omega)
  have hexternal : (s.newTriple p rptr size frtnp d).External (mbToDb p) ↔
      d.dbBase ≠ dbToData (mbToDb p) := by
    unfold State.External State.newTriple
    simp only [Function.update_self]
  have hdata : (s.newTriple p rptr size frtnp d).datab (mbToDb p) = d := Function.update_self _ _ _
  have htriple : ((s.newTriple p rptr size frtnp d).msgb p).IsTriple := by
    unfold State.newTriple
    simp only [Function.update_self]
    show MSGTRIPLE &&& MSGTRIPLE ≠ 0
    decide
  refine h.add hfresh rfl rfl rfl rfl rfl (fun q hq => ?_) (fun q hq hd => ?_)
    (Or.inl ⟨rfl, by show MSGTRIPLE &&& MSGTRIPLE ≠ 0; decide⟩) (fun _ => ⟨rfl, ?_, ?_⟩) ?_
    fun r => ?_
  · have hne : mbToDb q ≠ mbToDb p := fun hc => hfresh (mbToDb_inj.mp hc ▸ hq)
    unfold State.newTriple
    simp only [Function.update_of_ne hne, Ne.symm hne, if_false, Nat.add_zero, implies_true,
      and_self]
  · exact absurd (mbToDb_inj.mp hd ▸ hq) hfresh
  · rw [hdata, href]
  · show ¬(MSGTRIPLE &&& MSGFREE ≠ 0)
    decide
  · unfold State.pieceSize
    rw [if_pos htriple]
    simp only [hexternal]
    obtain ⟨hbase, rfl⟩ | ⟨hbase, hlen, -⟩ := hbuffer
    · rw [if_pos hbase]
    · rw [if_neg (not_not.mpr hbase), hdata, hlen]
  · show (frtnp.toList ++ s.given).count r = _
    rw [List.count_append, Nat.add_comm]
    congr 1
    unfold State.attached
    simp only [hexternal, htriple, hdata, hfrtn, true_and, decide_eq_true_eq]
    obtain ⟨hbase, -⟩ | ⟨hbase, -, rfl⟩ := hbuffer
    · cases frtnp with
      | none => simp
      | some f => simp [hbase, List.count_singleton]
    · simp

theorem Inv.dupb (h : Inv s) {flag : BitVec 16} (hbp : bp ∈ s.live) (hroom : s.Room p SIZEOF_MBLK)
    (hflag : flag &&& MSGTRIPLE = 0) (href : (s.datab (s.msgb bp).bDatap).dbRef + 1 < 2 ^ 8) :
    Inv (s.dupb bp p flag) := by
  have hfresh : p ∉ s.pieces := h.fresh hroom (by decide)
  obtain ⟨q, hq, hdatap, htriple⟩ := h.data bp hbp
  have halone : ¬((s.dupb bp p flag).msgb p).IsTriple := by
    unfold State.dupb Msgb.IsTriple
    simp only [Function.update_self]
    exact not_not.mpr hflag
  refine h.add hfresh rfl rfl rfl rfl rfl (fun q' _ => ?_) (fun q' hq' hd => ?_)
    (Or.inr ⟨q, hq, hdatap, htriple⟩) (fun ht => absurd hflag ht) ?_ fun r => ?_
  · unfold State.dupb
    by_cases hd : (s.msgb bp).bDatap = mbToDb q'
    · simp only [hd, Function.update_self, if_true, true_and]
      intro _
      rw [hd] at href
      exact Nat.mod_eq_of_lt href
    · simp only [Function.update_of_ne (Ne.symm hd), hd, if_false, Nat.add_zero, implies_true,
        and_self]
  · have hqq : q' = q := mbToDb_inj.mp (hd.symm.trans hdatap)
    subst hqq
    rw [hdatap, (h.ref q' hq htriple).1] at href
    exact href
  · unfold State.pieceSize
    rw [if_neg halone]
  · have hattached : ¬(s.dupb bp p flag).attached r (p, SIZEOF_MBLK) = true := by
      unfold State.attached
      rw [decide_eq_true_eq]
      exact fun hc => halone hc.1
    rw [if_neg hattached]
    rfl

/-! ### Writing to blocks -/

/-- The blocks keep what matters here; message blocks may refer to other data blocks, when each of
    these has as many references as before. -/
theorem Inv.same (h : Inv s) (hheap : s'.heap = s.heap) (hlive : s'.live = s.live)
    (hgiven : s'.given = s.given) (hcalls : s'.calls = s.calls)
    (hcomplaints : s'.complaints = s.complaints)
    (htriple : ∀ p, (s'.msgb p).IsTriple ↔ (s.msgb p).IsTriple)
    (hfree : ∀ p, (s'.msgb p).IsFree ↔ (s.msgb p).IsFree) (hrefs : ∀ db, s'.refs db = s.refs db)
    (hdatap : ∀ p ∈ s.live, ∃ m ∈ s.live, (s'.msgb p).bDatap = (s.msgb m).bDatap)
    (hdata : ∀ db, (s'.datab db).dbBase = (s.datab db).dbBase ∧
      (s'.datab db).dbLim = (s.datab db).dbLim ∧ (s'.datab db).dbFrtnp = (s.datab db).dbFrtnp ∧
      (s'.datab db).dbRef = (s.datab db).dbRef) : Inv s' := by
  have hpieces : s'.pieces = s.pieces := by
    unfold State.pieces
    rw [hheap]
  have hexternal (db : ℕ) : s'.External db ↔ s.External db := by
    unfold State.External
    rw [(hdata db).1]
  refine ⟨⟨?_, ?_, fun p hp => ?_, fun p hp => ?_, fun b hb => ?_, fun q hq ht => ?_, fun r => ?_,
    hcomplaints.trans h.complaints⟩, fun q hq => ?_⟩
  · rw [hpieces]
    exact h.distinct
  · rw [hlive]
    exact h.nodup
  · rw [hpieces]
    exact h.memory p (hlive ▸ hp)
  · obtain ⟨m, hm, heq⟩ := hdatap p (hlive ▸ hp)
    obtain ⟨q, hq, hd, ht⟩ := h.data m hm
    rw [hpieces]
    exact ⟨q, hq, heq.trans hd, (htriple q).mpr ht⟩
  · rw [hheap] at hb
    rw [h.size b hb]
    unfold State.pieceSize
    simp only [htriple, hexternal, (hdata (mbToDb b.1)).1, (hdata (mbToDb b.1)).2.1]
  · rw [hrefs, (hdata _).2.2.2]
    exact h.ref q (hpieces ▸ hq) ((htriple q).mp ht)
  · have hattached : s'.attached r = s.attached r := by
      funext b
      unfold State.attached
      simp only [htriple, hexternal, (hdata _).2.2.1]
    rw [hgiven, hcalls, hheap, hattached]
    exact h.calls r
  · have hneeded := h.needed q (hpieces ▸ hq)
    refine ⟨fun ha => ?_, fun ht => ?_, fun ht => ?_, fun ht hext => ?_⟩
    · rw [htriple] at ha
      exact hlive ▸ hneeded.alone ha
    · rw [htriple] at ht
      rw [hfree, hlive]
      exact hneeded.free ht
    · rw [htriple] at ht
      rw [hlive, hrefs]
      exact hneeded.triple ht
    · rw [htriple] at ht
      rw [hrefs]
      exact hneeded.external ht ((hexternal _).mp hext)

theorem Inv.edit (h : Inv s) {rptr wptr type : ℕ} {cont : Option ℕ} {flag : BitVec 16} :
    Inv (s.edit bp rptr wptr cont flag type) := by
  have hdatap (p : ℕ) :
      ((s.edit bp rptr wptr cont flag type).msgb p).bDatap = (s.msgb p).bDatap := by
    unfold State.edit
    by_cases hp : p = bp
    · simp only [hp, Function.update_self]
    · simp only [Function.update_of_ne hp]
  have hflag (mask : BitVec 16) (hmask : mask &&& MSGMASK_SYSTEM = mask) (p : ℕ) :
      ((s.edit bp rptr wptr cont flag type).msgb p).bFlag &&& mask = (s.msgb p).bFlag &&& mask := by
    unfold State.edit
    by_cases hp : p = bp
    · simp only [hp, Function.update_self, flag_edit hmask]
    · simp only [Function.update_of_ne hp]
  refine h.same rfl rfl rfl rfl rfl (fun p => ?_) (fun p => ?_) (fun db => ?_)
    (fun p hp => ⟨p, hp, hdatap p⟩) fun db => ?_
  · unfold Msgb.IsTriple
    rw [hflag MSGTRIPLE (by decide)]
  · unfold Msgb.IsFree
    rw [hflag MSGFREE (by decide)]
  · unfold State.refs
    simp only [hdatap]
    rfl
  · unfold State.edit
    by_cases hd : db = (s.msgb bp).bDatap
    · simp only [hd, Function.update_self, and_self]
    · simp only [Function.update_of_ne hd, and_self]

/-- Two message blocks exchange their data blocks. -/
theorem Inv.exchange (h : Inv s) {mp newmsg : ℕ} (hmp : mp ∈ s.live) (hnew : newmsg ∈ s.live) :
    Inv (s.exchange mp newmsg) := by
  have hswap (p : ℕ) : ((s.exchange mp newmsg).msgb p).bDatap =
      (s.msgb (Equiv.swap mp newmsg p)).bDatap := by
    unfold State.exchange
    by_cases hp : p = mp
    · simp only [hp, Function.update_self, Equiv.swap_apply_left]
    · by_cases hp' : p = newmsg
      · subst hp'
        simp only [Function.update_of_ne hp, Function.update_self, Equiv.swap_apply_right]
      · simp only [Function.update_of_ne hp, Function.update_of_ne hp',
          Equiv.swap_apply_of_ne_of_ne hp hp']
  have hmem (p : ℕ) : Equiv.swap mp newmsg p ∈ s.live ↔ p ∈ s.live := by
    rw [Equiv.swap_apply_def]
    split
    case isTrue heq => simp only [heq, hmp, hnew]
    case isFalse =>
      split
      case isTrue heq => simp only [heq, hmp, hnew]
      case isFalse => exact Iff.rfl
  have hflag (p : ℕ) : ((s.exchange mp newmsg).msgb p).bFlag = (s.msgb p).bFlag := by
    unfold State.exchange
    by_cases hp : p = mp
    · simp only [hp, Function.update_self]
    · by_cases hp' : p = newmsg
      · subst hp'
        simp only [Function.update_of_ne hp, Function.update_self]
      · simp only [Function.update_of_ne hp, Function.update_of_ne hp']
  refine h.same rfl rfl rfl rfl rfl (fun p => ?_) (fun p => ?_) (fun db => ?_)
    (fun p hp => ⟨_, (hmem p).mpr hp, hswap p⟩) fun db => ⟨rfl, rfl, rfl, rfl⟩
  · unfold Msgb.IsTriple
    rw [hflag]
  · unfold Msgb.IsFree
    rw [hflag]
  · have hperm : (s.live.map (Equiv.swap mp newmsg)).Perm s.live := by
      refine (List.perm_ext_iff_of_nodup
        (h.nodup.map (Equiv.swap mp newmsg).injective) h.nodup).mpr fun p => ?_
      rw [List.mem_map]
      constructor
      · rintro ⟨p', hp', rfl⟩
        exact (hmem p').mpr hp'
      · intro hp
        exact ⟨_, (hmem p).mpr hp, Equiv.swap_apply_self mp newmsg p⟩
    unfold State.refs
    simp only [hswap]
    rw [← hperm.countP_eq fun p => decide ((s.msgb p).bDatap = db), List.countP_map]
    rfl

/-! ### Every step -/

/-- The steps that do what the blocks are made for: an external buffer does not start where the
    buffer of its triple would, the memory of a message block that `dupb` makes does not look like a
    triple, the reference count has room, a message block is freed with its own data block, and no
    bytes are written behind a buffer. -/
def Ok (s : State) : Event → Prop
  | .esballoc base _ _ p => base ≠ dbToData (mbToDb p)
  | .dupb bp _ flag => flag &&& MSGTRIPLE = 0 ∧ (s.datab (s.msgb bp).bDatap).dbRef + 1 < 2 ^ 8
  | .freeb bp => FreeOk s bp
  | .edit bp _ wptr _ _ _ => wptr ≤ (s.datab (s.msgb bp).bDatap).dbLim
  | _ => True

/-- **Every step** keeps the invariant. -/
theorem Inv.step {e : Event} (h : Inv s) (hok : Ok s e) (hs : step s e = some s') : Inv s' := by
  cases e with
  | msgbAlloc size p =>
    obtain ⟨hroom, ⟨⟩⟩ := Option.ite_none_right_eq_some.mp hs
    exact h.newTriple hroom rfl rfl (Or.inr ⟨rfl, Nat.add_sub_cancel_left _ _, rfl⟩)
  | esballoc base size frRtnp p =>
    obtain ⟨hroom, ⟨⟩⟩ := Option.ite_none_right_eq_some.mp hs
    exact h.newTriple hroom rfl rfl (Or.inl ⟨hok, rfl⟩)
  | dupb bp p flag =>
    obtain ⟨⟨hbp, hroom⟩, ⟨⟩⟩ := Option.ite_none_right_eq_some.mp hs
    exact h.dupb hbp hroom hok.1 hok.2
  | freeb bp =>
    obtain ⟨hbp, ⟨⟩⟩ := Option.ite_none_right_eq_some.mp hs
    exact h.freeb hbp hok
  | edit bp rptr wptr cont flag type =>
    obtain ⟨-, ⟨⟩⟩ := Option.ite_none_right_eq_some.mp hs
    exact h.edit
  | exchange mp newmsg =>
    obtain ⟨⟨hmp, hnew⟩, ⟨⟩⟩ := Option.ite_none_right_eq_some.mp hs
    exact h.exchange hmp hnew

end CohKernel.Mblk
