import CohKernel.Fs.FreeList
import CohKernel.Fs.Inode

namespace CohKernel.Fs

open CohKernel.Lib

/-!
# How the files are laid out

* `Laid` — no block is on two paths, and none that is on a path is free;
* `Laid.attach` — the files stay apart;
* `Attached.fileByte` — the contents of the files do not change.
-/

variable {ι : Type*} {files files' : ι → Inode} {s s' : Fs} {blocks blocks' : ℕ → Bytes}
  {f g : ι} {p q : List ℕ} {b i j l : ℕ} {L L' : List ℕ} {blk : Bytes}

/-! ### Paths -/

theorem Path.ne_nil (h : Path p) : p ≠ [] := by
  rintro rfl
  exact absurd h.length.1 (by decide)

theorem headD_append (hq : q ≠ []) (p : List ℕ) : (q ++ p).headD 0 = q.headD 0 := by
  cases q with
  | nil => exact absurd rfl hq
  | cons i q => rfl

/-- The way to a block on a path. -/
theorem Path.of_append (h : Path (q ++ p)) (hq : q ≠ []) : Path q := by
  obtain ⟨⟨-, hlen⟩, hroot, htail⟩ := h
  rw [headD_append hq, List.length_append] at hlen
  rw [headD_append hq] at hroot
  refine ⟨⟨List.length_pos_iff.mpr hq, by omega⟩, hroot, fun i hi => htail i ?_⟩
  rw [List.tail_append_of_ne_nil hq]
  exact List.mem_append_left _ hi

theorem Path.length_lt (h : Path (q ++ [j])) (hq : q ≠ []) : q.length < depth (q.headD 0) := by
  have hlen := h.length.2
  rw [headD_append hq, List.length_append, List.length_singleton] at hlen
  omega

/-- One step more on a path. -/
theorem look_concat {table : ℕ → ℕ} (hq : q ≠ []) (j : ℕ) : look blocks table (q ++ [j]) =
    if look blocks table q = 0 then 0 else dp (blocks (look blocks table q)) j := by
  rw [look_append hq]
  rfl

/-- An address in an indirect block. -/
theorem dp_setLong (hb : b < 2 ^ 32) (blk : Bytes) (l j : ℕ) :
    dp (blk.setLong (4 * l) (rol16 b)) j = if j = l then b else dp blk j := by
  unfold dp
  split_ifs with hj
  · rw [hj, long_setLong (rol16_lt b), rol16_rol16 hb]
  · rw [long_setLong_of_ne (by omega)]

/-- A cleared block has no addresses. -/
theorem dp_clear (j : ℕ) : dp (fun _ => 0) j = 0 := by
  simp [dp, Bytes.long, Bytes.word, rol16]

/-! ### Files that are apart -/

/-- No block is on two paths. -/
def Distinct (blocks : ℕ → Bytes) (files : ι → Inode) : Prop :=
  ∀ f p g q, Path p → Path q → look blocks (files f).iAddr p ≠ 0 →
    look blocks (files f).iAddr p = look blocks (files g).iAddr q → f = g ∧ p = q

/-- The blocks `L` are on the free list, and those of the files are apart from them and from each
    other. -/
structure Laid (s : Fs) (files : ι → Inode) (L : List ℕ) : Prop where
  listed : Listed s L
  inside : ∀ f p, Path p → look s.blocks (files f).iAddr p ≠ 0 →
    s.super.inside (look s.blocks (files f).iAddr p)
  free : ∀ f p, Path p → look s.blocks (files f).iAddr p ∉ L
  distinct : Distinct s.blocks files

theorem SameLimits.trans {t u : Fs} (h : SameLimits s t) (h' : SameLimits t u) : SameLimits s u :=
  ⟨h'.isize.trans h.isize, h'.fsize.trans h.fsize⟩

/-- Store the contents of a block. -/
def Fs.setBlock (s : Fs) (b : ℕ) (blk : Bytes) : Fs :=
  { s with blocks := Function.update s.blocks b blk }

@[simp] theorem setBlock_blocks : (s.setBlock b blk).blocks = Function.update s.blocks b blk := rfl
theorem SameLimits.setBlock (h : SameLimits s s') (b : ℕ) (blk : Bytes) :
    SameLimits s (s'.setBlock b blk) := ⟨h.isize, h.fsize⟩

/-- What is not on the list can be changed. -/
theorem Listed.setBlock (h : Listed s L) (hb : b ∉ L) (blk : Bytes) :
    Listed (s.setBlock b blk) L := by
  obtain ⟨n, hn, hchain⟩ := h.chain
  exact ⟨⟨n, hn, hchain.frame hb blk⟩, h.nodup, h.inside, h.isize, h.gate⟩

/-- A block that is on a path may be changed when it has no addresses. -/
theorem look_setBlock (hdata : ∀ q j, Path (q ++ [j]) → q ≠ [] →
      look blocks (files g).iAddr q ≠ b) (hp : Path p) :
    look (Function.update blocks b blk) (files g).iAddr p = look blocks (files g).iAddr p := by
  induction p using List.reverseRecOn with
  | nil => exact absurd rfl hp.ne_nil
  | append_singleton q j ih =>
    by_cases hq : q = []
    · subst hq
      rfl
    rw [look_concat hq, look_concat hq, ih (hp.of_append hq),
      Function.update_of_ne (hdata q j hp hq)]

/-! ### Attaching a block -/

section attach

variable [DecidableEq ι]

/-- The block `b` has been attached at the path `p` of the file `f`. -/
structure Attached (blocks blocks' : ℕ → Bytes) (files files' : ι → Inode) (f : ι) (p : List ℕ)
    (b : ℕ) : Prop where
  here : look blocks' (files' f).iAddr p = b
  there : ∀ g q, Path q → ¬(g = f ∧ q = p) →
    look blocks' (files' g).iAddr q = look blocks (files g).iAddr q
  data : ∀ g q, Path q → q.length = depth (q.headD 0) → look blocks (files g).iAddr q ≠ 0 →
    blocks' (look blocks (files g).iAddr q) = blocks (look blocks (files g).iAddr q)

/-- A free block is attached to an inode. -/
theorem attached_root (hfresh : ∀ g q, Path q → look blocks (files g).iAddr q ≠ b)
    (hb : b ≠ 0) (hl : (files f).iAddr l = 0) (hnew : 1 < depth l → ∀ j, dp blk j = 0) :
    Attached blocks (Function.update blocks b blk) files
      (Function.update files f { files f with iAddr := Function.update (files f).iAddr l b }) f [l]
      b := by
  have hhere : ∀ blocks' : ℕ → Bytes, look blocks' (Function.update files f
      { files f with iAddr := Function.update (files f).iAddr l b } f).iAddr [l] = b := by
    intro blocks'
    rw [Function.update_self]
    exact Function.update_self l b (files f).iAddr
  refine ⟨hhere _, fun g q hq hne => ?_, fun g q hq _ _ =>
    Function.update_of_ne (hfresh g q hq) blk blocks⟩
  induction q using List.reverseRecOn with
  | nil => exact absurd rfl hq.ne_nil
  | append_singleton q j ih =>
    by_cases hnil : q = []
    · subst hnil
      change (Function.update files f _ g).iAddr j = (files g).iAddr j
      by_cases hg : g = f
      · subst hg
        rw [Function.update_self]
        have hj : j ≠ l := by
          rintro rfl
          exact hne ⟨rfl, rfl⟩
        exact Function.update_of_ne hj _ _
      · rw [Function.update_of_ne hg]
    rw [look_concat hnil, look_concat hnil]
    by_cases hroot : g = f ∧ q = [l]
    · obtain ⟨rfl, rfl⟩ := hroot
      rw [hhere, if_neg hb, Function.update_self, hnew (hq.length_lt hnil),
        show look blocks (files g).iAddr [l] = 0 from hl, if_pos rfl]
    · rw [ih (hq.of_append hnil) hroot, Function.update_of_ne (hfresh g q (hq.of_append hnil))]

/-- A free block is attached to an indirect block. -/
theorem attached_child (hdist : Distinct blocks files) (hpl : Path (p ++ [l])) (hp : p ≠ [])
    (hpar : look blocks (files f).iAddr p ≠ 0)
    (hfresh : ∀ g q, Path q → look blocks (files g).iAddr q ≠ b) (hb : b ≠ 0) (hlt : b < 2 ^ 32)
    (hl : dp (blocks (look blocks (files f).iAddr p)) l = 0)
    (hnew : p.length + 1 < depth (p.headD 0) → ∀ j, dp blk j = 0) :
    Attached blocks (Function.update (Function.update blocks (look blocks (files f).iAddr p)
        ((blocks (look blocks (files f).iAddr p)).setLong (4 * l) (rol16 b))) b blk) files files f
      (p ++ [l]) b := by
  generalize hparent : look blocks (files f).iAddr p = parent at *
  have hpath := hpl.of_append hp
  have hpb : parent ≠ b := hparent ▸ hfresh f p hpath
  -- what a block has for addresses when the path to it is known
  have hchild : ∀ g q, Path q → look blocks (files g).iAddr q ≠ 0 → ∀ j,
      dp (Function.update (Function.update blocks parent
        ((blocks parent).setLong (4 * l) (rol16 b))) b blk (look blocks (files g).iAddr q)) j =
      if (g = f ∧ q = p) ∧ j = l then b else dp (blocks (look blocks (files g).iAddr q)) j := by
    intro g q hq h0 j
    rw [Function.update_of_ne (hfresh g q hq)]
    by_cases heq : g = f ∧ q = p
    · obtain ⟨rfl, rfl⟩ := heq
      rw [hparent, Function.update_self, dp_setLong hlt]
      simp only [true_and, and_self]
    · rw [Function.update_of_ne fun hc => heq (hdist g q f p hq hpath h0 (hc.trans hparent.symm)),
        if_neg fun hc => heq hc.1]
  have hlook : ∀ g q, Path q → look (Function.update (Function.update blocks parent
        ((blocks parent).setLong (4 * l) (rol16 b))) b blk) (files g).iAddr q =
      if g = f ∧ q = p ++ [l] then b else look blocks (files g).iAddr q := by
    intro g q hq
    induction q using List.reverseRecOn with
    | nil => exact absurd rfl hq.ne_nil
    | append_singleton q j ih =>
      by_cases hnil : q = []
      · subst hnil
        rw [if_neg]
        · rfl
        · rintro ⟨-, hc⟩
          cases p with
          | nil => exact hp rfl
          | cons i p => cases p <;> cases hc
      rw [look_concat hnil, look_concat hnil, ih (hq.of_append hnil)]
      by_cases hnewp : g = f ∧ q = p ++ [l]
      · obtain ⟨rfl, rfl⟩ := hnewp
        have hlen := hq.length_lt hnil
        rw [headD_append hp, List.length_append, List.length_singleton] at hlen
        have hlonger : ¬(g = g ∧ p ++ [l] ++ [j] = p ++ [l]) := by simp
        rw [if_neg hlonger]
        simp only [and_self, if_true]
        rw [if_neg hb, Function.update_self, hnew hlen, look_concat hp, hparent, if_neg hpar, hl,
          if_pos rfl]
      rw [if_neg hnewp]
      by_cases h0 : look blocks (files g).iAddr q = 0
      · have hother : ¬(g = f ∧ q ++ [j] = p ++ [l]) := by
          rintro ⟨rfl, hc⟩
          obtain ⟨rfl, -⟩ := List.append_inj' hc rfl
          exact hpar (hparent ▸ h0)
        rw [if_neg hother, if_pos h0, if_pos h0]
      · have hiff : ((g = f ∧ q = p) ∧ j = l) ↔ g = f ∧ q ++ [j] = p ++ [l] := by
          constructor
          · rintro ⟨⟨rfl, rfl⟩, rfl⟩
            exact ⟨rfl, rfl⟩
          · rintro ⟨rfl, hc⟩
            obtain ⟨rfl, hj⟩ := List.append_inj' hc rfl
            exact ⟨⟨rfl, rfl⟩, by simpa using hj⟩
        rw [if_neg h0, if_neg h0, hchild g q (hq.of_append hnil) h0]
        simp only [hiff]
  refine ⟨by rw [hlook f _ hpl, if_pos ⟨rfl, rfl⟩], fun g q hq hne => by rw
    [hlook g q hq, if_neg hne],
    fun g q hq hfull h0 => ?_⟩
  -- an indirect block is no data block
  rw [Function.update_of_ne (hfresh g q hq), Function.update_of_ne]
  intro hc
  obtain ⟨rfl, rfl⟩ := hdist g q f p hq hpath h0 (hc.trans hparent.symm)
  exact absurd hfull (hpl.length_lt hp).ne

end attach

/-- **Attaching a block** keeps the files apart. -/
theorem Laid.attach (h : Laid s files (b :: L)) (hl : Listed s' L) (hlim : SameLimits s s')
    (hatt : Attached s.blocks s'.blocks files files' f p b) : Laid s' files' L := by
  have hinside := h.listed.inside b List.mem_cons_self
  have hnot : b ∉ L := (List.nodup_cons.mp h.listed.nodup).1
  -- a path of the new layout leads to the new block or to where it led before
  have hcases : ∀ g q, Path q → g = f ∧ q = p ∧ look s'.blocks (files' g).iAddr q = b ∨
      ¬(g = f ∧ q = p) ∧
        look s'.blocks (files' g).iAddr q = look s.blocks (files g).iAddr q := by
    intro g q hq
    by_cases heq : g = f ∧ q = p
    · obtain ⟨rfl, rfl⟩ := heq
      exact Or.inl ⟨rfl, rfl, hatt.here⟩
    · exact Or.inr ⟨heq, hatt.there g q hq heq⟩
  have hold : ∀ g q, Path q → look s.blocks (files g).iAddr q ≠ b :=
    fun g q hq hc => h.free g q hq (hc ▸ List.mem_cons_self)
  refine ⟨hl, fun g q hq h0 => ?_, fun g q hq => ?_, fun g q g' q' hq hq' h0 heq => ?_⟩
  · rw [hlim.inside]
    rcases hcases g q hq with ⟨-, -, hb⟩ | ⟨-, hb⟩
    · rw [hb]
      exact hinside
    · rw [hb] at h0 ⊢
      exact h.inside g q hq h0
  · rcases hcases g q hq with ⟨-, -, hb⟩ | ⟨-, hb⟩
    · rw [hb]
      exact hnot
    · rw [hb]
      exact fun hc => h.free g q hq (List.mem_cons_of_mem b hc)
  · rcases hcases g q hq with ⟨rfl, rfl, hb⟩ | ⟨-, hb⟩ <;>
      rcases hcases g' q' hq' with ⟨rfl, rfl, hb'⟩ | ⟨-, hb'⟩
    · exact ⟨rfl, rfl⟩
    · rw [hb, hb'] at heq
      exact absurd heq.symm (hold g' q' hq')
    · rw [hb, hb'] at heq
      exact absurd heq (hold g q hq)
    · rw [hb, hb'] at heq
      rw [hb] at h0
      exact h.distinct g q g' q' hq hq' h0 heq

/-- A byte whose block is not the new one. -/
theorem Attached.fileByte (h : Attached blocks blocks' files files' f p b)
    (h0 : look blocks (files f).iAddr p = 0) {k : ℕ}
    (hk : g = f → blockPath (k / BSIZE) = some p → blocks' b (k % BSIZE) = 0) :
    fileByte blocks' (files' g).iAddr k = Fs.fileByte blocks (files g).iAddr k := by
  unfold Fs.fileByte phys
  cases hpath : blockPath (k / BSIZE) with
  | none => rfl
  | some q =>
    obtain ⟨hq, hfull⟩ := lmap_path hpath
    simp only
    by_cases heq : g = f ∧ q = p
    · obtain ⟨rfl, rfl⟩ := heq
      rw [h.here, h0, if_pos rfl, hk rfl hpath]
      split_ifs <;> rfl
    · rw [h.there g q hq heq]
      by_cases hz : look blocks (files g).iAddr q = 0
      · rw [if_pos hz, if_pos hz]
      · rw [if_neg hz, if_neg hz, h.data g q hq hfull hz]

end CohKernel.Fs
