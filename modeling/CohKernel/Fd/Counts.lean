import CohKernel.Fd.Defs
import CohKernel.Lib.Count

namespace CohKernel.Fd

open CohKernel.Lib

/-!
# The reference counts of the file table

* `Inv.step` — the counts are those of the descriptors, and `iclose` is called once, unless a close
  is repeated, a descriptor is received whose entry has been closed, or a count leaves its type;
* `reachable_counted` — the counts of a run without such a step;
* `received_closed` — a descriptor of a closed entry.
-/

variable {P : Type} [DecidableEq P] [Fintype P] {N : ℕ} {s s' : State P N} {p : P} {fd : Fin N}
  {f : ℕ}

/-- The descriptor refers to the entry. -/
def refers (f : ℕ) (o : Option ℕ) : Bool := decide (o = some f)

/-- The number of the descriptors of all processes that refer to an entry. -/
def State.slots (s : State P N) (f : ℕ) : ℕ := count (refers f) s.uFilep

/-- The number of the descriptors of one process. -/
def State.slotsOf (s : State P N) (p : P) (f : ℕ) : ℕ := count (refers f) fun fd => s.uFilep (p, fd)

/-- The process is in an open of the descriptor. -/
def Pc.opens (pc : Pc N) (fd : Fin N) : Bool :=
  match pc with
  | .opening fd' _ => decide (fd' = fd)
  | _ => false

/-- The process closes the inode of the entry. -/
def Pc.closes (pc : Pc N) (f : ℕ) : Bool :=
  match pc with
  | .closing f' _ => decide (f' = f)
  | _ => false

/-! ### The invariant -/

/-- A descriptor refers to an entry that is open, or that its process opens; the count of an open
    entry is the number of its descriptors; one that has none is being closed, by one process; and
    `iclose` has been called for those that are gone. -/
structure Inv (s : State P N) : Prop where
  fresh : ∀ f, s.nfiles ≤ f → (s.file f).allocated = false ∧ (s.file f).opened = false
  held : ∀ p fd f, s.uFilep (p, fd) = some f → (s.file f).allocated = true ∧
    (s.file f).opened = !(s.pc p).opens fd
  opening : ∀ p fd, (s.pc p).opens fd = true → ∃ f, s.uFilep (p, fd) = some f ∧ s.slots f = 1 ∧
    (s.file f).fRefc.val = 0
  refc : ∀ f, (s.file f).allocated = true → (s.file f).opened = true →
    (s.file f).fRefc.val = s.slots f
  closing : ∀ p f, (s.pc p).closes f = true → (s.file f).allocated = true ∧
    (s.file f).opened = true ∧ s.slots f = 0 ∧ ∀ q, (s.pc q).closes f = true → q = p
  ends : ∀ f, (s.file f).allocated = true → (s.file f).opened = true → s.slots f = 0 →
    ∃ p, (s.pc p).closes f = true
  once : ∀ f, (s.file f).closes =
    if (s.file f).opened = true ∧ (s.file f).allocated = false then 1 else 0
  passing : ∀ f ∈ s.passing, (s.file f).opened = true
  gone : ∀ p, (s.pc p).isNone = true → ∀ fd, s.uFilep (p, fd) = none

/-! ### The number of descriptors -/

omit [DecidableEq P] in
theorem slots_pos : 0 < s.slots f ↔ ∃ p fd, s.uFilep (p, fd) = some f := by
  unfold State.slots
  rw [count_pos_iff]
  constructor
  · rintro ⟨⟨p, fd⟩, h⟩
    exact ⟨p, fd, of_decide_eq_true h⟩
  · rintro ⟨p, fd, h⟩
    exact ⟨(p, fd), decide_eq_true h⟩

/-- One descriptor changes. -/
theorem slots_setFilep (s : State P N) (p : P) (fd : Fin N) (o : Option ℕ) (f : ℕ) :
    (s.setFilep p fd o).slots f + (if s.uFilep (p, fd) = some f then 1 else 0) =
      s.slots f + (if o = some f then 1 else 0) := by
  have h := count_update (refers f) s.uFilep (p, fd) o
  simp only [refers, decide_eq_true_eq] at h
  exact h

/-- The other entries keep the number of their descriptors. -/
theorem slots_other {o : Option ℕ} (hold : s.uFilep (p, fd) = none ∨ s.uFilep (p, fd) = some f)
    (hnew : o = none ∨ o = some f) {g : ℕ} (hg : g ≠ f) :
    (s.setFilep p fd o).slots g = s.slots g := by
  have hne : ∀ o : Option ℕ, o = none ∨ o = some f → o ≠ some g := by
    rintro o (rfl | rfl) heq
    · cases heq
    · exact hg (Option.some_inj.mp heq).symm
  have h := slots_setFilep s p fd o g
  rw [if_neg (hne _ hold), if_neg (hne _ hnew)] at h
  exact h

/-! ### One entry, one descriptor, one process -/

/-- What a call does to an entry, a descriptor of its process, and what its process does. -/
structure Change (s : State P N) (p : P) (fd : Fin N) (f : ℕ) (o : Option ℕ) (fdp : File)
    (pc : Pc N) : Prop where
  old : s.uFilep (p, fd) = none ∨ s.uFilep (p, fd) = some f
  new : o = none ∨ o = some f
  opens : ∀ fd', fd' ≠ fd → (s.pc p).opens fd' = false ∧ pc.opens fd' = false
  closes : ∀ g, g ≠ f → (s.pc p).closes g = false ∧ pc.closes g = false
  keep : ∀ q fd', (q, fd') ≠ (p, fd) → s.uFilep (q, fd') = some f →
    fdp.allocated = true ∧ fdp.opened = !(s.pc q).opens fd'
  held : o = some f → fdp.allocated = true ∧ fdp.opened = !pc.opens fd
  opening : pc.opens fd = true → o = some f ∧ (s.setFilep p fd o).slots f = 1 ∧ fdp.fRefc.val = 0
  others : ∀ q fd', q ≠ p → (s.pc q).opens fd' = true → s.uFilep (q, fd') ≠ some f
  refc : fdp.allocated = true → fdp.opened = true → fdp.fRefc.val = (s.setFilep p fd o).slots f
  closing : pc.closes f = true → fdp.allocated = true ∧ fdp.opened = true ∧
    (s.setFilep p fd o).slots f = 0
  free : ∀ q, q ≠ p → (s.pc q).closes f = false
  ends : fdp.allocated = true → fdp.opened = true → (s.setFilep p fd o).slots f = 0 →
    pc.closes f = true
  once : fdp.closes = if fdp.opened = true ∧ fdp.allocated = false then 1 else 0
  opened : (s.file f).opened = true → fdp.opened = true
  live : pc.isNone = false

theorem Inv.change (h : Inv s) {o : Option ℕ} {fdp : File} {pc : Pc N} {n : ℕ}
    (hn : s.nfiles ≤ n) (hf : f < n) (hc : Change s p fd f o fdp pc) :
    Inv { s with
      file := Function.update s.file f fdp
      nfiles := n
      uFilep := Function.update s.uFilep (p, fd) o
      pc := Function.update s.pc p pc } := by
  have hfile : ∀ g, g ≠ f → Function.update s.file f fdp g = s.file g := fun g hg =>
    Function.update_of_ne hg _ _
  have hself : Function.update s.file f fdp f = fdp := Function.update_self _ _ _
  have hslots : ∀ g, g ≠ f → (s.setFilep p fd o).slots g = s.slots g := fun g hg =>
    slots_other hc.old hc.new hg
  have hopens : ∀ q fd', (q, fd') ≠ (p, fd) →
      (Function.update s.pc p pc q).opens fd' = (s.pc q).opens fd' := by
    intro q fd' hne
    by_cases hq : q = p
    · subst hq
      have hfd : fd' ≠ fd := fun heq => hne (by rw [heq])
      rw [Function.update_self, (hc.opens fd' hfd).1, (hc.opens fd' hfd).2]
    · rw [Function.update_of_ne hq]
  have hcloses : ∀ q g, g ≠ f → (Function.update s.pc p pc q).closes g = (s.pc q).closes g := by
    intro q g hg
    by_cases hq : q = p
    · subst hq
      rw [Function.update_self, (hc.closes g hg).1, (hc.closes g hg).2]
    · rw [Function.update_of_ne hq]
  refine ⟨fun g hg => ?_, fun q fd' g hg => ?_, fun q fd' hq => ?_, fun g ha hopen => ?_,
    fun q g hq => ?_, fun g ha hopen h0 => ?_, fun g => ?_, fun g hg => ?_, fun q hq fd' => ?_⟩
  · have hg : n ≤ g := hg
    simp only [hfile g (by omega)]
    exact h.fresh g (by omega)
  · -- The descriptors.
    simp only at hg ⊢
    by_cases hq : (q, fd') = (p, fd)
    · obtain ⟨rfl, rfl⟩ := Prod.mk.inj hq
      rw [Function.update_self] at hg
      have hgf : g = f := by
        rcases hc.new with hnone | hsome
        · cases hnone.symm.trans hg
        · exact (Option.some_inj.mp (hsome.symm.trans hg)).symm
      subst hgf
      rw [hself, Function.update_self]
      exact hc.held hg
    · rw [Function.update_of_ne hq] at hg
      rw [hopens q fd' hq]
      by_cases hgf : g = f
      · subst hgf
        rw [hself]
        exact hc.keep q fd' hq hg
      · rw [hfile g hgf]
        exact h.held q fd' g hg
  · -- The opens.
    simp only at hq ⊢
    by_cases hqp : (q, fd') = (p, fd)
    · obtain ⟨rfl, rfl⟩ := Prod.mk.inj hqp
      rw [Function.update_self] at hq
      obtain ⟨ho, hone, hzero⟩ := hc.opening hq
      refine ⟨f, ?_, hone, ?_⟩
      · rw [Function.update_self, ho]
      · rw [hself]
        exact hzero
    · rw [hopens q fd' hqp] at hq
      have hqne : q ≠ p := by
        rintro rfl
        have hfd : fd' ≠ fd := fun heq => hqp (by rw [heq])
        cases ((hc.opens fd' hfd).1).symm.trans hq
      obtain ⟨g, hg, hone, hzero⟩ := h.opening q fd' hq
      have hgf : g ≠ f := fun heq => hc.others q fd' hqne hq (heq ▸ hg)
      refine ⟨g, ?_, (hslots g hgf).trans hone, ?_⟩
      · rw [Function.update_of_ne hqp]
        exact hg
      · rw [hfile g hgf]
        exact hzero
  · by_cases hgf : g = f
    · subst hgf
      simp only [hself] at ha hopen ⊢
      exact hc.refc ha hopen
    · simp only [hfile g hgf] at ha hopen ⊢
      exact (h.refc g ha hopen).trans (congrArg Nat.cast (hslots g hgf).symm)
  · simp only at hq
    by_cases hgf : g = f
    · subst hgf
      have hqp : q = p := by
        by_contra hqp
        rw [Function.update_of_ne hqp] at hq
        cases (hc.free q hqp).symm.trans hq
      subst hqp
      rw [Function.update_self] at hq
      obtain ⟨ha, hopen, h0⟩ := hc.closing hq
      refine ⟨?_, ?_, h0, fun r hr => ?_⟩
      · simp only [hself]
        exact ha
      · simp only [hself]
        exact hopen
      · by_contra hrq
        simp only [Function.update_of_ne hrq] at hr
        cases (hc.free r hrq).symm.trans hr
    · rw [hcloses q g hgf] at hq
      obtain ⟨ha, hopen, h0, huniq⟩ := h.closing q g hq
      refine ⟨?_, ?_, (hslots g hgf).trans h0, fun r hr => ?_⟩
      · simp only [hfile g hgf]
        exact ha
      · simp only [hfile g hgf]
        exact hopen
      · rw [hcloses r g hgf] at hr
        exact huniq r hr
  · by_cases hgf : g = f
    · subst hgf
      simp only [hself] at ha hopen
      refine ⟨p, ?_⟩
      simp only [Function.update_self]
      exact hc.ends ha hopen h0
    · simp only [hfile g hgf] at ha hopen
      obtain ⟨q, hq⟩ := h.ends g ha hopen ((hslots g hgf).symm.trans h0)
      exact ⟨q, (hcloses q g hgf).trans hq⟩
  · by_cases hgf : g = f
    · subst hgf
      simp only [hself]
      exact hc.once
    · simp only [hfile g hgf]
      exact h.once g
  · by_cases hgf : g = f
    · subst hgf
      simp only [hself]
      exact hc.opened (h.passing g hg)
    · simp only [hfile g hgf]
      exact h.passing g hg
  · simp only at hq ⊢
    by_cases hqp : q = p
    · subst hqp
      rw [Function.update_self, hc.live] at hq
      cases hq
    · rw [Function.update_of_ne hqp] at hq
      rw [Function.update_of_ne fun heq => hqp (Prod.mk.inj heq).1]
      exact h.gone q hq fd'

/-! ### The calls -/

/-- The process is not in an open or a close. -/
def Pc.calm (pc : Pc N) : Bool :=
  match pc with
  | .idle => true
  | .exiting => true
  | _ => false

theorem Pc.calm_of_idle {pc : Pc N} (h : pc.isIdle = true) : pc.calm = true := by
  cases pc with
  | idle => rfl
  | _ => cases h

theorem Pc.opens_of_calm {pc : Pc N} (h : pc.calm = true) (fd : Fin N) : pc.opens fd = false := by
  cases pc with
  | opening fd who => cases h
  | _ => rfl

theorem Pc.closes_of_calm {pc : Pc N} (h : pc.calm = true) (f : ℕ) : pc.closes f = false := by
  cases pc with
  | closing f exits => cases h
  | _ => rfl

theorem Pc.live_of_calm {pc : Pc N} (h : pc.calm = true) : pc.isNone = false := by
  cases pc with
  | none => cases h
  | _ => rfl

section

omit [DecidableEq P]

/-- What a descriptor refers to whose process is not in an open. -/
theorem Inv.open_of_calm (h : Inv s) (hp : (s.pc p).calm = true) (hf : s.uFilep (p, fd) = some f) :
    (s.file f).allocated = true ∧ (s.file f).opened = true := by
  obtain ⟨ha, hopen⟩ := h.held p fd f hf
  rw [Pc.opens_of_calm hp] at hopen
  exact ⟨ha, hopen⟩

/-- An entry that is open has a descriptor, or a process closes it. -/
theorem Inv.not_opening (h : Inv s) (hopen : (s.file f).opened = true) (q : P) (fd' : Fin N)
    (hq : (s.pc q).opens fd' = true) : s.uFilep (q, fd') ≠ some f := by
  intro hf
  have hheld := (h.held q fd' f hf).2
  rw [hq, hopen] at hheld
  cases hheld

theorem Inv.not_closing (h : Inv s) (hpos : 0 < s.slots f) (q : P) : (s.pc q).closes f = false := by
  rw [← Bool.not_eq_true]
  intro hq
  have h0 := (h.closing q f hq).2.2.1
  omega

theorem Inv.below (h : Inv s) (ha : (s.file f).allocated = true) : f < s.nfiles := by
  by_contra hf
  cases ha.symm.trans (h.fresh f (by omega)).1

end

/-- A free descriptor gets an entry that another one refers to. -/
theorem Inv.attach (h : Inv s) (hp : (s.pc p).calm = true) (hfree : s.uFilep (p, fd) = none)
    (hpos : 0 < s.slots f) (hopen : (s.file f).opened = true) (hsmall : s.slots f + 1 < 2 ^ 15) :
    Inv ((s.setFilep p fd (some f)).setFile f (s.file f).hold) := by
  obtain ⟨q, fd', hq⟩ := slots_pos.mp hpos
  have ha := (h.held q fd' f hq).1
  have hslots : (s.setFilep p fd (some f)).slots f = s.slots f + 1 := by
    have hset := slots_setFilep s p fd (some f) f
    rw [hfree, if_neg nofun, if_pos rfl] at hset
    exact hset
  have hrefc := h.refc f ha hopen
  have hc : Change s p fd f (some f) (s.file f).hold (s.pc p) := by
    refine ⟨Or.inl hfree, Or.inr rfl,
      fun fd' _ => ⟨Pc.opens_of_calm hp fd', Pc.opens_of_calm hp fd'⟩,
      fun g _ => ⟨Pc.closes_of_calm hp g, Pc.closes_of_calm hp g⟩,
      fun q fd' _ hq => h.held q fd' f hq, fun _ => ⟨ha, ?_⟩, fun hop => ?_,
      fun q fd' _ hq => h.not_opening hopen q fd' hq, fun _ _ => ?_, fun hcl => ?_,
      fun q _ => h.not_closing hpos q, fun _ _ h0 => ?_, h.once f, id, Pc.live_of_calm hp⟩
    · rw [Pc.opens_of_calm hp]
      exact hopen
    · cases (Pc.opens_of_calm hp fd).symm.trans hop
    · rw [hslots]
      simp only [File.hold, short_val]
      rw [hrefc]
      push_cast
      omega
    · cases (Pc.closes_of_calm hp f).symm.trans hcl
    · omega
  have hinv := h.change le_rfl (h.below ha) hc
  rw [Function.update_eq_self] at hinv
  exact hinv

/-- **`fd_close`** -/
theorem Inv.fdClose (h : Inv s) (hp : (s.pc p).calm = true) (exits : Bool) :
    Inv (s.fdClose p fd exits) := by
  unfold State.fdClose
  split
  · exact h
  · rename_i f hf
    obtain ⟨ha, hopen⟩ := h.open_of_calm hp hf
    have hpos : 0 < s.slots f := slots_pos.mpr ⟨p, fd, hf⟩
    have hslots : (s.setFilep p fd none).slots f = s.slots f - 1 := by
      have hset := slots_setFilep s p fd none f
      rw [hf, if_pos rfl, if_neg nofun] at hset
      omega
    have hrefc := h.refc f ha hopen
    have hval : (short ((s.file f).fRefc.val - 1)).val = (s.slots f : ℤ) - 1 := by
      have hrange := (s.file f).fRefc.property
      rw [short_val, hrefc]
      omega
    have hone := h.once f
    refine h.change le_rfl (h.below ha) ⟨Or.inr hf, Or.inl rfl, fun fd' _ => ?_, fun g hg => ?_,
      fun q fd' _ hq => h.held q fd' f hq, nofun, fun hop => ?_,
      fun q fd' _ hq => h.not_opening hopen q fd' hq, fun _ _ => ?_, fun hcl => ?_,
      fun q _ => h.not_closing hpos q, fun _ _ h0 => ?_, hone, id, ?_⟩
    · refine ⟨Pc.opens_of_calm hp fd', ?_⟩
      split_ifs <;> rfl
    · refine ⟨Pc.closes_of_calm hp g, ?_⟩
      split_ifs
      · exact decide_eq_false (Ne.symm hg)
      · rfl
      · rfl
    · split_ifs at hop <;> cases hop
    · simp only [hval, hslots]
      omega
    · by_cases h0 : (short ((s.file f).fRefc.val - 1)).val = 0
      · refine ⟨ha, hopen, ?_⟩
        rw [hslots]
        omega
      · rw [if_neg h0] at hcl
        split_ifs at hcl <;> cases hcl
    · rw [hslots] at h0
      rw [if_pos (by rw [hval]; omega)]
      exact decide_eq_true rfl
    · split_ifs <;> rfl

omit [DecidableEq P] [Fintype P] in
theorem freeFrom_free {base : ℕ} (h : s.freeFrom p base = some fd) : s.uFilep (p, fd) = none := by
  have hfound := List.find?_some h
  exact (of_decide_eq_true hfound).2

/-- **`fd_alloc`** -/
theorem Inv.fdAlloc (h : Inv s) (hp : (s.pc p).calm = true) (hfree : s.uFilep (p, fd) = none)
    (who : Opener N) : Inv ((s.fdAlloc p fd).setPc p (.opening fd who)) := by
  have hfresh := h.fresh s.nfiles le_rfl
  have hnone : ∀ q fd', s.uFilep (q, fd') ≠ some s.nfiles := by
    intro q fd' hq
    cases hfresh.1.symm.trans (h.held q fd' _ hq).1
  have hslots : (s.setFilep p fd (some s.nfiles)).slots s.nfiles = 1 := by
    have hset := slots_setFilep s p fd (some s.nfiles) s.nfiles
    have hzero : s.slots s.nfiles = 0 := by
      by_contra hpos
      obtain ⟨q, fd', hq⟩ := slots_pos.mp (Nat.pos_of_ne_zero hpos)
      exact hnone q fd' hq
    rw [hfree, if_neg nofun, if_pos rfl, hzero] at hset
    exact hset
  refine h.change (Nat.le_succ _) (Nat.lt_succ_self _) ⟨Or.inl hfree, Or.inr rfl,
    fun fd' hne => ⟨Pc.opens_of_calm hp fd', decide_eq_false (Ne.symm hne)⟩,
    fun g _ => ⟨Pc.closes_of_calm hp g, rfl⟩, fun q fd' _ hq => absurd hq (hnone q fd'),
    fun _ => ⟨rfl, ?_⟩, fun _ => ⟨rfl, hslots, rfl⟩, fun q fd' _ _ => hnone q fd', nofun, nofun,
    fun q _ => ?_, nofun, rfl, fun hopen => ?_, rfl⟩
  · show false = !decide (fd = fd)
    rw [decide_eq_true rfl]
    rfl
  · rw [← Bool.not_eq_true]
    intro hq
    cases hfresh.1.symm.trans (h.closing q s.nfiles hq).1
  · cases hfresh.2.symm.trans hopen

omit [DecidableEq P] in
/-- What an open knows of its entry. -/
theorem Inv.entry (h : Inv s) {who : Opener N} (hp : s.pc p = .opening fd who) :
    ∃ f, s.uFilep (p, fd) = some f ∧ s.slots f = 1 ∧ (s.file f).fRefc.val = 0 ∧
      (s.file f).allocated = true ∧ (s.file f).opened = false := by
  have hop : (s.pc p).opens fd = true := by
    rw [hp]
    exact decide_eq_true rfl
  obtain ⟨f, hf, hone, hzero⟩ := h.opening p fd hop
  obtain ⟨ha, hopen⟩ := h.held p fd f hf
  rw [hop] at hopen
  exact ⟨f, hf, hone, hzero, ha, hopen⟩

/-- The only descriptor of an entry. -/
theorem slots_one (hf : s.uFilep (p, fd) = some f) (hone : s.slots f = 1) {q : P} {fd' : Fin N}
    (hne : (q, fd') ≠ (p, fd)) : s.uFilep (q, fd') ≠ some f := by
  intro hq
  have hset := slots_setFilep s p fd none f
  rw [hf, if_pos rfl, if_neg nofun, hone] at hset
  have hzero : (s.setFilep p fd none).slots f = 0 := by omega
  have hpos : 0 < (s.setFilep p fd none).slots f := by
    refine slots_pos.mpr ⟨q, fd', ?_⟩
    exact (Function.update_of_ne hne _ _).trans hq
  omega

omit [DecidableEq P] [Fintype P] in
theorem opening_change {who : Opener N} (hp : s.pc p = .opening fd who) :
    (∀ fd', fd' ≠ fd → (s.pc p).opens fd' = false ∧ (Pc.idle : Pc N).opens fd' = false) ∧
    ∀ g, (s.pc p).closes g = false ∧ (Pc.idle : Pc N).closes g = false := by
  rw [hp]
  exact ⟨fun fd' hne => ⟨decide_eq_false (Ne.symm hne), rfl⟩, fun g => ⟨rfl, rfl⟩⟩

/-- **`fd_init`** -/
theorem Inv.fdInit (h : Inv s) {who : Opener N} (hp : s.pc p = .opening fd who)
    (hf : s.uFilep (p, fd) = some f) (ip mode : ℕ) :
    Inv ((s.fdInit f ip mode).setPc p .idle) := by
  obtain ⟨f', hf', hone, hzero, ha, hopen⟩ := h.entry hp
  obtain rfl : f' = f := Option.some_inj.mp (hf'.symm.trans hf)
  have hsame : s.setFilep p fd (some f') = s := by
    rw [State.setFilep, ← hf, Function.update_eq_self]
  obtain ⟨hopens, hcloses⟩ := opening_change hp
  have hclosed := h.once f'
  rw [hopen] at hclosed
  have hc : Change s p fd f' (some f') { s.file f' with
      fIp := some ip, fFlag := mode, fRefc := short 1, opened := true } .idle := by
    refine ⟨Or.inr hf, Or.inr rfl, hopens, fun g _ => hcloses g,
      fun q fd' hne hq => absurd hq (slots_one hf hone hne), fun _ => ⟨ha, rfl⟩, nofun,
      fun q fd' hq _ => slots_one hf hone fun heq => hq (Prod.mk.inj heq).1, fun _ _ => ?_, nofun,
      fun q _ => ?_, fun _ _ h0 => ?_, ?_, fun _ => rfl, rfl⟩
    · rw [hsame, hone]
      rfl
    · rw [← Bool.not_eq_true]
      intro hq
      cases hopen.symm.trans (h.closing q f' hq).2.1
    · rw [hsame, hone] at h0
      cases h0
    · simp only [ha, Bool.true_eq_false, and_false, if_false]
      simpa only [Bool.false_eq_true, false_and, if_false] using hclosed
  have hinv := h.change le_rfl (h.below ha) hc
  rw [← hf, Function.update_eq_self] at hinv
  exact hinv

/-- **`fd_finish`** takes back what `fd_alloc` has given. -/
theorem Inv.undo (h : Inv s) {who : Opener N} (hp : s.pc p = .opening fd who) :
    Inv ((s.fdFinish p fd).setPc p .idle) := by
  obtain ⟨f, hf, hone, hzero, ha, hopen⟩ := h.entry hp
  obtain ⟨hopens, hcloses⟩ := opening_change hp
  have hclosed := h.once f
  rw [hopen] at hclosed
  unfold State.fdFinish
  simp only [hf, hzero, if_true]
  refine h.change le_rfl (h.below ha) ⟨Or.inr hf, Or.inl rfl, hopens, fun g _ => hcloses g,
    fun q fd' hne hq => absurd hq (slots_one hf hone hne), nofun, nofun,
    fun q fd' hq _ => slots_one hf hone fun heq => hq (Prod.mk.inj heq).1, nofun, nofun,
    fun q _ => ?_, nofun, ?_, fun hyes => ?_, rfl⟩
  · rw [← Bool.not_eq_true]
    intro hq
    cases hopen.symm.trans (h.closing q f hq).2.1
  · simp only [hopen, Bool.false_eq_true, false_and, if_false]
    simpa only [Bool.false_eq_true, false_and, if_false] using hclosed
  · cases hopen.symm.trans hyes

/-- What a process does changes, but not in an open or a close. -/
theorem Inv.setPc (h : Inv s) {pc : Pc N} (hp : (s.pc p).calm = true)
    (hpc : pc.calm = true ∨ pc = .none ∧ ∀ fd, s.uFilep (p, fd) = none) : Inv (s.setPc p pc) := by
  have hopens : ∀ q fd, (Function.update s.pc p pc q).opens fd = (s.pc q).opens fd := by
    intro q fd
    by_cases hq : q = p
    · subst hq
      rw [Function.update_self, Pc.opens_of_calm hp]
      rcases hpc with hpc | ⟨rfl, -⟩
      · exact Pc.opens_of_calm hpc fd
      · rfl
    · rw [Function.update_of_ne hq]
  have hcloses : ∀ q f, (Function.update s.pc p pc q).closes f = (s.pc q).closes f := by
    intro q f
    by_cases hq : q = p
    · subst hq
      rw [Function.update_self, Pc.closes_of_calm hp]
      rcases hpc with hpc | ⟨rfl, -⟩
      · exact Pc.closes_of_calm hpc f
      · rfl
    · rw [Function.update_of_ne hq]
  refine ⟨h.fresh, fun q fd f hf => ?_, fun q fd hq => ?_, h.refc, fun q f hq => ?_,
    fun f ha hopen h0 => ?_, h.once, h.passing, fun q hq fd => ?_⟩
  · exact ⟨(h.held q fd f hf).1, (h.held q fd f hf).2.trans (congrArg _ (hopens q fd).symm)⟩
  · exact h.opening q fd ((hopens q fd).symm.trans hq)
  · obtain ⟨ha, hopen, h0, huniq⟩ := h.closing q f ((hcloses q f).symm.trans hq)
    exact ⟨ha, hopen, h0, fun r hr => huniq r ((hcloses r f).symm.trans hr)⟩
  · obtain ⟨q, hq⟩ := h.ends f ha hopen h0
    exact ⟨q, (hcloses q f).trans hq⟩
  · by_cases hqp : q = p
    · subst hqp
      rcases hpc with hpc | ⟨-, hnone⟩
      · have hq : (Function.update s.pc q pc q).isNone = true := hq
        rw [Function.update_self, Pc.live_of_calm hpc] at hq
        cases hq
      · exact hnone fd
    · simp only [State.setPc, Function.update_of_ne hqp] at hq
      exact h.gone q hq fd

/-- The end of `iclose`, and `kmem_free`. -/
theorem Inv.iclosed (h : Inv s) {exits : Bool} (hp : s.pc p = .closing f exits) {pc : Pc N}
    (hpc : pc.calm = true) :
    Inv ((s.setFile f { s.file f with closes := (s.file f).closes + 1, allocated := false }).setPc
      p pc) := by
  have hcl : (s.pc p).closes f = true := by
    rw [hp]
    exact decide_eq_true rfl
  obtain ⟨ha, hopen, h0, huniq⟩ := h.closing p f hcl
  have hbefore := h.once f
  rw [ha, if_neg (fun hno => by cases hno.2)] at hbefore
  have hnone : ∀ q fd, s.uFilep (q, fd) ≠ some f := by
    intro q fd hq
    have hpos : 0 < s.slots f := slots_pos.mpr ⟨q, fd, hq⟩
    omega
  have hopens : ∀ q fd, (Function.update s.pc p pc q).opens fd = (s.pc q).opens fd := by
    intro q fd
    by_cases hq : q = p
    · subst hq
      rw [Function.update_self, hp, Pc.opens_of_calm hpc]
      rfl
    · rw [Function.update_of_ne hq]
  have hcloses : ∀ q g, g ≠ f → (Function.update s.pc p pc q).closes g = (s.pc q).closes g := by
    intro q g hg
    by_cases hq : q = p
    · subst hq
      rw [Function.update_self, hp, Pc.closes_of_calm hpc]
      exact (decide_eq_false (Ne.symm hg)).symm
    · rw [Function.update_of_ne hq]
  have hfile : ∀ g, g ≠ f → ∀ fdp, Function.update s.file f fdp g = s.file g := fun g hg fdp =>
    Function.update_of_ne hg _ _
  refine ⟨fun g hg => ?_, fun q fd g hg => ?_, fun q fd hq => ?_, fun g hag hog => ?_,
    fun q g hq => ?_, fun g hag hog hg0 => ?_, fun g => ?_, fun g hg => ?_, fun q hq fd => ?_⟩
  · have hgf : g ≠ f := by
      rintro rfl
      cases ha.symm.trans (h.fresh g hg).1
    simp only [State.setPc, State.setFile, hfile g hgf]
    exact h.fresh g hg
  · have hgf : g ≠ f := by
      rintro rfl
      exact hnone q fd hg
    simp only [State.setPc, State.setFile, hfile g hgf, hopens]
    exact h.held q fd g hg
  · obtain ⟨g, hg, hone, hzero⟩ := h.opening q fd ((hopens q fd).symm.trans hq)
    have hgf : g ≠ f := by
      rintro rfl
      exact hnone q fd hg
    refine ⟨g, hg, hone, ?_⟩
    simp only [State.setPc, State.setFile, hfile g hgf]
    exact hzero
  · by_cases hgf : g = f
    · subst hgf
      simp only [State.setPc, State.setFile, Function.update_self] at hag
      cases hag
    · simp only [State.setPc, State.setFile, hfile g hgf] at hag hog ⊢
      exact h.refc g hag hog
  · by_cases hgf : g = f
    · subst hgf
      have hqp : q = p := by
        by_contra hqp
        simp only [State.setPc, Function.update_of_ne hqp] at hq
        exact hqp (huniq q hq)
      subst hqp
      simp only [State.setPc, Function.update_self, Pc.closes_of_calm hpc] at hq
      cases hq
    · obtain ⟨hag, hog, hg0, hu⟩ := h.closing q g ((hcloses q g hgf).symm.trans hq)
      refine ⟨?_, ?_, hg0, fun r hr => hu r ((hcloses r g hgf).symm.trans hr)⟩
      · simp only [State.setPc, State.setFile, hfile g hgf]
        exact hag
      · simp only [State.setPc, State.setFile, hfile g hgf]
        exact hog
  · by_cases hgf : g = f
    · subst hgf
      simp only [State.setPc, State.setFile, Function.update_self] at hag
      cases hag
    · simp only [State.setPc, State.setFile, hfile g hgf] at hag hog
      obtain ⟨q, hq⟩ := h.ends g hag hog hg0
      exact ⟨q, (hcloses q g hgf).trans hq⟩
  · by_cases hgf : g = f
    · subst hgf
      simp only [State.setPc, State.setFile, Function.update_self, hbefore, hopen, and_self,
        if_true]
    · simp only [State.setPc, State.setFile, hfile g hgf]
      exact h.once g
  · by_cases hgf : g = f
    · subst hgf
      simp only [State.setPc, State.setFile, Function.update_self]
      exact hopen
    · simp only [State.setPc, State.setFile, hfile g hgf]
      exact h.passing g hg
  · by_cases hqp : q = p
    · subst hqp
      simp only [State.setPc, Function.update_self, Pc.live_of_calm hpc] at hq
      cases hq
    · simp only [State.setPc, Function.update_of_ne hqp] at hq
      exact h.gone q hq fd

omit [Fintype P] [DecidableEq P] in
/-- The counts after `fd_dup_all`. -/
theorem fdDupAll_spec (fds : List (Option ℕ)) : ∀ (file : ℕ → File) (f : ℕ),
    fdDupAll file fds f =
      { file f with fRefc := short ((file f).fRefc.val + fds.countP (refers f)) } := by
  induction fds with
  | nil =>
    intro file f
    simp only [fdDupAll, List.countP_nil, Nat.cast_zero, Int.add_zero, short_self]
  | cons o fds ih =>
    intro file f
    cases o with
    | none =>
      rw [List.countP_cons_of_neg (by simp [refers])]
      exact ih file f
    | some g =>
      by_cases hgf : g = f
      · subst hgf
        rw [List.countP_cons_of_pos (by simp [refers]), fdDupAll, ih, Function.update_self]
        have hshort : short ((file g).hold.fRefc.val + fds.countP (refers g)) =
            short ((file g).fRefc.val + (fds.countP (refers g) + 1 : ℕ)) := by
          rw [short_eq_iff, File.hold, short_val]
          push_cast
          omega
        rw [hshort]
        rfl
      · rw [List.countP_cons_of_neg (by simpa [refers] using hgf), fdDupAll, ih,
          Function.update_of_ne (Ne.symm hgf)]

/-- **`pfork`** -/
theorem Inv.pfork (h : Inv s) {c : P} (hp : (s.pc p).isIdle = true) (hc : (s.pc c).isNone = true)
    (hsmall : ∀ f, s.slots f + s.slotsOf p f < 2 ^ 15) :
    Inv { s with
      file := fdDupAll s.file ((List.finRange N).map fun fd => s.uFilep (p, fd))
      uFilep := fun i => if i.1 = c then s.uFilep (p, i.2) else s.uFilep i
      pc := Function.update s.pc c .idle } := by
  have hpc : (s.pc p).calm = true := Pc.calm_of_idle hp
  have hcn : s.pc c = .none := by
    cases hpcc : s.pc c with
    | none => rfl
    | _ =>
      rw [hpcc] at hc
      cases hc
  have hslots : ∀ f, count (refers f) (fun i => if i.1 = c then s.uFilep (p, i.2) else s.uFilep i) =
      s.slots f + s.slotsOf p f := by
    intro f
    have hnone : ∀ fd : Fin N, refers f (s.uFilep (c, fd)) = false := by
      intro fd
      rw [h.gone c hc fd]
      rfl
    exact count_row hnone fun fd => s.uFilep (p, fd)
  have hfile : ∀ f, fdDupAll s.file ((List.finRange N).map fun fd => s.uFilep (p, fd)) f =
      { s.file f with fRefc := short ((s.file f).fRefc.val + s.slotsOf p f) } := by
    intro f
    rw [fdDupAll_spec, State.slotsOf, count_fin]
  -- The parent has no descriptor that is being opened.
  have hrow : ∀ f, (s.file f).opened = false → s.slotsOf p f = 0 := by
    intro f hf
    refine count_eq_zero fun fd => decide_eq_false fun hq => ?_
    cases hf.symm.trans (h.open_of_calm hpc hq).2
  have hle : ∀ f, 0 < s.slotsOf p f → 0 < s.slots f := by
    intro f hf
    obtain ⟨fd, hfd⟩ := count_pos_iff.mp hf
    exact slots_pos.mpr ⟨p, fd, of_decide_eq_true hfd⟩
  have hopens : ∀ q fd, (Function.update s.pc c .idle q).opens fd = (s.pc q).opens fd := by
    intro q fd
    by_cases hq : q = c
    · subst hq
      rw [Function.update_self, hcn]
      rfl
    · rw [Function.update_of_ne hq]
  have hcloses : ∀ q f, (Function.update s.pc c .idle q).closes f = (s.pc q).closes f := by
    intro q f
    by_cases hq : q = c
    · subst hq
      rw [Function.update_self, hcn]
      rfl
    · rw [Function.update_of_ne hq]
  refine ⟨fun f hf => ?_, fun q fd f hf => ?_, fun q fd hq => ?_, fun f ha hopen => ?_,
    fun q f hq => ?_, fun f ha hopen h0 => ?_, fun f => ?_, fun f hf => ?_, fun q hq fd => ?_⟩
  · simp only [hfile]
    exact h.fresh f hf
  · simp only [hfile, hopens]
    by_cases hq : q = c
    · subst hq
      simp only [if_true] at hf
      obtain ⟨ha, hopen⟩ := h.open_of_calm hpc hf
      rw [hcn]
      exact ⟨ha, hopen⟩
    · simp only [hq, if_false] at hf
      exact h.held q fd f hf
  · rw [hopens] at hq
    obtain ⟨f, hf, hone, hzero⟩ := h.opening q fd hq
    have hqc : q ≠ c := by
      rintro rfl
      rw [hcn] at hq
      cases hq
    have hopen : (s.file f).opened = false := by
      rw [(h.held q fd f hf).2, hq]
      rfl
    refine ⟨f, ?_, ?_, ?_⟩
    · simp only [hqc, if_false]
      exact hf
    · exact (hslots f).trans (by rw [hrow f hopen, hone])
    · simp only [hfile, hrow f hopen, Nat.cast_zero, Int.add_zero, short_self]
      exact hzero
  · simp only [hfile] at ha hopen ⊢
    have hrefc := h.refc f ha hopen
    have hbound := hsmall f
    have hnew := hslots f
    rw [short_val, hrefc]
    unfold State.slots at hnew hbound ⊢
    simp only [hnew]
    push_cast
    omega
  · rw [hcloses] at hq
    obtain ⟨ha, hopen, h0, huniq⟩ := h.closing q f hq
    simp only [hfile]
    refine ⟨ha, hopen, (hslots f).trans ?_, fun r hr => huniq r ((hcloses r f).symm.trans hr)⟩
    have := hle f
    omega
  · simp only [hfile] at ha hopen
    have hsum := (hslots f).symm.trans h0
    obtain ⟨q, hq⟩ := h.ends f ha hopen (by omega)
    exact ⟨q, (hcloses q f).trans hq⟩
  · simp only [hfile]
    exact h.once f
  · simp only [hfile]
    exact h.passing f hf
  · by_cases hqc : q = c
    · subst hqc
      simp only [Function.update_self] at hq
      cases hq
    · simp only [Function.update_of_ne hqc, hqc, if_false] at hq ⊢
      exact h.gone q hq fd

/-! ### Steps -/

/-- The number of the descriptors of an entry that a step adds to those that there are. -/
def State.adds (s : State P N) (f : ℕ) : Event P N → ℕ
  | .dup p old base =>
      if (s.freeFrom p base).isSome = true ∧ s.uFilep (p, old) = some f then 1 else 0
  | .recv _ g => if g = f then 1 else 0
  | .pfork p _ => s.slotsOf p f
  | _ => 0

/-- No close is interrupted; a descriptor that is received has an entry that others refer to; and no
    entry gets more than 32767 descriptors. -/
structure Tame (s : State P N) (e : Event P N) : Prop where
  iclosed : ∀ p, e ≠ .iclosed p true
  recv : ∀ p f, e = .recv p f → 0 < s.slots f
  small : ∀ f, s.slots f + s.adds f e < 2 ^ 15

omit [Fintype P] in
theorem fdInit_finish {f ip mode : ℕ} (hf : s.uFilep (p, fd) = some f) :
    (s.fdInit f ip mode).fdFinish p fd = s.fdInit f ip mode := by
  have hslot : (s.fdInit f ip mode).uFilep (p, fd) = some f := hf
  have hrefc : ((s.fdInit f ip mode).file f).fRefc.val ≠ 0 := by
    simp only [State.fdInit, State.setFile, Function.update_self]
    decide
  unfold State.fdFinish
  rw [hslot]
  simp only [hrefc, if_false]

/-- What an open does at its end. -/
theorem Inv.goOn (h : Inv s) {who : Opener N} (hp : s.pc p = .opening fd who)
    (ip : Option (ℕ × ℕ)) (mem : Bool) : Inv (s.goOn p fd who ip mem) := by
  obtain ⟨f, hf, -, -, -, -⟩ := h.entry hp
  have hidle : ∀ s' : State P N, ((s'.setPc p .idle).pc p).calm = true := by
    intro s'
    simp only [State.setPc, Function.update_self]
    rfl
  unfold State.goOn
  cases ip with
  | none =>
    have hundo := h.undo hp
    cases who with
    | uopen => exact hundo
    | first => exact hundo
    | second fd1 => exact hundo.fdClose (hidle _) false
  | some ip =>
    obtain ⟨ip, mode⟩ := ip
    have hinit := h.fdInit hp hf ip mode
    simp only [hf, fdInit_finish hf]
    cases who with
    | uopen => exact hinit
    | second fd1 => exact hinit
    | first =>
      simp only
      split
      · rename_i fd2 hfree
        have halloc := hinit.fdAlloc (hidle _) (freeFrom_free hfree) (.second fd)
        exact halloc
      · exact hinit.fdClose (hidle _) false

theorem Inv.step (h : Inv s) {e : Event P N} (hok : Tame s e) (hs : step s e = some s') :
    Inv s' := by
  cases e with
  | uopen p =>
    obtain ⟨hp, hs⟩ := Option.ite_none_right_eq_some.mp hs
    obtain ⟨fd, hfree, rfl⟩ := Option.map_eq_some_iff.mp hs
    exact h.fdAlloc (Pc.calm_of_idle hp) (freeFrom_free hfree) .uopen
  | upipe p =>
    obtain ⟨hp, hs⟩ := Option.ite_none_right_eq_some.mp hs
    obtain ⟨fd, hfree, rfl⟩ := Option.map_eq_some_iff.mp hs
    exact h.fdAlloc (Pc.calm_of_idle hp) (freeFrom_free hfree) .first
  | opened p ip mem =>
    simp only [Fd.step] at hs
    split at hs
    · rename_i fd who hp
      cases hs
      exact h.goOn hp ip mem
    · cases hs
  | dup p old base =>
    obtain ⟨hp, hs⟩ := Option.ite_none_right_eq_some.mp hs
    cases hs
    have hcalm := Pc.calm_of_idle hp
    unfold State.fdDup
    split
    · rename_i fd f hfree hf
      have hsmall := hok.small f
      rw [State.adds, hfree, if_pos ⟨rfl, hf⟩] at hsmall
      exact h.attach hcalm (freeFrom_free hfree) (slots_pos.mpr ⟨p, old, hf⟩)
        (h.open_of_calm hcalm hf).2 hsmall
    · exact h
  | close p fd =>
    obtain ⟨hp, hs⟩ := Option.ite_none_right_eq_some.mp hs
    cases hs
    exact h.fdClose (Pc.calm_of_idle hp) false
  | iclosed p eintr =>
    simp only [Fd.step] at hs
    split at hs
    · rename_i f exits hp
      split at hs
      · rename_i heintr
        exact absurd (congrArg _ heintr) (hok.iclosed p)
      · cases hs
        refine h.iclosed hp ?_
        split_ifs <;> rfl
    · cases hs
  | pfork p c =>
    obtain ⟨⟨hp, hc⟩, hs⟩ := Option.ite_none_right_eq_some.mp hs
    cases hs
    exact h.pfork hp hc hok.small
  | send p fd =>
    obtain ⟨hp, hs⟩ := Option.ite_none_right_eq_some.mp hs
    obtain ⟨f, hf, rfl⟩ := Option.map_eq_some_iff.mp hs
    refine ⟨h.fresh, h.held, h.opening, h.refc, h.closing, h.ends, h.once, fun g hg => ?_, h.gone⟩
    rcases List.mem_cons.mp hg with rfl | hg
    · exact (h.open_of_calm (Pc.calm_of_idle hp) hf).2
    · exact h.passing g hg
  | recv p f =>
    obtain ⟨⟨hp, hmem⟩, hs⟩ := Option.ite_none_right_eq_some.mp hs
    obtain ⟨fd, hfree, rfl⟩ := Option.map_eq_some_iff.mp hs
    have hsmall := hok.small f
    rw [State.adds, if_pos rfl] at hsmall
    have hatt := h.attach (Pc.calm_of_idle hp) (freeFrom_free hfree) (hok.recv p f rfl)
      (h.passing f hmem) hsmall
    exact ⟨hatt.fresh, hatt.held, hatt.opening, hatt.refc, hatt.closing, hatt.ends, hatt.once,
      fun g hg => hatt.passing g (List.mem_of_mem_erase hg), hatt.gone⟩
  | drop f =>
    cases hs
    exact ⟨h.fresh, h.held, h.opening, h.refc, h.closing, h.ends, h.once,
      fun g hg => h.passing g (List.mem_of_mem_erase hg), h.gone⟩
  | pexit p =>
    obtain ⟨hp, hs⟩ := Option.ite_none_right_eq_some.mp hs
    cases hs
    exact h.setPc (Pc.calm_of_idle hp) (Or.inl rfl)
  | closeNext p =>
    simp only [Fd.step] at hs
    split at hs
    · rename_i hp
      have hcalm : (s.pc p).calm = true := by
        rw [hp]
        rfl
      split at hs
      · cases hs
        exact h.fdClose hcalm true
      · rename_i hnone
        cases hs
        refine h.setPc hcalm (Or.inr ⟨rfl, fun fd => ?_⟩)
        have hfd := List.find?_eq_none.mp hnone fd (List.mem_finRange fd)
        rw [Bool.not_eq_true, Option.isSome_eq_false_iff] at hfd
        exact Option.isNone_iff_eq_none.mp hfd
    · cases hs

theorem Initial.inv (h : Initial s) : Inv s := by
  obtain ⟨hfile, hslot, ⟨p, hpc⟩, hpass⟩ := h
  have hopens : ∀ q fd, (s.pc q).opens fd = false ∧ ∀ f, (s.pc q).closes f = false := by
    intro q fd
    rw [hpc q]
    split_ifs <;> exact ⟨rfl, fun _ => rfl⟩
  refine ⟨fun f _ => ⟨(hfile f).1, (hfile f).2.1⟩, fun q fd f hf => ?_, fun q fd hq => ?_,
    fun f ha => ?_, fun q f hq => ?_, fun f ha => ?_, fun f => ?_, fun f hf => ?_,
    fun q _ fd => hslot (q, fd)⟩
  · cases (hslot (q, fd)).symm.trans hf
  · cases (hopens q fd).1.symm.trans hq
  · cases (hfile f).1.symm.trans ha
  · have hno : (s.pc q).closes f = false := by
      rw [hpc q]
      split_ifs <;> rfl
    cases hno.symm.trans hq
  · cases (hfile f).1.symm.trans ha
  · rw [(hfile f).2.1, (hfile f).2.2]
    rfl
  · rw [hpass] at hf
    cases hf

/-! ### Runs -/

/-- The count of an open entry is the number of its descriptors; a descriptor refers to an entry
    that has not been freed; `iclose` has been called once for the entries that are gone, and not
    for the others; and it is under way for an entry that has no descriptor any more. -/
structure Counted (s : State P N) : Prop where
  refc : ∀ f, (s.file f).allocated = true → (s.file f).opened = true →
    (s.file f).fRefc.val = s.slots f
  held : ∀ p fd f, s.uFilep (p, fd) = some f → (s.file f).allocated = true
  closed : ∀ f, (s.file f).closes =
    if (s.file f).opened = true ∧ (s.file f).allocated = false then 1 else 0
  ends : ∀ f, (s.file f).allocated = true → (s.file f).opened = true → s.slots f = 0 →
    ∃ p, (s.pc p).closes f = true

/-- **Reference counts.** In every run in which no close is interrupted, no descriptor is received
    whose entry has lost all others, and no entry gets more than 32767 descriptors. -/
theorem reachable_counted (h : Reach Initial step Tame s) : Counted s :=
  have hinv : Inv s := h.invariant (fun _ hs => hs.inv) fun _ _ _ hs hok hstep => hs.step hok hstep
  ⟨hinv.refc, fun p fd f hf => (hinv.held p fd f hf).1, hinv.once, hinv.ends⟩

/-- One process, and no open file. -/
def oneProcess (N : ℕ) : State Unit N where
  file := fun _ => ⟨0, short 0, 0, none, false, false, 0⟩
  nfiles := 0
  uFilep := fun _ => none
  pc := fun _ => .idle
  passing := []

theorem oneProcess_initial : Initial (oneProcess N) :=
  ⟨fun _ => ⟨rfl, rfl, rfl⟩, fun _ => rfl, ⟨(), fun _ => rfl⟩, rfl⟩

/-- A file that is open. -/
theorem reachable_counted_open : ∃ s : State Unit 1, s.uFilep ((), 0) = some 0 ∧
    (s.file 0).fRefc.val = s.slots 0 := by
  obtain ⟨s₁, h₁, s₂, h₂, hslot, ha, hopen, hs₁⟩ : ∃ s₁ : State Unit 1,
      step (oneProcess 1) (.uopen ()) = some s₁ ∧
      ∃ s₂, step s₁ (.opened () (some (0, 1)) false) = some s₂ ∧ s₂.uFilep ((), 0) = some 0 ∧
        (s₂.file 0).allocated = true ∧ (s₂.file 0).opened = true ∧ ∀ f, s₁.slots f ≤ 1 :=
    ⟨_, rfl, _, rfl, rfl, rfl, rfl, fun f => by
      unfold State.slots count
      exact (Finset.card_le_univ _).trans (by decide)⟩
  have hzero : ∀ f, (oneProcess 1).slots f = 0 := fun f => count_eq_zero fun _ => rfl
  have hok₁ : Tame (oneProcess 1) (.uopen ()) := by
    refine ⟨nofun, nofun, fun f => ?_⟩
    rw [hzero f]
    show 0 + 0 < 2 ^ 15
    decide
  have hok₂ : Tame s₁ (.opened () (some (0, 1)) false) := by
    refine ⟨nofun, nofun, fun f => ?_⟩
    have := hs₁ f
    show s₁.slots f + 0 < 2 ^ 15
    omega
  have hreach := ((Reach.init oneProcess_initial).step hok₁ h₁).step hok₂ h₂
  exact ⟨s₂, hslot, (reachable_counted hreach).refc 0 ha hopen⟩

/-- A descriptor is sent and closed, and then received. -/
def sentAndClosed : List (Event Unit 1) :=
  [.uopen (), .opened () (some (0, 1)) false, .send () 0, .close () 0, .iclosed () false,
    .recv () 0]

/-- **A descriptor of a closed entry.** -/
theorem received_closed : ∃ s : State Unit 1, Reach Initial step (fun _ _ => True) s ∧
    s.uFilep ((), 0) = some 0 ∧ (s.file 0).closes = 1 ∧ ¬Counted s := by
  have hrun : (runFrom step (oneProcess 1) sentAndClosed).any fun s =>
      decide (s.uFilep ((), 0) = some 0) && decide ((s.file 0).closes = 1) &&
        !(s.file 0).allocated := by
    decide +kernel
  obtain ⟨s, hs, h⟩ := (Option.any_eq_true _ _).mp hrun
  simp only [Bool.and_eq_true, decide_eq_true_eq, Bool.not_eq_true'] at h
  refine ⟨s, Reach.run (fun _ _ => trivial) (Reach.init oneProcess_initial) hs, h.1.1, h.1.2,
    fun hc => ?_⟩
  cases h.2.symm.trans (hc.held () 0 0 h.1.1)

end CohKernel.Fd
