import CohKernel.Itable.Defs

namespace CohKernel.Itable

open CohKernel.Lib

/-!
# One inode, one place in the table

`inode_find` looks an inode up, chooses a free one when it is not there, and may sleep for the gate
of that one.  It then looks at the count of the free inode, and not again for the inode.

* `Inv.step` — the counts are those of the attachments, and no inode is in two places, unless one is
  claimed that is there by then;
* `reachable_attached` — the attachments of a run without such a claim;
* `slept_attached_twice` — an inode in two places.
-/

variable {P : Type} [DecidableEq P] {N : ℕ} {s s' : State P} {p : P} {i dev ino : ℕ}

/-! ### The invariant -/

/-- The number of the inode that a call asks for. -/
def Pc.asks : Pc → Option ℕ
  | .again _ ino => some ino
  | .claiming _ _ ino _ => some ino
  | .locking _ _ ino _ => some ino
  | .reading _ _ ino => some ino
  | _ => none

/-- The counts are those of the attachments; an attached inode is in its place; no inode is in two
    places; an inode that is read or written is locked by the process that does it. -/
structure Inv (N : ℕ) (s : State P) : Prop where
  refc : ∀ i, (s.inodeTable i).iRefc = s.attached.countP fun a => decide (a.ip = i)
  holds : ∀ a ∈ s.attached, (s.inodeTable a.ip).iDev = a.dev ∧
    (s.inodeTable a.ip).iIno = a.ino ∧ a.ino ≠ 0
  alone : ∀ i j, (s.inodeTable i).iIno ≠ 0 → (s.inodeTable j).iDev = (s.inodeTable i).iDev →
    (s.inodeTable j).iIno = (s.inodeTable i).iIno → j = i
  outside : ∀ i, N ≤ i → (s.inodeTable i).iIno = 0
  reading : ∀ p i dev ino, s.pc p = .reading i dev ino → (s.inodeTable i).lock = some p ∧
    (s.inodeTable i).iRefc = 1 ∧ ⟨i, dev, ino⟩ ∈ s.attached
  writing : ∀ p i, s.pc p = .writing i → (s.inodeTable i).lock = some p
  asks : ∀ p, (s.pc p).asks ≠ some 0
  place : ∀ p who dev ino free, s.pc p = .claiming who dev ino free → free < N

/-- What a step does to one inode, by a process for which no other process holds its gate. -/
structure Change (N : ℕ) (s : State P) (p : P) (i : ℕ) (ip : Inode P) (pc : Pc)
    (att : List Attached) : Prop where
  free : ∀ q, q ≠ p → (s.inodeTable i).lock ≠ some q
  refc : ip.iRefc = att.countP fun a => decide (a.ip = i)
  holds : ∀ a ∈ att, a.ip = i → ip.iDev = a.dev ∧ ip.iIno = a.ino ∧ a.ino ≠ 0
  others : ∀ j, j ≠ i → (att.filter fun a => decide (a.ip = j)) =
    s.attached.filter fun a => decide (a.ip = j)
  alone : ip.iIno ≠ 0 → ∀ j, j ≠ i → (s.inodeTable j).carries ip.iDev ip.iIno = false
  inside : i < N ∨ ip.iIno = 0
  reading : ∀ j dev ino, pc = .reading j dev ino → j = i ∧ ip.lock = some p ∧ ip.iRefc = 1 ∧
    ⟨i, dev, ino⟩ ∈ att
  writing : ∀ j, pc = .writing j → j = i ∧ ip.lock = some p
  asks : pc.asks ≠ some 0
  place : ∀ who dev ino free, pc ≠ .claiming who dev ino free

omit [DecidableEq P] in
theorem carries_iff {ip : Inode P} : ip.carries dev ino = true ↔ ip.iDev = dev ∧ ip.iIno = ino := by
  rw [Inode.carries, decide_eq_true_eq]

theorem Inv.change (h : Inv N s) {ip : Inode P} {pc : Pc} {att : List Attached}
    (hc : Change N s p i ip pc att) :
    Inv N { s with
      inodeTable := Function.update s.inodeTable i ip
      pc := Function.update s.pc p pc
      attached := att } := by
  have hself : Function.update s.inodeTable i ip i = ip := Function.update_self _ _ _
  have hother : ∀ j, j ≠ i → Function.update s.inodeTable i ip j = s.inodeTable j := fun j hj =>
    Function.update_of_ne hj _ _
  have hmem : ∀ a : Attached, a.ip ≠ i → (a ∈ att ↔ a ∈ s.attached) := by
    intro a ha
    have hfilter : ∀ l : List Attached, a ∈ l ↔ a ∈ l.filter fun b => decide (b.ip = a.ip) :=
      fun l => by simp only [List.mem_filter, decide_true, and_true]
    rw [hfilter att, hc.others a.ip ha, ← hfilter]
  -- A process that reads or writes the inode is the one that makes the step.
  have hlocked : ∀ q j, (s.inodeTable j).lock = some q → q ≠ p → j ≠ i := by
    rintro q j hq hqp rfl
    exact hc.free q hqp hq
  refine ⟨fun j => ?_, fun a ha => ?_, fun j k hj hdev hino => ?_, fun j hj => ?_,
    fun q j dev ino hq => ?_, fun q j hq => ?_, fun q => ?_, fun q who dev ino free hq => ?_⟩
  · by_cases hj : j = i
    · subst hj
      simp only [hself]
      exact hc.refc
    · simp only [hother j hj, List.countP_eq_length_filter, hc.others j hj]
      rw [← List.countP_eq_length_filter]
      exact h.refc j
  · by_cases hj : a.ip = i
    · simp only [hj, hself]
      exact hc.holds a ha hj
    · simp only [hother _ hj]
      exact h.holds a ((hmem a hj).mp ha)
  · simp only at hj hdev hino
    by_cases hji : j = i
    · subst hji
      rw [hself] at hj hdev hino
      by_contra hk
      rw [hother k hk] at hdev hino
      cases (carries_iff.mpr ⟨hdev, hino⟩).symm.trans (hc.alone hj k hk)
    · rw [hother j hji] at hj hdev hino
      by_cases hki : k = i
      · subst hki
        rw [hself] at hdev hino
        have hno := hc.alone (hino ▸ hj) j hji
        cases (carries_iff.mpr ⟨hdev.symm, hino.symm⟩).symm.trans hno
      · rw [hother k hki] at hdev hino
        exact h.alone j k hj hdev hino
  · by_cases hji : j = i
    · subst hji
      simp only [hself]
      exact hc.inside.resolve_left (by omega)
    · simp only [hother j hji]
      exact h.outside j hj
  · by_cases hqp : q = p
    · subst hqp
      simp only [Function.update_self] at hq
      obtain ⟨rfl, hread⟩ := hc.reading j dev ino hq
      simp only [hself]
      exact hread
    · simp only [Function.update_of_ne hqp] at hq
      obtain ⟨hlock, hone, hmem'⟩ := h.reading q j dev ino hq
      have hji := hlocked q j hlock hqp
      simp only [hother j hji]
      exact ⟨hlock, hone, (hmem ⟨j, dev, ino⟩ hji).mpr hmem'⟩
  · by_cases hqp : q = p
    · subst hqp
      simp only [Function.update_self] at hq
      obtain ⟨rfl, hwrite⟩ := hc.writing j hq
      simp only [hself]
      exact hwrite
    · simp only [Function.update_of_ne hqp] at hq
      have hlock := h.writing q j hq
      simp only [hother j (hlocked q j hlock hqp)]
      exact hlock
  · by_cases hqp : q = p
    · subst hqp
      simp only [Function.update_self]
      exact hc.asks
    · simp only [Function.update_of_ne hqp]
      exact h.asks q
  · by_cases hqp : q = p
    · subst hqp
      simp only [Function.update_self] at hq
      exact absurd hq (hc.place who dev ino free)
    · simp only [Function.update_of_ne hqp] at hq
      exact h.place q who dev ino free hq

theorem Inv.setPc (h : Inv N s) {pc : Pc} (hread : ∀ j dev ino, pc ≠ .reading j dev ino)
    (hwrite : ∀ j, pc ≠ .writing j) (hasks : pc.asks ≠ some 0)
    (hplace : ∀ who dev ino free, pc = .claiming who dev ino free → free < N) :
    Inv N (s.setPc p pc) where
  refc := h.refc
  holds := h.holds
  alone := h.alone
  outside := h.outside
  reading := by
    intro q j dev ino hq
    by_cases hqp : q = p
    · subst hqp
      exact absurd ((Function.update_self _ _ _).symm.trans hq) (hread j dev ino)
    · exact h.reading q j dev ino ((Function.update_of_ne hqp _ _).symm.trans hq)
  writing := by
    intro q j hq
    by_cases hqp : q = p
    · subst hqp
      exact absurd ((Function.update_self _ _ _).symm.trans hq) (hwrite j)
    · exact h.writing q j ((Function.update_of_ne hqp _ _).symm.trans hq)
  asks := by
    intro q
    by_cases hqp : q = p
    · subst hqp
      simp only [State.setPc, Function.update_self]
      exact hasks
    · simp only [State.setPc, Function.update_of_ne hqp]
      exact h.asks q
  place := by
    intro q who dev ino free hq
    by_cases hqp : q = p
    · subst hqp
      exact hplace who dev ino free ((Function.update_self _ _ _).symm.trans hq)
    · exact h.place q who dev ino free ((Function.update_of_ne hqp _ _).symm.trans hq)

section

omit [DecidableEq P]

/-- An inode changes, but not its identity or its count; and its gate only when no process is in a
    call that holds it. -/
theorem Inv.setInode (h : Inv N s) {ip : Inode P} (hdev : ip.iDev = (s.inodeTable i).iDev)
    (hino : ip.iIno = (s.inodeTable i).iIno) (hrefc : ip.iRefc = (s.inodeTable i).iRefc)
    (hlock : ip.lock = (s.inodeTable i).lock ∨
      ∀ q, (s.inodeTable i).lock = some q → (s.pc q).isIdle = true) : Inv N (s.setInode i ip) := by
  have hsame : ∀ j, ((s.setInode i ip).inodeTable j).iDev = (s.inodeTable j).iDev ∧
      ((s.setInode i ip).inodeTable j).iIno = (s.inodeTable j).iIno ∧
      ((s.setInode i ip).inodeTable j).iRefc = (s.inodeTable j).iRefc := by
    intro j
    by_cases hj : j = i
    · subst hj
      simp only [State.setInode, Function.update_self]
      exact ⟨hdev, hino, hrefc⟩
    · simp only [State.setInode, Function.update_of_ne hj]
      exact ⟨trivial, trivial, trivial⟩
  -- The gate stays with a process that is in a call.
  have hkeep : ∀ q j, (s.inodeTable j).lock = some q → (s.pc q).isIdle = false →
      ((s.setInode i ip).inodeTable j).lock = some q := by
    intro q j hq hbusy
    by_cases hj : j = i
    · subst hj
      simp only [State.setInode, Function.update_self]
      rcases hlock with hlock | hidle
      · rw [hlock, hq]
      · cases (hidle q hq).symm.trans hbusy
    · simp only [State.setInode, Function.update_of_ne hj]
      exact hq
  refine ⟨fun j => ?_, fun a ha => ?_, fun j k hj hd hn => ?_, fun j hj => ?_,
    fun q j dev ino hq => ?_, fun q j hq => ?_, h.asks, h.place⟩
  · rw [(hsame j).2.2]
    exact h.refc j
  · rw [(hsame a.ip).1, (hsame a.ip).2.1]
    exact h.holds a ha
  · rw [(hsame j).2.1] at hj hn
    rw [(hsame j).1, (hsame k).1] at hd
    rw [(hsame k).2.1] at hn
    exact h.alone j k hj hd hn
  · rw [(hsame j).2.1]
    exact h.outside j hj
  · obtain ⟨hl, hone, hmem⟩ := h.reading q j dev ino hq
    refine ⟨hkeep q j hl ?_, ?_, hmem⟩
    · have hq : s.pc q = .reading j dev ino := hq
      rw [hq]
      rfl
    · rw [(hsame j).2.2]
      exact hone
  · have hq : s.pc q = .writing j := hq
    refine hkeep q j (h.writing q j hq) ?_
    rw [hq]
    rfl

/-! ### The calls -/

theorem scan_inl (h : s.scan N dev ino = .inl i) : (s.inodeTable i).carries dev ino = true := by
  unfold State.scan at h
  split at h
  · rename_i j hfind
    cases h
    have hsome := List.find?_some hfind
    exact hsome
  · cases h

theorem scan_inr {o : Option ℕ} (h : s.scan N dev ino = .inr o) {j : ℕ} (hj : j < N) :
    (s.inodeTable j).carries dev ino = false := by
  unfold State.scan at h
  split at h
  · cases h
  · rename_i hfind
    exact Bool.eq_false_of_not_eq_true (List.find?_eq_none.mp hfind j (List.mem_range.mpr hj))

theorem scan_free (h : s.scan N dev ino = .inr (some i)) : i < N ∧ (s.inodeTable i).iRefc = 0 := by
  unfold State.scan at h
  split at h
  · cases h
  · obtain ⟨hmem, hfree⟩ := foldl_keepOlder (Sum.inr.inj h)
    refine ⟨List.mem_range.mp hmem, ?_⟩
    rw [decide_eq_false_iff_not, not_not] at hfree
    exact hfree

theorem Inv.not_attached (h : Inv N s) (h0 : (s.inodeTable i).iRefc = 0) :
    ∀ a ∈ s.attached, a.ip ≠ i := by
  rw [h.refc i, List.countP_eq_zero] at h0
  intro a ha hai
  exact h0 a ha (decide_eq_true hai)

end

theorem Inv.claim (h : Inv N s) {who : Caller} (hi : i < N) (hino : ino ≠ 0)
    (h0 : (s.inodeTable i).iRefc = 0) (hlock : (s.inodeTable i).lock = none)
    (habsent : ∀ j, j ≠ i → (s.inodeTable j).carries dev ino = false) :
    Inv N (s.claim p who dev ino i) := by
  have hnone := h.not_attached h0
  refine h.change (i := i) ⟨fun q _ => ?_, ?_, fun a ha hai => ?_, fun j hj => ?_, fun _ => habsent,
    Or.inl hi, fun j d n hpc => ?_, fun j hpc => ?_, ?_, fun _ _ _ _ => ?_⟩
  · rw [hlock]
    exact nofun
  · have hzero : (s.attached.countP fun a => decide (a.ip = i)) = 0 := (h.refc i).symm.trans h0
    rw [List.countP_cons, hzero]
    simp only [decide_true, if_true]
  · rcases List.mem_cons.mp ha with rfl | ha
    · exact ⟨rfl, rfl, hino⟩
    · exact absurd hai (hnone a ha)
  · rw [List.filter_cons_of_neg (by simpa using Ne.symm hj)]
  · cases who with
    | iattach =>
      cases hpc
      exact ⟨rfl, rfl, rfl, List.mem_cons_self⟩
    | inodeClone => cases hpc
  · cases who <;> cases hpc
  · cases who with
    | iattach => exact fun heq => hino (Option.some_inj.mp heq)
    | inodeClone => exact nofun
  · cases who <;> exact nofun

theorem Inv.hit (h : Inv N s) {who : Caller} (hlock : (s.inodeTable i).lock = none)
    (hcarries : (s.inodeTable i).carries dev ino = true) (hino : ino ≠ 0) :
    Inv N (s.hit p who dev ino i) := by
  obtain ⟨hdev, hino'⟩ := carries_iff.mp hcarries
  have hi : i < N := by
    by_contra hi
    exact hino (hino'.symm.trans (h.outside i (by omega)))
  have hchange : ∀ ip : Inode P, ip.iDev = dev → ip.iIno = ino →
      ip.iRefc = (s.inodeTable i).iRefc + 1 →
      Change N s p i ip .idle (⟨i, dev, ino⟩ :: s.attached) := by
    intro ip hd hn hr
    refine ⟨fun q _ => ?_, ?_, fun a ha hai => ?_, fun j hj => ?_, fun _ j hj => ?_, Or.inl hi,
      nofun,
      nofun, nofun, nofun⟩
    · rw [hlock]
      exact nofun
    · rw [hr, h.refc i, List.countP_cons]
      simp only [decide_true, if_true]
    · rcases List.mem_cons.mp ha with rfl | ha
      · exact ⟨hd, hn, hino⟩
      · obtain ⟨h₁, h₂, h₃⟩ := h.holds a ha
        rw [hai] at h₁ h₂
        exact ⟨hd.trans (hdev.symm.trans h₁), hn.trans (hino'.symm.trans h₂), h₃⟩
    · rw [List.filter_cons_of_neg (by simpa using Ne.symm hj)]
    · rw [← Bool.not_eq_true, carries_iff]
      rintro ⟨h₁, h₂⟩
      refine hj (h.alone i j (hino' ▸ hino) ?_ ?_)
      · rw [h₁, hd, hdev]
      · rw [h₂, hn, hino']
  cases who with
  | iattach => exact h.change (hchange _ hdev hino' rfl)
  | inodeClone => exact h.change (hchange _ hdev hino' rfl)

theorem Inv.find (h : Inv N s) {who : Caller} (hino : ino ≠ 0) :
    Inv N (s.find N p who dev ino) := by
  unfold State.find
  split
  · rename_i temp hscan
    have hcarries := scan_inl hscan
    split
    · exact h.setPc nofun nofun nofun nofun
    · split
      · rename_i hlock
        exact h.hit hlock hcarries hino
      · exact h.setPc nofun nofun (fun heq => hino (Option.some_inj.mp heq)) nofun
  · exact h.setPc nofun nofun nofun nofun
  · rename_i free hscan
    obtain ⟨hfree, h0⟩ := scan_free hscan
    split
    · rename_i hlock
      refine h.claim hfree hino h0 hlock fun j _ => ?_
      by_cases hj : j < N
      · exact scan_inr hscan hj
      · rw [← Bool.not_eq_true, carries_iff]
        exact fun hsame => hino (hsame.2.symm.trans (h.outside j (by omega)))
    · refine h.setPc nofun nofun (fun heq => hino (Option.some_inj.mp heq)) fun _ _ _ _ heq => ?_
      cases heq
      exact hfree

/-! ### Steps -/

/-- A call asks for an inode with a number; and a process that has slept for the gate of a free
    inode claims it for an inode that is in no other place by then. -/
structure Calm (s : State P) (e : Event P) : Prop where
  iattach : ∀ p dev ino, e = .iattach p dev ino → ino ≠ 0
  inodeClone : ∀ p dev, e = .inodeClone p dev → dev ≠ 0
  late : ∀ p who dev ino free, e = .resume p → s.pc p = .claiming who dev ino free →
    (s.inodeTable free).iRefc = 0 → ∀ j, j ≠ free → (s.inodeTable j).carries dev ino = false

theorem Inv.resume (h : Inv N s) (hok : Calm s (.resume p)) (hs : s.resume N p = some s') :
    Inv N s' := by
  unfold State.resume at hs
  split at hs
  · rename_i dev ino hpc
    cases hs
    refine h.find fun hino => h.asks p ?_
    rw [hpc, hino]
    rfl
  · rename_i who dev ino free hpc
    have hino : ino ≠ 0 := by
      intro hino
      refine h.asks p ?_
      rw [hpc, hino]
      rfl
    simp only at hs
    split_ifs at hs with hlock hrefc
    · cases hs
      rw [not_not] at hlock
      have hset : Inv N (s.setInode free { s.inodeTable free with iLrt := s.tTime }) :=
        h.setInode rfl rfl rfl (Or.inl rfl)
      exact hset.find hino
    · cases hs
      rw [not_not] at hlock hrefc
      exact h.claim (h.place p who dev ino free hpc) hino hrefc hlock
        (hok.late p who dev ino free rfl hpc hrefc)
  · rename_i who dev ino temp hpc
    have hino : ino ≠ 0 := by
      intro hino
      refine h.asks p ?_
      rw [hpc, hino]
      rfl
    simp only at hs
    split_ifs at hs with hlock hcarries
    · cases hs
      rw [not_not] at hlock
      exact h.hit hlock hcarries hino
    · cases hs
      exact h.find hino
  · cases hs

omit [DecidableEq P] in
/-- An attachment goes, and its inode keeps its identity. -/
theorem Inv.leave (h : Inv N s) {a : Attached} (ha : a ∈ s.attached)
    (hlock : (s.inodeTable a.ip).lock = some p) (ip : Inode P) {pc : Pc}
    (hrefc : ip.iRefc = (s.inodeTable a.ip).iRefc - 1)
    (hsame : ip.iDev = (s.inodeTable a.ip).iDev ∧ ip.iIno = (s.inodeTable a.ip).iIno ∨
      ip.iIno = 0 ∧ (s.inodeTable a.ip).iRefc = 1)
    (hpc : pc = .idle ∨ pc = .writing a.ip ∧ ip.lock = some p) :
    Change N s p a.ip ip pc (s.attached.erase a) := by
  have hcount := h.refc a.ip
  have herase : (s.attached.erase a).countP (fun b => decide (b.ip = a.ip)) =
      s.attached.countP (fun b => decide (b.ip = a.ip)) - 1 := by
    rw [List.countP_erase, if_pos ⟨ha, decide_eq_true rfl⟩]
  refine ⟨fun q hq heq => ?_, ?_, fun b hb hba => ?_, fun j hj => ?_, fun hno j hj => ?_, ?_,
    fun j d n heq => ?_, fun j heq => ?_, ?_, fun _ _ _ _ heq => ?_⟩
  · rw [hlock] at heq
    exact hq (Option.some_inj.mp heq).symm
  · rw [hrefc, hcount, herase]
  · rcases hsame with ⟨hdev, hino⟩ | ⟨-, hone⟩
    · have hhold := h.holds b (List.mem_of_mem_erase hb)
      rw [hba] at hhold
      exact ⟨hdev.trans hhold.1, hino.trans hhold.2.1, hhold.2.2⟩
    · -- The last attachment has gone.
      rw [hcount] at hone
      rw [hone, Nat.sub_self, List.countP_eq_zero] at herase
      exact absurd (decide_eq_true hba) (herase b hb)
  · rw [← List.erase_filter]
    refine List.erase_of_not_mem fun hmem => hj ?_
    exact (of_decide_eq_true (List.mem_filter.mp hmem).2).symm
  · rcases hsame with ⟨hdev, hino⟩ | ⟨hino, -⟩
    · rw [← Bool.not_eq_true, carries_iff]
      rintro ⟨h₁, h₂⟩
      refine hj (h.alone a.ip j (hino ▸ hno) ?_ ?_)
      · rw [h₁, hdev]
      · rw [h₂, hino]
    · exact absurd hino hno
  · rcases hsame with ⟨-, hino⟩ | ⟨hino, -⟩
    · by_cases hi : a.ip < N
      · exact Or.inl hi
      · exact Or.inr (hino.trans (h.outside a.ip (by omega)))
    · exact Or.inr hino
  · rcases hpc with rfl | ⟨rfl, -⟩ <;> cases heq
  · rcases hpc with rfl | ⟨rfl, hl⟩ <;> cases heq
    exact ⟨rfl, hl⟩
  · rcases hpc with rfl | ⟨rfl, -⟩ <;> exact nofun
  · rcases hpc with rfl | ⟨rfl, -⟩ <;> cases heq

theorem Inv.idetach (h : Inv N s) {a : Attached} (ha : a ∈ s.attached) {sleeps : Bool}
    (hpc : (s.pc p).isIdle = true) (hlock : (s.inodeTable a.ip).lock = some p) :
    Inv N (s.idetach p a sleeps) := by
  unfold State.idetach
  simp only
  split
  · have hc := h.leave ha hlock { s.inodeTable a.ip with
      iRefc := (s.inodeTable a.ip).iRefc - 1 } rfl (Or.inl ⟨rfl, rfl⟩) (Or.inr ⟨rfl, hlock⟩)
    exact h.change hc
  · have hc := h.leave ha hlock { s.inodeTable a.ip with
      iRefc := (s.inodeTable a.ip).iRefc - 1, lock := none } rfl (Or.inl ⟨rfl, rfl⟩) (Or.inl rfl)
    have hidle : Function.update s.pc p .idle = s.pc := by
      cases hp : s.pc p with
      | idle => rw [← hp, Function.update_eq_self]
      | _ =>
        rw [hp] at hpc
        cases hpc
    have hinv := h.change hc
    rw [hidle] at hinv
    simpa only [State.iunlock, State.setInode, Function.update_self, Function.update_idem]
      using hinv

/-- **Step.** A step keeps the attachments counted and the inodes apart, unless it claims one that
    is in another place by then. -/
theorem Inv.step (h : Inv N s) {e : Event P} (hok : Calm s e) (hs : step N s e = some s') :
    Inv N s' := by
  cases e with
  | iattach p dev ino =>
    obtain ⟨-, hs⟩ := Option.ite_none_right_eq_some.mp hs
    cases hs
    exact h.find (hok.iattach p dev ino rfl)
  | inodeClone p dev =>
    obtain ⟨-, hs⟩ := Option.ite_none_right_eq_some.mp hs
    cases hs
    exact h.find (hok.inodeClone p dev rfl)
  | idetach p a sleeps =>
    obtain ⟨⟨hpc, hlock, ha⟩, hs⟩ := Option.ite_none_right_eq_some.mp hs
    cases hs
    exact h.idetach ha hpc hlock
  | resume p => exact h.resume hok hs
  | copied p fails =>
    simp only [Itable.step] at hs
    split at hs
    · rename_i i dev ino hpc
      obtain ⟨hlock, hone, hmem⟩ := h.reading p i dev ino hpc
      split at hs
      · cases hs
        have hc := h.leave hmem hlock { s.inodeTable i with
          iIno := 0, iRefc := 0, lock := none } (by rw [hone]) (Or.inr ⟨rfl, hone⟩) (Or.inl rfl)
        exact h.change hc
      · cases hs
        exact h.setPc nofun nofun nofun nofun
    · cases hs
  | written p removed =>
    simp only [Itable.step] at hs
    split at hs
    · rename_i i hpc
      cases hs
      have hlock := h.writing p i hpc
      have hidle : Inv N (s.setPc p .idle) := h.setPc nofun nofun nofun nofun
      refine hidle.setInode (i := i) rfl rfl rfl (Or.inr fun q hq => ?_)
      have hqp : q = p := Option.some_inj.mp (hq.symm.trans hlock)
      rw [hqp]
      simp only [State.setPc, Function.update_self]
      rfl
    · cases hs
  | ilock p i =>
    obtain ⟨⟨-, -, hlock⟩, hs⟩ := Option.ite_none_right_eq_some.mp hs
    cases hs
    refine h.setInode rfl rfl rfl (Or.inr fun q hq => ?_)
    cases hlock.symm.trans hq
  | iunlock p i =>
    obtain ⟨⟨hpc, hlock⟩, hs⟩ := Option.ite_none_right_eq_some.mp hs
    cases hs
    refine h.setInode rfl rfl rfl (Or.inr fun q hq => ?_)
    rw [Option.some_inj.mp (hq.symm.trans hlock)]
    exact hpc
  | time t =>
    cases hs
    exact ⟨h.refc, h.holds, h.alone, h.outside, h.reading, h.writing, h.asks, h.place⟩
  | mount i mDev =>
    cases hs
    exact h.setInode rfl rfl rfl (Or.inl rfl)

omit [DecidableEq P] in
theorem Initial.inv (h : Initial s) : Inv N s := by
  obtain ⟨htable, hpc, hatt⟩ := h
  refine ⟨fun i => ?_, fun a ha => ?_, fun i j hi => absurd (htable i).1 hi, fun i _ =>
    (htable i).1,
    fun p i dev ino hp => ?_, fun p i hp => ?_, fun p => ?_, fun p who dev ino free hp => ?_⟩
  · rw [hatt, (htable i).2.1]
    rfl
  · rw [hatt] at ha
    cases ha
  · cases (hpc p).symm.trans hp
  · cases (hpc p).symm.trans hp
  · rw [hpc p]
    exact nofun
  · cases (hpc p).symm.trans hp

/-! ### Runs -/

/-- At most one inode with a count has an identity, and its count is the number of its attachments;
    an inode that is attached has the identity that was asked for. -/
structure Faithful (s : State P) : Prop where
  unique : ∀ i j, (s.inodeTable i).iRefc ≠ 0 → (s.inodeTable j).iRefc ≠ 0 →
    (s.inodeTable j).iDev = (s.inodeTable i).iDev →
    (s.inodeTable j).iIno = (s.inodeTable i).iIno → j = i
  counted : ∀ i, (s.inodeTable i).iRefc ≠ 0 → (s.inodeTable i).iRefc =
    s.attached.countP fun a =>
      decide (a.dev = (s.inodeTable i).iDev ∧ a.ino = (s.inodeTable i).iIno)
  holds : ∀ a ∈ s.attached, (s.inodeTable a.ip).iRefc ≠ 0 ∧ (s.inodeTable a.ip).iDev = a.dev ∧
    (s.inodeTable a.ip).iIno = a.ino

omit [DecidableEq P] in
theorem Inv.faithful (h : Inv N s) : Faithful s := by
  have hcount : ∀ i, (s.inodeTable i).iRefc ≠ 0 → ∃ a ∈ s.attached, a.ip = i := by
    intro i hi
    rw [h.refc i, ← Nat.pos_iff_ne_zero, List.countP_pos_iff] at hi
    obtain ⟨a, ha, hai⟩ := hi
    exact ⟨a, ha, of_decide_eq_true hai⟩
  have hino : ∀ i, (s.inodeTable i).iRefc ≠ 0 → (s.inodeTable i).iIno ≠ 0 := by
    intro i hi
    obtain ⟨a, ha, rfl⟩ := hcount i hi
    obtain ⟨-, h₂, h₃⟩ := h.holds a ha
    exact h₂ ▸ h₃
  refine ⟨fun i j hi _ => h.alone i j (hino i hi), fun i hi => ?_, fun a ha => ?_⟩
  · rw [h.refc i]
    refine List.countP_congr fun a ha => ?_
    obtain ⟨h₁, h₂, -⟩ := h.holds a ha
    rw [decide_eq_true_eq, decide_eq_true_eq]
    constructor
    · rintro rfl
      exact ⟨h₁.symm, h₂.symm⟩
    · rintro ⟨hd, hn⟩
      exact h.alone i a.ip (hino i hi) (h₁.trans hd) (h₂.trans hn)
  · obtain ⟨h₁, h₂, -⟩ := h.holds a ha
    refine ⟨?_, h₁, h₂⟩
    rw [h.refc a.ip, ← Nat.pos_iff_ne_zero, List.countP_pos_iff]
    exact ⟨a, ha, decide_eq_true rfl⟩

/-- **Attachments.** In every run in which no inode is claimed after a sleep that is in another
    place by then, and no call asks for the number 0, at most one place has an inode, its count is
    the number of its attachments, and an attached inode stays in its place. -/
theorem reachable_attached (h : Reach Initial (step N) Calm s) : Faithful s :=
  have hinv : Inv N s := h.invariant (fun _ hs => hs.inv) fun _ _ _ hs hok hstep =>
    hs.step hok hstep
  hinv.faithful

/-- A cleared table. -/
def cleared (P : Type) : State P where
  inodeTable := fun _ => ⟨0, 0, 0, 0, 0, none, none⟩
  tTime := 0
  pc := fun _ => .idle
  attached := []

omit [DecidableEq P] in
theorem cleared_initial : Initial (cleared P) := ⟨fun _ => ⟨rfl, rfl, rfl⟩, fun _ => rfl, rfl⟩

/-- An inode that is attached. -/
theorem reachable_attached_first : ∃ s : State Unit, (s.inodeTable 0).iRefc = 1 ∧
    s.attached.countP (fun a => decide (a.dev = 1 ∧ a.ino = 9)) = 1 := by
  obtain ⟨s, hstep, hrefc, hdev, hino⟩ : ∃ s, step 2 (cleared Unit) (.iattach () 1 9) = some s ∧
      (s.inodeTable 0).iRefc = 1 ∧ (s.inodeTable 0).iDev = 1 ∧ (s.inodeTable 0).iIno = 9 :=
    ⟨_, rfl, by decide +kernel⟩
  have hok : Calm (cleared Unit) (.iattach () 1 9) := by
    refine ⟨fun p dev ino he => ?_, nofun, nofun⟩
    cases he
    decide
  have hcount := (reachable_attached ((Reach.init cleared_initial).step hok hstep)).counted 0
  rw [hrefc, hdev, hino] at hcount
  exact ⟨s, hrefc, (hcount Nat.one_ne_zero).symm⟩

/-- The first process detaches inode 3 from the second place; the second process asks for inode 9
    and sleeps for that place; the third one frees the first place and attaches inode 9 there; then
    the second one goes on. -/
def sleptForPlace : List (Event (Fin 3)) :=
  [.iattach 2 1 4, .copied 2 false, .time 1, .iattach 0 1 3, .copied 0 false,
    .idetach 0 ⟨1, 1, 3⟩ true, .iattach 1 1 9, .idetach 2 ⟨0, 1, 4⟩ false, .iattach 2 1 9,
    .copied 2 false, .written 0 false, .resume 1]

/-- **An inode in two places.** -/
theorem slept_attached_twice : ∃ s : State (Fin 3),
    Reach Initial (step 2) (fun _ _ => True) s ∧ (s.inodeTable 0).carries 1 9 = true ∧
    (s.inodeTable 1).carries 1 9 = true ∧ ¬Faithful s := by
  have hrun : (runFrom (step 2) (cleared (Fin 3)) sleptForPlace).any fun s =>
      decide ((s.inodeTable 0).iRefc = 1) && decide ((s.inodeTable 1).iRefc = 1) &&
        (s.inodeTable 0).carries 1 9 && (s.inodeTable 1).carries 1 9 := by
    decide +kernel
  obtain ⟨s, hs, h⟩ := (Option.any_eq_true _ _).mp hrun
  simp only [Bool.and_eq_true, decide_eq_true_eq] at h
  obtain ⟨⟨⟨h0, h1⟩, hc0⟩, hc1⟩ := h
  refine ⟨s, Reach.run (fun _ _ => trivial) (Reach.init cleared_initial) hs, hc0, hc1, fun hf => ?_⟩
  obtain ⟨hd0, hn0⟩ := carries_iff.mp hc0
  obtain ⟨hd1, hn1⟩ := carries_iff.mp hc1
  have heq : 1 = 0 := hf.unique 0 1 (by rw [h0]; decide) (by rw [h1]; decide)
    (hd1.trans hd0.symm) (hn1.trans hn0.symm)
  cases heq

end CohKernel.Itable
