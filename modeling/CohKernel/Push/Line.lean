import CohKernel.Push.Defs

namespace CohKernel.Push

open CohKernel.Lib Queue

/-!
# The queues of a stream in a line

A stream is a line of queues, one of each pair, that are linked downstream; their partners are
linked upstream.

* `Line.push` — a pair is put below a stream head;
* `Line.pop` — the pair below a stream head is taken out.
-/

variable {π : Type} {next next' : Queue π → Option (Queue π)} {l : List (Queue π)} {x y q : Queue π}
variable {h p : π}

/-! ### Lines -/

/-- A queue is linked to the one below, and the partner of that one to its own. -/
def Edge (next : Queue π → Option (Queue π)) (x y : Queue π) : Prop :=
  next x = some y ∧ next y.otherq = some x.otherq

/-- The queues of a stream from one of its ends to the other. -/
structure Line (next : Queue π → Option (Queue π)) (l : List (Queue π)) : Prop where
  chain : l.IsChain (Edge next)
  last : ∀ q ∈ l.getLast?, next q = none
  first : ∀ q ∈ l.head?, next q.otherq = none

/-- The line from the other end. -/
def turned (l : List (Queue π)) : List (Queue π) := (l.map otherq).reverse

/-- The pairs of a line. -/
def pairs (l : List (Queue π)) : List π := l.map Queue.pair

@[simp] theorem turned_turned (l : List (Queue π)) : turned (turned l) = l := by
  unfold turned
  rw [List.map_reverse, List.reverse_reverse, List.map_map]
  have hid : (otherq : Queue π → Queue π) ∘ otherq = id := funext otherq_otherq
  rw [hid, List.map_id]

@[simp] theorem pairs_turned (l : List (Queue π)) : pairs (turned l) = (pairs l).reverse := by
  unfold pairs turned
  rw [List.map_reverse, List.map_map]
  exact congrArg List.reverse (List.map_congr_left fun q _ => otherq_pair q)

/-- An edge, seen from the other end. -/
theorem edge_otherq : Edge next y.otherq x.otherq ↔ Edge next x y := by
  unfold Edge
  rw [otherq_otherq, otherq_otherq]
  exact and_comm

/-- A line is one from either end. -/
theorem Line.turned (hl : Line next l) : Line next (turned l) := by
  refine ⟨?_, ?_, ?_⟩
  · unfold Push.turned
    rw [List.isChain_reverse, List.isChain_map]
    exact hl.chain.imp fun x y hxy => edge_otherq.mpr hxy
  · intro q hq
    unfold Push.turned at hq
    rw [List.getLast?_reverse, List.head?_map] at hq
    obtain ⟨x, hx, rfl⟩ := Option.map_eq_some_iff.mp hq
    exact hl.first x hx
  · intro q hq
    unfold Push.turned at hq
    rw [List.head?_reverse, List.getLast?_map] at hq
    obtain ⟨x, hx, rfl⟩ := Option.map_eq_some_iff.mp hq
    rw [otherq_otherq]
    exact hl.last x hx

/-- Only the links of its pairs count. -/
theorem Line.congr (hl : Line next l) (hsame : ∀ q, q.pair ∈ pairs l → next' q = next q) :
    Line next' l := by
  have hmem : ∀ q ∈ l, next' q = next q ∧ next' q.otherq = next q.otherq := by
    intro q hq
    have hpair : q.pair ∈ pairs l := List.mem_map_of_mem hq
    exact ⟨hsame q hpair, hsame _ (by rwa [otherq_pair])⟩
  refine ⟨?_, ?_, ?_⟩
  · refine hl.chain.imp_of_mem_imp fun x y hx hy hxy => ⟨?_, ?_⟩
    · rw [(hmem x hx).1]
      exact hxy.1
    · rw [(hmem y hy).2]
      exact hxy.2
  · intro q hq
    rw [(hmem q (List.mem_of_getLast? hq)).1]
    exact hl.last q hq
  · intro q hq
    rw [(hmem q (List.mem_of_head? hq)).2]
    exact hl.first q hq

/-- The queues below a queue are linked from it. -/
theorem Line.linked (hl : Line next (x :: l)) : Linked next (next x) l := by
  obtain ⟨hchain, hlast, -⟩ := hl
  induction l generalizing x with
  | nil => exact hlast x rfl
  | cons y l ih =>
    obtain ⟨hxy, hchain⟩ := List.isChain_cons_cons.mp hchain
    refine ⟨hxy.1, ih hchain fun q hq => hlast q ?_⟩
    rwa [List.getLast?_cons_cons]

/-! ### A pair is put in and taken out -/

/-- Queues that are linked stay so when the partner of the first one is linked anew. -/
theorem chain_below (hchain : (q :: l).IsChain (Edge next))
    (hlast : ∀ y ∈ (q :: l).getLast?, next y = none) (hnodup : (pairs (q :: l)).Nodup)
    (hsame : ∀ y, y.pair ∈ pairs (q :: l) → y ≠ q.otherq → next' y = next y) :
    (q :: l).IsChain (Edge next') ∧ ∀ y ∈ (q :: l).getLast?, next' y = none := by
  have hq : q.pair ∉ pairs l := (List.nodup_cons.mp hnodup).1
  have hne : ∀ y ∈ l, y ≠ q := by
    rintro y hy rfl
    exact hq (List.mem_map_of_mem hy)
  have hnext : ∀ y ∈ q :: l, next' y = next y := by
    intro y hy
    refine hsame y (List.mem_map_of_mem hy) ?_
    rintro rfl
    rcases List.mem_cons.mp hy with heq | hy
    · exact otherq_ne q heq
    · apply hq
      rw [← otherq_pair q]
      exact List.mem_map_of_mem hy
  refine ⟨hchain.imp_of_mem_tail_imp fun y z hy hz hyz => ⟨?_, ?_⟩, fun y hy => ?_⟩
  · rw [hnext y hy]
    exact hyz.1
  · have hz' : z ∈ l := hz
    rw [hsame z.otherq]
    · exact hyz.2
    · rw [otherq_pair]
      exact List.mem_map_of_mem (List.mem_cons_of_mem _ hz')
    · exact fun heq => hne z hz' (otherq_inj.mp heq)
  · rw [hnext y (List.mem_of_getLast? hy)]
    exact hlast y hy

/-- **A pair is put below a stream head.** -/
theorem Line.push (hl : Line next (W h :: q :: l)) (hnodup : (pairs (W h :: q :: l)).Nodup)
    (hp : p ∉ pairs (W h :: q :: l)) (hhead : next' (W h) = some (W p))
    (hdown : next' (W p) = some q)
    (hup : next' (R p) = some (R h)) (hback : next' q.otherq = some (R p))
    (hsame : ∀ x, x.pair ≠ p → x ≠ W h → x ≠ q.otherq → next' x = next x) :
    Line next' (W h :: W p :: q :: l) := by
  have hh : h ∉ pairs (q :: l) := (List.nodup_cons.mp hnodup).1
  have hlast : ∀ y ∈ (q :: l).getLast?, next y = none := by
    intro y hy
    refine hl.last y ?_
    rwa [List.getLast?_cons_cons]
  have hsame' : ∀ y, y.pair ∈ pairs (q :: l) → y ≠ q.otherq → next' y = next y := by
    intro y hy hne
    refine hsame y ?_ ?_ hne
    · rintro rfl
      exact hp (List.mem_cons_of_mem _ hy)
    · rintro rfl
      exact hh hy
  obtain ⟨hchain, hlast⟩ := chain_below (List.isChain_cons_cons.mp hl.chain).2 hlast
    (List.nodup_cons.mp hnodup).2 hsame'
  refine ⟨?_, ?_, ?_⟩
  · exact .cons_cons ⟨hhead, hup⟩ (.cons_cons ⟨hdown, hback⟩ hchain)
  · intro y hy
    rw [List.getLast?_cons_cons, List.getLast?_cons_cons] at hy
    exact hlast y hy
  · intro y hy
    cases hy
    rw [otherq_W, hsame (R h)]
    · exact hl.first (W h) rfl
    · rintro rfl
      exact hp List.mem_cons_self
    · nofun
    · intro heq
      apply hh
      rw [show h = q.pair from (congrArg Queue.pair heq).trans (otherq_pair q)]
      exact List.mem_cons_self

/-- **The pair below a stream head is taken out.** -/
theorem Line.pop (hl : Line next (W h :: W p :: q :: l))
    (hnodup : (pairs (W h :: W p :: q :: l)).Nodup) (hhead : next' (W h) = some q)
    (hback : next' q.otherq = some (R h))
    (hsame : ∀ x, x ≠ W h → x ≠ q.otherq → next' x = next x) : Line next' (W h :: q :: l) := by
  obtain ⟨hh, hnodup⟩ := List.nodup_cons.mp hnodup
  have hlast : ∀ y ∈ (q :: l).getLast?, next y = none := by
    intro y hy
    refine hl.last y ?_
    rwa [List.getLast?_cons_cons, List.getLast?_cons_cons]
  have hsame' : ∀ y, y.pair ∈ pairs (q :: l) → y ≠ q.otherq → next' y = next y := by
    intro y hy hne
    refine hsame y ?_ hne
    rintro rfl
    exact hh (List.mem_cons_of_mem _ hy)
  have hchain := (List.isChain_cons_cons.mp (List.isChain_cons_cons.mp hl.chain).2).2
  obtain ⟨hchain, hlast⟩ := chain_below hchain hlast (List.nodup_cons.mp hnodup).2 hsame'
  refine ⟨.cons_cons ⟨hhead, hback⟩ hchain, ?_, ?_⟩
  · intro y hy
    rw [List.getLast?_cons_cons] at hy
    exact hlast y hy
  · intro y hy
    cases hy
    rw [otherq_W, hsame (R h)]
    · exact hl.first (W h) rfl
    · nofun
    · intro heq
      apply hh
      rw [show h = q.pair from (congrArg Queue.pair heq).trans (otherq_pair q)]
      exact List.mem_cons_of_mem _ List.mem_cons_self

/-! ### Modules -/

variable [DecidableEq π] {m m' : Streams π}

/-- What a push or a pop of a pair `p` changes, below a head `h` and above a queue `q`. -/
structure Effect (m m' : Streams π) (h p : π) (q : Queue π) : Prop where
  qNext : ∀ x, x.pair ≠ p → x ≠ W h → x ≠ q.otherq → m'.qNext x = m.qNext x
  procsoff : ∀ x, x.pair ≠ p → m'.procsoff x = m.procsoff x
  allocated : ∀ x, x ≠ p → m'.allocated x = m.allocated x

omit [DecidableEq π] in
theorem Effect.trans {m'' : Streams π} (he : Effect m m' h p q) (he' : Effect m' m'' h p q) :
    Effect m m'' h p q :=
  ⟨fun x hp hh hq => (he'.qNext x hp hh hq).trans (he.qNext x hp hh hq),
    fun x hp => (he'.procsoff x hp).trans (he.procsoff x hp),
    fun x hp => (he'.allocated x hp).trans (he.allocated x hp)⟩

/-- The flags of a pair are changed. -/
theorem effect_setProcs (m : Streams π) (h p : π) (q : Queue π) (off : Bool) :
    Effect m (m.setProcs p off) h p q := by
  refine ⟨fun _ _ _ _ => rfl, fun x hp => ?_, fun _ _ => rfl⟩
  show Function.update (Function.update m.procsoff (R p) off) (W p) off x = _
  rw [Function.update_of_ne, Function.update_of_ne]
  · rintro rfl
    exact hp rfl
  · rintro rfl
    exact hp rfl

theorem effect_queueAlloc (m : Streams π) (h p : π) (q : Queue π) :
    Effect m (m.queueAlloc p) h p q := by
  refine ⟨fun x hp _ _ => ?_, fun x hp => ?_, fun x hp => Function.update_of_ne hp _ _⟩
  · show Function.update (Function.update m.qNext (R p) none) (W p) none x = _
    rw [Function.update_of_ne, Function.update_of_ne]
    · rintro rfl
      exact hp rfl
    · rintro rfl
      exact hp rfl
  · exact (effect_setProcs m h p q true).procsoff x hp

/-- `PUSH_MODULE` links a pair below a stream head. -/
theorem pushLink_line (hl : Line m.qNext (W h :: q :: l)) (hnodup : (pairs (W h :: q :: l)).Nodup)
    (hp : p ∉ pairs (W h :: q :: l)) : ∃ m', m.pushLink h p = some m' ∧
      Line m'.qNext (W h :: W p :: q :: l) ∧ Effect m m' h p q ∧ m'.procsoff = m.procsoff ∧
        m'.allocated = m.allocated := by
  have hhead : m.qNext (W h) = some q := (List.isChain_cons_cons.mp hl.chain).1.1
  have hhp : h ≠ p := by
    rintro rfl
    exact hp List.mem_cons_self
  have hqp : q.pair ≠ p := by
    rintro rfl
    exact hp (List.mem_cons_of_mem _ List.mem_cons_self)
  have hqh : q.pair ≠ h := by
    rintro rfl
    exact (List.nodup_cons.mp hnodup).1 List.mem_cons_self
  have hWW : W h ≠ W p := fun heq => hhp (congrArg Queue.pair heq)
  have hne : ∀ x : Queue π, x.pair = p ∨ x.pair = h → q.otherq ≠ x := by
    rintro x hx rfl
    rw [otherq_pair] at hx
    exact hx.elim hqp hqh
  let next₁ := Function.update m.qNext (W p) (some q)
  let next₂ := Function.update next₁ (W h) (some (W p))
  let next₃ := Function.update next₂ (R p) (some (R h))
  let next₄ := Function.update next₃ q.otherq (some (R p))
  have hdown : next₂ (W p) = some q := by
    show Function.update next₁ (W h) _ (W p) = _
    rw [Function.update_of_ne hWW.symm]
    exact Function.update_self _ _ _
  have hsame : ∀ x, x.pair ≠ p → x ≠ W h → x ≠ q.otherq → next₄ x = m.qNext x := by
    intro x hxp hxh hxq
    show Function.update next₃ _ _ x = _
    rw [Function.update_of_ne hxq]
    show Function.update next₂ _ _ x = _
    rw [Function.update_of_ne (by rintro rfl; exact hxp rfl)]
    show Function.update next₁ _ _ x = _
    rw [Function.update_of_ne hxh]
    exact Function.update_of_ne (by rintro rfl; exact hxp rfl) _ _
  refine ⟨{ m with qNext := next₄ }, ?_, ?_, ⟨hsame, fun _ _ => rfl, fun _ _ => rfl⟩, rfl, rfl⟩
  · unfold Streams.pushLink Streams.setNext
    dsimp only
    rw [hhead, show Function.update next₁ (W h) (some (W p)) (W p) = some q from hdown]
  · refine hl.push hnodup hp ?_ ?_ ?_ (Function.update_self _ _ _) hsame
    · show Function.update next₃ _ _ (W h) = _
      rw [Function.update_of_ne (hne _ (.inr rfl)).symm]
      show Function.update next₂ _ _ (W h) = _
      rw [Function.update_of_ne (show W h ≠ R p from nofun)]
      exact Function.update_self _ _ _
    · show Function.update next₃ _ _ (W p) = _
      rw [Function.update_of_ne (hne _ (.inl rfl)).symm]
      show Function.update next₂ _ _ (W p) = _
      rw [Function.update_of_ne (show W p ≠ R p from nofun)]
      exact hdown
    · show Function.update next₃ _ _ (R p) = _
      rw [Function.update_of_ne (hne _ (.inl rfl)).symm]
      exact Function.update_self _ _ _

/-- `POP_AND_FREE` takes the pair below a stream head out. -/
theorem popAndFree_line (hl : Line m.qNext (W h :: W p :: q :: l))
    (hnodup : (pairs (W h :: W p :: q :: l)).Nodup) : ∃ m', m.popAndFree h p = some m' ∧
      Line m'.qNext (W h :: q :: l) ∧ Effect m m' h p q := by
  have hdown : m.qNext (W p) = some q :=
    (List.isChain_cons_cons.mp (List.isChain_cons_cons.mp hl.chain).2).1.1
  obtain ⟨hh, -⟩ := List.nodup_cons.mp hnodup
  have hqh : q.pair ≠ h := by
    rintro rfl
    exact hh (List.mem_cons_of_mem _ List.mem_cons_self)
  let next₁ := Function.update m.qNext (W h) (some q)
  let next₂ := Function.update next₁ q.otherq (some (R h))
  have hsame : ∀ x, x ≠ W h → x ≠ q.otherq → next₂ x = m.qNext x := by
    intro x hxh hxq
    show Function.update next₁ _ _ x = _
    rw [Function.update_of_ne hxq]
    exact Function.update_of_ne hxh _ _
  have hfree : ∀ x, x ≠ p → Function.update m.allocated p false x = m.allocated x :=
    fun x hx => Function.update_of_ne hx _ _
  refine ⟨⟨next₂, m.procsoff, Function.update m.allocated p false⟩, ?_, ?_,
    ⟨fun x _ => hsame x, fun _ _ => rfl, hfree⟩⟩
  · unfold Streams.popAndFree Streams.setNext Streams.queueFree
    dsimp only
    rw [Function.update_self, hdown]
  · refine hl.pop hnodup ?_ (Function.update_self _ _ _) hsame
    show Function.update next₁ _ _ (W h) = _
    rw [Function.update_of_ne]
    · exact Function.update_self _ _ _
    · intro heq
      exact hqh ((otherq_pair q).symm.trans (congrArg Queue.pair heq.symm))

/-- Both queues of a pair have the flag. -/
@[simp] theorem setProcs_self (m : Streams π) (p : π) (off : Bool) (side : Side) :
    (m.setProcs p off).procsoff ⟨p, side⟩ = off := by
  unfold Streams.setProcs
  cases side with
  | read =>
    show Function.update (Function.update m.procsoff (R p) off) (W p) off (R p) = _
    rw [Function.update_of_ne (show R p ≠ W p from nofun), Function.update_self]
  | write =>
    exact Function.update_self _ _ _

/-- At most the flags of a pair are changed. -/
structure Flags (m m' : Streams π) (p : π) : Prop where
  qNext : m'.qNext = m.qNext
  allocated : m'.allocated = m.allocated
  procsoff : ∀ x, x.pair ≠ p → m'.procsoff x = m.procsoff x

omit [DecidableEq π] in
theorem Flags.effect (hf : Flags m m' p) (h : π) (q : Queue π) : Effect m m' h p q :=
  ⟨fun _ _ _ _ => by rw [hf.qNext], hf.procsoff, fun _ _ => by rw [hf.allocated]⟩

omit [DecidableEq π] in
theorem Flags.refl (m : Streams π) (p : π) : Flags m m p := ⟨rfl, rfl, fun _ _ => rfl⟩

theorem flags_setProcs (m : Streams π) (p : π) (off : Bool) : Flags m (m.setProcs p off) p :=
  ⟨rfl, rfl, (effect_setProcs m p p (R p) off).procsoff⟩

/-- Both queues of a pair are on, or both are off. -/
def Even (m : Streams π) (p : π) : Prop := ∀ side, m.procsoff ⟨p, side⟩ = m.procsoff (R p)

theorem openModule_flags (hm : Even m p) (enabled : Bool) :
    Flags m (m.openModule p enabled) p ∧ Even (m.openModule p enabled) p := by
  cases enabled with
  | true => exact ⟨flags_setProcs m p false, fun side => (setProcs_self m p false side).trans
      (setProcs_self m p false .read).symm⟩
  | false => exact ⟨Flags.refl m p, hm⟩

theorem afterFailure_flags (m : Streams π) (p : π) : Flags m (m.afterFailure p) p := by
  unfold Streams.afterFailure
  split_ifs
  · exact Flags.refl m p
  · exact flags_setProcs m p false

/-- The queues of a module that has been opened are on. -/
theorem afterOpen_flags (hm : Even m p) :
    Flags m (m.afterOpen p) p ∧ ∀ side, (m.afterOpen p).procsoff ⟨p, side⟩ = false := by
  unfold Streams.afterOpen
  split_ifs with hoff
  · exact ⟨flags_setProcs m p false, setProcs_self m p false⟩
  · exact ⟨Flags.refl m p, fun side => (hm side).trans (Bool.eq_false_of_not_eq_true hoff)⟩

/-- `PUSH_MODULE` puts a pair below a stream head, unless the module's `open` fails. -/
theorem pushModule_line (hl : Line m.qNext (W h :: q :: l)) (hnodup : (pairs (W h :: q :: l)).Nodup)
    (hp : p ∉ pairs (W h :: q :: l)) (retval : ℕ) (enabled : Bool) :
    ∃ m', m.pushModule h p retval enabled = some m' ∧ Effect m m' h p q ∧
      (retval ≠ 0 → Line m'.qNext (W h :: q :: l)) ∧
      (retval = 0 → Line m'.qNext (W h :: W p :: q :: l) ∧ m'.allocated p = true ∧
        ∀ side, m'.procsoff ⟨p, side⟩ = false) := by
  have hl₀ : Line (m.queueAlloc p).qNext (W h :: q :: l) := by
    refine hl.congr fun x hx => ?_
    have hxp : x.pair ≠ p := by
      rintro rfl
      exact hp hx
    show Function.update (Function.update m.qNext (R p) none) (W p) none x = _
    rw [Function.update_of_ne (by rintro rfl; exact hxp rfl),
      Function.update_of_ne (by rintro rfl; exact hxp rfl)]
  obtain ⟨m₁, hlink, hl₁, he₁, hprocs, hallocated⟩ := pushLink_line hl₀ hnodup hp
  have heven : Even m₁ p := by
    unfold Even
    rw [hprocs]
    exact fun side => (setProcs_self _ p true side).trans (setProcs_self _ p true .read).symm
  obtain ⟨hf₂, heven⟩ := openModule_flags heven enabled
  have hl₂ : Line (m₁.openModule p enabled).qNext (W h :: W p :: q :: l) := by
    rw [hf₂.qNext]
    exact hl₁
  have he₂ := ((effect_queueAlloc m h p q).trans he₁).trans (hf₂.effect h q)
  unfold Streams.pushModule
  rw [hlink]
  by_cases hretval : retval = 0
  · obtain ⟨hf, hon⟩ := afterOpen_flags heven
    refine ⟨_, if_neg (not_not.mpr hretval), he₂.trans (hf.effect h q),
      fun hne => absurd hretval hne, fun _ => ⟨?_, ?_, hon⟩⟩
    · rw [hf.qNext]
      exact hl₂
    · rw [hf.allocated, hf₂.allocated, hallocated]
      exact Function.update_self _ _ _
  · have hf := afterFailure_flags (m₁.openModule p enabled) p
    have hl₃ : Line ((m₁.openModule p enabled).afterFailure p).qNext (W h :: W p :: q :: l) := by
      rw [hf.qNext]
      exact hl₂
    have hnodup' : (pairs (W h :: W p :: q :: l)).Nodup := by
      have hcons : (p :: pairs (W h :: q :: l)).Nodup := List.nodup_cons.mpr ⟨hp, hnodup⟩
      exact (List.Perm.swap h p _).nodup_iff.mp hcons
    obtain ⟨m', hpop, hline, he⟩ := popAndFree_line hl₃ hnodup'
    exact ⟨m', (if_pos hretval).trans hpop, (he₂.trans (hf.effect h q)).trans he, fun _ => hline,
      fun heq => absurd heq hretval⟩

/-- `POP_MODULE` takes the pair below a stream head out. -/
theorem popModule_line (hl : Line m.qNext (W h :: W p :: q :: l))
    (hnodup : (pairs (W h :: W p :: q :: l)).Nodup) : ∃ m', m.popModule h p = some m' ∧
      Line m'.qNext (W h :: q :: l) ∧ Effect m m' h p q := by
  have hl' : Line (m.qprocsoff p).qNext (W h :: W p :: q :: l) := hl
  obtain ⟨m', hpop, hline, he⟩ := popAndFree_line hl' hnodup
  exact ⟨m', hpop, hline, (effect_setProcs m h p q true).trans he⟩

end CohKernel.Push
