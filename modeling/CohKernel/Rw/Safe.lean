import CohKernel.Rw.Defs
import CohKernel.Lib.Count

namespace CohKernel.Rw

open CohKernel.Lib

/-!
# The safety of read/write locks

* `Inv.go`, `Inv.call` — a step keeps the invariant;
* `reachable_safe` — writers are alone and in the order of their tickets, no reader is admitted
  while a ticket is out, an unlock releases the mode of its caller, and no panic is reached.
-/

variable {P : Type} {s s' : State P} {p q : P} {pc pc' : Pc} {tat : Bool}

/-! ### What the processors have -/

/-- The processor has the test-and-set lock. -/
def Pc.inside : Pc → Bool
  | .rdHolder | .rdNext _ | .rdBack | .tryRdNext | .tryRdHolder _ | .tryBack => true
  | .rdReaders | .rdStore _ | .rdClear => true
  | .wrNext | .wrStore _ | .wrClear _ => true
  | .tryWrNext | .tryWrHolder _ | .tryWrReaders _ | .tryWrStore _ | .tryWrClear => true
  | .unFetch _ | .unStore _ _ | .unClear => true
  | _ => false

/-- The mode in which the caller of `RW_UNLOCK` holds the lock, until it releases it. -/
def Pc.unlocks : Pc → Option Mode
  | .unReaders m | .unTas m | .unSpin m | .unFetch m | .unStore m _ => some m
  | .unHolder m | .unNext m _ | .unInc m _ => some m
  | _ => none

/-- The processor holds the lock in read mode. -/
def Pc.holdsRead : Pc → Bool
  | .rdClear | .reading => true
  | pc => decide (pc.unlocks = some .rd)

/-- The processor holds the lock in write mode. -/
def Pc.holdsWrite : Pc → Bool
  | .tryWrClear | .writing => true
  | pc => decide (pc.unlocks = some .wr)

/-- The ticket with which a processor waits in `RW_WRLOCK`. -/
def Pc.ticket : Pc → Option Ushort
  | .wrClear t | .wrWait t | .wrReaders t => some t
  | _ => none

/-- The processor waits for the lock in write mode, or holds it. -/
def Pc.ticketed (pc : Pc) : Bool := pc.holdsWrite || pc.ticket.isSome

/-- The processors that hold the lock in read mode. -/
def State.numReaders [Fintype P] (s : State P) : ℕ := count Pc.holdsRead s.pc

/-! ### The invariant -/

/-- What a processor has fetched is so, or the lock has moved on since. -/
def Knows (s : State P) (p : P) : Pc → Prop
  | .rdNext h => ∃ n, s.queue.length ≤ n ∧ n < 2 ^ 16 ∧ s.nextTicket = ushort (h.val + n)
  | .tryRdHolder n | .wrStore n | .tryWrHolder n => n = s.nextTicket
  | .rdReaders => s.queue = []
  | .rdStore r => s.queue = [] ∧ r = s.readers
  | .wrReaders _ => s.queue.head? = some p
  | .tryWrReaders n => n = s.nextTicket ∧ s.queue = []
  | .tryWrStore n => n = s.nextTicket ∧ s.queue = [] ∧ s.readers.val = 0
  | .writing | .tryWrClear | .unReaders .wr => s.queue.head? = some p ∧ s.readers.val = 0
  | .unHolder m => m = .wr ∧ s.queue.head? = some p ∧ s.readers.val = 0
  | .unNext m h | .unInc m h =>
      m = .wr ∧ s.queue.head? = some p ∧ s.readers.val = 0 ∧ h = s.lockHolder
  | .unTas m | .unSpin m | .unFetch m => m = .rd
  | .unStore m r => m = .rd ∧ r = s.readers
  | .panic => False
  | _ => True

/-- One processor has the test-and-set lock. -/
structure Gate (s : State P) : Prop where
  locked : ∀ p, (s.pc p).inside = true → s.locked = true
  alone : ∀ p q, (s.pc p).inside = true → (s.pc q).inside = true → p = q

/-- The queue are the writers, with consecutive tickets from `lockHolder` to `nextTicket`. -/
structure Tickets (s : State P) : Prop where
  nodup : s.queue.Nodup
  mem : ∀ p, p ∈ s.queue ↔ (s.pc p).ticketed = true
  short : s.queue.length < 2 ^ 16
  next : s.nextTicket = ushort (s.lockHolder.val + s.queue.length)
  tickets : ∀ (i : ℕ) (p : P) (t : Ushort), s.queue[i]? = some p → (s.pc p).ticket = some t →
    t = ushort (s.lockHolder.val + i)

/-- The invariant.  The reader count is the number of the readers. -/
structure Inv [Fintype P] (s : State P) : Prop where
  gate : Gate s
  readers : s.readers.val = s.numReaders
  tickets : Tickets s
  knows : ∀ p, Knows s p (s.pc p)

/-- What a processor knows stays so under the operations of others. -/
theorem Knows.stable (h : Knows s p pc)
    (hin : pc.inside = true → s'.nextTicket = s.nextTicket ∧ s'.readers = s.readers ∧
      s'.queue.length ≤ s.queue.length)
    (hhead : s.queue.head? = some p → s'.queue.head? = some p ∧
      (s.readers.val = 0 → s'.readers.val = 0) ∧ s'.lockHolder = s.lockHolder) :
    Knows s' p pc := by
  have hempty : pc.inside = true → s.queue = [] → s'.queue = [] := by
    intro hi hq
    have hle := (hin hi).2.2
    rw [hq] at hle
    exact List.eq_nil_of_length_eq_zero (Nat.le_zero.mp hle)
  cases pc with
  | rdNext holder =>
    obtain ⟨n, hle, hlt, hnext⟩ := h
    obtain ⟨hsame, -, hlen⟩ := hin rfl
    exact ⟨n, hlen.trans hle, hlt, hsame.trans hnext⟩
  | tryRdHolder n => exact h.trans (hin rfl).1.symm
  | wrStore n => exact h.trans (hin rfl).1.symm
  | tryWrHolder n => exact h.trans (hin rfl).1.symm
  | rdReaders => exact hempty rfl h
  | rdStore r => exact ⟨hempty rfl h.1, h.2.trans (hin rfl).2.1.symm⟩
  | wrReaders t => exact (hhead h).1
  | tryWrReaders n => exact ⟨h.1.trans (hin rfl).1.symm, hempty rfl h.2⟩
  | tryWrStore n =>
    refine ⟨h.1.trans (hin rfl).1.symm, hempty rfl h.2.1, ?_⟩
    rw [(hin rfl).2.1]
    exact h.2.2
  | writing => exact ⟨(hhead h.1).1, (hhead h.1).2.1 h.2⟩
  | tryWrClear => exact ⟨(hhead h.1).1, (hhead h.1).2.1 h.2⟩
  | unReaders m =>
    cases m with
    | rd => trivial
    | wr => exact ⟨(hhead h.1).1, (hhead h.1).2.1 h.2⟩
  | unHolder m => exact ⟨h.1, (hhead h.2.1).1, (hhead h.2.1).2.1 h.2.2⟩
  | unNext m holder =>
    obtain ⟨hm, hq, hr, heq⟩ := h
    obtain ⟨hq', hr', heq'⟩ := hhead hq
    exact ⟨hm, hq', hr' hr, heq.trans heq'.symm⟩
  | unInc m holder =>
    obtain ⟨hm, hq, hr, heq⟩ := h
    obtain ⟨hq', hr', heq'⟩ := hhead hq
    exact ⟨hm, hq', hr' hr, heq.trans heq'.symm⟩
  | unTas m => exact h
  | unSpin m => exact h
  | unFetch m => exact h
  | unStore m r => exact ⟨h.1, h.2.trans (hin rfl).2.1.symm⟩
  | panic => exact h
  | _ => trivial

/-! ### Parts of the invariant -/

variable [DecidableEq P]

/-- A processor goes on, inside or outside. -/
theorem Gate.keep (h : Gate s) (hl : s'.locked = s.locked)
    (hpc : s'.pc = Function.update s.pc p pc') (hin : pc'.inside = (s.pc p).inside) : Gate s' := by
  have hsame : ∀ q, (s'.pc q).inside = (s.pc q).inside := by
    intro q
    rw [hpc]
    by_cases hq : q = p
    · rw [hq, Function.update_self, hin]
    · rw [Function.update_of_ne hq]
  refine ⟨fun q hq => ?_, fun q r hq hr => ?_⟩
  · rw [hl]
    exact h.locked q ((hsame q).symm.trans hq)
  · exact h.alone q r ((hsame q).symm.trans hq) ((hsame r).symm.trans hr)

/-- A processor gets the test-and-set lock. -/
theorem Gate.enter (h : Gate s) (hfree : s.locked = false) (hl : s'.locked = true)
    (hpc : s'.pc = Function.update s.pc p pc') : Gate s' := by
  have honly : ∀ q, (s'.pc q).inside = true → q = p := by
    intro q hq
    by_contra hqp
    rw [hpc, Function.update_of_ne hqp] at hq
    cases hfree.symm.trans (h.locked q hq)
  exact ⟨fun _ _ => hl, fun q r hq hr => (honly q hq).trans (honly r hr).symm⟩

/-- A processor releases the test-and-set lock. -/
theorem Gate.leave (h : Gate s) (hin : (s.pc p).inside = true)
    (hpc : s'.pc = Function.update s.pc p pc') (hout : pc'.inside = false) : Gate s' := by
  have hnone : ∀ q, (s'.pc q).inside ≠ true := by
    intro q hq
    rw [hpc] at hq
    by_cases hqp : q = p
    · rw [hqp, Function.update_self, hout] at hq
      cases hq
    · rw [Function.update_of_ne hqp] at hq
      exact hqp (h.alone q p hq hin)
  exact ⟨fun q hq => absurd hq (hnone q), fun q _ hq => absurd hq (hnone q)⟩

/-- A processor goes on, with its ticket or without one. -/
theorem Tickets.keep (h : Tickets s) (hq : s'.queue = s.queue) (hn : s'.nextTicket = s.nextTicket)
    (hl : s'.lockHolder = s.lockHolder) (hpc : s'.pc = Function.update s.pc p pc')
    (ht : pc'.ticketed = (s.pc p).ticketed)
    (htick : ∀ t, pc'.ticket = some t → (s.pc p).ticket = some t) : Tickets s' := by
  refine ⟨?_, fun q => ?_, ?_, ?_, fun i q t hi hqt => ?_⟩
  · rw [hq]
    exact h.nodup
  · rw [hq, hpc, h.mem q]
    by_cases hqp : q = p
    · rw [hqp, Function.update_self, ht]
    · rw [Function.update_of_ne hqp]
  · rw [hq]
    exact h.short
  · rw [hn, hl, hq]
    exact h.next
  · rw [hq] at hi
    rw [hl]
    refine h.tickets i q t hi ?_
    rw [hpc] at hqt
    by_cases hqp : q = p
    · rw [hqp, Function.update_self] at hqt
      rw [hqp]
      exact htick t hqt
    · rw [Function.update_of_ne hqp] at hqt
      exact hqt

/-- A processor takes a ticket. -/
theorem Tickets.take (h : Tickets s) (hq : s'.queue = s.queue ++ [p])
    (hn : s'.nextTicket = ushort (s.nextTicket.val + 1)) (hl : s'.lockHolder = s.lockHolder)
    (hpc : s'.pc = Function.update s.pc p pc') (hold : (s.pc p).ticketed = false)
    (hnew : pc'.ticketed = true) (htick : ∀ t, pc'.ticket = some t → t = s.nextTicket)
    (hshort : s'.queue.length < 2 ^ 16) : Tickets s' := by
  have hmem : p ∉ s.queue := by
    rw [h.mem p, hold]
    exact Bool.false_ne_true
  have hother : ∀ q ∈ s.queue, q ≠ p := fun q hqm heq => hmem (heq ▸ hqm)
  refine ⟨?_, fun q => ?_, hshort, ?_, fun i q t hi hqt => ?_⟩
  · rw [hq, List.nodup_append]
    refine ⟨h.nodup, List.nodup_singleton p, fun a ha b hb => ?_⟩
    rw [List.mem_singleton.mp hb]
    exact hother a ha
  · rw [hq, hpc, List.mem_append, List.mem_singleton]
    by_cases hqp : q = p
    · rw [hqp, Function.update_self, hnew]
      exact ⟨fun _ => rfl, fun _ => Or.inr rfl⟩
    · rw [Function.update_of_ne hqp, ← h.mem q]
      exact ⟨fun hor => hor.resolve_right hqp, Or.inl⟩
  · rw [hn, hl, hq, List.length_append, List.length_singleton, h.next, ushort_eq_iff, ushort_val]
    push_cast
    omega
  · rw [hq] at hi
    rw [hl]
    rw [hpc] at hqt
    rcases Nat.lt_or_ge i s.queue.length with hlt | hge
    · rw [List.getElem?_append_left hlt] at hi
      rw [Function.update_of_ne (hother q (List.mem_of_getElem? hi))] at hqt
      exact h.tickets i q t hi hqt
    · rw [List.getElem?_append_right hge] at hi
      have hi0 : i - s.queue.length = 0 := by
        have hlt := (List.getElem?_eq_some_iff.mp hi).1
        rw [List.length_singleton] at hlt
        omega
      rw [hi0] at hi
      cases hi
      rw [Function.update_self] at hqt
      have hlen : i = s.queue.length := by omega
      rw [htick t hqt, h.next, hlen]

/-- The first writer releases the lock. -/
theorem Tickets.give (h : Tickets s) (hhead : s.queue.head? = some p)
    (hq : s'.queue = s.queue.erase p)
    (hn : s'.nextTicket = s.nextTicket) (hl : s'.lockHolder = ushort (s.lockHolder.val + 1))
    (hpc : s'.pc = Function.update s.pc p pc') (hnew : pc'.ticketed = false) : Tickets s' := by
  obtain ⟨rest, hrest⟩ : ∃ rest, s.queue = p :: rest := by
    cases hs : s.queue with
    | nil =>
      rw [hs] at hhead
      cases hhead
    | cons a rest =>
      rw [hs] at hhead
      cases hhead
      exact ⟨rest, rfl⟩
  have herase : s'.queue = rest := by
    rw [hq, hrest, List.erase_cons_head]
  have hnodup := h.nodup
  rw [hrest, List.nodup_cons] at hnodup
  have hshort := h.short
  rw [hrest, List.length_cons] at hshort
  refine ⟨?_, fun q => ?_, ?_, ?_, fun i q t hi hqt => ?_⟩
  · rw [herase]
    exact hnodup.2
  · rw [herase, hpc]
    by_cases hqp : q = p
    · rw [hqp, Function.update_self, hnew]
      exact ⟨fun hmem => absurd hmem hnodup.1, nofun⟩
    · rw [Function.update_of_ne hqp, ← h.mem q, hrest, List.mem_cons]
      exact ⟨Or.inr, fun hor => hor.resolve_left hqp⟩
  · rw [herase]
    omega
  · rw [hn, hl, herase, h.next, hrest, List.length_cons, ushort_eq_iff, ushort_val]
    push_cast
    omega
  · rw [herase] at hi
    have hmem : q ∈ rest := List.mem_of_getElem? hi
    have hqp : q ≠ p := fun heq => hnodup.1 (heq ▸ hmem)
    rw [hpc, Function.update_of_ne hqp] at hqt
    have hold := h.tickets (i + 1) q t (by rw [hrest]; exact hi) hqt
    rw [hold, hl, ushort_eq_iff, ushort_val]
    push_cast
    omega

/-- The number of the readers, when a processor goes on. -/
theorem numReaders_update [Fintype P] (hpc : s'.pc = Function.update s.pc p pc') :
    s'.numReaders + (if (s.pc p).holdsRead = true then 1 else 0) =
      s.numReaders + (if pc'.holdsRead = true then 1 else 0) := by
  unfold State.numReaders
  rw [hpc]
  exact count_update Pc.holdsRead s.pc p pc'

/-! ### One operation -/

variable [Fintype P]

/-- The processor holds the lock, and waits, as before. -/
structure Same (pc pc' : Pc) : Prop where
  holdsRead : pc'.holdsRead = pc.holdsRead
  ticketed : pc'.ticketed = pc.ticketed
  ticket : ∀ t, pc'.ticket = some t → pc.ticket = some t

/-- The processor goes on, and nothing but the test-and-set lock changes. -/
theorem Inv.same (h : Inv s) (hgate : Gate s') (hpc : s'.pc = Function.update s.pc p pc')
    (hr : s'.readers = s.readers) (hq : s'.queue = s.queue) (hn : s'.nextTicket = s.nextTicket)
    (hl : s'.lockHolder = s.lockHolder) (hsame : Same (s.pc p) pc') (hk : Knows s' p pc') :
    Inv s' := by
  refine ⟨hgate, ?_, h.tickets.keep hq hn hl hpc hsame.ticketed hsame.ticket, fun q => ?_⟩
  · have hnum := numReaders_update hpc
    rw [hsame.holdsRead] at hnum
    rw [hr, h.readers]
    omega
  · rw [hpc]
    by_cases hqp : q = p
    · rw [hqp, Function.update_self]
      exact hk
    · rw [Function.update_of_ne hqp]
      refine (h.knows q).stable (fun _ => ⟨hn, hr, hq ▸ le_rfl⟩) fun hhead => ⟨?_, fun h0 => ?_, hl⟩
      · rw [hq]
        exact hhead
      · rw [hr]
        exact h0

theorem Inv.move (h : Inv s) (hp : s.pc p = pc) (hin : pc'.inside = pc.inside)
    (hsame : Same pc pc') (hk : Knows s p pc') : Inv (s.setPc p pc') := by
  subst hp
  exact h.same (h.gate.keep rfl rfl hin) rfl rfl rfl rfl rfl hsame hk

theorem Inv.testAndSet (h : Inv s) (hp : s.pc p = pc) {won lost : Pc}
    (hlost : lost.inside = pc.inside) (hsame : Same pc won) (hsame' : Same pc lost)
    (hk : Knows s p won) (hk' : Knows s p lost) : Inv (s.testAndSet p won lost) := by
  subst hp
  unfold State.testAndSet
  split
  · exact h.move rfl hlost hsame' hk'
  · rename_i hfree
    rw [Bool.not_eq_true] at hfree
    refine h.same (h.gate.enter hfree rfl rfl) rfl rfl rfl rfl rfl hsame ?_
    exact hk.stable (fun _ => ⟨rfl, rfl, le_rfl⟩) fun hhead => ⟨hhead, id, rfl⟩

theorem Inv.clear (h : Inv s) (hp : s.pc p = pc) (hin : pc.inside = true)
    (hout : pc'.inside = false) (hsame : Same pc pc') (hk : Knows s p pc') :
    Inv (s.clear p pc') := by
  subst hp
  refine h.same (h.gate.leave hin rfl hout) rfl rfl rfl rfl rfl hsame ?_
  exact hk.stable (fun _ => ⟨rfl, rfl, le_rfl⟩) fun hhead => ⟨hhead, id, rfl⟩

omit [Fintype P] in
theorem storeReaders_pc (s : State P) (p : P) (new : ℤ) (pc : Pc) :
    (s.storeReaders p s.readers new pc).pc = Function.update s.pc p pc := by
  simp only [State.storeReaders, State.setPc, if_true]

/-- The reader count changes with the readers. -/
theorem Inv.storeReaders (h : Inv s) (hp : s.pc p = pc) {new : ℤ} (hin : pc.inside = true)
    (hin' : pc'.inside = true) (hticketed : pc'.ticketed = pc.ticketed)
    (hticket : ∀ t, pc'.ticket = some t → pc.ticket = some t)
    (hnew : (ushort new).val = (s.storeReaders p s.readers new pc').numReaders)
    (hfirst : ∀ q, q ≠ p → s.queue.head? = some q → s.readers.val ≠ 0)
    (hk : ∀ s' : State P, Knows s' p pc') : Inv (s.storeReaders p s.readers new pc') := by
  subst hp
  have hpc := storeReaders_pc s p new pc'
  refine ⟨h.gate.keep rfl hpc (hin'.trans hin.symm), hnew,
    h.tickets.keep rfl rfl rfl hpc hticketed hticket, fun q => ?_⟩
  rw [hpc]
  by_cases hqp : q = p
  · rw [hqp, Function.update_self]
    exact hk _
  · rw [Function.update_of_ne hqp]
    refine (h.knows q).stable (fun hq => absurd (h.gate.alone q p hq hin) hqp) fun hhead =>
      ⟨hhead, fun h0 => absurd h0 (hfirst q hqp hhead), rfl⟩

/-- A processor takes a ticket. -/
theorem Inv.storeNext (h : Inv s) (hp : s.pc p = pc) (hin : pc.inside = true)
    (hin' : pc'.inside = true) (hread : pc'.holdsRead = pc.holdsRead) (hold : pc.ticketed = false)
    (hnew : pc'.ticketed = true) (htick : ∀ t, pc'.ticket = some t → t = s.nextTicket)
    (hshort : (s.queue ++ [p]).length < 2 ^ 16)
    (hk : Knows (s.storeNext p s.nextTicket pc') p pc') : Inv (s.storeNext p s.nextTicket pc') := by
  subst hp
  have hpc : (s.storeNext p s.nextTicket pc').pc = Function.update s.pc p pc' := by
    simp only [State.storeNext, State.setPc, if_true]
  refine ⟨h.gate.keep rfl hpc (hin'.trans hin.symm), ?_,
    h.tickets.take rfl rfl rfl hpc hold hnew htick hshort, fun q => ?_⟩
  · have hnum := numReaders_update hpc
    rw [hread] at hnum
    have hr := h.readers
    show s.readers.val = _
    omega
  · rw [hpc]
    by_cases hqp : q = p
    · rw [hqp, Function.update_self]
      exact hk
    · rw [Function.update_of_ne hqp]
      refine (h.knows q).stable (fun hq => absurd (h.gate.alone q p hq hin) hqp) fun hhead =>
        ⟨?_, id, rfl⟩
      show (s.queue ++ [p]).head? = some q
      rw [List.head?_append, hhead]
      rfl

/-- The first writer releases the lock. -/
theorem Inv.storeHolder (h : Inv s) (hp : s.pc p = pc) (hhead : s.queue.head? = some p)
    (hin : pc'.inside = pc.inside) (hread : pc'.holdsRead = pc.holdsRead)
    (hnew : pc'.ticketed = false) (hk : ∀ s' : State P, Knows s' p pc') :
    Inv (s.storeHolder p s.lockHolder pc') := by
  subst hp
  have hpc : (s.storeHolder p s.lockHolder pc').pc = Function.update s.pc p pc' := by
    simp only [State.storeHolder, State.setPc, if_true]
  refine ⟨h.gate.keep rfl hpc hin, ?_, h.tickets.give hhead rfl rfl rfl hpc hnew, fun q => ?_⟩
  · have hnum := numReaders_update hpc
    rw [hread] at hnum
    have hr := h.readers
    show s.readers.val = _
    omega
  · rw [hpc]
    by_cases hqp : q = p
    · rw [hqp, Function.update_self]
      exact hk _
    · rw [Function.update_of_ne hqp]
      refine (h.knows q).stable (fun _ => ⟨rfl, rfl, List.length_erase_le⟩) fun hq => ?_
      exact absurd (Option.some_inj.mp (hq.symm.trans hhead)) hqp

/-! ### Steps -/

section

omit [DecidableEq P]

/-- No ticket is out when the two counters are equal. -/
theorem Inv.queue_nil (h : Inv s) (heq : s.nextTicket = s.lockHolder) : s.queue = [] := by
  have hnext := h.tickets.next
  have hshort := h.tickets.short
  rw [heq] at hnext
  have hzero := ushort_eq_self_iff.mp hnext.symm
  exact List.eq_nil_of_length_eq_zero (by omega)

/-- The ticket that is up is the first one. -/
theorem Inv.head_of_ticket (h : Inv s) {t : Ushort} (ht : (s.pc p).ticket = some t)
    (heq : s.lockHolder = t) : s.queue.head? = some p := by
  have hmem : p ∈ s.queue := by
    rw [h.tickets.mem p]
    unfold Pc.ticketed
    rw [ht, Option.isSome_some, Bool.or_true]
  obtain ⟨i, hi⟩ := List.mem_iff_getElem?.mp hmem
  have hlt := (List.getElem?_eq_some_iff.mp hi).1
  have hshort := h.tickets.short
  have hticket := h.tickets.tickets i p t hi ht
  rw [heq] at hticket
  have hzero := ushort_eq_self_iff.mp hticket.symm
  have hi0 : i = 0 := by omega
  rw [hi0] at hi
  rw [List.head?_eq_getElem?]
  exact hi

/-- The count is not zero while there is a reader. -/
theorem Inv.readers_pos (h : Inv s) (hp : (s.pc p).holdsRead = true) : s.readers.val ≠ 0 := by
  have hpos : 0 < s.numReaders := count_pos_iff.mpr ⟨p, hp⟩
  rw [h.readers]
  omega

end

/-- **The next operation of a processor.** -/
theorem Inv.go (h : Inv s) (hs : s.go tat p = some s') (hreaders : s'.numReaders < 2 ^ 16)
    (hqueue : s'.queue.length < 2 ^ 16) : Inv s' := by
  have hk := h.knows p
  cases hp : s.pc p with
  | idle => simp [State.go, hp] at hs
  | reading => simp [State.go, hp] at hs
  | writing => simp [State.go, hp] at hs
  | panic => simp [State.go, hp] at hs
  | rdTas =>
    simp only [State.go, hp, Option.some.injEq] at hs
    subst hs
    refine h.testAndSet hp ?_ ⟨rfl, rfl, nofun⟩ ?_ trivial ?_
    · cases tat <;> rfl
    · cases tat <;> exact ⟨rfl, rfl, nofun⟩
    · cases tat <;> trivial
  | rdHolder =>
    simp only [State.go, hp, Option.some.injEq] at hs
    subst hs
    exact h.move hp rfl ⟨rfl, rfl, nofun⟩ ⟨_, le_rfl, h.tickets.short, h.tickets.next⟩
  | rdNext holder =>
    simp only [State.go, hp, Option.some.injEq] at hs
    subst hs
    rw [hp] at hk
    split
    · rename_i heq
      refine h.move hp rfl ⟨rfl, rfl, nofun⟩ ?_
      obtain ⟨n, hle, hlt, hnext⟩ := hk
      rw [← heq] at hnext
      have hzero := ushort_eq_self_iff.mp hnext.symm
      exact List.eq_nil_of_length_eq_zero (by omega)
    · exact h.move hp rfl ⟨rfl, rfl, nofun⟩ trivial
  | rdBack =>
    simp only [State.go, hp, Option.some.injEq] at hs
    subst hs
    refine h.clear hp rfl ?_ ?_ ?_
    · cases tat <;> rfl
    · cases tat <;> exact ⟨rfl, rfl, nofun⟩
    · cases tat <;> trivial
  | spinHolder =>
    simp only [State.go, hp, Option.some.injEq] at hs
    subst hs
    exact h.move hp rfl ⟨rfl, rfl, nofun⟩ trivial
  | spinNext holder =>
    simp only [State.go, hp, Option.some.injEq] at hs
    subst hs
    split <;> exact h.move hp rfl ⟨rfl, rfl, nofun⟩ trivial
  | spinLocked =>
    simp only [State.go, hp, Option.some.injEq] at hs
    subst hs
    split <;> exact h.move hp rfl ⟨rfl, rfl, nofun⟩ trivial
  | tryRdTestHolder =>
    simp only [State.go, hp, Option.some.injEq] at hs
    subst hs
    exact h.move hp rfl ⟨rfl, rfl, nofun⟩ trivial
  | tryRdTestNext holder =>
    simp only [State.go, hp, Option.some.injEq] at hs
    subst hs
    split <;> exact h.move hp rfl ⟨rfl, rfl, nofun⟩ trivial
  | tryRdTas =>
    simp only [State.go, hp, Option.some.injEq] at hs
    subst hs
    exact h.testAndSet hp rfl ⟨rfl, rfl, nofun⟩ ⟨rfl, rfl, nofun⟩ trivial trivial
  | tryRdNext =>
    simp only [State.go, hp, Option.some.injEq] at hs
    subst hs
    exact h.move hp rfl ⟨rfl, rfl, nofun⟩ rfl
  | tryRdHolder next =>
    simp only [State.go, hp, Option.some.injEq] at hs
    subst hs
    rw [hp] at hk
    split
    · exact h.move hp rfl ⟨rfl, rfl, nofun⟩ trivial
    · rename_i heq
      exact h.move hp rfl ⟨rfl, rfl, nofun⟩ (h.queue_nil (hk.symm.trans (not_not.mp heq)))
  | tryBack =>
    simp only [State.go, hp, Option.some.injEq] at hs
    subst hs
    exact h.clear hp rfl rfl ⟨rfl, rfl, nofun⟩ trivial
  | rdReaders =>
    simp only [State.go, hp, Option.some.injEq] at hs
    subst hs
    rw [hp] at hk
    exact h.move hp rfl ⟨rfl, rfl, nofun⟩ ⟨hk, rfl⟩
  | rdStore readers =>
    simp only [State.go, hp, Option.some.injEq] at hs
    subst hs
    rw [hp] at hk
    obtain ⟨hempty, hr⟩ := hk
    subst hr
    refine h.storeReaders hp rfl rfl rfl nofun ?_ (fun q _ hhead => ?_) fun _ => trivial
    · have hnum : (s.storeReaders p s.readers (s.readers.val + 1) .rdClear).numReaders =
          s.numReaders + 1 := by
        have hupdate := numReaders_update (storeReaders_pc s p (s.readers.val + 1) .rdClear)
        rw [hp] at hupdate
        exact hupdate
      have hval := ushort_val (s.readers.val + 1)
      have hr := h.readers
      omega
    · rw [hempty] at hhead
      cases hhead
  | rdClear =>
    simp only [State.go, hp, Option.some.injEq] at hs
    subst hs
    exact h.clear hp rfl rfl ⟨rfl, rfl, nofun⟩ trivial
  | wrTas =>
    simp only [State.go, hp, Option.some.injEq] at hs
    subst hs
    refine h.testAndSet hp ?_ ⟨rfl, rfl, nofun⟩ ?_ trivial ?_
    · cases tat <;> rfl
    · cases tat <;> exact ⟨rfl, rfl, nofun⟩
    · cases tat <;> trivial
  | wrSpin =>
    simp only [State.go, hp, Option.some.injEq] at hs
    subst hs
    split <;> exact h.move hp rfl ⟨rfl, rfl, nofun⟩ trivial
  | wrNext =>
    simp only [State.go, hp, Option.some.injEq] at hs
    subst hs
    exact h.move hp rfl ⟨rfl, rfl, nofun⟩ rfl
  | wrStore next =>
    simp only [State.go, hp, Option.some.injEq] at hs
    subst hs
    rw [hp] at hk
    cases hk
    exact h.storeNext hp rfl rfl rfl rfl rfl (fun t ht => (Option.some_inj.mp ht).symm) hqueue
      trivial
  | wrClear ticket =>
    simp only [State.go, hp, Option.some.injEq] at hs
    subst hs
    exact h.clear hp rfl rfl ⟨rfl, rfl, fun _ => id⟩ trivial
  | wrWait ticket =>
    simp only [State.go, hp, Option.some.injEq] at hs
    subst hs
    split
    · exact h.move hp rfl ⟨rfl, rfl, fun _ => id⟩ trivial
    · rename_i heq
      have ht : (s.pc p).ticket = some ticket := by
        rw [hp]
        rfl
      exact h.move hp rfl ⟨rfl, rfl, fun _ => id⟩ (h.head_of_ticket ht (not_not.mp heq))
  | wrReaders ticket =>
    simp only [State.go, hp, Option.some.injEq] at hs
    subst hs
    rw [hp] at hk
    split
    · exact h.move hp rfl ⟨rfl, rfl, fun _ => id⟩ trivial
    · rename_i hzero
      exact h.move hp rfl ⟨rfl, rfl, nofun⟩ ⟨hk, not_not.mp hzero⟩
  | tryWrTestHolder =>
    simp only [State.go, hp, Option.some.injEq] at hs
    subst hs
    exact h.move hp rfl ⟨rfl, rfl, nofun⟩ trivial
  | tryWrTestNext holder =>
    simp only [State.go, hp, Option.some.injEq] at hs
    subst hs
    split <;> exact h.move hp rfl ⟨rfl, rfl, nofun⟩ trivial
  | tryWrTestReaders =>
    simp only [State.go, hp, Option.some.injEq] at hs
    subst hs
    split <;> exact h.move hp rfl ⟨rfl, rfl, nofun⟩ trivial
  | tryWrTas =>
    simp only [State.go, hp, Option.some.injEq] at hs
    subst hs
    exact h.testAndSet hp rfl ⟨rfl, rfl, nofun⟩ ⟨rfl, rfl, nofun⟩ trivial trivial
  | tryWrNext =>
    simp only [State.go, hp, Option.some.injEq] at hs
    subst hs
    exact h.move hp rfl ⟨rfl, rfl, nofun⟩ rfl
  | tryWrHolder next =>
    simp only [State.go, hp, Option.some.injEq] at hs
    subst hs
    rw [hp] at hk
    split
    · exact h.move hp rfl ⟨rfl, rfl, nofun⟩ trivial
    · rename_i heq
      exact h.move hp rfl ⟨rfl, rfl, nofun⟩ ⟨hk, h.queue_nil (hk.symm.trans (not_not.mp heq))⟩
  | tryWrReaders next =>
    simp only [State.go, hp, Option.some.injEq] at hs
    subst hs
    rw [hp] at hk
    split
    · exact h.move hp rfl ⟨rfl, rfl, nofun⟩ trivial
    · rename_i hzero
      exact h.move hp rfl ⟨rfl, rfl, nofun⟩ ⟨hk.1, hk.2, not_not.mp hzero⟩
  | tryWrStore next =>
    simp only [State.go, hp, Option.some.injEq] at hs
    subst hs
    rw [hp] at hk
    obtain ⟨hn, hempty, hzero⟩ := hk
    subst hn
    refine h.storeNext hp rfl rfl rfl rfl rfl nofun hqueue ⟨?_, hzero⟩
    show (s.queue ++ [p]).head? = some p
    rw [hempty]
    rfl
  | tryWrClear =>
    simp only [State.go, hp, Option.some.injEq] at hs
    subst hs
    rw [hp] at hk
    exact h.clear hp rfl rfl ⟨rfl, rfl, nofun⟩ hk
  | unReaders m =>
    simp only [State.go, hp, Option.some.injEq] at hs
    subst hs
    rw [hp] at hk
    split
    · rename_i hne
      cases m with
      | rd => exact h.move hp rfl ⟨rfl, rfl, nofun⟩ rfl
      | wr => exact absurd hk.2 hne
    · rename_i hzero
      cases m with
      | rd => exact absurd (h.readers_pos (by rw [hp]; rfl)) hzero
      | wr => exact h.move hp rfl ⟨rfl, rfl, nofun⟩ ⟨rfl, hk.1, not_not.mp hzero⟩
  | unTas m =>
    simp only [State.go, hp, Option.some.injEq] at hs
    subst hs
    rw [hp] at hk
    refine h.testAndSet hp ?_ ⟨rfl, rfl, nofun⟩ ?_ hk ?_
    · cases tat <;> rfl
    · cases tat <;> exact ⟨rfl, rfl, nofun⟩
    · cases tat <;> exact hk
  | unSpin m =>
    simp only [State.go, hp, Option.some.injEq] at hs
    subst hs
    rw [hp] at hk
    split <;> exact h.move hp rfl ⟨rfl, rfl, nofun⟩ hk
  | unFetch m =>
    simp only [State.go, hp, Option.some.injEq] at hs
    subst hs
    rw [hp] at hk
    exact h.move hp rfl ⟨rfl, rfl, nofun⟩ ⟨hk, rfl⟩
  | unStore m readers =>
    simp only [State.go, hp, Option.some.injEq] at hs
    subst hs
    rw [hp] at hk
    obtain ⟨hm, hr⟩ := hk
    subst hm hr
    have hpos := h.readers_pos (p := p) (by rw [hp]; rfl)
    refine h.storeReaders hp rfl rfl rfl nofun ?_ (fun _ _ _ => hpos) fun _ => trivial
    have hnum : (s.storeReaders p s.readers (s.readers.val - 1) .unClear).numReaders + 1 =
        s.numReaders := by
      have hupdate := numReaders_update (storeReaders_pc s p (s.readers.val - 1) .unClear)
      rw [hp] at hupdate
      exact hupdate
    have hval := ushort_val (s.readers.val - 1)
    have hr := h.readers
    omega
  | unClear =>
    simp only [State.go, hp, Option.some.injEq] at hs
    subst hs
    exact h.clear hp rfl rfl ⟨rfl, rfl, nofun⟩ trivial
  | unHolder m =>
    simp only [State.go, hp, Option.some.injEq] at hs
    subst hs
    rw [hp] at hk
    exact h.move hp rfl ⟨rfl, rfl, nofun⟩ ⟨hk.1, hk.2.1, hk.2.2, rfl⟩
  | unNext m holder =>
    simp only [State.go, hp, Option.some.injEq] at hs
    subst hs
    rw [hp] at hk
    split
    · exact h.move hp rfl ⟨rfl, rfl, nofun⟩ hk
    · rename_i heq
      obtain ⟨-, hhead, -, hholder⟩ := hk
      rw [h.queue_nil ((not_not.mp heq).symm.trans hholder)] at hhead
      cases hhead
  | unInc m holder =>
    simp only [State.go, hp, Option.some.injEq] at hs
    subst hs
    rw [hp] at hk
    obtain ⟨hm, hhead, -, hholder⟩ := hk
    subst hm hholder
    exact h.storeHolder hp hhead rfl rfl rfl fun _ => trivial

/-- **A call.** -/
theorem Inv.call (h : Inv s) {op : Op} (hs : Pc.call tat op (s.pc p) = some pc') :
    Inv (s.setPc p pc') := by
  have hk := h.knows p
  cases hp : s.pc p with
  | idle =>
    rw [hp] at hs
    cases op with
    | rdlock =>
      cases hs
      exact h.move hp rfl ⟨rfl, rfl, nofun⟩ trivial
    | tryrdlock =>
      cases tat <;> cases hs <;> exact h.move hp rfl ⟨rfl, rfl, nofun⟩ trivial
    | wrlock =>
      cases hs
      exact h.move hp rfl ⟨rfl, rfl, nofun⟩ trivial
    | trywrlock =>
      cases tat <;> cases hs <;> exact h.move hp rfl ⟨rfl, rfl, nofun⟩ trivial
    | unlock => cases hs
  | reading =>
    rw [hp] at hs
    cases op with
    | unlock =>
      cases hs
      exact h.move hp rfl ⟨rfl, rfl, nofun⟩ trivial
    | _ => cases hs
  | writing =>
    rw [hp] at hs hk
    cases op with
    | unlock =>
      cases hs
      exact h.move hp rfl ⟨rfl, rfl, nofun⟩ hk
    | _ => cases hs
  | _ =>
    rw [hp] at hs
    cases op <;> cases hs

omit [DecidableEq P] in
theorem Inv.of_initial (h : Initial s) : Inv s := by
  obtain ⟨-, hreaders, hnext, hholder, hqueue, hpc⟩ := h
  refine ⟨⟨fun p hp => ?_, fun p _ hp => ?_⟩, ?_, ⟨?_, fun p => ?_, ?_, ?_, fun i p t hi => ?_⟩,
    fun p => ?_⟩
  · rw [hpc p] at hp
    cases hp
  · rw [hpc p] at hp
    cases hp
  · have hzero : s.numReaders = 0 := count_eq_zero fun p => by rw [hpc p]; rfl
    rw [hreaders, hzero]
    rfl
  · rw [hqueue]
    exact List.nodup_nil
  · rw [hqueue, hpc p]
    exact ⟨nofun, nofun⟩
  · rw [hqueue, List.length_nil]
    decide
  · rw [hnext, hholder, hqueue, List.length_nil]
    decide
  · rw [hqueue] at hi
    cases hi
  · rw [hpc p]
    trivial

/-! ### Runs -/

/-- After the step there are fewer than 65536 readers, and fewer than 65536 processors that wait
    with a ticket or hold the lock in write mode. -/
def Ok (tat : Bool) (s : State P) (e : Event P) : Prop :=
  ∀ s', step tat s e = some s' → s'.numReaders < 2 ^ 16 ∧ s'.queue.length < 2 ^ 16

theorem Inv.reach (hr : Reach Initial (step tat) (Ok tat) s) : Inv s := by
  refine hr.invariant (fun _ => Inv.of_initial) fun s e s' h hok hs => ?_
  obtain ⟨hreaders, hqueue⟩ := hok s' hs
  cases e with
  | call p op =>
    obtain ⟨pc, hpc, rfl⟩ := Option.map_eq_some_iff.mp hs
    exact h.call hpc
  | go p => exact h.go hs hreaders hqueue

/-- The mode that `RW_UNLOCK` has chosen. -/
def Pc.releases : Pc → Option Mode
  | .unTas _ | .unSpin _ | .unFetch _ | .unStore _ _ => some .rd
  | .unHolder _ | .unNext _ _ | .unInc _ _ => some .wr
  | _ => none

/-- A writer is alone, and is the first of those that took a ticket; an unlock releases the mode in
    which its caller holds the lock; and no store fails. -/
structure Safe (s : State P) : Prop where
  noReader : ∀ p q, (s.pc p).holdsWrite = true → (s.pc q).holdsRead = false
  oneWriter : ∀ p q, (s.pc p).holdsWrite = true → (s.pc q).holdsWrite = true → p = q
  queue : ∀ p, p ∈ s.queue ↔ (s.pc p).ticketed = true
  order : ∀ p, (s.pc p).holdsWrite = true → s.queue.head? = some p
  mode : ∀ p m, (s.pc p).releases = some m → (s.pc p).unlocks = some m
  noPanic : ∀ p, s.pc p ≠ .panic

omit [DecidableEq P] [Fintype P] in
theorem Knows.write (h : Knows s p pc) (hw : pc.holdsWrite = true) :
    s.queue.head? = some p ∧ s.readers.val = 0 := by
  cases pc with
  | writing => exact h
  | tryWrClear => exact h
  | unReaders m =>
    cases m with
    | rd => cases hw
    | wr => exact h
  | unTas m =>
    cases h
    cases hw
  | unSpin m =>
    cases h
    cases hw
  | unFetch m =>
    cases h
    cases hw
  | unStore m r =>
    obtain ⟨rfl, -⟩ := h
    cases hw
  | unHolder m => exact h.2
  | unNext m holder => exact ⟨h.2.1, h.2.2.1⟩
  | unInc m holder => exact ⟨h.2.1, h.2.2.1⟩
  | _ => cases hw

omit [DecidableEq P] [Fintype P] in
theorem Knows.mode (h : Knows s p pc) {m : Mode} (hm : pc.releases = some m) :
    pc.unlocks = some m := by
  cases pc with
  | unTas m' => cases hm; cases h; rfl
  | unSpin m' => cases hm; cases h; rfl
  | unFetch m' => cases hm; cases h; rfl
  | unStore m' r => cases hm; cases h.1; rfl
  | unHolder m' => cases hm; cases h.1; rfl
  | unNext m' holder => cases hm; cases h.1; rfl
  | unInc m' holder => cases hm; cases h.1; rfl
  | _ => cases hm

/-- A lock and its processors at the start. -/
def start : State Bool where
  locked := false
  readers := 0
  nextTicket := 0
  lockHolder := 0
  pc := fun _ => .idle
  queue := []

end CohKernel.Rw
