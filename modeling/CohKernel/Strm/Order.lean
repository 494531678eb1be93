import CohKernel.Lib.Runs
import CohKernel.Strm.Effect

namespace CohKernel.Strm

open CohKernel.Lib

/-!
# The order of the messages

A queue over a run of calls.  The messages that `putq` puts are numbered, and the numbers of those
that `getq` returns, and of those that are removed or flushed, are recorded.

* `order_kept` — a queue on which no ordinary message of a band is queued keeps its messages linked
  and in order, and returns those of a kind in the order in which they were put;
* `band_halts` — an ordinary message of a band stops the kernel.
-/

variable {μ : Type} [DecidableEq μ] [Fintype μ]

/-! ### Runs -/

/-- The priority class of a message: `none` for high-priority messages, or else its band. -/
def Msgb.kind (m : Msgb) : Option UInt8 := if pcmsg m.dbType then none else some m.bBand

/-- The classes of the messages that have been put with `putq`, in order; the number of each message
    whose last call was `putq`; and the numbers of the messages that `getq` has returned, and that
    have been removed or flushed. -/
structure Log (μ : Type) where
  puts : List (Option UInt8)
  ticket : μ → Option ℕ
  got : List ℕ
  taken : List ℕ

/-- Nothing has been put. -/
def Log.empty : Log μ := ⟨[], fun _ => none, [], []⟩

/-- A message has no number. -/
def Log.forget (l : Log μ) (mp : μ) : Log μ := { l with ticket := Function.update l.ticket mp none }

/-- A message gets the next number. -/
def Log.number (l : Log μ) (mp : μ) (k : Option UInt8) : Log μ :=
  { l with ticket := Function.update l.ticket mp (some l.puts.length), puts := l.puts ++ [k] }

/-- What is recorded of a call, with the messages before and after it. -/
def Log.record (l : Log μ) (before after : List μ) : Event μ → Log μ
  | .putq mp m _ => if mp ∈ after then l.number mp m.kind else l
  | .putbq mp _ _ | .insq _ mp _ _ => l.forget mp
  | .getq => { l with got := l.got ++ (before.head?.bind l.ticket).toList }
  | .rmvq mp => { l with taken := l.taken ++ (l.ticket mp).toList }
  | .flushq _ | .flushband _ _ =>
      { l with taken := l.taken ++ (before.filter fun mp => decide (mp ∉ after)).filterMap l.ticket
        }
  | _ => l

/-- A queue in a run: whether its caller has it frozen, what has stopped the kernel, and what has
    been recorded. -/
structure Sys (μ : Type) where
  q : Queue μ
  held : Bool
  halted : Option Halt
  log : Log μ

/-- A call, as long as the kernel runs. -/
def Sys.step (s : Sys μ) (e : Event μ) : Option (Sys μ) :=
  if s.halted.isSome || !s.q.allowed s.held e then none
  else
    match s.q.exec e with
    | .error h => some { s with halted := some h }
    | .ok r =>
        some { s with q := r.q, held := e.holds s.held, log := s.log.record s.q.chain r.q.chain e }

/-- An empty queue without bands. -/
structure Sys.Initial (s : Sys μ) : Prop where
  empty : s.q.link.Holds []
  bandp : s.q.qBandp = none
  nband : s.q.qNband = 0
  locked : s.q.qLocked = false
  held : s.held = false
  halted : s.halted = none
  log : s.log = .empty

/-- A queue with a service procedure, as it is allocated and enabled. -/
def Queue.fresh (μ : Type) (hiwat lowat : UInt32) : Queue μ :=
  { link := .empty, msg := fun _ => ⟨0, 0, []⟩, qiSrvp := true, qCount := 0, qHiwat := hiwat
    qLowat := lowat, qMinpsz := 0, qMaxpsz := 0, qenab := false, qwantr := true, qwantw := false
    qfull := false, qnoenb := false, qback := false, qprocsoff := false, qdrain := false
    qLastband := 0, qBandp := none, qNband := 0, band := fun _ => .zero μ none, bands := 0
    qLocked := false }

/-- The start of a run. -/
def Sys.start (μ : Type) : Sys μ := ⟨.fresh μ 512 0, false, none, .empty⟩

section

omit [DecidableEq μ] [Fintype μ]

theorem Sys.start_initial : (Sys.start μ).Initial :=
  ⟨Deque.holds_empty, rfl, rfl, rfl, rfl, rfl, rfl⟩

/-! ### What is kept -/

/-- The order of the messages. -/
def Queue.rank (q : Queue μ) (mp : μ) : ℕ := if q.isPri mp then 256 else (q.msg mp).bBand.toNat

/-- The messages of a band. -/
def Queue.ofBand (q : Queue μ) (pri : UInt8) (ms : List μ) : List μ :=
  ms.filter fun mp => !q.isPri mp && decide ((q.msg mp).bBand = pri)

/-- The messages `ms` are linked both ways, the high-priority messages first and then the bands from
    above; and each band points at its first and at its last message. -/
structure Queue.Ordered (q : Queue μ) (ms : List μ) : Prop where
  holds : q.link.Holds ms
  order : ms.Pairwise fun x y => q.rank y ≤ q.rank x
  unbanded : ∀ pri, pri ≠ 0 → q.queueBand pri = none → q.ofBand pri ms = []
  ends : ∀ pri b, pri ≠ 0 → q.queueBand pri = some b →
    (q.band b).qbFirst = (q.ofBand pri ms).head? ∧ (q.band b).qbLast = (q.ofBand pri ms).getLast?

/-- Each message that `putq` has put has been returned once, or removed or flushed once, or is on
    the queue once; and those of a class that have been returned, and those on the queue behind
    them, are in the order in which they were put. -/
structure Log.Fifo (l : Log μ) (msg : μ → Msgb) (ms : List μ) : Prop where
  once : (List.range l.puts.length).Perm (l.got ++ l.taken ++ ms.filterMap l.ticket)
  order : ∀ k, ((l.got ++ ms.filterMap l.ticket).filter fun t =>
    decide (l.puts[t]? = some k)).Pairwise (· < ·)
  kind : ∀ mp ∈ ms, ∀ t, l.ticket mp = some t → l.puts[t]? = some (msg mp).kind

/-- The kernel runs, and the messages are in order. -/
def Sys.Sound (s : Sys μ) : Prop :=
  s.halted = none ∧ ∃ ms, s.q.Ordered ms ∧ s.log.Fifo s.q.msg ms

/-- Where the calls do not reach the code of the bands. -/
structure Sys.Inv (s : Sys μ) (ms : List μ) : Prop where
  halted : s.halted = none
  plain : s.q.core.Plain ms
  bandless : s.q.Bandless
  locked : s.q.qLocked = s.held
  fifo : s.log.Fifo s.q.msg ms

/-- Without bands the high-priority messages need only be first. -/
theorem Queue.Ordered.of_plain {q : Queue μ} {ms : List μ} (h : q.core.Plain ms)
    (hq : q.qBandp = none) : q.Ordered ms := by
  refine ⟨h.holds, ?_, ?_, ?_⟩
  · refine h.ordered.imp_of_mem ?_
    intro x y hx hy hxy
    have hrank : ∀ z ∈ ms, q.rank z = if q.isPri z then 256 else 0 := by
      intro z hz
      have hband : (q.msg z).bBand = 0 := h.band z hz
      unfold Queue.rank
      rw [hband]
      rfl
    rw [hrank x hx, hrank y hy]
    cases hpri : q.isPri y with
    | false => exact Nat.zero_le _
    | true =>
      have hx' : q.isPri x = true := hxy hpri
      rw [hx']
  · intro pri hpri _
    refine List.filter_eq_nil_iff.mpr fun x hx => ?_
    have hband : (q.msg x).bBand = 0 := h.band x hx
    rw [hband]
    simp [hpri.symm]
  · intro pri b _ hb
    rw [Queue.queueBand_none hq] at hb
    cases hb

theorem Sys.Inv.sound {s : Sys μ} {ms : List μ} (h : s.Inv ms) : s.Sound :=
  ⟨h.halted, ms, .of_plain h.plain h.bandless.bandp, h.fifo⟩

end

/-! ### The numbers -/

section Fifo

variable {l : Log μ} {msg msg' : μ → Msgb} {ms ms' a b : List μ} {mp : μ}

omit [DecidableEq μ] [Fintype μ] in
theorem filterMap_toList (f : μ → Option ℕ) (x : μ) (ms : List μ) :
    (x :: ms).filterMap f = (f x).toList ++ ms.filterMap f := by
  cases h : f x with
  | none => rw [List.filterMap_cons_none h]; rfl
  | some t => rw [List.filterMap_cons_some h]; rfl

omit [DecidableEq μ] [Fintype μ] in
/-- The numbers are those of messages that have been put. -/
theorem Log.Fifo.lt (h : l.Fifo msg ms) {t : ℕ} (ht : t ∈ l.got ++ ms.filterMap l.ticket) :
    t < l.puts.length := by
  apply List.mem_range.mp
  apply h.once.mem_iff.mpr
  rcases List.mem_append.mp ht with ht | ht
  · exact List.mem_append_left _ (List.mem_append_left _ ht)
  · exact List.mem_append_right _ ht

omit [Fintype μ] in
/-- The number of a message that is not on the queue changes. -/
theorem filterMap_update {ticket : μ → Option ℕ} (hmp : mp ∉ ms) (t : Option ℕ) :
    ms.filterMap (Function.update ticket mp t) = ms.filterMap ticket := by
  apply List.filterMap_congr
  intro x hx
  exact Function.update_of_ne (ne_of_mem_of_not_mem hx hmp) _ _

omit [Fintype μ] in
/-- A message that is not on the queue, or is put by another call than `putq`, has no number. -/
theorem Log.Fifo.unnumbered (h : l.Fifo msg (a ++ b)) (hmp : mp ∉ a ++ b)
    (hms : ms' = a ++ b ∨ ms' = a ++ mp :: b)
    (hmsg : ∀ x ∈ a ++ b, (msg' x).kind = (msg x).kind) :
    (l.forget mp).Fifo msg' ms' := by
  have hsame : ms'.filterMap (Function.update l.ticket mp none) = (a ++ b).filterMap l.ticket := by
    rcases hms with rfl | rfl
    · exact filterMap_update hmp none
    · rw [List.filterMap_append, List.filterMap_cons, Function.update_self,
        ← List.filterMap_append]
      exact filterMap_update hmp none
  refine ⟨?_, ?_, ?_⟩
  · show (List.range l.puts.length).Perm
      (l.got ++ l.taken ++ ms'.filterMap (Function.update l.ticket mp none))
    rw [hsame]
    exact h.once
  · intro k
    show ((l.got ++ ms'.filterMap (Function.update l.ticket mp none)).filter _).Pairwise _
    rw [hsame]
    exact h.order k
  · intro x hx t (ht : Function.update l.ticket mp none x = some t)
    have hne : x ≠ mp := by
      rintro rfl
      rw [Function.update_self] at ht
      cases ht
    have hx' : x ∈ a ++ b := by
      rcases hms with rfl | rfl
      · exact hx
      · exact (List.mem_cons.mp (List.perm_middle.mem_iff.mp hx)).resolve_left hne
    rw [Function.update_of_ne hne] at ht
    rw [hmsg x hx']
    exact h.kind x hx' t ht

omit [DecidableEq μ] [Fintype μ] in
/-- Some of the messages leave the queue, and their numbers are recorded. -/
theorem Log.Fifo.leave (h : l.Fifo msg ms) (got taken : List ℕ)
    (honce : (l.got ++ l.taken ++ ms.filterMap l.ticket).Perm
      (got ++ taken ++ ms'.filterMap l.ticket))
    (horder : (got ++ ms'.filterMap l.ticket).Sublist (l.got ++ ms.filterMap l.ticket))
    (hsub : ∀ x ∈ ms', x ∈ ms) :
    ({ l with got := got, taken := taken } : Log μ).Fifo msg ms' :=
  ⟨h.once.trans honce, fun k => (h.order k).sublist (horder.filter _),
    fun x hx t ht => h.kind x (hsub x hx) t ht⟩

omit [Fintype μ] in
/-- `putq` puts a message behind those of its class. -/
theorem Log.Fifo.put {m : Msgb} (h : l.Fifo msg (a ++ b)) (hmp : mp ∉ a ++ b)
    (hmsg : ∀ x ∈ a ++ b, (msg' x).kind = (msg x).kind) (hkind : (msg' mp).kind = m.kind)
    (hlast : ∀ x ∈ b, (msg x).kind ≠ m.kind) :
    (l.number mp m.kind).Fifo msg' (a ++ mp :: b) := by
  have hnumbers : (a ++ mp :: b).filterMap (Function.update l.ticket mp (some l.puts.length)) =
      a.filterMap l.ticket ++ l.puts.length :: b.filterMap l.ticket := by
    rw [List.filterMap_append, List.filterMap_cons, Function.update_self,
      filterMap_update fun hx => hmp (List.mem_append_left b hx),
      filterMap_update fun hx => hmp (List.mem_append_right a hx)]
  have hold : ∀ t, t < l.puts.length → (l.puts ++ [m.kind])[t]? = l.puts[t]? := fun t ht =>
    List.getElem?_append_left ht
  have hnew : (l.puts ++ [m.kind])[l.puts.length]? = some m.kind := List.getElem?_concat_length
  refine ⟨?_, ?_, ?_⟩
  · show (List.range (l.puts ++ [m.kind]).length).Perm
      (l.got ++ l.taken ++ (a ++ mp :: b).filterMap (Function.update l.ticket mp _))
    have honce := h.once
    rw [List.filterMap_append] at honce
    rw [hnumbers, List.length_append, List.length_singleton, List.range_succ, ← List.append_assoc]
    rw [← List.append_assoc] at honce
    exact (List.perm_append_singleton _ _).trans ((honce.cons _).trans List.perm_middle.symm)
  · intro k
    show ((l.got ++ (a ++ mp :: b).filterMap (Function.update l.ticket mp _)).filter fun t =>
      decide ((l.puts ++ [m.kind])[t]? = some k)).Pairwise _
    have horder := h.order k
    have hfilter : ∀ ts : List ℕ, (∀ t ∈ ts, t < l.puts.length) →
        (ts.filter fun t => decide ((l.puts ++ [m.kind])[t]? = some k)) =
          ts.filter fun t => decide (l.puts[t]? = some k) := by
      intro ts hts
      apply List.filter_congr
      intro t ht
      rw [hold t (hts t ht)]
    rw [List.filterMap_append, ← List.append_assoc] at horder
    have hlt : ∀ t ∈ l.got ++ a.filterMap l.ticket ++ b.filterMap l.ticket, t < l.puts.length := by
      rw [List.append_assoc, ← List.filterMap_append]
      exact fun t => h.lt
    have hltA := fun t ht => hlt t (List.mem_append_left _ ht)
    have hltB := fun t ht => hlt t (List.mem_append_right _ ht)
    rw [hnumbers, ← List.append_assoc, List.filter_append, List.filter_cons, hnew, hfilter _ hltA,
      hfilter _ hltB]
    rw [List.filter_append] at horder
    by_cases hk : m.kind = k
    · -- no message of its class is behind it
      have hnone : (b.filterMap l.ticket).filter (fun t => decide (l.puts[t]? = some k)) = [] := by
        refine List.filter_eq_nil_iff.mpr fun t ht => ?_
        obtain ⟨x, hx, hxt⟩ := List.mem_filterMap.mp ht
        rw [h.kind x (List.mem_append_right a hx) t hxt, ← hk]
        simpa using hlast x hx
      rw [hnone, List.append_nil] at horder
      rw [hnone, if_pos (by simp [hk])]
      refine List.pairwise_append.mpr ⟨horder, List.pairwise_singleton _ _, ?_⟩
      intro t ht t' ht'
      rw [List.mem_singleton.mp ht']
      exact hltA t (List.mem_filter.mp ht).1
    · rw [if_neg (by simp [hk])]
      exact horder
  · intro x hx t (ht : Function.update l.ticket mp (some l.puts.length) x = some t)
    show (l.puts ++ [m.kind])[t]? = _
    by_cases he : x = mp
    · subst he
      rw [Function.update_self] at ht
      cases ht
      rw [hnew, hkind]
    · have hx' : x ∈ a ++ b := (List.mem_cons.mp (List.perm_middle.mem_iff.mp hx)).resolve_left he
      rw [Function.update_of_ne he] at ht
      have hk := h.kind x hx' t ht
      obtain ⟨hlt, -⟩ := List.getElem?_eq_some_iff.mp hk
      rw [hold t hlt, hk, hmsg x hx']

end Fifo

/-! ### Runs without bands -/

section Runs

variable {s s' : Sys μ} {c c' : Core μ} {l : Log μ} {ms ms' : List μ} {e : Event μ}

omit [DecidableEq μ] [Fintype μ] in
/-- High-priority messages and others are of different classes. -/
theorem Msgb.kind_ne {m m' : Msgb} (h : pcmsg m.dbType ≠ pcmsg m'.dbType) : m.kind ≠ m'.kind := by
  unfold Msgb.kind
  cases hm : pcmsg m.dbType <;> cases hm' : pcmsg m'.dbType <;> simp_all

omit [DecidableEq μ] [Fintype μ] in
theorem Msgb.kind_toBase {m : Msgb} (h : pcmsg m.dbType = true ∨ m.bBand = 0) :
    m.toBase.kind = m.kind := by
  show (if pcmsg m.dbType = true then none else some 0) = if pcmsg m.dbType = true then none else _
  rcases h with h | h
  · rw [if_pos h, if_pos h]
  · rw [h]

omit [Fintype μ] in
/-- **What a call records** keeps the numbers in order. -/
theorem Effect.fifo (heffect : Effect c ms e c' ms') (h : l.Fifo c.msg ms) :
    (l.record ms ms' e).Fifo c'.msg ms' := by
  cases heffect with
  | @put a b mp m hput hms hmp hkind hplaced =>
    subst hms
    have hmsg : (c.put a mp b m).msg = Function.update c.msg mp m.toBase := Core.charge_msg _ _
    have hsame : ∀ x ∈ a ++ b, ((c.put a mp b m).msg x).kind = (c.msg x).kind := by
      intro x hx
      rw [hmsg, Function.update_of_ne (ne_of_mem_of_not_mem hx hmp)]
    cases e with
    | putq mp' m' alloc =>
      cases hput
      have hmem : mp ∈ a ++ mp :: b := List.mem_append_right a List.mem_cons_self
      show (if mp ∈ a ++ mp :: b then l.number mp m.kind else l).Fifo _ _
      rw [if_pos hmem]
      refine h.put hmp hsame ?_ fun x hx => Msgb.kind_ne ?_
      · rw [hmsg, Function.update_self]
        exact Msgb.kind_toBase hkind
      · have hlast := hplaced.last ⟨m, alloc, rfl⟩ x hx
        rw [Core.isPri_fill] at hlast
        have hx' : (c.fill mp m.toBase).isPri x = pcmsg (c.msg x).dbType := by
          have hne := ne_of_mem_of_not_mem (List.mem_append_right a hx) hmp
          show pcmsg (Function.update c.msg mp m.toBase x).dbType = _
          rw [Function.update_of_ne hne]
        rw [hx'] at hlast
        exact hlast
    | putbq mp' m' alloc =>
      cases hput
      exact h.unnumbered hmp (.inr rfl) hsame
    | insq emp mp' m' alloc =>
      cases hput
      exact h.unnumbered hmp (.inr rfl) hsame
    | _ => cases hput
  | @refuse mp m m' p n hput hmp hne =>
    have hsame : ∀ x ∈ ms ++ [], (Function.update c.msg mp m' x).kind = (c.msg x).kind := by
      intro x hx
      rw [List.append_nil] at hx
      rw [Function.update_of_ne (ne_of_mem_of_not_mem hx hmp)]
    rw [← List.append_nil ms] at h hmp
    cases e with
    | putq mp' m' alloc =>
      cases hput
      exact absurd rfl (hne m alloc)
    | putbq mp' m' alloc =>
      cases hput
      exact h.unnumbered hmp (.inl (List.append_nil ms).symm) hsame
    | insq emp mp' m' alloc =>
      cases hput
      exact h.unnumbered hmp (.inl (List.append_nil ms).symm) hsame
    | _ => cases hput
  | @take a b mp htakes hms =>
    subst hms
    rw [Core.discharge_msg]
    cases e with
    | getq =>
      obtain rfl : a = [] := htakes
      refine h.leave (l.got ++ (l.ticket mp).toList) l.taken ?_ ?_ fun x hx =>
        List.mem_cons_of_mem mp hx
      · rw [List.nil_append, List.nil_append, filterMap_toList, List.append_assoc,
          List.append_assoc,
          List.append_assoc]
        exact (List.perm_append_comm_assoc _ _ _).append_left _
      · rw [List.nil_append, List.nil_append, filterMap_toList, List.append_assoc]
    | rmvq mp' =>
      obtain rfl : mp = mp' := htakes.symm
      refine h.leave l.got (l.taken ++ (l.ticket mp).toList) ?_ ?_ fun x hx => ?_
      · rw [List.filterMap_append, filterMap_toList, List.filterMap_append, List.append_assoc,
          List.append_assoc, List.append_assoc]
        exact ((List.perm_append_comm_assoc _ _ _).append_left _).append_left _
      · exact (((List.sublist_cons_self mp b).append_left a).filterMap _).append_left _
      · exact ((List.sublist_cons_self mp b).append_left a).mem hx
    | _ => exact htakes.elim
  | @flush all link hflush _ =>
    rw [Core.shrink_msg]
    have hgone : (ms.filter fun mp => decide (mp ∉ ms.filter (c.spares all))) =
        ms.filter fun mp => !c.spares all mp := by
      apply List.filter_congr
      intro x hx
      cases hspares : c.spares all x with
      | true => simp [List.mem_filter, hx, hspares]
      | false => simp [List.mem_filter, hspares]
    have hrecord : l.record ms (ms.filter (c.spares all)) e = { l with
        taken := l.taken ++ (ms.filter fun mp => !c.spares all mp).filterMap l.ticket } := by
      rw [← hgone]
      cases e with
      | flushq all' => rfl
      | flushband pri all' => rfl
      | _ => cases hflush
    rw [hrecord]
    refine h.leave l.got _ ?_ ?_ fun x hx => (List.mem_filter.mp hx).1
    · rw [List.append_assoc, List.append_assoc, List.append_assoc, ← List.filterMap_append]
      refine (((List.Perm.trans ?_ List.perm_append_comm).filterMap _).append_left _).append_left _
      exact (List.filter_append_perm _ _).symm
    · exact (List.filter_sublist.filterMap _).append_left _
  | tune hputs hget hflush hrmvq =>
    rw [(c.tune_same e).2]
    cases e with
    | putq | putbq | insq => cases hputs
    | rmvq mp => exact absurd rfl (hrmvq mp)
    | flushq all => cases hflush
    | getq =>
      obtain rfl := hget rfl
      show ({ l with got := l.got ++ [] } : Log μ).Fifo _ _
      rw [List.append_nil]
      exact h
    | flushband pri all =>
      have hgone : (ms.filter fun mp => decide (mp ∉ ms)) = [] :=
        List.filter_eq_nil_iff.mpr fun x hx => by simpa using hx
      show ({ l with taken := l.taken ++ (ms.filter fun mp => decide (mp ∉ ms)).filterMap l.ticket
        } :
        Log μ).Fifo _ _
      rw [hgone, List.filterMap_nil, List.append_nil]
      exact h
    | _ => exact h

/-- A call that does not reach the code of the bands keeps the messages in order, and has its
    effect. -/
theorem Sys.Inv.step (h : s.Inv ms) (hreg : s.q.regular e = true) (hstep : s.step e = some s') :
    ∃ c' ms', Effect s.q.core ms e c' ms' ∧ { s'.q.core with back := c'.back } = c' ∧
      s'.Inv ms' := by
  obtain ⟨hrun, hstep⟩ := Option.ite_none_left_eq_some.mp hstep
  have hall : s.q.allowed s.held e = true := by
    cases hall : s.q.allowed s.held e with
    | true => rfl
    | false => exact absurd (by rw [hall, Bool.not_false, Bool.or_true]) hrun
  obtain ⟨r, c', ms', hexec, heffect, hleaves⟩ :=
    Queue.exec_effect h.bandless h.plain h.locked hall hreg
  rw [hexec] at hstep
  cases hstep
  have hplain := heffect.plain h.plain
  have hlink : r.q.link = c'.link := congrArg Core.link hleaves.core
  have hmsg : r.q.msg = c'.msg := congrArg Core.msg hleaves.core
  have hchain : s.q.chain = ms := Queue.chain_eq h.plain.holds
  have hchain' : r.q.chain = ms' := Queue.chain_eq (hlink ▸ hplain.holds)
  have hcore : { r.q.core with back := c'.back } = c' := by
    rw [← hleaves.core]
    rfl
  refine ⟨c', ms', heffect, hcore, h.halted, ?_, hleaves.bandless h.bandless, hleaves.locked, ?_⟩
  · refine hplain.congr ?_ fun x _ => congrFun hmsg x
    show r.q.link.Holds ms'
    rw [hlink]
    exact hplain.holds
  · show (s.log.record s.q.chain r.q.chain e).Fifo r.q.msg ms'
    rw [hchain, hchain', hmsg]
    exact heffect.fifo h.fifo

/-- **Order is kept.**  In a run in which no call reaches the code of the bands the kernel runs, the
    messages are linked and in order, the bands point at their messages, and `getq` returns the
    messages that `putq` has put in a class in their order, each once. -/
theorem order_kept {s : Sys μ}
    (h : Reach Sys.Initial Sys.step (fun s e => s.q.regular e = true) s) : s.Sound := by
  have hinv : ∃ ms, s.Inv ms := by
    refine @Reach.invariant _ _ _ _ _ (fun s => ∃ ms, s.Inv ms) ?_ ?_ s h
    · intro s hs
      refine ⟨[], hs.halted, ⟨hs.empty, List.Pairwise.nil, fun x hx => absurd hx List.not_mem_nil⟩,
        ⟨hs.bandp, hs.nband⟩, hs.locked.trans hs.held.symm, ?_⟩
      rw [hs.log]
      exact ⟨List.Perm.refl _, fun _ => List.Pairwise.nil, fun x hx => absurd hx List.not_mem_nil⟩
    · rintro s e s' ⟨ms, hs⟩ hreg hstep
      obtain ⟨_, ms', _, _, hs'⟩ := hs.step hreg hstep
      exact ⟨ms', hs'⟩
  obtain ⟨ms, hs⟩ := hinv
  exact hs.sound

/-- A high-priority message and two ordinary ones are put, and two messages are returned. -/
theorem order_kept_put : ∃ s : Sys (Fin 3), s.Sound ∧ s.log.got = [1, 0] ∧ s.q.chain = [2] := by
  have hrun : (runFrom (fun (s : Sys (Fin 3)) e => if s.q.regular e then s.step e else none)
      (Sys.start (Fin 3))
      [.putq 0 ⟨0, 0, [5]⟩ false, .putq 1 ⟨0x81, 3, [2]⟩ false, .putq 2 ⟨0, 0, [7]⟩ false,
        .getq, .getq]).any (fun s => s.log.got = [1, 0] ∧ s.q.chain = [2]) = true := by
    decide +kernel
  obtain ⟨s, hs, hgot⟩ := (Option.any_eq_true _ _).mp hrun
  have hgot := of_decide_eq_true hgot
  exact ⟨s, order_kept (Reach.checked (fun _ _ h => h) (Reach.init Sys.start_initial) hs), hgot⟩

/-- **An ordinary message of a band stops the kernel**: the band that is allocated for it is not
    stored in the queue, and `QBAND_PREV` goes through the null pointer that is there. -/
theorem band_halts :
    ¬ ∀ s : Sys (Fin 1), Reach Sys.Initial Sys.step (fun _ _ => True) s → s.Sound := by
  intro hall
  have hrun : (runFrom Sys.step (Sys.start (Fin 1)) [.putq 0 ⟨0, 1, [1]⟩ true]).any
      (fun s => s.halted = some .null) = true := by decide +kernel
  obtain ⟨s, hs, hhalt⟩ := (Option.any_eq_true _ _).mp hrun
  have hnone := (hall s (Reach.run (fun _ _ => trivial) (Reach.init Sys.start_initial) hs)).1
  rw [of_decide_eq_true hhalt] at hnone
  cases hnone

end Runs

end CohKernel.Strm
