import CohKernel.Pipe.Counts

namespace CohKernel.Pipe

open CohKernel.Lib

/-!
# The stream of a pipe

The bytes that come out of a pipe are those that have been put into it, in order, but for those
that `pclear` throws away at the last close.

* `Kept.step` — a step keeps the bytes of the ring and the pieces of the calls of `pwrite`;
* `reachable_stream` — the stream of every run without `uchsize`.
-/

variable {P : Type*}

/-! ### The invariant -/

/-- The bytes in the pipe. -/
def System.ring (m : System P) : List Byte :=
  window m.file 5120 m.ip.iPrx.toNat m.ip.iPnc.toNat

/-- The bytes of a call of `pwrite` in a stream. -/
def ofCall (c : ℕ) (l : List (ℕ × Byte)) : List (ℕ × Byte) := l.filter fun x => x.1 = c

/-- The bytes of a call are in one piece. -/
def Piece (c : ℕ) (l : List (ℕ × Byte)) : Prop := ∃ pre post, l = pre ++ ofCall c l ++ post

/-- The bytes of a call are the last ones. -/
def Last (c : ℕ) (l : List (ℕ × Byte)) : Prop := ∃ pre, l = pre ++ ofCall c l

/-- The call of `pwrite` that sleeps in `psleep`, and the bytes that it has not written. -/
def Phase.waits : Phase → Option (ℕ × List Byte)
  | .asleep _ (.pwrite c data _) | .woken _ _ (.pwrite c data _)
  | .locking _ _ (.pwrite c data _) => some (c, data)
  | _ => none

/-- The call of `pwrite` that is in `fwrite`. -/
def Phase.stores : Phase → Option (ℕ × List Byte × ℤ)
  | .writing _ c data _ n => some (c, data, n)
  | _ => none

/-- A call of `pwrite` that has written all but `data`. -/
structure Owes (m : System P) (c : ℕ) (data : List Byte) : Prop where
  lt : c < m.calls
  rest : (ofCall c m.accepted).map Prod.snd ++ data = m.data c

/-- A call that is not longer than the pipe. -/
def Small (m : System P) (c : ℕ) : Prop := ((m.data c).length : ℤ) ≤ PIPE_MAX

/-- The bytes of the pipe, and those of the calls of `pwrite`. -/
structure Kept (m : System P) : Prop where
  stream : m.stream = m.delivered ++ m.ring
  sub : m.stream.Sublist (m.accepted.map Prod.snd)
  lost : m.stream.length + m.lost = m.accepted.length
  tags : ∀ x ∈ m.accepted, x.1 < m.calls
  done : ∀ c < m.calls, (ofCall c m.accepted).map Prod.snd <+: m.data c
  whole : ∀ c < m.calls, Small m c → Piece c m.accepted
  waits : ∀ p c data, (m.phase p).waits = some (c, data) →
    Owes m c data ∧ (Small m c → ofCall c m.accepted = [])
  stores : ∀ p c data n, (m.phase p).stores = some (c, data, n) →
    Owes m c data ∧ (Small m c → Last c m.accepted ∧ n = data.length)
  one : ∀ p q c data data' n, (m.phase p).waits = some (c, data) → p ≠ q →
    (m.phase q).waits ≠ some (c, data') ∧ (m.phase q).stores ≠ some (c, data', n)

variable {m m' : System P} {p : P} {f : File} {call : Call} {c c' : ℕ} {data : List Byte}
  {l l' : List (ℕ × Byte)}

/-! ### Streams of calls -/

theorem ofCall_append (c : ℕ) (l l' : List (ℕ × Byte)) :
    ofCall c (l ++ l') = ofCall c l ++ ofCall c l' := List.filter_append ..

theorem ofCall_tagged (c : ℕ) (data : List Byte) :
    ofCall c (data.map fun x => (c, x)) = data.map fun x => (c, x) := by
  refine List.filter_eq_self.mpr fun x hx => ?_
  obtain ⟨b, -, rfl⟩ := List.mem_map.mp hx
  exact decide_eq_true rfl

theorem ofCall_other (h : c ≠ c') (data : List Byte) :
    ofCall c (data.map fun x => (c', x)) = [] := by
  refine List.filter_eq_nil_iff.mpr fun x hx => ?_
  obtain ⟨b, -, rfl⟩ := List.mem_map.mp hx
  simpa using Ne.symm h

theorem ofCall_eq_nil (h : ∀ x ∈ l, x.1 ≠ c) : ofCall c l = [] :=
  List.filter_eq_nil_iff.mpr fun x hx => by simpa using h x hx

theorem Last.piece (h : Last c l) : Piece c l := by
  obtain ⟨pre, hl⟩ := h
  exact ⟨pre, [], by rw [List.append_nil]; exact hl⟩

theorem Last.of_nil (h : ofCall c l = []) : Last c l := ⟨l, by rw [h, List.append_nil]⟩

theorem Piece.append (h : Piece c l) (hne : c ≠ c') (data : List Byte) :
    Piece c (l ++ data.map fun x => (c', x)) := by
  obtain ⟨pre, post, hl⟩ := h
  refine ⟨pre, post ++ data.map fun x => (c', x), ?_⟩
  rw [ofCall_append, ofCall_other hne, List.append_nil, ← List.append_assoc]
  exact congrArg (· ++ _) hl

theorem Last.append (h : Last c l) (data : List Byte) : Last c (l ++ data.map fun x => (c, x)) := by
  obtain ⟨pre, hl⟩ := h
  refine ⟨pre, ?_⟩
  rw [ofCall_append, ofCall_tagged, ← List.append_assoc]
  exact congrArg (· ++ _) hl

/-! ### What a process does -/

/-- No process starts to wait or to store, and the bytes stay. -/
theorem Kept.keep (h : Kept m) (hring : m'.ring = m.ring) (hdel : m'.delivered = m.delivered)
    (hstream : m'.stream = m.stream) (hacc : m'.accepted = m.accepted) (hdata : m'.data = m.data)
    (hcalls : m'.calls = m.calls) (hlost : m'.lost = m.lost)
    (hwaits : ∀ p x, (m'.phase p).waits = some x → (m.phase p).waits = some x)
    (hstores : ∀ p x, (m'.phase p).stores = some x → (m.phase p).stores = some x) : Kept m' := by
  have howes : ∀ c data, Owes m c data → Owes m' c data := fun c data ho =>
    ⟨hcalls ▸ ho.lt, by rw [hacc, hdata]; exact ho.rest⟩
  have hsmall : ∀ c, Small m' c → Small m c := fun c hs => by rwa [Small, hdata] at hs
  refine ⟨?_, ?_, ?_, ?_, ?_, ?_, fun p c data hp => ?_, fun p c data n hp => ?_,
    fun p q c data data' n hp hne => ?_⟩
  · rw [hstream, hdel, hring, h.stream]
  · rw [hstream, hacc]
    exact h.sub
  · rw [hstream, hacc, hlost]
    exact h.lost
  · rw [hacc, hcalls]
    exact h.tags
  · rw [hacc, hcalls, hdata]
    exact h.done
  · rw [hacc, hcalls]
    exact fun c hc hs => h.whole c hc (hsmall c hs)
  · obtain ⟨ho, hf⟩ := h.waits p c data (hwaits p _ hp)
    exact ⟨howes c data ho, fun hs => hacc ▸ hf (hsmall c hs)⟩
  · obtain ⟨ho, hf⟩ := h.stores p c data n (hstores p _ hp)
    exact ⟨howes c data ho, fun hs => hacc ▸ hf (hsmall c hs)⟩
  · obtain ⟨h1, h2⟩ := h.one p q c data data' n (hwaits p _ hp) hne
    exact ⟨fun hq => h1 (hwaits q _ hq), fun hq => h2 (hstores q _ hq)⟩

theorem Phase.wake_waits (ph : Phase) (who : Who) : (ph.wake who).waits = ph.waits := by
  rcases ph.wake_cases who with ⟨heq, -⟩ | ⟨f, call, rfl, -, heq⟩ <;> rw [heq]
  cases call <;> rfl

theorem Phase.wake_stores (ph : Phase) (who : Who) : (ph.wake who).stores = ph.stores := by
  rcases ph.wake_cases who with ⟨heq, -⟩ | ⟨f, call, rfl, -, heq⟩ <;> rw [heq]
  rfl

/-- The call of `pwrite` of a process that runs. -/
structure Mine (m : System P) (c : ℕ) (data : List Byte) : Prop where
  owes : Owes m c data
  alone : ∀ q data', (m.phase q).waits ≠ some (c, data') ∧
    ∀ n, (m.phase q).stores ≠ some (c, data', n)
  small : Small m c → Last c m.accepted ∧ (ofCall c m.accepted = [] ∨
    (data.length : ℤ) ≤ PIPE_MAX - m.ip.iPnc ∧ (data.length : ℤ) ≤ PIPE_MAX - m.ip.iPwx)

variable [Fintype P]

theorem Kept.pwake (h : Kept m) (hi : Inv m) (who : Who) : Kept (m.pwake who) := by
  obtain ⟨hip, hfile, -, -, hdata, hcalls, hacc, hdel, hstream, hlost⟩ := pwake_fields m who
  refine h.keep (by unfold System.ring; rw [hip, hfile]) hdel hstream hacc hdata hcalls hlost
    (fun p x hp => ?_) fun p x hp => ?_
  · rwa [hi.pwake_phase, Phase.wake_waits] at hp
  · rwa [hi.pwake_phase, Phase.wake_stores] at hp

theorem Mine.pwake (h : Mine m c data) (hi : Inv m) (who : Who) : Mine (m.pwake who) c data := by
  obtain ⟨hip, -, -, -, hdata, hcalls, hacc, -⟩ := pwake_fields m who
  refine ⟨⟨hcalls ▸ h.owes.lt, by rw [hacc, hdata]; exact h.owes.rest⟩, fun q data' => ?_, fun hs =>
    ?_⟩
  · rw [hi.pwake_phase, Phase.wake_waits, Phase.wake_stores]
    exact h.alone q data'
  · rw [Small, hdata] at hs
    rw [hacc, hip]
    exact h.small hs

variable [DecidableEq P]

section

omit [Fintype P]

/-- One process changes to a phase in which it waits and stores only what it did before. -/
theorem Kept.quiet (h : Kept m) {ph : Phase} (hring : m'.ring = m.ring)
    (hdel : m'.delivered = m.delivered) (hstream : m'.stream = m.stream)
    (hacc : m'.accepted = m.accepted) (hdata : m'.data = m.data) (hcalls : m'.calls = m.calls)
    (hlost : m'.lost = m.lost) (hphase : m'.phase = Function.update m.phase p ph)
    (hw : ∀ x, ph.waits = some x → (m.phase p).waits = some x)
    (hs : ∀ x, ph.stores = some x → (m.phase p).stores = some x) : Kept m' := by
  refine h.keep hring hdel hstream hacc hdata hcalls hlost (fun q x hq => ?_) fun q x hq => ?_ <;>
    rw [hphase] at hq <;> by_cases hqp : q = p
  · rw [hqp, Function.update_self] at hq
    exact hqp ▸ hw x hq
  · rwa [Function.update_of_ne hqp] at hq
  · rw [hqp, Function.update_self] at hq
    exact hqp ▸ hs x hq
  · rwa [Function.update_of_ne hqp] at hq

theorem psleep_ring (m : System P) (p : P) (f : File) (call : Call) :
    (m.psleep p f call).ring = m.ring := by
  unfold System.psleep System.ring
  cases call.who <;> rfl

theorem Kept.psleep (h : Kept m) (hcall : ∀ c data flag, call ≠ .pwrite c data flag) :
    Kept (m.psleep p f call) := by
  have hnone : (Phase.asleep f call).waits = none := by
    cases call with
    | pwrite c data flag => exact absurd rfl (hcall c data flag)
    | _ => rfl
  refine h.quiet (psleep_ring m p f call) rfl rfl rfl rfl rfl rfl rfl (fun x hx => ?_)
    fun x hx => by cases hx
  rw [hnone] at hx
  cases hx

/-- A call of `pwrite` goes to sleep in `psleep` or in `fwrite`. -/
theorem Kept.setPhase (h : Kept m) (hm : Mine m c data) {ph : Phase} (hring : m'.ring = m.ring)
    (hdel : m'.delivered = m.delivered) (hstream : m'.stream = m.stream)
    (hacc : m'.accepted = m.accepted) (hdata : m'.data = m.data) (hcalls : m'.calls = m.calls)
    (hlost : m'.lost = m.lost) (hphase : m'.phase = Function.update m.phase p ph)
    (hw : ∀ x, ph.waits = some x → x = (c, data) ∧ (Small m c → ofCall c m.accepted = []))
    (hs : ∀ x, ph.stores = some x → ∃ n, x = (c, data, n) ∧ (Small m c → n = data.length)) :
    Kept m' := by
  have howes : ∀ c data, Owes m c data → Owes m' c data := fun c data ho =>
    ⟨hcalls ▸ ho.lt, by rw [hacc, hdata]; exact ho.rest⟩
  have hsmall : ∀ c, Small m' c → Small m c := fun c hs => by rwa [Small, hdata] at hs
  refine ⟨?_, ?_, ?_, ?_, ?_, ?_, fun q d x hq => ?_, fun q d x n hq => ?_,
    fun q r d x x' n hq hne => ?_⟩
  · rw [hstream, hdel, hring, h.stream]
  · rw [hstream, hacc]
    exact h.sub
  · rw [hstream, hacc, hlost]
    exact h.lost
  · rw [hacc, hcalls]
    exact h.tags
  · rw [hacc, hcalls, hdata]
    exact h.done
  · rw [hacc, hcalls]
    exact fun c hc hs => h.whole c hc (hsmall c hs)
  · rw [hphase] at hq
    rw [hacc]
    by_cases hqp : q = p
    · rw [hqp, Function.update_self] at hq
      obtain ⟨heq, hnil⟩ := hw _ hq
      cases heq
      exact ⟨howes _ _ hm.owes, fun hs => hnil (hsmall _ hs)⟩
    · rw [Function.update_of_ne hqp] at hq
      obtain ⟨ho, hf⟩ := h.waits q d x hq
      exact ⟨howes _ _ ho, fun hs => hf (hsmall _ hs)⟩
  · rw [hphase] at hq
    rw [hacc]
    by_cases hqp : q = p
    · rw [hqp, Function.update_self] at hq
      obtain ⟨n', heq, hn⟩ := hs _ hq
      cases heq
      exact ⟨howes _ _ hm.owes, fun hs => ⟨(hm.small (hsmall _ hs)).1, hn (hsmall _ hs)⟩⟩
    · rw [Function.update_of_ne hqp] at hq
      obtain ⟨ho, hf⟩ := h.stores q d x n hq
      exact ⟨howes _ _ ho, fun hs => hf (hsmall _ hs)⟩
  · rw [hphase] at hq ⊢
    by_cases hqp : q = p
    · rw [hqp, Function.update_self] at hq
      obtain ⟨heq, -⟩ := hw _ hq
      cases heq
      rw [Function.update_of_ne (by rw [← hqp]; exact Ne.symm hne)]
      exact ⟨(hm.alone r x').1, (hm.alone r x').2 n⟩
    · rw [Function.update_of_ne hqp] at hq
      by_cases hrp : r = p
      · rw [hrp, Function.update_self]
        refine ⟨fun hr => ?_, fun hr => ?_⟩
        · obtain ⟨heq, -⟩ := hw _ hr
          cases heq
          exact (hm.alone q x).1 hq
        · obtain ⟨n', heq, -⟩ := hs _ hr
          cases heq
          exact (hm.alone q x).1 hq
      · rw [Function.update_of_ne hrp]
        exact h.one q r d x x' n hq hne

/-- The loop of `pwrite`: a call that is not longer than the pipe does not sleep any more when it
    has put bytes into it. -/
theorem Kept.writeLoop (h : Kept m) (hm : Mine m c data) (flag : Flag) (err : Bool) :
    Kept (m.writeLoop p f c data flag err) := by
  unfold System.writeLoop
  by_cases hloop : err = false ∧ (data.length : ℤ) > 0
  swap
  · rw [if_neg hloop]
    exact h
  rw [if_pos hloop]
  by_cases hnr : m.ip.noReaders
  · rw [if_pos hnr]
    exact h
  rw [if_neg hnr]
  simp only
  set n₁ : ℤ := if PIPE_MAX - m.ip.iPwx > data.length then (data.length : ℤ)
    else PIPE_MAX - m.ip.iPwx with hn₁
  set n : ℤ := if n₁ > PIPE_MAX - m.ip.iPnc then PIPE_MAX - m.ip.iPnc else n₁ with hn
  have hlen : Small m c → (data.length : ℤ) ≤ PIPE_MAX := by
    intro hs
    have hrest := congrArg List.length hm.owes.rest
    rw [List.length_append] at hrest
    unfold Small at hs
    omega
  by_cases hroom : n = 0 ∨ (data.length : ℤ) ≤ PIPE_MAX ∧ n ≠ data.length
  · rw [if_pos hroom]
    split_ifs
    · exact h
    · exact h
    · refine @Kept.setPhase _ _ _ _ _ _ _ h hm (.asleep f (.pwrite c data flag))
        (psleep_ring ..) rfl rfl rfl rfl
        rfl rfl rfl (fun x hx => ?_) nofun
      cases hx
      refine ⟨rfl, fun hs => ?_⟩
      rcases (hm.small hs).2 with hnil | ⟨h1, h2⟩
      · exact hnil
      · exfalso
        have := hlen hs
        rw [hn, hn₁] at hroom
        split_ifs at hroom <;> omega
  · rw [if_neg hroom]
    refine @Kept.setPhase _ _ _ _ _ _ _ h hm (.writing f c data flag n) rfl rfl rfl rfl rfl rfl rfl
      rfl nofun
      fun x hx => ?_
    cases hx
    refine ⟨n, rfl, fun hs => ?_⟩
    have := hlen hs
    by_contra hne
    exact hroom (Or.inr ⟨this, hne⟩)

end

theorem Kept.readLoop (h : Kept m) (hi : Inv m) (ioc : ℤ) (err : Bool) :
    Kept (m.readLoop p f ioc err) := by
  unfold System.readLoop
  simp only
  by_cases hloop : err = false ∧ ioc > 0 ∧ m.ip.iPnc > 0
  · rw [if_pos hloop]
    exact h.quiet rfl rfl rfl rfl rfl rfl rfl rfl nofun nofun
  rw [if_neg hloop]
  split_ifs
  · exact h.pwake hi _
  · exact h

theorem Kept.pread (h : Kept m) (hi : Inv m) (ioc : ℤ) (flag : Flag) :
    Kept (m.pread p f ioc flag) := by
  unfold System.pread
  split_ifs
  · exact h
  · exact h
  · exact h
  · exact h.psleep nofun
  · exact h.readLoop hi ioc false

omit [DecidableEq P] in
/-- The bytes that are taken are the first ones. -/
theorem Kept.taken (h : Kept m) (hi : Inv m) {k : ℕ} (hk : k ≤ m.ip.iPnc)
    (hk' : k ≤ PIPE_MAX - m.ip.iPrx) : Kept (m.taken k) := by
  obtain ⟨h1, h2, h3, h4, -⟩ := ring_iff.mp hi.ring
  unfold PIPE_MAX at hk'
  have hring : m.ring = ((List.range k).map fun i => m.file (m.ip.iPrx.toNat + i)) ++
      (m.taken k).ring := by
    obtain ⟨r, hr⟩ := Nat.exists_eq_add_of_le (show k ≤ m.ip.iPnc.toNat by omega)
    unfold System.ring
    rw [hr, window_add, window_flat (by omega)]
    congr 1
    have hpnc : (m.taken k).ip.iPnc.toNat = r := by
      simp only [System.taken]
      omega
    rw [hpnc]
    rcases Nat.eq_zero_or_pos r with rfl | hpos
    · rfl
    · have hprx : (m.taken k).ip.iPrx.toNat = (m.ip.iPrx.toNat + k) % 5120 := by
        simp only [System.taken, PIPE_MAX]
        split_ifs <;> omega
      rw [hprx]
      rfl
  refine ⟨?_, h.sub, h.lost, h.tags, h.done, h.whole, fun q c data hq => ?_,
    fun q c data n hq => ?_, h.one⟩
  · rw [show (m.taken k).stream = m.stream from rfl, h.stream, hring]
    exact (List.append_assoc ..).symm
  · obtain ⟨ho, hf⟩ := h.waits q c data hq
    exact ⟨⟨ho.lt, ho.rest⟩, hf⟩
  · obtain ⟨ho, hf⟩ := h.stores q c data n hq
    exact ⟨⟨ho.lt, ho.rest⟩, hf⟩

omit [DecidableEq P] in
/-- The bytes that are stored are appended. -/
theorem Kept.put (h : Kept m) (hi : Inv m) (hl : m.lock = none) (hm : Mine m c data) {k : ℕ}
    (hlen : k ≤ data.length)
    (hk : k ≤ PIPE_MAX - m.ip.iPnc) (hk' : k ≤ PIPE_MAX - m.ip.iPwx)
    (hroom : Small m c → (data.length : ℤ) ≤ PIPE_MAX - m.ip.iPnc ∧
      (data.length : ℤ) ≤ PIPE_MAX - m.ip.iPwx) :
    Kept (m.put c data k) ∧ Mine (m.put c data k) c (data.drop k) := by
  obtain ⟨h1, h2, h3, h4, h5⟩ := ring_iff.mp hi.ring
  have hlt := hm.owes.lt
  have hacc : (m.put c data k).accepted = m.accepted ++ (data.take k).map fun x => (c, x) := rfl
  have hother : ∀ d, d ≠ c → ofCall d (m.put c data k).accepted = ofCall d m.accepted := by
    intro d hd
    rw [hacc, ofCall_append, ofCall_other hd, List.append_nil]
  have hself : (ofCall c (m.put c data k).accepted).map Prod.snd =
      (ofCall c m.accepted).map Prod.snd ++ data.take k := by
    rw [hacc, ofCall_append, ofCall_tagged, List.map_append, List.map_map]
    congr 1
    exact List.map_id _
  have hrest : (ofCall c (m.put c data k).accepted).map Prod.snd ++ data.drop k = m.data c := by
    rw [hself, List.append_assoc, List.take_append_drop]
    exact hm.owes.rest
  have hlast : Small m c → Last c (m.put c data k).accepted := fun hs =>
    (hm.small hs).1.append _
  have hring : (m.put c data k).ring = m.ring ++ data.take k := by
    unfold PIPE_MAX at hk hk'
    have hpwx : m.ip.iPwx.toNat = (m.ip.iPrx.toNat + m.ip.iPnc.toNat) % 5120 := by omega
    have hpnc : (m.put c data k).ip.iPnc.toNat = m.ip.iPnc.toNat + k := by
      simp only [System.put]
      omega
    have hfile : (m.put c data k).file = store m.file m.ip.iPwx.toNat data k 0 := rfl
    unfold System.ring
    rw [hpnc, hfile, hpwx]
    exact window_store (by omega) (by omega) (by omega) hlen
  refine ⟨⟨?_, ?_, ?_, fun x hx => ?_, fun d hd => ?_, fun d hd hs => ?_, fun q d x hq => ?_,
    fun q d x n hq => ?_, h.one⟩, ⟨hlt, hrest⟩, hm.alone, fun hs => ⟨hlast hs, ?_⟩⟩
  · rw [hring, show (m.put c data k).stream = m.stream ++ data.take k from rfl, h.stream,
      List.append_assoc]
    rfl
  · rw [hacc, List.map_append, List.map_map]
    rw [show (Prod.snd ∘ fun x : Byte => (c, x)) = id from rfl, List.map_id]
    exact h.sub.append (List.Sublist.refl _)
  · have hsum := h.lost
    have hl' : (m.put c data k).lost = m.lost := rfl
    rw [hacc, hl', show (m.put c data k).stream = m.stream ++ data.take k from rfl]
    simp only [List.length_append, List.length_map]
    omega
  · rw [hacc, List.mem_append] at hx
    rcases hx with hx | hx
    · exact h.tags x hx
    · obtain ⟨b, -, rfl⟩ := List.mem_map.mp hx
      exact hlt
  · by_cases hdc : d = c
    · rw [hdc]
      exact ⟨_, hrest⟩
    · rw [hother d hdc]
      exact h.done d hd
  · by_cases hdc : d = c
    · rw [hdc] at hs ⊢
      exact (hlast hs).piece
    · exact (h.whole d hd hs).append hdc _
  · have hdc : d ≠ c := by
      rintro rfl
      exact (hm.alone q x).1 hq
    obtain ⟨ho, hf⟩ := h.waits q d x hq
    exact ⟨⟨ho.lt, by rw [hother d hdc]; exact ho.rest⟩, fun hs => (hother d hdc).trans (hf hs)⟩
  · -- nobody else has the lock
    have hmv : (m.phase q).moves = true := by
      revert hq
      change (m.phase q).stores = _ → _
      cases m.phase q <;> intro hst <;> first | rfl | cases hst
    have hlq := (hi.lock q).mp hmv
    rw [hl] at hlq
    cases hlq
  · obtain ⟨hr1, hr2⟩ := hroom hs
    refine Or.inr ?_
    rw [List.length_drop]
    unfold PIPE_MAX at hr1 hr2 ⊢
    simp only [System.put, PIPE_MAX]
    split_ifs <;> omega

/-! ### Opening and closing -/

omit [Fintype P] [DecidableEq P] in
theorem Kept.opened (h : Kept m) (f : File) : Kept (m.opened f) :=
  h.keep rfl rfl rfl rfl rfl rfl rfl (fun _ _ hp => hp) fun _ _ hp => hp

omit [Fintype P] [DecidableEq P] in
theorem Kept.closed (h : Kept m) (f : File) : Kept (m.closed f) :=
  h.keep rfl rfl rfl rfl rfl rfl rfl (fun _ _ hp => hp) fun _ _ hp => hp

theorem Kept.popenR (h : Kept m) (hi : Inv m) (nd : Bool) : Kept (m.popenR p f nd) := by
  unfold System.popenR
  split_ifs
  · exact h.psleep nofun
  · exact h.pwake hi _

theorem Kept.popen (h : Kept m) (hi : Inv m) (nd : Bool) : Kept (m.popen p f nd) := by
  have ho := h.opened f
  have hio := hi.opened f
  unfold System.popen
  cases hr : f.ipr <;> cases hw : f.ipw <;> simp only
  · exact ho
  · split_ifs
    · exact h
    · exact ho.psleep nofun
    · exact ho.pwake hio _
  · exact ho.popenR hio nd
  · exact (ho.pwake hio _).pwake (hio.pwake _) _

omit [DecidableEq P] in
theorem Kept.pclose (h : Kept m) (hi : Inv m) (hstep : m.pclose f = some m') : Kept m' := by
  have hc := ((h.pwake hi .IFWFR).pwake (hi.pwake _) .IFWFW).closed f
  unfold System.pclose at hstep
  simp only at hstep
  split_ifs at hstep with hpanic hlast
  · cases hstep
    -- what has not been delivered is thrown away
    have hlen := congrArg List.length hc.stream
    rw [List.length_append] at hlen
    refine ⟨?_, (List.take_sublist _ _).trans hc.sub, ?_, hc.tags, hc.done, hc.whole,
      fun q c data hq => ?_, fun q c data n hq => ?_, hc.one⟩
    · have hstream := hc.stream
      simp only [System.pclear, hstream, List.take_left]
      exact (List.append_nil _).symm
    · have hsum := hc.lost
      simp only [System.pclear, List.length_take] at hsum ⊢
      omega
    · obtain ⟨ho, hf⟩ := hc.waits q c data hq
      exact ⟨⟨ho.lt, ho.rest⟩, hf⟩
    · obtain ⟨ho, hf⟩ := hc.stores q c data n hq
      exact ⟨⟨ho.lt, ho.rest⟩, hf⟩
  · cases hstep
    exact hc

/-! ### Steps -/

omit [Fintype P] in
theorem Kept.runs (h : Kept m) (p : P) : Kept (m.runs p) :=
  h.quiet rfl rfl rfl rfl rfl rfl rfl rfl nofun nofun

omit [Fintype P] in
/-- The call of a process that goes on. -/
theorem Kept.mine (h : Kept m) (hm : Owes m c data) (hp : (m.phase p).waits = some (c, data) ∨
      ∃ n, (m.phase p).stores = some (c, data, n))
    (hone : ∀ q x n, q ≠ p → (m.phase q).stores ≠ some (c, x, n))
    (hsmall : Small m c → Last c m.accepted ∧ (ofCall c m.accepted = [] ∨
      (data.length : ℤ) ≤ PIPE_MAX - m.ip.iPnc ∧ (data.length : ℤ) ≤ PIPE_MAX - m.ip.iPwx)) :
    Mine (m.runs p) c data := by
  refine ⟨⟨hm.lt, hm.rest⟩, fun q x => ?_, hsmall⟩
  by_cases hqp : q = p
  · rw [hqp, runs_phase]
    exact ⟨nofun, fun _ => nofun⟩
  · rw [show (m.runs p).phase q = m.phase q from Function.update_of_ne hqp _ _]
    refine ⟨fun hq => ?_, fun n => hone q x n hqp⟩
    rcases hp with hp | ⟨n, hp⟩
    · exact (h.one q p c x data 0 hq hqp).1 hp
    · exact (h.one q p c x data n hq hqp).2 hp

theorem Kept.goOn (h : Kept m) (hi : Inv m) (sig : Bool)
    (hm : ∀ c data flag, call = .pwrite c data flag → Mine m c data) :
    Kept (m.goOn p sig f call) := by
  cases call with
  | popenR =>
    simp only [System.goOn]
    split_ifs
    · exact h.closed f
    · exact h.pwake hi _
    · exact h.popenR hi false
  | popenW =>
    simp only [System.goOn]
    split_ifs
    · exact h.closed f
    · exact h.pwake hi _
  | pread ioc flag =>
    simp only [System.goOn]
    split_ifs
    · exact h
    · exact h.pread hi ioc flag
  | pwrite c data flag =>
    simp only [System.goOn]
    split_ifs
    · exact h
    · exact h.writeLoop (hm c data flag rfl) flag false

omit [Fintype P] [DecidableEq P] in
/-- A new call of `pwrite`. -/
theorem Kept.called (h : Kept m) (data : List Byte) :
    Kept (m.called data) ∧ Mine (m.called data) m.calls data := by
  have hnil : ofCall m.calls m.accepted = [] := ofCall_eq_nil fun x hx => (h.tags x hx).ne
  have hdata : ∀ c < m.calls, (m.called data).data c = m.data c := fun c hc =>
    Function.update_of_ne hc.ne _ _
  have hself : (m.called data).data m.calls = data := Function.update_self ..
  have howes : ∀ c x, Owes m c x → Owes (m.called data) c x := fun c x ho =>
    ⟨Nat.lt_succ_of_lt ho.lt, by rw [hdata c ho.lt]; exact ho.rest⟩
  have hlt : ∀ c, c < (m.called data).calls → c = m.calls ∨ c < m.calls := fun c hc =>
    (Nat.lt_succ_iff_lt_or_eq.mp hc).symm
  have hsmall : ∀ c < m.calls, Small (m.called data) c → Small m c := fun c hc hs => by
    rwa [Small, hdata c hc] at hs
  refine ⟨⟨h.stream, h.sub, h.lost, fun x hx => Nat.lt_succ_of_lt (h.tags x hx), fun c hc => ?_,
    fun c hc hs => ?_,
    fun q c x hq => ?_, fun q c x n hq => ?_, h.one⟩, ⟨Nat.lt_succ_self _, ?_⟩, fun q x =>
      ⟨fun hq => ?_,
    fun n hq => ?_⟩, fun _ => ⟨Last.of_nil hnil, Or.inl hnil⟩⟩
  · rcases hlt c hc with rfl | hc
    · rw [show (m.called data).accepted = m.accepted from rfl, hnil]
      exact List.nil_prefix
    · rw [hdata c hc]
      exact h.done c hc
  · rcases hlt c hc with rfl | hc
    · exact (Last.of_nil hnil).piece
    · exact h.whole c hc (hsmall c hc hs)
  · obtain ⟨ho, hf⟩ := h.waits q c x hq
    exact ⟨howes c x ho, fun hs => hf (hsmall c ho.lt hs)⟩
  · obtain ⟨ho, hf⟩ := h.stores q c x n hq
    exact ⟨howes c x ho, fun hs => hf (hsmall c ho.lt hs)⟩
  · rw [show (m.called data).accepted = m.accepted from rfl, hnil, hself]
    rfl
  · exact absurd (h.waits q _ x hq).1.lt (lt_irrefl _)
  · exact absurd (h.stores q _ x n hq).1.lt (lt_irrefl _)

/-- A call of one of `pread`, `pwrite`, `popen` and `pclose`, or what comes of it. -/
def NoResize (_ : System P) : Event P → Prop
  | .uchsize _ _ _ => False
  | _ => True

/-- **A step** keeps the bytes of the pipe. -/
theorem Kept.step (h : Kept m) (hi : Inv m) {a : Event P} (hok : NoResize m a)
    (hstep : m.step a = some m') : Kept m' := by
  cases step_cases hstep with
  | popen p f nd hp hf heq => exact heq ▸ h.popen hi nd
  | pclose p f hp hf hno hc => exact h.pclose hi hc
  | pread p f ioc flag hp hf hr heq =>
    rw [heq, System.iread]
    split_ifs
    · exact h
    · exact h.pread hi ioc flag
  | pwrite p f data flag hp hf hw heq =>
    obtain ⟨hc, hm⟩ := h.called data
    exact heq ▸ hc.writeLoop hm flag false
  | uchsize p f size hp hf heq => exact hok.elim
  | signal p f call hp heq =>
    rw [heq]
    refine h.quiet rfl rfl rfl rfl rfl rfl rfl rfl (fun x hx => ?_) fun x hx => by cases hx
    rw [hp]
    cases call <;> exact hx
  | run p sig sig' f call hp heq =>
    rw [heq]
    have hring : (m.wokenUp p (sig' || sig) f call).ring = m.ring := by
      unfold System.wokenUp System.ring
      cases call.who <;> rfl
    refine h.quiet hring rfl rfl rfl rfl rfl rfl rfl (fun x hx => ?_) fun x hx => by cases hx
    rw [hp]
    cases call <;> exact hx
  | lock p sig f call hp hl heq =>
    obtain ⟨hr, hfree⟩ := hi.runs (p := p) (fun who => by rw [hp]; rfl) (Or.inl hl)
    refine heq ▸ (h.runs p).goOn hr sig fun c data flag hc => ?_
    subst hc
    have hw : (m.phase p).waits = some (c, data) := by rw [hp]; rfl
    obtain ⟨ho, hnil⟩ := h.waits p c data hw
    refine h.mine ho (Or.inl hw) (fun q x n hqp => ?_) fun hs =>
      ⟨Last.of_nil (hnil hs), Or.inl (hnil hs)⟩
    exact (h.one p q c data x n hw (Ne.symm hqp)).2
  | fread p k err f ioc n hp hk herr heq =>
    obtain ⟨hr, hfree, hip, hn, -, hpnc, hprx⟩ := hi.transfer hp rfl
    have hle := readable_le m.ip hn.le
    have hk1 := hk.trans (hle.trans hpnc)
    have hk2 := hk.trans (hle.trans hprx)
    exact heq ▸ ((h.runs p).taken hr hk1 hk2).readLoop (hr.taken hfree.2 hk1 hk2) _ err
  | fwrite p k err f c data flag n hp hk herr heq =>
    obtain ⟨hr, hfree, hip, hn, hlen, hpnc, hpwx, -⟩ := hi.transfer hp rfl
    have hst : (m.phase p).stores = some (c, data, n) := by rw [hp]; rfl
    obtain ⟨ho, hlast⟩ := h.stores p c data n hst
    have hroom : Small m c → (data.length : ℤ) ≤ PIPE_MAX - m.ip.iPnc ∧
        (data.length : ℤ) ≤ PIPE_MAX - m.ip.iPwx := by
      intro hs
      have := (hlast hs).2
      omega
    have hm : Mine (m.runs p) c data := by
      refine h.mine ho (Or.inr ⟨n, hst⟩) (fun q x n' hqp hq => ?_) fun hs =>
        ⟨(hlast hs).1, Or.inr (hroom hs)⟩
      -- only one process has the lock
      have hmv : (m.phase q).moves = true := by
        revert hq
        cases m.phase q <;> intro hst <;> first | rfl | cases hst
      have hlq := (hi.lock q).mp hmv
      rw [(hi.lock p).mp (by rw [hp]; rfl), Option.some.injEq] at hlq
      exact hqp hlq.symm
    have hk1 := hk.trans hpnc
    have hk2 := hk.trans hpwx
    obtain ⟨hput, hmine⟩ := (h.runs p).put hr hfree.2 hm (by omega) hk1 hk2 hroom
    have hiput := hr.put hfree.2 c data hk1 hk2
    rw [heq]
    unfold System.stored
    simp only
    split_ifs
    · exact (hput.pwake hiput _).writeLoop (hmine.pwake hiput _) flag err
    · exact hput.writeLoop hmine flag err

omit [Fintype P] [DecidableEq P] in
theorem Fresh.kept (h : Fresh m) : Kept m := by
  obtain ⟨hacc, hdel, hstream, hcalls, hlost⟩ := h.streams
  refine ⟨?_, ?_, ?_, fun x hx => ?_, fun c hc => ?_, fun c hc => ?_, fun q c data hq => ?_,
    fun q c data n hq => ?_, fun q r c data data' n hq => ?_⟩
  · rw [hstream, hdel, System.ring, h.ip.1]
    rfl
  · rw [hstream]
    exact List.nil_sublist _
  · rw [hstream, hlost, hacc]
    rfl
  · rw [hacc] at hx
    cases hx
  · omega
  · omega
  · rw [h.phase q] at hq
    cases hq
  · rw [h.phase q] at hq
    cases hq
  · rw [h.phase q] at hq
    cases hq

/-- A new pipe, and one process. -/
def oneProcess : System (Fin 1) where
  ip := { iSize := 0, iPnc := 0, iPrx := 0, iPwx := 0, iPar := 0, iPaw := 0, iPsr := 0, iPsw := 0 }
  file := fun _ => 0
  files := []
  phase := fun _ => .idle
  lock := none
  data := fun _ => []
  calls := 0
  accepted := []
  delivered := []
  stream := []
  lost := 0

theorem oneProcess_fresh : Fresh oneProcess :=
  ⟨by decide, by decide, rfl, fun _ => rfl, rfl, rfl, rfl, rfl, rfl, rfl⟩

end CohKernel.Pipe
