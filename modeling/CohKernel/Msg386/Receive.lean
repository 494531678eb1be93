import CohKernel.Msg386.Chain
import CohKernel.Msg386.Wakeups

namespace CohKernel.Msg386

open CohKernel.Lib CohKernel.Ipc

/-!
# The message that `msgrcv` takes

The interface names a message by its type: the oldest one, the oldest of a type, or the oldest of
the lowest type up to a bound.  `umsgrcv` takes that one, except that it negates the lowest `long`
to itself and then looks for a type that is not positive.

* `IsNamed`, `HasNamed` — the message of the interface;
* `Receives` — what a receive does to its queue;
* `receive_named` — every receive does so, but for the lowest `long` on a queue that is not empty;
* `lowest_long_lost` — a message of type 5 is not found.
-/

variable {t : Tune} {s : Tables t} {c : Ctx} {i k : ℕ} {mp : Msg} {msgs seen : List Msg}
  {msgtyp : ℤ}

/-! ### The interface -/

/-- `mp` is the message that `msgtyp` names, behind the older messages `l₁` and before the younger
    ones `l₂`. -/
def IsNamed (msgtyp : ℤ) (l₁ : List Msg) (mp : Msg) (l₂ : List Msg) : Prop :=
  if msgtyp = 0 then l₁ = []
  else if 0 < msgtyp then mp.msgType = msgtyp ∧ ∀ m ∈ l₁, m.msgType ≠ msgtyp
  else mp.msgType ≤ |msgtyp| ∧ (∀ m ∈ l₁, mp.msgType < m.msgType) ∧
    ∀ m ∈ l₂, mp.msgType ≤ m.msgType

/-- `msgtyp` names a message of the queue. -/
def HasNamed (msgtyp : ℤ) (msgs : List Msg) : Prop :=
  ∃ l₁ mp l₂, msgs = l₁ ++ mp :: l₂ ∧ IsNamed msgtyp l₁ mp l₂

/-! ### What the loops find -/

/-- The oldest message of the lowest type up to `msgtyp`, with its position. -/
def Best (msgtyp : ℤ) (seen : List Msg) : Option (ℕ × Msg) → Prop
  | none => ∀ m ∈ seen, msgtyp < m.msgType
  | some (k, mp) => ∃ l₁ l₂, seen = l₁ ++ mp :: l₂ ∧ l₁.length = k ∧ mp.msgType ≤ msgtyp ∧
      (∀ m ∈ l₁, mp.msgType < m.msgType) ∧ ∀ m ∈ l₂, mp.msgType ≤ m.msgType

/-- A message that is not lower than the best one. -/
theorem Best.keep {r : Option (ℕ × Msg)} (h : Best msgtyp seen r)
    (hmp : match r with
      | none => msgtyp < mp.msgType
      | some (_, q) => q.msgType ≤ mp.msgType) :
    Best msgtyp (seen ++ [mp]) r := by
  cases r with
  | none => exact List.forall_mem_append.mpr ⟨h, List.forall_mem_singleton.mpr hmp⟩
  | some r =>
    obtain ⟨l₁, l₂, hseen, hlen, hle, hold, hnew⟩ := h
    refine ⟨l₁, l₂ ++ [mp], by simp [hseen], hlen, hle, hold, ?_⟩
    exact List.forall_mem_append.mpr ⟨hnew, List.forall_mem_singleton.mpr hmp⟩

/-- A message that is lower than all before it. -/
theorem Best.replace {r : Option (ℕ × Msg)} (h : Best msgtyp seen r) (hle : mp.msgType ≤ msgtyp)
    (hmp : ∀ k q, r = some (k, q) → mp.msgType < q.msgType) :
    Best msgtyp (seen ++ [mp]) (some (seen.length, mp)) := by
  refine ⟨seen, [], rfl, rfl, hle, fun m hm => ?_, by simp⟩
  cases r with
  | none => exact hle.trans_lt (h m hm)
  | some r =>
    obtain ⟨k, q⟩ := r
    have hlt := hmp k q rfl
    obtain ⟨l₁, l₂, rfl, -, -, hold, hnew⟩ := h
    rcases List.mem_append.mp hm with hm | hm
    · exact hlt.trans (hold m hm)
    · rcases List.mem_cons.mp hm with rfl | hm
      · exact hlt
      · exact hlt.trans_le (hnew m hm)

/-- The loop of the negative types finds the best message. -/
theorem lowest_best (rest : List Msg) {qmin : Option (ℕ × Msg)} (h : Best msgtyp seen qmin) :
    Best msgtyp (seen ++ rest) (lowest msgtyp seen.length qmin rest) := by
  induction rest generalizing seen qmin with
  | nil =>
    rw [List.append_nil]
    exact h
  | cons mp rest ih =>
    have hgo : ∀ r, Best msgtyp (seen ++ [mp]) r →
        Best msgtyp (seen ++ mp :: rest) (lowest msgtyp (seen.length + 1) r rest) := by
      intro r hr
      have := ih hr
      rwa [List.length_append, List.append_assoc] at this
    rw [lowest.eq_def]
    simp only
    split_ifs with htype
    · apply hgo
      cases qmin with
      | none => exact h.keep htype
      | some r =>
        obtain ⟨-, -, -, -, hle, -⟩ := id h
        exact h.keep (hle.trans htype.le)
    · cases qmin with
      | none => exact hgo _ (h.replace (not_lt.mp htype) fun k q hq => by cases hq)
      | some r =>
        simp only
        split_ifs with hlow
        · refine hgo _ (h.replace (not_lt.mp htype) fun k q hq => ?_)
          cases hq
          exact hlow
        · exact hgo _ (h.keep (not_lt.mp hlow))

theorem negLong_eq (h : msgtyp ≠ -2 ^ 31) (hneg : msgtyp < 0) : negLong msgtyp = |msgtyp| := by
  rw [negLong, if_neg h, abs_of_neg hneg]

/-- The first message of a type, with what is before it. -/
theorem findIdx_split (h : (msgs.findIdx? fun mp => mp.msgType = msgtyp) = some k) :
    ∃ l₁ mp l₂, msgs = l₁ ++ mp :: l₂ ∧ l₁.length = k ∧ mp.msgType = msgtyp ∧
      ∀ m ∈ l₁, m.msgType ≠ msgtyp := by
  obtain ⟨hlt, htype, hbefore⟩ := List.findIdx?_eq_some_iff_getElem.mp h
  have hget : msgs[k]? = some msgs[k] := List.getElem?_eq_getElem hlt
  obtain ⟨l₁, l₂, hmsgs, hlen, -⟩ := split_at hget
  refine ⟨l₁, msgs[k], l₂, hmsgs, hlen, of_decide_eq_true htype, fun m hm => ?_⟩
  obtain ⟨j, hj, rfl⟩ := List.mem_iff_getElem.mp hm
  have hold : msgs[j]? = some l₁[j] := by
    rw [hmsgs, List.getElem?_append_left hj]
    exact List.getElem?_eq_getElem hj
  obtain ⟨_, heq⟩ := List.getElem?_eq_some_iff.mp hold
  have hnot := hbefore j (hlen ▸ hj)
  rw [heq] at hnot
  simpa using hnot

/-- **`umsgrcv` selects the named message,** but for the lowest `long`. -/
theorem select_names (h : msgtyp ≠ -2 ^ 31) (msgs : List Msg) :
    match select msgtyp msgs with
    | none => ¬ HasNamed msgtyp msgs
    | some (k, mp) => ∃ l₁ l₂, msgs = l₁ ++ mp :: l₂ ∧ l₁.length = k ∧ IsNamed msgtyp l₁ mp l₂ := by
  rw [select]
  unfold HasNamed IsNamed
  rcases lt_trichotomy msgtyp 0 with hneg | rfl | hpos
  · have hnil : Best |msgtyp| [] none := fun m hm => absurd hm List.not_mem_nil
    have hbest := lowest_best msgs hnil
    rw [List.nil_append, List.length_nil] at hbest
    simp only [if_pos hneg, if_neg hneg.ne, if_neg hneg.not_gt, negLong_eq h hneg]
    cases hlow : lowest |msgtyp| 0 none msgs with
    | none =>
      rw [hlow] at hbest
      rintro ⟨l₁, mp, l₂, rfl, hle, -⟩
      exact (hbest mp (List.mem_append_right _ List.mem_cons_self)).not_ge hle
    | some r =>
      rw [hlow] at hbest
      exact hbest
  · cases msgs with
    | nil =>
      rintro ⟨l₁, mp, l₂, hnil, -⟩
      simp at hnil
    | cons mp rest => exact ⟨[], rest, rfl, rfl, rfl⟩
  · simp only [if_neg hpos.not_gt, if_pos hpos, if_neg hpos.ne']
    cases hidx : msgs.findIdx? fun mp => decide (mp.msgType = msgtyp) with
    | none =>
      rw [List.findIdx?_eq_none_iff] at hidx
      rintro ⟨l₁, mp, l₂, rfl, htype, -⟩
      simpa [htype] using hidx mp (List.mem_append_right _ List.mem_cons_self)
    | some k =>
      obtain ⟨l₁, mp, l₂, rfl, rfl, htype, hold⟩ := findIdx_split hidx
      rw [Option.bind_some, List.getElem?_append_right le_rfl, Nat.sub_self]
      exact ⟨l₁, l₂, rfl, rfl, htype, hold⟩

/-- For the lowest `long`, nothing is found. -/
theorem select_lowest_long (hmsgs : ∀ m ∈ msgs, -2 ^ 31 < m.msgType) :
    select (-2 ^ 31) msgs = none := by
  rw [select, if_pos (by decide), negLong, if_pos rfl, lowest_eq_none]
  exact ⟨rfl, hmsgs⟩

/-- The lowest `long` names a message of every queue that is not empty. -/
theorem named_lowest_long (hmsgs : ∀ m ∈ msgs, m.msgType < 2 ^ 31) (hne : msgs ≠ []) :
    HasNamed (-2 ^ 31) msgs := by
  have hnil : Best (2 ^ 31) [] none := fun m hm => absurd hm List.not_mem_nil
  have hbest := lowest_best msgs hnil
  rw [List.nil_append, List.length_nil] at hbest
  cases hlow : lowest (2 ^ 31) 0 none msgs with
  | none =>
    rw [hlow] at hbest
    obtain ⟨m, hm⟩ := List.exists_mem_of_ne_nil msgs hne
    exact absurd (hmsgs m hm) (hbest m hm).not_gt
  | some r =>
    rw [hlow] at hbest
    obtain ⟨l₁, l₂, hsplit, -, hbest⟩ := hbest
    exact ⟨l₁, r.2, l₂, hsplit, by simpa [IsNamed] using hbest⟩

/-! ### Calls -/

/-- The type that a receive asks for. -/
def Event.wants : Event → Option ℤ
  | .rcv _ _ _ msgtyp _ => some msgtyp
  | .rcvWake _ _ _ _ msgtyp _ _ => some msgtyp
  | _ => none

/-- The queue that a receive looks through, if it gets so far. -/
def Tables.searched (s : Tables t) : Event → Option ℕ
  | .rcv c qid _ _ _ =>
      (s.rcvSlot qid).filter fun i => ipcLackPerm c.cred (s.msqs i).msgPerm IRUGO = false
  | .rcvWake _ i qid _ _ _ signalled =>
      if signalled = false ∧ qid = (s.msqs i).msgPerm.seq then some i else none
  | _ => none

/-- The messages are in different headers, and their types are positive values of a `long`. -/
structure Proper (msgs : List Msg) : Prop where
  addrs : (msgs.map (·.addr)).Nodup
  types : ∀ m ∈ msgs, 1 ≤ m.msgType ∧ m.msgType < 2 ^ 31

/-- Queue `i` has lost the named message `mp` and nothing else; the links and the counters are
    those of what is left. -/
structure Taken (s : Tables t) (i : ℕ) (msgtyp : ℤ) (l₁ : List Msg) (mp : Msg) (l₂ : List Msg)
    (s' : Tables t) : Prop where
  split : (s.msqs i).msgs = l₁ ++ mp :: l₂
  names : IsNamed msgtyp l₁ mp l₂
  msgs : (s'.msqs i).msgs = l₁ ++ l₂
  qnum : (s'.msqs i).msgQnum = ushort ((s.msqs i).msgQnum.val - 1)
  cbytes : (s'.msqs i).msgCbytes = ushort ((s.msqs i).msgCbytes.val - mp.msgTs.val)
  ok : QueueOk (s.msqs i) → QueueOk (s'.msqs i)
  links : ∀ g : Links, g.Of (s.msqs i) → ∀ fuel ≥ (s.msqs i).msgs.length, ∃ prev,
    g.find fuel msgtyp = (prev, some mp.addr) ∧ (g.take prev mp.addr).Of (s'.msqs i)
  others : ∀ j ≠ i, s'.msqs j = s.msqs j

/-- What the interface says of a receive for `msgtyp` that looks through queue `o`: it takes the
    named message, or there is none; where it fails, nothing changes. -/
structure Receives (s : Tables t) (o : Option ℕ) (msgtyp : ℤ) (r : Result t) : Prop where
  taken : ∀ n, r.outcome = .done n none →
    ∃ i ∈ o, ∃ l₁ mp l₂, Taken s i msgtyp l₁ mp l₂ r.tables
  failed : ∀ n err, r.outcome = .done n (some err) → r.tables = s
  missing : r.outcome = .done (-1) (some .ENOMSG) ∨ r.outcome = .sleep →
    ∃ i ∈ o, ¬ HasNamed msgtyp (s.msqs i).msgs
  asleep : r.outcome = .sleep →
    ∃ i ∈ o, ∃ mode, r.tables = s.put i ((s.msqs i).setMode mode)

theorem Receives.fail {o : Option ℕ} {err : Errno} (herr : err ≠ .ENOMSG) :
    Receives s o msgtyp (s.fail err) where
  taken _ h := by cases h
  failed _ _ _ := rfl
  missing h := by
    rcases h with h | h
    · cases h
      exact absurd rfl herr
    · cases h
  asleep h := by cases h

variable {r : Result t} {msgsz : ℤ} {msgflg : ℕ}

/-- The queue without the message that the loops have found. -/
theorem Taken.remove {s' : Tables t} {l₁ l₂ : List Msg} {mode : ℕ} (hmsgs : Proper (s.msqs i).msgs)
    (hsel : select msgtyp (s.msqs i).msgs = some (k, mp))
    (hsplit : (s.msqs i).msgs = l₁ ++ mp :: l₂) (hlen : l₁.length = k)
    (hnames : IsNamed msgtyp l₁ mp l₂)
    (hs : s'.msqs = Function.update s.msqs i (((s.msqs i).remove c k mp).setMode mode)) :
    Taken s i msgtyp l₁ mp l₂ s' := by
  have hk := select_mem hsel
  have hi : s'.msqs i = ((s.msqs i).remove c k mp).setMode mode := by
    rw [hs, Function.update_self]
  refine ⟨hsplit, hnames, ?_, ?_, ?_, fun hok => ?_, fun g hg fuel hfuel => ?_, fun j hj => ?_⟩
  · rw [hi]
    show (s.msqs i).msgs.eraseIdx k = l₁ ++ l₂
    rw [hsplit, ← hlen, List.eraseIdx_append_of_length_le le_rfl, Nat.sub_self]
    rfl
  · rw [hi]
    rfl
  · rw [hi]
    rfl
  · have hrem := hok.remove hmsgs.addrs c hk
    rw [hi]
    exact ⟨hrem.qnum, hrem.last, hrem.cbytes⟩
  · have hfind := Links.find_select hg hfuel msgtyp
    rw [hsel] at hfind
    have htake := hg.take hmsgs.addrs hk c
    rw [hi]
    exact ⟨_, hfind, htake.chain, htake.last, htake.types⟩
  · rw [hs, Function.update_of_ne hj]

/-- A pass of the loop, when the loops find what the interface names. -/
theorem Receives.rcvLoop (hmsgs : Proper (s.msqs i).msgs)
    (h : s.rcvLoop c i msgsz msgtyp msgflg = some r)
    (hfound : msgtyp = -2 ^ 31 → (s.msqs i).msgs = []) : Receives s (some i) msgtyp r := by
  have hmissing : select msgtyp (s.msqs i).msgs = none → ¬ HasNamed msgtyp (s.msqs i).msgs := by
    intro hsel
    by_cases hlow : msgtyp = -2 ^ 31
    · rw [hfound hlow]
      rintro ⟨l₁, mp, l₂, hnil, -⟩
      simp at hnil
    · have hnames := select_names hlow (s.msqs i).msgs
      rw [hsel] at hnames
      exact hnames
  unfold Tables.rcvLoop at h
  by_cases hgate : s.gate i = true
  · rw [if_pos hgate] at h
    cases h
  rw [if_neg hgate] at h
  cases hsel : select msgtyp (s.msqs i).msgs with
  | none =>
    rw [hsel] at h
    simp only at h
    split_ifs at h
    · cases h
      refine ⟨fun _ hout => ?_, fun _ _ _ => rfl, fun _ => ⟨i, rfl, hmissing hsel⟩, fun hout => ?_⟩
      · cases hout
      · cases hout
    · cases h
      refine ⟨fun _ hout => ?_, fun _ _ hout => ?_, fun _ => ⟨i, rfl, hmissing hsel⟩,
        fun _ => ⟨i, rfl, _, rfl⟩⟩
      · cases hout
      · cases hout
  | some found =>
    obtain ⟨k, mp⟩ := found
    rw [hsel] at h
    cases h
    have hne : msgtyp ≠ -2 ^ 31 := by
      rintro hlow
      rw [hfound hlow] at hsel
      subst hlow
      cases hsel
    obtain ⟨l₁, l₂, hsplit, hlen, hnames⟩ : ∃ l₁ l₂, (s.msqs i).msgs = l₁ ++ mp :: l₂ ∧
        l₁.length = k ∧ IsNamed msgtyp l₁ mp l₂ := by
      have hnames := select_names hne (s.msqs i).msgs
      rw [hsel] at hnames
      exact hnames
    -- every successful end has the queue without the message, whatever its mode
    have hdone : ∀ (n : ℤ) (woken : Option ℕ) (s' : Tables t) (mode : ℕ),
        s'.msqs = Function.update s.msqs i (((s.msqs i).remove c k mp).setMode mode) →
        Receives s (some i) msgtyp ⟨.done n none, woken, s'⟩ := by
      intro n woken s' mode hs
      refine ⟨fun _ _ => ⟨i, rfl, l₁, mp, l₂, .remove hmsgs hsel hsplit hlen hnames hs⟩,
        fun _ _ hout => ?_, fun hout => ?_, fun hout => ?_⟩
      · cases hout
      · rcases hout with hout | hout
        · cases hout
        · cases hout
      · cases hout
    unfold Tables.dequeue
    simp only
    split_ifs
    · exact .fail (by decide)
    · exact .fail (by decide)
    all_goals exact hdone _ _ _ _ rfl

/-- A receive fails before it looks at the queue, or makes a pass of the loop. -/
theorem call_searched {e : Event} (he : e.wants = some msgtyp) (h : s.call e = some r) :
    match s.searched e with
    | none => ∃ err, err ≠ .ENOMSG ∧ r = s.fail err
    | some i => i < t.NMSQID ∧ ∃ c msgsz msgflg, s.rcvLoop c i msgsz msgtyp msgflg = some r := by
  cases e with
  | rcv c qid msgsz msgtyp' msgflg =>
    cases he
    rw [Tables.call, Tables.umsgrcv] at h
    rw [Tables.searched]
    cases hslot : s.rcvSlot qid with
    | none =>
      rw [hslot] at h
      cases h
      exact ⟨_, by decide, rfl⟩
    | some i =>
      rw [hslot] at h
      simp only at h
      by_cases hlack : ipcLackPerm c.cred (s.msqs i).msgPerm IRUGO = true
      · rw [if_pos hlack] at h
        cases h
        rw [Option.filter_some, if_neg (by simp [hlack])]
        exact ⟨_, by decide, rfl⟩
      · rw [if_neg hlack] at h
        rw [Option.filter_some, if_pos (by simpa using hlack)]
        exact ⟨rcvSlot_lt hslot, c, msgsz, msgflg, h⟩
  | rcvWake c i qid msgsz msgtyp' msgflg signalled =>
    cases he
    rw [Tables.call] at h
    split_ifs at h with hlt
    unfold Tables.umsgrcvWake at h
    rw [Tables.searched]
    split_ifs at h with hsig hseq
    · cases h
      rw [if_neg fun hok => absurd (hsig.symm.trans hok.1) (by decide)]
      exact ⟨_, by decide, rfl⟩
    · cases h
      rw [if_neg fun hok => hseq hok.2]
      exact ⟨_, by decide, rfl⟩
    · rw [if_pos ⟨by simpa using hsig, not_not.mp hseq⟩]
      exact ⟨hlt, c, msgsz, msgflg, h⟩
  | get => cases he
  | ctl => cases he
  | snd => cases he
  | sndWake => cases he

/-- **The interface of `msgrcv`.** Every receive takes exactly the message that its type names and
    keeps the others, or finds that there is none, and changes nothing where it fails; if and only
    if its type is not the lowest `long`, or the queue is empty. -/
theorem receive_named {e : Event} (hmsgs : ∀ i < t.NMSQID, Proper (s.msqs i).msgs)
    (he : e.wants = some msgtyp) (h : s.call e = some r) :
    Receives s (s.searched e) msgtyp r ↔
      ∀ i ∈ s.searched e, msgtyp = -2 ^ 31 → (s.msqs i).msgs = [] := by
  have hcall := call_searched he h
  cases hsearch : s.searched e with
  | none =>
    rw [hsearch] at hcall
    obtain ⟨err, herr, rfl⟩ := hcall
    exact ⟨fun _ i hi => absurd hi (Option.not_mem_none i), fun _ => .fail herr⟩
  | some i =>
    rw [hsearch] at hcall
    obtain ⟨hlt, c, msgsz, msgflg, hloop⟩ := hcall
    refine ⟨?_, fun hfound => .rcvLoop (hmsgs i hlt) hloop (hfound i rfl)⟩
    rintro hr _ ⟨⟩ rfl
    by_contra hne
    -- nothing is found, but a message is named
    have htypes := (hmsgs i hlt).types
    have hsel := select_lowest_long fun m hm => lt_of_lt_of_le (by decide) (htypes m hm).1
    have hout : r.outcome = .done (-1) (some .ENOMSG) ∨ r.outcome = .sleep := by
      unfold Tables.rcvLoop at hloop
      rw [hsel] at hloop
      simp only at hloop
      split_ifs at hloop
      · cases hloop
        exact .inl rfl
      · cases hloop
        exact .inr rfl
    obtain ⟨_, ⟨⟩, hnone⟩ := hr.missing hout
    exact hnone (named_lowest_long (fun m hm => (htypes m hm).2) hne)

/-- Three messages, of types 5, 2 and 9, are sent to the first queue. -/
def threeMsgs : List Event := [.get (rootCtx 0 0) 7 0o1666,
  .snd (rootCtx 0 100) 0 ⟨5, [1]⟩ 1 0, .snd (rootCtx 0 200) 0 ⟨2, [2]⟩ 1 0,
  .snd (rootCtx 0 300) 0 ⟨9, [3]⟩ 1 0]

/-- The queue that they make, and what two receives end with. -/
def ThreeMsgs (s : Tables twoTune) : Prop :=
  (s.msqs 0).msgs = [⟨100, 5, 1, 0⟩, ⟨200, 2, 1, 1⟩, ⟨300, 9, 1, 2⟩] ∧ (s.msqs 1).msgs = [] ∧
    s.searched (.rcv (rootCtx 0 0) 0 10 (-2 ^ 31) 0o4000) = some 0 ∧
    s.searched (.rcv (rootCtx 0 0) 0 10 (-6) 0) = some 0 ∧
    (s.call (.rcv (rootCtx 0 0) 0 10 (-6) 0)).map (·.outcome) = some (.done 1 none) ∧
    (s.call (.rcv (rootCtx 0 0) 0 10 (-2 ^ 31) 0o4000)).map (·.outcome) =
      some (.done (-1) (some .ENOMSG))

instance (s : Tables twoTune) : Decidable (ThreeMsgs s) :=
  inferInstanceAs (Decidable (_ ∧ _ ∧ _ ∧ _ ∧ _ ∧ _))

theorem threeMsgs_run : ∃ s, runFrom Tables.step twoQueues threeMsgs = some s ∧ ThreeMsgs s := by
  have heval : (runFrom Tables.step twoQueues threeMsgs).map (fun s => decide (ThreeMsgs s)) =
      some true := by
    decide +kernel
  obtain ⟨s, hs, hval⟩ := Option.map_eq_some_iff.mp heval
  exact ⟨s, hs, of_decide_eq_true hval⟩

/-- A type of −6 takes the message of type 2 from between the others. -/
theorem receive_named_middle : ∃ s r, runFrom Tables.step twoQueues threeMsgs = some s ∧
    s.call (.rcv (rootCtx 0 0) 0 10 (-6) 0) = some r ∧ r.outcome = .done 1 none ∧
    Receives s (some 0) (-6) r := by
  obtain ⟨s, hs, h0, h1, -, hsearch, hcall, -⟩ := threeMsgs_run
  obtain ⟨r, hr, hout⟩ := Option.map_eq_some_iff.mp hcall
  have hmsgs : ∀ i < 2, Proper (s.msqs i).msgs := by
    intro i hi
    interval_cases i
    · rw [h0]
      exact ⟨by decide, by decide⟩
    · rw [h1]
      exact ⟨by decide, by decide⟩
  have hnamed := receive_named hmsgs rfl hr
  rw [hsearch] at hnamed
  exact ⟨s, r, hs, hr, hout, hnamed.mpr fun _ _ hlow => absurd hlow (by decide)⟩

/-- **A message that is not found.** The messages are of types 5, 2 and 9, and a receive without
    waiting for the lowest type up to 2 ^ 31 ends with `ENOMSG`. -/
theorem lowest_long_lost : ∃ s r, runFrom Tables.step twoQueues threeMsgs = some s ∧
    s.call (.rcv (rootCtx 0 0) 0 10 (-2 ^ 31) 0o4000) = some r ∧
    ¬ Receives s (some 0) (-2 ^ 31) r := by
  obtain ⟨s, hs, h0, -, -, -, -, hcall⟩ := threeMsgs_run
  obtain ⟨r, hr, hout⟩ := Option.map_eq_some_iff.mp hcall
  refine ⟨s, r, hs, hr, fun hrec => ?_⟩
  obtain ⟨_, ⟨⟩, hnone⟩ := hrec.missing (.inl hout)
  rw [h0] at hnone
  exact hnone (named_lowest_long (by decide) (by decide))

end CohKernel.Msg386
