import CohKernel.Lib.Links
import CohKernel.Msg386.Queues

namespace CohKernel.Msg386

open CohKernel.Lib CohKernel.Ipc

/-!
# The links of a message queue

`umsgrcv` walks from `msg_first` over `msg_next` and remembers the header before the one that it
looks at; it takes a message out through the link of that header, or through `msg_first`.

* `Links.find_select` — the walk ends at the message that `select` gives;
* `Links.Of.take` — what is left are the links of the queue without the message.
-/

/-! ### The walk -/

/-- The ends of a queue, and what the headers in memory hold. -/
structure Links where
  msgFirst : Option ℕ
  msgLast : Option ℕ
  msgNext : ℕ → Option ℕ
  msgType : ℕ → ℤ

/-- The loop for the lowest type not above `msgtyp`: `prev` and `mp`, and the best message so far
    with its predecessor.  A queue of `fuel` messages is walked to its end. -/
def Links.findLowest (g : Links) (msgtyp : ℤ) :
    ℕ → Option ℕ → Option ℕ → Option ℕ × Option ℕ → Option ℕ × Option ℕ
  | 0, _, _, found => found
  | _ + 1, _, none, found => found
  | fuel + 1, prev, some mp, (xprev, qmin) =>
      if g.msgType mp > msgtyp then
        g.findLowest msgtyp fuel (some mp) (g.msgNext mp) (xprev, qmin)
      else
        match qmin with
        | none => g.findLowest msgtyp fuel (some mp) (g.msgNext mp) (prev, some mp)
        | some q =>
            if g.msgType mp < g.msgType q then
              g.findLowest msgtyp fuel (some mp) (g.msgNext mp) (prev, some mp)
            else g.findLowest msgtyp fuel (some mp) (g.msgNext mp) (xprev, some q)

/-- The loop for the first message of type `msgtyp`. -/
def Links.findType (g : Links) (msgtyp : ℤ) : ℕ → Option ℕ → Option ℕ → Option ℕ × Option ℕ
  | 0, prev, mp => (prev, mp)
  | _ + 1, prev, none => (prev, none)
  | fuel + 1, prev, some mp =>
      if g.msgType mp ≠ msgtyp then g.findType msgtyp fuel (some mp) (g.msgNext mp)
      else (prev, some mp)

/-- `prev` and `mp` when `umsgrcv` has looked for its message. -/
def Links.find (g : Links) (fuel : ℕ) (msgtyp : ℤ) : Option ℕ × Option ℕ :=
  if msgtyp < 0 then g.findLowest (negLong msgtyp) fuel none g.msgFirst (none, none)
  else if msgtyp > 0 then g.findType msgtyp fuel none g.msgFirst
  else (none, g.msgFirst)

/-- The links without message `mp`. -/
def Links.take (g : Links) (prev : Option ℕ) (mp : ℕ) : Links :=
  let via := prev.elim Via.head Via.next
  { g with
    msgFirst := via.storeHead g.msgFirst (g.msgNext mp)
    msgNext := via.storeNext g.msgNext (g.msgNext mp)
    msgLast := if g.msgLast = some mp then prev else g.msgLast }

/-! ### The walk finds what the list says -/

/-- The links are those of the queue. -/
structure Links.Of (g : Links) (qp : MsqidDs) : Prop where
  chain : Linked g.msgNext g.msgFirst (qp.msgs.map (·.addr))
  last : g.msgLast = qp.msgLast
  types : ∀ mp ∈ qp.msgs, g.msgType mp.addr = mp.msgType

/-- The header before position `k`. -/
def before (msgs : List Msg) (k : ℕ) : Option ℕ := if k = 0 then none else msgs[k - 1]?.map (·.addr)

/-- A position and its message, as the walk has them. -/
def links (msgs : List Msg) : Option (ℕ × Msg) → Option ℕ × Option ℕ
  | none => (none, none)
  | some (k, mp) => (before msgs k, some mp.addr)

variable {g : Links} {qp : MsqidDs} {mp : Msg} {msgs seen rest : List Msg} {msgtyp : ℤ} {fuel k : ℕ}

theorem before_length (seen : List Msg) (mp : Msg) (rest : List Msg) :
    before (seen ++ mp :: rest) (seen.length + 1) = some mp.addr := by
  rw [before, if_neg (Nat.succ_ne_zero _), Nat.add_sub_cancel,
    List.getElem?_append_right le_rfl, Nat.sub_self]
  rfl

/-- From a position on, the loop of the negative types goes as `lowest` does. -/
theorem findLowest_eq (seen : List Msg)
    (hchain : Linked g.msgNext (rest.head?.map (·.addr)) (rest.map (·.addr)))
    (htypes : ∀ mp ∈ seen ++ rest, g.msgType mp.addr = mp.msgType) (hfuel : rest.length ≤ fuel)
    {qmin : Option (ℕ × Msg)} (hqmin : ∀ r ∈ qmin, r.2 ∈ seen) :
    g.findLowest msgtyp fuel (before (seen ++ rest) seen.length) (rest.head?.map (·.addr))
        (links (seen ++ rest) qmin) =
      links (seen ++ rest) (lowest msgtyp seen.length qmin rest) := by
  induction rest generalizing seen fuel qmin with
  | nil => cases fuel <;> rfl
  | cons mp rest ih =>
    cases fuel with
    | zero => cases hfuel
    | succ fuel =>
      obtain ⟨-, hnext⟩ := hchain
      have hhead : g.msgNext mp.addr = rest.head?.map (·.addr) := by
        cases rest with
        | nil => exact hnext
        | cons m rest => exact hnext.1
      have hmp : g.msgType mp.addr = mp.msgType := htypes mp (by simp)
      have happ : seen ++ mp :: rest = (seen ++ [mp]) ++ rest := by simp
      have hlen : (seen ++ [mp]).length = seen.length + 1 := by simp
      -- the rest of the walk, whatever the best message is
      have hgo : ∀ qmin : Option (ℕ × Msg), (∀ r ∈ qmin, r.2 ∈ seen ++ [mp]) →
          g.findLowest msgtyp fuel (some mp.addr) (g.msgNext mp.addr)
              (links (seen ++ mp :: rest) qmin) =
            links (seen ++ mp :: rest) (lowest msgtyp (seen.length + 1) qmin rest) := by
        intro qmin hq
        rw [hhead, ← before_length seen mp rest, ← hlen, happ]
        exact ih _ (hhead ▸ hnext) (happ ▸ htypes) (Nat.le_of_succ_le_succ hfuel) hq
      have hkeep : ∀ r ∈ qmin, r.2 ∈ seen ++ [mp] :=
        fun r hr => List.mem_append_left _ (hqmin r hr)
      have hhere : ∀ r ∈ some (seen.length, mp), r.2 ∈ seen ++ [mp] := by
        rintro r ⟨⟩
        exact List.mem_append_right _ List.mem_cons_self
      have hnew := hgo (some (seen.length, mp)) hhere
      rw [List.head?_cons, Option.map_some]
      cases qmin with
      | none =>
        have hold := hgo none hkeep
        rw [links, Links.findLowest, lowest, hmp]
        split_ifs
        · exact hold
        · exact hnew
      | some r =>
        obtain ⟨j, q⟩ := r
        have hold := hgo (some (j, q)) hkeep
        have hq : g.msgType q.addr = q.msgType :=
          htypes q (List.mem_append_left _ (hqmin (j, q) rfl))
        rw [links, Links.findLowest, lowest, hmp]
        simp only [hq]
        split_ifs
        · exact hold
        · exact hnew
        · exact hold

/-- The loop of the positive types ends at the first message of the type. -/
theorem findType_eq (seen : List Msg)
    (hchain : Linked g.msgNext (rest.head?.map (·.addr)) (rest.map (·.addr)))
    (htypes : ∀ mp ∈ rest, g.msgType mp.addr = mp.msgType) (hfuel : rest.length ≤ fuel) :
    g.findType msgtyp fuel (before (seen ++ rest) seen.length) (rest.head?.map (·.addr)) =
      match rest.findIdx? fun mp => mp.msgType = msgtyp with
      | none => (before (seen ++ rest) (seen ++ rest).length, none)
      | some k => (before (seen ++ rest) (seen.length + k), rest[k]?.map (·.addr)) := by
  induction rest generalizing seen fuel with
  | nil =>
    rw [List.append_nil]
    cases fuel <;> rfl
  | cons mp rest ih =>
    cases fuel with
    | zero => cases hfuel
    | succ fuel =>
      obtain ⟨-, hnext⟩ := hchain
      obtain ⟨hmp, htypes⟩ := List.forall_mem_cons.mp htypes
      have hhead : g.msgNext mp.addr = rest.head?.map (·.addr) := by
        cases rest with
        | nil => exact hnext
        | cons m rest => exact hnext.1
      rw [List.head?_cons, Option.map_some, Links.findType, hmp, List.findIdx?_cons]
      by_cases htype : mp.msgType = msgtyp
      · rw [if_neg (not_not.mpr htype), if_pos (decide_eq_true htype)]
        rfl
      · have happ : seen ++ mp :: rest = (seen ++ [mp]) ++ rest := by simp
        have hlen : (seen ++ [mp]).length = seen.length + 1 := by simp
        rw [if_pos htype, if_neg (by simpa using htype), hhead, ← before_length seen mp rest,
          ← hlen, happ, ih _ (hhead ▸ hnext) htypes (Nat.le_of_succ_le_succ hfuel), hlen]
        cases rest.findIdx? fun mp => decide (mp.msgType = msgtyp) with
        | none => rfl
        | some k =>
          show (_, rest[k]?.map _) = (before _ (seen.length + (k + 1)), rest[k]?.map _)
          rw [Nat.add_right_comm, Nat.add_assoc]

theorem Links.Of.first (h : g.Of qp) : g.msgFirst = qp.msgs.head?.map (·.addr) := by
  have hchain := h.chain
  cases hmsgs : qp.msgs with
  | nil =>
    rw [hmsgs] at hchain
    exact hchain
  | cons mp rest =>
    rw [hmsgs] at hchain
    exact hchain.1

/-- **The walk ends at the selected message,** with the header before it; or at the end of the
    queue, if none is selected. -/
theorem Links.find_select (h : g.Of qp) (hfuel : qp.msgs.length ≤ fuel) (msgtyp : ℤ) :
    match select msgtyp qp.msgs with
    | none => (g.find fuel msgtyp).2 = none
    | some (k, mp) => g.find fuel msgtyp = (before qp.msgs k, some mp.addr) := by
  have hchain := h.chain
  have hfirst := h.first
  rw [hfirst] at hchain
  rw [Links.find, select, hfirst]
  split_ifs with hneg hpos
  · have hwalk : g.findLowest (negLong msgtyp) fuel none (qp.msgs.head?.map (·.addr)) (none, none) =
        links qp.msgs (lowest (negLong msgtyp) 0 none qp.msgs) :=
      findLowest_eq [] hchain h.types hfuel fun r hr => absurd hr (Option.not_mem_none r)
    rw [hwalk]
    cases lowest (negLong msgtyp) 0 none qp.msgs with
    | none => rfl
    | some r => rfl
  · have hwalk : g.findType msgtyp fuel none (qp.msgs.head?.map (·.addr)) = _ :=
      findType_eq [] hchain h.types hfuel
    rw [hwalk]
    cases hidx : qp.msgs.findIdx? fun mp => decide (mp.msgType = msgtyp) with
    | none => rfl
    | some k =>
      obtain ⟨hlt, -⟩ := List.findIdx?_eq_some_iff_getElem.mp hidx
      simp [List.getElem?_eq_getElem hlt]
  · cases qp.msgs with
    | nil => rfl
    | cons mp rest => rfl

/-! ### The message is taken out -/

/-- **A message is taken out,** the first one, the last one or one between. -/
theorem Links.Of.take (h : g.Of qp) (haddrs : (qp.msgs.map (·.addr)).Nodup)
    (hk : qp.msgs[k]? = some mp) (c : Ctx) :
    (g.take (before qp.msgs k) mp.addr).Of (qp.remove c k mp) := by
  obtain ⟨l₁, l₂, hmsgs, hlen, herase⟩ := split_at hk
  have hchain := h.chain
  rw [hmsgs, List.map_append, List.map_cons] at hchain haddrs
  have hnot : mp.addr ∉ l₁.map (·.addr) :=
    fun hmem => List.disjoint_of_nodup_append haddrs hmem List.mem_cons_self
  have hleft : (qp.remove c k mp).msgs.map (·.addr) =
      (l₁.map (·.addr) ++ mp.addr :: l₂.map (·.addr)).erase mp.addr := by
    rw [List.erase_append_right _ hnot, List.erase_cons_head, ← List.map_append, ← herase]
    rfl
  refine ⟨?_, ?_, fun m hm => h.types m (List.mem_of_mem_eraseIdx hm)⟩
  · rw [hleft]
    rcases List.eq_nil_or_concat' l₁ with rfl | ⟨l, m, rfl⟩
    · -- the first message goes through `msg_first`
      rw [show k = 0 from hlen.symm]
      have hread : Via.head.read g.msgNext g.msgFirst = some mp.addr := by
        exact hchain.1
      exact hchain.unlink haddrs (show Via.head.live _ from trivial) hread
    · have hbefore : before qp.msgs k = some m.addr := by
        rw [← hlen, hmsgs, List.append_assoc, List.length_append, List.singleton_append]
        exact before_length l m _
      rw [hbefore]
      have hlive : (Via.next m.addr).live
          ((l ++ [m]).map (·.addr) ++ mp.addr :: l₂.map (·.addr)) := by
        simp [Via.live]
      have hread : (Via.next m.addr).read g.msgNext g.msgFirst = some mp.addr := by
        rw [List.map_append, List.append_assoc] at hchain
        exact hchain.next_eq
      exact hchain.unlink haddrs hlive hread
  · show (if g.msgLast = some mp.addr then before qp.msgs k else g.msgLast) = _
    rw [h.last]
    rfl

end CohKernel.Msg386
