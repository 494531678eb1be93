import Mathlib.Algebra.Order.BigOperators.Group.List
import Mathlib.Algebra.Order.Group.Nat
import CohKernel.Message.Defs

namespace CohKernel.Message

/-!
# Trimming a message

What `adjmsg` does to the bytes of a message.

* `adjmsg_trims` — `adjmsg` trims a message if and only if the length is not negative;
* `adjmsg_tail` — a length below 0 leaves the message as it is, with the value 1.
-/

/-! ### What is to be trimmed -/

/-- What `adjmsg` must not change of a block. -/
def Mblk.header (b : Mblk) : UInt8 × UInt32 × UInt8 × UInt16 :=
    (b.dbType, b.dbBase, b.bBand, b.bFlag)

/-- The blocks of one type at the head of a message. -/
def Msg.lead (m : Msg) : List Mblk := leadRun (m.blocks.head m.ne).dbType m.blocks

/-- The blocks of one type at the tail of a message. -/
def Msg.trail (m : Msg) : List Mblk :=
    (leadRun (m.blocks.getLast m.ne).dbType m.blocks.reverse).reverse

/-- `adjmsg` returns 1 if there are enough bytes of one type at the head or at the tail, and if so
    it drops `len` bytes there, and changes nothing else. -/
structure Trims (m : Msg) (next : ℕ → List Mblk) (len : ℤ) (r : Adjusted) : Prop where
  val : r.val = true ↔ len.natAbs ≤ total (if 0 ≤ len then m.lead else m.trail)
  bytes : r.val = true → bytes r.blocks =
    if 0 ≤ len then (bytes m.blocks).drop len.natAbs
    else (bytes m.blocks).take (total m.blocks - len.natAbs)
  chain : r.val = true → r.blocks.map Mblk.header = m.blocks.map Mblk.header
  outside : r.val = true →
    if 0 ≤ len then r.blocks.drop m.lead.length = m.blocks.drop m.lead.length
    else r.blocks.take (m.blocks.length - m.trail.length) =
      m.blocks.take (m.blocks.length - m.trail.length)
  others : r.val = true → r.next = next

/-! ### From the head -/

section Head

variable {b : Mblk} {bs : List Mblk} {t : UInt8} {len : ℕ}

theorem bytes_cons (b : Mblk) (bs : List Mblk) : bytes (b :: bs) = b.data ++ bytes bs :=
  List.flatMap_cons

theorem total_cons (b : Mblk) (bs : List Mblk) : total (b :: bs) = b.size + total bs := by
  simp [total]

theorem length_bytes (bs : List Mblk) : (bytes bs).length = total bs := by
  induction bs with
  | nil => rfl
  | cons b bs ih => rw [bytes_cons, total_cons, List.length_append, ih]; rfl

theorem leadRun_cons (h : b.dbType = t) : leadRun t (b :: bs) = b :: leadRun t bs := by
  simp [leadRun, h]

theorem leadRun_stop (h : b.dbType ≠ t) : leadRun t (b :: bs) = [] := by
  simp [leadRun, h]

/-- What the loop at the head leaves. -/
structure Headed (t : UInt8) (bs : List Mblk) (len : ℕ) (r : List Mblk × Bool) : Prop where
  val : r.2 = true ↔ len ≤ total (leadRun t bs)
  bytes : r.2 = true → bytes r.1 = (bytes bs).drop len
  chain : r.1.map Mblk.header = bs.map Mblk.header
  outside : r.1.drop (leadRun t bs).length = bs.drop (leadRun t bs).length

/-- Nothing is to be dropped. -/
theorem Headed.none (t : UInt8) (bs : List Mblk) : Headed t bs 0 (bs, true) :=
  ⟨iff_of_true rfl (Nat.zero_le _), fun _ => rfl, rfl, rfl⟩

/-- A block holds the rest of what is dropped. -/
theorem Headed.part (h : b.dbType = t) (hlen : len ≤ b.size) :
    Headed t (b :: bs) len (b.advance len :: bs, true) := by
  refine ⟨iff_of_true rfl ?_, fun _ => ?_, rfl, ?_⟩
  · rw [leadRun_cons h, total_cons]
    exact le_trans hlen (Nat.le_add_right _ _)
  · rw [bytes_cons, bytes_cons]
    exact (List.drop_append_of_le_length hlen).symm
  · rw [leadRun_cons h]
    rfl

/-- The run ends, and more is to be dropped. -/
theorem Headed.short {b' : Mblk} (h : b.dbType = t) (hlen : b.size < len) (hrun : leadRun t bs = [])
    (hchain : b'.header = b.header) : Headed t (b :: bs) len (b' :: bs, false) := by
  have htotal : total (leadRun t (b :: bs)) = b.size := by
    rw [leadRun_cons h, total_cons, hrun]
    rfl
  refine ⟨iff_of_false Bool.false_ne_true ?_, fun hc => absurd hc Bool.false_ne_true, ?_, ?_⟩
  · rw [htotal]
    exact Nat.not_le.mpr hlen
  · rw [List.map_cons, List.map_cons, hchain]
  · rw [leadRun_cons h]
    rfl

/-- A block is emptied, and the loop goes on. -/
theorem Headed.clear {r : List Mblk × Bool} (h : b.dbType = t) (hlen : b.size < len)
    (hrest : Headed t bs (len - b.size) r) : Headed t (b :: bs) len (b.clear :: r.1, r.2) := by
  refine ⟨?_, fun hr => ?_, ?_, ?_⟩
  · rw [leadRun_cons h, total_cons]
    exact hrest.val.trans (by omega)
  · have hsplit : len = b.data.length + (len - b.size) :=
      (Nat.add_sub_of_le (Nat.le_of_lt hlen)).symm
    rw [bytes_cons, bytes_cons, hrest.bytes hr]
    show [] ++ _ = _
    rw [List.nil_append, hsplit, List.drop_length_add_append, ← hsplit]
  · rw [List.map_cons, List.map_cons, hrest.chain]
    rfl
  · rw [leadRun_cons h]
    exact hrest.outside

/-- **Bytes are dropped from the head**, where the blocks of its type hold enough. -/
theorem adjHead_spec (h : b.dbType = t) : Headed t (b :: bs) len (adjHead t (b :: bs) len) := by
  induction bs generalizing b len with
  | nil =>
    unfold adjHead
    split
    · next hlen =>
      rw [hlen]
      exact Headed.none t [b]
    · split
      · next hle => exact Headed.part h hle
      · next hle => exact Headed.short h (Nat.not_le.mp hle) rfl rfl
  | cons next more ih =>
    unfold adjHead
    split
    · next hlen =>
      rw [hlen]
      exact Headed.none t (b :: next :: more)
    · split
      · next hle => exact Headed.part h hle
      · next hle =>
        have hlt := Nat.not_le.mp hle
        dsimp only
        split
        · next htype => exact Headed.short h hlt (leadRun_stop htype) rfl
        · next htype => exact Headed.clear h hlt (ih (not_not.mp htype))

end Head

/-! ### From the tail -/

section Tail

variable {t : UInt8} {span pos : ℕ} {size len : ℤ} {all bs rest : List Mblk} {b x : Mblk}

/-- The span is at its first block, or holds it. -/
def Holds (all : List Mblk) (span pos : ℕ) (size : ℤ) : Prop :=
  span = pos ∧ 0 ≤ size ∨ ∃ x, all[span]? = some x ∧ (x.size : ℤ) ≤ size

/-- The span holds a block that the scan has passed. -/
theorem Holds.pass (h : Holds all span pos size) (hb : all[pos]? = some b) :
    ∃ x, all[span]? = some x ∧ (x.size : ℤ) ≤ size + b.size := by
  rcases h with ⟨rfl, hsize⟩ | ⟨x, hx, hsize⟩
  · exact ⟨b, hb, by omega⟩
  · exact ⟨x, hx, by omega⟩

/-- The last span holds its first block. -/
theorem lastSpan_spec (hdrop : all.drop pos = bs) (hne : bs ≠ []) (h : Holds all span pos size) :
    ∃ x, all[(lastSpan t span size pos bs).1]? = some x ∧
      (x.size : ℤ) ≤ (lastSpan t span size pos bs).2 := by
  induction bs generalizing t span size pos with
  | nil => exact absurd rfl hne
  | cons mp rest ih =>
    have hmp : all[pos]? = some mp := by
      rw [← List.head?_drop, hdrop]
      rfl
    have hrest : all.drop (pos + 1) = rest := by
      rw [← List.tail_drop, hdrop]
      rfl
    cases rest with
    | nil => exact h.pass hmp
    | cons next rest =>
      unfold lastSpan
      split
      · exact ih hrest (List.cons_ne_nil _ _) (.inl ⟨rfl, Int.le_refl 0⟩)
      · exact ih hrest (List.cons_ne_nil _ _) (.inr (h.pass hmp))

/-- A block that the size holds is not trimmed for a length below 0. -/
theorem trimSpan_head {r : List Mblk} (hsize : (x.size : ℤ) ≤ size) (hlen : len < 0)
    (h : trimSpan (x :: rest) size len = .ok r) : r.take 1 = [x] := by
  unfold trimSpan at h
  split at h
  · cases h
    rfl
  · dsimp only at h
    rw [if_neg (by omega)] at h
    simp only [bind, Except.bind, pure, Except.pure] at h
    cases hrest : trimSpan rest (size - x.size) len with
    | error halt =>
      rw [hrest] at h
      cases h
    | ok r' =>
      rw [hrest] at h
      cases h
      rfl

/-- **A length below 0** leaves the message as it is, with the value 1. -/
theorem adjmsg_neg {m : Msg} {next : ℕ → List Mblk} {r : Adjusted} (hlen : len < 0)
    (h : adjmsg m next len = .ok r) : r.val = true ∧ r.blocks = m.blocks := by
  obtain ⟨x, hx, hsize⟩ := lastSpan_spec (t := (m.blocks.head m.ne).dbType)
    (List.drop_zero (l := m.blocks)) m.ne (.inl ⟨rfl, Int.le_refl 0⟩)
  unfold adjmsg at h
  dsimp only at h
  rw [if_neg (by omega)] at h
  generalize hspan : lastSpan (m.blocks.head m.ne).dbType 0 0 0 m.blocks = span at h hx hsize
  rw [if_neg (by omega), hx] at h
  simp only [bind, Except.bind, pure, Except.pure] at h
  cases htrim : trimSpan ((some x).toList ++ next span.1) span.2 len with
  | error halt =>
    rw [htrim] at h
    cases h
  | ok trimmed =>
    rw [htrim] at h
    cases h
    refine ⟨decide_eq_true (by omega), ?_⟩
    show m.blocks.take span.1 ++ trimmed.take 1 ++ m.blocks.drop (span.1 + 1) = m.blocks
    rw [trimSpan_head hsize hlen htrim, List.append_assoc]
    obtain ⟨hlt, hget⟩ := List.getElem?_eq_some_iff.mp hx
    rw [← hget]
    show _ ++ (m.blocks[span.1] :: m.blocks.drop (span.1 + 1)) = _
    rw [← List.drop_eq_getElem_cons hlt, List.take_append_drop]

end Tail

/-! ### All lengths -/

theorem total_trail (m : Msg) : total m.trail ≤ total m.blocks := by
  have hsub : m.trail.Sublist m.blocks := by
    rw [← List.reverse_sublist]
    unfold Msg.trail leadRun
    rw [List.reverse_reverse]
    exact List.takeWhile_sublist _
  unfold total
  exact (hsub.map Mblk.size).sum_le_sum fun _ _ => Nat.zero_le _

/-- **`adjmsg` trims a message** if and only if the length is not negative. -/
theorem adjmsg_trims (m : Msg) (next : ℕ → List Mblk) (len : ℤ) :
    (∃ r, adjmsg m next len = .ok r ∧ Trims m next len r) ↔ 0 ≤ len := by
  constructor
  · rintro ⟨r, hr, htrims⟩
    by_contra hneg
    obtain ⟨hval, hblocks⟩ := adjmsg_neg (Int.not_le.mp hneg) hr
    have henough := htrims.val.mp hval
    have hbytes := congrArg List.length (htrims.bytes hval)
    rw [if_neg hneg] at henough hbytes
    rw [hblocks, List.length_take, length_bytes] at hbytes
    have htrail := total_trail m
    omega
  · intro hlen
    obtain ⟨b, bs, hbs⟩ := List.exists_cons_of_ne_nil m.ne
    have hhead : m.blocks.head m.ne = b := by simp [hbs]
    have hspec : Headed b.dbType m.blocks len.toNat (adjHead b.dbType m.blocks len.toNat) := by
      rw [hbs]
      exact adjHead_spec rfl
    have hlead : m.lead = leadRun b.dbType m.blocks := by rw [Msg.lead, hhead]
    have hnat : len.natAbs = len.toNat := by omega
    refine ⟨_, if_pos hlen, ?_, ?_, fun _ => ?_, fun _ => ?_, fun _ => rfl⟩
    · rw [if_pos hlen, hlead, hnat, hhead]
      exact hspec.val
    · intro hval
      rw [hhead] at hval ⊢
      rw [if_pos hlen, hnat]
      exact hspec.bytes hval
    · rw [hhead]
      exact hspec.chain
    · rw [if_pos hlen, hhead, hlead]
      exact hspec.outside

/-- A message of two bytes. -/
def twoBytes : Msg := ⟨[{ Mblk.fresh 0 with data := [1, 2] }], List.cons_ne_nil _ _, by decide⟩

/-- **The last byte stays**: a length of -1 leaves a message of two bytes as it is. -/
theorem adjmsg_tail : ¬ ∀ (m : Msg) (next : ℕ → List Mblk) (len : ℤ),
    ∃ r, adjmsg m next len = .ok r ∧ Trims m next len r := by
  intro hall
  obtain ⟨r, hr, htrims⟩ := hall twoBytes (fun _ => []) (-1)
  obtain ⟨hval, hblocks⟩ := adjmsg_neg (by decide) hr
  have hbytes := htrims.bytes hval
  rw [hblocks] at hbytes
  revert hbytes
  decide

end CohKernel.Message
