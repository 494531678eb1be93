import CohKernel.Message.Adjust

namespace CohKernel.Message

/-!
# Pulling up and copying a message

The messages that `msgpullup`, `pullupmsg` and `copymsg` make, against the message that they are
made from.

* `pullup_meets` — exactly when the three functions do what they are for;
* `pullup_doubles` — a message of one block is pulled up with its bytes twice.
-/

/-! ### What is to be made -/

/-- The number of bytes that are to be in the first block. -/
def Msg.pullLen (m : Msg) (len : UInt32) : ℕ := if len = -1 then total m.lead else len.toNat

/-- A message that is pulled up: its first block holds the first `len` bytes, it has the bytes of
    the original, and nothing is written beyond the block that was allocated. -/
structure PullsUp (m : Msg) (len : UInt32) (r : Pulled) : Prop where
  first : r.blocks.head?.map Mblk.data = some ((bytes m.blocks).take (m.pullLen len))
  bytes : bytes r.blocks = bytes m.blocks
  within : r.overrun = false

/-- What the three functions are for. -/
structure Meets (m : Msg) (len : UInt32) (mem : Memory) : Prop where
  pullup : ∀ r, msgpullup m len mem = some r → PullsUp m len r
  inPlace : ∀ r, pullupmsg m len mem = some r → bytes r.blocks = bytes m.blocks ∧ r.overrun = false
  copy : ∀ bs, copymsg m mem = some bs →
    bs.map (fun b => (b.dbType, b.data)) = m.blocks.map fun b => (b.dbType, b.data)

/-- One of `k` allocations fails, from the `n`-th on. -/
def Memory.lacks (mem : Memory) (n k : ℕ) : Prop := ∃ i, i < k ∧ mem (n + i) = none

/-- The blocks from the one at which the copy loop of `msgpullup` stops: the first that is larger
    than what is left of the length behind it. -/
def stopsAt : List Mblk → UInt32 → List Mblk
  | [], _ => []
  | mp :: rest, len =>
      if len - UInt32.ofNat mp.size < UInt32.ofNat mp.size then mp :: rest
      else stopsAt rest (len - UInt32.ofNat mp.size)

/-- `msgpullup` fails: the bytes at the head of the message are too few, or memory is lacking. -/
def Msg.pullFails (m : Msg) (len : UInt32) (mem : Memory) : Prop :=
  if len = 0 then mem.lacks 0 m.blocks.length
  else len ≠ -1 ∧ total m.lead < len.toNat ∨ mem 0 = none ∨
    mem.lacks 1 (stopsAt m.blocks (UInt32.ofNat (m.pullLen len))).length

/-! ### Blocks that are made -/

section Blocks

variable {mem : Memory} {make : ℕ → Mblk → Option Mblk} {n : ℕ} {bs bs' : List Mblk} {b : Mblk}

theorem lacks_succ {k : ℕ} : mem.lacks n (k + 1) ↔ mem n = none ∨ mem.lacks (n + 1) k := by
  constructor
  · rintro ⟨i, hi, hnone⟩
    cases i with
    | zero => exact .inl hnone
    | succ i => exact .inr ⟨i, by omega, by rw [← hnone]; congr 1; omega⟩
  · rintro (hnone | ⟨i, hi, hnone⟩)
    · exact ⟨0, by omega, hnone⟩
    · exact ⟨i + 1, by omega, by rw [← hnone]; congr 1; omega⟩

/-- Blocks are not made if and only if memory is lacking. -/
theorem makeBlocks_none (hmake : ∀ n b, make n b = none ↔ mem n = none) :
    makeBlocks make n bs = none ↔ mem.lacks n bs.length := by
  induction bs generalizing n with
  | nil => exact iff_of_false (by simp [makeBlocks]) fun ⟨_, hi, _⟩ => absurd hi (Nat.not_lt_zero _)
  | cons b bs ih =>
    rw [List.length_cons, lacks_succ, ← ih, ← hmake n b]
    show (make n b >>= fun x => makeBlocks make (n + 1) bs >>= fun xs => some (x :: xs)) = none ↔ _
    cases make n b with
    | none => exact iff_of_true rfl (.inl rfl)
    | some x =>
      cases makeBlocks make (n + 1) bs with
      | none => exact iff_of_true rfl (.inr rfl)
      | some xs => exact iff_of_false (by simp) (by simp)

/-- What each block keeps, the blocks keep. -/
theorem makeBlocks_map {α : Type} {f g : Mblk → α}
    (hmake : ∀ n b b', make n b = some b' → f b' = g b)
    (h : makeBlocks make n bs = some bs') : bs'.map f = bs.map g := by
  induction bs generalizing n bs' with
  | nil =>
    cases h
    rfl
  | cons b bs ih =>
    obtain ⟨x, hx, h⟩ := Option.bind_eq_some_iff.mp h
    obtain ⟨xs, hxs, h⟩ := Option.bind_eq_some_iff.mp h
    cases h
    rw [List.map_cons, List.map_cons, hmake n b x hx, ih hxs]

theorem dupmsg_none : dupmsg mem n bs = none ↔ mem.lacks n bs.length :=
  makeBlocks_none fun _ _ => Option.map_eq_none_iff

/-- A duplicate has the bytes of its original, block by block. -/
theorem dupmsg_data (h : dupmsg mem n bs = some bs') : bs'.map Mblk.data = bs.map Mblk.data := by
  refine makeBlocks_map (fun n b b' hb => ?_) h
  obtain ⟨_, _, rfl⟩ := Option.map_eq_some_iff.mp hb
  rfl

/-- Only the data of the blocks counts. -/
theorem bytes_congr (h : bs'.map Mblk.data = bs.map Mblk.data) : bytes bs' = bytes bs := by
  unfold bytes
  rw [List.flatMap_def, List.flatMap_def, h]

end Blocks

/-! ### The copy loop -/

section Loop

variable {mem : Memory} {bs rest : List Mblk} {mp : Mblk} {len : UInt32}

theorem bytes_append (as bs : List Mblk) : bytes (as ++ bs) = bytes as ++ bytes bs :=
  List.flatMap_append

/-- The loop copies all blocks up to the one at which it stops, and that one, too; it goes on with a
    duplicate of the same block. -/
theorem pullLoop_spec (mem : Memory) (bs : List Mblk) (copied : List UInt8) (len : UInt32) :
    ∃ pre, bs = pre ++ stopsAt bs len ∧ pullLoop mem bs copied len =
      (dupmsg mem 1 (stopsAt bs len)).map fun cont =>
        (copied ++ bytes pre ++ ((stopsAt bs len).head?.elim [] Mblk.data), cont) := by
  induction bs generalizing copied len with
  | nil => exact ⟨[], rfl, by simp [pullLoop, stopsAt, dupmsg, makeBlocks, bytes]⟩
  | cons mp rest ih =>
    unfold pullLoop stopsAt
    dsimp only
    split
    · exact ⟨[], rfl, by simp [bytes]⟩
    · obtain ⟨pre, hpre, hloop⟩ := ih (copied ++ mp.data) (len - UInt32.ofNat mp.size)
      refine ⟨mp :: pre, ?_, ?_⟩
      · rw [List.cons_append, ← hpre]
      · rw [hloop, bytes_cons, List.append_assoc copied]

/-- The block at which the loop stops is not empty. -/
theorem stopsAt_pos (h : stopsAt bs len = mp :: rest) : mp.data ≠ [] := by
  induction bs generalizing len with
  | nil => cases h
  | cons b bs ih =>
    unfold stopsAt at h
    split at h
    · next hlt =>
      cases h
      intro hdata
      have hzero : mp.size = 0 := by rw [Mblk.size, hdata]; rfl
      rw [hzero] at hlt
      exact absurd hlt (UInt32.not_lt.mpr UInt32.zero_le)
    · exact ih h

/-- Where the length is that of all bytes, the loop stops unless there are none. -/
theorem stopsAt_total (hfits : total bs < 2 ^ 32) (h : stopsAt bs (UInt32.ofNat (total bs)) = []) :
    total bs = 0 := by
  induction bs with
  | nil => rfl
  | cons b bs ih =>
    rw [total_cons] at hfits h ⊢
    have hleft : UInt32.ofNat (b.size + total bs) - UInt32.ofNat b.size = UInt32.ofNat
        (total bs) := by
      rw [Nat.add_comm, UInt32.ofNat_add, UInt32.add_sub_cancel]
    unfold stopsAt at h
    rw [hleft] at h
    split at h
    · cases h
    · next hle =>
      have hrest := ih (lt_of_le_of_lt (Nat.le_add_left _ _) hfits) h
      have hb : b.size < UInt32.size := lt_of_le_of_lt (Nat.le_add_right _ _) hfits
      rw [hrest, UInt32.not_lt, UInt32.le_iff_toNat_le, UInt32.toNat_ofNat_of_lt' hb] at hle
      have hzero : (UInt32.ofNat 0).toNat = 0 := rfl
      omega

end Loop

/-! ### Pulling up -/

section Pull

variable {m : Msg} {len : UInt32} {mem : Memory} {r : Pulled}

theorem total_lead (m : Msg) : total m.lead ≤ total m.blocks := by
  have hsub : m.lead.Sublist m.blocks := List.takeWhile_sublist _
  unfold total
  exact (hsub.map Mblk.size).sum_le_sum fun _ _ => Nat.zero_le _

/-- `msgpullup` for a length other than 0. -/
theorem msgpullup_eq (hlen : len ≠ 0) : msgpullup m len mem =
    if len ≠ -1 ∧ total m.lead < len.toNat then none
    else (msgbAlloc mem 0).bind fun scan =>
      (pullLoop mem m.blocks [] (UInt32.ofNat (m.pullLen len))).map fun got =>
        ⟨{ scan with bBand := (m.blocks.head m.ne).bBand
                     bFlag := scan.bFlag ||| ((m.blocks.head m.ne).bFlag &&& ~~~MSGMASK_SYSTEM)
                     data := got.1 } :: got.2, decide (m.pullLen len < got.1.length)⟩ := by
  have hlead : total m.lead < UInt32.size :=
    lt_of_le_of_lt (total_lead m) (lt_trans m.fits (by decide))
  have hsize : (UInt32.ofNat (total m.lead)).toNat = total m.lead := UInt32.toNat_ofNat_of_lt' hlead
  have hlt : UInt32.ofNat (total m.lead) < len ↔ total m.lead < len.toNat := by
    rw [UInt32.lt_iff_toNat_lt, hsize]
  have hpull : (if len = -1 then UInt32.ofNat (total m.lead) else len) =
      UInt32.ofNat (m.pullLen len) := by
    unfold Msg.pullLen
    split
    · rfl
    · exact UInt32.ofNat_toNat.symm
  have htoNat : (UInt32.ofNat (m.pullLen len)).toNat = m.pullLen len := by
    unfold Msg.pullLen
    split
    · exact hsize
    · rw [UInt32.ofNat_toNat]
  unfold msgpullup
  dsimp only
  rw [if_neg hlen, ← Msg.lead, hpull, htoNat]
  by_cases hfew : len ≠ -1 ∧ total m.lead < len.toNat
  · rw [if_pos hfew, if_pos ⟨hfew.1, hlt.mpr hfew.2⟩]
  · rw [if_neg hfew, if_neg fun hc => hfew ⟨hc.1, hlt.mp hc.2⟩]
    cases msgbAlloc mem 0 with
    | none => rfl
    | some scan => cases pullLoop mem m.blocks [] (UInt32.ofNat (m.pullLen len)) <;> rfl

/-- `msgpullup` fails as expected. -/
theorem msgpullup_none : msgpullup m len mem = none ↔ m.pullFails len mem := by
  unfold Msg.pullFails
  by_cases hlen : len = 0
  · rw [if_pos hlen]
    unfold msgpullup
    dsimp only
    rw [if_pos hlen, Option.map_eq_none_iff]
    exact dupmsg_none
  · obtain ⟨pre, -, hloop⟩ := pullLoop_spec mem m.blocks [] (UInt32.ofNat (m.pullLen len))
    rw [if_neg hlen, msgpullup_eq hlen, hloop, ← dupmsg_none]
    split
    · next hfew => exact iff_of_true rfl (.inl hfew)
    · next hfew =>
      rw [or_iff_right hfew]
      cases hmem : mem 0 with
      | none => exact iff_of_true (by simp [msgbAlloc, hmem]) (.inl rfl)
      | some got =>
        cases hdup : dupmsg mem 1 (stopsAt m.blocks (UInt32.ofNat (m.pullLen len))) with
        | none => exact iff_of_true (by simp [msgbAlloc, hmem]) (.inr rfl)
        | some dup => exact iff_of_false (by simp [msgbAlloc, hmem]) (by simp)

/-- For the length 0 `msgpullup` makes a duplicate. -/
theorem msgpullup_zero (h : msgpullup m 0 mem = some r) :
    r.blocks.map Mblk.data = m.blocks.map Mblk.data ∧ r.overrun = false := by
  obtain ⟨dup, hdup, rfl⟩ := Option.map_eq_some_iff.mp h
  exact ⟨dupmsg_data hdup, rfl⟩

/-- For another length `msgpullup` copies the blocks up to the one at which the loop stops, and
    duplicates that one and the others. -/
theorem msgpullup_some (hlen : len ≠ 0) (h : msgpullup m len mem = some r) :
    m.pullLen len ≤ total m.blocks ∧
    ∃ pre scan cont, m.blocks = pre ++ stopsAt m.blocks (UInt32.ofNat (m.pullLen len)) ∧
      r = ⟨scan :: cont, decide (m.pullLen len < scan.data.length)⟩ ∧
      scan.data = bytes pre ++
        (stopsAt m.blocks (UInt32.ofNat (m.pullLen len))).head?.elim [] Mblk.data ∧
      bytes cont = bytes (stopsAt m.blocks (UInt32.ofNat (m.pullLen len))) := by
  obtain ⟨pre, hpre, hloop⟩ := pullLoop_spec mem m.blocks [] (UInt32.ofNat (m.pullLen len))
  rw [msgpullup_eq hlen, hloop] at h
  split at h
  · cases h
  · next hfew =>
    have hle : m.pullLen len ≤ total m.lead := by
      unfold Msg.pullLen
      split
      · exact le_refl _
      · next hminus => exact Nat.not_lt.mp fun hlt => hfew ⟨hminus, hlt⟩
    obtain ⟨scan, -, h⟩ := Option.bind_eq_some_iff.mp h
    obtain ⟨got, hgot, rfl⟩ := Option.map_eq_some_iff.mp h
    obtain ⟨cont, hcont, rfl⟩ := Option.map_eq_some_iff.mp hgot
    exact ⟨le_trans hle (total_lead m), pre, _, cont, hpre, rfl, rfl, bytes_congr
      (dupmsg_data hcont)⟩

/-- The data of all blocks are copied and more, unless there are none. -/
theorem PullsUp.bytes_nil (hlen : len ≠ 0) (h : msgpullup m len mem = some r)
    (hr : PullsUp m len r) : CohKernel.Message.bytes m.blocks = [] := by
  obtain ⟨hle, pre, scan, cont, hpre, rfl, hscan, hcont⟩ := msgpullup_some hlen h
  cases hstop : stopsAt m.blocks (UInt32.ofNat (m.pullLen len)) with
  | nil =>
    -- all bytes are in the first block, which must be as many as the length
    rw [hstop] at hpre hscan
    rw [List.append_nil] at hpre
    have hdata : scan.data = CohKernel.Message.bytes m.blocks := by
      rw [hscan, ← hpre]
      exact List.append_nil _
    have hfirst : scan.data = (CohKernel.Message.bytes m.blocks).take (m.pullLen len) :=
      Option.some.inj hr.first
    have hlength := congrArg List.length (hdata.symm.trans hfirst)
    rw [List.length_take, length_bytes] at hlength
    have htotal : m.pullLen len = total m.blocks := by omega
    rw [htotal] at hstop
    apply List.eq_nil_of_length_eq_zero
    rw [length_bytes]
    exact stopsAt_total (lt_trans m.fits (by decide)) hstop
  | cons mp rest =>
    -- the block at which the loop stops is there twice
    have hpos := stopsAt_pos hstop
    have hbytes := congrArg List.length hr.bytes
    rw [hstop] at hpre hscan hcont
    rw [bytes_cons, hscan, hcont, congrArg CohKernel.Message.bytes hpre, bytes_append] at hbytes
    have hlength := List.length_pos_of_ne_nil hpos
    simp only [List.length_append, List.head?_cons, Option.elim_some] at hbytes
    omega

/-- A message whose first block is empty is pulled up for the length 0. -/
theorem pullsUp_zero (hempty : (m.blocks.head m.ne).data = []) (h : msgpullup m 0 mem = some r) :
    PullsUp m 0 r := by
  obtain ⟨hdata, hover⟩ := msgpullup_zero h
  refine ⟨?_, bytes_congr hdata, hover⟩
  rw [← List.head?_map, hdata, List.head?_map, List.head?_eq_some_head m.ne, Option.map_some,
    hempty]
  rfl

/-- A message without bytes is pulled up. -/
theorem pullsUp_nil (hnil : CohKernel.Message.bytes m.blocks = [])
    (h : msgpullup m len mem = some r) : PullsUp m len r := by
  by_cases hlen : len = 0
  · subst hlen
    refine pullsUp_zero ?_ h
    rw [← List.cons_head_tail m.ne, bytes_cons] at hnil
    exact (List.append_eq_nil_iff.mp hnil).1
  · obtain ⟨hle, pre, scan, cont, hpre, rfl, hscan, hcont⟩ := msgpullup_some hlen h
    have hnil' := hnil
    rw [hpre, bytes_append] at hnil'
    obtain ⟨hpre', hstop'⟩ := List.append_eq_nil_iff.mp hnil'
    have hstop : stopsAt m.blocks (UInt32.ofNat (m.pullLen len)) = [] := by
      cases hstop : stopsAt m.blocks (UInt32.ofNat (m.pullLen len)) with
      | nil => rfl
      | cons mp rest =>
        rw [hstop, bytes_cons] at hstop'
        exact absurd (List.append_eq_nil_iff.mp hstop').1 (stopsAt_pos hstop)
    rw [hpre', hstop] at hscan
    have hdata : scan.data = [] := hscan
    refine ⟨?_, ?_, ?_⟩
    · rw [hnil, List.take_nil]
      exact congrArg some hdata
    · rw [bytes_cons, hdata, hcont, hstop', hnil, List.append_nil]
    · rw [hdata]
      rfl

/-- Exactly when `msgpullup` pulls a message up. -/
theorem msgpullup_iff : (∀ r, msgpullup m len mem = some r → PullsUp m len r) ↔
    m.pullFails len mem ∨ len = 0 ∧ (m.blocks.head m.ne).data = [] ∨
      CohKernel.Message.bytes m.blocks = [] := by
  constructor
  · intro h
    cases hr : msgpullup m len mem with
    | none => exact .inl (msgpullup_none.mp hr)
    | some r =>
      have hpulls := h r hr
      by_cases hlen : len = 0
      · subst hlen
        obtain ⟨hdata, -⟩ := msgpullup_zero hr
        have hfirst := hpulls.first
        rw [← List.head?_map, hdata, List.head?_map, List.head?_eq_some_head m.ne] at hfirst
        exact .inr (.inl ⟨rfl, Option.some.inj hfirst⟩)
      · exact .inr (.inr (hpulls.bytes_nil hlen hr))
  · rintro (hfails | ⟨rfl, hempty⟩ | hnil) r hr
    · rw [msgpullup_none.mpr hfails] at hr
      cases hr
    · exact pullsUp_zero hempty hr
    · exact pullsUp_nil hnil hr

end Pull

/-! ### In place, and copying -/

section Copy

variable {m : Msg} {len : UInt32} {mem : Memory}

/-- What `msgpullup` makes replaces the message. -/
theorem pullupmsg_bytes (h : ∀ r, msgpullup m len mem = some r → PullsUp m len r) {r : Pulled}
    (hr : pullupmsg m len mem = some r) : bytes r.blocks = bytes m.blocks ∧ r.overrun = false := by
  unfold pullupmsg at hr
  split at hr
  · cases hr
    exact ⟨rfl, rfl⟩
  · obtain ⟨newmsg, hnew, hr⟩ := Option.bind_eq_some_iff.mp hr
    have hpulls := h newmsg hnew
    have hbytes := hpulls.bytes
    dsimp only at hr
    split at hr
    · cases hr
    · next new cont hblocks =>
      cases hr
      rw [hblocks] at hbytes
      exact ⟨hbytes, hpulls.within⟩

/-- The blocks of a copy have the data of the original, and are of the type of data. -/
theorem copymsg_map {bs : List Mblk} (h : copymsg m mem = some bs) :
    (bs.map fun b => (b.dbType, b.data)) = m.blocks.map fun b => (M_DATA, b.data) := by
  obtain ⟨new, hnew, rfl⟩ := Option.map_eq_some_iff.mp h
  have htype : (new.map Mblk.dbType) = m.blocks.map fun _ => M_DATA := by
    refine makeBlocks_map (fun n b b' hb => ?_) hnew
    obtain ⟨_, _, rfl⟩ := Option.map_eq_some_iff.mp hb
    rfl
  clear h hnew
  generalize m.blocks = bs at htype ⊢
  induction new generalizing bs with
  | nil =>
    cases bs with
    | nil => rfl
    | cons b bs => cases htype
  | cons x new ih =>
    cases bs with
    | nil => rfl
    | cons b bs =>
      obtain ⟨hx, hnew⟩ := List.cons.inj htype
      rw [List.zipWith_cons_cons, List.map_cons, List.map_cons, ih bs hnew, hx]

/-- Exactly when a copy has the types of its original. -/
theorem copymsg_iff : (∀ bs, copymsg m mem = some bs →
      bs.map (fun b => (b.dbType, b.data)) = m.blocks.map fun b => (b.dbType, b.data)) ↔
    (∀ b ∈ m.blocks, b.dbType = M_DATA) ∨ mem.lacks 0 m.blocks.length := by
  have hnone : copymsg m mem = none ↔ mem.lacks 0 m.blocks.length := by
    unfold copymsg
    rw [Option.map_eq_none_iff]
    exact makeBlocks_none fun _ _ => Option.map_eq_none_iff
  have htypes : (m.blocks.map fun b => (M_DATA, b.data)) =
      (m.blocks.map fun b => (b.dbType, b.data)) ↔
      ∀ b ∈ m.blocks, b.dbType = M_DATA := by
    rw [List.map_inj_left]
    exact forall₂_congr fun b _ => ⟨fun h => (Prod.mk.inj h).1.symm, fun h => by rw [h]⟩
  rw [← hnone]
  cases hcopy : copymsg m mem with
  | none => exact iff_of_true (fun bs hbs => by cases hbs) (.inr rfl)
  | some new =>
    rw [or_iff_left (by simp), ← htypes, ← copymsg_map hcopy]
    exact ⟨fun h => h new rfl, fun h bs hbs => by cases hbs; exact h⟩

/-- **Exactly when the three functions do what they are for.**  A message is pulled up only if
    `msgpullup` fails or there are no bytes to pull up, and it is copied with its types only if they
    are all `M_DATA`. -/
theorem pullup_meets (m : Msg) (len : UInt32) (mem : Memory) : Meets m len mem ↔
    (m.pullFails len mem ∨ len = 0 ∧ (m.blocks.head m.ne).data = [] ∨ bytes m.blocks = []) ∧
    ((∀ b ∈ m.blocks, b.dbType = M_DATA) ∨ mem.lacks 0 m.blocks.length) := by
  rw [← msgpullup_iff, ← copymsg_iff]
  constructor
  · exact fun h => ⟨h.pullup, h.copy⟩
  · exact fun ⟨hpull, hcopy⟩ => ⟨hpull, fun r hr => pullupmsg_bytes hpull hr, hcopy⟩

/-- **The bytes are doubled**: of a message of two bytes `msgpullup` makes one of four. -/
theorem pullup_doubles :
    ¬ ∀ (m : Msg) (len : UInt32) (mem : Memory), Meets m len mem := by
  intro hall
  have hpull := (hall twoBytes (-1) fun _ => some (0, ⟨0, 0⟩)).pullup
    ⟨[{ Mblk.fresh 0 with data := [1, 2] }, { Mblk.fresh 0 with bFlag := 0, data := [1, 2] }],
      false⟩
    (by decide)
  exact absurd hpull.bytes (by decide)

end Copy

end CohKernel.Message
