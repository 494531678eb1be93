import CohKernel.Lib.Runs
import CohKernel.Termio.Defs

namespace CohKernel.Termio

open CohKernel.Lib

/-!
# What `ttout` emits

`ttout` gives the driver one byte for each call, and keeps what a byte of the queue still has to
become: spaces to the next tab stop, or the newline behind a carriage return.  `render` is the whole
output, with nothing pending.

* `mapped_image` — what `ttout` emits at once and what it keeps, together;
* `Kept.step` — a write or a call of `ttout` keeps the emitted bytes a part of the whole output;
* `ttout_renders` — so do all runs, and `t_hpos` is the column when output is processed.
-/

/-! ### The whole output -/

/-- The column after a byte. -/
def advance (n : ℕ) (c : Byte) : ℕ :=
  if c = BS then n - 1
  else if c = CR then 0
  else if c = TAB then 8 * (n / 8) + 8
  else if prints c = true then n + 1
  else n

/-- The column that the bytes have reached. -/
def column (bytes : List Byte) : ℕ := bytes.foldl advance 0

variable (md : Mode)

/-- What a byte becomes at column `n`. -/
def image (n : ℕ) (c : Byte) : List Byte :=
  if md.opost = false then [c]
  else if c = NL ∧ md.onlcr = true then [CR, NL]
  else if c = CR ∧ md.ocrnl = true then [NL]
  else if c = TAB ∧ md.tab3 = true then List.replicate (8 - n % 8) SPACE
  else [c]

/-- What the bytes become, from column `n` on. -/
def render (n : ℕ) : List Byte → List Byte
  | [] => []
  | c :: cs => image md n c ++ render ((image md n c).foldl advance n) cs

/-- An `int` can count all the columns that the output reaches, if anybody counts them. -/
def Countable (written : List Byte) : Prop :=
  md.opost = true → ∀ out, out <+: render md 0 written → column out < 2 ^ 31

variable {md} {n : ℕ} {c : Byte} {cs bytes written : List Byte} {t : Tty}

theorem column_append (out : List Byte) (cs : List Byte) :
    column (out ++ cs) = cs.foldl advance (column out) := List.foldl_append

theorem render_append (n : ℕ) (bytes cs : List Byte) :
    render md n (bytes ++ cs) =
      render md n bytes ++ render md ((render md n bytes).foldl advance n) cs := by
  induction bytes generalizing n with
  | nil => rfl
  | cons c bytes ih =>
    rw [List.cons_append, render, render, ih, List.append_assoc, List.foldl_append]

/-- Raw output is not changed. -/
theorem render_raw (hraw : md.opost = false) (n : ℕ) (bytes : List Byte) :
    render md n bytes = bytes := by
  induction bytes generalizing n with
  | nil => rfl
  | cons c bytes ih => rw [render, ih, image, if_pos hraw, List.singleton_append]

theorem Countable.init (h : Countable md (written ++ cs)) : Countable md written := by
  intro hpost out hout
  rw [Countable, render_append] at h
  exact h hpost out (hout.trans (List.prefix_append _ _))

/-! ### The position -/

theorem or_seven (n : ℕ) : n ||| 7 = 8 * (n / 8) + 7 := by
  have hlow : ∀ k, k < 8 → k ||| 7 = 7 := by decide
  have hn : 8 * (n / 8) + n % 8 = 8 * (n / 8) ||| n % 8 :=
    Nat.two_pow_add_eq_or_of_lt (i := 3) (Nat.mod_lt _ (by decide)) _
  have h7 : 8 * (n / 8) + 7 = 8 * (n / 8) ||| 7 :=
    Nat.two_pow_add_eq_or_of_lt (i := 3) (by decide) _
  calc n ||| 7 = (8 * (n / 8) ||| n % 8) ||| 7 := by rw [← hn, Nat.div_add_mod]
    _ = 8 * (n / 8) ||| 7 := by rw [Nat.or_assoc, hlow _ (Nat.mod_lt _ (by decide))]
    _ = 8 * (n / 8) + 7 := h7.symm

/-- The number of spaces that `ttout` keeps. -/
theorem nfill_toNat (h : BitVec 32) :
    ((~~~(h ||| ~~~7)).setWidth 8).toNat = 7 - h.toNat % 8 := by
  have heq : ~~~(h ||| ~~~7) = ~~~h &&& 7 := by
    rw [BitVec.not_or, BitVec.not_not]
  have hand : (2 ^ 32 - 1 - h.toNat) &&& 7 = (2 ^ 32 - 1 - h.toNat) % 8 :=
    Nat.and_two_pow_sub_one_eq_mod (n := 3) _
  have hlt := h.isLt
  rw [heq, BitVec.toNat_setWidth, BitVec.toNat_and, BitVec.toNat_not]
  show ((2 ^ 32 - 1 - h.toNat) &&& 7) % 2 ^ 8 = _
  rw [hand]
  omega

theorem moved_hpos (hpost : md.opost = true) (hn : t.tHpos.toNat = n) (hlt : n < 2 ^ 31)
    (c : Byte) : (t.moved md c).tHpos.toNat = advance n c := by
  simp only [Tty.moved, if_pos hpost, advance]
  split_ifs with hbs hzero hcr htab hprint
  · show (0 : BitVec 32).toNat = n - 1
    rw [← hn, hzero]
    rfl
  · have hne : t.tHpos.toNat ≠ 0 := fun h => hzero (BitVec.eq_of_toNat_eq h)
    show (t.tHpos - 1).toNat = n - 1
    rw [BitVec.toNat_sub]
    show (2 ^ 32 - 1 + t.tHpos.toNat) % 2 ^ 32 = n - 1
    omega
  · rfl
  · show ((t.tHpos ||| 7) + 1).toNat = _
    rw [BitVec.toNat_add, BitVec.toNat_or]
    show ((t.tHpos.toNat ||| 7) + 1) % 2 ^ 32 = _
    rw [or_seven]
    omega
  · show (t.tHpos + 1).toNat = _
    rw [BitVec.toNat_add]
    show (t.tHpos.toNat + 1) % 2 ^ 32 = _
    omega
  · exact hn

/-- Without output processing nobody counts the columns. -/
theorem moved_raw (hraw : md.opost = false) (t : Tty) (c : Byte) : t.moved md c = t := by
  rw [Tty.moved, if_neg (by rw [hraw]; exact Bool.false_ne_true)]

theorem moved_fields (t : Tty) (c : Byte) :
    (t.moved md c).tOq = t.tOq ∧ (t.moved md c).tNfill = t.tNfill ∧
      (t.moved md c).tFillb = t.tFillb ∧ (t.moved md c).tInl = t.tInl := by
  unfold Tty.moved
  split_ifs <;> exact ⟨rfl, rfl, rfl, rfl⟩

/-! ### What is pending -/

/-- What the bytes that have left the queue still have to become. -/
def Tty.pending (t : Tty) : List Byte :=
  List.replicate t.tNfill.toNat t.tFillb ++ if t.tInl = true then [NL] else []

/-- All that has still to come. -/
def Tty.rest (md : Mode) (t : Tty) (n : ℕ) : List Byte :=
  t.pending ++ render md (t.pending.foldl advance n) t.tOq

theorem pending_moved (t : Tty) (c : Byte) : (t.moved md c).pending = t.pending := by
  obtain ⟨-, hnfill, hfillb, hinl⟩ := @moved_fields md t c
  rw [Tty.pending, hnfill, hfillb, hinl]
  rfl

theorem rest_moved (t : Tty) (c : Byte) (n : ℕ) : (t.moved md c).rest md n = t.rest md n := by
  rw [Tty.rest, pending_moved, (moved_fields t c).1]
  rfl

/-- What `ttout` emits at once and what it keeps are what the byte becomes. -/
theorem mapped_image (hnfill : t.tNfill = 0) (hinl : t.tInl = false)
    (hn : md.opost = true → t.tHpos.toNat = n) (c : Byte) :
    (t.mapped md c).1 :: (t.mapped md c).2.pending = image md n c := by
  have hnone : t.pending = [] := by
    rw [Tty.pending, hnfill, hinl]
    rfl
  unfold Tty.mapped image
  by_cases hpost : md.opost = true
  · have hproc : ¬md.opost = false := by
      rw [hpost]
      decide
    rw [if_pos hpost, if_neg hproc]
    split_ifs with hnl hcr htab
    · show CR :: (List.replicate t.tNfill.toNat t.tFillb ++ [NL]) = _
      rw [hnfill]
      rfl
    · rw [hnone]
    · show SPACE :: (List.replicate _ SPACE ++ if t.tInl = true then [NL] else []) = _
      rw [hinl, nfill_toNat, hn hpost, if_neg Bool.false_ne_true, List.append_nil,
        ← List.replicate_succ]
      congr 1
      omega
    · rw [hnone]
  · rw [if_neg hpost, if_pos (Bool.eq_false_of_not_eq_true hpost), hnone]

theorem mapped_fields (t : Tty) (c : Byte) :
    (t.mapped md c).2.tOq = t.tOq ∧ (t.mapped md c).2.tHpos = t.tHpos := by
  unfold Tty.mapped
  split_ifs <;> exact ⟨rfl, rfl⟩

/-! ### Runs -/

/-- A terminal, the bytes that have been written to it, and those that `ttout` has emitted. -/
structure System where
  tty : Tty
  written : List Byte
  emitted : List Byte

/-- What happens next: a byte gets into the output queue, or the driver calls `ttout`. -/
inductive Event where
  | write (c : Byte)
  | ttout

/-- A step. -/
def System.step (md : Mode) (s : System) : Event → Option System
  | .write c =>
      some { s with tty := { s.tty with tOq := s.tty.tOq ++ [c] }, written := s.written ++ [c] }
  | .ttout =>
      some { s with
        tty := (s.tty.ttout md).2
        emitted := s.emitted ++ (s.tty.ttout md).1.toList }

/-- A terminal at the first column, to which nothing has been written. -/
structure System.Fresh (s : System) : Prop where
  tty : s.tty.tOq = [] ∧ s.tty.tNfill = 0 ∧ s.tty.tInl = false ∧ s.tty.tHpos = 0
  written : s.written = []
  emitted : s.emitted = []

/-- The emitted bytes and those to come are the whole output, and `t_hpos` is the column. -/
structure System.Kept (md : Mode) (s : System) : Prop where
  output : render md 0 s.written = s.emitted ++ s.tty.rest md (column s.emitted)
  hpos : md.opost = true → s.tty.tHpos.toNat = column s.emitted
  raw : md.opost = false → s.tty.tHpos = 0

variable {s s' : System}

theorem System.Fresh.kept (h : s.Fresh) : s.Kept md := by
  obtain ⟨hoq, hnfill, hinl, hhpos⟩ := h.tty
  refine ⟨?_, fun _ => ?_, fun _ => hhpos⟩
  · rw [h.written, h.emitted, Tty.rest, Tty.pending, hoq, hnfill, hinl]
    rfl
  · rw [h.emitted, hhpos]
    rfl

/-- A byte that is written comes last. -/
theorem System.Kept.write (h : s.Kept md) (c : Byte) :
    render md 0 (s.written ++ [c]) = s.emitted ++
      { s.tty with tOq := s.tty.tOq ++ [c] }.rest md (column s.emitted) := by
  rw [render_append, h.output]
  simp only [Tty.rest, Tty.pending, column, render_append, List.append_assoc, List.foldl_append]

/-- A call of `ttout` emits the first of the bytes to come, and counts the columns. -/
structure Emits (md : Mode) (t : Tty) (n : ℕ) : Prop where
  rest : t.rest md n = (t.ttout md).1.toList ++
    (t.ttout md).2.rest md ((t.ttout md).1.toList.foldl advance n)
  head : (t.ttout md).1 = (t.rest md n).head?
  hpos : md.opost = true → (t.ttout md).2.tHpos.toNat = (t.ttout md).1.toList.foldl advance n
  raw : md.opost = false → (t.ttout md).2.tHpos = t.tHpos

/-- `ttout` emits a byte, and goes on from `t₀` with the position. -/
theorem Emits.of_some (c : Byte) (t₀ : Tty) (hn : md.opost = true → t.tHpos.toNat = n)
    (hlt : md.opost = true → n < 2 ^ 31) (hout : t.ttout md = (some c, t₀.moved md c))
    (hrest : t.rest md n = c :: t₀.rest md (advance n c)) (hpos : t₀.tHpos = t.tHpos) :
    Emits md t n := by
  refine ⟨?_, ?_, fun hpost => ?_, fun hraw => ?_⟩
  · rw [hout, hrest, rest_moved]
    rfl
  · rw [hout, hrest]
    rfl
  · rw [hout]
    exact moved_hpos hpost (hpos ▸ hn hpost) (hlt hpost) c
  · rw [hout, moved_raw hraw, hpos]

theorem ttout_emits (hn : md.opost = true → t.tHpos.toNat = n)
    (hlt : md.opost = true → n < 2 ^ 31) : Emits md t n := by
  by_cases hnfill : t.tNfill ≠ 0
  · -- A space of a tab.
    have hpred : t.tNfill.toNat = (t.tNfill - 1).toNat + 1 := by
      have hne : t.tNfill.toNat ≠ 0 := fun h => hnfill (BitVec.eq_of_toNat_eq h)
      have hlt := t.tNfill.isLt
      rw [BitVec.toNat_sub]
      show t.tNfill.toNat = (2 ^ 8 - 1 + t.tNfill.toNat) % 2 ^ 8 + 1
      omega
    refine Emits.of_some t.tFillb { t with tNfill := t.tNfill - 1 } hn hlt (if_pos hnfill) ?_ rfl
    rw [Tty.rest, Tty.pending, hpred, List.replicate_succ]
    rfl
  rw [not_not] at hnfill
  by_cases hinl : t.tInl = true
  · -- The newline behind a carriage return.
    refine Emits.of_some NL { t with tInl := false } hn hlt ?_ ?_ rfl
    · rw [Tty.ttout, if_neg (not_not.mpr hnfill), if_pos hinl]
    · rw [Tty.rest, Tty.pending, hnfill, if_pos hinl]
      rfl
  have hinl : t.tInl = false := Bool.eq_false_of_not_eq_true hinl
  have hnone : t.pending = [] := by
    rw [Tty.pending, hnfill, hinl]
    rfl
  have hout : t.ttout md = match t.tOq with
      | [] => (none, t)
      | c :: cs =>
          (some ({ t with tOq := cs }.mapped md c).1,
            ({ t with tOq := cs }.mapped md c).2.moved md
              ({ t with tOq := cs }.mapped md c).1) := by
    rewrite [Tty.ttout, if_neg (not_not.mpr hnfill),
      if_neg (by rw [hinl]; exact Bool.false_ne_true)]
    cases t.tOq <;> rfl
  cases hoq : t.tOq with
  | nil =>
    rw [hoq] at hout
    have hrest : t.rest md n = [] := by
      rw [Tty.rest, hnone, hoq]
      rfl
    refine ⟨?_, ?_, fun hpost => ?_, fun _ => ?_⟩
    · rw [hout]
      rfl
    · rw [hout, hrest]
      rfl
    · rw [hout]
      exact hn hpost
    · rw [hout]
  | cons c cs =>
    rw [hoq] at hout
    have himage := @mapped_image md n { t with tOq := cs } hnfill hinl hn c
    obtain ⟨hcs, hhpos⟩ := @mapped_fields md { t with tOq := cs } c
    refine Emits.of_some _ _ hn hlt hout ?_ hhpos
    rw [Tty.rest, hnone, hoq, Tty.rest, hcs]
    show render md n (c :: cs) = _
    rw [render, ← himage]
    rfl

theorem System.Kept.step (h : s.Kept md) (hcol : Countable md s'.written) {e : Event}
    (hstep : s.step md e = some s') : s'.Kept md := by
  cases e with
  | write c =>
    cases hstep
    exact ⟨h.write c, h.hpos, h.raw⟩
  | ttout =>
    cases hstep
    have hlt : md.opost = true → column s.emitted < 2 ^ 31 := fun hpost =>
      hcol hpost s.emitted (h.output ▸ List.prefix_append _ _)
    have hemits := ttout_emits h.hpos hlt
    refine ⟨?_, fun hpost => ?_, fun hraw => ?_⟩
    · rw [column_append, List.append_assoc, ← hemits.rest]
      exact h.output
    · rw [column_append]
      exact hemits.hpos hpost
    · exact (hemits.raw hraw).trans (h.raw hraw)

/-- **The output of a terminal.**  In every run of writes and calls of `ttout` the emitted bytes are
    the first ones of the whole output, and the next call emits the next one, or -1 at the end.
    `t_hpos` is the column that they have reached; raw output is not changed, and nobody counts. -/
theorem ttout_renders (h : Reach System.Fresh (System.step md) (fun _ _ => True) s)
    (hcol : Countable md s.written) :
    (∃ rest, render md 0 s.written = s.emitted ++ rest ∧ (s.tty.ttout md).1 = rest.head?) ∧
      (md.opost = true → s.tty.tHpos.toInt = column s.emitted) ∧
      (md.opost = false → render md 0 s.written = s.written ∧ s.tty.tHpos = 0) := by
  have hkept : Countable md s.written → s.Kept md := by
    refine @Reach.invariant _ _ _ _ _ (fun s => Countable md s.written → s.Kept md)
      (fun s hs _ => hs.kept) (fun s e s' hs _ hstep hcol => ?_) _ h
    refine (hs ?_).step hcol hstep
    cases e with
    | write c =>
      cases hstep
      exact hcol.init
    | ttout =>
      cases hstep
      exact hcol
  have hs := hkept hcol
  have hlt : md.opost = true → column s.emitted < 2 ^ 31 := fun hpost =>
    hcol hpost s.emitted (hs.output ▸ List.prefix_append _ _)
  refine ⟨⟨_, hs.output, (ttout_emits hs.hpos hlt).head⟩, fun hpost => ?_,
    fun hraw => ⟨render_raw hraw 0 _, hs.raw hraw⟩⟩
  have hnat := hs.hpos hpost
  have hbound := hlt hpost
  rw [BitVec.toInt_eq_toNat_of_lt (by omega), hnat]

/-! ### Short outputs -/

theorem column_le (out : List Byte) : column out ≤ 8 * out.length := by
  induction out using List.reverseRecOn with
  | nil => exact le_refl _
  | append_singleton out c ih =>
    have hone : advance (column out) c ≤ column out + 8 := by
      unfold advance
      split_ifs <;> omega
    rw [column_append, List.length_append, List.length_singleton]
    show advance (column out) c ≤ _
    omega

theorem render_length (n : ℕ) (bytes : List Byte) :
    (render md n bytes).length ≤ 8 * bytes.length := by
  induction bytes generalizing n with
  | nil => exact le_refl _
  | cons c cs ih =>
    have hone : (image md n c).length ≤ 8 := by
      unfold image
      split_ifs
      · exact Nat.le_add_left 1 7
      · exact Nat.le_add_left 2 6
      · exact Nat.le_add_left 1 7
      · rw [List.length_replicate]
        exact Nat.sub_le 8 _
      · exact Nat.le_add_left 1 7
    have hrest := ih ((image md n c).foldl advance n)
    rw [render, List.length_append, List.length_cons]
    omega

/-- The columns of less than 32 megabytes can be counted. -/
theorem countable_of_length (h : written.length < 2 ^ 25) : Countable md written := by
  intro _ out hout
  have hle := column_le out
  have hlen := hout.length_le
  have hall := @render_length md 0 written
  omega

/-- A new terminal. -/
def newTerminal : System where
  tty :=
    { tOq := [], tIq := [], tNfill := 0, tFillb := 0, tInl := false, tInput := false
      tIstop := false, tTstop := false, tIb := fun _ => 0, tIbx := 0, tHpos := 0, tOpos := 0
      tEscape := 0, tGroup := 0 }
  written := []
  emitted := []

theorem newTerminal_fresh : newTerminal.Fresh := ⟨⟨rfl, rfl, rfl, rfl⟩, rfl, rfl⟩

/-- Only tabs and newlines are processed. -/
def cooked : Mode where
  istrip := false
  icrnl := true
  igncr := false
  ixoff := false
  isig := true
  icanon := true
  echo := false
  opost := true
  onlcr := true
  ocrnl := false
  tab3 := true
  rawin := false
  crt := true
  vquit := 28
  vintr := 3
  verase := 35
  vkill := 64
  veof := 4
  brkc := 255
  startc := 17
  stopc := 19

/-- Half of a newline. -/
theorem ttout_renders_newline : ∃ s : System, s.written = [NL] ∧ s.emitted = [CR] ∧
    (∃ rest, render cooked 0 s.written = s.emitted ++ rest ∧
      (s.tty.ttout cooked).1 = rest.head?) ∧
    (cooked.opost = true → s.tty.tHpos.toInt = column s.emitted) ∧
    (cooked.opost = false → render cooked 0 s.written = s.written ∧ s.tty.tHpos = 0) := by
  obtain ⟨s, hs, hw, he⟩ : ∃ s, runFrom (System.step cooked) newTerminal [.write NL, .ttout] =
      some s ∧ s.written = [NL] ∧ s.emitted = [CR] := ⟨_, rfl, rfl, rfl⟩
  have hreach : Reach System.Fresh (System.step cooked) (fun _ _ => True) s :=
    (Reach.init newTerminal_fresh).run (fun _ _ => trivial) hs
  have hcol : Countable cooked s.written := countable_of_length (by rw [hw]; decide)
  exact ⟨s, hw, he, ttout_renders hreach hcol⟩

/-- **Raw output is not counted.**  A letter that is emitted without output processing takes a
    column, and `t_hpos` stays 0. -/
theorem hpos_raw : ¬∀ (md : Mode) (s : System),
    Reach System.Fresh (System.step md) (fun _ _ => True) s →
      s.tty.tHpos.toInt = column s.emitted := by
  intro hall
  obtain ⟨s, hs, hpos, he⟩ : ∃ s, runFrom (System.step { cooked with opost := false }) newTerminal
      [.write 97, .ttout] = some s ∧ s.tty.tHpos = 0 ∧ s.emitted = [97] := ⟨_, rfl, rfl, rfl⟩
  have hreach := (Reach.init newTerminal_fresh).run (fun _ _ => trivial) hs
  have heq := hall _ s hreach
  rw [hpos, he] at heq
  exact absurd heq (by decide)

end CohKernel.Termio
