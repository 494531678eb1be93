import CohKernel.Termio.Out

namespace CohKernel.Termio

open CohKernel.Lib

/-!
# Lines that are typed

`ttin` edits a line in the buffer `t_ib`, and moves it to the input queue at its end.  `edit` is the
reference: what the typed characters are, with no buffer and no queue but for its 255 places.

* `ttstash_spec`, `spill_spec` — what is stored, and that it is stored in the buffer;
* `Edits.char` — one character, and one step of the reference;
* `ttin_edits` — in every run of the kind that works the queued lines are those of the reference.
-/

/-! ### The reference -/

/-- A line that is being typed, the backslashes behind it, and the lines before it. -/
structure Edit where
  line : List Byte
  pend : ℕ
  lines : List Byte

/-- A typed character, or a signal that throws the line away. -/
inductive Key where
  | char (c : Byte)
  | signal

/-- Characters for which there is no place are refused; the last place is for the end of a line. -/
def Edit.add (e : Edit) (bytes : List Byte) : Edit :=
  { e with line := (e.line ++ bytes).take (NCIB - 1) }

variable (md : Mode)

/-- A character that is no command. -/
def Edit.stash (e : Edit) (c : Byte) : Edit :=
  if md.isEol c = true then { line := [], pend := 0, lines := e.lines ++ (e.line ++ [c]) }
  else e.add [c]

/-- A character.  A backslash is a character, but for one before an erase or a kill character. -/
def Edit.char (e : Edit) (c : Byte) : Edit :=
  if e.pend ≠ 0 then
    if c = ESC then { e with pend := e.pend + 1 }
    else
      let n := if md.isEdit c = true then e.pend - 1 else e.pend
      { e.add (List.replicate n ESC) with pend := 0 }.stash md c
  else if md.verase = c then { e with line := e.line.dropLast }
  else if md.vkill = c then { e with line := [] }
  else if c = ESC then { e with pend := 1 }
  else e.stash md c

/-- A key. -/
def Edit.key (e : Edit) : Key → Edit
  | .char c => e.char md c
  | .signal => { e with line := [], pend := 0 }

/-- The reference edit of the typed keys. -/
def edit (keys : List Key) : Edit := keys.foldl (Edit.key md) ⟨[], 0, []⟩

/-! ### What is stored -/

/-- The bytes in the buffer. -/
def Tty.line (t : Tty) : List Byte := (List.range t.tIbx).map t.tIb

variable {md} {t t' : Tty} {c : Byte} {bytes gone : List Byte} {room oroom : ℕ → Bool}

theorem line_length (t : Tty) : t.line.length = t.tIbx := by
  rw [Tty.line, List.length_map, List.length_range]

/-- The queue and the line. -/
structure Same (t t' : Tty) : Prop where
  ib : t'.tIb = t.tIb
  ibx : t'.tIbx = t.tIbx
  escape : t'.tEscape = t.tEscape
  iq : t'.tIq = t.tIq

theorem Same.line (h : Same t t') : t'.line = t.line := by
  rw [Tty.line, h.ib, h.ibx]
  rfl

theorem cltputq_all (q : List Byte) (h : ∀ k < bytes.length, room k = true) :
    cltputq q bytes room = q ++ bytes := by
  induction bytes generalizing q room with
  | nil => exact (List.append_nil q).symm
  | cons c bytes ih =>
    have hrest : ∀ k < bytes.length, room (k + 1) = true := fun k hk =>
      h (k + 1) (Nat.succ_lt_succ hk)
    rw [cltputq, if_pos (h 0 (Nat.succ_pos _)), ih _ hrest, List.append_assoc,
      List.singleton_append]

theorem store_spec (h : t.tIbx < NCIB) (c : Byte) :
    ∃ t', t.store c = some t' ∧ t'.tIbx = t.tIbx + 1 ∧ t'.line = t.line ++ [c] ∧
      t'.tEscape = t.tEscape ∧ t'.tIq = t.tIq := by
  refine ⟨_, if_pos h, rfl, ?_, rfl, rfl⟩
  show (List.range (t.tIbx + 1)).map (Function.update t.tIb t.tIbx c) = _
  rw [List.range_succ, List.map_append, List.map_singleton, Function.update_self, Tty.line]
  congr 1
  refine List.map_congr_left fun i hi => ?_
  rw [Function.update_of_ne (List.mem_range.mp hi).ne]

theorem take_full {l bytes : List Byte} (h : l.length = NCIB - 1) :
    (l ++ bytes).take (NCIB - 1) = l := by
  rw [← h, List.take_left]

/-- The pending backslashes go into the buffer, as far as there is room. -/
theorem spill_spec (n : ℕ) (h : t.tIbx < NCIB) (hn : t.tEscape = n) :
    ∃ t', t.spill n = some t' ∧ t'.tIbx < NCIB ∧
      t'.line = (t.line ++ List.replicate n ESC).take (NCIB - 1) ∧
      (t'.tEscape ≠ 0 → t'.tIbx = NCIB - 1) ∧ t'.tIq = t.tIq := by
  induction n generalizing t with
  | zero =>
    refine ⟨t, rfl, h, ?_, fun hne => absurd hn hne, rfl⟩
    rw [List.replicate_zero, List.append_nil, List.take_of_length_le]
    rw [line_length]
    exact Nat.le_pred_of_lt h
  | succ n ih =>
    by_cases hlt : t.tIbx < NCIB - 1
    · obtain ⟨t₁, h₁, hibx, hline, hescape, hiq⟩ := store_spec h ESC
      have hlt₁ : t₁.tIbx < NCIB := by
        rw [hibx]
        exact Nat.add_lt_of_lt_sub hlt
      have hn₁ : t₁.tEscape - 1 = n := by
        rw [hescape, hn]
        rfl
      obtain ⟨t', h', hlt', hline', hescape', hiq'⟩ :=
        @ih { t₁ with tEscape := t₁.tEscape - 1 } hlt₁ hn₁
      refine ⟨t', ?_, hlt', ?_, hescape', hiq'.trans hiq⟩
      · rw [Tty.spill, if_pos hlt, h₁]
        exact h'
      · rw [hline', List.replicate_succ, ← List.singleton_append, ← List.append_assoc, ← hline]
        rfl
    · have hfull : t.tIbx = NCIB - 1 := by omega
      refine ⟨t, ?_, h, ?_, fun _ => hfull, rfl⟩
      · rw [Tty.spill, if_neg hlt]
      · rw [take_full (by rw [line_length, hfull])]

/-- The end of a line, or one more character. -/
theorem ttstash_spec (h : t.tIbx < NCIB) (c : Byte) (room : ℕ → Bool) :
    ∃ t', t.ttstash md c room = some t' ∧ t'.tIbx < NCIB ∧
      if md.isEol c = true then
        t'.tIbx = 0 ∧ t'.tEscape = 0 ∧ t'.tIq = cltputq t.tIq (t.line ++ [c]) room
      else
        t'.line = (t.line ++ [c]).take (NCIB - 1) ∧ t'.tEscape = t.tEscape ∧ t'.tIq = t.tIq ∧
          t.tIbx ≤ t'.tIbx := by
  unfold Tty.ttstash
  obtain ⟨t₁, h₁, hibx, hline, hescape, hiq⟩ := store_spec h c
  by_cases heol : md.isEol c = true
  · rw [if_pos heol, h₁]
    refine ⟨_, rfl, Nat.succ_pos 255, ?_⟩
    rw [if_pos heol, ← hiq, ← hline]
    exact ⟨rfl, rfl, rfl⟩
  · rw [if_neg heol]
    by_cases hlt : t.tIbx < NCIB - 1
    · refine ⟨t₁, by rw [if_pos hlt, h₁], by omega, ?_⟩
      rw [if_neg heol, List.take_of_length_le, ← hline]
      · exact ⟨rfl, hescape, hiq, by omega⟩
      · rw [List.length_append, line_length, List.length_singleton]
        exact hlt
    · refine ⟨t, if_neg hlt, h, ?_⟩
      have hfull : t.tIbx = NCIB - 1 := by omega
      rw [if_neg heol, take_full (by rw [line_length, hfull])]
      exact ⟨rfl, rfl, rfl, le_refl _⟩

/-! ### One character -/

/-- The terminal and the reference agree; backslashes that did not fit can still be pending. -/
structure Edits (t : Tty) (gone : List Byte) (e : Edit) : Prop where
  ibx : t.tIbx < NCIB
  line : t.line = e.line
  queue : gone ++ t.tIq = e.lines
  escape : ∃ left, t.tEscape = e.pend + left ∧ (left ≠ 0 → t.tIbx = NCIB - 1)

/-- What the code copes with: no command comes while nobody tests for commands, a pending backslash
    before an erase or kill character is one that was typed, the character has the high bit, and a
    line finds room. -/
structure Fits (md : Mode) (t : Tty) (e : Edit) (c : Byte) (room : ℕ → Bool) : Prop where
  rawin : md.rawin = true → md.isEdit c = false ∧ c ≠ ESC ∧ t.tEscape = 0
  count : c = ESC → t.tEscape + 1 < 2 ^ 32
  edit : md.isEdit c = true → t.tEscape ≠ 0 → t.tEscape = e.pend ∧ (c = ESC ∨ 128 ≤ c.val)
  room : md.isEol c = true → ∀ k ≤ min (t.tIbx + t.tEscape) (NCIB - 1), room k = true

variable {e : Edit}

theorem Edits.of_same (h : Edits t gone e) (hs : Same t t') : Edits t' gone e := by
  obtain ⟨left, hleft, hfull⟩ := h.escape
  refine ⟨hs.ibx ▸ h.ibx, hs.line.trans h.line, ?_, left, hs.escape.trans hleft, ?_⟩
  · rw [hs.iq]
    exact h.queue
  · rw [hs.ibx]
    exact hfull

theorem limits_same (t : Tty) (c : Byte) (oroom : ℕ → Bool) : Same t (t.limits md c oroom) := by
  unfold Tty.limits
  simp only
  split_ifs <;> exact ⟨rfl, rfl, rfl, rfl⟩

theorem Edits.stash (h : Edits t gone e) (hroom : md.isEol c = true → ∀ k ≤ t.tIbx, room k = true) :
    ∃ t', t.ttstash md c room = some t' ∧ Edits t' gone (e.stash md c) := by
  obtain ⟨t', ht', hibx, hcase⟩ := @ttstash_spec md _ h.ibx c room
  refine ⟨t', ht', ?_⟩
  obtain ⟨left, hleft, hfull⟩ := h.escape
  unfold Edit.stash
  split_ifs at hcase ⊢ with heol
  · obtain ⟨hzero, hescape, hiq⟩ := hcase
    have hlen : ∀ k < (t.line ++ [c]).length, room k = true := by
      intro k hk
      rw [List.length_append, line_length, List.length_singleton] at hk
      exact hroom heol k (Nat.lt_succ_iff.mp hk)
    refine ⟨hibx, ?_, ?_, 0, hescape, fun hne => absurd rfl hne⟩
    · rw [Tty.line, hzero]
      rfl
    · rw [hiq, cltputq_all _ hlen, ← List.append_assoc, h.queue, h.line]
  · obtain ⟨hline, hescape, hiq, hle⟩ := hcase
    refine ⟨hibx, ?_, ?_, left, hescape.trans hleft, fun hne => ?_⟩
    · rw [hline, h.line]
      rfl
    · rw [hiq]
      exact h.queue
    · have := hfull hne
      omega

/-- The pending backslashes are characters. -/
theorem Edits.spill (h : Edits t gone e) :
    ∃ t', t.spill t.tEscape = some t' ∧
      Edits t' gone { e.add (List.replicate e.pend ESC) with pend := 0 } ∧
      t'.tIbx ≤ min (t.tIbx + t.tEscape) (NCIB - 1) := by
  obtain ⟨t', ht', hibx, hline, hescape, hiq⟩ := spill_spec t.tEscape h.ibx rfl
  obtain ⟨left, hleft, hfull⟩ := h.escape
  refine ⟨t', ht', ⟨hibx, ?_, ?_, t'.tEscape, (Nat.zero_add _).symm, hescape⟩, ?_⟩
  · rw [hline, h.line]
    show _ = (e.line ++ List.replicate e.pend ESC).take (NCIB - 1)
    by_cases hzero : left = 0
    · rw [hleft, hzero, Nat.add_zero]
    · have hlen : e.line.length = NCIB - 1 := by rw [← h.line, line_length, hfull hzero]
      rw [take_full hlen, take_full hlen]
  · rw [hiq]
    exact h.queue
  · rw [← line_length t', hline, List.length_take, List.length_append, line_length,
      List.length_replicate, min_comm]

theorem mark_high (h : 128 ≤ c.val) : mark c = c := by
  have hlt := c.isLt
  refine Fin.ext ?_
  show (c.val % 128 + 128) % 256 = c.val
  omega

/-- A character behind backslashes. -/
theorem Edits.afterEscape (h : Edits t gone e) (hfits : Fits md t e c room) (hne : t.tEscape ≠ 0)
    (oroom : ℕ → Bool) :
    ∃ t', t.afterEscape md c room oroom = some t' ∧ Edits t' gone (e.char md c) := by
  have hecho : ∀ (t : Tty) (c : Byte),
      Same t (if md.echo = true then t.out [c] oroom else t) := by
    intro t c
    split_ifs <;> exact ⟨rfl, rfl, rfl, rfl⟩
  obtain ⟨left, hleft, hfull⟩ := h.escape
  unfold Tty.afterEscape
  simp only
  by_cases hesc : c = ESC
  · rw [if_pos hesc]
    refine ⟨_, rfl, Edits.of_same ?_ (hecho _ c)⟩
    have hmod : (t.tEscape + 1) % 2 ^ 32 = t.tEscape + 1 := Nat.mod_eq_of_lt (hfits.count hesc)
    have hchar : e.char md c = { e with pend := e.pend + 1 } := by
      unfold Edit.char
      by_cases hpend : e.pend ≠ 0
      · rw [if_pos hpend, if_pos hesc]
      · have hedit : ¬md.isEdit c = true := fun hedit => by
          have := (hfits.edit hedit hne).1
          omega
        rw [Mode.isEdit, Bool.or_eq_true, not_or, beq_iff_eq, beq_iff_eq] at hedit
        rw [if_neg hpend, if_neg hedit.1, if_neg hedit.2, if_pos hesc, not_not.mp hpend]
    rw [hchar]
    refine ⟨h.ibx, h.line, h.queue, left, ?_, hfull⟩
    show (t.tEscape + 1) % 2 ^ 32 = e.pend + 1 + left
    rw [hmod, hleft]
    omega
  rw [if_neg hesc]
  by_cases hedit : md.isEdit c = true
  · -- The character is protected, and the last backslash is gone.
    obtain ⟨hpend, hhigh⟩ := hfits.edit hedit hne
    have hmark : mark c = c := mark_high (hhigh.resolve_left hesc)
    have hless : Edits { t with tEscape := t.tEscape - 1 } gone { e with pend := e.pend - 1 } :=
      ⟨h.ibx, h.line, h.queue, 0, congrArg (· - 1) hpend, fun hne => absurd rfl hne⟩
    obtain ⟨t₁, h₁, hedits, hle⟩ := hless.spill
    have hroom : md.isEol c = true → ∀ k ≤ t₁.tIbx, room k = true := fun heol k hk =>
      hfits.room heol k (hk.trans (hle.trans
        (min_le_min_right _ (Nat.add_le_add_left (Nat.sub_le _ 1) _))))
    obtain ⟨t₂, h₂, hstash⟩ := hedits.stash hroom
    have hchar : e.char md c =
        { e.add (List.replicate (e.pend - 1) ESC) with pend := 0 }.stash md c := by
      rw [Edit.char, if_pos (hpend ▸ hne), if_neg hesc]
      simp only [if_pos hedit]
    rw [if_pos hedit]
    simp only [hmark]
    rw [hchar]
    exact ⟨_, by rw [h₁, Option.bind_some, h₂, Option.map_some], hstash.of_same (hecho _ c)⟩
  · obtain ⟨t₁, h₁, hedits, hle⟩ := h.spill
    have hroom : md.isEol c = true → ∀ k ≤ t₁.tIbx, room k = true := fun heol k hk =>
      hfits.room heol k (hk.trans hle)
    obtain ⟨t₂, h₂, hstash⟩ := hedits.stash hroom
    have hchar : e.char md c = { e.add (List.replicate e.pend ESC) with pend := 0 }.stash md c := by
      unfold Edit.char
      by_cases hpend : e.pend ≠ 0
      · rw [if_pos hpend, if_neg hesc]
        simp only [if_neg hedit]
      · have hnot := hedit
        rw [Mode.isEdit, Bool.or_eq_true, not_or, beq_iff_eq, beq_iff_eq] at hnot
        have hzero : e.pend = 0 := not_not.mp hpend
        have hsame : e = { e.add (List.replicate e.pend ESC) with pend := 0 } := by
          have hlen : e.line.length ≤ NCIB - 1 := by
            rw [← h.line, line_length]
            exact Nat.le_pred_of_lt h.ibx
          rw [hzero, List.replicate_zero, Edit.add, List.append_nil, List.take_of_length_le hlen,
            ← hzero]
        rw [if_neg hpend, if_neg hnot.1, if_neg hnot.2, if_neg hesc, ← hsame]
    rw [if_neg hedit, hchar]
    exact ⟨_, by rw [h₁, Option.bind_some, h₂, Option.map_some], hstash.of_same (hecho _ c)⟩

theorem line_pred {n : ℕ} (h : t.tIbx = n + 1) : { t with tIbx := n }.line = t.line.dropLast := by
  show (List.range n).map t.tIb = _
  rw [Tty.line, h, List.range_succ, List.map_append, List.map_singleton, List.dropLast_concat]

/-- The erase character. -/
theorem Edits.erase (h : Edits t gone e) (hzero : t.tEscape = 0) (oroom : ℕ → Bool) :
    ∃ t', t.erase md c oroom = some t' ∧ Edits t' gone { e with line := e.line.dropLast } := by
  obtain ⟨left, hleft, -⟩ := h.escape
  have hpend : e.pend = 0 := by omega
  have hleft : left = 0 := by omega
  unfold Tty.erase
  rw [hzero, Tty.spill, Option.map_some]
  refine ⟨_, rfl, ?_⟩
  cases hibx : t.tIbx with
  | zero =>
    have hnil : e.line = [] := by
      rw [← h.line, Tty.line, hibx]
      rfl
    rw [if_pos rfl]
    refine ⟨h.ibx, ?_, h.queue, h.escape⟩
    rw [h.line, hnil]
    rfl
  | succ n =>
    have hedits : Edits { t with tIbx := n } gone { e with line := e.line.dropLast } := by
      refine ⟨?_, ?_, h.queue, 0, ?_, fun hne => absurd rfl hne⟩
      · have hlt := h.ibx
        rw [hibx] at hlt
        exact Nat.lt_of_succ_lt hlt
      · rw [line_pred hibx, h.line]
      · show t.tEscape = e.pend + 0
        omega
    rw [if_neg (Nat.succ_ne_zero n)]
    split_ifs
    · exact hedits.of_same ⟨rfl, rfl, rfl, rfl⟩
    · exact hedits

/-- The kill character. -/
theorem Edits.kill (h : Edits t gone e) (hpend : e.pend = 0) (oroom : ℕ → Bool) :
    Edits (t.kill md c oroom) gone { e with line := [] } := by
  have hedits : Edits { t with tIbx := 0, tEscape := 0 } gone { e with line := [] } :=
    ⟨Nat.succ_pos 255, rfl, h.queue, 0, hpend.symm, fun hne => absurd rfl hne⟩
  unfold Tty.kill
  simp only
  split_ifs
  · exact hedits.of_same ⟨rfl, rfl, rfl, rfl⟩
  · exact hedits

/-- A character that is no command, and follows no backslash. -/
theorem Edits.plain (h : Edits t gone e) (hfits : Fits md t e c room) (hzero : t.tEscape = 0)
    (hcanon : md.icanon = true) (oroom : ℕ → Bool) :
    ∃ t', t.plain md c room oroom = some t' ∧
      Edits t' gone (if c = ESC then { e with pend := 1 } else e.stash md c) := by
  obtain ⟨left, hleft, -⟩ := h.escape
  have hpend : e.pend = 0 := by omega
  have hedits : Edits (if t.tIbx = 0 then { t with tOpos := t.tHpos } else t) gone e := by
    split_ifs
    · exact h.of_same ⟨rfl, rfl, rfl, rfl⟩
    · exact h
  have hibx : (if t.tIbx = 0 then { t with tOpos := t.tHpos } else t).tIbx = t.tIbx := by
    split_ifs <;> rfl
  have hescape : (if t.tIbx = 0 then { t with tOpos := t.tHpos } else t).tEscape = 0 := by
    rw [← hzero]
    split_ifs <;> rfl
  unfold Tty.plain
  rw [if_neg (by rw [hcanon]; decide)]
  generalize (if t.tIbx = 0 then { t with tOpos := t.tHpos } else t) = t₁ at hedits hibx hescape ⊢
  simp only
  by_cases hesc : c = ESC
  · rw [if_pos hesc, if_pos hesc]
    refine ⟨_, rfl, Edits.of_same ?_ (limits_same _ c oroom)⟩
    refine ⟨hedits.ibx, hedits.line, hedits.queue, 0, ?_, fun hne => absurd rfl hne⟩
    show (t₁.tEscape + 1) % 2 ^ 32 = 1 + 0
    rw [hescape]
    rfl
  · rw [if_neg hesc, if_neg hesc]
    have hroom : md.isEol c = true → ∀ k ≤ t₁.tIbx, room k = true := by
      intro heol k hk
      have hlt := h.ibx
      exact hfits.room heol k (le_min (by omega) (by omega))
    obtain ⟨t₂, h₂, hstash⟩ := hedits.stash hroom
    exact ⟨_, by rw [h₂, Option.map_some], hstash.of_same (limits_same _ c oroom)⟩

/-- **One character.**  `ttin` does to the buffer and the queue what the reference does to the line
    and the lines before it. -/
theorem Edits.char (h : Edits t gone e) (hfits : Fits md t e c room) (hcanon : md.icanon = true)
    (oroom : ℕ → Bool) :
    ∃ t', t.edit md c room oroom = some t' ∧ Edits t' gone (e.char md c) := by
  obtain ⟨left, hleft, -⟩ := h.escape
  unfold Tty.edit
  by_cases hne : t.tEscape ≠ 0
  · have hraw : md.rawin = false :=
      Bool.eq_false_of_not_eq_true fun hraw => hne (hfits.rawin hraw).2.2
    rw [if_pos hraw, if_pos hne]
    exact h.afterEscape hfits hne oroom
  have hzero : t.tEscape = 0 := not_not.mp hne
  have hpend : e.pend = 0 := by omega
  have hchar : e.char md c = if md.verase = c then { e with line := e.line.dropLast }
      else if md.vkill = c then { e with line := [] }
      else if c = ESC then { e with pend := 1 } else e.stash md c :=
    if_neg (not_not.mpr hpend)
  rw [hchar, if_neg hne]
  by_cases hraw : md.rawin = false
  · rw [if_pos hraw]
    by_cases herase : md.verase = c
    · rw [if_pos herase, if_pos ⟨herase, hcanon⟩]
      exact h.erase hzero oroom
    rw [if_neg herase, if_neg fun h => herase h.1]
    by_cases hkill : md.vkill = c
    · rw [if_pos hkill, if_pos ⟨hkill, hcanon⟩]
      exact ⟨_, rfl, h.kill hpend oroom⟩
    rw [if_neg hkill, if_neg fun h => hkill h.1]
    exact h.plain hfits hzero hcanon oroom
  · have hedit := (hfits.rawin (Bool.eq_true_of_not_eq_false hraw)).1
    rw [Mode.isEdit, Bool.or_eq_false_iff, beq_eq_false_iff_ne, beq_eq_false_iff_ne] at hedit
    rw [if_neg hraw, if_neg hedit.1, if_neg hedit.2]
    exact h.plain hfits hzero hcanon oroom

/-! ### Runs -/

/-- A terminal, the keys that it has not refused, and the bytes that have left its input queue. -/
structure Line where
  tty : Tty
  typed : List Key
  gone : List Byte

/-- What happens next: the driver has a character for `ttin`, a reader gets a byte, the driver calls
    `ttout`, or a byte is written. -/
inductive Act where
  | ttin (c : Byte) (room oroom : ℕ → Bool)
  | ttread
  | ttout
  | write (c : Byte)

/-- The key of a character; a signal needs a process group, and a full queue refuses the rest. -/
def Tty.key (md : Mode) (t : Tty) (c : Byte) : List Key :=
  if md.signals c = true then if t.tGroup = 0 then [] else [.signal]
  else if t.tIstop = true then []
  else [.char (md.typed c)]

/-- What a signal throws away. -/
def Tty.flushed (md : Mode) (t : Tty) (c : Byte) : List Byte :=
  if md.signals c = true ∧ t.tGroup ≠ 0 then t.tIq else []

/-- A step. -/
def Line.step (md : Mode) (s : Line) : Act → Option Line
  | .ttin c room oroom =>
      (s.tty.ttin md c room oroom).map fun t =>
        { tty := t, typed := s.typed ++ s.tty.key md c, gone := s.gone ++ s.tty.flushed md c }
  | .ttread => (s.tty.ttread md).map fun r => { s with tty := r.2, gone := s.gone ++ [r.1] }
  | .ttout => some { s with tty := (s.tty.ttout md).2 }
  | .write c => some { s with tty := { s.tty with tOq := s.tty.tOq ++ [c] } }

/-- The characters that the code copes with. -/
def Sound (md : Mode) (s : Line) : Act → Prop
  | .ttin c room _ =>
      md.signals c = true ∨ s.tty.tIstop = true ∨
        Fits md s.tty (edit md s.typed) (md.typed c) room
  | _ => True

/-- Nothing has been typed. -/
structure Line.Fresh (s : Line) : Prop where
  tty : s.tty.tIq = [] ∧ s.tty.tIbx = 0 ∧ s.tty.tEscape = 0
  typed : s.typed = []
  gone : s.gone = []

variable {s s' : Line}

theorem edit_snoc (keys : List Key) (k : Key) :
    edit md (keys ++ [k]) = (edit md keys).key md k := by
  rw [edit, List.foldl_append]
  rfl

theorem mapped_same (t : Tty) (c : Byte) : Same t (t.mapped md c).2 := by
  unfold Tty.mapped
  split_ifs <;> exact ⟨rfl, rfl, rfl, rfl⟩

theorem moved_same (t : Tty) (c : Byte) : Same t (t.moved md c) := by
  unfold Tty.moved
  split_ifs <;> exact ⟨rfl, rfl, rfl, rfl⟩

theorem Same.trans {t'' : Tty} (h : Same t t') (h' : Same t' t'') : Same t t'' :=
  ⟨h'.ib.trans h.ib, h'.ibx.trans h.ibx, h'.escape.trans h.escape, h'.iq.trans h.iq⟩

theorem ttout_same (t : Tty) : Same t (t.ttout md).2 := by
  have hnfill : Same t { t with tNfill := t.tNfill - 1 } := ⟨rfl, rfl, rfl, rfl⟩
  have hinl : Same t { t with tInl := false } := ⟨rfl, rfl, rfl, rfl⟩
  unfold Tty.ttout
  split_ifs
  · exact hnfill.trans (moved_same _ t.tFillb)
  · exact hinl.trans (moved_same _ NL)
  · cases t.tOq with
    | nil => exact ⟨rfl, rfl, rfl, rfl⟩
    | cons c cs =>
      have hoq : Same t { t with tOq := cs } := ⟨rfl, rfl, rfl, rfl⟩
      exact (hoq.trans (mapped_same _ c)).trans (moved_same _ _)

/-- `ttsignal` throws away the line and the queue. -/
theorem Edits.signal (h : Edits t gone e) (hgroup : t.tGroup ≠ 0) :
    Edits t.ttsignal (gone ++ t.tIq) { e with line := [], pend := 0 } := by
  rw [Tty.ttsignal, if_neg hgroup]
  refine ⟨Nat.succ_pos 255, rfl, ?_, 0, rfl, fun hne => absurd rfl hne⟩
  rw [h.queue]
  exact List.append_nil e.lines

/-- A reader takes the first byte of the queue. -/
theorem Edits.ttread (h : Edits t gone e) {r : Byte × Tty} (hr : t.ttread md = some r) :
    Edits r.2 (gone ++ [r.1]) e := by
  unfold Tty.ttread at hr
  cases hiq : t.tIq with
  | nil =>
    rw [hiq] at hr
    cases hr
  | cons c cs =>
    rw [hiq] at hr
    have hread : Edits { t with tIq := cs } (gone ++ [c]) e := by
      refine ⟨h.ibx, h.line, ?_, h.escape⟩
      rw [List.append_assoc, List.singleton_append, ← hiq]
      exact h.queue
    cases hr
    refine hread.of_same ?_
    simp only
    split_ifs <;> exact ⟨rfl, rfl, rfl, rfl⟩

/-- **One step of a run that works.** -/
theorem Edits.step (hcanon : md.icanon = true) (h : Edits s.tty s.gone (edit md s.typed)) {a : Act}
    (hok : Sound md s a) (hstep : s.step md a = some s') :
    Edits s'.tty s'.gone (edit md s'.typed) := by
  cases a with
  | ttin c room oroom =>
    obtain ⟨t', ht', rfl⟩ := Option.map_eq_some_iff.mp hstep
    unfold Tty.ttin at ht'
    by_cases hsig : md.signals c = true
    · rw [if_pos hsig] at ht'
      cases ht'
      by_cases hgroup : s.tty.tGroup = 0
      · have hkey : s.tty.key md c = [] := by rw [Tty.key, if_pos hsig, if_pos hgroup]
        have hflush : s.tty.flushed md c = [] := if_neg fun hboth => hboth.2 hgroup
        rw [hkey, hflush, List.append_nil, List.append_nil, Tty.ttsignal, if_pos hgroup]
        exact h
      · have hkey : s.tty.key md c = [.signal] := by rw [Tty.key, if_pos hsig, if_neg hgroup]
        have hflush : s.tty.flushed md c = s.tty.tIq := if_pos ⟨hsig, hgroup⟩
        rw [hkey, hflush, edit_snoc]
        exact h.signal hgroup
    have hflush : s.tty.flushed md c = [] := if_neg fun hboth => hsig hboth.1
    rw [if_neg hsig] at ht'
    rw [hflush, List.append_nil]
    by_cases hstop : s.tty.tIstop = true
    · have hkey : s.tty.key md c = [] := by rw [Tty.key, if_neg hsig, if_pos hstop]
      rw [if_pos hstop] at ht'
      cases ht'
      rw [hkey, List.append_nil]
      exact h
    · have hkey : s.tty.key md c = [.char (md.typed c)] := by
        rw [Tty.key, if_neg hsig, if_neg hstop]
      have hfits := (hok.resolve_left hsig).resolve_left hstop
      obtain ⟨t'', ht'', hedits⟩ := h.char hfits hcanon oroom
      rw [if_neg hstop, ht''] at ht'
      cases ht'
      rw [hkey, edit_snoc]
      exact hedits
  | ttread =>
    obtain ⟨r, hr, rfl⟩ := Option.map_eq_some_iff.mp hstep
    exact h.ttread hr
  | ttout =>
    cases hstep
    exact h.of_same (ttout_same s.tty)
  | write c =>
    cases hstep
    exact h.of_same ⟨rfl, rfl, rfl, rfl⟩

theorem Line.Fresh.edits (h : s.Fresh) : Edits s.tty s.gone (edit md s.typed) := by
  obtain ⟨hiq, hibx, hescape⟩ := h.tty
  rw [h.typed, h.gone]
  refine ⟨?_, ?_, hiq, 0, hescape, fun hne => absurd rfl hne⟩
  · rw [hibx]
    exact Nat.succ_pos 255
  · rw [Tty.line, hibx]
    rfl

/-! ### The buffer -/

/-- `ttin` stores in the buffer only. -/
def InBuffer (r : Option Tty) : Prop := ∃ t', r = some t' ∧ t'.tIbx < NCIB

theorem InBuffer.map {r : Option Tty} (h : InBuffer r) {f : Tty → Tty}
    (hf : ∀ t, (f t).tIbx = t.tIbx) : InBuffer (r.map f) := by
  obtain ⟨t', rfl, hlt⟩ := h
  refine ⟨f t', rfl, ?_⟩
  rw [hf]
  exact hlt

theorem stash_inBuffer (h : t.tIbx < NCIB) (c : Byte) (room : ℕ → Bool) :
    InBuffer (t.ttstash md c room) := by
  obtain ⟨t', h', hlt, -⟩ := @ttstash_spec md _ h c room
  exact ⟨t', h', hlt⟩

theorem spill_inBuffer (h : t.tIbx < NCIB) (c : Byte) (room : ℕ → Bool) {f : Tty → Tty}
    (hf : ∀ t, (f t).tIbx = t.tIbx) :
    InBuffer ((t.spill t.tEscape).bind fun t => (t.ttstash md c room).map f) := by
  obtain ⟨t', h', hlt, -⟩ := spill_spec t.tEscape h rfl
  rw [h', Option.bind_some]
  exact (stash_inBuffer hlt c room).map hf

theorem afterEscape_inBuffer (h : t.tIbx < NCIB) (c : Byte) (room oroom : ℕ → Bool) :
    InBuffer (t.afterEscape md c room oroom) := by
  have hecho : ∀ (c : Byte) (t : Tty),
      (if md.echo = true then t.out [c] oroom else t).tIbx = t.tIbx := by
    intro c t
    split_ifs <;> rfl
  unfold Tty.afterEscape
  simp only
  by_cases hesc : c = ESC
  · rw [if_pos hesc]
    exact ⟨_, rfl, (hecho c _).symm ▸ h⟩
  rw [if_neg hesc]
  by_cases hedit : md.isEdit c = true
  · have hless : { t with tEscape := t.tEscape - 1 }.tIbx < NCIB := h
    rw [if_pos hedit]
    exact spill_inBuffer hless (mark c) room (hecho (mark c))
  · rw [if_neg hedit]
    exact spill_inBuffer h c room (hecho c)

theorem plain_inBuffer (h : t.tIbx < NCIB) (c : Byte) (room oroom : ℕ → Bool) :
    InBuffer (t.plain md c room oroom) := by
  have hlimits : ∀ t : Tty, (t.limits md c oroom).tIbx = t.tIbx := fun t =>
    (limits_same t c oroom).ibx
  have hibx : (if t.tIbx = 0 then { t with tOpos := t.tHpos } else t).tIbx < NCIB := by
    split_ifs <;> exact h
  unfold Tty.plain
  generalize (if t.tIbx = 0 then { t with tOpos := t.tHpos } else t) = t₁ at hibx ⊢
  simp only
  split_ifs with hcanon hesc
  · exact ⟨_, rfl, (hlimits _).symm ▸ h⟩
  · exact ⟨_, rfl, (hlimits _).symm ▸ hibx⟩
  · exact (stash_inBuffer hibx c room).map hlimits

theorem erase_inBuffer (h : t.tIbx < NCIB) (c : Byte) (oroom : ℕ → Bool) :
    InBuffer (t.erase md c oroom) := by
  obtain ⟨t', h', hlt, -⟩ := spill_spec t.tEscape h rfl
  refine ⟨_, by rw [Tty.erase, h', Option.map_some], ?_⟩
  split_ifs
  · exact hlt
  · exact (Nat.sub_le _ 1).trans_lt hlt
  · exact (Nat.sub_le _ 1).trans_lt hlt

/-- No character of any kind makes `ttin` store outside the buffer. -/
theorem ttin_inBuffer (h : t.tIbx < NCIB) (c : Byte) (room oroom : ℕ → Bool) :
    InBuffer (t.ttin md c room oroom) := by
  unfold Tty.ttin Tty.edit
  split_ifs
  · unfold Tty.ttsignal
    split_ifs
    · exact ⟨_, rfl, h⟩
    · exact ⟨_, rfl, Nat.succ_pos 255⟩
  · exact ⟨_, rfl, h⟩
  · exact afterEscape_inBuffer h _ room oroom
  · exact erase_inBuffer h _ oroom
  · unfold Tty.kill
    simp only
    split_ifs <;> exact ⟨_, rfl, Nat.succ_pos 255⟩
  · exact plain_inBuffer h _ room oroom
  · exact plain_inBuffer h _ room oroom

/-! ### The lines -/

theorem add_keeps {l : List Byte} (hlen : l.length ≤ NCIB - 1) (bytes : List Byte) :
    l <+: (l ++ bytes).take (NCIB - 1) := by
  rw [List.take_append, List.take_of_length_le hlen]
  exact List.prefix_append _ _

/-- A character that is no command leaves what was typed before it as it was. -/
theorem Edit.char_prefix {e : Edit} (hlen : e.line.length ≤ NCIB - 1) (hedit : md.isEdit c = false)
    (heol : md.isEol c = false) : e.line <+: (e.char md c).line := by
  have hstash : ∀ e : Edit, e.stash md c = e.add [c] := fun e => if_neg (by rw [heol]; decide)
  have hnot := hedit
  rw [Mode.isEdit, Bool.or_eq_false_iff, beq_eq_false_iff_ne, beq_eq_false_iff_ne] at hnot
  unfold Edit.char
  by_cases hpend : e.pend ≠ 0
  · rw [if_pos hpend]
    by_cases hesc : c = ESC
    · rw [if_pos hesc]
    · have hpre := add_keeps hlen (List.replicate e.pend ESC)
      have hlen' : (e.add (List.replicate e.pend ESC)).line.length ≤ NCIB - 1 :=
        List.length_take_le _ _
      rw [if_neg hesc, hstash]
      simp only [if_neg (by rw [hedit]; decide : ¬md.isEdit c = true)]
      exact hpre.trans (add_keeps hlen' [c])
  · rw [if_neg hpend, if_neg hnot.1, if_neg hnot.2]
    by_cases hesc : c = ESC
    · rw [if_pos hesc]
    · rw [if_neg hesc, hstash]
      exact add_keeps hlen [c]

/-- **The typed lines.**  In every run in canonical mode whose characters are of the kind that
    works, the bytes that have been in the input queue are the lines of the reference edit, and the
    buffer holds the line that is being typed.  `ttin` stores in the buffer only, and a character
    that is no command, whether it fits or not, leaves what was typed before it. -/
theorem ttin_edits (hcanon : md.icanon = true)
    (h : Reach Line.Fresh (Line.step md) (Sound md) s) :
    s.gone ++ s.tty.tIq = (edit md s.typed).lines ∧ s.tty.line = (edit md s.typed).line ∧
      s.tty.tIbx < NCIB ∧ (∀ c room oroom, InBuffer (s.tty.ttin md c room oroom)) ∧
      ∀ c, md.isEdit c = false → md.isEol c = false →
        (edit md s.typed).line <+: (edit md (s.typed ++ [.char c])).line := by
  have hedits : Edits s.tty s.gone (edit md s.typed) :=
    @Reach.invariant _ _ _ _ _ (fun s : Line => Edits s.tty s.gone (edit md s.typed))
      (fun s hs => hs.edits) (fun s a s' hs hok hstep => hs.step hcanon hok hstep) _ h
  refine ⟨hedits.queue, hedits.line, hedits.ibx, fun c room oroom =>
    ttin_inBuffer hedits.ibx c room oroom, fun c hedit heol => ?_⟩
  rw [edit_snoc]
  refine Edit.char_prefix ?_ hedit heol
  rw [← hedits.line, line_length]
  exact Nat.le_pred_of_lt hedits.ibx

/-- A new terminal. -/
def newLine : Line where
  tty := newTerminal.tty
  typed := []
  gone := []

theorem newLine_fresh : newLine.Fresh := ⟨⟨rfl, rfl, rfl⟩, rfl, rfl⟩

/-- All the queues have room. -/
def roomy : ℕ → Bool := fun _ => true

/-- A line of one letter. -/
theorem ttin_edits_letter : ∃ s : Line, s.typed = [.char 97, .char NL] ∧ s.tty.tIq = [97, NL] ∧
    s.gone ++ s.tty.tIq = (edit cooked s.typed).lines ∧
      s.tty.line = (edit cooked s.typed).line ∧
      s.tty.tIbx < NCIB ∧ (∀ c room oroom, InBuffer (s.tty.ttin cooked c room oroom)) ∧
      ∀ c, cooked.isEdit c = false → cooked.isEol c = false →
        (edit cooked s.typed).line <+: (edit cooked (s.typed ++ [.char c])).line := by
  have hfits : ∀ (t : Tty) (e : Edit) (c : Byte), c ≠ ESC → cooked.isEdit c = false →
      Fits cooked t e c roomy := fun t e c hesc hedit =>
    ⟨nofun, fun h => absurd h hesc, fun h => absurd (hedit ▸ h) Bool.false_ne_true,
      fun _ _ _ => rfl⟩
  obtain ⟨s₁, h₁⟩ : ∃ s, newLine.step cooked (.ttin 97 roomy roomy) = some s := ⟨_, rfl⟩
  obtain ⟨s₂, h₂, htyped, hiq⟩ : ∃ s, (newLine.step cooked (.ttin 97 roomy roomy)).bind
      (fun s => s.step cooked (.ttin NL roomy roomy)) = some s ∧
      s.typed = [.char 97, .char NL] ∧ s.tty.tIq = [97, NL] := ⟨_, rfl, rfl, rfl⟩
  rw [h₁, Option.bind_some] at h₂
  have hok₁ : Sound cooked newLine (.ttin 97 roomy roomy) :=
    Or.inr (Or.inr (hfits _ _ _ (by decide) (by decide)))
  have hok₂ : Sound cooked s₁ (.ttin NL roomy roomy) :=
    Or.inr (Or.inr (hfits _ _ _ (by decide) (by decide)))
  have hreach := ((Reach.init newLine_fresh).step hok₁ h₁).step hok₂ h₂
  exact ⟨s₂, htyped, hiq, ttin_edits rfl hreach⟩

/-- **A protected erase character gets a bit too many.**  A backslash, `#` and a newline are typed,
    where `#` erases: the line has the byte 163 for `#`, and nobody takes the mark off. -/
theorem escaped_marked : ¬∀ (md : Mode) (s : Line), md.icanon = true →
    Reach Line.Fresh (Line.step md) (fun _ _ => True) s →
      s.gone ++ s.tty.tIq = (edit md s.typed).lines := by
  intro hall
  obtain ⟨s, hs, hgone, hiq, htyped⟩ : ∃ s, runFrom (Line.step cooked) newLine
      [.ttin ESC roomy roomy, .ttin 35 roomy roomy, .ttin NL roomy roomy] = some s ∧
      s.gone = [] ∧ s.tty.tIq = [163, NL] ∧ s.typed = [.char ESC, .char 35, .char NL] :=
    ⟨_, rfl, rfl, rfl, rfl⟩
  have hreach := (Reach.init newLine_fresh).run (fun _ _ => trivial) hs
  have heq := hall cooked s rfl hreach
  rw [hgone, hiq, htyped] at heq
  exact absurd heq (by decide)

end CohKernel.Termio
