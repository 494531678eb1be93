import CohKernel.Strwrite.Defs

namespace CohKernel.Strwrite

open CohKernel.Lib CohKernel.Strmem

/-!
# The messages of a request

What `write` and `putmsg` are to send, and exactly when they do.

* `request_meets` — a request is served within the limits, with the write offset in front of its
  data, exactly when no message can be made, or the write offset that is used is that of the stream
  head, and the first message has data if there are bytes to write;
* `request_offset` — the stream head as it is made reserves 16 bytes where it is to reserve none.
-/

variable {sh : Shead} {q : Queue} {m : Limits} {turns : ℕ → Turn}

/-! ### What is to hold -/

/-- A block of data is right: it has its bytes behind the write offset, within the limits. -/
structure Mblk.Fits (b : Mblk) (sh : Shead) (q : Queue) : Prop where
  low : q.qMinpsz ≤ b.size + sh.shWroff
  high : b.size + sh.shWroff ≤ q.qMaxpsz
  front : b.front = sh.shWroff
  size : b.size = b.data.length

/-- The bytes of messages. -/
def bytesOf (bs : List Mblk) : List UInt8 := bs.flatMap Mblk.data

/-- `write` ends, its messages are right, and their bytes are those that are reported as written. -/
def WriteReq.Meets (r : WriteReq) (sh : Shead) (q : Queue) (m : Limits) : Prop :=
  ∀ lock turns, ∃ fuel w, streamsWrite sh q m r lock turns fuel = some w ∧
    (∀ b ∈ w.queued, b.Fits sh q) ∧
      bytesOf w.queued = r.bytes.take (r.bytes.length - w.rest.length)

/-- The data of a message that `SHEAD_MAKEMSG` makes are right. -/
def PutReq.Meets (r : PutReq) (sh : Shead) (q : Queue) (m : Limits) : Prop :=
  ∀ t bs, sheadMakemsg sh q m r t = .ok bs → ∀ b ∈ bs, b.dbType = .M_DATA →
    b.Fits sh q ∧ b.data = partBytes r.databuf

/-- A request. -/
inductive Request where
  | write (r : WriteReq)
  | putmsg (r : PutReq)

/-- A request is served as it is to be. -/
def Request.Meets (sh : Shead) (q : Queue) (m : Limits) : Request → Prop
  | .write r => r.Meets sh q m
  | .putmsg r => r.Meets sh q m

/-- A `write` comes to its loop, if it gets the lock. -/
def WriteReq.Opens (r : WriteReq) (sh : Shead) : Prop :=
  r.fwrite = true ∧ sh.shLinked = false ∧ (r.bytes.length ≠ 0 ∨ sh.sndzero = true)

/-- If a message of the `write` can be made, the write offset that is used is that of the stream
    head, and the first message has data if there are bytes to write. -/
def WriteReq.Sound (r : WriteReq) (sh : Shead) (q : Queue) (m : Limits) : Prop :=
  r.Opens sh → ∀ size, messageSize q r.bytes.length sh.shReadopt = .ok size →
    m.refuses (size + sh.shReadopt) = false →
      sh.shReadopt = sh.shWroff ∧ (0 < size ∨ r.bytes.length = 0 ∧ size = 0)

/-- If the data of the `putmsg` can be sent, the write offset that is used is that of the stream
    head. -/
def PutReq.Sound (r : PutReq) (sh : Shead) (q : Queue) (m : Limits) : Prop :=
  r.check sh q m = .ok () → 0 ≤ partSize r.databuf →
    (0 ≤ partSize r.ctlbuf → m.refuses (max 64 (partSize r.ctlbuf)) = false) →
      m.refuses (partSize r.databuf + sh.shReadopt) = false → sh.shReadopt = sh.shWroff

/-- The condition on a request. -/
def Request.Sound (sh : Shead) (q : Queue) (m : Limits) : Request → Prop
  | .write r => r.Sound sh q m
  | .putmsg r => r.Sound sh q m

/-! ### Sizes -/

/-- An `int` that is in range is as it is computed. -/
theorem toInt_eq {x : ℤ} (h : -2 ^ 31 ≤ x ∧ x < 2 ^ 31) : toInt x = x := by
  unfold toInt
  omega

/-- A block that can be allocated has a size that is small, or just below 0. -/
theorem not_refuses {size : ℤ} (h : m.refuses size = false) :
    (size + 52) % 2 ^ 32 ≤ 131072 := by
  have hle : msgbSize (UInt32.ofInt size) ≤ 131072 :=
    UInt32.le_trans (UInt32.not_lt.mp (of_decide_eq_false h)) m.max_le
  have hnat : (msgbSize (UInt32.ofInt size)).toNat ≤ 131072 := UInt32.le_iff_toNat_le.mp hle
  have hsize : ((msgbSize (UInt32.ofInt size)).toNat : ℤ) = (size + 52) % 2 ^ 32 := by
    unfold msgbSize UInt32.ofInt
    rw [UInt32.toNat_add, UInt32.toNat_add, UInt32.toNat_ofNat']
    show (((((size % 2 ^ 32).toNat % 2 ^ 32 + 32) % 2 ^ 32 + 20) % 2 ^ 32 : ℕ) : ℤ) = _
    omega
  omega

/-- The sizes of messages that can be allocated: all of the bytes, or as many as the limit allows.
    -/
theorem messageSize_cases {n : ℕ} {size : ℤ} (hn : n < 2 ^ 31)
    (hsize : messageSize q n sh.shReadopt = .ok size)
    (hfits : m.refuses (size + sh.shReadopt) = false) :
    (size = n ∧ q.qMinpsz ≤ n + sh.shReadopt ∧ n + sh.shReadopt ≤ q.qMaxpsz) ∨
      (size = q.qMaxpsz - sh.shReadopt ∧ q.qMaxpsz < n + sh.shReadopt ∧ q.qMinpsz ≤ 0 ∧
        n + sh.shReadopt < 2 ^ 31) := by
  have hmax := not_refuses hfits
  have hlong := q.max_long
  have hlong' := q.min_long
  have hshort := sh.readopt_short
  unfold messageSize at hsize
  split_ifs at hsize with hhigh hmin hlow
  · cases hsize
    right
    unfold toInt at *
    omega
  · cases hsize
    left
    unfold toInt at *
    omega

/-! ### The loop -/

/-- The messages that have been queued are right, and their bytes are those that are gone. -/
structure Writing.Good (st : Writing) (sh : Shead) (q : Queue) (bytes : List UInt8) : Prop where
  fits : ∀ b ∈ st.queued, b.Fits sh q
  bytes_eq : bytesOf st.queued ++ st.rest = bytes

/-- The messages of a `write` that has ended are right. -/
structure Written.Good (w : Written) (sh : Shead) (q : Queue) (bytes : List UInt8) : Prop where
  fits : ∀ b ∈ w.queued, b.Fits sh q
  bytes_eq : bytesOf w.queued ++ w.rest = bytes

/-- Memory that is refused ends the loop, and otherwise a message is queued, unless the loop ends.
    -/
theorem turn_ok {st st' : Writing} {wroff size : ℤ} {t : Turn}
    (h : st.turn m wroff size t = .ok st') : m.refuses (size + wroff) = false ∧
    ∃ data, st'.queued = st.queued ++ [⟨.M_DATA, 0, wroff, size, data⟩] ∧
      data ++ st'.rest = st.rest ∧ data.length = size.toNat := by
  unfold Writing.turn at h
  split_ifs at h with htest hrefuses hpos
  · cases hmove : uiomove st.rest size t.copied with
    | none =>
      rw [hmove] at h
      cases h
    | some moved =>
      rw [hmove] at h
      cases h
      obtain ⟨⟨-, hle⟩, hmoved⟩ := Option.ite_none_right_eq_some.mp hmove
      cases hmoved
      refine ⟨Bool.eq_false_of_not_eq_true hrefuses, _, rfl, List.take_append_drop _ _, ?_⟩
      rw [List.length_take]
      omega
  · cases h
    refine ⟨Bool.eq_false_of_not_eq_true hrefuses, [], rfl, rfl, ?_⟩
    show 0 = _
    omega

/-- The first message of the bytes that are left has data. -/
def Advances (sh : Shead) (q : Queue) (m : Limits) (n : ℕ) : Prop :=
  ∀ size, messageSize q n sh.shReadopt = .ok size → m.refuses (size + sh.shReadopt) = false →
    0 < size ∨ n = 0 ∧ size = 0

/-- A turn of the loop: the message is right, and the next one has data as well. -/
theorem Writing.Good.turn {st st' : Writing} {bytes : List UInt8} {size : ℤ} {t : Turn}
    (hst : st.Good sh q bytes) (hbytes : bytes.length < 2 ^ 31) (hoff : sh.shReadopt = sh.shWroff)
    (hadv : Advances sh q m st.rest.length)
    (hsize : messageSize q st.rest.length sh.shReadopt = .ok size)
    (hturn : st.turn m sh.shReadopt size t = .ok st') :
    st'.Good sh q bytes ∧ (0 < st'.rest.length →
      st'.rest.length < st.rest.length ∧ Advances sh q m st'.rest.length) := by
  obtain ⟨hfits, data, hqueued, hrest, hlength⟩ := turn_ok hturn
  have hlen : st.rest.length ≤ bytes.length := by
    rw [← hst.bytes_eq, List.length_append]
    omega
  have hn : st.rest.length < 2 ^ 31 := by omega
  have hrest' : data.length + st'.rest.length = st.rest.length := by
    rw [← hrest, List.length_append]
  have hpos := hadv size hsize hfits
  have hcases := messageSize_cases hn hsize hfits
  refine ⟨⟨?_, ?_⟩, fun hleft => ⟨by omega, ?_⟩⟩
  · intro b hb
    rw [hqueued] at hb
    rcases List.mem_append.mp hb with hb | hb
    · exact hst.fits b hb
    · rw [List.mem_singleton.mp hb]
      refine ⟨?_, ?_, hoff, ?_⟩ <;> dsimp only <;> omega
  · rw [hqueued]
    unfold bytesOf
    rw [List.flatMap_append, List.append_assoc]
    show _ ++ (data ++ [] ++ _) = _
    rw [List.append_nil, hrest]
    exact hst.bytes_eq
  · -- the size is again that of the limit, or all that is left
    intro size' hsize' hfits'
    have hcases' := messageSize_cases (by omega) hsize' hfits'
    omega

/-- The loop ends, and its messages are right. -/
theorem writeLoop_good {st : Writing} {bytes : List UInt8} {fuel : ℕ} (hst : st.Good sh q bytes)
    (hbytes : bytes.length < 2 ^ 31) (hoff : sh.shReadopt = sh.shWroff)
    (hadv : Advances sh q m st.rest.length) (hfuel : st.rest.length < fuel) :
    ∃ w, writeLoop q m sh.shReadopt turns fuel st = some w ∧ w.Good sh q bytes := by
  induction fuel generalizing st with
  | zero => omega
  | succ fuel ih =>
    unfold writeLoop
    cases hsize : messageSize q st.rest.length sh.shReadopt with
    | error retval => exact ⟨_, rfl, hst.fits, hst.bytes_eq⟩
    | ok size =>
      dsimp only
      cases hturn : st.turn m sh.shReadopt size (turns st.queued.length) with
      | error retval => exact ⟨_, rfl, hst.fits, hst.bytes_eq⟩
      | ok st' =>
        obtain ⟨hgood, hnext⟩ := hst.turn hbytes hoff hadv hsize hturn
        dsimp only
        split_ifs with hleft
        · obtain ⟨hless, hadv'⟩ := hnext hleft
          exact ih hgood hadv' (by omega)
        · exact ⟨_, rfl, hgood.fits, hgood.bytes_eq⟩

/-- Messages stay queued. -/
theorem writeLoop_queued {st : Writing} {w : Written} {wroff : ℤ} {fuel : ℕ}
    (h : writeLoop q m wroff turns fuel st = some w) : ∀ b ∈ st.queued, b ∈ w.queued := by
  induction fuel generalizing st with
  | zero => cases h
  | succ fuel ih =>
    unfold writeLoop at h
    cases hsize : messageSize q st.rest.length wroff with
    | error retval =>
      rw [hsize] at h
      cases h
      exact fun b hb => hb
    | ok size =>
      rw [hsize] at h
      dsimp only at h
      cases hturn : st.turn m wroff size (turns st.queued.length) with
      | error retval =>
        rw [hturn] at h
        cases h
        exact fun b hb => hb
      | ok st' =>
        rw [hturn] at h
        dsimp only at h
        obtain ⟨-, data, hqueued, -⟩ := turn_ok hturn
        have hmem : ∀ b ∈ st.queued, b ∈ st'.queued := by
          intro b hb
          rw [hqueued]
          exact List.mem_append_left _ hb
        split_ifs at h with hleft
        · exact fun b hb => ih h b (hmem b hb)
        · cases h
          exact hmem

/-! ### Nothing goes wrong -/

/-- Nothing goes wrong in a turn. -/
def smooth : ℕ → Turn := fun _ => ⟨0, true⟩

/-- When nothing goes wrong a message is queued. -/
theorem turn_smooth (st : Writing) {wroff size : ℤ} (hfits : m.refuses (size + wroff) = false)
    (hle : size ≤ st.rest.length) : ∃ st', st.turn m wroff size ⟨0, true⟩ = .ok st' := by
  unfold Writing.turn uiomove
  rw [if_neg (not_not.mpr rfl), hfits, if_neg Bool.false_ne_true]
  split_ifs with hpos hcopied
  · exact ⟨_, rfl⟩
  · exact absurd ⟨rfl, hle⟩ hcopied
  · exact ⟨_, rfl⟩

/-- A message that takes no bytes is queued again and again. -/
theorem writeLoop_endless {size : ℤ} (st : Writing) (fuel : ℕ) (hleft : 0 < st.rest.length)
    (hsize : messageSize q st.rest.length sh.shReadopt = .ok size)
    (hfits : m.refuses (size + sh.shReadopt) = false) (hnone : size ≤ 0) :
    writeLoop q m sh.shReadopt smooth fuel st = none := by
  induction fuel generalizing st with
  | zero => rfl
  | succ fuel ih =>
    obtain ⟨st', hturn⟩ := turn_smooth st hfits (by omega)
    obtain ⟨-, data, -, hrest, hlength⟩ := turn_ok hturn
    have hdata : data = [] := List.eq_nil_of_length_eq_zero (by omega)
    have hsame : st'.rest = st.rest := by
      rw [← hrest, hdata]
      rfl
    unfold writeLoop
    rw [hsize]
    dsimp only
    rw [show smooth st.queued.length = ⟨0, true⟩ from rfl, hturn]
    dsimp only
    rw [if_pos (by rw [hsame]; exact hleft)]
    exact ih st' (by rw [hsame]; exact hleft) (by rw [hsame]; exact hsize)

/-! ### `write` -/

/-- What `STREAMS_WRITE` does for a `write` that does not come to its loop. -/
theorem streamsWrite_closed {r : WriteReq} {lock : ℕ} (q : Queue) (m : Limits) (turns : ℕ → Turn)
    (fuel : ℕ) (hclosed : ¬ r.Opens sh ∨ lock ≠ 0) :
    ∃ retval, streamsWrite sh q m r lock turns fuel = some (Writing.stop ⟨[], r.bytes⟩ retval) := by
  unfold streamsWrite
  dsimp only
  by_cases hwrite : r.fwrite = true
  swap
  · exact ⟨_, if_pos hwrite⟩
  rw [if_neg (not_not.mpr hwrite)]
  by_cases hlinked : sh.shLinked = true
  · exact ⟨_, if_pos hlinked⟩
  rw [if_neg hlinked]
  by_cases hempty : r.bytes.length = 0 ∧ ¬ sh.sndzero = true
  · exact ⟨_, if_pos hempty⟩
  rw [if_neg hempty]
  have hopens : r.Opens sh := by
    refine ⟨hwrite, Bool.eq_false_of_not_eq_true hlinked, ?_⟩
    by_cases hzero : r.bytes.length = 0
    · exact .inr (not_not.mp (not_and.mp hempty hzero))
    · exact .inl hzero
  exact ⟨_, if_pos (hclosed.resolve_left (not_not.mpr hopens))⟩

/-- What it does for one that comes to its loop. -/
theorem streamsWrite_opens {r : WriteReq} {fuel : ℕ} (hopens : r.Opens sh) :
    streamsWrite sh q m r 0 turns fuel =
      (writeLoop q m sh.shReadopt turns fuel ⟨[], r.bytes⟩).map
        fun w => w.report r.bytes.length := by
  obtain ⟨hwrite, hlinked, hbytes⟩ := hopens
  have hempty : ¬ (r.bytes.length = 0 ∧ ¬ sh.sndzero = true) := by
    rintro ⟨hzero, hnot⟩
    exact hbytes.elim (absurd hzero) hnot
  unfold streamsWrite
  dsimp only
  rw [if_neg (not_not.mpr hwrite), hlinked, if_neg Bool.false_ne_true, if_neg hempty,
    if_neg (not_not.mpr rfl)]
  rfl

/-- What is reported as written is what the messages have. -/
theorem Written.Good.reported {w : Written} {bytes : List UInt8} (hw : w.Good sh q bytes) :
    bytesOf w.queued = bytes.take (bytes.length - w.rest.length) := by
  rw [← hw.bytes_eq, List.length_append, Nat.add_sub_cancel, List.take_left]

/-- A `write` that is sound is served. -/
theorem WriteReq.Sound.meets {r : WriteReq} (h : r.Sound sh q m) : r.Meets sh q m := by
  intro lock turns
  have hstart : Writing.Good ⟨[], r.bytes⟩ sh q r.bytes := ⟨nofun, rfl⟩
  by_cases hclosed : ¬ r.Opens sh ∨ lock ≠ 0
  · obtain ⟨retval, heq⟩ := streamsWrite_closed q m turns 0 hclosed
    have hgood : Written.Good (Writing.stop ⟨[], r.bytes⟩ retval) sh q r.bytes :=
      ⟨hstart.fits, hstart.bytes_eq⟩
    exact ⟨0, _, heq, hgood.fits, hgood.reported⟩
  · obtain ⟨hopens, hlock⟩ := not_or.mp hclosed
    have hopens := not_not.mp hopens
    rw [not_not.mp hlock]
    have hgood : ∃ w, writeLoop q m sh.shReadopt turns (r.bytes.length + 1) ⟨[], r.bytes⟩ = some w ∧
        w.Good sh q r.bytes := by
      -- either a first message can be made, or the loop ends in its first turn
      by_cases hfirst : ∃ size, messageSize q r.bytes.length sh.shReadopt = .ok size ∧
          m.refuses (size + sh.shReadopt) = false
      · obtain ⟨size, hsize, hfits⟩ := hfirst
        have hadv : Advances sh q m r.bytes.length :=
          fun size hsize hfits => (h hopens size hsize hfits).2
        exact writeLoop_good hstart r.resid_int (h hopens size hsize hfits).1 hadv
          (Nat.lt_succ_self _)
      · unfold writeLoop
        cases hsize : messageSize q r.bytes.length sh.shReadopt with
        | error retval => exact ⟨_, rfl, hstart.fits, hstart.bytes_eq⟩
        | ok size =>
          dsimp only
          cases hturn : Writing.turn ⟨[], r.bytes⟩ m sh.shReadopt size
              (turns ([] : List Mblk).length) with
          | error retval =>
            exact ⟨_, rfl, hstart.fits, hstart.bytes_eq⟩
          | ok st' => exact absurd ⟨size, hsize, (turn_ok hturn).1⟩ hfirst
    obtain ⟨w, hw, hgood⟩ := hgood
    have heq := (streamsWrite_opens hopens).trans (congrArg (Option.map _) hw)
    refine ⟨r.bytes.length + 1, _, heq, ?_, ?_⟩
    · rw [Written.report_queued]
      exact hgood.fits
    · rw [Written.report_queued, Written.report_rest]
      exact hgood.reported

/-- A `write` that is served is sound. -/
theorem WriteReq.Meets.sound {r : WriteReq} (h : r.Meets sh q m) : r.Sound sh q m := by
  intro hopens size hsize hfits
  obtain ⟨fuel, w, hw, hright, hbytes⟩ := h 0 smooth
  rw [streamsWrite_opens hopens] at hw
  obtain ⟨w', hloop, hw⟩ := Option.map_eq_some_iff.mp hw
  have hcases := messageSize_cases r.resid_int hsize hfits
  obtain ⟨st', hturn⟩ := turn_smooth ⟨[], r.bytes⟩ hfits (by dsimp only; omega)
  obtain ⟨-, data, hqueued, hrest, hlength⟩ := turn_ok hturn
  -- the first message is queued in the end
  have hfirst : ⟨.M_DATA, 0, sh.shReadopt, size, data⟩ ∈ w.queued := by
    have hmem : (⟨.M_DATA, 0, sh.shReadopt, size, data⟩ : Mblk) ∈ st'.queued := by
      rw [hqueued]
      exact List.mem_append_right _ (List.mem_singleton_self _)
    have hin : (⟨.M_DATA, 0, sh.shReadopt, size, data⟩ : Mblk) ∈ w'.queued := by
      cases fuel with
      | zero => cases hloop
      | succ fuel =>
        unfold writeLoop at hloop
        rw [hsize] at hloop
        dsimp only at hloop
        rw [show smooth ([] : List Mblk).length = ⟨0, true⟩ from rfl, hturn] at hloop
        dsimp only at hloop
        split_ifs at hloop
        · exact writeLoop_queued hloop _ hmem
        · cases hloop
          exact hmem
    rw [← hw, Written.report_queued]
    exact hin
  have hfirst := hright _ hfirst
  have hsize' : size = data.length := hfirst.size
  refine ⟨hfirst.front, ?_⟩
  by_cases hzero : r.bytes.length = 0
  · by_cases hpos : 0 < size
    · exact .inl hpos
    · exact .inr ⟨hzero, by omega⟩
  · by_contra hnot
    have hend := writeLoop_endless ⟨[], r.bytes⟩ fuel
      (Nat.pos_of_ne_zero hzero) hsize hfits (by omega)
    rw [hend] at hloop
    cases hloop

/-! ### `putmsg` -/

/-- The sizes that `SHEAD_MAKEMSG` lets through. -/
theorem check_ok {r : PutReq} (h : r.check sh q m = .ok ()) :
    q.qMinpsz ≤ toInt (partSize r.databuf + sh.shReadopt) ∧
      toInt (partSize r.databuf + sh.shReadopt) ≤ q.qMaxpsz := by
  unfold PutReq.check at h
  dsimp only at h
  split_ifs at h with hflags hwrite hlinked hrange <;> first
    | exact ⟨not_lt.mp fun hlt => hrange (.inr (.inr (.inl hlt))),
        not_lt.mp fun hlt => hrange (.inr (.inr (.inr hlt)))⟩

/-- The size of a part is an `int`. -/
theorem partSize_int (b : Option Strbuf) : -2 ^ 31 ≤ partSize b ∧ partSize b < 2 ^ 31 := by
  cases b with
  | none => decide
  | some b => exact b.len_int

/-- The bytes of a part are as many as its size. -/
theorem partBytes_length (b : Option Strbuf) : (partBytes b).length = (partSize b).toNat := by
  cases b with
  | none => rfl
  | some b => exact b.length_eq

/-- The control part has been allocated, and it has no data. -/
theorem ctl_ok {r : PutReq} {copied : Bool} {bs : List Mblk} (h : r.ctl m copied = .ok bs) :
    (0 ≤ partSize r.ctlbuf → m.refuses (max 64 (partSize r.ctlbuf)) = false) ∧
      ∀ b ∈ bs, b.dbType ≠ .M_DATA := by
  unfold PutReq.ctl at h
  dsimp only at h
  by_cases hpart : partSize r.ctlbuf ≥ 0
  swap
  · rw [if_neg hpart] at h
    cases h
    exact ⟨fun hpos => absurd hpos hpart, fun b hb => absurd hb List.not_mem_nil⟩
  rw [if_pos hpart] at h
  by_cases hrefuses : m.refuses (max 64 (partSize r.ctlbuf)) = true
  · rw [if_pos hrefuses] at h
    cases h
  rw [if_neg hrefuses] at h
  by_cases hcopy : partSize r.ctlbuf > 0 ∧ ¬ copied = true
  · rw [if_pos hcopy] at h
    cases h
  rw [if_neg hcopy] at h
  cases h
  refine ⟨fun _ => Bool.eq_false_of_not_eq_true hrefuses, fun b hb => ?_⟩
  rw [List.mem_singleton.mp hb]
  dsimp only
  split_ifs <;> nofun

/-- The control part is made when it can be allocated and copied. -/
theorem ctl_smooth {r : PutReq}
    (h : 0 ≤ partSize r.ctlbuf → m.refuses (max 64 (partSize r.ctlbuf)) = false) :
    ∃ bs, r.ctl m true = .ok bs := by
  unfold PutReq.ctl
  dsimp only
  by_cases hpart : partSize r.ctlbuf ≥ 0
  · rw [if_pos hpart, h hpart, if_neg Bool.false_ne_true, if_neg fun hcopy => hcopy.2 rfl]
    exact ⟨_, rfl⟩
  · rw [if_neg hpart]
    exact ⟨_, rfl⟩

/-- The block of the data part. -/
def PutReq.block (r : PutReq) (wroff : ℤ) : Mblk :=
  ⟨.M_DATA, UInt8.ofInt r.band, wroff, partSize r.databuf, partBytes r.databuf⟩

/-- The data part has been allocated, and it is a block. -/
theorem data_ok {r : PutReq} {wroff : ℤ} {copied : Bool} {bs : List Mblk}
    (h : r.data m wroff copied = .ok bs) {b : Mblk} (hb : b ∈ bs) :
    0 ≤ partSize r.databuf ∧ m.refuses (partSize r.databuf + wroff) = false ∧
      b = r.block wroff := by
  unfold PutReq.data at h
  dsimp only at h
  by_cases hpart : partSize r.databuf ≥ 0
  swap
  · rw [if_neg hpart] at h
    cases h
    exact absurd hb List.not_mem_nil
  rw [if_pos hpart] at h
  by_cases hrefuses : m.refuses (partSize r.databuf + wroff) = true
  · rw [if_pos hrefuses] at h
    cases h
  rw [if_neg hrefuses] at h
  by_cases hcopy : partSize r.databuf > 0 ∧ ¬ copied = true
  · rw [if_pos hcopy] at h
    cases h
  rw [if_neg hcopy] at h
  cases h
  exact ⟨hpart, Bool.eq_false_of_not_eq_true hrefuses, List.mem_singleton.mp hb⟩

/-- The data part is made when it can be allocated and copied. -/
theorem data_smooth {r : PutReq} {wroff : ℤ} (hpart : 0 ≤ partSize r.databuf)
    (hfits : m.refuses (partSize r.databuf + wroff) = false) :
    r.data m wroff true = .ok [r.block wroff] := by
  unfold PutReq.data
  dsimp only
  rw [if_pos hpart, hfits, if_neg Bool.false_ne_true, if_neg fun hcopy => hcopy.2 rfl]
  rfl

/-- What `SHEAD_MAKEMSG` has done when it has made a message. -/
theorem sheadMakemsg_ok {r : PutReq} {t : PutTurn} {bs : List Mblk}
    (h : sheadMakemsg sh q m r t = .ok bs) :
    r.check sh q m = .ok () ∧ ∃ ctlmsg datamsg, r.ctl m t.ctlCopied = .ok ctlmsg ∧
      r.data m sh.shReadopt t.dataCopied = .ok datamsg ∧ bs = ctlmsg ++ datamsg := by
  obtain ⟨_, hcheck, h⟩ := bind_ok h
  by_cases htest : t.test ≠ 0
  · rw [if_pos htest] at h
    cases h
  · rw [if_neg htest] at h
    obtain ⟨ctlmsg, hctl, h⟩ := bind_ok h
    obtain ⟨datamsg, hdata, h⟩ := bind_ok h
    cases h
    exact ⟨hcheck, ctlmsg, datamsg, hctl, hdata, rfl⟩

/-- A `putmsg` that is sound is served. -/
theorem PutReq.Sound.meets {r : PutReq} (h : r.Sound sh q m) : r.Meets sh q m := by
  intro t bs hbs b hb htype
  obtain ⟨hcheck, ctlmsg, datamsg, hctl, hdata, heq⟩ := sheadMakemsg_ok hbs
  obtain ⟨hroom, hnodata⟩ := ctl_ok hctl
  rw [heq] at hb
  rcases List.mem_append.mp hb with hb | hb
  · exact absurd htype (hnodata b hb)
  obtain ⟨hpart, hfits, hblock⟩ := data_ok hdata hb
  have hoff := h hcheck hpart hroom hfits
  obtain ⟨hlow, hhigh⟩ := check_ok hcheck
  have hmax := not_refuses hfits
  have hint := partSize_int r.databuf
  have hushort := sh.wroff_ushort
  -- a sum that does not fit an `int` is refused
  have hsum : toInt (partSize r.databuf + sh.shReadopt) = partSize r.databuf + sh.shReadopt := by
    refine toInt_eq ?_
    omega
  rw [hsum, hoff] at hlow hhigh
  rw [hblock]
  refine ⟨⟨hlow, hhigh, hoff, ?_⟩, rfl⟩
  show partSize r.databuf = ((partBytes r.databuf).length : ℤ)
  rw [partBytes_length]
  omega

/-- A `putmsg` that is served is sound. -/
theorem PutReq.Meets.sound {r : PutReq} (h : r.Meets sh q m) : r.Sound sh q m := by
  intro hcheck hpart hroom hfits
  obtain ⟨ctlmsg, hctl⟩ := ctl_smooth hroom
  have hmade : sheadMakemsg sh q m r ⟨0, true, true⟩ = .ok (ctlmsg ++ [r.block sh.shReadopt]) := by
    unfold sheadMakemsg Shead.writeoffset
    rw [hcheck, hctl, data_smooth hpart hfits]
    rfl
  have hmem : r.block sh.shReadopt ∈ ctlmsg ++ [r.block sh.shReadopt] :=
    List.mem_append_right _ (List.mem_singleton_self _)
  exact (h _ _ hmade _ hmem rfl).1.front

/-! ### Requests -/

/-- **Exactly when a request is served.**  `SHEAD_WRITEOFFSET` returns `sh_readopt`, and a limit
    that the write offset fills leaves no room for data. -/
theorem request_meets (sh : Shead) (q : Queue) (m : Limits) (r : Request) :
    r.Meets sh q m ↔ r.Sound sh q m := by
  cases r with
  | write r => exact ⟨WriteReq.Meets.sound, WriteReq.Sound.meets⟩
  | putmsg r => exact ⟨PutReq.Meets.sound, PutReq.Sound.meets⟩

/-- A stream head as it is made: `RNORM` and `RPROTNORM` are its read options. -/
def madeShead : Shead := ⟨0x10, false, 0, false, by decide, by decide⟩

/-- **Sixteen bytes are reserved** where there is no write offset. -/
theorem request_offset :
    ¬ ∀ (sh : Shead) (q : Queue) (m : Limits) (r : Request), r.Meets sh q m := by
  intro hall
  have hmeets : WriteReq.Meets ⟨true, [1], by decide⟩ madeShead
      ⟨0, 4096, by decide, by decide⟩ ⟨1024, 4096, initMax 32768 .BPRI_LO, by decide⟩ :=
    hall _ _ _ (.write _)
  obtain ⟨fuel, w, hw, hright, -⟩ := hmeets 0 smooth
  cases fuel with
  | zero => cases hw
  | succ fuel =>
    have hend : some w = some ⟨0, [⟨.M_DATA, 0, 0x10, 1, [1]⟩], []⟩ := hw.symm.trans (by rfl)
    cases hend
    have hfront := (hright _ (List.mem_singleton_self _)).front
    exact absurd hfront (by decide)

end CohKernel.Strwrite
