import CohKernel.Lib.Bytes

namespace CohKernel.Termio

open CohKernel.Lib

/-!
# The line discipline of terminals

`ttin`, `ttstash` and `ttout` of `tty.c`, with the flushes and the character queues that they use.
A queue is the list of its bytes; `cltputq` can find the clists used up, so each call of it has a
flag `room`.  `ttstart` and `wakeup` change nothing here: what the driver fetches it fetches with
`ttout`.
-/

/-! ### Characters -/

/-- The size of the input buffer. -/
def NCIB : ℕ := 256

/-- Above this many bytes the input queue takes no more. -/
def IHILIM : ℕ := 512

/-- Below this many bytes the input queue takes bytes again. -/
def ILOLIM : ℕ := 40

/-- The tandem stop mark of the input queue. -/
def ITSLIM : ℕ := IHILIM - IHILIM / 4

/-- The backslash. -/
def ESC : Byte := 92

/-- `'\a'`. -/
def BEL : Byte := 7

/-- `'\b'`. -/
def BS : Byte := 8

/-- `'\t'`. -/
def TAB : Byte := 9

/-- `'\n'`. -/
def NL : Byte := 10

/-- `'\r'`. -/
def CR : Byte := 13

/-- `' '`. -/
def SPACE : Byte := 32

/-- `c & 0x7F`. -/
def strip (c : Byte) : Byte := byte (c.val % 128)

/-- `c |= 0x80`. -/
def mark (c : Byte) : Byte := byte (c.val % 128 + 128)

/-- The settings: bits of `c_iflag`, `c_lflag`, `c_oflag` and `sg_flags`, and the characters. -/
structure Mode where
  istrip : Bool
  icrnl : Bool
  igncr : Bool
  ixoff : Bool
  isig : Bool
  icanon : Bool
  echo : Bool
  opost : Bool
  onlcr : Bool
  ocrnl : Bool
  tab3 : Bool
  rawin : Bool
  crt : Bool
  vquit : Byte
  vintr : Byte
  verase : Byte
  vkill : Byte
  veof : Byte
  brkc : Byte
  startc : Byte
  stopc : Byte

variable (md : Mode)

/-- `_IS_BREAK_CHAR`; `t_brkc` is a signed `char`, and no character is negative. -/
def Mode.isBreak (c : Byte) : Bool := md.brkc.val < 128 && md.brkc == c

/-- The characters that end a line. -/
def Mode.isEol (c : Byte) : Bool := c == NL || md.veof == c || md.isBreak c

/-- The characters that a backslash protects. -/
def Mode.isEdit (c : Byte) : Bool := md.verase == c || md.vkill == c

/-- `TTY`. -/
structure Tty where
  tOq : List Byte
  tIq : List Byte
  tNfill : BitVec 8
  tFillb : Byte
  tInl : Bool
  tInput : Bool
  tIstop : Bool
  tTstop : Bool
  tIb : ℕ → Byte
  tIbx : ℕ
  tHpos : BitVec 32
  tOpos : BitVec 32
  tEscape : ℕ
  tGroup : ℤ

/-! ### Queues -/

/-- One call of `cltputq` for each of the bytes. -/
def cltputq (q : List Byte) : List Byte → (ℕ → Bool) → List Byte
  | [], _ => q
  | c :: cs, room => cltputq (if room 0 = true then q ++ [c] else q) cs fun k => room (k + 1)

/-- `ttinflush`. -/
def Tty.ttinflush (t : Tty) : Tty := { t with tIq := [], tIbx := 0, tEscape := 0 }

/-- `ttoutflush`. -/
def Tty.ttoutflush (t : Tty) : Tty := { t with tOq := [] }

/-- `ttflush`. -/
def Tty.ttflush (t : Tty) : Tty := t.ttinflush.ttoutflush

/-- `ttsignal`, without the signal. -/
def Tty.ttsignal (t : Tty) : Tty := if t.tGroup = 0 then t else t.ttflush

/-! ### Output -/

/-- The characters that take a column. -/
def prints (c : Byte) : Bool := 32 ≤ c.val && c.val ≤ 126 || 128 ≤ c.val && c.val ≤ 254

/-- The end of `ttout`: the position after the character. -/
def Tty.moved (t : Tty) (c : Byte) : Tty :=
  if md.opost = true then
    if c = BS then { t with tHpos := if t.tHpos = 0 then 0 else t.tHpos - 1 }
    else if c = CR then { t with tHpos := 0 }
    else if c = TAB then { t with tHpos := (t.tHpos ||| 7) + 1 }
    else if prints c = true then { t with tHpos := t.tHpos + 1 }
    else t
  else t

/-- `ttout` of a character from the queue, up to the position. -/
def Tty.mapped (t : Tty) (c : Byte) : Byte × Tty :=
  if md.opost = true then
    if c = NL ∧ md.onlcr = true then (CR, { t with tInl := true })
    else if c = CR ∧ md.ocrnl = true then (NL, t)
    else if c = TAB ∧ md.tab3 = true then
      (SPACE, { t with tNfill := (~~~(t.tHpos ||| ~~~7)).setWidth 8, tFillb := SPACE })
    else (c, t)
  else (c, t)

/-- `ttout`; `none` stands for -1. -/
def Tty.ttout (t : Tty) : Option Byte × Tty :=
  if t.tNfill ≠ 0 then
    (some t.tFillb, { t with tNfill := t.tNfill - 1 }.moved md t.tFillb)
  else if t.tInl = true then (some NL, { t with tInl := false }.moved md NL)
  else
    match t.tOq with
    | [] => (none, t)
    | c :: cs =>
        let (c, t) := { t with tOq := cs }.mapped md c
        (some c, t.moved md c)

/-! ### Input -/

/-- `t_ib [t_ibx ++] = c`; `none` stands for an index that the buffer does not have. -/
def Tty.store (t : Tty) (c : Byte) : Option Tty :=
  if t.tIbx < NCIB then
    some { t with tIb := Function.update t.tIb t.tIbx c, tIbx := t.tIbx + 1 }
  else none

/-- The loop that stores the pending backslashes, with their number. -/
def Tty.spill (t : Tty) : ℕ → Option Tty
  | 0 => some t
  | n + 1 =>
      if t.tIbx < NCIB - 1 then
        (t.store ESC).bind fun t => { t with tEscape := t.tEscape - 1 }.spill n
      else some t

/-- `ttstash`. -/
def Tty.ttstash (t : Tty) (c : Byte) (room : ℕ → Bool) : Option Tty :=
  if md.isEol c = true then
    (t.store c).map fun t =>
      { t with
        tIq := cltputq t.tIq ((List.range t.tIbx).map t.tIb) room
        tIbx := 0
        tEscape := 0
        tInput := false }
  else if t.tIbx < NCIB - 1 then t.store c
  else some t

/-- An output of `ttin`. -/
def Tty.out (t : Tty) (bytes : List Byte) (room : ℕ → Bool) : Tty :=
  { t with tOq := cltputq t.tOq bytes room }

/-- A `char` as an `int`. -/
def signed (c : Byte) : ℤ := if c.val < 128 then c.val else c.val - 256

/-- The column of the end of the line, for the echo of an erased tab. -/
def Tty.endOfLine (t : Tty) : BitVec 32 :=
  (List.range t.tIbx).foldl
    (fun n i =>
      if t.tIb i = BS then n - 1 else (if t.tIb i = TAB then n ||| 7 else n) + 1)
    (t.tOpos + BitVec.ofNat 32 t.tEscape)

/-- The echo of the erase character `c`, which has erased `dc`. -/
def Tty.eraseEcho (t : Tty) (c dc : Byte) : List Byte :=
  if md.crt = false then [c]
  else if dc = BEL ∨ signed dc = 0 ∨ signed dc = 0x7F ∨ signed dc = 0xFF then []
  else if dc ≠ BS ∧ dc ≠ TAB then [BS, SPACE, BS]
  else if dc = TAB then List.replicate (t.tHpos.toInt - t.endOfLine.toInt).toNat BS
  else []

/-- The echo of the kill character. -/
def killEcho (c : Byte) : List Byte :=
  if c.val < 0x20 then [94, byte (c.val + 0x40), NL] else [c, NL]

/-- `ttin` of a character that follows backslashes. -/
def Tty.afterEscape (t : Tty) (c : Byte) (room oroom : ℕ → Bool) : Option Tty :=
  let echoed (t : Tty) (c : Byte) : Tty := if md.echo = true then t.out [c] oroom else t
  if c = ESC then some (echoed { t with tEscape := (t.tEscape + 1) % 2 ^ 32 } c)
  else
    let (c, t) :=
      if md.isEdit c = true then (mark c, { t with tEscape := t.tEscape - 1 }) else (c, t)
    (t.spill t.tEscape).bind fun t => (t.ttstash md c room).map fun t => echoed t c

/-- `ttin` of the erase character. -/
def Tty.erase (t : Tty) (c : Byte) (oroom : ℕ → Bool) : Option Tty :=
  (t.spill t.tEscape).map fun t =>
    if t.tIbx = 0 then t
    else
      let t := { t with tIbx := t.tIbx - 1 }
      if md.echo = true then t.out (t.eraseEcho md c (t.tIb t.tIbx)) oroom else t

/-- `ttin` of the kill character. -/
def Tty.kill (t : Tty) (c : Byte) (oroom : ℕ → Bool) : Tty :=
  let t := { t with tIbx := 0, tEscape := 0 }
  if md.echo = true then t.out (killEcho c) oroom else t

/-- The end of `ttin`: the echo, and the limits of the input queue. -/
def Tty.limits (t : Tty) (c : Byte) (oroom : ℕ → Bool) : Tty :=
  let e := if md.echo = true ∧ (md.rawin = true ∨ md.veof ≠ c) then [c] else []
  let t := t.out e oroom
  if t.tIq.length ≥ IHILIM then { t with tIstop := true }
  else if md.ixoff = true ∧ t.tTstop = false ∧ t.tIq.length ≥ ITSLIM then
    { t with tTstop := true }.out [md.stopc] fun k => oroom (e.length + k)
  else t

/-- `ttin` of any other character. -/
def Tty.plain (t : Tty) (c : Byte) (room oroom : ℕ → Bool) : Option Tty :=
  if md.icanon = false then
    some ({ t with tIq := cltputq t.tIq [c] room, tInput := false }.limits md c oroom)
  else
    let t := if t.tIbx = 0 then { t with tOpos := t.tHpos } else t
    if c = ESC then some ({ t with tEscape := (t.tEscape + 1) % 2 ^ 32 }.limits md c oroom)
    else (t.ttstash md c room).map fun t => t.limits md c oroom

/-- The character that `ttin` tests for signals. -/
def Mode.stripped (c : Byte) : Byte := if md.istrip = true then strip c else c

/-- The character signals the process group. -/
def Mode.signals (c : Byte) : Bool :=
  md.isig && (md.vquit == md.stripped c || md.vintr == md.stripped c)

/-- The character that `ttin` edits with. -/
def Mode.typed (c : Byte) : Byte :=
  if md.icrnl = true ∧ md.igncr = false ∧ md.stripped c = CR then NL else md.stripped c

/-- `ttin` from the translation of the carriage return on. -/
def Tty.edit (t : Tty) (c : Byte) (room oroom : ℕ → Bool) : Option Tty :=
  if md.rawin = false then
    if t.tEscape ≠ 0 then t.afterEscape md c room oroom
    else if md.verase = c ∧ md.icanon = true then t.erase md c oroom
    else if md.vkill = c ∧ md.icanon = true then some (t.kill md c oroom)
    else t.plain md c room oroom
  else t.plain md c room oroom

/-- `ttin`. -/
def Tty.ttin (t : Tty) (c : Byte) (room oroom : ℕ → Bool) : Option Tty :=
  if md.signals c = true then some t.ttsignal
  else if t.tIstop = true then some t
  else t.edit md (md.typed c) room oroom

/-- The loop of `ttread0` gets a byte from the input queue; it waits for room for `t_startc`. -/
def Tty.ttread (t : Tty) : Option (Byte × Tty) :=
  match t.tIq with
  | [] => none
  | c :: cs =>
      some (c,
        if cs.length ≤ ILOLIM then
          if md.ixoff = true ∧ t.tTstop = true then
            { t with tIq := cs, tIstop := false, tTstop := false, tOq := t.tOq ++ [md.startc] }
          else { t with tIq := cs, tIstop := false }
        else { t with tIq := cs })

end CohKernel.Termio
