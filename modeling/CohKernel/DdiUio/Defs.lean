import Mathlib.Tactic

namespace CohKernel.DdiUio

/-!
# Scatter and gather

`uiomove`, `ureadc` and `uwritec` of `uio.c`, with the copies of `k0.s` between the memory of the
kernel and that of the user.  What a page fault leaves of a copy is a parameter.
-/

/-! ### Memory -/

/-- The memory of the kernel, or of the user. -/
abbrev Mem : Type := ℕ → UInt8

/-- The `n` bytes from an address on. -/
def Mem.bytes (m : Mem) (a n : ℕ) : List UInt8 := (List.range' a n).map m

/-- Bytes are written one after the other. -/
def Mem.puts : Mem → List ℕ → List UInt8 → Mem
  | m, a :: places, b :: bytes => Mem.puts (Function.update m a b) places bytes
  | m, _, _ => m

/-! ### The request -/

/-- `struct iovec` -/
structure Iovec where
  iovBase : ℕ
  iovLen : ℤ

/-- `uio_segflg` -/
inductive Segflg
  | userspace
  | sysspace
deriving DecidableEq

/-- `uio_rw_t` -/
inductive Rw
  | read
  | write

/-- `uio_t`, with the array that `uio_iov` and `uio_iovcnt` describe. -/
structure Uio where
  uioIov : List Iovec
  uioOffset : ℤ
  uioSegflg : Segflg
  uioResid : ℤ

/-- The memory, `u.u_error`, and a request. -/
structure State where
  user : Mem
  kernel : Mem
  uError : Bool
  uio : Uio

/-- The memory that the request describes. -/
def State.mem (s : State) : Mem :=
  match s.uio.uioSegflg with
  | .userspace => s.user
  | .sysspace => s.kernel

def State.setMem (s : State) (m : Mem) : State :=
  match s.uio.uioSegflg with
  | .userspace => { s with user := m }
  | .sysspace => { s with kernel := m }

def EFAULT : ℤ := 14

/-! ### Copies -/

/-- What a copy of a number of bytes at a user address meets: after how many bytes it faults. -/
abbrev Fault : Type := ℕ → ℕ → Option ℕ

/-- `kucopy` -/
def State.kucopy (s : State) (fault : Fault) (k u n : ℕ) : ℕ × State :=
  match fault u n with
  | none => (n, { s with user := s.user.puts (List.range' u n) (s.kernel.bytes k n) })
  | some i =>
    (0, { s with
      user := s.user.puts (List.range' u (min i n)) (s.kernel.bytes k n)
      uError := true })

/-- `ukcopy` -/
def State.ukcopy (s : State) (fault : Fault) (u k n : ℕ) : ℕ × State :=
  match fault u n with
  | none => (n, { s with kernel := s.kernel.puts (List.range' k n) (s.user.bytes u n) })
  | some i =>
    (0, { s with
      kernel := s.kernel.puts (List.range' k (min i n)) (s.user.bytes u n)
      uError := true })

/-- `memcpy` -/
def State.memcpy (s : State) (dest src n : ℕ) : State :=
  { s with kernel := s.kernel.puts (List.range' dest n) (s.kernel.bytes src n) }

/-- `PUTBYTE`: whether there is an error, also one from before. -/
def State.putbyte (s : State) (fault : Fault) (c : UInt8) (u : ℕ) : Bool × State :=
  match fault u 1 with
  | none => (s.uError, { s with user := Function.update s.user u c })
  | some _ => (true, { s with uError := true })

/-- `GETBYTE` -/
def State.getbyte (s : State) (fault : Fault) (u : ℕ) : ℤ × State :=
  match fault u 1 with
  | none => ((s.user u).toNat - if s.uError then 255 else 0, s)
  | some _ => (-255, { s with uError := true })

/-! ### `uiomove` -/

/-- A length as a `size_t`. -/
def sizeT (len : ℤ) : ℕ := (len % 2 ^ 32).toNat

/-- One block is moved: whether it is moved whole. -/
def State.block (s : State) (fault : Fault) (addr base size : ℕ) (rwflag : Rw) : Bool × State :=
  match rwflag, s.uio.uioSegflg with
  | .read, .userspace =>
    let (n, s) := s.kucopy fault addr base size
    (n = size, s)
  | .read, .sysspace => (true, s.memcpy base addr size)
  | .write, .userspace =>
    let (n, s) := s.ukcopy fault base addr size
    (n = size, s)
  | .write, .sysspace => (true, s.memcpy addr base size)

/-- The counts after a block has been moved. -/
def Uio.moved (uiop : Uio) (scan size : ℕ) : Uio :=
  { uiop with
    uioResid := uiop.uioResid - size
    uioOffset := uiop.uioOffset + size
    uioIov := uiop.uioIov.modify scan fun v => ⟨v.iovBase + size, v.iovLen - size⟩ }

/-- The loop of `uiomove` over at most `fuel` entries: what is left of `nbytes`, if it ends.  It
    takes the size from the first entry. -/
def State.uiomoveLoop (fault : Fault) (rwflag : Rw) :
    ℕ → ℕ → ℕ → ℤ → State → Option (ℤ × State)
  | 0, _, _, _, _ => none
  | fuel + 1, scan, addr, nbytes, s =>
    if nbytes > 0 then
      match s.uio.uioIov.head? with
      -- reads behind the array
      | none => none
      | some first =>
        let size := sizeT first.iovLen
        let size := if nbytes < size then nbytes.toNat else size
        if size = 0 then uiomoveLoop fault rwflag fuel (scan + 1) addr nbytes s
        else
          match s.uio.uioIov[scan]? with
          | none => none
          | some v =>
            let (whole, s) := s.block fault addr v.iovBase size rwflag
            if !whole then some (nbytes, s)
            else
              uiomoveLoop fault rwflag fuel (scan + 1) (addr + size) (nbytes - size)
                { s with uio := s.uio.moved scan size }
    else some (nbytes, s)

/-- `uiomove` -/
def State.uiomove (s : State) (fault : Fault) (addr : ℕ) (nbytes : ℤ) (rwflag : Rw) (fuel : ℕ) :
    Option (ℤ × State) :=
  (State.uiomoveLoop fault rwflag fuel 0 addr nbytes s).map fun r =>
    (if r.1 = 0 then 0 else EFAULT, r.2)

/-! ### `ureadc` and `uwritec` -/

/-- The first entry that is not empty. -/
def Uio.full (uiop : Uio) : Option ℕ := uiop.uioIov.findIdx? fun v => v.iovLen ≠ 0

/-- `ureadc` -/
def State.ureadc (s : State) (fault : Fault) (c : UInt8) : Option (ℤ × State) :=
  if s.uio.uioResid ≤ 0 then some (EFAULT, s)
  else do
    let scan ← s.uio.full
    let v ← s.uio.uioIov[scan]?
    let (err, s) := match s.uio.uioSegflg with
      | .userspace => s.putbyte fault c v.iovBase
      | .sysspace => (false, { s with kernel := Function.update s.kernel v.iovBase c })
    if err then some (EFAULT, s)
    else
      some (0, { s with uio :=
        { s.uio with
          -- the length grows
          uioIov := s.uio.uioIov.modify scan fun v => ⟨v.iovBase + 1, v.iovLen + 1⟩
          uioResid := s.uio.uioResid - 1
          uioOffset := s.uio.uioOffset + 1 } })

/-- A `char` as an `int`, with a compiler whose `char` is signed or not. -/
def ofChar (signed : Bool) (b : UInt8) : ℤ :=
  if signed ∧ 128 ≤ b.toNat then b.toNat - 256 else b.toNat

/-- `uwritec` -/
def State.uwritec (s : State) (fault : Fault) (signed : Bool) : Option (ℤ × State) :=
  if s.uio.uioResid ≤ 0 then some (-1, s)
  else do
    let scan ← s.uio.full
    let v ← s.uio.uioIov[scan]?
    let (c, err, s) := match s.uio.uioSegflg with
      | .userspace => let (c, s) := s.getbyte fault v.iovBase; (c, decide (c < 0), s)
      | .sysspace => (ofChar signed (s.kernel v.iovBase), false, s)
    if err then some (-1, s)
    else some (c, { s with uio := s.uio.moved scan 1 })

end CohKernel.DdiUio
