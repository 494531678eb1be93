import CohKernel.Lib.Stores
import CohKernel.Lib.Words

namespace CohKernel.Exec

open CohKernel.Lib

/-!
# Arguments of a new program

`excount`, `exarg` and `exstack` of `exec.c`, and `dmaout` of `fakedma.c`: the arguments and the
environment of `exec` are counted in the memory of the process, and copied to a new segment.  System
global addresses are counted from the start of that segment, which is at the start of a page.
-/

/-! ### The process -/

/-- Pointers of the old program, or of the new one: 16 bits or 32 bits. -/
inductive Width where
  | short
  | long
deriving DecidableEq

/-- `sizeof` -/
def Width.size : Width → ℕ
  | .short => 2
  | .long => 4

/-- `& wdmask` -/
def Width.mask : Width → ℕ → ℕ
  | .short, p => p % 2 ^ 16
  | .long, p => p

/-- The data segment of the process, which the kernel reads through `fs`: its limit, and the bytes
    of the pages that are there. -/
structure User where
  limit : ℕ
  limit_le : limit ≤ 0x90000000
  byte : ℕ → Option Byte

/-- `getubd`, or a fault. -/
def User.getubd (m : User) (a : ℕ) : Option Byte := if a < m.limit then m.byte a else none

/-- `getupd`, or a fault. -/
def User.getupd (m : User) (a : ℕ) : Option ℕ :=
  match m.getubd a, m.getubd (a + 1), m.getubd (a + 2), m.getubd (a + 3) with
  | some b₀, some b₁, some b₂, some b₃ =>
      some (b₀.val + 2 ^ 8 * b₁.val + 2 ^ 16 * b₂.val + 2 ^ 24 * b₃.val)
  | _, _, _, _ => none

/-- `struct adata` -/
structure Adata where
  np : ℕ
  nc : ℕ

/-- The inner loop of `excount`; beyond the limit there is a fault, so it ends. -/
def User.countChars (m : User) : ℕ → ℕ → ℕ → Option ℕ
  | 0, _, _ => none
  | fuel + 1, usrcp, nb =>
      match m.getubd usrcp with
      | none => none
      | some c =>
          let nb := (nb + 1) % 2 ^ 32
          if c = 0 then some nb else User.countChars m fuel (usrcp + 1) nb

/-- The outer loop of `excount`. -/
def User.countPtrs (m : User) (wdin : Width) : ℕ → ℕ → ℕ → ℕ → Option Adata
  | 0, _, _, _ => none
  | fuel + 1, usrvp, na, nb =>
      match m.getupd usrvp with
      | none => none
      | some p =>
          let usrcp := wdin.mask p
          if usrcp = 0 then some ⟨na, nb⟩
          else
            match m.countChars (m.limit - usrcp) usrcp nb with
            | none => none
            | some nb => User.countPtrs m wdin fuel (usrvp + wdin.size) ((na + 1) % 2 ^ 32) nb

/-- `excount`, or a fault. -/
def User.excount (m : User) (wdin : Width) (usrvp : ℕ) : Option Adata :=
  if usrvp ≠ 0 then m.countPtrs wdin (m.limit - usrvp) usrvp 0 0 else some ⟨0, 0⟩

/-! ### Copying -/

def NBPC : ℕ := 4096

/-- The stores into system global memory, the last one first. -/
abbrev Log := List (ℕ × Byte)

/-- `memcpy` inside a page. -/
def memcpy : Log → ℕ → List Byte → Log
  | log, _, [] => log
  | log, dest, b :: bytes => memcpy ((dest, b) :: log) (dest + 1) bytes

/-- The loop of `dmaout`, which copies up to the end of a page. -/
def dmaoutLoop : ℕ → Log → ℕ → List Byte → Log
  | 0, log, _, _ => log
  | fuel + 1, log, dest, bytes =>
      if bytes = [] then log
      else
        let x := min (NBPC - dest % NBPC) bytes.length
        dmaoutLoop fuel (memcpy log dest (bytes.take x)) ((dest + x) % 2 ^ 32) (bytes.drop x)

/-- `dmaout` -/
def dmaout (log : Log) (dest : ℕ) (bytes : List Byte) : Log :=
    dmaoutLoop bytes.length log dest bytes

/-- `exarg`: the length that it returns.  A fault gives a null byte. -/
def User.exarg (m : User) : ℕ → Log → ℕ → ℕ → ℕ × Log
  | 0, log, out, _ => (1, dmaout log out [0])
  | fuel + 1, log, out, usrcp =>
      let c := (m.getubd usrcp).getD 0
      let log := dmaout log out [c]
      if c = 0 then (1, log)
      else
        let (n, log) := User.exarg m fuel log ((out + 1) % 2 ^ 32) (usrcp + 1)
        (n + 1, log)

/-- The bytes of a number. -/
def bytesOf : ℕ → ℕ → List Byte
  | 0, _ => []
  | n + 1, x => byte x :: bytesOf n (x / 256)

/-- A loop over the arguments, or over the environment: `stk.vp`, `stk.cp` and the stores. -/
def User.exargs (m : User) (wdin wdout : Width) (stkoff : ℕ) :
    ℕ → ℕ → ℕ → ℕ → Log → ℕ × ℕ × Log
  | 0, _, vp, cp, log => (vp, cp, log)
  | n + 1, argp, vp, cp, log =>
      let log := dmaout log ((vp + stkoff) % 2 ^ 32) (bytesOf wdout.size cp)
      let usrcp := wdin.mask ((m.getupd argp).getD 0)
      let (k, log) := m.exarg (m.limit - usrcp) log ((cp + stkoff) % 2 ^ 32) usrcp
      User.exargs m wdin wdout stkoff n (argp + wdin.size) ((vp + wdout.size) % 2 ^ 32)
        ((cp + k) % 2 ^ 32) log

/-! ### The stack -/

def ISTSIZE : ℕ := 2048

def MADSIZE : ℤ := 32767

/-- `ISP_286` and `ISP_386`: where the stack of the new program ends. -/
def Width.top : Width → ℕ
  | .short => 0x10000
  | .long => 2 ^ 31

/-- The segment that has been allocated and filled, the initial stack pointer of the new program,
    and `u_argc` and `u_argp`. -/
structure Stack where
  size : ℤ
  initsp : ℕ
  argc : ℕ
  argp : ℕ
  log : Log

/-- What `exstack` does: it fails with an error, or returns a segment. -/
inductive Made where
  | efault
  | e2big
  | built (r : Stack)

/-- `chrsz` -/
def chrsz (arg env : Adata) : ℕ := roundUp ((arg.nc + env.nc) % 2 ^ 32) 4

/-- `vecsz` -/
def vecsz (arg env : Adata) : ℕ := (arg.np + 1 + env.np + 1) * 4 % 2 ^ 32

/-- `stksz` -/
def stksz (arg env : Adata) : ℤ :=
  asInt (roundUp ((vecsz arg env + chrsz arg env + ISTSIZE) % 2 ^ 32) NBPC)

/-- The words at the initial stack pointer, and their stores. -/
def headStack (xh : Width) (vp stkoff np : ℕ) : ℕ × Log :=
  match xh with
  | .long =>
      let initsp := (vp + (2 ^ 32 - 4)) % 2 ^ 32
      (initsp, dmaout [] ((initsp + stkoff) % 2 ^ 32) (bytesOf 4 np))
  | .short =>
      let initsp := (vp + (2 ^ 32 - 3 * 2)) % 2 ^ 32
      let stkenvp := (vp + (np + 1) * 2) % 2 ^ 32
      let log := dmaout [] ((initsp + stkoff) % 2 ^ 32) (bytesOf 2 np)
      let log := dmaout log ((initsp + 2 + stkoff) % 2 ^ 32) (bytesOf 2 vp)
      (initsp, dmaout log ((initsp + 2 * 2 + stkoff) % 2 ^ 32) (bytesOf 2 stkenvp))

/-- `stk.cp`: the address of the strings. -/
def stkcp (xh : Width) (arg env : Adata) : ℕ := (xh.top + (2 ^ 32 - chrsz arg env)) % 2 ^ 32

/-- `stk.vp`: the address of the pointers. -/
def stkvp (xh : Width) (arg env : Adata) : ℕ :=
  (stkcp xh arg env + (2 ^ 32 - vecsz arg env)) % 2 ^ 32

/-- `stkoff`: from addresses of the new program to system global addresses. -/
def stkoff (xh : Width) (size : ℤ) : ℕ := ((size - xh.top) % 2 ^ 32).toNat

/-- `exstack` from the setting up of the target stack on, with the size of its segment. -/
def User.fillStack (m : User) (xh wdin : Width) (argp envp : ℕ) (arg env : Adata) (size : ℤ) :
    Stack :=
  let (initsp, log) := headStack xh (stkvp xh arg env) (stkoff xh size) arg.np
  let (vp, cp, log) := m.exargs wdin xh (stkoff xh size) (asInt arg.np).toNat argp
    (stkvp xh arg env) (stkcp xh arg env) log
  -- The null word after the arguments is skipped.
  let (_, _, log) := m.exargs wdin xh (stkoff xh size) (asInt env.np).toNat envp
    ((vp + xh.size) % 2 ^ 32) cp log
  ⟨size, initsp, arg.np, stkvp xh arg env, log⟩

/-- `exstack`, for a program of the width `xh`; `room` says whether `salloc` gets a segment. -/
def User.exstack (m : User) (room : ℤ → Bool) (xh wdin : Width) (argp envp : ℕ) : Made :=
  match m.excount wdin argp, m.excount wdin envp with
  | some arg, some env =>
      let size := stksz arg env
      if size > MADSIZE ∨ room size = false then .e2big
      else .built (m.fillStack xh wdin argp envp arg env size)
  | _, _ => .efault

end CohKernel.Exec
