import Mathlib.Tactic

namespace CohKernel.Ipc

/-!
# Permissions of System V IPC

The framework that semaphores, message queues and shared memory share: `ipc_cred_match`,
`ipc_lack_perm` and `ipc_perm_init` over `struct ipc_perm`.
-/

/-- The effective credentials of a process. -/
structure Cred where
  uid : ℕ
  gid : ℕ
deriving DecidableEq, Repr

/-- `struct ipc_perm`. -/
structure IpcPerm where
  uid : ℕ
  gid : ℕ
  cuid : ℕ
  cgid : ℕ
  mode : ℕ
  seq : ℕ
  key : ℤ
deriving DecidableEq, Repr

def CRED_OTHER : ℕ := 0
def CRED_GROUP : ℕ := 1
def CRED_OWNER : ℕ := 2

def PERM_MASK : ℕ := 7
def IREAD : ℕ := 0o400
def IWRITE : ℕ := 0o200
def IRUGO : ℕ := 0o444
def IWUGO : ℕ := 0o222
def IRWXUGO : ℕ := 0o777
def IPC_ALLOC : ℕ := 0x8000
def IPC_CREAT : ℕ := 0x200
def IPC_EXCL : ℕ := 0x400
def IPC_NOWAIT : ℕ := 0x800
def IPC_PRIVATE : ℤ := 0

/-- `mode & ~ m`. -/
def clearBits (mode m : ℕ) : ℕ := mode ^^^ (mode &&& m)

theorem clearBits_and (mode : ℕ) {m bit : ℕ} (h : m &&& bit = 0) :
    clearBits mode m &&& bit = mode &&& bit := by
  rw [clearBits, Nat.and_xor_distrib_right, Nat.and_assoc, h, Nat.and_zero, Nat.xor_zero]

/-- `super`. -/
def super (c : Cred) : Bool := c.uid = 0

/-- `__PERM_EXTRACT`. -/
def permExtract (mode credlvl : ℕ) : ℕ := mode >>> (credlvl * 3)

/-- `ipc_cred_match`: the level of access. -/
def ipcCredMatch (c : Cred) (ipcp : IpcPerm) : ℕ :=
  if c.uid = ipcp.uid ∨ c.uid = ipcp.cuid then CRED_OWNER
  else if c.gid = ipcp.gid ∨ c.gid = ipcp.cgid then CRED_GROUP
  else if super c then CRED_OWNER
  else CRED_OTHER

/-- `ipc_lack_perm`; when it holds the user error is set to `EACCES`. -/
def ipcLackPerm (c : Cred) (ipcp : IpcPerm) (mode : ℕ) : Bool :=
  if mode &&& IRWXUGO = 0 then false
  else
    let credLvl := ipcCredMatch c ipcp
    let mode := permExtract mode credLvl &&& PERM_MASK
    if mode ≠ 0 ∧ permExtract ipcp.mode credLvl &&& mode = mode then false
    else !super c

/-- `ipc_perm_init`, together with the key and the sequence number its caller sets. -/
def ipcPermInit (c : Cred) (mode : ℕ) (key : ℤ) (seq : ℕ) : IpcPerm :=
  { uid := c.uid, gid := c.gid, cuid := c.uid, cgid := c.gid,
    mode := (mode &&& IRWXUGO) ||| IPC_ALLOC, seq := seq, key := key }

/-- A mode with `__IPC_ALLOC`. -/
theorem or_ipcAlloc (mode : ℕ) : (mode ||| IPC_ALLOC) &&& IPC_ALLOC ≠ 0 := by
  intro h
  have halloc : IPC_ALLOC.testBit 15 = true := by decide
  have hbit := congrArg (Nat.testBit · 15) h
  simp [halloc] at hbit

theorem ipcPermInit_alloc (c : Cred) (mode : ℕ) (key : ℤ) (seq : ℕ) :
    (ipcPermInit c mode key seq).mode &&& IPC_ALLOC ≠ 0 := or_ipcAlloc _

end CohKernel.Ipc
