import CohKernel.Frame.Resume

namespace CohKernel.Frame

/-!
# Signal frames

`msigstart` of `msig.c` puts the registers, the signal mask and the state of the floating-point unit
on the user's stack before a handler runs, and `msigend` takes them back when it has returned.  What
is on the stack depends on whether the process uses the coprocessor, an emulator, or neither.

* `signalFrame_iff` — the frame is taken back as it was, and a frame that cannot be built leaves the
  process alone, when the stack does not grow or when all of the frame is mapped then;
* `frame_lost` — the registers of a process whose stack pointer is below the page that is added.

Every address that is used is the user's stack pointer plus or minus a multiple of four, so the
user's memory is the longwords at these addresses.  `ASSERT` is empty in the kernel's build.
-/

/-! ### Copies to and from the user -/

/-- The address of the longword `k` at `u`. -/
def word (u : Word) (k : ℕ) : Word := u + 4 * BitVec.ofNat 32 k

/-- `kucopy`, of longwords.  A fault ends it: the result is `0` then. -/
def kucopy (user : UserMem) (u : Word) : List Word → UserMem × Bool
  | [] => (user, true)
  | w :: ws =>
      if (user u).isSome then kucopy (Function.update user u (some w)) (u + 4) ws
      else (user, false)

/-- `ukcopy`: the longwords that it copies. -/
def ukcopy (user : UserMem) (u : Word) : ℕ → List Word
  | 0 => []
  | n + 1 =>
      match user u with
      | none => []
      | some w => w :: ukcopy user (u + 4) n

/-- What has been copied is in place of what was there. -/
def overlay {n : ℕ} (ws : List Word) (dst : Fin n → Word) : Fin n → Word :=
  fun i => ws[(i : ℕ)]?.getD (dst i)

/-- `getuwd` -/
def getuwd (user : UserMem) (a : Word) : Word := (user a).getD 0

/-- `putuwd` -/
def putuwd (user : UserMem) (a w : Word) : UserMem :=
  if (user a).isSome then Function.update user a (some w) else user

/-- The longwords from `u` on are mapped. -/
def Mapped (user : UserMem) (u : Word) (n : ℕ) : Prop := ∀ k < n, (user (word u k)).isSome

/-! ### The process -/

/-- `NF_NDP_USER` -/
def NF_NDP_USER : Word := 1

/-- `NF_NDP_SAVED` -/
def NF_NDP_SAVED : Word := 2

/-- `NF_EM_TRAPPED` -/
def NF_EM_TRAPPED : Word := 4

/-- The bits of `SIGKILL` and `SIGSTOP`. -/
def UNBLOCKABLE : Word := 1#32 <<< 8 ||| 1#32 <<< 22

/-- A mask that `curr_signal_mask` has set. -/
structure SignalMask where
  bits : Word
  blockable : bits &&& UNBLOCKABLE = 0

/-- The words of `union _fpcontext`. -/
abbrev Fpcontext := Fin 43 → Word

/-- The words of `struct _fpstate`, which is the first member of the union. -/
def fpstate (con : Fpcontext) : Fin 28 → Word := fun i => con (i.castLE (by decide))

/-- What the two functions use of a process and of the floating-point unit. -/
structure Context where
  user : UserMem
  sSize : Word
  regs : Regset
  mask : SignalMask
  sigreturn : Word
  ndpFlags : Word
  ndpCon : Fpcontext
  fpu : Fin 27 → Word
  ndpOwner : Option ℕ
  kerEm : Bool
  self : ℕ

/-- The entries of an emulator, when one is configured: `ndpKfsave` gives the `_fpstate` for a
    context, and `ndpKfrstor` a context for what it finds in memory. -/
structure Emulator where
  ndpKfsave : Option (Fpcontext → Fin 28 → Word)
  ndpKfrstor : Option ((Fin 28 → Option Word) → Fpcontext → Fpcontext)

namespace Context

/-- `rdNdpUser` -/
def ndpUser (c : Context) : Bool := decide (c.ndpFlags &&& NF_NDP_USER ≠ 0)

/-- `rdNdpSaved` -/
def ndpSaved (c : Context) : Bool := decide (c.ndpFlags &&& NF_NDP_SAVED ≠ 0)

/-- `rdEmTrapped` -/
def emTrapped (c : Context) : Bool := decide (c.ndpFlags &&& NF_EM_TRAPPED ≠ 0)

/-- `ndpSave (& u.u_ndpCon)`: `fnsave` stores what is in the unit, and then clears it. -/
def ndpSave (c : Context) : Context :=
  { c with
    ndpCon := fun i => if h : (i : ℕ) < 27 then c.fpu ⟨i, h⟩ else c.ndpCon i
    fpu := fun i =>
      if i = 0 then 0x37f else if i = 1 then 0 else if i = 2 then 0xffff else c.fpu i }

/-- `ndpRestore (& u.u_ndpCon)` -/
def ndpRestore (c : Context) : Context := { c with fpu := fun i => c.ndpCon (i.castLE (by decide)) }

/-! ### `msigstart` -/

/-- `sigArea` -/
def sigArea (c : Context) : ℕ := 100 + if c.ndpUser || c.emTrapped then 112 else 0

/-- `fpsp` -/
def fpsp (c : Context) : Word := if c.ndpUser || c.emTrapped then c.regs UESP - 112 else 0

/-- The stack pointer of the handler. -/
def uesp (c : Context) : Word := c.regs UESP - BitVec.ofNat 32 c.sigArea

end Context

/-- `ISP_386` -/
def ISP_386 : Word := 512#32 <<< 22

/-- `NBPC` -/
def NBPC : Word := 4096

/-- What `c_extend` and `sproto` return when they are called, and what is on the page added. -/
structure Growth where
  extended : Bool
  proto : Bool
  page : Word → Word

/-- The stack segment, as `segload` maps it. -/
def segload (size : Word) (page : Word → Word) (user : UserMem) : UserMem := fun a =>
  match user a with
  | some w => some w
  | none =>
      if (ISP_386 - size).toNat ≤ a.toNat ∧ a.toNat + 4 ≤ ISP_386.toNat then some (page a) else none

namespace Context

/-- "Add to user stack if necessary".  The comparison is one of signed numbers. -/
def grow (c : Context) (g : Growth) : Context × Bool :=
  if c.uesp.slt (ISP_386 - c.sSize) then
    if g.extended then
      if g.proto then
        ({ c with sSize := c.sSize + NBPC, user := segload (c.sSize + NBPC) g.page c.user }, true)
      else ({ c with sSize := c.sSize + NBPC }, false)
    else (c, false)
  else (c, true)

end Context

/-- What is at `fpsp` when the emulator has stored its context there; the status word is moved, and
    its exception bits are cleared. -/
def Emulator.save (e : Emulator) (user : UserMem) (fpsp : Word) (con : Fpcontext) : UserMem :=
  match e.ndpKfsave with
  | none => user
  | some kfsave =>
      let user := (kucopy user fpsp (List.ofFn (kfsave con))).1
      let swOld := getuwd user (word fpsp 1)
      putuwd (putuwd user (word fpsp 27) swOld) (word fpsp 1) (swOld &&& 0x7f00)

/-- `signal_frame`: `sf_sigreturn`, `sf_signo`, `sf_regset`, `sf_fpsp`, `sf_weitekp`,
    `sf_signal_mask`, `sf_ndpflags`. -/
def signalFrame (sigreturn signum : Word) (regs : Regset) (fpsp mask ndpflags : Word) : List Word :=
  sigreturn :: signum :: (List.ofFn regs ++ [fpsp, 0, mask, ndpflags])

/-- `__PC_REG` -/
def EIP : Fin 19 := 14

namespace Context

/-- The floating-point state goes to the stack.  Returns the flags for the frame. -/
def saveFp (c : Context) (e : Emulator) : Context × Word :=
  if c.ndpUser then
    let c' := if c.ndpSaved then c else { c.ndpSave with ndpFlags := c.ndpFlags ||| NF_NDP_SAVED }
    ({ c' with
        user := (kucopy c.user c.fpsp (List.ofFn (fpstate c'.ndpCon))).1
        ndpOwner := none
        ndpFlags := c'.ndpFlags &&& ~~~NF_NDP_USER &&& ~~~NF_NDP_SAVED
        kerEm := true }, c'.ndpFlags)
  else if c.emTrapped then
    ({ c with
        user := e.save c.user c.fpsp c.ndpCon
        ndpFlags := c.ndpFlags &&& ~~~NF_EM_TRAPPED }, c.ndpFlags)
  else (c, c.ndpFlags)

/-- The rest of `msigstart`, and whether the frame could be copied.  The registers are changed
    before. -/
def enter (c : Context) (e : Emulator) (signum func : Word) (oldmask : Option SignalMask) :
    Context × Bool :=
  let frame := signalFrame c.sigreturn signum c.regs c.fpsp (oldmask.getD c.mask).bits
  let regs := Function.update (Function.update (Function.update c.regs
    EFL (setTrap (c.regs EFL) false)) EIP func) UESP c.uesp
  let r := c.saveFp e
  let copy := kucopy r.1.user c.uesp (frame r.2)
  ({ r.1 with regs := regs, user := copy.1 }, copy.2)

/-- `msigstart`, and whether the frame is there. -/
def msigstart (c : Context) (e : Emulator) (g : Growth) (signum func : Word)
    (oldmask : Option SignalMask) : Context × Bool :=
  let r := c.grow g
  if r.2 then r.1.enter e signum func oldmask else (r.1, false)

end Context

/-! ### `msigend` -/

/-- `curr_signal_mask`, with a mask. -/
def currSignalMask (mask : Word) : SignalMask :=
  ⟨mask &&& ~~~UNBLOCKABLE, by
    rw [BitVec.and_assoc, show ~~~UNBLOCKABLE &&& UNBLOCKABLE = 0 by decide]
    exact BitVec.and_zero⟩

namespace Context

/-- The saved flags are in force again.  A handler that has used the coprocessor for itself is
    detached from it. -/
def takeFlags (c : Context) (flags : Word) : Context :=
  let c' := { c with ndpFlags := flags }
  if c.ndpUser && !c'.ndpUser then { c' with ndpOwner := none, kerEm := true } else c'

/-- The floating-point state comes back from the stack. -/
def restoreFp (c : Context) (e : Emulator) (framep : Word) : Context :=
  let c := c.takeFlags (getuwd c.user (word framep 24))
  if c.ndpUser then
    let con := overlay (ukcopy c.user (word framep 25) 28) c.ndpCon
    let c := { c with kerEm := false, ndpCon := con }
    { c.ndpRestore with ndpFlags := c.ndpFlags &&& ~~~NF_NDP_SAVED, ndpOwner := some c.self }
  else if c.emTrapped then
    match e.ndpKfrstor with
    | none => c
    | some kfrstor => { c with ndpCon := kfrstor (fun k => c.user (word framep (25 + k))) c.ndpCon }
  else c

/-- `msigend`; `junk` is what is in the local mask when it cannot be copied. -/
def msigend (c : Context) (e : Emulator) (junk : Word) : Context :=
  let framep := signalFramep c.regs
  let mask := currSignalMask ((c.user (word framep 23)).getD junk)
  let c := { c with mask := mask }.restoreFp e framep
  { c with regs := overlay (ukcopy c.user (word framep 2) 19) c.regs }

end Context

/-! ### Copies that succeed -/

variable {user : UserMem} {u a : Word} {ws : List Word} {n k : ℕ}

theorem word_succ (u : Word) (k : ℕ) : word u (k + 1) = word (u + 4) k := by
  unfold word
  rw [BitVec.ofNat_add, BitVec.mul_add, BitVec.add_assoc, BitVec.add_comm (4 * _)]
  rfl

@[simp] theorem word_zero (u : Word) : word u 0 = u := by
  unfold word
  simp

theorem word_add (u : Word) (j k : ℕ) : word (word u j) k = word u (j + k) := by
  unfold word
  rw [BitVec.ofNat_add, BitVec.mul_add, BitVec.add_assoc]

/-- The longwords of the address space are distinct. -/
theorem word_inj {j : ℕ} (hj : j < 2 ^ 30) (hk : k < 2 ^ 30) : word u j = word u k ↔ j = k := by
  constructor
  · intro h
    unfold word at h
    rw [BitVec.add_right_inj] at h
    bv_omega
  · rintro rfl
    rfl

theorem mapped_succ :
    Mapped user u (n + 1) ↔ (user u).isSome = true ∧ Mapped user (u + 4) n := by
  constructor
  · intro h
    refine ⟨by simpa using h 0 (by omega), fun k hk => ?_⟩
    rw [← word_succ]
    exact h (k + 1) (by omega)
  · rintro ⟨h0, h⟩ k hk
    cases k with
    | zero => simpa using h0
    | succ k =>
      rw [word_succ]
      exact h k (by omega)

theorem update_isSome {w : Word} (hu : (user u).isSome = true) :
    (Function.update user u (some w) a).isSome = (user a).isSome := by
  by_cases hau : a = u
  · subst hau
    rw [Function.update_self, hu, Option.isSome_some]
  · rw [Function.update_of_ne hau]

/-- A copy does not change what is mapped. -/
@[simp] theorem kucopy_isSome : ((kucopy user u ws).1 a).isSome = (user a).isSome := by
  induction ws generalizing user u with
  | nil => rfl
  | cons w ws ih =>
    unfold kucopy
    split
    · rename_i hu
      rw [ih, update_isSome hu]
    · rfl

theorem mapped_congr {user' : UserMem} (h : ∀ a, (user' a).isSome = (user a).isSome) :
    Mapped user' u n ↔ Mapped user u n := by
  unfold Mapped
  simp only [h]

theorem kucopy_ok : (kucopy user u ws).2 = true ↔ Mapped user u ws.length := by
  induction ws generalizing user u with
  | nil => simp [kucopy, Mapped]
  | cons w ws ih =>
    rw [List.length_cons, mapped_succ]
    unfold kucopy
    by_cases hu : (user u).isSome = true
    · rw [if_pos hu, ih, mapped_congr fun _ => update_isSome hu]
      simp [hu]
    · simp [hu]

/-- What is not one of the longwords stays. -/
theorem kucopy_other (h : ∀ k < ws.length, a ≠ word u k) : (kucopy user u ws).1 a = user a := by
  induction ws generalizing user u with
  | nil => rfl
  | cons w ws ih =>
    unfold kucopy
    have h0 : a ≠ u := by simpa using h 0 (by simp)
    split
    · rw [ih, Function.update_of_ne h0]
      intro k hk
      rw [← word_succ]
      exact h (k + 1) (by simpa using hk)
    · rfl

/-- **A copy that is complete** has put every longword into its place. -/
theorem kucopy_get (hlen : ws.length ≤ 2 ^ 30) (hm : Mapped user u ws.length)
    (hk : k < ws.length) : (kucopy user u ws).1 (word u k) = ws[k]? := by
  induction ws generalizing user u k with
  | nil => simp at hk
  | cons w ws ih =>
    rw [List.length_cons] at hlen hm hk
    rw [mapped_succ] at hm
    unfold kucopy
    rw [if_pos hm.1]
    cases k with
    | zero =>
      rw [word_zero, kucopy_other, Function.update_self]
      · rfl
      · intro k hk heq
        rw [← word_succ] at heq
        have := (word_inj (u := u) (j := 0) (k := k + 1) (by omega) (by omega)).mp
          (by rw [word_zero]; exact heq)
        omega
    | succ k =>
      rw [word_succ, ih (by omega) _ (by omega)]
      · rfl
      · exact (mapped_congr fun _ => update_isSome hm.1).mpr hm.2

/-- **What `ukcopy` copies** -/
theorem ukcopy_getElem? : (ukcopy user u n)[k]? =
    if k < n ∧ ∀ j ≤ k, (user (word u j)).isSome = true then user (word u k) else none := by
  induction n generalizing u k with
  | zero => simp [ukcopy]
  | succ n ih =>
    unfold ukcopy
    cases hu : user u with
    | none =>
      rw [if_neg, List.getElem?_nil]
      rintro ⟨-, h⟩
      have := h 0 (by omega)
      rw [word_zero, hu] at this
      simp at this
    | some w =>
      cases k with
      | zero => simp [hu]
      | succ k =>
        rw [List.getElem?_cons_succ, ih, word_succ]
        refine if_congr ?_ rfl rfl
        constructor
        · rintro ⟨hk, h⟩
          refine ⟨by omega, fun j hj => ?_⟩
          cases j with
          | zero => simp [hu]
          | succ j =>
            rw [word_succ]
            exact h j (by omega)
        · rintro ⟨hk, h⟩
          refine ⟨by omega, fun j hj => ?_⟩
          rw [← word_succ]
          exact h (j + 1) (by omega)

/-- Longwords that are there replace those of the destination. -/
theorem overlay_ukcopy {dst src : Fin n → Word} (h : ∀ i : Fin n, user (word u i) = some (src i)) :
    overlay (ukcopy user u n) dst = src := by
  ext1 i
  unfold overlay
  rw [ukcopy_getElem?, if_pos, h i, Option.getD_some]
  refine ⟨i.isLt, fun j hj => ?_⟩
  rw [h ⟨j, by omega⟩, Option.isSome_some]

/-! ### What is restored -/

/-- The floating-point state of a process: in the unit or, when it has been saved, in the u area; or
    the context of the emulator. -/
inductive FpState where
  | unused
  | ndp (w : Fin 28 → Word)
  | emulated (con : Fpcontext)

/-- The state of the coprocessor, wherever it is. -/
def Context.ndpWords (c : Context) : Fin 28 → Word :=
  fpstate (if c.ndpSaved then c.ndpCon else c.ndpSave.ndpCon)

/-- The floating-point state that a program sees. -/
def Context.fpState (c : Context) : FpState :=
  if c.ndpUser then .ndp c.ndpWords else if c.emTrapped then .emulated c.ndpCon else .unused

/-- A handler has returned: its return address and the signal number have been popped, and it has
    left the frame alone. -/
structure Untouched (s h : Context) (n : ℕ) : Prop where
  popped : h.regs UESP = s.regs UESP + 8
  frame : ∀ k < n, h.user (word (s.regs UESP) k) = s.user (word (s.regs UESP) k)

/-- What was interrupted goes on. -/
structure Restored (c : Context) (oldmask : Option SignalMask) (c' : Context) : Prop where
  regs : c'.regs = c.regs
  mask : c'.mask = oldmask.getD c.mask
  fpState : c'.fpState = c.fpState

/-- The registers and who owns the coprocessor are as before. -/
structure Undisturbed (c c' : Context) : Prop where
  regs : c'.regs = c.regs
  ndpOwner : c'.ndpOwner = c.ndpOwner
  ndpFlags : c'.ndpFlags = c.ndpFlags

/-- What the pair of functions is for: a frame that is there is taken back, whatever the handler has
    done to the rest of the process; a frame that cannot be built has no effect. -/
def FrameKept (c : Context) (e : Emulator) (oldmask : Option SignalMask) (r : Context × Bool) :
    Prop :=
  (r.2 = true → ∀ h, Untouched r.1 h (c.sigArea / 4) →
    ∀ junk, Restored c oldmask (h.msigend e junk)) ∧
  (r.2 = false → Undisturbed c r.1)

/-- The emulator takes back the context that it has saved, whatever the handler has left. -/
def Emulator.Returns (e : Emulator) (user : UserMem) (fpsp : Word) (con : Fpcontext) : Prop :=
  ∃ kfrstor, e.ndpKfrstor = some kfrstor ∧
    ∀ left, kfrstor (fun k => e.save user fpsp con (word fpsp k)) left = con

/-- All of the frame can be written. -/
structure Context.Fits (c : Context) (e : Emulator) : Prop where
  frame : Mapped c.user c.uesp 25
  ndp : c.ndpUser = true → Mapped c.user c.fpsp 28
  emulated : c.ndpUser = false → c.emTrapped = true → e.Returns c.user c.fpsp c.ndpCon

/-! ### The frame -/

variable {c h : Context} {e : Emulator} {signum func : Word} {oldmask : Option SignalMask}

@[simp] theorem putuwd_isSome {b w : Word} : ((putuwd user b w) a).isSome = (user a).isSome := by
  unfold putuwd
  split
  · exact update_isSome ‹_›
  · rfl

theorem Emulator.save_isSome {fpsp : Word} {con : Fpcontext} :
    ((e.save user fpsp con) a).isSome = (user a).isSome := by
  unfold Emulator.save
  cases e.ndpKfsave with
  | none => rfl
  | some kfsave => simp

namespace Context

theorem saveFp_isSome : ((c.saveFp e).1.user a).isSome = (c.user a).isSome := by
  unfold saveFp
  split
  · simp
  · split
    · exact Emulator.save_isSome
    · rfl

/-- The frame can be copied when its longwords are mapped. -/
theorem enter_snd : (c.enter e signum func oldmask).2 = true ↔ Mapped c.user c.uesp 25 := by
  unfold enter
  rw [kucopy_ok, mapped_congr fun _ => saveFp_isSome]
  rfl

theorem enter_uesp : (c.enter e signum func oldmask).1.regs UESP = c.uesp := by
  simp [enter]

/-- What the frame holds. -/
theorem enter_frame (hm : Mapped c.user c.uesp 25) (hk : k < 25) :
    (c.enter e signum func oldmask).1.user (word c.uesp k) =
      (signalFrame c.sigreturn signum c.regs c.fpsp (oldmask.getD c.mask).bits
        (c.saveFp e).2)[k]? := by
  unfold enter
  refine kucopy_get (by simp [signalFrame]) ?_ (by simpa [signalFrame] using hk)
  rw [mapped_congr fun _ => saveFp_isSome]
  exact hm

theorem word_fpsp (huse : (c.ndpUser || c.emTrapped) = true) : word c.uesp 25 = c.fpsp := by
  unfold word uesp sigArea fpsp
  rw [if_pos huse, if_pos huse]
  bv_omega

/-- What is above the frame. -/
theorem enter_fpsp (huse : (c.ndpUser || c.emTrapped) = true) (hk : k < 28) :
    (c.enter e signum func oldmask).1.user (word c.fpsp k)
      = (c.saveFp e).1.user (word c.fpsp k) := by
  unfold enter
  refine kucopy_other fun j hj => ?_
  rw [← word_fpsp huse, word_add]
  have hj' : j < 25 := by simpa [signalFrame] using hj
  intro heq
  have := (word_inj (by omega) (by omega)).mp heq
  omega

/-! ### The way back -/

theorem takeFlags_kept (flags : Word) : (c.takeFlags flags).ndpFlags = flags ∧
    (c.takeFlags flags).user = c.user ∧ (c.takeFlags flags).ndpCon = c.ndpCon ∧
    (c.takeFlags flags).mask = c.mask ∧ (c.takeFlags flags).regs = c.regs := by
  unfold takeFlags
  dsimp only
  split <;> exact ⟨rfl, rfl, rfl, rfl, rfl⟩

theorem restoreFp_kept (framep : Word) : (c.restoreFp e framep).mask = c.mask ∧
    (c.restoreFp e framep).user = c.user ∧ (c.restoreFp e framep).regs = c.regs := by
  obtain ⟨-, huser, -, hmask, hregs⟩ := c.takeFlags_kept (getuwd c.user (word framep 24))
  have hkept := And.intro hmask (And.intro huser hregs)
  unfold restoreFp
  dsimp only
  split
  · exact hkept
  · split
    · cases e.ndpKfrstor with
      | none => exact hkept
      | some kfrstor => exact hkept
    · exact hkept

/-- The registers are those that the shorter model of `msigend` gives. -/
theorem msigend_regs (junk : Word) :
    (c.msigend e junk).regs = Frame.msigend c.user c.regs := by
  unfold msigend Frame.msigend
  dsimp only
  obtain ⟨-, huser, hregs⟩ := restoreFp_kept (e := e)
    (c := { c with mask := currSignalMask ((c.user (word (signalFramep c.regs) 23)).getD junk) })
    (signalFramep c.regs)
  rw [huser, hregs]
  ext1 i
  unfold overlay copied
  rw [ukcopy_getElem?]
  congr 1
  refine if_congr ?_ rfl rfl
  constructor
  · rintro ⟨-, hall⟩ j hj
    exact hall j (Fin.le_def.mp hj)
  · intro hall
    exact ⟨i.isLt, fun j hj => hall ⟨j, by omega⟩ hj⟩

/-- The state that a frame with these flags gives. -/
def framedState (c : Context) (e : Emulator) (framep flags : Word) : FpState :=
  if flags &&& NF_NDP_USER ≠ 0 then
    .ndp (overlay (ukcopy c.user (word framep 25) 28) (fpstate c.ndpCon))
  else if flags &&& NF_EM_TRAPPED ≠ 0 then
    .emulated (match e.ndpKfrstor with
      | none => c.ndpCon
      | some kfrstor => kfrstor (fun k => c.user (word framep (25 + k))) c.ndpCon)
  else .unused

/-- A state that has been loaded into the unit is the one that was in the u area. -/
theorem fpState_loaded (hu : c.ndpFlags &&& NF_NDP_USER ≠ 0) (hs : c.ndpFlags &&& NF_NDP_SAVED = 0)
    (hl : c.fpu = fun i => c.ndpCon (i.castLE (by decide))) :
    c.fpState = .ndp (fpstate c.ndpCon) := by
  have huser : c.ndpUser = true := decide_eq_true hu
  have hsaved : ¬c.ndpSaved = true := fun h => of_decide_eq_true h hs
  rw [fpState, if_pos huser, ndpWords, if_neg hsaved]
  congr 1
  ext1 i
  simp only [fpstate, ndpSave, hl]
  split
  · rfl
  · rfl

/-- **The floating-point state** that comes back is the one of the frame. -/
theorem restoreFp_fpState (framep : Word) : (c.restoreFp e framep).fpState =
    c.framedState e framep (getuwd c.user (word framep 24)) := by
  obtain ⟨hflags, huser, hcon, -⟩ := c.takeFlags_kept (getuwd c.user (word framep 24))
  unfold restoreFp framedState
  generalize c.takeFlags (getuwd c.user (word framep 24)) = d at *
  generalize getuwd c.user (word framep 24) = flags at *
  subst hflags
  rw [← huser, ← hcon]
  by_cases hu : d.ndpUser = true
  · have hu' : d.ndpFlags &&& NF_NDP_USER ≠ 0 := of_decide_eq_true hu
    have hmask : d.ndpFlags &&& ~~~NF_NDP_SAVED &&& NF_NDP_USER = d.ndpFlags &&& NF_NDP_USER := by
      rw [BitVec.and_assoc, show ~~~NF_NDP_SAVED &&& NF_NDP_USER = NF_NDP_USER by decide]
    have hsaved : d.ndpFlags &&& ~~~NF_NDP_SAVED &&& NF_NDP_SAVED = 0 := by
      rw [BitVec.and_assoc, show ~~~NF_NDP_SAVED &&& NF_NDP_SAVED = 0 by decide]
      exact BitVec.and_zero
    simp only [if_pos hu, if_pos hu']
    exact fpState_loaded (hmask.symm ▸ hu') hsaved rfl
  · have hu' : ¬d.ndpFlags &&& NF_NDP_USER ≠ 0 := fun h => hu (decide_eq_true h)
    simp only [if_neg hu, if_neg hu']
    by_cases hem : d.emTrapped = true
    · have hem' : d.ndpFlags &&& NF_EM_TRAPPED ≠ 0 := of_decide_eq_true hem
      simp only [if_pos hem, if_pos hem']
      cases e.ndpKfrstor with
      | none => rw [fpState, if_neg hu, if_pos hem]
      | some kfrstor => exact (if_neg hu).trans (if_pos hem)
    · have hem' : ¬d.ndpFlags &&& NF_EM_TRAPPED ≠ 0 := fun h => hem (decide_eq_true h)
      simp only [if_neg hem, if_neg hem']
      rw [fpState, if_neg hu, if_neg hem]

/-! ### There and back -/

/-- The flags of the frame tell who had the floating-point state. -/
theorem saveFp_flags : (c.saveFp e).2 &&& NF_NDP_USER = c.ndpFlags &&& NF_NDP_USER ∧
    (c.saveFp e).2 &&& NF_EM_TRAPPED = c.ndpFlags &&& NF_EM_TRAPPED := by
  have hbit : ∀ m : Word, NF_NDP_SAVED &&& m = 0 →
      (c.ndpFlags ||| NF_NDP_SAVED) &&& m = c.ndpFlags &&& m := by
    intro m hm
    rw [BitVec.and_comm, BitVec.and_or_distrib_left, BitVec.and_comm m NF_NDP_SAVED, hm,
      BitVec.and_comm]
    exact BitVec.or_zero
  unfold saveFp
  split
  · dsimp only
    split
    · exact ⟨rfl, rfl⟩
    · exact ⟨hbit _ (by decide), hbit _ (by decide)⟩
  · split <;> exact ⟨rfl, rfl⟩

theorem saveFp_ndp (hn : c.ndpUser = true) :
    (c.saveFp e).1.user = (kucopy c.user c.fpsp (List.ofFn c.ndpWords)).1 := by
  unfold saveFp ndpWords
  rw [if_pos hn]
  dsimp only
  split <;> rfl

theorem saveFp_emulated (hn : c.ndpUser = false) (hem : c.emTrapped = true) :
    (c.saveFp e).1.user = e.save c.user c.fpsp c.ndpCon := by
  unfold saveFp
  rw [if_neg (by simp [hn]), if_pos hem]

/-- The mask of a process is one that can be set. -/
theorem currSignalMask_bits (m : SignalMask) : currSignalMask m.bits = m := by
  obtain ⟨bits, hb⟩ := m
  unfold currSignalMask
  congr 1
  calc bits &&& ~~~UNBLOCKABLE
      = bits &&& UNBLOCKABLE ||| bits &&& ~~~UNBLOCKABLE := by rw [hb]; exact BitVec.zero_or.symm
    _ = bits &&& (UNBLOCKABLE ||| ~~~UNBLOCKABLE) := (BitVec.and_or_distrib_left).symm
    _ = bits := by
      rw [show UNBLOCKABLE ||| ~~~UNBLOCKABLE = BitVec.allOnes 32 by decide, BitVec.and_allOnes]

/-- **A handler returns** from a frame that is there: registers and mask are those of before, and
    the floating-point state is what the frame gives. -/
theorem msigend_enter {n : ℕ} (hm : Mapped c.user c.uesp 25)
    (hu : Untouched (c.enter e signum func oldmask).1 h n) (hn : 25 ≤ n) (junk : Word) :
    (h.msigend e junk).regs = c.regs ∧ (h.msigend e junk).mask = oldmask.getD c.mask ∧
      (h.msigend e junk).fpState = h.framedState e c.uesp (c.saveFp e).2 := by
  have hp : signalFramep h.regs = c.uesp := by
    unfold signalFramep
    rw [hu.popped, enter_uesp]
    exact BitVec.add_sub_cancel _ _
  have hframe : ∀ k < 25, h.user (word c.uesp k) = (signalFrame c.sigreturn signum c.regs c.fpsp
      (oldmask.getD c.mask).bits (c.saveFp e).2)[k]? := by
    intro k hk
    have := hu.frame k (by omega)
    rw [enter_uesp] at this
    rw [this, enter_frame hm hk]
  have hmask : h.user (word c.uesp 23) = some (oldmask.getD c.mask).bits := hframe 23 (by omega)
  have hflags : h.user (word c.uesp 24) = some (c.saveFp e).2 := hframe 24 (by omega)
  have hregs : ∀ i : Fin 19, h.user (word (word c.uesp 2) i) = some (c.regs i) := by
    intro i
    rw [word_add, hframe _ (by omega), Nat.add_comm]
    unfold signalFrame
    rw [List.getElem?_cons_succ, List.getElem?_cons_succ,
      List.getElem?_append_left (by simp), List.getElem?_ofFn, dif_pos i.isLt]
  have hset : currSignalMask ((h.user (word c.uesp 23)).getD junk) = oldmask.getD c.mask := by
    rw [hmask, Option.getD_some, currSignalMask_bits]
  unfold msigend
  dsimp only
  rw [hp, hset]
  obtain ⟨hmask', huser', hregs'⟩ :=
    restoreFp_kept (c := { h with mask := oldmask.getD c.mask }) (e := e) c.uesp
  refine ⟨?_, hmask', ?_⟩
  · rw [huser']
    exact overlay_ukcopy hregs
  · refine (restoreFp_fpState c.uesp).trans ?_
    rw [getuwd, hflags]
    rfl

/-- A handler that returns at once, with something else in the u area. -/
def returned (s : Context) (con : Fpcontext) : Context :=
  { s with regs := Function.update s.regs UESP (s.regs UESP + 8), ndpCon := con }

theorem returned_untouched (s : Context) (con : Fpcontext) (n : ℕ) :
    Untouched s (s.returned con) n :=
  ⟨Function.update_self UESP _ s.regs, fun _ _ => rfl⟩

theorem add_one_ne (w : Word) : w + 1 ≠ w := by
  bv_omega

/-- The state of the coprocessor comes back from every handler when its place is mapped. -/
theorem ndp_back_iff (hn : c.ndpUser = true) :
    (∀ h, Untouched (c.enter e signum func oldmask).1 h (c.sigArea / 4) →
      overlay (ukcopy h.user (word c.uesp 25) 28) (fpstate h.ndpCon) = c.ndpWords) ↔
    Mapped c.user c.fpsp 28 := by
  have huse : (c.ndpUser || c.emTrapped) = true := by rw [hn, Bool.true_or]
  have hcell : ∀ k < 28, (c.enter e signum func oldmask).1.user (word c.fpsp k)
      = (kucopy c.user c.fpsp (List.ofFn c.ndpWords)).1 (word c.fpsp k) := by
    intro k hk
    rw [enter_fpsp huse hk, saveFp_ndp hn]
  rw [word_fpsp huse]
  constructor
  · intro hall k hk
    by_contra hno
    -- the word that is not mapped stays what the handler has made it
    have hback := congrFun (hall _
      (returned_untouched _ (fun _ => c.ndpWords ⟨k, hk⟩ + 1) _)) ⟨k, hk⟩
    unfold overlay returned at hback
    rw [ukcopy_getElem?, if_neg] at hback
    · rw [Option.getD_none] at hback
      exact add_one_ne _ hback
    · rintro ⟨-, hmapped⟩
      have hk' := hmapped k le_rfl
      dsimp only at hk'
      rw [hcell k hk, kucopy_isSome] at hk'
      exact hno hk'
  · intro hm h hu
    refine overlay_ukcopy fun i => ?_
    have hlen : (List.ofFn c.ndpWords).length = 28 := List.length_ofFn
    have hframe := hu.frame (25 + i) (by
      unfold sigArea
      rw [if_pos huse]
      omega)
    rw [enter_uesp, ← word_add, word_fpsp huse, hcell i i.isLt,
      kucopy_get (by rw [hlen]; norm_num) (hlen.symm ▸ hm) (hlen.symm ▸ i.isLt)] at hframe
    rw [hframe, List.getElem?_ofFn, dif_pos i.isLt]

/-- The context of the emulator comes back from every handler when the emulator returns it. -/
theorem emulated_back_iff (hn : c.ndpUser = false) (hem : c.emTrapped = true) :
    (∀ h, Untouched (c.enter e signum func oldmask).1 h (c.sigArea / 4) →
      (match e.ndpKfrstor with
        | none => h.ndpCon
        | some kfrstor => kfrstor (fun k => h.user (word c.uesp (25 + k))) h.ndpCon) = c.ndpCon) ↔
    e.Returns c.user c.fpsp c.ndpCon := by
  have huse : (c.ndpUser || c.emTrapped) = true := by rw [hem, Bool.or_true]
  have hcell : ∀ h, Untouched (c.enter e signum func oldmask).1 h (c.sigArea / 4) →
      (fun k : Fin 28 => h.user (word c.uesp (25 + k)))
        = fun k : Fin 28 => e.save c.user c.fpsp c.ndpCon (word c.fpsp k) := by
    intro h hu
    ext1 i
    have hframe := hu.frame (25 + i) (by
      unfold sigArea
      rw [if_pos huse]
      omega)
    rw [enter_uesp, ← word_add, word_fpsp huse, enter_fpsp huse i.isLt,
      saveFp_emulated hn hem] at hframe
    rw [← word_add, word_fpsp huse, hframe]
  unfold Emulator.Returns
  cases e.ndpKfrstor with
  | none =>
    constructor
    · intro hall
      -- nothing takes the context back
      have hback := congrFun (hall _ (returned_untouched _ (fun _ => c.ndpCon 0 + 1) _)) 0
      exact (add_one_ne _ hback).elim
    · rintro ⟨kfrstor, hsome, -⟩
      cases hsome
  | some kfrstor =>
    constructor
    · intro hall
      refine ⟨kfrstor, rfl, fun left => ?_⟩
      have hback := hall _ (returned_untouched _ left _)
      rw [← hcell _ (returned_untouched _ left _)]
      exact hback
    · rintro ⟨_, ⟨rfl⟩, hall⟩ h hu
      dsimp only
      rw [hcell h hu]
      exact hall _

end Context

/-! ### `msigstart` and `msigend` -/

/-- **The frame is kept** when it fits, once the stack has been looked after. -/
theorem enter_iff : FrameKept c e oldmask (c.enter e signum func oldmask) ↔ c.Fits e := by
  have hsnd : (c.enter e signum func oldmask).2 = true ↔ Mapped c.user c.uesp 25 :=
    Context.enter_snd
  by_cases hm : Mapped c.user c.uesp 25
  · have hn : 25 ≤ c.sigArea / 4 := by
      unfold Context.sigArea
      omega
    -- registers and mask come back in any case
    have hkept : FrameKept c e oldmask (c.enter e signum func oldmask) ↔
        ∀ h, Untouched (c.enter e signum func oldmask).1 h (c.sigArea / 4) →
          h.framedState e c.uesp (c.saveFp e).2 = c.fpState := by
      constructor
      · intro hall h hu
        obtain ⟨-, -, hfp⟩ := Context.msigend_enter hm hu hn 0
        rw [← hfp]
        exact (hall.1 (hsnd.mpr hm) h hu 0).fpState
      · intro hall
        refine ⟨fun _ h hu junk => ?_, fun hno => ?_⟩
        · obtain ⟨hregs, hmask, hfp⟩ := Context.msigend_enter hm hu hn junk
          exact ⟨hregs, hmask, hfp.trans (hall h hu)⟩
        · rw [hsnd.mpr hm] at hno
          cases hno
    have hfits : c.Fits e ↔ (c.ndpUser = true → Mapped c.user c.fpsp 28) ∧
        (c.ndpUser = false → c.emTrapped = true → e.Returns c.user c.fpsp c.ndpCon) :=
      ⟨fun hf => ⟨hf.ndp, hf.emulated⟩, fun ⟨hndp, hem⟩ => ⟨hm, hndp, hem⟩⟩
    obtain ⟨husr, hemt⟩ := Context.saveFp_flags (c := c) (e := e)
    rw [hkept, hfits]
    unfold Context.framedState Context.fpState
    rw [husr, hemt]
    by_cases hu : c.ndpUser = true
    · have hu' : c.ndpFlags &&& NF_NDP_USER ≠ 0 := of_decide_eq_true hu
      simp only [if_pos hu, if_pos hu', FpState.ndp.injEq, Context.ndp_back_iff hu]
      simp [hu]
    · have hu' : ¬c.ndpFlags &&& NF_NDP_USER ≠ 0 := fun h => hu (decide_eq_true h)
      rw [Bool.not_eq_true] at hu
      simp only [if_neg hu', hu, Bool.false_eq_true, if_false]
      by_cases hem : c.emTrapped = true
      · have hem' : c.ndpFlags &&& NF_EM_TRAPPED ≠ 0 := of_decide_eq_true hem
        simp only [if_pos hem, if_pos hem', FpState.emulated.injEq,
          Context.emulated_back_iff hu hem]
        simp [hem]
      · have hem' : ¬c.ndpFlags &&& NF_EM_TRAPPED ≠ 0 := fun h => hem (decide_eq_true h)
        simp only [if_neg hem, if_neg hem']
        simp [hem]
  · refine iff_of_false (fun hall => ?_) (fun hf => hm hf.frame)
    -- the stack pointer has been moved before the copy
    have hregs := congrFun (hall.2 (by rwa [← Bool.not_eq_true, hsnd])).regs UESP
    rw [Context.enter_uesp] at hregs
    unfold Context.uesp Context.sigArea at hregs
    split at hregs <;> bv_omega

variable {g : Growth}

/-- The growth of the stack is a matter of the segment. -/
theorem grow_segment : ∃ size user, (c.grow g).1 = { c with sSize := size, user := user } := by
  unfold Context.grow
  split
  · split
    · split
      · exact ⟨_, _, rfl⟩
      · exact ⟨_, c.user, rfl⟩
    · exact ⟨c.sSize, c.user, rfl⟩
  · exact ⟨c.sSize, c.user, rfl⟩

theorem grow_false {g : Growth} (hno : (c.grow g).2 = false) : Undisturbed c (c.grow g).1 := by
  unfold Context.grow at *
  split at hno
  · rename_i hlow
    rw [if_pos hlow]
    split at hno
    · rename_i hext
      rw [if_pos hext]
      split at hno
      · cases hno
      · rename_i hproto
        rw [if_neg hproto]
        exact ⟨rfl, rfl, rfl⟩
    · rename_i hext
      rw [if_neg hext]
      exact ⟨rfl, rfl, rfl⟩
  · cases hno

theorem frameKept_segment {size : Word} {r : Context × Bool} :
    FrameKept { c with sSize := size, user := user } e oldmask r ↔ FrameKept c e oldmask r := by
  constructor
  · intro hk
    refine ⟨fun hr h hu junk => ?_, fun hr => ?_⟩
    · have := hk.1 hr h hu junk
      exact ⟨this.regs, this.mask, this.fpState⟩
    · have := hk.2 hr
      exact ⟨this.regs, this.ndpOwner, this.ndpFlags⟩
  · intro hk
    refine ⟨fun hr h hu junk => ?_, fun hr => ?_⟩
    · have := hk.1 hr h hu junk
      exact ⟨this.regs, this.mask, this.fpState⟩
    · have := hk.2 hr
      exact ⟨this.regs, this.ndpOwner, this.ndpFlags⟩

/-- **Signal frames.** For every process, signal and handler: a frame that `msigstart` has built is
    taken back by `msigend`, and one that it cannot build leaves registers and coprocessor alone,
    exactly when the stack cannot be extended, or the frame fits on it afterwards. -/
theorem signalFrame_iff (c : Context) (e : Emulator) (g : Growth) (signum func : Word)
    (oldmask : Option SignalMask) :
    FrameKept c e oldmask (c.msigstart e g signum func oldmask) ↔
      (c.grow g).2 = false ∨ (c.grow g).1.Fits e := by
  obtain ⟨size, user, hseg⟩ := grow_segment (c := c) (g := g)
  have hsame : ∀ r, FrameKept (c.grow g).1 e oldmask r ↔ FrameKept c e oldmask r := by
    intro r
    rw [hseg]
    exact frameKept_segment
  have hfits : FrameKept (c.grow g).1 e oldmask ((c.grow g).1.enter e signum func oldmask) ↔
      (c.grow g).1.Fits e := enter_iff
  have hund : (c.grow g).2 = false → Undisturbed c (c.grow g).1 := grow_false
  unfold Context.msigstart
  generalize c.grow g = r at *
  obtain ⟨c', ok⟩ := r
  cases ok with
  | false =>
    refine iff_of_true ⟨fun hr => ?_, fun _ => hund rfl⟩ (Or.inl rfl)
    exact absurd hr Bool.false_ne_true
  | true =>
    refine (hsame _).symm.trans (hfits.trans ?_)
    simp

/-- A process that has used the coprocessor, with a page of stack that ends at `0x80000000` and its
    stack pointer three pages below that. -/
def deep : Context where
  user := segload 0x1000 (fun _ => 0) fun _ => none
  sSize := 0x1000
  regs := fun i => if i = UESP then 0x7fffd000 else if i = EIP then 0x400100 else 0
  mask := ⟨0, by decide⟩
  sigreturn := 0x400000
  ndpFlags := NF_NDP_USER
  ndpCon := fun _ => 0
  fpu := fun _ => 0
  ndpOwner := some 1
  kerEm := false
  self := 1

/-- **A frame is lost.** The page that is added does not hold the frame, and the process goes on at
    the handler and without the coprocessor. -/
theorem frame_lost : ¬∀ (c : Context) (e : Emulator) (g : Growth) (signum func : Word)
    (oldmask : Option SignalMask), FrameKept c e oldmask (c.msigstart e g signum func oldmask) := by
  intro hall
  have hlost : ¬(deep.msigstart ⟨none, none⟩ ⟨true, true, fun _ => 0⟩ 14 0x400200 none).2 = true ∧
      (deep.msigstart ⟨none, none⟩ ⟨true, true, fun _ => 0⟩ 14 0x400200 none).1.regs EIP
        ≠ deep.regs EIP := by
    decide +kernel
  have := (hall deep ⟨none, none⟩ ⟨true, true, fun _ => 0⟩ 14 0x400200 none).2
    (Bool.not_eq_true _ ▸ hlost.1)
  exact hlost.2 (congrFun this.regs EIP)

end CohKernel.Frame
