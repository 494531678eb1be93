import CohKernel.Lib.Instances

namespace CohKernel.Frame

/-!
# The register set of a process that resumes

The two ways in which words that a user supplies get into the trap frame: `msigend` of `msig.c`,
which copies a register set from the user's stack, and `ptret` of `sig.c`, which serves the requests
of a tracer.

* `resume_userLevel_iff` — the register set is one of user level when the words supplied are;
* `tracer_takes_ring` — a tracer gives its child a code selector of the kernel's ring.
-/

/-! ### The trap frame -/

/-- A word of the trap frame. -/
abbrev Word := BitVec 32

/-- The words of `gregset_t`, from `_gs` to `_ss`. -/
abbrev Regset := Fin 19 → Word

/-- The places of the words that have a meaning to the processor's protection. -/
def GS : Fin 19 := 0

/-- `_fs` -/
def FS : Fin 19 := 1

/-- `_es` -/
def ES : Fin 19 := 2

/-- `_ds` -/
def DS : Fin 19 := 3

/-- `_cs` -/
def CS : Fin 19 := 15

/-- `_eflags` -/
def EFL : Fin 19 := 16

/-- `_uesp` -/
def UESP : Fin 19 := 17

/-- `_ss` -/
def SS : Fin 19 := 18

/-- `__FLAG_MASK (1, __TRAP)` -/
def TRAP : Word := 1#32 <<< 8

/-- The flags that a user does not set: `__FLAG_MASK (1, __INTERRUPT)` and the field at
    `__IOPL_SHIFT`. -/
def PRIVILEGED : Word := 1#32 <<< 9 ||| 3#32 <<< 12

/-- `__SELECTOR_PRIVILEGE` is `_USER_PRIVILEGE`. -/
def userSelector (w : Word) : Bool := decide (w &&& 3#32 = 3#32)

/-- The first descriptor of the global table is not used: the selector names no segment. -/
def nullSelector (w : Word) : Bool := decide (w &&& 0xfffc#32 = 0#32)

/-- `__FLAG_SET_FLAG_TO`, for `__TRAP`. -/
def setTrap (flags : Word) (value : Bool) : Word :=
  (flags &&& ~~~TRAP) ||| (if value then TRAP else 0#32)

/-- What a word of the register set has to be: a selector of user level in `_cs` and `_ss`, and in
    the data selectors, unless they name no segment; and the privileged flags of before. -/
def WordOk (before : Regset) (i : Fin 19) (w : Word) : Prop :=
  if i = CS ∨ i = SS then userSelector w = true
  else if i = GS ∨ i = FS ∨ i = ES ∨ i = DS then nullSelector w = true ∨ userSelector w = true
  else if i = EFL then w &&& PRIVILEGED = before EFL &&& PRIVILEGED
  else True

instance (before : Regset) (i : Fin 19) (w : Word) : Decidable (WordOk before i w) := by
  unfold WordOk
  infer_instance

/-- A register set with which a process may resume. -/
def UserLevel (before r : Regset) : Prop := ∀ i, WordOk before i (r i)

instance (before r : Regset) : Decidable (UserLevel before r) :=
  inferInstanceAs (Decidable (∀ i, WordOk before i (r i)))

/-! ### `msigend` -/

/-- The words at user addresses, as far as they can be read. -/
abbrev UserMem := Word → Option Word

/-- The word that `ukcopy` has copied to a place, if it gets so far. -/
def copied (user : UserMem) (addr : Word) (i : Fin 19) : Option Word :=
  if ∀ j ≤ i, (user (addr + 4 * BitVec.ofNat 32 j)).isSome = true then
    user (addr + 4 * BitVec.ofNat 32 i)
  else none

/-- `signal_framep`: the return address and the signal number have been popped. -/
def signalFramep (regset : Regset) : Word := regset UESP - 2 * 4

/-- `& signal_framep->sf_regset` -/
def sfRegset (regset : Regset) : Word := signalFramep regset + 8

/-- What `msigend` does to the trap frame. -/
def msigend (user : UserMem) (regset : Regset) : Regset :=
  fun i => (copied user (sfRegset regset) i).getD (regset i)

/-! ### `ptret` -/

/-- `PTRACE_WR_USR` -/
def PTRACE_WR_USR : ℕ := 6

/-- `PTRACE_RESUME` -/
def PTRACE_RESUME : ℕ := 7

/-- `PTRACE_TERM` -/
def PTRACE_TERM : ℕ := 8

/-- `PTRACE_SSTEP` -/
def PTRACE_SSTEP : ℕ := 9

/-- `PTRACE_SIG`, which is also the end of the register set. -/
def PTRACE_SIG : ℕ := 76

/-- `_SIGNAL_MAX` -/
def SIGNAL_MAX : ℤ := 31

/-- `SIGKILL` -/
def SIGKILL : ℤ := 9

/-- `pts`: a request of the tracer. -/
structure Request where
  ptReq : ℕ
  ptAddr : Word
  ptData : Word

/-- The word that a request stores into the register set.  Offsets from `PTRACE_FP_CW` on are not in
    it, and there is none between `PTRACE_SIG` and `PTRACE_FP_CW`. -/
def Request.stores (r : Request) : Option (Fin 19) :=
  if r.ptReq = PTRACE_WR_USR then
    if r.ptAddr &&& 3#32 ≠ 0#32 then none
    else if h : r.ptAddr.toNat < PTRACE_SIG then
      some ⟨r.ptAddr.toNat / 4, by unfold PTRACE_SIG at h; omega⟩
    else none
  else none

/-- The signal with which a request ends the stop of the process. -/
def Request.sign (r : Request) : Option ℤ :=
  if r.ptReq = PTRACE_RESUME ∨ r.ptReq = PTRACE_SSTEP then
    if r.ptData.toInt < 0 ∨ SIGNAL_MAX < r.ptData.toInt then none else some r.ptData.toInt
  else if r.ptReq = PTRACE_TERM then some SIGKILL
  else none

/-- What a request does to the register set.  The trace flag is changed before the signal number is
    looked at. -/
def Request.serve (r : Request) (regset : Regset) : Regset :=
  if r.ptReq = PTRACE_RESUME then Function.update regset EFL (setTrap (regset EFL) false)
  else if r.ptReq = PTRACE_SSTEP then Function.update regset EFL (setTrap (regset EFL) true)
  else
    match r.stores with
    | none => regset
    | some i => Function.update regset i r.ptData

/-- A turn of the loop of `ptret`: a request has come, or a signal, or the tracer has gone. -/
inductive Turn where
  | request (r : Request)
  | nondsig
  | orphaned

/-- `ptret`, which has not returned when there are no more turns. -/
def ptret (regset : Regset) : List Turn → Option (Regset × ℤ)
  | [] => none
  | .nondsig :: _ => some (regset, 0)
  | .orphaned :: _ => some (regset, SIGKILL)
  | .request r :: ts =>
      match r.sign with
      | some sign => some (r.serve regset, sign)
      | none => ptret (r.serve regset) ts

/-- The process enters the kernel, at the end of a signal handler (with a stack) or otherwise, is
    stopped, and resumes. -/
def resume (before : Regset) (stack : Option UserMem) (ts : List Turn) : Option (Regset × ℤ) :=
  ptret (match stack with
    | none => before
    | some user => msigend user before) ts

/-! ### The words that are supplied -/

/-- The word that the requests of a stop have stored last. -/
def stored (i : Fin 19) : List Turn → Option Word
  | .request r :: ts =>
      let here := if r.stores = some i then some r.ptData else none
      if r.sign.isSome then here else (stored i ts).or here
  | _ => none

/-- The word that a user has supplied last. -/
def supplied (before : Regset) (stack : Option UserMem) (ts : List Turn) (i : Fin 19) :
    Option Word :=
  (stored i ts).or (stack.bind fun user => copied user (sfRegset before) i)

theorem setTrap_privileged (flags : Word) (value : Bool) :
    setTrap flags value &&& PRIVILEGED = flags &&& PRIVILEGED := by
  unfold setTrap
  have hmask : ~~~TRAP &&& PRIVILEGED = PRIVILEGED := by decide
  have hbit : (if value then TRAP else 0#32) &&& PRIVILEGED = 0#32 := by
    cases value <;> decide
  rw [BitVec.and_comm, BitVec.and_or_distrib_left, BitVec.and_comm, BitVec.and_assoc, hmask,
    BitVec.and_comm PRIVILEGED, hbit, BitVec.or_zero]

variable {before regset after : Regset} {i : Fin 19}

/-- The trace flag is not one of the privileged ones. -/
theorem wordOk_setTrap (value : Bool) :
    WordOk before i (Function.update regset EFL (setTrap (regset EFL) value) i) ↔
      WordOk before i (regset i) := by
  by_cases hi : i = EFL
  · subst hi
    rw [Function.update_self]
    have hcs : ¬(EFL = CS ∨ EFL = SS) := by decide
    have hds : ¬(EFL = GS ∨ EFL = FS ∨ EFL = ES ∨ EFL = DS) := by decide
    unfold WordOk
    rw [if_neg hcs, if_neg hds, if_pos rfl, if_neg hcs, if_neg hds, if_pos rfl, setTrap_privileged]
  · rw [Function.update_of_ne hi]

/-- **One request** stores a word, or keeps what the words are. -/
theorem serve_wordOk (r : Request) :
    WordOk before i (r.serve regset i) ↔
      WordOk before i ((if r.stores = some i then some r.ptData else none).getD (regset i)) := by
  have hnone : r.ptReq = PTRACE_RESUME ∨ r.ptReq = PTRACE_SSTEP → r.stores = none := by
    intro hreq
    have hne : r.ptReq ≠ PTRACE_WR_USR := by
      rcases hreq with h | h <;> rw [h] <;> decide
    unfold Request.stores
    rw [if_neg hne]
  unfold Request.serve
  split
  · rename_i hreq
    rw [hnone (Or.inl hreq), if_neg (Option.some_ne_none i).symm]
    exact wordOk_setTrap false
  · split
    · rename_i hreq
      rw [hnone (Or.inr hreq), if_neg (Option.some_ne_none i).symm]
      exact wordOk_setTrap true
    · cases hstores : r.stores with
      | none => rw [if_neg (Option.some_ne_none i).symm, Option.getD_none]
      | some j =>
        by_cases hij : i = j
        · subst hij
          rw [if_pos rfl, Option.getD_some]
          simp only [Function.update_self]
        · have hne : some j ≠ some i := fun h => hij (Option.some_inj.mp h).symm
          rw [if_neg hne, Option.getD_none]
          simp only [Function.update_of_ne hij]

/-- **The requests of a stop** -/
theorem ptret_wordOk {ts : List Turn} {sign : ℤ} (hs : ptret regset ts = some (after, sign)) :
    WordOk before i (after i) ↔ WordOk before i ((stored i ts).getD (regset i)) := by
  induction ts generalizing regset with
  | nil => cases hs
  | cons t ts ih =>
    cases t with
    | nondsig =>
      cases hs
      exact Iff.rfl
    | orphaned =>
      cases hs
      exact Iff.rfl
    | request r =>
      have hserve := @serve_wordOk before regset i r
      unfold ptret at hs
      unfold stored
      cases hsign : r.sign with
      | some n =>
        rw [hsign] at hs
        cases hs
        exact hserve
      | none =>
        rw [hsign] at hs
        have hrest := ih hs
        rw [Option.isSome_none, if_neg Bool.false_ne_true]
        cases hstored : stored i ts with
        | none =>
          rw [hstored, Option.getD_none] at hrest
          exact hrest.trans hserve
        | some w =>
          rw [hstored, Option.getD_some] at hrest
          exact hrest

/-- **The register set of a process that resumes** is one of user level exactly when the words that
    the stack and the tracer have supplied last are. -/
theorem resume_userLevel_iff {stack : Option UserMem} {ts : List Turn} {sign : ℤ}
    (hb : UserLevel before before) (hs : resume before stack ts = some (after, sign)) :
    UserLevel before after ↔
      ∀ i w, supplied before stack ts i = some w → WordOk before i w := by
  have hword : ∀ i, WordOk before i (after i) ↔
      WordOk before i ((supplied before stack ts i).getD (before i)) := by
    intro i
    refine (ptret_wordOk hs).trans ?_
    unfold supplied
    cases stored i ts with
    | some w => exact Iff.rfl
    | none =>
      cases stack with
      | none => exact Iff.rfl
      | some user => exact Iff.rfl
  constructor
  · intro hafter i w hw
    have hi := (hword i).mp (hafter i)
    rw [hw] at hi
    exact hi
  · intro hsupplied i
    refine (hword i).mpr ?_
    cases hi : supplied before stack ts i with
    | none => exact hb i
    | some w => exact hsupplied i w hi

/-! ### A child that is stopped -/

/-- The registers of a 32-bit program. -/
def program : Regset := fun i =>
  if i = CS then 0x0b#32
  else if i = SS ∨ i = DS ∨ i = ES then 0x13#32
  else if i = EFL then 0x202#32
  else 0#32

/-- The tracer stores a word, and resumes its child. -/
def oneWord (addr data : Word) : List Turn :=
  [.request ⟨PTRACE_WR_USR, addr, data⟩, .request ⟨PTRACE_RESUME, 0, 0⟩]

/-- The word is one of `_eax`. -/
theorem resume_userLevel_iff_eax :
    ∃ after, resume program none (oneWord 44 7) = some (after, 0) ∧ UserLevel program after := by
  have hb : UserLevel program program := by decide
  have hs : resume program none (oneWord 44 7) = some (_, 0) := rfl
  refine ⟨_, hs, (resume_userLevel_iff hb hs).mpr ?_⟩
  have hall : ∀ i, (supplied program none (oneWord 44 7) i).all
      (fun w => decide (WordOk program i w)) = true := by
    decide +kernel
  intro i w hw
  have hi := hall i
  rw [hw, Option.all_some] at hi
  exact of_decide_eq_true hi

/-- **A tracer gives its child the kernel's ring.**  It stores the selector of the text of ring 1
    into `_cs`. -/
theorem tracer_takes_ring :
    ∃ after, resume program none (oneWord 60 0x81) = some (after, 0) ∧
      ¬UserLevel program after := by
  refine ⟨_, rfl, fun h => ?_⟩
  have hcs := h CS
  revert hcs
  decide

end CohKernel.Frame
