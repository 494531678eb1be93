import CohKernel.Exec.Args

namespace CohKernel.Exec

open CohKernel.Lib

/-!
# The stack of a new program

* `Holds` — what the stack is for;
* `Layout.holds` — a stack that fits holds it;
* `exstack_iff` — when the stack is built.
-/

variable {m : User} {wdin wdout xh : Width} {ss args envs : List (List Byte)} {s bytes : List Byte}
  {fuel a v na nb dest off vp cp : ℕ} {log : Log} {spec : ℕ → Option Byte}

/-! ### What the stores write -/

theorem bytesOf_length (n x : ℕ) : (bytesOf n x).length = n := by
  induction n generalizing x with
  | zero => rfl
  | succ n ih => rw [bytesOf, List.length_cons, ih]

theorem stores_keep (h : Written log a) (dest : ℕ) (bytes : List Byte) :
    Written (stores log dest bytes) a := by
  induction bytes generalizing log dest with
  | nil => exact h
  | cons b bytes ih => exact ih (h.cons _) _

theorem stores_written (log : Log) (bytes : List Byte) (hdest : dest < 2 ^ 32) {i : ℕ}
    (hi : i < bytes.length) : Written (stores log dest bytes) ((dest + i) % 2 ^ 32) := by
  induction bytes generalizing log dest i with
  | nil => cases hi
  | cons b bytes ih =>
    cases i with
    | zero =>
      rw [Nat.add_zero, Nat.mod_eq_of_lt hdest]
      exact stores_keep ⟨b, List.mem_cons_self⟩ _ _
    | succ i =>
      have := ih ((dest, b) :: log) (Nat.mod_lt (dest + 1) (by decide))
        (Nat.lt_of_succ_lt_succ hi)
      rwa [Nat.mod_add_mod, Nat.add_assoc, Nat.add_comm 1] at this

theorem stores_fine (hfine : Fine spec log) (hshow : Shows spec dest bytes)
    (hwrap : dest + bytes.length ≤ 2 ^ 32) : Fine spec (stores log dest bytes) := by
  induction bytes generalizing log dest with
  | nil => exact hfine
  | cons b bytes ih =>
    obtain ⟨hb, hrest⟩ := shows_cons.mp hshow
    rw [List.length_cons] at hwrap
    cases bytes with
    | nil => exact hfine.cons hb
    | cons c bytes =>
      rw [List.length_cons] at hwrap
      rw [stores, Nat.mod_eq_of_lt (by omega)]
      exact ih (hfine.cons hb) hrest (by rw [List.length_cons]; omega)

theorem copies_keep (h : Written log a) (ss : List (List Byte)) (vp cp : ℕ) :
    Written (copies wdout off ss vp cp log) a := by
  induction ss generalizing vp cp log with
  | nil => exact h
  | cons s ss ih => exact ih (stores_keep (stores_keep h _ _) _ _) _ _

/-- Every byte of the strings is stored, one after the other. -/
theorem copies_chars (wdout : Width) (off vp cp : ℕ) (log : Log) {i : ℕ} (hi : i < total ss) :
    Written (copies wdout off ss vp cp log) ((cp + off + i) % 2 ^ 32) := by
  induction ss generalizing vp cp log i with
  | nil => cases hi
  | cons s ss ih =>
    rw [total_cons] at hi
    unfold copies
    by_cases hlt : i < s.length
    · apply copies_keep
      have := stores_written (stores log ((vp + off) % 2 ^ 32) (bytesOf wdout.size cp)) s
        (Nat.mod_lt (cp + off) (by decide)) hlt
      rwa [Nat.mod_add_mod] at this
    · obtain ⟨j, rfl⟩ := Nat.exists_eq_add_of_le (Nat.le_of_not_lt hlt)
      have hj := ih ((vp + wdout.size) % 2 ^ 32) ((cp + s.length) % 2 ^ 32)
        (stores (stores log ((vp + off) % 2 ^ 32) (bytesOf wdout.size cp)) ((cp + off) % 2 ^ 32) s)
        (i := j) (by omega)
      rwa [Nat.add_assoc _ off, Nat.mod_add_mod,
        show cp + s.length + (off + j) = cp + off + (s.length + j) by omega] at hj

/-- Every byte of the pointers is stored, one after the other. -/
theorem copies_ptrs (wdout : Width) (off vp cp : ℕ) (log : Log) {i : ℕ}
    (hi : i < wdout.size * ss.length) :
    Written (copies wdout off ss vp cp log) ((vp + off + i) % 2 ^ 32) := by
  induction ss generalizing vp cp log i with
  | nil => cases hi
  | cons s ss ih =>
    rw [List.length_cons, Nat.mul_add, Nat.mul_one] at hi
    unfold copies
    by_cases hlt : i < wdout.size
    · apply copies_keep
      apply stores_keep
      have := stores_written log (bytesOf wdout.size cp) (Nat.mod_lt (vp + off) (by decide))
        (i := i) (by rwa [bytesOf_length])
      rwa [Nat.mod_add_mod] at this
    · obtain ⟨j, rfl⟩ := Nat.exists_eq_add_of_le (Nat.le_of_not_lt hlt)
      have hj := ih ((vp + wdout.size) % 2 ^ 32) ((cp + s.length) % 2 ^ 32)
        (stores (stores log ((vp + off) % 2 ^ 32) (bytesOf wdout.size cp)) ((cp + off) % 2 ^ 32) s)
        (i := j) (by omega)
      rwa [Nat.add_assoc _ off, Nat.mod_add_mod,
        show vp + wdout.size + (off + j) = vp + off + (wdout.size + j) by omega] at hj

/-- The pointers to strings that stand one after the other. -/
def ptrs : List (List Byte) → ℕ → List ℕ
  | [], _ => []
  | s :: ss, cp => cp :: ptrs ss (cp + s.length)

/-- The bytes of some words. -/
def words (wd : Width) (l : List ℕ) : List Byte := l.flatMap (bytesOf wd.size)

theorem words_length (wd : Width) (l : List ℕ) : (words wd l).length = wd.size * l.length := by
  induction l with
  | nil => rfl
  | cons p l ih =>
    rw [words, List.flatMap_cons, List.length_append, bytesOf_length, List.length_cons]
    rw [words] at ih
    rw [ih, Nat.mul_add, Nat.mul_one, Nat.add_comm]

theorem ptrs_length (ss : List (List Byte)) (cp : ℕ) : (ptrs ss cp).length = ss.length := by
  induction ss generalizing cp with
  | nil => rfl
  | cons s ss ih => rw [ptrs, List.length_cons, ih, List.length_cons]

/-- Each pointer leads to its string. -/
theorem shows_ptrs {cp : ℕ} (h : Shows spec cp ss.flatten) (k : ℕ) (hk : k < ss.length) :
    Shows spec ((ptrs ss cp).getD k 0) (ss.get ⟨k, hk⟩) := by
  induction ss generalizing cp k with
  | nil => cases hk
  | cons s ss ih =>
    rw [List.flatten_cons, shows_append] at h
    cases k with
    | zero => exact h.1
    | succ k => exact ih h.2 k (Nat.lt_of_succ_lt_succ hk)

/-- A loop stores what is meant, when its pointers and its strings are meant to be there. -/
theorem copies_fine {vo co : ℕ} (hfine : Fine spec log)
    (hptrs : Shows spec vo (words wdout (ptrs ss cp))) (hchars : Shows spec co ss.flatten)
    (hv : vp + off = vo + 2 ^ 32) (hc : cp + off = co + 2 ^ 32)
    (hvp : vp + wdout.size * ss.length < 2 ^ 32) (hcp : cp + total ss < 2 ^ 32)
    (hvo : vo + wdout.size * ss.length < 2 ^ 32) (hco : co + total ss < 2 ^ 32) :
    Fine spec (copies wdout off ss vp cp log) := by
  induction ss generalizing vp cp vo co log with
  | nil => exact hfine
  | cons s ss ih =>
    rw [List.length_cons, Nat.mul_add, Nat.mul_one] at hvp hvo
    rw [total_cons] at hcp hco
    rw [ptrs, words, List.flatMap_cons, shows_append, bytesOf_length] at hptrs
    rw [List.flatten_cons, shows_append] at hchars
    unfold copies
    rw [hv, hc, Nat.add_mod_right, Nat.add_mod_right, Nat.mod_eq_of_lt (by omega : vo < 2 ^ 32),
      Nat.mod_eq_of_lt (by omega : co < 2 ^ 32), Nat.mod_eq_of_lt (by omega),
      Nat.mod_eq_of_lt (by omega)]
    refine ih ?_ hptrs.2 hchars.2 (by omega) (by omega) (by omega) (by omega) (by omega) (by omega)
    exact stores_fine (stores_fine hfine hptrs.1 (by rw [bytesOf_length]; omega)) hchars.1
      (by omega)

/-! ### What the stack is for -/

/-- The byte at an address of the new program's stack. -/
def Stack.byte (xh : Width) (r : Stack) (addr : ℕ) : Option Byte :=
  let o := (addr : ℤ) + r.size - xh.top
  if 0 ≤ o ∧ o < r.size then some (readStores 0 r.log o.toNat) else none

/-- What is at the initial stack pointer: `argc`, and for a program of 16 bits the addresses of the
    two vectors. -/
def header (xh : Width) (args : List (List Byte)) (argp : ℕ) : List Byte :=
  match xh with
  | .long => bytesOf 4 args.length
  | .short =>
      bytesOf 2 args.length ++ bytesOf 2 argp ++ bytesOf 2 (argp + (args.length + 1) * 2)

/-- The stack holds `argc`, the pointers of the arguments and a null, the pointers of the
    environment and a null, and then all strings from `chars` on; each pointer leads to its own
    string, and no byte has been written outside of the segment. -/
structure Holds (xh : Width) (args envs : List (List Byte)) (r : Stack) (chars : ℕ) : Prop where
  inside : ∀ p ∈ r.log, (p.1 : ℤ) < r.size
  argc : r.argc = args.length
  initsp : r.initsp + (header xh args r.argp).length = r.argp
  header : Shows (r.byte xh) r.initsp (header xh args r.argp)
  vectors : Shows (r.byte xh) r.argp
    (words xh (ptrs args chars ++ [0] ++ (ptrs envs (chars + total args) ++ [0])))
  after : r.argp + xh.size * (args.length + 1 + (envs.length + 1)) ≤ chars
  copies : ∀ k, (hk : k < (args ++ envs).length) →
    Shows (r.byte xh) ((ptrs (args ++ envs) chars).getD k 0) ((args ++ envs).get ⟨k, hk⟩)
  pointers : ∀ p ∈ ptrs (args ++ envs) chars, p < xh.top

/-- A call fails, or builds the stack. -/
def Built (m : User) (xh wdin : Width) (argp envp : ℕ) : Made → Prop
  | .built r => ∃ args envs chars, m.strings wdin argp = some args ∧
      m.strings wdin envp = some envs ∧ Holds xh args envs r chars
  | .efault => True
  | .e2big => True

/-- The bytes that the stack needs. -/
def needed (args envs : List (List Byte)) : ℕ :=
  (args.length + 1 + envs.length + 1) * 4 + (total args + total envs + 3) / 4 * 4 + ISTSIZE

/-- What is counted of some strings. -/
def counted (ss : List (List Byte)) : Adata := ⟨ss.length % 2 ^ 32, total ss % 2 ^ 32⟩

/-- The size of the segment that is asked for. -/
def asked (args envs : List (List Byte)) : ℤ := stksz (counted args) (counted envs)

/-! ### Sizes -/

/-- The sizes, when nothing wraps. -/
theorem sizes_small (args envs : List (List Byte)) (hchars : total args + total envs < 2 ^ 24)
    (hlen : args.length + envs.length < 2 ^ 24) :
    chrsz (counted args) (counted envs) = (total args + total envs + 3) / 4 * 4 ∧
      vecsz (counted args) (counted envs) = (args.length + 1 + envs.length + 1) * 4 ∧
      asked args envs = ((needed args envs + 4095) / 4096 * 4096 : ℕ) := by
  have hist : ISTSIZE = 2048 := rfl
  have hneed : needed args envs = (args.length + 1 + envs.length + 1) * 4 +
      (total args + total envs + 3) / 4 * 4 + ISTSIZE := rfl
  have hchr : chrsz (counted args) (counted envs) = (total args + total envs + 3) / 4 * 4 := by
    unfold chrsz counted
    simp only
    rw [Nat.mod_eq_of_lt (by omega : total args < 2 ^ 32),
      Nat.mod_eq_of_lt (by omega : total envs < 2 ^ 32), Nat.mod_eq_of_lt (by omega),
      roundUp_small (by omega)]
  have hvec : vecsz (counted args) (counted envs) = (args.length + 1 + envs.length + 1) * 4 := by
    unfold vecsz counted
    simp only
    rw [Nat.mod_eq_of_lt (by omega : args.length < 2 ^ 32),
      Nat.mod_eq_of_lt (by omega : envs.length < 2 ^ 32), Nat.mod_eq_of_lt (by omega)]
  refine ⟨hchr, hvec, ?_⟩
  unfold asked stksz
  rw [hchr, hvec, ← hneed, Nat.mod_eq_of_lt (by omega), show NBPC = 4096 from rfl,
    roundUp_small (by omega), asInt_small (by omega)]

/-- A stack that is too large is refused, unless its size wraps; then there are many bytes of
    strings. -/
theorem wrapped (h : ¬needed args envs ≤ 7 * NBPC) (hasked : ¬asked args envs > MADSIZE)
    (hargs : args.length ≤ total args) (henvs : envs.length ≤ total envs) :
    7 * NBPC < total args + total envs := by
  have hunit : NBPC = 4096 := rfl
  have hmax : MADSIZE = 32767 := rfl
  by_contra hfew
  obtain ⟨-, -, hsize⟩ := sizes_small args envs (by omega) (by omega)
  omega

/-! ### The call -/

theorem exstack_strings (room : ℤ → Bool) (xh : Width) {argp envp : ℕ}
    (ha : m.strings wdin argp = some args) (he : m.strings wdin envp = some envs) :
    m.exstack room xh wdin argp envp =
      if asked args envs > MADSIZE ∨ room (asked args envs) = false then .e2big
      else .built (m.fillStack xh wdin argp envp (counted args) (counted envs)
        (asked args envs)) := by
  unfold User.exstack
  rw [excount_eq, excount_eq, ha, he]
  rfl

/-- What a call has stored. -/
theorem fill_eq {argp envp : ℕ} (arg env : Adata) (harg : arg.np = args.length % 2 ^ 32)
    (henv : env.np = envs.length % 2 ^ 32) (ha : m.strings wdin argp = some args)
    (he : m.strings wdin envp = some envs) (size : ℤ) :
    m.fillStack xh wdin argp envp arg env size =
      ⟨size, (headStack xh (stkvp xh arg env) (stkoff xh size) arg.np).1, arg.np,
        stkvp xh arg env,
        copies xh (stkoff xh size) envs
          (((stkvp xh arg env + xh.size * args.length) % 2 ^ 32 + xh.size) % 2 ^ 32)
          ((stkcp xh arg env + total args) % 2 ^ 32)
          (copies xh (stkoff xh size) args (stkvp xh arg env) (stkcp xh arg env)
            (headStack xh (stkvp xh arg env) (stkoff xh size) arg.np).2)⟩ := by
  have hvp : stkvp xh arg env < 2 ^ 32 := Nat.mod_lt _ (by decide)
  have hcp : stkcp xh arg env < 2 ^ 32 := Nat.mod_lt _ (by decide)
  unfold User.fillStack
  simp only [harg, henv]
  rw [exargs_eq ha hvp hcp]
  simp only
  rw [exargs_eq he (Nat.mod_lt _ (by decide)) (Nat.mod_lt _ (by decide))]

/-- Every byte of all strings is stored, one after the other. -/
theorem fill_chars {argp envp : ℕ} {arg env : Adata} (harg : arg.np = args.length % 2 ^ 32)
    (henv : env.np = envs.length % 2 ^ 32) (ha : m.strings wdin argp = some args)
    (he : m.strings wdin envp = some envs) (size : ℤ) {i : ℕ} (hi : i < total args + total envs) :
    Written (m.fillStack xh wdin argp envp arg env size).log
      ((stkcp xh arg env + stkoff xh size + i) % 2 ^ 32) := by
  rw [fill_eq arg env harg henv ha he]
  by_cases hlt : i < total args
  · exact copies_keep (copies_chars _ _ _ _ _ hlt) _ _ _
  · obtain ⟨j, rfl⟩ := Nat.exists_eq_add_of_le (Nat.le_of_not_lt hlt)
    have hj : j < total envs := by omega
    have := copies_chars xh (stkoff xh size)
      (((stkvp xh arg env + xh.size * args.length) % 2 ^ 32 + xh.size) % 2 ^ 32)
      ((stkcp xh arg env + total args) % 2 ^ 32)
      (copies xh (stkoff xh size) args (stkvp xh arg env) (stkcp xh arg env)
        (headStack xh (stkvp xh arg env) (stkoff xh size) arg.np).2) hj
    rwa [Nat.add_assoc _ (stkoff xh size), Nat.mod_add_mod (stkcp xh arg env + total args),
      show stkcp xh arg env + total args + (stkoff xh size + j) =
        stkcp xh arg env + stkoff xh size + (total args + j) by omega] at this

/-- **More bytes than the segment has**: some byte is stored outside of it. -/
theorem fill_outside (xh : Width) {argp envp : ℕ} (arg env : Adata)
    (harg : arg.np = args.length % 2 ^ 32)
    (henv : env.np = envs.length % 2 ^ 32) (ha : m.strings wdin argp = some args)
    (he : m.strings wdin envp = some envs) (size : ℤ)
    (hmany : size < ((total args + total envs : ℕ) : ℤ)) (hpos : 0 < total args + total envs)
    (hsize : size < 2 ^ 32) :
    ∃ p ∈ (m.fillStack xh wdin argp envp arg env size).log, size ≤ (p.1 : ℤ) := by
  have hstart : (stkcp xh arg env + stkoff xh size) % 2 ^ 32 < 2 ^ 32 := Nat.mod_lt _ (by decide)
  -- The strings begin outside of the segment, or get to its end.
  obtain ⟨i, hi, hout⟩ : ∃ i, i < total args + total envs ∧
      size ≤ (((stkcp xh arg env + stkoff xh size + i) % 2 ^ 32 : ℕ) : ℤ) := by
    by_cases hin : (((stkcp xh arg env + stkoff xh size) % 2 ^ 32 : ℕ) : ℤ) < size
    · refine ⟨size.toNat - (stkcp xh arg env + stkoff xh size) % 2 ^ 32, by omega, ?_⟩
      rw [← Nat.mod_add_mod, Nat.mod_eq_of_lt (by omega)]
      omega
    · exact ⟨0, hpos, by rw [Nat.add_zero]; omega⟩
  obtain ⟨v, hv⟩ := fill_chars harg henv ha he size hi
  exact ⟨_, hv, hout⟩

/-! ### A stack that fits -/

/-- What is read at an address of the new program's stack. -/
theorem shows_byte {r : Stack} {o addr : ℕ} (hfine : Fine spec r.log) (hshow : Shows spec o bytes)
    (hw : ∀ i, (hi : i < bytes.length) → Written r.log (o + i) ∨ 0 = bytes.get ⟨i, hi⟩)
    (haddr : (addr : ℤ) + r.size - xh.top = o) (hin : ((o + bytes.length : ℕ) : ℤ) ≤ r.size) :
    Shows (r.byte xh) addr bytes := by
  intro i hi
  have ho : ((addr + i : ℕ) : ℤ) + r.size - xh.top = ((o + i : ℕ) : ℤ) := by
    push_cast
    omega
  unfold Stack.byte
  simp only
  rw [ho, if_pos ⟨by omega, by omega⟩, Int.toNat_natCast]
  exact congrArg some (read_fine hfine (hshow i hi) (hw i hi))

theorem header_length (xh : Width) (args : List (List Byte)) (argp : ℕ) :
    (header xh args argp).length = if xh = .long then 4 else 6 := by
  cases xh <;> rfl

/-- The words at the initial stack pointer are stored one after the other. -/
theorem headStack_eq (xh : Width) (args : List (List Byte)) (o vp off np : ℕ)
    (hnp : np = args.length) (hvp : vp < 2 ^ 32)
    (hlen : (header xh args vp).length ≤ vp)
    (hoff : vp + off = o + (header xh args vp).length + 2 ^ 32)
    (ho : o + (header xh args vp).length < 2 ^ 32) (hargs : vp + (args.length + 1) * 2 < 2 ^ 32) :
    headStack xh vp off np =
      (vp - (header xh args vp).length, stores [] o (header xh args vp)) := by
  subst hnp
  rw [header_length] at hlen hoff ho ⊢
  cases xh with
  | long =>
    simp only [if_true] at hlen hoff ho ⊢
    have hsp : (vp + (2 ^ 32 - 4)) % 2 ^ 32 = vp - 4 := by
      rw [show vp + (2 ^ 32 - 4) = vp - 4 + 2 ^ 32 by omega, Nat.add_mod_right,
        Nat.mod_eq_of_lt (by omega)]
    have hdest : (vp - 4 + off) % 2 ^ 32 = o := by
      rw [show vp - 4 + off = o + 2 ^ 32 by omega, Nat.add_mod_right, Nat.mod_eq_of_lt (by omega)]
    unfold headStack
    simp only
    rw [hsp, hdest, dmaout_eq (by omega)]
    rfl
  | short =>
    have hne : ¬Width.short = .long := by decide
    simp only [if_neg hne] at hlen hoff ho ⊢
    have hsp : (vp + (2 ^ 32 - 3 * 2)) % 2 ^ 32 = vp - 6 := by
      rw [show vp + (2 ^ 32 - 3 * 2) = vp - 6 + 2 ^ 32 by omega, Nat.add_mod_right,
        Nat.mod_eq_of_lt (by omega)]
    have hdest : ∀ k ≤ 4, (vp - 6 + k + off) % 2 ^ 32 = o + k := fun k hk => by
      rw [show vp - 6 + k + off = o + k + 2 ^ 32 by omega, Nat.add_mod_right,
        Nat.mod_eq_of_lt (by omega)]
    have hfirst := hdest 0 (by decide)
    rw [Nat.add_zero, Nat.add_zero] at hfirst
    unfold headStack header
    simp only
    rw [hsp, hfirst, hdest 2 (by decide), hdest (2 * 2) (by decide), Nat.mod_eq_of_lt hargs,
      dmaout_eq (by omega), dmaout_eq (by omega), dmaout_eq (by omega),
      stores_append _ _ (by omega), stores_append _ _ (by omega), List.length_append,
      bytesOf_length, bytesOf_length, Nat.mod_eq_of_lt (by omega), Nat.mod_eq_of_lt (by omega)]

/-- Where everything is in a stack that fits: the addresses `vp` of the pointers and `cp` of the
    strings, which are at `vo` and `co` in the segment. -/
structure Layout (xh : Width) (args envs : List (List Byte)) (size vp cp off vo co : ℕ) : Prop where
  chars : cp + (total args + total envs) ≤ xh.top
  vectors : vp + xh.size * (args.length + 1 + (envs.length + 1)) ≤ cp
  head : 6 ≤ vo
  head_vp : 6 ≤ vp
  off_vp : vp + off = vo + 2 ^ 32
  off_cp : cp + off = co + 2 ^ 32
  addr_vp : vp + size = vo + xh.top
  addr_cp : cp + size = co + xh.top
  top : xh.top ≤ 2 ^ 31
  small : size ≤ 2 ^ 16

theorem top_le (xh : Width) : 2 ^ 16 ≤ xh.top ∧ xh.top ≤ 2 ^ 31 := by
  cases xh <;> decide

theorem size_le (xh : Width) : 2 ≤ xh.size ∧ xh.size ≤ 4 := by
  cases xh <;> decide

/-- What fits is laid out. -/
theorem layout (xh : Width) (h : needed args envs ≤ 7 * NBPC) : ∃ size : ℕ, asked args envs = size ∧
    Layout xh args envs size (stkvp xh (counted args) (counted envs))
      (stkcp xh (counted args) (counted envs)) (stkoff xh size)
      (size - (total args + total envs + 3) / 4 * 4 - (args.length + 1 + envs.length + 1) * 4)
      (size - (total args + total envs + 3) / 4 * 4) := by
  have hunit : NBPC = 4096 := rfl
  have hist : ISTSIZE = 2048 := rfl
  have hneed : needed args envs = (args.length + 1 + envs.length + 1) * 4 +
      (total args + total envs + 3) / 4 * 4 + ISTSIZE := rfl
  obtain ⟨hchr, hvec, hsize⟩ := sizes_small args envs (by omega) (by omega)
  obtain ⟨hlow, hhigh⟩ := top_le xh
  have hwords : xh.size * (args.length + 1 + (envs.length + 1)) ≤
      (args.length + 1 + envs.length + 1) * 4 := by
    rw [Nat.mul_comm _ 4, ← Nat.add_assoc]
    exact Nat.mul_le_mul_right _ (size_le xh).2
  refine ⟨_, hsize, ?_⟩
  have hcp : stkcp xh (counted args) (counted envs) =
      xh.top - (total args + total envs + 3) / 4 * 4 := by
    rw [stkcp, hchr]
    generalize (total args + total envs + 3) / 4 * 4 = c at *
    rw [show xh.top + (2 ^ 32 - c) = xh.top - c + 2 ^ 32 by omega, Nat.add_mod_right,
      Nat.mod_eq_of_lt (by omega)]
  have hvp : stkvp xh (counted args) (counted envs) =
      xh.top - (total args + total envs + 3) / 4 * 4 - (args.length + 1 + envs.length + 1) * 4 := by
    rw [stkvp, hcp, hvec]
    generalize (total args + total envs + 3) / 4 * 4 = c at *
    rw [show xh.top - c + (2 ^ 32 - (args.length + 1 + envs.length + 1) * 4) =
      xh.top - c - (args.length + 1 + envs.length + 1) * 4 + 2 ^ 32 by omega, Nat.add_mod_right,
      Nat.mod_eq_of_lt (by omega)]
  have hoff : ∀ size : ℕ, size < xh.top → stkoff xh size = 2 ^ 32 + size - xh.top :=
      fun size hlt => by
    have hmod : ((size : ℤ) - xh.top) % 2 ^ 32 = ((2 ^ 32 + size - xh.top : ℕ) : ℤ) := by
      rw [← Int.add_emod_right]
      rw [Int.emod_eq_of_lt (by omega) (by omega)]
      omega
    rw [stkoff, hmod, Int.toNat_natCast]
  rw [hcp, hvp, hoff _ (by omega)]
  constructor <;> omega

theorem words_append (wd : Width) (l l' : List ℕ) : words wd (l ++ l') = words wd l ++
    words wd l' :=
  List.flatMap_append

/-- A null word. -/
theorem words_null (wd : Width) (i : ℕ) (hi : i < (words wd [0]).length) :
    0 = (words wd [0]).get ⟨i, hi⟩ := by
  have hmem := List.get_mem (words wd [0]) ⟨i, hi⟩
  have hnull : words wd [0] = List.replicate wd.size 0 := by cases wd <;> rfl
  have hzero : ∀ b ∈ words wd [0], b = 0 := fun b hb => List.eq_of_mem_replicate (hnull ▸ hb)
  exact (hzero _ hmem).symm

theorem null_length (wd : Width) : (words wd [0]).length = wd.size := by
  rw [words_length, List.length_singleton, Nat.mul_one]

section
variable {size co vo n : ℕ}

/-- The stack from the initial stack pointer on. -/
def image (xh : Width) (args envs : List (List Byte)) (vp cp gap : ℕ) : List Byte :=
  header xh args vp ++ (words xh (ptrs args cp) ++ (words xh [0] ++
    (words xh (ptrs envs (cp + total args)) ++ (words xh [0] ++ (List.replicate gap 0 ++
      (args.flatten ++ envs.flatten))))))

/-- What is meant to be at the places of a layout. -/
structure Meant (spec : ℕ → Option Byte) (xh : Width) (args envs : List (List Byte))
    (vp cp vo co : ℕ) : Prop where
  header : Shows spec (vo - (header xh args vp).length) (header xh args vp)
  argv : Shows spec vo (words xh (ptrs args cp))
  null : Shows spec (vo + xh.size * args.length) (words xh [0])
  envv : Shows spec (vo + xh.size * args.length + xh.size) (words xh (ptrs envs (cp + total args)))
  null₂ : Shows spec (vo + xh.size * args.length + xh.size + xh.size * envs.length) (words xh [0])
  argChars : Shows spec co args.flatten
  envChars : Shows spec (co + total args) envs.flatten

/-- The image is what is meant. -/
theorem Layout.meant (h : Layout xh args envs size vp cp off vo co) :
    ∃ spec, Meant spec xh args envs vp cp vo co ∧
      ∀ a v, spec a = some v → a < size := by
  have htop := h.chars
  have hvectors := h.vectors
  have haddr₁ := h.addr_vp
  have haddr₂ := h.addr_cp
  have hhead := h.head
  have hlen := header_length xh args vp
  have hle : (header xh args vp).length ≤ 6 := by
    rw [hlen]
    split_ifs <;> decide
  rw [Nat.mul_add, Nat.mul_add, Nat.mul_add, Nat.mul_one] at hvectors
  have hle : vo + xh.size * args.length + xh.size + xh.size * envs.length + xh.size ≤ co := by
    omega
  obtain ⟨gap, hgap⟩ := Nat.exists_eq_add_of_le hle
  have hshow := shows_place (vo - (header xh args vp).length) (image xh args envs vp cp gap)
  have hsize : vo - (header xh args vp).length + (image xh args envs vp cp gap).length ≤ size := by
    unfold image
    simp only [List.length_append, words_length, ptrs_length, List.length_replicate,
      List.length_singleton]
    unfold total at htop
    omega
  refine ⟨place (vo - (header xh args vp).length) (image xh args envs vp cp gap), ?_,
    fun a v ha => (place_lt ha).trans_le hsize⟩
  have hstart : vo - (header xh args vp).length + (header xh args vp).length = vo := by omega
  unfold image at hshow
  rw [shows_append, shows_append, shows_append, shows_append, shows_append, shows_append,
    shows_append, hstart, words_length, ptrs_length, null_length, words_length, ptrs_length,
    List.length_replicate, ← hgap] at hshow
  obtain ⟨h₁, h₂, h₃, h₄, h₅, -, h₆, h₇⟩ := hshow
  exact ⟨h₁, h₂, h₃, h₄, h₅, h₆, h₇⟩

/-- What a call stores, by the layout. -/
def filled (xh : Width) (args envs : List (List Byte)) (vp cp off vo : ℕ) : Log :=
  copies xh off envs (vp + xh.size * args.length + xh.size) (cp + total args)
    (copies xh off args vp cp (stores [] (vo - (header xh args vp).length) (header xh args vp)))

/-- Everything that is stored is meant. -/
theorem Layout.fine (h : Layout xh args envs size vp cp off vo co)
    (hm : Meant spec xh args envs vp cp vo co) : Fine spec (filled xh args envs vp cp off vo) := by
  obtain ⟨hchars, hvectors, hhead, -, hvp, hcp, hav, hac, htop, hsmall⟩ := h
  rw [Nat.mul_add, Nat.mul_add, Nat.mul_add, Nat.mul_one] at hvectors
  have hlen : (header xh args vp).length ≤ 6 := by
    rw [header_length]
    split_ifs <;> decide
  unfold filled
  refine copies_fine ?_ hm.envv hm.envChars (by omega) (by omega) (by omega) (by omega) (by omega)
    (by omega)
  refine copies_fine ?_ hm.argv hm.argChars hvp hcp (by omega) (by omega) (by omega) (by omega)
  exact stores_fine (fun _ hp => absurd hp List.not_mem_nil) hm.header (by omega)

/-- The header, the pointers and the strings are stored. -/
theorem Layout.stored (h : Layout xh args envs size vp cp off vo co) :
    (∀ i < (header xh args vp).length,
      Written (filled xh args envs vp cp off vo) (vo - (header xh args vp).length + i)) ∧
    (∀ i < xh.size * args.length, Written (filled xh args envs vp cp off vo) (vo + i)) ∧
    (∀ i < xh.size * envs.length, Written (filled xh args envs vp cp off vo)
      (vo + xh.size * args.length + xh.size + i)) ∧
    (∀ i < total args, Written (filled xh args envs vp cp off vo) (co + i)) ∧
    (∀ i < total envs, Written (filled xh args envs vp cp off vo) (co + total args + i)) := by
  obtain ⟨hchars, hvectors, hhead, -, hvp, hcp, hav, hac, htop, hsmall⟩ := h
  rw [Nat.mul_add, Nat.mul_add, Nat.mul_add, Nat.mul_one] at hvectors
  have hlen : (header xh args vp).length ≤ 6 := by
    rw [header_length]
    split_ifs <;> decide
  have hwrap : ∀ x y : ℕ, x = y + 2 ^ 32 → y < 2 ^ 32 → x % 2 ^ 32 = y := fun x y hx hy => by
    rw [hx, Nat.add_mod_right, Nat.mod_eq_of_lt hy]
  unfold filled
  refine ⟨fun i hi => ?_, fun i hi => ?_, fun i hi => ?_, fun i hi => ?_, fun i hi => ?_⟩
  · apply copies_keep
    apply copies_keep
    have hw := stores_written [] _ (by omega : vo - (header xh args vp).length < 2 ^ 32) hi
    rwa [Nat.mod_eq_of_lt (by omega)] at hw
  · apply copies_keep
    rw [← hwrap (vp + off + i) (vo + i) (by omega) (by omega)]
    exact copies_ptrs _ _ _ _ _ hi
  · rw [← hwrap (vp + xh.size * args.length + xh.size + off + i)
      (vo + xh.size * args.length + xh.size + i) (by omega) (by omega)]
    exact copies_ptrs _ _ _ _ _ hi
  · apply copies_keep
    rw [← hwrap (cp + off + i) (co + i) (by omega) (by omega)]
    exact copies_chars _ _ _ _ _ hi
  · rw [← hwrap (cp + total args + off + i) (co + total args + i) (by omega) (by omega)]
    exact copies_chars _ _ _ _ _ hi

theorem ptrs_lt (hpos : ∀ s ∈ ss, 0 < s.length) (hend : cp + total ss ≤ n) :
    ∀ p ∈ ptrs ss cp, p < n := by
  induction ss generalizing cp with
  | nil => exact fun p hp => absurd hp List.not_mem_nil
  | cons s ss ih =>
    rw [total_cons] at hend
    have hs := hpos s List.mem_cons_self
    intro p hp
    rcases List.mem_cons.mp hp with rfl | hp
    · omega
    · exact ih (fun t ht => hpos t (List.mem_cons_of_mem _ ht)) (by omega) p hp

/-- **A stack that fits** holds what it is for. -/
theorem Layout.holds (h : Layout xh args envs size vp cp off vo co)
    (hpos : ∀ s ∈ args ++ envs, 0 < s.length) :
    Holds xh args envs ⟨size, vp - (header xh args vp).length, args.length, vp,
      filled xh args envs vp cp off vo⟩ cp := by
  obtain ⟨spec, hm, hlt⟩ := h.meant
  have hfine := h.fine hm
  obtain ⟨hw₁, hw₂, hw₃, hw₄, hw₅⟩ := h.stored
  obtain ⟨hchars, hvectors, hhead, hhead', hvp, hcp, hav, hac, htop, hsmall⟩ := h
  have hrows := hvectors
  rw [Nat.mul_add, Nat.mul_add, Nat.mul_add, Nat.mul_one] at hrows
  have hlen : (header xh args vp).length ≤ 6 := by
    rw [header_length]
    split_ifs <;> decide
  have hstrings : Shows (Stack.byte xh ⟨size, vp - (header xh args vp).length, args.length, vp,
      filled xh args envs vp cp off vo⟩) cp (args ++ envs).flatten := by
    rw [List.flatten_append, shows_append]
    constructor
    · refine shows_byte hfine hm.argChars (fun i hi => Or.inl (hw₄ i hi)) ?_ ?_
      · show (cp : ℤ) + (size : ℤ) - _ = _
        omega
      · show ((co + total args : ℕ) : ℤ) ≤ size
        omega
    · refine shows_byte hfine hm.envChars (fun i hi => Or.inl (hw₅ i hi)) ?_ ?_
      · show ((cp + total args : ℕ) : ℤ) + (size : ℤ) - _ = _
        omega
      · show ((co + total args + total envs : ℕ) : ℤ) ≤ size
        omega
  refine ⟨fun p hp => ?_, rfl, ?_, ?_, ?_, hvectors, ?_, ?_⟩
  · have := hlt p.1 p.2 (hfine p hp)
    show (p.1 : ℤ) < size
    omega
  · show vp - (header xh args vp).length + (header xh args vp).length = vp
    omega
  · refine shows_byte hfine hm.header (fun i hi => Or.inl (hw₁ i hi)) ?_ ?_
    · show ((vp - (header xh args vp).length : ℕ) : ℤ) + (size : ℤ) - _ = _
      omega
    · show ((vo - (header xh args vp).length + (header xh args vp).length : ℕ) : ℤ) ≤ size
      omega
  · rw [words_append, words_append, words_append, shows_append, shows_append, shows_append,
      List.length_append, words_length, ptrs_length, null_length, words_length, ptrs_length,
      ← Nat.add_assoc]
    have hargs := (words_length xh (ptrs args cp)).trans (by rw [ptrs_length])
    have henvs := (words_length xh (ptrs envs (cp + total args))).trans (by rw [ptrs_length])
    have hnull := null_length xh
    refine ⟨⟨shows_byte hfine hm.argv (fun i hi => Or.inl (hw₂ i (hargs ▸ hi))) ?_ ?_,
      shows_byte hfine hm.null (fun i hi => Or.inr (words_null xh i hi)) ?_ ?_⟩,
      shows_byte hfine hm.envv (fun i hi => Or.inl (hw₃ i (henvs ▸ hi))) ?_ ?_,
      shows_byte hfine hm.null₂ (fun i hi => Or.inr (words_null xh i hi)) ?_ ?_⟩
    all_goals
      simp only [hargs, henvs, hnull]
      push_cast
      omega
  · exact fun k hk => shows_ptrs hstrings k hk
  · refine ptrs_lt hpos ?_
    rw [total, List.flatten_append, List.length_append]
    exact hchars

end

/-! ### When the stack is built -/

theorem vector_pos (h : m.vectorFrom wdin fuel v = some ss) : ∀ s ∈ ss, 0 < s.length := by
  induction fuel generalizing v ss with
  | zero => cases h
  | succ fuel ih =>
    unfold User.vectorFrom at h
    cases hp : m.getupd v with
    | none =>
      rw [hp] at h
      cases h
    | some p =>
      rw [hp] at h
      simp only at h
      split_ifs at h with hz
      · cases h
        exact fun s hs => absurd hs List.not_mem_nil
      · cases hs : m.stringFrom (m.limit - wdin.mask p) (wdin.mask p) with
        | none =>
          rw [hs] at h
          cases h
        | some s =>
          rw [hs] at h
          obtain ⟨rest, hrest, rfl⟩ := Option.map_eq_some_iff.mp h
          intro t ht
          rcases List.mem_cons.mp ht with rfl | ht
          · exact string_pos hs
          · exact ih hrest t ht

theorem strings_pos (h : m.strings wdin v = some ss) : ∀ s ∈ ss, 0 < s.length := by
  unfold User.strings at h
  split_ifs at h
  · exact vector_pos h
  · cases h
    exact fun s hs => absurd hs List.not_mem_nil

variable {argp envp : ℕ}

/-- A stack that fits is built. -/
theorem fill_holds (xh : Width) (ha : m.strings wdin argp = some args)
    (he : m.strings wdin envp = some envs)
    (hneed : needed args envs ≤ 7 * NBPC) :
    ∃ chars, Holds xh args envs
      (m.fillStack xh wdin argp envp (counted args) (counted envs) (asked args envs)) chars := by
  obtain ⟨size, hsize, hl⟩ := layout xh hneed
  have hla := strings_length ha
  have hle := strings_length he
  have hnp : args.length % 2 ^ 32 = args.length := Nat.mod_eq_of_lt (by omega)
  have hpos : ∀ s ∈ args ++ envs, 0 < s.length := fun s hs =>
    (List.mem_append.mp hs).elim (strings_pos ha s) (strings_pos he s)
  rw [fill_eq (counted args) (counted envs) rfl rfl ha he, hsize]
  have hholds := hl.holds hpos
  obtain ⟨hchars, hvectors, hhead, hhead', hvp, hcp, hav, hac, htop, hsmall⟩ := hl
  have hrows := hvectors
  rw [Nat.mul_add, Nat.mul_add, Nat.mul_add, Nat.mul_one] at hrows
  have hlen : (header xh args (stkvp xh (counted args) (counted envs))).length ≤ 6 := by
    rw [header_length]
    split_ifs <;> decide
  have htwo : (args.length + 1) * 2 ≤ xh.size * args.length + xh.size := by
    rw [Nat.mul_comm, ← Nat.mul_succ]
    exact Nat.mul_le_mul_right _ (size_le xh).1
  have hhs := headStack_eq xh args
    (size - (total args + total envs + 3) / 4 * 4 - (args.length + 1 + envs.length + 1) * 4 -
      (header xh args (stkvp xh (counted args) (counted envs))).length)
    (stkvp xh (counted args) (counted envs)) (stkoff xh size) (counted args).np hnp (by omega)
    (hlen.trans hhead') (by omega) (by omega) (by omega)
  rw [hhs]
  refine ⟨stkcp xh (counted args) (counted envs), ?_⟩
  show Holds xh args envs ⟨size, _, args.length % 2 ^ 32, _, _⟩ _
  rw [hnp, Nat.mod_eq_of_lt (by omega :
      stkvp xh (counted args) (counted envs) + xh.size * args.length < 2 ^ 32),
    Nat.mod_eq_of_lt (by omega :
      stkvp xh (counted args) (counted envs) + xh.size * args.length + xh.size < 2 ^ 32),
    Nat.mod_eq_of_lt (by omega : stkcp xh (counted args) (counted envs) + total args < 2 ^ 32)]
  exact hholds

/-- The size of a segment is in whole pages. -/
theorem asked_le (h : ¬asked args envs > MADSIZE) : asked args envs ≤ 7 * NBPC := by
  have hmax : MADSIZE = 32767 := rfl
  have hunit : NBPC = 4096 := rfl
  revert h
  unfold asked stksz roundUp asInt
  rw [hunit]
  split_ifs <;> intro h <;> omega

/-- A size that has wrapped: the strings do not fit in the segment. -/
theorem not_built {room : ℤ → Bool} (ha : m.strings wdin argp = some args)
    (he : m.strings wdin envp = some envs) (hneed : ¬needed args envs ≤ 7 * NBPC)
    (href : ¬(asked args envs > MADSIZE ∨ room (asked args envs) = false)) :
    ¬Built m xh wdin argp envp (.built (m.fillStack xh wdin argp envp (counted args)
      (counted envs) (asked args envs))) := by
  rintro ⟨args', envs', chars, -, -, hholds⟩
  have hmany := wrapped hneed (fun h => href (Or.inl h)) (strings_total ha) (strings_total he)
  have hsize := asked_le fun h => href (Or.inl h)
  have hunit : NBPC = 4096 := rfl
  obtain ⟨p, hp, hout⟩ := fill_outside xh (counted args) (counted envs) rfl rfl ha he
    (asked args envs) (by omega) (by omega) (by omega)
  have := hholds.inside p hp
  have hsame : (m.fillStack xh wdin argp envp (counted args) (counted envs)
    (asked args envs)).size = asked args envs := rfl
  omega

/-- **The stack of a new program**: the call fails, or builds the stack, if and only if the strings
    cannot be read, the stack fits in the seven pages that `MADSIZE` allows, or it is refused; a
    stack that does not fit is not refused when its size wraps and `salloc` gets a segment. -/
theorem exstack_iff (m : User) (room : ℤ → Bool) (xh wdin : Width) (argp envp : ℕ) :
    Built m xh wdin argp envp (m.exstack room xh wdin argp envp) ↔
      ∀ args envs, m.strings wdin argp = some args → m.strings wdin envp = some envs →
        needed args envs ≤ 7 * NBPC ∨ asked args envs > MADSIZE ∨
          room (asked args envs) = false := by
  cases ha : m.strings wdin argp with
  | none =>
    have hfault : m.exstack room xh wdin argp envp = .efault := by
      unfold User.exstack
      rw [excount_eq, ha]
      rfl
    rw [hfault]
    exact iff_of_true trivial nofun
  | some args =>
    cases he : m.strings wdin envp with
    | none =>
      have hfault : m.exstack room xh wdin argp envp = .efault := by
        unfold User.exstack
        rw [excount_eq, excount_eq, ha, he]
        rfl
      rw [hfault]
      exact iff_of_true trivial nofun
    | some envs =>
      have hrhs : (∀ args' envs', some args = some args' → some envs = some envs' →
          needed args' envs' ≤ 7 * NBPC ∨ asked args' envs' > MADSIZE ∨
            room (asked args' envs') = false) ↔
          needed args envs ≤ 7 * NBPC ∨ asked args envs > MADSIZE ∨
            room (asked args envs) = false := by
        refine ⟨fun h => h args envs rfl rfl, ?_⟩
        rintro h _ _ ⟨⟩ ⟨⟩
        exact h
      rw [exstack_strings room xh ha he, hrhs]
      by_cases href : asked args envs > MADSIZE ∨ room (asked args envs) = false
      · rw [if_pos href]
        exact iff_of_true trivial (Or.inr href)
      rw [if_neg href]
      by_cases hneed : needed args envs ≤ 7 * NBPC
      · obtain ⟨chars, hholds⟩ := fill_holds xh ha he hneed
        exact iff_of_true ⟨args, envs, chars, ha, he, hholds⟩ (Or.inl hneed)
      · -- The size has wrapped, and the strings do not fit in the segment.
        exact iff_of_false (not_built ha he hneed href) fun h => h.elim hneed href

/-- A process with a megabyte of ones, which are pointers to its beginning as well. -/
def ones : User :=
  ⟨0x90000000, le_rfl, fun a => some (if 16843009 ≤ a ∧ a < 17891584 then 1 else 0)⟩

theorem ones_one {a : ℕ} (hlow : 16843009 ≤ a) (hhigh : a < 17891584) : ones.getubd a = some 1 := by
  have hlimit : a < ones.limit := by
    show a < 0x90000000
    omega
  rw [User.getubd, if_pos hlimit]
  exact congrArg some (if_pos ⟨hlow, hhigh⟩)

theorem ones_zero {a : ℕ} (hlow : 17891584 ≤ a) (hhigh : a < 17891588) : ones.getubd a =
    some 0 := by
  have hlimit : a < ones.limit := by
    show a < 0x90000000
    omega
  have hnot : ¬(16843009 ≤ a ∧ a < 17891584) := by omega
  rw [User.getubd, if_pos hlimit]
  exact congrArg some (if_neg hnot)

theorem ones_string (k : ℕ) {fuel a : ℕ} (ha : a + k = 17891584) (hlow : 16843009 ≤ a)
    (hfuel : k < fuel) : ones.stringFrom fuel a = some (List.replicate k 1 ++ [0]) := by
  induction k generalizing fuel a with
  | zero =>
    obtain ⟨f, rfl⟩ := Nat.exists_eq_add_of_lt hfuel
    rw [Nat.zero_add, User.stringFrom, ones_zero (by omega) (by omega)]
    rfl
  | succ k ih =>
    obtain ⟨f, rfl⟩ := Nat.exists_eq_add_of_lt hfuel
    have hone : ¬(1 : Byte) = 0 := by decide
    rw [User.stringFrom, ones_one hlow (by omega)]
    simp only
    rw [if_neg hone, ih (by omega) (by omega) (by omega)]
    rfl

/-- The string at the beginning of the ones. -/
def onesString : List Byte := List.replicate 1048575 1 ++ [0]

theorem ones_vector (k : ℕ) {fuel v : ℕ} (hv : v + 4 * k = 17891584) (hlow : 16843009 ≤ v)
    (hfuel : k < fuel) : ones.vectorFrom .long fuel v = some (List.replicate k onesString) := by
  induction k generalizing fuel v with
  | zero =>
    obtain ⟨f, rfl⟩ := Nat.exists_eq_add_of_lt hfuel
    have hp : ones.getupd v = some 0 := by
      rw [User.getupd, ones_zero (by omega) (by omega), ones_zero (by omega) (by omega),
        ones_zero (by omega) (by omega), ones_zero (by omega) (by omega)]
      rfl
    rw [Nat.zero_add, User.vectorFrom, hp]
    rfl
  | succ k ih =>
    obtain ⟨f, rfl⟩ := Nat.exists_eq_add_of_lt hfuel
    have hp : ones.getupd v = some 16843009 := by
      rw [User.getupd, ones_one (by omega) (by omega), ones_one (by omega) (by omega),
        ones_one (by omega) (by omega), ones_one (by omega) (by omega)]
      rfl
    have hmask : Width.long.mask 16843009 = 16843009 := rfl
    have hsize : Width.long.size = 4 := rfl
    have hlimit : ones.limit = 2415919104 := rfl
    have hs : ones.stringFrom (ones.limit - 16843009) 16843009 = some onesString :=
      ones_string 1048575 (by omega) (by omega) (by omega)
    have hrest : ones.vectorFrom .long (k + 1 + f) (v + Width.long.size) =
        some (List.replicate k onesString) := ih (by omega) (by omega) (by omega)
    rw [User.vectorFrom, hp]
    simp only [hmask]
    rw [if_neg (by omega), hs]
    simp only
    rw [hrest]
    rfl

theorem ones_args : ∃ args, ones.strings .long 17875200 = some args ∧ args.length = 4096 ∧
    total args = 4294967296 := by
  have hlimit : ones.limit = 2415919104 := rfl
  have hlen : onesString.length = 1048576 := by
    rw [onesString, List.length_append, List.length_replicate, List.length_singleton]
  refine ⟨List.replicate 4096 onesString, ?_, List.length_replicate, ?_⟩
  · rw [User.strings, if_pos (by omega)]
    exact ones_vector 4096 (by omega) (by omega) (by omega)
  · rw [total, List.length_flatten, List.map_replicate, List.sum_replicate, hlen, smul_eq_mul]

/-- 4096 pointers to a string of 2^20 bytes: the sum of the lengths is 2^32, so a segment of five
    pages is asked for, and the strings are stored far beyond it. -/
theorem exstack_wraps : ¬Built ones .long .long 17875200 0
    (ones.exstack (fun _ => true) .long .long 17875200 0) := by
  obtain ⟨args, ha, hlen, htotal⟩ := ones_args
  have he : ones.strings .long 0 = some [] := if_neg fun h => h rfl
  have hnone : total [] = 0 := rfl
  have hasked : asked args [] = 20480 := by
    unfold asked stksz vecsz chrsz counted
    simp only [htotal, hnone, hlen, List.length_nil]
    norm_num [asInt, roundUp, ISTSIZE, NBPC]
  have hneed : ¬needed args [] ≤ 7 * NBPC := by
    have hunit : NBPC = 4096 := rfl
    unfold needed
    omega
  have hmax : MADSIZE = 32767 := rfl
  have href : ¬(asked args [] > MADSIZE ∨ (fun _ : ℤ => true) (asked args []) = false) := by
    rintro (h | h)
    · omega
    · cases h
  rw [exstack_strings (fun _ => true) .long ha he, if_neg href]
  exact @not_built _ _ _ _ _ _ _ (fun _ => true) ha he hneed href

end CohKernel.Exec
