import CohKernel.Exec.Defs

namespace CohKernel.Exec

open CohKernel.Lib

/-!
# Counting and copying

What `excount` counts, and what the loops of `exstack` copy, in terms of the strings that a vector
of pointers leads to.

* `excount_eq` — the strings are counted, in 32 bits;
* `dmaout_eq` — a copy page by page is one of all bytes;
* `exargs_eq` — the strings are copied as they were counted.
-/

/-! ### What is passed -/

/-- The string at an address, with its null byte; none when the process cannot read it. -/
def User.stringFrom (m : User) : ℕ → ℕ → Option (List Byte)
  | 0, _ => none
  | fuel + 1, a =>
      match m.getubd a with
      | none => none
      | some c => if c = 0 then some [0] else (m.stringFrom fuel (a + 1)).map (c :: ·)

/-- The strings of a vector of pointers. -/
def User.vectorFrom (m : User) (wdin : Width) : ℕ → ℕ → Option (List (List Byte))
  | 0, _ => none
  | fuel + 1, v =>
      match m.getupd v with
      | none => none
      | some p =>
          if wdin.mask p = 0 then some []
          else
            match m.stringFrom (m.limit - wdin.mask p) (wdin.mask p) with
            | none => none
            | some s => (m.vectorFrom wdin fuel (v + wdin.size)).map (s :: ·)

/-- The strings that are passed with a vector; there are none without one. -/
def User.strings (m : User) (wdin : Width) (v : ℕ) : Option (List (List Byte)) :=
  if v ≠ 0 then m.vectorFrom wdin (m.limit - v) v else some []

/-- The bytes of some strings. -/
def total (ss : List (List Byte)) : ℕ := ss.flatten.length

variable {m : User} {wdin wdout xh : Width} {ss args envs : List (List Byte)} {s bytes : List Byte}
  {fuel a v na nb dest off vp cp : ℕ} {log : Log} {spec : ℕ → Option Byte}

theorem total_cons (s : List Byte) (ss : List (List Byte)) :
    total (s :: ss) = s.length + total ss := by
  rw [total, List.flatten_cons, List.length_append]
  rfl

theorem countChars_eq (hnb : nb < 2 ^ 32) : m.countChars fuel a nb =
    (m.stringFrom fuel a).map fun s => (nb + s.length) % 2 ^ 32 := by
  induction fuel generalizing a nb with
  | zero => rfl
  | succ fuel ih =>
    unfold User.countChars User.stringFrom
    cases m.getubd a with
    | none => rfl
    | some c =>
      simp only
      split_ifs
      · rfl
      · rw [ih (Nat.mod_lt _ (by decide)), Option.map_map]
        congr 1
        funext s
        simp only [Function.comp_apply, List.length_cons]
        rw [Nat.mod_add_mod]
        congr 1
        omega

theorem countPtrs_eq (hna : na < 2 ^ 32) (hnb : nb < 2 ^ 32) : m.countPtrs wdin fuel v na nb =
    (m.vectorFrom wdin fuel v).map fun ss =>
      ⟨(na + ss.length) % 2 ^ 32, (nb + total ss) % 2 ^ 32⟩ := by
  induction fuel generalizing v na nb with
  | zero => rfl
  | succ fuel ih =>
    unfold User.countPtrs User.vectorFrom
    cases m.getupd v with
    | none => rfl
    | some p =>
      simp only
      split_ifs
      · simp only [Option.map_some, List.length_nil, Nat.add_zero, Nat.mod_eq_of_lt hna]
        rw [show total [] = 0 from rfl, Nat.add_zero, Nat.mod_eq_of_lt hnb]
      · rw [countChars_eq hnb]
        cases m.stringFrom (m.limit - wdin.mask p) (wdin.mask p) with
        | none => rfl
        | some s =>
          simp only [Option.map_some]
          rw [ih (Nat.mod_lt _ (by decide)) (Nat.mod_lt _ (by decide)), Option.map_map]
          congr 1
          funext ss
          simp only [Function.comp_apply, List.length_cons, total_cons, Nat.mod_add_mod]
          congr 2 <;> omega

/-- **What is counted**: the strings of the vector, in 32 bits. -/
theorem excount_eq (m : User) (wdin : Width) (v : ℕ) : m.excount wdin v =
    (m.strings wdin v).map fun ss => ⟨ss.length % 2 ^ 32, total ss % 2 ^ 32⟩ := by
  unfold User.excount User.strings
  split_ifs
  · rw [countPtrs_eq (by decide) (by decide)]
    simp only [Nat.zero_add]
  · rfl

/-- The pointers of a vector are below the limit. -/
theorem vector_length (h : m.vectorFrom wdin fuel v = some ss) :
    v + wdin.size * ss.length ≤ m.limit := by
  induction fuel generalizing v ss with
  | zero => cases h
  | succ fuel ih =>
    unfold User.vectorFrom at h
    cases hp : m.getupd v with
    | none =>
      rw [hp] at h
      cases h
    | some p =>
      rw [hp] at h
      have hlt : v < m.limit := by
        by_contra hge
        have hnone : m.getubd v = none := if_neg hge
        unfold User.getupd at hp
        rw [hnone] at hp
        cases hp
      simp only at h
      split_ifs at h with hz
      · cases h
        exact hlt.le
      · cases hs : m.stringFrom (m.limit - wdin.mask p) (wdin.mask p) with
        | none =>
          rw [hs] at h
          cases h
        | some s =>
          rw [hs] at h
          obtain ⟨rest, hrest, rfl⟩ := Option.map_eq_some_iff.mp h
          have := ih hrest
          rw [List.length_cons, Nat.mul_add]
          omega

theorem strings_length (h : m.strings wdin v = some ss) : ss.length < 2 ^ 31 := by
  have hlimit := m.limit_le
  unfold User.strings at h
  split_ifs at h
  · have hlen := vector_length h
    have hsize : 2 ≤ wdin.size := by cases wdin <;> decide
    have := Nat.mul_le_mul_right ss.length hsize
    omega
  · cases h
    decide

/-- A string has its null byte. -/
theorem string_pos (h : m.stringFrom fuel a = some s) : 0 < s.length := by
  cases fuel with
  | zero => cases h
  | succ fuel =>
    unfold User.stringFrom at h
    cases hc : m.getubd a with
    | none =>
      rw [hc] at h
      cases h
    | some c =>
      rw [hc] at h
      simp only at h
      split_ifs at h
      · cases h
        exact Nat.one_pos
      · obtain ⟨rest, -, rfl⟩ := Option.map_eq_some_iff.mp h
        exact Nat.succ_pos _

theorem vector_total (h : m.vectorFrom wdin fuel v = some ss) : ss.length ≤ total ss := by
  induction fuel generalizing v ss with
  | zero => cases h
  | succ fuel ih =>
    unfold User.vectorFrom at h
    cases hp : m.getupd v with
    | none =>
      rw [hp] at h
      cases h
    | some p =>
      rw [hp] at h
      simp only at h
      split_ifs at h with hz
      · cases h
        exact le_rfl
      · cases hs : m.stringFrom (m.limit - wdin.mask p) (wdin.mask p) with
        | none =>
          rw [hs] at h
          cases h
        | some s =>
          rw [hs] at h
          obtain ⟨rest, hrest, rfl⟩ := Option.map_eq_some_iff.mp h
          have := ih hrest
          have := string_pos hs
          rw [total_cons, List.length_cons]
          omega

/-- There are at least as many bytes as strings. -/
theorem strings_total (h : m.strings wdin v = some ss) : ss.length ≤ total ss := by
  unfold User.strings at h
  split_ifs at h
  · exact vector_total h
  · cases h
    exact le_rfl

/-! ### Copies -/

/-- Bytes are stored one after the other. -/
def stores : Log → ℕ → List Byte → Log
  | log, _, [] => log
  | log, dest, b :: bytes => stores ((dest, b) :: log) ((dest + 1) % 2 ^ 32) bytes

theorem stores_append (l l' : List Byte) (hdest : dest < 2 ^ 32) :
    stores log dest (l ++ l') = stores (stores log dest l) ((dest + l.length) % 2 ^ 32) l' := by
  induction l generalizing log dest with
  | nil => rw [List.nil_append, List.length_nil, Nat.add_zero, Nat.mod_eq_of_lt hdest, stores]
  | cons b l ih =>
    rw [List.cons_append, stores, stores, ih (Nat.mod_lt _ (by decide)), Nat.mod_add_mod,
      List.length_cons, Nat.add_assoc, Nat.add_comm 1]

/-- Inside a page, addresses do not wrap. -/
theorem memcpy_eq (hpage : dest % NBPC + bytes.length ≤ NBPC) (hdest : dest < 2 ^ 32) :
    memcpy log dest bytes = stores log dest bytes := by
  rw [show NBPC = 4096 from rfl] at hpage
  induction bytes generalizing log dest with
  | nil => rfl
  | cons b bytes ih =>
    rw [List.length_cons] at hpage
    rw [memcpy, stores]
    cases bytes with
    | nil => rfl
    | cons c bytes =>
      rw [List.length_cons] at hpage
      rw [Nat.mod_eq_of_lt (by omega), ih (by rw [List.length_cons]; omega) (by omega)]

theorem dmaoutLoop_eq (hfuel : bytes.length ≤ fuel) (hdest : dest < 2 ^ 32) :
    dmaoutLoop fuel log dest bytes = stores log dest bytes := by
  have hunit : NBPC = 4096 := rfl
  induction fuel generalizing log dest bytes with
  | zero =>
    obtain rfl : bytes = [] := List.length_eq_zero_iff.mp (Nat.le_zero.mp hfuel)
    rfl
  | succ fuel ih =>
    unfold dmaoutLoop
    by_cases hnil : bytes = []
    · rw [if_pos hnil, hnil]
      rfl
    rw [if_neg hnil]
    have hpos := List.length_pos_iff.mpr hnil
    have hmod : dest % NBPC < NBPC := Nat.mod_lt _ (by decide)
    have hlen : (bytes.take (min (NBPC - dest % NBPC) bytes.length)).length =
        min (NBPC - dest % NBPC) bytes.length := by
      rw [List.length_take]
      omega
    simp only
    rw [memcpy_eq (by rw [hlen]; omega) hdest, ih (by rw [List.length_drop]; omega)
      (Nat.mod_lt _ (by decide))]
    conv_rhs => rw [← List.take_append_drop (min (NBPC - dest % NBPC) bytes.length) bytes]
    rw [stores_append _ _ hdest, hlen]

/-- **A copy page by page** is one of all bytes. -/
theorem dmaout_eq (hdest : dest < 2 ^ 32) : dmaout log dest bytes = stores log dest bytes :=
  dmaoutLoop_eq le_rfl hdest

/-- A string is copied as it was counted. -/
theorem exarg_eq (h : m.stringFrom fuel a = some s) (hdest : dest < 2 ^ 32) :
    m.exarg fuel log dest a = (s.length, stores log dest s) := by
  induction fuel generalizing a s log dest with
  | zero => cases h
  | succ fuel ih =>
    unfold User.stringFrom at h
    unfold User.exarg
    cases hc : m.getubd a with
    | none =>
      rw [hc] at h
      cases h
    | some c =>
      rw [hc] at h
      simp only [Option.getD_some] at h ⊢
      rw [dmaout_eq hdest]
      split_ifs at h ⊢ with hz
      · cases h
        rw [hz]
        rfl
      · obtain ⟨rest, hrest, rfl⟩ := Option.map_eq_some_iff.mp h
        rw [ih hrest (Nat.mod_lt _ (by decide))]
        rfl

/-- The stores of a loop over some strings. -/
def copies (wdout : Width) (off : ℕ) : List (List Byte) → ℕ → ℕ → Log → Log
  | [], _, _, log => log
  | s :: ss, vp, cp, log =>
      copies wdout off ss ((vp + wdout.size) % 2 ^ 32) ((cp + s.length) % 2 ^ 32)
        (stores (stores log ((vp + off) % 2 ^ 32) (bytesOf wdout.size cp))
          ((cp + off) % 2 ^ 32) s)

theorem exargs_vector (h : m.vectorFrom wdin fuel v = some ss) (hvp : vp < 2 ^ 32)
    (hcp : cp < 2 ^ 32) : m.exargs wdin wdout off ss.length v vp cp log =
      ((vp + wdout.size * ss.length) % 2 ^ 32, (cp + total ss) % 2 ^ 32,
        copies wdout off ss vp cp log) := by
  induction fuel generalizing v ss vp cp log with
  | zero => cases h
  | succ fuel ih =>
    unfold User.vectorFrom at h
    cases hp : m.getupd v with
    | none =>
      rw [hp] at h
      cases h
    | some p =>
      rw [hp] at h
      simp only at h
      split_ifs at h with hz
      · cases h
        simp only [List.length_nil, User.exargs, copies]
        rw [Nat.mul_zero, Nat.add_zero, show total [] = 0 from rfl, Nat.add_zero,
          Nat.mod_eq_of_lt hvp, Nat.mod_eq_of_lt hcp]
      · cases hs : m.stringFrom (m.limit - wdin.mask p) (wdin.mask p) with
        | none =>
          rw [hs] at h
          cases h
        | some s =>
          rw [hs] at h
          obtain ⟨rest, hrest, rfl⟩ := Option.map_eq_some_iff.mp h
          simp only [List.length_cons, User.exargs, hp, Option.getD_some, copies]
          rw [dmaout_eq (Nat.mod_lt _ (by decide)), exarg_eq hs (Nat.mod_lt _ (by decide))]
          simp only
          rw [ih hrest (Nat.mod_lt _ (by decide)) (Nat.mod_lt _ (by decide)), Nat.mod_add_mod,
            Nat.mod_add_mod, total_cons, Nat.mul_add, Nat.mul_one, ← Nat.add_assoc cp,
            Nat.add_comm (wdout.size * rest.length), ← Nat.add_assoc vp]

/-- A loop copies the strings that are passed. -/
theorem exargs_eq (h : m.strings wdin v = some ss) (hvp : vp < 2 ^ 32) (hcp : cp < 2 ^ 32) :
    m.exargs wdin wdout off (asInt (ss.length % 2 ^ 32)).toNat v vp cp log =
      ((vp + wdout.size * ss.length) % 2 ^ 32, (cp + total ss) % 2 ^ 32,
        copies wdout off ss vp cp log) := by
  have hlen := strings_length h
  rw [Nat.mod_eq_of_lt (by omega), asInt_small hlen, Int.toNat_natCast]
  unfold User.strings at h
  split_ifs at h
  · exact exargs_vector h hvp hcp
  · cases h
    simp only [List.length_nil, User.exargs, copies]
    rw [Nat.mul_zero, Nat.add_zero, show total [] = 0 from rfl, Nat.add_zero,
      Nat.mod_eq_of_lt hvp, Nat.mod_eq_of_lt hcp]

end CohKernel.Exec
