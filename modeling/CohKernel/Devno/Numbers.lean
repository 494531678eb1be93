import Mathlib.Tactic

namespace CohKernel.Devno

/-!
# Device numbers

The macros and functions of `ddi_devno.c`: a device number of 32 bits has a major and a minor
number of 16 bits each, and a table gives the internal major number of each external one.

* `getemajor_makedevice`, `geteminor_makedevice` — a device number is taken apart as it was made;
* `resume_spec` — what the calls of `itoemajor` that follow each other return and read;
* `lists_iff` — when these are the external numbers of an internal one, without a read outside of
  the table.
-/

/-- `major_t` and `minor_t`, `unsigned short`. -/
abbrev Number := BitVec 16

/-- `NODEV` -/
def NODEV : Number := BitVec.allOnes 16

/-- `DSHIFT` -/
def DSHIFT : ℕ := 16

/-! ### Packing -/

/-- `getemajor`, by `GETEMAJOR` -/
def getemajor (dev : BitVec 32) : Number := (dev >>> DSHIFT).setWidth 16

/-- `geteminor`, by `GETEMINOR`: the mask clears one bit, and the conversion the upper half. -/
def geteminor (dev : BitVec 32) : Number := (dev &&& ~~~(1#32 <<< DSHIFT)).setWidth 16

/-- `makedevice`, by `MAKEDEVICE` -/
def makedevice (maj min : Number) : BitVec 32 := (maj.setWidth 32 <<< DSHIFT) + min.setWidth 32

theorem makedevice_toNat (maj min : Number) :
    (makedevice maj min).toNat = maj.toNat * 2 ^ 16 + min.toNat := by
  have hmaj := maj.isLt
  have hmin := min.isLt
  rw [makedevice, DSHIFT, BitVec.toNat_add, BitVec.toNat_shiftLeft, BitVec.toNat_setWidth,
    BitVec.toNat_setWidth, Nat.shiftLeft_eq]
  omega

theorem getemajor_makedevice (maj min : Number) : getemajor (makedevice maj min) = maj := by
  have hmaj := maj.isLt
  have hmin := min.isLt
  apply BitVec.eq_of_toNat_eq
  rw [getemajor, DSHIFT, BitVec.toNat_setWidth, BitVec.toNat_ushiftRight, makedevice_toNat,
    Nat.shiftRight_eq_div_pow]
  omega

theorem geteminor_makedevice (maj min : Number) : geteminor (makedevice maj min) = min := by
  have hmin := min.isLt
  have hmask : (~~~(1#32 <<< DSHIFT)).toNat % 2 ^ 16 = 2 ^ 16 - 1 := by decide
  apply BitVec.eq_of_toNat_eq
  rw [geteminor, BitVec.toNat_setWidth, BitVec.toNat_and, Nat.and_mod_two_pow, hmask,
    Nat.and_two_pow_sub_one_eq_mod, makedevice_toNat]
  omega

/-! ### The table -/

/-- The configured majors: `_maxmajor`, and what is read at each index of `_major`; behind the table
    this is whatever stands there. -/
structure Config where
  maxmajor : Number
  major : ℕ → Number

/-- `etoimajor` -/
def etoimajor (t : Config) (emaj : Number) : Number :=
  if emaj ≥ t.maxmajor then NODEV else t.major emaj.toNat

/-- The loop of `itoemajor`, with `n` turns before `prevemaj` is `_maxmajor`: the number that it
    returns, and the indices that it reads. -/
def search (t : Config) (imaj : Number) : ℕ → ℕ → Number × List ℕ
  | 0, _ => (NODEV, [])
  | n + 1, prevemaj =>
      -- the test of the loop has stepped to the next entry
      let prevemaj := prevemaj + 1
      if t.major prevemaj = imaj then (BitVec.ofNat 16 prevemaj, [prevemaj])
      else
        let (r, reads) := search t imaj n prevemaj
        (r, prevemaj :: reads)

/-- Where the search begins. -/
def start (prevemaj : Number) : ℕ := if prevemaj = NODEV then 0 else (prevemaj + 1).toNat

/-- `itoemajor`, with the indices that it reads. -/
def itoemajor (t : Config) (imaj prevemaj : Number) : Number × List ℕ :=
  search t imaj (t.maxmajor.toNat - start prevemaj) (start prevemaj)

/-- The calls that follow each other up to the first `NODEV`, at most `fuel` of them: what they
    return before it, and what all of them read. -/
def resume (t : Config) (imaj : Number) : ℕ → Number → Option (List Number × List ℕ)
  | 0, _ => none
  | fuel + 1, prevemaj =>
      let (r, reads) := itoemajor t imaj prevemaj
      if r = NODEV then some ([], reads)
      else (resume t imaj fuel r).map fun (rs, more) => (r :: rs, reads ++ more)

/-- What is claimed of the calls from `NODEV` on: they end, they have returned the external majors
    of the internal one in ascending order, and no read was outside of the table. -/
def Lists (t : Config) (imaj : Number) : Prop :=
  ∃ rs reads, resume t imaj (2 ^ 16) NODEV = some (rs, reads) ∧ rs.Pairwise (· < ·) ∧
    (∀ emaj, emaj ∈ rs ↔ etoimajor t emaj = imaj) ∧ ∀ i ∈ reads, i < t.maxmajor.toNat

/-- The table is empty, or the internal major is at its end, not at its beginning, and nowhere at
    two places beside each other. -/
def Spaced (t : Config) (imaj : Number) : Prop :=
  imaj ≠ NODEV ∧
    (t.maxmajor = 0 ∨
      t.major 0 ≠ imaj ∧ t.major (t.maxmajor.toNat - 1) = imaj ∧
        ∀ i, i + 1 < t.maxmajor.toNat → t.major i = imaj → t.major (i + 1) ≠ imaj)

variable {t : Config} {imaj : Number}

/-! ### The search -/

/-- The search ends at the next entry with the internal major, or behind the table. -/
theorem search_spec (t : Config) (imaj : Number) (n p : ℕ) :
    (∃ q, p < q ∧ q ≤ p + n ∧ t.major q = imaj ∧ (∀ i, p < i → i < q → t.major i ≠ imaj) ∧
        (search t imaj n p).1 = BitVec.ofNat 16 q ∧
        ∀ i, i ∈ (search t imaj n p).2 ↔ p < i ∧ i ≤ q) ∨
      (∀ i, p < i → i ≤ p + n → t.major i ≠ imaj) ∧ (search t imaj n p).1 = NODEV ∧
        ∀ i, i ∈ (search t imaj n p).2 ↔ p < i ∧ i ≤ p + n := by
  induction n generalizing p with
  | zero =>
    refine Or.inr ⟨fun i hlt hle => by omega, rfl, fun i => ?_⟩
    show i ∈ [] ↔ _
    simp
  | succ n ih =>
    by_cases hp : t.major (p + 1) = imaj
    · refine Or.inl ⟨p + 1, by omega, by omega, hp, fun i hlt hlt' => by omega, ?_, fun i => ?_⟩
      · rw [search]
        simp only [if_pos hp]
      · rw [search]
        simp only [if_pos hp, List.mem_singleton]
        omega
    · have hval : search t imaj (n + 1) p =
          ((search t imaj n (p + 1)).1, (p + 1) :: (search t imaj n (p + 1)).2) := by
        rw [search]
        simp only [if_neg hp]
      rw [hval]
      rcases ih (p + 1) with ⟨q, hlt, hle, hq, hnone, hres, hreads⟩ | ⟨hnone, hres, hreads⟩
      · refine Or.inl ⟨q, by omega, by omega, hq, fun i hi hi' => ?_, hres, fun i => ?_⟩
        · rcases Nat.lt_or_ge (p + 1) i with hgt | hge
          · exact hnone i hgt hi'
          · rw [show i = p + 1 by omega]
            exact hp
        · rw [List.mem_cons, hreads]
          omega
      · refine Or.inr ⟨fun i hi hi' => ?_, hres, fun i => ?_⟩
        · rcases Nat.lt_or_ge (p + 1) i with hgt | hge
          · exact hnone i hgt (by omega)
          · rw [show i = p + 1 by omega]
            exact hp
        · rw [List.mem_cons, hreads]
          omega

theorem start_of_ne {prevemaj : Number} (h : prevemaj ≠ NODEV) :
    start prevemaj = prevemaj.toNat + 1 := by
  have hne : prevemaj.toNat ≠ 65535 := fun heq => h (BitVec.eq_of_toNat_eq heq)
  have hlt := prevemaj.isLt
  rw [start, if_neg h, BitVec.toNat_add]
  show (prevemaj.toNat + 1) % 2 ^ 16 = _
  omega

/-- The next number, when the internal major is at the end of the table. -/
theorem itoemajor_next {prevemaj : Number} (hlt : start prevemaj < t.maxmajor.toNat)
    (hfirst : t.major (start prevemaj) ≠ imaj) (hend : t.major (t.maxmajor.toNat - 1) = imaj) :
    ∃ emaj : Number, (itoemajor t imaj prevemaj).1 = emaj ∧ emaj ≠ NODEV ∧
      start prevemaj < emaj.toNat ∧ emaj.toNat < t.maxmajor.toNat ∧ t.major emaj.toNat = imaj ∧
      (∀ i, start prevemaj ≤ i → i < emaj.toNat → t.major i ≠ imaj) ∧
      ∀ i ∈ (itoemajor t imaj prevemaj).2, i < t.maxmajor.toNat := by
  have hmax := t.maxmajor.isLt
  have hne : start prevemaj ≠ t.maxmajor.toNat - 1 := fun heq => hfirst (heq ▸ hend)
  unfold itoemajor
  rcases search_spec t imaj (t.maxmajor.toNat - start prevemaj) (start prevemaj) with
    ⟨q, hgt, hle, hq, hnone, hres, hreads⟩ | ⟨hnone, -⟩
  · -- the entry at the end of the table is found, if none before it is
    have hqlt : q < t.maxmajor.toNat := by
      by_contra hge
      exact hnone _ (by omega) (by omega) hend
    have hval : (BitVec.ofNat 16 q).toNat = q := by
      rw [BitVec.toNat_ofNat]
      omega
    refine ⟨BitVec.ofNat 16 q, hres, fun heq => ?_, ?_, ?_, ?_, fun i hi hi' => ?_, fun i hi => ?_⟩
    · have : q = 65535 := by rw [← hval, heq]; rfl
      omega
    · rw [hval]
      exact hgt
    · rw [hval]
      exact hqlt
    · rw [hval]
      exact hq
    · rw [hval] at hi'
      rcases Nat.eq_or_lt_of_le hi with rfl | hi
      · exact hfirst
      · exact hnone i hi hi'
    · have := (hreads i).mp hi
      omega
  · exact absurd hend (hnone _ (by omega) (by omega))

/-- **A spaced table** is listed from any place at which a search begins. -/
theorem resume_spec (fuel : ℕ) (prevemaj : Number)
    (hfuel : t.maxmajor.toNat - start prevemaj < fuel)
    (hfirst : start prevemaj < t.maxmajor.toNat → t.major (start prevemaj) ≠ imaj)
    (hend : start prevemaj < t.maxmajor.toNat → t.major (t.maxmajor.toNat - 1) = imaj)
    (hspaced : ∀ i, i + 1 < t.maxmajor.toNat → t.major i = imaj → t.major (i + 1) ≠ imaj) :
    ∃ rs reads, resume t imaj fuel prevemaj = some (rs, reads) ∧ rs.Pairwise (· < ·) ∧
      (∀ emaj : Number, emaj ∈ rs ↔ start prevemaj ≤ emaj.toNat ∧
        emaj.toNat < t.maxmajor.toNat ∧ t.major emaj.toNat = imaj) ∧
      ∀ i ∈ reads, i < t.maxmajor.toNat := by
  induction fuel generalizing prevemaj with
  | zero => omega
  | succ fuel ih =>
    rcases Nat.lt_or_ge (start prevemaj) t.maxmajor.toNat with hlt | hge
    · obtain ⟨emaj, hres, hne, hgt, hemaj, hmajor, hnone, hreads⟩ :=
        itoemajor_next hlt (hfirst hlt) (hend hlt)
      have hstart := start_of_ne hne
      obtain ⟨rs, more, hrs, hsorted, hmem, hmore⟩ := ih emaj (by omega)
        (fun h => hstart ▸ hspaced emaj.toNat (hstart ▸ h) hmajor) (fun _ => hend hlt)
      refine ⟨emaj :: rs, (itoemajor t imaj prevemaj).2 ++ more, ?_, ?_, fun e => ?_,
        fun i hi => ?_⟩
      · rw [resume]
        simp only [hres, if_neg hne, hrs, Option.map_some]
      · rw [List.pairwise_cons]
        refine ⟨fun e he => ?_, hsorted⟩
        have := (hmem e).mp he
        exact BitVec.lt_def.mpr (by omega)
      · rw [List.mem_cons, hmem, hstart]
        constructor
        · rintro (rfl | ⟨hle, hlt', he⟩)
          · exact ⟨by omega, hemaj, hmajor⟩
          · exact ⟨by omega, hlt', he⟩
        · rintro ⟨hle, hlt', he⟩
          rcases Nat.lt_trichotomy e.toNat emaj.toNat with h | h | h
          · exact absurd he (hnone _ hle h)
          · exact Or.inl (BitVec.eq_of_toNat_eq h)
          · exact Or.inr ⟨h, hlt', he⟩
      · rcases List.mem_append.mp hi with hi | hi
        · exact hreads i hi
        · exact hmore i hi
    · refine ⟨[], [], ?_, List.Pairwise.nil, fun e => ?_, fun i hi => by cases hi⟩
      · rw [resume, itoemajor, Nat.sub_eq_zero_of_le hge]
        exact if_pos rfl
      · simp only [List.not_mem_nil, false_iff]
        omega

/-- The numbers that are returned are apart from each other and from the place where the search
    began, and the last search goes behind the table unless it begins there. -/
theorem resume_gaps (fuel : ℕ) (prevemaj : Number) {rs : List Number} {reads : List ℕ}
    (h : resume t imaj fuel prevemaj = some (rs, reads)) :
    (∀ e ∈ rs, start prevemaj < e.toNat ∧ e ≠ NODEV) ∧
      rs.Pairwise (fun a b => a.toNat + 1 < b.toNat) ∧
      (t.maxmajor.toNat ∈ reads ∨ t.maxmajor.toNat ≤ start prevemaj ∨
        ∃ e ∈ rs, t.maxmajor.toNat ≤ e.toNat + 1) := by
  have hmax := t.maxmajor.isLt
  induction fuel generalizing prevemaj rs reads with
  | zero => cases h
  | succ fuel ih =>
    rw [resume] at h
    have hsearch := search_spec t imaj (t.maxmajor.toNat - start prevemaj) (start prevemaj)
    rw [← itoemajor] at hsearch
    by_cases hr : (itoemajor t imaj prevemaj).1 = NODEV
    · simp only [if_pos hr] at h
      cases h
      refine ⟨fun e he => absurd he List.not_mem_nil, List.Pairwise.nil, ?_⟩
      rcases Nat.lt_or_ge (start prevemaj) t.maxmajor.toNat with hlt | hge
      · left
        rcases hsearch with ⟨q, hgt, hle, -, -, hres, hreads⟩ | ⟨-, -, hreads⟩
        · have hq : q % 2 ^ 16 = 65535 := by
            rw [← BitVec.toNat_ofNat, ← hres, hr]
            rfl
          exact (hreads _).mpr (by omega)
        · exact (hreads _).mpr (by omega)
      · exact Or.inr (Or.inl hge)
    · simp only [if_neg hr] at h
      obtain ⟨⟨rs', more⟩, hrs, hcons⟩ := Option.map_eq_some_iff.mp h
      cases hcons
      obtain ⟨habove, hgaps, hlast⟩ := ih _ hrs
      have hstart := start_of_ne hr
      have hnext : start prevemaj < (itoemajor t imaj prevemaj).1.toNat := by
        rcases hsearch with ⟨q, hgt, hle, -, -, hres, -⟩ | ⟨-, hres, -⟩
        · rw [hres, BitVec.toNat_ofNat]
          omega
        · exact absurd hres hr
      refine ⟨fun e he => ?_, ?_, ?_⟩
      · rcases List.mem_cons.mp he with rfl | he
        · exact ⟨hnext, hr⟩
        · have := habove e he
          exact ⟨by omega, this.2⟩
      · rw [List.pairwise_cons]
        refine ⟨fun e he => ?_, hgaps⟩
        have := (habove e he).1
        omega
      · rcases hlast with hin | hle | ⟨e, he, hle⟩
        · exact Or.inl (List.mem_append_right _ hin)
        · exact Or.inr (Or.inr ⟨_, List.mem_cons_self, hstart ▸ hle⟩)
        · exact Or.inr (Or.inr ⟨e, List.mem_cons_of_mem _ he, hle⟩)

theorem etoimajor_eq_iff (himaj : imaj ≠ NODEV) (emaj : Number) :
    etoimajor t emaj = imaj ↔ emaj.toNat < t.maxmajor.toNat ∧ t.major emaj.toNat = imaj := by
  unfold etoimajor
  split_ifs with hge
  · have hle := BitVec.le_def.mp hge
    constructor
    · exact fun heq => absurd heq.symm himaj
    · exact fun h => absurd h.1 (by omega)
  · have hlt : emaj.toNat < t.maxmajor.toNat := by
      by_contra hc
      exact hge (BitVec.le_def.mpr (by omega))
    simp [hlt]

/-- **Device numbers.** They are always taken apart as they were made; the calls of `itoemajor` list
    the external majors of an internal one if and only if the table is spaced. -/
theorem lists_iff (t : Config) (imaj : Number) :
    ((∀ maj min : Number, getemajor (makedevice maj min) = maj ∧
        geteminor (makedevice maj min) = min) ∧ Lists t imaj) ↔ Spaced t imaj := by
  have hmax := t.maxmajor.isLt
  have hstart : start NODEV = 0 := if_pos rfl
  constructor
  · rintro ⟨-, rs, reads, hres, -, hmem, hreads⟩
    obtain ⟨habove, hgaps, hlast⟩ := resume_gaps _ _ hres
    have himaj : imaj ≠ NODEV := by
      rintro rfl
      have hall : etoimajor t NODEV = NODEV := by
        unfold etoimajor
        rw [if_pos (BitVec.le_def.mpr (by show t.maxmajor.toNat ≤ 65535; omega))]
      exact (habove NODEV ((hmem NODEV).mpr hall)).2 rfl
    have hin : ∀ i, i < t.maxmajor.toNat → t.major i = imaj → BitVec.ofNat 16 i ∈ rs := by
      intro i hi heq
      have hval : (BitVec.ofNat 16 i).toNat = i := by
        rw [BitVec.toNat_ofNat]
        omega
      rw [hmem, etoimajor_eq_iff himaj, hval]
      exact ⟨hi, heq⟩
    refine ⟨himaj, ?_⟩
    by_cases h0 : t.maxmajor = 0
    · exact Or.inl h0
    have hpos : 0 < t.maxmajor.toNat :=
      Nat.pos_of_ne_zero fun heq => h0 (BitVec.eq_of_toNat_eq heq)
    refine Or.inr ⟨fun heq => ?_, ?_, fun i hi heq heq' => ?_⟩
    · have := (habove _ (hin 0 hpos heq)).1
      rw [BitVec.toNat_ofNat] at this
      omega
    · rcases hlast with hread | hle | ⟨e, he, hle⟩
      · exact absurd (hreads _ hread) (lt_irrefl _)
      · omega
      · obtain ⟨hlt, heq⟩ := (etoimajor_eq_iff himaj e).mp ((hmem e).mp he)
        rw [← heq]
        congr 1
        omega
    · have h1 := hin i (by omega) heq
      have h2 := hin (i + 1) hi heq'
      have hsymm : Std.Symm fun a b : Number => a.toNat + 1 < b.toNat ∨ b.toNat + 1 < a.toNat :=
        ⟨fun _ _ hab => hab.symm⟩
      have hapart : rs.Pairwise fun a b => a.toNat + 1 < b.toNat ∨ b.toNat + 1 < a.toNat :=
        hgaps.imp Or.inl
      have hval : ∀ j, j < t.maxmajor.toNat → (BitVec.ofNat 16 j).toNat = j := fun j hj => by
        rw [BitVec.toNat_ofNat]
        omega
      have hne : BitVec.ofNat 16 i ≠ BitVec.ofNat 16 (i + 1) := by
        intro hc
        have := congrArg BitVec.toNat hc
        rw [hval i (by omega), hval (i + 1) hi] at this
        omega
      have hgap := hapart.forall h1 h2 hne
      rw [hval i (by omega), hval (i + 1) hi] at hgap
      omega
  · rintro ⟨himaj, hcond⟩
    refine ⟨fun maj min => ⟨getemajor_makedevice maj min, geteminor_makedevice maj min⟩, ?_⟩
    have hfirst : start NODEV < t.maxmajor.toNat → t.major (start NODEV) ≠ imaj ∧
        t.major (t.maxmajor.toNat - 1) = imaj := by
      intro hlt
      rcases hcond with h0 | ⟨hne, hend, -⟩
      · rw [h0] at hlt
        cases hlt
      · exact ⟨hstart ▸ hne, hend⟩
    have hspaced : ∀ i, i + 1 < t.maxmajor.toNat → t.major i = imaj → t.major (i + 1) ≠ imaj := by
      intro i hi
      rcases hcond with h0 | ⟨-, -, hspaced⟩
      · rw [h0] at hi
        cases hi
      · exact hspaced i hi
    obtain ⟨rs, reads, hres, hsorted, hmem, hreads⟩ := resume_spec (2 ^ 16) NODEV
      (by omega) (fun h => (hfirst h).1) (fun h => (hfirst h).2) hspaced
    refine ⟨rs, reads, hres, hsorted, fun e => ?_, hreads⟩
    rw [hmem, etoimajor_eq_iff himaj, hstart]
    exact and_iff_right (Nat.zero_le _)

/-- Two external majors of one internal major, the first one at the beginning of the table. -/
def twoMajors : Config := ⟨2, fun i => if i < 2 then 7 else 0⟩

/-- The first major is not listed. -/
theorem twoMajors_unlisted : ¬ ∀ (t : Config) (imaj : Number), Lists t imaj := by
  intro hall
  obtain ⟨rs, reads, hres, -, hmem, -⟩ := hall twoMajors 7
  have hval : resume twoMajors 7 (2 ^ 16) NODEV = some ([1], [1]) := by decide +kernel
  rw [hval] at hres
  cases hres
  exact absurd ((hmem 0).mpr (by decide)) (by decide)

end CohKernel.Devno
