import CohKernel.Bio.Defs
import CohKernel.Lib.Links
import CohKernel.Lib.Radix

namespace CohKernel.Bio

open CohKernel.Lib

/-!
# The radix sort of the buffers to be written

`unlocked_radix_pass` and `radix_pass` of `bio.c`, and the four passes of `general_sync`.  A pass
puts the members of a linked list at the heads of 256 buckets, and then takes the buckets from the
last one on and links their members in the opposite order.  The loops over a list have fuel, which
the length of the list is enough for.

* `radix_sorts` — the stable sort by the block number, for both kinds of list;
* `radix_mergeSort` — which is the order of `State.syncStep`.
-/

/-! ### Passes -/

def UCHAR_MAX : ℕ := 255

/-- The octet `i` of a block number, from the lowest one on. -/
def octet (bno : BitVec 32) (i : ℕ) : ℕ := bno.toNat / (UCHAR_MAX + 1) ^ i % (UCHAR_MAX + 1)

section defs

variable {ι β : Type*} [DecidableEq ι]

/-- The first loop of a pass: the members of the list go to the heads of the buckets. -/
def distribute (digit : ι → ℕ) : ℕ → (ι → Option ι) → (ℕ → Option ι) → Option ι →
    Option ((ι → Option ι) × (ℕ → Option ι))
  | _, link, space, none => some (link, space)
  | 0, _, _, some _ => none
  | fuel + 1, link, space, some bp =>
      let i := digit bp
      distribute digit fuel (Function.update link bp (space i)) (Function.update space i (some bp))
        (link bp)

/-- The inner loop of the second one: the members of a bucket are linked the other way round. -/
def reverseOnto : ℕ → (ι → Option ι) → Option ι → Option ι → Option ((ι → Option ι) × Option ι)
  | _, link, prev, none => some (link, prev)
  | 0, _, _, some _ => none
  | fuel + 1, link, prev, some bp =>
      reverseOnto fuel (Function.update link bp prev) (some bp) (link bp)

/-- The second loop of a pass, over the buckets below some one. -/
def collect (fuel : ℕ) (space : ℕ → Option ι) :
    ℕ → (ι → Option ι) → Option ι → Option ((ι → Option ι) × Option ι)
  | 0, link, prev => some (link, prev)
  | i + 1, link, prev =>
      (reverseOnto fuel link prev (space i)).bind fun (link, prev) => collect fuel space i link prev

/-- A pass over a list that is linked by `link`. -/
def passOver (digit : ι → ℕ) (fuel : ℕ) (link : ι → Option ι) (bp : Option ι) :
    Option ((ι → Option ι) × Option ι) :=
  (distribute digit fuel link (fun _ => none) bp).bind fun (link, space) =>
    collect fuel space (UCHAR_MAX + 1) link none

/-- `unlocked_radix_pass`, over the elements of `build_sync_list`, each of which has a buffer. -/
def unlockedRadixPass (buf : ι → β) (bno : β → BitVec 32) (fuel i : ℕ) (link : ι → Option ι)
    (bp : Option ι) : Option ((ι → Option ι) × Option ι) :=
  passOver (fun el => octet (bno (buf el)) i) fuel link bp

/-- `radix_pass`, over the buffers. -/
def radixPass (bno : ι → BitVec 32) (fuel i : ℕ) (link : ι → Option ι) (bp : Option ι) :
    Option ((ι → Option ι) × Option ι) :=
  passOver (fun b => octet (bno b) i) fuel link bp

/-- The size of a `daddr_t`. -/
def DADDR_SIZE : ℕ := 4

/-- The loop of `general_sync` over the octets. -/
def sortPasses (pass : ℕ → (ι → Option ι) → Option ι → Option ((ι → Option ι) × Option ι))
    (link : ι → Option ι) (head : Option ι) : Option ((ι → Option ι) × Option ι) :=
  (List.range DADDR_SIZE).foldlM (fun (link, head) i => pass i link head) (link, head)

end defs

variable {ι β : Type*} [DecidableEq ι] {digit : ι → ℕ} {link : ι → Option ι}
  {space : ℕ → Option ι} {head prev : Option ι} {l acc b : List ι} {bs : ℕ → List ι} {fuel n : ℕ}

/-! ### What the loops do -/

/-- **The first loop.** -/
theorem distribute_spec (h : Lib.Linked link head l) (hnodup : l.Nodup) (hfuel : l.length ≤ fuel)
    (hbs : ∀ d, Lib.Linked link (space d) (bs d)) (hdigit : ∀ d, ∀ x ∈ bs d, digit x = d)
    (hout : ∀ d, ∀ x ∈ bs d, x ∉ l) : ∃ link' space',
    distribute digit fuel link space head = some (link', space') ∧
      ∀ d, Lib.Linked link' (space' d) ((l.filter fun x => digit x = d).reverse ++ bs d) := by
  induction l generalizing link space head bs fuel with
  | nil =>
    rw [Lib.Linked] at h
    subst h
    refine ⟨link, space, ?_, hbs⟩
    cases fuel <;> rfl
  | cons x l ih =>
    obtain ⟨rfl, h⟩ := h
    obtain ⟨hx, hnodup⟩ := List.nodup_cons.mp hnodup
    obtain ⟨fuel, rfl⟩ : ∃ k, fuel = k + 1 := ⟨fuel - 1, by rw [List.length_cons] at hfuel; omega⟩
    have hnew : ∀ d, x ∉ bs d := fun d hd => hout d x hd List.mem_cons_self
    have hlink : Lib.Linked (Function.update link x (space (digit x))) (link x) l :=
      h.congr fun y hy => Function.update_of_ne (ne_of_mem_of_not_mem hy hx) _ _
    have hbs' : ∀ d, Lib.Linked (Function.update link x (space (digit x)))
        (Function.update space (digit x) (some x) d)
        (Function.update bs (digit x) (x :: bs (digit x)) d) := by
      intro d
      by_cases hdx : d = digit x
      · subst hdx
        rw [Function.update_self, Function.update_self]
        exact (hbs _).push (hnew _)
      · rw [Function.update_of_ne hdx, Function.update_of_ne hdx]
        exact (hbs d).congr fun y hy => Function.update_of_ne (ne_of_mem_of_not_mem hy (hnew d)) _ _
    have hmem : ∀ d, ∀ y ∈ Function.update bs (digit x) (x :: bs (digit x)) d,
        digit y = d ∧ y ∉ l := by
      intro d y hy
      have hold : y ∈ bs d → digit y = d ∧ y ∉ l :=
        fun hy => ⟨hdigit d y hy, fun hc => hout d y hy (List.mem_cons_of_mem _ hc)⟩
      by_cases hdx : d = digit x
      · subst hdx
        rw [Function.update_self] at hy
        rcases List.mem_cons.mp hy with rfl | hy
        · exact ⟨rfl, hx⟩
        · exact hold hy
      · rw [Function.update_of_ne hdx] at hy
        exact hold hy
    obtain ⟨link', space', hrun, hres⟩ := ih hlink hnodup (Nat.le_of_succ_le_succ hfuel) hbs'
      (fun d y hy => (hmem d y hy).1) fun d y hy => (hmem d y hy).2
    refine ⟨link', space', hrun, fun d => ?_⟩
    have hd := hres d
    by_cases hdx : digit x = d
    · subst hdx
      rw [Function.update_self] at hd
      rw [List.filter_cons_of_pos (by simp), List.reverse_cons, List.append_assoc]
      exact hd
    · rw [Function.update_of_ne (Ne.symm hdx)] at hd
      rwa [List.filter_cons_of_neg (by simpa using hdx)]

/-- One bucket of the second loop. -/
theorem reverseOnto_spec (hb : Lib.Linked link head b) (hacc : Lib.Linked link prev acc)
    (hnodup : (b ++ acc).Nodup) (hfuel : b.length ≤ fuel) : ∃ link' head',
    reverseOnto fuel link prev head = some (link', head') ∧
      Lib.Linked link' head' (b.reverse ++ acc) ∧ ∀ y, y ∉ b → link' y = link y := by
  induction b generalizing link head prev acc fuel with
  | nil =>
    rw [Lib.Linked] at hb
    subst hb
    refine ⟨link, prev, ?_, hacc, fun y _ => rfl⟩
    cases fuel <;> rfl
  | cons x b ih =>
    obtain ⟨rfl, hb⟩ := hb
    obtain ⟨hnew, -⟩ := List.nodup_cons.mp hnodup
    have hx : x ∉ b ∧ x ∉ acc := not_or.mp (mt List.mem_append.mpr hnew)
    obtain ⟨fuel, rfl⟩ : ∃ k, fuel = k + 1 := ⟨fuel - 1, by rw [List.length_cons] at hfuel; omega⟩
    have hmoved : (b ++ x :: acc).Nodup := (List.perm_middle.nodup_iff).mpr hnodup
    obtain ⟨link', head', hrun, hlinked, hframe⟩ := ih
      (hb.congr fun y hy => Function.update_of_ne (ne_of_mem_of_not_mem hy hx.1) prev link)
      (hacc.push hx.2) hmoved (Nat.le_of_succ_le_succ hfuel)
    refine ⟨link', head', hrun, ?_, fun y hy => ?_⟩
    · rw [List.reverse_cons, List.append_assoc]
      exact hlinked
    · rw [List.mem_cons, not_or] at hy
      rw [hframe y hy.2, Function.update_of_ne hy.1]

/-- **The second loop.** -/
theorem collect_spec (hbs : ∀ d < n, Lib.Linked link (space d) (bs d))
    (hdigit : ∀ d < n, ∀ x ∈ bs d, digit x = d) (hnodup : ∀ d < n, (bs d).Nodup)
    (hfuel : ∀ d < n, (bs d).length ≤ fuel) (hacc : Lib.Linked link prev acc) (haccnd : acc.Nodup)
    (hlater : ∀ x ∈ acc, n ≤ digit x) : ∃ link' head',
    collect fuel space n link prev = some (link', head') ∧
      Lib.Linked link' head' ((List.range n).flatMap (fun d => (bs d).reverse) ++ acc) := by
  induction n generalizing link prev acc with
  | zero => exact ⟨link, prev, rfl, hacc⟩
  | succ n ih =>
    have hn := Nat.lt_succ_self n
    have hdisj : ∀ x ∈ bs n, x ∉ acc := by
      intro x hx hc
      have := hlater x hc
      rw [hdigit n hn x hx] at this
      omega
    have hnd : (bs n ++ acc).Nodup :=
      List.nodup_append.mpr ⟨hnodup n hn, haccnd, fun x hx y hy hxy => hdisj x hx (hxy ▸ hy)⟩
    obtain ⟨link₁, head₁, hrun, hlinked, hframe⟩ :=
      reverseOnto_spec (hbs n hn) hacc hnd (hfuel n hn)
    have hbs₁ : ∀ d < n, Lib.Linked link₁ (space d) (bs d) := by
      intro d hd
      refine (hbs d (by omega)).congr fun x hx => hframe x fun hc => ?_
      have h₁ := hdigit d (by omega) x hx
      have h₂ := hdigit n hn x hc
      omega
    have hlater₁ : ∀ x ∈ (bs n).reverse ++ acc, n ≤ digit x := by
      intro x hx
      rcases List.mem_append.mp hx with hx | hx
      · rw [hdigit n hn x (List.mem_reverse.mp hx)]
      · exact (Nat.le_succ n).trans (hlater x hx)
    obtain ⟨link', head', hrest, hres⟩ := ih hbs₁ (fun d hd => hdigit d (by omega))
      (fun d hd => hnodup d (by omega)) (fun d hd => hfuel d (by omega)) hlinked
      (((List.reverse_perm _).append_right acc).nodup_iff.mpr hnd) hlater₁
    refine ⟨link', head', ?_, ?_⟩
    · rw [collect, hrun]
      exact hrest
    · rw [List.range_succ, List.flatMap_append, List.flatMap_singleton, List.append_assoc]
      exact hres

/-- **A pass** makes the list of the buckets, one after the other. -/
theorem passOver_spec (h : Lib.Linked link head l) (hnodup : l.Nodup) (hfuel : l.length ≤ fuel)
    (digit : ι → ℕ) : ∃ link' head', passOver digit fuel link head = some (link', head') ∧
      Lib.Linked link' head' (buckets digit (UCHAR_MAX + 1) l) := by
  have hempty : ∀ d : ℕ, Lib.Linked link ((fun _ => none : ℕ → Option ι) d) ((fun _ => []) d) :=
    fun _ => rfl
  obtain ⟨link₁, space, hrun, hbuckets⟩ := distribute_spec h hnodup hfuel hempty
    (fun _ x hx => absurd hx List.not_mem_nil) fun _ x hx => absurd hx List.not_mem_nil
  simp only [List.append_nil] at hbuckets
  have hdigit : ∀ d < UCHAR_MAX + 1, ∀ x ∈ (l.filter fun x => digit x = d).reverse, digit x = d :=
    fun d _ x hx => of_decide_eq_true (List.mem_filter.mp (List.mem_reverse.mp hx)).2
  have hlen : ∀ d < UCHAR_MAX + 1, (l.filter fun x => digit x = d).reverse.length ≤ fuel := by
    intro d _
    rw [List.length_reverse]
    exact (List.length_filter_le _ _).trans hfuel
  have hstart : Lib.Linked link₁ none ([] : List ι) := rfl
  obtain ⟨link', head', hcollect, hlinked⟩ := collect_spec (fun d _ => hbuckets d) hdigit
    (fun d _ => List.nodup_reverse.mpr (hnodup.filter _)) hlen hstart List.nodup_nil
    fun x hx => absurd hx List.not_mem_nil
  refine ⟨link', head', ?_, ?_⟩
  · rw [passOver, hrun]
    exact hcollect
  · simp only [List.append_nil, List.reverse_reverse] at hlinked
    exact hlinked

/-! ### The sort -/

/-- The passes over the lowest octets sort by the rest of the block number. -/
theorem passes_spec (h : Lib.Linked link head l) (hnodup : l.Nodup) (hfuel : l.length ≤ fuel)
    (key : ι → BitVec 32) (n : ℕ) : ∃ link' head' l',
    (List.range n).foldlM (fun (link, head) i => passOver (fun x => octet (key x) i) fuel link head)
      (link, head) = some (link', head') ∧ Lib.Linked link' head' l' ∧
      StableSort (fun x => (key x).toNat % (UCHAR_MAX + 1) ^ n) l l' := by
  induction n with
  | zero => exact ⟨link, head, l, rfl, h, StableSort.start _ _ l⟩
  | succ n ih =>
    obtain ⟨link₁, head₁, l₁, hrun, hlinked, hsort⟩ := ih
    have hperm := hsort.perm
    obtain ⟨link', head', hpass, hres⟩ := passOver_spec hlinked (hperm.nodup_iff.mpr hnodup)
      (hperm.length_eq ▸ hfuel) fun x => octet (key x) n
    refine ⟨link', head', _, ?_, hres, hsort.digits (Nat.succ_pos _)⟩
    rw [List.range_succ, List.foldlM_append, hrun]
    show (passOver (fun x => octet (key x) n) fuel link₁ head₁).bind some = _
    rw [hpass]
    rfl

/-- **Four passes** sort by the whole block number. -/
theorem sortPasses_spec (h : Lib.Linked link head l) (hnodup : l.Nodup) (hfuel : l.length ≤ fuel)
    (key : ι → BitVec 32) : ∃ link' head' l',
    sortPasses (fun i => passOver (fun x => octet (key x) i) fuel) link head =
      some (link', head') ∧ Lib.Linked link' head' l' ∧
        StableSort (fun x => (key x).toNat) l l' := by
  obtain ⟨link', head', l', hrun, hlinked, hsort⟩ := passes_spec h hnodup hfuel key DADDR_SIZE
  refine ⟨link', head', l', hrun, hlinked, ?_⟩
  have hkey : (fun x => (key x).toNat % (UCHAR_MAX + 1) ^ DADDR_SIZE) =
      fun x => (key x).toNat := by
    ext x
    exact Nat.mod_eq_of_lt (key x).isLt
  rwa [hkey] at hsort

/-- **The radix sort** of a list of elements with buffers: it has the elements of the list, in the
    order of their block numbers, and elements with one block number have kept their order.  The
    passes over the buffers themselves make the same list of buffers. -/
theorem radix_sorts [DecidableEq β] (buf : ι → β) (bno : β → BitVec 32) (link : ι → Option ι)
    (head : Option ι) (els : List ι) (h : Lib.Linked link head els) (hnodup : els.Nodup)
    (hfuel : els.length ≤ fuel) : ∃ link' head' els',
    sortPasses (unlockedRadixPass buf bno fuel) link head = some (link', head') ∧
      Lib.Linked link' head' els' ∧ els'.Perm els ∧
      (els'.Pairwise fun a b => (bno (buf a)).toNat ≤ (bno (buf b)).toNat) ∧
      (∀ v, (els'.filter fun a => (bno (buf a)).toNat = v) =
        els.filter fun a => (bno (buf a)).toNat = v) ∧
      ∀ (bSort : β → Option β) (bp : Option β), Lib.Linked bSort bp (els.map buf) →
        (els.map buf).Nodup → ∃ bSort' bp',
          sortPasses (radixPass bno fuel) bSort bp = some (bSort', bp') ∧
            Lib.Linked bSort' bp' (els'.map buf) := by
  obtain ⟨link', head', els', hrun, hlinked, hsort⟩ :=
    sortPasses_spec h hnodup hfuel fun el => bno (buf el)
  refine ⟨link', head', els', hrun, hlinked, hsort.perm, hsort.sorted, hsort.stable,
    fun bSort bp hb hbnodup => ?_⟩
  obtain ⟨bSort', bp', bufs, hrun', hlinked', hsort'⟩ :=
    sortPasses_spec hb hbnodup ((List.length_map buf).le.trans hfuel) bno
  refine ⟨bSort', bp', hrun', ?_⟩
  have hmap : StableSort (fun b => (bno b).toNat) (els.map buf) (els'.map buf) :=
    StableSort.map (f := buf) hsort
  have hsame : els'.map buf = bufs :=
    StableSort.unique hmap hsort'
  rw [hsame]
  exact hlinked'

/-- Three elements, for the blocks 768, 5 and 768. -/
theorem radix_sorts_three : ∃ link' head' els',
    sortPasses (unlockedRadixPass (fun i : Fin 3 => i) (![0x300, 5, 0x300] : Fin 3 → BitVec 32) 3)
      ![some 1, some 2, none] (some 0) = some (link', head') ∧
      Lib.Linked link' head' els' ∧ els'.Perm [0, 1, 2] := by
  obtain ⟨link', head', els', hrun, hlinked, hperm, -⟩ := radix_sorts (fun i : Fin 3 => i)
    (![0x300, 5, 0x300] : Fin 3 → BitVec 32) ![some 1, some 2, none] (some 0) [0, 1, 2]
    ⟨rfl, rfl, rfl, rfl⟩ (by decide) (le_refl 3)
  exact ⟨link', head', els', hrun, hlinked, hperm⟩

/-- **The order of `State.syncStep`** is that of the passes. -/
theorem radix_mergeSort (bno : ι → BitVec 32) (h : Lib.Linked link head l) (hnodup : l.Nodup)
    (hfuel : l.length ≤ fuel) : ∃ link' head',
    sortPasses (radixPass bno fuel) link head = some (link', head') ∧
      Lib.Linked link' head' (l.mergeSort fun a b => decide ((bno a).toNat ≤ (bno b).toNat)) := by
  obtain ⟨link', head', l', hrun, hlinked, hsort⟩ := sortPasses_spec h hnodup hfuel bno
  refine ⟨link', head', hrun, ?_⟩
  rw [StableSort.unique (StableSort.mergeSort (fun a => (bno a).toNat) l) hsort]
  exact hlinked

end CohKernel.Bio
