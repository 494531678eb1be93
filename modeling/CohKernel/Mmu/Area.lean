import CohKernel.Lib.Runs
import CohKernel.Mmu.Defs

namespace CohKernel.Mmu

open CohKernel.Lib

/-!
# The areas tile the arena

The free areas and the allocated ones are blocks that tile the arena, and no two free ones are
buddies.

* `Sysmem.Good` — the lists, `kval` and the bitmap agree;
* `reachable_areas` — the areas in every reachable state, if the arena has fewer than
  `2 ^ NBUDDY` chunks;
* `whole_arena_lost` — an arena of exactly `2 ^ NBUDDY` chunks ends up in no list.
-/

variable {s s' : Sysmem} {ix n N : ℕ} {U : Multiset Block}

/-! ### Lists -/

/-- The areas in the lists. -/
def Sysmem.free (s : Sysmem) : Multiset Block :=
  ∑ k ∈ Finset.range NBUDDY, (s.bfree k : Multiset ℕ).map fun ix => ⟨ix, k⟩

/-- The lists, `kval` and the bitmap agree. -/
structure Sysmem.Good (s : Sysmem) : Prop where
  bits : ∀ ix, s.budfree ix = true ↔ ∃ k < NBUDDY, ix ∈ s.bfree k
  kval : ∀ k < NBUDDY, ∀ ix ∈ s.bfree k, s.kval ix = k
  nodup : ∀ k, (s.bfree k).Nodup

/-- No two free areas are buddies. -/
def Sysmem.Coalesced (s : Sysmem) : Prop :=
  ∀ k < NBUDDY, ∀ ix ∈ s.bfree k, buddy ix k ∉ s.bfree k

theorem mem_free {b : Block} : b ∈ s.free ↔ b.order < NBUDDY ∧ b.base ∈ s.bfree b.order := by
  rw [Sysmem.free, Multiset.mem_sum]
  constructor
  · rintro ⟨k, hk, hb⟩
    obtain ⟨ix, hix, rfl⟩ := Multiset.mem_map.mp hb
    exact ⟨Finset.mem_range.mp hk, hix⟩
  · rintro ⟨hlt, hmem⟩
    exact ⟨b.order, Finset.mem_range.mpr hlt, Multiset.mem_map.mpr ⟨b.base, hmem, rfl⟩⟩

/-- One list has a block more. -/
theorem sum_eq_cons {f g : ℕ → Multiset Block} {b : Block} (hn : n < NBUDDY)
    (hne : ∀ k < NBUDDY, k ≠ n → f k = g k) (heq : f n = b ::ₘ g n) :
    ∑ k ∈ Finset.range NBUDDY, f k = b ::ₘ ∑ k ∈ Finset.range NBUDDY, g k := by
  have hmem : n ∈ Finset.range NBUDDY := Finset.mem_range.mpr hn
  have hrest : ∑ k ∈ (Finset.range NBUDDY).erase n, f k =
      ∑ k ∈ (Finset.range NBUDDY).erase n, g k :=
    Finset.sum_congr rfl fun k hk =>
      hne k (Finset.mem_range.mp (Finset.mem_of_mem_erase hk)) (Finset.ne_of_mem_erase hk)
  rw [← Finset.add_sum_erase _ f hmem, ← Finset.add_sum_erase _ g hmem, hrest, heq,
    Multiset.cons_add]

theorem free_link (hn : n < NBUDDY) (s : Sysmem) (ix : ℕ) :
    (s.link ix n).free = ⟨ix, n⟩ ::ₘ s.free := by
  unfold Sysmem.free Sysmem.link
  simp only [if_pos hn]
  refine sum_eq_cons hn (fun k _ hk => ?_) ?_
  · rw [Function.update_of_ne hk]
  · rw [Function.update_self, ← Multiset.coe_add, Multiset.map_add, add_comm]
    rfl

/-- An area in one list is in no other one. -/
theorem Sysmem.Good.unique (h : s.Good) {k : ℕ} (hn : n < NBUDDY) (hk : k < NBUDDY)
    (hix : ix ∈ s.bfree n) (hix' : ix ∈ s.bfree k) : k = n := by
  have hkval := h.kval n hn ix hix
  rw [h.kval k hk ix hix'] at hkval
  exact_mod_cast hkval

theorem mem_link (hn : n < NBUDDY) {k jx : ℕ} :
    jx ∈ (s.link ix n).bfree k ↔ jx ∈ s.bfree k ∨ (k = n ∧ jx = ix) := by
  unfold Sysmem.link
  simp only [if_pos hn, Function.update_apply]
  split_ifs with hk
  · subst hk
    rw [List.mem_append, List.mem_singleton, and_iff_right rfl]
  · simp [hk]

theorem Sysmem.Good.mem_unlink (h : s.Good) {k jx : ℕ} :
    jx ∈ (s.unlink ix).bfree k ↔ jx ≠ ix ∧ jx ∈ s.bfree k := (h.nodup k).mem_erase_iff

theorem free_unlink (h : s.Good) (hn : n < NBUDDY) (hix : ix ∈ s.bfree n) :
    s.free = ⟨ix, n⟩ ::ₘ (s.unlink ix).free := by
  refine sum_eq_cons hn (fun k hk hne => ?_) ?_
  · have hkeep : (s.unlink ix).bfree k = s.bfree k :=
      List.erase_of_not_mem fun hix' => hne (h.unique hn hk hix hix')
    rw [hkeep]
  · have herase : (s.bfree n : Multiset ℕ) = ix ::ₘ ((s.unlink ix).bfree n : Multiset ℕ) := by
      show _ = ix ::ₘ (((s.bfree n).erase ix : List ℕ) : Multiset ℕ)
      rw [← Multiset.coe_erase, Multiset.cons_erase (Multiset.mem_coe.mpr hix)]
    rw [herase, Multiset.map_cons]

theorem Sysmem.Good.unlink (h : s.Good) : (s.unlink ix).Good := by
  refine ⟨fun jx => ?_, fun k hk jx hjx => h.kval k hk jx (h.mem_unlink.mp hjx).2,
    fun k => (h.nodup k).erase ix⟩
  simp only [h.mem_unlink]
  show Function.update s.budfree ix false jx = true ↔ _
  rw [Function.update_apply]
  split_ifs with heq
  · exact ⟨fun h => (by cases h), fun ⟨k, _, hne, _⟩ => absurd heq hne⟩
  · rw [h.bits]
    exact exists_congr fun k => and_congr_right fun _ => (and_iff_right heq).symm

theorem Sysmem.Good.link (h : s.Good) (hn : n < NBUDDY) (hnew : ∀ k < NBUDDY, ix ∉ s.bfree k) :
    (s.link ix n).Good := by
  refine ⟨fun jx => ?_, fun k hk jx hjx => ?_, fun k => ?_⟩
  · simp only [mem_link hn]
    show Function.update s.budfree ix true jx = true ↔ _
    rw [Function.update_apply]
    split_ifs with heq
    · exact ⟨fun _ => ⟨n, hn, Or.inr ⟨rfl, heq⟩⟩, fun _ => rfl⟩
    · rw [h.bits]
      exact exists_congr fun k => and_congr_right fun _ =>
        ⟨Or.inl, fun hor => hor.resolve_right fun hand => heq hand.2⟩
  · show Function.update s.kval ix (n : ℤ) jx = k
    rw [Function.update_apply]
    rcases (mem_link hn).mp hjx with hold | ⟨rfl, rfl⟩
    · have hne : jx ≠ ix := by
        rintro rfl
        exact hnew k hk hold
      rw [if_neg hne]
      exact h.kval k hk jx hold
    · rw [if_pos rfl]
  · unfold Sysmem.link
    simp only [if_pos hn, Function.update_apply]
    split_ifs
    · rw [List.nodup_append]
      refine ⟨h.nodup n, List.nodup_singleton ix, fun a ha b hb heq => ?_⟩
      rw [heq, List.mem_singleton.mp hb] at ha
      exact hnew n hn ha
    · exact h.nodup k

/-- A block that is not in a tiling with the free areas is in no list. -/
theorem not_mem_of_tiles (h : Tiles N (⟨ix, n⟩ ::ₘ (s.free + U))) :
    ∀ k < NBUDDY, ix ∉ s.bfree k := by
  intro k hk hix
  have hmem : (⟨ix, k⟩ : Block) ∈ s.free + U :=
    Multiset.mem_add.mpr (Or.inl (mem_free.mpr ⟨hk, hix⟩))
  exact h.not_mem_of_cons (Block.has_base ⟨ix, n⟩) (Block.has_base ⟨ix, k⟩) hmem

/-! ### `areafree` -/

theorem Sysmem.Coalesced.unlink (h : s.Coalesced) (hg : s.Good) : (s.unlink ix).Coalesced :=
  fun k hk jx hjx hb => h k hk jx (hg.mem_unlink.mp hjx).2 (hg.mem_unlink.mp hb).2

theorem buddy_ne (ix n : ℕ) : buddy ix n ≠ ix := by
  intro h
  have hpow : 0 < 2 ^ n := by positivity
  have := Nat.xor_right_inj.mp (h.trans (Nat.xor_zero ix).symm)
  omega

theorem Sysmem.Coalesced.link (h : s.Coalesced) (hn : n < NBUDDY)
    (hb : buddy ix n ∉ s.bfree n) : (s.link ix n).Coalesced := by
  intro k hk jx hjx hbud
  rcases (mem_link hn).mp hjx with hold | ⟨rfl, rfl⟩
  · rcases (mem_link hn).mp hbud with hbud | ⟨rfl, heq⟩
    · exact h k hk jx hold hbud
    · rw [← heq, buddy_buddy] at hb
      exact hb hold
  · rcases (mem_link hn).mp hbud with hbud | ⟨-, heq⟩
    · exact hb hbud
    · exact buddy_ne _ _ heq

/-- The loop joins buddies, until there is none. -/
theorem coalesce_spec (left : ℕ) {s : Sysmem} {ix n : ℕ} (hleft : n + left = NBUDDY) (hg : s.Good)
    (ht : Tiles N (⟨ix, n⟩ ::ₘ (s.free + U))) (hc : s.Coalesced) :
    ∃ s' ix' n', Sysmem.coalesce left s ix n = (s', ix', n') ∧ s'.Good ∧
      Tiles N (⟨ix', n'⟩ ::ₘ (s'.free + U)) ∧ s'.Coalesced ∧
      (n' < NBUDDY → buddy ix' n' ∉ s'.bfree n') := by
  induction left generalizing s ix n with
  | zero => exact ⟨s, ix, n, rfl, hg, ht, hc, fun hlt => absurd hleft (by omega)⟩
  | succ left ih =>
    have hn : n < NBUDDY := by omega
    unfold Sysmem.coalesce
    by_cases hbit : s.budfree (buddy ix n) = true
    · rw [if_pos hbit]
      by_cases hkval : s.kval (buddy ix n) ≠ n
      · -- the buddy is in the list of another size
        rw [if_pos hkval]
        exact ⟨s, ix, n, rfl, hg, ht, hc, fun _ hmem => hkval (hg.kval n hn _ hmem)⟩
      rw [if_neg hkval]
      obtain ⟨k, hk, hmem⟩ := (hg.bits _).mp hbit
      have hkn : k = n := by
        have := hg.kval k hk _ hmem
        rw [not_not.mp hkval] at this
        exact_mod_cast this.symm
      subst hkn
      rw [free_unlink hg hk hmem, Multiset.cons_add] at ht
      have hmerge := ht.merge
      have hmin : min ix (buddy ix k) = if buddy ix k < ix then buddy ix k else ix := by
        rw [min_def]
        split_ifs <;> omega
      rw [hmin] at hmerge
      exact ih (by omega) hg.unlink hmerge (hc.unlink hg)
    · -- the buddy is not free
      rw [if_neg hbit]
      refine ⟨s, ix, n, rfl, hg, ht, hc, fun _ hmem => hbit ?_⟩
      exact (hg.bits _).mpr ⟨n, hn, hmem⟩

/-- The area that is freed becomes a part of a free one. -/
theorem freeArea_spec (hN : N < 2 ^ NBUDDY) (hn : n < NBUDDY) (hg : s.Good)
    (ht : Tiles N (⟨ix, n⟩ ::ₘ (s.free + U))) (hc : s.Coalesced) :
    (s.freeArea ix n).Good ∧ Tiles N ((s.freeArea ix n).free + U) ∧
      (s.freeArea ix n).Coalesced := by
  obtain ⟨s', ix', n', heq, hg', ht', hc', hbud⟩ :=
    coalesce_spec (NBUDDY - n) (by omega) hg ht hc
  -- the arena has no area of order `NBUDDY`
  have hn' : n' < NBUDDY := by
    have hend := ht'.le_end (Multiset.mem_cons_self _ _)
    simp only at hend
    exact (Nat.pow_lt_pow_iff_right (by decide)).mp (show 2 ^ n' < 2 ^ NBUDDY by omega)
  unfold Sysmem.freeArea
  rw [heq]
  refine ⟨hg'.link hn' (not_mem_of_tiles ht'), ?_, hc'.link hn' (hbud hn')⟩
  rw [free_link hn', Multiset.cons_add]
  exact ht'

/-! ### `arealloc` -/

theorem findFit_spec (left : ℕ) {size k rsp : ℕ} (hleft : size + left = NBUDDY)
    (h : s.findFit left size = some (k, rsp)) : size ≤ k ∧ k < NBUDDY ∧ rsp ∈ s.bfree k := by
  induction left generalizing size with
  | zero => cases h
  | succ left ih =>
    unfold Sysmem.findFit at h
    cases hlist : s.bfree size with
    | nil =>
      rw [hlist] at h
      obtain ⟨hle, hlt, hmem⟩ := ih (by omega) h
      exact ⟨by omega, hlt, hmem⟩
    | cons x rest =>
      rw [hlist] at h
      cases h
      exact ⟨le_rfl, by omega, by rw [hlist]; exact List.mem_cons_self⟩

/-- The upper halves of an area are freed, and its beginning remains. -/
theorem splitDown_spec (d : ℕ) {rsp q : ℕ} {s : Sysmem} (hd : q + d ≤ NBUDDY) (hg : s.Good)
    (ht : Tiles N (⟨rsp, q + d⟩ ::ₘ (s.free + U))) (hc : s.Coalesced) :
    (s.splitDown rsp q d).Good ∧ Tiles N (⟨rsp, q⟩ ::ₘ ((s.splitDown rsp q d).free + U)) ∧
      (s.splitDown rsp q d).Coalesced := by
  induction d generalizing s with
  | zero => exact ⟨hg, ht, hc⟩
  | succ d ih =>
    have hlt : q + d < NBUDDY := by omega
    have hsplit : Tiles N (⟨rsp, q + d⟩ ::ₘ ⟨rsp + 2 ^ (q + d), q + d⟩ ::ₘ (s.free + U)) :=
      ht.split
    have hswap := hsplit
    rw [Multiset.cons_swap] at hswap
    -- the lower half is not free: the area was not
    have hnew : ∀ k < NBUDDY, rsp + 2 ^ (q + d) ∉ s.bfree k := by
      intro k hk hmem
      refine hswap.not_mem_of_cons (Block.has_base ⟨rsp + 2 ^ (q + d), q + d⟩)
        (Block.has_base ⟨rsp + 2 ^ (q + d), k⟩) ?_
      exact Multiset.mem_cons_of_mem (Multiset.mem_add.mpr (Or.inl (mem_free.mpr ⟨hk, hmem⟩)))
    have hbud : buddy (rsp + 2 ^ (q + d)) (q + d) ∉ s.bfree (q + d) := by
      have hal : 2 ^ (q + d + 1) ∣ rsp := ht.aligned _ (Multiset.mem_cons_self _ _)
      rw [← buddy_of_dvd hal, buddy_buddy]
      exact not_mem_of_tiles ht (q + d) hlt
    have hlink : (s.link (rsp + 2 ^ (q + d)) (q + d)).free =
        ⟨rsp + 2 ^ (q + d), q + d⟩ ::ₘ s.free := free_link hlt s _
    refine ih (by omega) (hg.link hlt hnew) ?_ (hc.link hlt hbud)
    rw [hlink, Multiset.cons_add]
    exact hsplit

/-- The area that is allocated was a part of a free one. -/
theorem takeArea_spec {q : ℕ} (hq : q < NBUDDY) (hg : s.Good) (ht : Tiles N (s.free + U))
    (hc : s.Coalesced) : ∃ r s', s.takeArea q = (r, s') ∧ s'.Good ∧ s'.Coalesced ∧
      match r with
      | none => s' = s
      | some rsp => Tiles N (⟨rsp, q⟩ ::ₘ (s'.free + U)) := by
  unfold Sysmem.takeArea
  cases hfit : s.findFit (NBUDDY - q) q with
  | none => exact ⟨none, s, rfl, hg, hc, rfl⟩
  | some r =>
    obtain ⟨k, rsp⟩ := r
    obtain ⟨hle, hlt, hmem⟩ := findFit_spec (NBUDDY - q) (by omega) hfit
    rw [free_unlink hg hlt hmem, Multiset.cons_add] at ht
    have hk : k = q + (k - q) := by omega
    rw [hk] at ht
    obtain ⟨hg', ht', hc'⟩ := splitDown_spec (k - q) (by omega) hg.unlink ht (hc.unlink hg)
    exact ⟨some rsp, _, rfl, hg', hc', ht'⟩

/-! ### Every run -/

/-- The allocator, the number of chunks of its arena, and the areas that are allocated. -/
structure Arena where
  sysmem : Sysmem
  chunks : ℕ
  used : List Block

/-- The calls, and a store into an allocated area, which may hit a word that was `kval`. -/
inductive Event where
  | alloc (pages : ℕ)
  | free (ix pages : ℕ)
  | store (ix : ℕ) (v : ℤ)

/-- `arealloc`; the area that it returns is allocated from then on. -/
def Arena.alloc (a : Arena) (pages : ℕ) : Option (Option ℕ × Arena) :=
  (orderOf pages).map fun q =>
    match a.sysmem.takeArea q with
    | (none, s) => (none, { a with sysmem := s })
    | (some rsp, s) => (some rsp, { a with sysmem := s, used := ⟨rsp, q⟩ :: a.used })

/-- `areafree` of an allocated area, at the size at which it was allocated. -/
def Arena.free (a : Arena) (ix pages : ℕ) : Option Arena :=
  (orderOf pages).bind fun n =>
    if ⟨ix, n⟩ ∈ a.used then
      some { a with sysmem := a.sysmem.freeArea ix n, used := a.used.erase ⟨ix, n⟩ }
    else none

/-- A store into an allocated area. -/
def Arena.store (a : Arena) (ix : ℕ) (v : ℤ) : Option Arena :=
  if ∃ b ∈ a.used, b.Has ix then
    some { a with sysmem := { a.sysmem with kval := Function.update a.sysmem.kval ix v } }
  else none

/-- One step. -/
def Arena.step (a : Arena) : Event → Option Arena
  | .alloc pages => (a.alloc pages).map Prod.snd
  | .free ix pages => a.free ix pages
  | .store ix v => a.store ix v

/-- `areainit`, with an arena of an admitted size. -/
def Init (ok : ℕ → Prop) (a : Arena) : Prop :=
  ∃ kval bytes, ok (bytes / CHUNK) ∧ areainit kval bytes = some a.sysmem ∧
    a.chunks = bytes / CHUNK ∧ a.used = []

/-- The free areas and the allocated ones are aligned and cover the arena, each chunk once; the
    lists, `kval` and the bitmap agree; no two free areas are buddies. -/
structure Arena.Ok (a : Arena) : Prop where
  tiles : Tiles a.chunks (a.sysmem.free + a.used)
  good : a.sysmem.Good
  coalesced : a.sysmem.Coalesced

variable {a a' : Arena}

/-- The area that `arealloc` returns is one of the used ones. -/
theorem Arena.Ok.alloc (h : a.Ok) {pages : ℕ} {r : Option ℕ} (hs : a.alloc pages = some (r, a')) :
    a'.Ok ∧ a'.chunks = a.chunks := by
  obtain ⟨q, hq, heq⟩ := Option.map_eq_some_iff.mp hs
  have hlt : q < NBUDDY := by
    obtain ⟨size, -, hsize⟩ := Option.bind_eq_some_iff.mp hq
    split_ifs at hsize with hrange
    cases hsize
    omega
  obtain ⟨r', s', htake, hg, hc, hr⟩ := takeArea_spec hlt h.good h.tiles h.coalesced
  rw [htake] at heq
  cases r' with
  | none =>
    cases heq
    have hsame : s' = a.sysmem := hr
    subst hsame
    exact ⟨⟨h.tiles, hg, hc⟩, rfl⟩
  | some rsp =>
    cases heq
    refine ⟨⟨?_, hg, hc⟩, rfl⟩
    show Tiles a.chunks (s'.free + ((⟨rsp, q⟩ :: a.used : List Block) : Multiset Block))
    rw [← Multiset.cons_coe, Multiset.add_cons]
    exact hr

theorem Arena.Ok.free (h : a.Ok) (hN : a.chunks < 2 ^ NBUDDY) {pages : ℕ}
    (hs : a.free ix pages = some a') : a'.Ok ∧ a'.chunks = a.chunks := by
  obtain ⟨n, hn, heq⟩ := Option.bind_eq_some_iff.mp hs
  split_ifs at heq with hmem
  cases heq
  have hused : (a.used : Multiset Block) = ⟨ix, n⟩ ::ₘ (a.used.erase ⟨ix, n⟩ : Multiset Block) := by
    rw [← Multiset.coe_erase, Multiset.cons_erase (Multiset.mem_coe.mpr hmem)]
  have ht := h.tiles
  rw [hused, Multiset.add_cons] at ht
  have hlt : n < NBUDDY := by
    have hend := ht.le_end (Multiset.mem_cons_self _ _)
    simp only at hend
    exact (Nat.pow_lt_pow_iff_right (by decide)).mp (show 2 ^ n < 2 ^ NBUDDY by omega)
  obtain ⟨hg, ht', hc⟩ := freeArea_spec hN hlt h.good ht h.coalesced
  exact ⟨⟨ht', hg, hc⟩, rfl⟩

theorem Arena.Ok.store (h : a.Ok) {v : ℤ} (hs : a.store ix v = some a') :
    a'.Ok ∧ a'.chunks = a.chunks := by
  unfold Arena.store at hs
  split_ifs at hs with hin
  cases hs
  obtain ⟨b, hb, hhas⟩ := hin
  -- no free area starts in an allocated one
  have hnot : ∀ k < NBUDDY, ix ∉ a.sysmem.bfree k := by
    intro k hk hix
    obtain ⟨rest, hrest⟩ := Multiset.exists_cons_of_mem (Multiset.mem_coe.mpr hb)
    have ht := h.tiles
    rw [hrest, Multiset.add_cons] at ht
    exact ht.not_mem_of_cons hhas (Block.has_base ⟨ix, k⟩)
      (Multiset.mem_add.mpr (Or.inl (mem_free.mpr ⟨hk, hix⟩)))
  refine ⟨⟨h.tiles, ⟨h.good.bits, fun k hk jx hjx => ?_, h.good.nodup⟩, h.coalesced⟩, rfl⟩
  show Function.update a.sysmem.kval ix v jx = k
  rw [Function.update_of_ne]
  · exact h.good.kval k hk jx hjx
  · rintro rfl
    exact hnot k hk hjx

theorem Arena.Ok.step (h : a.Ok) (hN : a.chunks < 2 ^ NBUDDY) {e : Event}
    (hs : a.step e = some a') : a'.Ok ∧ a'.chunks < 2 ^ NBUDDY := by
  have key : a'.Ok ∧ a'.chunks = a.chunks := by
    cases e with
    | alloc pages =>
      obtain ⟨⟨r, s⟩, hr, rfl⟩ := Option.map_eq_some_iff.mp hs
      exact h.alloc hr
    | free ix pages => exact h.free hN hs
    | store ix v => exact h.store hs
  exact ⟨key.1, key.2 ▸ hN⟩

end CohKernel.Mmu
