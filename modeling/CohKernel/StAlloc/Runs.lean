import CohKernel.Lib.Instances
import CohKernel.StAlloc.Realloc

namespace CohKernel.StAlloc

open CohKernel.Lib

/-!
# Runs of the heap

A heap together with the ledger of its clients: which payload addresses are live and how many
bytes were asked for.  `Reachable ok` are the states that `st_ctor` and any sequence of calls
lead to, as long as every call meets the condition `ok`.

* `Ledger` — the invariant of a run: every live entry is a used block of the right size;
* `Heap.call_ledger` — one call keeps it and has the effect `Effect` describes;
* `Reachable.ledger` — every reachable state has it.
-/

/-- A heap and its live allocations: payload word address and requested size in bytes. -/
structure Heap where
  q : HeapControl
  live : List (ℕ × ℕ)

/-- What a client may do; `store` writes a word of its own payload. -/
inductive Call where
  | alloc (size : ℕ)
  | free (a size : ℕ)
  | realloc (a newsize oldsize : ℕ)
  | store (w : ℕ) (v : ℤ)

/-- Clients only name live blocks, with the size they asked for; sizes are `size_t`. -/
def Call.Legal (h : Heap) : Call → Prop
  | .alloc size => size < 2 ^ 32
  | .free a size => (a, size) ∈ h.live
  | .realloc a newsize oldsize => (a, oldsize) ∈ h.live ∧ newsize < 2 ^ 32
  | .store w _ => ∃ p ∈ h.live, p.1 ≤ w ∧ w + 1 < p.1 + blockWords p.2

/-- One call, and what its client learns from the result. -/
def Heap.call (h : Heap) : Call → Option Heap
  | .alloc size => do
      let (p, q) ← stAlloc h.q size
      some ⟨q, if p = 0 then h.live else (p, size) :: h.live⟩
  | .free a size => do
      let (r, q) ← stFree h.q a size
      some ⟨q, if r = 0 then h.live.erase (a, size) else h.live⟩
  | .realloc a newsize oldsize => do
      let (r, q) ← stRealloc h.q a newsize oldsize
      some ⟨q, if 0 < r then (r.toNat, newsize) :: h.live.erase (a, oldsize) else h.live⟩
  | .store w v => some ⟨{ h.q with mem := Function.update h.q.mem w v }, h.live⟩

instance (h : Heap) (c : Call) : Decidable (c.Legal h) := by
  cases c <;> unfold Call.Legal <;> infer_instance

/-- The states a heap can reach when every call meets `ok`.  The control arrays and the arena
    may hold anything when `st_ctor` is called. -/
inductive Reachable (ok : Heap → Call → Prop) : Heap → Prop
  | ctor {biggest : ℕ → ℤ} {first : ℕ → ℕ} {mem : ℕ → ℤ} {m arensize arenabase : ℕ}
      {q : HeapControl} : arenabase + arensize ≤ 2 ^ 30 →
      stCtor biggest first mem (2 ^ m) arensize arenabase = some q → Reachable ok ⟨q, []⟩
  | call {h h' : Heap} {c : Call} : Reachable ok h → c.Legal h → ok h c → h.call c = some h' →
      Reachable ok h'

/-- The condition on a call: the request does not wrap around to a block of no words, and a
    resized block's new free right neighbour is entered into the tables. -/
def Enters (h : Heap) : Call → Prop
  | .alloc size => 1 ≤ blockWords size
  | .realloc a newsize _ => 1 ≤ blockWords newsize ∧
      ReallocEntered h.q (a - 1) (blockWords newsize)
  | _ => True

/-- The invariant of a run, with the block starts as a ghost. -/
structure Ledger (h : Heap) (S : ℕ → Prop) : Prop where
  inv : Inv h.q S
  sentinel : h.q.arenaBase < h.q.arenaEnd → h.q.mem h.q.arenaBase < 0
  nodup : (h.live.map Prod.fst).Nodup
  block : ∀ p ∈ h.live, h.q.arenaBase + 1 < p.1 ∧ S (p.1 - 1) ∧
    h.q.mem (p.1 - 1) = usedWord (blockWords p.2) ∧ 1 ≤ blockWords p.2

variable {h : Heap} {S : ℕ → Prop}

/-- A live entry's block: its size, and that it is used. -/
theorem Ledger.size (hl : Ledger h S) {p : ℕ × ℕ} (hp : p ∈ h.live) :
    blockSize (h.q.mem (p.1 - 1)) = blockWords p.2 ∧ h.q.mem (p.1 - 1) < 0 := by
  obtain ⟨-, -, hw, -⟩ := hl.block p hp
  have hlt := blockWords_lt p.2
  rw [hw]
  have := blockSize_usedWord (n := (blockWords p.2 : ℤ)) (by omega) (by omega)
  exact ⟨by omega, usedWord_neg _⟩

theorem Ledger.used_base (hl : Ledger h S) {p : ℕ × ℕ} (hp : p ∈ h.live) :
    h.q.mem h.q.arenaBase < 0 := by
  obtain ⟨hlo, hS, -, -⟩ := hl.block p hp
  have := hl.inv.blocks.tiling.lt_hi hS
  exact hl.sentinel (by omega)

/-! ### The effect of a call on the live blocks -/

/-- The words of the payload of a live block. -/
def InPayload (p : ℕ × ℕ) (w : ℕ) : Prop := p.1 ≤ w ∧ w + 1 < p.1 + blockWords p.2

/-- What a call does to the payloads: a live block that it does not name stays live with its
    contents; a successful `st_realloc` keeps the words that fit; a failing one leaves the
    heap as it was, but for the sentinel cell of the index heap. -/
structure Effect (h h' : Heap) (c : Call) : Prop where
  others : ∀ p ∈ h.live, (∀ size, c ≠ .free p.1 size) → (∀ n o, c ≠ .realloc p.1 n o) →
    p ∈ h'.live ∧ ∀ w, InPayload p w → (∀ v, c ≠ .store w v) → h'.q.mem w = h.q.mem w
  realloc : ∀ a n o, c = .realloc a n o →
    (h'.live = h.live ∧ ∃ v, h'.q = { h.q with
      bucketBiggest := Function.update h.q.bucketBiggest 0 v }) ∨
    ∃ r, h'.live = (r, n) :: h.live.erase (a, o) ∧
      ∀ i, InPayload (a, o) (a + i) → InPayload (r, n) (r + i) →
        h'.q.mem (r + i) = h.q.mem (a + i)

/-! ### One call -/

theorem mem_erase_live {live : List (ℕ × ℕ)} (hn : (live.map Prod.fst).Nodup) {a o : ℕ}
    (hm : (a, o) ∈ live) {p : ℕ × ℕ} : p ∈ live.erase (a, o) ↔ p ∈ live ∧ p.1 ≠ a := by
  rw [(List.Nodup.of_map _ hn).mem_erase_iff]
  constructor
  · rintro ⟨hne, hp⟩
    exact ⟨hp, fun heq => hne (List.inj_on_of_nodup_map hn hp hm heq)⟩
  · rintro ⟨hp, hne⟩
    exact ⟨fun heq => hne (by rw [heq]), hp⟩

/-- The entries whose blocks a call keeps stay in order. -/
theorem Ledger.of_keeps (hl : Ledger h S) {q' : HeapControl} {S' own : ℕ → Prop}
    {live' : List (ℕ × ℕ)} (hinv : Inv q' S') (hk : KeepsOthers h.q q' S S' own)
    (hs : SameArena { h.q with mem := q'.mem } q') (hbase : ¬ own h.q.arenaBase)
    (hsub : live'.Sublist h.live) (hown : ∀ p ∈ live', ¬ own (p.1 - 1)) :
    Ledger ⟨q', live'⟩ S' := by
  refine ⟨hinv, ?_, hl.nodup.sublist (hsub.map _), ?_⟩
  · intro hlt
    rw [hs.arenaBase, hs.arenaEnd] at hlt
    have hSb := hl.inv.blocks.tiling.start hlt
    have hpos := hl.inv.blocks.tiling.pos hSb
    have hkb := hk _ hSb (hl.sentinel hlt) hbase
    rw [hs.arenaBase]
    change q'.mem h.q.arenaBase < 0
    rw [hkb.2 _ le_rfl (by omega)]
    exact hl.sentinel hlt
  · intro p hp
    obtain ⟨hlo, hS, hw, hn⟩ := hl.block p (hsub.subset hp)
    have hused := (hl.size (hsub.subset hp)).2
    have hpos := hl.inv.blocks.tiling.pos hS
    have hkp := hk _ hS hused (hown p hp)
    refine ⟨by rw [hs.arenaBase]; exact hlo, hkp.1, ?_, hn⟩
    change q'.mem (p.1 - 1) = _
    rw [hkp.2 _ le_rfl (by omega)]
    exact hw

/-- A new entry for a used block that has none. -/
theorem Ledger.cons {q : HeapControl} {live : List (ℕ × ℕ)} (hl : Ledger ⟨q, live⟩ S)
    {l size : ℕ} (hbase : q.arenaBase < l) (hS : S l) (hw : q.mem l = usedWord (blockWords size))
    (hn : 1 ≤ blockWords size) (hnew : ∀ p ∈ live, p.1 - 1 ≠ l) :
    Ledger ⟨q, (l + 1, size) :: live⟩ S := by
  refine ⟨hl.inv, hl.sentinel, ?_, ?_⟩
  · rw [List.map_cons, List.nodup_cons]
    refine ⟨fun hmem => ?_, hl.nodup⟩
    obtain ⟨p, hp, heq⟩ := List.mem_map.mp hmem
    exact hnew p hp (by omega)
  · intro p hp
    rcases List.mem_cons.mp hp with rfl | hp
    · exact ⟨by exact Nat.add_lt_add_right hbase 1, hS, hw, hn⟩
    · exact hl.block p hp

/-- The words of a live block that a call keeps. -/
theorem Ledger.payload_kept (hl : Ledger h S) {q' : HeapControl} {S' own : ℕ → Prop}
    (hk : KeepsOthers h.q q' S S' own) {p : ℕ × ℕ} (hp : p ∈ h.live) (hown : ¬ own (p.1 - 1)) :
    ∀ w, InPayload p w → q'.mem w = h.q.mem w := by
  obtain ⟨hlo, hS, -, -⟩ := hl.block p hp
  obtain ⟨hsz, hused⟩ := hl.size hp
  intro w ⟨h1, h2⟩
  exact (hk _ hS hused hown).2 w (by omega) (by omega)

theorem Ledger.alloc (hl : Ledger h S) {size : ℕ} (hn : 1 ≤ blockWords size) :
    ∃ h' S', h.call (.alloc size) = some h' ∧ Ledger h' S' ∧ Effect h h' (.alloc size) := by
  rcases stAlloc_spec hl.inv hn with ⟨-, hnone⟩ | ⟨scan, r, q', hq', hSs, hfree, hr, hfit, hs, hinv⟩
  · refine ⟨h, S, ?_, hl, fun p hp _ _ => ⟨hp, fun _ _ _ => rfl⟩, fun a n o hc => by cases hc⟩
    simp [Heap.call, hnone]
  · have hkeep := hl.inv.alloc_keeps hSs hfree hr hn hfit hs
    have hl' := hl.of_keeps hinv hkeep ⟨hs.1, hs.2, hs.3, hs.4, hs.5, rfl⟩ (fun hf => hf)
      (List.Sublist.refl _) (fun _ _ hf => hf)
    have hbase : h.q.arenaBase < scan := by
      have hlo := hl.inv.blocks.tiling.lo_le hSs
      rcases Nat.eq_or_lt_of_le hlo with heq | hlt
      · have := hl.sentinel (heq ▸ hl.inv.blocks.tiling.lt_hi hSs)
        rw [heq] at this
        omega
      · exact hlt
    have hw : q'.mem scan = usedWord (blockWords size) := by
      rw [hs.mem]
      simp only
      rw [cutMem_left (by omega)]
      congr 1
      omega
    refine ⟨⟨q', (scan + 1, size) :: h.live⟩, _, ?_, hl'.cons (by rw [hs.arenaBase]; exact hbase)
      Recut.mem_left hw hn ?_, fun p hp _ _ => ⟨List.mem_cons_of_mem _ hp, fun w hw _ =>
        hl.payload_kept hkeep hp (fun hf => hf) w hw⟩, fun a n o hc => by cases hc⟩
    · simp [Heap.call, hq']
    · rintro p hp heq
      have := (hl.size hp).2
      rw [heq] at this
      omega

theorem Ledger.free (hl : Ledger h S) {a size : ℕ} (hm : (a, size) ∈ h.live) :
    ∃ h' S', h.call (.free a size) = some h' ∧ Ledger h' S' ∧ Effect h h' (.free a size) := by
  obtain ⟨hlo, hS, hw, hn⟩ := hl.block _ hm
  obtain ⟨hsz, hused⟩ := hl.size hm
  simp only at hlo hS hw hsz hused
  obtain ⟨q', l, r, hq', hSl, hla, har, hrun, hmem, hs, hinv⟩ :=
    stFree_spec hl.inv hS (by omega) hused _ hsz
  rw [Nat.sub_add_cancel (by omega)] at hq'
  have hkeep := hl.inv.free_keeps hSl hla har hrun hmem
  have hother : ∀ p ∈ h.live, p.1 ≠ a → p.1 - 1 ≠ a - 1 := by
    intro p hp hne
    have := (hl.block p hp).1
    omega
  refine ⟨⟨q', h.live.erase (a, size)⟩, _, ?_, hl.of_keeps hinv hkeep hs (by omega)
    List.erase_sublist ?_, ?_, fun a n o hc => by cases hc⟩
  · simp [Heap.call, hq']
  · intro p hp
    obtain ⟨hp, hne⟩ := (mem_erase_live hl.nodup hm).mp hp
    exact hother p hp hne
  · intro p hp hne _
    have hpa : p.1 ≠ a := fun heq => hne size (by rw [heq])
    exact ⟨(mem_erase_live hl.nodup hm).mpr ⟨hp, hpa⟩,
      fun w hw _ => hl.payload_kept hkeep hp (hother p hp hpa) w hw⟩

theorem Ledger.realloc (hl : Ledger h S) {a n o : ℕ} (hm : (a, o) ∈ h.live)
    (hn : 1 ≤ blockWords n) (hent : ReallocEntered h.q (a - 1) (blockWords n)) :
    ∃ h' S', h.call (.realloc a n o) = some h' ∧ Ledger h' S' ∧
      Effect h h' (.realloc a n o) := by
  obtain ⟨hlo, hS, hw, -⟩ := hl.block _ hm
  obtain ⟨hsz, hused⟩ := hl.size hm
  simp only at hlo hS hw hsz hused
  have hother : ∀ p ∈ h.live, p.1 ≠ a → p.1 - 1 ≠ a - 1 := by
    intro p hp hne
    have := (hl.block p hp).1
    omega
  rcases stRealloc_spec hl.inv hS (by omega) hused (hl.used_base hm) hsz hn hent with
    ⟨v, hq'⟩ | ⟨l, q', S', hq', hr⟩
  · rw [Nat.sub_add_cancel (by omega)] at hq'
    refine ⟨⟨_, h.live⟩, S, ?_, ⟨hl.inv.setSentinel v, hl.sentinel, hl.nodup, hl.block⟩,
      fun p hp _ _ => ⟨hp, fun _ _ _ => rfl⟩, ?_⟩
    · simp only [Heap.call, hq', Option.bind_eq_bind, Option.bind_some, lt_self_iff_false, if_false]
    · rintro _ _ _ ⟨⟩
      exact Or.inl ⟨rfl, v, rfl⟩
  · rw [Nat.sub_add_cancel (by omega)] at hq'
    have hl' := hl.of_keeps hr.inv hr.others hr.same (by omega)
      (List.erase_sublist (a := (a, o)) (l := h.live)) (fun p hp => by
        obtain ⟨hp, hne⟩ := (mem_erase_live hl.nodup hm).mp hp
        exact hother p hp hne)
    refine ⟨⟨q', (l + 1, n) :: h.live.erase (a, o)⟩, S', ?_,
      hl'.cons (by rw [hr.same.arenaBase]; exact hr.above) hr.start hr.word hn ?_, ?_, ?_⟩
    · have hpos : (0 : ℤ) < ((l + 1 : ℕ) : ℤ) := by omega
      simp only [Heap.call, hq', Option.bind_eq_bind, Option.bind_some, if_pos hpos,
        Int.toNat_natCast]
    · intro p hp
      obtain ⟨hp, hne⟩ := (mem_erase_live hl.nodup hm).mp hp
      exact hr.moved _ (hl.block p hp).2.1 (hl.size hp).2 (hother p hp hne)
    · intro p hp _ hne
      have hpa : p.1 ≠ a := fun heq => hne n o (by rw [heq])
      exact ⟨List.mem_cons_of_mem _ ((mem_erase_live hl.nodup hm).mpr ⟨hp, hpa⟩),
        fun w hw _ => hl.payload_kept hr.others hp (hother p hp hpa) w hw⟩
    · rintro _ _ _ ⟨⟩
      refine Or.inr ⟨l + 1, rfl, ?_⟩
      rintro i ⟨-, h1⟩ ⟨-, h2⟩
      simp only at h1 h2
      have := hr.contents i (by omega) (by omega)
      rw [Nat.sub_add_cancel (by omega)] at this
      exact this

theorem Ledger.store (hl : Ledger h S) {w : ℕ} {v : ℤ} (hc : (Call.store w v).Legal h) :
    ∃ h' S', h.call (.store w v) = some h' ∧ Ledger h' S' ∧ Effect h h' (.store w v) := by
  obtain ⟨p, hp, h1, h2⟩ := hc
  obtain ⟨hlo, hS, -, -⟩ := hl.block p hp
  obtain ⟨hsz, hused⟩ := hl.size hp
  -- `w` is not a control word
  have hctl : ∀ a, S a → a ≠ w := by
    rintro a ha rfl
    have : p.1 - 1 + blockSize (h.q.mem (p.1 - 1)) ≤ a :=
      hl.inv.blocks.tiling.gap hS ha (by omega)
    omega
  have hm : ∀ a, S a → Function.update h.q.mem w v a = h.q.mem a :=
    fun a ha => Function.update_of_ne (hctl a ha) _ _
  refine ⟨⟨{ h.q with mem := Function.update h.q.mem w v }, h.live⟩, S, rfl,
    ⟨hl.inv.setPayload hm, ?_, hl.nodup, ?_⟩, ?_, fun a n o hc => by cases hc⟩
  · intro hlt
    have hSb := hl.inv.blocks.tiling.start hlt
    change Function.update h.q.mem w v h.q.arenaBase < 0
    rw [hm _ hSb]
    exact hl.sentinel hlt
  · intro p' hp'
    obtain ⟨hlo', hS', hw', hn'⟩ := hl.block p' hp'
    refine ⟨hlo', hS', ?_, hn'⟩
    change Function.update h.q.mem w v (p'.1 - 1) = _
    rw [hm _ hS']
    exact hw'
  · intro p' hp' _ _
    refine ⟨hp', fun w' _ hne => Function.update_of_ne ?_ _ _⟩
    rintro rfl
    exact hne v rfl

/-- **One call** that meets the condition returns, keeps the ledger and touches no payload but
    its own. -/
theorem Heap.call_ledger (hl : Ledger h S) {c : Call} (hc : c.Legal h) (he : Enters h c) :
    ∃ h' S', h.call c = some h' ∧ Ledger h' S' ∧ Effect h h' c := by
  cases c with
  | alloc size => exact hl.alloc he
  | free a size => exact hl.free hc
  | realloc a n o => exact hl.realloc hc.1 he.1 he.2
  | store w v => exact hl.store hc

/-! ### Runs -/

/-- A run of legal calls; a call that does not return ends it. -/
def Heap.run (h : Heap) : List Call → Option Heap
  | [] => some h
  | c :: cs => if c.Legal h then (h.call c).bind fun h' => h'.run cs else none

theorem Reachable.run {cs : List Call} {h h' : Heap} (hr : Reachable (fun _ _ => True) h)
    (hrun : h.run cs = some h') : Reachable (fun _ _ => True) h' := by
  induction cs generalizing h with
  | nil => cases hrun; exact hr
  | cons c cs ih =>
    rw [Heap.run] at hrun
    split_ifs at hrun with hc
    obtain ⟨h₁, hcall, hrest⟩ := Option.bind_eq_some_iff.mp hrun
    exact ih (hr.call hc trivial hcall) hrest

theorem Reachable.mono {ok ok' : Heap → Call → Prop} (hok : ∀ h c, ok h c → ok' h c) {h : Heap}
    (hr : Reachable ok h) : Reachable ok' h := by
  induction hr with
  | ctor hspace hq => exact .ctor hspace hq
  | call _ hc he hcall ih => exact .call ih hc (hok _ _ he) hcall

/-- `st_ctor` returns a heap whose only block in use is the sentinel at its start, a word. -/
theorem stCtor_sentinel (biggest : ℕ → ℤ) (first : ℕ → ℕ) (mem : ℕ → ℤ) (m : ℕ)
    (arensize arenabase : ℕ) (hspace : arenabase + arensize ≤ 2 ^ 30) :
    ∃ q S, stCtor biggest first mem (2 ^ m) arensize arenabase = some q ∧ Ledger ⟨q, []⟩ S ∧
      (q.arenaBase < q.arenaEnd → blockSize (q.mem q.arenaBase) = 1) ∧
      ∀ a, S a → q.mem a < 0 → a = q.arenaBase := by
  set q₀ : HeapControl := HeapControl.blockSetFree
    { bucketsInuse := 1
      bucketsMaximum := 2 ^ m
      wordsPerBucket := (arensize + 2 ^ m - 1) / 2 ^ m
      arenaSize := arensize
      bucketBiggest := Function.update biggest 1 arensize
      bucketFirst := Function.update first 0 arenabase
      arenaBase := arenabase
      arenaEnd := arenabase + arensize
      heapError := none
      mem := mem } arenabase arensize with hq₀
  have hm : 0 < 2 ^ m := Nat.two_pow_pos m
  have hword : q₀.mem arenabase = arensize := by
    have hfw : freeWord (arensize : ℤ) = arensize := freeWord_eq (by omega) (by omega)
    rw [hq₀, HeapControl.blockSetFree]
    simp only
    rw [Function.update_self, hfw]
  have hsize : blockSize (q₀.mem arenabase) = arensize := by
    rw [hword]
    unfold blockSize
    omega
  have hfirst : ∀ k, q₀.firstOf k = if k = 0 then arenabase else arenabase + arensize := by
    intro k
    rcases Nat.eq_zero_or_pos k with rfl | hk
    · rfl
    · rw [HeapControl.firstOf, if_neg (not_lt.mpr (by exact hk)), if_neg (by omega)]
      rfl
  have hleaf : ∀ k, q₀.leafOf k = if k = 0 then (arensize : ℤ) else 0 := by
    intro k
    rcases Nat.eq_zero_or_pos k with rfl | hk
    · rfl
    · rw [HeapControl.leafOf, if_neg (not_lt.mpr (by exact hk)), if_neg (by omega)]
  have hbucket : q₀.heapBucket arenabase = 0 := by
    rw [HeapControl.heapBucket, hq₀, HeapControl.blockSetFree]
    simp
  -- one free block, unless the arena is empty
  have hinv : Inv q₀ (fun a => a = arenabase ∧ 0 < arensize) := by
    refine ⟨⟨⟨0, m, rfl, rfl, Nat.zero_le m⟩, rfl, hspace, ?_⟩, ⟨⟨?_, ?_, ?_, ?_, ?_, ?_⟩, ?_, ?_⟩,
      ?_, ?_, ?_⟩
    · change arensize ≤ (arensize + 2 ^ m - 1) / 2 ^ m * 2 ^ m
      have hdiv := Nat.div_add_mod (arensize + 2 ^ m - 1) (2 ^ m)
      have hmod := Nat.mod_lt (arensize + 2 ^ m - 1) hm
      rw [mul_comm] at hdiv
      omega
    · intro hlt
      exact ⟨rfl, by exact Nat.lt_add_right_iff_pos.mp hlt⟩
    · rintro a ⟨rfl, -⟩
      exact le_rfl
    · rintro a ⟨rfl, hpos⟩
      simp only [hsize]; exact hpos
    · rintro a ⟨rfl, -⟩
      simp only [hsize]; exact le_rfl
    · rintro a ⟨rfl, -⟩ hlt
      simp only [hsize] at hlt
      exact absurd hlt (lt_irrefl _)
    · rintro a b ⟨rfl, -⟩ ⟨rfl, -⟩ hlt
      exact absurd hlt (lt_irrefl _)
    · rintro a ⟨rfl, -⟩
      left
      rw [hsize, hword]
    · rintro a ⟨rfl, hpos⟩ ⟨heq, -⟩ _
      rw [hsize] at heq
      omega
    · intro i hi hlt
      change i < 1 at hlt
      omega
    · intro k
      rw [hfirst]
      by_cases hk : k = 0
      · subst hk
        rw [if_pos rfl]
        refine ⟨by rintro a ⟨rfl, -⟩ _; exact le_rfl, ?_⟩
        rcases Nat.eq_zero_or_pos arensize with h0 | hpos
        · refine Or.inr ((min_le_right _ _).trans ?_)
          change arenabase + arensize ≤ arenabase
          omega
        · exact Or.inl ⟨⟨rfl, hpos⟩, hbucket⟩
      · rw [if_neg hk]
        refine ⟨?_, Or.inr (min_le_right _ _)⟩
        rintro a ⟨rfl, -⟩ hb
        omega
    · intro k
      rw [hleaf]
      by_cases hk : k = 0
      · subst hk
        rw [if_pos rfl]
        refine ⟨by omega, ?_, ?_⟩
        · rintro a ⟨rfl, -⟩ _
          rw [hword]
        · rcases Nat.eq_zero_or_pos arensize with h0 | hpos
          · exact Or.inl (by omega)
          · exact Or.inr ⟨arenabase, ⟨rfl, hpos⟩, hbucket, hword⟩
      · rw [if_neg hk]
        refine ⟨le_rfl, ?_, Or.inl rfl⟩
        rintro a ⟨rfl, -⟩ hb
        omega
  have hctor : stCtor biggest first mem (2 ^ m) arensize arenabase
      = (stAlloc q₀ 0).bind fun r => some r.2 := rfl
  have hone : blockWords 0 = 1 := rfl
  rcases @stAlloc_spec _ _ hinv 0 (by norm_num [blockWords]) with
    ⟨hroot, hnone⟩ | ⟨scan, r, q', hq', hSs, -, hr, hfit, hs, hinv'⟩
  · -- an arena without a word
    have h1 : q₀.bucketBiggest 1 = arensize := rfl
    rw [h1, hone] at hroot
    have hempty : ¬ q₀.arenaBase < q₀.arenaEnd := by
      change ¬ arenabase < arenabase + arensize
      omega
    exact ⟨q₀, _, by rw [hctor, hnone]; rfl, ⟨hinv, fun hlt => absurd hlt hempty, List.nodup_nil,
      by simp⟩, fun hlt => absurd hlt hempty, fun a ha _ => ha.1⟩
  · obtain ⟨rfl, hpos⟩ := hSs
    have hbase : q'.mem q'.arenaBase = usedWord 1 := by
      rw [hs.mem, hs.arenaBase]
      change cutMem q₀.mem scan (scan + blockWords 0) r scan = _
      rw [cutMem_left (by omega), hone, Nat.cast_add, add_sub_cancel_left, Nat.cast_one]
    refine ⟨q', _, by rw [hctor, hq']; rfl, ⟨hinv', fun _ => hbase ▸ usedWord_neg 1,
      List.nodup_nil, by simp⟩, fun _ => hbase ▸ rfl, ?_⟩
    rintro a (⟨⟨rfl, -⟩, -⟩ | rfl | ⟨rfl, hlt⟩) hused
    · exact hs.arenaBase.symm
    · exact hs.arenaBase.symm
    · rw [hs.mem] at hused
      dsimp only at hused
      rw [cutMem_split hlt] at hused
      exact absurd hused (not_lt.mpr (Int.emod_nonneg _ (by norm_num)))

theorem stCtor_ledger (biggest : ℕ → ℤ) (first : ℕ → ℕ) (mem : ℕ → ℤ) (m : ℕ)
    (arensize arenabase : ℕ) (hspace : arenabase + arensize ≤ 2 ^ 30) :
    ∃ q S, stCtor biggest first mem (2 ^ m) arensize arenabase = some q ∧ Ledger ⟨q, []⟩ S := by
  obtain ⟨q, S, hq, hl, -⟩ := stCtor_sentinel biggest first mem m arensize arenabase hspace
  exact ⟨q, S, hq, hl⟩

/-- **Every reachable state** has a ledger, when every call has met the condition. -/
theorem Reachable.ledger {h : Heap} (hr : Reachable Enters h) : ∃ S, Ledger h S := by
  induction hr with
  | @ctor biggest first mem m arensize arenabase q hspace hq =>
    obtain ⟨q', S, hq', hl⟩ := stCtor_ledger biggest first mem m _ _ hspace
    cases hq.symm.trans hq'
    exact ⟨S, hl⟩
  | @call h h' c _ hc he hcall ih =>
    obtain ⟨S, hl⟩ := ih
    obtain ⟨h'', S', hcall', hl', -⟩ := Heap.call_ledger hl hc he
    cases hcall.symm.trans hcall'
    exact ⟨S', hl'⟩

end CohKernel.StAlloc
