import CohKernel.Lib.Runs
import CohKernel.StAlloc.FirstFit

namespace CohKernel.Kmem

open CohKernel.Lib CohKernel.StAlloc

/-!
# The kernel's memory pool

`kmem_alloc` and `kmem_free` share the heap, the marker `dg_kmem_required` and the
synchronization variable `dg_kmem_sv`, all under `dg_kmem_lock`.  `SV_WAIT` releases the lock only
once the process is on the variable's list, so that one pass of a call is one step of a run.

* `Served` — the invariant of a run;
* `reachable_waiters` — the marker is the least request waited for, and nobody sleeps on a request
  that the heap could serve;
* `reachable_noLeak` — every used block is the sentinel's or a live one, and once nothing is
  live the arena is one free block again.
-/

/-- The flag of `kmem_alloc`. -/
inductive Flag where
  | sleep
  | noSleep
  deriving DecidableEq

/-- What the lock protects: the heap with its live blocks, `dg_kmem_required`, and the processes
    blocked on `dg_kmem_sv` with the sizes they ask for. -/
structure Pool where
  heap : Heap
  required : ℕ
  waiting : List (ℕ × ℕ)

/-- `kmem_alloc` for the process `p`, one pass of its loop: the address, or `0`, and then a
    caller that may sleep does.  A process that has been woken makes the next pass. -/
def kmemAlloc (k : Pool) (p size : ℕ) (flag : Flag) : Option (ℕ × Pool) :=
  if size = 0 then some (0, k)
  else do
    let (mem, q) ← stAlloc k.heap.q size
    if mem ≠ 0 then some (mem, { k with heap := ⟨q, (mem, size) :: k.heap.live⟩ })
    else if flag = .noSleep then some (mem, { k with heap := ⟨q, k.heap.live⟩ })
    else some (mem,
      { heap := ⟨q, k.heap.live⟩
        required := if k.required = 0 ∨ k.required > size then size else k.required
        waiting := k.waiting ++ [(p, size)] })

/-- `kmem_free`: the broadcast wakes every process on `dg_kmem_sv`. -/
def kmemFree (k : Pool) (a size : ℕ) : Option Pool := do
  let (r, q) ← stFree k.heap.q a size
  let heap : Heap := ⟨q, if r = 0 then k.heap.live.erase (a, size) else k.heap.live⟩
  if k.required > 0 ∧ k.required ≤ stMaxavail q then
    some { heap := heap, required := 0, waiting := [] }
  else some { k with heap := heap }

/-- A pass of `kmem_alloc`, a call of `kmem_free`, or a client that writes to its memory. -/
inductive Event where
  | alloc (p size : ℕ) (flag : Flag)
  | free (a size : ℕ)
  | store (w : ℕ) (v : ℤ)

def Pool.step (k : Pool) : Event → Option Pool
  | .alloc p size flag => (kmemAlloc k p size flag).map Prod.snd
  | .free a size => kmemFree k a size
  | .store w v => (k.heap.call (.store w v)).map fun heap => { k with heap := heap }

/-- A process on `dg_kmem_sv` does not run, requests do not wrap around, and clients only name
    their own blocks. -/
def Legal (k : Pool) : Event → Prop
  | .alloc p size _ => p ∉ k.waiting.map Prod.fst ∧ size + 7 < 2 ^ 32
  | .free a size => (a, size) ∈ k.heap.live
  | .store w v => (Call.store w v).Legal k.heap

instance (k : Pool) (e : Event) : Decidable (Legal k e) := by
  cases e <;> unfold Legal <;> infer_instance

/-- `KMEM_INIT` -/
def Start (k : Pool) : Prop :=
  ∃ biggest first mem m arensize arenabase q, arenabase + arensize ≤ 2 ^ 30 ∧
    stCtor biggest first mem (2 ^ m) arensize arenabase = some q ∧ k = ⟨⟨q, []⟩, 0, []⟩

variable {q q' : HeapControl} {S : ℕ → Prop} {k k' : Pool}

/-! ### The invariant -/

/-- The invariant of a run. -/
structure Served (k : Pool) : Prop where
  ledger : ∃ S, Ledger k.heap S
  /-- The sentinel's block has one word. -/
  base : k.heap.q.arenaBase < k.heap.q.arenaEnd →
    blockSize (k.heap.q.mem k.heap.q.arenaBase) = 1
  /-- A used block is the sentinel's or a live one. -/
  used : ∀ a, IsBlock k.heap.q a → k.heap.q.mem a < 0 → a ≠ k.heap.q.arenaBase →
    ∃ size, (a + 1, size) ∈ k.heap.live
  idle : k.waiting = [] → k.required = 0
  least : ∀ p ∈ k.waiting, 0 < k.required ∧ k.required ≤ p.2
  asked : k.waiting ≠ [] → k.required ∈ k.waiting.map Prod.snd
  /-- No free block is large enough for a process that sleeps. -/
  full : ∀ p ∈ k.waiting, p.2 + 7 < 2 ^ 32 ∧ k.heap.q.bucketBiggest 1 < blockWords p.2

/-- The root of the index heap is the size of a free block, or zero. -/
theorem root_attained (h : Inv q S) :
    q.bucketBiggest 1 = 0 ∨ ∃ a, S a ∧ 1 ≤ q.mem a ∧ q.mem a = q.bucketBiggest 1 := by
  have hroot : 0 ≤ q.bucketBiggest 1 :=
    h.index.node_nonneg le_rfl (by have := h.geometry.inuse_pos; omega)
  obtain ⟨n, hn⟩ : ∃ n : ℕ, q.bucketBiggest 1 = n := ⟨_, (Int.toNat_of_nonneg hroot).symm⟩
  rcases Nat.eq_zero_or_pos n with rfl | hpos
  · exact .inl hn
  · obtain ⟨node, scan, -, -, hS, -, hfit⟩ := h.descend hpos hn.ge
    have hle := h.le_root hS
    exact .inr ⟨scan, hS, by omega, by omega⟩

/-- A call that keeps the blocks of `h` keeps the sentinel's and the accounts of the others. -/
theorem base_kept {h : Heap} {S' : ℕ → Prop} (hl : Ledger h S)
    (hbase : h.q.arenaBase < h.q.arenaEnd → blockSize (h.q.mem h.q.arenaBase) = 1)
    (hs : SameArena { h.q with mem := q'.mem } q') {own : ℕ → Prop}
    (hk : KeepsOthers h.q q' S S' own) (hown : ¬ own h.q.arenaBase)
    (hlt : q'.arenaBase < q'.arenaEnd) : blockSize (q'.mem q'.arenaBase) = 1 := by
  have harena : q'.arenaBase = h.q.arenaBase := hs.arenaBase
  have hend : q'.arenaEnd = h.q.arenaEnd := hs.arenaEnd
  rw [harena, hend] at hlt
  have hSb := hl.inv.blocks.tiling.start hlt
  have hpos := hl.inv.blocks.tiling.pos hSb
  rw [harena, (hk _ hSb (hl.sentinel hlt) hown).2 _ le_rfl (by omega)]
  exact hbase hlt

/-- A successful allocation. -/
theorem Served.alloc (hk : Served k) {size mem : ℕ} (hn : 1 ≤ blockWords size) (hmem : mem ≠ 0)
    (halloc : stAlloc k.heap.q size = some (mem, q)) :
    Served { k with heap := ⟨q, (mem, size) :: k.heap.live⟩ } := by
  obtain ⟨S, hl⟩ := hk.ledger
  obtain ⟨h', S', hcall, hl', -⟩ := hl.alloc hn
  have hheap : h' = ⟨q, (mem, size) :: k.heap.live⟩ := by
    simp only [Heap.call, halloc, Option.bind_eq_bind, Option.bind_some, if_neg hmem] at hcall
    exact (Option.some.inj hcall).symm
  rcases stAlloc_spec hl.inv hn with ⟨-, hnone⟩ | ⟨scan, r, q', hq', hSs, hfree, hr, hfit, hs, hinv⟩
  · exact absurd (congrArg Prod.fst (Option.some.inj (halloc.symm.trans hnone))) hmem
  obtain ⟨rfl, rfl⟩ := Prod.mk.inj (Option.some.inj (halloc.symm.trans hq'))
  have hkeep := hl.inv.alloc_keeps hSs hfree hr hn hfit hs
  have hs' : SameArena { k.heap.q with mem := q.mem } q := ⟨hs.1, hs.2, hs.3, hs.4, hs.5, rfl⟩
  have hword := hl.inv.blocks.free_eq hl.inv.geometry.space hSs hfree
  -- the control words of the blocks after the call
  have hold : ∀ a, S a → a < scan ∨ r ≤ a → q.mem a = k.heap.q.mem a := by
    intro a _ hor
    rw [hs.mem]
    exact cutMem_outside (by omega) (by omega)
  have hrest : scan + blockWords size < r →
      q.mem (scan + blockWords size) = freeWord ((r : ℤ) - (scan + blockWords size : ℕ)) := by
    intro hlt
    rw [hs.mem]
    exact cutMem_split hlt
  refine ⟨⟨S', hheap ▸ hl'⟩, base_kept hl hk.base hs' hkeep (fun hf => hf), ?_, hk.idle, hk.least,
    hk.asked, ?_⟩
  · intro a ha hused hne
    rcases hinv.isBlock_iff.mp ha with ⟨hSa, hor⟩ | rfl | ⟨rfl, hlt⟩
    · rw [hold a hSa hor] at hused
      rw [hs.arenaBase] at hne
      obtain ⟨size', hlive⟩ := hk.used a (hl.inv.isBlock_iff.mpr hSa) hused hne
      exact ⟨size', List.mem_cons_of_mem _ hlive⟩
    · exact ⟨size, List.mem_cons_self ..⟩
    · rw [hrest hlt] at hused
      exact absurd hused (not_lt.mpr (Int.emod_nonneg _ (by norm_num)))
  · intro p hp
    obtain ⟨hfits, hroot⟩ := hk.full p hp
    refine ⟨hfits, lt_of_le_of_lt ?_ hroot⟩
    rcases root_attained hinv with h0 | ⟨a, ha, hpos, hav⟩
    · rw [h0]
      exact hl.inv.index.node_nonneg le_rfl (by have := hl.inv.geometry.inuse_pos; omega)
    · rw [← hav]
      rcases ha with ⟨hSa, hor⟩ | rfl | ⟨rfl, hlt⟩
      · rw [hold a hSa hor]
        exact hl.inv.le_root hSa
      · rw [hs.mem] at hpos
        dsimp only at hpos
        rw [cutMem_left (by omega)] at hpos
        have := usedWord_neg (((a + blockWords size : ℕ) : ℤ) - a)
        omega
      · rw [hrest hlt]
        have hle := hl.inv.le_root hSs
        have hend := hl.inv.blocks.tiling.end_le hSs
        have hspace := hl.inv.geometry.space
        rw [freeWord_eq (by omega) (by omega)]
        omega

/-- A release wakes everybody as soon as the least request fits. -/
theorem Served.free (hk : Served k) {a size : ℕ} (hm : (a, size) ∈ k.heap.live) :
    ∃ k', kmemFree k a size = some k' ∧ Served k' := by
  obtain ⟨S, hl⟩ := hk.ledger
  obtain ⟨hlo, hS, hw, hn⟩ := hl.block _ hm
  obtain ⟨hsz, hneg⟩ := hl.size hm
  dsimp only at hlo hS hw hsz hneg
  obtain ⟨h', S', hcall, hl', -⟩ := hl.free hm
  obtain ⟨q', l, r, hq', hSl, hla, har, hrun, hmem, hs, hinv, hfreed⟩ :=
    stFree_merged hl.inv hS (by omega) hneg _ hsz
  rw [Nat.sub_add_cancel (by omega)] at hq'
  have hheap : h' = ⟨q', k.heap.live.erase (a, size)⟩ := by
    simp only [Heap.call, hq', Option.bind_eq_bind, Option.bind_some, if_true] at hcall
    exact (Option.some.inj hcall).symm
  have hkeep := hl.inv.free_keeps hSl hla har hrun hmem
  have hbase := base_kept hl hk.base hs hkeep (by omega)
  have hused : ∀ b, IsBlock q' b → q'.mem b < 0 → b ≠ q'.arenaBase →
      ∃ size', (b + 1, size') ∈ k.heap.live.erase (a, size) := by
    intro b hb hbneg hne
    rw [hs.arenaBase] at hne
    rcases hinv.isBlock_iff.mp hb with ⟨hSb, hor⟩ | rfl | ⟨-, hlt⟩
    · rw [hmem b (by omega) (by omega)] at hbneg
      obtain ⟨size', hlive⟩ := hk.used b (hl.inv.isBlock_iff.mpr hSb) hbneg hne
      refine ⟨size', (mem_erase_live hl.nodup hm).mpr ⟨hlive, ?_⟩⟩
      dsimp only
      omega
    · exact absurd hbneg (not_lt.mpr hfreed)
    · exact absurd hlt (lt_irrefl _)
  by_cases hwake : k.required > 0 ∧ k.required ≤ stMaxavail q'
  · refine ⟨⟨⟨q', k.heap.live.erase (a, size)⟩, 0, []⟩, ?_, ⟨S', hheap ▸ hl'⟩, hbase, hused,
      fun _ => rfl, by simp, by simp, by simp⟩
    simp only [kmemFree, hq', Option.bind_eq_bind, Option.bind_some, if_true, if_pos hwake]
  · refine ⟨{ k with heap := ⟨q', k.heap.live.erase (a, size)⟩ }, ?_, ⟨S', hheap ▸ hl'⟩, hbase,
      hused, hk.idle, hk.least, hk.asked, fun p hp => ⟨(hk.full p hp).1, ?_⟩⟩
    · simp only [kmemFree, hq', Option.bind_eq_bind, Option.bind_some, if_true, if_neg hwake]
    · obtain ⟨hpos, hle⟩ := hk.least p hp
      have hfits := (hk.full p hp).1
      have hlt : stMaxavail q' < k.required := by omega
      show q'.bucketBiggest 1 < _
      unfold stMaxavail word2byte at hlt
      unfold blockWords
      rcases root_attained hinv with h0 | ⟨b, hb, hbpos, hbv⟩
      · omega
      · have hword := hinv.blocks.free_eq hinv.geometry.space hb (by omega)
        have hend := hinv.blocks.tiling.end_le hb
        have hspace := hinv.geometry.space
        omega

/-- A process falls asleep on a request that the heap cannot serve. -/
theorem Served.sleep (hk : Served k) {p size : ℕ} (hpos : size ≠ 0) (hfit : size + 7 < 2 ^ 32)
    (hroot : k.heap.q.bucketBiggest 1 < blockWords size) :
    Served { k with
      required := if k.required = 0 ∨ k.required > size then size else k.required
      waiting := k.waiting ++ [(p, size)] } := by
  refine ⟨hk.ledger, hk.base, hk.used, by simp, ?_, ?_, ?_⟩
  · intro p' hp'
    rcases List.mem_append.mp hp' with hp' | hp'
    · obtain ⟨h0, hle⟩ := hk.least p' hp'
      dsimp only
      split_ifs <;> omega
    · obtain rfl := List.mem_singleton.mp hp'
      dsimp only
      split_ifs <;> omega
  · intro _
    dsimp only
    split_ifs with hless
    · simp
    · have hne : k.waiting ≠ [] := fun heq => hless (.inl (hk.idle heq))
      have := hk.asked hne
      simp only [List.map_append, List.mem_append]
      exact .inl this
  · intro p' hp'
    rcases List.mem_append.mp hp' with hp' | hp'
    · exact hk.full p' hp'
    · obtain rfl := List.mem_singleton.mp hp'
      exact ⟨hfit, hroot⟩

/-- A client that writes to its own memory touches no control word. -/
theorem Served.store (hk : Served k) {w : ℕ} {v : ℤ} (hc : (Call.store w v).Legal k.heap) :
    ∃ k', k.step (.store w v) = some k' ∧ Served k' := by
  obtain ⟨S, hl⟩ := hk.ledger
  obtain ⟨h', S', hcall, hl', -⟩ := hl.store hc
  obtain rfl := (Option.some.inj hcall).symm
  obtain ⟨p, hp, h1, h2⟩ := hc
  obtain ⟨hlo, hS, -, -⟩ := hl.block p hp
  obtain ⟨hsz, -⟩ := hl.size hp
  have hctl : ∀ a, S a → Function.update k.heap.q.mem w v a = k.heap.q.mem a := by
    intro a ha
    apply Function.update_of_ne
    rintro rfl
    have : p.1 - 1 + blockSize (k.heap.q.mem (p.1 - 1)) ≤ a :=
      hl.inv.blocks.tiling.gap hS ha (by omega)
    omega
  have hinv := hl.inv.setPayload hctl
  refine ⟨_, rfl, ⟨S', hl'⟩, fun hlt => ?_, fun a ha hused => ?_, hk.idle, hk.least, hk.asked,
    hk.full⟩
  · show blockSize (Function.update k.heap.q.mem w v k.heap.q.arenaBase) = 1
    rw [hctl _ (hl.inv.blocks.tiling.start hlt)]
    exact hk.base hlt
  · have hSa := hinv.isBlock_iff.mp ha
    have hword : Function.update k.heap.q.mem w v a < 0 := hused
    rw [hctl a hSa] at hword
    exact hk.used a (hl.inv.isBlock_iff.mpr hSa) hword

theorem Served.start (hk : Start k) : Served k := by
  obtain ⟨biggest, first, mem, m, n, lo, q, hspace, hq, rfl⟩ := hk
  obtain ⟨q', S, hq', hl, hbase, hused⟩ := stCtor_sentinel biggest first mem m n lo hspace
  cases hq.symm.trans hq'
  refine ⟨⟨S, hl⟩, hbase, fun a ha hneg hne => ?_, fun _ => rfl, by simp, by simp, by simp⟩
  exact absurd (hused a (hl.inv.isBlock_iff.mp ha) hneg) hne

theorem Served.step (hk : Served k) {e : Event} (hc : Legal k e) :
    ∃ k', k.step e = some k' ∧ Served k' := by
  cases e with
  | alloc p size flag =>
    by_cases h0 : size = 0
    · exact ⟨k, by simp [Pool.step, kmemAlloc, h0], hk⟩
    obtain ⟨S, hl⟩ := hk.ledger
    have hn := blockWords_eq hc.2 ▸ roundedWords_pos size
    rcases stAlloc_spec hl.inv hn with ⟨hroot, hnone⟩ | ⟨scan, r, q', hq', -⟩
    · cases flag with
      | noSleep => exact ⟨k, by simp [Pool.step, kmemAlloc, h0, hnone], hk⟩
      | sleep =>
        refine ⟨_, ?_, hk.sleep (p := p) h0 hc.2 hroot⟩
        simp [Pool.step, kmemAlloc, h0, hnone]
    · refine ⟨_, ?_, hk.alloc hn (Nat.succ_ne_zero scan) hq'⟩
      simp [Pool.step, kmemAlloc, h0, hq']
  | free a size => exact hk.free hc
  | store w v => exact hk.store hc

theorem Served.reached (hr : Reach Start Pool.step Legal k) : Served k := by
  refine hr.invariant (fun k hk => Served.start hk) ?_
  intro k e k' hk hc hstep
  obtain ⟨k'', hstep', hk''⟩ := hk.step hc
  cases hstep.symm.trans hstep'
  exact hk''

/-! ### Every run -/

/-- **Nobody sleeps in vain.** In every run every call returns, `dg_kmem_required` is the least
    request waited for, `0` if there is none, and `st_alloc` has no block for a process that
    sleeps. -/
theorem reachable_waiters (k : Pool) (hr : Reach Start Pool.step Legal k) :
    (∀ e, Legal k e → ∃ k', k.step e = some k') ∧
    (k.required = 0 ↔ k.waiting = []) ∧
    (k.waiting ≠ [] → k.required ∈ k.waiting.map Prod.snd) ∧
    ∀ p ∈ k.waiting, k.required ≤ p.2 ∧ stAlloc k.heap.q p.2 = some (0, k.heap.q) ∧
      ∀ b, ¬ FreeBlock k.heap.q (roundedWords p.2) b := by
  have hk := Served.reached hr
  obtain ⟨S, hl⟩ := hk.ledger
  refine ⟨fun e hc => ?_, ⟨fun h0 => ?_, hk.idle⟩, hk.asked, fun p hp => ?_⟩
  · obtain ⟨k', hstep, -⟩ := hk.step hc
    exact ⟨k', hstep⟩
  · by_contra hne
    obtain ⟨p, hp⟩ := List.exists_mem_of_ne_nil _ hne
    have := (hk.least p hp).1
    omega
  · obtain ⟨hfit, hroot⟩ := hk.full p hp
    have hwords := blockWords_eq hfit
    have hn := hwords ▸ roundedWords_pos p.2
    refine ⟨(hk.least p hp).2, ?_, fun b hb => ?_⟩
    · rcases stAlloc_spec hl.inv hn with ⟨-, hnone⟩ | ⟨scan, r, q', -, hS, hfree, hr, hle, -⟩
      · exact hnone
      · have := hl.inv.le_root hS
        have := hl.inv.blocks.free_eq hl.inv.geometry.space hS hfree
        omega
    · rw [← hwords] at hb
      obtain ⟨hS, hle⟩ := (hl.inv.freeBlock_iff hn).mp hb
      have := hl.inv.le_root hS
      omega

/-- A run of legal events from a pool of sixteen words. -/
def trace (es : List Event) : Option Pool :=
  (stCtor (fun _ => 0) (fun _ => 0) (fun _ => 0) (2 ^ 1) 16 0).bind fun q =>
    runFrom (fun k e => if decide (Legal k e) then k.step e else none) ⟨⟨q, []⟩, 0, []⟩ es

theorem trace_reach {es : List Event} (h : trace es = some k) : Reach Start Pool.step Legal k := by
  obtain ⟨q, hq, hrun⟩ := Option.bind_eq_some_iff.mp h
  exact Reach.checked (fun _ _ hc => of_decide_eq_true hc)
    (Reach.init ⟨_, _, _, 1, 16, 0, q, by norm_num, hq, rfl⟩) hrun

/-- Eleven of the words are taken; the process that asks for less falls asleep last. -/
theorem reachable_waiters_two :
    ∃ k : Pool, k.required = 20 ∧ k.waiting = [(2, 24), (3, 20)] ∧
      ∀ p ∈ k.waiting, ∀ b, ¬ FreeBlock k.heap.q (roundedWords p.2) b := by
  have hrun : (trace [.alloc 1 40 .sleep, .alloc 2 24 .sleep, .alloc 3 20 .sleep]).any
      (fun k => k.required = 20 ∧ k.waiting = [(2, 24), (3, 20)]) = true := by decide +kernel
  obtain ⟨k, hk, hval⟩ := (Option.any_eq_true _ _).mp hrun
  obtain ⟨hreq, hwait⟩ := of_decide_eq_true hval
  exact ⟨k, hreq, hwait, fun p hp =>
    ((reachable_waiters k (trace_reach hk)).2.2.2 p hp).2.2⟩

/-- **Nothing leaks.** In every run a used block is the sentinel's or a live one.  Once nothing
    is live, all that lies behind the sentinel is one free block, and whoever still sleeps has
    asked for more than that. -/
theorem reachable_noLeak (k : Pool) (hr : Reach Start Pool.step Legal k) :
    (∀ a, IsBlock k.heap.q a → blockFree (k.heap.q.mem a) = false →
      a = k.heap.q.arenaBase ∨ ∃ size, (a + 1, size) ∈ k.heap.live) ∧
    (k.heap.live = [] →
      (k.heap.q.arenaBase + 1 < k.heap.q.arenaEnd → FreeBlock k.heap.q
        (k.heap.q.arenaEnd - (k.heap.q.arenaBase + 1)) (k.heap.q.arenaBase + 1)) ∧
      ∀ p ∈ k.waiting,
        k.heap.q.arenaEnd - (k.heap.q.arenaBase + 1) < roundedWords p.2) := by
  have hk := Served.reached hr
  obtain ⟨S, hl⟩ := hk.ledger
  have ht := hl.inv.blocks.tiling
  have hneg : ∀ {a}, blockFree (k.heap.q.mem a) = false ↔ k.heap.q.mem a < 0 := by
    intro a
    rw [blockFree, decide_eq_false_iff_not, not_le]
  refine ⟨fun a ha hused => ?_, fun hnone => ?_⟩
  · by_cases hbase : a = k.heap.q.arenaBase
    · exact .inl hbase
    · exact .inr (hk.used a ha (hneg.mp hused) hbase)
  -- behind the sentinel every block is free
  have hfree : ∀ a, S a → k.heap.q.arenaBase < a → 0 ≤ k.heap.q.mem a := by
    intro a ha hlt
    by_contra hcon
    obtain ⟨size, hmem⟩ := hk.used a (hl.inv.isBlock_iff.mpr ha) (not_le.mp hcon) hlt.ne'
    rw [hnone] at hmem
    cases hmem
  have hone : k.heap.q.arenaBase + 1 < k.heap.q.arenaEnd → FreeBlock k.heap.q
      (k.heap.q.arenaEnd - (k.heap.q.arenaBase + 1)) (k.heap.q.arenaBase + 1) := by
    intro hlt
    have hS : S (k.heap.q.arenaBase + 1) := by
      have hnext := ht.next (ht.start (by omega)) (by rw [hk.base (by omega)]; exact hlt)
      rwa [hk.base (by omega)] at hnext
    have hf := hfree _ hS (by omega)
    refine ⟨hl.inv.isBlock_iff.mpr hS, by rwa [blockFree, decide_eq_true_eq], ?_⟩
    by_contra hshort
    have hS' := ht.next hS (by omega)
    have hsep := hl.inv.blocks.separated hS hS' hf
    have := hfree _ hS' (by omega)
    omega
  refine ⟨hone, fun p hp => ?_⟩
  obtain ⟨hfit, hroot⟩ := hk.full p hp
  have hwords := blockWords_eq hfit
  have hpos := roundedWords_pos p.2
  by_cases hlt : k.heap.q.arenaBase + 1 < k.heap.q.arenaEnd
  · obtain ⟨hS, hle⟩ := (hl.inv.freeBlock_iff (by omega)).mp (hone hlt)
    have := hl.inv.le_root hS
    omega
  · omega

/-- All is freed again, and a request for more than the arena still sleeps. -/
theorem reachable_noLeak_freed :
    ∃ k : Pool, k.waiting = [(2, 60)] ∧ FreeBlock k.heap.q 15 1 := by
  have hrun : (trace [.alloc 1 8 .sleep, .alloc 1 20 .noSleep, .alloc 2 60 .sleep, .free 2 8,
      .free 5 20]).any (fun k => k.waiting = [(2, 60)] ∧ k.heap.live = [] ∧
        k.heap.q.arenaBase = 0 ∧ k.heap.q.arenaEnd = 16) = true := by decide +kernel
  obtain ⟨k, hk, hval⟩ := (Option.any_eq_true _ _).mp hrun
  obtain ⟨hwait, hnone, hlo, hhi⟩ := of_decide_eq_true hval
  have hone := ((reachable_noLeak k (trace_reach hk)).2 hnone).1
  rw [hlo, hhi] at hone
  exact ⟨k, hwait, hone (by norm_num)⟩

end CohKernel.Kmem
