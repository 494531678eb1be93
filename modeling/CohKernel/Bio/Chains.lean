import CohKernel.Bio.Defs

namespace CohKernel.Bio

open CohKernel.Lib

/-!
# The hash chains of the buffer cache

Every buffer is on the chain of its `b_hashval`, and `bclaim` stores the hash value of the identity
that it gives.  `vread` and `io_user_req` store an identity and leave the buffer on its chain.

* `step_change` — what a step can do to the identities and the chains;
* `reachable_chains` — a buffer is on the chain of its identity, and `buffer_find` finds it;
* `hole_on_wrong_chain` — a buffer of a hole of a file, on another chain.
-/

variable {P : Type} [DecidableEq P] {t : Tune} {s s' : State P} {p : P} {b k : ℕ}

/-! ### The invariant -/

/-- The chain that a buffer is on. -/
def State.home (s : State P) (b : ℕ) : Option ℕ :=
  if s.alive b then some (s.bufs b).hashval else none

/-- The hash chains hold the buffers, and the LRU chain holds nothing else. -/
structure Linked (s : State P) : Prop where
  chained : Chained s.hasharray s.home
  lru : ∀ b ∈ s.lru, s.alive b = true
  nodup : s.lru.Nodup
  fresh : ∀ b, s.nbufs ≤ b → s.alive b = false

/-- The hash values are those of the identities. -/
def Tagged (t : Tune) (s : State P) : Prop :=
  ∀ b, s.alive b = true → (s.bufs b).dev ≠ NODEV →
    (s.bufs b).hashval = HASH t (s.bufs b).dev (s.bufs b).bno

section

omit [DecidableEq P]

theorem home_of_alive (h : s.alive b = true) : s.home b = some (s.bufs b).hashval := if_pos h

theorem home_of_dead (h : s.alive b = false) : s.home b = none := by
  rw [State.home, h]
  rfl

theorem Linked.alive_of_mem (h : Linked s) (hb : b ∈ s.hasharray k) : s.alive b = true := by
  rw [← Bool.not_eq_false]
  intro hdead
  cases (home_of_dead hdead).symm.trans ((h.chained.mem_iff k b).mp hb)

/-! ### What a step can do -/

/-- The chains stay, and no buffer gets an identity. -/
structure Quiet (s s' : State P) : Prop where
  hasharray : s'.hasharray = s.hasharray
  alive : s'.alive = s.alive
  nbufs : s'.nbufs = s.nbufs
  lru : ∀ b ∈ s'.lru, b ∈ s.lru ∨ s.alive b = true
  nodup : s.lru.Nodup → s'.lru.Nodup
  hashval : ∀ b, (s'.bufs b).hashval = (s.bufs b).hashval
  ident : ∀ b, (s'.bufs b).dev = (s.bufs b).dev ∧ (s'.bufs b).bno = (s.bufs b).bno ∨
    (s'.bufs b).dev = NODEV

theorem Quiet.refl (s : State P) : Quiet s s :=
  ⟨rfl, rfl, rfl, fun _ h => Or.inl h, id, fun _ => rfl, fun _ => Or.inl ⟨rfl, rfl⟩⟩

theorem Quiet.trans {s₁ s₂ s₃ : State P} (h : Quiet s₁ s₂) (h' : Quiet s₂ s₃) : Quiet s₁ s₃ where
  hasharray := h'.hasharray.trans h.hasharray
  alive := h'.alive.trans h.alive
  nbufs := h'.nbufs.trans h.nbufs
  lru := by
    intro b hb
    rcases h'.lru b hb with hb | hb
    · exact h.lru b hb
    · exact Or.inr (h.alive ▸ hb)
  nodup := fun hs => h'.nodup (h.nodup hs)
  hashval := fun b => (h'.hashval b).trans (h.hashval b)
  ident := by
    intro b
    rcases h'.ident b with ⟨hdev, hbno⟩ | hno
    · rw [hdev, hbno]
      exact h.ident b
    · exact Or.inr hno

/-- A buffer changes, but not its identity, unless it loses it. -/
theorem Quiet.setBuf (h : Quiet s s') {buf : Buf P} (hhash : buf.hashval = (s'.bufs b).hashval)
    (hident : buf.dev = (s'.bufs b).dev ∧ buf.bno = (s'.bufs b).bno ∨ buf.dev = NODEV) :
    Quiet s (s'.setBuf b buf) := by
  refine h.trans ⟨rfl, rfl, rfl, fun _ hb => Or.inl hb, id, fun c => ?_, fun c => ?_⟩
  · by_cases hcb : c = b
    · subst hcb
      simp only [State.setBuf, Function.update_self, hhash]
    · simp only [State.setBuf, Function.update_of_ne hcb]
  · by_cases hcb : c = b
    · subst hcb
      simp only [State.setBuf, Function.update_self]
      exact hident
    · left
      simp only [State.setBuf, Function.update_of_ne hcb]
      exact ⟨trivial, trivial⟩

theorem setBuf_quiet (s : State P) (b : ℕ) {buf : Buf P}
    (hhash : buf.hashval = (s.bufs b).hashval)
    (hident : buf.dev = (s.bufs b).dev ∧ buf.bno = (s.bufs b).bno ∨ buf.dev = NODEV) :
    Quiet s (s.setBuf b buf) := (Quiet.refl s).setBuf hhash hident

end

theorem Quiet.setPc (h : Quiet s s') (pc : Pc) : Quiet s (s'.setPc p pc) :=
  ⟨h.hasharray, h.alive, h.nbufs, h.lru, h.nodup, h.hashval, h.ident⟩

section

omit [DecidableEq P]

theorem Quiet.unlockBlock (h : Quiet s s') : Quiet s (s'.unlockBlock b) := by
  have hset : Quiet s (s'.setBuf b { s'.bufs b with lock := .free }) :=
    h.setBuf rfl (Or.inl ⟨rfl, rfl⟩)
  unfold State.unlockBlock
  simp only
  split
  · exact ⟨hset.hasharray, hset.alive, hset.nbufs, hset.lru, hset.nodup, hset.hashval, hset.ident⟩
  · exact hset

theorem lruUpdate_mem {c : ℕ} (h : c ∈ (s.lruUpdate b).lru) : c ∈ s.lru ∨ c = b := by
  unfold State.lruUpdate at h
  split at h
  · exact Or.inl h
  · rcases List.mem_cons.mp h with rfl | h
    · exact Or.inr rfl
    · exact Or.inl (List.mem_of_mem_erase h)

theorem lruUpdate_nodup (h : s.lru.Nodup) : (s.lruUpdate b).lru.Nodup := by
  unfold State.lruUpdate
  split
  · exact h
  · exact List.nodup_cons.mpr ⟨h.not_mem_erase, h.erase b⟩

theorem lruUpdate_eq : ∃ lru stale, s.lruUpdate b = { s with lru := lru, stale := stale } := by
  unfold State.lruUpdate
  split
  · exact ⟨s.lru, s.stale, rfl⟩
  · exact ⟨_, _, rfl⟩

theorem Quiet.lruUpdate (h : Quiet s s') (hb : s.alive b = true) : Quiet s (s'.lruUpdate b) := by
  have hlru : ∀ c ∈ (s'.lruUpdate b).lru, c ∈ s.lru ∨ s.alive c = true := by
    intro c hc
    rcases lruUpdate_mem hc with hc | rfl
    · exact h.lru c hc
    · exact Or.inr hb
  have hnodup : s'.lru.Nodup → (s'.lruUpdate b).lru.Nodup := lruUpdate_nodup
  obtain ⟨lru, stale, heq⟩ := lruUpdate_eq (s := s') (b := b)
  rw [heq] at hlru hnodup ⊢
  exact ⟨h.hasharray, h.alive, h.nbufs, hlru, fun hs => hnodup (h.nodup hs), h.hashval, h.ident⟩

theorem Quiet.hit (hb : s.alive b = true) (sync : Bool) : Quiet s (s.hit p b sync) := by
  unfold State.hit
  simp only
  split
  · have hset : Quiet s (s.setBuf b { s.bufs b with
        ntp := (s.bufs b).ntp || (s.bufs b).err, err := false, write := true, lock := .proc p }) :=
      setBuf_quiet s b rfl (Or.inl ⟨rfl, rfl⟩)
    exact hset.lruUpdate hb
  · exact (Quiet.refl s).lruUpdate hb

theorem Sync.finish_ident (g : Sync) (buf : Buf P) : (g.finish buf).hashval = buf.hashval ∧
    ((g.finish buf).dev = buf.dev ∧ (g.finish buf).bno = buf.bno ∨ (g.finish buf).dev = NODEV) := by
  unfold Sync.finish
  split
  · exact ⟨rfl, Or.inr rfl⟩
  · exact ⟨rfl, Or.inl ⟨rfl, rfl⟩⟩

end

/-- `general_sync` gives no buffer an identity, and ends without a change. -/
theorem syncStep_quiet {g : Sync} {phase : Phase} {next : Option Phase}
    (h : s.syncStep p g phase = some (s', next)) : Quiet s s' ∧ (next = none → s' = s) := by
  have hfinish : ∀ b, Quiet s (s.setBuf b (g.finish (s.bufs b))) := fun b =>
    setBuf_quiet s b (g.finish_ident _).1 (g.finish_ident _).2
  cases phase with
  | build rest acc =>
    cases rest with
    | nil =>
      cases h
      exact ⟨Quiet.refl s, fun _ => rfl⟩
    | cons b rest =>
      simp only [State.syncStep] at h
      split_ifs at h <;> cases h
      · exact ⟨Quiet.refl s, fun _ => rfl⟩
      · exact ⟨hfinish b, fun h => by cases h⟩
      · exact ⟨Quiet.refl s, fun _ => rfl⟩
  | sort acc =>
    cases h
    exact ⟨Quiet.refl s, fun _ => rfl⟩
  | write rest =>
    cases rest with
    | nil =>
      cases h
      exact ⟨Quiet.refl s, fun _ => rfl⟩
    | cons b rest =>
      simp only [State.syncStep] at h
      split_ifs at h <;> cases h
      · exact ⟨Quiet.refl s, fun _ => rfl⟩
      · exact ⟨hfinish b, fun h => by cases h⟩
      all_goals
        have hstart : Quiet s (s.setBuf b (g.start (s.bufs b) p)) :=
          setBuf_quiet s b rfl (Or.inl ⟨rfl, rfl⟩)
        exact ⟨⟨hstart.hasharray, hstart.alive, hstart.nbufs, hstart.lru, hstart.nodup,
          hstart.hashval, hstart.ident⟩, fun h => by cases h⟩
  | syncwait =>
    simp only [State.syncStep] at h
    split_ifs at h
    cases h
    exact ⟨Quiet.refl s, fun _ => rfl⟩

/-- The buffer that a search takes, without a sleep. -/
def State.picks (s : State P) (cands : List ℕ) : Option ℕ :=
  (cands.find? fun b => decide ((s.bufs b).lock = .free)).filter fun b => !(s.bufs b).modified

/-- The buffer that a search takes that has slept, and the block that it takes it for. -/
def State.takesLate (s : State P) (p : P) : Option (ℕ × ℕ × ℕ) :=
  match s.pc p with
  | .need dev bno _ _ => (s.picks s.lru.reverse).map fun b => (b, dev, bno)
  | .syncing g phase (some k) =>
      match s.syncStep p g phase with
      | some (_, none) => (s.picks (s.lruBack k.cursor)).map fun b => (b, k.dev, k.bno)
      | _ => none
  | _ => none

/-- The block that a step of `bclaim` looks up. -/
def State.looksUp (s : State P) : Event P → Option (ℕ × ℕ)
  | .bclaim _ dev bno _ => some (dev, bno)
  | .resume p =>
      match s.pc p with
      | .find dev bno _ => some (dev, bno)
      | _ => none
  | _ => none

/-- The buffer in which `vread` or `io_user_req` stores an identity, and the identity. -/
def State.retag (s : State P) : Event P → Option (ℕ × ℕ × ℕ)
  | .vreadHole _ b dev => some (b, dev, (s.bufs b).bno)
  | .ioUserReq _ b dev bno _ => some (b, dev, bno)
  | _ => none

/-- What a step does to the identities and the chains. -/
inductive Change (t : Tune) (s : State P) (e : Event P) (s' : State P) : Prop
  | quiet : Quiet s s' → Change t s e s'
  | claim {p : P} {b dev bno : ℕ} {sync : Bool} : s.alive b = true →
      s.looksUp e = some (dev, bno) ∧ s.lookup t dev bno = none ∨
        e = .resume p ∧ s.takesLate p = some (b, dev, bno) →
      s' = (s.take t p b dev bno sync).setPc p .idle → Change t s e s'
  | retag (b : ℕ) (buf : Buf P) : s.alive b = true → s.retag e = some (b, buf.dev, buf.bno) →
      buf.hashval = (s.bufs b).hashval → s' = s.setBuf b buf → Change t s e s'
  | getrbuf {p : P} : s' = s.getrbuf t p → Change t s e s'
  | freerbuf {b : ℕ} : s.alive b = true → s' = s.freerbuf b → Change t s e s'

theorem search_change {dev bno : ℕ} {sync : Bool} {cands : List ℕ}
    (h : s.search t p dev bno sync cands = some s') :
    Quiet s s' ∨ ∃ b ∈ cands, s.picks cands = some b ∧
      s' = (s.take t p b dev bno sync).setPc p .idle := by
  unfold State.search at h
  split at h
  · rename_i b hfind
    split at h
    · cases h
      exact Or.inl ((Quiet.refl s).setPc _)
    · rename_i hmod
      cases h
      refine Or.inr ⟨b, List.mem_of_find?_eq_some hfind, ?_, rfl⟩
      rw [State.picks, hfind, Option.filter_some, if_pos]
      simpa using hmod
  · split at h
    · cases h
    · cases h
      have hset := (Quiet.refl s).setPc (p := p) (.need dev bno sync false)
      exact Or.inl ⟨hset.hasharray, hset.alive, hset.nbufs, hset.lru, hset.nodup, hset.hashval,
        hset.ident⟩

theorem bclaim_change (hl : Linked s) {dev bno : ℕ} {sync : Bool}
    (h : s.bclaim t p dev bno sync = some s') :
    Quiet s s' ∨ ∃ b, s.alive b = true ∧ s.lookup t dev bno = none ∧
      s' = (s.take t p b dev bno sync).setPc p .idle := by
  unfold State.bclaim at h
  split at h
  · rename_i b hfound
    have halive : s.alive b = true := hl.alive_of_mem (List.mem_of_find?_eq_some hfound)
    split at h
    · cases h
      exact Or.inl ((Quiet.refl s).setPc _)
    · cases h
      exact Or.inl ((Quiet.hit halive sync).setPc _)
  · rename_i hnone
    rcases search_change h with hq | ⟨b, hb, -, heq⟩
    · exact Or.inl hq
    · exact Or.inr ⟨b, hl.lru b (List.mem_reverse.mp hb), hnone, heq⟩

omit [DecidableEq P] in
theorem lruBack_subset (hb : b ∈ s.lruBack k) : b ∈ s.lru :=
  (List.takeWhile_subset _) (List.mem_reverse.mp hb)

theorem resume_change (hl : Linked s) (h : s.resume t p = some s') :
    Change t s (.resume p) s' := by
  unfold State.resume at h
  split at h
  · cases h
  · rename_i dev bno b hpc
    split_ifs at h with hgone hcarries
    · rw [not_or, Bool.not_eq_false] at hgone
      cases h
      exact .quiet ((Quiet.hit hgone.1 true).setPc _)
    · rcases bclaim_change hl h with hq | ⟨b, hb, hnone, heq⟩
      · exact .quiet hq
      · exact .claim hb (Or.inl ⟨by simp only [State.looksUp, hpc], hnone⟩) heq
  · rename_i g phase back hpc
    obtain ⟨⟨s₁, next⟩, hsync, hrest⟩ := Option.bind_eq_some_iff.mp h
    clear h
    obtain ⟨hq, hend⟩ := syncStep_quiet hsync
    cases next with
    | some phase' =>
      cases hrest
      exact .quiet (hq.setPc _)
    | none =>
      obtain rfl := hend rfl
      cases back with
      | none =>
        cases hrest
        exact .quiet (hq.setPc _)
      | some k =>
        simp only at hrest
        split at hrest
        · cases hrest
        · rcases search_change hrest with hq | ⟨b, hb, hpick, heq⟩
          · exact .quiet hq
          · refine .claim (hl.lru b (lruBack_subset hb)) (Or.inr ⟨rfl, ?_⟩) heq
            simp only [State.takesLate, hpc, hsync, hpick, Option.map_some]
  · rename_i dev bno sync woken hpc
    split at h
    · rcases search_change h with hq | ⟨b, hb, hpick, heq⟩
      · exact .quiet hq
      · refine .claim (hl.lru b (List.mem_reverse.mp hb)) (Or.inr ⟨rfl, ?_⟩) heq
        simp only [State.takesLate, hpc, hpick, Option.map_some]
    · cases h

theorem alive_of_holds (h : s.holds p b = true) : s.alive b = true := (of_decide_eq_true h).2.1

section

omit [DecidableEq P]

theorem brelease_quiet (s : State P) (b : ℕ) : Quiet s (s.brelease b) := by
  unfold State.brelease
  refine Quiet.unlockBlock (setBuf_quiet s b ?_ ?_)
  · rfl
  by_cases herr : (s.bufs b).err = true
  · exact Or.inr (if_pos herr)
  · exact Or.inl ⟨if_neg herr, rfl⟩

theorem brelse_quiet (s : State P) (b : ℕ) : Quiet s (s.brelse b) := by
  unfold State.brelse
  refine Quiet.unlockBlock (setBuf_quiet s b ?_ ?_)
  · rfl
  · exact Or.inl ⟨rfl, rfl⟩

theorem biodone_quiet (s : State P) (b : ℕ) (fails : Bool) : Quiet s (s.biodone b fails) := by
  have hdone : ∀ buf : Buf P, buf.hashval = (s.bufs b).hashval →
      buf.dev = (s.bufs b).dev ∧ buf.bno = (s.bufs b).bno ∨ buf.dev = NODEV →
      Quiet s ((s.setBuf b buf).unlockBlock b) := fun _ hhash hident =>
    (setBuf_quiet s b hhash hident).unlockBlock
  have hiodone : ∀ buf : Buf P, buf.hashval = (s.bufs b).hashval →
      buf.dev = (s.bufs b).dev ∧ buf.bno = (s.bufs b).bno ∨ buf.dev = NODEV →
      Quiet s ((s.setBuf b buf).syncIodone b) := by
    intro buf hhash hident
    have hq := hdone buf hhash hident
    exact ⟨hq.hasharray, hq.alive, hq.nbufs, hq.lru, hq.nodup, hq.hashval, hq.ident⟩
  have hident : ∀ err : Bool, (if err then NODEV else (s.bufs b).dev) = (s.bufs b).dev ∧
      (s.bufs b).bno = (s.bufs b).bno ∨ (if err then NODEV else (s.bufs b).dev) = NODEV := by
    intro err
    cases err with
    | true => exact Or.inr rfl
    | false => exact Or.inl ⟨rfl, rfl⟩
  unfold State.biodone
  simp only
  split
  · exact hiodone _ rfl (hident _)
  · exact hiodone _ rfl (Or.inr rfl)
  · split
    · exact hdone _ rfl (hident _)
    · exact setBuf_quiet s b rfl (hident _)

end

/-- `vread` and `io_user_req` store an identity, and leave the buffer on its chain. -/
theorem step_retag {e : Event P} {dev bno : ℕ} (hretag : s.retag e = some (b, dev, bno))
    (h : step t s e = some s') : s.alive b = true ∧ ∃ buf : Buf P, buf.dev = dev ∧ buf.bno = bno ∧
      buf.hashval = (s.bufs b).hashval ∧ s' = s.setBuf b buf := by
  cases e with
  | vreadHole p c dev' =>
    cases hretag
    obtain ⟨⟨hholds, -⟩, h⟩ := Option.ite_none_right_eq_some.mp h
    cases h
    refine ⟨alive_of_holds hholds, _, ?_, ?_, ?_, rfl⟩ <;> rfl
  | ioUserReq p c dev' bno' read =>
    cases hretag
    obtain ⟨⟨hholds, -⟩, h⟩ := Option.ite_none_right_eq_some.mp h
    cases h
    refine ⟨alive_of_holds hholds, _, ?_, ?_, ?_, rfl⟩ <;> rfl
  | _ => cases hretag

/-- **Steps.** What a step can do to the identities and the chains. -/
theorem step_change (hl : Linked s) {e : Event P} (h : step t s e = some s') :
    Change t s e s' := by
  have hset : ∀ (b : ℕ) (buf : Buf P), buf.hashval = (s.bufs b).hashval →
      buf.dev = (s.bufs b).dev ∧ buf.bno = (s.bufs b).bno ∨ buf.dev = NODEV →
      Change t s e (s.setBuf b buf) := fun b buf hhash hident =>
    .quiet (setBuf_quiet s b hhash hident)
  cases e with
  | resume p => exact resume_change hl h
  | bclaim p dev bno sync =>
    obtain ⟨-, h⟩ := Option.ite_none_right_eq_some.mp h
    rcases bclaim_change hl h with hq | ⟨b, hb, hnone, heq⟩
    · exact .quiet hq
    · exact .claim hb (Or.inl ⟨rfl, hnone⟩) heq
  | bsync p =>
    obtain ⟨-, h⟩ := Option.ite_none_right_eq_some.mp h
    cases h
    exact .quiet ((Quiet.refl s).setPc _)
  | bflush p dev =>
    obtain ⟨-, h⟩ := Option.ite_none_right_eq_some.mp h
    cases h
    exact .quiet ((Quiet.refl s).setPc _)
  | lockBlock p b dev bno =>
    obtain ⟨-, h⟩ := Option.ite_none_right_eq_some.mp h
    cases h
    exact hset _ _ rfl (Or.inl ⟨rfl, rfl⟩)
  | breadStart p b sync =>
    obtain ⟨-, h⟩ := Option.ite_none_right_eq_some.mp h
    cases h
    exact hset _ _ rfl (Or.inl ⟨rfl, rfl⟩)
  | modify p b =>
    obtain ⟨-, h⟩ := Option.ite_none_right_eq_some.mp h
    cases h
    exact hset _ _ rfl (Or.inl ⟨rfl, rfl⟩)
  | bwrite p b sync =>
    obtain ⟨-, h⟩ := Option.ite_none_right_eq_some.mp h
    cases h
    exact hset _ _ rfl (Or.inl ⟨rfl, rfl⟩)
  | brelease p b =>
    obtain ⟨-, h⟩ := Option.ite_none_right_eq_some.mp h
    cases h
    exact .quiet (brelease_quiet s b)
  | brelse p b =>
    obtain ⟨-, h⟩ := Option.ite_none_right_eq_some.mp h
    cases h
    exact .quiet (brelse_quiet s b)
  | bufInvalidate p b =>
    obtain ⟨-, h⟩ := Option.ite_none_right_eq_some.mp h
    cases h
    exact hset _ _ rfl (Or.inr rfl)
  | vreadHole p b dev =>
    obtain ⟨halive, buf, rfl, hbno, hhash, heq⟩ := step_retag rfl h
    exact .retag b buf halive (hbno ▸ rfl) hhash heq
  | getrbuf p =>
    obtain ⟨-, h⟩ := Option.ite_none_right_eq_some.mp h
    cases h
    exact .getrbuf rfl
  | ioUserReq p b dev bno read =>
    obtain ⟨halive, buf, rfl, rfl, hhash, heq⟩ := step_retag rfl h
    exact .retag b buf halive rfl hhash heq
  | freerbuf p b =>
    obtain ⟨⟨hholds, -⟩, h⟩ := Option.ite_none_right_eq_some.mp h
    cases h
    exact .freerbuf (alive_of_holds hholds) rfl
  | biodone b fails =>
    obtain ⟨-, h⟩ := Option.ite_none_right_eq_some.mp h
    cases h
    exact .quiet (biodone_quiet s b fails)

/-! ### The chains are kept -/

section

omit [DecidableEq P]

theorem home_congr (halive : s'.alive = s.alive)
    (hhash : ∀ b, (s'.bufs b).hashval = (s.bufs b).hashval) : s'.home = s.home := by
  funext b
  rw [State.home, State.home, halive, hhash b]

theorem Quiet.linked (h : Quiet s s') (hl : Linked s) : Linked s' where
  chained := by
    rw [h.hasharray, home_congr h.alive h.hashval]
    exact hl.chained
  lru := by
    intro b hb
    rw [h.alive]
    rcases h.lru b hb with hb | hb
    · exact hl.lru b hb
    · exact hb
  nodup := h.nodup hl.nodup
  fresh := by
    intro b hb
    rw [h.alive]
    exact hl.fresh b (h.nbufs ▸ hb)

theorem home_setBuf (halive : s.alive b = true) (buf : Buf P) :
    (s.setBuf b buf).home = Function.update s.home b (some buf.hashval) := by
  funext c
  by_cases hcb : c = b
  · subst hcb
    rw [Function.update_self]
    simp only [State.home, State.setBuf, halive, if_true, Function.update_self]
  · rw [Function.update_of_ne hcb]
    simp only [State.home, State.setBuf, Function.update_of_ne hcb]

/-- What `bclaim` leaves of the buffers and the chains. -/
theorem take_eq (dev bno : ℕ) (sync : Bool) : ∃ lru stale,
    s.take t p b dev bno sync =
      { s with
        bufs := Function.update s.bufs b ((s.bufs b).claim t p dev bno sync)
        hasharray := Function.update
          (Function.update s.hasharray (s.bufs b).hashval
            ((s.hasharray (s.bufs b).hashval).erase b))
          (HASH t dev bno)
          (b :: Function.update s.hasharray (s.bufs b).hashval
            ((s.hasharray (s.bufs b).hashval).erase b) (HASH t dev bno))
        lru := lru
        stale := stale } ∧ (∀ c ∈ lru, c ∈ s.lru ∨ c = b) ∧ (s.lru.Nodup → lru.Nodup) := by
  obtain ⟨lru, stale, heq⟩ := lruUpdate_eq (s := s.hashDelete b) (b := b)
  have hlru : ∀ c ∈ ((s.hashDelete b).lruUpdate b).lru, c ∈ s.lru ∨ c = b := fun c hc =>
    lruUpdate_mem (s := s.hashDelete b) hc
  have hnodup : s.lru.Nodup → ((s.hashDelete b).lruUpdate b).lru.Nodup := fun hs =>
    lruUpdate_nodup (s := s.hashDelete b) hs
  rw [heq] at hlru hnodup
  refine ⟨lru, stale, ?_, hlru, hnodup⟩
  unfold State.take
  rw [heq]
  simp only [State.hashInsert, State.hashDelete, State.setBuf, Buf.claim, Function.update_self]

theorem Linked.take (hl : Linked s) (halive : s.alive b = true) (dev bno : ℕ) (sync : Bool) :
    Linked (s.take t p b dev bno sync) := by
  obtain ⟨lru, stale, heq, hlru, hnodup⟩ :=
    take_eq (t := t) (s := s) (p := p) (b := b) dev bno sync
  rw [heq]
  refine ⟨?_, fun c hc => ?_, hnodup hl.nodup, hl.fresh⟩
  · have hhome := home_setBuf halive ((s.bufs b).claim t p dev bno sync)
    have hdel := hl.chained.delete (home_of_alive halive)
    have hins := hdel.insert (Function.update_self b none s.home) (HASH t dev bno)
    rw [Function.update_idem] at hins
    exact hhome ▸ hins
  · rcases hlru c hc with hc | rfl
    · exact hl.lru c hc
    · exact halive

theorem Linked.getrbuf (hl : Linked s) : Linked (s.getrbuf t p) := by
  have hdead : s.home s.nbufs = none := home_of_dead (hl.fresh s.nbufs le_rfl)
  refine ⟨?_, fun c hc => ?_, ?_, fun c hc => ?_⟩
  · have hins := hl.chained.insert hdead (HASH t 0 0)
    have hhome : (s.getrbuf t p).home = Function.update s.home s.nbufs (some (HASH t 0 0)) := by
      funext c
      by_cases hc : c = s.nbufs
      · subst hc
        simp only [State.home, State.getrbuf, State.lruInsert, State.hashInsert, State.setBuf,
          Function.update_self, if_true]
      · simp only [State.home, State.getrbuf, State.lruInsert, State.hashInsert, State.setBuf,
          Function.update_of_ne hc]
    rw [hhome]
    simpa only [State.getrbuf, State.lruInsert, State.hashInsert, State.setBuf,
      Function.update_self] using hins
  · show Function.update s.alive s.nbufs true c = true
    rcases List.mem_cons.mp hc with rfl | hc
    · exact Function.update_self _ _ _
    · rw [Function.update_apply, hl.lru c hc, ite_self]
  · refine List.nodup_cons.mpr ⟨fun hmem => ?_, hl.nodup⟩
    cases (hl.fresh s.nbufs le_rfl).symm.trans (hl.lru s.nbufs hmem)
  · show Function.update s.alive s.nbufs true c = false
    have hc : s.nbufs + 1 ≤ c := hc
    rw [Function.update_of_ne (by omega)]
    exact hl.fresh c (by omega)

theorem invalid_quiet (s : State P) (b : ℕ) :
    Quiet s ((s.setBuf b (s.bufs b).invalid).brelease b) := by
  refine (setBuf_quiet s b ?_ ?_).trans (brelease_quiet _ b)
  · rfl
  · exact Or.inr rfl

theorem freerbuf_quiet (s : State P) (b : ℕ) : ∃ s', Quiet s s' ∧
    (∀ c, (s.freerbuf b).alive c = true → s'.alive c = true) ∧ (s.freerbuf b).bufs = s'.bufs := by
  refine ⟨_, invalid_quiet s b, fun c hc => ?_, rfl⟩
  have hc : Function.update ((s.setBuf b (s.bufs b).invalid).brelease b).alive b false c = true :=
    hc
  by_cases hcb : c = b
  · rw [hcb, Function.update_self] at hc
    cases hc
  · rwa [Function.update_of_ne hcb] at hc

/-- What `freerbuf` leaves of the chains. -/
theorem Linked.freerbuf (hl : Linked s) (halive : s.alive b = true) : Linked (s.freerbuf b) := by
  have hq : Quiet s ((s.setBuf b (s.bufs b).invalid).brelease b) := invalid_quiet s b
  have hfree : ∀ s' : State P, Linked s' → s'.alive b = true →
      Linked { (s'.hashDelete b).lruRemove b with
        alive := Function.update ((s'.hashDelete b).lruRemove b).alive b false } := by
    intro s' hl' halive'
    have hne : ∀ c, c ≠ b → Function.update s'.alive b false c = s'.alive c := fun c hcb =>
      Function.update_of_ne hcb _ _
    refine ⟨?_, fun c hc => ?_, hl'.nodup.erase b, fun c hc => ?_⟩
    · have hhome : State.home { (s'.hashDelete b).lruRemove b with
          alive := Function.update ((s'.hashDelete b).lruRemove b).alive b false } =
          Function.update s'.home b none := by
        funext c
        by_cases hcb : c = b
        · subst hcb
          rw [Function.update_self]
          exact if_neg (ne_true_of_eq_false (Function.update_self c false s'.alive))
        · rw [Function.update_of_ne hcb, State.home, State.home]
          simp only [State.lruRemove, State.hashDelete, hne c hcb]
      rw [hhome]
      exact hl'.chained.delete (home_of_alive halive')
    · have hmem := (hl'.nodup.mem_erase_iff).mp hc
      exact (hne c hmem.1).trans (hl'.lru c hmem.2)
    · show Function.update s'.alive b false c = false
      rw [Function.update_apply, hl'.fresh c hc, ite_self]
  exact hfree _ (hq.linked hl) (hq.alive ▸ halive)

end

theorem Linked.step (hl : Linked s) {e : Event P} (h : step t s e = some s') : Linked s' := by
  cases step_change hl h with
  | quiet hq => exact hq.linked hl
  | claim halive _ heq =>
    rw [heq]
    exact ((Quiet.refl _).setPc _).linked (hl.take halive _ _ _)
  | retag b buf halive _ hhash heq =>
    rw [heq]
    refine ⟨?_, hl.lru, hl.nodup, hl.fresh⟩
    rw [home_setBuf halive, hhash, ← home_of_alive halive, Function.update_eq_self]
    exact hl.chained
  | getrbuf heq => exact heq ▸ hl.getrbuf
  | freerbuf halive heq => exact heq ▸ hl.freerbuf halive

section

omit [DecidableEq P]

theorem Initial.linked (h : Initial t s) : Linked s := by
  obtain ⟨hn, halive, hbufs, hchains, hlru, -⟩ := h
  refine ⟨⟨fun k b => ?_, fun k => ?_⟩, fun b hb => ?_, ?_, fun b hb => ?_⟩
  · rw [hchains, List.mem_reverse, List.mem_filter, List.mem_range, decide_eq_true_eq]
    by_cases hb : b < t.NBUF
    · obtain ⟨bno, hbuf⟩ := hbufs b hb
      rw [home_of_alive (by rw [halive, decide_eq_true hb]), Option.some_inj, hbuf]
      exact and_iff_right hb
    · rw [home_of_dead (by rw [halive, decide_eq_false hb])]
      exact iff_of_false (fun h => hb h.1) fun hnone => by cases hnone
  · rw [hchains]
    exact List.nodup_reverse.mpr (List.nodup_range.filter _)
  · rw [hlru, List.mem_range] at hb
    rw [halive, decide_eq_true hb]
  · rw [hlru]
    exact List.nodup_range
  · rw [halive, decide_eq_false (by omega)]

/-! ### The chain of the identity -/

/-- An identity that is stored without a move to another chain belongs on the chain that the buffer
    is on. -/
def StaysOnChain (t : Tune) (s : State P) (e : Event P) : Prop :=
  ∀ b dev bno, s.retag e = some (b, dev, bno) → dev ≠ NODEV → HASH t dev bno = (s.bufs b).hashval

theorem Initial.tagged (h : Initial t s) : Tagged t s := by
  intro b halive hdev
  obtain ⟨-, hlive, hbufs, -⟩ := h
  rw [hlive, decide_eq_true_eq] at halive
  obtain ⟨bno, hbuf⟩ := hbufs b halive
  exact absurd (congrArg Buf.dev hbuf) hdev

theorem Tagged.quiet (ht : Tagged t s) (h : Quiet s s') : Tagged t s' := by
  intro b halive hdev
  rw [h.alive] at halive
  rcases h.ident b with ⟨hdev', hbno⟩ | hno
  · rw [h.hashval, hdev', hbno]
    exact ht b halive (hdev' ▸ hdev)
  · exact absurd hno hdev

theorem Tagged.update (ht : Tagged t s) {buf : Buf P}
    (hbuf : buf.dev ≠ NODEV → buf.hashval = HASH t buf.dev buf.bno)
    (hbufs : s'.bufs = Function.update s.bufs b buf)
    (halive : ∀ c, c ≠ b → s'.alive c = true → s.alive c = true) : Tagged t s' := by
  intro c hc hdev
  rw [hbufs] at hdev ⊢
  by_cases hcb : c = b
  · subst hcb
    rw [Function.update_self] at hdev ⊢
    exact hbuf hdev
  · rw [Function.update_of_ne hcb] at hdev ⊢
    exact ht c (halive c hcb hc) hdev

end

theorem Tagged.step (ht : Tagged t s) (hl : Linked s) {e : Event P} (hok : StaysOnChain t s e)
    (h : step t s e = some s') : Tagged t s' := by
  cases step_change hl h with
  | quiet hq => exact ht.quiet hq
  | claim halive _ heq =>
    obtain ⟨lru, stale, htake, -, -⟩ := take_eq _ _ _
    rw [heq, htake]
    exact ht.update (fun _ => rfl) rfl fun _ _ hc => hc
  | retag b buf _ hretag hhash heq =>
    rw [heq]
    refine ht.update (fun hdev => ?_) rfl fun _ _ hc => hc
    rw [hhash, hok b buf.dev buf.bno hretag hdev]
  | getrbuf heq =>
    rw [heq]
    refine ht.update (fun hdev => absurd rfl hdev) rfl fun c hc halive => ?_
    exact (Function.update_of_ne hc _ _).symm.trans halive
  | freerbuf halive heq =>
    rw [heq]
    intro c hc hdev
    obtain ⟨s₁, hq, halive', hbufs⟩ := freerbuf_quiet s _
    rw [hbufs] at hdev ⊢
    exact (ht.quiet hq) c (halive' c hc) hdev

/-- The chains are linked, and the hash values are those of the identities. -/
structure Kept (t : Tune) (s : State P) : Prop where
  linked : Linked s
  tagged : Tagged t s

theorem Kept.reachable {ok : State P → Event P → Prop} (hok : ∀ s e, ok s e → StaysOnChain t s e)
    (h : Reach (Initial t) (step t) ok s) : Kept t s :=
  h.invariant (fun _ hs => ⟨hs.linked, hs.tagged⟩) fun _ _ _ hs he h =>
    ⟨hs.linked.step h, hs.tagged.step hs.linked (hok _ _ he) h⟩

/-- A buffer with an identity is once on the chain of it and on no other chain, and `buffer_find`
    finds the blocks that a buffer carries. -/
structure Findable (t : Tune) (s : State P) : Prop where
  onChain : ∀ b, s.alive b = true → (s.bufs b).dev ≠ NODEV → ∀ k,
    (s.hasharray k).count b = if k = HASH t (s.bufs b).dev (s.bufs b).bno then 1 else 0
  found : ∀ dev bno, dev ≠ NODEV →
    ((∃ b, s.lookup t dev bno = some b) ↔
      ∃ b, s.alive b = true ∧ (s.bufs b).dev = dev ∧ (s.bufs b).bno = bno)

section

omit [DecidableEq P]

theorem carries_iff {buf : Buf P} {dev bno : ℕ} :
    buf.carries dev bno = true ↔ buf.dev = dev ∧ buf.bno = bno := by
  rw [Buf.carries, decide_eq_true_eq]
  exact and_comm

theorem Linked.count (hl : Linked s) (halive : s.alive b = true) :
    (s.hasharray k).count b = if k = (s.bufs b).hashval then 1 else 0 := by
  split
  · rename_i hk
    refine List.count_eq_one_of_mem (hl.chained.nodup k) ((hl.chained.mem_iff k b).mpr ?_)
    rw [home_of_alive halive, hk]
  · rename_i hk
    refine List.count_eq_zero.mpr fun hmem => hk ?_
    exact (Option.some_inj.mp ((home_of_alive halive).symm.trans
      ((hl.chained.mem_iff k b).mp hmem))).symm

theorem Linked.findable (hl : Linked s) (ht : Tagged t s) : Findable t s where
  onChain := by
    intro b halive hdev k
    rw [hl.count halive, ht b halive hdev]
  found := by
    intro dev bno hdev
    constructor
    · rintro ⟨b, hfound⟩
      refine ⟨b, hl.alive_of_mem (List.mem_of_find?_eq_some hfound), carries_iff.mp ?_⟩
      exact (hl.chained.find_some hfound).2
    · rintro ⟨b, halive, rfl, rfl⟩
      rw [← Option.isSome_iff_exists, Option.isSome_iff_ne_none]
      intro hnone
      have hhome := (home_of_alive halive).trans (congrArg some (ht b halive hdev))
      have hnot := hl.chained.find_none
        (fun c => (s.bufs c).carries (s.bufs b).dev (s.bufs b).bno) hnone hhome
      cases (carries_iff.mpr ⟨rfl, rfl⟩).symm.trans hnot

end

/-- **Hash chains.** While no identity is stored in a buffer of another chain, every buffer with an
    identity is on the chain of it, and `buffer_find` finds it. -/
theorem reachable_chains (h : Reach (Initial t) (step t) (StaysOnChain t) s) : Findable t s :=
  have hinv : Kept t s := Kept.reachable (fun _ _ hok => hok) h
  hinv.linked.findable hinv.tagged

/-- `NBUF` and `NHASH` at their least. -/
def smallTune : Tune := leastTune

/-- The state after `bufinit`, with block numbers of 0. -/
def freshState (P : Type) : State P where
  bufs := fun b => initBuf smallTune b 0
  nbufs := smallTune.NBUF
  alive := fun b => decide (b < smallTune.NBUF)
  hasharray := fun h =>
    ((List.range smallTune.NBUF).filter fun b => b % smallTune.NHASH = h).reverse
  lru := List.range smallTune.NBUF
  stale := false
  bufneed := false
  bufsync := 0
  pc := fun _ => .idle

omit [DecidableEq P] in
theorem freshState_initial : Initial smallTune (freshState P) :=
  ⟨rfl, fun _ => rfl, fun _ _ => ⟨0, rfl⟩, fun _ => rfl, rfl, rfl, rfl, rfl, fun _ => rfl⟩

/-- A buffer that `bclaim` has given an identity is found. -/
theorem reachable_chains_claimed : ∃ s : State Unit,
    (s.bufs 31).dev = 1 ∧ ∃ b, s.lookup smallTune 1 0 = some b := by
  obtain ⟨s, hclaim, halive, hdev, hbno⟩ : ∃ s, step smallTune (freshState Unit)
      (.bclaim () 1 0 true) = some s ∧ s.alive 31 = true ∧ (s.bufs 31).dev = 1 ∧
      (s.bufs 31).bno = 0 :=
    ⟨_, rfl, by decide +kernel⟩
  have hreach : Reach (Initial smallTune) (step smallTune) (StaysOnChain smallTune) s := by
    refine Reach.step (Reach.init freshState_initial) ?_ hclaim
    intro b dev bno hretag
    cases hretag
  exact ⟨s, hdev, ((reachable_chains hreach).found 1 0 (by decide)).mpr ⟨31, halive, hdev, hbno⟩⟩

/-- **A hole on another chain.**  The buffer for a hole of a file gets the device of the file, and
    stays on the chain of `NODEV`. -/
theorem hole_on_wrong_chain : ∃ s : State Unit,
    Reach (Initial smallTune) (step smallTune) (fun _ _ => True) s ∧ s.alive 31 = true ∧
    (s.bufs 31).dev = 1 ∧ 31 ∉ s.hasharray (HASH smallTune 1 0) ∧ ¬Findable smallTune s := by
  obtain ⟨s₁, hclaim, s₂, hhole, halive, hdev, hbno, hchain⟩ :
      ∃ s₁, step smallTune (freshState Unit) (.bclaim () NODEV 0 true) = some s₁ ∧
      ∃ s₂, step smallTune s₁ (.vreadHole () 31 1) = some s₂ ∧ s₂.alive 31 = true ∧
        (s₂.bufs 31).dev = 1 ∧ (s₂.bufs 31).bno = 0 ∧ 31 ∉ s₂.hasharray (HASH smallTune 1 0) :=
    ⟨_, rfl, _, rfl, by decide +kernel⟩
  refine ⟨s₂, ?_, halive, hdev, hchain, fun hfind => hchain ?_⟩
  · exact ((Reach.init freshState_initial).step trivial hclaim).step trivial hhole
  · have hone := hfind.onChain 31 halive (by rw [hdev]; decide) (HASH smallTune 1 0)
    rw [hdev, hbno, if_pos rfl] at hone
    rw [← List.count_pos_iff, hone]
    exact Nat.one_pos

end CohKernel.Bio
