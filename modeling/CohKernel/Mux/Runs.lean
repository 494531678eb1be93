import CohKernel.Mux.Loop

namespace CohKernel.Mux

open CohKernel.Lib
open Relation

/-!
# Links over a run

* `links_kept` — the drivers form no cycle, identifiers are unique, an unlink is done if and only if
  the link is of the kind asked for, and the loop of the last close ends, as long as `DETECT_LOOP`
  would find nothing when a link is made, for no stream of the upper driver, nothing that is linked
  is unlinked, and a stream that ordinary links lead to is not closed;
* `unlink_refused_run` — an unlink that is refused, though the link is of the kind asked for.
-/

section Runs

variable {κ δ τ : Type} [DecidableEq κ] [DecidableEq δ] [DecidableEq τ]
variable {s s' : Sys κ δ τ} {t : τ} {k upper lower : κ} {plink : Bool}

/-! ### What is to hold -/

/-- No stream is linked below a stream with an ordinary link. -/
def Sys.NoneBelow (s : Sys κ δ τ) (u : κ) : Prop :=
  ∀ l, (s.head l).shLinked = some u → (s.head l).shPlink = true

/-- The drivers form no cycle, so that `DETECT_LOOP` comes to its end; the identifiers of the links
    of a kind below a stream are unique; an unlink has been done if and only if the link was of the
    kind asked for; and the loop of a last close ends when no ordinary link is left. -/
structure Sys.Multiplexed (s : Sys κ δ τ) : Prop where
  acyclic : Acyclic s.edge
  loops : ∀ upper lower, s.detectLoop (s.streams.length + 1) upper lower ≠ none
  muxids : ∀ l l' u, (s.head l).shLinked = some u → (s.head l').shLinked = some u →
    (s.head l).shPlink = (s.head l').shPlink → (s.head l).shMuxid = (s.head l').shMuxid → l = l'
  unlinks : ∀ unlink ∈ s.unlinks, unlink.1 = unlink.2
  closes : ∀ t u rest, s.stack t = .closing u :: rest → s.NoneBelow u ∧
    ∀ ok last, ∃ s', s.step (.next t ok last) = some s' ∧ s'.stack t = rest

/-- No stream is open. -/
structure Sys.Initial (s : Sys κ δ τ) : Prop where
  streams : s.streams = []
  linked : ∀ k, (s.head k).shLinked = none ∧ (s.head k).shPlink = false
  count : ∀ k, (s.head k).shOpenCount = 0 ∧ s.opens k = 0
  idle : (∀ k, s.holder k = none) ∧ ∀ t, s.stack t = []
  unlinks : s.unlinks = []

/-- `DETECT_LOOP` would find nothing when a link is made, for no stream of the upper driver; and
    nothing that is linked is unlinked. -/
def Sys.calmNext (s : Sys κ δ τ) (ok : Bool) : List (Frame κ) → Prop
  | .named upper lower _ _ :: _ => ok = true → (s.head lower).shLinked = none →
      ∀ x ∈ s.streams, (s.head x).shTab = (s.head upper).shTab →
        s.detectLoop (s.streams.length + 1) x lower = some false
  | .unlinking upper lower _ :: _ => ok = true → (s.head lower).shLinked ≠ some upper
  | _ => True

/-- A process goes on as above; no stream that ordinary links lead to is closed for the last time;
    and no stream head is used anew that a persistent link still leads to. -/
def Sys.calm (s : Sys κ δ τ) : Event κ δ τ → Prop
  | .opens k _ _ => k ∉ s.streams → ∀ l, (s.head l).shLinked ≠ some k
  | .close _ k => (s.head k).shOpenCount = 1 → s.NoneBelow k
  | .next t ok _ => s.calmNext ok (s.stack t)
  | _ => True

/-! ### What is kept -/

/-- What is kept of the streams. -/
structure Sys.Core (s : Sys κ δ τ) : Prop where
  count : ∀ k, (s.head k).shOpenCount =
    s.opens k + if (s.head k).shLinked = none then 0 else 1
  listed : ∀ k, (s.head k).shOpenCount ≠ 0 → k ∈ s.streams
  held : ∀ k, s.holder k ≠ none → k ∈ s.streams
  plink : ∀ k, (s.head k).shPlink = true → (s.head k).shLinked ≠ none
  acyclic : Acyclic s.edge
  muxids : ∀ l l' u, (s.head l).shLinked = some u → (s.head l').shLinked = some u →
    (s.head l).shPlink = (s.head l').shPlink → (s.head l).shMuxid = (s.head l').shMuxid → l = l'
  unlinks : ∀ unlink ∈ s.unlinks, unlink.1 = unlink.2

/-- What a process relies on in a place; the rest of `SHEAD_UNLINK` is never reached. -/
def Sys.Stands (s : Sys κ δ τ) (t : τ) : Frame κ → Prop
  | .naming upper _ _ _ | .unlinking upper _ _ => s.holder upper = some t
  | .named upper _ plink muxid => s.holder upper = some t ∧
      ∀ x, (s.head x).shLinked = some upper → (s.head x).shPlink = plink →
        (s.head x).shMuxid ≠ muxid
  | .linked upper lower => s.holder upper = some t ∧ s.holder lower = some t ∧
      (s.head lower).shLinked = some upper ∧ upper ≠ lower
  | .closing u => s.holder u = some t ∧ s.NoneBelow u
  | _ => False

/-- A process is nowhere, or in a place. -/
def Sys.Standing (s : Sys κ δ τ) (t : τ) : Prop :=
  s.stack t = [] ∨ ∃ frame, s.stack t = [frame] ∧ s.Stands t frame

/-- What is kept while a process goes on. -/
structure Sys.Going (s : Sys κ δ τ) (t : τ) : Prop where
  core : s.Core
  others : ∀ t', t' ≠ t → s.Standing t'

/-- What is kept. -/
structure Sys.Inv (s : Sys κ δ τ) : Prop where
  core : s.Core
  standing : ∀ t, s.Standing t

section

omit [DecidableEq κ] [DecidableEq δ] [DecidableEq τ]

theorem Sys.Inv.going (hs : s.Inv) (t : τ) : s.Going t := ⟨hs.core, fun t' _ => hs.standing t'⟩

theorem Sys.Core.linked_listed (hs : s.Core) : s.Listed := by
  intro l u hl
  refine hs.listed l ?_
  rw [hs.count, hl, if_neg (Option.some_ne_none u)]
  omega

theorem Sys.Core.open_listed (hs : s.Core) (hk : s.opens k ≠ 0) : k ∈ s.streams := by
  refine hs.listed k ?_
  rw [hs.count]
  omega

/-- A process relies on what it holds the lock of. -/
theorem Sys.Stands.mono {frame : Frame κ} (h : s.Stands t frame)
    (hheld : ∀ k, s.holder k = some t → s'.holder k = some t)
    (hbelow : ∀ x u, s.holder u = some t → (s'.head x).shLinked = some u →
      (s.head x).shLinked = some u ∧ (s'.head x).shPlink = (s.head x).shPlink ∧
        (s'.head x).shMuxid = (s.head x).shMuxid)
    (hown : ∀ k, s.holder k = some t → (s'.head k).shLinked = (s.head k).shLinked) :
    s'.Stands t frame := by
  cases frame with
  | naming upper lower plink muxid => exact hheld _ h
  | named upper lower plink muxid =>
    obtain ⟨hupper, hnone⟩ := h
    refine ⟨hheld _ hupper, fun x hx hplink => ?_⟩
    obtain ⟨hx, hplink', hmuxid⟩ := hbelow x upper hupper hx
    rw [hmuxid]
    exact hnone x hx (hplink' ▸ hplink)
  | linked upper lower =>
    obtain ⟨hupper, hlower, hlinked, hne⟩ := h
    exact ⟨hheld _ hupper, hheld _ hlower, (hown _ hlower).trans hlinked, hne⟩
  | unlinking upper lower plink => exact hheld _ h
  | unlinked upper lower => exact h
  | unlinkClosed upper lower => exact h
  | closing u =>
    obtain ⟨hu, hnone⟩ := h
    refine ⟨hheld _ hu, fun l hl => ?_⟩
    obtain ⟨hl, hplink, -⟩ := hbelow l u hu hl
    exact hplink.trans (hnone l hl)

end

/-! ### What a process does -/

omit [DecidableEq κ] [DecidableEq δ] in
/-- A process has come to its next place. -/
theorem Sys.Going.setStack {stack : List (Frame κ)} (hs : s.Going t)
    (h : stack = [] ∨ ∃ frame, stack = [frame] ∧ s.Stands t frame) : (s.setStack t stack).Inv := by
  have hstands : ∀ t' frame, s.Stands t' frame → (s.setStack t stack).Stands t' frame :=
    fun t' frame h => h.mono (fun _ h => h) (fun _ _ _ h => ⟨h, rfl, rfl⟩) (fun _ _ => rfl)
  have hcore : (s.setStack t stack).Core :=
    ⟨hs.core.count, hs.core.listed, hs.core.held, hs.core.plink, hs.core.acyclic, hs.core.muxids,
      hs.core.unlinks⟩
  refine ⟨hcore, fun t' => ?_⟩
  show (Function.update s.stack t stack t' = [] ∨ _)
  by_cases ht : t' = t
  · subst ht
    rw [Function.update_self]
    rcases h with h | ⟨frame, h, hframe⟩
    · exact .inl h
    · refine .inr ⟨frame, ?_, hstands t' frame hframe⟩
      show Function.update s.stack t' stack t' = _
      rw [Function.update_self]
      exact h
  · rw [Function.update_of_ne ht]
    rcases hs.others t' ht with h | ⟨frame, h, hframe⟩
    · exact .inl h
    · refine .inr ⟨frame, ?_, hstands t' frame hframe⟩
      show Function.update s.stack t stack t' = _
      rw [Function.update_of_ne ht]
      exact h

section

omit [DecidableEq δ] [DecidableEq τ]

/-- A process takes a lock. -/
theorem Sys.Going.hold (hs : s.Going t) (hfree : s.holder k = none) (hk : k ∈ s.streams) :
    (s.hold k t).Going t := by
  have hother : ∀ t' k', t' ≠ t → s.holder k' = some t' → (s.hold k t).holder k' = some t' := by
    intro t' k' ht h
    have hne : k' ≠ k := by
      rintro rfl
      rw [hfree] at h
      cases h
    exact (Function.update_of_ne hne _ _).trans h
  refine ⟨⟨hs.core.count, hs.core.listed, fun k' hk' => ?_, hs.core.plink, hs.core.acyclic,
    hs.core.muxids, hs.core.unlinks⟩, fun t' ht => ?_⟩
  · by_cases hne : k' = k
    · exact hne ▸ hk
    · exact hs.core.held k' ((Function.update_of_ne hne (some t) s.holder) ▸ hk')
  · rcases hs.others t' ht with h | ⟨frame, h, hframe⟩
    · exact .inl h
    · refine .inr ⟨frame, h, hframe.mono (fun k' h => hother t' k' ht h) ?_ fun _ _ => rfl⟩
      exact fun _ _ _ h => ⟨h, rfl, rfl⟩

/-- What leaves the list with the lock is not open. -/
theorem unlock_eq (s : Sys κ δ τ) (k : κ) (last : Bool) : ∃ streams,
    s.unlock k last =
      { s with holder := Function.update s.holder k none, streams := streams } ∧
    ∀ k' ∈ s.streams, k' ≠ k ∨ (s.head k').shOpenCount ≠ 0 → k' ∈ streams := by
  unfold Sys.unlock
  dsimp only
  split_ifs with hlast
  · refine ⟨s.streams.erase k, rfl, fun k' hk' hne => (List.mem_erase_of_ne ?_).mpr hk'⟩
    rintro rfl
    rcases hne with hne | hne
    · exact hne rfl
    · exact hne hlast.2
  · exact ⟨s.streams, rfl, fun k' hk' _ => hk'⟩

/-- A process gives a lock back. -/
theorem Sys.Going.unlock (hs : s.Going t) (hk : s.holder k = some t) (last : Bool) :
    (s.unlock k last).Going t := by
  obtain ⟨streams, heq, hmem⟩ := unlock_eq s k last
  rw [heq]
  have hheld : ∀ k', Function.update s.holder k none k' ≠ none → k' ≠ k ∧ s.holder k' ≠ none := by
    intro k' hk'
    have hne : k' ≠ k := by
      rintro rfl
      exact hk' (Function.update_self _ _ _)
    exact ⟨hne, (Function.update_of_ne hne none s.holder) ▸ hk'⟩
  refine ⟨⟨hs.core.count, ?_, ?_, hs.core.plink, hs.core.acyclic, hs.core.muxids,
    hs.core.unlinks⟩, fun t' ht => ?_⟩
  · exact fun k' hk' => hmem k' (hs.core.listed k' hk') (.inr hk')
  · intro k' hk'
    obtain ⟨hne, hk'⟩ := hheld k' hk'
    exact hmem k' (hs.core.held k' hk') (.inl hne)
  · rcases hs.others t' ht with h | ⟨frame, h, hframe⟩
    · exact .inl h
    · refine .inr ⟨frame, h, hframe.mono (fun k' hk' => ?_) (fun x u _ hx => ?_) fun _ _ => rfl⟩
      · show Function.update s.holder k none k' = some t'
        rw [Function.update_of_ne]
        · exact hk'
        · rintro rfl
          rw [hk] at hk'
          exact ht (Option.some.inj hk').symm
      · exact ⟨hx, rfl, rfl⟩

/-! ### Changes of a stream head -/

@[simp] theorem set_self (s : Sys κ δ τ) (k : κ) (f : Shead κ δ → Shead κ δ) :
    (s.set k f).head k = f (s.head k) := Function.update_self _ _ _

theorem set_ne (s : Sys κ δ τ) {k k' : κ} (f : Shead κ δ → Shead κ δ) (h : k' ≠ k) :
    (s.set k f).head k' = s.head k' := Function.update_of_ne h _ _

/-- A field that is not changed is what it was. -/
theorem set_field {α : Type} (field : Shead κ δ → α) (s : Sys κ δ τ) (k : κ)
    {f : Shead κ δ → Shead κ δ} (hf : field (f (s.head k)) = field (s.head k)) (k' : κ) :
    field ((s.set k f).head k') = field (s.head k') := by
  by_cases h : k' = k
  · subst h
    rw [set_self, hf]
  · rw [set_ne s f h]

/-- `SHEAD_INIT_UNLINKED` is called with the lock of the stream. -/
theorem Sys.Going.sheadInitUnlinked (hs : s.Going t) (hk : s.holder k = some t)
    (hlinked : (s.head k).shLinked ≠ none) : (s.sheadInitUnlinked k).Going t := by
  have hhead : (s.sheadInitUnlinked k).head k =
      { s.head k with
        shLinked := none, shPlink := false, shOpenCount := (s.head k).shOpenCount - 1 } :=
    set_self s k _
  have hne : ∀ k', k' ≠ k → (s.sheadInitUnlinked k).head k' = s.head k' := fun k' h => set_ne s _ h
  -- what is linked has been linked
  have hkept : ∀ l u, ((s.sheadInitUnlinked k).head l).shLinked = some u →
      l ≠ k ∧ (s.head l).shLinked = some u := by
    intro l u hl
    have hlk : l ≠ k := by
      rintro rfl
      rw [hhead] at hl
      cases hl
    exact ⟨hlk, hne l hlk ▸ hl⟩
  have htab : ∀ k', ((s.sheadInitUnlinked k).head k').shTab = (s.head k').shTab :=
    set_field Shead.shTab s k rfl
  refine ⟨⟨fun k' => ?_, fun k' hk' => ?_, hs.core.held, fun k' hk' => ?_, ?_, ?_,
    hs.core.unlinks⟩, fun t' ht => ?_⟩
  · by_cases h : k' = k
    · subst h
      have hcount := hs.core.count k'
      rw [if_neg hlinked] at hcount
      rw [hhead]
      show (s.head k').shOpenCount - 1 = s.opens k' + 0
      omega
    · rw [hne k' h]
      exact hs.core.count k'
  · refine hs.core.listed k' ?_
    by_cases h : k' = k
    · subst h
      rw [hs.core.count, if_neg hlinked]
      omega
    · rwa [hne k' h] at hk'
  · by_cases h : k' = k
    · subst h
      rw [hhead] at hk'
      cases hk'
    · rw [hne k' h] at hk' ⊢
      exact hs.core.plink k' hk'
  · refine hs.core.acyclic.mono ?_
    rintro d d' ⟨l, u, hl, hld, hud⟩
    exact ⟨l, u, (hkept l u hl).2, htab l ▸ hld, htab u ▸ hud⟩
  · intro l l' u hl hl' hplink hmuxid
    obtain ⟨h, hl⟩ := hkept l u hl
    obtain ⟨h', hl'⟩ := hkept l' u hl'
    rw [hne l h, hne l' h'] at hplink hmuxid
    exact hs.core.muxids l l' u hl hl' hplink hmuxid
  · rcases hs.others t' ht with h | ⟨frame, h, hframe⟩
    · exact .inl h
    · refine .inr ⟨frame, h, hframe.mono (fun _ h => h) (fun x u _ hx => ?_) fun k' hk' => ?_⟩
      · obtain ⟨hxk, hx⟩ := hkept x u hx
        rw [hne x hxk]
        exact ⟨hx, rfl, rfl⟩
      · rw [hne]
        rintro rfl
        rw [hk] at hk'
        exact ht (Option.some.inj hk').symm

end

omit [DecidableEq τ] in
/-- A link is made with the locks of the two streams, and `DETECT_LOOP` would find nothing. -/
theorem Sys.Going.setLinked {muxid : Muxid} (hs : s.Going t) (hupper : s.holder upper = some t)
    (hlower : s.holder lower = some t) (hopen : lower ∈ s.streams)
    (hlinked : (s.head lower).shLinked = none)
    (hnew : ∀ x, (s.head x).shLinked = some upper → (s.head x).shPlink = plink →
      (s.head x).shMuxid ≠ muxid)
    (hloop : ∀ x ∈ s.streams, (s.head x).shTab = (s.head upper).shTab →
      s.detectLoop (s.streams.length + 1) x lower = some false) :
    (s.setLinked upper lower plink muxid).Going t := by
  have hplain : (s.head lower).shPlink = false :=
    Bool.eq_false_iff.mpr fun h => hs.core.plink lower h hlinked
  have hhead : (s.setLinked upper lower plink muxid).head lower =
      { s.head lower with
        shOpenCount := (s.head lower).shOpenCount + 1
        shLinked := some upper
        shMuxid := muxid
        shPlink := plink } := by
    rw [show (s.setLinked upper lower plink muxid).head lower = _ from set_self s lower _, hplain,
      Bool.false_or]
  have hne : ∀ k', k' ≠ lower → (s.setLinked upper lower plink muxid).head k' = s.head k' :=
    fun k' h => set_ne s _ h
  have hkept : ∀ l u, ((s.setLinked upper lower plink muxid).head l).shLinked = some u →
      l = lower ∧ u = upper ∨ l ≠ lower ∧ (s.head l).shLinked = some u := by
    intro l u hl
    by_cases h : l = lower
    · subst h
      rw [hhead] at hl
      exact .inl ⟨rfl, (Option.some.inj hl).symm⟩
    · exact .inr ⟨h, hne l h ▸ hl⟩
  have htab : ∀ k', ((s.setLinked upper lower plink muxid).head k').shTab = (s.head k').shTab :=
    set_field Shead.shTab s lower rfl
  refine ⟨⟨fun k' => ?_, fun k' hk' => ?_, hs.core.held, fun k' hk' => ?_, ?_, ?_,
    hs.core.unlinks⟩, fun t' ht => ?_⟩
  · by_cases h : k' = lower
    · subst h
      have hcount := hs.core.count k'
      rw [if_pos hlinked] at hcount
      rw [hhead]
      show (s.head k').shOpenCount + 1 = s.opens k' + 1
      omega
    · rw [hne k' h]
      exact hs.core.count k'
  · by_cases h : k' = lower
    · exact h ▸ hopen
    · rw [hne k' h] at hk'
      exact hs.core.listed k' hk'
  · by_cases h : k' = lower
    · subst h
      rw [hhead]
      exact Option.some_ne_none upper
    · rw [hne k' h] at hk' ⊢
      exact hs.core.plink k' hk'
  · -- the new pair leads from the driver of the lower stream to that of the upper one
    refine (hs.core.acyclic.insert (detectLoop_path hs.core.linked_listed hopen
      fun x hx htab => ⟨_, hloop x hx htab⟩)).mono ?_
    rintro d d' ⟨l, u, hl, hld, hud⟩
    rw [htab] at hld hud
    rcases hkept l u hl with ⟨rfl, rfl⟩ | ⟨-, hl⟩
    · exact .inr ⟨hld.symm, hud.symm⟩
    · exact .inl ⟨l, u, hl, hld, hud⟩
  · -- the identifier has not been in use
    have hunique : ∀ l, l ≠ lower → (s.head l).shLinked = some upper →
        ((s.setLinked upper lower plink muxid).head l).shPlink =
          ((s.setLinked upper lower plink muxid).head lower).shPlink →
        ((s.setLinked upper lower plink muxid).head l).shMuxid =
          ((s.setLinked upper lower plink muxid).head lower).shMuxid → False := by
      intro l h hl hplink hmuxid
      rw [hhead, hne l h] at hplink hmuxid
      exact hnew l hl hplink hmuxid
    intro l l' u hl hl' hplink hmuxid
    rcases hkept l u hl with ⟨rfl, rfl⟩ | ⟨h, hold⟩
    · rcases hkept l' u hl' with ⟨rfl, -⟩ | ⟨h', hold'⟩
      · rfl
      · exact (hunique l' h' hold' hplink.symm hmuxid.symm).elim
    · rcases hkept l' u hl' with ⟨rfl, rfl⟩ | ⟨h', hold'⟩
      · exact (hunique l h hold hplink hmuxid).elim
      · rw [hne l h, hne l' h'] at hplink hmuxid
        exact hs.core.muxids l l' u hold hold' hplink hmuxid
  · rcases hs.others t' ht with h | ⟨frame, h, hframe⟩
    · exact .inl h
    · refine .inr ⟨frame, h, hframe.mono (fun _ h => h) (fun x u hu hx => ?_) fun k' hk' => ?_⟩
      · rcases hkept x u hx with ⟨-, rfl⟩ | ⟨hxl, hx⟩
        · rw [hupper] at hu
          exact absurd (Option.some.inj hu).symm ht
        · rw [hne x hxl]
          exact ⟨hx, rfl, rfl⟩
      · rw [hne]
        rintro rfl
        rw [hlower] at hk'
        exact ht (Option.some.inj hk').symm

omit [DecidableEq δ] [DecidableEq τ] in
/-- The open count of a stream is changed. -/
theorem Sys.Inv.setCount (hs : s.Inv) (f : ℕ → ℕ) (opens : ℕ) (hk : k ∈ s.streams)
    (hf : f (s.head k).shOpenCount = opens + if (s.head k).shLinked = none then 0 else 1) :
    (Sys.set { s with opens := Function.update s.opens k opens } k fun head =>
      { head with shOpenCount := f head.shOpenCount }).Inv := by
  let s₁ : Sys κ δ τ := Sys.set { s with opens := Function.update s.opens k opens } k fun head =>
    { head with shOpenCount := f head.shOpenCount }
  have hlinked : ∀ k', (s₁.head k').shLinked = (s.head k').shLinked :=
    set_field Shead.shLinked { s with opens := Function.update s.opens k opens } k rfl
  have hplink : ∀ k', (s₁.head k').shPlink = (s.head k').shPlink :=
    set_field Shead.shPlink { s with opens := Function.update s.opens k opens } k rfl
  have hmuxid : ∀ k', (s₁.head k').shMuxid = (s.head k').shMuxid :=
    set_field Shead.shMuxid { s with opens := Function.update s.opens k opens } k rfl
  have htab : ∀ k', (s₁.head k').shTab = (s.head k').shTab :=
    set_field Shead.shTab { s with opens := Function.update s.opens k opens } k rfl
  have hne : ∀ k', k' ≠ k → s₁.head k' = s.head k' := fun k' h => Function.update_of_ne h _ _
  show s₁.Inv
  refine ⟨⟨fun k' => ?_, fun k' hk' => ?_, hs.core.held, fun k' hk' => ?_, ?_, ?_,
    hs.core.unlinks⟩, fun t => ?_⟩
  · rw [hlinked]
    show _ = Function.update s.opens k opens k' + _
    by_cases h : k' = k
    · subst h
      rw [Function.update_self, ← hf]
      exact congrArg Shead.shOpenCount (Function.update_self k' _ s.head)
    · rw [Function.update_of_ne h, hne k' h]
      exact hs.core.count k'
  · by_cases h : k' = k
    · exact h ▸ hk
    · rw [hne k' h] at hk'
      exact hs.core.listed k' hk'
  · rw [hplink] at hk'
    rw [hlinked]
    exact hs.core.plink k' hk'
  · refine hs.core.acyclic.mono ?_
    rintro d d' ⟨l, u, hl, hld, hud⟩
    exact ⟨l, u, hlinked l ▸ hl, htab l ▸ hld, htab u ▸ hud⟩
  · intro l l' u hl hl'
    rw [hlinked] at hl hl'
    rw [hplink, hplink, hmuxid, hmuxid]
    exact hs.core.muxids l l' u hl hl'
  · rcases hs.standing t with h | ⟨frame, h, hframe⟩
    · exact .inl h
    · refine .inr ⟨frame, h, hframe.mono (fun _ h => h) (fun x u _ hx => ?_) fun k' _ => hlinked k'⟩
      exact ⟨hlinked x ▸ hx, hplink x, hmuxid x⟩

omit [DecidableEq δ] [DecidableEq τ] in
/-- A stream head is made, where nothing leads to. -/
theorem Sys.Inv.create (hs : s.Inv) (hk : k ∉ s.streams) (hnone : ∀ l, (s.head l).shLinked ≠ some k)
    (tab : δ) (dev : Muxid) :
    Sys.Inv { Sys.set { s with opens := Function.update s.opens k (s.opens k + 1) } k
      (fun _ => ⟨tab, dev, none, 0, false, 1⟩) with streams := k :: s.streams } := by
  let s₁ : Sys κ δ τ :=
    { Sys.set { s with opens := Function.update s.opens k (s.opens k + 1) } k
      (fun _ => ⟨tab, dev, none, 0, false, 1⟩) with streams := k :: s.streams }
  have hhead : s₁.head k = ⟨tab, dev, none, 0, false, 1⟩ := Function.update_self _ _ _
  have hne : ∀ k', k' ≠ k → s₁.head k' = s.head k' := fun k' h => Function.update_of_ne h _ _
  have hkept : ∀ l u, (s₁.head l).shLinked = some u → l ≠ k ∧ (s.head l).shLinked = some u := by
    intro l u hl
    have hlk : l ≠ k := by
      rintro rfl
      rw [hhead] at hl
      cases hl
    exact ⟨hlk, hne l hlk ▸ hl⟩
  -- a stream that is not on the list is not open
  have hclosed : (s.head k).shOpenCount = 0 := by
    by_contra h
    exact hk (hs.core.listed k h)
  have hopens : s.opens k = 0 := by
    have hcount := hs.core.count k
    omega
  show s₁.Inv
  refine ⟨⟨fun k' => ?_, fun k' hk' => ?_, fun k' hk' => ?_, fun k' hk' => ?_, ?_, ?_,
    hs.core.unlinks⟩, fun t => ?_⟩
  · show _ = Function.update s.opens k (s.opens k + 1) k' + _
    by_cases h : k' = k
    · subst h
      rw [Function.update_self, hhead, hopens]
      rfl
    · rw [Function.update_of_ne h, hne k' h]
      exact hs.core.count k'
  · by_cases h : k' = k
    · exact h ▸ List.mem_cons_self
    · rw [hne k' h] at hk'
      exact List.mem_cons_of_mem _ (hs.core.listed k' hk')
  · exact List.mem_cons_of_mem _ (hs.core.held k' hk')
  · by_cases h : k' = k
    · subst h
      rw [hhead] at hk'
      cases hk'
    · rw [hne k' h] at hk' ⊢
      exact hs.core.plink k' hk'
  · refine hs.core.acyclic.mono ?_
    rintro d d' ⟨l, u, hl, hld, hud⟩
    obtain ⟨hlk, hold⟩ := hkept l u hl
    have huk : u ≠ k := by
      rintro rfl
      exact hnone l hold
    rw [hne l hlk] at hld
    rw [hne u huk] at hud
    exact ⟨l, u, hold, hld, hud⟩
  · intro l l' u hl hl' hplink hmuxid
    obtain ⟨h, hl⟩ := hkept l u hl
    obtain ⟨h', hl'⟩ := hkept l' u hl'
    rw [hne l h, hne l' h'] at hplink hmuxid
    exact hs.core.muxids l l' u hl hl' hplink hmuxid
  · rcases hs.standing t with h | ⟨frame, h, hframe⟩
    · exact .inl h
    · refine .inr ⟨frame, h, hframe.mono (fun _ h => h) (fun x u _ hx => ?_) fun k' hk' => ?_⟩
      · obtain ⟨hxk, hx⟩ := hkept x u hx
        rw [hne x hxk]
        exact ⟨hx, rfl, rfl⟩
      · rw [hne]
        rintro rfl
        refine hk (hs.core.held k' ?_)
        rw [hk']
        exact Option.some_ne_none t

/-! ### Steps -/

omit [DecidableEq δ] in
theorem linkReturn_stack (s : Sys κ δ τ) (t : τ) (upper : κ) (last : Bool) :
    (s.linkReturn t upper last).stack t = [] := by
  obtain ⟨streams, heq, -⟩ := unlock_eq (s.setStack t []) upper last
  unfold Sys.linkReturn
  rw [heq]
  exact Function.update_self _ _ _

omit [DecidableEq δ] in
/-- `SHEAD_LINK` returns. -/
theorem Sys.Going.linkReturn (hs : s.Going t) (hupper : s.holder upper = some t) (last : Bool) :
    (s.linkReturn t upper last).Inv := by
  have hgoing : (s.linkReturn t upper last).Going t :=
    ((hs.setStack (.inl rfl)).going t).unlock hupper last
  refine ⟨hgoing.core, fun t' => ?_⟩
  by_cases ht : t' = t
  · subst ht
    exact .inl (linkReturn_stack s t' upper last)
  · exact hgoing.others t' ht

omit [DecidableEq δ] [DecidableEq τ] in
theorem hold_self (s : Sys κ δ τ) (k : κ) (t : τ) : (s.hold k t).holder k = some t :=
  Function.update_self _ _ _

omit [DecidableEq δ] [DecidableEq τ] in
/-- The loop of `SHEAD_FINAL_CLOSE` finds nothing when nothing is linked with an ordinary link. -/
theorem find_none {u : κ} (h : s.NoneBelow u) : s.sheadFindMuxid u false (-1) = none := by
  refine List.find?_eq_none.mpr fun x _ hx => ?_
  obtain ⟨hlinked, hplink, -⟩ := of_decide_eq_true hx
  rw [h x hlinked] at hplink
  cases hplink

/-- A process goes on. -/
theorem next_inv {ok last : Bool} (hs : s.Inv) (hok : s.calm (.next t ok last))
    (h : s.step (.next t ok last) = some s') : s'.Inv := by
  change s.next t ok last (s.stack t) = some s' at h
  rcases hs.standing t with hnil | ⟨frame, hstack, hstands⟩
  · rw [hnil] at h
    cases h
  rw [hstack] at h
  change s.calmNext ok (s.stack t) at hok
  rw [hstack] at hok
  cases frame with
  | naming upper lower plink muxid =>
    rw [Sys.next] at h
    split_ifs at h with hfind
    · cases h
      exact (hs.going t).setStack (.inr ⟨_, rfl, hstands⟩)
    · cases h
      refine (hs.going t).setStack (.inr ⟨_, rfl, hstands, fun x hx hplink hmuxid => hfind ?_⟩)
      refine List.find?_isSome.mpr ⟨x, hs.core.linked_listed x upper hx, ?_⟩
      exact decide_eq_true ⟨hx, hplink, .inl hmuxid⟩
  | named upper lower plink muxid =>
    obtain ⟨hupper, hnew⟩ := hstands
    rw [Sys.next] at h
    split_ifs at h with hfail hlock hlinked
    · cases h
      exact (hs.going t).linkReturn hupper last
    · cases h
      exact (hs.going t).linkReturn hupper last
    · cases h
      have hfree : s.holder lower = none := by
        by_contra h
        exact hlock (.inl h)
      have hnone : (s.head lower).shLinked = none := by
        by_contra h
        exact hlinked h
      have hne : upper ≠ lower := by
        rintro rfl
        rw [hfree] at hupper
        cases hupper
      have hlower : lower ∈ s.streams := hs.core.open_listed fun h => hlock (.inr h)
      have hupper' : (s.hold lower t).holder upper = some t :=
        (Function.update_of_ne hne _ _).trans hupper
      have hgoing : ((s.hold lower t).setLinked upper lower plink muxid).Going t := by
        refine ((hs.going t).hold hfree hlower).setLinked hupper' (hold_self s lower t) hlower hnone
          hnew fun x hx htab => ?_
        have hsame : (s.hold lower t).detectLoop (s.streams.length + 1) x lower =
            s.detectLoop (s.streams.length + 1) x lower := detectLoop_congr rfl rfl
        exact hsame.trans (hok (by simpa using hfail) hnone x hx htab)
      refine hgoing.setStack (.inr ⟨_, rfl, hupper', hold_self s lower t, ?_, hne⟩)
      exact congrArg Shead.shLinked (set_self (s.hold lower t) lower _)
  | linked upper lower =>
    obtain ⟨hupper, hlower, hlinked, hne⟩ := hstands
    have hdone : ∀ s₁ : Sys κ δ τ, s₁.Going t → s₁.holder = s.holder →
        ((s₁.unlock lower last).linkReturn t upper last).Inv := by
      intro s₁ hs₁ hholder
      refine (hs₁.unlock (by rw [hholder]; exact hlower) last).linkReturn ?_ last
      obtain ⟨streams, heq, -⟩ := unlock_eq s₁ lower last
      rw [heq]
      show Function.update s₁.holder lower none upper = some t
      rw [Function.update_of_ne hne, hholder]
      exact hupper
    cases ok with
    | true =>
      cases h
      exact hdone s (hs.going t) rfl
    | false =>
      cases h
      refine hdone _ ((hs.going t).sheadInitUnlinked hlower ?_) rfl
      rw [hlinked]
      exact Option.some_ne_none upper
  | unlinking upper lower plink =>
    rw [Sys.next] at h
    dsimp only at h
    split_ifs at h with hfail hlock hrefused
    · cases h
      exact (hs.going t).linkReturn hstands last
    · -- the stream is not linked below the other one
      cases h
      have hnot := hok (by simpa using hfail)
      have hmatching : s.matching upper lower plink = false :=
        decide_eq_false fun h => hnot h.1
      let unlinks := (s.matching upper lower plink, !s.refused upper lower plink) :: s.unlinks
      have hs₁ : Sys.Inv { s with unlinks := unlinks } := by
        refine ⟨⟨hs.core.count, hs.core.listed, hs.core.held, hs.core.plink, hs.core.acyclic,
          hs.core.muxids, fun unlink hunlink => ?_⟩, fun t' => ?_⟩
        · rcases List.mem_cons.mp hunlink with rfl | hunlink
          · rw [hmatching, hrefused]
            rfl
          · exact hs.core.unlinks unlink hunlink
        · rcases hs.standing t' with h | ⟨frame, h, hframe⟩
          · exact .inl h
          · refine .inr ⟨frame, h, hframe.mono (fun _ h => h) ?_ fun _ _ => rfl⟩
            exact fun _ _ _ hx => ⟨hx, rfl, rfl⟩
      exact (hs₁.going t).linkReturn hstands last
    · refine absurd (decide_eq_true ?_) hrefused
      exact .inl (hok (by simpa using hfail))
  | unlinked upper lower => exact hstands.elim
  | unlinkClosed upper lower => exact hstands.elim
  | closing u =>
    obtain ⟨hu, hbelow⟩ := hstands
    rw [Sys.next, find_none hbelow] at h
    cases h
    exact (hs.going t).linkReturn hu last

/-- A step keeps what is to be kept. -/
theorem Sys.Inv.step {e : Event κ δ τ} (hs : s.Inv) (hok : s.calm e) (h : s.step e = some s') :
    s'.Inv := by
  cases e with
  | opens k tab dev =>
    unfold Sys.step at h
    dsimp only at h
    split_ifs at h with hlock hlisted
    · cases h
      refine hs.setCount (fun n => n + 1) (s.opens k + 1) hlisted ?_
      have hcount := hs.core.count k
      omega
    · cases h
      exact hs.create hlisted (hok hlisted) tab dev
  | link t upper lower plink depth =>
    unfold Sys.step at h
    dsimp only at h
    split_ifs at h with hbusy hmux
    · cases h
      exact hs
    · obtain ⟨-, hfree, hopen⟩ : s.stack t = [] ∧ s.holder upper = none ∧ s.opens upper ≠ 0 := by
        simpa [not_or] using hbusy
      cases hloop : s.detectLoop depth upper lower with
      | none =>
        rw [hloop] at h
        cases h
      | some found =>
        rw [hloop] at h
        cases found with
        | true =>
          cases h
          exact hs
        | false =>
          cases h
          refine ((hs.going t).hold hfree ?_).setStack (.inr ⟨_, rfl, hold_self s upper t⟩)
          exact hs.core.open_listed hopen
  | unlink t upper lower plink =>
    unfold Sys.step at h
    dsimp only at h
    split_ifs at h with hbusy
    cases h
    obtain ⟨-, hfree, hopen⟩ : s.stack t = [] ∧ s.holder upper = none ∧ s.opens upper ≠ 0 := by
      simpa [not_or] using hbusy
    refine ((hs.going t).hold hfree ?_).setStack (.inr ⟨_, rfl, hold_self s upper t⟩)
    exact hs.core.open_listed hopen
  | close t k =>
    unfold Sys.step at h
    dsimp only at h
    split_ifs at h with hbusy hlast
    · obtain ⟨-, hfree, hopen⟩ : s.stack t = [] ∧ s.holder k = none ∧ s.opens k ≠ 0 := by
        simpa [not_or] using hbusy
      cases h
      have hlisted := hs.core.open_listed hopen
      have hcount := hs.core.count k
      rw [set_self] at hlast
      change (s.head k).shOpenCount - 1 = 0 at hlast
      have hbelow := hok (by omega)
      have hs₁ := hs.setCount (fun n => n - 1) (s.opens k - 1) hlisted (by omega)
      refine ((hs₁.going t).hold hfree hlisted).setStack (.inr ⟨_, rfl, hold_self _ k t, ?_⟩)
      let s₀ : Sys κ δ τ := { s with opens := Function.update s.opens k (s.opens k - 1) }
      let f : Shead κ δ → Shead κ δ := fun head => { head with shOpenCount := head.shOpenCount - 1 }
      intro l hl
      refine (set_field Shead.shPlink s₀ k (f := f) rfl l).trans (hbelow l ?_)
      exact (set_field Shead.shLinked s₀ k (f := f) rfl l).symm.trans hl
    · obtain ⟨-, hfree, hopen⟩ : s.stack t = [] ∧ s.holder k = none ∧ s.opens k ≠ 0 := by
        simpa [not_or] using hbusy
      cases h
      refine hs.setCount (fun n => n - 1) (s.opens k - 1) (hs.core.open_listed hopen) ?_
      have hcount := hs.core.count k
      omega
  | next t ok last => exact next_inv hs hok h

/-! ### Every run -/

omit [DecidableEq κ] [DecidableEq δ] [DecidableEq τ] in
theorem Sys.Initial.inv (hs : s.Initial) : s.Inv := by
  have hnone : ∀ l u, (s.head l).shLinked ≠ some u := by
    intro l u hl
    rw [(hs.linked l).1] at hl
    cases hl
  refine ⟨⟨fun k => ?_, fun k hk => ?_, fun k hk => ?_, fun k hk => ?_, ?_, ?_, ?_⟩,
    fun t => .inl (hs.idle.2 t)⟩
  · rw [(hs.count k).1, (hs.count k).2, (hs.linked k).1]
    rfl
  · exact absurd (hs.count k).1 hk
  · exact absurd (hs.idle.1 k) hk
  · rw [(hs.linked k).2] at hk
    cases hk
  · intro d hd
    obtain ⟨d', ⟨l, u, hl, -⟩, -⟩ := TransGen.head'_iff.mp hd
    exact hnone l u hl
  · exact fun l l' u hl => absurd hl (hnone l u)
  · rw [hs.unlinks]
    nofun

/-- **Links below multiplexors** form no cycle and have unique identifiers, in every run in which
    `DETECT_LOOP` would find nothing when a link is made, for no stream of the upper driver, nothing
    that is linked is unlinked, and no stream is closed that ordinary links lead to. -/
theorem links_kept (hr : Reach Sys.Initial Sys.step (fun (s : Sys κ δ τ) e => s.calm e) s) :
    s.Multiplexed := by
  have hinv : s.Inv := by
    refine @Reach.invariant _ _ _ _ _ Sys.Inv ?_ ?_ s hr
    · exact fun s hs => hs.inv
    · exact fun s e s' hs hok hstep => hs.step hok hstep
  refine ⟨hinv.core.acyclic, detectLoop_ends hinv.core.linked_listed hinv.core.acyclic,
    hinv.core.muxids, hinv.core.unlinks, fun t u rest hstack => ?_⟩
  rcases hinv.standing t with h | ⟨frame, h, hframe⟩
  · rw [hstack] at h
    cases h
  · rw [hstack] at h
    obtain ⟨rfl, rfl⟩ := List.cons_eq_cons.mp h
    obtain ⟨-, hbelow⟩ := hframe
    refine ⟨hbelow, fun ok last => ⟨s.linkReturn t u last, ?_, linkReturn_stack s t u last⟩⟩
    show s.next t ok last (s.stack t) = _
    rw [hstack, Sys.next, find_none hbelow]
    rfl

end Runs

/-! ### Computed runs -/

/-- Four streams, none of them open; every driver is a multiplexor. -/
def Sys.quiet : Sys (Fin 4) (Fin 4) (Fin 2) where
  head := fun _ => ⟨0, 0, none, 0, false, 0⟩
  streams := []
  muxinit := fun _ => true
  holder := fun _ => none
  stack := fun _ => []
  opens := fun _ => 0
  unlinks := []

theorem Sys.quiet_initial : Sys.quiet.Initial :=
  ⟨rfl, fun _ => ⟨rfl, rfl⟩, fun _ => ⟨rfl, rfl⟩, ⟨fun _ => rfl, fun _ => rfl⟩, rfl⟩

instance {κ δ τ : Type} [Fintype κ] [DecidableEq κ] (s : Sys κ δ τ) (u : κ) :
    Decidable (s.NoneBelow u) :=
  inferInstanceAs (Decidable (∀ l, (s.head l).shLinked = some u → (s.head l).shPlink = true))

instance {κ δ τ : Type} [DecidableEq κ] [DecidableEq δ] (s : Sys κ δ τ) (ok : Bool)
    (stack : List (Frame κ)) : Decidable (s.calmNext ok stack) := by
  unfold Sys.calmNext
  split <;> infer_instance

instance {κ δ τ : Type} [Fintype κ] [DecidableEq κ] [DecidableEq δ] (s : Sys κ δ τ)
    (e : Event κ δ τ) : Decidable (s.calm e) := by
  cases e <;> unfold Sys.calm <;> infer_instance

/-- Two streams are linked below one another, one of them for good; the third cannot be linked below
    the last, and is closed. -/
theorem links_kept_run : ∃ s : Sys (Fin 4) (Fin 4) (Fin 2), s.Multiplexed ∧
    (s.head 1).shLinked = some 0 ∧ (s.head 2).shLinked = some 1 ∧ s.unlinks = [(false, false)] := by
  have hrun : (runFrom (fun (s : Sys (Fin 4) (Fin 4) (Fin 2)) e =>
      if decide (s.calm e) then s.step e else none) Sys.quiet
        [.opens 0 0 7, .opens 1 1 7, .opens 2 2 7, .opens 3 3 7, .link 0 0 1 false 5,
          .link 1 1 2 true 5, .next 0 true true, .next 1 true true, .next 1 true true,
          .next 1 true true, .next 0 true true, .next 0 true true, .link 0 2 0 false 5,
          .unlink 0 2 1 false, .next 0 true true, .close 0 3, .next 0 true true]).any
      (fun s => (s.head 1).shLinked = some 0 ∧ (s.head 2).shLinked = some 1 ∧
        s.unlinks = [(false, false)]) = true := by
    decide +kernel
  obtain ⟨s, hs, hend⟩ := (Option.any_eq_true _ _).mp hrun
  exact ⟨s, links_kept (Reach.checked (fun _ _ h => of_decide_eq_true h)
    (Reach.init Sys.quiet_initial) hs), of_decide_eq_true hend⟩

/-- **An unlink is refused** though the link is of the kind asked for. -/
theorem unlink_refused_run : ¬ ∀ s : Sys (Fin 4) (Fin 4) (Fin 2),
    Reach Sys.Initial Sys.step (fun _ _ => True) s → s.Multiplexed := by
  intro hall
  have hrun : (runFrom Sys.step Sys.quiet
      [.opens 0 0 7, .opens 1 1 7, .link 0 0 1 false 3, .next 0 true true, .next 0 true true,
        .next 0 true true, .unlink 0 0 1 false, .next 0 true true]).any
      (fun s => s.unlinks = [(true, false)]) = true := by decide +kernel
  obtain ⟨s, hs, hend⟩ := (Option.any_eq_true _ _).mp hrun
  have hunlinks :=
      (hall s (Reach.run (fun _ _ => trivial) (Reach.init Sys.quiet_initial) hs)).unlinks
  rw [of_decide_eq_true hend] at hunlinks
  have hwrong := hunlinks _ List.mem_cons_self
  cases hwrong

end CohKernel.Mux
