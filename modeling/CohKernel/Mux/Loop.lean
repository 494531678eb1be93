import CohKernel.Lib.Waits
import CohKernel.Mux.Defs

namespace CohKernel.Mux

open CohKernel.Lib
open Relation

/-!
# What `DETECT_LOOP` finds out

* `detectLoop_path` — no path leads from a driver to the driver of the lower stream when
  `DETECT_LOOP` returns 0 for every stream of that driver;
* `detectLoop_ends` — the recursion of `DETECT_LOOP` is no deeper than the number of streams when
  there is no cycle.
-/

variable {κ δ τ : Type} {s : Sys κ δ τ} {upper lower : κ} {d : δ} {depth : ℕ}

/-- The driver of a stream is linked below the driver of another one. -/
def Sys.edge (s : Sys κ δ τ) (d d' : δ) : Prop :=
  ∃ l u, (s.head l).shLinked = some u ∧ (s.head l).shTab = d ∧ (s.head u).shTab = d'

/-- A stream that is linked is on the list. -/
def Sys.Listed (s : Sys κ δ τ) : Prop := ∀ l u, (s.head l).shLinked = some u → l ∈ s.streams

/-! ### No path -/

variable [DecidableEq δ]

theorem detectLoop_congr {s' : Sys κ δ τ} (hhead : s'.head = s.head)
    (hstreams : s'.streams = s.streams) :
    s'.detectLoop depth upper lower = s.detectLoop depth upper lower := by
  induction depth generalizing upper with
  | zero => rfl
  | succ depth ih =>
    unfold Sys.detectLoop
    rw [hhead, hstreams]
    simp only [ih]

theorem detectLoop_tab (depth : ℕ) (h : s.detectLoop depth upper lower = some false) :
    (s.head upper).shTab ≠ (s.head lower).shTab := by
  intro htab
  cases depth with
  | zero => cases h
  | succ depth =>
    unfold Sys.detectLoop at h
    rw [if_pos htab] at h
    cases h

/-- `DETECT_LOOP` goes on with every stream of the driver above. -/
theorem detectLoop_above {u x : κ} (h : s.detectLoop depth upper lower = some false)
    (hu : (s.head upper).shLinked = some u) (hx : x ∈ s.streams)
    (htab : (s.head x).shTab = (s.head u).shTab) :
    ∃ depth, s.detectLoop depth x lower = some false := by
  cases depth with
  | zero => cases h
  | succ depth =>
    unfold Sys.detectLoop at h
    rw [if_neg (detectLoop_tab (depth + 1) h), hu] at h
    have hscan := anyM_false h x hx
    rw [if_pos htab] at hscan
    exact ⟨depth, hscan⟩

/-- **No path leads from a driver** to the driver of the lower stream when `DETECT_LOOP` returns 0
    for every stream of that driver. -/
theorem detectLoop_path (hlisted : s.Listed) (hlower : lower ∈ s.streams)
    (h : ∀ x ∈ s.streams, (s.head x).shTab = d → ∃ depth, s.detectLoop depth x lower = some false) :
    ¬ ReflTransGen s.edge d (s.head lower).shTab := by
  intro hpath
  induction hpath using ReflTransGen.head_induction_on with
  | refl =>
    obtain ⟨depth, hdepth⟩ := h lower hlower rfl
    exact detectLoop_tab _ hdepth rfl
  | head hedge _ ih =>
    obtain ⟨l, u, hl, htab, hu⟩ := hedge
    obtain ⟨depth, hdepth⟩ := h l (hlisted l u hl) htab
    exact ih fun x hx htab => detectLoop_above hdepth hl hx (htab.trans hu.symm)

/-! ### The end of the recursion -/

/-- The drivers that something is linked below. -/
def Sys.uppers (s : Sys κ δ τ) : Finset δ :=
  (s.streams.filterMap fun l => (s.head l).shLinked.map fun u => (s.head u).shTab).toFinset

theorem card_uppers_le (s : Sys κ δ τ) : s.uppers.card ≤ s.streams.length :=
  (List.toFinset_card_le _).trans (List.length_filterMap_le _ _)

theorem mem_uppers {l u : κ} (hl : l ∈ s.streams) (hu : (s.head l).shLinked = some u) :
    (s.head u).shTab ∈ s.uppers :=
  List.mem_toFinset.mpr (List.mem_filterMap.mpr ⟨l, hl, by rw [hu]; rfl⟩)

theorem detectLoop_rank (hlisted : s.Listed) (hacyclic : Acyclic s.edge) :
    ∀ (depth : ℕ) (upper : κ), rank s.edge s.uppers (s.head upper).shTab < depth →
      s.detectLoop depth upper lower ≠ none := by
  intro depth
  induction depth with
  | zero => nofun
  | succ depth ih =>
    intro upper hrank
    unfold Sys.detectLoop
    split_ifs with htab
    · nofun
    · cases hu : (s.head upper).shLinked with
      | none => nofun
      | some u =>
        refine anyM_ne_none fun x _ => ?_
        split_ifs with hx
        · have hlt : rank s.edge s.uppers (s.head u).shTab <
              rank s.edge s.uppers (s.head upper).shTab :=
            hacyclic.rank_lt ⟨upper, u, hu, rfl, rfl⟩ (mem_uppers (hlisted upper u hu) hu)
          refine ih x ?_
          rw [hx]
          omega
        · nofun

/-- **The recursion of `DETECT_LOOP` comes to its end** when there is no cycle. -/
theorem detectLoop_ends (hlisted : s.Listed) (hacyclic : Acyclic s.edge) (upper lower : κ) :
    s.detectLoop (s.streams.length + 1) upper lower ≠ none := by
  refine detectLoop_rank hlisted hacyclic _ upper ?_
  have hrank := rank_le s.edge s.uppers (s.head upper).shTab
  have hcard := card_uppers_le s
  omega

end CohKernel.Mux
