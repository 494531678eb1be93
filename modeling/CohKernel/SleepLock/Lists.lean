import CohKernel.SleepLock.Defs
import CohKernel.Lib.Dll
import Mathlib.Data.List.TakeWhile

namespace CohKernel.SleepLock

open CohKernel.Lib

/-!
# The process lists of sleep locks

The lists are doubly linked queues in the sense of the library.

* `scan_eq` — the walk ends at the place of a priority;
* `links_link` — a process is put there;
* `links_unlinkHead` — the head of a list is taken out.
-/

variable {P L : Type} {s s' : State P L} {p q : P} {l : L} {Q : L → List P} {ts : List P}
  {priority : Pri}

/-- The links of the lists.  A node has a link back while `pn_plistp` is set. -/
def State.links (s : State P L) : Links L P where
  next := fun
    | .head l => s.plHead l
    | .cell p => s.pnNext p
  last := fun p => (s.pnPlistp p).map fun l =>
    match s.pnPrev p with
    | none => .head l
    | some q => .cell q

/-- The link after a node, or the head of the list. -/
def linkAfter (l : L) : Option P → Link L P
  | none => .head l
  | some q => .cell q

/-- The last node, or the one before it. -/
def lastNode : Option P → List P → Option P
  | pprev, [] => pprev
  | _, t :: ts => lastNode (some t) ts

theorem linkAfter_lastNode (l : L) (pprev : Option P) (ts : List P) :
    linkAfter l (lastNode pprev ts) = endLink (linkAfter l pprev) ts := by
  induction ts generalizing pprev with
  | nil => rfl
  | cons t ts ih => exact ih (some t)

/-! ### The walk -/

/-- The nodes that stay before a process of a priority. -/
def State.stays (s : State P L) (priority : Pri) (q : P) : Bool :=
  decide (priority ≤ s.pnPriority q)

/-- **The walk ends** before the first node of a lower priority. -/
theorem scan_eq {fuel : ℕ} {pprev : Option P} (hseg : Seg s.links (linkAfter l pprev) ts)
    (hstop : s.links.next (endLink (linkAfter l pprev) ts) = none) (hfuel : ts.length < fuel) :
    s.scan priority fuel pprev ts.head? =
      some (lastNode pprev (ts.takeWhile (s.stays priority)),
        (ts.dropWhile (s.stays priority)).head?) := by
  induction ts generalizing fuel pprev with
  | nil =>
    obtain ⟨fuel, rfl⟩ : ∃ n, fuel = n + 1 := Nat.exists_eq_succ_of_ne_zero (by omega)
    rfl
  | cons t ts ih =>
    obtain ⟨fuel, rfl⟩ : ∃ n, fuel = n + 1 := Nat.exists_eq_succ_of_ne_zero (by omega)
    have hnext : s.pnNext t = ts.head? := by
      cases ts with
      | nil => exact hstop
      | cons x ts => exact hseg.2.2.1
    rw [List.head?_cons, State.scan]
    by_cases hlt : s.pnPriority t < priority
    · have hstays : s.stays priority t = false := decide_eq_false (not_le.mpr hlt)
      rw [if_pos hlt, List.takeWhile_cons, List.dropWhile_cons, hstays]
      rfl
    · have hstays : s.stays priority t = true := decide_eq_true (not_lt.mp hlt)
      have hlen : ts.length < fuel := by
        rw [List.length_cons] at hfuel
        omega
      rw [if_neg hlt, List.takeWhile_cons, List.dropWhile_cons, hstays, hnext]
      exact @ih fuel (some t) hseg.2.2 hstop hlen

variable [DecidableEq P] [DecidableEq L]

/-! ### The operations -/

/-- **A process is put** between two nodes. -/
theorem links_link {pprev pscan : Option P} (hnext : s.links.next (linkAfter l pprev) = pscan)
    (hscan : ∀ q, pscan = some q → s.pnPlistp q ≠ none ∧ q ≠ p) (hprev : pprev ≠ some p) :
    (s.link l p pprev pscan).links = s.links.insert (linkAfter l pprev) p := by
  have hnexts : ∀ x, (s.link l p pprev pscan).links.next x =
      (s.links.insert (linkAfter l pprev) p).next x := by
    intro x
    unfold Links.insert
    rw [hnext]
    cases pprev with
    | none =>
      cases x with
      | head m =>
        by_cases hm : m = l
        · subst hm
          simp [State.links, State.link, linkAfter]
        · have hne : (Link.head m : Link L P) ≠ .head l := fun h => hm (by cases h; rfl)
          simp [State.links, State.link, linkAfter, hm]
      | cell q =>
        by_cases hq : q = p
        · subst hq
          simp [State.links, State.link, linkAfter]
        · simp [State.links, State.link, linkAfter, hq]
    | some r =>
      have hrp : r ≠ p := fun h => hprev (by rw [h])
      cases x with
      | head m => simp [State.links, State.link, linkAfter]
      | cell q =>
        by_cases hq : q = p
        · subst hq
          simp [State.links, State.link, linkAfter, Ne.symm hrp]
        · by_cases hqr : q = r
          · subst hqr
            simp [State.links, State.link, linkAfter, hq]
          · simp [State.links, State.link, linkAfter, hq, hqr]
  have hlasts : ∀ x, (s.link l p pprev pscan).links.last x =
      (s.links.insert (linkAfter l pprev) p).last x := by
    intro x
    unfold Links.insert
    rw [hnext]
    by_cases hx : x = p
    · subst hx
      cases pprev <;> simp [State.links, State.link, linkAfter]
    · cases pscan with
      | none => simp [State.links, State.link, Function.update_of_ne hx]
      | some n =>
        by_cases hxn : x = n
        · subst hxn
          obtain ⟨m, hm⟩ := Option.ne_none_iff_exists'.mp (hscan x rfl).1
          simp [State.links, State.link, Function.update_of_ne hx, hm]
        · simp [State.links, State.link, Function.update_of_ne hx, Function.update_of_ne hxn]
  exact Links.ext (funext hnexts) (funext hlasts)

/-- **The head of a list** is taken out. -/
theorem links_unlinkHead (hplistp : s.pnPlistp p = some l) (hprev : s.pnPrev p = none)
    (hnext : ∀ n, s.pnNext p = some n → s.pnPlistp n = some l ∧ n ≠ p) :
    (s.unlinkHead l p).links = s.links.unlink p := by
  have hlast : s.links.last p = some (.head l) := by
    simp [State.links, hplistp, hprev]
  have hafter : s.links.next (.cell p) = s.pnNext p := rfl
  have hnexts : ∀ x, (s.unlinkHead l p).links.next x = (s.links.unlink p).next x := by
    intro x
    unfold Links.unlink
    rw [hlast, hafter]
    cases x with
    | head m =>
      by_cases hm : m = l
      · subst hm
        simp [State.links, State.unlinkHead]
      · simp [State.links, State.unlinkHead, hm]
    | cell q => simp [State.links, State.unlinkHead]
  have hlasts : ∀ x, (s.unlinkHead l p).links.last x = (s.links.unlink p).last x := by
    intro x
    unfold Links.unlink
    rw [hlast, hafter]
    cases hn : s.pnNext p with
    | none =>
      by_cases hx : x = p
      · subst hx
        simp [State.links, State.unlinkHead]
      · simp [State.links, State.unlinkHead, hx, hn]
    | some n =>
      obtain ⟨hl, hnp⟩ := hnext n hn
      by_cases hx : x = p
      · subst hx
        simp [State.links, State.unlinkHead, Ne.symm hnp]
      · by_cases hxn : x = n
        · subst hxn
          simp [State.links, State.unlinkHead, hx, hn, hl]
        · simp [State.links, State.unlinkHead, hx, hxn, hn]
  exact Links.ext (funext hnexts) (funext hlasts)

end CohKernel.SleepLock
