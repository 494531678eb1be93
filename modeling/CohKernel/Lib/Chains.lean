import Mathlib.Tactic

namespace CohKernel.Lib

/-!
# Hash chains

Lists, one for each bucket, that hold every element on the list of its bucket and on no other.

* `Chained.insert`, `Chained.delete` — an element gets a bucket, or loses it;
* `Chained.find_some`, `Chained.find_none` — a search of one list decides whether the bucket has an
  element.
-/

variable {ι : Type*} [DecidableEq ι] {chain : ℕ → List ι} {home : ι → Option ℕ} {b : ι} {h : ℕ}

/-- Every element is on the list of its bucket, once, and on no other list. -/
structure Chained (chain : ℕ → List ι) (home : ι → Option ℕ) : Prop where
  mem_iff : ∀ h b, b ∈ chain h ↔ home b = some h
  nodup : ∀ h, (chain h).Nodup

/-- An element goes to the head of a list. -/
theorem Chained.insert (hc : Chained chain home) (hb : home b = none) (h : ℕ) :
    Chained (Function.update chain h (b :: chain h)) (Function.update home b (some h)) where
  mem_iff := by
    intro k c
    by_cases hcb : c = b
    · subst hcb
      rw [Function.update_self, Option.some_inj]
      by_cases hk : k = h
      · subst hk
        rw [Function.update_self]
        exact iff_of_true List.mem_cons_self rfl
      · rw [Function.update_of_ne hk, hc.mem_iff, hb]
        exact iff_of_false (fun hnone => by cases hnone) (Ne.symm hk)
    · rw [Function.update_of_ne hcb, ← hc.mem_iff]
      by_cases hk : k = h
      · subst hk
        rw [Function.update_self, List.mem_cons]
        exact or_iff_right hcb
      · rw [Function.update_of_ne hk]
  nodup := by
    intro k
    by_cases hk : k = h
    · subst hk
      rw [Function.update_self, List.nodup_cons]
      refine ⟨fun hmem => ?_, hc.nodup k⟩
      cases hb.symm.trans ((hc.mem_iff k b).mp hmem)
    · rw [Function.update_of_ne hk]
      exact hc.nodup k

/-- An element leaves its list. -/
theorem Chained.delete (hc : Chained chain home) (hb : home b = some h) :
    Chained (Function.update chain h ((chain h).erase b)) (Function.update home b none) where
  mem_iff := by
    intro k c
    by_cases hk : k = h
    · subst hk
      rw [Function.update_self, (hc.nodup k).mem_erase_iff, hc.mem_iff]
      by_cases hcb : c = b
      · subst hcb
        rw [Function.update_self]
        exact iff_of_false (fun hne => hne.1 rfl) fun hnone => by cases hnone
      · rw [Function.update_of_ne hcb]
        exact and_iff_right hcb
    · rw [Function.update_of_ne hk, hc.mem_iff]
      by_cases hcb : c = b
      · subst hcb
        rw [Function.update_self, hb, Option.some_inj]
        exact iff_of_false (Ne.symm hk) fun hnone => by cases hnone
      · rw [Function.update_of_ne hcb]
  nodup := by
    intro k
    by_cases hk : k = h
    · subst hk
      rw [Function.update_self]
      exact (hc.nodup k).erase b
    · rw [Function.update_of_ne hk]
      exact hc.nodup k

omit [DecidableEq ι] in
theorem Chained.find_some {test : ι → Bool} (hc : Chained chain home)
    (hf : (chain h).find? test = some b) : home b = some h ∧ test b = true :=
  ⟨(hc.mem_iff h b).mp (List.mem_of_find?_eq_some hf), List.find?_some hf⟩

omit [DecidableEq ι] in
theorem Chained.find_none (test : ι → Bool) (hc : Chained chain home)
    (hf : (chain h).find? test = none) (hb : home b = some h) : test b = false :=
  Bool.eq_false_of_not_eq_true (List.find?_eq_none.mp hf b ((hc.mem_iff h b).mpr hb))

end CohKernel.Lib
