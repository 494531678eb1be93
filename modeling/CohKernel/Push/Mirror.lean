import CohKernel.Push.Line

namespace CohKernel.Push

open CohKernel.Lib Queue

/-!
# The modules of a stream over a run

Over every run of calls the queues of a stream are those of its modules.

* `modules_mirrored` — the two directions of each stream are mirror images with the modules that
  have been pushed and not popped, in order, and a pop takes back what a push has done.
-/

variable {π ι : Type}

/-! ### What is to hold -/

/-- The queues of a stream downstream from its head, for the modules at its ends; a pipe goes on
    upstream to the other head. -/
def Shape.line (shape : Shape π) (stack : End → List π) : List (Queue π) :=
  match shape with
  | .device head driver => W head :: ((stack .front).map W ++ [W driver])
  | .pipe head other =>
    W head :: ((stack .front).map W ++ ((stack .back).reverse.map R ++ [R other]))

/-- The queues of a stream from one of its ends. -/
def Shape.view (shape : Shape π) (stack : End → List π) : End → List (Queue π)
  | .front => shape.line stack
  | .back => turned (shape.line stack)

section Runs

variable [DecidableEq π] [DecidableEq ι] [Fintype π] {shape : ι → Shape π} {s s' : Sys π ι}

/-- The queues are linked in the order of the modules, each to the one below, and the partners of
    the two the other way; a module is there once, and in one stream; and when a module has been
    pushed and is popped, the links are what they were. -/
structure Sys.Mirrored (shape : ι → Shape π) (s : Sys π ι) : Prop where
  running : (∀ i head driver, shape i = .device head driver →
    s.mem.procsoff (W driver) = false) → s.halted = false
  down : ∀ i, Linked s.mem.qNext ((shape i).line (s.stack i)).head? ((shape i).line (s.stack i))
  up : ∀ i, Linked s.mem.qNext (turned ((shape i).line (s.stack i))).head?
    (turned ((shape i).line (s.stack i)))
  mirror : ∀ i, ∀ w ∈ (shape i).line (s.stack i), ∀ w', s.mem.qNext w = some w' →
    s.mem.qNext w'.otherq = some w.otherq
  once : ∀ i, (pairs ((shape i).line (s.stack i))).Nodup
  apart : ∀ i j, i ≠ j →
    List.Disjoint (pairs ((shape i).line (s.stack i))) (pairs ((shape j).line (s.stack j)))
  restored : ∀ i e p enabled s₁ s₂, s.step shape (.push i e (some p) 0 enabled) = some s₁ →
    s₁.step shape (.pop i e) = some s₂ →
      s₂.stack = s.stack ∧ ∀ q : Queue π, q.pair ≠ p → s₂.mem.qNext q = s.mem.qNext q

/-- Streams that have been opened, without modules.  The procedures of the heads are on. -/
structure Sys.Initial (shape : ι → Shape π) (s : Sys π ι) : Prop where
  halted : s.halted = false
  stack : ∀ i e, s.stack i e = []
  line : ∀ i, Line s.mem.qNext ((shape i).line fun _ => [])
  once : ∀ i, (pairs ((shape i).line fun _ => [])).Nodup
  apart : ∀ i j, i ≠ j →
    List.Disjoint (pairs ((shape i).line fun _ => [])) (pairs ((shape j).line fun _ => []))
  allocated : ∀ i, ∀ p ∈ pairs ((shape i).line fun _ => []), s.mem.allocated p = true
  heads : ∀ i e head, (shape i).head e = some head → ∀ side, s.mem.procsoff ⟨head, side⟩ = false

/-- What is kept. -/
structure Sys.Inv (shape : ι → Shape π) (s : Sys π ι) : Prop where
  running : (∀ i head driver, shape i = .device head driver →
    s.mem.procsoff (W driver) = false) → s.halted = false
  line : ∀ i, Line s.mem.qNext ((shape i).line (s.stack i))
  once : ∀ i, (pairs ((shape i).line (s.stack i))).Nodup
  apart : ∀ i j, i ≠ j →
    List.Disjoint (pairs ((shape i).line (s.stack i))) (pairs ((shape j).line (s.stack j)))
  allocated : ∀ i, ∀ p ∈ pairs ((shape i).line (s.stack i)), s.mem.allocated p = true
  heads : ∀ i e head, (shape i).head e = some head → ∀ side, s.mem.procsoff ⟨head, side⟩ = false
  modules : ∀ i e, ∀ p ∈ s.stack i e, ∀ side, s.mem.procsoff ⟨p, side⟩ = false
  ends : ∀ i e, (shape i).head e = none → s.stack i e = []

/-! ### The end of a stream -/

section

omit [DecidableEq π] [DecidableEq ι] [Fintype π]

theorem view_pairs (sh : Shape π) (stack : End → List π) (e : End) :
    (pairs (sh.view stack e)).Perm (pairs (sh.line stack)) := by
  cases e with
  | front => exact List.Perm.refl _
  | back =>
    show (pairs (turned _)).Perm _
    rw [pairs_turned]
    exact List.reverse_perm _

theorem view_line {next : Queue π → Option (Queue π)} {sh : Shape π} {stack : End → List π}
    {e : End} :
    Line next (sh.view stack e) ↔ Line next (sh.line stack) := by
  cases e with
  | front => exact Iff.rfl
  | back =>
    refine ⟨fun hl => ?_, fun hl => hl.turned⟩
    rw [← turned_turned (sh.line stack)]
    exact hl.turned

end

/-- What is below the modules at an end: a driver, or the other end of a pipe, whose topmost queue
    is on the read side. -/
def Shape.Bottom (sh : Shape π) (stack : End → List π) (q : Queue π) (l : List (Queue π)) : Prop :=
  (∃ head driver, sh = .device head driver ∧ q = W driver ∧ l = []) ∨
    q.side = .read ∧ ((∃ e', q.pair ∈ stack e') ∨ ∃ e', sh.head e' = some q.pair)

omit [Fintype π] [DecidableEq π] [DecidableEq ι] in
/-- From an end a stream is its head, the modules that have been pushed there, and what is below. -/
theorem view_eq {sh : Shape π} {e : End} {h : π} (stack : End → List π)
    (hhead : sh.head e = some h) : ∃ q l, sh.Bottom stack q l ∧
      ∀ ps, sh.view (Function.update stack e ps) e = W h :: (ps.map W ++ q :: l) := by
  cases sh with
  | device head driver =>
    cases e with
    | front =>
      cases hhead
      refine ⟨W driver, [], .inl ⟨h, driver, rfl, rfl, rfl⟩, fun ps => ?_⟩
      show W h :: ((Function.update stack End.front ps End.front).map W ++ [W driver]) = _
      rw [Function.update_self]
    | back => cases hhead
  | pipe head other =>
    have hcons : ∀ (l : List π) (o : π), (∃ e', ∀ p ∈ l, p ∈ stack e') →
        (∃ e', (Shape.pipe head other).head e' = some o) → ∃ q rest, l.reverse.map R ++ [R o] =
          q :: rest ∧
          q.side = .read ∧ ((∃ e', q.pair ∈ stack e') ∨
            ∃ e', (Shape.pipe head other).head e' = some q.pair) := by
      rintro l o ⟨e', hl⟩ ho
      cases hrev : l.reverse with
      | nil => exact ⟨R o, [], rfl, rfl, .inr ho⟩
      | cons p ps =>
        refine ⟨R p, ps.map R ++ [R o], rfl, rfl, .inl ⟨e', hl p ?_⟩⟩
        rw [← List.mem_reverse, hrev]
        exact List.mem_cons_self
    cases e with
    | front =>
      cases hhead
      obtain ⟨q, l, heq, hside, hq⟩ := hcons (stack .back) other ⟨.back, fun p hp => hp⟩
          ⟨.back, rfl⟩
      refine ⟨q, l, .inr ⟨hside, hq⟩, fun ps => ?_⟩
      rw [← heq]
      show W h :: ((Function.update stack End.front ps End.front).map W ++ _) = _
      rw [Function.update_self, Function.update_of_ne (by decide)]
    | back =>
      cases hhead
      obtain ⟨q, l, heq, hside, hq⟩ := hcons (stack .front) head ⟨.front, fun p hp => hp⟩
          ⟨.front, rfl⟩
      refine ⟨q, l, .inr ⟨hside, hq⟩, fun ps => ?_⟩
      rw [← heq]
      show turned (W head :: ((Function.update stack End.back ps End.front).map W ++
        ((Function.update stack End.back ps End.back).reverse.map R ++ [R h]))) = _
      rw [Function.update_self, Function.update_of_ne (by decide)]
      unfold turned
      simp [Function.comp_def]

section

omit [DecidableEq π] [DecidableEq ι] [Fintype π]

/-- Heads are in the line. -/
theorem head_mem {sh : Shape π} {e : End} {h : π} (stack : End → List π)
    (hhead : sh.head e = some h) : h ∈ pairs (sh.line stack) := by
  cases sh <;> cases e <;> cases hhead <;> simp [pairs, Shape.line, R, W]

/-- Modules are in the line. -/
theorem module_mem {sh : Shape π} {e : End} {stack : End → List π} {p : π}
    (hhead : sh.head e ≠ none) (hp : p ∈ stack e) : p ∈ pairs (sh.line stack) := by
  cases sh <;> cases e <;> first
    | exact absurd rfl hhead
    | simp [pairs, Shape.line, R, W, hp]

/-- The driver is in the line. -/
theorem driver_mem {head driver : π} (stack : End → List π) :
    driver ∈ pairs ((Shape.device head driver).line stack) := by
  simp [pairs, Shape.line, W]

/-- A stream from one of its ends. -/
theorem Sys.Inv.at_end {i : ι} {e : End} {h : π} (hs : s.Inv shape)
    (hhead : (shape i).head e = some h) : ∃ q l, (shape i).Bottom (s.stack i) q l ∧
      (∀ ps, (shape i).view (Function.update (s.stack i) e ps) e = W h :: (ps.map W ++ q :: l)) ∧
      Line s.mem.qNext (W h :: ((s.stack i e).map W ++ q :: l)) ∧
      (pairs (W h :: ((s.stack i e).map W ++ q :: l))).Perm
        (pairs ((shape i).line (s.stack i))) := by
  obtain ⟨q, l, hbottom, hview⟩ := view_eq (s.stack i) hhead
  have hview' := hview (s.stack i e)
  rw [Function.update_eq_self] at hview'
  refine ⟨q, l, hbottom, hview, ?_, ?_⟩
  · rw [← hview']
    exact view_line.mpr (hs.line i)
  · rw [← hview']
    exact view_pairs _ _ _

end

omit [Fintype π] in
/-- A call at an end of a stream keeps the others, and puts a pair in or takes it out. -/
theorem Sys.Inv.set {i : ι} {e : End} {h p : π} {q below : Queue π} {l : List (Queue π)}
    {ps : List π}
    {m' : Streams π} (hs : s.Inv shape) (hhead : (shape i).head e = some h)
    (hview : ∀ ps, (shape i).view (Function.update (s.stack i) e ps) e =
      W h :: (ps.map W ++ q :: l))
    (hbelow : below.pair ∈ pairs ((shape i).line (s.stack i))) (he : Effect s.mem m' h p below)
    (hline : Line m'.qNext (W h :: (ps.map W ++ q :: l)))
    (honce : (pairs (W h :: (ps.map W ++ q :: l))).Nodup) (hout : p ∉ pairs (W h :: q :: l))
    (hother : ∀ j, j ≠ i → p ∉ pairs ((shape j).line (s.stack j)))
    (hps : ∀ p' ∈ ps, p' ≠ p → p' ∈ s.stack i e)
    (hin : p ∈ ps → m'.allocated p = true ∧ ∀ side, m'.procsoff ⟨p, side⟩ = false) :
    (Sys.setStack { s with mem := m' } i e ps).Inv shape := by
  have hsame : Function.update s.stack i (Function.update (s.stack i) e ps) i =
      Function.update (s.stack i) e ps := Function.update_self _ _ _
  have hrest : ∀ j, j ≠ i → Function.update s.stack i (Function.update (s.stack i) e ps) j =
      s.stack j := fun j hj => Function.update_of_ne hj _ _
  have hhi : h ∈ pairs ((shape i).line (s.stack i)) := head_mem _ hhead
  -- what does not depend on the modules at this end is not in `p`
  have hbase : p ∉ pairs ((shape i).line (Function.update (s.stack i) e [])) := by
    rw [← (view_pairs _ _ e).mem_iff, hview]
    exact hout
  have hnew : ∀ x ∈ pairs ((shape i).line (Function.update (s.stack i) e ps)),
      x ≠ p → x ∈ pairs ((shape i).line (s.stack i)) := by
    intro x hx hxp
    have hold := (view_pairs (shape i) (Function.update (s.stack i) e (s.stack i e)) e).mem_iff
        (a := x)
    rw [Function.update_eq_self] at hold
    rw [← (view_pairs _ _ e).mem_iff, hview] at hx
    rw [← hold, ← Function.update_eq_self e (s.stack i), hview]
    rcases List.mem_cons.mp hx with hx | hx
    · exact List.mem_cons.mpr (.inl hx)
    · refine List.mem_cons_of_mem _ ?_
      obtain ⟨y, hy, rfl⟩ := List.mem_map.mp hx
      refine List.mem_map_of_mem ?_
      rcases List.mem_append.mp hy with hy | hy
      · obtain ⟨p', hp', rfl⟩ := List.mem_map.mp hy
        exact List.mem_append_left _ (List.mem_map_of_mem (hps p' hp' hxp))
      · exact List.mem_append_right _ hy
  have hdriver : ∀ j head driver, shape j = .device head driver → driver ≠ p := by
    rintro j head driver hj rfl
    by_cases hji : j = i
    · subst hji
      rw [hj] at hbase
      exact hbase (driver_mem _)
    · refine hother j hji ?_
      rw [hj]
      exact driver_mem _
  have hheads : ∀ j e' h', (shape j).head e' = some h' → h' ≠ p := by
    rintro j e' h' hh' rfl
    by_cases hji : j = i
    · subst hji
      exact hbase (head_mem _ hh')
    · exact hother j hji (head_mem _ hh')
  have hmodules : ∀ j e', (j ≠ i ∨ e' ≠ e) → ∀ p' ∈ s.stack j e', p' ≠ p := by
    rintro j e' hje p' hp' rfl
    have hhead' : (shape j).head e' ≠ none := by
      intro hnone
      rw [hs.ends j e' hnone] at hp'
      cases hp'
    by_cases hji : j = i
    · subst hji
      have he' : e' ≠ e := hje.resolve_left (not_not.mpr rfl)
      refine hbase (module_mem hhead' ?_)
      rwa [Function.update_of_ne he']
    · exact hother j hji (module_mem hhead' hp')
  have hapart : ∀ j, j ≠ i → List.Disjoint
      (pairs ((shape i).line (Function.update (s.stack i) e ps)))
      (pairs ((shape j).line (s.stack j))) := by
    intro j hji x hx hxj
    have hxp : x ≠ p := by
      rintro rfl
      exact hother j hji hxj
    exact hs.apart i j (Ne.symm hji) (hnew x hx hxp) hxj
  refine ⟨?_, ?_, ?_, ?_, ?_, ?_, ?_, ?_⟩
  · intro hon
    refine hs.running fun j head driver hj => ?_
    rw [← he.procsoff (W driver) (hdriver j head driver hj)]
    exact hon j head driver hj
  · intro j
    show Line m'.qNext ((shape j).line (Function.update s.stack i _ j))
    by_cases hji : j = i
    · subst hji
      rw [hsame, ← view_line, hview]
      exact hline
    · rw [hrest j hji]
      have hapart := hs.apart j i hji
      refine (hs.line j).congr fun x hx => he.qNext x ?_ ?_ ?_
      · rintro rfl
        exact hother j hji hx
      · rintro rfl
        exact hapart hx hhi
      · rintro rfl
        rw [otherq_pair] at hx
        exact hapart hx hbelow
  · intro j
    show (pairs ((shape j).line (Function.update s.stack i _ j))).Nodup
    by_cases hji : j = i
    · subst hji
      rw [hsame, ← (view_pairs _ _ e).nodup_iff, hview]
      exact honce
    · rw [hrest j hji]
      exact hs.once j
  · intro j k hjk
    show List.Disjoint (pairs ((shape j).line (Function.update s.stack i _ j)))
      (pairs ((shape k).line (Function.update s.stack i _ k)))
    by_cases hji : j = i
    · subst hji
      rw [hsame, hrest k (Ne.symm hjk)]
      exact hapart k (Ne.symm hjk)
    · rw [hrest j hji]
      by_cases hki : k = i
      · subst hki
        rw [hsame]
        exact (hapart j hji).symm
      · rw [hrest k hki]
        exact hs.apart j k hjk
  · intro j x hx
    show m'.allocated x = true
    change x ∈ pairs ((shape j).line (Function.update s.stack i _ j)) at hx
    by_cases hji : j = i
    · subst hji
      rw [hsame] at hx
      by_cases hxp : x = p
      · subst hxp
        refine (hin ?_).1
        rw [← (view_pairs _ _ e).mem_iff, hview] at hx
        by_contra hnot
        apply hout
        rcases List.mem_cons.mp hx with hx | hx
        · exact List.mem_cons.mpr (.inl hx)
        · refine List.mem_cons_of_mem _ ?_
          obtain ⟨y, hy, hyx⟩ := List.mem_map.mp hx
          rcases List.mem_append.mp hy with hy | hy
          · obtain ⟨p', hp', rfl⟩ := List.mem_map.mp hy
            exact absurd (hyx ▸ hp') hnot
          · exact List.mem_map.mpr ⟨y, hy, hyx⟩
      · rw [he.allocated x hxp]
        exact hs.allocated j x (hnew x hx hxp)
    · rw [hrest j hji] at hx
      have hxp : x ≠ p := by
        rintro rfl
        exact hother j hji hx
      rw [he.allocated x hxp]
      exact hs.allocated j x hx
  · intro j e' h' hh' side
    show m'.procsoff _ = false
    rw [he.procsoff _ (hheads j e' h' hh')]
    exact hs.heads j e' h' hh' side
  · intro j e' p' hp' side
    show m'.procsoff _ = false
    have hold : ∀ p', p' ≠ p → p' ∈ s.stack j e' → m'.procsoff ⟨p', side⟩ = false := by
      intro p' hne hp'
      rw [he.procsoff _ hne]
      exact hs.modules j e' p' hp' side
    change p' ∈ Function.update s.stack i _ j e' at hp'
    by_cases hji : j = i
    · subst hji
      rw [hsame] at hp'
      by_cases he' : e' = e
      · subst he'
        rw [Function.update_self] at hp'
        by_cases hpp : p' = p
        · subst hpp
          exact (hin hp').2 side
        · exact hold p' hpp (hps p' hp' hpp)
      · rw [Function.update_of_ne he'] at hp'
        exact hold p' (hmodules j e' (.inr he') p' hp') hp'
    · rw [hrest j hji] at hp'
      exact hold p' (hmodules j e' (.inl hji) p' hp') hp'
  · intro j e' hnone
    show Function.update s.stack i _ j e' = []
    by_cases hji : j = i
    · subst hji
      rw [hsame, Function.update_of_ne]
      · exact hs.ends j e' hnone
      · rintro rfl
        rw [hhead] at hnone
        cases hnone
    · rw [hrest j hji]
      exact hs.ends j e' hnone

/-! ### Calls -/

omit [DecidableEq π] [DecidableEq ι] [Fintype π] in
/-- A pair that is not in use is in no stream. -/
theorem Sys.Inv.fresh {p : π} (hs : s.Inv shape) (hp : s.mem.allocated p = false) (i : ι) :
    p ∉ pairs ((shape i).line (s.stack i)) := by
  intro hmem
  rw [hs.allocated i p hmem] at hp
  cases hp

omit [Fintype π] in
/-- `PUSH_MODULE` keeps the streams, and puts the module on its end if `open` succeeds. -/
theorem Sys.Inv.push {i : ι} {e : End} {h p : π} (hs : s.Inv shape)
    (hhead : (shape i).head e = some h) (hp : s.mem.allocated p = false) (retval : ℕ)
    (enabled : Bool) : (s.push i e h p retval enabled).Inv shape ∧
      ((s.push i e h p retval enabled).stack = if retval = 0 then
        Function.update s.stack i (Function.update (s.stack i) e (p :: s.stack i e)) else s.stack) ∧
      ∀ x : Queue π, x.pair ≠ p → x.pair ∉ pairs ((shape i).line (s.stack i)) →
        (s.push i e h p retval enabled).mem.qNext x = s.mem.qNext x := by
  obtain ⟨q, l, -, hview, hline, hperm⟩ := hs.at_end hhead
  have honce := hperm.nodup_iff.mpr (hs.once i)
  have hfresh := hs.fresh hp
  have hnot : p ∉ pairs (W h :: ((s.stack i e).map W ++ q :: l)) := fun hmem =>
    hfresh i (hperm.mem_iff.mp hmem)
  obtain ⟨below, rest, hbelow⟩ : ∃ below rest, (s.stack i e).map W ++ q :: l = below :: rest := by
    cases s.stack i e with
    | nil => exact ⟨q, l, rfl⟩
    | cons p' ps => exact ⟨W p', ps.map W ++ q :: l, rfl⟩
  have hin : below.pair ∈ pairs ((shape i).line (s.stack i)) := by
    rw [← hperm.mem_iff, hbelow]
    exact List.mem_cons_of_mem _ List.mem_cons_self
  rw [hbelow] at hline honce hnot
  obtain ⟨m', hpush, he, hfailed, hdone⟩ := pushModule_line hline honce hnot retval enabled
  rw [← hbelow] at hfailed hdone honce hnot
  have hout : p ∉ pairs (W h :: q :: l) := by
    intro hmem
    refine hnot ?_
    rcases List.mem_cons.mp hmem with hmem | hmem
    · exact List.mem_cons.mpr (.inl hmem)
    · refine List.mem_cons_of_mem _ ?_
      rw [List.map_append]
      exact List.mem_append_right _ hmem
  have hframe : ∀ x : Queue π, x.pair ≠ p → x.pair ∉ pairs ((shape i).line (s.stack i)) →
      m'.qNext x = s.mem.qNext x := by
    refine fun x hxp hx => he.qNext x hxp ?_ ?_
    · rintro rfl
      exact hx (head_mem _ hhead)
    · rintro rfl
      rw [otherq_pair] at hx
      exact hx hin
  unfold Sys.push
  rw [hpush]
  by_cases hretval : retval = 0
  · obtain ⟨hline', hallocated, hon⟩ := hdone hretval
    dsimp only
    rw [if_neg (not_not.mpr hretval), if_pos hretval]
    refine ⟨hs.set hhead hview hin he ?_ ?_ hout (fun j _ => hfresh j) ?_ fun _ =>
      ⟨hallocated, hon⟩,
      rfl, hframe⟩
    · exact hline'
    · exact (List.Perm.swap h p _).nodup_iff.mp (List.nodup_cons.mpr ⟨hnot, honce⟩)
    · rintro p' hp' hne
      exact (List.mem_cons.mp hp').resolve_left hne
  · dsimp only
    rw [if_pos hretval, if_neg hretval]
    have hsame := hs.set hhead hview hin he (hfailed hretval) honce hout (fun j _ => hfresh j)
      (fun _ hp' _ => hp') fun hmem => by
        refine absurd ?_ hnot
        refine List.mem_cons_of_mem _ ?_
        rw [List.map_append]
        exact List.mem_append_left _ (List.mem_map.mpr ⟨W p, List.mem_map_of_mem hmem, rfl⟩)
    unfold Sys.setStack at hsame
    rw [Function.update_eq_self, Function.update_eq_self] at hsame
    exact ⟨hsame, rfl, hframe⟩

omit [DecidableEq π] [DecidableEq ι] in
/-- `TOP_MODULE` finds the module that has been pushed last; without modules it finds none, unless
    the driver is off. -/
theorem Sys.Inv.topModule {i : ι} {e : End} {h : π} (hs : s.Inv shape)
    (hhead : (shape i).head e = some h) :
    s.mem.topModule h = some (s.stack i e).head? ∨ s.mem.topModule h = none ∧ s.stack i e = [] ∧
      ∃ head driver, shape i = .device head driver ∧ s.mem.procsoff (W driver) = true := by
  obtain ⟨q, l, hbottom, -, hline, hperm⟩ := hs.at_end hhead
  have honce := hperm.nodup_iff.mpr (hs.once i)
  have hwalk : walk s.mem.qNext (Fintype.card (Queue π)) (s.mem.qNext (W h)) =
      (s.stack i e).map W ++ q :: l := by
    refine walk_eq hline.linked (List.Nodup.length_le_card ?_)
    exact List.Nodup.of_map _ (List.nodup_cons.mp honce).2
  unfold Streams.topModule Streams.topQueue
  rw [hwalk]
  cases hstack : s.stack i e with
  | cons p ps =>
    left
    have hon : s.mem.procsoff (W p) = false :=
      hs.modules i e p (hstack ▸ List.mem_cons_self) .write
    have hnext : s.mem.qNext (W p) ≠ none := by
      rw [hstack] at hline
      have hchain := (List.isChain_cons_cons.mp hline.chain).2
      cases ps with
      | nil =>
        rw [(List.isChain_cons_cons.mp hchain).1.1]
        nofun
      | cons p' ps =>
        rw [(List.isChain_cons_cons.mp hchain).1.1]
        nofun
    show ((W p :: (ps.map W ++ q :: l)).find? _).map _ = _
    rw [List.find?_cons_of_pos (by rw [hon]; rfl), Option.map_some,
      if_neg (show ¬ (W p).side ≠ .write from not_not.mpr rfl), if_neg hnext]
    rfl
  | nil =>
    show ((q :: l).find? _).map _ = _ ∨ ((q :: l).find? _).map _ = _ ∧ _ ∧ _
    rcases hbottom with ⟨head, driver, hdevice, rfl, rfl⟩ | ⟨hside, hq⟩
    · by_cases hoff : s.mem.procsoff (W driver) = true
      · refine .inr ⟨?_, rfl, head, driver, hdevice, hoff⟩
        rw [List.find?_cons_of_neg (by rw [hoff]; nofun)]
        rfl
      · left
        have hnext : s.mem.qNext (W driver) = none := by
          rw [hstack] at hline
          exact hline.last _ rfl
        rw [List.find?_cons_of_pos (by rw [Bool.eq_false_of_not_eq_true hoff]; rfl),
          Option.map_some,
          if_neg (show ¬ (W driver).side ≠ .write from not_not.mpr rfl), if_pos hnext]
        rfl
    · left
      have hon : s.mem.procsoff q = false := by
        rcases hq with ⟨e', hq⟩ | ⟨e', hq⟩
        · exact hs.modules i e' q.pair hq q.side
        · exact hs.heads i e' q.pair hq q.side
      rw [List.find?_cons_of_pos (by rw [hon]; rfl), Option.map_some, if_pos (by rw [hside]; nofun)]
      rfl

/-- `POP_MODULE` keeps the streams, and takes the module that has been pushed last off its end. -/
theorem Sys.Inv.pop {i : ι} {e : End} {h : π} (hs : s.Inv shape)
    (hhead : (shape i).head e = some h) :
    (s.pop i e h).Inv shape ∧ (s.pop i e h).stack =
      Function.update s.stack i (Function.update (s.stack i) e (s.stack i e).tail) ∧
      ∀ x : Queue π, x.pair ∉ pairs ((shape i).line (s.stack i)) →
        (s.pop i e h).mem.qNext x = s.mem.qNext x := by
  have hkept : Function.update s.stack i (Function.update (s.stack i) e (s.stack i e)) =
      s.stack := by
    rw [Function.update_eq_self, Function.update_eq_self]
  unfold Sys.pop
  rcases hs.topModule hhead with htop | ⟨htop, hstack, head, driver, hdevice, hoff⟩
  · rw [htop]
    cases hstack : s.stack i e with
    | nil =>
      refine ⟨hs, ?_, fun _ _ => rfl⟩
      show s.stack = Function.update s.stack i (Function.update (s.stack i) e [])
      rw [← hstack, hkept]
    | cons p ps =>
      obtain ⟨q, l, -, hview, hline, hperm⟩ := hs.at_end hhead
      have honce := hperm.nodup_iff.mpr (hs.once i)
      rw [hstack] at hline honce hperm
      obtain ⟨below, rest, hbelow⟩ : ∃ below rest, ps.map W ++ q :: l = below :: rest := by
        cases ps with
        | nil => exact ⟨q, l, rfl⟩
        | cons p' ps => exact ⟨W p', ps.map W ++ q :: l, rfl⟩
      have hin : below.pair ∈ pairs ((shape i).line (s.stack i)) := by
        rw [← hperm.mem_iff, List.map_cons, List.cons_append, hbelow]
        exact List.mem_cons_of_mem _ (List.mem_cons_of_mem _ List.mem_cons_self)
      have hmodule : p ∈ pairs ((shape i).line (s.stack i)) := by
        rw [← hperm.mem_iff]
        exact List.mem_cons_of_mem _ List.mem_cons_self
      have hswap : (p :: pairs (W h :: (ps.map W ++ q :: l))).Nodup :=
        (List.Perm.swap p h _).nodup_iff.mp honce
      obtain ⟨hnot, honce'⟩ := List.nodup_cons.mp hswap
      rw [List.map_cons, List.cons_append, hbelow] at hline honce
      obtain ⟨m', hpop, hline', he⟩ := popModule_line hline honce
      rw [← hbelow] at hline'
      dsimp only [List.head?_cons]
      rw [hpop, List.erase_cons_head]
      refine ⟨hs.set hhead hview hin he hline' honce' ?_ ?_ ?_ ?_, rfl, ?_⟩
      · intro hmem
        refine hnot ?_
        rcases List.mem_cons.mp hmem with hmem | hmem
        · exact List.mem_cons.mpr (.inl hmem)
        · refine List.mem_cons_of_mem _ ?_
          rw [List.map_append]
          exact List.mem_append_right _ hmem
      · exact fun j hji hmem => hs.apart j i hji hmem hmodule
      · intro p' hp' _
        rw [hstack]
        exact List.mem_cons_of_mem _ hp'
      · intro hmem
        refine absurd ?_ hnot
        refine List.mem_cons_of_mem _ ?_
        rw [List.map_append]
        exact List.mem_append_left _ (List.mem_map.mpr ⟨W p, List.mem_map_of_mem hmem, rfl⟩)
      · refine fun x hx => he.qNext x ?_ ?_ ?_
        · rintro rfl
          exact hx hmodule
        · rintro rfl
          exact hx (head_mem _ hhead)
        · rintro rfl
          rw [otherq_pair] at hx
          exact hx hin
  · rw [htop]
    refine ⟨⟨fun hon => ?_, hs.line, hs.once, hs.apart, hs.allocated, hs.heads, hs.modules,
      hs.ends⟩,
      ?_, fun _ _ => rfl⟩
    · rw [hon i head driver hdevice] at hoff
      cases hoff
    · rw [hstack]
      show s.stack = Function.update s.stack i (Function.update (s.stack i) e [])
      rw [← hstack, hkept]

/-- A call keeps the streams. -/
theorem Sys.Inv.step {ev : Event π ι} (hs : s.Inv shape) (hstep : s.step shape ev = some s') :
    s'.Inv shape := by
  cases ev with
  | push i e pair retval enabled =>
    obtain ⟨-, hstep⟩ := Option.ite_none_left_eq_some.mp hstep
    cases hhead : (shape i).head e with
    | none =>
      rw [hhead] at hstep
      cases hstep
    | some h =>
      rw [hhead] at hstep
      cases pair with
      | none =>
        cases hstep
        exact hs
      | some p =>
        obtain ⟨hp, hstep⟩ := Option.ite_none_left_eq_some.mp hstep
        cases hstep
        exact (hs.push hhead (Bool.eq_false_of_not_eq_true hp) retval enabled).1
  | pop i e =>
    obtain ⟨-, hstep⟩ := Option.ite_none_left_eq_some.mp hstep
    obtain ⟨h, hhead, rfl⟩ := Option.map_eq_some_iff.mp hstep
    exact (hs.pop hhead).1

/-! ### Every run -/

section

omit [DecidableEq π] [DecidableEq ι] [Fintype π]

/-- A line is linked from its first queue. -/
theorem Line.linked_head {next : Queue π → Option (Queue π)} {l : List (Queue π)}
    (hl : Line next l) :
    Linked next l.head? l := by
  cases l with
  | nil => rfl
  | cons x l => exact ⟨rfl, hl.linked⟩

/-- In a line the partners are linked the other way. -/
theorem Line.mirror {next : Queue π → Option (Queue π)} {l : List (Queue π)} {w w' : Queue π}
    (hl : Line next l) (hw : w ∈ l) (hnext : next w = some w') : next w'.otherq =
      some w.otherq := by
  obtain ⟨hchain, hlast, -⟩ := hl
  induction l with
  | nil => cases hw
  | cons x l ih =>
    cases l with
    | nil =>
      rw [List.mem_singleton.mp hw, hlast x rfl] at hnext
      cases hnext
    | cons y l =>
      obtain ⟨⟨hxy, hback⟩, hchain⟩ := List.isChain_cons_cons.mp hchain
      rcases List.mem_cons.mp hw with rfl | hw
      · cases hxy.symm.trans hnext
        exact hback
      · refine ih hw hchain fun q hq => hlast q ?_
        rwa [List.getLast?_cons_cons]

/-- In a line the links are determined. -/
theorem Line.determined {next next' : Queue π → Option (Queue π)} {l : List (Queue π)} {x : Queue π}
    (hl' : Line next' l) (hl : Line next l) (hx : x.pair ∈ pairs l) : next' x = next x := by
  have hdown : ∀ (l : List (Queue π)) (x : Queue π), Line next l → Line next' l → x ∈ l →
      next' x = next x := by
    rintro l x ⟨hchain, hlast, -⟩ ⟨hchain', hlast', -⟩ hx
    induction l with
    | nil => cases hx
    | cons y l ih =>
      cases l with
      | nil => rw [List.mem_singleton.mp hx, hlast y rfl, hlast' y rfl]
      | cons z l =>
        obtain ⟨hyz, hchain⟩ := List.isChain_cons_cons.mp hchain
        obtain ⟨hyz', hchain'⟩ := List.isChain_cons_cons.mp hchain'
        rcases List.mem_cons.mp hx with rfl | hx
        · rw [hyz.1, hyz'.1]
        · refine ih hchain (fun q hq => hlast q ?_) hchain' (fun q hq => hlast' q ?_) hx <;>
            rwa [List.getLast?_cons_cons]
  obtain ⟨y, hy, hpair⟩ := List.mem_map.mp hx
  by_cases hxy : x = y
  · exact hdown l x hl hl' (hxy ▸ hy)
  · -- the other queue of the pair is in the line from the other end
    have hother : y.otherq = x := by
      obtain ⟨p, side⟩ := x
      obtain ⟨p', side'⟩ := y
      cases hpair
      cases side <;> cases side' <;> first | rfl | exact absurd rfl hxy
    refine hdown _ x hl.turned hl'.turned ?_
    rw [← hother]
    exact List.mem_reverse.mpr (List.mem_map_of_mem hy)

/-- A module that is pushed is added to the line. -/
theorem pairs_push {sh : Shape π} {e : End} {h p : π} (stack : End → List π)
    (hhead : sh.head e = some h) :
    (pairs (sh.line (Function.update stack e (p :: stack e)))).Perm
    (p :: pairs (sh.line stack)) := by
  obtain ⟨q, l, -, hview⟩ := view_eq stack hhead
  have hold := view_pairs sh (Function.update stack e (stack e)) e
  have hnew := view_pairs sh (Function.update stack e (p :: stack e)) e
  rw [hview] at hold hnew
  rw [Function.update_eq_self] at hold
  exact hnew.symm.trans ((List.Perm.swap p h _).trans (hold.cons p))

theorem Sys.Initial.inv (hs : s.Initial shape) : s.Inv shape := by
  have hstack : ∀ i, s.stack i = fun _ => [] := fun i => funext fun e => hs.stack i e
  refine ⟨fun _ => hs.halted, ?_, ?_, ?_, ?_, hs.heads, ?_, fun i e _ => hs.stack i e⟩
  · intro i
    rw [hstack i]
    exact hs.line i
  · intro i
    rw [hstack i]
    exact hs.once i
  · intro i j hij
    rw [hstack i, hstack j]
    exact hs.apart i j hij
  · intro i
    rw [hstack i]
    exact hs.allocated i
  · intro i e p hp
    rw [hs.stack i e] at hp
    cases hp

end

/-- A module that has been pushed and is popped leaves the links as they were. -/
theorem Sys.Inv.restored {i : ι} {e : End} {p : π} {enabled : Bool} {s₁ s₂ : Sys π ι}
    (hs : s.Inv shape) (hpush : s.step shape (.push i e (some p) 0 enabled) = some s₁)
    (hpop : s₁.step shape (.pop i e) = some s₂) :
    s₂.stack = s.stack ∧ ∀ q : Queue π, q.pair ≠ p → s₂.mem.qNext q = s.mem.qNext q := by
  obtain ⟨-, hpush⟩ := Option.ite_none_left_eq_some.mp hpush
  obtain ⟨-, hpop⟩ := Option.ite_none_left_eq_some.mp hpop
  obtain ⟨h, hhead, rfl⟩ := Option.map_eq_some_iff.mp hpop
  rw [hhead] at hpush
  obtain ⟨hp, hpush⟩ := Option.ite_none_left_eq_some.mp hpush
  cases hpush
  obtain ⟨hs₁, hstack₁, hframe₁⟩ :=
    hs.push hhead (Bool.eq_false_of_not_eq_true hp) 0 enabled
  rw [if_pos rfl] at hstack₁
  obtain ⟨hs₂, hstack₂, hframe₂⟩ := hs₁.pop hhead
  have hstack : ((s.push i e h p 0 enabled).pop i e h).stack = s.stack := by
    rw [hstack₂, hstack₁, Function.update_idem, Function.update_self, Function.update_idem,
      Function.update_self]
    show Function.update s.stack i (Function.update (s.stack i) e (s.stack i e)) = _
    rw [Function.update_eq_self, Function.update_eq_self]
  refine ⟨hstack, fun x hx => ?_⟩
  by_cases hin : x.pair ∈ pairs ((shape i).line (s.stack i))
  · have hline := hs₂.line i
    rw [hstack] at hline
    exact hline.determined (hs.line i) hin
  · rw [hframe₂ x, hframe₁ x hx hin]
    rw [hstack₁, Function.update_self, (pairs_push (s.stack i) hhead).mem_iff]
    exact fun hmem => (List.mem_cons.mp hmem).elim hx hin

/-- **The two directions of a stream are mirror images**, in every state of every run, and a pop
    takes back what a push has done. -/
theorem modules_mirrored (hr : Reach (Sys.Initial shape) (Sys.step shape) (fun _ _ => True) s) :
    s.Mirrored shape := by
  have hinv : s.Inv shape := by
    refine @Reach.invariant _ _ _ _ _ (fun s => s.Inv shape) ?_ ?_ s hr
    · exact fun s hs => hs.inv
    · exact fun s e s' hs _ hstep => hs.step hstep
  refine ⟨hinv.running, fun i => (hinv.line i).linked_head, fun i =>
    (hinv.line i).turned.linked_head,
    fun i w hw w' hnext => (hinv.line i).mirror hw hnext, hinv.once, hinv.apart, ?_⟩
  exact fun i e p enabled s₁ s₂ hpush hpop => hinv.restored hpush hpop

end Runs

/-! ### A computed run -/

/-- The stream of a device, and a pipe. -/
def twoStreams : Fin 2 → Shape (Fin 8)
  | 0 => .device 0 1
  | 1 => .pipe 2 3

/-- The two streams without modules. -/
def Sys.opened : Sys (Fin 8) (Fin 2) where
  mem :=
    { qNext := fun q =>
        match q with
        | ⟨0, .write⟩ => some (W 1)
        | ⟨1, .read⟩ => some (R 0)
        | ⟨2, .write⟩ => some (R 3)
        | ⟨3, .write⟩ => some (R 2)
        | _ => none
      procsoff := fun _ => false
      allocated := fun p => p.val < 4 }
  halted := false
  stack := fun _ _ => []

theorem Sys.opened_initial : Sys.opened.Initial twoStreams := by
  refine ⟨rfl, fun _ _ => rfl, ?_, ?_, ?_, ?_, fun _ _ _ _ _ => rfl⟩
  · intro i
    fin_cases i
    · exact ⟨.cons_cons ⟨rfl, rfl⟩ (.singleton _), by rintro q ⟨⟩; rfl, by rintro q ⟨⟩; rfl⟩
    · exact ⟨.cons_cons ⟨rfl, rfl⟩ (.singleton _), by rintro q ⟨⟩; rfl, by rintro q ⟨⟩; rfl⟩
  · decide
  · have hapart : ∀ i j, i ≠ j → ∀ p ∈ pairs ((twoStreams i).line fun _ => []),
        p ∉ pairs ((twoStreams j).line fun _ => []) := by decide
    exact fun i j hij p hp hp' => hapart i j hij p hp hp'
  · decide

/-- Modules are pushed on both streams and at both ends of the pipe, and popped, and one fails. -/
theorem modules_mirrored_run : ∃ s : Sys (Fin 8) (Fin 2), s.Mirrored twoStreams ∧
    s.stack 0 .front = [6, 4] ∧ s.stack 1 .front = [5] ∧ s.stack 1 .back = [] := by
  have hrun : (runFrom (Sys.step twoStreams) Sys.opened
      [.push 0 .front (some 4) 0 true, .push 1 .front (some 5) 0 false,
        .push 1 .back (some 6) 0 true,
        .push 0 .front (some 7) 6 true, .pop 1 .back, .push 0 .front (some 6) 0 true,
        .pop 1 .back]).any (fun s => s.stack 0 .front = [6, 4] ∧ s.stack 1 .front = [5] ∧
          s.stack 1 .back = []) = true := by decide +kernel
  obtain ⟨s, hs, hstack⟩ := (Option.any_eq_true _ _).mp hrun
  exact ⟨s, modules_mirrored (Reach.run (fun _ _ => trivial) (Reach.init Sys.opened_initial) hs),
    of_decide_eq_true hstack⟩

end CohKernel.Push
