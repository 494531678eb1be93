import Mathlib.Data.List.TakeWhile
import CohKernel.Mkdir.Defs

namespace CohKernel.Mkdir

open CohKernel.Lib CohKernel.Dir

/-!
# Walking a path

* `comps_eq` — the components of a path are those that the loop of `file_to_inode` reads.
-/

/-! ### Paths -/

variable {path p q : List Byte} {c : Byte}

theorem comps_slash (p : List Byte) : comps (SLASH :: p) = comps p := by
  rw [comps.eq_def]
  exact if_pos rfl

/-- A component of one character. -/
theorem comps_short (hc : c ≠ SLASH) (hp : p = [] ∨ ∃ q, p = SLASH :: q) :
    comps (c :: p) = [c] :: comps p := by
  rw [comps.eq_def]
  simp only [if_neg hc]
  rcases hp with rfl | ⟨q, rfl⟩
  · rfl
  · exact if_pos rfl

/-- A component of more characters. -/
theorem comps_long {d : Byte} (hc : c ≠ SLASH) (hd : d ≠ SLASH) (p : List Byte) :
    comps (c :: d :: p) = (c :: (comps (d :: p)).headD []) :: (comps (d :: p)).tail := by
  rw [comps.eq_def]
  simp only [if_neg hc, if_neg hd]
  cases comps (d :: p) with
  | nil => rfl
  | cons x xs => rfl

/-- A path that does not begin with a slash has a component. -/
theorem comps_ne_nil (hc : c ≠ SLASH) (p : List Byte) : comps (c :: p) ≠ [] := by
  cases p with
  | nil =>
    rw [comps_short hc (Or.inl rfl)]
    exact List.cons_ne_nil _ _
  | cons d p =>
    by_cases hd : d = SLASH
    · rw [hd, comps_short hc (Or.inr ⟨p, rfl⟩)]
      exact List.cons_ne_nil _ _
    · rw [comps_long hc hd]
      exact List.cons_ne_nil _ _

/-- A path and another one behind a slash. -/
theorem comps_append (p q : List Byte) : comps (p ++ SLASH :: q) = comps p ++ comps q := by
  induction p with
  | nil => exact comps_slash q
  | cons c p ih =>
    by_cases hc : c = SLASH
    · rw [hc, List.cons_append, comps_slash, comps_slash, ih]
    cases p with
    | nil =>
      show comps (c :: SLASH :: q) = _
      rw [comps_short hc (Or.inr ⟨q, rfl⟩), comps_short hc (Or.inl rfl), comps_slash]
      rfl
    | cons d p =>
      by_cases hd : d = SLASH
      · rw [hd] at ih ⊢
        show comps (c :: SLASH :: (p ++ SLASH :: q)) = _
        rw [comps_short hc (Or.inr ⟨_, rfl⟩), comps_short hc (Or.inr ⟨_, rfl⟩)]
        exact congrArg ([c] :: ·) ih
      · obtain ⟨x, xs, hx⟩ := List.exists_cons_of_ne_nil (comps_ne_nil hd p)
        have hlong := comps_long hc hd (p ++ SLASH :: q)
        rw [← List.cons_append, ih, hx] at hlong
        rw [List.cons_append, hlong, comps_long hc hd, hx]
        rfl

/-- A path without a slash. -/
theorem comps_of_not_mem (hp : p ≠ []) (h : SLASH ∉ p) : comps p = [p] := by
  induction p with
  | nil => exact absurd rfl hp
  | cons c p ih =>
    have hc : c ≠ SLASH := fun heq => h (heq ▸ List.mem_cons_self)
    have hrest : SLASH ∉ p := fun hmem => h (List.mem_cons_of_mem _ hmem)
    cases p with
    | nil => exact comps_short hc (Or.inl rfl)
    | cons d p =>
      have hd : d ≠ SLASH := fun heq => hrest (heq ▸ List.mem_cons_self)
      rw [comps_long hc hd, ih (List.cons_ne_nil _ _) hrest]
      rfl

/-- **The components** are those that the loop of `file_to_inode` reads. -/
theorem comps_eq (hc : c ≠ SLASH) (p : List Byte) :
    comps (c :: p) = component (c :: p) :: comps (behind (c :: p)) := by
  have hslash : ∀ p, comps (p.dropWhile (· = SLASH)) = comps p := by
    intro p
    induction p with
    | nil => rfl
    | cons d p ih =>
      by_cases hd : d = SLASH
      · rw [List.dropWhile_cons_of_pos (by simpa using hd), ih, hd, comps_slash]
      · rw [List.dropWhile_cons_of_neg (by simpa using hd)]
  unfold component behind
  rw [hslash]
  induction p generalizing c with
  | nil =>
    rw [comps_short hc (Or.inl rfl), List.takeWhile_cons_of_pos (by simpa using hc),
      List.dropWhile_cons_of_pos (by simpa using hc)]
    rfl
  | cons d p ih =>
    rw [List.takeWhile_cons_of_pos (by simpa using hc),
      List.dropWhile_cons_of_pos (by simpa using hc)]
    by_cases hd : d = SLASH
    · rw [comps_short hc (Or.inr ⟨p, by rw [hd]⟩), List.takeWhile_cons_of_neg (by simpa using hd),
        List.dropWhile_cons_of_neg (by simpa using hd)]
    · rw [comps_long hc hd, ih hd]
      rfl

/-- The paths of the parent: the path itself when it ends with a slash, the current directory when
    it has none, and otherwise what is before the last component. -/
theorem parentPath_cases (hne : comps path ≠ []) :
    (path.getLast? = some SLASH ∧ parentPath path = path) ∨
    (path.getLast? ≠ some SLASH ∧ SLASH ∉ path ∧ parentPath path = [DOT] ∧ comps path = [path]) ∨
    (path.getLast? ≠ some SLASH ∧ ∃ p b, path = p ++ SLASH :: b ∧ parentPath path = p ++ [SLASH] ∧
      comps path = comps p ++ [b]) := by
  have hpath : path ≠ [] := by
    rintro rfl
    exact hne rfl
  have hlast : path.reverse.head? = path.getLast? := List.head?_reverse
  unfold parentPath
  cases hrev : path.reverse with
  | nil => exact absurd (List.reverse_eq_nil_iff.mp hrev) hpath
  | cons c rev =>
    rw [hrev, List.head?_cons] at hlast
    by_cases hc : c = SLASH
    · refine Or.inl ⟨by rw [← hlast, hc], ?_⟩
      rw [List.dropWhile_cons_of_neg (by simpa using hc)]
      show (c :: rev).reverse = path
      rw [← hrev, List.reverse_reverse]
    have hnot : path.getLast? ≠ some SLASH := by
      rw [← hlast]
      exact fun h => hc (Option.some.inj h)
    right
    cases hdrop : (c :: rev).dropWhile (· ≠ SLASH) with
    | nil =>
      have hall : SLASH ∉ path := by
        intro hmem
        have hmem' : SLASH ∈ c :: rev := by
          rw [← hrev]
          exact List.mem_reverse.mpr hmem
        exact of_decide_eq_true (List.dropWhile_eq_nil_iff.mp hdrop _ hmem') rfl
      exact Or.inl ⟨hnot, hall, rfl, comps_of_not_mem hpath hall⟩
    | cons d rest =>
      have hd : d = SLASH := by
        have := List.head?_dropWhile_not (· ≠ SLASH) (c :: rev)
        rw [hdrop] at this
        simpa using this
      have hsplit : (c :: rev).takeWhile (· ≠ SLASH) ++ d :: rest = c :: rev := by
        rw [← hdrop]
        exact List.takeWhile_append_dropWhile
      have heq : path = rest.reverse ++ SLASH :: ((c :: rev).takeWhile (· ≠ SLASH)).reverse := by
        rw [← List.reverse_reverse path, hrev]
        conv_lhs => rw [← hsplit]
        rw [List.reverse_append, List.reverse_cons, hd, List.append_assoc]
        rfl
      have hb : ((c :: rev).takeWhile (· ≠ SLASH)).reverse ≠ [] := by
        rw [List.takeWhile_cons_of_pos (by simpa using hc)]
        simp
      have hbs : SLASH ∉ ((c :: rev).takeWhile (· ≠ SLASH)).reverse := by
        intro hmem
        have hin := List.mem_takeWhile_imp (List.mem_reverse.mp hmem)
        simp at hin
      refine Or.inr ⟨hnot, rest.reverse, _, heq, ?_, ?_⟩
      · rw [hd]
        exact List.reverse_cons
      · rw [heq, comps_append, comps_of_not_mem hb hbs]

/-! ### Slots -/

variable {slots : List Slot} {name want : List Byte} {x : Slot} {ino pos i k : ℕ}

theorem searchFrom_eq_none : searchFrom want slots k = none ↔
    ∀ x ∈ slots, x.ino ≠ 0 → cname x.name ≠ cname want := by
  induction slots generalizing k with
  | nil => exact ⟨fun _ _ h => absurd h List.not_mem_nil, fun _ => rfl⟩
  | cons x xs ih =>
    unfold searchFrom
    rw [List.forall_mem_cons]
    by_cases hx : x.ino ≠ 0 ∧ cname x.name = cname want
    · rw [if_pos hx]
      exact ⟨fun h => absurd h (Option.some_ne_none _), fun h => absurd hx.2 (h.1 hx.1)⟩
    · rw [if_neg hx, ih]
      exact ⟨fun h => ⟨fun h0 heq => hx ⟨h0, heq⟩, h⟩, fun h => h.2⟩

theorem freeSlot_free {zs : List Slot} {z : Slot} (hz : z.ino = 0) : freeSlot (z :: zs) = 0 := by
  unfold freeSlot
  rw [List.findIdx_cons]
  simp [hz]

theorem freeSlot_live {zs : List Slot} {z : Slot} (hz : z.ino ≠ 0) :
    freeSlot (z :: zs) = freeSlot zs + 1 := by
  unfold freeSlot
  rw [List.findIdx_cons]
  simp [hz]

theorem putSlot_succ (z : Slot) (zs : List Slot) (pos : ℕ) (x : Slot) :
    putSlot (z :: zs) (pos + 1) x = z :: putSlot zs pos x := by
  unfold putSlot
  by_cases hlt : pos < zs.length
  · rw [if_pos hlt, if_pos (by simpa using hlt), List.set_cons_succ]
  · rw [if_neg hlt, if_neg (by simpa using hlt), List.cons_append]

/-- A slot that is written behind, or in a free slot, is found when it is the first with its name.
    -/
theorem searchFrom_put (hnone : searchFrom name slots k = none) (hx : x.ino ≠ 0)
    (hname : x.name = name) (want : List Byte) :
    searchFrom want (putSlot slots (freeSlot slots) x) k =
      if cname want = cname name then some (k + freeSlot slots, x.ino)
      else searchFrom want slots k := by
  induction slots generalizing k with
  | nil =>
    show searchFrom want [x] k = _
    unfold searchFrom
    rw [hname]
    by_cases hw : cname want = cname name
    · rw [if_pos ⟨hx, hw.symm⟩, if_pos hw]
      rfl
    · rw [if_neg (fun h => hw h.2.symm), if_neg hw]
      rfl
  | cons y ys ih =>
    by_cases hy : y.ino = 0
    · rw [freeSlot_free hy]
      show searchFrom want (x :: ys) k = _
      have hskip : searchFrom want (y :: ys) k = searchFrom want ys (k + 1) :=
        if_neg fun h => h.1 hy
      rw [hskip]
      show (if x.ino ≠ 0 ∧ cname x.name = cname want then _ else _) = _
      rw [hname]
      by_cases hw : cname want = cname name
      · rw [if_pos ⟨hx, hw.symm⟩, if_pos hw]
        rfl
      · rw [if_neg (fun h => hw h.2.symm), if_neg hw]
    · have hnot : cname y.name ≠ cname name :=
        searchFrom_eq_none.mp hnone y List.mem_cons_self hy
      have hrest : searchFrom name ys (k + 1) = none := by
        refine searchFrom_eq_none.mpr fun z hz => ?_
        exact searchFrom_eq_none.mp hnone z (List.mem_cons_of_mem _ hz)
      rw [freeSlot_live hy, putSlot_succ]
      unfold searchFrom
      rw [ih hrest]
      by_cases hw : cname want = cname name
      · rw [if_pos hw, if_pos hw, if_neg (fun h => hnot (h.2.trans hw)),
          show k + 1 + freeSlot ys = k + (freeSlot ys + 1) by omega]
      · rw [if_neg hw, if_neg hw]

/-- **A slot is added** to a directory that has no entry with its name. -/
theorem search_put (hnone : search slots name = none) (hx : x.ino ≠ 0) (hname : x.name = name)
    (want : List Byte) : search (putSlot slots (freeSlot slots) x) want =
      if cname want = cname name then some (freeSlot slots, x.ino) else search slots want := by
  unfold search
  rw [searchFrom_put hnone hx hname, Nat.zero_add]

/-- The entries of a directory. -/
def live (slots : List Slot) : List Slot := slots.filter (·.ino ≠ 0)

/-- What has been added, and freed again. -/
theorem live_put_free (hx : x.ino = 0) (y : Slot) :
    live (putSlot (putSlot slots (freeSlot slots) y) (freeSlot slots) x) = live slots := by
  unfold live
  induction slots with
  | nil =>
    show List.filter _ [x] = _
    simp [hx]
  | cons z zs ih =>
    by_cases hz : z.ino = 0
    · rw [freeSlot_free hz]
      show List.filter _ (x :: zs) = _
      rw [List.filter_cons_of_neg (by simpa using hx), List.filter_cons_of_neg (by simpa using hz)]
    · rw [freeSlot_live hz, putSlot_succ, putSlot_succ, List.filter_cons_of_pos (by simpa using hz),
        List.filter_cons_of_pos (by simpa using hz), ih]

/-- An entry with a name is found. -/
theorem search_eq_none : search slots want = none ↔
    ∀ x ∈ live slots, cname x.name ≠ cname want := by
  unfold search live
  rw [searchFrom_eq_none]
  simp only [List.mem_filter, decide_eq_true_eq]
  exact ⟨fun h x hx => h x hx.1 hx.2, fun h x hx h0 => h x ⟨hx, h0⟩⟩

/-! ### Walks -/

/-- The directory in which the components of a path lead. -/
def Sys.descend (e : Process) (s : Sys) : ℕ → List (List Byte) → Option ℕ
  | cip, [] => some cip
  | cip, comp :: rest =>
      match s.last e .reference cip comp with
      | .child ino => Sys.descend e s ino rest
      | _ => none

variable {e : Process} {s s' : Sys} {t : Access} {cs : List (List Byte)} {b : List Byte}
  {cip dir : ℕ} {nd : Node}

/-- A walk is one to the directory, and the search for the last component. -/
theorem walk_concat : s.walk e t cip (cs ++ [b]) =
    match s.descend e cip cs with
    | some dir => s.last e t dir b
    | none => .error := by
  induction cs generalizing cip with
  | nil => rfl
  | cons c cs ih =>
    obtain ⟨x, xs, hx⟩ : ∃ x xs, cs ++ [b] = x :: xs := by
      cases cs with
      | nil => exact ⟨b, [], rfl⟩
      | cons y ys => exact ⟨y, ys ++ [b], rfl⟩
    rw [List.cons_append, hx]
    unfold Sys.walk Sys.descend
    cases s.last e .reference cip c with
    | child ino => exact hx ▸ ih
    | error => rfl
    | parent dir pos => rfl
    | entry ino dir pos => rfl

theorem descend_concat : s.descend e cip (cs ++ [b]) =
    match s.descend e cip cs with
    | some dir => match s.last e .reference dir b with
      | .child ino => some ino
      | _ => none
    | none => none := by
  induction cs generalizing cip with
  | nil => rfl
  | cons c cs ih =>
    rw [List.cons_append]
    unfold Sys.descend
    cases s.last e .reference cip c with
    | child ino => exact ih
    | error => rfl
    | parent dir pos => rfl
    | entry ino dir pos => rfl

/-- What a path leads to stays, when what is found in a directory stays. -/
theorem descend_mono (h : ∀ d comp ino, s.last e .reference d comp = .child ino →
      s'.last e .reference d comp = .child ino) (hd : s.descend e cip cs = some dir) :
    s'.descend e cip cs = some dir := by
  induction cs generalizing cip with
  | nil => exact hd
  | cons c cs ih =>
    unfold Sys.descend at hd ⊢
    cases hl : s.last e .reference cip c with
    | child ino =>
      rw [hl] at hd
      rw [h _ _ _ hl]
      exact ih hd
    | error =>
      rw [hl] at hd
      cases hd
    | parent dir pos =>
      rw [hl] at hd
      cases hd
    | entry ino dir pos =>
      rw [hl] at hd
      cases hd

/-- A lookup that meets no error. -/
theorem ftoi_concat (herr : s.error = false) (hpath : comps path = cs ++ [b]) :
    s.ftoi e t true path =
      match s.descend e (e.start path) cs with
      | some dir => s.last e t dir b
      | none => .error := by
  unfold Sys.ftoi
  rw [if_neg (by rw [herr]; decide), hpath, ← walk_concat]
  cases cs <;> rfl

/-- The search of a directory. -/
theorem last_dir (hn : s.node dir = some nd) (hdir : nd.dir = true) (hx : e.ipe dir = true)
    (t : Access) (b : List Byte) : s.last e t dir b =
      match search nd.slots (dirName b) with
      | some (pos, ino) => if t = .unlink then .entry ino dir pos else .child ino
      | none => if t = .create then .parent dir (freeSlot nd.slots) else .error := by
  unfold Sys.last
  rw [hn]
  exact if_pos ⟨hdir, hx⟩

/-- What is not in a directory that can be searched is not found. -/
theorem last_found (h : s.last e t dir b ≠ .error) :
    ∃ nd, s.node dir = some nd ∧ nd.dir = true ∧ e.ipe dir = true := by
  unfold Sys.last at h
  cases hn : s.node dir with
  | none =>
    rw [hn] at h
    exact absurd rfl h
  | some nd =>
    rw [hn] at h
    by_cases hok : nd.dir = true ∧ e.ipe dir = true
    · exact ⟨nd, rfl, hok⟩
    · simp only [if_neg hok] at h
      exact absurd rfl h

theorem lastName_concat (hpath : comps path = cs ++ [b]) : lastName path = dirName b := by
  rw [lastName, hpath, List.getLastD_concat]

/-- A path to a name that a directory does not have. -/
theorem ftoi_create (herr : s.error = false) {pos : ℕ}
    (h : s.ftoi e .create true path = .parent dir pos) :
    ∃ cs b nd, comps path = cs ++ [b] ∧ s.descend e (e.start path) cs = some dir ∧
      s.node dir = some nd ∧ nd.dir = true ∧ e.ipe dir = true ∧
      search nd.slots (dirName b) = none ∧ pos = freeSlot nd.slots := by
  rcases List.eq_nil_or_concat (comps path) with hnil | ⟨cs, b, hcs⟩
  · unfold Sys.ftoi at h
    rw [if_neg (by rw [herr]; decide), hnil] at h
    simp at h
  rw [List.concat_eq_append] at hcs
  rw [ftoi_concat herr hcs] at h
  cases hd : s.descend e (e.start path) cs with
  | none =>
    rw [hd] at h
    cases h
  | some d =>
    rw [hd] at h
    simp only at h
    obtain ⟨nd, hn, hdir, hx⟩ := last_found (h ▸ Found.noConfusion : s.last e .create d b ≠ .error)
    rw [last_dir hn hdir hx] at h
    cases hs : search nd.slots (dirName b) with
    | some r =>
      rw [hs] at h
      simp at h
    | none =>
      rw [hs] at h
      simp only [if_true] at h
      cases h
      exact ⟨cs, b, nd, hcs, hd, hn, hdir, hx, hs, rfl⟩

end CohKernel.Mkdir
