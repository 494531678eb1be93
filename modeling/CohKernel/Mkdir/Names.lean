import CohKernel.Mkdir.Umkdir

namespace CohKernel.Mkdir

open CohKernel.Lib CohKernel.Dir

/-!
# What names lead to

Names are looked up in the entries of the directories, so what a call does to names is told by what
it does to these entries.  A path is a trail of entries; the entry that an unlink removes takes away
the paths that lead through it, and the entry that a link writes takes away none.

* `look_put`, `look_remove` — an entry that is written, and one that is removed;
* `trail_put`, `trail_through` — what a path leads to after that;
* `doUnlink_spec`, `taken_look`, `taken_links` — what an unlink leaves behind.
-/

/-! ### Names -/

/-- The inode that a path names. -/
def Sys.resolve (e : Process) (s : Sys) (path : List Byte) : Option ℕ :=
  match s.clear.ftoi e .reference true path with
  | .child ino => some ino
  | _ => none

/-- The entry of a directory that can be searched: its position, and its inode. -/
def Sys.look (e : Process) (s : Sys) (dir : ℕ) (name : List Byte) : Option (ℕ × ℕ) :=
  match s.node dir with
  | none => none
  | some nd => if nd.dir = true ∧ e.ipe dir = true then search nd.slots name else none

/-- Where the components of a path lead, with the entries `look`. -/
def trail (look : ℕ → List Byte → Option (ℕ × ℕ)) : ℕ → List (List Byte) → Option ℕ
  | cip, [] => some cip
  | cip, comp :: rest =>
      match look cip (dirName comp) with
      | some (_, ino) => trail look ino rest
      | none => none

/-- The way of the components leads through the entry with a name in a directory. -/
def Through (look : ℕ → List Byte → Option (ℕ × ℕ)) (dir : ℕ) (name : List Byte) :
    ℕ → List (List Byte) → Prop
  | _, [] => False
  | cip, comp :: rest =>
      cip = dir ∧ cname (dirName comp) = cname name ∨
        match look cip (dirName comp) with
        | some (_, ino) => Through look dir name ino rest
        | none => False

/-- No directory has two entries with one name, and what has a name has a link, as the root has. -/
structure Sys.Tidy (e : Process) (s : Sys) : Prop where
  unique : ∀ dir nd, s.node dir = some nd → ((live nd.slots).map fun x => cname x.name).Nodup
  linked : ∀ dir nd x, s.node dir = some nd → x ∈ live nd.slots →
    ∃ n, s.links x.ino = some n ∧ 0 < n
  root : e.rdir ≠ 0 ∧ ∃ n, s.links e.rdir = some n ∧ 0 < n

variable {e : Process} {s s' v : Sys} {path old new : List Byte} {cs : List (List Byte)}
  {b name want : List Byte} {dir ino pos cip k n : ℕ} {nd : Node} {slots : List Slot} {x : Slot}
  {look look' : ℕ → List Byte → Option (ℕ × ℕ)}

theorem last_reference (s : Sys) (d : ℕ) (c : List Byte) : s.last e .reference d c =
    match s.look e d (dirName c) with
    | some (_, ino) => .child ino
    | none => .error := by
  unfold Sys.last Sys.look
  cases s.node d with
  | none => rfl
  | some nd =>
    by_cases hok : nd.dir = true ∧ e.ipe d = true
    · simp only [if_pos hok]
      cases search nd.slots (dirName c) <;> rfl
    · simp only [if_neg hok]

theorem last_unlink (s : Sys) (d : ℕ) (c : List Byte) : s.last e .unlink d c =
    match s.look e d (dirName c) with
    | some (pos, ino) => .entry ino d pos
    | none => .error := by
  unfold Sys.last Sys.look
  cases s.node d with
  | none => rfl
  | some nd =>
    by_cases hok : nd.dir = true ∧ e.ipe d = true
    · simp only [if_pos hok]
      cases search nd.slots (dirName c) <;> rfl
    · simp only [if_neg hok]

theorem descend_eq (s : Sys) (cip : ℕ) (cs : List (List Byte)) :
    s.descend e cip cs = trail (s.look e) cip cs := by
  induction cs generalizing cip with
  | nil => rfl
  | cons c cs ih =>
    unfold Sys.descend trail
    rw [last_reference]
    cases s.look e cip (dirName c) with
    | none => rfl
    | some r => exact ih r.2

theorem trail_concat : trail look cip (cs ++ [b]) =
    (trail look cip cs).bind fun d => (look d (dirName b)).map Prod.snd := by
  induction cs generalizing cip with
  | nil =>
    show (match look cip (dirName b) with | some (_, ino) => some ino | none => none) = _
    cases h : look cip (dirName b) <;> simp [trail, h]
  | cons c cs ih =>
    rw [List.cons_append]
    unfold trail
    cases look cip (dirName c) with
    | none => rfl
    | some r => exact ih

theorem resolve_eq (s : Sys) (h : comps path ≠ []) :
    s.resolve e path = trail (s.look e) (e.start path) (comps path) := by
  obtain ⟨cs, b, hcs⟩ : ∃ cs b, comps path = cs ++ [b] := by
    rcases List.eq_nil_or_concat (comps path) with hnil | ⟨cs, b, hcs⟩
    · exact absurd hnil h
    · exact ⟨cs, b, hcs.trans List.concat_eq_append⟩
  have hlook : s.clear.look e = s.look e := rfl
  unfold Sys.resolve
  rw [ftoi_concat rfl hcs, descend_eq, hlook, hcs, trail_concat]
  cases trail (s.look e) (e.start path) cs with
  | none => rfl
  | some d =>
    simp only [Option.bind_some]
    rw [last_reference, hlook]
    cases s.look e d (dirName b) <;> rfl

/-- A path without components is the root directory. -/
theorem resolve_nil (s : Sys) (h : comps path = []) :
    s.resolve e path = if path ≠ [] then some e.rdir else none := by
  have hftoi : s.clear.ftoi e .reference true path =
      if path ≠ [] ∧ Access.reference = .reference then .child e.rdir else .error := by
    unfold Sys.ftoi
    rw [if_neg (by simp [Sys.clear]), h]
  unfold Sys.resolve
  rw [hftoi]
  by_cases hp : path ≠ []
  · rw [if_pos ⟨hp, rfl⟩, if_pos hp]
  · rw [if_neg fun h => hp h.1, if_neg hp]

theorem resolve_root (s s' : Sys) (h : comps path = []) :
    s'.resolve e path = s.resolve e path := (resolve_nil s' h).trans (resolve_nil s h).symm

theorem resolve_congr (h : s'.look e = s.look e) (path : List Byte) :
    s'.resolve e path = s.resolve e path := by
  by_cases hne : comps path = []
  · exact resolve_root s s' hne
  · rw [resolve_eq s' hne, resolve_eq s hne, h]

/-! ### Entries -/

/-- The entries with another one for a name in a directory. -/
def put (look : ℕ → List Byte → Option (ℕ × ℕ)) (dir : ℕ) (name : List Byte)
    (v : Option (ℕ × ℕ)) : ℕ → List Byte → Option (ℕ × ℕ) :=
  fun d w => if d = dir ∧ cname w = cname name then v else look d w

theorem searchFrom_congr (h : cname name = cname want) (slots : List Slot) (k : ℕ) :
    searchFrom name slots k = searchFrom want slots k := by
  induction slots generalizing k with
  | nil => rfl
  | cons x xs ih =>
    unfold searchFrom
    rw [h, ih]

theorem look_congr (s : Sys) (d : ℕ) (h : cname name = cname want) :
    s.look e d name = s.look e d want := by
  unfold Sys.look search
  cases s.node d with
  | none => rfl
  | some nd => simp only [searchFrom_congr h]

/-- The search when the entry that it finds is removed. -/
theorem searchFrom_remove (huniq : ((live slots).map fun x => cname x.name).Nodup)
    (hfound : searchFrom name slots k = some (k + pos, ino)) (hx : x.ino = 0) (want : List Byte) :
    pos < slots.length ∧ searchFrom want (slots.set pos x) k =
      if cname want = cname name then none else searchFrom want slots k := by
  induction slots generalizing k pos with
  | nil => cases hfound
  | cons y ys ih =>
    unfold searchFrom at hfound
    by_cases hy : y.ino ≠ 0 ∧ cname y.name = cname name
    · rw [if_pos hy] at hfound
      have hpos : pos = 0 := by
        have := (Prod.mk.inj (Option.some.inj hfound)).1
        omega
      subst hpos
      refine ⟨Nat.succ_pos _, ?_⟩
      have hskip : searchFrom want (x :: ys) k = searchFrom want ys (k + 1) := if_neg fun h =>
          h.1 hx
      rw [List.set_cons_zero, hskip]
      have hlive : live (y :: ys) = y :: live ys := List.filter_cons_of_pos (by simpa using hy.1)
      rw [hlive, List.map_cons, List.nodup_cons] at huniq
      split_ifs with hw
      · -- There is no other entry with the name.
        refine searchFrom_eq_none.mpr fun z hz h0 heq => huniq.1 ?_
        rw [hy.2, ← hw, ← heq]
        exact List.mem_map_of_mem (List.mem_filter.mpr ⟨hz, by simpa using h0⟩)
      · exact (if_neg fun h => hw (h.2.symm.trans hy.2)).symm
    · rw [if_neg hy] at hfound
      obtain ⟨j, rfl⟩ : ∃ j, pos = j + 1 := by
        refine Nat.exists_eq_succ_of_ne_zero fun hzero => ?_
        have hge : ∀ (l : List Slot) (k : ℕ) (r : ℕ × ℕ), searchFrom name l k = some r →
            k ≤ r.1 := by
          intro l
          induction l with
          | nil => exact fun k r h => by cases h
          | cons z zs ihz =>
            intro k r h
            unfold searchFrom at h
            split_ifs at h
            · cases h
              exact le_refl k
            · exact (Nat.le_succ k).trans (ihz (k + 1) r h)
        have := hge ys (k + 1) _ hfound
        omega
      have hsub : ((live ys).map fun x => cname x.name).Nodup := by
        refine huniq.sublist ((List.Sublist.filter _ (List.sublist_cons_self y ys)).map _)
      obtain ⟨hlt, hset⟩ := ih hsub (by rw [hfound, Nat.add_assoc, Nat.add_comm 1 j])
      refine ⟨Nat.succ_lt_succ hlt, ?_⟩
      rw [List.set_cons_succ]
      unfold searchFrom
      rw [hset]
      by_cases hw : cname want = cname name
      · rw [if_pos hw, if_pos hw, if_neg fun h => hy ⟨h.1, h.2.trans hw⟩]
      · rw [if_neg hw, if_neg hw]

theorem search_remove (huniq : ((live slots).map fun x => cname x.name).Nodup)
    (hfound : search slots name = some (pos, ino)) (hx : x.ino = 0) (want : List Byte) :
    search (putSlot slots pos x) want =
      if cname want = cname name then none else search slots want := by
  unfold search at hfound ⊢
  rw [← Nat.zero_add pos] at hfound
  obtain ⟨hlt, hset⟩ := searchFrom_remove huniq hfound hx want
  rw [putSlot, if_pos hlt, hset]

theorem live_put (slots : List Slot) (x : Slot) :
    (live (putSlot slots (freeSlot slots) x)).Perm (live [x] ++ live slots) := by
  induction slots with
  | nil =>
    show (live [x]).Perm (live [x] ++ [])
    rw [List.append_nil]
  | cons z zs ih =>
    by_cases hz : z.ino = 0
    · have hskip : live (z :: zs) = live zs := List.filter_cons_of_neg (by simpa using hz)
      rw [freeSlot_free hz, hskip]
      show (live ([x] ++ zs)).Perm _
      rw [live, List.filter_append]
      exact List.Perm.refl _
    · have hkeep : ∀ l, live (z :: l) = z :: live l := fun l =>
        List.filter_cons_of_pos (by simpa using hz)
      rw [freeSlot_live hz, putSlot_succ, hkeep, hkeep]
      exact (ih.cons z).trans List.perm_middle.symm

/-- Names stay unique when an entry with a new one is written. -/
theorem unique_put (huniq : ((live slots).map fun x => cname x.name).Nodup)
    (hnone : search slots name = none) (hname : x.name = name) :
    ((live (putSlot slots (freeSlot slots) x)).map fun x => cname x.name).Nodup := by
  refine ((live_put slots x).map _).nodup_iff.mpr ?_
  rw [List.map_append, List.nodup_append]
  refine ⟨?_, huniq, fun a ha c hc heq => ?_⟩
  · refine ((List.nodup_singleton (cname x.name)).sublist ?_)
    exact (List.filter_sublist : List.filter _ [x] |>.Sublist [x]).map fun x => cname x.name
  · obtain ⟨y, hy, rfl⟩ := List.mem_map.mp ha
    obtain ⟨z, hz, rfl⟩ := List.mem_map.mp hc
    have hyx : y = x := List.mem_singleton.mp (List.mem_of_mem_filter hy)
    refine search_eq_none.mp hnone z hz ?_
    rw [← heq, hyx, hname]

/-- No directory has two entries with one name. -/
def Sys.Unique (s : Sys) : Prop :=
  ∀ dir nd, s.node dir = some nd → ((live nd.slots).map fun x => cname x.name).Nodup

theorem look_of_node (hn : s.node dir = some nd) (name : List Byte) : s.look e dir name =
    if nd.dir = true ∧ e.ipe dir = true then search nd.slots name else none := by
  unfold Sys.look
  rw [hn]

theorem look_some {r : ℕ × ℕ} (h : s.look e dir name = some r) :
    ∃ nd, s.node dir = some nd ∧ (nd.dir = true ∧ e.ipe dir = true) ∧
      search nd.slots name = some r := by
  cases hn : s.node dir with
  | none =>
    unfold Sys.look at h
    rw [hn] at h
    cases h
  | some nd =>
    rw [look_of_node hn] at h
    split_ifs at h with hok
    exact ⟨nd, rfl, hok, h⟩

/-- A slot of a directory that can be searched is written. -/
theorem look_idirent (hn : s.node dir = some nd) (hok : nd.dir = true ∧ e.ipe dir = true)
    {w : Option (ℕ × ℕ)} {nm : List Byte}
    (h : ∀ want, search (putSlot nd.slots pos ⟨ino, nm⟩) want =
      if cname want = cname name then w else search nd.slots want) :
    (s.idirent ino dir pos nm).look e = put (s.look e) dir name w := by
  funext d want
  unfold put
  by_cases hd : d = dir
  · subst hd
    have hnode : (s.idirent ino d pos nm).node d =
        some { nd with slots := putSlot nd.slots pos ⟨ino, nm⟩ } := by
      rw [idirent_node, if_pos rfl, hn]
      rfl
    rw [look_of_node hnode, look_of_node hn, if_pos hok, if_pos hok, h]
    by_cases hw : cname want = cname name
    · rw [if_pos hw, if_pos ⟨rfl, hw⟩]
    · rw [if_neg hw, if_neg fun h => hw h.2]
  · unfold Sys.look
    rw [idirent_node, if_neg hd, if_neg fun h => hd h.1]

/-- An entry is written for a name that the directory does not have. -/
theorem look_put (hn : s.node dir = some nd) (hok : nd.dir = true ∧ e.ipe dir = true)
    (hnone : search nd.slots name = none) (hino : ino ≠ 0) :
    (s.idirent ino dir (freeSlot nd.slots) name).look e =
      put (s.look e) dir name (some (freeSlot nd.slots, ino)) :=
  look_idirent hn hok fun want => search_put hnone hino rfl want

/-- The entry of a name is removed. -/
theorem look_remove (hu : s.Unique) (h : s.look e dir name = some (pos, ino)) (nm : List Byte) :
    (s.idirent 0 dir pos nm).look e = put (s.look e) dir name none := by
  obtain ⟨nd, hn, hok, hs⟩ := look_some h
  exact look_idirent hn hok fun want => search_remove (hu dir nd hn) hs rfl want

theorem look_addLink (s : Sys) (ino : ℕ) : (s.addLink ino).look e = s.look e := by
  funext d w
  unfold Sys.look
  rw [addLink_node]
  by_cases hd : d = ino
  · rw [if_pos hd, hd]
    cases s.node ino <;> rfl
  · rw [if_neg hd]

/-- A link is dropped, but not the last one. -/
theorem look_dropLink (h : s.links ino = some k) (hk : 2 ≤ k) :
    (s.dropLink ino).look e = s.look e := by
  funext d w
  unfold Sys.look
  rw [dropLink_node]
  by_cases hd : d = ino
  · obtain ⟨nd, hn, rfl⟩ := Option.map_eq_some_iff.mp h
    have hne : ¬nd.nlink - 1 = 0 := by omega
    rw [if_pos hd, hd, hn, Option.bind_some, if_neg hne]
  · rw [if_neg hd]

theorem unique_addLink (hu : s.Unique) (ino : ℕ) : (s.addLink ino).Unique := by
  intro d nd hn
  rw [addLink_node] at hn
  by_cases hd : d = ino
  · rw [if_pos hd] at hn
    obtain ⟨nd', hn', rfl⟩ := Option.map_eq_some_iff.mp hn
    exact hu ino nd' hn'
  · rw [if_neg hd] at hn
    exact hu d nd hn

theorem unique_idirent (hu : s.Unique) {nm : List Byte}
    (h : ∀ nd, s.node dir = some nd →
      ((live (putSlot nd.slots pos ⟨ino, nm⟩)).map fun x => cname x.name).Nodup) :
    (s.idirent ino dir pos nm).Unique := by
  intro d nd hn
  rw [idirent_node] at hn
  by_cases hd : d = dir
  · rw [if_pos hd] at hn
    obtain ⟨nd', hn', rfl⟩ := Option.map_eq_some_iff.mp hn
    exact h nd' hn'
  · rw [if_neg hd] at hn
    exact hu d nd hn

/-- No more entries. -/
def Under (look' look : ℕ → List Byte → Option (ℕ × ℕ)) : Prop :=
  ∀ d w, look' d w = none ∨ look' d w = look d w

theorem Under.trans {l m : ℕ → List Byte → Option (ℕ × ℕ)} (h : Under look l) (h' : Under l m) :
    Under look m := fun d w => (h d w).elim Or.inl fun heq => heq ▸ h' d w

/-- A new entry is not on a way that was there before. -/
theorem trail_put (hnone : ∀ w, cname w = cname name → look dir w = none)
    (hd : trail look cip cs = some k) (v : Option (ℕ × ℕ)) :
    trail (put look dir name v) cip cs = some k := by
  induction cs generalizing cip with
  | nil => exact hd
  | cons c cs ih =>
    unfold trail at hd ⊢
    cases hl : look cip (dirName c) with
    | none =>
      rw [hl] at hd
      cases hd
    | some r =>
      have hne : ¬(cip = dir ∧ cname (dirName c) = cname name) := fun h => by
        rw [h.1, hnone _ h.2] at hl
        cases hl
      rw [hl] at hd
      rw [put, if_neg hne, hl]
      exact ih hd

/-- The lookup of `do_unlink`. -/
theorem ftoi_unlink (s : Sys) (hpath : comps path = cs ++ [b]) :
    s.clear.ftoi e .unlink true path =
      match trail (s.look e) (e.start path) cs with
      | some dir =>
          match s.look e dir (dirName b) with
          | some (pos, ino) => .entry ino dir pos
          | none => .error
      | none => .error := by
  have hlook : s.clear.look e = s.look e := rfl
  rw [ftoi_concat rfl hpath, descend_eq, hlook]
  cases trail (s.look e) (e.start path) cs with
  | none => rfl
  | some d =>
    simp only
    rw [last_unlink, hlook]

/-- `do_unlink` from the writing of the entry on. -/
def Sys.taken (s : Sys) (r : UnlinkRun) (ino dir pos : ℕ) (name : List Byte) : Bool × Sys :=
  let s₁ := if r.write = true then s.clear.idirent 0 dir pos name else s.clear.fail
  if r.attach = true then (s.error, s₁.dropLink ino) else (false, s₁.fail)

variable {r : UnlinkRun}

/-- **An unlink** of a file. -/
theorem doUnlink_spec (h : s.clear.ftoi e .unlink true path = .entry ino dir pos)
    (hsup : (s.node ino).any (·.dir) = true → e.super = true) :
    s.doUnlink e r path =
      if r.find = true ∧ r.check = true ∧ e.ipw dir = true then
        s.taken r ino dir pos (lastName path)
      else (s.error, s.clear.fail) := by
  unfold Sys.doUnlink
  simp only
  rw [show ({ s with error := false } : Sys) = s.clear from rfl]
  by_cases hf : r.find = true
  swap
  · rw [eq_false_of_ne_true hf, ftoi_fails, if_neg (fun h => Bool.noConfusion h.1)]
  rw [hf, h]
  simp only
  by_cases hw : e.ipw dir = true
  swap
  · rw [if_pos (eq_false_of_ne_true hw), if_neg fun h => hw h.2.2]
  rw [if_neg (by rw [hw]; decide)]
  by_cases hc : r.check = true
  · have hiucheck : s.clear.iucheck e r.check ino := ⟨hc, hsup⟩
    have hgo : True ∧ r.check = true ∧ e.ipw dir = true := ⟨trivial, hc, hw⟩
    rw [if_neg (not_not.mpr hiucheck), if_pos hgo]
    unfold Sys.taken
    simp only
    by_cases hat : r.attach = true
    · have hnot : ¬r.attach = false := by rw [hat]; decide
      rw [if_neg hnot, if_pos hat]
    · rw [if_pos (eq_false_of_ne_true hat), if_neg hat]
  · rw [if_pos fun h => hc h.1, if_neg fun h => hc h.2.1]

/-- The entry has been written, and the links are as before. -/
def Sys.freed (s : Sys) (r : UnlinkRun) (dir pos : ℕ) (name : List Byte) : Sys :=
  if r.write = true then s.clear.idirent 0 dir pos name else s.clear.fail

theorem taken_node (s : Sys) (r : UnlinkRun) (ino dir pos : ℕ) (name : List Byte) :
    (s.taken r ino dir pos name).2.node =
      if r.attach = true then ((s.freed r dir pos name).dropLink ino).node
      else (s.freed r dir pos name).node := by
  unfold Sys.taken Sys.freed
  simp only
  split_ifs <;> rfl

theorem freed_look (hu : s.Unique) (h : s.look e dir name = some (pos, ino)) (nm : List Byte) :
    (s.freed r dir pos nm).look e =
      if r.write = true then put (s.look e) dir name none else s.look e := by
  unfold Sys.freed
  split_ifs
  · exact look_remove hu h nm
  · rfl

theorem freed_links (s : Sys) (r : UnlinkRun) (dir pos : ℕ) (name : List Byte) (i : ℕ) :
    (s.freed r dir pos name).links i = s.links i := by
  unfold Sys.freed
  split_ifs
  · exact idirent_links _ _ _ _ _ _
  · rfl

theorem look_node (h : s'.node = s.node) : s'.look e = s.look e := by
  unfold Sys.look
  rw [h]

/-- The links after an unlink. -/
theorem taken_links (h : s.links ino = some k) (r : UnlinkRun) (dir pos : ℕ) (name : List Byte) :
    (s.taken r ino dir pos name).2.links ino =
      if r.attach = true then if k - 1 = 0 then none else some (k - 1) else some k := by
  unfold Sys.links
  rw [taken_node]
  split_ifs with ha hone
  · have hdrop := dropLink_links (s.freed r dir pos name) ino ino
    rw [if_pos rfl, freed_links, h, Option.bind_some, if_pos hone] at hdrop
    exact hdrop
  · have hdrop := dropLink_links (s.freed r dir pos name) ino ino
    rw [if_pos rfl, freed_links, h, Option.bind_some, if_neg hone] at hdrop
    exact hdrop
  · exact (freed_links s r dir pos name ino).trans h

/-- The entries after an unlink that leaves a link. -/
theorem taken_look (hu : s.Unique) (h : s.look e dir name = some (pos, ino))
    (hlinks : s.links ino = some k) (hk : r.attach = true → 2 ≤ k) (nm : List Byte) :
    (s.taken r ino dir pos nm).2.look e =
      if r.write = true then put (s.look e) dir name none else s.look e := by
  rw [← freed_look hu h nm]
  have hnode := taken_node s r ino dir pos nm
  by_cases ha : r.attach = true
  · rw [if_pos ha] at hnode
    rw [look_node hnode]
    exact look_dropLink ((freed_links s r dir pos nm ino).trans hlinks) (hk ha)
  · rw [if_neg ha] at hnode
    exact look_node hnode

end CohKernel.Mkdir
