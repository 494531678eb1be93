import CohKernel.Mkdir.Walk

namespace CohKernel.Mkdir

open CohKernel.Lib CohKernel.Dir

/-!
# What `umkdir` leaves behind

* `Grown` — the states of `umkdir` after the entry of the new directory has been written;
* `umkdir_sound_iff` — when `umkdir` makes the directory, or leaves everything as it was.
-/

variable {e : Process} {s s' : Sys} {t : Access} {path path₁ path₂ : List Byte}
  {cs : List (List Byte)} {b : List Byte} {dir new ino pos i k j : ℕ} {nd : Node}

/-! ### Definitions -/

/-- What is seen of an inode. -/
def Node.view (nd : Node) : Bool × ℕ × List Slot := (nd.dir, nd.nlink, live nd.slots)

/-- The directories have the same entries, and the inodes the same links. -/
def Same (s s' : Sys) : Prop := ∀ i, (s'.node i).map Node.view = (s.node i).map Node.view

/-- A directory with the entries `.` and `..` has been entered in the one in which the path leads;
    its links are two, and its parent has one more. -/
def Made (e : Process) (s s' : Sys) (path : List Byte) : Prop :=
  ∃ dir new nd, s.ftoi e .create true path = .parent dir (freeSlot nd.slots) ∧
    s.node dir = some nd ∧ s.node new = none ∧
    s'.node new = some ⟨true, 2, [⟨new, dirName [DOT]⟩, ⟨dir, dirName [DOT, DOT]⟩]⟩ ∧
    s'.node dir = some ⟨nd.dir, nd.nlink + 1,
      putSlot nd.slots (freeSlot nd.slots) ⟨new, lastName path⟩⟩ ∧
    ∀ i, i ≠ dir → i ≠ new → s'.node i = s.node i

/-- What `umkdir` is for: the directory is made, or there is an error and everything is as before.
    -/
def Sound (e : Process) (s : Sys) (path : List Byte) (res : ℤ × Sys) : Prop :=
  if res.1 = 0 ∧ res.2.error = false then Made e s res.2 path else Same s res.2

theorem sound_failed {v : ℤ} (h : v ≠ 0 ∨ s'.error = true) :
    Sound e s path (v, s') ↔ Same s s' := by
  unfold Sound
  rw [if_neg]
  rintro ⟨hv, herr⟩
  rcases h with hne | htrue
  · exact hne hv
  · rw [show s'.error = false from herr] at htrue
    cases htrue

theorem sound_made (h : s'.error = false) : Sound e s path (0, s') ↔ Made e s s' path := by
  unfold Sound
  rw [if_pos ⟨rfl, h⟩]

/-- In a filesystem every directory has an entry `.` that names it. -/
def Sys.Wf (s : Sys) : Prop :=
  ∀ dir nd, s.node dir = some nd → nd.dir = true →
    ∃ pos, search nd.slots (dirName [DOT]) = some (pos, dir)

/-! ### One call -/

theorem ftoi_fails (e : Process) (s : Sys) (t : Access) (path : List Byte) :
    s.ftoi e t false path = .error := if_pos (Or.inr rfl)

/-- **A link**, when its paths lead where they should. -/
theorem doLink_eq (r : LinkRun) (h₁ : s.ftoi e .reference true path₁ = .child ino)
    (h₂ : s.ftoi e .create true path₂ = .parent dir pos) :
    s.doLink e r path₁ path₂ =
      if r.find₁ = true ∧ r.find₂ = true ∧ r.write = true ∧ e.ipw dir = true then
        (s.idirent ino dir pos (lastName path₂)).addLink ino
      else s.fail := by
  unfold Sys.doLink
  by_cases hf₁ : r.find₁ = true
  swap
  · rw [eq_false_of_ne_true hf₁, ftoi_fails, if_neg (fun h => Bool.noConfusion h.1)]
  rw [hf₁, h₁]
  simp only
  by_cases hf₂ : r.find₂ = true
  swap
  · rw [eq_false_of_ne_true hf₂, ftoi_fails, if_neg (fun h => Bool.noConfusion h.2.1)]
  rw [hf₂, h₂]
  simp only
  by_cases hw : e.ipw dir = true
  swap
  · rw [if_pos (eq_false_of_ne_true hw), if_neg (fun h => hw h.2.2.2)]
  rw [if_neg (by rw [hw]; decide)]
  by_cases hr : r.write = true
  · rw [if_neg (by rw [hr]; decide), if_pos ⟨trivial, trivial, hr, hw⟩]
  · rw [if_pos (eq_false_of_ne_true hr), if_neg (fun h => hr h.2.2.1)]

/-- A link that does not find its first path, or the place for the second. -/
theorem doLink_fails (r : LinkRun) (h : ∀ ino, s.ftoi e .reference r.find₁ path₁ = .child ino →
    ∀ dir pos, s.ftoi e .create r.find₂ path₂ ≠ .parent dir pos) :
    s.doLink e r path₁ path₂ = s.fail := by
  unfold Sys.doLink
  cases h₁ : s.ftoi e .reference r.find₁ path₁ with
  | child ino =>
    cases h₂ : s.ftoi e .create r.find₂ path₂ with
    | parent dir pos => exact absurd h₂ (h ino h₁ dir pos)
    | error => rfl
    | child ino => rfl
    | entry ino dir pos => rfl
  | error => rfl
  | parent dir pos => rfl
  | entry ino dir pos => rfl

/-- `u_error` is cleared. -/
def Sys.clear (s : Sys) : Sys := { s with error := false }

/-- **An unlink** of an entry of a directory. -/
theorem doUnlink_eq (r : UnlinkRun) (h : s.clear.ftoi e .unlink true path = .entry ino dir pos)
    (hw : e.ipw dir = true) (hn : s.node ino = some nd) (hdir : nd.dir = true) :
    s.doUnlink e r path =
      if r.find = true ∧ r.check = true ∧ e.super = true then
        let s₁ := if r.write = true then s.clear.idirent 0 dir pos (lastName path) else s.clear.fail
        if r.attach = true then (s.error, s₁.dropLink ino) else (false, s₁.fail)
      else (s.error, s.clear.fail) := by
  unfold Sys.doUnlink
  simp only
  rw [show ({ s with error := false } : Sys) = s.clear from rfl]
  by_cases hf : r.find = true
  swap
  · rw [eq_false_of_ne_true hf, ftoi_fails, if_neg (fun h => Bool.noConfusion h.1)]
  rw [hf, h]
  simp only
  rw [if_neg (by rw [hw]; decide)]
  have hany : (s.clear.node ino).any (·.dir) = true := by
    rw [show s.clear.node ino = some nd from hn]
    exact hdir
  by_cases hc : r.check = true ∧ e.super = true
  · have hiucheck : s.clear.iucheck e r.check ino := ⟨hc.1, fun _ => hc.2⟩
    have hgo : True ∧ r.check = true ∧ e.super = true := ⟨trivial, hc⟩
    rw [if_neg (not_not.mpr hiucheck), if_pos hgo]
    by_cases hat : r.attach = true
    · have hnot : ¬ r.attach = false := by
        rw [hat]
        decide
      rw [if_neg hnot, if_pos hat]
    · rw [if_pos (eq_false_of_ne_true hat), if_neg hat]
  · rw [if_pos (fun h => hc ⟨h.1, h.2 hany⟩), if_neg (fun h => hc h.2)]

theorem idirent_node (s : Sys) (ino dir pos : ℕ) (name : List Byte) (i : ℕ) :
    (s.idirent ino dir pos name).node i =
      if i = dir then (s.node dir).map fun nd =>
        { nd with slots := putSlot nd.slots pos ⟨ino, name⟩ }
      else s.node i := Function.update_apply _ _ _ _

theorem addLink_node (s : Sys) (ino i : ℕ) : (s.addLink ino).node i =
    if i = ino then (s.node ino).map fun nd => { nd with nlink := nd.nlink + 1 } else s.node i :=
  Function.update_apply _ _ _ _

theorem dropLink_node (s : Sys) (ino i : ℕ) : (s.dropLink ino).node i =
    if i = ino then (s.node ino).bind fun nd =>
      if nd.nlink - 1 = 0 then none else some { nd with nlink := nd.nlink - 1 }
    else s.node i := Function.update_apply _ _ _ _

/-- The links of an inode. -/
def Sys.links (s : Sys) (i : ℕ) : Option ℕ := (s.node i).map (·.nlink)

theorem idirent_links (s : Sys) (ino dir pos : ℕ) (name : List Byte) (i : ℕ) :
    (s.idirent ino dir pos name).links i = s.links i := by
  unfold Sys.links
  rw [idirent_node]
  split_ifs with h
  · subst h
    rw [Option.map_map]
    rfl
  · rfl

theorem setError_links (h : s.links i = some k) (err : Bool) : (s.setError err).links i = some k :=
    h

theorem dropLink_links (s : Sys) (ino i : ℕ) :
    (s.dropLink ino).links i =
      if i = ino then (s.links i).bind fun k => if k - 1 = 0 then none else some (k - 1)
      else s.links i := by
  unfold Sys.links
  rw [dropLink_node]
  by_cases h : i = ino
  · subst h
    rw [if_pos rfl, if_pos rfl]
    cases s.node i with
    | none => rfl
    | some nd =>
      simp only [Option.bind_some, Option.map_some]
      split_ifs <;> rfl
  · rw [if_neg h, if_neg h]

/-- An unlink drops a link of the inode that it finds, and no other. -/
theorem doUnlink_links (e : Process) (s : Sys) (r : UnlinkRun) (path : List Byte) (i : ℕ) :
    (s.doUnlink e r path).2.links i = s.links i ∨
      (∃ dir pos, s.clear.ftoi e .unlink r.find path = .entry i dir pos) ∧
        (s.doUnlink e r path).2.links i =
          (s.links i).bind fun k => if k - 1 = 0 then none else some (k - 1) := by
  unfold Sys.doUnlink
  simp only
  rw [show ({ s with error := false } : Sys) = s.clear from rfl]
  cases h : s.clear.ftoi e .unlink r.find path with
  | error => exact Or.inl rfl
  | child ino => exact Or.inl rfl
  | parent dir pos => exact Or.inl rfl
  | entry ino dir pos =>
    simp only
    by_cases hw : e.ipw dir = false
    · rw [if_pos hw]
      exact Or.inl rfl
    rw [if_neg hw]
    by_cases hc : ¬ s.clear.iucheck e r.check ino
    · rw [if_pos hc]
      exact Or.inl rfl
    rw [if_neg hc]
    have hsame : (if r.write = true then s.clear.idirent 0 dir pos (lastName path)
        else s.clear.fail).links i = s.links i := by
      split_ifs
      · exact idirent_links _ _ _ _ _ _
      · rfl
    by_cases ha : r.attach = false
    · rw [if_pos ha]
      exact Or.inl hsame
    rw [if_neg ha]
    have hdrop := dropLink_links (if r.write = true then s.clear.idirent 0 dir pos (lastName path)
        else s.clear.fail) ino i
    rw [hsame] at hdrop
    by_cases hi : i = ino
    · subst hi
      rw [if_pos rfl] at hdrop
      exact Or.inr ⟨⟨dir, pos, rfl⟩, hdrop⟩
    · rw [if_neg hi] at hdrop
      exact Or.inl hdrop

/-- Links do not get more by an unlink. -/
theorem doUnlink_le (r : UnlinkRun) (h : (s.doUnlink e r path).2.links i = some k) :
    ∃ j, s.links i = some j ∧ k ≤ j := by
  rcases doUnlink_links e s r path i with heq | ⟨-, heq⟩
  · rw [heq] at h
    exact ⟨k, h, le_rfl⟩
  · rw [heq] at h
    obtain ⟨j, hj, hk⟩ := Option.bind_eq_some_iff.mp h
    refine ⟨j, hj, ?_⟩
    split_ifs at hk
    cases hk
    exact Nat.sub_le _ _

/-- And at most by one. -/
theorem doUnlink_ge (r : UnlinkRun) (h : s.links i = some k) (hk : 2 ≤ k) :
    ∃ j, (s.doUnlink e r path).2.links i = some j := by
  rcases doUnlink_links e s r path i with heq | ⟨-, heq⟩
  · exact ⟨k, heq.trans h⟩
  · refine ⟨k - 1, ?_⟩
    rw [heq, h, Option.bind_some, if_neg (by omega)]

/-! ### The new directory -/

/-- The place of a new directory: the last component of the path is not in a directory that can be
    written, and there is a free inode. -/
structure Place (e : Process) (s : Sys) (path : List Byte) (cs : List (List Byte)) (b : List Byte)
    (dir new : ℕ) (nd : Node) : Prop where
  splits : comps path = cs ++ [b]
  leads : s.descend e (e.start path) cs = some dir
  node : s.node dir = some nd
  isDir : nd.dir = true
  ipe : e.ipe dir = true
  ipw : e.ipw dir = true
  absent : search nd.slots (dirName b) = none
  fresh : s.node new = none
  pos : new ≠ 0

/-- The entry of the new directory has been written; it has `k` links and the slots `slots`, and the
    links of its parent are `j` more. -/
structure Grown (s s' : Sys) (dir new : ℕ) (nd : Node) (b : List Byte) (k : ℕ) (slots : List Slot)
    (j : ℕ) : Prop where
  child : s'.node new = some ⟨true, k, slots⟩
  parent : s'.node dir =
    some ⟨nd.dir, nd.nlink + j, putSlot nd.slots (freeSlot nd.slots) ⟨new, dirName b⟩⟩
  rest : ∀ i, i ≠ dir → i ≠ new → s'.node i = s.node i

variable {slots : List Slot}

theorem Place.ne (hp : Place e s path cs b dir new nd) : new ≠ dir := by
  rintro rfl
  have := hp.node
  rw [hp.fresh] at this
  cases this

theorem Grown.clear (h : Grown s s' dir new nd b k slots j) :
    Grown s s'.clear dir new nd b k slots j := ⟨h.child, h.parent, h.rest⟩

theorem Grown.setError (h : Grown s s' dir new nd b k slots j) (err : Bool) :
    Grown s (s'.setError err) dir new nd b k slots j := ⟨h.child, h.parent, h.rest⟩

theorem Grown.fail (h : Grown s s' dir new nd b k slots j) :
    Grown s s'.fail dir new nd b k slots j := ⟨h.child, h.parent, h.rest⟩

/-- What has been found is found. -/
theorem Grown.last (hp : Place e s path cs b dir new nd) (h : Grown s s' dir new nd b k slots j)
    (d : ℕ) (comp : List Byte) (ino : ℕ) (hf : s.last e .reference d comp = .child ino) :
    s'.last e .reference d comp = .child ino := by
  obtain ⟨n, hn, hdir, hx⟩ :=
    last_found (show s.last e .reference d comp ≠ .error by rw [hf]; exact Found.noConfusion)
  by_cases hd : d = dir
  · subst hd
    rw [hp.node] at hn
    cases hn
    rw [last_dir hp.node hdir hx] at hf
    rw [last_dir h.parent hdir hx]
    simp only
    rw [search_put hp.absent hp.pos rfl]
    by_cases hname : cname (dirName comp) = cname (dirName b)
    · -- the new name has not been found
      have hnone : search nd.slots (dirName comp) = none := by
        rw [search_eq_none, hname]
        exact search_eq_none.mp hp.absent
      rw [hnone] at hf
      simp at hf
    · rw [if_neg hname]
      exact hf
  · have hnew : d ≠ new := by
      rintro rfl
      rw [hp.fresh] at hn
      cases hn
    rw [last_dir ((h.rest d hd hnew).trans hn) hdir hx]
    rw [last_dir hn hdir hx] at hf
    exact hf

/-- The new entry is found in its directory. -/
theorem Grown.last_new (hp : Place e s path cs b dir new nd) (h : Grown s s' dir new nd b k slots j)
    (t : Access) : s'.last e t dir b =
      if t = .unlink then .entry new dir (freeSlot nd.slots) else .child new := by
  rw [last_dir h.parent hp.isDir hp.ipe]
  simp only
  rw [search_put hp.absent hp.pos rfl, if_pos rfl]

/-- The path leads to the new directory. -/
theorem Grown.ftoi_path (hp : Place e s path cs b dir new nd)
    (h : Grown s s' dir new nd b k slots j) (herr : s'.error = false) (t : Access) :
    s'.ftoi e t true path =
      if t = .unlink then .entry new dir (freeSlot nd.slots) else .child new := by
  rw [ftoi_concat herr hp.splits, descend_mono (h.last hp) hp.leads]
  exact h.last_new hp t

theorem start_append (hpath : path ≠ []) (q : List Byte) : e.start (path ++ q) = e.start path := by
  unfold Process.start
  rw [List.head?_append_of_ne_nil path hpath]

theorem Place.ne_nil (hp : Place e s path cs b dir new nd) : path ≠ [] := by
  rintro rfl
  have := hp.splits
  cases cs <;> cases this

/-- A name in the new directory. -/
theorem Grown.ftoi_inside (hp : Place e s path cs b dir new nd)
    (h : Grown s s' dir new nd b k slots j) (herr : s'.error = false) (t : Access) {q c : List Byte}
    (hq : comps q = [c]) : s'.ftoi e t true (path ++ SLASH :: q) = s'.last e t new c := by
  have hcomps : comps (path ++ SLASH :: q) = (cs ++ [b]) ++ [c] := by
    rw [comps_append, hq, hp.splits]
  rw [ftoi_concat herr hcomps, start_append hp.ne_nil, descend_concat,
    descend_mono (h.last hp) hp.leads]
  simp only
  rw [h.last_new hp, if_neg (by decide)]

/-- The search of the new directory. -/
theorem Grown.last_inside (h : Grown s s' dir new nd b k slots j) (t : Access) (c : List Byte) :
    s'.last e t new c =
      if e.ipe new = true then
        match search slots (dirName c) with
        | some (pos, ino) => if t = .unlink then .entry ino new pos else .child ino
        | none => if t = .create then .parent new (freeSlot slots) else .error
      else .error := by
  unfold Sys.last
  rw [h.child]
  by_cases hx : e.ipe new = true
  · rw [if_pos hx]
    exact if_pos ⟨rfl, hx⟩
  · rw [if_neg hx]
    exact if_neg fun hok => hx hok.2

/-! ### The links of the new directory -/

theorem freeSlot_all (h : ∀ x ∈ slots, x.ino ≠ 0) : freeSlot slots = slots.length := by
  unfold freeSlot
  rw [List.findIdx_eq_length]
  intro x hx
  simpa using h x hx

theorem putSlot_end (slots : List Slot) (x : Slot) : putSlot slots slots.length x = slots ++ [x] :=
  if_neg (lt_irrefl _)

/-- A link in the new directory. -/
theorem Grown.doLink (hp : Place e s path cs b dir new nd) (h : Grown s s' dir new nd b k slots j)
    (herr : s'.error = false) (r : LinkRun) {q c : List Byte} (hq : comps q = [c])
    (h₁ : s'.ftoi e .reference true path₁ = .child ino) (hnone : search slots (dirName c) = none)
    (hlive : ∀ x ∈ slots, x.ino ≠ 0) :
    s'.doLink e r path₁ (path ++ SLASH :: q) =
      if r.find₁ = true ∧ r.find₂ = true ∧ r.write = true ∧ e.ipe new = true ∧ e.ipw new = true then
        (s'.idirent ino new slots.length (dirName c)).addLink ino
      else s'.fail := by
  have hname : lastName (path ++ SLASH :: q) = dirName c := by
    refine @lastName_concat _ (cs ++ [b]) c ?_
    rw [comps_append, hq, hp.splits]
  have hcreate : s'.ftoi e .create true (path ++ SLASH :: q) =
      if e.ipe new = true then .parent new slots.length else .error := by
    rw [h.ftoi_inside hp herr .create hq, h.last_inside, hnone, freeSlot_all hlive]
    rfl
  by_cases hx : e.ipe new = true
  · rw [if_pos hx] at hcreate
    rw [doLink_eq r h₁ hcreate, hname]
    by_cases hok : r.find₁ = true ∧ r.find₂ = true ∧ r.write = true ∧ e.ipw new = true
    · rw [if_pos hok, if_pos ⟨hok.1, hok.2.1, hok.2.2.1, hx, hok.2.2.2⟩]
    · rw [if_neg hok, if_neg fun h => hok ⟨h.1, h.2.1, h.2.2.1, h.2.2.2.2⟩]
  · rw [if_neg hx] at hcreate
    rw [if_neg fun h => hx h.2.2.2.1]
    refine doLink_fails r fun _ _ d pos heq => ?_
    cases hf : r.find₂ with
    | false =>
      rw [hf, ftoi_fails] at heq
      cases heq
    | true =>
      rw [hf, hcreate] at heq
      cases heq

/-- A link of the new directory to itself. -/
theorem Grown.self (hp : Place e s path cs b dir new nd) (h : Grown s s' dir new nd b k slots j)
    (name : List Byte) : Grown s ((s'.idirent new new slots.length name).addLink new) dir new nd b
      (k + 1) (slots ++ [⟨new, name⟩]) j := by
  have hne := hp.ne
  refine ⟨?_, ?_, fun i hi hi' => ?_⟩
  · rw [addLink_node, if_pos rfl, idirent_node, if_pos rfl, h.child, Option.map_some,
      Option.map_some, putSlot_end]
  · rw [addLink_node, if_neg hne.symm, idirent_node, if_neg hne.symm, h.parent]
  · rw [addLink_node, if_neg hi', idirent_node, if_neg hi', h.rest i hi hi']

/-- A link of the new directory to its parent. -/
theorem Grown.up (hp : Place e s path cs b dir new nd) (h : Grown s s' dir new nd b k slots j)
    (name : List Byte) : Grown s ((s'.idirent dir new slots.length name).addLink dir) dir new nd b
      k (slots ++ [⟨dir, name⟩]) (j + 1) := by
  have hne := hp.ne
  refine ⟨?_, ?_, fun i hi hi' => ?_⟩
  · rw [addLink_node, if_neg hne, idirent_node, if_pos rfl, h.child, Option.map_some, putSlot_end]
  · rw [addLink_node, if_pos rfl, idirent_node, if_neg hne.symm, h.parent, Option.map_some,
      Nat.add_assoc]
  · rw [addLink_node, if_neg hi, idirent_node, if_neg hi', h.rest i hi hi']

/-- Where the path of the parent leads, when the path does not end with a slash. -/
theorem Place.parent (hp : Place e s path cs b dir new nd) (hwf : s.Wf)
    (hslash : path.getLast? ≠ some SLASH) :
    parentPath path ≠ [] ∧
      s.descend e (e.start (parentPath path)) (comps (parentPath path)) = some dir ∧
      (comps (parentPath path) = [] → e.rdir = dir) := by
  have hne : comps path ≠ [] := by
    rw [hp.splits]
    exact List.append_ne_nil_of_right_ne_nil _ (List.cons_ne_nil _ _)
  obtain ⟨h, -⟩ | ⟨-, hno, hparent, hcomps⟩ | ⟨-, p, c, hsplit, hparent, hcomps⟩ :=
    parentPath_cases hne
  · exact absurd h hslash
  · -- the name `.` of the current directory
    have hstart : e.start path = e.cdir := by
      unfold Process.start
      refine if_neg fun h => hno ?_
      exact List.mem_of_head? h
    have hcs : cs = [] := by
      have := hcomps.symm.trans hp.splits
      cases cs with
      | nil => rfl
      | cons x xs =>
        have hlen := congrArg List.length this
        simp at hlen
    have hdir : dir = e.cdir := by
      have := hp.leads
      rw [hcs, hstart] at this
      exact (Option.some.inj this).symm
    obtain ⟨pos, hdot⟩ := hwf dir nd hp.node hp.isDir
    have hfound : s.last e .reference dir [DOT] = .child dir := by
      rw [last_dir hp.node hp.isDir hp.ipe, hdot]
      rfl
    rw [hparent]
    refine ⟨List.cons_ne_nil _ _, ?_, fun h => absurd h (by decide)⟩
    rw [show e.start [DOT] = e.cdir from if_neg (by decide), ← hdir,
      show comps [DOT] = [[DOT]] by decide]
    unfold Sys.descend
    rw [hfound]
    rfl
  · have hstart : e.start (p ++ [SLASH]) = e.start path := by
      rw [hsplit]
      unfold Process.start
      cases p <;> rfl
    have hcs : comps p = cs := (List.append_inj' (hcomps.symm.trans hp.splits) rfl).1
    have hq : comps (p ++ [SLASH]) = cs := by
      rw [comps_append, hcs]
      exact List.append_nil cs
    rw [hparent]
    refine ⟨List.append_ne_nil_of_right_ne_nil _ (List.cons_ne_nil _ _), ?_, fun hnil => ?_⟩
    · rw [hstart, hq]
      exact hp.leads
    · have hroot : e.start path = e.rdir := by
        unfold Process.start
        refine if_pos ?_
        rw [hsplit]
        cases p with
        | nil => rfl
        | cons c' p =>
          by_cases hc : c' = SLASH
          · rw [hc]
            rfl
          · rw [hq] at hnil
            rw [hnil] at hcs
            exact absurd hcs (comps_ne_nil hc p)
      have := hp.leads
      rw [← hq, hnil, hroot] at this
      exact Option.some.inj this

/-- The path of the parent leads to the parent still. -/
theorem Grown.ftoi_parent (hp : Place e s path cs b dir new nd)
    (h : Grown s s' dir new nd b k slots j) (hwf : s.Wf) (herr : s'.error = false)
    (hslash : path.getLast? ≠ some SLASH) :
    s'.ftoi e .reference true (parentPath path) = .child dir ∧
      ∃ pos, s'.ftoi e .unlink true (parentPath path ++ [SLASH, DOT]) = .entry dir dir pos := by
  obtain ⟨hne, hdescend, hroot⟩ := hp.parent hwf hslash
  have hdescend' := descend_mono (h.last hp) hdescend
  constructor
  · rcases List.eq_nil_or_concat (comps (parentPath path)) with hnil | ⟨xs, x, hx⟩
    · unfold Sys.ftoi
      rw [if_neg (by rw [herr]; decide), hnil, ← hroot hnil]
      exact if_pos ⟨hne, rfl⟩
    · rw [List.concat_eq_append] at hx
      rw [ftoi_concat herr hx]
      rw [hx, descend_concat] at hdescend'
      cases hd : s'.descend e (e.start (parentPath path)) xs with
      | none =>
        rw [hd] at hdescend'
        cases hdescend'
      | some d =>
        rw [hd] at hdescend'
        simp only at hdescend' ⊢
        cases hl : s'.last e .reference d x with
        | child ino =>
          rw [hl] at hdescend'
          rw [Option.some.inj hdescend']
        | error =>
          rw [hl] at hdescend'
          cases hdescend'
        | parent d' pos =>
          rw [hl] at hdescend'
          cases hdescend'
        | entry ino d' pos =>
          rw [hl] at hdescend'
          cases hdescend'
  · have hcomps : comps (parentPath path ++ [SLASH, DOT]) = comps (parentPath path) ++ [[DOT]] := by
      rw [comps_append]
      rfl
    obtain ⟨pos, hdot⟩ := hwf dir nd hp.node hp.isDir
    have hother : ¬ cname (dirName [DOT]) = cname (dirName b) := by
      intro heq
      have hnone := search_eq_none.mp hp.absent
      rw [← heq] at hnone
      rw [search_eq_none.mpr hnone] at hdot
      cases hdot
    refine ⟨pos, ?_⟩
    rw [ftoi_concat herr hcomps, start_append hne, hdescend']
    simp only
    rw [last_dir h.parent hp.isDir hp.ipe]
    simp only
    rw [search_put hp.absent hp.pos rfl, if_neg hother, hdot]
    rfl

/-! ### Undoing -/

/-- All of the steps of an unlink work. -/
def UnlinkRun.All (r : UnlinkRun) : Prop :=
  r.find = true ∧ r.check = true ∧ r.write = true ∧ r.attach = true

/-- A new directory that is still in use shows. -/
theorem Place.not_same_new {n : Node} (hp : Place e s path cs b dir new nd)
    (h : s'.node new = some n) : ¬ Same s s' := by
  intro hsame
  have hview := hsame new
  rw [hp.fresh, h] at hview
  cases hview

/-- So does an entry that is still there. -/
theorem Place.not_same_entry (hp : Place e s path cs b dir new nd) {k : ℕ}
    (h : s'.node dir =
      some ⟨nd.dir, k, putSlot nd.slots (freeSlot nd.slots) ⟨new, dirName b⟩⟩) : ¬ Same s s' := by
  intro hsame
  have hview := hsame dir
  rw [h, hp.node] at hview
  have hlive : live (putSlot nd.slots (freeSlot nd.slots) ⟨new, dirName b⟩) = live nd.slots :=
    congrArg (fun v => v.2.2) (Option.some.inj hview)
  have hsearch := search_put hp.absent (show (⟨new, dirName b⟩ : Slot).ino ≠ 0 from hp.pos) rfl
    (dirName b)
  rw [if_pos rfl, search_eq_none.mpr (hlive ▸ search_eq_none.mp hp.absent)] at hsearch
  cases hsearch

/-- The entry is freed, and the new directory with it. -/
theorem Grown.same (hp : Place e s path cs b dir new nd) (h : Grown s s' dir new nd b 1 slots 0)
    (name : List Byte) :
    Same s ((s'.idirent 0 dir (freeSlot nd.slots) name).dropLink new) := by
  intro i
  rw [dropLink_node]
  by_cases hi : i = new
  · subst hi
    rw [if_pos rfl, idirent_node, if_neg hp.ne, h.child, hp.fresh]
    rfl
  rw [if_neg hi, idirent_node]
  by_cases hd : i = dir
  · subst hd
    rw [if_pos rfl, h.parent, hp.node, Option.map_some, Option.map_some, Option.map_some]
    unfold Node.view
    simp only
    rw [live_put_free rfl, Nat.add_zero]
  · rw [if_neg hd]
    exact congrArg _ (h.rest i hd hi)

/-- **`do_unlink` takes the new directory back**, when it has one link left, just when the
    super-user calls it and all its steps work. -/
theorem Grown.undo_iff (hp : Place e s path cs b dir new nd) (h : Grown s s' dir new nd b 1 slots 0)
    (r : UnlinkRun) : (Same s (s'.doUnlink e r path).2 ↔ e.super = true ∧ r.All) ∧
      (e.super = true ∧ r.All → (s'.doUnlink e r path).1 = s'.error) := by
  have hfound : s'.clear.ftoi e .unlink true path = .entry new dir (freeSlot nd.slots) := by
    rw [h.clear.ftoi_path hp rfl]
    rfl
  have heq := doUnlink_eq r hfound hp.ipw h.child rfl
  rw [lastName_concat hp.splits] at heq
  by_cases hgo : r.find = true ∧ r.check = true ∧ e.super = true
  swap
  · rw [if_neg hgo] at heq
    have hnot : ¬(e.super = true ∧ r.All) := fun hok => hgo ⟨hok.2.1, hok.2.2.1, hok.1⟩
    rw [heq]
    exact ⟨⟨fun hsame => absurd hsame (hp.not_same_new h.child), fun hok => absurd hok hnot⟩,
      fun hok => absurd hok hnot⟩
  rw [if_pos hgo] at heq
  simp only at heq
  by_cases hat : r.attach = true
  swap
  · -- the inode has not been attached
    rw [if_neg hat] at heq
    have hnot : ¬(e.super = true ∧ r.All) := fun hok => hat hok.2.2.2.2
    rw [heq]
    refine ⟨⟨fun hsame => absurd hsame ?_, fun hok => absurd hok hnot⟩, fun hok => absurd hok hnot⟩
    refine @Place.not_same_new _ _ _ _ _ _ _ _ _ ⟨true, 1, slots⟩ hp ?_
    split_ifs
    · show (s'.clear.idirent 0 dir (freeSlot nd.slots) (dirName b)).node new = _
      rw [idirent_node, if_neg hp.ne]
      exact h.child
    · exact h.child
  rw [if_pos hat] at heq
  by_cases hw : r.write = true
  · rw [if_pos hw] at heq
    have hall : e.super = true ∧ r.All := ⟨hgo.2.2, hgo.1, hgo.2.1, hw, hat⟩
    rw [heq]
    exact ⟨⟨fun _ => hall, fun _ => h.clear.same hp _⟩, fun _ => rfl⟩
  · rw [if_neg hw] at heq
    have hnot : ¬(e.super = true ∧ r.All) := fun hok => hw hok.2.2.2.1
    rw [heq]
    have hentry : (s'.clear.fail.dropLink new).node dir = _ :=
      (dropLink_node _ _ _).trans (if_neg hp.ne.symm)
    rw [show s'.clear.fail.node dir = _ from h.parent] at hentry
    exact ⟨⟨fun hsame => absurd hsame (hp.not_same_entry hentry), fun hok => absurd hok hnot⟩,
      fun hok => absurd hok hnot⟩

/-- The new directory loses one of two links. -/
theorem Grown.drop (hp : Place e s path cs b dir new nd) (h : Grown s s' dir new nd b 2 slots j) :
    Grown s (s'.dropLink new) dir new nd b 1 slots j := by
  refine ⟨?_, ?_, fun i hi hi' => ?_⟩
  · rw [dropLink_node, if_pos rfl, h.child]
    rfl
  · rw [dropLink_node, if_neg hp.ne.symm, h.parent]
  · rw [dropLink_node, if_neg hi', h.rest i hi hi']

/-- A slot of the new directory is freed. -/
theorem Grown.freed (hp : Place e s path cs b dir new nd) (h : Grown s s' dir new nd b k slots j)
    (pos : ℕ) (name : List Byte) :
    Grown s (s'.idirent 0 new pos name) dir new nd b k (putSlot slots pos ⟨0, name⟩) j := by
  refine ⟨?_, ?_, fun i hi hi' => ?_⟩
  · rw [idirent_node, if_pos rfl, h.child]
    rfl
  · rw [idirent_node, if_neg hp.ne.symm, h.parent]
  · rw [idirent_node, if_neg hi', h.rest i hi hi']

theorem Grown.links_new (h : Grown s s' dir new nd b k slots j) : s'.links new = some k := by
  unfold Sys.links
  rw [h.child]
  rfl

/-- The link `.` of the new directory is taken back by the super-user. -/
theorem Grown.unlink_dot (hp : Place e s path cs b dir new nd)
    (h : Grown s s' dir new nd b 2 [⟨new, dirName [DOT]⟩] 0) (hx : e.ipe new = true)
    (hw : e.ipw new = true) (r : UnlinkRun) :
    (e.super = true ∧ r.find = true ∧ r.check = true ∧ r.attach = true →
      (s'.doUnlink e r (path ++ [SLASH, DOT])).1 = s'.error ∧
      ∃ slots, Grown s (s'.doUnlink e r (path ++ [SLASH, DOT])).2 dir new nd b 1 slots 0) ∧
    (¬(e.super = true ∧ r.find = true ∧ r.check = true ∧ r.attach = true) →
      (s'.doUnlink e r (path ++ [SLASH, DOT])).2.links new = some 2) := by
  have hfound : s'.clear.ftoi e .unlink true (path ++ [SLASH, DOT]) = .entry new new 0 := by
    rw [h.clear.ftoi_inside hp rfl .unlink (show comps [DOT] = [[DOT]] by decide),
      h.clear.last_inside, if_pos hx]
    unfold search searchFrom
    rw [if_pos ⟨hp.pos, rfl⟩]
    rfl
  have heq := doUnlink_eq r hfound hw h.child rfl
  constructor
  · rintro ⟨hs, hf, hc, ha⟩
    rw [if_pos ⟨hf, hc, hs⟩] at heq
    simp only at heq
    rw [if_pos ha] at heq
    rw [heq]
    refine ⟨rfl, ?_⟩
    by_cases hwr : r.write = true
    · rw [if_pos hwr]
      exact ⟨_, (h.clear.freed hp 0 _).drop hp⟩
    · rw [if_neg hwr]
      exact ⟨_, h.clear.fail.drop hp⟩
  · intro hnot
    by_cases hgo : r.find = true ∧ r.check = true ∧ e.super = true
    · have ha : ¬ r.attach = true := fun ha => hnot ⟨hgo.2.2, hgo.1, hgo.2.1, ha⟩
      rw [if_pos hgo] at heq
      simp only at heq
      rw [if_neg ha] at heq
      rw [heq]
      split_ifs
      · exact (h.clear.freed hp 0 _).links_new
      · exact h.links_new
    · rw [if_neg hgo] at heq
      rw [heq]
      exact h.links_new

/-! ### The call -/

/-- All of the steps of a link work. -/
def LinkRun.All (r : LinkRun) : Prop := r.find₁ = true ∧ r.find₂ = true ∧ r.write = true

instance (r : LinkRun) : Decidable r.All := inferInstanceAs (Decidable (_ ∧ _ ∧ _))

/-- `umkdir` gets to the writing of the entry of a new directory. -/
structure Begins (e : Process) (s : Sys) (r : Run) (path : List Byte) (dir pos new : ℕ) : Prop where
  buffers : r.buffers = true
  short : path.length < PATH_MAX - 3
  find : r.find = true
  place : s.ftoi e .create true path = .parent dir pos
  priv : r.priv = true
  ipw : e.ipw dir = true
  ialloc : r.ialloc = some new

/-- The calls that do what they are for. -/
def Run.Safe (r : Run) (e : Process) (s : Sys) (path : List Byte) : Prop :=
  ∀ dir pos new, Begins e s r path dir pos new →
    r.write = true ∧
    if r.dot.All ∧ e.ipe new = true ∧ e.ipw new = true then
      if r.dotdot.All then path.getLast? ≠ some SLASH
      else path.getLast? = some SLASH ∧ e.super = true ∧ r.undoDotdot.find = true ∧
        r.undoDotdot.check = true ∧ r.undoDotdot.attach = true ∧ r.undoPath.All
    else e.super = true ∧ r.undoDot.All

variable {r : Run}

theorem Place.ftoi_create (hp : Place e s path cs b dir new nd) (herr : s.error = false) :
    s.ftoi e .create true path = .parent dir (freeSlot nd.slots) := by
  rw [ftoi_concat herr hp.splits, hp.leads]
  simp only
  rw [last_dir hp.node hp.isDir hp.ipe, hp.absent]
  rfl

/-- The parent of a directory that has been made has one link more. -/
theorem Place.not_made (hp : Place e s path cs b dir new nd) (herr : s.error = false)
    (hup : ∀ k, s'.links dir = some k → k ≤ nd.nlink) : ¬ Made e s s' path := by
  rintro ⟨dir', new', nd', hf, hn, -, -, hdir, -⟩
  rw [hp.ftoi_create herr] at hf
  obtain ⟨rfl, -⟩ := Found.parent.inj hf
  rw [hp.node] at hn
  cases hn
  have := hup (nd.nlink + 1) (by unfold Sys.links; rw [hdir]; rfl)
  omega

/-- A new inode that is left in use, without the link of its parent. -/
theorem Place.not_sound (hp : Place e s path cs b dir new nd) (herr : s.error = false)
    (hup : ∀ k, s'.links dir = some k → k ≤ nd.nlink) (hnew : s'.links new = some k) (v : ℤ)
    (x : Bool) : ¬ Sound e s path (v, s'.setError x) := by
  intro hsound
  unfold Sound at hsound
  split_ifs at hsound with hok
  · exact hp.not_made herr hup hsound
  · have hview := hsound new
    rw [hp.fresh] at hview
    unfold Sys.links at hnew
    cases hn : s'.node new with
    | none =>
      rw [hn] at hnew
      cases hnew
    | some n =>
      rw [show (s'.setError x).node new = some n from hn] at hview
      cases hview

theorem Grown.links_dir (h : Grown s s' dir new nd b k slots j) :
    s'.links dir = some (nd.nlink + j) := by
  unfold Sys.links
  rw [h.parent]
  rfl

theorem Grown.up_le (h : Grown s s' dir new nd b k slots 0) :
    ∀ n, s'.links dir = some n → n ≤ nd.nlink := by
  intro n hn
  rw [h.links_dir] at hn
  exact (Option.some.inj hn).ge

/-- An unlink does not give the parent a link. -/
theorem unlink_up {r : UnlinkRun} {n : ℕ} (hup : ∀ k, s'.links i = some k → k ≤ n) :
    ∀ k, (s'.doUnlink e r path).2.links i = some k → k ≤ n := by
  intro k hk
  obtain ⟨j, hj, hle⟩ := doUnlink_le r hk
  exact hle.trans (hup j hj)

theorem setError_up {n : ℕ} (hup : ∀ k, s'.links i = some k → k ≤ n) (err : Bool) :
    ∀ k, (s'.setError err).links i = some k → k ≤ n := hup

/-- The new directory with its one link is unlinked. -/
theorem Grown.sound_undo (hp : Place e s path cs b dir new nd)
    (h : Grown s s' dir new nd b 1 slots 0) (herr : s.error = false) (herr' : s'.error = true)
    (r : UnlinkRun) (v : ℤ) :
    Sound e s path (v, (s'.doUnlink e r path).2.setError (s'.doUnlink e r path).1) ↔
      e.super = true ∧ r.All := by
  obtain ⟨hsame, hfirst⟩ := h.undo_iff hp r
  by_cases hok : e.super = true ∧ r.All
  · exact (sound_failed (Or.inr ((hfirst hok).trans herr'))).trans hsame
  · refine ⟨fun hsound => ?_, fun h => absurd h hok⟩
    unfold Sound at hsound
    split_ifs at hsound with hcase
    · exact absurd hsound (hp.not_made herr (unlink_up h.up_le))
    · exact hsame.mp hsound

/-! ### The call, step by step -/

/-- The entry of the new directory is written. -/
theorem Place.written (hp : Place e s path cs b dir new nd) :
    Grown s (Sys.idirent { s with node := Function.update s.node new (some ⟨true, 1, []⟩) } new dir
      (freeSlot nd.slots) (dirName b)) dir new nd b 1 [] 0 := by
  refine ⟨?_, ?_, fun i hi hi' => ?_⟩
  · rw [idirent_node, if_neg hp.ne]
    exact Function.update_self _ _ _
  · rw [idirent_node, if_pos rfl]
    show (Function.update s.node new _ dir).map _ = _
    rw [Function.update_of_ne hp.ne.symm, hp.node]
    rfl
  · rw [idirent_node, if_neg hi]
    exact Function.update_of_ne hi' _ _

theorem search_dot (new : ℕ) : search [⟨new, dirName [DOT]⟩] (dirName [DOT, DOT]) = none :=
  if_neg fun h => absurd h.2 (show cname (dirName [DOT]) ≠ cname (dirName [DOT, DOT]) by decide)

/-- The link `..` works. -/
theorem umkdirUp_linked {u : Sys}
    (hlink : s.doLink e r.dotdot (parentPath path) (path ++ [SLASH, DOT, DOT]) = u)
    (hu : u.error = false) : s.umkdirUp e r path = (0, u) := by
  unfold Sys.umkdirUp
  rw [hlink]
  exact if_neg (by rw [hu]; decide)

/-- The link `..` fails, and two names are unlinked. -/
theorem umkdirUp_undone
    (hlink : s.doLink e r.dotdot (parentPath path) (path ++ [SLASH, DOT, DOT]) = s.fail)
    {u v : Bool × Sys}
    (hu : s.fail.doUnlink e r.undoDotdot (parentPath path ++ [SLASH, DOT]) = u)
    (hv : (u.2.setError u.1).doUnlink e r.undoPath path = v) :
    s.umkdirUp e r path = (0, v.2.setError v.1) := by
  unfold Sys.umkdirUp
  rw [hlink]
  simp only
  rw [if_pos (show s.fail.error = true from rfl), hu, hv]

/-- The link `..`, when the path ends with a slash: it is a link of the new directory to itself. -/
theorem Grown.up_slash (hp : Place e s path cs b dir new nd)
    (h : Grown s s' dir new nd b 2 [⟨new, dirName [DOT]⟩] 0) (herr : s.error = false)
    (herr' : s'.error = false) (hx : e.ipe new = true) (hw : e.ipw new = true)
    (hslash : path.getLast? = some SLASH) (r : Run) :
    Sound e s path (s'.umkdirUp e r path) ↔ ¬ r.dotdot.All ∧ e.super = true ∧
      r.undoDotdot.find = true ∧ r.undoDotdot.check = true ∧ r.undoDotdot.attach = true ∧
      r.undoPath.All := by
  have hparent : parentPath path = path := by
    obtain ⟨-, heq⟩ | ⟨hno, -⟩ | ⟨hno, -⟩ :=
      parentPath_cases (hp.splits ▸ List.append_ne_nil_of_right_ne_nil _ (List.cons_ne_nil _ _))
    · exact heq
    · exact absurd hslash hno
    · exact absurd hslash hno
  have hlink := h.doLink hp herr' r.dotdot (show comps [DOT, DOT] = [[DOT, DOT]] by decide)
    (h.ftoi_path hp herr' .reference) (search_dot new) (by simpa using hp.pos)
  nth_rewrite 1 [← hparent] at hlink
  by_cases hall : r.dotdot.All
  · have hself := h.self hp (dirName [DOT, DOT])
    rw [if_pos ⟨hall.1, hall.2.1, hall.2.2, hx, hw⟩] at hlink
    rw [umkdirUp_linked hlink herr']
    refine ⟨fun hsound => ?_, fun hok => absurd hall hok.1⟩
    exact absurd hsound (hp.not_sound herr hself.up_le hself.links_new 0 s'.error)
  · rw [if_neg fun hok => hall ⟨hok.1, hok.2.1, hok.2.2.1⟩] at hlink
    rw [umkdirUp_undone hlink rfl rfl, hparent]
    obtain ⟨hgo, hstay⟩ := h.fail.unlink_dot hp hx hw r.undoDotdot
    by_cases hok : e.super = true ∧ r.undoDotdot.find = true ∧ r.undoDotdot.check = true ∧
        r.undoDotdot.attach = true
    · obtain ⟨hfirst, slots, hgrown⟩ := hgo hok
      rw [hfirst, (hgrown.setError s'.fail.error).sound_undo hp herr rfl]
      exact ⟨fun h => ⟨hall, hok.1, hok.2.1, hok.2.2.1, hok.2.2.2, h.2⟩,
        fun h => ⟨h.2.1, h.2.2.2.2.2⟩⟩
    · refine ⟨fun hsound => absurd hsound ?_, fun h => absurd
        ⟨h.2.1, h.2.2.1, h.2.2.2.1, h.2.2.2.2.1⟩ hok⟩
      obtain ⟨m, hm⟩ := doUnlink_ge r.undoPath (setError_links (hstay hok) _) le_rfl
      exact hp.not_sound herr (unlink_up (setError_up (unlink_up h.fail.up_le) _)) hm 0 _

/-- The link `..`, when the path does not end with a slash. -/
theorem Grown.up_other (hp : Place e s path cs b dir new nd)
    (h : Grown s s' dir new nd b 2 [⟨new, dirName [DOT]⟩] 0) (hwf : s.Wf) (herr : s.error = false)
    (herr' : s'.error = false) (hx : e.ipe new = true) (hw : e.ipw new = true)
    (hslash : path.getLast? ≠ some SLASH) (r : Run) :
    Sound e s path (s'.umkdirUp e r path) ↔ r.dotdot.All := by
  have hlink := h.doLink hp herr' r.dotdot (show comps [DOT, DOT] = [[DOT, DOT]] by decide)
    (h.ftoi_parent hp hwf herr' hslash).1 (search_dot new) (by simpa using hp.pos)
  by_cases hall : r.dotdot.All
  · rw [if_pos ⟨hall.1, hall.2.1, hall.2.2, hx, hw⟩] at hlink
    rw [umkdirUp_linked hlink herr']
    refine ⟨fun _ => hall, fun _ => (sound_made ?_).mpr ?_⟩
    · exact herr'
    have hmade := h.up hp (dirName [DOT, DOT])
    refine ⟨dir, new, nd, hp.ftoi_create herr, hp.node, hp.fresh, hmade.child, ?_, hmade.rest⟩
    rw [lastName_concat hp.splits]
    exact hmade.parent
  · rw [if_neg fun hok => hall ⟨hok.1, hok.2.1, hok.2.2.1⟩] at hlink
    rw [umkdirUp_undone hlink rfl rfl]
    refine ⟨fun hsound => absurd hsound ?_, fun h => absurd h hall⟩
    -- what is unlinked is the entry `.` of the parent
    have hkeep : (s'.fail.doUnlink e r.undoDotdot (parentPath path ++ [SLASH, DOT])).2.links new =
        some 2 := by
      have hlinks := doUnlink_links e s'.fail r.undoDotdot (parentPath path ++ [SLASH, DOT]) new
      rcases hlinks with heq | ⟨⟨d, pos, hfound⟩, -⟩
      · exact heq.trans h.fail.links_new
      · obtain ⟨pos', hdot⟩ := (h.fail.clear.ftoi_parent hp hwf rfl hslash).2
        cases hf : r.undoDotdot.find with
        | false =>
          rw [hf, ftoi_fails] at hfound
          cases hfound
        | true =>
          rw [hf, hdot] at hfound
          exact absurd (Found.entry.inj hfound).1.symm hp.ne
    obtain ⟨m, hm⟩ := doUnlink_ge r.undoPath (setError_links hkeep _) le_rfl
    exact hp.not_sound herr (unlink_up (setError_up (unlink_up h.fail.up_le) _)) hm 0 _

/-- The link `.` works. -/
theorem umkdirDot_linked {u : Sys} (hlink : s.doLink e r.dot path (path ++ [SLASH, DOT]) = u)
    (hu : u.error = false) : s.umkdirDot e r path = u.umkdirUp e r path := by
  unfold Sys.umkdirDot
  rw [hlink]
  exact if_neg (by rw [hu]; decide)

/-- The link `.` fails, and the path is unlinked. -/
theorem umkdirDot_undone {u : Bool × Sys}
    (hlink : s.doLink e r.dot path (path ++ [SLASH, DOT]) = s.fail)
    (hu : s.fail.doUnlink e r.undoDot path = u) :
    s.umkdirDot e r path = (-1, u.2.setError u.1) := by
  unfold Sys.umkdirDot
  rw [hlink]
  simp only
  rw [if_pos (show s.fail.error = true from rfl), hu]

/-- The links of a new directory whose entry has been written. -/
theorem Grown.dot (hp : Place e s path cs b dir new nd) (h : Grown s s' dir new nd b 1 [] 0)
    (hwf : s.Wf) (herr : s.error = false) (herr' : s'.error = false) (r : Run) :
    Sound e s path (s'.umkdirDot e r path) ↔
      if r.dot.All ∧ e.ipe new = true ∧ e.ipw new = true then
        if r.dotdot.All then path.getLast? ≠ some SLASH
        else path.getLast? = some SLASH ∧ e.super = true ∧ r.undoDotdot.find = true ∧
          r.undoDotdot.check = true ∧ r.undoDotdot.attach = true ∧ r.undoPath.All
      else e.super = true ∧ r.undoDot.All := by
  have hlink := h.doLink hp herr' r.dot (show comps [DOT] = [[DOT]] by decide)
    (h.ftoi_path hp herr' .reference) rfl (fun x hx => absurd hx List.not_mem_nil)
  by_cases hall : r.dot.All ∧ e.ipe new = true ∧ e.ipw new = true
  · rw [if_pos ⟨hall.1.1, hall.1.2.1, hall.1.2.2, hall.2⟩] at hlink
    rw [if_pos hall, umkdirDot_linked hlink herr']
    have hself := h.self hp (dirName [DOT])
    by_cases hslash : path.getLast? = some SLASH
    · rw [hself.up_slash hp herr herr' hall.2.1 hall.2.2 hslash]
      by_cases hup : r.dotdot.All
      · rw [if_pos hup]
        exact ⟨fun hok => absurd hup hok.1, fun hno => absurd hslash hno⟩
      · rw [if_neg hup]
        exact ⟨fun hok => ⟨hslash, hok.2⟩, fun hok => ⟨hup, hok.2⟩⟩
    · rw [hself.up_other hp hwf herr herr' hall.2.1 hall.2.2 hslash]
      by_cases hup : r.dotdot.All
      · rw [if_pos hup]
        exact ⟨fun _ => hslash, fun _ => hup⟩
      · rw [if_neg hup]
        exact ⟨fun hok => absurd hok hup, fun hok => absurd hok.1 hslash⟩
  · rw [if_neg fun hok => hall ⟨⟨hok.1, hok.2.1, hok.2.2.1⟩, hok.2.2.2⟩] at hlink
    rw [if_neg hall, umkdirDot_undone hlink rfl]
    exact h.fail.sound_undo hp herr rfl r.undoDot (-1)

end CohKernel.Mkdir
