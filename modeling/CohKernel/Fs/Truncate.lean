import CohKernel.Fs.Write

namespace CohKernel.Fs

open CohKernel.Lib

/-!
# Truncating a file

`itruncate` of `fs1.c` and `indfree` of `fs2.c`.

* `mem_nodes`, `nodup_nodes` — the blocks that hang off a block;
* `indfree_spec` — `indfree` frees them;
* `itruncate_spec` — `itruncate` frees the blocks of the file, each of them once.
-/

/-! ### Definitions -/

/-- `indfree`. -/
def indfree (rd : ℕ → Bool) (sortblocks : Bool) : ℕ → Fs → ℕ → Fs
  | 0, s, b => if b = 0 then s else s.bfree sortblocks b
  | l + 1, s, b =>
      if b = 0 then s
      else
        let blk := s.blocks b
        let s :=
          if rd b = true then
            (List.range NBN).reverse.foldl (fun s i =>
              if blk.long (4 * i) = 0 then s
              else if l = 0 then s.bfree sortblocks (dp blk i)
              else indfree rd sortblocks l s (dp blk i)) s
          else s
        s.bfree sortblocks b

/-- The end of `itruncate`. -/
def Inode.truncated (ip : Inode) : Inode := { ip with iSize := 0, iAddr := fun _ => 0 }

/-- `itruncate`. -/
def itruncate (rd : ℕ → Bool) (sortblocks : Bool) (s : Fs) (ip : Inode) : Fs × Inode :=
  match ip.iMode with
  | .IFPIPE =>
      let s := (List.range ND).reverse.foldl (fun s n =>
        if ip.iAddr n ≠ 0 then s.bfree sortblocks (ip.iAddr n) else s) s
      (s, { ip with iPnc := 0, iPrx := 0, iPwx := 0 }.truncated)
  | .IFDIR | .IFREG =>
      let s := (List.range' ND (NADDR - ND)).reverse.foldl (fun s n =>
        if ip.iAddr n ≠ 0 then indfree rd sortblocks (1 + n - ND) s (ip.iAddr n) else s) s
      let s := (List.range ND).reverse.foldl (fun s n =>
        if ip.iAddr n ≠ 0 then s.bfree sortblocks (ip.iAddr n) else s) s
      (s, ip.truncated)
  | .other => (s, ip)

/-! ### The blocks that hang off a block -/

variable {ι : Type*} {files : ι → Inode} {rd : ℕ → Bool} {blocks blocks' : ℕ → Bytes} {s t : Fs}
  {f g : ι} {p q : List ℕ} {b l x : ℕ} {L F : List ℕ} {sortblocks : Bool}

/-- The blocks that `indfree` finds on a block, with itself. -/
def nodes (rd : ℕ → Bool) (blocks : ℕ → Bytes) : ℕ → ℕ → List ℕ
  | 0, b => if b = 0 then [] else [b]
  | l + 1, b =>
      if b = 0 then []
      else
        (if rd b = true then (List.range NBN).reverse.flatMap fun i => nodes rd blocks l
          (dp (blocks b) i)
          else []) ++ [b]

@[simp] theorem nodes_zero (l : ℕ) : nodes rd blocks l 0 = [] := by
  cases l <;> exact if_pos rfl

theorem self_mem_nodes (l : ℕ) (hb : b ≠ 0) : b ∈ nodes rd blocks l b := by
  cases l with
  | zero =>
    rw [nodes, if_neg hb]
    exact List.mem_singleton_self b
  | succ l =>
    rw [nodes, if_neg hb]
    exact List.mem_append_right _ (List.mem_singleton_self b)

/-- The blocks that hang off the block `b` at the level `l`. -/
theorem mem_nodes_succ (hb : b ≠ 0) : x ∈ nodes rd blocks (l + 1) b ↔
    x = b ∨ rd b = true ∧ ∃ i < NBN, x ∈ nodes rd blocks l (dp (blocks b) i) := by
  rw [nodes, if_neg hb, List.mem_append, List.mem_singleton, or_comm]
  refine or_congr_right ?_
  split_ifs with hrd
  · simp [hrd]
  · simp [hrd]

/-- The blocks are the same when they have the same contents. -/
theorem nodes_congr (h : ∀ x ∈ nodes rd blocks l b, blocks' x = blocks x) :
    nodes rd blocks' l b = nodes rd blocks l b := by
  induction l generalizing b with
  | zero => rfl
  | succ l ih =>
    by_cases hb : b = 0
    · rw [hb, nodes_zero, nodes_zero]
    rw [nodes, nodes, if_neg hb, if_neg hb, h b (self_mem_nodes _ hb)]
    split_ifs with hrd
    · refine congrArg (· ++ [b]) ?_
      refine congrArg List.flatten (List.map_congr_left fun i hi => ih fun x hx => h x ?_)
      rw [List.mem_reverse, List.mem_range] at hi
      exact (mem_nodes_succ hb).mpr (Or.inr ⟨hrd, i, hi, hx⟩)
    · rfl

/-- A path one step longer. -/
theorem Path.snoc (h : Path p) (hlen : p.length < depth (p.headD 0)) {i : ℕ} (hi : i < NBN) :
    Path (p ++ [i]) := by
  refine ⟨⟨by simp, ?_⟩, ?_, fun j hj => ?_⟩
  · rw [headD_append h.ne_nil, List.length_append, List.length_singleton]
    omega
  · rw [headD_append h.ne_nil]
    exact h.root
  · rw [List.tail_append_of_ne_nil h.ne_nil, List.mem_append, List.mem_singleton] at hj
    rcases hj with hj | rfl
    · exact h.tail j hj
    · exact hi

/-- Every block that `indfree` finds is on a path. -/
theorem exists_path (hp : Path p) (hlen : p.length + l = depth (p.headD 0))
    (hb : look blocks (files f).iAddr p = b) (hx : x ∈ nodes rd blocks l b) :
    ∃ q, Path (p ++ q) ∧ look blocks (files f).iAddr (p ++ q) = x ∧ x ≠ 0 := by
  induction l generalizing p b with
  | zero =>
    by_cases h0 : b = 0
    · rw [h0, nodes_zero] at hx
      cases hx
    rw [nodes, if_neg h0, List.mem_singleton] at hx
    refine ⟨[], ?_, ?_, ?_⟩
    · rwa [List.append_nil]
    · rw [List.append_nil, hb, hx]
    · rwa [hx]
  | succ l ih =>
    by_cases h0 : b = 0
    · rw [h0, nodes_zero] at hx
      cases hx
    rcases (mem_nodes_succ h0).mp hx with rfl | ⟨-, i, hi, hx⟩
    · exact ⟨[], by rwa [List.append_nil], by rwa [List.append_nil], h0⟩
    · have hnext : look blocks (files f).iAddr (p ++ [i]) = dp (blocks b) i := by
        rw [look_concat hp.ne_nil, hb, if_neg h0]
      obtain ⟨q, hq, hlook, hx0⟩ := ih (hp.snoc (by omega) hi)
        (by rw [List.length_append, List.length_singleton, headD_append hp.ne_nil]; omega) hnext hx
      rw [List.append_assoc] at hq hlook
      exact ⟨[i] ++ q, hq, hlook, hx0⟩

/-- Every block on a path is found, when the blocks before it can be read. -/
theorem mem_nodes (hp : Path (p ++ q)) (hne : p ≠ []) (hlen : p.length + l = depth (p.headD 0))
    (hrd : ∀ r, Path r → r.length < depth (r.headD 0) → look blocks (files f).iAddr r ≠ 0 →
      rd (look blocks (files f).iAddr r) = true)
    (h0 : look blocks (files f).iAddr (p ++ q) ≠ 0) :
    look blocks (files f).iAddr (p ++ q) ∈ nodes rd blocks l (look blocks (files f).iAddr p) := by
  induction q generalizing p l with
  | nil =>
    rw [List.append_nil] at h0 ⊢
    exact self_mem_nodes l h0
  | cons i q ih =>
    have hsplit : p ++ i :: q = (p ++ [i]) ++ q := by simp
    have hb0 : look blocks (files f).iAddr p ≠ 0 := by
      intro hc
      rw [look_append hne, hc, follow_zero] at h0
      exact h0 rfl
    have hplen := hp.length.2
    rw [headD_append hne, List.length_append, List.length_cons] at hplen
    obtain ⟨l, rfl⟩ : ∃ m, l = m + 1 := ⟨l - 1, by omega⟩
    rw [hsplit] at hp h0 ⊢
    have hpi : Path (p ++ [i]) := hp.of_append (by simp)
    have hi : i < NBN := hpi.tail i (by
      rw [List.tail_append_of_ne_nil hne]
      exact List.mem_append_right _ (List.mem_singleton_self i))
    have hnext : look blocks (files f).iAddr (p ++ [i]) =
        dp (blocks (look blocks (files f).iAddr p)) i := by
      rw [look_concat hne, if_neg hb0]
    have hmem := ih (l := l) hp (by simp)
      (by rw [List.length_append, List.length_singleton, headD_append hne]; omega) h0
    rw [hnext] at hmem
    exact (mem_nodes_succ hb0).mpr
      (Or.inr ⟨hrd p (hpi.of_append hne) (by omega) hb0, i, hi, hmem⟩)

/-- **No block is found twice**, when no block is on two paths. -/
theorem nodup_nodes (hdist : Distinct blocks files) (hp : Path p)
    (hlen : p.length + l = depth (p.headD 0)) (hb : look blocks (files f).iAddr p = b) :
    (nodes rd blocks l b).Nodup := by
  induction l generalizing p b with
  | zero =>
    rw [nodes]
    split_ifs
    · exact List.nodup_nil
    · exact List.nodup_singleton b
  | succ l ih =>
    by_cases h0 : b = 0
    · rw [h0, nodes_zero]
      exact List.nodup_nil
    have hnext : ∀ i, look blocks (files f).iAddr (p ++ [i]) = dp (blocks b) i := by
      intro i
      rw [look_concat hp.ne_nil, hb, if_neg h0]
    have hlen' : ∀ i, (p ++ [i]).length + l = depth ((p ++ [i]).headD 0) := by
      intro i
      rw [List.length_append, List.length_singleton, headD_append hp.ne_nil]
      omega
    have hpath : ∀ i ∈ (List.range NBN).reverse, Path (p ++ [i]) := by
      intro i hi
      rw [List.mem_reverse, List.mem_range] at hi
      exact hp.snoc (by omega) hi
    rw [nodes, if_neg h0]
    refine List.Nodup.append ?_ (List.nodup_singleton b) ?_
    · split_ifs with hrd
      swap
      · exact List.nodup_nil
      refine List.nodup_flatMap.mpr ⟨fun i hi => ih (hpath i hi) (hlen' i) (hnext i), ?_⟩
      refine (List.nodup_reverse.mpr (List.nodup_range)).pairwise_of_forall_ne ?_
      intro i hi j hj hij x hxi hxj
      -- a block of two entries would be on two paths
      obtain ⟨q, hq, hlq, hx0⟩ := exists_path (hpath i hi) (hlen' i) (hnext i) hxi
      obtain ⟨r, hr, hlr, -⟩ := exists_path (hpath j hj) (hlen' j) (hnext j) hxj
      obtain ⟨-, heq⟩ := hdist f _ f _ hq hr (by rw [hlq]; exact hx0) (hlq.trans hlr.symm)
      rw [List.append_assoc, List.append_assoc, List.append_cancel_left_eq, List.singleton_append,
        List.singleton_append, List.cons.injEq] at heq
      exact hij heq.1
    · intro x hx hxb
      rw [List.mem_singleton] at hxb
      subst hxb
      split_ifs at hx
      swap
      · cases hx
      obtain ⟨i, hi, hxi⟩ := List.mem_flatMap.mp hx
      obtain ⟨q, hq, hlq, hx0⟩ := exists_path (hpath i hi) (hlen' i) (hnext i) hxi
      obtain ⟨-, heq⟩ := hdist f _ f _ hp hq (by rw [hb]; exact hx0) (hb.trans hlq.symm)
      have := congrArg List.length heq
      simp at this

/-! ### Freeing them -/

/-- The blocks `F` have been put on the free list. -/
structure Freed (s s' : Fs) (F L L' : List ℕ) : Prop where
  perm : L'.Perm (F ++ L)
  listed : Listed s' L'
  blocks : ∀ x, x ∉ F ++ L → s'.blocks x = s.blocks x
  limits : SameLimits s s'

/-- The blocks `F` are in use. -/
def Used (s : Fs) (F L : List ℕ) : Prop := F.Nodup ∧ ∀ x ∈ F, x ∉ L ∧ s.super.inside x

theorem Freed.nil (h : Listed s L) : Freed s s [] L L :=
  ⟨List.Perm.refl _, h, fun _ _ => rfl, SameLimits.refl s⟩

theorem Freed.trans {u : Fs} {F' L' L'' : List ℕ} (h : Freed s t F L L')
    (h' : Freed t u F' L' L'') : Freed s u (F ++ F') L L'' := by
  have hmem : ∀ x, x ∉ F ++ F' ++ L → x ∉ F ++ L ∧ x ∉ F' ++ L' := by
    intro x hx
    simp only [List.mem_append, h.perm.mem_iff, not_or] at hx ⊢
    exact ⟨⟨hx.1.1, hx.2⟩, hx.1.2, hx.1.1, hx.2⟩
  refine ⟨h'.perm.trans ?_, h'.listed, fun x hx => ?_, h.limits.trans h'.limits⟩
  · rw [List.append_assoc]
    exact ((h.perm.append_left F').trans (List.perm_append_comm_assoc F' F L))
  · rw [h'.blocks x (hmem x hx).2, h.blocks x (hmem x hx).1]

/-- A block that has not been freed. -/
theorem Freed.used {F' L' : List ℕ} (h : Freed s t F L L') (hu : Used s (F ++ F') L) :
    Used t F' L' := by
  obtain ⟨hnd, hin⟩ := hu
  obtain ⟨-, hnd', hdisj⟩ := List.nodup_append'.mp hnd
  refine ⟨hnd', fun x hx => ⟨fun hc => ?_, ?_⟩⟩
  · rcases List.mem_append.mp (h.perm.subset hc) with hF | hL
    · exact hdisj hF hx
    · exact (hin x (List.mem_append_right F hx)).1 hL
  · rw [h.limits.inside]
    exact (hin x (List.mem_append_right F hx)).2

theorem Freed.unchanged {F' L' : List ℕ} (h : Freed s t F L L') (hu : Used s (F ++ F') L) :
    ∀ x ∈ F', t.blocks x = s.blocks x := by
  intro x hx
  refine h.blocks x fun hc => ?_
  rcases List.mem_append.mp hc with hF | hL
  · exact (List.nodup_append'.mp hu.1).2.2 hF hx
  · exact (hu.2 x (List.mem_append_right F hx)).1 hL

/-- One block is freed. -/
theorem freed_one (h : Listed s L) (hu : Used s [b] L) :
    ∃ L', Freed s (s.bfree sortblocks b) [b] L L' := by
  obtain ⟨hnot, hin⟩ := hu.2 b (List.mem_singleton_self b)
  obtain ⟨L', hperm, hl, -, hblk, hlim⟩ := h.bfree sortblocks hin hnot
  exact ⟨L', hperm, hl, hblk, hlim⟩

/-- A loop that frees the blocks `F i` in the turn `i`. -/
theorem freed_foldl {step : Fs → ℕ → Fs} {F : ℕ → List ℕ} (is : List ℕ) :
    ∀ {s : Fs} {L : List ℕ}, Listed s L → Used s (is.flatMap F) L →
    (∀ i ∈ is, ∀ t L, Listed t L → Used t (F i) L → (∀ x ∈ F i, t.blocks x = s.blocks x) →
      ∃ L', Freed t (step t i) (F i) L L') →
    ∃ L', Freed s (is.foldl step s) (is.flatMap F) L L' := by
  induction is with
  | nil => exact fun h _ _ => ⟨_, Freed.nil h⟩
  | cons i is ih =>
    intro s L h hu hstep
    rw [List.flatMap_cons] at hu ⊢
    have hui : Used s (F i) L :=
      ⟨(List.nodup_append'.mp hu.1).1, fun x hx => hu.2 x (List.mem_append_left _ hx)⟩
    obtain ⟨L₁, hfirst⟩ := hstep i List.mem_cons_self s L h hui fun _ _ => rfl
    have hsame := hfirst.unchanged hu
    obtain ⟨L', hrest⟩ := ih hfirst.listed (hfirst.used hu) fun j hj t L' hl hut hblk =>
      hstep j (List.mem_cons_of_mem i hj) t L' hl hut fun x hx =>
        (hblk x hx).trans (hsame x (List.mem_flatMap.mpr ⟨j, hj, hx⟩))
    exact ⟨L', hfirst.trans hrest⟩

/-- An address in an indirect block, before it is canonicalized. -/
theorem long_eq_zero (blk : Bytes) (i : ℕ) : blk.long (4 * i) = 0 ↔ dp blk i = 0 :=
  (rol16_eq_zero (long_lt blk _)).symm

/-- **`indfree`** frees the blocks that hang off a block, and the block. -/
theorem indfree_spec (rd : ℕ → Bool) (sortblocks : Bool) (l : ℕ) : ∀ {s : Fs} {b : ℕ} {L : List ℕ},
    Listed s L → Used s (nodes rd s.blocks l b) L →
    ∃ L', Freed s (indfree rd sortblocks l s b) (nodes rd s.blocks l b) L L' := by
  induction l with
  | zero =>
    intro s b L h hu
    unfold indfree
    unfold nodes at hu ⊢
    by_cases hb : b = 0
    · simp only [hb, if_true]
      exact ⟨L, Freed.nil h⟩
    · simp only [hb, if_false] at hu ⊢
      exact freed_one h hu
  | succ l ih =>
    intro s b L h hu
    by_cases hb : b = 0
    · unfold indfree
      rw [if_pos hb, hb, nodes_zero]
      exact ⟨L, Freed.nil h⟩
    unfold indfree
    rw [nodes, if_neg hb] at hu ⊢
    rw [if_neg hb]
    simp only
    -- the children first, if the block can be read
    have hchildren : ∃ L₁, Freed s (if rd b = true then
          (List.range NBN).reverse.foldl (fun t i =>
            if (s.blocks b).long (4 * i) = 0 then t
            else if l = 0 then t.bfree sortblocks (dp (s.blocks b) i)
            else indfree rd sortblocks l t (dp (s.blocks b) i)) s
        else s) (if rd b = true then
          (List.range NBN).reverse.flatMap fun i => nodes rd s.blocks l (dp (s.blocks b) i)
        else []) L L₁ := by
      by_cases hrd : rd b = true
      swap
      · rw [if_neg hrd, if_neg hrd]
        exact ⟨L, Freed.nil h⟩
      rw [if_pos hrd] at hu
      rw [if_pos hrd, if_pos hrd]
      refine freed_foldl _ h ⟨(List.nodup_append'.mp hu.1).1,
        fun x hx => hu.2 x (List.mem_append_left _ hx)⟩ fun i _ t L' hl hut hblk => ?_
      by_cases h0 : dp (s.blocks b) i = 0
      · rw [if_pos ((long_eq_zero _ i).mpr h0), h0, nodes_zero]
        exact ⟨L', Freed.nil hl⟩
      rw [if_neg (mt (long_eq_zero _ i).mp h0)]
      have hsame := nodes_congr hblk
      by_cases hl0 : l = 0
      · subst hl0
        rw [nodes, if_neg h0] at hut ⊢
        rw [if_pos rfl]
        exact freed_one hl hut
      · rw [if_neg hl0]
        rw [← hsame] at hut ⊢
        exact ih hl hut
    obtain ⟨L₁, hfreed⟩ := hchildren
    obtain ⟨L', hlast⟩ := @freed_one _ _ _ sortblocks hfreed.listed (hfreed.used hu)
    exact ⟨L', hfreed.trans hlast⟩

/-! ### Truncating a file -/

/-- The addresses of an inode at which `itruncate` frees blocks, in its order. -/
def Inode.roots (ip : Inode) : List ℕ :=
  match ip.iMode with
  | .IFPIPE => (List.range ND).reverse
  | .IFDIR | .IFREG => (List.range' ND (NADDR - ND)).reverse ++ (List.range ND).reverse
  | .other => []

/-- The blocks that `itruncate` frees. -/
def fileNodes (rd : ℕ → Bool) (blocks : ℕ → Bytes) (ip : Inode) : List ℕ :=
  ip.roots.flatMap fun n => nodes rd blocks (depth n - 1) (ip.iAddr n)

theorem roots_lt {ip : Inode} {n : ℕ} (h : n ∈ ip.roots) : n < NADDR := by
  unfold Inode.roots at h
  unfold ND NADDR at *
  cases hm : ip.iMode <;> rw [hm] at h <;> simp at h <;> omega

theorem nodup_roots (ip : Inode) : ip.roots.Nodup := by
  unfold Inode.roots
  cases ip.iMode <;> decide

theorem path_root {n : ℕ} (h : n < NADDR) :
    Path [n] ∧ [n].length + (depth n - 1) = depth ([n].headD 0) := by
  have hd : 1 ≤ depth n := by
    unfold depth ND
    split_ifs <;> omega
  exact ⟨⟨⟨by simp, hd⟩, h, by simp⟩, by simp; omega⟩

/-- The blocks that `itruncate` frees are on the paths of the file. -/
theorem path_of_fileNodes (h : x ∈ fileNodes rd blocks (files f)) :
    ∃ p, Path p ∧ look blocks (files f).iAddr p = x ∧ x ≠ 0 := by
  obtain ⟨n, hn, hx⟩ := List.mem_flatMap.mp h
  obtain ⟨hp, hlen⟩ := path_root (roots_lt hn)
  obtain ⟨q, hq, hlook, h0⟩ := @exists_path _ files _ _ f _ _ _ _ hp hlen rfl hx
  exact ⟨[n] ++ q, hq, hlook, h0⟩

theorem nodup_fileNodes (hdist : Distinct blocks files) (f : ι) :
    (fileNodes rd blocks (files f)).Nodup := by
  refine List.nodup_flatMap.mpr ⟨fun n hn => ?_, ?_⟩
  · obtain ⟨hp, hlen⟩ := path_root (roots_lt hn)
    exact nodup_nodes hdist hp hlen rfl
  · refine (nodup_roots _).pairwise_of_forall_ne fun n hn m hm hnm x hxn hxm => hnm ?_
    obtain ⟨hp, hlen⟩ := path_root (roots_lt hn)
    obtain ⟨hp', hlen'⟩ := path_root (roots_lt hm)
    obtain ⟨q, hq, hlq, h0⟩ := @exists_path _ files _ _ f _ _ _ _ hp hlen rfl hxn
    obtain ⟨r, hr, hlr, -⟩ := @exists_path _ files _ _ f _ _ _ _ hp' hlen' rfl hxm
    obtain ⟨-, heq⟩ := hdist f _ f _ hq hr (by rw [hlq]; exact h0) (hlq.trans hlr.symm)
    exact (List.cons.inj heq).1

/-- The blocks on the paths of a file are those that `itruncate` frees, when it can read the
    indirect blocks. -/
theorem mem_fileNodes (hmode : (files f).iMode ≠ .other)
    (hpipe : (files f).iMode = .IFPIPE → ∀ i, ND ≤ i → (files f).iAddr i = 0)
    (hrd : ∀ r, Path r → r.length < depth (r.headD 0) → look blocks (files f).iAddr r ≠ 0 →
      rd (look blocks (files f).iAddr r) = true) :
    x ∈ fileNodes rd blocks (files f) ↔ ∃ p, Path p ∧ look blocks (files f).iAddr p = x ∧
      x ≠ 0 := by
  refine ⟨path_of_fileNodes, ?_⟩
  rintro ⟨p, hp, rfl, h0⟩
  cases p with
  | nil => exact absurd rfl hp.ne_nil
  | cons n q =>
    have hn : n < NADDR := hp.root
    obtain ⟨-, hlen⟩ := path_root hn
    refine List.mem_flatMap.mpr ⟨n, ?_, mem_nodes (p := [n]) (q := q) hp (by simp) hlen hrd h0⟩
    unfold Inode.roots
    cases hm : (files f).iMode with
    | other => exact absurd hm hmode
    | IFPIPE =>
      rw [List.mem_reverse, List.mem_range]
      rcases Nat.lt_or_ge n ND with hlt | hge
      · exact hlt
      · rw [look, hpipe hm n hge, follow_zero] at h0
        exact absurd rfl h0
    | IFREG | IFDIR =>
      simp only [List.mem_append, List.mem_reverse, List.mem_range, List.mem_range'_1]
      unfold ND NADDR at *
      omega

/-- **`itruncate`** frees the blocks of the file. -/
theorem itruncate_spec (h : Laid s files L) (rd : ℕ → Bool) (sortblocks : Bool) (f : ι) :
    ∃ L', Freed s (itruncate rd sortblocks s (files f)).1 (fileNodes rd s.blocks (files f)) L
      L' := by
  have hused : Used s (fileNodes rd s.blocks (files f)) L := by
    refine ⟨nodup_fileNodes h.distinct f, fun x hx => ?_⟩
    obtain ⟨p, hp, rfl, h0⟩ := path_of_fileNodes hx
    exact ⟨h.free f p hp, h.inside f p hp h0⟩
  -- a direct address is one of the lowest level
  have hdirect : ∀ {t : Fs} {L : List ℕ}, Listed t L →
      Used t ((List.range ND).reverse.flatMap fun n => nodes rd s.blocks (depth n - 1)
        ((files f).iAddr n)) L →
      ∃ L', Freed t ((List.range ND).reverse.foldl (fun t n =>
        if (files f).iAddr n ≠ 0 then t.bfree sortblocks ((files f).iAddr n) else t) t)
        ((List.range ND).reverse.flatMap fun n => nodes rd s.blocks (depth n - 1)
          ((files f).iAddr n)) L L' := by
    intro t L hl hu
    refine freed_foldl _ hl hu fun n hn u L' hl' hu' _ => ?_
    rw [List.mem_reverse, List.mem_range] at hn
    have hlevel : depth n - 1 = 0 := by
      unfold depth
      rw [if_pos hn]
    rw [hlevel, nodes] at hu' ⊢
    by_cases h0 : (files f).iAddr n = 0
    · rw [if_pos h0, if_neg (not_not.mpr h0)]
      exact ⟨L', Freed.nil hl'⟩
    · rw [if_neg h0] at hu' ⊢
      rw [if_pos h0]
      exact freed_one hl' hu'
  unfold fileNodes Inode.roots at hused ⊢
  unfold itruncate
  cases hm : (files f).iMode with
  | other => exact ⟨L, Freed.nil h.listed⟩
  | IFPIPE =>
    rw [hm] at hused
    exact hdirect h.listed hused
  | IFREG | IFDIR =>
    rw [hm] at hused
    simp only [List.flatMap_append] at hused ⊢
    have hlow : Used s ((List.range' ND (NADDR - ND)).reverse.flatMap fun n =>
        nodes rd s.blocks (depth n - 1) ((files f).iAddr n)) L :=
      ⟨(List.nodup_append'.mp hused.1).1, fun x hx => hused.2 x (List.mem_append_left _ hx)⟩
    obtain ⟨L₁, hfirst⟩ := @freed_foldl (fun t n => if (files f).iAddr n ≠ 0 then
        indfree rd sortblocks (1 + n - ND) t ((files f).iAddr n) else t) _ _ _ _ h.listed hlow
        fun n hn t L' hl hu hblk => by
      rw [List.mem_reverse, List.mem_range'_1] at hn
      have hlevel : 1 + n - ND = depth n - 1 := by
        unfold depth ND at *
        rw [if_neg (by omega)]
        omega
      by_cases h0 : (files f).iAddr n = 0
      · rw [if_neg (not_not.mpr h0), h0, nodes_zero]
        exact ⟨L', Freed.nil hl⟩
      · rw [if_pos h0, hlevel]
        rw [← nodes_congr hblk] at hu ⊢
        exact indfree_spec rd sortblocks _ hl hu
    obtain ⟨L', hrest⟩ := hdirect hfirst.listed (hfirst.used hused)
    exact ⟨L', hfirst.trans hrest⟩

/-- A path through blocks that are not changed. -/
theorem look_congr (h : ∀ q, Path q → look blocks (files g).iAddr q ≠ 0 →
      blocks' (look blocks (files g).iAddr q) = blocks (look blocks (files g).iAddr q))
        (hp : Path p) :
    look blocks' (files g).iAddr p = look blocks (files g).iAddr p := by
  induction p using List.reverseRecOn with
  | nil => exact absurd rfl hp.ne_nil
  | append_singleton q j ih =>
    by_cases hq : q = []
    · subst hq
      rfl
    have hqp := hp.of_append hq
    rw [look_concat hq, look_concat hq, ih hqp]
    split_ifs with h0
    · rfl
    · rw [h q hqp h0]

theorem look_empty (hp : Path p) : look blocks (fun _ => 0) p = 0 := by
  cases p with
  | nil => rfl
  | cons i q => exact follow_zero blocks q

/-- The file has no blocks any more, and the others keep theirs. -/
theorem Laid.truncate [DecidableEq ι] (h : Laid s files L) {s' : Fs} {L' : List ℕ}
    (hf : Freed s s' F L L')
    (hF : ∀ x ∈ F, ∃ p, Path p ∧ look s.blocks (files f).iAddr p = x ∧ x ≠ 0)
    {ip : Inode} (hip : ip.iAddr = fun _ => 0) :
    Laid s' (Function.update files f ip) L' ∧
    ∀ g k, fileByte s'.blocks (Function.update files f ip g).iAddr k =
      if g = f then 0 else fileByte s.blocks (files g).iAddr k := by
  have hout : ∀ g, g ≠ f → ∀ q, Path q → look s.blocks (files g).iAddr q ≠ 0 →
      look s.blocks (files g).iAddr q ∉ F ++ L := by
    intro g hg q hq h0 hc
    rcases List.mem_append.mp hc with hc | hc
    · obtain ⟨p, hp, heq, -⟩ := hF _ hc
      exact hg (h.distinct g q f p hq hp h0 heq.symm).1
    · exact h.free g q hq hc
  have hlook : ∀ g q, Path q → look s'.blocks (Function.update files f ip g).iAddr q =
      if g = f then 0 else look s.blocks (files g).iAddr q := by
    intro g q hq
    by_cases hg : g = f
    · rw [if_pos hg, hg, Function.update_self, hip, look_empty hq]
    · rw [if_neg hg, Function.update_of_ne hg]
      exact look_congr (fun r hr h0 => hf.blocks _ (hout g hg r hr h0)) hq
  refine ⟨⟨hf.listed, fun g q hq h0 => ?_, fun g q hq hc => ?_, fun g q g' q' hq hq' h0 heq => ?_⟩,
    fun g k => ?_⟩
  · rw [hlook g q hq] at h0 ⊢
    rw [hf.limits.inside]
    by_cases hg : g = f
    · rw [if_pos hg] at h0
      exact absurd rfl h0
    · rw [if_neg hg] at h0 ⊢
      exact h.inside g q hq h0
  · rw [hlook g q hq] at hc
    have h0 := hf.listed.pos hc
    by_cases hg : g = f
    · rw [if_pos hg] at h0
      exact h0 rfl
    · rw [if_neg hg] at h0 hc
      exact hout g hg q hq h0 (hf.perm.subset hc)
  · rw [hlook g q hq] at h0 heq
    rw [hlook g' q' hq'] at heq
    by_cases hg : g = f
    · rw [if_pos hg] at h0
      exact absurd rfl h0
    rw [if_neg hg] at h0 heq
    by_cases hg' : g' = f
    · rw [if_pos hg'] at heq
      exact absurd heq h0
    · rw [if_neg hg'] at heq
      exact h.distinct g q g' q' hq hq' h0 heq
  · unfold fileByte phys
    cases hpath : blockPath (k / BSIZE) with
    | none => simp
    | some q =>
      obtain ⟨hq, -⟩ := lmap_path hpath
      simp only
      rw [hlook g q hq]
      by_cases hg : g = f
      · rw [if_pos hg, if_pos rfl, if_pos hg]
      · rw [if_neg hg, if_neg hg]
        by_cases h0 : look s.blocks (files g).iAddr q = 0
        · rw [if_pos h0, if_pos h0]
        · rw [if_neg h0, if_neg h0, hf.blocks _ (hout g hg q hq h0)]

end CohKernel.Fs
