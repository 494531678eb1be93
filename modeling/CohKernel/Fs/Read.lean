import CohKernel.Fs.Inode

namespace CohKernel.Fs

open CohKernel.Lib

/-!
# Reading a file

`vmap` and `fread` of `fs3.c`.  The parameter `rd` says which blocks can be read.

* `vmap_spec` — `vmap` finds the blocks of the file;
* `fread_spec` — `fread` delivers its bytes.
-/

/-- The tunable parameters. -/
structure Params where
  tSortblocks : Bool
  tGroupmode : Bool
  tReadahead : ℤ

/-- The maximum numbers of blocks that are read in a group, and ahead. -/
def READGROUP : ℕ := 16
def READAHEAD : ℕ := 8

/-! ### Definitions -/

/-- The way down to the table of a block: `none` when a block cannot be read, `some none` when there
    is no indirect block. -/
def descend (rd : ℕ → Bool) (blocks : ℕ → Bytes) : (ℕ → ℕ) → List ℕ → Option (Option (ℕ → ℕ))
  | outlist, [] => some (some outlist)
  | outlist, i :: idx =>
      if outlist i = 0 then some none
      else if rd (outlist i) = true then descend rd blocks (dp (blocks (outlist i))) idx
      else none

/-- An address, `none` for `EMPTY_BLOCK`. -/
def blockEntry (b : ℕ) : Option ℕ := if b = 0 then none else some b

/-- `vmap` for the blocks that are in one table. -/
def vmapPart (rd : ℕ → Bool) (blocks : ℕ → Bytes) (addr : ℕ → ℕ) (blockofs resid : ℕ) :
    Option (List (Option ℕ)) := do
  let (idx, leaf, nblocks) ← lmap blockofs
  let nblocks := if nblocks > resid then resid else nblocks
  match ← descend rd blocks addr idx with
  | none => some (List.replicate nblocks none)
  | some outlist => some ((List.range nblocks).map fun k => blockEntry (outlist (leaf + k)))

/-- `vmap` for `resid` more blocks; in group mode it goes on with the next table. -/
def vmap (groupmode : Bool) (rd : ℕ → Bool) (blocks : ℕ → Bytes) (addr : ℕ → ℕ) :
    ℕ → ℕ → ℕ → Option (List (Option ℕ))
  | 0, _, _ => none
  | fuel + 1, blockofs, resid => do
      let list ← vmapPart rd blocks addr blockofs resid
      if groupmode = true ∧ resid - list.length > 0 then
        let rest ← vmap groupmode rd blocks addr fuel (blockofs + list.length) (resid - list.length)
        some (list ++ rest)
      else some list

/-- The number of blocks that `fread` asks `vmap` for. -/
def groupCount (res doReadahead maxblk lbn : ℕ) : ℕ :=
  let count := (res + BSIZE - 1) / BSIZE + doReadahead
  let count := if count > READGROUP + READAHEAD then READGROUP + READAHEAD else count
  if lbn + count ≥ maxblk then maxblk - lbn else count

/-- The loop of `fread`: the bytes that it delivers, and the last block when it gets to the end.
    `list` has the blocks from `abn` to `zbn - 1`. -/
def freadLoop (t : Params) (rd : ℕ → Bool) (blocks : ℕ → Bytes) (addr : ℕ → ℕ)
    (maxblk doReadahead : ℕ) :
    ℕ → ℕ → ℕ → ℕ → ℕ → ℕ → List (Option ℕ) → List Byte × Option ℕ
  | 0, _, _, _, _, _, _ => ([], none)
  | fuel + 1, lbn, off, res, abn, zbn, list =>
      let mapped :=
        if lbn ≥ zbn then
          let count := groupCount res doReadahead maxblk lbn
          (vmap t.tGroupmode rd blocks addr count lbn count).map fun list =>
            (lbn, lbn + list.length, list)
        else some (abn, zbn, list)
      match mapped with
      | none => ([], none)
      | some (abn, zbn, list) =>
          let count := if res < BSIZE - off then res else BSIZE - off
          let part :=
            match list.getD (lbn - abn) none with
            | none => some (List.replicate count 0)
            | some b =>
                if rd b = true then some ((List.range count).map fun i => blocks b (off + i)) else
                  none
          match part with
          | none => ([], none)
          | some bytes =>
              if res - count > 0 then
                let (more, last) := freadLoop t rd blocks addr maxblk doReadahead fuel (lbn + 1) 0
                  (res - count) abn zbn list
                (bytes ++ more, last)
              else (bytes, some lbn)

/-- `fread` of at most `ioc` bytes from offset `seek` on, of a file that is not a block device.
    Every turn of the loop delivers a byte at least. -/
def fread (t : Params) (rd : ℕ → Bool) (blocks : ℕ → Bytes) (ip : Inode) (seek ioc : ℕ) :
    List Byte × Inode :=
  if seek > ip.iSize then ([], ip)
  else
    let res := if ip.iSize - seek > ioc then ioc else ip.iSize - seek
    if res = 0 then ([], ip)
    else
      let lbn := seek / BSIZE
      let doReadahead := if (lbn : ℤ) = ip.iLastblock + 1 then t.tReadahead.toNat else 0
      let maxblk := (ip.iSize + BSIZE - 1) / BSIZE
      let (bytes, last) := freadLoop t rd blocks ip.iAddr maxblk doReadahead res lbn (seek % BSIZE)
        res 0 0 []
      (bytes, match last with
        | none => ip
        | some lbn => { ip with iLastblock := lbn })

/-! ### Blocks that can be read -/

variable {rd : ℕ → Bool} {blocks : ℕ → Bytes} {addr table : ℕ → ℕ} {lbn : ℕ}

theorem descend_spec (hrd : ∀ b, rd b = true) (idx : List ℕ) :
    match descend rd blocks table idx with
    | none => False
    | some none => ∀ leaf, look blocks table (idx ++ [leaf]) = 0
    | some (some outlist) => ∀ leaf, look blocks table (idx ++ [leaf]) = outlist leaf := by
  induction idx generalizing table with
  | nil => exact fun _ => rfl
  | cons i idx ih =>
    unfold descend
    by_cases h0 : table i = 0
    · rw [if_pos h0]
      intro leaf
      rw [List.cons_append, look, h0, follow_zero]
    · rw [if_neg h0, if_pos (hrd _)]
      have hstep : ∀ leaf, look blocks table (i :: idx ++ [leaf]) =
          look blocks (dp (blocks (table i))) (idx ++ [leaf]) := by
        intro leaf
        cases idx with
        | nil => exact if_neg h0
        | cons j idx => exact if_neg h0
      simp only [hstep]
      exact ih

/-- A list of the blocks of a file from `lbn` on. -/
def Maps (blocks : ℕ → Bytes) (addr : ℕ → ℕ) (lbn : ℕ) (list : List (Option ℕ)) : Prop :=
  ∀ k < list.length, list.getD k none = blockEntry (phys blocks addr (lbn + k))

theorem phys_of_lmap {idx : List ℕ} {leaf nblocks k : ℕ} (h : lmap lbn = some (idx, leaf, nblocks))
    (hk : k < nblocks) : phys blocks addr (lbn + k) = look blocks addr (idx ++ [leaf + k]) := by
  unfold phys blockPath
  rw [lmap_add h hk]
  rfl

theorem lmap_pos {idx : List ℕ} {leaf nblocks : ℕ} (h : lmap lbn = some (idx, leaf, nblocks)) :
    0 < nblocks := by
  rcases lmap_cases lbn with ⟨hlt, hl⟩ | ⟨n, hn, -, hl⟩ | ⟨n₁, n, hn, -, -, hl⟩ |
    ⟨n₂, n₁, n, hn, -, -, -, hl⟩ | ⟨-, hl⟩ <;> rw [hl] at h <;> cases h <;> omega

theorem vmapPart_spec (hrd : ∀ b, rd b = true) {resid : ℕ} (hlbn : lbn < maxBlocks)
    (hresid : 0 < resid) : ∃ list, vmapPart rd blocks addr lbn resid = some list ∧
      0 < list.length ∧ list.length ≤ resid ∧ Maps blocks addr lbn list := by
  obtain ⟨⟨idx, leaf, nblocks⟩, hl⟩ := lmap_isSome hlbn
  have hpos := lmap_pos hl
  have hdesc := @descend_spec _ blocks addr hrd idx
  have hmin : (if nblocks > resid then resid else nblocks) = min nblocks resid := by
    split_ifs <;> omega
  unfold vmapPart
  simp only [hl, Option.bind_eq_bind, Option.bind_some, hmin]
  revert hdesc
  cases descend rd blocks addr idx with
  | none => exact fun h => h.elim
  | some o =>
    cases o with
    | none =>
      intro hhole
      refine ⟨_, rfl, by simp; omega, by simp, fun k hk => ?_⟩
      rw [List.length_replicate] at hk
      rw [phys_of_lmap hl (by omega), hhole]
      simp [hk, blockEntry]
    | some outlist =>
      intro htable
      refine ⟨_, rfl, by simp; omega, by simp, fun k hk => ?_⟩
      rw [List.length_map, List.length_range] at hk
      rw [phys_of_lmap hl (by omega), htable]
      simp [List.getElem?_range hk]

theorem Maps.append {list list' : List (Option ℕ)} (h : Maps blocks addr lbn list)
    (h' : Maps blocks addr (lbn + list.length) list') : Maps blocks addr lbn (list ++ list') := by
  intro k hk
  rcases Nat.lt_or_ge k list.length with hlt | hge
  · rw [List.getD_eq_getElem?_getD, List.getElem?_append_left hlt, ← List.getD_eq_getElem?_getD]
    exact h k hlt
  · rw [List.getD_eq_getElem?_getD, List.getElem?_append_right hge, ← List.getD_eq_getElem?_getD]
    rw [List.length_append] at hk
    rw [h' (k - list.length) (by omega), Nat.add_assoc, Nat.add_sub_cancel' hge]

/-- **`vmap`** finds the blocks of the file, one at least. -/
theorem vmap_spec (hrd : ∀ b, rd b = true) (groupmode : Bool) : ∀ (fuel lbn resid : ℕ),
    resid ≤ fuel → 0 < resid → lbn + resid ≤ maxBlocks →
    ∃ list, vmap groupmode rd blocks addr fuel lbn resid = some list ∧
      0 < list.length ∧ list.length ≤ resid ∧ Maps blocks addr lbn list := by
  intro fuel
  induction fuel with
  | zero => intro lbn resid hfuel hpos; omega
  | succ fuel ih =>
    intro lbn resid hfuel hpos hmax
    obtain ⟨list, hpart, hlen, hle, hmaps⟩ :=
      @vmapPart_spec _ blocks addr _ hrd _ (by omega : lbn < maxBlocks) hpos
    unfold vmap
    rw [hpart, Option.bind_eq_bind, Option.bind_some]
    by_cases hmore : groupmode = true ∧ resid - list.length > 0
    · rw [if_pos hmore]
      obtain ⟨rest, hrest, hlen', hle', hmaps'⟩ :=
        ih (lbn + list.length) (resid - list.length) (by omega) (by omega) (by omega)
      rw [hrest, Option.bind_some]
      exact ⟨_, rfl, by rw [List.length_append]; omega, by rw [List.length_append]; omega,
        hmaps.append hmaps'⟩
    · rw [if_neg hmore]
      exact ⟨list, rfl, hlen, hle, hmaps⟩

/-! ### What is read -/

/-- The bytes of the file from offset `k` on. -/
def bytesFrom (blocks : ℕ → Bytes) (addr : ℕ → ℕ) (k n : ℕ) : List Byte :=
  (List.range n).map fun i => fileByte blocks addr (k + i)

theorem bytesFrom_append (k m n : ℕ) :
    bytesFrom blocks addr k m ++ bytesFrom blocks addr (k + m) n = bytesFrom blocks addr k
      (m + n) := by
  unfold bytesFrom
  rw [List.range_add, List.map_append, List.map_map]
  simp only [Function.comp_def, Nat.add_assoc]

/-- The bytes that are in one block. -/
theorem bytesFrom_block {off n : ℕ} (h : off + n ≤ BSIZE) :
    bytesFrom blocks addr (lbn * BSIZE + off) n =
      match blockEntry (phys blocks addr lbn) with
      | none => List.replicate n 0
      | some b => (List.range n).map fun i => blocks b (off + i) := by
  have hat : ∀ i < n, (lbn * BSIZE + off + i) / BSIZE = lbn ∧
      (lbn * BSIZE + off + i) % BSIZE = off + i := by
    intro i hi
    unfold BSIZE at *
    omega
  unfold bytesFrom blockEntry
  by_cases h0 : phys blocks addr lbn = 0
  · rw [if_pos h0]
    refine List.ext_getElem (by simp) fun i h1 _ => ?_
    rw [List.length_map, List.length_range] at h1
    obtain ⟨hdiv, -⟩ := hat i h1
    simp only [List.getElem_map, List.getElem_range, List.getElem_replicate]
    rw [fileByte, hdiv, if_pos h0]
  · rw [if_neg h0]
    refine List.map_congr_left fun i hi => ?_
    obtain ⟨hdiv, hmod⟩ := hat i (List.mem_range.mp hi)
    rw [fileByte, hdiv, hmod, if_neg h0]

/-- The loop delivers the bytes of the file. -/
theorem freadLoop_spec (hrd : ∀ b, rd b = true) (t : Params) {maxblk doReadahead : ℕ}
    (hmax : maxblk ≤ maxBlocks) : ∀ (fuel lbn off res abn zbn : ℕ) (list : List (Option ℕ)),
    res ≤ fuel → 0 < res → off < BSIZE → lbn * BSIZE + off + res ≤ maxblk * BSIZE →
    abn ≤ lbn → zbn = abn + list.length → Maps blocks addr abn list →
    (freadLoop t rd blocks addr maxblk doReadahead fuel lbn off res abn zbn list).1 =
      bytesFrom blocks addr (lbn * BSIZE + off) res := by
  intro fuel
  induction fuel with
  | zero => intro lbn off res abn zbn list hfuel hres; omega
  | succ fuel ih =>
    intro lbn off res abn zbn list hfuel hres hoff hend habn hzbn hmaps
    -- `list` has the block, perhaps after a call of `vmap`
    have hmapped : ∃ abn' list', (if lbn ≥ zbn then
          let count := groupCount res doReadahead maxblk lbn
          (vmap t.tGroupmode rd blocks addr count lbn count).map fun list =>
            (lbn, lbn + list.length, list)
        else some (abn, zbn, list)) = some (abn', abn' + list'.length, list') ∧ abn' ≤ lbn ∧
        lbn < abn' + list'.length ∧ Maps blocks addr abn' list' := by
      by_cases hge : lbn ≥ zbn
      · have hlt : lbn < maxblk := by
          unfold BSIZE at *
          omega
        have hcount : 0 < groupCount res doReadahead maxblk lbn ∧
            lbn + groupCount res doReadahead maxblk lbn ≤ maxblk := by
          unfold groupCount BSIZE READGROUP READAHEAD
          simp only
          split_ifs <;> omega
        obtain ⟨list', hvmap, hlen, -, hmaps'⟩ := @vmap_spec _ blocks addr hrd
          t.tGroupmode _ lbn _ le_rfl hcount.1 (by omega)
        rw [if_pos hge]
        simp only [hvmap, Option.map_some]
        exact ⟨lbn, list', rfl, le_rfl, by omega, hmaps'⟩
      · rw [if_neg hge]
        exact ⟨abn, list, by rw [hzbn], habn, by omega, hmaps⟩
    obtain ⟨abn', list', heq, habn', hlt, hmaps'⟩ := hmapped
    unfold freadLoop
    rw [heq]
    simp only
    have hentry := hmaps' (lbn - abn') (by omega)
    rw [Nat.add_sub_cancel' habn'] at hentry
    rw [hentry]
    have hcount : (if res < BSIZE - off then res else BSIZE - off) = min res (BSIZE - off) := by
      split_ifs <;> omega
    rw [hcount]
    have hpart := @bytesFrom_block blocks addr lbn _ _
      (by omega : off + min res (BSIZE - off) ≤ BSIZE)
    have hbytes : (match blockEntry (phys blocks addr lbn) with
        | none => some (List.replicate (min res (BSIZE - off)) (0 : Byte))
        | some b => if rd b = true then
            some ((List.range (min res (BSIZE - off))).map fun i => blocks b (off + i)) else none) =
        some (bytesFrom blocks addr (lbn * BSIZE + off) (min res (BSIZE - off))) := by
      rw [hpart]
      cases blockEntry (phys blocks addr lbn) with
      | none => rfl
      | some b => exact if_pos (hrd b)
    rw [hbytes]
    simp only
    by_cases hmore : res - min res (BSIZE - off) > 0
    · rw [if_pos hmore]
      simp only
      have hnext : (lbn + 1) * BSIZE + 0 = lbn * BSIZE + off + min res (BSIZE - off) := by
        unfold BSIZE at *
        omega
      rw [ih (lbn + 1) 0 _ abn' _ list' (by omega) hmore (by norm_num [BSIZE]) (by omega) (by omega)
        rfl hmaps', hnext, bytesFrom_append]
      exact congrArg (bytesFrom blocks addr _) (by omega)
    · rw [if_neg hmore]
      exact congrArg (bytesFrom blocks addr _) (by omega)

/-- **`fread`** delivers the bytes of the file up to its end. -/
theorem fread_spec (hrd : ∀ b, rd b = true) (t : Params) {ip : Inode}
    (hsize : ip.iSize ≤ maxBlocks * BSIZE) (seek ioc : ℕ) :
    (fread t rd blocks ip seek ioc).1 =
      bytesFrom blocks ip.iAddr seek (min ioc (ip.iSize - seek)) := by
  unfold fread
  by_cases hpast : seek > ip.iSize
  · rw [if_pos hpast, show ip.iSize - seek = 0 by omega, Nat.min_zero]
    rfl
  rw [if_neg hpast]
  have hres : (if ip.iSize - seek > ioc then ioc else ip.iSize - seek) =
      min ioc (ip.iSize - seek) := by
    split_ifs <;> omega
  simp only [hres]
  by_cases h0 : min ioc (ip.iSize - seek) = 0
  · rw [if_pos h0, h0]
    rfl
  rw [if_neg h0]
  have hdiv : seek / BSIZE * BSIZE + seek % BSIZE = seek := Nat.div_add_mod' seek BSIZE
  have hloop := @freadLoop_spec _ blocks ip.iAddr hrd t ((ip.iSize + BSIZE - 1) / BSIZE)
    (if ((seek / BSIZE : ℕ) : ℤ) = ip.iLastblock + 1 then t.tReadahead.toNat else 0)
    (by unfold BSIZE at *; omega)
    (min ioc (ip.iSize - seek)) (seek / BSIZE) (seek % BSIZE) (min ioc (ip.iSize - seek)) 0 0 []
    le_rfl (by omega) (Nat.mod_lt _ (by norm_num [BSIZE])) (by unfold BSIZE at *; omega)
    (Nat.zero_le _) rfl (fun k hk => by simp at hk)
  rw [hdiv] at hloop
  exact hloop

end CohKernel.Fs
