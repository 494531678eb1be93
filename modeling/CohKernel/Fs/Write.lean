import CohKernel.Fs.Layout
import CohKernel.Fs.Read

namespace CohKernel.Fs

open CohKernel.Lib

/-!
# Writing a file

`aread` and `fwrite` of `fs3.c`.

* `aread_spec` — `aread` gets the block of the file, also where there was a hole, and keeps the
  contents of all files;
* `fwrite_spec` — `fwrite` changes the bytes that it writes, and no others.
-/

/-! ### Definitions -/

/-- The loop of `aread` from the block `block` on.  `aflag` says that the block is new, `listp` has
    the indices that are left. -/
def areadLoop (rd : ℕ → Bool) (claim : Bool) (s : Fs) (aflag : Bool) (block : ℕ)
    (listp : List ℕ) : Option ℕ × Fs :=
  let lflag := listp.isEmpty
  if (aflag || (claim && lflag)) = false ∧ rd block = false then (none, s)
  else
    let s := if aflag && !(claim && lflag) then s.setBlock block fun _ => 0 else s
    match listp with
    | [] => (some block, s)
    | l :: listp =>
        let b := dp (s.blocks block) l
        if b = 0 then
          let (b, s) := s.balloc (rd (s.super.sFree 0))
          if b = 0 then (none, s)
          else
            -- the block has just been in a buffer: it can be read again
            let s := s.setBlock block ((s.blocks block).setLong (4 * l) (rol16 b))
            areadLoop rd claim s true b listp
        else areadLoop rd claim s false b listp

/-- `aread`.  With `claim` the caller is going to overwrite the block. -/
def aread (rd : ℕ → Bool) (s : Fs) (ip : Inode) (blkofs : ℕ) (claim : Bool) :
    Option ℕ × Fs × Inode :=
  match blockPath blkofs with
  | none | some [] => (none, s, ip)
  | some (l :: listp) =>
      if ip.iAddr l = 0 then
        let (b, s) := s.balloc (rd (s.super.sFree 0))
        if b = 0 then (none, s, ip)
        else
          let (bp, s) := areadLoop rd claim s true b listp
          (bp, s, { ip with iAddr := Function.update ip.iAddr l b })
      else
        let (bp, s) := areadLoop rd claim s false (ip.iAddr l) listp
        (bp, s, ip)

/-- Store bytes in a block. -/
def ioread (blk : Bytes) (off : ℕ) (data : List Byte) : Bytes :=
  fun i => if off ≤ i ∧ i < off + data.length then data.getD (i - off) 0 else blk i

/-- The loop of `fwrite`, with the bytes that are left; the result has the new offset. -/
def fwriteLoop (rd : ℕ → Bool) :
    ℕ → Fs → Inode → ℕ → ℕ → ℕ → List Byte → Fs × Inode × ℕ
  | 0, s, ip, _, _, seek, _ => (s, ip, seek)
  | fuel + 1, s, ip, lbn, off, seek, data =>
      if data.length > 0 then
        let n := if data.length < BSIZE - off then data.length else BSIZE - off
        let com := decide (off = 0 ∧ n = BSIZE)
        match aread rd s ip lbn com with
        | (none, s, ip) => (s, ip, seek)
        | (some bp, s, ip) =>
            let s := s.setBlock bp (ioread (s.blocks bp) off (data.take n))
            let seek := seek + n
            let ip := if seek > ip.iSize then { ip with iSize := seek } else ip
            fwriteLoop rd fuel s ip (lbn + 1) 0 seek (data.drop n)
      else (s, ip, seek)

/-- `fwrite` to a file that is not a block device.  Every turn of the loop writes a byte at least.
    -/
def fwrite (rd : ℕ → Bool) (s : Fs) (ip : Inode) (seek : ℕ) (data : List Byte) : Fs × Inode × ℕ :=
  fwriteLoop rd data.length s ip (seek / BSIZE) (seek % BSIZE) seek data

/-! ### The block of a file -/

variable {ι : Type*} [DecidableEq ι] {files files' : ι → Inode} {rd : ℕ → Bool} {s s' t : Fs}
  {f g : ι} {p : List ℕ} {b block l : ℕ} {L L' : List ℕ} {claim aflag : Bool} {bp : Option ℕ}

/-- Another free list. -/
theorem Laid.withList (h : Laid s files L) (hl : Listed s' L') (hsub : ∀ x ∈ L', x ∈ L)
    (hblk : s'.blocks = s.blocks) (hlim : SameLimits s s') : Laid s' files L' := by
  refine ⟨hl, fun f p hp h0 => ?_, fun f p hp => ?_, ?_⟩
  · rw [hlim.inside]
    rw [hblk] at h0 ⊢
    exact h.inside f p hp h0
  · rw [hblk]
    exact fun hc => h.free f p hp (hsub _ hc)
  · rw [hblk]
    exact h.distinct

omit [DecidableEq ι] in
theorem Laid.congr (h : Laid s files L) (heq : ∀ f, (files' f).iAddr = (files f).iAddr) :
    Laid s files' L := by
  refine ⟨h.listed, fun f p hp => ?_, fun f p hp => ?_, fun f p g q hp hq => ?_⟩
  · rw [heq f]
    exact h.inside f p hp
  · rw [heq f]
    exact h.free f p hp
  · rw [heq f, heq g]
    exact h.distinct f p g q hp hq

/-- What `balloc` can do, when the files are laid out. -/
theorem Laid.balloc (h : Laid s files L) (readable : Bool) :
    (∃ b L', L = b :: L' ∧ (s.balloc readable).1 = b ∧ b ≠ 0 ∧ Listed (s.balloc readable).2 L' ∧
      (s.balloc readable).2.blocks = s.blocks ∧ SameLimits s (s.balloc readable).2) ∨
    (s.balloc readable).1 = 0 ∧ Laid (s.balloc readable).2 files [] ∧
      (s.balloc readable).2.blocks = s.blocks ∧ SameLimits s (s.balloc readable).2 := by
  have hnone : ∀ x ∈ ([] : List ℕ), x ∈ L := fun x hx => by cases hx
  have hballoc := h.listed.balloc readable
  revert hballoc
  generalize s.balloc readable = r
  intro hballoc
  cases hballoc with
  | given b L' s' hL hl _ hblk hlim =>
    exact Or.inl ⟨b, L', hL, rfl, h.listed.pos (hL ▸ List.mem_cons_self), hl, hblk, hlim⟩
  | full s' hL hl _ hblk hlim => exact Or.inr ⟨rfl, h.withList hl hnone hblk hlim, hblk, hlim⟩
  | lost s' _ _ _ hl _ hblk hlim => exact Or.inr ⟨rfl, h.withList hl hnone hblk hlim, hblk, hlim⟩

/-- What `aread` leaves: the files are laid out, the block that it has found is at the path `p` of
    the file `f`, and no byte has changed, but in a block that the caller overwrites. -/
structure Aread (rd : ℕ → Bool) (claim : Bool) (s s' : Fs) (files files' : ι → Inode) (f : ι)
    (p : List ℕ) (bp : Option ℕ) (L' : List ℕ) : Prop where
  laid : Laid s' files' L'
  limits : SameLimits s s'
  bytes : ∀ g k, (g = f → blockPath (k / BSIZE) = some p → bp = none ∨ claim = false) →
    fileByte s'.blocks (files' g).iAddr k = fileByte s.blocks (files g).iAddr k
  found : ∀ b, bp = some b → b ≠ 0 ∧ look s'.blocks (files' f).iAddr p = b
  failed : bp = none → (∃ b, rd b = false) ∨ L' = []

omit [DecidableEq ι] in
/-- A step that changes no byte comes first. -/
theorem Aread.of_step (h : Aread rd claim t s' files files' f p bp L') {files₀ : ι → Inode}
    (hlim : SameLimits s t)
    (hbytes : ∀ g k, (g = f → blockPath (k / BSIZE) = some p → bp = none ∨ claim = false) →
      fileByte t.blocks (files g).iAddr k = fileByte s.blocks (files₀ g).iAddr k) :
    Aread rd claim s s' files₀ files' f p bp L' :=
  ⟨h.laid, hlim.trans h.limits, fun g k hk => (h.bytes g k hk).trans (hbytes g k hk), h.found,
    h.failed⟩

/-- The state in which a turn of the loop goes on with a block. -/
def Fs.prepared (s : Fs) (claim aflag : Bool) (block : ℕ) (listp : List ℕ) : Fs :=
  if aflag && !(claim && listp.isEmpty) then s.setBlock block fun _ => 0 else s

/-- A new block: it has been cleared, or it is the last one and is going to be overwritten. -/
theorem prepared_new (s : Fs) (claim : Bool) (b : ℕ) (listp : List ℕ) :
    ∃ blk, s.prepared claim true b listp = s.setBlock b blk ∧
      ((blk = fun _ => 0) ∨ listp = [] ∧ claim = true) := by
  unfold Fs.prepared
  by_cases hclear : (true && !(claim && listp.isEmpty)) = true
  · rw [if_pos hclear]
    exact ⟨_, rfl, Or.inl rfl⟩
  · rw [if_neg hclear]
    refine ⟨s.blocks b, ?_, Or.inr ?_⟩
    · unfold Fs.setBlock
      rw [Function.update_eq_self]
    · simpa [and_comm] using hclear

/-- The last turn on a new block finds it. -/
theorem areadLoop_last (s : Fs) (b : ℕ) : (areadLoop rd claim s true b []).1 = some b := by
  unfold areadLoop
  simp

/-- **The loop of `aread`** follows the path, and attaches new blocks where it breaks off. -/
theorem areadLoop_spec (listp : List ℕ) : ∀ {s : Fs} {aflag : Bool} {block : ℕ} {p L : List ℕ},
    Laid (s.prepared claim aflag block listp) files L → p ≠ [] → Path (p ++ listp) →
    (p ++ listp).length = depth (p.headD 0) →
    look (s.prepared claim aflag block listp).blocks (files f).iAddr p = block → block ≠ 0 →
    ∃ L', Aread rd claim (s.prepared claim aflag block listp)
      (areadLoop rd claim s aflag block listp).2 files files f (p ++ listp)
      (areadLoop rd claim s aflag block listp).1 L' := by
  induction listp with
  | nil =>
    intro s aflag block p L h hp hpath hlen hlook h0
    rw [List.append_nil]
    unfold areadLoop
    by_cases hfail : (aflag || (claim && ([] : List ℕ).isEmpty)) = false ∧ rd block = false
    · have hkeep : s.prepared claim aflag block [] = s := by
        unfold Fs.prepared
        rw [(Bool.or_eq_false_iff.mp hfail.1).1]
        rfl
      rw [if_pos hfail]
      rw [hkeep] at h ⊢
      exact ⟨L, h, SameLimits.refl s, fun _ _ _ => rfl, fun b hb => (by cases hb),
        fun _ => Or.inl ⟨block, hfail.2⟩⟩
    · rw [if_neg hfail]
      refine ⟨L, h, SameLimits.refl _, fun _ _ _ => rfl, fun b hb => ?_, fun hc => (by cases hc)⟩
      cases hb
      exact ⟨h0, hlook⟩
  | cons l listp ih =>
    intro s aflag block p L h hp hpath hlen hlook h0
    have hsplit : p ++ l :: listp = (p ++ [l]) ++ listp := by simp
    unfold areadLoop
    by_cases hfail : (aflag || (claim && (l :: listp).isEmpty)) = false ∧ rd block = false
    · have hkeep : s.prepared claim aflag block (l :: listp) = s := by
        unfold Fs.prepared
        rw [(Bool.or_eq_false_iff.mp hfail.1).1]
        rfl
      rw [if_pos hfail]
      rw [hkeep] at h ⊢
      exact ⟨L, h, SameLimits.refl s, fun _ _ _ => rfl, fun b hb => (by cases hb),
        fun _ => Or.inl ⟨block, hfail.2⟩⟩
    rw [if_neg hfail]
    change ∃ L', Aread rd claim (s.prepared claim aflag block (l :: listp)) _ files files f _ _ L'
    simp only
    rw [show (if (aflag && !(claim && (l :: listp).isEmpty)) = true then
      s.setBlock block fun _ => 0 else s) = s.prepared claim aflag block (l :: listp) from rfl]
    generalize s.prepared claim aflag block (l :: listp) = t at h hlook
    have hpl : Path (p ++ [l]) := by
      rw [hsplit] at hpath
      exact hpath.of_append (by simp)
    have hhead : (p ++ [l]).headD 0 = p.headD 0 := headD_append hp _
    have hnext : look t.blocks (files f).iAddr (p ++ [l]) = dp (t.blocks block) l := by
      rw [look_concat hp, hlook, if_neg h0]
    rw [hsplit] at hpath hlen ⊢
    by_cases hb0 : dp (t.blocks block) l = 0
    · rw [if_pos hb0]
      rcases h.balloc (rd (t.super.sFree 0)) with ⟨b, L₁, rfl, hfst, hbne, hl, hblk, hlim⟩ |
        ⟨hfst, hlaid, hblk, hlim⟩
      · -- the new block is attached, and cleared in the next turn
        simp only [hfst, hbne, if_false]
        obtain ⟨blk, hprep, hnew⟩ := prepared_new
            ((t.balloc (rd (t.super.sFree 0))).2.setBlock block
          (((t.balloc (rd (t.super.sFree 0))).2.blocks block).setLong (4 * l) (rol16 b)))
          claim b listp
        have hatt : Attached t.blocks ((((t.balloc (rd (t.super.sFree 0))).2.setBlock block
            (((t.balloc (rd (t.super.sFree 0))).2.blocks block).setLong (4 * l) (rol16 b))).setBlock
              b
            blk).blocks) files files f (p ++ [l]) b := by
          have hbin := h.listed.inside b List.mem_cons_self
          have := @attached_child _ _ _ _ _ b _ blk _ h.distinct hpl hp (by rw [hlook]; exact h0)
            (fun g q hq hc => h.free g q hq (hc ▸ List.mem_cons_self)) hbne
            (by have := t.super.sFsize_lt; have := hbin.2; omega) (by rw [hlook]; exact hb0)
            (fun hlt j => by
              rcases hnew with rfl | ⟨rfl, -⟩
              · exact dp_clear j
              · rw [List.append_nil, List.length_append, List.length_singleton] at hlen
                omega)
          rw [hlook] at this
          rw [setBlock_blocks, setBlock_blocks, hblk]
          exact this
        have hnodup := List.nodup_cons.mp h.listed.nodup
        have hblock : block ∉ L₁ := fun hc =>
          h.free f p (hpl.of_append hp) (by rw [hlook]; exact List.mem_cons_of_mem b hc)
        have hlaid := h.attach ((hl.setBlock hblock _).setBlock hnodup.1 blk)
          ((hlim.setBlock _ _).setBlock _ _) hatt
        rw [← hprep] at hlaid hatt
        obtain ⟨L', hrest⟩ := ih hlaid (by simp) hpath (by rw [hlen, hhead]) hatt.here hbne
        refine ⟨L', hrest.of_step (by rw [hprep]; exact (hlim.setBlock _ _).setBlock _ _)
          fun g k hk => hatt.fileByte (by rw [hnext]; exact hb0) fun hg hpk => ?_⟩
        rcases hnew with rfl | ⟨rfl, rfl⟩
        · rw [hprep, setBlock_blocks, Function.update_self]
        · rcases hk hg (by rw [List.append_nil]; exact hpk) with hc | hc
          · rw [areadLoop_last] at hc
            cases hc
          · cases hc
      · simp only [hfst, if_true]
        refine ⟨[], hlaid, hlim, fun _ _ _ => by rw [hblk], fun b hb => (by cases hb),
          fun _ => Or.inr rfl⟩
    · rw [if_neg hb0]
      have hkeep : t.prepared claim false (dp (t.blocks block) l) listp = t := rfl
      have := @ih t false (dp (t.blocks block) l) (p ++ [l]) L
      rw [hkeep] at this
      exact this h (by simp) hpath (by rw [hlen, hhead]) hnext hb0

/-- `aread` changes no more of the inode than an address. -/
theorem aread_inode {ip : Inode} {lbn : ℕ} (h : blockPath lbn = some p) :
    ∃ addr, (aread rd s ip lbn claim).2.2 = { ip with iAddr := addr } ∧
      ∀ i, i ≠ p.headD 0 → addr i = ip.iAddr i := by
  unfold aread
  rw [h]
  cases p with
  | nil => exact ⟨ip.iAddr, rfl, fun _ _ => rfl⟩
  | cons l listp =>
    simp only
    split_ifs
    · exact ⟨ip.iAddr, rfl, fun _ _ => rfl⟩
    · exact ⟨_, rfl, fun i hi => Function.update_of_ne hi _ _⟩
    · exact ⟨ip.iAddr, rfl, fun _ _ => rfl⟩

/-- **`aread`** gets the block of the file, and changes no byte. -/
theorem aread_spec (h : Laid s files L) {lbn : ℕ} (hp : blockPath lbn = some p) :
    ∃ L', Aread rd claim s (aread rd s (files f) lbn claim).2.1 files
      (Function.update files f (aread rd s (files f) lbn claim).2.2) f p
      (aread rd s (files f) lbn claim).1 L' := by
  obtain ⟨hpath, hlen⟩ := lmap_path hp
  unfold aread
  rw [hp]
  cases p with
  | nil => exact absurd rfl hpath.ne_nil
  | cons l listp =>
    simp only
    have hroot : look s.blocks (files f).iAddr [l] = (files f).iAddr l := rfl
    by_cases hl0 : (files f).iAddr l = 0
    · rw [if_pos hl0]
      rcases h.balloc (rd (s.super.sFree 0)) with ⟨b, L₁, rfl, hfst, hbne, hl, hblk, hlim⟩ |
        ⟨hfst, hlaid, hblk, hlim⟩
      · simp only [hfst, hbne, if_false]
        obtain ⟨blk, hprep, hnew⟩ := prepared_new (s.balloc (rd (s.super.sFree 0))).2 claim b listp
        have hatt := @attached_root _ files s.blocks f b l blk _
          (fun g q hq hc => h.free g q hq (hc ▸ List.mem_cons_self)) hbne hl0 fun hlt j => by
            rcases hnew with rfl | ⟨rfl, -⟩
            · exact dp_clear j
            · rw [List.headD_cons, List.length_singleton] at hlen
              omega
        have hblocks : ((s.balloc (rd (s.super.sFree 0))).2.prepared claim true b listp).blocks =
            Function.update s.blocks b blk := by
          rw [hprep, setBlock_blocks, hblk]
        rw [← hblocks] at hatt
        have hnodup := List.nodup_cons.mp h.listed.nodup
        have hlaid := @Laid.attach _ _ _ _
          ((s.balloc (rd (s.super.sFree 0))).2.prepared claim true b listp) _ _ _ _ h (by rw [hprep]; exact hl.setBlock hnodup.1 blk) (by rw [hprep]; exact hlim.setBlock b blk)
          hatt
        obtain ⟨L', hrest⟩ := areadLoop_spec listp hlaid (List.cons_ne_nil l []) hpath hlen
            hatt.here
          hbne
        refine ⟨L', hrest.of_step (by rw [hprep]; exact hlim.setBlock b blk)
          fun g k hk => hatt.fileByte (hroot.trans hl0) fun hg hpk => ?_⟩
        rw [hblocks, Function.update_self]
        rcases hnew with rfl | ⟨rfl, rfl⟩
        · rfl
        · rcases hk hg hpk with hc | hc
          · rw [areadLoop_last] at hc
            cases hc
          · cases hc
      · simp only [hfst, if_true, Function.update_eq_self]
        exact ⟨[], hlaid, hlim, fun _ _ _ => by rw [hblk], fun b hb => (by cases hb),
          fun _ => Or.inr rfl⟩
    · rw [if_neg hl0]
      simp only [Function.update_eq_self]
      have hloop := @areadLoop_spec _ _ _ rd f claim listp s false _ [l] _ h
          (List.cons_ne_nil l []) hpath hlen hroot hl0
      exact hloop

/-! ### The bytes that are written -/

/-- The contents of a block of the file `f` are replaced. -/
theorem Laid.store (h : Laid s files L) {lbn : ℕ} (hp : blockPath lbn = some p)
    (hb : look s.blocks (files f).iAddr p = b) (h0 : b ≠ 0) (blk : Bytes) :
    Laid (s.setBlock b blk) files L ∧ ∀ g k, fileByte (s.setBlock b blk).blocks (files g).iAddr k =
      if g = f ∧ k / BSIZE = lbn then blk (k % BSIZE) else fileByte s.blocks (files g).iAddr k := by
  obtain ⟨hpath, hlen⟩ := lmap_path hp
  have hlook : ∀ g q, Path q →
      look (s.setBlock b blk).blocks (files g).iAddr q = look s.blocks (files g).iAddr q := by
    intro g q hq
    refine look_setBlock (fun q j hqj hnil hc => ?_) hq
    have hq' := hqj.of_append hnil
    obtain ⟨-, rfl⟩ := h.distinct g q f p hq' hpath (by rw [hc]; exact h0) (hc.trans hb.symm)
    exact absurd hlen (hqj.length_lt hnil).ne
  have hnot : b ∉ L := hb ▸ h.free f p hpath
  refine ⟨⟨h.listed.setBlock hnot blk, fun g q hq h0 => ?_, fun g q hq => ?_,
    fun g q g' q' hq hq' h0 heq => ?_⟩, fun g k => ?_⟩
  · rw [hlook g q hq] at h0 ⊢
    exact h.inside g q hq h0
  · rw [hlook g q hq]
    exact h.free g q hq
  · rw [hlook g q hq] at h0 heq
    rw [hlook g' q' hq'] at heq
    exact h.distinct g q g' q' hq hq' h0 heq
  · unfold fileByte phys
    cases hq : blockPath (k / BSIZE) with
    | none =>
      have hother : ¬(g = f ∧ k / BSIZE = lbn) := by
        rintro ⟨-, hc⟩
        rw [hc, hp] at hq
        cases hq
      rw [if_neg hother]
      rfl
    | some q =>
      obtain ⟨hqpath, -⟩ := lmap_path hq
      simp only
      rw [hlook g q hqpath]
      by_cases hsame : g = f ∧ k / BSIZE = lbn
      · obtain ⟨rfl, rfl⟩ := hsame
        obtain rfl : p = q := Option.some.inj (hp.symm.trans hq)
        rw [hb, if_neg h0, if_pos (show g = g ∧ k / BSIZE = k / BSIZE from ⟨rfl, rfl⟩),
          setBlock_blocks, Function.update_self]
      · rw [if_neg hsame]
        by_cases hz : look s.blocks (files g).iAddr q = 0
        · rw [if_pos hz, if_pos hz]
        · have hne : look s.blocks (files g).iAddr q ≠ b := by
            intro hc
            obtain ⟨rfl, rfl⟩ := h.distinct g q f p hqpath hpath hz (hc.trans hb.symm)
            exact hsame ⟨rfl, lmap_inj hq hp⟩
          rw [if_neg hz, if_neg hz, setBlock_blocks, Function.update_of_ne hne]

/-- What `fwrite` leaves when it has written to the file `f` from offset `seek` to `seek'`. -/
structure Written (rd : ℕ → Bool) (s s' : Fs) (files files' : ι → Inode) (f : ι) (seek seek' : ℕ)
    (data : List Byte) (L' : List ℕ) : Prop where
  laid : Laid s' files' L'
  limits : SameLimits s s'
  le : seek ≤ seek' ∧ seek' ≤ seek + data.length
  bytes : ∀ g k, fileByte s'.blocks (files' g).iAddr k =
    if g = f ∧ seek ≤ k ∧ k < seek' then data.getD (k - seek) 0
    else fileByte s.blocks (files g).iAddr k
  full : seek' = seek + data.length ∨ (∃ b, rd b = false) ∨ L' = [] ∨
    maxBlocks * BSIZE < seek + data.length
  below : seek' = seek ∨ seek' ≤ maxBlocks * BSIZE
  size : (files' f).iSize = if seek' = seek then (files f).iSize else max (files f).iSize seek'
  mode : (files' f).iMode = (files f).iMode
  direct : seek + data.length ≤ ND * BSIZE → ∀ i, ND ≤ i → (files' f).iAddr i = (files f).iAddr i

theorem getD_take_append {data : List Byte} {n k : ℕ} (hk : k < n) (d : Byte) :
    (data.take n).getD k d = data.getD k d := by
  rw [List.getD_eq_getElem?_getD, List.getElem?_take_of_lt hk, ← List.getD_eq_getElem?_getD]

theorem getD_drop {data : List Byte} (n k : ℕ) (d : Byte) :
    (data.drop n).getD k d = data.getD (n + k) d := by
  rw [List.getD_eq_getElem?_getD, List.getElem?_drop, ← List.getD_eq_getElem?_getD]

/-- A block below the direct limit hangs off a direct address. -/
theorem blockPath_direct {lbn : ℕ} (h : blockPath lbn = some p) (hlt : lbn < ND) :
    p.headD 0 < ND := by
  unfold blockPath at h
  rw [lmap_direct hlt] at h
  cases h
  exact hlt

/-- One turn of the loop of `fwrite` that gets the block. -/
theorem fwrite_turn {lbn off n : ℕ} {data : List Byte} (hp : blockPath lbn = some p)
    (ha : Aread rd (decide (off = 0 ∧ n = BSIZE)) s t files files' f p (some b) L)
    (hoff : off + n ≤ BSIZE) (hn : n ≤ data.length) (hpos : 0 < n) :
    Laid (t.setBlock b (ioread (t.blocks b) off (data.take n))) files' L ∧
    ∀ g k, fileByte (t.setBlock b (ioread (t.blocks b) off (data.take n))).blocks
      (files' g).iAddr k =
      if g = f ∧ lbn * BSIZE + off ≤ k ∧ k < lbn * BSIZE + off + n then
        data.getD (k - (lbn * BSIZE + off)) 0
      else fileByte s.blocks (files g).iAddr k := by
  obtain ⟨hb0, hlook⟩ := ha.found b rfl
  obtain ⟨hlaid, hbytes⟩ := ha.laid.store hp hlook hb0 (ioread (t.blocks b) off (data.take n))
  refine ⟨hlaid, fun g k => ?_⟩
  have hlen : (data.take n).length = n := by rw [List.length_take]; omega
  rw [hbytes g k]
  by_cases hin : g = f ∧ k / BSIZE = lbn
  · rw [if_pos hin]
    obtain ⟨rfl, rfl⟩ := hin
    have hdiv := Nat.div_add_mod' k BSIZE
    unfold ioread
    rw [hlen]
    by_cases hwr : off ≤ k % BSIZE ∧ k % BSIZE < off + n
    · rw [if_pos hwr, if_pos (show g = g ∧ _ from ⟨rfl, by omega, by omega⟩),
        getD_take_append (by omega)]
      exact congrArg (data.getD · 0) (by omega)
    · -- the block has been read, since it is not going to be overwritten
      have hpart : decide (off = 0 ∧ n = BSIZE) = false := by
        refine decide_eq_false fun hc => hwr ⟨by omega, ?_⟩
        have := Nat.mod_lt k (show 0 < BSIZE by norm_num [BSIZE])
        omega
      have hsame := ha.bytes g k fun _ _ => Or.inr hpart
      rw [if_neg hwr, if_neg (show ¬(g = g ∧ _) from fun hc => hwr ⟨by omega, by omega⟩), ← hsame]
      unfold fileByte phys
      rw [hp]
      simp only
      rw [hlook, if_neg hb0]
  · rw [if_neg hin, ha.bytes g k]
    · rw [if_neg]
      rintro ⟨rfl, hlo, hhi⟩
      refine hin ⟨rfl, ?_⟩
      unfold BSIZE at *
      omega
    · exact fun hg hpk => absurd ⟨hg, lmap_inj hpk hp⟩ hin

/-- **The loop of `fwrite`** writes the bytes, but for those for which it gets no block. -/
theorem fwriteLoop_spec : ∀ (fuel : ℕ) {s : Fs} {files : ι → Inode} {lbn off seek : ℕ}
    {data : List Byte} {L : List ℕ}, data.length ≤ fuel → Laid s files L →
    (0 < data.length → seek = lbn * BSIZE + off) → off < BSIZE →
    ∃ L', Written rd s (fwriteLoop rd fuel s (files f) lbn off seek data).1 files
      (Function.update files f (fwriteLoop rd fuel s (files f) lbn off seek data).2.1) f seek
      (fwriteLoop rd fuel s (files f) lbn off seek data).2.2 data L' := by
  intro fuel
  induction fuel with
  | zero =>
    intro s files lbn off seek data L hfuel h _ _
    have hnil : data.length = 0 := by omega
    unfold fwriteLoop
    simp only [Function.update_eq_self]
    exact ⟨L, h, SameLimits.refl s, by omega, fun g k => by rw [if_neg (by omega)],
      Or.inl (by omega),
      Or.inl rfl, (if_pos rfl).symm, rfl, fun _ _ _ => rfl⟩
  | succ fuel ih =>
    intro s files lbn off seek data L hfuel h hseek hoff
    unfold fwriteLoop
    by_cases hdata : data.length > 0
    swap
    · rw [if_neg hdata]
      simp only [Function.update_eq_self]
      exact ⟨L, h, SameLimits.refl s, by omega, fun g k => by rw [if_neg (by omega)],
        Or.inl (by omega), Or.inl rfl, (if_pos rfl).symm, rfl, fun _ _ _ => rfl⟩
    rw [if_pos hdata]
    have hseek := hseek hdata
    by_cases hlbn : lbn < maxBlocks
    swap
    · -- the file cannot get larger
      have hnone : blockPath lbn = none := by
        unfold blockPath
        rw [lmap_none (not_lt.mp hlbn)]
        rfl
      unfold aread
      simp only [hnone, Function.update_eq_self]
      have hbig : maxBlocks * BSIZE ≤ lbn * BSIZE := Nat.mul_le_mul_right BSIZE (not_lt.mp hlbn)
      exact ⟨L, h, SameLimits.refl s, by omega, fun g k => by rw [if_neg (by omega)],
        Or.inr (Or.inr (Or.inr (by omega))), Or.inl rfl, (if_pos rfl).symm, rfl, fun _ _ _ => rfl⟩
    obtain ⟨p, hp⟩ : ∃ p, blockPath lbn = some p := by
      obtain ⟨r, hr⟩ := lmap_isSome hlbn
      exact ⟨_, by unfold blockPath; rw [hr]; rfl⟩
    have hmin : (if data.length < BSIZE - off then data.length else BSIZE - off) =
        min data.length (BSIZE - off) := by
      split_ifs <;> omega
    simp only [hmin]
    generalize hn : min data.length (BSIZE - off) = n
    have hpos : 0 < n := by omega
    obtain ⟨L₁, ha⟩ := @aread_spec _ _ _ rd _ f _ _ (decide (off = 0 ∧ n = BSIZE)) h _ hp
    obtain ⟨addr, hinode, haddr⟩ := @aread_inode rd s _
      (decide (off = 0 ∧ n = BSIZE)) (files f) _ hp
    revert ha hinode
    generalize aread rd s (files f) lbn (decide (off = 0 ∧ n = BSIZE)) = r
    obtain ⟨bp, t, ip⟩ := r
    intro ha hinode
    simp only at ha hinode
    subst hinode
    have hkeep : seek + data.length ≤ ND * BSIZE → ∀ i, ND ≤ i → addr i = (files f).iAddr i := by
      intro hle i hi
      refine haddr i ?_
      have := blockPath_direct hp (by unfold BSIZE at *; omega)
      omega
    cases bp with
    | none =>
      simp only
      refine ⟨L₁, ha.laid, ha.limits, by omega, fun g k => ?_,
        Or.inr ((ha.failed rfl).imp_right Or.inl), Or.inl rfl, ?_, ?_, ?_⟩
      · rw [if_neg (by omega)]
        exact ha.bytes g k fun _ _ => Or.inl rfl
      · rw [Function.update_self, if_pos rfl]
      · rw [Function.update_self]
      · rw [Function.update_self]
        exact hkeep
    | some b =>
      simp only
      obtain ⟨hlaid, hbytes⟩ := fwrite_turn hp ha (by omega) (by omega : n ≤ data.length) hpos
      rw [← hseek] at hbytes
      generalize ht' : t.setBlock b (ioread (t.blocks b) off (data.take n)) = t' at hlaid hbytes
      generalize hip : (if seek + n > (files f).iSize then
        { files f with iAddr := addr, iSize := seek + n } else { files f with iAddr := addr }) = ip
      have hsize : ip.iSize = max (files f).iSize (seek + n) := by
        rw [← hip]
        split_ifs with hgt
        · exact (max_eq_right hgt.le).symm
        · exact (max_eq_left (not_lt.mp hgt)).symm
      have hmode : ip.iMode = (files f).iMode := by
        rw [← hip]
        split_ifs <;> rfl
      have hiaddr : ip.iAddr = addr := by
        rw [← hip]
        split_ifs <;> rfl
      have hsame : ∀ g, (Function.update files f ip g).iAddr =
          (Function.update files f { files f with iAddr := addr } g).iAddr := by
        intro g
        by_cases hg : g = f
        · subst hg
          rw [Function.update_self, Function.update_self, hiaddr]
        · rw [Function.update_of_ne hg, Function.update_of_ne hg]
      have hdrop : (data.drop n).length = data.length - n := List.length_drop
      obtain ⟨L', hrest⟩ := @ih t' (Function.update files f ip) (lbn + 1) 0 (seek + n)
          (data.drop n) L₁
        (by omega) (hlaid.congr hsame)
        (fun hmore => by
          -- a turn that is not the last one goes to the end of the block
          rw [Nat.succ_mul]
          omega)
        (by norm_num [BSIZE])
      rw [Function.update_self, Function.update_idem] at hrest
      generalize fwriteLoop rd fuel t' ip (lbn + 1) 0 (seek + n) (data.drop n) = r at hrest ⊢
      obtain ⟨s', ip', seek'⟩ := r
      simp only at hrest ⊢
      have hlim : SameLimits s t' := by
        rw [← ht']
        exact ha.limits.setBlock b _
      have hle := hrest.le
      refine ⟨L', hrest.laid, hlim.trans hrest.limits, by omega, fun g k => ?_, ?_, ?_, ?_, ?_, ?_⟩
      · rw [hrest.bytes g k, hsame g, hbytes g k, getD_drop]
        by_cases hlater : g = f ∧ seek + n ≤ k ∧ k < seek'
        · rw [if_pos hlater, if_pos ⟨hlater.1, by omega, hlater.2.2⟩]
          exact congrArg (data.getD · 0) (by omega)
        · rw [if_neg hlater]
          by_cases hnow : g = f ∧ seek ≤ k ∧ k < seek + n
          · rw [if_pos hnow, if_pos ⟨hnow.1, hnow.2.1, by omega⟩]
          · rw [if_neg hnow, if_neg]
            rintro ⟨hg, hlo, hhi⟩
            rcases Nat.lt_or_ge k (seek + n) with hlt | hge
            · exact hnow ⟨hg, hlo, hlt⟩
            · exact hlater ⟨hg, hge, hhi⟩
      · rcases hrest.full with hall | hnot
        · exact Or.inl (by rw [hall, hdrop]; omega)
        · exact Or.inr (by rwa [show seek + n + (data.drop n).length = seek + data.length by omega]
            at hnot)
      · right
        rcases hrest.below with hlast | hbelow
        · have hend : (lbn + 1) * BSIZE ≤ maxBlocks * BSIZE := Nat.mul_le_mul_right BSIZE hlbn
          rw [Nat.succ_mul] at hend
          omega
        · exact hbelow
      · rw [hrest.size, Function.update_self, hsize]
        split_ifs <;> omega
      · rw [hrest.mode, Function.update_self, hmode]
      · intro hle i hi
        rw [hrest.direct (by omega) i hi, Function.update_self, hiaddr]
        exact hkeep hle i hi

/-- **`fwrite`** writes the bytes, and changes no other byte of any file. -/
theorem fwrite_spec (h : Laid s files L) (f : ι) (seek : ℕ) (data : List Byte) :
    ∃ L', Written rd s (fwrite rd s (files f) seek data).1 files
      (Function.update files f (fwrite rd s (files f) seek data).2.1) f seek
      (fwrite rd s (files f) seek data).2.2 data L' :=
  fwriteLoop_spec data.length le_rfl h (fun _ => (Nat.div_add_mod' seek BSIZE).symm)
    (Nat.mod_lt _ (by norm_num [BSIZE]))

end CohKernel.Fs
