import CohKernel.Exec.Open

namespace CohKernel.Exec

open CohKernel.Lib

/-!
# Passing control to a new program

`pexece` of `exec.c`, as far as it takes and gives back: the nodes of the sections and the inode
that `exlopen` leaves, the segments, and those of the old program.  When it fails after the old
segments have been given back it goes to `pexit`, which gives back what is in the table of the
process.

* `pexece_clean_iff` — a failure gives back what the call has taken, once, just when there are no
  nodes before the old segments are gone, and the new ones get into the table after that;
* `stack_lost` — the stack is lost when there is no memory for the text.
-/

/-! ### Definitions -/

/-- What is taken and given back.  `sIp` is the reference to the inode that a text segment has for
    itself, and that goes with it; `old` is a segment that the process has had before. -/
inductive Res where
  | node (i : ℕ)
  | inode
  | sIp
  | text
  | data
  | stack
  | old (k : Sidx)
deriving DecidableEq

/-- What `pexece` finds: the file, and what each of its calls returns.  `text` is none when there is
    no memory, and says else whether the segment is shared with another process. -/
structure Env where
  kalloc : ℕ → Bool
  ftoi : Bool
  file : Bool
  vread : Option Bytes
  stack : Bool
  text : Option Bool
  readText : Bool
  readNode : ℕ → Bool
  data : Bool
  readData : Bool
  sproto : Bool
  cred : Bool

/-- The process, and what the call has taken and given back. -/
structure Call where
  pSegl : Sidx → Option Res
  shm : Bool
  exited : Bool
  xlist : List Xecseg
  acquired : List Res
  released : List Res

namespace Call

def acquire (s : Call) (r : Res) : Call := { s with acquired := r :: s.acquired }

def release (s : Call) (r : Res) : Call := { s with released := r :: s.released }

/-- `sfree` of a segment of the call, or of the process. -/
def sfree (s : Call) (r : Res) : Call :=
  let s := s.release r
  if r = .text ∧ .sIp ∈ s.acquired then s.release .sIp else s

/-- A segment in the table is let go. -/
def drop (s : Call) (k : Sidx) : Call :=
  match s.pSegl k with
  | none => s
  | some r => { s with pSegl := Function.update s.pSegl k none }.sfree r

/-- The nodes of `xlist`. -/
def nodes (s : Call) : List Res := (List.range s.xlist.length).map .node

/-- The nodes are deallocated. -/
def kfreeNodes (s : Call) : Call := { s with xlist := [], released := s.nodes ++ s.released }

/-- `shmAllDt`, and the release of the segments of the old program. -/
def commit (s : Call) : Call :=
  (({ s with shm := false }.drop .SISTEXT).drop .SIPDATA).drop .SISTACK

/-- `pexit`, which frees all segments in reverse order. -/
def pexit (s : Call) : Call :=
  { ((s.drop .SISTACK).drop .SIPDATA).drop .SISTEXT with shm := false, exited := true }

/-- `goto out` -/
def out (s : Call) : Call :=
  let s := s.kfreeNodes
  let s := s.release .inode
  ((s.drop .SISTEXT).drop .SIPDATA).pexit

end Call

/-- `xecrnd` -/
def Xecseg.rnd (x : Xecseg) : Xecseg :=
  let diff := x.fbase % NBPC
  ⟨(x.mbase + (2 ^ 32 - diff)) % 2 ^ 32, (x.size + diff) % 2 ^ 32, x.fbase - diff⟩

/-- `textSize`: the highest address in a section of text. -/
def textSize (head : Xechdr) (xlist : List Xecseg) : ℕ :=
  let text := (head.segs .SISTEXT).rnd
  xlist.foldl (fun size x => max size ((x.size + x.mbase) % 2 ^ 32))
    ((text.size + text.mbase) % 2 ^ 32)

/-- The segments of a 286 program are allocated and read. -/
def Env.load286 (e : Env) (s : Call) : Bool × Call :=
  if e.text = none then (false, s)
  else
    let s := s.acquire .text
    if e.readText = false then (false, s)
    else if e.data = false then (false, s)
    else
      let s := s.acquire .data
      if e.readData = false then (false, s) else (true, s)

/-- The segments of a COFF program are allocated and read. -/
def Env.load386 (e : Env) (head : Xechdr) (s : Call) : Bool × Call :=
  if head.entry ≥ textSize head s.xlist then (false, s)
  else
    match e.text with
    | none => (false, s)
    | some shared =>
        let s := s.acquire .text
        if shared = false ∧ (e.readText = false ∨ ∃ i < s.xlist.length, e.readNode i = false) then
          (false, s)
        else
          let s := if shared = false then s.acquire .sIp else s
          if e.data = false then (false, s)
          else
            let s := s.acquire .data
            if e.readData = false then (false, s) else (true, s.kfreeNodes)

/-- The switch over the format. -/
def Env.load (e : Env) (head : Xechdr) (s : Call) : Bool × Call :=
  if head.magic = XMAGIC I286MAGIC I_MAGIC then e.load286 s
  else if head.magic = XMAGIC I386MAGIC Z_MAGIC then e.load386 head s
  else (false, s)

/-- The loaded segments are put in the table. -/
def Call.store (s : Call) : Call :=
  { s with
    pSegl := Function.update (Function.update (Function.update s.pSegl .SISTACK (some .stack))
      .SISTEXT (some .text)) .SIPDATA (some .data) }

/-- What `exlopen` has found in the file. -/
def Env.opened (e : Env) : Bool × Loading := exlopen e.kalloc e.ftoi e.file e.vread

/-- The segments that a process has before the call. -/
def oldSegs (had : Sidx → Bool) (k : Sidx) : Option Res := if had k then some (.old k) else none

/-- The call when `exlopen` has returned. -/
def Env.called (e : Env) (had : Sidx → Bool) : Call where
  pSegl := oldSegs had
  shm := true
  exited := false
  xlist := e.opened.2.xlist
  acquired := (List.range e.opened.2.xlist.length).map .node ++ if e.ftoi then [.inode] else []
  released := List.replicate e.opened.2.idetached .inode

/-- `pexece` of a process with these segments: whether it gets to the new program. -/
def Env.pexece (e : Env) (had : Sidx → Bool) : Bool × Call :=
  let s := e.called had
  if e.opened.1 = false then (false, s)
  else if e.stack = false then (false, s.release .inode)
  else
    let s := (s.acquire .stack).commit
    match e.load e.opened.2.xhp s with
    | (false, s) => (false, s.out)
    | (true, s) =>
        let s := s.store
        if e.sproto = false then (false, s.out)
        else if e.cred = false then (false, s.out)
        else (true, s.release .inode)

/-! ### What is to hold -/

/-- What a failure is to leave. -/
structure Clean (had : Sidx → Bool) (s : Call) : Prop where
  /-- What the call has taken it has given back, once, and nothing else of what it may take. -/
  once : s.acquired.Nodup
  balanced : ∀ r, (∀ k, r ≠ .old k) → s.released.count r = s.acquired.count r
  /-- The process goes on with its segments and its shared memory. -/
  goesOn : s.exited = false → s.pSegl = oldSegs had ∧ s.shm = true ∧ ∀ k, .old k ∉ s.released
  /-- The process has ended, and each of its segments has been given back once. -/
  ended : s.exited = true → ∀ k ≠ Sidx.SIBSS, s.released.count (.old k) = if had k then 1 else 0

/-- The new segments are allocated and read, and the entry point is in the text. -/
def Env.Loads (e : Env) : Prop :=
  e.text ≠ none ∧ e.data = true ∧ e.readData = true ∧
    if e.opened.2.xhp.magic = XMAGIC I286MAGIC I_MAGIC then e.readText = true
    else e.opened.2.xhp.magic = XMAGIC I386MAGIC Z_MAGIC ∧
      e.opened.2.xhp.entry < textSize e.opened.2.xhp e.opened.2.xlist ∧
      (e.text = some false →
        e.readText = true ∧ ∀ i < e.opened.2.xlist.length, e.readNode i = true)

/-- What `pexece` is to find: no nodes when it fails while the old segments are there, and the new
    ones once they are not. -/
def Env.Recovers (e : Env) : Prop :=
  (e.opened.1 = false ∨ e.stack = false → e.opened.2.xlist = []) ∧
    (e.opened.1 = true → e.stack = true → e.Loads)

/-! ### The file -/

variable {e : Env} {had : Sidx → Bool} {s t : Call} {l l' : Loading} {b : Bytes}

theorem section_idetached {kalloc : Bool} {h : Scnhdr} (hs : l.section kalloc h = some l') :
    l'.idetached = l.idetached := by
  unfold Loading.section at hs
  cases hstyp : h.styp with
  | info =>
    rw [hstyp] at hs
    cases hs
    rfl
  | unknown =>
    rw [hstyp] at hs
    cases hs
  | is k =>
    rw [hstyp] at hs
    simp only at hs
    split_ifs at hs <;> cases hs <;> rfl

theorem sections_idetached (kalloc : ℕ → Bool) (b : Bytes) (n i : ℕ) (l : Loading) :
    (Loading.sections kalloc b n i l).2.idetached = l.idetached := by
  induction n generalizing i l with
  | zero => rfl
  | succ n ih =>
    unfold Loading.sections
    simp only
    cases hs : (l.memcpy (hdrsize + Scnhdr.sizeof * i) Scnhdr.sizeof).section (kalloc i)
        (scnhdr b i) with
    | none => rfl
    | some l' =>
      simp only
      rw [ih, section_idetached hs]
      rfl

/-- The inode is given back just when the file is rejected. -/
def Loading.Detaches (l : Loading) (r : Bool × Loading) : Prop :=
  r.2.idetached = if r.1 = true then l.idetached else l.idetached + 1

theorem bad_detaches (l : Loading) : l.Detaches l.bad := rfl

theorem lout_detaches (l : Loading) (b : Bytes) : l.Detaches (l.lout b) := by
  unfold Loading.lout
  by_cases hmach : (ldheader b).lMachine ≠ M_8086
  · rw [if_pos hmach]
    exact bad_detaches l
  rw [if_neg hmach]
  by_cases hflag : (ldheader b).lFlag &&& 2 = 0 ∨ (ldheader b).lFlag &&& 8 ≠ 0 ∨
      (ldheader b).lSsize 1 ≠ 0 ∨ (ldheader b).lSsize 2 ≠ 0
  · rw [if_pos hflag]
    exact bad_detaches l
  · rw [if_neg hflag]
    rfl

theorem coff_detaches (l : Loading) (kalloc : ℕ → Bool) (b : Bytes) :
    l.Detaches (l.coff kalloc b) := by
  unfold Loading.coff
  by_cases hfile : (filehdr b).fOpthdr ≠ Aouthdr.sizeof ∨ (filehdr b).fFlags &&& 2 = 0 ∨
      (filehdr b).fNscns * Scnhdr.sizeof > BSIZE
  · rw [if_pos hfile]
    exact bad_detaches l
  rw [if_neg hfile]
  by_cases hz : (aouthdr b Filehdr.sizeof).magic ≠ Z_MAGIC
  · rw [if_pos hz]
    exact bad_detaches l
  rw [if_neg hz]
  simp only
  -- the loop does not touch the inode
  generalize hstart : ({ (l.memcpy 0 Filehdr.sizeof).memcpy Filehdr.sizeof Aouthdr.sizeof with
    xhp := _ } : Loading) = start
  have hwalk := sections_idetached kalloc b (filehdr b).fNscns 0 start
  have hsame : start.idetached = l.idetached := by
    rw [← hstart]
    rfl
  rw [hsame] at hwalk
  generalize Loading.sections kalloc b (filehdr b).fNscns 0 start = r at hwalk ⊢
  obtain ⟨ok, t⟩ := r
  have hbad : l.Detaches t.bad := congrArg (· + 1) hwalk
  cases ok with
  | false => exact hbad
  | true =>
    by_cases hempty : (t.xhp.segs .SISTEXT).size = 0 ∨ (t.xhp.segs .SIPDATA).size = 0
    · simp only [if_pos hempty]
      exact hbad
    · simp only [if_neg hempty]
      exact hwalk

/-- `exlopen` gives the inode back just when it fails. -/
theorem Env.opened_idetached (e : Env) :
    e.opened.2.idetached = if e.opened.1 = true ∨ e.ftoi = false then 0 else 1 := by
  unfold Env.opened exlopen
  cases e.ftoi with
  | false => rfl
  | true =>
    cases e.file with
    | false => rfl
    | true =>
      cases e.vread with
      | none => rfl
      | some b =>
        simp only [Bool.true_eq_false, if_false, or_false]
        have hlout := lout_detaches (Loading.start.memcpy 0 2) b
        have hcoff := coff_detaches (Loading.start.memcpy 0 2) e.kalloc b
        by_cases hl : b.word 0 = L_MAGIC
        · rw [if_pos hl]
          exact hlout
        rw [if_neg hl]
        by_cases hc : b.word 0 = I386MAGIC
        · rw [if_pos hc]
          exact hcoff
        · rw [if_neg hc]
          rfl

theorem Env.ftoi_of_opened (h : e.opened.1 = true) : e.ftoi = true := by
  by_contra hc
  rw [Bool.not_eq_true] at hc
  unfold Env.opened exlopen at h
  rw [if_pos hc] at h
  cases h

/-! ### Giving back -/

/-- The segments of the old program. -/
def oldReleased (had : Sidx → Bool) : List Res :=
  (oldSegs had .SISTACK).toList ++ ((oldSegs had .SIPDATA).toList ++ (oldSegs had .SISTEXT).toList)

theorem drop_none {k : Sidx} (h : s.pSegl k = none) : s.drop k = s := by
  unfold Call.drop
  rw [h]

/-- A segment in the table is given back, and the text with its reference. -/
theorem drop_some {k : Sidx} {r : Res} (h : s.pSegl k = some r) :
    s.drop k =
      { s with
        pSegl := Function.update s.pSegl k none
        released := (if r = .text ∧ .sIp ∈ s.acquired then [Res.sIp] else []) ++
          r :: s.released } := by
  unfold Call.drop
  rw [h]
  unfold Call.sfree
  simp only
  by_cases htext : r = .text ∧ .sIp ∈ s.acquired
  · rw [if_pos htext]
    exact if_pos htext
  · rw [if_neg htext]
    exact if_neg htext

/-- A place in the table that is as it was before the call. -/
theorem drop_old {k : Sidx} (h : s.pSegl k = oldSegs had k) :
    s.drop k =
      { s with
        pSegl := Function.update s.pSegl k none
        released := (oldSegs had k).toList ++ s.released } := by
  unfold Call.drop
  rw [h]
  unfold oldSegs at h ⊢
  cases hk : had k with
  | false =>
    rw [hk] at h
    have hsame : Function.update s.pSegl k none = s.pSegl :=
      Function.update_eq_self_iff.mpr h.symm
    simp only [Bool.false_eq_true, if_false, Option.toList_none, List.nil_append, hsame]
  | true =>
    simp only [if_true]
    unfold Call.sfree
    rw [if_neg (by rintro ⟨hc, -⟩; cases hc)]
    rfl

/-- The old segments are given back. -/
theorem commit_eq (h : s.pSegl = oldSegs had) :
    s.commit =
      { s with
        shm := false
        pSegl := fun k => if k = .SIBSS then oldSegs had k else none
        released := oldReleased had ++ s.released } := by
  obtain ⟨pSegl, shm, exited, xlist, acquired, released⟩ := s
  obtain rfl : pSegl = oldSegs had := h
  unfold Call.commit oldReleased
  rw [@drop_old had _ .SISTEXT, @drop_old had _ .SIPDATA, @drop_old had _ .SISTACK]
  · congr 1
    · ext k : 1
      cases k <;> rfl
    · simp only [List.append_assoc]
  · rfl
  · rfl
  · rfl

/-! ### The new segments -/

/-- What is left when the new segments are not there: some of them, and nothing is given back. -/
structure Stuck (s t : Call) : Prop where
  pSegl : t.pSegl = s.pSegl
  released : t.released = s.released
  xlist : t.xlist = s.xlist
  acquired : ∃ l, t.acquired = l ++ s.acquired

theorem Stuck.refl (s : Call) : Stuck s s := ⟨rfl, rfl, rfl, [], rfl⟩

theorem Stuck.acquire (h : Stuck s t) (r : Res) : Stuck s (t.acquire r) := by
  obtain ⟨l, hl⟩ := h.acquired
  exact ⟨h.pSegl, h.released, h.xlist, r :: l, congrArg (r :: ·) hl⟩

/-- What is left when they are there, with the nodes or without them. -/
structure Got (s t : Call) : Prop where
  pSegl : t.pSegl = s.pSegl
  exited : t.exited = s.exited
  nodes : t.nodes ++ t.released = s.nodes ++ s.released
  acquired : t.acquired = [.data, .text] ++ s.acquired ∨
    t.acquired = [.data, .sIp, .text] ++ s.acquired

variable {head : Xechdr}

theorem load286_spec (e : Env) (s : Call) :
    (e.load286 s).1 = true ∧ Got s (e.load286 s).2 ∧
        (e.text ≠ none ∧ e.data = true ∧ e.readData = true ∧ e.readText = true) ∨
      (e.load286 s).1 = false ∧ Stuck s (e.load286 s).2 ∧
        ¬(e.text ≠ none ∧ e.data = true ∧ e.readData = true ∧ e.readText = true) := by
  unfold Env.load286
  have htext := (Stuck.refl s).acquire .text
  by_cases hroom : e.text = none
  · rw [if_pos hroom]
    exact Or.inr ⟨rfl, Stuck.refl s, fun hc => hc.1 hroom⟩
  rw [if_neg hroom]
  simp only
  by_cases hread : e.readText = false
  · rw [if_pos hread]
    exact Or.inr ⟨rfl, htext, fun hc => Bool.false_ne_true (hread.symm.trans hc.2.2.2)⟩
  rw [if_neg hread]
  by_cases hdata : e.data = false
  · rw [if_pos hdata]
    exact Or.inr ⟨rfl, htext, fun hc => Bool.false_ne_true (hdata.symm.trans hc.2.1)⟩
  rw [if_neg hdata]
  by_cases hrdata : e.readData = false
  · rw [if_pos hrdata]
    exact Or.inr ⟨rfl, htext.acquire .data,
      fun hc => Bool.false_ne_true (hrdata.symm.trans hc.2.2.1)⟩
  · rw [if_neg hrdata]
    exact Or.inl ⟨rfl, ⟨rfl, rfl, rfl, Or.inl rfl⟩, hroom, Bool.eq_true_of_not_eq_false hdata,
      Bool.eq_true_of_not_eq_false hrdata, Bool.eq_true_of_not_eq_false hread⟩

theorem load386_spec (e : Env) (head : Xechdr) (s : Call) :
    (e.load386 head s).1 = true ∧ Got s (e.load386 head s).2 ∧
        (e.text ≠ none ∧ e.data = true ∧ e.readData = true ∧
          head.entry < textSize head s.xlist ∧ (e.text = some false →
            e.readText = true ∧ ∀ i < s.xlist.length, e.readNode i = true)) ∨
      (e.load386 head s).1 = false ∧ Stuck s (e.load386 head s).2 ∧
        ¬(e.text ≠ none ∧ e.data = true ∧ e.readData = true ∧
          head.entry < textSize head s.xlist ∧ (e.text = some false →
            e.readText = true ∧ ∀ i < s.xlist.length, e.readNode i = true)) := by
  unfold Env.load386
  by_cases hentry : head.entry ≥ textSize head s.xlist
  · rw [if_pos hentry]
    exact Or.inr ⟨rfl, Stuck.refl s, fun hc => absurd hc.2.2.2.1 (not_lt.mpr hentry)⟩
  rw [if_neg hentry]
  cases htext : e.text with
  | none => exact Or.inr ⟨rfl, Stuck.refl s, fun hc => hc.1 rfl⟩
  | some shared =>
    have hstuck := (Stuck.refl s).acquire .text
    simp only
    by_cases hread : shared = false ∧
        (e.readText = false ∨ ∃ i < (s.acquire .text).xlist.length, e.readNode i = false)
    · rw [if_pos hread]
      refine Or.inr ⟨rfl, hstuck, fun hc => ?_⟩
      obtain ⟨hmain, hnodes⟩ := hc.2.2.2.2 (congrArg some hread.1)
      rcases hread.2 with hbad | ⟨i, hi, hbad⟩
      · exact Bool.false_ne_true (hbad.symm.trans hmain)
      · exact Bool.false_ne_true (hbad.symm.trans (hnodes i hi))
    rw [if_neg hread]
    have hreads : some shared = some false →
        e.readText = true ∧ ∀ i < s.xlist.length, e.readNode i = true := by
      intro hfresh
      rw [Option.some.injEq] at hfresh
      refine ⟨Bool.eq_true_of_not_eq_false fun hc => hread ⟨hfresh, Or.inl hc⟩, fun i hi => ?_⟩
      exact Bool.eq_true_of_not_eq_false fun hc => hread ⟨hfresh, Or.inr ⟨i, hi, hc⟩⟩
    -- the segment has its reference, or it has been there before
    obtain ⟨t, ht, hgot, hstuck'⟩ : ∃ t, (if shared = false then (s.acquire .text).acquire .sIp
        else s.acquire .text) = t ∧ Got s (t.acquire .data).kfreeNodes ∧ Stuck s t := by
      cases shared with
      | false =>
        refine ⟨_, rfl, ⟨rfl, rfl, rfl, Or.inr rfl⟩, hstuck.acquire .sIp⟩
      | true => exact ⟨_, rfl, ⟨rfl, rfl, rfl, Or.inl rfl⟩, hstuck⟩
    rw [ht]
    by_cases hdata : e.data = false
    · rw [if_pos hdata]
      exact Or.inr ⟨rfl, hstuck', fun hc => Bool.false_ne_true (hdata.symm.trans hc.2.1)⟩
    rw [if_neg hdata]
    by_cases hrdata : e.readData = false
    · rw [if_pos hrdata]
      exact Or.inr ⟨rfl, hstuck'.acquire .data,
        fun hc => Bool.false_ne_true (hrdata.symm.trans hc.2.2.1)⟩
    · rw [if_neg hrdata]
      exact Or.inl ⟨rfl, hgot, Option.some_ne_none _, Bool.eq_true_of_not_eq_false hdata,
        Bool.eq_true_of_not_eq_false hrdata, not_le.mp hentry, hreads⟩

/-- The segments are loaded just when it is said so. -/
theorem load_spec (hlist : s.xlist = e.opened.2.xlist) :
    (e.load e.opened.2.xhp s).1 = true ∧ Got s (e.load e.opened.2.xhp s).2 ∧ e.Loads ∨
      (e.load e.opened.2.xhp s).1 = false ∧ Stuck s (e.load e.opened.2.xhp s).2 ∧ ¬e.Loads := by
  unfold Env.load Env.Loads
  by_cases h286 : e.opened.2.xhp.magic = XMAGIC I286MAGIC I_MAGIC
  · simp only [if_pos h286]
    exact load286_spec e s
  simp only [if_neg h286]
  by_cases h386 : e.opened.2.xhp.magic = XMAGIC I386MAGIC Z_MAGIC
  · rw [if_pos h386, ← hlist]
    rcases load386_spec e e.opened.2.xhp s with ⟨hok, hgot, hl⟩ | ⟨hbad, hstuck, hl⟩
    · exact Or.inl ⟨hok, hgot, hl.1, hl.2.1, hl.2.2.1, h386, hl.2.2.2⟩
    · exact Or.inr ⟨hbad, hstuck, fun hc => hl ⟨hc.1, hc.2.1, hc.2.2.1, hc.2.2.2.2⟩⟩
  · rw [if_neg h386]
    exact Or.inr ⟨rfl, Stuck.refl s, fun hc => h386 hc.2.2.2.1⟩

/-! ### A failure -/

/-- What the call has when the old segments are gone: the stack, and what `exlopen` has left. -/
theorem committed (e : Env) (had : Sidx → Bool) (hok : e.opened.1 = true) :
    (((e.called had).acquire .stack).commit).pSegl =
        (fun k => if k = .SIBSS then oldSegs had k else none) ∧
      (((e.called had).acquire .stack).commit).released = oldReleased had ∧
      (((e.called had).acquire .stack).commit).acquired =
        .stack :: ((List.range e.opened.2.xlist.length).map .node ++ [.inode]) ∧
      (((e.called had).acquire .stack).commit).xlist = e.opened.2.xlist := by
  have hinode : e.opened.2.idetached = 0 := by
    rw [e.opened_idetached, if_pos (Or.inl hok)]
  rw [@commit_eq had _ rfl]
  refine ⟨rfl, ?_, ?_, rfl⟩
  · show oldReleased had ++ List.replicate e.opened.2.idetached Res.inode = _
    rw [hinode]
    exact List.append_nil _
  · show Res.stack :: (_ ++ if e.ftoi = true then [Res.inode] else []) = _
    rw [if_pos (Env.ftoi_of_opened hok)]

/-- `goto out` before the new segments are in the table. -/
theorem out_released (h : ∀ k ≠ Sidx.SIBSS, s.pSegl k = none) :
    s.out.released = .inode :: (s.nodes ++ s.released) ∧ s.out.acquired = s.acquired ∧
      s.out.exited = true := by
  have htext : (s.kfreeNodes.release .inode).pSegl .SISTEXT = none := h _ (by decide)
  have hdata : (s.kfreeNodes.release .inode).pSegl .SIPDATA = none := h _ (by decide)
  have hstack : (s.kfreeNodes.release .inode).pSegl .SISTACK = none := h _ (by decide)
  unfold Call.out
  simp only
  rw [drop_none htext, drop_none hdata]
  unfold Call.pexit
  rw [drop_none hstack, drop_none hdata, drop_none htext]
  exact ⟨rfl, rfl, rfl⟩

/-- `goto out` with the new segments in the table. -/
theorem out_store_released (s : Call) :
    s.store.out.released =
        .stack :: .data :: ((if .sIp ∈ s.acquired then [Res.sIp] else []) ++
          .text :: .inode :: (s.nodes ++ s.released)) ∧
      s.store.out.acquired = s.acquired ∧ s.store.out.exited = true := by
  unfold Call.out
  simp only
  rw [@drop_some (s.store.kfreeNodes.release .inode) .SISTEXT .text rfl]
  rw [@drop_some _ .SIPDATA .data]
  · unfold Call.pexit
    rw [@drop_some _ .SISTACK .stack]
    · rw [@drop_none _ .SIPDATA]
      · rw [@drop_none _ .SISTEXT]
        · refine ⟨?_, rfl, rfl⟩
          simp only [reduceCtorEq, false_and, if_false, List.nil_append, true_and]
          rfl
        · rfl
      · rfl
    · rfl
  · rfl

/-- The nodes of `n` sections. -/
def nodeList (n : ℕ) : List Res := (List.range n).map .node

theorem mem_nodeList {n : ℕ} {r : Res} : r ∈ nodeList n ↔ ∃ i < n, Res.node i = r := by
  unfold nodeList
  simp only [List.mem_map, List.mem_range]

theorem nodup_nodeList (n : ℕ) : (nodeList n).Nodup :=
  List.Nodup.map (fun i j hij => by injection hij) List.nodup_range

theorem count_oldSegs (k : Sidx) (r : Res) :
    (oldSegs had k).toList.count r = if r = .old k ∧ had k = true then 1 else 0 := by
  unfold oldSegs
  cases had k with
  | false => simp
  | true =>
    simp only [if_true, Option.toList_some, and_true, List.count_singleton, beq_iff_eq]
    simp only [eq_comm]

/-- Each old segment is given back once. -/
theorem count_oldReleased {k : Sidx} (h : k ≠ .SIBSS) :
    (oldReleased had).count (.old k) = if had k then 1 else 0 := by
  unfold oldReleased
  simp only [List.count_append, count_oldSegs, Res.old.injEq]
  cases k with
  | SIBSS => exact absurd rfl h
  | SISTEXT => simp
  | SIPDATA => simp
  | SISTACK => simp

theorem count_oldReleased_of_ne {r : Res} (h : ∀ k, r ≠ .old k) :
    (oldReleased had).count r = 0 := by
  unfold oldReleased
  simp only [List.count_append, count_oldSegs, h, false_and, if_false]

/-- A failure in front of the release of the old segments gives the inode back, and that is all
    when there are no nodes. -/
theorem clean_front_iff {a : List Res} (hs : s.pSegl = oldSegs had) (hshm : s.shm = true)
    (hexited : s.exited = false) (ha : s.acquired = nodeList e.opened.2.xlist.length ++ a)
    (hr : s.released = a) (hinode : a = [.inode] ∨ a = []) :
    Clean had s ↔ e.opened.2.xlist = [] := by
  have honly : ∀ r ∈ a, r = .inode := by
    intro r hr
    rcases hinode with rfl | rfl
    · exact List.mem_singleton.mp hr
    · cases hr
  constructor
  · intro hclean
    by_contra hne
    have hpos := List.length_pos_iff.mpr hne
    have hnode : Res.node 0 ∈ nodeList e.opened.2.xlist.length :=
      mem_nodeList.mpr ⟨0, hpos, rfl⟩
    have hcount := hclean.balanced (.node 0) fun k => by simp
    rw [ha, hr, List.count_append] at hcount
    have := List.count_pos_iff.mpr hnode
    omega
  · intro hnil
    rw [hnil] at ha
    have hsame : s.acquired = a := ha
    refine ⟨?_, fun r _ => by rw [hr, hsame], fun _ => ⟨hs, hshm, fun k hk => ?_⟩, fun hc => ?_⟩
    · rw [hsame]
      rcases hinode with rfl | rfl <;> decide
    · rw [hr] at hk
      cases honly _ hk
    · rw [hexited] at hc
      cases hc

/-- A failure with the new segments in the table gives everything back. -/
theorem clean_store {n : ℕ} (hnodes : t.nodes ++ t.released = nodeList n ++ oldReleased had)
    (ha : t.acquired = [.data, .text] ++ .stack :: (nodeList n ++ [.inode]) ∨
      t.acquired = [.data, .sIp, .text] ++ .stack :: (nodeList n ++ [.inode])) :
    Clean had t.store.out := by
  obtain ⟨hreleased, hacquired, hexited⟩ := out_store_released t
  rw [hnodes] at hreleased
  have hnone : ∀ r, (∀ i, r ≠ .node i) → r ∉ nodeList n := by
    intro r hr hc
    obtain ⟨i, -, rfl⟩ := mem_nodeList.mp hc
    exact hr i rfl
  have hsip : Res.sIp ∉ nodeList n := hnone .sIp fun i => by simp
  refine ⟨?_, fun r hr => ?_, fun hc => ?_, fun _ k hk => ?_⟩
  · have hinode : Res.inode ∉ nodeList n := hnone .inode fun i => by simp
    have hlast : (nodeList n ++ [Res.inode]).Nodup :=
      (nodup_nodeList n).append (List.nodup_singleton _) (List.disjoint_singleton.mpr hinode)
    have hdata : Res.data ∉ nodeList n := hnone .data fun i => by simp
    have htext : Res.text ∉ nodeList n := hnone .text fun i => by simp
    have hstack : Res.stack ∉ nodeList n := hnone .stack fun i => by simp
    rw [hacquired]
    rcases ha with ha | ha <;> rw [ha] <;> simp [hlast, hsip, hdata, htext, hstack]
  · rw [hacquired, hreleased]
    rcases ha with ha | ha <;> rw [ha] <;>
      simp [List.count_cons, List.count_append, count_oldReleased_of_ne hr, hsip] <;> ring
  · rw [hexited] at hc
    cases hc
  · rw [hreleased]
    have hold : (nodeList n).count (.old k) = 0 :=
      List.count_eq_zero.mpr (hnone _ fun i => by simp)
    rcases ha with ha | ha <;> rw [ha] <;>
      simp [List.count_append, count_oldReleased hk, hsip, hold]

/-- A failure without all of the new segments loses the stack. -/
theorem not_clean_stuck (hok : e.opened.1 = true)
    (h : Stuck ((e.called had).acquire .stack).commit t) : ¬Clean had t.out := by
  obtain ⟨htable, hreleased, hacquired, hlist⟩ := committed e had hok
  obtain ⟨hout, hacq, -⟩ := out_released (s := t) fun k hk => by
    rw [h.pSegl, htable]
    exact if_neg hk
  intro hclean
  have hcount := hclean.balanced .stack fun k => by simp
  have hnode : Res.stack ∉ t.nodes := by
    intro hc
    obtain ⟨i, -, hi⟩ := mem_nodeList.mp (show Res.stack ∈ nodeList t.xlist.length from hc)
    cases hi
  -- it has been taken, and is not given back
  have hnone : (Res.inode :: (t.nodes ++ t.released)).count .stack = 0 := by
    rw [h.released, hreleased]
    simp [List.count_append, count_oldReleased_of_ne, List.count_eq_zero.mpr hnode]
  have hsome : 0 < t.acquired.count .stack := by
    obtain ⟨l, hl⟩ := h.acquired
    rw [List.count_pos_iff, hl, hacquired]
    exact List.mem_append_right _ List.mem_cons_self
  rw [hout, hnone, hacq] at hcount
  omega

/-- **A failure** of `pexece` gives back what the call has taken, once, and leaves the process its
    segments as long as they are there, just when no node has been allocated for a file that is
    given up before the old segments are, and the new segments are loaded once the stack is built.
    -/
theorem pexece_clean_iff (e : Env) (had : Sidx → Bool) :
    ((e.pexece had).1 = false → Clean had (e.pexece had).2) ↔ e.Recovers := by
  unfold Env.pexece Env.Recovers
  simp only
  have hinode := e.opened_idetached
  by_cases hok : e.opened.1 = false
  · rw [if_pos hok]
    have hfront : Clean had (e.called had) ↔ e.opened.2.xlist = [] := by
      cases hftoi : e.ftoi with
      | false =>
        rw [hftoi, if_pos (Or.inr rfl)] at hinode
        refine @clean_front_iff e had (e.called had) [] rfl rfl rfl ?_ ?_ (Or.inr rfl)
        · show _ ++ (if e.ftoi = true then [Res.inode] else []) = _
          rw [hftoi]
          rfl
        · show List.replicate e.opened.2.idetached Res.inode = []
          rw [hinode]
          rfl
      | true =>
        rw [hftoi, hok, if_neg (by decide)] at hinode
        refine @clean_front_iff e had (e.called had) [.inode] rfl rfl rfl ?_ ?_ (Or.inl rfl)
        · show _ ++ (if e.ftoi = true then [Res.inode] else []) = _
          rw [hftoi]
          rfl
        · show List.replicate e.opened.2.idetached Res.inode = [.inode]
          rw [hinode]
          rfl
    constructor
    · intro hclean
      refine ⟨fun _ => hfront.mp (hclean rfl), fun hc => ?_⟩
      rw [hok] at hc
      cases hc
    · intro hrec _
      exact hfront.mpr (hrec.1 (Or.inl hok))
  rw [if_neg hok]
  rw [Bool.not_eq_false] at hok
  rw [if_pos (Or.inl hok)] at hinode
  by_cases hstack : e.stack = false
  · rw [if_pos hstack]
    have hfront : Clean had ((e.called had).release .inode) ↔ e.opened.2.xlist = [] := by
      refine @clean_front_iff e had _ [.inode] rfl rfl rfl ?_ ?_ (Or.inl rfl)
      · show _ ++ (if e.ftoi = true then [Res.inode] else []) = _
        rw [if_pos (Env.ftoi_of_opened hok)]
        rfl
      · show Res.inode :: List.replicate e.opened.2.idetached Res.inode = [.inode]
        rw [hinode]
        rfl
    constructor
    · intro hclean
      refine ⟨fun _ => hfront.mp (hclean rfl), fun _ hc => ?_⟩
      rw [hstack] at hc
      cases hc
    · intro hrec _
      exact hfront.mpr (hrec.1 (Or.inr hstack))
  rw [if_neg hstack]
  rw [Bool.not_eq_false] at hstack
  obtain ⟨htable, hreleased, hacquired, hlist⟩ := committed e had hok
  have hstuck := @not_clean_stuck e had
  have hspec := load_spec hlist
  have hnodes : (((e.called had).acquire .stack).commit).nodes = nodeList e.opened.2.xlist.length :=
    congrArg (fun l : List Xecseg => nodeList l.length) hlist
  generalize ((e.called had).acquire .stack).commit = s at *
  generalize e.load e.opened.2.xhp s = r at *
  obtain ⟨loaded, t⟩ := r
  rcases hspec with ⟨hload, hgot, hloads⟩ | ⟨hload, hnot, hloads⟩ <;> cases hload
  · -- everything is in the table when it fails now
    have hclean : Clean had t.store.out := by
      refine @clean_store had t e.opened.2.xlist.length ?_ ?_
      · rw [hgot.nodes, hnodes, hreleased]
      · refine hgot.acquired.imp (fun h => ?_) fun h => ?_ <;> rw [h, hacquired] <;> rfl
    refine iff_of_true ?_ ⟨fun hc => ?_, fun _ _ => hloads⟩
    · simp only
      by_cases hproto : e.sproto = false
      · rw [if_pos hproto]
        exact fun _ => hclean
      rw [if_neg hproto]
      by_cases hcred : e.cred = false
      · rw [if_pos hcred]
        exact fun _ => hclean
      · rw [if_neg hcred]
        intro hc
        cases hc
    · rcases hc with hc | hc
      · exact absurd (hok.symm.trans hc) (by decide)
      · exact absurd (hstack.symm.trans hc) (by decide)
  · refine iff_of_false (fun hclean => hstuck hok hnot (hclean rfl)) ?_
    exact fun hrec => hloads (hrec.2 hok hstack)

/-- The block of a COFF program with a section of text and one of data. -/
def program : Bytes := fun i =>
  if i = 0 then 0x4C else if i = 1 then 1 else if i = 2 then 2 else if i = 16 then 28
  else if i = 18 then 2 else if i = 20 then 0x0B else if i = 21 then 1
  else if i = 65 then 0x10 else if i = 84 then 0x20 else if i = 105 then 0x10
  else if i = 124 then 0x40 else 0

/-- There is no memory for the text of the program. -/
def noText : Env where
  kalloc _ := true
  ftoi := true
  file := true
  vread := some program
  stack := true
  text := none
  readText := true
  readNode _ := true
  data := true
  readData := true
  sproto := true
  cred := true

/-- **The stack is lost** when there is no memory for the text: it is not in the table yet. -/
theorem stack_lost : ¬ ∀ (e : Env) (had : Sidx → Bool), (e.pexece had).1 = false →
    Clean had (e.pexece had).2 := by
  intro hall
  have hfails : (noText.pexece fun _ => true).1 = false := by decide +kernel
  have hcount := (hall noText (fun _ => true) hfails).balanced .stack fun k => by simp
  revert hcount
  decide +kernel

end CohKernel.Exec
