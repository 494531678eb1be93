import CohKernel.Exec.Defs
import CohKernel.Lib.Bytes

namespace CohKernel.Exec

open CohKernel.Lib

/-!
# The header of an executable file

`exlopen` of `exec.c`, which reads the first block of a file: an `l.out` of a 286 program, or COFF.
The block is in a buffer; `memcpy` copies the headers out of it, and there is memory behind it.

* `exlopen_sound_iff` — the headers are read from inside the block, what is rejected leaves no node,
  and what is accepted lies below the stack, just when the headers are those of `Header.Harmless`;
* `header_behind_block` — the twelfth section header is read from behind the block.
-/

/-! ### Definitions -/

def BSIZE : ℕ := 512

/-- The addresses of a page table. -/
def NBPS : ℕ := 2 ^ 22

def L_MAGIC : ℕ := 0o407
def I286MAGIC : ℕ := 0x152
def I386MAGIC : ℕ := 0x14C
def I_MAGIC : ℕ := 0o411
def Z_MAGIC : ℕ := 0o413
def XMAGIC (a b : ℕ) : ℕ := a <<< 16 ||| b

def M_8086 : ℕ := 6

/-- `ISP_286` and `ISP_386` -/
def ISP_286 : ℕ := Width.short.top
def ISP_386 : ℕ := Width.long.top

/-- `struct xecseg` -/
structure Xecseg where
  mbase : ℕ
  size : ℕ
  fbase : ℕ
deriving DecidableEq

/-- Where the sections are in `segs`. -/
inductive Sidx where
  | SIBSS
  | SISTEXT
  | SIPDATA
  | SISTACK
deriving DecidableEq

/-- `struct xechdr` -/
structure Xechdr where
  magic : ℕ
  entry : ℕ
  initsp : ℕ
  segs : Sidx → Xecseg

/-- A header that the caller has cleared. -/
def Xechdr.clear : Xechdr := ⟨0, 0, 0, fun _ => ⟨0, 0, 0⟩⟩

def Xechdr.setSeg (h : Xechdr) (k : Sidx) (x : Xecseg) : Xechdr :=
  { h with segs := Function.update h.segs k x }

/-- What `exlopen` has done: the header, the nodes (they are all of `SISTEXT`), the number at
    `shrds`, what has been copied out of the buffer, and how often `brelease` and `idetach` have
    been called. -/
structure Loading where
  xhp : Xechdr
  xlist : List Xecseg
  shrds : ℕ
  reads : List (ℕ × ℕ)
  breleased : ℕ
  idetached : ℕ

def Loading.start : Loading := ⟨Xechdr.clear, [], 0, [], 0, 0⟩

/-- `memcpy` from the buffer. -/
def Loading.memcpy (s : Loading) (offset size : ℕ) : Loading :=
  { s with reads := (offset, size) :: s.reads }

def Loading.brelease (s : Loading) : Loading := { s with breleased := s.breleased + 1 }

def Loading.idetach (s : Loading) : Loading := { s with idetached := s.idetached + 1 }

/-- The fields of `struct ldheader`, with its lengths; `l_ssize` has been put in order. -/
structure Ldheader where
  lFlag : ℕ
  lMachine : ℕ
  lEntry : ℕ
  lSsize : ℕ → ℕ

def Ldheader.sizeof : ℕ := 44

def ldheader (b : Bytes) : Ldheader :=
  ⟨b.word 2, b.word 4, b.word 6, fun i => rol16 (b.long (8 + 4 * i))⟩

/-- The fields of `struct filehdr` and of `struct aouthdr`. -/
structure Filehdr where
  fNscns : ℕ
  fOpthdr : ℕ
  fFlags : ℕ

def Filehdr.sizeof : ℕ := 20

def filehdr (b : Bytes) : Filehdr := ⟨b.word 2, b.word 16, b.word 18⟩

structure Aouthdr where
  magic : ℕ
  entry : ℕ

def Aouthdr.sizeof : ℕ := 28

def aouthdr (b : Bytes) (o : ℕ) : Aouthdr := ⟨b.word o, b.long (o + 16)⟩

/-- `hdrsize` -/
def hdrsize : ℕ := Aouthdr.sizeof + Filehdr.sizeof

/-- The fields of `struct scnhdr`. -/
structure Scnhdr where
  sVaddr : ℕ
  sSize : ℕ
  sScnptr : ℕ
  sFlags : ℕ

def Scnhdr.sizeof : ℕ := 40

/-- The section header number `i`. -/
def scnhdr (b : Bytes) (i : ℕ) : Scnhdr :=
  let o := hdrsize + Scnhdr.sizeof * i
  ⟨b.long (o + 12), b.long (o + 16), b.long (o + 20), b.long (o + 36)⟩

def Scnhdr.seg (h : Scnhdr) : Xecseg := ⟨h.sVaddr, h.sSize, h.sScnptr⟩

/-- What the flags of a section say: it is not to be loaded, or it is one of these, or it is not
    known. -/
inductive Styp where
  | info
  | is (k : Sidx)
  | unknown
deriving DecidableEq

def Scnhdr.styp (h : Scnhdr) : Styp :=
  if h.sFlags = 0x200 then .info
  else if h.sFlags = 0x080 then .is .SIBSS
  else if h.sFlags = 0x020 then .is .SISTEXT
  else if h.sFlags = 0x040 then .is .SIPDATA
  else .unknown

/-- A turn of the loop over the sections; it fails when it goes to `bad`.  `kalloc` says whether
    there is memory for a node. -/
def Loading.section (s : Loading) (kalloc : Bool) (h : Scnhdr) : Option Loading :=
  match h.styp with
  | .info => some s
  | .unknown => none
  | .is nscn =>
      if h.sVaddr ≥ ISP_386 then none
      else if (s.xhp.segs nscn).size ≠ 0 then
        if nscn ≠ .SISTEXT then none
        else if kalloc = false then none
        else some { s with xlist := h.seg :: s.xlist }
      else some { s with xhp := s.xhp.setSeg nscn h.seg }

/-- The loop from section `i` on, and whether it gets to its end. -/
def Loading.sections (kalloc : ℕ → Bool) (b : Bytes) : ℕ → ℕ → Loading → Bool × Loading
  | 0, _, s => (true, s)
  | n + 1, i, s =>
      let s := s.memcpy (hdrsize + Scnhdr.sizeof * i) Scnhdr.sizeof
      match s.section (kalloc i) (scnhdr b i) with
      | none => (false, s)
      | some s => Loading.sections kalloc b n (i + 1) s

/-- `goto bad` -/
def Loading.bad (s : Loading) : Bool × Loading := (false, s.brelease.idetach)

/-- The case of `L_MAGIC`. -/
def Loading.lout (s : Loading) (b : Bytes) : Bool × Loading :=
  let s := s.memcpy 0 Ldheader.sizeof
  let head := ldheader b
  if head.lMachine ≠ M_8086 then s.bad
  else if head.lFlag &&& 2 = 0 ∨ head.lFlag &&& 8 ≠ 0 ∨ head.lSsize 1 ≠ 0 ∨ head.lSsize 2 ≠ 0 then
    s.bad
  else
    let text : Xecseg := ⟨NBPS, head.lSsize 0, Ldheader.sizeof⟩
    let data : Xecseg := ⟨0, (head.lSsize 3 + head.lSsize 4) % 2 ^ 32,
      (Ldheader.sizeof + text.size) % 2 ^ 32⟩
    let bss : Xecseg := ⟨data.size, head.lSsize 5, 0⟩
    let stack : Xecseg := { s.xhp.segs .SISTACK with mbase := ISP_286 }
    let xhp := { s.xhp with magic := XMAGIC I286MAGIC I_MAGIC, entry := head.lEntry }
    let xhp := (((xhp.setSeg .SISTEXT text).setSeg .SIPDATA data).setSeg .SIBSS bss).setSeg
      .SISTACK stack
    let shrds := if head.lFlag &&& 1 ≠ 0 then head.lSsize 3 else s.shrds
    (true, { s with xhp := xhp, shrds := shrds }.brelease)

/-- The case of `I386MAGIC`. -/
def Loading.coff (s : Loading) (kalloc : ℕ → Bool) (b : Bytes) : Bool × Loading :=
  let s := s.memcpy 0 Filehdr.sizeof
  let fhead := filehdr b
  if fhead.fOpthdr ≠ Aouthdr.sizeof ∨ fhead.fFlags &&& 2 = 0 ∨
      fhead.fNscns * Scnhdr.sizeof > BSIZE then s.bad
  else
    let s := s.memcpy Filehdr.sizeof Aouthdr.sizeof
    let ahead := aouthdr b Filehdr.sizeof
    if ahead.magic ≠ Z_MAGIC then s.bad
    else
      let xhp := { s.xhp with magic := XMAGIC I386MAGIC ahead.magic, entry := ahead.entry }
      match Loading.sections kalloc b fhead.fNscns 0 { s with xhp := xhp } with
      | (false, s) => s.bad
      | (true, s) =>
          if (s.xhp.segs .SISTEXT).size = 0 ∨ (s.xhp.segs .SIPDATA).size = 0 then s.bad
          else
            let stack : Xecseg := { s.xhp.segs .SISTACK with mbase := ISP_386 }
            (true, { s with xhp := s.xhp.setSeg .SISTACK stack }.brelease)

/-- `exlopen`: whether it returns the inode, and what it has done.  `ftoi` finds an inode or not,
    which is a file that may be executed or not; and `vread` gets a buffer or not. -/
def exlopen (kalloc : ℕ → Bool) (ftoi file : Bool) (vread : Option Bytes) : Bool × Loading :=
  let s := Loading.start
  if ftoi = false then (false, s)
  else if file = false then (false, s.idetach)
  else
    match vread with
    | none => (false, s.idetach)
    | some b =>
        let s := { s with shrds := 0 }.memcpy 0 2
        if b.word 0 = L_MAGIC then s.lout b
        else if b.word 0 = I386MAGIC then s.coff kalloc b
        else s.bad

/-! ### What is to hold -/

/-- Where a section is for the program: a 286 program has its text in a segment of its own, which
    starts at `NBPS`. -/
def Xechdr.org (h : Xechdr) : Sidx → ℕ
  | .SISTEXT => if h.magic = XMAGIC I286MAGIC I_MAGIC then NBPS else 0
  | _ => 0

/-- What `exlopen` is to do with a block. -/
structure Sound (r : Bool × Loading) : Prop where
  inside : ∀ p ∈ r.2.reads, p.1 + p.2 ≤ BSIZE
  released : r.2.breleased = 1
  rejected : r.1 = false → r.2.xlist = [] ∧ r.2.idetached = 1
  accepted : r.1 = true → r.2.idetached = 0 ∧
    (∀ k ≠ Sidx.SISTACK, (r.2.xhp.segs k).mbase + (r.2.xhp.segs k).size ≤
      r.2.xhp.org k + (r.2.xhp.segs .SISTACK).mbase) ∧
    ∀ x ∈ r.2.xlist, x.mbase + x.size ≤ (r.2.xhp.segs .SISTACK).mbase

/-- A section of the kind `k` that is not empty is in front of section `i`. -/
def Seen (b : Bytes) (i : ℕ) (k : Sidx) : Prop :=
  ∃ j < i, (scnhdr b j).styp = .is k ∧ (scnhdr b j).sSize ≠ 0

/-- The loop stops at section `i`. -/
def Stops (kalloc : ℕ → Bool) (b : Bytes) (i : ℕ) : Prop :=
  (scnhdr b i).styp = .unknown ∨
    ∃ k, (scnhdr b i).styp = .is k ∧ ((scnhdr b i).sVaddr ≥ ISP_386 ∨
      Seen b i k ∧ (k ≠ .SISTEXT ∨ kalloc i = false))

/-- A file header of COFF that the loop over the sections starts with. -/
def IsCoff (b : Bytes) : Prop :=
  b.word 0 = I386MAGIC ∧ (filehdr b).fOpthdr = Aouthdr.sizeof ∧ (filehdr b).fFlags &&& 2 ≠ 0 ∧
    (filehdr b).fNscns * Scnhdr.sizeof ≤ BSIZE ∧ (aouthdr b Filehdr.sizeof).magic = Z_MAGIC

/-- A header of `l.out` that is accepted. -/
def IsLout (b : Bytes) : Prop :=
  b.word 0 = L_MAGIC ∧ (ldheader b).lMachine = M_8086 ∧ (ldheader b).lFlag &&& 2 ≠ 0 ∧
    (ldheader b).lFlag &&& 8 = 0 ∧ (ldheader b).lSsize 1 = 0 ∧ (ldheader b).lSsize 2 = 0

/-- The sections of COFF are all taken. -/
def Whole (kalloc : ℕ → Bool) (b : Bytes) : Prop :=
  (∀ i < (filehdr b).fNscns, ¬Stops kalloc b i) ∧ Seen b (filehdr b).fNscns .SISTEXT ∧
    Seen b (filehdr b).fNscns .SIPDATA

/-- The headers that do no harm. -/
structure Harmless (kalloc : ℕ → Bool) (b : Bytes) : Prop where
  /-- The loop does not get to a twelfth section. -/
  few : IsCoff b → (filehdr b).fNscns = 12 → ∃ i < 11, Stops kalloc b i
  /-- Where it stops there has been one section of text. -/
  single : IsCoff b → ¬Whole kalloc b → ∀ i < (filehdr b).fNscns, (scnhdr b i).styp = .is .SISTEXT →
    Seen b i .SISTEXT → ∃ j ≤ i, Stops kalloc b j
  /-- Where it does not, the sections end below the stack. -/
  below : IsCoff b → Whole kalloc b → ∀ i < (filehdr b).fNscns, ∀ k,
    (scnhdr b i).styp = .is k → (scnhdr b i).sVaddr + (scnhdr b i).sSize ≤ ISP_386
  small : IsLout b → (ldheader b).lSsize 0 ≤ ISP_286 ∧
    ((ldheader b).lSsize 3 + (ldheader b).lSsize 4) % 2 ^ 32 + (ldheader b).lSsize 5 ≤ ISP_286

/-! ### The sections of COFF -/

variable {b : Bytes} {i n : ℕ} {s s' : Loading} {kalloc : ℕ → Bool} {k : Sidx}

theorem Seen.mono {m : ℕ} (h : Seen b i k) (hle : i ≤ m) : Seen b m k := by
  obtain ⟨j, hj, hstyp, hsize⟩ := h
  exact ⟨j, by omega, hstyp, hsize⟩

theorem seen_succ : Seen b (i + 1) k ↔
    Seen b i k ∨ (scnhdr b i).styp = .is k ∧ (scnhdr b i).sSize ≠ 0 := by
  constructor
  · rintro ⟨j, hj, hsec⟩
    rcases Nat.lt_succ_iff_lt_or_eq.mp hj with hlt | rfl
    · exact Or.inl ⟨j, hlt, hsec⟩
    · exact Or.inr hsec
  · rintro (h | hsec)
    · exact h.mono i.le_succ
    · exact ⟨i, i.lt_succ_self, hsec⟩

/-- There are no sections of the stack. -/
theorem styp_ne_stack {h : Scnhdr} (hstyp : h.styp = .is k) : k ≠ .SISTACK := by
  rintro rfl
  unfold Scnhdr.styp at hstyp
  split_ifs at hstyp <;> cases hstyp

/-- What has been recorded of the sections in front of section `i`. -/
structure Recorded (b : Bytes) (i : ℕ) (s : Loading) : Prop where
  size : ∀ k, (s.xhp.segs k).size ≠ 0 ↔ Seen b i k
  seg : ∀ k, s.xhp.segs k = ⟨0, 0, 0⟩ ∨
    ∃ j < i, (scnhdr b j).styp = .is k ∧ s.xhp.segs k = (scnhdr b j).seg
  node : ∀ x ∈ s.xlist, ∃ j < i, (scnhdr b j).styp = .is .SISTEXT ∧ Seen b j .SISTEXT ∧
    x = (scnhdr b j).seg
  kept : ∀ j < i, ∀ k, (scnhdr b j).styp = .is k → (scnhdr b j).sSize ≠ 0 →
    s.xhp.segs k = (scnhdr b j).seg ∨ (scnhdr b j).seg ∈ s.xlist
  second : ∀ j < i, (scnhdr b j).styp = .is .SISTEXT → Seen b j .SISTEXT → s.xlist ≠ []

/-- Two states that differ in what has been recorded of the sections. -/
structure SameRest (s s' : Loading) : Prop where
  reads : s'.reads = s.reads
  breleased : s'.breleased = s.breleased
  idetached : s'.idetached = s.idetached
  magic : s'.xhp.magic = s.xhp.magic

/-- A turn that goes to `bad` is for a section where the loop stops. -/
theorem section_stops (h : Recorded b i s) :
    s.section (kalloc i) (scnhdr b i) = none ↔ Stops kalloc b i := by
  unfold Loading.section Stops
  cases hstyp : (scnhdr b i).styp with
  | info => simp
  | unknown => simp
  | is nscn =>
    simp only [reduceCtorEq, false_or, Styp.is.injEq]
    by_cases hhigh : (scnhdr b i).sVaddr ≥ ISP_386
    · rw [if_pos hhigh]
      exact iff_of_true rfl ⟨nscn, rfl, Or.inl hhigh⟩
    rw [if_neg hhigh]
    by_cases hseen : (s.xhp.segs nscn).size ≠ 0
    · rw [if_pos hseen]
      have hfront := (h.size nscn).mp hseen
      by_cases htext : nscn ≠ .SISTEXT
      · rw [if_pos htext]
        exact iff_of_true rfl ⟨nscn, rfl, Or.inr ⟨hfront, Or.inl htext⟩⟩
      rw [if_neg htext]
      by_cases hmem : kalloc i = false
      · rw [if_pos hmem]
        exact iff_of_true rfl ⟨nscn, rfl, Or.inr ⟨hfront, Or.inr hmem⟩⟩
      · rw [if_neg hmem]
        refine iff_of_false (by simp) ?_
        rintro ⟨k, rfl, hc | ⟨-, hc | hc⟩⟩
        · exact hhigh hc
        · exact htext hc
        · exact hmem hc
    · rw [if_neg hseen]
      refine iff_of_false (by simp) ?_
      rintro ⟨k, rfl, hc | ⟨hc, -⟩⟩
      · exact hhigh hc
      · exact hseen ((h.size nscn).mpr hc)

/-- A section that the loop does not record anew. -/
theorem Recorded.other (h : Recorded b i s) (hne : ∀ k, (scnhdr b i).styp ≠ .is k) :
    Recorded b (i + 1) s := by
  have hold : ∀ j < i + 1, ∀ k, (scnhdr b j).styp = .is k → j < i := by
    intro j hj k hstyp
    rcases Nat.lt_succ_iff_lt_or_eq.mp hj with hlt | rfl
    · exact hlt
    · exact absurd hstyp (hne k)
  refine ⟨fun k => ?_, fun k => ?_, fun x hx => ?_, fun j hj k hstyp => ?_, fun j hj hstyp => ?_⟩
  · rw [h.size k, seen_succ]
    exact ⟨Or.inl, fun hc => hc.resolve_right fun hnow => hne k hnow.1⟩
  · exact (h.seg k).imp id fun ⟨j, hj, hsec⟩ => ⟨j, by omega, hsec⟩
  · obtain ⟨j, hj, hsec⟩ := h.node x hx
    exact ⟨j, by omega, hsec⟩
  · exact h.kept j (hold j hj k hstyp) k hstyp
  · exact h.second j (hold j hj .SISTEXT hstyp) hstyp

/-- The first section of its kind that is not empty, or one in front of that. -/
theorem Recorded.first (h : Recorded b i s) (hstyp : (scnhdr b i).styp = .is k)
    (hseen : ¬Seen b i k) :
    Recorded b (i + 1) { s with xhp := s.xhp.setSeg k (scnhdr b i).seg } := by
  have hself : (s.xhp.setSeg k (scnhdr b i).seg).segs k = (scnhdr b i).seg :=
    Function.update_self ..
  have hother : ∀ l ≠ k, (s.xhp.setSeg k (scnhdr b i).seg).segs l = s.xhp.segs l :=
    fun l hl => Function.update_of_ne hl ..
  refine ⟨fun l => ?_, fun l => ?_, fun x hx => ?_, fun j hj l hl hsize => ?_,
    fun j hj hl hfront => ?_⟩
  · rw [seen_succ, hstyp]
    by_cases hlk : l = k
    · subst hlk
      simp only [hself, true_and]
      exact ⟨Or.inr, fun hc => hc.resolve_left hseen⟩
    · simp only [hother l hlk, Styp.is.injEq]
      rw [h.size l]
      exact ⟨Or.inl, fun hc => hc.resolve_right fun hnow => hlk hnow.1.symm⟩
  · by_cases hlk : l = k
    · subst hlk
      exact Or.inr ⟨i, i.lt_succ_self, hstyp, hself⟩
    · simp only [hother l hlk]
      exact (h.seg l).imp id fun ⟨j, hj, hsec⟩ => ⟨j, by omega, hsec⟩
  · obtain ⟨j, hj, hsec⟩ := h.node x hx
    exact ⟨j, by omega, hsec⟩
  · rcases Nat.lt_succ_iff_lt_or_eq.mp hj with hlt | rfl
    · have hlk : l ≠ k := by
        rintro rfl
        exact hseen ⟨j, hlt, hl, hsize⟩
      simp only [hother l hlk]
      exact h.kept j hlt l hl hsize
    · rw [hstyp] at hl
      cases hl
      exact Or.inl hself
  · rcases Nat.lt_succ_iff_lt_or_eq.mp hj with hlt | rfl
    · exact h.second j hlt hl hfront
    · rw [hstyp] at hl
      cases hl
      exact absurd hfront hseen

/-- One more section of text. -/
theorem Recorded.again (h : Recorded b i s) (hstyp : (scnhdr b i).styp = .is .SISTEXT)
    (hseen : Seen b i .SISTEXT) :
    Recorded b (i + 1) { s with xlist := (scnhdr b i).seg :: s.xlist } := by
  refine ⟨fun l => ?_, fun l => ?_, fun x hx => ?_, fun j hj l hl hsize => ?_,
    fun j hj hl hfront => List.cons_ne_nil _ _⟩
  · rw [seen_succ, hstyp]
    show (s.xhp.segs l).size ≠ 0 ↔ _
    rw [h.size l]
    refine ⟨Or.inl, fun hc => hc.elim id fun hnow => ?_⟩
    rw [Styp.is.injEq] at hnow
    exact hnow.1 ▸ hseen
  · exact (h.seg l).imp id fun ⟨j, hj, hsec⟩ => ⟨j, by omega, hsec⟩
  · rcases List.mem_cons.mp hx with rfl | hx
    · exact ⟨i, i.lt_succ_self, hstyp, hseen, rfl⟩
    · obtain ⟨j, hj, hsec⟩ := h.node x hx
      exact ⟨j, by omega, hsec⟩
  · rcases Nat.lt_succ_iff_lt_or_eq.mp hj with hlt | rfl
    · exact (h.kept j hlt l hl hsize).imp id (List.mem_cons_of_mem _)
    · exact Or.inr List.mem_cons_self

/-- A turn records its section. -/
theorem section_recorded (h : Recorded b i s)
    (hs : s.section (kalloc i) (scnhdr b i) = some s') : Recorded b (i + 1) s' ∧ SameRest s s' := by
  unfold Loading.section at hs
  cases hstyp : (scnhdr b i).styp with
  | unknown =>
    rw [hstyp] at hs
    cases hs
  | info =>
    rw [hstyp] at hs
    cases hs
    refine ⟨h.other fun k hk => ?_, rfl, rfl, rfl, rfl⟩
    rw [hstyp] at hk
    cases hk
  | is nscn =>
    rw [hstyp] at hs
    simp only at hs
    split_ifs at hs with hhigh hseen htext hmem
    · cases hs
      have hkind : nscn = .SISTEXT := not_not.mp htext
      subst hkind
      exact ⟨h.again hstyp ((h.size _).mp hseen), rfl, rfl, rfl, rfl⟩
    · cases hs
      exact ⟨h.first hstyp fun hc => hseen ((h.size _).mpr hc), rfl, rfl, rfl, rfl⟩

/-- What the loop over `n` sections from section `i` on leaves: it has recorded what is in front of
    section `m`, and begun its turns up to section `e`. -/
structure Walked (kalloc : ℕ → Bool) (b : Bytes) (i n m e : ℕ) (s : Loading) (r : Bool × Loading) :
    Prop where
  recorded : Recorded b m r.2
  passed : ∀ j, i ≤ j → j < m → ¬Stops kalloc b j
  finish : r.1 = true ∧ m = i + n ∧ e = m ∨
    r.1 = false ∧ i ≤ m ∧ m < i + n ∧ e = m + 1 ∧ Stops kalloc b m
  reads : ∀ p, p ∈ r.2.reads ↔
    p ∈ s.reads ∨ ∃ j, i ≤ j ∧ j < e ∧ p = (hdrsize + Scnhdr.sizeof * j, Scnhdr.sizeof)
  breleased : r.2.breleased = s.breleased
  idetached : r.2.idetached = s.idetached
  magic : r.2.xhp.magic = s.xhp.magic

theorem sections_walked (h : Recorded b i s) :
    ∃ m e, Walked kalloc b i n m e s (Loading.sections kalloc b n i s) := by
  induction n generalizing i s with
  | zero =>
    refine ⟨i, i, h, fun j _ _ => by omega, Or.inl ⟨rfl, rfl, rfl⟩, fun p => ?_, rfl, rfl, rfl⟩
    exact ⟨Or.inl, fun hc => hc.resolve_right fun ⟨j, _, _, _⟩ => by omega⟩
  | succ n ih =>
    have hread : Recorded b i (s.memcpy (hdrsize + Scnhdr.sizeof * i) Scnhdr.sizeof) :=
      ⟨h.size, h.seg, h.node, h.kept, h.second⟩
    unfold Loading.sections
    simp only
    cases hs : (s.memcpy (hdrsize + Scnhdr.sizeof * i) Scnhdr.sizeof).section (kalloc i)
        (scnhdr b i) with
    | none =>
      have hstops := (section_stops hread).mp hs
      refine ⟨i, i + 1, hread, fun j _ _ => by omega,
        Or.inr ⟨rfl, le_rfl, by omega, rfl, hstops⟩, fun p => ?_, rfl, rfl, rfl⟩
      show p ∈ _ :: s.reads ↔ _
      rw [List.mem_cons, or_comm]
      refine or_congr Iff.rfl ⟨fun hp => ⟨i, le_rfl, by omega, hp⟩, ?_⟩
      rintro ⟨j, hlo, hhi, hp⟩
      obtain rfl : j = i := by omega
      exact hp
    | some s' =>
      obtain ⟨hrec, hrest⟩ := section_recorded hread hs
      have hpass : ¬Stops kalloc b i := fun hc => by
        rw [(section_stops hread).mpr hc] at hs
        cases hs
      obtain ⟨m, e, hm⟩ := ih hrec
      have hfrom : i + 1 ≤ m ∧ m ≤ e := by
        rcases hm.finish with ⟨-, hend, he⟩ | ⟨-, hle, -, he, -⟩ <;> omega
      refine ⟨m, e, hm.recorded, fun j hlo hhi => ?_, ?_, fun p => ?_,
        hm.breleased.trans hrest.breleased, hm.idetached.trans hrest.idetached,
        hm.magic.trans hrest.magic⟩
      · rcases Nat.lt_or_ge i j with hlt | hge
        · exact hm.passed j hlt hhi
        · obtain rfl : j = i := by omega
          exact hpass
      · refine hm.finish.imp (fun ⟨hok, hend, he⟩ => ⟨hok, by omega, he⟩) ?_
        rintro ⟨hbad, hle, hlt, he, hstops⟩
        exact ⟨hbad, by omega, by omega, he, hstops⟩
      · rw [hm.reads p, hrest.reads]
        show p ∈ _ :: s.reads ∨ _ ↔ _
        rw [List.mem_cons]
        constructor
        · rintro ((rfl | hp) | ⟨j, hlo, hhi, hp⟩)
          · exact Or.inr ⟨i, le_rfl, by omega, rfl⟩
          · exact Or.inl hp
          · exact Or.inr ⟨j, by omega, hhi, hp⟩
        · rintro (hp | ⟨j, hlo, hhi, hp⟩)
          · exact Or.inl (Or.inr hp)
          · rcases Nat.lt_or_ge i j with hlt | hge
            · exact Or.inr ⟨j, hlt, hhi, hp⟩
            · obtain rfl : j = i := by omega
              exact Or.inl (Or.inl hp)

section Walk

variable {m e : ℕ} {r : Bool × Loading}

/-- The sections are all taken just when the loop gets to its end and the two segments are there. -/
theorem Walked.whole_iff (h : Walked kalloc b 0 (filehdr b).fNscns m e s r) :
    Whole kalloc b ↔ r.1 = true ∧ (r.2.xhp.segs .SISTEXT).size ≠ 0 ∧
      (r.2.xhp.segs .SIPDATA).size ≠ 0 := by
  rw [h.recorded.size, h.recorded.size]
  constructor
  · rintro ⟨hpass, htext, hdata⟩
    rcases h.finish with ⟨hok, hend, -⟩ | ⟨-, -, hlt, -, hstops⟩
    · rw [zero_add] at hend
      exact ⟨hok, hend ▸ htext, hend ▸ hdata⟩
    · exact absurd hstops (hpass m (by omega))
  · rintro ⟨hok, htext, hdata⟩
    rcases h.finish with ⟨-, hend, -⟩ | ⟨hbad, -⟩
    · rw [zero_add] at hend
      exact ⟨fun i hi => h.passed i (Nat.zero_le i) (hend ▸ hi), hend ▸ htext, hend ▸ hdata⟩
    · rw [hok] at hbad
      cases hbad

/-- The headers are inside the block just when the loop does not get to a twelfth section. -/
theorem Walked.inside_iff (h : Walked kalloc b 0 n m e s r) (hn : n * Scnhdr.sizeof ≤ BSIZE)
    (hs : ∀ p ∈ s.reads, p.1 + p.2 ≤ BSIZE) :
    (∀ p ∈ r.2.reads, p.1 + p.2 ≤ BSIZE) ↔ (n = 12 → ∃ i < 11, Stops kalloc b i) := by
  have hmany : ∀ j, hdrsize + Scnhdr.sizeof * j + Scnhdr.sizeof ≤ BSIZE ↔ j < 11 := by
    intro j
    unfold hdrsize Scnhdr.sizeof BSIZE Aouthdr.sizeof Filehdr.sizeof
    omega
  unfold Scnhdr.sizeof BSIZE at hn
  constructor
  · rintro hin rfl
    have hbegun : e ≤ 11 := by
      by_contra hmore
      have := hin _ ((h.reads _).mpr (Or.inr ⟨11, Nat.zero_le _, by omega, rfl⟩))
      exact absurd ((hmany 11).mp this) (by omega)
    rcases h.finish with ⟨-, hend, he⟩ | ⟨-, -, -, he, hstops⟩
    · omega
    · exact ⟨m, by omega, hstops⟩
  · intro hfew p hp
    rcases (h.reads p).mp hp with hold | ⟨j, -, hj, rfl⟩
    · exact hs p hold
    · refine (hmany j).mpr ?_
      by_contra hmore
      have hends : e ≤ n := by
        rcases h.finish with ⟨-, hend, he⟩ | ⟨-, -, hlt, he, -⟩ <;> omega
      obtain ⟨i, hi, hstops⟩ := hfew (by omega)
      refine h.passed i (Nat.zero_le i) ?_ hstops
      rcases h.finish with ⟨-, hend, he⟩ | ⟨-, -, hlt, he, -⟩ <;> omega

/-- There is no node just when the loop does not take a second section of text. -/
theorem Walked.single_iff (h : Walked kalloc b 0 n m e s r) :
    r.2.xlist = [] ↔ ∀ i < n, (scnhdr b i).styp = .is .SISTEXT → Seen b i .SISTEXT →
      ∃ j ≤ i, Stops kalloc b j := by
  constructor
  · intro hnone i hi hstyp hseen
    rcases Nat.lt_or_ge i m with hlt | hge
    · exact absurd hnone (h.recorded.second i hlt hstyp hseen)
    · rcases h.finish with ⟨-, hend, -⟩ | ⟨-, -, -, -, hstops⟩
      · omega
      · exact ⟨m, hge, hstops⟩
  · intro hsingle
    refine List.eq_nil_iff_forall_not_mem.mpr fun x hx => ?_
    obtain ⟨j, hj, hstyp, hseen, -⟩ := h.recorded.node x hx
    have hle : m ≤ n := by
      rcases h.finish with ⟨-, hend, -⟩ | ⟨-, -, hlt, -, -⟩ <;> omega
    obtain ⟨l, hl, hstops⟩ := hsingle j (by omega) hstyp hseen
    exact h.passed l (Nat.zero_le l) (by omega) hstops

/-- What is recorded ends below the stack just when every section does. -/
theorem Walked.below_iff (h : Walked kalloc b 0 n m e s r) (hok : r.1 = true) :
    ((∀ k ≠ Sidx.SISTACK, (r.2.xhp.segs k).mbase + (r.2.xhp.segs k).size ≤ ISP_386) ∧
      ∀ x ∈ r.2.xlist, x.mbase + x.size ≤ ISP_386) ↔
    ∀ i < n, ∀ k, (scnhdr b i).styp = .is k →
      (scnhdr b i).sVaddr + (scnhdr b i).sSize ≤ ISP_386 := by
  have hend : m = n := by
    rcases h.finish with ⟨-, hend, -⟩ | ⟨hbad, -⟩
    · omega
    · rw [hok] at hbad
      cases hbad
  subst hend
  constructor
  · rintro ⟨hsegs, hlist⟩ i hi k hstyp
    by_cases hempty : (scnhdr b i).sSize = 0
    · -- the loop has looked at the address of an empty section
      by_contra hhigh
      exact h.passed i (Nat.zero_le i) hi (Or.inr ⟨k, hstyp, Or.inl (by omega)⟩)
    · rcases h.recorded.kept i hi k hstyp hempty with hseg | hnode
      · have := hsegs k (styp_ne_stack hstyp)
        rw [hseg] at this
        exact this
      · exact hlist _ hnode
  · intro hbelow
    refine ⟨fun k _ => ?_, fun x hx => ?_⟩
    · rcases h.recorded.seg k with hzero | ⟨j, hj, hstyp, hseg⟩
      · rw [hzero]
        exact Nat.zero_le _
      · rw [hseg]
        exact hbelow j hj k hstyp
    · obtain ⟨j, hj, hstyp, -, rfl⟩ := h.recorded.node x hx
      exact hbelow j hj .SISTEXT hstyp

end Walk

/-! ### The block -/

/-- A block that is rejected at its first header. -/
theorem bad_sound (hin : ∀ p ∈ s.reads, p.1 + p.2 ≤ BSIZE) (hlist : s.xlist = [])
    (hrel : s.breleased = 0) (hdet : s.idetached = 0) : Sound s.bad := by
  refine ⟨hin, ?_, fun _ => ⟨hlist, ?_⟩, fun hc => by cases hc⟩
  · show s.breleased + 1 = 1
    rw [hrel]
  · show s.idetached + 1 = 1
    rw [hdet]

/-- The header of an `l.out`. -/
theorem lout_sound_iff (hmagic : b.word 0 = L_MAGIC) :
    Sound ((Loading.start.memcpy 0 2).lout b) ↔ Harmless kalloc b := by
  have hcoff : ¬IsCoff b := fun hc => by
    have := hmagic.symm.trans hc.1
    revert this
    decide
  have hin : ∀ p ∈ ((Loading.start.memcpy 0 2).memcpy 0 Ldheader.sizeof).reads,
      p.1 + p.2 ≤ BSIZE := by
    show ∀ p ∈ [(0, 44), (0, 2)], p.1 + p.2 ≤ 512
    decide
  have hrejected : ¬IsLout b → Harmless kalloc b := fun hc =>
    ⟨fun h => absurd h hcoff, fun h => absurd h hcoff, fun h => absurd h hcoff,
      fun h => absurd h hc⟩
  unfold Loading.lout
  simp only
  by_cases hmach : (ldheader b).lMachine ≠ M_8086
  · rw [if_pos hmach]
    exact iff_of_true (bad_sound hin rfl rfl rfl) (hrejected fun hc => hmach hc.2.1)
  rw [if_neg hmach]
  by_cases hflag : (ldheader b).lFlag &&& 2 = 0 ∨ (ldheader b).lFlag &&& 8 ≠ 0 ∨
      (ldheader b).lSsize 1 ≠ 0 ∨ (ldheader b).lSsize 2 ≠ 0
  · rw [if_pos hflag]
    refine iff_of_true (bad_sound hin rfl rfl rfl) (hrejected ?_)
    rintro ⟨-, -, hsep, hker, hprvi, hbssi⟩
    rcases hflag with hc | hc | hc | hc
    · exact hsep hc
    · exact hc hker
    · exact hc hprvi
    · exact hc hbssi
  rw [if_neg hflag]
  push Not at hmach hflag
  have hlout : IsLout b := ⟨hmagic, hmach, hflag⟩
  constructor
  · intro hsound
    refine ⟨fun h => absurd h hcoff, fun h => absurd h hcoff, fun h => absurd h hcoff, fun _ => ?_⟩
    obtain ⟨-, hbelow, -⟩ := hsound.accepted rfl
    have htext : NBPS + (ldheader b).lSsize 0 ≤ NBPS + ISP_286 := hbelow .SISTEXT (by decide)
    have hbss : (((ldheader b).lSsize 3 + (ldheader b).lSsize 4) % 2 ^ 32) +
        (ldheader b).lSsize 5 ≤ 0 + ISP_286 := hbelow .SIBSS (by decide)
    exact ⟨by omega, by omega⟩
  · intro hharm
    obtain ⟨htext, hbss⟩ := hharm.small hlout
    refine ⟨hin, rfl, fun hc => ?_, fun _ => ⟨rfl, fun k hk => ?_, fun x hx => ?_⟩⟩
    · cases hc
    · cases k with
      | SISTACK => exact absurd rfl hk
      | SISTEXT =>
        show NBPS + (ldheader b).lSsize 0 ≤ NBPS + ISP_286
        omega
      | SIPDATA =>
        show 0 + ((ldheader b).lSsize 3 + (ldheader b).lSsize 4) % 2 ^ 32 ≤ 0 + ISP_286
        omega
      | SIBSS =>
        show (((ldheader b).lSsize 3 + (ldheader b).lSsize 4) % 2 ^ 32) +
          (ldheader b).lSsize 5 ≤ 0 + ISP_286
        omega
    · cases hx

/-- The headers of COFF. -/
theorem coff_sound_iff (hmagic : b.word 0 = I386MAGIC) :
    Sound ((Loading.start.memcpy 0 2).coff kalloc b) ↔ Harmless kalloc b := by
  have hlout : ¬IsLout b := fun hc => by
    have := hmagic.symm.trans hc.1
    revert this
    decide
  have hrejected : ¬IsCoff b → Harmless kalloc b := fun hc =>
    ⟨fun h => absurd h hc, fun h => absurd h hc, fun h => absurd h hc, fun h => absurd h hlout⟩
  have hin : ∀ p ∈ [(Filehdr.sizeof, Aouthdr.sizeof), (0, Filehdr.sizeof), (0, 2)],
      p.1 + p.2 ≤ BSIZE := by decide
  unfold Loading.coff
  simp only
  by_cases hfile : (filehdr b).fOpthdr ≠ Aouthdr.sizeof ∨ (filehdr b).fFlags &&& 2 = 0 ∨
      (filehdr b).fNscns * Scnhdr.sizeof > BSIZE
  · rw [if_pos hfile]
    refine iff_of_true (bad_sound (fun p hp => hin p (List.mem_cons_of_mem _ hp)) rfl rfl rfl)
      (hrejected ?_)
    rintro ⟨-, hopt, hexec, hmany, -⟩
    rcases hfile with hc | hc | hc
    · exact hc hopt
    · exact hexec hc
    · exact absurd hmany (not_le.mpr hc)
  rw [if_neg hfile]
  by_cases hz : (aouthdr b Filehdr.sizeof).magic ≠ Z_MAGIC
  · rw [if_pos hz]
    exact iff_of_true (bad_sound hin rfl rfl rfl) (hrejected fun hc => hz hc.2.2.2.2)
  rw [if_neg hz]
  push Not at hfile hz
  have hcoff : IsCoff b := ⟨hmagic, hfile.1, hfile.2.1, hfile.2.2, hz⟩
  generalize hstart : ({ ((Loading.start.memcpy 0 2).memcpy 0 Filehdr.sizeof).memcpy
      Filehdr.sizeof Aouthdr.sizeof with
    xhp := { (((Loading.start.memcpy 0 2).memcpy 0 Filehdr.sizeof).memcpy
        Filehdr.sizeof Aouthdr.sizeof).xhp with
      magic := XMAGIC I386MAGIC (aouthdr b Filehdr.sizeof).magic
      entry := (aouthdr b Filehdr.sizeof).entry } } : Loading) = s
  have hnone : ∀ k, ¬Seen b 0 k := fun k ⟨j, hj, _⟩ => Nat.not_lt_zero j hj
  have hrec : Recorded b 0 s := by
    subst hstart
    refine ⟨fun k => iff_of_false (fun hc => hc rfl) (hnone k), fun k => Or.inl rfl,
      fun x hx => ?_, fun j hj => absurd hj (Nat.not_lt_zero j),
      fun j hj => absurd hj (Nat.not_lt_zero j)⟩
    cases hx
  obtain ⟨m, e, hw⟩ : ∃ m e, Walked kalloc b 0 (filehdr b).fNscns m e s _ :=
    sections_walked hrec
  have hreads := hw.inside_iff hfile.2.2 (by subst hstart; exact hin)
  have hnodes := hw.single_iff
  have hbelow := hw.below_iff
  have hwhole := hw.whole_iff
  have hrel : (Loading.sections kalloc b (filehdr b).fNscns 0 s).2.breleased = 0 := by
    rw [hw.breleased, ← hstart]
    rfl
  have hdet : (Loading.sections kalloc b (filehdr b).fNscns 0 s).2.idetached = 0 := by
    rw [hw.idetached, ← hstart]
    rfl
  have hxmagic : (Loading.sections kalloc b (filehdr b).fNscns 0 s).2.xhp.magic =
      XMAGIC I386MAGIC Z_MAGIC := by
    rw [hw.magic, ← hstart, ← hz]
  generalize Loading.sections kalloc b (filehdr b).fNscns 0 s = r at *
  -- what is rejected, from whichever place
  have hfails : ¬Whole kalloc b → (Sound r.2.bad ↔ Harmless kalloc b) := by
    intro hnot
    constructor
    · intro hsound
      exact ⟨fun _ => hreads.mp hsound.inside,
        fun _ _ => hnodes.mp (hsound.rejected rfl).1, fun _ hc => absurd hc hnot,
        fun hc => absurd hc hlout⟩
    · intro hharm
      exact bad_sound (hreads.mpr (hharm.few hcoff)) (hnodes.mpr (hharm.single hcoff hnot)) hrel
        hdet
  obtain ⟨ok, t⟩ := r
  cases ok with
  | false =>
    refine hfails fun hc => ?_
    cases (hwhole.mp hc).1
  | true =>
    simp only
    by_cases hempty : (t.xhp.segs .SISTEXT).size = 0 ∨ (t.xhp.segs .SIPDATA).size = 0
    · rw [if_pos hempty]
      refine hfails fun hc => ?_
      obtain ⟨-, htext, hdata⟩ := hwhole.mp hc
      exact hempty.elim htext hdata
    rw [if_neg hempty]
    push Not at hempty
    have hall := hwhole.mpr ⟨rfl, hempty⟩
    have hsegs : ∀ k ≠ Sidx.SISTACK, ∀ x, (t.xhp.setSeg .SISTACK x).segs k = t.xhp.segs k :=
      fun k hk x => Function.update_of_ne hk ..
    have horg : ∀ k x, (t.xhp.setSeg .SISTACK x).org k = 0 := by
      intro k x
      unfold Xechdr.org
      cases k with
      | SISTEXT =>
        show (if t.xhp.magic = XMAGIC I286MAGIC I_MAGIC then NBPS else 0) = 0
        rw [hxmagic]
        decide
      | _ => rfl
    have hstack : ∀ x, (t.xhp.setSeg .SISTACK x).segs .SISTACK = x := by
      intro x
      show Function.update t.xhp.segs .SISTACK x .SISTACK = x
      exact Function.update_self ..
    -- the addresses of the header that is returned
    have hends : ∀ k ≠ Sidx.SISTACK, ∀ x, (((t.xhp.setSeg .SISTACK x).segs k).mbase +
        ((t.xhp.setSeg .SISTACK x).segs k).size ≤
          (t.xhp.setSeg .SISTACK x).org k + ((t.xhp.setSeg .SISTACK x).segs .SISTACK).mbase ↔
        (t.xhp.segs k).mbase + (t.xhp.segs k).size ≤ x.mbase) := by
      intro k hk x
      rw [hsegs k hk, horg, hstack, zero_add]
    constructor
    · intro hsound
      refine ⟨fun _ => hreads.mp hsound.inside, fun _ hc => absurd hall hc, fun _ _ => ?_,
        fun hc => absurd hc hlout⟩
      obtain ⟨-, hin', hlist⟩ := hsound.accepted rfl
      refine (hbelow rfl).mp ⟨fun k hk => (hends k hk _).mp (hin' k hk), fun x hx => ?_⟩
      refine (hlist x hx).trans_eq ?_
      show ((t.xhp.setSeg .SISTACK _).segs .SISTACK).mbase = ISP_386
      rw [hstack]
    · intro hharm
      obtain ⟨hin', hlist⟩ := (hbelow rfl).mpr (hharm.below hcoff hall)
      refine ⟨hreads.mpr (hharm.few hcoff), ?_, fun hc => ?_, fun _ => ⟨hdet, fun k hk => ?_,
        fun x hx => ?_⟩⟩
      · show t.breleased + 1 = 1
        rw [hrel]
      · cases hc
      · exact (hends k hk _).mpr (hin' k hk)
      · refine (hlist x hx).trans_eq ?_
        show ISP_386 = ((t.xhp.setSeg .SISTACK _).segs .SISTACK).mbase
        rw [hstack]

/-- **The first block** is read from inside, what is rejected leaves nothing behind, and what is
    accepted lies below the stack, just when its headers are harmless. -/
theorem exlopen_sound_iff (kalloc : ℕ → Bool) (b : Bytes) :
    Sound (exlopen kalloc true true (some b)) ↔ Harmless kalloc b := by
  show Sound (if b.word 0 = L_MAGIC then (Loading.start.memcpy 0 2).lout b
    else if b.word 0 = I386MAGIC then (Loading.start.memcpy 0 2).coff kalloc b
    else (Loading.start.memcpy 0 2).bad) ↔ Harmless kalloc b
  by_cases hlout : b.word 0 = L_MAGIC
  · rw [if_pos hlout]
    exact lout_sound_iff hlout
  rw [if_neg hlout]
  by_cases hcoff : b.word 0 = I386MAGIC
  · rw [if_pos hcoff]
    exact coff_sound_iff hcoff
  rw [if_neg hcoff]
  refine iff_of_true (bad_sound (by decide) rfl rfl rfl) ?_
  exact ⟨fun h => absurd h.1 hcoff, fun h => absurd h.1 hcoff, fun h => absurd h.1 hcoff,
    fun h => absurd h.1 hlout⟩

/-- A header of COFF with twelve sections that are not to be loaded. -/
def twelve : Bytes := fun i =>
  if i = 0 then 0x4C else if i = 1 then 1 else if i = 2 then 12 else if i = 16 then 28
  else if i = 18 then 2 else if i = 20 then 0x0B else if i = 21 then 1
  else if 48 ≤ i ∧ (i - 48) % 40 = 37 then 2 else 0

/-- **The twelfth section header** is read from behind the block: its last 16 bytes are not in
    it. -/
theorem header_behind_block : ¬ ∀ kalloc b, Sound (exlopen kalloc true true (some b)) := by
  intro hall
  have hread : (hdrsize + Scnhdr.sizeof * 11, Scnhdr.sizeof) ∈
      (exlopen (fun _ => true) true true (some twelve)).2.reads := by decide +kernel
  have hin := (hall (fun _ => true) twelve).inside _ hread
  revert hin
  decide

end CohKernel.Exec
