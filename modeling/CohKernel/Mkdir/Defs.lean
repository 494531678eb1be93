import CohKernel.Dir.Lookup

namespace CohKernel.Mkdir

open CohKernel.Lib CohKernel.Dir

/-!
# Making a directory

`umkdir` and `dmknod` of `sys5.c`, `do_link` of `sys2.c` and `do_unlink` of `sys3.c`, on the
directories and link counts of one filesystem.  A directory is its slots; that `file_to_inode` finds
the first live slot with a name, and the first free one, is shown with the slots in blocks.  The
steps of a call that may fail for a reason that is not in the directories (no inode, no block, a
block that cannot be read or written, a full inode table) are parameters.
-/

/-! ### Paths -/

/-- The character `.` -/
def DOT : Byte := 46

def PATH_MAX : ℕ := 256

/-- The components of a path. -/
def comps : List Byte → List (List Byte)
  | [] => []
  | c :: p =>
      if c = SLASH then comps p
      else
        match p with
        | [] => [[c]]
        | d :: _ =>
            if d = SLASH then [c] :: comps p
            else
              match comps p with
              | [] => [[c]]
              | x :: xs => (c :: x) :: xs

/-- The path of the parent, as `umkdir` makes it: up to the last slash, or `.` when there is none.
    -/
def parentPath (path : List Byte) : List Byte :=
  match path.reverse.dropWhile (· ≠ SLASH) with
  | [] => [DOT]
  | rest => rest.reverse

/-- `d_name` of the last component. -/
def lastName (path : List Byte) : List Byte := dirName ((comps path).getLastD [])

/-! ### Directories -/

/-- A slot of a directory. -/
structure Slot where
  ino : ℕ
  name : List Byte
deriving DecidableEq

/-- An inode: whether it is a directory, its links, and its slots. -/
structure Node where
  dir : Bool
  nlink : ℕ
  slots : List Slot
deriving DecidableEq

/-- The inodes that are in use, and whether `u_error` is set. -/
structure Sys where
  node : ℕ → Option Node
  error : Bool

/-- The process: whether it is the super-user, its directories, and `iaccess` for `IPE` and `IPW`.
    -/
structure Process where
  super : Bool
  rdir : ℕ
  cdir : ℕ
  ipe : ℕ → Bool
  ipw : ℕ → Bool

/-- The first live slot with a name: its position, and its inode. -/
def searchFrom (name : List Byte) : List Slot → ℕ → Option (ℕ × ℕ)
  | [], _ => none
  | x :: xs, i =>
      if x.ino ≠ 0 ∧ cname x.name = cname name then some (i, x.ino) else searchFrom name xs (i + 1)

def search (slots : List Slot) (name : List Byte) : Option (ℕ × ℕ) := searchFrom name slots 0

/-- The position of the first free slot, or of the end. -/
def freeSlot (slots : List Slot) : ℕ := slots.findIdx (·.ino = 0)

/-- A slot is written. -/
def putSlot (slots : List Slot) (pos : ℕ) (x : Slot) : List Slot :=
  if pos < slots.length then slots.set pos x else slots ++ [x]

/-! ### Lookups -/

/-- What `file_to_inode` finds. -/
inductive Found where
  | error
  | child (ino : ℕ)
  | parent (dir pos : ℕ)
  | entry (ino dir pos : ℕ)
deriving DecidableEq

/-- The search of a directory for the last component of a path. -/
def Sys.last (e : Process) (s : Sys) (t : Access) (dir : ℕ) (comp : List Byte) : Found :=
  match s.node dir with
  | none => .error
  | some nd =>
      if nd.dir = true ∧ e.ipe dir = true then
        match search nd.slots (dirName comp) with
        | some (pos, ino) => if t = .unlink then .entry ino dir pos else .child ino
        | none => if t = .create then .parent dir (freeSlot nd.slots) else .error
      else .error

/-- The loop of `file_to_inode`. -/
def Sys.walk (e : Process) (s : Sys) (t : Access) : ℕ → List (List Byte) → Found
  | _, [] => .error
  | cip, [comp] => s.last e t cip comp
  | cip, comp :: rest =>
      match s.last e .reference cip comp with
      | .child ino => Sys.walk e s t ino rest
      | _ => .error

/-- Where a path begins. -/
def Process.start (e : Process) (path : List Byte) : ℕ := if path.head? =
    some SLASH then e.rdir else e.cdir

/-- `ftoi`; `works` says that it meets no error of the device, and no full inode table. -/
def Sys.ftoi (e : Process) (s : Sys) (t : Access) (works : Bool) (path : List Byte) : Found :=
  if s.error = true ∨ works = false then .error
  else
    match comps path with
    | [] => if path ≠ [] ∧ t = .reference then .child e.rdir else .error
    | cs => s.walk e t (e.start path) cs

/-! ### Calls -/

/-- `set_user_error` of what a call has returned. -/
def Sys.setError (s : Sys) (err : Bool) : Sys := { s with error := err }

/-- `set_user_error` of an error. -/
def Sys.fail (s : Sys) : Sys := { s with error := true }

/-- `idirent`: a slot of a directory is written. -/
def Sys.idirent (s : Sys) (ino dir pos : ℕ) (name : List Byte) : Sys :=
  { s with
    node := Function.update s.node dir
      ((s.node dir).map fun nd => { nd with slots := putSlot nd.slots pos ⟨ino, name⟩ }) }

/-- `i_nlink ++` -/
def Sys.addLink (s : Sys) (ino : ℕ) : Sys :=
  { s with
    node := Function.update s.node ino
      ((s.node ino).map fun nd => { nd with nlink := nd.nlink + 1 }) }

/-- `i_nlink --`; `idetach` frees an inode that has no links. -/
def Sys.dropLink (s : Sys) (ino : ℕ) : Sys :=
  { s with
    node := Function.update s.node ino
      ((s.node ino).bind fun nd =>
        if nd.nlink - 1 = 0 then none else some { nd with nlink := nd.nlink - 1 }) }

/-- What works in a call of `do_link`: its lookups, and the writing of the entry. -/
structure LinkRun where
  find₁ : Bool
  find₂ : Bool
  write : Bool

/-- `do_link` of two paths of the kernel, without `needperm`. -/
def Sys.doLink (e : Process) (s : Sys) (r : LinkRun) (path₁ path₂ : List Byte) : Sys :=
  match s.ftoi e .reference r.find₁ path₁ with
  | .child ip₁ =>
      match s.ftoi e .create r.find₂ path₂ with
      | .parent dir pos =>
          if e.ipw dir = false then s.fail
          else if r.write = false then s.fail
          else (s.idirent ip₁ dir pos (lastName path₂)).addLink ip₁
      | _ => s.fail
  | _ => s.fail

/-- What works in a call of `do_unlink`: its lookup, the reading of the inode by `iucheck`, the
    writing of the entry, and `iattach`. -/
structure UnlinkRun where
  find : Bool
  check : Bool
  write : Bool
  attach : Bool

/-- `iucheck`: a directory is for the super-user. -/
def Sys.iucheck (e : Process) (s : Sys) (works : Bool) (ino : ℕ) : Prop :=
  works = true ∧ ((s.node ino).any (·.dir) = true → e.super = true)

instance (e : Process) (s : Sys) (works : Bool) (ino : ℕ) : Decidable (s.iucheck e works ino) :=
  inferInstanceAs (Decidable (_ ∧ _))

/-- `do_unlink`, and the error that it returns. -/
def Sys.doUnlink (e : Process) (s : Sys) (r : UnlinkRun) (path : List Byte) : Bool × Sys :=
  let olderror := s.error
  let s := { s with error := false }
  match s.ftoi e .unlink r.find path with
  | .entry ino dir pos =>
      if e.ipw dir = false then (olderror, s.fail)
      else if ¬ s.iucheck e r.check ino then (olderror, s.fail)
      else
        let s := if r.write = true then s.idirent 0 dir pos (lastName path) else s.fail
        if r.attach = false then (false, s.fail) else (olderror, s.dropLink ino)
  | _ => (olderror, s.fail)

/-- What works in a call of `umkdir`: the buffers and the user's path, the lookup of `dmknod`, the
    privilege for the mode, the inode that `ialloc` gets, the writing of the entry, and the links
    with what undoes them. -/
structure Run where
  buffers : Bool
  find : Bool
  priv : Bool
  ialloc : Option ℕ
  write : Bool
  dot : LinkRun
  undoDot : UnlinkRun
  dotdot : LinkRun
  undoDotdot : UnlinkRun
  undoPath : UnlinkRun

/-- `umkdir` from the link `..` on. -/
def Sys.umkdirUp (e : Process) (s : Sys) (r : Run) (path : List Byte) : ℤ × Sys :=
  let s := s.doLink e r.dotdot (parentPath path) (path ++ [SLASH, DOT, DOT])
  if s.error = true then
    let (err, s) := s.doUnlink e r.undoDotdot (parentPath path ++ [SLASH, DOT])
    let s := s.setError err
    let (err, s) := s.doUnlink e r.undoPath path
    (0, s.setError err)
  else (0, s)

/-- `umkdir` from the link `.` on. -/
def Sys.umkdirDot (e : Process) (s : Sys) (r : Run) (path : List Byte) : ℤ × Sys :=
  let s := s.doLink e r.dot path (path ++ [SLASH, DOT])
  if s.error = true then
    let (err, s) := s.doUnlink e r.undoDot path
    (-1, s.setError err)
  else s.umkdirUp e r path

end CohKernel.Mkdir
