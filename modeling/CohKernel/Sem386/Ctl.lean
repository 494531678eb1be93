import CohKernel.Lib.Scan
import CohKernel.Sem386.Defs

namespace CohKernel.Sem386

open CohKernel.Lib CohKernel.Ipc

/-!
# Semaphore sets

The rest of `sem386.c`: `usemget` with `seminit`, `usemctl` with `vClearAdj`, and `semAllAdjust`,
which `pexit` calls for a dying process.
-/

variable {t : Tune}

/-- The tables, with `sem_total` and the limit `SEMMNS` that it is held to. -/
structure Sets (t : Tune) where
  tables : Tables t
  semTotal : ℤ
  SEMMNS : ℕ

/-- What a call of `semget` or `semctl` gives: its value, the error when it fails, the set whose
    events are woken, the events, and the tables. -/
structure CtlResult (t : Tune) (α : Type) where
  value : Except Errno α
  woken : List Event
  sets : Sets t

/-- A call that fails. -/
def Sets.fail (s : Sets t) {α : Type} (e : Errno) : CtlResult t α := ⟨.error e, [], s⟩

/-- Store a set. -/
def Sets.put (s : Sets t) (semids : ℕ → SemidDs t) (id : ℕ) (set : SemidDs t) : Sets t :=
  { s with tables := { s.tables with semids := some (Function.update semids id set) } }

/-! ### `semget` -/

/-- What the kernel does in `semget`: whether `seminit` and the call itself get memory. -/
structure GetCtx extends Ctx where
  kInit : Bool
  kSems : Bool

/-- A slot that `seminit` has cleared. -/
def emptySet (h : 0 < t.SEMMSL) : SemidDs t where
  semPerm := { uid := 0, gid := 0, cuid := 0, cgid := 0, mode := 0, seq := 0, key := 0 }
  semBase := fun _ => ⟨0, 0, 0, 0⟩
  semNsems := 0
  semOtime := 0
  semCtime := 0
  semNsems_lt := h

/-- The allocated set with the key. -/
def keyed (semids : ℕ → SemidDs t) (skey : ℤ) : Option ℕ :=
  (List.range t.SEMMNI).find? fun id =>
    (semids id).alloc ∧ skey ≠ IPC_PRIVATE ∧ skey = (semids id).semPerm.key

/-- The free set that was changed first. -/
def oldestFree (semids : ℕ → SemidDs t) : Option ℕ :=
  (List.range t.SEMMNI).foldl
    (keepOlder (fun id => (semids id).alloc) fun id => (semids id).semCtime) none

/-- The set that `usemget` makes of a free slot; its semaphores start at zero. -/
def SemidDs.created (set : SemidDs t) (c : Ctx) (skey : ℤ) (id nsems semflg : ℕ)
    (h : nsems < t.SEMMSL) : SemidDs t where
  semPerm := ipcPermInit c.cred semflg skey id
  semBase := fun n => if n < nsems then ⟨0, 0, 0, 0⟩ else set.semBase n
  semNsems := nsems
  semOtime := 0
  semCtime := c.now
  semNsems_lt := h

/-- `usemget` once there are sets. -/
def Sets.getSet (s : Sets t) (c : GetCtx) (semids : ℕ → SemidDs t) (skey : ℤ) (nsems semflg : ℕ)
    (h : nsems < t.SEMMSL) : CtlResult t ℕ :=
  let s := { s with tables := { s.tables with semids := some semids } }
  match keyed semids skey with
  | some id =>
      let set := semids id
      if semflg &&& (IPC_CREAT ||| IPC_EXCL) = (IPC_CREAT ||| IPC_EXCL) then s.fail .EEXIST
      else if ipcLackPerm c.cred set.semPerm semflg then s.fail .EACCES
      else if set.semNsems < nsems then s.fail .EINVAL
      else ⟨.ok id, [], s⟩
  | none =>
      if nsems < 1 then s.fail .EINVAL
      else if s.semTotal + nsems > s.SEMMNS then s.fail .ENOSPC
      else if semflg &&& IPC_CREAT = 0 then s.fail .ENOENT
      else
        match oldestFree semids with
        | none => s.fail .ENOSPC
        | some id =>
            if c.kSems = false then s.fail .ENOSPC
            else
              let set := (semids id).created c.toCtx skey id nsems semflg h
              ⟨.ok id, [], { s.put semids id set with semTotal := s.semTotal + nsems }⟩

/-- `usemget`. -/
def Sets.usemget (s : Sets t) (c : GetCtx) (skey nsems : ℤ) (semflg : ℕ) : CtlResult t ℕ :=
  if h : 0 ≤ nsems ∧ nsems ≤ (t.SEMMSL : ℤ) - 1 then
    match s.tables.semids with
    | some semids => s.getSet c semids skey nsems.toNat semflg (by omega)
    | none =>
        if c.kInit = false then s.fail .ENOSPC
        else
          let semids := fun _ => emptySet (by omega)
          s.getSet c semids skey nsems.toNat semflg (by omega)
  else s.fail .EINVAL

/-! ### `semctl` -/

/-- `cmd` and `arg` of `semctl`, with what the accesses to the user's memory do: `array` is what
    `getusd` reads, `fault` that one of them fails. -/
inductive Cmd where
  | GETVAL
  | SETVAL (val : ℤ)
  | GETPID
  | GETNCNT
  | GETZCNT
  | GETALL (fault : Bool)
  | SETALL (array : ℕ → Option Ushort)
  | IPC_STAT
  | IPC_SET (uid gid mode : ℕ) (fault : Bool)
  | IPC_RMID
  | other

/-- `cmd == IPC_STAT`. -/
def Cmd.isStat : Cmd → Bool
  | .IPC_STAT => true
  | _ => false

/-- What `semctl` returns, in its value or in the user's memory. -/
inductive CtlValue (t : Tune) where
  | int (v : ℤ)
  | array (vals : List Ushort)
  | buf (set : SemidDs t)

/-- The sleepers of a semaphore that `IPC_RMID` wakes. -/
def Sem.sleepers (sem : Sem) (n : ℕ) : List Event :=
  (if sem.semncnt.val ≠ 0 then [.semncnt n] else []) ++
    if sem.semzcnt.val ≠ 0 then [.semzcnt n] else []

/-- `vClearAdj` on one list. -/
def clearAdj (semId semNum : ℤ) (semu : List SemUndo) : List SemUndo :=
  semu.map fun un =>
    if un.unNum.val = semNum ∧ un.unId = semId then { un with unAoe := short 0 } else un

/-- `vClearAdj`: the lists of all processes. -/
def Tables.vClearAdj (s : Tables t) (semId semNum : ℤ) : Tables t :=
  { s with semu := fun pid => clearAdj semId semNum (s.semu pid) }

/-- Store the value of a semaphore. -/
def SemidDs.setVal (set : SemidDs t) (n : ℕ) (v : Ushort) : SemidDs t :=
  { set with semBase := Function.update set.semBase n { set.semBase n with semval := v } }

/-- `SETVAL` with a value in range. -/
def Sets.valueSet (s : Sets t) (c : Ctx) (semids : ℕ → SemidDs t) (semid semnum : ℕ) (v : Ushort) :
    CtlResult t (CtlValue t) :=
  let set := semids semid
  let sem := set.semBase semnum
  let woken :=
    if v.val ≠ 0 then if sem.semncnt.val ≠ 0 then [Event.semncnt semnum] else []
    else if sem.semzcnt.val ≠ 0 then [Event.semzcnt semnum] else []
  let s := s.put semids semid { set.setVal semnum v with semCtime := c.now }
  ⟨.ok (.int 0), woken, { s with tables := s.tables.vClearAdj semid semnum }⟩

/-- `SETVAL`. -/
def Sets.setval (s : Sets t) (c : Ctx) (semids : ℕ → SemidDs t) (semid semnum : ℕ) (val : ℤ) :
    CtlResult t (CtlValue t) :=
  if ipcLackPerm c.cred (semids semid).semPerm IWUGO then s.fail .EACCES
  else if ¬(0 ≤ val ∧ val ≤ t.SEMVMX) then s.fail .ERANGE
  else s.valueSet c semids semid semnum (ushort val)

/-- The loop of `SETALL` for `k` more semaphores from number `i` on. -/
def setallLoop (array : ℕ → Option Ushort) (semid : ℕ) :
    ℕ → ℕ → SemidDs t → Tables t → Option Errno × SemidDs t × Tables t
  | 0, _, set, s => (none, set, s)
  | k + 1, i, set, s =>
      match array i with
      | none => (some .EFAULT, set, s)
      | some val =>
          if inRange 0 val.val t.SEMVMX = false then (some .ERANGE, set, s)
          else setallLoop array semid k (i + 1) (set.setVal i val) (s.vClearAdj semid i)

/-- `SETALL` when it is permitted. -/
def Sets.allSet (s : Sets t) (c : Ctx) (semids : ℕ → SemidDs t) (semid : ℕ)
    (array : ℕ → Option Ushort) : CtlResult t (CtlValue t) :=
  let set := semids semid
  let (err, set, tables) := setallLoop array semid set.semNsems 0 set s.tables
  let s := { s with tables := tables }
  match err with
  | some e => ⟨.error e, [], s.put semids semid set⟩
  | none => ⟨.ok (.int 0), [], s.put semids semid { set with semCtime := c.now }⟩

/-- `SETALL`. -/
def Sets.setall (s : Sets t) (c : Ctx) (semids : ℕ → SemidDs t) (semid : ℕ)
    (array : ℕ → Option Ushort) : CtlResult t (CtlValue t) :=
  if ipcLackPerm c.cred (semids semid).semPerm IWRITE then s.fail .EACCES
  else s.allSet c semids semid array

/-- `IPC_SET`. -/
def Sets.ipcSet (s : Sets t) (c : Ctx) (semids : ℕ → SemidDs t) (semid uid gid mode : ℕ)
    (fault : Bool) : CtlResult t (CtlValue t) :=
  let set := semids semid
  if ipcLackPerm c.cred set.semPerm IREAD then s.fail .EACCES
  else
    let mode := (mode &&& 0o777) ||| IPC_ALLOC
    let perm := { set.semPerm with uid := uid, gid := gid, mode := mode }
    let s := s.put semids semid { set with semPerm := perm, semCtime := c.now }
    ⟨if fault then .error .EFAULT else .ok (.int 0), [], s⟩

/-- `IPC_RMID` by the owner.  The adjustments of the processes stay. -/
def Sets.removed (s : Sets t) (semids : ℕ → SemidDs t) (semid : ℕ) : CtlResult t (CtlValue t) :=
  let set := semids semid
  let woken := (List.range set.semNsems).flatMap fun n => (set.semBase n).sleepers n
  let s := { s with semTotal := s.semTotal - set.semNsems }
  ⟨.ok (.int 0), woken, s.put semids semid { set with semPerm := { set.semPerm with mode := 0 } }⟩

/-- `IPC_RMID`. -/
def Sets.ipcRmid (s : Sets t) (c : Ctx) (semids : ℕ → SemidDs t) (semid : ℕ) :
    CtlResult t (CtlValue t) :=
  if ipcCredMatch c.cred (semids semid).semPerm ≠ CRED_OWNER then s.fail .EPERM
  else s.removed semids semid

/-- The commands that change nothing. -/
def Sets.look (s : Sets t) (c : Ctx) (set : SemidDs t) (v : CtlValue t) :
    CtlResult t (CtlValue t) :=
  if ipcLackPerm c.cred set.semPerm IRUGO then s.fail .EACCES else ⟨.ok v, [], s⟩

/-- `usemctl`. -/
def Sets.usemctl (s : Sets t) (c : Ctx) (semid semnum : ℤ) (cmd : Cmd) :
    CtlResult t (CtlValue t) :=
  if ¬(0 ≤ semnum ∧ semnum ≤ (t.SEMMSL : ℤ) - 1) then s.fail .EINVAL
  else
    match s.tables.semids with
    | none => s.fail .EINVAL
    | some semids =>
        if ¬(0 ≤ semid ∧ semid ≤ (t.SEMMNI : ℤ) - 1) then s.fail .EINVAL
        else
          let set := semids semid.toNat
          let sem := set.semBase semnum.toNat
          if set.alloc = false ∧ ¬(cmd.isStat = true ∧ super c.cred = true) then
            s.fail .EINVAL
          else if semnum ≥ set.semNsems then s.fail .EFBIG
          else
            match cmd with
            | .GETVAL => s.look c set (.int sem.semval.val)
            | .SETVAL val => s.setval c semids semid.toNat semnum.toNat val
            | .GETPID => s.look c set (.int sem.sempid)
            | .GETNCNT => s.look c set (.int sem.semncnt.val)
            | .GETZCNT => s.look c set (.int sem.semzcnt.val)
            | .GETALL fault =>
                if fault ∧ ipcLackPerm c.cred set.semPerm IRUGO = false then s.fail .EFAULT
                else
                  let vals := (List.range set.semNsems).map fun n => (set.semBase n).semval
                  s.look c set (.array vals)
            | .SETALL array => s.setall c semids semid.toNat array
            | .IPC_STAT => s.look c set (.buf set)
            | .IPC_SET uid gid mode fault => s.ipcSet c semids semid.toNat uid gid mode fault
            | .IPC_RMID => s.ipcRmid c semids semid.toNat
            | .other => s.fail .EINVAL

/-! ### Exit -/

/-- One step of `semAllAdjust`. -/
def adjustOne (c : Ctx) (semids : ℕ → SemidDs t) (un : SemUndo) : ℕ → SemidDs t :=
  let semSet := semids un.unId.toNat
  let n := un.unNum.val.toNat
  let sem := semSet.semBase n
  let sem := { sem with semval := ushort (sem.semval.val + un.unAoe.val), sempid := c.self }
  Function.update semids un.unId.toNat
    { semSet with semBase := Function.update semSet.semBase n sem, semCtime := c.now }

/-- `semAllAdjust` on the list of the exiting process. -/
def semAllAdjust (c : Ctx) (semu : List SemUndo) (semids : ℕ → SemidDs t) : ℕ → SemidDs t :=
  semu.foldl (adjustOne c) semids

/-- `semAllAdjust`. -/
def Tables.semAllAdjust (s : Tables t) (c : Ctx) : Tables t :=
  { semids := s.semids.map (Sem386.semAllAdjust c (s.semu c.self))
    semu := Function.update s.semu c.self [] }

/-! ### The sets that are allocated -/

/-- The set in a slot, when it is allocated. -/
def Sets.live (s : Sets t) (id : ℕ) : Option (SemidDs t) :=
  s.tables.semids.bind fun semids => if (semids id).alloc then some (semids id) else none

/-- The number of semaphores and the semaphores of a set. -/
def SemidDs.sems (set : SemidDs t) : ℕ × (ℕ → Sem) := (set.semNsems, set.semBase)

/-- The semaphores in a slot, when it is allocated. -/
def Sets.sems (s : Sets t) (id : ℕ) : Option (ℕ × (ℕ → Sem)) := (s.live id).map SemidDs.sems

variable {s : Sets t} {semids : ℕ → SemidDs t} {set : SemidDs t}

theorem alloc_of_mode {mode : ℕ} (h : set.semPerm.mode = mode ||| IPC_ALLOC) : set.alloc =
    true := by
  rw [SemidDs.alloc, h]
  exact decide_eq_true (or_ipcAlloc mode)

theorem live_of_semids (h : s.tables.semids = some semids) (id : ℕ) :
    s.live id = if (semids id).alloc then some (semids id) else none := by
  rw [Sets.live, h, Option.bind_some]

theorem live_alloc (h : s.tables.semids = some semids) {id : ℕ}
    (halloc : (semids id).alloc = true) : s.live id = some (semids id) := by
  rw [live_of_semids h, if_pos halloc]

theorem sems_alloc (h : s.tables.semids = some semids) {id : ℕ}
    (halloc : (semids id).alloc = true) : s.sems id = some (semids id).sems := by
  rw [Sets.sems, live_alloc h halloc]
  rfl

theorem sems_eq_some {id nsems : ℕ} {base : ℕ → Sem} (h : s.sems id = some (nsems, base)) :
    ∃ semids, s.tables.semids = some semids ∧ (semids id).alloc = true ∧
      (semids id).semNsems = nsems ∧ (semids id).semBase = base := by
  obtain ⟨set, hlive, hset⟩ := Option.map_eq_some_iff.mp h
  obtain ⟨semids, hsem, hset'⟩ := Option.bind_eq_some_iff.mp hlive
  split_ifs at hset' with halloc
  cases hset'
  cases hset
  exact ⟨semids, hsem, halloc, rfl, rfl⟩

/-- The allocated sets after one has been stored. -/
theorem sems_put (h : s.tables.semids = some semids) (id : ℕ) (set : SemidDs t) (j : ℕ) :
    (s.put semids id set).sems j =
      if j = id then if set.alloc then some set.sems else none else s.sems j := by
  rw [Sets.sems, Sets.sems, live_of_semids h, Sets.put, Sets.live]
  simp only [Option.bind_some, Function.update_apply]
  by_cases hj : j = id
  · simp only [if_pos hj]
    split_ifs <;> rfl
  · simp only [if_neg hj]

/-! ### What `semget` does -/

/-- A call of `semget` that creates a set, or keeps what is allocated. -/
inductive Got (s : Sets t) : CtlResult t ℕ → Prop
  | kept (r : CtlResult t ℕ) : (∀ id, r.sets.sems id = s.sems id) →
      r.sets.tables.semu = s.tables.semu → (∀ id, r.value = .ok id → (s.live id).isSome) →
      Got s r
  | created (r : CtlResult t ℕ) (id nsems : ℕ) (base : ℕ → Sem) : r.value = .ok id →
      s.live id = none → (∀ n < nsems, base n = ⟨0, 0, 0, 0⟩) →
      (∀ j, r.sets.sems j = if j = id then some (nsems, base) else s.sems j) →
      r.sets.tables.semu = s.tables.semu → Got s r

theorem created_alloc (set : SemidDs t) (c : Ctx) (skey : ℤ) (id nsems semflg : ℕ)
    (h : nsems < t.SEMMSL) : (set.created c skey id nsems semflg h).alloc = true :=
  decide_eq_true (ipcPermInit_alloc _ _ _ _)

theorem getSet_got (c : GetCtx) (skey : ℤ) (nsems semflg : ℕ) (h : nsems < t.SEMMSL)
    (hlive : ∀ id, s.live id = if (semids id).alloc then some (semids id) else none) :
    Got s (s.getSet c semids skey nsems semflg h) := by
  have hsems : ∀ id, ({ s with tables := { s.tables with semids := some semids } } : Sets t).sems id
      = s.sems id := by
    intro id
    rw [Sets.sems, Sets.sems, hlive]
    rfl
  have hfail : ∀ e, Got s
      (({ s with tables := { s.tables with semids := some semids } } : Sets t).fail e) :=
    fun e => Got.kept _ hsems rfl fun id hid => by cases hid
  unfold Sets.getSet
  cases hkey : keyed semids skey with
  | some id =>
    simp only
    split_ifs
    · exact hfail _
    · exact hfail _
    · exact hfail _
    · refine Got.kept _ hsems rfl fun id' hid => ?_
      cases hid
      have hsome := List.find?_some hkey
      have halloc := (of_decide_eq_true hsome).1
      rw [hlive, if_pos halloc]
      rfl
  | none =>
    cases hfree : oldestFree semids with
    | none =>
      simp only
      split_ifs <;> exact hfail _
    | some id =>
      simp only
      split_ifs
      · exact hfail _
      · exact hfail _
      · exact hfail _
      · exact hfail _
      · have hid := (foldl_keepOlder hfree).2
        have hnone : s.live id = none := by
          rw [hlive, if_neg (by simp [hid])]
        refine Got.created _ id nsems
          ((semids id).created c.toCtx skey id nsems semflg h).semBase rfl hnone
          (fun n hn => if_pos hn) (fun j => ?_) rfl
        have hput := sems_put (s := { s with tables := { s.tables with semids := some semids } })
          rfl id ((semids id).created c.toCtx skey id nsems semflg h) j
        rw [if_pos (created_alloc _ _ _ _ _ _ _), hsems] at hput
        exact hput

/-- **`semget`** creates a set in a free slot, or changes nothing. -/
theorem usemget_got (s : Sets t) (c : GetCtx) (skey nsems : ℤ) (semflg : ℕ) :
    Got s (s.usemget c skey nsems semflg) := by
  have hfail : ∀ e, Got s (s.fail e) :=
    fun e => Got.kept _ (fun _ => rfl) rfl fun id hid => by cases hid
  unfold Sets.usemget
  by_cases h : 0 ≤ nsems ∧ nsems ≤ (t.SEMMSL : ℤ) - 1
  swap
  · rw [dif_neg h]
    exact hfail _
  · rw [dif_pos h]
    cases hsem : s.tables.semids with
    | some semids => exact getSet_got c skey _ semflg (by omega) (live_of_semids hsem)
    | none =>
      simp only
      split_ifs
      · exact hfail _
      · refine getSet_got c skey _ semflg (by omega) fun id => ?_
        rw [Sets.live, hsem, Option.bind_none, if_neg]
        simp [emptySet, SemidDs.alloc]

/-! ### What `SETALL` does -/

/-- The adjustments for the semaphores from `i` to `j - 1` of a set are cleared. -/
def clearRange (semid i j : ℤ) (semu : List SemUndo) : List SemUndo :=
  semu.map fun un =>
    if un.unId = semid ∧ i ≤ un.unNum.val ∧ un.unNum.val < j then { un with unAoe := short 0 }
    else un

theorem clearAdj_eq (semid n : ℤ) (semu : List SemUndo) :
    clearAdj semid n semu = clearRange semid n (n + 1) semu := by
  refine List.map_congr_left fun un _ => ?_
  have hiff : (un.unNum.val = n ∧ un.unId = semid) ↔
      (un.unId = semid ∧ n ≤ un.unNum.val ∧ un.unNum.val < n + 1) := by omega
  simp only [hiff]

theorem clearRange_empty (semid i : ℤ) (semu : List SemUndo) : clearRange semid i i semu =
    semu := by
  conv_rhs => rw [← List.map_id semu]
  exact List.map_congr_left fun un _ => if_neg (by omega)

theorem clearRange_step {semid i j : ℤ} (hij : i + 1 ≤ j) (semu : List SemUndo) :
    clearRange semid (i + 1) j (clearAdj semid i semu) = clearRange semid i j semu := by
  rw [clearAdj_eq, clearRange, clearRange, clearRange, List.map_map]
  refine List.map_congr_left fun un _ => ?_
  simp only [Function.comp_apply]
  by_cases hid : un.unId = semid
  · by_cases hi : un.unNum.val = i
    · have hone : un.unId = semid ∧ i ≤ un.unNum.val ∧ un.unNum.val < i + 1 := by omega
      have hall : un.unId = semid ∧ i ≤ un.unNum.val ∧ un.unNum.val < j := by omega
      simp only [if_pos hone, if_pos hall]
      split_ifs <;> rfl
    · have hfirst : ¬(un.unId = semid ∧ i ≤ un.unNum.val ∧ un.unNum.val < i + 1) := by omega
      have hiff : (un.unId = semid ∧ i + 1 ≤ un.unNum.val ∧ un.unNum.val < j) ↔
          (un.unId = semid ∧ i ≤ un.unNum.val ∧ un.unNum.val < j) := by omega
      simp only [if_neg hfirst, hiff]
  · have hnone : ∀ q, ¬(un.unId = semid ∧ q) := fun _ hc => hid hc.1
    simp only [if_neg (hnone _)]

/-- `SETALL` has set the semaphores from `i` to `j - 1`. -/
structure SetTo (array : ℕ → Option Ushort) (semid i j : ℕ) (set set' : SemidDs t)
    (s s' : Tables t) : Prop where
  nsems : set'.semNsems = set.semNsems
  perm : set'.semPerm = set.semPerm
  base : ∀ n, set'.semBase n =
    if i ≤ n ∧ n < j then { set.semBase n with semval := (array n).getD 0 } else set.semBase n
  semids : s'.semids = s.semids
  semu : ∀ pid, s'.semu pid = clearRange semid i j (s.semu pid)

theorem SetTo.refl (array : ℕ → Option Ushort) (semid i : ℕ) (set : SemidDs t) (s : Tables t) :
    SetTo array semid i i set set s s := by
  refine ⟨rfl, rfl, fun n => ?_, rfl, fun pid => ?_⟩
  · rw [if_neg (by omega)]
  · rw [clearRange_empty]

/-- One more semaphore. -/
theorem SetTo.step {array : ℕ → Option Ushort} {semid i j : ℕ} {set set' : SemidDs t}
    {s s' : Tables t} {val : Ushort} (hij : i + 1 ≤ j) (harray : array i = some val)
    (h : SetTo array semid (i + 1) j (set.setVal i val) set' (s.vClearAdj semid i) s') :
    SetTo array semid i j set set' s s' := by
  refine ⟨h.nsems, h.perm, fun n => ?_, h.semids, fun pid => ?_⟩
  · rw [h.base]
    unfold SemidDs.setVal
    simp only [Function.update_apply]
    by_cases hn : n = i
    · subst hn
      rw [if_neg (by omega), if_pos rfl, if_pos (by omega), harray]
      rfl
    · have hiff : (i + 1 ≤ n ∧ n < j) ↔ (i ≤ n ∧ n < j) := by omega
      simp only [if_neg hn, hiff]
  · have hle : (i : ℤ) + 1 ≤ j := by exact_mod_cast hij
    rw [h.semu, Nat.cast_add, Nat.cast_one]
    exact clearRange_step hle (s.semu pid)

/-- The value can be stored by `SETALL`. -/
def Fits (t : Tune) (v : Option Ushort) : Prop := ∃ u, v = some u ∧ u.val ≤ t.SEMVMX

instance (v : Option Ushort) : Decidable (Fits t v) :=
  match v with
  | none => isFalse fun ⟨_, h, _⟩ => by cases h
  | some u => decidable_of_iff (u.val ≤ t.SEMVMX)
      ⟨fun h => ⟨u, rfl, h⟩, fun ⟨_, heq, h⟩ => by cases heq; exact h⟩

theorem inRange_max (t : Tune) (v : Ushort) : inRange 0 v.val t.SEMVMX = true ↔
    v.val ≤ t.SEMVMX := by
  have hmax := t.semvmx_le
  have hlt := v.isLt
  rw [inRange_iff (by omega) (by omega) (by omega) (by omega) (by omega)]
  omega

/-- **The loop of `SETALL`** sets the semaphores up to the first value that it cannot take. -/
theorem setallLoop_spec (array : ℕ → Option Ushort) (semid : ℕ) :
    ∀ (k i : ℕ) (set : SemidDs t) (s : Tables t), ∃ j, i ≤ j ∧ j ≤ i + k ∧
      (∀ n, i ≤ n → n < j → Fits t (array n)) ∧
      SetTo array semid i j set (setallLoop array semid k i set s).2.1 s
        (setallLoop array semid k i set s).2.2 ∧
      ((setallLoop array semid k i set s).1 = none ∧ j = i + k ∨
        ∃ e, (setallLoop array semid k i set s).1 = some e ∧ (e = .EFAULT ∨ e = .ERANGE) ∧
          j < i + k ∧ ¬ Fits t (array j)) := by
  intro k
  induction k with
  | zero =>
    intro i set s
    exact ⟨i, le_rfl, le_rfl, fun n _ _ => by omega, SetTo.refl array semid i set s,
      Or.inl ⟨rfl, rfl⟩⟩
  | succ k ih =>
    intro i set s
    unfold setallLoop
    cases harray : array i with
    | none =>
      refine ⟨i, le_rfl, by omega, fun n _ _ => by omega, SetTo.refl array semid i set s,
        Or.inr ⟨_, rfl, Or.inl rfl, by omega, ?_⟩⟩
      rintro ⟨u, hu, -⟩
      rw [harray] at hu
      cases hu
    | some val =>
      simp only
      by_cases hval : inRange 0 val.val t.SEMVMX = false
      · rw [if_pos hval]
        refine ⟨i, le_rfl, by omega, fun n _ _ => by omega, SetTo.refl array semid i set s,
          Or.inr ⟨_, rfl, Or.inr rfl, by omega, ?_⟩⟩
        rintro ⟨u, hu, hle⟩
        rw [harray] at hu
        cases hu
        rw [(inRange_max t val).mpr hle] at hval
        cases hval
      · rw [if_neg hval]
        rw [Bool.not_eq_false, inRange_max] at hval
        obtain ⟨j, hij, hjk, hfits, hset, hend⟩ :=
          ih (i + 1) (set.setVal i val) (s.vClearAdj semid i)
        refine ⟨j, by omega, by omega, fun n hin hnj => ?_, hset.step hij harray, ?_⟩
        · by_cases hn : n = i
          · rw [hn]
            exact ⟨val, harray, hval⟩
          · exact hfits n (by omega) hnj
        · rcases hend with ⟨hnone, heq⟩ | ⟨e, he, hor, hlt, hbad⟩
          · exact Or.inl ⟨hnone, by omega⟩
          · exact Or.inr ⟨e, he, hor, by omega, hbad⟩

/-! ### What `semctl` does -/

/-- The semaphores of a set whose values a `semctl` with that outcome has set. -/
def setBy (t : Tune) (nsems semnum : ℕ) : Cmd → Except Errno (CtlValue t) → ℕ → Prop
  | .SETVAL _, .ok _, n => n = semnum
  | .SETALL _, .ok _, n => n < nsems
  | .SETALL array, .error e, n => (e = .EFAULT ∨ e = .ERANGE) ∧ n < nsems ∧
      ∀ i < n + 1, Fits t (array i)
  | _, _, _ => False

instance (nsems semnum : ℕ) (cmd : Cmd) (value : Except Errno (CtlValue t)) (n : ℕ) :
    Decidable (setBy t nsems semnum cmd value n) := by
  cases cmd <;> cases value <;> unfold setBy <;> infer_instance

/-- The semaphores with other values from `i` to `j - 1`. -/
def withVals (i j : ℕ) (v : ℕ → Ushort) (base : ℕ → Sem) : ℕ → Sem :=
  fun n => if i ≤ n ∧ n < j then { base n with semval := v n } else base n

/-- What a call of `semctl` does: nothing to the semaphores, new values for some of a set, or the
    end of the set. -/
inductive Controlled (s : Sets t) (c : Ctx) (semid semnum : ℕ) :
    Cmd → CtlResult t (CtlValue t) → Prop
  | kept (cmd : Cmd) (r : CtlResult t (CtlValue t)) : (∀ id, r.sets.sems id = s.sems id) →
      r.sets.tables.semu = s.tables.semu → r.woken = [] →
      (∀ nsems n, ¬ setBy t nsems semnum cmd r.value n) → Controlled s c semid semnum cmd r
  | setval (r : CtlResult t (CtlValue t)) (val : ℤ) (v : Ushort) (nsems : ℕ) (base : ℕ → Sem) :
      s.sems semid = some (nsems, base) → semnum < nsems → (v.val : ℤ) = val →
      v.val ≤ t.SEMVMX →
      (∀ id, r.sets.sems id = if id = semid then
        some (nsems, withVals semnum (semnum + 1) (fun _ => v) base) else s.sems id) →
      (∀ pid, r.sets.tables.semu pid =
        clearRange semid semnum (semnum + 1) (s.tables.semu pid)) →
      r.woken = (if v.val ≠ 0 then if (base semnum).semncnt.val ≠ 0 then [.semncnt semnum] else []
        else if (base semnum).semzcnt.val ≠ 0 then [.semzcnt semnum] else []) →
      (∀ n, setBy t nsems semnum (.SETVAL val) r.value n ↔ n = semnum) →
      Controlled s c semid semnum (.SETVAL val) r
  | setall (r : CtlResult t (CtlValue t)) (array : ℕ → Option Ushort) (j nsems : ℕ)
      (base : ℕ → Sem) : s.sems semid = some (nsems, base) → j ≤ nsems →
      (∀ set, s.live semid = some set → ipcLackPerm c.cred set.semPerm IWRITE = false) →
      (∀ n < j, Fits t (array n)) →
      (∀ id, r.sets.sems id = if id = semid then
        some (nsems, withVals 0 j (fun n => (array n).getD 0) base) else s.sems id) →
      (∀ pid, r.sets.tables.semu pid = clearRange semid 0 j (s.tables.semu pid)) →
      r.woken = [] →
      (∀ n, setBy t nsems semnum (.SETALL array) r.value n ↔ n < j) →
      Controlled s c semid semnum (.SETALL array) r
  | removed (r : CtlResult t (CtlValue t)) (nsems : ℕ) (base : ℕ → Sem) :
      s.sems semid = some (nsems, base) →
      (∀ id, r.sets.sems id = if id = semid then none else s.sems id) →
      r.sets.tables.semu = s.tables.semu →
      r.woken = (List.range nsems).flatMap (fun n => (base n).sleepers n) →
      Controlled s c semid semnum .IPC_RMID r

section
variable {c : Ctx} {semid semnum : ℕ} (hsem : s.tables.semids = some semids)
  (halloc : (semids semid).alloc = true)
include hsem halloc

theorem valueSet_controlled {val : ℤ} (hnum : semnum < (semids semid).semNsems) (hlo : 0 ≤ val)
    (hhi : val ≤ t.SEMVMX) :
    Controlled s c semid semnum (.SETVAL val) (s.valueSet c semids semid semnum (ushort val)) := by
  have hmax := t.semvmx_le
  have hval := ushort_val val
  refine Controlled.setval _ val (ushort val) _ _ (sems_alloc hsem halloc) hnum (by omega)
    (by omega)
    (fun id => ?_) (fun pid => clearAdj_eq _ _ _) rfl fun n => Iff.rfl
  have hput := sems_put hsem semid
    { (semids semid).setVal semnum (ushort val) with semCtime := c.now } id
  have halloc' : ({ (semids semid).setVal semnum (ushort val) with
      semCtime := c.now } : SemidDs t).alloc = true := halloc
  rw [if_pos halloc'] at hput
  refine hput.trans ?_
  split_ifs
  · refine congrArg (fun b => some ((semids semid).semNsems, b)) (funext fun n => ?_)
    simp only [SemidDs.setVal, withVals, Function.update_apply]
    by_cases hn : n = semnum
    · subst hn
      rw [if_pos rfl, if_pos (by omega)]
    · rw [if_neg hn, if_neg (by omega)]
  · rfl

theorem allSet_controlled (array : ℕ → Option Ushort)
    (hperm : ipcLackPerm c.cred (semids semid).semPerm IWRITE = false) :
    Controlled s c semid semnum (.SETALL array) (s.allSet c semids semid array) := by
  obtain ⟨j, -, hjk, hfits, hset, hend⟩ :=
    setallLoop_spec array semid (semids semid).semNsems 0 (semids semid) s.tables
  have hpermitted : ∀ set, s.live semid = some set →
      ipcLackPerm c.cred set.semPerm IWRITE = false := by
    intro set hset
    rw [live_alloc hsem halloc] at hset
    cases hset
    exact hperm
  unfold Sets.allSet
  simp only
  revert hset hend
  generalize setallLoop array semid (semids semid).semNsems 0 (semids semid) s.tables = r
  obtain ⟨err, set', tables⟩ := r
  intro hset hend
  simp only at hset hend ⊢
  rw [Nat.zero_add] at hjk hend
  have hsem' : tables.semids = some semids := hset.semids.trans hsem
  have hsems : ∀ id, ({ s with tables := tables } : Sets t).sems id = s.sems id := by
    intro id
    rw [Sets.sems, Sets.sems, live_of_semids hsem, live_of_semids hsem']
  -- the time of the set makes no difference
  have hstored : ∀ set'' : SemidDs t, set''.semNsems = set'.semNsems →
      set''.semBase = set'.semBase → set''.semPerm = set'.semPerm → ∀ id,
      (({ s with tables := tables } : Sets t).put semids semid set'').sems id =
        if id = semid then some ((semids semid).semNsems,
          withVals 0 j (fun n => (array n).getD 0) (semids semid).semBase) else s.sems id := by
    intro set'' hn hb hp id
    rw [sems_put hsem', hsems]
    have hal : set''.alloc = true := by
      rw [SemidDs.alloc, hp, hset.perm]
      exact halloc
    rw [if_pos hal, SemidDs.sems, hn, hb, hset.nsems, funext hset.base]
    rfl
  cases err with
  | none =>
    obtain ⟨-, rfl⟩ : (none : Option Errno) = none ∧ j = (semids semid).semNsems := by
      rcases hend with hend | ⟨e, he, -⟩
      · exact hend
      · cases he
    exact Controlled.setall _ array _ _ _ (sems_alloc hsem halloc) le_rfl hpermitted
      (fun n hn => hfits n (Nat.zero_le n) hn) (hstored _ rfl rfl rfl) hset.semu rfl
      fun n => Iff.rfl
  | some e =>
    obtain ⟨hor, hlt, hbad⟩ : (e = .EFAULT ∨ e = .ERANGE) ∧ j < (semids semid).semNsems ∧
        ¬ Fits t (array j) := by
      rcases hend with ⟨hnone, -⟩ | ⟨e', he, hrest⟩
      · cases hnone
      · cases he
        exact hrest
    refine Controlled.setall _ array j _ _ (sems_alloc hsem halloc) hjk hpermitted
      (fun n hn => hfits n (Nat.zero_le n) hn) (hstored _ rfl rfl rfl) hset.semu rfl
      fun n => ⟨fun hn => ?_, fun hn => ⟨hor, by omega, fun i hi => ?_⟩⟩
    · by_contra hc
      exact hbad (hn.2.2 j (by omega))
    · exact hfits i (Nat.zero_le i) (by omega)

theorem removed_controlled :
    Controlled s c semid semnum .IPC_RMID (s.removed semids semid) := by
  refine Controlled.removed _ _ _ (sems_alloc hsem halloc) (fun id => ?_) rfl rfl
  have hput := sems_put (s := { s with semTotal := s.semTotal - (semids semid).semNsems }) hsem
      semid
    { semids semid with semPerm := { (semids semid).semPerm with mode := 0 } } id
  refine hput.trans ?_
  split_ifs with hid hal
  · simp [SemidDs.alloc] at hal
  · rfl
  · rfl

theorem ipcSet_controlled (uid gid mode : ℕ) (fault : Bool) :
    Controlled s c semid semnum (.IPC_SET uid gid mode fault)
      (s.ipcSet c semids semid uid gid mode fault) := by
  unfold Sets.ipcSet
  simp only
  split_ifs
  · exact Controlled.kept _ _ (fun _ => rfl) rfl rfl fun _ _ h => h
  all_goals
    refine Controlled.kept _ _ (fun id => ?_) rfl rfl fun _ _ h => h
    refine (sems_put hsem semid _ id).trans ?_
    by_cases hid : id = semid
    · subst hid
      rw [if_pos rfl, if_pos (alloc_of_mode rfl), sems_alloc hsem halloc]
      rfl
    · rw [if_neg hid]

end

/-- **`semctl`** does one of these. -/
theorem usemctl_controlled (s : Sets t) (c : Ctx) (semid semnum : ℤ) (cmd : Cmd) :
    Controlled s c semid.toNat semnum.toNat cmd (s.usemctl c semid semnum cmd) := by
  have hfail : ∀ e, (e = .EFAULT ∨ e = .ERANGE → ∀ array, cmd ≠ .SETALL array) →
      Controlled s c semid.toNat semnum.toNat cmd (s.fail e) := by
    intro e he
    refine Controlled.kept _ _ (fun _ => rfl) rfl rfl fun nsems n hset => ?_
    cases cmd with
    | SETALL array => exact he hset.1 _ rfl
    | _ => exact hset
  unfold Sets.usemctl
  by_cases hnum : 0 ≤ semnum ∧ semnum ≤ (t.SEMMSL : ℤ) - 1
  swap
  · rw [if_pos hnum]
    exact hfail _ (by simp)
  rw [if_neg (not_not.mpr hnum)]
  cases hsem : s.tables.semids with
  | none => exact hfail _ (by simp)
  | some semids =>
    simp only
    by_cases hid : 0 ≤ semid ∧ semid ≤ (t.SEMMNI : ℤ) - 1
    swap
    · rw [if_pos hid]
      exact hfail _ (by simp)
    rw [if_neg (not_not.mpr hid)]
    by_cases hguard : (semids semid.toNat).alloc = false ∧
        ¬(cmd.isStat = true ∧ super c.cred = true)
    · rw [if_pos hguard]
      exact hfail _ (by simp)
    rw [if_neg hguard]
    by_cases hbig : semnum ≥ (semids semid.toNat).semNsems
    · rw [if_pos hbig]
      exact hfail _ (by simp)
    rw [if_neg hbig]
    have hlook : ∀ (cmd : Cmd) (v : CtlValue t),
        (∀ value nsems n, ¬ setBy t nsems semnum.toNat cmd value n) →
        Controlled s c semid.toNat semnum.toNat cmd (s.look c (semids semid.toNat) v) := by
      intro cmd v hset
      unfold Sets.look
      split_ifs <;> exact Controlled.kept _ _ (fun _ => rfl) rfl rfl fun _ _ => hset _ _ _
    have halloc : cmd.isStat = false → (semids semid.toNat).alloc = true := by
      intro hcmd
      by_contra hc
      exact hguard ⟨by simpa using hc, by simp [hcmd]⟩
    have hnum' : semnum.toNat < (semids semid.toNat).semNsems := by omega
    cases cmd with
    | GETVAL => exact hlook _ _ fun _ _ _ h => h
    | GETPID => exact hlook _ _ fun _ _ _ h => h
    | GETNCNT => exact hlook _ _ fun _ _ _ h => h
    | GETZCNT => exact hlook _ _ fun _ _ _ h => h
    | GETALL fault =>
      simp only
      split_ifs
      · exact hfail _ (by simp)
      · exact hlook _ _ fun _ _ _ h => h
    | SETVAL val =>
      simp only [Sets.setval]
      split_ifs with hlack hrange
      · exact hfail _ (by simp)
      · exact valueSet_controlled hsem (halloc rfl) hnum' hrange.1 hrange.2
      · exact hfail _ (by simp)
    | SETALL array =>
      simp only [Sets.setall]
      split_ifs with hlack
      · exact hfail _ (by simp)
      · exact allSet_controlled hsem (halloc rfl) array (by simpa using hlack)
    | IPC_STAT => exact hlook _ _ fun _ _ _ h => h
    | IPC_SET uid gid mode fault => exact ipcSet_controlled hsem (halloc rfl) uid gid mode fault
    | IPC_RMID =>
      simp only [Sets.ipcRmid]
      split_ifs
      · exact hfail _ (by simp)
      · exact removed_controlled hsem (halloc rfl)
    | other => exact hfail _ (by simp)

end CohKernel.Sem386
