import SeaKernel.Errno
import SeaKernel.Lib.Run

/-!
# Process credentials

The user ids of a process through `fork`, `setuid`, `setresuid` and `execve`. A process object
comes from the slab allocator either zero-filled or with what an exited process left in it, and
neither `_process_init` nor `copy_process` writes its ids: a child's ids are the object's own.

## Main results

* `Process.IdsIn.sysSetuid`, `Process.IdsIn.sysSetresuid`, `Process.IdsIn.sysExecve`: without
  a set-user-ID executable, the calls stay inside a set of non-zero ids
* `ids_confined_iff`: the runs in which all descendants stay inside the ids of the first process
-/

namespace SeaKernel.Credentials

open List Option

/-- A slot of the descriptor table (`struct fildes`): an open file and the slot's flags. -/
structure Fildes where
  file : ℕ
  flags : ℕ
  deriving DecidableEq

/-- `struct sigaction`. -/
structure Sigaction where
  handler : ℕ
  flags : ℕ
  restorer : ℕ
  mask : ℕ × ℕ
  deriving DecidableEq

/-- `struct process`, without its memory map and its threads. Inodes, ptys and the parent are
object references; a null pointer is `none`. -/
structure Process where
  pid : ℤ
  parent : Option ℤ
  root : Option ℕ
  cwd : Option ℕ
  pty : Option ℕ
  status : ℤ
  flags : ℕ
  nextUserTls : ℕ
  nextMmapReg : ℕ
  brk : ℕ
  files : ℕ → Option Fildes
  actions : ℕ → Sigaction
  uid : ℤ
  gid : ℤ
  euid : ℤ
  egid : ℤ
  sgid : ℤ
  suid : ℤ
  seshid : ℤ
  pgroupid : ℤ

def userTlsRegionStart : ℕ := 0x700000000000

def userMmapRegionStart : ℕ := 0x400000000000

def userTlsSize : ℕ := 0x400000

/-- `SIG_DFL` with no flags, as `memset` leaves it. -/
def Sigaction.zero : Sigaction := ⟨0, 0, 0, (0, 0)⟩

/-- A process object as the slab hands it out the first time: all zero. -/
def Process.zero : Process where
  pid := 0
  parent := none
  root := none
  cwd := none
  pty := none
  status := 0
  flags := 0
  nextUserTls := 0
  nextMmapReg := 0
  brk := 0
  files := fun _ => none
  actions := fun _ => .zero
  uid := 0
  gid := 0
  euid := 0
  egid := 0
  sgid := 0
  suid := 0
  seshid := 0
  pgroupid := 0

/-! ## Creation -/

/-- An object of the process slab: never used before, or left by an exited process
(`_koh_initialized`). -/
inductive ProcessObject where
  | fresh
  | recycled (contents : Process)

/-- What the object's memory holds when it is allocated. -/
def ProcessObject.contents : ProcessObject → Process
  | fresh => .zero
  | recycled p => p

/-- `_process_init`. -/
def processInit (nextPid : ℤ) (proc : Process) : Process :=
  { proc with
    nextUserTls := userTlsRegionStart
    nextMmapReg := userMmapRegionStart
    pid := nextPid
    root := none
    cwd := none
    pty := none
    status := 0
    flags := 0
    files := fun _ => none
    actions := fun _ => .zero }

/-- `_process_create`: the descriptor table is allocated, then `_process_init` runs. -/
def processCreate (nextPid : ℤ) (proc : Process) : Process :=
  processInit nextPid { proc with files := fun _ => none }

/-- `kobj_allocate` on the process slab: a new object is created, an old one initialized
again. -/
def kobjAllocate (nextPid : ℤ) : ProcessObject → Process
  | .fresh => processCreate nextPid ProcessObject.fresh.contents
  | .recycled p => processInit nextPid p

/-- The pid of `kernel_process`, the first process allocated. -/
def kernelPid : ℤ := 0

/-- `copy_process`. -/
def copyProcess (parent child : Process) : Process :=
  { child with
    root := parent.root
    cwd := parent.cwd
    nextUserTls := if parent.pid = kernelPid then userTlsRegionStart else parent.nextUserTls
    nextMmapReg := if parent.pid = kernelPid then userMmapRegionStart else parent.nextMmapReg
    actions := parent.actions
    parent := some parent.pid
    pty := parent.pty
    brk := parent.brk
    pgroupid := parent.pgroupid
    seshid := parent.seshid }

/-- `process_copy_files`. -/
def processCopyFiles (source target : Process) : Process :=
  { target with files := fun i => (source.files i).orElse fun _ => target.files i }

/-- The child that `sys_fork` makes of its caller in the given object. -/
def sysFork (nextPid : ℤ) (parent : Process) (obj : ProcessObject) : Process :=
  let child := copyProcess parent (kobjAllocate nextPid obj)
  if parent.pid = kernelPid then child else processCopyFiles parent child

/-! ## The calls that change ids -/

/-- `sys_setuid`. -/
def sysSetuid (p : Process) (id : ℤ) : Except Errno Process :=
  if p.euid = 0 then
    .ok { p with uid := id, euid := id, suid := id }
  else if id = p.uid ∨ id = p.suid then
    .ok { p with euid := id }
  else
    .error .eperm

/-- `_is_ok` for a user id. -/
def isOk (p : Process) (id : ℤ) : Bool :=
  id = -1 ∨ id = p.uid ∨ id = p.suid ∨ p.euid = 0

/-- An id argument of `sys_setresuid`: `-1` leaves the field as it is. -/
def orKeep (id old : ℤ) : ℤ :=
  if id ≠ -1 then id else old

/-- `sys_setresuid`. -/
def sysSetresuid (p : Process) (rid eid sid : ℤ) : Except Errno Process :=
  if isOk p rid && isOk p eid && isOk p sid then
    .ok { p with uid := orKeep rid p.uid, euid := orKeep eid p.euid, suid := orKeep sid p.suid }
  else
    .error .eperm

def sIsuid : ℕ := 0o4000

def sIsgid : ℕ := 0o2000

def fdCloexec : ℕ := 1

/-- The inode fields `execve` reads. -/
structure ExecInode where
  mode : ℕ
  uid : ℤ
  gid : ℤ
  deriving DecidableEq

/-- What `execve` meets on the way: the file's inode once it is open (`none` where
`file_get_inode` fails), whether its first bytes are an ELF header, whether its interpreter
loads, and the end of the loaded image. -/
structure ExecImage where
  opened : Except Errno (Option ExecInode)
  isElf : Bool
  interpLoads : Bool
  max : ℕ

/-- The set-id part of `sys_execve`. -/
def setIds (p : Process) (node : ExecInode) : Process :=
  let p := if node.mode &&& sIsuid ≠ 0 then { p with suid := p.euid, euid := node.uid } else p
  if node.mode &&& sIsgid ≠ 0 then { p with sgid := p.egid, egid := node.gid } else p

/-- `process_close_files` with `all` false: the close-on-exec descriptors are closed. -/
def processCloseFiles (p : Process) : Process :=
  { p with files := fun i => (p.files i).filter fun f => f.flags &&& fdCloexec = 0 }

/-- `sys_execve`: the process it leaves, with the error it returns unless it enters the new
image. -/
def sysExecve (p : Process) (image : ExecImage) : Process × Except Errno Unit :=
  match image.opened with
  | .error e => (p, .error e)
  | .ok node =>
    if !image.isElf then (p, .error .enoexec)
    else
      match node with
      -- `goto out_close` with `err` still 0
      | none => (p, .ok ())
      | some node =>
        let p := setIds p node
        if !image.interpLoads then (p, .error .elibbad)
        else
          (processCloseFiles
            { p with
              brk := (image.max + 0x1000) / 0x1000 * 0x1000
              actions := fun _ => .zero
              nextUserTls := p.nextUserTls + userTlsSize }, .ok ())

/-! ## Ids confined to a set -/

/-- The three user ids of a process all belong to `ids`. -/
def Process.IdsIn (ids : Set ℤ) (p : Process) : Prop :=
  p.uid ∈ ids ∧ p.euid ∈ ids ∧ p.suid ∈ ids

/-- The user ids of a process. -/
def Process.ids (p : Process) : Set ℤ := {p.uid, p.euid, p.suid}

theorem Process.idsIn_ids (p : Process) : p.IdsIn p.ids := by
  simp [Process.IdsIn, Process.ids]

theorem sysFork_idsIn {ids : Set ℤ} (nextPid : ℤ) (parent : Process) (obj : ProcessObject) :
    (sysFork nextPid parent obj).IdsIn ids ↔ obj.contents.IdsIn ids := by
  unfold sysFork
  cases obj <;> split <;> rfl

section Confined

variable {ids : Set ℤ} {p p' : Process}

theorem Process.IdsIn.sysSetuid (h0 : (0 : ℤ) ∉ ids) (h : p.IdsIn ids) {id : ℤ}
    (hp : sysSetuid p id = .ok p') : p'.IdsIn ids := by
  obtain ⟨hu, he, hs⟩ := h
  have hroot : p.euid ≠ 0 := fun h => h0 (h ▸ he)
  simp only [Credentials.sysSetuid, if_neg hroot] at hp
  split at hp
  · rename_i hid
    obtain rfl := Except.ok.inj hp
    have hmem : id ∈ ids := by rcases hid with rfl | rfl <;> assumption
    exact ⟨hu, hmem, hs⟩
  · cases hp

theorem orKeep_mem_of_isOk (hroot : p.euid ≠ 0) (hu : p.uid ∈ ids) (hs : p.suid ∈ ids)
    {id old : ℤ} (hid : isOk p id = true) (hold : old ∈ ids) : orKeep id old ∈ ids := by
  simp only [isOk, decide_eq_true_eq] at hid
  unfold orKeep
  split
  · rename_i hne
    rcases hid with h | rfl | rfl | h
    · exact absurd h hne
    · exact hu
    · exact hs
    · exact absurd h hroot
  · exact hold

theorem Process.IdsIn.sysSetresuid (h0 : (0 : ℤ) ∉ ids) (h : p.IdsIn ids) {rid eid sid : ℤ}
    (hp : sysSetresuid p rid eid sid = .ok p') : p'.IdsIn ids := by
  obtain ⟨hu, he, hs⟩ := h
  have hroot : p.euid ≠ 0 := fun h => h0 (h ▸ he)
  unfold Credentials.sysSetresuid at hp
  split at hp
  · rename_i hok
    simp only [Bool.and_eq_true] at hok
    obtain ⟨⟨hr, hee⟩, hss⟩ := hok
    obtain rfl := Except.ok.inj hp
    exact ⟨orKeep_mem_of_isOk hroot hu hs hr hu, orKeep_mem_of_isOk hroot hu hs hee he,
      orKeep_mem_of_isOk hroot hu hs hss hs⟩
  · cases hp

/-- The image is not a set-user-ID one. -/
def ExecImage.NoSetUid (image : ExecImage) : Prop :=
  ∀ node, image.opened = .ok (some node) → node.mode &&& sIsuid = 0

theorem setIds_idsIn {node : ExecInode} (hmode : node.mode &&& sIsuid = 0) :
    (setIds p node).IdsIn ids ↔ p.IdsIn ids := by
  unfold setIds
  simp only [hmode, ne_eq, not_true_eq_false, if_false]
  split <;> rfl

theorem Process.IdsIn.sysExecve (h : p.IdsIn ids) {image : ExecImage} (himage : image.NoSetUid) :
    (sysExecve p image).1.IdsIn ids := by
  unfold Credentials.sysExecve
  split
  · exact h
  · rename_i node hnode
    split
    · exact h
    · cases node with
      | none => exact h
      | some node =>
        have hset : (setIds p node).IdsIn ids := (setIds_idsIn (himage node hnode)).mpr h
        dsimp only
        split
        · exact hset
        · exact hset

end Confined

/-! ## Runs -/

/-- The processes descended from the first one, and the next pid. -/
structure State where
  procs : List Process
  nextPid : ℤ

/-- A call by the process at an index of the list, or its exit. -/
inductive Event where
  | fork (i : ℕ) (obj : ProcessObject)
  | setuid (i : ℕ) (id : ℤ)
  | setresuid (i : ℕ) (rid eid sid : ℤ)
  | execve (i : ℕ) (image : ExecImage)
  | exit (i : ℕ)

/-- The state after a set-id call by process `i`; a refused call changes nothing. -/
def State.commit (s : State) (i : ℕ) : Except Errno Process → State
  | .ok p => { s with procs := s.procs.set i p }
  | .error _ => s

/-- One call by one of the processes. -/
def Step (s : State) : Event → State → Prop
  | .fork i obj, t => ∃ p, s.procs[i]? = some p ∧
      t = { procs := s.procs ++ [sysFork s.nextPid p obj], nextPid := s.nextPid + 1 }
  | .setuid i id, t => ∃ p, s.procs[i]? = some p ∧ t = s.commit i (sysSetuid p id)
  | .setresuid i rid eid sid, t => ∃ p, s.procs[i]? = some p ∧
      t = s.commit i (sysSetresuid p rid eid sid)
  | .execve i image, t => ∃ p, s.procs[i]? = some p ∧
      t = { s with procs := s.procs.set i (sysExecve p image).1 }
  | .exit i, t => t = { s with procs := s.procs.eraseIdx i }

/-- The event does not execute a set-user-ID file. -/
def Event.NoSetUid : Event → Prop
  | .execve _ image => image.NoSetUid
  | _ => True

/-- Where the event is a fork, the ids left in its process object belong to `ids`. -/
def Event.LeftoverIdsIn (ids : Set ℤ) : Event → Prop
  | .fork _ obj => obj.contents.IdsIn ids
  | _ => True

/-- The ids of all processes belong to `ids`. -/
def State.IdsIn (ids : Set ℤ) (s : State) : Prop := ∀ p ∈ s.procs, p.IdsIn ids

section Runs

variable {ids : Set ℤ} {s t : State}

theorem State.IdsIn.set (h : s.IdsIn ids) (i : ℕ) {p : Process} (hp : p.IdsIn ids) :
    State.IdsIn ids { s with procs := s.procs.set i p } := by
  intro q hq
  rcases mem_or_eq_of_mem_set hq with hq | rfl
  · exact h q hq
  · exact hp

theorem State.IdsIn.commit (h : s.IdsIn ids) (i : ℕ) {r : Except Errno Process}
    (hr : ∀ p, r = .ok p → p.IdsIn ids) : (s.commit i r).IdsIn ids := by
  cases r with
  | ok p => exact h.set i (hr p rfl)
  | error e => exact h

theorem State.IdsIn.step (h0 : (0 : ℤ) ∉ ids) (h : s.IdsIn ids) {e : Event}
    (hstep : Step s e t) (hexec : e.NoSetUid) (hobj : e.LeftoverIdsIn ids) : t.IdsIn ids := by
  cases e with
  | fork i obj =>
    obtain ⟨p, -, rfl⟩ := hstep
    intro q hq
    rcases mem_append.mp hq with hq | hq
    · exact h q hq
    · obtain rfl := mem_singleton.mp hq
      exact (sysFork_idsIn _ _ _).mpr hobj
  | setuid i id =>
    obtain ⟨p, hp, rfl⟩ := hstep
    have hin : p.IdsIn ids := h p (mem_of_getElem? hp)
    exact h.commit i fun _ hr => hin.sysSetuid h0 hr
  | setresuid i rid eid sid =>
    obtain ⟨p, hp, rfl⟩ := hstep
    have hin : p.IdsIn ids := h p (mem_of_getElem? hp)
    exact h.commit i fun _ hr => hin.sysSetresuid h0 hr
  | execve i image =>
    obtain ⟨p, hp, rfl⟩ := hstep
    have hin : p.IdsIn ids := h p (mem_of_getElem? hp)
    exact h.set i (hin.sysExecve hexec)
  | exit i =>
    obtain rfl := hstep
    exact fun q hq => h q (mem_of_mem_eraseIdx hq)

theorem Step.leftoverIdsIn {e : Event} (hstep : Step s e t) (ht : t.IdsIn ids) :
    e.LeftoverIdsIn ids := by
  cases e with
  | fork i obj =>
    obtain ⟨p, -, rfl⟩ := hstep
    have hchild :=
      ht (sysFork s.nextPid p obj) (mem_append_right _ (mem_singleton.mpr rfl))
    exact (sysFork_idsIn _ _ _).mp hchild
  | _ => trivial

end Runs

/-- **Confinement of ids.** In a run of a process with non-zero ids that executes no
set-user-ID file, all descendants keep their ids inside those of the first process exactly when
every fork was given a process object whose left-over ids already lie there. -/
theorem ids_confined_iff (start : Process) (nextPid : ℤ) (huid : start.uid ≠ 0)
    (heuid : start.euid ≠ 0) (hsuid : start.suid ≠ 0) (run : List (Event × State))
    (hrun : Along Step ⟨[start], nextPid⟩ run)
    (hexec : Along (fun _ e _ => e.NoSetUid) ⟨[start], nextPid⟩ run) :
    After (State.IdsIn start.ids) ⟨[start], nextPid⟩ run ↔
      Along (fun _ e _ => e.LeftoverIdsIn start.ids) ⟨[start], nextPid⟩ run := by
  have h0 : (0 : ℤ) ∉ start.ids := by
    simp only [Process.ids, Set.mem_insert_iff, Set.mem_singleton_iff, not_or]
    exact ⟨huid.symm, heuid.symm, hsuid.symm⟩
  have hs : State.IdsIn start.ids ⟨[start], nextPid⟩ := by
    intro p hp
    obtain rfl := mem_singleton.mp hp
    exact p.idsIn_ids
  refine after_iff_along (R := fun s e t => Step s e t ∧ e.NoSetUid) ?_ (fun _ h => h) ?_ hs
    (hrun.and hexec)
  · exact fun s e t hI hR hC => hI.step h0 hR.1 hR.2 hC
  · exact fun s e t _ hR ht => hR.1.leftoverIdsIn ht

/-- An ordinary user's process. -/
def userProcess : Process := { Process.zero with pid := 1, uid := 1000, euid := 1000, suid := 1000 }

/-- The process forks into an object of an exited process of the same user, and the child sets
its id. -/
def recycledRun : List (Event × State) :=
  let child := sysFork 2 userProcess (.recycled { userProcess with pid := 7 })
  [(.fork 0 (.recycled { userProcess with pid := 7 }), ⟨[userProcess, child], 3⟩),
    (.setuid 1 1000, ⟨[userProcess, { child with euid := 1000 }], 3⟩)]

theorem recycledRun_confined :
    Along Step ⟨[userProcess], 2⟩ recycledRun ∧
      After (State.IdsIn userProcess.ids) ⟨[userProcess], 2⟩ recycledRun := by
  have hrun : Along Step ⟨[userProcess], 2⟩ recycledRun :=
    ⟨⟨userProcess, rfl, rfl⟩, ⟨_, rfl, rfl⟩, trivial⟩
  have hexec : Along (fun _ e _ => e.NoSetUid) ⟨[userProcess], 2⟩ recycledRun :=
    ⟨trivial, trivial, trivial⟩
  refine ⟨hrun, (ids_confined_iff userProcess 2 (by decide) (by decide) (by decide) recycledRun
    hrun hexec).mpr ⟨?_, trivial, trivial⟩⟩
  exact userProcess.idsIn_ids

/-- The process forks into an object never used before. -/
def freshRun : List (Event × State) :=
  [(.fork 0 .fresh, ⟨[userProcess, sysFork 2 userProcess .fresh], 3⟩)]

theorem freshRun_not_confined :
    (userProcess.uid ≠ 0 ∧ userProcess.euid ≠ 0 ∧ userProcess.suid ≠ 0) ∧
      Along Step ⟨[userProcess], 2⟩ freshRun ∧
      Along (fun _ e _ => e.NoSetUid) ⟨[userProcess], 2⟩ freshRun ∧
      (sysFork 2 userProcess .fresh).uid = 0 ∧ (sysFork 2 userProcess .fresh).euid = 0 ∧
      ¬ After (State.IdsIn userProcess.ids) ⟨[userProcess], 2⟩ freshRun := by
  refine ⟨by decide, ⟨⟨userProcess, rfl, rfl⟩, trivial⟩, ⟨trivial, trivial⟩, rfl, rfl, ?_⟩
  intro h
  have hchild := h.2.1 (sysFork 2 userProcess .fresh) (by simp)
  have hzero : (0 : ℤ) ∈ userProcess.ids := hchild.1
  simp [Process.ids, userProcess] at hzero

end SeaKernel.Credentials
