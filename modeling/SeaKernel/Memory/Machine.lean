import SeaKernel.Memory.Mapping

/-!
# Page frames, page faults and fork

The machine behind the address spaces: page frames with their flags and reference counts
(`kernel/frame.c`), the contents of memory, the cached pages of inodes (`kernel/fs/inode.c`), and
the processes. On it run the page fault handler and `process_copy_mappings` of
`kernel/mapping.c`, stores by user code, and `sys_mprotect`.

Frames are named by their number; which free frame the physical allocator hands out is an argument
of the functions that allocate. A failed assertion and a failed read of a file page (the callback
then follows a null pointer) give `none`. Pages are not dropped from the page cache.

## Main definitions

* `Machine`, `Machine.reads`: the machine, and what a process reads at an address
* `Machine.handleFault`, `Machine.processCopyMappings`
* `Event`, `Machine.exec`: the steps of a run
-/

namespace SeaKernel.Paging

open Mapping Function

/-- `FRAME_PERSIST`, `FRAME_NOCLEAR`, `FRAME_ZEROCOUNT`, `FRAME_DIRTY` -/
structure FrameFlags where
  persist : Bool := false
  noclear : Bool := false
  zerocount : Bool := false
  dirty : Bool := false
  deriving DecidableEq, Repr

/-- `struct frame` -/
structure Frame where
  flags : FrameFlags
  count : ℕ
  deriving DecidableEq, Repr

/-- The state of the machine. -/
structure Machine where
  frame : ℕ → Frame
  /-- The bytes of a frame. -/
  memory : ℕ → ℕ → UInt8
  /-- The frames that the physical allocator can hand out. -/
  free : ℕ → Bool
  /-- The frame of a cached page of an inode. -/
  inodePage : ℕ × ℤ → Option ℕ
  /-- What `read_page` delivers for a page of an inode, zeros behind the end of the file. -/
  disk : ℕ × ℤ → ℕ → UInt8
  /-- The address spaces of the processes. -/
  space : ℕ → Option AddressSpace

/-- The address space of a process is replaced. -/
def Machine.setSpace (m : Machine) (p : ℕ) (s : AddressSpace) : Machine :=
  { m with space := update m.space p (some s) }

/-! ## Frames -/

/-- `frame_allocate`, given the frame that `mm_physical_allocate` returns (and clears). -/
def Machine.frameAllocate (m : Machine) (phys : ℕ) (flags : FrameFlags) : Option Machine :=
  if m.free phys = true ∧ (m.frame phys).count = 0 then
    some { m with
      free := update m.free phys false
      memory := update m.memory phys fun _ => 0
      frame := update m.frame phys ⟨flags, if flags.zerocount then 0 else 1⟩ }
  else none

/-- `frame_acquire` -/
def Machine.frameAcquire (m : Machine) (phys : ℕ) : Machine :=
  { m with
    frame := update m.frame phys ⟨(m.frame phys).flags, (m.frame phys).count + 1⟩ }

/-- `frame_release` -/
def Machine.frameRelease (m : Machine) (phys : ℕ) : Option Machine :=
  if 0 < (m.frame phys).count then
    let count := (m.frame phys).count - 1
    some { m with
      frame := update m.frame phys ⟨(m.frame phys).flags, count⟩
      free :=
        if count = 0 ∧ (m.frame phys).flags.persist = false then update m.free phys true
        else m.free }
  else none

/-! ## Page faults -/

/-- `inode_get_page`: a page that is not cached is read into the frame `pick`. -/
def Machine.inodeGetPage (m : Machine) (key : ℕ × ℤ) (pick : ℕ) : Option (Machine × ℕ) :=
  match m.inodePage key with
  | some phys => some (m, phys)
  | none => do
    let m ← m.frameAllocate pick { persist := true, noclear := true, zerocount := true }
    return ({ m with
      memory := update m.memory pick (m.disk key)
      inodePage := update m.inodePage key (some pick) }, pick)

/-- `__get_phys_to_map`, with the callbacks `_fs_inode_map` and `_zero_map`. -/
def Machine.getPhysToMap (m : Machine) (reg : Region) (v pick : ℕ) : Option (Machine × ℕ) :=
  match reg.file.inode with
  | some inode => do
    let (m, phys) ← m.inodeGetPage (inode, reg.page v) pick
    return (m.frameAcquire phys, phys)
  | none => do
    let m ← m.frameAllocate pick {}
    return (m, pick)

/-- The flags of a fault. -/
structure Fault where
  exec : Bool
  write : Bool
  /-- `FAULT_ERROR_PERM` -/
  perm : Bool
  /-- `FAULT_ERROR_PRES` -/
  pres : Bool

/-- The part of `mmu_mappings_handle_fault` for pages that are not present. The result says whether
the handler goes on. -/
def Machine.faultPresent (m : Machine) (p : ℕ) (s : AddressSpace) (reg : Region) (v pick : ℕ) :
    Option (Machine × Bool) :=
  -- Another thread may have gotten here first.
  if (s.pages (v / pageSize)).isSome then some (m, true)
  else do
    let (m, phys) ← m.getPhysToMap reg v pick
    if phys = 0 then return (m, false)
    let frame := m.frame phys
    let readonly := (reg.flags = .priv ∧ (frame.flags.persist = true ∨ frame.count > 1)) ∨
      (frame.flags.dirty = false ∧ reg.flags = .shared)
    let pte := ⟨phys, reg.prot.write && !decide readonly, reg.prot.exec⟩
    return (m.setSpace p (s.virtualMap v pte), true)

/-- A write to a page of a private mapping: the page gets a copy of its frame. -/
def Machine.faultPrivate (m : Machine) (p : ℕ) (s : AddressSpace) (reg : Region) (v : ℕ) (pte : Pte)
    (pick : ℕ) : Option Machine := do
  let m ← m.frameAllocate pick {}
  let m := { m with memory := update m.memory pick (m.memory pte.phys) }
  let m := m.setSpace p ((s.virtualUnmap v).virtualMap v ⟨pick, reg.prot.write, reg.prot.exec⟩)
  m.frameRelease pte.phys

/-- A write to a page of a shared mapping: the frame gets dirty. -/
def Machine.faultShared (m : Machine) (p : ℕ) (s : AddressSpace) (reg : Region) (v : ℕ)
    (pte : Pte) :
    Machine :=
  let frame := m.frame pte.phys
  let m := { m with
    frame := update m.frame pte.phys ⟨{ frame.flags with dirty := true }, frame.count⟩ }
  m.setSpace p (s.virtualChattr v reg.prot.write reg.prot.exec)

/-- The part of `mmu_mappings_handle_fault` for pages that do not allow the access. -/
def Machine.faultPermission (m : Machine) (p : ℕ) (reg : Region) (v : ℕ) (flags : Fault)
    (pick : ℕ) : Option (Machine × Bool) :=
  if flags.exec then some (m, false)
  else if flags.write then do
    let s ← m.space p
    let pte ← s.pages (v / pageSize)
    match reg.flags with
    | .priv =>
      let m ← m.faultPrivate p s reg v pte pick
      return (m, true)
    | .shared => return (m.faultShared p s reg v pte, true)
  else some (m, true)

/-- `mmu_mappings_handle_fault`; `pick` and `pick'` are the frames for a page that is mapped and
for a copy. -/
def Machine.handleFault (m : Machine) (p addr : ℕ) (flags : Fault) (pick pick' : ℕ) :
    Option (Machine × Bool) := do
  let s ← m.space p
  match findRegion s.maps addr with
  | none => return (m, false)
  | some pos =>
    if flags.write && !pos.reg.prot.write then return (m, false)
    let v := pageFloor addr
    let (m, success) ←
      (if flags.pres then m.faultPresent p s pos.reg v pick else some (m, true))
    if success && flags.perm then m.faultPermission p pos.reg v flags pick'
    else return (m, success)

/-! ## Fork -/

/-- The inner loop of `process_copy_mappings`. -/
def Machine.copyPage (src dst : ℕ) (reg : Region) (m : Machine) (addr : ℕ) : Option Machine := do
  let s ← m.space src
  let t ← m.space dst
  match s.pages (addr / pageSize) with
  | none => return m
  | some pte =>
    let write := pte.write && decide (reg.flags = .shared)
    let s := if reg.flags = .shared then s else s.virtualChattr addr write pte.exec
    let m := (m.setSpace src s).frameAcquire pte.phys
    return m.setSpace dst (t.virtualMap addr ⟨pte.phys, write, pte.exec⟩)

/-- The outer loop of `process_copy_mappings`. -/
def Machine.copyRegion (src dst : ℕ) (m : Machine) (reg : Region) : Option Machine := do
  let t ← m.space dst
  let t ← mapRegionSetup t reg
  (pagesUpto reg.start (u64 (reg.start + reg.length))).foldlM (Machine.copyPage src dst reg)
    (m.setSpace dst t)

/-- `process_copy_mappings` -/
def Machine.processCopyMappings (m : Machine) (src dst : ℕ) : Option Machine := do
  let s ← m.space src
  s.maps.foldlM (Machine.copyRegion src dst) m

/-! ## Steps -/

/-- The steps of processes. -/
inductive Event where
  | fork (p child : ℕ)
  | fault (p addr : ℕ) (flags : Fault) (pick pick' : ℕ)
  | store (p addr : ℕ) (byte : UInt8)
  | mprotect (p virt len : ℕ) (prot : Prot)

/-- A store by user code, which faults if the entry of the page table is not writable. -/
def Machine.store (m : Machine) (p addr : ℕ) (byte : UInt8) : Option Machine := do
  let s ← m.space p
  let pte ← s.pages (addr / pageSize)
  if pte.write then
    return { m with
      memory := update m.memory pte.phys
        (update (m.memory pte.phys) (addr % pageSize) byte) }
  else none

/-- The step of an event. A child starts without mappings. -/
def Machine.exec (m : Machine) : Event → Option Machine
  | .fork p child =>
    if (m.space p).isSome ∧ (m.space child).isNone then
      (m.setSpace child ⟨[], fun _ => none⟩).processCopyMappings p child
    else none
  | .fault p addr flags pick pick' => (m.handleFault p addr flags pick pick').map Prod.fst
  | .store p addr byte => m.store p addr byte
  | .mprotect p virt len prot => do
    let s ← m.space p
    let (s, _) ← mapChangeProtect s virt len prot
    return m.setSpace p s

/-- The contents of a page of an inode. -/
def Machine.inodeContents (m : Machine) (key : ℕ × ℤ) : ℕ → UInt8 :=
  match m.inodePage key with
  | some phys => m.memory phys
  | none => m.disk key

/-- What the process reads at the address: the mapped page, or what a page fault would map. -/
def Machine.reads (m : Machine) (p addr : ℕ) : Option UInt8 := do
  let s ← m.space p
  match s.pages (addr / pageSize) with
  | some pte => return m.memory pte.phys (addr % pageSize)
  | none =>
    let reg ← regionAt s.maps addr
    match reg.file.inode with
    | some inode => return m.inodeContents (inode, reg.page (pageFloor addr)) (addr % pageSize)
    | none => return 0

end SeaKernel.Paging
