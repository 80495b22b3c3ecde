import SeaKernel.Memory.Machine

/-!
# Unmapping

The calls that take pages out of an address space, on the machine: `map_region_remove`,
`map_region_setup` and `process_remove_mappings` of `kernel/mapping.c`. They change the regions and
the page table as `Mapping` says, and each page that was mapped is handed to the `unmap` callback of
its file, which gives the frame back. (The callback of a regular file then also lets go of the page
in the page cache, which is not part of this model.)

As there, `none` stands for a failed assertion and for a loop that does not end.
-/

namespace SeaKernel.Paging

open Mapping

/-- `__unmap_page_if_mapped`, with the release of the frame in the callbacks `_zero_unmap` and
`_fs_inode_unmap`. -/
def Machine.unmapPageIfMapped (m : Machine) (p v : ℕ) : Option Machine := do
  let s ← m.space p
  let m := m.setSpace p (s.virtualUnmap v)
  match s.pages (v / pageSize) with
  | none => return m
  | some pte => if pte.phys ≠ 0 then m.frameRelease pte.phys else return m

/-- `__mapping_remove` -/
def Machine.mappingRemove (m : Machine) (p : ℕ) (pos : Position) : Option Machine := do
  let s ← m.space p
  (pagesUpto pos.reg.start (u64 (pos.reg.start + pos.reg.length))).foldlM
    (fun m v => m.unmapPageIfMapped p v) (m.setSpace p { s with maps := pos.before ++ pos.after })

/-- The end of a round of `map_region_remove`. -/
def Machine.settle (m : Machine) (p : ℕ) (pos : Position) : Option Machine := do
  if pos.reg.length = 0 then m.mappingRemove p pos
  else
    let s ← m.space p
    return m.setSpace p { s with maps := pos.list }

/-- The rounds of `map_region_remove` on one page. -/
def Machine.removePage (p : ℕ) : ℕ → Machine → ℕ → Option Machine
  | 0, _, _ => none
  | rounds + 1, m, v => do
    let s ← m.space p
    match findRegion s.maps v with
    | none => return m
    | some pos =>
      if v = pos.reg.start then
        let m ← m.unmapPageIfMapped p v
        m.settle p { pos with reg := { pos.reg with
          start := u64 (pos.reg.start + pageSize)
          length := if pos.reg.length < pageSize then 0 else pos.reg.length - pageSize } }
      else if v = pageFloor (u64 (pos.reg.start + pos.reg.length)) then
        let m ← m.unmapPageIfMapped p v
        m.settle p { pos with reg := { pos.reg with
          length := pos.reg.length - pos.reg.length % pageSize } }
      else
        let (old, new) := splitRegion pos.reg v
        let m ← m.settle p { pos with before := new :: pos.before, reg := old }
        Machine.removePage p rounds m v

/-- `map_region_remove` -/
def Machine.mapRegionRemove (m : Machine) (p start len : ℕ) : Option Machine :=
  (pagesUpto start (u64 (start + len))).foldlM (Machine.removePage p 2) m

/-- `map_region_setup` -/
def Machine.mapRegionSetup (m : Machine) (p : ℕ) (reg : Region) : Option Machine := do
  let m ← m.mapRegionRemove p reg.start reg.length
  let s ← m.space p
  return m.setSpace p { s with maps := reg :: s.maps }

/-- `USER_TLS_REGION_START`, `USER_TLS_REGION_END` -/
def InTls (reg : Region) : Prop :=
  reg.start ≥ 0x700000000000 ∧ reg.start < 0x800000000000

instance (reg : Region) : Decidable (InTls reg) := inferInstanceAs (Decidable (_ ∧ _))

/-- The loop of `process_remove_mappings`: the regions that stay, and those still to be looked
at. -/
def Machine.removeMappings (p : ℕ) (userTlsToo : Bool) :
    List Region → List Region → Machine → Option Machine
  | _, [], m => some m
  | before, reg :: after, m =>
    if userTlsToo = false ∧ InTls reg then
      Machine.removeMappings p userTlsToo (before ++ [reg]) after m
    else do
      let m ← m.mappingRemove p ⟨before, reg, after⟩
      Machine.removeMappings p userTlsToo before after m

/-- `process_remove_mappings` -/
def Machine.processRemoveMappings (m : Machine) (p : ℕ) (userTlsToo : Bool) : Option Machine := do
  let s ← m.space p
  Machine.removeMappings p userTlsToo [] s.maps m

/-- `zero_file`, the file behind anonymous memory. -/
def zeroFile : File := ⟨0, true, none⟩

/-- `map_mmap` with `MMAP_MAP_ANON` -/
def Machine.mapMmap (m : Machine) (p virt len : ℕ) (prot : Prot) (flags : Sharing) (off : ℕ) :
    Option Machine :=
  m.mapRegionSetup p ⟨virt, len, zeroFile, (off / pageSize : ℕ), prot, flags⟩

/-- The steps of processes that have anonymous memory. -/
inductive Operation where
  | mmap (p virt len : ℕ) (prot : Prot) (flags : Sharing) (off : ℕ)
  | fault (p addr : ℕ) (flags : Fault) (pick pick' : ℕ)
  | fork (p child : ℕ)
  | remove (p start len : ℕ)
  | removeMappings (p : ℕ) (userTlsToo : Bool)

/-- The step of an operation. -/
def Machine.operate (m : Machine) : Operation → Option Machine
  | .mmap p virt len prot flags off => m.mapMmap p virt len prot flags off
  | .fault p addr flags pick pick' => (m.handleFault p addr flags pick pick').map Prod.fst
  | .fork p child => m.exec (.fork p child)
  | .remove p start len => m.mapRegionRemove p start len
  | .removeMappings p userTlsToo => m.processRemoveMappings p userTlsToo

/-- Memory is mapped over whole pages. -/
def Operation.Aligned : Operation → Prop
  | .mmap _ virt len _ _ _ => pageSize ∣ virt ∧ pageSize ∣ len ∧ virt < 2 ^ 64 ∧ len < 2 ^ 64
  | _ => True

/-- What an operation relies on. The process exists. The physical allocator returns a free frame to
every call of a page fault. A fault on a page that is not present says so, as the handler looks for
the entry otherwise. The range that is removed starts at a page: inside a page,
`map_region_remove` splits the region that it finds for ever. -/
def Operation.Ready (m : Machine) : Operation → Prop
  | .mmap p _ _ _ _ _ => (m.space p).isSome
  | .fault p addr flags pick pick' => ∃ s, m.space p = some s ∧
    ∀ pos, findRegion s.maps addr = some pos → ¬ (flags.write = true ∧ pos.reg.prot.write = false) →
      (flags.pres = true → s.pages (addr / pageSize) = none → m.free pick = true) ∧
      (flags.perm = true → flags.exec = false → flags.write = true →
        (flags.pres = true ∨ (s.pages (addr / pageSize)).isSome) ∧
        (pos.reg.flags = .priv → m.free pick' = true ∧
          (s.pages (addr / pageSize) = none → pick' ≠ pick)))
  | .fork p child => (m.space p).isSome ∧ m.space child = none
  | .remove p start _ => (m.space p).isSome ∧ pageSize ∣ start
  | .removeMappings p _ => (m.space p).isSome

end SeaKernel.Paging
