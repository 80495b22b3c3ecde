import SeaKernel.Errno
import SeaKernel.Lib.Word

/-!
# Memory mappings of a process

The regions of an address space and the calls of `kernel/mapping.c` that change them. A process
keeps its regions in a linked list; a region is searched from the head, and the new half of a
split region goes to the head.

All regions have pages of 4 KiB: this is the page size every caller of `map_region_setup` passes,
so that `maps` is the list of that page size and the `psize` of a region is left out. The page
table is a partial map from page numbers. The callbacks of a mapped file at `unmap` act on page
frames and files, which are not part of the address space.

The loop of `map_change_protect` need not end on arguments that are not page aligned. A round that
gets on gets on by a page at least, so the loop is run for as many rounds as the range has pages,
and gives `none` if it is not finished then. The same goes for the rounds on a page in
`map_region_remove`, where an aligned page takes two at most.

## Main definitions

* `Region`, `AddressSpace`
* `findRegion`, `splitRegion`, `mapRegionRemove`, `mapRegionSetup`, `mapChangeProtect`

## Main results

* `regionAt_eq_some`: in a list of disjoint regions, the region found is the one that covers
* `WellFormed.replace`: a region is replaced by disjoint parts of itself
-/

namespace SeaKernel.Mapping

open Function List Option

/-- `arch_mm_page_size(0)` -/
def pageSize : ℕ := 0x1000

/-- `addr & page_mask(0)` -/
def pageFloor (addr : ℕ) : ℕ := addr - addr % pageSize

/-- The protection bits. -/
structure Prot where
  read : Bool
  write : Bool
  exec : Bool
  deriving DecidableEq, Repr

/-- An open file, as far as the mapping code looks at it. -/
structure File where
  id : ℕ
  /-- `F_WRITE` -/
  write : Bool
  /-- The inode whose pages the `map` callback hands out; none for `zero_file`, the file behind
  anonymous memory. -/
  inode : Option ℕ
  deriving DecidableEq, Repr

/-- `MMAP_MAP_SHARED` or `MMAP_MAP_PRIVATE`; `sys_mmap` refuses both and neither. -/
inductive Sharing where
  | shared
  | priv
  deriving DecidableEq, Repr

/-- `struct map_region` -/
structure Region where
  start : ℕ
  length : ℕ
  file : File
  nodepage : ℤ
  prot : Prot
  flags : Sharing
  deriving DecidableEq, Repr

/-- An entry of the page table that is present. -/
structure Pte where
  phys : ℕ
  write : Bool
  exec : Bool
  deriving DecidableEq, Repr

/-- The regions of a process, from the head of the list, and its page table. -/
structure AddressSpace where
  maps : List Region
  pages : ℕ → Option Pte

/-! ## The page table -/

/-- `arch_mm_virtual_unmap` -/
def AddressSpace.virtualUnmap (s : AddressSpace) (virt : ℕ) : AddressSpace :=
  { s with pages := update s.pages (virt / pageSize) none }

/-- `arch_mm_virtual_chattr`, which does nothing where no page is mapped. -/
def AddressSpace.virtualChattr (s : AddressSpace) (virt : ℕ) (write exec : Bool) : AddressSpace :=
  let entry := (s.pages (virt / pageSize)).map fun pte => { pte with write := write, exec := exec }
  { s with pages := update s.pages (virt / pageSize) entry }

/-- `arch_mm_virtual_map`, which does nothing where a page is mapped. -/
def AddressSpace.virtualMap (s : AddressSpace) (virt : ℕ) (pte : Pte) : AddressSpace :=
  match s.pages (virt / pageSize) with
  | some _ => s
  | none => { s with pages := update s.pages (virt / pageSize) (some pte) }

/-! ## Regions -/

/-- The test of `__find_region`; the end of the region wraps at `2 ^ 64`. -/
def Region.Covers (r : Region) (addr : ℕ) : Prop :=
  addr ≥ r.start ∧ addr < u64 (r.start + r.length)

instance (r : Region) (addr : ℕ) : Decidable (r.Covers addr) :=
  inferInstanceAs (Decidable (_ ∧ _))

/-- The page of its file that a region has at an address. -/
def Region.page (reg : Region) (v : ℕ) : ℤ := reg.nodepage + ((v - reg.start) / pageSize : ℕ)

/-- A region in its place in the list. -/
structure Position where
  before : List Region
  reg : Region
  after : List Region

/-- The list around a region. -/
def Position.list (p : Position) : List Region := p.before ++ p.reg :: p.after

/-- `__find_region` -/
def findRegion : List Region → ℕ → Option Position
  | [], _ => none
  | r :: maps, addr =>
    if r.Covers addr then some ⟨[], r, maps⟩
    else (findRegion maps addr).map fun p => { p with before := r :: p.before }

/-- `__split_region`: what becomes of the old region, and the new one. The new region keeps the
`nodepage` of the old one. -/
def splitRegion (old : Region) (split : ℕ) : Region × Region :=
  let split := u64 (pageFloor (sub64 split 1) + pageSize)
  let newlen := sub64 split old.start
  ({ old with length := newlen }, { old with start := split, length := sub64 old.length newlen })

/-- The page addresses from `start` up to `stop`. -/
def pagesUpto (start stop : ℕ) : List ℕ :=
  (List.range ((stop - start + (pageSize - 1)) / pageSize)).map fun i => start + i * pageSize

/-- `__mapping_remove`: the region leaves the list and its pages are unmapped. -/
def mappingRemove (s : AddressSpace) (p : Position) : AddressSpace :=
  (pagesUpto p.reg.start (u64 (p.reg.start + p.reg.length))).foldl AddressSpace.virtualUnmap
    { s with maps := p.before ++ p.after }

/-- The end of a round of `map_region_remove`: a region without length is removed. -/
def settle (s : AddressSpace) (p : Position) : AddressSpace :=
  if p.reg.length = 0 then mappingRemove s p else { s with maps := p.list }

/-- The rounds of `map_region_remove` on one page. -/
def removePage : ℕ → AddressSpace → ℕ → Option AddressSpace
  | 0, _, _ => none
  | rounds + 1, s, v =>
    match findRegion s.maps v with
    | none => some s
    | some p =>
      if v = p.reg.start then
        some (settle (s.virtualUnmap v)
          { p with reg := { p.reg with
              start := u64 (p.reg.start + pageSize)
              length := if p.reg.length < pageSize then 0 else p.reg.length - pageSize } })
      else if v = pageFloor (u64 (p.reg.start + p.reg.length)) then
        some (settle (s.virtualUnmap v)
          { p with reg := { p.reg with length := p.reg.length - p.reg.length % pageSize } })
      else
        let (old, new) := splitRegion p.reg v
        removePage rounds (settle s { p with before := new :: p.before, reg := old }) v

/-- `map_region_remove` -/
def mapRegionRemove (s : AddressSpace) (start len : ℕ) : Option AddressSpace :=
  (pagesUpto start (u64 (start + len))).foldlM (removePage 2) s

/-- `map_region_setup` -/
def mapRegionSetup (s : AddressSpace) (reg : Region) : Option AddressSpace := do
  let s ← mapRegionRemove s reg.start reg.length
  return { s with maps := reg :: s.maps }

/-- The first split of a round of `map_change_protect`: the region is the new one. -/
def Position.startAt (p : Position) (start : ℕ) : Position :=
  if start ≠ p.reg.start then
    let (old, new) := splitRegion p.reg start
    { before := [], reg := new, after := p.before ++ old :: p.after }
  else p

/-- The second split of a round of `map_change_protect`: the region is the old one. -/
def Position.endAt (p : Position) (start rem : ℕ) : Position :=
  if rem < p.reg.length then
    let (old, new) := splitRegion p.reg (u64 (start + rem))
    { p with before := new :: p.before, reg := old }
  else p

/-- One round of `map_change_protect` on a region that may be changed, with the address the next
round starts at. -/
def protectRegion (s : AddressSpace) (virt len : ℕ) (prot : Prot) (start : ℕ) (p : Position) :
    AddressSpace × ℕ :=
  let p := (p.startAt start).endAt start (sub64 len (sub64 start virt))
  let p := { p with reg := { p.reg with prot := prot } }
  (AddressSpace.virtualChattr { s with maps := p.list } (pageFloor start) prot.write prot.exec,
    u64 (start + sub64 p.reg.length pageSize + pageSize))

/-- The loop of `map_change_protect`. -/
def protectLoop (virt len : ℕ) (prot : Prot) :
    ℕ → AddressSpace → ℕ → Option (AddressSpace × Except Errno Unit)
  | 0, s, start => if start < u64 (virt + len) then none else some (s, .ok ())
  | rounds + 1, s, start =>
    if start < u64 (virt + len) then
      match findRegion s.maps start with
      | none => protectLoop virt len prot rounds s (u64 (start + pageSize))
      | some p =>
        if prot.write && !p.reg.file.write then some (s, .error .eacces)
        else
          let (s, start) := protectRegion s virt len prot start p
          protectLoop virt len prot rounds s start
    else some (s, .ok ())

/-- `map_change_protect` -/
def mapChangeProtect (s : AddressSpace) (virt len : ℕ) (prot : Prot) :
    Option (AddressSpace × Except Errno Unit) :=
  protectLoop virt len prot (len / pageSize + 1) s virt

/-! ## Lists of regions -/

/-- The region found at an address. -/
def regionAt (maps : List Region) (addr : ℕ) : Option Region :=
  (findRegion maps addr).map Position.reg

/-- No address is covered by both regions. -/
def Region.Disjoint (r q : Region) : Prop := ∀ addr, r.Covers addr → ¬ q.Covers addr

/-- The bounds of the region are addresses of pages. -/
structure Region.Aligned (r : Region) : Prop where
  start_dvd : pageSize ∣ r.start
  length_dvd : pageSize ∣ r.length
  start_lt : r.start < 2 ^ 64
  length_lt : r.length < 2 ^ 64

/-- The regions are page aligned and disjoint. -/
structure WellFormed (maps : List Region) : Prop where
  aligned : ∀ r ∈ maps, r.Aligned
  disjoint : maps.Pairwise Region.Disjoint

/-- The regions are page aligned and disjoint, and none is empty or wraps. -/
structure Proper (maps : List Region) : Prop extends WellFormed maps where
  pos : ∀ r ∈ maps, 0 < r.length
  fits : ∀ r ∈ maps, r.start + r.length < 2 ^ 64

section Lists

variable {maps maps' rest : List Region} {r q : Region} {addr : ℕ} {p : Position}

theorem Region.Disjoint.symm (h : r.Disjoint q) : q.Disjoint r := fun a hq hr => h a hr hq

instance : Std.Symm Region.Disjoint := ⟨fun _ _ h => h.symm⟩

theorem Region.Covers.lt (hr : r.Aligned) (h : r.Covers addr) : r.start + r.length < 2 ^ 64 := by
  obtain ⟨hge, hlt⟩ := h
  have := hr.length_lt
  have := hr.start_lt
  simp only [u64] at hlt
  omega

theorem Region.covers_iff (h : r.start + r.length < 2 ^ 64) :
    r.Covers addr ↔ r.start ≤ addr ∧ addr < r.start + r.length := by
  rw [Covers, u64_of_lt h]

theorem findRegion_some (h : findRegion maps addr = some p) :
    maps = p.list ∧ p.reg.Covers addr := by
  induction maps generalizing p with
  | nil => cases h
  | cons r maps ih =>
    rw [findRegion] at h
    split at h
    · next hc =>
      obtain rfl := some.inj h
      exact ⟨rfl, hc⟩
    · obtain ⟨q, hq, rfl⟩ := map_eq_some_iff.mp h
      obtain ⟨hlist, hc⟩ := ih hq
      exact ⟨by rw [hlist]; rfl, hc⟩

theorem findRegion_none (h : findRegion maps addr = none) : ∀ r ∈ maps, ¬ r.Covers addr := by
  induction maps with
  | nil => simp
  | cons r maps ih =>
    rw [findRegion] at h
    split at h
    · cases h
    · next hc => exact forall_mem_cons.mpr ⟨hc, ih (map_eq_none_iff.mp h)⟩

theorem regionAt_cons :
    regionAt (r :: maps) addr = if r.Covers addr then some r else regionAt maps addr := by
  rw [regionAt, findRegion]
  split
  · rfl
  · rw [Option.map_map]
    rfl

open Position

theorem regionAt_eq_none : regionAt maps addr = none ↔ ∀ r ∈ maps, ¬ r.Covers addr := by
  refine ⟨fun h => findRegion_none (map_eq_none_iff.mp h), fun h => ?_⟩
  cases hf : findRegion maps addr with
  | none => simp [regionAt, hf]
  | some p =>
    obtain ⟨rfl, hc⟩ := findRegion_some hf
    exact absurd hc (h p.reg (by simp [list]))

section

variable (h : WellFormed maps)

include h

theorem WellFormed.perm (hp : maps.Perm maps') : WellFormed maps' where
  aligned r hr := h.aligned r (hp.mem_iff.mpr hr)
  disjoint := hp.pairwise h.disjoint fun hrq => hrq.symm

omit h in
theorem Proper.perm (h : Proper maps) (hp : maps.Perm maps') : Proper maps' where
  toWellFormed := h.toWellFormed.perm hp
  pos r hr := h.pos r (hp.mem_iff.mpr hr)
  fits r hr := h.fits r (hp.mem_iff.mpr hr)

theorem WellFormed.eq_of_covers (hr : r ∈ maps) (hq : q ∈ maps) (hrc : r.Covers addr)
    (hqc : q.Covers addr) : r = q := by
  by_contra hne
  exact h.disjoint.forall hr hq hne addr hrc hqc

/-- **The region found is the one that covers the address.** -/
theorem WellFormed.regionAt_eq_some : regionAt maps addr = some r ↔ r ∈ maps ∧ r.Covers addr := by
  constructor
  · intro hr
    obtain ⟨p, hp, rfl⟩ := map_eq_some_iff.mp hr
    obtain ⟨rfl, hc⟩ := findRegion_some hp
    exact ⟨by simp [list], hc⟩
  · rintro ⟨hr, hc⟩
    cases hq : regionAt maps addr with
    | none => exact absurd hc (regionAt_eq_none.mp hq r hr)
    | some q =>
      obtain ⟨p, hp, rfl⟩ := map_eq_some_iff.mp hq
      obtain ⟨rfl, hpc⟩ := findRegion_some hp
      rw [h.eq_of_covers (by simp [list]) hr hpc hc]

theorem WellFormed.regionAt_perm (hp : maps.Perm maps') (addr : ℕ) :
    regionAt maps' addr = regionAt maps addr := by
  refine ext fun r => ?_
  rw [(h.perm hp).regionAt_eq_some, h.regionAt_eq_some, hp.mem_iff]

end

/-- **A region is replaced by disjoint parts of itself.** -/
theorem WellFormed.replace (h : WellFormed (r :: rest)) {parts : List Region}
    (hparts : WellFormed parts) (hsub : ∀ q ∈ parts, ∀ addr, q.Covers addr → r.Covers addr) :
    WellFormed (parts ++ rest) ∧ ∀ addr, regionAt (parts ++ rest) addr =
      if r.Covers addr then regionAt parts addr else regionAt (r :: rest) addr := by
  obtain ⟨hr, hrest⟩ := pairwise_cons.mp h.disjoint
  have hwf : WellFormed (parts ++ rest) := by
    constructor
    · intro q hq
      rcases mem_append.mp hq with hq | hq
      · exact hparts.aligned q hq
      · exact h.aligned q (mem_cons_of_mem _ hq)
    · refine pairwise_append.mpr ⟨hparts.disjoint, hrest, fun q hq q' hq' a hqa => ?_⟩
      exact hr q' hq' a (hsub q hq a hqa)
  refine ⟨hwf, fun addr => ext fun q => ?_⟩
  rw [hwf.regionAt_eq_some, mem_append]
  split
  · next hc =>
    rw [hparts.regionAt_eq_some]
    refine ⟨fun ⟨hq, hqc⟩ => ⟨hq.resolve_right fun hq => hr q hq addr hc hqc, hqc⟩,
      fun ⟨hq, hqc⟩ => ⟨.inl hq, hqc⟩⟩
  · next hc =>
    rw [h.regionAt_eq_some, mem_cons]
    constructor
    · rintro ⟨hq | hq, hqc⟩
      · exact absurd (hsub q hq addr hqc) hc
      · exact ⟨.inr hq, hqc⟩
    · rintro ⟨rfl | hq, hqc⟩
      · exact absurd hqc hc
      · exact ⟨.inr hq, hqc⟩

theorem Position.mem_list (p : Position) : p.reg ∈ p.list := by simp [list]

theorem Position.perm (p : Position) : p.list.Perm (p.reg :: (p.before ++ p.after)) :=
  perm_middle

end Lists

end SeaKernel.Mapping
