import SeaKernel.Memory.RegionAlgebra

/-!
# The memory calls

`sys_mmap` and `sys_mremap` of `kernel/sys/map.c`, with `mapping_resize` and `mapping_move` of
`kernel/mapping.c`. They work on the regions of a process and on `next_mmap_reg`, the address the
next mapping without a given address goes to.

References to files are not counted here. The open file that a descriptor stands for is an argument
of `sys_mmap`. `none` stands for a loop that does not end, and in `mapping_move` for a new range
that takes away from the region that is moved, to which the call keeps a pointer.

## Main results

* `mmap_inside_iff`: which calls of `sys_mmap` create a region inside of user space
-/

namespace SeaKernel.Mapping

open List Option

/-- The mappings of a process. -/
structure Process where
  space : AddressSpace
  /-- `next_mmap_reg` -/
  nextMmapReg : ℕ

/-- `USER_REGION_START` -/
def userRegionStart : ℕ := 0x1000

/-- `USER_REGION_END` -/
def userRegionEnd : ℕ := 0x800000000000

/-- `USER_MMAP_REGION_START` -/
def userMmapRegionStart : ℕ := 0x400000000000

/-- `USER_MMAP_REGION_END` -/
def userMmapRegionEnd : ℕ := 0x700000000000

/-- The flags of `sys_mmap`. -/
structure MmapFlags where
  shared : Bool
  priv : Bool
  fixed : Bool
  anon : Bool
  deriving DecidableEq, Repr

/-- An open file, as far as `sys_mmap` looks at it. -/
structure OpenFile where
  file : File
  /-- `F_READ` -/
  read : Bool
  /-- The file has a `map` operation. -/
  mappable : Bool
  deriving DecidableEq, Repr

/-- `zero_file` -/
def zeroFile : File := { id := 0, write := true, inode := none }

/-! ## `sys_mmap` -/

/-- The checks of the file. -/
def checkFile (file : Option OpenFile) (prot : Prot) (flags : MmapFlags) : Except Errno Unit :=
  match file with
  | none => if flags.anon then .ok () else .error .ebadf
  | some f =>
    if !f.mappable then .error .enotsup
    else if prot.write && !f.file.write && flags.shared then .error .eacces
    else if !f.read then .error .eacces
    else .ok ()

/-- The length, rounded up to pages. -/
def roundLength (len : ℕ) : ℕ := u64 (pageFloor (len - 1) + pageSize)

/-- The address is one that `sys_mmap` accepts from the caller. -/
def Hinted (addr : ℕ) : Prop := userRegionStart ≤ addr ∧ addr < userRegionEnd

instance (addr : ℕ) : Decidable (Hinted addr) := inferInstanceAs (Decidable (_ ∧ _))

/-- `process_allocate_mmap_region` -/
def allocateMmapRegion (p : Process) (len : ℕ) : Process × ℕ :=
  ({ p with nextMmapReg := u64 (p.nextMmapReg + len) }, p.nextMmapReg)

/-- The address of a new mapping: the one that was given, or the next free one. -/
def mmapPlace (p : Process) (addr len : ℕ) : Process × ℕ :=
  if Hinted addr then
    if addr ≥ userMmapRegionStart ∧ addr < userMmapRegionEnd ∧ u64 (addr + len) > p.nextMmapReg then
      ({ p with nextMmapReg := pageFloor (u64 (addr + len + pageSize)) }, addr)
    else (p, addr)
  else allocateMmapRegion p len

/-- The region `map_mmap` sets up. -/
def mmapRegion (virt len : ℕ) (prot : Prot) (flags : MmapFlags) (file : Option OpenFile) (off : ℕ) :
    Region where
  start := virt
  length := len
  -- Anonymous memory is a mapping of `zero_file`.
  file := if flags.anon then zeroFile else (file.map OpenFile.file).getD zeroFile
  nodepage := s32 (off / pageSize)
  prot := prot
  flags := if flags.shared then .shared else .priv

/-- `sys_mmap` -/
def sysMmap (p : Process) (addr len : ℕ) (prot : Prot) (flags : MmapFlags)
    (file : Option OpenFile) (off : ℕ) : Option (Process × Except Errno ℕ) :=
  if len = 0 ∨ flags.priv = flags.shared then some (p, .error .einval)
  else if u64 (roundLength len + addr) > userMmapRegionEnd then some (p, .error .enomem)
  else if ¬ Hinted addr ∧ flags.fixed then some (p, .error .enomem)
  else
    match checkFile file prot flags with
    | .error e => some (p, .error e)
    | .ok () => do
      let (p, virt) := mmapPlace p addr (roundLength len)
      let space ← mapRegionSetup p.space
        (mmapRegion virt (roundLength len) prot flags file off)
      return ({ p with space := space }, .ok virt)

/-! ## `sys_mremap` -/

/-- The search of `mapping_resize` for a region behind `a`. A range that ends in the last page of
the address space is never left: the search goes round until it finds something. -/
def gapTaken (maps : List Region) (a stop : ℕ) : Option Bool :=
  if stop + pageSize ≤ 2 ^ 64 ∨ stop ≤ a then
    some ((pagesUpto a stop).any fun tmp => (findRegion maps tmp).isSome)
  else if (pagesUpto a (2 ^ 64) ++ pagesUpto 0 a).any fun tmp => (findRegion maps tmp).isSome then
    some true
  else none

/-- `mapping_resize` on a region that is long enough. -/
def resizeRegion (p : Process) (pos : Position) (virt oldlen newlen : ℕ) :
    Option (Process × Except Errno Unit) :=
  if newlen < oldlen then
    -- The region is split at its old length, and what is behind it is removed.
    let (old, split) := splitRegion pos.reg (u64 (virt + oldlen))
    some ({ p with space :=
      mappingRemove p.space ⟨[], split, pos.before ++ old :: pos.after⟩ }, .ok ())
  else if pos.reg.length < newlen then do
    let stop := u64 (pos.reg.start + pos.reg.length)
    let taken ← gapTaken p.space.maps (u64 (pageFloor (sub64 stop 1) + pageSize))
      (u64 (virt + newlen))
    if taken then return (p, .error .enomem)
    else return (
      { space := { p.space with
          maps := pos.before ++ { pos.reg with length := newlen } :: pos.after }
        nextMmapReg := u64 (p.nextMmapReg + (pageFloor (newlen - oldlen) + pageSize)) }, .ok ())
  else some (p, .ok ())

/-- `mapping_resize` -/
def mappingResize (p : Process) (virt oldlen newlen : ℕ) : Option (Process × Except Errno Unit) :=
  if oldlen = newlen then some (p, .ok ())
  else
    match findRegion p.space.maps virt with
    | none => some (p, .error .efault)
    | some pos =>
      if pos.reg.start ≠ virt ∨ pos.reg.length < oldlen then some (p, .error .efault)
      else resizeRegion p pos virt oldlen newlen

/-- The pages of the old range, one after the other, are mapped in the new one. -/
def movePages (s : AddressSpace) (old new n : ℕ) : AddressSpace :=
  (List.range n).foldl (fun s i =>
    match s.pages ((old + i * pageSize) / pageSize) with
    | none => s
    | some pte => (s.virtualMap (u64 (new + i * pageSize)) pte).virtualUnmap (old + i * pageSize)) s

/-- `mapping_move` -/
def mappingMove (p : Process) (old oldlen newlen new : ℕ) : Option (Process × Except Errno Unit) :=
  match findRegion p.space.maps old with
  | none => some (p, .error .efault)
  | some pos =>
    if ∃ v ∈ pagesUpto new (u64 (new + newlen)), pos.reg.Covers v then none
    else if u64 (old + oldlen) + pageSize ≤ 2 ^ 64 ∨ u64 (old + oldlen) ≤ old then do
      let s ← mapRegionSetup p.space { pos.reg with start := new, length := newlen }
      let s := movePages s old new (pagesUpto old (u64 (old + oldlen))).length
      let s := (pagesUpto pos.reg.start (u64 (pos.reg.start + pos.reg.length))).foldl
        AddressSpace.virtualUnmap { s with maps := s.maps.erase pos.reg }
      return ({ p with space := s }, .ok ())
    else none

/-- `sys_mremap`; `new` is an address given with `MREMAP_FIXED`. -/
def sysMremap (p : Process) (old oldsz newsz : ℕ) (mayMove fixed : Bool) (new : ℕ) :
    Option (Process × Except Errno ℕ) :=
  if newsz = 0 ∨ oldsz = 0 ∨ old ≠ pageFloor old ∨ new ≠ pageFloor new then
    some (p, .error .einval)
  else do
    let (p, result) ← mappingResize p old oldsz newsz
    match result with
    | .ok () => return (p, .ok old)
    | .error e =>
      if !mayMove || oldsz > newsz then return (p, .error e)
      else
        let (p, new) := if fixed ∧ new ≠ 0 then (p, new) else allocateMmapRegion p newsz
        let (p, result) ← mappingMove p old oldsz newsz new
        return (p, result.map fun _ => new)

/-! ## Where `sys_mmap` puts a region -/

/-- The region is not empty and lies between the start of user space and the end of the area for
mappings. -/
def Region.InUserSpace (r : Region) : Prop :=
  0 < r.length ∧ userRegionStart ≤ r.start ∧ r.start + r.length ≤ userMmapRegionEnd

/-- The condition on the arguments and on `next_mmap_reg`: rounding up the length does not wrap,
the end of a given range does not wrap either, and a range chosen by the kernel ends within the
area for mappings. -/
def MmapFits (p : Process) (addr len : ℕ) : Prop :=
  len + pageSize ≤ 2 ^ 64 ∧
    if Hinted addr then addr + pageCeil len < 2 ^ 64
    else userRegionStart ≤ p.nextMmapReg ∧ p.nextMmapReg + pageCeil len ≤ userMmapRegionEnd

section Mmap

variable {p p' : Process} {addr len virt off : ℕ} {prot : Prot} {flags : MmapFlags}
  {file : Option OpenFile}

theorem roundLength_of_le (hpos : 0 < len) (h : len + pageSize ≤ 2 ^ 64) :
    roundLength len = pageCeil len := by
  simp only [roundLength, pageCeil, pageFloor, u64, pageSize] at *
  omega

theorem roundLength_of_gt (hlen : len < 2 ^ 64) (h : 2 ^ 64 < len + pageSize) :
    roundLength len = 0 := by
  simp only [roundLength, pageFloor, u64, pageSize] at *
  omega

theorem pageCeil_pos (hpos : 0 < len) : 0 < pageCeil len := lt_of_lt_of_le hpos (le_pageCeil len)

/-- **What a successful `sys_mmap` has checked and done.** -/
theorem sysMmap_ok (h : sysMmap p addr len prot flags file off = some (p', .ok virt)) :
    0 < len ∧ u64 (roundLength len + addr) ≤ userMmapRegionEnd ∧
      (Hinted addr ∨ flags.fixed = false) ∧ virt = (mmapPlace p addr (roundLength len)).2 ∧
      p'.nextMmapReg = (mmapPlace p addr (roundLength len)).1.nextMmapReg ∧
      mapRegionSetup p.space (mmapRegion virt (roundLength len) prot flags file off) =
        some p'.space := by
  have hspace : (mmapPlace p addr (roundLength len)).1.space = p.space := by
    unfold mmapPlace allocateMmapRegion
    split
    · split <;> rfl
    · rfl
  unfold sysMmap at h
  split at h
  · simp at h
  · next hargs =>
    split at h
    · simp at h
    · next hend =>
      split at h
      · simp at h
      · next hfixed =>
        split at h
        · simp at h
        · simp only [Option.bind_eq_bind, Option.bind_eq_some_iff, Option.pure_def,
            some.injEq, Prod.mk.injEq, Except.ok.injEq] at h
          obtain ⟨space, hsetup, rfl, rfl⟩ := h
          refine ⟨by omega, by omega, ?_, rfl, rfl, ?_⟩
          · by_cases hh : Hinted addr
            · exact .inl hh
            · refine .inr (Bool.eq_false_of_not_eq_true fun hf => hfixed ⟨hh, hf⟩)
          · rw [← hspace]
            exact hsetup

theorem mapRegionSetup_head {s s' : AddressSpace} {reg : Region}
    (h : mapRegionSetup s reg = some s') : s'.maps.head? = some reg := by
  unfold mapRegionSetup at h
  simp only [Option.bind_eq_bind, Option.bind_eq_some_iff, Option.pure_def, Option.some.injEq] at h
  obtain ⟨s₁, -, rfl⟩ := h
  rfl

/-- **User mappings stay in user space exactly under the condition.** The region that a successful
call has created is the first one of the list. -/
theorem mmap_inside_iff (p : Process) (addr len : ℕ) (prot : Prot) (flags : MmapFlags)
    (file : Option OpenFile) (off : ℕ) (p' : Process) (virt : ℕ) (hlen : len < 2 ^ 64)
    (h : sysMmap p addr len prot flags file off = some (p', .ok virt)) :
    (∃ r, p'.space.maps.head? = some r ∧ r.InUserSpace) ↔ MmapFits p addr len := by
  obtain ⟨hpos, hend, -, hvirt, -, hsetup⟩ := sysMmap_ok h
  rw [mapRegionSetup_head hsetup]
  simp only [some.injEq, exists_eq_left', Region.InUserSpace, mmapRegion, MmapFits]
  by_cases hround : len + pageSize ≤ 2 ^ 64
  · -- The length is not zero after rounding, and the place depends on the given address.
    rw [roundLength_of_le hpos hround] at hend hvirt ⊢
    have hceil := pageCeil_pos hpos
    simp only [hround, hceil, true_and]
    by_cases hhint : Hinted addr
    · have hv : virt = addr := by
        rw [hvirt, mmapPlace, if_pos hhint]
        split <;> rfl
      rw [if_pos hhint, hv]
      obtain ⟨hge, hlt⟩ := hhint
      simp only [u64, userMmapRegionEnd, userRegionEnd, userRegionStart] at *
      omega
    · have hv : virt = p.nextMmapReg := by
        rw [hvirt, mmapPlace, if_neg hhint]
        rfl
      rw [if_neg hhint, hv]
  · rw [roundLength_of_gt hlen (by omega)]
    simp only [lt_irrefl, false_and, hround]

/-- A process that has just been created. -/
def freshProcess : Process where
  space := noMappings
  nextMmapReg := userMmapRegionStart

/-- Private anonymous memory. -/
def privateAnon : MmapFlags := { shared := false, priv := true, fixed := false, anon := true }

theorem mmap_onePage_inside : ∃ p', sysMmap freshProcess 0 1 readOnly privateAnon none 0 =
      some (p', .ok 0x400000000000) ∧
    ∃ r, p'.space.maps.head? = some r ∧ r.InUserSpace := by
  have hok : (sysMmap freshProcess 0 1 readOnly privateAnon none 0).map
      (fun x => x.2.toOption) = some (some 0x400000000000) := by decide +kernel
  obtain ⟨⟨p', result⟩, hcall, hresult⟩ := map_eq_some_iff.mp hok
  cases result with
  | error e => cases hresult
  | ok virt =>
    obtain rfl : virt = 0x400000000000 := some.inj hresult
    exact ⟨p', hcall, (mmap_inside_iff _ _ _ _ _ _ _ _ _ (by decide) hcall).mpr
      ⟨by decide, by decide⟩⟩

/-- A call for all of the address space from `0x1000` on: the end of the range wraps to 0, and
passes the check. -/
theorem mmap_wraps : ∃ p', sysMmap freshProcess 0x1000 (2 ^ 64 - 0x1000) readOnly privateAnon
      none 0 = some (p', .ok 0x1000) ∧
    ¬ ∃ r, p'.space.maps.head? = some r ∧ r.InUserSpace := by
  have hok : (sysMmap freshProcess 0x1000 (2 ^ 64 - 0x1000) readOnly privateAnon none 0).map
      (fun x => (x.2.toOption, x.1.space.maps.head?.map fun r => (r.start, r.length))) =
        some (some 0x1000, some (0x1000, 2 ^ 64 - 0x1000)) := by decide +kernel
  obtain ⟨⟨p', result⟩, hcall, hresult⟩ := map_eq_some_iff.mp hok
  cases result with
  | error e => cases hresult
  | ok virt =>
    obtain ⟨hvirt, hhead⟩ := Prod.mk.inj hresult
    obtain rfl : virt = 0x1000 := some.inj hvirt
    refine ⟨p', hcall, ?_⟩
    rintro ⟨r, hr, -, -, hend⟩
    dsimp only at hhead
    rw [hr, map_some, some.injEq, Prod.mk.injEq] at hhead
    rw [hhead.1, hhead.2] at hend
    exact absurd hend (by decide)

end Mmap

end SeaKernel.Mapping
