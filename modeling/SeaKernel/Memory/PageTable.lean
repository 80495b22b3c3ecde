import SeaKernel.Lib.Radix

/-!
# Page tables

The four levels of tables of `arch/x86_64/kernel/mmu.c`. A memory gives the words of the frame at a
physical address. A word of an upper table that is not zero is the address of a table below, unless
its large bit is set; the walk of `arch_mm_virtual_map` does not look at that bit.

The frames that `mm_physical_allocate` hands out are an argument of `archMmVirtualMap`, one for each
level. The outputs of `arch_mm_virtual_getmap` are given if it returns true; the source also
writes them if it meets an empty word of the lowest table. Invalidations and the bits that a
processor sets on its own are left out.

## Main definitions

* `archMmVirtualMap`, `archMmVirtualUnmap`, `archMmVirtualGetmap`, `archMmVirtualChattr`:
  the functions of the source
* `slot`: what a word of a table is, as the tables are read back
* `path`: the indices of an address

## Main results

* `getmap_eq_find`: a translation is the leaf for the indices of the address
* `entry_phys`, `entry_flags`: an entry gives back what was put into it
-/

namespace SeaKernel.PageTable

open Radix BitVec

/-- `uint64_t`, `uintptr_t` -/
abbrev Word : Type := BitVec 64

/-- The flags of a mapping, an `int`. -/
abbrev Flags : Type := BitVec 32

/-- The words of the frames of physical memory. -/
abbrev Memory : Type := Word → Fin 512 → Word

/-! ## The words of a table -/

def mmuPteGlobal : Word := 0x100
def mmuPteLarge : Word := 0x80
def mmuPteDirty : Word := 0x40
def mmuPteAccessed : Word := 0x20
def mmuPteNocache : Word := 0x10
def mmuPteWritethr : Word := 0x8
def mmuPteUser : Word := 0x4
def mmuPteWrite : Word := 0x2
def mmuPtePresent : Word := 0x1
def mmuPteNoexec : Word := 0x8000000000000000
def mmuPtePhysMask : Word := 0x7FFFFFFFFFFFF000

def mapDevice : Flags := 0x2
def mapUser : Flags := 0x4
def mapWrite : Flags := 0x8
def mapPrivate : Flags := 0x10
def mapAccessed : Flags := 0x20
def mapExecute : Flags := 0x40
def mapDirty : Flags := 0x80

/-- The test of a bit. -/
def has {w : ℕ} (x bit : BitVec w) : Bool := x &&& bit != 0

/-- `__convert_attr_to_flags` -/
def convertAttrToFlags (attr : Word) : Flags :=
  (if has attr mmuPteAccessed then mapAccessed else 0) |||
  (if has attr mmuPteWritethr && has attr mmuPteNocache then mapDevice else 0) |||
  (if has attr mmuPteGlobal then 0 else mapPrivate) |||
  (if has attr mmuPteNoexec then 0 else mapExecute) |||
  (if has attr mmuPteUser then mapUser else 0) |||
  (if has attr mmuPteWrite then mapWrite else 0)

/-- `__convert_flags_to_attr` -/
def convertFlagsToAttr (flags : Flags) : Word :=
  (if has flags mapPrivate then 0 else mmuPteGlobal) |||
  (if has flags mapUser then mmuPteUser else 0) |||
  (if has flags mapWrite then mmuPteWrite else 0) |||
  (if has flags mapDevice then mmuPteNocache ||| mmuPteWritethr else 0) |||
  (if has flags mapExecute then 0 else mmuPteNoexec) |||
  (if has flags mapAccessed then mmuPteAccessed else 0) |||
  (if has flags mapDirty then mmuPteDirty else 0)

/-- The flags that an entry gives back: all but `MAP_DIRTY`. -/
def mapKept : Flags :=
  mapAccessed ||| mapDevice ||| mapPrivate ||| mapExecute ||| mapUser ||| mapWrite

/-- `arch_mm_page_size` -/
def archMmPageSize (level : ℕ) : ℕ :=
  if level = 0 then 0x1000 else if level = 1 then 2 * 1024 * 1024 else 1024 * 1024 * 1024

/-! ## The operations -/

/-- The tables of `struct vm_context`. -/
structure Tables where
  pml4Phys : Word
  mem : Memory

/-- `PML4_IDX` -/
def pml4Idx (virt : Word) : Fin 512 := Fin.ofNat 512 (virt.toNat >>> 39)

/-- `PDPT_IDX` -/
def pdptIdx (virt : Word) : Fin 512 := Fin.ofNat 512 (virt.toNat >>> 30)

/-- `PD_IDX` -/
def pdIdx (virt : Word) : Fin 512 := Fin.ofNat 512 (virt.toNat >>> 21)

/-- `PT_IDX` -/
def ptIdx (virt : Word) : Fin 512 := Fin.ofNat 512 (virt.toNat >>> 12)

/-- `mm_physical_allocate` of a cleared frame. -/
def mmPhysicalAllocate (m : Memory) (frame : Word) : Memory := Function.update m frame fun _ => 0

/-- The word for a table at `frame`. -/
def tableEntry (frame : Word) : Word := frame ||| mmuPtePresent ||| mmuPteWrite ||| mmuPteUser

/-- A step down: the table that an entry refers to. A missing table is allocated. -/
def nextTable (m : Memory) (table : Word) (idx : Fin 512) (frame : Word) : Memory × Word :=
  let m := if m table idx = 0 then store (mmPhysicalAllocate m frame) table idx (tableEntry frame)
    else m
  (m, m table idx &&& mmuPtePhysMask)

/-- The last step: an entry that is zero is set. -/
def setEntry (m : Memory) (table : Word) (idx : Fin 512) (entry : Word) : Memory × Bool :=
  if m table idx ≠ 0 then (m, false) else (store m table idx entry, true)

local instance neZeroThree : NeZero 3 := ⟨by decide⟩

/-- `arch_mm_virtual_map` -/
def archMmVirtualMap (frames : Fin 3 → Word) (s : Tables) (virt phys : Word) (pagesize : ℕ)
    (flags : Flags) : Tables × Bool :=
  let attr := convertFlagsToAttr flags
  let (m, pdpt) := nextTable s.mem s.pml4Phys (pml4Idx virt) (frames 0)
  if pagesize = archMmPageSize 2 then
    let (m, ok) := setEntry m pdpt (pdptIdx virt) (phys ||| attr ||| mmuPtePresent ||| mmuPteLarge)
    ({ s with mem := m }, ok)
  else
    let (m, pd) := nextTable m pdpt (pdptIdx virt) (frames 1)
    if pagesize = archMmPageSize 1 then
      let (m, ok) := setEntry m pd (pdIdx virt) (phys ||| attr ||| mmuPtePresent ||| mmuPteLarge)
      ({ s with mem := m }, ok)
    else
      let (m, pt) := nextTable m pd (pdIdx virt) (frames 2)
      let (m, ok) := setEntry m pt (ptIdx virt) (phys ||| attr ||| mmuPtePresent)
      ({ s with mem := m }, ok)

/-- The walk that the other three functions share: the level, the table and the index of the entry
for an address. The walk ends early at an entry with the large bit, and at an entry of an upper
table that is zero there is none. -/
def entryOf (s : Tables) (virt : Word) : Option (ℕ × Word × Fin 512) :=
  let e := s.mem s.pml4Phys (pml4Idx virt)
  if e = 0 then none
  else
    let pdpt := e &&& mmuPtePhysMask
    let e := s.mem pdpt (pdptIdx virt)
    if e = 0 then none
    else if has e mmuPteLarge then some (2, pdpt, pdptIdx virt)
    else
      let pd := e &&& mmuPtePhysMask
      let e := s.mem pd (pdIdx virt)
      if e = 0 then none
      else if has e mmuPteLarge then some (1, pd, pdIdx virt)
      else some (0, e &&& mmuPtePhysMask, ptIdx virt)

/-- `arch_mm_virtual_unmap` -/
def archMmVirtualUnmap (s : Tables) (virt : Word) : Tables × Word :=
  match entryOf s virt with
  | none => (s, 0)
  | some (_, table, idx) =>
    ({ s with mem := store s.mem table idx 0 }, s.mem table idx &&& mmuPtePhysMask)

/-- The outputs of `arch_mm_virtual_getmap`. -/
structure Translation where
  phys : Word
  flags : Flags
  size : ℕ
  deriving DecidableEq

/-- `arch_mm_virtual_getmap` -/
def archMmVirtualGetmap (s : Tables) (virt : Word) : Option Translation :=
  match entryOf s virt with
  | none => none
  | some (level, table, idx) =>
    let e := s.mem table idx
    if e = 0 then none
    else some ⟨e &&& mmuPtePhysMask, convertAttrToFlags (e &&& ~~~mmuPtePhysMask),
      archMmPageSize level⟩

/-- `arch_mm_virtual_chattr` -/
def archMmVirtualChattr (s : Tables) (virt : Word) (flags : Flags) : Tables × Bool :=
  let attr := convertFlagsToAttr flags
  match entryOf s virt with
  | none => (s, false)
  | some (level, table, idx) =>
    let e := s.mem table idx
    if e = 0 then (s, false)
    else
      let large := if level = 0 then 0 else mmuPteLarge
      let e := (e &&& mmuPtePhysMask) ||| attr ||| mmuPtePresent ||| large
      ({ s with mem := store s.mem table idx e }, true)

/-! ## What an entry gives back -/

section Bits

/-- A physical address of a page, which has at most 63 bits. -/
def PageAligned (phys : Word) : Prop := phys.toNat % 0x1000 = 0 ∧ phys.toNat < 2 ^ 63

instance (phys : Word) : Decidable (PageAligned phys) := inferInstanceAs (Decidable (_ ∧ _))

theorem and_physMask {phys : Word} (h : PageAligned phys) : phys &&& mmuPtePhysMask = phys := by
  have hmask : ∀ k : Fin 64, mmuPtePhysMask.getLsbD k = decide (12 ≤ k.val ∧ k.val < 63) := by
    decide
  refine eq_of_getLsbD_eq fun k hk => ?_
  rw [getLsbD_and, hmask ⟨k, hk⟩]
  by_cases hin : 12 ≤ k ∧ k < 63
  · rw [decide_eq_true hin, Bool.and_true]
  · -- The bits below the page and bit 63 are clear.
    rw [decide_eq_false hin, Bool.and_false]
    symm
    rw [getLsbD]
    rcases Nat.lt_or_ge k 12 with hlt | hge
    · have hlow := Nat.testBit_mod_two_pow phys.toNat 12 k
      rw [show (2 ^ 12 : ℕ) = 0x1000 from rfl, h.1, Nat.zero_testBit, decide_eq_true hlt,
        Bool.true_and] at hlow
      exact hlow.symm
    · refine Nat.testBit_lt_two_pow (h.2.trans_le (Nat.pow_le_pow_right (by decide) ?_))
      omega

theorem and_bit (flags bit : Flags) (k : Fin 32) (h : bit = BitVec.twoPow 32 k) :
    flags &&& bit = if has flags bit then bit else 0 := by
  rw [has, h, and_twoPow]
  cases flags.getLsbD k with
  | true =>
    have hne : ∀ k : Fin 32, twoPow 32 k ≠ 0 := by decide
    rw [if_pos rfl, if_pos (bne_iff_ne.mpr (hne k))]
  | false => simp

theorem and_mapKept (flags : Flags) : flags &&& mapKept =
      (if has flags mapAccessed then mapAccessed else 0) |||
      (if has flags mapDevice then mapDevice else 0) |||
      (if has flags mapPrivate then mapPrivate else 0) |||
      (if has flags mapExecute then mapExecute else 0) |||
      (if has flags mapUser then mapUser else 0) |||
      (if has flags mapWrite then mapWrite else 0) := by
  rw [← and_bit flags mapAccessed 5 rfl, ← and_bit flags mapDevice 1 rfl,
    ← and_bit flags mapPrivate 4 rfl, ← and_bit flags mapExecute 6 rfl,
    ← and_bit flags mapUser 2 rfl, ← and_bit flags mapWrite 3 rfl]
  simp only [← and_or_distrib_left]
  rfl

/-- The bits of an entry that are not of the address: what is put in besides the flags. -/
def Extra (extra : Word) : Prop := extra = mmuPtePresent ∨ extra = mmuPtePresent ||| mmuPteLarge

/-- **The flags come back**, without `MAP_DIRTY`. -/
theorem convertAttrToFlags_attr (flags : Flags) {extra : Word} (he : Extra extra) :
    convertAttrToFlags (convertFlagsToAttr flags ||| extra) = flags &&& mapKept := by
  rw [and_mapKept, convertFlagsToAttr]
  -- Nothing but the seven tests of the flags counts.
  generalize has flags mapAccessed = a, has flags mapDevice = b, has flags mapPrivate = c,
    has flags mapExecute = d, has flags mapUser = e, has flags mapWrite = f, has flags mapDirty = g
  rcases he with rfl | rfl
  · revert a b c d e f g
    decide
  · revert a b c d e f g
    decide

theorem attr_and_physMask (flags : Flags) : convertFlagsToAttr flags &&& mmuPtePhysMask = 0 := by
  rw [convertFlagsToAttr]
  generalize has flags mapAccessed = a, has flags mapDevice = b, has flags mapPrivate = c,
    has flags mapExecute = d, has flags mapUser = e, has flags mapWrite = f, has flags mapDirty = g
  revert a b c d e f g
  decide

/-- The word of an entry. -/
def entry (phys : Word) (flags : Flags) (extra : Word) : Word :=
  phys ||| convertFlagsToAttr flags ||| extra

variable {phys extra : Word} {flags : Flags}

theorem extra_and_physMask (he : Extra extra) : extra &&& mmuPtePhysMask = 0 := by
  rcases he with rfl | rfl <;> decide

theorem and_not_physMask {x : Word} (h : x &&& mmuPtePhysMask = 0) :
    x &&& ~~~mmuPtePhysMask = x := by
  have hall : mmuPtePhysMask ||| ~~~mmuPtePhysMask = allOnes 64 := by decide
  have hx : x &&& (mmuPtePhysMask ||| ~~~mmuPtePhysMask) = x := by rw [hall, and_allOnes]
  rw [and_or_distrib_left, h] at hx
  simpa using hx

/-- **The address comes back.** -/
theorem entry_phys (hphys : phys &&& mmuPtePhysMask = phys) (he : Extra extra) :
    entry phys flags extra &&& mmuPtePhysMask = phys := by
  rw [entry, and_or_distrib_right, and_or_distrib_right, hphys, attr_and_physMask,
    extra_and_physMask he]
  simp

/-- **The flags come back**, without `MAP_DIRTY`. -/
theorem entry_flags (hphys : phys &&& mmuPtePhysMask = phys) (he : Extra extra) :
    convertAttrToFlags (entry phys flags extra &&& ~~~mmuPtePhysMask) = flags &&& mapKept := by
  have haddr : phys &&& ~~~mmuPtePhysMask = 0 := by
    rw [← hphys, BitVec.and_assoc, BitVec.and_not_self]
    simp
  have hzero : (0 : Word) ||| convertFlagsToAttr flags = convertFlagsToAttr flags := by simp
  rw [entry, and_or_distrib_right, and_or_distrib_right, haddr,
    and_not_physMask (attr_and_physMask flags), and_not_physMask (extra_and_physMask he), hzero,
    convertAttrToFlags_attr flags he]

theorem and_eq_zero_of_or {x y bit : Word} (h : (x ||| y) &&& bit = 0) : y &&& bit = 0 := by
  rw [and_or_distrib_right] at h
  exact (or_eq_zero_iff.mp h).2

theorem entry_ne_zero (he : Extra extra) : entry phys flags extra ≠ 0 := by
  intro h
  have hextra := (or_eq_zero_iff.mp h).2
  rcases he with rfl | rfl <;> revert hextra <;> decide

theorem entry_large : has (entry phys flags (mmuPtePresent ||| mmuPteLarge)) mmuPteLarge := by
  rw [has, bne_iff_ne]
  intro h
  have hextra := and_eq_zero_of_or h
  revert hextra
  decide

theorem tableEntry_phys {frame : Word} (h : PageAligned frame) :
    tableEntry frame &&& mmuPtePhysMask = frame := by
  have hbits : ∀ bit : Word, bit &&& mmuPtePhysMask = 0 →
      (frame ||| bit) &&& mmuPtePhysMask = frame := by
    intro bit hbit
    rw [BitVec.and_or_distrib_right, and_physMask h, hbit]
    simp
  rw [tableEntry, BitVec.or_assoc, BitVec.or_assoc]
  exact hbits _ (by decide)

theorem tableEntry_ne_zero (frame : Word) : tableEntry frame ≠ 0 := by
  intro h
  have huser := (or_eq_zero_iff.mp h).2
  revert huser
  decide

theorem tableEntry_not_large {frame : Word} (h : PageAligned frame) :
    has (tableEntry frame) mmuPteLarge = false := by
  have haddr : frame &&& mmuPteLarge = 0 := by
    rw [← and_physMask h, BitVec.and_assoc]
    have hbit : mmuPtePhysMask &&& mmuPteLarge = 0 := by decide
    rw [hbit]
    simp
  have hflags : (mmuPtePresent ||| (mmuPteWrite ||| mmuPteUser)) &&& mmuPteLarge = 0 := by decide
  rw [has, tableEntry, BitVec.or_assoc, BitVec.or_assoc, BitVec.and_or_distrib_right, haddr, hflags]
  rfl

/-! ### A step down -/

variable {m : Memory} {table frame : Word} {idx : Fin 512}

theorem nextTable_of_ne (h : m table idx ≠ 0) (frame : Word) :
    nextTable m table idx frame = (m, m table idx &&& mmuPtePhysMask) := by
  rw [nextTable, if_neg h]

theorem nextTable_of_zero (h : m table idx = 0) (hframe : PageAligned frame) :
    nextTable m table idx frame =
      (store (mmPhysicalAllocate m frame) table idx (tableEntry frame), frame) := by
  rw [nextTable, if_pos h, store_self, tableEntry_phys hframe]

theorem setEntry_of_ne (h : m table idx ≠ 0) (e : Word) : setEntry m table idx e = (m, false) :=
  if_pos h

theorem setEntry_of_zero (h : m table idx = 0) (e : Word) :
    setEntry m table idx e = (store m table idx e, true) := if_neg (not_not.mpr h)

end Bits

/-! ## Tables as a radix tree -/

section Tree

/-- What a word is at a depth, as the tables are read back: the entries of the first table all
refer to tables, those of the last table to none. -/
def slot (d : ℕ) (e : Word) : Slot Word :=
  if e = 0 then .empty
  else if d = 0 then .table (e &&& mmuPtePhysMask)
  else if d < 3 then if has e mmuPteLarge then .leaf else .table (e &&& mmuPtePhysMask)
  else .leaf

/-- The indices of an address. -/
def path (virt : Word) : List (Fin 512) := [pml4Idx virt, pdptIdx virt, pdIdx virt, ptIdx virt]

/-- What is read back from an entry at a depth. -/
def translation (x : ℕ × Word) : Translation :=
  ⟨x.2 &&& mmuPtePhysMask, convertAttrToFlags (x.2 &&& ~~~mmuPtePhysMask),
    archMmPageSize (3 - x.1)⟩

variable {d : ℕ} {e : Word}

theorem slot_zero (d : ℕ) : slot d 0 = .empty := if_pos rfl

theorem slot_eq_empty (h : slot d e = .empty) : e = 0 := by
  by_contra he
  rw [slot, if_neg he] at h
  split at h
  · cases h
  · split at h
    · split at h <;> cases h
    · cases h

theorem slot_of_table (he : e ≠ 0) (hd : d = 0 ∨ d < 3 ∧ has e mmuPteLarge = false) :
    slot d e = .table (e &&& mmuPtePhysMask) := by
  rw [slot, if_neg he]
  rcases hd with rfl | ⟨hlt, hlarge⟩
  · rw [if_pos rfl]
  · split
    · rfl
    · rw [if_neg (by rw [hlarge]; decide)]

theorem slot_of_leaf (he : e ≠ 0) (hd : d ≠ 0) (hlarge : d < 3 → has e mmuPteLarge = true) :
    slot d e = .leaf := by
  rw [slot, if_neg he, if_neg hd]
  split
  · next hlt => rw [if_pos (hlarge hlt)]
  · rfl

variable {s : Tables} {virt table : Word} {level : ℕ} {idx : Fin 512}

theorem tableAt_next {m : Memory} {root f : Word} {p : List (Fin 512)} {i : Fin 512}
    (hp : tableAt slot m 0 root p = some f) (he : m f i ≠ 0)
    (hd : p.length = 0 ∨ p.length < 3 ∧ has (m f i) mmuPteLarge = false) :
    tableAt slot m 0 root (p ++ [i]) = some (m f i &&& mmuPtePhysMask) := by
  rw [tableAt_concat hp, Nat.zero_add, slot_of_table he hd]

theorem find_of_entryOf_none (h : entryOf s virt = none) :
    find slot s.mem 0 s.pml4Phys (path virt) = none := by
  rw [entryOf] at h
  dsimp only at h
  rw [path, find]
  split at h
  · next he => rw [he, slot_zero]
  · next he =>
    rw [slot_of_table he (.inl rfl)]
    dsimp only
    rw [find]
    split at h
    · next he => rw [he, slot_zero]
    · next he =>
      split at h
      · cases h
      · next hlarge =>
        rw [slot_of_table he (.inr ⟨by decide, by simpa using hlarge⟩)]
        dsimp only
        rw [find]
        split at h
        · next he => rw [he, slot_zero]
        · split at h <;> cases h

/-- **The walk of `entryOf`** leads to a word at which a lookup ends as well. -/
theorem exists_of_entryOf (h : entryOf s virt = some (level, table, idx)) :
    ∃ p rest, path virt = p ++ idx :: rest ∧
      tableAt slot s.mem 0 s.pml4Phys p = some table ∧ p.length + level = 3 ∧ level < 3 ∧
      ∀ g, slot p.length (s.mem table idx) ≠ .table g := by
  rw [entryOf] at h
  dsimp only at h
  have hroot : tableAt slot s.mem 0 s.pml4Phys [] = some s.pml4Phys := rfl
  split at h
  · cases h
  · next he₀ =>
    have hpdpt := tableAt_next hroot he₀ (.inl rfl)
    split at h
    · cases h
    · next he₁ =>
      split at h
      · next hlarge =>
        obtain ⟨rfl, rfl, rfl⟩ := h
        refine ⟨_, _, rfl, hpdpt, rfl, by decide, fun g hg => ?_⟩
        rw [slot_of_leaf he₁ (by simp) fun _ => hlarge] at hg
        cases hg
      · next hlarge =>
        have hpd := tableAt_next hpdpt he₁ (.inr ⟨by simp, by simpa using hlarge⟩)
        split at h
        · cases h
        · next he₂ =>
          split at h
          · next hlarge =>
            obtain ⟨rfl, rfl, rfl⟩ := h
            refine ⟨_, _, rfl, hpd, rfl, by decide, fun g hg => ?_⟩
            rw [slot_of_leaf he₂ (by simp) fun _ => hlarge] at hg
            cases hg
          · next hlarge =>
            have hpt := tableAt_next hpd he₂ (.inr ⟨by simp, by simpa using hlarge⟩)
            obtain ⟨rfl, rfl, rfl⟩ := h
            refine ⟨_, _, rfl, hpt, rfl, by decide, fun g hg => ?_⟩
            rw [slot] at hg
            split at hg
            · cases hg
            · cases hg

theorem find_of_entryOf {p rest : List (Fin 512)} (hpath : path virt = p ++ idx :: rest)
    (hp : tableAt slot s.mem 0 s.pml4Phys p = some table)
    (hslot : ∀ g, slot p.length (s.mem table idx) ≠ .table g) :
    find slot s.mem 0 s.pml4Phys (path virt) =
      if s.mem table idx = 0 then none else some (p.length, s.mem table idx) := by
  rw [hpath, find_append hp, Nat.zero_add, find]
  split
  · next g hg => exact absurd hg (hslot g)
  · next hg =>
    rw [if_neg]
    intro h0
    rw [h0, slot_zero] at hg
    cases hg
  · next hg => rw [if_pos (slot_eq_empty hg)]

/-- **A translation is the leaf for the indices of the address.** -/
theorem getmap_eq_find (s : Tables) (virt : Word) : archMmVirtualGetmap s virt =
      (find slot s.mem 0 s.pml4Phys (path virt)).map translation := by
  rw [archMmVirtualGetmap]
  cases hentry : entryOf s virt with
  | none =>
    rw [find_of_entryOf_none hentry]
    rfl
  | some x =>
    obtain ⟨level, table, idx⟩ := x
    obtain ⟨p, rest, hpath, hp, hlen, -, hslot⟩ := exists_of_entryOf hentry
    rw [find_of_entryOf hpath hp hslot]
    dsimp only
    split
    · rfl
    · rw [Option.map_some, translation, ← hlen, Nat.add_sub_cancel_left]

end Tree

end SeaKernel.PageTable
