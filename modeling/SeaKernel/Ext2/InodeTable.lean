import SeaKernel.Ext2.ByteAccess
import SeaKernel.Lib.LittleEndian

/-!
# The inode table

`ext2_inode_get` and `ext2_inode_write` of `drivers/ext2/ext2.c`. The group descriptor names the
block where the inode table of its group starts, and inodes have `ext2_sb_inodesize` bytes there.
But what is read and written is a `struct ext2_inode`, which has 132 bytes: with inodes of 128 bytes
a write reaches into the next inode, and changes its mode and its owner.

An inode in memory is the list of the bytes of the structure, which is packed.

## Main results

* `Layout.inodeGet_eq`, `Layout.bytes_inodeWrite`: what is read and written
* `Layout.Tables.slots_apart`: the places of two inodes
* `inode_writes_local_iff`: the volumes where a write changes its own inode only
-/

namespace SeaKernel.Ext2

open List Option Nat BlockDev

open WriteData (Geometry Call pageSize)

/-- The fields of the superblock that place groups and inodes. The descriptors are on the volume,
inode numbers have 32 bits, and inodes have at least 128 bytes. -/
structure Layout extends Geometry where
  firstDataBlock : ℕ
  blocksPerGroup : ℕ
  inodesPerGroup : ℕ
  revision : ℕ
  inodeSize : ℕ
  firstDataBlock_lt : firstDataBlock < blockCount
  blocks_pos : 0 < blocksPerGroup
  inodes_pos : 0 < inodesPerGroup
  descriptors_le : (firstDataBlock + 1) * toGeometry.blocksize +
    (blockCount - firstDataBlock + (blocksPerGroup - 1)) / blocksPerGroup * 32 ≤
      blockCount * toGeometry.blocksize
  inodes_lt :
    (blockCount - firstDataBlock + (blocksPerGroup - 1)) / blocksPerGroup * inodesPerGroup < 2 ^ 32
  inodeSize_ge : revision = 0 ∨ 128 ≤ inodeSize

/-- `sizeof(struct ext2_blockgroup)` -/
def sizeofBlockgroup : ℕ := 32

/-- `sizeof(struct ext2_inode)`: the sizes of its fields, from `mode` to `pad`. -/
def sizeofInode : ℕ := [2, 2, 4, 4, 4, 4, 4, 2, 2, 4, 4, 4, 15 * 4, 4, 4, 4, 20].sum

theorem sizeofInode_eq : sizeofInode = 132 := rfl

namespace Layout

/-- The number of block groups. -/
def groups (L : Layout) : ℕ :=
  (L.blockCount - L.firstDataBlock + (L.blocksPerGroup - 1)) / L.blocksPerGroup

/-- `ext2_sb_inodesize` -/
def inodesize (L : Layout) : ℕ := if L.revision = 0 then 128 else L.inodeSize

/-- Where the descriptor of a group is. -/
def descAddr (L : Layout) (gid : ℕ) : ℕ :=
  u32 (L.firstDataBlock + 1) * L.blocksize + gid * sizeofBlockgroup

/-- Where an inode is, by the descriptor of its group, which has `inode_table` after eight bytes. -/
def inodeAddr (L : Layout) (group : List UInt8) (intid : ℕ) : ℕ :=
  littleEndian (field group 8 4) * L.blocksize + L.inodesize * (intid % L.inodesPerGroup)

/-- `ext2_inode_get`. The two frames are what the memory for the descriptor's block and for the
inode's block holds. -/
def inodeGet (L : Layout) (bd : BlockDev L.toGeometry) (extid : ℕ) (frame frame' : ℕ → UInt8) :
    BlockDev L.toGeometry × List UInt8 :=
  let intid := sub64 extid 1
  let groupnr := intid / L.inodesPerGroup
  let r := bd.readData (L.descAddr groupnr) sizeofBlockgroup frame
  r.1.readData (L.inodeAddr r.2 intid) sizeofInode frame'

/-- `ext2_inode_write` -/
def inodeWrite (L : Layout) (bd : BlockDev L.toGeometry) (extid : ℕ) (eno : List UInt8)
    (frame frame' : ℕ → UInt8) : BlockDev L.toGeometry :=
  let intid := sub64 extid 1
  let groupnr := intid / L.inodesPerGroup
  let r := bd.readData (L.descAddr groupnr) sizeofBlockgroup frame
  r.1.writeData (L.inodeAddr r.2 intid) eno frame'

/-! ## Where things are -/

variable {L : Layout}

/-- The numbers of the inodes of the volume. -/
def Valid (L : Layout) (ino : ℕ) : Prop := 0 < ino ∧ (ino - 1) / L.inodesPerGroup < L.groups

/-- The block where the inode table of a group starts. -/
def table (L : Layout) (bytes : ℕ → UInt8) (gid : ℕ) : ℕ :=
  littleEndian (memread bytes (L.descAddr gid + 8) 4)

/-- The size of an inode table, which takes whole blocks. -/
def tableBytes (L : Layout) : ℕ :=
  (L.inodesPerGroup * L.inodesize + (L.blocksize - 1)) / L.blocksize * L.blocksize

/-- The inode tables are on the volume, apart from the descriptors and from each other. -/
structure Tables (L : Layout) (bytes : ℕ → UInt8) : Prop where
  onVolume : ∀ g < L.groups,
    L.table bytes g * L.blocksize + L.tableBytes ≤ L.blockCount * L.blocksize
  descriptors : ∀ g < L.groups, L.descAddr L.groups ≤ L.table bytes g * L.blocksize ∨
    L.table bytes g * L.blocksize + L.tableBytes ≤ L.descAddr 0
  apart : ∀ g < L.groups, ∀ g' < L.groups, g ≠ g' →
    L.table bytes g * L.blocksize + L.tableBytes ≤ L.table bytes g' * L.blocksize ∨
      L.table bytes g' * L.blocksize + L.tableBytes ≤ L.table bytes g * L.blocksize

/-- Where an inode is. -/
def slot (L : Layout) (bytes : ℕ → UInt8) (ino : ℕ) : ℕ :=
  L.table bytes ((ino - 1) / L.inodesPerGroup) * L.blocksize +
    L.inodesize * ((ino - 1) % L.inodesPerGroup)

theorem groups_pos : 0 < L.groups := by
  have := L.firstDataBlock_lt
  have := L.blocks_pos
  exact div_pos (by omega) (by omega)

theorem inodesize_ge : 128 ≤ L.inodesize := by
  unfold inodesize
  split
  · exact le_rfl
  · next h => exact L.inodeSize_ge.resolve_left h

theorem valid_one : L.Valid 1 := ⟨one_pos, by simpa using groups_pos⟩

theorem valid_two (h : 2 ≤ L.inodesPerGroup) : L.Valid 2 :=
  ⟨two_pos, by simpa [div_eq_of_lt h] using groups_pos⟩

theorem Valid.sub_lt {ino : ℕ} (h : L.Valid ino) : ino - 1 < L.groups * L.inodesPerGroup :=
  (div_lt_iff_lt_mul L.inodes_pos).mp h.2

theorem Valid.sub64_eq {ino : ℕ} (h : L.Valid ino) : sub64 ino 1 = ino - 1 := by
  have hlt := h.sub_lt
  have hcount : L.groups * L.inodesPerGroup < 2 ^ 32 := L.inodes_lt
  exact sub64_of_le (by omega) h.1

theorem descAddr_eq (gid : ℕ) :
    L.descAddr gid = (L.firstDataBlock + 1) * L.blocksize + gid * 32 := by
  have hlt := L.firstDataBlock_lt
  have hcount := L.blockCount_lt
  rw [descAddr, u32_of_lt (by omega)]
  rfl

theorem descAddr_le {gid : ℕ} (h : gid < L.groups) : L.descAddr 0 ≤ L.descAddr gid ∧
      L.descAddr gid + sizeofBlockgroup ≤ L.descAddr L.groups := by
  simp only [descAddr_eq, sizeofBlockgroup]
  omega

theorem descAddr_groups_le : L.descAddr L.groups ≤ L.blockCount * L.blocksize := by
  rw [descAddr_eq]
  exact L.descriptors_le

theorem le_tableBytes : L.inodesPerGroup * L.inodesize ≤ L.tableBytes := by
  have hpos := L.blocksize_pos
  have hdiv := lt_div_mul_add hpos (a := L.inodesPerGroup * L.inodesize + (L.blocksize - 1))
  rw [tableBytes]
  omega

theorem blocksize_le_tableBytes : L.blocksize ≤ L.tableBytes := by
  have hpos := L.blocksize_pos
  have hsize : 0 < L.inodesPerGroup * L.inodesize :=
    mul_pos L.inodes_pos (lt_of_lt_of_le (by decide) inodesize_ge)
  have hone : 1 ≤ (L.inodesPerGroup * L.inodesize + (L.blocksize - 1)) / L.blocksize :=
    (one_le_div_iff hpos).mpr (by omega)
  exact Nat.le_mul_of_pos_left _ hone

/-- The inodes do not reach into each other: they have the size of the structure, or there is one in
each group. -/
def Roomy (L : Layout) : Prop := sizeofInode ≤ L.inodesize ∨ L.inodesPerGroup = 1

theorem Roomy.slot_le (h : L.Roomy) (intid : ℕ) :
    L.inodesize * (intid % L.inodesPerGroup) + sizeofInode ≤ L.tableBytes := by
  rcases h with hsize | hone
  · have hmod : intid % L.inodesPerGroup + 1 ≤ L.inodesPerGroup := mod_lt _ L.inodes_pos
    have hmul := mul_le_mul_left L.inodesize hmod
    rw [mul_succ, mul_comm L.inodesize L.inodesPerGroup] at hmul
    exact (Nat.add_le_add_left hsize _).trans (hmul.trans le_tableBytes)
  · have hpage : pageSize ≤ L.blocksize := L.page_le
    have hbytes := L.blocksize_le_tableBytes
    rw [hone, mod_one, mul_zero, sizeofInode_eq]
    have : pageSize = 4096 := rfl
    omega

namespace Tables

variable {bytes : ℕ → UInt8} {i j : ℕ}

variable (h : L.Tables bytes)

include h

theorem slot_onVolume (hroomy : L.Roomy) (hi : L.Valid i) :
    L.slot bytes i + sizeofInode ≤ L.blockCount * L.blocksize := by
  have htable := h.onVolume _ hi.2
  have hslot := hroomy.slot_le (i - 1)
  rw [slot]
  omega

theorem slot_descriptors (hroomy : L.Roomy) (hi : L.Valid i) {gid : ℕ} (hgid : gid < L.groups) :
    L.slot bytes i + sizeofInode ≤ L.descAddr gid ∨
      L.descAddr gid + sizeofBlockgroup ≤ L.slot bytes i := by
  have hslot := hroomy.slot_le (i - 1)
  have hdesc := descAddr_le hgid
  have hsize : sizeofBlockgroup = 32 := rfl
  rw [slot]
  rcases h.descriptors _ hi.2 with hafter | hbefore <;> omega

/-- **The places of two inodes are apart.** -/
theorem slots_apart (hroomy : L.Roomy) (hi : L.Valid i) (hj : L.Valid j) (hne : i ≠ j) :
    L.slot bytes i + sizeofInode ≤ L.slot bytes j ∨
      L.slot bytes j + sizeofInode ≤ L.slot bytes i := by
  have hsloti := hroomy.slot_le (i - 1)
  have hslotj := hroomy.slot_le (j - 1)
  have hi0 := hi.1
  have hj0 := hj.1
  rw [slot, slot]
  by_cases hgroup : (i - 1) / L.inodesPerGroup = (j - 1) / L.inodesPerGroup
  · -- In one table the inodes have different places, which are a size apart.
    have hplace : (i - 1) % L.inodesPerGroup ≠ (j - 1) % L.inodesPerGroup := by
      intro hmod
      have heqi := div_add_mod' (i - 1) L.inodesPerGroup
      have heqj := div_add_mod' (j - 1) L.inodesPerGroup
      rw [hgroup, hmod] at heqi
      omega
    have hsize : sizeofInode ≤ L.inodesize := by
      refine hroomy.resolve_right fun hone => hplace ?_
      rw [hone, mod_one, mod_one]
    rw [hgroup]
    rcases lt_or_gt_of_ne hplace with hlt | hgt
    · have hmul := mul_le_mul_left L.inodesize (succ_le_of_lt hlt)
      rw [succ_eq_add_one, mul_succ] at hmul
      omega
    · have hmul := mul_le_mul_left L.inodesize (succ_le_of_lt hgt)
      rw [succ_eq_add_one, mul_succ] at hmul
      omega
  · rcases h.apart _ hi.2 _ hj.2 hgroup with hlt | hgt <;> omega

end Tables

/-! ## Reading and writing inodes -/

section Access

variable {bd : BlockDev L.toGeometry} {i j : ℕ} {frame frame' : ℕ → UInt8} {eno : List UInt8}

section

variable (hpage : L.blocksize = pageSize)

include hpage

theorem inodeAddr_eq (hi : L.Valid i) :
    L.inodeAddr (bd.readData (L.descAddr ((i - 1) / L.inodesPerGroup)) sizeofBlockgroup frame).2
      (i - 1) = L.slot bd.bytes i := by
  have hdesc := descAddr_le hi.2
  have hvol := L.descAddr_groups_le
  rw [readData_page hpage (hdesc.2.trans hvol) (by decide), inodeAddr, field_memread (by decide)]
  rfl

theorem inodeGet_eq (hi : L.Valid i)
    (hvol : L.slot bd.bytes i + sizeofInode ≤ L.blockCount * L.blocksize) :
    (L.inodeGet bd i frame frame').2 = memread bd.bytes (L.slot bd.bytes i) sizeofInode := by
  unfold inodeGet
  dsimp only
  rw [hi.sub64_eq, inodeAddr_eq hpage hi, readData_page hpage hvol (by decide), bytes_readData]

theorem bytes_inodeWrite (hi : L.Valid i) (heno : eno.length = sizeofInode)
    (hvol : L.slot bd.bytes i + sizeofInode ≤ L.blockCount * L.blocksize) :
    (L.inodeWrite bd i eno frame frame').bytes = memcpy bd.bytes (L.slot bd.bytes i) eno := by
  unfold inodeWrite
  dsimp only
  rw [hi.sub64_eq, inodeAddr_eq hpage hi,
    bytes_writeData_page hpage (by rwa [heno]) (by rw [heno]; decide),
    bytes_readData]

end

theorem slot_memcpy {bytes : ℕ → UInt8} {p : ℕ} (hj : L.Valid j)
    (h : ∀ gid < L.groups, p + eno.length ≤ L.descAddr gid ∨
      L.descAddr gid + sizeofBlockgroup ≤ p) :
    L.slot (memcpy bytes p eno) j = L.slot bytes j := by
  have hsize : sizeofBlockgroup = 32 := rfl
  have hapart := h _ hj.2
  rw [slot, slot, table, table, memread_memcpy_of_disjoint (by omega)]

end Access

end Layout

/-! ## Local writes -/

section Local

variable {L : Layout}

/-- Writing any inode and reading it returns what was written, and reading another one returns what
it returned before; whatever the buffers of the calls hold. -/
def InodeWritesLocal (L : Layout) (bd : BlockDev L.toGeometry) : Prop :=
  ∀ i eno, L.Valid i → eno.length = sizeofInode → ∀ f₁ f₂ f₃ f₄,
    (L.inodeGet (L.inodeWrite bd i eno f₁ f₂) i f₃ f₄).2 = eno ∧
    ∀ j, L.Valid j → j ≠ i → ∀ f₅ f₆,
      (L.inodeGet (L.inodeWrite bd i eno f₁ f₂) j f₃ f₄).2 = (L.inodeGet bd j f₅ f₆).2

open Layout

variable {bd : BlockDev L.toGeometry}

theorem Layout.Tables.inodeWritesLocal (h : L.Tables bd.bytes) (hpage : L.blocksize = pageSize)
    (hroomy : L.Roomy) : InodeWritesLocal L bd := by
  intro i eno hi heno f₁ f₂ f₃ f₄
  have hvoli := h.slot_onVolume hroomy hi
  have hwrite : (L.inodeWrite bd i eno f₁ f₂).bytes = memcpy bd.bytes (L.slot bd.bytes i) eno :=
    bytes_inodeWrite hpage hi heno hvoli
  have hslot : ∀ j, L.Valid j →
      L.slot (L.inodeWrite bd i eno f₁ f₂).bytes j = L.slot bd.bytes j := by
    intro j hj
    rw [hwrite]
    refine slot_memcpy hj fun gid hgid => ?_
    rw [heno]
    exact h.slot_descriptors hroomy hi hgid
  constructor
  · rw [inodeGet_eq hpage hi (by rwa [hslot i hi]), hslot i hi, hwrite]
    exact memread_memcpy_self heno
  · intro j hj hne f₅ f₆
    have hvolj := h.slot_onVolume hroomy hj
    rw [inodeGet_eq hpage hj (by rwa [hslot j hj]), inodeGet_eq hpage hj hvolj, hslot j hj, hwrite]
    refine memread_memcpy_of_disjoint ?_
    rw [heno]
    exact h.slots_apart hroomy hi hj hne.symm

theorem inodeGet_of_large (hlarge : pageSize < L.blocksize) (bd : BlockDev L.toGeometry)
    (frame : ℕ → UInt8) :
    (L.inodeGet bd 1 (fun _ => 0) frame).2 = memread frame 0 sizeofInode := by
  have hcount : ∀ len, len < pageSize → ∀ off, off % L.blocksize = 0 →
      transferCount L.toGeometry off len = 0 := by
    intro len hlen off hoff
    have hsize : pageSize = 4096 := rfl
    unfold transferCount
    dsimp only
    rw [hoff, zero_add, u64_of_lt (by omega), if_pos hlen]
    exact div_eq_of_lt hlarge
  have hread : ∀ (bd : BlockDev L.toGeometry) off len frame, len < pageSize →
      off % L.blocksize = 0 → (bd.readData off len frame).2 = memread frame 0 len := by
    intro bd off len frame hlen hoff
    unfold readData
    dsimp only
    rw [hcount len hlen off hoff, hoff]
    refine memread_congr fun j _ => readBlockdev_of_ge ?_ ?_
    · rw [zero_mul]
      exact zero_le _
    · rw [zero_mul]
      exact zero_le _
  have hid : sub64 1 1 = 0 := rfl
  unfold inodeGet
  dsimp only
  rw [hid, Nat.zero_div, hread bd (L.descAddr 0) _ _ (by decide) ?_, hread _ _ _ _ (by decide) ?_]
  · -- The table is at block 0, by a descriptor of zeros.
    have hzero : littleEndian (field (memread (fun _ => 0) 0 sizeofBlockgroup) 8 4) = 0 := by decide
    rw [inodeAddr, hzero]
    simp
  · rw [descAddr_eq]
    simp

/-- With fewer bytes for an inode than the structure has, and a second inode in the group, writing
the first inode writes the start of the second one. -/
theorem Layout.Tables.inodeGet_neighbour (h : L.Tables bd.bytes) (hpage : L.blocksize = pageSize)
    (hsmall : L.inodesize < sizeofInode) (htwo : 2 ≤ L.inodesPerGroup) {eno : List UInt8}
    (heno : eno.length = sizeofInode) (f₁ f₂ f₃ f₄ : ℕ → UInt8) :
    (L.inodeGet (L.inodeWrite bd 1 eno f₁ f₂) 2 f₃ f₄).2 =
      memread (memcpy bd.bytes (L.slot bd.bytes 1) eno) (L.slot bd.bytes 1 + L.inodesize)
        sizeofInode := by
  have hslot₁ : L.slot bd.bytes 1 = L.table bd.bytes 0 * L.blocksize := by simp [slot]
  have hslot₂ : L.slot bd.bytes 2 = L.table bd.bytes 0 * L.blocksize + L.inodesize := by
    simp [slot, div_eq_of_lt htwo, mod_eq_of_lt htwo]
  -- Both are in the first block of the table.
  have hbytes := L.blocksize_le_tableBytes
  have htable := h.onVolume 0 groups_pos
  have hsize : sizeofInode = 132 := rfl
  have hpage' : pageSize = 4096 := rfl
  have hwrite : (L.inodeWrite bd 1 eno f₁ f₂).bytes = memcpy bd.bytes (L.slot bd.bytes 1) eno :=
    bytes_inodeWrite hpage valid_one heno (by omega)
  have hkeep : L.slot (L.inodeWrite bd 1 eno f₁ f₂).bytes 2 = L.slot bd.bytes 2 := by
    rw [hwrite]
    refine slot_memcpy (valid_two htwo) fun gid hgid => ?_
    have hle := descAddr_le hgid
    rcases h.descriptors 0 groups_pos with hafter | hbefore <;> omega
  rw [inodeGet_eq hpage (valid_two htwo) (by omega), hkeep, hwrite, hslot₂, hslot₁]

theorem InodeWritesLocal.blocksize_eq (h : InodeWritesLocal L bd) : L.blocksize = pageSize := by
  by_contra hne
  have hlarge : pageSize < L.blocksize := lt_of_le_of_ne L.page_le (Ne.symm hne)
  have hlen : (replicate 132 (0 : UInt8)).length = sizeofInode := length_replicate
  have hget := (h 1 _ valid_one hlen (fun _ => 0) (fun _ => 0) (fun _ => 0) (fun _ => 1)).1
  rw [inodeGet_of_large hlarge] at hget
  have hfirst : (memread (fun _ => (1 : UInt8)) 0 sizeofInode)[0]? =
      (replicate 132 (0 : UInt8))[0]? := by rw [hget]
  rw [getElem?_memread, if_pos (by decide)] at hfirst
  simp at hfirst

theorem InodeWritesLocal.roomy (h : InodeWritesLocal L bd) (htables : L.Tables bd.bytes) :
    L.Roomy := by
  by_contra hcon
  rw [Layout.Roomy, not_or, not_le] at hcon
  have hpage := h.blocksize_eq
  have htwo : 2 ≤ L.inodesPerGroup := by
    have := L.inodes_pos
    omega
  have hvalid := valid_two htwo
  -- What is written for the first inode differs from the first byte of the second one.
  obtain ⟨byte, hbyte⟩ : ∃ byte, (L.inodeGet bd 2 (fun _ => 0) (fun _ => 0)).2[0]? = some byte := by
    simp [inodeGet, readData, sizeofInode_eq]
  have hlen : (replicate 132 (byte + 1)).length = sizeofInode := length_replicate
  have hget := (h 1 _ valid_one hlen (fun _ => 0) (fun _ => 0) (fun _ => 0)
    (fun _ => 0)).2 2 hvalid (by decide) (fun _ => 0) (fun _ => 0)
  rw [htables.inodeGet_neighbour hpage hcon.1 htwo hlen] at hget
  have hfirst := congrArg (fun l => l[0]?) hget
  have hlt : L.inodesize < (replicate 132 (byte + 1)).length := by
    rw [hlen]
    exact hcon.1
  rw [hbyte, getElem?_memread, add_zero, if_pos (by decide), memcpy_of_mem hlt,
    getElem_replicate] at hfirst
  simp at hfirst

/-- **The volumes where a write changes its own inode only**: blocks are pages, and inodes have at
least the 132 bytes of `struct ext2_inode`, or there is one inode in each group. -/
theorem inode_writes_local_iff (L : Layout) (bd : BlockDev L.toGeometry) (h : L.Tables bd.bytes) :
    InodeWritesLocal L bd ↔
      L.blocksize = pageSize ∧ (132 ≤ L.inodesize ∨ L.inodesPerGroup = 1) := by
  constructor
  · intro hlocal
    exact ⟨hlocal.blocksize_eq, hlocal.roomy h⟩
  · rintro ⟨hpage, hroomy⟩
    exact h.inodeWritesLocal hpage hroomy

/-- A volume of eight blocks of 4096 bytes, in one group with eight inodes of 128 bytes or more. -/
def oneGroup (more : ℕ) : Layout where
  toGeometry := WriteData.smallVolume
  firstDataBlock := 0
  blocksPerGroup := 8
  inodesPerGroup := 8
  revision := 1
  inodeSize := 128 + more
  firstDataBlock_lt := by decide
  blocks_pos := by decide
  inodes_pos := by decide
  descriptors_le := by decide
  inodes_lt := by decide
  inodeSize_ge := .inr (Nat.le_add_right _ _)

/-- A device of zeros, but for the descriptor of the group: the inode table is at block 2. -/
def oneTable (more : ℕ) : BlockDev (oneGroup more).toGeometry where
  size := 64
  data := fun x => if x = 4096 + 8 then 2 else 0
  cache := fun _ => none
  onDevice := show WriteData.smallVolume.blockCount * WriteData.smallVolume.blocksize ≤ 64 * 512 by
    decide

theorem inode_writes_local_256 : (oneGroup 128).Tables (oneTable 128).bytes ∧
    InodeWritesLocal (oneGroup 128) (oneTable 128) := by
  have htables : (oneGroup 128).Tables (oneTable 128).bytes := ⟨by decide, by decide, by decide⟩
  refine ⟨htables, (inode_writes_local_iff _ (oneTable 128) htables).mpr ⟨by decide, .inl ?_⟩⟩
  decide

/-- **Writing an inode changes the next one**: with inodes of 128 bytes, the mode of inode 2 is what
was written behind the fields of inode 1. -/
theorem inode_neighbour_changed : (oneGroup 0).Tables (oneTable 0).bytes ∧
    ((oneGroup 0).inodeGet (oneTable 0) 2 (fun _ => 0) (fun _ => 0)).2[0]? = some 0 ∧
    ((oneGroup 0).inodeGet
      ((oneGroup 0).inodeWrite (oneTable 0) 1 (List.replicate 132 7) (fun _ => 0) (fun _ => 0)) 2
        (fun _ => 0) (fun _ => 0)).2[0]? = some 7 := by
  have htables : (oneGroup 0).Tables (oneTable 0).bytes := ⟨by decide, by decide, by decide⟩
  have hpage : (oneGroup 0).blocksize = pageSize := by decide
  have hlen : (replicate 132 (7 : UInt8)).length = sizeofInode := length_replicate
  refine ⟨htables, ?_, ?_⟩
  · rw [inodeGet_eq hpage (valid_two (by decide)) (by decide), getElem?_memread,
      if_pos (by decide)]
    decide
  · rw [htables.inodeGet_neighbour hpage (by decide) (by decide) hlen, getElem?_memread,
      if_pos (by decide)]
    decide

end Local

end SeaKernel.Ext2
