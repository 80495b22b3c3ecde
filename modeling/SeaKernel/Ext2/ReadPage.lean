import SeaKernel.Ext2.InodeTable
import SeaKernel.Ext2.IndirectBlocks

/-!
# Reading a page of a file

`_read_page` and `ext2_inode_get_block` of `drivers/ext2/ext2.c`, in bytes. A page that has no block
is cleared, but then the transfer from the device follows all the same, from block 0: it puts the
first page of the volume over the zeros. Only where blocks are larger than pages is nothing
transferred.

## Main results

* `Layout.Hole.inodeGetBlock_eq`: no block is found for a hole
* `hole_reads_zero_iff`: when a hole reads as zeros
-/

namespace SeaKernel.Ext2

open BlockDev Layout

open WriteData (Geometry pageSize)

namespace Layout

/-- The number of block numbers in a block. -/
def numPtrs (L : Layout) : ℕ := L.blocksize / 4

/-- The entry of `blocks` of an inode, which has it after forty bytes. -/
def blocksEntry (eno : List UInt8) (direct : ℕ) : ℕ := littleEndian (field eno (40 + 4 * direct) 4)

/-- The loop of `ext2_inode_get_block`, with `left` levels to go. -/
def getBlockLoop (L : Layout) :
    ℕ → BlockDev L.toGeometry → (ℕ → UInt8) → ℕ → ℕ → BlockDev L.toGeometry × ℕ
  | 0, bd, _, block, _ => (bd, block)
  | left + 1, bd, phys, block, indirect =>
    if block = 0 then (bd, block)
    else
      let div := u32 (Indirect.entryDiv L.numPtrs (left + 1))
      let entry := indirect / div
      let r := bd.readBlockdev block 1 phys true
      L.getBlockLoop left r.1 r.2 (littleEndian (memread r.2 (4 * entry) 4)) (indirect % div)

/-- `ext2_inode_get_block`; `frame` is what the memory for the index blocks holds. -/
def inodeGetBlock (L : Layout) (bd : BlockDev L.toGeometry) (eno : List UInt8) (blknum : ℕ)
    (frame : ℕ → UInt8) : BlockDev L.toGeometry × ℕ :=
  let (level, direct, indirect) := Indirect.getIndirection L.numPtrs blknum
  L.getBlockLoop level bd frame (blocksEntry eno direct) indirect

/-- The block of a file that a page is in. -/
def blocknr (L : Layout) (pagenr : ℕ) : ℕ := u32 (pagenr * pageSize / L.blocksize)

/-- `_read_page` into memory that holds `phys`. The frames are what the memory allocated on the way
holds. -/
def readPage (L : Layout) (bd : BlockDev L.toGeometry) (ino pagenr : ℕ) (phys : ℕ → UInt8)
    (frame : Fin 3 → ℕ → UInt8) : BlockDev L.toGeometry × (ℕ → UInt8) :=
  let count := pageSize / L.blocksize
  let eno := L.inodeGet bd ino (frame 0) (frame 1)
  let block := L.inodeGetBlock eno.1 eno.2 (L.blocknr pagenr) (frame 2)
  let phys := if block.2 = 0 then memcpy phys 0 (List.replicate pageSize 0) else phys
  block.1.readBlockdev block.2 count phys false

/-! ## Holes -/

/-- A word of a block. -/
def word (L : Layout) (bytes : ℕ → UInt8) (block entry : ℕ) : ℕ :=
  littleEndian (memread bytes (block * L.blocksize + 4 * entry) 4)

/-- The walk through index blocks of the volume comes to a block number 0, at whichever level. -/
def MeetsZero (L : Layout) (bytes : ℕ → UInt8) : ℕ → ℕ → ℕ → Prop
  | 0, block, _ => block = 0
  | left + 1, block, indirect =>
    block = 0 ∨ block < L.blockCount ∧
      let div := u32 (Indirect.entryDiv L.numPtrs (left + 1))
      indirect / div < L.numPtrs ∧
        L.MeetsZero bytes left (L.word bytes block (indirect / div)) (indirect % div)

/-- The file does not have the block. -/
def Hole (L : Layout) (bytes : ℕ → UInt8) (eno : List UInt8) (blknum : ℕ) : Prop :=
  let (level, direct, indirect) := Indirect.getIndirection L.numPtrs blknum
  L.MeetsZero bytes level (blocksEntry eno direct) indirect

variable {L : Layout} {bd : BlockDev L.toGeometry} {eno : List UInt8} {ino pagenr : ℕ}

@[simp] theorem bytes_inodeGet {frame frame' : ℕ → UInt8} :
    (L.inodeGet bd ino frame frame').1.bytes = bd.bytes := by
  rw [inodeGet, bytes_readData, bytes_readData]

theorem bytes_getBlockLoop {left block indirect : ℕ} {phys : ℕ → UInt8} :
    (L.getBlockLoop left bd phys block indirect).1.bytes = bd.bytes := by
  induction left generalizing bd phys block indirect with
  | zero => rfl
  | succ left ih =>
    unfold getBlockLoop
    split
    · rfl
    · rw [ih, bytes_readBlockdev]

@[simp] theorem bytes_inodeGetBlock {blknum : ℕ} {frame : ℕ → UInt8} :
    (L.inodeGetBlock bd eno blknum frame).1.bytes = bd.bytes :=
  bytes_getBlockLoop

theorem word_readBlockdev {block entry : ℕ} {phys : ℕ → UInt8} (hblock : block < L.blockCount)
    (hentry : entry < L.numPtrs) :
    littleEndian (memread (bd.readBlockdev block 1 phys true).2 (4 * entry) 4) =
      L.word bd.bytes block entry := by
  have hptrs : 4 * L.numPtrs ≤ L.blocksize := Nat.mul_div_le L.blocksize 4
  have hvol : (block + 1) * L.blocksize ≤ bd.size * L.blksz :=
    (Nat.mul_le_mul_right _ hblock).trans bd.onDevice
  rw [Nat.succ_mul] at hvol
  have hread : memread (bd.readBlockdev block 1 phys true).2 (4 * entry) 4 =
      memread bd.bytes (block * L.blocksize + 4 * entry) 4 := by
    refine List.map_congr_left fun j hj => ?_
    have hj' : j < 4 := List.mem_range.mp hj
    have hsize := L.blocksize_le
    rw [readBlockdev_of_lt (by omega) (by omega) (by omega), Nat.add_assoc]
  rw [word, hread]

theorem MeetsZero.getBlockLoop_eq {left block indirect : ℕ} {phys : ℕ → UInt8}
    (h : L.MeetsZero bd.bytes left block indirect) :
    (L.getBlockLoop left bd phys block indirect).2 = 0 := by
  induction left generalizing bd phys block indirect with
  | zero => exact h
  | succ left ih =>
    unfold getBlockLoop
    split
    · next hzero => exact hzero
    · next hne =>
      obtain ⟨hblock, hentry, hrest⟩ := h.resolve_left hne
      dsimp only
      rw [word_readBlockdev hblock hentry]
      refine ih ?_
      rwa [bytes_readBlockdev]

/-- **No block is found for a hole.** -/
theorem Hole.inodeGetBlock_eq {blknum : ℕ} {frame : ℕ → UInt8} (h : L.Hole bd.bytes eno blknum) :
    (L.inodeGetBlock bd eno blknum frame).2 = 0 :=
  MeetsZero.getBlockLoop_eq h

end Layout

/-! ## What a hole reads as -/

section Holes

variable {L : Layout} {bd : BlockDev L.toGeometry} {ino pagenr : ℕ} {phys : ℕ → UInt8}
  {frame : Fin 3 → ℕ → UInt8}

theorem readPage_hole
    (h : L.Hole bd.bytes (L.inodeGet bd ino (frame 0) (frame 1)).2 (L.blocknr pagenr)) {k : ℕ}
    (hk : k < pageSize) :
    (L.readPage bd ino pagenr phys frame).2 k =
      if L.blocksize = pageSize then bd.bytes k else 0 := by
  have hzero : (L.inodeGetBlock (L.inodeGet bd ino (frame 0) (frame 1)).1
      (L.inodeGet bd ino (frame 0) (frame 1)).2 (L.blocknr pagenr) (frame 2)).2 = 0 := by
    refine Layout.Hole.inodeGetBlock_eq ?_
    rwa [bytes_inodeGet]
  unfold readPage
  dsimp only
  rw [if_pos hzero, hzero]
  split
  · next hpage =>
    have hvol : 1 * L.blocksize ≤ L.blockCount * L.blocksize :=
      Nat.mul_le_mul_right _ (Nat.succ_le_of_lt (Nat.zero_lt_of_lt L.firstDataBlock_lt))
    rw [readBlockdev_of_lt, Nat.zero_mul, Nat.zero_add, bytes_inodeGetBlock, bytes_inodeGet]
    · rw [hpage]
      decide
    · rwa [hpage, Nat.div_self (by decide), Nat.one_mul]
    · refine Nat.lt_of_lt_of_le ?_ (onDevice _)
      omega
  · next hne =>
    -- The count is 0, and the memory stays cleared.
    have hlarge : pageSize < L.blocksize := lt_of_le_of_ne L.page_le (Ne.symm hne)
    have hlen : k < (List.replicate pageSize (0 : UInt8)).length := by
      rwa [List.length_replicate]
    rw [Nat.div_eq_of_lt hlarge, readBlockdev_of_ge (by simp) (by simp)]
    nth_rewrite 1 [← Nat.zero_add k]
    rw [memcpy_of_mem hlen, List.getElem_replicate]

/-- **When a hole reads as zeros**: if blocks are larger than pages, or the first page of the volume
holds zeros. -/
theorem hole_reads_zero_iff (L : Layout) (bd : BlockDev L.toGeometry) (ino pagenr : ℕ)
    (frame : Fin 3 → ℕ → UInt8)
    (h : L.Hole bd.bytes (L.inodeGet bd ino (frame 0) (frame 1)).2 (L.blocknr pagenr)) :
    (∀ phys, ∀ k < pageSize, (L.readPage bd ino pagenr phys frame).2 k = 0) ↔
      pageSize < L.blocksize ∨ ∀ k < pageSize, bd.bytes k = 0 := by
  have hge : pageSize ≤ L.blocksize := L.page_le
  constructor
  · intro hread
    by_cases hpage : L.blocksize = pageSize
    · right
      intro k hk
      have hk' := hread (fun _ => 0) k hk
      rwa [readPage_hole h hk, if_pos hpage] at hk'
    · exact .inl (lt_of_le_of_ne hge (Ne.symm hpage))
  · intro hcond phys k hk
    rw [readPage_hole h hk]
    split
    · next hpage => exact hcond.resolve_left (by omega) k hk
    · rfl

/-- A device of zeros, but for the descriptor of the group, which has the inode table at block 2,
and for the `block_size` of the superblock, if there is one. -/
def oneHole (superblock : Bool) : BlockDev (oneGroup 128).toGeometry where
  size := 64
  data := fun x => if x = 4096 + 8 || x = 1024 + 24 && superblock then 2 else 0
  cache := fun _ => none
  onDevice := (oneTable 128).onDevice

/-- Memory that holds zeros. -/
def blankFrames : Fin 3 → ℕ → UInt8 := fun _ _ => 0

theorem oneHole_hole (superblock : Bool) : (oneGroup 128).Hole (oneHole superblock).bytes
      ((oneGroup 128).inodeGet (oneHole superblock) 1 (blankFrames 0) (blankFrames 1)).2
      ((oneGroup 128).blocknr 0) := by
  have hslot : (oneGroup 128).slot (oneHole superblock).bytes 1 = 2 * 4096 := by
    cases superblock <;> decide +kernel
  have hget : ((oneGroup 128).inodeGet (oneHole superblock) 1 (blankFrames 0) (blankFrames 1)).2 =
      memread (oneHole superblock).bytes (2 * 4096) sizeofInode := by
    rw [inodeGet_eq (by decide) valid_one (by rw [hslot]; decide), hslot]
  rw [hget]
  change blocksEntry _ 0 = 0
  cases superblock <;> decide +kernel

theorem hole_reads_zero_blank :
    (oneGroup 128).Hole (oneHole false).bytes
      ((oneGroup 128).inodeGet (oneHole false) 1 (blankFrames 0) (blankFrames 1)).2
      ((oneGroup 128).blocknr 0) ∧
    ∀ phys, ∀ k < pageSize,
      ((oneGroup 128).readPage (oneHole false) 1 0 phys blankFrames).2 k = 0 := by
  refine ⟨oneHole_hole false, (hole_reads_zero_iff _ (oneHole false) 1 0 blankFrames
    (oneHole_hole false)).mpr (.inr fun k hk => ?_)⟩
  have hsize : pageSize = 4096 := rfl
  have hne : k ≠ 4096 + 8 := by omega
  have hblk : (oneGroup 128).blksz = 512 := rfl
  simp [bytes, block, oneHole, hblk, Nat.div_add_mod', hne]

/-- **A hole reads as the superblock**: byte 1048 of the page is the `block_size` of the volume. -/
theorem hole_reads_superblock :
    (oneGroup 128).Hole (oneHole true).bytes
      ((oneGroup 128).inodeGet (oneHole true) 1 (blankFrames 0) (blankFrames 1)).2
      ((oneGroup 128).blocknr 0) ∧
    ∀ phys, ((oneGroup 128).readPage (oneHole true) 1 0 phys blankFrames).2 (1024 + 24) = 2 := by
  refine ⟨oneHole_hole true, fun phys => ?_⟩
  have hk : 1024 + 24 < pageSize := by decide +kernel
  refine (readPage_hole (oneHole_hole true) hk).trans ?_
  rw [if_pos (by decide)]
  decide +kernel

end Holes

end SeaKernel.Ext2
