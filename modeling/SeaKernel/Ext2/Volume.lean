import SeaKernel.Errno

/-!
# The ext2 driver

A model of `drivers/ext2/ext2.c`: the allocation of blocks and inodes from the group bitmaps, the
map from the pages of a file to its blocks, the text of symbolic links in the inode, and the release
of inodes. `createLast` is the part of `__create_last` of `kernel/fs/path.c` that concerns the new
inode. The block map is for blocks of `n` words; the file system has blocks of 4096 bytes.

A volume is given by what the driver reads from it: the group descriptors with their bitmaps, and
the inode table by inode number. The contents of the other blocks, as words of 32 bits, are a
function of their own. The blocks that hold descriptors, bitmaps and inode tables are marked as in
use on a consistent volume, and are not handed out; what a stray block number would do to them is
not described. The fields of an inode that no allocation depends on (owner, times, permission bits)
are left out. Every function that writes returns the volume also when it fails.

The source computes block numbers with 32 bits. From blocks of 256 KiB on, the square of the number
of words of a block wraps to 0, and the driver divides by it: the model is that of smaller blocks.

## Main definitions

* `Volume.allocBlock`, `Volume.allocInode`: the first free block, the first free inode
* `Indirect.inodeGetBlock`, `Indirect.inodeSetBlock`: the block map, through indirect blocks
* `Indirect.writePage`: writing back a page of a file
* `FileSystem.exec`: one operation on a mounted file system
-/

namespace SeaKernel.Ext2

open Function

/-- The words of the blocks on a device, for blocks of `n` words. -/
abbrev Disk (n : ℕ) : Type := ℕ → Fin n → ℕ

/-- The file type in the mode of an inode; `special` stands for devices, pipes and sockets. -/
inductive FileType where
  | regular
  | directory
  | symlink
  | special
  deriving DecidableEq, Repr

/-- The fields of `struct ext2_superblock` that place groups and inodes. -/
structure Superblock where
  blockCount : ℕ
  firstDataBlock : ℕ
  blocksPerGroup : ℕ
  inodesPerGroup : ℕ

/-- The number of block groups. -/
def Superblock.bgcount (sb : Superblock) : ℕ :=
  (sb.blockCount - sb.firstDataBlock + (sb.blocksPerGroup - 1)) / sb.blocksPerGroup

/-- A group descriptor (`struct ext2_blockgroup`) with the two bitmaps it points to. -/
structure BlockGroup where
  blockBitmap : ℕ → Bool
  inodeBitmap : ℕ → Bool
  freeBlocks : ℕ
  freeInodes : ℕ

/-- An inode in the inode table (`struct ext2_inode`). -/
structure DiskInode where
  mode : FileType
  linkCount : ℕ
  size : ℕ
  blocks : Fin 15 → ℕ

/-- What the driver reads from the device, but for the contents of the blocks. -/
structure Volume where
  superblock : Superblock
  group : ℕ → BlockGroup
  inode : ℕ → DiskInode

namespace Volume

/-- `ext2_inode_write` -/
def inodeWrite (v : Volume) (ino : ℕ) (eno : DiskInode) : Volume :=
  { v with inode := update v.inode ino eno }

/-! ## Allocation -/

/-- The first clear bit of a bitmap. -/
def firstClear (bitmap : ℕ → Bool) (bits : ℕ) : Option ℕ :=
  (List.range bits).find? fun i => !bitmap i

/-- `__allocate_block_from_group`; the answer is 0 as well if no bit is clear. -/
def allocateBlockFromGroup (v : Volume) (gid : ℕ) : Volume × ℕ :=
  match firstClear (v.group gid).blockBitmap v.superblock.blocksPerGroup with
  | some i =>
    let group :=
      { v.group gid with
        blockBitmap := update (v.group gid).blockBitmap i true
        freeBlocks := (v.group gid).freeBlocks - 1 }
    ({ v with group := update v.group gid group }, i)
  | none => (v, 0)

/-- `__alloc_block`: from the first group that has free blocks by its own count. -/
def allocBlock (v : Volume) : Volume × Except Errno ℕ :=
  match (List.range v.superblock.bgcount).find? fun i => 0 < (v.group i).freeBlocks with
  | some i =>
    let (v', n) := v.allocateBlockFromGroup i
    let out := n + i * v.superblock.blocksPerGroup
    (v', if out = 0 then .error .eio else .ok out)
  | none => (v, .error .enospc)

/-- `__allocate_inode_from_group` -/
def allocateInodeFromGroup (v : Volume) (gid : ℕ) : Volume × ℕ :=
  match firstClear (v.group gid).inodeBitmap v.superblock.inodesPerGroup with
  | some i =>
    let group :=
      { v.group gid with
        inodeBitmap := update (v.group gid).inodeBitmap i true
        freeInodes := (v.group gid).freeInodes - 1 }
    ({ v with group := update v.group gid group }, i)
  | none => (v, 0)

/-- `_alloc_inode` -/
def allocInode (v : Volume) : Volume × Except Errno ℕ :=
  match (List.range v.superblock.bgcount).find? fun i => 0 < (v.group i).freeInodes with
  | some i =>
    let (v', n) := v.allocateInodeFromGroup i
    let out := n + i * v.superblock.inodesPerGroup + 1
    (v', if out = 0 then .error .eio else .ok out)
  | none => (v, .error .enospc)

/-- `_release_inode`: the inode is free again. Its entry in the inode table stays as it is, and
so do the bits of its blocks. -/
def releaseInode (v : Volume) (ino : ℕ) : Volume :=
  let gid := (ino - 1) / v.superblock.inodesPerGroup
  let inoentry := (ino - 1) % v.superblock.inodesPerGroup
  let group :=
    { v.group gid with
      freeInodes := ((v.group gid).freeInodes + 1) % 2 ^ 16
      inodeBitmap := update (v.group gid).inodeBitmap inoentry false }
  { v with group := update v.group gid group }

end Volume

/-! ## The block map -/

instance neZero15 : NeZero 15 := ⟨by decide⟩

instance neZero1024 : NeZero 1024 := ⟨by decide⟩

namespace Indirect

theorem lt_fifteen {b : ℕ} (h : b < 12) : b < 15 := by
  omega

/-- `ext2_get_indirection`: the level of indirection of a block of a file, the entry of the inode to
start from, and the index below it. -/
def getIndirection (n blknum : ℕ) : ℕ × Fin 15 × ℕ :=
  if h : blknum < 12 then (0, ⟨blknum, lt_fifteen h⟩, 0)
  else if blknum < n + 12 then (1, 12, blknum - 12)
  else if blknum < n + 12 + n * n then (2, 13, blknum - 12 - n)
  else (3, 14, blknum - 12 - n - n * n)

/-- The number of blocks of a file below one entry of an index block, with so many levels to go. -/
def entryDiv (n left : ℕ) : ℕ := if left = 3 then n * n else if left = 2 then n else 1

/-- The first block number that the map does not reach. -/
def limit (n : ℕ) : ℕ := 12 + n + n * n + n * n * n

section Model

variable {n : ℕ} [NeZero n]

/-- The entry of a block with the index. The source does not check the index, which is below `n` for
every block number below the limit. -/
def entry (index : ℕ) : Fin n := Fin.ofNat n index

/-- The loop of `ext2_inode_get_block`, with `left` levels to go. -/
def getBlockLoop (d : Disk n) : ℕ → ℕ → ℕ → ℕ
  | 0, block, _ => block
  | left + 1, block, indirect =>
    if block = 0 then block
    else
      let div := entryDiv n (left + 1)
      getBlockLoop d left (d block (entry (indirect / div))) (indirect % div)

/-- `ext2_inode_get_block` -/
def inodeGetBlock (d : Disk n) (eno : DiskInode) (blknum : ℕ) : ℕ :=
  let (level, direct, indirect) := getIndirection n blknum
  getBlockLoop d level (eno.blocks direct) indirect

/-- The local variables of the loop of `ext2_inode_set_block`. -/
structure Cursor (n : ℕ) where
  block : ℕ
  indirect : ℕ
  prev : Fin n
  prevBlock : ℕ
  buf : Fin n → ℕ

/-- The start of a round of the loop: a missing index block is allocated and entered one level
above. The new block keeps what was on the device. -/
def linkMissing (v : Volume) (d : Disk n) (direct : Fin 15) (i : ℕ) (eno : DiskInode)
    (c : Cursor n) : (Volume × Disk n) × Option (DiskInode × Cursor n) :=
  if c.block = 0 then
    match v.allocBlock with
    | (v', .error _) => ((v', d), none)
    | (v', .ok block) =>
      if i = 0 then
        let eno' := { eno with blocks := update eno.blocks direct block }
        ((v', d), some (eno', { c with block := block }))
      else
        let buf := update c.buf c.prev block
        ((v', update d c.prevBlock buf), some (eno, { c with block := block, buf := buf }))
  else ((v, d), some (eno, c))

/-- The loop of `ext2_inode_set_block`, with `left` of `level` levels to go. -/
def setBlockLoop (direct : Fin 15) (setblock level : ℕ) :
    ℕ → Volume → Disk n → DiskInode → Cursor n → (Volume × Disk n) × Except Errno DiskInode
  | 0, v, d, eno, _ => ((v, d), .ok eno)
  | left + 1, v, d, eno, c =>
    match linkMissing v d direct (level - (left + 1)) eno c with
    | (s, none) => (s, .error .enospc)
    | ((v, d), some (eno, c)) =>
      let div := entryDiv n (left + 1)
      let e := entry (c.indirect / div)
      let indirect := c.indirect % div
      if left = 0 then
        let buf := update (d c.block) e setblock
        setBlockLoop direct setblock level left v (update d c.block buf) eno
          ⟨buf e, indirect, e, c.block, buf⟩
      else
        let buf := d c.block
        setBlockLoop direct setblock level left v d eno ⟨buf e, indirect, e, c.block, buf⟩

/-- `ext2_inode_set_block`. The inode is changed in memory only; the buffer starts with whatever is
in the page allocated for it. -/
def inodeSetBlock (v : Volume) (d : Disk n) (eno : DiskInode) (blknum setblock : ℕ) :
    (Volume × Disk n) × Except Errno DiskInode :=
  let (level, direct, indirect) := getIndirection n blknum
  let c : Cursor n := ⟨eno.blocks direct, indirect, entry direct, 0, fun _ => 0⟩
  let eno :=
    if level = 0 then { eno with blocks := update eno.blocks direct setblock } else eno
  setBlockLoop direct setblock level level v d eno c

/-- `_write_page`. With blocks larger than a page no block is transferred, and with smaller ones the
volume is not mounted. -/
def writePage (v : Volume) (d : Disk n) (ino pagenr : ℕ) (page : Fin n → ℕ) :
    (Volume × Disk n) × Except Errno Unit :=
  let blocknr := pagenr * 1024 / n
  let transfer := fun (d : Disk n) block => if n = 1024 then update d block page else d
  let eno := v.inode ino
  let block := inodeGetBlock d eno blocknr
  if block = 0 then
    match v.allocBlock with
    | (v, .error err) => ((v, d), .error err)
    | (v, .ok block) =>
      match inodeSetBlock v d eno blocknr block with
      | (s, .error _) => (s, .error .enospc)
      | ((v, d), .ok eno) => ((v.inodeWrite ino eno, transfer d block), .ok ())
  else ((v, transfer d block), .ok ())

end Model

end Indirect

/-! ## Symbolic links -/

namespace Volume

/-- The block numbers of an inode after a text has been copied over them, byte by byte. -/
def overlay (blocks : Fin 15 → ℕ) (text : List ℕ) (k : Fin 15) : ℕ :=
  let byte := fun r : ℕ => text.getD (4 * k + r) (blocks k / 256 ^ r % 256)
  byte 0 + 256 * byte 1 + 256 ^ 2 * byte 2 + 256 ^ 3 * byte 3

/-- What `_writelink` writes to the inode table. A text of 60 bytes or more goes to the first page
of the inode, and is written with it. -/
def writelink (v : Volume) (ino : ℕ) (text : List ℕ) : Volume :=
  let eno := v.inode ino
  let blocks := if text.length < 60 then overlay eno.blocks text else eno.blocks
  v.inodeWrite ino { eno with blocks := blocks, size := text.length }

end Volume

/-! ## The mounted file system -/

/-- An inode in memory (`struct inode`). -/
structure Node where
  mode : FileType
  links : ℕ
  length : ℕ
  deriving DecidableEq

/-- A mounted volume, and the inodes that exist on it as the kernel has them in memory. -/
structure FileSystem where
  vol : Volume
  disk : Disk 1024
  node : ℕ → Option Node

/-- `_update_inode`: all but the block numbers. -/
def Volume.updateInode (v : Volume) (ino : ℕ) (node : Node) : Volume :=
  let eno := v.inode ino
  v.inodeWrite ino { eno with mode := node.mode, linkCount := node.links, size := node.length }

/-- `__create_last`: the new inode is loaded from its entry in the inode table, and its type and
length are set. -/
def FileSystem.createLast (fs : FileSystem) (mode : FileType) : FileSystem × Except Errno ℕ :=
  match fs.vol.allocInode with
  | (v, .error err) => ({ fs with vol := v }, .error err)
  | (v, .ok ino) =>
    let target : Node := ⟨mode, (v.inode ino).linkCount, 0⟩
    ({ fs with vol := v, node := update fs.node ino (some target) }, .ok ino)

/-- `sys_symlink`, once the path has been resolved. -/
def FileSystem.symlink (fs : FileSystem) (text : List ℕ) : FileSystem × Except Errno ℕ :=
  match fs.createLast .symlink with
  | (fs, .error err) => (fs, .error err)
  | (fs, .ok ino) =>
    let node := (fs.node ino).map fun node => { node with length := text.length }
    ({ fs with vol := fs.vol.writelink ino text, node := update fs.node ino node }, .ok ino)

/-- The block numbers of the inode are block numbers: it is a file or a directory, or a symbolic
link whose text is too long for the inode. -/
def Node.holdsBlocks (node : Node) : Bool :=
  match node.mode with
  | .regular => true
  | .directory => true
  | .symlink => 60 ≤ node.length
  | .special => false

/-- The operations. `resize` is a change of the length of a file or a directory. -/
inductive Event where
  | create (mode : FileType)
  | symlink (text : List ℕ)
  | writePage (ino pagenr : ℕ) (page : Fin 1024 → ℕ)
  | resize (ino length : ℕ)
  | link (ino : ℕ)
  | unlink (ino : ℕ)
  | update (ino : ℕ)
  | release (ino : ℕ)

/-- One operation. Pages are written for inodes that keep their data in blocks, and an inode is
released when no link is left. -/
def FileSystem.exec (fs : FileSystem) : Event → Option FileSystem
  | .create mode => some (fs.createLast mode).1
  | .symlink text => some (fs.symlink text).1
  | .writePage ino pagenr page => do
    let node ← fs.node ino
    if node.holdsBlocks then
      let (vol, disk) := (Indirect.writePage fs.vol fs.disk ino pagenr page).1
      some { fs with vol := vol, disk := disk }
    else none
  | .resize ino length => do
    let node ← fs.node ino
    if node.mode = .symlink then none
    else
      let node := { node with length := length }
      some { fs with node := update fs.node ino (some node) }
  | .link ino => do
    let node ← fs.node ino
    let node := { node with links := (node.links + 1) % 2 ^ 16 }
    some { fs with node := update fs.node ino (some node) }
  | .unlink ino => do
    let node ← fs.node ino
    let node := { node with links := (node.links + 2 ^ 16 - 1) % 2 ^ 16 }
    some { fs with node := update fs.node ino (some node) }
  | .update ino => do
    let node ← fs.node ino
    some { fs with vol := fs.vol.updateInode ino node }
  | .release ino => do
    let node ← fs.node ino
    if node.links = 0 then
      some { fs with vol := fs.vol.releaseInode ino, node := update fs.node ino none }
    else none

end SeaKernel.Ext2
