import SeaKernel.Ext2.WriteData

/-!
# Byte access

`ext2_read_data` and `ext2_write_data` of `drivers/ext2/ext2.c`, one call at a time, on a block
device as `kernel/block.c` has it: blocks are read from the cache or else from the device, which
answers for the blocks it has, and are written to the cache.

Both calls work in a buffer that holds anything when it is allocated. They transfer whole blocks, as
many as fit into the buffer: on a volume whose blocks are larger than the buffer that is no block at
all, and then what is copied out is what the buffer held, and what is copied in is lost. The place
of a block in the buffer is computed as an `int`, and overflows from 2 GiB on.

## Main results

* `BlockDev.blockRead_spec`, `BlockDev.bytes_blockWrite`: what the transfers do to the bytes
* `BlockDev.readData_covered`, `BlockDev.bytes_writeData`: the calls on ranges that are covered
* `byte_access_iff`: the ranges that are read and written exactly
-/

namespace SeaKernel.Ext2

open Function List Option Nat

open WriteData (Geometry Call pageSize)

/-- A block device (`struct blockdev`) with a volume on it: the blocks the device has, their bytes,
and the blocks in the cache. -/
structure BlockDev (g : Geometry) where
  size : ℕ
  data : ℕ → UInt8
  cache : ℕ → Option (ℕ → UInt8)
  onDevice : g.blockCount * g.blocksize ≤ size * g.blksz

namespace BlockDev

variable {g : Geometry}

/-- The contents of a block: as cached, or else as on the device. -/
def block (bd : BlockDev g) (b : ℕ) : ℕ → UInt8 :=
  (bd.cache b).getD fun k => bd.data (b * g.blksz + k)

/-- The bytes the device stands for, by their place. -/
def bytes (bd : BlockDev g) (x : ℕ) : UInt8 :=
  if x / g.blksz < bd.size then bd.block (x / g.blksz) (x % g.blksz) else 0

/-- `block_cache_write` -/
def cacheWrite (bd : BlockDev g) (b : ℕ) (phys : ℕ → UInt8) : BlockDev g :=
  { bd with cache := update bd.cache b (some phys) }

/-- The loop of `block_read`, with `n` blocks to go: the memory at `phys` after it, and what is
returned. A request for a block the device does not have ends it. The place `i * blksz` of a block
is an `int`; places are relative to `phys`, modulo `2 ^ 64`. -/
def blockRead (start : ℕ) (cache : Bool) :
    ℕ → ℕ → BlockDev g → (ℕ → UInt8) → BlockDev g × (ℕ → UInt8) × ℕ
  | 0, i, bd, phys => (bd, phys, i)
  | n + 1, i, bd, phys =>
    match bd.cache (start + i) with
    | some cached =>
      blockRead start cache n (i + 1) bd
        (memcpy phys (sx32 (i * g.blksz)) (memread cached 0 g.blksz))
    | none =>
      if start + i < bd.size then
        let phys :=
          memcpy phys (sx32 (i * g.blksz)) (memread bd.data ((start + i) * g.blksz) g.blksz)
        let bd :=
          if cache then bd.cacheWrite (start + i) fun k => phys (sx32 (i * g.blksz) + k) else bd
        blockRead start cache n (i + 1) bd phys
      else (bd, phys, i)

/-- The loop of `block_write`, with `n` blocks to go. -/
def blockWrite (start : ℕ) (phys : ℕ → UInt8) : ℕ → ℕ → BlockDev g → BlockDev g
  | 0, _, bd => bd
  | n + 1, i, bd =>
    blockWrite start phys n (i + 1)
      (bd.cacheWrite (start + i) fun k => phys (sx32 (i * g.blksz) + k))

/-- `ext2_read_blockdev` -/
def readBlockdev (bd : BlockDev g) (fsblock count : ℕ) (phys : ℕ → UInt8) (cache : Bool) :
    BlockDev g × (ℕ → UInt8) :=
  let block := fsblock * g.blocksize / g.blksz
  let r := blockRead block cache (count * (g.blocksize / g.blksz)) 0 bd phys
  (r.1, r.2.1)

/-- `ext2_write_blockdev` -/
def writeBlockdev (bd : BlockDev g) (fsblock count : ℕ) (phys : ℕ → UInt8) : BlockDev g :=
  let block := fsblock * g.blocksize / g.blksz
  blockWrite block phys (count * (g.blocksize / g.blksz)) 0 bd

/-- The number of blocks that `ext2_read_data` and `ext2_write_data` transfer. -/
def transferCount (g : Geometry) (off len : ℕ) : ℕ :=
  let offset := off % g.blocksize
  let al :=
    if u64 (offset + len) < pageSize then pageSize else WriteData.roundUpPow2 (u64 (offset + len))
  al / g.blocksize

/-- `ext2_read_data`; `frame` is what the memory allocated for the blocks holds. -/
def readData (bd : BlockDev g) (off len : ℕ) (frame : ℕ → UInt8) : BlockDev g × List UInt8 :=
  let fsblock := u32 (off / g.blocksize)
  let r := bd.readBlockdev fsblock (transferCount g off len) frame true
  (r.1, memread r.2 (off % g.blocksize) len)

/-- `ext2_write_data` -/
def writeData (bd : BlockDev g) (off : ℕ) (buf : List UInt8) (frame : ℕ → UInt8) : BlockDev g :=
  let fsblock := u32 (off / g.blocksize)
  let count := transferCount g off buf.length
  let r := bd.readBlockdev fsblock count frame true
  r.1.writeBlockdev fsblock count (memcpy r.2 (off % g.blocksize) buf)

/-! ## One block -/

section Block

variable {bd : BlockDev g} {b i x k n start : ℕ} {phys : ℕ → UInt8} {cache : Bool}

@[simp] theorem size_cacheWrite : (bd.cacheWrite b phys).size = bd.size := rfl

theorem block_cacheWrite : (bd.cacheWrite b phys).block = update bd.block b phys := by
  funext b'
  rcases eq_or_ne b' b with rfl | hne
  · simp [block, cacheWrite]
  · simp [block, cacheWrite, hne]

theorem div_eq_of_block (h : b * g.blksz ≤ x) (h' : x < b * g.blksz + g.blksz) :
    x / g.blksz = b := by
  have hlt : x < (b + 1) * g.blksz := by rwa [succ_mul]
  have hle : b ≤ x / g.blksz := (le_div_iff_mul_le g.blksz_pos).mpr h
  have hub : x / g.blksz < b + 1 := (div_lt_iff_lt_mul g.blksz_pos).mpr hlt
  omega

theorem mod_eq_of_block (h : b * g.blksz ≤ x) (h' : x < b * g.blksz + g.blksz) :
    x % g.blksz = x - b * g.blksz := by
  have hdiv := div_eq_of_block h h'
  have heq := div_add_mod' x g.blksz
  rw [hdiv] at heq
  omega

theorem bytes_of_block (hb : b < bd.size) (h : b * g.blksz ≤ x)
    (h' : x < b * g.blksz + g.blksz) : bd.bytes x = bd.block b (x - b * g.blksz) := by
  rw [bytes, div_eq_of_block h h', mod_eq_of_block h h', if_pos hb]

theorem bytes_of_ge (h : bd.size * g.blksz ≤ x) : bd.bytes x = 0 := by
  refine if_neg (not_lt.mpr ?_)
  exact (le_div_iff_mul_le g.blksz_pos).mpr h

theorem bytes_cacheWrite : (bd.cacheWrite b phys).bytes x =
      if b * g.blksz ≤ x ∧ x < b * g.blksz + g.blksz ∧ x < bd.size * g.blksz then
        phys (x - b * g.blksz)
      else bd.bytes x := by
  by_cases hin : b * g.blksz ≤ x ∧ x < b * g.blksz + g.blksz
  · have hdev : b < bd.size ↔ x < bd.size * g.blksz := by
      rw [← div_eq_of_block hin.1 hin.2, div_lt_iff_lt_mul g.blksz_pos]
    by_cases hb : b < bd.size
    · rw [if_pos ⟨hin.1, hin.2, hdev.mp hb⟩, bytes_of_block (by exact hb) hin.1 hin.2,
        block_cacheWrite, update_self]
    · have hge : bd.size * g.blksz ≤ x := not_lt.mp (mt hdev.mpr hb)
      rw [if_neg (by omega), bytes_of_ge (by exact hge), bytes_of_ge hge]
  · -- The byte is in another block.
    have hne : x / g.blksz ≠ b := by
      rintro rfl
      refine hin ⟨div_mul_le_self _ _, ?_⟩
      have hmod := mod_lt x g.blksz_pos
      have heq := div_add_mod' x g.blksz
      omega
    rw [if_neg (fun h => hin ⟨h.1, h.2.1⟩), bytes, bytes, block_cacheWrite,
      update_of_ne hne, size_cacheWrite]

theorem bytes_cacheWrite_self (h : ∀ k < g.blksz, phys k = bd.block b k) :
    (bd.cacheWrite b phys).bytes = bd.bytes := by
  funext x
  rw [bytes_cacheWrite]
  split
  · next hx =>
    have hb : b < bd.size := by
      rw [← div_eq_of_block hx.1 hx.2.1, div_lt_iff_lt_mul g.blksz_pos]
      exact hx.2.2
    rw [h _ (by omega), bytes_of_block hb hx.1 hx.2.1]
  · rfl

end Block

/-! ## Transfers -/

section Transfer

variable {bd : BlockDev g} {i n start : ℕ} {phys : ℕ → UInt8} {cache : Bool}

/-- What `block_read` of `n` blocks from the `i`-th on does: the device stands for the same bytes.
Unless a place overflows, the bytes of the blocks it has are in memory, and no other memory
changes. -/
structure ReadSpec (bd : BlockDev g) (start i n : ℕ) (phys : ℕ → UInt8)
    (r : BlockDev g × (ℕ → UInt8) × ℕ) : Prop where
  size : r.1.size = bd.size
  bytes : r.1.bytes = bd.bytes
  read : (i + n) * g.blksz ≤ 2 ^ 31 → ∀ k, i * g.blksz ≤ k → k < (i + n) * g.blksz →
    start * g.blksz + k < bd.size * g.blksz → r.2.1 k = bd.bytes (start * g.blksz + k)
  other : (i + n) * g.blksz ≤ 2 ^ 31 → ∀ k, k < i * g.blksz ∨ (i + n) * g.blksz ≤ k →
    r.2.1 k = phys k

theorem ReadSpec.cons {r : BlockDev g × (ℕ → UInt8) × ℕ} {bd' : BlockDev g}
    {contents : ℕ → UInt8} {q : ℕ} (hsize : bd'.size = bd.size) (hbytes : bd'.bytes = bd.bytes)
    (hcontents : ∀ k < g.blksz, contents (q + k) = bd.block (start + i) k)
    (h : ReadSpec bd' start (i + 1) n
      (memcpy phys (sx32 (i * g.blksz)) (memread contents q g.blksz)) r) :
    ReadSpec bd start i (n + 1) phys r := by
  have hsucc : (i + 1) * g.blksz = i * g.blksz + g.blksz := succ_mul _ _
  have hrest : (i + 1 + n) * g.blksz = (i + (n + 1)) * g.blksz := by
    rw [add_right_comm, add_assoc]
  have hgrow : (i + 1) * g.blksz ≤ (i + (n + 1)) * g.blksz := mul_le_mul_right _ (by omega)
  have hpos := g.blksz_pos
  refine ⟨h.size.trans hsize, h.bytes.trans hbytes, fun hfit k hge hlt hdev => ?_,
    fun hfit k hk => ?_⟩
  · rcases lt_or_ge k ((i + 1) * g.blksz) with hfirst | hlater
    · have hstart : (start + i) * g.blksz = start * g.blksz + i * g.blksz := add_mul _ _ _
      have hb : start + i < bd.size := by
        refine Nat.lt_of_mul_lt_mul_right (a := g.blksz) ?_
        omega
      rw [h.other (by omega) k (.inl hfirst), sx32_of_lt (by omega), memcpy_memread,
        if_pos (by omega), hcontents _ (by omega), bytes_of_block hb (by omega) (by omega)]
      congr 1
      omega
    · rw [h.read (by omega) k hlater (by omega) (by rwa [hsize]), hbytes]
  · rw [h.other (by omega) k (by omega), sx32_of_lt (by omega), memcpy_memread, if_neg (by omega)]

theorem blockRead_spec : ReadSpec bd start i n phys (blockRead start cache n i bd phys) := by
  induction n generalizing i bd phys with
  | zero =>
    refine ⟨rfl, rfl, fun _ k hge hlt => ?_, fun _ k _ => rfl⟩
    rw [add_zero] at hlt
    omega
  | succ n ih =>
    cases hcache : bd.cache (start + i) with
    | some cached =>
      simp only [blockRead, hcache]
      refine ReadSpec.cons rfl rfl (fun k _ => ?_) ih
      rw [zero_add, block, hcache, getD_some]
    | none =>
      have hblock : ∀ k, bd.data ((start + i) * g.blksz + k) = bd.block (start + i) k := by
        intro k
        rw [block, hcache, getD_none]
      by_cases hdev : start + i < bd.size
      · simp only [blockRead, hcache, if_pos hdev]
        cases cache with
        | false =>
          rw [if_neg Bool.false_ne_true]
          exact ReadSpec.cons rfl rfl (fun k _ => hblock k) ih
        | true =>
          rw [if_pos rfl]
          refine ReadSpec.cons size_cacheWrite (bytes_cacheWrite_self fun k hk => ?_)
            (fun k _ => hblock k) ih
          rw [memcpy_memread, if_pos (by omega), Nat.add_sub_cancel_left]
          exact hblock k
      · -- The device has none of the blocks that are left.
        simp only [blockRead, hcache, if_neg hdev]
        refine ⟨rfl, rfl, fun _ k hge _ hlt => ?_, fun _ k _ => rfl⟩
        have hle : bd.size * g.blksz ≤ (start + i) * g.blksz :=
          mul_le_mul_right _ (not_lt.mp hdev)
        rw [add_mul] at hle
        omega

theorem bytes_blockWrite (hfit : (i + n) * g.blksz ≤ 2 ^ 31) (x : ℕ) :
    (blockWrite start phys n i bd).bytes x =
      if (start + i) * g.blksz ≤ x ∧ x < (start + (i + n)) * g.blksz ∧ x < bd.size * g.blksz then
        phys (x - start * g.blksz)
      else bd.bytes x := by
  induction n generalizing i bd with
  | zero =>
    rw [if_neg (by rw [add_zero]; omega)]
    rfl
  | succ n ih =>
    have hstart : (start + i) * g.blksz = start * g.blksz + i * g.blksz := add_mul _ _ _
    have hsucc : (start + (i + 1)) * g.blksz = (start + i) * g.blksz + g.blksz := by
      rw [← add_assoc, succ_mul]
    have hrest : (start + (i + 1 + n)) * g.blksz = (start + (i + (n + 1))) * g.blksz := by
      rw [add_right_comm i, add_assoc i]
    have hgrow : (start + (i + 1)) * g.blksz ≤ (start + (i + (n + 1))) * g.blksz :=
      mul_le_mul_right _ (by omega)
    have hplace : i * g.blksz + g.blksz ≤ (i + (n + 1)) * g.blksz := by
      rw [← succ_mul]
      exact mul_le_mul_right _ (by omega)
    have hpos := g.blksz_pos
    rw [blockWrite, ih (by rwa [add_right_comm i, add_assoc i]), size_cacheWrite, bytes_cacheWrite,
      sx32_of_lt (by omega), hrest, hsucc]
    rw [hsucc] at hgrow
    by_cases hx : (start + i) * g.blksz ≤ x ∧ x < (start + (i + (n + 1))) * g.blksz ∧
        x < bd.size * g.blksz
    · rw [if_pos hx]
      by_cases hlater : (start + i) * g.blksz + g.blksz ≤ x
      · rw [if_pos ⟨hlater, hx.2⟩]
      · rw [if_neg (fun h => hlater h.1), if_pos ⟨hx.1, by omega, hx.2.2⟩]
        congr 1
        omega
    · rw [if_neg hx, if_neg (by omega), if_neg (by omega)]

end Transfer

/-! ## Blocks of the volume -/

section Volume

variable {bd : BlockDev g} {fsblock count : ℕ} {phys : ℕ → UInt8} {cache : Bool}

theorem start_mul_blksz (fsblock : ℕ) :
    fsblock * g.blocksize / g.blksz * g.blksz = fsblock * g.blocksize :=
  Nat.div_mul_cancel (g.blksz_dvd.mul_left _)

theorem count_mul_blksz (count : ℕ) :
    count * (g.blocksize / g.blksz) * g.blksz = count * g.blocksize := by
  have hdvd : g.blksz ∣ g.blocksize := g.blksz_dvd
  rw [Nat.mul_assoc, Nat.div_mul_cancel hdvd]

@[simp] theorem size_readBlockdev : (bd.readBlockdev fsblock count phys cache).1.size = bd.size :=
  blockRead_spec.size

@[simp] theorem bytes_readBlockdev :
    (bd.readBlockdev fsblock count phys cache).1.bytes = bd.bytes :=
  blockRead_spec.bytes

theorem readBlockdev_of_lt {k : ℕ} (hfit : count * g.blocksize ≤ 2 ^ 31)
    (hk : k < count * g.blocksize) (hdev : fsblock * g.blocksize + k < bd.size * g.blksz) :
    (bd.readBlockdev fsblock count phys cache).2 k = bd.bytes (fsblock * g.blocksize + k) := by
  rw [← start_mul_blksz fsblock] at hdev ⊢
  refine blockRead_spec.read ?_ k ?_ ?_ hdev
  · rwa [zero_add, count_mul_blksz]
  · rw [zero_mul]
    exact zero_le k
  · rwa [zero_add, count_mul_blksz]

theorem readBlockdev_of_ge {k : ℕ} (hfit : count * g.blocksize ≤ 2 ^ 31)
    (hk : count * g.blocksize ≤ k) :
    (bd.readBlockdev fsblock count phys cache).2 k = phys k := by
  refine blockRead_spec.other ?_ k (.inr ?_)
  · rwa [zero_add, count_mul_blksz]
  · rwa [zero_add, count_mul_blksz]

theorem bytes_writeBlockdev (hfit : count * g.blocksize ≤ 2 ^ 31) (x : ℕ) :
    (bd.writeBlockdev fsblock count phys).bytes x =
      if fsblock * g.blocksize ≤ x ∧ x < fsblock * g.blocksize + count * g.blocksize ∧
          x < bd.size * g.blksz then
        phys (x - fsblock * g.blocksize)
      else bd.bytes x := by
  rw [writeBlockdev, bytes_blockWrite (by rwa [zero_add, count_mul_blksz]), add_zero, zero_add,
    add_mul, start_mul_blksz, count_mul_blksz]

end Volume

/-! ## The calls -/

section Calls

variable {bd : BlockDev g} {c : Call g} {frame : ℕ → UInt8}

theorem fsblock_mul (c : Call g) : c.fsblock * g.blocksize + c.offset = c.off := by
  rw [c.off_eq, Call.start, start_mul_blksz]

theorem off_add_le (bd : BlockDev g) (c : Call g) : c.off + c.buf.length ≤ bd.size * g.blksz :=
  c.onVolume.trans bd.onDevice

@[simp] theorem bytes_readData {off len : ℕ} : (bd.readData off len frame).1.bytes = bd.bytes :=
  bytes_readBlockdev

theorem readData_call : bd.readData c.off c.buf.length frame =
    ((bd.readBlockdev c.fsblock c.count frame true).1,
      memread (bd.readBlockdev c.fsblock c.count frame true).2 c.offset c.buf.length) := rfl

theorem writeData_call : bd.writeData c.off c.buf frame =
    (bd.readBlockdev c.fsblock c.count frame true).1.writeBlockdev c.fsblock c.count
      (memcpy (bd.readBlockdev c.fsblock c.count frame true).2 c.offset c.buf) := rfl

/-- **A covered range is read exactly.** -/
theorem readData_covered (h : c.Covered) :
    (bd.readData c.off c.buf.length frame).2 = memread bd.bytes c.off c.buf.length := by
  rw [readData_call]
  refine map_congr_left fun j hj => ?_
  have hj' : j < c.buf.length := mem_range.mp hj
  have hoff := fsblock_mul c
  have hdev := off_add_le bd c
  obtain ⟨hdef, hnil | hle⟩ := c.covered_iff.mp h
  · rw [hnil] at hj'
    exact absurd hj' (not_lt_zero j)
  · rw [readBlockdev_of_lt (c.defined_iff.mp hdef) (by omega) (by omega), ← add_assoc, hoff]

/-- What `ext2_write_data` does to a byte: if it is in the blocks that are transferred, it is the
new one or stays, and if it is not, it stays in any case. -/
theorem bytes_writeData_apply (hdef : c.Defined) (x : ℕ) :
    (bd.writeData c.off c.buf frame).bytes x =
      if x < c.fsblock * g.blocksize + c.count * g.blocksize then memcpy bd.bytes c.off c.buf x
      else bd.bytes x := by
  have hoff := fsblock_mul c
  have hdev := off_add_le bd c
  have hfit := c.defined_iff.mp hdef
  rw [writeData_call, bytes_writeBlockdev hfit, size_readBlockdev, bytes_readBlockdev]
  by_cases hx : x < c.fsblock * g.blocksize + c.count * g.blocksize
  · rw [if_pos hx]
    by_cases hin : c.fsblock * g.blocksize ≤ x ∧ x < bd.size * g.blksz
    · rw [if_pos ⟨hin.1, hx, hin.2⟩]
      have hread : (bd.readBlockdev c.fsblock c.count frame true).2 (x - c.fsblock * g.blocksize) =
          bd.bytes (c.fsblock * g.blocksize + (x - c.fsblock * g.blocksize)) :=
        readBlockdev_of_lt hfit (by omega) (by omega)
      refine (memcpy_shift hread).trans ?_
      rw [hoff, Nat.add_sub_cancel' hin.1]
    · -- The range is on the device and starts in its first block.
      rw [if_neg (fun h => hin ⟨h.1, h.2.2⟩)]
      rcases lt_or_ge x c.off with hlt | hge
      · exact (memcpy_of_lt hlt).symm
      · exact (memcpy_of_ge (by omega)).symm
  · rw [if_neg hx, if_neg (fun h => hx h.2.1)]

/-- **A covered range is written exactly.** -/
theorem bytes_writeData (h : c.Covered) :
    (bd.writeData c.off c.buf frame).bytes = memcpy bd.bytes c.off c.buf := by
  funext x
  obtain ⟨hdef, hrange⟩ := c.covered_iff.mp h
  rw [bytes_writeData_apply hdef]
  split
  · rfl
  · next hx =>
    have hoff := fsblock_mul c
    rcases hrange with hnil | hle
    · rw [hnil, memcpy_nil]
    · exact (memcpy_of_ge (by omega)).symm

section

variable (hpage : g.blocksize = pageSize)

include hpage

theorem covered_of_page (hlen : c.buf.length < 2 ^ 30) : c.Covered := by
  have hoffset : c.offset < pageSize := hpage ▸ mod_lt _ g.blocksize_pos
  have hsize : pageSize = 4096 := rfl
  exact .inr ⟨by omega, .inl hpage.le⟩

theorem readData_page {off len : ℕ} (h : off + len ≤ g.blockCount * g.blocksize)
    (hlen : len < 2 ^ 30) : (bd.readData off len frame).2 = memread bd.bytes off len := by
  let c : Call g := ⟨off, replicate len 0, by rwa [length_replicate]⟩
  have hbuf : c.buf.length = len := length_replicate
  have hread : (bd.readData c.off c.buf.length frame).2 = memread bd.bytes c.off c.buf.length :=
    readData_covered (covered_of_page hpage (by rwa [hbuf]))
  rwa [hbuf] at hread

theorem bytes_writeData_page {off : ℕ} {buf : List UInt8}
    (h : off + buf.length ≤ g.blockCount * g.blocksize) (hlen : buf.length < 2 ^ 30) :
    (bd.writeData off buf frame).bytes = memcpy bd.bytes off buf :=
  bytes_writeData (c := ⟨off, buf, h⟩) (covered_of_page hpage hlen)

end

theorem not_covered_last (hdef : c.Defined) (h : ¬c.Covered) :
    0 < c.buf.length ∧ c.count * g.blocksize ≤ c.offset + c.buf.length - 1 := by
  rw [Call.covered_iff, and_iff_right hdef, not_or, not_le] at h
  have hpos : 0 < c.buf.length := length_pos_iff.mpr h.1
  exact ⟨hpos, by omega⟩

end Calls

/-- A device that holds the volume and nothing behind it, with the same byte everywhere. -/
def filled (g : Geometry) (byte : UInt8) : BlockDev g where
  size := g.blockCount * (g.blocksize / g.blksz)
  data := fun _ => byte
  cache := fun _ => none
  onDevice := (count_mul_blksz g.blockCount).ge

theorem bytes_filled {byte : UInt8} {x : ℕ} (hx : x < g.blockCount * g.blocksize) :
    (filled g byte).bytes x = byte := by
  refine if_pos ?_
  rw [div_lt_iff_lt_mul g.blksz_pos]
  exact hx.trans_eq (count_mul_blksz g.blockCount).symm

end BlockDev

/-! ## Exact access -/

section Exact

variable {g : Geometry}

/-- The call returns the bytes of its range, whatever the device and the buffer hold, and no place
in the buffer overflows. -/
def ReadsExactly (c : Call g) : Prop :=
  c.Defined ∧ ∀ (bd : BlockDev g) (frame : ℕ → UInt8),
    (bd.readData c.off c.buf.length frame).2 = memread bd.bytes c.off c.buf.length

/-- The call changes the bytes of its range to the given ones and no others, whatever the device
and the buffer hold, and no place in the buffer overflows. -/
def WritesExactly (c : Call g) : Prop :=
  c.Defined ∧ ∀ (bd : BlockDev g) (frame : ℕ → UInt8),
    (bd.writeData c.off c.buf frame).bytes = memcpy bd.bytes c.off c.buf

open BlockDev

theorem covered_of_readsExactly {c : Call g} (h : ReadsExactly c) : c.Covered := by
  by_contra hcon
  obtain ⟨hdef, hread⟩ := h
  obtain ⟨hpos, hlast⟩ := not_covered_last hdef hcon
  have hvol := c.onVolume
  -- The device holds zeros and the buffer does not.
  have heq := congrArg (fun l => l[c.buf.length - 1]?) (hread (.filled g 0) fun _ => 1)
  have hbyte : (filled g 0).bytes (c.off + (c.buf.length - 1)) = 0 :=
    bytes_filled (by omega)
  have hstale : ((filled g 0).readBlockdev c.fsblock c.count (fun _ => 1) true).2
      (c.offset + (c.buf.length - 1)) = 1 :=
    readBlockdev_of_ge (c.defined_iff.mp hdef) (by omega)
  have hlt : c.buf.length - 1 < c.buf.length := by omega
  simp [readData_call, memread, hlt, hbyte, hstale] at heq

theorem covered_of_writesExactly {c : Call g} (h : WritesExactly c) : c.Covered := by
  by_contra hcon
  obtain ⟨hdef, hwrite⟩ := h
  obtain ⟨hpos, hlast⟩ := not_covered_last hdef hcon
  have hvol := c.onVolume
  have hoff := fsblock_mul c
  have hlt : c.buf.length - 1 < c.buf.length := by omega
  -- The device holds another byte at the end of the range.
  have heq := congrFun (hwrite (.filled g (c.buf[c.buf.length - 1] + 1)) fun _ => 0)
    (c.off + (c.buf.length - 1))
  rw [bytes_writeData_apply hdef, if_neg (by omega), bytes_filled (by omega),
    memcpy_of_mem hlt] at heq
  simp at heq

/-- **The ranges that are accessed exactly**: on every volume `_mount` accepts, `ext2_read_data`
returns the bytes of a range, and `ext2_write_data` changes them and no others, whatever the device
and the buffers hold, if and only if the range ends below 2 GiB from the start of its block, and the
blocks of the volume are pages or the range ends in the second half of a block or behind it. -/
theorem byte_access_iff (c : Call g) :
    (ReadsExactly c ↔ c.Covered) ∧ (WritesExactly c ↔ c.Covered) :=
  ⟨⟨covered_of_readsExactly, fun h => ⟨(c.covered_iff.mp h).1, fun _ _ => readData_covered h⟩⟩,
    ⟨covered_of_writesExactly, fun h => ⟨(c.covered_iff.mp h).1, fun _ _ => bytes_writeData h⟩⟩⟩

/-- A volume of eight blocks of 8192 bytes on a device with blocks of 512. -/
def largeBlocks : Geometry where
  logSize := 3
  blockCount := 8
  blksz := 512
  blockCount_lt := WriteData.smallVolume.blockCount_lt
  page_le := by decide
  log_le := by decide
  sector_le := WriteData.smallVolume.sector_le
  blksz_dvd := by decide

/-- A group descriptor at the start of the second block. -/
def firstDescriptor : Call largeBlocks := ⟨8192, List.replicate 32 0, by decide⟩

/-- **Nothing is transferred**: on a volume with blocks of 8192 bytes the first group descriptor is
neither read nor written. -/
theorem descriptor_not_transferred : firstDescriptor.count = 0 ∧ firstDescriptor.Defined ∧
    ¬ReadsExactly firstDescriptor ∧ ¬WritesExactly firstDescriptor := by
  have hcovered : ¬firstDescriptor.Covered := by
    rintro (h | ⟨-, h | h⟩)
    · exact absurd h (by decide)
    · exact absurd h (by decide)
    · exact absurd h (by decide)
  refine ⟨by decide, firstDescriptor.defined_iff.mpr (by decide), fun h => ?_, fun h => ?_⟩
  · exact hcovered (covered_of_readsExactly h)
  · exact hcovered (covered_of_writesExactly h)

end Exact

end SeaKernel.Ext2
