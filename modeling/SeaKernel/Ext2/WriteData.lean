import SeaKernel.Lib.Contents
import SeaKernel.Lib.Run
import SeaKernel.Lib.Word
import Mathlib

/-!
# Concurrent metadata updates

`ext2_write_data` of `drivers/ext2/ext2.c` changes a range of bytes by reading whole blocks into a
buffer, copying the bytes into it and writing all the blocks back. Two calls may run at once, one
device block at a time.

How many blocks a call rewrites does not follow from its range: the buffer has at least a page and
otherwise the next power of two *above* the end of the range, so a call that fills its last block
rewrites the block behind it too. On a volume whose blocks are larger than the buffer, the number
of blocks comes out as 0 and nothing is written at all. The place of a block in the buffer is
computed as an `int`, which holds places below 2 GiB.

## Main results

* `Inv.exec`: what a step of either call keeps
* `reaches_full`, `reaches_clobbered`: one call after the other, and one call inside the other
* `both_written_iff`: the pairs of calls whose updates survive every interleaving
-/

namespace SeaKernel.Ext2.WriteData

open Function Nat

/-- `arch_mm_page_size(0)` -/
def pageSize : ℕ := 4096

/-- `__round_up_pow2` on an `unsigned int`: the smallest power of two above the argument. On 0,
`__builtin_clz` has no defined value; the model takes 32. -/
def roundUpPow2 (a : ℕ) : ℕ := 2 ^ Nat.size (u32 a)

/-- A mounted volume: `block_size` and `block_count` of the superblock, and the block size of the
driver, at least a sector. `_mount` refuses blocks smaller than a page; a `block_size` above 20
shifts the size out of an `int`. -/
structure Geometry where
  logSize : ℕ
  blockCount : ℕ
  blksz : ℕ
  blockCount_lt : blockCount < 2 ^ 32
  page_le : pageSize ≤ 1024 <<< logSize
  log_le : logSize ≤ 20
  sector_le : 512 ≤ blksz
  blksz_dvd : blksz ∣ 1024 <<< logSize

/-- `ext2_sb_blocksize` -/
def Geometry.blocksize (g : Geometry) : ℕ := 1024 <<< g.logSize

/-- The arguments of `ext2_write_data`: a range of the volume and the bytes for it. -/
structure Call (g : Geometry) where
  off : ℕ
  buf : List UInt8
  onVolume : off + buf.length ≤ g.blockCount * g.blocksize

namespace Call

variable {g : Geometry}

def offset (c : Call g) : ℕ := c.off % g.blocksize

/-- The size of the buffer. -/
def al (c : Call g) : ℕ :=
  if u64 (c.offset + c.buf.length) < pageSize then pageSize
  else roundUpPow2 (u64 (c.offset + c.buf.length))

def count (c : Call g) : ℕ := c.al / g.blocksize

def fsblock (c : Call g) : ℕ := u32 (c.off / g.blocksize)

/-- The first device block, from `ext2_read_blockdev` and `ext2_write_blockdev`. -/
def start (c : Call g) : ℕ := c.fsblock * g.blocksize / g.blksz

/-- The number of device blocks. -/
def devCount (c : Call g) : ℕ := c.count * (g.blocksize / g.blksz)

end Call

/-- Where a call is: before its read of the `k`-th block, or before its write of the `k`-th. -/
inductive Phase where
  | reading (k : ℕ)
  | writing (k : ℕ)
  deriving DecidableEq, Repr

/-- A call in progress, with its buffer. -/
structure Local where
  phase : Phase
  phys : ℕ → UInt8

/-- One step of `ext2_write_data`: a block read, the copy into the buffer, or a block write. The
place of a block is `i * blksz` in `block_read` and `block_write`, a product of two `int`s. -/
def Call.step {g : Geometry} (c : Call g) (l : Local) (disk : ℕ → UInt8) :
    Option (Local × (ℕ → UInt8)) :=
  match l.phase with
  | .reading k =>
    if k < c.devCount then
      some (⟨.reading (k + 1),
        memcpy l.phys (sx32 (k * g.blksz)) (memread disk ((c.start + k) * g.blksz) g.blksz)⟩, disk)
    else some (⟨.writing 0, memcpy l.phys c.offset c.buf⟩, disk)
  | .writing k =>
    if k < c.devCount then
      some (⟨.writing (k + 1), l.phys⟩,
        memcpy disk ((c.start + k) * g.blksz) (memread l.phys (sx32 (k * g.blksz)) g.blksz))
    else none

/-- No place of a block in the buffer overflows an `int`. -/
def Call.Defined {g : Geometry} (c : Call g) : Prop := ∀ k < c.devCount, k * g.blksz < 2 ^ 31

/-- The disk and the two calls. -/
structure State where
  disk : ℕ → UInt8
  caller : Bool → Local

/-- A step of call `t`. -/
def exec {g : Geometry} (call : Bool → Call g) (s : State) (t : Bool) : Option State :=
  ((call t).step (s.caller t) s.disk).map fun r =>
    { disk := r.2, caller := update s.caller t r.1 }

/-- Both calls are about to start; their buffers hold anything. -/
def Started (s : State) : Prop := ∀ t, (s.caller t).phase = .reading 0

/-- Both calls have returned. -/
def Finished {g : Geometry} (call : Bool → Call g) (s : State) : Prop :=
  ∀ t, (s.caller t).phase = .writing (call t).devCount

/-! ## Ranges -/

namespace Call

variable {g : Geometry} {c : Call g}

/-- The bytes the call is to change. -/
def range (c : Call g) : Set ℕ := Set.Ico c.off (c.off + c.buf.length)

/-- The bytes of the blocks from the first block of the range on that fit into a page, or into the
power of two above the end of the range. -/
def blocks (c : Call g) : Set ℕ :=
  Set.Ico (c.off / g.blocksize * g.blocksize) ((c.off / g.blocksize + c.count) * g.blocksize)

/-- The blocks are large enough for the range: its end is below 2 GiB from the start of its block,
and the blocks are pages, or the range ends in the second half of a block or behind it. -/
def Covered (c : Call g) : Prop :=
  c.buf = [] ∨ c.offset + c.buf.length < 2 ^ 31 ∧
    (g.blocksize ≤ pageSize ∨ g.blocksize ≤ 2 * (c.offset + c.buf.length))

end Call

theorem Geometry.blocksize_eq (g : Geometry) : g.blocksize = 2 ^ (10 + g.logSize) := by
  rw [Geometry.blocksize, Nat.shiftLeft_eq, Nat.pow_add]

theorem Geometry.blocksize_pos (g : Geometry) : 0 < g.blocksize :=
  lt_of_lt_of_le (by decide) g.page_le

theorem Geometry.blocksize_le (g : Geometry) : g.blocksize ≤ 2 ^ 30 := by
  rw [g.blocksize_eq]
  exact Nat.pow_le_pow_right (by decide) (by have := g.log_le; omega)

theorem Geometry.blksz_pos (g : Geometry) : 0 < g.blksz := lt_of_lt_of_le (by decide) g.sector_le

theorem Geometry.blksz_le (g : Geometry) : g.blksz ≤ g.blocksize :=
  le_of_dvd g.blocksize_pos g.blksz_dvd

variable {k : ℕ}

theorem Geometry.blocksize_dvd (g : Geometry) (h : g.blocksize ≤ 2 ^ k) : g.blocksize ∣ 2 ^ k := by
  rw [g.blocksize_eq] at h ⊢
  exact pow_dvd_pow 2 ((Nat.pow_le_pow_iff_right (by decide)).mp h)

variable {x : ℕ}

namespace Call

variable {g : Geometry} {c : Call g}

theorem al_le (c : Call g) : c.al ≤ 2 ^ 32 := by
  unfold al
  split
  · decide
  · exact Nat.pow_le_pow_right (by decide) (Nat.size_le.mpr (u32_lt _))

theorem al_le_of_lt (h : c.offset + c.buf.length < 2 ^ 31) : c.al ≤ 2 ^ 31 := by
  unfold al
  split
  · decide
  · rw [u64_of_lt (by omega), roundUpPow2, u32_of_lt (by omega)]
    exact Nat.pow_le_pow_right (by decide) (Nat.size_le.mpr h)

theorem al_eq_pow (c : Call g) : ∃ k, c.al = 2 ^ k := by
  unfold al
  split
  · exact ⟨12, rfl⟩
  · exact ⟨_, rfl⟩

section

variable (h : c.offset + c.buf.length < 2 ^ 32)

include h

theorem lt_al : c.offset + c.buf.length < c.al := by
  have hu : u64 (c.offset + c.buf.length) = c.offset + c.buf.length := u64_of_lt (by omega)
  unfold al
  split
  · omega
  · rw [hu, roundUpPow2, u32_of_lt h]
    exact lt_size_self _

omit h in
theorem count_mul (h : g.blocksize ≤ c.al) : c.count * g.blocksize = c.al := by
  obtain ⟨k, hk⟩ := c.al_eq_pow
  have hdvd : g.blocksize ∣ c.al := by
    rw [hk] at h ⊢
    exact g.blocksize_dvd h
  exact Nat.div_mul_cancel hdvd

omit h in
theorem count_eq_zero (h : c.al < g.blocksize) : c.count = 0 := div_eq_of_lt h

theorem two_mul_lt (hpos : 0 < c.offset + c.buf.length) (hal : c.al < g.blocksize) :
    2 * (c.offset + c.buf.length) < g.blocksize := by
  have hu : u64 (c.offset + c.buf.length) = c.offset + c.buf.length := u64_of_lt (by omega)
  have hpage : pageSize ≤ g.blocksize := g.page_le
  unfold al at hal
  rw [hu] at hal
  split at hal
  · next hlt =>
    -- Both the page and the block are powers of two, so the block has at least two pages.
    have hdvd : 2 ^ 13 ∣ g.blocksize := by
      rw [g.blocksize_eq] at hal ⊢
      have hlog : 12 < 10 + g.logSize := (Nat.pow_lt_pow_iff_right (a := 2) (by decide)).mp hal
      exact pow_dvd_pow 2 hlog
    have hle : 2 ^ 13 ≤ g.blocksize := le_of_dvd g.blocksize_pos hdvd
    have hpage' : pageSize = 4096 := rfl
    omega
  · rw [roundUpPow2, u32_of_lt h] at hal
    have hlt := lt_size_self (c.offset + c.buf.length)
    rw [g.blocksize_eq] at hal ⊢
    have hlog : size (c.offset + c.buf.length) + 1 ≤ 10 + g.logSize :=
      (Nat.pow_lt_pow_iff_right (by decide)).mp hal
    have hle : 2 ^ (size (c.offset + c.buf.length) + 1) ≤ 2 ^ (10 + g.logSize) :=
      Nat.pow_le_pow_right (by decide) hlog
    omega

theorem covered_of_le (hal : g.blocksize ≤ c.al) :
    g.blocksize ≤ pageSize ∨ g.blocksize ≤ 2 * (c.offset + c.buf.length) := by
  have hu : u64 (c.offset + c.buf.length) = c.offset + c.buf.length := u64_of_lt (by omega)
  unfold al at hal
  rw [hu] at hal
  split at hal
  · exact .inl hal
  · next hge =>
    right
    rw [roundUpPow2, u32_of_lt h] at hal
    have hsize : 0 < Nat.size (c.offset + c.buf.length) := by
      rw [Nat.size_pos]
      have : pageSize = 4096 := rfl
      omega
    have hle : 2 ^ (Nat.size (c.offset + c.buf.length) - 1) ≤ c.offset + c.buf.length :=
      Nat.lt_size.mp (by omega)
    have htwo : 2 ^ Nat.size (c.offset + c.buf.length) =
        2 * 2 ^ (Nat.size (c.offset + c.buf.length) - 1) := by
      rw [← Nat.pow_succ', Nat.succ_eq_add_one, Nat.sub_add_cancel hsize]
    omega

end

theorem devCount_mul (c : Call g) : c.devCount * g.blksz = c.count * g.blocksize := by
  have hdvd : g.blksz ∣ g.blocksize := g.blksz_dvd
  rw [devCount, Nat.mul_assoc, Nat.div_mul_cancel hdvd]

/-- No place overflows if and only if there are no more than 2 GiB. -/
theorem defined_iff (c : Call g) : c.Defined ↔ c.count * g.blocksize ≤ 2 ^ 31 := by
  rw [← devCount_mul]
  constructor
  · intro hdef
    by_contra hgt
    -- The blocks fill the buffer, which has more than 2 GiB: its last block is out of reach.
    rw [devCount_mul] at hgt
    have hal : g.blocksize ≤ c.al := by
      by_contra hcon
      rw [count_eq_zero (not_le.mp hcon), zero_mul] at hgt
      omega
    rw [count_mul hal] at hgt
    obtain ⟨k, hk⟩ := c.al_eq_pow
    have hlog : 31 < k := (Nat.pow_lt_pow_iff_right (a := 2) (by decide)).mp (by omega)
    have hfour : 2 ^ 32 ≤ c.al := hk ▸ Nat.pow_le_pow_right (by decide) hlog
    have hdev : c.devCount * g.blksz = c.al := c.devCount_mul.trans (count_mul hal)
    have hpos : 0 < c.devCount := by
      by_contra hzero
      rw [Nat.eq_zero_of_not_pos hzero, zero_mul] at hdev
      omega
    have hlast := hdef (c.devCount - 1) (by omega)
    rw [Nat.sub_mul, one_mul] at hlast
    have hblock := g.blksz_le.trans g.blocksize_le
    omega
  · intro hle k hk
    exact (Nat.mul_lt_mul_of_pos_right hk g.blksz_pos).trans_le hle

/-- **The condition on the range says that the blocks rewritten contain it**, and have their places
in the buffer. -/
theorem covered_iff (c : Call g) : c.Covered ↔
    c.Defined ∧ (c.buf = [] ∨ c.offset + c.buf.length ≤ c.count * g.blocksize) := by
  have hdefined : c.offset + c.buf.length < 2 ^ 31 → c.Defined := fun hlt =>
    c.defined_iff.mpr ((div_mul_le_self _ _).trans (al_le_of_lt hlt))
  rcases eq_or_ne c.buf [] with hnil | hne
  · have hoffset : c.offset < g.blocksize := mod_lt _ g.blocksize_pos
    have hblock := g.blocksize_le
    refine iff_of_true (.inl hnil) ⟨hdefined ?_, .inl hnil⟩
    rw [hnil, List.length_nil]
    omega
  have hpos : 0 < c.buf.length := List.length_pos_iff.mpr hne
  simp only [Covered, hne, false_or]
  constructor
  · rintro ⟨hlt', hsize⟩
    refine ⟨hdefined hlt', ?_⟩
    have hlt : c.offset + c.buf.length < 2 ^ 32 := by omega
    have hal : g.blocksize ≤ c.al := by
      by_contra hcon
      have htwo := two_mul_lt hlt (by omega) (not_le.mp hcon)
      have hpage : pageSize ≤ c.al := by
        unfold al
        split
        · exact le_rfl
        · next hge =>
          refine (not_lt.mp hge).trans ?_
          rw [roundUpPow2, u64_of_lt (by omega), u32_of_lt hlt]
          exact (lt_size_self _).le
      omega
    rw [count_mul hal]
    exact (lt_al hlt).le
  · rintro ⟨hdef, hle⟩
    have hal : g.blocksize ≤ c.al := by
      by_contra hcon
      rw [count_eq_zero (not_le.mp hcon), zero_mul] at hle
      omega
    have htwo := c.defined_iff.mp hdef
    rw [count_mul hal] at hle htwo
    have hlt : c.offset + c.buf.length < 2 ^ 32 := by
      refine lt_of_le_of_ne (hle.trans c.al_le) fun heq => ?_
      -- At exactly 4 GiB the argument of `__round_up_pow2` is cut to 0.
      have : c.al = 1 := by
        unfold al
        rw [heq]
        decide
      omega
    have hlow := lt_al hlt
    exact ⟨by omega, covered_of_le hlt hal⟩

/-! ### The blocks in bytes -/

theorem start_mul (c : Call g) : c.start * g.blksz = c.off / g.blocksize * g.blocksize := by
  have hlt : c.off / g.blocksize < 2 ^ 32 := by
    refine lt_of_le_of_lt ?_ g.blockCount_lt
    have hle : c.off ≤ g.blockCount * g.blocksize := (le_add_right _ _).trans c.onVolume
    exact Nat.div_le_of_le_mul (by rwa [Nat.mul_comm])
  have hdvd : g.blksz ∣ c.off / g.blocksize * g.blocksize := g.blksz_dvd.mul_left _
  rw [start, fsblock, u32_of_lt hlt, Nat.div_mul_cancel hdvd]

theorem off_eq (c : Call g) : c.off = c.start * g.blksz + c.offset := by
  rw [start_mul, offset, div_add_mod']

theorem mem_blocks :
    x ∈ c.blocks ↔ c.start * g.blksz ≤ x ∧ x < c.start * g.blksz + c.devCount * g.blksz := by
  rw [blocks, Set.mem_Ico, start_mul, devCount_mul, add_mul]

theorem mem_range : x ∈ c.range ↔ c.off ≤ x ∧ x < c.off + c.buf.length := Set.mem_Ico

theorem range_subset_blocks (h : c.Covered) : c.range ⊆ c.blocks := by
  intro x hx
  rw [mem_range] at hx
  rw [mem_blocks]
  have hoff := c.off_eq
  have hdev := c.devCount_mul
  rcases (c.covered_iff.mp h).2 with hnil | hle
  · rw [hnil, List.length_nil] at hx
    omega
  · omega

end Call

/-! ## Calls that do not meet -/

variable {t : Bool}

section Steps

variable {g : Geometry} {call : Bool → Call g} {s s' : State} {disk : ℕ → UInt8}

/-- The bytes from the start of its blocks that a call has written. -/
def Call.written (_ : Call g) : Phase → ℕ
  | .reading _ => 0
  | .writing k => k * g.blksz

/-- The buffer of a call that has read some of its blocks, or that has the new bytes in. -/
def Call.BufferOk (c : Call g) (disk : ℕ → UInt8) (l : Local) : Prop :=
  match l.phase with
  | .reading k => k ≤ c.devCount ∧ ∀ i < k * g.blksz, l.phys i = disk (c.start * g.blksz + i)
  | .writing k => k ≤ c.devCount ∧ ∀ i < c.devCount * g.blksz,
      l.phys i = memcpy disk c.off c.buf (c.start * g.blksz + i)

/-- What holds while the calls run, relative to the disk at the start: the bytes of neither range
are as they were, and those of a range are new as far as the call has written. -/
structure Inv (call : Bool → Call g) (disk : ℕ → UInt8) (s : State) : Prop where
  buffer : ∀ t, (call t).BufferOk disk (s.caller t)
  other : ∀ x, (∀ t, x ∉ (call t).range) → s.disk x = disk x
  behind : ∀ t, ∀ x ∈ (call t).range,
    x < (call t).start * g.blksz + (call t).written (s.caller t).phase →
      s.disk x = memcpy disk (call t).off (call t).buf x
  ahead : ∀ t, ∀ x ∈ (call t).range,
    (call t).start * g.blksz + (call t).written (s.caller t).phase ≤ x → s.disk x = disk x

/-- Neither range meets the blocks of the other call. -/
def Apart (call : Bool → Call g) : Prop := ∀ t, Disjoint (call t).range (call (!t)).blocks

open Call

theorem Inv.of_started (h : Started s) : Inv call s.disk s := by
  constructor
  · intro t
    simp [Call.BufferOk, h t]
  · intro x _
    rfl
  · intro t x hx hlt
    -- Nothing is written yet, and the range starts behind the start of its block.
    have hoff := (call t).off_eq
    have hge := (mem_range.mp hx).1
    simp only [h t, written] at hlt
    omega
  · intro t x _ _
    rfl

/-- **What a step does**: it reads a block, copies the new bytes into the buffer, or writes a
block. -/
theorem exec_cases (hdef : (call t).Defined) (h : exec call s t = some s') :
    (∃ k < (call t).devCount, (s.caller t).phase = .reading k ∧
      s' = ⟨s.disk, update s.caller t ⟨.reading (k + 1), memcpy (s.caller t).phys
        (k * g.blksz) (memread s.disk (((call t).start + k) * g.blksz) g.blksz)⟩⟩) ∨
    (∃ k, (call t).devCount ≤ k ∧ (s.caller t).phase = .reading k ∧ s' = ⟨s.disk, update s.caller t
        ⟨.writing 0, memcpy (s.caller t).phys (call t).offset (call t).buf⟩⟩) ∨
    (∃ k < (call t).devCount, (s.caller t).phase = .writing k ∧
      s' = ⟨memcpy s.disk (((call t).start + k) * g.blksz)
          (memread (s.caller t).phys (k * g.blksz) g.blksz),
        update s.caller t ⟨.writing (k + 1), (s.caller t).phys⟩⟩) := by
  obtain ⟨⟨l, d⟩, hstep, rfl⟩ := Option.map_eq_some_iff.mp h
  unfold step at hstep
  split at hstep
  · next k hk =>
    split at hstep
    · next hlt =>
      rw [sx32_of_lt (hdef k hlt)] at hstep
      cases hstep
      exact .inl ⟨k, hlt, hk, rfl⟩
    · next hge =>
      cases hstep
      exact .inr (.inl ⟨k, not_lt.mp hge, hk, rfl⟩)
  · next k hk =>
    split at hstep
    · next hlt =>
      rw [sx32_of_lt (hdef k hlt)] at hstep
      cases hstep
      exact .inr (.inr ⟨k, hlt, hk, rfl⟩)
    · cases hstep

variable (h : Inv call disk s)

include h

theorem Inv.disk_eq (ha : Apart call) (hphase : (s.caller t).phase = .reading k)
    (hx : x ∈ (call t).blocks) : s.disk x = disk x := by
  by_cases hr : x ∈ (call t).range
  · refine h.ahead t x hr ?_
    rw [hphase, written]
    exact (mem_blocks.mp hx).1
  · refine h.other x fun u hu => ?_
    rcases Bool.eq_or_eq_not u t with rfl | rfl
    · exact hr hu
    · refine Set.disjoint_left.mp (ha (!t)) hu ?_
      rwa [Bool.not_not]

theorem Inv.advance {l : Local} (hbuffer : (call t).BufferOk disk l)
    (hwritten : (call t).written l.phase = (call t).written (s.caller t).phase) :
    Inv call disk ⟨s.disk, update s.caller t l⟩ := by
  have hsame : ∀ u, (call u).written (update s.caller t l u).phase =
      (call u).written (s.caller u).phase := by
    intro u
    rcases eq_or_ne u t with rfl | hne
    · rw [update_self, hwritten]
    · rw [update_of_ne hne]
  constructor
  · intro u
    change (call u).BufferOk disk (update s.caller t l u)
    rcases eq_or_ne u t with rfl | hne
    · rwa [update_self]
    · rw [update_of_ne hne]
      exact h.buffer u
  · exact h.other
  · intro u x hx hlt
    exact h.behind u x hx (hsame u ▸ hlt)
  · intro u x hx hle
    exact h.ahead u x hx (hsame u ▸ hle)

theorem Inv.read (ha : Apart call) (hk : k < (call t).devCount)
    (hphase : (s.caller t).phase = .reading k) :
    Inv call disk ⟨s.disk, update s.caller t ⟨.reading (k + 1), memcpy (s.caller t).phys
      (k * g.blksz) (memread s.disk (((call t).start + k) * g.blksz) g.blksz)⟩⟩ := by
  have hbuffer := h.buffer t
  simp only [Call.BufferOk, hphase] at hbuffer
  refine h.advance ⟨hk, fun i hi => ?_⟩ (by rw [hphase]; rfl)
  have hle : (k + 1) * g.blksz ≤ (call t).devCount * g.blksz := mul_le_mul_right _ hk
  rw [succ_mul] at hi hle
  dsimp only
  rw [memcpy_memread]
  split
  · rw [Nat.add_mul, Nat.add_assoc, Nat.add_sub_cancel' (by omega)]
    exact h.disk_eq ha hphase (mem_blocks.mpr ⟨by omega, by omega⟩)
  · exact hbuffer.2 i (by omega)

theorem Inv.copy (hk : (call t).devCount ≤ k) (hphase : (s.caller t).phase = .reading k) :
    Inv call disk ⟨s.disk, update s.caller t
      ⟨.writing 0, memcpy (s.caller t).phys (call t).offset (call t).buf⟩⟩ := by
  have hbuffer := h.buffer t
  simp only [Call.BufferOk, hphase] at hbuffer
  have hkeq : k = (call t).devCount := le_antisymm hbuffer.1 hk
  refine h.advance ⟨zero_le _, fun i hi => ?_⟩ (by rw [hphase]; exact zero_mul _)
  rw [(call t).off_eq]
  exact memcpy_shift (hbuffer.2 i (hkeq ▸ hi))

theorem Inv.write (ha : Apart call) (hk : k < (call t).devCount)
    (hphase : (s.caller t).phase = .writing k) :
    Inv call disk ⟨memcpy s.disk (((call t).start + k) * g.blksz)
        (memread (s.caller t).phys (k * g.blksz) g.blksz),
      update s.caller t ⟨.writing (k + 1), (s.caller t).phys⟩⟩ := by
  have hbuffer := h.buffer t
  simp only [Call.BufferOk, hphase] at hbuffer
  have hle : (k + 1) * g.blksz ≤ (call t).devCount * g.blksz := mul_le_mul_right _ hk
  rw [succ_mul] at hle
  -- The block after the write, byte by byte.
  have hin : ∀ x, (call t).start * g.blksz + k * g.blksz ≤ x →
      x < (call t).start * g.blksz + k * g.blksz + g.blksz →
      memcpy s.disk (((call t).start + k) * g.blksz)
        (memread (s.caller t).phys (k * g.blksz) g.blksz) x =
      memcpy disk (call t).off (call t).buf x := by
    intro x hge hlt
    rw [memcpy_memread, add_mul, if_pos ⟨hge, hlt⟩, hbuffer.2 _ (by omega)]
    congr 1
    omega
  have hout : ∀ x, x < (call t).start * g.blksz + k * g.blksz ∨
      (call t).start * g.blksz + k * g.blksz + g.blksz ≤ x →
      memcpy s.disk (((call t).start + k) * g.blksz)
        (memread (s.caller t).phys (k * g.blksz) g.blksz) x = s.disk x := by
    intro x hx
    rw [memcpy_memread, add_mul, if_neg (by omega)]
  -- The other call's range does not meet the block.
  have hother : ∀ u, u ≠ t → ∀ x ∈ (call u).range, memcpy s.disk (((call t).start + k) * g.blksz)
        (memread (s.caller t).phys (k * g.blksz) g.blksz) x = s.disk x := by
    intro u hu x hx
    apply hout
    by_contra hcon
    refine Set.disjoint_left.mp (ha u) hx ?_
    rw [show (!u) = t by cases u <;> cases t <;> simp_all]
    exact mem_blocks.mpr ⟨by omega, by omega⟩
  constructor
  · intro u
    change (call u).BufferOk disk (update s.caller t _ u)
    rcases eq_or_ne u t with rfl | hne
    · rw [update_self]
      exact ⟨hk, hbuffer.2⟩
    · rw [update_of_ne hne]
      exact h.buffer u
  · intro x hx
    by_cases hblock : (call t).start * g.blksz + k * g.blksz ≤ x ∧
        x < (call t).start * g.blksz + k * g.blksz + g.blksz
    · refine (hin x hblock.1 hblock.2).trans ?_
      have hnot := hx t
      rw [mem_range] at hnot
      rcases lt_or_ge x (call t).off with hlt | hge
      · exact memcpy_of_lt hlt
      · exact memcpy_of_ge (by omega)
    · exact (hout x (by omega)).trans (h.other x hx)
  · intro u x hx hlt
    change memcpy s.disk _ _ x = _
    change x < _ + (call u).written (update s.caller t _ u).phase at hlt
    rcases eq_or_ne u t with rfl | hne
    · rw [update_self, written, succ_mul] at hlt
      by_cases hge : (call u).start * g.blksz + k * g.blksz ≤ x
      · exact hin x hge (by omega)
      · rw [hout x (by omega)]
        exact h.behind u x hx (by rw [hphase, written]; omega)
    · rw [update_of_ne hne] at hlt
      rw [hother u hne x hx]
      exact h.behind u x hx hlt
  · intro u x hx hge
    change memcpy s.disk _ _ x = _
    change _ + (call u).written (update s.caller t _ u).phase ≤ x at hge
    rcases eq_or_ne u t with rfl | hne
    · rw [update_self, written, succ_mul] at hge
      rw [hout x (by omega)]
      exact h.ahead u x hx (by rw [hphase, written]; omega)
    · rw [update_of_ne hne] at hge
      rw [hother u hne x hx]
      exact h.ahead u x hx hge

/-- **Calls that do not meet keep out of each other's way**, step by step. -/
theorem Inv.exec (hdef : ∀ t, (call t).Defined) (ha : Apart call)
    (hexec : exec call s t = some s') : Inv call disk s' := by
  rcases exec_cases (hdef t) hexec with
    ⟨k, hk, hphase, rfl⟩ | ⟨k, hk, hphase, rfl⟩ | ⟨k, hk, hphase, rfl⟩
  · exact h.read ha hk hphase
  · exact h.copy hk hphase
  · exact h.write ha hk hphase

end Steps

/-! ## Runs of one call -/

section Runs

variable {g : Geometry} {call : Bool → Call g} {s : State} {t : Bool}

/-- A step of one of the calls. -/
def Step (call : Bool → Call g) (s : State) (t : Bool) (s' : State) : Prop :=
  exec call s t = some s'

variable (hdef : ∀ t, (call t).Defined)

include hdef

theorem reaches_read {n : ℕ} (hn : k + n = (call t).devCount)
    (hphase : (s.caller t).phase = .reading k)
    (hbuffer : ∀ i < k * g.blksz, (s.caller t).phys i = s.disk ((call t).start * g.blksz + i)) :
    ∃ l, Reaches (Step call) s ⟨s.disk, update s.caller t l⟩ ∧ l.phase = .writing 0 ∧
      ∀ i < (call t).devCount * g.blksz,
        l.phys i = memcpy s.disk (call t).off (call t).buf ((call t).start * g.blksz + i) := by
  induction n generalizing s k with
  | zero =>
    refine ⟨⟨.writing 0, memcpy (s.caller t).phys (call t).offset (call t).buf⟩,
      .of_step (e := t) ?_, rfl, fun i hi => ?_⟩
    · simp [Step, exec, Call.step, hphase, ← hn]
    · rw [(call t).off_eq]
      exact memcpy_shift (hbuffer i (by rwa [← hn] at hi))
  | succ n ih =>
    have hlt : k < (call t).devCount := by omega
    obtain ⟨s', hs'⟩ : ∃ s' : State, s' = ⟨s.disk, update s.caller t
      ⟨.reading (k + 1), memcpy (s.caller t).phys (k * g.blksz)
        (memread s.disk (((call t).start + k) * g.blksz) g.blksz)⟩⟩ := ⟨_, rfl⟩
    have hcaller : s'.caller t = ⟨.reading (k + 1), memcpy (s.caller t).phys (k * g.blksz)
        (memread s.disk (((call t).start + k) * g.blksz) g.blksz)⟩ := by
      rw [hs']
      exact update_self ..
    have hstep : Step call s t s' := by
      rw [hs']
      simp [Step, exec, Call.step, hphase, hlt, sx32_of_lt (hdef t k hlt)]
    obtain ⟨l, hreach, hl, hphys⟩ := ih (s := s') (k := k + 1) (by omega) (by rw [hcaller]) (by
      intro i hi
      rw [hcaller, hs']
      dsimp only
      rw [succ_mul] at hi
      rw [memcpy_memread, add_mul, add_assoc]
      split
      · rw [Nat.add_sub_cancel' (by omega)]
      · exact hbuffer i (by omega))
    rw [hs'] at hreach hphys
    rw [update_idem] at hreach
    exact ⟨l, (Reaches.of_step (hs' ▸ hstep)).trans hreach, hl, hphys⟩

theorem reaches_write {n : ℕ} (hn : k + n = (call t).devCount)
    (hphase : (s.caller t).phase = .writing k) :
    ∃ disk', Reaches (Step call) s ⟨disk', update s.caller t
        ⟨.writing (call t).devCount, (s.caller t).phys⟩⟩ ∧
      ∀ x, disk' x =
        if (call t).start * g.blksz + k * g.blksz ≤ x ∧
            x < (call t).start * g.blksz + (call t).devCount * g.blksz then
          (s.caller t).phys (x - (call t).start * g.blksz)
        else s.disk x := by
  induction n generalizing s k with
  | zero =>
    obtain rfl : k = (call t).devCount := hn
    refine ⟨s.disk, ?_, fun x => ?_⟩
    · rw [← hphase, update_eq_self]
      exact Reaches.refl _ _
    · rw [if_neg (by omega)]
  | succ n ih =>
    have hlt : k < (call t).devCount := by omega
    have hle : (k + 1) * g.blksz ≤ (call t).devCount * g.blksz := mul_le_mul_right _ hlt
    rw [succ_mul] at hle
    obtain ⟨s', hs'⟩ : ∃ s' : State, s' = ⟨memcpy s.disk (((call t).start + k) * g.blksz)
        (memread (s.caller t).phys (k * g.blksz) g.blksz),
      update s.caller t ⟨.writing (k + 1), (s.caller t).phys⟩⟩ := ⟨_, rfl⟩
    have hcaller : s'.caller t = ⟨.writing (k + 1), (s.caller t).phys⟩ := by
      rw [hs']
      exact update_self ..
    have hstep : Step call s t s' := by
      rw [hs']
      simp [Step, exec, Call.step, hphase, hlt, sx32_of_lt (hdef t k hlt)]
    obtain ⟨disk', hreach, hdisk⟩ := ih (s := s') (k := k + 1) (by omega) (by rw [hcaller])
    rw [hcaller] at hreach hdisk
    refine ⟨disk', (Reaches.of_step hstep).trans ?_, fun x => ?_⟩
    · rw [hs'] at hreach ⊢
      rw [update_idem] at hreach
      exact hreach
    · rw [hdisk x, hs', succ_mul]
      dsimp only
      rw [memcpy_memread, add_mul]
      by_cases hx : (call t).start * g.blksz + k * g.blksz ≤ x ∧
          x < (call t).start * g.blksz + k * g.blksz + g.blksz
      · rw [if_neg (by omega), if_pos hx, if_pos (by omega)]
        congr 1
        omega
      · rw [if_neg hx]
        refine if_congr ?_ rfl rfl
        omega

theorem reaches_full (hphase : (s.caller t).phase = .reading 0) :
    ∃ disk' l, Reaches (Step call) s ⟨disk', update s.caller t l⟩ ∧
      l.phase = .writing (call t).devCount ∧
      (∀ x ∈ (call t).blocks, disk' x = memcpy s.disk (call t).off (call t).buf x) ∧
      ∀ x ∉ (call t).blocks, disk' x = s.disk x := by
  obtain ⟨l, hread, hl, hphys⟩ := reaches_read hdef (zero_add _) hphase (by simp)
  obtain ⟨disk', hwrite, hdisk⟩ := reaches_write hdef (t := t)
    (s := ⟨s.disk, update s.caller t l⟩) (zero_add _) (by simpa using hl)
  simp only [update_self, update_idem, zero_mul, add_zero]
    at hwrite hdisk
  refine ⟨disk', _, hread.trans hwrite, rfl, fun x hx => ?_, fun x hx => ?_⟩
  · rw [Call.mem_blocks] at hx
    rw [hdisk x, if_pos hx, hphys _ (by omega), Nat.add_sub_cancel' hx.1]
  · rw [hdisk x, if_neg (mt Call.mem_blocks.mpr hx)]

omit hdef in
theorem Call.memcpy_of_notMem {c : Call g} {disk : ℕ → UInt8} (h : x ∉ c.range) :
    memcpy disk c.off c.buf x = disk x := by
  rw [mem_range] at h
  rcases lt_or_ge x c.off with hlt | hge
  · exact memcpy_of_lt hlt
  · exact memcpy_of_ge (by omega)

theorem reaches_sequential (hs : Started s) (hx : x ∉ (call t).blocks)
    (hother : x ∉ (call (!t)).range) :
    ∃ s', Reaches (Step call) s s' ∧ Finished call s' ∧ s'.disk x = s.disk x := by
  obtain ⟨disk₁, l₁, hreach₁, hl₁, -, hout₁⟩ := reaches_full hdef (hs t)
  have hne : (!t) ≠ t := Bool.not_ne_self t
  obtain ⟨disk₂, l₂, hreach₂, hl₂, hin₂, hout₂⟩ := reaches_full hdef (t := !t)
    (s := ⟨disk₁, update s.caller t l₁⟩) (by simpa [hne] using hs (!t))
  refine ⟨_, hreach₁.trans hreach₂, fun u => ?_, ?_⟩
  · rcases Bool.eq_or_eq_not u t with rfl | rfl
    · simpa [hne.symm] using hl₁
    · simpa using hl₂
  · by_cases hblock : x ∈ (call (!t)).blocks
    · exact (hin₂ x hblock).trans ((Call.memcpy_of_notMem hother).trans (hout₁ x hx))
    · exact (hout₂ x hblock).trans (hout₁ x hx)

/-- **One call inside the other**: the outer call reads before the inner one runs and writes after
it, so it puts back the old bytes. -/
theorem reaches_clobbered (hs : Started s) (hx : x ∈ (call (!t)).blocks)
    (hother : x ∉ (call (!t)).range) :
    ∃ s', Reaches (Step call) s s' ∧ Finished call s' ∧ s'.disk x = s.disk x := by
  have hne : (!t) ≠ t := Bool.not_ne_self t
  obtain ⟨l, hread, hl, hphys⟩ := reaches_read hdef (t := !t) (zero_add _) (hs (!t)) (by simp)
  obtain ⟨disk₁, l₁, hinner, hl₁, -⟩ := reaches_full hdef (t := t)
    (s := ⟨s.disk, update s.caller (!t) l⟩) (by simpa [hne.symm] using hs t)
  obtain ⟨disk₂, hwrite, hdisk⟩ := reaches_write hdef (t := !t)
    (s := ⟨disk₁, update (update s.caller (!t) l) t l₁⟩) (zero_add _)
    (by simpa [hne] using hl)
  refine ⟨_, hread.trans (hinner.trans hwrite), fun u => ?_, ?_⟩
  · rcases Bool.eq_or_eq_not u t with rfl | rfl
    · simpa [hne.symm] using hl₁
    · simp
  · rw [Call.mem_blocks] at hx
    refine (hdisk x).trans ?_
    dsimp only
    rw [zero_mul, add_zero, if_pos hx, update_of_ne hne, update_self,
      hphys _ (by omega), Nat.add_sub_cancel' hx.1]
    exact Call.memcpy_of_notMem hother

end Runs

/-! ## Both updates survive -/

section Survive

variable {g : Geometry} {call : Bool → Call g} {s : State} {disk : ℕ → UInt8}

/-- The disk with the bytes of both calls. -/
def bothWritten (call : Bool → Call g) (disk : ℕ → UInt8) : ℕ → UInt8 :=
  memcpy (memcpy disk (call false).off (call false).buf) (call true).off (call true).buf

/-- The ranges of the two calls have no byte in common. -/
def DisjointRanges (call : Bool → Call g) : Prop := ∀ t, Disjoint (call t).range (call (!t)).range

theorem memcpy_of_mem_range {c : Call g} (hx : x ∈ c.range) :
    memcpy disk c.off c.buf x = c.buf.getD (x - c.off) 0 := by
  rw [Call.mem_range] at hx
  obtain ⟨j, rfl⟩ : ∃ j, x = c.off + j := ⟨x - c.off, by omega⟩
  have hj : j < c.buf.length := by omega
  rw [memcpy_of_mem hj, Nat.add_sub_cancel_left, List.getD_eq_getElem?_getD,
    List.getElem?_eq_getElem hj, Option.getD_some]

theorem bothWritten_of_mem (hd : DisjointRanges call) (hx : x ∈ (call t).range) :
    bothWritten call disk x = memcpy disk (call t).off (call t).buf x := by
  have hnot : x ∉ (call (!t)).range := Set.disjoint_left.mp (hd t) hx
  cases t with
  | false => exact Call.memcpy_of_notMem hnot
  | true =>
    rw [bothWritten, memcpy_of_mem_range hx, memcpy_of_mem_range hx]

theorem bothWritten_of_notMem (hx : ∀ t, x ∉ (call t).range) :
    bothWritten call disk x = disk x := by
  rw [bothWritten, Call.memcpy_of_notMem (hx true), Call.memcpy_of_notMem (hx false)]

theorem Inv.disk_of_finished (h : Inv call disk s) (hd : DisjointRanges call)
    (hcovered : ∀ t, (call t).Covered) (hfin : Finished call s) :
    s.disk = bothWritten call disk := by
  funext x
  by_cases hx : ∃ t, x ∈ (call t).range
  · obtain ⟨t, ht⟩ := hx
    rw [bothWritten_of_mem hd ht]
    refine h.behind t x ht ?_
    rw [hfin t, Call.written]
    exact (Call.mem_blocks.mp (Call.range_subset_blocks (hcovered t) ht)).2
  · have hnot : ∀ t, x ∉ (call t).range := fun t ht => hx ⟨t, ht⟩
    rw [bothWritten_of_notMem hnot, h.other x hnot]

/-- **The pairs of calls whose updates survive every interleaving** are those where each call's
blocks are large enough for its range and do not meet the other call's range: no place in a buffer
overflows, and whatever the disk holds and in whichever order the block reads and writes of the two
calls come, when both have finished the disk holds both updates and every other byte is
unchanged. -/
theorem both_written_iff (call : Bool → Call g) (hd : DisjointRanges call) :
    ((∀ t, (call t).Defined) ∧ ∀ s run, Started s → Along (Step call) s run →
      Finished call (final s run) → (final s run).disk = bothWritten call s.disk) ↔
    ∀ t, (call t).Covered ∧ Disjoint (call t).range (call (!t)).blocks := by
  constructor
  · rintro ⟨hdef, h⟩ t
    -- A byte of a range that is as before at the end of some run, whatever the disk held.
    have hlost : ∀ x ∈ (call t).range, ¬ ∀ s, Started s →
        ∃ s', Reaches (Step call) s s' ∧ Finished call s' ∧ s'.disk x = s.disk x := by
      intro x hx hall
      have hs : Started ⟨fun _ => (call t).buf.getD (x - (call t).off) 0 + 1,
        fun _ => ⟨.reading 0, fun _ => 0⟩⟩ := fun _ => rfl
      obtain ⟨s', ⟨run, hrun, rfl⟩, hfin, hx'⟩ := hall _ hs
      rw [h _ run hs hrun hfin, bothWritten_of_mem hd hx, memcpy_of_mem_range hx] at hx'
      simp at hx'
    have hnot : ∀ x ∈ (call t).range, x ∉ (call (!t)).range :=
      fun x hx => Set.disjoint_left.mp (hd t) hx
    constructor
    · by_contra hcon
      rw [Call.covered_iff, and_iff_right (hdef t), not_or, not_le] at hcon
      have hpos : 0 < (call t).buf.length := List.length_pos_iff.mpr hcon.1
      have hoff := (call t).off_eq
      have hdev := (call t).devCount_mul
      have hlast : (call t).off + (call t).buf.length - 1 ∈ (call t).range :=
        Call.mem_range.mpr ⟨by omega, by omega⟩
      refine hlost _ hlast fun s hs => reaches_sequential hdef (t := t) hs ?_ (hnot _ hlast)
      rw [Call.mem_blocks]
      omega
    · refine Set.disjoint_left.mpr fun x hx hblock => ?_
      exact hlost x hx fun s hs => reaches_clobbered hdef hs hblock (hnot x hx)
  · intro h
    have hdef : ∀ t, (call t).Defined := fun t => ((call t).covered_iff.mp (h t).1).1
    refine ⟨hdef, fun s run hs hrun hfin => ?_⟩
    have hinv : After (Inv call s.disk) s run :=
      hrun.after_of_step (fun _ _ _ hI hstep => hI.exec hdef (fun t => (h t).2) hstep)
        (.of_started hs)
    exact hinv.final.disk_of_finished hd (fun t => (h t).1) hfin

/-- A volume of eight blocks of 4096 bytes on a device with blocks of 512. -/
def smallVolume : Geometry where
  logSize := 2
  blockCount := 8
  blksz := 512
  blockCount_lt := by decide
  page_le := by decide
  log_le := by decide
  sector_le := by decide
  blksz_dvd := by decide

/-- One byte in each of two blocks. -/
def twoBlocks (t : Bool) : Call smallVolume :=
  ⟨if t then 4096 else 0, [7], by cases t <;> decide⟩

theorem both_written_two_blocks : DisjointRanges twoBlocks ∧ (∀ t, (twoBlocks t).Defined) ∧
    ∀ s run, Started s → Along (Step twoBlocks) s run → Finished twoBlocks (final s run) →
      (final s run).disk = bothWritten twoBlocks s.disk := by
  have hd : DisjointRanges twoBlocks := by
    intro t
    cases t <;> exact Set.Ico_disjoint_Ico.mpr (by decide)
  refine ⟨hd, (both_written_iff twoBlocks hd).mpr fun t => ⟨.inr ⟨?_, .inl ?_⟩, ?_⟩⟩
  · cases t <;> decide
  · decide
  · cases t <;> exact Set.Ico_disjoint_Ico.mpr (by decide)

/-- The link count fields of two neighbouring inodes of 128 bytes. -/
def twoInodes (t : Bool) : Call smallVolume :=
  ⟨if t then 128 + 26 else 26, [2, 0], by cases t <;> decide⟩

/-- **An inode update can undo the update of its neighbour**: both calls read the block before
either has written it, and at the end the disk holds one update only. -/
theorem neighbour_undone : DisjointRanges twoInodes ∧
    ∃ s run, Started s ∧ Along (Step twoInodes) s run ∧ Finished twoInodes (final s run) ∧
      (final s run).disk ≠ bothWritten twoInodes s.disk := by
  have hd : DisjointRanges twoInodes := by
    intro t
    cases t <;> exact Set.Ico_disjoint_Ico.mpr (by decide)
  have hs : Started ⟨fun _ => 1, fun _ => ⟨.reading 0, fun _ => 0⟩⟩ := fun _ => rfl
  have hx : 26 ∈ (twoInodes false).range := ⟨by decide, by decide⟩
  have hblock : 26 ∈ (twoInodes true).blocks := ⟨by decide, by decide⟩
  have hdef : ∀ t, (twoInodes t).Defined := by unfold Call.Defined; decide
  obtain ⟨s', ⟨run, hrun, rfl⟩, hfin, hdisk⟩ :=
    reaches_clobbered hdef (t := false) hs hblock (Set.disjoint_left.mp (hd false) hx)
  refine ⟨hd, _, run, hs, hrun, hfin, fun heq => ?_⟩
  rw [heq, bothWritten_of_mem hd hx, memcpy_of_mem_range hx] at hdisk
  revert hdisk
  decide

end Survive

end SeaKernel.Ext2.WriteData
