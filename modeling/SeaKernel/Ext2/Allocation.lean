import SeaKernel.Ext2.Volume

/-!
# Free blocks and inodes

The group descriptors of a consistent volume count the clear bits of their bitmaps, and block 0,
which holds the superblock, is in use. On such a volume `__alloc_block` hands out a block that was
free, or fails and changes nothing; `_alloc_inode` likewise.

## Main results

* `Books.allocBlock`, `Books.allocInode`: the allocations
* `Books.releaseInode`: a released inode is free again
-/

namespace SeaKernel.Ext2

open Volume Function List Option Nat

/-- The number of clear bits among the first `bits`. -/
def clearBits (bitmap : ℕ → Bool) (bits : ℕ) : ℕ :=
  ((Finset.range bits).filter fun i => bitmap i = false).card

section Bitmap

variable {bitmap : ℕ → Bool} {bits i : ℕ}

theorem firstClear_eq_some (h : firstClear bitmap bits = some i) : i < bits ∧ bitmap i = false := by
  have hfound := find?_some h
  have hmem := mem_of_find?_eq_some h
  exact ⟨mem_range.mp hmem, by simpa using hfound⟩

theorem exists_firstClear (h : 0 < clearBits bitmap bits) :
    ∃ i, firstClear bitmap bits = some i := by
  obtain ⟨i, hi⟩ := Finset.card_pos.mp h
  obtain ⟨hlt, hclear⟩ := Finset.mem_filter.mp hi
  refine isSome_iff_exists.mp (find?_isSome.mpr ⟨i, ?_, ?_⟩)
  · exact mem_range.mpr (Finset.mem_range.mp hlt)
  · simp [hclear]

theorem clearBits_set (hi : i < bits) (hclear : bitmap i = false) :
    clearBits (update bitmap i true) bits = clearBits bitmap bits - 1 := by
  have hmem : i ∈ (Finset.range bits).filter fun i => bitmap i = false := by simp [hi, hclear]
  rw [clearBits, clearBits, ← Finset.card_erase_of_mem hmem]
  congr 1
  ext j
  by_cases hj : j = i <;> simp [hj]

theorem clearBits_clear (hi : i < bits) (hset : bitmap i = true) :
    clearBits (update bitmap i false) bits = clearBits bitmap bits + 1 := by
  have hmem : i ∉ (Finset.range bits).filter fun i => bitmap i = false := by simp [hset]
  rw [clearBits, clearBits, ← Finset.card_insert_of_notMem hmem]
  congr 1
  ext j
  by_cases hj : j = i <;> simp [hj, hi]

theorem clearBits_le (bitmap : ℕ → Bool) (bits : ℕ) : clearBits bitmap bits ≤ bits :=
  (Finset.card_filter_le _ _).trans (Finset.card_range bits).le

end Bitmap

/-- The block is marked as in use. -/
def Volume.Used (v : Volume) (b : ℕ) : Prop :=
  (v.group (b / v.superblock.blocksPerGroup)).blockBitmap (b % v.superblock.blocksPerGroup) = true

/-- The inode is marked as in use. -/
def Volume.InodeUsed (v : Volume) (ino : ℕ) : Prop :=
  (v.group ((ino - 1) / v.superblock.inodesPerGroup)).inodeBitmap
    ((ino - 1) % v.superblock.inodesPerGroup) = true

/-- The group descriptors agree with the bitmaps, which fit into a block each, and block 0 is in
use. -/
structure Books (v : Volume) : Prop where
  blocks_pos : 0 < v.superblock.blocksPerGroup
  inodes_pos : 0 < v.superblock.inodesPerGroup
  inodes_le : v.superblock.inodesPerGroup ≤ 8 * 4096
  freeBlocks : ∀ g < v.superblock.bgcount,
    (v.group g).freeBlocks = clearBits (v.group g).blockBitmap v.superblock.blocksPerGroup
  freeInodes : ∀ g < v.superblock.bgcount,
    (v.group g).freeInodes = clearBits (v.group g).inodeBitmap v.superblock.inodesPerGroup
  zero_used : v.Used 0

/-- Nothing but block bitmaps and their counts differs. -/
structure SameInodes (v v' : Volume) : Prop where
  superblock : v'.superblock = v.superblock
  inode : v'.inode = v.inode
  inodeBitmap : ∀ g, (v'.group g).inodeBitmap = (v.group g).inodeBitmap

theorem SameInodes.refl (v : Volume) : SameInodes v v := ⟨rfl, rfl, fun _ => rfl⟩

variable {v v' : Volume}

theorem SameInodes.trans {v'' : Volume} (h : SameInodes v v') (h' : SameInodes v' v'') :
    SameInodes v v'' :=
  ⟨h'.superblock.trans h.superblock, h'.inode.trans h.inode,
    fun g => (h'.inodeBitmap g).trans (h.inodeBitmap g)⟩

theorem SameInodes.inodeUsed (h : SameInodes v v') (ino : ℕ) :
    v'.InodeUsed ino ↔ v.InodeUsed ino := by
  rw [InodeUsed, InodeUsed, h.superblock, h.inodeBitmap]

/-- Nothing but inode bitmaps and their counts differs. -/
structure SameBlocks (v v' : Volume) : Prop where
  superblock : v'.superblock = v.superblock
  inode : v'.inode = v.inode
  blockBitmap : ∀ g, (v'.group g).blockBitmap = (v.group g).blockBitmap
  freeBlocks : ∀ g, (v'.group g).freeBlocks = (v.group g).freeBlocks

theorem SameBlocks.used (h : SameBlocks v v') (b : ℕ) : v'.Used b ↔ v.Used b := by
  rw [Used, Used, h.superblock, h.blockBitmap]

theorem sameBlocks_update (v : Volume) (g : ℕ) (bitmap : ℕ → Bool) (count : ℕ) : SameBlocks v
      { v with
        group := update v.group g
          { v.group g with inodeBitmap := bitmap, freeInodes := count } } := by
  refine ⟨rfl, rfl, fun g' => ?_, fun g' => ?_⟩ <;>
  · by_cases hg : g' = g
    · subst hg
      simp
    · simp [update_of_ne hg]

/-- The block was free, and is the only one that has been marked. -/
structure Allocated (v v' : Volume) (b : ℕ) : Prop where
  ne_zero : b ≠ 0
  unused : ¬v.Used b
  used : ∀ x, v'.Used x ↔ v.Used x ∨ x = b
  books : Books v'
  sameInodes : SameInodes v v'

/-- The inode was free, and is the only one that has been marked. -/
structure InodeAllocated (v v' : Volume) (ino : ℕ) : Prop where
  pos : 0 < ino
  unused : ¬v.InodeUsed ino
  used : ∀ x, 0 < x → (v'.InodeUsed x ↔ v.InodeUsed x ∨ x = ino)
  books : Books v'
  sameBlocks : SameBlocks v v'

@[simp] theorem books_inodeWrite {ino : ℕ} {eno : DiskInode} :
    Books (v.inodeWrite ino eno) ↔ Books v :=
  ⟨fun ⟨h₁, h₂, h₃, h₄, h₅, h₆⟩ => ⟨h₁, h₂, h₃, h₄, h₅, h₆⟩,
    fun ⟨h₁, h₂, h₃, h₄, h₅, h₆⟩ => ⟨h₁, h₂, h₃, h₄, h₅, h₆⟩⟩

section Number

variable {n g i x : ℕ}

theorem add_mul_div_mod (hi : i < n) : (i + g * n) / n = g ∧ (i + g * n) % n = i := by
  have hn : 0 < n := by omega
  exact ⟨by rw [add_mul_div_right i g hn, div_eq_of_lt hi, zero_add],
    by rw [add_mul_mod_self_right, mod_eq_of_lt hi]⟩

theorem div_mod_eq_iff (hi : i < n) : (x / n = g ∧ x % n = i) ↔ x = i + g * n := by
  constructor
  · rintro ⟨rfl, rfl⟩
    rw [mul_comm, mod_add_div]
  · rintro rfl
    exact add_mul_div_mod hi

end Number

namespace Books

variable {v v' : Volume} {b ino : ℕ} {err : Errno} {g : ℕ}

theorem allocateBlockFromGroup (h : Books v) (hg : g < v.superblock.bgcount)
    (hfree : 0 < (v.group g).freeBlocks) :
    ∃ i v', v.allocateBlockFromGroup g = (v', i) ∧
      Allocated v v' (i + g * v.superblock.blocksPerGroup) := by
  obtain ⟨i, hi⟩ := exists_firstClear (h.freeBlocks g hg ▸ hfree)
  obtain ⟨hlt, hclear⟩ := firstClear_eq_some hi
  set group : BlockGroup :=
    { v.group g with
      blockBitmap := update (v.group g).blockBitmap i true
      freeBlocks := (v.group g).freeBlocks - 1 } with hgroup
  have hresult : v.allocateBlockFromGroup g = ({ v with group := update v.group g group }, i) := by
    rw [Volume.allocateBlockFromGroup, hi]
  obtain ⟨hdiv, hmod⟩ := add_mul_div_mod (g := g) hlt
  have hunused : ¬v.Used (i + g * v.superblock.blocksPerGroup) := by
    rw [Used, hdiv, hmod, hclear]
    decide
  have hused : ∀ x, (Used { v with group := update v.group g group } x) ↔
      v.Used x ∨ x = i + g * v.superblock.blocksPerGroup := by
    intro x
    rw [← div_mod_eq_iff hlt, Used, Used]
    by_cases hx : x / v.superblock.blocksPerGroup = g
    · by_cases hi : x % v.superblock.blocksPerGroup = i <;> simp [hx, hi, group]
    · simp [hx]
  refine ⟨i, _, hresult, ⟨?_, hunused, hused, ?_, rfl, rfl, fun g' => ?_⟩⟩
  · intro h0
    exact hunused (h0 ▸ h.zero_used)
  · refine ⟨h.blocks_pos, h.inodes_pos, h.inodes_le, fun g' hg' => ?_, fun g' hg' => ?_,
      (hused 0).mpr (Or.inl h.zero_used)⟩
    · by_cases hgg : g' = g
      · subst hgg
        simp only [update_self, group]
        rw [clearBits_set hlt hclear, h.freeBlocks g' hg]
      · simpa only [update_of_ne hgg] using h.freeBlocks g' hg'
    · by_cases hgg : g' = g
      · subst hgg
        simpa only [update_self, group] using h.freeInodes g' hg
      · simpa only [update_of_ne hgg] using h.freeInodes g' hg'
  · by_cases hgg : g' = g
    · subst hgg
      simp only [update_self, group]
    · simp only [update_of_ne hgg]

theorem allocBlock (h : Books v) : (∃ b v', v.allocBlock = (v', .ok b) ∧ Allocated v v' b) ∨
      v.allocBlock = (v, .error .enospc) := by
  rw [Volume.allocBlock]
  cases hfind : (range v.superblock.bgcount).find? fun i => 0 < (v.group i).freeBlocks with
  | none => exact Or.inr rfl
  | some g =>
    have hg := mem_range.mp (mem_of_find?_eq_some hfind)
    have hfree : 0 < (v.group g).freeBlocks := by simpa using find?_some hfind
    obtain ⟨i, v', hv', halloc⟩ := h.allocateBlockFromGroup hg hfree
    refine Or.inl ⟨_, v', ?_, halloc⟩
    simp only [hv', if_neg halloc.ne_zero]

theorem allocBlock_ok (h : Books v) (hv' : v.allocBlock = (v', .ok b)) : Allocated v v' b := by
  rcases h.allocBlock with ⟨b', v'', heq, halloc⟩ | heq
  · rw [hv'] at heq
    obtain ⟨rfl, hb⟩ := Prod.mk.inj heq
    obtain rfl := Except.ok.inj hb
    exact halloc
  · rw [hv'] at heq
    cases (Prod.mk.inj heq).2

theorem update_inodes (h : Books v) {bitmap : ℕ → Bool} {count : ℕ}
    (hcount : g < v.superblock.bgcount → count = clearBits bitmap v.superblock.inodesPerGroup) :
    Books
      { v with
        group := update v.group g
          { v.group g with inodeBitmap := bitmap, freeInodes := count } } := by
  have hsame := sameBlocks_update v g bitmap count
  refine ⟨h.blocks_pos, h.inodes_pos, h.inodes_le, fun g' hg' => ?_, fun g' hg' => ?_,
    (hsame.used 0).mpr h.zero_used⟩
  · rw [hsame.freeBlocks, hsame.blockBitmap]
    exact h.freeBlocks g' hg'
  · by_cases hgg : g' = g
    · subst hgg
      simpa only [update_self] using hcount hg'
    · simpa only [update_of_ne hgg] using h.freeInodes g' hg'

theorem allocateInodeFromGroup (h : Books v) (hg : g < v.superblock.bgcount)
    (hfree : 0 < (v.group g).freeInodes) :
    ∃ i v', v.allocateInodeFromGroup g = (v', i) ∧
      InodeAllocated v v' (i + g * v.superblock.inodesPerGroup + 1) := by
  obtain ⟨i, hi⟩ := exists_firstClear (h.freeInodes g hg ▸ hfree)
  obtain ⟨hlt, hclear⟩ := firstClear_eq_some hi
  obtain ⟨hdiv, hmod⟩ := add_mul_div_mod (g := g) hlt
  refine ⟨i, _, by rw [Volume.allocateInodeFromGroup, hi], succ_pos _, ?_, fun x hx => ?_, ?_, ?_⟩
  · rw [InodeUsed, Nat.add_sub_cancel, hdiv, hmod, hclear]
    decide
  · have hnumber : x = i + g * v.superblock.inodesPerGroup + 1 ↔
        x - 1 = i + g * v.superblock.inodesPerGroup := by omega
    rw [hnumber, ← div_mod_eq_iff hlt, InodeUsed, InodeUsed]
    by_cases hx : (x - 1) / v.superblock.inodesPerGroup = g
    · by_cases hi : (x - 1) % v.superblock.inodesPerGroup = i <;> simp [hx, hi]
    · simp [hx]
  · exact h.update_inodes fun _ => by rw [clearBits_set hlt hclear, h.freeInodes g hg]
  · exact sameBlocks_update v g _ _

theorem allocInode (h : Books v) :
    (∃ ino v', v.allocInode = (v', .ok ino) ∧ InodeAllocated v v' ino) ∨
      v.allocInode = (v, .error .enospc) := by
  rw [Volume.allocInode]
  cases hfind : (range v.superblock.bgcount).find? fun i => 0 < (v.group i).freeInodes with
  | none => exact Or.inr rfl
  | some g =>
    have hg := mem_range.mp (mem_of_find?_eq_some hfind)
    have hfree : 0 < (v.group g).freeInodes := by simpa using find?_some hfind
    obtain ⟨i, v', hv', halloc⟩ := h.allocateInodeFromGroup hg hfree
    refine Or.inl ⟨_, v', ?_, halloc⟩
    simp only [hv', if_neg (succ_ne_zero _)]

theorem releaseInode (h : Books v) (hused : v.InodeUsed ino) :
    Books (v.releaseInode ino) ∧ SameBlocks v (v.releaseInode ino) ∧
      ∀ x, x ≠ ino → 0 < x → 0 < ino → v.InodeUsed x → (v.releaseInode ino).InodeUsed x := by
  have hlt : (ino - 1) % v.superblock.inodesPerGroup < v.superblock.inodesPerGroup :=
    mod_lt _ h.inodes_pos
  refine ⟨h.update_inodes fun hg => ?_, sameBlocks_update v _ _ _, fun x hne hx hino hxused => ?_⟩
  · have hcount := clearBits_clear hlt hused
    have hle := clearBits_le (update (v.group ((ino - 1) / v.superblock.inodesPerGroup)).inodeBitmap
      ((ino - 1) % v.superblock.inodesPerGroup) false) v.superblock.inodesPerGroup
    have hsmall := h.inodes_le
    rw [hcount, h.freeInodes _ hg, mod_eq_of_lt (by omega)]
  · rw [InodeUsed] at hxused ⊢
    rw [Volume.releaseInode]
    by_cases hg : (x - 1) / v.superblock.inodesPerGroup = (ino - 1) / v.superblock.inodesPerGroup
    · have hplace :
          (x - 1) % v.superblock.inodesPerGroup ≠ (ino - 1) % v.superblock.inodesPerGroup := by
        intro hmod
        have := (div_mod_eq_iff hlt).mp ⟨hg, hmod⟩
        rw [mul_comm, mod_add_div] at this
        omega
      simp only [hg, update_self, update_of_ne hplace]
      rwa [hg] at hxused
    · simpa only [update_of_ne hg] using hxused

end Books

end SeaKernel.Ext2
