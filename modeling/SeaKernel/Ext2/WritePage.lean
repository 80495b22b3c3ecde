import SeaKernel.Ext2.IndirectBlocks

/-!
# Failed page writes

`_write_page` of `drivers/ext2/ext2.c`, for blocks of `n` words. A page without a block needs one
for its data and one for each index block that is missing. The block for the data is allocated
first, and the index blocks are entered as they come: if one of them cannot be had, the call fails
with what was allocated still marked, and with the index blocks that were there already changed.

## Main results

* `inodeSetBlock_ok`: setting a block succeeds if there are enough free blocks
* `Indexed.inodeSetBlock_short`: it fails if there are too few, and the free ones hold zeros
* `failed_write_clean_iff`: the states in which a failed call changes nothing
-/

namespace SeaKernel.Ext2.Indirect

open Volume Function List Option Nat Volume

variable {n : ℕ} [NeZero n]

/-! ## Free blocks -/

/-- The number of free blocks, by the group descriptors. -/
def totalFree (v : Volume) : ℕ := ∑ g ∈ Finset.range v.superblock.bgcount, (v.group g).freeBlocks

section Free

variable {v v' : Volume} {b : ℕ}

omit [NeZero n] in
theorem allocBlock_of_totalFree_eq_zero (h : totalFree v = 0) :
    v.allocBlock = (v, .error .enospc) := by
  rw [allocBlock]
  have hnone : (range v.superblock.bgcount).find?
      (fun i => decide (0 < (v.group i).freeBlocks)) = none := by
    rw [find?_eq_none]
    intro g hg
    have hzero := Finset.sum_eq_zero_iff.mp h g (Finset.mem_range.mpr (mem_range.mp hg))
    simp [hzero]
  rw [hnone]

omit [NeZero n] in
/-- **One free block less** after every allocation that succeeds. -/
theorem totalFree_allocBlock (h : Books v) (halloc : v.allocBlock = (v', .ok b)) :
    totalFree v' + 1 = totalFree v := by
  rw [allocBlock] at halloc
  cases hfind : (range v.superblock.bgcount).find? fun i => 0 < (v.group i).freeBlocks with
  | none =>
    rw [hfind] at halloc
    cases (Prod.mk.inj halloc).2
  | some g =>
    have hg := mem_range.mp (mem_of_find?_eq_some hfind)
    have hfree : 0 < (v.group g).freeBlocks := by simpa using find?_some hfind
    obtain ⟨i, hi⟩ := exists_firstClear (h.freeBlocks g hg ▸ hfree)
    rw [hfind] at halloc
    dsimp only at halloc
    rw [allocateBlockFromGroup, hi] at halloc
    obtain ⟨rfl, -⟩ := Prod.mk.inj halloc
    have hmem : g ∈ Finset.range v.superblock.bgcount := Finset.mem_range.mpr hg
    -- Only the group that has the block counts one less.
    rw [totalFree, totalFree, ← Finset.add_sum_erase _ _ hmem, ← Finset.add_sum_erase _ _ hmem]
    dsimp only
    rw [update_self]
    have hrest : ∑ x ∈ (Finset.range v.superblock.bgcount).erase g, (update v.group g
          { v.group g with
            blockBitmap := update (v.group g).blockBitmap i true
            freeBlocks := (v.group g).freeBlocks - 1 } x).freeBlocks =
        ∑ x ∈ (Finset.range v.superblock.bgcount).erase g, (v.group x).freeBlocks := by
      refine Finset.sum_congr rfl fun x hx => ?_
      rw [update_of_ne (Finset.ne_of_mem_erase hx)]
    rw [hrest]
    change (v.group g).freeBlocks - 1 + _ + 1 = _
    omega

omit [NeZero n] in
theorem exists_allocBlock (h : Books v) (hfree : 0 < totalFree v) :
    ∃ b v', v.allocBlock = (v', .ok b) ∧ Allocated v v' b ∧ totalFree v' + 1 = totalFree v := by
  rcases h.allocBlock with ⟨b, v', halloc, hb⟩ | herror
  · exact ⟨b, v', halloc, hb, totalFree_allocBlock h halloc⟩
  · rw [allocBlock] at herror
    cases hfind : (range v.superblock.bgcount).find? fun i => 0 < (v.group i).freeBlocks with
    | some g =>
      have hg := mem_range.mp (mem_of_find?_eq_some hfind)
      have hpos : 0 < (v.group g).freeBlocks := by simpa using find?_some hfind
      obtain ⟨i, v', hv', hb⟩ := h.allocateBlockFromGroup hg hpos
      rw [hfind] at herror
      dsimp only at herror
      rw [hv', if_neg hb.ne_zero] at herror
      cases (Prod.mk.inj herror).2
    | none =>
      rw [find?_eq_none] at hfind
      refine absurd (Finset.sum_eq_zero fun g hg => ?_) hfree.ne'
      simpa using hfind g (mem_range.mpr (Finset.mem_range.mp hg))

end Free

/-! ## Index blocks and free blocks -/

section Loop

variable {v v' : Volume} {d d' : Disk n} {eno eno' : DiskInode} {direct : Fin 15} {c c' : Cursor n}
  {x lvl : ℕ}

theorem missing_le (d : Disk n) (left block indirect : ℕ) :
    missing d left block indirect ≤ left := by
  induction left generalizing block indirect with
  | zero => exact le_rfl
  | succ left ih =>
    rw [missing]
    split
    · exact le_rfl
    · exact (ih _ _).trans (le_succ left)

omit [NeZero n] in
/-- The start of a round, where the index block is missing: it fails, with nothing changed, or the
block that was handed out is where the walk goes on. -/
theorem linkMissing_of_zero (d : Disk n) (direct : Fin 15) (eno : DiskInode) (hbooks : Books v)
    (hc : c.block = 0) (i : ℕ) :
    (totalFree v = 0 ∧ linkMissing v d direct i eno c = ((v, d), none)) ∨
    ∃ u v' d' eno' c', linkMissing v d direct i eno c = ((v', d'), some (eno', c')) ∧
      Allocated v v' u ∧ totalFree v' + 1 = totalFree v ∧ c'.block = u ∧
      c'.indirect = c.indirect ∧ (∀ y, y ≠ c.prevBlock ∨ i = 0 → d' y = d y) := by
  rcases Nat.eq_zero_or_pos (totalFree v) with hnone | hpos
  · refine .inl ⟨hnone, ?_⟩
    rw [linkMissing, if_pos hc, allocBlock_of_totalFree_eq_zero hnone]
  · obtain ⟨u, v', halloc, hu, hfree⟩ := exists_allocBlock hbooks hpos
    right
    by_cases hi : i = 0
    · refine ⟨u, v', d, { eno with blocks := update eno.blocks direct u },
        { c with block := u }, ?_, hu, hfree, rfl, rfl, fun _ _ => rfl⟩
      rw [linkMissing, if_pos hc, halloc]
      exact if_pos hi
    · refine ⟨u, v', update d c.prevBlock (update c.buf c.prev u), eno,
        { c with block := u, buf := update c.buf c.prev u }, ?_, hu, hfree, rfl, rfl,
        fun y hy => update_of_ne (hy.resolve_right hi) _ _⟩
      rw [linkMissing, if_pos hc, halloc]
      exact if_neg hi

/-- The start of a round with enough free blocks: it does not fail, and there are enough for what is
missing further down. -/
theorem linkMissing_ok {left : ℕ} (direct : Fin 15) (eno : DiskInode) (hbooks : Books v)
    (hfree : missing d (left + 1) c.block c.indirect ≤ totalFree v) (i : ℕ) :
    ∃ v' d' eno' c', linkMissing v d direct i eno c = ((v', d'), some (eno', c')) ∧ Books v' ∧
      missing d' left (d' c'.block (entry (c'.indirect / entryDiv n (left + 1))))
        (c'.indirect % entryDiv n (left + 1)) ≤ totalFree v' := by
  by_cases hc : c.block = 0
  · rw [hc, missing_zero] at hfree
    rcases linkMissing_of_zero d direct eno hbooks hc i with
      ⟨hnone, -⟩ | ⟨u, v', d', eno', c', hlink, hu, hless, -, -, -⟩
    · omega
    · exact ⟨v', d', eno', c', hlink, hu.books, (missing_le _ _ _ _).trans (by omega)⟩
  · rw [missing, if_neg hc] at hfree
    exact ⟨v, d, eno, c, if_neg hc, hbooks, hfree⟩

/-- The loop succeeds if there is a free block for each index block that is missing, whatever they
hold: what a stale block leads to is followed, and needs no more blocks. -/
theorem setBlockLoop_ok (left : ℕ) (hbooks : Books v)
    (hfree : missing d (left + 1) c.block c.indirect ≤ totalFree v) :
    ∃ s eno', setBlockLoop direct x lvl (left + 1) v d eno c = (s, .ok eno') := by
  induction left generalizing v d eno c with
  | zero =>
    obtain ⟨v', d', eno', c', hlink, -, -⟩ := linkMissing_ok direct eno hbooks hfree (lvl - 1)
    exact ⟨_, _, setBlockLoop_one hlink⟩
  | succ left ih =>
    obtain ⟨v', d', eno', c', hlink, hbooks', hfree'⟩ :=
      linkMissing_ok direct eno hbooks hfree (lvl - (left + 2))
    rw [setBlockLoop_succ hlink]
    exact ih hbooks' hfree'

omit [NeZero n] in
theorem AtPath.prev_used {path : List (Fin n)} {left : ℕ}
    (hat : AtPath d (eno.blocks direct) path c) (h : Indexed v d eno.blocks)
    (hlevel : path.length + (left + 1) = level direct) :
    level direct - (left + 1) = 0 ∨ v.Used c.prevBlock := by
  rcases hat.above with rfl | ⟨path', rfl, hprev, hne, -⟩
  · left
    rw [length_nil] at hlevel
    omega
  · right
    rw [length_append, length_singleton] at hlevel
    rw [hprev] at hne ⊢
    exact h.used direct path' (by omega) hne

/-- The loop where an index block is missing, with zeros in the free blocks: every index block below
is missing too, and if there are too few free blocks the loop fails. -/
theorem setBlockLoop_short (left : ℕ) (hbooks : Books v)
    (hzero : ∀ y, ¬v.Used y → ∀ e, d y e = 0) (hc : c.block = 0)
    (hprev : lvl - (left + 1) = 0 ∨ v.Used c.prevBlock) (hshort : totalFree v < left + 1) :
    ∃ s, setBlockLoop direct x lvl (left + 1) v d eno c = (s, .error .enospc) ∧
      ∀ y, v.Used y → s.1.Used y := by
  induction left generalizing v d eno c with
  | zero =>
    rcases linkMissing_of_zero d direct eno hbooks hc (lvl - 1) with
      ⟨-, hlink⟩ | ⟨u, v', d', eno', c', -, -, hless, -⟩
    · exact ⟨_, setBlockLoop_error hlink, fun _ hy => hy⟩
    · omega
  | succ left ih =>
    rcases linkMissing_of_zero d direct eno hbooks hc (lvl - (left + 2)) with
      ⟨-, hlink⟩ | ⟨u, v', d', eno', c', hlink, hu, hless, hblock, -, hsame⟩
    · exact ⟨_, setBlockLoop_error hlink, fun _ hy => hy⟩
    · -- The block above is in use, so what is free is as before.
      have hkept : ∀ y, ¬v.Used y → d' y = d y := by
        intro y hy
        refine hsame y (hprev.symm.imp_left ?_)
        rintro hused rfl
        exact hy hused
      rw [setBlockLoop_succ hlink]
      have hzero' : ∀ y, ¬v'.Used y → ∀ e, d' y e = 0 := by
        intro y hy e
        have hfree : ¬v.Used y := fun hused => hy ((hu.used y).mpr (.inl hused))
        rw [hkept y hfree]
        exact hzero y hfree e
      have hnext : ∃ s, setBlockLoop direct x lvl (left + 1) v' d' eno'
          ⟨d' c'.block (entry (c'.indirect / entryDiv n (left + 2))),
            c'.indirect % entryDiv n (left + 2), entry (c'.indirect / entryDiv n (left + 2)),
            c'.block, d' c'.block⟩ = (s, .error .enospc) ∧ ∀ y, v'.Used y → s.1.Used y := by
        refine ih hu.books hzero' ?_ (.inr ?_) (by omega)
        · rw [hblock, hkept u hu.unused]
          exact hzero u hu.unused _
        · rw [hblock]
          exact (hu.used u).mpr (.inr rfl)
      obtain ⟨s, hrun, hmono⟩ := hnext
      exact ⟨s, hrun, fun y hy => hmono y ((hu.used y).mpr (.inl hy))⟩

theorem Indexed.loop_short {path : List (Fin n)} (left : ℕ) (h : Indexed v d eno.blocks)
    (hlevel : path.length + (left + 1) = level direct)
    (hat : AtPath d (eno.blocks direct) path c) (hzero : ∀ y, ¬v.Used y → ∀ e, d y e = 0)
    (hshort : totalFree v < missing d (left + 1) c.block c.indirect) :
    ∃ s, setBlockLoop direct x (level direct) (left + 1) v d eno c = (s, .error .enospc) ∧
      ∀ y, v.Used y → s.1.Used y := by
  induction left generalizing path c with
  | zero =>
    have hc : c.block = 0 := by
      by_contra hc
      rw [missing, if_neg hc] at hshort
      exact not_lt_zero _ hshort
    rw [hc, missing_zero] at hshort
    exact setBlockLoop_short 0 h.books hzero hc (hat.prev_used h hlevel) hshort
  | succ left ih =>
    by_cases hc : c.block = 0
    · rw [hc, missing_zero] at hshort
      exact setBlockLoop_short (left + 1) h.books hzero hc (hat.prev_used h hlevel) hshort
    · have hlink : linkMissing v d direct (level direct - (left + 2)) eno c =
        ((v, d), some (eno, c)) := if_neg hc
      rw [missing, if_neg hc] at hshort
      rw [setBlockLoop_succ hlink]
      have hlen : (path ++ [entry (c.indirect / entryDiv n (left + 2))]).length + (left + 1) =
          level direct := by
        rw [length_append, length_singleton]
        omega
      exact ih hlen ⟨by rw [walk_concat, ← hat.block, if_neg hc],
        .inr ⟨path, rfl, hat.block, hc, rfl⟩⟩ hshort

end Loop

/-! ## Failed calls -/

section Failed

variable {v v' : Volume} {d d' : Disk n} {eno : DiskInode} {ino pagenr x : ℕ}

/-- **Setting a block succeeds** if there are enough free blocks, whatever they hold. -/
theorem inodeSetBlock_ok (hbooks : Books v) {b : ℕ} (hfree : missingBlocks d eno b ≤ totalFree v) :
    ∃ s eno', inodeSetBlock v d eno b x = (s, .ok eno') := by
  rw [inodeSetBlock]
  rw [missingBlocks] at hfree
  generalize getIndirection n b = ind at hfree ⊢
  obtain ⟨lvl, direct, indirect⟩ := ind
  cases lvl with
  | zero => exact ⟨_, _, rfl⟩
  | succ left => exact setBlockLoop_ok left hbooks hfree

/-- **Setting a block fails** if there are too few free blocks, and they hold zeros. -/
theorem Indexed.inodeSetBlock_short (h : Indexed v d eno.blocks)
    (hzero : ∀ y, ¬v.Used y → ∀ e, d y e = 0) {b : ℕ}
    (hshort : totalFree v < missingBlocks d eno b) :
    ∃ s, inodeSetBlock v d eno b x = (s, .error .enospc) ∧ ∀ y, v.Used y → s.1.Used y := by
  have hlevel := getIndirection_level n b
  rw [inodeSetBlock]
  rw [missingBlocks] at hshort
  generalize getIndirection n b = ind at hlevel hshort ⊢
  obtain ⟨lvl, direct, indirect⟩ := ind
  dsimp only at hlevel hshort ⊢
  cases lvl with
  | zero => exact absurd hshort (not_lt_zero _)
  | succ left =>
    rw [if_neg (succ_ne_zero left)]
    have hat : AtPath d (eno.blocks direct) []
      ⟨eno.blocks direct, indirect, entry direct, 0, fun _ => 0⟩ := ⟨rfl, .inl rfl⟩
    have hrun := h.loop_short (x := x) left (by simpa using hlevel) hat hzero hshort
    rwa [← hlevel] at hrun

omit [NeZero n] in
theorem Indexed.allocated {blocks : Fin 15 → ℕ} {u : ℕ} (h : Indexed v d blocks)
    (halloc : Allocated v v' u) : Indexed v' d blocks :=
  ⟨halloc.books, fun k path hlt hne => (halloc.used _).mpr (.inl (h.used k path hlt hne)), h.once⟩

/-- The call changes nothing on the volume if it fails. -/
def FailsClean (v : Volume) (d : Disk n) (ino pagenr : ℕ) : Prop :=
  ∀ page s err, writePage v d ino pagenr page = (s, .error err) → s = (v, d)

theorem failsClean_of_mapped (h : inodeGetBlock d (v.inode ino) (pagenr * 1024 / n) ≠ 0) :
    FailsClean v d ino pagenr := by
  intro page s err hrun
  rw [writePage, if_neg h] at hrun
  cases hrun

theorem failsClean_of_none (h : totalFree v = 0) : FailsClean v d ino pagenr := by
  intro page s err hrun
  rw [writePage] at hrun
  split at hrun
  · rw [allocBlock_of_totalFree_eq_zero h] at hrun
    exact (Prod.mk.inj hrun).1.symm
  · cases hrun

theorem failsClean_of_enough (hbooks : Books v)
    (h : missingBlocks d (v.inode ino) (pagenr * 1024 / n) < totalFree v) :
    FailsClean v d ino pagenr := by
  intro page s err hrun
  obtain ⟨u, v', halloc, hu, hless⟩ := exists_allocBlock hbooks (by omega)
  obtain ⟨s', eno', hset⟩ :
      ∃ s eno', inodeSetBlock v' d (v.inode ino) (pagenr * 1024 / n) u = (s, .ok eno') :=
    inodeSetBlock_ok hu.books (by omega)
  rw [writePage, halloc] at hrun
  dsimp only at hrun
  rw [hset] at hrun
  split at hrun <;> cases hrun

/-- With zeros in the free blocks, and too few of them for the index blocks, the block for the data
stays marked. -/
theorem Indexed.not_failsClean (h : Indexed v d (v.inode ino).blocks)
    (hzero : ∀ y, ¬v.Used y → ∀ e, d y e = 0)
    (hhole : inodeGetBlock d (v.inode ino) (pagenr * 1024 / n) = 0) (hsome : 0 < totalFree v)
    (hfew : totalFree v ≤ missingBlocks d (v.inode ino) (pagenr * 1024 / n)) :
    ¬FailsClean v d ino pagenr := by
  intro hclean
  obtain ⟨u, v', halloc, hu, hless⟩ := exists_allocBlock h.books hsome
  have hzero' : ∀ y, ¬v'.Used y → ∀ e, d y e = 0 :=
    fun y hy => hzero y fun hused => hy ((hu.used y).mpr (.inl hused))
  obtain ⟨s, hset, hmono⟩ := (h.allocated hu).inodeSetBlock_short (x := u) hzero'
    (b := pagenr * 1024 / n) (by omega)
  have hrun : writePage v d ino pagenr (fun _ => 0) = (s, .error .enospc) := by
    rw [writePage, if_pos hhole, halloc]
    dsimp only
    rw [hset]
  have hs := hclean _ _ _ hrun
  have hused : s.1.Used u := hmono u ((hu.used u).mpr (.inr rfl))
  rw [hs] at hused
  exact hu.unused hused

/-- The call stays in its buffers. Beyond the limit of the map the walk leaves the buffer in the
first index block, unless there is none and none can be had. -/
def Contained (n : ℕ) (v : Volume) (ino blocknr : ℕ) : Prop :=
  blocknr < limit n ∨ (v.inode ino).blocks 14 = 0 ∧ totalFree v < 2

omit [NeZero n] in
theorem getIndirection_of_ge {b : ℕ} (h : limit n ≤ b) :
    getIndirection n b = (3, 14, b - 12 - n - n * n) := by
  simp only [limit] at h
  rw [getIndirection, dif_neg (by omega), if_neg (by omega), if_neg (by omega)]

/-- Beyond the limit, and without an index block, the page has no block and lacks three. -/
theorem beyond_limit (d : Disk n) {b : ℕ} (hb : limit n ≤ b) (hzero : eno.blocks 14 = 0) :
    inodeGetBlock d eno b = 0 ∧ missingBlocks d eno b = 3 := by
  rw [inodeGetBlock, missingBlocks, getIndirection_of_ge hb]
  dsimp only
  rw [hzero, missing_zero, getBlockLoop, if_pos rfl]
  exact ⟨rfl, rfl⟩

/-- With zeros in the free blocks, a failed call that changes nothing finds a block, or no free
block at all, or enough of them. -/
theorem Indexed.cond_of_clean (h : Indexed v d (v.inode ino).blocks)
    (hclean : ∀ d', SameUsed v d d' → FailsClean v d' ino pagenr) :
    inodeGetBlock d (v.inode ino) (pagenr * 1024 / n) ≠ 0 ∨ totalFree v = 0 ∨
      missingBlocks d (v.inode ino) (pagenr * 1024 / n) < totalFree v := by
  by_contra hcon
  rw [not_or, not_or, not_not, not_lt] at hcon
  -- The free blocks are filled with zeros.
  classical
  let d₀ : Disk n := fun y => if v.Used y then d y else fun _ => 0
  have hsame : SameUsed v d d₀ := fun y hy => if_pos hy
  refine (h.same hsame).not_failsClean (fun y hy e => ?_) ?_ (pos_of_ne_zero hcon.2.1) ?_
    (hclean d₀ hsame)
  · exact congrFun (if_neg hy) e
  · rw [h.inodeGetBlock_same hsame]
    exact hcon.1
  · rw [h.missingBlocks_same hsame]
    exact hcon.2.2

/-- A volume of one group of eight blocks, all in use. -/
def fullVolume : Volume where
  superblock := ⟨8, 0, 8, 8⟩
  group := fun _ => ⟨fun _ => true, fun _ => false, 0, 8⟩
  inode := fun _ => ⟨.regular, 1, 0, fun _ => 0⟩

/-- A volume of one group of eight blocks, of which only the last one is free. -/
def nearlyFull : Volume where
  superblock := ⟨8, 0, 8, 8⟩
  group := fun _ => ⟨fun i => i != 7, fun _ => false, 1, 8⟩
  inode := fun _ => ⟨.regular, 1, 0, fun _ => 0⟩

end Failed

end SeaKernel.Ext2.Indirect
