import SeaKernel.Lib.Forest
import SeaKernel.Ext2.Allocation

/-!
# The blocks of a file

The block numbers of the inodes are the roots of a forest of blocks, whose inner blocks are the
indirect blocks. `ext2_inode_get_block` looks a place of the forest up, and `ext2_inode_set_block`
fills an empty place, with the indirect blocks above it that are missing. If those hold zeros on
the device, the forest stays owned; if the call fails, so does the part of it that the inode on
the device still refers to.

## Main results

* `Indirect.getBlockLoop_eq_walk`
* `Placing.setBlockLoop`, `Placing.inodeSetBlock`
-/

namespace SeaKernel.Ext2

open Volume Function List Option Indirect

/-- A block number of an inode. -/
abbrev Root : Type := ℕ × Fin 15

/-- The level of indirection below each of the block numbers of an inode. -/
def level (k : Fin 15) : ℕ :=
  if k < 12 then 0 else if k = 12 then 1 else if k = 13 then 2 else 3

/-- The depth of the forest below a root. -/
def depth (r : Root) : ℕ := level r.2

namespace Indirect

section Way

variable {n : ℕ} [NeZero n]

/-- The entries on the way to a block, with `left` levels to go. -/
def entries : ℕ → ℕ → List (Fin n)
  | 0, _ => []
  | left + 1, indirect =>
    entry (indirect / entryDiv n (left + 1)) :: entries left (indirect % entryDiv n (left + 1))

@[simp] theorem length_entries (left indirect : ℕ) :
    (entries left indirect : List (Fin n)).length = left := by
  induction left generalizing indirect with
  | zero => rfl
  | succ left ih => rw [entries, length_cons, ih]

theorem getBlockLoop_eq_walk (d : Disk n) (left block indirect : ℕ) :
    getBlockLoop d left block indirect = walk d block (entries left indirect) := by
  induction left generalizing block indirect with
  | zero => rfl
  | succ left ih =>
    rw [getBlockLoop, entries, walk]
    split
    · assumption
    · exact ih _ _

theorem getIndirection_level (n b : ℕ) :
    (getIndirection n b).1 = level (getIndirection n b).2.1 := by
  unfold getIndirection
  split
  · next h =>
    have hlt : (⟨b, by omega⟩ : Fin 15) < 12 := h
    rw [level, if_pos hlt]
  · split
    · rfl
    · split <;> rfl

variable (n) in
/-- The way to a block of a file: the entry of the inode, and the entries of the index blocks. -/
def place (blknum : ℕ) : Fin 15 × List (Fin n) :=
  let (level, direct, indirect) := getIndirection n blknum
  (direct, entries level indirect)

theorem inodeGetBlock_eq_walk (d : Disk n) (eno : DiskInode) (b : ℕ) :
    inodeGetBlock d eno b = walk d (eno.blocks (place n b).1) (place n b).2 :=
  getBlockLoop_eq_walk d _ _ _

theorem length_place (b : ℕ) : (place n b).2.length = level (place n b).1 :=
  (length_entries _ _).trans (getIndirection_level n b)

/-- The number of index blocks missing on the way to a block. -/
def missing (d : Disk n) : ℕ → ℕ → ℕ → ℕ
  | 0, _, _ => 0
  | left + 1, block, indirect =>
    if block = 0 then left + 1
    else
      let div := entryDiv n (left + 1)
      missing d left (d block (entry (indirect / div))) (indirect % div)

/-- The number of index blocks that a block of a file lacks. -/
def missingBlocks (d : Disk n) (eno : DiskInode) (blknum : ℕ) : ℕ :=
  let (level, direct, indirect) := getIndirection n blknum
  missing d level (eno.blocks direct) indirect

theorem missing_zero (d : Disk n) (left indirect : ℕ) : missing d left 0 indirect = left := by
  cases left with
  | zero => rfl
  | succ left => rw [missing, if_pos rfl]

/-- The blocks hold zeros. -/
def Zeroed (d : Disk n) (bs : List ℕ) : Prop := ∀ b ∈ bs, ∀ e, d b e = 0

/-- The cursor stands at the end of the path below an entry of the inode. -/
structure AtPath (d : Disk n) (b₀ : ℕ) (path : List (Fin n)) (c : Cursor n) : Prop where
  block : c.block = walk d b₀ path
  above : path = [] ∨ ∃ path', path = path' ++ [c.prev] ∧ c.prevBlock = walk d b₀ path' ∧
    c.prevBlock ≠ 0 ∧ c.buf = d c.prevBlock

variable {v v' : Volume} {d d' : Disk n} {eno eno' : DiskInode} {direct : Fin 15}
  {c c' : Cursor n} {x lvl left : ℕ}

theorem setBlockLoop_succ
    (hlink : linkMissing v d direct (lvl - (left + 2)) eno c = ((v', d'), some (eno', c'))) :
    setBlockLoop direct x lvl (left + 2) v d eno c =
      setBlockLoop direct x lvl (left + 1) v' d' eno'
        ⟨d' c'.block (entry (c'.indirect / entryDiv n (left + 2))),
          c'.indirect % entryDiv n (left + 2), entry (c'.indirect / entryDiv n (left + 2)),
          c'.block, d' c'.block⟩ := by
  rw [setBlockLoop, hlink]
  rfl

theorem setBlockLoop_one
    (hlink : linkMissing v d direct (lvl - 1) eno c = ((v', d'), some (eno', c'))) :
    setBlockLoop direct x lvl 1 v d eno c = ((v', update d' c'.block (update (d' c'.block)
        (entry (c'.indirect / entryDiv n 1)) x)), .ok eno') := by
  rw [setBlockLoop, zero_add, hlink]
  rfl

theorem setBlockLoop_error {s : Volume × Disk n}
    (hlink : linkMissing v d direct (lvl - (left + 1)) eno c = (s, none)) :
    setBlockLoop direct x lvl (left + 1) v d eno c = (s, .error .enospc) := by
  rw [setBlockLoop, hlink]

end Way

end Indirect

/-- The blocks that `__alloc_block` hands out next. -/
def nextBlocks : ℕ → Volume → List ℕ
  | 0, _ => []
  | n + 1, v =>
    match v.allocBlock with
    | (v', .ok b) => b :: nextBlocks n v'
    | (_, .error _) => []

section Next

variable {v v' : Volume} {b n : ℕ}

theorem nextBlocks_succ (h : v.allocBlock = (v', .ok b)) :
    nextBlocks (n + 1) v = b :: nextBlocks n v' := by
  rw [nextBlocks, h]

theorem nextBlocks_eq_nil (h : n = 0 ∨ ∀ u, v.allocBlock.2 ≠ .ok u) : nextBlocks n v = [] := by
  rcases h with rfl | h
  · rfl
  · cases n with
    | zero => rfl
    | succ n =>
      rw [nextBlocks]
      rcases hv : v.allocBlock with ⟨v', err | u⟩
      · rfl
      · exact absurd (congrArg Prod.snd hv) (h u)

theorem not_used_of_mem_nextBlocks (h : Books v) (hb : b ∈ nextBlocks n v) : ¬v.Used b := by
  induction n generalizing v with
  | zero => cases hb
  | succ n ih =>
    rcases h.allocBlock with ⟨b', v', heq, halloc⟩ | heq
    · rw [nextBlocks_succ heq, mem_cons] at hb
      rcases hb with rfl | hb
      · exact halloc.unused
      · exact fun hused => ih halloc.books hb ((halloc.used b).mpr (Or.inl hused))
    · rw [nextBlocks, heq] at hb
      cases hb

theorem Indirect.Zeroed.update {m x : ℕ} {d : Disk m} {contents : Fin m → ℕ}
    (h : Zeroed d (nextBlocks n v)) (hbooks : Books v) (hx : v.Used x) :
    Zeroed (update d x contents) (nextBlocks n v) := by
  intro b hb e
  have hbx : b ≠ x := fun heq => not_used_of_mem_nextBlocks hbooks hb (heq ▸ hx)
  rw [update_of_ne hbx]
  exact h b hb e

end Next

/-! ## Filling a place -/

section Placing

variable {n : ℕ} (v₀ : Volume) (owned : ℕ → Set ℕ) (ino : ℕ)

/-- What an inode may hold: blocks in use that are its own, or that have been obtained for it
since `v₀`. -/
def claims (v : Volume) (r : Root) : Set ℕ :=
  {b | v.Used b ∧ (b ∈ owned r.1 ∨ r.1 = ino ∧ ¬v₀.Used b)}

/-- The invariant of `ext2_inode_set_block`: all blocks but the one to be placed are in their
places. -/
structure Placing (setblock : ℕ) (v : Volume) (d : Disk n) (root : Root → ℕ) (eno : DiskInode) :
    Prop where
  books : Books v
  forest : OwnedForest d root depth fun r => claims v₀ owned ino v r \ {setblock}
  inode : ∀ k, root (ino, k) = eno.blocks k
  ne_zero : setblock ≠ 0
  used : v.Used setblock
  unused : ¬v₀.Used setblock
  mono : ∀ b, v₀.Used b → v.Used b

/-- Roots differ at one entry of the inode at most, and only if it was empty. -/
def RootsKept (r₀ : Root) (root root' : Root → ℕ) : Prop :=
  (∀ r, r ≠ r₀ → root' r = root r) ∧ (root r₀ ≠ 0 → root' r₀ = root r₀)

variable {v₀ owned ino} {setblock : ℕ} {v v' : Volume} {d d' : Disk n} {root : Root → ℕ}
  {eno : DiskInode} {direct : Fin 15}

theorem RootsKept.refl (r₀ : Root) (root : Root → ℕ) : RootsKept r₀ root root :=
  ⟨fun _ _ => rfl, fun _ => rfl⟩

theorem RootsKept.trans {r₀ : Root} {root root' root'' : Root → ℕ} (h : RootsKept r₀ root root')
    (h' : RootsKept r₀ root' root'') : RootsKept r₀ root root'' :=
  ⟨fun r hr => (h'.1 r hr).trans (h.1 r hr), fun h0 => (h'.2 (h.2 h0 ▸ h0)).trans (h.2 h0)⟩

theorem update_root {blocks : Fin 15 → ℕ} (h : ∀ k, root (ino, k) = blocks k) (direct : Fin 15)
    (b : ℕ) (k : Fin 15) :
    update root (ino, direct) b (ino, k) = update blocks direct b k := by
  by_cases hk : k = direct
  · rw [hk, update_self, update_self]
  · rw [update_of_ne hk, update_of_ne (by simpa using hk), h]

theorem claims_mono {r : Root} (hmono : ∀ b, v.Used b → v'.Used b) :
    claims v₀ owned ino v r ⊆ claims v₀ owned ino v' r :=
  fun b hb => ⟨hmono b hb.1, hb.2⟩

theorem Placing.outside (h : Placing v₀ owned ino setblock v d root eno) :
    Outside d root depth setblock := by
  intro r path hpath heq
  have hmem := h.forest.owned r path hpath (heq ▸ h.ne_zero)
  exact hmem.2 heq

theorem Placing.outside_of_unused (h : Placing v₀ owned ino setblock v d root eno) {b : ℕ}
    (hb : ¬v.Used b) (hb0 : b ≠ 0) : Outside d root depth b := by
  intro r path hpath heq
  exact hb (heq ▸ (h.forest.owned r path hpath (heq ▸ hb0)).1.1)

variable {c : Cursor n} {i : ℕ}

open RootsKept

variable {path : List (Fin n)}

/-- **The start of a round, where the indirect block is missing**: the new block is in its
place. -/
theorem Placing.linkMissing (h : Placing v₀ owned ino setblock v d root eno) {b : ℕ}
    (hlt : path.length < level direct) (hi : i = path.length)
    (hat : AtPath d (root (ino, direct)) path c) (hc : c.block = 0)
    (halloc : v.allocBlock = (v', .ok b)) (hzero : ∀ e, d b e = 0) :
    ∃ d' root' eno' buf, Indirect.linkMissing v d direct i eno c =
        ((v', d'), some (eno', { c with block := b, buf := buf })) ∧
      Placing v₀ owned ino setblock v' d' root' eno' ∧ RootsKept (ino, direct) root root' ∧
      walk d' (root' (ino, direct)) path = b ∧ (∀ e, d' b e = 0) ∧
      ∀ m, Zeroed d (nextBlocks m v') → Zeroed d' (nextBlocks m v') := by
  have hb := h.books.allocBlock_ok halloc
  have hout := h.outside_of_unused hb.unused hb.ne_zero
  have hgrow : ∀ x, v.Used x → v'.Used x := fun x hx => (hb.used x).mpr (Or.inl hx)
  have hbset : b ≠ setblock := fun heq => hb.unused (heq ▸ h.used)
  have hnew : b ∈ claims v₀ owned ino v' (ino, direct) \ {setblock} :=
    ⟨⟨(hb.used b).mpr (Or.inr rfl), Or.inr ⟨rfl, fun h0 => hb.unused (h.mono b h0)⟩⟩, hbset⟩
  have hsub : ∀ r, claims v₀ owned ino v r \ {setblock} ⊆ claims v₀ owned ino v' r \ {setblock} :=
    fun r => Set.sdiff_subset_sdiff_left (claims_mono hgrow)
  rcases hat.above with rfl | ⟨path', rfl, hprev, hprev0, hbuf⟩
  · -- the new block is entered in the inode
    have hroot : root (ino, direct) = 0 := by
      rw [← hc, hat.block, walk_nil]
    have hforest := h.forest.graft_root (fun r => claims v₀ owned ino v' r \ {setblock})
      hroot hb.ne_zero hout (fun _ => hzero) hsub hnew
    refine ⟨d, update root (ino, direct) b,
      { eno with blocks := update eno.blocks direct b }, c.buf, ?_,
      ⟨hb.books, hforest, fun k => ?_, h.ne_zero, hgrow _ h.used, h.unused,
        fun x hx => hgrow x (h.mono x hx)⟩, ⟨fun r hr => update_of_ne hr _ _, ?_⟩, ?_, hzero,
      fun _ hz => hz⟩
    · rw [Indirect.linkMissing, if_pos hc, halloc]
      simp only [hi, length_nil, if_true]
    · exact update_root h.inode direct b k
    · exact fun h0 => absurd hroot h0
    · rw [walk_nil, update_self]
  · -- the new block is entered in the indirect block above
    rw [length_append, length_singleton] at hlt hi
    rw [hprev] at hprev0
    have hempty : d (walk d (root (ino, direct)) path') c.prev = 0 := by
      rw [← hc, hat.block, walk_concat, if_neg hprev0]
    have hlt' : path'.length < depth (ino, direct) := by
      change path'.length < level direct
      omega
    have hforest := h.forest.graft (fun r => claims v₀ owned ino v' r \ {setblock})
      hlt' hprev0 hempty hb.ne_zero hout (fun _ => hzero) hsub hnew
    have hplace := h.forest.walk_write_entry hlt' hprev0 hempty hb.ne_zero hout (fun _ => hzero) rfl
      (ino, direct) (path' ++ [c.prev]) (by simp [depth]; omega)
    rw [if_pos ⟨rfl, rfl⟩] at hplace
    have hdisk : update d c.prevBlock (update c.buf c.prev b) =
        update d (walk d (root (ino, direct)) path')
          (update (d (walk d (root (ino, direct)) path')) c.prev b) := by
      rw [hbuf, hprev]
    have hbx : b ≠ walk d (root (ino, direct)) path' :=
      fun heq => hout _ path' hlt'.le heq.symm
    have hxused : v'.Used c.prevBlock := by
      rw [hprev]
      exact hgrow _ (h.forest.owned _ path' hlt'.le hprev0).1.1
    refine ⟨_, root, eno, update c.buf c.prev b, ?_,
      ⟨hb.books, hdisk ▸ hforest, h.inode, h.ne_zero, hgrow _ h.used,
        h.unused, fun x hx => hgrow x (h.mono x hx)⟩, refl _ _, hdisk ▸ hplace, ?_,
      fun m hz => hz.update hb.books hxused⟩
    · rw [Indirect.linkMissing, if_pos hc, halloc]
      simp only [hi, Nat.succ_ne_zero, if_false]
    · rw [hdisk, update_of_ne hbx]
      exact hzero

/-- What is true after `ext2_inode_set_block`, whether or not it has failed. -/
structure Kept (v₀ : Volume) (owned : ℕ → Set ℕ) (r₀ : Root) (v : Volume) (root : Root → ℕ)
    (v' : Volume) (d' : Disk n) (root' : Root → ℕ) : Prop where
  books : Books v'
  forest : OwnedForest d' root' depth (claims v₀ owned r₀.1 v')
  roots : RootsKept r₀ root root'
  sameInodes : SameInodes v v'
  mono : ∀ b, v₀.Used b → v'.Used b

theorem Placing.place (h : Placing v₀ owned ino setblock v d root eno) {e : Fin n}
    (hlt : path.length + 1 = level direct) (hx : walk d (root (ino, direct)) path ≠ 0)
    (hempty : d (walk d (root (ino, direct)) path) e = 0) :
    let x := walk d (root (ino, direct)) path
    let d' := update d x (update (d x) e setblock)
    Kept v₀ owned (ino, direct) v root v d' root ∧
      walk d' (root (ino, direct)) (path ++ [e]) = setblock := by
  intro x d'
  have hlt' : path.length < depth (ino, direct) := by
    change path.length < level direct
    omega
  have hfull : ¬path.length + 1 < depth (ino, direct) := by
    change ¬path.length + 1 < level direct
    omega
  have hforest := h.forest.graft (claims v₀ owned ino v) hlt' hx hempty h.ne_zero h.outside
    (fun hlt => absurd hlt hfull) (fun r => Set.sdiff_subset) ⟨h.used, Or.inr ⟨rfl, h.unused⟩⟩
  have hplace := h.forest.walk_write_entry hlt' hx hempty h.ne_zero h.outside
    (fun hlt => absurd hlt hfull) rfl (ino, direct) (path ++ [e]) (by simpa using hlt')
  rw [if_pos ⟨rfl, rfl⟩] at hplace
  exact ⟨⟨h.books, hforest, refl _ _, SameInodes.refl v, h.mono⟩, hplace⟩

theorem Placing.kept (h : Placing v₀ owned ino setblock v d root eno) :
    Kept v₀ owned (ino, direct) v root v d root :=
  ⟨h.books, h.forest.of_agree (fun _ _ _ _ => rfl) fun _ => Set.sdiff_subset, refl _ _,
    SameInodes.refl v, h.mono⟩

variable [NeZero n] {left : ℕ}

/-- One round of the loop of `ext2_inode_set_block`: no block can be had, or the indirect block is
there, and what is left to do is what the next round expects. -/
theorem Placing.round (h : Placing v₀ owned ino setblock v d root eno) (hi : i = path.length)
    (hlt : path.length < level direct) (hat : AtPath d (root (ino, direct)) path c)
    (hempty : walk d c.block (entries (left + 1) c.indirect) = 0)
    (hzero : Zeroed d (nextBlocks (missing d (left + 1) c.block c.indirect) v)) :
    Indirect.linkMissing v d direct i eno c = ((v, d), none) ∨
    ∃ v' d' root' eno' c', Indirect.linkMissing v d direct i eno c = ((v', d'), some (eno', c')) ∧
      Placing v₀ owned ino setblock v' d' root' eno' ∧ RootsKept (ino, direct) root root' ∧
      SameInodes v v' ∧ c'.indirect = c.indirect ∧ c'.block ≠ 0 ∧
      c'.block = walk d' (root' (ino, direct)) path ∧
      (let e := entry (c.indirect / entryDiv n (left + 1))
       let rest := c.indirect % entryDiv n (left + 1)
       walk d' (d' c'.block e) (entries left rest) = 0 ∧
        Zeroed d' (nextBlocks (missing d' left (d' c'.block e) rest) v')) := by
  by_cases hc : c.block = 0
  · rcases h.books.allocBlock with ⟨b, v', halloc, hb⟩ | halloc
    · right
      rw [hc, missing_zero, nextBlocks_succ halloc] at hzero
      obtain ⟨d', root', eno', buf, hlink, hplacing, hroots, hwalk, hbzero, hnext⟩ :=
        h.linkMissing hlt hi hat hc halloc (hzero b mem_cons_self)
      refine ⟨v', d', root', eno', _, hlink, hplacing, hroots, hb.sameInodes, rfl, hb.ne_zero,
        hwalk.symm, ?_⟩
      simp only [hbzero, walk_zero, missing_zero]
      exact ⟨trivial, hnext left fun x hx => hzero x (mem_cons_of_mem b hx)⟩
    · left
      rw [Indirect.linkMissing, if_pos hc, halloc]
  · right
    rw [entries, walk, if_neg hc] at hempty
    rw [missing, if_neg hc] at hzero
    exact ⟨v, d, root, eno, c, if_neg hc, h, refl _ _, SameInodes.refl v, rfl, hc, hat.block,
      hempty, hzero⟩

/-- **The loop of `ext2_inode_set_block`** fills an empty place, if the blocks that are handed out
for the missing indirect blocks hold zeros. -/
theorem Placing.setBlockLoop (left : ℕ) (h : Placing v₀ owned ino setblock v d root eno)
    (hlevel : path.length + (left + 1) = level direct) (hat : AtPath d (root (ino, direct)) path c)
    (hempty : walk d c.block (entries (left + 1) c.indirect) = 0)
    (hzero : Zeroed d (nextBlocks (missing d (left + 1) c.block c.indirect) v)) :
    ∃ v' d' root', Kept v₀ owned (ino, direct) v root v' d' root' ∧
      ((∃ eno', Indirect.setBlockLoop direct setblock (level direct) (left + 1) v d eno c =
          ((v', d'), .ok eno') ∧ (∀ k, root' (ino, k) = eno'.blocks k) ∧
          walk d' (root' (ino, direct)) (path ++ entries (left + 1) c.indirect) = setblock) ∨
        Indirect.setBlockLoop direct setblock (level direct) (left + 1) v d eno c =
          ((v', d'), .error .enospc)) := by
  induction left generalizing v d root eno path c with
  | zero =>
    rcases h.round (i := level direct - 1) (by omega) (by omega) hat hempty hzero with
      hlink | ⟨v₁, d₁, root₁, eno₁, c₁, hlink, h₁, hroots, hsame, hind, hc₁, hwalk, hrest, -⟩
    · exact ⟨v, d, root, h.kept, Or.inr (setBlockLoop_error hlink)⟩
    · rw [entries, walk_nil, hwalk] at hrest
      rw [hwalk] at hc₁
      obtain ⟨hkept, hplaced⟩ := h₁.place (by omega) hc₁ hrest
      refine ⟨v₁, _, root₁, ⟨hkept.books, hkept.forest, hroots, hsame.trans hkept.sameInodes,
        hkept.mono⟩, Or.inl ⟨eno₁, ?_, h₁.inode, hplaced⟩⟩
      rw [setBlockLoop_one hlink, hind, hwalk]
  | succ left ih =>
    rcases h.round (i := level direct - (left + 2)) (by omega) (by omega) hat hempty hzero with
      hlink | ⟨v₁, d₁, root₁, eno₁, c₁, hlink, h₁, hroots, hsame, hind, hc₁, hwalk, hrest, hnext⟩
    · exact ⟨v, d, root, h.kept, Or.inr (setBlockLoop_error hlink)⟩
    · set e : Fin n := entry (c.indirect / entryDiv n (left + 2)) with he
      have hat₁ : AtPath d₁ (root₁ (ino, direct)) (path ++ [e])
          ⟨d₁ c₁.block e, c.indirect % entryDiv n (left + 2), e, c₁.block, d₁ c₁.block⟩ :=
        ⟨by rw [walk_concat, ← hwalk, if_neg hc₁], Or.inr ⟨path, rfl, hwalk, hc₁, rfl⟩⟩
      obtain ⟨v', d', root', hkept, hresult⟩ := ih h₁
        (by rw [length_append, length_singleton]; omega) hat₁ hrest hnext
      refine ⟨v', d', root', ⟨hkept.books, hkept.forest, hroots.trans hkept.roots,
        hsame.trans hkept.sameInodes, hkept.mono⟩, ?_⟩
      rw [setBlockLoop_succ hlink, hind, entries, append_cons]
      exact hresult

theorem Placing.inodeSetBlock (h : Placing v₀ owned ino setblock v d root eno) (blknum : ℕ)
    (hempty : inodeGetBlock d eno blknum = 0)
    (hzero : Zeroed d (nextBlocks (missingBlocks d eno blknum) v)) :
    ∃ v' d' root', Kept v₀ owned (ino, (getIndirection n blknum).2.1) v root v' d' root' ∧
      ((∃ eno', Indirect.inodeSetBlock v d eno blknum setblock = ((v', d'), .ok eno') ∧
          (∀ k, root' (ino, k) = eno'.blocks k) ∧ inodeGetBlock d' eno' blknum = setblock) ∨
        Indirect.inodeSetBlock v d eno blknum setblock = ((v', d'), .error .enospc)) := by
  have hlevel := getIndirection_level n blknum
  rw [Indirect.inodeSetBlock]
  rw [inodeGetBlock] at hempty
  rw [missingBlocks] at hzero
  simp only [inodeGetBlock]
  generalize getIndirection n blknum = place at hlevel hempty hzero ⊢
  obtain ⟨lvl, direct, indirect⟩ := place
  simp only [getBlockLoop_eq_walk] at hlevel hempty hzero ⊢
  cases lvl with
  | zero =>
    -- a direct block
    have hroot : root (ino, direct) = 0 := by
      rw [h.inode, ← hempty, entries, walk_nil]
    have hforest := h.forest.graft_root (claims v₀ owned ino v) hroot h.ne_zero h.outside
      (fun hlt => absurd hlt (by change ¬0 < level direct; omega)) (fun r => Set.sdiff_subset)
      ⟨h.used, Or.inr ⟨rfl, h.unused⟩⟩
    refine ⟨v, d, update root (ino, direct) setblock, ⟨h.books, hforest,
      ⟨fun r hr => update_of_ne hr _ _, fun h0 => absurd hroot h0⟩, SameInodes.refl v,
      h.mono⟩, Or.inl ⟨_, rfl, update_root h.inode direct setblock, ?_⟩⟩
    rw [entries, walk_nil]
    simp
  | succ left =>
    have hat : AtPath d (root (ino, direct)) []
        ⟨eno.blocks direct, indirect, entry direct, 0, fun _ => 0⟩ :=
      ⟨(h.inode direct).symm, Or.inl rfl⟩
    obtain ⟨v', d', root', hkept, hresult⟩ :=
      h.setBlockLoop left (by rw [length_nil]; omega) hat hempty hzero
    rw [← hlevel, nil_append] at hresult
    refine ⟨v', d', root', hkept, ?_⟩
    rcases hresult with ⟨eno', heq, hinode, hwalk⟩ | heq
    · exact Or.inl ⟨eno', heq, hinode, hinode direct ▸ hwalk⟩
    · exact Or.inr heq

end Placing

end SeaKernel.Ext2
