import SeaKernel.Ext2.BlockMap

/-!
# Setting one block of a file

An index block that is missing is allocated and linked, but not cleared: what was on the device
before is taken for block numbers. If the blocks handed out hold zeros, setting a block of a file
changes that block and no other. Otherwise blocks that the file did not have appear in it, or the
block is set in what a stale number refers to.

## Main results

* `Indexed.setSound`: setting a block is sound if the blocks handed out hold zeros
* `set_sound_iff`: when it is sound whatever the free blocks hold
-/

namespace SeaKernel.Ext2.Indirect

open Volume Function List Option Nat

variable {n : ℕ} [NeZero n]

/-- Setting a block, if the call returns 0, sets that block and changes no other. -/
def SetSound (v : Volume) (d : Disk n) (eno : DiskInode) (b x : ℕ) : Prop :=
  ∀ v' d' eno', inodeSetBlock v d eno b x = ((v', d'), .ok eno') →
    inodeGetBlock d' eno' b = x ∧
      ∀ c < limit n, c ≠ b → inodeGetBlock d' eno' c = inodeGetBlock d eno c

/-- The index blocks of a file are in use and are all different, on a volume whose books are in
order. -/
structure Indexed (v : Volume) (d : Disk n) (blocks : Fin 15 → ℕ) : Prop where
  books : Books v
  used : ∀ k path, path.length < level k → walk d (blocks k) path ≠ 0 →
    v.Used (walk d (blocks k) path)
  once : ∀ k path k' path', path.length < level k → path'.length < level k' →
    walk d (blocks k) path = walk d (blocks k') path' → walk d (blocks k) path ≠ 0 →
    k = k' ∧ path = path'

/-! ## The way to a block -/

variable {left b : ℕ} {k : Fin 15}

section Place

/-- The index of a path, the first entry counting most. -/
def index : List (Fin n) → ℕ
  | [] => 0
  | e :: path => e * n ^ path.length + index path

omit [NeZero n] in
theorem index_lt (path : List (Fin n)) : index path < n ^ path.length := by
  induction path with
  | nil => exact one_pos
  | cons e path ih =>
    have hle : (e.val + 1) * n ^ path.length ≤ n * n ^ path.length := mul_le_mul_right _ e.isLt
    rw [index, length_cons, pow_succ']
    nlinarith

omit [NeZero n] in
theorem entryDiv_eq (h : left < 3) : entryDiv n (left + 1) = n ^ left := by
  interval_cases left
  · rfl
  · simp [entryDiv]
  · simp [entryDiv, sq]

theorem entries_index {path : List (Fin n)} (h : path.length ≤ 3) :
    entries path.length (index path) = path := by
  induction path with
  | nil => rfl
  | cons e path ih =>
    rw [length_cons] at h
    have hlt := index_lt path
    have hdiv : (e.val * n ^ path.length + index path) / n ^ path.length = e.val := by
      rw [add_comm, add_mul_div_right _ _ (by omega), div_eq_of_lt hlt, zero_add]
    have hmod : (e.val * n ^ path.length + index path) % n ^ path.length = index path := by
      rw [add_comm, add_mul_mod_self_right, mod_eq_of_lt hlt]
    rw [length_cons, entries, entryDiv_eq (by omega), index, hdiv, hmod, ih (by omega)]
    congr 1
    exact Fin.ofNat_val_eq_self e

theorem index_entries {indirect : ℕ} (h : left ≤ 3) (hlt : indirect < n ^ left) :
    index (entries left indirect : List (Fin n)) = indirect := by
  induction left generalizing indirect with
  | zero =>
    rw [pow_zero] at hlt
    rw [entries, index]
    omega
  | succ left ih =>
    have hpos : 0 < n ^ left := Nat.pow_pos (Nat.pos_of_ne_zero (NeZero.ne n))
    have hentry : (entry (indirect / n ^ left) : Fin n).val = indirect / n ^ left := by
      refine mod_eq_of_lt ((div_lt_iff_lt_mul hpos).mpr ?_)
      rwa [Nat.pow_succ'] at hlt
    rw [entries, entryDiv_eq (by omega), index, length_entries, hentry,
      ih (by omega) (mod_lt _ hpos)]
    exact div_add_mod' _ _

/-- The number of the first block below an entry of the inode. -/
def firstBlock (n : ℕ) (k : Fin 15) : ℕ :=
  if k < 12 then k else if k = 12 then 12 else if k = 13 then 12 + n else 12 + n + n * n

/-- The number of the block at a place. -/
def number (k : Fin 15) (path : List (Fin n)) : ℕ := firstBlock n k + index path

omit [NeZero n] in
theorem getIndirection_cases (hb : b < limit n) :
    b = firstBlock n (getIndirection n b).2.1 + (getIndirection n b).2.2 ∧
      (getIndirection n b).2.2 < n ^ (getIndirection n b).1 ∧ (getIndirection n b).1 ≤ 3 := by
  simp only [limit] at hb
  unfold getIndirection
  split
  · next h =>
    have hlt : (⟨b, by omega⟩ : Fin 15) < 12 := h
    refine ⟨?_, by simp, by simp⟩
    dsimp only
    rw [firstBlock, if_pos hlt, add_zero]
  · split
    · refine ⟨?_, ?_, by simp⟩
      · change b = 12 + (b - 12)
        omega
      · dsimp only
        rw [pow_one]
        omega
    · split
      · refine ⟨?_, ?_, by simp⟩
        · change b = 12 + n + (b - 12 - n)
          omega
        · dsimp only
          rw [sq]
          omega
      · refine ⟨?_, ?_, by simp⟩
        · change b = 12 + n + n * n + (b - 12 - n - n * n)
          omega
        · dsimp only
          rw [show n ^ 3 = n * n * n by ring]
          omega

/-- **A block is given by its place.** -/
theorem number_place (hb : b < limit n) : number (place n b).1 (place n b).2 = b := by
  obtain ⟨hnumber, hlt, hle⟩ := getIndirection_cases hb
  have hindex : index (place n b).2 = (getIndirection n b).2.2 := index_entries hle hlt
  rw [number, hindex]
  exact hnumber.symm

theorem eq_of_level_pos : ∀ {k : Fin 15}, 0 < level k → k = 12 ∨ k = 13 ∨ k = 14 := by
  decide

theorem exists_place (hk : 0 < level k) {path : List (Fin n)} (hpath : path.length = level k) :
    ∃ b < limit n, place n b = (k, path) := by
  have hlt := index_lt path
  obtain ⟨b, hb, hind⟩ : ∃ b < limit n, getIndirection n b = (level k, k, index path) := by
    rw [hpath] at hlt
    unfold limit getIndirection
    obtain rfl | rfl | rfl := eq_of_level_pos hk
    · change index path < n ^ 1 at hlt
      rw [pow_one] at hlt
      refine ⟨12 + index path, by omega, ?_⟩
      rw [dif_neg (by omega), if_pos (by omega), Nat.add_sub_cancel_left]
      rfl
    · change index path < n ^ 2 at hlt
      rw [sq] at hlt
      refine ⟨12 + n + index path, by omega, ?_⟩
      rw [dif_neg (by omega), if_neg (by omega), if_pos (by omega), Nat.sub_sub,
        Nat.add_sub_cancel_left]
      rfl
    · change index path < n ^ 3 at hlt
      rw [show n ^ 3 = n * n * n by ring] at hlt
      refine ⟨12 + n + n * n + index path, by omega, ?_⟩
      have hindirect : 12 + n + n * n + index path - 12 - n - n * n = index path := by omega
      rw [dif_neg (by omega), if_neg (by omega), if_neg (by omega), hindirect]
      rfl
  have hle : path.length ≤ 3 := by
    rw [hpath]
    obtain rfl | rfl | rfl := eq_of_level_pos hk <;> decide
  refine ⟨b, hb, ?_⟩
  rw [place, hind, ← hpath]
  exact congrArg (Prod.mk k) (entries_index hle)

end Place

/-! ## Setting a block -/

section Set

variable {v v' : Volume} {d d' : Disk n} {eno eno' : DiskInode} {direct : Fin 15}
  {path : List (Fin n)} {c c' : Cursor n} {u x : ℕ}

omit [NeZero n] in
theorem Indexed.insert (h : Indexed v d eno.blocks) (halloc : Allocated v v' u)
    (hwalk : ∀ k path', path'.length ≤ level k → walk d' (eno'.blocks k) path' =
      if k = direct ∧ path' = path then u else walk d (eno.blocks k) path') :
    Indexed v' d' eno'.blocks := by
  have hold : ∀ k path', path'.length < level k → walk d (eno.blocks k) path' ≠ u := by
    intro k path' hlt heq
    refine halloc.unused (heq ▸ h.used k path' hlt ?_)
    rw [heq]
    exact halloc.ne_zero
  refine ⟨halloc.books, fun k path' hlt hne => ?_, fun k p k' p' hp hp' heq hne => ?_⟩
  · rw [hwalk k path' hlt.le] at hne ⊢
    refine (halloc.used _).mpr ?_
    split at hne
    · next hplace => rw [if_pos hplace]; exact .inr rfl
    · next hplace => rw [if_neg hplace]; exact .inl (h.used k path' hlt hne)
  · rw [hwalk k p hp.le] at heq hne
    rw [hwalk k' p' hp'.le] at heq
    split at heq
    · next hplace =>
      split at heq
      · next hplace' => exact ⟨hplace.1.trans hplace'.1.symm, hplace.2.trans hplace'.2.symm⟩
      · exact absurd heq.symm (hold k' p' hp')
    · next hplace =>
      rw [if_neg hplace] at hne
      split at heq
      · exact absurd heq (hold k p hp)
      · exact h.once k p k' p' hp hp' heq hne

omit [NeZero n] in
/-- **The start of a round, where the index block is missing**: the new block is at the place. The
walks through the place go on with what the block holds, and the others are as before. -/
theorem Indexed.link (h : Indexed v d eno.blocks) {i : ℕ} (hi : i = path.length)
    (hpath : path.length < level direct) (hat : AtPath d (eno.blocks direct) path c)
    (hc : c.block = 0) (halloc : v.allocBlock = (v', .ok u)) :
    ∃ d' eno' c', linkMissing v d direct i eno c = ((v', d'), some (eno', c')) ∧
      c'.block = u ∧ c'.indirect = c.indirect ∧
      (∀ k p, p.length ≤ level k → ¬ (k = direct ∧ path <+: p) →
        walk d' (eno'.blocks k) p = walk d (eno.blocks k) p) ∧
      (∀ rest, walk d' (eno'.blocks direct) (path ++ rest) = walk d' u rest) ∧
      ∀ y, d' y = d y ∨ v.Used y := by
  rcases hat.above with rfl | ⟨path', rfl, hprev, hprev0, hbuf⟩
  · -- The new block is entered in the inode.
    refine ⟨d, { eno with blocks := update eno.blocks direct u }, { c with block := u },
      ?_, rfl, rfl, fun k p _ hplace => ?_, fun rest => ?_, fun y => .inl rfl⟩
    · rw [linkMissing, if_pos hc, halloc]
      exact if_pos hi
    · have hk : k ≠ direct := fun hk => hplace ⟨hk, nil_prefix⟩
      dsimp only
      rw [update_of_ne hk]
    · dsimp only
      rw [update_self, nil_append]
  · -- The new block is entered in the index block above.
    rw [length_append, length_singleton] at hpath hi
    have hused : v.Used c.prevBlock := by
      rw [hprev] at hprev0 ⊢
      exact h.used direct path' (by omega) hprev0
    -- The index block above is met at the end of `path'` only.
    have honce : ∀ k q rest, (q ++ c.prev :: rest).length ≤ level k →
        walk d (eno.blocks k) q = c.prevBlock → k = direct ∧ q = path' := by
      intro k q rest hlen heq
      rw [length_append, length_cons] at hlen
      refine h.once k q direct path' (by omega) (by omega) (heq.trans hprev) ?_
      rw [heq]
      exact hprev0
    refine ⟨update d c.prevBlock (update (d c.prevBlock) c.prev u), eno,
      { c with block := u, buf := update c.buf c.prev u }, ?_, rfl, rfl,
      fun k p hlen hplace => ?_, fun rest => ?_, fun y => ?_⟩
    · rw [linkMissing, if_pos hc, halloc]
      dsimp only
      rw [if_neg (by omega), hbuf]
    · refine walk_update_of_not fun q rest hq heq => hplace ?_
      obtain ⟨rfl, rfl⟩ := honce k q rest (hq ▸ hlen) heq
      exact ⟨rfl, rest, by rw [hq, append_assoc]; rfl⟩
    · rw [append_assoc, singleton_append, walk_update_append hprev0 hprev.symm]
      rintro q rest' hq heq
      have hlen := congrArg length hq
      obtain ⟨-, rfl⟩ := honce direct q rest' (by rw [← hq]; omega) heq
      rw [length_append, length_cons] at hlen
      omega
    · by_cases hy : y = c.prevBlock
      · exact .inr (hy ▸ hused)
      · exact .inl (update_of_ne hy _ _)

/-- **One round of the loop**: no block can be had, or the index block is there, the file has the
same blocks as before, and the next blocks handed out hold zeros. -/
theorem Indexed.round {i : ℕ} (h : Indexed v d eno.blocks) (hi : i = path.length)
    (hpath : path.length < level direct) (hat : AtPath d (eno.blocks direct) path c)
    (hzero : Zeroed d (nextBlocks (missing d (left + 1) c.block c.indirect) v)) :
    (∃ s, linkMissing v d direct i eno c = (s, none)) ∨
    ∃ v' d' eno' c', linkMissing v d direct i eno c = ((v', d'), some (eno', c')) ∧
      Indexed v' d' eno'.blocks ∧ c'.indirect = c.indirect ∧ c'.block ≠ 0 ∧
      c'.block = walk d' (eno'.blocks direct) path ∧
      (∀ k path', path'.length = level k →
        walk d' (eno'.blocks k) path' = walk d (eno.blocks k) path') ∧
      Zeroed d' (nextBlocks (missing d' left
        (d' c'.block (entry (c.indirect / entryDiv n (left + 1))))
        (c.indirect % entryDiv n (left + 1))) v') := by
  by_cases hc : c.block = 0
  · rcases h.books.allocBlock with ⟨u, v₁, halloc, hu⟩ | halloc
    · rw [hc, missing_zero, nextBlocks_succ halloc] at hzero
      have huzero := hzero u mem_cons_self
      obtain ⟨d', eno', c', hlink, hblock, hind, hother, hthrough, hsame⟩ :=
        h.link hi hpath hat hc halloc
      have hkept : ∀ y, ¬ v.Used y → d' y = d y := fun y hy => (hsame y).resolve_right hy
      have hwalk : ∀ k p, p.length ≤ level k → walk d' (eno'.blocks k) p =
          if k = direct ∧ p = path then u else walk d (eno.blocks k) p := by
        intro k p hlen
        by_cases hplace : k = direct ∧ path <+: p
        · -- Below the new block, which has no entries, there is nothing, as before.
          obtain ⟨rfl, rest, rfl⟩ := hplace
          rw [hthrough]
          cases rest with
          | nil => simp
          | cons f rest =>
            rw [walk, if_neg hu.ne_zero, hkept u hu.unused, huzero, walk_zero, if_neg (by simp),
              walk_append, ← hat.block, hc, walk_zero]
        · rw [hother k p hlen hplace, if_neg]
          rintro ⟨rfl, rfl⟩
          exact hplace ⟨rfl, prefix_rfl⟩
      refine .inr ⟨v₁, d', eno', c', hlink, h.insert hu hwalk, hind, ?_, ?_, ?_, ?_⟩
      · rw [hblock]
        exact hu.ne_zero
      · rw [hblock, hwalk direct path hpath.le, if_pos ⟨rfl, rfl⟩]
      · intro k path' hlen
        rw [hwalk k path' hlen.le, if_neg]
        rintro ⟨rfl, rfl⟩
        omega
      · -- Below the new block everything is missing.
        rw [hblock, hkept u hu.unused, huzero, missing_zero]
        intro y hy e
        have hunused : ¬ v.Used y := fun hused =>
          not_used_of_mem_nextBlocks hu.books hy ((hu.used y).mpr (.inl hused))
        rw [hkept y hunused]
        exact hzero y (mem_cons_of_mem _ hy) e
    · refine .inl ⟨(v, d), ?_⟩
      rw [linkMissing, if_pos hc, halloc]
  · rw [missing, if_neg hc] at hzero
    refine .inr ⟨v, d, eno, c, if_neg hc, h, rfl, hc, hat.block, fun _ _ _ => rfl, hzero⟩

omit [NeZero n] in
theorem Indexed.place_walk (h : Indexed v d eno.blocks) (hpath : path.length < level direct)
    (hx : walk d (eno.blocks direct) path ≠ 0) (e : Fin n) (x : ℕ) {path' : List (Fin n)}
    (hlen : path'.length = level k) (hfull : path.length + 1 = level direct) :
    walk (update d (walk d (eno.blocks direct) path)
      (update (d (walk d (eno.blocks direct) path)) e x)) (eno.blocks k) path' =
      if k = direct ∧ path' = path ++ [e] then x else walk d (eno.blocks k) path' := by
  by_cases hplace : k = direct ∧ path' = path ++ [e]
  · obtain ⟨rfl, rfl⟩ := hplace
    rw [if_pos ⟨rfl, rfl⟩, walk_update_append hx rfl, walk_nil]
    rintro q rest hq heq
    have hlen' := congrArg length hq
    rw [length_append, length_cons] at hlen'
    obtain ⟨-, rfl⟩ := h.once k q k path (by omega) hpath heq (heq ▸ hx)
    omega
  · rw [if_neg hplace]
    refine walk_update_of_not fun q rest hq heq => hplace ?_
    have hlen' := congrArg length hq
    rw [length_append, length_cons] at hlen'
    obtain ⟨rfl, rfl⟩ := h.once k q direct path (by omega) hpath heq (heq ▸ hx)
    have hrest : rest = [] := length_eq_zero_iff.mp (by omega)
    exact ⟨rfl, by rw [hq, hrest]⟩

variable {lvl : ℕ}

/-- **The loop of `ext2_inode_set_block`** sets the block at its place and no other, if the blocks
that are handed out hold zeros. -/
theorem Indexed.loop (left : ℕ) (h : Indexed v d eno.blocks)
    (hlevel : path.length + (left + 1) = level direct) (hat : AtPath d (eno.blocks direct) path c)
    (hzero : Zeroed d (nextBlocks (missing d (left + 1) c.block c.indirect) v))
    (hrun : setBlockLoop direct x (level direct) (left + 1) v d eno c = ((v', d'), .ok eno'))
    {path' : List (Fin n)} (hlen : path'.length = level k) :
    walk d' (eno'.blocks k) path' =
      if k = direct ∧ path' = path ++ entries (left + 1) c.indirect then x
      else walk d (eno.blocks k) path' := by
  induction left generalizing v d eno path c with
  | zero =>
    rcases h.round (i := level direct - 1) (by omega) (by omega) hat hzero with
      ⟨s, hlink⟩ | ⟨v₁, d₁, eno₁, c₁, hlink, h₁, hind, hc₁, hwalk, hsame, -⟩
    · rw [setBlockLoop_error hlink] at hrun
      cases hrun
    · rw [setBlockLoop_one hlink] at hrun
      obtain ⟨hs, hok⟩ := Prod.mk.inj hrun
      obtain ⟨rfl, rfl⟩ := Prod.mk.inj hs
      obtain rfl := Except.ok.inj hok
      rw [hwalk] at hc₁ ⊢
      rw [h₁.place_walk (by omega) hc₁ _ x hlen (by omega), hsame k path' hlen, hind]
      rfl
  | succ left ih =>
    rcases h.round (i := level direct - (left + 2)) (by omega) (by omega) hat hzero with
      ⟨s, hlink⟩ | ⟨v₁, d₁, eno₁, c₁, hlink, h₁, hind, hc₁, hwalk, hsame, hnext⟩
    · rw [setBlockLoop_error hlink] at hrun
      cases hrun
    · rw [setBlockLoop_succ hlink, hind] at hrun
      set e : Fin n := entry (c.indirect / entryDiv n (left + 2)) with he
      have hat₁ : AtPath d₁ (eno₁.blocks direct) (path ++ [e])
          ⟨d₁ c₁.block e, c.indirect % entryDiv n (left + 2), e, c₁.block, d₁ c₁.block⟩ :=
        ⟨by rw [walk_concat, ← hwalk, if_neg hc₁], .inr ⟨path, rfl, hwalk, hc₁, rfl⟩⟩
      have hlen₁ : (path ++ [e]).length + (left + 1) = level direct := by
        rw [length_append, length_singleton]
        omega
      have hentries : path ++ entries (left + 2) c.indirect =
          path ++ [e] ++ entries (left + 1) (c.indirect % entryDiv n (left + 2)) :=
        append_cons _ _ _
      rw [ih h₁ hlen₁ hat₁ hnext hrun, hsame k path' hlen, hentries]

/-- **Setting a block is sound** if the blocks that are handed out for missing index blocks hold
zeros. -/
theorem Indexed.setSound (h : Indexed v d eno.blocks) (hb : b < limit n)
    (hzero : Zeroed d (nextBlocks (missingBlocks d eno b) v)) : SetSound v d eno b x := by
  intro v' d' eno' hrun
  -- Both halves follow from the walk to any place.
  have hwalk : ∀ k path', path'.length = level k → walk d' (eno'.blocks k) path' =
      if k = (place n b).1 ∧ path' = (place n b).2 then x else walk d (eno.blocks k) path' := by
    intro k path' hlen
    rw [inodeSetBlock] at hrun
    rw [missingBlocks] at hzero
    rw [place]
    have hlevel := getIndirection_level n b
    generalize getIndirection n b = ind at hlevel hrun hzero ⊢
    obtain ⟨lvl, direct, indirect⟩ := ind
    dsimp only at hlevel hrun hzero ⊢
    cases lvl with
    | zero =>
      obtain ⟨hs, hok⟩ := Prod.mk.inj hrun
      obtain ⟨rfl, rfl⟩ := Prod.mk.inj hs
      obtain rfl := Except.ok.inj hok
      rw [if_pos rfl]
      dsimp only
      by_cases hk : k = direct
      · have hnil : path' = [] := length_eq_zero_iff.mp (by rw [hlen, hk, ← hlevel])
        rw [hk, hnil, update_self, walk_nil, if_pos ⟨rfl, rfl⟩]
      · rw [update_of_ne hk, if_neg fun hplace => hk hplace.1]
    | succ left =>
      rw [if_neg (succ_ne_zero left)] at hrun
      nth_rewrite 1 [hlevel] at hrun
      have hat : AtPath d (eno.blocks direct) []
          ⟨eno.blocks direct, indirect, entry direct, 0, fun _ => 0⟩ := ⟨rfl, .inl rfl⟩
      exact h.loop left (by simpa using hlevel) hat hzero hrun hlen
  constructor
  · rw [inodeGetBlock_eq_walk, hwalk _ _ (length_place b), if_pos ⟨rfl, rfl⟩]
  · intro c hc hne
    rw [inodeGetBlock_eq_walk, inodeGetBlock_eq_walk, hwalk _ _ (length_place c), if_neg]
    rintro ⟨hk, hpath⟩
    refine hne ?_
    rw [← number_place hc, ← number_place hb, hk, hpath]

/-! ## Stale blocks -/

/-- The loop in a block all of whose entries are the block itself: it stays there, and sets the
entry it comes to last. -/
theorem setBlockLoop_stale (left : ℕ) (hc : c.block ≠ 0) (hu : ∀ e, d c.block e = c.block) :
    ∃ e : Fin n, (entries (left + 1) c.indirect).getLast? = some e ∧
      setBlockLoop direct x lvl (left + 1) v d eno c =
        ((v, update d c.block (update (d c.block) e x)), .ok eno) := by
  induction left generalizing c with
  | zero =>
    have hlink : linkMissing v d direct (lvl - 1) eno c = ((v, d), some (eno, c)) := if_neg hc
    exact ⟨_, rfl, setBlockLoop_one hlink⟩
  | succ left ih =>
    have hlink : linkMissing v d direct (lvl - (left + 2)) eno c = ((v, d), some (eno, c)) :=
      if_neg hc
    obtain ⟨e, hlast, hloop⟩ := ih (c := ⟨d c.block (entry (c.indirect / entryDiv n (left + 2))),
      c.indirect % entryDiv n (left + 2), entry (c.indirect / entryDiv n (left + 2)), c.block,
      d c.block⟩) (by rw [hu]; exact hc) (by rw [hu]; exact hu)
    refine ⟨e, ?_, ?_⟩
    · rw [entries, getLast?_cons, hlast]
      rfl
    · rw [setBlockLoop_succ hlink, hloop]
      dsimp only
      rw [hu]

omit [NeZero n] in
theorem walk_stale {e f : Fin n} (hu0 : u ≠ 0) (hu : ∀ e, d u e = u) (hfe : f ≠ e) (m : ℕ) :
    walk (update d u (update (d u) e x)) u (List.replicate m f) = u := by
  induction m with
  | zero => rfl
  | succ m ih =>
    rw [replicate_succ, walk, if_neg hu0, update_self, update_of_ne hfe, hu]
    exact ih

theorem setBlockLoop_link (hc' : c'.block ≠ 0)
    (hlink : linkMissing v d direct (lvl - (left + 1)) eno c = ((v', d'), some (eno', c'))) :
    setBlockLoop direct x lvl (left + 1) v d eno c =
      setBlockLoop direct x lvl (left + 1) v' d' eno' c' := by
  have hfound : linkMissing v' d' direct (lvl - (left + 1)) eno' c' = ((v', d'), some (eno', c')) :=
    if_neg hc'
  rw [setBlockLoop, hlink, setBlockLoop, hfound]

/-- Setting a block returns 0, and a place behind the path that was empty holds `u`. -/
def Appears (v v' : Volume) (d : Disk n) (direct : Fin 15) (eno : DiskInode) (c : Cursor n)
    (path : List (Fin n)) (left u x : ℕ) : Prop :=
  ∃ d' eno', setBlockLoop direct x (level direct) left v d eno c = ((v', d'), .ok eno') ∧
    ∃ path', path'.length = left ∧ path' ≠ entries left c.indirect ∧
      walk d (eno.blocks direct) (path ++ path') = 0 ∧
      walk d' (eno'.blocks direct) (path ++ path') = u

theorem Indexed.stale_here (left : ℕ) (h : Indexed v d eno.blocks)
    (hlevel : path.length + (left + 1) = level direct)
    (hat : AtPath d (eno.blocks direct) path c) (hc : c.block = 0)
    (halloc : v.allocBlock = (v', .ok u)) (hu : ∀ e, d u e = u) (hn : 1 < n) (x : ℕ) :
    Appears v v' d direct eno c path (left + 1) u x := by
  have hnew := h.books.allocBlock_ok halloc
  obtain ⟨d₁, eno₁, c₁, hlink, hblock, hind, hother, hthrough, hsame⟩ :=
    h.link (i := level direct - (left + 1)) (by omega) (by omega) hat hc halloc
  have hu₁ : ∀ e, d₁ u e = u := by
    rw [(hsame u).resolve_right hnew.unused]
    exact hu
  have hc₁ : c₁.block ≠ 0 := by
    rw [hblock]
    exact hnew.ne_zero
  obtain ⟨e, hlast, hloop⟩ : ∃ e : Fin n, (entries (left + 1) c₁.indirect).getLast? = some e ∧
      setBlockLoop direct x (level direct) (left + 1) v' d₁ eno₁ c₁ =
        ((v', update d₁ c₁.block (update (d₁ c₁.block) e x)), .ok eno₁) :=
    setBlockLoop_stale left hc₁ (by rw [hblock]; exact hu₁)
  -- The place is in the new block, by entries that the call does not set.
  have : Nontrivial (Fin n) := Fin.nontrivial_iff_two_le.mpr hn
  obtain ⟨f, hfe⟩ := exists_ne e
  unfold Appears
  refine ⟨update d₁ u (update (d₁ u) e x), eno₁, ?_, replicate (left + 1) f,
    length_replicate, fun heq => ?_, ?_, ?_⟩
  · rw [hblock] at hloop
    rw [setBlockLoop_link hc₁ hlink, hloop]
  · rw [hind, ← heq, getLast?_replicate, if_neg (succ_ne_zero left)] at hlast
    exact hfe (some.inj hlast)
  · rw [walk_append, ← hat.block, hc, walk_zero]
  · -- On the way to the new block the walk meets only blocks that were in use.
    have hpath : walk (update d₁ u (update (d₁ u) e x)) (eno₁.blocks direct)
        path = walk d₁ (eno₁.blocks direct) path := by
      refine walk_update_of_not fun p rest hp hwalk => hnew.unused ?_
      have hlen := congrArg length hp
      rw [length_append, length_cons] at hlen
      rw [hother direct p (by omega) fun hpre => by have := hpre.2.length_le; omega] at hwalk
      rw [← hwalk]
      refine h.used direct p (by omega) ?_
      rw [hwalk]
      exact hnew.ne_zero
    have hend := hthrough []
    rw [append_nil] at hend
    rw [walk_append, hpath, hend]
    exact walk_stale hnew.ne_zero hu₁ hfe (left + 1)

/-- **With a stale index block**: if a block is missing, and the block that is handed out for it
holds its own number everywhere, then the call returns 0, and a place that was empty is not. -/
theorem Indexed.stale (left : ℕ) (h : Indexed v d eno.blocks)
    (hlevel : path.length + (left + 1) = level direct)
    (hat : AtPath d (eno.blocks direct) path c)
    (hmissing : missing d (left + 1) c.block c.indirect ≠ 0)
    (halloc : v.allocBlock = (v', .ok u)) (hu : ∀ e, d u e = u) (hn : 1 < n) (x : ℕ) :
    Appears v v' d direct eno c path (left + 1) u x := by
  by_cases hc : c.block = 0
  · exact h.stale_here left hlevel hat hc halloc hu hn x
  induction left generalizing path c with
  | zero =>
    rw [missing, if_neg hc] at hmissing
    exact absurd rfl hmissing
  | succ left ih =>
    -- The round finds its block, so what is missing is missing further down.
    have hlink : linkMissing v d direct (level direct - (left + 2)) eno c =
      ((v, d), some (eno, c)) := if_neg hc
    rw [missing, if_neg hc] at hmissing
    set e : Fin n := entry (c.indirect / entryDiv n (left + 2)) with he
    have hat₁ : AtPath d (eno.blocks direct) (path ++ [e])
        ⟨d c.block e, c.indirect % entryDiv n (left + 2), e, c.block, d c.block⟩ :=
      ⟨by rw [walk_concat, ← hat.block, if_neg hc], .inr ⟨path, rfl, hat.block, hc, rfl⟩⟩
    have hlen₁ : (path ++ [e]).length + (left + 1) = level direct := by
      rw [length_append, length_singleton]
      omega
    obtain ⟨d', eno', hrun, path', hlen, hne, hold, hnew⟩ : Appears v v' d direct eno
        ⟨d c.block e, c.indirect % entryDiv n (left + 2), e, c.block, d c.block⟩ (path ++ [e])
        (left + 1) u x := by
      by_cases hc₁ : d c.block e = 0
      · exact h.stale_here left hlen₁ hat₁ hc₁ halloc hu hn x
      · exact ih hlen₁ hat₁ hmissing hc₁
    rw [append_assoc, singleton_append] at hold hnew
    unfold Appears
    rw [setBlockLoop_succ hlink]
    refine ⟨d', eno', hrun, e :: path', by rw [length_cons, hlen], fun heq => hne ?_, hold, hnew⟩
    exact (cons.inj heq).2

/-! ### The contents of the free blocks -/

/-- Two contents of a device that differ in blocks that are not in use. -/
def SameUsed (v : Volume) (d d' : Disk n) : Prop := ∀ u, v.Used u → d' u = d u

section

variable (h : Indexed v d eno.blocks)

include h

section

variable (hsame : SameUsed v d d')

include hsame

omit [NeZero n] in
theorem Indexed.walk_same (hlen : path.length ≤ level k) :
    walk d' (eno.blocks k) path = walk d (eno.blocks k) path := by
  induction path using reverseRecOn with
  | nil => rfl
  | append_singleton path e ih =>
    rw [length_append, length_singleton] at hlen
    rw [walk_concat, walk_concat, ih (by omega)]
    split
    · rfl
    · next hne => rw [hsame _ (h.used k path (by omega) hne)]

omit [NeZero n] in
theorem Indexed.same : Indexed v d' eno.blocks := by
  refine ⟨h.books, fun k path hlt => ?_, fun k path k' path' hlt hlt' => ?_⟩
  · rw [h.walk_same hsame hlt.le]
    exact h.used k path hlt
  · rw [h.walk_same hsame hlt.le, h.walk_same hsame hlt'.le]
    exact h.once k path k' path' hlt hlt'

theorem Indexed.missing_same (left indirect : ℕ) (hlen : path.length + left = level k) :
    missing d' left (walk d (eno.blocks k) path) indirect =
      missing d left (walk d (eno.blocks k) path) indirect := by
  induction left generalizing path indirect with
  | zero => rfl
  | succ left ih =>
    rw [missing, missing]
    split
    · rfl
    · next hne =>
      set e : Fin n := entry (indirect / entryDiv n (left + 1)) with he
      have hlen' : (path ++ [e]).length + left = level k := by
        rw [length_append, length_singleton]
        omega
      have hnext := ih (indirect % entryDiv n (left + 1)) hlen'
      rw [walk_concat, if_neg hne] at hnext
      rw [hsame _ (h.used k path (by omega) hne)]
      exact hnext

theorem Indexed.inodeGetBlock_same (b : ℕ) : inodeGetBlock d' eno b = inodeGetBlock d eno b := by
  rw [inodeGetBlock_eq_walk, inodeGetBlock_eq_walk, h.walk_same hsame (length_place b).le]

theorem Indexed.missingBlocks_same (b : ℕ) : missingBlocks d' eno b = missingBlocks d eno b := by
  have hlen : ([] : List (Fin n)).length + (getIndirection n b).1 =
    level (getIndirection n b).2.1 := (zero_add _).trans (getIndirection_level n b)
  exact h.missing_same hsame (getIndirection n b).1 (getIndirection n b).2.2 hlen

end

/-- **A stale index block shows**: if an index block is missing, and the block that is handed out
for it holds its own number everywhere, the call changes a block that it should not. -/
theorem Indexed.not_setSound (hmissing : missingBlocks d eno b ≠ 0)
    (halloc : v.allocBlock = (v', .ok u)) (hu : ∀ e, d u e = u) (hn : 1 < n) (x : ℕ) :
    ¬ SetSound v d eno b x := by
  intro hsound
  have hplace : place n b =
    ((getIndirection n b).2.1, entries (getIndirection n b).1 (getIndirection n b).2.2) := rfl
  have hlevel := getIndirection_level n b
  rw [SetSound, inodeSetBlock] at hsound
  rw [missingBlocks] at hmissing
  generalize getIndirection n b = ind at hplace hlevel hsound hmissing
  obtain ⟨lvl, direct, indirect⟩ := ind
  dsimp only at hplace hlevel hsound hmissing
  cases lvl with
  | zero => exact hmissing rfl
  | succ left =>
    rw [if_neg (succ_ne_zero left)] at hsound
    nth_rewrite 1 [hlevel] at hsound
    have hat : AtPath d (eno.blocks direct) []
      ⟨eno.blocks direct, indirect, entry direct, 0, fun _ => 0⟩ := ⟨rfl, .inl rfl⟩
    obtain ⟨d', eno', hrun, path, hlen, hne, hold, hnew⟩ :=
      h.stale left (by simpa using hlevel) hat hmissing halloc hu hn x
    rw [nil_append] at hold hnew
    -- The place that is not empty any more is that of another block.
    obtain ⟨c, hc, hplace'⟩ := exists_place (by omega) (hlen.trans hlevel)
    have hcb : c ≠ b := by
      rintro rfl
      rw [hplace] at hplace'
      exact hne (congrArg Prod.snd hplace').symm
    have hsame := (hsound v' d' eno' hrun).2 c hc hcb
    rw [inodeGetBlock_eq_walk, inodeGetBlock_eq_walk, hplace', hold, hnew] at hsame
    exact (h.books.allocBlock_ok halloc).ne_zero hsame

end

/-- **Setting a block of a file** sets that block and no other if the blocks that are handed out
for missing index blocks hold zeros. It does so whatever the free blocks hold if and only if no
index block is missing or no block can be handed out: `ext2_inode_set_block` does not clear the
index blocks that it allocates. -/
theorem set_sound_iff (hn : 1 < n) (h : Indexed v d eno.blocks) {b : ℕ} (hb : b < limit n) (x : ℕ) :
    (Zeroed d (nextBlocks (missingBlocks d eno b) v) → SetSound v d eno b x) ∧
      ((∀ d', SameUsed v d d' → SetSound v d' eno b x) ↔
        missingBlocks d eno b = 0 ∨ ∀ u, v.allocBlock.2 ≠ .ok u) := by
  refine ⟨h.setSound hb, fun hsound => ?_, fun hnone d' hsame => ?_⟩
  · by_contra hnone
    rw [not_or, not_forall] at hnone
    obtain ⟨hmissing, u, hu⟩ := hnone
    have halloc : v.allocBlock = (v.allocBlock.1, .ok u) := Prod.ext rfl (not_not.mp hu)
    have hsame : SameUsed v d (update d u fun _ => u) := by
      intro y hy
      refine update_of_ne ?_ _ _
      rintro rfl
      exact (h.books.allocBlock_ok halloc).unused hy
    refine (h.same hsame).not_setSound ?_ halloc (fun e => ?_) hn x (hsound _ hsame)
    · rw [h.missingBlocks_same hsame]
      exact hmissing
    · rw [update_self]
  · refine (h.same hsame).setSound hb ?_
    rw [h.missingBlocks_same hsame, nextBlocks_eq_nil hnone]
    exact fun u hu => absurd hu not_mem_nil

/-- A volume of one group of eight blocks, of which the first is in use. -/
def freshVolume : Volume where
  superblock := ⟨8, 0, 8, 8⟩
  group := fun _ => ⟨fun i => i == 0, fun _ => false, 7, 8⟩
  inode := fun _ => ⟨.regular, 1, 0, fun _ => 0⟩

/-- A file without blocks. -/
def emptyFile : DiskInode := ⟨.regular, 1, 0, fun _ => 0⟩

omit [NeZero n] in
theorem indexed_emptyFile (d : Disk n) : Indexed freshVolume d emptyFile.blocks := by
  refine ⟨⟨by decide, by decide, by decide, fun g _ => ?_, fun g _ => ?_, rfl⟩,
    fun k path _ hne => ?_, fun k path k' path' _ _ _ hne => ?_⟩
  · change 7 = clearBits (fun i => i == 0) 8
    decide
  · change 8 = clearBits (fun _ => false) 8
    decide
  · exact absurd (walk_zero path) hne
  · exact absurd (walk_zero path) hne

/-- The first block below an index block, on a device of zeros, and a block that needs no index
block, on every device. -/
theorem set_sound_emptyFile : SetSound freshVolume (fun _ _ => 0 : Disk 1024) emptyFile 12 5 ∧
    ∀ d', SameUsed freshVolume (fun _ _ => 0 : Disk 1024) d' →
      SetSound freshVolume d' emptyFile 11 5 := by
  refine ⟨(set_sound_iff (by decide) (indexed_emptyFile _) (by decide) 5).1 fun u _ e => rfl, ?_⟩
  exact (set_sound_iff (by decide) (indexed_emptyFile _) (by decide) 5).2.mpr (.inl rfl)

/-- **A block appears**: the device holds a 7 in every word. Setting block 12 of a file without
blocks returns 0, and block 13, which the file did not have, is block 7 of the device. -/
theorem set_stale : Indexed freshVolume (fun _ _ => 7 : Disk 1024) emptyFile.blocks ∧
    (∃ v' d' eno', inodeSetBlock freshVolume (fun _ _ => 7 : Disk 1024) emptyFile 12 5 =
        ((v', d'), .ok eno') ∧
      inodeGetBlock d' eno' 13 = 7) ∧
    inodeGetBlock (fun _ _ => 7 : Disk 1024) emptyFile 13 = 0 ∧
    ¬ SetSound freshVolume (fun _ _ => 7 : Disk 1024) emptyFile 12 5 := by
  obtain ⟨v', d', eno', hrun, hget⟩ :
      ∃ v' d' eno', inodeSetBlock freshVolume (fun _ _ => 7 : Disk 1024) emptyFile 12 5 =
        ((v', d'), .ok eno') ∧ inodeGetBlock d' eno' 13 = 7 := ⟨_, _, _, rfl, by decide +kernel⟩
  have hold : inodeGetBlock (fun _ _ => 7 : Disk 1024) emptyFile 13 = 0 := rfl
  refine ⟨indexed_emptyFile _, ⟨v', d', eno', hrun, hget⟩, hold, fun hsound => ?_⟩
  have hsame := (hsound v' d' eno' hrun).2 13 (by decide) (by decide)
  rw [hget, hold] at hsame
  cases hsame

end Set

end SeaKernel.Ext2.Indirect
