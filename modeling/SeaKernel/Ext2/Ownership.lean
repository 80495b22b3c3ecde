import SeaKernel.Ext2.BlockMap
import SeaKernel.Lib.Run

/-!
# Ownership of blocks

A run of the file system is audited: for every inode, the blocks that `__alloc_block` has handed
out for it since it was last created, or that were its own at the start, are recorded. The block
numbers of a file, directory or long symbolic link, and those in its indirect blocks, should be
recorded for it, and no block should be at two places.

The driver keeps this only if the device happens to hold zeros. A new inode starts with the block
numbers that are left in its entry of the inode table, which a released inode does not clear and
the text of a symbolic link overwrites; and a new indirect block starts with what was on the device.

## Main results

* `owned_of_run`: runs whose operations are clean keep the property
* `stale_inode_not_owned`: a file in the place of a released one has the blocks of that one
-/

namespace SeaKernel.Ext2

open Volume Function List Option FileSystem Indirect

/-- The block numbers of the inodes that have some. -/
def FileSystem.root (fs : FileSystem) (r : Root) : ℕ :=
  if (fs.node r.1).any Node.holdsBlocks then (fs.vol.inode r.1).blocks r.2 else 0

/-- The blocks that can be reached from an inode, directly or through indirect blocks. -/
def FileSystem.reachable (fs : FileSystem) (ino : ℕ) : Set ℕ :=
  {b | ∃ k path, path.length ≤ level k ∧ walk fs.disk (fs.root (ino, k)) path = b}

/-- A file system, with the blocks recorded for its inodes. -/
structure Audit where
  fs : FileSystem
  owned : ℕ → Set ℕ

/-- The record after an operation: a new inode has no blocks, and a block handed out while a page
is written belongs to the inode of the page. -/
def record (owned : ℕ → Set ℕ) (fs fs' : FileSystem) : Event → ℕ → Set ℕ
  | .create mode =>
    match (fs.createLast mode).2 with
    | .ok ino => update owned ino ∅
    | .error _ => owned
  | .symlink text =>
    match (fs.symlink text).2 with
    | .ok ino => update owned ino ∅
    | .error _ => owned
  | .writePage ino _ _ =>
    update owned ino (owned ino ∪ {b | fs'.vol.Used b ∧ ¬fs.vol.Used b})
  | .resize _ _ => owned
  | .link _ => owned
  | .unlink _ => owned
  | .update _ => owned
  | .release _ => owned

namespace Audit

/-- The audit of a file system at the start. -/
def start (fs : FileSystem) : Audit := ⟨fs, fs.reachable⟩

/-- One operation. -/
def exec (a : Audit) (e : Event) : Option Audit :=
  (a.fs.exec e).map fun fs' => ⟨fs', record a.owned a.fs fs' e⟩

/-- Every block that can be reached from an inode is recorded for it, and is at one place. -/
def Owned (a : Audit) : Prop :=
  OwnedForest a.fs.disk a.fs.root depth fun r => a.owned r.1

end Audit

/-- A consistent file system: the bitmaps agree with their counts, existing inodes and the blocks
that can be reached from them are marked, and no block is at two places. -/
structure Consistent (fs : FileSystem) : Prop where
  books : Books fs.vol
  live : ∀ ino node, fs.node ino = some node → 0 < ino ∧ fs.vol.InodeUsed ino
  forest : OwnedForest fs.disk fs.root depth fun _ => {b | fs.vol.Used b}

/-- The inode that `_alloc_inode` hands out has no block numbers left in the inode table. -/
def EmptySlot (v : Volume) : Prop :=
  match v.allocInode.2 with
  | .ok ino => ∀ k, (v.inode ino).blocks k = 0
  | .error _ => True

instance (v : Volume) : Decidable (EmptySlot v) := by
  unfold EmptySlot
  split <;> infer_instance

instance {n : ℕ} (d : Disk n) (bs : List ℕ) : Decidable (Zeroed d bs) :=
  inferInstanceAs (Decidable (∀ b ∈ bs, ∀ e, d b e = 0))

/-- The operations after which the record is right: an inode that is to have blocks starts without,
and the blocks handed out for indirect blocks hold zeros. The first block handed out for a page is
the one of the page itself. -/
def Event.Clean (fs : FileSystem) : Event → Prop
  | .create mode => mode = .regular ∨ mode = .directory → EmptySlot fs.vol
  | .symlink text => 60 ≤ text.length → EmptySlot fs.vol
  | .writePage ino pagenr _ =>
    let eno := fs.vol.inode ino
    pagenr < 12 + 1024 + 1024 ^ 2 + 1024 ^ 3 ∧
      (inodeGetBlock fs.disk eno pagenr = 0 →
        Zeroed fs.disk (nextBlocks (missingBlocks fs.disk eno pagenr + 1) fs.vol).tail)
  | .resize _ _ => True
  | .link _ => True
  | .unlink _ => True
  | .update _ => True
  | .release _ => True

instance (fs : FileSystem) : ∀ e : Event, Decidable (e.Clean fs)
  | .create mode =>
    inferInstanceAs (Decidable (mode = .regular ∨ mode = .directory → EmptySlot fs.vol))
  | .symlink text => inferInstanceAs (Decidable (60 ≤ text.length → EmptySlot fs.vol))
  | .writePage ino pagenr _ =>
    inferInstanceAs (Decidable (pagenr < _ ∧
      (inodeGetBlock fs.disk (fs.vol.inode ino) pagenr = 0 → Zeroed fs.disk _)))
  | .resize _ _ => isTrue trivial
  | .link _ => isTrue trivial
  | .unlink _ => isTrue trivial
  | .update _ => isTrue trivial
  | .release _ => isTrue trivial

/-! ## The invariant -/

/-- What clean operations keep: the file system is consistent, and its blocks are recorded. -/
structure Audited (a : Audit) : Prop where
  books : Books a.fs.vol
  live : ∀ ino node, a.fs.node ino = some node → 0 < ino ∧ a.fs.vol.InodeUsed ino
  forest : OwnedForest a.fs.disk a.fs.root depth
    fun r => {b | a.fs.vol.Used b ∧ b ∈ a.owned r.1}

theorem Audited.owned {a : Audit} (h : Audited a) : a.Owned :=
  h.forest.of_agree (fun _ _ _ _ => rfl) fun _ _ hb => hb.2

theorem Consistent.audited {fs : FileSystem} (h : Consistent fs) : Audited (Audit.start fs) := by
  refine ⟨h.books, h.live, fun r path hpath hne => ?_, h.forest.once⟩
  exact ⟨h.forest.owned r path hpath hne, r.2, path, hpath, rfl⟩

variable {a : Audit} {ino : ℕ} {node : Node}

theorem root_of_holdsBlocks (fs : FileSystem) (hnode : fs.node ino = some node)
    (hholds : node.holdsBlocks = true) (k : Fin 15) :
    fs.root (ino, k) = (fs.vol.inode ino).blocks k := by
  rw [root, hnode, any_some, if_pos hholds]

theorem Audited.of_roots (h : Audited a) {fs' : FileSystem} {owned' : ℕ → Set ℕ}
    (hbooks : Books fs'.vol)
    (hlive : ∀ ino node, fs'.node ino = some node → 0 < ino ∧ fs'.vol.InodeUsed ino)
    (hdisk : fs'.disk = a.fs.disk) (hused : ∀ b, fs'.vol.Used b ↔ a.fs.vol.Used b)
    (hroot : ∀ r, fs'.root r = a.fs.root r ∨ fs'.root r = 0)
    (howned : ∀ r, a.fs.root r ≠ 0 → a.owned r.1 ⊆ owned' r.1) : Audited ⟨fs', owned'⟩ := by
  refine ⟨hbooks, hlive, ?_⟩
  have hforest := h.forest.prune (fun r => {b | fs'.vol.Used b ∧ b ∈ owned' r.1}) hroot
    fun r _ h0 b hb => ⟨(hused b).mpr hb.1, howned r h0 hb.2⟩
  exact hdisk ▸ hforest

/-! ## Pages -/

variable {v v' : Volume}

theorem OwnedForest.write_page {d : Disk 1024} {root : Root → ℕ} {own : Root → Set ℕ}
    {eno : DiskInode} (h : OwnedForest d root depth own) (hroot : ∀ k, root (ino, k) = eno.blocks k)
    {pagenr : ℕ} (hne : inodeGetBlock d eno pagenr ≠ 0) (page : Fin 1024 → ℕ) :
    OwnedForest (update d (inodeGetBlock d eno pagenr) page) root depth own := by
  rw [inodeGetBlock_eq_walk, ← hroot] at hne ⊢
  exact h.write_leaf (length_place pagenr) hne page

theorem claims_subset_record {owned : ℕ → Set ℕ} (r : Root) :
    claims v owned ino v' r ⊆ {b | v'.Used b ∧ b ∈
      update owned ino (owned ino ∪ {b | v'.Used b ∧ ¬v.Used b}) r.1} := by
  rintro b ⟨hused, hb⟩
  refine ⟨hused, ?_⟩
  by_cases hr : r.1 = ino
  · rw [hr, update_self]
    rcases hb with hb | ⟨-, hb⟩
    · exact Or.inl (hr ▸ hb)
    · exact Or.inr ⟨hused, hb⟩
  · rw [update_of_ne hr]
    exact hb.resolve_right fun h => hr h.1

theorem Audited.placing (h : Audited a) (hnode : a.fs.node ino = some node)
    (hholds : node.holdsBlocks = true) {b : ℕ} (hb : Allocated a.fs.vol v b) :
    Placing a.fs.vol a.owned ino b v a.fs.disk a.fs.root (a.fs.vol.inode ino) := by
  refine
    ⟨hb.books, ?_, root_of_holdsBlocks _ hnode hholds, hb.ne_zero, (hb.used b).mpr (Or.inr rfl),
    hb.unused, fun x hx => (hb.used x).mpr (Or.inl hx)⟩
  refine h.forest.of_agree (fun _ _ _ _ => rfl) fun r x hx => ⟨⟨?_, Or.inl hx.2⟩, ?_⟩
  · exact (hb.used x).mpr (Or.inl hx.1)
  · exact fun hxb => hb.unused (hxb ▸ hx.1)

theorem Audited.of_claims (h : Audited a) {v : Volume} {d : Disk 1024} {root : Root → ℕ}
    (hbooks : Books v)
    (hlive : ∀ x, v.InodeUsed x ↔ a.fs.vol.InodeUsed x)
    (hforest : OwnedForest d root depth (claims a.fs.vol a.owned ino v))
    (hroot : ∀ r, (FileSystem.root { a.fs with vol := v, disk := d }) r = root r ∨
      (FileSystem.root { a.fs with vol := v, disk := d }) r = 0) :
    Audited ⟨{ a.fs with vol := v, disk := d }, update a.owned ino
      (a.owned ino ∪ {b | v.Used b ∧ ¬a.fs.vol.Used b})⟩ := by
  refine ⟨hbooks, fun x n hn => ?_, hforest.prune _ hroot fun r _ _ => claims_subset_record r⟩
  obtain ⟨hpos, hused⟩ := h.live x n hn
  exact ⟨hpos, (hlive x).mpr hused⟩

theorem root_inodeWrite {fs : FileSystem} {root' : Root → ℕ} {eno : DiskInode} {direct : Fin 15}
    (hnode : fs.node ino = some node) (hholds : node.holdsBlocks = true)
    {d' : Disk 1024} (hv : v.inode = fs.vol.inode) (hv' : v'.inode = update v.inode ino eno)
    (hroots : RootsKept (ino, direct) fs.root root') (hinode : ∀ k, root' (ino, k) = eno.blocks k)
    (r : Root) : (FileSystem.root { fs with vol := v', disk := d' }) r = root' r := by
  by_cases hr : r.1 = ino
  · obtain ⟨x, k⟩ := r
    obtain rfl : x = ino := hr
    rw [root_of_holdsBlocks { fs with vol := v', disk := d' } hnode hholds, hinode]
    simp only [hv', update_self]
  · have hroot := hroots.1 r fun h0 => hr (congrArg Prod.fst h0)
    rw [hroot, root, root]
    simp only [hv', update_of_ne hr, hv]

theorem Audited.writePage (h : Audited a) (hnode : a.fs.node ino = some node)
    (hholds : node.holdsBlocks = true) {pagenr : ℕ} {page : Fin 1024 → ℕ}
    (hclean : inodeGetBlock a.fs.disk (a.fs.vol.inode ino) pagenr = 0 → Zeroed a.fs.disk
      (nextBlocks (missingBlocks a.fs.disk (a.fs.vol.inode ino) pagenr + 1) a.fs.vol).tail)
    {v' : Volume} {d' : Disk 1024}
    (hrun : (Indirect.writePage a.fs.vol a.fs.disk ino pagenr page).1 = (v', d')) :
    Audited ⟨{ a.fs with vol := v', disk := d' }, update a.owned ino
      (a.owned ino ∪ {b | v'.Used b ∧ ¬a.fs.vol.Used b})⟩ := by
  have hroot := root_of_holdsBlocks a.fs hnode hholds
  have hclaims : OwnedForest a.fs.disk a.fs.root depth
      (claims a.fs.vol a.owned ino a.fs.vol) :=
    h.forest.of_agree (fun _ _ _ _ => rfl) fun r x hx => ⟨hx.1, Or.inl hx.2⟩
  have hpage : pagenr * 1024 / 1024 = pagenr := Nat.mul_div_cancel pagenr (by decide)
  rw [Indirect.writePage, hpage] at hrun
  by_cases hblock : inodeGetBlock a.fs.disk (a.fs.vol.inode ino) pagenr = 0
  · rcases h.books.allocBlock with ⟨b, v₁, halloc, hb⟩ | halloc
    · have hzero := hclean hblock
      rw [nextBlocks_succ halloc, tail_cons] at hzero
      obtain ⟨v₂, d₂, root', hkept, hresult⟩ :=
        (h.placing hnode hholds hb).inodeSetBlock pagenr hblock hzero
      have hsame := hb.sameInodes.trans hkept.sameInodes
      rcases hresult with ⟨eno', hset, hinode, hget⟩ | hset
      · -- the block is in its place, and so is the page
        have hforest := OwnedForest.write_page hkept.forest hinode (hget.symm ▸ hb.ne_zero) page
        rw [hget] at hforest
        simp only [if_pos hblock, halloc, hset, if_true] at hrun
        obtain ⟨rfl, rfl⟩ := Prod.mk.inj hrun
        exact h.of_claims (books_inodeWrite.mpr hkept.books)
          (fun x => hsame.inodeUsed x) hforest fun r => Or.inl
            (root_inodeWrite hnode hholds hsame.inode rfl hkept.roots hinode r)
      · -- the inode on the device is as before
        simp only [if_pos hblock, halloc, hset] at hrun
        obtain ⟨rfl, rfl⟩ := Prod.mk.inj hrun
        refine h.of_claims hkept.books (fun x => hsame.inodeUsed x) hkept.forest fun r => ?_
        have hr : (root { a.fs with vol := v₂, disk := d₂ }) r = a.fs.root r := by
          rw [root, root, hsame.inode]
        rw [hr]
        by_cases hr₀ : r = (ino, (getIndirection 1024 pagenr).2.1)
        · subst hr₀
          by_cases h0 : a.fs.root (ino, (getIndirection 1024 pagenr).2.1) = 0
          · exact Or.inr h0
          · exact Or.inl (hkept.roots.2 h0).symm
        · exact Or.inl (hkept.roots.1 r hr₀).symm
    · simp only [if_pos hblock, halloc] at hrun
      obtain ⟨rfl, rfl⟩ := Prod.mk.inj hrun
      exact h.of_claims h.books (fun _ => Iff.rfl) hclaims fun r => Or.inl rfl
  · simp only [if_neg hblock, if_true] at hrun
    obtain ⟨rfl, rfl⟩ := Prod.mk.inj hrun
    exact h.of_claims h.books (fun _ => Iff.rfl)
      (OwnedForest.write_page hclaims hroot hblock page) fun r => Or.inl rfl

/-! ## Inodes -/

section

variable (h : Audited a)

include h

theorem Audited.node_eq_none (hino : InodeAllocated a.fs.vol v ino) : a.fs.node ino = none := by
  by_contra hsome
  obtain ⟨n, hn⟩ := ne_none_iff_exists'.mp hsome
  exact hino.unused (h.live ino n hn).2

theorem Audited.add_inode {n : Node} (hpos : 0 < ino) (hino : InodeAllocated a.fs.vol v ino)
    (hbooks : Books v') (hgroup : v'.group = v.group)
    (hsb : v'.superblock = v.superblock) (hinode : ∀ x, x ≠ ino → v'.inode x = v.inode x)
    (hempty : n.holdsBlocks = true → ∀ k, (v'.inode ino).blocks k = 0) :
    Audited ⟨⟨v', a.fs.disk, update a.fs.node ino (some n)⟩, update a.owned ino ∅⟩ := by
  have hused : ∀ b, v'.Used b ↔ a.fs.vol.Used b := fun b => by
    rw [Used, hgroup, hsb]
    exact hino.sameBlocks.used b
  have hroot₀ : ∀ k, a.fs.root (ino, k) = 0 := fun k => by
    rw [root, h.node_eq_none hino]
    rfl
  refine h.of_roots hbooks (fun x m hx => ?_) rfl hused (fun r => ?_) fun r hr => ?_
  · have hmarked : ∀ x, 0 < x → (v'.InodeUsed x ↔ a.fs.vol.InodeUsed x ∨ x = ino) := by
      intro x hx
      rw [InodeUsed, hgroup, hsb]
      exact hino.used x hx
    by_cases hxi : x = ino
    · subst hxi
      exact ⟨hpos, (hmarked x hpos).mpr (Or.inr rfl)⟩
    · simp only [update_of_ne hxi] at hx
      obtain ⟨hpos', hx⟩ := h.live x m hx
      exact ⟨hpos', (hmarked x hpos').mpr (Or.inl hx)⟩
  · by_cases hr : r.1 = ino
    · right
      rw [root]
      simp only [hr, update_self, any_some]
      split
      · next hholds => exact hempty hholds r.2
      · rfl
    · left
      rw [root, root]
      simp only [update_of_ne hr, hinode r.1 hr, hino.sameBlocks.inode]
  · rw [update_of_ne]
    exact fun h0 => hr ((congrArg (fun x => a.fs.root (x, r.2)) h0).trans (hroot₀ r.2))

theorem Audited.create {mode : FileType} (hclean : (Event.create mode).Clean a.fs) :
    Audited ⟨(a.fs.createLast mode).1, record a.owned a.fs (a.fs.createLast mode).1
      (.create mode)⟩ := by
  rcases h.books.allocInode with ⟨ino, v, halloc, hino⟩ | halloc
  · have hcreate : a.fs.createLast mode = (⟨v, a.fs.disk, update a.fs.node ino
        (some ⟨mode, (v.inode ino).linkCount, 0⟩)⟩, .ok ino) := by
      rw [createLast, halloc]
    simp only [record, hcreate]
    refine h.add_inode (hino.pos) hino hino.books rfl rfl (fun _ _ => rfl) fun hholds k => ?_
    have hempty : EmptySlot a.fs.vol := hclean (by cases mode <;> simp_all [Node.holdsBlocks])
    rw [EmptySlot, halloc] at hempty
    rw [hino.sameBlocks.inode]
    exact hempty k
  · have hcreate : a.fs.createLast mode = (a.fs, .error .enospc) := by
      rw [createLast, halloc]
    simp only [record, hcreate]
    exact h

theorem Audited.symlink {text : List ℕ} (hclean : (Event.symlink text).Clean a.fs) :
    Audited ⟨(a.fs.symlink text).1, record a.owned a.fs (a.fs.symlink text).1 (.symlink text)⟩ := by
  rcases h.books.allocInode with ⟨ino, v, halloc, hino⟩ | halloc
  · have hlink : a.fs.symlink text = (⟨v.writelink ino text, a.fs.disk, update a.fs.node ino
        (some ⟨.symlink, (v.inode ino).linkCount, text.length⟩)⟩, .ok ino) := by
      rw [FileSystem.symlink, FileSystem.createLast, halloc]
      simp only [update_self, map_some, update_idem]
    simp only [record, hlink]
    refine h.add_inode hino.pos hino (books_inodeWrite.mpr hino.books) rfl rfl
      (fun x hx => update_of_ne hx _ _) fun hholds k => ?_
    have hlong : 60 ≤ text.length := by simpa [Node.holdsBlocks] using hholds
    simp only [writelink, inodeWrite, update_self, if_neg (by omega : ¬text.length < 60)]
    have hempty : EmptySlot a.fs.vol := hclean hlong
    rw [EmptySlot, halloc] at hempty
    rw [hino.sameBlocks.inode]
    exact hempty k
  · have hlink : a.fs.symlink text = (a.fs, .error .enospc) := by
      rw [FileSystem.symlink, FileSystem.createLast, halloc]
    simp only [record, hlink]
    exact h

omit h in
theorem holdsBlocks_links (node : Node) (links : ℕ) :
    ({ node with links := links } : Node).holdsBlocks = node.holdsBlocks := rfl

theorem Audited.set_node {n : Node} (hnode : a.fs.node ino = some node)
    (hholds : n.holdsBlocks = node.holdsBlocks) :
    Audited ⟨{ a.fs with node := update a.fs.node ino (some n) }, a.owned⟩ := by
  refine h.of_roots h.books (fun x m hx => ?_) rfl (fun _ => Iff.rfl) (fun r => Or.inl ?_)
    fun _ _ => subset_rfl
  · by_cases hxi : x = ino
    · exact hxi ▸ h.live ino node hnode
    · exact h.live x m (by simpa only [update_of_ne hxi] using hx)
  · rw [root, root]
    by_cases hr : r.1 = ino
    · simp only [hr, update_self, hnode, any_some, hholds]
    · simp only [update_of_ne hr]

theorem Audited.update (ino : ℕ) (n : Node) :
    Audited ⟨{ a.fs with vol := a.fs.vol.updateInode ino n }, a.owned⟩ := by
  refine h.of_roots (books_inodeWrite.mpr h.books) h.live rfl (fun _ => Iff.rfl)
    (fun r => Or.inl ?_) fun _ _ => subset_rfl
  rw [root, root]
  by_cases hr : r.1 = ino
  · simp only [updateInode, inodeWrite, hr, update_self]
  · simp only [updateInode, inodeWrite, update_of_ne hr]

theorem Audited.release (hnode : a.fs.node ino = some node) :
    Audited ⟨⟨a.fs.vol.releaseInode ino, a.fs.disk, Function.update a.fs.node ino none⟩,
      a.owned⟩ := by
  obtain ⟨hpos, hused⟩ := h.live ino node hnode
  obtain ⟨hbooks, hsame, hothers⟩ := h.books.releaseInode hused
  refine h.of_roots hbooks (fun x m hx => ?_) rfl hsame.used (fun r => ?_)
    fun _ _ => subset_rfl
  · by_cases hxi : x = ino
    · simp only [hxi, update_self] at hx
      cases hx
    · simp only [update_of_ne hxi] at hx
      obtain ⟨hposx, hxused⟩ := h.live x m hx
      exact ⟨hposx, hothers x hxi hposx hpos hxused⟩
  · by_cases hr : r.1 = ino
    · right
      simp only [root, hr, update_self, any_none]
      rfl
    · left
      simp only [root, update_of_ne hr, hsame.inode]

end

/-! ## Runs -/

/-- **The step lemma**: clean operations keep the record right. -/
theorem Audited.exec (h : Audited a) {e : Event} {a' : Audit} (hclean : e.Clean a.fs)
    (hexec : a.exec e = some a') : Audited a' := by
  obtain ⟨fs', hfs', rfl⟩ := map_eq_some_iff.mp hexec
  cases e with
  | create mode =>
    obtain rfl := some.inj hfs'
    exact h.create hclean
  | symlink text =>
    obtain rfl := some.inj hfs'
    exact h.symlink hclean
  | writePage ino pagenr page =>
    obtain ⟨node, hnode, hfs'⟩ := bind_eq_some_iff.mp hfs'
    split at hfs'
    · next hholds =>
      obtain rfl := some.inj hfs'
      exact h.writePage hnode hholds hclean.2 rfl
    · cases hfs'
  | resize ino length =>
    obtain ⟨node, hnode, hfs'⟩ := bind_eq_some_iff.mp hfs'
    split at hfs'
    · cases hfs'
    · next hmode =>
      obtain rfl := some.inj hfs'
      refine h.set_node hnode ?_
      obtain ⟨mode, links, length⟩ := node
      cases mode <;> first | rfl | exact absurd rfl hmode
  | link ino =>
    obtain ⟨node, hnode, hfs'⟩ := bind_eq_some_iff.mp hfs'
    obtain rfl := some.inj hfs'
    exact h.set_node hnode (holdsBlocks_links node _)
  | unlink ino =>
    obtain ⟨node, hnode, hfs'⟩ := bind_eq_some_iff.mp hfs'
    obtain rfl := some.inj hfs'
    exact h.set_node hnode (holdsBlocks_links node _)
  | update ino =>
    obtain ⟨node, hnode, hfs'⟩ := bind_eq_some_iff.mp hfs'
    obtain rfl := some.inj hfs'
    exact h.update ino node
  | release ino =>
    obtain ⟨node, hnode, hfs'⟩ := bind_eq_some_iff.mp hfs'
    split at hfs'
    · obtain rfl := some.inj hfs'
      exact h.release hnode
    · cases hfs'

/-- **In every run of clean operations on a consistent file system**, every block that can be
reached from an inode has been handed out for it since it was created, or was its own at the start,
and no block is at two places. -/
theorem owned_of_run {fs : FileSystem} {run : List (Event × Audit)} (h : Consistent fs)
    (hrun : Along (fun a e a' => a.exec e = some a') (Audit.start fs) run)
    (hclean : Along (fun a e _ => e.Clean a.fs) (Audit.start fs) run) :
    After Audit.Owned (Audit.start fs) run :=
  (hrun.after (fun _ _ _ hI hexec hc => hI.exec hc hexec) h.audited hclean).mono
    fun _ hI => hI.owned

/-- A file system of one group that has no files yet. The blocks below 4 hold its tables. -/
def blank : FileSystem where
  vol :=
    { superblock := ⟨64, 0, 64, 8⟩
      group := fun _ => ⟨fun i => i < 4, fun _ => false, 60, 8⟩
      inode := fun _ => ⟨.special, 0, 0, fun _ => 0⟩ }
  disk _ _ := 0
  node _ := none

theorem blank_consistent : Consistent blank := by
  have hroot : ∀ r path, walk blank.disk (blank.root r) path = 0 :=
    fun r path => walk_zero path
  refine ⟨⟨by decide, by decide, by decide, fun g _ => ?_, fun g _ => ?_, rfl⟩,
    fun _ n h => absurd h.symm (some_ne_none n),
    fun r path _ hne => absurd (hroot r path) hne,
    fun r path _ _ _ _ _ hne => absurd (hroot r path) hne⟩
  · change 60 = clearBits (fun i => i < 4) 64
    decide +kernel
  · change 8 = clearBits (fun _ => false) 8
    decide +kernel

theorem new_file_owned :
    ∃ run, run.map Prod.fst = [.create .regular, .link 1, .writePage 1 0 fun _ => 7,
        .writePage 1 12 fun _ => 8, .update 1] ∧
      Along (fun a e a' => a.exec e = some a') (Audit.start blank) run ∧
      After Audit.Owned (Audit.start blank) run := by
  refine (exists_run Audit.exec (fun a e => e.Clean a.fs) (fun _ => True) (Audit.start blank) _
    (by decide +kernel)).imp fun run ⟨hevents, hrun, _⟩ => ⟨hevents, ?_⟩
  have hsteps := hrun.mono fun _ _ _ => And.right
  exact ⟨hsteps, owned_of_run blank_consistent hsteps (hrun.mono fun _ _ _ => And.left)⟩

theorem stale_inode_not_owned :
    ∃ run, run.map Prod.fst = [.create .regular, .link 1, .writePage 1 0 fun _ => 7, .unlink 1,
        .update 1, .release 1, .create .regular] ∧
      Along (fun a e a' => a.exec e = some a') (Audit.start blank) run ∧
      ¬ After Audit.Owned (Audit.start blank) run := by
  refine (exists_trace Audit.exec (fun _ _ => True) (fun run => run.map
      (fun x => (x.2.fs.root (1, 0), (x.2.fs.createLast .regular).2.toOption)) =
      [(0, some 2), (0, some 2), (4, some 2), (4, some 2), (4, some 2), (0, some 1), (4, some 2)])
    (Audit.start blank) _ (by decide +kernel)).imp fun run ⟨hevents, hrun, hviews⟩ =>
    ⟨hevents, hrun.mono fun _ _ _ => And.right, fun hafter => ?_⟩
  obtain ⟨x₁, run, rfl, -, hviews⟩ := map_eq_cons_iff.mp hviews
  obtain ⟨x₂, run, rfl, -, hviews⟩ := map_eq_cons_iff.mp hviews
  obtain ⟨x₃, run, rfl, -, hviews⟩ := map_eq_cons_iff.mp hviews
  obtain ⟨x₄, run, rfl, -, hviews⟩ := map_eq_cons_iff.mp hviews
  obtain ⟨x₅, run, rfl, -, hviews⟩ := map_eq_cons_iff.mp hviews
  -- the states before and after the second file is created
  obtain ⟨⟨e, a⟩, run, rfl, hbefore, hviews⟩ := map_eq_cons_iff.mp hviews
  obtain ⟨⟨e', a'⟩, run, rfl, hroot, -⟩ := map_eq_cons_iff.mp hviews
  obtain ⟨-, -, -, -, -, -, rfl, -⟩ : x₁.1 = _ ∧ x₂.1 = _ ∧ x₃.1 = _ ∧ x₄.1 = _ ∧ x₅.1 = _ ∧
      e = _ ∧ e' = _ ∧ _ := by simpa using hevents
  have hcreated : (a.fs.createLast .regular).2 = .ok 1 := by
    have := (Prod.mk.inj hbefore).2
    revert this
    cases (a.fs.createLast .regular).2 <;> simp [Except.toOption]
  obtain ⟨fs', -, rfl⟩ := map_eq_some_iff.mp hrun.2.2.2.2.2.2.1.2
  have howned := hafter.2.2.2.2.2.2.2.1.owned (1, 0) [] (Nat.zero_le _)
  rw [walk_nil, (Prod.mk.inj hroot).1] at howned
  simp [record, hcreated] at howned

end SeaKernel.Ext2
