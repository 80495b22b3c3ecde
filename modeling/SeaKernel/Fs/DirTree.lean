import SeaKernel.Fs.Unlink

/-!
# Trees of directories, and the way up

Every file system is a tree of directories, each of which has an entry for itself and one for its
parent; in the root that is the root. A file system that is mounted on a directory is met in its
place. `dirent_get_inode` crosses from the directory to the root of the mounted file system on the
way down, and from that root to the directory it is mounted on on the way up.

But it goes up from a root whenever `..` leads there. If that is from a directory below the root
then the root itself is passed over, and if it is from the root itself then `..` ends at the
directory that the file system is mounted on, one step before the parent.

## Main results

* `GlobalRoot.ascend_eq_iff`: where the way up leads
* `parent_law_iff`: when `..` leads back
-/

namespace SeaKernel.Vfs.State

open List Option

/-- The file system that is mounted on an inode. -/
def mounted (σ : State) (id : InodeId) : Option ℕ := (σ.inode id).bind Inode.mount

/-- The root of a file system. -/
def fsRoot (σ : State) (fsid : ℕ) : InodeId := ⟨fsid, σ.rootid fsid⟩

/-- A directory has the name in another one of its file system, and is not one of the two entries
for the way up. -/
structure Child (σ : State) (parent : InodeId) (name : Name) (node : InodeId) : Prop where
  ne_dot : name ≠ dot
  ne_dotdot : name ≠ dotdot
  fsid_eq : node.fsid = parent.fsid
  entry : σ.entry parent name = some node.inoid

/-- **The directories of every file system are a tree**, and file systems are mounted on
directories. A file system may be mounted at several places. Its `up_mount` is the last place where
that was tried: something is mounted there, and not always this file system. -/
structure DirTree (σ : State) : Prop where
  entries : ∀ node name inoid, σ.entry node name = some inoid →
    σ.isDir node = true ∧ (σ.inode ⟨node.fsid, inoid⟩).isSome
  self : ∀ node, σ.isDir node = true → σ.entry node dot = some node.inoid
  up : ∀ parent name node, σ.Child parent name node → σ.isDir node = true →
    σ.entry node dotdot = some parent.inoid
  root : ∀ fsid, σ.isDir (σ.fsRoot fsid) = true →
    σ.entry (σ.fsRoot fsid) dotdot = some (σ.rootid fsid)
  parent : ∀ node, σ.isDir node = true → node = σ.fsRoot node.fsid ∨
    ∃ parent name, σ.Child parent name node
  mount : ∀ node fsid, σ.mounted node = some fsid → σ.isDir node = true ∧
    σ.isDir (σ.fsRoot fsid) = true ∧ (σ.mounted (σ.upMount fsid)).isSome
  depth : ∃ depth : InodeId → ℕ,
    (∀ parent name node, σ.Child parent name node → σ.isDir node = true →
      depth parent < depth node) ∧
    ∀ node fsid, σ.mounted node = some fsid → depth node < depth (σ.fsRoot fsid)

/-- The process has the one root that is not mounted on anything. -/
structure GlobalRoot (σ : State) : Prop where
  root_eq : σ.root = σ.fsRoot σ.root.fsid
  not_mounted : ∀ node, σ.mounted node ≠ some σ.root.fsid
  mounted : ∀ fsid, fsid ≠ σ.root.fsid → σ.isDir (σ.fsRoot fsid) = true →
    ∃ node, σ.mounted node = some fsid

/-- From an inode to what is mounted there. -/
def cross (σ : State) (id : InodeId) : InodeId := (σ.mounted id).elim id σ.fsRoot

/-- What `dirent_get_inode` makes of the inode that `..` names. -/
def ascend (σ : State) (id : InodeId) : InodeId :=
  if (σ.cross id).inoid = σ.rootid (σ.cross id).fsid ∧ σ.cross id ≠ σ.root then
    σ.upMount (σ.cross id).fsid
  else σ.cross id

/-- **Where `..` ends, if it names the directory `id`**: at the `up_mount` of what is mounted there,
or of the file system that the directory is the root of, and else at the directory. -/
structure LeadsTo (σ : State) (id target : InodeId) : Prop where
  covered : ∀ fsid, σ.mounted id = some fsid → σ.upMount fsid = target
  top : σ.mounted id = none → id = σ.fsRoot id.fsid → id ≠ σ.root → σ.upMount id.fsid = target
  inside : σ.mounted id = none → (id = σ.fsRoot id.fsid → id = σ.root) → id = target

section Dirents

variable {σ : State} {id node next : InodeId} {dir : Dirent} {fsid : ℕ}

theorem eq_fsRoot_iff : id = σ.fsRoot id.fsid ↔ id.inoid = σ.rootid id.fsid := by
  cases id
  simp [fsRoot]

theorem cross_of_none (h : σ.mounted id = none) : σ.cross id = id := by rw [cross, h, Option.elim]

theorem cross_of_some (h : σ.mounted id = some fsid) : σ.cross id = σ.fsRoot fsid := by
  rw [cross, h, Option.elim]

theorem isLnk_of_isDir (h : σ.isDir id = true) : σ.isLnk id = false := by
  obtain ⟨n, hn, hmode⟩ := exists_of_isDir h
  unfold isLnk
  rw [hn, any_some]
  unfold sIsdir at hmode
  unfold sIslnk
  rw [eq_of_beq hmode]
  decide

theorem direntGetInode_eq {n : Inode} (hn : σ.inode dir.ino = some n) : σ.direntGetInode dir =
    let next := if dir.name = dotdot then σ.ascend dir.ino else σ.cross dir.ino
    if (σ.inode (σ.cross dir.ino)).isNone ∨ σ.loads next = false then none else some next := by
  have hcross : σ.direntGetInode dir =
      if (σ.inode (σ.cross dir.ino)).isNone then none
      else if dir.name = dotdot ∧ (σ.cross dir.ino).inoid = σ.rootid (σ.cross dir.ino).fsid ∧
          σ.cross dir.ino ≠ σ.root then
        if σ.loads (σ.upMount (σ.cross dir.ino).fsid) then
          some (σ.upMount (σ.cross dir.ino).fsid)
        else none
      else some (σ.cross dir.ino) := by
    unfold direntGetInode cross mounted
    rw [hn]
    cases hmount : n.mount with
    | none => simp [hmount]
    | some fsid => simp [hmount, fsRoot]
  rw [hcross]
  unfold ascend
  by_cases hnone : (σ.inode (σ.cross dir.ino)).isNone = true
  · simp [hnone]
  have hloads : σ.loads (σ.cross dir.ino) = true := by
    rw [Bool.not_eq_true, isNone_eq_false_iff] at hnone
    rw [loads, hnone, Bool.or_true]
  by_cases hup : dir.name = dotdot
  · by_cases hroot : (σ.cross dir.ino).inoid = σ.rootid (σ.cross dir.ino).fsid ∧
        σ.cross dir.ino ≠ σ.root
    · cases hfound : σ.loads (σ.upMount (σ.cross dir.ino).fsid) <;> simp [hnone, hup, hroot, hfound]
    · simp [hnone, hup, hroot, hloads]
  · simp [hnone, hup, hloads]

/-- **What an entry leads to**, in the two cases of `dirent_get_inode`. -/
theorem direntGetInode_eq_some : σ.direntGetInode dir = some next ↔
    (σ.inode dir.ino).isSome ∧ (σ.inode (σ.cross dir.ino)).isSome ∧ σ.loads next = true ∧
      next = if dir.name = dotdot then σ.ascend dir.ino else σ.cross dir.ino := by
  cases hn : σ.inode dir.ino with
  | none => simp [direntGetInode, hn]
  | some n =>
    rw [direntGetInode_eq hn]
    simp only [ite_none_left_eq_some, not_or, Bool.not_eq_true, Bool.not_eq_false,
      isNone_eq_false_iff, some.injEq, isSome_some, true_and, and_assoc]
    constructor
    · rintro ⟨hcross, hnext, rfl⟩
      exact ⟨hcross, hnext, rfl⟩
    · rintro ⟨hcross, hnext, rfl⟩
      exact ⟨hcross, hnext, rfl⟩

theorem ascend_of_some (h : σ.mounted id = some fsid) (hne : σ.fsRoot fsid ≠ σ.root) :
    σ.ascend id = σ.upMount fsid := by
  rw [ascend, cross_of_some h, if_pos ⟨rfl, hne⟩, fsRoot]

theorem ascend_of_none (h : σ.mounted id = none) (hstay : id = σ.fsRoot id.fsid → id = σ.root) :
    σ.ascend id = id := by
  rw [ascend, cross_of_none h, if_neg]
  rintro ⟨hroot, hne⟩
  exact hne (hstay (eq_fsRoot_iff.mpr hroot))

theorem ascend_root_of_none (h : σ.mounted id = none) (hroot : id = σ.fsRoot id.fsid)
    (hne : id ≠ σ.root) : σ.ascend id = σ.upMount id.fsid := by
  rw [ascend, cross_of_none h, if_pos ⟨eq_fsRoot_iff.mp hroot, hne⟩]

theorem pathResolve_dotdot (hnode : σ.isDir node = true)
    (hlookup : σ.direntLookup node dotdot = some dir) (hget : σ.direntGetInode dir = some next)
    (hnext : σ.isLnk next = false) (flags : Flags) (mode : ℕ) :
    (σ.pathResolve dotdot node flags mode).2 = .ok ⟨some dir, next, false⟩ := by
  rw [pathResolve, resolveWith_name (by decide) (by decide) (by decide), last,
    inodeLookupDirent_eq_ok.mpr ⟨hnode, hlookup⟩]
  simp only [enter, hget, hnext, Bool.false_and, Bool.false_eq_true, if_false]

end Dirents

/-! ## Going up in a tree -/

section Tree

variable {σ : State} {id node next parent target : InodeId} {dir : Dirent} {fsid : ℕ} {name : Name}

theorem GlobalRoot.fsRoot_ne (h : σ.GlobalRoot) (hmount : σ.mounted node = some fsid) :
    σ.fsRoot fsid ≠ σ.root := by
  intro heq
  refine h.not_mounted node ?_
  rw [hmount, ← heq]
  rfl

theorem GlobalRoot.exists_mounted (h : σ.GlobalRoot) (hid : σ.isDir id = true)
    (hroot : id = σ.fsRoot id.fsid) (hne : id ≠ σ.root) :
    ∃ point, σ.mounted point = some id.fsid := by
  refine h.mounted id.fsid ?_ (hroot ▸ hid)
  intro heq
  rw [heq, ← h.root_eq] at hroot
  exact hne hroot

section

variable (h : σ.DirTree)

include h

theorem DirTree.exists_up (hnode : σ.isDir node = true) :
    ∃ up, σ.direntLookup node dotdot = some ⟨node, dotdot, up⟩ ∧ σ.isDir up = true ∧
      up.fsid = node.fsid := by
  obtain hroot | ⟨parent, name, hchild⟩ := h.parent node hnode
  · refine ⟨node, ?_, hnode, rfl⟩
    have hentry : σ.entry node dotdot = some (σ.rootid node.fsid) := by
      have := h.root node.fsid (hroot ▸ hnode)
      rwa [← hroot] at this
    rw [direntLookup, hentry, map_some, ← eq_fsRoot_iff.mp hroot]
  · refine ⟨parent, ?_, (h.entries _ _ _ hchild.entry).1, hchild.fsid_eq.symm⟩
    rw [direntLookup, h.up parent name node hchild hnode, map_some, hchild.fsid_eq]

theorem DirTree.isDir_ascend (hglobal : σ.GlobalRoot) (hid : σ.isDir id = true) :
    σ.isDir (σ.ascend id) = true := by
  cases hmount : σ.mounted id with
  | some fsid =>
    obtain ⟨-, -, hup⟩ := h.mount id fsid hmount
    obtain ⟨fsid', hup⟩ := isSome_iff_exists.mp hup
    rw [ascend_of_some hmount (hglobal.fsRoot_ne hmount)]
    exact (h.mount _ _ hup).1
  | none =>
    by_cases hroot : id = σ.fsRoot id.fsid
    · by_cases hne : id = σ.root
      · rwa [ascend_of_none hmount fun _ => hne]
      · obtain ⟨point, hpoint⟩ := hglobal.exists_mounted hid hroot hne
        obtain ⟨-, -, hup⟩ := h.mount point _ hpoint
        obtain ⟨fsid', hup⟩ := isSome_iff_exists.mp hup
        rw [ascend_root_of_none hmount hroot hne]
        exact (h.mount _ _ hup).1
    · rwa [ascend_of_none hmount fun heq => absurd heq hroot]

theorem DirTree.isSome_cross (hid : σ.isDir id = true) : (σ.inode (σ.cross id)).isSome := by
  have hdir : σ.isDir (σ.cross id) = true := by
    cases hmount : σ.mounted id with
    | none => rwa [cross_of_none hmount]
    | some fsid =>
      rw [cross_of_some hmount]
      exact (h.mount id fsid hmount).2.1
  obtain ⟨n, hn, -⟩ := exists_of_isDir hdir
  rw [hn, isSome_some]

/-- **The way up ends where `dirent_get_inode` ascends to.** -/
theorem DirTree.resolve_up (hglobal : σ.GlobalRoot) (hnode : σ.isDir node = true)
    (hid : σ.isDir id = true) (hlookup : σ.direntLookup node dotdot = some ⟨node, dotdot, id⟩)
    (flags : Flags) (mode : ℕ) :
    (σ.pathResolve dotdot node flags mode).2.map Found.node = .ok (σ.ascend id) := by
  have hascend := h.isDir_ascend hglobal hid
  have hget : σ.direntGetInode ⟨node, dotdot, id⟩ = some (σ.ascend id) := by
    obtain ⟨n, hn, -⟩ := exists_of_isDir hid
    obtain ⟨m, hm, -⟩ := exists_of_isDir hascend
    refine direntGetInode_eq_some.mpr ⟨?_, h.isSome_cross hid, ?_, (if_pos rfl).symm⟩
    · rw [hn, isSome_some]
    · rw [loads, hm, isSome_some, Bool.or_true]
  rw [pathResolve_dotdot hnode hlookup hget (isLnk_of_isDir hascend)]
  rfl

end

/-- **The way up ends where `up_mount` says.** -/
theorem GlobalRoot.ascend_eq_iff (h : σ.GlobalRoot) :
    σ.ascend id = target ↔ σ.LeadsTo id target := by
  cases hmount : σ.mounted id with
  | some fsid =>
    rw [ascend_of_some hmount (h.fsRoot_ne hmount)]
    constructor
    · intro hup
      refine ⟨fun fsid' hfsid => ?_, fun hnone => ?_, fun hnone => ?_⟩
      · rwa [← some.inj (hmount.symm.trans hfsid)]
      · cases hmount.symm.trans hnone
      · cases hmount.symm.trans hnone
    · exact fun hleads => hleads.covered fsid hmount
  | none =>
    by_cases htop : id = σ.fsRoot id.fsid ∧ id ≠ σ.root
    · rw [ascend_root_of_none hmount htop.1 htop.2]
      constructor
      · intro hup
        refine ⟨fun fsid hfsid => ?_, fun _ _ _ => hup, fun _ hstay => absurd (hstay htop.1) htop.2⟩
        cases hmount.symm.trans hfsid
      · exact fun hleads => hleads.top hmount htop.1 htop.2
    · have hstay : id = σ.fsRoot id.fsid → id = σ.root :=
        fun hroot => not_not.mp fun hne => htop ⟨hroot, hne⟩
      rw [ascend_of_none hmount hstay]
      constructor
      · intro hid
        refine ⟨fun fsid hfsid => ?_, fun _ hroot hne => absurd (hstay hroot) hne, fun _ _ => hid⟩
        cases hmount.symm.trans hfsid
      · exact fun hleads => hleads.inside hmount hstay

/-- **When `..` leads back.** In a directory on which nothing is mounted `..` names its parent, and
in the root of a mounted file system it names that root. From there it leads where `up_mount` says,
and that has to be the parent. -/
theorem parent_law_iff (h : σ.DirTree) (hglobal : σ.GlobalRoot)
    (hdot : name ≠ dot) (hdotdot : name ≠ dotdot) (hslash : '/' ∉ name) (hnil : name ≠ [])
    (hlen : name.length ≤ 255) (hnames : σ.Names parent name dir node)
    (hnode : σ.isDir node = true) (flags : Flags) (mode : ℕ) :
    (σ.pathResolve dotdot node flags mode).2.map Found.node = .ok parent ↔
      σ.mounted dir.ino = none ∧ σ.LeadsTo parent parent ∨
        σ.mounted dir.ino ≠ none ∧ σ.LeadsTo node parent := by
  unfold Names at hnames
  rw [pathResolve, resolveWith_name hslash hnil hlen] at hnames
  obtain ⟨hparent, hlookup, hget⟩ := last_nofollow.mp hnames
  obtain ⟨-, hname, hentry⟩ := direntLookup_eq_some hlookup
  obtain ⟨-, -, -, hnext⟩ := direntGetInode_eq_some.mp hget
  rw [hname, if_neg hdotdot] at hnext
  have hfsid : dir.ino.fsid = parent.fsid := by
    rw [direntLookup, hentry, map_some] at hlookup
    rw [← some.inj hlookup]
  have hchild : σ.Child parent name dir.ino := ⟨hdot, hdotdot, hfsid, hentry⟩
  cases hmount : σ.mounted dir.ino with
  | none =>
    rw [cross_of_none hmount] at hnext
    subst hnext
    have hup : σ.direntLookup dir.ino dotdot = some ⟨dir.ino, dotdot, parent⟩ := by
      rw [direntLookup, h.up parent name _ hchild hnode, map_some, hfsid]
    rw [h.resolve_up hglobal hnode hparent hup, Except.ok.injEq, hglobal.ascend_eq_iff]
    simp
  | some fsid =>
    rw [cross_of_some hmount] at hnext
    subst hnext
    have hup : σ.direntLookup (σ.fsRoot fsid) dotdot =
        some ⟨σ.fsRoot fsid, dotdot, σ.fsRoot fsid⟩ := by
      rw [direntLookup, h.root fsid hnode, map_some]
      rfl
    rw [h.resolve_up hglobal hnode hnode hup, Except.ok.injEq, hglobal.ascend_eq_iff]
    simp

end Tree

/-! ## Trees that are given by tables -/

/-- File systems whose roots have the number 1, from a table of their inodes. -/
def ofTable (inodes : List (InodeId × Inode)) (upMount : ℕ → InodeId) (root : InodeId) :
    State where
  inode := tableLookup inodes
  nextId _ := (inodes.map (·.1.inoid)).sum + 1
  rootid _ := 1
  upMount := upMount
  cwd := root
  root := root
  held _ _ := false
  fresh id hid := by
    refine lookup_eq_none.mpr fun n hmem => ?_
    have hle := List.le_sum_of_mem (List.mem_map_of_mem (f := (·.1.inoid)) hmem)
    dsimp only at hle
    omega
  rootid_le _ := Nat.le_add_left ..

/-- What there is to check for each inode of a table. -/
def CheckedAt (σ : State) (inodes : List (InodeId × Inode)) (depth : InodeId → ℕ)
    (node : InodeId) (n : Inode) : Prop :=
  (∀ e ∈ n.dirents, σ.isDir node = true ∧ (σ.inode ⟨node.fsid, e.2⟩).isSome ∧
    (e.1 ≠ dot → e.1 ≠ dotdot → σ.isDir ⟨node.fsid, e.2⟩ = true →
      σ.entry ⟨node.fsid, e.2⟩ dotdot = some node.inoid ∧ depth node < depth ⟨node.fsid, e.2⟩)) ∧
  (σ.isDir node = true → σ.entry node dot = some node.inoid ∧
    (node.inoid = σ.rootid node.fsid ∧ σ.entry node dotdot = some node.inoid ∨
      node.inoid ≠ σ.rootid node.fsid ∧ ∃ x ∈ inodes, ∃ e ∈ x.2.dirents, e.1 ≠ dot ∧
        e.1 ≠ dotdot ∧ node.fsid = x.1.fsid ∧ σ.entry x.1 e.1 = some node.inoid)) ∧
  ∀ fsid ∈ n.mount.toList, σ.isDir node = true ∧ σ.isDir (σ.fsRoot fsid) = true ∧
    (σ.mounted (σ.upMount fsid)).isSome ∧ depth node < depth (σ.fsRoot fsid)

instance decidableCheckedAt (σ : State) (inodes : List (InodeId × Inode)) (depth : InodeId → ℕ)
    (node : InodeId) (n : Inode) : Decidable (σ.CheckedAt inodes depth node n) := by
  unfold CheckedAt
  infer_instance

section Tables

variable {inodes : List (InodeId × Inode)} {upMount : ℕ → InodeId} {root node : InodeId}
  {name : Name} {inoid fsid : ℕ}

variable (nodup : (inodes.map Prod.fst).Nodup)

include nodup

theorem mem_of_entry (h : (ofTable inodes upMount root).entry node name = some inoid) :
    ∃ n, (node, n) ∈ inodes ∧ (name, inoid) ∈ n.dirents := by
  obtain ⟨n, hn, hentry⟩ := bind_eq_some_iff.mp h
  exact ⟨n, (lookup_eq_some nodup).mp hn, (lookup_eq_some n.nodup).mp hentry⟩

theorem mem_of_isDir (h : (ofTable inodes upMount root).isDir node = true) :
    ∃ n, (node, n) ∈ inodes := by
  obtain ⟨n, hn, -⟩ := exists_of_isDir h
  exact ⟨n, (lookup_eq_some nodup).mp hn⟩

theorem mem_of_mounted (h : (ofTable inodes upMount root).mounted node = some fsid) :
    ∃ n, (node, n) ∈ inodes ∧ fsid ∈ n.mount.toList := by
  obtain ⟨n, hn, hmount⟩ := bind_eq_some_iff.mp h
  exact ⟨n, (lookup_eq_some nodup).mp hn, mem_toList.mpr hmount⟩

/-- **A table is a tree if each of its inodes passes the check.** -/
theorem dirTree_ofTable (depth : InodeId → ℕ)
    (h : ∀ x ∈ inodes, (ofTable inodes upMount root).CheckedAt inodes depth x.1 x.2) :
    (ofTable inodes upMount root).DirTree := by
  set σ := ofTable inodes upMount root
  have hchild : ∀ parent name node, σ.Child parent name node → σ.isDir node = true →
      σ.entry node dotdot = some parent.inoid ∧ depth parent < depth node := by
    rintro parent name ⟨nodeFs, nodeIno⟩ ⟨hdot, hdotdot, rfl, hentry⟩ hdir
    obtain ⟨n, hmem, hname⟩ := mem_of_entry nodup hentry
    exact ((h _ hmem).1 _ hname).2.2 hdot hdotdot hdir
  have hmount : ∀ node fsid, σ.mounted node = some fsid → σ.isDir node = true ∧
      σ.isDir (σ.fsRoot fsid) = true ∧ (σ.mounted (σ.upMount fsid)).isSome ∧
      depth node < depth (σ.fsRoot fsid) := by
    intro node fsid hnode
    obtain ⟨n, hmem, hfsid⟩ := mem_of_mounted nodup hnode
    exact (h _ hmem).2.2 fsid hfsid
  refine ⟨?_, ?_, fun parent name node hc hd => (hchild parent name node hc hd).1, ?_, ?_,
    fun node fsid hnode => ?_, depth,
    fun parent name node hc hd => (hchild parent name node hc hd).2,
    fun node fsid hnode => (hmount node fsid hnode).2.2.2⟩
  · intro node name inoid hentry
    obtain ⟨n, hmem, hname⟩ := mem_of_entry nodup hentry
    obtain ⟨hdir, hsome, -⟩ := (h _ hmem).1 _ hname
    exact ⟨hdir, hsome⟩
  · intro node hdir
    obtain ⟨n, hmem⟩ := mem_of_isDir nodup hdir
    exact ((h _ hmem).2.1 hdir).1
  · intro fsid hdir
    obtain ⟨n, hmem⟩ := mem_of_isDir nodup hdir
    obtain ⟨-, hup⟩ | ⟨hne, -⟩ := ((h _ hmem).2.1 hdir).2
    · exact hup
    · exact absurd rfl hne
  · intro node hdir
    obtain ⟨n, hmem⟩ := mem_of_isDir nodup hdir
    obtain ⟨hroot, -⟩ | ⟨-, x, -, e, -, hdot, hdotdot, hfsid, hentry⟩ := ((h _ hmem).2.1 hdir).2
    · exact .inl (eq_fsRoot_iff.mpr hroot)
    · exact .inr ⟨x.1, e.1, hdot, hdotdot, hfsid, hentry⟩
  · obtain ⟨hdir, hroot, hup, -⟩ := hmount node fsid hnode
    exact ⟨hdir, hroot, hup⟩

end Tables

/-- In the root are a directory `d` and a directory `m`; on that a file system is mounted that has a
directory `s`. -/
def mountedInodes : List (InodeId × Inode) :=
  [(⟨1, 1⟩, ⟨0o040755, 4, [(dot, 1), (dotdot, 1), (['m'], 2), (['d'], 3)], [], none, by decide⟩),
    (⟨1, 2⟩, ⟨0o040755, 2, [(dot, 2), (dotdot, 1)], [], some 2, by decide⟩),
    (⟨1, 3⟩, ⟨0o040755, 2, [(dot, 3), (dotdot, 1)], [], none, by decide⟩),
    (⟨2, 1⟩, ⟨0o040755, 3, [(dot, 1), (dotdot, 1), (['s'], 2)], [], none, by decide⟩),
    (⟨2, 2⟩, ⟨0o040755, 2, [(dot, 2), (dotdot, 1)], [], none, by decide⟩)]

/-- The tree of these inodes. -/
def mountedTree : State := ofTable mountedInodes (fun _ => ⟨1, 2⟩) ⟨1, 1⟩

theorem mountedTree_dirTree : mountedTree.DirTree :=
  dirTree_ofTable (by decide) (fun id => 2 * id.fsid + id.inoid) (by decide +kernel)

theorem mounted_mountedTree {node : InodeId} {fsid : ℕ} (h : mountedTree.mounted node = some fsid) :
    node = ⟨1, 2⟩ ∧ fsid = 2 := by
  have hall : ∀ x ∈ mountedInodes, ∀ fsid ∈ x.2.mount.toList, x.1 = ⟨1, 2⟩ ∧ fsid = 2 := by decide
  obtain ⟨n, hmem, hfsid⟩ := mem_of_mounted (by decide) h
  exact hall _ hmem fsid hfsid

theorem mountedTree_globalRoot : mountedTree.GlobalRoot := by
  refine ⟨rfl, fun node hnode => ?_, fun fsid hfsid hroot => ⟨⟨1, 2⟩, ?_⟩⟩
  · exact absurd (mounted_mountedTree hnode).2 (by decide)
  · have hall : ∀ x ∈ mountedInodes, x.1.fsid = 1 ∨ x.1.fsid = 2 := by decide
    obtain ⟨n, hmem⟩ := mem_of_isDir (by decide) hroot
    obtain heq | rfl := hall _ hmem
    · exact absurd heq hfsid
    · rfl

theorem parent_of_plain_directory :
    mountedTree.Names ⟨1, 1⟩ ['d'] ⟨⟨1, 1⟩, ['d'], ⟨1, 3⟩⟩ ⟨1, 3⟩ ∧
      (mountedTree.pathResolve dotdot ⟨1, 3⟩ ⟨false, false⟩ 0).2.map Found.node = .ok ⟨1, 1⟩ := by
  have hnames : mountedTree.Names ⟨1, 1⟩ ['d'] ⟨⟨1, 1⟩, ['d'], ⟨1, 3⟩⟩ ⟨1, 3⟩ := ⟨false, rfl⟩
  have hleads : mountedTree.LeadsTo ⟨1, 1⟩ ⟨1, 1⟩ :=
    ⟨fun _ hmount => by (cases hmount), fun _ _ hne => absurd rfl hne, fun _ _ => rfl⟩
  exact ⟨hnames, (parent_law_iff mountedTree_dirTree mountedTree_globalRoot (by decide) (by decide)
    (by decide) (by decide) (by decide) hnames rfl _ _).mpr (.inl ⟨rfl, hleads⟩)⟩

/-- From the root of what is mounted on `m` the way up leads to `m`, and from the directory `s` in
it it leads to `m` as well. -/
theorem parents_across_mount :
    mountedTree.DirTree ∧ mountedTree.GlobalRoot ∧
      mountedTree.Names ⟨1, 1⟩ ['m'] ⟨⟨1, 1⟩, ['m'], ⟨1, 2⟩⟩ ⟨2, 1⟩ ∧
      (mountedTree.pathResolve dotdot ⟨2, 1⟩ ⟨false, false⟩ 0).2.map Found.node = .ok ⟨1, 2⟩ ∧
      mountedTree.Names ⟨2, 1⟩ ['s'] ⟨⟨2, 1⟩, ['s'], ⟨2, 2⟩⟩ ⟨2, 2⟩ ∧
      (mountedTree.pathResolve dotdot ⟨2, 2⟩ ⟨false, false⟩ 0).2.map Found.node = .ok ⟨1, 2⟩ :=
  ⟨mountedTree_dirTree, mountedTree_globalRoot, ⟨false, rfl⟩, rfl, ⟨false, rfl⟩, rfl⟩

end SeaKernel.Vfs.State
