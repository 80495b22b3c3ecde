import SeaKernel.Lib.Table

/-!
# The virtual file system

Inodes are found by the identifier of their file system and their number in it. A directory is an
inode with a table of entries, each with a name and the number of an inode of the same file system.
A file system may be mounted on an inode, and then the root of that file system is met in its place.

The cached inodes and directory entries of the kernel and those of the driver, which is `ramfs`, are
not told apart here: an entry leaves the cache when it is unlinked, and an inode is written back
before it leaves it. An inode without links is released with the last reference to it, which is the
subject of `InodePut`; here that is modelled where the reference is known to be the last one, for an
inode that was just allocated.

## Main definitions

* `Inode`, `State`: the inodes and the tables of their entries
* `State.direntLookup`, `State.direntGetInode`: an entry, and the inode that it leads to
* `State.fsLink`, `State.fsUnlink`: an entry is made, or taken away
* `State.createLast`: `__create_last`

## Main results

* `entry_modify_insert`, `entry_modify_delete`: which entries there are after one is made or removed
* `fsLink_eq_ok`, `fsLink_eq_error`: when an entry can be made
-/

namespace SeaKernel.Vfs

open Function List Option

/-- The names of entries, and paths. -/
abbrev Name := List Char

/-- `"."` -/
def dot : Name := ['.']

/-- `".."` -/
def dotdot : Name := ['.', '.']

/-- The error codes. A call that waits for a mutex which it holds returns none of them: that is
`deadlock`. -/
inductive Errno where
  | deadlock
  | eacces
  | ebadf
  | eexist
  | eio
  | eisdir
  | eloop
  | enametoolong
  | enoent
  | enotdir
  | enotempty
  | eperm
  | exdev
  deriving DecidableEq

/-! ## Inodes -/

/-- `S_IFMT` -/
def sIfmt : ℕ := 0o170000

/-- `S_IFDIR` -/
def sIfdir : ℕ := 0o040000

/-- `S_IFREG` -/
def sIfreg : ℕ := 0o100000

/-- `S_IFLNK` -/
def sIflnk : ℕ := 0o120000

/-- `S_ISDIR` -/
def sIsdir (mode : ℕ) : Bool := mode &&& sIfmt == sIfdir

/-- `S_ISLNK` -/
def sIslnk (mode : ℕ) : Bool := mode &&& sIfmt == sIflnk

/-- `struct inode_id` -/
@[ext] structure InodeId where
  fsid : ℕ
  inoid : ℕ
  deriving DecidableEq

/-- `struct inode` and `struct ramfs_inode`. No two entries have the same name. -/
structure Inode where
  mode : ℕ
  links : ℕ
  dirents : List (Name × ℕ)
  /-- What `readlink` reads. -/
  target : Name
  /-- The file system that is mounted on the inode. -/
  mount : Option ℕ
  nodup : (dirents.map Prod.fst).Nodup

theorem nodup_empty : (([] : List (Name × ℕ)).map Prod.fst).Nodup := List.nodup_nil

/-- `struct dirent` -/
structure Dirent where
  parent : InodeId
  name : Name
  ino : InodeId
  deriving DecidableEq

namespace Inode

/-- A new inode of `_alloc_inode`. -/
def fresh : Inode where
  mode := 0
  links := 0
  dirents := []
  target := []
  mount := none
  nodup := List.nodup_nil

/-- `_lookup` -/
def lookup (n : Inode) (name : Name) : Option ℕ := tableLookup n.dirents name

/-- `__ramfs_do_link`, the part about the directory. -/
def insert (n : Inode) (name : Name) (inoid : ℕ) : Inode :=
  { n with dirents := tableInsert n.dirents name inoid, nodup := nodup_tableInsert n.nodup }

/-- `_unlink` -/
def delete (n : Inode) (name : Name) : Inode :=
  { n with dirents := tableDelete n.dirents name, nodup := nodup_tableDelete n.nodup }

/-- `links++`, for a field of 16 bits. -/
def addLink (n : Inode) : Inode := { n with links := (n.links + 1) % 2 ^ 16 }

/-- `links--`, for a field of 16 bits. -/
def dropLink (n : Inode) : Inode := { n with links := (n.links + (2 ^ 16 - 1)) % 2 ^ 16 }

/-- The field has 16 bits. -/
def setMode (n : Inode) (mode : ℕ) : Inode := { n with mode := mode % 2 ^ 16 }

/-- `inode_check_perm` allows everything. -/
def checkPerm (_ : Inode) : Bool := true

variable {n : Inode} {name other : Name} {inoid : ℕ}

theorem dirents_addLink (n : Inode) : n.addLink.dirents = n.dirents := by rw [addLink]

theorem dirents_dropLink (n : Inode) : n.dropLink.dirents = n.dirents := by rw [dropLink]

theorem lookup_insert (hnone : n.lookup name = none) :
    (n.insert name inoid).lookup other = if other = name then some inoid else n.lookup other :=
  lookup_tableInsert hnone

theorem lookup_insert_of_ne (hother : other ≠ name) :
    (n.insert name inoid).lookup other = n.lookup other :=
  lookup_tableInsert_of_ne hother

theorem lookup_insert_of_some {found : ℕ} (hother : n.lookup other = some found) :
    (n.insert name inoid).lookup other = some found :=
  lookup_tableInsert_of_some hother

theorem lookup_delete :
    (n.delete name).lookup other = if other = name then none else n.lookup other := by
  by_cases hother : other = name
  · rw [if_pos hother, hother]
    exact lookup_tableDelete n.nodup
  · rw [if_neg hother]
    exact lookup_tableDelete_of_ne hother

end Inode

/-! ## The state -/

/-- The inodes of all file systems, and what the process that makes a call has. Inodes are
numbered in the order in which they are allocated. -/
structure State where
  inode : InodeId → Option Inode
  /-- `next_id`, for every file system. -/
  nextId : ℕ → ℕ
  /-- `rootid`, for every file system. -/
  rootid : ℕ → ℕ
  /-- `up_mount`, for every file system. -/
  upMount : ℕ → InodeId
  cwd : InodeId
  root : InodeId
  /-- Others have a reference to the entry, such as an open file. -/
  held : InodeId → Name → Bool
  fresh : ∀ id, nextId id.fsid < id.inoid → inode id = none
  rootid_le : ∀ fsid, rootid fsid ≤ nextId fsid

namespace State

variable {σ τ : State} {id other node target : InodeId} {name : Name} {f : Inode → Inode}

/-- A file system on which nothing is mounted. Its inodes are numbered from 1, which is the root. -/
def ofInodes (inodes : List Inode) (cwd : InodeId) : State where
  inode id := if id.fsid = 1 ∧ 0 < id.inoid then inodes[id.inoid - 1]? else none
  nextId _ := max 1 inodes.length
  rootid _ := 1
  upMount _ := ⟨1, 1⟩
  cwd := cwd
  root := ⟨1, 1⟩
  held _ _ := false
  fresh id hid := by
    split
    · exact List.getElem?_eq_none (by omega)
    · rfl
  rootid_le _ := le_max_left ..

/-- An inode is changed. -/
def modify (σ : State) (id : InodeId) (f : Inode → Inode) : State where
  __ := σ
  inode := update σ.inode id ((σ.inode id).map f)
  fresh other hother := by
    by_cases hid : other = id
    · subst hid
      rw [update_self, σ.fresh other hother]
      rfl
    · rw [update_of_ne hid, σ.fresh other hother]

/-- The number that `_alloc_inode` gives. -/
def allocId (σ : State) (fsid : ℕ) : InodeId := ⟨fsid, σ.nextId fsid + 1⟩

/-- `_alloc_inode` -/
def allocInode (σ : State) (fsid : ℕ) : State where
  __ := σ
  inode := update σ.inode (σ.allocId fsid) (some Inode.fresh)
  nextId := update σ.nextId fsid (σ.nextId fsid + 1)
  fresh other hother := by
    have hold : σ.nextId other.fsid < other.inoid := by
      by_cases hfs : other.fsid = fsid
      · rw [hfs, update_self] at hother
        rw [hfs]
        omega
      · rwa [update_of_ne hfs] at hother
    have hne : other ≠ σ.allocId fsid := by
      rintro rfl
      rw [allocId, update_self] at hother
      exact lt_irrefl _ hother
    rw [update_of_ne hne, σ.fresh other hold]
  rootid_le fs := by
    have hle := σ.rootid_le fs
    by_cases hfs : fs = fsid
    · subst hfs
      rw [update_self]
      omega
    · rwa [update_of_ne hfs]

/-- `_release_inode` -/
def releaseInode (σ : State) (id : InodeId) : State where
  __ := σ
  inode := update σ.inode id none
  fresh other hother := by
    by_cases hid : other = id
    · rw [hid, update_self]
    · rw [update_of_ne hid, σ.fresh other hother]

/-- `inode_put` of the last reference to an inode. -/
def inodePut (σ : State) (id : InodeId) : State :=
  match σ.inode id with
  | some n => if n.links = 0 then σ.releaseInode id else σ
  | none => σ

@[simp] theorem inode_modify_self : (σ.modify id f).inode id = (σ.inode id).map f :=
  update_self ..

theorem inode_modify_of_ne (hne : other ≠ id) : (σ.modify id f).inode other = σ.inode other :=
  update_of_ne hne ..

/-- An inode is a directory. -/
def isDir (σ : State) (id : InodeId) : Bool := (σ.inode id).any (sIsdir ·.mode)

/-- An inode is a symbolic link. -/
def isLnk (σ : State) (id : InodeId) : Bool := (σ.inode id).any (sIslnk ·.mode)

theorem exists_of_isDir (h : σ.isDir id = true) :
    ∃ n, σ.inode id = some n ∧ sIsdir n.mode = true := by
  unfold isDir at h
  cases hn : σ.inode id with
  | none =>
    rw [hn] at h
    cases h
  | some n =>
    rw [hn] at h
    exact ⟨n, rfl, h⟩

/-- `readlink`, into a buffer of 255 bytes. -/
def readlink (σ : State) (id : InodeId) : Name := (σ.inode id).elim [] (·.target.take 255)

/-- The entry of the inode with the name. -/
def entry (σ : State) (node : InodeId) (name : Name) : Option ℕ :=
  (σ.inode node).bind (·.lookup name)

theorem entry_modify_of_dirents (hf : ∀ n, (f n).dirents = n.dirents) :
    (σ.modify id f).entry = σ.entry := by
  funext node name
  unfold entry
  by_cases hnode : node = id
  · subst hnode
    rw [inode_modify_self]
    cases σ.inode node with
    | none => rfl
    | some n =>
      rw [map_some, bind_some, bind_some, Inode.lookup, hf]
      rfl
  · rw [inode_modify_of_ne hnode]

theorem entry_modify_delete (id : InodeId) (removed : Name) (node : InodeId) (name : Name) :
    (σ.modify id (·.delete removed)).entry node name =
      if node = id ∧ name = removed then none else σ.entry node name := by
  unfold entry
  by_cases hnode : node = id
  · subst hnode
    rw [inode_modify_self]
    cases σ.inode node with
    | none => simp
    | some n =>
      rw [map_some, bind_some, bind_some, Inode.lookup_delete]
      simp
  · rw [inode_modify_of_ne hnode, if_neg fun h => hnode h.1]

theorem entry_modify_insert {n : Inode} {added : Name} (hid : σ.inode id = some n)
    (hnone : n.lookup added = none) (inoid : ℕ) (node : InodeId) (name : Name) :
    (σ.modify id (·.insert added inoid)).entry node name =
      if node = id ∧ name = added then some inoid else σ.entry node name := by
  unfold entry
  by_cases hnode : node = id
  · subst hnode
    rw [inode_modify_self, hid, map_some, bind_some, bind_some, Inode.lookup_insert hnone]
    simp
  · rw [inode_modify_of_ne hnode, if_neg fun h => hnode h.1]

/-! ## Entries -/

/-- `dirent_lookup` -/
def direntLookup (σ : State) (node : InodeId) (name : Name) : Option Dirent :=
  (σ.entry node name).map fun inoid => ⟨node, name, ⟨node.fsid, inoid⟩⟩

/-- `inode_lookup` finds the inode. `fs_load_inode` has nothing to load, and no error, for the file
system 0, which is what an `up_mount` that was never set names. -/
def loads (σ : State) (id : InodeId) : Bool := id.fsid == 0 || (σ.inode id).isSome

/-- `dirent_get_inode`: from an entry to what is mounted there, and from the root of a mounted file
system up again. -/
def direntGetInode (σ : State) (dir : Dirent) : Option InodeId :=
  match σ.inode dir.ino with
  | none => none
  | some n =>
    let id := match n.mount with
      | some fsid => ⟨fsid, σ.rootid fsid⟩
      | none => dir.ino
    if (σ.inode id).isNone then none
    else if dir.name = dotdot ∧ id.inoid = σ.rootid id.fsid ∧ id ≠ σ.root then
      if σ.loads (σ.upMount id.fsid) then some (σ.upMount id.fsid) else none
    else some id

/-- `inode_lookup_dirent` -/
def inodeLookupDirent (σ : State) (node : InodeId) (name : Name) : Except Errno Dirent :=
  if σ.isDir node = false then .error .enotdir
  else match σ.direntLookup node name with
    | some dir => .ok dir
    | none => .error .enoent

theorem inodeLookupDirent_eq_ok {dir : Dirent} : σ.inodeLookupDirent node name = .ok dir ↔
    σ.isDir node = true ∧ σ.direntLookup node name = some dir := by
  unfold inodeLookupDirent
  cases σ.isDir node <;> cases σ.direntLookup node name <;> simp

/-- `fs_link` -/
def fsLink (σ : State) (node : InodeId) (name : Name) (target : InodeId) : Except Errno State :=
  match σ.inode node with
  | none => .error .eio
  | some n =>
    if n.checkPerm = false then .error .eacces
    else if sIsdir n.mode = false then .error .enotdir
    else if node.fsid ≠ target.fsid then .error .exdev
    else if (n.lookup name).isSome then .error .eexist
    else .ok ((σ.modify node (·.insert name target.inoid)).modify target Inode.addLink)

theorem fsLink_eq_ok {n : Inode} (hnode : σ.inode node = some n) (hdir : sIsdir n.mode = true)
    (target : InodeId) (hfs : node.fsid = target.fsid) (hname : n.lookup name = none) :
    σ.fsLink node name target =
      .ok ((σ.modify node (·.insert name target.inoid)).modify target Inode.addLink) := by
  unfold fsLink
  simp only [hnode, Inode.checkPerm, hdir, hfs, hname, Bool.true_eq_false, isSome_none,
    Bool.false_eq_true, if_false, ne_eq, not_true_eq_false]

theorem fsLink_eq_error {n : Inode} (hnode : σ.inode node = some n) (hdir : sIsdir n.mode = false) :
    σ.fsLink node name target = .error .enotdir := by
  unfold fsLink
  simp only [hnode, Inode.checkPerm, hdir, Bool.true_eq_false, if_false, if_true]

/-- `dirent_put` of an entry with `DIRENT_UNLINK`: the driver removes the entry. The link is dropped
with the last reference to it. -/
def direntRemove (σ : State) (dir : Dirent) : State :=
  if σ.held dir.parent dir.name then σ.modify dir.parent (·.delete dir.name)
  else (σ.modify dir.parent (·.delete dir.name)).modify dir.ino Inode.dropLink

/-- `fs_unlink` -/
def fsUnlink (σ : State) (node : InodeId) (name : Name) : Except Errno State :=
  match σ.inode node with
  | none => .error .eio
  | some n =>
    if n.checkPerm = false then .error .eacces
    else if sIsdir n.mode = false then .error .enotdir
    else match σ.direntLookup node name with
      | none => .error .enoent
      | some dir =>
        match σ.direntGetInode dir with
        | none => .error .eio
        | some target => if σ.isDir target then .error .eisdir else .ok (σ.direntRemove dir)

/-- `__create_last` links the new directory to itself and to the one it is made in, and takes no
notice of errors. -/
def linkDots (σ : State) (node target : InodeId) : State :=
  let σ := match σ.fsLink target dot target with
    | .ok τ => τ
    | .error _ => σ
  match σ.fsLink target dotdot node with
  | .ok τ => τ
  | .error _ => σ

/-- The new inode of `__create_last`, with its mode and its first entries. -/
def createInode (σ : State) (node : InodeId) (mode : ℕ) : State :=
  let target := σ.allocId node.fsid
  let mode := if mode &&& sIfmt = 0 then mode ||| sIfreg else mode
  let τ := (σ.allocInode node.fsid).modify target (·.setMode mode)
  if sIsdir mode then τ.linkDots node target else τ

/-- `__create_last`. The allocation of `ramfs` does not fail. -/
def createLast (σ : State) (node : InodeId) (name : Name) (mode : ℕ) :
    State × Except Errno Dirent :=
  match σ.inode node with
  | none => (σ, .error .eio)
  | some n =>
    if n.checkPerm = false then (σ, .error .eacces)
    else
      let target := σ.allocId node.fsid
      match (σ.createInode node mode).fsLink node name target with
      | .error e => ((σ.createInode node mode).inodePut target, .error e)
      | .ok τ => (τ.inodePut target, τ.inodeLookupDirent node name)

end State

end SeaKernel.Vfs
