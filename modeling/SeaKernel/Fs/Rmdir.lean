import SeaKernel.Fs.Vfs

/-!
# Removing a directory

`fs_rmdir` has to find out whether a directory is empty. It asks the driver for as many entries as
fit into 512 bytes, and looks each of them up in the cache of entries, where at most 100 are kept.
An entry that does not fit, or that is not in the cache at that time, does not count; so a directory
that is not empty is removed if none of its entries is seen.

The call holds the lock of the directory it was given. If the name leads to that directory itself,
as `.` does, then it comes to wait for this lock when an entry is not in the cache or is to be
removed, and does not return.

## Main results

* `fsRmdir_eq_ok`: when `fs_rmdir` succeeds
* `fsRmdir_sound_iff`: when it removes only empty directories
-/

namespace SeaKernel.Vfs

/-! ## The cache of entries -/

/-- `dirent_lru`: the entries in use, and the others, with the one in front that was put last. -/
structure Cache where
  active : List (InodeId × Name)
  lru : List (InodeId × Name)

namespace Cache

/-- `kobj_lru_lookup_cached` finds the entry. -/
def has (c : Cache) (k : InodeId × Name) : Bool := k ∈ c.active || k ∈ c.lru

/-- `kobj_lru_get` for an entry that exists. Room is made for it if there are 100 entries. -/
def get (c : Cache) (k : InodeId × Name) : Cache :=
  if k ∈ c.active then c
  else if k ∈ c.lru then ⟨k :: c.active, c.lru.erase k⟩
  else if c.active.length + c.lru.length ≥ 100 then ⟨k :: c.active, c.lru.dropLast⟩
  else ⟨k :: c.active, c.lru⟩

end Cache

/-! ## `_getdents` -/

/-- The length of a record: `struct gd_dirent` has 24 bytes. -/
def reclen (name : Name) : ℕ := (name.length + 24 + 1) / 16 * 16 + 16

/-- The loop of `_getdents`, after so many bytes were read. -/
def getdentsFrom (count : ℕ) : ℕ → List (Name × ℕ) → List Name
  | _, [] => []
  | read, (name, _) :: rest =>
    if reclen name + read > count then []
    else name :: getdentsFrom count (read + reclen name) rest

/-- `_getdents`: the names in the records that fit. The entries are in the order of the table of the
driver. -/
def Inode.getdents (n : Inode) (count : ℕ) : List Name := getdentsFrom count 0 n.dirents

/-! ## `fs_rmdir` -/

/-- The entries that every directory has. -/
def isDot (name : Name) : Bool := name = dot || name = dotdot

/-- The key of an entry in the cache. -/
def Dirent.key (dir : Dirent) : InodeId × Name := (dir.parent, dir.name)

namespace State

/-- `__directory_empty` -/
def directoryEmpty (σ : State) (cache : Cache) (node : InodeId) : Bool :=
  !((σ.inode node).elim [] (·.getdents 512)).any fun name => cache.has (node, name) && !isDot name

/-- The entries that `fs_rmdir` marks as unlinked. -/
def rmdirEntries (σ : State) (dir pp sp : Dirent) : List Dirent :=
  dir :: [pp, sp].filter fun dot => (σ.direntGetInode dot).isSome

/-- `fs_rmdir`, for a cache of entries. The locks of `node` and `target` are one lock if they are
the same: `_dirent_initialize` takes it for an entry that is not cached, and `dirent_put` for one
that is unlinked. -/
def fsRmdir (σ : State) (cache : Cache) (node : InodeId) (name : Name) : Except Errno State :=
  match σ.inode node with
  | none => .error .eio
  | some n =>
    if n.checkPerm = false then .error .eacces
    else if sIsdir n.mode = false then .error .enotdir
    else match σ.direntLookup node name with
      | none => .error .enoent
      | some dir =>
        match σ.direntGetInode dir with
        | none => .error .eio
        | some target =>
          if σ.isDir target = false then .error .enotdir
          else if target = node ∧ (cache.get dir.key).has (target, dotdot) = false then
            .error .deadlock
          else match σ.direntLookup target dotdot with
            | none => .error .eio
            | some pp =>
              if target = node ∧ ((cache.get dir.key).get pp.key).has (target, dot) = false then
                .error .deadlock
              else match σ.direntLookup target dot with
                | none => .error .eio
                | some sp =>
                  if σ.directoryEmpty (((cache.get dir.key).get pp.key).get sp.key) target then
                    if target = node ∧
                        (pp ∈ σ.rmdirEntries dir pp sp ∨ sp ∈ σ.rmdirEntries dir pp sp) then
                      .error .deadlock
                    else .ok ((σ.rmdirEntries dir pp sp).foldl direntRemove σ)
                  else .error .enotempty

/-- The entry leads to a directory, which has its own two entries. -/
structure Removable (σ : State) (node : InodeId) (name : Name) (dir : Dirent) (target : InodeId)
    (pp sp : Dirent) : Prop where
  isDir : σ.isDir node = true
  lookup : σ.direntLookup node name = some dir
  getInode : σ.direntGetInode dir = some target
  target_isDir : σ.isDir target = true
  up : σ.direntLookup target dotdot = some pp
  self : σ.direntLookup target dot = some sp

/-- The call does not wait for the lock it holds: the directory is another one than that it was
given, or its two entries are cached and are not unlinked. -/
def LocksOnce (σ : State) (cache : Cache) (node : InodeId) (dir : Dirent) (target : InodeId)
    (pp sp : Dirent) : Prop :=
  target = node → (cache.get dir.key).has (target, dotdot) = true ∧
    ((cache.get dir.key).get pp.key).has (target, dot) = true ∧
    pp ∉ σ.rmdirEntries dir pp sp ∧ sp ∉ σ.rmdirEntries dir pp sp

/-- An entry of the directory fits into the buffer, and is in the cache after `fs_rmdir` has looked
up the entries it needs. -/
def SeesEntry (σ : State) (cache : Cache) (dir : Dirent) (target : InodeId) (pp sp : Dirent) :
    Prop :=
  ∃ n child, σ.inode target = some n ∧ child ∈ n.getdents 512 ∧ isDot child = false ∧
    (((cache.get dir.key).get pp.key).get sp.key).has (target, child) = true

/-- The directory has an entry besides its own two. -/
def HasEntry (σ : State) (target : InodeId) : Prop :=
  ∃ child, isDot child = false ∧ (σ.entry target child).isSome

section Rmdir

variable {σ τ : State} {cache : Cache} {node target : InodeId} {name : Name} {dir pp sp : Dirent}

theorem directoryEmpty_eq_false :
    σ.directoryEmpty (((cache.get dir.key).get pp.key).get sp.key) target = false ↔
      σ.SeesEntry cache dir target pp sp := by
  unfold directoryEmpty SeesEntry
  cases σ.inode target with
  | none => simp
  | some n =>
    simp only [Option.elim_some, Bool.not_eq_false', List.any_eq_true, Bool.and_eq_true,
      Bool.not_eq_true', Option.some.injEq]
    constructor
    · rintro ⟨child, hmem, hhas, hdot⟩
      exact ⟨n, child, rfl, hmem, hdot, hhas⟩
    · rintro ⟨n, child, rfl, hmem, hdot, hhas⟩
      exact ⟨child, hmem, hhas, hdot⟩

/-- **`fs_rmdir` succeeds for a directory in which it sees no entry**, if it returns. -/
theorem fsRmdir_eq_ok (hremovable : σ.Removable node name dir target pp sp)
    (hlocks : σ.LocksOnce cache node dir target pp sp)
    (hsees : ¬ σ.SeesEntry cache dir target pp sp) :
    σ.fsRmdir cache node name = .ok ((σ.rmdirEntries dir pp sp).foldl direntRemove σ) := by
  have hempty : σ.directoryEmpty (((cache.get dir.key).get pp.key).get sp.key) target = true := by
    rw [← directoryEmpty_eq_false] at hsees
    simpa using hsees
  have hdir := hremovable.isDir
  unfold fsRmdir
  unfold isDir at hdir
  cases hn : σ.inode node with
  | none =>
    rw [hn] at hdir
    cases hdir
  | some n =>
    rw [hn, Option.any_some] at hdir
    have hup : ¬ (target = node ∧ (cache.get dir.key).has (target, dotdot) = false) :=
      fun ⟨heq, hnot⟩ => Bool.true_eq_false.mp ((hlocks heq).1.symm.trans hnot)
    have hself : ¬ (target = node ∧
        ((cache.get dir.key).get pp.key).has (target, dot) = false) :=
      fun ⟨heq, hnot⟩ => Bool.true_eq_false.mp ((hlocks heq).2.1.symm.trans hnot)
    have hput : ¬ (target = node ∧
        (pp ∈ σ.rmdirEntries dir pp sp ∨ sp ∈ σ.rmdirEntries dir pp sp)) :=
      fun ⟨heq, hor⟩ => hor.elim (hlocks heq).2.2.1 (hlocks heq).2.2.2
    simp only [Inode.checkPerm, hdir, hremovable.lookup, hremovable.getInode,
      hremovable.target_isDir, hremovable.up, hremovable.self, hempty, if_true, Bool.true_eq_false,
      if_false, if_neg hup, if_neg hself, if_neg hput]

theorem fsRmdir_inv (h : σ.fsRmdir cache node name = .ok τ) :
    ∃ dir target pp sp, σ.Removable node name dir target pp sp ∧
      σ.LocksOnce cache node dir target pp sp ∧ ¬ σ.SeesEntry cache dir target pp sp := by
  unfold fsRmdir at h
  split at h
  · cases h
  next n hn =>
  split at h
  · cases h
  split at h
  · cases h
  next hmode =>
  split at h
  · cases h
  next dir hdir =>
  split at h
  · cases h
  next target htarget =>
  split at h
  · cases h
  next hisdir =>
  split at h
  · cases h
  next hup =>
  split at h
  · cases h
  next pp hpp =>
  split at h
  · cases h
  next hself =>
  split at h
  · cases h
  next sp hsp =>
  split at h
  · next hempty =>
    split at h
    · cases h
    next hput =>
    refine ⟨dir, target, pp, sp, ⟨?_, hdir, htarget, by simpa using hisdir, hpp, hsp⟩, ?_, ?_⟩
    · rw [isDir, hn]
      simpa using hmode
    · intro heq
      simp only [heq, true_and, not_or, Bool.not_eq_false] at hup hself hput ⊢
      exact ⟨hup, hself, hput⟩
    · rw [← directoryEmpty_eq_false, hempty]
      exact Bool.true_eq_false.mp
  · cases h

/-- **`fs_rmdir` removes only empty directories if and only if it sees an entry of each directory
that is not empty**, unless it does not return. -/
theorem fsRmdir_sound_iff :
    (∀ τ, σ.fsRmdir cache node name = .ok τ → ∀ dir target, σ.direntLookup node name = some dir →
      σ.direntGetInode dir = some target → ¬ σ.HasEntry target) ↔
    ∀ dir target pp sp, σ.Removable node name dir target pp sp →
      σ.LocksOnce cache node dir target pp sp → σ.HasEntry target →
      σ.SeesEntry cache dir target pp sp := by
  constructor
  · intro hsound dir target pp sp hremovable hlocks hentry
    by_contra hsees
    exact hsound _ (fsRmdir_eq_ok hremovable hlocks hsees) dir target hremovable.lookup
      hremovable.getInode hentry
  · intro hdetect τ hok dir target hdir htarget hentry
    obtain ⟨dir', target', pp, sp, hremovable, hlocks, hsees⟩ := fsRmdir_inv hok
    obtain rfl := Option.some.inj (hdir.symm.trans hremovable.lookup)
    obtain rfl := Option.some.inj (htarget.symm.trans hremovable.getInode)
    exact hsees (hdetect _ _ _ _ hremovable hlocks hentry)

/-- A directory `d` in the root, with a file `f`. -/
def nested : State :=
  ofInodes [⟨0o040755, 3, [(dot, 1), (dotdot, 1), (['d'], 2)], [], none, by decide⟩,
    ⟨0o040755, 2, [(dot, 2), (dotdot, 1), (['f'], 3)], [], none, by decide⟩,
    ⟨0o100644, 1, [], [], none, nodup_empty⟩] ⟨1, 1⟩

theorem nested_removed : ∃ τ, nested.fsRmdir ⟨[], []⟩ ⟨1, 1⟩ ['d'] = .ok τ ∧
    nested.direntLookup ⟨1, 1⟩ ['d'] = some ⟨⟨1, 1⟩, ['d'], ⟨1, 2⟩⟩ ∧
    nested.direntGetInode ⟨⟨1, 1⟩, ['d'], ⟨1, 2⟩⟩ = some ⟨1, 2⟩ ∧ nested.HasEntry ⟨1, 2⟩ :=
  ⟨_, rfl, rfl, rfl, ['f'], rfl, rfl⟩

end Rmdir

end State

end SeaKernel.Vfs
