import SeaKernel.Fs.Path
import SeaKernel.Fs.Rmdir

/-!
# Unlinking a path

`sys_unlinkat` cuts the path at its last slash, resolves the part before it and unlinks the name
after it there. That is the entry which `fs_path_resolve` names, with one exception: when the last
slash is the first character the part before it is empty, and an empty path is not the root but the
directory where the call starts.

## Main results

* `fsUnlink_eq_ok_iff`, `entry_direntRemove`: what `fs_unlink` does
* `unlinksNamed_iff`: when `sys_unlinkat` acts on the entry that is named
-/

namespace SeaKernel.Vfs.State

open List Option

/-- `sys_unlinkat`, from the inode that `__get_at_start` gives. -/
def sysUnlinkat (σ : State) (cache : Cache) (start : InodeId) (path : Name) (removedir : Bool) :
    Except Errno State :=
  if path.length > 255 then .error .enametoolong
  else
    match strrchrm path '/' with
    | some sep =>
      match (σ.pathResolve (path.take sep) start ⟨false, false⟩ 0).2 with
      | .error e => .error e
      | .ok parent =>
        if removedir then σ.fsRmdir cache parent.node (path.drop (sep + 1))
        else σ.fsUnlink parent.node (path.drop (sep + 1))
    | none => if removedir then σ.fsRmdir cache start path else σ.fsUnlink start path

/-- The entry that the path names, and its inode: `fs_path_resolve` with `PATH_NOFOLLOW`. -/
def Names (σ : State) (start : InodeId) (path : Name) (dir : Dirent) (node : InodeId) : Prop :=
  ∃ created, (σ.pathResolve path start ⟨false, true⟩ 0).2 = .ok ⟨some dir, node, created⟩

/-- The entry is there, and does not lead to a directory. -/
def Unlinkable (σ : State) (node : InodeId) (name : Name) : Prop :=
  σ.isDir node = true ∧ ∃ dir target, σ.direntLookup node name = some dir ∧
    σ.direntGetInode dir = some target ∧ σ.isDir target = false

/-- The second state has the entries of the first one without one that was there. -/
def RemovesEntry (σ τ : State) (dir : Dirent) : Prop :=
  (σ.entry dir.parent dir.name).isSome ∧
    ∀ node name, τ.entry node name =
      if node = dir.parent ∧ name = dir.name then none else σ.entry node name

/-- **`sys_unlinkat` acts on the entry that the path names.** If it succeeds, exactly that entry is
removed, and it succeeds if the entry does not lead to a directory. -/
def UnlinksNamed (σ : State) (cache : Cache) (path : Name) : Prop :=
  (∀ τ, σ.sysUnlinkat cache σ.cwd path false = .ok τ →
    ∃ dir node, σ.Names σ.cwd path dir node ∧ RemovesEntry σ τ dir) ∧
  ∀ dir node, σ.Names σ.cwd path dir node → σ.isDir node = false →
    ∃ τ, σ.sysUnlinkat cache σ.cwd path false = .ok τ

/-! ## `fs_unlink` -/

section FsUnlink

variable {σ τ : State} {node target : InodeId} {name : Name} {dir : Dirent}

/-- **An entry is removed, and no other one.** -/
theorem entry_direntRemove (dir : Dirent) (node : InodeId) (name : Name) :
    (σ.direntRemove dir).entry node name =
      if node = dir.parent ∧ name = dir.name then none else σ.entry node name := by
  unfold direntRemove
  split
  · exact entry_modify_delete ..
  · rw [entry_modify_of_dirents Inode.dirents_dropLink]
    exact entry_modify_delete ..

theorem direntLookup_eq_some (h : σ.direntLookup node name = some dir) :
    dir.parent = node ∧ dir.name = name ∧ σ.entry node name = some dir.ino.inoid := by
  obtain ⟨inoid, hentry, rfl⟩ := map_eq_some_iff.mp h
  exact ⟨rfl, rfl, hentry⟩

theorem fsUnlink_eq_ok (hdir : σ.isDir node = true) (hlookup : σ.direntLookup node name = some dir)
    (htarget : σ.direntGetInode dir = some target) (hfile : σ.isDir target = false) :
    σ.fsUnlink node name = .ok (σ.direntRemove dir) := by
  unfold isDir at hdir
  unfold fsUnlink
  cases hn : σ.inode node with
  | none =>
    rw [hn] at hdir
    cases hdir
  | some n =>
    rw [hn, any_some] at hdir
    simp only [Inode.checkPerm, hdir, hlookup, htarget, hfile, Bool.true_eq_false,
      Bool.false_eq_true, if_false]

theorem fsUnlink_inv (h : σ.fsUnlink node name = .ok τ) :
    σ.isDir node = true ∧ ∃ dir target, σ.direntLookup node name = some dir ∧
      σ.direntGetInode dir = some target ∧ σ.isDir target = false ∧ τ = σ.direntRemove dir := by
  unfold fsUnlink at h
  split at h
  · cases h
  next n hn =>
  split at h
  · cases h
  split at h
  · cases h
  next hmode =>
  split at h
  · cases h
  next dir hdir =>
  split at h
  · cases h
  next target htarget =>
  split at h
  · cases h
  next hfile =>
  refine ⟨?_, dir, target, hdir, htarget, by simpa using hfile, (Except.ok.inj h).symm⟩
  rw [isDir, hn]
  simpa using hmode

/-- **`fs_unlink` succeeds for entries that do not lead to directories.** -/
theorem fsUnlink_eq_ok_iff : (∃ τ, σ.fsUnlink node name = .ok τ) ↔ σ.Unlinkable node name := by
  constructor
  · rintro ⟨τ, hok⟩
    obtain ⟨hnode, dir, target, hdir, htarget, hfile, -⟩ := fsUnlink_inv hok
    exact ⟨hnode, dir, target, hdir, htarget, hfile⟩
  · rintro ⟨hnode, dir, target, hdir, htarget, hfile⟩
    exact ⟨_, fsUnlink_eq_ok hnode hdir htarget hfile⟩

end FsUnlink

/-! ## The entry that is named -/

section Named

variable {σ τ : State} {nested : Name → InodeId → Except Errno Found} {node next : InodeId}
  {name path : Name} {dir : Dirent} {mode : ℕ} {cache : Cache}

theorem last_nofollow : (∃ created, (σ.last nested ⟨false, true⟩ mode node name).2 =
      .ok ⟨some dir, next, created⟩) ↔
    σ.isDir node = true ∧ σ.direntLookup node name = some dir ∧
      σ.direntGetInode dir = some next := by
  unfold last inodeLookupDirent enter
  by_cases hnode : σ.isDir node = false
  · simp [hnode]
  · rw [if_neg hnode]
    cases hdir : σ.direntLookup node name with
    | none => simp
    | some dir' =>
      cases hnext : σ.direntGetInode dir' with
      | none =>
        simp only [hnext]
        constructor
        · rintro ⟨created, ⟨⟩⟩
        · rintro ⟨-, heq, hsome⟩
          obtain rfl := some.inj heq
          rw [hnext] at hsome
          cases hsome
      | some next' =>
        simp only [hnext, Bool.not_true, Bool.and_false, Bool.false_eq_true, if_false]
        constructor
        · rintro ⟨created, heq⟩
          obtain ⟨hdir', rfl, -⟩ := Found.mk.inj (Except.ok.inj heq)
          obtain rfl := some.inj hdir'
          exact ⟨by simpa using hnode, rfl, hnext⟩
        · rintro ⟨-, heq, hsome⟩
          obtain rfl := some.inj heq
          obtain rfl := some.inj (hnext.symm.trans hsome)
          exact ⟨false, rfl⟩

theorem unlinksNamed_of_same
    (hresolve : σ.pathResolve path σ.cwd ⟨false, true⟩ 0 =
      σ.last nested ⟨false, true⟩ 0 node name)
    (hcall : σ.sysUnlinkat cache σ.cwd path false = σ.fsUnlink node name) :
    σ.UnlinksNamed cache path := by
  have hnames : ∀ dir next, σ.Names σ.cwd path dir next ↔ σ.isDir node = true ∧
      σ.direntLookup node name = some dir ∧ σ.direntGetInode dir = some next := by
    intro dir next
    rw [Names, hresolve]
    exact last_nofollow
  rw [UnlinksNamed, hcall]
  constructor
  · intro τ hok
    obtain ⟨hnode, dir, target, hdir, htarget, -, rfl⟩ := fsUnlink_inv hok
    refine ⟨dir, target, (hnames dir target).mpr ⟨hnode, hdir, htarget⟩, ?_, entry_direntRemove dir⟩
    obtain ⟨hparent, hname, hentry⟩ := direntLookup_eq_some hdir
    rw [hparent, hname, hentry]
    rfl
  · intro dir next hnamed hfile
    obtain ⟨hnode, hdir, hnext⟩ := (hnames dir next).mp hnamed
    exact ⟨_, fsUnlink_eq_ok hnode hdir hnext hfile⟩

theorem unlinksNamed_slash_iff
    (hcall : σ.sysUnlinkat cache σ.cwd path false = σ.fsUnlink σ.cwd name)
    (hresolve : σ.pathResolve path σ.cwd ⟨false, true⟩ 0 =
      σ.last nested ⟨false, true⟩ 0 σ.root name) :
    σ.UnlinksNamed cache path ↔ σ.cwd = σ.root ∨
      ¬ σ.Unlinkable σ.cwd name ∧ ¬ σ.Unlinkable σ.root name := by
  have hnames : ∀ dir next, σ.Names σ.cwd path dir next ↔ σ.isDir σ.root = true ∧
      σ.direntLookup σ.root name = some dir ∧ σ.direntGetInode dir = some next := by
    intro dir next
    rw [Names, hresolve]
    exact last_nofollow
  constructor
  · intro hlaw
    rw [or_iff_not_imp_left]
    intro hne
    have hcwd : ¬ σ.Unlinkable σ.cwd name := by
      intro hunlinkable
      obtain ⟨τ, hok⟩ := fsUnlink_eq_ok_iff.mpr hunlinkable
      obtain ⟨-, removed, target, hremoved, -, -, rfl⟩ := fsUnlink_inv hok
      obtain ⟨dir, next, hnamed, -, hentries⟩ := hlaw.1 _ (hcall.trans hok)
      obtain ⟨hparent, -, -⟩ := direntLookup_eq_some ((hnames dir next).mp hnamed).2.1
      obtain ⟨hrparent, hrname, hrentry⟩ := direntLookup_eq_some hremoved
      -- The entry of the working directory is gone, and it is not the one that is named.
      have hentry := hentries σ.cwd name
      rw [entry_direntRemove, hrparent, hrname, if_pos ⟨rfl, rfl⟩, hparent,
        if_neg fun h => hne h.1, hrentry] at hentry
      cases hentry
    refine ⟨hcwd, fun ⟨hroot, dir, target, hdir, htarget, hfile⟩ => hcwd ?_⟩
    rw [← fsUnlink_eq_ok_iff, ← hcall]
    exact hlaw.2 dir target ((hnames dir target).mpr ⟨hroot, hdir, htarget⟩) hfile
  · rintro (heq | ⟨hcwd, hroot⟩)
    · exact unlinksNamed_of_same hresolve (hcall.trans (by rw [heq]))
    · refine ⟨fun τ hok => ?_, fun dir next hnamed hfile => ?_⟩
      · exact absurd (fsUnlink_eq_ok_iff.mp ⟨τ, hcall.symm.trans hok⟩) hcwd
      · obtain ⟨hdir, hlookup, hnext⟩ := (hnames dir next).mp hnamed
        exact absurd ⟨hdir, dir, next, hlookup, hnext, hfile⟩ hroot

theorem sysUnlinkat_eq_cut (hlen : path.length ≤ 255) (cache : Cache) (start : InodeId) :
    σ.sysUnlinkat cache start path false =
      match σ.cut start path with
      | .error e => .error e
      | .ok parent => σ.fsUnlink parent (cutName path) := by
  unfold sysUnlinkat cut cutName
  rw [if_neg (by omega)]
  cases strrchrm path '/' with
  | none => rfl
  | some sep =>
    dsimp only
    cases (σ.pathResolve (path.take sep) start ⟨false, false⟩ 0).2 <;> rfl

/-- **`sys_unlinkat` acts on the entry that is named**, unless the last slash is the first
character: then it looks for the name in the working directory and not in the root. -/
theorem unlinksNamed_iff (hpath : path ≠ []) (hlen : path.length ≤ 255)
    (hlast : path.getLast? ≠ some '/') :
    σ.UnlinksNamed cache path ↔ (strrchrm path '/' = some 0 → σ.cwd = σ.root ∨
      ¬ σ.Unlinkable σ.cwd (path.drop 1) ∧ ¬ σ.Unlinkable σ.root (path.drop 1)) := by
  have hunlink := sysUnlinkat_eq_cut (σ := σ) hlen cache σ.cwd
  by_cases hfirst : strrchrm path '/' = some 0 → σ.cwd = σ.root
  · -- The call and the resolver cut the path in the same way.
    refine iff_of_true ?_ fun h => .inl (hfirst h)
    have hresolve := pathResolve_eq_cut hpath hlen hlast hfirst ⟨false, true⟩ 0
    cases hcut : σ.cut σ.cwd path with
    | ok parent =>
      rw [hcut] at hresolve hunlink
      exact unlinksNamed_of_same hresolve hunlink
    | error e =>
      rw [hcut] at hresolve hunlink
      refine ⟨fun τ hok => ?_, fun dir node hnames => ?_⟩
      · rw [hunlink] at hok
        cases hok
      · obtain ⟨created, hok⟩ := hnames
        rw [hresolve] at hok
        cases hok
  · push Not at hfirst
    obtain ⟨hsep, -⟩ := hfirst
    have hname := cutName_ne_nil hpath hlast
    obtain ⟨hcut, hslash⟩ := strrchrm_eq_some hsep
    simp only [cut, cutName, hsep, take_zero, pathResolve_nil, Except.map] at hname hunlink
    have hpath' : '/' :: path.drop 1 = path := hcut.symm
    have hresolve : σ.pathResolve path σ.cwd ⟨false, true⟩ 0 =
        σ.last (σ.resolveLink 64) ⟨false, true⟩ 0 σ.root (path.drop 1) := by
      conv_lhs => rw [← hpath']
      exact resolveWith_slash_name hslash hname (by rw [hpath']; exact hlen)
    rw [unlinksNamed_slash_iff hunlink hresolve]
    simp [hsep]

end Named

/-- A directory `d` in the root, where the process is, and a file `f` in each of them. -/
def twoFiles : State :=
  ofInodes [⟨0o040755, 3, [(dot, 1), (dotdot, 1), (['d'], 2), (['f'], 3)], [], none, by decide⟩,
    ⟨0o040755, 2, [(dot, 2), (dotdot, 1), (['f'], 4)], [], none, by decide⟩,
    ⟨0o100644, 1, [], [], none, nodup_empty⟩, ⟨0o100644, 1, [], [], none, nodup_empty⟩] ⟨1, 2⟩

theorem relative_unlinked : twoFiles.UnlinksNamed ⟨[], []⟩ ['.', '.', '/', 'f'] :=
  (unlinksNamed_iff (by decide) (by decide) (by decide)).mpr fun hfirst => absurd hfirst (by decide)

theorem slash_unlinks_other : ∃ τ, twoFiles.sysUnlinkat ⟨[], []⟩ ⟨1, 2⟩ ['/', 'f'] false = .ok τ ∧
    twoFiles.Names ⟨1, 2⟩ ['/', 'f'] ⟨⟨1, 1⟩, ['f'], ⟨1, 3⟩⟩ ⟨1, 3⟩ ∧
    τ.entry ⟨1, 1⟩ ['f'] = some 3 ∧ twoFiles.entry ⟨1, 2⟩ ['f'] = some 4 ∧
    τ.entry ⟨1, 2⟩ ['f'] = none :=
  ⟨_, rfl, ⟨false, rfl⟩, rfl, rfl, rfl⟩

end SeaKernel.Vfs.State
