import SeaKernel.Fs.Unlink

/-!
# Renaming

`sys_renameat` unlinks the new path, links it to what the old path leads to, and unlinks the old
path. Each of these steps may fail after the others have changed something, and the second one
resolves the paths from each other's directory. So a rename is not what it should be in many cases:
if the two paths name the same entry the file is lost, if the old path is a directory its own two
entries are, and if it is a symbolic link the new entry leads to what the link leads to.

For a file that is renamed within one file system the steps do what they should, because neither the
old entry nor the new one is on the way to the other: only directories and symbolic links lead on.

## Main results

* `Frame.pathResolve`: entries that do not lead on do not change the way to a directory
* `renames_of_plainRename`: a file is renamed
-/

namespace SeaKernel.Vfs.State

open List Option Except Inode

/-! ## The calls -/

/-- `_do_linkat`. The new path is resolved from the directory of the old one, and the old one from
that of the new one; a new path without a slash is a name in the working directory. -/
def doLinkat (σ : State) (oldstart : InodeId) (targ : Name) (newstart : InodeId) (path : Name)
    (allowDir : Bool) : Except Errno State :=
  if path.length > 255 then .error .enametoolong
  else
    match σ.cut (if strrchrm path '/' = none then σ.cwd else oldstart) path with
    | .error e => .error e
    | .ok parent =>
      match (σ.pathResolve targ newstart ⟨false, false⟩ 0).2 with
      | .error e => .error e
      | .ok target =>
        if σ.isDir target.node && !allowDir then .error .eperm
        else σ.fsLink parent (cutName path) target.node

/-- `sys_unlinkat`, and once more with `AT_REMOVEDIR` for a directory. -/
def unlinkAny (σ : State) (cache : Cache) (start : InodeId) (path : Name) : Except Errno State :=
  match σ.sysUnlinkat cache start path false with
  | .error .eisdir => σ.sysUnlinkat cache start path true
  | result => result

/-- What `sys_renameat` does after it has removed the new path. -/
def linkAndUnlink (σ : State) (cache : Cache) (oldstart : InodeId) (oldpath : Name)
    (newstart : InodeId) (newpath : Name) : State × Except Errno Unit :=
  match σ.doLinkat oldstart oldpath newstart newpath true with
  | .error e => (σ, .error e)
  | .ok τ =>
    match τ.unlinkAny cache oldstart oldpath with
    | .error e => (τ, .error e)
    | .ok υ => (υ, .ok ())

/-- `sys_renameat`, with the cache of entries as each of the two removals finds it. -/
def sysRenameat (σ : State) (cache cache' : Cache) (oldstart : InodeId) (oldpath : Name)
    (newstart : InodeId) (newpath : Name) : State × Except Errno Unit :=
  match σ.unlinkAny cache newstart newpath with
  | .error .enoent => σ.linkAndUnlink cache' oldstart oldpath newstart newpath
  | .error e => (σ, .error e)
  | .ok τ => τ.linkAndUnlink cache' oldstart oldpath newstart newpath

/-- What there is to an inode besides its entries and the number of its links. -/
def attributes (σ : State) (id : InodeId) : Option (ℕ × Name × Option ℕ) :=
  (σ.inode id).map fun n => (n.mode, n.target, n.mount)

/-- The new path names what the old one named, and the old path names nothing, unless it is the same
entry. No other entry has changed, except for the `..` of a directory. -/
def Moves (σ τ : State) (oldstart : InodeId) (oldpath : Name) (newstart : InodeId)
    (newpath : Name) : Prop :=
  ∃ dir node new, σ.Names oldstart oldpath dir node ∧ τ.Names newstart newpath new node ∧
    (new.key ≠ dir.key → ∀ dir' node', ¬ τ.Names oldstart oldpath dir' node') ∧
    (∀ id name, τ.entry id name =
      if (id, name) = new.key then some node.inoid
      else if (id, name) = dir.key then none
      else if σ.isDir node = true ∧ (id, name) = (node, dotdot) then some new.parent.inoid
      else σ.entry id name) ∧
    τ.attributes = σ.attributes

/-- **What a call of `sys_renameat` should do.** If it succeeds the entry is moved, and if it fails
nothing has changed. -/
def Renames (σ : State) (cache cache' : Cache) (oldstart : InodeId) (oldpath : Name)
    (newstart : InodeId) (newpath : Name) : Prop :=
  (∀ τ, σ.sysRenameat cache cache' oldstart oldpath newstart newpath = (τ, .ok ()) →
    Moves σ τ oldstart oldpath newstart newpath) ∧
  ∀ τ e, σ.sysRenameat cache cache' oldstart oldpath newstart newpath = (τ, .error e) →
    e ≠ .deadlock → τ.inode = σ.inode

/-! ## Frames -/

/-- The states differ in entries at the given places, and in numbers of links. -/
structure Frame (places : InodeId × Name → Prop) (σ τ : State) : Prop where
  entry : ∀ node name, ¬ places (node, name) → τ.entry node name = σ.entry node name
  attributes : τ.attributes = σ.attributes
  root : τ.root = σ.root
  cwd : τ.cwd = σ.cwd
  rootid : τ.rootid = σ.rootid
  upMount : τ.upMount = σ.upMount

/-- The entries at the given places lead to neither directories nor symbolic links. -/
def DeadEnds (σ : State) (places : InodeId × Name → Prop) : Prop :=
  ∀ node name dir next, places (node, name) → σ.direntLookup node name = some dir →
    σ.direntGetInode dir = some next → σ.isDir next = false ∧ σ.isLnk next = false

section Frame

variable {σ τ : State} {places : InodeId × Name → Prop}
  {nested nested' : Name → InodeId → Except Errno Found}
  {found next : Found} {segments : List Name} {node id start : InodeId} {name path : Name}
  {dir : Dirent}

theorem Frame.refl (places : InodeId × Name → Prop) (σ : State) : Frame places σ σ :=
  ⟨fun _ _ _ => rfl, rfl, rfl, rfl, rfl, rfl⟩

section

variable (h : Frame places σ τ)

include h

theorem Frame.modify {f : Inode → Inode}
    (hentry : ∀ n name, ¬ places (id, name) → (f n).lookup name = n.lookup name)
    (hf : ∀ n, ((f n).mode, (f n).target, (f n).mount) = (n.mode, n.target, n.mount)) :
    Frame places σ (τ.modify id f) := by
  refine ⟨fun node name hplace => ?_, ?_, h.root, h.cwd, h.rootid, h.upMount⟩
  · rw [← h.entry node name hplace]
    unfold State.entry
    by_cases hnode : node = id
    · subst hnode
      rw [inode_modify_self]
      cases τ.inode node with
      | none => rfl
      | some n => exact hentry n name hplace
    · rw [inode_modify_of_ne hnode]
  · rw [← h.attributes]
    funext node
    unfold State.attributes
    by_cases hnode : node = id
    · subst hnode
      rw [inode_modify_self]
      cases τ.inode node with
      | none => rfl
      | some n => exact congrArg some (hf n)
    · rw [inode_modify_of_ne hnode]

theorem Frame.exists_inode {n : Inode} (hn : σ.inode id = some n) :
    ∃ n', τ.inode id = some n' ∧ n'.mode = n.mode ∧ n'.target = n.target ∧ n'.mount = n.mount := by
  have hattributes := congrFun h.attributes id
  unfold State.attributes at hattributes
  rw [hn, map_some] at hattributes
  obtain ⟨n', hn', heq⟩ := map_eq_some_iff.mp hattributes
  simp only [Prod.mk.injEq] at heq
  exact ⟨n', hn', heq⟩

theorem Frame.inode_none (hn : σ.inode id = none) : τ.inode id = none := by
  have hattributes := congrFun h.attributes id
  unfold State.attributes at hattributes
  rw [hn] at hattributes
  simpa using hattributes

variable (id : InodeId)

theorem Frame.isDir : τ.isDir id = σ.isDir id := by
  unfold State.isDir
  cases hn : σ.inode id with
  | none => rw [h.inode_none hn]
  | some n =>
    obtain ⟨n', hn', hmode, -⟩ := h.exists_inode hn
    rw [hn', any_some, any_some, hmode]

theorem Frame.isLnk : τ.isLnk id = σ.isLnk id := by
  unfold State.isLnk
  cases hn : σ.inode id with
  | none => rw [h.inode_none hn]
  | some n =>
    obtain ⟨n', hn', hmode, -⟩ := h.exists_inode hn
    rw [hn', any_some, any_some, hmode]

theorem Frame.readlink : τ.readlink id = σ.readlink id := by
  unfold State.readlink
  cases hn : σ.inode id with
  | none => rw [h.inode_none hn]
  | some n =>
    obtain ⟨n', hn', -, htarget, -⟩ := h.exists_inode hn
    rw [hn', elim_some, elim_some, htarget]

theorem Frame.isNone : (τ.inode id).isNone = (σ.inode id).isNone := by
  cases hn : σ.inode id with
  | none => rw [h.inode_none hn]
  | some n =>
    obtain ⟨n', hn', -⟩ := h.exists_inode hn
    rw [hn']
    rfl

theorem Frame.loads : τ.loads id = σ.loads id := by
  have hnone := h.isNone id
  rw [← not_isSome, ← not_isSome, Bool.not_inj_iff] at hnone
  rw [State.loads, State.loads, hnone]

theorem Frame.direntGetInode (dir : Dirent) : τ.direntGetInode dir = σ.direntGetInode dir := by
  unfold State.direntGetInode
  cases hn : σ.inode dir.ino with
  | none => rw [h.inode_none hn]
  | some n =>
    obtain ⟨n', hn', -, -, hmount⟩ := h.exists_inode hn
    simp only [hn', hmount, h.isNone, h.loads, h.rootid, h.root, h.upMount]

theorem Frame.direntLookup (hplace : ¬ places (node, name)) :
    τ.direntLookup node name = σ.direntLookup node name := by
  rw [State.direntLookup, State.direntLookup, h.entry node name hplace]

end

/-! ### Ways to directories -/

theorem Frame.enter (h : Frame places σ τ) (hends : σ.DeadEnds places)
    (hnested : ∀ path id found, nested path id = .ok found → σ.isDir found.node = true →
      nested' path id = .ok found) {created : Bool}
    (hlookup : σ.direntLookup node name = some dir)
    (henter : σ.enter nested node dir true created = .ok next) (hdir : σ.isDir next.node = true) :
    ¬ places (node, name) ∧ τ.enter nested' node dir true created = .ok next := by
  unfold State.enter at henter ⊢
  rw [h.direntGetInode]
  cases hget : σ.direntGetInode dir with
  | none =>
    rw [hget] at henter
    cases henter
  | some id =>
    rw [hget] at henter
    simp only [Bool.and_true, h.isLnk, h.readlink] at henter ⊢
    have hplace : σ.isDir id = true ∨ σ.isLnk id = true → ¬ places (node, name) := by
      intro hleads hplace
      obtain ⟨hnotdir, hnotlnk⟩ := hends node name dir id hplace hlookup hget
      rcases hleads with hisdir | hislnk
      · rw [hnotdir] at hisdir
        cases hisdir
      · rw [hnotlnk] at hislnk
        cases hislnk
    by_cases hlnk : σ.isLnk id = true
    · refine ⟨hplace (.inr hlnk), ?_⟩
      rw [if_pos hlnk] at henter ⊢
      cases hlink : nested (σ.readlink id) node with
      | error e =>
        rw [hlink] at henter
        cases henter
      | ok found =>
        rw [hlink] at henter
        obtain rfl := ok.inj henter
        rw [hnested _ _ _ hlink hdir]
    · rw [if_neg hlnk] at henter ⊢
      obtain rfl := ok.inj henter
      exact ⟨hplace (.inl hdir), rfl⟩

theorem isDir_of_descend (h : σ.descend nested found segments = .ok next)
    (hdir : σ.isDir next.node = true) : σ.isDir found.node = true := by
  induction segments with
  | nil =>
    obtain rfl := ok.inj h
    exact hdir
  | cons segment rest ih =>
    rw [descend] at h
    split at h
    · exact ih h
    · split at h
      · cases h
      · next hlookup => exact (inodeLookupDirent_eq_ok.mp hlookup).1

theorem Frame.descend (h : Frame places σ τ) (hends : σ.DeadEnds places)
    (hnested : ∀ path id found, nested path id = .ok found → σ.isDir found.node = true →
      nested' path id = .ok found)
    (hdescend : σ.descend nested found segments = .ok next) (hdir : σ.isDir next.node = true) :
    τ.descend nested' found segments = .ok next := by
  induction segments generalizing found with
  | nil => exact hdescend
  | cons segment rest ih =>
    rw [State.descend] at hdescend ⊢
    split at hdescend
    · next hempty =>
      rw [if_pos hempty]
      exact ih hdescend
    · next hempty =>
      rw [if_neg hempty]
      split at hdescend
      · cases hdescend
      next dir hlookup =>
      split at hdescend
      · cases hdescend
      next middle henter =>
      obtain ⟨hisdir, hentry⟩ := inodeLookupDirent_eq_ok.mp hlookup
      obtain ⟨hplace, henter'⟩ :=
        h.enter hends hnested hentry henter (isDir_of_descend hdescend hdir)
      have hlookup' : τ.inodeLookupDirent found.node segment = .ok dir :=
        inodeLookupDirent_eq_ok.mpr
          ⟨(h.isDir found.node).trans hisdir, (h.direntLookup hplace).trans hentry⟩
      rw [hlookup']
      dsimp only
      rw [henter']
      exact ih hdescend

/-- **Dead ends are not on the way to a directory.** -/
theorem Frame.resolveWith (h : Frame places σ τ) (hends : σ.DeadEnds places)
    (hnested : ∀ path id found, nested path id = .ok found → σ.isDir found.node = true →
      nested' path id = .ok found)
    (hresolve : (σ.resolveWith nested path start ⟨false, false⟩ 0).2 = .ok next)
    (hdir : σ.isDir next.node = true) :
    (τ.resolveWith nested' path start ⟨false, false⟩ 0).2 = .ok next := by
  have hflags : (⟨false, false⟩ : Flags).effective = ⟨false, false⟩ := rfl
  unfold State.resolveWith at hresolve ⊢
  simp only [hflags, walk_eq_descend, h.root] at hresolve ⊢
  split at hresolve
  · cases hresolve
  next hlen =>
  rw [if_neg hlen]
  split at hresolve
  · exact hresolve
  · exact h.descend hends hnested hresolve hdir
  · exact h.descend hends hnested hresolve hdir

theorem Frame.resolveLink (h : Frame places σ τ) (hends : σ.DeadEnds places) (depth : ℕ) :
    ∀ path id found, σ.resolveLink depth path id = .ok found → σ.isDir found.node = true →
      τ.resolveLink depth path id = .ok found := by
  induction depth with
  | zero =>
    intro path id found hresolve
    cases hresolve
  | succ depth ih =>
    intro path id found hresolve hdir
    exact h.resolveWith hends ih hresolve hdir

theorem Frame.cut (h : Frame places σ τ) (hends : σ.DeadEnds places)
    (hcut : σ.cut start path = .ok node) (hdir : σ.isDir node = true) :
    τ.cut start path = .ok node := by
  unfold State.cut at hcut ⊢
  split at hcut
  · next sep _ =>
    cases hresolve : (σ.pathResolve (path.take sep) start ⟨false, false⟩ 0).2 with
    | error e =>
      rw [hresolve] at hcut
      cases hcut
    | ok found =>
      rw [hresolve] at hcut
      obtain rfl := ok.inj hcut
      have hresolve' : (τ.pathResolve (path.take sep) start ⟨false, false⟩ 0).2 = .ok found :=
        h.resolveWith hends (h.resolveLink hends 64) hresolve hdir
      rw [hresolve']
      rfl
  · exact hcut

end Frame

/-! ## Renaming a file -/

/-- A path that ends in a name, other than `..`, and in which the last slash is the first character
only if the call starts at the root. -/
structure PlainPath (σ : State) (start : InodeId) (path : Name) : Prop where
  ne_nil : path ≠ []
  length_le : path.length ≤ 255
  last : path.getLast? ≠ some '/'
  first : strrchrm path '/' = some 0 → start = σ.root
  not_up : cutName path ≠ dotdot

/-- Both paths are plain. `_do_linkat` resolves them from each other's start, and a new path without
a slash from the working directory: that makes no difference. The old path names a file, if
anything; the new one does not name a directory or a symbolic link, and if it names a file the old
one names another one on the same file system. -/
structure PlainRename (σ : State) (oldstart : InodeId) (oldpath : Name) (newstart : InodeId)
    (newpath : Name) : Prop where
  old : σ.PlainPath oldstart oldpath
  new : σ.PlainPath newstart newpath
  crossed : σ.PlainPath newstart oldpath
  old_cut : σ.cut newstart oldpath = σ.cut oldstart oldpath
  new_cut : σ.cut (if strrchrm newpath '/' = none then σ.cwd else oldstart) newpath =
    σ.cut newstart newpath
  file : ∀ dir node, σ.Names oldstart oldpath dir node →
    node = dir.ino ∧ σ.isDir node = false ∧ σ.isLnk node = false
  replaced : ∀ dir node, σ.Names newstart newpath dir node → σ.isDir node = false ∧
    σ.isLnk node = false ∧ ∃ dir' node', σ.Names oldstart oldpath dir' node' ∧
      dir'.key ≠ dir.key ∧ node'.fsid = dir.parent.fsid

/-- The call fails before it has changed anything: the new path is not removed, and it is not linked
either, if that is tried because the path names nothing. -/
def Untouched (σ : State) (cache : Cache) (oldstart : InodeId) (oldpath : Name)
    (newstart : InodeId) (newpath : Name) : Prop :=
  ∃ e, σ.unlinkAny cache newstart newpath = .error e ∧
    (e = .enoent → ∃ e', σ.doLinkat oldstart oldpath newstart newpath true = .error e')

section Rename

variable {σ τ : State} {start oldstart newstart node parent target : InodeId}
  {path oldpath newpath name : Name}
  {dir : Dirent} {cache cache' : Cache} {places : InodeId × Name → Prop}

section

variable (h : σ.PlainPath start path)

include h

theorem PlainPath.names_iff : σ.Names start path dir node ↔
    ∃ parent, σ.cut start path = .ok parent ∧ σ.isDir parent = true ∧
      σ.direntLookup parent (cutName path) = some dir ∧ σ.direntGetInode dir = some node := by
  unfold Names
  rw [pathResolve_eq_cut h.ne_nil h.length_le h.last h.first]
  cases hcut : σ.cut start path with
  | error e => simp
  | ok parent =>
    simp only [ok.injEq, exists_eq_left']
    exact last_nofollow

theorem PlainPath.frame (hframe : Frame places σ τ) : τ.PlainPath start path :=
  ⟨h.ne_nil, h.length_le, h.last, fun hsep => (h.first hsep).trans hframe.root.symm, h.not_up⟩

theorem PlainPath.pathResolve (hcut : σ.cut start path = .ok parent)
    (hparent : σ.isDir parent = true) (hlookup : σ.direntLookup parent (cutName path) = some dir)
    (hget : σ.direntGetInode dir = some node) (hlnk : σ.isLnk node = false) :
    (σ.pathResolve path start ⟨false, false⟩ 0).2 = .ok ⟨some dir, node, false⟩ := by
  rw [pathResolve_eq_cut h.ne_nil h.length_le h.last h.first, hcut]
  simp only [State.last, inodeLookupDirent_eq_ok.mpr ⟨hparent, hlookup⟩, enter, hget, hlnk,
    Bool.false_and, Bool.false_eq_true, if_false]

theorem PlainPath.names_of_pathResolve {found : Found}
    (hresolve : (σ.pathResolve path start ⟨false, false⟩ 0).2 = .ok found) :
    ∃ dir node, σ.Names start path dir node := by
  rw [pathResolve_eq_cut h.ne_nil h.length_le h.last h.first] at hresolve
  split at hresolve
  · cases hresolve
  next parent hcut =>
  unfold State.last at hresolve
  split at hresolve
  · next dir hlookup =>
    obtain ⟨hparent, hentry⟩ := inodeLookupDirent_eq_ok.mp hlookup
    unfold enter at hresolve
    split at hresolve
    · cases hresolve
    next node hget =>
    exact ⟨dir, node, h.names_iff.mpr ⟨parent, hcut, hparent, hentry, hget⟩⟩
  · cases hresolve

end

theorem Frame.mono {places' : InodeId × Name → Prop} (h : Frame places σ τ)
    (hsub : ∀ place, places place → places' place) : Frame places' σ τ :=
  ⟨fun node name hplace => h.entry node name fun h' => hplace (hsub _ h'), h.attributes, h.root,
    h.cwd, h.rootid, h.upMount⟩

theorem Frame.insert (h : Frame places σ τ) (hplace : places (node, name)) (inoid : ℕ) :
    Frame places σ (τ.modify node (·.insert name inoid)) := by
  refine h.modify (fun n other hother => lookup_insert_of_ne ?_) fun n => rfl
  rintro rfl
  exact hother hplace

theorem Frame.addLink (h : Frame places σ τ) (id : InodeId) :
    Frame places σ (τ.modify id Inode.addLink) :=
  h.modify (fun n _ _ => by rw [Inode.lookup, n.dirents_addLink, Inode.lookup]) fun n => by
    rw [Inode.addLink]

theorem Frame.direntRemove (h : Frame places σ τ) (hplace : places dir.key) :
    Frame places σ (τ.direntRemove dir) := by
  have hdelete : Frame places σ (τ.modify dir.parent (·.delete dir.name)) := by
    refine h.modify (fun n other hother => ?_) fun n => rfl
    rw [lookup_delete, if_neg]
    rintro rfl
    exact hother hplace
  unfold State.direntRemove
  split
  · exact hdelete
  · refine hdelete.modify (fun n _ _ => ?_) fun n => ?_
    · rw [Inode.lookup, n.dirents_dropLink, Inode.lookup]
    · rw [dropLink]

theorem direntGetInode_of_name (hget : σ.direntGetInode dir = some dir.ino)
    (hdir : dir.name ≠ dotdot) (parent : InodeId) (hname : name ≠ dotdot) :
    σ.direntGetInode ⟨parent, name, dir.ino⟩ = some dir.ino := by
  unfold direntGetInode at hget ⊢
  simp only [hdir, hname, false_and, if_false] at hget ⊢
  exact hget

section

variable (h : σ.PlainRename oldstart oldpath newstart newpath)

include h

theorem doLinkat_of_names (hcut : σ.cut newstart newpath = .ok parent)
    (hparent : σ.isDir parent = true) (hframe : Frame (· = (parent, cutName newpath)) σ τ)
    (hends : σ.DeadEnds (· = (parent, cutName newpath)))
    (hnone : τ.entry parent (cutName newpath) = none) (hnames : σ.Names oldstart oldpath dir node)
    (hkey : dir.key ≠ (parent, cutName newpath)) (hfs : node.fsid = parent.fsid) :
    ∃ n, τ.inode parent = some n ∧ n.lookup (cutName newpath) = none ∧
      τ.doLinkat oldstart oldpath newstart newpath true = .ok
        ((τ.modify parent (·.insert (cutName newpath) node.inoid)).modify node Inode.addLink) := by
  obtain ⟨q, hq, hqdir, hlookup, hget⟩ := h.old.names_iff.mp hnames
  obtain ⟨-, -, hlnk⟩ := h.file dir node hnames
  obtain ⟨hdirparent, hdirname, -⟩ := direntLookup_eq_some hlookup
  have hplace : (q, cutName oldpath) ≠ (parent, cutName newpath) := by
    rwa [← hdirparent, ← hdirname]
  -- Both paths lead where they led before, and from either start.
  have hnew : τ.cut (if strrchrm newpath '/' = none then τ.cwd else oldstart) newpath =
      .ok parent := by
    rw [hframe.cwd]
    exact hframe.cut hends (h.new_cut.trans hcut) hparent
  have hresolve : (τ.pathResolve oldpath newstart ⟨false, false⟩ 0).2 =
      .ok ⟨some dir, node, false⟩ :=
    (h.crossed.frame hframe).pathResolve (hframe.cut hends (h.old_cut.trans hq) hqdir)
      ((hframe.isDir q).trans hqdir) ((hframe.direntLookup hplace).trans hlookup)
      ((hframe.direntGetInode dir).trans hget) ((hframe.isLnk node).trans hlnk)
  obtain ⟨n, hn, hmode⟩ := exists_of_isDir ((hframe.isDir parent).trans hparent)
  have hfree : n.lookup (cutName newpath) = none := by
    rwa [entry, hn, bind_some] at hnone
  refine ⟨n, hn, hfree, ?_⟩
  have hlen := h.new.length_le
  unfold doLinkat
  rw [if_neg (by omega), hnew]
  dsimp only
  rw [hresolve]
  dsimp only
  rw [if_neg (by simp)]
  exact fsLink_eq_ok hn hmode node hfs.symm hfree

/-- **The entry is linked and the old one unlinked.** -/
theorem linkAndUnlink_of_names (hcut : σ.cut newstart newpath = .ok parent)
    (hparent : σ.isDir parent = true) (hframe : Frame (· = (parent, cutName newpath)) σ τ)
    (hends : σ.DeadEnds (· = (parent, cutName newpath)))
    (hnone : τ.entry parent (cutName newpath) = none) (hnames : σ.Names oldstart oldpath dir node)
    (hkey : dir.key ≠ (parent, cutName newpath)) (hfs : node.fsid = parent.fsid) (cache : Cache) :
    ∃ υ, τ.linkAndUnlink cache oldstart oldpath newstart newpath = (υ, .ok ()) ∧
      Moves σ υ oldstart oldpath newstart newpath := by
  obtain ⟨n, hn, hfree, hlink⟩ :=
    doLinkat_of_names h hcut hparent hframe hends hnone hnames hkey hfs
  obtain ⟨q, hq, hqdir, hlookup, hget⟩ := h.old.names_iff.mp hnames
  obtain ⟨hino, hfile, hlnk⟩ := h.file dir node hnames
  obtain ⟨hdirparent, hdirname, hentry⟩ := direntLookup_eq_some hlookup
  have hdirkey : dir.key = (q, cutName oldpath) := by rw [Dirent.key, hdirparent, hdirname]
  have hplace : (q, cutName oldpath) ≠ (parent, cutName newpath) := hdirkey ▸ hkey
  set τ' := (τ.modify parent (·.insert (cutName newpath) node.inoid)).modify node addLink
  have hframe' : Frame (· = (parent, cutName newpath)) σ τ' := (hframe.insert rfl _).addLink _
  -- The old entry is still there, and is removed.
  have hunlink : τ'.sysUnlinkat cache oldstart oldpath false = .ok (τ'.direntRemove dir) := by
    rw [sysUnlinkat_eq_cut h.old.length_le, hframe'.cut hends hq hqdir]
    exact fsUnlink_eq_ok ((hframe'.isDir q).trans hqdir)
      ((hframe'.direntLookup hplace).trans hlookup) ((hframe'.direntGetInode dir).trans hget)
      ((hframe'.isDir node).trans hfile)
  have hresult : τ.linkAndUnlink cache oldstart oldpath newstart newpath =
      (τ'.direntRemove dir, .ok ()) := by
    simp only [linkAndUnlink, hlink, unlinkAny, hunlink]
  -- Neither of the two entries leads on.
  set places : InodeId × Name → Prop :=
    fun place => place = (parent, cutName newpath) ∨ place = dir.key
  have hends' : σ.DeadEnds places := by
    rintro id name dir' next (hid | hid) hlookup' hget'
    · exact hends id name dir' next hid hlookup' hget'
    · obtain ⟨rfl, rfl⟩ := Prod.mk.inj (hid.trans hdirkey)
      obtain rfl := some.inj (hlookup.symm.trans hlookup')
      obtain rfl := some.inj (hget.symm.trans hget')
      exact ⟨hfile, hlnk⟩
  have hframe'' : Frame places σ (τ'.direntRemove dir) :=
    (hframe'.mono fun _ => .inl).direntRemove (.inr rfl)
  have hentries : ∀ id name, (τ'.direntRemove dir).entry id name =
      if (id, name) = (parent, cutName newpath) then some node.inoid
      else if (id, name) = dir.key then none else σ.entry id name := by
    intro id name
    rw [entry_direntRemove, entry_modify_of_dirents dirents_addLink, entry_modify_insert hn hfree]
    simp only [← Prod.mk.injEq]
    by_cases hold : (id, name) = dir.key
    · have hnew : (id, name) ≠ (parent, cutName newpath) := hold ▸ hkey
      have hold' : (id, name) = (dir.parent, dir.name) := hold
      rw [if_pos hold', if_neg hnew, if_pos hold]
    · have hold' : (id, name) ≠ (dir.parent, dir.name) := hold
      rw [if_neg hold, if_neg hold']
      split
      · rfl
      · next hnew => exact hframe.entry id name hnew
  refine
    ⟨_, hresult, dir, node, ⟨parent, cutName newpath, node⟩, hnames, ?_, fun _ dir' node' => ?_,
    fun id name => ?_, hframe''.attributes⟩
  · refine (h.new.frame hframe'').names_iff.mpr ⟨parent, hframe''.cut hends' hcut hparent,
      (hframe''.isDir parent).trans hparent, ?_, ?_⟩
    · rw [direntLookup, hentries, if_pos rfl, map_some, ← hfs]
    · rw [hframe''.direntGetInode]
      subst hino
      exact direntGetInode_of_name hget (by rw [hdirname]; exact h.old.not_up) parent h.new.not_up
  · rw [(h.old.frame hframe'').names_iff]
    rintro ⟨q', hq', -, hlookup', -⟩
    obtain rfl := ok.inj ((hframe''.cut hends' hq hqdir).symm.trans hq')
    rw [direntLookup, hentries, if_neg hplace, if_pos hdirkey.symm] at hlookup'
    cases hlookup'
  · rw [hentries, hfile]
    simp [Dirent.key]

end

theorem renames_of_ok
    (hresult : σ.sysRenameat cache cache' oldstart oldpath newstart newpath = (τ, .ok ()))
    (hmoves : Moves σ τ oldstart oldpath newstart newpath) :
    σ.Renames cache cache' oldstart oldpath newstart newpath := by
  constructor
  · intro υ hυ
    obtain rfl := (Prod.mk.inj (hresult.symm.trans hυ)).1
    exact hmoves
  · intro υ e hυ _
    cases (Prod.mk.inj (hresult.symm.trans hυ)).2

variable {e : Errno}

theorem renames_of_error
    (hresult : σ.sysRenameat cache cache' oldstart oldpath newstart newpath = (σ, .error e)) :
    σ.Renames cache cache' oldstart oldpath newstart newpath := by
  constructor
  · intro υ hυ
    cases (Prod.mk.inj (hresult.symm.trans hυ)).2
  · intro υ e' hυ _
    rw [(Prod.mk.inj (hresult.symm.trans hυ)).1]

theorem unlinkAny_of_cut_error (hlen : path.length ≤ 255) (hcut : σ.cut start path = .error e) :
    σ.unlinkAny cache start path = .error e := by
  have hunlink : ∀ removedir, σ.sysUnlinkat cache start path removedir = .error e := by
    intro removedir
    unfold cut at hcut
    unfold sysUnlinkat
    rw [if_neg (by omega)]
    split
    · next sep hsep =>
      rw [hsep] at hcut
      split
      · next e' hresolve =>
        simp only [hresolve] at hcut
        exact congrArg _ (error.inj hcut)
      · next parent hresolve =>
        simp only [hresolve] at hcut
        cases hcut
    · next hsep =>
      rw [hsep] at hcut
      cases hcut
  unfold unlinkAny
  rw [hunlink false]
  split
  · exact hunlink true
  · rfl

theorem linkAndUnlink_of_error
    (hlink : σ.doLinkat oldstart oldpath newstart newpath true = .error e) :
    σ.linkAndUnlink cache oldstart oldpath newstart newpath = (σ, .error e) := by
  unfold linkAndUnlink
  rw [hlink]

theorem fsUnlink_enoent (h : σ.fsUnlink parent name = .error .enoent) :
    σ.isDir parent = true ∧ σ.entry parent name = none := by
  unfold fsUnlink at h
  split at h
  · cases h
  next n hn =>
  split at h
  · cases h
  split at h
  · cases h
  next hmode =>
  split at h
  · next hlookup =>
    exact ⟨by simpa [isDir, hn] using hmode, by simpa [direntLookup] using hlookup⟩
  · split at h
    · cases h
    · split at h <;> cases h

theorem fsUnlink_eisdir (h : σ.fsUnlink parent name = .error .eisdir) :
    σ.isDir parent = true ∧ ∃ dir target, σ.direntLookup parent name = some dir ∧
      σ.direntGetInode dir = some target ∧ σ.isDir target = true := by
  unfold fsUnlink at h
  split at h
  · cases h
  next n hn =>
  split at h
  · cases h
  split at h
  · cases h
  next hmode =>
  split at h
  · cases h
  next dir hlookup =>
  split at h
  · cases h
  next target hget =>
  split at h
  · next hdir => exact ⟨by simpa [isDir, hn] using hmode, dir, target, hlookup, hget, hdir⟩
  · cases h

theorem fsid_of_fsLink (h : σ.fsLink parent name node = .ok τ) : parent.fsid = node.fsid := by
  unfold fsLink at h
  split at h
  · cases h
  split at h
  · cases h
  split at h
  · cases h
  split at h
  · cases h
  · next hfs => exact not_not.mp hfs

/-- **The new path is replaced**: it is removed first, and the rest cannot fail. -/
theorem renames_of_replaced (h : σ.PlainRename oldstart oldpath newstart newpath)
    (hcut : σ.cut newstart newpath = .ok parent)
    (hunlink : σ.fsUnlink parent (cutName newpath) = .ok τ) :
    σ.Renames cache cache' oldstart oldpath newstart newpath := by
  obtain ⟨hparent, dir, target, hlookup, hget, -, rfl⟩ := fsUnlink_inv hunlink
  have hnamed := h.new.names_iff.mpr ⟨parent, hcut, hparent, hlookup, hget⟩
  obtain ⟨hfile, hlnk, dir', node', hnames, hkey, hfs⟩ := h.replaced dir target hnamed
  obtain ⟨hdirparent, hdirname, -⟩ := direntLookup_eq_some hlookup
  have hdirkey : dir.key = (parent, cutName newpath) := by rw [Dirent.key, hdirparent, hdirname]
  have hframe : Frame (· = (parent, cutName newpath)) σ (σ.direntRemove dir) :=
    (Frame.refl _ σ).direntRemove hdirkey
  have hends : σ.DeadEnds (· = (parent, cutName newpath)) := by
    rintro id name dir'' next hid hlookup' hget'
    obtain ⟨rfl, rfl⟩ := Prod.mk.inj hid
    obtain rfl := some.inj (hlookup.symm.trans hlookup')
    obtain rfl := some.inj (hget.symm.trans hget')
    exact ⟨hfile, hlnk⟩
  have hnone : (σ.direntRemove dir).entry parent (cutName newpath) = none := by
    rw [entry_direntRemove, if_pos ⟨hdirparent.symm, hdirname.symm⟩]
  obtain ⟨υ, hresult, hmoves⟩ := linkAndUnlink_of_names h hcut hparent hframe hends hnone hnames
    (hdirkey ▸ hkey) (hdirparent ▸ hfs) cache'
  refine renames_of_ok ?_ hmoves
  rw [← hresult]
  simp only [sysRenameat, unlinkAny, sysUnlinkat_eq_cut h.new.length_le, hcut, hunlink]

/-- **The new path names nothing yet.** -/
theorem renames_of_new (h : σ.PlainRename oldstart oldpath newstart newpath)
    (hcut : σ.cut newstart newpath = .ok parent)
    (hunlink : σ.fsUnlink parent (cutName newpath) = .error .enoent) :
    σ.Renames cache cache' oldstart oldpath newstart newpath := by
  obtain ⟨hparent, hnone⟩ := fsUnlink_enoent hunlink
  have hrest : σ.sysRenameat cache cache' oldstart oldpath newstart newpath =
      σ.linkAndUnlink cache' oldstart oldpath newstart newpath := by
    simp only [sysRenameat, unlinkAny, sysUnlinkat_eq_cut h.new.length_le, hcut, hunlink]
  cases hlink : σ.doLinkat oldstart oldpath newstart newpath true with
  | error e => exact renames_of_error (hrest.trans (linkAndUnlink_of_error hlink))
  | ok τ =>
    -- The link is made, so that there is something to link to, in the same file system.
    have hlen := h.new.length_le
    unfold doLinkat at hlink
    rw [if_neg (by omega), h.new_cut, hcut] at hlink
    dsimp only at hlink
    split at hlink
    · cases hlink
    next target hresolve =>
    rw [if_neg (by simp)] at hlink
    obtain ⟨dir, node, hcrossed⟩ := h.crossed.names_of_pathResolve hresolve
    have hnames : σ.Names oldstart oldpath dir node := by
      rw [h.old.names_iff, ← h.old_cut]
      exact h.crossed.names_iff.mp hcrossed
    obtain ⟨q, hq, hqdir, hlookup, hget⟩ := h.crossed.names_iff.mp hcrossed
    obtain ⟨hdirparent, hdirname, hentry⟩ := direntLookup_eq_some hlookup
    have hfound := h.crossed.pathResolve hq hqdir hlookup hget (h.file dir node hnames).2.2
    obtain rfl := ok.inj (hfound.symm.trans hresolve)
    have hkey : dir.key ≠ (parent, cutName newpath) := by
      rintro hkey
      obtain ⟨rfl, hname⟩ := Prod.mk.inj hkey
      rw [← hname, hdirparent, hdirname, hentry] at hnone
      cases hnone
    have hends : σ.DeadEnds (· = (parent, cutName newpath)) := by
      rintro id name dir' next hid hlookup' -
      obtain ⟨rfl, rfl⟩ := Prod.mk.inj hid
      rw [direntLookup, hnone] at hlookup'
      cases hlookup'
    obtain ⟨υ, hresult, hmoves⟩ := linkAndUnlink_of_names h hcut hparent (Frame.refl _ σ) hends
      hnone hnames hkey (fsid_of_fsLink hlink).symm cache'
    exact renames_of_ok (hrest.trans hresult) hmoves

theorem Untouched.renames (h : σ.Untouched cache oldstart oldpath newstart newpath) :
    σ.Renames cache cache' oldstart oldpath newstart newpath := by
  obtain ⟨e, hunlink, hlink⟩ := h
  by_cases he : e = .enoent
  · obtain ⟨e', hlink⟩ := hlink he
    refine renames_of_error (e := e') ?_
    rw [sysRenameat, hunlink, he]
    exact linkAndUnlink_of_error hlink
  · refine renames_of_error (e := e) ?_
    unfold sysRenameat
    rw [hunlink]
    split
    · next heq => exact absurd (error.inj heq) he
    · next heq => rw [error.inj heq]
    · next heq => cases heq

theorem PlainRename.renames (h : σ.PlainRename oldstart oldpath newstart newpath) :
    σ.Renames cache cache' oldstart oldpath newstart newpath := by
  have hlen := h.new.length_le
  cases hcut : σ.cut newstart newpath with
  | error e =>
    refine Untouched.renames ⟨e, unlinkAny_of_cut_error hlen hcut, fun _ => ⟨e, ?_⟩⟩
    unfold doLinkat
    rw [if_neg (by omega), h.new_cut, hcut]
  | ok parent =>
    cases hunlink : σ.fsUnlink parent (cutName newpath) with
    | ok τ => exact renames_of_replaced h hcut hunlink
    | error e =>
      by_cases he : e = .enoent
      · exact renames_of_new h hcut (he ▸ hunlink)
      -- The new path names no directory, so that the removal is not tried again.
      have he' : e ≠ .eisdir := by
        rintro rfl
        obtain ⟨hparent, dir, target, hlookup, hget, hdir⟩ := fsUnlink_eisdir hunlink
        have hnamed := h.new.names_iff.mpr ⟨parent, hcut, hparent, hlookup, hget⟩
        exact absurd hdir (by rw [(h.replaced dir target hnamed).1]; exact Bool.false_ne_true)
      have hany : σ.unlinkAny cache newstart newpath = .error e := by
        unfold unlinkAny
        rw [sysUnlinkat_eq_cut h.new.length_le, hcut]
        dsimp only
        rw [hunlink]
        split
        · next heq => exact absurd (error.inj heq) he'
        · rfl
      exact Untouched.renames ⟨e, hany, fun heq => absurd heq he⟩

end Rename

end SeaKernel.Vfs.State
