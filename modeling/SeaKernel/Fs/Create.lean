import SeaKernel.Fs.Path

/-!
# Creating the last segment of a path

`fs_path_resolve` with `PATH_CREATE` makes the last segment if its parent does not have it. The
inode is allocated first, and a new directory is linked to itself and to its parent, before the name
is linked. That can fail only if the parent is not a directory, which nobody has tested. Then the
inode is put again: a file has no links and is released, but a directory has a link of its own and
stays, and so does the link to the parent.

## Main results

* `createLast_eq`: creation in a directory succeeds
* `createLast_of_not_isDir`: what is left after it has failed
* `failed_create_keeps_iff`: a failed call changes nothing, unless it orphans a directory
-/

namespace SeaKernel.Vfs

open Function List Option Nat Inode

/-- The segments of a path, after the slashes at its end and the first one. -/
def segments (path : Name) : List Name :=
  match stripSlashes path with
  | '/' :: path => path.splitOn '/'
  | path => path.splitOn '/'

/-- The last segment. -/
def lastSegment (path : Name) : Name := (segments path).getLast?.getD []

namespace State

/-- Where the first segment is looked up. -/
def origin (σ : State) (path : Name) (start : InodeId) : InodeId :=
  match stripSlashes path with
  | '/' :: _ => σ.root
  | _ => start

/-- Where all but the last segment lead. -/
def parentOf (σ : State) (path : Name) (start : InodeId) : Except Errno InodeId :=
  (σ.descend (σ.resolveLink 64) ⟨none, σ.origin path start, false⟩ (segments path).dropLast).map
    Found.node

/-- The same inodes are allocated, with the same entries and numbers of links. -/
def KeepsTree (σ τ : State) : Prop :=
  ∀ id, (τ.inode id).map (fun n => (n.links, n.dirents)) =
    (σ.inode id).map fun n => (n.links, n.dirents)

/-- A directory is to be made in something that is not a directory. -/
def OrphansDirectory (σ : State) (path : Name) (start : InodeId) (mode : ℕ) : Prop :=
  path.length ≤ 255 ∧ lastSegment path ≠ [] ∧ sIsdir mode = true ∧
    ∃ node n, σ.parentOf path start = .ok node ∧ σ.inode node = some n ∧ sIsdir n.mode = false

/-! ## Segments -/

section Segments

variable {σ : State} {nested : Name → InodeId → Except Errno Found} {flags : Flags} {mode : ℕ}
  {path : Name} {start : InodeId}

theorem splitOn_eq_dropLast (path : Name) (c : Char) : path.splitOn c =
    (path.splitOn c).dropLast ++ [(path.splitOn c).getLast?.getD []] := by
  have hne := splitOn_ne_nil c path
  rw [getLast?_eq_some_getLast hne, getD_some, dropLast_append_getLast hne]

theorem resolveWith_eq_walk (hlen : path.length ≤ 255) (hroot : stripSlashes path ≠ ['/']) :
    σ.resolveWith nested path start flags mode =
      σ.walk nested flags.effective mode ⟨none, σ.origin path start, false⟩ (segments path) := by
  unfold segments origin
  split
  · next q hstrip =>
    exact resolveWith_of_root hlen hstrip fun hq => hroot (by rw [hstrip, hq])
  · next hne => exact resolveWith_of_ne hlen fun q hq => hne q hq

theorem segments_eq_append (path : Name) :
    segments path = (segments path).dropLast ++ [lastSegment path] := by
  unfold lastSegment segments
  split
  · exact splitOn_eq_dropLast ..
  · exact splitOn_eq_dropLast ..

theorem resolveWith_of_lastSegment_nil (hlast : lastSegment path = []) :
    (σ.resolveWith nested path start flags mode).1 = σ := by
  by_cases hlen : path.length ≤ 255
  · by_cases hroot : stripSlashes path = ['/']
    · rw [resolveWith_slash hlen hroot]
    · rw [resolveWith_eq_walk hlen hroot, segments_eq_append, walk_append, hlast]
      split <;> rfl
  · rw [resolveWith, if_pos (by omega)]

/-- **The last segment is looked up, or created, where the others lead.** -/
theorem resolveWith_eq_last (hlen : path.length ≤ 255) (hlast : lastSegment path ≠ []) :
    σ.resolveWith nested path start flags mode =
      match σ.descend nested ⟨none, σ.origin path start, false⟩ (segments path).dropLast with
      | .error e => (σ, .error e)
      | .ok found => σ.last nested flags.effective mode found.node (lastSegment path) := by
  have hroot : stripSlashes path ≠ ['/'] := by
    intro hstrip
    unfold lastSegment segments at hlast
    rw [hstrip] at hlast
    exact hlast rfl
  rw [resolveWith_eq_walk hlen hroot]
  conv_lhs => rw [segments_eq_append]
  exact walk_concat hlast rfl

end Segments

/-! ## The new inode -/

section Create

variable {σ τ : State} {node target id : InodeId} {name : Name} {mode : ℕ} {n : Inode}
  {dir : Dirent}

theorem sIsdir_mod (mode : ℕ) : sIsdir (mode % 2 ^ 16) = sIsdir mode := by
  have hmask : mode % 2 ^ 16 &&& sIfmt = mode &&& sIfmt := by
    apply eq_of_testBit_eq
    intro i
    rw [testBit_and, testBit_and, testBit_mod_two_pow]
    by_cases hi : i < 16
    · simp [hi]
    · have hpow : 2 ^ 16 ≤ 2 ^ i := Nat.pow_le_pow_right two_pos (not_lt.mp hi)
      have hzero : sIfmt.testBit i = false :=
        testBit_lt_two_pow (lt_of_lt_of_le (by decide) hpow)
      simp [hzero]
  rw [sIsdir, sIsdir, hmask]

theorem sIsdir_default (mode : ℕ) :
    sIsdir (if mode &&& sIfmt = 0 then mode ||| sIfreg else mode) = sIsdir mode := by
  split
  · next hzero =>
    have hreg : (mode ||| sIfreg) &&& sIfmt = sIfreg := by
      rw [and_or_distrib_right, hzero, zero_or]
      decide
    rw [sIsdir, sIsdir, hreg, hzero]
    rfl
  · rfl

/-- What `__create_last` has made before it links the name. -/
structure Prepared (σ κ : State) (node target : InodeId) (mode : ℕ) : Prop where
  new : ∃ t, κ.inode target = some t ∧ t.mount = none ∧ t.links = if sIsdir mode then 1 else 0
  parent : κ.inode node = (σ.inode node).map fun n => if sIsdir mode then n.addLink else n
  rest : ∀ id, id ≠ target → id ≠ node → κ.inode id = σ.inode id
  rootid : κ.rootid = σ.rootid

theorem ne_allocId (hnode : σ.inode node = some n) : node ≠ σ.allocId node.fsid := by
  intro heq
  have hnone := σ.fresh node (by rw [heq]; exact lt_succ_self _)
  rw [hnode] at hnone
  cases hnone

theorem inode_allocInode_of_ne (hid : id ≠ σ.allocId node.fsid) (f : Inode → Inode) :
    ((σ.allocInode node.fsid).modify (σ.allocId node.fsid) f).inode id = σ.inode id := by
  rw [inode_modify_of_ne hid]
  exact update_of_ne hid ..

theorem inode_allocInode_self (fsid : ℕ) (f : Inode → Inode) :
    ((σ.allocInode fsid).modify (σ.allocId fsid) f).inode (σ.allocId fsid) =
      some (f Inode.fresh) := by
  rw [inode_modify_self, allocInode]
  dsimp only
  rw [update_self]
  rfl

theorem linkDots_eq {t : Inode} (node : InodeId) (ht : σ.inode target = some t)
    (hmode : sIsdir t.mode = true) (hfs : target.fsid = node.fsid) (hdirents : t.dirents = []) :
    σ.linkDots node target =
      (((σ.modify target (·.insert dot target.inoid)).modify target Inode.addLink).modify target
        (·.insert dotdot node.inoid)).modify node Inode.addLink := by
  have hnone : ∀ name, t.lookup name = none := by
    intro name
    rw [Inode.lookup, hdirents]
    rfl
  have hself := fsLink_eq_ok ht hmode target rfl (hnone dot)
  have hlinked : ((σ.modify target (·.insert dot target.inoid)).modify target
      addLink).inode target = some (t.insert dot target.inoid).addLink := by
    rw [inode_modify_self, inode_modify_self, ht]
    rfl
  have hmode' : sIsdir (t.insert dot target.inoid).addLink.mode = true := by
    rw [addLink]
    exact hmode
  have hup : (t.insert dot target.inoid).addLink.lookup dotdot = none := by
    rw [Inode.lookup, Inode.dirents_addLink]
    exact (lookup_insert (hnone dot)).trans (hnone dotdot)
  unfold linkDots
  rw [hself]
  dsimp only
  rw [fsLink_eq_ok hlinked hmode' node hfs hup]

/-- **The new inode and the link to its parent**, before the name is linked. -/
theorem createInode_prepared (hnode : σ.inode node = some n) (mode : ℕ) :
    Prepared σ (σ.createInode node mode) node (σ.allocId node.fsid) mode := by
  have hne := ne_allocId hnode
  unfold createInode
  dsimp only
  generalize hmode' : (if mode &&& sIfmt = 0 then mode ||| sIfreg else mode) = mode'
  have hsame : sIsdir mode' = sIsdir mode := by
    rw [← hmode']
    exact sIsdir_default mode
  have hself := inode_allocInode_self (σ := σ) node.fsid (·.setMode mode')
  have hother : ∀ id, id ≠ σ.allocId node.fsid → ((σ.allocInode node.fsid).modify
      (σ.allocId node.fsid) (·.setMode mode')).inode id = σ.inode id :=
    fun id hid => inode_allocInode_of_ne hid _
  by_cases hdir : sIsdir mode = true
  · have hdir' : sIsdir (Inode.fresh.setMode mode').mode = true := by
      rw [Inode.setMode, sIsdir_mod, hsame, hdir]
    rw [hsame, if_pos hdir, linkDots_eq node hself hdir' rfl rfl]
    refine ⟨⟨((Inode.fresh.setMode mode').insert dot (σ.allocId node.fsid).inoid).addLink.insert
      dotdot node.inoid, ?_, rfl, ?_⟩, ?_, fun id hid hid' => ?_, rfl⟩
    · rw [inode_modify_of_ne hne.symm, inode_modify_self, inode_modify_self, inode_modify_self,
        hself]
      rfl
    · rw [if_pos hdir]
      rfl
    · rw [inode_modify_self, inode_modify_of_ne hne, inode_modify_of_ne hne, inode_modify_of_ne hne,
        hother node hne]
      simp only [hdir, if_true]
    · rw [inode_modify_of_ne hid', inode_modify_of_ne hid, inode_modify_of_ne hid,
        inode_modify_of_ne hid, hother id hid]
  · rw [hsame, if_neg hdir]
    refine ⟨⟨_, hself, rfl, ?_⟩, ?_, fun id hid _ => hother id hid, rfl⟩
    · rw [if_neg hdir]
      rfl
    · rw [hother node hne]
      simp only [hdir, Bool.false_eq_true, if_false, Option.map_id_fun', id_eq]

theorem direntGetInode_eq_self (hino : σ.inode dir.ino = some n) (hmount : n.mount = none)
    (hroot : dir.ino.inoid ≠ σ.rootid dir.ino.fsid) : σ.direntGetInode dir = some dir.ino := by
  simp [direntGetInode, hino, hmount, hroot]

/-- What `__create_last` has made when it succeeds. -/
def created (σ : State) (node : InodeId) (name : Name) (mode : ℕ) : State :=
  ((σ.createInode node mode).modify node
    (·.insert name (σ.allocId node.fsid).inoid)).modify (σ.allocId node.fsid) Inode.addLink

variable (hnode : σ.inode node = some n)

include hnode

section

variable (hdir : sIsdir n.mode = true)

include hdir

variable (hname : n.lookup name = none)

include hname

theorem created_spec (mode : ℕ) :
    (∃ t, (σ.created node name mode).inode (σ.allocId node.fsid) = some t ∧ t.mount = none ∧
      t.links ≠ 0) ∧
    (σ.createInode node mode).fsLink node name (σ.allocId node.fsid) =
      .ok (σ.created node name mode) ∧
    (σ.created node name mode).inodeLookupDirent node name =
      .ok ⟨node, name, σ.allocId node.fsid⟩ := by
  have hne := ne_allocId hnode
  obtain ⟨⟨t, ht, hmount, hlinks⟩, hparent, -, -⟩ := createInode_prepared hnode mode
  rw [hnode, map_some] at hparent
  unfold created
  set κ := σ.createInode node mode
  set target := σ.allocId node.fsid
  obtain ⟨n', hn', hmode', hdirents⟩ : ∃ n', κ.inode node = some n' ∧ n'.mode = n.mode ∧
      n'.dirents = n.dirents := by
    refine ⟨_, hparent, ?_, ?_⟩
    · split <;> rfl
    · split
      · exact n.dirents_addLink
      · rfl
  have hnone : n'.lookup name = none := by
    rw [Inode.lookup, hdirents]
    exact hname
  refine ⟨⟨t.addLink, ?_, ?_, ?_⟩, fsLink_eq_ok hn' (hmode' ▸ hdir) target rfl hnone, ?_⟩
  · rw [inode_modify_self, inode_modify_of_ne hne.symm, ht]
    rfl
  · rw [addLink]
    exact hmount
  · change (t.links + 1) % 2 ^ 16 ≠ 0
    rw [hlinks]
    split <;> decide
  · have hτnode : ((κ.modify node (·.insert name target.inoid)).modify target
        addLink).inode node = some (n'.insert name target.inoid) := by
      rw [inode_modify_of_ne hne, inode_modify_self, hn']
      rfl
    refine inodeLookupDirent_eq_ok.mpr ⟨?_, ?_⟩
    · rw [isDir, hτnode, any_some]
      exact (congrArg sIsdir hmode').trans hdir
    · rw [direntLookup, entry, hτnode, bind_some, lookup_insert hnone, if_pos rfl]
      rfl

/-- **Creation in a directory succeeds.** -/
theorem createLast_eq (mode : ℕ) : σ.createLast node name mode =
      (σ.created node name mode, .ok ⟨node, name, σ.allocId node.fsid⟩) := by
  obtain ⟨⟨t, ht, -, hlinks⟩, hlink, hlookup⟩ := created_spec hnode hdir hname mode
  have hput : (σ.created node name mode).inodePut (σ.allocId node.fsid) =
      σ.created node name mode := by
    rw [inodePut, ht]
    exact if_neg hlinks
  unfold createLast
  simp only [hnode, checkPerm, Bool.true_eq_false, if_false]
  rw [hlink]
  dsimp only
  rw [hput, hlookup]

theorem createLast_of_isDir (nested : Name → InodeId → Except Errno Found) (mode : ℕ) :
    ∃ dir found, (σ.createLast node name mode).2 = .ok dir ∧
      (σ.createLast node name mode).1.enter nested node dir false true = .ok found := by
  obtain ⟨⟨t, ht, hmount, -⟩, -, -⟩ := created_spec hnode hdir hname mode
  have hget : (σ.created node name mode).direntGetInode ⟨node, name, σ.allocId node.fsid⟩ =
      some (σ.allocId node.fsid) := by
    refine direntGetInode_eq_self ht hmount ?_
    have hle := σ.rootid_le node.fsid
    have hroot : (σ.created node name mode).rootid = σ.rootid :=
      (createInode_prepared hnode mode).rootid
    rw [hroot]
    exact (lt_succ_of_le hle).ne'
  rw [createLast_eq hnode hdir hname]
  refine ⟨_, ⟨some ⟨node, name, σ.allocId node.fsid⟩, σ.allocId node.fsid, true⟩, rfl, ?_⟩
  simp only [enter, hget, Bool.and_false, Bool.false_eq_true, if_false]

end

/-- **What is left of a creation in something that is not a directory**: nothing of a file, and all
of a directory. -/
theorem createLast_of_not_isDir (hdir : sIsdir n.mode = false) (name : Name) (mode : ℕ) :
    (σ.createLast node name mode).2 = .error .enotdir ∧
      (KeepsTree σ (σ.createLast node name mode).1 ↔ sIsdir mode = false) := by
  have hne := ne_allocId hnode
  obtain ⟨⟨t, ht, -, hlinks⟩, hparent, hrest, -⟩ := createInode_prepared hnode mode
  rw [hnode, map_some] at hparent
  have hnone : σ.inode (σ.allocId node.fsid) = none := σ.fresh _ (lt_succ_self _)
  have hlink : (σ.createInode node mode).fsLink node name (σ.allocId node.fsid) =
      .error .enotdir := by
    refine fsLink_eq_error hparent ?_
    split
    · exact hdir
    · exact hdir
  have hcreate : σ.createLast node name mode =
      ((σ.createInode node mode).inodePut (σ.allocId node.fsid), .error .enotdir) := by
    unfold createLast
    simp only [hnode, checkPerm, Bool.true_eq_false, if_false]
    rw [hlink]
  rw [hcreate]
  refine ⟨rfl, ?_⟩
  rw [inodePut, ht]
  dsimp only
  by_cases hmode : sIsdir mode = true
  · rw [if_pos hmode] at hlinks
    rw [if_neg (by omega), hmode]
    refine iff_of_false (fun hkeeps => ?_) (by simp)
    have := hkeeps (σ.allocId node.fsid)
    rw [ht, hnone] at this
    cases this
  · rw [if_neg hmode] at hlinks
    rw [if_pos hlinks]
    refine iff_of_true (fun id => ?_) (by simpa using hmode)
    simp only [releaseInode]
    by_cases hid : id = σ.allocId node.fsid
    · rw [hid, update_self, hnone]
    · rw [update_of_ne hid]
      by_cases hid' : id = node
      · rw [hid', hparent, hnode, if_neg hmode]
      · rw [hrest id hid hid']

end Create

/-! ## Failed calls -/

section Failed

variable {σ : State} {path name : Name} {start node : InodeId} {mode : ℕ} {nofollow : Bool}
  {nested : Name → InodeId → Except Errno Found}

theorem last_create_keeps_iff : (∀ e, (σ.last nested ⟨true, true⟩ mode node name).2 = .error e →
      KeepsTree σ (σ.last nested ⟨true, true⟩ mode node name).1) ↔
    ¬ (sIsdir mode = true ∧ ∃ n, σ.inode node = some n ∧ sIsdir n.mode = false) := by
  have hkeeps : KeepsTree σ σ := fun _ => rfl
  unfold last
  simp only [Bool.not_true, if_true]
  cases hn : σ.inode node with
  | none =>
    have hcreate : σ.createLast node name mode = (σ, .error .eio) := by simp only [createLast, hn]
    refine iff_of_true (fun _ _ => ?_) (by simp)
    rw [hcreate]
    split <;> exact hkeeps
  | some n =>
    by_cases hdir : sIsdir n.mode = true
    · -- What is not there is created, and nothing fails.
      have hisdir : σ.isDir node = true := by
        rw [isDir, hn]
        exact hdir
      refine iff_of_true (fun e herror => ?_) (by simp [hdir])
      rw [inodeLookupDirent, hisdir, if_neg (by simp)] at herror ⊢
      cases hlookup : σ.direntLookup node name with
      | some dir => exact hkeeps
      | none =>
        have hname : n.lookup name = none := by
          rw [direntLookup, entry, hn] at hlookup
          simpa using hlookup
        obtain ⟨dir, found, hcreate, henter⟩ := createLast_of_isDir hn hdir hname nested mode
        simp only [hlookup, hcreate, henter, reduceCtorEq] at herror
    · obtain ⟨herror, hiff⟩ := createLast_of_not_isDir hn (by simpa using hdir) name mode
      have hnotdir : σ.isDir node = false := by
        rw [isDir, hn]
        simpa using hdir
      rw [inodeLookupDirent, hnotdir, if_pos rfl]
      simp only [herror, Except.error.injEq, forall_eq', hiff]
      simp [hdir]

/-- **A failed call with `PATH_CREATE` changes nothing, unless a directory was to be made in
something that is not a directory.** -/
theorem failed_create_keeps_iff :
    (∀ e, (σ.pathResolve path start ⟨true, nofollow⟩ mode).2 = .error e →
      KeepsTree σ (σ.pathResolve path start ⟨true, nofollow⟩ mode).1) ↔
    ¬ σ.OrphansDirectory path start mode := by
  have hkeeps : KeepsTree σ σ := fun _ => rfl
  unfold pathResolve
  by_cases hlast : lastSegment path = []
  · refine iff_of_true (fun _ _ => ?_) fun horphans => horphans.2.1 hlast
    rw [resolveWith_of_lastSegment_nil hlast]
    exact hkeeps
  by_cases hlen : path.length ≤ 255
  · have hflags : (⟨true, nofollow⟩ : Flags).effective = ⟨true, true⟩ := by
      simp [Flags.effective]
    rw [resolveWith_eq_last hlen hlast, hflags]
    have hparent : σ.parentOf path start = (σ.descend (σ.resolveLink 64)
        ⟨none, σ.origin path start, false⟩ (segments path).dropLast).map Found.node := rfl
    cases hdescend : σ.descend (σ.resolveLink 64) ⟨none, σ.origin path start, false⟩
        (segments path).dropLast with
    | error e =>
      refine iff_of_true (fun _ _ => hkeeps) ?_
      rintro ⟨-, -, -, node, n, hok, -⟩
      rw [hparent, hdescend] at hok
      cases hok
    | ok found =>
      rw [hdescend] at hparent
      refine last_create_keeps_iff.trans (not_congr ?_)
      constructor
      · rintro ⟨hmode, n, hn, hdir⟩
        exact ⟨hlen, hlast, hmode, found.node, n, hparent, hn, hdir⟩
      · rintro ⟨-, -, hmode, node, n, hok, hn, hdir⟩
        obtain rfl := Except.ok.inj (hparent.symm.trans hok)
        exact ⟨hmode, n, hn, hdir⟩
  · refine iff_of_true (fun _ _ => ?_) fun horphans => hlen horphans.1
    rw [resolveWith, if_pos (by omega)]
    exact hkeeps

/-- `sys_mkdir` -/
def sysMkdir (σ : State) (path : Name) (mode : ℕ) : State × Except Errno Unit :=
  let resolved := σ.pathResolve path σ.cwd ⟨true, false⟩ (sIfdir ||| mode &&& 0o777)
  match resolved.2 with
  | .error e => (resolved.1, .error e)
  | .ok found => (resolved.1, if found.created then .ok () else .error .eexist)

/-- A file `f` in the root. -/
def oneFile : State :=
  ofInodes [⟨0o040755, 2, [(dot, 1), (dotdot, 1), (['f'], 2)], [], none, by decide⟩,
    ⟨0o100644, 1, [], [], none, by decide⟩] ⟨1, 1⟩

theorem orphaned_directory : (oneFile.sysMkdir ['f', '/', 'd'] 0o777).2 = .error .enotdir ∧
    oneFile.inode ⟨1, 3⟩ = none ∧
    ((oneFile.sysMkdir ['f', '/', 'd'] 0o777).1.inode ⟨1, 3⟩).isSome ∧
    (oneFile.inode ⟨1, 2⟩).map (·.links) = some 1 ∧
    ((oneFile.sysMkdir ['f', '/', 'd'] 0o777).1.inode ⟨1, 2⟩).map (·.links) = some 2 := by
  decide +kernel

end Failed

end State

end SeaKernel.Vfs
