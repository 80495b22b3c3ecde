import SeaKernel.Fs.Create
import SeaKernel.Fs.DirTree

/-!
# Processes with a root of their own

`sys_chroot` gives a process another root directory. Paths that start with a slash are resolved from
there, and `dirent_get_inode` does not go up from there to the directory that the file system is
mounted on. But it is the only place that knows about the root of the process: the entry `..` of a
root directory that is not the root of its file system leads to the parent as any other.

So a process is confined to what is below its root directory if that is the root of a file system,
whatever the path and the symbolic links on its way are.

## Main results

* `Below.direntGetInode`: one step of the way stays below
* `Below.pathResolve`: so does a path, over all nested links
* `confined_iff`: which root directories confine a process
-/

namespace SeaKernel.Vfs.State

open List Option State Except

/-- **What is below the root directory of the process**, mounted file systems included. -/
inductive Below (σ : State) : InodeId → Prop
  | root : Below σ σ.root
  | child {parent node : InodeId} {name : Name} :
      Below σ parent → σ.Child parent name node → Below σ node
  | mount {node : InodeId} {fsid : ℕ} :
      Below σ node → σ.mounted node = some fsid → Below σ (σ.fsRoot fsid)

/-- Everything that is mounted is mounted below the root directory. -/
def MountsBelow (σ : State) : Prop := ∀ node fsid, σ.mounted node = some fsid → σ.Below node

/-- **Paths that are resolved from below the root directory lead there.** -/
def Confined (σ : State) : Prop :=
  ∀ start path flags mode τ found, σ.Below start →
    σ.pathResolve path start flags mode = (τ, .ok found) → τ.Below found.node

/-- The root directory is the root of a file system. Or it is in that root, and a mount of the file
system that has failed left an `up_mount` that cannot be loaded or is below the root directory. -/
def Confines (σ : State) : Prop :=
  σ.root = σ.fsRoot σ.root.fsid ∨
    σ.entry σ.root dotdot = some (σ.rootid σ.root.fsid) ∧
      (σ.loads (σ.upMount σ.root.fsid) = true → σ.Below (σ.upMount σ.root.fsid))

/-- There is no inode of the file system 0, and the file system of the root directory has an
`up_mount` that was never set. -/
structure UnsetUp (σ : State) : Prop where
  up : σ.upMount σ.root.fsid = ⟨0, 0⟩
  none : ∀ inoid, σ.inode ⟨0, inoid⟩ = none

/-- No entry and no mount is lost. -/
structure Grows (σ τ : State) : Prop where
  entry : ∀ node name inoid, σ.entry node name = some inoid → τ.entry node name = some inoid
  mounted : ∀ node fsid, σ.mounted node = some fsid → τ.mounted node = some fsid
  root : τ.root = σ.root
  rootid : τ.rootid = σ.rootid

/-! ## One step -/

section Step

variable {σ : State} {id node next parent start : InodeId} {dir : Dirent} {fsid : ℕ} {name : Name}

theorem Below.cross (h : σ.Below id) : σ.Below (σ.cross id) := by
  cases hmount : σ.mounted id with
  | none => rwa [cross_of_none hmount]
  | some fsid =>
    rw [cross_of_some hmount]
    exact h.mount hmount

variable (h : σ.DirTree)

include h

theorem DirTree.not_child_fsRoot (hdir : σ.isDir (σ.fsRoot fsid) = true) :
    ¬ σ.Child parent name (σ.fsRoot fsid) := by
  intro hchild
  have hup := h.up parent name _ hchild hdir
  rw [h.root fsid hdir] at hup
  have hparent : parent = σ.fsRoot fsid :=
    InodeId.ext hchild.fsid_eq.symm (some.inj hup).symm
  obtain ⟨depth, hdepth, -⟩ := h.depth
  have hlt := hdepth parent name _ hchild hdir
  rw [hparent] at hlt
  exact lt_irrefl _ hlt

theorem Below.ascend (hmounts : σ.MountsBelow) (hid : σ.Below id) (hdir : σ.isDir id = true) :
    σ.Below (σ.ascend id) := by
  have hup : ∀ node fsid, σ.mounted node = some fsid → σ.Below (σ.upMount fsid) := by
    intro node fsid hmount
    obtain ⟨fsid', hup⟩ := isSome_iff_exists.mp (h.mount node fsid hmount).2.2
    exact hmounts _ fsid' hup
  cases hmount : σ.mounted id with
  | some fsid =>
    by_cases hroot : σ.fsRoot fsid = σ.root
    · rw [State.ascend, cross_of_some hmount, if_neg fun hne => hne.2 hroot, hroot]
      exact .root
    · rw [ascend_of_some hmount hroot]
      exact hup id fsid hmount
  | none =>
    by_cases hstay : id = σ.fsRoot id.fsid → id = σ.root
    · rwa [ascend_of_none hmount hstay]
    · rw [Classical.not_imp] at hstay
      rw [ascend_root_of_none hmount hstay.1 hstay.2]
      -- It is the root of a file system that is mounted.
      cases hid with
      | root => exact absurd rfl hstay.2
      | child hparent hchild =>
        rw [hstay.1] at hchild hdir
        exact absurd hchild (h.not_child_fsRoot hdir)
      | mount _ hpoint => exact hup _ _ hpoint

theorem Below.up (hnode : σ.Below node) (hne : node ≠ σ.root) (hdir : σ.isDir node = true)
    (hup : σ.direntLookup node dotdot = some dir) : σ.Below dir.ino := by
  cases hnode with
  | root => exact absurd rfl hne
  | child hparent hchild =>
    rw [direntLookup, h.up _ _ _ hchild hdir, map_some, hchild.fsid_eq] at hup
    rwa [← some.inj hup]
  | mount hpoint hmount =>
    rw [direntLookup, h.root _ hdir, map_some] at hup
    rw [← some.inj hup]
    exact hpoint.mount hmount

/-- **One step of the way stays below the root directory.** -/
theorem Below.direntGetInode (hmounts : σ.MountsBelow) (hconfines : σ.Confines)
    (hnode : σ.Below node) (hlookup : σ.direntLookup node name = some dir)
    (hget : σ.direntGetInode dir = some next) : σ.Below next := by
  obtain ⟨-, hname, hentry⟩ := direntLookup_eq_some hlookup
  obtain ⟨hdir, -⟩ := h.entries _ _ _ hentry
  obtain ⟨-, -, hsome, rfl⟩ := direntGetInode_eq_some.mp hget
  have hfsid : dir.ino.fsid = node.fsid := by
    rw [direntLookup, hentry, map_some] at hlookup
    rw [← some.inj hlookup]
  rw [hname] at hsome ⊢
  by_cases hdotdot : name = dotdot
  · subst hdotdot
    rw [if_pos rfl] at hsome ⊢
    obtain ⟨up, hup, hupdir, -⟩ := h.exists_up hdir
    obtain rfl := some.inj (hlookup.symm.trans hup)
    by_cases hroot : node = σ.root
    · -- The root directory is its own parent, or `up_mount` takes the process back.
      subst hroot
      obtain hfsroot | ⟨hparent, hoften⟩ := hconfines
      · have hself := h.root σ.root.fsid (hfsroot ▸ hdir)
        rw [← hfsroot, hentry] at hself
        have hup' : up = σ.root := by
          rw [hfsroot]
          exact InodeId.ext hfsid (some.inj hself)
        subst hup'
        exact hnode.ascend h hmounts hdir
      · have hup' : up = σ.fsRoot σ.root.fsid :=
          InodeId.ext hfsid (some.inj (hentry.symm.trans hparent))
        subst hup'
        cases hmount : σ.mounted (σ.fsRoot σ.root.fsid) with
        | some fsid => exact (hmounts _ _ hmount).ascend h hmounts hupdir
        | none =>
          by_cases hself : σ.fsRoot σ.root.fsid = σ.root
          · rw [ascend_of_none hmount fun _ => hself, hself]
            exact .root
          · dsimp only at hsome ⊢
            rw [ascend_root_of_none hmount rfl hself] at hsome ⊢
            exact hoften hsome
    · exact (hnode.up h hroot hdir hlookup).ascend h hmounts hupdir
  · rw [if_neg hdotdot] at hsome ⊢
    by_cases hdot : name = dot
    · subst hdot
      have hself : dir.ino = node :=
        InodeId.ext hfsid (some.inj (hentry.symm.trans (h.self _ hdir)))
      rw [hself]
      exact hnode.cross
    · exact (hnode.child ⟨hdot, hdotdot, hfsid, hentry⟩).cross

end Step

/-! ## What is created -/

section Create

variable {σ τ υ : State} {node : InodeId} {name : Name} {mode : ℕ} {n : Inode} {dir : Dirent}
  {f : Inode → Inode}

theorem Grows.below (h : Grows σ τ) (hnode : σ.Below node) : τ.Below node := by
  induction hnode with
  | root =>
    rw [← h.root]
    exact .root
  | child _ hchild ih =>
    exact ih.child ⟨hchild.ne_dot, hchild.ne_dotdot, hchild.fsid_eq, h.entry _ _ _ hchild.entry⟩
  | @mount node fsid _ hmount ih =>
    have hroot : σ.fsRoot fsid = τ.fsRoot fsid := by rw [fsRoot, fsRoot, h.rootid]
    rw [hroot]
    exact ih.mount (h.mounted _ _ hmount)

theorem Grows.modify (h : Grows σ τ) (id : InodeId)
    (hf : ∀ n name inoid, n.lookup name = some inoid → (f n).lookup name = some inoid)
    (hmount : ∀ n, (f n).mount = n.mount) : Grows σ (τ.modify id f) := by
  refine ⟨fun node name inoid hentry => ?_, fun node fsid hfsid => ?_, h.root, h.rootid⟩
  · obtain ⟨n, hn, hname⟩ := bind_eq_some_iff.mp (h.entry node name inoid hentry)
    unfold State.entry
    by_cases hnode : node = id
    · subst hnode
      rw [inode_modify_self, hn, map_some, bind_some, hf n name inoid hname]
    · rw [inode_modify_of_ne hnode, hn, bind_some, hname]
  · obtain ⟨n, hn, hfs⟩ := bind_eq_some_iff.mp (h.mounted node fsid hfsid)
    unfold State.mounted
    by_cases hnode : node = id
    · subst hnode
      rw [inode_modify_self, hn, map_some, bind_some, hmount, hfs]
    · rw [inode_modify_of_ne hnode, hn, bind_some, hfs]

theorem Prepared.grows {target : InodeId} (h : Prepared σ τ node target mode)
    (hnew : σ.inode target = none) (hroot : τ.root = σ.root) : Grows σ τ := by
  have hkept : ∀ id n, σ.inode id = some n → ∃ m, τ.inode id = some m ∧ m.dirents = n.dirents ∧
      m.mount = n.mount := by
    intro id n hn
    by_cases htarget : id = target
    · rw [htarget, hnew] at hn
      cases hn
    by_cases hnode : id = node
    · subst hnode
      refine ⟨_, by rw [h.parent, hn, map_some], ?_, ?_⟩
      · split
        · exact n.dirents_addLink
        · rfl
      · split
        · rw [Inode.addLink]
        · rfl
    · exact ⟨n, (h.rest id htarget hnode).trans hn, rfl, rfl⟩
  refine ⟨fun id name inoid hentry => ?_, fun id fsid hfsid => ?_, hroot, h.rootid⟩
  · obtain ⟨n, hn, hname⟩ := bind_eq_some_iff.mp hentry
    obtain ⟨m, hm, hdirents, -⟩ := hkept id n hn
    rw [entry, hm, bind_some, Inode.lookup, hdirents]
    exact hname
  · obtain ⟨n, hn, hfs⟩ := bind_eq_some_iff.mp hfsid
    obtain ⟨m, hm, -, hmount⟩ := hkept id n hn
    rw [mounted, hm, bind_some, hmount, hfs]

theorem root_fsLink {target : InodeId} (h : σ.fsLink node name target = .ok τ) :
    τ.root = σ.root := by
  unfold fsLink at h
  split at h
  · cases h
  split at h
  · cases h
  split at h
  · cases h
  split at h
  · cases h
  split at h
  · cases h
  obtain rfl := ok.inj h
  rfl

theorem root_linkDots (node target : InodeId) : (σ.linkDots node target).root = σ.root := by
  unfold linkDots
  cases hdot : σ.fsLink target dot target with
  | error e =>
    dsimp only
    cases hdotdot : σ.fsLink target dotdot node with
    | error e => rfl
    | ok τ => exact root_fsLink hdotdot
  | ok τ =>
    dsimp only
    cases hdotdot : τ.fsLink target dotdot node with
    | error e => exact root_fsLink hdot
    | ok υ => exact (root_fsLink hdotdot).trans (root_fsLink hdot)

theorem root_createInode (node : InodeId) (mode : ℕ) : (σ.createInode node mode).root = σ.root := by
  unfold createInode
  dsimp only
  generalize (if mode &&& sIfmt = 0 then mode ||| sIfreg else mode) = mode'
  split
  · exact root_linkDots ..
  · rfl

/-- **Creation loses nothing.** -/
theorem grows_created (hnode : σ.inode node = some n) (name : Name) (mode : ℕ) :
    Grows σ (σ.created node name mode) := by
  have hnew : σ.inode (σ.allocId node.fsid) = none := σ.fresh _ (Nat.lt_succ_self _)
  have hprepared : Grows σ (σ.createInode node mode) :=
    (createInode_prepared hnode mode).grows hnew (root_createInode node mode)
  have hinserted : Grows σ ((σ.createInode node mode).modify node
      (·.insert name (σ.allocId node.fsid).inoid)) :=
    hprepared.modify node (fun n _ _ => Inode.lookup_insert_of_some) fun n => rfl
  refine hinserted.modify _ (fun n name inoid hname => ?_) fun n => ?_
  · rw [Inode.lookup, n.dirents_addLink]
    exact hname
  · rw [Inode.addLink]

theorem Below.createLast (h : σ.DirTree) (hnode : σ.Below node) {e : Errno}
    (hlookup : σ.inodeLookupDirent node name = .error e)
    (hcreate : σ.createLast node name mode = (τ, .ok dir)) {next : InodeId}
    (hget : τ.direntGetInode dir = some next) : τ.Below next := by
  cases hn : σ.inode node with
  | none =>
    simp only [State.createLast, hn] at hcreate
    cases (Prod.mk.inj hcreate).2
  | some n =>
    by_cases hdir : sIsdir n.mode = true
    · have hisdir : σ.isDir node = true := by rwa [isDir, hn, any_some]
      have hnone : ∀ inoid, σ.entry node name ≠ some inoid := by
        intro inoid hentry
        rw [inodeLookupDirent, hisdir, if_neg (by simp), direntLookup, hentry] at hlookup
        cases hlookup
      have hname : n.lookup name = none := by
        cases hname : n.lookup name with
        | none => rfl
        | some inoid => exact absurd (by rw [entry, hn, bind_some, hname]) (hnone inoid)
      -- A directory has its own two entries, and they are not created.
      have hdot : name ≠ dot := fun heq => hnone _ (heq ▸ h.self node hisdir)
      have hdotdot : name ≠ dotdot := by
        rintro rfl
        obtain ⟨up, hup, -, -⟩ := h.exists_up hisdir
        exact hnone _ (direntLookup_eq_some hup).2.2
      obtain ⟨-, -, hlookup'⟩ := created_spec hn hdir hname mode
      rw [createLast_eq hn hdir hname] at hcreate
      obtain ⟨rfl, hok⟩ := Prod.mk.inj hcreate
      obtain rfl := ok.inj hok
      obtain ⟨-, -, hentry⟩ := direntLookup_eq_some (inodeLookupDirent_eq_ok.mp hlookup').2
      obtain ⟨-, -, -, rfl⟩ := direntGetInode_eq_some.mp hget
      rw [if_neg hdotdot]
      have hchild : (σ.created node name mode).Child node name (σ.allocId node.fsid) :=
        ⟨hdot, hdotdot, rfl, hentry⟩
      exact (((grows_created hn name mode).below hnode).child hchild).cross
    · have herror := (createLast_of_not_isDir hn (by simpa using hdir) name mode).1
      rw [hcreate] at herror
      cases herror

end Create

/-! ## Paths -/

section Paths

variable {σ τ : State} {nested : Name → InodeId → Except Errno Found} {flags : Flags} {mode : ℕ}
  {node start : InodeId} {name path : Name} {dir : Dirent} {found next : Found}
  {segments : List Name} {follow created : Bool}

/-- The nested calls stay below the root directory. -/
def NestedBelow (σ : State) (nested : Name → InodeId → Except Errno Found) : Prop :=
  ∀ path node found, σ.Below node → nested path node = .ok found → σ.Below found.node

theorem Below.enter (h : σ.DirTree) (hmounts : σ.MountsBelow) (hconfines : σ.Confines)
    (hnested : σ.NestedBelow nested) (hnode : σ.Below node)
    (hlookup : σ.direntLookup node name = some dir)
    (henter : σ.enter nested node dir follow created = .ok found) : σ.Below found.node := by
  unfold State.enter at henter
  split at henter
  · cases henter
  next next hget =>
  split at henter
  · split at henter
    · cases henter
    · next target htarget =>
      obtain rfl := ok.inj henter
      exact hnested _ _ target hnode htarget
  · obtain rfl := ok.inj henter
    exact hnode.direntGetInode h hmounts hconfines hlookup hget

/-- **The loop over the segments stays below the root directory.** -/
theorem Below.walk (h : σ.DirTree) (hmounts : σ.MountsBelow) (hconfines : σ.Confines)
    (hnested : σ.NestedBelow nested) (hflags : flags.create = true → flags.nofollow = true)
    (hfound : σ.Below found.node)
    (hwalk : σ.walk nested flags mode found segments = (τ, .ok next)) :
    τ.Below next.node := by
  induction segments generalizing found with
  | nil =>
    obtain ⟨rfl, hok⟩ := Prod.mk.inj hwalk
    rwa [← ok.inj hok]
  | cons name rest ih =>
    rw [walk] at hwalk
    split at hwalk
    · exact ih hfound hwalk
    split at hwalk
    · cases (Prod.mk.inj hwalk).2
    split at hwalk
    · next dir hlookup =>
      split at hwalk
      · cases (Prod.mk.inj hwalk).2
      · next step henter =>
        have hstep := hfound.enter h hmounts hconfines hnested
          (inodeLookupDirent_eq_ok.mp hlookup).2 henter
        exact ih hstep hwalk
    · next e hlookup =>
      split at hwalk
      · next hlast =>
        dsimp only at hwalk
        split at hwalk
        · cases (Prod.mk.inj hwalk).2
        · next dir hdir =>
          -- What has just been created is not followed.
          obtain ⟨rfl, henter⟩ := Prod.mk.inj hwalk
          rw [Bool.and_eq_true] at hlast
          rw [hflags hlast.2] at henter
          unfold State.enter at henter
          split at henter
          · cases henter
          next next' hget =>
          rw [Bool.not_true, Bool.and_false, if_neg (by simp)] at henter
          obtain rfl := ok.inj henter
          exact hfound.createLast h hlookup (Prod.ext rfl hdir) hget
      · cases (Prod.mk.inj hwalk).2

theorem effective_nofollow (flags : Flags) :
    flags.effective.create = true → flags.effective.nofollow = true := by
  intro hcreate
  rw [Flags.effective] at hcreate ⊢
  rw [show flags.create = true from hcreate, Bool.or_true]

theorem Below.resolveWith (h : σ.DirTree) (hmounts : σ.MountsBelow) (hconfines : σ.Confines)
    (hnested : σ.NestedBelow nested) (hstart : σ.Below start)
    (hresolve : σ.resolveWith nested path start flags mode = (τ, .ok found)) :
    τ.Below found.node := by
  unfold State.resolveWith at hresolve
  split at hresolve
  · cases (Prod.mk.inj hresolve).2
  split at hresolve
  · obtain ⟨rfl, hok⟩ := Prod.mk.inj hresolve
    rw [← ok.inj hok]
    exact .root
  · exact Below.walk h hmounts hconfines hnested (effective_nofollow flags) .root hresolve
  · exact Below.walk h hmounts hconfines hnested (effective_nofollow flags) hstart hresolve

theorem walk_fst (hcreate : flags.create = false) :
    (σ.walk nested flags mode found segments).1 = σ := by
  induction segments generalizing found with
  | nil => rfl
  | cons name rest ih =>
    rw [walk, hcreate, Bool.and_false]
    split
    · exact ih
    split
    · rfl
    split
    · split
      · rfl
      · exact ih
    · rw [if_neg Bool.false_ne_true]

theorem resolveWith_fst (hcreate : flags.create = false) :
    (σ.resolveWith nested path start flags mode).1 = σ := by
  have hflags : flags.effective.create = false := hcreate
  unfold resolveWith
  split
  · rfl
  split
  · rfl
  · exact walk_fst hflags
  · exact walk_fst hflags

/-- **Symbolic links stay below the root directory**, whatever they contain and however deep they
are nested. -/
theorem nestedBelow_resolveLink (h : σ.DirTree) (hmounts : σ.MountsBelow) (hconfines : σ.Confines)
    (depth : ℕ) : σ.NestedBelow (σ.resolveLink depth) := by
  induction depth with
  | zero =>
    intro path node found _ hresolve
    cases hresolve
  | succ depth ih =>
    intro path node found hnode hresolve
    have hpair : σ.resolveWith (σ.resolveLink depth) path node ⟨false, false⟩ 0 =
        (σ, .ok found) := Prod.ext (resolveWith_fst rfl) hresolve
    exact hnode.resolveWith h hmounts hconfines ih hpair

/-- **A path stays below the root directory.** -/
theorem Below.pathResolve (h : σ.DirTree) (hmounts : σ.MountsBelow) (hconfines : σ.Confines)
    (hstart : σ.Below start) (hresolve : σ.pathResolve path start flags mode = (τ, .ok found)) :
    τ.Below found.node :=
  hstart.resolveWith h hmounts hconfines (nestedBelow_resolveLink h hmounts hconfines 64) hresolve

theorem Below.depth_le (h : σ.DirTree) {depth : InodeId → ℕ}
    (hchild : ∀ parent name node, σ.Child parent name node → σ.isDir node = true →
      depth parent < depth node)
    (hmount : ∀ node fsid, σ.mounted node = some fsid → depth node < depth (σ.fsRoot fsid))
    (hnode : σ.Below node) (hdir : σ.isDir node = true) : depth σ.root ≤ depth node := by
  induction hnode with
  | root => exact le_rfl
  | child _ hentry ih =>
    exact (ih (h.entries _ _ _ hentry.entry).1).trans (hchild _ _ _ hentry hdir).le
  | mount _ hpoint ih =>
    exact (ih (h.mount _ _ hpoint).1).trans (hmount _ _ hpoint).le

theorem Confined.up (hconfined : σ.Confined) (hroot : σ.isDir σ.root = true)
    {next : InodeId} (hlookup : σ.direntLookup σ.root dotdot = some dir)
    (hget : σ.direntGetInode dir = some next) : σ.Below next := by
  obtain ⟨created, hlast⟩ : ∃ created, (σ.last (σ.resolveLink 64) ⟨false, true⟩ 0 σ.root
      dotdot).2 = .ok ⟨some dir, next, created⟩ := last_nofollow.mpr ⟨hroot, hlookup, hget⟩
  have hresolve : (σ.pathResolve dotdot σ.root ⟨false, true⟩ 0).2 =
      .ok ⟨some dir, next, created⟩ := by
    rw [pathResolve, resolveWith_name (by decide) (by decide) (by decide)]
    exact hlast
  exact hconfined σ.root dotdot ⟨false, true⟩ 0 σ _ .root (Prod.ext (resolveWith_fst rfl) hresolve)

theorem confined_iff_confines (h : σ.DirTree) (hmounts : σ.MountsBelow)
    (hroot : σ.isDir σ.root = true) : σ.Confined ↔ σ.Confines := by
  constructor
  · intro hconfined
    by_cases hfsroot : σ.root = σ.fsRoot σ.root.fsid
    · exact .inl hfsroot
    obtain heq | ⟨parent, name, hchild⟩ := h.parent σ.root hroot
    · exact absurd heq hfsroot
    -- The parent is higher than the root directory, so that nothing is mounted on it.
    obtain ⟨hparent, -⟩ := h.entries _ _ _ hchild.entry
    obtain ⟨depth, hdepth, hdepth'⟩ := h.depth
    have hnot : ¬ σ.Below parent := by
      intro hbelow
      have hle := hbelow.depth_le h hdepth hdepth' hparent
      have hlt := hdepth _ _ _ hchild hroot
      omega
    have hmount : σ.mounted parent = none := by
      cases hmount : σ.mounted parent with
      | none => rfl
      | some fsid => exact absurd (hmounts parent fsid hmount) hnot
    have hup := h.up parent name _ hchild hroot
    have hlookup : σ.direntLookup σ.root dotdot = some ⟨σ.root, dotdot, parent⟩ := by
      rw [direntLookup, hup, map_some, hchild.fsid_eq]
    obtain ⟨n, hn, -⟩ := exists_of_isDir hparent
    have hsome : (σ.inode parent).isSome := by rw [hn, isSome_some]
    have hloads : σ.loads parent = true := by rw [loads, hsome, Bool.or_true]
    by_cases hparentroot : parent = σ.fsRoot parent.fsid
    · refine .inr ⟨?_, fun hexists => ?_⟩
      · rw [hup, hchild.fsid_eq, ← eq_fsRoot_iff.mp hparentroot]
      · have hne : parent ≠ σ.root := fun heq => hnot (heq ▸ .root)
        rw [hchild.fsid_eq] at hexists ⊢
        refine hconfined.up hroot hlookup (direntGetInode_eq_some.mpr ⟨hsome, ?_, hexists, ?_⟩)
        · rwa [cross_of_none hmount]
        · rw [if_pos rfl, ascend_root_of_none hmount hparentroot hne]
    · refine absurd (hconfined.up hroot hlookup (direntGetInode_eq_some.mpr
        ⟨hsome, ?_, hloads, ?_⟩)) hnot
      · rwa [cross_of_none hmount]
      · rw [if_pos rfl, ascend_of_none hmount fun heq => absurd heq hparentroot]
  · intro hconfines start path flags mode τ found hstart hresolve
    exact hstart.pathResolve h hmounts hconfines hresolve

/-- Nothing below the root directory is of the file system 0. -/
theorem Below.fsid_ne_zero (h : σ.DirTree) (hroot : σ.isDir σ.root = true) (hunset : σ.UnsetUp)
    (hnode : σ.Below node) : node.fsid ≠ 0 := by
  have hnone : ∀ id : InodeId, σ.isDir id = true → id.fsid ≠ 0 := by
    rintro ⟨fsid, inoid⟩ hdir rfl
    obtain ⟨n, hn, -⟩ := exists_of_isDir hdir
    cases (hunset.none inoid).symm.trans hn
  induction hnode with
  | root => exact hnone _ hroot
  | child _ hchild ih => rwa [hchild.fsid_eq]
  | mount _ hmount _ => exact hnone _ (h.mount _ _ hmount).2.1

/-- **Which root directories confine a process**: those that are the root of a file system, up to
what a failed mount has left in `up_mount`. If that was never set `..` leads to the inode 0 of the
file system 0, out of every other root directory. -/
theorem confined_iff (h : σ.DirTree) (hmounts : σ.MountsBelow) (hroot : σ.isDir σ.root = true) :
    (σ.Confined ↔ σ.Confines) ∧
      (σ.UnsetUp → (σ.Confined ↔ σ.root = σ.fsRoot σ.root.fsid)) := by
  have hiff := confined_iff_confines h hmounts hroot
  refine ⟨hiff, fun hunset => hiff.trans ⟨?_, .inl⟩⟩
  rintro (hfsroot | ⟨-, hbelow⟩)
  · exact hfsroot
  · rw [hunset.up] at hbelow
    exact absurd rfl ((hbelow rfl).fsid_ne_zero h hroot hunset)

end Paths

theorem mountedTree_confined : mountedTree.Confined := by
  have hmounts : mountedTree.MountsBelow := by
    intro node fsid hmount
    obtain ⟨rfl, -⟩ := mounted_mountedTree hmount
    have hchild : mountedTree.Child ⟨1, 1⟩ ['m'] ⟨1, 2⟩ := ⟨by decide, by decide, rfl, rfl⟩
    exact Below.root.child hchild
  exact (confined_iff mountedTree_dirTree hmounts rfl).1.mpr (.inl rfl)

theorem nodup_outer : ([(dot, 1), (dotdot, 1), (['d'], 2)].map Prod.fst).Nodup := by
  decide

/-- In the root is a directory `d`, and in that a directory `j`. -/
def nestedInodes : List (InodeId × Inode) :=
  [(⟨1, 1⟩, ⟨0o040755, 3, [(dot, 1), (dotdot, 1), (['d'], 2)], [], none, nodup_outer⟩),
    (⟨1, 2⟩, ⟨0o040755, 3, [(dot, 2), (dotdot, 1), (['j'], 3)], [], none, by decide⟩),
    (⟨1, 3⟩, ⟨0o040755, 2, [(dot, 3), (dotdot, 2)], [], none, by decide⟩)]

/-- The process has called `chroot("/d/j")`, and is there. -/
def jail : State := ofTable nestedInodes (fun _ => ⟨0, 0⟩) ⟨1, 3⟩

theorem jail_dirTree : jail.DirTree :=
  dirTree_ofTable (by decide) InodeId.inoid (by decide +kernel)

theorem mounted_jail (node : InodeId) (fsid : ℕ) : jail.mounted node ≠ some fsid := by
  intro hmount
  have hall : ∀ x ∈ nestedInodes, x.2.mount.toList = [] := by decide
  obtain ⟨n, hmem, hfsid⟩ := mem_of_mounted (by decide) hmount
  rw [hall _ hmem] at hfsid
  cases hfsid

/-- **`..` leads out of a root directory that is not the root of a file system.** -/
theorem jail_escaped : jail.DirTree ∧ jail.MountsBelow ∧ jail.isDir jail.root = true ∧
    jail.Below jail.cwd ∧
    jail.pathResolve dotdot jail.cwd ⟨false, false⟩ 0 =
      (jail, .ok ⟨some ⟨⟨1, 3⟩, dotdot, ⟨1, 2⟩⟩, ⟨1, 2⟩, false⟩) ∧
    ¬ jail.Below ⟨1, 2⟩ := by
  refine ⟨jail_dirTree, fun node fsid hmount => absurd hmount (mounted_jail node fsid), rfl, .root,
    rfl, fun hbelow => ?_⟩
  -- Numbers grow on the way down.
  have hchild : ∀ parent name node, jail.Child parent name node → jail.isDir node = true →
      parent.inoid < node.inoid := by
    have hall : ∀ x ∈ nestedInodes, ∀ e ∈ x.2.dirents, e.1 ≠ dot → e.1 ≠ dotdot →
        x.1.inoid < e.2 := by decide
    rintro parent name node ⟨hdot, hdotdot, -, hentry⟩ -
    obtain ⟨n, hmem, hname⟩ := mem_of_entry (by decide) hentry
    exact hall _ hmem _ hname hdot hdotdot
  have hle := hbelow.depth_le jail_dirTree hchild
    (fun node fsid hmount => absurd hmount (mounted_jail node fsid)) rfl
  exact absurd hle (by decide)

end SeaKernel.Vfs.State
