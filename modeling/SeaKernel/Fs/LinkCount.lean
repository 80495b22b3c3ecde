import SeaKernel.Fs.Dcache

/-!
# Link counts

The link count of an inode is raised when an entry is made for it, and lowered when the object of an
unlinked entry goes with its last holder. An object of the dirent cache also holds a reference to
the inode of its directory. When the count of an inode is 0 and the last reference to it is dropped,
the driver releases the inode, and with it the entries of a directory.

A process works in the root directory or through a file that it holds open. A path of several names
is resolved one name after the other, so each call here has one name; a prefix of a path is opened
and closed again. `mkdir` is a creation that is closed at once. The target of a link is held open.

A directory can be removed while it is open, and entries can still be made in it. They are lost
with the directory, and the inodes that they name keep their count: the counts are right in the runs
that make entries only in directories that are still there.

## Main definitions

* `Inode`, `State`: the inodes of a `ramfs`, over the objects and entries of `Dcache`
* `State.inodePut`, `State.direntFree`: references and counts are dropped
* `State.exec`: the calls
* `Inv`: the invariant, with the references and links that a call has taken and not yet dropped

## Main results

* `Inv.exec`: every call under the condition keeps the invariant
* `links_counted`: the counts along runs
-/

namespace SeaKernel.LinkCount

open Function List Option Nat Dcache.State Multiset FinMap AList

open Vfs (Name dot dotdot)
open Dcache (Key Dirent)

/-! ## The model -/

/-- `struct inode`, with the references besides the two of the cache. -/
structure Inode where
  isDir : Bool
  links : UInt16
  /-- `INODE_FLAG_UNCACHED` -/
  uncached : Bool
  refs : ℕ
  /-- The driver has it. -/
  live : Bool
  deriving DecidableEq

structure State where
  dcache : Dcache.State
  inode : ℕ → Inode
  /-- `next_id` -/
  nextId : ℕ
  /-- `inode_lookup` did not find an inode in the cache: from then on there are two copies of an
  inode, or a reference to one that is gone. -/
  astray : Bool

/-- `_ramfs_create`, with a process in the root directory. -/
def initial : State where
  dcache := (Dcache.initial.addEntry (1, dot) 1).addEntry (1, dotdot) 1
  inode i := if i = 1 then ⟨true, 2, false, 1, true⟩ else ⟨false, 0, false, 0, false⟩
  nextId := 1
  astray := false

/-- The number of entries that name an inode. -/
def names (dc : Dcache.State) (i : ℕ) : ℕ := dc.entries.count fun _ ino => ino = i

/-- The number of unlinked objects that name an inode and are still held. -/
def unlinked (dc : Dcache.State) (i : ℕ) : ℕ := dc.dirents.count fun _ d => d.uncached && d.ino = i

/-- The number of objects whose directory an inode is. -/
def pnodes (dc : Dcache.State) (i : ℕ) : ℕ := dc.dirents.count fun _ d => d.key.1 = i

namespace State

/-! ### Inodes -/

def setInode (σ : State) (i : ℕ) (n : Inode) : State :=
  { σ with inode := update σ.inode i n }

def withDcache (σ : State) (dc : Dcache.State) : State := { σ with dcache := dc }

/-- `kobj_getref` -/
def getref (σ : State) (i : ℕ) : State :=
  σ.setInode i { σ.inode i with refs := (σ.inode i).refs + 1 }

/-- `inode_lookup` -/
def inodeLookup (σ : State) (i : ℕ) : State :=
  { σ.getref i with astray := σ.astray || !(σ.inode i).live || (σ.inode i).uncached }

/-- `_release_inode`, and `_ramfs_inode_put` for the entries. -/
def release (σ : State) (i : ℕ) : State :=
  (σ.setInode i { σ.inode i with refs := 0, uncached := true, live := false }).withDcache
    { σ.dcache with entries := σ.dcache.entries.restrict fun k => k.1 ≠ i }

/-- `inode_put` -/
def inodePut (σ : State) (i : ℕ) : State :=
  let n := σ.inode i
  if n.links = 0 then
    if n.refs = 1 then σ.release i
    else σ.setInode i { n with uncached := true, refs := n.refs - 1 }
  -- the last reference to an object that left the cache: it is loaded anew the next time
  else if n.uncached ∧ n.refs = 1 then σ.setInode i { n with uncached := false, refs := 0 }
  else σ.setInode i { n with refs := n.refs - 1 }

/-- `links++` -/
def raise (σ : State) (i : ℕ) : State :=
  σ.setInode i { σ.inode i with links := (σ.inode i).links + 1 }

/-- `links--` -/
def lower (σ : State) (i : ℕ) : State :=
  σ.setInode i { σ.inode i with links := (σ.inode i).links - 1 }

/-- `_alloc_inode` and `fs_inode_lookup` of the new inode. -/
def allocInode (σ : State) (isDir : Bool) : State :=
  { σ.setInode (σ.nextId + 1) ⟨isDir, 0, false, 1, true⟩ with nextId := σ.nextId + 1 }

/-! ### Directory entries -/

/-- `_dirent_put`, for an object that goes. -/
def direntFree (σ : State) (d : Dirent) : State :=
  (if d.unlink then ((σ.inodeLookup d.ino).lower d.ino).inodePut d.ino else σ).inodePut d.key.1

/-- `dirent_lookup`; a new object takes a reference to the directory. -/
def direntLookup (σ : State) (k : Key) : Option (ℕ × State) :=
  (σ.dcache.direntLookup k).map fun r =>
    (r.1, (if (σ.dcache.cache.lookup k).isSome then σ else σ.inodeLookup k.1).withDcache r.2)

/-- The object may have gone with the put. -/
def afterPut (σ : State) (r : Option Dirent × Dcache.State) : State :=
  match r.1 with
  | some d => (σ.withDcache r.2).direntFree d
  | none => σ.withDcache r.2

/-- `dirent_put` -/
def direntPut (σ : State) (o : ℕ) : Option State := (σ.dcache.direntPut o).map σ.afterPut

/-- `kobj_lru_reclaim` -/
def evict (σ : State) (o : ℕ) : Option State :=
  (σ.dcache.evict o).map fun r => (σ.withDcache r.2).direntFree r.1

/-- `fs_link`, in a directory. -/
def fsLink (σ : State) (k : Key) (target : ℕ) : Option State :=
  (σ.dcache.fsLink k target).map fun dc => (σ.withDcache dc).raise target

/-- The inode that an object names. -/
def ino (σ : State) (o : ℕ) : Option ℕ := (σ.dcache.dirents.lookup o).map Dirent.ino

/-- `__unlink`, where it does not refuse. -/
def unlinkMark (σ : State) (o : ℕ) : Option State :=
  (σ.ino o).map fun i => ((σ.inodeLookup i).withDcache (σ.dcache.mark o)).inodePut i

/-- There are no entries besides `.` and `..` in a directory. -/
def isEmpty (σ : State) (i : ℕ) : Bool :=
  σ.dcache.entries.count (fun k _ => k.1 = i ∧ k.2 ≠ dot ∧ k.2 ≠ dotdot) = 0

end State

/-! ### Calls -/

/-- Where a call starts: in the root directory, or at a file that is open. -/
inductive Place
  | root
  | held (o : ℕ)
  deriving DecidableEq

inductive Event
  /-- An entry is looked up and its object held. -/
  | openAt (p : Place) (name : Name)
  | close (o : ℕ)
  | evict (o : ℕ)
  | createAt (p : Place) (name : Name) (isDir : Bool)
  /-- An entry for the inode of an open file. -/
  | linkAt (p : Place) (name : Name) (o : ℕ)
  | unlinkAt (p : Place) (name : Name)
  | rmdirAt (p : Place) (name : Name)
  deriving DecidableEq

namespace State

/-- The inode at a place. -/
def placeIno (σ : State) : Place → Option ℕ
  | .root => some 1
  | .held o => ((σ.dcache.dirents.lookup o).filter fun d => d.refs ≠ 0).map Dirent.ino

/-- `__get_at_start` -/
def start (σ : State) (p : Place) : Option (ℕ × State) :=
  (σ.placeIno p).map fun i => (i, if p = .root then σ.getref i else σ.inodeLookup i)

/-- A call in a directory starts. -/
def startDir (σ : State) (p : Place) : Option (ℕ × State) :=
  (σ.start p).filter fun r => (σ.inode r.1).isDir

/-- `sys_openat`, of an entry that is there. -/
def openAt (σ : State) (p : Place) (name : Name) : Option State := do
  let dir ← σ.startDir p
  let found ← dir.2.direntLookup (dir.1, name)
  let next ← found.2.ino found.1
  pure (((found.2.inodeLookup next).inodePut dir.1).inodePut next)

/-- The first two entries of a new directory. -/
def linkDots (σ : State) (dir target : ℕ) (isDir : Bool) : Option State :=
  if isDir then (σ.fsLink (target, dot) target).bind fun τ => τ.fsLink (target, dotdot) dir
  else some σ

/-- `__create_last`, and the rest of `sys_openat`. -/
def createAt (σ : State) (p : Place) (name : Name) (isDir : Bool) : Option State := do
  let dir ← σ.startDir p
  let dots ← (dir.2.allocInode isDir).linkDots dir.1 (σ.nextId + 1) isDir
  let linked ← dots.fsLink (dir.1, name) (σ.nextId + 1)
  let found ← linked.direntLookup (dir.1, name)
  let next ← found.2.ino found.1
  pure ((((found.2.inodePut (σ.nextId + 1)).inodeLookup next).inodePut dir.1).inodePut next)

/-- `_do_linkat`, which refuses a directory. -/
def linkAt (σ : State) (p : Place) (name : Name) (o : ℕ) : Option State := do
  let dir ← σ.startDir p
  let target ← (dir.2.start (.held o)).filter fun r => !(σ.inode r.1).isDir
  let linked ← target.2.fsLink (dir.1, name) target.1
  pure ((linked.inodePut target.1).inodePut dir.1)

/-- `fs_unlink`, which refuses a directory. -/
def unlinkAt (σ : State) (p : Place) (name : Name) : Option State := do
  let dir ← σ.startDir p
  let found ← dir.2.direntLookup (dir.1, name)
  let _ ← (found.2.ino found.1).filter fun i => !(σ.inode i).isDir
  let marked ← found.2.unlinkMark found.1
  let put ← marked.direntPut found.1
  pure (put.inodePut dir.1)

/-- `fs_rmdir`, of a directory that is empty. -/
def rmdirAt (σ : State) (p : Place) (name : Name) : Option State := do
  let dir ← σ.startDir p
  let found ← dir.2.direntLookup (dir.1, name)
  let target ← (found.2.ino found.1).filter fun i => (σ.inode i).isDir && σ.isEmpty i
  let pp ← (found.2.inodeLookup target).direntLookup (target, dotdot)
  let sp ← pp.2.direntLookup (target, dot)
  let marked ← (sp.2.unlinkMark found.1).bind fun τ =>
    (τ.unlinkMark pp.1).bind fun τ => τ.unlinkMark sp.1
  let put ← (marked.direntPut sp.1).bind fun τ => τ.direntPut pp.1
  let last ← (put.inodePut target).direntPut found.1
  pure (last.inodePut dir.1)

def exec (σ : State) : Event → Option State
  | .openAt p name => σ.openAt p name
  | .close o => σ.direntPut o
  | .evict o => σ.evict o
  | .createAt p name isDir => σ.createAt p name isDir
  | .linkAt p name o => σ.linkAt p name o
  | .unlinkAt p name => σ.unlinkAt p name
  | .rmdirAt p name => σ.rmdirAt p name

/-- **The counts are right**: each is the number of entries that name the inode, and of unlinked
objects that do and are still held. -/
def Counted (σ : State) : Prop :=
  ∀ i, (σ.inode i).links.toNat = names σ.dcache i + unlinked σ.dcache i

/-- **Exactly the inodes without links and references are released.** -/
def Released (σ : State) : Prop :=
  ∀ i, 0 < i → i ≤ σ.nextId →
    ((σ.inode i).live = false ↔ (σ.inode i).links = 0 ∧ (σ.inode i).refs = 0)

/-- One more entry for an inode can be counted. -/
def Room (σ : State) (i : ℕ) : Prop := names σ.dcache i + unlinked σ.dcache i < 65535

/-- Entries are made in directories that were not removed, and for inodes whose count can be raised;
the root directory is not removed. -/
def Ready (σ : State) : Event → Prop
  | .createAt p _ isDir => ∀ i ∈ σ.placeIno p,
    (σ.dcache.entries.lookup (i, dot)).isSome ∧ (isDir = true → σ.Room i)
  | .linkAt p _ o => (∀ i ∈ σ.placeIno p, (σ.dcache.entries.lookup (i, dot)).isSome) ∧
    ∀ i ∈ σ.ino o, σ.Room i
  | .rmdirAt p name => ∀ i ∈ σ.placeIno p, σ.dcache.entries.lookup (i, name) ≠ some 1
  | _ => True

instance (σ : State) (i : ℕ) : Decidable (σ.Room i) := inferInstanceAs (Decidable (_ < _))

instance (σ : State) (e : Event) : Decidable (σ.Ready e) := by
  cases e <;> unfold Ready <;> infer_instance

end State

/-! ## Counting -/

variable {target : ℕ}

section Counting

variable {dc : Dcache.State} {k : Key} {o : ℕ} {d e : Dirent}

theorem toNat_decide_eq (a b : ℕ) : (decide (a = b)).toNat = if b = a then 1 else 0 := by
  by_cases h : a = b
  · simp [h]
  · simp [h, Ne.symm h]

theorem names_addEntry (target : ℕ) (h : dc.entries.lookup k = none) (i : ℕ) :
    names (dc.addEntry k target) i = names dc i + if i = target then 1 else 0 := by
  rw [← toNat_decide_eq]
  exact count_insert _ target h

theorem names_pos (h : dc.entries.lookup k = some target) : 0 < names dc target :=
  count_pos.mpr ⟨k, target, h, decide_eq_true rfl⟩

theorem unlinked_pos (h : dc.dirents.lookup o = some d) (hun : d.uncached = true) :
    0 < unlinked dc d.ino :=
  count_pos.mpr ⟨o, d, h, by simp [hun]⟩

theorem pnodes_pos (h : dc.dirents.lookup o = some d) : 0 < pnodes dc d.key.1 :=
  count_pos.mpr ⟨o, d, h, decide_eq_true rfl⟩

variable (hd : dc.dirents.lookup o = some d)

include hd

theorem unlinked_setDirent (hino : e.ino = d.ino) (hun : e.uncached = d.uncached) (i : ℕ) :
    unlinked (dc.setDirent o e) i = unlinked dc i := by
  have hcount :=
    count_replace (a := e) (fun (_ : ℕ) (d : Dirent) => d.uncached && d.ino = i) hd
  rw [hino, hun] at hcount
  exact add_right_cancel hcount

theorem pnodes_setDirent (hkey : e.key = d.key) (i : ℕ) :
    pnodes (dc.setDirent o e) i = pnodes dc i := by
  have hcount := count_replace (a := e) (fun (_ : ℕ) (d : Dirent) => d.key.1 = i) hd
  rw [hkey] at hcount
  exact add_right_cancel hcount

omit hd in
theorem unlinked_addDirent (hnew : dc.dirents.lookup dc.next = none) (i : ℕ) :
    unlinked (dc.addDirent k target) i = unlinked dc i :=
  count_insert (fun (_ : ℕ) (d : Dirent) => d.uncached && d.ino = i) _ hnew

omit hd in
theorem pnodes_addDirent (hnew : dc.dirents.lookup dc.next = none) (i : ℕ) :
    pnodes (dc.addDirent k target) i = pnodes dc i + if i = k.1 then 1 else 0 := by
  rw [← toNat_decide_eq]
  exact count_insert (fun (_ : ℕ) (d : Dirent) => d.key.1 = i) _ hnew

theorem names_unlinked_uncache (hun : d.uncached = false)
    (hentry : dc.entries.lookup d.key = some d.ino) (i : ℕ) :
    names (dc.uncache o d) i + unlinked (dc.uncache o d) i = names dc i + unlinked dc i := by
  have hnames := count_erase (fun (_ : Key) (ino : ℕ) => ino = i) hentry
  have hunlinked := count_replace (a := { d with uncached := true })
    (fun (_ : ℕ) (d : Dirent) => d.uncached && d.ino = i) hd
  rw [hun, Bool.false_and, Bool.true_and, Bool.toNat_false] at hunlinked
  change names (dc.uncache o d) i + (decide (d.ino = i)).toNat = names dc i at hnames
  change unlinked (dc.uncache o d) i + 0 = unlinked dc i + (decide (d.ino = i)).toNat at hunlinked
  omega

theorem pnodes_uncache (i : ℕ) : pnodes (dc.uncache o d) i = pnodes dc i :=
  pnodes_setDirent (e := { d with uncached := true }) hd rfl i

theorem unlinked_forget (i : ℕ) :
    unlinked (dc.forget o) i + (if d.uncached = true ∧ i = d.ino then 1 else 0) =
      unlinked dc i := by
  have hcount := count_erase (fun (_ : ℕ) (d : Dirent) => d.uncached && d.ino = i) hd
  cases hun : d.uncached with
  | true =>
    rw [hun, Bool.true_and, toNat_decide_eq] at hcount
    simpa [unlinked, forget] using hcount
  | false =>
    rw [hun, Bool.false_and] at hcount
    simpa [unlinked, forget] using hcount

theorem pnodes_forget (i : ℕ) :
    pnodes (dc.forget o) i + (if i = d.key.1 then 1 else 0) = pnodes dc i := by
  rw [← toNat_decide_eq]
  exact count_erase (fun (_ : ℕ) (d : Dirent) => d.key.1 = i) hd

end Counting

/-! ## The invariant -/

/-- A directory with entries has its `.` entry, except for the entries that a call is about to take
out. -/
def Dotted (dc : Dcache.State) (marked : List ℕ) : Prop :=
  ∀ k target, dc.entries.lookup k = some target →
    dc.entries.lookup (k.1, dot) = some k.1 ∨ ∃ o ∈ marked, dc.cache.lookup k = some o

/-- Within a call, `extra` are the references to inodes that it has taken, `owed` the links that are
still counted for objects that went, and `marked` the objects that it marked and has not yet put. -/
structure Inv (σ : State) (extra owed : Multiset ℕ) (marked : List ℕ) : Prop where
  coherent : σ.dcache.Coherent
  settled : σ.dcache.Settled marked
  links : ∀ i, (σ.inode i).links.toNat = names σ.dcache i + unlinked σ.dcache i + owed.count i
  /-- The process in the root directory holds a reference to it. -/
  refs : ∀ i, (σ.inode i).refs = pnodes σ.dcache i + (if i = 1 then 1 else 0) + extra.count i
  live : ∀ i, (σ.inode i).live = true ↔ 0 < (σ.inode i).links.toNat ∨ 0 < (σ.inode i).refs
  cached : ∀ i, 0 < (σ.inode i).links.toNat → (σ.inode i).uncached = false
  unused : ∀ i, σ.nextId < i → (σ.inode i).live = false
  dotted : Dotted σ.dcache marked
  root : σ.dcache.entries.lookup (1, dot) = some 1
  found : σ.astray = false

/-- The three objects of a directory that is removed. -/
structure Removing (dc : Dcache.State) (k : Key) (target o pp sp : ℕ) : Prop where
  self : dc.cache.lookup (target, dot) = some sp
  parent : dc.cache.lookup (target, dotdot) = some pp
  marked : dc.Marked o k
  marked_parent : dc.Marked pp (target, dotdot)
  marked_self : dc.Marked sp (target, dot)
  empty : ∀ l v, dc.entries.lookup l = some v → l.1 = target → l.2 = dot ∨ l.2 = dotdot
  not_root : target ≠ 1
  /-- The entry of the directory may be its own `.` entry. -/
  dot_iff : k.2 = dot → k.1 = target

theorem State.fsLink_eq_some {σ τ : State} {k : Key} (h : σ.fsLink k target = some τ) :
    τ.dcache = σ.dcache.addEntry k target ∧
      τ.inode target = { σ.inode target with links := (σ.inode target).links + 1 } ∧
      ∀ i ≠ target, τ.inode i = σ.inode i := by
  obtain ⟨dc, hdc, rfl⟩ := map_eq_some_iff.mp h
  obtain ⟨_, rfl⟩ := Dcache.State.fsLink_eq_some hdc
  exact ⟨rfl, update_self .., fun i hi => update_of_ne hi ..⟩

namespace Inv

variable {σ τ : State} {extra extra' owed owed' : Multiset ℕ} {marked marked' : List ℕ} {i o : ℕ}
  {k : Key} {d : Dirent}

theorem initial : Inv initial 0 0 [] := by
  have hdot : Dcache.initial.fsLink (1, dot) 1 = some (Dcache.initial.addEntry (1, dot) 1) := rfl
  have hnone : (Dcache.initial.addEntry (1, dot) 1).entries.lookup (1, dotdot) = none := by decide
  have hdotdot : (Dcache.initial.addEntry (1, dot) 1).fsLink (1, dotdot) 1 =
      some LinkCount.initial.dcache := by
    rw [fsLink, hnone]
    rfl
  have hcoherent := (Dcache.State.Coherent.initial.fsLink hdot).fsLink hdotdot
  have hnames (i : ℕ) : names LinkCount.initial.dcache i = if i = 1 then 2 else 0 := by
    rw [LinkCount.initial, names_addEntry 1 hnone, names_addEntry 1 rfl]
    change 0 + _ + _ = _
    split <;> rfl
  have hinode (i : ℕ) : LinkCount.initial.inode i =
      if i = 1 then ⟨true, 2, false, 1, true⟩ else ⟨false, 0, false, 0, false⟩ := rfl
  refine ⟨hcoherent, fun _ _ h => (some_ne_none _ h.symm).elim, fun i => ?_, fun i => ?_,
    fun i => ?_, fun i _ => ?_, fun i hi => ?_, fun k target hk => Or.inl ?_, by decide, rfl⟩
  · rw [hnames, hinode]
    split <;> rfl
  · rw [hinode]
    change _ = 0 + _ + 0
    split <;> rfl
  · rw [hinode]
    split <;> decide
  · rw [hinode]
    split <;> rfl
  · have hne : i ≠ 1 := ne_of_gt hi
    rw [hinode, if_neg hne]
  · rcases lookup_insert_eq_some.mp hk with ⟨rfl, _⟩ | ⟨_, hk⟩
    · decide
    · rcases lookup_insert_eq_some.mp hk with ⟨rfl, _⟩ | ⟨_, hk⟩
      · decide
      · exact (some_ne_none _ hk.symm).elim

/-! ### Changes of one inode, and of the cache -/

theorem setInode {n : Inode} (h : Inv σ extra owed marked)
    (hextra : ∀ j ≠ i, extra'.count j = extra.count j)
    (howed : ∀ j ≠ i, owed'.count j = owed.count j)
    (hlinks : n.links.toNat = names σ.dcache i + unlinked σ.dcache i + owed'.count i)
    (hrefs : n.refs = pnodes σ.dcache i + (if i = 1 then 1 else 0) + extra'.count i)
    (hlive : n.live = true ↔ 0 < n.links.toNat ∨ 0 < n.refs)
    (hcached : 0 < n.links.toNat → n.uncached = false) (hused : n.live = true → i ≤ σ.nextId) :
    Inv (σ.setInode i n) extra' owed' marked := by
  have hself : (σ.setInode i n).inode i = n := update_self ..
  have hother {j : ℕ} (hj : j ≠ i) : (σ.setInode i n).inode j = σ.inode j :=
    update_of_ne hj ..
  refine ⟨h.coherent, h.settled, fun j => ?_, fun j => ?_, fun j => ?_, fun j => ?_, fun j hj => ?_,
    h.dotted, h.root, h.found⟩ <;> rcases eq_or_ne j i with rfl | hne
  · rw [hself]
    exact hlinks
  · rw [hother hne, howed j hne]
    exact h.links j
  · rw [hself]
    exact hrefs
  · rw [hother hne, hextra j hne]
    exact h.refs j
  · rw [hself]
    exact hlive
  · rw [hother hne]
    exact h.live j
  · rw [hself]
    exact hcached
  · rw [hother hne]
    exact h.cached j
  · rw [hself, Bool.eq_false_iff]
    exact fun hl => absurd (hused hl) (not_le.mpr hj)
  · rw [hother hne]
    exact h.unused j hj

/-- The cache and the entries change; what is counted there is the same with the references and
links of the call. -/
theorem withDcache {dc : Dcache.State} (h : Inv σ extra owed marked) (hcoherent : dc.Coherent)
    (hsettled : dc.Settled marked')
    (hlinks : ∀ i, names dc i + unlinked dc i + owed'.count i =
      names σ.dcache i + unlinked σ.dcache i + owed.count i)
    (hrefs : ∀ i, pnodes dc i + extra'.count i = pnodes σ.dcache i + extra.count i)
    (hdotted : Dotted dc marked') (hroot : dc.entries.lookup (1, dot) = some 1) :
    Inv (σ.withDcache dc) extra' owed' marked' := by
  refine ⟨hcoherent, hsettled, fun i => ?_, fun i => ?_, h.live, h.cached, h.unused, hdotted, hroot,
    h.found⟩
  · rw [show (σ.withDcache dc).dcache = dc from rfl, hlinks]
    exact h.links i
  · have hcount := hrefs i
    have hold := h.refs i
    change (σ.inode i).refs = pnodes dc i + _ + _
    omega

/-! ### References and links -/

section

variable (h : Inv σ extra owed marked)

include h

theorem live_of_links (hlinks : 0 < (σ.inode i).links.toNat) : (σ.inode i).live = true :=
  (h.live i).mpr (Or.inl hlinks)

theorem le_nextId (hlive : (σ.inode i).live = true) : i ≤ σ.nextId := by
  by_contra hlt
  rw [h.unused i (not_le.mp hlt)] at hlive
  cases hlive

theorem getref (hlive : (σ.inode i).live = true) : Inv (σ.getref i) (i ::ₘ extra) owed marked := by
  have hrefs := h.refs i
  refine h.setInode (fun j hj => count_cons_of_ne hj _) (fun _ _ => rfl) (h.links i) ?_ ?_
    (h.cached i) fun _ => h.le_nextId hlive
  · rw [Multiset.count_cons_self]
    exact congrArg (· + 1) hrefs
  · exact ⟨fun _ => Or.inr (succ_pos _), fun _ => hlive⟩

/-- **A linked inode is found in the cache.** -/
theorem inodeLookup (hlinks : 0 < (σ.inode i).links.toNat) :
    Inv (σ.inodeLookup i) (i ::ₘ extra) owed marked := by
  have hget := h.getref (h.live_of_links hlinks)
  have hfound : (σ.astray || !(σ.inode i).live || (σ.inode i).uncached) = false := by
    rw [h.found, h.live_of_links hlinks, h.cached i hlinks]
    rfl
  exact ⟨hget.coherent, hget.settled, hget.links, hget.refs, hget.live, hget.cached, hget.unused,
    hget.dotted, hget.root, hfound⟩

omit h in
theorem lower (h : Inv σ extra (i ::ₘ owed) marked) (hextra : i ∈ extra) :
    Inv (σ.lower i) extra owed marked := by
  have hlinks := h.links i
  have hrefs := h.refs i
  have hcount := Multiset.count_pos.mpr hextra
  rw [Multiset.count_cons_self] at hlinks
  have hlower : ((σ.inode i).links - 1).toNat = (σ.inode i).links.toNat - 1 :=
    UInt16.toNat_sub_of_le _ _ (UInt16.le_iff_toNat_le.mpr (by change 1 ≤ _; omega))
  have hlive : (σ.inode i).live = true := h.live_of_links (by omega)
  refine h.setInode (fun _ _ => rfl) (fun j hj => (Multiset.count_cons_of_ne hj _).symm) ?_ hrefs ?_
    ?_ fun _ => h.le_nextId hlive
  · rw [hlower]
    omega
  · exact ⟨fun _ => Or.inr (by change 0 < (σ.inode i).refs; omega), fun _ => hlive⟩
  · exact fun _ => h.cached i (by omega)

theorem raise (hlive : (σ.inode i).live = true) (hcached : (σ.inode i).uncached = false)
    (hroom : (σ.inode i).links.toNat < 65535) : Inv (σ.raise i) extra (i ::ₘ owed) marked := by
  have hlinks := h.links i
  have hraise : ((σ.inode i).links + 1).toNat = (σ.inode i).links.toNat + 1 := by
    rw [UInt16.toNat_add]
    exact mod_eq_of_lt (succ_lt_succ hroom)
  refine h.setInode (fun _ _ => rfl) (fun j hj => count_cons_of_ne hj _) ?_ (h.refs i) ?_
    (fun _ => hcached) fun _ => h.le_nextId hlive
  · rw [hraise, Multiset.count_cons_self]
    omega
  · exact ⟨fun _ => Or.inl (by rw [hraise]; exact succ_pos _), fun _ => hlive⟩

end

theorem no_entries (h : Inv σ (i ::ₘ extra) owed marked) (hlinks : (σ.inode i).links = 0)
    (hrefs : (σ.inode i).refs = 1) {k : Key} (hk : σ.dcache.entries.lookup k = some target) :
    k.1 ≠ i := by
  rintro rfl
  have hcount := h.refs k.1
  rw [Multiset.count_cons_self] at hcount
  rcases h.dotted k target hk with hdot | ⟨o, _, ho⟩
  · have hnames := names_pos hdot
    have hzero := h.links k.1
    rw [hlinks] at hzero
    have hzero' : (0 : UInt16).toNat = 0 := rfl
    omega
  · -- the entry has an object, and that has a reference to the directory
    obtain ⟨d, hd, rfl, _⟩ := h.coherent.object k o ho
    have hpnodes := pnodes_pos hd
    omega

open State

/-- **A reference is dropped**; an inode without links is released with the last one. -/
theorem inodePut (h : Inv σ (i ::ₘ extra) owed marked) :
    Inv (σ.inodePut i) extra owed marked ∧ (σ.inodePut i).dcache = σ.dcache := by
  have hrefs := h.refs i
  rw [Multiset.count_cons_self] at hrefs
  have hextra (j : ℕ) (hj : j ≠ i) : extra.count j = (i ::ₘ extra).count j :=
    (Multiset.count_cons_of_ne hj _).symm
  have hlive : (σ.inode i).live = true := (h.live i).mpr (Or.inr (by omega))
  unfold State.inodePut
  dsimp only
  split
  case isTrue hzero =>
    have hlinks : (σ.inode i).links.toNat = 0 := by rw [hzero]; rfl
    split
    case isTrue hone =>
      have hrelease : σ.release i =
          σ.setInode i { σ.inode i with refs := 0, uncached := true, live := false } := by
        unfold release
        rw [restrict_eq_self fun k target hk =>
          decide_eq_true (h.no_entries hzero hone hk)]
        rfl
      rw [hrelease]
      refine ⟨h.setInode hextra (fun _ _ => rfl) (h.links i) ?_ ?_ ?_ fun hl => ?_, rfl⟩
      · change 0 = _
        omega
      · simp [hlinks]
      · exact fun hpos => absurd hlinks hpos.ne'
      · cases hl
    case isFalse hmore =>
      refine
        ⟨h.setInode hextra (fun _ _ => rfl) (h.links i) ?_ ?_ ?_ fun _ => h.le_nextId hlive, rfl⟩
      · change (σ.inode i).refs - 1 = _
        omega
      · exact ⟨fun _ => Or.inr (by change 0 < (σ.inode i).refs - 1; omega), fun _ => hlive⟩
      · exact fun hpos => absurd hlinks hpos.ne'
  case isFalse hlinks =>
    have hpos : 0 < (σ.inode i).links.toNat :=
      pos_of_ne_zero fun hzero => hlinks (UInt16.toNat_inj.mp hzero)
    have hcached := h.cached i hpos
    rw [if_neg (by simp [hcached])]
    refine ⟨h.setInode hextra (fun _ _ => rfl) (h.links i) ?_ ?_ (h.cached i)
      fun _ => h.le_nextId hlive, rfl⟩
    · change (σ.inode i).refs - 1 = _
      omega
    · exact ⟨fun _ => Or.inl hpos, fun _ => hlive⟩

/-! ### Objects -/

section

variable (h : Inv σ extra owed marked)

include h

theorem entry_of_cached (hcache : σ.dcache.cache.lookup k = some o) (hino : σ.ino o = some target) :
    σ.dcache.entries.lookup k = some target := by
  obtain ⟨d, hd, rfl, hun⟩ := h.coherent.object k o hcache
  obtain ⟨e, he, rfl⟩ := map_eq_some_iff.mp hino
  rw [hd] at he
  obtain rfl := some.inj he
  exact (h.coherent.cached o d hd hun).2

omit h in
theorem dot_of_entry (h : Inv σ extra owed []) (hk : σ.dcache.entries.lookup k = some target) :
    σ.dcache.entries.lookup (k.1, dot) = some k.1 :=
  (h.dotted k target hk).resolve_right fun ⟨_, hmem, _⟩ => not_mem_nil hmem

theorem links_pos_of_entry (hk : σ.dcache.entries.lookup k = some target) :
    0 < (σ.inode target).links.toNat := by
  have hlinks := h.links target
  have hpos := names_pos hk
  omega

variable (hd : σ.dcache.dirents.lookup o = some d)

include hd

theorem links_pos_of_dirent : 0 < (σ.inode d.ino).links.toNat := by
  have hlinks := h.links d.ino
  cases hun : d.uncached with
  | true =>
    have hpos := unlinked_pos hd hun
    omega
  | false => exact h.links_pos_of_entry (h.coherent.cached o d hd hun).2

theorem setDirent {e : Dirent} (hkey : e.key = d.key) (hino : e.ino = d.ino)
    (huncached : e.uncached = d.uncached) (hunlink : d.unlink = true → e.unlink = true)
    (hsettled : (σ.dcache.setDirent o e).Settled marked') (hdotted : Dotted σ.dcache marked') :
    Inv (σ.withDcache (σ.dcache.setDirent o e)) extra owed marked' := by
  refine h.withDcache (h.coherent.setDirent hd hkey hino huncached hunlink) hsettled (fun i => ?_)
    (fun i => ?_) hdotted h.root
  · rw [unlinked_setDirent hd hino huncached]
    rfl
  · rw [pnodes_setDirent hd hkey]

/-- The object of an unlinked entry goes: its reference to the directory and its link are left to
the call. -/
theorem forget (hun : d.uncached = true) :
    Inv (σ.withDcache (σ.dcache.forget o)) (d.key.1 ::ₘ extra) (d.ino ::ₘ owed) marked := by
  refine h.withDcache (h.coherent.forget (h.coherent.not_cached hd hun))
    (fun o' e he => h.settled o' e (lookup_erase_eq_some.mp he).2) (fun i => ?_)
    (fun i => ?_)
    h.dotted h.root
  · have hcount := unlinked_forget hd i
    rw [hun] at hcount
    simp only [true_and] at hcount
    rw [Multiset.count_cons, ← hcount]
    change names σ.dcache i + _ + _ = names σ.dcache i + _ + _
    omega
  · have hcount := pnodes_forget hd i
    rw [Multiset.count_cons, ← hcount]
    omega

end

/-- An object that nobody holds leaves the cache: its reference to the directory is left to the
call. -/
theorem evictDirent {dc : Dcache.State} (h : Inv σ extra owed [])
    (hevict : σ.dcache.evict o = some (d, dc)) :
    Inv (σ.withDcache dc) (d.key.1 ::ₘ extra) owed [] ∧ d.unlink = false := by
  have hcoherent := h.coherent.evict hevict
  have hsettled := h.settled.evict hevict
  obtain ⟨hd, _, hun, rfl⟩ := evict_eq_some hevict
  refine ⟨h.withDcache hcoherent hsettled (fun i => ?_) (fun i => ?_) ?_ h.root, ?_⟩
  · have hcount := unlinked_forget hd i
    rw [hun] at hcount
    simp only [Bool.false_eq_true, false_and, if_false, add_zero] at hcount
    exact congrArg (names σ.dcache i + · + owed.count i) hcount
  · have hcount := pnodes_forget hd i
    rw [Multiset.count_cons, ← hcount]
    change pnodes (σ.dcache.forget o) i + _ = _
    omega
  · exact fun k target hk => Or.inl (h.dot_of_entry hk)
  · rw [Bool.eq_false_iff]
    intro hlink
    rcases h.settled o d hd hlink with hun' | hmem
    · rw [hun] at hun'
      cases hun'
    · cases hmem

/-- **The entry of a marked object is taken out**, and the object is an unlinked one. If it is the
`.` entry of a directory, what is left in the directory is about to be taken out as well. -/
theorem uncache (h : Inv σ extra owed (o :: marked)) (hd : σ.dcache.dirents.lookup o = some d)
    (hun : d.uncached = false) (hlink : d.unlink = true)
    (hdot : d.key.2 = dot → d.key.1 ≠ 1 ∧ ∀ k target, σ.dcache.entries.lookup k = some target →
      k.1 = d.key.1 → k ≠ d.key → ∃ o' ∈ marked, σ.dcache.cache.lookup k = some o') :
    Inv (σ.withDcache (σ.dcache.uncache o d)) extra owed marked := by
  obtain ⟨hcache, hentry⟩ := h.coherent.cached o d hd hun
  refine h.withDcache (h.coherent.uncache hd hun hlink) (fun o' e he hlink' => ?_) (fun i => ?_)
    (fun i => ?_) (fun k target hk => ?_) ?_
  · rcases lookup_insert_eq_some.mp he with ⟨_, rfl⟩ | ⟨hne, he⟩
    · exact Or.inl rfl
    · exact (h.settled o' e he hlink').imp_right fun hmem =>
        (mem_cons.mp hmem).resolve_left hne
  · rw [names_unlinked_uncache hd hun hentry]
  · rw [pnodes_uncache hd]
  · obtain ⟨hne, hk⟩ := lookup_erase_eq_some.mp hk
    -- the object of the entry is still in the cache
    have hkeep {o' : ℕ} (ho' : σ.dcache.cache.lookup k = some o') :
        (σ.dcache.uncache o d).cache.lookup k = some o' :=
      (lookup_erase_ne hne).trans ho'
    rcases h.dotted k target hk with hdotted | ⟨o', hmem, ho'⟩
    · by_cases hkey : d.key = (k.1, dot)
      · have hsame : k.1 = d.key.1 := by rw [hkey]
        obtain ⟨o', hmem, ho'⟩ := (hdot (by rw [hkey])).2 k target hk hsame hne
        exact Or.inr ⟨o', hmem, hkeep ho'⟩
      · exact Or.inl ((lookup_erase_ne (Ne.symm hkey)).trans hdotted)
    · have hne' : o' ≠ o := by
        rintro rfl
        exact hne (h.coherent.object_eq ho' hd).1.symm
      exact Or.inr ⟨o', (mem_cons.mp hmem).resolve_left hne', hkeep ho'⟩
  · have hne : (1, dot) ≠ d.key := by
      intro heq
      exact (hdot (by rw [← heq])).1 (by rw [← heq])
    exact (lookup_erase_ne hne).trans h.root

/-! ### The functions of the cache -/

theorem direntFree_unlinked (h : Inv σ (d.key.1 ::ₘ extra) (d.ino ::ₘ owed) marked)
    (hlink : d.unlink = true) :
    Inv (σ.direntFree d) extra owed marked ∧ (σ.direntFree d).dcache = σ.dcache := by
  have hlinks : 0 < (σ.inode d.ino).links.toNat := by
    have hcount := h.links d.ino
    rw [Multiset.count_cons_self] at hcount
    omega
  have hlower := (h.inodeLookup hlinks).lower (mem_cons_self ..)
  obtain ⟨hino, hdcache⟩ := hlower.inodePut
  obtain ⟨hdir, hdcache'⟩ := hino.inodePut
  unfold direntFree
  rw [if_pos hlink]
  exact ⟨hdir, hdcache'.trans hdcache⟩

theorem direntFree_linked (h : Inv σ (d.key.1 ::ₘ extra) owed marked) (hlink : d.unlink = false) :
    Inv (σ.direntFree d) extra owed marked := by
  unfold direntFree
  rw [if_neg (by simp [hlink])]
  exact h.inodePut.1

theorem afterPut (h : Inv σ extra owed marked) (hd : σ.dcache.dirents.lookup o = some d)
    (hun : d.uncached = true) :
    Inv (σ.afterPut (σ.dcache.putref o d)) extra owed marked ∧
      (σ.afterPut (σ.dcache.putref o d)).dcache = (σ.dcache.putref o d).2 := by
  unfold putref
  split
  · exact (h.forget hd hun).direntFree_unlinked (h.coherent.unlinked o d hd hun)
  · exact ⟨h.setDirent hd rfl rfl rfl id (h.settled.setDirent (h.settled o d hd)) h.dotted, rfl⟩

theorem unmark (h : Inv σ extra owed (o :: marked)) (hd : σ.dcache.dirents.lookup o = some d)
    (hun : d.uncached = true) : Inv σ extra owed marked := by
  refine ⟨h.coherent, fun o' e he hlink => ?_, h.links, h.refs, h.live, h.cached, h.unused,
    fun k target hk => ?_, h.root, h.found⟩
  · rcases h.settled o' e he hlink with hun' | hmem
    · exact Or.inl hun'
    · rcases mem_cons.mp hmem with rfl | hmem
      · rw [hd] at he
        exact Or.inl (some.inj he ▸ hun)
      · exact Or.inr hmem
  · refine (h.dotted k target hk).imp_right fun ⟨o', hmem, ho'⟩ => ⟨o', ?_, ho'⟩
    refine (mem_cons.mp hmem).resolve_left ?_
    rintro rfl
    exact h.coherent.not_cached hd hun k ho'

/-- **A marked object is put.** -/
theorem direntPut_marked {r : Option Dirent × Dcache.State} (h : Inv σ extra owed (o :: marked))
    (hmarked : ∀ d, σ.dcache.dirents.lookup o = some d → d.unlink = true)
    (hdot : ∀ d, σ.dcache.dirents.lookup o = some d → d.uncached = false → d.key.2 = dot →
      d.key.1 ≠ 1 ∧ ∀ k target, σ.dcache.entries.lookup k = some target →
        k.1 = d.key.1 → k ≠ d.key → ∃ o' ∈ marked, σ.dcache.cache.lookup k = some o')
    (hput : σ.dcache.direntPut o = some r) :
    Inv (σ.afterPut r) extra owed marked ∧ (σ.afterPut r).dcache = r.2 := by
  obtain ⟨d, hd, _, ⟨hun, rfl⟩ | ⟨hun, hlink, rfl⟩ | ⟨_, hlink, rfl⟩⟩ :=
    direntPut_eq_some hput
  · exact (h.unmark hd hun).afterPut hd hun
  · have huncache := h.uncache hd hun hlink (hdot d hd hun)
    exact huncache.afterPut (lookup_insert _) rfl
  · rw [hmarked d hd] at hlink
    cases hlink

section

variable (h : Inv σ extra owed [])

include h

/-- **A file is closed.** -/
theorem direntPut (hput : σ.direntPut o = some τ) : Inv τ extra owed [] := by
  obtain ⟨r, hr, rfl⟩ := map_eq_some_iff.mp hput
  obtain ⟨d, hd, _, ⟨hun, rfl⟩ | ⟨hun, hlink, rfl⟩ | ⟨_, hlink, rfl⟩⟩ :=
    direntPut_eq_some hr
  · exact (h.afterPut hd hun).1
  · rcases h.settled o d hd hlink with hun' | hmem
    · rw [hun] at hun'
      cases hun'
    · cases hmem
  · exact h.setDirent hd rfl rfl rfl id (h.settled.setDirent (h.settled o d hd)) h.dotted

/-- **An object that nobody holds is given up.** -/
theorem evict (hevict : σ.evict o = some τ) : Inv τ extra owed [] := by
  obtain ⟨⟨d, dc⟩, hdc, rfl⟩ := map_eq_some_iff.mp hevict
  obtain ⟨hinv, hlink⟩ := h.evictDirent hdc
  exact hinv.direntFree_linked hlink

/-- **An entry is looked up.** -/
theorem direntLookup (hlookup : σ.direntLookup k = some (o, τ)) :
    Inv τ extra owed [] ∧ σ.dcache.direntLookup k = some (o, τ.dcache) := by
  obtain ⟨⟨o', dc⟩, hdc, heq⟩ := map_eq_some_iff.mp hlookup
  obtain ⟨rfl, rfl⟩ := Prod.mk.inj heq
  refine ⟨?_, hdc⟩
  have hcoherent := h.coherent.direntLookup hdc
  have hsettled := h.settled.direntLookup hdc
  rcases direntLookup_eq_some hdc with ⟨d, hcache, hd, rfl⟩ |
    ⟨target, hcache, hk, rfl, rfl⟩
  · rw [hcache]
    exact h.setDirent hd rfl rfl rfl id hsettled h.dotted
  · rw [hcache]
    have hnew : σ.dcache.dirents.lookup σ.dcache.next = none := by
      by_contra hsome
      obtain ⟨d, hd⟩ := ne_none_iff_exists'.mp hsome
      exact (h.coherent.lt_next _ d hd).ne rfl
    refine (h.inodeLookup (h.links_pos_of_entry (h.dot_of_entry hk))).withDcache hcoherent hsettled
      (fun i => ?_) (fun i => ?_) (fun l target hl => Or.inl (h.dot_of_entry hl)) h.root
    · rw [unlinked_addDirent hnew]
      rfl
    · rw [pnodes_addDirent hnew, Multiset.count_cons]
      change _ = pnodes σ.dcache i + _
      omega

omit h in
/-- **`__unlink` marks an object.** -/
theorem unlinkMark (h : Inv σ extra owed marked) (hmark : σ.unlinkMark o = some τ) :
    Inv τ extra owed (o :: marked) ∧ τ.dcache = σ.dcache.mark o := by
  obtain ⟨i, hi, rfl⟩ := map_eq_some_iff.mp hmark
  obtain ⟨d, hd, rfl⟩ := map_eq_some_iff.mp hi
  have hsettled := h.settled.mark o
  rw [mark_eq hd] at hsettled ⊢
  have hlookup := h.inodeLookup (h.links_pos_of_dirent hd)
  have hdotted : Dotted σ.dcache (o :: marked) := fun k target hk =>
    (h.dotted k target hk).imp_right fun ⟨o', hmem, ho'⟩ => ⟨o', mem_cons_of_mem o hmem, ho'⟩
  exact (hlookup.setDirent (e := { d with unlink := true }) hd rfl rfl rfl (fun _ => rfl) hsettled
    hdotted).inodePut

/-- **An entry is made**, in a directory that has its `.` entry, or as that entry. -/
theorem fsLink (hlink : σ.fsLink k target = some τ) (hlive : (σ.inode target).live = true)
    (hcached : (σ.inode target).uncached = false) (hroom : (σ.inode target).links.toNat < 65535)
    (hdot : σ.dcache.entries.lookup (k.1, dot) = some k.1 ∨ k = (target, dot)) :
    Inv τ extra owed [] := by
  obtain ⟨dc, hdc, rfl⟩ := map_eq_some_iff.mp hlink
  have hcoherent := h.coherent.fsLink hdc
  obtain ⟨hnone, rfl⟩ := fsLink_eq_some hdc
  have hkeep {l : Key} {v : ℕ} (hl : σ.dcache.entries.lookup l = some v) :
      (σ.dcache.addEntry k target).entries.lookup l = some v := by
    have hne : l ≠ k := by
      rintro rfl
      rw [hnone] at hl
      cases hl
    exact (lookup_insert_ne hne).trans hl
  refine (h.raise hlive hcached hroom).withDcache hcoherent h.settled (fun i => ?_) (fun _ => rfl)
    (fun l v hl => Or.inl ?_) (hkeep h.root)
  · have hnames := names_addEntry target hnone i
    change names (σ.dcache.addEntry k target) i + unlinked σ.dcache i + _ =
      names σ.dcache i + unlinked σ.dcache i + _
    rw [hnames, Multiset.count_cons]
    omega
  · rcases lookup_insert_eq_some.mp hl with ⟨rfl, rfl⟩ | ⟨_, hl⟩
    · rcases hdot with hdot | rfl
      · exact hkeep hdot
      · exact lookup_insert _
    · exact hkeep (h.dot_of_entry hl)

end

/-! ### The calls -/

variable {p : Place} {name : Name}

section

variable (h : Inv σ extra owed [])

include h

/-- **A call starts** at an inode that is in the cache. -/
theorem start (hstart : σ.start p = some (i, τ)) :
    Inv τ (i ::ₘ extra) owed [] ∧ τ.dcache = σ.dcache ∧ τ.nextId = σ.nextId ∧
      σ.placeIno p = some i := by
  obtain ⟨i, hi, heq⟩ := map_eq_some_iff.mp hstart
  obtain ⟨rfl, rfl⟩ := Prod.mk.inj heq
  cases p with
  | root =>
    obtain rfl := some.inj hi
    exact ⟨h.getref (h.live_of_links (h.links_pos_of_entry h.root)), rfl, rfl, rfl⟩
  | held o =>
    obtain ⟨d, hd, rfl⟩ := map_eq_some_iff.mp hi
    exact ⟨h.inodeLookup (h.links_pos_of_dirent (filter_eq_some_iff.mp hd).1), rfl, rfl, hi⟩

theorem startDir (hstart : σ.startDir p = some (i, τ)) :
    Inv τ (i ::ₘ extra) owed [] ∧ τ.dcache = σ.dcache ∧ τ.nextId = σ.nextId ∧
      σ.placeIno p = some i ∧ (σ.inode i).isDir = true := by
  obtain ⟨hstart, hisDir⟩ := filter_eq_some_iff.mp hstart
  obtain ⟨hinv, hdcache, hnext, hplace⟩ := h.start hstart
  exact ⟨hinv, hdcache, hnext, hplace, hisDir⟩

omit h in
theorem openAt (h : Inv σ 0 0 []) (hopen : σ.openAt p name = some τ) : Inv τ 0 0 [] := by
  obtain ⟨⟨dir, σ₁⟩, hdir, hopen⟩ := bind_eq_some_iff.mp hopen
  obtain ⟨⟨o, σ₂⟩, hfound, hopen⟩ := bind_eq_some_iff.mp hopen
  obtain ⟨next, hnext, hopen⟩ := bind_eq_some_iff.mp hopen
  obtain rfl := some.inj hopen
  obtain ⟨h₁, _⟩ := h.startDir hdir
  obtain ⟨h₂, _⟩ := h₁.direntLookup hfound
  obtain ⟨d, hd, rfl⟩ := map_eq_some_iff.mp hnext
  have h₃ := h₂.inodeLookup (h₂.links_pos_of_dirent hd)
  rw [cons_swap] at h₃
  exact h₃.inodePut.1.inodePut.1

/-- **A new inode** has a reference and no links. -/
theorem allocInode (isDir : Bool) :
    Inv (σ.allocInode isDir) ((σ.nextId + 1) ::ₘ extra) owed [] := by
  have hdead := h.unused (σ.nextId + 1) (lt_succ_self _)
  have hnot : ¬(0 < (σ.inode (σ.nextId + 1)).links.toNat ∨ 0 < (σ.inode (σ.nextId + 1)).refs) := by
    rw [← h.live, hdead]
    exact Bool.false_ne_true
  have hlinks := h.links (σ.nextId + 1)
  have hrefs := h.refs (σ.nextId + 1)
  have hnext : Inv { σ with nextId := σ.nextId + 1 } extra owed [] :=
    ⟨h.coherent, h.settled, h.links, h.refs, h.live, h.cached,
      fun i hi => h.unused i (lt_of_succ_lt hi), h.dotted, h.root, h.found⟩
  refine hnext.setInode (fun j hj => count_cons_of_ne hj _) (fun _ _ => rfl) ?_ ?_ ?_ ?_
    fun _ => le_rfl
  · change 0 = names σ.dcache _ + unlinked σ.dcache _ + _
    omega
  · rw [Multiset.count_cons_self]
    change 1 = pnodes σ.dcache _ + _ + _
    omega
  · exact ⟨fun _ => Or.inr one_pos, fun _ => rfl⟩
  · exact fun _ => rfl

theorem linkDots {dir : ℕ} {isDir : Bool} (hnew : σ.inode target = ⟨isDir, 0, false, 1, true⟩)
    (hne : dir ≠ target) (hdot : σ.dcache.entries.lookup (dir, dot) = some dir)
    (hroom : isDir = true → (σ.inode dir).links.toNat < 65535)
    (hlink : σ.linkDots dir target isDir = some τ) :
    Inv τ extra owed [] ∧ τ.dcache.entries.lookup (dir, dot) = some dir ∧
      (τ.inode target).live = true ∧ (τ.inode target).uncached = false ∧
      (τ.inode target).links.toNat < 65535 := by
  cases isDir with
  | false =>
    obtain rfl := some.inj hlink
    rw [hnew]
    exact ⟨h, hdot, rfl, rfl, by decide⟩
  | true =>
    obtain ⟨σ₀, hlink₀, hlink₁⟩ := bind_eq_some_iff.mp hlink
    have h₀ := h.fsLink hlink₀ (by rw [hnew]) (by rw [hnew]) (by rw [hnew]; decide) (Or.inr rfl)
    obtain ⟨hdcache₀, htarget₀, hother₀⟩ := fsLink_eq_some hlink₀
    obtain ⟨hdcache₁, _, hother₁⟩ := fsLink_eq_some hlink₁
    -- the inode of the directory is not the new one
    have hdir := hother₀ dir hne
    have hpos := h.links_pos_of_entry hdot
    have h₁ := h₀.fsLink (k := (target, dotdot)) hlink₁
      (by rw [hdir]; exact h.live_of_links hpos) (by rw [hdir]; exact h.cached dir hpos)
      (by rw [hdir]; exact hroom rfl) (Or.inl (by rw [hdcache₀]; exact lookup_insert _))
    refine ⟨h₁, ?_, ?_⟩
    · have hne₀ : (dir, dot) ≠ (target, dot) := fun heq => hne (Prod.mk.inj heq).1
      have hne₁ : (dir, dot) ≠ (target, dotdot) := fun heq => hne (Prod.mk.inj heq).1
      rw [hdcache₁, hdcache₀]
      exact (lookup_insert_ne hne₁).trans ((lookup_insert_ne hne₀).trans hdot)
    · rw [hother₁ target hne.symm, htarget₀, hnew]
      exact ⟨rfl, rfl, by decide⟩

end

variable (h : Inv σ 0 0 [])

include h

theorem createAt {isDir : Bool} (hready : σ.Ready (.createAt p name isDir))
    (hcreate : σ.createAt p name isDir = some τ) : Inv τ 0 0 [] := by
  obtain ⟨⟨dir, σ₁⟩, hdir, hcreate⟩ := bind_eq_some_iff.mp hcreate
  obtain ⟨σ₂, hdots, hcreate⟩ := bind_eq_some_iff.mp hcreate
  obtain ⟨σ₃, hlink, hcreate⟩ := bind_eq_some_iff.mp hcreate
  obtain ⟨⟨o, σ₄⟩, hfound, hcreate⟩ := bind_eq_some_iff.mp hcreate
  obtain ⟨next, hnext, hcreate⟩ := bind_eq_some_iff.mp hcreate
  obtain rfl := some.inj hcreate
  obtain ⟨h₁, hdcache, hid, hplace, _⟩ := h.startDir hdir
  obtain ⟨hhas, hroom⟩ := hready dir hplace
  rw [← hid] at hdots hlink ⊢
  obtain ⟨v, hv⟩ := isSome_iff_exists.mp hhas
  have hdot : σ₁.dcache.entries.lookup (dir, dot) = some dir := by
    rw [hdcache]
    exact h.dot_of_entry hv
  have hpos := h₁.links_pos_of_entry hdot
  have hne : dir ≠ σ₁.nextId + 1 :=
    (lt_succ_of_le (h₁.le_nextId (h₁.live_of_links hpos))).ne
  have h₂ := h₁.allocInode isDir
  have hlinks : (σ₁.inode dir).links.toNat = names σ.dcache dir + unlinked σ.dcache dir := by
    rw [h₁.links dir, hdcache]
    rfl
  have hsame : (σ₁.allocInode isDir).inode dir = σ₁.inode dir := update_of_ne hne ..
  obtain ⟨h₃, hdot₃, hlive, hcached, hroom₃⟩ := h₂.linkDots (update_self ..) hne hdot
    (fun hisDir => by rw [hsame, hlinks]; exact hroom hisDir) hdots
  have h₄ := h₃.fsLink hlink hlive hcached hroom₃ (Or.inl hdot₃)
  obtain ⟨h₅, _⟩ := h₄.direntLookup hfound
  obtain ⟨h₆, hdcache₆⟩ := h₅.inodePut
  obtain ⟨d, hd, rfl⟩ := map_eq_some_iff.mp hnext
  have h₇ := h₆.inodeLookup (h₆.links_pos_of_dirent (by rw [hdcache₆]; exact hd))
  rw [cons_swap] at h₇
  exact h₇.inodePut.1.inodePut.1

theorem linkAt (hready : σ.Ready (.linkAt p name o)) (hlink : σ.linkAt p name o = some τ) :
    Inv τ 0 0 [] := by
  obtain ⟨⟨dir, σ₁⟩, hdir, hlink⟩ := bind_eq_some_iff.mp hlink
  obtain ⟨⟨target, σ₂⟩, htarget, hlink⟩ := bind_eq_some_iff.mp hlink
  obtain ⟨σ₃, hnew, hlink⟩ := bind_eq_some_iff.mp hlink
  obtain rfl := some.inj hlink
  obtain ⟨h₁, hdcache₁, _, hplace, _⟩ := h.startDir hdir
  obtain ⟨h₂, hdcache₂, _, hheld⟩ := h₁.start (filter_eq_some_iff.mp htarget).1
  obtain ⟨hhas, hroom⟩ := hready
  obtain ⟨v, hv⟩ := isSome_iff_exists.mp (hhas dir hplace)
  obtain ⟨d, hd, rfl⟩ := map_eq_some_iff.mp hheld
  have hdcache := hdcache₂.trans hdcache₁
  have hd : σ₂.dcache.dirents.lookup o = some d := by
    rw [hdcache₂]
    exact (filter_eq_some_iff.mp hd).1
  have hpos := h₂.links_pos_of_dirent hd
  have hlinks : (σ₂.inode d.ino).links.toNat = names σ.dcache d.ino + unlinked σ.dcache d.ino := by
    rw [h₂.links d.ino, hdcache]
    rfl
  have hino : d.ino ∈ σ.ino o := by
    rw [ino, ← hdcache, hd]
    rfl
  have hdot : σ₂.dcache.entries.lookup (dir, dot) = some dir := by
    rw [hdcache]
    exact h.dot_of_entry hv
  have h₃ := h₂.fsLink hnew (h₂.live_of_links hpos) (h₂.cached _ hpos)
    (by rw [hlinks]; exact hroom d.ino hino) (Or.inl hdot)
  exact h₃.inodePut.1.inodePut.1

theorem unlinkAt (hunlink : σ.unlinkAt p name = some τ) : Inv τ 0 0 [] := by
  obtain ⟨⟨dir, σ₁⟩, hdir, hunlink⟩ := bind_eq_some_iff.mp hunlink
  obtain ⟨⟨o, σ₂⟩, hfound, hunlink⟩ := bind_eq_some_iff.mp hunlink
  obtain ⟨i, hi, hunlink⟩ := bind_eq_some_iff.mp hunlink
  obtain ⟨σ₃, hmark, hunlink⟩ := bind_eq_some_iff.mp hunlink
  obtain ⟨σ₄, hput, hunlink⟩ := bind_eq_some_iff.mp hunlink
  obtain rfl := some.inj hunlink
  obtain ⟨h₁, _, _, _, hisDir⟩ := h.startDir hdir
  obtain ⟨h₂, hlookup⟩ := h₁.direntLookup hfound
  obtain ⟨h₃, hdcache⟩ := h₂.unlinkMark hmark
  obtain ⟨r, hr, rfl⟩ := map_eq_some_iff.mp hput
  have hcache := (cache_direntLookup hlookup).1
  have hmarked := h₂.coherent.marked hcache
  rw [← hdcache] at hmarked
  refine
    (h₃.direntPut_marked (fun d hd => (hmarked d hd).2) (fun d hd _ hdot => ?_) hr).1.inodePut.1
  -- a `.` entry names the directory, and that is refused
  obtain ⟨hi, hnotDir⟩ := filter_eq_some_iff.mp hi
  have hentry := h₂.entry_of_cached hcache hi
  have hself := h₂.dot_of_entry hentry
  have hname : name = dot := by
    rw [← hdot, (hmarked d hd).1]
  rw [hname, hself] at hentry
  obtain rfl := some.inj hentry
  simp [hisDir] at hnotDir

omit h in
/-- **The marked objects are put**: the `.` entry goes first, when `..` is about to go. -/
theorem putRemoved {pp sp : ℕ} {σ' : State} (h : Inv σ (target ::ₘ extra) owed [sp, pp, o])
    (hrem : Removing σ.dcache k target o pp sp)
    (hputs : ((σ.direntPut sp).bind fun τ => τ.direntPut pp) = some σ')
    (hlast : (σ'.inodePut target).direntPut o = some τ) : Inv τ extra owed [] := by
  obtain ⟨σ₁, hput₁, hput₂⟩ := bind_eq_some_iff.mp hputs
  obtain ⟨r₁, hr₁, rfl⟩ := map_eq_some_iff.mp hput₁
  obtain ⟨r₂, hr₂, rfl⟩ := map_eq_some_iff.mp hput₂
  obtain ⟨r₃, hr₃, rfl⟩ := map_eq_some_iff.mp hlast
  -- what is left with `.` is `..`, which is marked
  have hleft (d : Dirent) (hd : σ.dcache.dirents.lookup sp = some d) (l : Key) (v : ℕ)
      (hl : σ.dcache.entries.lookup l = some v) (hsame : l.1 = d.key.1) (hne : l ≠ d.key) :
      ∃ o' ∈ [pp, o], σ.dcache.cache.lookup l = some o' := by
    obtain ⟨hkey, _⟩ := hrem.marked_self d hd
    rw [hkey] at hsame hne
    have hdotdot : l = (target, dotdot) := by
      rcases hrem.empty l v hl hsame with hdot | hdotdot
      · exact absurd (Prod.ext hsame hdot) hne
      · exact Prod.ext hsame hdotdot
    exact ⟨pp, mem_cons_self, hdotdot ▸ hrem.parent⟩
  have hself (d : Dirent) (hd : σ.dcache.dirents.lookup sp = some d) : d.key.1 ≠ 1 := by
    rw [(hrem.marked_self d hd).1]
    exact hrem.not_root
  obtain ⟨h₁, hdcache₁⟩ := h.direntPut_marked (fun d hd => (hrem.marked_self d hd).2)
    (fun d hd _ _ => ⟨hself d hd, hleft d hd⟩) hr₁
  rw [hdcache₁] at hr₂
  have hparent := hrem.marked_parent.direntPut hr₁
  rw [← hdcache₁] at hparent hr₂
  have hne : dotdot ≠ dot := by decide
  obtain ⟨h₂, hdcache₂⟩ := h₁.direntPut_marked (fun d hd => (hparent d hd).2)
    (fun d hd _ hdot => absurd ((congrArg Prod.snd (hparent d hd).1).symm.trans hdot) hne) hr₂
  obtain ⟨h₃, hdcache₃⟩ := h₂.inodePut
  rw [hdcache₂] at hdcache₃
  rw [hdcache₁] at hr₂
  have hmarked := (hrem.marked.direntPut hr₁).direntPut hr₂
  rw [← hdcache₃] at hmarked
  refine (h₃.direntPut_marked (fun d hd => (hmarked d hd).2) (fun d hd hun hdot => ?_) hr₃).1
  -- the `.` entry went with the first object
  have hentry := (h₃.coherent.cached o d hd hun).2
  have hkey : d.key = (target, dot) := by
    rw [(hmarked d hd).1] at hdot ⊢
    exact Prod.ext (hrem.dot_iff hdot) hdot
  have hgone := entries_direntPut_marked h.coherent hrem.self hrem.marked_self hr₁
  rw [hdcache₃, hkey] at hentry
  rw [entries_of_direntPut hr₂ hentry] at hgone
  cases hgone

omit h in
/-- **The objects of an empty directory are looked up and marked.** -/
theorem markRemoved {target pp sp : ℕ} {σ₁ σ₂ : State} (h : Inv σ extra owed [])
    (hcache : σ.dcache.cache.lookup k = some o) (htarget : σ.ino o = some target)
    (hpp : (σ.inodeLookup target).direntLookup (target, dotdot) = some (pp, σ₁))
    (hsp : σ₁.direntLookup (target, dot) = some (sp, σ₂))
    (hmarks : ((σ₂.unlinkMark o).bind fun τ => (τ.unlinkMark pp).bind fun τ => τ.unlinkMark sp) =
      some τ)
    (hempty : ∀ l v, σ.dcache.entries.lookup l = some v → l.1 = target → l.2 = dot ∨ l.2 = dotdot)
    (hroot : target ≠ 1) :
    Inv τ (target ::ₘ extra) owed [sp, pp, o] ∧ Removing τ.dcache k target o pp sp := by
  obtain ⟨σ₃, hmark₃, hmarks⟩ := bind_eq_some_iff.mp hmarks
  obtain ⟨σ₄, hmark₄, hmark⟩ := bind_eq_some_iff.mp hmarks
  have hentry := h.entry_of_cached hcache htarget
  obtain ⟨h₁, hlookup₁⟩ := (h.inodeLookup (h.links_pos_of_entry hentry)).direntLookup hpp
  obtain ⟨hcache₁, hkeep₁⟩ := cache_direntLookup hlookup₁
  obtain ⟨h₂, hlookup₂⟩ := h₁.direntLookup hsp
  obtain ⟨hcache₂, hkeep₂⟩ := cache_direntLookup hlookup₂
  obtain ⟨h₃, hdcache₃⟩ := h₂.unlinkMark hmark₃
  obtain ⟨h₄, hdcache₄⟩ := h₃.unlinkMark hmark₄
  obtain ⟨hτ, hdcache⟩ := h₄.unlinkMark hmark
  -- the marks change neither the cache nor the entries
  have hsame₃ : σ₃.dcache.cache = σ₂.dcache.cache := by rw [hdcache₃, cache_mark]
  have hsame₄ : σ₄.dcache.cache = σ₂.dcache.cache := by
    rw [hdcache₄, cache_mark, hsame₃]
  have hsame : τ.dcache.cache = σ₂.dcache.cache := by
    rw [hdcache, cache_mark, hsame₄]
  have hentries : τ.dcache.entries = σ.dcache.entries := by
    rw [hdcache, entries_mark, hdcache₄, entries_mark, hdcache₃,
      entries_mark, entries_direntLookup hlookup₂,
      entries_direntLookup hlookup₁]
    rfl
  have hparent := hkeep₂ _ _ hcache₁
  refine ⟨hτ, by rw [hsame]; exact hcache₂, by rw [hsame]; exact hparent, ?_, ?_, ?_, ?_, hroot, ?_⟩
  · rw [hdcache, hdcache₄, hdcache₃]
    exact ((h₂.coherent.marked (hkeep₂ _ _ (hkeep₁ _ _ hcache))).mark pp).mark sp
  · rw [hdcache, hdcache₄]
    exact (h₃.coherent.marked (by rw [hsame₃]; exact hparent)).mark sp
  · rw [hdcache]
    exact h₄.coherent.marked (by rw [hsame₄]; exact hcache₂)
  · rw [hentries]
    exact hempty
  · intro hdot
    have hself := h.dot_of_entry hentry
    rw [← hdot] at hself
    exact some.inj (hself.symm.trans hentry)

theorem rmdirAt (hready : σ.Ready (.rmdirAt p name)) (hrmdir : σ.rmdirAt p name = some τ) :
    Inv τ 0 0 [] := by
  obtain ⟨⟨dir, σ₁⟩, hdir, hrmdir⟩ := bind_eq_some_iff.mp hrmdir
  obtain ⟨⟨o, σ₂⟩, hfound, hrmdir⟩ := bind_eq_some_iff.mp hrmdir
  obtain ⟨target, htarget, hrmdir⟩ := bind_eq_some_iff.mp hrmdir
  obtain ⟨⟨pp, σ₃⟩, hpp, hrmdir⟩ := bind_eq_some_iff.mp hrmdir
  obtain ⟨⟨sp, σ₄⟩, hsp, hrmdir⟩ := bind_eq_some_iff.mp hrmdir
  obtain ⟨σ₅, hmarks, hrmdir⟩ := bind_eq_some_iff.mp hrmdir
  obtain ⟨σ₆, hputs, hrmdir⟩ := bind_eq_some_iff.mp hrmdir
  obtain ⟨σ₇, hlast, hrmdir⟩ := bind_eq_some_iff.mp hrmdir
  obtain rfl := some.inj hrmdir
  obtain ⟨htarget, hisDir⟩ := filter_eq_some_iff.mp htarget
  obtain ⟨h₁, hdcache₁, _, hplace, _⟩ := h.startDir hdir
  obtain ⟨h₂, hlookup⟩ := h₁.direntLookup hfound
  have hcache := (cache_direntLookup hlookup).1
  have hentries : σ₂.dcache.entries = σ.dcache.entries := by
    rw [entries_direntLookup hlookup, hdcache₁]
  have hempty (l : Key) (v : ℕ) (hl : σ₂.dcache.entries.lookup l = some v) (hsame : l.1 = target) :
      l.2 = dot ∨ l.2 = dotdot := by
    rw [hentries] at hl
    have hnone :=
      count_eq_zero.mp (of_decide_eq_true (Bool.and_eq_true_iff.mp hisDir).2) l v hl
    by_contra hother
    push Not at hother
    exact of_decide_eq_false hnone ⟨hsame, hother⟩
  have hroot : target ≠ 1 := by
    rintro rfl
    refine hready dir hplace ?_
    rw [← hentries]
    exact h₂.entry_of_cached hcache htarget
  obtain ⟨h₅, hremoving⟩ := h₂.markRemoved hcache htarget hpp hsp hmarks hempty hroot
  exact (h₅.putRemoved hremoving hputs hlast).inodePut.1

/-- **Every call under the condition keeps the invariant.** -/
theorem exec {e : Event} (hexec : σ.exec e = some τ) (hready : σ.Ready e) : Inv τ 0 0 [] := by
  cases e with
  | openAt p name => exact h.openAt hexec
  | close o => exact h.direntPut hexec
  | evict o => exact h.evict hexec
  | createAt p name isDir => exact h.createAt hready hexec
  | linkAt p name o => exact h.linkAt hready hexec
  | unlinkAt p name => exact h.unlinkAt hexec
  | rmdirAt p name => exact h.rmdirAt hready hexec

theorem counted : σ.Counted := h.links

theorem released : σ.Released := by
  intro i _ _
  have hlive := h.live i
  have hzero : (σ.inode i).links = 0 ↔ (σ.inode i).links.toNat = 0 := UInt16.toNat_inj.symm
  rw [hzero, ← Bool.not_eq_true, hlive]
  omega

end Inv

/-! ## Runs -/

variable {run : List (Event × State)}

/-- **Link counts**: in every run whose entries are made in directories that were not removed, with
room in the count, and that does not remove the root directory, every count is the number of entries
and of unlinked objects that are still held, exactly the inodes without links and references are
released, and every inode is found in the cache. -/
theorem links_counted (hrun : Along (fun σ e τ => State.exec σ e = some τ) initial run)
    (hready : Along (fun σ e _ => State.Ready σ e) initial run) :
    After (fun σ => σ.Counted ∧ σ.Released ∧ σ.astray = false) initial run := by
  have hinv : After (fun σ => Inv σ 0 0 []) initial run :=
    hrun.after (fun _ _ _ h hexec hready => h.exec hexec hready) Inv.initial hready
  exact hinv.mono fun _ h => ⟨h.counted, h.released, h.found⟩

/-- A directory is made and a file in it, the file is linked and unlinked while it is open, the
directory is removed while it is open, and the last link of the file goes while it is open. -/
theorem linked_and_removed : ∃ run,
    Along (fun σ e τ => State.exec σ e = some τ) initial run ∧
    Along (fun σ e _ => State.Ready σ e) initial run ∧
    (((final initial run).inode 2).live = false ∧ ((final initial run).inode 3).live = false) ∧
    After (fun σ => σ.Counted ∧ σ.Released ∧ σ.astray = false) initial run := by
  obtain ⟨run, _, halong, hfinal⟩ := exists_run State.exec State.Ready
    (fun σ => (σ.inode 2).live = false ∧ (σ.inode 3).live = false) initial
    [.createAt .root ['d'] true, .createAt (.held 0) ['a'] false, .linkAt .root ['b'] 1,
      .unlinkAt (.held 0) ['a'], .close 1, .rmdirAt .root ['d'], .close 0, .openAt .root ['b'],
      .unlinkAt .root ['b'], .close 4]
    (by decide +kernel)
  have hrun : Along (fun σ e τ => State.exec σ e = some τ) initial run :=
    halong.mono fun _ _ _ h => h.2
  have hready : Along (fun σ e _ => State.Ready σ e) initial run := halong.mono fun _ _ _ h => h.1
  exact ⟨run, hrun, hready, hfinal, links_counted hrun hready⟩

theorem names_le_length (dc : Dcache.State) (i : ℕ) : names dc i ≤ dc.entries.entries.length :=
  countP_le_length

/-- A directory is removed while it is open, and a file is made in it. With the directory the entry
of the file is gone, and the count of the file stays 1. -/
theorem entry_lost : ∃ run,
    Along (fun σ e τ => State.exec σ e = some τ) initial run ∧
    After (fun σ => ∀ i, names σ.dcache i ≤ 65535) initial run ∧ ¬(final initial run).Counted := by
  obtain ⟨run, _, halong, hfinal⟩ := exists_run State.exec
    (fun σ _ => σ.dcache.entries.entries.length ≤ 65535)
    (fun σ => σ.dcache.entries.entries.length ≤ 65535 ∧
      (σ.inode 3).links.toNat ≠ names σ.dcache 3 + unlinked σ.dcache 3) initial
    [.createAt .root ['d'] true, .rmdirAt .root ['d'], .createAt (.held 0) ['x'] false, .close 3,
      .close 0, .evict 3]
    (by decide +kernel)
  have hbefore : Along (fun σ (_ : Event) (_ : State) => σ.dcache.entries.entries.length ≤ 65535)
      initial run := halong.mono fun _ _ _ h => h.1
  exact ⟨run, halong.mono fun _ _ _ h => h.2,
    (hbefore.after_of_before hfinal.1).mono fun _ h i => (names_le_length _ i).trans h,
    fun h => hfinal.2 (h 3)⟩

end SeaKernel.LinkCount
