import SeaKernel.Fs.Vfs
import SeaKernel.Lib.FinMap
import SeaKernel.Lib.Run

/-!
# The cache of directory entries

A directory entry of the driver is found through a cache of objects, keyed by the directory and the
name. Objects are held by their users, and the cache may give up one that nobody holds. Unlinking
only marks the object: when it is put, the entry is deleted from the driver and the object leaves
the cache, but users that hold it go on to do so, and the name may be linked again meanwhile.

What an object holds besides, a reference to the inode of the directory and a share in the link
count of the inode it names, is the subject of `LinkCount`: it does not change which entries there
are as long as no directory is removed.

## Main definitions

* `Dirent`, `State`: the objects, the cache and the entries of the driver
* `State.direntLookup`, `State.direntPut`, `State.fsLink`, `State.fsUnlink`, `State.evict`
* `State.Coherent`: the cache agrees with the driver
* `Logged`: a state with the links and unlinks so far

## Main results

* `State.Coherent.finds_eq`: a lookup in a coherent state finds what the driver has
* `State.entries_fsUnlink`: an unlink takes the entry out, whoever else holds the object
* `Logged.lookup_coherent`: in every run, lookups find what was linked last
-/

namespace SeaKernel.Dcache

open List Option FinMap AList

open Vfs (Name)

/-- A directory and a name in it. -/
abbrev Key := ℕ × Name

/-! ## The model -/

/-- `struct dirent`, with the references besides the two of the cache. -/
structure Dirent where
  key : Key
  ino : ℕ
  /-- `DIRENT_UNLINK` -/
  unlink : Bool
  /-- `DIRENT_UNCACHED` -/
  uncached : Bool
  refs : ℕ
  deriving DecidableEq

/-- The entries of the driver, the objects, and the hash table of the cache. -/
structure State where
  entries : FinMap Key ℕ
  dirents : FinMap ℕ Dirent
  cache : FinMap Key ℕ
  /-- Objects get new numbers. -/
  next : ℕ

/-- Nothing was linked yet; the first links of a run are those of `_ramfs_create`. -/
def initial : State := ⟨∅, ∅, ∅, 0⟩

namespace State

def setDirent (σ : State) (o : ℕ) (d : Dirent) : State :=
  { σ with dirents := σ.dirents.insert o d }

/-- `_dirent_initialize`, for an entry that the driver has. -/
def addDirent (σ : State) (k : Key) (ino : ℕ) : State :=
  { σ with
    dirents := σ.dirents.insert σ.next ⟨k, ino, false, false, 1⟩
    cache := σ.cache.insert k σ.next
    next := σ.next + 1 }

/-- `dirent_lookup` -/
def direntLookup (σ : State) (k : Key) : Option (ℕ × State) :=
  match σ.cache.lookup k with
  | some o =>
    (σ.dirents.lookup o).map fun d => (o, σ.setDirent o { d with refs := d.refs + 1 })
  | none => (σ.entries.lookup k).map fun ino => (σ.next, σ.addDirent k ino)

/-- The object goes. -/
def forget (σ : State) (o : ℕ) : State := { σ with dirents := σ.dirents.erase o }

/-- `__kobj_putref`: the object, if that was the last reference. -/
def putref (σ : State) (o : ℕ) (d : Dirent) : Option Dirent × State :=
  if d.refs = 1 then (some d, σ.forget o)
  else (none, σ.setDirent o { d with refs := d.refs - 1 })

/-- The object is flagged, and leaves the driver and the cache: the driver's `unlink` and
`kobj_lru_remove`. -/
def uncache (σ : State) (o : ℕ) (d : Dirent) : State where
  entries := σ.entries.erase d.key
  dirents := σ.dirents.insert o { d with uncached := true }
  cache := σ.cache.erase d.key
  next := σ.next

/-- `dirent_put`, of an object that is held. -/
def direntPut (σ : State) (o : ℕ) : Option (Option Dirent × State) :=
  (σ.dirents.lookup o).bind fun d =>
    if d.refs = 0 then none
    else if d.uncached then some (σ.putref o d)
    else if d.unlink then some ((σ.uncache o d).putref o { d with uncached := true })
    else some (none, σ.setDirent o { d with refs := d.refs - 1 })

/-- `kobj_lru_reclaim`, of an object that nobody holds. -/
def evict (σ : State) (o : ℕ) : Option (Dirent × State) :=
  (σ.dirents.lookup o).bind fun d =>
    if d.refs = 0 ∧ d.uncached = false then
      some (d, { σ with dirents := σ.dirents.erase o, cache := σ.cache.erase d.key })
    else none

/-- The driver's `link`. -/
def addEntry (σ : State) (k : Key) (ino : ℕ) : State :=
  { σ with entries := σ.entries.insert k ino }

/-- `fs_link`, the part about the directory. -/
def fsLink (σ : State) (k : Key) (ino : ℕ) : Option State :=
  if (σ.entries.lookup k).isSome then none else some (σ.addEntry k ino)

/-- `DIRENT_UNLINK` is set. -/
def mark (σ : State) (o : ℕ) : State :=
  match σ.dirents.lookup o with
  | some d => σ.setDirent o { d with unlink := true }
  | none => σ

/-- `fs_unlink`; `__unlink` refuses a directory, or an entry whose inode is not found. -/
def fsUnlink (σ : State) (k : Key) (refused : Bool) : Option (Option Dirent × State) :=
  (σ.direntLookup k).bind fun r => (if refused then r.2 else r.2.mark r.1).direntPut r.1

/-- The inode that `dirent_lookup` leads to. -/
def finds (σ : State) (k : Key) : Option ℕ :=
  (σ.direntLookup k).bind fun r => (r.2.dirents.lookup r.1).map Dirent.ino

end State

/-- A state, and the links and unlinks that were completed, the last one first. -/
structure Logged where
  state : State
  log : List (Key × Option ℕ)

inductive Event
  /-- An entry is looked up and the object held. -/
  | lookup (k : Key)
  | put (o : ℕ)
  | link (k : Key) (ino : ℕ)
  | unlink (k : Key) (refused : Bool)
  | evict (o : ℕ)
  deriving DecidableEq

def Logged.exec (s : Logged) : Event → Option Logged
  | .lookup k => (s.state.direntLookup k).map fun r => { s with state := r.2 }
  | .put o => (s.state.direntPut o).map fun r => { s with state := r.2 }
  | .link k ino => (s.state.fsLink k ino).map fun τ => ⟨τ, (k, some ino) :: s.log⟩
  | .unlink k refused =>
    (s.state.fsUnlink k refused).map fun r => ⟨r.2, if refused then s.log else (k, none) :: s.log⟩
  | .evict o => (s.state.evict o).map fun r => { s with state := r.2 }

/-- The inode that was linked under the name last, if it was not unlinked since. -/
def linkedLast : List (Key × Option ℕ) → Key → Option ℕ
  | [], _ => none
  | (l, ino) :: log, k => if k = l then ino else linkedLast log k

/-! ## Coherence -/

/-- **The cache agrees with the driver**: an object that is not unlinked is the one that the cache
has for its name, and it names the inode that the driver has. -/
structure State.Coherent (σ : State) : Prop where
  lt_next : ∀ o d, σ.dirents.lookup o = some d → o < σ.next
  cached : ∀ o d, σ.dirents.lookup o = some d → d.uncached = false →
    σ.cache.lookup d.key = some o ∧ σ.entries.lookup d.key = some d.ino
  object : ∀ k o, σ.cache.lookup k = some o →
    ∃ d, σ.dirents.lookup o = some d ∧ d.key = k ∧ d.uncached = false
  unlinked : ∀ o d, σ.dirents.lookup o = some d → d.uncached = true → d.unlink = true

/-- No object is marked and still in the cache, except those of a call that is under way. -/
def State.Settled (σ : State) (marked : List ℕ) : Prop :=
  ∀ o d, σ.dirents.lookup o = some d → d.unlink = true → d.uncached = true ∨ o ∈ marked

namespace State

variable {σ τ : State} {o : ℕ} {k : Key} {d : Dirent} {r : Option Dirent × State}

theorem lookup_setDirent (σ : State) (o : ℕ) (d : Dirent) (o' : ℕ) :
    (σ.setDirent o d).dirents.lookup o' = if o' = o then some d else σ.dirents.lookup o' :=
  lookup_insert_eq ..

theorem lookup_uncache (σ : State) (o : ℕ) (d : Dirent) (o' : ℕ) :
    (σ.uncache o d).dirents.lookup o' =
      if o' = o then some { d with uncached := true } else σ.dirents.lookup o' :=
  lookup_insert_eq ..

theorem lookup_addDirent (σ : State) (k : Key) (ino o : ℕ) : (σ.addDirent k ino).dirents.lookup o =
      if o = σ.next then some ⟨k, ino, false, false, 1⟩ else σ.dirents.lookup o :=
  lookup_insert_eq ..

theorem direntLookup_eq_some (h : σ.direntLookup k = some (o, τ)) :
    (∃ d, σ.cache.lookup k = some o ∧ σ.dirents.lookup o = some d ∧
      τ = σ.setDirent o { d with refs := d.refs + 1 }) ∨
    ∃ ino, σ.cache.lookup k = none ∧ σ.entries.lookup k = some ino ∧ o = σ.next ∧
      τ = σ.addDirent k ino := by
  unfold direntLookup at h
  split at h
  case h_1 o' hcache =>
    obtain ⟨d, hd, heq⟩ := map_eq_some_iff.mp h
    obtain ⟨rfl, rfl⟩ := Prod.mk.inj heq
    exact Or.inl ⟨d, hcache, hd, rfl⟩
  case h_2 hcache =>
    obtain ⟨ino, hino, heq⟩ := map_eq_some_iff.mp h
    obtain ⟨rfl, rfl⟩ := Prod.mk.inj heq
    exact Or.inr ⟨ino, hcache, hino, rfl, rfl⟩

theorem direntPut_eq_some (h : σ.direntPut o = some r) :
    ∃ d, σ.dirents.lookup o = some d ∧ d.refs ≠ 0 ∧ (d.uncached = true ∧ r = σ.putref o d ∨
        d.uncached = false ∧ d.unlink = true ∧
          r = (σ.uncache o d).putref o { d with uncached := true } ∨
        d.uncached = false ∧ d.unlink = false ∧
          r = (none, σ.setDirent o { d with refs := d.refs - 1 })) := by
  obtain ⟨d, hd, h⟩ := bind_eq_some_iff.mp h
  refine ⟨d, hd, ?_⟩
  split at h
  · cases h
  case isFalse hrefs =>
    refine ⟨hrefs, ?_⟩
    split at h
    case isTrue hun => exact Or.inl ⟨hun, (some.inj h).symm⟩
    case isFalse hun =>
      have hun : d.uncached = false := by simpa using hun
      split at h
      case isTrue hlink => exact Or.inr (Or.inl ⟨hun, hlink, (some.inj h).symm⟩)
      case isFalse hlink =>
        exact Or.inr (Or.inr ⟨hun, by simpa using hlink, (some.inj h).symm⟩)

theorem evict_eq_some {e : Dirent} (h : σ.evict o = some (e, τ)) :
    σ.dirents.lookup o = some e ∧ e.refs = 0 ∧ e.uncached = false ∧
      τ = { σ with dirents := σ.dirents.erase o, cache := σ.cache.erase e.key } := by
  obtain ⟨d, hd, h⟩ := bind_eq_some_iff.mp h
  split at h
  case isTrue hfree =>
    obtain ⟨rfl, rfl⟩ := Prod.mk.inj (some.inj h)
    exact ⟨hd, hfree.1, hfree.2, rfl⟩
  case isFalse => cases h

variable {ino : ℕ}

theorem fsLink_eq_some (h : σ.fsLink k ino = some τ) :
    σ.entries.lookup k = none ∧ τ = σ.addEntry k ino := by
  unfold fsLink at h
  split at h
  case isTrue => cases h
  case isFalse hnone => exact ⟨by simpa using hnone, (some.inj h).symm⟩

namespace Coherent

theorem initial : Coherent initial := by
  constructor <;> simp [Dcache.initial]

variable (h : Coherent σ)

include h

/-- An object that the cache has for a key. -/
theorem object_eq (hk : σ.cache.lookup k = some o) (hd : σ.dirents.lookup o = some d) :
    d.key = k ∧ d.uncached = false := by
  obtain ⟨e, he, hkey, hun⟩ := h.object k o hk
  rw [hd] at he
  obtain rfl := some.inj he
  exact ⟨hkey, hun⟩

theorem not_cached (hd : σ.dirents.lookup o = some d) (hun : d.uncached = true) (k : Key) :
    σ.cache.lookup k ≠ some o := by
  intro hk
  rw [(h.object_eq hk hd).2] at hun
  cases hun

theorem setDirent {d' : Dirent} (hd : σ.dirents.lookup o = some d) (hkey : d'.key = d.key)
    (hino : d'.ino = d.ino) (huncached : d'.uncached = d.uncached)
    (hunlink : d.unlink = true → d'.unlink = true) : Coherent (σ.setDirent o d') := by
  refine ⟨fun o' e he => ?_, fun o' e he => ?_, fun k o' hk => ?_, fun o' e he => ?_⟩
  · rw [lookup_setDirent] at he
    split at he
    case isTrue ho => exact ho ▸ h.lt_next o d hd
    case isFalse => exact h.lt_next o' e he
  · rw [lookup_setDirent] at he
    split at he
    case isTrue ho =>
      subst ho
      obtain rfl := some.inj he
      rw [hkey, hino, huncached]
      exact h.cached o' d hd
    case isFalse => exact h.cached o' e he
  · by_cases ho : o' = o
    · subst ho
      obtain ⟨hkey', huncached'⟩ := h.object_eq hk hd
      exact ⟨d', by rw [lookup_setDirent, if_pos rfl], hkey.trans hkey', huncached.trans huncached'⟩
    · obtain ⟨e, he, hkey', huncached'⟩ := h.object k o' hk
      exact ⟨e, by rw [lookup_setDirent, if_neg ho, he], hkey', huncached'⟩
  · rw [lookup_setDirent] at he
    split at he
    case isTrue ho =>
      obtain rfl := some.inj he
      rw [huncached]
      exact fun hun => hunlink (h.unlinked o d hd hun)
    case isFalse => exact h.unlinked o' e he

theorem addDirent (hcache : σ.cache.lookup k = none) (hentry : σ.entries.lookup k = some ino) :
    Coherent (σ.addDirent k ino) := by
  have hlookup := lookup_addDirent σ k ino
  have hcacheEq (k' : Key) : (σ.addDirent k ino).cache.lookup k' =
      if k' = k then some σ.next else σ.cache.lookup k' :=
    lookup_insert_eq ..
  refine ⟨fun o' e he => ?_, fun o' e he hun => ?_, fun k' o' hk => ?_, fun o' e he => ?_⟩
  · rw [hlookup] at he
    split at he
    case isTrue ho => exact ho ▸ Nat.lt_succ_self _
    case isFalse => exact Nat.lt_succ_of_lt (h.lt_next o' e he)
  · rw [hlookup] at he
    rw [hcacheEq]
    split at he
    case isTrue ho =>
      obtain rfl := some.inj he
      exact ⟨by rw [if_pos rfl, ho], hentry⟩
    case isFalse =>
      obtain ⟨hin, hsame⟩ := h.cached o' e he hun
      have hne : e.key ≠ k := by
        intro heq
        rw [heq, hcache] at hin
        cases hin
      exact ⟨by rw [if_neg hne, hin], hsame⟩
  · rw [hcacheEq] at hk
    split at hk
    case isTrue heq =>
      obtain rfl := some.inj hk
      exact ⟨_, by rw [hlookup, if_pos rfl], heq.symm, rfl⟩
    case isFalse =>
      obtain ⟨e, he, hkey, hun⟩ := h.object k' o' hk
      have hne : o' ≠ σ.next := (h.lt_next o' e he).ne
      exact ⟨e, by rw [hlookup, if_neg hne, he], hkey, hun⟩
  · rw [hlookup] at he
    split at he
    case isTrue =>
      obtain rfl := some.inj he
      exact fun hun => Bool.noConfusion hun
    case isFalse => exact h.unlinked o' e he

theorem forget (hnot : ∀ k, σ.cache.lookup k ≠ some o) : Coherent (σ.forget o) := by
  have hlookup {o' : ℕ} {e : Dirent} (he : (σ.dirents.erase o).lookup o' = some e) :
      o' ≠ o ∧ σ.dirents.lookup o' = some e :=
    lookup_erase_eq_some.mp he
  refine ⟨fun o' e he => h.lt_next o' e (hlookup he).2, fun o' e he => h.cached o' e (hlookup he).2,
    fun k o' hk => ?_, fun o' e he => h.unlinked o' e (hlookup he).2⟩
  obtain ⟨e, he, hkey, hun⟩ := h.object k o' hk
  have hne : o' ≠ o := fun heq => hnot k (heq ▸ hk)
  exact ⟨e, (lookup_erase_ne hne).trans he, hkey, hun⟩

theorem putref (hd : σ.dirents.lookup o = some d) (hun : d.uncached = true) :
    Coherent (σ.putref o d).2 := by
  unfold State.putref
  split
  case isTrue => exact h.forget (h.not_cached hd hun)
  case isFalse => exact h.setDirent hd rfl rfl rfl id

theorem uncache (hd : σ.dirents.lookup o = some d) (hun : d.uncached = false)
    (hunlink : d.unlink = true) : Coherent (σ.uncache o d) := by
  obtain ⟨hin, _⟩ := h.cached o d hd hun
  have hlookup := lookup_uncache σ o d
  have hother {o' : ℕ} {e : Dirent} (he : σ.dirents.lookup o' = some e) (hun' : e.uncached = false)
      (ho : o' ≠ o) : e.key ≠ d.key := by
    intro heq
    have hin' := (h.cached o' e he hun').1
    rw [heq, hin] at hin'
    exact ho (some.inj hin').symm
  refine ⟨fun o' e he => ?_, fun o' e he hun' => ?_, fun k o' hk => ?_, fun o' e he hun' => ?_⟩
  · rw [hlookup] at he
    split at he
    case isTrue ho => exact ho ▸ h.lt_next o d hd
    case isFalse => exact h.lt_next o' e he
  · rw [hlookup] at he
    split at he
    case isTrue =>
      obtain rfl := some.inj he
      cases hun'
    case isFalse ho =>
      have hne := hother he hun' ho
      obtain ⟨hin', hsame⟩ := h.cached o' e he hun'
      exact ⟨(lookup_erase_ne hne).trans hin', (lookup_erase_ne hne).trans hsame⟩
  · obtain ⟨hne, hold⟩ := lookup_erase_eq_some.mp hk
    obtain ⟨e, he, hkey, hun'⟩ := h.object k o' hold
    have ho : o' ≠ o := by
      rintro rfl
      exact hne (h.object_eq hold hd).1.symm
    exact ⟨e, by rw [hlookup, if_neg ho, he], hkey, hun'⟩
  · rw [hlookup] at he
    split at he
    case isTrue =>
      obtain rfl := some.inj he
      exact hunlink
    case isFalse => exact h.unlinked o' e he hun'

theorem fsLink (hlink : σ.fsLink k ino = some τ) : Coherent τ := by
  obtain ⟨hnone, rfl⟩ := fsLink_eq_some hlink
  refine ⟨h.lt_next, fun o' e he hun => ⟨(h.cached o' e he hun).1, ?_⟩, h.object, h.unlinked⟩
  have hsame := (h.cached o' e he hun).2
  have hne : e.key ≠ k := by
    intro heq
    rw [heq, hnone] at hsame
    cases hsame
  exact (lookup_insert_ne hne).trans hsame

theorem direntLookup (hlookup : σ.direntLookup k = some (o, τ)) : Coherent τ := by
  rcases direntLookup_eq_some hlookup with ⟨d, _, hd, rfl⟩ | ⟨ino, hcache, hino, rfl, rfl⟩
  · exact h.setDirent hd rfl rfl rfl id
  · exact h.addDirent hcache hino

theorem direntPut (hput : σ.direntPut o = some r) : Coherent r.2 := by
  obtain ⟨d, hd, _, ⟨hun, rfl⟩ | ⟨hun, hlink, rfl⟩ | ⟨_, _, rfl⟩⟩ := direntPut_eq_some hput
  · exact h.putref hd hun
  · exact (h.uncache hd hun hlink).putref (by rw [lookup_uncache, if_pos rfl]) rfl
  · exact h.setDirent hd rfl rfl rfl id

theorem evict (hevict : σ.evict o = some (d, τ)) : Coherent τ := by
  obtain ⟨hd, _, hun, rfl⟩ := evict_eq_some hevict
  obtain ⟨hin, _⟩ := h.cached o d hd hun
  have hlookup {o' : ℕ} {e : Dirent} (he : (σ.dirents.erase o).lookup o' = some e) :
      o' ≠ o ∧ σ.dirents.lookup o' = some e :=
    lookup_erase_eq_some.mp he
  refine ⟨fun o' e he => h.lt_next o' e (hlookup he).2, fun o' e he hun' => ?_, fun k o' hk => ?_,
    fun o' e he => h.unlinked o' e (hlookup he).2⟩
  · obtain ⟨ho, he⟩ := hlookup he
    obtain ⟨hin', hsame⟩ := h.cached o' e he hun'
    have hne : e.key ≠ d.key := by
      intro heq
      rw [heq, hin] at hin'
      exact ho (some.inj hin').symm
    exact ⟨(lookup_erase_ne hne).trans hin', hsame⟩
  · obtain ⟨hne, hold⟩ := lookup_erase_eq_some.mp hk
    obtain ⟨e, he, hkey, hun'⟩ := h.object k o' hold
    have ho : o' ≠ o := by
      rintro rfl
      exact hne (h.object_eq hold hd).1.symm
    exact ⟨e, (lookup_erase_ne ho).trans he, hkey, hun'⟩

theorem mark (o : ℕ) : Coherent (σ.mark o) := by
  unfold State.mark
  split
  case h_1 d hd => exact h.setDirent hd rfl rfl rfl fun _ => rfl
  case h_2 => exact h

/-- **A lookup finds what the driver has**, through the cache or not. -/
theorem finds_eq (k : Key) : σ.finds k = σ.entries.lookup k := by
  unfold finds
  cases hlookup : σ.direntLookup k with
  | none =>
    unfold State.direntLookup at hlookup
    split at hlookup
    case h_1 o hcache =>
      obtain ⟨d, hd, _⟩ := h.object k o hcache
      rw [hd] at hlookup
      cases hlookup
    case h_2 => exact (map_eq_none_iff.mp hlookup).symm
  | some found =>
    obtain ⟨o, τ⟩ := found
    rcases direntLookup_eq_some hlookup with ⟨d, hcache, hd, rfl⟩ | ⟨ino, _, hino, rfl, rfl⟩
    · obtain ⟨rfl, hun⟩ := h.object_eq hcache hd
      rw [bind_some, lookup_setDirent, if_pos rfl, (h.cached o d hd hun).2]
      rfl
    · rw [bind_some, lookup_addDirent, if_pos rfl, hino]
      rfl

end Coherent

theorem Coherent.found (h : Coherent σ) (hlookup : σ.direntLookup k = some (o, τ)) :
    ∃ d, τ.dirents.lookup o = some d ∧ d.key = k ∧ d.uncached = false ∧ d.refs ≠ 0 := by
  rcases direntLookup_eq_some hlookup with ⟨d, hcache, hd, rfl⟩ | ⟨ino, _, _, rfl, rfl⟩
  · obtain ⟨hkey, hun⟩ := h.object_eq hcache hd
    exact ⟨{ d with refs := d.refs + 1 }, by rw [lookup_setDirent, if_pos rfl], hkey, hun,
      Nat.succ_ne_zero _⟩
  · exact ⟨_, by rw [lookup_addDirent, if_pos rfl], rfl, rfl, Nat.one_ne_zero⟩

theorem mark_eq (h : σ.dirents.lookup o = some d) :
    σ.mark o = σ.setDirent o { d with unlink := true } := by
  rw [mark, h]

theorem lookup_mark (h : σ.dirents.lookup o = some d) (o' : ℕ) : (σ.mark o).dirents.lookup o' =
      if o' = o then some { d with unlink := true } else σ.dirents.lookup o' := by
  rw [mark_eq h]
  exact lookup_setDirent ..

theorem entries_mark (σ : State) (o : ℕ) : (σ.mark o).entries = σ.entries := by
  unfold mark
  split <;> rfl

theorem cache_mark (σ : State) (o : ℕ) : (σ.mark o).cache = σ.cache := by
  unfold mark
  split <;> rfl

theorem direntPut_mark (hd : σ.dirents.lookup o = some d) (hun : d.uncached = false)
    (hput : (σ.mark o).direntPut o = some r) :
    r = ((σ.mark o).uncache o { d with unlink := true }).putref o
      { d with unlink := true, uncached := true } := by
  obtain ⟨e, he, _, hcases⟩ := direntPut_eq_some hput
  rw [lookup_mark hd, if_pos rfl] at he
  obtain rfl := some.inj he
  rcases hcases with ⟨hun', _⟩ | ⟨_, _, rfl⟩ | ⟨_, hlink, _⟩
  · exact absurd (hun.symm.trans hun') Bool.false_ne_true
  · rfl
  · cases hlink

variable {refused : Bool}

theorem fsUnlink_eq_some (h : σ.fsUnlink k refused = some r) :
    ∃ o τ, σ.direntLookup k = some (o, τ) ∧
      (if refused then τ else τ.mark o).direntPut o = some r := by
  obtain ⟨⟨o, τ⟩, hlookup, hput⟩ := bind_eq_some_iff.mp h
  exact ⟨o, τ, hlookup, hput⟩

theorem cache_direntLookup (h : σ.direntLookup k = some (o, τ)) : τ.cache.lookup k = some o ∧
      ∀ l o', σ.cache.lookup l = some o' → τ.cache.lookup l = some o' := by
  rcases direntLookup_eq_some h with ⟨d, hcache, _, rfl⟩ | ⟨ino, hcache, _, rfl, rfl⟩
  · exact ⟨hcache, fun _ _ hl => hl⟩
  · refine ⟨lookup_insert _, fun l o' hl => ?_⟩
    have hne : l ≠ k := by
      rintro rfl
      rw [hcache] at hl
      cases hl
    exact (lookup_insert_ne hne).trans hl

/-- The object, as long as it is there, is marked and has the key. -/
def Marked (σ : State) (o : ℕ) (k : Key) : Prop :=
  ∀ d, σ.dirents.lookup o = some d → d.key = k ∧ d.unlink = true

theorem Coherent.marked (h : Coherent σ) (hcache : σ.cache.lookup k = some o) :
    Marked (σ.mark o) o k := by
  obtain ⟨d, hd, hkey, _⟩ := h.object k o hcache
  intro e he
  rw [lookup_mark hd, if_pos rfl] at he
  obtain rfl := some.inj he
  exact ⟨hkey, rfl⟩

theorem Marked.mark (h : Marked σ o k) (o' : ℕ) : Marked (σ.mark o') o k := by
  unfold State.mark
  split
  case h_1 d hd =>
    intro e he
    rcases lookup_insert_eq_some.mp he with ⟨rfl, rfl⟩ | ⟨_, he⟩
    · exact ⟨(h d hd).1, rfl⟩
    · exact h e he
  case h_2 => exact h

theorem Marked.putref (h : Marked σ o k) {o' : ℕ} (hd : σ.dirents.lookup o' = some d) :
    Marked (σ.putref o' d).2 o k := by
  unfold State.putref
  split
  · exact fun e he => h e (lookup_erase_eq_some.mp he).2
  · intro e he
    rcases lookup_insert_eq_some.mp he with ⟨rfl, rfl⟩ | ⟨_, he⟩
    · exact h d hd
    · exact h e he

theorem Marked.direntPut (h : Marked σ o k) {o' : ℕ} (hput : σ.direntPut o' = some r) :
    Marked r.2 o k := by
  obtain ⟨d, hd, _, ⟨_, rfl⟩ | ⟨_, _, rfl⟩ | ⟨_, _, rfl⟩⟩ := direntPut_eq_some hput
  · exact h.putref hd
  · refine putref (fun e he => ?_) (lookup_insert _)
    rcases lookup_insert_eq_some.mp he with ⟨rfl, rfl⟩ | ⟨_, he⟩
    · exact h d hd
    · exact h e he
  · intro e he
    rcases lookup_insert_eq_some.mp he with ⟨rfl, rfl⟩ | ⟨_, he⟩
    · exact h d hd
    · exact h e he

/-! ## Settled states -/

namespace Settled

variable {marked : List ℕ}

variable (h : Settled σ marked)

include h

theorem mono (o : ℕ) : Settled σ (o :: marked) :=
  fun o' e he hlink => (h o' e he hlink).imp_right (mem_cons_of_mem o)

theorem setDirent {d' : Dirent} (hd' : d'.unlink = true → d'.uncached = true ∨ o ∈ marked) :
    Settled (σ.setDirent o d') marked := by
  intro o' e he
  rcases lookup_insert_eq_some.mp he with ⟨rfl, rfl⟩ | ⟨_, he⟩
  · exact hd'
  · exact h o' e he

theorem mark (o : ℕ) : Settled (σ.mark o) (o :: marked) := by
  unfold State.mark
  split
  · exact (h.mono o).setDirent fun _ => Or.inr mem_cons_self
  · exact h.mono o

theorem putref (hd : σ.dirents.lookup o = some d) : Settled (σ.putref o d).2 marked := by
  unfold State.putref
  split
  · exact fun o' e he => h o' e (lookup_erase_eq_some.mp he).2
  · exact h.setDirent (h o d hd)

theorem direntLookup (hlookup : σ.direntLookup k = some (o, τ)) : Settled τ marked := by
  rcases direntLookup_eq_some hlookup with ⟨d, _, hd, rfl⟩ | ⟨ino, _, _, _, rfl⟩
  · exact h.setDirent (h o d hd)
  · intro o' e he
    rcases lookup_insert_eq_some.mp he with ⟨_, rfl⟩ | ⟨_, he⟩
    · exact fun hlink => Bool.noConfusion hlink
    · exact h o' e he

omit h in
theorem direntPut (h : Settled σ (o :: marked)) (hput : σ.direntPut o = some r) :
    Settled r.2 marked := by
  have hother {o' : ℕ} {e : Dirent} (he : σ.dirents.lookup o' = some e) (hne : o' ≠ o)
      (hlink : e.unlink = true) : e.uncached = true ∨ o' ∈ marked :=
    (h o' e he hlink).imp_right fun hmem => (mem_cons.mp hmem).resolve_left hne
  obtain ⟨d, hd, _, ⟨hun, rfl⟩ | ⟨_, _, rfl⟩ | ⟨_, hlink, rfl⟩⟩ := direntPut_eq_some hput
  · refine putref (fun o' e he hlink => ?_) hd
    by_cases hne : o' = o
    · subst hne
      rw [hd] at he
      exact Or.inl (some.inj he ▸ hun)
    · exact hother he hne hlink
  · refine putref (fun o' e he hlink => ?_) (by rw [lookup_uncache, if_pos rfl])
    rcases lookup_insert_eq_some.mp he with ⟨_, rfl⟩ | ⟨hne, he⟩
    · exact Or.inl rfl
    · exact hother he hne hlink
  · intro o' e he hlink'
    rcases lookup_insert_eq_some.mp he with ⟨_, rfl⟩ | ⟨hne, he⟩
    · exact absurd (hlink.symm.trans hlink') Bool.false_ne_true
    · exact hother he hne hlink'

theorem evict (hevict : σ.evict o = some (d, τ)) : Settled τ marked := by
  obtain ⟨_, _, _, rfl⟩ := evict_eq_some hevict
  exact fun o' e he => h o' e (lookup_erase_eq_some.mp he).2

theorem fsUnlink (hunlink : σ.fsUnlink k refused = some r) : Settled r.2 marked := by
  obtain ⟨o, τ, hlookup, hput⟩ := fsUnlink_eq_some hunlink
  have hτ := h.direntLookup hlookup
  cases refused with
  | true => exact (hτ.mono o).direntPut hput
  | false => exact (hτ.mark o).direntPut hput

end Settled

/-! ## What each call does to the entries -/

theorem entries_putref (σ : State) (o : ℕ) (d : Dirent) : (σ.putref o d).2.entries = σ.entries := by
  unfold putref
  split <;> rfl

theorem entries_direntLookup (h : σ.direntLookup k = some (o, τ)) : τ.entries = σ.entries := by
  rcases direntLookup_eq_some h with ⟨d, _, _, rfl⟩ | ⟨ino, _, _, _, rfl⟩ <;> rfl

theorem entries_of_direntPut {ino : ℕ} (hput : σ.direntPut o = some r)
    (hk : r.2.entries.lookup k = some ino) : σ.entries.lookup k = some ino := by
  obtain ⟨d, hd, _, ⟨_, rfl⟩ | ⟨_, _, rfl⟩ | ⟨_, _, rfl⟩⟩ := direntPut_eq_some hput
  · rwa [entries_putref] at hk
  · rw [entries_putref] at hk
    exact (lookup_erase_eq_some.mp hk).2
  · exact hk

/-- **The put of a marked object takes its entry out.** -/
theorem entries_direntPut_marked (h : Coherent σ) (hcache : σ.cache.lookup k = some o)
    (hmarked : Marked σ o k) (hput : σ.direntPut o = some r) : r.2.entries.lookup k = none := by
  obtain ⟨e, he, rfl, hun'⟩ := h.object k o hcache
  obtain ⟨d, hd, _, hcases⟩ := direntPut_eq_some hput
  rw [he] at hd
  obtain rfl := some.inj hd
  rcases hcases with ⟨hun, _⟩ | ⟨_, _, rfl⟩ | ⟨_, hlink, _⟩
  · rw [hun] at hun'
    cases hun'
  · rw [entries_putref]
    exact lookup_erase e.key σ.entries
  · rw [(hmarked e he).2] at hlink
    cases hlink

theorem entries_direntPut (h : Settled σ []) (hput : σ.direntPut o = some r) :
    r.2.entries = σ.entries := by
  obtain ⟨d, hd, _, ⟨_, rfl⟩ | ⟨hun, hlink, rfl⟩ | ⟨_, _, rfl⟩⟩ := direntPut_eq_some hput
  · exact entries_putref σ o d
  · rw [(h o d hd hlink).resolve_right not_mem_nil] at hun
    cases hun
  · rfl

/-- **An unlink takes the entry of its name out**, whoever else holds the object. -/
theorem entries_fsUnlink (h : Coherent σ) (hunlink : σ.fsUnlink k false = some r) :
    r.2.entries = σ.entries.erase k := by
  obtain ⟨o, τ, hlookup, hput⟩ := fsUnlink_eq_some hunlink
  obtain ⟨d, hd, rfl, hun, _⟩ := h.found hlookup
  obtain rfl := direntPut_mark hd hun hput
  calc _ = (τ.mark o).entries.erase d.key := entries_putref ..
    _ = τ.entries.erase d.key := by rw [entries_mark]
    _ = σ.entries.erase d.key := by rw [entries_direntLookup hlookup]

theorem entries_fsUnlink_refused (h : Settled σ []) (hunlink : σ.fsUnlink k true = some r) :
    r.2.entries = σ.entries := by
  obtain ⟨o, τ, hlookup, hput⟩ := fsUnlink_eq_some hunlink
  rw [entries_direntPut (h.direntLookup hlookup) hput, entries_direntLookup hlookup]

theorem Coherent.fsUnlink (h : Coherent σ) (hunlink : σ.fsUnlink k refused = some r) :
    Coherent r.2 := by
  obtain ⟨o, τ, hlookup, hput⟩ := fsUnlink_eq_some hunlink
  have hτ := h.direntLookup hlookup
  cases refused with
  | true => exact hτ.direntPut hput
  | false => exact (hτ.mark o).direntPut hput

end State

/-! ## Runs -/

/-- The cache agrees with the driver, no unlink is pending in the cache, and the driver has what the
links and unlinks say. -/
structure Logged.Inv (s : Logged) : Prop where
  coherent : s.state.Coherent
  settled : s.state.Settled []
  entries : ∀ k, s.state.entries.lookup k = linkedLast s.log k

namespace Logged

variable {s t : Logged} {e : Event} {run : List (Event × Logged)}

theorem Inv.initial : Inv ⟨initial, []⟩ :=
  ⟨.initial, fun _ _ h => (some_ne_none _ h.symm).elim, fun _ => rfl⟩

/-- **Every call keeps the invariant.** -/
theorem Inv.exec (h : Inv s) (hexec : s.exec e = some t) : Inv t := by
  obtain ⟨hc, hs, hentries⟩ := h
  cases e with
  | lookup k =>
    obtain ⟨⟨o, τ⟩, hlookup, rfl⟩ := map_eq_some_iff.mp hexec
    refine ⟨hc.direntLookup hlookup, hs.direntLookup hlookup, fun l => ?_⟩
    rw [State.entries_direntLookup hlookup]
    exact hentries l
  | put o =>
    obtain ⟨r, hput, rfl⟩ := map_eq_some_iff.mp hexec
    refine ⟨hc.direntPut hput, (hs.mono o).direntPut hput, fun l => ?_⟩
    rw [State.entries_direntPut hs hput]
    exact hentries l
  | link k ino =>
    obtain ⟨τ, hlink, rfl⟩ := map_eq_some_iff.mp hexec
    refine ⟨hc.fsLink hlink, ?_, fun l => ?_⟩ <;>
      obtain ⟨_, rfl⟩ := State.fsLink_eq_some hlink
    · exact hs
    · rw [linkedLast, ← hentries l]
      exact lookup_insert_eq ..
  | unlink k refused =>
    obtain ⟨r, hunlink, rfl⟩ := map_eq_some_iff.mp hexec
    refine ⟨hc.fsUnlink hunlink, hs.fsUnlink hunlink, fun l => ?_⟩
    cases refused with
    | true =>
      rw [State.entries_fsUnlink_refused hs hunlink]
      exact hentries l
    | false =>
      rw [State.entries_fsUnlink hc hunlink, lookup_erase_eq, hentries l]
      rfl
  | evict o =>
    obtain ⟨⟨d, τ⟩, hevict, rfl⟩ := map_eq_some_iff.mp hexec
    refine ⟨hc.evict hevict, hs.evict hevict, fun l => ?_⟩
    obtain ⟨_, _, _, rfl⟩ := State.evict_eq_some hevict
    exact hentries l

/-- **Lookups are coherent**: in every state of every run, a lookup finds an entry if and only if
what was done last with its name is a link, and then it finds the inode of that link. -/
theorem lookup_coherent (hrun : Along (fun s e t => Logged.exec s e = some t) ⟨initial, []⟩ run) :
    After (fun s => ∀ k, s.state.finds k = linkedLast s.log k) ⟨initial, []⟩ run := by
  refine (hrun.after_of_step (fun _ _ _ h hexec => h.exec hexec) Inv.initial).mono fun s h k => ?_
  rw [h.coherent.finds_eq, h.entries]

/-- A name is unlinked while its object is held twice, linked to another inode and looked up again;
the new object leaves the cache, and the old one is still held at the end. -/
theorem old_object_held : ∃ run,
    Along (fun s e t => Logged.exec s e = some t) ⟨initial, []⟩ run ∧
    ((final ⟨initial, []⟩ run).state.finds (1, "a".toList) = some 3 ∧
      ((final ⟨initial, []⟩ run).state.dirents.lookup 0).isSome) ∧
    After (fun s => ∀ k, s.state.finds k = linkedLast s.log k) ⟨initial, []⟩ run := by
  obtain ⟨run, _, halong, hfinal⟩ := exists_run Logged.exec (fun _ _ => True)
    (fun s => s.state.finds (1, "a".toList) = some 3 ∧ (s.state.dirents.lookup 0).isSome)
    ⟨initial, []⟩
    [.link (1, "a".toList) 2, .lookup (1, "a".toList), .lookup (1, "a".toList),
      .unlink (1, "a".toList) false, .link (1, "a".toList) 3, .lookup (1, "a".toList), .put 0,
      .put 1, .evict 1]
    (by decide +kernel)
  have hrun : Along (fun s e t => Logged.exec s e = some t) ⟨initial, []⟩ run :=
    halong.mono fun _ _ _ h => h.2
  exact ⟨run, hrun, hfinal, lookup_coherent hrun⟩

end Logged

end SeaKernel.Dcache
