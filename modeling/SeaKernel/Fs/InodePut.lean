import SeaKernel.Lib.Run
import SeaKernel.Lib.Threads

/-!
# Releasing an inode

A model of `inode_put` of `kernel/fs/inode.c`, with `kobj_lru_remove` and `kobj_lru_put` of
`kernel/kobj_lru.c`, for one inode and any number of threads that hold references to it.

`inode_put` reads the link count and the flags without a lock, and then takes one of three ways: it
takes the inode out of the cache, with the two references of the cache, and drops its own; it only
drops its own; or it hands its own back to the cache with `kobj_lru_put`, which panics when it finds
fewer than the two references of the cache. A thread on the third way may be overtaken by one on the
first. The steps are the single reads and updates of shared fields, and the sections under the lock
of the cache, which are cut where a reference is dropped, since references are also dropped without
the lock.

## Main results

* `inode_put_double_free`: two threads reach the panic
* `inode_put_run`: the runs in which no thread is overtaken on its way to `kobj_lru_put`
-/

namespace SeaKernel.InodePut

open Function

/-- Where a thread is in `inode_put`. -/
inductive Pc where
  | idle
  /-- `links` is not 0 (or there is no `fs`); the flags are to be read. -/
  | flags
  /-- `links` is 0; `INODE_FLAG_UNCACHED` is to be set. -/
  | mark
  /-- Before the lock in `kobj_lru_remove`. -/
  | remove
  /-- In `kobj_lru_remove`, with so many references of the cache to drop. -/
  | removing (n : ℕ)
  /-- Before `__kobj_putref`. -/
  | drop
  /-- Before the lock in `kobj_lru_put`. -/
  | lruPut
  /-- In `kobj_lru_put`, after `__kobj_putref`, with what it has returned. -/
  | lruCheck (ref : ℕ)
  deriving DecidableEq

/-- A thread, with the number of references it holds outside of `inode_put`. -/
structure Local where
  pc : Pc
  held : ℕ

/-- The lists of the cache. -/
inductive Chain where
  | active
  | lru
  deriving DecidableEq

/-- An inode in the cache, and the threads that hold it. -/
structure State (T : Type*) where
  links : ℕ
  /-- Whether `fs` is set. -/
  fs : Bool
  /-- `INODE_FLAG_UNCACHED` -/
  uncached : Bool
  /-- `KOBJ_LRU` -/
  lru : Bool
  inHash : Bool
  list : Option Chain
  /-- `_koh_refs` -/
  refs : ℕ
  /-- The number of other inodes on the active list. -/
  others : ℕ
  /-- The thread that has the lock of the cache. -/
  lock : Option T
  /-- How often `kobj_lru_remove` has been called. -/
  removals : ℕ
  /-- How often the destructor has run. -/
  destructions : ℕ
  loc : T → Local

/-- The ways to stop the kernel. -/
inductive Panic where
  /-- `"double free"` of `kobj_lru_put` -/
  | doubleFree
  /-- `"failed to move object onto LRU: active has no entries"` -/
  | noEntries
  | assertion
  deriving DecidableEq

/-- The steps. -/
inductive Event (T : Type*) where
  /-- `links--` in `_dirent_put` -/
  | unlink
  /-- The start of `inode_put`: `links` is read. -/
  | test (t : T)
  /-- The flags are read. -/
  | checkFlags (t : T)
  /-- `INODE_FLAG_UNCACHED` is set. -/
  | mark (t : T)
  /-- `kobj_lru_remove` up to the first `__kobj_putref`. -/
  | remove (t : T)
  /-- `__kobj_putref` in `kobj_lru_remove` -/
  | removePut (t : T)
  /-- `__kobj_putref` -/
  | drop (t : T)
  /-- `kobj_lru_put` up to `__kobj_putref`. -/
  | lruPut (t : T)
  /-- The rest of `kobj_lru_put`. -/
  | lruCheck (t : T)

variable {T : Type*} [DecidableEq T]

namespace State

/-- The local state of a thread is replaced. -/
def setLoc (σ : State T) (t : T) (l : Local) : State T :=
  { σ with loc := update σ.loc t l }

/-- The thread moves on to the given place. -/
def goto (σ : State T) (t : T) (pc : Pc) : State T := σ.setLoc t ⟨pc, (σ.loc t).held⟩

/-- `__kobj_putref`: the destructor runs when the count reaches 0. -/
def putref (σ : State T) : Except Panic (State T × ℕ) :=
  if σ.refs = 0 then .error .assertion
  else .ok ({ σ with
    refs := σ.refs - 1
    destructions := if σ.refs = 1 then σ.destructions + 1 else σ.destructions }, σ.refs - 1)

/-- `lru->active.count` -/
def activeCount (σ : State T) : ℕ := σ.others + if σ.list = some .active then 1 else 0

/-- The end of `kobj_lru_put`. -/
def lruCheck (σ : State T) (ref : ℕ) : Except Panic (State T) :=
  if σ.refs < 2 ∨ ref < 2 then .error .doubleFree
  else if ref = 2 ∧ σ.lru then
    if σ.activeCount = 0 then .error .noEntries
    else if σ.list = some .active then .ok { σ with list := some .lru }
    else .error .assertion
  else .ok σ

/-- A step, for a thread that is where the step starts. -/
def exec (σ : State T) : Event T → Except Panic (State T)
  | .unlink => .ok { σ with links := σ.links - 1 }
  | .test t =>
    .ok (σ.setLoc t ⟨if σ.links = 0 ∧ σ.fs then .mark else .flags, (σ.loc t).held - 1⟩)
  | .checkFlags t => .ok (σ.goto t (if σ.uncached then .drop else .lruPut))
  | .mark t => .ok ({ σ with uncached := true }.goto t (if σ.uncached then .drop else .remove))
  | .remove t =>
    if σ.list = some .active then
      .ok ({ σ with
        inHash := false
        list := none
        lru := false
        lock := some t
        removals := σ.removals + 1 }.goto t (.removing 2))
    else .error .assertion
  | .removePut t => do
    let (σ, _) ← σ.putref
    match (σ.loc t).pc with
    | .removing (n + 2) => .ok (σ.goto t (.removing (n + 1)))
    | _ => .ok ({ σ with lock := none }.goto t .drop)
  | .drop t => do
    let (σ, _) ← σ.putref
    .ok (σ.goto t .idle)
  | .lruPut t => do
    let (σ, ref) ← σ.putref
    .ok ({ σ with lock := some t }.goto t (.lruCheck ref))
  | .lruCheck t =>
    match (σ.loc t).pc with
    | .lruCheck ref => do
      let σ ← σ.lruCheck ref
      .ok ({ σ with lock := none }.goto t .idle)
    | _ => .error .assertion

/-- The panic of a step, if it does not return. -/
def panic (σ : State T) (e : Event T) : Option Panic :=
  match σ.exec e with
  | .ok _ => none
  | .error p => some p

end State

/-- The thread is where the step starts, and the lock is free where the step takes it. -/
def Event.Ready (σ : State T) : Event T → Prop
  | .unlink => 0 < σ.links
  | .test t => (σ.loc t).pc = .idle ∧ 0 < (σ.loc t).held
  | .checkFlags t => (σ.loc t).pc = .flags
  | .mark t => (σ.loc t).pc = .mark
  | .remove t => (σ.loc t).pc = .remove ∧ σ.lock = none
  | .removePut t => (σ.loc t).pc = .removing 2 ∨ (σ.loc t).pc = .removing 1
  | .drop t => (σ.loc t).pc = .drop
  | .lruPut t => (σ.loc t).pc = .lruPut ∧ σ.lock = none
  | .lruCheck t => ((σ.loc t).pc matches .lruCheck _) = true

instance (σ : State T) (e : Event T) : Decidable (e.Ready σ) :=
  match e with
  | .unlink => inferInstanceAs (Decidable (_ < _))
  | .test _ => inferInstanceAs (Decidable (_ ∧ _))
  | .checkFlags _ => inferInstanceAs (Decidable (_ = _))
  | .mark _ => inferInstanceAs (Decidable (_ = _))
  | .remove _ => inferInstanceAs (Decidable (_ ∧ _))
  | .removePut _ => inferInstanceAs (Decidable (_ ∨ _))
  | .drop _ => inferInstanceAs (Decidable (_ = _))
  | .lruPut _ => inferInstanceAs (Decidable (_ ∧ _))
  | .lruCheck _ => inferInstanceAs (Decidable (_ = true))

/-- A step of a thread that is ready for it, and that does not panic. -/
def Step (σ : State T) (e : Event T) (τ : State T) : Prop := e.Ready σ ∧ σ.exec e = .ok τ

variable [Fintype T]

/-- The inode is taken out of the cache while a thread that has found it linked and not marked is on
its way to `kobj_lru_put`. -/
def Overtakes (σ : State T) : Event T → Prop
  | .remove _ => ∃ t, (σ.loc t).pc = .lruPut
  | _ => False

instance (σ : State T) (e : Event T) : Decidable (Overtakes σ e) :=
  match e with
  | .remove _ => inferInstanceAs (Decidable (∃ _, _))
  | .unlink | .test _ | .checkFlags _ | .mark _ | .removePut _ | .drop _ | .lruPut _
  | .lruCheck _ => inferInstanceAs (Decidable False)

/-- A cached inode: two references of the cache, and those that the threads hold. -/
def State.initial (links others : ℕ) (fs : Bool) (held : T → ℕ) : State T where
  links := links
  fs := fs
  uncached := false
  lru := true
  inHash := true
  list := some .active
  refs := 2 + ∑ t, held t
  others := others
  lock := none
  removals := 0
  destructions := 0
  loc t := ⟨.idle, held t⟩

open State

/-- **The panic**: the second thread unlinks the inode and takes it out of the cache after the first
one has chosen `kobj_lru_put`, which then drops the last reference and panics. -/
theorem inode_put_double_free : ∃ run : List (Event (Fin 2) × State (Fin 2)),
    Along Step (State.initial 1 0 true fun _ => 1) run ∧
    (Event.lruCheck 0).Ready (final (State.initial 1 0 true fun _ => 1) run) ∧
    (final (State.initial 1 0 true fun _ => 1) run).panic (.lruCheck 0) = some .doubleFree := by
  obtain ⟨run, -, hrun, hgoal⟩ := exists_run (fun σ e => (σ.exec e).toOption)
    (fun σ e => e.Ready σ)
    (fun σ => (Event.lruCheck 0).Ready σ ∧ σ.panic (.lruCheck 0) = some .doubleFree)
    (initial 1 0 true fun _ : Fin 2 => 1)
    [.test 0, .checkFlags 0, .unlink, .test 1, .mark 1, .remove 1, .removePut 1, .removePut 1,
      .drop 1, .lruPut 0] (by decide +kernel)
  exact ⟨run, hrun.mono fun σ e τ h => ⟨h.1, toOption_eq_some.mp h.2⟩, hgoal⟩

/-! ## The references -/

/-- The references that a thread has to drop: those it holds, the one of the call it is in, and
those of the cache that it has taken over. -/
def Pc.refs : Pc → ℕ
  | .idle | .lruCheck _ => 0
  | .flags | .mark | .remove | .drop | .lruPut => 1
  | .removing n => 1 + n

def Local.refs (l : Local) : ℕ := l.held + l.pc.refs

/-- Whether a thread is about to take the inode out of the cache. -/
def Local.removing (l : Local) : ℕ := if l.pc = .remove then 1 else 0

/-- Whether a thread has the lock. -/
def Pc.locked : Pc → Prop
  | .removing _ | .lruCheck _ => True
  | _ => False

/-- Whether a thread is on its way to `kobj_lru_put`, or in it. -/
def Pc.putting : Pc → Prop
  | .lruPut | .lruCheck _ => True
  | _ => False

/-- The references of the cache. -/
def State.cacheRefs (σ : State T) : ℕ := 2 * σ.lru.toNat

/-- The invariant of the runs in which no thread is overtaken. -/
structure Sound (σ : State T) : Prop where
  refs : σ.refs = σ.cacheRefs + tally Local.refs σ.loc
  destructions : σ.destructions = 1 - σ.refs
  removals : σ.removals + tally Local.removing σ.loc = σ.uncached.toNat
  lru : σ.lru = true ↔ σ.removals = 0
  active : σ.lru = true → σ.list = some .active ∨ ∀ t, σ.loc t = ⟨.idle, 0⟩
  locked : ∀ t, (σ.loc t).pc.locked → σ.lock = some t
  gone : σ.lru = false → ∀ t, ¬(σ.loc t).pc.putting
  checking : ∀ t ref, (σ.loc t).pc = .lruCheck ref → 2 ≤ ref ∧ σ.refs ≤ ref

/-- The step passes its assertions and keeps the counts sound. -/
abbrev Keeps (σ : State T) (e : Event T) : Prop := ∃ τ, σ.exec e = .ok τ ∧ Sound τ

variable {σ τ : State T} {t u : T} {l : Local}

omit [DecidableEq T] in
theorem sound_initial (links others : ℕ) (fs : Bool) (held : T → ℕ) :
    Sound (State.initial links others fs held) := by
  refine ⟨?_, ?_, ?_, ?_, fun _ => .inl rfl, fun t ht => ht.elim, fun hlru => ?_,
    fun t ref ht => ?_⟩
  · simp [initial, cacheRefs, tally, Local.refs, Pc.refs]
  · simp only [initial]
    omega
  · simp [initial, tally, Local.removing]
  · simp [initial]
  · cases hlru
  · cases ht

/-- **One thread moves**, and the fields of the inode change accordingly. -/
theorem Sound.move (h : Sound σ) (hloc : τ.loc = update σ.loc t l)
    (hrefs : τ.refs + σ.cacheRefs + (σ.loc t).refs = σ.refs + τ.cacheRefs + l.refs)
    (hdestructions : τ.destructions = 1 - τ.refs)
    (hremovals : τ.removals + σ.uncached.toNat + l.removing =
      σ.removals + τ.uncached.toNat + (σ.loc t).removing)
    (hlru : τ.lru = true ↔ τ.removals = 0)
    (hactive : τ.lru = true → τ.list = some .active ∨ ∀ t, τ.loc t = ⟨.idle, 0⟩)
    (hlocked : l.pc.locked → τ.lock = some t)
    (hlock : ∀ u, u ≠ t → σ.lock = some u → τ.lock = some u)
    (hgone : τ.lru = false → ¬l.pc.putting ∧ (σ.lru = true → ∀ u, u ≠ t → ¬(σ.loc u).pc.putting))
    (hchecking : ∀ ref, l.pc = .lruCheck ref → 2 ≤ ref ∧ τ.refs ≤ ref)
    (hle : τ.refs ≤ σ.refs) : Sound τ := by
  have hmove : ∀ f : Local → ℕ, tally f τ.loc + f (σ.loc t) = tally f σ.loc + f l :=
    fun f => hloc ▸ tally_update f σ.loc t l
  have hother : ∀ u, u ≠ t → τ.loc u = σ.loc u :=
    fun u hu => by rw [hloc, update_of_ne hu]
  have hself : τ.loc t = l := by rw [hloc, update_self]
  refine ⟨?_, hdestructions, ?_, hlru, hactive, fun u hu => ?_, fun hfalse u => ?_,
    fun u ref hu => ?_⟩
  · have := h.refs
    have := hmove Local.refs
    omega
  · have := h.removals
    have := hmove Local.removing
    omega
  · rcases eq_or_ne u t with rfl | hne
    · exact hlocked (hself ▸ hu)
    · exact hlock u hne (h.locked u (hother u hne ▸ hu))
  · rcases eq_or_ne u t with rfl | hne
    · rw [hself]
      exact (hgone hfalse).1
    · rw [hother u hne]
      cases hcached : σ.lru with
      | true => exact (hgone hfalse).2 hcached u hne
      | false => exact h.gone hcached u
  · rcases eq_or_ne u t with rfl | hne
    · exact hchecking ref (hself ▸ hu)
    · obtain ⟨href, hrefs⟩ := h.checking u ref (hother u hne ▸ hu)
      exact ⟨href, hle.trans hrefs⟩

section

variable (h : Sound σ)

include h

omit [DecidableEq T] in
theorem Sound.list_eq (hlru : σ.lru = true) (ht : σ.loc t ≠ ⟨.idle, 0⟩) : σ.list = some .active :=
  (h.active hlru).resolve_right fun hidle => ht (hidle t)

theorem Sound.stay (ht : σ.loc t ≠ ⟨.idle, 0⟩) (hrefs : l.refs = (σ.loc t).refs)
    (hremoving : l.removing = (σ.loc t).removing) (hlocked : ¬l.pc.locked)
    (hgone : σ.lru = false → ¬l.pc.putting) : Sound (σ.setLoc t l) := by
  refine h.move rfl ?_ h.destructions ?_ h.lru (fun hlru => .inl (h.list_eq hlru ht))
    (fun hl => absurd hl hlocked) (fun _ _ hu => hu) (fun hfalse => ⟨hgone hfalse, ?_⟩)
    (fun ref hl => ?_) le_rfl
  · rw [hrefs]
    rfl
  · rw [hremoving]
    rfl
  · exact fun hlru => absurd (hlru.symm.trans hfalse) Bool.true_eq_false.mp
  · rw [hl] at hlocked
    exact absurd trivial hlocked

omit [DecidableEq T] in
/-- An inode that has left the cache is marked. -/
theorem Sound.uncached_of_gone (hfalse : σ.lru = false) : σ.uncached = true := by
  have hcount := h.removals
  have hlru := h.lru
  cases huncached : σ.uncached with
  | true => rfl
  | false =>
    rw [huncached, Bool.toNat_false] at hcount
    have hcached := hlru.mpr (by omega)
    exact absurd (hcached.symm.trans hfalse) Bool.true_eq_false.mp

theorem Sound.test (hpc : (σ.loc t).pc = .idle) (hheld : 0 < (σ.loc t).held) :
    Keeps σ (.test t) := by
  refine ⟨_, rfl, h.stay (fun heq => ?_) ?_ ?_ ?_ ?_⟩
  · rw [heq] at hheld
    exact absurd hheld (lt_irrefl 0)
  · split <;> simp [Local.refs, Pc.refs, hpc] <;> omega
  · split <;> simp [Local.removing, hpc]
  · split <;> exact id
  · intro _
    split <;> exact id

theorem Sound.checkFlags (hpc : (σ.loc t).pc = .flags) : Keeps σ (.checkFlags t) := by
  refine ⟨_, rfl, h.stay (fun heq => ?_) ?_ ?_ ?_ fun hfalse => ?_⟩
  · rw [heq] at hpc
    cases hpc
  · split <;> simp [Local.refs, Pc.refs, hpc]
  · split <;> simp [Local.removing, hpc]
  · split <;> exact id
  · rw [if_pos (h.uncached_of_gone hfalse)]
    exact id

theorem Sound.mark (hpc : (σ.loc t).pc = .mark) : Keeps σ (.mark t) := by
  have ht : σ.loc t ≠ ⟨.idle, 0⟩ := fun heq => by
    rw [heq] at hpc
    cases hpc
  refine ⟨_, rfl, h.move rfl ?_ h.destructions ?_ h.lru (fun hlru => .inl (h.list_eq hlru ht))
    (fun hl => ?_) (fun _ _ hu => hu) (fun hfalse => ⟨?_, fun hlru => ?_⟩) (fun ref hl => ?_)
    le_rfl⟩
  · split <;> simp [goto, setLoc, cacheRefs, Local.refs, Pc.refs, hpc]
  · split <;> simp_all [goto, setLoc, Local.removing]
  · split at hl <;> exact hl.elim
  · split <;> exact id
  · exact absurd (hlru.symm.trans hfalse) Bool.true_eq_false.mp
  · split at hl <;> cases hl

omit [DecidableEq T] in
/-- The inode is still on the first list of the cache when a thread comes to take it out. -/
theorem Sound.on_active (hpc : (σ.loc t).pc = .remove) :
    σ.list = some .active ∧ σ.lru = true ∧ σ.removals = 0 ∧ σ.uncached = true := by
  have ht : σ.loc t ≠ ⟨.idle, 0⟩ := fun heq => by
    rw [heq] at hpc
    cases hpc
  have hremovals : σ.removals = 0 ∧ σ.uncached = true := by
    have hcount := h.removals
    have hle := le_tally Local.removing σ.loc t
    have hself : (σ.loc t).removing = 1 := if_pos hpc
    cases huncached : σ.uncached with
    | true =>
      rw [huncached, Bool.toNat_true] at hcount
      exact ⟨by omega, rfl⟩
    | false =>
      rw [huncached, Bool.toNat_false] at hcount
      omega
  have hlru : σ.lru = true := h.lru.mpr hremovals.1
  exact ⟨h.list_eq hlru ht, hlru, hremovals⟩

theorem Sound.remove (hpc : (σ.loc t).pc = .remove) (hlock : σ.lock = none)
    (hahead : ∀ u, (σ.loc u).pc ≠ .lruPut) : Keeps σ (.remove t) := by
  obtain ⟨hactive, hlru, hremovals⟩ := h.on_active hpc
  refine ⟨_, if_pos hactive, h.move rfl ?_ h.destructions ?_ ?_ (fun hlru => ?_)
    (fun _ => rfl) (fun u _ hu => ?_) (fun _ => ⟨fun hput => hput, fun _ u _ => ?_⟩)
    (fun ref hl => ?_) le_rfl⟩
  · simp [cacheRefs, goto, setLoc, hlru, Local.refs, Pc.refs, hpc]
    omega
  · simp [goto, setLoc, Local.removing, hpc, Nat.add_right_comm]
  · simp [goto, setLoc]
  · cases hlru
  · rw [hlock] at hu
    cases hu
  · -- Who is in `kobj_lru_put` has the lock.
    intro hput
    cases hpc' : (σ.loc u).pc with
    | lruPut => exact hahead u hpc'
    | lruCheck ref =>
      have hheld := h.locked u (by rw [hpc']; trivial)
      rw [hlock] at hheld
      cases hheld
    | idle | flags | mark | remove | drop | removing n =>
      rw [hpc'] at hput
      exact hput.elim
  · cases hl

end

/-- The state after `__kobj_putref`, with the lock taken, kept or released, and the thread moved. -/
def State.dropped (σ : State T) (t : T) (l : Local) (lock : Option T) : State T :=
  { σ with
    refs := σ.refs - 1
    destructions := if σ.refs = 1 then σ.destructions + 1 else σ.destructions
    lock := lock
    loc := update σ.loc t l }

section

variable (h : Sound σ)

include h

/-- **A reference is dropped.** -/
theorem Sound.dropped (lock : Option T) (hrefs : l.refs + 1 = (σ.loc t).refs)
    (hremoving : l.removing = (σ.loc t).removing) (hlocked : l.pc.locked → lock = some t)
    (hlock : ∀ u, u ≠ t → σ.lock = some u → lock = some u)
    (hgone : σ.lru = false → ¬l.pc.putting)
    (hchecking : ∀ ref, l.pc = .lruCheck ref → 2 ≤ ref ∧ σ.refs - 1 ≤ ref) :
    0 < σ.refs ∧ Sound (σ.dropped t l lock) := by
  have hpos : 0 < σ.refs := by
    have := h.refs
    have := le_tally Local.refs σ.loc t
    omega
  have ht : σ.loc t ≠ ⟨.idle, 0⟩ := fun heq => by
    rw [heq] at hrefs
    simp [Local.refs, Pc.refs] at hrefs
  refine ⟨hpos, h.move rfl ?_ ?_ ?_ h.lru (fun hlru => .inl (h.list_eq hlru ht)) hlocked hlock
    (fun hfalse => ⟨hgone hfalse, fun hlru => ?_⟩) hchecking (Nat.sub_le ..)⟩
  · change σ.refs - 1 + σ.cacheRefs + _ = σ.refs + σ.cacheRefs + _
    omega
  · have := h.destructions
    simp only [State.dropped]
    split <;> omega
  · simp only [State.dropped, hremoving]
  · exact absurd (hlru.symm.trans hfalse) Bool.true_eq_false.mp

omit h in
omit [Fintype T] [DecidableEq T] in
theorem putref_of_pos (hpos : 0 < σ.refs) : σ.putref = .ok ({ σ with
    refs := σ.refs - 1
    destructions := if σ.refs = 1 then σ.destructions + 1 else σ.destructions }, σ.refs - 1) :=
  if_neg hpos.ne'

theorem Sound.drop (hpc : (σ.loc t).pc = .drop) : Keeps σ (.drop t) := by
  obtain ⟨hpos, hsound⟩ := h.dropped (t := t) (l := ⟨.idle, (σ.loc t).held⟩) σ.lock
    (by simp [Local.refs, Pc.refs, hpc]) (by simp [Local.removing, hpc]) (fun hl => hl.elim)
    (fun _ _ hu => hu) (fun _ => id) (fun ref hl => by cases hl)
  refine ⟨_, ?_, hsound⟩
  rw [exec, putref_of_pos hpos]
  rfl

theorem Sound.removePut (hpc : (σ.loc t).pc = .removing 2 ∨ (σ.loc t).pc = .removing 1) :
    Keeps σ (.removePut t) := by
  rcases hpc with hpc | hpc
  · obtain ⟨hpos, hsound⟩ := h.dropped (t := t) (l := ⟨.removing 1, (σ.loc t).held⟩) σ.lock
      (by simp [Local.refs, Pc.refs, hpc]) (by simp [Local.removing, hpc])
      (fun _ => h.locked t (by rw [hpc]; trivial)) (fun _ _ hu => hu) (fun _ => id)
      (fun ref hl => by cases hl)
    refine ⟨_, ?_, hsound⟩
    rw [exec, putref_of_pos hpos]
    simp [bind, Except.bind, hpc]
    rfl
  · -- the lock is released: no other thread had it
    have hlock : σ.lock = some t := h.locked t (by rw [hpc]; trivial)
    obtain ⟨hpos, hsound⟩ := h.dropped (t := t) (l := ⟨.drop, (σ.loc t).held⟩) none
      (by simp [Local.refs, Pc.refs, hpc]) (by simp [Local.removing, hpc]) (fun hl => hl.elim)
      (fun u hu hlock' => absurd (Option.some.inj (hlock'.symm.trans hlock)) hu) (fun _ => id)
      (fun ref hl => by cases hl)
    refine ⟨_, ?_, hsound⟩
    rw [exec, putref_of_pos hpos]
    simp [bind, Except.bind, hpc]
    rfl

omit [DecidableEq T] in
/-- The inode is in the cache while a thread is on its way to `kobj_lru_put`, or in it. -/
theorem Sound.lru_of_putting (hput : (σ.loc t).pc.putting) : σ.lru = true := by
  by_contra hfalse
  exact h.gone (Bool.not_eq_true _ ▸ hfalse) t hput

theorem Sound.lruPut (hpc : (σ.loc t).pc = .lruPut) (hlock : σ.lock = none) :
    Keeps σ (.lruPut t) := by
  have hlru := h.lru_of_putting (t := t) (by rw [hpc]; trivial)
  have hrefs : 3 ≤ σ.refs := by
    have hcount := h.refs
    have hle := le_tally Local.refs σ.loc t
    have hself : 1 ≤ (σ.loc t).refs := by simp [Local.refs, Pc.refs, hpc]
    rw [cacheRefs, hlru, Bool.toNat_true] at hcount
    omega
  obtain ⟨hpos, hsound⟩ := h.dropped (t := t) (l := ⟨.lruCheck (σ.refs - 1), (σ.loc t).held⟩)
    (some t) (by simp [Local.refs, Pc.refs, hpc]) (by simp [Local.removing, hpc])
    (fun _ => rfl) (fun u _ hu => by rw [hlock] at hu; cases hu)
    (fun hfalse => absurd (hlru.symm.trans hfalse) Bool.true_eq_false.mp)
    (fun ref hl => by cases hl; omega)
  refine ⟨_, ?_, hsound⟩
  rw [exec, putref_of_pos hpos]
  rfl

omit [DecidableEq T] in
theorem Sound.idle_of_last (hlru : σ.lru = true) (hpc : (σ.loc t).pc = .lruCheck 2) :
    (σ.loc t).held = 0 ∧ ∀ u, u ≠ t → σ.loc u = ⟨.idle, 0⟩ := by
  have hlock : σ.lock = some t := h.locked t (by rw [hpc]; trivial)
  have hzero : ∀ u, (σ.loc u).refs = 0 := by
    intro u
    have hcount := h.refs
    have hle := le_tally Local.refs σ.loc u
    have href := (h.checking t 2 hpc).2
    rw [cacheRefs, hlru, Bool.toNat_true] at hcount
    omega
  refine ⟨Nat.eq_zero_of_add_eq_zero_right (hzero t), fun u hu => ?_⟩
  have hheld : (σ.loc u).held = 0 := Nat.eq_zero_of_add_eq_zero_right (hzero u)
  have hpcrefs : (σ.loc u).pc.refs = 0 := Nat.eq_zero_of_add_eq_zero_left (hzero u)
  have hidle : (σ.loc u).pc = .idle := by
    cases hpc' : (σ.loc u).pc with
    | idle => rfl
    | lruCheck ref =>
      have hlock' : σ.lock = some u := h.locked u (by rw [hpc']; trivial)
      exact absurd (Option.some.inj (hlock'.symm.trans hlock)) hu
    | flags | mark | remove | drop | lruPut | removing n => simp [Pc.refs, hpc'] at hpcrefs
  rw [← hheld, ← hidle]

theorem Sound.lruCheck {ref : ℕ} (hpc : (σ.loc t).pc = .lruCheck ref) :
    Keeps σ (.lruCheck t) := by
  have ht : σ.loc t ≠ ⟨.idle, 0⟩ := fun heq => by
    rw [heq] at hpc
    cases hpc
  have hrefs : 2 ≤ σ.refs := by
    have hlru := h.lru_of_putting (t := t) (by rw [hpc]; trivial)
    have hcount := h.refs
    rw [State.cacheRefs, hlru, Bool.toNat_true] at hcount
    omega
  have href : 2 ≤ ref := (h.checking t ref hpc).1
  have hlock : ∀ u, u ≠ t → σ.lock ≠ some u := fun u hu hlock' =>
    hu (Option.some.inj (hlock'.symm.trans (h.locked t (by rw [hpc]; trivial))))
  -- whatever list the inode ends up on
  have hsound : ∀ list, (σ.lru = true → list = some .active ∨
      ∀ u, ({ σ with list := list, lock := none }.goto t .idle).loc u = ⟨.idle, 0⟩) →
      Sound ({ σ with list := list, lock := none }.goto t .idle) := by
    intro list hactive
    refine h.move rfl ?_ h.destructions ?_ h.lru hactive (fun hl => hl.elim)
      (fun u hu hlock' => absurd hlock' (hlock u hu))
      (fun hfalse => ⟨id, fun hlru => absurd (hlru.symm.trans hfalse) Bool.true_eq_false.mp⟩)
      (fun ref hl => by cases hl) le_rfl
    · simp [State.goto, State.setLoc, State.cacheRefs, Local.refs, Pc.refs, hpc]
    · simp [State.goto, State.setLoc, Local.removing, hpc]
  have hpass : ¬(σ.refs < 2 ∨ ref < 2) := by omega
  simp only [Keeps, State.exec, hpc, State.lruCheck, if_neg hpass]
  by_cases hlast : ref = 2 ∧ σ.lru = true
  · obtain ⟨rfl, hlru⟩ := hlast
    have hlist := h.list_eq hlru ht
    obtain ⟨hheld, hidle⟩ := h.idle_of_last hlru hpc
    refine ⟨_, by simp [hlru, State.activeCount, hlist, bind, Except.bind],
      hsound (some .lru) fun _ => .inr fun u => ?_⟩
    rcases eq_or_ne u t with rfl | hu
    · simp [State.goto, State.setLoc, hheld]
    · simp [State.goto, State.setLoc, hu, hidle u hu]
  · refine ⟨_, by rw [if_neg hlast]; rfl, hsound σ.list fun hlru => .inl (h.list_eq hlru ht)⟩

/-! ## The runs -/

/-- **A step that overtakes nobody** succeeds, and keeps the references sound. -/
theorem Sound.exec {e : Event T} (he : e.Ready σ) (hahead : ¬Overtakes σ e) : Keeps σ e := by
  cases e with
  | unlink => exact ⟨_, rfl, h.1, h.2, h.3, h.4, h.5, h.6, h.7, h.8⟩
  | test t => exact h.test he.1 he.2
  | checkFlags t => exact h.checkFlags he
  | mark t => exact h.mark he
  | remove t => exact h.remove he.1 he.2 fun u hu => hahead ⟨u, hu⟩
  | removePut t => exact h.removePut he
  | drop t => exact h.drop he
  | lruPut t => exact h.lruPut he.1 he.2
  | lruCheck t =>
    obtain ⟨ref, hpc⟩ : ∃ ref, (σ.loc t).pc = .lruCheck ref := by
      rw [Event.Ready] at he
      split at he
      · exact ⟨_, ‹_›⟩
      · cases he
    exact h.lruCheck hpc

/-- No step panics: the panic comes after a removal that has overtaken a thread. -/
theorem Sound.panic_eq_none {e : Event T} (he : e.Ready σ) : σ.panic e = none := by
  by_cases hahead : Overtakes σ e
  · cases e with
    | remove t => rw [State.panic, State.exec, if_pos (h.on_active he.1).1]
    | unlink | test t | checkFlags t | mark t | removePut t | drop t | lruPut t | lruCheck t =>
      exact hahead.elim
  · obtain ⟨τ, hexec, -⟩ := h.exec he hahead
    rw [State.panic, hexec]

end

/-- The references that are left: two of the cache as long as the inode is in it, those that the
threads hold, and those that calls have yet to drop. -/
def State.outstanding (σ : State T) : ℕ := (if σ.lru then 2 else 0) + ∑ t, (σ.loc t).refs

/-- **The release of an inode**, as long as it is not taken out of the cache while a thread is on
its way to `kobj_lru_put`: in every state of the run the count is the number of references not yet
dropped, the inode has left the cache at most once, the destructor has run (once) if and only if no
reference is left, and no step a thread can take next panics. -/
theorem inode_put_run (links others : ℕ) (fs : Bool) (held : T → ℕ)
    {run : List (Event T × State T)} (hrun : Along Step (.initial links others fs held) run)
    (hahead : Along (fun σ e _ => ¬Overtakes σ e) (.initial links others fs held) run) :
    After (fun σ => σ.refs = σ.outstanding ∧ σ.removals ≤ 1 ∧
      σ.destructions = (if σ.outstanding = 0 then 1 else 0) ∧
      ∀ e : Event T, e.Ready σ → σ.panic e = none)
      (.initial links others fs held) run := by
  have hstep : ∀ σ e τ, Sound σ → Step σ e τ → ¬Overtakes σ e → Sound (τ : State T) := by
    intro σ e τ h he hahead
    obtain ⟨τ', hexec, hτ⟩ := h.exec he.1 hahead
    obtain rfl := Except.ok.inj (hexec.symm.trans he.2)
    exact hτ
  refine (hrun.after hstep (sound_initial ..) hahead).mono fun σ h => ?_
  have hrefs : σ.refs = σ.outstanding := by
    refine h.refs.trans ?_
    rw [outstanding, cacheRefs, tally]
    cases σ.lru <;> rfl
  refine ⟨hrefs, ?_, ?_, fun e he => h.panic_eq_none he⟩
  · have := h.removals
    have := Bool.toNat_le σ.uncached
    omega
  · rw [h.destructions, ← hrefs]
    split <;> omega

/-- Two threads, one of which unlinks the inode and takes it out of the cache; the other one comes
after it, finds the mark, and drops the last reference. -/
theorem inode_put_run_two_threads : ∃ run : List (Event (Fin 2) × State (Fin 2)),
    Along Step (.initial 1 0 true fun _ => 1) run ∧
    Along (fun σ e _ => ¬Overtakes σ e) (.initial 1 0 true fun _ => 1) run ∧
    (final (.initial 1 0 true fun _ => 1) run).destructions = 1 ∧
    After (fun σ => σ.refs = σ.outstanding ∧ σ.removals ≤ 1 ∧
      σ.destructions = (if σ.outstanding = 0 then 1 else 0) ∧
      ∀ e : Event (Fin 2), e.Ready σ → σ.panic e = none)
      (.initial 1 0 true fun _ => 1) run := by
  obtain ⟨run, -, hrun, hgoal⟩ := exists_run (fun σ e => (σ.exec e).toOption)
    (fun σ e => e.Ready σ ∧ ¬Overtakes σ e) (fun σ => σ.destructions = 1)
    (initial 1 0 true fun _ : Fin 2 => 1)
    [.test 0, .unlink, .test 1, .mark 1, .checkFlags 0, .remove 1, .removePut 1, .removePut 1,
      .drop 1, .drop 0] (by decide +kernel)
  have hsteps := hrun.mono fun σ e τ h => (⟨h.1.1, toOption_eq_some.mp h.2⟩ : Step σ e τ)
  have hahead := hrun.mono fun σ e τ h => h.1.2
  exact ⟨run, hsteps, hahead, hgoal, inode_put_run 1 0 true _ hsteps hahead⟩

end SeaKernel.InodePut
