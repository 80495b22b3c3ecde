import SeaKernel.Lib.Run
import SeaKernel.Lib.Threads

/-!
# The slab allocator

A model of `allocate_from_cache` and `deallocate_object` of `kernel/slab.c`, for any number of
threads. The slabs of a cache are kept on three lists, under the lock of the cache; the objects of a
slab are on a stack of its own, which is popped and pushed after the lock has been released and
before it is taken. In between, the count of the slab and its stack disagree.

The steps are the sections under the lock, the operations on a stack, and the updates of the
counter `allocated_objects`. A failed assertion is the result `none`. An object is given by its slab
and its place there.

## Main definitions

* `Cache.allocate`, `Cache.deallocate`: the sections under the lock
* `State.exec`: the steps of the threads
* `Sorted`: the lists and the totals agree with the counts

## Main results

* `Sorted.allocate`, `Sorted.deallocate`: the sections succeed and keep the lists sorted
-/

namespace SeaKernel.SlabCache

open Function Finset

/-- An object: its slab, and its place in the slab. -/
abbrev Obj : Type := ℕ × ℕ

/-- `slab->max`: the number of objects of the size in a slab of 64 pages, less one. -/
def slabMax (slabstructSize size : ℕ) : ℕ := (0x1000 * 64 - slabstructSize) / size - 1

/-- `struct slab`; the stack has its top first. -/
structure Slab where
  count : ℕ
  objects : List Obj

/-- `struct cache`, with the slabs created so far; the lists have their head first. -/
structure Cache where
  slab : ℕ → Slab
  created : ℕ
  emptyList : List ℕ
  partialList : List ℕ
  fullList : List ℕ
  totalSlabs : ℕ
  totalInuse : ℕ
  allocatedObjects : ℤ

/-- `initialize_cache` -/
def Cache.initial : Cache where
  slab _ := ⟨0, []⟩
  created := 0
  emptyList := []
  partialList := []
  fullList := []
  totalSlabs := 0
  totalInuse := 0
  allocatedObjects := 0

/-- `linkedlist_remove`, which asserts that the entry is on the list. -/
def remove (list : List ℕ) (s : ℕ) : Option (List ℕ) :=
  if s ∈ list then some (list.erase s) else none

namespace Cache

/-- The count of a slab is replaced. -/
def setCount (c : Cache) (s count : ℕ) : Cache :=
  { c with slab := update c.slab s { c.slab s with count := count } }

/-- The stack of a slab is replaced. -/
def setObjects (c : Cache) (s : ℕ) (objects : List Obj) : Cache :=
  { c with slab := update c.slab s { c.slab s with objects := objects } }

/-- `create_new_slab`: all objects are pushed, in order. -/
def createNewSlab (max : ℕ) (c : Cache) : Cache :=
  { c with
    slab := update c.slab c.created
      ⟨0, (List.range max).reverse.map fun i => (c.created, i)⟩
    created := c.created + 1 }

/-- The slab to allocate from, and whether it is new. -/
def findSlab (max : ℕ) (c : Cache) : Cache × ℕ × Bool :=
  match c.partialList with
  | s :: _ => (c, s, false)
  | [] =>
    match c.emptyList with
    | s :: _ => (c, s, false)
    | [] =>
      let c' := c.createNewSlab max
      ({ c' with totalSlabs := c'.totalSlabs + 1 }, c.created, true)

/-- The slab has one object more in use, and may have to change its list. -/
def countUp (max : ℕ) (c : Cache) (s : ℕ) (new : Bool) : Option Cache :=
  let count := (c.slab s).count
  let c := c.setCount s (count + 1)
  if count = max - 1 then do
    let partialList ← remove c.partialList s
    return { c with partialList := partialList, fullList := s :: c.fullList }
  else if count = 0 then do
    let emptyList ← (if new then some c.emptyList else remove c.emptyList s)
    return { c with
      emptyList := emptyList
      partialList := s :: c.partialList
      totalInuse := c.totalInuse + 1 }
  else some c

/-- The section of `allocate_from_cache` under the lock. -/
def allocate (max : ℕ) (c : Cache) : Option (Cache × ℕ) :=
  let (c, s, new) := c.findSlab max
  (c.countUp max s new).map fun c => (c, s)

/-- The section of `deallocate_object` under the lock. -/
def deallocate (max : ℕ) (c : Cache) (s : ℕ) : Option Cache :=
  let count := (c.slab s).count
  let c := c.setCount s (count - 1)
  if count = max then do
    let fullList ← remove c.fullList s
    return { c with fullList := fullList, partialList := s :: c.partialList }
  else if count = 1 then do
    let partialList ← remove c.partialList s
    return { c with
      partialList := partialList
      emptyList := s :: c.emptyList
      totalInuse := c.totalInuse - 1 }
  else some c

end Cache

/-! ## Threads -/

/-- Where a thread is in one of the two functions. -/
inductive Pc where
  | idle
  /-- In `allocate_from_cache`, after the lock has been released. -/
  | popping (s : ℕ)
  /-- In `allocate_from_cache`, after `stack_pop`, with what it has returned. -/
  | popped (o : Option Obj)
  /-- In `deallocate_object`, before `stack_push`. -/
  | pushing (o : Obj)
  /-- In `deallocate_object`, before the lock is taken. -/
  | pushed (s : ℕ)
  deriving DecidableEq

/-- A thread, with the objects it holds. -/
structure Local where
  pc : Pc
  held : List Obj

/-- A cache and the threads that use it. -/
structure State (T : Type*) where
  cache : Cache
  loc : T → Local

variable {T : Type*} [DecidableEq T]

/-- The steps of a thread. -/
inductive Event (T : Type*) where
  /-- The section of `allocate_from_cache` under the lock. -/
  | allocate (t : T)
  /-- `stack_pop` -/
  | pop (t : T)
  /-- The end of `allocate_from_cache`: the object is counted and returned. -/
  | finish (t : T)
  /-- The start of `deallocate_object`. -/
  | free (t : T) (o : Obj)
  /-- `stack_push` -/
  | push (t : T)
  /-- The section of `deallocate_object` under the lock. -/
  | deallocate (t : T)
  /-- A held object is handed to another thread. -/
  | give (t u : T) (o : Obj)

namespace State

/-- The local state of a thread is replaced. -/
def setLoc (σ : State T) (t : T) (l : Local) : State T :=
  { σ with loc := update σ.loc t l }

/-- The thread moves on to the given place. -/
def goto (σ : State T) (t : T) (pc : Pc) : State T := σ.setLoc t { σ.loc t with pc := pc }

end State

/-- The thread is where the step starts; only held objects are freed. -/
def Event.Ready (σ : State T) : Event T → Prop
  | .allocate t => (σ.loc t).pc = .idle
  | .pop t => ∃ s, (σ.loc t).pc = .popping s
  | .finish t => ∃ o, (σ.loc t).pc = .popped o
  | .free t o => (σ.loc t).pc = .idle ∧ o ∈ (σ.loc t).held
  | .push t => ∃ o, (σ.loc t).pc = .pushing o
  | .deallocate t => ∃ s, (σ.loc t).pc = .pushed s
  | .give t u o => t ≠ u ∧ o ∈ (σ.loc t).held

instance (σ : State T) (e : Event T) : Decidable (e.Ready σ) :=
  match e with
  | .allocate _ => inferInstanceAs (Decidable (_ = _))
  | .pop t => decidable_of_iff ((σ.loc t).pc matches .popping _)
      (by rw [Event.Ready]; cases h : (σ.loc t).pc <;> simp)
  | .finish t => decidable_of_iff ((σ.loc t).pc matches .popped _)
      (by rw [Event.Ready]; cases h : (σ.loc t).pc <;> simp)
  | .free _ _ => inferInstanceAs (Decidable (_ ∧ _))
  | .push t => decidable_of_iff ((σ.loc t).pc matches .pushing _)
      (by rw [Event.Ready]; cases h : (σ.loc t).pc <;> simp)
  | .deallocate t => decidable_of_iff ((σ.loc t).pc matches .pushed _)
      (by rw [Event.Ready]; cases h : (σ.loc t).pc <;> simp)
  | .give _ _ _ => inferInstanceAs (Decidable (_ ∧ _))

/-- A step, for a thread that is where the step starts; `none` is a failed assertion. -/
def State.exec (max : ℕ) (σ : State T) : Event T → Option (State T)
  | .allocate t =>
    (σ.cache.allocate max).map fun (c, s) => { σ with cache := c }.goto t (.popping s)
  | .pop t =>
    match (σ.loc t).pc with
    | .popping s =>
      match (σ.cache.slab s).objects with
      | [] => some (σ.goto t (.popped none))
      | o :: objects =>
        some ({ σ with cache := σ.cache.setObjects s objects }.goto t (.popped (some o)))
    | _ => none
  | .finish t =>
    match (σ.loc t).pc with
    | .popped (some o) =>
      let c := { σ.cache with allocatedObjects := σ.cache.allocatedObjects + 1 }
      some ({ σ with cache := c }.setLoc t ⟨.idle, o :: (σ.loc t).held⟩)
    | _ => none
  | .free t o =>
    let c := { σ.cache with allocatedObjects := σ.cache.allocatedObjects - 1 }
    some ({ σ with cache := c }.setLoc t ⟨.pushing o, (σ.loc t).held.erase o⟩)
  | .push t =>
    match (σ.loc t).pc with
    | .pushing o =>
      some ({ σ with cache := σ.cache.setObjects o.1 (o :: (σ.cache.slab o.1).objects) }.goto t
        (.pushed o.1))
    | _ => none
  | .deallocate t =>
    match (σ.loc t).pc with
    | .pushed s => (σ.cache.deallocate max s).map fun c => { σ with cache := c }.goto t .idle
    | _ => none
  | .give t u o =>
    let σ := σ.setLoc t { σ.loc t with held := (σ.loc t).held.erase o }
    some (σ.setLoc u { σ.loc u with held := o :: (σ.loc u).held })

/-- A cache without slabs, and threads that hold nothing. -/
def State.initial : State T := ⟨.initial, fun _ => ⟨.idle, []⟩⟩

/-! ## The lists -/

/-- The slabs with objects in use. -/
def Cache.inuse (c : Cache) : Finset ℕ :=
  (Finset.range c.created).filter fun s => 0 < (c.slab s).count

/-- Every slab is on the list its count calls for, and the totals are right. -/
structure Sorted (max : ℕ) (c : Cache) : Prop where
  nodup_empty : c.emptyList.Nodup
  nodup_partial : c.partialList.Nodup
  nodup_full : c.fullList.Nodup
  mem_empty : ∀ s, s ∈ c.emptyList ↔ s < c.created ∧ (c.slab s).count = 0
  mem_partial : ∀ s, s ∈ c.partialList ↔
    s < c.created ∧ 0 < (c.slab s).count ∧ (c.slab s).count < max
  mem_full : ∀ s, s ∈ c.fullList ↔ s < c.created ∧ (c.slab s).count = max
  count_le : ∀ s < c.created, (c.slab s).count ≤ max
  totalSlabs : c.totalSlabs = c.created
  totalInuse : c.totalInuse = c.inuse.card

variable {max : ℕ} {c c' : Cache} {s : ℕ}

open Cache

section

variable (c : Cache)

@[simp] theorem count_setCount (s n s' : ℕ) :
    ((c.setCount s n).slab s').count = if s' = s then n else (c.slab s').count := by
  by_cases h : s' = s <;> simp [setCount, h]

@[simp] theorem objects_setCount (s n s' : ℕ) :
    ((c.setCount s n).slab s').objects = (c.slab s').objects := by
  by_cases h : s' = s <;> simp [setCount, h]

@[simp] theorem count_setObjects (s s' : ℕ) (l : List Obj) :
    ((c.setObjects s l).slab s').count = (c.slab s').count := by
  by_cases h : s' = s <;> simp [setObjects, h]

@[simp] theorem objects_setObjects (s s' : ℕ) (l : List Obj) :
    ((c.setObjects s l).slab s').objects = if s' = s then l else (c.slab s').objects := by
  by_cases h : s' = s <;> simp [setObjects, h]

theorem remove_of_mem {list : List ℕ} (h : s ∈ list) : remove list s = some (list.erase s) :=
  if_pos h

variable (s n : ℕ)

@[simp] theorem partialList_setCount : (c.setCount s n).partialList = c.partialList := rfl

@[simp] theorem emptyList_setCount : (c.setCount s n).emptyList = c.emptyList := rfl

@[simp] theorem fullList_setCount : (c.setCount s n).fullList = c.fullList := rfl

@[simp] theorem totalInuse_setCount : (c.setCount s n).totalInuse = c.totalInuse := rfl

@[simp] theorem created_setCount : (c.setCount s n).created = c.created := rfl

end

theorem sorted_initial : Sorted max Cache.initial := by
  constructor <;> simp [initial, inuse]

/-- A list whose other members are as before, and that has the slab if `b`. -/
def Relisted (l l' : List ℕ) (s : ℕ) (b : Prop) : Prop :=
  l'.Nodup ∧ ∀ s', s' ∈ l' ↔ (s' = s ∧ b) ∨ (s' ≠ s ∧ s' ∈ l)

section Relisted

variable {l : List ℕ} {b : Prop}

theorem Relisted.keep (hl : l.Nodup) (h : s ∈ l ↔ b) : Relisted l l s b :=
  ⟨hl, fun s' => by by_cases heq : s' = s <;> simp [heq, h]⟩

theorem Relisted.erase (hl : l.Nodup) (h : ¬b) : Relisted l (l.erase s) s b :=
  ⟨hl.erase s, fun s' => by rw [hl.mem_erase_iff]; simp [h]⟩

theorem Relisted.cons (hl : l.Nodup) (hs : s ∉ l) (h : b) : Relisted l (s :: l) s b :=
  ⟨List.nodup_cons.mpr ⟨hs, hl⟩, fun s' => by by_cases heq : s' = s <;> simp [heq, h]⟩

end Relisted

theorem Sorted.congr (h : Sorted max c) (hempty : c'.emptyList = c.emptyList)
    (hpart : c'.partialList = c.partialList) (hfull : c'.fullList = c.fullList)
    (hcreated : c'.created = c.created) (hslabs : c'.totalSlabs = c.totalSlabs)
    (hinuse : c'.totalInuse = c.totalInuse)
    (hcount : ∀ s, (c'.slab s).count = (c.slab s).count) : Sorted max c' := by
  refine ⟨hempty ▸ h.nodup_empty, hpart ▸ h.nodup_partial, hfull ▸ h.nodup_full, fun s => ?_,
    fun s => ?_, fun s => ?_, fun s hs => ?_, ?_, ?_⟩
  · rw [hempty, hcreated, hcount, h.mem_empty]
  · rw [hpart, hcreated, hcount, h.mem_partial]
  · rw [hfull, hcreated, hcount, h.mem_full]
  · rw [hcount]
    exact h.count_le s (hcreated ▸ hs)
  · rw [hslabs, hcreated, h.totalSlabs]
  · rw [hinuse, h.totalInuse, inuse, inuse, hcreated]
    exact congrArg card (filter_congr fun s _ => by rw [hcount])

variable {n : ℕ}

theorem Sorted.of_count (h : Sorted max c) (hs : s < c.created) (hn : n ≤ max)
    (hcreated : c'.created = c.created) (hslab : c'.slab = (c.setCount s n).slab)
    (hempty : Relisted c.emptyList c'.emptyList s (n = 0))
    (hpart : Relisted c.partialList c'.partialList s (0 < n ∧ n < max))
    (hfull : Relisted c.fullList c'.fullList s (n = max)) (hslabs : c'.totalSlabs = c.totalSlabs)
    (hinuse : c'.totalInuse = (c.setCount s n).inuse.card) : Sorted max c' := by
  have hcount : ∀ s', (c'.slab s').count = if s' = s then n else (c.slab s').count := by
    intro s'
    rw [hslab, count_setCount]
  refine ⟨hempty.1, hpart.1, hfull.1, fun s' => ?_, fun s' => ?_, fun s' => ?_,
    fun s' hs' => ?_, hslabs.trans (h.totalSlabs.trans hcreated.symm), ?_⟩
  · rw [hempty.2, hcreated, hcount]
    by_cases heq : s' = s <;> simp [heq, hs, h.mem_empty]
  · rw [hpart.2, hcreated, hcount]
    by_cases heq : s' = s <;> simp [heq, hs, h.mem_partial]
  · rw [hfull.2, hcreated, hcount]
    by_cases heq : s' = s <;> simp [heq, hs, h.mem_full]
  · rw [hcount]
    split
    · exact hn
    · exact h.count_le s' (hcreated ▸ hs')
  · rw [hinuse, inuse, inuse, hcreated, hslab]
    rfl

theorem mem_inuse : s ∈ c.inuse ↔ s < c.created ∧ 0 < (c.slab s).count := by
  simp [inuse]

section

variable (hs : s < c.created)

include hs

theorem mem_inuse_setCount {s' : ℕ} :
    s' ∈ (c.setCount s n).inuse ↔ (s' = s ∧ 0 < n) ∨ (s' ≠ s ∧ s' ∈ c.inuse) := by
  rw [mem_inuse, mem_inuse, count_setCount]
  by_cases heq : s' = s
  · simpa [heq] using fun _ => hs
  · simp [heq, setCount]

theorem card_inuse_of_pos (hpos : 0 < (c.slab s).count) (hn : 0 < n) :
    (c.setCount s n).inuse.card = c.inuse.card := by
  congr 1
  ext s'
  rw [mem_inuse_setCount hs]
  by_cases heq : s' = s
  · simp [heq, hn, mem_inuse, hs, hpos]
  · simp [heq]

theorem card_inuse_of_zero (hzero : (c.slab s).count = 0) (hn : 0 < n) :
    (c.setCount s n).inuse.card = c.inuse.card + 1 := by
  have hnot : s ∉ c.inuse := by simp [mem_inuse, hzero]
  rw [← card_insert_of_notMem hnot]
  congr 1
  ext s'
  rw [mem_insert, mem_inuse_setCount hs]
  by_cases heq : s' = s <;> simp [heq, hn]

theorem card_inuse_to_zero (hpos : 0 < (c.slab s).count) :
    (c.setCount s 0).inuse.card = c.inuse.card - 1 := by
  have hmem : s ∈ c.inuse := mem_inuse.mpr ⟨hs, hpos⟩
  rw [← card_erase_of_mem hmem]
  congr 1
  ext s'
  rw [mem_erase, mem_inuse_setCount hs]
  by_cases heq : s' = s <;> simp [heq]

end

theorem Sorted.countUp (h : Sorted max c) (hmax : 2 ≤ max) (hs : s < c.created)
    (hlt : (c.slab s).count < max) :
    ∃ c', c.countUp max s false = some c' ∧ Sorted max c' ∧ c'.created = c.created ∧
      c'.slab = (c.setCount s ((c.slab s).count + 1)).slab := by
  by_cases hlast : (c.slab s).count = max - 1
  · -- the slab is full now
    have hmem : s ∈ c.partialList := (h.mem_partial s).mpr ⟨hs, by omega, hlt⟩
    refine ⟨{ c.setCount s ((c.slab s).count + 1) with
      partialList := c.partialList.erase s
      fullList := s :: c.fullList }, ?_, ?_, rfl, rfl⟩
    · simp [Cache.countUp, hlast, remove_of_mem hmem]
    · refine h.of_count hs hlt rfl rfl (.keep h.nodup_empty ?_)
        (.erase h.nodup_partial (by omega)) (.cons h.nodup_full ?_ (by omega)) rfl ?_
      · rw [h.mem_empty]
        omega
      · rw [h.mem_full]
        omega
      · exact h.totalInuse.trans (card_inuse_of_pos hs (by omega) (Nat.succ_pos _)).symm
  · by_cases hfirst : (c.slab s).count = 0
    · -- the slab was empty
      have hmem : s ∈ c.emptyList := (h.mem_empty s).mpr ⟨hs, hfirst⟩
      refine ⟨{ c.setCount s ((c.slab s).count + 1) with
        emptyList := c.emptyList.erase s
        partialList := s :: c.partialList
        totalInuse := c.totalInuse + 1 }, ?_, ?_, rfl, rfl⟩
      · rw [Cache.countUp, if_neg hlast, if_pos hfirst]
        simp [remove_of_mem hmem]
      · refine h.of_count hs hlt rfl rfl (.erase h.nodup_empty (by omega))
          (.cons h.nodup_partial ?_ (by omega)) (.keep h.nodup_full ?_) rfl ?_
        · rw [h.mem_partial]
          omega
        · rw [h.mem_full]
          omega
        · rw [card_inuse_of_zero hs hfirst (Nat.succ_pos _), ← h.totalInuse]
    · -- the slab stays on its list
      refine ⟨c.setCount s ((c.slab s).count + 1), ?_, ?_, rfl, rfl⟩
      · simp [Cache.countUp, hlast, hfirst]
      · refine h.of_count hs hlt rfl rfl (.keep h.nodup_empty ?_) (.keep h.nodup_partial ?_)
          (.keep h.nodup_full ?_) rfl ?_
        · rw [h.mem_empty]
          omega
        · rw [h.mem_partial]
          omega
        · rw [h.mem_full]
          omega
        · exact h.totalInuse.trans (card_inuse_of_pos hs (by omega) (Nat.succ_pos _)).symm

theorem Sorted.deallocate (h : Sorted max c) (hmax : 2 ≤ max) (hs : s < c.created)
    (hpos : 0 < (c.slab s).count) :
    ∃ c', c.deallocate max s = some c' ∧ Sorted max c' ∧ c'.created = c.created ∧
      c'.slab = (c.setCount s ((c.slab s).count - 1)).slab := by
  have hle := h.count_le s hs
  by_cases hlast : (c.slab s).count = max
  · -- the slab was full
    have hmem : s ∈ c.fullList := (h.mem_full s).mpr ⟨hs, hlast⟩
    refine ⟨{ c.setCount s ((c.slab s).count - 1) with
      fullList := c.fullList.erase s
      partialList := s :: c.partialList }, ?_, ?_, rfl, rfl⟩
    · simp [Cache.deallocate, hlast, remove_of_mem hmem]
    · refine h.of_count hs (by omega) rfl rfl (.keep h.nodup_empty ?_)
        (.cons h.nodup_partial ?_ (by omega)) (.erase h.nodup_full (by omega)) rfl ?_
      · rw [h.mem_empty]
        omega
      · rw [h.mem_partial]
        omega
      · exact h.totalInuse.trans (card_inuse_of_pos hs hpos (by omega)).symm
  · by_cases hfirst : (c.slab s).count = 1
    · -- the slab is empty now
      have hmem : s ∈ c.partialList := (h.mem_partial s).mpr ⟨hs, hpos, by omega⟩
      refine ⟨{ c.setCount s ((c.slab s).count - 1) with
        partialList := c.partialList.erase s
        emptyList := s :: c.emptyList
        totalInuse := c.totalInuse - 1 }, ?_, ?_, rfl, rfl⟩
      · rw [Cache.deallocate, if_neg hlast, if_pos hfirst]
        simp [remove_of_mem hmem]
      · refine h.of_count hs (by omega) rfl rfl (.cons h.nodup_empty ?_ (by omega))
          (.erase h.nodup_partial (by omega)) (.keep h.nodup_full ?_) rfl ?_
        · rw [h.mem_empty]
          omega
        · rw [h.mem_full]
          omega
        · rw [hfirst, card_inuse_to_zero hs hpos, ← h.totalInuse]
    · -- the slab stays on its list
      refine ⟨c.setCount s ((c.slab s).count - 1), ?_, ?_, rfl, rfl⟩
      · simp [Cache.deallocate, hlast, hfirst]
      · refine h.of_count hs (by omega) rfl rfl (.keep h.nodup_empty ?_)
          (.keep h.nodup_partial ?_) (.keep h.nodup_full ?_) rfl ?_
        · rw [h.mem_empty]
          omega
        · rw [h.mem_partial]
          omega
        · rw [h.mem_full]
          omega
        · exact h.totalInuse.trans (card_inuse_of_pos hs hpos (by omega)).symm

/-- A new slab, put on the list of empty slabs. -/
def Cache.addSlab (max : ℕ) (c : Cache) : Cache :=
  { c.createNewSlab max with
    emptyList := c.created :: c.emptyList
    totalSlabs := c.totalSlabs + 1 }

theorem Sorted.addSlab (h : Sorted max c) (hmax : 2 ≤ max) : Sorted max (c.addSlab max) := by
  have hcount : ∀ s, ((c.addSlab max).slab s).count =
      if s = c.created then 0 else (c.slab s).count := by
    intro s
    by_cases heq : s = c.created <;> simp [Cache.addSlab, Cache.createNewSlab, heq]
  have hcreated : (c.addSlab max).created = c.created + 1 := rfl
  refine ⟨List.nodup_cons.mpr ⟨?_, h.nodup_empty⟩, h.nodup_partial, h.nodup_full, fun s => ?_,
    fun s => ?_, fun s => ?_, fun s hs => ?_, ?_, ?_⟩
  · rw [h.mem_empty]
    omega
  · rw [hcount, hcreated, Cache.addSlab, List.mem_cons, h.mem_empty]
    split <;> omega
  · rw [hcount, hcreated]
    refine (h.mem_partial s).trans ?_
    split <;> omega
  · rw [hcount, hcreated]
    refine (h.mem_full s).trans ?_
    split <;> omega
  · rw [hcount]
    split
    · omega
    · exact h.count_le s (by omega)
  · exact congrArg (· + 1) h.totalSlabs
  · refine h.totalInuse.trans (congrArg card ?_)
    ext s
    rw [mem_inuse, mem_inuse, hcount, hcreated]
    split <;> omega

/-- **The section of `allocate_from_cache` under the lock**: an object is set aside in a slab that
is not full. -/
theorem Sorted.allocate (h : Sorted max c) (hmax : 2 ≤ max) :
    ∃ c' s base, c.allocate max = some (c', s) ∧ Sorted max c' ∧
      (base = c ∨ base = c.addSlab max) ∧ s < base.created ∧ c'.created = base.created ∧
      c'.slab = (base.setCount s ((base.slab s).count + 1)).slab := by
  cases hpart : c.partialList with
  | cons s rest =>
    obtain ⟨hs, -, hlt⟩ := (h.mem_partial s).mp (by rw [hpart]; exact List.mem_cons_self)
    obtain ⟨c', hc', hsorted, hcreated, hslab⟩ := h.countUp hmax hs hlt
    refine ⟨c', s, c, ?_, hsorted, .inl rfl, hs, hcreated, hslab⟩
    simp [Cache.allocate, Cache.findSlab, hpart, hc']
  | nil =>
    cases hempty : c.emptyList with
    | cons s rest =>
      obtain ⟨hs, hzero⟩ := (h.mem_empty s).mp (by rw [hempty]; exact List.mem_cons_self)
      obtain ⟨c', hc', hsorted, hcreated, hslab⟩ := h.countUp hmax hs (by omega)
      refine ⟨c', s, c, ?_, hsorted, .inl rfl, hs, hcreated, hslab⟩
      simp [Cache.allocate, Cache.findSlab, hpart, hempty, hc']
    | nil =>
      have hzero : ((c.addSlab max).slab c.created).count = 0 := by
        simp [Cache.addSlab, Cache.createNewSlab]
      obtain ⟨c', hc', hsorted, hcreated, hslab⟩ :=
        (h.addSlab hmax).countUp hmax (s := c.created) (Nat.lt_succ_self _) (by omega)
      refine ⟨c', c.created, c.addSlab max, ?_, hsorted, .inr rfl, Nat.lt_succ_self _, hcreated,
        hslab⟩
      -- on the list and taken off again, or never put there: the same
      have hmax' : ¬0 = max - 1 := by omega
      have hnew : c.allocate max =
          ((c.addSlab max).countUp max c.created false).map fun c' => (c', c.created) := by
        simp only [Cache.allocate, Cache.findSlab, hpart, hempty]
        simp [Cache.countUp, Cache.addSlab, Cache.createNewSlab, Cache.setCount, remove, hmax',
          hpart, hempty]
      rw [hnew, hc', Option.map_some]

end SeaKernel.SlabCache
