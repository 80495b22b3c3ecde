import SeaKernel.Lib.Run
import SeaKernel.Lib.Table
import SeaKernel.Lib.Threads

/-!
# The LRU object cache

A model of `kobj_lru_get`, `kobj_lru_lookup_cached`, `kobj_lru_put` and `kobj_lru_reclaim` of
`kernel/kobj_lru.c`, with `kobj_lru_mark_ready` and `kobj_lru_mark_error`, for any number of
threads.

The steps are the sections under the lock of the cache, and the single calls of `__kobj_putref` and
`blocklist_unblock_all` that are made without it. `__kobj_putref` is made without the lock only on
objects that are in no table and on no list any more, so it does not matter that it may happen
during a section of another thread.

The identifiers are compared by value; `header->id` is not read before `kobj_lru_mark_ready` has set
it. The slab allocator hands out an object that is not allocated, which is an argument of the step.
The initialiser and the callbacks `release` and `drop` do nothing to the cache but what calls of the
functions above do. `clock` and `lastPut` are not in the code: they record when an object was put
last.

## Main definitions

* `Header`, `Pc`, `State`: the objects, the threads and the cache
* `State.exec`: the steps
-/

namespace SeaKernel.Lru

open Function

/-- `struct kobj_header`, as far as the cache looks at it. -/
structure Header (ι : Type*) where
  /-- `_koh_refs` -/
  refs : ℕ
  /-- `KOBJ_LRU` -/
  lru : Bool
  /-- `KOBJ_LRU_INIT` -/
  init : Bool
  /-- `KOBJ_LRU_ERR` -/
  err : Bool
  /-- `KOBJ_LRU_DESTROY` -/
  destroy : Bool
  id : Option ι
  deriving DecidableEq

/-- A call that looks for an object. -/
inductive Call (ι : Type*) where
  /-- `kobj_lru_get`, with `already_tried_to_reclaim` -/
  | get (id : ι) (tried : Bool)
  /-- `kobj_lru_lookup_cached` -/
  | lookup (id : ι)
  deriving DecidableEq

/-- What the call looks for. -/
def Call.id {ι : Type*} : Call ι → ι
  | get id _ => id
  | lookup id => id

/-- Where a thread is. -/
inductive Pc (ι O : Type*) where
  | idle
  /-- At `try_again`, before the lock. -/
  | seek (call : Call ι)
  /-- In `schedule`, blocked on the object, with the `ref` that it found. -/
  | waiting (call : Call ι) (o : O) (ref : ℕ) (unblocked : Bool)
  /-- Before so many calls of `__kobj_putref` without the lock, and then back to `try_again`, or out
  with `NULL`. -/
  | dropping (o : O) (n : ℕ) (next : Option (Call ι))
  /-- In the initialiser of a new object. -/
  | init (id : ι) (o : O)
  /-- In `kobj_lru_mark_ready`, before `blocklist_unblock_all`. -/
  | readied (o : O)
  /-- In `kobj_lru_mark_error`, before `blocklist_unblock_all`. -/
  | failed (o : O)
  /-- Before the lock in `kobj_lru_reclaim`, called from outside or by `kobj_lru_get`. -/
  | reclaim (next : Option (Call ι))
  /-- In the `release` callback, without the lock. -/
  | releasing (o : O) (next : Option (Call ι))
  /-- Before the last `__kobj_putref` of `kobj_lru_reclaim`. -/
  | disposing (o : O) (next : Option (Call ι))
  deriving DecidableEq

/-- A thread, with the number of references to each object that it was given and has not put. -/
structure Local (ι O : Type*) where
  pc : Pc ι O
  held : O → ℕ

/-- The cache, the objects and the threads. -/
structure State (T ι O : Type*) where
  max : ℕ
  /-- The headers of the objects that are allocated. -/
  obj : O → Option (Header ι)
  hash : List (ι × O)
  /-- The lists, from the head. -/
  active : List O
  lru : List O
  loc : T → Local ι O
  clock : ℕ
  /-- When the object was put last. -/
  lastPut : O → ℕ

/-- The ways to stop the kernel. -/
inductive Panic where
  | assertion
  /-- `"failed to wait for init state"` -/
  | initState
  /-- `"failed to move object off of LRU: LRU has no entries"` -/
  | lruEmpty
  /-- `"failed to move object onto LRU: active has no entries"` -/
  | activeEmpty
  /-- `"double free"` -/
  | doubleFree
  deriving DecidableEq

/-- The steps. -/
inductive Event (T ι O : Type*) where
  /-- A call of `kobj_lru_get`. -/
  | get (t : T) (id : ι)
  /-- A call of `kobj_lru_lookup_cached`. -/
  | lookup (t : T) (id : ι)
  /-- A call of `kobj_lru_reclaim`. -/
  | reclaim (t : T)
  /-- From `try_again` to the release of the lock; the object is what `kobj_allocate` returns. -/
  | seek (t : T) (new : O)
  /-- From `schedule` to the release of the lock. -/
  | wake (t : T)
  /-- The section of `kobj_lru_mark_ready`. -/
  | markReady (t : T)
  /-- The section of `kobj_lru_mark_error`. -/
  | markError (t : T)
  /-- `blocklist_unblock_all` -/
  | unblock (t : T)
  /-- `__kobj_putref` without the lock -/
  | drop (t : T)
  /-- `kobj_lru_put` -/
  | put (t : T) (o : O)
  /-- The first section of `kobj_lru_reclaim`. -/
  | take (t : T)
  /-- The second section of `kobj_lru_reclaim`. -/
  | delete (t : T)

variable {T ι O : Type*} [DecidableEq T] [DecidableEq ι] [DecidableEq O]

/-- Where a thread goes on after `kobj_lru_reclaim`, or after it dropped a reference. -/
def resume (next : Option (Call ι)) : Pc ι O :=
  match next with
  | none => .idle
  | some call => .seek call

/-- The thread is given the object. -/
def Local.hold (l : Local ι O) (o : O) : Local ι O :=
  ⟨.idle, update l.held o (l.held o + 1)⟩

/-- The thread has put the object. -/
def Local.release (l : Local ι O) (o : O) : Local ι O :=
  ⟨.idle, update l.held o (l.held o - 1)⟩

namespace State

/-- The thread moves on to the given place. -/
def goto (σ : State T ι O) (t : T) (pc : Pc ι O) : State T ι O :=
  { σ with loc := update σ.loc t ⟨pc, (σ.loc t).held⟩ }

/-- The call returns the object. -/
def hold (σ : State T ι O) (t : T) (o : O) : State T ι O :=
  { σ with loc := update σ.loc t ((σ.loc t).hold o) }

/-- The header of an allocated object is replaced. -/
def setHeader (σ : State T ι O) (o : O) (h : Header ι) : State T ι O :=
  { σ with obj := update σ.obj o (some h) }

/-- `__kobj_putref`, with what it returns: the object is freed with the last reference. -/
def putref (σ : State T ι O) (o : O) : Except Panic (State T ι O × ℕ) :=
  match σ.obj o with
  | none => .error .assertion
  | some h =>
    if h.refs = 0 then .error .assertion
    else if h.refs = 1 then .ok ({ σ with obj := update σ.obj o none }, 0)
    else .ok (σ.setHeader o { h with refs := h.refs - 1 }, h.refs - 1)

/-- The end of `kobj_lru_get` and `kobj_lru_lookup_cached` for an object from the table, with the
count that was found there. -/
def found (σ : State T ι O) (t : T) (call : Call ι) (o : O) (ref : ℕ) :
    Except Panic (State T ι O) :=
  match σ.obj o with
  | none => .error .assertion
  | some h =>
    if h.lru = false then .ok (σ.goto t (.dropping o 1 (some call)))
    else if h.init = false then .error .initState
    else if h.destroy = true then .ok (σ.goto t (.dropping o 1 (some call)))
    else if h.err = true then .ok (σ.goto t (.dropping o 1 none))
    else if h.refs ≤ 2 then .error .assertion
    else if ref = 2 then
      if σ.lru.length = 0 then .error .lruEmpty
      else if o ∈ σ.lru then
        .ok ({ σ with lru := σ.lru.erase o, active := o :: σ.active }.hold t o)
      else .error .assertion
    else .ok (σ.hold t o)

/-- `kobj_lru_get` makes a new object: one reference is its own, the others are those of the active
list and of the table. -/
def create (σ : State T ι O) (t : T) (id : ι) (new : O) : State T ι O :=
  { σ.setHeader new ⟨3, true, false, false, false, none⟩ with
    active := new :: σ.active
    hash := tableInsert σ.hash id new }.goto t (.init id new)

/-- One round of `kobj_lru_get` or `kobj_lru_lookup_cached`. -/
def seek (σ : State T ι O) (t : T) (call : Call ι) (new : O) : Except Panic (State T ι O) :=
  match σ.hash.lookup call.id with
  | some o =>
    match σ.obj o with
    | none => .error .assertion
    | some h =>
      if h.lru = false then .error .assertion
      else if h.destroy = true then .ok (σ.goto t (.seek call))
      else if h.init = false then
        .ok ((σ.setHeader o { h with refs := h.refs + 1 }).goto t (.waiting call o h.refs false))
      else (σ.setHeader o { h with refs := h.refs + 1 }).found t call o h.refs
  | none =>
    match call with
    | .lookup _ => .ok (σ.goto t .idle)
    | .get id tried =>
      if σ.hash.length ≥ σ.max ∧ σ.max > 0 ∧ tried = false then
        .ok (σ.goto t (.reclaim (some (.get id true))))
      else .ok (σ.create t id new)

/-- The section of `kobj_lru_mark_ready`. -/
def markReady (σ : State T ι O) (t : T) (id : ι) (o : O) : Except Panic (State T ι O) :=
  match σ.obj o with
  | none => .error .assertion
  | some h =>
    .ok ({ σ.setHeader o { h with id := some id, init := true } with
      hash := tableInsert (tableDelete σ.hash id) id o }.goto t (.readied o))

/-- The section of `kobj_lru_mark_error`. -/
def markError (σ : State T ι O) (t : T) (id : ι) (o : O) : Except Panic (State T ι O) :=
  match σ.obj o with
  | none => .error .assertion
  | some h =>
    if o ∈ σ.active then
      .ok ({ σ.setHeader o { h with id := some id, err := true, init := true } with
        hash := tableDelete σ.hash id
        active := σ.active.erase o }.goto t (.failed o))
    else .error .assertion

/-- A thread that is blocked on the object is unblocked. -/
def wakeUp (o : O) (l : Local ι O) : Local ι O :=
  match l.pc with
  | .waiting call o' ref unblocked => ⟨.waiting call o' ref (unblocked || decide (o' = o)), l.held⟩
  | _ => l

/-- `blocklist_unblock_all` -/
def unblockAll (σ : State T ι O) (o : O) : State T ι O :=
  { σ with loc := fun t => wakeUp o (σ.loc t) }

/-- `kobj_lru_put` -/
def put (σ : State T ι O) (t : T) (o : O) : Except Panic (State T ι O) := do
  match σ.obj o with
  | none => .error .assertion
  | some h =>
    if h.destroy = true then .error .assertion
    else
      let (σ, ref) ← σ.putref o
      let σ := { σ with
        clock := σ.clock + 1
        lastPut := update σ.lastPut o σ.clock
        loc := update σ.loc t ((σ.loc t).release o) }
      if h.refs - 1 < 2 ∨ ref < 2 then .error .doubleFree
      else if ref = 2 ∧ h.lru = true then
        if σ.active.length = 0 then .error .activeEmpty
        else if o ∈ σ.active then .ok { σ with active := σ.active.erase o, lru := o :: σ.lru }
        else .error .assertion
      else .ok σ

/-- The first section of `kobj_lru_reclaim`. -/
def take (σ : State T ι O) (t : T) (next : Option (Call ι)) : Except Panic (State T ι O) :=
  match σ.lru.getLast? with
  | none => .ok (σ.goto t (resume next))
  | some o =>
    match σ.obj o with
    | none => .error .assertion
    | some h =>
      if h.refs = 2 then do
        let (σ, _) ←
          ({ σ with lru := σ.lru.dropLast }.setHeader o { h with destroy := true }).putref o
        .ok (σ.goto t (.releasing o next))
      else .error .assertion

/-- The second section of `kobj_lru_reclaim`. -/
def delete (σ : State T ι O) (t : T) (o : O) (next : Option (Call ι)) :
    Except Panic (State T ι O) :=
  match σ.obj o with
  | none => .error .assertion
  | some h =>
    match h.id with
    | none => .error .assertion
    | some id =>
      if (σ.hash.lookup id).isSome then
        .ok ({ σ.setHeader o { h with destroy := false } with
          hash := tableDelete σ.hash id }.goto t (.disposing o next))
      else .error .assertion

/-- A step, for a thread that is where the step starts. -/
def exec (σ : State T ι O) : Event T ι O → Except Panic (State T ι O)
  | .get t id => .ok (σ.goto t (.seek (.get id false)))
  | .lookup t id => .ok (σ.goto t (.seek (.lookup id)))
  | .reclaim t => .ok (σ.goto t (.reclaim none))
  | .seek t new =>
    match (σ.loc t).pc with
    | .seek call => σ.seek t call new
    | _ => .ok σ
  | .wake t =>
    match (σ.loc t).pc with
    | .waiting call o ref _ => σ.found t call o ref
    | _ => .ok σ
  | .markReady t =>
    match (σ.loc t).pc with
    | .init id o => σ.markReady t id o
    | _ => .ok σ
  | .markError t =>
    match (σ.loc t).pc with
    | .init id o => σ.markError t id o
    | _ => .ok σ
  | .unblock t =>
    match (σ.loc t).pc with
    | .readied o => .ok ((σ.unblockAll o).hold t o)
    | .failed o => .ok ((σ.unblockAll o).goto t (.dropping o 3 none))
    | _ => .ok σ
  | .drop t =>
    match (σ.loc t).pc with
    | .dropping o n next => do
      let (σ, _) ← σ.putref o
      .ok (σ.goto t (if n = 1 then resume next else .dropping o (n - 1) next))
    | .disposing o next => do
      let (σ, _) ← σ.putref o
      .ok (σ.goto t (resume next))
    | _ => .ok σ
  | .put t o => σ.put t o
  | .take t =>
    match (σ.loc t).pc with
    | .reclaim next => σ.take t next
    | _ => .ok σ
  | .delete t =>
    match (σ.loc t).pc with
    | .releasing o next => σ.delete t o next
    | _ => .ok σ

end State

/-- The thread is where the step starts. A blocked thread goes on only after it was unblocked, a
thread puts only what it holds, and the object of `kobj_allocate` is not allocated. -/
def Event.Ready (σ : State T ι O) : Event T ι O → Prop
  | .get t _ => (σ.loc t).pc = .idle
  | .lookup t _ => (σ.loc t).pc = .idle
  | .reclaim t => (σ.loc t).pc = .idle
  | .seek t new => ∃ call, (σ.loc t).pc = .seek call ∧
    (σ.hash.lookup call.id = none → σ.obj new = none)
  | .wake t => ∃ call o ref, (σ.loc t).pc = .waiting call o ref true
  | .markReady t => ∃ id o, (σ.loc t).pc = .init id o
  | .markError t => ∃ id o, (σ.loc t).pc = .init id o
  | .unblock t => ∃ o, (σ.loc t).pc = .readied o ∨ (σ.loc t).pc = .failed o
  | .drop t => (∃ o n next, (σ.loc t).pc = .dropping o n next) ∨
    ∃ o next, (σ.loc t).pc = .disposing o next
  | .put t o => (σ.loc t).pc = .idle ∧ 0 < (σ.loc t).held o
  | .take t => ∃ next, (σ.loc t).pc = .reclaim next
  | .delete t => ∃ o next, (σ.loc t).pc = .releasing o next

instance (σ : State T ι O) (e : Event T ι O) : Decidable (e.Ready σ) :=
  match e with
  | .get t _ => inferInstanceAs (Decidable ((σ.loc t).pc = .idle))
  | .lookup t _ => inferInstanceAs (Decidable ((σ.loc t).pc = .idle))
  | .reclaim t => inferInstanceAs (Decidable ((σ.loc t).pc = .idle))
  | .seek t new => decidable_of_iff
      ((match (σ.loc t).pc with
        | .seek call => (σ.hash.lookup call.id).isSome || (σ.obj new).isNone
        | _ => false) = true) (by
      rw [Event.Ready]
      cases (σ.loc t).pc <;> simp [Option.isSome_iff_ne_none, imp_iff_not_or])
  | .wake t => decidable_of_iff
      ((match (σ.loc t).pc with
        | .waiting _ _ _ unblocked => unblocked
        | _ => false) = true) (by
      rw [Event.Ready]
      cases (σ.loc t).pc <;> simp)
  | .markReady t => decidable_of_iff
      ((match (σ.loc t).pc with
        | .init _ _ => true
        | _ => false) = true) (by
      rw [Event.Ready]
      cases (σ.loc t).pc <;> simp)
  | .markError t => decidable_of_iff
      ((match (σ.loc t).pc with
        | .init _ _ => true
        | _ => false) = true) (by
      rw [Event.Ready]
      cases (σ.loc t).pc <;> simp)
  | .unblock t => decidable_of_iff
      ((match (σ.loc t).pc with
        | .readied _ => true
        | .failed _ => true
        | _ => false) = true) (by
      rw [Event.Ready]
      cases (σ.loc t).pc <;> simp)
  | .drop t => decidable_of_iff
      ((match (σ.loc t).pc with
        | .dropping _ _ _ => true
        | .disposing _ _ => true
        | _ => false) = true) (by
      rw [Event.Ready]
      cases (σ.loc t).pc <;> simp)
  | .put t o => inferInstanceAs (Decidable ((σ.loc t).pc = .idle ∧ 0 < (σ.loc t).held o))
  | .take t => decidable_of_iff
      ((match (σ.loc t).pc with
        | .reclaim _ => true
        | _ => false) = true) (by
      rw [Event.Ready]
      cases (σ.loc t).pc <;> simp)
  | .delete t => decidable_of_iff
      ((match (σ.loc t).pc with
        | .releasing _ _ => true
        | _ => false) = true) (by
      rw [Event.Ready]
      cases (σ.loc t).pc <;> simp)

/-- A step of a thread that is where the step starts. -/
def Step (σ : State T ι O) (e : Event T ι O) (τ : State T ι O) : Prop :=
  e.Ready σ ∧ σ.exec e = .ok τ

/-- An empty cache. -/
def State.initial (max : ℕ) : State T ι O where
  max := max
  obj _ := none
  hash := []
  active := []
  lru := []
  loc _ := ⟨.idle, fun _ => 0⟩
  clock := 0
  lastPut _ := 0

end SeaKernel.Lru
