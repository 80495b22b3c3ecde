import SeaKernel.Lib.Run
import SeaKernel.Lib.Threads

/-!
# The mutex

`kernel/mutex.c`: a counter and a wait list. A thread first tries to take the counter from 0 to 1;
when that fails often enough it puts a blockpoint on the wait list, adds itself to the counter and
sleeps unless the counter was 0. A release subtracts, and if others have added themselves it
unblocks the oldest blockpoint that is not yet unblocked, whether or not that thread has added
itself already.

A thread stays at one `Place` between two of its atomic steps, and `State.step` is its next step.
The threads are those of a finite type; the interleaving is the list of the threads that move. A
thread acquires only what it does not hold.

The counter alone does not tell who may enter. What does is a token, which is with a thread that
holds the mutex, with one that was let in, or with one that is about to pass it on: there is at most
one token, and there is one whenever the counter is positive.

## Main definitions

* `Place`, `State`: where a thread is; the mutex and its threads
* `State.step`: the next atomic step of a thread
* `State.Holds`, `State.Granted`, `State.Unblocked`: the threads that have, or are about to have,
  the mutex
* `Inv`: the token and the counter

## Main results

* `Inv.step`: every step keeps the invariant
* `mutex_safe`, `no_deadlock`: mutual exclusion, no lost wake-up and no deadlock
* `assertions_hold`: the assertions on the owner do not fail
-/

namespace SeaKernel.Mutex

open Function List Option

/-! ## The model -/

/-- Where a thread is. A blockpoint on the wait list carries its `BLOCK_UNBLOCKED` flag. -/
inductive Place
  | outside
  /-- In `_spinlock_first`, after `i` failed attempts. -/
  | spinning (i : ℕ)
  /-- `_spinlock_first` gave up. -/
  | starting
  /-- The blockpoint is on the wait list; before `atomic_fetch_add`. -/
  | queued (unblocked : Bool)
  /-- In `schedule`, after an addition that found the counter positive. -/
  | asleep (unblocked : Bool)
  /-- Before `blockpoint_cleanup`. -/
  | cleaning (unblocked : Bool)
  /-- The mutex is taken and the owner not yet written. -/
  | acquired
  | inside
  /-- In `mutex_release`, before `atomic_fetch_sub`. -/
  | releasing
  /-- In `mutex_release`, before `blocklist_unblock_one`. -/
  | waking
  deriving DecidableEq, Repr

namespace Place

/-- The blockpoint is on the wait list. -/
def Listed : Place → Bool
  | queued _ | asleep _ | cleaning _ => true
  | _ => false

/-- The `BLOCK_UNBLOCKED` flag. -/
def unblocked : Place → Bool
  | queued b | asleep b | cleaning b => b
  | _ => false

/-- `blockpoint_unblock`: set the flag. -/
def unblock : Place → Place
  | queued _ => queued true
  | asleep _ => asleep true
  | cleaning _ => cleaning true
  | place => place

end Place

/-- A mutex and the threads that use it. -/
structure State (T : Type*) where
  lock : ℤ
  /-- The wait list, the newest blockpoint first. -/
  wait : List T
  /-- The owner that a debug build records. -/
  owner : Option T
  place : T → Place

section

variable {T : Type*} [DecidableEq T]

/-- `mutex_create`, with all threads outside. -/
def start (T : Type*) : State T := ⟨0, [], none, fun _ => .outside⟩

namespace State

/-- Thread `t` goes on to `x`. -/
def move (σ : State T) (t : T) (x : Place) : State T :=
  { σ with place := update σ.place t x }

@[simp] theorem wait_move (σ : State T) (t : T) (x : Place) : (σ.move t x).wait = σ.wait := rfl

@[simp] theorem owner_move (σ : State T) (t : T) (x : Place) : (σ.move t x).owner = σ.owner := rfl

/-- An attempt of `_spinlock_first`; the weak exchange may fail for no reason. -/
def spinlockFirst (σ : State T) (t : T) (i : ℕ) (spurious : Bool) : State T :=
  if σ.lock = 0 ∧ spurious = false then { σ.move t .acquired with lock := 1 }
  else σ.move t (if i + 1 < 40 then .spinning (i + 1) else .starting)

/-- `blockpoint_startblock`, on a fresh blockpoint. -/
def startblock (σ : State T) (t : T) : State T :=
  { σ.move t (.queued false) with wait := t :: σ.wait }

/-- `atomic_fetch_add` of `mutex_acquire` and the choice to sleep. -/
def fetchAdd (σ : State T) (t : T) (unblocked : Bool) : State T :=
  { σ.move t (if 0 < σ.lock then .asleep unblocked else .cleaning unblocked) with
    lock := σ.lock + 1 }

/-- `blockpoint_cleanup`. -/
def cleanup (σ : State T) (t : T) : State T :=
  { σ.move t .acquired with wait := σ.wait.erase t }

/-- `atomic_fetch_sub` of `mutex_release` and the choice to wake a waiter. -/
def fetchSub (σ : State T) (t : T) : State T :=
  { σ.move t (if σ.lock ≠ 1 then .waking else .outside) with lock := σ.lock - 1 }

/-- The blockpoint `blocklist_unblock_one` finds, walking from the oldest. -/
def nextWaiter (σ : State T) : Option T :=
  σ.wait.reverse.find? fun u => !(σ.place u).unblocked

/-- `blocklist_unblock_one`, the last step of `mutex_release`. -/
def unblockOne (σ : State T) (t : T) : State T :=
  match σ.nextWaiter with
  | some u => (σ.move t .outside).move u (σ.place u).unblock
  | none => σ.move t .outside

/-- The next atomic step of thread `t`; `schedule` returns to a blocked thread only once its
blockpoint is unblocked. -/
def step (σ : State T) (t : T) (spurious : Bool) : Option (State T) :=
  match σ.place t with
  | .outside => some (σ.move t (.spinning 0))
  | .spinning i => some (σ.spinlockFirst t i spurious)
  | .starting => some (σ.startblock t)
  | .queued b => some (σ.fetchAdd t b)
  | .asleep true => some (σ.move t (.cleaning true))
  | .asleep false => none
  | .cleaning _ => some (σ.cleanup t)
  | .acquired => some { σ.move t .inside with owner := some t }
  | .inside => some { σ.move t .releasing with owner := none }
  | .releasing => some (σ.fetchSub t)
  | .waking => some (σ.unblockOne t)

/-- A step of one of the threads. -/
def Step (σ : State T) (e : T × Bool) (τ : State T) : Prop := σ.step e.1 e.2 = some τ

/-- The thread is past `mutex_acquire` and has a step of `mutex_release` to do. -/
def Holds (σ : State T) (t : T) : Prop :=
  σ.place t = .acquired ∨ σ.place t = .inside ∨ σ.place t = .releasing ∨ σ.place t = .waking

/-- The addition of the thread found the counter at 0. -/
def Granted (σ : State T) (t : T) : Prop := σ.place t = .cleaning false

/-- The thread's blockpoint is unblocked and the thread has not taken it off the list yet. -/
def Unblocked (σ : State T) (t : T) : Prop := (σ.place t).unblocked = true

/-- The assertions on the owner that thread `t` makes in its next step. -/
def Asserts (σ : State T) (t : T) : Prop :=
  match σ.place t with
  | .outside => σ.owner ≠ some t
  | .acquired => σ.owner = none
  | .inside => σ.owner = some t
  | _ => True

end State

end

/-! ## The token -/

variable {x : Place}

namespace Place

/-- The thread has the token: it holds the mutex, was let in, or has yet to pass the mutex on. -/
def token : Place → ℕ
  | queued b | asleep b => b.toNat
  | cleaning _ | acquired | inside | releasing | waking => 1
  | outside | spinning _ | starting => 0

/-- The thread has added itself to the counter. -/
def counted : Place → ℕ
  | asleep _ | cleaning _ | acquired | inside | releasing => 1
  | _ => 0

/-- The thread sleeps and needs a wake-up. -/
def waiting : Place → ℕ
  | asleep false => 1
  | _ => 0

/-- The thread has the token and is not counted. -/
def ahead : Place → ℕ
  | queued true | waking => 1
  | _ => 0

/-- What a thread at the place contributes to the sums. -/
def claim (x : Place) : ℕ × ℕ × ℕ × ℕ := (x.counted, x.token, x.waiting, x.ahead)

@[simp] theorem listed_unblock (x : Place) : x.unblock.Listed = x.Listed := by
  cases x <;> rfl

theorem ne_inside_of_listed (h : x.Listed = true) : x ≠ inside ∧ x.unblock ≠ inside := by
  cases x <;> simp [Listed, unblock] at h ⊢

theorem token_le (x : Place) : x.token ≤ x.counted + x.ahead := by
  rcases x with _ | _ | _ | (_ | _) | (_ | _) | _ | _ | _ | _ | _ <;> simp [token, counted, ahead]

theorem counted_le (x : Place) : x.counted ≤ x.token + x.waiting := by
  rcases x with _ | _ | _ | (_ | _) | (_ | _) | _ | _ | _ | _ | _ <;> simp [counted, token, waiting]

theorem waiting_le (x : Place) : x.waiting ≤ x.counted := by
  rcases x with _ | _ | _ | (_ | _) | (_ | _) | _ | _ | _ | _ | _ <;> simp [waiting, counted]

theorem ahead_le (x : Place) : x.ahead ≤ x.token := by
  rcases x with _ | _ | _ | (_ | _) | (_ | _) | _ | _ | _ | _ | _ <;> simp [ahead, token]

theorem eq_asleep_of_waiting_pos (h : 0 < x.waiting) : x = asleep false := by
  rcases x with _ | _ | _ | (_ | _) | (_ | _) | _ | _ | _ | _ | _ <;> first | rfl | cases h

end Place

section

variable {T : Type*} [DecidableEq T] [Fintype T]

open Place in
/-- **The counter and the token.** -/
structure Balanced (lock : ℤ) (place : T → Place) : Prop where
  lock_eq : lock = tally counted place
  le_one : tally token place ≤ 1
  served : 0 < lock → 0 < tally token place
  /-- Who has the token and is not counted leaves a thread behind that needs a wake-up. -/
  behind : 0 < tally ahead place → 0 < tally waiting place

/-- The invariant of the mutex. -/
structure Inv (σ : State T) : Prop where
  balanced : Balanced σ.lock σ.place
  mem_wait : ∀ t, t ∈ σ.wait ↔ (σ.place t).Listed = true
  nodup : σ.wait.Nodup
  owner_eq : ∀ t, σ.owner = some t ↔ σ.place t = .inside

open Place in
theorem tallies_move (place : T → Place) (t : T) (x : Place) :
    tally counted (update place t x) + (place t).counted = tally counted place + x.counted ∧
      tally token (update place t x) + (place t).token = tally token place + x.token ∧
      tally waiting (update place t x) + (place t).waiting = tally waiting place + x.waiting ∧
      tally ahead (update place t x) + (place t).ahead = tally ahead place + x.ahead :=
  ⟨tally_update _ _ _ _, tally_update _ _ _ _, tally_update _ _ _ _, tally_update _ _ _ _⟩

variable {y : Place} {b : Bool}

namespace Balanced

variable {lock : ℤ} {place : T → Place} {t u : T}

open Place

variable (h : Balanced lock place)

include h

theorem move_same (ht : place t = y) (hclaim : x.claim = y.claim) :
    Balanced lock (update place t x) := by
  simp only [claim, Prod.mk.injEq] at hclaim
  obtain ⟨hc, htok, hw, ha⟩ := tallies_move place t x
  rw [ht] at hc htok hw ha
  have hlock := h.lock_eq
  have hone := h.le_one
  have hserved := h.served
  have hbehind := h.behind
  constructor <;> omega

open Place in
omit [DecidableEq T] in
theorem token_le_add : tally token place ≤ lock + tally ahead place := by
  have hle : tally token place ≤ tally (fun x => x.counted + x.ahead) place := tally_mono token_le
  rw [tally_add] at hle
  have hlock := h.lock_eq
  omega

open Place in
omit [DecidableEq T] in
theorem lock_le_add : lock ≤ tally token place + tally waiting place := by
  have hle : tally counted place ≤ tally (fun x => x.token + x.waiting) place :=
    tally_mono counted_le
  rw [tally_add] at hle
  have hlock := h.lock_eq
  omega

omit h in
open Place in
omit [DecidableEq T] in
theorem token_eq_zero (h : Balanced 0 place) : tally token place = 0 := by
  have htoken := h.token_le_add
  have hbehind := h.behind
  have hwaiting : tally waiting place ≤ tally counted place := tally_mono waiting_le
  have hlock := h.lock_eq
  omega

omit h in
theorem enter (h : Balanced 0 place) (ht : place t = y) (hfrom : y.counted = 0)
    (hcounted : x.counted = 1) (htoken : x.token = 1) (hahead : x.ahead = 0) :
    Balanced 1 (update place t x) := by
  obtain ⟨hc, htok, _, ha⟩ := tallies_move place t x
  rw [ht] at hc
  have hzero := h.token_eq_zero
  have hnot := le_tally token place t
  have hlock := h.lock_eq
  have hnone : tally ahead place ≤ tally token place := tally_mono ahead_le
  constructor <;> omega

theorem wait (hpos : 0 < lock) (ht : place t = .queued b) :
    Balanced (lock + 1) (update place t (.asleep b)) := by
  obtain ⟨hc, htok, hw, ha⟩ := tallies_move place t (.asleep b)
  rw [ht] at hc htok hw ha
  have hlock := h.lock_eq
  have hone := h.le_one
  have hserved := h.served
  have hbehind := h.behind
  cases b <;> simp only [counted, token, waiting, ahead] at hc htok hw ha <;>
    constructor <;> omega

omit h in
theorem leave (h : Balanced 1 place) (ht : place t = .releasing) :
    Balanced 0 (update place t .outside) := by
  obtain ⟨hc, htok, hw, ha⟩ := tallies_move place t .outside
  rw [ht] at hc htok hw ha
  simp only [counted, token, waiting, ahead] at hc htok hw ha
  have hlock := h.lock_eq
  have hone := h.le_one
  have hbehind := h.behind
  constructor <;> omega

/-- A thread leaves others behind on the counter: as the token is with the leaving thread, all of
them need a wake-up. -/
theorem leave_behind (ht : place t = .releasing) (hmore : lock ≠ 1) :
    Balanced (lock - 1) (update place t .waking) := by
  obtain ⟨hc, htok, hw, ha⟩ := tallies_move place t .waking
  rw [ht] at hc htok hw ha
  simp only [counted, token, waiting, ahead] at hc htok hw ha
  have hlock := h.lock_eq
  have hone := h.le_one
  have hserved := h.served
  have hle := h.lock_le_add
  constructor <;> omega

theorem pass (ht : place t = .waking) (hu : (place u).Listed = true)
    (hfree : (place u).unblocked = false) :
    Balanced lock (update (update place t .outside) u (place u).unblock) := by
  have hne : u ≠ t := by
    rintro rfl
    rw [ht] at hu
    cases hu
  obtain ⟨hc, htok, hw, ha⟩ := tallies_move place t .outside
  obtain ⟨hc', htok', hw', ha'⟩ :=
    tallies_move (update place t .outside) u (place u).unblock
  rw [update_of_ne hne] at hc' htok' hw' ha'
  rw [ht] at hc htok hw ha
  have hpair := add_le_tally token place hne
  have hle : tally ahead place ≤ tally token place := tally_mono ahead_le
  have hlock := h.lock_eq
  have hone := h.le_one
  have hserved := h.served
  have hbehind := h.behind
  -- a blockpoint before the addition, in `schedule`, or of a thread that was let in: the last one
  -- has the token as well
  rcases hplace : place u with _ | _ | _ | (_ | _) | (_ | _) | (_ | _) | _ | _ | _ | _ <;>
    rw [hplace] at hu hfree hc' htok' hw' ha' hpair <;>
    simp only [Place.Listed, unblocked, Bool.false_eq_true, Bool.true_eq_false] at hu hfree <;>
    rw [ht] at hpair <;>
    simp only [unblock, counted, token, waiting, ahead,
      Bool.toNat_false, Bool.toNat_true] at hc htok hw ha hc' htok' hw' ha' hpair ⊢ <;>
    constructor <;> omega

end Balanced

/-! ## Steps -/

namespace Inv

variable {σ τ : State T} {t : T}

omit [DecidableEq T] in
theorem exists_nextWaiter (h : Inv σ) (ht : σ.place t = .waking) :
    ∃ u, σ.nextWaiter = some u ∧ (σ.place u).Listed = true ∧ (σ.place u).unblocked = false := by
  have hahead : 0 < tally Place.ahead σ.place :=
    lt_of_lt_of_le (by rw [ht]; decide) (le_tally Place.ahead σ.place t)
  obtain ⟨u, hu⟩ := exists_of_tally_pos (h.balanced.behind hahead)
  have hasleep := Place.eq_asleep_of_waiting_pos hu
  have hmem : u ∈ σ.wait := (h.mem_wait u).mpr (by rw [hasleep]; rfl)
  cases hfind : σ.nextWaiter with
  | none =>
    have hnot := find?_eq_none.mp hfind u (mem_reverse.mpr hmem)
    exact absurd (by rw [hasleep]; rfl) hnot
  | some v =>
    have hv := mem_reverse.mp (mem_of_find?_eq_some hfind)
    have hflag := find?_some hfind
    exact ⟨v, rfl, (h.mem_wait v).mp hv, by simpa using hflag⟩

variable {u : T}

theorem eq_of_token (h : Inv σ) (ht : 0 < (σ.place t).token) (hu : 0 < (σ.place u).token) : t = u :=
  (not_shared_of_tally_le_one h.balanced.le_one ht hu).1

theorem replace {lock : ℤ} {wait : List T} {owner : Option T} (h : Inv σ)
    (hbalanced : Balanced lock (update σ.place t x)) (hnodup : wait.Nodup)
    (hwait : ∀ u, u ≠ t → (u ∈ wait ↔ u ∈ σ.wait)) (hlisted : t ∈ wait ↔ x.Listed = true)
    (howner : ∀ u, u ≠ t → (owner = some u ↔ σ.owner = some u))
    (hinside : owner = some t ↔ x = .inside) : Inv ⟨lock, wait, owner, update σ.place t x⟩ := by
  refine ⟨hbalanced, fun u => ?_, hnodup, fun u => ?_⟩
  · by_cases hu : u = t
    · subst hu
      simp [hlisted]
    · simp [hu, hwait u hu, h.mem_wait]
  · by_cases hu : u = t
    · subst hu
      simp [hinside]
    · simp [hu, howner u hu, h.owner_eq]

open State

section

variable (h : Inv σ)

include h

theorem move {lock : ℤ} (ht : σ.place t = y) (hbalanced : Balanced lock (update σ.place t x))
    (hlisted : x.Listed = y.Listed) (hfrom : y ≠ .inside) (hto : x ≠ .inside) :
    Inv { σ.move t x with lock := lock } := by
  refine h.replace hbalanced h.nodup (fun _ _ => Iff.rfl) ?_ (fun _ _ => Iff.rfl) ?_
  · rw [wait_move, h.mem_wait, ht, hlisted]
  · rw [owner_move, h.owner_eq, ht]
    exact iff_of_false hfrom hto

theorem spinlockFirst {i : ℕ} (ht : σ.place t = .spinning i) (spurious : Bool) :
    Inv (σ.spinlockFirst t i spurious) := by
  unfold State.spinlockFirst
  split
  case isTrue hfree =>
    have hbalanced : Balanced 0 σ.place := hfree.1 ▸ h.balanced
    exact h.move ht (hbalanced.enter ht rfl rfl rfl rfl) rfl (by simp) (by simp)
  case isFalse =>
    split <;> exact h.move ht (h.balanced.move_same ht rfl) rfl (by simp) (by simp)

theorem startblock (ht : σ.place t = .starting) : Inv (σ.startblock t) := by
  have hnot : t ∉ σ.wait := by
    rw [h.mem_wait, ht]
    decide
  refine h.replace (h.balanced.move_same ht rfl) (nodup_cons.mpr ⟨hnot, h.nodup⟩)
    (fun u hu => by simp [hu]) (by simp [Place.Listed]) (fun _ _ => Iff.rfl) ?_
  rw [owner_move, h.owner_eq, ht]
  decide

theorem fetchAdd (ht : σ.place t = .queued b) : Inv (σ.fetchAdd t b) := by
  unfold State.fetchAdd
  split
  case isTrue hpos => exact h.move ht (h.balanced.wait hpos ht) rfl (by simp) (by simp)
  case isFalse hzero =>
    have hlock := h.balanced.lock_eq
    have hzero : σ.lock = 0 := by omega
    have hbalanced : Balanced 0 σ.place := hzero ▸ h.balanced
    rw [hzero, zero_add]
    exact h.move ht (hbalanced.enter ht rfl rfl rfl rfl) rfl (by simp) (by simp)

theorem cleanup (ht : σ.place t = .cleaning b) : Inv (σ.cleanup t) := by
  refine h.replace (h.balanced.move_same ht rfl) (h.nodup.erase t)
    (fun u hu => by rw [h.nodup.mem_erase_iff, and_iff_right hu])
    (by simp [Place.Listed, h.nodup.mem_erase_iff]) (fun _ _ => Iff.rfl) ?_
  rw [owner_move, h.owner_eq, ht]
  simp

theorem owner_ne (ht : 0 < (σ.place t).token) (hu : u ≠ t) : σ.owner ≠ some u := by
  intro howner
  have hin := (h.owner_eq u).mp howner
  exact hu (h.eq_of_token (by rw [hin]; decide) ht)

theorem setOwner (ht : σ.place t = .acquired) : Inv { σ.move t .inside with owner := some t } := by
  have htoken : 0 < (σ.place t).token := by rw [ht]; decide
  refine h.replace (h.balanced.move_same ht rfl) h.nodup (fun _ _ => Iff.rfl) ?_ (fun u hu => ?_)
    (by simp)
  · rw [wait_move, h.mem_wait, ht]
    decide
  · exact iff_of_false (fun heq => hu (some.inj heq).symm) (h.owner_ne htoken hu)

theorem clearOwner (ht : σ.place t = .inside) : Inv { σ.move t .releasing with owner := none } := by
  have htoken : 0 < (σ.place t).token := by rw [ht]; decide
  refine h.replace (h.balanced.move_same ht rfl) h.nodup (fun _ _ => Iff.rfl) ?_ (fun u hu => ?_)
    (by simp)
  · rw [wait_move, h.mem_wait, ht]
    decide
  · exact iff_of_false (by simp) (h.owner_ne htoken hu)

theorem fetchSub (ht : σ.place t = .releasing) : Inv (σ.fetchSub t) := by
  unfold State.fetchSub
  split
  case isTrue hmore =>
    exact h.move ht (h.balanced.leave_behind ht hmore) rfl (by simp) (by simp)
  case isFalse hlast =>
    have hone : σ.lock = 1 := by omega
    have hbalanced : Balanced 1 σ.place := hone ▸ h.balanced
    rw [hone, sub_self]
    exact h.move ht (hbalanced.leave ht) rfl (by simp) (by simp)

theorem unblockOne (ht : σ.place t = .waking) : Inv (σ.unblockOne t) := by
  obtain ⟨u, hu, hlisted, hfree⟩ := h.exists_nextWaiter ht
  rw [State.unblockOne, hu]
  refine ⟨h.balanced.pass ht hlisted hfree, fun v => ?_, h.nodup, fun v => ?_⟩
  · by_cases hv : v = u
    · subst hv
      simp [State.move, h.mem_wait]
    · by_cases hvt : v = t
      · subst hvt
        simp [State.move, Place.Listed, hv, h.mem_wait, ht]
      · simp [State.move, hv, hvt, h.mem_wait]
  · by_cases hv : v = u
    · subst hv
      simp [State.move, h.owner_eq, Place.ne_inside_of_listed hlisted]
    · by_cases hvt : v = t
      · subst hvt
        simp [State.move, hv, h.owner_eq, ht]
      · simp [State.move, hv, hvt, h.owner_eq]

/-- **Every step keeps the invariant.** -/
theorem step {spurious : Bool} (hstep : σ.step t spurious = some τ) : Inv τ := by
  unfold State.step at hstep
  split at hstep
  case h_1 ht =>
    obtain rfl := some.inj hstep
    exact h.move ht (h.balanced.move_same ht rfl) rfl (by simp) (by simp)
  case h_2 i ht => exact some.inj hstep ▸ h.spinlockFirst ht spurious
  case h_3 ht => exact some.inj hstep ▸ h.startblock ht
  case h_4 b ht => exact some.inj hstep ▸ h.fetchAdd ht
  case h_5 ht =>
    obtain rfl := some.inj hstep
    exact h.move ht (h.balanced.move_same ht rfl) rfl (by simp) (by simp)
  case h_6 => cases hstep
  case h_7 b ht => exact some.inj hstep ▸ h.cleanup ht
  case h_8 ht => exact some.inj hstep ▸ h.setOwner ht
  case h_9 ht => exact some.inj hstep ▸ h.clearOwner ht
  case h_10 ht => exact some.inj hstep ▸ h.fetchSub ht
  case h_11 ht => exact some.inj hstep ▸ h.unblockOne ht

end

omit [DecidableEq T] in
theorem start : Inv (start T) where
  balanced := by
    have hzero (f : Place → ℕ) (hf : f .outside = 0) : tally f (Mutex.start T).place = 0 :=
      tally_eq_zero fun _ => hf
    constructor
    · rw [hzero _ rfl]
      rfl
    · rw [hzero _ rfl]
      exact Nat.zero_le 1
    · exact fun h => absurd h (lt_irrefl 0)
    · exact fun h => absurd (hzero _ rfl) h.ne'
  mem_wait := by simp [Mutex.start, Place.Listed]
  nodup := nodup_nil
  owner_eq := by simp [Mutex.start]

/-! ## What the invariant says -/

theorem eq_of_holds (h : Inv σ) (ht : σ.Holds t) (hu : σ.Holds u) : t = u := by
  have htoken (v : T) (hv : σ.Holds v) : 0 < (σ.place v).token := by
    rcases hv with hv | hv | hv | hv <;> rw [hv] <;> decide
  exact h.eq_of_token (htoken t ht) (htoken u hu)

omit [DecidableEq T] in
theorem exists_of_lock_pos (h : Inv σ) (hpos : 0 < σ.lock) :
    ∃ t, σ.Holds t ∨ σ.Granted t ∨ σ.Unblocked t := by
  obtain ⟨t, ht⟩ := exists_of_tally_pos (h.balanced.served hpos)
  refine ⟨t, ?_⟩
  rw [State.Holds, State.Granted, State.Unblocked]
  rcases hplace : σ.place t with _ | _ | _ | (_ | _) | (_ | _) | (_ | _) | _ | _ | _ | _ <;>
    rw [hplace] at ht <;> simp [Place.token, Place.unblocked] at ht ⊢

theorem asserts (h : Inv σ) (t : T) : σ.Asserts t := by
  unfold State.Asserts
  split
  case h_1 ht => simp [h.owner_eq, ht]
  case h_2 ht =>
    refine eq_none_iff_forall_ne_some.mpr fun u howner => ?_
    have hin := (h.owner_eq u).mp howner
    obtain rfl := h.eq_of_token (by rw [hin]; decide : 0 < (σ.place u).token)
      (by rw [ht]; decide : 0 < (σ.place t).token)
    rw [hin] at ht
    cases ht
  case h_3 ht => exact (h.owner_eq t).mpr ht
  case h_4 => trivial

end Inv

/-! ## Every interleaving -/

variable {run : List ((T × Bool) × State T)}

theorem after_inv (hrun : Along State.Step (start T) run) : After Inv (start T) run :=
  hrun.after_of_step (fun _ _ _ h hstep => h.step hstep) Inv.start

/-- **Mutual exclusion and no lost wake-up**: in every state of every interleaving at most one
thread is past `mutex_acquire` and before the end of `mutex_release`, and while the counter is
positive some thread is, or was let in by its addition, or is unblocked. A release that has others
to wake finds one. -/
theorem mutex_safe (hrun : Along State.Step (start T) run) :
    After (fun σ =>
      (∀ t u, σ.Holds t → σ.Holds u → t = u) ∧
      (0 < σ.lock → ∃ t, σ.Holds t ∨ σ.Granted t ∨ σ.Unblocked t) ∧
      (∀ t, σ.place t = .waking → σ.nextWaiter.isSome)) (start T) run := by
  refine (after_inv hrun).mono fun σ h => ⟨fun t u => h.eq_of_holds, h.exists_of_lock_pos, ?_⟩
  intro t ht
  obtain ⟨u, hu, _⟩ := h.exists_nextWaiter ht
  rw [hu]
  rfl

/-- **The assertions on the owner hold** in every state of every interleaving. -/
theorem assertions_hold (hrun : Along State.Step (start T) run) :
    After (fun σ => ∀ t, σ.Asserts t) (start T) run :=
  (after_inv hrun).mono fun _ h t => h.asserts t

/-- **No deadlock**: in every state of every interleaving in which a thread is inside one of the two
functions or holds the mutex, such a thread can take a step. -/
theorem no_deadlock (hrun : Along State.Step (start T) run) :
    After (fun σ => ∀ t, σ.place t ≠ .outside →
      ∃ u, σ.place u ≠ .outside ∧ ∀ b, (σ.step u b).isSome) (start T) run := by
  refine (after_inv hrun).mono fun σ h t ht => ?_
  have hawake : ∃ u, σ.place u ≠ .outside ∧ σ.place u ≠ .asleep false := by
    by_cases hasleep : σ.place t = .asleep false
    · -- A sleeper is counted, so that the token is with another thread.
      have hcounted := le_tally Place.counted σ.place t
      rw [hasleep] at hcounted
      have hlock : 0 < σ.lock := by
        rw [h.balanced.lock_eq]
        exact_mod_cast hcounted
      obtain ⟨u, hu⟩ := exists_of_tally_pos (h.balanced.served hlock)
      refine ⟨u, ?_, ?_⟩ <;> intro hplace <;> rw [hplace] at hu <;> cases hu
    · exact ⟨t, ht, hasleep⟩
  refine hawake.imp fun u hu => ⟨hu.1, fun b => ?_⟩
  unfold State.step
  split
  case h_6 hplace => exact absurd hplace hu.2
  all_goals rfl

end

theorem mutex_handed_over : ∃ run,
    Along State.Step (start (Fin 2)) run ∧ (final (start (Fin 2)) run).place 1 = .inside ∧
    After (fun σ =>
      (∀ t u, σ.Holds t → σ.Holds u → t = u) ∧
      (0 < σ.lock → ∃ t, σ.Holds t ∨ σ.Granted t ∨ σ.Unblocked t) ∧
      (∀ t, σ.place t = .waking → σ.nextWaiter.isSome)) (start (Fin 2)) run := by
  obtain ⟨run, _, halong, hfinal⟩ := exists_run (fun σ (e : Fin 2 × Bool) => σ.step e.1 e.2)
    (fun _ _ => True) (fun σ => σ.place 1 = .inside) (start (Fin 2))
    (replicate 3 (0, false) ++ replicate 43 (1, false) ++ replicate 3 (0, false) ++
      replicate 3 (1, false)) (by decide +kernel)
  have hrun : Along State.Step (start (Fin 2)) run := halong.mono fun _ _ _ h => h.2
  exact ⟨run, hrun, hfinal, mutex_safe hrun⟩

theorem no_deadlock_asleep : ∃ σ : State (Fin 2), σ.place 1 = .asleep false ∧
    ∃ u, σ.place u ≠ .outside ∧ ∀ b, (σ.step u b).isSome := by
  obtain ⟨run, _, halong, hfinal⟩ := exists_run (fun σ (e : Fin 2 × Bool) => σ.step e.1 e.2)
    (fun _ _ => True) (fun σ => σ.place 1 = .asleep false) (start (Fin 2))
    (replicate 3 (0, false) ++ replicate 43 (1, false)) (by decide +kernel)
  have hafter := no_deadlock (halong.mono fun _ _ _ h => h.2)
  exact ⟨_, hfinal, hafter.final 1 (by simp [hfinal])⟩

theorem assertions_hold_inside : ∃ σ : State (Fin 2), σ.place 0 = .inside ∧ ∀ t, σ.Asserts t := by
  obtain ⟨run, _, halong, hfinal⟩ := exists_run (fun σ (e : Fin 2 × Bool) => σ.step e.1 e.2)
    (fun _ _ => True) (fun σ => σ.place 0 = .inside) (start (Fin 2)) (replicate 3 (0, false))
    (by decide +kernel)
  exact ⟨_, hfinal, (assertions_hold (halong.mono fun _ _ _ h => h.2)).final⟩

end SeaKernel.Mutex
