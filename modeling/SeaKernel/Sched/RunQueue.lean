import SeaKernel.Lib.Run

/-!
# The run queues

Each processor has a queue of the threads that are ready to run. Whether a thread is on one is kept
in its flag `THREAD_ONQUEUE`: `processor_add_thread` and the scheduler insert a thread only when
they have set the flag, and the scheduler clears it when it takes the thread off.

A thread that is running may be put on the queue by a signal, and it may then exit while it is
there. The scheduler does not run it, but until some pass takes it off the queue its node stays
linked, and meanwhile the object can be freed and allocated again: `_thread_init` then clears all
its flags.

Threads and processors are those of arbitrary types. Which of the queued threads a pass takes is
left open, so that the results hold for any priorities. The idle thread of a processor is `none`.

## Main definitions

* `Thread`, `State`: a thread object; the threads and the processors
* `State.exec`: creation, wake-up, sleep, a pass of the scheduler, exit, recycling
* `State.Consistent`: no node was inserted while linked, and the flag is set for linked nodes
* `Recycles`: the step initializes an object whose node is linked

## Main results

* `consistent_iff`: which runs stay consistent
* `inserted_twice`: a signal, an exit and a creation that lead to a second insertion
-/

namespace SeaKernel.RunQueue

open Function List Option

/-! ## The model -/

/-- `enum thread_state` -/
inductive ThreadState
  | init
  | running
  | blocked
  deriving DecidableEq, Repr

/-- Whether a thread object is allocated, and whether the thread has exited. -/
inductive Life
  | free
  | alive
  | exiting
  deriving DecidableEq, Repr

structure Thread (P : Type*) where
  onqueue : Bool
  uninter : Bool
  dead : Bool
  state : ThreadState
  processor : Option P
  life : Life

/-- The threads and the processors. -/
structure State (T P : Type*) where
  thread : T → Thread P
  queue : P → List T
  /-- `proc->running` -/
  running : P → Option T
  /-- `current_thread` -/
  current : P → Option T
  /-- A node was inserted while it was linked. -/
  clashed : Bool

inductive Event (T P : Type*)
  /-- `kobj_allocate`, for a fresh or a recycled object. -/
  | threadInit (t : T)
  /-- The end of `sys_fork`, `sys_clone` or `worker_start`. -/
  | start (t : T) (p : P)
  /-- Of a signal or a timer. -/
  | threadUnblock (t : T)
  | blockpointUnblock (t : T)
  | startblock (p : P) (uninter : Bool)
  | prepareSleep (p : P)
  | cleanup (p : P)
  | wakeup (p : P)
  /-- `_check_signals`, with a signal that is pending. -/
  | checkSignals (p : P)
  /-- `__select_thread` and the switch to the thread it returns; `next` is what is popped. -/
  | schedule (p : P) (next : Option T)
  | threadExit (p : P)
  /-- `_thread_wi_delete` drops the last reference. -/
  | wiDelete (t : T)
  deriving DecidableEq, Repr

/-- No thread was ever made. -/
def initial (T P : Type*) : State T P where
  thread := fun _ => ⟨false, false, false, .init, none, .free⟩
  queue := fun _ => []
  running := fun _ => none
  current := fun _ => none
  clashed := false

variable {T P : Type*} [DecidableEq T] [DecidableEq P] [Fintype P]

namespace State

/-- The node of the thread is in some queue. -/
def Linked (σ : State T P) (t : T) : Prop := ∃ p, t ∈ σ.queue p

instance (σ : State T P) (t : T) : Decidable (σ.Linked t) :=
  inferInstanceAs (Decidable (∃ p, t ∈ σ.queue p))

def setThread (σ : State T P) (t : T) (f : Thread P → Thread P) : State T P :=
  { σ with thread := update σ.thread t (f (σ.thread t)) }

/-- `priqueue_insert` -/
def priqueueInsert (σ : State T P) (p : P) (t : T) : State T P :=
  { σ with
    queue := update σ.queue p (t :: σ.queue p)
    clashed := σ.clashed || decide (σ.Linked t) }

/-- The flag is set, and the node inserted if it was not set before. -/
def enqueue (σ : State T P) (p : P) (t : T) : State T P :=
  if (σ.thread t).onqueue then σ
  else (σ.setThread t fun th => { th with onqueue := true }).priqueueInsert p t

/-- `processor_add_thread` -/
def processorAddThread (σ : State T P) (p : P) (t : T) : State T P :=
  (σ.setThread t fun th => { th with processor := some p }).enqueue p t

/-- The thread is runnable again: the common part of `thread_unblock` and `blockpoint_unblock`. -/
def resume (σ : State T P) (t : T) : State T P :=
  match (σ.thread t).state, (σ.thread t).processor with
  | .init, _ | _, none => σ
  | _, some p => (σ.setThread t fun th => { th with state := .running }).processorAddThread p t

/-- The current thread goes to sleep. -/
def sleep (σ : State T P) (p : P) (t : T) (uninter : Bool) : State T P :=
  { σ.setThread t fun th => { th with state := .blocked, uninter := uninter } with
    running := update σ.running p none }

/-- The current thread runs. -/
def wake (σ : State T P) (p : P) (t : T) (uninter : Bool) : State T P :=
  { σ.setThread t fun th => { th with state := .running, uninter := uninter } with
    running := update σ.running p (some t) }

/-- The thread that was running goes back on the queue. -/
def requeue (σ : State T P) (p : P) : State T P :=
  match σ.running p with
  | some t => if (σ.thread t).state = .running then σ.enqueue p t else σ
  | none => σ

/-- A popped thread is not run when it sleeps without interruption, is dead, or was not started. -/
def runnable (th : Thread P) : Bool :=
  !(th.uninter && th.state != .running) && !th.dead && th.state != .init

/-- The processor runs `next`. -/
def switch (σ : State T P) (p : P) (next : Option T) : State T P :=
  { σ with
    running := update σ.running p next
    current := update σ.current p next }

/-- `priqueue_pop` takes `t`. -/
def pop (σ : State T P) (p : P) (t : T) : State T P :=
  { σ.setThread t fun th => { th with onqueue := false } with
    queue := update σ.queue p ((σ.queue p).erase t) }

/-- `__select_thread` after the old thread is back on the queue. -/
def select (σ : State T P) (p : P) : Option T → Option (State T P)
  | none => if σ.queue p = [] then some (σ.switch p none) else none
  | some t =>
    if t ∈ σ.queue p then
      some ((σ.pop p t).switch p (if runnable (σ.thread t) then some t else none))
    else none

/-- The current thread, while it has not exited. -/
def caller (σ : State T P) (p : P) : Option T :=
  (σ.current p).filter fun t => (σ.thread t).life = .alive

def exec (σ : State T P) : Event T P → Option (State T P)
  | .threadInit t =>
    if (σ.thread t).life = .free then
      some (σ.setThread t fun th =>
        { th with
          onqueue := false, uninter := false, dead := false, state := .init, life := .alive })
    else none
  | .start t p =>
    if (σ.thread t).life = .alive ∧ (σ.thread t).state = .init then
      some ((σ.setThread t fun th => { th with state := .running }).processorAddThread p t)
    else none
  | .threadUnblock t =>
    if (σ.thread t).life = .free then none
    else some (if (σ.thread t).uninter then σ else σ.resume t)
  | .blockpointUnblock t => if (σ.thread t).life = .free then none else some (σ.resume t)
  | .startblock p uninter => (σ.caller p).map fun t => σ.sleep p t uninter
  | .prepareSleep p => (σ.caller p).map fun t => σ.sleep p t (σ.thread t).uninter
  | .cleanup p => (σ.caller p).map fun t => σ.wake p t false
  | .wakeup p => (σ.caller p).map fun t => σ.wake p t (σ.thread t).uninter
  | .checkSignals p =>
    (σ.current p).map fun t =>
      if (σ.thread t).uninter then σ else σ.wake p t (σ.thread t).uninter
  | .schedule p next => (σ.requeue p).select p next
  | .threadExit p =>
    (σ.caller p).map fun t =>
      { σ.setThread t fun th =>
          { th with uninter := true, dead := true, state := .init, life := .exiting } with
        running := update σ.running p none }
  | .wiDelete t =>
    if (σ.thread t).life = .exiting ∧ ∀ p, σ.current p ≠ some t then
      some (σ.setThread t fun th => { th with life := .free })
    else none

/-- **No node was inserted while it was linked, and `THREAD_ONQUEUE` is set for the threads whose
node is linked.** -/
def Consistent (σ : State T P) : Prop :=
  σ.clashed = false ∧ ∀ t, (σ.thread t).onqueue = true ↔ σ.Linked t

end State

/-- The step initializes a thread object whose node is linked. -/
def Recycles (σ : State T P) : Event T P → Prop
  | .threadInit t => σ.Linked t
  | _ => False

instance (σ : State T P) (e : Event T P) : Decidable (Recycles σ e) := by
  cases e <;> unfold Recycles <;> infer_instance

/-! ## The queues -/

/-- A run of the queues that is consistent: a linked node is in one queue, once. -/
structure Inv (σ : State T P) : Prop where
  consistent : σ.Consistent
  nodup : ∀ p, (σ.queue p).Nodup
  one : ∀ t p q, t ∈ σ.queue p → t ∈ σ.queue q → p = q

namespace Inv

variable {σ τ : State T P} {t : T} {p : P}

omit [DecidableEq T] [DecidableEq P] [Fintype P] in
theorem initial : Inv (initial T P) where
  consistent := ⟨rfl, fun t => by simp [RunQueue.initial, State.Linked]⟩
  nodup := fun _ => nodup_nil
  one := by simp [RunQueue.initial]

variable (h : Inv σ)

include h

omit [DecidableEq T] [DecidableEq P] [Fintype P] in
theorem congr (hqueue : τ.queue = σ.queue) (hclashed : τ.clashed = σ.clashed)
    (honqueue : ∀ t, (τ.thread t).onqueue = (σ.thread t).onqueue) : Inv τ := by
  refine ⟨⟨by rw [hclashed, h.consistent.1], fun t => ?_⟩, ?_, ?_⟩
  · rw [honqueue, h.consistent.2, State.Linked, State.Linked, hqueue]
  · rw [hqueue]
    exact h.nodup
  · rw [hqueue]
    exact h.one

omit [DecidableEq P] [Fintype P] in
theorem setThread {f : Thread P → Thread P} (t : T) (hf : ∀ th, (f th).onqueue = th.onqueue) :
    Inv (σ.setThread t f) := by
  refine h.congr rfl rfl fun t' => ?_
  by_cases ht : t' = t
  · subst ht
    simp [State.setThread, hf]
  · simp [State.setThread, ht]

omit [Fintype P] in
theorem sleep (uninter : Bool) : Inv (σ.sleep p t uninter) := by
  have hthread : Inv (σ.setThread t fun th => { th with state := .blocked, uninter := uninter }) :=
    h.setThread t fun _ => rfl
  exact hthread.congr rfl rfl fun _ => rfl

omit [Fintype P] in
theorem wake (uninter : Bool) : Inv (σ.wake p t uninter) := by
  have hthread : Inv (σ.setThread t fun th => { th with state := .running, uninter := uninter }) :=
    h.setThread t fun _ => rfl
  exact hthread.congr rfl rfl fun _ => rfl

theorem enqueue (p : P) (t : T) : Inv (σ.enqueue p t) := by
  unfold State.enqueue
  split
  case isTrue => exact h
  case isFalse hflag =>
    have hnot : ¬σ.Linked t := fun hlinked => hflag ((h.consistent.2 t).mpr hlinked)
    have hqueue (q : P) (u : T) :
        u ∈ update σ.queue p (t :: σ.queue p) q ↔ u ∈ σ.queue q ∨ q = p ∧ u = t := by
      by_cases hq : q = p
      · subst hq
        simp [or_comm]
      · simp [hq]
    refine ⟨⟨?_, fun u => ?_⟩, fun q => ?_, fun u q q' hu hu' => ?_⟩
    · change (σ.clashed || decide (σ.Linked t)) = false
      rw [h.consistent.1, decide_eq_false hnot]
      rfl
    · change (update σ.thread t _ u).onqueue = true ↔ ∃ q, u ∈ update σ.queue p (t :: σ.queue p) q
      simp only [hqueue]
      by_cases hu : u = t
      · subst hu
        simp only [update_self, true_iff]
        exact ⟨p, Or.inr ⟨rfl, trivial⟩⟩
      · simp only [update_of_ne hu, hu, and_false, or_false]
        exact h.consistent.2 u
    · change (update σ.queue p (t :: σ.queue p) q).Nodup
      by_cases hq : q = p
      · subst hq
        rw [update_self]
        exact nodup_cons.mpr ⟨fun hmem => hnot ⟨q, hmem⟩, h.nodup q⟩
      · rw [update_of_ne hq]
        exact h.nodup q
    · rcases (hqueue q u).mp hu with hold | ⟨hq, hut⟩ <;>
        rcases (hqueue q' u).mp hu' with hold' | ⟨hq', hut'⟩
      · exact h.one u q q' hold hold'
      · exact absurd ⟨q, hut' ▸ hold⟩ hnot
      · exact absurd ⟨q', hut ▸ hold'⟩ hnot
      · rw [hq, hq']

theorem processorAddThread (p : P) (t : T) : Inv (σ.processorAddThread p t) := by
  apply Inv.enqueue
  exact h.setThread t fun _ => rfl

theorem resume (t : T) : Inv (σ.resume t) := by
  unfold State.resume
  split
  · exact h
  · exact h
  · apply Inv.processorAddThread
    exact h.setThread t fun _ => rfl

theorem requeue (p : P) : Inv (σ.requeue p) := by
  unfold State.requeue
  split
  · split
    · exact h.enqueue p _
    · exact h
  · exact h

omit [Fintype P] in
theorem pop (ht : t ∈ σ.queue p) : Inv (σ.pop p t) := by
  have hqueue (q : P) (u : T) :
      u ∈ update σ.queue p ((σ.queue p).erase t) q ↔ u ∈ σ.queue q ∧ u ≠ t := by
    by_cases hq : q = p
    · subst hq
      rw [update_self, (h.nodup q).mem_erase_iff, and_comm]
    · rw [update_of_ne hq]
      refine ⟨fun hu => ⟨hu, ?_⟩, And.left⟩
      rintro rfl
      exact hq (h.one u q p hu ht)
  refine ⟨⟨h.consistent.1, fun u => ?_⟩, fun q => ?_, fun u q q' hu hu' => ?_⟩
  · change (update σ.thread t _ u).onqueue = true ↔
      ∃ q, u ∈ update σ.queue p ((σ.queue p).erase t) q
    simp only [hqueue]
    by_cases hu : u = t
    · subst hu
      simp
    · simp only [update_of_ne hu, ne_eq, hu, not_false_eq_true, and_true]
      exact h.consistent.2 u
  · change (update σ.queue p ((σ.queue p).erase t) q).Nodup
    by_cases hq : q = p
    · subst hq
      rw [update_self]
      exact (h.nodup q).erase t
    · rw [update_of_ne hq]
      exact h.nodup q
  · exact h.one u q q' ((hqueue q u).mp hu).1 ((hqueue q' u).mp hu').1

omit [Fintype P] in
theorem select {next : Option T} (hselect : σ.select p next = some τ) : Inv τ := by
  cases next with
  | none =>
    simp only [State.select] at hselect
    split at hselect
    · exact some.inj hselect ▸ h.congr rfl rfl fun _ => rfl
    · cases hselect
  | some t =>
    simp only [State.select] at hselect
    split at hselect
    case isTrue ht => exact some.inj hselect ▸ (h.pop ht).congr rfl rfl fun _ => rfl
    case isFalse => cases hselect

omit [DecidableEq P] [Fintype P] in
theorem threadInit {f : Thread P → Thread P} (hf : ∀ th, (f th).onqueue = false)
    (hnot : ¬σ.Linked t) : Inv (σ.setThread t f) := by
  refine h.congr rfl rfl fun t' => ?_
  by_cases ht : t' = t
  · subst ht
    have hclear : (σ.thread t').onqueue = false := by
      simpa [hnot] using h.consistent.2 t'
    simp [State.setThread, hf, hclear]
  · simp [State.setThread, ht]

/-- **Every step keeps the queues consistent**, unless it initializes a linked object. -/
theorem exec {e : Event T P} (hexec : σ.exec e = some τ) (hfresh : ¬Recycles σ e) : Inv τ := by
  cases e with
  | threadInit t =>
    obtain ⟨-, rfl⟩ := ite_some_none_eq_some.mp hexec
    exact h.threadInit (fun _ => rfl) hfresh
  | start t p =>
    obtain ⟨-, rfl⟩ := ite_some_none_eq_some.mp hexec
    apply Inv.processorAddThread
    exact h.setThread t fun _ => rfl
  | threadUnblock t =>
    simp only [State.exec] at hexec
    split at hexec
    · cases hexec
    · obtain rfl := some.inj hexec
      split
      · exact h
      · exact h.resume t
  | blockpointUnblock t =>
    simp only [State.exec] at hexec
    split at hexec
    · cases hexec
    · exact some.inj hexec ▸ h.resume t
  | startblock p uninter | prepareSleep p =>
    obtain ⟨t, _, rfl⟩ := map_eq_some_iff.mp hexec
    exact h.sleep _
  | cleanup p | wakeup p =>
    obtain ⟨t, _, rfl⟩ := map_eq_some_iff.mp hexec
    exact h.wake _
  | checkSignals p =>
    obtain ⟨t, _, rfl⟩ := map_eq_some_iff.mp hexec
    split
    · exact h
    · exact h.wake _
  | schedule p next => exact (h.requeue p).select hexec
  | threadExit p =>
    obtain ⟨t, _, rfl⟩ := map_eq_some_iff.mp hexec
    have hthread : Inv (σ.setThread t fun th =>
        { th with uninter := true, dead := true, state := .init, life := .exiting }) :=
      h.setThread t fun _ => rfl
    exact hthread.congr rfl rfl fun _ => rfl
  | wiDelete t =>
    obtain ⟨-, rfl⟩ := ite_some_none_eq_some.mp hexec
    exact h.setThread t fun _ => rfl

end Inv

theorem not_recycles_of_consistent {σ τ : State T P} {e : Event T P} (hexec : σ.exec e = some τ)
    (hτ : τ.Consistent) : ¬Recycles σ e := by
  cases e with
  | threadInit t =>
    rintro ⟨p, hp⟩
    obtain ⟨-, rfl⟩ := ite_some_none_eq_some.mp hexec
    have hflag := (hτ.2 t).mpr ⟨p, hp⟩
    simp [State.setThread] at hflag
  | _ => exact id

/-! ## Runs -/

/-- **No node is inserted while it is linked, and the flag is set for the linked nodes, in every
state of a run, exactly when no step of the run initializes an object whose node is linked.** -/
theorem consistent_iff {run : List (Event T P × State T P)}
    (hrun : Along (fun σ e τ => σ.exec e = some τ) (initial T P) run) :
    After State.Consistent (initial T P) run ↔
      Along (fun σ e _ => ¬Recycles σ e) (initial T P) run :=
  after_iff_along (I := Inv) (fun _ _ _ h hexec hfresh => h.exec hexec hfresh)
    (fun _ h => h.consistent) (fun _ _ _ _ hexec hτ => not_recycles_of_consistent hexec hτ)
    Inv.initial hrun

/-- A thread is signalled while it runs and exits; a pass of the scheduler takes it off the queue,
and then its object is used again. -/
theorem recycled_off_queue : ∃ run,
    Along (fun σ e τ => ¬Recycles σ e ∧ σ.exec e = some τ) (initial (Fin 2) (Fin 1)) run ∧
      ((final (initial (Fin 2) (Fin 1)) run).thread 0).onqueue = true ∧
      After State.Consistent (initial (Fin 2) (Fin 1)) run := by
  obtain ⟨run, _, hrun, hfinal⟩ := exists_run State.exec (fun σ e => ¬Recycles σ e)
    (fun σ => (σ.thread 0).onqueue = true) (initial (Fin 2) (Fin 1))
    [.threadInit 0, .start 0 0, .threadInit 1, .start 1 0, .schedule 0 (some 0), .threadUnblock 0,
      .threadExit 0, .schedule 0 (some 1), .schedule 0 (some 0), .schedule 0 (some 1), .wiDelete 0,
      .threadInit 0, .start 0 0] (by decide +kernel)
  exact ⟨run, hrun, hfinal, (consistent_iff (hrun.mono fun _ _ _ h => h.2)).mpr
    (hrun.mono fun _ _ _ h => h.1)⟩

/-- **A node inserted twice**: a thread is signalled while it runs, exits, and its object is
recycled before the scheduler has taken it off the queue. -/
theorem inserted_twice : ∃ run,
    Along (fun σ e τ => σ.exec e = some τ) (initial (Fin 2) (Fin 1)) run ∧
      (final (initial (Fin 2) (Fin 1)) run).queue 0 = [0, 0] ∧
      ¬After State.Consistent (initial (Fin 2) (Fin 1)) run := by
  obtain ⟨run, _, hrun, hqueue, hclashed⟩ := exists_run State.exec (fun _ _ => True)
    (fun σ => σ.queue 0 = [0, 0] ∧ σ.clashed = true) (initial (Fin 2) (Fin 1))
    [.threadInit 0, .start 0 0, .threadInit 1, .start 1 0, .schedule 0 (some 0), .threadUnblock 0,
      .threadExit 0, .schedule 0 (some 1), .wiDelete 0, .threadInit 0, .start 0 0]
    (by decide +kernel)
  refine ⟨run, hrun.mono fun _ _ _ h => h.2, hqueue, fun h => ?_⟩
  rw [h.final.1] at hclashed
  cases hclashed

end SeaKernel.RunQueue
