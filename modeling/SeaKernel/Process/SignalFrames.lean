import Mathlib.Tactic

/-!
# The frames of signal handlers

A model of `interrupt_push_frame` and `interrupt_pop_frame` of `kernel/interrupt.c`, of their
callers in `arch/x86_64/kernel/interrupt.c`, and of `sys_sigprocmask`, for one thread. The frame is
what the thread has in its registers while it is in the kernel; between two entries of the kernel
the thread does with its registers what it likes. The word that `x86_64_do_signal` writes to the
stack of the handler is left out.

`interrupt_pop_frame` reads the mask of the frame it has taken from the list before it looks whether
there was one: a return without an outstanding entry reads from address zero, and the kernel panics.

## Main results

* `exec_nested`: an entry and the matching return leave the thread as it was
* `nests_iff`: when frames nest
-/

namespace SeaKernel.SignalFrames

open Option

/-- `sigset_t` -/
abbrev Mask := BitVec 1024

/-- `sigorset`: `SST_SIZE` is one word. -/
def sigorset (left right : Mask) : Mask := left ||| (right.setWidth 64).setWidth 1024

/-- `sigdelset` -/
def sigdelset (set : Mask) (sig : ℕ) : Mask :=
  if sig = 0 ∨ 65 ≤ sig ∨ 32 ≤ sig ∧ sig < 35 then set else set &&& ~~~BitVec.twoPow 1024 (sig - 1)

/-- `sigismember` -/
def sigismember (set : Mask) (sig : ℕ) : Bool := 1 ≤ sig ∧ sig < 65 ∧ set.getLsbD (sig - 1) = true

/-- `struct sigaction`, as far as it is looked at. -/
structure Action where
  handler : UInt64
  mask : BitVec 64

/-- The handler is not `SIG_IGN`, `SIG_DFL` or `SIG_ERR`. -/
def Action.User (action : Action) : Prop :=
  action.handler ≠ 1 ∧ action.handler ≠ 0 ∧ action.handler ≠ -1

instance (action : Action) : Decidable action.User := inferInstanceAs (Decidable (_ ∧ _ ∧ _))

/-- `struct arch_exception_frame`: the registers that an entry sets, and the others. -/
structure Frame (ρ : Type*) where
  rip : UInt64
  rdi : UInt64
  userrsp : UInt64
  others : ρ

/-- A thread, with its `saved_exception_frames`, from the head. -/
structure State (ρ : Type*) where
  frame : Frame ρ
  sigmask : Mask
  saved : List (Frame ρ × Mask)

/-- The first argument of `sys_sigprocmask`; every other number is `SIG_SETMASK`. -/
inductive How where
  | block
  | unblock
  | set

/-- What happens to the thread. -/
inductive Event (ρ : Type*) where
  /-- The thread has run, and its registers are now these. -/
  | run (frame : Frame ρ)
  | sigprocmask (how : How) (set : Mask)
  /-- `x86_64_do_signal` for a signal with this action. -/
  | signal (signal : UInt64) (action : Action)
  /-- `SYS_rt_sigreturn` -/
  | sigreturn

variable {ρ : Type*}

namespace State

/-- `interrupt_push_frame` -/
def interruptPushFrame (s : State ρ) (action : Action) : State ρ where
  frame := s.frame
  sigmask := sigorset s.sigmask (action.mask.setWidth 1024)
  saved := (s.frame, s.sigmask) :: s.saved

/-- `interrupt_pop_frame`, with the frame it returns; without a frame the kernel panics. -/
def interruptPopFrame (s : State ρ) : Option (State ρ × Frame ρ) :=
  match s.saved with
  | [] => none
  | (frame, mask) :: saved => some (⟨s.frame, mask, saved⟩, frame)

/-- `x86_64_do_signal` -/
def doSignal (s : State ρ) (signal : UInt64) (action : Action) : State ρ :=
  if action.User then
    let s := s.interruptPushFrame action
    { s with frame := { s.frame with
        rip := action.handler
        rdi := signal
        userrsp := (s.frame.userrsp - 128) &&& 0xFFFFFFFFFFFFFFF0 } }
  else s

/-- `x86_64_restore_frame` -/
def restoreFrame (s : State ρ) : Option (State ρ) := do
  let (s, rest) ← s.interruptPopFrame
  return { s with frame := rest }

/-- `sys_sigprocmask` -/
def sigprocmask (s : State ρ) (how : How) (set : Mask) : State ρ :=
  { s with sigmask :=
      match how with
      | .block => sigorset s.sigmask set
      | .unblock => ((List.range 66).filter (sigismember set)).foldl sigdelset s.sigmask
      | .set => set }

/-- A step of the thread. -/
def exec (s : State ρ) : Event ρ → Option (State ρ)
  | .run frame => some { s with frame := frame }
  | .sigprocmask how set => some (s.sigprocmask how set)
  | .signal signal action => some (s.doSignal signal action)
  | .sigreturn => s.restoreFrame

end State

/-- The event enters a handler of the user. -/
def Event.Enters : Event ρ → Prop
  | .signal _ action => action.User
  | _ => False

instance (e : Event ρ) : Decidable e.Enters :=
  match e with
  | .signal _ action => inferInstanceAs (Decidable action.User)
  | .run _ | .sigprocmask _ _ | .sigreturn => inferInstanceAs (Decidable False)

/-- Every entry has its return, every return its entry, and they are nested. -/
inductive Matched : List (Event ρ) → Prop
  | nil : Matched []
  | plain {e : Event ρ} {es : List (Event ρ)} (hreturn : e ≠ .sigreturn) (henter : ¬ e.Enters)
      (h : Matched es) : Matched (e :: es)
  | nested {e : Event ρ} {body es : List (Event ρ)} (henter : e.Enters) (hbody : Matched body)
      (h : Matched es) : Matched (e :: (body ++ .sigreturn :: es))

/-- The number of entries without a return, where a return without an entry counts for nothing. -/
def outstanding (es : List (Event ρ)) : ℕ :=
  es.foldl (fun n e => match e with
    | .sigreturn => n - 1
    | e => if e.Enters then n + 1 else n) 0

/-- In a sequence of events, a return that matches an entry restores the registers and the mask that
were in force when the entry was made, and a return without an outstanding entry changes nothing. -/
def Nests (s : State ρ) (es : List (Event ρ)) : Prop :=
  (∀ before e body after, es = before ++ e :: (body ++ .sigreturn :: after) → e.Enters →
    Matched body → ∃ t u, before.foldlM State.exec s = some t ∧
      (e :: (body ++ [.sigreturn])).foldlM State.exec t = some u ∧
      u.frame = t.frame ∧ u.sigmask = t.sigmask) ∧
  ∀ before after, es = before ++ .sigreturn :: after → outstanding before = 0 →
    ∃ t, before.foldlM State.exec s = some t ∧ t.exec .sigreturn = some t

/-- Every return comes with an entry outstanding. -/
def NoneStray (es : List (Event ρ)) : Prop :=
  ∀ before after, es = before ++ .sigreturn :: after → 0 < outstanding before

section Steps

variable {s t : State ρ} {e : Event ρ} {es : List (Event ρ)}

open State

theorem exec_enter (h : e.Enters) :
    ∃ t, s.exec e = some t ∧ t.saved = (s.frame, s.sigmask) :: s.saved := by
  cases e with
  | signal signal action =>
    have huser : action.User := h
    refine ⟨_, rfl, ?_⟩
    rw [doSignal, if_pos huser]
    rfl
  | run _ | sigprocmask _ _ | sigreturn => cases h

theorem exec_plain (hreturn : e ≠ .sigreturn) (henter : ¬ e.Enters) :
    ∃ t, s.exec e = some t ∧ t.saved = s.saved := by
  cases e with
  | run _ | sigprocmask _ _ => exact ⟨_, rfl, rfl⟩
  | signal signal action => exact ⟨s, congrArg some (if_neg henter), rfl⟩
  | sigreturn => exact absurd rfl hreturn

theorem exec_sigreturn {frame : Frame ρ} {mask : Mask} {saved : List (Frame ρ × Mask)}
    (h : s.saved = (frame, mask) :: saved) : s.exec .sigreturn = some ⟨frame, mask, saved⟩ := by
  rw [exec, restoreFrame, interruptPopFrame, h]
  rfl

theorem exec_sigreturn_nil (h : s.saved = []) : s.exec .sigreturn = none := by
  rw [exec, restoreFrame, interruptPopFrame, h]
  rfl

theorem Matched.exec (h : Matched es) (s : State ρ) :
    ∃ t, es.foldlM State.exec s = some t ∧ t.saved = s.saved := by
  -- The induction is on the nesting; the list is the same again behind each return.
  induction h generalizing s with
  | nil => exact ⟨s, rfl, rfl⟩
  | plain hreturn henter _ ih =>
    obtain ⟨t, ht, hsaved⟩ := exec_plain (s := s) hreturn henter
    obtain ⟨u, hu, hsaved'⟩ := ih t
    refine ⟨u, ?_, hsaved'.trans hsaved⟩
    rw [List.foldlM_cons, ht]
    exact hu
  | nested henter _ _ ihbody ih =>
    obtain ⟨t, ht, hsaved⟩ := exec_enter (s := s) henter
    obtain ⟨u, hu, hsaved'⟩ := ihbody t
    obtain ⟨v, hv, hsaved''⟩ := ih s
    refine ⟨v, ?_, hsaved''⟩
    rw [List.foldlM_cons, ht, bind_eq_bind, bind_some, List.foldlM_append, hu,
      bind_eq_bind, bind_some, List.foldlM_cons,
      exec_sigreturn (hsaved'.trans hsaved)]
    exact hv

/-- **An entry and the matching return leave the thread as it was.** -/
theorem exec_nested (henter : e.Enters) (h : Matched es) (s : State ρ) :
    (e :: (es ++ [.sigreturn])).foldlM State.exec s = some s := by
  obtain ⟨t, ht, hsaved⟩ := exec_enter (s := s) henter
  obtain ⟨u, hu, hsaved'⟩ := h.exec t
  rw [List.foldlM_cons, ht, bind_eq_bind, bind_some, List.foldlM_append, hu,
    bind_eq_bind, bind_some, List.foldlM_cons, exec_sigreturn (hsaved'.trans hsaved)]
  rfl

theorem outstanding_append_singleton (es : List (Event ρ)) (e : Event ρ) :
    outstanding (es ++ [e]) = match e with
      | .sigreturn => outstanding es - 1
      | e => if e.Enters then outstanding es + 1 else outstanding es := by
  rw [outstanding, List.foldl_append]
  rfl

theorem length_saved (hs : s.saved = []) (hrun : es.foldlM State.exec s = some t) :
    t.saved.length = outstanding es := by
  induction es using List.reverseRecOn generalizing t with
  | nil =>
    obtain rfl := some.inj hrun
    rw [hs]
    rfl
  | append_singleton es e ih =>
    rw [List.foldlM_append] at hrun
    obtain ⟨u, hu, hlast⟩ := bind_eq_some_iff.mp hrun
    obtain ⟨t', hstep, ht⟩ := bind_eq_some_iff.mp hlast
    obtain rfl := some.inj ht
    have hlen := ih hu
    rw [outstanding_append_singleton, ← hlen]
    cases e with
    | sigreturn =>
      cases hsaved : u.saved with
      | nil =>
        rw [exec_sigreturn_nil hsaved] at hstep
        cases hstep
      | cons x saved =>
        rw [exec_sigreturn hsaved] at hstep
        rw [← some.inj hstep]
        rfl
    | run _ | sigprocmask _ _ =>
      rw [← some.inj hstep]
      exact (if_neg id).symm
    | signal signal action =>
      rw [← some.inj hstep, doSignal]
      by_cases huser : action.User
      · rw [if_pos huser]
        exact (if_pos huser).symm
      · rw [if_neg huser]
        exact (if_neg huser).symm

theorem NoneStray.exec (h : NoneStray es) (hs : s.saved = []) :
    ∃ t, es.foldlM State.exec s = some t := by
  induction es using List.reverseRecOn with
  | nil => exact ⟨s, rfl⟩
  | append_singleton es e ih =>
    obtain ⟨t, ht⟩ := ih fun before after heq => h before (after ++ [e]) (by rw [heq]; simp)
    have hlen := length_saved hs ht
    suffices hstep : ∃ u, t.exec e = some u by
      obtain ⟨u, hu⟩ := hstep
      refine ⟨u, ?_⟩
      rw [List.foldlM_append, ht, bind_eq_bind, bind_some, List.foldlM_cons, hu]
      rfl
    cases e with
    | run _ | sigprocmask _ _ | signal _ _ => exact ⟨_, rfl⟩
    | sigreturn =>
      have hpos := h es [] rfl
      cases hsaved : t.saved with
      | nil =>
        rw [hsaved] at hlen
        exact absurd hlen hpos.ne
      | cons x saved => exact ⟨_, exec_sigreturn hsaved⟩

end Steps

/-- **Frames nest exactly if no return is stray.** -/
theorem nests_iff (s : State ρ) (hs : s.saved = []) (es : List (Event ρ)) :
    Nests s es ↔ NoneStray es := by
  constructor
  · rintro ⟨-, hstray⟩ before after heq
    by_contra hzero
    obtain ⟨t, ht, hreturn⟩ := hstray before after heq (by omega)
    have hnil : t.saved = [] := by
      rw [← List.length_eq_zero_iff, length_saved hs ht]
      omega
    rw [exec_sigreturn_nil hnil] at hreturn
    cases hreturn
  · refine fun h => ⟨fun before e body after heq henter hbody => ?_,
      fun before after heq hzero => ?_⟩
    · have hbefore : NoneStray before := fun before' after' heq' =>
        h before' (after' ++ e :: (body ++ .sigreturn :: after)) (by rw [heq, heq']; simp)
      obtain ⟨t, ht⟩ := hbefore.exec hs
      exact ⟨t, t, ht, exec_nested henter hbody t, rfl, rfl⟩
    · exact absurd hzero (h before after heq).ne'

/-- A thread that is in no handler. -/
def idle : State Unit := ⟨⟨0x400000, 0, 0x7fff0000, ()⟩, 0, []⟩

/-- A handler that is interrupted by another one, after it has blocked a signal. -/
theorem nests_twice : Nests idle [.signal 10 ⟨0x401000, 0⟩, .sigprocmask .block 1,
    .signal 12 ⟨0x402000, 0⟩, .sigreturn, .sigreturn] := by
  refine (nests_iff idle rfl _).mpr fun before after heq => ?_
  rcases before with _ | ⟨e₁, _ | ⟨e₂, _ | ⟨e₃, _ | ⟨e₄, _ | ⟨e₅, before⟩⟩⟩⟩⟩ <;>
    simp only [List.nil_append, List.cons_append, List.cons.injEq, reduceCtorEq, false_and,
      and_false] at heq
  · obtain ⟨rfl, rfl, rfl, -⟩ := heq
    decide
  · obtain ⟨rfl, rfl, rfl, rfl, -⟩ := heq
    decide
  · simp at heq

theorem stray_sigreturn_panics : idle.exec .sigreturn = none ∧ ¬ Nests idle [.sigreturn] := by
  refine ⟨rfl, fun h => ?_⟩
  obtain ⟨t, ht, hreturn⟩ := h.2 [] [] rfl rfl
  obtain rfl := some.inj ht
  cases hreturn

end SeaKernel.SignalFrames
