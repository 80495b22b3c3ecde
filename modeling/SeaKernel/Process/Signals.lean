import SeaKernel.Lib.Run

/-!
# Signals of a thread

A signal that is sent to a thread is put into the set of its pending signals. A pass of the
scheduler takes the first of them and makes it the current signal of the thread, and on its way back
to user mode the thread acts on that: it takes the default action, or a frame for the handler is
pushed.

On this way a signal is forgotten where another one takes its place. The scheduler does not look
whether there is a current signal already, and `SIGKILL` does not either; a signal that is masked
when it is sent is not recorded at all, and the signals from 32 to 34 never are. `SIGSTOP` is
recorded as `SIGKILL`.

The calls of other threads and the passes of the scheduler may come at any point of the way back,
which reads the current signal before it clears it, and for a handler reads it twice.

## Main definitions

* `Thread`, `Event`: the signals of a thread, and what can happen to them
* `Ledger`: a thread with the signals that it has yet to act on
* `Ledger.Recorded`: none of them is forgotten
* `Ledger.Careful`: a step that does not replace a signal

## Main results

* `Ledger.Inv.exec`: careful steps keep all signals
* `signals_kept`: runs of careful steps
-/

namespace SeaKernel.Signals

open Option Finset

/-! ## Sets of signals -/

/-- `SIGKILL` -/
def sigkill : ℕ := 9

/-- `SIGSTOP` -/
def sigstop : ℕ := 19

/-- The numbers from 1 up to `_NSIG`. -/
def IsSignal (signal : ℕ) : Prop := 1 ≤ signal ∧ signal < 65

/-- The numbers that `sigaddset` and `sigdelset` leave alone. -/
def Reserved (signal : ℕ) : Prop := ¬ IsSignal signal ∨ 32 ≤ signal ∧ signal < 35

instance decidableIsSignal (signal : ℕ) : Decidable (IsSignal signal) := by
  unfold IsSignal
  infer_instance

instance decidableReserved (signal : ℕ) : Decidable (Reserved signal) := by
  unfold Reserved
  infer_instance

/-- `sigaddset` -/
def sigaddset (set : Finset ℕ) (signal : ℕ) : Finset ℕ :=
  if Reserved signal then set else insert signal set

/-- `sigdelset` -/
def sigdelset (set : Finset ℕ) (signal : ℕ) : Finset ℕ :=
  if Reserved signal then set else set.erase signal

/-- `sigismember` -/
def sigismember (set : Finset ℕ) (signal : ℕ) : Bool := IsSignal signal ∧ signal ∈ set

/-! ## Actions -/

/-- The handler of a signal: one of the three constants, or a function of the process. -/
inductive Handler where
  | err
  | dfl
  | ign
  | user
  deriving DecidableEq

/-- `struct sigaction`, with the signals that are masked while the handler runs. -/
structure Action where
  handler : Handler
  mask : Finset ℕ
  deriving DecidableEq

/-- What the default action of a signal does to its thread. -/
inductive Default where
  | exit (core : Bool)
  | cont
  | stop
  | none
  deriving DecidableEq

/-- The `switch` over the default actions. -/
def defaultAction (signal : ℕ) : Default :=
  if signal ∈ [11, 3, 8, 6, 4] then .exit true
  else if signal ∈ [14, 7, 1, 2, 9, 13, 15, 10, 12, 29, 27, 31, 5] then .exit false
  else if signal = 18 then .cont
  else if signal ∈ [19, 20, 21, 22] then .stop
  else .none

/-! ## Threads -/

/-- Where a thread is on its way back to user mode. -/
inductive Pc where
  | outside
  /-- In `thread_check_status_retuser`, which has something to look at. -/
  | checking
  /-- It has read the current signal. -/
  | got (signal : ℕ)
  /-- It has returned true. -/
  | handling
  /-- `x86_64_do_signal` has read the current signal. -/
  | signalled (signal : ℕ)
  deriving DecidableEq

/-- The fields of `struct thread` that have to do with signals. -/
structure Thread where
  pendingSignals : Finset ℕ
  signal : ℕ
  sigmask : Finset ℕ
  /-- `THREAD_RESCHEDULE` -/
  reschedule : Bool
  /-- `THREAD_EXIT` -/
  exit : Bool
  pc : Pc
  deriving DecidableEq

/-- What can happen to the signals of a thread. -/
inductive Event where
  | send (signal : ℕ)
  | checkSignals
  /-- The scheduler clears `THREAD_RESCHEDULE`. -/
  | scheduled
  | setMask (set : Finset ℕ)
  | enter
  | read
  | act
  | readSignal
  | doSignal
  deriving DecidableEq

namespace Thread

/-- `_thread_init`, which leaves the current signal as it is. -/
def init (signal : ℕ) : Thread := ⟨∅, signal, ∅, false, false, .outside⟩

/-- `thread_send_signal` -/
def sendSignal (t : Thread) (signal : ℕ) : Thread :=
  if signal = sigkill ∨ signal = sigstop then { t with signal := sigkill, reschedule := true }
  else if sigismember t.sigmask signal then { t with reschedule := true }
  else { t with pendingSignals := sigaddset t.pendingSignals signal, reschedule := true }

/-- `_check_signals` -/
def checkSignals (t : Thread) : Thread :=
  match (List.range' 1 64).find? (sigismember t.pendingSignals) with
  | none => t
  | some i => { t with pendingSignals := sigdelset t.pendingSignals i, signal := i }

variable (actions : ℕ → Action)

/-- The rest of `thread_check_status_retuser`, after the current signal has been read. -/
def checkStatus (t : Thread) (signal : ℕ) : Thread :=
  if signal = 0 then { t with pc := .outside }
  else if signal ≠ sigkill ∧ signal ≠ sigstop ∧ (actions signal).handler = .user then
    { t with pc := .handling }
  else if signal = sigkill ∨ signal = sigstop ∨ (actions signal).handler = .dfl then
    { t with
      signal := 0
      exit := t.exit || (defaultAction signal matches .exit _)
      pc := .outside }
  else if (actions signal).handler = .ign then { t with signal := 0, pc := .outside }
  else { t with pc := .outside }

/-- The rest of `x86_64_do_signal`, after the current signal has been read. `interrupt_push_frame`
adds to the mask. -/
def doSignal (t : Thread) (signal : ℕ) : Thread :=
  if signal = 0 then { t with pc := .outside }
  else if (actions signal).handler = .user then
    { t with signal := 0, sigmask := t.sigmask ∪ (actions signal).mask, pc := .outside }
  else { t with signal := 0, pc := .outside }

/-- One step. -/
def exec (t : Thread) : Event → Option Thread
  | .send signal => some (t.sendSignal signal)
  | .checkSignals => some t.checkSignals
  | .scheduled => some { t with reschedule := false }
  | .setMask set => some { t with sigmask := set }
  | .enter =>
    if t.pc = .outside then
      some { t with pc := if t.reschedule ∨ t.signal ≠ 0 then .checking else .outside }
    else none
  | .read => if t.pc = .checking then some { t with pc := .got t.signal } else none
  | .act =>
    match t.pc with
    | .got signal => some (t.checkStatus actions signal)
    | _ => none
  | .readSignal => if t.pc = .handling then some { t with pc := .signalled t.signal } else none
  | .doSignal =>
    match t.pc with
    | .signalled signal => some (t.doSignal actions signal)
    | _ => none

/-- The signals that are masked when the frame is pushed. -/
def frameMask (t : Thread) : Finset ℕ :=
  match t.pc with
  | .signalled signal => (actions signal).mask
  | _ => ∅

/-- The signal that a step acts on: its default action is taken, or a frame for its handler is
pushed. -/
def acted (t : Thread) : Event → Option ℕ
  | .act =>
    match t.pc with
    | .got signal =>
      if signal = sigkill ∨ signal = sigstop ∨ signal ≠ 0 ∧ (actions signal).handler = .dfl then
        some signal
      else none
    | _ => none
  | .doSignal =>
    match t.pc with
    | .signalled signal =>
      if signal ≠ 0 ∧ (actions signal).handler = .user then some signal else none
    | _ => none
  | _ => none

end Thread

/-! ## Signals that are owed -/

/-- The action of the signal is to ignore it. -/
def Ignored (actions : ℕ → Action) (signal : ℕ) : Prop :=
  signal ≠ sigkill ∧ signal ≠ sigstop ∧ (actions signal).handler = .ign

instance decidableIgnored (actions : ℕ → Action) (signal : ℕ) :
    Decidable (Ignored actions signal) := by
  unfold Ignored
  infer_instance

/-- A thread, and the signals that have been sent to it and that it has not acted on. -/
structure Ledger where
  thread : Thread
  owed : Finset ℕ
  deriving DecidableEq

namespace Ledger

variable (actions : ℕ → Action)

/-- What an event sends, unless that is ignored. -/
def sent : Event → Finset ℕ
  | .send signal => if IsSignal signal ∧ ¬ Ignored actions signal then {signal} else ∅
  | _ => ∅

/-- One step of the thread, and what is owed after it. -/
def exec (l : Ledger) (e : Event) : Option Ledger :=
  (l.thread.exec actions e).map fun t =>
    ⟨t, (l.owed ∪ sent actions e) \ (l.thread.acted actions e).toFinset⟩

/-- **No signal is forgotten.** -/
def Recorded (l : Ledger) : Prop :=
  ∀ signal ∈ l.owed, signal ∈ l.thread.pendingSignals ∨ l.thread.signal = signal

/-- **Signals that are masked stay**, except for `SIGKILL`. -/
def KeepsMasked (l : Ledger) (_ : Event) (l' : Ledger) : Prop :=
  ∀ signal ∈ l.owed, signal ∈ l.thread.sigmask → signal ≠ sigkill → signal ∈ l'.owed

/-- **A step that does not replace a signal.** A signal is sent when it is not masked, and it is not
`SIGSTOP` or one of those that cannot be recorded; it is killed, and scheduled, when it has no
current signal; and no signal is masked when it is recorded. -/
def Careful (l : Ledger) : Event → Prop
  | .send signal =>
    (¬ Reserved signal ∧ signal ≠ sigstop ∧
      (signal = sigkill → l.thread.signal = 0 ∨ l.thread.signal = sigkill) ∧
      (signal ≠ sigkill → signal ∈ l.thread.sigmask → Ignored actions signal))
  | .checkSignals => l.thread.pendingSignals = ∅ ∨ l.thread.signal = 0
  | .setMask set => ∀ signal ∈ set, signal ≠ sigkill →
      signal ∉ l.thread.pendingSignals ∧ signal ≠ l.thread.signal
  | .doSignal => ∀ signal ∈ l.thread.frameMask actions, signal ∉ l.thread.pendingSignals
  | _ => True

instance decidableCareful (l : Ledger) (e : Event) : Decidable (l.Careful actions e) := by
  cases e <;> unfold Careful <;> infer_instance

/-- What holds between careful steps: besides that no signal is forgotten, the signal that the
thread has read on its way back is still the current one. -/
structure Inv (l : Ledger) : Prop where
  recorded : l.Recorded
  owed : ∀ signal ∈ l.owed, IsSignal signal ∧ ¬ Ignored actions signal
  unmasked : ∀ signal, signal ∈ l.thread.pendingSignals ∨ l.thread.signal = signal →
    signal ≠ 0 → signal ≠ sigkill → signal ∉ l.thread.sigmask
  got : ∀ signal, l.thread.pc = .got signal → signal = 0 ∨ l.thread.signal = signal
  handling : l.thread.pc = .handling → l.thread.signal ≠ 0 ∧ l.thread.signal ≠ sigkill ∧
    (actions l.thread.signal).handler = .user
  signalled : ∀ signal, l.thread.pc = .signalled signal → l.thread.signal = signal ∧ signal ≠ 0 ∧
    signal ≠ sigkill ∧ (actions signal).handler = .user

end Ledger

/-! ## Steps -/

section Steps

variable {actions : ℕ → Action} {l l' : Ledger} {t : Thread} {signal : ℕ} {e : Event}
  {set : Finset ℕ}

theorem mem_sigaddset (h : ¬ Reserved signal) {other : ℕ} :
    other ∈ sigaddset set signal ↔ other = signal ∨ other ∈ set := by
  rw [sigaddset, if_neg h, mem_insert]

open Thread

theorem checkSignals_cases (t : Thread) : t.checkSignals = t ∨ ∃ i ∈ t.pendingSignals, i ≠ 0 ∧
      t.checkSignals = { t with pendingSignals := sigdelset t.pendingSignals i, signal := i } := by
  unfold checkSignals
  split
  · exact .inl rfl
  · next i hi =>
    have hfound : sigismember t.pendingSignals i = true := List.find?_some hi
    obtain ⟨⟨hpos, -⟩, hmem⟩ := of_decide_eq_true hfound
    exact .inr ⟨i, hmem, by omega, rfl⟩

theorem mem_sigdelset {other : ℕ} (h : other ∈ set) :
    other ∈ sigdelset set signal ∨ other = signal := by
  unfold sigdelset
  split
  · exact .inl h
  · by_cases hother : other = signal
    · exact .inr hother
    · exact .inl (mem_erase.mpr ⟨hother, h⟩)

theorem sigdelset_subset (set : Finset ℕ) (signal : ℕ) : sigdelset set signal ⊆ set := by
  unfold sigdelset
  split
  · exact Finset.Subset.refl _
  · exact erase_subset ..

namespace Ledger

section

variable (h : l.Inv actions)

include h

/-- A signal that the thread has read is still the current one when another is sent: it is not
replaced by `SIGKILL`. -/
theorem Inv.sendSignal (hcareful : l.Careful actions (.send signal)) :
    Inv actions ⟨l.thread.sendSignal signal, l.owed ∪ sent actions (.send signal)⟩ := by
  obtain ⟨hreserved, hstop, hkill, hmask⟩ := hcareful
  have hsignal : IsSignal signal := by
    by_contra hnot
    exact hreserved (.inl hnot)
  have howed : ∀ s ∈ l.owed ∪ sent actions (.send signal),
      s ∈ l.owed ∨ s = signal ∧ ¬ Ignored actions signal := by
    intro s hs
    rcases mem_union.mp hs with hs | hs
    · exact .inl hs
    · rw [sent] at hs
      split at hs
      · next hsent => exact .inr ⟨mem_singleton.mp hs, hsent.2⟩
      · exact absurd hs (notMem_empty s)
  have hinv : ∀ s ∈ l.owed ∪ sent actions (.send signal), IsSignal s ∧ ¬ Ignored actions s := by
    intro s hs
    rcases howed s hs with hs | ⟨rfl, hnot⟩
    · exact h.owed s hs
    · exact ⟨hsignal, hnot⟩
  unfold Thread.sendSignal
  by_cases hk : signal = sigkill
  · -- `SIGKILL` becomes the current signal, which was none or `SIGKILL`.
    subst hk
    rw [if_pos (.inl rfl)]
    have hslot := hkill rfl
    refine ⟨?_, hinv, ?_, ?_, ?_, ?_⟩
    · intro s hs
      rcases howed s hs with hs | ⟨rfl, -⟩
      · rcases h.recorded s hs with hpending | hcurrent
        · exact .inl hpending
        · rcases hslot with hzero | hkill'
          · have := (h.owed s hs).1
            rw [← hcurrent, hzero] at this
            exact absurd this (by decide)
          · exact .inr (hkill'.symm.trans hcurrent)
      · exact .inr rfl
    · intro s hs hzero hne
      rcases hs with hs | hs
      · exact h.unmasked s (.inl hs) hzero hne
      · exact absurd hs.symm hne
    · intro s hpc
      rcases h.got s hpc with hs | hs
      · exact .inl hs
      · rcases hslot with hzero | hkill'
        · exact .inl (hs.symm.trans hzero)
        · exact .inr (hkill'.symm.trans hs)
    · intro hpc
      obtain ⟨hzero, hne, -⟩ := h.handling hpc
      rcases hslot with hslot | hslot
      · exact absurd hslot hzero
      · exact absurd hslot hne
    · intro s hpc
      obtain ⟨rfl, hzero, hne, -⟩ := h.signalled s hpc
      rcases hslot with hslot | hslot
      · exact absurd hslot hzero
      · exact absurd hslot hne
  · rw [if_neg (by rintro (h | h) <;> contradiction)]
    by_cases hmember : sigismember l.thread.sigmask signal = true
    · -- It is masked, and nobody waits for it.
      rw [if_pos hmember]
      have hignored : Ignored actions signal := hmask hk (of_decide_eq_true hmember).2
      refine ⟨?_, hinv, h.unmasked, h.got, h.handling, h.signalled⟩
      intro s hs
      rcases howed s hs with hs | ⟨-, hnot⟩
      · exact h.recorded s hs
      · exact absurd hignored hnot
    · rw [if_neg hmember]
      have hunmasked : signal ∉ l.thread.sigmask :=
        fun hmem => hmember (decide_eq_true ⟨hsignal, hmem⟩)
      refine ⟨?_, hinv, ?_, h.got, h.handling, h.signalled⟩
      · intro s hs
        rcases howed s hs with hs | ⟨rfl, -⟩
        · exact (h.recorded s hs).imp (fun hs => (mem_sigaddset hreserved).mpr (.inr hs)) id
        · exact .inl ((mem_sigaddset hreserved).mpr (.inl rfl))
      · intro s hs hzero hne
        rcases hs with hs | hs
        · rcases (mem_sigaddset hreserved).mp hs with rfl | hs
          · exact hunmasked
          · exact h.unmasked s (.inl hs) hzero hne
        · exact h.unmasked s (.inr hs) hzero hne

theorem Inv.checkSignals (hcareful : l.Careful actions .checkSignals) :
    Inv actions ⟨l.thread.checkSignals, l.owed⟩ := by
  rcases checkSignals_cases l.thread with hsame | ⟨i, hi, hpos, htaken⟩
  · rwa [hsame]
  have hslot : l.thread.signal = 0 := by
    rcases hcareful with hempty | hslot
    · rw [hempty] at hi
      exact absurd hi (notMem_empty i)
    · exact hslot
  rw [htaken]
  refine ⟨?_, h.owed, ?_, ?_, ?_, ?_⟩
  · intro s hs
    rcases h.recorded s hs with hpending | hcurrent
    · exact (mem_sigdelset hpending).imp id Eq.symm
    · have := (h.owed s hs).1
      rw [← hcurrent, hslot] at this
      exact absurd this (by decide)
  · intro s hs hzero hne
    rcases hs with hs | rfl
    · exact h.unmasked s (.inl (sigdelset_subset _ _ hs)) hzero hne
    · exact h.unmasked _ (.inl hi) hzero hne
  · intro s hpc
    rcases h.got s hpc with hs | hs
    · exact .inl hs
    · exact .inl (hs.symm.trans hslot)
  · intro hpc
    exact absurd hslot (h.handling hpc).1
  · intro s hpc
    obtain ⟨rfl, hzero, -⟩ := h.signalled s hpc
    exact absurd hslot hzero

theorem Inv.setMask (hcareful : l.Careful actions (.setMask set)) :
    Inv actions ⟨{ l.thread with sigmask := set }, l.owed⟩ := by
  refine ⟨h.recorded, h.owed, ?_, h.got, h.handling, h.signalled⟩
  intro s hs _ hne hmem
  obtain ⟨hpending, hcurrent⟩ := hcareful s hmem hne
  rcases hs with hs | hs
  · exact hpending hs
  · exact hcurrent hs.symm

theorem Inv.clear {t : Thread} {owed : Finset ℕ}
    (hpending : t.pendingSignals = l.thread.pendingSignals) (hsignal : t.signal = 0)
    (hmask : ∀ s ∈ l.thread.pendingSignals, s ∉ l.thread.sigmask → s ∉ t.sigmask)
    (hpc : t.pc = .outside) (howed : owed ⊆ l.owed) (hacted : l.thread.signal ∉ owed) :
    Inv actions ⟨t, owed⟩ := by
  refine ⟨?_, fun s hs => h.owed s (howed hs), ?_, ?_, ?_, ?_⟩
  · intro s hs
    rcases h.recorded s (howed hs) with hs' | rfl
    · exact .inl (hpending ▸ hs')
    · exact absurd hs hacted
  · intro s hs hzero hne
    rcases hs with hs | hs
    · rw [hpending] at hs
      exact hmask s hs (h.unmasked s (.inl hs) hzero hne)
    · exact absurd (hs.symm.trans hsignal) hzero
  · intro s hs
    cases hpc.symm.trans hs
  · intro hs
    cases hpc.symm.trans hs
  · intro s hs
    cases hpc.symm.trans hs

theorem Inv.checkStatus (hpc : l.thread.pc = .got signal) :
    Inv actions ⟨l.thread.checkStatus actions signal,
      l.owed \ (l.thread.acted actions .act).toFinset⟩ := by
  have hacted : l.thread.acted actions .act =
      if signal = sigkill ∨ signal = sigstop ∨ signal ≠ 0 ∧ (actions signal).handler = .dfl then
        some signal
      else none := by
    simp only [acted, hpc]
  rw [hacted]
  unfold Thread.checkStatus
  by_cases hzero : signal = 0
  · subst hzero
    rw [if_pos rfl, if_neg (by simp [sigkill, sigstop]), toFinset_none, sdiff_empty]
    exact ⟨h.recorded, h.owed, h.unmasked, nofun, nofun, nofun⟩
  have hslot : l.thread.signal = signal := (h.got signal hpc).resolve_left hzero
  rw [if_neg hzero]
  by_cases huser : signal ≠ sigkill ∧ signal ≠ sigstop ∧ (actions signal).handler = .user
  · -- The signal stays the current one until its handler is called.
    have hnot : ¬ (signal = sigkill ∨ signal = sigstop ∨
        signal ≠ 0 ∧ (actions signal).handler = .dfl) := by
      rintro (hk | hk | ⟨-, hk⟩)
      · exact huser.1 hk
      · exact huser.2.1 hk
      · rw [huser.2.2] at hk
        cases hk
    rw [if_pos huser, if_neg hnot, toFinset_none, sdiff_empty]
    refine ⟨h.recorded, h.owed, h.unmasked, nofun, fun _ => ?_, nofun⟩
    rw [hslot]
    exact ⟨hzero, huser.1, huser.2.2⟩
  rw [if_neg huser]
  by_cases hdfl : signal = sigkill ∨ signal = sigstop ∨ (actions signal).handler = .dfl
  · have hdfl' : signal = sigkill ∨ signal = sigstop ∨
        signal ≠ 0 ∧ (actions signal).handler = .dfl :=
      hdfl.imp id (Or.imp id fun hd => ⟨hzero, hd⟩)
    rw [if_pos hdfl, if_pos hdfl']
    refine h.clear rfl rfl (fun _ _ => id) rfl sdiff_subset ?_
    simp [hslot]
  · have hdfl' : ¬ (signal = sigkill ∨ signal = sigstop ∨
        signal ≠ 0 ∧ (actions signal).handler = .dfl) :=
      fun hd => hdfl (hd.imp id (Or.imp id And.right))
    rw [if_neg hdfl, if_neg hdfl', toFinset_none, sdiff_empty]
    split
    · next hign =>
      refine h.clear rfl rfl (fun _ _ => id) rfl (Finset.Subset.refl _) ?_
      intro hmem
      rw [hslot] at hmem
      exact (h.owed signal hmem).2 ⟨fun hk => hdfl (.inl hk), fun hk => hdfl (.inr (.inl hk)), hign⟩
    · exact ⟨h.recorded, h.owed, h.unmasked, nofun, nofun, nofun⟩

theorem Inv.doSignal (hpc : l.thread.pc = .signalled signal)
    (hcareful : l.Careful actions .doSignal) :
    Inv actions ⟨l.thread.doSignal actions signal,
      l.owed \ (l.thread.acted actions .doSignal).toFinset⟩ := by
  obtain ⟨hslot, hzero, -, huser⟩ := h.signalled signal hpc
  have hacted : l.thread.acted actions .doSignal = some signal := by
    simp only [acted, hpc, if_pos (And.intro hzero huser)]
  rw [hacted, Thread.doSignal, if_neg hzero, if_pos huser]
  refine h.clear rfl rfl (fun s hs hmask hmem => ?_) rfl sdiff_subset ?_
  · rcases mem_union.mp hmem with hmem | hmem
    · exact hmask hmem
    · refine hcareful s ?_ hs
      rwa [frameMask, hpc]
  · simp [hslot]

/-- **Careful steps keep all signals.** -/
theorem Inv.exec (hcareful : l.Careful actions e) (hexec : l.exec actions e = some l') :
    l'.Inv actions := by
  obtain ⟨t, ht, rfl⟩ := map_eq_some_iff.mp hexec
  have hrest : ∀ {pc}, (∀ signal, pc = .got signal → signal = 0 ∨ l.thread.signal = signal) →
      (pc = .handling → l.thread.signal ≠ 0 ∧ l.thread.signal ≠ sigkill ∧
        (actions l.thread.signal).handler = .user) →
      (∀ signal, pc = .signalled signal → l.thread.signal = signal ∧ signal ≠ 0 ∧
        signal ≠ sigkill ∧ (actions signal).handler = .user) →
      Inv actions ⟨{ l.thread with pc := pc }, (l.owed ∪ ∅) \ ∅⟩ := by
    intro pc hgot hhandling hsignalled
    rw [union_empty, sdiff_empty]
    exact ⟨h.recorded, h.owed, h.unmasked, hgot, hhandling, hsignalled⟩
  cases e with
  | send signal =>
    obtain rfl := some.inj ht
    change Inv actions ⟨_, (l.owed ∪ sent actions (.send signal)) \ ∅⟩
    rw [sdiff_empty]
    exact h.sendSignal hcareful
  | checkSignals =>
    obtain rfl := some.inj ht
    change Inv actions ⟨_, (l.owed ∪ ∅) \ ∅⟩
    rw [union_empty, sdiff_empty]
    exact h.checkSignals hcareful
  | scheduled =>
    obtain rfl := some.inj ht
    change Inv actions ⟨_, (l.owed ∪ ∅) \ ∅⟩
    rw [union_empty, sdiff_empty]
    exact ⟨h.recorded, h.owed, h.unmasked, h.got, h.handling, h.signalled⟩
  | setMask set =>
    obtain rfl := some.inj ht
    change Inv actions ⟨_, (l.owed ∪ ∅) \ ∅⟩
    rw [union_empty, sdiff_empty]
    exact h.setMask hcareful
  | enter =>
    rw [Thread.exec] at ht
    obtain ⟨-, rfl⟩ := ite_some_none_eq_some.mp ht
    exact hrest (by split <;> nofun) (by split <;> nofun) (by split <;> nofun)
  | read =>
    rw [Thread.exec] at ht
    obtain ⟨-, rfl⟩ := ite_some_none_eq_some.mp ht
    refine hrest (fun signal hsignal => .inr (Pc.got.inj hsignal)) nofun nofun
  | act =>
    rw [Thread.exec] at ht
    split at ht
    · next signal hpc =>
      obtain rfl := some.inj ht
      change Inv actions ⟨_, (l.owed ∪ ∅) \ _⟩
      rw [union_empty]
      exact h.checkStatus hpc
    · cases ht
  | readSignal =>
    rw [Thread.exec] at ht
    obtain ⟨hpc, rfl⟩ := ite_some_none_eq_some.mp ht
    refine hrest nofun nofun fun signal hsignal => ?_
    obtain rfl := Pc.signalled.inj hsignal
    exact ⟨rfl, h.handling hpc⟩
  | doSignal =>
    rw [Thread.exec] at ht
    split at ht
    · next signal hpc =>
      obtain rfl := some.inj ht
      change Inv actions ⟨_, (l.owed ∪ ∅) \ _⟩
      rw [union_empty]
      exact h.doSignal hpc hcareful
    · cases ht

theorem Inv.acted (hacted : l.thread.acted actions e = some signal) :
    l.thread.signal = signal ∧ signal ≠ 0 := by
  unfold Thread.acted at hacted
  split at hacted
  · split at hacted
    · next s hpc =>
      obtain ⟨hdefault, rfl⟩ := ite_some_none_eq_some.mp hacted
      have hzero : s ≠ 0 := by
        rintro rfl
        simp [sigkill, sigstop] at hdefault
      exact ⟨(h.got s hpc).resolve_left hzero, hzero⟩
    · cases hacted
  · split at hacted
    · next s hpc =>
      obtain ⟨-, rfl⟩ := ite_some_none_eq_some.mp hacted
      obtain ⟨hslot, hzero, -⟩ := h.signalled s hpc
      exact ⟨hslot, hzero⟩
    · cases hacted
  · cases hacted

theorem Inv.keepsMasked (hexec : l.exec actions e = some l') : l.KeepsMasked e l' := by
  obtain ⟨t, -, rfl⟩ := map_eq_some_iff.mp hexec
  intro s hs hmask hne
  refine mem_sdiff.mpr ⟨mem_union_left _ hs, fun hmem => ?_⟩
  obtain ⟨hslot, hzero⟩ := h.acted (mem_toFinset.mp hmem)
  exact h.unmasked s (.inr hslot) hzero hne hmask

end

theorem not_recorded (howed : signal ∈ l.owed) (hpending : l.thread.pendingSignals = ∅)
    (hsignal : l.thread.signal ≠ signal) : ¬ l.Recorded := by
  intro hrecorded
  rcases hrecorded signal howed with h | h
  · rw [hpending] at h
    exact absurd h (notMem_empty signal)
  · exact hsignal h

/-- A new thread, in an object with the given current signal. -/
def init (signal : ℕ) : Ledger := ⟨Thread.init signal, ∅⟩

theorem inv_init (actions : ℕ → Action) (signal : ℕ) : (init signal).Inv actions :=
  ⟨fun _ hs => absurd hs (notMem_empty _), fun _ hs => absurd hs (notMem_empty _),
    fun s _ _ _ => notMem_empty s, nofun, nofun, nofun⟩

end Ledger

/-- **No signal is lost in a run of careful steps**, and none is acted on while it is masked. -/
theorem signals_kept {run : List (Event × Ledger)}
    (hrun : Along (fun l e l' => l.exec actions e = some l') (.init signal) run)
    (hcareful : Along (fun l e _ => l.Careful actions e) (.init signal) run) :
    After Ledger.Recorded (.init signal) run ∧ Along Ledger.KeepsMasked (.init signal) run := by
  have hinv : After (Ledger.Inv actions) (.init signal) run :=
    hrun.after (fun l e l' h hexec hc => h.exec hc hexec) (Ledger.inv_init actions signal) hcareful
  refine ⟨hinv.mono fun l h => h.recorded, ?_⟩
  exact hrun.of_inv (I := Ledger.Inv actions)
    (fun l e l' h hexec hc => ⟨h.exec hc hexec, h.keepsMasked hexec⟩)
    (Ledger.inv_init actions signal) hcareful

end Steps

/-- `SIGUSR1` has a handler, all others have their defaults. -/
def oneHandler (signal : ℕ) : Action :=
  if signal = 10 then ⟨.user, ∅⟩ else ⟨.dfl, ∅⟩

theorem handled_then_sent : ∃ run : List (Event × Ledger),
    run.map Prod.fst = [.send 10, .checkSignals, .enter, .read, .act, .readSignal, .doSignal,
      .send 15] ∧
    After Ledger.Recorded (.init 0) run ∧ Along Ledger.KeepsMasked (.init 0) run ∧
    (final (.init 0) run).owed = {15} := by
  refine (exists_run (Ledger.exec oneHandler) (Ledger.Careful oneHandler) (fun l => l.owed = {15})
    (.init 0) _ (by decide +kernel)).imp fun run ⟨hevents, hrun, hgoal⟩ => ⟨hevents, ?_⟩
  obtain ⟨hrecorded, hmasked⟩ := signals_kept (hrun.mono fun _ _ _ => And.right)
    (hrun.mono fun _ _ _ => And.left)
  exact ⟨hrecorded, hmasked, hgoal⟩

/-- **Signals that are lost.** `SIGUSR1` and `SIGUSR2` are sent, and two passes of the scheduler
make them the current signal one after the other. And `SIGUSR1` is sent while it is masked. -/
theorem signals_lost :
    (∃ run : List (Event × Ledger),
      run.map Prod.fst = [.send 10, .send 12, .checkSignals, .checkSignals] ∧
      Along (fun l e l' => l.exec oneHandler e = some l') (.init 0) run ∧
      ¬ (final (.init 0) run).Recorded) ∧
    ∃ run : List (Event × Ledger),
      run.map Prod.fst = [.setMask {10}, .send 10] ∧
      Along (fun l e l' => l.exec oneHandler e = some l') (.init 0) run ∧
      ¬ (final (.init 0) run).Recorded := by
  constructor <;>
  · refine (exists_run (Ledger.exec oneHandler) (fun _ _ => True)
      (fun l => 10 ∈ l.owed ∧ l.thread.pendingSignals = ∅ ∧ l.thread.signal ≠ 10) (.init 0) _
      (by decide +kernel)).imp fun run ⟨hevents, hrun, howed, hpending, hsignal⟩ => ⟨hevents, ?_⟩
    exact ⟨hrun.mono fun _ _ _ => And.right, Ledger.not_recorded howed hpending hsignal⟩

end SeaKernel.Signals
