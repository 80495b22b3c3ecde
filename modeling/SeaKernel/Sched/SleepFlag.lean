import SeaKernel.Lib.Run

/-!
# The sleep flag

One thread sleeps on a flag, and any number of threads wake it: they add one to the flag, and then
unblock whoever is in the list. The sleeper takes one off, and blocks if nothing is left.

A waker that has added to the flag, but has not come to the list, can find the sleeper there in a
later call, for which its wake was not meant: that call returns without a wake of its own, and the
flag is one too low from then on. Apart from this, the flag is an `int`.

## Main results

* `Inv.step`: one step of the sleeper or of a waker
* `sleepflag_run`: runs in which no call of `sleepflag_sleep` begins while a waker is between its
  two steps, and the flag stays in its range
-/

namespace SeaKernel.SleepFlag

/-! ## The model -/

/-- Where the sleeping thread is in `sleepflag_sleep`. -/
inductive Phase
  | outside
  | fast
  | asserting
  | halted
  | starting
  | joined
  | blocked
  | awake
  | interrupted
  deriving DecidableEq

/-- The sleeper's blockpoint is in the list. -/
def Phase.inList : Phase → Bool
  | .joined | .blocked | .awake => true
  | _ => false

/-- The flag with the sleeper, its blockpoint and its signal. The last three are for the account:
the wakers between their two steps, all wakes, and the calls of `sleepflag_sleep` that returned
without interruption. -/
structure State where
  flag : ℤ
  phase : Phase
  unblocked : Bool
  signal : Bool
  midway : ℕ
  wakes : ℕ
  returns : ℕ

/-- A value of type `int`. -/
def int32 (x : ℤ) : ℤ := x.bmod (2 ^ 32)

/-- `sleepflag_create` -/
def create : State := ⟨1, .outside, false, false, 0, 0, 0⟩

inductive Event
  /-- `s->flag++` in `sleepflag_wake` -/
  | wakeFlag
  /-- `blocklist_unblock_all` in `sleepflag_wake` -/
  | wakeAll
  /-- A signal comes for the sleeper, or it has been handled. -/
  | signal (pending : Bool)
  /-- The next step of the sleeper. -/
  | sleep
  deriving DecidableEq

/-- The steps of `sleepflag_sleep`. A blocked thread goes on if it is unblocked or interrupted. -/
def sleepStep (s : State) : Option State :=
  match s.phase with
  | .outside => some { s with phase := if 2 ≤ s.flag then .fast else .asserting }
  | .fast => some { s with flag := int32 (s.flag - 1), phase := .outside, returns := s.returns + 1 }
  | .asserting => some { s with phase := if 0 ≤ s.flag then .starting else .halted }
  | .halted => none
  | .starting => some { s with phase := .joined, unblocked := false }
  | .joined =>
    some { s with
      flag := int32 (s.flag - 1), phase := if int32 (s.flag - 1) = 0 then .blocked else .awake }
  | .blocked => if s.unblocked || s.signal then some { s with phase := .awake } else none
  | .awake =>
    -- `blockpoint_cleanup`: a signal overrides the other results
    if s.signal then some { s with phase := .interrupted }
    else some { s with phase := .outside, returns := s.returns + 1 }
  | .interrupted => some { s with flag := int32 (s.flag + 1), phase := .outside }

/-- One step of one of the threads. -/
def exec (s : State) : Event → Option State
  | .wakeFlag =>
    some { s with flag := int32 (s.flag + 1), midway := s.midway + 1, wakes := s.wakes + 1 }
  | .wakeAll =>
    if s.midway = 0 then none
    else some { s with midway := s.midway - 1, unblocked := s.unblocked || s.phase.inList }
  | .signal pending =>
    if pending || s.phase = .outside then some { s with signal := pending } else none
  | .sleep => sleepStep s

def Step (s : State) (e : Event) (t : State) : Prop := exec s e = some t

/-- A call of `sleepflag_sleep` does not begin while a waker is between its two steps, and the flag
has room for a wake and for an interrupted sleep. -/
def Calm (s : State) (e : Event) (_ : State) : Prop :=
  (e = .sleep → s.phase = .outside → s.midway = 0) ∧ (e = .wakeFlag → s.flag + 2 < 2 ^ 31)

instance (s : State) (e : Event) (t : State) : Decidable (Calm s e t) :=
  inferInstanceAs (Decidable ((_ → _ → _) ∧ (_ → _)))

/-- The flag is not negative when a sleep begins, and its assertion does not fail; a sleeper does
not stay blocked if there is a wake that no sleep has consumed and whose waker is through; and the
sleeps that returned without interruption are not more than the wakes. -/
structure Sound (s : State) : Prop where
  flag_nonneg : s.phase = .outside → 0 ≤ s.flag
  no_halt : s.phase ≠ .halted
  woken : s.phase = .blocked → s.returns + s.midway < s.wakes → s.unblocked
  consumed : s.returns ≤ s.wakes

/-! ## The account of the wakes -/

/-- What the sleeper has not yet taken off the flag. -/
def Phase.rest : Phase → ℤ
  | .blocked | .awake | .interrupted => 0
  | _ => 1

/-- What holds in each phase: a sleep that will return has a wake to consume, and all wakers that
are between their steps belong to wakes that no sleep has consumed. -/
def PhaseInv (s : State) : Prop :=
  match s.phase with
  | .outside | .interrupted => True
  | .fast => s.returns < s.wakes
  | .halted => False
  | .asserting | .starting => s.returns + s.midway ≤ s.wakes
  | .joined => s.returns + s.midway ≤ s.wakes ∧ (s.unblocked → s.returns < s.wakes)
  | .blocked => s.returns + s.midway ≤ s.wakes ∧ (s.unblocked → s.returns < s.wakes) ∧
      (s.unblocked = false → s.wakes ≤ s.returns + s.midway)
  | .awake => s.returns + s.midway ≤ s.wakes ∧ (s.signal = false → s.returns < s.wakes)

/-- The flag counts the wakes that no sleep has consumed. -/
structure Inv (s : State) : Prop where
  flag_eq : s.flag = s.wakes - s.returns + s.phase.rest
  consumed : s.returns ≤ s.wakes
  bounded : s.flag + 1 < 2 ^ 31 + s.phase.rest
  phase : PhaseInv s

theorem inv_create : Inv create := ⟨rfl, Nat.le_refl _, by decide, trivial⟩

theorem int32_of_lt {x : ℤ} (h : -1 ≤ x) (h' : x < 2 ^ 31) : int32 x = x :=
  Int.bmod_eq_of_le (by omega) (by omega)

theorem Inv.sound {s : State} (h : Inv s) : Sound s := by
  obtain ⟨flag, phase, unblocked, signal, midway, wakes, returns⟩ := s
  obtain ⟨hflag, hle, -, hphase⟩ := h
  refine ⟨?_, ?_, ?_, hle⟩
  · rintro rfl
    dsimp only [Phase.rest] at hflag hle ⊢
    omega
  · rintro rfl
    exact hphase
  · rintro rfl hlt
    cases unblocked with
    | true => rfl
    | false => exact absurd (hphase.2.2 rfl) hlt.not_ge

theorem Inv.sleepStep {s t : State} (h : Inv s) (hcalm : s.phase = .outside → s.midway = 0)
    (hstep : sleepStep s = some t) : Inv t := by
  obtain ⟨flag, phase, unblocked, signal, midway, wakes, returns⟩ := s
  obtain ⟨hflag, hle, hbound, hphase⟩ := h
  unfold SleepFlag.sleepStep at hstep
  cases phase <;> dsimp only [Phase.rest, PhaseInv] at hflag hle hbound hphase hstep
  case outside =>
    have hmid := hcalm rfl
    dsimp only at hmid
    split at hstep <;> cases hstep
    · exact ⟨hflag, hle, hbound, show returns < wakes by omega⟩
    · exact ⟨hflag, hle, hbound, show returns + midway ≤ wakes by omega⟩
  case fast =>
    rw [int32_of_lt (by omega) (by omega)] at hstep
    cases hstep
    refine ⟨?_, hphase, ?_, trivial⟩ <;> dsimp only [Phase.rest] <;> omega
  case asserting =>
    rw [if_pos (by omega)] at hstep
    cases hstep
    exact ⟨hflag, hle, hbound, hphase⟩
  case starting =>
    cases hstep
    exact ⟨hflag, hle, hbound, hphase, nofun⟩
  case joined =>
    -- the flag is now the number of wakes that are left, and zero only if there is none
    rw [int32_of_lt (by omega) (by omega)] at hstep
    split at hstep <;> cases hstep <;> refine ⟨?_, hle, ?_, hphase.1, ?_⟩ <;>
      dsimp only [Phase.rest]
    all_goals try omega
    · exact ⟨hphase.2, fun _ => by omega⟩
  case blocked =>
    split at hstep
    · next hgo =>
      cases hstep
      refine ⟨hflag, hle, hbound, hphase.1, fun hsignal => hphase.2.1 ?_⟩
      rwa [show signal = false from hsignal, Bool.or_false] at hgo
    · cases hstep
  case awake =>
    split at hstep <;> cases hstep
    · exact ⟨hflag, hle, hbound, trivial⟩
    · next hsignal =>
      have hlt : returns < wakes := hphase.2 (Bool.eq_false_of_not_eq_true hsignal)
      refine ⟨?_, hlt, ?_, trivial⟩ <;> dsimp only [Phase.rest] <;> omega
  case interrupted =>
    rw [int32_of_lt (by omega) (by omega)] at hstep
    cases hstep
    refine ⟨?_, hle, ?_, trivial⟩ <;> dsimp only [Phase.rest] <;> omega

theorem Phase.rest_nonneg (p : Phase) : 0 ≤ p.rest := by cases p <;> decide

/-- **One step** keeps the account. -/
theorem Inv.step (s : State) (e : Event) (t : State) (h : Inv s) (hstep : Step s e t)
    (hcalm : Calm s e t) : Inv t := by
  obtain ⟨flag, phase, unblocked, signal, midway, wakes, returns⟩ := s
  have hphase := h.phase
  cases e with
  | sleep => exact h.sleepStep (hcalm.1 rfl) hstep
  | wakeFlag =>
    obtain ⟨hflag, hle, -, -⟩ := h
    have hroom := hcalm.2 rfl
    have hrest := phase.rest_nonneg
    dsimp only at hflag hle hroom
    rw [Step, exec, int32_of_lt (by dsimp only; omega) (by dsimp only; omega)] at hstep
    cases hstep
    refine ⟨?_, Nat.le_succ_of_le hle, ?_, ?_⟩
    · dsimp only
      omega
    · dsimp only
      omega
    · cases phase <;> dsimp only [PhaseInv] at hphase ⊢ <;> grind
  | wakeAll =>
    rw [Step, exec] at hstep
    split at hstep <;> cases hstep
    refine ⟨h.flag_eq, h.consumed, h.bounded, ?_⟩
    cases phase <;> dsimp only [PhaseInv, Phase.inList] at hphase ⊢ <;> grind
  | signal pending =>
    rw [Step, exec] at hstep
    split at hstep <;> cases hstep
    refine ⟨h.flag_eq, h.consumed, h.bounded, ?_⟩
    cases phase <;> dsimp only [PhaseInv] at hphase ⊢ <;> grind

/-! ## Whole runs -/

/-- **In every run** of the sleeper and of its wakers whose sleeps do not begin while a waker is
between its two steps, and whose flag stays in its range, the flag is not negative when a sleep
begins, no wake is lost, and each sleep that returns without interruption consumes a wake. -/
theorem sleepflag_run {run : List (Event × State)} (hrun : Along Step create run)
    (hcalm : Along Calm create run) : After Sound create run :=
  (hrun.after Inv.step inv_create hcalm).mono fun _ => Inv.sound

/-- The sleeper blocks, and a wake comes. -/
theorem blocked_and_woken :
    ∃ run, run.map Prod.fst = [.sleep, .sleep, .sleep, .sleep, .wakeFlag, .wakeAll, .sleep] ∧
      Along Step create run ∧ After Sound create run := by
  obtain ⟨run, hevents, hrun, -⟩ := exists_run exec (fun s e => Calm s e s) (fun _ => True) create
    [.sleep, .sleep, .sleep, .sleep, .wakeFlag, .wakeAll, .sleep] (by decide +kernel)
  have hstep : Along Step create run := hrun.mono fun _ _ _ h => h.2
  exact ⟨run, hevents, hstep, sleepflag_run hstep (hrun.mono fun _ _ _ h => h.1)⟩

/-- A waker has added to the flag when the sleeper makes its first call, and finds it in the list in
the second one. The third call takes one off a flag of zero, with which the fourth one begins. -/
def lateWaker : List Event :=
  [.wakeFlag, .sleep, .sleep, .sleep, .sleep, .sleep, .wakeAll, .sleep, .sleep, .sleep,
    .sleep, .sleep, .sleep, .sleep, .sleep]

theorem late_waker_negative :
    ∃ run, run.map Prod.fst = lateWaker ∧ Along Step create run ∧
      (final create run).phase = .outside ∧ (final create run).flag = -1 ∧
      (final create run).returns = 3 ∧ (final create run).wakes = 1 := by
  obtain ⟨run, hevents, hrun, hfinal⟩ := exists_run exec (fun _ _ => True)
    (fun s => s.phase = .outside ∧ s.flag = -1 ∧ s.returns = 3 ∧ s.wakes = 1) create lateWaker
    (by decide +kernel)
  exact ⟨run, hevents, hrun.mono fun _ _ _ h => h.2, hfinal⟩

end SeaKernel.SleepFlag
