import SeaKernel.Lib.Word

/-!
# The levels of timers

A timer is put on one of eight lists, by how often its ticks can be divided by 64. The loop that
counts the divisions makes up to eight of them, so that ticks from `64 ^ 8` on are given the level
8, for which there is no list. The levels that `check_timers` chooses when it moves a timer down
are lower than the one the timer comes from.

## Main results

* `levels_valid_iff`: which timers have valid levels, and which requests to `sys_nanosleep`
-/

namespace SeaKernel.TimerLevels

/-- `TIMER_LEVELS` -/
def timerLevels : ℕ := 8

/-- `TIMER_LEVEL_SIZE` -/
def timerLevelSize : ℕ := 64

/-- `MICROSECONDS_PER_TICK` -/
def microsecondsPerTick : ℤ := 100

/-- A number as an `int64_t`. -/
def int64 (x : ℤ) : ℤ := x.bmod (2 ^ 64)

/-- `struct timer`; the level is `none` for -1. -/
structure Timer where
  periodic : Bool
  initialTicks : UInt64
  ticks : ℤ
  level : Option ℕ

/-- The loop of `__add_timer`, with `i` rounds to go. -/
def levelLoop : ℕ → ℕ → ℕ
  | 0, _ => 0
  | i + 1, ticks =>
    if timerLevelSize ≤ ticks then levelLoop i (ticks / timerLevelSize) + 1 else 0

/-- `__add_timer`, which reads the ticks as a `uint64_t`. -/
def addTimer (x : Timer) : Timer :=
  { x with level := some (levelLoop timerLevels (x.ticks % 2 ^ 64).toNat) }

/-- `timer_add_locked` -/
def timerAdd (periodic : Bool) (ticks : UInt64) : Timer :=
  addTimer ⟨periodic, ticks, int64 ticks.toNat, none⟩

/-- What `check_timers` does with a timer on the list `t`. -/
def checkTimer (t : ℕ) (x : Timer) : Timer :=
  let mult : ℤ := timerLevelSize ^ t
  let ticks := int64 (x.ticks - mult)
  if ticks ≤ 0 then
    if x.periodic then addTimer { x with ticks := int64 x.initialTicks.toNat, level := none }
    else { x with ticks := ticks, level := none }
  else if ticks < mult then addTimer { x with ticks := ticks, level := none }
  else { x with ticks := ticks }

/-- The next time that `check_timers` comes to the timer, if it is on one of the lists. -/
def Timer.check (x : Timer) : Timer :=
  match x.level with
  | some t => if t < timerLevels then checkTimer t x else x
  | none => x

/-- The time of `sys_nanosleep`, in microseconds. -/
def sleepTime (sec nsec : ℤ) : ℤ := int64 (int64 (sec * 1000000) + nsec.tdiv 1000)

/-- The ticks that `sys_nanosleep` adds a timer with; `none` is `-EINVAL`. -/
def sysNanosleep (sec nsec : ℤ) : Option UInt64 :=
  let time := sleepTime sec nsec
  if time < 0 then none
  else some (UInt64.ofNat ((time.tdiv 4).tdiv microsecondsPerTick).toNat)

/-- The timer is never given a level that has no list, however often `check_timers` comes to it. -/
def Valid (x : Timer) : Prop := ∀ n t, (Timer.check^[n] x).level = some t → t < timerLevels

/-! ## The choice of the level -/

theorem levelLoop_lt_iff (i ticks : ℕ) :
    levelLoop (i + 1) ticks < i + 1 ↔ ticks < timerLevelSize ^ (i + 1) := by
  induction i generalizing ticks with
  | zero =>
    rw [levelLoop, zero_add, pow_one]
    split
    · exact iff_of_false (Nat.lt_irrefl _) (by omega)
    · exact iff_of_true Nat.one_pos (by omega)
  | succ i ih =>
    rw [levelLoop]
    split
    · rw [Nat.add_lt_add_iff_right, ih, Nat.div_lt_iff_lt_mul (by decide), ← pow_succ]
    · next hlt =>
      refine iff_of_true (Nat.succ_pos _) ((not_le.mp hlt).trans_le ?_)
      exact Nat.le_self_pow (by omega) _

/-- The timer is on a list, with ticks left for that. -/
def Kept (x : Timer) : Prop :=
  x.initialTicks.toNat < timerLevelSize ^ 8 ∧
    ∀ t, x.level = some t → t < timerLevels ∧ 0 ≤ x.ticks ∧ x.ticks < timerLevelSize ^ 8

theorem kept_addTimer {x : Timer} (hinit : x.initialTicks.toNat < timerLevelSize ^ 8)
    (hpos : 0 ≤ x.ticks) (hlt : x.ticks < timerLevelSize ^ 8) : Kept (addTimer x) := by
  refine ⟨hinit, ?_⟩
  rintro t ⟨⟩
  refine ⟨(levelLoop_lt_iff 7 _).mpr ?_, hpos, hlt⟩
  simp only [timerLevelSize] at *
  omega

theorem int64_of_lt {x : ℤ} (hpos : -2 ^ 63 ≤ x) (hlt : x < 2 ^ 63) : int64 x = x := by
  rw [int64]
  exact Int.bmod_eq_of_le (by omega) (by omega)

/-- **`check_timers` chooses valid levels.** -/
theorem Kept.check {x : Timer} (h : Kept x) : Kept x.check := by
  obtain ⟨hinit, hon⟩ := h
  unfold Timer.check
  cases hl : x.level with
  | none => exact ⟨hinit, hon⟩
  | some t =>
    obtain ⟨ht, hpos, hlt⟩ := hon t hl
    have hmult : (0 : ℤ) < timerLevelSize ^ t ∧ (timerLevelSize : ℤ) ^ t ≤ timerLevelSize ^ 8 := by
      exact ⟨pow_pos (by decide) _, pow_le_pow_right₀ (by decide) ht.le⟩
    have hticks : int64 (x.ticks - timerLevelSize ^ t) = x.ticks - timerLevelSize ^ t := by
      simp only [timerLevelSize] at *
      exact int64_of_lt (by omega) (by omega)
    have hagain : int64 x.initialTicks.toNat = x.initialTicks.toNat := by
      simp only [timerLevelSize] at *
      exact int64_of_lt (by omega) (by omega)
    dsimp only
    rw [if_pos ht, checkTimer, hticks, hagain]
    split_ifs with hfire hper hmove
    · refine kept_addTimer hinit (Int.natCast_nonneg _) ?_
      dsimp only
      exact_mod_cast hinit
    · exact ⟨hinit, nofun⟩
    · exact kept_addTimer hinit (by dsimp only; omega) (by dsimp only; omega)
    · refine ⟨hinit, fun t' ht' => ?_⟩
      obtain rfl : t = t' := Option.some.inj (hl.symm.trans ht')
      exact ⟨ht, by dsimp only; omega, by dsimp only; omega⟩

/-- **When the levels of a timer are valid.** -/
theorem valid_iff (periodic : Bool) (ticks : UInt64) :
    Valid (timerAdd periodic ticks) ↔ ticks.toNat < timerLevelSize ^ 8 := by
  have hticks : (int64 ticks.toNat % 2 ^ 64).toNat = ticks.toNat := by
    have := ticks.toNat_lt
    rw [int64]
    have hmod : Int.bmod ticks.toNat (2 ^ 64) % 2 ^ 64 = (ticks.toNat : ℤ) % 2 ^ 64 :=
      Int.bmod_emod
    omega
  constructor
  · intro h
    have hfirst := h 0 (levelLoop timerLevels (int64 ticks.toNat % 2 ^ 64).toNat)
    rw [hticks] at hfirst
    refine (levelLoop_lt_iff 7 _).mp (hfirst ?_)
    rw [Function.iterate_zero, id, timerAdd, addTimer, hticks]
  · intro h
    have hint : int64 ticks.toNat = ticks.toNat := by
      simp only [timerLevelSize] at h
      exact int64_of_lt (by omega) (by omega)
    have hkept : Kept (timerAdd periodic ticks) := by
      refine kept_addTimer h ?_ ?_
      · dsimp only
        omega
      · dsimp only
        rw [hint]
        exact_mod_cast h
    have hall : ∀ n, Kept (Timer.check^[n] (timerAdd periodic ticks)) := by
      intro n
      induction n with
      | zero => exact hkept
      | succ n ih =>
        rw [Function.iterate_succ_apply']
        exact ih.check
    exact fun n t ht => ((hall n).2 t ht).1

/-- **The levels of a timer are valid** exactly if it is added with fewer than `64 ^ 8` ticks. For a
timer of `sys_nanosleep` this means a request of less than `400 * 64 ^ 8` microseconds. -/
theorem levels_valid_iff (periodic : Bool) (ticks : UInt64) :
    (Valid (timerAdd periodic ticks) ↔ ticks.toNat < timerLevelSize ^ 8) ∧
    ∀ sec nsec, sysNanosleep sec nsec = some ticks →
      (Valid (timerAdd false ticks) ↔ sleepTime sec nsec < 400 * timerLevelSize ^ 8) := by
  refine ⟨valid_iff periodic ticks, fun sec nsec h => ?_⟩
  rw [valid_iff]
  unfold sysNanosleep at h
  dsimp only at h
  split_ifs at h with hneg
  obtain rfl := Option.some.inj h
  have hlt : sleepTime sec nsec < 2 ^ 63 := by
    rw [sleepTime, int64]
    exact Int.bmod_lt (by decide)
  generalize sleepTime sec nsec = time at *
  have hdiv : (time.tdiv 4).tdiv microsecondsPerTick = time / 400 := by
    rw [microsecondsPerTick, Int.tdiv_eq_ediv_of_nonneg (not_lt.mp hneg),
      Int.tdiv_eq_ediv_of_nonneg (by omega)]
    omega
  rw [hdiv, UInt64.toNat_ofNat_of_lt' (by simp only [UInt64.size]; omega)]
  simp only [timerLevelSize]
  omega

theorem second_sleep_valid : ∃ ticks, sysNanosleep 1 0 = some ticks ∧
    Valid (timerAdd false ticks) :=
  ⟨2500, by decide, ((levels_valid_iff false 2500).2 1 0 (by decide)).mpr (by decide)⟩

/-- A request for 200,000,000,000 seconds is served with a timer with a level that has no list. -/
theorem long_sleep_invalid : ∃ ticks, sysNanosleep 200000000000 0 = some ticks ∧
    (timerAdd false ticks).level = some timerLevels :=
  ⟨500000000000000, by decide, by decide⟩

end SeaKernel.TimerLevels
