import SeaKernel.Lib.Run

/-!
# Waiting for a child

A child that stops, continues or exits writes what has happened into the status word of its process
and sets a flag. `wait4` takes the flag, reads the status word and clears it. The exit is written
only if the status word does not say something else, so that a child that was killed stays so. But
that is also the case after a stop or a continuation that nobody has asked for: then the exit code
is lost, and after a continuation the exit is taken by a call that does not return it.

The writes of the child and the steps of a call are not ordered by a lock. If the child writes
between the steps of a call, then the call clears what it has not read, and the next one finds a
flag with a status word of 0, which is an exit with code 0.

## Main definitions

* `wifexited`, `wexitstatus`: the tests of a status word
* `State`, `Event`: a child, and its parent that waits for it
* `State.ExitOnce`: what should become of the exit of the child
* `State.Careful`: a write of the child outside of a report, and an exit with nothing unreported

## Main results

* `exec_call`: a call reports the exit of a child if that has been recorded
* `exit_reported_once`: runs of careful steps
-/

namespace SeaKernel.Wait

open List Option

/-! ## Status words -/

/-- `WTERMSIG` -/
def wtermsig (s : ℕ) : ℕ := s &&& 0x7f

/-- `WIFEXITED` -/
def wifexited (s : ℕ) : Bool := wtermsig s == 0

/-- `WEXITSTATUS` -/
def wexitstatus (s : ℕ) : ℕ := (s &&& 0xff00) >>> 8

/-- `WIFSTOPPED`: the product has 32 bits, and the comparison is one of numbers of 16 bits with a
sign. -/
def wifstopped (s : ℕ) : Bool :=
  let short := ((((s &&& 0xffff) * 0x10001) % 2 ^ 32) >>> 8) % 2 ^ 16
  short < 0x8000 && short > 0x7f00

/-- `WIFCONTINUED` -/
def wifcontinued (s : ℕ) : Bool := s == 0xffff

/-- `process_make_status` -/
def processMakeStatus (code sig : ℕ) (exited coredump : Bool) : ℕ :=
  if exited then code <<< 8 else sig ||| if coredump then 0x80 else 0

/-- The status word of an exit. -/
def exitStatus (code : ℕ) : ℕ := processMakeStatus code 0 true false

/-- The status word of a child that has stopped. -/
def stopStatus : ℕ := 0x7f

/-- The status word of a child that has been continued. -/
def contStatus : ℕ := 0xffff

/-! ## The child and its parent -/

/-- What the child is doing. -/
inductive Child where
  | running
  /-- It has written that it has stopped or been continued, and has yet to set the flag. -/
  | marking
  /-- It has written its exit code, and has yet to set the flags. -/
  | exiting (code : ℕ)
  | gone (code : ℕ)
  deriving DecidableEq

/-- `WNOHANG`, `WUNTRACED` and `WCONTINUED` -/
structure Options where
  nohang : Bool
  untraced : Bool
  continued : Bool
  deriving DecidableEq

/-- Where the parent is in `sys_wait4`. -/
inductive Parent where
  | idle
  /-- At `restart`. -/
  | begin (options : Options)
  /-- It has put itself on the list, and knows whether there is something to read. -/
  | started (options : Options) (ready : Bool)
  | asleep (options : Options)
  /-- Before `blockpoint_cleanup`. -/
  | awake (options : Options)
  /-- In `__read_status`, before `PROC_EXITED` is taken. -/
  | checking (options : Options)
  /-- Before `PROC_STATUS_CHANGED` is taken. -/
  | taking (options : Options)
  /-- Before the status word is read. -/
  | reading (options : Options)
  /-- Before the status word is cleared. -/
  | clearing (status : ℕ)
  deriving DecidableEq

/-- The parent is not between the steps of `__read_status`. -/
def Parent.Outside : Parent → Prop
  | .taking _ => False
  | .reading _ => False
  | .clearing _ => False
  | _ => True

/-- The fields of `struct process` of the child, whether it is in `processids`, and what `wait4` has
returned for it. -/
structure State where
  status : ℕ
  /-- `PROC_EXITED` -/
  exited : Bool
  /-- `PROC_STATUS_CHANGED` -/
  changed : Bool
  mapped : Bool
  child : Child
  parent : Parent
  reports : List ℕ
  deriving DecidableEq

/-- A write of the child, or a step of the parent. -/
inductive Event where
  | stop
  | cont
  | mark
  | exit (code : ℕ)
  | markExit
  | call (options : Options)
  | lookup
  | sleep
  | wake
  | cleanup (interrupted : Bool)
  | takeExited
  | takeChanged
  | readStatus
  | clear
  deriving DecidableEq

namespace State

/-- A child that has just been made. -/
def init : State := ⟨0, false, false, true, .running, .idle, []⟩

/-- `__read_status` has returned 0. -/
def returnZero (σ : State) (options : Options) : State :=
  { σ with parent := if options.nohang then .idle else .begin options }

/-- One step. -/
def exec (σ : State) : Event → Option State
  | .stop =>
    if σ.child = .running then some { σ with status := stopStatus, child := .marking } else none
  | .cont =>
    if σ.child = .running then some { σ with status := contStatus, child := .marking } else none
  | .mark =>
    if σ.child = .marking then some { σ with changed := true, child := .running } else none
  | .exit code =>
    if σ.child = .running ∧ code < 256 then
      some { σ with
        status := if wifexited σ.status then exitStatus code else σ.status
        child := .exiting code }
    else none
  | .markExit =>
    match σ.child with
    | .exiting code => some { σ with exited := true, changed := true, child := .gone code }
    | _ => none
  | .call options => if σ.parent = .idle then some { σ with parent := .begin options } else none
  | .lookup =>
    match σ.parent with
    | .begin options =>
      -- Without an entry in `processids` the call returns `ECHILD`.
      some { σ with parent := if σ.mapped then .started options σ.changed else .idle }
    | _ => none
  | .sleep =>
    match σ.parent with
    | .started options ready =>
      some { σ with parent := if ready || options.nohang then .awake options else .asleep options }
    | _ => none
  | .wake =>
    match σ.parent with
    | .asleep options => some { σ with parent := .awake options }
    | _ => none
  | .cleanup interrupted =>
    match σ.parent with
    | .awake options => some { σ with parent := if interrupted then .idle else .checking options }
    | _ => none
  | .takeExited =>
    match σ.parent with
    | .checking options =>
      some { σ with exited := false, mapped := σ.mapped && !σ.exited, parent := .taking options }
    | _ => none
  | .takeChanged =>
    match σ.parent with
    | .taking options =>
      if σ.changed then some { σ with changed := false, parent := .reading options }
      else some (σ.returnZero options)
    | _ => none
  | .readStatus =>
    match σ.parent with
    | .reading options =>
      if wifstopped σ.status && !options.untraced then some (σ.returnZero options)
      else if wifcontinued σ.status && !options.continued then some (σ.returnZero options)
      else some { σ with parent := .clearing σ.status }
    | _ => none
  | .clear =>
    match σ.parent with
    | .clearing status =>
      some { σ with status := 0, parent := .idle, reports := σ.reports ++ [status] }
    | _ => none

/-- A call that is not interrupted, and finds something. -/
def wait4 (σ : State) (options : Options) : Option State :=
  [.call options, .lookup, .sleep, .cleanup false, .takeExited, .takeChanged, .readStatus,
    .clear].foldlM exec σ

/-- The parent is not between the steps of a report. -/
def Apart (σ : State) : Prop :=
  match σ.parent with
  | .reading _ => False
  | .clearing _ => False
  | _ => True

/-- The reports of an exit. -/
def exits (σ : State) : List ℕ := σ.reports.filter wifexited

/-- The exit has been recorded, and every call of the parent reports it. -/
def Waiting (σ : State) (code : ℕ) : Prop :=
  σ.exits = [] ∧ σ.changed = true ∧ σ.status = exitStatus code ∧
    (σ.parent = .idle → ∀ options, ∃ τ, σ.wait4 options = some τ ∧
      τ.reports = σ.reports ++ [exitStatus code])

/-- A call is about to report the exit. -/
def Returning (σ : State) (code : ℕ) : Prop :=
  σ.exits = [] ∧ ((∃ options, σ.parent = .reading options ∧ σ.status = exitStatus code) ∨
    σ.parent = .clearing (exitStatus code))

/-- The exit has been reported, once. -/
def Reported (σ : State) (code : ℕ) : Prop :=
  σ.exits = [exitStatus code] ∧ wexitstatus (exitStatus code) = code

/-- **What should become of the exit of the child.** -/
def ExitOnce (σ : State) : Prop :=
  (σ.child = .running → σ.exits = []) ∧
    ∀ code, σ.child = .gone code → σ.Waiting code ∨ σ.Returning code ∨ σ.Reported code

/-- **The writes of the child do not overlap with a report**, and it exits when nothing else is in
its status word. -/
def Careful (σ : State) : Event → Prop
  | .stop => σ.Apart
  | .cont => σ.Apart
  | .exit _ => σ.Apart ∧ wifexited σ.status = true
  | .takeChanged => σ.child = .marking → σ.changed = false
  | _ => True

instance decidableApart (σ : State) : Decidable σ.Apart := by
  unfold Apart
  split <;> infer_instance

instance decidableCareful (σ : State) (e : Event) : Decidable (σ.Careful e) := by
  cases e <;> unfold Careful <;> infer_instance

/-! ## What holds between careful steps -/

/-- The status word says that the child has stopped or been continued. -/
def Told (σ : State) : Prop := σ.status = stopStatus ∨ σ.status = contStatus

/-- The child has not exited. While the parent reports something, there is nothing else to
report. -/
structure Alive (σ : State) : Prop where
  mapped : σ.mapped = true
  exited : σ.exited = false
  exits : σ.exits = []
  status : σ.status = 0 ∨ σ.Told
  changed : σ.changed = true → σ.Told
  busy : ¬ σ.Apart → σ.changed = false
  reading : ∀ options, σ.parent = .reading options → σ.Told
  clearing : ∀ status, σ.parent = .clearing status → σ.status = status ∧ σ.Told

/-- The exit has been written, and nobody knows of it. -/
structure Ending (σ : State) (code : ℕ) : Prop where
  exits : σ.exits = []
  exited : σ.exited = false
  changed : σ.changed = false
  mapped : σ.mapped = true
  status : σ.status = exitStatus code
  apart : σ.Apart

/-- The exit has been recorded, and no call has taken it. -/
structure Open (σ : State) (code : ℕ) : Prop where
  exits : σ.exits = []
  changed : σ.changed = true
  status : σ.status = exitStatus code
  apart : σ.Apart
  mapped : σ.mapped = true ∨ ∃ options, σ.parent = .taking options

/-- A call has taken the exit. -/
structure Taken (σ : State) (code : ℕ) : Prop where
  exits : σ.exits = []
  changed : σ.changed = false
  parent : (∃ options, σ.parent = .reading options ∧ σ.status = exitStatus code) ∨
    σ.parent = .clearing (exitStatus code)

/-- A call has reported the exit. -/
structure Done (σ : State) (code : ℕ) : Prop where
  exits : σ.exits = [exitStatus code]
  changed : σ.changed = false
  apart : σ.Apart

/-- **What holds between careful steps.** -/
def Inv (σ : State) : Prop :=
  match σ.child with
  | .running => σ.Alive
  | .marking => σ.Alive ∧ σ.Told ∧ σ.Apart
  | .exiting code => code < 256 ∧ σ.Ending code
  | .gone code => code < 256 ∧ (σ.Open code ∨ σ.Taken code ∨ σ.Done code)

section Status

variable {code : ℕ}

theorem wifexited_exitStatus (hcode : code < 256) : wifexited (exitStatus code) = true := by
  have hall : ∀ code < 256, wifexited (exitStatus code) = true := by decide +kernel
  exact hall code hcode

theorem wexitstatus_exitStatus (hcode : code < 256) : wexitstatus (exitStatus code) = code := by
  have hall : ∀ code < 256, wexitstatus (exitStatus code) = code := by decide +kernel
  exact hall code hcode

theorem exitStatus_plain (hcode : code < 256) :
    wifstopped (exitStatus code) = false ∧ wifcontinued (exitStatus code) = false := by
  have hall : ∀ code < 256,
      wifstopped (exitStatus code) = false ∧ wifcontinued (exitStatus code) = false := by
    decide +kernel
  exact hall code hcode

theorem Told.not_wifexited {σ : State} (h : σ.Told) : wifexited σ.status = false := by
  rcases h with h | h <;> rw [h] <;> decide

end Status

/-! ## Steps -/

section Steps

variable {σ τ : State} {e : Event} {code : ℕ} {options : Options}

theorem child_cases (σ : State) : σ.child = .running ∨ σ.child = .marking ∨
    (∃ code, σ.child = .exiting code) ∨ ∃ code, σ.child = .gone code := by
  cases σ.child <;> simp

theorem inv_of_running (hchild : σ.child = .running) : σ.Inv ↔ σ.Alive := by
  rw [Inv, hchild]

theorem inv_of_marking (hchild : σ.child = .marking) : σ.Inv ↔ σ.Alive ∧ σ.Told ∧ σ.Apart := by
  rw [Inv, hchild]

theorem inv_of_exiting (hchild : σ.child = .exiting code) : σ.Inv ↔ code < 256 ∧ σ.Ending code := by
  rw [Inv, hchild]

theorem inv_of_gone (hchild : σ.child = .gone code) :
    σ.Inv ↔ code < 256 ∧ (σ.Open code ∨ σ.Taken code ∨ σ.Done code) := by
  rw [Inv, hchild]

theorem inv_running (hchild : σ.child = .running) (h : σ.Alive) : σ.Inv :=
  (inv_of_running hchild).mpr h

theorem inv_marking (hchild : σ.child = .marking) (h : σ.Alive ∧ σ.Told ∧ σ.Apart) : σ.Inv :=
  (inv_of_marking hchild).mpr h

theorem inv_exiting (hchild : σ.child = .exiting code) (h : code < 256 ∧ σ.Ending code) : σ.Inv :=
  (inv_of_exiting hchild).mpr h

theorem inv_gone (hchild : σ.child = .gone code)
    (h : code < 256 ∧ (σ.Open code ∨ σ.Taken code ∨ σ.Done code)) : σ.Inv :=
  (inv_of_gone hchild).mpr h

theorem Taken.not_apart (h : σ.Taken code) : ¬ σ.Apart := by
  unfold Apart
  rcases h.parent with ⟨options, hreading, -⟩ | hclearing
  · rw [hreading]
    exact id
  · rw [hclearing]
    exact id

variable {parent : Parent}

theorem Alive.park (h : σ.Alive) (hto : Apart { σ with parent := parent }) :
    Alive { σ with parent := parent } := by
  refine ⟨h.mapped, h.exited, h.exits, h.status, h.changed, fun hnot => absurd hto hnot,
    fun options hreading => ?_, fun status hclearing => ?_⟩
  · dsimp only at hreading
    subst hreading
    exact hto.elim
  · dsimp only at hclearing
    subst hclearing
    exact hto.elim

theorem Inv.park (h : σ.Inv) (hfrom : σ.Apart)
    (htaking : σ.changed = false ∨ ∀ options, σ.parent ≠ .taking options)
    (hto : Apart { σ with parent := parent }) : Inv { σ with parent := parent } := by
  rcases σ.child_cases with hchild | hchild | ⟨code, hchild⟩ | ⟨code, hchild⟩
  · exact inv_running hchild (((inv_of_running hchild).mp h).park hto)
  · obtain ⟨halive, htold, -⟩ := (inv_of_marking hchild).mp h
    exact inv_marking hchild ⟨halive.park hto, htold, hto⟩
  · obtain ⟨hcode, hend⟩ := (inv_of_exiting hchild).mp h
    exact inv_exiting hchild
      ⟨hcode, hend.exits, hend.exited, hend.changed, hend.mapped, hend.status, hto⟩
  · refine inv_gone hchild ?_
    obtain ⟨hcode, hopen | htaken | hdone⟩ := (inv_of_gone hchild).mp h
    · refine ⟨hcode, .inl ⟨hopen.exits, hopen.changed, hopen.status, hto, .inl ?_⟩⟩
      rcases htaking with hchanged | hnot
      · exact absurd (hopen.changed.symm.trans hchanged) (by decide)
      · rcases hopen.mapped with hmapped | ⟨options, hat⟩
        · exact hmapped
        · exact absurd hat (hnot options)
    · exact absurd hfrom htaken.not_apart
    · exact ⟨hcode, .inr (.inr ⟨hdone.exits, hdone.changed, hto⟩)⟩

theorem Inv.move (h : σ.Inv) (hfrom : σ.parent.Outside) (hto : Apart { σ with parent := parent }) :
    Inv { σ with parent := parent } := by
  refine h.park ?_ (.inr fun options hat => ?_) hto
  · unfold Apart
    cases hparent : σ.parent <;> rw [hparent] at hfrom <;> trivial
  · rw [hat] at hfrom
    exact hfrom

theorem Inv.tell (h : σ.Inv) (hchild : σ.child = .running) (hapart : σ.Apart) {status : ℕ}
    (hstatus : status = stopStatus ∨ status = contStatus) :
    Inv { σ with status := status, child := .marking } := by
  have halive := (inv_of_running hchild).mp h
  refine inv_marking rfl ⟨⟨halive.mapped, halive.exited, halive.exits, .inr hstatus,
    fun _ => hstatus, fun hnot => absurd hapart hnot, fun _ _ => hstatus,
    fun status hclearing => ?_⟩, hstatus, hapart⟩
  have hparent : σ.parent = .clearing status := hclearing
  rw [Apart, hparent] at hapart
  exact hapart.elim

theorem Inv.mark (h : σ.Inv) (hchild : σ.child = .marking) :
    Inv { σ with changed := true, child := .running } := by
  obtain ⟨halive, htold, hapart⟩ := (inv_of_marking hchild).mp h
  exact inv_running rfl ⟨halive.mapped, halive.exited, halive.exits, halive.status,
    fun _ => htold, fun hnot => absurd hapart hnot, halive.reading, halive.clearing⟩

theorem Inv.exit (h : σ.Inv) (hchild : σ.child = .running) (hcode : code < 256)
    (hapart : σ.Apart) (hstatus : wifexited σ.status = true) :
    Inv { σ with
      status := if wifexited σ.status then exitStatus code else σ.status
      child := .exiting code } := by
  have halive := (inv_of_running hchild).mp h
  have hnot : ¬ σ.Told := by
    intro htold
    rw [htold.not_wifexited] at hstatus
    cases hstatus
  have hchanged : σ.changed = false := by
    by_contra hchanged
    exact hnot (halive.changed (by simpa using hchanged))
  exact inv_exiting rfl
    ⟨hcode, halive.exits, halive.exited, hchanged, halive.mapped, if_pos hstatus, hapart⟩

theorem Inv.markExit (h : σ.Inv) (hchild : σ.child = .exiting code) :
    Inv { σ with exited := true, changed := true, child := .gone code } := by
  obtain ⟨hcode, hend⟩ := (inv_of_exiting hchild).mp h
  exact inv_gone rfl ⟨hcode, .inl ⟨hend.exits, rfl, hend.status, hend.apart, .inl hend.mapped⟩⟩

theorem Inv.takeExited (h : σ.Inv) (hparent : σ.parent = .checking options) : Inv { σ with
      exited := false
      mapped := σ.mapped && !σ.exited
      parent := .taking options } := by
  have hapart : σ.Apart := by
    rw [Apart, hparent]
    trivial
  have hkept : σ.mapped = true → σ.exited = false → (σ.mapped && !σ.exited) = true := by
    intro hmapped hexited
    rw [hmapped, hexited]
    rfl
  rcases σ.child_cases with hchild | hchild | ⟨code, hchild⟩ | ⟨code, hchild⟩
  · have halive := (inv_of_running hchild).mp h
    exact inv_running hchild ⟨hkept halive.mapped halive.exited, rfl, halive.exits,
      halive.status, halive.changed, fun hnot => absurd trivial hnot, nofun, nofun⟩
  · obtain ⟨halive, htold, -⟩ := (inv_of_marking hchild).mp h
    exact inv_marking hchild ⟨⟨hkept halive.mapped halive.exited, rfl, halive.exits,
      halive.status, halive.changed, fun hnot => absurd trivial hnot, nofun, nofun⟩, htold, trivial⟩
  · obtain ⟨hcode, hend⟩ := (inv_of_exiting hchild).mp h
    exact inv_exiting hchild ⟨hcode, hend.exits, rfl, hend.changed,
      hkept hend.mapped hend.exited, hend.status, trivial⟩
  · refine inv_gone hchild ?_
    obtain ⟨hcode, hopen | htaken | hdone⟩ := (inv_of_gone hchild).mp h
    · exact ⟨hcode, .inl ⟨hopen.exits, hopen.changed, hopen.status, trivial, .inr ⟨options, rfl⟩⟩⟩
    · exact absurd hapart htaken.not_apart
    · exact ⟨hcode, .inr (.inr ⟨hdone.exits, hdone.changed, trivial⟩)⟩

theorem Inv.takeChanged (h : σ.Inv) (options : Options)
    (hchanged : σ.changed = true) (hcareful : σ.child ≠ .marking) :
    Inv { σ with changed := false, parent := .reading options } := by
  rcases σ.child_cases with hchild | hchild | ⟨code, hchild⟩ | ⟨code, hchild⟩
  · have halive := (inv_of_running hchild).mp h
    exact inv_running hchild ⟨halive.mapped, halive.exited, halive.exits, halive.status,
      nofun, fun _ => rfl, fun _ _ => halive.changed hchanged, nofun⟩
  · exact absurd hchild hcareful
  · obtain ⟨-, hend⟩ := (inv_of_exiting hchild).mp h
    exact absurd (hchanged.symm.trans hend.changed) (by decide)
  · refine inv_gone hchild ?_
    obtain ⟨hcode, hopen | htaken | hdone⟩ := (inv_of_gone hchild).mp h
    · exact ⟨hcode, .inr (.inl ⟨hopen.exits, rfl, .inl ⟨options, rfl, hopen.status⟩⟩)⟩
    · exact absurd (hchanged.symm.trans htaken.changed) (by decide)
    · exact absurd (hchanged.symm.trans hdone.changed) (by decide)

theorem apart_returnZero (σ : State) (options : Options) : (σ.returnZero options).Apart := by
  unfold returnZero Apart
  dsimp only
  split
  · next h => split at h <;> cases h
  · next h => split at h <;> cases h
  · trivial

/-- While the parent is at the status word, the child is running or its exit has been taken. -/
theorem Inv.of_busy (h : σ.Inv) (hbusy : ¬ σ.Apart) : σ.child = .running ∧ σ.Alive ∨
    ∃ code, σ.child = .gone code ∧ code < 256 ∧ σ.Taken code := by
  rcases σ.child_cases with hchild | hchild | ⟨code, hchild⟩ | ⟨code, hchild⟩
  · exact .inl ⟨hchild, (inv_of_running hchild).mp h⟩
  · obtain ⟨-, -, hapart⟩ := (inv_of_marking hchild).mp h
    exact absurd hapart hbusy
  · obtain ⟨-, hend⟩ := (inv_of_exiting hchild).mp h
    exact absurd hend.apart hbusy
  · obtain ⟨hcode, hopen | htaken | hdone⟩ := (inv_of_gone hchild).mp h
    · exact absurd hopen.apart hbusy
    · exact .inr ⟨code, hchild, hcode, htaken⟩
    · exact absurd hdone.apart hbusy

/-- The status word is read: that of a continuation may not be asked for, that of the exit always
is. -/
theorem Inv.readStatus (h : σ.Inv) (hparent : σ.parent = .reading options)
    (hexec : σ.exec .readStatus = some τ) : τ.Inv := by
  have hbusy : ¬ σ.Apart := by
    rw [Apart, hparent]
    exact id
  simp only [exec, hparent] at hexec
  obtain ⟨hchild, halive⟩ | ⟨code, hchild, hcode, htaken⟩ := h.of_busy hbusy
  · have hzero : (σ.returnZero options).Inv :=
      inv_running hchild (halive.park (apart_returnZero σ options))
    split at hexec
    · obtain rfl := some.inj hexec
      exact hzero
    split at hexec
    · obtain rfl := some.inj hexec
      exact hzero
    · obtain rfl := some.inj hexec
      refine inv_running hchild ⟨halive.mapped, halive.exited, halive.exits, halive.status,
        halive.changed, fun _ => halive.busy hbusy, nofun, fun status hclearing => ?_⟩
      exact ⟨Parent.clearing.inj hclearing, halive.reading options hparent⟩
  · have hstatus : σ.status = exitStatus code := by
      rcases htaken.parent with ⟨-, -, hstatus⟩ | hclearing
      · exact hstatus
      · cases hparent.symm.trans hclearing
    obtain ⟨hstopped, hcontinued⟩ := exitStatus_plain hcode
    rw [hstatus, hstopped, hcontinued] at hexec
    obtain rfl := some.inj hexec
    exact inv_gone hchild ⟨hcode, .inr (.inl ⟨htaken.exits, htaken.changed, .inr rfl⟩)⟩

theorem Inv.clear (h : σ.Inv) {status : ℕ} (hparent : σ.parent = .clearing status) :
    Inv { σ with status := 0, parent := .idle, reports := σ.reports ++ [status] } := by
  have hbusy : ¬ σ.Apart := by
    rw [Apart, hparent]
    exact id
  obtain ⟨hchild, halive⟩ | ⟨code, hchild, hcode, htaken⟩ := h.of_busy hbusy
  · obtain ⟨hstatus, htold⟩ := halive.clearing status hparent
    have hchanged := halive.busy hbusy
    refine inv_running hchild ⟨halive.mapped, halive.exited, ?_, .inl rfl, ?_,
      fun _ => hchanged, nofun, nofun⟩
    · have hexits : σ.reports.filter wifexited = [] := halive.exits
      have hnot : wifexited status = false := hstatus ▸ htold.not_wifexited
      simp [exits, hexits, hnot]
    · intro hset
      exact absurd (hset.symm.trans hchanged) (by decide)
  · obtain rfl : status = exitStatus code := by
      rcases htaken.parent with ⟨options, hreading, -⟩ | hclearing
      · cases hparent.symm.trans hreading
      · exact Parent.clearing.inj (hparent.symm.trans hclearing)
    refine inv_gone hchild ⟨hcode, .inr (.inr ⟨?_, htaken.changed, trivial⟩)⟩
    have hexits : σ.reports.filter wifexited = [] := htaken.exits
    simp [exits, hexits, wifexited_exitStatus hcode]

open State

/-- **Careful steps keep the exit.** -/
theorem Inv.exec (h : σ.Inv) (hcareful : σ.Careful e) (hexec : σ.exec e = some τ) : τ.Inv := by
  cases e with
  | stop =>
    obtain ⟨hchild, rfl⟩ := ite_some_none_eq_some.mp hexec
    exact h.tell hchild hcareful (.inl rfl)
  | cont =>
    obtain ⟨hchild, rfl⟩ := ite_some_none_eq_some.mp hexec
    exact h.tell hchild hcareful (.inr rfl)
  | mark =>
    obtain ⟨hchild, rfl⟩ := ite_some_none_eq_some.mp hexec
    exact h.mark hchild
  | exit code =>
    obtain ⟨hchild, rfl⟩ := ite_some_none_eq_some.mp hexec
    exact h.exit hchild.1 hchild.2 hcareful.1 hcareful.2
  | markExit =>
    rw [exec] at hexec
    split at hexec
    · next code hchild =>
      obtain rfl := some.inj hexec
      exact h.markExit hchild
    · cases hexec
  | call options =>
    obtain ⟨hparent, rfl⟩ := ite_some_none_eq_some.mp hexec
    exact h.move (by rw [hparent]; trivial) trivial
  | lookup =>
    rw [exec] at hexec
    split at hexec
    · next options hparent =>
      obtain rfl := some.inj hexec
      refine h.move (by rw [hparent]; trivial) ?_
      unfold Apart
      cases σ.mapped <;> trivial
    · cases hexec
  | sleep =>
    rw [exec] at hexec
    split at hexec
    · next options ready hparent =>
      obtain rfl := some.inj hexec
      refine h.move (by rw [hparent]; trivial) ?_
      unfold Apart
      cases ready || options.nohang <;> trivial
    · cases hexec
  | wake =>
    rw [exec] at hexec
    split at hexec
    · next options hparent =>
      obtain rfl := some.inj hexec
      exact h.move (by rw [hparent]; trivial) trivial
    · cases hexec
  | cleanup interrupted =>
    rw [exec] at hexec
    split at hexec
    · next options hparent =>
      obtain rfl := some.inj hexec
      refine h.move (by rw [hparent]; trivial) ?_
      unfold Apart
      cases interrupted <;> trivial
    · cases hexec
  | takeExited =>
    rw [exec] at hexec
    split at hexec
    · next options hparent =>
      obtain rfl := some.inj hexec
      exact h.takeExited hparent
    · cases hexec
  | takeChanged =>
    rw [exec] at hexec
    split at hexec
    · next options hparent =>
      split at hexec
      · next hchanged =>
        obtain rfl := some.inj hexec
        refine h.takeChanged options hchanged fun hchild => ?_
        exact absurd (hchanged.symm.trans (hcareful hchild)) (by decide)
      · next hchanged =>
        obtain rfl := some.inj hexec
        refine h.park ?_ (.inl (by simpa using hchanged)) (apart_returnZero σ options)
        rw [Apart, hparent]
        trivial
    · cases hexec
  | readStatus =>
    have hexec' := hexec
    rw [exec] at hexec'
    split at hexec'
    · next options hparent => exact h.readStatus hparent hexec
    · cases hexec'
  | clear =>
    rw [exec] at hexec
    split at hexec
    · next status hparent =>
      obtain rfl := some.inj hexec
      exact h.clear hparent
    · cases hexec

/-- **A call reports the exit** of a child that has recorded it. -/
theorem exec_call (hcode : code < 256) (hparent : σ.parent = .idle) (hmapped : σ.mapped = true)
    (hchanged : σ.changed = true) (hstatus : σ.status = exitStatus code) (options : Options) :
    ∃ τ, σ.wait4 options = some τ ∧ τ.reports = σ.reports ++ [exitStatus code] := by
  obtain ⟨hstopped, hcontinued⟩ := exitStatus_plain hcode
  obtain ⟨status, exited, changed, mapped, child, parent, reports⟩ := σ
  dsimp only at hparent hmapped hchanged hstatus
  subst hparent hmapped hchanged hstatus
  -- the state during the call, before and after the flags are taken
  let before (parent : Parent) : State :=
    ⟨exitStatus code, exited, true, true, child, parent, reports⟩
  let after (changed : Bool) (parent : Parent) : State :=
    ⟨exitStatus code, false, changed, !exited, child, parent, reports⟩
  have hcall : (before .idle).exec (.call options) = some (before (.begin options)) := rfl
  have hlookup : (before (.begin options)).exec .lookup = some (before (.started options true)) :=
    rfl
  have hsleep : (before (.started options true)).exec .sleep = some (before (.awake options)) := rfl
  have hcleanup : (before (.awake options)).exec (.cleanup false) =
      some (before (.checking options)) := rfl
  have hexited : (before (.checking options)).exec .takeExited =
      some (after true (.taking options)) := rfl
  have htaken : (after true (.taking options)).exec .takeChanged =
      some (after false (.reading options)) := rfl
  have hread : (after false (.reading options)).exec .readStatus =
      some (after false (.clearing (exitStatus code))) := by
    simp only [exec, after, hstopped, hcontinued, Bool.false_and, Bool.false_eq_true,
      if_false]
  have hclear : (after false (.clearing (exitStatus code))).exec .clear =
      some ⟨0, false, false, !exited, child, .idle, reports ++ [exitStatus code]⟩ := rfl
  refine ⟨⟨0, false, false, !exited, child, .idle, reports ++ [exitStatus code]⟩, ?_, rfl⟩
  exact (foldlM_cons_some hcall).trans <| (foldlM_cons_some hlookup).trans <|
    (foldlM_cons_some hsleep).trans <| (foldlM_cons_some hcleanup).trans <|
    (foldlM_cons_some hexited).trans <| (foldlM_cons_some htaken).trans <|
    (foldlM_cons_some hread).trans <| foldlM_cons_some hclear

theorem Inv.exitOnce (h : σ.Inv) : σ.ExitOnce := by
  refine ⟨fun hchild => ((inv_of_running hchild).mp h).exits, fun code hchild => ?_⟩
  obtain ⟨hcode, hopen | htaken | hdone⟩ := (inv_of_gone hchild).mp h
  · refine .inl ⟨hopen.exits, hopen.changed, hopen.status, fun hparent options => ?_⟩
    have hmapped : σ.mapped = true := by
      rcases hopen.mapped with hmapped | ⟨options, hat⟩
      · exact hmapped
      · cases hparent.symm.trans hat
    exact exec_call hcode hparent hmapped hopen.changed hopen.status options
  · exact .inr (.inl ⟨htaken.exits, htaken.parent⟩)
  · exact .inr (.inr ⟨hdone.exits, wexitstatus_exitStatus hcode⟩)

theorem inv_init : init.Inv :=
  ⟨rfl, rfl, rfl, .inl rfl, nofun, fun hnot => absurd trivial hnot, nofun, nofun⟩

end Steps

end State

open State in
/-- **The exit of a child is reported once**, in runs whose steps are careful. -/
theorem exit_reported_once {run : List (Event × State)}
    (hrun : Along (fun σ e τ => σ.exec e = some τ) init run)
    (hcareful : Along (fun σ e _ => σ.Careful e) init run) : After ExitOnce init run :=
  (hrun.after (fun _ _ _ h hexec hc => h.exec hc hexec) inv_init hcareful).mono
    fun _ h => h.exitOnce

theorem stop_continue_exit : ∃ run : List (Event × State),
    run.map Prod.fst = [.stop, .mark, .call ⟨false, true, true⟩, .lookup, .sleep, .cleanup false,
      .takeExited, .takeChanged, .readStatus, .clear, .exit 3, .markExit,
      .call ⟨true, false, false⟩, .lookup, .sleep, .cleanup false, .takeExited, .takeChanged,
      .readStatus, .clear] ∧
    After State.ExitOnce .init run ∧ (final .init run).reports = [0x7f, 3 <<< 8] := by
  refine (exists_run State.exec State.Careful (fun σ => σ.reports = [0x7f, 3 <<< 8]) .init _
    (by decide +kernel)).imp fun run ⟨hevents, hrun, hgoal⟩ => ⟨hevents, ?_, hgoal⟩
  exact exit_reported_once (hrun.mono fun _ _ _ => And.right) (hrun.mono fun _ _ _ => And.left)

/-- **The exit of a child that was continued is lost.** Its code is not written, because the status
word says something else, and a call without `WCONTINUED` takes both flags and returns nothing. -/
theorem exit_lost : ∃ run : List (Event × State),
    run.map Prod.fst =
      [.cont, .mark, .exit 3, .markExit, .call ⟨false, false, false⟩, .lookup, .sleep,
      .cleanup false, .takeExited, .takeChanged, .readStatus, .lookup] ∧
    Along (fun σ e τ => σ.exec e = some τ) .init run ∧ (final .init run).reports = [] ∧
    ¬ (final .init run).ExitOnce := by
  refine (exists_run State.exec (fun _ _ => True)
    (fun σ => σ.child = .gone 3 ∧ σ.changed = false ∧ σ.parent = .idle ∧ σ.reports = []) .init _
    (by decide +kernel)).imp fun run ⟨hevents, hrun, hchild, hchanged, hparent, hreports⟩ =>
    ⟨hevents, hrun.mono fun _ _ _ => And.right, hreports, fun honce => ?_⟩
  rcases honce.2 3 hchild with ⟨-, hset, -⟩ | ⟨-, ⟨options, hreading, -⟩ | hclearing⟩ | ⟨hexits, -⟩
  · exact absurd (hset.symm.trans hchanged) (by decide)
  · cases hparent.symm.trans hreading
  · cases hparent.symm.trans hclearing
  · rw [State.exits, hreports] at hexits
    cases hexits

end SeaKernel.Wait
