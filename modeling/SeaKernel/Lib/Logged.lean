import Mathlib.Tactic

/-!
# Logged computations

A computation that records events and may not come to an end: its log, and its result if it has
one. A loop that is cut off after a number of rounds has the log of these rounds and no result.
Composition runs the second computation only on the result of the first.

## Main definitions

* `Logged ε α`: a log of events `ε`, and a result `α` if the computation has ended
* `Logged.observe`, `Logged.tell`, `Logged.stuck`: one event, with a result or without, and a
  computation that does not end
* `Logged.Each p`: every event of the log has the property
* `Logged.kept q`: the events of the log that the test selects

## Main results

* `Logged.each_bind`, `Logged.kept_bind`: composition, for both
-/

namespace SeaKernel

/-- A computation with the events it has recorded, and its result if it has ended. -/
def Logged (ε α : Type) : Type := List ε × Option α

namespace Logged

variable {ε α β : Type}

/-- The events that a computation has recorded. -/
def log (x : Logged ε α) : List ε := x.1

/-- The result of a computation that has ended. -/
def result (x : Logged ε α) : Option α := x.2

instance : Monad (Logged ε) where
  pure a := ([], some a)
  bind x f :=
    match x.result with
    | none => (x.log, none)
    | some a => (x.log ++ (f a).log, (f a).result)

/-- A computation that records one event and has the given result. -/
def observe (e : ε) (a : α) : Logged ε α := ([e], some a)

/-- A computation that records one event. -/
abbrev tell (e : ε) : Logged ε Unit := observe e ()

/-- A computation that does not end. -/
def stuck : Logged ε α := ([], none)

variable {x : Logged ε α} {f : α → Logged ε β} {a : α} {e : ε}

@[simp] theorem result_pure : (pure a : Logged ε α).result = some a := rfl

@[simp] theorem result_observe : (observe e a).result = some a := rfl

@[simp] theorem result_stuck : (stuck : Logged ε α).result = none := rfl

theorem bind_of_none (hx : x.result = none) : x >>= f = (x.log, none) := by
  change (match x.result with
    | none => (x.log, none)
    | some a => (x.log ++ (f a).log, (f a).result)) = _
  rw [hx]

theorem bind_of_some (ha : x.result = some a) : x >>= f = (x.log ++ (f a).log, (f a).result) := by
  change (match x.result with
    | none => (x.log, none)
    | some a => (x.log ++ (f a).log, (f a).result)) = _
  rw [ha]

theorem result_bind : (x >>= f).result = x.result.bind fun a => (f a).result := by
  cases hx : x.result with
  | none =>
    rw [bind_of_none hx]
    rfl
  | some a =>
    rw [bind_of_some hx]
    rfl

theorem result_bind_of_some (ha : x.result = some a) : (x >>= f).result = (f a).result := by
  rw [result_bind, ha]
  rfl

@[simp] theorem result_observe_bind : (observe e a >>= f).result = (f a).result :=
  result_bind_of_some rfl

theorem isSome_bind (h : ∀ a, (f a).result.isSome) : (x >>= f).result.isSome = x.result.isSome := by
  rw [result_bind]
  cases x.result with
  | none => rfl
  | some a => exact h a

theorem log_bind : (x >>= f).log = x.log ++ (x.result.map fun a => (f a).log).getD [] := by
  cases hx : x.result with
  | none =>
    rw [bind_of_none hx]
    exact (List.append_nil _).symm
  | some a =>
    rw [bind_of_some hx]
    rfl

/-! ## A property of every event -/

/-- Every event of the log has the property. -/
def Each (p : ε → Prop) (x : Logged ε α) : Prop := ∀ e ∈ x.log, p e

variable {p : ε → Prop}

theorem Each.mono {p' : ε → Prop} (hx : x.Each p) (h : ∀ e, p e → p' e) : x.Each p' :=
  fun e he => h e (hx e he)

@[simp] theorem each_pure : (pure a : Logged ε α).Each p := nofun

@[simp] theorem each_stuck : (stuck : Logged ε α).Each p := nofun

@[simp] theorem each_observe : (observe e a).Each p ↔ p e := List.forall_mem_singleton

/-- **Every event of a composition has the property** if those of the first part have it and, if it
ends, those of the second. -/
theorem each_bind : (x >>= f).Each p ↔ x.Each p ∧ ∀ a, x.result = some a → (f a).Each p := by
  unfold Each
  rw [log_bind]
  cases x.result <;> simp [or_imp, forall_and]

@[simp] theorem each_observe_bind : (observe e a >>= f).Each p ↔ p e ∧ (f a).Each p := by
  simp [each_bind]

/-! ## The selected events -/

/-- The events of the log that the test selects. -/
def kept (q : ε → Bool) (x : Logged ε α) : List ε := x.log.filter q

variable {q : ε → Bool}

@[simp] theorem kept_pure : (pure a : Logged ε α).kept q = [] := rfl

@[simp] theorem kept_stuck : (stuck : Logged ε α).kept q = [] := rfl

@[simp] theorem kept_observe : (observe e a).kept q = [e].filter q := rfl

/-- **The selected events of a composition** are those of its parts; the second part counts if the
first one ends. -/
theorem kept_bind :
    (x >>= f).kept q = x.kept q ++ (x.result.map fun a => (f a).kept q).getD [] := by
  unfold kept
  rw [log_bind]
  cases x.result <;> simp

theorem kept_bind_of_nil (hx : x.kept q = []) (ha : x.result = some a) :
    (x >>= f).kept q = (f a).kept q := by
  rw [kept_bind, hx, ha]
  rfl

@[simp] theorem kept_observe_bind : (observe e a >>= f).kept q = [e].filter q ++ (f a).kept q :=
  kept_bind

end Logged

end SeaKernel
