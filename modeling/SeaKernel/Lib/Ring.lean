import Mathlib.Tactic

/-!
# Ring buffers

A ring of `w` cells addressed by unbounded positions: position `p` is the cell `p % w`. A ring
holds a list at a position when the cells from there on are its elements in order.

## Main definitions

* `ringWrite w ring p xs`: the elements of `xs` stored from position `p` on
* `ringRead w ring p n`: the `n` cells from position `p` on
* `RingHolds w ring p xs`: the cells from position `p` on are the elements of `xs`

## Main results

* `RingHolds.append`: storing behind what a ring holds extends it while the ring is not full
* `RingHolds.read`: reading gives back what the ring holds
-/

namespace SeaKernel

open Function List Option

variable {α : Type*} {w : ℕ} {ring : ℕ → α} {p q : ℕ} {xs ys : List α}

/-- Store the elements of the list from position `p` on. -/
def ringWrite (w : ℕ) (ring : ℕ → α) : ℕ → List α → ℕ → α
  | _, [] => ring
  | p, x :: xs => ringWrite w (update ring (p % w) x) (p + 1) xs

/-- The `n` cells from position `p` on. -/
def ringRead (w : ℕ) (ring : ℕ → α) (p n : ℕ) : List α :=
  (List.range n).map fun j => ring ((p + j) % w)

/-- The cells from position `p` on are the elements of the list. -/
def RingHolds (w : ℕ) (ring : ℕ → α) (p : ℕ) (xs : List α) : Prop :=
  ∀ j (h : j < xs.length), ring ((p + j) % w) = xs[j]

section

variable (h : p % w = q % w)

include h

theorem add_mod_congr (j : ℕ) : (p + j) % w = (q + j) % w :=
  Nat.ModEq.add_right j h

theorem ringWrite_congr : ringWrite w ring p xs = ringWrite w ring q xs := by
  induction xs generalizing ring p q with
  | nil => rfl
  | cons x xs ih =>
    simp only [ringWrite]
    rw [h, ih (add_mod_congr h 1)]

theorem ringRead_congr (n : ℕ) : ringRead w ring p n = ringRead w ring q n := by
  refine map_congr_left fun j _ => ?_
  rw [add_mod_congr h j]

theorem ringHolds_congr : RingHolds w ring p xs ↔ RingHolds w ring q xs := by
  simp only [RingHolds, add_mod_congr h]

end

theorem ringHolds_nil : RingHolds w ring p ([] : List α) := fun _ h => absurd h (by simp)

@[simp] theorem ringRead_zero : ringRead w ring p 0 = [] := rfl

theorem ringRead_succ (n : ℕ) :
    ringRead w ring p (n + 1) = ring (p % w) :: ringRead w ring (p + 1) n := by
  simp only [ringRead, List.range_succ_eq_map, List.map_cons, List.map_map, Nat.add_zero]
  congr 1
  refine List.map_congr_left fun j _ => ?_
  simp only [comp_apply, Nat.succ_eq_add_one]
  congr 2
  omega

theorem ringWrite_of_ne {c : ℕ} (h : ∀ j < xs.length, (p + j) % w ≠ c) :
    ringWrite w ring p xs c = ring c := by
  induction xs generalizing ring p with
  | nil => rfl
  | cons x xs ih =>
    have htail : ∀ j < xs.length, (p + 1 + j) % w ≠ c := by
      intro j hj
      have := h (j + 1) (by simpa using hj)
      rwa [show p + 1 + j = p + (j + 1) by omega]
    have hhead : c ≠ p % w := by
      have := h 0 (by simp)
      simpa using this.symm
    simp only [ringWrite]
    rw [ih htail, update_of_ne hhead]

theorem mod_ne_of_lt {a b : ℕ} (h : a < b) (hw : b < a + w) : a % w ≠ b % w := by
  intro he
  have hdvd : w ∣ b - a := (Nat.modEq_iff_dvd' h.le).mp he
  have := Nat.le_of_dvd (by omega) hdvd
  omega

theorem ringHolds_ringWrite (ring : ℕ → α) (p : ℕ) (hlen : xs.length ≤ w) :
    RingHolds w (ringWrite w ring p xs) p xs := by
  induction xs generalizing ring p with
  | nil => exact ringHolds_nil
  | cons x xs ih =>
    have hfit : xs.length < w := by simpa [Nat.succ_le_iff] using hlen
    intro j hj
    simp only [ringWrite]
    cases j with
    | zero =>
      rw [Nat.add_zero, ringWrite_of_ne]
      · simp
      · intro k hk
        exact (mod_ne_of_lt (w := w) (by omega) (by omega)).symm
    | succ j =>
      have hj' : j < xs.length := by simpa using hj
      have := ih (update ring (p % w) x) (p + 1) hfit.le j hj'
      rw [show p + (j + 1) = p + 1 + j by omega, this]
      simp

variable (h : RingHolds w ring p xs)

include h

/-- **Storing behind what a ring holds extends it**, as long as both fit the ring. -/
theorem RingHolds.append (hlen : xs.length + ys.length ≤ w) :
    RingHolds w (ringWrite w ring (p + xs.length) ys) p (xs ++ ys) := by
  intro j hj
  by_cases hlt : j < xs.length
  · rw [getElem_append_left hlt, ringWrite_of_ne, h j hlt]
    intro k hk
    exact (mod_ne_of_lt (w := w) (by omega) (by omega)).symm
  · have hj' : j - xs.length < ys.length := by
      rw [length_append] at hj
      omega
    rw [getElem_append_right (by omega)]
    have hys : RingHolds w (ringWrite w ring (p + xs.length) ys) (p + xs.length) ys :=
      ringHolds_ringWrite ring _ (by omega)
    have := hys (j - xs.length) hj'
    rw [← this]
    congr 2
    omega

theorem RingHolds.drop {k : ℕ} (hk : k ≤ xs.length) : RingHolds w ring (p + k) (xs.drop k) := by
  intro j hj
  have hj' : k + j < xs.length := by
    rw [length_drop] at hj
    omega
  rw [getElem_drop, show p + k + j = p + (k + j) by omega, h (k + j) hj']

/-- **Reading gives back what the ring holds.** -/
theorem RingHolds.read {n : ℕ} (hn : n ≤ xs.length) : ringRead w ring p n = xs.take n := by
  refine ext_getElem (by simp [ringRead, hn]) fun j hj _ => ?_
  have hj' : j < n := by simpa [ringRead] using hj
  rw [getElem_take, ← h j (by omega)]
  simp [ringRead]

end SeaKernel
