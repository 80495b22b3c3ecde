import Mathlib.Algebra.BigOperators.Group.Finset.Basic
import Mathlib.Data.Fintype.Basic
import Mathlib.Tactic

/-!
# Threads

A finite number of threads, each with a local state. What a group of threads has in flight is a sum
of their local contributions; when one thread moves, the sum changes by its contribution.

## Main definitions

* `tally f loc`: the sum of the contributions of all threads

## Main results

* `tally_update`, `tally_move`: one thread moves; one hands something to another
* `le_tally`, `add_le_tally`, `exists_of_tally_pos`: a sum and its terms
* `not_shared_of_tally_le_one`: what contributes once is in one place
-/

namespace SeaKernel

open Function Finset

variable {T L : Type*} [Fintype T]

/-- The sum of the contributions of all threads. -/
def tally (f : L → ℕ) (loc : T → L) : ℕ := ∑ t, f (loc t)

variable {f g : L → ℕ} {loc : T → L} {t u : T}

theorem le_tally (f : L → ℕ) (loc : T → L) (t : T) : f (loc t) ≤ tally f loc :=
  single_le_sum (f := fun t => f (loc t)) (fun _ _ => Nat.zero_le _) (mem_univ t)

theorem exists_of_tally_pos (h : 0 < tally f loc) : ∃ t, 0 < f (loc t) := by
  by_contra hnone
  push Not at hnone
  have hzero : tally f loc = 0 :=
    sum_eq_zero fun t _ => Nat.le_zero.mp (hnone t)
  omega

theorem tally_eq_zero (h : ∀ t, f (loc t) = 0) : tally f loc = 0 :=
  sum_eq_zero fun t _ => h t

theorem tally_add (f g : L → ℕ) (loc : T → L) :
    tally (fun x => f x + g x) loc = tally f loc + tally g loc :=
  sum_add_distrib

theorem tally_mono (h : ∀ x, f x ≤ g x) : tally f loc ≤ tally g loc :=
  sum_le_sum fun t _ => h (loc t)

variable [DecidableEq T]

/-- **One thread moves.** -/
theorem tally_update (f : L → ℕ) (loc : T → L) (t : T) (x : L) :
    tally f (update loc t x) + f (loc t) = tally f loc + f x := by
  have hrest : ∑ u ∈ univ.erase t, f (update loc t x u) = ∑ u ∈ univ.erase t, f (loc u) :=
    sum_congr rfl fun u hu => by rw [update_of_ne (ne_of_mem_erase hu)]
  rw [tally, tally, ← add_sum_erase _ _ (mem_univ t),
    ← add_sum_erase _ (fun u => f (loc u)) (mem_univ t), hrest, update_self]
  omega

theorem tally_move {x y : L} {d : ℕ} (htu : t ≠ u) (ht : f (loc t) = f x + d)
    (hu : f y = f (loc u) + d) :
    tally f (update (update loc t x) u y) = tally f loc := by
  have htook := tally_update f loc t x
  have hgave := tally_update f (update loc t x) u y
  rw [update_of_ne htu.symm] at hgave
  omega

theorem add_le_tally (f : L → ℕ) (loc : T → L) (hne : t ≠ u) :
    f (loc t) + f (loc u) ≤ tally f loc := by
  rw [← sum_pair hne (f := fun t => f (loc t))]
  exact sum_le_sum_of_subset (subset_univ _)

theorem not_shared_of_tally_le_one (h : tally f loc ≤ 1) (ht : 0 < f (loc t)) (hu : 0 < f (loc u)) :
    t = u ∧ f (loc t) = 1 := by
  have hle := le_tally f loc t
  refine ⟨?_, by omega⟩
  by_contra hne
  have hpair := add_le_tally f loc hne
  omega

end SeaKernel
