import Mathlib.Tactic

/-!
# Loops that may not come to an end

A loop whose number of rounds is not bounded is a function of a number of rounds it may take; it
gives nothing if they do not suffice. The loop comes to an end if some number of rounds suffices.

## Main definitions

* `Ends loop s`: the loop comes to an end from `s`

## Main results

* `ends_iff_of_round`: a round that leads from `s` to `t`
* `not_ends_of_inv`: rounds that lead from an invariant to the invariant go on forever
* `ends_of_measure`: rounds that bring down a measure come to an end
-/

namespace SeaKernel

variable {S R : Type*} {loop : ℕ → S → Option R} {s t : S}

/-- The loop comes to an end from `s`. -/
def Ends (loop : ℕ → S → Option R) (s : S) : Prop := ∃ rounds r, loop rounds s = some r

theorem Ends.intro {rounds : ℕ} {r : R} (h : loop rounds s = some r) : Ends loop s :=
  ⟨rounds, r, h⟩

theorem ends_iff_of_round (hzero : loop 0 s = none)
    (hround : ∀ rounds, loop (rounds + 1) s = loop rounds t) : Ends loop s ↔ Ends loop t := by
  constructor
  · rintro ⟨rounds, r, h⟩
    cases rounds with
    | zero => rw [hzero] at h; cases h
    | succ rounds => exact ⟨rounds, r, (hround rounds).symm.trans h⟩
  · rintro ⟨rounds, r, h⟩
    exact ⟨rounds + 1, r, (hround rounds).trans h⟩

/-- **Divergence**: from a state with the invariant, a round leads to a state with the invariant. -/
theorem not_ends_of_inv {I : S → Prop} (hzero : ∀ s, I s → loop 0 s = none)
    (hround : ∀ s, I s → ∃ t, I t ∧ ∀ rounds, loop (rounds + 1) s = loop rounds t) (hs : I s) :
    ¬ Ends loop s := by
  rintro ⟨rounds, r, h⟩
  induction rounds generalizing s with
  | zero =>
    rw [hzero s hs] at h
    cases h
  | succ rounds ih =>
    obtain ⟨t, ht, heq⟩ := hround s hs
    exact ih ht ((heq rounds).symm.trans h)

/-- **Termination**: the loop is done, or a round leads to a state with a smaller measure. -/
theorem ends_of_measure {I : S → Prop} (measure : S → ℕ)
    (hround : ∀ s, I s → Ends loop s ∨
      ∃ t, I t ∧ measure t < measure s ∧ ∀ rounds, loop (rounds + 1) s = loop rounds t)
    (hs : I s) : Ends loop s := by
  induction hm : measure s using Nat.strong_induction_on generalizing s with
  | _ m ih =>
    rcases hround s hs with hdone | ⟨t, ht, hlt, heq⟩
    · exact hdone
    · obtain ⟨rounds, r, h⟩ := ih (measure t) (hm ▸ hlt) ht rfl
      exact ⟨rounds + 1, r, (heq rounds).trans h⟩

end SeaKernel
