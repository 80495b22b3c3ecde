import Mathlib.Data.Set.Card
import Mathlib.Tactic

/-!
# Reference counts

Slots hold references to resources, and each resource has a count. A count is *sound* if it is at
least the number of slots that refer to the resource; a resource has a *spare* reference if the
count exceeds that number. A reference is taken by counting it first and storing it afterwards, and
given back in the opposite order: in between it is spare. Where no reference may be lost either,
the counts are *balanced*: each one is the number of slots plus the references that are counted and
not stored at the moment.

## Main definitions

* `Counted slot count`: every count is sound
* `Spare slot count r`: a reference to `r` is counted and not stored
* `Balanced base pending slot count`: every count is exact

## Main results

* `Counted.acquire`, `Spare.store`: taking a reference
* `Counted.clear`, `Spare.release`: giving it back
* `Counted.not_held`: a resource with count zero is in no slot
* `Balanced.acquire`, `Balanced.store`, `Balanced.clear`, `Balanced.release`: the same with exact
  counts
-/

namespace SeaKernel

open Function Nat Multiset Set

variable {H R : Type*}

/-- The slots that refer to the resource. -/
def holders (slot : H → Option R) (r : R) : Set H := {h | slot h = some r}

/-- Every resource is counted at least as often as it is held. -/
def Counted (slot : H → Option R) (count : R → ℕ) : Prop := ∀ r, (holders slot r).encard ≤ count r

/-- The resource is counted more often than it is held. -/
def Spare (slot : H → Option R) (count : R → ℕ) (r : R) : Prop :=
  (holders slot r).encard + 1 ≤ count r

variable {slot : H → Option R} {count : R → ℕ} {h : H} {r q : R}

theorem Counted.not_held (hc : Counted slot count) (hr : count r = 0) (h : H) :
    slot h ≠ some r := by
  intro hh
  have hzero : (holders slot r).encard ≤ 0 := by simpa [hr] using hc r
  have hempty : holders slot r = ∅ := encard_eq_zero.mp (nonpos_iff_eq_zero.mp hzero)
  exact eq_empty_iff_forall_notMem.mp hempty h hh

section Count

variable [DecidableEq R]

theorem Counted.acquire (hc : Counted slot count) (r : R) :
    Counted slot (update count r (count r + 1)) ∧ Spare slot (update count r (count r + 1)) r := by
  constructor
  · intro q
    by_cases hq : q = r
    · subst hq
      rw [update_self]
      exact (hc q).trans (by exact_mod_cast le_succ _)
    · rw [update_of_ne hq]
      exact hc q
  · rw [Spare, update_self]
    exact_mod_cast add_le_add_left (hc r) 1

theorem Counted.update_of_not_held (hc : Counted slot count) (hr : ∀ h, slot h ≠ some r) (n : ℕ) :
    Counted slot (update count r n) ∧ (0 < n → Spare slot (update count r n) r) := by
  have hempty : holders slot r = ∅ := eq_empty_iff_forall_notMem.mpr hr
  constructor
  · intro q
    by_cases hq : q = r
    · subst hq
      simp [hempty]
    · rw [update_of_ne hq]
      exact hc q
  · intro hn
    rw [Spare, hempty, encard_empty, zero_add, update_self]
    exact_mod_cast hn

theorem Spare.release (hs : Spare slot count r) (hc : Counted slot count) :
    0 < count r ∧ Counted slot (update count r (count r - 1)) := by
  have hpos : 0 < count r := by
    have hone : (1 : ℕ∞) ≤ count r := le_trans le_add_self hs
    exact_mod_cast hone
  refine ⟨hpos, fun q => ?_⟩
  by_cases hq : q = r
  · subst hq
    rw [update_self]
    have hcount : ((count q - 1 : ℕ) : ℕ∞) + 1 = count q := by
      exact_mod_cast Nat.sub_add_cancel hpos
    rw [Spare, ← hcount] at hs
    exact (ENat.add_le_add_iff_right ENat.one_ne_top).mp hs
  · rw [update_of_ne hq]
    exact hc q

end Count

section Slots

variable [DecidableEq H]

theorem holders_update_some (slot : H → Option R) (h : H) (r : R) :
    holders (update slot h (some r)) r = insert h (holders slot r) := by
  ext x
  by_cases hx : x = h
  · subst hx
    simp [holders]
  · simp [holders, hx]

theorem holders_update_none (slot : H → Option R) (h : H) (r : R) :
    holders (update slot h none) r = holders slot r \ {h} := by
  ext x
  by_cases hx : x = h
  · subst hx
    simp [holders]
  · simp [holders, hx]

theorem holders_update_ne (hq : q ≠ r) (hh : slot h = none) :
    holders (update slot h (some r)) q = holders slot q := by
  ext x
  by_cases hx : x = h
  · subst hx
    simp [holders, hh, hq.symm]
  · simp [holders, hx]

theorem Spare.store (hs : Spare slot count r) (hc : Counted slot count) (hh : slot h = none) :
    Counted (update slot h (some r)) count := by
  intro q
  by_cases hq : q = r
  · subst hq
    rw [holders_update_some]
    exact (encard_insert_le _ _).trans hs
  · rw [holders_update_ne hq hh]
    exact hc q

theorem Spare.store_ne (hs : Spare slot count q) (hq : q ≠ r) (hh : slot h = none) :
    Spare (update slot h (some r)) count q := by
  rw [Spare, holders_update_ne hq hh]
  exact hs

theorem Counted.clear (hc : Counted slot count) (hh : slot h = some r) :
    Counted (update slot h none) count ∧ Spare (update slot h none) count r := by
  constructor
  · intro q
    rw [holders_update_none]
    exact (encard_le_encard sdiff_subset).trans (hc q)
  · have hmem : h ∈ holders slot r := hh
    rw [Spare, holders_update_none, encard_sdiff_singleton_add_one hmem]
    exact hc r

theorem Spare.clear (hs : Spare slot count q) : Spare (update slot h none) count q := by
  rw [Spare, holders_update_none]
  exact (add_le_add_left (encard_le_encard sdiff_subset) 1).trans hs

end Slots

/-! ## Exact counts -/

/-- Every count is the number of slots that refer to the resource, with the references that are
counted and not stored, and what the count was at the beginning. -/
def Balanced (base : R → ℕ) (pending : Multiset R) [DecidableEq R] (slot : H → Option R)
    (count : R → ℕ) : Prop :=
  ∀ r, (holders slot r).encard + pending.count r + base r = count r

section Balanced

variable [DecidableEq R] {base : R → ℕ} {pending : Multiset R}

theorem Balanced.acquire (h : Balanced base pending slot count) (r : R) :
    Balanced base (r ::ₘ pending) slot (update count r (count r + 1)) := by
  intro q
  by_cases hq : q = r
  · subst hq
    rw [update_self, count_cons_self, cast_add, cast_add, ← h q]
    ring
  · rw [update_of_ne hq, count_cons_of_ne hq]
    exact h q

theorem Balanced.release (h : Balanced base (r ::ₘ pending) slot count) :
    0 < count r ∧ Balanced base pending slot (update count r (count r - 1)) := by
  have hr := h r
  rw [count_cons_self] at hr
  have hpos : 0 < count r := by
    have hone : (1 : ℕ∞) ≤ count r := by
      rw [← hr, Nat.cast_add, Nat.cast_one]
      exact le_add_right (le_add_left le_add_self)
    exact_mod_cast hone
  refine ⟨hpos, fun q => ?_⟩
  by_cases hq : q = r
  · subst hq
    rw [update_self]
    have hcount : ((count q - 1 : ℕ) : ℕ∞) + 1 = count q := by
      exact_mod_cast Nat.sub_add_cancel hpos
    apply ENat.add_left_injective_of_ne_top ENat.one_ne_top
    dsimp only
    rw [hcount, ← hr, Nat.cast_add, Nat.cast_one]
    ring
  · have hq' := h q
    rw [count_cons_of_ne hq] at hq'
    rw [update_of_ne hq]
    exact hq'

theorem Balanced.count_eq (h : Balanced base 0 slot count) (hr : base r = 0) :
    (holders slot r).encard = count r := by
  rw [← h r, hr]
  simp

theorem Balanced.not_held (h : Balanced base pending slot count) (hr : count r = 0) (x : H) :
    slot x ≠ some r := by
  have hcounted : Counted slot count := fun q => by
    rw [← h q, add_assoc]
    exact le_self_add
  exact hcounted.not_held hr x

theorem Balanced.count_eq_zero (h : Balanced base 0 slot count) (hr : base r = 0) :
    count r = 0 ↔ ∀ x, slot x ≠ some r := by
  refine ⟨h.not_held, fun hheld => ?_⟩
  have hempty : holders slot r = ∅ := eq_empty_iff_forall_notMem.mpr hheld
  have hcount := h.count_eq hr
  rw [hempty, encard_empty] at hcount
  exact_mod_cast hcount.symm

variable [DecidableEq H] {x : H}

theorem Balanced.store (h : Balanced base (r ::ₘ pending) slot count) (hx : slot x = none) :
    Balanced base pending (update slot x (some r)) count := by
  intro q
  have hq := h q
  by_cases hqr : q = r
  · subst hqr
    have hmem : x ∉ holders slot q := by
      intro hmem
      rw [holders, mem_ofPred_eq, hx] at hmem
      cases hmem
    rw [count_cons_self, cast_add, cast_one] at hq
    rw [holders_update_some, encard_insert_of_notMem hmem, ← hq]
    ring
  · rw [count_cons_of_ne hqr] at hq
    rw [holders_update_ne hqr hx]
    exact hq

theorem Balanced.clear (h : Balanced base pending slot count) (hx : slot x = some r) :
    Balanced base (r ::ₘ pending) (update slot x none) count := by
  intro q
  have hq := h q
  rw [holders_update_none]
  by_cases hqr : q = r
  · subst hqr
    have hmem : x ∈ holders slot q := hx
    rw [← encard_sdiff_singleton_add_one hmem] at hq
    rw [count_cons_self, cast_add, cast_one, ← hq]
    ring
  · have hmem : x ∉ holders slot q := by
      intro hmem
      rw [holders, mem_ofPred_eq, hx] at hmem
      exact hqr (Option.some.inj hmem).symm
    rw [count_cons_of_ne hqr, sdiff_singleton_eq_self hmem]
    exact hq

theorem Balanced.replace (h : Balanced base (q ::ₘ pending) slot count) (hx : slot x = some r) :
    Balanced base (r ::ₘ pending) (update slot x (some q)) count := by
  have hclear := h.clear hx
  rw [cons_swap] at hclear
  have hstore := hclear.store (update_self ..)
  rwa [update_idem] at hstore

end Balanced

end SeaKernel
