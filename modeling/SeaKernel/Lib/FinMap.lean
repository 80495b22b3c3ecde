import Mathlib.Data.List.AList
import Mathlib.Tactic

/-!
# Counting in finite maps

A finite map is an association list with one entry for each key. What is counted in it are the
entries that satisfy a predicate, and a change of one entry changes the count by that entry.

## Main definitions

* `FinMap κ α`: association lists without dependent types
* `FinMap.count p`: the number of entries that satisfy `p`
* `FinMap.restrict keep`: the entries whose keys are kept

## Main results

* `FinMap.count_insert`, `FinMap.count_replace`, `FinMap.count_erase`: one entry changes
* `FinMap.count_pos`: a count is positive if there is such an entry
-/

namespace SeaKernel

open List Option AList

/-- Association lists without dependent types. -/
abbrev FinMap (κ α : Type*) := AList fun _ : κ => α

namespace FinMap

variable {κ α : Type*}

/-- The number of entries that satisfy `p`. -/
def count (p : κ → α → Bool) (m : FinMap κ α) : ℕ := m.entries.countP fun e => p e.1 e.2

/-- The entries whose keys are kept. -/
def restrict (keep : κ → Bool) (m : FinMap κ α) : FinMap κ α :=
  ⟨m.entries.filter fun e => keep e.1, m.nodupKeys.sublist List.filter_sublist⟩

variable [DecidableEq κ] {p : κ → α → Bool} {m : FinMap κ α} {k l : κ} {a : α}

theorem mem_entries : (⟨k, a⟩ : Sigma fun _ : κ => α) ∈ m.entries ↔ m.lookup k = some a :=
  mem_lookup_iff.symm

theorem lookup_insert_eq (k : κ) (a : α) (m : FinMap κ α) (l : κ) :
    (m.insert k a).lookup l = if l = k then some a else m.lookup l := by
  by_cases hl : l = k
  · subst hl
    rw [lookup_insert, if_pos rfl]
  · rw [lookup_insert_ne hl, if_neg hl]

theorem lookup_erase_eq (k : κ) (m : FinMap κ α) (l : κ) :
    (m.erase k).lookup l = if l = k then none else m.lookup l := by
  by_cases hl : l = k
  · subst hl
    rw [lookup_erase, if_pos rfl]
  · rw [lookup_erase_ne hl, if_neg hl]

theorem lookup_insert_eq_some {b : α} :
    (m.insert k a).lookup l = some b ↔ l = k ∧ a = b ∨ l ≠ k ∧ m.lookup l = some b := by
  rw [lookup_insert_eq]
  by_cases hl : l = k <;> simp [hl]

theorem lookup_erase_eq_some : (m.erase k).lookup l = some a ↔ l ≠ k ∧ m.lookup l = some a := by
  rw [lookup_erase_eq]
  by_cases hl : l = k <;> simp [hl]

section

variable (p : κ → α → Bool)

theorem countP_kerase (k : κ) (l : List (Sigma fun _ : κ => α)) :
    (l.kerase k).countP (fun e => p e.1 e.2) + (l.dlookup k).elim 0 (fun a => (p k a).toNat) =
      l.countP fun e => p e.1 e.2 := by
  induction l with
  | nil => rfl
  | cons e l ih =>
    by_cases hk : k = e.1
    · have hkerase : (e :: l).kerase k = l := kerase_cons_eq hk
      have hlookup : (e :: l).dlookup k = some e.2 := by
        subst hk
        exact dlookup_cons_eq l e.1 e.2
      rw [hkerase, hlookup, elim_some, countP_cons, hk]
      cases p e.1 e.2 <;> simp
    · have hkerase : (e :: l).kerase k = e :: l.kerase k := kerase_cons_ne hk
      have hlookup : (e :: l).dlookup k = l.dlookup k := dlookup_cons_ne l e hk
      rw [hkerase, hlookup, countP_cons, countP_cons]
      omega

/-- **An entry is taken out.** -/
theorem count_erase (h : m.lookup k = some a) :
    count p (m.erase k) + (p k a).toNat = count p m := by
  have hcount := countP_kerase p k m.entries
  have hlookup : m.entries.dlookup k = some a := h
  rw [hlookup, elim_some] at hcount
  exact hcount

theorem count_insert_eq (m : FinMap κ α) (k : κ) (a : α) :
    count p (m.insert k a) = count p (m.erase k) + (p k a).toNat := by
  rw [count, entries_insert, countP_cons]
  cases p k a <;> rfl

/-- **An entry is put in** under a new key. -/
theorem count_insert (a : α) (h : m.lookup k = none) :
    count p (m.insert k a) = count p m + (p k a).toNat := by
  have hcount := countP_kerase p k m.entries
  have hlookup : m.entries.dlookup k = none := h
  rw [hlookup, elim_none] at hcount
  rw [count_insert_eq]
  exact congrArg (· + _) hcount

/-- **An entry is changed.** -/
theorem count_replace {b : α} (h : m.lookup k = some b) :
    count p (m.insert k a) + (p k b).toNat = count p m + (p k a).toNat := by
  have herase := count_erase p h
  have hinsert := count_insert_eq p m k a
  omega

end

theorem count_pos : 0 < count p m ↔ ∃ k a, m.lookup k = some a ∧ p k a = true := by
  rw [count, countP_pos_iff]
  constructor
  · rintro ⟨⟨k, a⟩, hmem, hp⟩
    exact ⟨k, a, mem_entries.mp hmem, hp⟩
  · rintro ⟨k, a, hlookup, hp⟩
    exact ⟨⟨k, a⟩, mem_entries.mpr hlookup, hp⟩

theorem count_eq_zero : count p m = 0 ↔ ∀ k a, m.lookup k = some a → p k a = false := by
  rw [← Nat.le_zero, ← not_lt, count_pos]
  push Not
  simp only [ne_eq, Bool.not_eq_true]

theorem restrict_eq_self {keep : κ → Bool} (h : ∀ k a, m.lookup k = some a → keep k = true) :
    m.restrict keep = m :=
  ext (filter_eq_self.mpr fun e he => h e.1 e.2 (mem_entries.mp he))

end FinMap

end SeaKernel
