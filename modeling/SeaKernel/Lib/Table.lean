import Mathlib.Tactic

/-!
# Tables

A table is a list of entries, each with its key. An entry is not inserted if its key is there
already, and deleting a key deletes the first entry with it, so that the keys of a table that grows
by insertion are different from each other; `List.lookup` finds the entries of such a table.

## Main definitions

* `tableLookup`, `tableInsert`, `tableDelete`

## Main results

* `lookup_eq_some`: what is found is what is in the table
* `mem_tableInsert`, `mem_tableDelete`: what is in the table afterwards
* `lookup_tableInsert`, `lookup_tableDelete_of_ne`: what is found afterwards
-/

namespace SeaKernel

open List Option

variable {κ α : Type*} [DecidableEq κ]

/-- The entry with the key. -/
abbrev tableLookup (table : List (κ × α)) (k : κ) : Option α := table.lookup k

/-- The entry is inserted, unless there is one with its key. -/
def tableInsert (table : List (κ × α)) (k : κ) (a : α) : List (κ × α) :=
  if (table.lookup k).isSome then table else (k, a) :: table

/-- The first entry with the key is deleted. -/
def tableDelete (table : List (κ × α)) (k : κ) : List (κ × α) := table.eraseP fun e => e.1 == k

variable {table : List (κ × α)} {k l : κ} {a b : α}

theorem lookup_eq_none : table.lookup k = none ↔ ∀ a, (k, a) ∉ table := by
  induction table with
  | nil => simp
  | cons e table ih =>
    obtain ⟨l, b⟩ := e
    by_cases hk : k = l
    · subst hk
      simp only [lookup_cons, BEq.rfl, reduceCtorEq, false_iff, not_forall, not_not]
      exact ⟨b, mem_cons_self⟩
    · rw [lookup_cons, beq_false_of_ne hk, ih]
      simp [hk]

/-- **What is found is in the table.** -/
theorem lookup_eq_some (hkeys : (table.map Prod.fst).Nodup) :
    table.lookup k = some a ↔ (k, a) ∈ table := by
  induction table with
  | nil => simp
  | cons e table ih =>
    obtain ⟨l, b⟩ := e
    rw [map_cons, nodup_cons] at hkeys
    by_cases hk : k = l
    · subst hk
      have hnot : (k, a) ∉ table := fun hmem => hkeys.1 (mem_map.mpr ⟨_, hmem, rfl⟩)
      simp only [lookup_cons, BEq.rfl, mem_cons, Prod.mk.injEq, true_and, hnot, or_false,
        some.injEq]
      exact eq_comm
    · rw [lookup_cons, beq_false_of_ne hk, ih hkeys.2]
      simp [hk]

theorem mem_tableInsert (hk : table.lookup k = none) :
    (l, b) ∈ tableInsert table k a ↔ (l, b) = (k, a) ∨ (l, b) ∈ table := by
  rw [tableInsert, hk, if_neg (by simp), mem_cons]

theorem lookup_tableInsert (hk : table.lookup k = none) :
    (tableInsert table k a).lookup l = if l = k then some a else table.lookup l := by
  rw [tableInsert, hk, if_neg (by simp), lookup_cons]
  by_cases hl : l = k
  · simp [hl]
  · rw [beq_false_of_ne hl, if_neg hl]

theorem lookup_tableInsert_of_ne (hl : l ≠ k) :
    (tableInsert table k a).lookup l = table.lookup l := by
  unfold tableInsert
  split
  · rfl
  · rw [lookup_cons, beq_false_of_ne hl]

theorem lookup_tableInsert_of_some (h : table.lookup l = some b) :
    (tableInsert table k a).lookup l = some b := by
  by_cases hl : l = k
  · subst hl
    rw [tableInsert, h, if_pos (by simp), h]
  · rw [lookup_tableInsert_of_ne hl, h]

variable (hkeys : (table.map Prod.fst).Nodup)

include hkeys

theorem nodup_tableInsert : ((tableInsert table k a).map Prod.fst).Nodup := by
  unfold tableInsert
  split
  · exact hkeys
  · next hnone =>
    rw [map_cons, nodup_cons]
    refine ⟨fun hmem => ?_, hkeys⟩
    obtain ⟨⟨l, b⟩, he, rfl⟩ := mem_map.mp hmem
    rw [(lookup_eq_some hkeys).mpr he] at hnone
    exact hnone rfl

theorem mem_tableDelete : (l, b) ∈ tableDelete table k ↔ l ≠ k ∧ (l, b) ∈ table := by
  unfold tableDelete
  induction table with
  | nil => simp
  | cons e table ih =>
    obtain ⟨j, c⟩ := e
    rw [map_cons, nodup_cons] at hkeys
    by_cases hj : j = k
    · subst hj
      rw [eraseP_cons_of_pos (by simp)]
      have hne : (l, b) ∈ table → l ≠ j := by
        rintro hmem rfl
        exact hkeys.1 (mem_map.mpr ⟨_, hmem, rfl⟩)
      simp only [mem_cons, Prod.mk.injEq]
      tauto
    · rw [eraseP_cons_of_neg (by simpa using hj), mem_cons, ih hkeys.2, mem_cons]
      have hne : (l, b) = (j, c) → l ≠ k := by
        rintro heq rfl
        exact hj (congrArg Prod.fst heq).symm
      tauto

theorem nodup_tableDelete : ((tableDelete table k).map Prod.fst).Nodup :=
  hkeys.sublist (eraseP_sublist.map _)

omit hkeys in
theorem lookup_tableDelete_of_ne (hl : l ≠ k) :
    (tableDelete table k).lookup l = table.lookup l := by
  unfold tableDelete
  induction table with
  | nil => rfl
  | cons e table ih =>
    obtain ⟨j, c⟩ := e
    by_cases hj : j = k
    · subst hj
      rw [eraseP_cons_of_pos (by simp), lookup_cons, beq_false_of_ne hl]
    · rw [eraseP_cons_of_neg (by simpa using hj), lookup_cons, lookup_cons, ih]

theorem lookup_tableDelete : (tableDelete table k).lookup k = none := by
  rw [lookup_eq_none]
  intro a ha
  exact ((mem_tableDelete hkeys).mp ha).1 rfl

end SeaKernel
