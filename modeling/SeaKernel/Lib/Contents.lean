import Mathlib.Tactic

/-!
# Growing arrays

An array that is zero from its length on, with the operations of a file: a write anywhere lets it
grow, up to the last element written, and a truncation cuts off what is behind the new length. Below
it, copies into and out of a plain memory.

## Main definitions

* `memcpy buffer start xs`, `memread buffer start n`: copies into and out of a memory
* `Contents`: an array that is zero from its length on
* `Contents.write`, `Contents.truncate`, `Contents.read`: the operations

## Main results

* `Contents.write_append`: a write may be made in pieces
-/

namespace SeaKernel

open List Option

variable {α : Type*}

/-- The memory with the elements of the list stored from `start` on. -/
def memcpy (buffer : ℕ → α) (start : ℕ) (xs : List α) : ℕ → α :=
  fun i => if start ≤ i then xs.getD (i - start) (buffer i) else buffer i

/-- The `n` elements of the memory from `start` on. -/
def memread (buffer : ℕ → α) (start n : ℕ) : List α :=
  (List.range n).map fun j => buffer (start + j)

variable {buffer buffer' : ℕ → α} {start : ℕ} {xs ys : List α}

theorem memcpy_of_lt {i : ℕ} (h : i < start) : memcpy buffer start xs i = buffer i :=
  if_neg (Nat.not_le.mpr h)

theorem memcpy_of_ge {i : ℕ} (h : start + xs.length ≤ i) : memcpy buffer start xs i = buffer i := by
  rw [memcpy, if_pos (by omega), getD_eq_getElem?_getD, getElem?_eq_none (by omega), getD_none]

theorem memcpy_of_mem {j : ℕ} (h : j < xs.length) : memcpy buffer start xs (start + j) = xs[j] := by
  rw [memcpy, if_pos (by omega), Nat.add_sub_cancel_left, getD_eq_getElem?_getD,
    getElem?_eq_getElem h, getD_some]

@[simp] theorem memcpy_nil : memcpy buffer start ([] : List α) = buffer := by
  funext i
  simp [memcpy]

theorem memcpy_append :
    memcpy buffer start (xs ++ ys) = memcpy (memcpy buffer start xs) (start + xs.length) ys := by
  funext i
  rcases lt_or_ge i start with hlt | hge
  · rw [memcpy_of_lt hlt, memcpy_of_lt (by omega), memcpy_of_lt hlt]
  · obtain ⟨j, rfl⟩ : ∃ j, i = start + j := ⟨i - start, by omega⟩
    rcases lt_or_ge j xs.length with hj | hj
    · rw [memcpy_of_mem (by rw [length_append]; omega), memcpy_of_lt (by omega),
        memcpy_of_mem hj, getElem_append_left hj]
    · rcases lt_or_ge j (xs.length + ys.length) with hj' | hj'
      · obtain ⟨k, rfl⟩ : ∃ k, j = xs.length + k := ⟨j - xs.length, by omega⟩
        rw [memcpy_of_mem (by rw [length_append]; omega), ← Nat.add_assoc,
          memcpy_of_mem (by omega), getElem_append_right (by omega)]
        simp only [Nat.add_sub_cancel_left]
      · rw [memcpy_of_ge (by rw [length_append]; omega), memcpy_of_ge (by omega),
          memcpy_of_ge (by omega)]

@[simp] theorem length_memread (n : ℕ) : (memread buffer start n).length = n := by
  simp [memread]

theorem memread_add (m n : ℕ) :
    memread buffer start (m + n) = memread buffer start m ++ memread buffer (start + m) n := by
  simp [memread, range_add, Function.comp_def, Nat.add_assoc]

theorem memcpy_memread (source : ℕ → α) (p q n x : ℕ) : memcpy buffer p (memread source q n) x =
      if p ≤ x ∧ x < p + n then source (q + (x - p)) else buffer x := by
  split
  · next h =>
    obtain ⟨j, rfl⟩ : ∃ j, x = p + j := ⟨x - p, by omega⟩
    have hj : j < (memread source q n).length := by
      rw [length_memread]
      omega
    rw [memcpy_of_mem hj]
    simp [memread]
  · next h =>
    rcases lt_or_ge x p with hlt | hge
    · exact memcpy_of_lt hlt
    · exact memcpy_of_ge (by rw [length_memread]; omega)

theorem getElem?_memread (start n j : ℕ) :
    (memread buffer start n)[j]? = if j < n then some (buffer (start + j)) else none := by
  rw [memread, getElem?_map]
  split
  · next h => rw [getElem?_range h, map_some]
  · next h => rw [getElem?_eq_none (by rw [length_range]; omega), map_none]

theorem memread_congr {n : ℕ} (h : ∀ j < n, buffer' (start + j) = buffer (start + j)) :
    memread buffer' start n = memread buffer start n :=
  map_congr_left fun j hj => h j (mem_range.mp hj)

theorem memread_memcpy_self {n : ℕ} (hn : xs.length = n) :
    memread (memcpy buffer start xs) start n = xs := by
  subst hn
  refine ext_getElem? fun j => ?_
  rw [getElem?_memread]
  split
  · next h => rw [memcpy_of_mem h, getElem?_eq_getElem h]
  · next h => rw [getElem?_eq_none (Nat.not_lt.mp h)]

theorem memread_memcpy_of_disjoint {p n : ℕ} (h : start + xs.length ≤ p ∨ p + n ≤ start) :
    memread (memcpy buffer start xs) p n = memread buffer p n := by
  refine memread_congr fun j hj => ?_
  rcases h with h | h
  · exact memcpy_of_ge (by omega)
  · exact memcpy_of_lt (by omega)

theorem memcpy_shift {base i : ℕ} (h : buffer' i = buffer (base + i)) :
    memcpy buffer' start xs i = memcpy buffer (base + start) xs (base + i) := by
  simp only [memcpy, Nat.add_le_add_iff_left, Nat.add_sub_add_left, h]

variable [Zero α]

/-- An array that is zero from its length on. -/
structure Contents (α : Type*) [Zero α] where
  bytes : ℕ → α
  length : ℕ
  bytes_eq_zero : ∀ i, length ≤ i → bytes i = 0

namespace Contents

variable {c : Contents α} {off : ℕ}

/-- The empty array. -/
def empty : Contents α := ⟨fun _ => 0, 0, fun _ _ => rfl⟩

/-- The end of a write; a write of nothing ends nowhere. -/
def writeEnd (off : ℕ) (xs : List α) : ℕ := if xs = [] then 0 else off + xs.length

/-- The list is written from `off` on, and the array grows up to its end. -/
def write (c : Contents α) (off : ℕ) (xs : List α) : Contents α where
  bytes := memcpy c.bytes off xs
  length := max c.length (writeEnd off xs)
  bytes_eq_zero i hi := by
    have hlength : c.length ≤ i := (le_max_left ..).trans hi
    have hend : writeEnd off xs ≤ i := (le_max_right ..).trans hi
    rcases eq_or_ne xs [] with rfl | hne
    · rw [memcpy_nil, c.bytes_eq_zero i hlength]
    · rw [writeEnd, if_neg hne] at hend
      rw [memcpy_of_ge hend, c.bytes_eq_zero i hlength]

/-- What is behind the new length is cut off. -/
def truncate (c : Contents α) (n : ℕ) : Contents α where
  bytes i := if i < n then c.bytes i else 0
  length := n
  bytes_eq_zero _ hi := if_neg (Nat.not_lt.mpr hi)

/-- The requested range, clipped to the length. -/
def read (c : Contents α) (off len : ℕ) : List α :=
  memread c.bytes off (min len (c.length - off))

theorem ext' {c d : Contents α} (hbytes : c.bytes = d.bytes) (hlength : c.length = d.length) :
    c = d := by
  cases c
  cases d
  subst hbytes hlength
  rfl

@[simp] theorem write_nil : c.write off [] = c :=
  ext' memcpy_nil (by simp [write, writeEnd])

/-- **A write may be made in pieces.** -/
theorem write_append (c : Contents α) (off : ℕ) (xs ys : List α) :
    c.write off (xs ++ ys) = (c.write off xs).write (off + xs.length) ys := by
  refine ext' memcpy_append ?_
  simp only [write, writeEnd, append_eq_nil_iff, length_append]
  rcases eq_or_ne xs [] with rfl | hxs
  · rcases eq_or_ne ys [] with rfl | hys
    · simp
    · simp [hys]
  · rcases eq_or_ne ys [] with rfl | hys
    · simp [hxs]
    · simp only [hxs, hys, and_self, if_false]
      omega

omit [Zero α] in
theorem max_writeEnd (off : ℕ) (hxs : xs ≠ []) (ys : List α) :
    max (off + xs.length) (writeEnd (off + xs.length) ys) = writeEnd off (xs ++ ys) := by
  simp only [writeEnd, append_eq_nil_iff, hxs, false_and, if_false, length_append]
  split
  · simp_all
  · omega

end Contents

end SeaKernel
