import SeaKernel.Lib.Logged
import SeaKernel.Lib.Word

/-!
# The lists that a loop over a hash table reads

`hash_iter_init` and `hash_iter_next` look for the next list that is not empty. They test a list
before they compare its index with the number of lists, and `hash_iter_next` starts with the index
behind the one it has come from: from the last list it reads behind the table.

## Main results

* `bounds_iff`: which loops stay in the table
-/

namespace SeaKernel.HashBounds

open Logged

/-- The lists of a hash table, with the entries of each of them. -/
structure Table (α : Type) where
  table : ℕ → List α
  length : ℕ

/-- `struct hashiter`, with the entries of the list from `next` on. -/
structure Iter (α : Type) where
  bucket : ℕ
  rest : List α

section Model

variable {α : Type} (h : Table α) (past : ℕ → Bool) (rounds : ℕ)

/-- The loop of both functions, with the indices it reads. Outside of the table it reads what `past`
says. -/
def skip : ℕ → ℕ → Logged ℕ ℕ
  | 0, _ => stuck
  | rounds + 1, bucket => do
    let zero ← observe bucket
      (if bucket < h.length then (h.table bucket).isEmpty else past bucket)
    if zero then
      if u32 (bucket + 1) < h.length then skip rounds (u32 (bucket + 1))
      else return u32 (bucket + 1)
    else return bucket

/-- The lines of both functions that go on to another list. -/
def enter (bucket : ℕ) : Logged ℕ (Iter α) := do
  let bucket ← skip h past rounds bucket
  if h.length ≤ bucket then return ⟨bucket, []⟩
  else observe bucket ⟨bucket, (h.table bucket).tail⟩

/-- `hash_iter_init` -/
def hashIterInit : Logged ℕ (Iter α) := enter h past rounds 0

/-- `hash_iter_next` -/
def hashIterNext (iter : Iter α) : Logged ℕ (Iter α) := do
  tell iter.bucket
  match iter.rest with
  | [] => enter h past rounds (u32 (iter.bucket + 1))
  | _ :: rest => return ⟨iter.bucket, rest⟩

/-- The rounds of a loop, up to a number of them. -/
def loop : ℕ → Iter α → Logged ℕ Unit
  | 0, _ => stuck
  | n + 1, iter =>
    if h.length ≤ iter.bucket then return ()
    else do
      let iter ← hashIterNext h past rounds iter
      loop n iter

/-- A loop over the table. -/
def iterate (n : ℕ) : Logged ℕ Unit := do
  let iter ← hashIterInit h past rounds
  loop h past rounds n iter

end Model

variable {α : Type} {h : Table α} {past : ℕ → Bool} {rounds bucket : ℕ}

/-- The iterator is done, or at a list that is not empty. -/
def Iter.Placed (h : Table α) (iter : Iter α) : Prop :=
  iter.bucket < h.length → h.table iter.bucket ≠ []

theorem each_skip (hb : bucket < h.length) : (skip h past rounds bucket).Each (· < h.length) ∧
    ∀ b, (skip h past rounds bucket).result = some b → b < h.length → h.table b ≠ [] := by
  induction rounds generalizing bucket with
  | zero => exact ⟨nofun, nofun⟩
  | succ rounds ih =>
    rw [skip, each_observe_bind, result_observe_bind, if_pos hb]
    split
    · split
      · next hlt => exact ⟨⟨hb, (ih hlt).1⟩, (ih hlt).2⟩
      · next hge =>
        refine ⟨⟨hb, each_pure⟩, fun b hres hlt => ?_⟩
        exact absurd (Option.some.inj hres ▸ hlt) hge
    · next hne =>
      refine ⟨⟨hb, each_pure⟩, fun b hres _ => ?_⟩
      rw [← Option.some.inj hres]
      simpa using hne

theorem each_enter (past : ℕ → Bool) (rounds : ℕ) (hb : bucket < h.length) :
    (enter h past rounds bucket).Each (· < h.length) ∧
      ∀ iter, (enter h past rounds bucket).result = some iter → iter.Placed h := by
  obtain ⟨heach, hne⟩ : _ ∧ _ := each_skip hb
  refine ⟨each_bind.mpr ⟨heach, fun b _ => ?_⟩, fun iter hres => ?_⟩
  · split
    · exact each_pure
    · next hlt => exact each_observe.mpr (not_le.mp hlt)
  · rw [enter, result_bind, Option.bind_eq_some_iff] at hres
    obtain ⟨b, hb, hres⟩ := hres
    split at hres <;> exact Option.some.inj hres ▸ hne b hb

theorem each_loop (hend : 2 ^ 32 ≤ h.length ∨ h.table (h.length - 1) = []) {iter : Iter α}
    (hp : iter.Placed h) (n : ℕ) : (loop h past rounds n iter).Each (· < h.length) := by
  induction n generalizing iter with
  | zero => exact each_stuck
  | succ n ih =>
    rw [loop]
    split
    · exact each_pure
    · next hlt =>
      have hlt := not_le.mp hlt
      -- The list behind this one is not behind the table.
      have hnext : u32 (iter.bucket + 1) < h.length := by
        rcases hend with hlong | hlast
        · exact (u32_lt _).trans_le hlong
        · have hne : iter.bucket ≠ h.length - 1 := fun heq => hp hlt (heq ▸ hlast)
          exact (Nat.mod_le _ _).trans_lt (by omega)
      obtain ⟨heach, hplaced⟩ := each_enter past rounds hnext
      rw [each_bind, hashIterNext, each_observe_bind, result_observe_bind]
      cases iter.rest with
      | nil => exact ⟨⟨hlt, heach⟩, fun iter' hres => ih (hplaced iter' hres)⟩
      | cons x rest => exact ⟨⟨hlt, each_pure⟩, fun iter' hres => ih (Option.some.inj hres ▸ hp)⟩

section Behind

variable (hlen : h.length < 2 ^ 32) (hlast : h.table (h.length - 1) ≠ [])

include hlen hlast

theorem skip_result (past : ℕ → Bool) (hb : bucket < h.length)
    (hrounds : h.length ≤ rounds + bucket) :
    ∃ b, (skip h past rounds bucket).result = some b ∧ bucket ≤ b ∧ b < h.length := by
  induction rounds generalizing bucket with
  | zero => omega
  | succ rounds ih =>
    rw [skip, result_observe_bind, if_pos hb, u32_of_lt (by omega)]
    split
    · next hempty =>
      have hne : bucket ≠ h.length - 1 := fun heq => hlast (by simpa [heq] using hempty)
      have hnext : bucket + 1 < h.length := by omega
      obtain ⟨b, hres, hle, hlt⟩ := ih hnext (by omega)
      exact ⟨b, by rwa [if_pos hnext], by omega, hlt⟩
    · exact ⟨bucket, rfl, le_rfl, hb⟩

theorem enter_result (past : ℕ → Bool) (hb : bucket < h.length) :
    ∃ iter, (enter h past h.length bucket).result = some iter ∧ bucket ≤ iter.bucket ∧
      iter.bucket < h.length := by
  obtain ⟨b, hres, hle, hlt⟩ := skip_result hlen hlast past hb (Nat.le_add_right _ _)
  refine ⟨⟨b, (h.table b).tail⟩, ?_, hle, hlt⟩
  rw [enter, result_bind_of_some hres, if_neg hlt.not_ge]
  rfl

/-- **From the last list** a loop goes on behind the table. -/
theorem exists_read (past : ℕ → Bool) (iter : Iter α) (hb : iter.bucket < h.length) :
    ∃ n, ¬ (loop h past h.length n iter).Each (· < h.length) := by
  have hstep : ∀ {iter iter' : Iter α}, iter.bucket < h.length →
      (hashIterNext h past h.length iter).result = some iter' →
      (∃ n, ¬ (loop h past h.length n iter').Each (· < h.length)) →
      ∃ n, ¬ (loop h past h.length n iter).Each (· < h.length) := by
    rintro iter iter' hb hres ⟨n, hn⟩
    refine ⟨n + 1, fun hall => hn ?_⟩
    rw [loop, if_neg hb.not_ge] at hall
    exact (each_bind.mp hall).2 iter' hres
  obtain ⟨bucket, rest⟩ := iter
  induction hd : h.length - bucket using Nat.strong_induction_on generalizing bucket rest with
  | _ d ihd =>
  induction rest with
  | cons x rest ih => exact hstep hb rfl (ih hb)
  | nil =>
    dsimp only at hb
    rcases Nat.lt_or_ge (bucket + 1) h.length with hnext | hend
    · obtain ⟨iter, hres, hle, hlt⟩ := enter_result hlen hlast past hnext
      refine hstep hb ?_ (ihd (h.length - iter.bucket) (by omega) iter.bucket iter.rest hlt rfl)
      rw [hashIterNext, result_observe_bind, u32_of_lt (show bucket + 1 < 2 ^ 32 by omega)]
      exact hres
    · refine ⟨1, fun hall => ?_⟩
      rw [loop, if_neg hb.not_ge, each_bind, hashIterNext, each_observe_bind,
        u32_of_lt (show bucket + 1 < 2 ^ 32 by omega)] at hall
      have hskip := (each_bind.mp hall.1.2).1
      obtain ⟨k, hk⟩ := Nat.exists_eq_succ_of_ne_zero (by omega : h.length ≠ 0)
      rw [hk, skip, ← Nat.succ_eq_add_one, ← hk, each_observe_bind] at hskip
      exact absurd hskip.1 hend.not_gt

end Behind

/-- **A loop reads the lists of the table only** exactly if the table has a list and the last one is
empty, or if the index cannot reach the number of lists. -/
theorem bounds_iff (h : Table α) (past : ℕ → Bool) :
    (∀ rounds n, (iterate h past rounds n).Each (· < h.length)) ↔
      2 ^ 32 ≤ h.length ∨ 0 < h.length ∧ h.table (h.length - 1) = [] := by
  constructor
  · intro hall
    -- already the first test reads a list
    have hfirst := (each_bind.mp (each_bind.mp (hall 1 0)).1).1
    rw [skip, each_observe_bind] at hfirst
    have hpos : 0 < h.length := hfirst.1
    by_contra hnot
    obtain ⟨hlen, hlast⟩ := not_or.mp hnot
    have hlast : h.table (h.length - 1) ≠ [] := fun hnil => hlast ⟨hpos, hnil⟩
    obtain ⟨iter, hres, -, hlt⟩ := enter_result (not_le.mp hlen) hlast past hpos
    obtain ⟨n, hn⟩ := exists_read (not_le.mp hlen) hlast past iter hlt
    exact hn ((each_bind.mp (hall h.length n)).2 iter hres)
  · intro hend rounds n
    have hpos : 0 < h.length := hend.elim (by omega) And.left
    obtain ⟨heach, hplaced⟩ := each_enter past rounds hpos
    refine each_bind.mpr ⟨heach, fun iter hres => ?_⟩
    exact each_loop (hend.imp_right And.right) (hplaced iter hres) n

/-- In a table of 32 lists with one entry, which is in the last list, a loop reads behind the
table. -/
theorem last_entry_outside : 32 ∈
    (iterate ⟨fun i => if i = 31 then [()] else [], 32⟩ (fun _ => true) 32 1).log := by
  decide +kernel

end SeaKernel.HashBounds
