import Mathlib.Data.List.Infix
import Mathlib.Tactic

/-!
# Radix trees in memory

A memory of frames, each of which holds a word for every index. Seen from a root, a word is empty, a
leaf or a reference to a table one level down; what a word is depends on the depth at which it is
met. A key is a list of indices, and looking it up means to follow references until a leaf or an
empty word is met.

Nothing keeps a memory from referring to one frame from two places. If a table is at one place only,
a change of one of its words is a change for the keys that begin with the place of the word, and for
no others. Below some indices of the root tables may be shared; they are left alone.

## Main definitions

* `Slot`: what a word is
* `tableAt`, `find`: the table at a path, and the leaf for a key with its depth
* `store`: a change of one word
* `Avoids S p`: the path does not begin with an index in `S`
* `Apart`: no table outside `S` is at two places

## Main results

* `walk_store_of_not`: the tables and leaves whose keys do not take a word that is changed
* `Apart.find_store_leaf`, `Apart.tableAt_store_leaf`: a word that refers to no table before and
  after
* `Apart.walk_link`, `Apart.link`: a new table without leaves at an empty word
-/

namespace SeaKernel.Radix

open Function List Option

/-- What a word of a table is. -/
inductive Slot (F : Type*) where
  | empty
  | leaf
  | table (f : F)

variable {F I W : Type*} (slot : ℕ → W → Slot F)

/-- The table at a path below a table, whose depth is `d`. -/
def tableAt (m : F → I → W) : ℕ → F → List I → Option F
  | _, f, [] => some f
  | d, f, i :: path =>
    match slot d (m f i) with
    | .table g => tableAt m (d + 1) g path
    | _ => none

/-- The leaf for a key below a table, and its depth. -/
def find (m : F → I → W) : ℕ → F → List I → Option (ℕ × W)
  | _, _, [] => none
  | d, f, i :: path =>
    match slot d (m f i) with
    | .table g => find m (d + 1) g path
    | .leaf => some (d, m f i)
    | .empty => none

/-- The memory after a word was stored. -/
def store [DecidableEq F] [DecidableEq I] (m : F → I → W) (f : F) (i : I) (w : W) : F → I → W :=
  update m f (update (m f) i w)

/-- The path does not begin with an index in the set. -/
def Avoids (S : Set I) (p : List I) : Prop := ∀ i ∈ p.head?, i ∉ S

/-- No table outside `S` is at two places below the root. -/
def Apart (S : Set I) (m : F → I → W) (root : F) : Prop :=
  ∀ p q f, Avoids S p → tableAt slot m 0 root p = some f → tableAt slot m 0 root q = some f → p = q

variable {slot} {S : Set I} {m m' : F → I → W} {d : ℕ} {f g root : F} {i : I} {w : W} {p q : List I}

/-! ## Paths -/

theorem tableAt_append (p q : List I) : tableAt slot m d f (p ++ q) =
      (tableAt slot m d f p).bind fun g => tableAt slot m (d + p.length) g q := by
  induction p generalizing d f with
  | nil => rfl
  | cons i p ih =>
    rw [cons_append, tableAt, tableAt]
    cases slot d (m f i) with
    | table g =>
      dsimp only
      rw [ih, length_cons, Nat.add_right_comm, Nat.add_assoc]
    | empty => rfl
    | leaf => rfl

theorem tableAt_concat (h : tableAt slot m d f p = some g) (i : I) : tableAt slot m d f (p ++ [i]) =
      match slot (d + p.length) (m g i) with
      | .table g => some g
      | _ => none := by
  rw [tableAt_append, h]
  rfl

theorem find_append (h : tableAt slot m d f p = some g) (q : List I) :
    find slot m d f (p ++ q) = find slot m (d + p.length) g q := by
  induction p generalizing d f with
  | nil =>
    obtain rfl := some.inj h
    rfl
  | cons i p ih =>
    rw [tableAt] at h
    rw [cons_append, find]
    cases hslot : slot d (m f i) with
    | table g' =>
      rw [hslot] at h
      dsimp only at h ⊢
      rw [ih h, length_cons, Nat.add_right_comm, Nat.add_assoc]
    | empty =>
      rw [hslot] at h
      cases h
    | leaf =>
      rw [hslot] at h
      cases h

/-! ## Changes of the memory -/

/-- What is found from a table depends only on the tables below it. -/
theorem walk_congr (h : ∀ p g, tableAt slot m d f p = some g → m' g = m g) (q : List I) :
    tableAt slot m' d f q = tableAt slot m d f q ∧ find slot m' d f q = find slot m d f q := by
  induction q generalizing d f with
  | nil => exact ⟨rfl, rfl⟩
  | cons i q ih =>
    rw [tableAt, tableAt, find, find, h [] f rfl]
    cases hslot : slot d (m f i) with
    | table g =>
      refine ih fun p g' hat => h (i :: p) g' ?_
      rw [tableAt, hslot]
      exact hat
    | empty => exact ⟨rfl, rfl⟩
    | leaf => exact ⟨rfl, rfl⟩

section Store

variable [DecidableEq F] [DecidableEq I]

@[simp] theorem store_self (m : F → I → W) (f : F) (i : I) (w : W) : store m f i w f i = w := by
  rw [store, update_self, update_self]

theorem store_of_ne (m : F → I → W) (w : W) {j : I} (h : ¬ (g = f ∧ j = i)) :
    store m f i w g j = m g j := by
  rw [store]
  by_cases hg : g = f
  · have hj : j ≠ i := fun hj => h ⟨hg, hj⟩
    rw [hg, update_self, update_of_ne hj]
  · rw [update_of_ne hg]

theorem store_frame_of_ne (m : F → I → W) (i : I) (w : W) (h : g ≠ f) : store m f i w g = m g :=
  update_of_ne h _ _

/-- A path that does not take the word that is stored leads where it did. -/
theorem walk_store_of_not (h : ∀ p s, q = p ++ i :: s → tableAt slot m d f p ≠ some g) :
    tableAt slot (store m g i w) d f q = tableAt slot m d f q ∧
      find slot (store m g i w) d f q = find slot m d f q := by
  induction q generalizing d f with
  | nil => exact ⟨rfl, rfl⟩
  | cons j q ih =>
    have hword : store m g i w f j = m f j := by
      refine store_of_ne m w ?_
      rintro ⟨rfl, rfl⟩
      exact h [] q rfl rfl
    rw [tableAt, tableAt, find, find, hword]
    cases hslot : slot d (m f j) with
    | table f' =>
      refine ih fun p s hq hat => h (j :: p) s (by rw [hq]; rfl) ?_
      rw [tableAt, hslot]
      exact hat
    | empty => exact ⟨rfl, rfl⟩
    | leaf => exact ⟨rfl, rfl⟩

namespace Apart

omit [DecidableEq F] [DecidableEq I] in
theorem not_taken (h : Apart slot S m root) (ho : Avoids S p)
    (hp : tableAt slot m 0 root p = some f) (hq : ¬ p ++ [i] <+: q) :
    ∀ r s, q = r ++ i :: s → tableAt slot m 0 root r ≠ some f := by
  rintro r s rfl hr
  obtain rfl := h p r f ho hp hr
  exact hq ⟨s, by rw [append_assoc]; rfl⟩

section

variable (h : Apart slot S m root)

include h

theorem tableAt_store (ho : Avoids S p) (hp : tableAt slot m 0 root p = some f) (w : W) :
    tableAt slot (store m f i w) 0 root p = some f := by
  rw [(walk_store_of_not (h.not_taken ho hp fun hpre => ?_)).1, hp]
  have hlen := hpre.length_le
  rw [length_append, length_singleton] at hlen
  omega

/-- **The leaves after a word was stored that refers to no table.** -/
theorem find_store_leaf (ho : Avoids S p) (hp : tableAt slot m 0 root p = some f)
    (hw : ∀ g, slot p.length w ≠ .table g) (q : List I) :
    find slot (store m f i w) 0 root q =
      if p ++ [i] <+: q then
        match slot p.length w with
        | .leaf => some (p.length, w)
        | _ => none
      else find slot m 0 root q := by
  split
  · next hpre =>
    obtain ⟨s, rfl⟩ := hpre
    rw [append_assoc, find_append (h.tableAt_store ho hp w), Nat.zero_add,
      singleton_append, find, store_self]
    cases hslot : slot p.length w with
    | table g => exact absurd hslot (hw g)
    | empty => rfl
    | leaf => rfl
  · next hpre => exact (walk_store_of_not (h.not_taken ho hp hpre)).2

/-- **The tables stay** if a word is changed that refers to no table before and after. -/
theorem tableAt_store_leaf (ho : Avoids S p) (hp : tableAt slot m 0 root p = some f)
    (hold : ∀ g, slot p.length (m f i) ≠ .table g) (hw : ∀ g, slot p.length w ≠ .table g)
    (q : List I) : tableAt slot (store m f i w) 0 root q = tableAt slot m 0 root q := by
  by_cases hpre : p ++ [i] <+: q
  · obtain ⟨s, rfl⟩ := hpre
    rw [append_assoc, singleton_append, tableAt_append, tableAt_append,
      h.tableAt_store ho hp w, hp, bind_some, bind_some, Nat.zero_add, tableAt,
      tableAt, store_self]
    cases hslot : slot p.length w with
    | table g => exact absurd hslot (hw g)
    | empty =>
      cases hslot' : slot p.length (m f i) with
      | table g => exact absurd hslot' (hold g)
      | empty => rfl
      | leaf => rfl
    | leaf =>
      cases hslot' : slot p.length (m f i) with
      | table g => exact absurd hslot' (hold g)
      | empty => rfl
      | leaf => rfl
  · exact (walk_store_of_not (h.not_taken ho hp hpre)).1

omit [DecidableEq F] [DecidableEq I] in
theorem of_tableAt_eq (heq : ∀ q, tableAt slot m' 0 root q = tableAt slot m 0 root q) :
    Apart slot S m' root := by
  intro p q f ho hp hq
  rw [heq] at hp hq
  exact h p q f ho hp hq

end

/-! ### A new table -/

section Link

variable {frame : I → W} (h : Apart slot S m root) (ho : Avoids S p)
    (hp : tableAt slot m 0 root p = some f)
  (hold : slot p.length (m f i) = .empty) (hw : slot p.length w = .table g)
  (hg : ∀ q, tableAt slot m 0 root q ≠ some g)
  (hframe : ∀ j, slot (p.length + 1) (frame j) = .empty)

omit [DecidableEq I] in
include hg in
theorem walk_update (q : List I) :
    tableAt slot (update m g frame) 0 root q = tableAt slot m 0 root q ∧
      find slot (update m g frame) 0 root q = find slot m 0 root q := by
  refine walk_congr (fun p f hf => update_of_ne ?_ _ _) q
  rintro rfl
  exact hg p hf

omit [DecidableEq F] [DecidableEq I] in
include hp hg in
theorem ne_of_fresh : f ≠ g := by
  rintro rfl
  exact hg p hp

include h ho hp hw hg hframe hold in
/-- **The tables and leaves with a new table at an empty word**: it has nothing below it, and
nothing was there before. -/
theorem walk_link (q : List I) : tableAt slot (store (update m g frame) f i w) 0 root q =
        (if q = p ++ [i] then some g else tableAt slot m 0 root q) ∧
      find slot (store (update m g frame) f i w) 0 root q = find slot m 0 root q := by
  have h₁ : Apart slot S (update m g frame) root :=
    h.of_tableAt_eq fun q => (walk_update hg q).1
  have hp₁ : tableAt slot (update m g frame) 0 root p = some f := (walk_update hg p).1.trans hp
  by_cases hpre : p ++ [i] <+: q
  · obtain ⟨s, rfl⟩ := hpre
    have hstore := h₁.tableAt_store ho hp₁ w (i := i)
    rw [append_assoc, singleton_append, find_append hstore, find_append hp,
      tableAt_append, tableAt_append, hstore, hp, bind_some, bind_some, Nat.zero_add,
      tableAt, tableAt, find, find, store_self, hw, hold]
    cases s with
    | nil => exact ⟨(if_pos rfl).symm, rfl⟩
    | cons j s =>
      dsimp only
      rw [if_neg (by simp), tableAt, find, store_frame_of_ne _ _ _ (ne_of_fresh hp hg).symm,
        update_self, hframe]
      exact ⟨rfl, rfl⟩
  · obtain ⟨htable, hfind⟩ := walk_store_of_not (h₁.not_taken ho hp₁ hpre) (w := w)
    rw [htable, hfind, (walk_update hg q).1, (walk_update hg q).2, if_neg]
    · exact ⟨rfl, rfl⟩
    · rintro rfl
      exact hpre prefix_rfl

include h ho hp hw hg hframe hold in
theorem link : Apart slot S (store (update m g frame) f i w) root := by
  intro q q' f' ho' hq hq'
  rw [(walk_link h ho hp hold hw hg hframe _).1] at hq hq'
  split at hq
  · next heq =>
    obtain rfl := some.inj hq
    split at hq'
    · next heq' => rw [heq, heq']
    · exact absurd hq' (hg q')
  · split at hq'
    · obtain rfl := some.inj hq'
      exact absurd hq (hg q)
    · exact h q q' f' ho' hq hq'

end Link

end Apart

end Store

end SeaKernel.Radix
