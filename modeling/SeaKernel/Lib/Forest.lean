import Mathlib.Data.Set.Insert
import Mathlib.Tactic

/-!
# Forests of blocks

Blocks hold the numbers of further blocks, and `0` stands for no block. From each root a tree of
bounded depth hangs: the block at a path is found by following the entries of the blocks above it.
The forest is *owned* if every block in it belongs to the owner of its root and none is at two
places. The contents of the blocks at full depth are not part of the forest.

## Main definitions

* `walk d b path`: the block at the path below `b`
* `OwnedForest d root depth own`: every block is at one place, and is its root's own

## Main results

* `walk_update_of_not`, `walk_update_append`: the walks after an entry was changed
* `walk_write_entry`: an entry of a block above full depth is one place of the forest
* `OwnedForest.graft`, `OwnedForest.graft_root`: a new block at an empty place
* `OwnedForest.of_agree`: what is written outside the blocks above full depth changes nothing
* `OwnedForest.write_leaf`: in particular, the contents of a block at full depth
* `OwnedForest.prune`: roots may be dropped
-/

namespace SeaKernel

open Function List Option

variable {B I R : Type*} [Zero B] [DecidableEq B]

/-- The block at the path below `b`. -/
def walk (d : B → I → B) : B → List I → B
  | b, [] => b
  | b, e :: path => if b = 0 then 0 else walk d (d b e) path

variable {d d' : B → I → B} {root root' : R → B} {depth : R → ℕ} {own own' : R → Set B}

@[simp] theorem walk_nil (b : B) : walk d b [] = b := rfl

@[simp] theorem walk_zero (path : List I) : walk d 0 path = 0 := by
  cases path <;> simp [walk]

theorem walk_append (b : B) (path rest : List I) :
    walk d b (path ++ rest) = walk d (walk d b path) rest := by
  induction path generalizing b with
  | nil => rfl
  | cons e path ih =>
    rw [cons_append, walk, walk]
    split
    · rw [walk_zero]
    · exact ih _

theorem walk_concat (b : B) (path : List I) (e : I) :
    walk d b (path ++ [e]) = if walk d b path = 0 then 0 else d (walk d b path) e := by
  rw [walk_append, walk, walk_nil]

variable {path : List I}

section Update

variable [DecidableEq I] {b x y : B} {e : I}

theorem walk_update_of_not (h : ∀ p rest, path = p ++ e :: rest → walk d b p ≠ x) :
    walk (update d x (update (d x) e y)) b path = walk d b path := by
  induction path generalizing b with
  | nil => rfl
  | cons f path ih =>
    rw [walk, walk]
    split
    · rfl
    · next hb =>
      have hentry : update d x (update (d x) e y) b f = d b f := by
        by_cases hbx : b = x
        · have hfe : f ≠ e := fun hfe => h [] path (by rw [hfe]; rfl) hbx
          rw [hbx, update_self, update_of_ne hfe]
        · rw [update_of_ne hbx]
      rw [hentry]
      refine ih fun p rest hpath hwalk => h (f :: p) rest (by rw [hpath]; rfl) ?_
      rw [walk, if_neg hb, hwalk]

theorem walk_update_append (hx : x ≠ 0) (hpath : walk d b path = x)
    (h : ∀ p rest, path = p ++ e :: rest → walk d b p ≠ x) (rest : List I) :
    walk (update d x (update (d x) e y)) b (path ++ e :: rest) =
      walk (update d x (update (d x) e y)) y rest := by
  rw [walk_append, walk_update_of_not h, hpath, walk, if_neg hx, update_self, update_self]

end Update

/-- Every block of the forest is at one place, and is its root's own. -/
structure OwnedForest (d : B → I → B) (root : R → B) (depth : R → ℕ) (own : R → Set B) :
    Prop where
  owned : ∀ r path, path.length ≤ depth r → walk d (root r) path ≠ 0 →
    walk d (root r) path ∈ own r
  once : ∀ r path r' path', path.length ≤ depth r → path'.length ≤ depth r' →
    walk d (root r) path = walk d (root r') path' → walk d (root r) path ≠ 0 →
    r = r' ∧ path = path'

/-- The block is nowhere in the forest. -/
def Outside (d : B → I → B) (root : R → B) (depth : R → ℕ) (b : B) : Prop :=
  ∀ r path, path.length ≤ depth r → walk d (root r) path ≠ b

theorem walk_congr {r : R} (h : ∀ path, path.length < depth r → walk d (root r) path ≠ 0 →
      d' (walk d (root r) path) = d (walk d (root r) path)) (path : List I)
    (hpath : path.length ≤ depth r) : walk d' (root r) path = walk d (root r) path := by
  induction path using reverseRecOn with
  | nil => rfl
  | append_singleton path e ih =>
    rw [length_append, length_singleton] at hpath
    rw [walk_concat, walk_concat, ih (by omega)]
    split
    · rfl
    · next hne => rw [h path (by omega) hne]

namespace OwnedForest

theorem congr_walk (h : OwnedForest d root depth own) (heq : ∀ r path, path.length ≤ depth r →
      walk d' (root' r) path = walk d (root r) path)
    (hown : ∀ r, own r ⊆ own' r) : OwnedForest d' root' depth own' where
  owned r path hpath hne := by
    rw [heq r path hpath] at hne ⊢
    exact hown r (h.owned r path hpath hne)
  once r path r' path' hpath hpath' hw hne := by
    rw [heq r path hpath] at hw hne
    rw [heq r' path' hpath'] at hw
    exact h.once r path r' path' hpath hpath' hw hne

theorem of_agree (h : OwnedForest d root depth own)
    (hd : ∀ r path, path.length < depth r → walk d (root r) path ≠ 0 →
      d' (walk d (root r) path) = d (walk d (root r) path))
    (hown : ∀ r, own r ⊆ own' r) : OwnedForest d' root depth own' :=
  h.congr_walk (fun r => walk_congr (hd r)) hown

theorem write_leaf (h : OwnedForest d root depth own) {r : R} (hpath : path.length = depth r)
    (hne : walk d (root r) path ≠ 0) (contents : I → B) :
    OwnedForest (update d (walk d (root r) path) contents) root depth own := by
  refine h.of_agree (fun r' path' hpath' hne' => ?_) fun _ => subset_rfl
  refine update_of_ne (fun heq => ?_) _ _
  obtain ⟨rfl, rfl⟩ := h.once r' path' r path hpath'.le hpath.le heq hne'
  omega

theorem prune (h : OwnedForest d root depth own) (own' : R → Set B)
    (hroot : ∀ r, root' r = root r ∨ root' r = 0)
    (hown : ∀ r, root' r = root r → root r ≠ 0 → own r ⊆ own' r) :
    OwnedForest d root' depth own' := by
  have hkept : ∀ r path, walk d (root' r) path ≠ 0 → root' r = root r ∧ root r ≠ 0 := by
    intro r path hne
    rcases hroot r with hr | hr
    · refine ⟨hr, fun h0 => hne ?_⟩
      rw [hr, h0, walk_zero]
    · rw [hr, walk_zero] at hne
      exact absurd rfl hne
  refine ⟨fun r path hpath hne => ?_, fun r path r' path' hpath hpath' hw hne => ?_⟩
  · obtain ⟨hr, h0⟩ := hkept r path hne
    rw [hr] at hne ⊢
    exact hown r hr h0 (h.owned r path hpath hne)
  · have hne' : walk d (root' r') path' ≠ 0 := hw ▸ hne
    rw [(hkept r path hne).1] at hw hne
    rw [(hkept r' path' hne').1] at hw
    exact h.once r path r' path' hpath hpath' hw hne

variable {r : R} {path : List I} {e : I} {y : B}

theorem insert (h : OwnedForest d root depth own) (path : List I) (hout : Outside d root depth y)
    (hy : y ∈ own' r) (hown : ∀ r, own r ⊆ own' r)
    (hnew : walk d' (root' r) path = y)
    (hold : ∀ r' path', path'.length ≤ depth r' → ¬(r' = r ∧ path' = path) →
      walk d' (root' r') path' = walk d (root r') path') :
    OwnedForest d' root' depth own' := by
  refine ⟨fun r₁ p₁ hp₁ hne => ?_, fun r₁ p₁ r₂ p₂ hp₁ hp₂ hw hne => ?_⟩
  · by_cases h₁ : r₁ = r ∧ p₁ = path
    · obtain ⟨rfl, rfl⟩ := h₁
      rwa [hnew]
    · rw [hold r₁ p₁ hp₁ h₁] at hne ⊢
      exact hown r₁ (h.owned r₁ p₁ hp₁ hne)
  · by_cases h₁ : r₁ = r ∧ p₁ = path <;> by_cases h₂ : r₂ = r ∧ p₂ = path
    · exact ⟨h₁.1.trans h₂.1.symm, h₁.2.trans h₂.2.symm⟩
    · obtain ⟨rfl, rfl⟩ := h₁
      rw [hnew, hold r₂ p₂ hp₂ h₂] at hw
      exact absurd hw.symm (hout r₂ p₂ hp₂)
    · obtain ⟨rfl, rfl⟩ := h₂
      rw [hnew, hold r₁ p₁ hp₁ h₁] at hw
      exact absurd hw (hout r₁ p₁ hp₁)
    · rw [hold r₁ p₁ hp₁ h₁] at hw hne
      rw [hold r₂ p₂ hp₂ h₂] at hw
      exact h.once r₁ p₁ r₂ p₂ hp₁ hp₂ hw hne

variable [DecidableEq I] [DecidableEq R]

variable (h : OwnedForest d root depth own)

include h

/-- An entry of a block above full depth is one place of the forest: where it was empty, a block
from outside that is written there is the only change. Unless it is at full depth, the block must
be empty itself. -/
theorem walk_write_entry (hpath : path.length < depth r) (hx : walk d (root r) path ≠ 0)
    (hempty : d (walk d (root r) path) e = 0) (hy : y ≠ 0) (hout : Outside d root depth y)
    (hzero : path.length + 1 < depth r → ∀ e, d y e = 0)
    (hd : d' = update d (walk d (root r) path) (update (d (walk d (root r) path)) e y)) :
    ∀ r' path', path'.length ≤ depth r' → walk d' (root r') path' =
      if r' = r ∧ path' = path ++ [e] then y else walk d (root r') path' := by
  intro r' path' hpath'
  induction path' using reverseRecOn with
  | nil => simp
  | append_singleton p e' ih =>
    rw [length_append, length_singleton] at hpath'
    have ih := ih (by omega)
    rw [walk_concat, ih]
    by_cases hp : r' = r ∧ p = path ++ [e]
    · -- below the new block, which has no entries yet
      obtain ⟨rfl, rfl⟩ := hp
      have hyx : y ≠ walk d (root r') path := fun heq => hout r' path (by omega) heq.symm
      rw [length_append, length_singleton] at hpath'
      have hbefore : walk d (root r') (path ++ [e]) = 0 := by
        rw [walk_concat, if_neg hx, hempty]
      have hbelow : walk d (root r') (path ++ [e] ++ [e']) = 0 := by
        rw [walk_append, hbefore, walk_zero]
      have hplace : (if r' = r' ∧ path ++ [e] = path ++ [e] then y
          else walk d (root r') (path ++ [e])) = y := if_pos ⟨rfl, rfl⟩
      rw [hplace, if_neg hy, hd, update_of_ne hyx, hzero (by omega), if_neg (by simp), hbelow]
    · rw [if_neg hp, walk_concat]
      have hlast : (r' = r ∧ p ++ [e'] = path ++ [e]) ↔ (r' = r ∧ p = path) ∧ e' = e := by
        constructor
        · rintro ⟨hr, hlist⟩
          obtain ⟨hpp, hee⟩ := append_inj' hlist rfl
          exact ⟨⟨hr, hpp⟩, by simpa using hee⟩
        · rintro ⟨⟨hr, rfl⟩, rfl⟩
          exact ⟨hr, rfl⟩
      by_cases hz : walk d (root r') p = 0
      · rw [if_pos hz, if_pos hz]
        refine (if_neg fun hlast' => hx ?_).symm
        obtain ⟨⟨rfl, rfl⟩, -⟩ := hlast.mp hlast'
        exact hz
      · rw [if_neg hz, if_neg hz, hd]
        by_cases hxz : walk d (root r') p = walk d (root r) path
        · have hpos := h.once r' p r path (by omega) (by omega) hxz hz
          rw [hxz, update_self]
          by_cases hee : e' = e
          · rw [if_pos (hlast.mpr ⟨hpos, hee⟩), hee, update_self]
          · rw [if_neg fun hl => hee (hlast.mp hl).2, update_of_ne hee]
        · have hpos : ¬((r' = r ∧ p = path) ∧ e' = e) := by
            rintro ⟨⟨rfl, rfl⟩, -⟩
            exact hxz rfl
          rw [update_of_ne hxz, if_neg fun hl => hpos (hlast.mp hl)]

/-- **A new block at an empty entry.** -/
theorem graft (own' : R → Set B) (hpath : path.length < depth r) (hx : walk d (root r) path ≠ 0)
    (hempty : d (walk d (root r) path) e = 0) (hy : y ≠ 0) (hout : Outside d root depth y)
    (hzero : path.length + 1 < depth r → ∀ e, d y e = 0) (hown : ∀ r, own r ⊆ own' r)
    (hmem : y ∈ own' r) :
    OwnedForest (update d (walk d (root r) path)
      (update (d (walk d (root r) path)) e y)) root depth own' := by
  have hwalk := h.walk_write_entry hpath hx hempty hy hout hzero rfl
  refine h.insert (path ++ [e]) hout hmem hown ?_ fun r' path' hp' hne => ?_
  · rw [hwalk r (path ++ [e]) (by simpa using hpath), if_pos ⟨rfl, rfl⟩]
  · rw [hwalk r' path' hp', if_neg hne]

omit [DecidableEq I] in
/-- **A new block at an empty root.** -/
theorem graft_root (own' : R → Set B) (hempty : root r = 0) (hy : y ≠ 0)
    (hout : Outside d root depth y) (hzero : 0 < depth r → ∀ e, d y e = 0)
    (hown : ∀ r, own r ⊆ own' r) (hmem : y ∈ own' r) :
    OwnedForest d (update root r y) depth own' := by
  refine h.insert [] hout hmem hown (by simp) fun r' path' hp' hne => ?_
  by_cases hr : r' = r
  · subst hr
    obtain ⟨e, path'', rfl⟩ : ∃ e path'', path' = e :: path'' :=
      exists_cons_of_ne_nil fun h0 => hne ⟨rfl, h0⟩
    rw [length_cons] at hp'
    rw [update_self, hempty, walk_zero, walk, if_neg hy, hzero (by omega), walk_zero]
  · rw [update_of_ne hr]

end OwnedForest

end SeaKernel
