import Mathlib.Tactic
import Mathlib.Order.Defs.PartialOrder

/-!
# Dyadic blocks

A dyadic block of order `k` and index `i` is the interval of the `2 ^ k` numbers `p` with
`p / 2 ^ k = i`. Two blocks are nested or disjoint; a block and its buddy make up their parent.

Nesting is the order `≤`, so that a block lies strictly inside the parent of `b` exactly if it
lies inside `b` or inside the buddy of `b` (`lt_parent_iff`).

## Main definitions

* `Block`, `Block.parent`, `Block.buddy`, `Block.left`, `Block.right`
* `Block.Apart`: no common element
* `Canonical`: a family of blocks that holds no block together with its buddy

## Main results

* `Block.le_of_mem`: blocks with a common element are nested
* `Block.lt_parent_iff`, `Block.mem_parent`: a parent is its two halves
* `Canonical.exists_le`: a canonical family that covers a block has one member around it
-/

namespace SeaKernel

/-- The numbers `p` with `p / 2 ^ order = index`. -/
@[ext] structure Block where
  order : ℕ
  index : ℕ
  deriving DecidableEq, Repr

namespace Block

variable {b c d : Block} {p : ℕ}

instance : Membership ℕ Block := ⟨fun b p => p / 2 ^ b.order = b.index⟩

theorem mem_def : p ∈ b ↔ p / 2 ^ b.order = b.index := Iff.rfl

instance : Decidable (p ∈ b) := inferInstanceAs (Decidable (p / 2 ^ b.order = b.index))

/-- The first element. -/
def base (b : Block) : ℕ := b.index * 2 ^ b.order

theorem base_mem (b : Block) : b.base ∈ b :=
  Nat.mul_div_cancel _ (Nat.two_pow_pos _)

theorem mem_iff : p ∈ b ↔ b.base ≤ p ∧ p < b.base + 2 ^ b.order := by
  have hpos := Nat.two_pow_pos b.order
  rw [mem_def, base, Nat.div_eq_iff hpos]
  omega

variable {n : ℕ}

theorem div_two_pow_of_le {m : ℕ} (h : m ≤ n) : p / 2 ^ n = p / 2 ^ m / 2 ^ (n - m) := by
  rw [Nat.div_div_eq_div_mul, ← pow_add, Nat.add_sub_cancel' h]

/-! ## Nesting -/

instance : PartialOrder Block where
  le b c := b.order ≤ c.order ∧ b.index / 2 ^ (c.order - b.order) = c.index
  le_refl b := ⟨le_rfl, by simp⟩
  le_trans b c d hbc hcd := by
    refine ⟨hbc.1.trans hcd.1, ?_⟩
    rw [← hcd.2, ← hbc.2, Nat.div_div_eq_div_mul, ← pow_add]
    have := hbc.1
    have := hcd.1
    congr 2
    omega
  le_antisymm b c hbc hcb := by
    have horder := le_antisymm hbc.1 hcb.1
    refine Block.ext horder ?_
    rw [← hbc.2, horder, Nat.sub_self, pow_zero, Nat.div_one]

theorem mem_of_le (hp : p ∈ b) (h : b ≤ c) : p ∈ c := by
  rw [mem_def, div_two_pow_of_le h.1, mem_def.mp hp]
  exact h.2

/-- **Blocks with a common element are nested.** -/
theorem le_of_mem (hb : p ∈ b) (hc : p ∈ c) (h : b.order ≤ c.order) : b ≤ c := by
  refine ⟨h, ?_⟩
  rw [← mem_def.mp hb, ← div_two_pow_of_le h, mem_def.mp hc]

theorem eq_of_le_of_order (h : b ≤ c) (horder : c.order ≤ b.order) : b = c :=
  le_antisymm h (le_of_mem (mem_of_le b.base_mem h) b.base_mem horder)

theorem lt_iff : b < c ↔ b ≤ c ∧ b.order < c.order := by
  refine ⟨fun h => ⟨h.le, ?_⟩, fun ⟨hle, hlt⟩ => lt_of_le_of_ne hle fun he => ?_⟩
  · by_contra hge
    exact h.ne (eq_of_le_of_order h.le (not_lt.mp hge))
  · rw [he] at hlt
    exact lt_irrefl _ hlt

/-- The blocks have no common element. -/
def Apart (b c : Block) : Prop := ∀ p ∈ b, p ∉ c

theorem Apart.symm (h : Apart b c) : Apart c b := fun p hc hb => h p hb hc

theorem Apart.mono (h : Apart c d) (hle : b ≤ c) : Apart b d :=
  fun p hp => h p (mem_of_le hp hle)

theorem Apart.not_le (h : Apart b c) : ¬ b ≤ c :=
  fun hle => h _ b.base_mem (mem_of_le b.base_mem hle)

theorem Apart.ne (h : Apart b c) : b ≠ c := fun he => h.not_le he.le

theorem apart_or_le (h : b.order ≤ c.order) : Apart b c ∨ b ≤ c := by
  by_cases hle : b ≤ c
  · exact .inr hle
  · exact .inl fun p hb hc => hle (le_of_mem hb hc h)

theorem apart_of_ne (h : b.order = c.order) (hne : b ≠ c) : Apart b c := by
  rcases apart_or_le h.le with ha | hle
  · exact ha
  · exact absurd (eq_of_le_of_order hle h.ge) hne

/-! ## Parents and buddies -/

/-- The block of the next order around `b`. -/
def parent (b : Block) : Block := ⟨b.order + 1, b.index / 2⟩

/-- The other half of the parent. -/
def buddy (b : Block) : Block :=
  ⟨b.order, if b.index % 2 = 0 then b.index + 1 else b.index - 1⟩

/-- The lower half of a block of positive order. -/
def left (c : Block) : Block := ⟨c.order - 1, 2 * c.index⟩

/-- The upper half of a block of positive order. -/
def right (c : Block) : Block := ⟨c.order - 1, 2 * c.index + 1⟩

section

variable (b : Block)

@[simp] theorem parent_order : b.parent.order = b.order + 1 := rfl

@[simp] theorem buddy_order : b.buddy.order = b.order := rfl

theorem buddy_index_div : b.buddy.index / 2 = b.index / 2 := by
  simp only [buddy]
  split <;> omega

theorem buddy_index_ne : b.buddy.index ≠ b.index := by
  simp only [buddy]
  split <;> omega

@[simp] theorem parent_buddy : b.buddy.parent = b.parent :=
  Block.ext rfl b.buddy_index_div

@[simp] theorem buddy_buddy : b.buddy.buddy = b := by
  refine Block.ext rfl ?_
  simp only [buddy]
  split <;> split <;> omega

theorem apart_buddy : Apart b b.buddy :=
  apart_of_ne rfl fun he => b.buddy_index_ne (congrArg index he).symm

theorem le_parent : b ≤ b.parent := by
  refine ⟨by simp, ?_⟩
  simp [parent]

theorem lt_parent : b < b.parent := lt_iff.mpr ⟨b.le_parent, by simp⟩

theorem buddy_le_parent : b.buddy ≤ b.parent := by
  rw [← parent_buddy]
  exact b.buddy.le_parent

end

theorem eq_or_eq_buddy (h : c ≤ b.parent) (horder : c.order = b.order) : c = b ∨ c = b.buddy := by
  have hindex : c.index / 2 = b.index / 2 := by
    have := h.2
    rwa [parent_order, horder, Nat.add_sub_cancel_left, pow_one] at this
  by_cases he : c.index = b.index
  · exact .inl (Block.ext horder he)
  · refine .inr (Block.ext horder ?_)
    simp only [buddy]
    split <;> omega

/-- The block of order `n` around `b`, if `n` is at least the order of `b`. -/
def ancestor (b : Block) (n : ℕ) : Block := ⟨n, b.index / 2 ^ (n - b.order)⟩

theorem le_ancestor (h : b.order ≤ n) : b ≤ b.ancestor n := ⟨h, rfl⟩

theorem ancestor_eq_of_le (h : b ≤ c) : b.ancestor c.order = c := Block.ext rfl h.2

theorem ancestor_le (h : b ≤ c) (hb : b.order ≤ n) (hc : n ≤ c.order) : b.ancestor n ≤ c :=
  le_of_mem (mem_of_le b.base_mem (le_ancestor hb)) (mem_of_le b.base_mem h) hc

/-- **A block lies strictly inside a parent exactly if it lies inside one of the halves.** -/
theorem lt_parent_iff : c < b.parent ↔ c ≤ b ∨ c ≤ b.buddy := by
  refine ⟨fun h => ?_, ?_⟩
  · obtain ⟨hle, hlt⟩ := lt_iff.mp h
    have horder : c.order ≤ b.order := by
      rw [parent_order] at hlt
      omega
    have hanc : c.ancestor b.order ≤ b.parent := ancestor_le hle horder (by simp)
    rcases eq_or_eq_buddy hanc rfl with he | he
    · exact .inl (he ▸ le_ancestor horder)
    · exact .inr (he ▸ le_ancestor horder)
  · rintro (h | h)
    · exact lt_of_le_of_lt h b.lt_parent
    · rw [← parent_buddy]
      exact lt_of_le_of_lt h b.buddy.lt_parent

theorem mem_parent : p ∈ b.parent ↔ p ∈ b ∨ p ∈ b.buddy := by
  refine ⟨fun h => ?_, ?_⟩
  · have hp : p ∈ (⟨0, p⟩ : Block) := by simp [mem_def]
    have hlt : (⟨0, p⟩ : Block) < b.parent :=
      lt_iff.mpr ⟨le_of_mem hp h (Nat.zero_le _), Nat.succ_pos _⟩
    exact (lt_parent_iff.mp hlt).imp (mem_of_le hp) (mem_of_le hp)
  · rintro (h | h)
    · exact mem_of_le h b.le_parent
    · exact mem_of_le h b.buddy_le_parent

theorem parent_le_of_lt (h : b < c) : b.parent ≤ c := by
  obtain ⟨hle, hlt⟩ := lt_iff.mp h
  exact le_of_mem (mem_of_le b.base_mem b.le_parent) (mem_of_le b.base_mem hle) hlt

theorem Apart.parent (h : Apart b c) (h' : Apart b.buddy c) : Apart b.parent c :=
  fun p hp => (mem_parent.mp hp).elim (h p) (h' p)

theorem le_buddy_of_apart (h : Apart c b) (hle : b.buddy ≤ c) : c = b.buddy := by
  by_contra hne
  have hlt : b.buddy < c := lt_of_le_of_ne hle (Ne.symm hne)
  have hpar : b.parent ≤ c := b.parent_buddy ▸ parent_le_of_lt hlt
  exact h b.base (mem_of_le b.base_mem (b.le_parent.trans hpar)) b.base_mem

theorem parent_right (h : 0 < b.order) : b.right.parent = b := by
  refine Block.ext ?_ ?_
  · simp only [parent, right]
    omega
  · simp only [parent, right]
    omega

theorem buddy_right (b : Block) : b.right.buddy = b.left := by
  have hodd : b.right.index % 2 ≠ 0 := by
    simp only [right]
    omega
  refine Block.ext rfl ?_
  change (if b.right.index % 2 = 0 then b.right.index + 1 else b.right.index - 1) = 2 * b.index
  rw [if_neg hodd, right, Nat.add_sub_cancel]

end Block

/-! ## Families without buddies -/

/-- No block of the family is there together with its buddy. -/
def Canonical (F : Set Block) : Prop := ∀ b ∈ F, b.buddy ∉ F

variable {F : Set Block}

theorem Canonical.mono {G : Set Block} (h : Canonical G) (hFG : F ⊆ G) : Canonical F :=
  fun b hb hbuddy => h b (hFG hb) (hFG hbuddy)

theorem Canonical.insert {b : Block} (h : Canonical F) (hb : b.buddy ∉ F) :
    Canonical (insert b F) := by
  rintro c (rfl | hc) (he | hbuddy)
  · exact c.buddy_index_ne (congrArg Block.index he)
  · exact hb hbuddy
  · exact hb (he ▸ c.buddy_buddy.symm ▸ hc)
  · exact h c hc hbuddy

/-- **A canonical family that covers a block has one member around it.** -/
theorem Canonical.exists_le (hF : Canonical F) {x : Block} (hcov : ∀ p ∈ x, ∃ f ∈ F, p ∈ f) :
    ∃ f ∈ F, x ≤ f := by
  obtain ⟨k, i⟩ := x
  induction k generalizing i with
  | zero =>
    obtain ⟨f, hf, hp⟩ := hcov i (by simp [Block.mem_def])
    exact ⟨f, hf, Block.le_of_mem (by simp [Block.mem_def]) hp (Nat.zero_le _)⟩
  | succ k ih =>
    -- The halves have members around them; if neither reaches over its half, they are buddies.
    have hpar : ∀ j, j / 2 = i → (⟨k, j⟩ : Block).parent = ⟨k + 1, i⟩ := fun j hj =>
      Block.ext rfl hj
    have half : ∀ j, j / 2 = i → ∃ f ∈ F, (⟨k, j⟩ : Block) ≤ f := fun j hj =>
      ih j fun p hp => hcov p (hpar j hj ▸ Block.mem_of_le hp (Block.le_parent _))
    obtain ⟨f, hf, hlf⟩ := half (2 * i) (by omega)
    obtain ⟨g, hg, hlg⟩ := half (2 * i + 1) (by omega)
    rcases hlf.eq_or_lt with rfl | hlt
    · rcases hlg.eq_or_lt with rfl | hlt
      · have hbuddy : (⟨k, 2 * i⟩ : Block).buddy = ⟨k, 2 * i + 1⟩ := by
          refine Block.ext rfl ?_
          simp [Block.buddy]
        exact absurd hg (hbuddy ▸ hF _ hf)
      · exact ⟨g, hg, hpar (2 * i + 1) (by omega) ▸ Block.parent_le_of_lt hlt⟩
    · exact ⟨f, hf, hpar (2 * i) (by omega) ▸ Block.parent_le_of_lt hlt⟩

/-- **The pages determine the blocks**: a canonical family of disjoint blocks is contained in every
other one with the same pages. -/
theorem Canonical.subset {G : Set Block} (hF : Canonical F) (hG : Canonical G)
    (hapart : F.Pairwise Block.Apart) (hpages : ∀ p, (∃ f ∈ F, p ∈ f) ↔ ∃ g ∈ G, p ∈ g) :
    F ⊆ G := by
  intro b hb
  obtain ⟨g, hg, hbg⟩ := hG.exists_le fun p hp => (hpages p).mp ⟨b, hb, hp⟩
  obtain ⟨f, hf, hgf⟩ := hF.exists_le fun p hp => (hpages p).mpr ⟨g, hg, hp⟩
  -- The block around `g` is `b` itself, since the blocks of `F` are disjoint.
  have hbf : b = f := by
    by_contra hne
    exact (hapart hb hf hne).not_le (hbg.trans hgf)
  exact hbg.antisymm (hbf ▸ hgf) ▸ hg

end SeaKernel
