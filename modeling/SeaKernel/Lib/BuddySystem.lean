import SeaKernel.Lib.Dyadic

/-!
# Buddy systems

The bookkeeping of a buddy system in terms of dyadic blocks: which blocks are free, which are
held by somebody, and which marks are clear. A mark is clear inside a free block, and strictly
inside a held one; so the mark of a held block is the lowest one that is set at its first
element, and the mark of its buddy tells whether the buddy is free.

`Ledger` states this, and the four moves of a buddy system keep it: a free block is taken, a held
block is given back, a held block and its free buddy are merged, a held block is split.

## Main definitions

* `Ledger`: the invariant, over the blocks whose marks are `tracked`

## Main results

* `Ledger.take`, `Ledger.give`, `Ledger.merge`, `Ledger.split`, `Ledger.adopt`: the moves
* `Ledger.clear_buddy_iff`: the mark of a held block's buddy
-/

namespace SeaKernel

open List Set

/-- The free and the held blocks are pairwise disjoint and make up the pages, and the tracked
marks are clear inside free blocks and strictly inside held ones. -/
structure Ledger (tracked free clear : Set Block) (held : List Block) (pages : Finset ℕ) :
    Prop where
  free_apart : free.Pairwise Block.Apart
  free_held : ∀ f ∈ free, ∀ b ∈ held, f.Apart b
  held_apart : held.Pairwise Block.Apart
  mem_pages : ∀ p, p ∈ pages ↔ (∃ f ∈ free, p ∈ f) ∨ ∃ b ∈ held, p ∈ b
  mem_clear : ∀ b ∈ tracked, b ∈ clear ↔ (∃ f ∈ free, b ≤ f) ∨ ∃ c ∈ held, b < c

namespace Ledger

open Block

variable {tracked free free' clear clear' : Set Block} {held held' : List Block}
  {pages : Finset ℕ} {b c x : Block}

theorem empty (tracked : Set Block) : Ledger tracked ∅ ∅ [] ∅ where
  free_apart := pairwise_empty _
  free_held := by simp
  held_apart := .nil
  mem_pages := by simp
  mem_clear := by simp

variable (h : Ledger tracked free clear held pages)

include h

theorem congr (hfree : free' = free) (hclear : ∀ b ∈ tracked, b ∈ clear' ↔ b ∈ clear) :
    Ledger tracked free' clear' held pages := by
  subst hfree
  exact ⟨h.free_apart, h.free_held, h.held_apart, h.mem_pages,
    fun b hb => (hclear b hb).trans (h.mem_clear b hb)⟩

theorem perm (hp : held.Perm held') : Ledger tracked free clear held' pages where
  free_apart := h.free_apart
  free_held f hf b hb := h.free_held f hf b (hp.mem_iff.mpr hb)
  held_apart := hp.pairwise h.held_apart fun hbc => hbc.symm
  mem_pages p := by simp only [h.mem_pages p, hp.mem_iff]
  mem_clear b hb := by simp only [h.mem_clear b hb, hp.mem_iff]

/-! ## Reading the marks -/

theorem clear_of_free (ht : b ∈ tracked) (hb : b ∈ free) : b ∈ clear :=
  (h.mem_clear b ht).mpr (.inl ⟨b, hb, le_rfl⟩)

theorem clear_of_lt_held (ht : x ∈ tracked) (hb : b ∈ held) (hlt : x < b) : x ∈ clear :=
  (h.mem_clear x ht).mpr (.inr ⟨b, hb, hlt⟩)

omit h in
theorem not_clear_of_held (h : Ledger tracked free clear (b :: held) pages) (ht : b ∈ tracked) :
    b ∉ clear := by
  rw [h.mem_clear b ht]
  rintro (⟨f, hf, hle⟩ | ⟨c, hc, hlt⟩)
  · exact (h.free_held f hf b (by simp)).symm.not_le hle
  · rcases mem_cons.mp hc with rfl | hc
    · exact lt_irrefl _ hlt
    · exact (rel_of_pairwise_cons h.held_apart hc).not_le hlt.le

omit h in
/-- **The mark of a held block's buddy is clear exactly if the buddy is free.** -/
theorem clear_buddy_iff (h : Ledger tracked free clear (b :: held) pages)
    (ht : b.buddy ∈ tracked) : b.buddy ∈ clear ↔ b.buddy ∈ free := by
  refine ⟨fun hclear => ?_, h.clear_of_free ht⟩
  rcases (h.mem_clear _ ht).mp hclear with ⟨f, hf, hle⟩ | ⟨c, hc, hlt⟩
  · rwa [← le_buddy_of_apart (h.free_held f hf b (by simp)) hle]
  · -- What lies around the buddy and is not the buddy lies around `b` as well.
    have hpar : b ≤ c := b.le_parent.trans (b.parent_buddy ▸ parent_le_of_lt hlt)
    rcases mem_cons.mp hc with rfl | hc
    · exact absurd hlt.le c.apart_buddy.symm.not_le
    · exact absurd hpar (rel_of_pairwise_cons h.held_apart hc).not_le

/-! ## The moves -/

theorem take (hb : b ∈ free) : Ledger tracked (free \ {b}) (clear \ {b}) (b :: held) pages where
  free_apart := h.free_apart.mono sdiff_subset
  free_held := by
    rintro f ⟨hf, hne⟩ c hc
    rcases mem_cons.mp hc with rfl | hc
    · exact h.free_apart hf hb hne
    · exact h.free_held f hf c hc
  held_apart := pairwise_cons.mpr ⟨fun c hc => h.free_held b hb c hc, h.held_apart⟩
  mem_pages p := by
    rw [h.mem_pages p]
    constructor
    · rintro (⟨f, hf, hp⟩ | ⟨c, hc, hp⟩)
      · by_cases he : f = b
        · exact .inr ⟨b, by simp, he ▸ hp⟩
        · exact .inl ⟨f, ⟨hf, he⟩, hp⟩
      · exact .inr ⟨c, by simp [hc], hp⟩
    · rintro (⟨f, hf, hp⟩ | ⟨c, hc, hp⟩)
      · exact .inl ⟨f, hf.1, hp⟩
      · rcases mem_cons.mp hc with rfl | hc
        · exact .inl ⟨c, hb, hp⟩
        · exact .inr ⟨c, hc, hp⟩
  mem_clear x hx := by
    rw [mem_sdiff, h.mem_clear x hx, mem_singleton_iff]
    constructor
    · rintro ⟨⟨f, hf, hle⟩ | ⟨c, hc, hlt⟩, hne⟩
      · by_cases he : f = b
        · exact .inr ⟨b, by simp, lt_of_le_of_ne (he ▸ hle) hne⟩
        · exact .inl ⟨f, ⟨hf, he⟩, hle⟩
      · exact .inr ⟨c, by simp [hc], hlt⟩
    · rintro (⟨f, ⟨hf, hne⟩, hle⟩ | ⟨c, hc, hlt⟩)
      · refine ⟨.inl ⟨f, hf, hle⟩, ?_⟩
        rintro rfl
        exact (h.free_apart hb hf (Ne.symm hne)).not_le hle
      · rcases mem_cons.mp hc with rfl | hc
        · exact ⟨.inl ⟨c, hb, hlt.le⟩, hlt.ne⟩
        · refine ⟨.inr ⟨c, hc, hlt⟩, fun he => ?_⟩
          exact (h.free_held b hb c hc).not_le (he ▸ hlt.le)

omit h in
theorem give (h : Ledger tracked free clear (b :: held) pages) :
    Ledger tracked (insert b free) (insert b clear) held pages where
  free_apart := by
    refine h.free_apart.insert fun f hf _ => ?_
    have hfb : f.Apart b := h.free_held f hf b (by simp)
    exact ⟨hfb.symm, hfb⟩
  free_held := by
    rintro f (rfl | hf) c hc
    · exact rel_of_pairwise_cons h.held_apart hc
    · exact h.free_held f hf c (by simp [hc])
  held_apart := h.held_apart.of_cons
  mem_pages p := by
    rw [h.mem_pages p]
    simp only [mem_insert_iff, mem_cons, exists_eq_or_imp, or_assoc, or_left_comm]
  mem_clear x hx := by
    rw [mem_insert_iff, h.mem_clear x hx]
    simp only [mem_insert_iff, mem_cons, exists_eq_or_imp, le_iff_lt_or_eq (b := b),
      or_assoc, or_left_comm]

omit h in
theorem merge (h : Ledger tracked free clear (b :: held) pages) (hb : b.buddy ∈ free) :
    Ledger tracked (free \ {b.buddy}) (insert b clear) (b.parent :: held) pages where
  free_apart := h.free_apart.mono sdiff_subset
  free_held := by
    rintro f ⟨hf, hne⟩ c hc
    rcases mem_cons.mp hc with rfl | hc
    · exact ((h.free_held f hf b (by simp)).symm.parent (h.free_apart hb hf (Ne.symm hne))).symm
    · exact h.free_held f hf c (by simp [hc])
  held_apart := by
    refine pairwise_cons.mpr ⟨fun c hc => ?_, h.held_apart.of_cons⟩
    exact (rel_of_pairwise_cons h.held_apart hc).parent (h.free_held _ hb c (by simp [hc]))
  mem_pages p := by
    rw [h.mem_pages p]
    simp only [mem_cons, exists_eq_or_imp, mem_parent]
    constructor
    · rintro (⟨f, hf, hp⟩ | hp | hp)
      · by_cases he : f = b.buddy
        · exact .inr (.inl (.inr (he ▸ hp)))
        · exact .inl ⟨f, ⟨hf, he⟩, hp⟩
      · exact .inr (.inl (.inl hp))
      · exact .inr (.inr hp)
    · rintro (⟨f, hf, hp⟩ | (hp | hp) | hp)
      · exact .inl ⟨f, hf.1, hp⟩
      · exact .inr (.inl hp)
      · exact .inl ⟨b.buddy, hb, hp⟩
      · exact .inr (.inr hp)
  mem_clear x hx := by
    rw [mem_insert_iff, h.mem_clear x hx]
    simp only [mem_cons, exists_eq_or_imp, lt_parent_iff]
    constructor
    · rintro (rfl | ⟨f, hf, hle⟩ | hlt | hlt)
      · exact .inr (.inl (.inl le_rfl))
      · by_cases he : f = b.buddy
        · exact .inr (.inl (.inr (he ▸ hle)))
        · exact .inl ⟨f, ⟨hf, he⟩, hle⟩
      · exact .inr (.inl (.inl hlt.le))
      · exact .inr (.inr hlt)
    · rintro (⟨f, hf, hle⟩ | (hle | hle) | hlt)
      · exact .inr (.inl ⟨f, hf.1, hle⟩)
      · exact hle.eq_or_lt.imp id fun hlt => .inr (.inl hlt)
      · exact .inr (.inl ⟨b.buddy, hb, hle⟩)
      · exact .inr (.inr (.inr hlt))

omit h in
theorem split (h : Ledger tracked free clear (c :: held) pages) (hc : 0 < c.order) :
    Ledger tracked (insert c.left free) (clear \ {c.right}) (c.right :: held) pages := by
  have hpar : c.right.parent = c := parent_right hc
  have hbuddy : c.right.buddy = c.left := buddy_right c
  have hright : c.right ≤ c := c.right.le_parent.trans hpar.le
  have hleft : c.left ≤ c := by
    rw [← hbuddy]
    exact c.right.buddy_le_parent.trans hpar.le
  have hapart : c.left.Apart c.right := by
    rw [← hbuddy]
    exact c.right.apart_buddy.symm
  have hfree : ∀ f ∈ free, c.Apart f := fun f hf => (h.free_held f hf c (by simp)).symm
  have hheld : ∀ d ∈ held, c.Apart d := fun d hd => rel_of_pairwise_cons h.held_apart hd
  constructor
  · exact h.free_apart.insert fun f hf _ =>
      ⟨(hfree f hf).mono hleft, ((hfree f hf).mono hleft).symm⟩
  · rintro f (rfl | hf) d hd
    · rcases mem_cons.mp hd with rfl | hd
      · exact hapart
      · exact (hheld d hd).mono hleft
    · rcases mem_cons.mp hd with rfl | hd
      · exact ((hfree f hf).mono hright).symm
      · exact h.free_held f hf d (by simp [hd])
  · exact pairwise_cons.mpr ⟨fun d hd => (hheld d hd).mono hright, h.held_apart.of_cons⟩
  · intro p
    have hp : p ∈ c ↔ p ∈ c.right ∨ p ∈ c.left := by rw [← hbuddy, ← mem_parent, hpar]
    rw [h.mem_pages p]
    simp only [mem_insert_iff, mem_cons, exists_eq_or_imp, hp, or_assoc, or_left_comm]
  · intro x hx
    have hlt : x < c ↔ x ≤ c.right ∨ x ≤ c.left := by rw [← hbuddy, ← lt_parent_iff, hpar]
    rw [mem_sdiff, h.mem_clear x hx, mem_singleton_iff]
    simp only [mem_insert_iff, mem_cons, exists_eq_or_imp, hlt]
    constructor
    · rintro ⟨hf | (hle | hle) | hd, hne⟩
      · exact .inl (.inr hf)
      · exact .inr (.inl (lt_of_le_of_ne hle hne))
      · exact .inl (.inl hle)
      · exact .inr (.inr hd)
    · rintro ((hle | ⟨f, hf, hle⟩) | hlt | ⟨d, hd, hlt⟩)
      · refine ⟨.inr (.inl (.inr hle)), ?_⟩
        rintro rfl
        exact hapart.symm.not_le hle
      · refine ⟨.inl ⟨f, hf, hle⟩, ?_⟩
        rintro rfl
        exact ((hfree f hf).mono hright).not_le hle
      · exact ⟨.inr (.inl (.inl hlt.le)), hlt.ne⟩
      · refine ⟨.inr (.inr ⟨d, hd, hlt⟩), ?_⟩
        rintro rfl
        exact ((hheld d hd).mono hright).not_le hlt.le

theorem adopt {p : ℕ} (hp : p ∉ pages) :
    Ledger tracked free clear (⟨0, p⟩ :: held) (insert p pages) := by
  have hmem : ∀ q, q ∈ (⟨0, p⟩ : Block) ↔ q = p := fun q => by simp [mem_def]
  have hnot : ¬ ((∃ f ∈ free, p ∈ f) ∨ ∃ b ∈ held, p ∈ b) := (h.mem_pages p).not.mp hp
  push Not at hnot
  refine ⟨h.free_apart, ?_, ?_, ?_, ?_⟩
  · intro f hf b hb q hq
    rcases mem_cons.mp hb with rfl | hb
    · rw [hmem]
      rintro rfl
      exact hnot.1 f hf hq
    · exact h.free_held f hf b hb q hq
  · refine pairwise_cons.mpr ⟨fun b hb q hq => ?_, h.held_apart⟩
    rw [(hmem q).mp hq]
    exact hnot.2 b hb
  · intro q
    simp only [Finset.mem_insert, h.mem_pages q, mem_cons, exists_eq_or_imp, hmem, or_left_comm]
  · intro x hx
    have hlt : ¬ x < (⟨0, p⟩ : Block) := fun hlt => Nat.not_lt_zero _ (lt_iff.mp hlt).2
    rw [h.mem_clear x hx]
    simp only [mem_cons, exists_eq_or_imp, hlt, false_or]

end Ledger

end SeaKernel
