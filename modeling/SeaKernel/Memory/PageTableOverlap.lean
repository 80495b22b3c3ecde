import SeaKernel.Memory.PageTableRefinement

/-!
# Mapping over a mapping

`arch_mm_virtual_map` returns false if the entry that it comes to is not zero. That refuses a page
over a page of the same size, and over smaller pages, for the entry refers to their table. Over a
larger page the walk does not stop: it takes the frame of the page for a table, and words of that
frame for entries. If a word is zero, the call returns true, and it has written to the frame.

No invariant is asked for here: the results hold in every memory.

## Main results

* `refused_iff`: when a page over a mapping is refused
-/

namespace SeaKernel.PageTable

open Radix List Option

/-- A part of the page is translated. -/
def Overlaps (s : Tables) (virt : Word) (pagesize : ℕ) : Prop :=
  ∃ v, SamePage pagesize v virt ∧ archMmVirtualGetmap s v ≠ none

/-- The call is refused: it returns false, leaves all translations as they are, and writes to tables
only, old or new. -/
structure Refused (frames : Fin 3 → Word) (s : Tables) (virt phys : Word) (pagesize : ℕ)
    (flags : Flags) : Prop where
  returns : (archMmVirtualMap frames s virt phys pagesize flags).2 = false
  same : ∀ v, archMmVirtualGetmap (archMmVirtualMap frames s virt phys pagesize flags).1 v =
    archMmVirtualGetmap s v
  writes : ∀ f, (archMmVirtualMap frames s virt phys pagesize flags).1.mem f ≠ s.mem f →
    (∃ q, tableAt slot s.mem 0 s.pml4Phys q = some f) ∨ ∃ k, f = frames k

/-- A larger page covers the address, and one of the words of its frame that the walk takes for
entries is zero. -/
def Misled (s : Tables) (virt : Word) (pagesize : ℕ) : Prop :=
  ∃ t, archMmVirtualGetmap s virt = some t ∧ pagesize < t.size ∧
    if t.size = archMmPageSize 1 then s.mem t.phys (ptIdx virt) = 0
    else if pagesize = archMmPageSize 1 then s.mem t.phys (pdIdx virt) = 0
    else s.mem t.phys (pdIdx virt) = 0 ∨
      s.mem (s.mem t.phys (pdIdx virt) &&& mmuPtePhysMask) (ptIdx virt) = 0

/-- No translation has the frame in its page. -/
def Unmapped (s : Tables) (frame : Word) : Prop :=
  ∀ v t, archMmVirtualGetmap s v = some t →
    ¬ (t.phys.toNat ≤ frame.toNat ∧ frame.toNat < t.phys.toNat + t.size)

/-! ## The words on the way -/

section Words

/-- The entry of the first table. -/
def pml4Word (s : Tables) (virt : Word) : Word := s.mem s.pml4Phys (pml4Idx virt)

/-- The word that is taken for an entry of the second table. -/
def pdptWord (s : Tables) (virt : Word) : Word :=
  s.mem (pml4Word s virt &&& mmuPtePhysMask) (pdptIdx virt)

/-- The word that is taken for an entry of the third table. -/
def pdWord (s : Tables) (virt : Word) : Word :=
  s.mem (pdptWord s virt &&& mmuPtePhysMask) (pdIdx virt)

/-- The word that is taken for an entry of the last table. -/
def ptWord (s : Tables) (virt : Word) : Word :=
  s.mem (pdWord s virt &&& mmuPtePhysMask) (ptIdx virt)

variable {s : Tables} {virt v : Word} {t : Translation}

/-- **The translation of an address, by the words on the way.** -/
theorem getmap_eq_words (s : Tables) (virt : Word) : archMmVirtualGetmap s virt =
      if pml4Word s virt = 0 then none
      else if pdptWord s virt = 0 then none
      else if has (pdptWord s virt) mmuPteLarge then some (translation (1, pdptWord s virt))
      else if pdWord s virt = 0 then none
      else if has (pdWord s virt) mmuPteLarge then some (translation (2, pdWord s virt))
      else if ptWord s virt = 0 then none
      else some (translation (3, ptWord s virt)) := by
  have hentry : entryOf s virt =
      if pml4Word s virt = 0 then none
      else if pdptWord s virt = 0 then none
      else if has (pdptWord s virt) mmuPteLarge then
        some (2, pml4Word s virt &&& mmuPtePhysMask, pdptIdx virt)
      else if pdWord s virt = 0 then none
      else if has (pdWord s virt) mmuPteLarge then
        some (1, pdptWord s virt &&& mmuPtePhysMask, pdIdx virt)
      else some (0, pdWord s virt &&& mmuPtePhysMask, ptIdx virt) := rfl
  rw [archMmVirtualGetmap, hentry]
  split_ifs with h₀ h₁ hl₁ h₂ hl₂ h₃
  · rfl
  · rfl
  · exact if_neg h₁
  · rfl
  · exact if_neg h₂
  · exact if_pos h₃
  · exact if_neg h₃

/-- **What a translation says about the words**, by the size of its page. -/
theorem getmap_cases (h : archMmVirtualGetmap s virt = some t) :
    pml4Word s virt ≠ 0 ∧ pdptWord s virt ≠ 0 ∧
      (has (pdptWord s virt) mmuPteLarge ∧ t = translation (1, pdptWord s virt) ∨
        pdWord s virt ≠ 0 ∧ (has (pdWord s virt) mmuPteLarge ∧ t = translation (2, pdWord s virt) ∨
            ptWord s virt ≠ 0 ∧ t = translation (3, ptWord s virt))) := by
  rw [getmap_eq_words] at h
  split_ifs at h with h₀ h₁ hl₁ h₂ hl₂ h₃
  · exact ⟨h₀, h₁, .inl ⟨hl₁, (some.inj h).symm⟩⟩
  · exact ⟨h₀, h₁, .inr ⟨h₂, .inl ⟨hl₂, (some.inj h).symm⟩⟩⟩
  · exact ⟨h₀, h₁, .inr ⟨h₂, .inr ⟨h₃, (some.inj h).symm⟩⟩⟩

end Words

/-! ## The call -/

section Call

variable {frames : Fin 3 → Word} {s : Tables} {virt v phys : Word} {flags : Flags} {level : ℕ}

/-- The word that the walk of `arch_mm_virtual_map` comes to. -/
def lastWord (s : Tables) (virt : Word) (level : ℕ) : Word :=
  if level = 2 then pdptWord s virt else if level = 1 then pdWord s virt else ptWord s virt

/-- The words on the way to it are not zero. -/
def Reached (s : Tables) (virt : Word) (level : ℕ) : Prop :=
  pml4Word s virt ≠ 0 ∧ (level ≠ 2 → pdptWord s virt ≠ 0 ∧ (level ≠ 1 → pdWord s virt ≠ 0))

section

variable (hlevel : level < 3)

include hlevel

/-- **The call, if nothing has to be allocated**: it sets the last word. -/
theorem map_of_reached (h : Reached s virt level) (frames : Fin 3 → Word) (phys : Word)
    (flags : Flags) :
    ∃ table idx e, s.mem table idx = lastWord s virt level ∧
      archMmVirtualMap frames s virt phys (archMmPageSize level) flags =
        ({ s with mem := (setEntry s.mem table idx e).1 }, (setEntry s.mem table idx e).2) := by
  obtain ⟨h₀, h⟩ := h
  rw [pml4Word] at h₀
  rw [archMmVirtualMap, nextTable_of_ne h₀]
  dsimp only
  by_cases h2 : level = 2
  · subst h2
    rw [if_pos rfl]
    exact ⟨_, _, _, rfl, rfl⟩
  obtain ⟨h₁, h⟩ := h h2
  rw [pdptWord, pml4Word] at h₁
  rw [if_neg (archMmPageSize_lt (by omega) (by decide)).ne, nextTable_of_ne h₁]
  dsimp only
  by_cases h1 : level = 1
  · subst h1
    rw [if_pos rfl]
    exact ⟨_, _, _, rfl, rfl⟩
  have h₂ := h h1
  rw [pdWord, pdptWord, pml4Word] at h₂
  obtain rfl : level = 0 := by omega
  rw [if_neg (by decide), nextTable_of_ne h₂]
  exact ⟨_, _, _, rfl, rfl⟩

theorem map_of_lastWord (h : Reached s virt level) (hlast : lastWord s virt level ≠ 0)
    (frames : Fin 3 → Word) (phys : Word) (flags : Flags) :
    archMmVirtualMap frames s virt phys (archMmPageSize level) flags = (s, false) := by
  obtain ⟨table, idx, e, hword, hmap⟩ := map_of_reached hlevel h frames phys flags
  rw [← hword] at hlast
  rw [hmap, setEntry_of_ne hlast]

theorem map_of_lastWord_zero (h : Reached s virt level) (hlast : lastWord s virt level = 0)
    (frames : Fin 3 → Word) (phys : Word) (flags : Flags) :
    (archMmVirtualMap frames s virt phys (archMmPageSize level) flags).2 = true := by
  obtain ⟨table, idx, e, hword, hmap⟩ := map_of_reached hlevel h frames phys flags
  rw [← hword] at hlast
  rw [hmap, setEntry_of_zero hlast]

omit hlevel in
/-- Where the walk finds a zero in the frame of a page of the largest size, it makes the frame a
table with a new table below. -/
theorem map_of_pdWord_zero (h₀ : pml4Word s virt ≠ 0) (h₁ : pdptWord s virt ≠ 0)
    (h₂ : pdWord s virt = 0) (haligned : PageAligned (frames 2))
    (hne : frames 2 ≠ pdptWord s virt &&& mmuPtePhysMask) (phys : Word) (flags : Flags) :
    (archMmVirtualMap frames s virt phys (archMmPageSize 0) flags).2 = true := by
  rw [pdWord] at h₂
  rw [pdptWord] at h₁ h₂ hne
  rw [pml4Word] at h₀ h₁ h₂ hne
  rw [archMmVirtualMap, nextTable_of_ne h₀]
  dsimp only
  rw [if_neg (by decide), nextTable_of_ne h₁]
  dsimp only
  rw [if_neg (by decide), nextTable_of_zero h₂ haligned]
  dsimp only
  rw [setEntry_of_zero]
  rw [store_frame_of_ne _ _ _ hne, mmPhysicalAllocate, Function.update_self]

/-! ## The words of a page that is translated in part -/

theorem idx_of_samePage (h : SamePage (archMmPageSize level) v virt) :
    pml4Idx v = pml4Idx virt ∧ pdptIdx v = pdptIdx virt ∧
      (level ≠ 2 → pdIdx v = pdIdx virt ∧ (level ≠ 1 → ptIdx v = ptIdx virt)) := by
  simp only [pml4Idx, pdptIdx, pdIdx, ptIdx, ofNat_shiftRight_eq_iff]
  rw [SamePage] at h
  interval_cases level
  · change _ / 0x1000 = _ / 0x1000 at h
    omega
  · change _ / 0x200000 = _ / 0x200000 at h
    omega
  · change _ / 0x40000000 = _ / 0x40000000 at h
    omega

theorem words_of_samePage (h : SamePage (archMmPageSize level) v virt) :
    pml4Word s v = pml4Word s virt ∧ pdptWord s v = pdptWord s virt ∧
      (level ≠ 2 → pdWord s v = pdWord s virt ∧ (level ≠ 1 → ptWord s v = ptWord s virt)) := by
  obtain ⟨hi₀, hi₁, hi⟩ := idx_of_samePage hlevel h
  have h₀ : pml4Word s v = pml4Word s virt := by rw [pml4Word, hi₀, pml4Word]
  have h₁ : pdptWord s v = pdptWord s virt := by rw [pdptWord, hi₁, h₀, pdptWord]
  refine ⟨h₀, h₁, fun hne => ?_⟩
  obtain ⟨hi₂, hi⟩ := hi hne
  have h₂ : pdWord s v = pdWord s virt := by rw [pdWord, hi₂, h₁, pdWord]
  refine ⟨h₂, fun hne => ?_⟩
  rw [ptWord, hi hne, h₂, ptWord]

theorem lt_of_size {l : ℕ} (h : archMmPageSize level < archMmPageSize l) : level < l := by
  by_contra hle
  rcases Nat.lt_or_eq_of_le (Nat.le_of_not_lt hle) with hlt | rfl
  · exact absurd (archMmPageSize_lt hlt hlevel) (Nat.lt_asymm h)
  · exact absurd h (Nat.lt_irrefl _)

omit hlevel in
theorem misled_iff_of_pdpt (hlevel : level < 2)
    (h : archMmVirtualGetmap s virt = some (translation (1, pdptWord s virt))) :
    Misled s virt (archMmPageSize level) ↔ pdWord s virt = 0 ∨ level = 0 ∧ ptWord s virt = 0 := by
  have hlt := archMmPageSize_lt hlevel (show 2 < 3 by decide)
  rw [Misled, h]
  simp only [some.injEq, exists_eq_left']
  -- The size is that of level 2, and the frame that of the second table's entry.
  change archMmPageSize level < archMmPageSize 2 ∧ (if archMmPageSize 2 = archMmPageSize 1 then _
    else if archMmPageSize level = archMmPageSize 1 then pdWord s virt = 0
    else pdWord s virt = 0 ∨ ptWord s virt = 0) ↔ _
  rw [if_neg (by decide), and_iff_right hlt]
  by_cases h1 : level = 1
  · subst h1
    simp
  · obtain rfl : level = 0 := by omega
    rw [if_neg (by decide), and_iff_right rfl]

omit hlevel in
theorem misled_iff_of_pd (h : archMmVirtualGetmap s virt = some (translation (2, pdWord s virt))) :
    Misled s virt (archMmPageSize 0) ↔ ptWord s virt = 0 := by
  rw [Misled, h]
  simp only [some.injEq, exists_eq_left']
  change archMmPageSize 0 < archMmPageSize 1 ∧ (if archMmPageSize 1 = archMmPageSize 1 then
    ptWord s virt = 0 else _) ↔ _
  rw [if_pos rfl, and_iff_right (by decide)]

/-- **The walk over a mapping** has all its words, if it is not misled. -/
theorem reached_of_overlaps (h : Overlaps s virt (archMmPageSize level))
    (hmisled : ¬ Misled s virt (archMmPageSize level)) :
    Reached s virt level ∧ lastWord s virt level ≠ 0 := by
  obtain ⟨v, hsame, hv⟩ := h
  obtain ⟨t, ht⟩ := ne_none_iff_exists'.mp hv
  obtain ⟨hw₀, hw₁, hw⟩ := words_of_samePage (s := s) hlevel hsame
  obtain ⟨h₀, h₁, hcases⟩ := getmap_cases ht
  rw [hw₀] at h₀
  rw [hw₁] at h₁ hcases
  by_cases h2 : level = 2
  · subst h2
    exact ⟨⟨h₀, fun h => absurd rfl h⟩, h₁⟩
  obtain ⟨hw₂, hw⟩ := hw h2
  rw [hw₂] at hcases
  -- A larger page covers the address itself, and then its frame has no zeros on the way.
  have hpd : pdWord s virt ≠ 0 ∧ (level = 0 → ptWord s virt ≠ 0) := by
    by_cases hl₁ : has (pdptWord s virt) mmuPteLarge = true
    · rw [misled_iff_of_pdpt (by omega) (by rw [getmap_eq_words, if_neg h₀, if_neg h₁, if_pos hl₁]),
        not_or, not_and] at hmisled
      exact hmisled
    · obtain ⟨h₂, hcases⟩ := hcases.resolve_left fun h => hl₁ h.1
      refine ⟨h₂, ?_⟩
      rintro rfl
      by_cases hl₂ : has (pdWord s virt) mmuPteLarge = true
      · rwa [misled_iff_of_pd
          (by rw [getmap_eq_words, if_neg h₀, if_neg h₁, if_neg hl₁, if_neg h₂, if_pos hl₂])]
          at hmisled
      · have h₃ := (hcases.resolve_left fun h => hl₂ h.1).1
        rwa [hw (by decide)] at h₃
  by_cases h1 : level = 1
  · subst h1
    exact ⟨⟨h₀, fun _ => ⟨h₁, fun h => absurd rfl h⟩⟩, hpd.1⟩
  · obtain rfl : level = 0 := by omega
    exact ⟨⟨h₀, fun _ => ⟨h₁, fun _ => hpd.1⟩⟩, hpd.2 rfl⟩

/-- **A misled walk** ends in a zero, and the call returns true. -/
theorem map_of_misled (h : Misled s virt (archMmPageSize level)) (haligned : PageAligned (frames 2))
    (hunmapped : Unmapped s (frames 2)) (phys : Word) (flags : Flags) :
    (archMmVirtualMap frames s virt phys (archMmPageSize level) flags).2 = true := by
  have hcopy := h
  obtain ⟨t, ht, hsize, -⟩ := hcopy
  obtain ⟨h₀, h₁, ⟨-, rfl⟩ | ⟨h₂, ⟨-, rfl⟩ | ⟨-, rfl⟩⟩⟩ := getmap_cases ht
  · -- A page of the largest size.
    have hlt : level < 2 := lt_of_size hlevel hsize
    have hne : frames 2 ≠ pdptWord s virt &&& mmuPtePhysMask := by
      intro heq
      refine hunmapped virt _ ht ⟨by rw [heq]; exact Nat.le_refl _, ?_⟩
      rw [heq]
      exact Nat.lt_add_of_pos_right (show 0 < archMmPageSize 2 by decide)
    by_cases h₂ : pdWord s virt = 0
    · by_cases h1 : level = 1
      · subst h1
        exact map_of_lastWord_zero hlevel ⟨h₀, fun _ => ⟨h₁, fun h => absurd rfl h⟩⟩ h₂ _ _ _
      · obtain rfl : level = 0 := by omega
        exact map_of_pdWord_zero h₀ h₁ h₂ haligned hne _ _
    · obtain ⟨rfl, h₃⟩ := ((misled_iff_of_pdpt hlt ht).mp h).resolve_left h₂
      exact map_of_lastWord_zero hlevel ⟨h₀, fun _ => ⟨h₁, fun _ => h₂⟩⟩ h₃ _ _ _
  · -- A page of the middle size.
    have hlt : level < 1 := lt_of_size hlevel hsize
    obtain rfl : level = 0 := by omega
    have h₃ := (misled_iff_of_pd ht).mp h
    exact map_of_lastWord_zero hlevel ⟨h₀, fun _ => ⟨h₁, fun _ => h₂⟩⟩ h₃ _ _ _
  · have hlt : level < 0 := lt_of_size hlevel hsize
    exact absurd hlt (Nat.not_lt_zero level)

end

/-- **Mapping over a mapping is refused** if and only if the walk is not misled: no larger page
covers the address, or the words of its frame that are taken for entries are not zero. -/
theorem refused_iff (hlevel : level < 3) (h : Overlaps s virt (archMmPageSize level))
    (haligned : ∀ k, PageAligned (frames k)) (hunmapped : ∀ k, Unmapped s (frames k)) (phys : Word)
    (flags : Flags) :
    Refused frames s virt phys (archMmPageSize level) flags ↔
      ¬ Misled s virt (archMmPageSize level) := by
  constructor
  · intro hrefused hmisled
    have htrue := map_of_misled hlevel hmisled (haligned 2) (hunmapped 2) phys flags
    rw [hrefused.returns] at htrue
    cases htrue
  · intro hmisled
    obtain ⟨hreached, hlast⟩ := reached_of_overlaps hlevel h hmisled
    have hmap := map_of_lastWord hlevel hreached hlast frames phys flags
    -- The call has done nothing.
    refine ⟨by rw [hmap], fun v => by rw [hmap], fun f hf => ?_⟩
    rw [hmap] at hf
    exact absurd rfl hf

/-! ### Over a small page, and over a large one -/

/-- Three more frames. -/
def otherFrames : Fin 3 → Word := ![0x6000, 0x7000, 0x8000]

theorem space_onePageMapped (v : Word) : archMmVirtualGetmap onePageMapped v =
      if SamePage 0x1000 v 0x400000 then
        some ⟨0x5000, (mapUser ||| mapWrite) &&& mapKept, 0x1000⟩ else none := by
  have hspace := (refines_step (apart_emptyTables ∅) step_onePageMapped).2.space
  exact congrFun hspace v

theorem refused_onePage : Overlaps onePageMapped 0x400000 (archMmPageSize 1) ∧
    Refused otherFrames onePageMapped 0x400000 0x600000 (archMmPageSize 1) mapUser := by
  have hget := space_onePageMapped 0x400000
  rw [if_pos (by decide)] at hget
  have hoverlaps : Overlaps onePageMapped 0x400000 (archMmPageSize 1) :=
    ⟨0x400000, rfl, by rw [hget]; exact some_ne_none _⟩
  refine ⟨hoverlaps,
    (refused_iff (by decide) hoverlaps (by decide) (fun k v t ht => ?_) _ _).mpr ?_⟩
  · rw [space_onePageMapped] at ht
    obtain ⟨-, rfl⟩ := ite_some_none_eq_some.mp ht
    revert k
    decide
  · rintro ⟨t, ht, hlt, -⟩
    rw [hget] at ht
    obtain rfl := some.inj ht
    revert hlt
    decide

/-- A context with one page of the largest size, at address 0. -/
def largeMapped : Tables :=
  (archMmVirtualMap someFrames emptyTables 0 0x40000000 (archMmPageSize 2) mapUser).1

/-- **A small page over a large one is not refused**: the call returns true, and a word of the frame
of the large page has been written. -/
theorem map_over_large : Overlaps largeMapped 0x1000 (archMmPageSize 0) ∧
    (archMmVirtualMap otherFrames largeMapped 0x1000 0x5000 (archMmPageSize 0) mapUser).2 = true ∧
    (archMmVirtualMap otherFrames largeMapped 0x1000 0x5000 (archMmPageSize 0) mapUser).1.mem
      0x40000000 0 ≠ largeMapped.mem 0x40000000 0 ∧
    ¬ Refused otherFrames largeMapped 0x1000 0x5000 (archMmPageSize 0) mapUser := by
  have htrue : (archMmVirtualMap otherFrames largeMapped 0x1000 0x5000 (archMmPageSize 0)
    mapUser).2 = true := by decide +kernel
  refine ⟨⟨0x1000, rfl, by decide +kernel⟩, htrue, by decide +kernel, fun hrefused => ?_⟩
  rw [hrefused.returns] at htrue
  cases htrue

end Call

end SeaKernel.PageTable
