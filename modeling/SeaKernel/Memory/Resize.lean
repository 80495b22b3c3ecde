import SeaKernel.Memory.Mmap

/-!
# Resizing a mapping in place

`mapping_resize` is to shrink or to extend the region that starts at an address. To shrink it, the
source splits the region at its old length and removes what is behind: the part that was to go
stays, and what was longer than the caller said goes. To extend it, the source looks for a region
in the way, page by page up to the new end; it does not see one that starts inside a page, and the
new end may wrap.

## Main results

* `resize_sound_iff`: when a call does what it should
-/

namespace SeaKernel.Mapping

open List Option Position Region

/-- The address is covered by a region. -/
def Covered (maps : List Region) (a : ℕ) : Prop := ∃ r ∈ maps, r.Covers a

/-- The bounds of the regions are 64-bit numbers. -/
def Words (maps : List Region) : Prop := ∀ r ∈ maps, r.start < 2 ^ 64 ∧ r.length < 2 ^ 64

/-- What a resize from `oldlen` to `newlen` should have done. A smaller mapping has lost exactly the
end of its range. A larger one is covered by the region that starts at `virt`, and by no other. The
rest is as before, and a call that fails has changed nothing. -/
def ResizeResult (p p' : Process) (virt oldlen newlen : ℕ) : Except Errno Unit → Prop
  | .ok _ =>
    (newlen < oldlen → ∀ a, Covered p'.space.maps a ↔
      Covered p.space.maps a ∧ ¬ (virt + newlen ≤ a ∧ a < virt + oldlen)) ∧
    (oldlen < newlen →
      (∃ r ∈ p.space.maps, r.start = virt ∧ ∃ length, ∀ a, virt ≤ a → a < virt + newlen →
        p'.space.maps.filter (·.Covers a) = [{ r with length := length }]) ∧
      ∀ a, ¬ (virt ≤ a ∧ a < virt + newlen) → (Covered p'.space.maps a ↔ Covered p.space.maps a))
  | .error _ => p' = p

/-- The call returns, with what it should have done. -/
def ResizeSound (p : Process) (virt oldlen newlen : ℕ) : Prop :=
  ∃ p' result, mappingResize p virt oldlen newlen = some (p', result) ∧
    ResizeResult p p' virt oldlen newlen result

/-- The first page address behind a region. -/
def Region.behind (r : Region) : ℕ :=
  u64 (pageFloor (sub64 (u64 (r.start + r.length)) 1) + pageSize)

/-- A page address between the end of a region and its new end is covered. -/
def InTheWay (maps : List Region) (r : Region) (newlen : ℕ) : Prop :=
  r.length < newlen ∧ ∃ v ∈ pagesUpto r.behind (u64 (r.start + newlen)), Covered maps v

/-- A region that is found at its start, and is long enough, is not to be made smaller; and either
there is a region in its way, or its new end does not wrap and it is alone up to there. -/
def Resizable (p : Process) (virt oldlen newlen : ℕ) : Prop :=
  ∀ pos, findRegion p.space.maps virt = some pos → pos.reg.start = virt →
    oldlen ≤ pos.reg.length → oldlen ≠ newlen →
    oldlen < newlen ∧ (InTheWay p.space.maps pos.reg newlen ∨ virt + newlen < 2 ^ 64 ∧
      ∀ r ∈ pos.before ++ pos.after, ∀ a, virt ≤ a → a < virt + newlen → ¬ r.Covers a)

section Resize

variable {p p' : Process} {pos : Position} {virt oldlen newlen a stop : ℕ} {maps : List Region}

theorem mem_pagesUpto {v start : ℕ} : v ∈ pagesUpto start stop ↔
    ∃ i, v = start + i * pageSize ∧ v < stop := by
  simp only [pagesUpto, List.mem_map, List.mem_range]
  constructor
  · rintro ⟨i, hi, rfl⟩
    refine ⟨i, rfl, ?_⟩
    simp only [pageSize] at *
    omega
  · rintro ⟨i, rfl, hlt⟩
    refine ⟨i, ?_, rfl⟩
    simp only [pageSize] at *
    omega

theorem findRegion_isSome : (findRegion maps a).isSome ↔ Covered maps a := by
  constructor
  · intro hsome
    obtain ⟨q, hq⟩ := Option.isSome_iff_exists.mp hsome
    obtain ⟨hlist, hc⟩ := findRegion_some hq
    exact ⟨q.reg, by rw [hlist]; simp [list], hc⟩
  · rintro ⟨r, hr, hc⟩
    by_contra hnone
    exact findRegion_none (Option.not_isSome_iff_eq_none.mp hnone) r hr hc

theorem gapTaken_eq_true (maps : List Region) (hfit : stop + pageSize ≤ 2 ^ 64 ∨ stop ≤ a) :
    ∃ taken, gapTaken maps a stop = some taken ∧
      (taken = true ↔ ∃ v ∈ pagesUpto a stop, Covered maps v) := by
  refine ⟨_, if_pos hfit, ?_⟩
  simp only [List.any_eq_true, findRegion_isSome]

theorem gapTaken_eq_false (h : WellFormed maps) (ha : pageSize ∣ a)
    (hfit : stop + pageSize ≤ 2 ^ 64 ∨ stop ≤ a) :
    ∃ taken, gapTaken maps a stop = some taken ∧
      (taken = false ↔ ∀ x, a ≤ x → x < stop → ¬ Covered maps x) := by
  obtain ⟨taken, htaken, hiff⟩ := gapTaken_eq_true maps hfit
  refine ⟨taken, htaken, ?_⟩
  rw [← Bool.not_eq_true, hiff]
  constructor
  · rintro hnone x hx hx' ⟨r, hr, hc⟩
    -- The page of the address is one that was looked at.
    obtain ⟨i, hi, hlt⟩ : ∃ i, a + i * pageSize ≤ x ∧ x < a + i * pageSize + pageSize := by
      refine ⟨(x - a) / pageSize, ?_, ?_⟩ <;> (simp only [pageSize]; omega)
    refine hnone ⟨_, mem_pagesUpto.mpr ⟨i, rfl, by omega⟩, r, hr, ?_⟩
    exact (covers_page (h.aligned r hr) (Nat.dvd_add ha (Nat.dvd_mul_left _ _)) hi hlt).mp hc
  · rintro hnone ⟨v, hv, hcovered⟩
    obtain ⟨i, rfl, hlt⟩ := mem_pagesUpto.mp hv
    exact hnone _ (Nat.le_add_right _ _) hlt hcovered

theorem WellFormed.setLength (h : WellFormed pos.list) {length : ℕ} (hl : pageSize ∣ length)
    (hllt : length < 2 ^ 64)
    (hfree : ∀ a, Region.Covers { pos.reg with length := length } a → ¬ pos.reg.Covers a →
      ¬ Covered pos.list a) :
    WellFormed (pos.before ++ { pos.reg with length := length } :: pos.after) := by
  have hr : pos.reg.Aligned := h.aligned pos.reg (by simp [list])
  have hcons := h.perm pos.perm
  have hdis := (pairwise_cons.mp hcons.disjoint).1
  have hnew : WellFormed ({ pos.reg with length := length } :: (pos.before ++ pos.after)) := by
    constructor
    · refine forall_mem_cons.mpr ⟨⟨hr.start_dvd, hl, hr.start_lt, hllt⟩, fun x hx => ?_⟩
      exact hcons.aligned x (mem_cons_of_mem _ hx)
    · refine pairwise_cons.mpr ⟨fun x hx a ha hxa => ?_, ?_⟩
      · by_cases hold : pos.reg.Covers a
        · exact hdis x hx a hold hxa
        · exact hfree a ha hold ⟨x, pos.perm.mem_iff.mpr (mem_cons_of_mem _ hx), hxa⟩
      · exact (pairwise_cons.mp hcons.disjoint).2
  exact hnew.perm perm_middle.symm

/-- **Extending a region**: another region is in the way, or the region has its new length. -/
theorem resizeRegion_longer (h : WellFormed pos.list) (hmaps : p.space.maps = pos.list)
    (hnew : pageSize ∣ newlen) (hc : pos.reg.Covers virt) (hstart : pos.reg.start = virt)
    (hle : oldlen ≤ newlen) (hlong : pos.reg.length < newlen) (hend : virt + newlen < 2 ^ 64) :
    resizeRegion p pos virt oldlen newlen = some (p, .error .enomem) ∨
    (resizeRegion p pos virt oldlen newlen = some (
      { space := { p.space with
          maps := pos.before ++ { pos.reg with length := newlen } :: pos.after }
        nextMmapReg := u64 (p.nextMmapReg + (pageFloor (newlen - oldlen) + pageSize)) }, .ok ()) ∧
      WellFormed (pos.before ++ { pos.reg with length := newlen } :: pos.after)) := by
  have hr : pos.reg.Aligned := h.aligned pos.reg (by simp [list])
  have hrfit := hc.lt hr
  have hpos : 0 < pos.reg.length := by
    rw [covers_iff hrfit] at hc
    omega
  have hdvd : pageSize ∣ virt + pos.reg.length :=
    Nat.dvd_add (hstart ▸ hr.start_dvd) hr.length_dvd
  have hceil := pageCeil_of_dvd hdvd
  -- The search starts at the end of the region, which is a page boundary.
  have hsearch : u64 (pageFloor (sub64 (u64 (pos.reg.start + pos.reg.length)) 1) + pageSize) =
      virt + pos.reg.length := by
    rw [u64_of_lt hrfit, hstart, u64_split (by omega) (by omega), hceil]
  have hstop : virt + newlen + pageSize ≤ 2 ^ 64 := by
    have := hr.start_dvd
    rw [hstart] at this
    simp only [pageSize] at *
    omega
  obtain ⟨taken, htaken, hiff⟩ :=
    gapTaken_eq_false (hmaps ▸ h : WellFormed p.space.maps) hdvd (.inl hstop)
  unfold resizeRegion
  rw [if_neg (by omega), if_pos hlong]
  dsimp only
  rw [hsearch, u64_of_lt hend, htaken]
  cases taken with
  | true => exact .inl rfl
  | false =>
    refine .inr ⟨rfl, h.setLength hnew (by omega) fun a ha hold => ?_⟩
    rw [covers_iff (by dsimp only; omega)] at ha
    rw [covers_iff hrfit] at hold
    dsimp only at ha
    rw [← hmaps]
    exact hiff.mp rfl a (by omega) (by omega)

/-- A region that covers an address does not wrap. -/
theorem Region.Covers.fits {r : Region} (hc : r.Covers a)
    (hw : r.start < 2 ^ 64 ∧ r.length < 2 ^ 64) :
    a < r.start + r.length ∧ r.start + r.length < 2 ^ 64 := by
  obtain ⟨hge, hlt⟩ := hc
  simp only [u64] at hlt
  omega

theorem splitRegion_page {r : Region} {split : ℕ} (hpage : pageSize ∣ split)
    (hlt : r.start < split) (hle : split ≤ r.start + r.length)
    (hfit : r.start + r.length < 2 ^ 64) : splitRegion r split =
      ({ r with length := split - r.start },
        { r with start := split, length := r.start + r.length - split }) := by
  have hceil := pageCeil_of_dvd hpage
  rw [splitRegion_of_le hlt (hceil.le.trans hle) hfit, hceil]

/-- To be made smaller, a region is split at its old length, and keeps it. -/
theorem resizeRegion_shrink (hvirt : pageSize ∣ virt) (hold : pageSize ∣ oldlen)
    (hstart : pos.reg.start = virt) (hfit : virt + pos.reg.length < 2 ^ 64)
    (hle : oldlen ≤ pos.reg.length) (hlt : newlen < oldlen) :
    ∃ p', resizeRegion p pos virt oldlen newlen = some (p', .ok ()) ∧
      Covered p'.space.maps (virt + newlen) := by
  subst hstart
  have hsplit := splitRegion_page (Nat.dvd_add hvirt hold) (r := pos.reg) (by omega) (by omega) hfit
  rw [resizeRegion, if_pos hlt, u64_of_lt (by omega), hsplit]
  refine ⟨_, rfl, { pos.reg with length := pos.reg.start + oldlen - pos.reg.start }, ?_, ?_⟩
  · simp only [mappingRemove, foldl_virtualUnmap_maps, nil_append]
    simp
  · rw [covers_iff (by dsimp only; omega)]
    dsimp only
    omega

/-- To be made larger, a region is left alone if another one is in the way. Otherwise it has its new
length, if that is larger than its own. -/
theorem resizeRegion_grow (hnew : pageSize ∣ newlen) (hvirt : pageSize ∣ virt)
    (hstart : pos.reg.start = virt) (hmaps : p.space.maps = pos.list) (hle : oldlen ≤ newlen) :
    (InTheWay p.space.maps pos.reg newlen →
      resizeRegion p pos virt oldlen newlen = some (p, .error .enomem)) ∧
    (¬ InTheWay p.space.maps pos.reg newlen → ∃ p',
      resizeRegion p pos virt oldlen newlen = some (p', .ok ()) ∧ p'.space.maps =
        pos.before ++ { pos.reg with length := max pos.reg.length newlen } :: pos.after) := by
  subst hstart
  unfold resizeRegion
  rw [if_neg (by omega)]
  by_cases hlong : pos.reg.length < newlen
  · -- The new end is a page boundary, so that the search comes to it.
    have hstop : u64 (pos.reg.start + newlen) + pageSize ≤ 2 ^ 64 := by
      simp only [u64, pageSize] at *
      omega
    obtain ⟨taken, htaken, hiff⟩ :=
      gapTaken_eq_true p.space.maps (a := pos.reg.behind) (.inl hstop)
    have hway : InTheWay p.space.maps pos.reg newlen ↔ taken = true := by
      rw [hiff, InTheWay, and_iff_right hlong]
    rw [Region.behind] at htaken
    rw [if_pos hlong, hway]
    dsimp only
    rw [htaken]
    refine ⟨fun h => by rw [h]; rfl, fun h => ?_⟩
    rw [Bool.not_eq_true] at h
    rw [h, max_eq_right hlong.le]
    exact ⟨_, rfl, rfl⟩
  · rw [if_neg hlong]
    refine ⟨fun hway => absurd hway.1 hlong, fun _ => ⟨p, rfl, ?_⟩⟩
    rw [max_eq_left (not_lt.mp hlong), hmaps, list]

theorem filter_covers_eq_singleton {r x : Region} {before after : List Region} (hc : r.Covers a) :
    (before ++ r :: after).filter (·.Covers a) = [x] ↔
      x = r ∧ ∀ y ∈ before ++ after, ¬ y.Covers a := by
  have hnil : ∀ l : List Region, l.filter (·.Covers a) = [] ↔ ∀ y ∈ l, ¬ y.Covers a := by
    intro l
    simp only [List.filter_eq_nil_iff, decide_eq_true_eq]
  rw [filter_append, filter_cons_of_pos (by simpa using hc), ← hnil, filter_append,
    List.append_eq_nil_iff]
  constructor
  · intro heq
    cases hbefore : before.filter (·.Covers a) with
    | nil =>
      rw [hbefore, nil_append, cons.injEq] at heq
      exact ⟨heq.1.symm, rfl, heq.2⟩
    | cons y l =>
      rw [hbefore, cons_append, cons.injEq] at heq
      exact absurd heq.2 (by simp)
  · rintro ⟨rfl, hbefore, hafter⟩
    rw [hbefore, hafter, nil_append]

/-- **A call that makes a region larger** has done what it should exactly if the new end does not
wrap and no other region covers a part of the range. -/
theorem resizeResult_grow (hstart : pos.reg.start = virt) (hvirt : virt < 2 ^ 64)
    (hfit : virt + pos.reg.length < 2 ^ 64) (hmaps : p.space.maps = pos.list)
    (hmaps' : p'.space.maps =
      pos.before ++ { pos.reg with length := max pos.reg.length newlen } :: pos.after)
    (hlt : oldlen < newlen) :
    ResizeResult p p' virt oldlen newlen (.ok ()) ↔ virt + newlen < 2 ^ 64 ∧
      ∀ r ∈ pos.before ++ pos.after, ∀ a, virt ≤ a → a < virt + newlen → ¬ r.Covers a := by
  subst hstart
  have hnew : pos.reg.start + newlen < 2 ^ 64 → ∀ a,
      Region.Covers { pos.reg with length := max pos.reg.length newlen } a ↔
        pos.reg.start ≤ a ∧ (a < pos.reg.start + pos.reg.length ∨ a < pos.reg.start + newlen) := by
    intro hend a
    rw [covers_iff (by dsimp only; omega)]
    dsimp only
    omega
  constructor
  · intro hresult
    obtain ⟨⟨r, -, -, length, hall⟩, -⟩ := hresult.2 hlt
    have hend : pos.reg.start + newlen < 2 ^ 64 := by
      -- No region covers the last address.
      by_contra hwrap
      have hlast := hall (2 ^ 64 - 1) (by omega) (by omega)
      have hmem : { r with length := length } ∈
          p'.space.maps.filter (·.Covers (2 ^ 64 - 1)) := by
        rw [hlast]
        exact mem_singleton_self _
      have hcover : Region.Covers { r with length := length } (2 ^ 64 - 1) := by
        simpa using (mem_filter.mp hmem).2
      have hstop := hcover.2
      simp only [u64] at hstop
      omega
    refine ⟨hend, fun y hy a hge hlt' => ?_⟩
    have hone := hall a hge hlt'
    rw [hmaps', filter_covers_eq_singleton ((hnew hend a).mpr ⟨hge, .inr hlt'⟩)] at hone
    exact hone.2 y hy
  · rintro ⟨hend, halone⟩
    refine ⟨fun hshrink => absurd hshrink (by omega), fun _ => ⟨?_, fun a ha => ?_⟩⟩
    · refine ⟨pos.reg, by rw [hmaps]; simp [list], rfl, max pos.reg.length newlen,
        fun a hge hlt' => ?_⟩
      rw [hmaps', filter_covers_eq_singleton ((hnew hend a).mpr ⟨hge, .inr hlt'⟩)]
      exact ⟨rfl, fun y hy => halone y hy a hge hlt'⟩
    · -- Outside of the range the region covers what it has covered.
      have hsame : Region.Covers { pos.reg with length := max pos.reg.length newlen } a ↔
          pos.reg.Covers a := by
        rw [hnew hend, covers_iff hfit]
        omega
      simp only [Covered, hmaps', hmaps, list, mem_append, mem_cons, or_and_right, exists_or,
        exists_eq_left, hsame]

/-- **A resize does what it should exactly if it does not shrink the region, and either fails or
comes to an end that does not wrap without another region in the range**, for every list of
regions. -/
theorem resize_sound_iff (p : Process) (virt oldlen newlen : ℕ) (hw : Words p.space.maps)
    (hvirt : pageSize ∣ virt) (hold : pageSize ∣ oldlen) (hnew : pageSize ∣ newlen) :
    ResizeSound p virt oldlen newlen ↔ Resizable p virt oldlen newlen := by
  by_cases hsame : oldlen = newlen
  · -- The call does nothing, and the condition asks for nothing.
    have hrun : mappingResize p virt oldlen newlen = some (p, .ok ()) := if_pos hsame
    refine iff_of_true ⟨p, _, hrun, ?_, ?_⟩ fun _ _ _ _ hne => absurd hsame hne
    · intro hlt
      omega
    · intro hlt
      omega
  unfold ResizeSound Resizable mappingResize
  rw [if_neg hsame]
  cases hf : findRegion p.space.maps virt with
  | none => exact iff_of_true ⟨p, _, rfl, rfl⟩ fun pos hpos => by cases hpos
  | some pos =>
    obtain ⟨hlist, hc⟩ := findRegion_some hf
    dsimp only
    by_cases hshort : pos.reg.start ≠ virt ∨ pos.reg.length < oldlen
    · rw [if_pos hshort]
      refine iff_of_true ⟨p, _, rfl, rfl⟩ fun q hq hstart hle => ?_
      obtain rfl := some.inj hq
      rcases hshort with hne | hlt
      · exact absurd hstart hne
      · omega
    · rw [if_neg hshort]
      obtain ⟨hstart, hlong⟩ := not_or.mp hshort
      rw [not_not] at hstart
      have hbounds := hw pos.reg (by rw [hlist]; simp [list])
      have hfit := (hstart ▸ hc : pos.reg.Covers pos.reg.start).fits hbounds
      rw [hstart] at hfit
      simp only [some.injEq, forall_eq', hstart, true_imp_iff, not_lt.mp hlong, hsame, ne_eq,
        not_false_eq_true]
      rcases Nat.lt_or_gt_of_ne hsame with hlt | hgt
      · -- The region is to be made larger.
        obtain ⟨htaken, hfree⟩ := resizeRegion_grow (p := p) hnew hvirt hstart hlist hlt.le
        rw [and_iff_right hlt]
        by_cases hway : InTheWay p.space.maps pos.reg newlen
        · exact iff_of_true ⟨p, _, htaken hway, rfl⟩ (.inl hway)
        · obtain ⟨p', hrun, hmaps'⟩ := hfree hway
          rw [or_iff_right hway,
            ← resizeResult_grow hstart (hstart ▸ hbounds.1) hfit.2 hlist hmaps' hlt]
          constructor
          · rintro ⟨q, result, hq, hresult⟩
            obtain ⟨rfl, rfl⟩ := Prod.mk.inj (some.inj (hrun.symm.trans hq))
            exact hresult
          · exact fun hresult => ⟨p', _, hrun, hresult⟩
      · refine iff_of_false ?_ fun hcond => absurd hcond.1 (by omega)
        rintro ⟨q, result, hq, hresult⟩
        obtain ⟨p', hrun, hcovered⟩ :=
          resizeRegion_shrink (p := p) hvirt hold hstart hfit.2 (not_lt.mp hlong) hgt
        obtain ⟨rfl, rfl⟩ := Prod.mk.inj (some.inj (hrun.symm.trans hq))
        exact ((hresult.1 hgt _).mp hcovered).2 ⟨le_rfl, by omega⟩

/-- Anonymous memory from `0x10000` on, and nothing else. -/
def anonProcess (length : ℕ) : Process where
  space := writablePages length
  nextMmapReg := userMmapRegionStart

theorem resize_extend_sound : ResizeSound (anonProcess 0x1000) 0x10000 0x1000 0x2000 := by
  have hw : Words (anonProcess 0x1000).space.maps := by
    rintro r (_ | ⟨_, ⟨⟩⟩)
    decide
  refine (resize_sound_iff _ _ _ _ hw (by decide) (by decide) (by decide)).mpr ?_
  rintro pos hpos - - -
  obtain rfl := some.inj hpos
  exact ⟨by decide, .inr ⟨by decide, fun r hr => absurd hr not_mem_nil⟩⟩

/-- A region of two pages is to be cut down to one: the call returns 0, and the second page is still
covered. -/
theorem resize_shrink_unsound : ¬ ResizeSound (anonProcess 0x2000) 0x10000 0x2000 0x1000 := by
  rintro ⟨p', result, hrun, hresult⟩
  have hmaps : (mappingResize (anonProcess 0x2000) 0x10000 0x2000 0x1000).map
      (fun x => (x.1.space.maps, x.2.isOk)) = some ((writablePages 0x2000).maps, true) := by
    decide +kernel
  rw [hrun, map_some, some.injEq, Prod.mk.injEq] at hmaps
  cases result with
  | error e => cases hmaps.2
  | ok _ =>
    have hcovered : Covered p'.space.maps 0x11000 := by
      rw [hmaps.1]
      exact ⟨_, mem_singleton_self _, by decide⟩
    exact ((hresult.1 (by decide) 0x11000).mp hcovered).2 ⟨by decide, by decide⟩

end Resize

end SeaKernel.Mapping
