import SeaKernel.Memory.Mapping

/-!
# How the calls cut regions

`map_region_remove` and `map_change_protect` cut regions; what lies behind a cut gets a new
`start` and keeps its `nodepage`.

The calls are described by what becomes of the region that is found at an address. A cut at `p` is
`Region.cut p`: of a region around `p`, the part on the side of the address stays. A removal turns
out to be two cuts, at the ends of its range, whatever the order of the regions in the list. The
*origin* of an address is what its page is computed from: the file, `nodepage` and `start` of the
region that covers it.

## Main results

* `WellFormed.without`: a region loses a part
* `mapRegionRemove_spec`: `map_region_remove` finishes, and is two cuts
-/

namespace SeaKernel.Mapping

open List Option Nat Region

/-- What the page of an address is computed from. -/
structure Origin where
  file : File
  nodepage : ℤ
  start : ℕ
  deriving DecidableEq, Repr

/-- The origin of the address, if it is mapped. -/
def origin (maps : List Region) (addr : ℕ) : Option Origin :=
  (regionAt maps addr).map fun r => ⟨r.file, r.nodepage, r.start⟩

/-- The origin of `addr` after a cut at `p`. -/
def Origin.rebase (p addr : ℕ) (o : Origin) : Origin :=
  if o.start < p ∧ p ≤ addr then { o with start := p } else o

/-- The point lies strictly inside a region. -/
def Inside (maps : List Region) (p : ℕ) : Prop := ∃ r ∈ maps, r.start < p ∧ r.Covers p

/-! ## Parts of regions -/

/-- The region from `lo` up to `hi`, otherwise as it was. -/
def Region.span (r : Region) (lo hi : ℕ) : Region := { r with start := lo, length := hi - lo }

/-- The part of a region on the side of `p` on which `a` is. -/
def Region.cut (p a : ℕ) (r : Region) : Region :=
  if p ≤ a then r.span (max r.start p) (r.start + r.length)
  else r.span r.start (min (r.start + r.length) p)

section Parts

variable {maps rest : List Region} {r x : Region} {lo hi p q a : ℕ} {o : Origin}

theorem Region.span_self : r.span r.start (r.start + r.length) = r := by simp [span]

theorem Region.covers_span (hle : lo ≤ hi) (hhi : hi < 2 ^ 64) :
    (r.span lo hi).Covers a ↔ lo ≤ a ∧ a < hi := by
  rw [covers_iff (by dsimp only [span]; omega)]
  dsimp only [span]
  omega

theorem Region.aligned_span (hlo : pageSize ∣ lo) (hhi : pageSize ∣ hi) (hle : lo ≤ hi)
    (hlt : hi < 2 ^ 64) : (r.span lo hi).Aligned :=
  ⟨hlo, dvd_sub hhi hlo, by dsimp only [span]; omega, by dsimp only [span]; omega⟩

theorem Region.cut_eq_self (hle : r.start ≤ a) (hlt : a < r.start + r.length)
    (hp : ¬ (r.start < p ∧ p < r.start + r.length)) : r.cut p a = r := by
  rw [cut]
  split
  · rw [max_eq_left (by omega), span_self]
  · rw [min_eq_left (by omega), span_self]

theorem Region.cut_cut_of_lt (hle : r.start ≤ a) (hlt : a < r.start + r.length) (hp : a < p)
    (hpq : p ≤ q) : (r.cut p a).cut q a = r.cut p a := by
  refine cut_eq_self ?_ ?_ ?_ <;> (rw [cut, if_neg (by omega)]; dsimp only [span]; omega)

theorem Region.cut_cut_of_ge (hlt : a < r.start + r.length) (hpq : p ≤ q) (hq : q ≤ a) :
    (r.cut p a).cut q a = r.cut q a := by
  have hend : max r.start p + (r.start + r.length - max r.start p) = r.start + r.length := by omega
  rw [cut, cut, cut, if_pos hq, if_pos hq, if_pos (by omega)]
  dsimp only [span]
  rw [hend, max_assoc, max_eq_right hpq]

theorem Region.origin_cut : (⟨(r.cut p a).file, (r.cut p a).nodepage, (r.cut p a).start⟩ : Origin) =
      Origin.rebase p a ⟨r.file, r.nodepage, r.start⟩ := by
  rw [cut, Origin.rebase]
  dsimp only
  by_cases hp : p ≤ a
  · rw [if_pos hp]
    dsimp only [span]
    by_cases hlt : r.start < p
    · rw [if_pos ⟨hlt, hp⟩, max_eq_right hlt.le]
    · rw [if_neg fun h => hlt h.1, max_eq_left (by omega)]
  · rw [if_neg hp, if_neg fun h => hp h.2]
    rfl

theorem WellFormed.origin_eq_some (h : WellFormed maps) :
    origin maps a = some o ↔ ∃ r ∈ maps, r.Covers a ∧ o = ⟨r.file, r.nodepage, r.start⟩ := by
  rw [origin, map_eq_some_iff]
  simp only [h.regionAt_eq_some, and_assoc, eq_comm]

theorem origin_eq_none : origin maps a = none ↔ ∀ r ∈ maps, ¬ r.Covers a := by
  rw [origin, map_eq_none_iff, regionAt_eq_none]

theorem Covers.of_le (h : r.Covers a) (hp : r.start ≤ p) (hpa : p ≤ a) : r.Covers p :=
  ⟨hp, hpa.trans_lt h.2⟩

theorem WellFormed.bounds (h : WellFormed maps) (hr : regionAt maps a = some r) :
    r ∈ maps ∧ r.start ≤ a ∧ a < r.start + r.length ∧ r.start + r.length < 2 ^ 64 := by
  obtain ⟨hmem, hc⟩ := h.regionAt_eq_some.mp hr
  have hfit := hc.lt (h.aligned r hmem)
  have hcov := (covers_iff hfit).mp hc
  exact ⟨hmem, hcov.1, hcov.2, hfit⟩

theorem WellFormed.cut_eq_self (h : WellFormed maps) (hx : regionAt maps a = some x)
    (hp : ¬ Inside maps p) : x.cut p a = x := by
  obtain ⟨hmem, hle, hlt, hfit⟩ := h.bounds hx
  refine Region.cut_eq_self hle hlt fun hin => hp ⟨x, hmem, hin.1, ?_⟩
  exact (Region.covers_iff hfit).mpr ⟨hin.1.le, hin.2⟩

theorem WellFormed.eq_of_around (h : WellFormed maps) (hr : r ∈ maps) (hpos : 0 < r.length)
    (hfit : r.start + r.length < 2 ^ 64) (hle : r.start ≤ p) (hge : p ≤ r.start + r.length)
    (hx : x ∈ maps) (hlt : x.start < p) (hc : x.Covers p) : x = r := by
  by_cases hp : p < r.start + r.length
  · exact h.eq_of_covers hx hr hc ((covers_iff hfit).mpr ⟨hle, hp⟩)
  · refine h.eq_of_covers hx hr (Covers.of_le hc (p := p - 1) (by omega) (by omega)) ?_
    exact (covers_iff hfit).mpr (by omega)

theorem Region.covers_page (hr : r.Aligned) (hp : pageSize ∣ p) (ha : p ≤ a)
    (hlt : a < p + pageSize) : r.Covers a ↔ r.Covers p := by
  have hs := hr.start_dvd
  have hl := hr.length_dvd
  have hlen := hr.length_lt
  have hstart := hr.start_lt
  simp only [Covers, u64, pageSize] at *
  omega

theorem Region.Aligned.page_le (hr : r.Aligned) (hp : pageSize ∣ p) (hlt : p < r.start + r.length) :
    p + pageSize ≤ r.start + r.length := by
  have hs := hr.start_dvd
  have hl := hr.length_dvd
  simp only [pageSize] at *
  omega

end Parts

/-! ## Cutting a region -/

/-- The first page boundary not before the address. -/
def pageCeil (addr : ℕ) : ℕ := (addr + (pageSize - 1)) / pageSize * pageSize

theorem le_pageCeil (addr : ℕ) : addr ≤ pageCeil addr := by
  simp only [pageCeil, pageSize]
  omega

theorem pageCeil_lt (addr : ℕ) : pageCeil addr < addr + pageSize := by
  simp only [pageCeil, pageSize]
  omega

theorem pageSize_dvd_pageCeil (addr : ℕ) : pageSize ∣ pageCeil addr := dvd_mul_left _ _

theorem pageCeil_le {a e : ℕ} (h : a ≤ e) (he : pageSize ∣ e) : pageCeil a ≤ e := by
  simp only [pageCeil, pageSize] at *
  omega

theorem pageCeil_of_dvd {addr : ℕ} (h : pageSize ∣ addr) : pageCeil addr = addr :=
  le_antisymm (pageCeil_le le_rfl h) (le_pageCeil addr)

section Cut

variable {r : Region} {rest : List Region} {p q a : ℕ}

/-- `__split_region` rounds up. -/
theorem u64_split (hpos : 0 < p) (hfit : pageCeil p < 2 ^ 64) :
    u64 (pageFloor (sub64 p 1) + pageSize) = pageCeil p := by
  have hle := le_pageCeil p
  rw [sub64_of_le (by omega) hpos]
  simp only [pageCeil, pageFloor, u64, pageSize] at *
  omega

theorem splitRegion_of_le (hlt : r.start < p) (hceil : pageCeil p ≤ r.start + r.length)
    (hfit : r.start + r.length < 2 ^ 64) :
    splitRegion r p = ({ r with length := pageCeil p - r.start },
      { r with start := pageCeil p, length := r.start + r.length - pageCeil p }) := by
  have hle := le_pageCeil p
  have hrest : r.length - (pageCeil p - r.start) = r.start + r.length - pageCeil p := by omega
  rw [splitRegion, u64_split (by omega) (by omega), sub64_of_le (by omega) (by omega),
    sub64_of_le (by omega) (by omega), hrest]

theorem splitRegion_ceil (hr : r.Aligned) (hlt : r.start < p) (hle : p ≤ r.start + r.length)
    (hfit : r.start + r.length < 2 ^ 64) :
    pageCeil p ≤ r.start + r.length ∧
      splitRegion r p = ({ r with length := pageCeil p - r.start },
          { r with start := pageCeil p, length := r.start + r.length - pageCeil p }) := by
  have hceil := pageCeil_le hle (dvd_add hr.start_dvd hr.length_dvd)
  exact ⟨hceil, splitRegion_of_le hlt hceil hfit⟩

theorem splitRegion_eq (hr : r.Aligned) (hp : pageSize ∣ p) (hlt : r.start < p) (hc : r.Covers p) :
    splitRegion r p = (r.span r.start p, r.span p (r.start + r.length)) := by
  have hfit := hc.lt hr
  rw [covers_iff hfit] at hc
  have heq := (splitRegion_ceil hr hlt (by omega) hfit).2
  rwa [pageCeil_of_dvd hp] at heq

/-- The parts of a split region in the list: the upper one at the head, the lower one in the
place of the region. -/
theorem perm_pair {α : Type*} (x y : α) (l₁ l₂ : List α) :
    ([x, y] ++ (l₁ ++ l₂)).Perm (y :: (l₁ ++ x :: l₂)) := by
  have hmid : (x :: (l₁ ++ l₂)).Perm (l₁ ++ x :: l₂) := perm_middle.symm
  exact (List.Perm.swap y x (l₁ ++ l₂)).trans (hmid.cons y)

/-- What is left of a region without the addresses from `p` up to `q`. Empty parts are dropped. -/
def Region.without (r : Region) (p q : ℕ) : List Region :=
  [{ r with length := p - r.start },
    { r with start := q, length := r.start + r.length - q }].filter (·.length ≠ 0)

theorem Region.mem_without {x : Region} : x ∈ r.without p q ↔ r.start < p ∧ x = r.span r.start p ∨
      q < r.start + r.length ∧ x = r.span q (r.start + r.length) := by
  simp only [without, span, mem_filter, mem_cons, not_mem_nil, or_false,
    decide_eq_true_eq]
  constructor
  · rintro ⟨rfl | rfl, hpos⟩
    · exact .inl ⟨by dsimp only at hpos; omega, rfl⟩
    · exact .inr ⟨by dsimp only at hpos; omega, rfl⟩
  · rintro (⟨hlt, rfl⟩ | ⟨hlt, rfl⟩)
    · exact ⟨.inl rfl, by dsimp only; omega⟩
    · exact ⟨.inr rfl, by dsimp only; omega⟩

/-- **A region loses `[p, q)`**: its other addresses, and other regions, are cut at both ends. -/
theorem WellFormed.without (h : WellFormed (r :: rest)) (hp : pageSize ∣ p) (hq : pageSize ∣ q)
    (hrp : r.start ≤ p) (hpq : p ≤ q) (hqr : q ≤ r.start + r.length) (hpos : 0 < r.length)
    (hfit : r.start + r.length < 2 ^ 64) :
    WellFormed (r.without p q ++ rest) ∧ ∀ a, regionAt (r.without p q ++ rest) a =
      if p ≤ a ∧ a < q then none else
        (regionAt (r :: rest) a).map fun x => (x.cut p a).cut q a := by
  have hr := h.aligned r mem_cons_self
  have hlow : ∀ a, (r.span r.start p).Covers a ↔ r.start ≤ a ∧ a < p :=
    fun a => covers_span hrp (by omega)
  have hhigh : ∀ a, (r.span q (r.start + r.length)).Covers a ↔ q ≤ a ∧ a < r.start + r.length :=
    fun a => covers_span hqr hfit
  have hparts : WellFormed (r.without p q) := by
    refine ⟨fun x hx => ?_, List.Pairwise.filter _ (pairwise_pair.mpr fun a ha hb => ?_)⟩
    · rcases mem_without.mp hx with ⟨-, rfl⟩ | ⟨-, rfl⟩
      · exact aligned_span hr.start_dvd hp hrp (by omega)
      · exact aligned_span hq (dvd_add hr.start_dvd hr.length_dvd) hqr hfit
    · have := (hlow a).mp ha
      have := (hhigh a).mp hb
      omega
  obtain ⟨hwf, hat⟩ := h.replace hparts fun x hx a ha => by
    rw [covers_iff hfit]
    rcases mem_without.mp hx with ⟨-, rfl⟩ | ⟨-, rfl⟩
    · have := (hlow a).mp ha
      omega
    · have := (hhigh a).mp ha
      omega
  refine ⟨hwf, fun a => (hat a).trans ?_⟩
  by_cases hc : r.Covers a
  · rw [if_pos hc, h.regionAt_eq_some.mpr ⟨mem_cons_self, hc⟩, map_some]
    rw [covers_iff hfit] at hc
    by_cases hmid : p ≤ a ∧ a < q
    · rw [if_pos hmid, regionAt_eq_none]
      intro x hx ha
      rcases mem_without.mp hx with ⟨-, rfl⟩ | ⟨-, rfl⟩
      · have := (hlow a).mp ha
        omega
      · have := (hhigh a).mp ha
        omega
    · rw [if_neg hmid, hparts.regionAt_eq_some, mem_without]
      by_cases hbehind : q ≤ a
      · rw [cut_cut_of_ge hc.2 hpq hbehind, cut, if_pos hbehind, max_eq_right (by omega)]
        exact ⟨.inr ⟨by omega, rfl⟩, (hhigh a).mpr ⟨hbehind, hc.2⟩⟩
      · rw [cut_cut_of_lt hc.1 hc.2 (by omega) hpq, cut, if_neg (by omega), min_eq_right (by omega)]
        exact ⟨.inl ⟨by omega, rfl⟩, (hlow a).mpr ⟨hc.1, by omega⟩⟩
  · -- Another region is not around the ends of the part.
    have hmid : ¬ (p ≤ a ∧ a < q) := fun hin => hc ((covers_iff hfit).mpr (by omega))
    rw [if_neg hc, if_neg hmid]
    cases hx : regionAt (r :: rest) a with
    | none => rfl
    | some x =>
      obtain ⟨hmem, hle, hlt, hxfit⟩ := h.bounds hx
      have hself : ∀ b, r.start ≤ b → b ≤ r.start + r.length → x.cut b a = x := by
        refine fun b hb hb' => Region.cut_eq_self hle hlt fun hin => hc ?_
        have heq := h.eq_of_around mem_cons_self hpos hfit hb hb' hmem hin.1
          ((covers_iff hxfit).mpr ⟨hin.1.le, hin.2⟩)
        exact heq ▸ (h.regionAt_eq_some.mp hx).2
      rw [map_some, hself p hrp (by omega), hself q (by omega) hqr]

theorem Proper.without (h : Proper (r :: rest)) (hwf : WellFormed (r.without p q ++ rest))
    (hpq : p ≤ q) (hqr : q ≤ r.start + r.length) : Proper (r.without p q ++ rest) := by
  have hfit := h.fits r mem_cons_self
  refine ⟨hwf, forall_mem_append.mpr ⟨fun x hx => ?_, ?_⟩,
    forall_mem_append.mpr ⟨fun x hx => ?_, ?_⟩⟩
  · rcases Region.mem_without.mp hx with ⟨hlt, rfl⟩ | ⟨hlt, rfl⟩ <;>
      (dsimp only [Region.span]; omega)
  · exact (forall_mem_cons.mp h.pos).2
  · rcases Region.mem_without.mp hx with ⟨hlt, rfl⟩ | ⟨hlt, rfl⟩ <;>
      (dsimp only [Region.span]; omega)
  · exact (forall_mem_cons.mp h.fits).2

end Cut

/-! ## Removing pages -/

section Remove

variable {s s' : AddressSpace} {v a : ℕ}

theorem foldl_virtualUnmap_maps (l : List ℕ) (s : AddressSpace) :
    (l.foldl AddressSpace.virtualUnmap s).maps = s.maps := by
  induction l generalizing s with
  | nil => rfl
  | cons v l ih => exact ih _

theorem settle_maps (s : AddressSpace) (p : Position) :
    (settle s p).maps = if p.reg.length = 0 then p.before ++ p.after else p.list := by
  unfold settle
  split
  · exact foldl_virtualUnmap_maps _ _
  · rfl

/-- **`map_region_remove` on one page** takes the page out of the region that covers it. -/
theorem removePage_perm (h : WellFormed s.maps) (hv : pageSize ∣ v) :
    ∃ s', removePage 2 s v = some s' ∧ ((∀ r ∈ s.maps, ¬ r.Covers v) ∧ s' = s ∨
        ∃ p : Position, s.maps = p.list ∧ p.reg.Covers v ∧
          s'.maps.Perm (p.reg.without v (v + pageSize) ++ (p.before ++ p.after))) := by
  rw [removePage]
  cases hf : findRegion s.maps v with
  | none => exact ⟨s, rfl, .inl ⟨findRegion_none hf, rfl⟩⟩
  | some p =>
    obtain ⟨hlist, hc⟩ := findRegion_some hf
    have hr : p.reg.Aligned := h.aligned p.reg (hlist ▸ p.mem_list)
    have hfit := hc.lt hr
    have hcov := (Region.covers_iff hfit).mp hc
    have hnext : u64 (v + pageSize) = v + pageSize :=
      u64_of_lt ((hr.page_le hv hcov.2).trans_lt hfit)
    dsimp only
    -- The region found in the last round starts at `v`; what is behind the page stays.
    have hshort : ∀ len, len + v = p.reg.start + p.reg.length →
        (if len < pageSize then 0 else len - pageSize) =
          p.reg.start + p.reg.length - (v + pageSize) := by
      intro len hlen
      split <;> omega
    by_cases hstart : v = p.reg.start
    · rw [if_pos hstart]
      refine ⟨_, rfl, .inr ⟨p, hlist, hc, ?_⟩⟩
      rw [Region.without, settle_maps, hshort _ (by omega), ← hstart, hnext]
      dsimp only
      by_cases hzero : v + p.reg.length - (v + pageSize) = 0
      · simp [hzero]
      · simp [hzero, Position.list, perm_middle]
    · have hlast : v ≠ pageFloor (u64 (p.reg.start + p.reg.length)) := by
        rw [u64_of_lt hfit, pageFloor, mod_eq_zero_of_dvd (dvd_add hr.start_dvd hr.length_dvd)]
        omega
      have hold : (p.reg.span p.reg.start v).length ≠ 0 := by
        dsimp only [Region.span]
        omega
      have hnew : (p.reg.span v (p.reg.start + p.reg.length)).Covers v :=
        (Region.covers_span hcov.2.le hfit).mpr ⟨le_rfl, hcov.2⟩
      rw [if_neg hstart, if_neg hlast, splitRegion_eq hr hv (by omega) hc]
      dsimp only
      rw [settle, if_neg hold, Position.list, cons_append, removePage, findRegion, if_pos hnew]
      dsimp only [Region.span] at hold ⊢
      rw [if_pos rfl]
      refine ⟨_, rfl, .inr ⟨p, hlist, hc, ?_⟩⟩
      rw [settle_maps, hshort _ (by omega), hnext, Region.without]
      dsimp only
      by_cases hzero : p.reg.start + p.reg.length - (v + pageSize) = 0
      · simp [hzero, hold, perm_middle]
      · rw [if_neg hzero]
        simp only [Position.list, nil_append, ne_eq, decide_not, hzero, hold, decide_false,
          Bool.not_false, filter_cons_of_pos, filter_nil, cons_append]
        exact (perm_pair _ _ _ _).symm

/-- What a list of regions is after the addresses from `start` up to `stop` were removed. -/
structure RangeRemoved (maps maps' : List Region) (start stop : ℕ) : Prop where
  wf : WellFormed maps'
  proper : Proper maps → Proper maps'
  regionAt_eq : ∀ a, regionAt maps' a =
    if start ≤ a ∧ a < stop then none
    else if start < stop then (regionAt maps a).map fun r => (r.cut start a).cut stop a
    else regionAt maps a

theorem removePage_spec (h : WellFormed s.maps) (hv : pageSize ∣ v) :
    ∃ s', removePage 2 s v = some s' ∧ RangeRemoved s.maps s'.maps v (v + pageSize) := by
  have hpage : v < v + pageSize := Nat.lt_add_of_pos_right (by decide)
  obtain ⟨s', hok, ⟨hnone, rfl⟩ | ⟨p, hlist, hc, hperm⟩⟩ := removePage_perm h hv
  · -- No region reaches into the page, so none is around its ends.
    have hfree : ∀ x, v ≤ x → x < v + pageSize → ∀ r ∈ s'.maps, ¬ r.Covers x :=
      fun x hx hx' r hr hc => hnone r hr ((covers_page (h.aligned r hr) hv hx hx').mp hc)
    refine ⟨s', hok, h, id, fun a => ?_⟩
    split
    · next hin => exact regionAt_eq_none.mpr (hfree a hin.1 hin.2)
    · cases hx : regionAt s'.maps a with
      | none => rfl
      | some x =>
        have hstart : ¬ Inside s'.maps v := fun ⟨r, hr, _, hc⟩ => hnone r hr hc
        have hend : ¬ Inside s'.maps (v + pageSize) := fun ⟨r, hr, hlt, hc⟩ =>
          hfree (v + pageSize - 1) (by omega) (by omega) r hr
            (Covers.of_le hc (by omega) (by omega))
        rw [map_some, h.cut_eq_self hx hstart, h.cut_eq_self hx hend]
  · have hwf : WellFormed (p.reg :: (p.before ++ p.after)) := h.perm (hlist ▸ p.perm)
    have hr := hwf.aligned p.reg mem_cons_self
    have hfit := hc.lt hr
    rw [covers_iff hfit] at hc
    obtain ⟨hwf', hat⟩ := hwf.without hv (Nat.dvd_add hv dvd_rfl) hc.1 hpage.le
      (hr.page_le hv hc.2) (by omega) hfit
    refine ⟨s', hok, hwf'.perm hperm.symm, fun hproper => ?_, fun a => ?_⟩
    · exact ((hproper.perm (hlist ▸ p.perm)).without hwf' hpage.le
        (hr.page_le hv hc.2)).perm hperm.symm
    · rw [hwf'.regionAt_perm hperm.symm, hat, h.regionAt_perm (hlist ▸ p.perm), if_pos hpage]

theorem removePages_spec {start : ℕ} (h : WellFormed s.maps) (hs : pageSize ∣ start) (n : ℕ) :
    ∃ s', ((List.range n).map fun i => start + i * pageSize).foldlM (removePage 2) s = some s' ∧
      RangeRemoved s.maps s'.maps start (start + n * pageSize) := by
  induction n with
  | zero =>
    refine ⟨s, rfl, h, id, fun a => ?_⟩
    rw [if_neg (by omega), if_neg (by omega)]
  | succ n ih =>
    obtain ⟨s₁, hok₁, h₁⟩ := ih
    have hv : pageSize ∣ start + n * pageSize := dvd_add hs (dvd_mul_left _ _)
    obtain ⟨s₂, hok₂, h₂⟩ := removePage_spec h₁.wf hv
    have hpos : 0 < pageSize := by decide
    have hstop : start + (n + 1) * pageSize = start + n * pageSize + pageSize := by ring
    refine ⟨s₂, ?_, h₂.wf, h₂.proper ∘ h₁.proper, fun a => ?_⟩
    · rw [range_succ, map_append, foldlM_append, hok₁]
      simp [hok₂]
    · rw [h₂.regionAt_eq, h₁.regionAt_eq, hstop]
      have hmid : start ≤ start + n * pageSize := le_add_right _ _
      generalize start + n * pageSize = mid at *
      by_cases hin : start ≤ a ∧ a < mid + pageSize
      · rw [if_pos hin]
        split
        · rfl
        · rw [if_pos (by omega), if_pos (by omega), map_none]
      · have hpage : ¬ (mid ≤ a ∧ a < mid + pageSize) := by omega
        have hrange : ¬ (start ≤ a ∧ a < mid) := by omega
        have hlt : start < mid + pageSize := by omega
        rw [if_neg hin, if_neg hpage, if_neg hrange, if_pos hlt, if_pos (by omega)]
        cases hx : regionAt s.maps a with
        | none => split <;> rfl
        | some x =>
          obtain ⟨-, hle, hlt, -⟩ := h.bounds hx
          split
          · -- Of the cuts before or behind the address only the nearest one counts.
            rw [map_some, map_some, map_some]
            by_cases hbehind : a < start
            · rw [cut_cut_of_lt hle hlt hbehind hmid, cut_cut_of_lt hle hlt hbehind hmid,
                cut_cut_of_lt hle hlt hbehind (by omega)]
            · rw [cut_cut_of_ge hlt (by omega) (by omega : mid ≤ a),
                cut_cut_of_ge hlt le_rfl (by omega),
                cut_cut_of_ge hlt (by omega) (by omega),
                cut_cut_of_ge hlt (by omega) (by omega)]
          · obtain rfl : start = mid := by omega
            rfl

/-- **`map_region_remove`** removes its range and cuts at its ends. -/
theorem mapRegionRemove_spec {start len : ℕ} (h : WellFormed s.maps) (hs : pageSize ∣ start)
    (hl : pageSize ∣ len) :
    ∃ s', mapRegionRemove s start len = some s' ∧
      RangeRemoved s.maps s'.maps start (u64 (start + len)) := by
  have hstop : pageSize ∣ u64 (start + len) :=
    (dvd_mod_iff (by decide)).mpr (dvd_add hs hl)
  obtain ⟨s', hok, hrem⟩ :=
    removePages_spec h hs ((u64 (start + len) - start + (pageSize - 1)) / pageSize)
  refine ⟨s', hok, hrem.wf, hrem.proper, fun a => ?_⟩
  rw [hrem.regionAt_eq]
  rcases lt_or_ge start (u64 (start + len)) with hlt | hge
  · have heq : start + (u64 (start + len) - start + (pageSize - 1)) / pageSize * pageSize =
        u64 (start + len) := by
      simp only [pageSize] at *
      omega
    rw [heq]
  · have heq : (u64 (start + len) - start + (pageSize - 1)) / pageSize = 0 := by
      rw [Nat.sub_eq_zero_of_le hge]
      decide
    rw [heq, zero_mul, add_zero, if_neg (by omega), if_neg (by omega), if_neg (by omega),
      if_neg (by omega)]

theorem RangeRemoved.origin_eq {maps maps' : List Region} {start stop : ℕ}
    (hrem : RangeRemoved maps maps' start stop) (h : WellFormed maps) (a : ℕ) :
    origin maps' a = if start ≤ a ∧ a < stop then none
      else if start < stop then (origin maps a).map (Origin.rebase stop a) else origin maps a := by
  rw [origin, hrem.regionAt_eq]
  split
  · rfl
  · next hout =>
    split
    · next hlt =>
      cases hx : regionAt maps a with
      | none => rw [origin, hx]; rfl
      | some x =>
        obtain ⟨-, hle, hlt', -⟩ := h.bounds hx
        rw [origin, hx, map_some, map_some, map_some, map_some]
        by_cases hbehind : a < start
        · rw [cut_cut_of_lt hle hlt' hbehind hlt.le, origin_cut, Origin.rebase,
            Origin.rebase, if_neg (by omega), if_neg (by omega)]
        · rw [cut_cut_of_ge hlt' hlt.le (by omega), origin_cut]
    · rfl

end Remove

end SeaKernel.Mapping
