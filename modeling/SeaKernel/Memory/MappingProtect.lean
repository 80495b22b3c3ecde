import SeaKernel.Memory.MappingOrigins

/-!
# What a change of protection does

`map_change_protect` goes through its range region by region. It cuts a region where it comes to it
and at the end of the range, gives the part in between the protection, and sets the flags of one
entry of the page table, the one of the page it has come to. It ends with an error where write
access is denied. The end of the range need not be at a page: then the last cut is at the page
boundary behind it, where it can leave an empty region.

## Main results

* `protectRegion_changed`: one round
* `mapChangeProtect_outcome`: a call comes to the end of its range or to where access is denied
* `mapChangeProtect_pages`: only entries of touched pages change, and only in their flags
-/

namespace SeaKernel.Mapping

open Function List Option Nat Region Origin Position

/-- Write access is asked for at an address whose file does not allow it. -/
def Denied (maps : List Region) (prot : Prot) (a : ℕ) : Prop :=
  ∃ o, origin maps a = some o ∧ prot.write = true ∧ o.file.write = false

/-- An entry of the page table with new flags. -/
def Pte.setProt (prot : Prot) (pte : Pte) : Pte :=
  { pte with write := prot.write, exec := prot.exec }

/-- The parts of a region, of which the one from `p` up to `q` has another protection. -/
def Region.reprotected (r : Region) (p q : ℕ) (prot : Prot) : List Region :=
  { r with start := p, length := q - p, prot := prot } :: r.without p q

def Region.setProt (prot : Prot) (r : Region) : Region := { r with prot := prot }

/-- What becomes of the region at `a` when the protection from `p` up to `q` changes. -/
def Region.protect (prot : Prot) (p q a : ℕ) (r : Region) : Region :=
  if p < q then
    if p ≤ a ∧ a < q then ((r.cut p a).cut q a).setProt prot else (r.cut p a).cut q a
  else r

/-- The address is the first one of a region from `start` up to `stop`, or `start` itself. -/
def First (maps : List Region) (start stop x : ℕ) : Prop :=
  start ≤ x ∧ x < stop ∧ ∃ r, regionAt maps x = some r ∧ (r.start = x ∨ x = start)

/-- What a change of protection has done that came from `start` to `stop`. -/
structure Changed (s s' : AddressSpace) (prot : Prot) (start stop : ℕ) : Prop where
  wf : WellFormed s'.maps
  regionAt_eq : ∀ a, regionAt s'.maps a =
    (regionAt s.maps a).map (Region.protect prot start stop a)
  page_in : ∀ n, First s.maps start stop (n * pageSize) →
    s'.pages n = (s.pages n).map (Pte.setProt prot)
  page_out : ∀ n, ¬ First s.maps start stop (n * pageSize) → s'.pages n = s.pages n

/-! ## Regions -/

section Regions

variable {maps rest : List Region} {r x : Region} {p q e a : ℕ} {prot : Prot}

theorem Region.protect_of_le (h : q ≤ p) : r.protect prot p q a = r := if_neg (by omega)

theorem Region.protect_eq_self (hle : r.start ≤ a) (hlt : a < r.start + r.length)
    (hp : ¬ (r.start < p ∧ p < r.start + r.length))
    (hq : ¬ (r.start < q ∧ q < r.start + r.length)) (ha : ¬ (p ≤ a ∧ a < q)) :
    r.protect prot p q a = r := by
  rw [protect, if_neg ha, cut_eq_self hle hlt hp, cut_eq_self hle hlt hq, ite_self]

theorem Region.protect_file : (r.protect prot p q a).file = r.file ∧
    (r.protect prot p q a).flags = r.flags := by
  simp only [protect, setProt, cut, span]
  split_ifs <;> exact ⟨rfl, rfl⟩

theorem Region.cut_setProt : (r.setProt prot).cut p a = (r.cut p a).setProt prot := by
  simp only [cut, setProt, span]
  split <;> rfl

theorem Region.protect_protect (hle : r.start ≤ a) (hlt : a < r.start + r.length) (hpe : p < e)
    (heq : e ≤ q) (he : e = q ∨ ¬ (r.start < e ∧ e < r.start + r.length)) :
    (r.protect prot p e a).protect prot e q a = r.protect prot p q a := by
  rcases heq.eq_or_lt with rfl | heq'
  · rw [protect_of_le le_rfl]
  have he := he.resolve_left heq'.ne
  by_cases hae : a < e
  · -- The region ends at `e` at the latest, so the later cuts do nothing.
    have hcut : ∀ {c}, e ≤ c → (r.cut p a).cut c a = r.cut p a := by
      intro c hc
      refine cut_eq_self ?_ ?_ ?_ <;> (rw [cut]; split <;> (dsimp only [span]; omega))
    rw [protect, if_pos heq', if_neg (by omega), protect, if_pos hpe, protect,
      if_pos (hpe.trans heq'), hcut le_rfl, hcut heq]
    by_cases hpa : p ≤ a
    · rw [if_pos ⟨hpa, hae⟩, if_pos ⟨hpa, by omega⟩, cut_setProt, cut_setProt, hcut le_rfl,
        hcut heq]
    · rw [if_neg (by omega), if_neg (by omega), hcut le_rfl, hcut heq]
  · -- The region starts at `e` at the earliest, so the first change does nothing.
    have hstart : e ≤ r.start := by omega
    have hp : r.cut p a = r := cut_eq_self hle hlt (by omega)
    rw [protect_eq_self hle hlt (by omega) (by omega) (by omega), protect, if_pos heq', protect,
      if_pos (hpe.trans heq'), hp, cut_eq_self hle hlt he]
    exact if_congr (by omega) rfl rfl

theorem denied_iff_regionAt : Denied maps prot a ↔
    ∃ r, regionAt maps a = some r ∧ (prot.write && !r.file.write) = true := by
  simp [Denied, origin]

theorem WellFormed.reprotected (h : WellFormed (r :: rest)) (hp : pageSize ∣ p) (hq : pageSize ∣ q)
    (hrp : r.start ≤ p) (hpq : p < q) (hqr : q ≤ r.start + r.length)
    (hfit : r.start + r.length < 2 ^ 64) (prot : Prot) :
    WellFormed (r.reprotected p q prot ++ rest) ∧ ∀ a, regionAt (r.reprotected p q prot ++ rest) a =
        (regionAt (r :: rest) a).map (Region.protect prot p q a) := by
  obtain ⟨hwf, hat⟩ := h.without hp hq hrp hpq.le hqr (by omega) hfit
  have hmid : ∀ a, Region.Covers { r with start := p, length := q - p, prot := prot } a ↔
      p ≤ a ∧ a < q := fun a => Region.covers_span (r := r) hpq.le (by omega)
  refine ⟨⟨forall_mem_cons.mpr ⟨?_, hwf.aligned⟩,
    pairwise_cons.mpr ⟨fun x hx a ha => ?_, hwf.disjoint⟩⟩, fun a => ?_⟩
  · obtain ⟨h₁, h₂, h₃, h₄⟩ := Region.aligned_span (r := r) hp hq hpq.le (by omega)
    exact ⟨h₁, h₂, h₃, h₄⟩
  · -- The other parts leave a gap there.
    exact regionAt_eq_none.mp ((hat a).trans (if_pos ((hmid a).mp ha))) x hx
  · rw [Region.reprotected, cons_append, regionAt_cons, hat]
    by_cases hin : p ≤ a ∧ a < q
    · have hc : r.Covers a := (Region.covers_iff hfit).mpr (by omega)
      rw [if_pos ((hmid a).mpr hin), h.regionAt_eq_some.mpr ⟨mem_cons_self, hc⟩,
        map_some, Region.protect, if_pos hpq, if_pos hin, Region.cut, if_neg (by omega),
        Region.cut, if_pos hin.1]
      dsimp only [Region.span, Region.setProt]
      rw [max_eq_right hrp, min_eq_right (by omega)]
    · rw [if_neg ((hmid a).not.mpr hin), if_neg hin]
      refine congrArg (Option.map · _) (funext fun x => ?_)
      rw [Region.protect, if_pos hpq, if_neg hin]

theorem Proper.reprotected (h : Proper (r :: rest)) (hwf : WellFormed (r.without p q ++ rest))
    (hwf' : WellFormed (r.reprotected p q prot ++ rest)) (hpq : p < q)
    (hqr : q ≤ r.start + r.length) : Proper (r.reprotected p q prot ++ rest) := by
  have hfit := h.fits r mem_cons_self
  have hproper := h.without hwf hpq.le hqr
  exact ⟨hwf', forall_mem_cons.mpr ⟨by dsimp only; omega, hproper.pos⟩,
    forall_mem_cons.mpr ⟨by dsimp only; omega, hproper.fits⟩⟩

theorem WellFormed.append_empty {extra : List Region} (h : WellFormed maps)
    (hextra : ∀ x ∈ extra, x.Aligned ∧ x.length = 0) :
    WellFormed (extra ++ maps) ∧ ∀ a, regionAt (extra ++ maps) a = regionAt maps a := by
  induction extra with
  | nil => exact ⟨h, fun _ => rfl⟩
  | cons x extra ih =>
    obtain ⟨⟨hx, hzero⟩, hrest⟩ := forall_mem_cons.mp hextra
    obtain ⟨hwf, hat⟩ := ih hrest
    have hnot : ∀ a, ¬ x.Covers a := fun a ha => by
      have := (covers_iff (ha.lt hx)).mp ha
      omega
    refine ⟨⟨forall_mem_cons.mpr ⟨hx, hwf.aligned⟩,
      pairwise_cons.mpr ⟨fun y _ a ha => absurd ha (hnot a), hwf.disjoint⟩⟩, fun a => ?_⟩
    rw [cons_append, regionAt_cons, if_neg (hnot a), hat]

end Regions

/-! ## Rounds -/

theorem u64_add_length {x n : ℕ} (hn : x + n < 2 ^ 64) :
    u64 (x + sub64 n pageSize + pageSize) = x + n := by
  simp only [u64, sub64, pageSize]
  omega

section Rounds

variable {s s₁ s' : AddressSpace} {p : Position} {prot : Prot} {virt len start e stop : ℕ}

theorem Changed.refl (h : WellFormed s.maps) (start : ℕ) : Changed s s prot start start where
  wf := h
  regionAt_eq a := by
    have hid : protect prot start start a = id := funext fun _ => protect_of_le le_rfl
    rw [hid, Option.map_id, id]
  page_in n hn := absurd hn.2.1 (not_lt.mpr hn.1)
  page_out _ _ := rfl

theorem Changed.denied_iff (h : Changed s s' prot start stop) (a : ℕ) :
    Denied s'.maps prot a ↔ Denied s.maps prot a := by
  simp only [denied_iff_regionAt, h.regionAt_eq, map_eq_some_iff]
  constructor
  · rintro ⟨_, ⟨r, hr, rfl⟩, hw⟩
    exact ⟨r, hr, by rwa [protect_file.1] at hw⟩
  · rintro ⟨r, hr, hw⟩
    exact ⟨_, ⟨r, hr, rfl⟩, by rwa [protect_file.1]⟩

/-- **The rounds go on** from a point that is not inside a region. -/
theorem Changed.trans (h : WellFormed s.maps) (h₁ : Changed s s₁ prot start e)
    (h₂ : Changed s₁ s' prot e stop) (hse : start < e) (hes : e ≤ stop)
    (he : e = stop ∨ ¬ Inside s.maps e) : Changed s s' prot start stop := by
  have hout : ∀ {a r}, regionAt s.maps a = some r →
      e = stop ∨ ¬ (r.start < e ∧ e < r.start + r.length) := by
    refine fun hr => he.imp_right fun hin hlt => ?_
    obtain ⟨hmem, -, -, hfit⟩ := h.bounds hr
    exact hin ⟨_, hmem, hlt.1, (covers_iff hfit).mpr ⟨hlt.1.le, hlt.2⟩⟩
  -- Behind `e` the same addresses come first.
  have hfirst : ∀ {x}, e ≤ x → (First s₁.maps e stop x ↔ First s.maps start stop x) := by
    intro x hx
    simp only [First, h₁.regionAt_eq, map_eq_some_iff]
    constructor
    · rintro ⟨-, hlt, _, ⟨r, hr, rfl⟩, hat⟩
      obtain ⟨-, hle, hend, -⟩ := h.bounds hr
      have hin := (hout hr).resolve_left (by omega)
      rw [protect_eq_self hle hend (by omega) hin (by omega)] at hat
      exact ⟨by omega, hlt, r, hr, .inl (by omega)⟩
    · rintro ⟨-, hlt, r, hr, hat⟩
      obtain ⟨-, hle, hend, -⟩ := h.bounds hr
      have hin := (hout hr).resolve_left (by omega)
      refine ⟨hx, hlt, _, ⟨r, hr, rfl⟩, ?_⟩
      rw [protect_eq_self hle hend (by omega) hin (by omega)]
      omega
  have hbefore : ∀ {x}, x < e → (First s.maps start e x ↔ First s.maps start stop x) := by
    intro x hx
    exact ⟨fun ⟨hle, _, hr⟩ => ⟨hle, by omega, hr⟩, fun ⟨hle, _, hr⟩ => ⟨hle, hx, hr⟩⟩
  refine ⟨h₂.wf, fun a => ?_, fun n hn => ?_, fun n hn => ?_⟩
  · rw [h₂.regionAt_eq, h₁.regionAt_eq]
    cases hr : regionAt s.maps a with
    | none => rfl
    | some r =>
      obtain ⟨-, hle, hlt, -⟩ := h.bounds hr
      rw [map_some, map_some, map_some, protect_protect hle hlt hse hes (hout hr)]
  · by_cases hx : e ≤ n * pageSize
    · rw [h₂.page_in n ((hfirst hx).mpr hn), h₁.page_out n fun hf => absurd hf.2.1 (by omega)]
    · rw [h₂.page_out n fun hf => absurd hf.1 (by omega),
        h₁.page_in n ((hbefore (by omega)).mpr hn)]
  · by_cases hx : e ≤ n * pageSize
    · rw [h₂.page_out n ((hfirst hx).not.mpr hn), h₁.page_out n fun hf => absurd hf.2.1 (by omega)]
    · rw [h₂.page_out n fun hf => absurd hf.1 (by omega),
        h₁.page_out n ((hbefore (by omega)).not.mpr hn)]

/-- **A page that is not mapped** is passed over. -/
theorem Changed.hole (prot : Prot) (h : WellFormed s.maps) (hstart : pageSize ∣ start)
    (hnone : ∀ r ∈ s.maps, ¬ r.Covers start) :
    Changed s s prot start (start + pageSize) ∧ ¬ Inside s.maps (start + pageSize) ∧
      ∀ x, start ≤ x → x < start + pageSize → ¬ Denied s.maps prot x := by
  have hpos : 0 < pageSize := by decide
  have hfree : ∀ x, start ≤ x → x < start + pageSize → regionAt s.maps x = none :=
    fun x hx hx' => regionAt_eq_none.mpr fun r hr hc =>
      hnone r hr ((covers_page (h.aligned r hr) hstart hx hx').mp hc)
  -- A region around the end of the page would reach into it.
  have hend : ¬ Inside s.maps (start + pageSize) := fun ⟨r, hr, hlt, hc⟩ =>
    regionAt_eq_none.mp (hfree (start + pageSize - 1) (by omega) (by omega)) r hr
      (Covers.of_le hc (by omega) (by omega))
  refine ⟨⟨h, fun a => ?_, fun n hn => ?_, fun _ _ => rfl⟩, hend, fun x hx hx' hd => ?_⟩
  · cases hr : regionAt s.maps a with
    | none => rfl
    | some r =>
      have hin : ¬ (start ≤ a ∧ a < start + pageSize) := fun ha => by
        rw [hfree a ha.1 ha.2] at hr
        cases hr
      rw [map_some, protect, if_pos (by omega), if_neg hin,
        h.cut_eq_self hr fun ⟨r, hr, _, hc⟩ => hnone r hr hc, h.cut_eq_self hr hend]
  · obtain ⟨hle, hlt, r, hr, -⟩ := hn
    rw [hfree _ hle hlt] at hr
    cases hr
  · obtain ⟨r, hr, -⟩ := denied_iff_regionAt.mp hd
    rw [hfree x hx hx'] at hr
    cases hr

/-- What is left of the range from an address of it on. -/
theorem sub64_rest (hvirt : virt < 2 ^ 64) (hlt : start < u64 (virt + len)) :
    sub64 len (sub64 start virt) = u64 (virt + len) - start := by
  simp only [u64, sub64] at *
  omega

theorem protectRegion_pages (s : AddressSpace) (virt len : ℕ) (prot : Prot) (start : ℕ)
    (p : Position) (n : ℕ) :
    (protectRegion s virt len prot start p).1.pages n =
      if n = start / pageSize then (s.pages n).map (Pte.setProt prot) else s.pages n := by
  have hfloor : pageFloor start / pageSize = start / pageSize := by
    simp only [pageFloor, pageSize]
    omega
  have hpages : (protectRegion s virt len prot start p).1.pages =
      update s.pages (pageFloor start / pageSize)
        ((s.pages (pageFloor start / pageSize)).map (Pte.setProt prot)) := rfl
  rw [hpages, hfloor, update_apply]
  split
  · next hn => rw [hn]
  · rfl

theorem filter_length_ne {r : Region} :
    [r].filter (·.length ≠ 0) = if r.length = 0 then [] else [r] := by
  by_cases h : r.length = 0 <;> simp [h]

/-- **One round** gives the protection to the part of the region from where it starts up to the end
of the region or of the last page of the range. If the range ends inside of the last page of the
region, an empty region is left behind. -/
theorem protectRegion_perm (s : AddressSpace) (prot : Prot) (h : WellFormed p.list)
    (hstart : pageSize ∣ start) (hc : p.reg.Covers start) (hvirt : virt < 2 ^ 64)
    (hstop : u64 (virt + len) = stop) (hlt : start < stop)
    (he : min (p.reg.start + p.reg.length) (pageCeil stop) = e) :
    (protectRegion s virt len prot start p).2 = e ∧
      ∃ extra, (protectRegion s virt len prot start p).1.maps.Perm
          (extra ++ (p.reg.reprotected start e prot ++ (p.before ++ p.after))) ∧
        (∀ x ∈ extra, x.Aligned ∧ x.length = 0) ∧ (pageSize ∣ stop → extra = []) := by
  have hr : p.reg.Aligned := h.aligned p.reg p.mem_list
  have hfit := hc.lt hr
  have hcov := (Region.covers_iff hfit).mp hc
  have hend := Nat.dvd_add hr.start_dvd hr.length_dvd
  have hrem : sub64 len (sub64 start virt) = stop - start := by
    rw [← hstop] at hlt ⊢
    exact sub64_rest hvirt hlt
  -- The region from `start` on, and what is around it in the list.
  obtain ⟨mid, hmid⟩ : ∃ mid, p.reg.span start (p.reg.start + p.reg.length) = mid := ⟨_, rfl⟩
  have hmidAl : mid.Aligned := hmid ▸ Region.aligned_span hstart hend hcov.2.le hfit
  have hmidEnd : mid.start = start ∧ mid.start + mid.length = p.reg.start + p.reg.length := by
    rw [← hmid]
    dsimp only [Region.span]
    omega
  have hfirst : (p.startAt start).reg = mid ∧
      ((p.startAt start).before ++ (p.startAt start).after).Perm
        ([{ p.reg with length := start - p.reg.start }].filter (·.length ≠ 0) ++
          (p.before ++ p.after)) := by
    rw [startAt]
    split
    · next hne =>
      have hlow : start - p.reg.start ≠ 0 := by omega
      rw [splitRegion_eq hr hstart (by omega) hc]
      rw [filter_length_ne, if_neg hlow]
      exact ⟨hmid, perm_middle⟩
    · next heq =>
      have hlow : start - p.reg.start = 0 := by omega
      refine ⟨?_, by simp [hlow]⟩
      rw [← hmid, not_not.mp heq, Region.span_self]
  obtain ⟨hreg, hlows⟩ := hfirst
  rw [protectRegion, hrem]
  dsimp only
  generalize p.startAt start = p₁ at hreg hlows ⊢
  have hwithout : p.reg.without start e =
      [{ p.reg with length := start - p.reg.start }].filter (·.length ≠ 0) ++
        [{ p.reg with start := e, length := p.reg.start + p.reg.length - e }].filter
          (·.length ≠ 0) := by
    rw [← filter_append]
    rfl
  rw [Region.reprotected, hwithout]
  generalize filter (fun r : Region => decide (r.length ≠ 0))
    [{ p.reg with length := start - p.reg.start }] = lows at hlows ⊢
  by_cases hover : stop - start < mid.length
  · -- The range ends inside of the region.
    obtain ⟨hceil, hsplit⟩ := splitRegion_ceil (p := stop) hmidAl (by omega) (by omega) (by omega)
    obtain rfl : pageCeil stop = e := by omega
    have hle := le_pageCeil stop
    have hu : u64 (start + (stop - start)) = stop := by
      rw [Nat.add_sub_cancel' hlt.le, u64_of_lt (by omega)]
    rw [endAt, hreg, if_pos hover, hu, hsplit, hmidEnd.2]
    refine ⟨(u64_add_length (by dsimp only; omega)).trans (by dsimp only; omega), ?_⟩
    dsimp only [AddressSpace.virtualChattr, list]
    rw [hmidEnd.1, ← hmid]
    by_cases hempty : p.reg.start + p.reg.length - pageCeil stop = 0
    · refine ⟨[{ p.reg with start := pageCeil stop, length := 0 }], ?_, ?_, fun hdvd => ?_⟩
      · rw [filter_length_ne, if_pos hempty, append_nil, hempty]
        refine perm_middle.trans ?_
        exact (List.Perm.swap _ _ (p₁.before ++ p₁.after)).trans ((hlows.cons _).cons _)
      · refine fun x hx => mem_singleton.mp hx ▸ ⟨?_, rfl⟩
        exact ⟨pageSize_dvd_pageCeil _, dvd_zero _, by dsimp only; omega, Nat.two_pow_pos 64⟩
      · rw [pageCeil_of_dvd hdvd] at hempty
        omega
    · refine ⟨[], ?_, forall_mem_nil _, fun _ => rfl⟩
      rw [filter_length_ne, if_neg hempty]
      simp only [nil_append, cons_append, append_assoc]
      refine (perm_middle.cons _).trans ((List.Perm.swap _ _ _).trans (List.Perm.cons _ ?_))
      exact (hlows.cons _).trans perm_middle.symm
  · -- The region ends first.
    have hle := le_pageCeil stop
    obtain rfl : p.reg.start + p.reg.length = e := by omega
    rw [endAt, hreg, if_neg hover]
    refine ⟨(u64_add_length (by rw [hreg]; omega)).trans (by rw [hreg]; omega), [], ?_,
      forall_mem_nil _, fun _ => rfl⟩
    dsimp only [AddressSpace.virtualChattr, list]
    rw [hreg, ← hmid]
    rw [filter_length_ne, if_pos (Nat.sub_self _), append_nil]
    exact perm_middle.trans (hlows.cons _)

/-- **One round**, as seen from an address. -/
theorem protectRegion_changed (prot : Prot) (h : WellFormed s.maps)
    (hfind : findRegion s.maps start = some p) (hstart : pageSize ∣ start) (hvirt : virt < 2 ^ 64)
    (hstop : u64 (virt + len) = stop) (hlt : start < stop)
    (he : min (p.reg.start + p.reg.length) (pageCeil stop) = e) :
    (protectRegion s virt len prot start p).2 = e ∧
      Changed s (protectRegion s virt len prot start p).1 prot start e ∧
      (pageSize ∣ stop → Proper s.maps → Proper (protectRegion s virt len prot start p).1.maps) ∧
      start < e ∧ pageSize ∣ e ∧ (e = pageCeil stop ∨ ¬ Inside s.maps e) := by
  obtain ⟨hlist, hc⟩ := findRegion_some hfind
  have hmem : p.reg ∈ s.maps := hlist ▸ p.mem_list
  have hr := h.aligned p.reg hmem
  have hfit := hc.lt hr
  have hcov := (covers_iff hfit).mp hc
  have hceil := le_pageCeil stop
  have hedvd : pageSize ∣ e := by
    rw [← he]
    rcases min_choice (p.reg.start + p.reg.length) (pageCeil stop) with hm | hm <;> rw [hm]
    · exact dvd_add hr.start_dvd hr.length_dvd
    · exact pageSize_dvd_pageCeil _
  obtain ⟨hnext, extra, hperm, hextra, hnone⟩ :=
    protectRegion_perm s prot (hlist ▸ h) hstart hc hvirt hstop hlt he
  have hcons : WellFormed (p.reg :: (p.before ++ p.after)) := h.perm (hlist ▸ p.perm)
  obtain ⟨hwf, hat⟩ := hcons.reprotected hstart hedvd hcov.1 (by omega) (by omega) hfit prot
  obtain ⟨hwf', hat'⟩ := hwf.append_empty hextra
  have hself : ∀ x, start ≤ x → x < e → regionAt s.maps x = some p.reg := fun x hx hx' =>
    h.regionAt_eq_some.mpr ⟨hmem, (covers_iff hfit).mpr (by omega)⟩
  have hfirst : ∀ x, First s.maps start e x ↔ x = start := by
    refine fun x => ⟨?_, ?_⟩
    · rintro ⟨hx, hx', r, hr, hat⟩
      rw [hself x hx hx'] at hr
      obtain rfl := some.inj hr
      omega
    · rintro rfl
      exact ⟨le_rfl, by omega, p.reg, hself x le_rfl (by omega), .inr rfl⟩
  have hpage : ∀ n, n = start / pageSize ↔ n * pageSize = start := by
    intro n
    simp only [pageSize] at *
    omega
  refine ⟨hnext, ⟨hwf'.perm hperm.symm, fun a => ?_, fun n hn => ?_, fun n hn => ?_⟩,
    fun hdvd hproper => ?_, by omega, hedvd, ?_⟩
  · rw [hwf'.regionAt_perm hperm.symm, hat', hat, h.regionAt_perm (hlist ▸ p.perm)]
  · rw [protectRegion_pages, if_pos ((hpage n).mpr ((hfirst _).mp hn))]
  · rw [protectRegion_pages, if_neg fun heq => hn ((hfirst _).mpr ((hpage n).mp heq))]
  · rw [hnone hdvd, nil_append] at hperm
    refine ((hproper.perm (hlist ▸ p.perm)).reprotected ?_ hwf (by omega) (by omega)).perm
      hperm.symm
    exact (hcons.without hstart hedvd hcov.1 (by omega) (by omega) (by omega) hfit).1
  · by_cases hend : p.reg.start + p.reg.length ≤ pageCeil stop
    · -- Another region around the end of this one would share an address with it.
      right
      rintro ⟨x, hx, hxlt, hxc⟩
      have heq := h.eq_of_around hmem (by omega) hfit (by omega) (by omega) hx hxlt hxc
      rw [heq, covers_iff hfit] at hxc
      omega
    · exact .inl (by omega)

/-! ## The loop -/

/-- How the rounds from `start` end: at the end of the last page of the range, or where access is
denied. -/
structure Outcome (s s' : AddressSpace) (prot : Prot) (start stop : ℕ)
    (result : Except Errno Unit) (e : ℕ) : Prop where
  le : start ≤ e
  changed : Changed s s' prot start e
  proper : pageSize ∣ stop → Proper s.maps → Proper s'.maps
  allowed : ∀ x, start ≤ x → x < e → ¬ Denied s.maps prot x
  ends : result = .ok () ∧ e = max start (pageCeil stop) ∨
    result = .error .eacces ∧ e < stop ∧ Denied s.maps prot e ∧ (e = start ∨ ¬ Inside s.maps e)

theorem Outcome.done (h : WellFormed s.maps) (hstart : pageSize ∣ start) (hge : stop ≤ start) :
    Outcome s s prot start stop (.ok ()) start :=
  ⟨le_rfl, .refl h _, fun _ => id, fun x hx hx' => by omega,
    .inl ⟨rfl, (max_eq_left (pageCeil_le hge hstart)).symm⟩⟩

theorem Outcome.round {result : Except Errno Unit} {e' : ℕ} (h : WellFormed s.maps)
    (h₁ : Changed s s₁ prot start e) (hproper : pageSize ∣ stop → Proper s.maps → Proper s₁.maps)
    (hse : start < e) (hceil : e ≤ pageCeil stop) (hin : e = pageCeil stop ∨ ¬ Inside s.maps e)
    (hfree : ∀ x, start ≤ x → x < e → ¬ Denied s.maps prot x)
    (h₂ : Outcome s₁ s' prot e stop result e') : Outcome s s' prot start stop result e' := by
  have hle := h₂.le
  have hlt := le_pageCeil stop
  have hends : e = e' ∨ ¬ Inside s.maps e := by
    refine hin.imp_left fun heq => ?_
    rcases h₂.ends with ⟨-, he'⟩ | ⟨-, he', -⟩ <;> omega
  refine ⟨by omega, h₁.trans h h₂.changed hse hle hends, fun hd => h₂.proper hd ∘ hproper hd,
    fun x hx hx' => ?_, ?_⟩
  · by_cases hxe : x < e
    · exact hfree x hx hxe
    · exact (h₁.denied_iff x).not.mp (h₂.allowed x (by omega) hx')
  · refine h₂.ends.imp (fun ⟨hr, he'⟩ => ⟨hr, by omega⟩) fun ⟨hr, hlt', hd, hat⟩ => ?_
    refine ⟨hr, hlt', (h₁.denied_iff e').mp hd, .inr fun ⟨x, hx, hxlt, hxc⟩ => ?_⟩
    -- A region of the old list around the point would be around it in the new one, or around `e`.
    have hx' := h.regionAt_eq_some.mpr ⟨hx, hxc⟩
    obtain ⟨-, -, hend, hfit⟩ := h.bounds hx'
    have hnot : ¬ Inside s.maps e := hin.resolve_left (by omega)
    have hstart : e ≤ x.start := by
      by_contra hxe
      exact hnot ⟨x, hx, by omega, Covers.of_le hxc (by omega) hle⟩
    have hat₁ := h₁.regionAt_eq e'
    rw [hx', map_some, protect_eq_self hxlt.le hend (by omega) (by omega) (by omega)]
      at hat₁
    obtain ⟨hx₁, hxc₁⟩ := h₁.wf.regionAt_eq_some.mp hat₁
    exact hat.resolve_left (by omega) ⟨x, hx₁, hxlt, hxc₁⟩

/-- **The loop of `map_change_protect`** comes to an end. -/
theorem protectLoop_outcome (hvirt : virt < 2 ^ 64) (hstop : u64 (virt + len) = stop)
    (hceil : pageCeil stop < 2 ^ 64) (prot : Prot) (rounds : ℕ) {s : AddressSpace} {start : ℕ}
    (h : WellFormed s.maps) (hstart : pageSize ∣ start)
    (hrounds : stop ≤ start + rounds * pageSize) :
    ∃ s' result e, protectLoop virt len prot rounds s start = some (s', result) ∧
      Outcome s s' prot start stop result e := by
  have hle := le_pageCeil stop
  induction rounds generalizing s start with
  | zero =>
    rw [protectLoop, hstop, if_neg (by omega)]
    exact ⟨s, _, start, rfl, .done h hstart (by omega)⟩
  | succ rounds ih =>
    rw [Nat.succ_mul] at hrounds
    rw [protectLoop, hstop]
    by_cases hlt : start < stop
    · rw [if_pos hlt]
      cases hf : findRegion s.maps start with
      | none =>
        have hpage : start + pageSize ≤ pageCeil stop := by
          have := pageSize_dvd_pageCeil stop
          simp only [pageSize] at *
          omega
        obtain ⟨hhole, hin, hfree⟩ := Changed.hole prot h hstart (findRegion_none hf)
        obtain ⟨s', result, e, hok, hout⟩ := ih h (Nat.dvd_add hstart dvd_rfl) (by omega)
        dsimp only
        rw [u64_of_lt (by omega), hok]
        exact ⟨s', result, e, rfl, .round h hhole (fun _ => id)
          (Nat.lt_add_of_pos_right (by decide)) hpage (.inr hin) hfree hout⟩
      | some p =>
        obtain ⟨hlist, hc⟩ := findRegion_some hf
        have hmem : p.reg ∈ s.maps := hlist ▸ p.mem_list
        have hfit := hc.lt (h.aligned p.reg hmem)
        have hself : ∀ x, start ≤ x → x < p.reg.start + p.reg.length →
            regionAt s.maps x = some p.reg := fun x hx hx' =>
          h.regionAt_eq_some.mpr ⟨hmem, (covers_iff hfit).mpr ⟨hc.1.trans hx, hx'⟩⟩
        dsimp only
        cases hden : prot.write && !p.reg.file.write with
        | true =>
          have hcov := (covers_iff hfit).mp hc
          refine ⟨s, _, start, rfl, le_rfl, .refl h _, fun _ => id, fun x hx hx' => by omega,
            .inr ⟨rfl, hlt, ?_, .inl rfl⟩⟩
          exact denied_iff_regionAt.mpr ⟨p.reg, hself start le_rfl hcov.2, hden⟩
        | false =>
          obtain ⟨hnext, hch, hproper, hse, hedvd, hin⟩ :=
            protectRegion_changed prot h hf hstart hvirt hstop hlt rfl
          obtain ⟨s', result, e, hok, hout⟩ := ih hch.wf hedvd (by
            have := hch.wf
            simp only [pageSize] at *
            omega)
          rw [← hnext] at hok
          refine ⟨s', result, e, hok, .round h hch hproper hse (min_le_right _ _) hin
            (fun x hx hx' hd => ?_) hout⟩
          obtain ⟨r, hr, hw⟩ := denied_iff_regionAt.mp hd
          rw [hself x hx (hx'.trans_le (min_le_left _ _))] at hr
          obtain rfl := some.inj hr
          rw [hden] at hw
          cases hw
    · rw [if_neg hlt]
      exact ⟨s, _, start, rfl, .done h hstart (by omega)⟩

/-- **`map_change_protect`** comes to an end. -/
theorem mapChangeProtect_outcome (len : ℕ) (h : WellFormed s.maps) (hvirt : pageSize ∣ virt)
    (hvlt : virt < 2 ^ 64) (hceil : pageCeil (u64 (virt + len)) < 2 ^ 64) (prot : Prot) :
    ∃ s' result e, mapChangeProtect s virt len prot = some (s', result) ∧
      Outcome s s' prot virt (u64 (virt + len)) result e := by
  refine protectLoop_outcome hvlt rfl hceil prot _ h hvirt ?_
  have hmod : u64 (virt + len) ≤ virt + len := mod_le _ _
  simp only [pageSize]
  omega

end Rounds

/-! ## What is seen of it -/

/-- A cut that is made if `c` holds. -/
def Origin.cutIf (c : Bool) (p a : ℕ) (o : Origin) : Origin := if c then o.rebase p a else o

/-- What a list of regions is after the protection from `start` up to `stop` was changed: cut at
`start`, unless access is denied there, and at `stop`, unless access is denied on the way. -/
structure RangeProtected (maps maps' : List Region) (prot : Prot) (start stop : ℕ) : Prop where
  wf : WellFormed maps'
  origin_eq : ∃ c₁ c₂ : Bool, (c₁ = true ↔ start < stop ∧ ¬ Denied maps prot start) ∧
    (c₂ = true ↔ start < stop ∧ ∀ x, start ≤ x → x < stop → ¬ Denied maps prot x) ∧
    ∀ a, origin maps' a = (origin maps a).map fun o => (o.cutIf c₁ start a).cutIf c₂ stop a

/-- The file mapped at an address, and how it is shared. -/
def kind (maps : List Region) (a : ℕ) : Option (File × Sharing) :=
  (regionAt maps a).map fun r => (r.file, r.flags)

/-- The change of protection comes to a region at the address `x`: at the start of the range or of
the region, and not behind an address where write access is denied. -/
def Touched (maps : List Region) (prot : Prot) (start stop x : ℕ) : Prop :=
  start ≤ x ∧ x < stop ∧ (kind maps x).isSome ∧ (x = start ∨ ∃ r ∈ maps, r.start = x) ∧
    ∀ y, start ≤ y → y ≤ x → ¬ Denied maps prot y

section Seen

variable {maps maps' : List Region} {s s' : AddressSpace} {prot : Prot}
  {virt len start stop e a : ℕ} {result : Except Errno Unit}

theorem Origin.rebase_file (p a : ℕ) (o : Origin) : (o.rebase p a).file = o.file := by
  unfold rebase
  split <;> rfl

theorem Changed.origin_eq (h : Changed s s' prot start e) (hlt : start < e) (a : ℕ) :
    origin s'.maps a = (origin s.maps a).map fun o => (o.rebase start a).rebase e a := by
  rw [origin, origin, h.regionAt_eq, Option.map_map, Option.map_map]
  refine congrArg (Option.map · _) (funext fun r => ?_)
  have hset : ∀ r : Region, (⟨(r.setProt prot).file, (r.setProt prot).nodepage,
      (r.setProt prot).start⟩ : Origin) = ⟨r.file, r.nodepage, r.start⟩ := fun _ => rfl
  rw [comp_apply, comp_apply, protect, if_pos hlt]
  split
  · rw [hset, origin_cut, origin_cut]
  · rw [origin_cut, origin_cut]

theorem Outcome.rangeProtected (h : WellFormed s.maps) (hstop : pageSize ∣ stop)
    (hout : Outcome s s' prot start stop result e) :
    RangeProtected s.maps s'.maps prot start stop := by
  have hle := hout.le
  have hends := hout.ends
  rw [pageCeil_of_dvd hstop] at hends
  refine ⟨hout.changed.wf, start < e, start < stop ∧ e = stop, ?_, ?_, fun a => ?_⟩
  · rw [decide_eq_true_eq]
    constructor
    · intro hlt
      refine ⟨?_, hout.allowed start le_rfl hlt⟩
      rcases hends with ⟨-, he⟩ | ⟨-, he, -⟩ <;> omega
    · rintro ⟨hlt, hfree⟩
      refine hle.lt_of_ne fun heq => ?_
      rcases hends with ⟨-, he⟩ | ⟨-, -, hd, -⟩
      · omega
      · exact hfree (heq ▸ hd)
  · rw [decide_eq_true_eq]
    refine and_congr_right fun hlt => ⟨fun heq x hx hx' => hout.allowed x hx (by omega), ?_⟩
    intro hfree
    rcases hends with ⟨-, he⟩ | ⟨-, he, hd, -⟩
    · omega
    · exact absurd hd (hfree e hle he)
  · rcases hle.eq_or_lt with rfl | hlt
    · -- No round was made that changes anything.
      rw [origin, origin, hout.changed.regionAt_eq, Option.map_map, Option.map_map]
      refine congrArg (Option.map · _) (funext fun r => ?_)
      have hne : ¬ (start < stop ∧ start = stop) := by omega
      simp [protect, cutIf, hne]
    · rw [hout.changed.origin_eq hlt]
      rcases hends with ⟨-, he⟩ | ⟨-, he, -, hat⟩
      · obtain rfl : e = stop := by omega
        simp [cutIf, hlt]
      · -- No region is around the address where access is denied.
        have hin := hat.resolve_left (by omega)
        cases ho : origin s.maps a with
        | none => rfl
        | some o =>
          obtain ⟨r, hr, hc, rfl⟩ := h.origin_eq_some.mp ho
          have hle' : r.start ≤ (rebase start a ⟨r.file, r.nodepage, r.start⟩).start := by
            unfold rebase
            split
            · next hcut => exact hcut.1.le
            · exact le_rfl
          have hcut : ¬ ((rebase start a ⟨r.file, r.nodepage, r.start⟩).start < e ∧ e ≤ a) := by
            rintro ⟨hlt', hea⟩
            exact hin ⟨r, hr, by omega, Covers.of_le hc (by omega) hea⟩
          have hne : ¬ (start < stop ∧ e = stop) := by omega
          rw [map_some, map_some, rebase, if_neg hcut]
          simp [cutIf, hlt, hne]

/-- **`map_change_protect`** cuts at the ends of its range, as far as it gets. -/
theorem mapChangeProtect_spec (h : WellFormed s.maps) (hvirt : pageSize ∣ virt)
    (hlen : pageSize ∣ len) (hvlt : virt < 2 ^ 64) (prot : Prot) :
    ∃ s' result e, mapChangeProtect s virt len prot = some (s', result) ∧
      Outcome s s' prot virt (u64 (virt + len)) result e ∧
      RangeProtected s.maps s'.maps prot virt (u64 (virt + len)) := by
  have hstop : pageSize ∣ u64 (virt + len) :=
    (dvd_mod_iff (by decide)).mpr (dvd_add hvirt hlen)
  obtain ⟨s', result, e, hok, hout⟩ := mapChangeProtect_outcome len h hvirt hvlt
    (by rw [pageCeil_of_dvd hstop]; exact Nat.mod_lt _ (Nat.two_pow_pos 64)) prot
  exact ⟨s', result, e, hok, hout, hout.rangeProtected h hstop⟩

theorem Changed.kind_eq (h : Changed s s' prot start e) (a : ℕ) :
    kind s'.maps a = kind s.maps a := by
  rw [kind, kind, h.regionAt_eq, Option.map_map]
  refine congrArg (Option.map · _) (funext fun r => ?_)
  rw [comp_apply, protect_file.1, protect_file.2]

theorem WellFormed.kind_perm (h : WellFormed maps) (hp : maps.Perm maps') (a : ℕ) :
    kind maps' a = kind maps a := by
  rw [kind, kind, h.regionAt_perm hp]

theorem kind_isSome (h : WellFormed maps) : (kind maps a).isSome ↔ ∃ r ∈ maps, r.Covers a := by
  rw [kind, isSome_map, isSome_iff_exists]
  simp only [h.regionAt_eq_some]

/-- **`map_change_protect`** keeps the kind of every address and changes the flags of entries of
touched pages. -/
theorem mapChangeProtect_pages (h : WellFormed s.maps) (hvirt : pageSize ∣ virt)
    (hlt : virt < u64 (virt + len)) (hstop : u64 (virt + len) + pageSize ≤ 2 ^ 64)
    (hrun : mapChangeProtect s virt len prot = some (s', result)) :
    WellFormed s'.maps ∧ (∀ a, kind s'.maps a = kind s.maps a) ∧
      ∀ n, s'.pages n = s.pages n ∨ ∃ x, n = x / pageSize ∧
        Touched s.maps prot virt (u64 (virt + len)) x ∧
        s'.pages n = (s.pages n).map (Pte.setProt prot) := by
  have hceil := pageCeil_lt (u64 (virt + len))
  obtain ⟨s₁, result₁, e, hok, hout⟩ :=
    mapChangeProtect_outcome len h hvirt (by omega) (by omega) prot
  obtain ⟨rfl, -⟩ := Prod.mk.inj (some.inj (hrun.symm.trans hok))
  refine ⟨hout.changed.wf, hout.changed.kind_eq, fun n => ?_⟩
  by_cases hn : First s.maps virt e (n * pageSize)
  · refine .inr ⟨n * pageSize, (Nat.mul_div_cancel n (by decide)).symm, ?_,
      hout.changed.page_in n hn⟩
    obtain ⟨hle, hne, r, hr, hat⟩ := hn
    have hmem := (h.regionAt_eq_some.mp hr).1
    refine ⟨hle, ?_, by rw [kind, hr]; rfl, hat.symm.imp_right fun hx => ⟨r, hmem, hx⟩,
      fun y hy hyx => hout.allowed y hy (by omega)⟩
    rcases hout.ends with ⟨-, he⟩ | ⟨-, he, -⟩
    · by_contra hge
      have := pageCeil_le (Nat.le_of_not_lt hge) (dvd_mul_left pageSize n)
      omega
    · omega
  · exact .inl (hout.changed.page_out n hn)

end Seen

end SeaKernel.Mapping
