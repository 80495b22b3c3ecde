import SeaKernel.Memory.Resize

/-!
# Where the kernel puts mappings

`next_mmap_reg` only grows, and a mapping whose address the kernel chooses goes there, so it should
be free. What it rests on is that no region reaches over `next_mmap_reg`, and three calls do not
keep that up:

* a hint of `sys_mmap` is taken as if it had been given with `MAP_FIXED`, without a look at what is
  mapped there and at its alignment; if it lies below the area for mappings, `next_mmap_reg` stays
  where it is, even if the range reaches over it;
* `sys_mremap` takes a new size as it is, and adds it to `next_mmap_reg`;
* the additions wrap.

## Main results

* `Below.mmap`, `Below.mremap`: a careful call keeps the invariant and clobbers nothing
* `careful_noClobber`: runs of careful calls from a new process clobber nothing
-/

namespace SeaKernel.Mapping

open List Option Nat Region

/-- The calls that map memory without `MAP_FIXED`. -/
inductive MemoryCall
  | mmap (addr len : ℕ) (prot : Prot) (flags : MmapFlags) (file : Option OpenFile) (off : ℕ)
  | mremap (old oldsz newsz : ℕ) (mayMove fixed : Bool) (new : ℕ)
  deriving DecidableEq, Repr

/-- A call, with the address it returns. -/
def execMemory (p : Process) : MemoryCall → Option (Process × Except Errno ℕ)
  | .mmap addr len prot flags file off =>
    sysMmap p addr len prot { flags with fixed := false } file off
  | .mremap old oldsz newsz mayMove fixed new => sysMremap p old oldsz newsz mayMove fixed new

/-- A call that returns takes the process from `p` to `p'`. -/
def MemoryStep (p : Process) (c : MemoryCall) (p' : Process) : Prop :=
  ∃ result, execMemory p c = some (p', result)

/-- The region that a call resizes or moves. -/
def MemoryCall.moved (p : Process) : MemoryCall → Option Region
  | .mmap .. => none
  | .mremap old .. => regionAt p.space.maps old

/-- An address the call returns is one of a page, and the region there meets none of the regions
from before the call, other than the one that was moved. -/
def NoClobber (p : Process) (c : MemoryCall) (p' : Process) : Prop :=
  ∀ virt, execMemory p c = some (p', .ok virt) → pageSize ∣ virt ∧
    ∀ q, regionAt p'.space.maps virt = some q →
      ∀ r ∈ p.space.maps, some r ≠ c.moved p → q.Disjoint r

/-- The range does not wrap, and nothing is mapped there. -/
def Vacant (p : Process) (addr len : ℕ) : Prop :=
  addr + len < 2 ^ 64 ∧ ∀ a, addr ≤ a → a < addr + len → ¬ Covered p.space.maps a

/-- The condition on a call. A hint is the address of a page, its range is vacant and, unless it is
in the area for mappings, does not reach over `next_mmap_reg`. A mapping grows to a multiple of the
page size, and to a vacant range below `next_mmap_reg` if an address is given. No sum wraps. -/
def Careful (p : Process) : MemoryCall → Prop
  | .mmap addr len .. => len + pageSize ≤ 2 ^ 64 ∧
    if Hinted addr then pageSize ∣ addr ∧ Vacant p addr (pageCeil len) ∧
      (addr < userMmapRegionStart → addr + pageCeil len ≤ p.nextMmapReg)
    else p.nextMmapReg + pageCeil len < 2 ^ 64
  | .mremap _ oldsz newsz _ fixed new => oldsz < newsz →
    pageSize ∣ newsz ∧ p.nextMmapReg + newsz + pageSize < 2 ^ 64 ∧
      (fixed = true → new ≠ 0 → Vacant p new newsz ∧ new + newsz ≤ p.nextMmapReg)

/-- The invariant: the regions are proper and end below `next_mmap_reg`, which is the address of a
page in the area for mappings or behind it. -/
structure Below (p : Process) : Prop where
  proper : Proper p.space.maps
  ends : ∀ r ∈ p.space.maps, r.start + r.length ≤ p.nextMmapReg
  dvd : pageSize ∣ p.nextMmapReg
  lt : p.nextMmapReg < 2 ^ 64
  ge : userMmapRegionStart ≤ p.nextMmapReg

section Placement

variable {p p' : Process} {s : AddressSpace} {reg : Region} {c : MemoryCall}
  {virt old oldlen newlen new addr len : ℕ} {result : Except Errno Unit}

/-! ## New regions -/

theorem mapRegionSetup_vacant (reg : Region) (hfit : reg.start + reg.length < 2 ^ 64)
    (hfree : ∀ a, reg.start ≤ a → a < reg.start + reg.length → ¬ Covered s.maps a) :
    mapRegionSetup s reg = some { s with maps := reg :: s.maps } := by
  have hpage : ∀ v ∈ pagesUpto reg.start (u64 (reg.start + reg.length)),
      removePage 2 s v = some s := by
    intro v hv
    rw [u64_of_lt hfit] at hv
    obtain ⟨i, rfl, hlt⟩ := mem_pagesUpto.mp hv
    have hnone : findRegion s.maps (reg.start + i * pageSize) = none := by
      refine eq_none_iff_forall_ne_some.mpr fun pos hpos => ?_
      obtain ⟨hlist, hc⟩ := findRegion_some hpos
      exact hfree _ (le_add_right _ _) hlt ⟨pos.reg, by rw [hlist]; simp [Position.list], hc⟩
    rw [removePage, hnone]
  have hremove : mapRegionRemove s reg.start reg.length = some s := foldlM_fixed hpage
  rw [mapRegionSetup, hremove]
  rfl

theorem Vacant.disjoint (h : Vacant p reg.start reg.length) {r : Region}
    (hr : r ∈ p.space.maps) : reg.Disjoint r := by
  intro a ha hra
  rw [covers_iff h.1] at ha
  exact h.2 a ha.1 ha.2 ⟨r, hr, hra⟩

theorem Below.vacant (h : Below p) (hle : p.nextMmapReg ≤ addr) (hfit : addr + len < 2 ^ 64) :
    Vacant p addr len := by
  refine ⟨hfit, fun a ha _ => ?_⟩
  rintro ⟨r, hr, hc⟩
  have hend := h.ends r hr
  rw [covers_iff (h.proper.fits r hr)] at hc
  omega

/-- **A region in a vacant range** keeps the invariant, if `next_mmap_reg` is moved behind it. -/
theorem Below.add (h : Below p) (reg : Region) (hs : pageSize ∣ reg.start)
    (hl : pageSize ∣ reg.length) (hpos : 0 < reg.length)
    (hvacant : Vacant p reg.start reg.length) {next : ℕ}
    (hend : reg.start + reg.length ≤ next) (hle : p.nextMmapReg ≤ next) (hdvd : pageSize ∣ next)
    (hlt : next < 2 ^ 64) :
    Below { space := { p.space with maps := reg :: p.space.maps }, nextMmapReg := next } where
  proper :=
    { aligned := forall_mem_cons.mpr ⟨⟨hs, hl, by omega, by omega⟩, h.proper.aligned⟩
      disjoint := pairwise_cons.mpr ⟨fun _ hr => hvacant.disjoint hr, h.proper.disjoint⟩
      pos := forall_mem_cons.mpr ⟨hpos, h.proper.pos⟩
      fits := forall_mem_cons.mpr ⟨hvacant.1, h.proper.fits⟩ }
  ends := forall_mem_cons.mpr ⟨hend, fun r hr => (h.ends r hr).trans hle⟩
  dvd := hdvd
  lt := hlt
  ge := h.ge.trans hle

/-- **`sys_mmap`**: a careful call keeps the invariant and clobbers nothing. -/
theorem Below.mmap (h : Below p) {prot : Prot} {flags : MmapFlags} {file : Option OpenFile}
    {off : ℕ} (hcare : Careful p (.mmap addr len prot flags file off))
    (hrun : sysMmap p addr len prot flags file off = some (p', .ok virt)) :
    Below p' ∧ pageSize ∣ virt ∧ ∀ q, regionAt p'.space.maps virt = some q →
      ∀ r ∈ p.space.maps, q.Disjoint r := by
  obtain ⟨hpos, hend, -, hvirt, hnext, hsetup⟩ := sysMmap_ok hrun
  obtain ⟨hround, hplace⟩ := hcare
  rw [roundLength_of_le hpos hround] at *
  have hceil := pageCeil_pos hpos
  have hdvd := pageSize_dvd_pageCeil len
  -- The place is vacant, and `next_mmap_reg` is moved behind it.
  obtain ⟨hvacant, hv, hnextEnd, hnextLe, hnextDvd, hnextLt⟩ :
      Vacant p virt (pageCeil len) ∧ pageSize ∣ virt ∧ virt + pageCeil len ≤ p'.nextMmapReg ∧
        p.nextMmapReg ≤ p'.nextMmapReg ∧ pageSize ∣ p'.nextMmapReg ∧
        p'.nextMmapReg < 2 ^ 64 := by
    have hnextDvd := h.dvd
    by_cases hhint : Hinted addr
    · rw [if_pos hhint] at hplace
      obtain ⟨haddr, hvacant, hbelow⟩ := hplace
      have hfit := hvacant.1
      have hend' : addr + pageCeil len ≤ userMmapRegionEnd := by
        rwa [u64_of_lt (by omega), Nat.add_comm] at hend
      have hsum : u64 (addr + pageCeil len) = addr + pageCeil len := u64_of_lt hfit
      rw [mmapPlace, if_pos hhint] at hvirt hnext
      split at hnext
      · next harea =>
        rw [if_pos harea] at hvirt
        have hup : p'.nextMmapReg = addr + pageCeil len + pageSize := by
          rw [hnext]
          simp only [pageFloor, u64, pageSize, userMmapRegionEnd] at *
          omega
        rw [hvirt, hup]
        refine ⟨hvacant, haddr, by omega, by omega, ?_, ?_⟩
        · exact Nat.dvd_add (Nat.dvd_add haddr hdvd) dvd_rfl
        · simp only [pageSize, userMmapRegionEnd] at *
          omega
      · next harea =>
        rw [if_neg harea] at hvirt
        rw [hvirt, hnext]
        refine ⟨hvacant, haddr, ?_, le_rfl, h.dvd, h.lt⟩
        dsimp only
        by_cases hlow : addr < userMmapRegionStart
        · exact hbelow hlow
        · by_contra hover
          exact harea ⟨by omega, by omega, by omega⟩
    · rw [if_neg hhint] at hplace
      rw [mmapPlace, if_neg hhint] at hvirt hnext
      simp only [allocateMmapRegion] at hvirt hnext
      rw [u64_of_lt hplace] at hnext
      rw [hvirt, hnext]
      exact ⟨h.vacant le_rfl hplace, h.dvd, le_rfl, Nat.le_add_right _ _, Nat.dvd_add h.dvd hdvd,
        hplace⟩
  rw [mapRegionSetup_vacant _ hvacant.1 hvacant.2] at hsetup
  obtain ⟨space', next'⟩ := p'
  obtain rfl := some.inj hsetup
  have hbelow := h.add (mmapRegion virt (pageCeil len) prot flags file off) hv hdvd hceil
    hvacant hnextEnd hnextLe hnextDvd hnextLt
  refine ⟨hbelow, hv, fun q hq r hr => ?_⟩
  have hself : Region.Covers (mmapRegion virt (pageCeil len) prot flags file off) virt :=
    (covers_iff hvacant.1).mpr ⟨le_rfl, Nat.lt_add_of_pos_right hceil⟩
  have hat := hbelow.proper.regionAt_eq_some.mpr ⟨mem_cons_self, hself⟩
  obtain rfl := some.inj (hq.symm.trans hat)
  exact hvacant.disjoint hr

/-! ## Resizing and moving -/

/-- What a call of `mapping_resize` has done when it is the mapping from `virt` on that got another
length. -/
def Relength (p p' : Process) (virt : ℕ) : Prop :=
  ∃ pos length, findRegion p.space.maps virt = some pos ∧ pos.reg.start = virt ∧ 0 < length ∧
    p'.space.maps = pos.before ++ { pos.reg with length := length } :: pos.after

theorem Below.setLength (h : Below p) {pos : Position} (hmaps : p.space.maps = pos.list)
    {length : ℕ} (hpos : 0 < length)
    (hwf : WellFormed (pos.before ++ { pos.reg with length := length } :: pos.after))
    (hfit : pos.reg.start + length < 2 ^ 64)
    (hp' : p'.space.maps = pos.before ++ { pos.reg with length := length } :: pos.after)
    (hend : pos.reg.start + length ≤ p'.nextMmapReg) (hle : p.nextMmapReg ≤ p'.nextMmapReg)
    (hdvd : pageSize ∣ p'.nextMmapReg) (hlt : p'.nextMmapReg < 2 ^ 64) : Below p' := by
  have hmem : ∀ r ∈ p'.space.maps, r = { pos.reg with length := length } ∨ r ∈ p.space.maps := by
    intro r hr
    rw [hp'] at hr
    rw [hmaps]
    refine (mem_cons.mp (perm_middle.mem_iff.mp hr)).imp_right fun hr => ?_
    exact pos.perm.mem_iff.mpr (mem_cons_of_mem _ hr)
  refine ⟨⟨hp' ▸ hwf, fun r hr => ?_, fun r hr => ?_⟩, fun r hr => ?_, hdvd, hlt, h.ge.trans hle⟩
  · rcases hmem r hr with rfl | hr
    · exact hpos
    · exact h.proper.pos r hr
  · rcases hmem r hr with rfl | hr
    · exact hfit
    · exact h.proper.fits r hr
  · rcases hmem r hr with rfl | hr
    · exact hend
    · exact (h.ends r hr).trans hle

/-- **`mapping_resize`**: the invariant is kept, and a call that fails changes nothing. -/
theorem Below.resize (h : Below p) (holdpos : 0 < oldlen)
    (hgrow : oldlen < newlen → pageSize ∣ newlen ∧ p.nextMmapReg + newlen + pageSize < 2 ^ 64)
    (hrun : mappingResize p virt oldlen newlen = some (p', result)) :
    Below p' ∧ (p' = p ∨ result = .ok () ∧ Relength p p' virt) := by
  have hkept : ∀ {r}, some (p, r) = some (p', result) →
      Below p' ∧ (p' = p ∨ result = .ok () ∧ Relength p p' virt) := by
    intro r heq
    obtain ⟨rfl, -⟩ := Prod.mk.inj (some.inj heq)
    exact ⟨h, .inl rfl⟩
  unfold mappingResize at hrun
  split at hrun
  · exact hkept hrun
  · next hne =>
    split at hrun
    · exact hkept hrun
    · next pos hfind =>
      split at hrun
      · exact hkept hrun
      · next hshort =>
        obtain ⟨hstart, hlong⟩ := not_or.mp hshort
        rw [not_not] at hstart
        obtain ⟨hmaps, hc⟩ := findRegion_some hfind
        have hwf : WellFormed pos.list := hmaps ▸ h.proper.toWellFormed
        have hmem : pos.reg ∈ p.space.maps := hmaps ▸ pos.mem_list
        have hr := h.proper.aligned _ hmem
        have hfit := h.proper.fits _ hmem
        have hend := h.ends _ hmem
        by_cases hshrink : newlen < oldlen
        · -- What the region keeps is its part up to the end of the page the old length ends in.
          obtain ⟨hceil, hsplit⟩ := splitRegion_ceil (p := virt + oldlen) hr (by omega) (by omega)
            hfit
          have hle : virt + oldlen ≤ pageCeil (virt + oldlen) := le_pageCeil _
          rw [resizeRegion, if_pos hshrink, u64_of_lt (by omega), hsplit] at hrun
          obtain ⟨rfl, rfl⟩ := Prod.mk.inj (some.inj hrun)
          have hmaps' : (mappingRemove p.space ⟨[], { pos.reg with
                start := pageCeil (virt + oldlen)
                length := pos.reg.start + pos.reg.length - pageCeil (virt + oldlen) },
              pos.before ++ { pos.reg with
                length := pageCeil (virt + oldlen) - pos.reg.start } :: pos.after⟩).maps =
              pos.before ++ { pos.reg with
                length := pageCeil (virt + oldlen) - pos.reg.start } :: pos.after := by
            rw [mappingRemove, foldl_virtualUnmap_maps]
            rfl
          have hwf' : WellFormed (pos.before ++
              { pos.reg with
                length := pageCeil (virt + oldlen) - pos.reg.start } :: pos.after) := by
            refine hwf.setLength (dvd_sub (pageSize_dvd_pageCeil _) hr.start_dvd) (by omega)
              fun a ha hold => ?_
            rw [covers_iff (by dsimp only; omega)] at ha
            rw [covers_iff hfit] at hold
            dsimp only at ha
            omega
          refine ⟨h.setLength hmaps (by omega) hwf' (by omega) hmaps' ?_ le_rfl h.dvd h.lt,
            .inr ⟨rfl, pos, _, hfind, hstart, by omega, hmaps'⟩⟩
          dsimp only
          omega
        · obtain ⟨hnew, hnextFit⟩ := hgrow (by omega)
          by_cases hlonger : pos.reg.length < newlen
          · have hle : oldlen ≤ newlen := by omega
            obtain htaken | ⟨hok, hwf'⟩ :=
              resizeRegion_longer (p := p) hwf hmaps hnew hc hstart hle hlonger (by omega)
            · exact hkept (htaken.symm.trans hrun)
            · rw [hok] at hrun
              obtain ⟨rfl, rfl⟩ := Prod.mk.inj (some.inj hrun)
              -- `next_mmap_reg` grows by more than the region does.
              have hfloor : newlen - oldlen < pageFloor (newlen - oldlen) + pageSize ∧
                  pageFloor (newlen - oldlen) ≤ newlen - oldlen ∧
                  pageSize ∣ pageFloor (newlen - oldlen) + pageSize := by
                simp only [pageFloor, pageSize]
                omega
              have hsum : u64 (p.nextMmapReg + (pageFloor (newlen - oldlen) + pageSize)) =
                  p.nextMmapReg + (pageFloor (newlen - oldlen) + pageSize) := u64_of_lt (by omega)
              refine ⟨h.setLength hmaps (by omega) hwf' (by omega) rfl ?_ ?_ ?_ ?_,
                .inr ⟨rfl, pos, newlen, hfind, hstart, by omega, rfl⟩⟩ <;> dsimp only <;> rw [hsum]
              · omega
              · omega
              · exact dvd_add h.dvd hfloor.2.2
              · omega
          · rw [resizeRegion, if_neg hshrink, if_neg hlonger] at hrun
            exact hkept hrun

theorem Below.raise (h : Below p) {next : ℕ} (hle : p.nextMmapReg ≤ next) (hdvd : pageSize ∣ next)
    (hlt : next < 2 ^ 64) : Below { p with nextMmapReg := next } :=
  ⟨h.proper, fun r hr => (h.ends r hr).trans hle, hdvd, hlt, h.ge.trans hle⟩

theorem Below.of_sublist (h : Below p) (hsub : p'.space.maps.Sublist p.space.maps)
    (hnext : p'.nextMmapReg = p.nextMmapReg) : Below p' where
  proper :=
    { aligned := fun r hr => h.proper.aligned r (hsub.subset hr)
      disjoint := h.proper.disjoint.sublist hsub
      pos := fun r hr => h.proper.pos r (hsub.subset hr)
      fits := fun r hr => h.proper.fits r (hsub.subset hr) }
  ends r hr := hnext ▸ h.ends r (hsub.subset hr)
  dvd := hnext ▸ h.dvd
  lt := hnext ▸ h.lt
  ge := hnext ▸ h.ge

theorem movePages_maps (s : AddressSpace) (old new n : ℕ) :
    (movePages s old new n).maps = s.maps := by
  induction n with
  | zero => rfl
  | succ n ih =>
    rw [movePages, range_succ, foldl_append, foldl_cons, foldl_nil]
    split
    · exact ih
    · rw [AddressSpace.virtualUnmap, AddressSpace.virtualMap]
      split <;> exact ih

/-- **`mapping_move`** to a vacant range below `next_mmap_reg`. -/
theorem Below.move (h : Below p) (hvacant : Vacant p new newlen) (hnew : pageSize ∣ new)
    (hlen : pageSize ∣ newlen) (hpos : 0 < newlen) (hend : new + newlen ≤ p.nextMmapReg)
    (hrun : mappingMove p old oldlen newlen new = some (p', result)) :
    Below p' ∧ (result = .ok () → ∀ q, regionAt p'.space.maps new = some q →
      ∀ r ∈ p.space.maps, q.Disjoint r) := by
  unfold mappingMove at hrun
  split at hrun
  · obtain ⟨rfl, rfl⟩ := Prod.mk.inj (some.inj hrun)
    exact ⟨h, nofun⟩
  · next pos hfind =>
    split at hrun
    · cases hrun
    · split at hrun
      · -- The new region is put in front, and the old one is taken out.
        let reg : Region := { pos.reg with start := new, length := newlen }
        rw [mapRegionSetup_vacant reg hvacant.1 hvacant.2] at hrun
        obtain ⟨hp', -⟩ := Prod.mk.inj (some.inj hrun)
        have hmaps : p'.space.maps = (reg :: p.space.maps).erase pos.reg := by
          rw [← hp']
          dsimp only
          rw [foldl_virtualUnmap_maps]
          dsimp only
          rw [movePages_maps]
        have hnext : p'.nextMmapReg = p.nextMmapReg := by rw [← hp']
        have hadd := h.add reg hnew hlen hpos hvacant hend le_rfl h.dvd h.lt
        have hbelow : Below p' := by
          refine hadd.of_sublist ?_ hnext
          rw [hmaps]
          exact erase_sublist
        refine ⟨hbelow, fun _ q hq r hr => ?_⟩
        have hcover : reg.Covers new :=
          (covers_iff hvacant.1).mpr ⟨le_rfl, Nat.lt_add_of_pos_right hpos⟩
        have hold : pos.reg ∈ p.space.maps := by
          rw [(findRegion_some hfind).1]
          simp [Position.list]
        have hne : reg ≠ pos.reg := by
          intro heq
          have hdisjoint : reg.Disjoint pos.reg := hvacant.disjoint hold
          exact hdisjoint new hcover (heq ▸ hcover)
        have hmem : reg ∈ p'.space.maps := by
          rw [hmaps]
          exact (mem_erase_of_ne hne).mpr mem_cons_self
        have hat := hbelow.proper.regionAt_eq_some.mpr ⟨hmem, hcover⟩
        obtain rfl := some.inj (hq.symm.trans hat)
        exact hvacant.disjoint hr
      · cases hrun

theorem Relength.disjoint (h' : Below p') (hlength : Relength p p' virt) {q r : Region}
    (hq : regionAt p'.space.maps virt = some q) (hr : r ∈ p.space.maps)
    (hne : some r ≠ regionAt p.space.maps virt) : q.Disjoint r := by
  obtain ⟨pos, length, hfind, hstart, hpos, hmaps⟩ := hlength
  have hwf := h'.proper.perm (hmaps ▸ perm_middle)
  have hfit := hwf.fits _ mem_cons_self
  have hcover : Region.Covers { pos.reg with length := length } virt := by
    rw [covers_iff hfit]
    dsimp only
    omega
  have hat : regionAt p'.space.maps virt = some { pos.reg with length := length } := by
    refine h'.proper.regionAt_eq_some.mpr ⟨?_, hcover⟩
    rw [hmaps]
    simp
  obtain rfl := some.inj (hq.symm.trans hat)
  rw [regionAt, hfind] at hne
  rw [(findRegion_some hfind).1] at hr
  rcases mem_cons.mp (pos.perm.mem_iff.mp hr) with rfl | hr
  · exact absurd rfl hne
  · exact (pairwise_cons.mp hwf.disjoint).1 r hr

/-- **`sys_mremap`**: a careful call keeps the invariant and clobbers nothing. -/
theorem Below.mremap (h : Below p) {oldsz newsz : ℕ} {mayMove fixed : Bool}
    {result : Except Errno ℕ} (hcare : Careful p (.mremap old oldsz newsz mayMove fixed new))
    (hrun : sysMremap p old oldsz newsz mayMove fixed new = some (p', result)) :
    Below p' ∧ ∀ virt, result = .ok virt → pageSize ∣ virt ∧
      ∀ q, regionAt p'.space.maps virt = some q →
        ∀ r ∈ p.space.maps, some r ≠ regionAt p.space.maps old → q.Disjoint r := by
  unfold sysMremap at hrun
  split at hrun
  · obtain ⟨rfl, rfl⟩ := Prod.mk.inj (some.inj hrun)
    exact ⟨h, fun _ herror => by cases herror⟩
  · next hargs =>
    simp only [not_or, not_not] at hargs
    obtain ⟨hnewpos, holdpos, hold, hnew⟩ := hargs
    obtain ⟨⟨p₁, result₁⟩, hresize, hrest⟩ := bind_eq_some_iff.mp hrun
    have hpage : ∀ {a : ℕ}, a = pageFloor a → pageSize ∣ a := by
      intro a ha
      simp only [pageFloor, pageSize] at *
      omega
    obtain ⟨h₁, hcases⟩ := h.resize (pos_of_ne_zero holdpos)
      (fun hlt => ⟨(hcare hlt).1, (hcare hlt).2.1⟩) hresize
    cases result₁ with
    | ok _ =>
      obtain ⟨rfl, rfl⟩ := Prod.mk.inj (some.inj hrest)
      refine ⟨h₁, fun virt hvirt => ?_⟩
      obtain rfl := Except.ok.inj hvirt
      refine ⟨hpage hold, fun q hq r hr hne => ?_⟩
      obtain rfl | ⟨-, hlength⟩ := hcases
      · -- Nothing has changed: the region at `old` is the one from before.
        have hqmem := (h.proper.regionAt_eq_some.mp hq).1
        exact h.proper.disjoint.forall hqmem hr fun heq => hne (heq ▸ hq.symm)
      · exact hlength.disjoint h₁ hq hr hne
    | error e =>
      obtain rfl : p₁ = p := hcases.resolve_right fun hok => by cases hok.1
      dsimp only at hrest
      by_cases hmove : (!mayMove || decide (oldsz > newsz)) = true
      · rw [if_pos hmove] at hrest
        obtain ⟨rfl, rfl⟩ := Prod.mk.inj (some.inj hrest)
        exact ⟨h, fun _ herror => by cases herror⟩
      · rw [if_neg hmove] at hrest
        have hne : oldsz ≠ newsz := by
          intro heq
          rw [mappingResize, if_pos heq] at hresize
          cases hresize
        have hgrow : oldsz < newsz := by
          simp only [Bool.or_eq_true, decide_eq_true_eq, not_or] at hmove
          omega
        obtain ⟨hdvd, hfit, hgiven⟩ := hcare hgrow
        -- The place of the new mapping is the given one, or the next free one.
        obtain ⟨p₂, dest, hplace, hspace, h₂, hvacant, hdest, hend⟩ : ∃ p₂ dest,
            (if fixed ∧ new ≠ 0 then (p₁, new) else allocateMmapRegion p₁ newsz) = (p₂, dest) ∧
            p₂.space = p₁.space ∧ Below p₂ ∧ Vacant p₂ dest newsz ∧ pageSize ∣ dest ∧
            dest + newsz ≤ p₂.nextMmapReg := by
          by_cases hfixed : fixed ∧ new ≠ 0
          · rw [if_pos hfixed]
            obtain ⟨hvacant, hend⟩ := hgiven hfixed.1 hfixed.2
            exact ⟨_, _, rfl, rfl, h, hvacant, hpage hnew, hend⟩
          · rw [if_neg hfixed, allocateMmapRegion, u64_of_lt (by omega)]
            refine ⟨_, _, rfl, rfl, ?_, h.vacant le_rfl (by omega), h.dvd, le_rfl⟩
            exact h.raise (le_add_right _ _) (dvd_add h.dvd hdvd) (by omega)
        rw [hplace] at hrest
        obtain ⟨⟨p₃, result₃⟩, hmoved, hlast⟩ := bind_eq_some_iff.mp hrest
        obtain ⟨rfl, rfl⟩ := Prod.mk.inj (some.inj hlast)
        obtain ⟨h₃, hdisjoint⟩ := h₂.move hvacant hdest hdvd (by omega) hend hmoved
        refine ⟨h₃, fun virt hvirt => ?_⟩
        cases result₃ with
        | error e => cases hvirt
        | ok _ =>
          obtain rfl := Except.ok.inj hvirt
          exact ⟨hdest, fun q hq r hr _ => hdisjoint rfl q hq r (hspace ▸ hr)⟩

/-! ## Runs -/

theorem sysMmap_error {prot : Prot} {flags : MmapFlags} {file : Option OpenFile} {off : ℕ}
    {e : Errno} (h : sysMmap p addr len prot flags file off = some (p', .error e)) : p' = p := by
  unfold sysMmap at h
  split at h
  · exact (Prod.mk.inj (some.inj h)).1.symm
  · split at h
    · exact (Prod.mk.inj (some.inj h)).1.symm
    · split at h
      · exact (Prod.mk.inj (some.inj h)).1.symm
      · split at h
        · exact (Prod.mk.inj (some.inj h)).1.symm
        · obtain ⟨s, -, h⟩ := bind_eq_some_iff.mp h
          exact nomatch (Prod.mk.inj (some.inj h)).2

/-- **One step**: a careful call keeps the invariant and clobbers nothing. -/
theorem Below.step (h : Below p) (hstep : MemoryStep p c p') (hcare : Careful p c) :
    Below p' ∧ NoClobber p c p' := by
  obtain ⟨result, hrun⟩ := hstep
  cases c with
  | mmap addr len prot flags file off =>
    cases result with
    | error e =>
      obtain rfl := sysMmap_error hrun
      refine ⟨h, fun virt hvirt => ?_⟩
      rw [hrun] at hvirt
      cases hvirt
    | ok virt =>
      have hcare' : Careful p (.mmap addr len prot { flags with fixed := false } file off) := hcare
      obtain ⟨hbelow, hdvd, hdisjoint⟩ := h.mmap hcare' hrun
      refine ⟨hbelow, fun v hv => ?_⟩
      rw [hrun] at hv
      cases hv
      exact ⟨hdvd, fun q hq r hr _ => hdisjoint q hq r hr⟩
  | mremap old oldsz newsz mayMove fixed new =>
    obtain ⟨hbelow, hplaced⟩ := h.mremap hcare hrun
    refine ⟨hbelow, fun v hv => ?_⟩
    rw [hrun] at hv
    exact hplaced v (Prod.mk.inj (some.inj hv)).2

theorem below_freshProcess : Below freshProcess where
  proper := ⟨⟨nofun, .nil⟩, nofun, nofun⟩
  ends := nofun
  dvd := by decide
  lt := by decide
  ge := le_rfl

/-- **Careful calls clobber nothing**: in every run from a new process whose calls all meet the
condition, every call that returns an address returns one of a page, and its mapping meets no
region from before the call, other than the one that was moved. -/
theorem careful_noClobber (run : List (MemoryCall × Process))
    (hrun : Along MemoryStep freshProcess run)
    (hcare : Along (fun p c _ => Careful p c) freshProcess run) :
    Along NoClobber freshProcess run :=
  hrun.of_inv (fun _ _ _ h hstep hc => h.step hstep hc) below_freshProcess hcare

/-- A call in which no address is given, with sizes that fit. -/
def Unplaced (p : Process) : MemoryCall → Prop
  | .mmap addr len .. =>
    len + pageSize ≤ 2 ^ 64 ∧ ¬ Hinted addr ∧ p.nextMmapReg + pageCeil len < 2 ^ 64
  | .mremap _ _ newsz _ fixed _ =>
    pageSize ∣ newsz ∧ p.nextMmapReg + newsz + pageSize < 2 ^ 64 ∧ fixed = false

instance (p : Process) : ∀ c, Decidable (Unplaced p c)
  | .mmap .. => inferInstanceAs (Decidable (_ ∧ _))
  | .mremap .. => inferInstanceAs (Decidable (_ ∧ _))

theorem Unplaced.careful (h : Unplaced p c) : Careful p c := by
  cases c with
  | mmap addr len prot flags file off =>
    refine ⟨h.1, ?_⟩
    rw [if_neg h.2.1]
    exact h.2.2
  | mremap old oldsz newsz mayMove fixed new =>
    exact fun _ => ⟨h.1, h.2.1, fun hfixed => absurd (h.2.2.symm.trans hfixed) nofun⟩

theorem MemoryStep.of_exec (h : (execMemory p c).map Prod.fst = some p') : MemoryStep p c p' := by
  obtain ⟨⟨_, result⟩, hexec, rfl⟩ := map_eq_some_iff.mp h
  exact ⟨result, hexec⟩

theorem move_noClobber : ∃ run : List (MemoryCall × Process),
    run.map Prod.fst = [.mmap 0 1 readOnly privateAnon none 0,
      .mmap 0 1 readOnly privateAnon none 0, .mremap 0x400000000000 0x1000 0x2000 true false 0] ∧
    Along MemoryStep freshProcess run ∧
    (final freshProcess run).space.maps.map (fun r => (r.start, r.length)) =
      [(0x400000002000, 0x2000), (0x400000001000, 0x1000)] ∧
    Along NoClobber freshProcess run := by
  refine (exists_run (fun p c => (execMemory p c).map Prod.fst) Unplaced
    (fun p => p.space.maps.map (fun r => (r.start, r.length)) =
      [(0x400000002000, 0x2000), (0x400000001000, 0x1000)]) freshProcess _
    (by decide +kernel)).imp fun run ⟨hevents, hrun, hgoal⟩ => ⟨hevents, ?_⟩
  have hstep : Along MemoryStep freshProcess run := hrun.mono fun _ _ _ h => .of_exec h.2
  exact ⟨hstep, hgoal, careful_noClobber run hstep (hrun.mono fun _ _ _ h => h.1.careful)⟩

/-- A page is mapped, and a call gives its address as a hint: the new mapping takes the place of
the old one. -/
theorem hint_clobbers : ∃ run : List (MemoryCall × Process),
    run.map Prod.fst = [.mmap 0 1 readOnly privateAnon none 0,
      .mmap 0x400000000000 1 readOnly privateAnon none 0] ∧
    Along MemoryStep freshProcess run ∧ ¬ Along NoClobber freshProcess run := by
  let page : Region := mmapRegion 0x400000000000 0x1000 readOnly privateAnon none 0
  refine (exists_trace (fun p c => (execMemory p c).map Prod.fst) (fun _ _ => True)
    (fun run => ∃ x ∈ run.head?, ∃ y ∈ run.tail.head?, page ∈ x.2.space.maps ∧
      (execMemory x.2 y.1).map (fun z => z.2.toOption) = some (some 0x400000000000) ∧
      regionAt y.2.space.maps 0x400000000000 = some page) freshProcess _
    (by decide +kernel)).imp fun run ⟨hevents, hrun, hgoal⟩ =>
    ⟨hevents, hrun.mono fun _ _ _ h => .of_exec h.2, fun hno => ?_⟩
  rcases run with _ | ⟨⟨c₁, p₁⟩, _ | ⟨⟨c₂, p₂⟩, run⟩⟩
  · cases hevents
  · cases hevents
  · obtain ⟨_, hx, _, hy, hpage, hresult, hat⟩ := hgoal
    obtain rfl := some.inj hx
    obtain rfl := some.inj hy
    obtain ⟨result, hexec⟩ := MemoryStep.of_exec hrun.2.1.2
    rw [hexec, map_some, some.injEq, toOption_eq_some] at hresult
    dsimp only at hresult hpage hat
    rw [hresult] at hexec
    -- The page from before the call and the new one have the same addresses.
    have hmoved : some page ≠ c₂.moved p₁ := by
      obtain rfl : c₂ = .mmap 0x400000000000 1 readOnly privateAnon none 0 := by
        simp only [map_cons, cons.injEq] at hevents
        exact hevents.2.1
      exact nofun
    have hcover : page.Covers 0x400000000000 := by decide
    exact (hno.2.1 _ hexec).2 page hat page hpage hmoved _ hcover hcover

end Placement

end SeaKernel.Mapping
