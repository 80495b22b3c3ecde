import SeaKernel.Memory.Isolation

/-!
# What fork does to the page tables

`process_copy_mappings` goes through the regions of the parent and, in each of them, through its
pages. The child gets the regions, and at every page of a region the frame that the parent has
there, each of them counted once more. The frames of the parent stay where they are.

As the regions are disjoint, no page comes up twice, so that `arch_mm_virtual_map` finds the entry
of the child empty every time and no count goes up without an entry.

## Main results

* `exists_fork`: a fork of a process with disjoint regions does not fail, and its effect
-/

namespace SeaKernel.Paging

open Mapping Function List Option Machine

variable {m m' m₁ : Machine} {src dst n addr : ℕ} {s t : AddressSpace} {reg : Region}
  {copied : List Region} {done : Set ℕ} {pte : Pte}

/-- The pages of the regions. -/
def pagesOf (maps : List Region) : Set ℕ := {n | ∃ r ∈ maps, r.Covers (n * pageSize)}

/-- A state `m'` of the copying of the mappings of `src`, from the machine `m`: the regions that
`dst` has, and the pages that are done. -/
structure Forking (src dst : ℕ) (m : Machine) (copied : List Region) (done : Set ℕ)
    (m' : Machine) : Prop where
  source : ∃ s s', m.space src = some s ∧ m'.space src = some s' ∧ s'.maps = s.maps
  target : ∃ t, m'.space dst = some t ∧ t.maps = copied
  others : ∀ q, q ≠ src → q ≠ dst → m'.space q = m.space q
  slot_source : ∀ n, m'.slot (src, n) = m.slot (src, n)
  slot_done : ∀ n ∈ done, m'.slot (dst, n) = m.slot (src, n)
  slot_rest : ∀ n, n ∉ done → m'.slot (dst, n) = none
  free_eq : m'.free = m.free
  flags_eq : ∀ f, (m'.frame f).flags = (m.frame f).flags
  balanced : ∀ base pending, Balanced base pending m.slot m.count →
    Balanced base pending m'.slot m'.count

/-! ## Pages -/

theorem flags_frameAcquire (m : Machine) (f g : ℕ) :
    ((m.frameAcquire f).frame g).flags = (m.frame g).flags := by
  by_cases hg : g = f
  · subst hg
    simp [frameAcquire]
  · simp [frameAcquire, update_of_ne hg]

theorem slot_ne_of_ne {q k : ℕ} (hq : q ≠ dst) (slot : ℕ × ℕ → Option ℕ) (x : Option ℕ) :
    update slot (dst, n) x (q, k) = slot (q, k) :=
  update_of_ne (fun h => hq (congrArg Prod.fst h)) ..

theorem slot_setPte_self (hs : m.space src = some s) (hpte : s.pages n = some pte) (new : Pte)
    (hphys : new.phys = pte.phys) : (m.setSpace src (setPte s n new)).slot = m.slot := by
  have hslot : m.slot (src, n) = some pte.phys := slot_eq_some.mpr ⟨s, pte, hs, hpte, rfl⟩
  rw [slot_setPte hs, hphys, ← hslot, update_eq_self]

theorem Forking.copyPage (reg : Region) (h : Forking src dst m copied done m₁) (hne : src ≠ dst)
    (hpage : addr / pageSize ∉ done) :
    ∃ m₂, Machine.copyPage src dst reg m₁ addr = some m₂ ∧
      Forking src dst m copied (insert (addr / pageSize) done) m₂ := by
  obtain ⟨s₀, s, hs₀, hs, hmaps⟩ := h.source
  obtain ⟨t, ht, rfl⟩ := h.target
  have hrest := h.slot_rest _ hpage
  have htarget : t.pages (addr / pageSize) = none := by
    simpa [slot, ht] using hrest
  unfold copyPage
  simp only [hs, ht, bind_eq_bind, bind_some]
  cases hpte : s.pages (addr / pageSize) with
  | none =>
    -- Nothing is there to be copied.
    have hnone : m.slot (src, addr / pageSize) = none := by
      rw [← h.slot_source]
      simp [slot, hs, hpte]
    refine ⟨m₁, rfl, ⟨h.source, ⟨t, ht, rfl⟩, h.others, h.slot_source, ?_, ?_, h.free_eq,
      h.flags_eq, h.balanced⟩⟩
    · rintro k (rfl | hk)
      · rw [hrest, hnone]
      · exact h.slot_done k hk
    · intro k hk
      exact h.slot_rest k fun hk' => hk (.inr hk')
  | some pte =>
    dsimp only
    rw [copyPage_source hpte]
    have hsame := slot_setPte_self hs hpte (copiedPte reg pte) rfl
    have hs₁ := space_setSpace m₁ src (setPte s (addr / pageSize) (copiedPte reg pte))
    generalize hm₂ : m₁.setSpace src (setPte s (addr / pageSize) (copiedPte reg pte)) = m₂ at *
    have hothers : ∀ q, q ≠ src → m₂.space q = m₁.space q :=
      fun q hq => hm₂ ▸ space_setSpace_ne m₁ _ hq
    have ht₁ : m₂.space dst = some t := (hothers dst hne.symm).trans ht
    have hframe : m₂.frame = m₁.frame := hm₂ ▸ rfl
    have hfree : m₂.free = m₁.free := hm₂ ▸ rfl
    have hcount : m₂.count = m₁.count := hm₂ ▸ rfl
    refine ⟨_, rfl, ?_⟩
    rw [show (⟨pte.phys, pte.write && decide (reg.flags = .shared), pte.exec⟩ : Pte) =
      copiedPte reg pte from rfl, virtualMap_of_none htarget]
    -- The entry of the child is the only one that changes.
    have hslot : ((m₂.frameAcquire pte.phys).setSpace dst
        (setPte t (addr / pageSize) (copiedPte reg pte))).slot =
          update m₁.slot (dst, addr / pageSize) (some pte.phys) := by
      rw [slot_setPte (m := m₂.frameAcquire pte.phys) ht₁, ← hsame]
      rfl
    have hphys : m₁.slot (src, addr / pageSize) = some pte.phys :=
      slot_eq_some.mpr ⟨s, pte, hs, hpte, rfl⟩
    refine ⟨⟨s₀, setPte s (addr / pageSize) (copiedPte reg pte), hs₀, ?_, hmaps⟩,
      ⟨_, space_setSpace .., rfl⟩, ?_, ?_, ?_, ?_, ?_, ?_, ?_⟩
    · rw [space_setSpace_ne _ _ hne]
      exact hs₁
    · intro q hq hq'
      rw [space_setSpace_ne _ _ hq']
      exact (hothers q hq).trans (h.others q hq hq')
    · intro k
      rw [hslot, slot_ne_of_ne hne]
      exact h.slot_source k
    · rintro k (rfl | hk)
      · rw [hslot, update_self, ← h.slot_source, hphys]
      · have hk' : k ≠ addr / pageSize := fun hk' => hpage (hk' ▸ hk)
        rw [hslot, update_of_ne (by simp [hk'])]
        exact h.slot_done k hk
    · intro k hk
      rw [Set.mem_insert_iff, not_or] at hk
      rw [hslot, update_of_ne (by simp [hk.1])]
      exact h.slot_rest k hk.2
    · exact hfree.trans h.free_eq
    · intro f
      refine (flags_frameAcquire m₂ pte.phys f).trans ?_
      rw [hframe]
      exact h.flags_eq f
    · intro base pending hbalanced
      have hacquire := (h.balanced base pending hbalanced).acquire pte.phys
      rw [hslot]
      refine Balanced.store (r := pte.phys) ?_ hrest
      rw [← hcount, ← count_frameAcquire] at hacquire
      exact hacquire

theorem Forking.copyPages (reg : Region) (hne : src ≠ dst) (pages : List ℕ)
    (hnodup : (pages.map (· / pageSize)).Nodup) (h : Forking src dst m copied done m₁)
    (hpages : ∀ v ∈ pages, v / pageSize ∉ done) :
    ∃ m₂, pages.foldlM (Machine.copyPage src dst reg) m₁ = some m₂ ∧
      Forking src dst m copied (done ∪ {n | n ∈ pages.map (· / pageSize)}) m₂ := by
  induction pages generalizing m₁ done with
  | nil => exact ⟨m₁, rfl, by simpa using h⟩
  | cons v pages ih =>
    rw [map_cons, nodup_cons] at hnodup
    obtain ⟨m₂, hcopy, h₂⟩ := h.copyPage reg hne (hpages v (by simp))
    have hrest : ∀ w ∈ pages, w / pageSize ∉ insert (v / pageSize) done := by
      rintro w hw (heq | hmem)
      · exact hnodup.1 (heq ▸ mem_map_of_mem hw)
      · exact hpages w (by simp [hw]) hmem
    obtain ⟨m₃, hcopies, h₃⟩ := ih hnodup.2 h₂ hrest
    refine ⟨m₃, by rw [foldlM_cons, hcopy]; exact hcopies, ?_⟩
    have hdone : insert (v / pageSize) done ∪ {n | n ∈ pages.map (· / pageSize)} =
        done ∪ {n | n ∈ (v :: pages).map (· / pageSize)} := by
      ext k
      simp only [Set.mem_union, Set.mem_insert_iff, Set.mem_ofPred_eq, map_cons, mem_cons]
      tauto
    rwa [hdone] at h₃

/-! ## Regions -/

theorem map_pagesUpto (start stop : ℕ) : (pagesUpto start stop).map (· / pageSize) =
      (List.range ((stop - start + (pageSize - 1)) / pageSize)).map (start / pageSize + ·) := by
  rw [pagesUpto, List.map_map]
  refine List.map_congr_left fun i _ => ?_
  rw [comp_apply, Nat.add_mul_div_right _ _ (by decide)]

theorem mem_map_pagesUpto (hreg : reg.Aligned) :
    n ∈ (pagesUpto reg.start (u64 (reg.start + reg.length))).map (· / pageSize) ↔
      reg.Covers (n * pageSize) := by
  rw [map_pagesUpto, List.mem_map, Region.Covers]
  have hstart := hreg.start_dvd
  generalize u64 (reg.start + reg.length) = stop
  simp only [List.mem_range, pageSize] at *
  constructor
  · rintro ⟨i, hi, rfl⟩
    omega
  · rintro ⟨hge, hlt⟩
    exact ⟨n - reg.start / 0x1000, by omega, by omega⟩

/-- **One region is copied.** -/
theorem Forking.copyRegion (h : Forking src dst m copied (pagesOf copied) m₁) (hne : src ≠ dst)
    (hwf : WellFormed (reg :: copied)) :
    ∃ m₂, Machine.copyRegion src dst m₁ reg = some m₂ ∧
      Forking src dst m (reg :: copied) (pagesOf (reg :: copied)) m₂ := by
  obtain ⟨t, ht, rfl⟩ := h.target
  have hreg := hwf.aligned reg (by simp)
  have hdisjoint := (pairwise_cons.mp hwf.disjoint).1
  unfold copyRegion
  rw [ht, bind_eq_bind, bind_some, mapRegionSetup_of_free hdisjoint, bind_some]
  have hsame : (m₁.setSpace dst { t with maps := reg :: t.maps }).slot = m₁.slot := by
    funext ⟨q, k⟩
    by_cases hq : q = dst
    · subst hq
      rw [slot, slot, space_setSpace, ht]
      rfl
    · rw [slot, slot, space_setSpace_ne m₁ _ hq]
  have hstart : Forking src dst m (reg :: t.maps) (pagesOf t.maps)
      (m₁.setSpace dst { t with maps := reg :: t.maps }) := by
    obtain ⟨s, s', hs, hs', hmaps⟩ := h.source
    refine ⟨⟨s, s', hs, by rw [space_setSpace_ne m₁ _ hne, hs'], hmaps⟩,
      ⟨_, space_setSpace .., rfl⟩, fun q hq hq' => ?_, ?_, ?_, ?_, h.free_eq, h.flags_eq, ?_⟩
    · rw [space_setSpace_ne m₁ _ hq']
      exact h.others q hq hq'
    · rw [hsame]
      exact h.slot_source
    · rw [hsame]
      exact h.slot_done
    · rw [hsame]
      exact h.slot_rest
    · rw [hsame]
      exact h.balanced
  have hnodup :
      ((pagesUpto reg.start (u64 (reg.start + reg.length))).map (· / pageSize)).Nodup := by
    rw [map_pagesUpto]
    exact nodup_range.map fun a b hab => Nat.add_left_cancel hab
  obtain ⟨m₂, hcopy, h₂⟩ := hstart.copyPages reg hne _ hnodup (by
    rintro v hv ⟨r, hr, hc⟩
    exact hdisjoint r hr _ ((mem_map_pagesUpto hreg).mp (mem_map_of_mem hv)) hc)
  refine ⟨m₂, hcopy, ?_⟩
  have hdone : pagesOf t.maps ∪
      {n | n ∈ (pagesUpto reg.start (u64 (reg.start + reg.length))).map (· / pageSize)} =
      pagesOf (reg :: t.maps) := by
    ext k
    simp only [Set.mem_union, Set.mem_ofPred_eq, mem_map_pagesUpto hreg, pagesOf, mem_cons,
      exists_eq_or_imp]
    exact or_comm
  rwa [hdone] at h₂

theorem Forking.copyRegions (hne : src ≠ dst) (regs : List Region)
    (h : Forking src dst m copied (pagesOf copied) m₁) (hwf : WellFormed (regs ++ copied)) :
    ∃ m₂, regs.foldlM (Machine.copyRegion src dst) m₁ = some m₂ ∧
      Forking src dst m (regs.reverse ++ copied) (pagesOf (regs.reverse ++ copied)) m₂ := by
  induction regs generalizing m₁ copied with
  | nil => exact ⟨m₁, rfl, by simpa using h⟩
  | cons reg regs ih =>
    have hone : WellFormed (reg :: copied) := by
      refine ⟨fun r hr => hwf.aligned r ?_, hwf.disjoint.sublist ?_⟩
      · rcases mem_cons.mp hr with rfl | hr
        · simp
        · simp [hr]
      · exact (sublist_append_right regs copied).cons_cons reg
    obtain ⟨m₂, hcopy, h₂⟩ := h.copyRegion hne hone
    obtain ⟨m₃, hcopies, h₃⟩ := ih h₂ (hwf.perm perm_middle.symm)
    refine ⟨m₃, by rw [foldlM_cons, hcopy]; exact hcopies, ?_⟩
    simpa using h₃

/-! ## Fork -/

/-- What a fork does: the child gets the regions of the parent, and the frames in them. -/
structure Forked (src dst : ℕ) (m m' : Machine) : Prop where
  new : m.space dst = none
  spaces : ∃ s s' t, m.space src = some s ∧ m'.space src = some s' ∧ m'.space dst = some t ∧
    s'.maps = s.maps ∧ t.maps = s.maps.reverse ∧
    (∀ n ∈ pagesOf s.maps, m'.slot (dst, n) = m.slot (src, n)) ∧
    ∀ n, n ∉ pagesOf s.maps → m'.slot (dst, n) = none
  others : ∀ q, q ≠ src → q ≠ dst → m'.space q = m.space q
  slot_source : ∀ n, m'.slot (src, n) = m.slot (src, n)
  free_eq : m'.free = m.free
  flags_eq : ∀ f, (m'.frame f).flags = (m.frame f).flags
  balanced : ∀ base pending, Balanced base pending m.slot m.count →
    Balanced base pending m'.slot m'.count

/-- **A fork** of a process with disjoint regions does not fail. -/
theorem exists_fork (hs : m.space src = some s) (hdst : m.space dst = none)
    (hwf : WellFormed s.maps) :
    ∃ m', m.exec (.fork src dst) = some m' ∧ Forked src dst m m' := by
  have hne : src ≠ dst := by
    rintro rfl
    rw [hs] at hdst
    cases hdst
  have hcall : (m.space src).isSome ∧ (m.space dst).isNone := by simp [hs, hdst]
  have hs₁ : (m.setSpace dst ⟨[], fun _ => none⟩).space src = some s := by
    rw [space_setSpace_ne m _ hne, hs]
  have hsame : (m.setSpace dst ⟨[], fun _ => none⟩).slot = m.slot := by
    funext ⟨q, k⟩
    by_cases hq : q = dst
    · subst hq
      rw [slot, slot, space_setSpace, hdst]
      rfl
    · rw [slot, slot, space_setSpace_ne m _ hq]
  have hstart : Forking src dst m [] (pagesOf []) (m.setSpace dst ⟨[], fun _ => none⟩) := by
    refine ⟨⟨s, s, hs, hs₁, rfl⟩, ⟨_, space_setSpace .., rfl⟩,
      fun q _ hq => space_setSpace_ne m _ hq, fun n => by rw [hsame], ?_, fun n _ => ?_, rfl,
      fun f => rfl, fun base pending h => ?_⟩
    · rintro n ⟨r, hr, -⟩
      cases hr
    · rw [slot, space_setSpace]
      rfl
    · rw [hsame]
      exact h
  obtain ⟨m', hcopy, h⟩ := hstart.copyRegions hne s.maps (by simpa using hwf)
  refine ⟨m', ?_, ?_⟩
  · unfold exec processCopyMappings
    dsimp only
    rw [if_pos hcall, hs₁]
    exact hcopy
  · rw [append_nil] at h
    have hpages : pagesOf s.maps.reverse = pagesOf s.maps := by
      ext n
      simp [pagesOf]
    rw [hpages] at h
    obtain ⟨s₀, s', hs₀, hs', hmaps⟩ := h.source
    obtain rfl := some.inj (hs.symm.trans hs₀)
    obtain ⟨t, ht, htmaps⟩ := h.target
    exact ⟨hdst, ⟨s, s', t, hs, hs', ht, hmaps, htmaps, h.slot_done, h.slot_rest⟩, h.others,
      h.slot_source, h.free_eq, h.flags_eq, h.balanced⟩

theorem forked_of_exec (hwf : ∀ p s, m.space p = some s → WellFormed s.maps)
    (hm : m.exec (.fork src dst) = some m') : Forked src dst m m' := by
  have hcall : (m.space src).isSome ∧ (m.space dst).isNone := by
    by_contra hcall
    unfold exec at hm
    dsimp only at hm
    rw [if_neg hcall] at hm
    cases hm
  obtain ⟨s, hs⟩ := isSome_iff_exists.mp hcall.1
  obtain ⟨m'', hexec, h⟩ :=
    exists_fork hs (isNone_iff_eq_none.mp hcall.2) (hwf src s hs)
  obtain rfl := some.inj (hm.symm.trans hexec)
  exact h

theorem Forked.wf (h : Forked src dst m m') (hwf : ∀ p s, m.space p = some s → WellFormed s.maps)
    (p : ℕ) (s : AddressSpace) (hs : m'.space p = some s) : WellFormed s.maps := by
  obtain ⟨s₀, s₁, t, hs₀, hs₁, ht, hmaps, htmaps, -⟩ := h.spaces
  by_cases hp : p = src
  · subst hp
    obtain rfl := some.inj (hs₁.symm.trans hs)
    rw [hmaps]
    exact hwf p s₀ hs₀
  by_cases hp' : p = dst
  · subst hp'
    obtain rfl := some.inj (ht.symm.trans hs)
    rw [htmaps]
    exact (hwf src s₀ hs₀).perm (reverse_perm _).symm
  · exact hwf p s ((h.others p hp hp').symm.trans hs)

end SeaKernel.Paging
