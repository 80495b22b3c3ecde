import SeaKernel.Memory.FrameCounts
import SeaKernel.Memory.MappingRuns

/-!
# Runs on anonymous memory

Mappings over any pages, page faults, forks and removals by any number of processes. The books of
the frames need only that the regions stay disjoint, so that a fork copies each page once, and that
their memory is anonymous.

A removal that does not start at a page and comes to a region never ends, so that a removal that
ends has changed nothing unless it started at a page.

## Main results

* `removePage_unaligned`: a removal inside a page ends only where nothing is mapped
* `Kept.operate`: every operation keeps the books
* `frames_of_run`: in every run, counts are exact and no assertion fails
-/

namespace SeaKernel.Paging

open Mapping List Option Position

variable {m₀ m m' : Machine} {p v : ℕ} {s s' : AddressSpace}

/-! ## Regions -/

section Regions

variable {maps : List Region}

/-- The regions are disjoint, and their memory is anonymous. -/
structure AnonymousMaps (maps : List Region) : Prop where
  wf : WellFormed maps
  anon : ∀ r ∈ maps, r.file.inode = none

theorem removePage_file (rounds : ℕ) (hs : removePage rounds s v = some s') :
    ∀ r ∈ s'.maps, ∃ r' ∈ s.maps, r.file = r'.file := by
  induction rounds generalizing s with
  | zero => cases hs
  | succ rounds ih =>
    -- A round replaces a region by regions with its file.
    have hsettle : ∀ (t : AddressSpace) (pos pos' : Position), s.maps = pos.list →
        (∀ r ∈ pos'.list, r ∈ pos.list ∨ r.file = pos.reg.file) →
        ∀ r ∈ (settle t pos').maps, ∃ r' ∈ s.maps, r.file = r'.file := by
      intro t pos pos' hlist hfile r hr
      have hmem : r ∈ pos'.list := by
        rw [settle_maps] at hr
        split at hr
        · rcases mem_append.mp hr with hr | hr <;> simp [list, hr]
        · exact hr
      rw [hlist]
      rcases hfile r hmem with hr | hr
      · exact ⟨r, hr, rfl⟩
      · exact ⟨pos.reg, by simp [list], hr⟩
    rw [removePage] at hs
    cases hf : findRegion s.maps v with
    | none =>
      rw [hf] at hs
      obtain rfl := some.inj hs
      exact fun r hr => ⟨r, hr, rfl⟩
    | some pos =>
      rw [hf] at hs
      have hlist := (findRegion_some hf).1
      dsimp only at hs
      split at hs
      · obtain rfl := some.inj hs
        refine hsettle _ pos _ hlist fun r hr => ?_
        simp only [list, mem_append, mem_cons] at hr ⊢
        rcases hr with hr | rfl | hr <;> simp [*]
      split at hs
      · obtain rfl := some.inj hs
        refine hsettle _ pos _ hlist fun r hr => ?_
        simp only [list, mem_append, mem_cons] at hr ⊢
        rcases hr with hr | rfl | hr <;> simp [*]
      · intro r hr
        obtain ⟨r₁, hr₁, hfile⟩ := ih hs r hr
        rw [hfile]
        refine hsettle _ pos _ hlist (fun r hr => ?_) r₁ hr₁
        simp only [list, mem_append, mem_cons, splitRegion] at hr ⊢
        rcases hr with (rfl | hr) | rfl | hr <;> simp [*]

theorem removePage_unaligned (h : WellFormed s.maps) (hv : ¬ pageSize ∣ v)
    (hs : removePage 2 s v = some s') : s' = s := by
  -- The two ends of a region at which the loop stops are ends of pages.
  have hend : ∀ r : Region, r.Aligned → v ≠ r.start ∧ v ≠ pageFloor (u64 (r.start + r.length)) := by
    intro r hr
    refine ⟨fun heq => hv (heq ▸ hr.start_dvd), fun heq => hv ?_⟩
    rw [heq, pageFloor]
    exact Nat.dvd_sub_mod _
  rw [removePage] at hs
  cases hf : findRegion s.maps v with
  | none =>
    rw [hf] at hs
    exact (some.inj hs).symm
  | some pos =>
    obtain ⟨hlist, hc⟩ := findRegion_some hf
    have hr : pos.reg.Aligned := h.aligned pos.reg (by rw [hlist]; simp [list])
    have hfit := hc.lt hr
    have hcov := (Region.covers_iff hfit).mp hc
    have hstart : pos.reg.start < v := lt_of_le_of_ne hcov.1 (Ne.symm (hend _ hr).1)
    obtain ⟨hle, hsplit⟩ := splitRegion_ceil hr hstart hcov.2.le hfit
    have hv' := le_pageCeil v
    rw [hf] at hs
    dsimp only at hs
    rw [if_neg (hend _ hr).1, if_neg (hend _ hr).2, hsplit] at hs
    dsimp only at hs
    rw [settle, if_neg (by dsimp only; omega), removePage] at hs
    have hceil : pageSize ∣ pageCeil v := Nat.dvd_mul_left _ _
    have hold : Region.Aligned { pos.reg with length := pageCeil v - pos.reg.start } :=
      ⟨hr.start_dvd, Nat.dvd_sub hceil hr.start_dvd, hr.start_lt, by dsimp only; omega⟩
    have hnew : Region.Aligned { pos.reg with
        start := pageCeil v
        length := pos.reg.start + pos.reg.length - pageCeil v } :=
      ⟨hceil, Nat.dvd_sub (Nat.dvd_add hr.start_dvd hr.length_dvd) hceil, by dsimp only; omega,
        by dsimp only; omega⟩
    -- The first half still covers the address, and the region found now has no end there either.
    split at hs
    · next hnone =>
      refine absurd ?_ (findRegion_none hnone _ (mem_append_right _ mem_cons_self))
      rw [Region.covers_iff (by dsimp only; omega)]
      have hlt : v ≠ pageCeil v := fun heq => hv (heq ▸ hceil)
      dsimp only
      omega
    · next pos' hf' =>
      have hr' : pos'.reg.Aligned := by
        have hmem : pos'.reg ∈ pos'.list := by simp [list]
        rw [← (findRegion_some hf').1] at hmem
        simp only [list, mem_append, mem_cons] at hmem
        rcases hmem with (hmem | hmem) | hmem | hmem
        · exact hmem ▸ hnew
        · exact h.aligned _ (by rw [hlist]; simp [list, hmem])
        · exact hmem ▸ hold
        · exact h.aligned _ (by rw [hlist]; simp [list, hmem])
      rw [if_neg (hend _ hr').1, if_neg (hend _ hr').2] at hs
      cases hs

theorem AnonymousMaps.removePages (pages : List ℕ) (h : AnonymousMaps s.maps)
    (hs : pages.foldlM (removePage 2) s = some s') : AnonymousMaps s'.maps := by
  refine foldlM_inv (I := fun s : AddressSpace => AnonymousMaps s.maps)
    (fun v _ s s' h hs => ?_) h hs
  refine ⟨?_, fun r hr => ?_⟩
  · by_cases hv : pageSize ∣ v
    · obtain ⟨s'', hok, hremoved⟩ := removePage_spec h.wf hv
      obtain rfl := some.inj (hs.symm.trans hok)
      exact hremoved.wf
    · rw [removePage_unaligned h.wf hv hs]
      exact h.wf
  · obtain ⟨r', hr', hfile⟩ := removePage_file 2 hs r hr
    rw [hfile]
    exact h.anon r' hr'

theorem AnonymousMaps.sublist {maps' : List Region} (h : AnonymousMaps maps)
    (hsub : maps'.Sublist maps) : AnonymousMaps maps' :=
  ⟨⟨fun r hr => h.wf.aligned r (hsub.subset hr), h.wf.disjoint.sublist hsub⟩,
    fun r hr => h.anon r (hsub.subset hr)⟩

end Regions

/-! ## Operations -/

section Operations

/-- The books are kept, and all memory is anonymous. -/
structure Kept (m₀ m : Machine) : Prop where
  books : Books m₀ 0 m
  maps : ∀ p s, m.space p = some s → AnonymousMaps s.maps

theorem Kept.became (h : Kept m₀ m) (h' : Became m₀ p s' m m') (hs' : AnonymousMaps s'.maps) :
    Kept m₀ m' := by
  refine ⟨h'.books, fun q t ht => ?_⟩
  rw [h'.space_eq] at ht
  by_cases hq : q = p
  · subst hq
    rw [Function.update_self] at ht
    obtain rfl := some.inj ht
    exact hs'
  · rw [Function.update_of_ne hq] at ht
    exact h.maps q t ht

theorem foldlM_removePage_of_none (hp : m.space p = none) {pages : List ℕ} (hpages : pages ≠ []) :
    pages.foldlM (Machine.removePage p 2) m = none := by
  cases pages with
  | nil => exact absurd rfl hpages
  | cons v pages =>
    rw [foldlM_cons, Machine.removePage, hp]
    rfl

theorem Kept.mapRegionRemove (h : Kept m₀ m) (hzero : m₀.free 0 = false) (p start len : ℕ) :
    (m.mapRegionRemove p start len = none ∧ ¬ (Operation.remove p start len).Ready m) ∨
      ∃ m', m.mapRegionRemove p start len = some m' ∧ Kept m₀ m' := by
  unfold Machine.mapRegionRemove
  cases hs : m.space p with
  | none =>
    by_cases hpages : pagesUpto start (u64 (start + len)) = []
    · rw [hpages]
      exact .inr ⟨m, rfl, h⟩
    · refine .inl ⟨foldlM_removePage_of_none hs hpages, fun hready => ?_⟩
      have hsome := hready.1
      rw [hs] at hsome
      cases hsome
  | some s =>
    rcases h.books.removePages hzero (pagesUpto start (u64 (start + len))) hs with
      ⟨hend, hend'⟩ | ⟨s', m', hok, hok', h'⟩
    · refine .inl ⟨hend', fun hready => ?_⟩
      obtain ⟨s'', hok, -⟩ := removePages_spec (h.maps p s hs).wf hready.2
        ((u64 (start + len) - start + (pageSize - 1)) / pageSize)
      rw [pagesUpto, hok] at hend
      cases hend
    · exact .inr ⟨m', hok', h.became h' ((h.maps p s hs).removePages _ hok)⟩

theorem Kept.mapMmap (h : Kept m₀ m) (hzero : m₀.free 0 = false) {virt len off : ℕ} {prot : Prot}
    {flags : Sharing} (haligned : (Operation.mmap p virt len prot flags off).Aligned) :
    (m.mapMmap p virt len prot flags off = none ∧
      ¬ (Operation.mmap p virt len prot flags off).Ready m) ∨
      ∃ m', m.mapMmap p virt len prot flags off = some m' ∧ Kept m₀ m' := by
  obtain ⟨hvirt, hlen, hvirt', hlen'⟩ := haligned
  let reg : Region := ⟨virt, len, zeroFile, (off / pageSize : ℕ), prot, flags⟩
  have hreg : reg.Aligned := ⟨hvirt, hlen, hvirt', hlen'⟩
  have hunfold : m.mapMmap p virt len prot flags off = m.mapRegionSetup p reg := rfl
  rw [hunfold]
  unfold Machine.mapRegionSetup Machine.mapRegionRemove
  cases hs : m.space p with
  | none =>
    refine .inl ⟨?_, fun hready => ?_⟩
    · by_cases hpages : pagesUpto reg.start (u64 (reg.start + reg.length)) = []
      · rw [hpages, foldlM_nil, bind_eq_bind]
        simp [hs]
      · rw [foldlM_removePage_of_none hs hpages]
        rfl
    · have hsome : (m.space p).isSome := hready
      rw [hs] at hsome
      cases hsome
  | some s =>
    have hmaps := h.maps p s hs
    obtain ⟨s₁, hok, hremoved⟩ := mapRegionRemove_spec hmaps.wf hreg.start_dvd hreg.length_dvd
    rcases h.books.removePages hzero (pagesUpto reg.start (u64 (reg.start + reg.length))) hs with
      ⟨hend, -⟩ | ⟨s', m₁, hok', hm₁, h₁⟩
    · rw [Mapping.mapRegionRemove, hend] at hok
      cases hok
    · obtain rfl : s' = s₁ := some.inj (hok'.symm.trans hok)
      refine .inr ⟨m₁.setSpace p { s' with maps := reg :: s'.maps }, ?_, ?_⟩
      · rw [hm₁, bind_eq_bind, bind_some, h₁.self]
        rfl
      · have hset : Became m₀ p { s' with maps := reg :: s'.maps } m₁
            (m₁.setSpace p { s' with maps := reg :: s'.maps }) :=
          ⟨h₁.books.setMaps h₁.self _, rfl⟩
        refine h.became (h₁.trans hset) ⟨?_, ?_⟩
        · -- The range of the region is free now.
          refine (insert_step hreg hremoved.wf fun a ha => ?_).1
          exact (hremoved.origin_eq hmaps.wf a).trans (if_pos ha)
        · intro r hr
          rcases mem_cons.mp hr with rfl | hr
          · rfl
          · exact (hmaps.removePages _ hok').anon r hr

theorem Books.removeMappings (hzero : m₀.free 0 = false) (userTlsToo : Bool)
    (rest before : List Region) (h : Books m₀ 0 m) (hs : m.space p = some s)
    (hmaps : s.maps = before ++ rest) :
    ∃ m' s', m.removeMappings p userTlsToo before rest = some m' ∧ Became m₀ p s' m m' ∧
      s'.maps.Sublist s.maps := by
  induction rest generalizing m s before with
  | nil => exact ⟨m, s, rfl, .refl h hs, List.Sublist.refl _⟩
  | cons reg rest ih =>
    unfold Machine.removeMappings
    split
    · exact ih (before ++ [reg]) h hs (by simp [hmaps])
    · obtain ⟨m₁, hremove, h₁⟩ := h.mappingRemove hzero hs ⟨before, reg, rest⟩
      obtain ⟨m', s', hok, h', hsub⟩ := ih before h₁.books h₁.self (foldl_virtualUnmap_maps _ _)
      refine ⟨m', s', by rw [hremove]; exact hok, h₁.trans h', hsub.trans ?_⟩
      rw [Mapping.mappingRemove, foldl_virtualUnmap_maps, hmaps]
      exact (sublist_cons_self reg rest).append_left before

/-- **An operation** keeps the books, or it is not given what it relies on. -/
theorem Kept.operate (h : Kept m₀ m) (hzero : m₀.free 0 = false)
    (hbase : ∀ f, m₀.free f = true → m₀.count f = 0) {e : Operation} (haligned : e.Aligned) :
    (m.operate e = none ∧ ¬ e.Ready m) ∨ ∃ m', m.operate e = some m' ∧ Kept m₀ m' := by
  cases e with
  | mmap p virt len prot flags off => exact h.mapMmap hzero haligned
  | fault p addr flags pick pick' =>
    rcases h.books.handleFault hzero fun s hs => (h.maps p s hs).anon with
      ⟨hfail, hready⟩ | ⟨m', success, s, s', hok, hs, h', hmaps⟩
    · exact .inl ⟨by rw [Machine.operate, hfail]; rfl, hready⟩
    · refine .inr ⟨m', by rw [Machine.operate, hok]; rfl, h.became h' ?_⟩
      rw [hmaps]
      exact h.maps p s hs
  | fork p child =>
    have hwf := fun p s hs => (h.maps p s hs).wf
    cases hfork : m.operate (.fork p child) with
    | none =>
      refine .inl ⟨rfl, fun ⟨hp, hchild⟩ => ?_⟩
      obtain ⟨s, hs⟩ := isSome_iff_exists.mp hp
      obtain ⟨m', hok, -⟩ := exists_fork hs hchild (hwf p s hs)
      rw [Machine.operate, hok] at hfork
      cases hfork
    | some m' =>
      have hforked := forked_of_exec hwf hfork
      refine .inr ⟨m', rfl, h.books.fork hbase hforked, fun q t ht => ⟨hforked.wf hwf q t ht, ?_⟩⟩
      obtain ⟨s₀, s₁, t₁, hs₀, hs₁, ht₁, hmaps, htmaps, -⟩ := hforked.spaces
      have hanon := (h.maps p s₀ hs₀).anon
      by_cases hq : q = p
      · subst hq
        obtain rfl := some.inj (hs₁.symm.trans ht)
        rwa [hmaps]
      by_cases hq' : q = child
      · subst hq'
        obtain rfl := some.inj (ht₁.symm.trans ht)
        rw [htmaps]
        exact fun r hr => hanon r (mem_reverse.mp hr)
      · exact (h.maps q t ((hforked.others q hq hq').symm.trans ht)).anon
  | remove p start len => exact h.mapRegionRemove hzero p start len
  | removeMappings p userTlsToo =>
    unfold Machine.operate Machine.processRemoveMappings
    dsimp only
    cases hs : m.space p with
    | none =>
      refine .inl ⟨rfl, fun hready => ?_⟩
      have hsome : (m.space p).isSome := hready
      rw [hs] at hsome
      cases hsome
    | some s =>
      obtain ⟨m', s', hok, h', hsub⟩ :=
        h.books.removeMappings hzero userTlsToo s.maps [] hs rfl
      exact .inr ⟨m', hok, h.became h' ((h.maps p s hs).sublist hsub)⟩

end Operations

/-! ## Runs -/

section Runs

/-- What holds for the frames that were free in `m₀`, those of anonymous memory: they are counted
once for every entry, over all processes, and are with the allocator if there is none. No entry
refers to another frame. No operation fails that is given what it relies on. -/
structure Accounted (m₀ m : Machine) : Prop where
  count_eq : ∀ f, m₀.free f = true → (holders m.slot f).encard = m.count f
  free_iff : ∀ f, m₀.free f = true → (m.free f = true ↔ ∀ x, m.slot x ≠ some f)
  others : ∀ f, m₀.free f = false → m.free f = false ∧ ∀ x, m.slot x ≠ some f
  progress : ∀ e : Operation, e.Aligned → e.Ready m → (m.operate e).isSome

/-- A machine with regions of anonymous memory on which no page is mapped yet. The frame at address
zero, which stands for failure, is not with the allocator. -/
structure Unmapped (m : Machine) : Prop where
  maps : ∀ p s, m.space p = some s → AnonymousMaps s.maps ∧ ∀ n, s.pages n = none
  count_eq : ∀ f, m.free f = true → m.count f = 0
  zero : m.free 0 = false

theorem Unmapped.kept (h : Unmapped m) : Kept m m := by
  have hslot : ∀ x f, m.slot x ≠ some f := by
    intro x f hx
    obtain ⟨s, pte, hs, hpte, -⟩ := slot_eq_some.mp hx
    rw [(h.maps _ s hs).2] at hpte
    cases hpte
  refine ⟨⟨fun f => ?_, fun f => ?_, fun x f hx => absurd hx (hslot x f), fun f hf hne => ?_⟩,
    fun p s hs => (h.maps p s hs).1⟩
  · have hempty : holders m.slot f = ∅ := Set.eq_empty_iff_forall_notMem.mpr fun x => hslot x f
    simp [hempty]
  · exact ⟨fun hf => ⟨hf, h.count_eq f hf⟩, And.left⟩
  · exact absurd (h.count_eq f hf) hne

theorem Kept.accounted (h : Kept m₀ m) (hzero : m₀.free 0 = false)
    (hbase : ∀ f, m₀.free f = true → m₀.count f = 0) : Accounted m₀ m where
  count_eq f hf := h.books.balanced.count_eq (hbase f hf)
  free_iff f hf := by
    rw [h.books.free_iff, ← h.books.balanced.count_eq_zero (hbase f hf)]
    exact and_iff_right hf
  others f hf := by
    refine ⟨Bool.eq_false_of_not_eq_true fun hfree => ?_, fun x hx => ?_⟩
    · rw [((h.books.free_iff f).mp hfree).1] at hf
      cases hf
    · rw [h.books.owned x f hx] at hf
      cases hf
  progress e haligned hready := by
    rcases h.operate hzero hbase haligned with ⟨-, hnot⟩ | ⟨m', hok, -⟩
    · exact absurd hready hnot
    · rw [hok]
      rfl

/-- **The frames of anonymous memory**: in every run of operations of any number of processes, the
count of a frame is the number of entries that refer to it, a frame is free if and only if there is
none, and no assertion fails. -/
theorem frames_of_run {run : List (Operation × Machine)} (hm : Unmapped m)
    (hrun : Along (fun m e m' => m.operate e = some m') m run)
    (haligned : Along (fun _ e _ => e.Aligned) m run) : After (Accounted m) m run := by
  have hkept : After (Kept m) m run := by
    refine hrun.after (fun m₁ e m₂ h hstep haligned => ?_) hm.kept haligned
    rcases h.operate hm.zero hm.count_eq haligned with ⟨hfail, -⟩ | ⟨m', hok, h'⟩
    · rw [hfail] at hstep
      cases hstep
    · obtain rfl := some.inj (hok.symm.trans hstep)
      exact h'
  exact hkept.mono fun _ h => h.accounted hm.zero hm.count_eq

/-- A machine with one process that has no memory. -/
def emptyProcess : Machine := { oneProcess with
  space := fun p => if p = 1 then some { maps := [], pages := fun _ => none } else none }

theorem emptyProcess_unmapped : Unmapped emptyProcess := by
  refine ⟨fun p s hs => ?_, fun _ _ => rfl, by decide⟩
  unfold emptyProcess at hs
  dsimp only at hs
  obtain ⟨-, rfl⟩ := ite_some_none_eq_some.mp hs
  exact ⟨⟨⟨by simp, .nil⟩, by simp⟩, fun n => rfl⟩

/-- Two pages are mapped and written, the process forks and writes again, and the pages of both
processes are removed, by a mapping over them, and all at once. -/
theorem two_processes_accounted : ∃ run : List (Operation × Machine),
    run.map Prod.fst = [.mmap 1 0x10000 0x2000 heap.prot .priv 0,
      .fault 1 0x10000 ⟨false, true, false, true⟩ 5 6,
      .fault 1 0x11000 ⟨false, true, false, true⟩ 6 7, .fork 1 2,
      .fault 1 0x10000 ⟨false, true, true, false⟩ 7 8,
      .mmap 1 0x11000 0x1000 heap.prot .shared 0, .remove 2 0x10000 0x1000,
      .removeMappings 2 true] ∧
    Along (fun m e m' => m.operate e = some m') emptyProcess run ∧
    After (Accounted emptyProcess) emptyProcess run := by
  refine (exists_run Machine.operate (fun _ _ => True) (fun _ => True) emptyProcess _
    (by decide +kernel)).imp fun run ⟨hevents, hrun, _⟩ => ⟨hevents, ?_⟩
  have hsteps := hrun.mono fun _ _ _ h => h.2
  refine ⟨hsteps, frames_of_run emptyProcess_unmapped hsteps (.of_forall ?_)⟩
  rw [hevents]
  simp [Operation.Aligned, pageSize]

end Runs

end SeaKernel.Paging
