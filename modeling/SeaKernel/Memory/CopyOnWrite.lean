import SeaKernel.Lib.RefCount
import SeaKernel.Memory.Machine
import SeaKernel.Memory.MappingProtect

/-!
# Copy-on-write

A process that stores through a private mapping must not be seen by anyone else. The page fault
handler and `process_copy_mappings` keep this up by one rule: an entry of the page table that is
writable and belongs to a private mapping has a frame of its own, which no other entry refers to
and which holds no page of a file. `map_change_protect` makes an entry writable whatever its frame.

## Main results

* `Consistent.setEntry`: what keeps the rule when an entry of a page table changes
* `Consistent.handleFault`: the page fault handler keeps the rule and affects nobody else
-/

namespace SeaKernel.Paging

open Mapping Function List Option Machine

variable {m m' : Machine} {p q n f : ℕ} {s s' : AddressSpace} {pte : Pte}

/-- The frame an entry of a page table refers to, by process and page number. -/
def Machine.slot (m : Machine) (h : ℕ × ℕ) : Option ℕ :=
  ((m.space h.1).bind fun s => s.pages h.2).map Pte.phys

/-- The reference count of a frame. -/
def Machine.count (m : Machine) (f : ℕ) : ℕ := (m.frame f).count

/-- The frame is not the cached page of an inode, and no entry but `h` refers to it. -/
def Machine.Exclusive (m : Machine) (h : ℕ × ℕ) (f : ℕ) : Prop :=
  (∀ h', m.slot h' = some f → h' = h) ∧ ∀ k, m.inodePage k ≠ some f

/-- The page belongs to a private mapping. -/
def Private (maps : List Region) (n : ℕ) : Prop :=
  ∃ file, kind maps (n * pageSize) = some (file, .priv)

/-- The entry refers to the frame, is writable and belongs to a private mapping. -/
def Machine.PrivateWritable (m : Machine) (h : ℕ × ℕ) (f : ℕ) : Prop :=
  ∃ s pte, m.space h.1 = some s ∧ s.pages h.2 = some pte ∧ pte.phys = f ∧ pte.write = true ∧
    Private s.maps h.2

/-- The state of a machine on which copy-on-write works. -/
structure Consistent (m : Machine) : Prop where
  wf : ∀ p s, m.space p = some s → WellFormed s.maps
  counted : Counted m.slot m.count
  free : ∀ f, m.free f = true → m.count f = 0 ∧ ∀ k, m.inodePage k ≠ some f
  cached : ∀ k f, m.inodePage k = some f → (m.frame f).flags.persist = true
  exclusive : ∀ h f, m.PrivateWritable h f → m.Exclusive h f

/-- Nothing that a process other than `p` reads changes, and no cached page of a file. -/
structure Unaffected (p : ℕ) (m m' : Machine) : Prop where
  reads : ∀ q, q ≠ p → ∀ addr, m'.reads q addr = m.reads q addr
  cached : ∀ k f, m.inodePage k = some f → m'.inodePage k = some f ∧ m'.memory f = m.memory f

/-! ## What others see -/

variable {k : ℕ × ℤ}

section Views

theorem Unaffected.refl (p : ℕ) (m : Machine) : Unaffected p m m :=
  ⟨fun _ _ _ => rfl, fun _ _ h => ⟨h, rfl⟩⟩

theorem Unaffected.trans {m'' : Machine} (h : Unaffected p m m') (h' : Unaffected p m' m'') :
    Unaffected p m m'' where
  reads q hq addr := (h'.reads q hq addr).trans (h.reads q hq addr)
  cached k f hk := by
    obtain ⟨hk', hmem⟩ := h.cached k f hk
    obtain ⟨hk'', hmem'⟩ := h'.cached k f hk'
    exact ⟨hk'', hmem'.trans hmem⟩

theorem slot_eq_some {h : ℕ × ℕ} : m.slot h = some f ↔
    ∃ s pte, m.space h.1 = some s ∧ s.pages h.2 = some pte ∧ pte.phys = f := by
  simp only [slot, map_eq_some_iff, bind_eq_some_iff]
  constructor
  · rintro ⟨pte, ⟨s, hs, hpte⟩, hf⟩
    exact ⟨s, pte, hs, hpte, hf⟩
  · rintro ⟨s, pte, hs, hpte, hf⟩
    exact ⟨pte, ⟨s, hs, hpte⟩, hf⟩

/-- A process reads the same if its page table, the frames in it and the pages of inodes are the
same. -/
theorem reads_congr (hspace : m'.space q = m.space q)
    (hmem : ∀ n f, m.slot (q, n) = some f → m'.memory f = m.memory f)
    (hcontents : ∀ k, m'.inodeContents k = m.inodeContents k) (addr : ℕ) :
    m'.reads q addr = m.reads q addr := by
  unfold reads
  rw [hspace]
  cases hs : m.space q with
  | none => rfl
  | some s =>
    simp only [bind_eq_bind, bind_some]
    cases hp : s.pages (addr / pageSize) with
    | none => simp only [hcontents]
    | some pte =>
      have hframe := hmem (addr / pageSize) _ (slot_eq_some.mpr ⟨s, pte, hs, hp, rfl⟩)
      simp only [hframe]

theorem Unaffected.of_space (hspace : ∀ q, q ≠ p → m'.space q = m.space q)
    (hmem : m'.memory = m.memory) (hpage : m'.inodePage = m.inodePage) (hdisk : m'.disk = m.disk) :
    Unaffected p m m' where
  reads q hq addr := by
    refine reads_congr (hspace q hq) (fun n f _ => by rw [hmem]) (fun k => ?_) addr
    rw [inodeContents, inodeContents, hpage, hmem, hdisk]
  cached k f hk := ⟨by rw [hpage, hk], by rw [hmem]⟩

theorem inodeContents_of_not_cached {bytes : ℕ → UInt8} (hcached : ∀ k, m.inodePage k ≠ some f)
    (k : ℕ × ℤ) :
    Machine.inodeContents { m with memory := update m.memory f bytes } k = m.inodeContents k := by
  unfold inodeContents
  dsimp only
  cases hk : m.inodePage k with
  | none => rfl
  | some g =>
    have hne : g ≠ f := by
      rintro rfl
      exact hcached k hk
    simp only [update_of_ne hne]

theorem Unaffected.of_write (bytes : ℕ → UInt8) (hheld : ∀ q n, q ≠ p → m.slot (q, n) ≠ some f)
    (hcached : ∀ k, m.inodePage k ≠ some f) :
    Unaffected p m { m with memory := update m.memory f bytes } where
  reads q hq addr := by
    refine reads_congr ?_ (fun n g hg => ?_) ?_ addr
    · rfl
    · have hne : g ≠ f := by
        rintro rfl
        exact hheld q n hq hg
      exact update_of_ne hne _ _
    · exact inodeContents_of_not_cached hcached
  cached k g hk := by
    have hne : g ≠ f := by
      rintro rfl
      exact hcached k hk
    exact ⟨hk, update_of_ne hne _ _⟩

theorem Unaffected.of_cache (hk : m.inodePage k = none) (hmem : m.memory f = m.disk k) :
    Unaffected p m { m with inodePage := update m.inodePage k (some f) } where
  reads q hq addr := by
    refine reads_congr ?_ ?_ (fun k' => ?_) addr
    · rfl
    · exact fun _ _ _ => rfl
    · unfold inodeContents
      dsimp only
      by_cases hk' : k' = k
      · subst hk'
        simp only [update_self, hk, hmem]
      · simp only [update_of_ne hk']
  cached k' g hg := by
    have hne : k' ≠ k := by
      rintro rfl
      rw [hk] at hg
      cases hg
    exact ⟨by simp only [update_of_ne hne, hg], rfl⟩

end Views

/-! ## Frames -/

section Frames

variable {flags : FrameFlags}

theorem slot_congr (hspace : m'.space = m.space) : m'.slot = m.slot := by
  funext h
  rw [slot, slot, hspace]

theorem count_of_update {frame : Frame} (hframe : m'.frame = update m.frame f frame) :
    m'.count = update m.count f frame.count := by
  funext g
  rw [Machine.count, hframe]
  by_cases hg : g = f
  · subst hg
    simp
  · simp [Machine.count, update_of_ne hg]

theorem count_frameAcquire (m : Machine) (f : ℕ) :
    (m.frameAcquire f).count = update m.count f (m.count f + 1) := by
  have hframe : (m.frameAcquire f).frame =
      update m.frame f ⟨(m.frame f).flags, (m.frame f).count + 1⟩ := rfl
  exact count_of_update hframe

theorem Consistent.of_frames (h : Consistent m) (hspace : m'.space = m.space)
    (hpage : m'.inodePage = m.inodePage) (hcounted : Counted m.slot m'.count)
    (hfree : ∀ f, m'.free f = true → m'.count f = 0 ∧ ∀ k, m.inodePage k ≠ some f)
    (hcached : ∀ k f, m.inodePage k = some f → (m'.frame f).flags.persist = true) :
    Consistent m' where
  wf p s hs := h.wf p s (hspace ▸ hs)
  counted := by
    rw [slot_congr hspace]
    exact hcounted
  free := by
    rw [hpage]
    exact hfree
  cached := by
    rw [hpage]
    exact hcached
  exclusive x f hx := by
    rw [Machine.PrivateWritable, hspace] at hx
    rw [Machine.Exclusive, slot_congr hspace, hpage]
    exact h.exclusive x f hx

theorem Consistent.setMemory (h : Consistent m) (bytes : ℕ → ℕ → UInt8) :
    Consistent { m with memory := bytes } :=
  ⟨h.wf, h.counted, h.free, h.cached, h.exclusive⟩

/-- A frame that the physical allocator hands out. -/
structure Fresh (m m' : Machine) (f : ℕ) : Prop where
  consistent : Consistent m'
  space_eq : m'.space = m.space
  inodePage_eq : m'.inodePage = m.inodePage
  disk_eq : m'.disk = m.disk
  not_free : m'.free f = false
  not_held : ∀ x, m'.slot x ≠ some f
  not_cached : ∀ k, m'.inodePage k ≠ some f
  unaffected : ∀ p, Unaffected p m m'

theorem Consistent.frameAllocate (h : Consistent m) (hm : m.frameAllocate f flags = some m') :
    Fresh m m' f ∧ m'.frame f = ⟨flags, if flags.zerocount then 0 else 1⟩ ∧
      (flags.zerocount = false → Spare m'.slot m'.count f) := by
  unfold Machine.frameAllocate at hm
  obtain ⟨hfree, rfl⟩ := ite_some_none_eq_some.mp hm
  have hcached := (h.free f hfree.1).2
  have hheld : ∀ x, m.slot x ≠ some f := h.counted.not_held hfree.2
  obtain ⟨hcounted, hspare⟩ :=
    h.counted.update_of_not_held hheld (if flags.zerocount then 0 else 1)
  refine ⟨⟨h.of_frames rfl rfl ?_ ?_ ?_, rfl, rfl, rfl, update_self .., hheld, hcached,
    fun p => ?_⟩, update_self .., fun hz => ?_⟩
  · rw [count_of_update rfl]
    exact hcounted
  · intro g hg
    by_cases hgf : g = f
    · subst hgf
      simp at hg
    · simpa [Machine.count, update_of_ne hgf] using
        h.free g (by simpa [update_of_ne hgf] using hg)
  · intro k g hk
    have hne : g ≠ f := by
      rintro rfl
      exact hcached k hk
    simpa [update_of_ne hne] using h.cached k g hk
  · have hwrite := Unaffected.of_write (p := p) (fun _ => 0) (fun q n _ => hheld (q, n)) hcached
    exact hwrite.trans (.of_space (fun _ _ => rfl) rfl rfl rfl)
  · rw [count_of_update rfl]
    exact hspare (by simp [hz])

theorem Consistent.frameAcquire (h : Consistent m) (hf : m.free f = false) :
    Consistent (m.frameAcquire f) ∧ Spare (m.frameAcquire f).slot (m.frameAcquire f).count f := by
  have hcount := count_frameAcquire m f
  obtain ⟨hcounted, hspare⟩ := h.counted.acquire f
  rw [← hcount] at hcounted hspare
  refine ⟨h.of_frames rfl rfl hcounted ?_ ?_, hspare⟩
  · intro g hg
    have hne : g ≠ f := by
      rintro rfl
      exact absurd hg (by simp [frameAcquire, hf])
    rw [hcount, update_of_ne hne]
    exact h.free g hg
  · intro k g hk
    have hold := h.cached k g hk
    by_cases hg : g = f
    · subst hg
      simpa [frameAcquire] using hold
    · simpa [Machine.frameAcquire, update_of_ne hg] using hold

theorem Consistent.frameRelease (h : Consistent m) (hspare : Spare m.slot m.count f) :
    ∃ m', m.frameRelease f = some m' ∧ Consistent m' ∧ m'.space = m.space ∧
      ∀ p, Unaffected p m m' := by
  obtain ⟨hpos, hcounted⟩ := hspare.release h.counted
  refine ⟨_, if_pos hpos, ?_, rfl, fun p => .of_space (fun _ _ => rfl) rfl rfl rfl⟩
  have hcached : ∀ k, m.inodePage k = some f → (m.frame f).flags.persist = true :=
    fun k hk => h.cached k f hk
  refine h.of_frames rfl rfl ?_ (fun g hg => ?_) (fun k g hk => ?_)
  · rw [count_of_update rfl]
    exact hcounted
  · rw [count_of_update rfl]
    by_cases hgf : g = f
    · subst hgf
      rw [update_self]
      dsimp only at hg ⊢
      split at hg
      · next hlast =>
        refine ⟨hlast.1, fun k hk => ?_⟩
        rw [hcached k hk] at hlast
        cases hlast.2
      · have := (h.free g hg).1
        omega
    · rw [update_of_ne hgf]
      refine h.free g ?_
      dsimp only at hg
      split at hg
      · rwa [update_of_ne hgf] at hg
      · exact hg
  · have hold := h.cached k g hk
    by_cases hg : g = f
    · subst hg
      simpa using hold
    · simpa [update_of_ne hg] using hold

end Frames

/-! ## Page tables -/

section PageTables

theorem space_setSpace (m : Machine) (p : ℕ) (s : AddressSpace) :
    (m.setSpace p s).space p = some s :=
  update_self ..

theorem space_setSpace_ne (m : Machine) (s : AddressSpace) (hq : q ≠ p) :
    (m.setSpace p s).space q = m.space q :=
  update_of_ne hq ..

/-- The page table with another entry. -/
def setPte (s : AddressSpace) (n : ℕ) (pte : Pte) : AddressSpace :=
  { s with pages := update s.pages n (some pte) }

theorem setPte_pages (s : AddressSpace) (n : ℕ) (pte : Pte) : (setPte s n pte).pages n = some pte :=
  update_self ..

theorem setPte_pages_ne {k : ℕ} (s : AddressSpace) (pte : Pte) (hk : k ≠ n) :
    (setPte s n pte).pages k = s.pages k :=
  update_of_ne hk ..

theorem slot_setPte (hs : m.space p = some s) :
    (m.setSpace p (setPte s n pte)).slot = update m.slot (p, n) (some pte.phys) := by
  funext ⟨q, k⟩
  by_cases hq : q = p
  · subst hq
    by_cases hk : k = n
    · subst hk
      rw [slot, space_setSpace, update_self, bind_some, setPte_pages]
      rfl
    · rw [update_of_ne (by simp [hk]), slot, slot, space_setSpace, hs]
      simp only [bind_some, setPte_pages_ne s pte hk]
  · rw [update_of_ne (by simp [hq]), slot, slot, space_setSpace_ne m _ hq]

theorem virtualMap_of_none {v : ℕ} (hnone : s.pages (v / pageSize) = none) (pte : Pte) :
    s.virtualMap v pte = setPte s (v / pageSize) pte := by
  rw [AddressSpace.virtualMap, hnone, setPte]

theorem virtualMap_virtualUnmap (s : AddressSpace) (v : ℕ) (pte : Pte) :
    (s.virtualUnmap v).virtualMap v pte = setPte s (v / pageSize) pte := by
  have hnone : (s.virtualUnmap v).pages (v / pageSize) = none := update_self ..
  rw [virtualMap_of_none hnone, setPte, AddressSpace.virtualUnmap, update_idem, setPte]

theorem virtualChattr_of_some {v : ℕ} (hpte : s.pages (v / pageSize) = some pte)
    (write exec : Bool) :
    s.virtualChattr v write exec = setPte s (v / pageSize) ⟨pte.phys, write, exec⟩ := by
  rw [AddressSpace.virtualChattr, hpte, setPte]
  rfl

theorem Unaffected.setSpace (m : Machine) (p : ℕ) (s : AddressSpace) :
    Unaffected p m (m.setSpace p s) :=
  .of_space (fun _ hq => space_setSpace_ne m s hq) rfl rfl rfl

/-- **One entry of a page table changes**, to a frame that no writable entry of a private mapping
refers to. -/
theorem Consistent.setEntry (h : Consistent m) (hs : m.space p = some s)
    (hcounted : Counted (update m.slot (p, n) (some pte.phys)) m.count)
    (hfree : ∀ x, x ≠ (p, n) → ¬ m.PrivateWritable x pte.phys)
    (hnew : pte.write = true → Private s.maps n → m.Exclusive (p, n) pte.phys) :
    Consistent (m.setSpace p (setPte s n pte)) := by
  have hspace := space_setSpace m p (setPte s n pte)
  -- Any other entry is what it was before.
  have hold : ∀ x f, x ≠ (p, n) → (m.setSpace p (setPte s n pte)).PrivateWritable x f →
      m.PrivateWritable x f := by
    rintro ⟨q, k⟩ f hne ⟨t, pte', ht, hk, hf, hw, hp⟩
    by_cases hq : q = p
    · subst hq
      obtain rfl := some.inj (hspace.symm.trans ht)
      have hk' : k ≠ n := fun hk' => hne (by rw [hk'])
      exact ⟨s, pte', hs, setPte_pages_ne s pte hk' ▸ hk, hf, hw, hp⟩
    · exact ⟨t, pte', (space_setSpace_ne m _ hq).symm.trans ht, hk, hf, hw, hp⟩
  refine ⟨fun q t ht => ?_, ?_, h.free, h.cached, fun x f hx => ?_⟩
  · by_cases hq : q = p
    · subst hq
      obtain rfl := some.inj (hspace.symm.trans ht)
      exact h.wf q s hs
    · exact h.wf q t ((space_setSpace_ne m _ hq).symm.trans ht)
  · rw [slot_setPte hs]
    exact hcounted
  · rw [Machine.Exclusive, slot_setPte hs]
    by_cases hne : x = (p, n)
    · subst hne
      obtain ⟨t, pte', ht, hk, hf, hw, hp⟩ := hx
      obtain rfl := some.inj (hspace.symm.trans ht)
      obtain rfl := some.inj ((setPte_pages s n pte).symm.trans hk)
      obtain ⟨halone, hcached⟩ := hnew hw hp
      refine ⟨fun y hy => ?_, hf ▸ hcached⟩
      by_contra hyn
      rw [update_of_ne hyn, ← hf] at hy
      exact hyn (halone y hy)
    · have hx' := hold x f hne hx
      obtain ⟨halone, hcached⟩ := h.exclusive x f hx'
      refine ⟨fun y hy => ?_, hcached⟩
      by_cases hyn : y = (p, n)
      · subst hyn
        rw [update_self] at hy
        exact absurd (some.inj hy ▸ hx') (hfree x hne)
      · rw [update_of_ne hyn] at hy
        exact halone y hy

theorem not_privateWritable (hheld : ∀ x, m.slot x ≠ some f) (x : ℕ × ℕ) :
    ¬ m.PrivateWritable x f := by
  rintro ⟨s, pte, hs, hk, hf, -⟩
  exact hheld x (slot_eq_some.mpr ⟨s, pte, hs, hk, hf⟩)

theorem kind_page (h : WellFormed s.maps) (addr : ℕ) :
    kind s.maps (addr / pageSize * pageSize) = kind s.maps addr := by
  have hpage : ∀ r ∈ s.maps, r.Covers addr ↔ r.Covers (addr / pageSize * pageSize) :=
    fun r hr => Region.covers_page (h.aligned r hr) (Nat.dvd_mul_left _ _)
      (Nat.div_mul_le_self _ _) (by simp only [pageSize]; omega)
  rw [kind, kind]
  congr 1
  refine ext fun r => ?_
  rw [h.regionAt_eq_some, h.regionAt_eq_some]
  exact and_congr_right fun hr => (hpage r hr).symm

theorem pageFloor_div (addr : ℕ) : pageFloor addr / pageSize = addr / pageSize := by
  simp only [pageFloor, pageSize]
  omega

theorem kind_of_findRegion (h : WellFormed s.maps) {addr : ℕ} {pos : Position}
    (hpos : findRegion s.maps addr = some pos) :
    kind s.maps (pageFloor addr / pageSize * pageSize) = some (pos.reg.file, pos.reg.flags) := by
  rw [pageFloor_div, kind_page h, kind, regionAt, hpos]
  rfl

end PageTables

/-! ## Page faults -/

section Faults

variable {reg : Region} {v pick pick' : ℕ}

theorem Consistent.cache (h : Consistent m) {bytes : ℕ → ℕ → UInt8}
    (hpersist : (m.frame f).flags.persist = true) (hfree : m.free f = false)
    (hheld : ∀ x, m.slot x ≠ some f) :
    Consistent { m with memory := bytes, inodePage := update m.inodePage k (some f) } := by
  have hpage : ∀ k' g, update m.inodePage k (some f) k' = some g →
      g = f ∨ m.inodePage k' = some g := by
    intro k' g hg
    by_cases hk : k' = k
    · subst hk
      rw [update_self] at hg
      exact .inl (some.inj hg).symm
    · rw [update_of_ne hk] at hg
      exact .inr hg
  refine ⟨h.wf, h.counted, fun g hg => ⟨(h.free g hg).1, fun k' hk' => ?_⟩, fun k' g hg => ?_,
    fun x g hx => ⟨(h.exclusive x g hx).1, fun k' hk' => ?_⟩⟩
  · rcases hpage k' g hk' with rfl | hk'
    · rw [hfree] at hg
      cases hg
    · exact (h.free g hg).2 k' hk'
  · rcases hpage k' g hg with rfl | hg
    · exact hpersist
    · exact h.cached k' g hg
  · rcases hpage k' g hk' with rfl | hk'
    · exact not_privateWritable hheld x hx
    · exact (h.exclusive x g hx).2 k' hk'

/-- What a `map` callback returns: a counted frame that no writable entry of a private mapping
refers to. If it may be written, it is a fresh one. -/
structure Mappable (m m' : Machine) (f : ℕ) : Prop where
  consistent : Consistent m'
  space_eq : m'.space = m.space
  spare : Spare m'.slot m'.count f
  not_writable : ∀ x, ¬ m'.PrivateWritable x f
  fresh : (m'.frame f).flags.persist = false →
    (∀ x, m'.slot x ≠ some f) ∧ ∀ k, m'.inodePage k ≠ some f
  unaffected : ∀ p, Unaffected p m m'

theorem Consistent.inodeGetPage (h : Consistent m) (hm : m.inodeGetPage k pick = some (m', f)) :
    Consistent m' ∧ m'.space = m.space ∧ m'.inodePage k = some f ∧ ∀ p, Unaffected p m m' := by
  unfold Machine.inodeGetPage at hm
  cases hk : m.inodePage k with
  | some g =>
    rw [hk] at hm
    obtain ⟨rfl, rfl⟩ := Prod.mk.inj (some.inj hm)
    exact ⟨h, rfl, hk, fun p => .refl p m⟩
  | none =>
    rw [hk] at hm
    obtain ⟨m₁, halloc, hm⟩ := bind_eq_some_iff.mp hm
    obtain ⟨rfl, rfl⟩ := Prod.mk.inj (some.inj hm)
    obtain ⟨hfresh, hframe, -⟩ := h.frameAllocate halloc
    have hk₁ : m₁.inodePage k = none := by rw [hfresh.inodePage_eq, hk]
    refine ⟨hfresh.consistent.cache (by rw [hframe]) hfresh.not_free hfresh.not_held,
      hfresh.space_eq, update_self .., fun p => ?_⟩
    have hwrite := Unaffected.of_write (p := p) (m₁.disk k)
      (fun q n _ => hfresh.not_held (q, n)) hfresh.not_cached
    refine (hfresh.unaffected p).trans (hwrite.trans (.of_cache hk₁ ?_))
    exact update_self ..

/-- **The `map` callbacks.** -/
theorem Consistent.getPhysToMap (h : Consistent m)
    (hm : m.getPhysToMap reg v pick = some (m', f)) : Mappable m m' f := by
  unfold Machine.getPhysToMap at hm
  cases hi : reg.file.inode with
  | some inode =>
    rw [hi] at hm
    obtain ⟨⟨m₁, g⟩, hget, hm⟩ := bind_eq_some_iff.mp hm
    obtain ⟨rfl, rfl⟩ := Prod.mk.inj (some.inj hm)
    obtain ⟨h₁, hspace, hpage, hunaff⟩ := h.inodeGetPage hget
    have hfree : m₁.free g = false := by
      refine Bool.eq_false_of_not_eq_true fun hg => ?_
      exact (h₁.free g hg).2 _ hpage
    obtain ⟨h₂, hspare⟩ := h₁.frameAcquire hfree
    have hpersist : ((m₁.frameAcquire g).frame g).flags.persist = true := h₂.cached _ g hpage
    refine ⟨h₂, hspace, hspare, fun x hx => (h₂.exclusive x g hx).2 _ hpage, fun hp => ?_,
      fun p => (hunaff p).trans (.of_space (fun _ _ => rfl) rfl rfl rfl)⟩
    rw [hpersist] at hp
    cases hp
  | none =>
    rw [hi] at hm
    obtain ⟨m₁, halloc, hm⟩ := bind_eq_some_iff.mp hm
    obtain ⟨rfl, rfl⟩ := Prod.mk.inj (some.inj hm)
    obtain ⟨hfresh, -, hspare⟩ := h.frameAllocate halloc
    exact ⟨hfresh.consistent, hfresh.space_eq, hspare rfl, not_privateWritable hfresh.not_held,
      fun _ => ⟨hfresh.not_held, hfresh.not_cached⟩, hfresh.unaffected⟩

/-- What a part of the fault handler does for the process `p` with the regions `maps`. -/
structure Handled (p : ℕ) (maps : List Region) (m m' : Machine) : Prop where
  consistent : Consistent m'
  maps_eq : ∃ s, m'.space p = some s ∧ s.maps = maps
  unaffected : Unaffected p m m'

variable {success : Bool}

variable (h : Consistent m)

include h

section

variable (hs : m.space p = some s)

include hs

theorem Consistent.faultPresent
    (hreg : kind s.maps (v / pageSize * pageSize) = some (reg.file, reg.flags))
    (hm : m.faultPresent p s reg v pick = some (m', success)) : Handled p s.maps m m' := by
  unfold Machine.faultPresent at hm
  split at hm
  · obtain ⟨rfl, -⟩ := Prod.mk.inj (some.inj hm)
    exact ⟨h, ⟨s, hs, rfl⟩, .refl p m⟩
  · next habsent =>
    have hnone : s.pages (v / pageSize) = none := by simpa using habsent
    obtain ⟨⟨m₁, f⟩, hget, hm⟩ := bind_eq_some_iff.mp hm
    have hmap := h.getPhysToMap hget
    have hs₁ : m₁.space p = some s := by rw [hmap.space_eq, hs]
    dsimp only at hm
    split at hm
    · obtain ⟨rfl, -⟩ := Prod.mk.inj (some.inj hm)
      exact ⟨hmap.consistent, ⟨s, hs₁, rfl⟩, hmap.unaffected p⟩
    · obtain ⟨rfl, -⟩ := Prod.mk.inj (some.inj hm)
      rw [virtualMap_of_none hnone]
      have hslot : m₁.slot (p, v / pageSize) = none := by
        simp [slot, hs₁, hnone]
      refine ⟨hmap.consistent.setEntry hs₁ (hmap.spare.store hmap.consistent.counted hslot)
        (fun x _ => hmap.not_writable x) ?_, ⟨_, space_setSpace .., rfl⟩,
        (hmap.unaffected p).trans (.setSpace ..)⟩
      rintro hw ⟨file, hkind⟩
      rw [hreg] at hkind
      have hpriv : reg.flags = .priv := congrArg Prod.snd (some.inj hkind)
      have hpersist : (m₁.frame f).flags.persist = false := by
        simp only [hpriv, true_and, Bool.and_eq_true, Bool.not_eq_true', decide_eq_false_iff_not,
          not_or, Bool.not_eq_true] at hw
        exact hw.2.1.1
      obtain ⟨hheld, hcached⟩ := hmap.fresh hpersist
      exact ⟨fun y hy => absurd hy (hheld y), hcached⟩

theorem Consistent.moveEntry (hpte : s.pages n = some pte) (new : Pte)
    (hspare : Spare m.slot m.count new.phys) (hheld : ∀ x, m.slot x ≠ some new.phys)
    (hcached : ∀ k, m.inodePage k ≠ some new.phys) :
    ∃ m', (m.setSpace p (setPte s n new)).frameRelease pte.phys = some m' ∧
      Handled p s.maps m m' := by
  have hslot : m.slot (p, n) = some pte.phys := slot_eq_some.mpr ⟨s, pte, hs, hpte, rfl⟩
  have hne : pte.phys ≠ new.phys := fun heq => hheld _ (heq ▸ hslot)
  -- The entry is cleared, which makes the old frame spare, and then stored.
  obtain ⟨hclear, hold⟩ := h.counted.clear hslot
  have hempty : update m.slot (p, n) none (p, n) = none := update_self ..
  have hcounted := hspare.clear.store hclear hempty
  have hrelease := hold.store_ne hne hempty
  rw [update_idem] at hcounted hrelease
  have h₁ : Consistent (m.setSpace p (setPte s n new)) :=
    h.setEntry hs hcounted (fun x _ => not_privateWritable hheld x)
      fun _ _ => ⟨fun y hy => absurd hy (hheld y), hcached⟩
  rw [← slot_setPte hs] at hrelease
  obtain ⟨m', hrel, h', hspace, hunaff⟩ := h₁.frameRelease hrelease
  refine ⟨m', hrel, h', ⟨setPte s n new, ?_, rfl⟩, (Unaffected.setSpace m p _).trans (hunaff p)⟩
  rw [hspace, space_setSpace]

/-- **The copy of copy-on-write.** -/
theorem Consistent.faultPrivate (hpte : s.pages (v / pageSize) = some pte)
    (hm : m.faultPrivate p s reg v pte pick = some m') : Handled p s.maps m m' := by
  obtain ⟨m₁, halloc, hm⟩ := bind_eq_some_iff.mp hm
  dsimp only at hm
  rw [virtualMap_virtualUnmap] at hm
  obtain ⟨hfresh, -, hspare⟩ := h.frameAllocate halloc
  have hs₁ : m₁.space p = some s := by rw [hfresh.space_eq, hs]
  have hwrite := Unaffected.of_write (p := p) (m₁.memory pte.phys)
    (fun q n _ => hfresh.not_held (q, n)) hfresh.not_cached
  have h₂ := hfresh.consistent.setMemory (update m₁.memory pick (m₁.memory pte.phys))
  obtain ⟨m₃, hok, hdone⟩ := h₂.moveEntry hs₁ hpte ⟨pick, reg.prot.write, reg.prot.exec⟩
    (hspare rfl) hfresh.not_held hfresh.not_cached
  obtain rfl := some.inj (hok.symm.trans hm)
  exact ⟨hdone.consistent, hdone.maps_eq,
    (hfresh.unaffected p).trans (hwrite.trans hdone.unaffected)⟩

theorem Consistent.faultShared
    (hreg : kind s.maps (v / pageSize * pageSize) = some (reg.file, .shared))
    (hpte : s.pages (v / pageSize) = some pte) :
    Handled p s.maps m (m.faultShared p s reg v pte) := by
  let m₁ : Machine := { m with
    frame := update m.frame pte.phys
      ⟨{ (m.frame pte.phys).flags with dirty := true }, (m.frame pte.phys).count⟩ }
  have hcount : m₁.count = m.count := by
    have hframe : m₁.frame = update m.frame pte.phys _ := rfl
    rw [count_of_update hframe]
    exact update_eq_self ..
  have h₁ : Consistent m₁ := by
    refine h.of_frames rfl rfl (hcount ▸ h.counted) (hcount ▸ h.free) fun k f hk => ?_
    have hold := h.cached k f hk
    by_cases hf : f = pte.phys
    · subst hf
      simpa [m₁] using hold
    · simpa [m₁, update_of_ne hf] using hold
  have hslot : m₁.slot (p, v / pageSize) = some pte.phys :=
    slot_eq_some.mpr ⟨s, pte, hs, hpte, rfl⟩
  have hchattr : m.faultShared p s reg v pte =
      m₁.setSpace p (setPte s (v / pageSize) ⟨pte.phys, reg.prot.write, reg.prot.exec⟩) := by
    rw [← virtualChattr_of_some hpte]
    rfl
  rw [hchattr]
  refine ⟨h₁.setEntry hs ?_ (fun x hx hw => ?_) ?_, ⟨_, space_setSpace .., rfl⟩, ?_⟩
  · dsimp only
    rw [← hslot, update_eq_self]
    exact h₁.counted
  · exact hx ((h₁.exclusive x _ hw).1 _ hslot).symm
  · rintro - ⟨file, hkind⟩
    rw [hreg] at hkind
    cases hkind
  · exact .of_space (fun q hq => space_setSpace_ne m₁ _ hq) rfl rfl rfl

theorem Consistent.faultPermission
    (hreg : kind s.maps (v / pageSize * pageSize) = some (reg.file, reg.flags)) {flags : Fault}
    (hm : m.faultPermission p reg v flags pick = some (m', success)) : Handled p s.maps m m' := by
  unfold Machine.faultPermission at hm
  split at hm
  · obtain ⟨rfl, -⟩ := Prod.mk.inj (some.inj hm)
    exact ⟨h, ⟨s, hs, rfl⟩, .refl p m⟩
  split at hm
  · rw [hs] at hm
    simp only [bind_eq_bind, bind_some] at hm
    obtain ⟨pte, hpte, hm⟩ := bind_eq_some_iff.mp hm
    cases hflags : reg.flags with
    | priv =>
      rw [hflags] at hm
      obtain ⟨m₁, hcopy, hm⟩ := bind_eq_some_iff.mp hm
      obtain ⟨rfl, -⟩ := Prod.mk.inj (some.inj hm)
      exact h.faultPrivate hs hpte hcopy
    | shared =>
      rw [hflags] at hm hreg
      obtain ⟨rfl, -⟩ := Prod.mk.inj (some.inj hm)
      exact h.faultShared hs hreg hpte
  · obtain ⟨rfl, -⟩ := Prod.mk.inj (some.inj hm)
    exact ⟨h, ⟨s, hs, rfl⟩, .refl p m⟩

end

/-- **The page fault handler** keeps the machine consistent and affects nobody else. -/
theorem Consistent.handleFault {addr : ℕ} {flags : Fault}
    (hm : m.handleFault p addr flags pick pick' = some (m', success)) :
    Consistent m' ∧ Unaffected p m m' := by
  obtain ⟨s, hs, hm⟩ := bind_eq_some_iff.mp hm
  cases hf : findRegion s.maps addr with
  | none =>
    rw [hf] at hm
    obtain ⟨rfl, -⟩ := Prod.mk.inj (some.inj hm)
    exact ⟨h, .refl p m⟩
  | some pos =>
    rw [hf] at hm
    dsimp only at hm
    split at hm
    · obtain ⟨rfl, -⟩ := Prod.mk.inj (some.inj hm)
      exact ⟨h, .refl p m⟩
    have hwf := h.wf p s hs
    have hreg := kind_of_findRegion hwf hf
    obtain ⟨⟨m₁, success₁⟩, hpres, hm⟩ := bind_eq_some_iff.mp hm
    have h₁ : Handled p s.maps m m₁ := by
      split at hpres
      · exact h.faultPresent hs hreg hpres
      · obtain ⟨rfl, -⟩ := Prod.mk.inj (some.inj hpres)
        exact ⟨h, ⟨s, hs, rfl⟩, .refl p m⟩
    dsimp only at hm
    split at hm
    · obtain ⟨s₁, hs₁, hmaps⟩ := h₁.maps_eq
      have h₂ := h₁.consistent.faultPermission hs₁ (hmaps ▸ hreg) hm
      exact ⟨h₂.consistent, h₁.unaffected.trans h₂.unaffected⟩
    · obtain ⟨rfl, -⟩ := Prod.mk.inj (some.inj hm)
      exact ⟨h₁.consistent, h₁.unaffected⟩

end Faults

end SeaKernel.Paging
