import SeaKernel.Memory.Fork
import SeaKernel.Memory.Unmap

/-!
# The frames of anonymous memory

The count of a frame of anonymous memory is the number of entries of page tables that refer to it,
over all processes, and the frame is with the physical allocator if there are none.

The count is changed in four places, and in each of them an entry changes before or after it: a
page fault allocates a frame and maps it, copy-on-write moves an entry to a new frame and releases
the old one, fork acquires a frame for each entry that it copies, and unmapping releases the frame
of the entry. `Books` has the references that are counted and not in an entry at the moment in its
argument `pending`; between two operations there are none. The regions only decide which pages are
unmapped.

## Main results

* `Books.removePages`: the machine unmaps as the address space does, and releases the frames
* `Books.handleFault`: the page fault handler keeps the books
* `Books.fork`: so does a fork
-/

namespace SeaKernel.Paging

open Mapping Function List Option Machine

variable {m₀ m m' : Machine} {pending : Multiset ℕ} {p q n f v : ℕ} {s s' : AddressSpace}
  {pte : Pte}

/-- The books of the frames. The frames that were free in `m₀` are those of anonymous memory. -/
structure Books (m₀ : Machine) (pending : Multiset ℕ) (m : Machine) : Prop where
  balanced : Balanced m₀.count pending m.slot m.count
  free_iff : ∀ f, m.free f = true ↔ m₀.free f = true ∧ m.count f = 0
  owned : ∀ x f, m.slot x = some f → m₀.free f = true
  persist : ∀ f, m₀.free f = true → m.count f ≠ 0 → (m.frame f).flags.persist = false

/-! ## Frames -/

section Frames

theorem Books.of_frame (h : Books m₀ pending m) (hframe : m'.frame = m.frame)
    (hfree : m'.free = m.free) {pending' : Multiset ℕ}
    (hbalanced : Balanced m₀.count pending' m'.slot m.count)
    (howned : ∀ x f, m'.slot x = some f → m₀.free f = true) : Books m₀ pending' m' := by
  have hcount : m'.count = m.count := by
    funext f
    rw [Machine.count, hframe, Machine.count]
  refine ⟨hcount ▸ hbalanced, ?_, howned, ?_⟩
  · rw [hfree, hcount]
    exact h.free_iff
  · rw [hframe, hcount]
    exact h.persist

theorem Books.of_update (h : Books m₀ pending m) {frame : Frame} {pending' : Multiset ℕ}
    (hspace : m'.space = m.space) (hframe : m'.frame = update m.frame f frame)
    (hbalanced : Balanced m₀.count pending' m.slot (update m.count f frame.count))
    (hfree : ∀ g, g ≠ f → m'.free g = m.free g)
    (hself : m'.free f = true ↔ m₀.free f = true ∧ frame.count = 0)
    (hpersist : m₀.free f = true → frame.count ≠ 0 → frame.flags.persist = false) :
    Books m₀ pending' m' := by
  have hcount := count_of_update hframe
  have hslot := slot_congr hspace
  refine ⟨?_, fun g => ?_, hslot ▸ h.owned, fun g hg hne => ?_⟩
  · rw [hslot, hcount]
    exact hbalanced
  · rw [hcount]
    by_cases hgf : g = f
    · subst hgf
      rw [update_self]
      exact hself
    · rw [update_of_ne hgf, hfree g hgf]
      exact h.free_iff g
  · rw [hcount] at hne
    rw [hframe]
    by_cases hgf : g = f
    · subst hgf
      rw [update_self] at hne ⊢
      exact hpersist hg hne
    · rw [update_of_ne hgf] at hne ⊢
      exact h.persist g hg hne

theorem Books.frameAllocate (h : Books m₀ pending m) (hf : m.free f = true) :
    ∃ m', m.frameAllocate f {} = some m' ∧ Books m₀ (f ::ₘ pending) m' ∧ m'.space = m.space ∧
      m'.free = update m.free f false := by
  obtain ⟨-, hcount⟩ := (h.free_iff f).mp hf
  have hacquire := h.balanced.acquire f
  rw [hcount] at hacquire
  refine ⟨_, if_pos ⟨hf, hcount⟩, ?_, rfl, rfl⟩
  apply h.of_update
  · rfl
  · rfl
  · exact hacquire
  · exact fun g hg => update_of_ne hg ..
  · simp
  · simp

theorem frameAllocate_of_not_free {flags : FrameFlags} (hf : m.free f ≠ true) :
    m.frameAllocate f flags = none := by
  rw [frameAllocate, if_neg]
  exact fun h => hf h.1

theorem Books.frameRelease (h : Books m₀ (f ::ₘ pending) m) (hpool : m₀.free f = true) :
    ∃ m', m.frameRelease f = some m' ∧ Books m₀ pending m' ∧ m'.space = m.space := by
  obtain ⟨hpos, hbalanced⟩ := h.balanced.release
  have hpersist := h.persist f hpool (Nat.pos_iff_ne_zero.mp hpos)
  have hnot : m.free f = false := by
    refine Bool.eq_false_of_not_eq_true fun hfree => ?_
    exact absurd ((h.free_iff f).mp hfree).2 (Nat.pos_iff_ne_zero.mp hpos)
  refine ⟨_, if_pos hpos, ?_, rfl⟩
  apply h.of_update
  · rfl
  · rfl
  · exact hbalanced
  · intro g hg
    dsimp only
    split
    · exact update_of_ne hg ..
    · rfl
  · dsimp only
    split
    · next hlast => simp [hlast.1, hpool]
    · next hmore =>
      rw [hnot]
      simp only [hpersist, and_true] at hmore
      simp [hmore]
  · exact fun _ _ => hpersist

end Frames

/-! ## Entries -/

section Entries

theorem Books.mapEntry (h : Books m₀ (pte.phys ::ₘ pending) m) (hpool : m₀.free pte.phys = true)
    (hs : m.space p = some s) (hnone : s.pages n = none) :
    Books m₀ pending (m.setSpace p (setPte s n pte)) := by
  have hslot : m.slot (p, n) = none := by simp [slot, hs, hnone]
  refine h.of_frame ?_ ?_ ?_ fun x f hx => ?_
  · rfl
  · rfl
  · rw [slot_setPte hs]
    exact h.balanced.store hslot
  · rw [slot_setPte hs] at hx
    by_cases hxp : x = (p, n)
    · subst hxp
      rw [update_self] at hx
      exact some.inj hx ▸ hpool
    · rw [update_of_ne hxp] at hx
      exact h.owned x f hx

theorem Books.moveEntry {new : Pte} (h : Books m₀ (new.phys ::ₘ pending) m)
    (hpool : m₀.free new.phys = true) (hs : m.space p = some s) (hpte : s.pages n = some pte) :
    Books m₀ (pte.phys ::ₘ pending) (m.setSpace p (setPte s n new)) := by
  have hslot : m.slot (p, n) = some pte.phys := slot_eq_some.mpr ⟨s, pte, hs, hpte, rfl⟩
  refine h.of_frame ?_ ?_ ?_ fun x f hx => ?_
  · rfl
  · rfl
  · rw [slot_setPte hs]
    exact h.balanced.replace hslot
  · rw [slot_setPte hs] at hx
    by_cases hxp : x = (p, n)
    · subst hxp
      rw [update_self] at hx
      exact some.inj hx ▸ hpool
    · rw [update_of_ne hxp] at hx
      exact h.owned x f hx

theorem slot_virtualUnmap (hs : m.space p = some s) (v : ℕ) :
    (m.setSpace p (s.virtualUnmap v)).slot = update m.slot (p, v / pageSize) none := by
  funext ⟨q, k⟩
  by_cases hq : q = p
  · subst hq
    rw [slot, space_setSpace]
    by_cases hk : k = v / pageSize
    · subst hk
      simp [AddressSpace.virtualUnmap]
    · rw [update_of_ne (by simp [hk])]
      simp [AddressSpace.virtualUnmap, slot, hs, update_of_ne hk]
  · rw [update_of_ne (by simp [hq]), slot, slot,
      space_setSpace_ne m _ hq]

theorem Books.setMaps (h : Books m₀ pending m) (hs : m.space p = some s) (maps : List Region) :
    Books m₀ pending (m.setSpace p { s with maps := maps }) := by
  have hsame : (m.setSpace p { s with maps := maps }).slot = m.slot := by
    funext ⟨q, k⟩
    by_cases hq : q = p
    · subst hq
      rw [slot, slot, space_setSpace, hs]
      rfl
    · rw [slot, slot, space_setSpace_ne m _ hq]
  apply h.of_frame
  · rfl
  · rfl
  · rw [hsame]
    exact h.balanced
  · rw [hsame]
    exact h.owned

end Entries

/-! ## Unmapping -/

section Unmapping

variable {pos : Position}

/-- The machine after an operation of the process `p` that leaves it with the space `s'`. -/
structure Became (m₀ : Machine) (p : ℕ) (s' : AddressSpace) (m m' : Machine) : Prop where
  books : Books m₀ 0 m'
  space_eq : m'.space = update m.space p (some s')

theorem Became.self (h : Became m₀ p s' m m') : m'.space p = some s' := by
  rw [h.space_eq, update_self]

theorem Became.trans {m'' : Machine} {s'' : AddressSpace} (h : Became m₀ p s' m m')
    (h' : Became m₀ p s'' m' m'') : Became m₀ p s'' m m'' := by
  refine ⟨h'.books, ?_⟩
  rw [h'.space_eq, h.space_eq, update_idem]

theorem Became.refl (h : Books m₀ 0 m) (hs : m.space p = some s) : Became m₀ p s m m :=
  ⟨h, by rw [← hs, update_eq_self]⟩

theorem Books.unmapPageIfMapped (h : Books m₀ 0 m) (hzero : m₀.free 0 = false)
    (hs : m.space p = some s) (v : ℕ) :
    ∃ m', m.unmapPageIfMapped p v = some m' ∧ Became m₀ p (s.virtualUnmap v) m m' := by
  unfold Machine.unmapPageIfMapped
  simp only [hs, bind_eq_bind, bind_some]
  have hslot := slot_virtualUnmap hs v
  cases hpte : s.pages (v / pageSize) with
  | none =>
    have hself : s.virtualUnmap v = s := by
      rw [AddressSpace.virtualUnmap, ← hpte, update_eq_self]
    rw [hself]
    exact ⟨m, by rw [setSpace_self hs]; rfl, .refl h hs⟩
  | some pte =>
    have hx : m.slot (p, v / pageSize) = some pte.phys := slot_eq_some.mpr ⟨s, pte, hs, hpte, rfl⟩
    have hpool := h.owned _ _ hx
    have hphys : pte.phys ≠ 0 := by
      intro hphys
      rw [hphys, hzero] at hpool
      cases hpool
    -- The entry is cleared first, so that its reference is pending.
    have hcleared : Books m₀ (pte.phys ::ₘ 0) (m.setSpace p (s.virtualUnmap v)) := by
      refine h.of_frame ?_ ?_ ?_ fun x g hg => ?_
      · rfl
      · rfl
      · rw [hslot]
        exact h.balanced.clear hx
      · rw [hslot] at hg
        by_cases hxp : x = (p, v / pageSize)
        · subst hxp
          rw [update_self] at hg
          cases hg
        · rw [update_of_ne hxp] at hg
          exact h.owned x g hg
    obtain ⟨m', hrelease, hbooks, hspace⟩ := hcleared.frameRelease hpool
    refine ⟨m', ?_, hbooks, hspace⟩
    dsimp only
    rw [if_pos hphys]
    exact hrelease

theorem Books.unmapPages (hzero : m₀.free 0 = false) (pages : List ℕ) (h : Books m₀ 0 m)
    (hs : m.space p = some s) :
    ∃ m', pages.foldlM (fun m v => m.unmapPageIfMapped p v) m = some m' ∧
      Became m₀ p (pages.foldl AddressSpace.virtualUnmap s) m m' := by
  induction pages generalizing m s with
  | nil => exact ⟨m, rfl, .refl h hs⟩
  | cons v pages ih =>
    obtain ⟨m₁, hunmap, h₁⟩ := h.unmapPageIfMapped hzero hs v
    obtain ⟨m₂, hrest, h₂⟩ := ih h₁.books h₁.self
    exact ⟨m₂, by rw [foldlM_cons, hunmap]; exact hrest, h₁.trans h₂⟩

theorem Books.mappingRemove (h : Books m₀ 0 m) (hzero : m₀.free 0 = false)
    (hs : m.space p = some s) (pos : Position) :
    ∃ m', m.mappingRemove p pos = some m' ∧ Became m₀ p (mappingRemove s pos) m m' := by
  unfold Machine.mappingRemove
  simp only [hs, bind_eq_bind, bind_some]
  have h₁ := h.setMaps hs (pos.before ++ pos.after)
  obtain ⟨m', hunmap, h'⟩ := Books.unmapPages hzero
    (pagesUpto pos.reg.start (u64 (pos.reg.start + pos.reg.length))) h₁ (space_setSpace ..)
  exact ⟨m', hunmap, Became.trans ⟨h₁, rfl⟩ h'⟩

theorem Books.settle (h : Books m₀ 0 m) (hzero : m₀.free 0 = false) (hs : m.space p = some s)
    (pos : Position) : ∃ m', m.settle p pos = some m' ∧ Became m₀ p (settle s pos) m m' := by
  unfold Machine.settle Mapping.settle
  split
  · exact h.mappingRemove hzero hs pos
  · exact ⟨_, by rw [hs]; rfl, h.setMaps hs _, rfl⟩

/-- **`map_region_remove` on one page** does on the machine what it does on the address space. -/
theorem Books.removePage (hzero : m₀.free 0 = false) (rounds : ℕ) (h : Books m₀ 0 m)
    (hs : m.space p = some s) (v : ℕ) :
    (removePage rounds s v = none ∧ m.removePage p rounds v = none) ∨
      ∃ s' m', removePage rounds s v = some s' ∧ m.removePage p rounds v = some m' ∧
        Became m₀ p s' m m' := by
  induction rounds generalizing m s with
  | zero => exact .inl ⟨rfl, rfl⟩
  | succ rounds ih =>
    unfold Mapping.removePage Machine.removePage
    simp only [hs, bind_eq_bind, bind_some]
    cases hf : findRegion s.maps v with
    | none => exact .inr ⟨s, m, rfl, rfl, .refl h hs⟩
    | some pos =>
      dsimp only
      obtain ⟨m₁, hunmap, h₁⟩ := h.unmapPageIfMapped hzero hs v
      rw [hunmap]
      split
      · obtain ⟨m₂, hsettle, h₂⟩ := h₁.books.settle hzero h₁.self _
        exact .inr ⟨_, m₂, rfl, hsettle, h₁.trans h₂⟩
      split
      · obtain ⟨m₂, hsettle, h₂⟩ := h₁.books.settle hzero h₁.self _
        exact .inr ⟨_, m₂, rfl, hsettle, h₁.trans h₂⟩
      · obtain ⟨m₂, hsettle, h₂⟩ := h.settle hzero hs
          { pos with before := (splitRegion pos.reg v).2 :: pos.before,
                     reg := (splitRegion pos.reg v).1 }
        rw [hsettle]
        rcases ih h₂.books h₂.self with hend | ⟨s', m', hok, hok', h'⟩
        · exact .inl hend
        · exact .inr ⟨s', m', hok, hok', h₂.trans h'⟩

/-- **`map_region_remove`** does on the machine what it does on the address space. -/
theorem Books.removePages (hzero : m₀.free 0 = false) (pages : List ℕ) (h : Books m₀ 0 m)
    (hs : m.space p = some s) :
    (pages.foldlM (Mapping.removePage 2) s = none ∧
      pages.foldlM (Machine.removePage p 2) m = none) ∨
      ∃ s' m', pages.foldlM (Mapping.removePage 2) s = some s' ∧
        pages.foldlM (Machine.removePage p 2) m = some m' ∧ Became m₀ p s' m m' := by
  induction pages generalizing m s with
  | nil => exact .inr ⟨s, m, rfl, rfl, .refl h hs⟩
  | cons v pages ih =>
    rw [foldlM_cons, foldlM_cons]
    rcases h.removePage hzero 2 hs v with ⟨hend, hend'⟩ | ⟨s₁, m₁, hok, hok', h₁⟩
    · rw [hend, hend']
      exact .inl ⟨rfl, rfl⟩
    · rw [hok, hok']
      rcases ih h₁.books h₁.self with hend | ⟨s', m', hok, hok', h'⟩
      · exact .inl hend
      · exact .inr ⟨s', m', hok, hok', h₁.trans h'⟩

end Unmapping

/-! ## Page faults -/

section Faults

variable {reg : Region} {pick pick' : ℕ} {flags : Fault}

theorem Books.setMemory (h : Books m₀ pending m) (bytes : ℕ → ℕ → UInt8) :
    Books m₀ pending { m with memory := bytes } :=
  ⟨h.balanced, h.free_iff, h.owned, h.persist⟩

theorem Books.faultPresent (h : Books m₀ 0 m) (hzero : m₀.free 0 = false)
    (hs : m.space p = some s) (hreg : reg.file.inode = none)
    (hnone : s.pages (v / pageSize) = none) (hpick : m.free pick = true) :
    ∃ m' pte, m.faultPresent p s reg v pick = some (m', true) ∧
      Became m₀ p (setPte s (v / pageSize) pte) m m' ∧
      m'.free = update m.free pick false := by
  obtain ⟨m₁, halloc, h₁, hspace, hfree⟩ := h.frameAllocate hpick
  have hpool := ((h.free_iff pick).mp hpick).1
  have hne : pick ≠ 0 := by
    rintro rfl
    rw [hzero] at hpool
    cases hpool
  have hs₁ : m₁.space p = some s := by rw [hspace, hs]
  have hget : m.getPhysToMap reg v pick = some (m₁, pick) := by
    rw [getPhysToMap, hreg]
    dsimp only
    rw [halloc]
    rfl
  have hmap : ∀ new : Pte, new.phys = pick → Became m₀ p (setPte s (v / pageSize) new) m
      (m₁.setSpace p (setPte s (v / pageSize) new)) := by
    rintro new rfl
    refine ⟨h₁.mapEntry hpool hs₁ hnone, ?_⟩
    rw [setSpace, hspace]
  unfold Machine.faultPresent
  rw [if_neg (by simp [hnone]), hget, bind_eq_bind, bind_some]
  dsimp only
  rw [if_neg hne, virtualMap_of_none hnone]
  exact ⟨_, _, rfl, hmap _ rfl, hfree⟩

/-- **The copy of copy-on-write.** -/
theorem Books.faultPrivate (reg : Region) (h : Books m₀ 0 m) (hs : m.space p = some s)
    (hpte : s.pages (v / pageSize) = some pte) (hpick : m.free pick = true) :
    ∃ m' new, m.faultPrivate p s reg v pte pick = some m' ∧
      Became m₀ p (setPte s (v / pageSize) new) m m' := by
  obtain ⟨m₁, halloc, h₁, hspace, -⟩ := h.frameAllocate hpick
  have hpool := ((h.free_iff pick).mp hpick).1
  have hs₁ : m₁.space p = some s := by rw [hspace, hs]
  have hx : m.slot (p, v / pageSize) = some pte.phys := slot_eq_some.mpr ⟨s, pte, hs, hpte, rfl⟩
  let new : Pte := ⟨pick, reg.prot.write, reg.prot.exec⟩
  have hcopied : Books m₀ (new.phys ::ₘ 0) _ :=
    h₁.setMemory (update m₁.memory pick (m₁.memory pte.phys))
  have hmoved := hcopied.moveEntry hpool hs₁ hpte
  obtain ⟨m₂, hrelease, h₂, hspace₂⟩ := hmoved.frameRelease (h.owned _ _ hx)
  refine ⟨m₂, new, ?_, h₂, ?_⟩
  · unfold Machine.faultPrivate
    rw [halloc, bind_eq_bind, bind_some]
    dsimp only
    rw [virtualMap_virtualUnmap]
    exact hrelease
  · rw [hspace₂, setSpace]
    dsimp only
    rw [hspace]

theorem Books.faultShared (reg : Region) (h : Books m₀ 0 m) (hs : m.space p = some s)
    (hpte : s.pages (v / pageSize) = some pte) :
    ∃ new, Became m₀ p (setPte s (v / pageSize) new) m (m.faultShared p s reg v pte) := by
  have hx : m.slot (p, v / pageSize) = some pte.phys := slot_eq_some.mpr ⟨s, pte, hs, hpte, rfl⟩
  have hpool := h.owned _ _ hx
  let m₁ : Machine := { m with
    frame := update m.frame pte.phys
      ⟨{ (m.frame pte.phys).flags with dirty := true }, (m.frame pte.phys).count⟩ }
  have h₁ : Books m₀ 0 m₁ := by
    refine h.of_update (f := pte.phys) rfl rfl ?_ (fun g _ => rfl) (h.free_iff _) fun _ hne => ?_
    · exact (update_eq_self pte.phys m.count).symm ▸ h.balanced
    · exact h.persist _ hpool hne
  let new : Pte := ⟨pte.phys, reg.prot.write, reg.prot.exec⟩
  have hsame := slot_setPte_self (m := m₁) hs hpte new rfl
  refine ⟨new, ?_, ?_⟩
  · unfold Machine.faultShared
    dsimp only
    rw [virtualChattr_of_some hpte]
    apply h₁.of_frame
    · rfl
    · rfl
    · rw [hsame]
      exact h₁.balanced
    · rw [hsame]
      exact h₁.owned
  · unfold Machine.faultShared
    dsimp only
    rw [virtualChattr_of_some hpte]
    rfl

/-- The part of the fault handler for pages that do not allow the access. It fails if the page is
not there, or if it needs a frame and gets one that is not free. -/
theorem Books.faultPermission (reg : Region) (v : ℕ) (flags : Fault) (pick : ℕ) (h : Books m₀ 0 m)
    (hs : m.space p = some s) :
    (m.faultPermission p reg v flags pick = none ∧ flags.exec = false ∧ flags.write = true ∧
      (s.pages (v / pageSize) = none ∨ reg.flags = .priv ∧ m.free pick ≠ true)) ∨
    ∃ m' success s', m.faultPermission p reg v flags pick = some (m', success) ∧
      Became m₀ p s' m m' ∧ s'.maps = s.maps := by
  unfold Machine.faultPermission
  split
  · exact .inr ⟨m, false, s, rfl, .refl h hs, rfl⟩
  next hexec =>
  split
  · next hwrite =>
    have hexec : flags.exec = false := Bool.eq_false_of_not_eq_true hexec
    simp only [hs, bind_eq_bind, bind_some]
    cases hpte : s.pages (v / pageSize) with
    | none => exact .inl ⟨rfl, hexec, hwrite, .inl rfl⟩
    | some pte =>
      rw [bind_some]
      cases hflags : reg.flags with
      | priv =>
        by_cases hpick : m.free pick = true
        · obtain ⟨m', new, hok, h'⟩ := h.faultPrivate reg hs hpte hpick
          exact .inr ⟨m', true, _, by rw [hok]; rfl, h', rfl⟩
        · refine .inl ⟨?_, hexec, hwrite, .inr ⟨rfl, hpick⟩⟩
          rw [Machine.faultPrivate, frameAllocate_of_not_free hpick]
          rfl
      | shared =>
        obtain ⟨new, h'⟩ := h.faultShared reg hs hpte
        exact .inr ⟨_, true, _, rfl, h', rfl⟩
  · exact .inr ⟨m, true, s, rfl, .refl h hs, rfl⟩

theorem Became.faultPermission {m₁ : Machine} {s₁ : AddressSpace} {addr : ℕ} {pos : Position}
    (pick : ℕ) (h₁ : Became m₀ p s₁ m m₁) (hs : m.space p = some s) (hmaps : s₁.maps = s.maps)
    (hf : findRegion s.maps addr = some pos)
    (hallowed : ¬ (flags.write = true ∧ pos.reg.prot.write = false))
    (hpresent : flags.pres = true ∨ (s.pages (addr / pageSize)).isSome →
      (s₁.pages (addr / pageSize)).isSome)
    (hfree : m.free pick' = true → (s.pages (addr / pageSize) = none → pick' ≠ pick) →
      m₁.free pick' = true) :
    let second := if (true && flags.perm) = true then
      m₁.faultPermission p pos.reg (pageFloor addr) flags pick' else pure (m₁, true)
    (second = none ∧ ¬ (Operation.fault p addr flags pick pick').Ready m) ∨
      ∃ m' success s₀ s', second = some (m', success) ∧ some s = some s₀ ∧
        Became m₀ p s' m m' ∧ s'.maps = s₀.maps := by
  dsimp only
  split
  · next hperm =>
    rcases h₁.books.faultPermission pos.reg (pageFloor addr) flags pick' h₁.self with
      ⟨hfail, hexec, hwrite, hwhy⟩ | ⟨m₂, ok, s₂, hok, h₂, hmaps₂⟩
    · refine .inl ⟨hfail, ?_⟩
      rintro ⟨s₀, hs₀, hready⟩
      obtain rfl := some.inj (hs.symm.trans hs₀)
      obtain ⟨hpage, hpick⟩ := (hready pos hf hallowed).2 (by simpa using hperm) hexec hwrite
      rw [pageFloor_div] at hwhy
      rcases hwhy with hnone | ⟨hpriv, hnot⟩
      · have hsome := hpresent hpage
        rw [hnone] at hsome
        cases hsome
      · obtain ⟨hpick, hne⟩ := hpick hpriv
        exact hnot (hfree hpick hne)
    · exact .inr ⟨m₂, ok, s, s₂, hok, rfl, h₁.trans h₂, hmaps₂.trans hmaps⟩
  · exact .inr ⟨m₁, true, s, s₁, rfl, rfl, h₁, hmaps⟩

/-- **The page fault handler** keeps the books, or is not given what it relies on. -/
theorem Books.handleFault (h : Books m₀ 0 m) (hzero : m₀.free 0 = false) {addr : ℕ}
    (hanon : ∀ s, m.space p = some s → ∀ r ∈ s.maps, r.file.inode = none) :
    (m.handleFault p addr flags pick pick' = none ∧
      ¬ (Operation.fault p addr flags pick pick').Ready m) ∨
    ∃ m' success s s', m.handleFault p addr flags pick pick' = some (m', success) ∧
      m.space p = some s ∧ Became m₀ p s' m m' ∧ s'.maps = s.maps := by
  unfold Machine.handleFault
  cases hs : m.space p with
  | none =>
    refine .inl ⟨rfl, ?_⟩
    rintro ⟨s, hs', -⟩
    rw [hs] at hs'
    cases hs'
  | some s =>
    rw [bind_eq_bind, bind_some]
    cases hf : findRegion s.maps addr with
    | none => exact .inr ⟨m, false, s, s, rfl, rfl, .refl h hs, rfl⟩
    | some pos =>
      dsimp only
      split
      · exact .inr ⟨m, false, s, s, rfl, rfl, .refl h hs, rfl⟩
      next hallowed =>
      have hallowed : ¬ (flags.write = true ∧ pos.reg.prot.write = false) := by
        simpa using hallowed
      have hreg : pos.reg.file.inode = none := by
        refine hanon s hs _ ?_
        rw [(findRegion_some hf).1]
        simp [Position.list]
      by_cases hpres : flags.pres = true
      · rw [if_pos hpres]
        cases hpage : s.pages (addr / pageSize) with
        | some pte =>
          have hfirst : m.faultPresent p s pos.reg (pageFloor addr) pick = some (m, true) := by
            rw [Machine.faultPresent, pageFloor_div, hpage]
            rfl
          rw [hfirst]
          exact (Became.refl h hs).faultPermission pick hs rfl hf hallowed
            (fun _ => by rw [hpage]; rfl) fun hfree _ => hfree
        | none =>
          by_cases hpick : m.free pick = true
          · obtain ⟨m₁, new, hfirst, h₁, hfree⟩ := h.faultPresent (v := pageFloor addr) hzero hs
              hreg (by rw [pageFloor_div, hpage]) hpick
            rw [hfirst]
            refine h₁.faultPermission pick hs rfl hf hallowed (fun _ => ?_) fun hpick' hne => ?_
            · rw [pageFloor_div, setPte_pages]
              rfl
            · rw [hfree, update_of_ne (hne hpage)]
              exact hpick'
          · refine .inl ⟨?_, ?_⟩
            · have hfirst : m.faultPresent p s pos.reg (pageFloor addr) pick = none := by
                rw [Machine.faultPresent, pageFloor_div, hpage, if_neg (by simp),
                  getPhysToMap, hreg]
                dsimp only
                rw [frameAllocate_of_not_free hpick]
                rfl
              rw [hfirst]
              rfl
            · rintro ⟨s₀, hs₀, hready⟩
              obtain rfl := some.inj (hs.symm.trans hs₀)
              exact hpick ((hready pos hf hallowed).1 hpres hpage)
      · rw [if_neg hpres]
        refine (Became.refl h hs).faultPermission pick hs rfl hf hallowed (fun hpage => ?_)
          fun hfree _ => hfree
        exact hpage.resolve_left hpres

end Faults

/-! ## Fork -/

section Fork

variable {src dst : ℕ}

theorem Forked.held_iff (h : Forked src dst m m') :
    (∃ x, m'.slot x = some f) ↔ ∃ x, m.slot x = some f := by
  obtain ⟨s, s', t, hs, -, -, -, -, hdone, hrest⟩ := h.spaces
  have hothers : ∀ q k, q ≠ src → q ≠ dst → m'.slot (q, k) = m.slot (q, k) := by
    intro q k hq hq'
    rw [slot, slot, h.others q hq hq']
  constructor
  · rintro ⟨⟨q, k⟩, hq⟩
    by_cases hsrc : q = src
    · subst hsrc
      exact ⟨(q, k), h.slot_source k ▸ hq⟩
    by_cases hdst : q = dst
    · subst hdst
      by_cases hk : k ∈ pagesOf s.maps
      · exact ⟨(src, k), hdone k hk ▸ hq⟩
      · rw [hrest k hk] at hq
        cases hq
    · exact ⟨(q, k), hothers q k hsrc hdst ▸ hq⟩
  · rintro ⟨⟨q, k⟩, hq⟩
    by_cases hsrc : q = src
    · subst hsrc
      exact ⟨(q, k), (h.slot_source k).trans hq⟩
    have hdst : q ≠ dst := by
      rintro rfl
      rw [slot, h.new] at hq
      cases hq
    exact ⟨(q, k), (hothers q k hsrc hdst).trans hq⟩

/-- **A fork** counts the entries that it copies. -/
theorem Books.fork (h : Books m₀ 0 m) (hbase : ∀ f, m₀.free f = true → m₀.count f = 0)
    (hfork : Forked src dst m m') : Books m₀ 0 m' := by
  have hbalanced := hfork.balanced _ _ h.balanced
  have hzero : ∀ f, m₀.free f = true → (m'.count f = 0 ↔ m.count f = 0) := by
    intro f hf
    rw [hbalanced.count_eq_zero (hbase f hf), h.balanced.count_eq_zero (hbase f hf), ← not_exists,
      ← not_exists, hfork.held_iff]
  refine ⟨hbalanced, fun f => ?_, fun x f hx => ?_, fun f hf hne => ?_⟩
  · rw [hfork.free_eq, h.free_iff]
    exact and_congr_right fun hf => (hzero f hf).symm
  · obtain ⟨y, hy⟩ := hfork.held_iff.mp ⟨x, hx⟩
    exact h.owned y f hy
  · rw [hfork.flags_eq]
    exact h.persist f hf fun hcount => hne ((hzero f hf).mpr hcount)

end Fork

end SeaKernel.Paging
