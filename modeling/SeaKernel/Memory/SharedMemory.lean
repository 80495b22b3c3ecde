import SeaKernel.Memory.Fork

/-!
# Shared memory after a fork

A page of a shared mapping that is present when its process forks has one frame in both processes,
and keeps it: the page fault handler never replaces the frame of a present page of a shared mapping,
and a fork passes it on. So parent and child read the same byte there whoever stores to it.

Nothing of this holds for a page that nobody has touched before the fork: the `map` callback
`_zero_map` allocates a frame for every process that comes to the page.

## Main results

* `Attached.exec`: every step keeps the frame of a shared page
* `shared_of_run`: so parent and child read the same there
* `untouched_page_not_shared`: a page that is first touched after the fork is not shared
-/

namespace SeaKernel.Paging

open Mapping List Option Machine

variable {m m' : Machine} {family : Set ℕ} {p q n f k : ℕ} {s : AddressSpace} {pte : Pte}

/-- The page `n` of the processes belongs to a shared mapping, and has the frame `f`. -/
structure Attached (m : Machine) (family : Set ℕ) (n f : ℕ) : Prop where
  wf : ∀ p s, m.space p = some s → WellFormed s.maps
  entry : ∀ p ∈ family, ∃ s pte file, m.space p = some s ∧ s.pages n = some pte ∧ pte.phys = f ∧
    kind s.maps (n * pageSize) = some (file, .shared)

section

variable (h : Attached m family n f)

include h

theorem Attached.reads (hp : p ∈ family) {addr : ℕ} (haddr : addr / pageSize = n) :
    m.reads p addr = some (m.memory f (addr % pageSize)) := by
  obtain ⟨s, pte, file, hs, hpte, hphys, -⟩ := h.entry p hp
  rw [Machine.reads, hs, bind_eq_bind, bind_some, haddr, hpte, ← hphys]
  rfl

/-! ## Page tables -/

theorem Attached.of_space (hspace : m'.space = m.space) : Attached m' family n f := by
  constructor
  · intro p s hs
    rw [hspace] at hs
    exact h.wf p s hs
  · intro p hp
    rw [hspace]
    exact h.entry p hp

theorem Attached.setEntry (hs : m.space p = some s) (hpte : p ∈ family → k = n → pte.phys = f) :
    Attached (m.setSpace p (setPte s k pte)) family n f := by
  constructor
  · intro q t ht
    by_cases hq : q = p
    · subst hq
      rw [space_setSpace] at ht
      obtain rfl := some.inj ht
      exact h.wf q s hs
    · rw [space_setSpace_ne m _ hq] at ht
      exact h.wf q t ht
  · intro q hq
    obtain ⟨t, old, file, ht, hold, hphys, hkind⟩ := h.entry q hq
    by_cases hqp : q = p
    · subst hqp
      obtain rfl := some.inj (hs.symm.trans ht)
      by_cases hk : k = n
      · subst hk
        exact ⟨_, pte, file, space_setSpace .., setPte_pages .., hpte hq rfl, hkind⟩
      · refine ⟨_, old, file, space_setSpace .., ?_, hphys, hkind⟩
        rw [setPte_pages_ne s pte (Ne.symm hk)]
        exact hold
    · exact ⟨t, old, file, by rw [space_setSpace_ne m _ hqp, ht], hold, hphys, hkind⟩

end

/-! ## Page faults -/

section Faults

variable {reg : Region} {v pick pick' : ℕ}

theorem space_frameAllocate {flags : FrameFlags} (hm : m.frameAllocate f flags = some m') :
    m'.space = m.space := by
  unfold frameAllocate at hm
  obtain ⟨-, rfl⟩ := ite_some_none_eq_some.mp hm
  rfl

theorem space_getPhysToMap (hm : m.getPhysToMap reg v pick = some (m', f)) :
    m'.space = m.space := by
  unfold getPhysToMap inodeGetPage at hm
  cases hi : reg.file.inode with
  | none =>
    rw [hi] at hm
    obtain ⟨m₁, halloc, hm⟩ := bind_eq_some_iff.mp hm
    obtain ⟨rfl, -⟩ := Prod.mk.inj (some.inj hm)
    exact space_frameAllocate halloc
  | some inode =>
    rw [hi] at hm
    obtain ⟨⟨m₁, g⟩, hget, hm⟩ := bind_eq_some_iff.mp hm
    obtain ⟨rfl, -⟩ := Prod.mk.inj (some.inj hm)
    cases hk : m.inodePage (inode, reg.page v) with
    | some phys =>
      rw [hk] at hget
      obtain ⟨rfl, -⟩ := Prod.mk.inj (some.inj hget)
      rfl
    | none =>
      rw [hk] at hget
      obtain ⟨m₂, halloc, hget⟩ := bind_eq_some_iff.mp hget
      obtain ⟨rfl, -⟩ := Prod.mk.inj (some.inj hget)
      exact (space_frameAllocate halloc : m₂.space = m.space)

theorem space_frameRelease (hm : m.frameRelease f = some m') : m'.space = m.space := by
  unfold frameRelease at hm
  obtain ⟨-, rfl⟩ := ite_some_none_eq_some.mp hm
  rfl

variable {success : Bool}

variable (h : Attached m family n f)

include h

theorem Attached.faultPresent (hs : m.space p = some s)
    (hm : m.faultPresent p s reg v pick = some (m', success)) :
    Attached m' family n f ∧ ∃ s', m'.space p = some s' ∧ s'.maps = s.maps := by
  unfold Machine.faultPresent at hm
  split at hm
  · obtain ⟨rfl, -⟩ := Prod.mk.inj (some.inj hm)
    exact ⟨h, s, hs, rfl⟩
  · next habsent =>
    have hnone : s.pages (v / pageSize) = none := by simpa using habsent
    obtain ⟨⟨m₁, g⟩, hget, hm⟩ := bind_eq_some_iff.mp hm
    have hspace := space_getPhysToMap hget
    have h₁ := h.of_space hspace
    have hs₁ : m₁.space p = some s := by rw [hspace, hs]
    dsimp only at hm
    split at hm
    · obtain ⟨rfl, -⟩ := Prod.mk.inj (some.inj hm)
      exact ⟨h₁, s, hs₁, rfl⟩
    · obtain ⟨rfl, -⟩ := Prod.mk.inj (some.inj hm)
      rw [virtualMap_of_none hnone]
      refine ⟨h₁.setEntry hs₁ ?_, _, space_setSpace .., rfl⟩
      rintro hp rfl
      obtain ⟨t, old, -, ht, hold, -⟩ := h.entry p hp
      obtain rfl := some.inj (hs.symm.trans ht)
      rw [hnone] at hold
      cases hold

theorem Attached.faultPermission (hs : m.space p = some s)
    (hreg : kind s.maps (v / pageSize * pageSize) = some (reg.file, reg.flags)) {flags : Fault}
    (hm : m.faultPermission p reg v flags pick = some (m', success)) : Attached m' family n f := by
  unfold Machine.faultPermission at hm
  split at hm
  · obtain ⟨rfl, -⟩ := Prod.mk.inj (some.inj hm)
    exact h
  split at hm
  · rw [hs] at hm
    simp only [bind_eq_bind, bind_some] at hm
    obtain ⟨pte, hpte, hm⟩ := bind_eq_some_iff.mp hm
    cases hflags : reg.flags with
    | priv =>
      rw [hflags] at hm hreg
      obtain ⟨m₁, hcopy, hm⟩ := bind_eq_some_iff.mp hm
      obtain ⟨rfl, -⟩ := Prod.mk.inj (some.inj hm)
      obtain ⟨m₂, halloc, hrelease⟩ := bind_eq_some_iff.mp hcopy
      dsimp only at hrelease
      rw [virtualMap_virtualUnmap] at hrelease
      have hspace := space_frameAllocate halloc
      refine Attached.of_space (m := setSpace { m₂ with
          memory := Function.update m₂.memory pick (m₂.memory pte.phys) } p
        (setPte s (v / pageSize) ⟨pick, reg.prot.write, reg.prot.exec⟩)) ?_
        (space_frameRelease hrelease)
      refine Attached.setEntry (h.of_space hspace) (hspace ▸ hs) ?_
      rintro hp rfl
      obtain ⟨t, -, file, ht, -, -, hkind⟩ := h.entry p hp
      obtain rfl := some.inj (hs.symm.trans ht)
      rw [hreg] at hkind
      cases hkind
    | shared =>
      rw [hflags] at hm
      obtain ⟨rfl, -⟩ := Prod.mk.inj (some.inj hm)
      unfold faultShared
      dsimp only
      rw [virtualChattr_of_some hpte]
      refine Attached.setEntry (h.of_space rfl) hs ?_
      rintro hp rfl
      obtain ⟨t, old, -, ht, hold, hphys, -⟩ := h.entry p hp
      obtain rfl := some.inj (hs.symm.trans ht)
      obtain rfl := some.inj (hpte.symm.trans hold)
      exact hphys
  · obtain ⟨rfl, -⟩ := Prod.mk.inj (some.inj hm)
    exact h

/-- **The page fault handler** keeps the frame of a shared page. -/
theorem Attached.handleFault {addr : ℕ} {flags : Fault}
    (hm : m.handleFault p addr flags pick pick' = some (m', success)) : Attached m' family n f := by
  obtain ⟨s, hs, hm⟩ := bind_eq_some_iff.mp hm
  cases hf : findRegion s.maps addr with
  | none =>
    rw [hf] at hm
    obtain ⟨rfl, -⟩ := Prod.mk.inj (some.inj hm)
    exact h
  | some pos =>
    rw [hf] at hm
    dsimp only at hm
    split at hm
    · obtain ⟨rfl, -⟩ := Prod.mk.inj (some.inj hm)
      exact h
    have hreg := kind_of_findRegion (h.wf p s hs) hf
    obtain ⟨⟨m₁, success₁⟩, hpres, hm⟩ := bind_eq_some_iff.mp hm
    have h₁ : Attached m₁ family n f ∧ ∃ s', m₁.space p = some s' ∧ s'.maps = s.maps := by
      split at hpres
      · exact h.faultPresent hs hpres
      · obtain ⟨rfl, -⟩ := Prod.mk.inj (some.inj hpres)
        exact ⟨h, s, hs, rfl⟩
    obtain ⟨h₁, s₁, hs₁, hmaps⟩ := h₁
    dsimp only at hm
    split at hm
    · exact h₁.faultPermission hs₁ (hmaps ▸ hreg) hm
    · obtain ⟨rfl, -⟩ := Prod.mk.inj (some.inj hm)
      exact h₁

end Faults

/-! ## Runs -/

section Runs

variable {src dst : ℕ}

theorem Attached.fork (h : Attached m family n f) (hfork : Forked src dst m m') :
    Attached m' family n f := by
  refine ⟨hfork.wf h.wf, fun p hp => ?_⟩
  obtain ⟨s, pte, file, hs, hpte, hphys, hkind⟩ := h.entry p hp
  have hdst : p ≠ dst := by
    rintro rfl
    rw [hfork.new] at hs
    cases hs
  by_cases hsrc : p = src
  · subst hsrc
    obtain ⟨s₀, s', -, hs₀, hs', -, hmaps, -⟩ := hfork.spaces
    obtain rfl := some.inj (hs.symm.trans hs₀)
    have hslot : m'.slot (p, n) = some f := by
      rw [hfork.slot_source]
      exact slot_eq_some.mpr ⟨s, pte, hs, hpte, hphys⟩
    obtain ⟨s'', pte', hs'', hpte', hphys'⟩ := slot_eq_some.mp hslot
    obtain rfl := some.inj (hs'.symm.trans hs'')
    exact ⟨s', pte', file, hs', hpte', hphys', hmaps ▸ hkind⟩
  · exact ⟨s, pte, file, by rw [hfork.others p hsrc hdst, hs], hpte, hphys, hkind⟩

theorem Attached.inherit (h : Attached m {src} n f) (hfork : Forked src dst m m') :
    Attached m' {src, dst} n f := by
  have hparent := h.fork hfork
  refine ⟨hparent.wf, ?_⟩
  rintro p (rfl | rfl)
  · exact hparent.entry p rfl
  · obtain ⟨s, pte, file, hs, hpte, hphys, hkind⟩ := h.entry src rfl
    obtain ⟨s₀, -, t, hs₀, -, ht, -, hmaps, hdone, -⟩ := hfork.spaces
    obtain rfl := some.inj (hs.symm.trans hs₀)
    have hwf := h.wf src s hs
    -- The page lies in a region, so it was copied.
    have hpage : n ∈ pagesOf s.maps := by
      apply (kind_isSome hwf).mp
      rw [hkind]
      rfl
    have hslot : m'.slot (p, n) = some f := by
      rw [hdone n hpage]
      exact slot_eq_some.mpr ⟨s, pte, hs, hpte, hphys⟩
    obtain ⟨t', pte', ht', hpte', hphys'⟩ := slot_eq_some.mp hslot
    obtain rfl := some.inj (ht.symm.trans ht')
    refine ⟨t, pte', file, ht, hpte', hphys', ?_⟩
    rw [hmaps, hwf.kind_perm (reverse_perm s.maps).symm]
    exact hkind

/-- Whether the step is a change of protection. -/
def Event.protects : Event → Bool
  | .mprotect _ _ _ _ => true
  | _ => false

/-- The steps of page faults, stores and forks. -/
def Step (m : Machine) (e : Event) (m' : Machine) : Prop :=
  m.exec e = some m' ∧ e.protects = false

/-- **A step** of whatever process keeps the frame of a shared page. -/
theorem Attached.exec (h : Attached m family n f) {e : Event} (hm : Step m e m') :
    Attached m' family n f := by
  obtain ⟨hm, hprotects⟩ := hm
  cases e with
  | fork src dst => exact h.fork (forked_of_exec h.wf hm)
  | fault p addr flags pick pick' =>
    obtain ⟨⟨m₁, success⟩, hfault, rfl⟩ := map_eq_some_iff.mp hm
    exact h.handleFault hfault
  | store p addr byte =>
    obtain ⟨s, -, hm⟩ := bind_eq_some_iff.mp hm
    obtain ⟨pte, -, hm⟩ := bind_eq_some_iff.mp hm
    obtain ⟨-, rfl⟩ := ite_some_none_eq_some.mp hm
    exact h.of_space rfl
  | mprotect p virt len prot => cases hprotects

/-- The address belongs to a shared mapping of the process. -/
def Machine.SharedAt (m : Machine) (p addr : ℕ) : Prop :=
  ∃ s file, m.space p = some s ∧ kind s.maps addr = some (file, .shared)

theorem wf_of_run {run : List (Event × Machine)}
    (hwf : ∀ p s, m.space p = some s → WellFormed s.maps) (hrun : Along Step m run) :
    After (fun m => ∀ p s, m.space p = some s → WellFormed s.maps) m run := by
  -- No page need be attached anywhere for this.
  have hempty : After (fun m => Attached m ∅ 0 0) m run :=
    hrun.after_of_step (fun _ _ _ h hstep => h.exec hstep) ⟨hwf, fun _ hp => hp.elim⟩
  exact hempty.mono fun _ h => h.wf

/-- **Shared memory is shared**: after a fork, in every run of page faults, stores and forks by any
process, parent and child read the same byte at every address of a shared mapping whose page was
present in the parent. -/
theorem shared_of_run {run after : List (Event × Machine)} {p child addr : ℕ}
    (hwf : ∀ p s, m.space p = some s → WellFormed s.maps)
    (hrun : Along Step m (run ++ (.fork p child, m') :: after))
    (hshared : (final m run).SharedAt p addr)
    (hpresent : ((final m run).slot (p, addr / pageSize)).isSome) :
    After (fun m => m.reads p addr = m.reads child addr) m' after := by
  obtain ⟨hbefore, hfork, hafter⟩ := along_append.mp hrun
  have hwf := (wf_of_run hwf hbefore).final
  obtain ⟨f, hslot⟩ := isSome_iff_exists.mp hpresent
  obtain ⟨s, file, hs, hkind⟩ := hshared
  obtain ⟨s', pte, hs', hpte, hphys⟩ := slot_eq_some.mp hslot
  obtain rfl := some.inj (hs.symm.trans hs')
  have hparent : Attached (final m run) {p} (addr / pageSize) f := by
    refine ⟨hwf, ?_⟩
    rintro q rfl
    exact ⟨s, pte, file, hs, hpte, hphys, by rw [kind_page (hwf q s hs), hkind]⟩
  have hboth := hparent.inherit (forked_of_exec hwf hfork.1)
  have hrest : After (fun m => Attached m {p, child} (addr / pageSize) f) m' after :=
    hafter.after_of_step (fun _ _ _ h hstep => h.exec hstep) hboth
  refine hrest.mono fun m h => ?_
  rw [h.reads (by simp) rfl, h.reads (by simp) rfl]

/-- A page of shared anonymous memory. -/
def sharedHeap : Region := { heap with flags := .shared }

/-- A machine with one process, which has not touched its shared memory. -/
def oneSharing : Machine := { oneProcess with
  space := fun p => if p = 1 then some { maps := [sharedHeap], pages := fun _ => none } else none }

theorem oneSharing_wf (p : ℕ) (s : AddressSpace) (hs : oneSharing.space p = some s) :
    WellFormed s.maps := by
  unfold oneSharing at hs
  dsimp only at hs
  obtain ⟨-, rfl⟩ := ite_some_none_eq_some.mp hs
  exact ⟨by simpa using (by constructor <;> decide : sharedHeap.Aligned), pairwise_singleton _ _⟩

theorem touched_page_shared : ∃ run m' after,
    (run ++ (Event.fork 1 2, m') :: after).map Prod.fst =
      [.fault 1 0x10000 ⟨false, true, true, true⟩ 5 6, .fork 1 2, .store 1 0x10000 7,
        .fault 2 0x10000 ⟨false, true, true, false⟩ 7 8, .store 2 0x10001 9] ∧
    Along Step oneSharing (run ++ (.fork 1 2, m') :: after) ∧
    (final oneSharing run).SharedAt 1 0x10000 ∧
    After (fun m => m.reads 1 0x10000 = m.reads 2 0x10000) m' after := by
  obtain ⟨run, hevents, hrun, -⟩ := exists_run exec (fun m e => e.protects = false ∧ (match e with
        | .fork p _ => decide (((m.space p).bind fun s => kind s.maps 0x10000) =
            some (sharedHeap.file, .shared)) && (m.slot (p, 0x10)).isSome
        | _ => true) = true) (fun _ => True) oneSharing
    [.fault 1 0x10000 ⟨false, true, true, true⟩ 5 6, .fork 1 2, .store 1 0x10000 7,
      .fault 2 0x10000 ⟨false, true, true, false⟩ 7 8, .store 2 0x10001 9] (by decide +kernel)
  have hsteps : Along Step oneSharing run := hrun.mono fun _ _ _ h => ⟨h.2, h.1.1⟩
  obtain ⟨⟨e, m₁⟩, run, rfl, rfl, hrest⟩ := map_eq_cons_iff.mp hevents
  obtain ⟨⟨e, m₂⟩, after, rfl, rfl, -⟩ := map_eq_cons_iff.mp hrest
  obtain ⟨⟨-, hfork⟩, -⟩ := hrun.2.1
  rw [Bool.and_eq_true, decide_eq_true_iff] at hfork
  obtain ⟨hkind, hpresent⟩ := hfork
  obtain ⟨s, hs, hkind⟩ := bind_eq_some_iff.mp hkind
  have hshared : m₁.SharedAt 1 0x10000 := ⟨s, _, hs, hkind⟩
  have hsplit : Along Step oneSharing ([(.fault 1 0x10000 ⟨false, true, true, true⟩ 5 6, m₁)] ++
    (.fork 1 2, m₂) :: after) := hsteps
  exact ⟨_, m₂, after, hevents, hsplit, hshared,
    shared_of_run oneSharing_wf hsplit hshared hpresent⟩

/-- The process forks before anyone has touched the page, and writes to it: the child does not see
what it wrote. -/
theorem untouched_page_not_shared : ∃ run : List (Event × Machine),
    run.map Prod.fst =
      [.fork 1 2, .fault 1 0x10000 ⟨false, true, true, true⟩ 5 6, .store 1 0x10000 7] ∧
    Along Step oneSharing run ∧ oneSharing.SharedAt 1 0x10000 ∧
    (final oneSharing run).reads 1 0x10000 = some 7 ∧
    (final oneSharing run).reads 2 0x10000 = some 0 := by
  obtain ⟨run, hevents, hrun, hreads⟩ := exists_run exec (fun _ e => e.protects = false)
    (fun m => m.reads 1 0x10000 = some 7 ∧ m.reads 2 0x10000 = some 0) oneSharing
    [.fork 1 2, .fault 1 0x10000 ⟨false, true, true, true⟩ 5 6, .store 1 0x10000 7]
    (by decide +kernel)
  exact ⟨run, hevents, hrun.mono fun _ _ _ h => ⟨h.2, h.1⟩, ⟨_, sharedHeap.file, rfl, by decide⟩,
    hreads⟩

end Runs

end SeaKernel.Paging
