import SeaKernel.Lib.Run
import SeaKernel.Memory.CopyOnWrite

/-!
# Isolation of private mappings

What a process stores through a private mapping is seen by no other process and in no file. Page
faults, stores and `fork` keep this up in all states; after `map_change_protect` a page shared since
a `fork`, or the page of a file, can be written.

## Main results

* `Consistent.fork`, `Consistent.mprotect`: the steps keep the machine consistent
* `isolated_of_run`: the steps of a run are isolated if its changes of protection are safe
-/

namespace SeaKernel.Paging

open Mapping Function List Option Machine

variable {m m' : Machine} {p q n f : ℕ} {s s' t : AddressSpace} {pte : Pte}

theorem Consistent.setSpace (h : Consistent m) (hwf : WellFormed s.maps)
    (hslot : ∀ n, m.slot (p, n) = (s.pages n).map Pte.phys)
    (hpriv : ∀ n pte, s.pages n = some pte → pte.write = true → Private s.maps n →
      m.Exclusive (p, n) pte.phys) :
    Consistent (m.setSpace p s) := by
  have hspace := space_setSpace m p s
  have hsame : (m.setSpace p s).slot = m.slot := by
    funext ⟨q, n⟩
    by_cases hq : q = p
    · subst hq
      rw [hslot, slot, hspace]
      rfl
    · rw [slot, slot, space_setSpace_ne m s hq]
  refine ⟨fun q t ht => ?_, ?_, h.free, h.cached, fun x f hx => ?_⟩
  · by_cases hq : q = p
    · subst hq
      obtain rfl := some.inj (hspace.symm.trans ht)
      exact hwf
    · exact h.wf q t ((space_setSpace_ne m s hq).symm.trans ht)
  · rw [hsame]
    exact h.counted
  · rw [Machine.Exclusive, hsame]
    obtain ⟨q, n⟩ := x
    obtain ⟨t, pte, ht, hpte, rfl, hw, hp⟩ := hx
    by_cases hq : q = p
    · subst hq
      obtain rfl := some.inj (hspace.symm.trans ht)
      exact hpriv n pte hpte hw hp
    · exact h.exclusive (q, n) _
        ⟨t, pte, (space_setSpace_ne m s hq).symm.trans ht, hpte, rfl, hw, hp⟩

/-! ## Fork -/

section Fork

variable {src dst addr : ℕ} {maps copied : List Region} {reg : Region}

theorem setSpace_self (hs : m.space p = some s) : m.setSpace p s = m := by
  rw [setSpace, ← hs, update_eq_self]

theorem Consistent.not_free (h : Consistent m) {x : ℕ × ℕ} (hx : m.slot x = some f) :
    m.free f = false := by
  refine Bool.eq_false_of_not_eq_true fun hf => ?_
  exact h.counted.not_held (h.free f hf).1 x hx

/-- A state of the copying of `maps` from `src` to `dst`, with the regions `copied` so far. -/
structure Copying (src dst : ℕ) (maps copied : List Region) (m : Machine) : Prop where
  consistent : Consistent m
  source : ∃ s, m.space src = some s ∧ s.maps = maps
  target : ∃ t, m.space dst = some t ∧ t.maps = copied ∧
    ∀ n, (t.pages n).isSome → (kind copied (n * pageSize)).isSome

/-- The entry that `process_copy_mappings` leaves in both page tables. -/
def copiedPte (reg : Region) (pte : Pte) : Pte :=
  ⟨pte.phys, pte.write && decide (reg.flags = .shared), pte.exec⟩

theorem copiedPte_not_private (hkind : ∃ file, kind maps (n * pageSize) = some (file, reg.flags))
    (hw : (copiedPte reg pte).write = true) : ¬ Private maps n := by
  rintro ⟨file, hpriv⟩
  obtain ⟨file', hkind⟩ := hkind
  have hflags : reg.flags = .shared := by
    rw [copiedPte, Bool.and_eq_true, decide_eq_true_iff] at hw
    exact hw.2
  rw [hpriv, hflags] at hkind
  cases hkind

theorem copyPage_source (hpte : s.pages (addr / pageSize) = some pte) :
    (if reg.flags = .shared then s
      else s.virtualChattr addr (pte.write && decide (reg.flags = .shared)) pte.exec) =
      setPte s (addr / pageSize) (copiedPte reg pte) := by
  split
  · next hshared =>
    have hself : copiedPte reg pte = pte := by simp [copiedPte, hshared]
    rw [hself, setPte, ← hpte, update_eq_self]
  · exact virtualChattr_of_some hpte ..

theorem virtualMap_covered
    (hcovered : ∀ n, (t.pages n).isSome → (kind t.maps (n * pageSize)).isSome)
    (haddr : (kind t.maps (addr / pageSize * pageSize)).isSome) (pte : Pte) :
    (t.virtualMap addr pte).maps = t.maps ∧ ∀ n, ((t.virtualMap addr pte).pages n).isSome →
      (kind t.maps (n * pageSize)).isSome := by
  cases hpages : t.pages (addr / pageSize) with
  | some pte' =>
    have hself : t.virtualMap addr pte = t := by rw [AddressSpace.virtualMap, hpages]
    rw [hself]
    exact ⟨rfl, hcovered⟩
  | none =>
    rw [virtualMap_of_none hpages]
    refine ⟨rfl, fun n hn => ?_⟩
    by_cases hne : n = addr / pageSize
    · rw [hne]
      exact haddr
    · rw [setPte_pages_ne t pte hne] at hn
      exact hcovered n hn

/-- **One page is copied.** -/
theorem Copying.copyPage (h : Copying src dst maps copied m) (hne : src ≠ dst)
    (hsrc : ∃ file, kind maps (addr / pageSize * pageSize) = some (file, reg.flags))
    (hdst : ∃ file, kind copied (addr / pageSize * pageSize) = some (file, reg.flags))
    (hm : Machine.copyPage src dst reg m addr = some m') : Copying src dst maps copied m' := by
  obtain ⟨s, hs, rfl⟩ := h.source
  obtain ⟨t, ht, rfl, hcovered⟩ := h.target
  unfold copyPage at hm
  rw [hs, ht] at hm
  simp only [bind_eq_bind, bind_some] at hm
  cases hpte : s.pages (addr / pageSize) with
  | none =>
    rw [hpte] at hm
    obtain rfl := some.inj hm
    exact h
  | some pte =>
    rw [hpte] at hm
    dsimp only at hm
    rw [copyPage_source hpte] at hm
    obtain rfl := some.inj hm
    have hslot : m.slot (src, addr / pageSize) = some pte.phys :=
      slot_eq_some.mpr ⟨s, pte, hs, hpte, rfl⟩
    have h₁ : Consistent (m.setSpace src (setPte s (addr / pageSize) (copiedPte reg pte))) := by
      refine h.consistent.setEntry hs ?_ (fun x hx hw => ?_) fun hw hp => ?_
      · rw [show (copiedPte reg pte).phys = pte.phys from rfl, ← hslot, update_eq_self]
        exact h.consistent.counted
      · exact hx ((h.consistent.exclusive x _ hw).1 _ hslot).symm
      · exact absurd hp (copiedPte_not_private hsrc hw)
    have hs₁ := space_setSpace m src (setPte s (addr / pageSize) (copiedPte reg pte))
    have ht₁ : (m.setSpace src (setPte s (addr / pageSize) (copiedPte reg pte))).space dst =
        some t := by rw [space_setSpace_ne m _ hne.symm, ht]
    generalize m.setSpace src (setPte s (addr / pageSize) (copiedPte reg pte)) = m₁ at *
    have hslot₁ : m₁.slot (src, addr / pageSize) = some pte.phys :=
      slot_eq_some.mpr ⟨_, _, hs₁, setPte_pages .., rfl⟩
    obtain ⟨h₂, hspare⟩ := h₁.frameAcquire (h₁.not_free hslot₁)
    have hs₂ : ∀ t', ((m₁.frameAcquire pte.phys).setSpace dst t').space src =
        some (setPte s (addr / pageSize) (copiedPte reg pte)) := fun t' => by
      rw [space_setSpace_ne _ _ hne]
      exact hs₁
    refine ⟨?_, ⟨_, hs₂ _, rfl⟩, ⟨_, space_setSpace .., virtualMap_covered hcovered ?_ _⟩⟩
    · cases hpages : t.pages (addr / pageSize) with
      | some pte' =>
        have hself : t.virtualMap addr (copiedPte reg pte) = t := by
          rw [AddressSpace.virtualMap, hpages]
        have hsame := setSpace_self (m := m₁.frameAcquire pte.phys) ht₁
        rw [copiedPte] at hself
        rw [hself, hsame]
        exact h₂
      | none =>
        rw [virtualMap_of_none hpages]
        have hempty : (m₁.frameAcquire pte.phys).slot (dst, addr / pageSize) = none := by
          simp [slot, frameAcquire, ht₁, hpages]
        refine h₂.setEntry ht₁ (hspare.store h₂.counted hempty) (fun x _ hw => ?_) fun hw hp => ?_
        · -- The only entry that could be writable is the one of the source.
          obtain rfl := (h₂.exclusive x _ hw).1 _ hslot₁
          obtain ⟨s', pte', hs', hpte', -, hw', hp⟩ := hw
          obtain rfl := some.inj (hs₁.symm.trans hs')
          obtain rfl := some.inj ((setPte_pages ..).symm.trans hpte')
          exact copiedPte_not_private hsrc hw' hp
        · exact absurd hp (copiedPte_not_private hdst hw)
    · obtain ⟨file, hdst⟩ := hdst
      rw [hdst]
      rfl

theorem mem_pagesUpto {start stop v : ℕ} (hv : v ∈ pagesUpto start stop) :
    start ≤ v ∧ v < stop ∧ (pageSize ∣ start → pageSize ∣ v) := by
  obtain ⟨i, hi, rfl⟩ := mem_map.mp hv
  rw [mem_range] at hi
  refine ⟨by omega, ?_, fun hs => Nat.dvd_add hs (Nat.dvd_mul_left _ _)⟩
  simp only [pageSize] at *
  omega

theorem mapRegionSetup_of_free (hfree : ∀ r ∈ t.maps, reg.Disjoint r) :
    mapRegionSetup t reg = some { t with maps := reg :: t.maps } := by
  have hremove : mapRegionRemove t reg.start reg.length = some t := by
    have hnone : ∀ v ∈ pagesUpto reg.start (u64 (reg.start + reg.length)),
        removePage 2 t v = some t := by
      intro v hv
      obtain ⟨hge, hlt, -⟩ := mem_pagesUpto hv
      have hfind : findRegion t.maps v = none := by
        have hat := regionAt_eq_none.mpr fun r hr => hfree r hr v ⟨hge, hlt⟩
        exact map_eq_none_iff.mp hat
      rw [removePage, hfind]
    unfold mapRegionRemove
    generalize pagesUpto reg.start (u64 (reg.start + reg.length)) = l at hnone
    induction l with
    | nil => rfl
    | cons v l ih =>
      rw [foldlM_cons, hnone v (by simp)]
      exact ih fun w hw => hnone w (by simp [hw])
  rw [mapRegionSetup, hremove]
  rfl

/-- **One region is copied.** -/
theorem Copying.copyRegion (h : Copying src dst maps copied m) (hne : src ≠ dst)
    (hmaps : WellFormed maps) (hreg : reg ∈ maps) (hwf : WellFormed (reg :: copied))
    (hm : Machine.copyRegion src dst m reg = some m') :
    Copying src dst maps (reg :: copied) m' := by
  obtain ⟨s, hs, hsmaps⟩ := h.source
  obtain ⟨t, ht, rfl, hcovered⟩ := h.target
  have hdisjoint := (pairwise_cons.mp hwf.disjoint).1
  unfold copyRegion at hm
  rw [ht, bind_eq_bind, bind_some, mapRegionSetup_of_free hdisjoint] at hm
  rw [bind_some] at hm
  -- Where the target has pages, the new region is not.
  have hkind : ∀ a, (kind t.maps a).isSome → kind (reg :: t.maps) a = kind t.maps a := by
    intro a ha
    obtain ⟨r, hr, hc⟩ := (kind_isSome (h.consistent.wf dst t ht)).mp ha
    have hnot : ¬ reg.Covers a := fun hrc => hdisjoint r hr a hrc hc
    rw [kind, kind, regionAt, regionAt, findRegion, if_neg hnot, map_map Position.reg]
    rfl
  have hstart : Copying src dst maps (reg :: t.maps)
      (m.setSpace dst { t with maps := reg :: t.maps }) := by
    refine ⟨h.consistent.setSpace hwf (fun n => ?_) fun n pte hpte hw hp => ?_,
      ⟨s, by rw [space_setSpace_ne m _ hne, hs], hsmaps⟩,
      ⟨_, space_setSpace .., rfl, fun n hn => ?_⟩⟩
    · rw [slot, ht]
      rfl
    · obtain ⟨file, hp⟩ := hp
      rw [hkind _ (hcovered n (isSome_of_eq_some hpte))] at hp
      exact h.consistent.exclusive (dst, n) _ ⟨t, pte, ht, hpte, rfl, hw, file, hp⟩
    · rw [hkind _ (hcovered n hn)]
      exact hcovered n hn
  have hpages : ∀ v ∈ pagesUpto reg.start (u64 (reg.start + reg.length)),
      ∀ maps', WellFormed maps' → reg ∈ maps' →
        kind maps' (v / pageSize * pageSize) = some (reg.file, reg.flags) := by
    intro v hv maps' hwf' hmem
    obtain ⟨hge, hlt, hdvd⟩ := mem_pagesUpto hv
    rw [Nat.div_mul_cancel (hdvd (hwf'.aligned reg hmem).start_dvd), kind,
      hwf'.regionAt_eq_some.mpr ⟨hmem, hge, hlt⟩]
    rfl
  refine foldlM_inv (fun v hv m₁ m₂ h₁ hcopy => h₁.copyPage hne ?_ ?_ hcopy) hstart hm
  · exact ⟨_, hpages v hv maps hmaps hreg⟩
  · exact ⟨_, hpages v hv _ hwf (by simp)⟩

/-- **`process_copy_mappings`** -/
theorem Copying.processCopyMappings (h : Copying src dst maps [] m) (hne : src ≠ dst)
    (hm : m.processCopyMappings src dst = some m') : Consistent m' := by
  obtain ⟨s, hs, rfl⟩ := h.source
  have hwf := h.consistent.wf src s hs
  unfold processCopyMappings at hm
  rw [hs, bind_eq_bind, bind_some] at hm
  -- The regions still to be copied and those already copied are the regions of the source.
  have hloop : ∀ (rest copied : List Region) (m : Machine), WellFormed (rest ++ copied) →
      (∀ r ∈ rest, r ∈ s.maps) → Copying src dst s.maps copied m →
      rest.foldlM (Machine.copyRegion src dst) m = some m' → Consistent m' := by
    intro rest
    induction rest with
    | nil =>
      intro copied m _ _ hcopy hm
      obtain rfl := some.inj hm
      exact hcopy.consistent
    | cons reg rest ih =>
      intro copied m hall hmem hcopy hm
      rw [foldlM_cons] at hm
      obtain ⟨m₁, hreg, hm⟩ := bind_eq_some_iff.mp hm
      have hone : WellFormed (reg :: copied) := by
        refine ⟨fun r hr => hall.aligned r ?_, hall.disjoint.sublist ?_⟩
        · rcases mem_cons.mp hr with rfl | hr
          · simp
          · simp [hr]
        · exact (sublist_append_right rest copied).cons_cons reg
      refine ih (reg :: copied) m₁ (hall.perm perm_middle.symm) (fun r hr => hmem r (by simp [hr]))
        (hcopy.copyRegion hne hwf (hmem reg (by simp)) hone hreg) hm
  exact hloop s.maps [] m (by simpa using hwf) (fun r hr => hr) h hm

/-- **`fork`** -/
theorem Consistent.fork (h : Consistent m) (hm : m.exec (.fork src dst) = some m') :
    Consistent m' := by
  unfold exec at hm
  dsimp only at hm
  split at hm
  · next hcall =>
    obtain ⟨s, hs⟩ := isSome_iff_exists.mp hcall.1
    have hdst : m.space dst = none := isNone_iff_eq_none.mp hcall.2
    have hne : src ≠ dst := by
      rintro rfl
      rw [hs] at hdst
      cases hdst
    have hcopying : Consistent (m.setSpace dst ⟨[], fun _ => none⟩) → Copying src dst s.maps []
        (m.setSpace dst ⟨[], fun _ => none⟩) := fun hconsistent =>
      ⟨hconsistent, ⟨s, by rw [space_setSpace_ne m _ hne, hs], rfl⟩,
        ⟨_, space_setSpace .., rfl, by simp⟩⟩
    refine (hcopying (h.setSpace ⟨by simp, .nil⟩ ?_ ?_)).processCopyMappings hne hm
    · intro n
      rw [slot, hdst]
      rfl
    · simp
  · cases hm

end Fork

/-! ## Changes of protection -/

/-- The step of process `p` at the address, if it is made through a private mapping, affects nobody
else. -/
def Isolated (m : Machine) (p addr : ℕ) (m' : Machine) : Prop :=
  ∀ s file, m.space p = some s → kind s.maps addr = some (file, .priv) → Unaffected p m m'

/-- Stores through private mappings, and the faults they lead to, affect nobody else. -/
def Event.Isolated (m : Machine) (e : Event) (m' : Machine) : Prop :=
  match e with
  | .store p addr _ => Paging.Isolated m p addr m'
  | .fault p addr _ _ _ => Paging.Isolated m p addr m'
  | .fork _ _ => True
  | .mprotect _ _ _ _ => True

/-- The entries that a change of protection makes writable in private mappings have frames of
their own. Its range starts at a page and ends before the last page of the address space. -/
def Event.Safe (m : Machine) : Event → Prop
  | .mprotect p virt len prot => ∀ s, m.space p = some s → virt < u64 (virt + len) →
    pageSize ∣ virt ∧ u64 (virt + len) + pageSize ≤ 2 ^ 64 ∧
      (prot.write = true → ∀ x pte, Touched s.maps prot virt (u64 (virt + len)) x →
        s.pages (x / pageSize) = some pte → Private s.maps (x / pageSize) →
        m.Exclusive (p, x / pageSize) pte.phys)
  | _ => True

/-- **`sys_mprotect`** -/
theorem Consistent.mprotect (h : Consistent m) {virt len : ℕ} {prot : Prot}
    (hsafe : (Event.mprotect p virt len prot).Safe m)
    (hm : m.exec (.mprotect p virt len prot) = some m') : Consistent m' := by
  obtain ⟨s, hs, hm⟩ := bind_eq_some_iff.mp hm
  obtain ⟨⟨s', r⟩, hprotect, hm⟩ := bind_eq_some_iff.mp hm
  obtain rfl := some.inj hm
  have hwf := h.wf p s hs
  by_cases hrange : virt < u64 (virt + len)
  · obtain ⟨hvirt, hstop, hexcl⟩ := hsafe s hs hrange
    obtain ⟨hwf', hkind, hpages⟩ := mapChangeProtect_pages hwf hvirt hrange hstop hprotect
    refine h.setSpace hwf' (fun n => ?_) fun n pte hpte hw ⟨file, hp⟩ => ?_
    · rw [slot, hs]
      rcases hpages n with heq | ⟨x, -, -, heq⟩
      · rw [heq]
        rfl
      · rw [heq, Option.map_map]
        rfl
    · rw [hkind] at hp
      rcases hpages n with heq | ⟨x, rfl, hx, heq⟩
      · exact h.exclusive (p, n) _ ⟨s, pte, hs, heq ▸ hpte, rfl, hw, file, hp⟩
      · rw [heq] at hpte
        obtain ⟨old, hold, rfl⟩ := map_eq_some_iff.mp hpte
        exact hexcl hw x old hx hold ⟨file, hp⟩
  · -- The loop does not run.
    have hsame : s' = s := by
      rw [mapChangeProtect, protectLoop, if_neg hrange] at hprotect
      exact (Prod.mk.inj (some.inj hprotect)).1.symm
    rw [hsame, setSpace_self hs]
    exact h

/-! ## Runs -/

theorem Consistent.store (h : Consistent m) {addr : ℕ} {byte : UInt8}
    (hm : m.store p addr byte = some m') : Consistent m' ∧ Isolated m p addr m' := by
  obtain ⟨s, hs, hm⟩ := bind_eq_some_iff.mp hm
  obtain ⟨pte, hpte, hm⟩ := bind_eq_some_iff.mp hm
  obtain ⟨hw, rfl⟩ := ite_some_none_eq_some.mp hm
  refine ⟨h.setMemory _, fun s' file hs' hkind => ?_⟩
  obtain rfl := some.inj (hs.symm.trans hs')
  rw [← kind_page (h.wf p s hs)] at hkind
  obtain ⟨halone, hcached⟩ :=
    h.exclusive (p, addr / pageSize) _ ⟨s, pte, hs, hpte, rfl, hw, file, hkind⟩
  refine .of_write _ (fun q n hq hslot => hq ?_) hcached
  exact congrArg Prod.fst (halone (q, n) hslot)

/-- **A step** keeps the machine consistent, and is isolated. -/
theorem Consistent.exec (h : Consistent m) {e : Event} (hsafe : e.Safe m)
    (hm : m.exec e = some m') : Consistent m' ∧ e.Isolated m m' := by
  cases e with
  | fork p child => exact ⟨h.fork hm, trivial⟩
  | fault p addr flags pick pick' =>
    obtain ⟨⟨m₁, success⟩, hfault, rfl⟩ := map_eq_some_iff.mp hm
    obtain ⟨h', hunaff⟩ := h.handleFault hfault
    exact ⟨h', fun _ _ _ _ => hunaff⟩
  | store p addr byte => exact h.store hm
  | mprotect p virt len prot => exact ⟨h.mprotect hsafe hm, trivial⟩

/-- **In every run whose changes of protection are safe, stores through private mappings change
nothing that another process reads, and no cached page of a file.** -/
theorem isolated_of_run {run : List (Event × Machine)} (h : Consistent m)
    (hrun : Along (fun m e m' => m.exec e = some m') m run)
    (hsafe : Along (fun m e _ => e.Safe m) m run) :
    Along (fun m e m' => e.Isolated m m') m run :=
  hrun.of_inv (fun _ _ _ hI hexec hs => hI.exec hs hexec) h hsafe

theorem consistent_of_unmapped (hwf : ∀ p s, m.space p = some s → WellFormed s.maps)
    (hpages : ∀ p s, m.space p = some s → ∀ n, s.pages n = none)
    (hfree : ∀ f, m.free f = true → m.count f = 0 ∧ ∀ k, m.inodePage k ≠ some f)
    (hcached : ∀ k f, m.inodePage k = some f → (m.frame f).flags.persist = true) :
    Consistent m := by
  have hslot : ∀ x f, m.slot x ≠ some f := by
    intro x f hx
    obtain ⟨s, pte, hs, hpte, -⟩ := slot_eq_some.mp hx
    rw [hpages _ s hs] at hpte
    cases hpte
  refine ⟨hwf, fun f => ?_, hfree, hcached, fun x f hx => absurd hx ?_⟩
  · have hempty : holders m.slot f = ∅ := Set.eq_empty_iff_forall_notMem.mpr fun x => hslot x f
    simp [hempty]
  · exact not_privateWritable (fun y => hslot y f) x

/-- A page of anonymous memory. -/
def heap : Region where
  start := 0x10000
  length := 0x1000
  file := { id := 0, write := true, inode := none }
  nodepage := 0
  prot := { read := true, write := true, exec := false }
  flags := .priv

/-- A machine with one process, which has not touched its memory. -/
def oneProcess : Machine where
  frame _ := { flags := {}, count := 0 }
  memory _ _ := 0
  free f := f ≠ 0
  inodePage _ := none
  disk _ _ := 0
  space p := if p = 1 then some { maps := [heap], pages := fun _ => none } else none

theorem oneProcess_consistent : Consistent oneProcess := by
  have hspace : ∀ p s, oneProcess.space p = some s →
      s = { maps := [heap], pages := fun _ => none } := by
    intro p s hs
    unfold oneProcess at hs
    dsimp only at hs
    split at hs
    · exact (some.inj hs).symm
    · cases hs
  refine consistent_of_unmapped (fun p s hs => ?_) (fun p s hs n => ?_) ?_ ?_
  · rw [hspace p s hs]
    exact ⟨by simpa using (by constructor <;> decide : heap.Aligned), pairwise_singleton _ _⟩
  · rw [hspace p s hs]
  · exact fun f _ => ⟨rfl, fun _ => (some_ne_none f).symm⟩
  · exact fun k f hk => absurd hk.symm (some_ne_none f)

/-- The process asks for a writable page, writes to it, forks, and writes once more: it gets a
copy, and the child reads what was there before. -/
theorem copied_page_isolated :
    ∃ run, run.map Prod.fst = [.mprotect 1 0x10000 0x1000 heap.prot,
        .fault 1 0x10000 ⟨false, true, false, true⟩ 5 6, .store 1 0x10000 7, .fork 1 2,
        .fault 1 0x10000 ⟨false, true, true, false⟩ 5 6, .store 1 0x10000 8] ∧
      Along (fun m e m' => m.exec e = some m') oneProcess run ∧
      Along (fun m e m' => e.Isolated m m') oneProcess run := by
  refine (exists_run exec (fun _ _ => True) (fun _ => True) oneProcess _
    (by decide +kernel)).imp fun run ⟨hevents, hrun, _⟩ => ⟨hevents, ?_⟩
  replace hrun := hrun.mono fun _ _ _ => And.right
  refine ⟨hrun, isolated_of_run oneProcess_consistent hrun ?_⟩
  obtain ⟨⟨e, m⟩, rest, rfl, rfl, hrest⟩ := map_eq_cons_iff.mp hevents
  refine ⟨fun s hs _ => ⟨by decide, by decide +kernel, fun _ x pte _ hpte _ => ?_⟩, .of_forall ?_⟩
  · obtain rfl := some.inj hs
    cases hpte
  · rw [hrest]
    simp [Event.Safe]

/-- The process writes to its page, forks, asks for a writable page, and writes once more: the
child reads the new value. -/
theorem protected_page_not_isolated :
    ∃ run, run.map Prod.fst = [.fault 1 0x10000 ⟨false, true, false, true⟩ 5 6, .fork 1 2,
        .mprotect 1 0x10000 0x1000 heap.prot, .store 1 0x10000 7] ∧
      Along (fun m e m' => m.exec e = some m') oneProcess run ∧
      ¬ Along (fun m e m' => e.Isolated m m') oneProcess run := by
  refine (exists_trace exec (fun _ _ => True) (fun run => run.map
      (fun x => (x.2.reads 2 0x10000, (x.2.space 1).bind fun s => kind s.maps 0x10000)) =
      [(none, some (heap.file, .priv)), (some 0, some (heap.file, .priv)),
        (some 0, some (heap.file, .priv)), (some 7, some (heap.file, .priv))]) oneProcess _
    (by decide +kernel)).imp fun run ⟨hevents, hrun, hviews⟩ =>
    ⟨hevents, hrun.mono fun _ _ _ => And.right, fun hisolated => ?_⟩
  obtain ⟨⟨e₁, m₁⟩, run, rfl, -, hviews⟩ := map_eq_cons_iff.mp hviews
  obtain ⟨⟨e₂, m₂⟩, run, rfl, -, hviews⟩ := map_eq_cons_iff.mp hviews
  obtain ⟨⟨e₃, m₃⟩, run, rfl, hbefore, hviews⟩ := map_eq_cons_iff.mp hviews
  obtain ⟨⟨e₄, m₄⟩, run, rfl, hafter, -⟩ := map_eq_cons_iff.mp hviews
  obtain ⟨-, -, -, rfl, -⟩ : e₁ = _ ∧ e₂ = _ ∧ e₃ = _ ∧ e₄ = _ ∧ _ := by simpa using hevents
  obtain ⟨hread, hkind⟩ := Prod.mk.inj hbefore
  obtain ⟨s, hs, hkind⟩ := bind_eq_some_iff.mp hkind
  have hsame := (hisolated.2.2.2.1 s _ hs hkind).reads 2 (by decide) 0x10000
  rw [hread, (Prod.mk.inj hafter).1] at hsame
  exact absurd hsame (by decide)

end SeaKernel.Paging
