import SeaKernel.Lib.Run
import SeaKernel.Memory.MappingProtect

/-!
# Which file page an address refers to

An address `v` of a file mapping `r` refers to page `r.nodepage + (v - r.start) / page size` of the
file. A cut gives what lies behind it a new `start` and the old `nodepage`, so that its addresses
refer to other pages than before: the runs of `map_region_setup`, `map_region_remove` and
`map_change_protect` in which an address keeps its page are those that never cut a file mapping.

`map_region_setup` removes the earlier mappings of its range and then inserts the region. A run
shows both steps, so that an address whose mapping is replaced is seen without one in between.

## Main results

* `remove_step`, `setup_step`, `protect_step`: when a call keeps the pages of all addresses
* `stable_iff`: the stable runs
-/

namespace SeaKernel.Mapping

open List Option

/-- The page of the file, as `_fs_inode_map` computes it. -/
def Origin.page (o : Origin) (v : ℕ) : ℤ := o.nodepage + ((v - o.start) / pageSize : ℕ)

/-- The file and the page the address refers to, if a file is mapped there. -/
def target (maps : List Region) (v : ℕ) : Option (File × ℤ) :=
  (origin maps v).bind fun o => if o.file.inode.isSome then some (o.file, o.page v) else none

/-- The calls. -/
inductive Call where
  | setup (reg : Region)
  | remove (start len : ℕ)
  | protect (virt len : ℕ) (prot : Prot)

/-- The arguments are words and page aligned. -/
def Call.Aligned : Call → Prop
  | setup reg => reg.Aligned
  | remove start len => pageSize ∣ start ∧ pageSize ∣ len
  | protect virt len _ =>
    pageSize ∣ virt ∧ pageSize ∣ len ∧ virt < 2 ^ 64 ∧ len < 2 ^ 64

/-- The steps the calls are made of. -/
inductive Event where
  | remove (start len : ℕ)
  | insert (reg : Region)
  | protect (virt len : ℕ) (prot : Prot)

/-- The run of a sequence of calls. -/
inductive Runs : AddressSpace → List Call → List (Event × AddressSpace) → Prop
  | nil (s : AddressSpace) : Runs s [] []
  | setup {s s₁ s₂ : AddressSpace} {reg : Region} {calls : List Call}
      {run : List (Event × AddressSpace)}
      (hremove : mapRegionRemove s reg.start reg.length = some s₁)
      (hsetup : mapRegionSetup s reg = some s₂) (hrun : Runs s₂ calls run) :
      Runs s (.setup reg :: calls)
        ((.remove reg.start reg.length, s₁) :: (.insert reg, s₂) :: run)
  | remove {s s₁ : AddressSpace} {start len : ℕ} {calls : List Call}
      {run : List (Event × AddressSpace)} (hremove : mapRegionRemove s start len = some s₁)
      (hrun : Runs s₁ calls run) :
      Runs s (.remove start len :: calls) ((.remove start len, s₁) :: run)
  | protect {s s₁ : AddressSpace} {virt len : ℕ} {prot : Prot} {r : Except Errno Unit}
      {calls : List Call} {run : List (Event × AddressSpace)}
      (hprotect : mapChangeProtect s virt len prot = some (s₁, r)) (hrun : Runs s₁ calls run) :
      Runs s (.protect virt len prot :: calls) ((.protect virt len prot, s₁) :: run)

/-- **An address refers to one page of one file for as long as it is covered by a file mapping.** -/
def Stable (s : AddressSpace) (run : List (Event × AddressSpace)) : Prop :=
  ∀ v, ∀ part, part <:+: states s run → (∀ σ ∈ part, (target σ.maps v).isSome) →
    ∀ σ ∈ part, ∀ τ ∈ part, target σ.maps v = target τ.maps v

/-- The point lies strictly inside a file mapping. -/
def InsideFile (maps : List Region) (p : ℕ) : Prop :=
  ∃ r ∈ maps, r.file.inode.isSome ∧ r.start < p ∧ r.Covers p

instance (maps : List Region) (p : ℕ) : Decidable (InsideFile maps p) :=
  inferInstanceAs (Decidable (∃ r ∈ maps, _))

/-- The step does not cut a file mapping. A removal cuts at the end of its range. A change of
protection cuts at the start of its range, unless write access is denied there, and at the end,
unless it is denied on the way. -/
def Event.CutsNoFile (maps : List Region) : Event → Prop
  | remove start len =>
    start < u64 (start + len) → ¬ InsideFile maps (u64 (start + len))
  | insert _ => True
  | protect virt len prot =>
    virt < u64 (virt + len) →
      (Denied maps prot virt ∨ ¬ InsideFile maps virt) ∧
      ((∃ x, virt ≤ x ∧ x < u64 (virt + len) ∧ Denied maps prot x) ∨
        ¬ InsideFile maps (u64 (virt + len)))

/-- No address changes its target between the two lists. -/
def Keeps (maps maps' : List Region) : Prop :=
  ∀ v, (target maps v).isSome → (target maps' v).isSome → target maps v = target maps' v

/-! ## Cuts and targets -/

section Cuts

variable {maps maps' : List Region} {o : Origin} {p q v : ℕ} {c₁ c₂ : Bool}

theorem target_eq_some {t : File × ℤ} : target maps v = some t ↔
    ∃ o, origin maps v = some o ∧ o.file.inode.isSome ∧ t = (o.file, o.page v) := by
  rw [target, bind_eq_some_iff]
  refine exists_congr fun o => and_congr_right fun _ => ?_
  rw [ite_none_right_eq_some, some.injEq, eq_comm (a := t)]

theorem target_isSome :
    (target maps v).isSome ↔ ∃ o, origin maps v = some o ∧ o.file.inode.isSome := by
  rw [isSome_iff_exists]
  simp only [target_eq_some]
  exact ⟨fun ⟨_, o, ho, hf, _⟩ => ⟨o, ho, hf⟩, fun ⟨o, ho, hf⟩ => ⟨_, o, ho, hf, rfl⟩⟩

section

variable (ho : pageSize ∣ o.start)

include ho

variable (hp : pageSize ∣ p)

include hp

theorem Origin.page_rebase_lt (hcut : o.start < p ∧ p ≤ v) : (o.rebase p v).page v < o.page v := by
  have hlt : (v - p) / pageSize < (v - o.start) / pageSize := by
    simp only [pageSize] at *
    omega
  rw [rebase, if_pos hcut, page, page]
  dsimp only
  omega

omit hp in
omit ho in
theorem Origin.rebase_of_not (hcut : ¬ (o.start < p ∧ p ≤ v)) : o.rebase p v = o := if_neg hcut

theorem Origin.page_rebase_le : (o.rebase p v).page v ≤ o.page v := by
  by_cases hcut : o.start < p ∧ p ≤ v
  · exact (page_rebase_lt ho hp hcut).le
  · rw [rebase_of_not hcut]

theorem Origin.rebase_start_dvd : pageSize ∣ (o.rebase p v).start := by
  unfold rebase
  split
  · exact hp
  · exact ho

/-- **Two cuts keep the page where neither gives a new start.** -/
theorem Origin.page_cutIf_cutIf (hq : pageSize ∣ q) :
    ((o.cutIf c₁ p v).cutIf c₂ q v).page v = o.page v ↔
      (c₁ → ¬ (o.start < p ∧ p ≤ v)) ∧ (c₂ → ¬ (o.start < q ∧ q ≤ v)) := by
  -- A single cut, at `q`.
  have hone : (o.cutIf c₂ q v).page v = o.page v ↔ (c₂ → ¬ (o.start < q ∧ q ≤ v)) := by
    cases c₂ with
    | false => simp [cutIf]
    | true =>
      by_cases hcut : o.start < q ∧ q ≤ v
      · simpa [cutIf, hcut] using (page_rebase_lt ho hq hcut).ne
      · simp [cutIf, rebase_of_not hcut, hcut]
  by_cases hfirst : c₁ → ¬ (o.start < p ∧ p ≤ v)
  · have hsame : o.cutIf c₁ p v = o := by
      cases c₁ with
      | false => rfl
      | true => exact rebase_of_not (hfirst rfl)
    rw [hsame, hone, and_iff_right hfirst]
  · obtain ⟨rfl, hcut⟩ : c₁ = true ∧ o.start < p ∧ p ≤ v := by
      simpa only [Classical.not_imp, not_not] using hfirst
    have hlt : (o.cutIf true p v).page v < o.page v := page_rebase_lt ho hp hcut
    have hle : ((o.cutIf true p v).cutIf c₂ q v).page v ≤ (o.cutIf true p v).page v := by
      cases c₂ with
      | false => exact le_rfl
      | true => exact page_rebase_le (rebase_start_dvd ho hp) hq
    exact iff_of_false (hle.trans_lt hlt).ne fun h => hfirst h.1

end

theorem Origin.cutIf_file (c : Bool) (p v : ℕ) (o : Origin) : (o.cutIf c p v).file = o.file := by
  cases c
  · rfl
  · exact rebase_file p v o

theorem WellFormed.insideFile_of_origin (h : WellFormed maps) (ho : origin maps v = some o)
    (hf : o.file.inode.isSome) (hlt : o.start < p) (hle : p ≤ v) : InsideFile maps p := by
  obtain ⟨r, hr, hc, rfl⟩ := h.origin_eq_some.mp ho
  exact ⟨r, hr, hf, hlt, Covers.of_le hc hlt.le hle⟩

theorem WellFormed.target_cut (h : WellFormed maps) (hp : pageSize ∣ p) (hq : pageSize ∣ q)
    (ho : origin maps v = some o) (hf : o.file.inode.isSome)
    (ho' : origin maps' v = some ((o.cutIf c₁ p v).cutIf c₂ q v)) :
    (target maps' v).isSome ∧ (target maps v = target maps' v ↔
      (c₁ → ¬ (o.start < p ∧ p ≤ v)) ∧ (c₂ → ¬ (o.start < q ∧ q ≤ v))) := by
  have hstart : pageSize ∣ o.start := by
    obtain ⟨r, hr, -, rfl⟩ := h.origin_eq_some.mp ho
    exact (h.aligned r hr).start_dvd
  have hfile : ((o.cutIf c₁ p v).cutIf c₂ q v).file = o.file := by
    rw [Origin.cutIf_file, Origin.cutIf_file]
  have ht : target maps v = some (o.file, o.page v) := target_eq_some.mpr ⟨o, ho, hf, rfl⟩
  have ht' : target maps' v = some (o.file, ((o.cutIf c₁ p v).cutIf c₂ q v).page v) :=
    target_eq_some.mpr ⟨_, ho', by rwa [hfile], by rw [hfile]⟩
  refine ⟨by rw [ht']; rfl, ?_⟩
  rw [ht, ht', some.injEq, Prod.mk.injEq, eq_self, true_and, eq_comm,
    Origin.page_cutIf_cutIf hstart hp hq]

/-- **Cuts keep the targets if and only if they are not made inside a file mapping.** -/
theorem WellFormed.keeps_iff (h : WellFormed maps) (hp : pageSize ∣ p) (hq : pageSize ∣ q)
    (gone : ℕ → Prop) [DecidablePred gone] (hgp : c₁ → ¬ gone p) (hgq : ¬ gone q)
    (horigin : ∀ a, origin maps' a = if gone a then none else
      (origin maps a).map fun o => (o.cutIf c₁ p a).cutIf c₂ q a) :
    Keeps maps maps' ↔ (c₁ → ¬ InsideFile maps p) ∧ (c₂ → ¬ InsideFile maps q) := by
  -- Where nothing was removed, the targets are the same if no cut gives a new start.
  have hat : ∀ v o, ¬ gone v → origin maps v = some o → o.file.inode.isSome →
      (target maps' v).isSome ∧ (target maps v = target maps' v ↔
        (c₁ → ¬ (o.start < p ∧ p ≤ v)) ∧ (c₂ → ¬ (o.start < q ∧ q ≤ v))) := by
    intro v o hv ho hf
    refine h.target_cut hp hq ho hf ?_
    rw [horigin, if_neg hv, ho, map_some]
  constructor
  · intro hkeeps
    have hno : ∀ {x}, ¬ gone x → InsideFile maps x →
        ∃ o : Origin, o.start < x ∧ (c₁ → ¬ (o.start < p ∧ p ≤ x)) ∧
          (c₂ → ¬ (o.start < q ∧ q ≤ x)) := by
      rintro x hx ⟨r, hr, hf, hlt, hc⟩
      have ho := h.origin_eq_some.mpr ⟨r, hr, hc, rfl⟩
      obtain ⟨hsome, hiff⟩ := hat x _ hx ho hf
      exact ⟨_, hlt, hiff.mp (hkeeps x (target_isSome.mpr ⟨_, ho, hf⟩) hsome)⟩
    refine ⟨fun hc hin => ?_, fun hc hin => ?_⟩
    · obtain ⟨o, hlt, hfirst, -⟩ := hno (hgp hc) hin
      exact hfirst hc ⟨hlt, le_rfl⟩
    · obtain ⟨o, hlt, -, hsecond⟩ := hno hgq hin
      exact hsecond hc ⟨hlt, le_rfl⟩
  · rintro ⟨hfirst, hsecond⟩ v hv hv'
    obtain ⟨o, ho, hf⟩ := target_isSome.mp hv
    have hgone : ¬ gone v := by
      intro hg
      obtain ⟨o', ho', -⟩ := target_isSome.mp hv'
      rw [horigin, if_pos hg] at ho'
      cases ho'
    refine (hat v o hgone ho hf).2.mpr ⟨fun hc hcut => ?_, fun hc hcut => ?_⟩
    · exact hfirst hc (h.insideFile_of_origin ho hf hcut.1 hcut.2)
    · exact hsecond hc (h.insideFile_of_origin ho hf hcut.1 hcut.2)

end Cuts

/-! ## Steps -/

section Steps

variable {s s₁ : AddressSpace} {start len virt : ℕ} {prot : Prot} {reg : Region}

theorem remove_step (h : WellFormed s.maps) (hs : pageSize ∣ start) (hl : pageSize ∣ len)
    (hremove : mapRegionRemove s start len = some s₁) :
    RangeRemoved s.maps s₁.maps start (u64 (start + len)) ∧
      (Keeps s.maps s₁.maps ↔ (Event.remove start len).CutsNoFile s.maps) := by
  obtain ⟨s', hok, hrem⟩ := mapRegionRemove_spec h hs hl
  obtain rfl := some.inj (hremove.symm.trans hok)
  have hstop : pageSize ∣ u64 (start + len) :=
    (Nat.dvd_mod_iff (by decide)).mpr (Nat.dvd_add hs hl)
  have hiff : Keeps s.maps s₁.maps ↔ (false → ¬ InsideFile s.maps start) ∧
      (decide (start < u64 (start + len)) → ¬ InsideFile s.maps (u64 (start + len))) :=
    h.keeps_iff hs hstop (fun a => start ≤ a ∧ a < u64 (start + len)) (by simp) (by simp)
      fun a => by
      rw [hrem.origin_eq h]
      congr 1
      by_cases hlt : start < u64 (start + len)
      · simp only [hlt, if_true, decide_true]
        rfl
      · simp only [hlt, if_false, decide_false]
        exact map_id'.symm
  refine ⟨hrem, hiff.trans ?_⟩
  simp [Event.CutsNoFile]

theorem insert_step (hreg : reg.Aligned) (h : WellFormed s.maps)
    (hfree : ∀ a, reg.Covers a → origin s.maps a = none) :
    WellFormed (reg :: s.maps) ∧ Keeps s.maps (reg :: s.maps) := by
  refine ⟨⟨?_, ?_⟩, fun v hv _ => ?_⟩
  · exact forall_mem_cons.mpr ⟨hreg, h.aligned⟩
  · refine pairwise_cons.mpr ⟨fun r hr a ha => ?_, h.disjoint⟩
    exact origin_eq_none.mp (hfree a ha) r hr
  · obtain ⟨o, ho, -⟩ := target_isSome.mp hv
    have hnot : ¬ reg.Covers v := fun hc => by
      rw [hfree v hc] at ho
      cases ho
    have hsame : origin (reg :: s.maps) v = origin s.maps v := by
      rw [origin, origin, regionAt, regionAt, findRegion, if_neg hnot, map_map Position.reg]
      rfl
    rw [target, target, hsame]

theorem setup_step {s₂ : AddressSpace} (hreg : reg.Aligned) (h : WellFormed s.maps)
    (hremove : mapRegionRemove s reg.start reg.length = some s₁)
    (hsetup : mapRegionSetup s reg = some s₂) :
    WellFormed s₁.maps ∧ WellFormed s₂.maps ∧ Keeps s₁.maps s₂.maps ∧
      (Keeps s.maps s₁.maps ↔ (Event.remove reg.start reg.length).CutsNoFile s.maps) := by
  obtain ⟨hrem, hiff⟩ := remove_step h hreg.start_dvd hreg.length_dvd hremove
  have hmaps : s₂.maps = reg :: s₁.maps := by
    rw [mapRegionSetup, hremove] at hsetup
    rw [← some.inj hsetup]
  obtain ⟨hwf, hkeeps⟩ :=
    insert_step hreg hrem.wf fun a ha => (hrem.origin_eq h a).trans (if_pos ha)
  rw [hmaps]
  exact ⟨hrem.wf, hwf, hkeeps, hiff⟩

theorem protect_step {r : Except Errno Unit} (h : WellFormed s.maps) (hv : pageSize ∣ virt)
    (hl : pageSize ∣ len) (hvlt : virt < 2 ^ 64)
    (hprotect : mapChangeProtect s virt len prot = some (s₁, r)) :
    WellFormed s₁.maps ∧
      (Keeps s.maps s₁.maps ↔ (Event.protect virt len prot).CutsNoFile s.maps) := by
  obtain ⟨s', r', -, hok, -, hprot⟩ := mapChangeProtect_spec h hv hl hvlt prot
  obtain ⟨rfl, rfl⟩ := Prod.mk.inj (some.inj (hprotect.symm.trans hok))
  have hstop : pageSize ∣ u64 (virt + len) :=
    (Nat.dvd_mod_iff (by decide)).mpr (Nat.dvd_add hv hl)
  obtain ⟨c₁, c₂, hc₁, hc₂, horigin⟩ := hprot.origin_eq
  have hiff := h.keeps_iff hv hstop (fun _ => False) (by simp) (by simp) fun a => by
    rw [if_neg id]
    exact horigin a
  refine ⟨hprot.wf, hiff.trans ?_⟩
  rw [hc₁, hc₂, Event.CutsNoFile, and_imp, and_imp, ← imp_and]
  refine imp_congr_right fun hlt => and_congr ?_ ?_
  · rw [imp_iff_not_or, not_not]
  · rw [imp_iff_not_or]
    push Not
    rfl

end Steps

/-! ## Runs -/

theorem Runs.along_keeps_iff {s : AddressSpace} {calls : List Call}
    {run : List (Event × AddressSpace)} (hrun : Runs s calls run) (h : WellFormed s.maps)
    (hcalls : ∀ c ∈ calls, c.Aligned) :
    Along (fun s _ t => Keeps s.maps t.maps) s run ↔
      Along (fun s e _ => e.CutsNoFile s.maps) s run := by
  induction hrun with
  | nil s => exact Iff.rfl
  | @setup s s₁ s₂ reg calls run hremove hsetup hrun ih =>
    obtain ⟨hreg, hcalls⟩ := forall_mem_cons.mp hcalls
    obtain ⟨-, hwf, hkeeps, hiff⟩ := setup_step hreg h hremove hsetup
    exact and_congr hiff (and_congr (iff_of_true hkeeps trivial) (ih hwf hcalls))
  | @remove s s₁ start len calls run hremove hrun ih =>
    obtain ⟨hargs, hcalls⟩ := forall_mem_cons.mp hcalls
    obtain ⟨hrem, hiff⟩ := remove_step h hargs.1 hargs.2 hremove
    exact and_congr hiff (ih hrem.wf hcalls)
  | @protect s s₁ virt len prot r calls run hprotect hrun ih =>
    obtain ⟨⟨hv, hl, hvlt, hllt⟩, hcalls⟩ := forall_mem_cons.mp hcalls
    obtain ⟨hwf, hiff⟩ := protect_step h hv hl hvlt hprotect
    exact and_congr hiff (ih hwf hcalls)

theorem stable_iff_along_keeps {s : AddressSpace} {run : List (Event × AddressSpace)} :
    Stable s run ↔ Along (fun s _ t => Keeps s.maps t.maps) s run := by
  have hcomm : Along (fun s _ t => Keeps s.maps t.maps) s run ↔
      ∀ v, Along (fun s _ t => (target s.maps v).isSome → (target t.maps v).isSome →
        target s.maps v = target t.maps v) s run := by
    rw [← isChain_states]
    simp only [← isChain_states, isChain_iff_forall_rel_of_append_cons_cons]
    exact ⟨fun h v σ τ _ _ heq => h heq v, fun h σ τ _ _ heq v => h v heq⟩
  rw [hcomm]
  exact forall_congr' fun v => constant_iff_along fun σ : AddressSpace => target σ.maps v

/-- **The runs in which addresses keep their file pages are those that never cut a file
mapping.** -/
theorem stable_iff {s : AddressSpace} {calls : List Call} {run : List (Event × AddressSpace)}
    (h : WellFormed s.maps) (hcalls : ∀ c ∈ calls, c.Aligned) (hrun : Runs s calls run) :
    Stable s run ↔ Along (fun s e _ => e.CutsNoFile s.maps) s run :=
  stable_iff_along_keeps.trans (hrun.along_keeps_iff h hcalls)

/-- A process without mappings. -/
def noMappings : AddressSpace := { maps := [], pages := fun _ => none }

/-- Three pages of a file, mapped from its beginning. -/
def threePages : Region where
  start := 0x10000
  length := 0x3000
  file := { id := 1, write := false, inode := some 7 }
  nodepage := 0
  prot := { read := true, write := false, exec := false }
  flags := .priv

theorem setup_remove_runs (start : ℕ) (maps : List Region)
    (hmaps : (mapRegionRemove { noMappings with maps := [threePages] } start 0x1000).map
      AddressSpace.maps = some maps) :
    ∃ s, s.maps = maps ∧ Runs noMappings [.setup threePages, .remove start 0x1000]
      [(.remove 0x10000 0x3000, noMappings),
        (.insert threePages, { noMappings with maps := [threePages] }),
        (.remove start 0x1000, s)] := by
  obtain ⟨s, hremove, hs⟩ := map_eq_some_iff.mp hmaps
  have hempty : mapRegionRemove noMappings 0x10000 0x3000 = some noMappings := by
    unfold mapRegionRemove
    generalize pagesUpto 0x10000 (u64 (0x10000 + 0x3000)) = l
    induction l with
    | nil => rfl
    | cons v l ih => exact ih
  have hsetup : mapRegionSetup noMappings threePages =
      some { noMappings with maps := [threePages] } := by
    rw [mapRegionSetup, show threePages.start = 0x10000 from rfl,
      show threePages.length = 0x3000 from rfl, hempty]
    rfl
  exact ⟨s, hs, .setup hempty hsetup (.remove hremove (.nil s))⟩

theorem setup_remove_aligned {start : ℕ} (hstart : pageSize ∣ start) :
    ∀ c ∈ [Call.setup threePages, .remove start 0x1000], c.Aligned := by
  have hpages : threePages.Aligned := by
    constructor <;> decide
  simpa [Call.Aligned, hstart, hpages] using (by decide : pageSize ∣ 0x1000)

theorem remove_last_stable :
    ∃ run, Runs noMappings [.setup threePages, .remove 0x12000 0x1000] run ∧
      Stable noMappings run := by
  obtain ⟨s, -, hruns⟩ := setup_remove_runs 0x12000
    [{ threePages with length := 0x2000 }] (by decide +kernel)
  refine ⟨_, hruns, (stable_iff ⟨by simp [noMappings], .nil⟩ ?_ hruns).mpr ?_⟩
  · exact setup_remove_aligned (by decide)
  · refine ⟨fun _ => ?_, trivial, fun _ => ?_, trivial⟩
    · decide +kernel
    · decide +kernel

/-- The first page of the mapping is removed: the last address referred to page 2 of the file
and refers to page 1 now. -/
theorem remove_first_not_stable :
    ∃ run, Runs noMappings [.setup threePages, .remove 0x10000 0x1000] run ∧
      ¬ Stable noMappings run := by
  obtain ⟨s, hs, hruns⟩ := setup_remove_runs 0x10000
    [{ threePages with start := 0x11000, length := 0x2000 }] (by decide +kernel)
  refine ⟨_, hruns, fun hstable => ?_⟩
  have hbefore : target [threePages] 0x12fff = some (threePages.file, 2) := by decide +kernel
  have hafter : target s.maps 0x12fff = some (threePages.file, 1) := by
    rw [hs]
    decide +kernel
  have heq := hstable 0x12fff [{ noMappings with maps := [threePages] }, s]
    ⟨[noMappings, noMappings], [], rfl⟩ (by simp [hbefore, hafter])
    _ mem_cons_self s (by simp)
  rw [hbefore, hafter] at heq
  exact absurd heq (by decide)

end SeaKernel.Mapping
