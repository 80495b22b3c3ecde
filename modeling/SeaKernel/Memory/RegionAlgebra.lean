import SeaKernel.Memory.MappingRuns

/-!
# The algebra of regions

What the calls of `kernel/mapping.c` do to the set of addresses that are covered, and to the file,
the sharing and the protection of each of them. Seen from an address, how they split, trim and drop
regions does not show: a call is a change of a partial function on addresses, and the list of
regions of `Mapping` is one of many that give this function.

The page of the file that an address refers to is not part of this (`MappingRuns`: the calls do not
keep it).

## Main results

* `mapRegionRemove_attr`, `mapRegionSetup_attr`: removal and setup
* `mapChangeProtect_reprotected`: the change of protection
* `regions_of_calls`: sequences of calls keep the regions proper and have their effects
-/

namespace SeaKernel.Mapping

open List Option Region

/-- What a region says about its addresses, but for the page of the file. -/
structure Attr where
  file : File
  flags : Sharing
  prot : Prot
  deriving DecidableEq, Repr

/-- The attributes of a region. -/
def Region.attr (r : Region) : Attr := ⟨r.file, r.flags, r.prot⟩

/-- The attributes with another protection. -/
def Attr.setProt (prot : Prot) (t : Attr) : Attr := { t with prot := prot }

/-- The attributes of an address, if it is covered. -/
def attrAt (maps : List Region) (a : ℕ) : Option Attr := (regionAt maps a).map Region.attr

/-! ## Attributes of addresses -/

section Attributes

variable {maps maps' rest : List Region} {r x : Region} {a p q v : ℕ} {t : Attr}

theorem attrAt_eq_none : attrAt maps a = none ↔ ∀ r ∈ maps, ¬ r.Covers a := by
  rw [attrAt, map_eq_none_iff, regionAt_eq_none]

theorem Region.attr_cut : (r.cut p a).attr = r.attr := by
  rw [cut]
  split <;> rfl

end Attributes

/-! ## Removal -/

section Remove

variable {s s' : AddressSpace}

theorem RangeRemoved.attrAt_eq {maps maps' : List Region} {start stop : ℕ}
    (hrem : RangeRemoved maps maps' start stop) (a : ℕ) :
    attrAt maps' a = if start ≤ a ∧ a < stop then none else attrAt maps a := by
  rw [attrAt, hrem.regionAt_eq, attrAt]
  split
  · rfl
  · split
    · rw [Option.map_map]
      refine congrArg (Option.map · _) (funext fun r => ?_)
      rw [Function.comp_apply, attr_cut, attr_cut]
    · rfl

/-- **`map_region_remove`** takes its range out of what is covered. -/
theorem mapRegionRemove_attr {start len : ℕ} (h : Proper s.maps) (hs : pageSize ∣ start)
    (hl : pageSize ∣ len) (hfit : start + len < 2 ^ 64) :
    ∃ s', mapRegionRemove s start len = some s' ∧ Proper s'.maps ∧ ∀ a, attrAt s'.maps a =
      if start ≤ a ∧ a < start + len then none else attrAt s.maps a := by
  obtain ⟨s', hok, hrem⟩ := mapRegionRemove_spec h.toWellFormed hs hl
  rw [u64_of_lt hfit] at hrem
  exact ⟨s', hok, hrem.proper h, hrem.attrAt_eq⟩

/-- **`map_region_setup`** gives its range the attributes of the region. -/
theorem mapRegionSetup_attr {reg : Region} (h : Proper s.maps) (hreg : reg.Aligned)
    (hpos : 0 < reg.length) (hfit : reg.start + reg.length < 2 ^ 64) :
    ∃ s', mapRegionSetup s reg = some s' ∧ Proper s'.maps ∧ ∀ a, attrAt s'.maps a =
      if reg.start ≤ a ∧ a < reg.start + reg.length then some reg.attr else attrAt s.maps a := by
  obtain ⟨s₁, hok, h₁, hattr⟩ := mapRegionRemove_attr h hreg.start_dvd hreg.length_dvd hfit
  have hfree : ∀ a, reg.Covers a → ∀ r ∈ s₁.maps, ¬ r.Covers a := by
    intro a ha
    rw [covers_iff hfit] at ha
    exact attrAt_eq_none.mp ((hattr a).trans (if_pos ha))
  refine ⟨{ s₁ with maps := reg :: s₁.maps }, by rw [mapRegionSetup, hok]; rfl, ⟨⟨?_, ?_⟩, ?_, ?_⟩,
    fun a => ?_⟩
  · exact forall_mem_cons.mpr ⟨hreg, h₁.aligned⟩
  · exact pairwise_cons.mpr ⟨fun r hr a ha => hfree a ha r hr, h₁.disjoint⟩
  · exact forall_mem_cons.mpr ⟨hpos, h₁.pos⟩
  · exact forall_mem_cons.mpr ⟨hfit, h₁.fits⟩
  · dsimp only
    rw [attrAt, regionAt, findRegion]
    by_cases hc : reg.Covers a
    · rw [if_pos hc, if_pos ((covers_iff hfit).mp hc)]
      rfl
    · have hout : ¬ (reg.start ≤ a ∧ a < reg.start + reg.length) := by
        rwa [covers_iff hfit] at hc
      rw [if_neg hc, if_neg hout, map_map Position.reg]
      refine Eq.trans ?_ ((hattr a).trans (if_neg hout))
      rfl

end Remove

/-! ## Protection -/

/-- Write access is not denied from `start` up to `a`. -/
def Allowed (maps : List Region) (prot : Prot) (start a : ℕ) : Prop :=
  ∀ x, start ≤ x → x ≤ a → ¬ Denied maps prot x

/-- A change of protection from `start` up to `stop` sets the entry of the page `x`: the page it
starts with, or the first page of a region. -/
def Reached (maps : List Region) (prot : Prot) (start stop x : ℕ) : Prop :=
  start ≤ x ∧ x < stop ∧ (∃ r ∈ maps, r.Covers x ∧ (r.start = x ∨ x = start)) ∧
    Allowed maps prot start x

/-- What a change of protection from `start` up to `stop` comes to: the addresses before the first
one where write access is denied have the new protection, and the pages that were reached on the
way have entries with the new flags. -/
structure Reprotected (s s' : AddressSpace) (prot : Prot) (start stop : ℕ)
    (result : Except Errno Unit) : Prop where
  wf : WellFormed s'.maps
  proper : Proper s.maps → Proper s'.maps
  attr_in : ∀ a, start ≤ a → a < stop → Allowed s.maps prot start a →
    attrAt s'.maps a = (attrAt s.maps a).map (Attr.setProt prot)
  attr_out : ∀ a, ¬ (start ≤ a ∧ a < stop ∧ Allowed s.maps prot start a) →
    attrAt s'.maps a = attrAt s.maps a
  page_in : ∀ n, Reached s.maps prot start stop (n * pageSize) →
    s'.pages n = (s.pages n).map (Pte.setProt prot)
  page_out : ∀ n, ¬ Reached s.maps prot start stop (n * pageSize) → s'.pages n = s.pages n
  ok : (∀ x, start ≤ x → x < stop → ¬ Denied s.maps prot x) → result = .ok ()
  error : (∃ x, start ≤ x ∧ x < stop ∧ Denied s.maps prot x) → result = .error .eacces

section Loop

variable {s s' : AddressSpace} {prot : Prot} {virt len start stop a : ℕ}
  {result : Except Errno Unit} {e : ℕ}

theorem Changed.attrAt_eq (h : Changed s s' prot start e) (a : ℕ) :
    attrAt s'.maps a = if start ≤ a ∧ a < e then (attrAt s.maps a).map (Attr.setProt prot)
      else attrAt s.maps a := by
  rw [attrAt, h.regionAt_eq, attrAt, Option.map_map, Option.map_map, ← apply_ite (Option.map · _)]
  refine congrArg (Option.map · _) (funext fun r => ?_)
  have hset : ∀ r : Region, (r.setProt prot).attr = r.attr.setProt prot := fun _ => rfl
  rw [Function.comp_apply, protect]
  by_cases hin : start ≤ a ∧ a < e
  · rw [if_pos (by omega), if_pos hin, if_pos hin, hset, attr_cut, attr_cut]
    rfl
  · rw [if_neg hin, if_neg hin]
    split
    · rw [attr_cut, attr_cut]
    · rfl

theorem Outcome.lt_iff (h : Outcome s s' prot start stop result e) (hstop : pageSize ∣ stop)
    (ha : start ≤ a) : a < e ↔ a < stop ∧ Allowed s.maps prot start a := by
  have hle := h.le
  have hends := h.ends
  rw [pageCeil_of_dvd hstop] at hends
  constructor
  · intro hae
    refine ⟨?_, fun x hx hxa => h.allowed x hx (by omega)⟩
    rcases hends with ⟨-, he⟩ | ⟨-, he, -⟩ <;> omega
  · rintro ⟨has, hall⟩
    rcases hends with ⟨-, he⟩ | ⟨-, -, hd, -⟩
    · omega
    · by_contra hae
      exact hall e hle (by omega) hd

theorem Outcome.reprotected (h : Outcome s s' prot start stop result e) (hwf : WellFormed s.maps)
    (hstop : pageSize ∣ stop) : Reprotected s s' prot start stop result := by
  have hfirst : ∀ x, First s.maps start e x ↔ Reached s.maps prot start stop x := by
    intro x
    simp only [First, Reached, hwf.regionAt_eq_some, and_assoc]
    constructor
    · rintro ⟨hx, hxe, hr⟩
      obtain ⟨hxs, hall⟩ := (h.lt_iff hstop hx).mp hxe
      exact ⟨hx, hxs, hr, hall⟩
    · rintro ⟨hx, hxs, hr, hall⟩
      exact ⟨hx, (h.lt_iff hstop hx).mpr ⟨hxs, hall⟩, hr⟩
  refine ⟨h.changed.wf, h.proper hstop, fun a ha has hall => ?_, fun a hout => ?_,
    fun n hn => h.changed.page_in n ((hfirst _).mpr hn),
    fun n hn => h.changed.page_out n ((hfirst _).not.mpr hn), fun hall => ?_, ?_⟩
  · rw [h.changed.attrAt_eq, if_pos ⟨ha, (h.lt_iff hstop ha).mpr ⟨has, hall⟩⟩]
  · rw [h.changed.attrAt_eq, if_neg fun hin => hout ⟨hin.1, (h.lt_iff hstop hin.1).mp hin.2⟩]
  · rcases h.ends with ⟨hr, -⟩ | ⟨-, he, hd, -⟩
    · exact hr
    · exact absurd hd (hall e h.le he)
  · rintro ⟨x, hx, hxs, hd⟩
    rcases h.ends with ⟨-, he⟩ | ⟨hr, -⟩
    · rw [pageCeil_of_dvd hstop] at he
      exact absurd hd (h.allowed x hx (by omega))
    · exact hr

/-- **`map_change_protect`** gives the protection to what is covered in its range, up to the first
address where write access is denied. -/
theorem mapChangeProtect_reprotected (h : WellFormed s.maps) (hvirt : pageSize ∣ virt)
    (hlen : pageSize ∣ len) (hvlt : virt < 2 ^ 64) (prot : Prot) :
    ∃ s' result, mapChangeProtect s virt len prot = some (s', result) ∧
      Reprotected s s' prot virt (u64 (virt + len)) result ∧
      RangeProtected s.maps s'.maps prot virt (u64 (virt + len)) := by
  have hstop : pageSize ∣ u64 (virt + len) :=
    (Nat.dvd_mod_iff (by decide)).mpr (Nat.dvd_add hvirt hlen)
  obtain ⟨s', result, e, hok, hout, hprot⟩ := mapChangeProtect_spec h hvirt hlen hvlt prot
  exact ⟨s', result, hok, hout.reprotected h hstop, hprot⟩

end Loop

/-! ## Sequences of calls -/

/-- A call on an address space. -/
def execCall (s : AddressSpace) : Call → Option AddressSpace
  | .setup reg => mapRegionSetup s reg
  | .remove start len => mapRegionRemove s start len
  | .protect virt len prot => (mapChangeProtect s virt len prot).map Prod.fst

/-- The range of the call is page aligned and does not wrap; a region that is set up is not
empty. -/
def Call.InRange : Call → Prop
  | setup reg => reg.Aligned ∧ 0 < reg.length ∧ reg.start + reg.length < 2 ^ 64
  | remove start len => pageSize ∣ start ∧ pageSize ∣ len ∧ start + len < 2 ^ 64
  | protect virt len _ => pageSize ∣ virt ∧ pageSize ∣ len ∧ virt + len < 2 ^ 64

/-- What a call does to the attributes of addresses: a setup gives those of the region to its range,
a removal leaves the range without any, and a change of protection changes only the protection,
and only in its range. -/
def Call.Effect (maps maps' : List Region) : Call → Prop
  | setup reg => ∀ a, attrAt maps' a =
      if reg.start ≤ a ∧ a < reg.start + reg.length then some reg.attr else attrAt maps a
  | remove start len => ∀ a, attrAt maps' a =
      if start ≤ a ∧ a < start + len then none else attrAt maps a
  | protect virt len prot =>
    (∀ a, virt ≤ a → a < virt + len → Allowed maps prot virt a →
      attrAt maps' a = (attrAt maps a).map (Attr.setProt prot)) ∧
    ∀ a, ¬ (virt ≤ a ∧ a < virt + len ∧ Allowed maps prot virt a) →
      attrAt maps' a = attrAt maps a

theorem execCall_effect {s : AddressSpace} {c : Call} (h : Proper s.maps) (hc : c.InRange) :
    ∃ s', execCall s c = some s' ∧ Proper s'.maps ∧ c.Effect s.maps s'.maps := by
  cases c with
  | setup reg =>
    obtain ⟨hreg, hpos, hfit⟩ := hc
    exact mapRegionSetup_attr h hreg hpos hfit
  | remove start len =>
    obtain ⟨hs, hl, hfit⟩ := hc
    exact mapRegionRemove_attr h hs hl hfit
  | protect virt len prot =>
    obtain ⟨hv, hl, hfit⟩ := hc
    obtain ⟨s', result, hok, hre, -⟩ :=
      mapChangeProtect_reprotected h.toWellFormed hv hl (by omega) prot
    rw [u64_of_lt hfit] at hre
    refine ⟨s', ?_, hre.proper h, hre.attr_in, hre.attr_out⟩
    rw [execCall, hok]
    rfl

/-- **The algebra of regions.** In a sequence of calls, every call finishes and has its effect on
the attributes of addresses, and the regions stay disjoint and non-empty. -/
theorem regions_of_calls {s : AddressSpace} (h : Proper s.maps) (calls : List Call)
    (hcalls : ∀ c ∈ calls, c.InRange) :
    ∃ run, trace execCall s calls = some run ∧ After (fun s => Proper s.maps) s run ∧
      Along (fun s c t => c.Effect s.maps t.maps) s run := by
  induction calls generalizing s with
  | nil => exact ⟨[], rfl, after_nil.mpr h, along_nil⟩
  | cons c calls ih =>
    obtain ⟨hc, hrest⟩ := forall_mem_cons.mp hcalls
    obtain ⟨s', hok, h', heffect⟩ := execCall_effect h hc
    obtain ⟨run, hrun, hafter, halong⟩ := ih h' hrest
    refine ⟨(c, s') :: run, ?_, after_cons.mpr ⟨h, hafter⟩, along_cons.mpr ⟨heffect, halong⟩⟩
    rw [trace, hok, bind_some, hrun]
    rfl

/-- Read access only. -/
def readOnly : Prot := { read := true, write := false, exec := false }

theorem regions_of_three_calls :
    ∃ run, trace execCall noMappings [.setup threePages,
        .protect 0x11000 0x1000 readOnly, .remove 0x10000 0x1000] = some run ∧
      After (fun s => Proper s.maps) noMappings run ∧
      Along (fun s c t => c.Effect s.maps t.maps) noMappings run := by
  have hempty : Proper noMappings.maps :=
    ⟨⟨by simp [noMappings], .nil⟩, by simp [noMappings], by simp [noMappings]⟩
  refine regions_of_calls hempty _ ?_
  intro c hc
  simp only [mem_cons, not_mem_nil, or_false] at hc
  rcases hc with rfl | rfl | rfl
  · exact ⟨⟨by decide, by decide, by decide, by decide⟩, by decide, by decide⟩
  · exact ⟨by decide, by decide, by decide⟩
  · exact ⟨by decide, by decide, by decide⟩

/-- Anonymous memory from `0x10000` on, with all of its pages present and writable. -/
def writablePages (length : ℕ) : AddressSpace where
  maps := [{ start := 0x10000
             length := length
             file := { id := 0, write := true, inode := none }
             nodepage := 0
             prot := { read := true, write := true, exec := false }
             flags := .priv }]
  pages n := if 16 ≤ n ∧ n < 16 + length / pageSize then some ⟨n, true, false⟩ else none

theorem writablePages_wf {length : ℕ} (hl : pageSize ∣ length) (hlt : length < 2 ^ 64) :
    WellFormed (writablePages length).maps := by
  refine ⟨fun r hr => ?_, pairwise_singleton _ _⟩
  obtain rfl := mem_singleton.mp hr
  exact ⟨show pageSize ∣ 0x10000 by decide, hl, show 0x10000 < 2 ^ 64 by decide, hlt⟩

end SeaKernel.Mapping
