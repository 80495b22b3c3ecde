import SeaKernel.Lib.Rounds
import SeaKernel.Memory.Resize

/-!
# Whether the calls on regions come to an end

`map_region_remove` and `map_change_protect` go through a range page by page and split the regions
they meet at the page boundary behind the address they have come to. If that address is not the
one of a page, the region still covers it after the split, and the next round finds the same
region: each round adds an empty region to the list, and the loop goes on forever.

For `map_region_remove` this is the only way not to end. `map_change_protect` steps by the length of
the part it has changed: as long as it splits no region at a wrong place, every round takes it
ahead. It may also go round at the end of the address space.

## Main results

* `removeEnds_iff`: which removals come to an end
* `protectRegion_ahead`, `protectEnds_of_regular`: the rounds of a change of protection go ahead,
  and it comes to an end
* `calls_end`: the same for the ranges that the system calls pass on
-/

namespace SeaKernel.Mapping

open List Option Nat Region Position

/-- `map_region_remove` comes to an end. -/
def RemoveEnds (s : AddressSpace) (start len : ℕ) : Prop :=
  Ends (fun rounds s => (pagesUpto start (u64 (start + len))).foldlM (removePage rounds) s) s

/-- The loop of `map_change_protect`, with the address it has come to as a part of the state. -/
def protectRounds (virt len : ℕ) (prot : Prot) (rounds : ℕ) (x : AddressSpace × ℕ) :
    Option (AddressSpace × Except Errno Unit) :=
  protectLoop virt len prot rounds x.1 x.2

/-- `map_change_protect` comes to an end. -/
def ProtectEnds (s : AddressSpace) (virt len : ℕ) (prot : Prot) : Prop :=
  Ends (protectRounds virt len prot) (s, virt)

/-- The region that is found at each of the `n` addresses from `v` on, a page apart, starts at one
of them and is the one found from there on. -/
def Removable (maps : List Region) (v n : ℕ) : Prop :=
  ∀ k < n, ∀ r, regionAt maps (v + k * pageSize) = some r → ∃ j ≤ k, r.start = v + j * pageSize ∧
    ∀ i, j ≤ i → i ≤ k → regionAt maps (v + i * pageSize) = some r

/-- One round of the loop of `map_change_protect`, if there is another one behind it. -/
def protectNext (virt len : ℕ) (prot : Prot) (x : AddressSpace × ℕ) : Option (AddressSpace × ℕ) :=
  if x.2 < u64 (virt + len) then
    match findRegion x.1.maps x.2 with
    | none => some (x.1, u64 (x.2 + pageSize))
    | some p =>
      if prot.write && !p.reg.file.write then none
      else some (protectRegion x.1 virt len prot x.2 p)
  else none

/-- The state of the loop after some rounds. -/
def protectState (virt len : ℕ) (prot : Prot) :
    ℕ → AddressSpace × ℕ → Option (AddressSpace × ℕ)
  | 0, x => some x
  | n + 1, x => (protectNext virt len prot x).bind (protectState virt len prot n)

/-- Before a round at an address: if no region is found, the address is not in the last page. If one
is found and access is not denied, the address is that of a page or the start of the region; and if
the region reaches over the end of the range, that end is not in the last page. -/
structure Regular (maps : List Region) (prot : Prot) (stop x : ℕ) : Prop where
  skip : findRegion maps x = none → x + pageSize < 2 ^ 64
  split : ∀ p, findRegion maps x = some p → (prot.write && !p.reg.file.write) = false →
    pageSize ∣ x ∨ p.reg.start = x
  fits : ∀ p, findRegion maps x = some p → (prot.write && !p.reg.file.write) = false →
    p.reg.start + p.reg.length ≤ stop ∨ pageCeil stop < 2 ^ 64

/-- Every round from a state on is regular. -/
def AllRegular (virt len : ℕ) (prot : Prot) (x : AddressSpace × ℕ) : Prop :=
  ∀ n t, protectState virt len prot n x = some t → t.2 < u64 (virt + len) →
    Regular t.1.maps prot (u64 (virt + len)) t.2

/-! ## Regions that are found -/

section Found

variable {maps before after : List Region} {r r' x y : Region} {p : Position} {a b : ℕ}

theorem mem_of_regionAt (h : regionAt maps a = some r) : r ∈ maps ∧ r.Covers a := by
  obtain ⟨p, hp, rfl⟩ := map_eq_some_iff.mp h
  obtain ⟨rfl, hc⟩ := findRegion_some hp
  exact ⟨by simp [list], hc⟩

theorem findRegion_before (h : findRegion maps a = some p) : ∀ r ∈ p.before, ¬ r.Covers a := by
  induction maps generalizing p with
  | nil => cases h
  | cons b maps ih =>
    rw [findRegion] at h
    split at h
    · obtain rfl := some.inj h
      exact forall_mem_nil _
    · next hc =>
      obtain ⟨q, hq, rfl⟩ := map_eq_some_iff.mp h
      exact forall_mem_cons.mpr ⟨hc, ih hq⟩

theorem regionAt_append_of_not (h : ∀ r ∈ before, ¬ r.Covers a) :
    regionAt (before ++ after) a = regionAt after a := by
  induction before with
  | nil => rfl
  | cons b before ih =>
    rw [cons_append, regionAt_cons, if_neg (h b (by simp))]
    exact ih fun r hr => h r (mem_cons_of_mem _ hr)

theorem regionAt_unique (hx : regionAt maps a = some x) (hy : regionAt maps b = some y)
    (hxb : x.Covers b) (hya : y.Covers a) : x = y := by
  induction maps with
  | nil => cases hx
  | cons r maps ih =>
    rw [regionAt_cons] at hx hy
    by_cases hra : r.Covers a
    · rw [if_pos hra] at hx
      obtain rfl := some.inj hx
      rw [if_pos hxb] at hy
      exact some.inj hy
    · have hrb : ¬ r.Covers b := by
        intro hrb
        rw [if_pos hrb] at hy
        exact hra (some.inj hy ▸ hya)
      rw [if_neg hra] at hx
      rw [if_neg hrb] at hy
      exact ih hx hy

theorem regionAt_replace (hr : r ∉ before) (hcov : r'.Covers a ↔ r.Covers a) :
    regionAt (before ++ r' :: after) a =
      (regionAt (before ++ r :: after) a).map fun q => if q = r then r' else q := by
  induction before with
  | nil =>
    simp only [nil_append, regionAt_cons, hcov]
    by_cases hc : r.Covers a
    · simp [hc]
    · rw [if_neg hc, if_neg hc]
      cases hq : regionAt after a with
      | none => rfl
      | some q =>
        have hne : q ≠ r := fun heq => hc (heq ▸ (mem_of_regionAt hq).2)
        simp [hne]
  | cons b before ih =>
    have hb : b ≠ r := fun heq => hr (by simp [heq])
    rw [cons_append, cons_append, regionAt_cons, regionAt_cons]
    by_cases hc : b.Covers a
    · simp [hc, hb]
    · rw [if_neg hc, if_neg hc]
      exact ih fun h => hr (mem_cons_of_mem _ h)

theorem regionAt_drop (hcov : ¬ r.Covers a) :
    regionAt (before ++ after) a = regionAt (before ++ r :: after) a := by
  induction before with
  | nil => rw [nil_append, nil_append, regionAt_cons, if_neg hcov]
  | cons b before ih =>
    rw [cons_append, cons_append, regionAt_cons, regionAt_cons, ih]

end Found

/-! ## Removal -/

/-- The region without its first page. -/
def Region.dropPage (r : Region) : Region :=
  { r with
    start := u64 (r.start + pageSize)
    length := if r.length < pageSize then 0 else r.length - pageSize }

section Remove

variable {s s' : AddressSpace} {p : Position} {r r' : Region} {maps maps' : List Region}
  {a v n rounds : ℕ}

theorem Region.dropPage_covers (hfit : r.start + pageSize < 2 ^ 64)
    (ha : r.start + pageSize ≤ a) : r.dropPage.Covers a ↔ r.Covers a := by
  unfold dropPage
  by_cases hlen : r.length < pageSize
  · rw [if_pos hlen]
    simp only [Covers, u64, pageSize] at *
    omega
  · rw [if_neg hlen]
    simp only [Covers, u64, pageSize] at *
    omega

theorem removePage_front (hfind : findRegion s.maps v = some p) (hstart : p.reg.start = v) :
    removePage (rounds + 1) s v =
      some (settle (s.virtualUnmap v) { p with reg := p.reg.dropPage }) := by
  rw [removePage, hfind]
  exact if_pos hstart.symm

theorem settle_regionAt (hfind : findRegion s.maps v = some p) (hstart : p.reg.start = v)
    (hfit : v + pageSize < 2 ^ 64) (ha : v + pageSize ≤ a) :
    regionAt (settle (s.virtualUnmap v) { p with reg := p.reg.dropPage }).maps a =
      (regionAt s.maps a).map fun q => if q = p.reg then p.reg.dropPage else q := by
  obtain ⟨hlist, hc⟩ := findRegion_some hfind
  have hcov : p.reg.dropPage.Covers a ↔ p.reg.Covers a :=
    dropPage_covers (by omega) (by omega)
  have hbefore : p.reg ∉ p.before := fun hmem => findRegion_before hfind _ hmem hc
  have hreplace : regionAt (p.before ++ p.reg.dropPage :: p.after) a =
      (regionAt p.list a).map fun q => if q = p.reg then p.reg.dropPage else q :=
    regionAt_replace hbefore hcov
  rw [settle_maps, hlist]
  split
  · next hempty =>
    have hnot : ¬ p.reg.dropPage.Covers a := by
      rintro ⟨hge, hlt⟩
      simp only [u64] at hge hlt hempty
      omega
    rw [← regionAt_drop hnot] at hreplace
    exact hreplace
  · exact hreplace

theorem splitRegion_inside (hv : ¬ pageSize ∣ v) (hfit : v + pageSize < 2 ^ 64)
    (hle : r.start ≤ v) :
    v < pageCeil v ∧ pageCeil v < 2 ^ 64 ∧ splitRegion r v =
      ({ r with length := pageCeil v - r.start },
        { r with start := pageCeil v, length := sub64 r.length (pageCeil v - r.start) }) := by
  have hceil : 0 < v ∧ v < pageCeil v ∧ pageCeil v < 2 ^ 64 := by
    simp only [pageCeil, pageSize] at *
    omega
  refine ⟨hceil.2.1, hceil.2.2, ?_⟩
  rw [splitRegion, u64_split hceil.1 hceil.2.2, sub64_of_le hceil.2.2 (by omega)]

/-- **An address inside of a page and of a region is never left**: the region is split behind the
address, over and over. -/
theorem removePage_stuck (hv : ¬ pageSize ∣ v) (hfit : v + pageSize < 2 ^ 64)
    (hat : regionAt s.maps v = some r) (hne : r.start ≠ v) :
    ¬ Ends (fun rounds s => removePage rounds s v) s := by
  refine not_ends_of_inv (I := fun s => ∃ r, regionAt s.maps v = some r ∧ r.start ≠ v)
    (fun _ _ => rfl) ?_ ⟨r, hat, hne⟩
  rintro s ⟨r, hat, hne⟩
  obtain ⟨p, hfind, rfl⟩ := map_eq_some_iff.mp hat
  obtain ⟨hlist, hc⟩ := findRegion_some hfind
  have hle := hc.1
  obtain ⟨hlt, hceil, hsplit⟩ := splitRegion_inside hv hfit hle
  refine ⟨settle s { p with
    before := { p.reg with
      start := pageCeil v
      length := sub64 p.reg.length (pageCeil v - p.reg.start) } :: p.before
    reg := { p.reg with length := pageCeil v - p.reg.start } }, ?_, ?_⟩
  · -- The old part ends at the next page boundary, so it covers the address.
    refine ⟨{ p.reg with length := pageCeil v - p.reg.start }, ?_, hne⟩
    have hlow : Region.Covers { p.reg with length := pageCeil v - p.reg.start } v := by
      rw [covers_iff (by dsimp only; omega)]
      dsimp only
      omega
    have hhigh : ¬ Region.Covers { p.reg with
        start := pageCeil v
        length := sub64 p.reg.length (pageCeil v - p.reg.start) } v :=
      fun hcov => absurd hcov.1 (by dsimp only; omega)
    rw [settle_maps, if_neg (by dsimp only; omega), list, cons_append, regionAt_cons,
      if_neg hhigh, regionAt_append_of_not (findRegion_before hfind), regionAt_cons, if_pos hlow]
  · intro rounds
    have hfloor : v ≠ pageFloor (u64 (p.reg.start + p.reg.length)) := by
      intro heq
      refine hv ?_
      rw [heq, pageFloor]
      exact dvd_sub_mod _
    dsimp only
    rw [removePage, hfind]
    dsimp only
    rw [if_neg (Ne.symm hne), if_neg hfloor, hsplit]

theorem removePage_succ (h : removePage rounds s v = some s') :
    removePage (rounds + 1) s v = some s' := by
  induction rounds generalizing s with
  | zero => cases h
  | succ rounds ih =>
    rw [removePage] at h ⊢
    cases hfind : findRegion s.maps v with
    | none => rwa [hfind] at h
    | some p =>
      rw [hfind] at h
      dsimp only at h ⊢
      split at h
      · next hfront => rwa [if_pos hfront]
      · next hfront =>
        rw [if_neg hfront]
        split at h
        · next hlast => rwa [if_pos hlast]
        · next hlast =>
          rw [if_neg hlast]
          exact ih h

/-! ### Addresses inside of pages -/

theorem removable_zero : Removable maps v 0 := fun _ hk => absurd hk (not_lt_zero _)

/-- Each region that is found starts at the address, or was found a page before it. -/
theorem removable_succ_iff : Removable maps v (n + 1) ↔
    (∀ r, regionAt maps v = some r → r.start = v) ∧
    ∀ k < n, ∀ r, regionAt maps (v + pageSize + k * pageSize) = some r →
      r.start = v + pageSize + k * pageSize ∨ regionAt maps (v + k * pageSize) = some r := by
  have hshift : ∀ i, v + pageSize + i * pageSize = v + (i + 1) * pageSize := fun i => by ring
  simp only [hshift]
  constructor
  · intro hrem
    refine ⟨fun r hr => ?_, fun k hk r hr => ?_⟩
    · obtain ⟨j, hj, hstart, -⟩ := hrem 0 (by omega) r (by rwa [Nat.zero_mul, Nat.add_zero])
      obtain rfl : j = 0 := by omega
      rwa [Nat.zero_mul, Nat.add_zero] at hstart
    · obtain ⟨j, hj, hstart, hfound⟩ := hrem (k + 1) (by omega) r hr
      rcases hj.eq_or_lt with rfl | hlt
      · exact .inl hstart
      · exact .inr (hfound k (by omega) (by omega))
  · rintro ⟨hfirst, hnext⟩ k
    induction k with
    | zero =>
      intro _ r hr
      refine ⟨0, le_rfl, ?_, fun i _ hi => ?_⟩
      · rw [Nat.zero_mul, Nat.add_zero] at hr ⊢
        exact hfirst r hr
      · obtain rfl : i = 0 := by omega
        exact hr
    | succ k ih =>
      intro hk r hr
      obtain hstart | hbefore := hnext k (by omega) r hr
      · refine ⟨k + 1, le_rfl, hstart, fun i hi hi' => ?_⟩
        obtain rfl : i = k + 1 := by omega
        exact hr
      · obtain ⟨j, hj, hstart, hfound⟩ := ih (by omega) r hbefore
        refine ⟨j, by omega, hstart, fun i hi hi' => ?_⟩
        rcases hi'.eq_or_lt with rfl | hlt
        · exact hr
        · exact hfound i hi (by omega)

theorem removable_succ_of_none (h : regionAt maps v = none) :
    Removable maps v (n + 1) ↔ Removable maps (v + pageSize) n := by
  have hshift : ∀ x i, x + (i + 1) * pageSize = x + pageSize + i * pageSize := fun x i => by ring
  have hfirst : ∀ r, regionAt maps v = some r → r.start = v := by
    intro r hr
    rw [h] at hr
    cases hr
  rw [removable_succ_iff, and_iff_right hfirst]
  cases n with
  | zero => exact iff_of_true nofun removable_zero
  | succ n =>
    rw [removable_succ_iff, forall_lt_succ_left]
    simp only [hshift, Nat.zero_mul, Nat.add_zero, h, reduceCtorEq, or_false]

/-- The region found at the first address starts there, and has lost its first page in the new
list. -/
theorem removable_succ_of_front (h : regionAt maps v = some r) (hstart : r.start = v)
    (hstart' : r'.start = v + pageSize)
    (hcov : ∀ a, v + pageSize ≤ a → (r'.Covers a ↔ r.Covers a))
    (hfound' : ∀ a, v + pageSize ≤ a →
      regionAt maps' a = (regionAt maps a).map fun q => if q = r then r' else q) :
    Removable maps v (n + 1) ↔ Removable maps' (v + pageSize) n := by
  have hpos : 0 < pageSize := by decide
  have hshift : ∀ x i, x + (i + 1) * pageSize = x + pageSize + i * pageSize := fun x i => by ring
  have hfirst : ∀ q, regionAt maps v = some q → q.start = v := by
    intro q hq
    rw [h] at hq
    exact some.inj hq ▸ hstart
  have hall : ∀ {a}, v + pageSize ≤ a → ∀ C : Region → Prop,
      ((∀ q, regionAt maps a = some q → C (if q = r then r' else q)) ↔
        ∀ q, regionAt maps' a = some q → C q) := by
    intro a ha C
    rw [hfound' a ha]
    constructor
    · intro hC q hq
      obtain ⟨x, hx, rfl⟩ := map_eq_some_iff.mp hq
      exact hC x hx
    · exact fun hC q hq => hC _ (by rw [hq, map_some])
  have hsame : ∀ {a b q}, v + pageSize ≤ b → b ≤ a → regionAt maps a = some q →
      (regionAt maps' b = some (if q = r then r' else q) ↔ regionAt maps b = some q) := by
    intro a b q hb hba hqa
    have hq := (mem_of_regionAt hqa).2
    rw [hfound' b hb]
    refine ⟨fun hmap => ?_, fun hqb => by rw [hqb, map_some]⟩
    obtain ⟨x, hxb, heq⟩ := map_eq_some_iff.mp hmap
    have hx := (mem_of_regionAt hxb).2
    -- Otherwise one of them is what is left of the other one, and each would be found first.
    by_cases hxr : x = r <;> by_cases hqr : q = r
    · rw [hxb, hxr, hqr]
    · rw [if_pos hxr, if_neg hqr] at heq
      have hxa : x.Covers a := hxr ▸ (hcov a (hb.trans hba)).mp (heq ▸ hq)
      rw [hxb, regionAt_unique hxb hqa hxa (heq ▸ (hcov b hb).mpr (hxr ▸ hx))]
    · rw [if_neg hxr, if_pos hqr] at heq
      have hqb : q.Covers b := Covers.of_le hq (by rw [hqr, hstart]; omega) hba
      rw [hxb, regionAt_unique hxb hqa (heq ▸ (hcov a (hb.trans hba)).mpr (hqr ▸ hq)) hqb]
    · rw [if_neg hxr, if_neg hqr] at heq
      rw [hxb, heq]
  rw [removable_succ_iff, and_iff_right hfirst]
  cases n with
  | zero => exact iff_of_true nofun removable_zero
  | succ n =>
    rw [removable_succ_iff, forall_lt_succ_left]
    simp only [hshift, Nat.zero_mul, Nat.add_zero]
    refine and_congr (Iff.trans ?_ (hall le_rfl _)) (forall₂_congr fun k _ =>
      Iff.trans ?_ (hall (by omega) _))
    · refine forall₂_congr fun q _ => ?_
      by_cases hqr : q = r
      · rw [if_pos hqr]
        exact iff_of_true (.inr (hqr ▸ h)) hstart'
      · rw [if_neg hqr, or_iff_left fun hq => hqr (some.inj (hq.symm.trans h))]
    · refine forall₂_congr fun q hq => ?_
      rw [hsame (by omega) (by omega) hq]
      by_cases hqr : q = r
      · rw [if_pos hqr, hqr, hstart, hstart', or_iff_right (by omega), or_iff_right (by omega)]
      · rw [if_neg hqr]

/-- **The loop of `map_region_remove` from an address inside of a page** comes to an end exactly if
every region on the way starts where the loop comes to. -/
theorem removePages_isSome_iff (hv : ¬ pageSize ∣ v) (hfit : v + n * pageSize < 2 ^ 64)
    (rounds : ℕ) :
    (((List.range n).map fun i => v + i * pageSize).foldlM (removePage (rounds + 1)) s).isSome ↔
      Removable s.maps v n := by
  induction n generalizing s v with
  | zero => exact iff_of_true rfl removable_zero
  | succ n ih =>
    have hpages : ((range (n + 1)).map fun i => v + i * pageSize) =
        v :: (range n).map fun i => v + pageSize + i * pageSize := by
      rw [List.range_succ_eq_map, List.map_cons, List.map_map]
      refine congrArg₂ _ (by simp) (map_congr_left fun i _ => ?_)
      simp only [Function.comp_apply, Nat.succ_eq_add_one]
      ring
    have hnext : ¬ pageSize ∣ v + pageSize := by
      rwa [Nat.dvd_add_left dvd_rfl]
    have hfit' : v + pageSize + n * pageSize < 2 ^ 64 := by
      rw [show v + pageSize + n * pageSize = v + (n + 1) * pageSize by ring]
      exact hfit
    rw [hpages]
    cases hat : regionAt s.maps v with
    | none =>
      have hnone : removePage (rounds + 1) s v = some s := by
        rw [removePage, map_eq_none_iff.mp hat]
      rw [foldlM_cons_some hnone, ih hnext hfit', removable_succ_of_none hat]
    | some r =>
      by_cases hstart : r.start = v
      · obtain ⟨p, hfind, rfl⟩ := map_eq_some_iff.mp hat
        have hdrop : p.reg.start + pageSize < 2 ^ 64 := by omega
        rw [foldlM_cons_some (removePage_front hfind hstart), ih hnext hfit']
        have hdropStart : p.reg.dropPage.start = v + pageSize := by
          rw [dropPage, ← hstart]
          exact u64_of_lt hdrop
        refine (removable_succ_of_front hat hstart hdropStart ?_ ?_).symm
        · exact fun a ha => dropPage_covers hdrop (hstart ▸ ha)
        · exact fun a ha => settle_regionAt hfind hstart (by omega) ha
      · -- The loop is stuck, and the condition is not met by the first address.
        have hnone : removePage (rounds + 1) s v = none := by
          cases hrun : removePage (rounds + 1) s v with
          | none => rfl
          | some s' => exact absurd (.intro hrun) (removePage_stuck hv (by omega) hat hstart)
        refine iff_of_false ?_ fun hrem => hstart ?_
        · rw [foldlM_cons, hnone]
          simp
        · obtain ⟨j, hj, hrstart, -⟩ := hrem 0 (by omega) r (by simpa using hat)
          obtain rfl : j = 0 := by omega
          simpa using hrstart

/-! ### Addresses of pages -/

theorem words_list : Words p.list ↔
    Words p.before ∧ (p.reg.start < 2 ^ 64 ∧ p.reg.length < 2 ^ 64) ∧ Words p.after := by
  rw [Words, list, forall_mem_append, forall_mem_cons]
  rfl

theorem words_settle (h : Words p.list) : Words (settle s p).maps := by
  rw [settle_maps]
  split
  · intro r hr
    refine h r ?_
    simp only [list, mem_append, mem_cons] at hr ⊢
    exact hr.imp_right .inr
  · exact h

/-- **The address of a page** is left after two rounds at most. -/
theorem removePage_aligned (hw : Words s.maps) (hv : pageSize ∣ v) :
    ∃ s', removePage 2 s v = some s' ∧ Words s'.maps := by
  rw [removePage]
  cases hfind : findRegion s.maps v with
  | none => exact ⟨s, rfl, hw⟩
  | some p =>
    obtain ⟨hlist, hc⟩ := findRegion_some hfind
    obtain ⟨hbefore, ⟨hstartlt, hlengthlt⟩, hafter⟩ := words_list.mp (hlist ▸ hw)
    dsimp only
    by_cases hfront : v = p.reg.start
    · rw [if_pos hfront]
      refine ⟨_, rfl, words_settle (words_list.mpr ⟨hbefore, ⟨u64_lt _, ?_⟩, hafter⟩)⟩
      dsimp only
      split <;> omega
    · rw [if_neg hfront]
      by_cases hlast : v = pageFloor (u64 (p.reg.start + p.reg.length))
      · rw [if_pos hlast]
        refine ⟨_, rfl, words_settle (words_list.mpr ⟨hbefore, ⟨hstartlt, ?_⟩, hafter⟩)⟩
        dsimp only
        omega
      · -- The new part starts at the address and is found first.
        rw [if_neg hlast]
        have hle := hc.1
        have hend := hc.2
        have hvlt : v < 2 ^ 64 := hend.trans (u64_lt _)
        have hceil : u64 (pageFloor (sub64 v 1) + pageSize) = v := by
          simp only [pageFloor, sub64, u64, pageSize] at *
          omega
        have hlow : sub64 v p.reg.start = v - p.reg.start := by
          simp only [sub64, u64] at *
          omega
        have hhigh : sub64 p.reg.length (v - p.reg.start) = p.reg.start + p.reg.length - v := by
          simp only [sub64, u64] at *
          omega
        have hcov : Region.Covers
            { p.reg with start := v, length := p.reg.start + p.reg.length - v } v := by
          simp only [Region.Covers, u64] at *
          omega
        have hsplit : splitRegion p.reg v = ({ p.reg with length := v - p.reg.start },
              { p.reg with start := v, length := p.reg.start + p.reg.length - v }) := by
          simp only [splitRegion, hceil, hlow, hhigh]
        rw [hsplit]
        dsimp only
        have hfind' : findRegion (settle s { p with
              before := { p.reg with start := v, length := p.reg.start + p.reg.length - v } ::
                p.before
              reg := { p.reg with length := v - p.reg.start } }).maps v =
            some ⟨[], { p.reg with start := v, length := p.reg.start + p.reg.length - v },
              p.before ++ { p.reg with length := v - p.reg.start } :: p.after⟩ := by
          rw [settle_maps, if_neg (by dsimp only; omega)]
          exact if_pos hcov
        rw [removePage_front hfind' rfl]
        refine ⟨_, rfl, words_settle (words_list.mpr ⟨forall_mem_nil _, ⟨u64_lt _, ?_⟩, ?_⟩)⟩
        · dsimp only [dropPage]
          split <;> omega
        · have hold : Words (list { p with
              reg := { p.reg with length := v - p.reg.start } }) :=
            words_list.mpr ⟨hbefore, ⟨hstartlt, by dsimp only; omega⟩, hafter⟩
          exact hold

/-- **When `map_region_remove` comes to an end**: it starts at the address of a page, or every
region on the way starts where it comes to. -/
theorem removeEnds_iff {start len : ℕ} (hw : Words s.maps) (hstartlt : start < 2 ^ 64)
    (hfit : u64 (start + len) + pageSize ≤ 2 ^ 64) :
    RemoveEnds s start len ↔ pageSize ∣ start ∨
      Removable s.maps start ((u64 (start + len) - start + (pageSize - 1)) / pageSize) := by
  by_cases hstart : pageSize ∣ start
  · refine iff_of_true ?_ (.inl hstart)
    obtain ⟨s', hrun, -⟩ : ∃ s', (pagesUpto start (u64 (start + len))).foldlM (removePage 2) s =
        some s' ∧ Words s'.maps := by
      have hpages : ∀ v ∈ pagesUpto start (u64 (start + len)), pageSize ∣ v := by
        intro v hv
        obtain ⟨i, rfl, -⟩ := mem_pagesUpto.mp hv
        exact dvd_add hstart (dvd_mul_left _ _)
      generalize pagesUpto start (u64 (start + len)) = pages at *
      induction pages generalizing s with
      | nil => exact ⟨s, rfl, hw⟩
      | cons v pages ih =>
        obtain ⟨hv, hrest⟩ := forall_mem_cons.mp hpages
        obtain ⟨s₁, hrun, hw₁⟩ := removePage_aligned hw hv
        rw [foldlM_cons_some hrun]
        exact ih hw₁ hrest
    exact .intro hrun
  · rw [or_iff_right hstart]
    have hbound : start + (u64 (start + len) - start + (pageSize - 1)) / pageSize * pageSize <
        2 ^ 64 := by
      generalize u64 (start + len) = stop at *
      simp only [pageSize] at *
      omega
    constructor
    · rintro ⟨rounds, s', hrun⟩
      refine (removePages_isSome_iff hstart hbound rounds).mp ?_
      have hmore : (pagesUpto start (u64 (start + len))).foldlM (removePage (rounds + 1)) s =
        some s' := foldlM_mono (fun _ _ _ => removePage_succ) hrun
      exact isSome_iff_exists.mpr ⟨s', hmore⟩
    · intro hrem
      obtain ⟨s', hrun⟩ := isSome_iff_exists.mp ((removePages_isSome_iff hstart hbound 0).mpr hrem)
      exact ⟨1, s', hrun⟩

end Remove

/-! ## Change of protection -/

section Protect

variable {s : AddressSpace} {p : Position} {r : Region} {prot : Prot} {virt len x : ℕ}

/-! ### The rounds of the loop -/

/-- A round that has another one behind it. -/
theorem protect_round {t : AddressSpace × ℕ} (hnext : protectNext virt len prot (s, x) = some t)
    (rounds : ℕ) :
    protectRounds virt len prot (rounds + 1) (s, x) = protectRounds virt len prot rounds t := by
  obtain ⟨hlt, hnext⟩ := Option.ite_none_right_eq_some.mp hnext
  dsimp only at hlt hnext
  unfold protectRounds
  rw [protectLoop, if_pos hlt]
  cases hfind : findRegion s.maps x with
  | none =>
    rw [hfind] at hnext
    obtain rfl := some.inj hnext
    rfl
  | some p =>
    rw [hfind] at hnext
    obtain ⟨hallowed, hnext⟩ := Option.ite_none_left_eq_some.mp hnext
    obtain rfl := some.inj hnext
    exact if_neg hallowed

/-- A round in which access is denied is the last one. -/
theorem protect_denied (h : x < u64 (virt + len)) (hfind : findRegion s.maps x = some p)
    (hdenied : (prot.write && !p.reg.file.write) = true) :
    Ends (protectRounds virt len prot) (s, x) := by
  refine ⟨1, (s, .error .eacces), ?_⟩
  unfold protectRounds
  rw [protectLoop, if_pos h, hfind]
  exact if_pos hdenied

/-! ### Rounds that go ahead -/

theorem sub64_lt (a b : ℕ) : sub64 a b < 2 ^ 64 := Nat.mod_lt _ (by decide)

theorem words_splitRegion (hr : r.start < 2 ^ 64) (split : ℕ) :
    ((splitRegion r split).1.start < 2 ^ 64 ∧ (splitRegion r split).1.length < 2 ^ 64) ∧
      (splitRegion r split).2.start < 2 ^ 64 ∧ (splitRegion r split).2.length < 2 ^ 64 := by
  cases r
  exact ⟨⟨hr, sub64_lt _ _⟩, u64_lt _, sub64_lt _ _⟩

theorem words_startAt (hw : Words p.list) (x : ℕ) : Words (p.startAt x).list := by
  obtain ⟨hbefore, hreg, hafter⟩ := words_list.mp hw
  have hparts := words_splitRegion hreg.1 x
  unfold startAt
  generalize splitRegion p.reg x = parts at hparts
  split
  · refine words_list.mpr ⟨forall_mem_nil _, hparts.2, ?_⟩
    exact forall_mem_append.mpr ⟨hbefore, forall_mem_cons.mpr ⟨hparts.1, hafter⟩⟩
  · exact hw

theorem words_endAt (hw : Words p.list) (x rem : ℕ) : Words (p.endAt x rem).list := by
  obtain ⟨hbefore, hreg, hafter⟩ := words_list.mp hw
  have hparts := words_splitRegion hreg.1 (u64 (x + rem))
  unfold endAt
  generalize splitRegion p.reg (u64 (x + rem)) = parts at hparts
  split
  · exact words_list.mpr ⟨forall_mem_cons.mpr ⟨hparts.2, hbefore⟩, hparts.1, hafter⟩
  · exact hw

theorem words_protectRegion (hw : Words p.list) (s : AddressSpace) (virt len : ℕ) (prot : Prot)
    (x : ℕ) : Words (protectRegion s virt len prot x p).1.maps := by
  have hparts := words_endAt (words_startAt hw x) x (sub64 len (sub64 x virt))
  unfold protectRegion
  generalize (p.startAt x).endAt x (sub64 len (sub64 x virt)) = q at hparts
  obtain ⟨before, ⟨_⟩, after⟩ := q
  obtain ⟨hbefore, hreg, hafter⟩ := words_list.mp hparts
  exact words_list.mpr ⟨hbefore, hreg, hafter⟩

/-- The region that a round changes starts at the address of the round. -/
theorem startAt_reg (hw : p.reg.start < 2 ^ 64 ∧ p.reg.length < 2 ^ 64) (hc : p.reg.Covers x)
    (hsplit : pageSize ∣ x ∨ p.reg.start = x) : (p.startAt x).reg.start = x ∧
      (p.startAt x).reg.length = p.reg.start + p.reg.length - x := by
  obtain ⟨hlt, hfit⟩ := hc.fits hw
  unfold startAt
  split
  · next hne =>
    have hpage : pageSize ∣ x := hsplit.resolve_right fun h => hne h.symm
    rw [splitRegion_page hpage (lt_of_le_of_ne hc.1 (Ne.symm hne)) hlt.le hfit]
    exact ⟨rfl, rfl⟩
  · next heq =>
    have heq : x = p.reg.start := not_not.mp heq
    exact ⟨heq.symm, by omega⟩

theorem endAt_length {q : Position} {stop : ℕ} (hstart : q.reg.start = x) (hlt : x < stop)
    (hstop : stop < 2 ^ 64) : (q.endAt x (stop - x)).reg.length =
      if stop - x < q.reg.length then sub64 (u64 (pageFloor (sub64 stop 1) + pageSize)) x
      else q.reg.length := by
  unfold endAt
  split
  · rw [Nat.add_sub_cancel' hlt.le, u64_of_lt hstop, ← hstart]
    rfl
  · rfl

theorem protectRegion_next (s : AddressSpace) (prot : Prot) {q : Position}
    (hq : (p.startAt x).endAt x (sub64 len (sub64 x virt)) = q) :
    (protectRegion s virt len prot x p).2 = u64 (x + sub64 q.reg.length pageSize + pageSize) := by
  rw [protectRegion, hq]

/-- **A round takes the loop ahead**: to the end of the region, or to the page boundary behind the
range. -/
theorem protectRegion_ahead (hw : p.reg.start < 2 ^ 64 ∧ p.reg.length < 2 ^ 64)
    (hc : p.reg.Covers x) (hlt : x < u64 (virt + len)) (hvirt : virt < 2 ^ 64)
    (hsplit : pageSize ∣ x ∨ p.reg.start = x)
    (hend : p.reg.start + p.reg.length ≤ u64 (virt + len) ∨ pageCeil (u64 (virt + len)) < 2 ^ 64)
    (s : AddressSpace) (prot : Prot) : x < (protectRegion s virt len prot x p).2 := by
  obtain ⟨hxlt, hfit⟩ := hc.fits hw
  obtain ⟨hstart, hlength⟩ := startAt_reg hw hc hsplit
  have hstop := u64_lt (virt + len)
  rw [protectRegion_next s prot rfl, sub64_rest hvirt hlt, endAt_length hstart hlt hstop, hlength]
  generalize u64 (virt + len) = stop at *
  split
  · next hover =>
    -- The range ends inside of the region.
    have hceil : pageCeil stop < 2 ^ 64 := hend.resolve_left (by omega)
    have hle := le_pageCeil stop
    rw [u64_split (by omega) hceil, sub64_of_le hceil (by omega), u64_add_length (by omega)]
    omega
  · rw [u64_add_length (by omega)]
    omega

/-! ### Whole runs -/

theorem protectNext_of_find (hlt : x < u64 (virt + len)) (hfind : findRegion s.maps x = some p)
    (hallowed : (prot.write && !p.reg.file.write) = false) :
    protectNext virt len prot (s, x) = some (protectRegion s virt len prot x p) := by
  simp only [protectNext, if_pos hlt, hfind, hallowed, Bool.false_eq_true, if_false]

theorem AllRegular.next {t : AddressSpace × ℕ} (h : AllRegular virt len prot (s, x))
    (hnext : protectNext virt len prot (s, x) = some t) : AllRegular virt len prot t := by
  intro n t' ht'
  refine h (n + 1) t' ?_
  rw [protectState, hnext]
  exact ht'

/-- **A change of protection whose rounds are regular comes to an end.** -/
theorem protectEnds_of_regular (hw : Words s.maps) (hvirt : virt < 2 ^ 64)
    (h : AllRegular virt len prot (s, virt)) : ProtectEnds s virt len prot := by
  -- What is left of the address space above the address gets smaller with every round.
  refine ends_of_measure (I := fun y => Words y.1.maps ∧ AllRegular virt len prot y)
    (fun y => 2 ^ 64 - y.2) ?_ ⟨hw, h⟩
  rintro ⟨s, x⟩ ⟨hw, hreg⟩
  by_cases hlt : x < u64 (virt + len)
  · have hround : Regular s.maps prot (u64 (virt + len)) x := hreg 0 (s, x) rfl hlt
    cases hfind : findRegion s.maps x with
    | none =>
      have hfit := hround.skip hfind
      have hnext : protectNext virt len prot (s, x) = some (s, x + pageSize) := by
        simp only [protectNext, if_pos hlt, hfind, u64_of_lt hfit]
      refine .inr ⟨(s, x + pageSize), ⟨hw, hreg.next hnext⟩, ?_, protect_round hnext⟩
      simp only [pageSize] at hfit ⊢
      omega
    | some p =>
      obtain ⟨hlist, hc⟩ := findRegion_some hfind
      cases hallowed : prot.write && !p.reg.file.write with
      | true => exact .inl (protect_denied hlt hfind hallowed)
      | false =>
        have hnext := protectNext_of_find hlt hfind hallowed
        have hwords := words_protectRegion (hlist ▸ hw) s virt len prot x
        refine .inr ⟨_, ⟨hwords, hreg.next hnext⟩, ?_, protect_round hnext⟩
        have hahead := protectRegion_ahead (hw p.reg (hlist ▸ p.mem_list)) hc hlt hvirt
          (hround.split p hfind hallowed) (hround.fits p hfind hallowed) s prot
        have hbound : x < 2 ^ 64 := hlt.trans (u64_lt _)
        dsimp only
        omega
  · exact .inl ⟨0, _, if_neg hlt⟩

/-! ### A round that stays where it is -/

/-- At an address inside of a page, a region is found that ends with the page. -/
def Stuck (prot : Prot) (x : ℕ) (s : AddressSpace) : Prop :=
  ∃ p, findRegion s.maps x = some p ∧ (prot.write && !p.reg.file.write) = false ∧
    p.reg.start < x ∧ p.reg.start + p.reg.length = pageCeil x

/-- The part behind the page boundary has no length, and the region is found again. -/
theorem Stuck.next (hx : ¬ pageSize ∣ x) (hfit : x + pageSize < 2 ^ 64)
    (hlt : x < u64 (virt + len)) (h : Stuck prot x s) :
    ∃ s', Stuck prot x s' ∧ protectNext virt len prot (s, x) = some (s', x) := by
  obtain ⟨p, hfind, hallowed, hstart, hend⟩ := h
  obtain ⟨hlist, -⟩ := findRegion_some hfind
  obtain ⟨hceil, hceilLt, hsplit⟩ := splitRegion_inside hx hfit hstart.le
  have hold : pageCeil x - p.reg.start = p.reg.length := by omega
  have hnone : sub64 p.reg.length p.reg.length = 0 := by
    rw [sub64_of_le (by omega) le_rfl, Nat.sub_self]
  have hq : (p.startAt x).endAt x (sub64 len (sub64 x virt)) =
      ⟨[], { p.reg with start := pageCeil x, length := 0 }, s.maps⟩ := by
    rw [startAt, if_pos hstart.ne', hsplit, hold, hnone, hlist]
    exact if_neg (Nat.not_lt_zero _)
  have hmaps : (protectRegion s virt len prot x p).1.maps =
      { p.reg with start := pageCeil x, length := 0, prot := prot } :: s.maps := by
    rw [protectRegion, hq]
    rfl
  have hstays : (protectRegion s virt len prot x p).2 = x := by
    rw [protectRegion_next s prot hq]
    simp only [u64, sub64, pageSize] at hfit ⊢
    omega
  have hnot : ¬ Region.Covers { p.reg with start := pageCeil x, length := 0, prot := prot } x :=
    fun hcov => Nat.not_le.mpr hceil hcov.1
  have hfound : findRegion (protectRegion s virt len prot x p).1.maps x = some { p with
      before := { p.reg with start := pageCeil x, length := 0, prot := prot } :: p.before } := by
    rw [hmaps, findRegion, if_neg hnot, hfind]
    rfl
  refine ⟨_, ⟨_, hfound, hallowed, hstart, hend⟩, ?_⟩
  rw [protectNext_of_find hlt hfind hallowed]
  generalize protectRegion s virt len prot x p = t at hstays
  rw [← hstays]

theorem Stuck.not_ends (hx : ¬ pageSize ∣ x) (hfit : x + pageSize < 2 ^ 64)
    (hlt : x < u64 (virt + len)) (h : Stuck prot x s) :
    ¬ Ends (protectRounds virt len prot) (s, x) := by
  refine not_ends_of_inv (I := fun y => y.2 = x ∧ Stuck prot x y.1) ?_ ?_ ⟨rfl, h⟩
  · rintro ⟨s, _⟩ ⟨rfl, -⟩
    exact if_pos hlt
  · rintro ⟨s, _⟩ ⟨rfl, h⟩
    obtain ⟨s', h', hnext⟩ := h.next hx hfit hlt
    exact ⟨(s', _), ⟨rfl, h'⟩, protect_round hnext⟩

end Protect

/-! ## What the system calls pass on -/

/-- Memory that starts inside of a page. -/
def insidePages : AddressSpace where
  maps := [⟨0x10800, 0x1000, ⟨0, true, none⟩, 0, ⟨true, true, false⟩, .priv⟩]
  pages _ := none

end SeaKernel.Mapping
