import SeaKernel.Lib.Run
import SeaKernel.Memory.PageTable

/-!
# Page tables as a partial map

What an address space is for is a partial map from addresses to translations. Mapping a page sets
the map on that page, unmapping clears it, a change of attributes changes the flags, and every other
page is left alone. The tables refine this: as long as no table is at two places, one operation on
them is one operation on the map.

Addresses count by their lower 48 bits; for canonical addresses those determine the rest.

## Main results

* `map_spec`, `refines_map`, `refines_unmap`, `refines_chattr`: the leaves after an operation
* `tables_refine`: every run on tables is a run on a partial map
-/

namespace SeaKernel.PageTable

open Radix List Option Nat

/-! ## Pages -/

variable {virt v : Word} {idx : Fin 512} {level : ℕ}

section Pages

/-- Two addresses in one page of the size. -/
def SamePage (size : ℕ) (v w : Word) : Prop := v.toNat % 2 ^ 48 / size = w.toNat % 2 ^ 48 / size

instance (size : ℕ) (v w : Word) : Decidable (SamePage size v w) :=
  inferInstanceAs (Decidable (_ = _))

theorem archMmPageSize_lt {l l' : ℕ} (h : l < l') (hl' : l' < 3) :
    archMmPageSize l < archMmPageSize l' := by
  interval_cases l' <;> interval_cases l <;> decide

theorem ofNat_shiftRight_eq_iff {x y k : ℕ} :
    Fin.ofNat 512 (x >>> k) = Fin.ofNat 512 (y >>> k) ↔ x / 2 ^ k % 512 = y / 2 ^ k % 512 := by
  rw [Fin.ext_iff, shiftRight_eq_div_pow, shiftRight_eq_div_pow]
  rfl

/-- **The indices down to a level are those of the page.** -/
theorem prefix_path_iff {p rest : List (Fin 512)} (hpath : path virt = p ++ idx :: rest)
    (hlen : p.length + level = 3) (hlevel : level < 3) :
    p ++ [idx] <+: path v ↔ SamePage (archMmPageSize level) v virt := by
  have htake : p ++ [idx] = (path virt).take (4 - level) := by
    rw [hpath, take_append, take_of_length_le (by omega),
      show 4 - level - p.length = 1 by omega]
    rfl
  rw [htake, prefix_iff_eq_take, length_take, path, path, SamePage]
  -- The digits of the address above the page, one by one.
  interval_cases level
  · change [_, _, _, _] = [_, _, _, _] ↔ v.toNat % 2 ^ 48 / 0x1000 = virt.toNat % 2 ^ 48 / 0x1000
    simp only [cons.injEq, and_true, pml4Idx, pdptIdx, pdIdx, ptIdx, ofNat_shiftRight_eq_iff]
    omega
  · change [_, _, _] = [_, _, _] ↔ v.toNat % 2 ^ 48 / 0x200000 = virt.toNat % 2 ^ 48 / 0x200000
    simp only [cons.injEq, and_true, pml4Idx, pdptIdx, pdIdx, ofNat_shiftRight_eq_iff]
    omega
  · change [_, _] = [_, _] ↔ v.toNat % 2 ^ 48 / 0x40000000 = virt.toNat % 2 ^ 48 / 0x40000000
    simp only [cons.injEq, and_true, pml4Idx, pdptIdx, ofNat_shiftRight_eq_iff]
    omega

end Pages

/-! ## Mapping a page -/

section Map

/-- No table of the context is at two places, except below the entries of the first table that are
in `S`. -/
def Tables.Apart (S : Set (Fin 512)) (s : Tables) : Prop := Radix.Apart slot S s.mem s.pml4Phys

/-- Frames that are not tables. -/
structure Fresh (s : Tables) (frames : Fin 3 → Word) : Prop where
  aligned : ∀ k, PageAligned (frames k)
  unused : ∀ k q, tableAt slot s.mem 0 s.pml4Phys q ≠ some (frames k)
  distinct : Function.Injective frames

/-- The walk of `arch_mm_virtual_map` has come to the table at a path: the leaves are those before
the call, and the new tables are from the given frames. -/
structure Descent (S : Set (Fin 512)) (frames : Fin 3 → Word) (s : Tables) (m : Memory) (f : Word)
    (p : List (Fin 512)) : Prop where
  apart : Radix.Apart slot S m s.pml4Phys
  table : tableAt slot m 0 s.pml4Phys p = some f
  leaves : ∀ q, find slot m 0 s.pml4Phys q = find slot s.mem 0 s.pml4Phys q
  tables : ∀ q g, tableAt slot m 0 s.pml4Phys q = some g →
    tableAt slot s.mem 0 s.pml4Phys q = some g ∨ ∃ k : Fin 3, k.val < p.length ∧ g = frames k

variable {S : Set (Fin 512)} {frames : Fin 3 → Word} {s : Tables} {m : Memory} {f : Word}
  {p rest : List (Fin 512)}
  {i : Fin 512} {virt phys : Word} {flags : Flags} {level : ℕ}

theorem avoids_path (hv : pml4Idx virt ∉ S) {q : List (Fin 512)} (hpath : path virt = p ++ q) :
    Avoids S p := by
  intro j hj
  cases p with
  | nil => cases hj
  | cons j' p =>
    obtain rfl := mem_some.mp hj
    rw [path, cons_append] at hpath
    exact (cons.inj hpath).1 ▸ hv

theorem Descent.root (h : s.Apart S) : Descent S frames s s.mem s.pml4Phys [] :=
  ⟨h, rfl, fun _ => rfl, fun _ _ => .inl⟩

variable {d : ℕ}

theorem slot_eq_table {e : Word} (he : e ≠ 0) (hleaf : slot d e ≠ .leaf) :
    slot d e = .table (e &&& mmuPtePhysMask) := by
  rw [slot, if_neg he] at hleaf ⊢
  split
  · rfl
  · next hd =>
    rw [if_neg hd] at hleaf
    split
    · next hlt =>
      rw [if_pos hlt] at hleaf
      split
      · next hlarge => exact absurd (if_pos hlarge) hleaf
      · rfl
    · next hlt => exact absurd (if_neg hlt) hleaf

/-- **One step down.** -/
theorem Descent.next (h : Descent S frames s m f p) (ho : Avoids S p) (hfresh : Fresh s frames)
    (k : Fin 3) (hk : p.length = k) (hleaf : slot p.length (m f i) ≠ .leaf) :
    Descent S frames s (nextTable m f i (frames k)).1 (nextTable m f i (frames k)).2
      (p ++ [i]) := by
  have hlen : (p ++ [i]).length = k + 1 := by rw [length_append, hk, length_singleton]
  by_cases he : m f i = 0
  · -- The new table is a frame that is at no place yet.
    have hnew : ∀ q, tableAt slot m 0 s.pml4Phys q ≠ some (frames k) := by
      intro q hq
      rcases h.tables q _ hq with hold | ⟨j, hj, heq⟩
      · exact hfresh.unused k q hold
      · rw [hfresh.distinct heq] at hk
        omega
    have hframe := hfresh.aligned k
    have hslot : slot p.length (tableEntry (frames k)) = .table (frames k) := by
      rw [slot_of_table (tableEntry_ne_zero _)
        (.inr ⟨hk ▸ k.isLt, tableEntry_not_large hframe⟩), tableEntry_phys hframe]
    have hold : slot p.length (m f i) = .empty := by rw [he, slot_zero]
    have hzero : ∀ j : Fin 512, slot (p.length + 1) ((fun _ => 0 : Fin 512 → Word) j) = .empty :=
      fun _ => slot_zero _
    rw [nextTable_of_zero he hframe, mmPhysicalAllocate]
    refine ⟨Apart.link h.apart ho h.table hold hslot hnew hzero, ?_, fun q => ?_, fun q g hq => ?_⟩
    · rw [(Apart.walk_link h.apart ho h.table hold hslot hnew hzero _).1, if_pos rfl]
    · rw [(Apart.walk_link h.apart ho h.table hold hslot hnew hzero _).2, h.leaves]
    · rw [(Apart.walk_link h.apart ho h.table hold hslot hnew hzero _).1] at hq
      split at hq
      · exact .inr ⟨k, by omega, (some.inj hq).symm⟩
      · rcases h.tables q g hq with hq | ⟨j, hj, heq⟩
        · exact .inl hq
        · exact .inr ⟨j, by omega, heq⟩
  · rw [nextTable_of_ne he]
    refine ⟨h.apart, ?_, h.leaves, fun q g hq => ?_⟩
    · rw [tableAt_concat h.table, zero_add, slot_eq_table he hleaf]
    · rcases h.tables q g hq with hq | ⟨j, hj, heq⟩
      · exact .inl hq
      · exact .inr ⟨j, by omega, heq⟩

/-- No page of a level above covers the address. -/
def NotCovered (s : Tables) (virt : Word) (level : ℕ) : Prop :=
  ∀ t, archMmVirtualGetmap s virt = some t → t.size ≤ archMmPageSize level

theorem Descent.not_leaf (h : Descent S frames s m f p) (hpath : path virt = p ++ i :: rest)
    (hcover : NotCovered s virt level) (hlen : p.length + level < 3) :
    slot p.length (m f i) ≠ .leaf := by
  intro hleaf
  have hfind : find slot s.mem 0 s.pml4Phys (path virt) = some (p.length, m f i) := by
    rw [← h.leaves, hpath, find_append h.table, zero_add, find, hleaf]
  have hsize := hcover _ (by rw [getmap_eq_find, hfind, map_some])
  have hpos : p.length ≠ 0 := by
    intro h0
    rw [h0] at hleaf
    unfold slot at hleaf
    split at hleaf
    · cases hleaf
    · cases hleaf
  -- The page at a lower depth is larger.
  change archMmPageSize (3 - p.length) ≤ archMmPageSize level at hsize
  have hlt : archMmPageSize level < archMmPageSize (3 - p.length) :=
    archMmPageSize_lt (by omega) (by omega)
  omega

/-- What is set at a level besides address and flags. -/
def extraBits (level : ℕ) : Word :=
  if level = 0 then mmuPtePresent else mmuPtePresent ||| mmuPteLarge

theorem extra_extraBits (level : ℕ) : Extra (extraBits level) := by
  rw [extraBits]
  split
  · exact .inl rfl
  · exact .inr rfl

theorem entry_extraBits_large (phys : Word) (flags : Flags) (h : level ≠ 0) :
    phys ||| convertFlagsToAttr flags ||| mmuPtePresent ||| mmuPteLarge =
      entry phys flags (extraBits level) := by
  rw [entry, extraBits, if_neg h, BitVec.or_assoc]

/-- **The walk of `arch_mm_virtual_map`** comes to the table of the level, and sets the entry
there. -/
theorem map_descends (hs : s.Apart S) (hv : pml4Idx virt ∉ S) (hfresh : Fresh s frames)
    (hlevel : level < 3) (hcover : NotCovered s virt level) (phys : Word) (flags : Flags) :
    ∃ m f p idx rest, Descent S frames s m f p ∧ path virt = p ++ idx :: rest ∧
      p.length + level = 3 ∧
      archMmVirtualMap frames s virt phys (archMmPageSize level) flags =
        ({ s with mem := (setEntry m f idx (entry phys flags (extraBits level))).1 },
          (setEntry m f idx (entry phys flags (extraBits level))).2) := by
  have hroot : Descent S frames s s.mem s.pml4Phys [] := Descent.root hs
  have hpdpt := hroot.next (avoids_path hv rfl) hfresh 0 rfl
    (hroot.not_leaf (i := pml4Idx virt) rfl hcover (by simpa using hlevel))
  rw [archMmVirtualMap]
  generalize nextTable s.mem s.pml4Phys (pml4Idx virt) (frames 0) = x at hpdpt ⊢
  obtain ⟨m₁, pdpt⟩ := x
  dsimp only at hpdpt ⊢
  by_cases h2 : level = 2
  · -- The entry is one of the second table.
    subst h2
    refine ⟨m₁, pdpt, _, _, _, hpdpt, rfl, rfl, ?_⟩
    rw [if_pos rfl, entry_extraBits_large phys flags two_ne_zero]
  have hne2 : archMmPageSize level ≠ archMmPageSize 2 :=
    (archMmPageSize_lt (by omega) (by decide)).ne
  have hpd := hpdpt.next (avoids_path hv rfl) hfresh 1 rfl
    (hpdpt.not_leaf (i := pdptIdx virt) rfl hcover (by simp; omega))
  rw [if_neg hne2]
  generalize nextTable m₁ pdpt (pdptIdx virt) (frames 1) = x at hpd ⊢
  obtain ⟨m₂, pd⟩ := x
  dsimp only at hpd ⊢
  by_cases h1 : level = 1
  · subst h1
    refine ⟨m₂, pd, _, _, _, hpd, rfl, rfl, ?_⟩
    rw [if_pos rfl, entry_extraBits_large phys flags one_ne_zero]
  obtain rfl : level = 0 := by omega
  have hpt := hpd.next (avoids_path hv rfl) hfresh 2 rfl
    (hpd.not_leaf (i := pdIdx virt) rfl hcover (by simp))
  rw [if_neg (by decide)]
  generalize nextTable m₂ pd (pdIdx virt) (frames 2) = x at hpt ⊢
  obtain ⟨m₃, pt⟩ := x
  exact ⟨m₃, pt, _, _, _, hpt, rfl, rfl, rfl⟩

theorem slot_entry (hd : d + level = 3) (hlevel : level < 3) (phys : Word) (flags : Flags) :
    slot d (entry phys flags (extraBits level)) = .leaf := by
  refine slot_of_leaf (entry_ne_zero (extra_extraBits level)) (by omega) fun hlt => ?_
  rw [extraBits, if_neg (by omega)]
  exact entry_large

theorem translation_entry (hd : d + level = 3) (hphys : phys &&& mmuPtePhysMask = phys)
    (flags : Flags) :
    translation (d, entry phys flags (extraBits level)) =
      ⟨phys, flags &&& mapKept, archMmPageSize level⟩ := by
  rw [translation, entry_phys hphys (extra_extraBits level),
    entry_flags hphys (extra_extraBits level), ← hd, Nat.add_sub_cancel_left]

theorem slot_ne_table {e : Word} (he : e = 0 ∨ slot d e = .leaf) (g : Word) :
    slot d e ≠ .table g := by
  rcases he with rfl | he
  · rw [slot_zero]
    exact nofun
  · rw [he]
    exact nofun

theorem getmap_store (h : Radix.Apart slot S m s.pml4Phys) (hv : pml4Idx virt ∉ S)
    (hp : tableAt slot m 0 s.pml4Phys p = some f) (hpath : path virt = p ++ i :: rest)
    (hlen : p.length + level = 3) (hlevel : level < 3) {e : Word}
    (he : e = 0 ∨ slot p.length e = .leaf) (v : Word) :
    archMmVirtualGetmap { s with mem := store m f i e } v =
      if SamePage (archMmPageSize level) v virt then
        if e = 0 then none else some (translation (p.length, e))
      else archMmVirtualGetmap { s with mem := m } v := by
  rw [getmap_eq_find, getmap_eq_find,
    h.find_store_leaf (avoids_path hv hpath) hp (slot_ne_table he)]
  by_cases hsame : SamePage (archMmPageSize level) v virt
  · rw [if_pos hsame, if_pos ((prefix_path_iff hpath hlen hlevel).mpr hsame)]
    rcases he with rfl | he
    · rw [slot_zero, if_pos rfl]
      rfl
    · have hne : e ≠ 0 := by
        rintro rfl
        rw [slot_zero] at he
        cases he
      rw [he, if_neg hne]
      rfl
  · rw [if_neg hsame, if_neg (mt (prefix_path_iff hpath hlen hlevel).mp hsame)]

theorem getmap_of_zero (hp : tableAt slot s.mem 0 s.pml4Phys p = some f)
    (hpath : path virt = p ++ i :: rest) (hlen : p.length + level = 3) (hlevel : level < 3)
    (he : s.mem f i = 0) (hv : SamePage (archMmPageSize level) v virt) :
    archMmVirtualGetmap s v = none := by
  obtain ⟨rest', hrest⟩ := (prefix_path_iff hpath hlen hlevel).mpr hv
  rw [getmap_eq_find, ← hrest, append_assoc, singleton_append, find_append hp,
    zero_add, find, he, slot_zero]
  rfl

/-- **Mapping a page.** -/
theorem map_spec (hs : s.Apart S) (hv : pml4Idx virt ∉ S) (hfresh : Fresh s frames)
    (hlevel : level < 3) (hcover : NotCovered s virt level) (hphys : PageAligned phys)
    {s' : Tables} {ok : Bool}
    (hmap : archMmVirtualMap frames s virt phys (archMmPageSize level) flags = (s', ok)) :
    s'.Apart S ∧ (ok = false → ∀ v, archMmVirtualGetmap s' v = archMmVirtualGetmap s v) ∧
      (ok = true → ∀ v, (SamePage (archMmPageSize level) v virt → archMmVirtualGetmap s v = none) ∧
        archMmVirtualGetmap s' v =
          if SamePage (archMmPageSize level) v virt then
            some ⟨phys, flags &&& mapKept, archMmPageSize level⟩
          else archMmVirtualGetmap s v) ∧
      (level = 0 → (ok = true ↔ archMmVirtualGetmap s virt = none)) := by
  obtain ⟨m, f, p, idx, rest, hD, hpath, hlen, heq⟩ :=
    map_descends hs hv hfresh hlevel hcover phys flags
  have hsame : ∀ v, archMmVirtualGetmap { s with mem := m } v = archMmVirtualGetmap s v := by
    intro v
    rw [getmap_eq_find, getmap_eq_find]
    exact congrArg _ (hD.leaves _)
  rw [heq] at hmap
  obtain ⟨rfl, rfl⟩ := Prod.mk.inj hmap
  by_cases he : m f idx = 0
  · -- The entry is set.
    have hleaf := slot_entry hlen hlevel phys flags
    rw [setEntry_of_zero he]
    have ho : Avoids S p := avoids_path hv hpath
    have hempty : m f idx = 0 ∨ slot p.length (m f idx) = .leaf := .inl he
    refine ⟨hD.apart.of_tableAt_eq (hD.apart.tableAt_store_leaf ho hD.table
        (slot_ne_table hempty) (slot_ne_table (.inr hleaf))),
      fun h => absurd h.symm Bool.false_ne_true, fun _ v => ⟨fun hsv => ?_, ?_⟩, fun _ => ?_⟩
    · rw [← hsame]
      exact getmap_of_zero (s := { s with mem := m }) hD.table hpath hlen hlevel he hsv
    · rw [getmap_store hD.apart hv hD.table hpath hlen hlevel (.inr hleaf),
        if_neg (entry_ne_zero (extra_extraBits level)),
        translation_entry hlen (and_physMask hphys), hsame]
    · rw [← hsame]
      exact iff_of_true rfl
        (getmap_of_zero (s := { s with mem := m }) hD.table hpath hlen hlevel he rfl)
  · rw [setEntry_of_ne he]
    refine ⟨hD.apart, fun _ => hsame, fun h => absurd h Bool.false_ne_true, fun h0 => ?_⟩
    refine iff_of_false Bool.false_ne_true fun hnone => he ?_
    -- An entry of the last table that is not zero is a leaf.
    rw [← hsame, getmap_eq_find, hpath, find_append hD.table, zero_add, find,
      map_eq_none_iff] at hnone
    have hlast : p.length = 3 := by omega
    rw [slot_of_leaf he (by omega) fun hlt => absurd hlt (by omega)] at hnone
    cases hnone

end Map

/-! ## Unmapping a page, and changing its attributes -/

section Change

variable {S : Set (Fin 512)} {s : Tables} {virt : Word} {table : Word}

theorem getmap_change (hs : s.Apart S) (hv : pml4Idx virt ∉ S) {e : Word}
    (hentry : entryOf s virt = some (level, table, idx)) (he : e = 0 ∨ slot (3 - level) e = .leaf) :
    Tables.Apart S { s with mem := store s.mem table idx e } ∧
      ∀ v, archMmVirtualGetmap { s with mem := store s.mem table idx e } v =
        if SamePage (archMmPageSize level) v virt then
          if e = 0 then none else some (translation (3 - level, e))
        else archMmVirtualGetmap s v := by
  obtain ⟨p, rest, hpath, hp, hlen, hlevel, hslot⟩ := exists_of_entryOf hentry
  have hdepth : 3 - level = p.length := by omega
  rw [hdepth] at he ⊢
  exact ⟨hs.of_tableAt_eq
      (hs.tableAt_store_leaf (avoids_path hv hpath) hp hslot (slot_ne_table he)),
    getmap_store hs hv hp hpath hlen hlevel he⟩

theorem getmap_of_entryOf (hentry : entryOf s virt = some (level, table, idx)) :
    archMmVirtualGetmap s virt =
      if s.mem table idx = 0 then none
      else some ⟨s.mem table idx &&& mmuPtePhysMask,
        convertAttrToFlags (s.mem table idx &&& ~~~mmuPtePhysMask), archMmPageSize level⟩ := by
  rw [archMmVirtualGetmap, hentry]

theorem getmap_of_entryOf_zero (hentry : entryOf s virt = some (level, table, idx))
    (he : s.mem table idx = 0) (hv : SamePage (archMmPageSize level) v virt) :
    archMmVirtualGetmap s v = none := by
  obtain ⟨p, rest, hpath, hp, hlen, hlevel, -⟩ := exists_of_entryOf hentry
  exact getmap_of_zero hp hpath hlen hlevel he hv

theorem getmap_of_entryOf_none (hentry : entryOf s virt = none) :
    archMmVirtualGetmap s virt = none := by
  rw [archMmVirtualGetmap, hentry]

end Change

/-! ## The partial map -/

section Refinement

/-- A partial map from addresses to translations. -/
abbrev Space : Type := Word → Option Translation

/-- The map with other values on one page. -/
def Space.set (A : Space) (size : ℕ) (virt : Word) (t : Option Translation) : Space :=
  fun v => if SamePage size v virt then t else A v

/-- The operations on a context. Mapping a page comes with the frames that `mm_physical_allocate`
would hand out. -/
inductive Op where
  | map (frames : Fin 3 → Word) (virt phys : Word) (pagesize : ℕ) (flags : Flags)
  | unmap (virt : Word)
  | chattr (virt : Word) (flags : Flags)
  | getmap (virt : Word)

/-- What an operation returns. -/
inductive Result where
  | done (ok : Bool)
  | phys (phys : Word)
  | found (t : Option Translation)
  deriving DecidableEq

/-- One operation on the tables. -/
def Tables.exec (s : Tables) : Op → Tables × Result
  | .map frames virt phys pagesize flags =>
    let (s, ok) := archMmVirtualMap frames s virt phys pagesize flags
    (s, .done ok)
  | .unmap virt =>
    let (s, phys) := archMmVirtualUnmap s virt
    (s, .phys phys)
  | .chattr virt flags =>
    let (s, ok) := archMmVirtualChattr s virt flags
    (s, .done ok)
  | .getmap virt => (s, .found (archMmVirtualGetmap s virt))

theorem exec_map (s : Tables) (frames : Fin 3 → Word) (virt phys : Word) (pagesize : ℕ)
    (flags : Flags) :
    s.exec (.map frames virt phys pagesize flags) =
      ((archMmVirtualMap frames s virt phys pagesize flags).1,
        .done (archMmVirtualMap frames s virt phys pagesize flags).2) := rfl

theorem exec_chattr (s : Tables) (virt : Word) (flags : Flags) : s.exec (.chattr virt flags) =
      ((archMmVirtualChattr s virt flags).1, .done (archMmVirtualChattr s virt flags).2) := rfl

/-- The translations of a context. -/
def Tables.space (s : Tables) : Space := archMmVirtualGetmap s

/-- What a caller keeps to: the sizes are those of pages, addresses are aligned, and the target is
not covered by a larger page. The allocator hands out frames that are not tables. Where tables are
shared, nothing is changed. -/
def Enabled (S : Set (Fin 512)) (s : Tables) : Op → Prop
  | .map frames virt phys pagesize _ => pml4Idx virt ∉ S ∧ Fresh s frames ∧ PageAligned phys ∧
      (∃ level < 3, pagesize = archMmPageSize level) ∧
      ∀ t, archMmVirtualGetmap s virt = some t → t.size ≤ pagesize
  | .unmap virt => pml4Idx virt ∉ S
  | .chattr virt _ => pml4Idx virt ∉ S
  | .getmap _ => True

/-- A step of a run, with what the operation returns. -/
def Step (S : Set (Fin 512)) (s : Tables) (e : Op × Result) (s' : Tables) : Prop :=
  Enabled S s e.1 ∧ s.exec e.1 = (s', e.2)

/-- **The operation on a partial map.** A map that returns false changes nothing. -/
def Space.apply (A : Space) : Op × Result → Space
  | (.map _ virt phys pagesize flags, .done true) =>
    A.set pagesize virt (some ⟨phys, flags &&& mapKept, pagesize⟩)
  | (.unmap virt, _) =>
    match A virt with
    | none => A
    | some t => A.set t.size virt none
  | (.chattr virt flags, _) =>
    match A virt with
    | none => A
    | some t => A.set t.size virt (some { t with flags := flags &&& mapKept })
  | _ => A

/-- What the operation returns, on a partial map. A page may be refused only if it is not of the
smallest size, or translated. -/
def Answers (A : Space) : Op × Result → Prop
  | (.map _ virt _ pagesize _, .done ok) =>
    (ok = true → ∀ v, SamePage pagesize v virt → A v = none) ∧
      (pagesize = archMmPageSize 0 → (ok = true ↔ A virt = none))
  | (.unmap virt, .phys phys) => phys = (A virt).elim 0 Translation.phys
  | (.chattr virt _, .done ok) => ok = (A virt).isSome
  | (.getmap virt, .found t) => t = A virt
  | _ => False

/-- One operation on the tables is that operation on the partial map. -/
structure Refines (s : Tables) (e : Op × Result) (s' : Tables) : Prop where
  answers : Answers s.space e
  space : s'.space = s.space.apply e

variable {S : Set (Fin 512)} {s s' : Tables} {e : Op × Result}

theorem archMmPageSize_injective {l l' : ℕ} (hl : l < 3) (hl' : l' < 3)
    (h : archMmPageSize l = archMmPageSize l') : l = l' := by
  rcases lt_trichotomy l l' with hlt | heq | hlt
  · exact absurd h (archMmPageSize_lt hlt hl').ne
  · exact heq
  · exact absurd h (archMmPageSize_lt hlt hl).ne'

theorem refines_map {frames : Fin 3 → Word} {phys : Word} {pagesize : ℕ} {flags : Flags} {ok : Bool}
    (hs : s.Apart S) (henabled : Enabled S s (.map frames virt phys pagesize flags))
    (hmap : archMmVirtualMap frames s virt phys pagesize flags = (s', ok)) :
    s'.Apart S ∧ Refines s (.map frames virt phys pagesize flags, .done ok) s' := by
  obtain ⟨hv, hfresh, hphys, ⟨level, hlevel, rfl⟩, hcover⟩ := henabled
  obtain ⟨hs', hfalse, htrue, hsmall⟩ := map_spec hs hv hfresh hlevel hcover hphys hmap
  refine ⟨hs', ⟨fun hok v hv => (htrue hok v).1 hv, fun hsize => ?_⟩, ?_⟩
  · exact hsmall (archMmPageSize_injective hlevel (by decide) hsize)
  · funext v
    cases ok with
    | false => exact hfalse rfl v
    | true => exact (htrue rfl v).2

theorem refines_unmap (hs : s.Apart S) (hv : pml4Idx virt ∉ S) :
    (archMmVirtualUnmap s virt).1.Apart S ∧
      Refines s (.unmap virt, .phys (archMmVirtualUnmap s virt).2)
        (archMmVirtualUnmap s virt).1 := by
  cases hentry : entryOf s virt with
  | none =>
    have hspace : s.space virt = none := getmap_of_entryOf_none hentry
    have hunmap : archMmVirtualUnmap s virt = (s, 0) := by rw [archMmVirtualUnmap, hentry]
    rw [hunmap]
    refine ⟨hs, ?_, ?_⟩
    · rw [Answers, hspace]
      rfl
    · rw [Space.apply, hspace]
  | some x =>
    obtain ⟨level, table, idx⟩ := x
    have hunmap : archMmVirtualUnmap s virt = ({ s with mem := store s.mem table idx 0 },
      s.mem table idx &&& mmuPtePhysMask) := by rw [archMmVirtualUnmap, hentry]
    have hspace : s.space virt = _ := getmap_of_entryOf hentry
    obtain ⟨hs', hget⟩ := getmap_change hs hv hentry (e := 0) (.inl rfl)
    rw [hunmap]
    by_cases he : s.mem table idx = 0
    · -- Nothing is mapped there, before and after.
      rw [if_pos he] at hspace
      refine ⟨hs', ?_, ?_⟩
      · rw [Answers, hspace, he]
        rfl
      · rw [Space.apply, hspace]
        funext v
        refine (hget v).trans ?_
        split
        · next hsame => exact (getmap_of_entryOf_zero hentry he hsame).symm
        · rfl
    · rw [if_neg he] at hspace
      refine ⟨hs', ?_, ?_⟩
      · rw [Answers, hspace]
        rfl
      · rw [Space.apply, hspace]
        funext v
        exact hget v

theorem refines_chattr (hs : s.Apart S) (hv : pml4Idx virt ∉ S) (flags : Flags) :
    (archMmVirtualChattr s virt flags).1.Apart S ∧
      Refines s (.chattr virt flags, .done (archMmVirtualChattr s virt flags).2)
        (archMmVirtualChattr s virt flags).1 := by
  have hnone : s.space virt = none → archMmVirtualChattr s virt flags = (s, false) →
      (archMmVirtualChattr s virt flags).1.Apart S ∧
        Refines s (.chattr virt flags, .done (archMmVirtualChattr s virt flags).2)
          (archMmVirtualChattr s virt flags).1 := by
    intro hspace hchattr
    rw [hchattr]
    refine ⟨hs, ?_, ?_⟩
    · rw [Answers, hspace]
      rfl
    · rw [Space.apply, hspace]
  cases hentry : entryOf s virt with
  | none => exact hnone (getmap_of_entryOf_none hentry) (by rw [archMmVirtualChattr, hentry])
  | some x =>
    obtain ⟨level, table, idx⟩ := x
    have hspace : s.space virt = _ := getmap_of_entryOf hentry
    by_cases he : s.mem table idx = 0
    · rw [if_pos he] at hspace
      refine hnone hspace ?_
      rw [archMmVirtualChattr, hentry]
      exact if_pos he
    · rw [if_neg he] at hspace
      -- The new entry has the old address, and the large bit above the last table.
      let e := entry (s.mem table idx &&& mmuPtePhysMask) flags (extraBits level)
      have hchattr : archMmVirtualChattr s virt flags =
          ({ s with mem := store s.mem table idx e }, true) := by
        rw [archMmVirtualChattr, hentry]
        dsimp only [e]
        rw [if_neg he, entry, extraBits]
        split
        · simp
        · rw [BitVec.or_assoc _ mmuPtePresent]
      obtain ⟨p, rest, hpath, hp, hlen, hlevel, -⟩ := exists_of_entryOf hentry
      have hdepth : 3 - level + level = 3 := by omega
      have haddr : s.mem table idx &&& mmuPtePhysMask &&& mmuPtePhysMask =
          s.mem table idx &&& mmuPtePhysMask := by
        rw [BitVec.and_assoc, BitVec.and_self]
      obtain ⟨hs', hget⟩ := getmap_change hs hv hentry (e := e)
        (.inr (slot_entry hdepth hlevel _ flags))
      rw [hchattr]
      refine ⟨hs', ?_, ?_⟩
      · rw [Answers, hspace]
        rfl
      · rw [Space.apply, hspace]
        funext v
        refine (hget v).trans ?_
        rw [if_neg (entry_ne_zero (extra_extraBits level)), translation_entry hdepth haddr]
        rfl

/-- **One step on the tables is a step on the partial map**, and keeps the tables apart. -/
theorem refines_step (hs : s.Apart S) (hstep : Step S s e s') : s'.Apart S ∧ Refines s e s' := by
  obtain ⟨op, r⟩ := e
  obtain ⟨henabled, hexec⟩ := hstep
  cases op with
  | map frames virt phys pagesize flags =>
    obtain ⟨rfl, rfl⟩ := Prod.mk.inj hexec
    exact refines_map hs henabled rfl
  | unmap virt =>
    obtain ⟨rfl, rfl⟩ := Prod.mk.inj hexec
    exact refines_unmap hs henabled
  | chattr virt flags =>
    obtain ⟨rfl, rfl⟩ := Prod.mk.inj hexec
    exact refines_chattr hs henabled flags
  | getmap virt =>
    obtain ⟨rfl, rfl⟩ := Prod.mk.inj hexec
    exact ⟨hs, rfl, rfl⟩

/-- **Page tables refine a partial map**: along every run on one context, each operation returns
what it returns on the partial map, and the translations of every address at the end are those that
the operations have left behind. -/
theorem tables_refine (hs : s.Apart S) {run : List ((Op × Result) × Tables)}
    (hrun : Along (Step S) s run) :
    Along Refines s run ∧
      (final s run).space = (run.map Prod.fst).foldl Space.apply s.space := by
  induction run generalizing s with
  | nil => exact ⟨trivial, rfl⟩
  | cons x run ih =>
    obtain ⟨e, t⟩ := x
    obtain ⟨ht, href⟩ := refines_step hs hrun.1
    obtain ⟨halong, hfinal⟩ := ih ht hrun.2
    refine ⟨⟨href, halong⟩, ?_⟩
    rw [map_cons, foldl_cons, ← href.space]
    exact hfinal

end Refinement

/-! ## A run -/

section OnePage

/-- A context without tables besides the first. -/
def emptyTables : Tables := ⟨0x1000, fun _ _ => 0⟩

theorem tableAt_emptyTables {q : List (Fin 512)} {g : Word}
    (h : tableAt slot emptyTables.mem 0 emptyTables.pml4Phys q = some g) : q = [] ∧ g = 0x1000 := by
  cases q with
  | nil => exact ⟨rfl, (some.inj h).symm⟩
  | cons i q =>
    rw [tableAt] at h
    cases h

theorem apart_emptyTables (S : Set (Fin 512)) : emptyTables.Apart S := by
  intro p q f _ hp hq
  rw [(tableAt_emptyTables hp).1, (tableAt_emptyTables hq).1]

/-- Three frames. -/
def someFrames : Fin 3 → Word := ![0x2000, 0x3000, 0x4000]

theorem fresh_emptyTables : Fresh emptyTables someFrames := by
  have hne : ∀ k, someFrames k ≠ 0x1000 := by decide
  exact ⟨by decide, fun k q hq => hne k (tableAt_emptyTables hq).2, by decide⟩

/-- The operations of a run that maps a page, makes it read-only and looks it up. -/
def onePage : List (Op × Result) :=
  [(.map someFrames 0x400000 0x5000 0x1000 (mapUser ||| mapWrite), .done true),
    (.chattr 0x400000 mapUser, .done true),
    (.getmap 0x400abc, .found (some ⟨0x5000, mapUser, 0x1000⟩))]

/-- The tables after the first and after the second of them. -/
def onePageMapped : Tables :=
  (archMmVirtualMap someFrames emptyTables 0x400000 0x5000 0x1000 (mapUser ||| mapWrite)).1

def onePageReadOnly : Tables := (archMmVirtualChattr onePageMapped 0x400000 mapUser).1

theorem step_onePageMapped :
    Step ∅ emptyTables (.map someFrames 0x400000 0x5000 0x1000 (mapUser ||| mapWrite), .done true)
      onePageMapped := by
  refine ⟨⟨Set.notMem_empty _, fresh_emptyTables, by decide, ⟨0, by decide, rfl⟩, ?_⟩, ?_⟩
  · intro t ht
    cases ht
  · have hok : (archMmVirtualMap someFrames emptyTables 0x400000 0x5000 0x1000
      (mapUser ||| mapWrite)).2 = true := by decide +kernel
    rw [exec_map, hok]
    rfl

theorem step_onePageReadOnly :
    Step ∅ onePageMapped (.chattr 0x400000 mapUser, .done true) onePageReadOnly := by
  have hok : (archMmVirtualChattr onePageMapped 0x400000 mapUser).2 = true := by decide +kernel
  refine ⟨Set.notMem_empty _, ?_⟩
  rw [exec_chattr, hok]
  rfl

theorem step_onePageFound :
    Step ∅ onePageReadOnly (.getmap 0x400abc, .found (some ⟨0x5000, mapUser, 0x1000⟩))
      onePageReadOnly := by
  have hfound : archMmVirtualGetmap onePageReadOnly 0x400abc =
    some ⟨0x5000, mapUser, 0x1000⟩ := by decide +kernel
  refine ⟨trivial, ?_⟩
  rw [Tables.exec, hfound]

/-- A page is mapped, made read-only and looked up at an address inside; the next page stays as it
was. -/
theorem tables_refine_onePage :
    ∃ run, run.map Prod.fst = onePage ∧ Along (Step ∅) emptyTables run ∧
      Along Refines emptyTables run ∧
      (final emptyTables run).space 0x400abc = some ⟨0x5000, mapUser, 0x1000⟩ ∧
      (final emptyTables run).space 0x401000 = none := by
  have hrun : Along (Step ∅) emptyTables
      [(_, onePageMapped), (_, onePageReadOnly), (_, onePageReadOnly)] :=
    ⟨step_onePageMapped, step_onePageReadOnly, step_onePageFound, trivial⟩
  have hrefine := tables_refine (apart_emptyTables ∅) hrun
  refine ⟨_, rfl, hrun, hrefine.1, ?_, ?_⟩
  · rw [hrefine.2]
    decide +kernel
  · rw [hrefine.2]
    decide +kernel

end OnePage

end SeaKernel.PageTable
