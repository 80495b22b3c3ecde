import SeaKernel.Memory.RegionAlgebra

/-!
# When a change of protection takes effect

`mprotect` is to set the protection of all regions in its range and to take away access from the
pages that are already there. `map_change_protect` sets the flags of the first page of a region
only, finds an error when the regions before it are changed already, and cuts off a region at the
end that then refers to other pages of its file. So whether a call takes effect depends on the state
it finds.

## Main results

* `protectLoop_skip`, `protectSound_of_skipped`, `protectSound_of_denied`: what the call does before
  it changes a region, for any regions
* `protect_sound_iff`: when the call takes effect, or fails and changes nothing
-/

namespace SeaKernel.Mapping

open List Option

/-- The entry grants write and execute access only where the protection does. -/
def Pte.Within (prot : Prot) (pte : Pte) : Prop :=
  (pte.write = true → prot.write = true) ∧ (pte.exec = true → prot.exec = true)

/-- The address lies in the range. -/
def InRange (virt len a : ℕ) : Prop := virt ≤ a ∧ a < virt + len

/-- The protection of the range was changed: no entry of the page table grants more, all that is
covered has the new protection, and everything outside is as before. -/
structure ProtectTaken (s s' : AddressSpace) (virt len : ℕ) (prot : Prot) : Prop where
  entries : ∀ n pte, InRange virt len (n * pageSize) → s'.pages n = some pte → pte.Within prot
  inside : ∀ a, InRange virt len a →
    attrAt s'.maps a = (attrAt s.maps a).map (Attr.setProt prot)
  outside : ∀ a, ¬ InRange virt len a →
    attrAt s'.maps a = attrAt s.maps a ∧ target s.maps a = target s'.maps a
  pages : ∀ n, ¬ InRange virt len (n * pageSize) → s'.pages n = s.pages n

/-- No address and no entry of the page table was changed. -/
def Unchanged (s s' : AddressSpace) : Prop :=
  (∀ a, attrAt s'.maps a = attrAt s.maps a ∧ target s.maps a = target s'.maps a) ∧
    s'.pages = s.pages

/-- A call that returns 0 has taken effect, and one that returns an error has changed nothing. -/
def ProtectResult (s s' : AddressSpace) (virt len : ℕ) (prot : Prot) : Except Errno Unit → Prop
  | .ok _ => ProtectTaken s s' virt len prot
  | .error _ => Unchanged s s'

/-- The call returns, with what it should have done. -/
def ProtectSound (s : AddressSpace) (virt len : ℕ) (prot : Prot) : Prop :=
  ∃ s' result, mapChangeProtect s virt len prot = some (s', result) ∧
    ProtectResult s s' virt len prot result

/-- Write access is denied somewhere in the range. -/
def DeniedIn (s : AddressSpace) (virt len : ℕ) (prot : Prot) : Prop :=
  ∃ x, virt ≤ x ∧ x < u64 (virt + len) ∧ Denied s.maps prot x

/-- **When a change of protection takes effect.** If write access is denied somewhere, the regions
before that point have the protection already, and so do the entries of their first pages, and the
range does not start inside a file mapping (unless access is denied there). Otherwise the entries
of the range grant no more than the protection, except for those of the first pages; no file
mapping reaches over the end of the range; and if the end of the range wraps, what is covered has
the protection already. -/
def Protectable (s : AddressSpace) (virt len : ℕ) (prot : Prot) : Prop :=
  (DeniedIn s virt len prot →
    (∀ a t, virt ≤ a → a < u64 (virt + len) → Allowed s.maps prot virt a →
      attrAt s.maps a = some t → t.prot = prot) ∧
    (∀ n pte, Reached s.maps prot virt (u64 (virt + len)) (n * pageSize) →
      s.pages n = some pte → pte.setProt prot = pte) ∧
    (Denied s.maps prot virt ∨ ¬ InsideFile s.maps virt)) ∧
  (¬ DeniedIn s virt len prot →
    (∀ n pte, InRange virt len (n * pageSize) → s.pages n = some pte →
      ¬ Reached s.maps prot virt (u64 (virt + len)) (n * pageSize) → pte.Within prot) ∧
    (u64 (virt + len) ≤ virt → ∀ a t, InRange virt len a → attrAt s.maps a = some t →
      t.prot = prot) ∧
    (virt < u64 (virt + len) → ¬ InsideFile s.maps (u64 (virt + len))))

/-- No region is found at the first `k` pages of the range. -/
def Skipped (maps : List Region) (virt stop k : ℕ) : Prop :=
  ∀ i < k, virt + i * pageSize < stop ∧ findRegion maps (virt + i * pageSize) = none

/-- The range is as a call that takes effect would leave it. -/
def AlreadyTaken (s : AddressSpace) (virt len : ℕ) (prot : Prot) : Prop :=
  (∀ n pte, InRange virt len (n * pageSize) → s.pages n = some pte → pte.Within prot) ∧
    ∀ a t, InRange virt len a → attrAt s.maps a = some t → t.prot = prot

section Effect

variable {s s' : AddressSpace} {virt len : ℕ} {prot : Prot} {result : Except Errno Unit}

theorem setProt_within (prot : Prot) (pte : Pte) : (pte.setProt prot).Within prot :=
  ⟨id, id⟩

theorem map_setProt_eq_self {o : Option Attr} :
    o.map (Attr.setProt prot) = o ↔ ∀ t, o = some t → t.prot = prot := by
  cases o with
  | none => simp
  | some t =>
    simp only [map_some, some.injEq, forall_eq']
    exact ⟨fun h => h ▸ rfl, fun h => h ▸ rfl⟩

theorem map_pteSetProt_eq_self {o : Option Pte} :
    o.map (Pte.setProt prot) = o ↔ ∀ pte, o = some pte → pte.setProt prot = pte := by
  cases o with
  | none => simp
  | some pte => simp

theorem u64_range (hvlt : virt < 2 ^ 64) (hllt : len < 2 ^ 64) :
    u64 (virt + len) = virt + len ∨ u64 (virt + len) ≤ virt := by
  simp only [u64]
  omega

variable {stop : ℕ}

theorem RangeProtected.outside_iff (h : WellFormed s.maps) (hv : pageSize ∣ virt)
    (hs : pageSize ∣ stop) (hlt : virt < stop)
    (hprot : RangeProtected s.maps s'.maps prot virt stop)
    (hall : ∀ x, virt ≤ x → x < stop → ¬ Denied s.maps prot x) :
    (∀ a, ¬ (virt ≤ a ∧ a < stop) → target s.maps a = target s'.maps a) ↔
      ¬ InsideFile s.maps stop := by
  obtain ⟨c₁, c₂, hc₁, hc₂, horigin⟩ := hprot.origin_eq
  obtain rfl : c₁ = true := hc₁.mpr ⟨hlt, hall virt le_rfl hlt⟩
  obtain rfl : c₂ = true := hc₂.mpr ⟨hlt, hall⟩
  constructor
  · rintro hsame ⟨r, hr, hf, hrs, hc⟩
    -- The first address behind the range is rebased.
    have ho := h.origin_eq_some.mpr ⟨r, hr, hc, rfl⟩
    have ho' := (horigin stop).trans (by rw [ho, map_some])
    obtain ⟨-, hiff⟩ := h.target_cut hv hs ho hf ho'
    exact (hiff.mp (hsame stop (by omega))).2 rfl ⟨hrs, le_rfl⟩
  · intro hin a ha
    cases ho : origin s.maps a with
    | none =>
      have ho' : origin s'.maps a = none := (horigin a).trans (by rw [ho, map_none])
      rw [target, target, ho, ho']
    | some o =>
      have ho' := (horigin a).trans (by rw [ho, map_some])
      by_cases hf : o.file.inode.isSome
      · obtain ⟨-, hiff⟩ := h.target_cut hv hs ho hf ho'
        refine hiff.mpr ⟨fun _ hcut => ?_, fun _ hcut => ?_⟩
        · exact hin (h.insideFile_of_origin ho hf (by omega) (by omega))
        · exact hin (h.insideFile_of_origin ho hf hcut.1 hcut.2)
      · have hfile : ((o.cutIf true virt a).cutIf true stop a).file = o.file := by
          rw [Origin.cutIf_file, Origin.cutIf_file]
        rw [target, target, ho, ho', bind_some, bind_some, if_neg hf, hfile,
          if_neg hf]

theorem RangeProtected.keeps_iff_target (hprot : RangeProtected s.maps s'.maps prot virt stop) :
    Keeps s.maps s'.maps ↔ ∀ a, target s.maps a = target s'.maps a := by
  obtain ⟨c₁, c₂, -, -, horigin⟩ := hprot.origin_eq
  have hsome : ∀ a, (target s.maps a).isSome = (target s'.maps a).isSome := by
    intro a
    rw [target, target, horigin]
    cases origin s.maps a with
    | none => rfl
    | some o =>
      rw [map_some, bind_some, bind_some, Origin.cutIf_file, Origin.cutIf_file]
      split <;> rfl
  constructor
  · intro hkeeps a
    by_cases ha : (target s.maps a).isSome
    · exact hkeeps a ha (hsome a ▸ ha)
    · have ha' : ¬ (target s'.maps a).isSome := hsome a ▸ ha
      rw [not_isSome_iff_eq_none.mp ha, not_isSome_iff_eq_none.mp ha']
  · exact fun hsame a _ _ => hsame a

theorem RangeProtected.target_of_le (hprot : RangeProtected s.maps s'.maps prot virt stop)
    (hle : stop ≤ virt) (a : ℕ) : target s.maps a = target s'.maps a := by
  obtain ⟨c₁, c₂, hc₁, hc₂, horigin⟩ := hprot.origin_eq
  obtain rfl : c₁ = false := Bool.eq_false_iff.mpr fun h => by have := (hc₁.mp h).1; omega
  obtain rfl : c₂ = false := Bool.eq_false_iff.mpr fun h => by have := (hc₂.mp h).1; omega
  rw [target, target, horigin]
  exact congrArg (bind · _) map_id'.symm

/-- A call that is not denied takes effect exactly if no entry is forgotten and no file mapping is
cut. -/
theorem protectTaken_iff (h : WellFormed s.maps) (hv : pageSize ∣ virt) (hl : pageSize ∣ len)
    (hvlt : virt < 2 ^ 64) (hllt : len < 2 ^ 64)
    (hprot : RangeProtected s.maps s'.maps prot virt (u64 (virt + len)))
    (hre : Reprotected s s' prot virt (u64 (virt + len)) result)
    (hden : ¬ DeniedIn s virt len prot) :
    ProtectTaken s s' virt len prot ↔
      (∀ n pte, InRange virt len (n * pageSize) → s.pages n = some pte →
        ¬ Reached s.maps prot virt (u64 (virt + len)) (n * pageSize) → pte.Within prot) ∧
      (u64 (virt + len) ≤ virt → ∀ a t, InRange virt len a → attrAt s.maps a = some t →
        t.prot = prot) ∧
      (virt < u64 (virt + len) → ¬ InsideFile s.maps (u64 (virt + len))) := by
  have hall : ∀ x, virt ≤ x → x < u64 (virt + len) → ¬ Denied s.maps prot x :=
    fun x hx hx' hd => hden ⟨x, hx, hx', hd⟩
  have hallowed : ∀ a, a < u64 (virt + len) → Allowed s.maps prot virt a :=
    fun a ha x hx hxa => hall x hx (by omega)
  have hstop : pageSize ∣ u64 (virt + len) :=
    (Nat.dvd_mod_iff (by decide)).mpr (Nat.dvd_add hv hl)
  have hrange := u64_range hvlt hllt
  have hreach : ∀ x, Reached s.maps prot virt (u64 (virt + len)) x → InRange virt len x := by
    rintro x ⟨hx, hx', -⟩
    exact ⟨hx, by omega⟩
  constructor
  · intro htaken
    refine ⟨fun n pte hn hpte hnot => ?_, fun hwrap a t ha ht => ?_, fun hlt => ?_⟩
    · refine htaken.entries n pte hn ?_
      rw [hre.page_out n hnot, hpte]
    · -- The loop does not run, so that the protection is the old one.
      have hsame := htaken.inside a ha
      rw [hre.attr_out a (by omega)] at hsame
      exact map_setProt_eq_self.mp hsame.symm t ht
    · refine (hprot.outside_iff h hv hstop hlt hall).mp fun a ha => ?_
      exact (htaken.outside a fun hin => ha ⟨hin.1, by have := hin.2; omega⟩).2
  · rintro ⟨hentries, hwrap, hcut⟩
    refine ⟨fun n pte hn hpte => ?_, fun a ha => ?_, fun a ha => ⟨?_, ?_⟩, fun n hn => ?_⟩
    · by_cases hr : Reached s.maps prot virt (u64 (virt + len)) (n * pageSize)
      · rw [hre.page_in n hr] at hpte
        obtain ⟨pte, -, rfl⟩ := map_eq_some_iff.mp hpte
        exact setProt_within prot pte
      · rw [hre.page_out n hr] at hpte
        exact hentries n pte hn hpte hr
    · rcases hrange with hfit | hle
      · have halt := ha.2
        exact hre.attr_in a ha.1 (by omega) (hallowed a (by omega))
      · rw [hre.attr_out a (by omega)]
        exact (map_setProt_eq_self.mpr fun t => hwrap hle a t ha).symm
    · refine hre.attr_out a fun hin => ha ⟨hin.1, ?_⟩
      have := hin.2.1
      omega
    · rcases Nat.lt_or_ge virt (u64 (virt + len)) with hlt | hle
      · refine (hprot.outside_iff h hv hstop hlt hall).mpr (hcut hlt) a fun hin => ha ⟨hin.1, ?_⟩
        omega
      · exact hprot.target_of_le hle a
    · exact hre.page_out n fun hr => hn (hreach _ hr)

theorem unchanged_iff (h : WellFormed s.maps) (hv : pageSize ∣ virt) (hl : pageSize ∣ len)
    (hvlt : virt < 2 ^ 64) (hrun : mapChangeProtect s virt len prot = some (s', result))
    (hprot : RangeProtected s.maps s'.maps prot virt (u64 (virt + len)))
    (hre : Reprotected s s' prot virt (u64 (virt + len)) result)
    (hden : DeniedIn s virt len prot) :
    Unchanged s s' ↔ (∀ a t, virt ≤ a → a < u64 (virt + len) → Allowed s.maps prot virt a →
        attrAt s.maps a = some t → t.prot = prot) ∧
      (∀ n pte, Reached s.maps prot virt (u64 (virt + len)) (n * pageSize) →
        s.pages n = some pte → pte.setProt prot = pte) ∧
      (Denied s.maps prot virt ∨ ¬ InsideFile s.maps virt) := by
  obtain ⟨x, hx, hx', hd⟩ := hden
  have hkeeps : (∀ a, target s.maps a = target s'.maps a) ↔
      Denied s.maps prot virt ∨ ¬ InsideFile s.maps virt := by
    rw [← hprot.keeps_iff_target, (protect_step h hv hl hvlt hrun).2, Event.CutsNoFile,
      imp_iff_right (by omega), and_iff_left (Or.inl ⟨x, hx, hx', hd⟩)]
  have hattr : (∀ a, attrAt s'.maps a = attrAt s.maps a) ↔
      ∀ a t, virt ≤ a → a < u64 (virt + len) → Allowed s.maps prot virt a →
        attrAt s.maps a = some t → t.prot = prot := by
    constructor
    · intro hsame a t ha ha' hal
      exact map_setProt_eq_self.mp ((hre.attr_in a ha ha' hal).symm.trans (hsame a)) t
    · intro hsame a
      by_cases hin : virt ≤ a ∧ a < u64 (virt + len) ∧ Allowed s.maps prot virt a
      · rw [hre.attr_in a hin.1 hin.2.1 hin.2.2]
        exact map_setProt_eq_self.mpr fun t => hsame a t hin.1 hin.2.1 hin.2.2
      · exact hre.attr_out a hin
  have hpages : s'.pages = s.pages ↔
      ∀ n pte, Reached s.maps prot virt (u64 (virt + len)) (n * pageSize) →
        s.pages n = some pte → pte.setProt prot = pte := by
    rw [funext_iff]
    refine forall_congr' fun n => ?_
    by_cases hr : Reached s.maps prot virt (u64 (virt + len)) (n * pageSize)
    · simp only [hre.page_in n hr, map_pteSetProt_eq_self, hr, true_imp_iff]
    · simp only [hre.page_out n hr, hr, false_imp_iff, implies_true]
  rw [Unchanged, forall_and, hattr, hkeeps, hpages, and_assoc, and_congr_right_iff]
  exact fun _ => and_comm

theorem wellFormed_protectSound_iff (prot : Prot) (h : WellFormed s.maps)
    (hv : pageSize ∣ virt) (hl : pageSize ∣ len) (hvlt : virt < 2 ^ 64) (hllt : len < 2 ^ 64) :
    ProtectSound s virt len prot ↔ Protectable s virt len prot := by
  obtain ⟨s₁, result₁, hrun, hre, hprot⟩ := mapChangeProtect_reprotected h hv hl hvlt prot
  have hsound : ProtectSound s virt len prot ↔ ProtectResult s s₁ virt len prot result₁ := by
    constructor
    · rintro ⟨s', result, hrun', hresult⟩
      obtain ⟨rfl, rfl⟩ := Prod.mk.inj (some.inj (hrun'.symm.trans hrun))
      exact hresult
    · exact fun hresult => ⟨s₁, result₁, hrun, hresult⟩
  rw [hsound, Protectable]
  by_cases hden : DeniedIn s virt len prot
  · obtain rfl := hre.error hden
    rw [imp_iff_right hden, and_iff_left fun hnot => absurd hden hnot]
    exact unchanged_iff h hv hl hvlt hrun hprot hre hden
  · obtain rfl := hre.ok fun x hx hx' hd => hden ⟨x, hx, hx', hd⟩
    rw [imp_iff_right hden, and_iff_right fun hnot => absurd hnot hden]
    exact protectTaken_iff h hv hl hvlt hllt hprot hre hden

/-! ### Pages without a region -/

/-- The loop passes over pages at which no region is found. -/
theorem protectLoop_skip {x stop k : ℕ} (hstop : u64 (virt + len) = stop) (hpage : pageSize ∣ stop)
    (hx : pageSize ∣ x) (h : Skipped s.maps x stop k) (rounds : ℕ) :
    protectLoop virt len prot (rounds + k) s x =
      protectLoop virt len prot rounds s (x + k * pageSize) := by
  induction k generalizing x with
  | zero => simp
  | succ k ih =>
    obtain ⟨hlt, hnone⟩ := h 0 (by omega)
    rw [Nat.zero_mul, Nat.add_zero] at hlt hnone
    have hfit : x + pageSize < 2 ^ 64 := by
      have hbound := hstop ▸ u64_lt (virt + len)
      simp only [pageSize] at *
      omega
    have hnext : Skipped s.maps (x + pageSize) stop k := by
      intro i hi
      rw [Nat.add_assoc, Nat.add_comm pageSize, ← Nat.succ_mul]
      exact h (i + 1) (by omega)
    rw [← Nat.add_assoc, protectLoop, hstop, if_pos hlt, hnone]
    dsimp only
    rw [u64_of_lt hfit, ih (Nat.dvd_add hx dvd_rfl) hnext, Nat.add_assoc, Nat.succ_mul,
      Nat.add_comm pageSize]

variable {k : ℕ} (hv : pageSize ∣ virt) (hl : pageSize ∣ len) (hvlt : virt < 2 ^ 64)
  (h : Skipped s.maps virt (u64 (virt + len)) k)

include hv hl hvlt h

theorem mapChangeProtect_skip (prot : Prot) : ∃ rounds, mapChangeProtect s virt len prot =
    protectLoop virt len prot (rounds + 1) s (virt + k * pageSize) := by
  have hpage : pageSize ∣ u64 (virt + len) := by
    simp only [u64, pageSize] at *
    omega
  have hk : k ≤ len / pageSize := by
    cases k with
    | zero => exact Nat.zero_le _
    | succ k =>
      have hlt := (h k (by omega)).1
      simp only [u64, pageSize] at *
      omega
  refine ⟨len / pageSize - k, ?_⟩
  rw [← protectLoop_skip rfl hpage hv h, mapChangeProtect]
  congr 1
  omega

/-- A call that finds no region changes nothing. -/
theorem protectSound_of_skipped (hend : u64 (virt + len) ≤ virt + k * pageSize) :
    ProtectSound s virt len prot ↔ AlreadyTaken s virt len prot := by
  obtain ⟨rounds, hrun⟩ := mapChangeProtect_skip hv hl hvlt h prot
  rw [protectLoop, if_neg (not_lt.mpr hend)] at hrun
  constructor
  · rintro ⟨s', result, hrun', hresult⟩
    obtain ⟨rfl, rfl⟩ := Prod.mk.inj (some.inj (hrun'.symm.trans hrun))
    exact ⟨hresult.entries, fun a t ha => map_setProt_eq_self.mp (hresult.inside a ha).symm t⟩
  · rintro ⟨hentries, hattr⟩
    refine ⟨s, .ok (), hrun, hentries, fun a ha => ?_, fun _ _ => ⟨rfl, rfl⟩, fun _ _ => rfl⟩
    exact (map_setProt_eq_self.mpr fun t => hattr a t ha).symm

/-- A call that is denied access to the first region it finds changes nothing. -/
theorem protectSound_of_denied (hlt : virt + k * pageSize < u64 (virt + len))
    (hdenied : Denied s.maps prot (virt + k * pageSize)) : ProtectSound s virt len prot := by
  obtain ⟨rounds, hrun⟩ := mapChangeProtect_skip hv hl hvlt h prot
  refine ⟨s, .error .eacces, hrun.trans ?_, fun _ => ⟨rfl, rfl⟩, rfl⟩
  obtain ⟨o, horigin, hwrite, hfile⟩ := hdenied
  obtain ⟨r, hregion, rfl⟩ := map_eq_some_iff.mp horigin
  obtain ⟨p, hfind, rfl⟩ := map_eq_some_iff.mp hregion
  have hfile : p.reg.file.write = false := hfile
  rw [protectLoop, if_pos hlt, hfind]
  simp [hwrite, hfile]

end Effect

end SeaKernel.Mapping
