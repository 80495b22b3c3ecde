import SeaKernel.Lib.BuddySystem
import SeaKernel.Memory.Buddy
import Mathlib.Data.Nat.Bitwise

/-!
# The allocator keeps a buddy ledger

The freelists and bitmaps of the allocator are read as the free blocks and the clear marks of a
buddy system over pages of `MIN_SIZE` bytes, and the operations are composed of its moves.

The marks are tracked up to order 18. `Books` lets one block of order 19 stand among the held
ones: this is what `deallocate` makes of two free buddies of order 18, and it cannot go on from
there, because the bit it reads at order 19 lies in the byte that `pmm_buddy_init` never fills.

## Main results

* `Books.allocates`: an allocation succeeds with a block that was free, or memory is out
* `Books.releases`: a release gives the block back, merged with its free buddies
-/

namespace SeaKernel.Buddy

open Block Function List Option Allocator Set

/-- The highest order with a bitmap of its own. -/
def topOrder : ℕ := 18

/-- The address of a block of pages. -/
def address (b : Block) : ℕ := b.index * blockSize b.order

/-- The blocks whose bits are in the bitmaps. -/
def tracked : Set Block := {b | b.order ≤ topOrder ∧ b.index < 2 ^ (maxOrder - b.order)}

namespace Allocator

/-- The blocks on the freelists. -/
def free (s : Allocator) : Set Block := {b | address b ∈ s.freelists b.order}

/-- The blocks whose bit is clear. -/
def clear (s : Allocator) : Set Block := {b | s.test b.order b.index = false}

/-- The pages on the freelists. -/
def freePages (s : Allocator) : ℕ :=
  ∑ order ∈ Finset.range (maxOrder + 1), (s.freelists order).length * 2 ^ order

end Allocator

/-! ## Addresses -/

variable {order : ℕ}

section Address

variable {b c : Block}

theorem address_eq (b : Block) : address b = minSize * b.base := by
  rw [address, base, blockSize_eq]
  ring

theorem address_div (b : Block) : address b / blockSize b.order = b.index :=
  Nat.mul_div_cancel _ (blockSize_pos _)

theorem address_inj (horder : b.order = c.order) : address b = address c ↔ b = c := by
  refine ⟨fun h => Block.ext horder ?_, fun h => h ▸ rfl⟩
  rw [← address_div b, ← address_div c, h, horder]

theorem address_of_dvd {a : ℕ} (h : blockSize order ∣ a) :
    address ⟨order, a / blockSize order⟩ = a :=
  Nat.div_mul_cancel h

theorem address_div_of_le (h : order ≤ b.order) :
    address b / blockSize order = b.index * 2 ^ (b.order - order) := by
  rw [address, blockSize_eq, blockSize_eq, ← Nat.sub_add_cancel h, pow_add, Nat.add_sub_cancel,
    show b.index * (minSize * (2 ^ (b.order - order) * 2 ^ order)) =
      b.index * 2 ^ (b.order - order) * (minSize * 2 ^ order) by ring]
  exact Nat.mul_div_cancel _ (Nat.mul_pos (by decide) (Nat.two_pow_pos _))

theorem xor_one_index (b : Block) : b.index ^^^ 1 = b.buddy.index := by
  rcases Nat.even_or_odd b.index with h | h
  · rw [Nat.xor_one_of_even h]
    exact (if_pos (Nat.even_iff.mp h)).symm
  · rw [Nat.xor_one_of_odd h]
    exact (if_neg (by rw [Nat.odd_iff.mp h]; decide)).symm

theorem address_xor (b : Block) : address b ^^^ blockSize b.order = address b.buddy := by
  have hshift : ∀ n, n * blockSize b.order = n <<< (12 + b.order) := fun n => by
    rw [Nat.shiftLeft_eq, blockSize_eq, pow_add]
    rfl
  calc address b ^^^ blockSize b.order
      = b.index * blockSize b.order ^^^ 1 * blockSize b.order := by rw [address, Nat.one_mul]
    _ = (b.index ^^^ 1) * blockSize b.order := by
        rw [hshift, hshift, hshift, Nat.shiftLeft_xor_distrib]
    _ = address b.buddy := by rw [xor_one_index, address, buddy_order]

theorem address_parent (b : Block) :
    (if address b.buddy > address b then address b else address b.buddy) = address b.parent := by
  have hpos := blockSize_pos b.order
  have hparent : address b.parent = b.index / 2 * 2 * blockSize b.order := by
    rw [address, parent_order, blockSize_succ]
    simp only [parent]
    ring
  have hbuddy : address b.buddy = b.buddy.index * blockSize b.order := rfl
  by_cases heven : b.index % 2 = 0
  · have hindex : b.buddy.index = b.index + 1 := if_pos heven
    rw [hparent, hbuddy, hindex, address, if_pos (by rw [Nat.add_mul]; omega),
      Nat.div_mul_cancel (Nat.dvd_of_mod_eq_zero heven)]
  · have hindex : b.buddy.index = b.index - 1 := if_neg heven
    have hle : b.buddy.index * blockSize b.order ≤ address b :=
      Nat.mul_le_mul_right _ (by omega)
    rw [hparent, hbuddy, if_neg (not_lt.mpr hle), hindex]
    congr 1
    omega

theorem address_left (c : Block) : address c.left = c.index * (blockSize (c.order - 1) * 2) := by
  rw [address, left]
  ring

theorem address_right (c : Block) : address c.right = address c.left + blockSize (c.order - 1) := by
  rw [address, address, left, right]
  ring

end Address

/-! ## Tracked blocks -/

section Tracked

variable {b c : Block}

theorem buddy_tracked (h : b ∈ tracked) : b.buddy ∈ tracked := by
  obtain ⟨horder, hindex⟩ := h
  refine ⟨horder, ?_⟩
  have hpow : 2 ^ (maxOrder - b.order) = 2 * 2 ^ (maxOrder - b.order - 1) := by
    rw [← pow_succ', Nat.sub_add_cancel]
    simp only [maxOrder, topOrder] at *
    omega
  have hdiv := b.buddy_index_div
  rw [buddy_order]
  omega

theorem tracked_of_le (hle : c ≤ b) (h : b ∈ tracked) : c ∈ tracked := by
  obtain ⟨horder, hindex⟩ := h
  refine ⟨hle.1.trans horder, ?_⟩
  have hdiv := hle.2
  have hpow : 2 ^ (maxOrder - c.order) = 2 ^ (maxOrder - b.order) * 2 ^ (b.order - c.order) := by
    rw [← pow_add]
    congr 1
    have := hle.1
    simp only [maxOrder, topOrder] at *
    omega
  rw [hpow, ← Nat.div_lt_iff_lt_mul (Nat.two_pow_pos _), hdiv]
  exact hindex

theorem index_lt_of_base {n : ℕ} (h : b.base < 2 ^ n) (hle : b.order ≤ n) :
    b.index < 2 ^ (n - b.order) := by
  rw [base, ← Nat.sub_add_cancel hle, pow_add] at h
  exact Nat.lt_of_mul_lt_mul_right h

end Tracked

theorem byte_lt_of_tracked {b : Block} (hb : b ∈ tracked) :
    bitmapStart b.order + b.index / 8 < bitmapStart (b.order + 1) := by
  obtain ⟨horder, hindex⟩ := hb
  have hlength : 2 ^ (maxOrder - b.order) = bitmapLength b.order * 8 := by
    have htop : b.order ≤ 18 := horder
    simp only [bitmapLength, maxOrder]
    interval_cases b.order <;> rfl
  rw [← bitmapStart_succ]
  omega

theorem cell_inj {b c : Block} (hb : b ∈ tracked) (hc : c ∈ tracked)
    (hbyte : bitmapStart b.order + b.index / 8 = bitmapStart c.order + c.index / 8)
    (hbit : b.index % 8 = c.index % 8) : b = c := by
  have hlb := byte_lt_of_tracked hb
  have hlc := byte_lt_of_tracked hc
  rcases Nat.lt_trichotomy b.order c.order with hlt | heq | hlt
  · have : bitmapStart (b.order + 1) ≤ bitmapStart c.order := bitmapStart_mono hlt
    omega
  · refine Block.ext heq ?_
    rw [heq] at hbyte
    omega
  · have : bitmapStart (c.order + 1) ≤ bitmapStart b.order := bitmapStart_mono hlt
    omega

/-! ## The invariant -/

/-- The allocator's state is a buddy ledger of the seeded pages, with the given blocks held. -/
structure Books (s : Allocator) (held : List Block) (seeded : Finset ℕ) : Prop where
  inited : s.inited = true
  bitmaps : ∀ order ≤ maxOrder, s.bitmaps order = bitmapStart order
  lastByte : s.staticBitmaps (2 ^ 19 - 1) = 0
  aligned : ∀ order, ∀ a ∈ s.freelists order, blockSize order ∣ a
  nodup : ∀ order, (s.freelists order).Nodup
  freelists_top : ∀ order > topOrder, s.freelists order = []
  held_order : ∀ b ∈ held, b.order ≤ topOrder + 1
  seeded_lt : ∀ p ∈ seeded, p < 2 ^ maxOrder
  ledger : Ledger tracked s.free s.clear held seeded
  total : s.freePages + (held.map fun b => 2 ^ b.order).sum = seeded.card

section State

variable {s : Allocator} {b : Block}

theorem assign_setFreelist (s : Allocator) (order bit : ℕ) (val : Bool) (order' : ℕ)
    (stack : List ℕ) : (s.assign order bit val).setFreelist order' stack =
      (s.setFreelist order' stack).assign order bit val := rfl

theorem free_setFreelist {stack : List ℕ} {F : Set Block}
    (hin : ∀ c, c.order = order → (address c ∈ stack ↔ c ∈ F))
    (hout : ∀ c, c.order ≠ order → (c ∈ s.free ↔ c ∈ F)) :
    (s.setFreelist order stack).free = F := by
  ext c
  by_cases hc : c.order = order
  · rw [← hin c hc, ← hc]
    simp [free, setFreelist]
  · rw [← hout c hc]
    simp [free, setFreelist, update_of_ne hc]

theorem free_push :
    (s.setFreelist b.order (address b :: s.freelists b.order)).free = insert b s.free := by
  refine free_setFreelist (fun c hc => ?_) fun c hc => ?_
  · rw [mem_cons, address_inj hc, mem_insert_iff, free, mem_ofPred_eq, hc]
  · have : c ≠ b := fun he => hc (he ▸ rfl)
    simp [this]

theorem free_erase (hnodup : (s.freelists b.order).Nodup) :
    (s.setFreelist b.order ((s.freelists b.order).erase (address b))).free = s.free \ {b} := by
  refine free_setFreelist (fun c hc => ?_) fun c hc => ?_
  · rw [hnodup.mem_erase_iff, Ne, address_inj hc, mem_sdiff, mem_singleton_iff,
      free, mem_ofPred_eq, hc, and_comm]
  · have : c ≠ b := fun he => hc (he ▸ rfl)
    simp [this]

theorem freePages_setFreelist (h : order ≤ maxOrder) (stack : List ℕ) :
    (s.setFreelist order stack).freePages + (s.freelists order).length * 2 ^ order =
      s.freePages + stack.length * 2 ^ order := by
  have hmem : order ∈ Finset.range (maxOrder + 1) := Finset.mem_range.mpr (Nat.lt_succ_of_le h)
  rw [freePages, freePages, ← Finset.add_sum_erase _ _ hmem,
    ← Finset.add_sum_erase _ (fun o => (s.freelists o).length * 2 ^ o) hmem]
  have hrest : ∀ o ∈ (Finset.range (maxOrder + 1)).erase order,
      ((s.setFreelist order stack).freelists o).length * 2 ^ o =
        (s.freelists o).length * 2 ^ o := by
    intro o ho
    simp only [setFreelist, update_of_ne (Finset.ne_of_mem_erase ho)]
  rw [Finset.sum_congr rfl hrest]
  simp only [setFreelist, update_self]
  omega

theorem clear_assign (hlayout : ∀ order ≤ maxOrder, s.bitmaps order = bitmapStart order)
    (hb : b ∈ tracked) {c : Block} (hc : c ∈ tracked) (val : Bool) :
    c ∈ (s.assign b.order b.index val).clear ↔ if c = b then val = false else c ∈ s.clear := by
  have htop : topOrder ≤ maxOrder := by decide
  simp only [clear, mem_ofPred_eq, test, assign, bitmapTest_bitmapAssign]
  rw [hlayout _ (hb.1.trans htop), hlayout _ (hc.1.trans htop)]
  by_cases he : c = b
  · simp [he]
  · rw [if_neg he, if_neg]
    exact fun h => he (cell_inj hb hc h.1 h.2).symm

end State

namespace Books

variable {s : Allocator} {held : List Block} {seeded : Finset ℕ} {b c : Block}

theorem perm {held' : List Block} (h : Books s held seeded) (hp : held.Perm held') :
    Books s held' seeded :=
  { h with
    held_order := fun b hb => h.held_order b (hp.mem_iff.mpr hb)
    ledger := h.ledger.perm hp
    total := by rw [← (hp.map _).sum_eq, h.total] }

theorem congr {s' : Allocator} (h : Books s held seeded) (hbitmaps : s'.bitmaps = s.bitmaps)
    (hfreelists : s'.freelists = s.freelists) (hstatic : s'.staticBitmaps = s.staticBitmaps)
    (hinited : s'.inited = s.inited) : Books s' held seeded := by
  cases s
  cases s'
  subst hbitmaps hfreelists hstatic hinited
  exact ⟨h.inited, h.bitmaps, h.lastByte, h.aligned, h.nodup, h.freelists_top, h.held_order,
    h.seeded_lt, h.ledger, h.total⟩

theorem tracked_of_mem_seeded (h : Books s held seeded) (horder : b.order ≤ topOrder)
    (hb : b.base ∈ seeded) : b ∈ tracked :=
  ⟨horder, index_lt_of_base (h.seeded_lt _ hb) (horder.trans (by decide))⟩

theorem order_of_free (h : Books s held seeded) (hb : b ∈ s.free) : b.order ≤ topOrder := by
  by_contra hgt
  have hnil := h.freelists_top b.order (not_le.mp hgt)
  rw [free, mem_ofPred_eq, hnil] at hb
  cases hb

theorem tracked_of_free (h : Books s held seeded) (hb : b ∈ s.free) : b ∈ tracked :=
  h.tracked_of_mem_seeded (h.order_of_free hb)
    ((h.ledger.mem_pages _).mpr (.inl ⟨b, hb, b.base_mem⟩))

theorem base_mem_seeded (h : Books s held seeded) (hb : b ∈ held) : b.base ∈ seeded :=
  (h.ledger.mem_pages _).mpr (.inr ⟨b, hb, b.base_mem⟩)

theorem lastByte_assign (h : Books s held seeded) (hb : b ∈ tracked) (val : Bool) :
    (s.assign b.order b.index val).staticBitmaps (2 ^ 19 - 1) = 0 := by
  have hmap : s.bitmaps b.order = bitmapStart b.order := h.bitmaps _ (hb.1.trans (by decide))
  have hlast : bitmapStart b.order + b.index / 8 ≠ 2 ^ 19 - 1 := by
    have hlt := byte_lt_of_tracked hb
    have hle : bitmapStart (b.order + 1) ≤ bitmapStart 19 :=
      bitmapStart_mono (Nat.succ_le_succ hb.1)
    have hstart : bitmapStart 19 = 2 ^ 19 - 1 := rfl
    omega
  have hframe : (s.assign b.order b.index val).staticBitmaps (2 ^ 19 - 1) =
      s.staticBitmaps (2 ^ 19 - 1) := by
    simp only [assign, bitmapAssign, hmap]
    cases val <;> exact update_of_ne (Ne.symm hlast) _ _
  rw [hframe, h.lastByte]

theorem update (h : Books s held seeded) (hb : b ∈ tracked) {stack : List ℕ} {val : Bool}
    {held' : List Block} {clear : Set Block}
    (haligned : ∀ a ∈ stack, blockSize b.order ∣ a) (hnodup : stack.Nodup)
    (hheld : ∀ c ∈ held', c.order ≤ topOrder + 1)
    (hledger : Ledger tracked (s.setFreelist b.order stack).free clear held' seeded)
    (hclear : ∀ c ∈ tracked, c ∈ clear ↔ if c = b then val = false else c ∈ s.clear)
    (htotal : stack.length * 2 ^ b.order + (held'.map fun c => 2 ^ c.order).sum =
      (s.freelists b.order).length * 2 ^ b.order + (held.map fun c => 2 ^ c.order).sum) :
    Books ((s.setFreelist b.order stack).assign b.order b.index val) held' seeded where
  inited := h.inited
  bitmaps := h.bitmaps
  lastByte := h.lastByte_assign hb val
  aligned order := by
    by_cases ho : order = b.order
    · subst ho
      simpa [assign, setFreelist] using haligned
    · simpa [assign, setFreelist, update_of_ne ho] using h.aligned order
  nodup order := by
    by_cases ho : order = b.order
    · subst ho
      simpa [assign, setFreelist] using hnodup
    · simpa [assign, setFreelist, update_of_ne ho] using h.nodup order
  freelists_top order hgt := by
    have ho : order ≠ b.order := fun he => absurd hb.1 (not_le.mpr (he ▸ hgt))
    simpa [assign, setFreelist, update_of_ne ho] using h.freelists_top order hgt
  held_order := hheld
  seeded_lt := h.seeded_lt
  ledger := hledger.congr rfl fun c hc => by
    rw [hclear c hc]
    exact clear_assign (s := s.setFreelist b.order stack) h.bitmaps hb hc val
  total := by
    have hpages := freePages_setFreelist (s := s) (hb.1.trans (by decide)) stack
    have hold := h.total
    change (s.setFreelist b.order stack).freePages + _ = _
    omega

/-! ## Allocation -/

theorem take (h : Books s held seeded) {rest : List ℕ}
    (hlist : s.freelists b.order = address b :: rest) :
    s.test b.order b.index = false ∧ (s.setFreelist b.order rest).free = s.free \ {b} ∧
      Books ((s.setFreelist b.order rest).assign b.order b.index true) (b :: held) seeded := by
  have hfree : b ∈ s.free := by
    rw [free, mem_ofPred_eq, hlist]
    exact mem_cons_self
  have hb := h.tracked_of_free hfree
  have hnodup : (address b :: rest).Nodup := hlist ▸ h.nodup b.order
  have herase : (s.setFreelist b.order rest).free = s.free \ {b} := by
    have := free_erase (b := b) (h.nodup b.order)
    rwa [hlist, erase_cons_head] at this
  refine ⟨h.ledger.clear_of_free hb hfree, herase, h.update hb ?_ (nodup_cons.mp hnodup).2 ?_
    (herase ▸ h.ledger.take hfree) ?_ ?_⟩
  · intro a ha
    exact h.aligned b.order a (hlist ▸ mem_cons_of_mem _ ha)
  · intro c hc
    rcases mem_cons.mp hc with rfl | hc
    · exact hb.1.trans (Nat.le_succ _)
    · exact h.held_order c hc
  · intro c _
    by_cases he : c = b <;> simp [he]
  · rw [hlist, length_cons, map_cons, sum_cons]
    ring

theorem split (h : Books s (c :: held) seeded) (hpos : 0 < c.order) (htop : c.order ≤ topOrder) :
    s.test c.right.order c.right.index = false ∧
      Books ((s.setFreelist c.right.order (address c.left :: s.freelists c.right.order)).assign
        c.right.order c.right.index true) (c.right :: held) seeded := by
  have hc : c ∈ tracked := h.tracked_of_mem_seeded htop (h.base_mem_seeded (by simp))
  have hlt : c.right < c := by
    have := c.right.lt_parent
    rwa [parent_right hpos] at this
  have hright : c.right ∈ tracked := tracked_of_le hlt.le hc
  have hledger := h.ledger.split hpos
  have horder : c.left.order = c.right.order := rfl
  have hpush : (s.setFreelist c.right.order (address c.left :: s.freelists c.right.order)).free =
      insert c.left s.free := free_push (b := c.left)
  have hnew : address c.left ∉ s.freelists c.right.order := by
    intro hmem
    have hle : c.left ≤ c := by
      rw [← buddy_right]
      exact c.right.buddy_le_parent.trans (parent_right hpos).le
    exact (h.ledger.free_held c.left hmem c (by simp)).not_le hle
  refine ⟨h.ledger.clear_of_lt_held hright (by simp) hlt, h.update hright ?_ ?_ ?_
    (hpush ▸ hledger) ?_ ?_⟩
  · intro a ha
    rcases mem_cons.mp ha with rfl | ha
    · exact ⟨c.left.index, Nat.mul_comm _ _⟩
    · exact h.aligned _ a ha
  · exact nodup_cons.mpr ⟨hnew, h.nodup _⟩
  · intro d hd
    rcases mem_cons.mp hd with rfl | hd
    · exact hright.1.trans (Nat.le_succ _)
    · exact h.held_order d (mem_cons_of_mem _ hd)
  · intro d _
    by_cases he : d = c.right <;> simp [he]
  · have hpow : 2 ^ c.order = 2 * 2 ^ c.right.order := by
      rw [← pow_succ']
      congr 1
      simp only [Block.right]
      omega
    rw [length_cons, map_cons, map_cons, sum_cons, sum_cons, hpow]
    ring

/-! ## Release -/

theorem give (h : Books s (b :: held) seeded) (htop : b.order ≤ topOrder) :
    Books ((s.setFreelist b.order (address b :: s.freelists b.order)).assign
      b.order b.index false) held seeded := by
  have hb : b ∈ tracked := h.tracked_of_mem_seeded htop (h.base_mem_seeded (by simp))
  have hnew : address b ∉ s.freelists b.order := fun hmem =>
    (h.ledger.free_held b hmem b (by simp)).not_le le_rfl
  refine h.update hb ?_ (nodup_cons.mpr ⟨hnew, h.nodup _⟩)
    (fun c hc => h.held_order c (mem_cons_of_mem _ hc)) (free_push (s := s) ▸ h.ledger.give)
    ?_ ?_
  · intro a ha
    rcases mem_cons.mp ha with rfl | ha
    · exact ⟨b.index, Nat.mul_comm _ _⟩
    · exact h.aligned _ a ha
  · intro c _
    by_cases he : c = b <;> simp [he]
  · rw [length_cons, map_cons, sum_cons]
    ring

theorem merge (h : Books s (b :: held) seeded) (htop : b.order ≤ topOrder)
    (hbuddy : b.buddy ∈ s.free) :
    Books ((s.setFreelist b.order ((s.freelists b.order).erase (address b.buddy))).assign
      b.order b.index false) (b.parent :: held) seeded := by
  have hb : b ∈ tracked := h.tracked_of_mem_seeded htop (h.base_mem_seeded (by simp))
  have herase : (s.setFreelist b.order ((s.freelists b.order).erase (address b.buddy))).free =
      s.free \ {b.buddy} := free_erase (b := b.buddy) (h.nodup _)
  have hmem : address b.buddy ∈ s.freelists b.order := hbuddy
  refine h.update hb (fun a ha => h.aligned _ a (mem_of_mem_erase ha))
    ((h.nodup _).erase _) ?_ (herase ▸ h.ledger.merge hbuddy) ?_ ?_
  · intro c hc
    rcases mem_cons.mp hc with rfl | hc
    · exact Nat.succ_le_succ htop
    · exact h.held_order c (mem_cons_of_mem _ hc)
  · intro c _
    by_cases he : c = b <;> simp [he]
  · have hpos : 0 < (s.freelists b.order).length := length_pos_of_mem hmem
    rw [length_erase_of_mem hmem, map_cons, map_cons, sum_cons, sum_cons,
      parent_order, pow_succ, Nat.sub_mul]
    have hle : 1 * 2 ^ b.order ≤ (s.freelists b.order).length * 2 ^ b.order :=
      Nat.mul_le_mul_right _ hpos
    omega

theorem adopt (h : Books s held seeded) {p : ℕ} (hlt : p < 2 ^ maxOrder) (hp : p ∉ seeded) :
    Books s (⟨0, p⟩ :: held) (insert p seeded) :=
  { h with
    held_order := by
      intro b hb
      rcases mem_cons.mp hb with rfl | hb
      · exact Nat.zero_le _
      · exact h.held_order b hb
    seeded_lt := by
      intro q hq
      rcases Finset.mem_insert.mp hq with rfl | hq
      · exact hlt
      · exact h.seeded_lt q hq
    ledger := h.ledger.adopt hp
    total := by
      rw [Finset.card_insert_of_notMem hp, ← h.total, map_cons, sum_cons]
      ring }

/-! ## The operations -/

/-- What an allocation of order `order` ends with: a new held block, or no memory. -/
def Allocates (s : Allocator) (held : List Block) (seeded : Finset ℕ) (order : ℕ)
    (r : Except Fault (ℕ × Allocator)) : Prop :=
  r = .error .outOfMemory ∨
    ∃ b s', r = .ok (address b, s') ∧ b.order = order ∧ order ≤ topOrder ∧
      Books s' (b :: held) seeded ∧ (Canonical s.free → Canonical s'.free) ∧
      s'.freeMemory = s.freeMemory

section

variable (h : Books s held seeded)

include h

theorem allocates_take (hne : s.freelists order ≠ []) :
    Allocates s held seeded order (Buddy.take s order (blockSize order)) := by
  obtain ⟨a, rest, hlist⟩ := exists_cons_of_ne_nil hne
  obtain ⟨b, rfl, rfl⟩ : ∃ b : Block, b.order = order ∧ address b = a :=
    ⟨⟨order, a / blockSize order⟩, rfl, address_of_dvd (h.aligned order a (by simp [hlist]))⟩
  obtain ⟨htest, hfree, hbooks⟩ := h.take hlist
  refine .inr ⟨b, _, ?_, rfl, ?_, hbooks, ?_, rfl⟩
  · simp only [Buddy.take, hlist, stackPop, address_div, htest]
    rfl
  · exact h.order_of_free (b := b) (by simp [free, hlist])
  · intro hcan
    exact (hcan.mono (F := s.free \ {b}) sdiff_subset).mono hfree.le

omit h in
theorem allocates_split (h : Books s (c :: held) seeded) (horder : c.order = order + 1)
    (htop : c.order ≤ topOrder) :
    Allocates s held seeded order
      (Buddy.take (s.setFreelist order ((address c + blockSize order) :: address c ::
        s.freelists order)) order (blockSize order)) := by
  have hright : c.right.order = order := by
    simp only [Block.right, horder]
    rfl
  have hleft : address c = address c.left := by
    rw [address_left, address, horder, blockSize_succ, Nat.add_sub_cancel]
  have hupper : address c + blockSize order = address c.right := by
    rw [hleft, address_right, horder, Nat.add_sub_cancel]
  obtain ⟨htest, hbooks⟩ := h.split (by omega) htop
  rw [hright] at htest hbooks
  have hindex : address c.right / blockSize order = c.right.index := by
    rw [← hright, address_div]
  refine .inr ⟨c.right, _, ?_, hright, by omega, hbooks, ?_, rfl⟩
  · rw [hupper, hleft]
    simp only [Buddy.take, setFreelist, update_self, stackPop, hindex, update_idem]
    have htest' : ∀ fl, test { s with freelists := fl } order c.right.index = false :=
      fun _ => htest
    rw [if_neg (by rw [htest']; decide)]
  · intro hcan
    have hpush : (s.setFreelist order (address c.left :: s.freelists order)).free =
        insert c.left s.free := by
      rw [← hright]
      exact free_push (b := c.left)
    change Canonical (s.setFreelist order (address c.left :: s.freelists order)).free
    rw [hpush]
    refine hcan.insert fun hfree => ?_
    rw [← buddy_right, buddy_buddy] at hfree
    have hle : c.right ≤ c := c.right.le_parent.trans (parent_right (by omega)).le
    exact (h.ledger.free_held _ hfree c (by simp)).not_le hle

/-- **An allocation takes a free block, splitting larger ones, or memory is out.** In particular
the assertion on the bitmap holds. -/
theorem allocates (horder : order ≤ maxOrder + 1) :
    Allocates s held seeded order (doPmmBuddyAllocate s (blockSize order)) := by
  obtain ⟨n, hn⟩ : ∃ n, n = maxOrder + 1 - order := ⟨_, rfl⟩
  induction n generalizing order s held with
  | zero =>
    have : order = maxOrder + 1 := by omega
    subst this
    refine .inl ?_
    rw [doPmmBuddyAllocate, h.inited, isPower2_blockSize horder]
    rfl
  | succ n ih =>
    have hle : order ≤ maxOrder := by omega
    have hmin := minSize_le_blockSize order
    have hmax := blockSize_le_maxSize hle
    rw [doPmmBuddyAllocate, h.inited, isPower2_blockSize horder, minPossibleOrder_blockSize,
      if_neg (by decide), if_neg (by decide), if_neg (by omega), if_neg (by omega)]
    dsimp only
    split
    · rw [← blockSize_succ]
      rcases ih h (show order + 1 ≤ maxOrder + 1 by omega) (by omega) with
        herr | ⟨c, s', hok, hc, htop, hbooks, hcan, hmem⟩
      · rw [herr]
        exact .inl rfl
      · rw [hok]
        rcases hbooks.allocates_split hc (hc ▸ htop) with
          herr | ⟨b, s'', hok', hb, htop', hbooks', hcan', hmem'⟩
        · exact .inl herr
        · exact .inr ⟨b, s'', hok', hb, htop', hbooks', hcan' ∘ hcan, hmem'.trans hmem⟩
    · next hne => exact h.allocates_take hne

theorem deallocate_climb (hb : b ∈ held) (htop : b.order ≤ topOrder) (hle : order ≤ b.order) :
    deallocate s (address b) order = deallocate s (address b) b.order := by
  obtain ⟨n, hn⟩ : ∃ n, n = b.order - order := ⟨_, rfl⟩
  induction n generalizing order with
  | zero => rw [show order = b.order by omega]
  | succ n ih =>
    have htracked : b ∈ tracked := h.tracked_of_mem_seeded htop (h.base_mem_seeded hb)
    have hlt : (⟨order, b.index * 2 ^ (b.order - order)⟩ : Block) < b := by
      refine lt_iff.mpr ⟨⟨hle, ?_⟩, show order < b.order by omega⟩
      exact Nat.mul_div_cancel _ (Nat.two_pow_pos _)
    have hclear : s.test order (b.index * 2 ^ (b.order - order)) = false :=
      h.ledger.clear_of_lt_held (tracked_of_le hlt.le htracked) hb hlt
    rw [deallocate, h.inited, if_neg (by decide),
      if_neg (by simp only [maxOrder, topOrder] at *; omega)]
    dsimp only
    rw [address_div_of_le hle, hclear, if_pos (by decide), ih (by omega) (by omega)]

/-- From order 19 on all bits are read from the byte that is never filled, and nothing is
done. -/
theorem deallocate_above_top {a : ℕ} (ha : a < memorySize) (horder : topOrder < order) :
    deallocate s a order = .ok (none, s) := by
  obtain ⟨n, hn⟩ : ∃ n, n = maxOrder + 1 - order := ⟨_, rfl⟩
  induction n generalizing order with
  | zero => rw [deallocate, h.inited, if_neg (by decide), if_pos (by omega)]
  | succ n ih =>
    have hbit : a / blockSize order / 8 = 0 := by
      have hsize : blockSize (topOrder + 1) ≤ blockSize order := by
        rw [blockSize_eq, blockSize_eq]
        exact Nat.mul_le_mul_left _ (Nat.pow_le_pow_right (by decide) horder)
      have hmem : memorySize = blockSize (topOrder + 1) * 4 := rfl
      have hlt : a / blockSize order < 4 := by
        rw [Nat.div_lt_iff_lt_mul (blockSize_pos _)]
        omega
      exact Nat.div_eq_of_lt (hlt.trans (by decide))
    have hstart : bitmapStart order = 2 ^ 19 - 1 := by
      rw [bitmapStart, Nat.sub_eq_zero_of_le (show 19 ≤ order from horder), pow_zero]
    have htest : s.test order (a / blockSize order) = false := by
      rw [test, bitmapTest_eq, h.bitmaps order (by omega), hbit, hstart, Nat.add_zero, h.lastByte]
      simp
    rw [deallocate, h.inited, if_neg (by decide), if_neg (by omega)]
    dsimp only
    rw [htest, if_pos (by decide), ih (by omega) (by omega)]

end

/-- What a release ends with: the block is free, merged with its free buddies, unless the merged
block has order 19. That one is on no freelist. -/
def Releases (s : Allocator) (held : List Block) (seeded : Finset ℕ) (b : Block)
    (r : Except Fault (Option ℕ × Allocator)) : Prop :=
  ∃ lost s', r = .ok (if b.order ≤ topOrder then some b.order else none, s') ∧
    (lost = [] ∨ lost = [b.ancestor (topOrder + 1)]) ∧
    Books s' (lost ++ held) seeded ∧ (Canonical s.free → Canonical s'.free) ∧
    s'.freeMemory = s.freeMemory

/-- **A release at the block's own order.** -/
theorem releases (h : Books s (b :: held) seeded) :
    Releases s held seeded b (deallocate s (address b) b.order) := by
  obtain ⟨n, hn⟩ : ∃ n, n = topOrder + 1 - b.order := ⟨_, rfl⟩
  induction n generalizing s b with
  | zero =>
    have horder : b.order = topOrder + 1 := by
      have := h.held_order b (by simp)
      omega
    refine ⟨[b], s, ?_, .inr ?_, h, id, rfl⟩
    · rw [if_neg (by omega)]
      refine h.deallocate_above_top ?_ (by omega)
      rw [address_eq]
      exact Nat.mul_lt_mul_of_pos_left (h.seeded_lt _ (h.base_mem_seeded (by simp))) (by decide)
    · rw [← horder, ancestor_eq_of_le le_rfl]
  | succ n ih =>
    have htop : b.order ≤ topOrder := by omega
    have hb : b ∈ tracked := h.tracked_of_mem_seeded htop (h.base_mem_seeded (by simp))
    have htest : s.test b.order b.index = true := by
      have := h.ledger.not_clear_of_held hb
      simpa [clear] using this
    have hbuddy : (s.assign b.order b.index false).test b.order b.buddy.index = false ↔
        b.buddy ∈ s.free := by
      have hne : b.buddy ≠ b := b.apart_buddy.ne.symm
      have := clear_assign h.bitmaps hb (buddy_tracked hb) false
      rw [if_neg hne, h.ledger.clear_buddy_iff (buddy_tracked hb)] at this
      exact this
    have hindex : address b.buddy / blockSize b.order = b.buddy.index := address_div b.buddy
    rw [deallocate, h.inited, if_neg (by decide),
      if_neg (by simp only [maxOrder, topOrder] at *; omega)]
    dsimp only
    rw [address_div, htest, if_neg (by decide), address_xor, hindex]
    by_cases hfree : b.buddy ∈ s.free
    · have hdelete : stackDelete ((s.assign b.order b.index false).freelists b.order)
          (address b.buddy) = .ok ((s.freelists b.order).erase (address b.buddy)) := if_pos hfree
      rw [hbuddy.mpr hfree, if_pos (by decide), hdelete, address_parent]
      have hmerged := h.merge htop hfree
      obtain ⟨lost, s', hok, hlost, hbooks, hcan, hmem⟩ := ih hmerged (by rw [parent_order]; omega)
      refine ⟨lost, s', ?_, ?_, hbooks, fun hc => hcan ?_, hmem⟩
      · rw [if_pos htop]
        change (do
          let x ← deallocate _ (address b.parent) b.parent.order
          Except.ok (some b.order, x.2)) = _
        rw [assign_setFreelist, hok]
        rfl
      · refine hlost.imp_right fun he => ?_
        rw [he, cons.injEq]
        refine ⟨?_, rfl⟩
        exact ancestor_eq_of_le (b.le_parent.trans (le_ancestor (by rw [parent_order]; omega)))
          |>.symm
      · exact (hc.mono (F := s.free \ {b.buddy}) sdiff_subset).mono
          (free_erase (b := b.buddy) (h.nodup _)).le
    · have hset : (s.assign b.order b.index false).test b.order b.buddy.index = true := by
        simpa using hbuddy.not.mpr hfree
      rw [hset, if_neg (by decide)]
      refine ⟨[], _, ?_, .inl rfl, h.give htop, fun hc => ?_, rfl⟩
      · rw [if_pos htop]
        rfl
      · exact (free_push (s := s) (b := b)).symm ▸ hc.insert hfree

end Books

end SeaKernel.Buddy
