import SeaKernel.Lib.Run
import SeaKernel.Memory.BuddyBooks

/-!
# Runs of the buddy allocator

The allocator is initialized, pages are released to it one by one, and blocks are allocated and
released in any order. Two questions are asked of every state of every such run.

* `Sound`: are the blocks handed out disjoint from each other and from the free ones, and does a
  release find the order of its block? Yes, always (`sound_of_run`).
* `Conserved`: is every page that nobody holds on exactly one freelist? Yes, until a release
  completes an aligned chunk of 2 GiB, the size of a block of order 19. The buddies of order 18
  are then merged into a block that has no bit, and the chunk is on no freelist
  (`conserved_iff`).

## Main results

* `Inv.step`: the invariant behind both
* `sound_of_run`, `conserved_iff`
* `freelists_determined`: the free pages determine the blocks on the freelists
-/

namespace SeaKernel.Buddy

open Block List Nat Allocator

/-- A range of addresses. -/
structure Extent where
  address : ℕ
  length : ℕ
  deriving DecidableEq, Repr

instance : Membership ℕ Extent := ⟨fun e x => e.address ≤ x ∧ x < e.address + e.length⟩

instance (x : ℕ) (e : Extent) : Decidable (x ∈ e) :=
  inferInstanceAs (Decidable (e.address ≤ x ∧ x < e.address + e.length))

/-- The ranges have no address in common. -/
def Extent.Disjoint (e f : Extent) : Prop := ∀ x ∈ e, x ∉ f

/-- The blocks on the freelists. -/
def Allocator.freeExtents (s : Allocator) : List Extent :=
  (List.range (maxOrder + 1)).flatMap fun order =>
    (s.freelists order).map fun a => ⟨a, blockSize order⟩

/-- The allocator, the pages released to it at start-up (by number), and the blocks handed out. -/
structure World where
  alloc : Allocator
  seeded : Finset ℕ
  out : List Extent

inductive Event where
  /-- A page is released for the first time. -/
  | seed (page : ℕ)
  | allocate (length : ℕ)
  /-- A block that was handed out is released. -/
  | deallocate (e : Extent)

/-- The state after `pmm_buddy_init`. -/
def start : World where
  alloc := pmmBuddyInit zeroed
  seeded := ∅
  out := []

/-- One call that returns. Lengths are the powers of two from `MIN_SIZE` to `MAX_SIZE`. -/
def Step (physMemoryStart : ℕ) (w : World) : Event → World → Prop
  | .seed page, w' =>
    page * minSize < memorySize ∧ page ∉ w.seeded ∧
      ∃ s, pmmBuddyDeallocate physMemoryStart w.alloc (page * minSize) = .ok s ∧
        w' = { w with alloc := s, seeded := insert page w.seeded }
  | .allocate length, w' =>
    (∃ order ≤ maxOrder, length = blockSize order) ∧
      ∃ a s, pmmBuddyAllocate w.alloc length = .ok (a, s) ∧
        w' = { w with alloc := s, out := ⟨a, length⟩ :: w.out }
  | .deallocate e, w' =>
    e ∈ w.out ∧ ∃ s, pmmBuddyDeallocate physMemoryStart w.alloc e.address = .ok s ∧
      w' = { w with alloc := s, out := w.out.erase e }

/-- Nothing is handed out twice, and the calls that may come next do not fail for another reason
than a lack of memory. -/
structure Sound (w : World) : Prop where
  out_disjoint : w.out.Pairwise Extent.Disjoint
  out_aligned : ∀ e ∈ w.out, e.length ∣ e.address
  out_seeded : ∀ e ∈ w.out, ∀ x ∈ e, x / minSize ∈ w.seeded
  out_free : ∀ e ∈ w.out, ∀ f ∈ w.alloc.freeExtents, e.Disjoint f
  free_disjoint : w.alloc.freeExtents.Pairwise Extent.Disjoint
  order_found : ∀ e ∈ w.out, ∃ order s,
    deallocate w.alloc e.address 0 = .ok (some order, s) ∧ blockSize order = e.length
  allocate_fault : ∀ order ≤ maxOrder, ∀ fault,
    pmmBuddyAllocate w.alloc (blockSize order) = .error fault → fault = .outOfMemory

/-- Every seeded page that is not handed out is on exactly one freelist block, and `free_memory`
counts the freelists. -/
structure Conserved (w : World) : Prop where
  covered : ∀ page ∈ w.seeded, (∀ e ∈ w.out, page * minSize ∉ e) →
    w.alloc.freeExtents.countP (fun f => decide (page * minSize ∈ f)) = 1
  freeMemory : w.alloc.freeMemory = (w.alloc.freeExtents.map Extent.length).sum

/-- With the release of `e`, all pages of the aligned 2 GiB around `e` are free. -/
def World.Completes (w : World) (e : Extent) : Prop :=
  ∀ page, page * minSize / 2 ^ 31 = e.address / 2 ^ 31 →
    page * minSize ∈ e ∨ page ∈ w.seeded ∧ ∀ f ∈ w.out, page * minSize ∉ f

/-- The event is not a release that completes 2 GiB. -/
def Event.KeepsChunk (w : World) : Event → Prop
  | .seed page => ¬ w.Completes ⟨page * minSize, minSize⟩
  | .allocate _ => True
  | .deallocate e => ¬ w.Completes e

/-! ## Blocks as extents -/

variable {page : ℕ}

section Extents

variable {b c : Block} {s : Allocator}

/-- The addresses of a block of pages. -/
def extent (b : Block) : Extent := ⟨address b, blockSize b.order⟩

theorem mem_extent {x : ℕ} : x ∈ extent b ↔ x / minSize ∈ b := by
  have hpos : 0 < minSize := by decide
  change address b ≤ x ∧ x < address b + blockSize b.order ↔ _
  rw [mem_iff, address_eq, blockSize_eq, ← mul_add, le_div_iff_mul_le hpos,
    div_lt_iff_lt_mul hpos, mul_comm minSize, mul_comm minSize]

theorem page_mem_extent : page * minSize ∈ extent b ↔ page ∈ b := by
  rw [mem_extent, Nat.mul_div_cancel _ (by decide)]

theorem Apart.extent (h : b.Apart c) : (extent b).Disjoint (extent c) :=
  fun _ hb hc => h _ (mem_extent.mp hb) (mem_extent.mp hc)

theorem extent_inj : extent b = extent c ↔ b = c := by
  refine ⟨fun h => ?_, fun h => h ▸ rfl⟩
  have haddress : address b = address c := congrArg Extent.address h
  have hsize : blockSize b.order = blockSize c.order := congrArg Extent.length h
  rw [blockSize_eq, blockSize_eq] at hsize
  have horder : b.order = c.order :=
    Nat.pow_right_injective le_rfl (Nat.eq_of_mul_eq_mul_left (by decide) hsize)
  exact (address_inj horder).mp haddress

theorem sum_freeExtents (s : Allocator) :
    (s.freeExtents.map Extent.length).sum = minSize * s.freePages := by
  have hrow : ∀ order, ((s.freelists order).map fun _ => blockSize order).sum =
      minSize * ((s.freelists order).length * 2 ^ order) := by
    intro order
    rw [map_const', sum_replicate, smul_eq_mul, blockSize_eq]
    ring
  have hpages : s.freePages =
      ((range (maxOrder + 1)).map fun o => (s.freelists o).length * 2 ^ o).sum := rfl
  rw [freeExtents, map_flatMap, flatMap_def, sum_flatten, hpages, ← sum_map_mul_left, map_map]
  refine congrArg sum (map_congr_left fun order _ => ?_)
  rw [Function.comp_apply, map_map]
  exact hrow order

end Extents

/-! ## The freelists of a state in order -/

variable {order : ℕ}

namespace Books

variable {s : Allocator} {held : List Block} {seeded : Finset ℕ} {b : Block}

section

variable (h : Books s held seeded)

include h

theorem exists_free_of_mem {a : ℕ} (ha : a ∈ s.freelists order) :
    ∃ b ∈ s.free, b.order = order ∧ (⟨a, blockSize order⟩ : Extent) = extent b := by
  have haddress := address_of_dvd (h.aligned order a ha)
  refine ⟨⟨order, a / blockSize order⟩, ?_, rfl, by rw [extent, haddress]⟩
  change address _ ∈ s.freelists order
  rwa [haddress]

theorem mem_freeExtents {f : Extent} : f ∈ s.freeExtents ↔ ∃ b ∈ s.free, f = extent b := by
  simp only [freeExtents, mem_flatMap, mem_range, mem_map]
  constructor
  · rintro ⟨order, -, a, ha, rfl⟩
    obtain ⟨b, hb, -, he⟩ := h.exists_free_of_mem ha
    exact ⟨b, hb, he⟩
  · rintro ⟨b, hb, rfl⟩
    have htop : topOrder < maxOrder + 1 := by decide
    exact ⟨b.order, (h.order_of_free hb).trans_lt htop, address b, hb, rfl⟩

theorem pairwise_freeExtents : s.freeExtents.Pairwise Extent.Disjoint := by
  refine pairwise_flatMap.mpr ⟨fun order _ => ?_, ?_⟩
  · refine pairwise_map.mpr ((h.nodup order).imp_of_mem fun {a a'} ha ha' hne => ?_)
    obtain ⟨b, hb, -, heb⟩ := h.exists_free_of_mem ha
    obtain ⟨c, hc, -, hec⟩ := h.exists_free_of_mem ha'
    rw [heb, hec]
    refine Apart.extent (h.ledger.free_apart hb hc fun he => hne ?_)
    rw [he, ← hec] at heb
    exact congrArg Extent.address heb
  · refine pairwise_lt_range.imp fun {o o'} hlt e he f hf => ?_
    obtain ⟨a, ha, rfl⟩ := mem_map.mp he
    obtain ⟨a', ha', rfl⟩ := mem_map.mp hf
    obtain ⟨b, hb, hbo, heb⟩ := h.exists_free_of_mem ha
    obtain ⟨c, hc, hco, hec⟩ := h.exists_free_of_mem ha'
    rw [heb, hec]
    refine Apart.extent (h.ledger.free_apart hb hc fun he => ?_)
    rw [he] at hbo
    omega

theorem pages_le : minSize * seeded.card ≤ memorySize := by
  have hsub : seeded ⊆ Finset.range (2 ^ maxOrder) := fun p hp =>
    Finset.mem_range.mpr (h.seeded_lt p hp)
  have hcard := Finset.card_le_card hsub
  rw [Finset.card_range] at hcard
  exact mul_le_mul_left minSize hcard

end

theorem release (h : Books s (b :: held) seeded) (htop : b.order ≤ topOrder) (physMemoryStart : ℕ) :
    ∃ lost s', pmmBuddyDeallocate physMemoryStart s (address b) = .ok s' ∧
      (∃ s'', deallocate s (address b) 0 = .ok (some b.order, s'')) ∧
      (lost = [] ∨ lost = [b.ancestor (topOrder + 1)]) ∧ Books s' (lost ++ held) seeded ∧
      (Canonical s.free → Canonical s'.free) ∧
      s'.freeMemory = u64 (s.freeMemory + blockSize b.order) := by
  have hclimb := h.deallocate_climb (by simp) htop (zero_le _)
  obtain ⟨lost, s', hok, hlost, hbooks, hcan, hmem⟩ := h.releases
  rw [if_pos htop, ← hclimb] at hok
  have hlt : address b < memorySize := by
    rw [address_eq]
    exact mul_lt_mul_of_pos_left (h.seeded_lt _ (h.base_mem_seeded (by simp))) (by decide)
  refine ⟨lost, s'.credit b.order, ?_, ⟨s', hok⟩, hlost, ?_, hcan, ?_⟩
  · rw [pmmBuddyDeallocate, if_neg (by omega), hok]
    rfl
  · exact hbooks.congr rfl rfl rfl rfl
  · rw [← hmem, ← intBlockSize_eq htop]
    rfl

theorem init : Books (pmmBuddyInit zeroed) [] ∅ := by
  have hnil : ∀ order, (pmmBuddyInit zeroed).freelists order = [] := by
    intro order
    change (initLoop (maxOrder + 1) 0 0 (memorySize / minSize / 8) zeroed).freelists order = []
    rw [initLoop_freelists]
    split <;> rfl
  have hset : ∀ b ∈ tracked, b ∉ (pmmBuddyInit zeroed).clear := by
    intro b hb
    have hbyte := byte_lt_of_tracked hb
    have hlast : bitmapStart (b.order + 1) ≤ bitmapStart 19 :=
      bitmapStart_mono (succ_le_succ hb.1)
    have hstart : bitmapStart 19 = 2 ^ 19 - 1 := rfl
    have hmod : b.index % 8 < 8 := mod_lt _ (by decide)
    simp only [clear, Set.mem_ofPred_eq, test, bitmapTest_eq,
      pmmBuddyInit_bitmaps zeroed (hb.1.trans (by decide : topOrder ≤ maxOrder)),
      pmmBuddyInit_staticBitmaps]
    rw [if_pos (by omega), BitVec.getLsbD_not]
    simp only [hmod, decide_true, Bool.true_and]
    simp
  refine ⟨rfl, fun order => pmmBuddyInit_bitmaps zeroed, ?_, ?_, ?_, fun order _ => hnil order,
    by simp, by simp, ?_, ?_⟩
  · rw [pmmBuddyInit_staticBitmaps, if_neg (lt_irrefl _)]
    rfl
  · intro order a ha
    rw [hnil] at ha
    cases ha
  · intro order
    rw [hnil]
    exact nodup_nil
  · refine (Ledger.empty tracked).congr ?_ fun b hb => ?_
    · ext b
      simp [free, hnil]
    · simpa using hset b hb
  · simp [freePages, hnil]

end Books

/-! ## The invariant of runs -/

/-- The extents handed out are blocks of a buddy ledger; the ledger may hold further blocks of
order 19, which nobody has. -/
structure Inv (w : World) (blocks lost : List Block) : Prop where
  out : w.out = blocks.map extent
  order : ∀ b ∈ blocks, b.order ≤ topOrder
  books : Books w.alloc (blocks ++ lost) w.seeded
  canonical : Canonical w.alloc.free
  freeMemory : w.alloc.freeMemory =
    minSize * (w.alloc.freePages + (lost.map fun b => 2 ^ b.order).sum)

theorem Inv.start : Inv start [] [] where
  out := rfl
  order := by simp
  books := Books.init
  canonical := by
    intro b hb
    have := (Books.init.ledger.mem_pages b.base).mpr (.inl ⟨b, hb, b.base_mem⟩)
    cases this
  freeMemory := by
    have htotal := Books.init.total
    simp only [map_nil, sum_nil, Finset.card_empty, add_zero] at htotal
    change (pmmBuddyInit zeroed).freeMemory = minSize * ((pmmBuddyInit zeroed).freePages + 0)
    rw [htotal, pmmBuddyInit]
    exact initLoop_freeMemory _ _ _ _ zeroed

section Step

variable {w w' : World} {blocks lost rest held : List Block} {b : Block} {m : ℕ} {e : Event}
  {s s' : Allocator} {seeded : Finset ℕ}

theorem Inv.of_release (h : Books s (b :: (rest ++ lost)) seeded) (htop : b.order ≤ topOrder)
    (hrest : ∀ c ∈ rest, c.order ≤ topOrder) (hcan : Canonical s.free)
    (hmem : s.freeMemory = minSize * (s.freePages + (lost.map fun b => 2 ^ b.order).sum))
    (hok : pmmBuddyDeallocate m s (address b) = .ok s') :
    ∃ l, (l = [] ∨ l = [b.ancestor (topOrder + 1)]) ∧
      Inv ⟨s', seeded, rest.map extent⟩ rest (l ++ lost) := by
  obtain ⟨l, s'', hok', -, hl, hbooks, hcan', hmem'⟩ := h.release htop m
  obtain rfl : s'' = s' := Except.ok.inj (hok'.symm.trans hok)
  have hperm : (l ++ (rest ++ lost)).Perm (rest ++ (l ++ lost)) := by
    rw [← append_assoc, ← append_assoc]
    exact perm_append_comm.append_right lost
  refine ⟨l, hl, rfl, hrest, hbooks.perm hperm, hcan' hcan, ?_⟩
  have hold := h.total
  have hnew := (hbooks.perm hperm).total
  have hbound := h.pages_le
  simp only [map_cons, sum_cons, map_append, List.sum_append] at hold hnew
  have hpages : s''.freePages + ((l ++ lost).map fun b => 2 ^ b.order).sum =
      s.freePages + (lost.map fun b => 2 ^ b.order).sum + 2 ^ b.order := by
    rw [map_append, List.sum_append]
    omega
  have hle : s.freePages + (lost.map fun b => 2 ^ b.order).sum + 2 ^ b.order ≤ seeded.card := by
    omega
  change s''.freeMemory = _
  rw [hpages, hmem', hmem, blockSize_eq, ← mul_add]
  refine u64_of_lt (lt_of_le_of_lt ((mul_le_mul_left _ hle).trans hbound) ?_)
  decide

theorem lost_iff (h : Books s (b :: held) seeded) {l : List Block}
    (hl : l = [] ∨ l = [b.ancestor (topOrder + 1)]) (h' : Books s' (l ++ held) seeded)
    (hcan : Canonical s'.free) :
    l = [] ↔ ¬ ∀ p ∈ b.ancestor (topOrder + 1), p ∈ b ∨ p ∈ seeded ∧ ∀ c ∈ held, p ∉ c := by
  rcases hl with rfl | rfl
  · refine iff_of_true rfl fun hall => ?_
    -- A canonical family that covers the chunk has a block of order 19 or more.
    have hcov : ∀ p ∈ b.ancestor (topOrder + 1), ∃ f ∈ s'.free, p ∈ f := by
      intro p hp
      have hfree : p ∈ seeded ∧ ∀ c ∈ held, p ∉ c := by
        rcases hall p hp with hpb | hpages
        · refine ⟨(h.ledger.mem_pages p).mpr (.inr ⟨b, by simp, hpb⟩), fun c hc => ?_⟩
          exact rel_of_pairwise_cons h.ledger.held_apart hc p hpb
        · exact hpages
      refine ((h'.ledger.mem_pages p).mp hfree.1).resolve_right ?_
      rintro ⟨c, hc, hpc⟩
      exact hfree.2 c hc hpc
    obtain ⟨f, hf, hle⟩ := hcan.exists_le hcov
    have := h'.order_of_free hf
    have : topOrder + 1 ≤ f.order := hle.1
    omega
  · refine iff_of_false (by simp) (not_not.mpr fun p hp => ?_)
    refine .inr ⟨(h'.ledger.mem_pages p).mpr (.inr ⟨_, by simp, hp⟩), fun c hc => ?_⟩
    exact rel_of_pairwise_cons h'.ledger.held_apart hc p hp

theorem mem_chunk (hb : b.order ≤ topOrder) :
    page * minSize / 2 ^ 31 = address b / 2 ^ 31 ↔ page ∈ b.ancestor (topOrder + 1) := by
  have hsplit : (2 ^ 31 : ℕ) = minSize * 2 ^ 19 := rfl
  have hbase : b.base ∈ b.ancestor (topOrder + 1) :=
    mem_of_le b.base_mem (le_ancestor (hb.trans (Nat.le_succ _)))
  rw [hsplit, ← Nat.div_div_eq_div_mul, ← Nat.div_div_eq_div_mul, address_eq,
    Nat.mul_div_cancel _ (by decide), Nat.mul_div_cancel_left _ (by decide), mem_def,
    ← mem_def.mp hbase]
  rfl

theorem completes_iff (hb : b.order ≤ topOrder) (hseeded : ∀ p ∉ b, p ∈ w.seeded ↔ p ∈ seeded)
    (hout : ∀ p ∉ b, (∀ f ∈ w.out, p * minSize ∉ f) ↔ ∀ c ∈ held, p ∉ c) :
    w.Completes (extent b) ↔
      ∀ p ∈ b.ancestor (topOrder + 1), p ∈ b ∨ p ∈ seeded ∧ ∀ c ∈ held, p ∉ c := by
  refine forall_congr' fun p => ?_
  refine imp_congr (mem_chunk hb) ?_
  rw [page_mem_extent]
  by_cases hp : p ∈ b
  · simp [hp]
  · simp only [hp, false_or, hseeded p hp, hout p hp]

section

variable (h : Inv w blocks lost)

include h

theorem Inv.seed (hs : Step m w (.seed page) w') :
    ∃ l, Inv w' blocks (l ++ lost) ∧ (lost = [] → (l = [] ↔ (Event.seed page).KeepsChunk w)) := by
  obtain ⟨hlt, hnew, s', hok, rfl⟩ := hs
  have hpage : page < 2 ^ maxOrder := Nat.lt_of_mul_lt_mul_right (a := minSize) hlt
  have hbooks := h.books.adopt hpage hnew
  have haddress : address ⟨0, page⟩ = page * minSize := rfl
  have htop : (⟨0, page⟩ : Block).order ≤ topOrder := zero_le _
  obtain ⟨l, hl, hinv⟩ :=
    Inv.of_release hbooks htop h.order h.canonical h.freeMemory (haddress ▸ hok)
  rw [← h.out] at hinv
  refine ⟨l, hinv, fun hlost => ?_⟩
  subst hlost
  rw [append_nil] at hbooks hinv
  rw [lost_iff hbooks hl (hinv.books.perm perm_append_comm) hinv.canonical]
  refine not_congr (completes_iff htop (fun p hp => ?_) fun p _ => ?_).symm
  · have hne : p ≠ page := fun he => hp (by simp [mem_def, he])
    simp [hne]
  · rw [h.out]
    simp [page_mem_extent]

theorem Inv.deallocate {x : Extent} (hs : Step m w (.deallocate x) w') :
    ∃ blocks' l, Inv w' blocks' (l ++ lost) ∧
      (lost = [] → (l = [] ↔ (Event.deallocate x).KeepsChunk w)) := by
  obtain ⟨hmem, s', hok, rfl⟩ := hs
  obtain ⟨b, hb, rfl⟩ : ∃ b ∈ blocks, extent b = x := by
    rw [h.out] at hmem
    exact mem_map.mp hmem
  have hperm : blocks.Perm (b :: blocks.erase b) := perm_cons_erase hb
  have hbooks : Books w.alloc (b :: (blocks.erase b ++ lost)) w.seeded :=
    h.books.perm (hperm.append_right lost)
  have htop := h.order b hb
  obtain ⟨l, hl, hinv⟩ := Inv.of_release hbooks htop
    (fun c hc => h.order c (mem_of_mem_erase hc)) h.canonical h.freeMemory hok
  have hout : w.out.erase (extent b) = (blocks.erase b).map extent := by
    rw [h.out, map_erase fun _ _ => extent_inj.mp]
  refine ⟨blocks.erase b, l, hout ▸ hinv, fun hlost => ?_⟩
  subst hlost
  rw [append_nil] at hbooks hinv
  rw [lost_iff hbooks hl (hinv.books.perm perm_append_comm) hinv.canonical]
  refine not_congr (completes_iff htop (fun _ _ => Iff.rfl) fun p hp => ?_).symm
  rw [h.out]
  simp only [forall_mem_map, page_mem_extent, hperm.mem_iff, forall_mem_cons]
  simp [hp]

theorem Inv.allocate {length : ℕ} (hs : Step m w (.allocate length) w') :
    ∃ b, Inv w' (b :: blocks) lost := by
  obtain ⟨⟨order, horder, rfl⟩, a, s', hok, rfl⟩ := hs
  rcases h.books.allocates (horder.trans (le_succ _)) with
    herr | ⟨b, s'', hok', hb, htop, hbooks, hcan, hmem⟩
  · rw [pmmBuddyAllocate, herr] at hok
    cases hok
  rw [pmmBuddyAllocate, hok'] at hok
  obtain ⟨rfl, hdebit⟩ := Prod.mk.inj (Except.ok.inj hok)
  subst hb
  -- The new count is a variable here, so that no step of the proof computes with it.
  obtain ⟨count, hcount⟩ : ∃ n, n = sub64 s''.freeMemory (blockSize b.order) := ⟨_, rfl⟩
  obtain rfl : { s'' with freeMemory := count } = s' := by rw [← hdebit, hcount, debit]
  have hpages : w.alloc.freePages = s''.freePages + 2 ^ b.order := by
    have hold := h.books.total
    have hnew := hbooks.total
    rw [map_cons, sum_cons] at hnew
    omega
  have hle : w.alloc.freePages + (lost.map fun b => 2 ^ b.order).sum ≤ w.seeded.card := by
    have hold := h.books.total
    rw [map_append, List.sum_append] at hold
    omega
  refine ⟨b, ?_, forall_mem_cons.mpr ⟨htop, h.order⟩, ?_, hcan h.canonical, ?_⟩
  · rw [h.out]
    rfl
  · exact hbooks.congr rfl rfl rfl rfl
  · have hsub : w.alloc.freePages + (lost.map fun b => 2 ^ b.order).sum - 2 ^ b.order =
        s''.freePages + (lost.map fun b => 2 ^ b.order).sum := by omega
    have hlt : minSize * (w.alloc.freePages + (lost.map fun b => 2 ^ b.order).sum) < 2 ^ 64 :=
      lt_of_le_of_lt ((mul_le_mul_left _ hle).trans h.books.pages_le) (by decide)
    have hfit : minSize * 2 ^ b.order ≤
        minSize * (w.alloc.freePages + (lost.map fun b => 2 ^ b.order).sum) :=
      mul_le_mul_left _ (by omega)
    change count = minSize * (s''.freePages + _)
    rw [hcount, hmem, h.freeMemory, blockSize_eq, sub64_of_le hlt hfit, ← Nat.mul_sub, hsub]

/-- **Every step keeps the invariant, and loses a block exactly if it completes a chunk.** -/
theorem Inv.step (hs : Step m w e w') :
    ∃ blocks' l, Inv w' blocks' (l ++ lost) ∧ (lost = [] → (l = [] ↔ e.KeepsChunk w)) := by
  cases e with
  | seed page =>
    obtain ⟨l, hinv, hl⟩ := h.seed hs
    exact ⟨blocks, l, hinv, hl⟩
  | allocate length =>
    obtain ⟨b, hinv⟩ := h.allocate hs
    exact ⟨b :: blocks, [], hinv, fun _ => iff_of_true rfl trivial⟩
  | deallocate x => exact h.deallocate hs

end

/-! ## What the invariant gives -/

theorem Inv.sound (h : Inv w blocks lost) : Sound w := by
  have hheld : ∀ b ∈ blocks, b ∈ blocks ++ lost := fun b hb => mem_append_left _ hb
  have hout : ∀ x ∈ w.out, ∃ b ∈ blocks, x = extent b := by
    intro x hx
    rw [h.out] at hx
    obtain ⟨b, hb, he⟩ := mem_map.mp hx
    exact ⟨b, hb, he.symm⟩
  constructor
  · rw [h.out]
    refine pairwise_map.mpr ?_
    exact (pairwise_append.mp h.books.ledger.held_apart).1.imp Apart.extent
  · intro x hx
    obtain ⟨b, -, rfl⟩ := hout x hx
    exact ⟨b.index, mul_comm _ _⟩
  · intro x hx y hy
    obtain ⟨b, hb, rfl⟩ := hout x hx
    exact (h.books.ledger.mem_pages _).mpr (.inr ⟨b, hheld b hb, mem_extent.mp hy⟩)
  · intro x hx f hf
    obtain ⟨b, hb, rfl⟩ := hout x hx
    obtain ⟨c, hc, rfl⟩ := h.books.mem_freeExtents.mp hf
    exact Apart.extent (h.books.ledger.free_held c hc b (hheld b hb)).symm
  · exact h.books.pairwise_freeExtents
  · intro x hx
    obtain ⟨b, hb, rfl⟩ := hout x hx
    have hperm : (blocks ++ lost).Perm (b :: (blocks ++ lost).erase b) :=
      perm_cons_erase (hheld b hb)
    obtain ⟨-, -, -, ⟨s', hok⟩, -⟩ := (h.books.perm hperm).release (h.order b hb) 0
    exact ⟨b.order, s', hok, rfl⟩
  · intro order horder fault hfault
    rcases h.books.allocates (horder.trans (le_succ _)) with herr | ⟨b, s', hok, -⟩
    · rw [pmmBuddyAllocate, herr] at hfault
      exact (Except.error.inj hfault).symm
    · rw [pmmBuddyAllocate, hok] at hfault
      cases hfault

theorem countP_eq_one {l : List Extent} (hl : l.Pairwise Extent.Disjoint) {x : ℕ} {f : Extent}
    (hf : f ∈ l) (hx : x ∈ f) : l.countP (fun f => decide (x ∈ f)) = 1 := by
  induction l with
  | nil => cases hf
  | cons g l ih =>
    obtain ⟨hg, hl⟩ := pairwise_cons.mp hl
    by_cases hxg : x ∈ g
    · have hrest : l.countP (fun f => decide (x ∈ f)) = 0 := by
        rw [countP_eq_zero]
        intro f hf
        simpa using hg f hf x hxg
      rw [countP_cons_of_pos (by simpa using hxg), hrest]
    · rw [countP_cons_of_neg (by simpa using hxg)]
      rcases mem_cons.mp hf with rfl | hf
      · exact absurd hx hxg
      · exact ih hl hf

/-- **Memory is conserved exactly if no block is lost.** -/
theorem Inv.conserved_iff_lost (h : Inv w blocks lost) : Conserved w ↔ lost = [] := by
  refine ⟨fun hc => ?_, ?_⟩
  · by_contra hne
    obtain ⟨c, rest, rfl⟩ := exists_cons_of_ne_nil hne
    have hmem : c ∈ blocks ++ c :: rest := by simp
    have hapart := pairwise_append.mp h.books.ledger.held_apart
    have hcount := hc.covered c.base (h.books.base_mem_seeded hmem) fun x hx => by
      rw [h.out] at hx
      obtain ⟨b, hb, rfl⟩ := mem_map.mp hx
      rw [page_mem_extent]
      exact fun hin => hapart.2.2 b hb c (by simp) c.base hin c.base_mem
    have hpos : 0 < w.alloc.freeExtents.countP fun f => decide (c.base * minSize ∈ f) := by
      rw [hcount]
      exact one_pos
    obtain ⟨f, hf, hin⟩ := countP_pos_iff.mp hpos
    obtain ⟨b, hb, rfl⟩ := h.books.mem_freeExtents.mp hf
    have hbase : c.base ∈ b := page_mem_extent.mp (of_decide_eq_true hin)
    exact h.books.ledger.free_held b hb c hmem _ hbase c.base_mem
  · rintro rfl
    have hbooks := h.books
    rw [append_nil] at hbooks
    refine ⟨fun page hpage hout => ?_, ?_⟩
    · rcases (hbooks.ledger.mem_pages page).mp hpage with ⟨f, hf, hin⟩ | ⟨b, hb, hin⟩
      · exact countP_eq_one hbooks.pairwise_freeExtents
          (hbooks.mem_freeExtents.mpr ⟨f, hf, rfl⟩) (page_mem_extent.mpr hin)
      · refine absurd (page_mem_extent.mpr hin) (hout _ ?_)
        rw [h.out]
        exact mem_map_of_mem hb
    · rw [sum_freeExtents, h.freeMemory, map_nil, sum_nil, add_zero]

end Step

/-! ## Seeding pages -/

/-- A page is seeded, on a machine whose memory starts at `0x400000`. -/
def World.seed (w : World) (page : ℕ) : World :=
  match pmmBuddyDeallocate 0x400000 w.alloc (page * minSize) with
  | .ok s => { w with alloc := s, seeded := insert page w.seeded }
  | .error _ => w

/-- The run that seeds the pages of a list. -/
def World.seeds (w : World) : List ℕ → List (Event × World)
  | [] => []
  | page :: pages => (.seed page, w.seed page) :: (w.seed page).seeds pages

section Seeds

variable {w : World} {blocks lost : List Block}

theorem Inv.seed_eq (h : Inv w blocks lost) (hlt : page < 2 ^ maxOrder) (hnew : page ∉ w.seeded) :
    Step 0x400000 w (.seed page) (w.seed page) ∧ (w.seed page).seeded = insert page w.seeded ∧
      (w.seed page).out = w.out := by
  obtain ⟨-, s, hok, -⟩ := (h.books.adopt hlt hnew).release (zero_le _) 0x400000
  have haddress : address ⟨0, page⟩ = page * minSize := rfl
  rw [haddress] at hok
  have hseed : w.seed page = { w with alloc := s, seeded := insert page w.seeded } := by
    rw [World.seed, hok]
  rw [hseed]
  refine ⟨⟨?_, hnew, s, hok, rfl⟩, rfl, rfl⟩
  have hsize : memorySize = 2 ^ maxOrder * minSize := by decide
  rw [hsize]
  exact mul_lt_mul_of_pos_right hlt (by decide)

theorem Inv.along_seeds (h : Inv w blocks lost) {pages : List ℕ} (hnodup : pages.Nodup)
    (hnew : ∀ p ∈ pages, p < 2 ^ maxOrder ∧ p ∉ w.seeded) :
    Along (Step 0x400000) w (w.seeds pages) := by
  induction pages generalizing w blocks lost with
  | nil => trivial
  | cons page pages ih =>
    obtain ⟨hpage, hnodup⟩ := nodup_cons.mp hnodup
    obtain ⟨hlt, hn⟩ := hnew page (by simp)
    obtain ⟨hstep, hseeded, -⟩ := h.seed_eq hlt hn
    obtain ⟨l, hinv, -⟩ := h.seed hstep
    refine ⟨hstep, ih hinv hnodup fun p hp => ?_⟩
    obtain ⟨hplt, hpn⟩ := hnew p (by simp [hp])
    refine ⟨hplt, ?_⟩
    rw [hseeded, Finset.mem_insert]
    rintro (rfl | hmem)
    · exact hpage hp
    · exact hpn hmem

theorem Inv.not_conserved_seeds (h : Inv w blocks lost) (hout : w.out = []) {pages : List ℕ}
    (hne : pages ≠ []) (hnodup : pages.Nodup) (hnew : ∀ p ∈ pages, p < 2 ^ 19 ∧ p ∉ w.seeded)
    (hall : ∀ p < 2 ^ 19, p ∈ w.seeded ∨ p ∈ pages) : ¬ After Conserved w (w.seeds pages) := by
  induction pages generalizing w blocks lost with
  | nil => exact absurd rfl hne
  | cons page pages ih =>
    intro hafter
    obtain ⟨hcons, hrest⟩ := after_cons.mp hafter
    obtain ⟨hpage, hnodup⟩ := nodup_cons.mp hnodup
    obtain ⟨hlt, hn⟩ := hnew page (by simp)
    obtain ⟨hstep, hseeded, hout'⟩ := h.seed_eq (hlt.trans (by decide)) hn
    obtain ⟨l, hinv, hl⟩ := h.seed hstep
    cases pages with
    | nil =>
      -- The last page completes the chunk, so that the step loses it.
      obtain rfl : lost = [] := h.conserved_iff_lost.mp hcons
      have hl' : l = [] := by simpa using hinv.conserved_iff_lost.mp hrest.1
      refine (hl rfl).mp hl' fun p hp => ?_
      have hplt : p < 2 ^ 19 := by
        simp only [minSize] at hp
        omega
      rcases hall p hplt with hmem | hmem
      · refine .inr ⟨hmem, fun f hf => ?_⟩
        rw [hout] at hf
        cases hf
      · obtain rfl : p = page := by simpa using hmem
        exact .inl (page_mem_extent (b := ⟨0, p⟩).mpr (by simp [mem_def]))
    | cons next pages =>
      refine ih hinv (hout'.trans hout) (by simp) hnodup (fun p hp => ?_) (fun p hp => ?_) hrest
      · obtain ⟨hplt, hpn⟩ := hnew p (mem_cons_of_mem _ hp)
        refine ⟨hplt, ?_⟩
        rw [hseeded, Finset.mem_insert]
        rintro (rfl | hmem)
        · exact hpage hp
        · exact hpn hmem
      · rw [hseeded, Finset.mem_insert]
        rcases hall p hp with hmem | hmem
        · exact .inl (.inr hmem)
        · exact (mem_cons.mp hmem).imp .inl id

theorem keepsChunk_seed {p : ℕ} (hne : p ≠ page) (hp : p / 2 ^ 19 = page / 2 ^ 19)
    (hnew : p ∉ w.seeded) : (Event.seed page).KeepsChunk w := by
  intro hcomp
  have hchunk : p * minSize / 2 ^ 31 = page * minSize / 2 ^ 31 := by
    simp only [minSize]
    omega
  rcases hcomp p hchunk with ⟨hle, hlt⟩ | ⟨hmem, -⟩
  · refine hne ?_
    simp only [minSize] at hle hlt
    omega
  · exact hnew hmem

theorem Inv.exists_allocate (h : Inv w blocks lost) (horder : order ≤ maxOrder)
    (hne : w.alloc.freelists order ≠ []) (m : ℕ) :
    ∃ w', Step m w (.allocate (blockSize order)) w' := by
  have htake : doPmmBuddyAllocate w.alloc (blockSize order) =
      take w.alloc order (blockSize order) := by
    have hmin := minSize_le_blockSize order
    have hmax := blockSize_le_maxSize horder
    rw [doPmmBuddyAllocate, h.books.inited, isPower2_blockSize (horder.trans (le_succ _)),
      minPossibleOrder_blockSize, if_neg (by decide), if_neg (by decide), if_neg (by omega),
      if_neg (by omega)]
    exact if_neg hne
  rcases h.books.allocates_take hne with herr | ⟨b, s, hok, -⟩
  · rw [take] at herr
    dsimp only at herr
    split at herr <;> cases herr
  · refine ⟨_, ⟨order, horder, rfl⟩, address b, s.debit (blockSize order), ?_, rfl⟩
    rw [pmmBuddyAllocate, htake, hok]
    rfl

theorem freelists_start_seed : (start.seed 0).alloc.freelists 0 ≠ [] := by
  obtain ⟨hstep, hseeded, -⟩ :=
    Inv.start.seed_eq (show 0 < 2 ^ maxOrder by decide) (Finset.notMem_empty 0)
  obtain ⟨l, hinv, hl⟩ := Inv.start.seed hstep
  have hkeep : (Event.seed 0).KeepsChunk start :=
    keepsChunk_seed (p := 1) (by decide) (by decide) (Finset.notMem_empty 1)
  rw [(hl rfl).mpr hkeep] at hinv
  have hmem : 0 ∈ (start.seed 0).seeded := by
    rw [hseeded]
    exact Finset.mem_insert_self _ _
  obtain ⟨f, hf, hin⟩ := ((hinv.books.ledger.mem_pages 0).mp hmem).resolve_right (by simp)
  have hindex : f.index = 0 := by
    rw [← mem_def.mp hin, Nat.zero_div]
  -- A block of a higher order would have page 1 as well.
  have horder : f.order = 0 := by
    by_contra hne
    have hone : 1 ∈ f := by
      rw [mem_def, hindex]
      exact Nat.div_eq_of_lt (Nat.one_lt_two_pow hne)
    have hseed := (hinv.books.ledger.mem_pages 1).mpr (.inl ⟨f, hf, hone⟩)
    rw [hseeded] at hseed
    revert hseed
    decide
  intro hnil
  rw [free, Set.mem_ofPred_eq, horder, hnil] at hf
  cases hf

end Seeds

/-! ## Whole runs -/

theorem after_inv {m : ℕ} {run : List (Event × World)} (hrun : Along (Step m) start run) :
    After (fun w => ∃ blocks lost, Inv w blocks lost) start run := by
  refine hrun.after_of_step ?_ ⟨[], [], Inv.start⟩
  rintro w e w' ⟨blocks, lost, h⟩ hs
  obtain ⟨blocks', l, h', -⟩ := h.step hs
  exact ⟨blocks', l ++ lost, h'⟩

/-- **Nothing is handed out twice**: in every state of every run the outstanding blocks are
disjoint, aligned and made of seeded pages, the freelist blocks are disjoint from them and from
each other, a release finds the order of its block, and an allocation fails for lack of memory
only. -/
theorem sound_of_run (m : ℕ) {run : List (Event × World)} (hrun : Along (Step m) start run) :
    After Sound start run := by
  refine (after_inv hrun).mono ?_
  rintro w ⟨blocks, lost, h⟩
  exact h.sound

theorem seed_allocate_sound :
    ∃ w, Along (Step 0x400000) start (start.seeds [0] ++ [(.allocate (blockSize 0), w)]) ∧
      After Sound start (start.seeds [0] ++ [(.allocate (blockSize 0), w)]) := by
  obtain ⟨hstep, -, -⟩ :=
    Inv.start.seed_eq (show 0 < 2 ^ maxOrder by decide) (Finset.notMem_empty 0)
  obtain ⟨l, hinv, -⟩ := Inv.start.seed hstep
  obtain ⟨w, hw⟩ := hinv.exists_allocate (zero_le _) freelists_start_seed 0x400000
  have hrun : Along (Step 0x400000) start (start.seeds [0] ++ [(.allocate (blockSize 0), w)]) :=
    ⟨hstep, hw, trivial⟩
  exact ⟨w, hrun, sound_of_run 0x400000 hrun⟩

/-- **Memory is conserved in all states of a run exactly if no release of the run completes an
aligned chunk of 2 GiB.** -/
theorem conserved_iff (m : ℕ) {run : List (Event × World)} (hrun : Along (Step m) start run) :
    After Conserved start run ↔ Along (fun w e _ => e.KeepsChunk w) start run := by
  refine after_iff_along (I := fun w => ∃ blocks, Inv w blocks []) ?_ ?_ ?_ ⟨[], Inv.start⟩ hrun
  · rintro w e w' ⟨blocks, h⟩ hs hkeep
    obtain ⟨blocks', l, h', hl⟩ := h.step hs
    rw [(hl rfl).mpr hkeep] at h'
    exact ⟨blocks', h'⟩
  · rintro w ⟨blocks, h⟩
    exact h.conserved_iff_lost.mpr rfl
  · rintro w e w' ⟨blocks, h⟩ hs hc
    obtain ⟨blocks', l, h', hl⟩ := h.step hs
    rw [h'.conserved_iff_lost, append_nil] at hc
    exact (hl rfl).mp hc

theorem seeds_conserved : After Conserved start (start.seeds [0, 1]) := by
  have hrun : Along (Step 0x400000) start (start.seeds [0, 1]) :=
    Inv.start.along_seeds (by decide) (by decide)
  obtain ⟨-, hseeded, -⟩ :=
    Inv.start.seed_eq (show 0 < 2 ^ maxOrder by decide) (Finset.notMem_empty 0)
  refine (conserved_iff 0x400000 hrun).mpr ⟨?_, ?_, trivial⟩
  · exact keepsChunk_seed (p := 2) (by decide) (by decide) (Finset.notMem_empty 2)
  · refine keepsChunk_seed (p := 2) (by decide) (by decide) ?_
    rw [hseeded]
    decide

/-- The pages of the first 2 GiB; nothing is to be computed from their list. -/
@[irreducible] def firstChunk : List ℕ := List.range (2 ^ 19)

/-- **The first 2 GiB are lost once all their pages have been released.** -/
theorem seeds_not_conserved :
    Along (Step 0x400000) start (start.seeds firstChunk) ∧
      ¬ After Conserved start (start.seeds firstChunk) := by
  have hmem : ∀ p, p ∈ firstChunk ↔ p < 2 ^ 19 := fun p => by
    unfold firstChunk
    exact mem_range
  have hnodup : firstChunk.Nodup := by
    unfold firstChunk
    exact nodup_range
  have hne : firstChunk ≠ [] := ne_nil_of_mem ((hmem 0).mpr (by decide))
  have hnew : ∀ p, p ∉ start.seeded := Finset.notMem_empty
  refine ⟨Inv.start.along_seeds hnodup fun p hp => ?_,
    Inv.start.not_conserved_seeds rfl hne hnodup (fun p hp => ?_) fun p hp => ?_⟩
  · exact ⟨((hmem p).mp hp).trans (by decide), hnew p⟩
  · exact ⟨(hmem p).mp hp, hnew p⟩
  · exact .inr ((hmem p).mpr hp)

/-! ## The form of the freelists -/

/-- No block is on its freelist together with its buddy. -/
def World.Merged (w : World) : Prop :=
  ∀ order, ∀ a ∈ w.alloc.freelists order, a ^^^ blockSize order ∉ w.alloc.freelists order

/-- The page belongs to a block of the freelists. -/
def World.FreePage (w : World) (page : ℕ) : Prop :=
  ∃ f ∈ w.alloc.freeExtents, page * minSize ∈ f

section Form

variable {w w' : World} {blocks lost blocks' lost' : List Block}

theorem Inv.merged (h : Inv w blocks lost) : w.Merged := by
  intro order a ha hbuddy
  obtain ⟨b, hb, rfl, he⟩ := h.books.exists_free_of_mem ha
  obtain rfl : a = address b := congrArg Extent.address he
  rw [address_xor] at hbuddy
  exact h.canonical b hb hbuddy

theorem Inv.freePage_iff (h : Inv w blocks lost) (page : ℕ) :
    w.FreePage page ↔ ∃ b ∈ w.alloc.free, page ∈ b := by
  constructor
  · rintro ⟨f, hf, hp⟩
    obtain ⟨b, hb, rfl⟩ := h.books.mem_freeExtents.mp hf
    exact ⟨b, hb, page_mem_extent.mp hp⟩
  · rintro ⟨b, hb, hp⟩
    exact ⟨extent b, h.books.mem_freeExtents.mpr ⟨b, hb, rfl⟩, page_mem_extent.mpr hp⟩

theorem Inv.freelists_subset (h : Inv w blocks lost) (h' : Inv w' blocks' lost')
    (hpages : ∀ page, w.FreePage page ↔ w'.FreePage page) {order a : ℕ}
    (ha : a ∈ w.alloc.freelists order) : a ∈ w'.alloc.freelists order := by
  obtain ⟨b, hb, rfl, he⟩ := h.books.exists_free_of_mem ha
  obtain rfl : a = address b := congrArg Extent.address he
  refine h.canonical.subset h'.canonical h.books.ledger.free_apart (fun page => ?_) hb
  rw [← h.freePage_iff, ← h'.freePage_iff]
  exact hpages page

/-- **The freelists are determined by the pages on them**: no block is free together with its
buddy, and in two states that are reached in any way and have the same free pages, the same blocks
are on every freelist. -/
theorem freelists_determined (m : ℕ) (h : Reaches (Step m) start w)
    (h' : Reaches (Step m) start w') : w.Merged ∧
      ((∀ page, w.FreePage page ↔ w'.FreePage page) →
        ∀ order a, a ∈ w.alloc.freelists order ↔ a ∈ w'.alloc.freelists order) := by
  obtain ⟨run, hrun, rfl⟩ := h
  obtain ⟨run', hrun', rfl⟩ := h'
  obtain ⟨blocks, lost, hinv⟩ := (after_inv hrun).final
  obtain ⟨blocks', lost', hinv'⟩ := (after_inv hrun').final
  refine ⟨hinv.merged, fun hpages order a => ⟨hinv.freelists_subset hinv' hpages, ?_⟩⟩
  exact hinv'.freelists_subset hinv fun page => (hpages page).symm

theorem Inv.seed_kept (h : Inv w [] []) (hlt : page < 2 ^ maxOrder) (hnew : page ∉ w.seeded)
    (hkeep : (Event.seed page).KeepsChunk w) : Inv (w.seed page) [] [] := by
  obtain ⟨hstep, -, -⟩ := h.seed_eq hlt hnew
  obtain ⟨l, hinv, hl⟩ := h.seed hstep
  rwa [(hl rfl).mpr hkeep] at hinv

/-- Two pages released one after the other, in both orders. -/
theorem two_pages_determined : ((start.seed 0).seed 1).Merged ∧
    ∀ order a, a ∈ ((start.seed 0).seed 1).alloc.freelists order ↔
      a ∈ ((start.seed 1).seed 0).alloc.freelists order := by
  have hrun : ∀ {p q}, p < 2 → q < 2 → p ≠ q → Inv ((start.seed p).seed q) [] [] ∧
      ((start.seed p).seed q).seeded = {q, p} ∧
        Reaches (Step 0x400000) start ((start.seed p).seed q) := by
    intro p q hp hq hne
    have hplt : p < 2 ^ maxOrder := hp.trans (by decide)
    have hqlt : q < 2 ^ maxOrder := hq.trans (by decide)
    have hfirst : Inv (start.seed p) [] [] :=
      Inv.start.seed_kept hplt (Finset.notMem_empty p) (keepsChunk_seed (p := 2) (by omega)
        (by omega) (Finset.notMem_empty 2))
    obtain ⟨hstep, hseeded, -⟩ := Inv.start.seed_eq hplt (Finset.notMem_empty p)
    have hseed : (start.seed p).seeded = {p} := hseeded
    have hnew : q ∉ (start.seed p).seeded := by
      rw [hseed, Finset.mem_singleton]
      exact hne.symm
    obtain ⟨hstep', hseeded', -⟩ := hfirst.seed_eq hqlt hnew
    refine ⟨hfirst.seed_kept hqlt hnew (keepsChunk_seed (p := 2) (by omega) (by omega) ?_), ?_,
      [(.seed p, start.seed p), (.seed q, (start.seed p).seed q)], ⟨hstep, hstep', trivial⟩, rfl⟩
    · rw [hseed, Finset.mem_singleton]
      omega
    · rw [hseeded', hseed]
  obtain ⟨hinv, hseeded, hreach⟩ := hrun (p := 0) (q := 1) (by decide) (by decide) (by decide)
  obtain ⟨hinv', hseeded', hreach'⟩ := hrun (p := 1) (q := 0) (by decide) (by decide) (by decide)
  obtain ⟨hmerged, hsame⟩ := freelists_determined 0x400000 hreach hreach'
  refine ⟨hmerged, hsame fun page => ?_⟩
  have hpages := hinv.books.ledger.mem_pages page
  have hpages' := hinv'.books.ledger.mem_pages page
  rw [hinv.freePage_iff, hinv'.freePage_iff]
  simp only [append_nil, not_mem_nil, false_and, exists_false, or_false] at hpages hpages'
  rw [← hpages, ← hpages', hseeded, hseeded', Finset.pair_comm]

end Form

end SeaKernel.Buddy
