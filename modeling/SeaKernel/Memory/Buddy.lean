import SeaKernel.Lib.Dyadic
import SeaKernel.Lib.Word

/-!
# The buddy allocator

`kernel/pm_buddy.c`. Physical memory is managed in blocks of `MIN_SIZE << order` bytes. Each
order has a freelist (a stack threaded through the free blocks themselves) and a bitmap; all
bitmaps are carved out of one static array by `pmm_buddy_init`.

The order of a block is not stored. `deallocate` scans the bitmaps upward from order 0 and takes
the first order whose bit at the address is set.

The failures of the code (a failed assertion, a panic, the unlinking of an element that is on no
list) are values of `Fault`. The statistics array `num_allocated` is written and never read; it
is left out.

## Main definitions

* `Allocator`: the allocator's globals
* `pmmBuddyInit`, `pmmBuddyAllocate`, `pmmBuddyDeallocate`: the operations
* `bitmapStart`: where `pmm_buddy_init` places the bitmaps

## Main results

* `bitmapTest_bitmapAssign`: the bitmap operations act on single bits
* `pmmBuddyInit_bitmaps`, `pmmBuddyInit_staticBitmaps`: the layout. The bitmaps of the orders 19
  to 21 have length zero and all start at the last byte of the array, which is never filled.
-/

namespace SeaKernel.Buddy

open Function Nat BitVec

/-- `MM_BUDDY_MIN_SIZE`. -/
def minSize : ℕ := 0x1000

def maxOrder : ℕ := 21

/-- `MIN_SIZE << order`, as a `uintptr_t`. -/
def blockSize (order : ℕ) : ℕ := minSize <<< order

def maxSize : ℕ := blockSize maxOrder

def memorySize : ℕ := maxSize

/-- The ways in which the allocator stops. -/
inductive Fault where
  /-- `assert(inited)` -/
  | notInited
  /-- "can only allocate in powers of 2" -/
  | notPowerOfTwo
  /-- "length less than minimum size" -/
  | tooSmall
  /-- "out of physical memory" -/
  | outOfMemory
  /-- `assert(!bitmap_test(bitmaps[order], bit))` -/
  | bitmapSet
  /-- `stack_delete` of an element that is not on the stack -/
  | notOnStack
  deriving DecidableEq, Repr

/-- The globals of `pm_buddy.c`. `bitmaps` holds offsets into `staticBitmaps`; a freelist is
listed from its top. -/
structure Allocator where
  bitmaps : ℕ → ℕ
  freelists : ℕ → List ℕ
  staticBitmaps : ℕ → BitVec 8
  inited : Bool
  freeMemory : ℕ
  totalMemory : ℕ

/-! ## Bitmaps and stacks -/

/-- `bitmap_assign` on the bytes from `ptr` on. -/
def bitmapAssign (mem : ℕ → BitVec 8) (ptr bit : ℕ) (val : Bool) : ℕ → BitVec 8 :=
  let index := bit / 8
  let offset := bit % 8
  if val then update mem (ptr + index) (mem (ptr + index) ||| 1#8 <<< offset)
  else update mem (ptr + index) (mem (ptr + index) &&& ~~~(1#8 <<< offset))

/-- `bitmap_test`. -/
def bitmapTest (mem : ℕ → BitVec 8) (ptr bit : ℕ) : Bool :=
  let index := bit / 8
  let offset := bit % 8
  mem (ptr + index) &&& 1#8 <<< offset ≠ 0

/-- `stack_pop`, which returns `NULL` for an empty stack. -/
def stackPop : List ℕ → ℕ × List ℕ
  | [] => (0, [])
  | obj :: rest => (obj, rest)

/-- `stack_delete`: unlinks the element. -/
def stackDelete (stack : List ℕ) (elem : ℕ) : Except Fault (List ℕ) :=
  if elem ∈ stack then .ok (stack.erase elem) else .error .notOnStack

/-! ## Allocation -/

/-- `IS_POWER2` on a `size_t`. -/
def isPower2 (x : ℕ) : Bool := x ≠ 0 && (x &&& sub64 0 x) = x

/-- The loop of `min_possible_order`. -/
def trailingZeros (n : ℕ) : ℕ :=
  if n ≠ 0 ∧ n % 2 = 0 then trailingZeros (n / 2) + 1 else 0
termination_by n

def minPossibleOrder (address : ℕ) : ℕ := trailingZeros (address / minSize)

namespace Allocator

def test (s : Allocator) (order bit : ℕ) : Bool :=
  bitmapTest s.staticBitmaps (s.bitmaps order) bit

def assign (s : Allocator) (order bit : ℕ) (val : Bool) : Allocator :=
  { s with staticBitmaps := bitmapAssign s.staticBitmaps (s.bitmaps order) bit val }

def setFreelist (s : Allocator) (order : ℕ) (stack : List ℕ) : Allocator :=
  { s with freelists := update s.freelists order stack }

end Allocator

/-- The end of `__do_pmm_buddy_allocate`: a block is taken off its freelist and marked. -/
def take (s : Allocator) (order length : ℕ) : Except Fault (ℕ × Allocator) :=
  let (address, rest) := stackPop (s.freelists order)
  let bit := address / length
  if s.test order bit then .error .bitmapSet
  else .ok (address, (s.setFreelist order rest).assign order bit true)

/-- `__do_pmm_buddy_allocate`. -/
def doPmmBuddyAllocate (s : Allocator) (length : ℕ) : Except Fault (ℕ × Allocator) :=
  if !s.inited then .error .notInited
  else if !isPower2 length then .error .notPowerOfTwo
  else if length < minSize then .error .tooSmall
  else if length > maxSize then .error .outOfMemory
  else
    let order := minPossibleOrder length
    if s.freelists order = [] then do
      let (a, s) ← doPmmBuddyAllocate s (length * 2)
      take (s.setFreelist order ((a + length) :: a :: s.freelists order)) order length
    else take s order length
termination_by maxSize + 1 - length
decreasing_by
  have : minSize = 4096 := rfl
  omega

/-- The bookkeeping of `pmm_buddy_allocate`. -/
def Allocator.debit (s : Allocator) (length : ℕ) : Allocator :=
  { s with freeMemory := sub64 s.freeMemory length }

/-- `pmm_buddy_allocate`. -/
def pmmBuddyAllocate (s : Allocator) (length : ℕ) : Except Fault (ℕ × Allocator) := do
  let (ret, s) ← doPmmBuddyAllocate s length
  return (ret, s.debit length)

/-! ## Release -/

/-- `deallocate`; the result `-1` is `none`. -/
def deallocate (s : Allocator) (address order : ℕ) : Except Fault (Option ℕ × Allocator) :=
  if !s.inited then .error .notInited
  else if order > maxOrder then .ok (none, s)
  else
    let bit := address / blockSize order
    if !s.test order bit then deallocate s address (order + 1)
    else do
      let buddy := address ^^^ blockSize order
      let buddyBit := buddy / blockSize order
      let s := s.assign order bit false
      if !s.test order buddyBit then
        let rest ← stackDelete (s.freelists order) buddy
        let s := s.setFreelist order rest
        let (_, s) ← deallocate s (if buddy > address then address else buddy) (order + 1)
        return (some order, s)
      else
        return (some order, s.setFreelist order (address :: s.freelists order))
termination_by maxOrder + 1 - order

/-- `MIN_SIZE << order` as the `int` it is in `pmm_buddy_deallocate`, converted to `size_t`. -/
def intBlockSize (order : ℕ) : ℕ :=
  let n := u32 (minSize <<< order)
  if n < 2 ^ 31 then n else n + (2 ^ 64 - 2 ^ 32)

/-- The bookkeeping of `pmm_buddy_deallocate` for a block of the order that was found. -/
def Allocator.credit (s : Allocator) (order : ℕ) : Allocator :=
  let freeMemory := u64 (s.freeMemory + intBlockSize order)
  let totalMemory := if s.totalMemory < freeMemory then freeMemory else s.totalMemory
  { s with freeMemory := freeMemory, totalMemory := totalMemory }

/-- `pmm_buddy_deallocate`, on a machine whose memory starts at `physMemoryStart`. -/
def pmmBuddyDeallocate (physMemoryStart : ℕ) (s : Allocator) (address : ℕ) :
    Except Fault Allocator :=
  if address ≥ physMemoryStart + memorySize then .ok s
  else do
    match ← deallocate s address 0 with
    | (some order, s) => return s.credit order
    | (none, s) => return s

/-! ## Initialization -/

def memset (mem : ℕ → BitVec 8) (ptr : ℕ) (c : BitVec 8) (n : ℕ) : ℕ → BitVec 8 :=
  fun p => if ptr ≤ p ∧ p < ptr + n then c else mem p

/-- The loop of `pmm_buddy_init`: `n` rounds from order `i` on. -/
def initLoop : ℕ → ℕ → ℕ → ℕ → Allocator → Allocator
  | 0, _, _, _, s => s
  | n + 1, i, start, length, s =>
    initLoop n (i + 1) (start + length) (length / 2)
      { s with
        bitmaps := update s.bitmaps i start
        staticBitmaps := memset s.staticBitmaps start (~~~0) length
        freelists := update s.freelists i [] }

/-- `pmm_buddy_init`. -/
def pmmBuddyInit (s : Allocator) : Allocator :=
  { initLoop (maxOrder + 1) 0 0 (memorySize / minSize / 8) s with inited := true }

/-- The globals as the loader leaves them. -/
def zeroed : Allocator where
  bitmaps _ := 0
  freelists _ := []
  staticBitmaps _ := 0
  inited := false
  freeMemory := 0
  totalMemory := 0

/-! ## The layout -/

/-- The offset of an order's bitmap. From order 19 on it is the last byte of the array. -/
def bitmapStart (order : ℕ) : ℕ := 2 ^ 19 - 2 ^ (19 - order)

/-- The length of an order's bitmap. From order 19 on it is zero. -/
def bitmapLength (order : ℕ) : ℕ := 2 ^ 18 / 2 ^ order

theorem bitmapStart_succ (order : ℕ) :
    bitmapStart order + bitmapLength order = bitmapStart (order + 1) := by
  unfold bitmapStart bitmapLength
  rcases lt_or_ge order 19 with h | h
  · interval_cases order <;> rfl
  · have hdiv : 2 ^ 18 / 2 ^ order = 0 :=
      Nat.div_eq_of_lt (Nat.pow_lt_pow_right (by decide) (by omega))
    rw [hdiv, Nat.sub_eq_zero_of_le h, Nat.sub_eq_zero_of_le (by omega : 19 ≤ order + 1), add_zero]

theorem bitmapLength_succ (order : ℕ) : bitmapLength order / 2 = bitmapLength (order + 1) := by
  rw [bitmapLength, bitmapLength, Nat.div_div_eq_div_mul, pow_succ 2 order]

theorem bitmapStart_mono {m n : ℕ} (h : m ≤ n) : bitmapStart m ≤ bitmapStart n := by
  unfold bitmapStart
  exact Nat.sub_le_sub_left (Nat.pow_le_pow_right (by decide) (by omega)) _

theorem update_range {α : Type*} (f v : ℕ → α) (i n j : ℕ) :
    (if i + 1 ≤ j ∧ j < i + 1 + n then v j else update f i (v i) j) =
      if i ≤ j ∧ j < i + (n + 1) then v j else f j := by
  by_cases hj : j = i
  · subst hj
    rw [if_neg (by omega), if_pos (by omega), update_self]
  · by_cases hr : i + 1 ≤ j ∧ j < i + 1 + n
    · rw [if_pos hr, if_pos (by omega)]
    · rw [if_neg hr, if_neg (by omega), update_of_ne hj]

theorem initLoop_freeMemory (n i start length : ℕ) (s : Allocator) :
    (initLoop n i start length s).freeMemory = s.freeMemory := by
  induction n generalizing i start length s with
  | zero => rfl
  | succ n ih => exact ih _ _ _ _

theorem initLoop_bitmaps (n i : ℕ) (s : Allocator) (j : ℕ) :
    (initLoop n i (bitmapStart i) (bitmapLength i) s).bitmaps j =
      if i ≤ j ∧ j < i + n then bitmapStart j else s.bitmaps j := by
  induction n generalizing i s with
  | zero => rw [initLoop, if_neg (by omega)]
  | succ n ih =>
    rw [initLoop, bitmapStart_succ, bitmapLength_succ, ih]
    exact update_range s.bitmaps bitmapStart i n j

theorem initLoop_freelists (n i start length : ℕ) (s : Allocator) (j : ℕ) :
    (initLoop n i start length s).freelists j =
      if i ≤ j ∧ j < i + n then [] else s.freelists j := by
  induction n generalizing i start length s with
  | zero => rw [initLoop, if_neg (by omega)]
  | succ n ih =>
    rw [initLoop, ih]
    exact update_range s.freelists (fun _ => []) i n j

theorem initLoop_staticBitmaps (n i : ℕ) (s : Allocator) (p : ℕ) :
    (initLoop n i (bitmapStart i) (bitmapLength i) s).staticBitmaps p =
      if bitmapStart i ≤ p ∧ p < bitmapStart (i + n) then ~~~0 else s.staticBitmaps p := by
  induction n generalizing i s with
  | zero => rw [initLoop, add_zero, if_neg (by omega)]
  | succ n ih =>
    have hnext := bitmapStart_succ i
    have hmono : bitmapStart (i + 1) ≤ bitmapStart (i + 1 + n) := bitmapStart_mono (by omega)
    rw [initLoop, bitmapStart_succ, bitmapLength_succ, ih,
      show i + (n + 1) = i + 1 + n by omega]
    dsimp only [memset]
    by_cases hr : bitmapStart (i + 1) ≤ p ∧ p < bitmapStart (i + 1 + n)
    · rw [if_pos hr, if_pos (by omega)]
    · rw [if_neg hr]
      exact if_congr (by omega) rfl rfl

variable {order : ℕ}

theorem pmmBuddyInit_bitmaps (s : Allocator) (h : order ≤ maxOrder) :
    (pmmBuddyInit s).bitmaps order = bitmapStart order :=
  (initLoop_bitmaps (maxOrder + 1) 0 s order).trans
    (if_pos ⟨zero_le _, by rw [zero_add]; exact lt_succ_of_le h⟩)

theorem pmmBuddyInit_staticBitmaps (s : Allocator) (p : ℕ) :
    (pmmBuddyInit s).staticBitmaps p = if p < 2 ^ 19 - 1 then ~~~0 else s.staticBitmaps p := by
  refine (initLoop_staticBitmaps (maxOrder + 1) 0 s p).trans (if_congr ?_ rfl rfl)
  have hstart : bitmapStart 0 = 0 := rfl
  have hstop : bitmapStart (0 + (maxOrder + 1)) = 2 ^ 19 - 1 := rfl
  omega

/-! ## Bits -/

theorem bitmapTest_eq (mem : ℕ → BitVec 8) (ptr bit : ℕ) :
    bitmapTest mem ptr bit = (mem (ptr + bit / 8)).getLsbD (bit % 8) := by
  have hlt : bit % 8 < 8 := mod_lt _ (by decide)
  have hpow : twoPow 8 (bit % 8) ≠ 0 := by
    generalize bit % 8 = k at hlt
    interval_cases k <;> decide
  dsimp only [bitmapTest]
  rw [← twoPow_eq, and_twoPow]
  cases (mem (ptr + bit / 8)).getLsbD (bit % 8)
  · simp
  · simpa using hpow

/-- **The bitmap operations act on single bits.** -/
theorem bitmapTest_bitmapAssign (mem : ℕ → BitVec 8) (ptr bit : ℕ) (val : Bool) (ptr' bit' : ℕ) :
    bitmapTest (bitmapAssign mem ptr bit val) ptr' bit' =
      if ptr + bit / 8 = ptr' + bit' / 8 ∧ bit % 8 = bit' % 8 then val
      else bitmapTest mem ptr' bit' := by
  have hlt : bit' % 8 < 8 := mod_lt _ (by decide)
  rw [bitmapTest_eq, bitmapTest_eq, bitmapAssign]
  by_cases hbyte : ptr + bit / 8 = ptr' + bit' / 8
  · cases val
    · simp only [hbyte, Bool.false_eq_true, if_false, update_self, true_and,
        getLsbD_and, getLsbD_not, getLsbD_shiftLeft, getLsbD_one]
      grind
    · simp only [hbyte, if_true, update_self, true_and, getLsbD_or, getLsbD_shiftLeft, getLsbD_one]
      grind
  · cases val <;> simp [hbyte, update_of_ne (Ne.symm hbyte)]

/-! ## Sizes -/

theorem blockSize_eq (order : ℕ) : blockSize order = minSize * 2 ^ order := shiftLeft_eq _ _

theorem blockSize_pos (order : ℕ) : 0 < blockSize order := by
  rw [blockSize_eq]
  exact Nat.mul_pos (by decide) (Nat.two_pow_pos order)

theorem blockSize_succ (order : ℕ) : blockSize (order + 1) = blockSize order * 2 := by
  rw [blockSize_eq, blockSize_eq, pow_succ, mul_assoc]

theorem trailingZeros_two_pow (k : ℕ) : trailingZeros (2 ^ k) = k := by
  induction k with
  | zero =>
    rw [trailingZeros, if_neg]
    decide
  | succ k ih =>
    have hpos := Nat.two_pow_pos k
    rw [trailingZeros, pow_succ, if_pos (by omega), Nat.mul_div_cancel _ (by decide), ih]

theorem minPossibleOrder_blockSize (order : ℕ) : minPossibleOrder (blockSize order) = order := by
  rw [minPossibleOrder, blockSize_eq, Nat.mul_div_cancel_left _ (by decide), trailingZeros_two_pow]

theorem isPower2_blockSize (h : order ≤ maxOrder + 1) : isPower2 (blockSize order) = true := by
  have h' : order ≤ 22 := h
  interval_cases order <;> decide

theorem minSize_le_blockSize (order : ℕ) : minSize ≤ blockSize order := by
  rw [blockSize_eq]
  exact Nat.le_mul_of_pos_right _ (Nat.two_pow_pos order)

theorem blockSize_le_maxSize (h : order ≤ maxOrder) : blockSize order ≤ maxSize := by
  rw [maxSize, blockSize_eq, blockSize_eq]
  exact Nat.mul_le_mul_left _ (Nat.pow_le_pow_right (by decide) h)

theorem intBlockSize_eq (h : order ≤ 18) : intBlockSize order = blockSize order := by
  interval_cases order <;> decide

end SeaKernel.Buddy
