import SeaKernel.Fs.PageCache
import SeaKernel.Lib.Run

/-!
# The contents of a file

The bytes of a file are spread over the cache and the blocks, and what is behind the length of the
file may be anything there. A page that is loaded is cleared behind the length, but its block is
not, and a page that stays in the cache is not either: when the length grows over such bytes without
writing them, they come back. Without truncations there are no such bytes.

## Main results

* `Holds.doReadData`, `Holds.doWriteData`: the loops, with evictions at any point
* `contents_of_clean_run`: in a run in which every gap is clear, reads return the contents
* `truncated_bytes_return`: bytes cut off by a truncation are read again
* `contents_of_run`: without truncations, reads return the contents in every run
-/

namespace SeaKernel.PageCache

open Set Function List Option Nat File Contents

variable {f : File} {b : ℕ → UInt8} {s : Set ℕ} {skip : Option ℕ} {n : ℕ}

/-- The page is not in the cache, or not dirty. -/
def File.Unmodified (f : File) (n : ℕ) : Prop := ∀ page, f.cached n = some page → page.dirty = false

/-- The cache and the blocks hold the given bytes at the positions of the set; of one page, only
what is in the cache counts. -/
structure Agrees (f : File) (b : ℕ → UInt8) (s : Set ℕ) (skip : Option ℕ) : Prop where
  cached : ∀ n page, f.cached n = some page → ∀ o < pageSize, n * pageSize + o ∈ s →
    page.data o = b (n * pageSize + o)
  stored : ∀ n, skip ≠ some n → f.Unmodified n → ∀ o < pageSize, n * pageSize + o ∈ s →
    f.stored n o = b (n * pageSize + o)

theorem Agrees.mono (h : Agrees f b s none) {s' : Set ℕ} (hs : s' ⊆ s) : Agrees f b s' skip :=
  ⟨fun n page hpage o ho hpos => h.cached n page hpage o ho (hs hpos),
    fun n _ hclean o ho hpos => h.stored n (by simp) hclean o ho (hs hpos)⟩

/-! ## Loading and evicting pages -/

@[simp] theorem length_evict (f : File) (n : ℕ) : (f.evict n).length = f.length := by
  unfold evict
  split
  · rfl
  · split <;> rfl

theorem cached_evict (f : File) (n m : ℕ) :
    (f.evict n).cached m = if m = n then none else f.cached m := by
  unfold evict
  split
  · split
    · simp_all
    · rfl
  · by_cases hm : m = n
    · simp [hm]
    · split <;> simp [writePage, hm]

theorem stored_evict_of_unmodified {m o : ℕ} (h : m ≠ n ∨ f.Unmodified n) :
    (f.evict n).stored m o = f.stored m o := by
  unfold evict
  split
  · rfl
  · rename_i page hpage
    rcases h with hm | hclean
    · split <;> simp [stored, writePage, hm]
    · simp [stored, hclean page hpage]

theorem stored_evict_self {page : Page} {o : ℕ} (hpage : f.cached n = some page)
    (hdirty : page.dirty = true) : (f.evict n).stored n o = page.data o := by
  simp [evict, hpage, hdirty, stored, writePage]

theorem Agrees.evict (h : Agrees f b s skip) (n : ℕ) : Agrees (f.evict n) b s skip := by
  constructor
  · intro m page hpage o ho hpos
    rw [cached_evict] at hpage
    split at hpage
    · cases hpage
    · exact h.cached m page hpage o ho hpos
  · intro m hskip hclean o ho hpos
    by_cases hdirty : ∃ page, f.cached n = some page ∧ page.dirty = true ∧ m = n
    · -- the page is written back
      obtain ⟨page, hpage, hdirty, rfl⟩ := hdirty
      rw [stored_evict_self hpage hdirty]
      exact h.cached m page hpage o ho hpos
    · have hunmodified : m ≠ n ∨ f.Unmodified n := by
        refine or_iff_not_imp_left.mpr fun hm page hpage => ?_
        exact Bool.eq_false_iff.mpr fun hd => hdirty ⟨page, hpage, hd, not_not.mp hm⟩
      rw [stored_evict_of_unmodified hunmodified]
      refine h.stored m hskip (fun page hpage => ?_) o ho hpos
      rcases eq_or_ne m n with rfl | hm
      · exact hunmodified.resolve_left (not_not.mpr rfl) page hpage
      · exact hclean page (by rw [cached_evict, if_neg hm, hpage])

theorem Agrees.evictAll (h : Agrees f b s skip) (ns : List ℕ) :
    Agrees (ns.foldl File.evict f) b s skip := by
  induction ns generalizing f with
  | nil => exact h
  | cons n ns ih => exact ih (h.evict n)

theorem length_evictAll (f : File) (ns : List ℕ) : (ns.foldl File.evict f).length = f.length := by
  induction ns generalizing f with
  | nil => rfl
  | cons n ns ih => exact (ih (f.evict n)).trans (length_evict f n)

theorem cached_evictAll (f : File) {ns : List ℕ} (h : n ∉ ns) :
    (ns.foldl File.evict f).cached n = f.cached n := by
  induction ns generalizing f with
  | nil => rfl
  | cons m ns ih =>
    rw [mem_cons, not_or] at h
    rw [foldl_cons, ih _ h.2, cached_evict, if_neg h.1]

theorem thispagelen_eq (hlength : f.length ≤ 2 ^ 43) (hn : n < 2 ^ 31) :
    f.thispagelen n = min (f.length - n * pageSize) pageSize := by
  have hpage : n * pageSize < 2 ^ 43 := by
    simp only [pageSize]
    omega
  rw [thispagelen, u64_of_lt (by omega), s64_sub64 (by omega) (by omega)]
  split
  · omega
  · split <;> omega

theorem Iio_max (a b : ℕ) : Iio (max a b) = Iio a ∪ Iio b := by
  ext i
  simp

/-- The file holds the contents, and beyond them the same bytes at further positions. -/
structure Holds (f : File) (c : Contents UInt8) (s : Set ℕ) : Prop where
  length : f.length = c.length
  length_le : c.length ≤ 2 ^ 43
  agrees : Agrees f c.bytes s none
  subset : Iio c.length ⊆ s

variable {c : Contents UInt8} {s' : Set ℕ}

theorem Holds.evictAll (h : Holds f c s) (ns : List ℕ) : Holds (ns.foldl File.evict f) c s :=
  ⟨(length_evictAll f ns).trans h.length, h.length_le, h.agrees.evictAll ns, h.subset⟩

@[simp] theorem length_readPage (f : File) (n : ℕ) : (f.readPage n).1.length = f.length := by
  unfold readPage
  split <;> rfl

@[simp] theorem cached_readPage (f : File) (n : ℕ) : (f.readPage n).1.cached = f.cached := by
  unfold readPage
  split <;> rfl

theorem readPage_snd (f : File) (n o : ℕ) : (f.readPage n).2 o = f.stored n o := by
  unfold readPage stored
  split <;> simp_all

theorem stored_readPage (f : File) (n m o : ℕ) : (f.readPage n).1.stored m o = f.stored m o := by
  unfold readPage stored
  split
  · rfl
  · rcases eq_or_ne m n with rfl | hm
    · simp_all
    · simp [hm]

theorem pageInitialize_spec (f : File) (n : ℕ) (stale : Bool) : (f.pageInitialize n stale).2 =
      ⟨fun o => if o < f.thispagelen n then f.stored n o else 0, stale⟩ ∧
    (f.pageInitialize n stale).1.length = f.length ∧
    (∀ m, (f.pageInitialize n stale).1.cached m =
      if m = n then some (f.pageInitialize n stale).2 else f.cached m) ∧
    ∀ m o, (f.pageInitialize n stale).1.stored m o = f.stored m o := by
  rw [pageInitialize]
  generalize f.thispagelen n = len
  rcases eq_or_ne len 0 with rfl | hlen
  · refine ⟨by simp [load], rfl, fun m => ?_, fun m o => rfl⟩
    simp only [load, if_true, update_apply]
  · simp only [load, if_neg hlen]
    refine ⟨by simp only [readPage_snd], length_readPage f n, fun m => ?_, stored_readPage f n⟩
    rw [update_apply, cached_readPage]

/-- **Loading a page**: what is behind the length of the file is zero in the page, whatever its
block holds there. -/
theorem Holds.pageInitialize (h : Holds f c s) (hn : n < 2 ^ 31) (hcached : f.cached n = none)
    (hagrees : Agrees f c.bytes s' skip) (stale : Bool) :
    Agrees (f.pageInitialize n stale).1 c.bytes s' skip := by
  obtain ⟨hpage, -, hcached', hstored'⟩ := pageInitialize_spec f n stale
  constructor
  · intro m page hm o ho hpos
    rw [hcached'] at hm
    split at hm
    · rename_i heq
      obtain rfl := some.inj hm
      subst heq
      rw [hpage, thispagelen_eq (h.length ▸ h.length_le) hn]
      dsimp only
      split
      · refine h.agrees.stored m (by simp) (fun page hm' => ?_) o ho (h.subset ?_)
        · rw [hcached] at hm'
          cases hm'
        · rw [mem_Iio, ← h.length]
          omega
      · rw [c.bytes_eq_zero _ (by rw [← h.length]; omega)]
    · exact hagrees.cached m page hm o ho hpos
  · intro m hskip hclean o ho hpos
    rw [hstored']
    refine hagrees.stored m hskip (fun page hm => ?_) o ho hpos
    rcases eq_or_ne m n with rfl | hne
    · rw [hcached] at hm
      cases hm
    · exact hclean page (by rw [hcached', if_neg hne, hm])

/-- **An access to a page**, with the evictions around it. -/
theorem Holds.access (h : Holds f c s) (hn : n < 2 ^ 31) (hagrees : Agrees f c.bytes s' skip)
    (around : File.Around) :
    Holds (f.access n around).1 c s ∧ Agrees (f.access n around).1 c.bytes s' skip ∧
      (f.access n around).1.cached n = some (f.access n around).2 := by
  have h₁ := h.evictAll around.before
  have hagrees₁ := hagrees.evictAll around.before
  simp only [File.access, sx32_of_lt hn]
  generalize around.before.foldl evict f = f₁ at h₁ hagrees₁ ⊢
  -- the page is held when the other evictions happen
  obtain ⟨hget, hgagrees, hgcached⟩ : Holds (f₁.getPage n around.stale).1 c s ∧
      Agrees (f₁.getPage n around.stale).1 c.bytes s' skip ∧
      (f₁.getPage n around.stale).1.cached n = some (f₁.getPage n around.stale).2 := by
    cases hpage : f₁.cached n with
    | some page =>
      simp only [getPage, hpage]
      exact ⟨h₁, hagrees₁, trivial⟩
    | none =>
      simp only [getPage, hpage]
      obtain ⟨-, hlength, hcached, -⟩ := pageInitialize_spec f₁ n around.stale
      refine ⟨⟨hlength.trans h₁.length, h.length_le, h₁.pageInitialize hn hpage h₁.agrees _,
        h.subset⟩, h₁.pageInitialize hn hpage hagrees₁ _, ?_⟩
      rw [hcached, if_pos rfl]
  refine ⟨hget.evictAll _, hgagrees.evictAll _, ?_⟩
  rw [cached_evictAll _ (by simp), hgcached]

/-! ## Reading -/

theorem this_spec {pageoff len amount : ℕ} (hoff : pageoff < pageSize) (hlt : amount < len) :
    0 < File.this pageoff len amount ∧ pageoff + File.this pageoff len amount ≤ pageSize ∧
      amount + File.this pageoff len amount ≤ len ∧
      (amount + File.this pageoff len amount = len ∨
        pageoff + File.this pageoff len amount = pageSize) := by
  simp only [this]
  split <;> omega

theorem page_lt {pageoff pagenum pos : ℕ} (hpos : pagenum * pageSize + pageoff = pos)
    (hlt : pos < 2 ^ 43) : pagenum < 2 ^ 31 := by
  simp only [pageSize] at hpos
  omega

theorem Holds.readLoop (around : ℕ → File.Around) {off len fuel pageoff pagenum amount : ℕ}
    {buf : List UInt8} (h : Holds f c s) (hfuel : len - amount ≤ fuel) (hamount : amount ≤ len)
    (hpos : amount < len → pagenum * pageSize + pageoff = off + amount) (hoff : pageoff < pageSize)
    (hlen : off + len ≤ c.length) :
    ∃ g, File.readLoop around len fuel f pageoff pagenum amount buf =
      (g, len, buf ++ memread c.bytes (off + amount) (len - amount)) ∧ Holds g c s := by
  induction fuel generalizing f pageoff pagenum amount buf with
  | zero =>
    obtain rfl : amount = len := by omega
    exact ⟨f, by simp [readLoop, memread], h⟩
  | succ fuel ih =>
    rw [readLoop]
    by_cases hlt : amount < len
    · rw [if_pos hlt]
      obtain ⟨hk, hpage, hle, hnext⟩ := this_spec hoff hlt
      generalize this pageoff len amount = k at *
      replace hpos := hpos hlt
      have hbound := h.length_le
      obtain ⟨hg, -, hcached⟩ := h.access (n := pagenum) (page_lt hpos (by omega)) h.agrees
        (around amount)
      generalize f.access pagenum (around amount) = accessed at hg hcached ⊢
      obtain ⟨g, page⟩ := accessed
      dsimp only at hg hcached ⊢
      have hread : memread page.data pageoff k = memread c.bytes (off + amount) k := by
        refine map_congr_left fun j hj => ?_
        have hj' := mem_range.mp hj
        rw [hg.agrees.cached pagenum page hcached (pageoff + j) (by omega)
          (hg.subset (mem_Iio.mpr (by omega))), ← hpos, add_assoc]
      rw [hread]
      obtain ⟨g', hloop, hg'⟩ := @ih g 0 (pagenum + 1) (amount + k)
        (buf ++ memread c.bytes (off + amount) k) hg (by omega) hle
        (fun _ => by rw [add_mul]; omega) (by decide)
      refine ⟨g', ?_, hg'⟩
      rw [hloop, append_assoc, ← add_assoc, ← memread_add, sub_add_eq,
        Nat.add_sub_cancel' (by omega)]
    · obtain rfl : amount = len := by omega
      rw [if_neg hlt]
      exact ⟨f, by simp [memread], h⟩

/-- **`inode_do_read_data` returns the requested range of the contents.** -/
theorem Holds.doReadData (h : Holds f c s) (around : ℕ → File.Around) {off len : ℕ}
    (hbound : off + len < 2 ^ 43) :
    ∃ g, f.doReadData around off len = (g, (c.read off len).length, c.read off len) ∧
      Holds g c s := by
  have hoff : off % pageSize < pageSize := mod_lt _ (by decide)
  have hloop : ∀ n, off + n ≤ c.length → ∃ g, File.readLoop around n n f (off % pageSize)
      (off / pageSize) 0 [] = (g, n, memread c.bytes off n) ∧ Holds g c s := by
    intro n hn
    exact h.readLoop around (sub_le n 0) (zero_le n) (fun _ => div_add_mod' off pageSize) hoff hn
  simp only [File.doReadData, u64_of_lt (show off + len < 2 ^ 64 by omega), Contents.read,
    length_memread, h.length]
  split
  · split
    · refine ⟨f, ?_, h⟩
      rw [Nat.sub_eq_zero_of_le ‹_›, Nat.min_zero]
      rfl
    · obtain ⟨g, hg, hholds⟩ := hloop (c.length - off) (by omega)
      refine ⟨g, ?_, hholds⟩
      rw [Nat.min_eq_right (by omega), hg]
  · obtain ⟨g, hg, hholds⟩ := hloop len (by omega)
    refine ⟨g, ?_, hholds⟩
    rw [Nat.min_eq_left (by omega), hg]

/-! ## Writing -/

/-- The page with the list stored in it, and the length it may have grown to. -/
def File.store (f : File) (n pageoff : ℕ) (page : Page) (xs : List UInt8) : File :=
  { f with
    cached := update f.cached n (some ⟨memcpy page.data pageoff xs, true⟩)
    length := max f.length (n * pageSize + pageoff + xs.length) }

theorem outside_page {m o pageoff len : ℕ} (hmn : m ≠ n) (ho : o < pageSize)
    (hfit : pageoff + len ≤ pageSize) :
    m * pageSize + o < n * pageSize + pageoff ∨
      n * pageSize + pageoff + len ≤ m * pageSize + o := by
  rcases lt_or_gt_of_ne hmn with hlt | hgt
  · have := mul_le_mul_right pageSize (succ_le_of_lt hlt)
    rw [succ_mul] at this
    omega
  · have := mul_le_mul_right pageSize (succ_le_of_lt hgt)
    rw [succ_mul] at this
    omega

/-- **A write to one page**: outside of it, all positions that are to agree have agreed before. -/
theorem Holds.store (h : Holds f c s) {page : Page} {pageoff : ℕ} {xs : List UInt8}
    (hcached : f.cached n = some page) (hxs : xs ≠ []) (hfit : pageoff + xs.length ≤ pageSize)
    (hbound : n * pageSize + pageoff + xs.length ≤ 2 ^ 43)
    (hgap : Agrees f c.bytes (s ∪ Iio (n * pageSize + pageoff)) (some n)) :
    Holds (f.store n pageoff page xs) (c.write (n * pageSize + pageoff) xs)
      (s ∪ Iio (n * pageSize + pageoff + xs.length)) := by
  have hlength : (c.write (n * pageSize + pageoff) xs).length =
      max c.length (n * pageSize + pageoff + xs.length) := by
    simp only [write, writeEnd, if_neg hxs]
  -- a position that is to agree afterwards is written now, or is to agree before
  have hbefore : ∀ i ∈ s ∪ Iio (n * pageSize + pageoff + xs.length),
      (i < n * pageSize + pageoff ∨ n * pageSize + pageoff + xs.length ≤ i) →
      i ∈ s ∪ Iio (n * pageSize + pageoff) ∧
        (c.write (n * pageSize + pageoff) xs).bytes i = c.bytes i := by
    rintro i hi (hlt | hge)
    · exact ⟨.inr hlt, memcpy_of_lt hlt⟩
    · exact ⟨.inl (hi.resolve_right (not_lt.mpr hge)), memcpy_of_ge hge⟩
  refine ⟨?_, ?_, ⟨fun m page' hm o ho hpos => ?_, fun m _ hclean o ho hpos => ?_⟩, ?_⟩
  · rw [hlength, ← h.length]
    rfl
  · rw [hlength]
    exact max_le h.length_le hbound
  · rcases eq_or_ne m n with rfl | hmn
    · -- the page itself
      obtain rfl : ⟨memcpy page.data pageoff xs, true⟩ = page' := by
        simpa [store] using hm
      dsimp only
      rcases lt_or_ge o pageoff with hlt | hge
      · obtain ⟨hmem, heq⟩ := hbefore _ hpos (.inl (by omega))
        rw [memcpy_of_lt hlt, heq, hgap.cached m page hcached o ho hmem]
      · rcases lt_or_ge o (pageoff + xs.length) with hlt | hge'
        · obtain ⟨j, rfl⟩ : ∃ j, o = pageoff + j := ⟨o - pageoff, by omega⟩
          rw [memcpy_of_mem (by omega), ← add_assoc]
          exact (memcpy_of_mem (by omega)).symm
        · obtain ⟨hmem, heq⟩ := hbefore _ hpos (.inr (by omega))
          rw [memcpy_of_ge hge', heq, hgap.cached m page hcached o ho hmem]
    · -- another page, where nothing is written
      obtain ⟨hmem, heq⟩ := hbefore _ hpos (outside_page hmn ho hfit)
      rw [heq]
      exact hgap.cached m page' (by simpa [File.store, hmn] using hm) o ho hmem
  · rcases eq_or_ne m n with rfl | hmn
    · have hdirty := hclean ⟨memcpy page.data pageoff xs, true⟩ (by simp [store])
      cases hdirty
    · obtain ⟨hmem, heq⟩ := hbefore _ hpos (outside_page hmn ho hfit)
      rw [heq]
      refine hgap.stored m (by simpa using hmn.symm) (fun page' hm => ?_) o ho hmem
      exact hclean page' (by simpa [File.store, hmn] using hm)
  · rw [hlength]
    intro i hi
    rcases lt_max_iff.mp (mem_Iio.mp hi) with hlt | hlt
    · exact .inl (h.subset hlt)
    · exact .inr hlt

/-- The loop of `inode_do_write_data`. In the first round there may be a gap before the bytes
written; every later round starts at the end of the round before it. -/
theorem Holds.writeLoop (around : ℕ → File.Around) {off len fuel pageoff pagenum amount : ℕ}
    {buf : List UInt8} (h : Holds f c s) (hfuel : len - amount ≤ fuel)
    (hbuf : amount + buf.length = len)
    (hpos : amount < len → pagenum * pageSize + pageoff = off + amount) (hoff : pageoff < pageSize)
    (hbound : off + len < 2 ^ 43)
    (hgap : amount < len → Agrees f c.bytes (s ∪ Iio (off + amount)) (some pagenum)) :
    ∃ g, File.writeLoop around off len fuel f pageoff pagenum amount buf = (g, len) ∧
      Holds g (c.write (off + amount) buf) (s ∪ Iio (Contents.writeEnd (off + amount) buf)) := by
  induction fuel generalizing f c s pageoff pagenum amount buf with
  | zero =>
    obtain rfl : buf = [] := eq_nil_of_length_eq_zero (by omega)
    obtain rfl : amount = len := by simpa using hbuf
    refine ⟨f, rfl, ?_⟩
    simpa [writeEnd] using h
  | succ fuel ih =>
    rw [writeLoop]
    by_cases hlt : amount < len
    · rw [if_pos hlt]
      obtain ⟨hk, hpage, hle, hnext⟩ := this_spec hoff hlt
      generalize this pageoff len amount = k at *
      replace hpos := hpos hlt
      have hpagenum : pagenum < 2 ^ 31 := page_lt hpos (by omega)
      obtain ⟨hg, hgap', hcached⟩ := h.access hpagenum (hgap hlt) (around amount)
      generalize f.access pagenum (around amount) = accessed at hg hgap' hcached ⊢
      obtain ⟨g, page⟩ := accessed
      dsimp only at hg hgap' hcached ⊢
      -- the body of the loop stores the first bytes of the buffer
      have htake : (buf.take k).length = k := by
        rw [length_take]
        omega
      have hstore : { g with
          cached := update g.cached (sx32 pagenum)
            (some ⟨memcpy page.data pageoff (buf.take k), true⟩)
          length := if u64 (k + off + amount) > g.length then u64 (k + off + amount)
            else g.length } = g.store pagenum pageoff page (buf.take k) := by
        rw [File.store, sx32_of_lt hpagenum, u64_of_lt (by omega), htake, hpos]
        congr 1
        split <;> omega
      rw [hstore]
      have hne : buf.take k ≠ [] := fun hnil => by
        rw [hnil, length_nil] at htake
        omega
      have hholds := hg.store hcached hne (by omega) (by rw [htake, hpos]; omega) (hpos ▸ hgap')
      rw [hpos, htake] at hholds
      -- the rest of it is left to the next rounds
      obtain ⟨g', hloop, hg'⟩ :=
        @ih _ _ _ 0 (pagenum + 1) (amount + k) (buf.drop k) hholds (by omega)
        (by rw [length_drop]; omega) (fun _ => by rw [add_mul]; omega) (by decide)
        (fun _ => by
          refine hholds.agrees.mono ?_
          rw [← add_assoc, union_assoc, union_self])
      refine ⟨g', hloop, ?_⟩
      have hwrite := c.write_append (off + amount) (buf.take k) (buf.drop k)
      have hend := max_writeEnd (off + amount) hne (buf.drop k)
      rw [take_append_drop, htake] at hwrite hend
      rw [hwrite, ← hend, Iio_max, ← union_assoc]
      rwa [← add_assoc] at hg'
    · obtain rfl : buf = [] := eq_nil_of_length_eq_zero (by omega)
      rw [if_neg hlt]
      obtain rfl : amount = len := by simpa using hbuf
      refine ⟨f, rfl, ?_⟩
      simpa [writeEnd] using h

/-- **`inode_do_write_data` writes all of the buffer.** -/
theorem Holds.doWriteData (h : Holds f c s) (around : ℕ → File.Around) {off : ℕ} {buf : List UInt8}
    (hbound : off + buf.length < 2 ^ 43)
    (hgap : buf ≠ [] → Agrees f c.bytes (s ∪ Iio off) (some (off / pageSize))) :
    ∃ g, f.doWriteData around off buf = (g, buf.length) ∧
      Holds g (c.write off buf) (s ∪ Iio (Contents.writeEnd off buf)) := by
  refine h.writeLoop around (sub_le _ 0) (zero_add _)
    (fun _ => div_add_mod' off pageSize) (mod_lt _ (by decide)) hbound fun hlt => hgap ?_
  rintro rfl
  exact absurd hlt (lt_irrefl 0)

/-! ## Runs -/

theorem Holds.agrees_gap (h : Holds f c (Iio c.length)) (hgap : f.GapZero n skip) :
    Agrees f c.bytes (Iio c.length ∪ Iio n) skip := by
  constructor
  · intro m page hpage o ho hpos
    rcases lt_or_ge (m * pageSize + o) c.length with hlt | hge
    · exact h.agrees.cached m page hpage o ho hlt
    · have hlt : m * pageSize + o < n := hpos.resolve_left (not_lt.mpr hge)
      rw [c.bytes_eq_zero _ hge]
      exact (hgap m o ho (h.length ▸ hge) hlt).1 page hpage
  · intro m hskip hclean o ho hpos
    rcases lt_or_ge (m * pageSize + o) c.length with hlt | hge
    · exact h.agrees.stored m (by simp) hclean o ho hlt
    · have hlt : m * pageSize + o < n := hpos.resolve_left (not_lt.mpr hge)
      rw [c.bytes_eq_zero _ hge]
      exact (hgap m o ho (h.length ▸ hge) hlt).2 hskip hclean

theorem Holds.truncate (h : Holds f c (Iio c.length)) (pos : ℕ) (hn : n ≤ 2 ^ 43)
    (hgap : f.GapZero n none) : Holds (f.truncate pos n).1 (c.truncate n) (Iio n) := by
  have hagrees := h.agrees_gap hgap
  refine ⟨rfl, hn, ⟨fun m page hpage o ho hpos => ?_, fun m _ hclean o ho hpos => ?_⟩, le_rfl⟩
  · rw [hagrees.cached m page hpage o ho (.inr hpos)]
    exact (if_pos hpos).symm
  · have hstored := hagrees.stored m (by simp) hclean o ho (.inr hpos)
    exact hstored.trans (if_pos hpos).symm

/-- **An operation that finds its gap clear** does what it should, and keeps the contents. -/
theorem Holds.exec {σ : State} {e : Event} (h : Holds σ.file σ.contents (Iio σ.contents.length))
    (hbounded : e.Bounded) (hclean : e.Clean σ.file) :
    Holds (σ.exec e).file (σ.exec e).contents (Iio (σ.exec e).contents.length) ∧ Correct σ e := by
  simp only [State.exec]
  cases e with
  | write off buf around =>
    obtain ⟨g, hg, hholds⟩ := h.doWriteData around hbounded fun hne => h.agrees_gap (hclean hne)
    simp only [File.exec, Event.apply, Correct, hg]
    rw [← Iio_max] at hholds
    exact ⟨hholds, trivial⟩
  | read off len around =>
    obtain ⟨g, hg, hholds⟩ := h.doReadData around hbounded
    simp only [File.exec, Event.apply, Correct, hg]
    exact ⟨hholds, trivial⟩
  | truncate pos len => exact ⟨h.truncate pos (le_of_lt hbounded) hclean, trivial⟩
  | evict n => exact ⟨h.evictAll [n], trivial⟩

theorem holds_initial (hs : Iio 0 ⊆ s) : Holds File.empty Contents.empty s := by
  refine ⟨rfl, zero_le _, ⟨fun n page hpage => ?_, fun n _ _ o _ _ => rfl⟩, hs⟩
  cases hpage

/-- **The contents of a file**: in a run of bounded operations that find their gaps clear, every
read returns the requested range of the contents, where a truncation discards what is behind its
length, and every write is complete. -/
theorem contents_of_clean_run {run : List (Event × State)} (hrun : Along Step .initial run)
    (hclean : Along (fun σ e _ => e.Bounded ∧ e.Clean σ.file) .initial run) :
    Along (fun σ e _ => Correct σ e) .initial run := by
  refine hrun.of_inv (I := fun σ => Holds σ.file σ.contents (Iio σ.contents.length)) ?_
    (holds_initial le_rfl) hclean
  rintro σ e τ h rfl ⟨hbounded, hclean⟩
  exact h.exec hbounded hclean

theorem gapZero_of_le (h : n ≤ f.length) : f.GapZero n skip := by
  intro m o _ hge hlt
  omega

/-- The operation does not start behind the end of the file. -/
def Event.NoGap (f : File) : Event → Prop
  | .write off _ _ => off ≤ f.length
  | .truncate _ len => len ≤ f.length
  | _ => True

instance (f : File) (e : Event) : Decidable (e.NoGap f) :=
  match e with
  | .write _ _ _ => inferInstanceAs (Decidable (_ ≤ _))
  | .truncate _ _ => inferInstanceAs (Decidable (_ ≤ _))
  | .read _ _ _ => inferInstanceAs (Decidable True)
  | .evict _ => inferInstanceAs (Decidable True)

theorem Event.NoGap.clean {e : Event} (h : e.NoGap f) : e.Clean f := by
  cases e with
  | write off buf around => exact fun _ => gapZero_of_le h
  | truncate pos len => exact gapZero_of_le h
  | read off len around => trivial
  | evict n => trivial

/-- No evictions. -/
def quiet : ℕ → File.Around := fun _ => ⟨[], false, []⟩

theorem truncate_append_contents : ∃ run : List (Event × State),
    run.map Prod.fst =
      [.write 0 [1, 2, 3] quiet, .truncate 0 1, .evict 0, .write 1 [7] quiet, .read 0 5 quiet] ∧
    Along Step .initial run ∧
    Along (fun σ e _ => e.Bounded ∧ e.Clean σ.file) .initial run ∧
    Along (fun σ e _ => Correct σ e) .initial run := by
  obtain ⟨run, hevents, hrun, -⟩ := exists_run (fun σ e => some (State.exec σ e))
    (fun σ e => e.Bounded ∧ e.NoGap σ.file) (fun _ => True) State.initial
    [.write 0 [1, 2, 3] quiet, .truncate 0 1, .evict 0, .write 1 [7] quiet, .read 0 5 quiet]
    (by decide +kernel)
  have hsteps := hrun.mono fun σ e τ h => (some.inj h.2 : Step σ e τ)
  have hclean := hrun.mono fun σ e τ h => (⟨h.1.1, h.1.2.clean⟩ : e.Bounded ∧ e.Clean σ.file)
  exact ⟨run, hevents, hsteps, hclean, contents_of_clean_run hsteps hclean⟩

/-- **Bytes cut off by a truncation come back**: a file of three bytes is truncated to nothing, and
a byte is written behind its end. A read then finds the first two bytes again, where there should be
zeroes. -/
theorem truncated_bytes_return : ∃ run : List (Event × State),
    run.map Prod.fst = [.write 0 [1, 2, 3] quiet, .truncate 0 0, .write 2 [9] quiet] ∧
    Along Step .initial run ∧ Along (fun _ e _ => e.Bounded) .initial run ∧
    ((final .initial run).file.doReadData quiet 0 3).2 = (3, [1, 2, 9]) ∧
    (final .initial run).contents.read 0 3 = [0, 0, 9] ∧
    ¬Correct (final .initial run) (.read 0 3 quiet) := by
  refine (exists_run (fun σ e => some (State.exec σ e)) (fun _ e => e.Bounded)
    (fun σ => (σ.file.doReadData quiet 0 3).2 = (3, [1, 2, 9]) ∧
      σ.contents.read 0 3 = [0, 0, 9]) State.initial _
    (by decide +kernel)).imp fun run ⟨hevents, hrun, hread, hcontents⟩ =>
    ⟨hevents, hrun.mono fun σ e τ h => some.inj h.2, hrun.mono fun σ e τ h => h.1,
      hread, hcontents, fun hcorrect => ?_⟩
  rw [Correct, hread, hcontents] at hcorrect
  cases hcorrect

/-! ## Without truncations -/

/-- **The contents of a file that is not truncated**: in every run of bounded operations, with any
evictions, every read returns the requested range of the contents. -/
theorem contents_of_run {run : List (Event × State)} (hrun : Along Step .initial run)
    (hbounded : Along (fun _ e _ => e.Bounded ∧ e.truncates = false) .initial run) :
    Along (fun σ e _ => Correct σ e) .initial run := by
  -- all bytes agree, also behind the length
  refine hrun.of_inv (I := fun σ => Holds σ.file σ.contents univ) ?_
    (holds_initial (subset_univ _)) hbounded
  rintro σ e τ h rfl ⟨hbounded, htruncates⟩
  simp only [State.exec]
  cases e with
  | write off buf around =>
    obtain ⟨g, hg, hholds⟩ := h.doWriteData around hbounded fun _ => h.agrees.mono (subset_univ _)
    simp only [exec, Event.apply, Correct, hg]
    rw [univ_union] at hholds
    exact ⟨hholds, trivial⟩
  | read off len around =>
    obtain ⟨g, hg, hholds⟩ := h.doReadData around hbounded
    simp only [exec, Event.apply, Correct, hg]
    exact ⟨hholds, trivial⟩
  | truncate pos len => cases htruncates
  | evict n => exact ⟨h.evictAll [n], trivial⟩

/-- A write over the end of a page, with the first page evicted in between and the second one after
it, is read back behind zeroes. -/
theorem two_pages_contents : ∃ run : List (Event × State),
    Along Step .initial run ∧
    Along (fun _ e _ => e.Bounded ∧ e.truncates = false) .initial run ∧
    ((final .initial run).file.doReadData quiet 0xffe 5).2 = (4, [0, 1, 2, 3]) ∧
    Along (fun σ e _ => Correct σ e) .initial run := by
  obtain ⟨run, -, hrun, hread⟩ := exists_run (fun σ e => some (State.exec σ e))
    (fun _ e => e.Bounded ∧ e.truncates = false)
    (fun σ => (σ.file.doReadData quiet 0xffe 5).2 = (4, [0, 1, 2, 3])) State.initial
    [.write 0xfff [1, 2, 3] fun _ => ⟨[0], true, []⟩, .evict 1, .read 0xffe 5 quiet]
    (by decide +kernel)
  have hsteps := hrun.mono fun σ e τ h => (some.inj h.2 : Step σ e τ)
  have hbounded := hrun.mono fun σ e τ h => h.1
  exact ⟨run, hsteps, hbounded, hread, contents_of_run hsteps hbounded⟩

/-- The largest end of any write, a write of nothing included. -/
def largestEnd (writes : List (ℕ × List UInt8)) : ℕ :=
  (writes.map fun w => w.1 + w.2.length).foldr max 0

theorem empty_write_not_end :
    ((File.empty.doWriteData quiet 5 []).1.doReadData quiet 0 5).2 = (0, []) ∧
      min 5 (largestEnd [(5, [])]) = 5 := by
  decide +kernel

end SeaKernel.PageCache
