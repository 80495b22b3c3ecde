import SeaKernel.Lib.Run

/-!
# The block cache

`block_read` and `block_write` of `kernel/block.c`. A block device has a cache of blocks. Nothing is
ever taken out of it, and written data lives only there: a write updates the cache, and a read that
misses transfers the block from the device and then fills the cache. The lock of the cache is held
for one lookup, one fill or one update at a time, so between the transfer and the fill of a read
other calls go on.

Any number of callers make any number of calls. `State.last` records for each block the data of the
last write of it that has returned, unless another one has started since, and a read takes along
what `last` was when it started: that is what it has to return.

A fill does not look whether the block is in the cache by now, so it can undo a write. It cannot
when calls that share a block and overlap in time are both reads.

## Main definitions

* `Read`, `Write`, `Call`: calls in progress
* `State.exec`: the start of a call, or the next atomic step of one
* `State.Fresh`: the reads that have returned have the data they had to return
* `Apart`: calls that share a block and overlap in time are reads

## Main results

* `reads_fresh`: in a run whose calls are apart all reads are fresh
* `write_undone`: a read that was under way when the block was written undoes the write
-/

namespace SeaKernel.BlockCache

open Function List Option

/-! ## The model -/

/-- Where a read is with its current block. -/
inductive Phase
  | lookup
  | transfer
  | fill
  deriving DecidableEq, Repr

/-- A call of `block_read`; it has returned once `i` is `count`. -/
structure Read (D : Type*) where
  start : ℕ
  count : ℕ
  cache : Bool
  i : ℕ
  phase : Phase
  /-- The caller's buffer, block by block. -/
  buf : ℕ → Option D
  /-- What the call has to return, where that is known. -/
  expect : ℕ → Option D

/-- A call of `block_write`. -/
structure Write (D : Type*) where
  start : ℕ
  count : ℕ
  i : ℕ
  data : ℕ → D

/-- What a caller is doing. -/
inductive Call (D : Type*)
  | idle
  | read (r : Read D)
  | write (w : Write D)

namespace Call

variable {D : Type*}

/-- The call has not returned. -/
def active : Call D → Bool
  | idle => false
  | read r => r.i < r.count
  | write _ => true

/-- The call is a read that has not got block `b` yet. -/
def Reads : Call D → ℕ → Prop
  | read r, b => r.start + r.i ≤ b ∧ b < r.start + r.count
  | _, _ => False

/-- The call is a write of block `b`, among others. -/
def Writes : Call D → ℕ → Prop
  | write w, b => w.start ≤ b ∧ b < w.start + w.count
  | _, _ => False

instance (call : Call D) (b : ℕ) : Decidable (call.Reads b) := by
  cases call <;> unfold Reads <;> infer_instance

instance (call : Call D) (b : ℕ) : Decidable (call.Writes b) := by
  cases call <;> unfold Writes <;> infer_instance

end Call

/-- A block device and its callers. -/
structure State (C D : Type*) where
  cache : ℕ → Option D
  /-- The data of the last write of the block that has returned, if none has started since. -/
  last : ℕ → Option D
  call : C → Call D

inductive Event (C D : Type*)
  | blockRead (c : C) (start count : ℕ) (cache : Bool)
  | blockWrite (c : C) (start count : ℕ) (data : ℕ → D)
  /-- The next atomic step of the caller's call. -/
  | step (c : C)

variable {C D : Type*} [DecidableEq C]

/-- Nothing is in the cache and nobody has called. -/
def initial (C D : Type*) : State C D := ⟨fun _ => none, fun _ => none, fun _ => .idle⟩

variable {start count : ℕ}

namespace State

def setCall (σ : State C D) (c : C) (call : Call D) : State C D :=
  { σ with call := update σ.call c call }

/-- The record of the last writes changes for `count` blocks. -/
def setLast (σ : State C D) (start count : ℕ) (new : ℕ → Option D) : State C D :=
  { σ with last := fun b => if start ≤ b ∧ b < start + count then new b else σ.last b }

/-- `block_cache_write`. -/
def blockCacheWrite (σ : State C D) (b : ℕ) (d : Option D) : State C D :=
  { σ with cache := update σ.cache b d }

omit [DecidableEq C] in
theorem cache_blockCacheWrite_of_ne {σ : State C D} {b b' : ℕ} {d : Option D} (h : b' ≠ b) :
    (σ.blockCacheWrite b d).cache b' = σ.cache b' :=
  update_of_ne h _ _

omit [DecidableEq C] in
theorem last_setLast_of_not {σ : State C D} {b : ℕ} {new : ℕ → Option D}
    (h : ¬(start ≤ b ∧ b < start + count)) : (σ.setLast start count new).last b = σ.last b :=
  if_neg h

/-- A step of `block_read`: `block_cache_read`, the transfer, or `block_cache_write`. -/
def stepRead (device : ℕ → D) (σ : State C D) (c : C) (r : Read D) : State C D :=
  match r.phase with
  | .lookup =>
    match σ.cache (r.start + r.i) with
    | some d =>
      σ.setCall c (.read { r with buf := update r.buf r.i (some d), i := r.i + 1 })
    | none => σ.setCall c (.read { r with phase := .transfer })
  | .transfer =>
    σ.setCall c (.read { r with
      buf := update r.buf r.i (some (device (r.start + r.i))), phase := .fill })
  | .fill =>
    let filled := if r.cache then σ.blockCacheWrite (r.start + r.i) (r.buf r.i) else σ
    filled.setCall c (.read { r with phase := .lookup, i := r.i + 1 })

/-- A step of `block_write`: `block_cache_write`, or the return. -/
def stepWrite (σ : State C D) (c : C) (w : Write D) : State C D :=
  if w.i < w.count then
    (σ.blockCacheWrite (w.start + w.i) (some (w.data w.i))).setCall c
      (.write { w with i := w.i + 1 })
  else (σ.setCall c .idle).setLast w.start w.count fun b => some (w.data (b - w.start))

def exec (device : ℕ → D) (σ : State C D) : Event C D → Option (State C D)
  | .blockRead c start count cache =>
    if (σ.call c).active then none
    else some (σ.setCall c (.read
      ⟨start, count, cache, 0, .lookup, fun _ => none, fun j => σ.last (start + j)⟩))
  | .blockWrite c start count data =>
    if (σ.call c).active then none
    else some ((σ.setLast start count fun _ => none).setCall c (.write ⟨start, count, 0, data⟩))
  | .step c =>
    match σ.call c with
    | .idle => none
    | .read r => if r.i < r.count then some (σ.stepRead device c r) else none
    | .write w => some (σ.stepWrite c w)

/-- **The reads that have returned have the data they had to return.** -/
def Fresh (σ : State C D) : Prop :=
  ∀ c r, σ.call c = .read r → r.count ≤ r.i → ∀ j < r.count, ∀ d, r.expect j = some d →
    r.buf j = some d

end State

/-- A call starts only when the calls in progress that share a block with it are reads, and so is
it. -/
def Apart (σ : State C D) : Event C D → Prop
  | .blockRead _ start count _ => ∀ j < count, ∀ c, ¬(σ.call c).Writes (start + j)
  | .blockWrite _ start count _ =>
    ∀ j < count, ∀ c, ¬(σ.call c).Writes (start + j) ∧ ¬(σ.call c).Reads (start + j)
  | .step _ => True

instance [Fintype C] (σ : State C D) (e : Event C D) : Decidable (Apart σ e) := by
  cases e <;> unfold Apart <;> infer_instance

/-! ## The invariant -/

/-- What is known of a write in progress. -/
structure WriteOk (cache last : ℕ → Option D) (w : Write D) : Prop where
  last_eq : ∀ j < w.count, last (w.start + j) = none
  cache_eq : ∀ j < w.count, j < w.i → cache (w.start + j) = some (w.data j)

/-- What is known of a read: the blocks it has got are right, and what it has to return for the
others is still the last write. -/
structure ReadOk (last : ℕ → Option D) (r : Read D) : Prop where
  got : ∀ j < r.count, j < r.i → ∀ d, r.expect j = some d → r.buf j = some d
  todo : ∀ j < r.count, r.i ≤ j → ∀ d, r.expect j = some d → last (r.start + j) = some d
  missed : r.i < r.count → r.phase ≠ .lookup → last (r.start + r.i) = none

structure Inv (σ : State C D) : Prop where
  /-- The cache has the last write of a block. -/
  kept : ∀ b d, σ.last b = some d → σ.cache b = some d
  /-- A block that is being written is not read, or written by another caller. -/
  alone : ∀ c c' b, (σ.call c).Writes b → (σ.call c').Writes b ∨ (σ.call c').Reads b → c' = c
  writeOk : ∀ c w, σ.call c = .write w → WriteOk σ.cache σ.last w
  readOk : ∀ c r, σ.call c = .read r → ReadOk σ.last r

namespace Inv

variable {σ τ : State C D} {c : C} {b : ℕ}

omit [DecidableEq C] in
theorem initial : Inv (initial C D) where
  kept := by simp [BlockCache.initial]
  alone := by simp [BlockCache.initial, Call.Writes]
  writeOk := by simp [BlockCache.initial]
  readOk := by simp [BlockCache.initial]

theorem putCall {call : Call D} (h : Inv σ)
    (hwrites : ∀ c', c' ≠ c → ∀ b, call.Writes b → ¬(σ.call c').Writes b ∧ ¬(σ.call c').Reads b)
    (hreads : ∀ c', c' ≠ c → ∀ b, call.Reads b → ¬(σ.call c').Writes b)
    (hwrite : ∀ w, call = .write w → WriteOk σ.cache σ.last w)
    (hread : ∀ r, call = .read r → ReadOk σ.last r) : Inv (σ.setCall c call) := by
  have hself : (σ.setCall c call).call c = call := update_self _ _ _
  have hother (c' : C) (hc : c' ≠ c) : (σ.setCall c call).call c' = σ.call c' :=
    update_of_ne hc _ _
  refine ⟨h.kept, fun c₁ c₂ b h₁ h₂ => ?_, fun c' w hw => ?_, fun c' r hr => ?_⟩
  · by_cases hc₁ : c₁ = c <;> by_cases hc₂ : c₂ = c
    · rw [hc₁, hc₂]
    · rw [hc₁, hself] at h₁
      rw [hother c₂ hc₂] at h₂
      obtain ⟨hw, hr⟩ := hwrites c₂ hc₂ b h₁
      exact (h₂.elim hw hr).elim
    · rw [hother c₁ hc₁] at h₁
      rw [hc₂, hself] at h₂
      rcases h₂ with h₂ | h₂
      · exact absurd h₁ (hwrites c₁ hc₁ b h₂).1
      · exact absurd h₁ (hreads c₁ hc₁ b h₂)
    · rw [hother c₁ hc₁] at h₁
      rw [hother c₂ hc₂] at h₂
      exact h.alone c₁ c₂ b h₁ h₂
  · by_cases hc : c' = c
    · rw [hc, hself] at hw
      exact hwrite w hw
    · rw [hother c' hc] at hw
      exact h.writeOk c' w hw
  · by_cases hc : c' = c
    · rw [hc, hself] at hr
      exact hread r hr
    · rw [hother c' hc] at hr
      exact h.readOk c' r hr

theorem setCall {call : Call D} (h : Inv σ) (hwrites : ∀ b, call.Writes b → (σ.call c).Writes b)
    (hreads : ∀ b, call.Reads b → (σ.call c).Reads b)
    (hwrite : ∀ w, call = .write w → WriteOk σ.cache σ.last w)
    (hread : ∀ r, call = .read r → ReadOk σ.last r) : Inv (σ.setCall c call) := by
  refine h.putCall (fun c' hc b hb => ?_) (fun c' hc b hb hw => ?_) hwrite hread
  · exact ⟨fun hw => hc (h.alone c c' b (hwrites b hb) (Or.inl hw)),
      fun hr => hc (h.alone c c' b (hwrites b hb) (Or.inr hr))⟩
  · exact hc (h.alone c' c b hw (Or.inr (hreads b hb))).symm

open State

omit [DecidableEq C] in
theorem blockCacheWrite {d : Option D} (h : Inv σ) (hlast : σ.last b = none)
    (hwrite : ∀ c w, σ.call c = .write w → ∀ j < w.count, j < w.i → w.start + j ≠ b) :
    Inv (σ.blockCacheWrite b d) := by
  refine ⟨fun b' d' hb' => ?_, h.alone, fun c w hw => ?_, h.readOk⟩
  · have hne : b' ≠ b := by
      rintro rfl
      rw [blockCacheWrite, hlast] at hb'
      cases hb'
    rw [cache_blockCacheWrite_of_ne hne]
    exact h.kept b' d' hb'
  · refine ⟨(h.writeOk c w hw).last_eq, fun j hj hji => ?_⟩
    rw [cache_blockCacheWrite_of_ne (hwrite c w hw j hj hji)]
    exact (h.writeOk c w hw).cache_eq j hj hji

/-! ## Steps of a read -/

variable {r : Read D}

section

variable (h : Inv σ)

include h

variable (hc : σ.call c = .read r)

include hc

theorem setRead {r' : Read D} (hrange : r'.start = r.start ∧ r'.count = r.count ∧ r.i ≤ r'.i)
    (hok : ReadOk σ.last r') : Inv (σ.setCall c (.read r')) := by
  refine h.setCall (fun b hb => hb.elim) (fun b hb => ?_) (by simp) ?_
  · rw [hc]
    simp only [Call.Reads] at hb ⊢
    omega
  · rintro _ ⟨⟩
    exact hok

theorem hit {d : D} (hphase : r.phase = .lookup) (hd : σ.cache (r.start + r.i) = some d) :
    Inv (σ.setCall c (.read { r with buf := update r.buf r.i (some d), i := r.i + 1 })) := by
  have hok := h.readOk c r hc
  refine h.setRead hc ⟨rfl, rfl, Nat.le_succ _⟩ ⟨fun j hj hji d' hd' => ?_,
    fun j hj hji => hok.todo j hj (Nat.le_of_succ_le hji), fun _ hne => absurd hphase hne⟩
  by_cases hji' : j = r.i
  · subst hji'
    have hcache := h.kept _ _ (hok.todo r.i hj le_rfl d' hd')
    rw [hd] at hcache
    simp [some.inj hcache]
  · have hlt : j < r.i := lt_of_le_of_ne (Nat.le_of_lt_succ hji) hji'
    simpa [hji'] using hok.got j hj hlt d' hd'

theorem miss (hnone : σ.cache (r.start + r.i) = none) :
    Inv (σ.setCall c (.read { r with phase := .transfer })) := by
  have hok := h.readOk c r hc
  refine h.setRead hc ⟨rfl, rfl, le_rfl⟩ ⟨hok.got, hok.todo, fun _ _ => ?_⟩
  cases hlast : σ.last (r.start + r.i) with
  | none => rfl
  | some d =>
    have hcache := h.kept _ _ hlast
    rw [hnone] at hcache
    cases hcache

theorem transfer {d : D} (hphase : r.phase = .transfer) : Inv (σ.setCall c
      (.read { r with buf := update r.buf r.i (some d), phase := .fill })) := by
  have hok := h.readOk c r hc
  refine h.setRead hc ⟨rfl, rfl, le_rfl⟩
    ⟨fun j hj hji d' hd' => ?_, hok.todo, fun hi _ => hok.missed hi (by simp [hphase])⟩
  have hne : j ≠ r.i := Nat.ne_of_lt hji
  simpa [hne] using hok.got j hj hji d' hd'

variable (hi : r.i < r.count)

include hi

omit [DecidableEq C] in
theorem not_writes (c' : C) : ¬(σ.call c').Writes (r.start + r.i) := by
  intro hw
  have hreads : (σ.call c).Reads (r.start + r.i) := by
    rw [hc]
    exact ⟨le_rfl, by omega⟩
  obtain rfl := h.alone c' c _ hw (Or.inr hreads)
  rw [hc] at hw
  exact hw

theorem fill {σ' : State C D} (hphase : r.phase = .fill)
    (hσ' : σ' = σ.blockCacheWrite (r.start + r.i) (r.buf r.i) ∨ σ' = σ) :
    Inv (σ'.setCall c (.read { r with phase := .lookup, i := r.i + 1 })) := by
  have hok := h.readOk c r hc
  have hmissed := hok.missed hi (by simp [hphase])
  have hfilled : Inv σ' ∧ σ'.call = σ.call ∧ σ'.last = σ.last := by
    rcases hσ' with rfl | rfl
    · refine
        ⟨h.blockCacheWrite hmissed fun c' w hw j hj hji heq => h.not_writes hc hi c' ?_, rfl, rfl⟩
      rw [hw, ← heq]
      exact ⟨by omega, by omega⟩
    · exact ⟨h, rfl, rfl⟩
  obtain ⟨hinv, hcall, hlast⟩ := hfilled
  rw [← hcall] at hc
  refine hinv.setRead hc ⟨rfl, rfl, Nat.le_succ _⟩ ?_
  rw [hlast]
  refine ⟨fun j hj hji d hd => ?_, fun j hj hji => hok.todo j hj (Nat.le_of_succ_le hji),
    fun _ hne => absurd rfl hne⟩
  by_cases hji' : j = r.i
  · subst hji'
    have hsome := hok.todo r.i hj le_rfl d hd
    rw [hmissed] at hsome
    cases hsome
  · exact hok.got j hj (lt_of_le_of_ne (Nat.le_of_lt_succ hji) hji') d hd

theorem stepRead {device : ℕ → D} : Inv (σ.stepRead device c r) := by
  unfold State.stepRead
  split
  case h_1 hphase =>
    split
    case h_1 d hd => exact h.hit hc hphase hd
    case h_2 hnone => exact h.miss hc hnone
  case h_2 hphase => exact h.transfer hc hphase
  case h_3 hphase =>
    refine h.fill hc hi hphase ?_
    split
    · exact Or.inl rfl
    · exact Or.inr rfl

end

/-! ## Steps of a write -/

variable (h : Inv σ)

include h

theorem update {w : Write D} (hc : σ.call c = .write w) (hi : w.i < w.count) :
    Inv ((σ.blockCacheWrite (w.start + w.i) (some (w.data w.i))).setCall c
      (.write { w with i := w.i + 1 })) := by
  have hok := h.writeOk c w hc
  have hwrites : (σ.call c).Writes (w.start + w.i) := by
    rw [hc]
    exact ⟨by omega, by omega⟩
  have hupdated : Inv (σ.blockCacheWrite (w.start + w.i) (some (w.data w.i))) := by
    refine h.blockCacheWrite (hok.last_eq w.i hi) fun c' w' hw' j hj hji heq => ?_
    have hwrites' : (σ.call c').Writes (w.start + w.i) := by
      rw [hw', ← heq]
      exact ⟨by omega, by omega⟩
    obtain rfl := h.alone c c' _ hwrites (Or.inl hwrites')
    obtain rfl := Call.write.inj (hc.symm.trans hw')
    omega
  refine hupdated.setCall (fun b hb => ?_) (fun b hb => hb.elim) ?_ (by simp)
  · change (σ.call c).Writes b
    rw [hc]
    exact hb
  · rintro _ ⟨⟩
    refine ⟨hok.last_eq, fun j hj hji => ?_⟩
    by_cases hji' : j = w.i
    · simp [State.blockCacheWrite, hji']
    · have hlt : j < w.i := lt_of_le_of_ne (Nat.le_of_lt_succ hji) hji'
      simpa [State.blockCacheWrite, hji'] using hok.cache_eq j hj hlt

omit [DecidableEq C] in
theorem setLast {new : ℕ → Option D}
    (hclear : ∀ j < count, ∀ c, ¬(σ.call c).Writes (start + j) ∧ ¬(σ.call c).Reads (start + j))
    (hnew : ∀ j < count, ∀ d, new (start + j) = some d → σ.cache (start + j) = some d) :
    Inv (σ.setLast start count new) := by
  have hclear' (c : C) (b : ℕ) (hb : (σ.call c).Writes b ∨ (σ.call c).Reads b) :
      ¬(start ≤ b ∧ b < start + count) := by
    intro hrange
    obtain ⟨hw, hr⟩ := hclear (b - start) (by omega) c
    rw [Nat.add_sub_cancel' hrange.1] at hw hr
    exact hb.elim hw hr
  refine ⟨fun b d hb => ?_, h.alone, fun c w hw => ?_, fun c r hr => ?_⟩
  · unfold State.setLast at hb
    dsimp only at hb
    split at hb
    case isTrue hrange =>
      have hcache := hnew (b - start) (by omega) d
      rw [Nat.add_sub_cancel' hrange.1] at hcache
      exact hcache hb
    case isFalse => exact h.kept b d hb
  · have hw : σ.call c = .write w := hw
    refine ⟨fun j hj => ?_, (h.writeOk c w hw).cache_eq⟩
    have hout := hclear' c (w.start + j) (Or.inl (by rw [hw]; exact ⟨by omega, by omega⟩))
    rw [last_setLast_of_not hout]
    exact (h.writeOk c w hw).last_eq j hj
  · have hr : σ.call c = .read r := hr
    have hok := h.readOk c r hr
    have hout (j : ℕ) (hj : j < r.count) (hij : r.i ≤ j) :=
      hclear' c (r.start + j) (Or.inr (by rw [hr]; exact ⟨by omega, by omega⟩))
    refine ⟨hok.got, fun j hj hij d hd => ?_, fun hi hne => ?_⟩
    · rw [last_setLast_of_not (hout j hj hij)]
      exact hok.todo j hj hij d hd
    · rw [last_setLast_of_not (hout r.i hi le_rfl)]
      exact hok.missed hi hne

theorem stepWrite {w : Write D} (hc : σ.call c = .write w) : Inv (σ.stepWrite c w) := by
  unfold State.stepWrite
  split
  case isTrue hi => exact h.update hc hi
  case isFalse hi =>
    have hok := h.writeOk c w hc
    have hidle : Inv (σ.setCall c .idle) :=
      h.setCall (fun b hb => hb.elim) (fun b hb => hb.elim) (by simp) (by simp)
    refine hidle.setLast (fun j hj c' => ?_) ?_
    · by_cases hc' : c' = c
      · subst hc'
        simp [State.setCall, Call.Writes, Call.Reads]
      · have hwrites : (σ.call c).Writes (w.start + j) := by
          rw [hc]
          exact ⟨by omega, by omega⟩
        simp only [State.setCall, update_of_ne hc']
        exact ⟨fun hw => hc' (h.alone c c' _ hwrites (Or.inl hw)),
          fun hr => hc' (h.alone c c' _ hwrites (Or.inr hr))⟩
    · intro j hj d hd
      simp only [Nat.add_sub_cancel_left] at hd
      rw [← hd]
      exact hok.cache_eq j hj (by omega)

/-! ## The start of a call -/

theorem blockRead {cache : Bool} (hapart : ∀ j < count, ∀ c, ¬(σ.call c).Writes (start + j)) :
    Inv (σ.setCall c (.read
      ⟨start, count, cache, 0, .lookup, fun _ => none, fun j => σ.last (start + j)⟩)) := by
  refine h.putCall (fun _ _ _ hb => hb.elim) (fun c' _ b hb => ?_) (by simp) ?_
  · obtain ⟨hle, hlt⟩ : start ≤ b ∧ b < start + count := hb
    have hnot := hapart (b - start) (by omega) c'
    rwa [Nat.add_sub_cancel' hle] at hnot
  · rintro _ ⟨⟩
    exact ⟨fun j _ hji => absurd hji (Nat.not_lt_zero j), fun _ _ _ _ hd => hd,
      fun _ hne => absurd rfl hne⟩

theorem blockWrite {data : ℕ → D}
    (hapart : ∀ j < count, ∀ c, ¬(σ.call c).Writes (start + j) ∧ ¬(σ.call c).Reads (start + j)) :
    Inv ((σ.setLast start count fun _ => none).setCall c (.write ⟨start, count, 0, data⟩)) := by
  have hcleared : Inv (σ.setLast start count fun _ => none) :=
    h.setLast hapart (fun _ _ _ hd => by cases hd)
  refine hcleared.putCall (fun c' _ b hb => ?_) (fun _ _ _ hb => hb.elim) ?_ (by simp)
  · obtain ⟨hle, hlt⟩ : start ≤ b ∧ b < start + count := hb
    have hnot := hapart (b - start) (by omega) c'
    rwa [Nat.add_sub_cancel' hle] at hnot
  · rintro _ ⟨⟩
    exact ⟨fun j hj => if_pos ⟨Nat.le_add_right _ _, Nat.add_lt_add_left hj _⟩,
      fun j _ hji => absurd hji (Nat.not_lt_zero j)⟩

/-- **Every step keeps the invariant**, if calls that share a block and overlap are both reads. -/
theorem exec {device : ℕ → D} {e : Event C D} (hexec : σ.exec device e = some τ)
    (hapart : Apart σ e) : Inv τ := by
  cases e with
  | blockRead c start count cache =>
    simp only [State.exec] at hexec
    split at hexec
    · cases hexec
    · exact some.inj hexec ▸ h.blockRead hapart
  | blockWrite c start count data =>
    simp only [State.exec] at hexec
    split at hexec
    · cases hexec
    · exact some.inj hexec ▸ h.blockWrite hapart
  | step c =>
    simp only [State.exec] at hexec
    split at hexec
    case h_1 => cases hexec
    case h_2 r hc =>
      split at hexec
      case isTrue hi => exact some.inj hexec ▸ h.stepRead hc hi
      case isFalse => cases hexec
    case h_3 w hc => exact some.inj hexec ▸ h.stepWrite hc

omit [DecidableEq C] in
theorem fresh : σ.Fresh := by
  intro c r hc hi j hj
  exact (h.readOk c r hc).got j hj (by omega)

end Inv

/-! ## Runs -/

/-- **Reads see completed writes**: in every interleaving of any number of reads and writes of which
two that share a block and overlap in time are both reads, a read that has returned has, for each of
its blocks, the data of the last write that had returned when the read started, if no write of the
block had started since. -/
theorem reads_fresh {device : ℕ → D} {run : List (Event C D × State C D)}
    (hrun : Along (fun σ e τ => Apart σ e ∧ σ.exec device e = some τ) (initial C D) run) :
    After State.Fresh (initial C D) run := by
  have hinv : After Inv (initial C D) run :=
    hrun.after_of_step (fun _ _ _ h hstep => h.exec hstep.2 hstep.1) Inv.initial
  exact hinv.mono fun _ h => h.fresh

/-- The caller's read of one block has returned. -/
def Call.returned (call : Call ℕ) (expect buf : ℕ) : Bool :=
  match call with
  | .read r => r.i = 1 ∧ r.count = 1 ∧ r.expect 0 = some expect ∧ r.buf 0 = some buf
  | _ => false

theorem Call.eq_of_returned {σ : State (Fin 2) ℕ} {c : Fin 2} {expect buf : ℕ} (h : σ.Fresh)
    (hreturned : (σ.call c).returned expect buf = true) : buf = expect := by
  unfold Call.returned at hreturned
  split at hreturned
  case h_1 r hc =>
    obtain ⟨hi, hcount, hexpect, hbuf⟩ := of_decide_eq_true hreturned
    have hfresh := h c r hc (by omega) 0 (by omega) expect hexpect
    rw [hbuf] at hfresh
    exact some.inj hfresh
  case h_2 => cases hreturned

/-- A block is read, then written, then read by another caller: the second read returns what was
written. -/
theorem written_then_read : ∃ run,
    Along (fun σ e τ => Apart σ e ∧ σ.exec (fun _ => 0) e = some τ) (initial (Fin 2) ℕ) run ∧
      ((final (initial (Fin 2) ℕ) run).call 1).returned 7 7 = true ∧
      After State.Fresh (initial (Fin 2) ℕ) run := by
  obtain ⟨run, _, hrun, hfinal⟩ := exists_run (State.exec fun _ => 0) Apart
    (fun σ => (σ.call 1).returned 7 7 = true) (initial (Fin 2) ℕ)
    [.blockRead 0 0 1 true, .step 0, .step 0, .step 0, .blockWrite 0 0 1 (fun _ => 7), .step 0,
      .step 0, .blockRead 1 0 1 true, .step 1] (by decide +kernel)
  exact ⟨run, hrun, hfinal, reads_fresh hrun⟩

/-- **A write undone**: a read misses and transfers the block; the block is written, and that call
returns; the read fills the cache with what it transferred. A read that starts then, with no other
write, returns the old data. -/
theorem write_undone : ∃ run,
    Along (fun σ e τ => σ.exec (fun _ => 0) e = some τ) (initial (Fin 2) ℕ) run ∧
      ((final (initial (Fin 2) ℕ) run).call 1).returned 7 0 = true ∧
      ¬After State.Fresh (initial (Fin 2) ℕ) run := by
  obtain ⟨run, _, hrun, hfinal⟩ := exists_run (State.exec fun _ => 0) (fun _ _ => True)
    (fun σ => (σ.call 1).returned 7 0 = true) (initial (Fin 2) ℕ)
    [.blockRead 0 0 1 true, .step 0, .step 0, .blockWrite 1 0 1 (fun _ => 7), .step 1, .step 1,
      .step 0, .blockRead 1 0 1 true, .step 1] (by decide +kernel)
  refine ⟨run, hrun.mono fun _ _ _ h => h.2, hfinal, fun hfresh => ?_⟩
  have hdata := Call.eq_of_returned hfresh.final hfinal
  cases hdata

end SeaKernel.BlockCache
