import SeaKernel.Lib.Run
import SeaKernel.Lib.Threads

/-!
# Requests to the disk

One call of `block_read` and the disk it reads from. For a block that is not cached, `__do_request`
hands a request to the driver, puts itself on the wait list of the request and sleeps until the
interrupt handler has stored the result. The driver issues a command in a free slot; the disk
finishes it at some time, and the handler takes it off the slot at some later time.

`__do_request` hands the request to the driver twice: before it is on the wait list, and again if
there is no result by then. The call goes on when the first of the two commands is complete, and the
other one may still be under way into the caller's buffer.

The slots are shared with other calls, of which only that they take slots matters. A slot that holds
a command of this call says for which of its blocks.

## Main definitions

* `Args`, `Place`, `State`: the call, where it is, and the disk
* `State.exec`: the next step of the call, the disk, the interrupt handler or another caller
* `State.Settled`: one command for each block that is not cached, and none outstanding
* `Prompt`: when the call looks for the result, the handler has stored it

## Main results

* `settled_iff`: a call that has returned is settled exactly when the completions were prompt
* `transfer_left_behind`: the command that is left behind otherwise
-/

namespace SeaKernel.Disk

open Function List Option Nat

/-! ## The model -/

/-- The arguments of the call, the size of the disk, and which lookups find the block. -/
structure Args where
  start : ℕ
  count : ℕ
  sectors : ℕ
  hit : ℕ → Bool

/-- A command in a slot: for a block of this call, or for another call. The disk has finished it
when it has cleared the slot's bit of `command_issue`. -/
structure Command where
  block : Option ℕ
  finished : Bool
  deriving DecidableEq, Repr

/-- Where the call is with its current block. A blockpoint on the wait list of the request carries
its `BLOCK_UNBLOCKED` flag. -/
inductive Place
  | lookup
  /-- Before the first `handle_req`. -/
  | first
  /-- Before `blockpoint_startblock`. -/
  | starting
  /-- Before the test of `ret_count`. -/
  | checking (unblocked : Bool)
  /-- Before the second `handle_req`. -/
  | again (unblocked : Bool)
  | asleep (unblocked : Bool)
  /-- Before `blockpoint_cleanup`. -/
  | cleaning
  deriving DecidableEq, Repr

/-- `blockpoint_unblock` -/
def Place.unblock : Place → Place
  | checking _ => checking true
  | again _ => again true
  | asleep _ => asleep true
  | place => place

/-- A call of `block_read` and the slots of the disk; it has returned once `i` is the count. -/
structure State where
  i : ℕ
  place : Place
  /-- The requests whose `ret_count` is no longer -1. -/
  done : ℕ → Bool
  slots : Fin 32 → Option Command
  /-- The number of commands issued for each block. -/
  issued : ℕ → ℕ

inductive Event
  /-- The next step of the call. -/
  | step
  /-- The disk finishes the command in a slot. -/
  | finish (k : Fin 32)
  /-- The interrupt handler finds the command in a slot finished. -/
  | complete (k : Fin 32)
  /-- Another caller issues a command. -/
  | other
  deriving DecidableEq, Repr

/-- The call starts while only others have commands in the slots. -/
def begin (slots : Fin 32 → Option Command) : State :=
  ⟨0, .lookup, fun _ => false, slots, fun _ => 0⟩

namespace State

/-- `ahci_port_acquire_slot`; the caller waits while all are taken. -/
def acquireSlot (σ : State) : Option (Fin 32) := (List.finRange 32).find? fun k => σ.slots k = none

def setSlot (σ : State) (k : Fin 32) (c : Option Command) : State :=
  { σ with slots := update σ.slots k c }

/-- `handle_req`, for a request of one block, and the call goes on to `place`. -/
def handleReq (args : Args) (σ : State) (place : Place) : Option State :=
  if args.sectors ≤ args.start + σ.i then some { σ with place := place }
  else σ.acquireSlot.map fun k =>
    { σ.setSlot k (some ⟨some σ.i, false⟩) with
      place := place
      issued := update σ.issued σ.i (σ.issued σ.i + 1) }

/-- The next step of the call. -/
def step (args : Args) (σ : State) : Option State :=
  match σ.place with
  | .lookup =>
    if args.count ≤ σ.i then none
    else if args.hit σ.i then some { σ with i := σ.i + 1 }
    else some { σ with place := .first }
  | .first => σ.handleReq args .starting
  | .starting => some { σ with place := .checking false }
  | .checking unblocked =>
    some { σ with place := if σ.done σ.i then .cleaning else .again unblocked }
  | .again unblocked => σ.handleReq args (.asleep unblocked)
  | .asleep unblocked => if unblocked then some { σ with place := .cleaning } else none
  -- without a result `__do_request` panics
  | .cleaning => if σ.done σ.i then some { σ with place := .lookup, i := σ.i + 1 } else none

/-- `ahci_check_eot` at one slot: the result is stored, the waiting call is unblocked and the slot
is free. -/
def checkEot (σ : State) (k : Fin 32) : Option State :=
  match σ.slots k with
  | some ⟨some j, true⟩ =>
    some { σ.setSlot k none with
      done := update σ.done j true
      place := if j = σ.i then σ.place.unblock else σ.place }
  | some ⟨none, true⟩ => some (σ.setSlot k none)
  | _ => none

def exec (args : Args) (σ : State) : Event → Option State
  | .step => σ.step args
  | .finish k => (σ.slots k).map fun c => σ.setSlot k (some { c with finished := true })
  | .complete k => σ.checkEot k
  | .other => σ.acquireSlot.map fun k => σ.setSlot k (some ⟨none, false⟩)

/-- The call has returned. -/
def Returned (args : Args) (σ : State) : Prop := σ.place = .lookup ∧ args.count ≤ σ.i

/-- **One command was issued for each block that was not cached, and none is outstanding.** -/
def Settled (args : Args) (σ : State) : Prop :=
  (∀ j < args.count, σ.issued j = if args.hit j then 0 else 1) ∧
    ∀ k j, σ.slots k ≠ some ⟨some j, false⟩

end State

/-- When the call tests `ret_count`, the handler has taken the command for the block off its
slot. -/
def Prompt (σ : State) (e : Event) : Prop :=
  e = .step → ∀ unblocked, σ.place = .checking unblocked →
    ∀ k finished, σ.slots k ≠ some ⟨some σ.i, finished⟩

instance (σ : State) (e : Event) : Decidable (Prompt σ e) := by
  unfold Prompt
  infer_instance

/-! ## Commands in the slots -/

/-- The slot holds a command for block `j` of the call. -/
def Command.isFor (j : ℕ) : Option Command → ℕ
  | some c => if c.block = some j then 1 else 0
  | none => 0

/-- The number of commands for block `j` in the slots. -/
def State.held (σ : State) (j : ℕ) : ℕ := tally (Command.isFor j) σ.slots

variable {e : Event} {place : Place}

namespace State

variable {σ τ : State} {k : Fin 32} {j : ℕ}

theorem held_setSlot (σ : State) (k : Fin 32) (c : Option Command) (j : ℕ) :
    (σ.setSlot k c).held j + Command.isFor j (σ.slots k) = σ.held j + Command.isFor j c :=
  tally_update _ _ _ _

theorem slots_of_acquireSlot (h : σ.acquireSlot = some k) : σ.slots k = none := by
  simpa using find?_some h

open Command

theorem held_pos {finished : Bool} (h : σ.slots k = some ⟨some j, finished⟩) : 0 < σ.held j := by
  have hle := le_tally (isFor j) σ.slots k
  rw [h] at hle
  simp only [isFor, if_true] at hle
  exact hle

theorem exists_of_held_pos (h : 0 < σ.held j) :
    ∃ k finished, σ.slots k = some ⟨some j, finished⟩ := by
  obtain ⟨k, hk⟩ := exists_of_tally_pos h
  cases hslot : σ.slots k with
  | none => simp [hslot, isFor] at hk
  | some c =>
    obtain ⟨block, finished⟩ := c
    have hblock : block = some j := by
      by_contra hne
      simp [hslot, isFor, hne] at hk
    exact ⟨k, finished, by rw [hslot, hblock]⟩

/-- What the disk, the handler and other callers do to the call: a command for a block may be
completed. -/
structure Background (σ τ : State) : Prop where
  i_eq : τ.i = σ.i
  issued_eq : τ.issued = σ.issued
  place_eq : τ.place = σ.place ∨ τ.place = σ.place.unblock
  held_done : ∀ j, τ.held j = σ.held j ∧ τ.done j = σ.done j ∨
    τ.held j + 1 = σ.held j ∧ τ.done j = true

theorem Background.setSlot {c : Option Command}
    (h : ∀ j, Command.isFor j c = Command.isFor j (σ.slots k)) : Background σ (σ.setSlot k c) := by
  refine ⟨rfl, rfl, Or.inl rfl, fun j => Or.inl ⟨?_, rfl⟩⟩
  have hheld := σ.held_setSlot k c j
  have hsame := h j
  omega

theorem Background.checkEot (h : σ.checkEot k = some τ) : Background σ τ := by
  unfold State.checkEot at h
  split at h
  case h_1 j hslot =>
    obtain rfl := some.inj h
    refine ⟨rfl, rfl, ?_, fun j' => ?_⟩
    · by_cases hj : j = σ.i
      · exact Or.inr (if_pos hj)
      · exact Or.inl (if_neg hj)
    · have hheld : (σ.setSlot k none).held j' + isFor j' (σ.slots k) =
          σ.held j' + isFor j' none := σ.held_setSlot k none j'
      rw [hslot] at hheld
      by_cases hj : j = j'
      · subst hj
        simp only [isFor, if_true, add_zero] at hheld
        exact Or.inr ⟨hheld, update_self _ _ _⟩
      · simp only [isFor, some.injEq, hj, if_false, add_zero] at hheld
        exact Or.inl ⟨hheld, update_of_ne (Ne.symm hj) _ _⟩
  case h_2 hslot =>
    obtain rfl := some.inj h
    exact .setSlot fun j => by simp [isFor, hslot]
  case h_3 => cases h

theorem Background.of_exec {args : Args} (h : σ.exec args e = some τ) (he : e ≠ .step) :
    Background σ τ := by
  cases e with
  | step => exact absurd rfl he
  | finish k =>
    obtain ⟨c, hc, rfl⟩ := map_eq_some_iff.mp h
    exact .setSlot fun j => by simp [isFor, hc]
  | complete k => exact .checkEot h
  | other =>
    obtain ⟨k, hk, rfl⟩ := map_eq_some_iff.mp h
    exact .setSlot fun j => by simp [isFor, slots_of_acquireSlot hk]

/-- What `handle_req` does for a block in the range of the disk: it issues a command. -/
structure Issued (σ τ : State) (place : Place) : Prop where
  i_eq : τ.i = σ.i
  place_eq : τ.place = place
  done_eq : τ.done = σ.done
  issued_eq : τ.issued = update σ.issued σ.i (σ.issued σ.i + 1)
  held_self : τ.held σ.i = σ.held σ.i + 1
  held_of_ne : ∀ j, j ≠ σ.i → τ.held j = σ.held j

theorem Issued.of_handleReq {args : Args} (h : σ.handleReq args place = some τ)
    (hrange : args.start + σ.i < args.sectors) : Issued σ τ place := by
  unfold State.handleReq at h
  rw [if_neg (not_le.mpr hrange)] at h
  obtain ⟨k, hk, rfl⟩ := map_eq_some_iff.mp h
  have hheld (j : ℕ) := σ.held_setSlot k (some ⟨some σ.i, false⟩) j
  simp only [slots_of_acquireSlot hk, isFor, some.injEq, add_zero] at hheld
  exact ⟨rfl, rfl, rfl, rfl, (hheld σ.i).trans (by rw [if_pos rfl]),
    fun j hj => (hheld j).trans (by rw [if_neg (Ne.symm hj), add_zero])⟩

end State

/-! ## What holds in every run -/

namespace Place

/-- Nothing was done for the current block yet. -/
def early : Place → Bool
  | lookup | first => true
  | _ => false

/-- One command was issued for the current block, and its result was not looked for yet. -/
def once : Place → Bool
  | starting | checking _ => true
  | _ => false

@[simp] theorem early_unblock (p : Place) : p.unblock.early = p.early := by
  cases p <;> rfl

@[simp] theorem once_unblock (p : Place) : p.unblock.once = p.once := by
  cases p <;> rfl

theorem unblock_eq_cleaning {p : Place} : p.unblock = cleaning ↔ p = cleaning := by
  cases p <;> simp [unblock]

theorem eq_again_of_unblock {p : Place} {u : Bool} (h : p.unblock = again u) :
    ∃ u', p = again u' := by
  cases p <;> simp [unblock] at h ⊢

end Place

/-- The books of the call. -/
structure Inv (args : Args) (σ : State) : Prop where
  le : σ.i ≤ args.count
  inside : σ.place ≠ .lookup → σ.i < args.count ∧ args.hit σ.i = false
  ahead : ∀ j, σ.i < j ∨ j = σ.i ∧ σ.place.early = true →
    σ.issued j = 0 ∧ σ.done j = false ∧ σ.held j = 0
  once : σ.place.once = true → σ.issued σ.i = 1 ∧ σ.held σ.i + (σ.done σ.i).toNat = 1
  again : ∀ u, σ.place = .again u → σ.issued σ.i = 1

namespace Inv

variable {args : Args} {σ τ : State}

theorem begin {slots : Fin 32 → Option Command}
    (hslots : ∀ k c, slots k = some c → c.block = none) : Inv args (begin slots) where
  le := zero_le _
  inside := fun h => absurd rfl h
  ahead := by
    refine fun j _ => ⟨rfl, rfl, tally_eq_zero fun k => ?_⟩
    cases hslot : slots k with
    | none => simp [Disk.begin, hslot, Command.isFor]
    | some c => simp [Disk.begin, hslot, Command.isFor, hslots k c hslot]
  once := by simp [Disk.begin, Place.once]
  again := by simp [Disk.begin]

section

variable (h : Inv args σ)

include h

theorem background (hb : σ.Background τ) : Inv args τ := by
  obtain ⟨hi, hissued, hplace, hheld⟩ := hb
  have hearly : τ.place.early = σ.place.early := by
    rcases hplace with hplace | hplace <;> simp [hplace]
  have honce : τ.place.once = σ.place.once := by
    rcases hplace with hplace | hplace <;> simp [hplace]
  refine ⟨by rw [hi]; exact h.le, ?_, ?_, ?_, ?_⟩
  · intro hne
    rw [hi]
    refine h.inside fun heq => hne ?_
    rcases hplace with hplace | hplace
    · rw [hplace, heq]
    · rw [hplace, heq]
      rfl
  · intro j hj
    rw [hi, hearly] at hj
    obtain ⟨hnone, hdone, hzero⟩ := h.ahead j hj
    rcases hheld j with hsame | hless
    · exact ⟨by rw [hissued, hnone], by rw [hsame.2, hdone], by rw [hsame.1, hzero]⟩
    · omega
  · intro hτ
    rw [honce] at hτ
    obtain ⟨hone, hsum⟩ := h.once hτ
    rw [hi, hissued]
    refine ⟨hone, ?_⟩
    rcases hheld σ.i with hsame | hless
    · rw [hsame.1, hsame.2, hsum]
    · rw [hless.2]
      have hdone := (σ.done σ.i).toNat_le
      simp only [Bool.toNat_true]
      omega
  · intro u hτ
    rw [hi, hissued]
    rcases hplace with hplace | hplace
    · exact h.again u (hplace ▸ hτ)
    · obtain ⟨u', hu'⟩ := Place.eq_again_of_unblock (hplace ▸ hτ)
      exact h.again u' hu'

theorem range (hargs : args.start + args.count ≤ args.sectors) (hne : σ.place ≠ .lookup) :
    args.start + σ.i < args.sectors := by
  have hlt := (h.inside hne).1
  omega

theorem quiet (hfrom : σ.place ≠ .lookup) (hearly : place.early = false)
    (honce : place.once = true → σ.place.once = true)
    (hagain : ∀ u, place = .again u → σ.issued σ.i = 1) : Inv args { σ with place := place } := by
  refine
    ⟨h.le, fun _ => h.inside hfrom, fun j hj => h.ahead j ?_, fun hτ => h.once (honce hτ), hagain⟩
  rcases hj with hj | ⟨_, hj⟩
  · exact Or.inl hj
  · rw [hearly] at hj
    cases hj

theorem next (hlt : σ.i < args.count) : Inv args { σ with place := .lookup, i := σ.i + 1 } := by
  refine ⟨hlt, fun hne => absurd rfl hne, fun j hj => h.ahead j (Or.inl ?_), by simp [Place.once],
    by simp⟩
  rcases hj with hj | ⟨hj, _⟩
  · exact lt_of_succ_lt hj
  · exact hj ▸ lt_succ_self _

theorem issue (hissue : σ.Issued τ place) (hfrom : σ.place ≠ .lookup) (hearly : place.early = false)
    (honce : place.once = true → σ.place.early = true) (hagain : ∀ u, place ≠ .again u) :
    Inv args τ := by
  refine
    ⟨by rw [hissue.i_eq]; exact h.le, fun _ => by rw [hissue.i_eq]; exact h.inside hfrom, ?_, ?_,
    fun u hu => absurd (hissue.place_eq ▸ hu) (hagain u)⟩
  · intro j hj
    rw [hissue.i_eq, hissue.place_eq, hearly] at hj
    have hlt : σ.i < j := by simpa using hj
    rw [hissue.issued_eq, hissue.done_eq, hissue.held_of_ne j hlt.ne', update_of_ne hlt.ne']
    exact h.ahead j (Or.inl hlt)
  · intro hτ
    rw [hissue.place_eq] at hτ
    obtain ⟨hnone, hdone, hzero⟩ := h.ahead σ.i (Or.inr ⟨rfl, honce hτ⟩)
    rw [hissue.i_eq, hissue.issued_eq, hissue.done_eq, hissue.held_self, hnone, hdone, hzero]
    simp

end

/-- **Every step keeps the books.** -/
theorem exec (hargs : args.start + args.count ≤ args.sectors) (h : Inv args σ)
    (hexec : σ.exec args e = some τ) : Inv args τ := by
  by_cases he : e = .step
  case neg => exact h.background (.of_exec hexec he)
  subst he
  simp only [State.exec, State.step] at hexec
  split at hexec
  case h_1 hplace =>
    split at hexec
    · cases hexec
    case isFalse hlt =>
      split at hexec
      case isTrue =>
        obtain rfl := some.inj hexec
        have hnext := h.next (Nat.lt_of_not_le hlt)
        rwa [← hplace] at hnext
      case isFalse hhit =>
        obtain rfl := some.inj hexec
        refine
          ⟨h.le, fun _ => ⟨Nat.lt_of_not_le hlt, by simpa using hhit⟩, fun j hj => h.ahead j ?_,
          by simp [Place.once], by simp⟩
        simpa [hplace, Place.early] using hj
  case h_2 hplace =>
    exact h.issue (.of_handleReq hexec (h.range hargs (by simp [hplace]))) (by simp [hplace]) rfl
      (by simp [hplace, Place.early]) (by simp)
  case h_3 hplace =>
    obtain rfl := some.inj hexec
    exact h.quiet (by simp [hplace]) rfl (by simp [hplace, Place.once]) (by simp)
  case h_4 u hplace =>
    obtain rfl := some.inj hexec
    have hone := h.once (by simp [hplace, Place.once])
    refine h.quiet (by simp [hplace]) ?_ (by simp [hplace, Place.once]) fun _ _ => hone.1
    split <;> rfl
  case h_5 u hplace =>
    exact h.issue (.of_handleReq hexec (h.range hargs (by simp [hplace]))) (by simp [hplace]) rfl
      (by simp [Place.once]) (by simp)
  case h_6 u hplace =>
    obtain ⟨-, rfl⟩ := ite_some_none_eq_some.mp hexec
    exact h.quiet (by simp [hplace]) rfl (by simp [Place.once]) (by simp)
  case h_7 hplace =>
    obtain ⟨-, rfl⟩ := ite_some_none_eq_some.mp hexec
    exact h.next (h.inside (by simp [hplace])).1

end Inv

/-! ## Prompt completions -/

/-- What holds while all completions were prompt: the call never sleeps, and nothing is left of the
blocks it is done with. -/
structure Clean (args : Args) (σ : State) : Prop where
  inv : Inv args σ
  past : ∀ j < σ.i, σ.issued j = (if args.hit j then 0 else 1) ∧ σ.held j = 0
  awake : ∀ u, σ.place ≠ .again u ∧ σ.place ≠ .asleep u
  cleaning : σ.place = .cleaning → σ.issued σ.i = 1 ∧ σ.held σ.i = 0

namespace Clean

variable {args : Args} {σ τ : State}

theorem begin {slots : Fin 32 → Option Command}
    (hslots : ∀ k c, slots k = some c → c.block = none) : Clean args (begin slots) where
  inv := .begin hslots
  past := fun _ hj => absurd hj (not_lt_zero _)
  awake := by simp [Disk.begin]
  cleaning := by simp [Disk.begin]

theorem background (h : Clean args σ) (hb : σ.Background τ) : Clean args τ := by
  refine ⟨h.inv.background hb, fun j hj => ?_, fun u => ?_, fun hτ => ?_⟩
  · rw [hb.i_eq] at hj
    obtain ⟨hissued, hzero⟩ := h.past j hj
    have hheld := hb.held_done j
    exact ⟨by rw [hb.issued_eq, hissued], by omega⟩
  · have hawake := h.awake
    rcases hb.place_eq with hplace | hplace
    · rw [hplace]
      exact hawake u
    · rw [hplace]
      cases hσ : σ.place <;> simp_all [Place.unblock]
  · have hσ : σ.place = .cleaning := by
      rcases hb.place_eq with hplace | hplace
      · rw [← hplace, hτ]
      · exact Place.unblock_eq_cleaning.mp (hplace ▸ hτ)
    obtain ⟨hissued, hzero⟩ := h.cleaning hσ
    have hheld := hb.held_done σ.i
    rw [hb.i_eq]
    exact ⟨by rw [hb.issued_eq, hissued], by omega⟩

theorem done_of_prompt {u : Bool} (h : Inv args σ) (hplace : σ.place = .checking u)
    (hprompt : Prompt σ .step) : σ.held σ.i = 0 ∧ σ.done σ.i = true := by
  have hzero : σ.held σ.i = 0 := by
    by_contra hne
    obtain ⟨k, finished, hk⟩ := State.exists_of_held_pos (pos_of_ne_zero hne)
    exact hprompt rfl u hplace k finished hk
  have hone := h.once (by simp [hplace, Place.once])
  rw [hzero] at hone
  cases hdone : σ.done σ.i with
  | true => exact ⟨hzero, rfl⟩
  | false => simp [hdone] at hone

/-- **Every step keeps the call clean** while completions are prompt. -/
theorem exec (hargs : args.start + args.count ≤ args.sectors) (h : Clean args σ)
    (hexec : σ.exec args e = some τ) (hprompt : Prompt σ e) : Clean args τ := by
  by_cases he : e = .step
  case neg => exact h.background (.of_exec hexec he)
  subst he
  have hinv := h.inv.exec hargs hexec
  simp only [State.exec, State.step] at hexec
  split at hexec
  case h_1 hplace =>
    split at hexec
    · cases hexec
    case isFalse hlt =>
      split at hexec
      case isTrue hhit =>
        obtain rfl := some.inj hexec
        refine ⟨hinv, fun j hj => ?_, by simp [hplace], by simp [hplace]⟩
        rcases Nat.lt_succ_iff_lt_or_eq.mp hj with hj | rfl
        · exact h.past j hj
        · obtain ⟨hissued, _, hheld⟩ :=
            h.inv.ahead σ.i (Or.inr ⟨rfl, by simp [hplace, Place.early]⟩)
          exact ⟨by simp [hissued, hhit], hheld⟩
      case isFalse =>
        obtain rfl := some.inj hexec
        exact ⟨hinv, h.past, by simp, by simp⟩
  case h_2 hplace =>
    have hissue := State.Issued.of_handleReq hexec (h.inv.range hargs (by simp [hplace]))
    refine ⟨hinv, fun j hj => ?_, by simp [hissue.place_eq], by simp [hissue.place_eq]⟩
    rw [hissue.i_eq] at hj
    rw [hissue.issued_eq, hissue.held_of_ne j hj.ne, update_of_ne hj.ne]
    exact h.past j hj
  case h_3 hplace =>
    obtain rfl := some.inj hexec
    exact ⟨hinv, h.past, by simp, by simp⟩
  case h_4 u hplace =>
    obtain rfl := some.inj hexec
    obtain ⟨hzero, hdone⟩ := done_of_prompt h.inv hplace hprompt
    have hone := h.inv.once (by simp [hplace, Place.once])
    refine ⟨hinv, h.past, by simp [hdone], fun _ => ⟨hone.1, hzero⟩⟩
  case h_5 u hplace => exact absurd hplace (h.awake u).1
  case h_6 u hplace => exact absurd hplace (h.awake u).2
  case h_7 hplace =>
    obtain ⟨-, rfl⟩ := ite_some_none_eq_some.mp hexec
    refine ⟨hinv, fun j hj => ?_, by simp, by simp⟩
    rcases Nat.lt_succ_iff_lt_or_eq.mp hj with hj | rfl
    · exact h.past j hj
    · obtain ⟨hissued, hheld⟩ := h.cleaning hplace
      exact ⟨by simp [hissued, (h.inv.inside (by simp [hplace])).2], hheld⟩

theorem settled (h : Clean args σ) (hreturned : σ.Returned args) : σ.Settled args := by
  refine ⟨fun j hj => (h.past j (lt_of_lt_of_le hj hreturned.2)).1, fun k j hk => ?_⟩
  have hpos := State.held_pos hk
  rcases lt_trichotomy j σ.i with hj | rfl | hj
  · rw [(h.past j hj).2] at hpos
    omega
  · rw [(h.inv.ahead σ.i (Or.inr ⟨rfl, by simp [hreturned.1, Place.early]⟩)).2.2] at hpos
    omega
  · rw [(h.inv.ahead j (Or.inl hj)).2.2] at hpos
    omega

end Clean

/-! ## Late completions -/

/-- A second command was issued for a block, or is about to be. -/
def Late (σ : State) : Prop :=
  (∃ j, 2 ≤ σ.issued j) ∨ ∃ u, σ.place = .again u ∧ σ.issued σ.i = 1

section Late

variable {args : Args} {σ τ : State}

theorem issued_le_of_exec (hargs : args.start + args.count ≤ args.sectors) (h : Inv args σ)
    (hexec : σ.exec args e = some τ) (j : ℕ) : σ.issued j ≤ τ.issued j := by
  by_cases he : e = .step
  case neg => exact (State.Background.of_exec hexec he).issued_eq ▸ le_rfl
  subst he
  have hissue {place : Place} (hhandle : σ.handleReq args place = some τ)
      (hne : σ.place ≠ .lookup) :
      σ.issued j ≤ τ.issued j := by
    have hissue := State.Issued.of_handleReq hhandle (h.range hargs hne)
    rw [hissue.issued_eq]
    by_cases hj : j = σ.i
    · subst hj
      simp
    · rw [update_of_ne hj]
  simp only [State.exec, State.step] at hexec
  split at hexec
  case h_2 hplace => exact hissue hexec (by simp [hplace])
  case h_5 hplace => exact hissue hexec (by simp [hplace])
  all_goals
    repeat' split at hexec
    all_goals first
      | (obtain rfl := some.inj hexec
         exact le_rfl)
      | cases hexec

theorem Late.exec (hargs : args.start + args.count ≤ args.sectors) (h : Inv args σ) (hlate : Late σ)
    (hexec : σ.exec args e = some τ) : Late τ := by
  rcases hlate with ⟨j, hj⟩ | ⟨u, hplace, hone⟩
  · exact Or.inl ⟨j, hj.trans (issued_le_of_exec hargs h hexec j)⟩
  · by_cases he : e = .step
    · subst he
      simp only [State.exec, State.step, hplace] at hexec
      have hissue := State.Issued.of_handleReq hexec (h.range hargs (by simp [hplace]))
      exact Or.inl ⟨σ.i, by simp [hissue.issued_eq, hone]⟩
    · have hb := State.Background.of_exec hexec he
      refine Or.inr ?_
      rw [hb.i_eq, hb.issued_eq]
      rcases hb.place_eq with hτ | hτ
      · exact ⟨u, hτ.trans hplace, hone⟩
      · exact ⟨true, by rw [hτ, hplace]; rfl, hone⟩

theorem prompt_or_late (h : Inv args σ) (hexec : σ.exec args e = some τ) : Prompt σ e ∨ Late τ := by
  by_cases hprompt : Prompt σ e
  · exact Or.inl hprompt
  · right
    unfold Prompt at hprompt
    push Not at hprompt
    obtain ⟨rfl, u, hplace, k, finished, hk⟩ := hprompt
    obtain ⟨hone, hsum⟩ := h.once (by simp [hplace, Place.once])
    have hpos := State.held_pos hk
    have hdone : σ.done σ.i = false := by
      cases hdone : σ.done σ.i with
      | false => rfl
      | true =>
        rw [hdone] at hsum
        simp only [Bool.toNat_true] at hsum
        omega
    simp only [State.exec, State.step, hplace, hdone, Bool.false_eq_true, if_false] at hexec
    obtain rfl := some.inj hexec
    exact Or.inr ⟨u, rfl, hone⟩

theorem Late.not_settled (h : Inv args σ) (hlate : Late σ) (hreturned : σ.Returned args) :
    ¬σ.Settled args := by
  rintro ⟨hissued, _⟩
  rcases hlate with ⟨j, hj⟩ | ⟨u, hplace, _⟩
  · by_cases hlt : j < args.count
    · have hone := hissued j hlt
      split at hone <;> omega
    · have hle := h.le
      have hj' : σ.i < j ∨ j = σ.i ∧ σ.place.early = true := by
        rcases Nat.lt_or_eq_of_le (hle.trans (Nat.le_of_not_lt hlt)) with hlt | heq
        · exact Or.inl hlt
        · exact Or.inr ⟨heq.symm, by simp [hreturned.1, Place.early]⟩
      have hnone := (h.ahead j hj').1
      omega
  · rw [hreturned.1] at hplace
    cases hplace

end Late

/-! ## Whole calls -/

/-- **A call that has returned has issued one command for each block that was not cached, and left
none behind, exactly when each time it looked for the result the completion had been handled.** The
blocks are in the range of the disk; the slots may hold commands of others. -/
theorem settled_iff {args : Args} {slots : Fin 32 → Option Command}
    {run : List (Event × State)} (hargs : args.start + args.count ≤ args.sectors)
    (hslots : ∀ k c, slots k = some c → c.block = none)
    (hrun : Along (fun σ e τ => σ.exec args e = some τ) (begin slots) run)
    (hreturned : (final (begin slots) run).Returned args) :
    (final (begin slots) run).Settled args ↔ Along (fun σ e _ => Prompt σ e) (begin slots) run := by
  constructor
  · intro hsettled
    have hends := hrun.along_or_final (I := Inv args) (C := fun σ e _ => Prompt σ e) (L := Late)
      (fun _ _ _ h hexec => h.exec hargs hexec) (fun _ _ _ h hexec => prompt_or_late h hexec)
      (fun _ _ _ h hlate hexec => hlate.exec hargs h hexec) (.begin hslots)
    rcases hends with hprompt | hlate
    · exact hprompt
    · have hinv : After (Inv args) (begin slots) run :=
        hrun.after_of_step (fun _ _ _ h hexec => h.exec hargs hexec) (.begin hslots)
      exact absurd hsettled (hlate.not_settled hinv.final hreturned)
  · intro hprompt
    have hclean : After (Clean args) (begin slots) run :=
      hrun.after (fun _ _ _ h hexec hp => h.exec hargs hexec hp) (.begin hslots) hprompt
    exact hclean.final.settled hreturned

/-- The arguments of a call for one block that is not cached. -/
def oneBlock : Args := ⟨5, 1, 100, fun _ => false⟩

theorem settled_when_prompt : ∃ run,
    Along (fun σ e τ => σ.exec oneBlock e = some τ) (begin fun _ => none) run ∧
      (final (begin fun _ => none) run).Returned oneBlock ∧
      (final (begin fun _ => none) run).Settled oneBlock := by
  obtain ⟨run, _, halong, hfinal⟩ := exists_run (State.exec oneBlock) Prompt
    (fun σ => σ.place = .lookup ∧ 1 ≤ σ.i) (begin fun _ => none)
    [.step, .step, .finish 0, .complete 0, .step, .step, .step] (by decide +kernel)
  have hrun := halong.mono fun _ _ _ h => h.2
  exact ⟨run, hrun, hfinal, (settled_iff (by decide) (by simp) hrun hfinal).mpr
    (halong.mono fun _ _ _ h => h.1)⟩

/-- **A transfer left behind**: the result is not there when the call looks for it, so a second
command is issued; the first one is completed and the call returns, and the disk has not finished
the second one. -/
theorem transfer_left_behind : ∃ run,
    Along (fun σ e τ => σ.exec oneBlock e = some τ) (begin fun _ => none) run ∧
      (final (begin fun _ => none) run).Returned oneBlock ∧
      (final (begin fun _ => none) run).issued 0 = 2 ∧
      (final (begin fun _ => none) run).slots 1 = some ⟨some 0, false⟩ ∧
      ¬(final (begin fun _ => none) run).Settled oneBlock := by
  obtain ⟨run, _, halong, hplace, hi, hissued, hslot⟩ := exists_run (State.exec oneBlock)
    (fun _ _ => True)
    (fun σ => σ.place = .lookup ∧ 1 ≤ σ.i ∧ σ.issued 0 = 2 ∧ σ.slots 1 = some ⟨some 0, false⟩)
    (begin fun _ => none)
    [.step, .step, .step, .step, .step, .finish 0, .complete 0, .step, .step] (by decide +kernel)
  exact ⟨run, halong.mono fun _ _ _ h => h.2, ⟨hplace, hi⟩, hissued, hslot, fun h => h.2 1 0 hslot⟩

end SeaKernel.Disk
