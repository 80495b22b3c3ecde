import SeaKernel.Kobj.CharBufferCall
import SeaKernel.Lib.Rounds

/-!
# Vectored writes

A model of `sys_pwritev` of `kernel/sys/open.c`. Of a buffer only the length matters, and of
`file_write` only what its calls return, one after the other; the offset is passed on and nothing
depends on it. The inner loop goes on as long as the buffer is not written, and a call that returns
0 does not bring it forward. A character buffer returns 0 forever once it is terminated, or while it
is full and the caller does not want to wait.

## Main results

* `sysPwritev_sound_iff`: when the call returns the sum of the counts
-/

namespace SeaKernel.Pwritev

open List Option Nat

/-- The loops of `sys_pwritev`, for the buffers from the current one on. -/
structure Loop where
  /-- The lengths of the buffers. -/
  iov : List ℕ
  thisvec : ℕ
  amount : ℕ
  /-- The number of calls of `file_write`. -/
  calls : ℕ

/-- The loops, with the number of rounds they may take. The result comes with the number of calls of
`file_write`, which return `res`. -/
def pwritevLoop (res : ℕ → ℤ) : ℕ → Loop → Option (ℤ × ℕ)
  | 0, _ => none
  | rounds + 1, l =>
    match l.iov with
    | [] => some (s64 l.amount, l.calls)
    | len :: iov =>
      if l.thisvec < len then
        if res l.calls < 0 then
          some (if l.amount = 0 then res l.calls else s64 l.amount, l.calls + 1)
        else
          pwritevLoop res rounds
            { iov := l.iov
              thisvec := u64 (l.thisvec + (res l.calls).toNat)
              amount := u64 (l.amount + (res l.calls).toNat)
              calls := l.calls + 1 }
      else pwritevLoop res rounds { l with iov := iov, thisvec := 0 }

/-- `sys_pwritev` on a descriptor without a file, or with one that may be written or not. -/
def sysPwritev (file : Option Bool) (iov : List ℕ) (res : ℕ → ℤ) (rounds : ℕ) : Option (ℤ × ℕ) :=
  match file with
  | none => some (-9, 0)
  | some false => some (-13, 0)
  | some true => pwritevLoop res rounds ⟨iov, 0, 0, 0⟩

/-- The sum of the counts that the first `k` calls returned. -/
def count (res : ℕ → ℤ) (k : ℕ) : ℕ := ∑ i ∈ Finset.range k, (res i).toNat

/-- A call that is made for the rest of a buffer returns an error, or at most what was asked for. -/
def Admissible (iov : List ℕ) (res : ℕ → ℤ) : Prop :=
  ∀ k before len after thisvec, iov = before ++ len :: after → thisvec < len →
    count res k = before.sum + thisvec → (∀ i < k, 0 ≤ res i) → (res k).toNat ≤ len - thisvec

/-- The call returns, and if the result is not negative, it is the sum of the counts. -/
def Sound (file : Option Bool) (iov : List ℕ) (res : ℕ → ℤ) : Prop :=
  ∃ rounds r k, sysPwritev file iov res rounds = some (r, k) ∧ (0 ≤ r → r = count res k)

/-- Before everything is written, and without an error, the results become 0 forever. -/
def Stalls (iov : List ℕ) (res : ℕ → ℤ) : Prop :=
  ∃ k, (∀ i < k, 0 ≤ res i) ∧ count res k < iov.sum ∧ ∀ i ≥ k, res i = 0

/-- Everything is written before the `k`-th call, or this call returns the first error. -/
def Last (iov : List ℕ) (res : ℕ → ℤ) (k : ℕ) : Prop :=
  (∀ i < k, 0 ≤ res i ∧ count res i < iov.sum) ∧ (count res k = iov.sum ∨ res k < 0)

/-- The sum of the counts does not fit in 64 bits, and what is left of it is not negative. -/
def Wraps (iov : List ℕ) (res : ℕ → ℤ) : Prop :=
  ∃ k, Last iov res k ∧ 2 ^ 64 ≤ count res k ∧ count res k % 2 ^ 64 < 2 ^ 63 ∧
    ¬ (count res k < iov.sum ∧ count res k % 2 ^ 64 = 0)

section Loop

variable {iov : List ℕ} {res : ℕ → ℤ} {l : Loop} {k : ℕ}

theorem count_succ (res : ℕ → ℤ) (k : ℕ) : count res (k + 1) = count res k + (res k).toNat :=
  Finset.sum_range_succ _ _

theorem count_mono {j : ℕ} (h : j ≤ k) : count res j ≤ count res k :=
  Finset.sum_le_sum_of_subset (Finset.range_subset_range.mpr h)

/-- Where the loops are: behind `before`, with no error so far. -/
structure Inv (iov : List ℕ) (res : ℕ → ℤ) (l : Loop) : Prop where
  split : ∃ before, iov = before ++ l.iov ∧ count res l.calls = before.sum + l.thisvec ∧
    l.thisvec ≤ l.iov.headD 0
  amount : l.amount = u64 (count res l.calls)
  before : ∀ i < l.calls, 0 ≤ res i ∧ count res i < iov.sum

/-- The loops end with the result `r` before or with the `k`-th call. -/
structure Done (iov : List ℕ) (res : ℕ → ℤ) (k : ℕ) (r : ℤ) (calls : ℕ) : Prop where
  last : Last iov res k
  count_eq : count res calls = count res k
  result : r = if count res k < iov.sum ∧ u64 (count res k) = 0 then res k
    else s64 (u64 (count res k))

section

variable (h : Inv iov res l)

include h

variable (hadm : Admissible iov res)

include hadm

variable (hlen : ∀ len ∈ iov, len < 2 ^ 64)

include hlen

/-- **One round**: the loops are done, or go on. -/
theorem Inv.round :
    (∃ r calls, (∀ rounds, pwritevLoop res (rounds + 1) l = some (r, calls)) ∧
        Done iov res l.calls r calls) ∨
      ∃ l', Inv iov res l' ∧
        (∀ rounds, pwritevLoop res (rounds + 1) l = pwritevLoop res rounds l') ∧
        (l'.calls = l.calls ∧ l'.iov.length < l.iov.length ∨
          l'.calls = l.calls + 1 ∧ l'.iov = l.iov ∧ count res l.calls < iov.sum) := by
  obtain ⟨⟨before, hsplit, hcount, hle⟩, hamount, hbefore⟩ := h
  cases hiov : l.iov with
  | nil =>
    rw [hiov, headD_nil] at hle
    have htotal : count res l.calls = iov.sum := by
      rw [hcount, hsplit, hiov, append_nil]
      omega
    refine .inl ⟨s64 l.amount, l.calls, fun rounds => ?_, ⟨hbefore, .inl htotal⟩, rfl, ?_⟩
    · rw [pwritevLoop, hiov]
    · rw [if_neg (by omega), hamount]
  | cons len after =>
    rw [hiov] at hsplit hle
    have hround : ∀ rounds, pwritevLoop res (rounds + 1) l = if l.thisvec < len then
        if res l.calls < 0 then
          some (if l.amount = 0 then res l.calls else s64 l.amount, l.calls + 1)
        else pwritevLoop res rounds ⟨len :: after, u64 (l.thisvec + (res l.calls).toNat),
          u64 (l.amount + (res l.calls).toNat), l.calls + 1⟩
      else pwritevLoop res rounds { l with iov := after, thisvec := 0 } := by
      intro rounds
      rw [pwritevLoop, hiov]
    have hfit : len < 2 ^ 64 := hlen len (by simp [hsplit])
    by_cases hmore : l.thisvec < len
    · have hlt : count res l.calls < iov.sum := by
        rw [hcount, hsplit, List.sum_append, sum_cons]
        omega
      by_cases herr : res l.calls < 0
      · refine .inl ⟨if l.amount = 0 then res l.calls else s64 l.amount, l.calls + 1,
          fun rounds => ?_, ⟨hbefore, .inr herr⟩, ?_, ?_⟩
        · rw [hround, if_pos hmore, if_pos herr]
        · rw [count_succ, Int.toNat_of_nonpos herr.le, Nat.add_zero]
        · simp only [hlt, true_and, hamount]
      · -- The count goes to the current buffer, which is not left before it is written.
        have hres := hadm l.calls before len after l.thisvec hsplit hmore hcount
          fun i hi => (hbefore i hi).1
        refine .inr ⟨⟨len :: after, u64 (l.thisvec + (res l.calls).toNat),
          u64 (l.amount + (res l.calls).toNat), l.calls + 1⟩,
          ⟨⟨before, hsplit, ?_, ?_⟩, ?_, fun i hi => ?_⟩, fun rounds => ?_, .inr ⟨rfl, rfl, hlt⟩⟩
        · dsimp only
          rw [count_succ, hcount, u64_of_lt (by omega), Nat.add_assoc]
        · dsimp only
          rw [u64_of_lt (by omega), headD_cons]
          omega
        · dsimp only
          rw [count_succ, hamount, u64, u64, u64, Nat.mod_add_mod]
        · rcases Nat.lt_succ_iff_lt_or_eq.mp hi with hi | rfl
          · exact hbefore i hi
          · exact ⟨not_lt.mp herr, hlt⟩
        · rw [hround, if_pos hmore, if_neg herr]
    · refine .inr ⟨{ l with iov := after, thisvec := 0 }, ⟨⟨before ++ [len], by simp [hsplit], ?_,
        Nat.zero_le _⟩, hamount, hbefore⟩, fun rounds => ?_, .inl ⟨rfl, by simp⟩⟩
      · rw [headD_cons] at hle
        dsimp only
        rw [hcount, List.sum_append, sum_singleton]
        omega
      · rw [hround, if_neg hmore]

theorem Inv.result {rounds calls : ℕ} {r : ℤ} (hrun : pwritevLoop res rounds l = some (r, calls)) :
    ∃ k, Done iov res k r calls := by
  induction rounds generalizing l with
  | zero => cases hrun
  | succ rounds ih =>
    rcases h.round hadm hlen with ⟨r', calls', hdone, hd⟩ | ⟨l', h', hnext, -⟩
    · obtain ⟨rfl, rfl⟩ := Prod.mk.inj (some.inj ((hdone rounds).symm.trans hrun))
      exact ⟨_, hd⟩
    · exact ih h' ((hnext rounds).symm.trans hrun)

theorem Inv.not_ends (hstall : Stalls iov res) : ¬ Ends (pwritevLoop res) l := by
  obtain ⟨k, hpos, hlt, hzero⟩ := hstall
  have hnonneg : ∀ i, 0 ≤ res i := fun i => by
    rcases lt_or_ge i k with hi | hi
    · exact hpos i hi
    · exact (hzero i hi).ge
  have hcount : ∀ i, count res i < iov.sum := by
    intro i
    rcases lt_or_ge i k with hi | hi
    · exact (count_mono hi.le).trans_lt hlt
    · -- Nothing is added from the `k`-th call on.
      suffices h : count res i = count res k by omega
      refine le_induction rfl (fun i hi ih => ?_) i hi
      rw [count_succ, hzero i hi, ih]
      rfl
  refine not_ends_of_inv (I := Inv iov res) (fun _ _ => rfl) (fun l h => ?_) h
  rcases h.round hadm hlen with ⟨r, calls, -, hdone⟩ | ⟨l', h', hnext, -⟩
  · rcases hdone.last.2 with heq | hneg
    · exact absurd heq (hcount _).ne
    · exact absurd (hnonneg _) (not_le.mpr hneg)
  · exact ⟨l', h', hnext⟩

theorem Inv.ends (hstall : ¬ Stalls iov res) : Ends (pwritevLoop res) l := by
  -- The measure is what is to be written, then the way to the next call that writes, then the
  -- number of buffers.
  induction hm : iov.sum - count res l.calls using Nat.strong_induction_on generalizing l with
  | _ m ihm =>
  by_cases hstop : ∃ i ≥ l.calls, res i ≠ 0
  · obtain ⟨i, hi, hne⟩ := hstop
    induction hd : i - l.calls using Nat.strong_induction_on generalizing l with
    | _ d ihd =>
    induction hv : l.iov.length using Nat.strong_induction_on generalizing l with
    | _ v ihv =>
    rcases h.round hadm hlen with ⟨r, calls, hdone, -⟩ | ⟨l', h', hnext, hcase⟩
    · exact ⟨1, _, hdone 0⟩
    · refine (ends_iff_of_round rfl hnext).mpr ?_
      rcases hcase with ⟨hcalls, hshort⟩ | ⟨hcalls, -, hlt⟩
      · rw [← hcalls] at hm hi hd
        exact ihv _ (hv ▸ hshort) h' hm hi hd rfl
      · have hadd : count res l'.calls = count res l.calls + (res l.calls).toNat := by
          rw [hcalls, count_succ]
        by_cases hzero : res l.calls = 0
        · have hne' : i ≠ l.calls := fun heq => hne (heq ▸ hzero)
          rw [hzero, Int.toNat_zero, add_zero] at hadd
          exact ihd (i - l'.calls) (by omega) h' (hadd ▸ hm) (by omega) rfl
        · have hpos := (h'.before l.calls (by omega)).1
          exact ihm _ (by omega) h' rfl
  · -- All further results are 0, so that everything is written.
    have hzero : ∀ i ≥ l.calls, res i = 0 := fun i hi => by
      by_contra hne
      exact hstop ⟨i, hi, hne⟩
    induction hv : l.iov.length using Nat.strong_induction_on generalizing l with
    | _ v ihv =>
    rcases h.round hadm hlen with ⟨r, calls, hdone, -⟩ | ⟨l', h', hnext, hcase⟩
    · exact ⟨1, _, hdone 0⟩
    · refine (ends_iff_of_round rfl hnext).mpr ?_
      rcases hcase with ⟨hcalls, hshort⟩ | ⟨-, -, hlt⟩
      · rw [← hcalls] at hm hstop hzero
        exact ihv _ (hv ▸ hshort) h' hm hstop hzero rfl
      · exact absurd ⟨l.calls, fun i hi => (h.before i hi).1, hlt, hzero⟩ hstall

end

theorem Last.unique {j : ℕ} (hj : Last iov res j) (hk : Last iov res k) : j = k := by
  have hle : ∀ {j k}, Last iov res j → Last iov res k → k ≤ j := by
    intro j k hj hk
    by_contra hlt
    obtain ⟨hpos, hmore⟩ := hk.1 j (by omega)
    rcases hj.2 with heq | hneg
    · omega
    · omega
  exact le_antisymm (hle hk hj) (hle hj hk)

theorem Done.sum_iff {r : ℤ} {calls : ℕ} (h : Done iov res k r calls) :
    (0 ≤ r → r = count res calls) ↔ ¬ Wraps iov res := by
  have hwraps : Wraps iov res ↔ 2 ^ 64 ≤ count res k ∧ count res k % 2 ^ 64 < 2 ^ 63 ∧
      ¬ (count res k < iov.sum ∧ count res k % 2 ^ 64 = 0) := by
    constructor
    · rintro ⟨k', hlast, hw⟩
      rwa [h.last.unique hlast]
    · exact fun hw => ⟨k, h.last, hw⟩
  rw [hwraps, h.count_eq, h.result]
  by_cases hzero : count res k < iov.sum ∧ u64 (count res k) = 0
  · have hneg : res k < 0 := h.last.2.resolve_left hzero.1.ne
    rw [if_pos hzero]
    simp only [u64] at hzero
    refine iff_of_true (fun hge => ?_) ?_ <;> omega
  · rw [if_neg hzero]
    by_cases hsmall : u64 (count res k) < 2 ^ 63
    · rw [s64_of_lt hsmall]
      simp only [u64] at *
      omega
    · rw [s64, if_neg hsmall]
      simp only [u64] at *
      omega

end Loop

/-- **`sys_pwritev` returns the sum of the counts exactly if the results do not stall**, and the sum
does not wrap. -/
theorem sysPwritev_sound_iff (file : Option Bool) (iov : List ℕ) (res : ℕ → ℤ)
    (hadm : Admissible iov res) (hlen : ∀ len ∈ iov, len < 2 ^ 64) :
    Sound file iov res ↔ file = some true → ¬ Stalls iov res ∧ ¬ Wraps iov res := by
  match file with
  | none => exact iff_of_true ⟨0, _, _, rfl, fun h => absurd h (by decide)⟩ nofun
  | some false => exact iff_of_true ⟨0, _, _, rfl, fun h => absurd h (by decide)⟩ nofun
  | some true =>
    have hinit : Inv iov res ⟨iov, 0, 0, 0⟩ := ⟨⟨[], rfl, rfl, zero_le _⟩, rfl, nofun⟩
    rw [imp_iff_right rfl]
    constructor
    · rintro ⟨rounds, r, k, hrun, hsum⟩
      obtain ⟨k', hdone⟩ := hinit.result hadm hlen hrun
      exact ⟨fun hstall => hinit.not_ends hadm hlen hstall ⟨rounds, _, hrun⟩, hdone.sum_iff.mp hsum⟩
    · rintro ⟨hstall, hwraps⟩
      obtain ⟨rounds, ⟨r, k⟩, hrun⟩ := hinit.ends hadm hlen hstall
      obtain ⟨k', hdone⟩ := hinit.result hadm hlen hrun
      exact ⟨rounds, r, k, hrun, hdone.sum_iff.mpr hwraps⟩

/-- Two buffers, of which the second one takes two calls. -/
theorem sysPwritev_two_buffers : Sound (some true) [1, 2] fun _ => 1 := by
  have hcount : ∀ k, count (fun _ => 1) k = k := fun k => by simp [count]
  refine (sysPwritev_sound_iff _ _ _ ?_ (by simp)).mpr fun _ => ⟨?_, ?_⟩
  · intro _ _ len _ thisvec _ hlt _ _
    exact Nat.sub_pos_of_lt hlt
  · rintro ⟨k, -, -, hzero⟩
    cases hzero k le_rfl
  · rintro ⟨k, hlast, hge, -⟩
    have hk : k ≤ 3 := by
      by_contra hk
      exact absurd (hlast.1 3 (by omega)).2 (by decide)
    rw [hcount] at hge
    omega

/-- A terminated character buffer returns 0 to every call, and the write of one byte to it never
ends. -/
theorem sysPwritev_never_ends :
    (∀ cb : CharBuffer.Buffer, cb.term = true → ∀ buf flags, cb.write buf flags = .ok (cb, .ok 0)) ∧
      ¬ Sound (some true) [1] fun _ => 0 := by
  refine ⟨fun cb hterm buf flags => if_pos hterm, ?_⟩
  rintro ⟨rounds, r, k, hrun, -⟩
  have hinit : Inv [1] (fun _ => 0) ⟨[1], 0, 0, 0⟩ := ⟨⟨[], rfl, rfl, zero_le _⟩, rfl, nofun⟩
  refine hinit.not_ends (fun _ _ _ _ _ _ _ _ _ => zero_le _) (by simp) ?_ ⟨rounds, _, hrun⟩
  exact ⟨0, nofun, by decide, fun _ _ => rfl⟩

end SeaKernel.Pwritev
