import SeaKernel.Kobj.CharBuffer

/-!
# Calls on a character buffer

`charbuffer_write` and `charbuffer_read` as one thread goes through them while no other thread is at
the buffer, up to their result or to the point where the thread is put to sleep. The rounds and the
copies are those of `CharBuffer`; the flags are the bits that the callers pass.

## Main results

* `write_room`, `write_full`, `read_some`, `read_empty`: calls that need not move all bytes
-/

namespace SeaKernel.CharBuffer

open Local

/-- Why a call does not return. -/
inductive Stop where
  /-- The thread is in `schedule`. -/
  | sleeps
  /-- The loop is not done after the rounds it was given. -/
  | spins
  deriving DecidableEq

/-- A call in its loop, with `CHARBUFFER_DO_ANY` and `CHARBUFFER_DO_NONBLOCK` from the flags. -/
def Local.begin (side : Side) (buf : List UInt8) (len flags : ℕ) : Local :=
  ⟨side, buf, len, flags.testBit 0, flags.testBit 1, 0, len, 0, .loop⟩

namespace Buffer

/-- The loop of `charbuffer_write`. -/
def writeRounds : ℕ → Buffer → Local → Except Stop (Buffer × Except Errno ℤ)
  | 0, _, _ => .error .spins
  | rounds + 1, cb, l =>
    if l.more then
      let l' := (cb.writeCopy l).2
      let cb' := { (cb.writeCopy l).1 with
        pending := u64 (cb.pending + (l'.amount - l.amount))
        head := u64 (cb.head + (l'.amount - l.amount)) }
      if l'.more then
        if l'.nonblock then .ok (cb', .ok (s64 l'.amount))
        else if s32 (sub64 capacity cb'.pending) = 0 then .error .sleeps
        else if cb'.term then .ok (cb', .ok (s64 l'.amount))
        else writeRounds rounds cb' l'
      else writeRounds rounds cb' l'
    else .ok (cb, .ok (s64 l.amount))

/-- `charbuffer_write` -/
def write (cb : Buffer) (buf : List UInt8) (flags : ℕ) : Except Stop (Buffer × Except Errno ℤ) :=
  if cb.term then .ok (cb, .ok 0)
  else cb.writeRounds (buf.length + 2) (.begin .write buf buf.length flags)

/-- The loop of `charbuffer_read`. -/
def readRounds : ℕ → Buffer → Local → Except Stop (Buffer × Except Errno ℤ)
  | 0, _, _ => .error .spins
  | rounds + 1, cb, l =>
    if l.more then
      let l' := (cb.readCopy l).2
      let cb' := { (cb.readCopy l).1 with
        pending := sub64 cb.pending (l'.amount - l.amount)
        tail := u64 (cb.tail + (l'.amount - l.amount)) }
      if l'.more then
        if l'.nonblock then
          .ok (cb', if l'.amount > 0 then .ok (s64 l'.amount) else .error .eagain)
        else if cb.eof ∧ l'.amount = 0 then .ok ({ (cb.readCopy l).1 with eof := false }, .ok 0)
        else if s32 cb'.pending = 0 ∧ ¬ cb'.term then .error .sleeps
        else if cb'.term ∧ cb'.pending = 0 then .ok (cb', .ok (s64 l'.amount))
        else readRounds rounds cb' l'
      else readRounds rounds cb' l'
    else .ok (cb, .ok (s64 l.amount))

/-- `charbuffer_read` -/
def read (cb : Buffer) (len flags : ℕ) : Except Stop (Buffer × Except Errno ℤ) :=
  if cb.term ∧ cb.pending = 0 then .ok (cb, .ok 0)
  else cb.readRounds (len + 2) (.begin .read [] len flags)

section Any

variable {cb : Buffer}

theorem write_nil (cb : Buffer) (flags : ℕ) : cb.write [] flags = .ok (cb, .ok 0) := by
  simp [write, writeRounds, begin, more, s64]

theorem read_zero (cb : Buffer) (flags : ℕ) : cb.read 0 flags = .ok (cb, .ok 0) := by
  simp [read, readRounds, begin, more, s64]

theorem write_full (buf : List UInt8) (flags : ℕ) (hterm : cb.term = false)
    (hfull : cb.pending = capacity) (hbuf : buf ≠ []) (hany : flags.testBit 0 = true) :
    (∃ cb', cb.write buf flags = .ok (cb', .ok 0)) ∧ flags.testBit 1 = true ∨
      cb.write buf flags = .error .sleeps ∧ flags.testBit 1 = false := by
  have hlen : (0 : ℕ) ≠ buf.length := fun h => hbuf (List.length_eq_zero_iff.mp h.symm)
  have hchunk : ∀ n m, chunk (sub64 capacity capacity) n m = 0 := fun n m => by
    simp [chunk, sub64]
  have hrem : s32 (sub64 capacity (u64 capacity)) = 0 := by decide
  rw [write, hterm, if_neg Bool.false_ne_true, writeRounds]
  cases hnon : flags.testBit 1 with
  | true =>
    left
    simp [begin, more, writeCopy, hchunk, hlen, hany, hnon, hfull, s64]
  | false =>
    right
    simp [begin, more, writeCopy, hchunk, hlen, hany, hnon, hfull, hrem]

theorem write_room (buf : List UInt8) (flags : ℕ) (hterm : cb.term = false)
    (hroom : cb.pending < capacity) (hbuf : buf ≠ []) (hany : flags.testBit 0 = true) :
    ∃ cb' n, cb.write buf flags = .ok (cb', .ok (n : ℕ)) ∧ 0 < n ∧ n ≤ buf.length ∧
      cb'.pending = cb.pending + n ∧ cb'.term = false ∧ cb'.pending ≤ capacity := by
  have hlen : 0 < buf.length := List.length_pos_iff.mpr hbuf
  have hhead : cb.head % capacity < capacity := Nat.mod_lt _ (by decide)
  obtain ⟨n, hn⟩ : ∃ n, n = chunk (sub64 capacity cb.pending) buf.length
    (capacity - cb.head % capacity) := ⟨_, rfl⟩
  have hbounds : 0 < n ∧ n ≤ buf.length ∧ cb.pending + n ≤ capacity := by
    rw [sub64_of_le (by decide) hroom.le, chunk] at hn
    split at hn <;> split at hn <;> omega
  obtain ⟨hpos, hle, hfit⟩ := hbounds
  have hcap : capacity = 4096 := rfl
  have hs : s64 n = n := s64_of_lt (by omega)
  have hpending : u64 (cb.pending + n) = cb.pending + n := u64_of_lt (by omega)
  rw [write, hterm, if_neg Bool.false_ne_true, writeRounds]
  -- The first round moves bytes, so that there is no second one.
  simp only [begin, writeCopy, ← hn, more, hany, Nat.zero_add, Nat.sub_zero]
  rw [if_pos (by simp; omega), if_neg (by simp; omega), writeRounds,
    if_neg (by simp [more]; omega)]
  dsimp only
  rw [hs]
  exact ⟨_, n, rfl, hpos, hle, hpending, hterm, hpending.trans_le hfit⟩

theorem read_empty (len flags : ℕ) (hterm : cb.term = false) (hempty : cb.pending = 0)
    (hlen : len ≠ 0) (hany : flags.testBit 0 = true) :
    (∃ cb', cb.read len flags = .ok (cb', .error .eagain)) ∧ flags.testBit 1 = true ∨
      (∃ cb', cb.read len flags = .ok (cb', .ok 0)) ∧ flags.testBit 1 = false ∧ cb.eof = true ∨
      cb.read len flags = .error .sleeps ∧ flags.testBit 1 = false ∧ cb.eof = false := by
  have hchunk : ∀ n m, chunk 0 n m = 0 := fun n m => by simp [chunk]
  have hrem : s32 (sub64 0 0) = 0 := by decide
  rw [read, if_neg (by simp [hterm]), readRounds]
  cases hnon : flags.testBit 1 with
  | true =>
    left
    simp [begin, more, readCopy, hchunk, hlen.symm, hany, hnon, hempty]
  | false =>
    right
    cases heof : cb.eof with
    | true =>
      left
      simp [begin, more, readCopy, hchunk, hlen.symm, hany, hnon, hempty, heof]
    | false =>
      right
      simp [begin, more, readCopy, hchunk, hlen.symm, hany, hnon, hempty, heof, hrem, hterm]

theorem read_some (len flags : ℕ) (hsome : cb.pending ≠ 0) (hcap : cb.pending ≤ capacity)
    (hlen : len ≠ 0) (hany : flags.testBit 0 = true) :
    ∃ cb' n, cb.read len flags = .ok (cb', .ok (n : ℕ)) ∧ n ≤ len ∧ n ≤ capacity := by
  have htail : cb.tail % capacity < capacity := Nat.mod_lt _ (by decide)
  obtain ⟨n, hn⟩ : ∃ n, n = chunk cb.pending len (capacity - cb.tail % capacity) := ⟨_, rfl⟩
  have hbounds : 0 < n ∧ n ≤ len ∧ n ≤ capacity := by
    rw [chunk] at hn
    split at hn <;> split at hn <;> omega
  obtain ⟨hpos, hle, hfit⟩ := hbounds
  have hcap : capacity = 4096 := rfl
  have hs : s64 n = n := s64_of_lt (by omega)
  rw [read, if_neg (by simp [hsome]), readRounds]
  simp only [begin, readCopy, ← hn, more, hany, Nat.zero_add, Nat.sub_zero]
  rw [if_pos (by simp; omega), if_neg (by simp; omega), readRounds,
    if_neg (by simp [more]; omega)]
  dsimp only
  rw [hs]
  exact ⟨_, n, rfl, hle, hfit⟩

end Any

end Buffer

end SeaKernel.CharBuffer
