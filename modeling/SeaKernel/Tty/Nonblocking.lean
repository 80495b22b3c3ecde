import SeaKernel.Tty.Pty

/-!
# Non-blocking terminals

Whether a read or write of a terminal in raw mode may sleep is a Boolean for the functions of
`kernel/pty.c` and a bit of a mask for those of `kernel/charbuffer.c`. Only `pty_read_master`
translates one to the other. The other functions use the Boolean as a mask: `true` is
`CHARBUFFER_DO_ANY`, which is set in any case, and `false` is nothing, so that
`CHARBUFFER_DO_NONBLOCK` is never passed on and the calls sleep where they would without
`O_NONBLOCK`.

## Main results

* `nonblocking_iff`: which calls do not sleep
-/

namespace SeaKernel.Tty

open CharBuffer Buffer Pty

/-- The number of bytes that a call asks for. -/
def Call.len : Call → ℕ
  | .read _ len => len
  | .write _ buf => buf.length

/-- `-EAGAIN`, or a count up to the given one. -/
def Count (len : ℕ) (r : Except Errno ℤ) : Prop :=
  r = .error .eagain ∨ ∃ n ≤ len, r = .ok (s64 n)

/-- With `O_NONBLOCK`, the call does not sleep. -/
def Nonblocking (p : Pty) (c : Call) : Prop :=
  ∃ p' r, p.call true c = .ok (p', r) ∧ Count c.len r

/-- Without `O_NONBLOCK`, a read that finds nothing sleeps. -/
def BlocksWhenEmpty (p : Pty) : Call → Prop
  | .read master len =>
    let cb := if master then p.output else p.input
    len ≠ 0 → cb.pending = 0 → cb.term = false → cb.eof = false →
      p.call false (.read master len) = .error .sleeps
  | .write _ _ => True

/-- A write of at least one byte does not have to wait for room. -/
def Accepts (cb : Buffer) : Prop := cb.term = true ∨ cb.pending < capacity

/-- The bytes that a slave writes for its own. -/
def width (onlcr : Bool) (buf : List UInt8) : ℕ :=
  (buf.map fun c => if c = 10 ∧ onlcr then 2 else 1).sum

/-- The buffers have what the call needs, or it is a read of a master. -/
def Call.Immediate (p : Pty) : Call → Prop
  | .read true _ => True
  | .read false len =>
    len = 0 ∨ p.input.pending ≠ 0 ∨ p.input.term = true ∨ p.input.eof = true
  | .write true buf => buf = [] ∨ (p.term.echo = true → Accepts p.output) ∧ Accepts p.input
  | .write false buf =>
    p.output.term = true ∨ p.output.pending + width p.term.onlcr buf ≤ capacity

section Buffers

variable {cb : Buffer} {len flags : ℕ}

theorem Count.zero (len : ℕ) : Count len (.ok 0) := .inr ⟨0, Nat.zero_le _, rfl⟩

theorem Count.ofNat {n : ℕ} (h : n ≤ len) (hn : n < 2 ^ 63) : Count len (.ok n) :=
  .inr ⟨n, h, by rw [s64_of_lt hn]⟩

theorem read_returns_iff (len flags : ℕ) (hcap : cb.pending ≤ capacity)
    (hany : flags.testBit 0 = true) :
    (∃ cb' r, cb.read len flags = .ok (cb', r) ∧ Count len r) ↔
      flags.testBit 1 = true ∨ len = 0 ∨ cb.pending ≠ 0 ∨ cb.term = true ∨ cb.eof = true := by
  by_cases hlen : len = 0
  · subst hlen
    exact iff_of_true ⟨cb, _, read_zero cb flags, .zero 0⟩ (.inr (.inl rfl))
  by_cases hempty : cb.pending = 0
  · cases hterm : cb.term with
    | true => exact iff_of_true ⟨cb, _, if_pos ⟨hterm, hempty⟩, .zero len⟩ (by simp)
    | false =>
      rcases read_empty len flags hterm hempty hlen hany with
        ⟨⟨cb', h⟩, hnon⟩ | ⟨⟨cb', h⟩, hnon, heof⟩ | ⟨h, hnon, heof⟩
      · exact iff_of_true ⟨cb', _, h, .inl rfl⟩ (.inl hnon)
      · exact iff_of_true ⟨cb', _, h, .zero len⟩ (by simp [heof])
      · refine iff_of_false ?_ (by simp [hnon, hlen, hempty, heof])
        rintro ⟨cb', r, h', -⟩
        rw [h] at h'
        cases h'
  · obtain ⟨cb', n, h, hn, hle⟩ := read_some len flags hempty hcap hlen hany
    refine iff_of_true ⟨cb', _, h, .ofNat hn (hle.trans_lt (by decide))⟩ (.inr (.inr (.inl hempty)))

theorem write_returns_iff (buf : List UInt8) (flags : ℕ) (hcap : cb.pending ≤ capacity)
    (hany : flags.testBit 0 = true) (hnon : flags.testBit 1 = false) :
    (∃ cb' r, cb.write buf flags = .ok (cb', r) ∧ Count buf.length r) ↔ buf = [] ∨ Accepts cb := by
  by_cases hbuf : buf = []
  · subst hbuf
    exact iff_of_true ⟨cb, _, write_nil cb flags, .zero _⟩ (.inl rfl)
  rw [or_iff_right hbuf, Accepts]
  cases hterm : cb.term with
  | true => exact iff_of_true ⟨cb, _, if_pos hterm, .zero _⟩ (.inl rfl)
  | false =>
    rcases hcap.lt_or_eq with hroom | hfull
    · obtain ⟨cb', n, h, -, hn, hpending, -, hle⟩ :=
        write_room buf flags hterm hroom hbuf hany
      have hcap : capacity = 4096 := rfl
      exact iff_of_true ⟨cb', _, h, .ofNat hn (by omega)⟩ (.inr hroom)
    · refine iff_of_false ?_ (by simp [hfull])
      rintro ⟨cb', r, h', -⟩
      rcases write_full buf flags hterm hfull hbuf hany with ⟨-, hnon'⟩ | ⟨h, -⟩
      · rw [hnon] at hnon'
        cases hnon'
      · rw [h] at h'
        cases h'

theorem write_singleton (c : UInt8) (hterm : cb.term = false) (hcap : cb.pending ≤ capacity) :
    if cb.pending < capacity then
      ∃ cb' r, cb.write [c] 1 = .ok (cb', r) ∧ cb'.pending = cb.pending + 1 ∧ cb'.term = false
    else cb.write [c] 1 = .error .sleeps := by
  split
  · next hroom =>
    obtain ⟨cb', n, h, hpos, hn, hpending, hterm', -⟩ :=
      write_room [c] 1 hterm hroom (by simp) rfl
    obtain rfl : n = 1 := le_antisymm hn hpos
    exact ⟨cb', _, h, hpending, hterm'⟩
  · next hfull =>
    rcases write_full [c] 1 hterm (by omega) (by simp) rfl with
      ⟨-, h⟩ | ⟨h, -⟩
    · cases h
    · exact h

theorem outputChar_eq (onlcr : Bool) (c : UInt8) (hterm : cb.term = false)
    (hcap : cb.pending ≤ capacity) :
    if cb.pending + width onlcr [c] ≤ capacity then
      ∃ cb', Pty.outputChar onlcr false cb c = .ok cb' ∧
        cb'.pending = cb.pending + width onlcr [c] ∧ cb'.term = false
    else Pty.outputChar onlcr false cb c = .error .sleeps := by
  have hflags : (false.toNat ||| 1) = 1 := rfl
  by_cases hnl : c = 10 ∧ onlcr = true
  · -- A carriage return goes before the newline.
    have hwidth : width onlcr [c] = 2 := by simp [width, hnl]
    rw [outputChar, if_pos hnl, hwidth, hflags]
    have hfirst := write_singleton 13 hterm hcap
    by_cases hroom : cb.pending < capacity
    · rw [if_pos hroom] at hfirst
      obtain ⟨cb₁, r, h, hpending, hterm₁⟩ := hfirst
      have hsecond := write_singleton c hterm₁ (by omega)
      rw [h]
      by_cases hroom₁ : cb₁.pending < capacity
      · rw [if_pos hroom₁] at hsecond
        obtain ⟨cb₂, r, h, hpending₂, hterm₂⟩ := hsecond
        rw [if_pos (by omega)]
        refine ⟨cb₂, ?_, by omega, hterm₂⟩
        exact congrArg (Except.map Prod.fst) h
      · rw [if_neg hroom₁] at hsecond
        rw [if_neg (by omega)]
        exact congrArg (Except.map Prod.fst) hsecond
    · rw [if_neg hroom] at hfirst
      rw [if_neg (by omega), hfirst]
      rfl
  · have hwidth : width onlcr [c] = 1 := by simp [width, hnl]
    have hwrite := write_singleton c hterm hcap
    rw [outputChar, if_neg hnl, hwidth, hflags]
    by_cases hroom : cb.pending < capacity
    · rw [if_pos hroom] at hwrite
      obtain ⟨cb', r, h, hpending, hterm'⟩ := hwrite
      rw [if_pos (by omega)]
      exact ⟨cb', congrArg (Except.map Prod.fst) h, hpending, hterm'⟩
    · rw [if_neg hroom] at hwrite
      rw [if_neg (by omega)]
      exact congrArg (Except.map Prod.fst) hwrite

theorem output_returns_iff (onlcr : Bool) (hcap : cb.pending ≤ capacity) (buf : List UInt8) :
    (∃ cb', buf.foldlM (Pty.outputChar onlcr false) cb = .ok cb') ↔
      cb.term = true ∨ cb.pending + width onlcr buf ≤ capacity := by
  cases hterm : cb.term with
  | true =>
    -- A terminated buffer takes everything and keeps nothing.
    refine iff_of_true ⟨cb, ?_⟩ (.inl rfl)
    have hwrite : ∀ (buf : List UInt8) (flags : ℕ), cb.write buf flags = .ok (cb, .ok 0) :=
      fun _ _ => if_pos hterm
    induction buf with
    | nil => rfl
    | cons c buf ih =>
      have hstep : outputChar onlcr false cb c = .ok cb := by
        rw [outputChar, hwrite]
        split <;> exact congrArg (Except.map Prod.fst) (hwrite _ _)
      rw [List.foldlM_cons, hstep]
      exact ih
  | false =>
    rw [or_iff_right Bool.false_ne_true]
    induction buf generalizing cb with
    | nil => exact iff_of_true ⟨cb, rfl⟩ hcap
    | cons c buf ih =>
      have hwidth : width onlcr (c :: buf) = width onlcr [c] + width onlcr buf := by simp [width]
      have hstep := outputChar_eq onlcr c hterm hcap
      rw [List.foldlM_cons, hwidth]
      by_cases hroom : cb.pending + width onlcr [c] ≤ capacity
      · rw [if_pos hroom] at hstep
        obtain ⟨cb', h, hpending, hterm'⟩ := hstep
        rw [h, ← Nat.add_assoc, ← hpending]
        exact ih (by omega) hterm'
      · rw [if_neg hroom] at hstep
        rw [hstep]
        refine iff_of_false ?_ (by omega)
        rintro ⟨cb', h⟩
        cases h

end Buffers

theorem returns_map {α β : Type} {m : Except Stop (α × Except Errno ℤ)} (f : α → β)
    {Q : Except Errno ℤ → Prop} :
    (∃ b r, m.map (fun x => (f x.1, x.2)) = .ok (b, r) ∧ Q r) ↔ ∃ a r, m = .ok (a, r) ∧ Q r := by
  cases m with
  | error e =>
    refine iff_of_false ?_ ?_ <;>
    · rintro ⟨_, _, h, -⟩
      cases h
  | ok x =>
    constructor
    · rintro ⟨_, r, h, hq⟩
      cases h
      exact ⟨x.1, _, rfl, hq⟩
    · rintro ⟨a, r, h, hq⟩
      cases h
      exact ⟨f a, r, rfl, hq⟩

section Calls

variable {p : Pty} {len : ℕ} {buf : List UInt8}

theorem blocksWhenEmpty (p : Pty) (c : Call) : BlocksWhenEmpty p c := by
  cases c with
  | write master buf => trivial
  | read master len =>
    intro hlen hempty hterm heof
    have hread : ∀ cb : Buffer, cb.pending = 0 → cb.term = false → cb.eof = false →
        cb.read len 1 = .error .sleeps := by
      intro cb hempty hterm heof
      rcases read_empty len 1 hterm hempty hlen rfl with ⟨-, h⟩ | ⟨-, -, h⟩ | ⟨h, -⟩
      · cases h
      · rw [heof] at h
        cases h
      · exact h
    cases master with
    | true => exact congrArg (Except.map _) (hread p.output hempty hterm heof)
    | false => exact congrArg (Except.map _) (hread p.input hempty hterm heof)

theorem writeMaster_iff (hraw : p.term.icanon = false) (hin : p.input.pending ≤ capacity)
    (hout : p.output.pending ≤ capacity) :
    Nonblocking p (.write true buf) ↔ (Call.write true buf).Immediate p := by
  have hinput := write_returns_iff buf 1 hin rfl rfl
  have houtput := write_returns_iff buf 1 hout rfl rfl
  rw [Nonblocking, call, writeMaster, hraw, if_neg Bool.false_ne_true, Call.Immediate]
  cases hecho : p.term.echo with
  | false =>
    refine (returns_map fun input => { p with input := input }).trans (hinput.trans ?_)
    simp
  | true =>
    rw [if_pos rfl]
    cases hwrite : p.output.write buf 1 with
    | error e =>
      -- The echo sleeps.
      have hnot : ¬ (buf = [] ∨ Accepts p.output) := fun h => by
        obtain ⟨cb', r, h', -⟩ := houtput.mpr h
        rw [hwrite] at h'
        cases h'
      refine iff_of_false ?_ fun h => hnot (h.imp_right fun h => h.1 rfl)
      rintro ⟨p', r, h, -⟩
      change (p.output.write buf 1).map Prod.fst >>= _ = _ at h
      rw [hwrite] at h
      cases h
    | ok x =>
      have hyes : buf = [] ∨ Accepts p.output := by
        by_contra hnot
        rcases not_or.mp hnot with ⟨hbuf, hfull⟩
        have hterm : p.output.term = false := by simpa using fun h => hfull (.inl h)
        rcases write_full buf 1 hterm
          (le_antisymm hout (not_lt.mp fun h => hfull (.inr h))) hbuf rfl with ⟨-, h⟩ | ⟨h, -⟩
        · cases h
        · rw [hwrite] at h
          cases h
      change (∃ p' r, (p.output.write buf 1).map Prod.fst >>= _ = _ ∧ _) ↔ _
      rw [hwrite]
      refine (returns_map fun input => { p with input := input, output := x.1 }).trans
        (hinput.trans ?_)
      rw [imp_iff_right rfl, or_and_left, and_iff_right hyes]

theorem writeSlave_iff (hout : p.output.pending ≤ capacity) :
    Nonblocking p (.write false buf) ↔ (Call.write false buf).Immediate p := by
  rw [Nonblocking, Call.Immediate, ← output_returns_iff p.term.onlcr hout buf, call,
    writeSlave]
  change (∃ p' r, (buf.foldlM (outputChar p.term.onlcr false) p.output).map _ = _ ∧ _) ↔ _
  cases buf.foldlM (outputChar p.term.onlcr false) p.output with
  | error e =>
    refine iff_of_false ?_ ?_
    · rintro ⟨p', r, h, -⟩
      cases h
    · rintro ⟨cb', h⟩
      cases h
  | ok output => exact iff_of_true ⟨_, _, rfl, .inr ⟨_, le_rfl, rfl⟩⟩ ⟨output, rfl⟩

end Calls

/-- **In raw mode, a call with `O_NONBLOCK` returns exactly if it is a read of a master, or the
buffers have what it needs.** Without it, a read that finds nothing sleeps. -/
theorem nonblocking_iff (p : Pty) (hraw : p.term.icanon = false)
    (hin : p.input.pending ≤ capacity) (hout : p.output.pending ≤ capacity) (c : Call) :
    Nonblocking p c ∧ BlocksWhenEmpty p c ↔ c.Immediate p := by
  rw [and_iff_left (blocksWhenEmpty p c)]
  cases c with
  | read master len =>
    cases master with
    | true =>
      refine (returns_map fun output => { p with output := output }).trans
        ((read_returns_iff len 3 hout rfl).trans ?_)
      exact iff_of_true (.inl rfl) trivial
    | false =>
      refine (returns_map fun input => { p with input := input }).trans
        ((read_returns_iff len 1 hin rfl).trans ?_)
      exact or_iff_right Bool.false_ne_true
  | write master buf =>
    cases master with
    | true => exact writeMaster_iff hraw hin hout
    | false => exact writeSlave_iff hout

/-- A terminal in raw mode without anything in its buffers. -/
def rawPty : Pty where
  input := .create fun _ => 0
  output := .create fun _ => 0
  cbuf := []
  term := ⟨false, false, true, 3, 127, 26, 4⟩
  raised := []

theorem nonblocking_short_write :
    Nonblocking rawPty (.write false [97, 10]) ∧ BlocksWhenEmpty rawPty (.write false [97, 10]) :=
  (nonblocking_iff rawPty rfl (by decide) (by decide) _).mpr (.inr (by decide))

theorem nonblocking_read_sleeps :
    rawPty.call true (.read false 1) = .error .sleeps ∧ ¬ Nonblocking rawPty (.read false 1) := by
  have hcall : rawPty.call true (.read false 1) = .error .sleeps :=
    blocksWhenEmpty rawPty (.read false 1) (by decide) rfl rfl rfl
  refine ⟨hcall, ?_⟩
  rintro ⟨p', r, h, -⟩
  rw [hcall] at h
  cases h

end SeaKernel.Tty
