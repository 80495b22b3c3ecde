import SeaKernel.Kobj.CharBuffer

/-!
# Runs of a character buffer

A character buffer is a queue, although its readers and writers hold different locks: a writer adds
to `pending` only after its copy, so a reader never gets ahead of the bytes; a reader subtracts only
after its copy, so a writer never overwrites a byte that is still to be read. The counters and the
recorded bytes differ by what is in flight on either side, between a copy and its counters.

## Main results

* `charbuffer_run`: in every state of every run, the buffer is a queue
-/

namespace SeaKernel.CharBuffer

open Function List Option Nat State Pc

/-! ## The buffer -/

theorem memcpy_eq_ringWrite {w start : ℕ} {bytes : List UInt8} (buffer : ℕ → UInt8)
    (hfit : start + bytes.length ≤ w) :
    memcpy buffer start bytes = ringWrite w buffer start bytes := by
  induction bytes generalizing buffer start with
  | nil => exact memcpy_nil
  | cons x xs ih =>
    have hfirst : memcpy buffer start [x] = update buffer start x := by
      funext i
      rcases lt_trichotomy i start with hlt | rfl | hgt
      · rw [memcpy_of_lt hlt, update_of_ne hlt.ne]
      · rw [update_self]
        exact memcpy_of_mem (j := 0) (by simp)
      · rw [memcpy_of_ge (by simpa using hgt), update_of_ne hgt.ne']
    rw [length_cons] at hfit
    rw [← singleton_append, memcpy_append, hfirst, ih _ (by simp; omega), singleton_append,
      ringWrite, mod_eq_of_lt (by omega), length_singleton]

theorem memread_eq_ringRead {w start amount : ℕ} (buffer : ℕ → UInt8) (hfit : start + amount ≤ w) :
    memread buffer start amount = ringRead w buffer start amount := by
  refine map_congr_left fun j hj => ?_
  rw [mod_eq_of_lt (by have := mem_range.mp hj; omega)]

/-- The counters and the contents of the buffer, with so many bytes copied and not yet in `pending`,
and so many not yet in `head` or `tail`, on each side. -/
structure Ring (cb : Buffer) (copied uncounted : Side → ℕ) : Prop where
  pending : cb.pending + copied .write + cb.removed.length = cb.appended.length + copied .read
  room : cb.appended.length + copied .read ≤ cb.removed.length + capacity
  avail : cb.removed.length + copied .write ≤ cb.appended.length
  head : u64 (cb.head + uncounted .write) = u64 cb.appended.length
  tail : u64 (cb.tail + uncounted .read) = u64 cb.removed.length
  tail_lt : cb.tail < 2 ^ 64
  removed : cb.removed = cb.appended.take cb.removed.length
  holds : RingHolds capacity cb.buffer cb.removed.length (cb.appended.drop cb.removed.length)

section Ring

variable {cb : Buffer} {copied uncounted : Side → ℕ} {l : Local}

theorem mod_capacity {a b : ℕ} (h : u64 a = u64 b) : a % capacity = b % capacity :=
  Nat.ModEq.of_dvd (by decide : capacity ∣ 2 ^ 64) h

theorem Ring.pending_le (h : Ring cb copied uncounted) : cb.pending + copied .write ≤ capacity := by
  have := h.pending
  have := h.room
  omega

theorem chunk_eq (avail remaining this : ℕ) :
    chunk avail remaining this = min (min avail remaining) this := by
  simp only [chunk]
  split <;> split <;> omega

/-- A call after a copy of `n` bytes. -/
def Local.progress (l : Local) (buf : List UInt8) (n : ℕ) : Local :=
  { l with
    buf := buf
    amount := l.amount + n
    remaining := l.remaining - n
    moved := l.moved + n
    pc := .pend n }

variable (h : Ring cb copied uncounted)

include h

theorem Ring.writeCopy (hcopied : copied .write = 0) (huncounted : uncounted .write = 0)
    (hlen : l.buf.length = l.amount + l.remaining) :
    ∃ n ≤ l.remaining, (cb.writeCopy l).2 = l.progress l.buf n ∧
      Ring (cb.writeCopy l).1 (update copied .write n) (update uncounted .write n) := by
  have hpending := h.pending
  have hle := h.pending_le
  have hroom := h.room
  have havail := h.avail
  have hlt : cb.head % capacity < capacity := mod_lt _ (by decide)
  obtain ⟨n, hn⟩ : ∃ n, n = chunk (sub64 capacity cb.pending) l.remaining
    (capacity - cb.head % capacity) := ⟨_, rfl⟩
  have hn' := hn
  rw [chunk_eq, sub64_of_le (by decide) (by omega)] at hn'
  -- the bytes go behind those that are in the buffer
  have hhead : cb.head % capacity = cb.appended.length % capacity :=
    mod_capacity (by have := h.head; rwa [huncounted] at this)
  obtain ⟨bytes, hbytes⟩ : ∃ bytes, bytes = (l.buf.drop l.amount).take n := ⟨_, rfl⟩
  have hlength : bytes.length = n := by
    rw [hbytes, length_take, length_drop]
    omega
  have hin : (cb.appended.drop cb.removed.length).length = cb.appended.length - cb.removed.length :=
    length_drop
  have hholds : RingHolds capacity (memcpy cb.buffer (cb.head % capacity) bytes) cb.removed.length
      (cb.appended.drop cb.removed.length ++ bytes) := by
    rw [memcpy_eq_ringWrite (w := capacity) _ (by omega),
      ringWrite_congr (q := cb.removed.length + (cb.appended.drop cb.removed.length).length)]
    · exact h.holds.append (by omega)
    · rw [hin, Nat.add_sub_cancel' (by omega), Nat.mod_mod, hhead]
  refine ⟨n, by omega, ?_, ?_⟩
  · simp only [Buffer.writeCopy, Local.progress, ← hn, ← hbytes, hlength]
  · simp only [Buffer.writeCopy, ← hn, ← hbytes]
    refine ⟨?_, ?_, ?_, ?_, ?_, h.tail_lt, ?_, ?_⟩
    · simp only [update_self, ne_eq, reduceCtorEq, not_false_eq_true, update_of_ne,
        length_append, hlength]
      omega
    · simp only [ne_eq, reduceCtorEq, not_false_eq_true, update_of_ne, length_append, hlength]
      omega
    · simp only [update_self, length_append, hlength]
      omega
    · have hhead := h.head
      simp only [update_self, length_append, hlength]
      rw [huncounted] at hhead
      simp only [u64] at hhead ⊢
      omega
    · simpa using h.tail
    · dsimp only
      rw [take_append_of_le_length (by omega)]
      exact h.removed
    · dsimp only
      rw [drop_append_of_le_length (by omega)]
      exact hholds

theorem Ring.readCopy (hcopied : copied .read = 0) (huncounted : uncounted .read = 0) :
    ∃ n ≤ l.remaining,
      (cb.readCopy l).2 = l.progress (l.buf ++ (cb.appended.drop cb.removed.length).take n) n ∧
      Ring (cb.readCopy l).1 (update copied .read n) (update uncounted .read n) := by
  have hpending := h.pending
  have hroom := h.room
  have havail := h.avail
  have hlt : cb.tail % capacity < capacity := mod_lt _ (by decide)
  obtain ⟨n, hn⟩ : ∃ n, n = chunk cb.pending l.remaining (capacity - cb.tail % capacity) := ⟨_, rfl⟩
  have hn' := hn
  rw [chunk_eq] at hn'
  have htail : cb.tail % capacity = cb.removed.length % capacity :=
    mod_capacity (by have := h.tail; rwa [huncounted] at this)
  have hin : (cb.appended.drop cb.removed.length).length = cb.appended.length - cb.removed.length :=
    length_drop
  have hbytes : memread cb.buffer (cb.tail % capacity) n =
      (cb.appended.drop cb.removed.length).take n := by
    rw [memread_eq_ringRead (w := capacity) _ (by omega), ringRead_congr (q := cb.removed.length)]
    · exact h.holds.read (by omega)
    · rw [mod_mod, htail]
  have hlength : ((cb.appended.drop cb.removed.length).take n).length = n := by
    rw [length_take]
    omega
  refine ⟨n, by omega, ?_, ?_⟩
  · simp only [Buffer.readCopy, Local.progress, ← hn, hbytes, hlength]
  · simp only [Buffer.readCopy, ← hn, hbytes]
    refine ⟨?_, ?_, ?_, ?_, ?_, h.tail_lt, ?_, ?_⟩
    · simp only [update_self, ne_eq, reduceCtorEq, not_false_eq_true, update_of_ne,
        length_append, hlength]
      omega
    · simp only [update_self, length_append, hlength]
      omega
    · simp only [ne_eq, reduceCtorEq, not_false_eq_true, update_of_ne, length_append, hlength]
      omega
    · simpa using h.head
    · have htail := h.tail
      simp only [update_self, length_append, hlength]
      rw [huncounted] at htail
      simp only [u64] at htail ⊢
      omega
    · rw [length_append, hlength, take_add, ← h.removed]
    · rw [length_append, hlength, ← drop_drop]
      exact h.holds.drop (by omega)

theorem Ring.writePend :
    Ring { cb with pending := u64 (cb.pending + copied .write) } (update copied .write 0)
      uncounted := by
  have hpending := h.pending
  have hle := h.pending_le
  have hsum : u64 (cb.pending + copied .write) = cb.pending + copied .write :=
    u64_of_lt (hle.trans_lt (by decide))
  refine ⟨?_, ?_, ?_, h.head, h.tail, h.tail_lt, h.removed, h.holds⟩
  · simp only [hsum, update_self, ne_eq, reduceCtorEq, not_false_eq_true, update_of_ne]
    omega
  · simpa using h.room
  · have := h.avail
    simp only [update_self]
    omega

theorem Ring.writeAdvance : Ring { cb with head := u64 (cb.head + uncounted .write) } copied
      (update uncounted .write 0) := by
  refine ⟨h.pending, h.room, h.avail, ?_, by simpa using h.tail, h.tail_lt, h.removed, h.holds⟩
  have hhead := h.head
  simp only [u64, update_self] at hhead ⊢
  omega

theorem Ring.readPend :
    Ring { cb with pending := sub64 cb.pending (copied .read) } (update copied .read 0)
      uncounted := by
  have hpending := h.pending
  have hle := h.pending_le
  have havail := h.avail
  have hroom := h.room
  have hsub : sub64 cb.pending (copied .read) = cb.pending - copied .read :=
    sub64_of_le ((le_of_add_right_le hle).trans_lt (by decide)) (by omega)
  refine ⟨?_, ?_, ?_, h.head, h.tail, h.tail_lt, h.removed, h.holds⟩
  · simp only [hsub, update_self, ne_eq, reduceCtorEq, not_false_eq_true, update_of_ne]
    omega
  · simp only [update_self]
    omega
  · simpa using h.avail

theorem Ring.readAdvance : Ring { cb with tail := u64 (cb.tail + uncounted .read) } copied
      (update uncounted .read 0) := by
  refine ⟨h.pending, h.room, h.avail, by simpa using h.head, ?_,
    mod_lt _ (by decide), h.removed, h.holds⟩
  have htail := h.tail
  simp only [u64, update_self] at htail ⊢
  omega

end Ring

/-! ## The calls -/

/-- Whether a thread has the lock of its side. -/
def Pc.Locked : Pc → Prop
  | .loop | .pend _ | .advance _ => True
  | _ => False

/-- The bytes that are copied and not yet in `pending`. -/
def Pc.copied : Pc → ℕ
  | .pend n => n
  | _ => 0

/-- The bytes that are copied and not yet in `head` or `tail`. -/
def Pc.uncounted : Pc → ℕ
  | .pend n | .advance n => n
  | _ => 0

/-- What a call has done so far adds up, and a number it returns is right. -/
structure Local.Sound (l : Local) : Prop where
  moved : l.moved = l.amount
  sum : l.amount + l.remaining = l.len
  len_lt : l.len < 2 ^ 64
  buf : l.side = .write → l.buf.length = l.len
  result : ∀ v, l.pc = .returned (.ok v) → 0 ≤ v → v = l.moved

variable {T : Type*} {σ τ : State T} {t u : T} {cb : Buffer} {l : Local} {side : Side} {f : Pc → ℕ}

/-- What is in flight on one side. -/
def State.flight (σ : State T) (f : Pc → ℕ) (side : Side) : ℕ :=
  match σ.lock side with
  | none => 0
  | some t => f (σ.loc t).pc

/-- The invariant of the runs. -/
structure Sound (σ : State T) : Prop where
  locked : ∀ side t, σ.lock side = some t ↔ (σ.loc t).side = side ∧ (σ.loc t).pc.Locked
  ring : Ring σ.cb (σ.flight Pc.copied) (σ.flight Pc.uncounted)
  calls : ∀ t, (σ.loc t).Sound

theorem Local.Sound.of_pc (h : l.Sound) {pc : Pc}
    (hpc : ∀ v, pc = .returned (.ok v) → 0 ≤ v → v = l.moved) : { l with pc := pc }.Sound :=
  ⟨h.moved, h.sum, h.len_lt, h.buf, hpc⟩

theorem Local.Sound.progress (h : l.Sound) {buf : List UInt8} {n : ℕ} (hn : n ≤ l.remaining)
    (hbuf : l.side = .write → buf.length = l.len) : (l.progress buf n).Sound := by
  refine ⟨congrArg (· + n) h.moved, ?_, h.len_lt, hbuf, fun v hv => by cases hv⟩
  have := h.sum
  simp only [Local.progress]
  omega

theorem Local.Sound.returned (h : l.Sound) :
    { l with pc := .returned (.ok (s64 l.amount)) }.Sound := by
  refine h.of_pc fun v hv hnonneg => ?_
  obtain rfl : s64 l.amount = v := by simpa using hv
  rw [s64_of_nonneg (by have := h.sum; have := h.len_lt; omega) hnonneg, h.moved]

theorem flight_self (hf : ∀ pc : Pc, ¬pc.Locked → f pc = 0) (hlock : σ.lock side = some t ∨
    (σ.lock side = none ∧ ¬(σ.loc t).pc.Locked)) : σ.flight f side = f (σ.loc t).pc := by
  rcases hlock with hlock | ⟨hlock, hunlocked⟩
  · rw [flight, hlock]
  · rw [flight, hlock, hf _ hunlocked]

theorem copied_of_not_locked (pc : Pc) (h : ¬pc.Locked) : pc.copied = 0 := by
  cases pc <;> simp_all [Pc.Locked, copied]

theorem uncounted_of_not_locked (pc : Pc) (h : ¬pc.Locked) : pc.uncounted = 0 := by
  cases pc <;> simp_all [Pc.Locked, uncounted]

variable [DecidableEq T]

theorem Sound.outside (h : Sound σ) (hpc : ¬(σ.loc t).pc.Locked) (hpc' : ¬l.pc.Locked)
    (hl : l.Sound) : Sound (σ.setLoc t l) := by
  have hother : ∀ u, u ≠ t → (σ.setLoc t l).loc u = σ.loc u :=
    fun u hu => update_of_ne hu _ _
  have hself : (σ.setLoc t l).loc t = l := update_self ..
  have hlock : ∀ side, (σ.setLoc t l).lock side = σ.lock side := fun side => by cases side <;> rfl
  have hflight : ∀ f : Pc → ℕ, (σ.setLoc t l).flight f = σ.flight f := by
    intro f
    funext side
    rw [flight, flight, hlock]
    cases hholder : σ.lock side with
    | none => rfl
    | some u =>
      have hu : u ≠ t := by
        rintro rfl
        exact hpc ((h.locked side u).mp hholder).2
      simp only [hother u hu]
  refine ⟨fun side u => ?_, by rw [hflight, hflight]; exact h.ring, fun u => ?_⟩
  · rw [hlock]
    rcases eq_or_ne u t with rfl | hu
    · rw [hself]
      exact iff_of_false (fun hholder => hpc ((h.locked side u).mp hholder).2) fun hu => hpc' hu.2
    · rw [hother u hu]
      exact h.locked side u
  · rcases eq_or_ne u t with rfl | hu
    · rwa [hself]
    · rw [hother u hu]
      exact h.calls u

theorem Sound.inside (h : Sound σ) (hside : (σ.loc t).side = side)
    (hfree : σ.lock side = some t ∨ σ.lock side = none) {holder : Option T}
    (hholder : l.pc.Locked ∧ holder = some t ∨ ¬l.pc.Locked ∧ holder = none)
    (hlside : l.side = side) (hl : l.Sound)
    (hring : Ring cb (update (σ.flight Pc.copied) side l.pc.copied)
      (update (σ.flight Pc.uncounted) side l.pc.uncounted)) :
    Sound (({ σ with cb := cb }.setLock side holder).setLoc t l) := by
  obtain ⟨τ, hτ⟩ : ∃ τ, τ = ({ σ with cb := cb }.setLock side holder).setLoc t l := ⟨_, rfl⟩
  have hcb : τ.cb = cb := by rw [hτ]; cases side <;> rfl
  have hself : τ.loc t = l := by rw [hτ]; cases side <;> exact update_self ..
  have hother : ∀ u, u ≠ t → τ.loc u = σ.loc u := fun u hu => by
    rw [hτ]; cases side <;> exact update_of_ne hu _ _
  have hlock : τ.lock side = holder := by rw [hτ]; cases side <;> rfl
  have hlock' : ∀ side', side' ≠ side → τ.lock side' = σ.lock side' := fun side' hne => by
    rw [hτ]; cases side <;> cases side' <;> first | rfl | exact absurd rfl hne
  -- the holder of the other lock is another thread
  have hholder' : ∀ side' u, side' ≠ side → σ.lock side' = some u → u ≠ t := by
    rintro side' u hne hu rfl
    exact hne (((h.locked side' u).mp hu).1.symm.trans hside)
  have hflight : ∀ f : Pc → ℕ, (∀ pc : Pc, ¬pc.Locked → f pc = 0) →
      τ.flight f = update (σ.flight f) side (f l.pc) := by
    intro f hf
    funext side'
    rcases eq_or_ne side' side with rfl | hne
    · rw [update_self, flight, hlock]
      rcases hholder with ⟨-, rfl⟩ | ⟨hunlocked, rfl⟩
      · simp only [hself]
      · exact (hf _ hunlocked).symm
    · rw [update_of_ne hne, flight, flight, hlock' side' hne]
      cases hu : σ.lock side' with
      | none => rfl
      | some u => simp only [hother u (hholder' side' u hne hu)]
  rw [← hτ]
  refine ⟨fun side' u => ?_, ?_, fun u => ?_⟩
  · rcases eq_or_ne side' side with rfl | hne
    · rw [hlock]
      rcases eq_or_ne u t with rfl | hu
      · rw [hself]
        rcases hholder with ⟨hlocked, rfl⟩ | ⟨hunlocked, rfl⟩
        · exact iff_of_true rfl ⟨hlside, hlocked⟩
        · exact iff_of_false (by simp) fun hl => hunlocked hl.2
      · rw [hother u hu]
        refine iff_of_false ?_ fun hlocked => ?_
        · rcases hholder with ⟨-, rfl⟩ | ⟨-, rfl⟩
          · exact fun heq => hu (some.inj heq).symm
          · simp
        · have hu' := (h.locked side' u).mpr hlocked
          rcases hfree with hfree | hfree
          · exact hu (some.inj (hu'.symm.trans hfree))
          · exact absurd (hu'.symm.trans hfree) (by simp)
    · rw [hlock' side' hne]
      rcases eq_or_ne u t with rfl | hu
      · rw [hself]
        exact iff_of_false (fun hu => hholder' side' u hne hu rfl) fun hl =>
          hne (hl.1.symm.trans hlside)
      · rw [hother u hu]
        exact h.locked side' u
  · rw [hcb, hflight _ copied_of_not_locked, hflight _ uncounted_of_not_locked]
    exact hring
  · rcases eq_or_ne u t with rfl | hu
    · rwa [hself]
    · rw [hother u hu]
      exact h.calls u

omit [DecidableEq T] in
theorem setLock_self (h : σ.lock side = some t) (cb : Buffer) :
    ({ σ with cb := cb } : State T).setLock side (some t) = { σ with cb := cb } := by
  rw [← h]
  cases side <;> rfl

section

variable (h : Sound σ)

include h

theorem Sound.stay
    (hfree : σ.lock (σ.loc t).side = some t ∨ (σ.lock (σ.loc t).side = none ∧ ¬(σ.loc t).pc.Locked))
    {pc : Pc} {holder : Option T}
    (hholder : pc.Locked ∧ holder = some t ∨ ¬pc.Locked ∧ holder = none)
    (hcopied : pc.copied = (σ.loc t).pc.copied) (huncounted : pc.uncounted = (σ.loc t).pc.uncounted)
    (hl : { σ.loc t with pc := pc }.Sound) :
    Sound ((σ.setLock (σ.loc t).side holder).goto t pc) := by
  have hloc : (σ.setLock (σ.loc t).side holder).loc t = σ.loc t := by cases (σ.loc t).side <;> rfl
  rw [goto, hloc]
  refine h.inside rfl (hfree.imp_right And.left) hholder rfl hl ?_
  dsimp only
  rw [hcopied, huncounted, ← flight_self copied_of_not_locked hfree,
    ← flight_self uncounted_of_not_locked hfree, update_eq_self, update_eq_self]
  exact h.ring

theorem Sound.lock {check : Bool} (hpc : (σ.loc t).pc = .enter check)
    (hfree : σ.lock (σ.loc t).side = none) : Sound (σ.exec (.lock t)) := by
  have hunlocked : ¬(σ.loc t).pc.Locked := by rw [hpc]; exact id
  simp only [exec, hpc]
  split
  · exact h.outside hunlocked id (h.calls t).returned
  · refine h.stay (.inr ⟨hfree, hunlocked⟩) (.inl ⟨trivial, rfl⟩) (by rw [hpc]; rfl)
      (by rw [hpc]; rfl) ((h.calls t).of_pc fun v hv => ?_)
    cases hv

theorem Sound.copy (hpc : (σ.loc t).pc = .loop) : Sound (σ.exec (.copy t)) := by
  have hcall := h.calls t
  have hlock : σ.lock (σ.loc t).side = some t := (h.locked _ t).mpr ⟨rfl, by rw [hpc]; trivial⟩
  have hcopied : σ.flight copied (σ.loc t).side = 0 := by
    rw [flight_self copied_of_not_locked (.inl hlock), hpc]
    rfl
  have huncounted : σ.flight uncounted (σ.loc t).side = 0 := by
    rw [flight_self uncounted_of_not_locked (.inl hlock), hpc]
    rfl
  simp only [exec]
  by_cases hmore : (σ.loc t).more = true
  · rw [if_pos hmore]
    cases hside : (σ.loc t).side with
    | write =>
      rw [hside] at hlock hcopied huncounted
      obtain ⟨n, hn, hl, hring⟩ := h.ring.writeCopy hcopied huncounted
        ((hcall.buf hside).trans hcall.sum.symm)
      dsimp only
      rw [hl, ← setLock_self hlock]
      exact h.inside hside (.inl hlock) (.inl ⟨trivial, rfl⟩) hside
        (hcall.progress hn hcall.buf) hring
    | read =>
      rw [hside] at hlock hcopied huncounted
      obtain ⟨n, hn, hl, hring⟩ := h.ring.readCopy (l := σ.loc t) hcopied huncounted
      obtain ⟨buf, hbuf⟩ : ∃ buf, buf = (σ.loc t).buf ++
        (σ.cb.appended.drop σ.cb.removed.length).take n := ⟨_, rfl⟩
      have hcall' : ((σ.loc t).progress buf n).Sound :=
        hcall.progress hn fun hwrite => absurd (hside.symm.trans hwrite) (by simp)
      dsimp only
      rw [hl, ← hbuf]
      split
      · -- nothing was copied
        rename_i heof
        have hzero : (σ.loc t).amount + n = 0 := by
          simp only [atEof, Bool.and_eq_true, beq_iff_eq] at heof
          exact heof.2
        obtain ⟨hamount, rfl⟩ := Nat.add_eq_zero_iff.mp hzero
        have hring' : Ring { (σ.cb.readCopy (σ.loc t)).1 with eof := false }
            (update (σ.flight copied) .read 0)
            (update (σ.flight uncounted) .read 0) :=
          ⟨hring.1, hring.2, hring.3, hring.4, hring.5, hring.6, hring.7, hring.8⟩
        have hsound :=
          h.inside (l := { (σ.loc t).progress buf 0 with pc := .returned (.ok 0) }) hside
          (.inl hlock) (.inr ⟨id, rfl⟩) hside (hcall'.of_pc fun v hv _ => ?_) hring'
        · simpa [finish, goto, setLoc, setLock, Local.progress, hside] using hsound
        · obtain rfl : 0 = v := by simpa using hv
          rw [hcall'.moved]
          exact_mod_cast hzero.symm
      · rw [← setLock_self hlock]
        exact h.inside hside (.inl hlock) (.inl ⟨trivial, rfl⟩) hside hcall' hring
  · rw [if_neg hmore]
    exact h.stay (.inl hlock) (.inr ⟨id, rfl⟩) (by rw [hpc]; rfl) (by rw [hpc]; rfl) hcall.returned

theorem Sound.pend {n : ℕ} (hpc : (σ.loc t).pc = .pend n) : Sound (σ.exec (.pend t)) := by
  have hcall : { σ.loc t with pc := .advance n }.Sound := (h.calls t).of_pc fun v hv => by cases hv
  have hlock : σ.lock (σ.loc t).side = some t := (h.locked _ t).mpr ⟨rfl, by rw [hpc]; trivial⟩
  have hcopied : σ.flight copied (σ.loc t).side = n := by
    rw [flight_self copied_of_not_locked (.inl hlock), hpc]
    rfl
  have huncounted : update (σ.flight uncounted) (σ.loc t).side n = σ.flight uncounted := by
    have hself := flight_self uncounted_of_not_locked (.inl hlock)
    rw [hpc] at hself
    exact update_eq_self_iff.mpr hself.symm
  cases hside : (σ.loc t).side with
  | write =>
    rw [hside] at hlock hcopied huncounted
    simp only [exec, hpc, hside]
    rw [← setLock_self hlock]
    refine h.inside hside (.inl hlock) (.inl ⟨trivial, rfl⟩) hside hcall ?_
    have hring := h.ring.writePend
    rw [hcopied] at hring
    exact (congrArg (Ring _ _) huncounted).mpr hring
  | read =>
    rw [hside] at hlock hcopied huncounted
    simp only [exec, hpc, hside]
    rw [← setLock_self hlock]
    refine h.inside hside (.inl hlock) (.inl ⟨trivial, rfl⟩) hside hcall ?_
    have hring := h.ring.readPend
    rw [hcopied] at hring
    exact (congrArg (Ring _ _) huncounted).mpr hring

omit h in
theorem Local.Sound.next (h : l.Sound) : ¬l.next.Locked ∧ { l with pc := l.next }.Sound := by
  unfold Local.next
  split
  · split
    · split
      · exact ⟨id, h.returned⟩
      · split
        · exact ⟨id, h.returned⟩
        · exact ⟨id, h.of_pc fun v hv => by simp at hv⟩
    · exact ⟨id, h.of_pc fun v hv => by cases hv⟩
  · exact ⟨id, h.of_pc fun v hv => by cases hv⟩

theorem Sound.advance {n : ℕ} (hpc : (σ.loc t).pc = .advance n) : Sound (σ.exec (.advance t)) := by
  obtain ⟨hunlocked, hcall⟩ := (h.calls t).next
  have hlock : σ.lock (σ.loc t).side = some t := (h.locked _ t).mpr ⟨rfl, by rw [hpc]; trivial⟩
  have huncounted : σ.flight uncounted (σ.loc t).side = n := by
    rw [flight_self uncounted_of_not_locked (.inl hlock), hpc]
    rfl
  have hcopied : update (σ.flight copied) (σ.loc t).side 0 = σ.flight copied := by
    have hself := flight_self copied_of_not_locked (.inl hlock)
    rw [hpc] at hself
    exact update_eq_self_iff.mpr hself.symm
  cases hside : (σ.loc t).side with
  | write =>
    rw [hside] at hlock hcopied huncounted
    simp only [exec, hpc, hside]
    refine h.inside hside (.inl hlock) (.inr ⟨hunlocked, rfl⟩) hside hcall ?_
    have hring := h.ring.writeAdvance
    rw [huncounted] at hring
    dsimp only
    rw [copied_of_not_locked _ hunlocked, uncounted_of_not_locked _ hunlocked]
    exact (congrArg (Ring _ · _) hcopied).mpr hring
  | read =>
    rw [hside] at hlock hcopied huncounted
    simp only [exec, hpc, hside]
    refine h.inside hside (.inl hlock) (.inr ⟨hunlocked, rfl⟩) hside hcall ?_
    have hring := h.ring.readAdvance
    rw [huncounted] at hring
    dsimp only
    rw [copied_of_not_locked _ hunlocked, uncounted_of_not_locked _ hunlocked]
    exact (congrArg (Ring _ · _) hcopied).mpr hring

theorem Sound.wake (hpc : (σ.loc t).pc = .blocked) (interrupted : Bool) :
    Sound (σ.exec (.wake t interrupted)) := by
  have hunlocked : ¬(σ.loc t).pc.Locked := by rw [hpc]; exact id
  simp only [exec]
  split
  · refine h.outside hunlocked id ?_
    split
    · exact (h.calls t).of_pc fun v hv => by simp at hv
    · exact (h.calls t).returned
  · exact h.outside hunlocked id ((h.calls t).of_pc fun v hv => by cases hv)

/-- **Every step keeps the buffer and the calls sound.** -/
theorem Sound.exec {e : Event T} (he : e.Ready σ) : Sound (σ.exec e) := by
  cases e with
  | write t buf any nonblock =>
    have hpc : ¬(σ.loc t).pc.Locked := by
      have := he.1
      cases hpc : (σ.loc t).pc <;> simp_all [Pc.Locked]
    exact h.outside hpc id ⟨rfl, zero_add _, he.2, fun _ => rfl, fun v hv => by cases hv⟩
  | read t len any nonblock =>
    have hpc : ¬(σ.loc t).pc.Locked := by
      have := he.1
      cases hpc : (σ.loc t).pc <;> simp_all [Pc.Locked]
    exact h.outside hpc id
      ⟨rfl, zero_add _, he.2, (fun hwrite => by cases hwrite), (fun v hv => by cases hv)⟩
  | lock t =>
    obtain ⟨hpc, hfree⟩ := he
    split at hpc
    · exact h.lock ‹_› hfree
    · cases hpc
  | copy t =>
    rw [Event.Ready] at he
    split at he
    · exact h.copy ‹_›
    · cases he
  | pend t =>
    rw [Event.Ready] at he
    split at he
    · exact h.pend ‹_›
    · cases he
  | advance t =>
    rw [Event.Ready] at he
    split at he
    · exact h.advance ‹_›
    · cases he
  | wake t interrupted =>
    rw [Event.Ready] at he
    split at he
    · exact h.wake ‹_› interrupted
    · cases he
  | terminate | setEof =>
    exact ⟨h.locked, ⟨h.ring.1, h.ring.2, h.ring.3, h.ring.4, h.ring.5, h.ring.6, h.ring.7,
      h.ring.8⟩, h.calls⟩

end

omit [DecidableEq T] in
theorem sound_initial (buffer : ℕ → UInt8) : Sound (State.initial buffer : State T) := by
  have hflight : ∀ f side, (initial buffer : State T).flight f side = 0 := by
    intro f side
    cases side <;> rfl
  refine
    ⟨fun side t => ?_, ⟨?_, ?_, ?_, ?_, ?_, Nat.two_pow_pos 64, rfl, ringHolds_nil⟩, fun t => ?_⟩
  · refine iff_of_false ?_ fun h => h.2
    cases side <;> simp [lock, initial]
  · rw [hflight, hflight]
    rfl
  · rw [hflight]
    exact zero_le _
  · rw [hflight]
    exact le_rfl
  · rw [hflight]
    rfl
  · rw [hflight]
    rfl
  · exact ⟨rfl, rfl, Nat.two_pow_pos 64, fun _ => rfl, fun v hv => by cases hv⟩

/-- A thread is between a copy and its last counter. -/
def Pc.Copying : Pc → Prop
  | .pend _ | .advance _ => True
  | _ => False

/-- **A character buffer is a queue**: in every state of every run, `pending` is at most the
capacity and, when no copy is in progress, the difference of the counters; the bytes removed are a
prefix of the bytes appended; and a call that has returned a non-negative number has appended or
removed so many bytes. -/
theorem charbuffer_run (buffer : ℕ → UInt8) {run : List (Event T × State T)}
    (hrun : Along Step (.initial buffer) run) :
    After (fun σ : State T => σ.cb.pending ≤ capacity ∧
      ((∀ t, ¬(σ.loc t).pc.Copying) → σ.cb.pending = sub64 σ.cb.head σ.cb.tail) ∧
      σ.cb.removed <+: σ.cb.appended ∧
      ∀ t v, (σ.loc t).pc = .returned (.ok v) → 0 ≤ v → v = (σ.loc t).moved)
      (.initial buffer) run := by
  have hstep : ∀ σ e τ, Sound σ → Step σ e τ → Sound (τ : State T) := by
    rintro σ e τ h ⟨he, rfl⟩
    exact h.exec he
  refine (hrun.after_of_step hstep (sound_initial buffer)).mono fun σ h => ?_
  refine ⟨le_of_add_right_le h.ring.pending_le, fun hidle => ?_, ?_, fun t => (h.calls t).result⟩
  · have hzero : ∀ f : Pc → ℕ, (∀ pc : Pc, ¬pc.Copying → f pc = 0) → ∀ side,
        σ.flight f side = 0 := by
      intro f hf side
      rw [flight]
      split
      · rfl
      · exact hf _ (hidle _)
    have hcopied := hzero copied fun pc hpc => by cases pc <;> simp_all [Pc.Copying, copied]
    have huncounted := hzero uncounted fun pc hpc => by
      cases pc <;> simp_all [Pc.Copying, uncounted]
    have hpending := h.ring.pending
    have hle := h.ring.pending_le
    have hhead := h.ring.head
    have htail := h.ring.tail
    have htail_lt := h.ring.tail_lt
    rw [hcopied, hcopied] at hpending
    rw [huncounted] at hhead htail
    simp only [u64, sub64, capacity] at *
    omega
  · rw [h.ring.removed]
    exact take_prefix _ _

theorem charbuffer_run_two_threads : ∃ run : List (Event (Fin 2) × State (Fin 2)),
    Along Step (.initial fun _ => 0) run ∧
    ((final (.initial fun _ => 0) run).loc 1).buf = [1, 2] ∧
    After (fun σ : State (Fin 2) => σ.cb.pending ≤ capacity ∧
      ((∀ t, ¬(σ.loc t).pc.Copying) → σ.cb.pending = sub64 σ.cb.head σ.cb.tail) ∧
      σ.cb.removed <+: σ.cb.appended ∧
      ∀ t v, (σ.loc t).pc = .returned (.ok v) → 0 ≤ v → v = (σ.loc t).moved)
      (.initial fun _ => 0) run := by
  obtain ⟨run, -, hrun, hbuf⟩ := exists_run (fun σ e => some (σ.exec e)) (fun σ e => e.Ready σ)
    (fun σ => (σ.loc 1).buf = [1, 2]) (initial fun _ => 0 : State (Fin 2))
    [.write 0 [1, 2, 3] false false, .read 1 2 true false, .lock 0, .copy 0, .pend 0, .lock 1,
      .copy 1, .pend 1, .advance 0, .advance 1, .lock 1, .copy 1] (by decide +kernel)
  have hsteps := hrun.mono fun σ e τ h => (⟨h.1, some.inj h.2⟩ : Step σ e τ)
  exact ⟨run, hsteps, hbuf, charbuffer_run _ hsteps⟩

end SeaKernel.CharBuffer
