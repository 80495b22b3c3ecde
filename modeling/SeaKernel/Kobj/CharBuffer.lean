import SeaKernel.Errno
import SeaKernel.Lib.Contents
import SeaKernel.Lib.Ring
import SeaKernel.Lib.Run
import SeaKernel.Lib.Word

/-!
# Character buffers

A model of `kernel/charbuffer.c`: `charbuffer_write`, `charbuffer_read` and `charbuffer_terminate`
by any number of threads. Writers exclude each other by one lock and readers by another; a writer
and a reader meet only through the counters. A writer copies, then adds to `pending`, then to
`head`; a reader copies, then subtracts from `pending`, then adds to `tail`. The lock is released
after each round, and a call that is not done blocks until it is woken or interrupted.

The steps are the copies, the updates of the counters, and what a call does when it has or gets its
lock. The bytes that were ever appended and removed are recorded, in the order of the copies, and
for each call how many of them are its own.

## Main definitions

* `Buffer.writeCopy`, `Buffer.readCopy`: one round of the loops, up to the counters
* `State.exec`: the steps of the calls
-/

namespace SeaKernel.CharBuffer

/-- `cb->capacity`; `charbuffer_create` accepts no other. -/
def capacity : ℕ := 0x1000

/-- `struct charbuffer`, with the bytes that were ever appended and removed. -/
structure Buffer where
  buffer : ℕ → UInt8
  head : ℕ
  tail : ℕ
  pending : ℕ
  term : Bool
  eof : Bool
  appended : List UInt8
  removed : List UInt8

/-- The two kinds of calls. -/
inductive Side where
  | write
  | read
  deriving DecidableEq

/-- Where a thread is in a call. -/
inductive Pc where
  | idle
  /-- Before the lock; whether `term` is looked at once it is taken. -/
  | enter (check : Bool)
  /-- With the lock, at the condition of the loop. -/
  | loop
  /-- After a copy; `pending` is to be updated. -/
  | pend (amount : ℕ)
  /-- `pending` has been updated; `head` or `tail` is to be. -/
  | advance (amount : ℕ)
  /-- Without the lock, before `blockpoint_cleanup`. -/
  | blocked
  | returned (result : Except Errno ℤ)

/-- A call, with the number of bytes it has appended or removed. -/
structure Local where
  side : Side
  /-- The bytes to write, or the bytes read so far. -/
  buf : List UInt8
  len : ℕ
  /-- `CHARBUFFER_DO_ANY` -/
  any : Bool
  /-- `CHARBUFFER_DO_NONBLOCK` -/
  nonblock : Bool
  /-- `amount_written` or `amount_read` -/
  amount : ℕ
  remaining : ℕ
  moved : ℕ
  pc : Pc

/-- The condition of the loops. -/
def Local.more (l : Local) : Bool := l.amount ≠ l.len ∧ (¬l.any ∨ l.amount = 0)

/-- The `amount` of a round: what is available, at most the rest of the call, and at most up to the
end of the buffer. -/
def chunk (avail remaining this : ℕ) : ℕ :=
  let amount := if avail > remaining then remaining else avail
  if amount > this then this else amount

namespace Buffer

/-- A round of the loop of `charbuffer_write`, up to the counters. -/
def writeCopy (cb : Buffer) (l : Local) : Buffer × Local :=
  let head := cb.head % capacity
  let amount := chunk (sub64 capacity cb.pending) l.remaining (capacity - head)
  let bytes := (l.buf.drop l.amount).take amount
  ({ cb with
      buffer := memcpy cb.buffer head bytes
      appended := cb.appended ++ bytes },
    { l with
      amount := l.amount + amount
      remaining := l.remaining - amount
      moved := l.moved + bytes.length
      pc := .pend amount })

/-- A round of the loop of `charbuffer_read`, up to the counters. -/
def readCopy (cb : Buffer) (l : Local) : Buffer × Local :=
  let tail := cb.tail % capacity
  let amount := chunk cb.pending l.remaining (capacity - tail)
  let bytes := memread cb.buffer tail amount
  ({ cb with removed := cb.removed ++ bytes },
    { l with
      buf := l.buf ++ bytes
      amount := l.amount + amount
      remaining := l.remaining - amount
      moved := l.moved + bytes.length
      pc := .pend amount })

/-- `charbuffer_create` -/
def create (buffer : ℕ → UInt8) : Buffer where
  buffer := buffer
  head := 0
  tail := 0
  pending := 0
  term := false
  eof := false
  appended := []
  removed := []

end Buffer

/-- What a call does after its counters, without the lock. -/
def Local.next (l : Local) : Pc :=
  if l.more then
    if l.nonblock then
      match l.side with
      | .write => .returned (.ok (s64 l.amount))
      | .read => .returned (if l.amount > 0 then .ok (s64 l.amount) else .error .eagain)
    else .blocked
  else .enter false

/-- A buffer and the threads that use it. -/
structure State (T : Type*) where
  cb : Buffer
  /-- The thread that has the write lock. -/
  write : Option T
  /-- The thread that has the read lock. -/
  read : Option T
  loc : T → Local

/-- The steps. -/
inductive Event (T : Type*) where
  /-- A call of `charbuffer_write`. -/
  | write (t : T) (buf : List UInt8) (any nonblock : Bool)
  /-- A call of `charbuffer_read`. -/
  | read (t : T) (len : ℕ) (any nonblock : Bool)
  /-- The lock is taken. -/
  | lock (t : T)
  /-- The condition of the loop, and the copy. -/
  | copy (t : T)
  /-- `pending` is updated. -/
  | pend (t : T)
  /-- `head` or `tail` is updated, and the lock released. -/
  | advance (t : T)
  /-- `blockpoint_cleanup` -/
  | wake (t : T) (interrupted : Bool)
  | terminate
  /-- The flag `eof` is set, by the owner of the buffer. -/
  | setEof

variable {T : Type*} [DecidableEq T]

namespace State

/-- The local state of a thread is replaced. -/
def setLoc (σ : State T) (t : T) (l : Local) : State T :=
  { σ with loc := Function.update σ.loc t l }

/-- The thread moves on to the given place. -/
def goto (σ : State T) (t : T) (pc : Pc) : State T := σ.setLoc t { σ.loc t with pc := pc }

/-- The holder of the lock of one side. -/
def lock (σ : State T) : Side → Option T
  | .write => σ.write
  | .read => σ.read

/-- The lock of one side is taken or released. -/
def setLock (σ : State T) (side : Side) (holder : Option T) : State T :=
  match side with
  | .write => { σ with write := holder }
  | .read => { σ with read := holder }

/-- The call returns, without the lock. -/
def finish (σ : State T) (t : T) (result : Except Errno ℤ) : State T :=
  (σ.setLock (σ.loc t).side none).goto t (.returned result)

/-- Whether a call stops as soon as it has the lock. -/
def stopped (σ : State T) : Side → Bool
  | .write => σ.cb.term
  | .read => σ.cb.term && σ.cb.pending == 0

/-- Whether a reader, after a copy, stops at the end of the file. -/
def atEof (σ : State T) (l : Local) : Bool :=
  l.more && !l.nonblock && σ.cb.eof && l.amount == 0

/-- A step, for a thread that is where the step starts. -/
def exec (σ : State T) : Event T → State T
  | .write t buf any nonblock =>
    σ.setLoc t ⟨.write, buf, buf.length, any, nonblock, 0, buf.length, 0, .enter true⟩
  | .read t len any nonblock =>
    σ.setLoc t ⟨.read, [], len, any, nonblock, 0, len, 0, .enter true⟩
  | .lock t =>
    let l := σ.loc t
    match l.pc with
    | .enter check =>
      if check && σ.stopped l.side then σ.goto t (.returned (.ok (s64 l.amount)))
      else (σ.setLock l.side (some t)).goto t .loop
    | _ => σ
  | .copy t =>
    let l := σ.loc t
    if l.more then
      match l.side with
      | .write =>
        let (cb, l) := σ.cb.writeCopy l
        { σ with cb := cb }.setLoc t l
      | .read =>
        let (cb, l) := σ.cb.readCopy l
        let τ := { σ with cb := cb }.setLoc t l
        if σ.atEof l then { τ with cb := { cb with eof := false } }.finish t (.ok 0) else τ
    else σ.finish t (.ok (s64 l.amount))
  | .pend t =>
    let l := σ.loc t
    match l.pc, l.side with
    | .pend amount, .write =>
      { σ with cb := { σ.cb with pending := u64 (σ.cb.pending + amount) } }.goto t (.advance amount)
    | .pend amount, .read =>
      { σ with cb := { σ.cb with pending := sub64 σ.cb.pending amount } }.goto t (.advance amount)
    | _, _ => σ
  | .advance t =>
    let l := σ.loc t
    match l.pc, l.side with
    | .advance amount, .write =>
      ({ σ with cb := { σ.cb with head := u64 (σ.cb.head + amount) } }.setLock .write none).goto t
        l.next
    | .advance amount, .read =>
      ({ σ with cb := { σ.cb with tail := u64 (σ.cb.tail + amount) } }.setLock .read none).goto t
        l.next
    | _, _ => σ
  | .wake t interrupted =>
    let l := σ.loc t
    if interrupted then
      σ.goto t (.returned (if l.amount = 0 then .error .eintr else .ok (s64 l.amount)))
    else σ.goto t (.enter true)
  | .terminate => { σ with cb := { σ.cb with term := true } }
  | .setEof => { σ with cb := { σ.cb with eof := true } }

end State

/-- The thread is where the step starts, and the locks are free where the step takes them. -/
def Event.Ready (σ : State T) : Event T → Prop
  | .write t buf _ _ =>
    ((σ.loc t).pc matches .idle | .returned _) = true ∧ buf.length < 2 ^ 64
  | .read t len _ _ => ((σ.loc t).pc matches .idle | .returned _) = true ∧ len < 2 ^ 64
  | .lock t => ((σ.loc t).pc matches .enter _) = true ∧ σ.lock (σ.loc t).side = none
  | .copy t => ((σ.loc t).pc matches .loop) = true
  | .pend t => ((σ.loc t).pc matches .pend _) = true
  | .advance t => ((σ.loc t).pc matches .advance _) = true
  | .wake t _ => ((σ.loc t).pc matches .blocked) = true
  | .terminate => σ.read = none ∧ σ.write = none
  | .setEof => True

instance (σ : State T) (e : Event T) : Decidable (e.Ready σ) :=
  match e with
  | .write _ _ _ _ => inferInstanceAs (Decidable (_ ∧ _))
  | .read _ _ _ _ => inferInstanceAs (Decidable (_ ∧ _))
  | .lock _ => inferInstanceAs (Decidable (_ ∧ _))
  | .copy _ => inferInstanceAs (Decidable (_ = true))
  | .pend _ => inferInstanceAs (Decidable (_ = true))
  | .advance _ => inferInstanceAs (Decidable (_ = true))
  | .wake _ _ => inferInstanceAs (Decidable (_ = true))
  | .terminate => inferInstanceAs (Decidable (_ ∧ _))
  | .setEof => inferInstanceAs (Decidable True)

/-- A step of a thread that is ready for it. -/
def Step (σ : State T) (e : Event T) (τ : State T) : Prop := e.Ready σ ∧ σ.exec e = τ

/-- A new buffer, and threads that are in no call. -/
def State.initial (buffer : ℕ → UInt8) : State T where
  cb := .create buffer
  write := none
  read := none
  loc _ := ⟨.write, [], 0, false, false, 0, 0, 0, .idle⟩

end SeaKernel.CharBuffer
