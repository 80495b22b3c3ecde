import SeaKernel.Errno
import SeaKernel.Lib.Ring
import SeaKernel.Lib.Run
import SeaKernel.Lib.Word

/-!
# TCP connections

The data path of `net/tcp.c` on one socket: received segments (`tcp_recv` with `copy_in_data`),
the locked sections of `_tcp_recv` and `_tcp_send`, and the transmission section of
`_tcp_worker`. Both buffers are rings of `WINDOWSZ` bytes addressed by sequence numbers.

A run interleaves these sections in any order; the world keeps, beside the socket, what crossed
its boundary: the bytes accepted by `_tcp_send`, the segments handed to the network and the
bytes returned by `_tcp_recv`.

## Main definitions

* `Socket`: the connection state and the buffers
* `copyInData`, `tcpRecv`, `tcpRecvSection`, `tcpSendSection`, `tcpWorkerSend`: the sections
* `World`, `Event`, `World.step`: runs of the socket

## Main results

* `copyIn_eq`, `recvLoop_eq`, `sendLoop_eq`: the byte loops are ring operations
* `tcpWorkerSend_payload`: a transmission carries the ring's bytes at `send_next`
-/

namespace SeaKernel.Tcp

open Function List Option Nat

/-- `WINDOWSZ`, the size of both buffers. -/
def windowSz : ℕ := 0x4000

/-- `enum tcp_con_state`. -/
inductive TcpConState where
  | closed
  | listening
  | synsent
  | synrecv
  | established
  | finwait1
  | finwait2
  | closing
  | lastack
  | timewait
  | finished
  | reset
  deriving DecidableEq, Repr

/-- The connection state of a socket (`struct tcp_connection`) and its buffers
(`struct socket_tcp_data`). -/
structure Socket where
  state : TcpConState
  sendNext : ℕ
  sendUnack : ℕ
  recvNext : ℕ
  recvWin : ℕ
  sendWin : ℕ
  txbuffer : ℕ → UInt8
  rxbuffer : ℕ → UInt8
  txbufavail : ℕ
  pending : ℕ

/-- The fields of a received header, in host order. -/
structure TcpHeader where
  seqnum : ℕ
  acknum : ℕ
  fin : Bool
  syn : Bool
  rst : Bool
  ack : Bool
  winsize : ℕ
  deriving DecidableEq, Repr

/-- A message handed to the network by `__tcp_sendmsg`. -/
structure Segment where
  flags : ℕ
  seqnum : ℕ
  acknum : ℕ
  winsize : ℕ
  payload : List UInt8
  deriving DecidableEq, Repr

def flFin : ℕ := 1

def flRst : ℕ := 1 <<< 2

def flAck : ℕ := 1 <<< 4

/-- `__tcp_sendmsg`; the acknowledgement number is always filled in, since the test is on the
constant `FL_ACK`. -/
def tcpSendmsg (t : Socket) (flags : ℕ) (buf : List UInt8) : Segment where
  flags := flags
  seqnum := t.sendNext
  acknum := t.recvNext
  winsize := t.recvWin % 2 ^ 16
  payload := buf

/-- `close_connection`, as far as the socket's own state goes. -/
def closeConnection (t : Socket) : Socket := { t with state := .closed }

/-! ## Receiving -/

/-- The acceptance test of `copy_in_data`. Sums of `recv_next` and `recv_win` wrap at `2 ^ 32`;
`seq + len - 1` is a `size_t`. -/
def inWindow (t : Socket) (seq len : ℕ) : Bool :=
  (seq ≥ t.recvNext && seq < u32 (t.recvNext + t.recvWin)) ||
    (sub64 (seq + len) 1 ≥ t.recvNext && sub64 (seq + len) 1 < u32 (t.recvNext + t.recvWin))

/-- The copy loop of `copy_in_data`. -/
def copyIn : List UInt8 → Socket → Socket
  | [], t => t
  | b :: data, t => copyIn data
      { t with
        rxbuffer := update t.rxbuffer (t.recvNext % windowSz) b
        recvNext := u32 (t.recvNext + 1) }

/-- `copy_in_data`: the part of a segment before `recv_next` and the part behind the window are
cut off, the rest is stored at `recv_next`. -/
def copyInData (t : Socket) (seq : ℕ) (data : List UInt8) : Socket :=
  let len := data.length
  if inWindow t seq len then
    let skip := if seq < t.recvNext then sub32 t.recvNext seq else 0
    let len := sub64 len skip
    let data := data.drop skip
    let seq := if seq < t.recvNext then t.recvNext else seq
    let stop := u32 (t.recvNext + t.recvWin)
    let len := if u64 (seq + len) ≥ stop then sub32 stop seq else len
    let t := copyIn (data.take len) t
    { t with recvWin := sub32 t.recvWin (u32 len) }
  else t

/-- The acknowledgement part of `tcp_recv` on an established connection. -/
def tcpAck (t : Socket) (header : TcpHeader) : Socket :=
  let unack := header.acknum
  let avail :=
    if t.sendNext ≥ unack then t.sendNext - unack else (0x100000000 - t.sendNext) + unack
  { t with
    sendUnack := unack
    txbufavail := sub64 (sub64 windowSz avail) t.pending
    sendWin := header.winsize }

/-- `tcp_recv` on the socket of the connection, with the messages it sends. `bound` says whether
the destination address still has a bound socket. -/
def tcpRecv (t : Socket) (header : TcpHeader) (data : List UInt8) (bound : Bool) :
    Socket × List Segment :=
  if header.rst then (closeConnection { t with state := .reset }, [])
  else
    match t.state with
    | .finwait1 =>
      if header.fin then (closeConnection { t with state := .finished }, []) else (t, [])
    | .established =>
      let (t, out) :=
        if header.ack && !header.syn then
          let t := tcpAck t header
          if data.length > 0 then
            let t := copyInData t header.seqnum data
            (t, [tcpSendmsg t flAck []])
          else (t, [])
        else (t, [])
      if header.fin then
        (closeConnection { t with state := .finished },
          out ++ [tcpSendmsg { t with state := .lastack } (flFin ||| flRst) []])
      else (t, out)
    | .synrecv =>
      let t :=
        if header.ack && !header.syn && bound then
          { t with
            state := .established
            recvNext := header.seqnum
            sendNext := header.acknum
            sendUnack := header.acknum
            sendWin := header.winsize }
        else t
      if header.fin then
        (closeConnection { t with state := .finished },
          [tcpSendmsg { t with state := .lastack } (flAck ||| flRst) []])
      else (t, [])
    | .lastack =>
      if header.ack then (closeConnection { t with state := .finished }, []) else (t, [])
    | _ => (t, [])

/-- What a section of `_tcp_recv` or `_tcp_send` ends with: a result for the caller, or a wait
after which the section runs again. -/
inductive Outcome (α : Type) where
  | done (result : α)
  | error (e : Errno)
  | wait
  deriving DecidableEq, Repr

/-- The copy loop of `_tcp_recv`: up to `len` of the `pending` bytes from `start` on. -/
def recvLoop (rxbuffer : ℕ → UInt8) : ℕ → ℕ → ℕ → List UInt8
  | len + 1, pending + 1, start =>
    rxbuffer (start % windowSz) :: recvLoop rxbuffer len pending (u64 (start + 1))
  | _, _, _ => []

/-- One locked section of `_tcp_recv`. -/
def tcpRecvSection (t : Socket) (len : ℕ) (nonblock : Bool) : Socket × Outcome (List UInt8) :=
  match t.state with
  | .closed | .listening => (t, .error .enotconn)
  | .finished | .lastack | .closing | .timewait => (t, .done [])
  | .synsent | .synrecv => (t, .error .einprogress)
  | .reset | .finwait1 | .finwait2 => (t, .error .econnreset)
  | .established =>
    let pending := sub64 windowSz t.recvWin
    let start := sub64 t.recvNext pending
    let bytes := recvLoop t.rxbuffer len pending start
    let t := { t with recvWin := u32 (t.recvWin + bytes.length) }
    if bytes = [] then (t, if nonblock then .error .eagain else .wait) else (t, .done bytes)

/-! ## Sending -/

/-- The copy loop of `_tcp_send`: `i` counts the bytes stored so far. -/
def sendLoop (start : ℕ) : ℕ → List UInt8 → Socket → Socket
  | _, [], t => t
  | i, b :: buf, t => sendLoop start (i + 1) buf
      { t with
        txbuffer := update t.txbuffer (u64 (i + start) % windowSz) b
        pending := u64 (t.pending + 1)
        txbufavail := sub64 t.txbufavail 1 }

/-- One locked section of `_tcp_send` on the bytes still to be sent; the result is the bytes
that were accepted. -/
def tcpSendSection (t : Socket) (buf : List UInt8) : Socket × Outcome (List UInt8) :=
  match t.state with
  | .closed => (t, .error .enotconn)
  | .finished | .lastack | .closing | .timewait => (t, .error .epipe)
  | .synsent | .synrecv => (t, .error .einprogress)
  | .reset | .listening | .finwait1 | .finwait2 => (t, .error .econnreset)
  | .established =>
    let min := if buf.length > t.txbufavail then t.txbufavail else buf.length
    let start := u64 (t.sendNext + t.pending)
    (sendLoop start 0 (buf.take min) t, .done (buf.take min))

/-- The length of the next transmission of `_tcp_worker`: the pending bytes, up to the end of
the ring and up to the peer's window. -/
def workerLen (t : Socket) : ℕ :=
  let len := t.pending
  let len :=
    if len > windowSz - t.sendNext % windowSz then windowSz - t.sendNext % windowSz else len
  if len > t.sendWin then t.sendWin else len

/-- The transmission section of `_tcp_worker`. Its guard (`pending > 0` and `send_win > 0`) is
read before the locks are taken and may have turned false. -/
def tcpWorkerSend (t : Socket) : Socket × Segment :=
  let len := workerLen t
  let buf := (List.range len).map fun i => t.txbuffer (t.sendNext % windowSz + i)
  ({ t with sendNext := u32 (t.sendNext + len), pending := sub64 t.pending len },
    tcpSendmsg t flAck buf)

/-! ## The byte loops are ring operations -/

theorem windowSz_dvd : windowSz ∣ 2 ^ 32 := by decide

theorem u32_mod_windowSz (n : ℕ) : u32 n % windowSz = n % windowSz :=
  mod_mod_of_dvd n windowSz_dvd

theorem u64_mod_windowSz (n : ℕ) : u64 n % windowSz = n % windowSz :=
  mod_mod_of_dvd n (by decide)

theorem copyIn_eq (data : List UInt8) (t : Socket) (h : t.recvNext < 2 ^ 32) : copyIn data t =
      { t with
        rxbuffer := ringWrite windowSz t.rxbuffer t.recvNext data
        recvNext := u32 (t.recvNext + data.length) } := by
  induction data generalizing t with
  | nil => simp [copyIn, ringWrite, u32_of_lt h]
  | cons b data ih =>
    simp only [copyIn, ringWrite, length_cons]
    rw [ih _ (u32_lt _)]
    dsimp only
    rw [ringWrite_congr (u32_mod_windowSz (t.recvNext + 1)), u32_add_u32,
      show t.recvNext + 1 + data.length = t.recvNext + (data.length + 1) by omega]

theorem recvLoop_eq (rxbuffer : ℕ → UInt8) (len pending start : ℕ) :
    recvLoop rxbuffer len pending start = ringRead windowSz rxbuffer start (min len pending) := by
  induction len generalizing pending start with
  | zero => simp [recvLoop]
  | succ len ih =>
    cases pending with
    | zero => simp [recvLoop]
    | succ pending =>
      rw [recvLoop, ih, Nat.add_min_add_right, ringRead_succ,
        ringRead_congr (u64_mod_windowSz (start + 1))]

theorem sendLoop_eq (start i : ℕ) (buf : List UInt8) (t : Socket)
    (havail : buf.length ≤ t.txbufavail) (hlt : t.txbufavail < 2 ^ 64)
    (hpending : t.pending + buf.length < 2 ^ 64) :
    sendLoop start i buf t =
      { t with
        txbuffer := ringWrite windowSz t.txbuffer (i + start) buf
        pending := t.pending + buf.length
        txbufavail := t.txbufavail - buf.length } := by
  induction buf generalizing i t with
  | nil => simp [sendLoop, ringWrite]
  | cons b buf ih =>
    rw [length_cons] at havail hpending
    have hu : u64 (t.pending + 1) = t.pending + 1 := u64_of_lt (by omega)
    have hs : sub64 t.txbufavail 1 = t.txbufavail - 1 := sub64_of_le hlt (by omega)
    simp only [sendLoop, ringWrite, length_cons, hu, hs]
    rw [ih _ _ (by dsimp only; omega) (by dsimp only; omega) (by dsimp only; omega)]
    dsimp only
    rw [u64_mod_windowSz, show i + 1 + start = i + start + 1 by omega,
      show t.pending + 1 + buf.length = t.pending + (buf.length + 1) by omega,
      show t.txbufavail - 1 - buf.length = t.txbufavail - (buf.length + 1) by omega]

/-- A section of `_tcp_send` on an established connection: as many bytes as fit go behind the
pending ones. -/
theorem tcpSendSection_of_established {t : Socket} (hstate : t.state = .established)
    (hlt : t.pending + t.txbufavail < 2 ^ 64) (buf : List UInt8) :
    tcpSendSection t buf = ({ t with
          txbuffer := ringWrite windowSz t.txbuffer (u64 (t.sendNext + t.pending))
            (buf.take t.txbufavail)
          pending := t.pending + (buf.take t.txbufavail).length
          txbufavail := t.txbufavail - (buf.take t.txbufavail).length },
        .done (buf.take t.txbufavail)) := by
  have hmin : buf.take (if buf.length > t.txbufavail then t.txbufavail else buf.length) =
      buf.take t.txbufavail := by
    split
    · rfl
    · next hle => rw [take_length, take_of_length_le (not_lt.mp hle)]
  have hlen : (buf.take t.txbufavail).length ≤ t.txbufavail := length_take_le _ _
  simp only [tcpSendSection, hstate, hmin]
  rw [sendLoop_eq _ _ _ _ hlen (by omega) (by omega), zero_add, hstate]

section

variable (t : Socket)

theorem workerLen_eq :
    workerLen t = min (min t.pending (windowSz - t.sendNext % windowSz)) t.sendWin := by
  unfold workerLen
  dsimp only
  split <;> split <;> omega

theorem workerLen_le_pending : workerLen t ≤ t.pending := by
  rw [workerLen_eq]
  omega

/-- A transmission does not run over the end of the ring: it carries the ring's bytes from
`send_next` on. -/
theorem tcpWorkerSend_payload :
    (tcpWorkerSend t).2.payload = ringRead windowSz t.txbuffer t.sendNext (workerLen t) := by
  have hlen : workerLen t ≤ windowSz - t.sendNext % windowSz := by
    rw [workerLen_eq]
    omega
  simp only [tcpWorkerSend, tcpSendmsg, ringRead]
  refine map_congr_left fun i hi => ?_
  have hi' : i < workerLen t := mem_range.mp hi
  have hlt : t.sendNext % windowSz + i < windowSz := by omega
  rw [add_mod, mod_eq_of_lt (show i < windowSz by omega), mod_eq_of_lt hlt]

/-! ## What the sections leave alone -/

theorem copyIn_frame (data : List UInt8) (t : Socket) :
    ∃ rx rn, copyIn data t = { t with rxbuffer := rx, recvNext := rn } := by
  induction data generalizing t with
  | nil => exact ⟨t.rxbuffer, t.recvNext, rfl⟩
  | cons b data ih =>
    obtain ⟨rx, rn, h⟩ := ih
      { t with
        rxbuffer := update t.rxbuffer (t.recvNext % windowSz) b
        recvNext := u32 (t.recvNext + 1) }
    exact ⟨rx, rn, by rw [copyIn, h]⟩

theorem copyInData_of_not_inWindow {t : Socket} {seq : ℕ} {data : List UInt8}
    (h : ¬ inWindow t seq data.length) : copyInData t seq data = t := by
  simp [copyInData, h]

theorem copyInData_frame (seq : ℕ) (data : List UInt8) : ∃ rx rn win,
      copyInData t seq data = { t with rxbuffer := rx, recvNext := rn, recvWin := win } := by
  unfold copyInData
  dsimp only
  split
  · obtain ⟨rx, rn, h⟩ := copyIn_frame _ t
    rw [h]
    exact ⟨rx, rn, _, rfl⟩
  · exact ⟨t.rxbuffer, t.recvNext, t.recvWin, rfl⟩

theorem sendLoop_frame (start i : ℕ) (buf : List UInt8) (t : Socket) :
    ∃ tx pending avail, sendLoop start i buf t =
      { t with txbuffer := tx, pending := pending, txbufavail := avail } := by
  induction buf generalizing i t with
  | nil => exact ⟨_, _, _, rfl⟩
  | cons b buf ih =>
    obtain ⟨tx, pending, avail, h⟩ := ih (i + 1)
      { t with
        txbuffer := update t.txbuffer (u64 (i + start) % windowSz) b
        pending := u64 (t.pending + 1)
        txbufavail := sub64 t.txbufavail 1 }
    exact ⟨tx, pending, avail, by rw [sendLoop, h]⟩

theorem tcpSendSection_frame (buf : List UInt8) : ∃ tx pending avail, (tcpSendSection t buf).1 =
      { t with txbuffer := tx, pending := pending, txbufavail := avail } := by
  unfold tcpSendSection
  split
  all_goals first | exact ⟨_, _, _, rfl⟩ | exact sendLoop_frame _ _ _ _

theorem tcpRecvSection_frame (len : ℕ) (nonblock : Bool) :
    ∃ win, (tcpRecvSection t len nonblock).1 = { t with recvWin := win } := by
  unfold tcpRecvSection
  split
  all_goals first | exact ⟨t.recvWin, rfl⟩ | (dsimp only; split <;> exact ⟨_, rfl⟩)

end

/-- The connection is established, or it was and has been closed. -/
def Live (t : Socket) : Prop := t.state = .established ∨ t.state = .closed

/-- The segment's acknowledgement is processed. -/
def processed (t : Socket) (header : TcpHeader) : Bool :=
  t.state = .established && !header.rst && header.ack && !header.syn

/-- The socket after the acknowledgement and the data of a segment. -/
def absorb (t : Socket) (header : TcpHeader) (data : List UInt8) : Socket :=
  if processed t header then
    if data.length > 0 then copyInData (tcpAck t header) header.seqnum data else tcpAck t header
  else t

/-- **What a segment does to a live connection**: it is absorbed, and it may close the
connection. -/
theorem tcpRecv_of_live {t : Socket} (h : Live t) (header : TcpHeader) (data : List UInt8)
    (bound : Bool) :
    ∃ st, (tcpRecv t header data bound).1 = { absorb t header data with state := st } ∧
      (st = .established ∨ st = .closed) := by
  rcases h with h | h
  · have hstate : (absorb t header data).state = .established := by
      unfold absorb
      split
      · split
        · obtain ⟨rx, rn, win, hc⟩ := copyInData_frame (tcpAck t header) header.seqnum data
          rw [hc]
          exact h
        · exact h
      · exact h
    cases hrst : header.rst with
    | true => exact ⟨.closed, by simp [tcpRecv, absorb, processed, hrst, closeConnection], .inr rfl⟩
    | false =>
      have hfst : ∀ b : Bool, header.fin = b → (tcpRecv t header data bound).1 =
          if b then closeConnection { absorb t header data with state := .finished }
          else absorb t header data := by
        intro b hb
        simp only [tcpRecv, absorb, processed, h, hrst, hb]
        cases header.ack <;> cases header.syn <;> cases b <;>
          by_cases hd : data.length > 0 <;> simp [hd]
      cases hfin : header.fin with
      | true => exact ⟨.closed, by rw [hfst true hfin]; rfl, .inr rfl⟩
      | false =>
        refine ⟨.established, ?_, .inl rfl⟩
        rw [hfst false hfin, ← hstate]
        rfl
  · refine ⟨.closed, ?_, .inr rfl⟩
    have habs : absorb t header data = t := by simp [absorb, processed, h]
    rw [habs]
    cases hrst : header.rst with
    | true => simp [tcpRecv, hrst, closeConnection]
    | false =>
      have : tcpRecv t header data bound = (t, []) := by simp [tcpRecv, hrst, h]
      rw [this, ← h]

/-! ## Runs -/

/-- A section of the socket's code. -/
inductive Event where
  | segment (header : TcpHeader) (data : List UInt8) (bound : Bool)
  | recv (len : ℕ) (nonblock : Bool)
  | send (buf : List UInt8)
  | transmit

/-- The socket and what crossed its boundary. -/
structure World where
  tcp : Socket
  /-- The bytes returned by `_tcp_recv`. -/
  delivered : List UInt8
  /-- The bytes accepted by `_tcp_send`. -/
  accepted : List UInt8
  /-- The segments the worker handed to the network. -/
  handed : List Segment

/-- The bytes of a section's result. -/
def Outcome.bytes : Outcome (List UInt8) → List UInt8
  | .done bytes => bytes
  | _ => []

/-- One section runs. -/
def World.step (w : World) : Event → World
  | .segment header data bound => { w with tcp := (tcpRecv w.tcp header data bound).1 }
  | .recv len nonblock =>
    { w with
      tcp := (tcpRecvSection w.tcp len nonblock).1
      delivered := w.delivered ++ (tcpRecvSection w.tcp len nonblock).2.bytes }
  | .send buf =>
    { w with
      tcp := (tcpSendSection w.tcp buf).1
      accepted := w.accepted ++ (tcpSendSection w.tcp buf).2.bytes }
  | .transmit =>
    { w with
      tcp := (tcpWorkerSend w.tcp).1
      handed := w.handed ++ [(tcpWorkerSend w.tcp).2] }

/-- The step relation of `World.step`. -/
def Step (w : World) (e : Event) (w' : World) : Prop := w' = w.step e

/-- A connection that has just been established: both streams start at their sequence numbers
and both buffers are empty. -/
structure Established (w : World) : Prop where
  state : w.tcp.state = .established
  recvNext : w.tcp.recvNext < 2 ^ 32
  sendNext : w.tcp.sendNext < 2 ^ 32
  sendUnack : w.tcp.sendUnack = w.tcp.sendNext
  recvWin : w.tcp.recvWin = windowSz
  txbufavail : w.tcp.txbufavail = windowSz
  pending : w.tcp.pending = 0
  delivered : w.delivered = []
  accepted : w.accepted = []
  handed : w.handed = []

/-- A new connection with empty buffers whose streams start at the given sequence numbers. -/
def newConnection (recvNext sendNext : ℕ) : World where
  tcp :=
    { state := .established, sendNext := sendNext, sendUnack := sendNext, recvNext := recvNext,
      recvWin := windowSz, sendWin := windowSz, txbuffer := fun _ => 0, rxbuffer := fun _ => 0,
      txbufavail := windowSz, pending := 0 }
  delivered := []
  accepted := []
  handed := []

theorem newConnection_established {recvNext sendNext : ℕ} (hr : recvNext < 2 ^ 32)
    (hs : sendNext < 2 ^ 32) : Established (newConnection recvNext sendNext) :=
  ⟨rfl, hr, hs, rfl, rfl, rfl, rfl, rfl, rfl, rfl⟩

/-- The states of a run from its events. -/
def World.run (w : World) : List Event → List (Event × World)
  | [] => []
  | e :: es => (e, w.step e) :: (w.step e).run es

theorem World.along_run (w : World) (es : List Event) : Along Step w (w.run es) := by
  induction es generalizing w with
  | nil => trivial
  | cons e es ih => exact ⟨rfl, ih _⟩

end SeaKernel.Tcp
