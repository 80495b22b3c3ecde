import SeaKernel.Net.Tcp

/-!
# The end of a connection

What a receive call reports when the peer closes or resets the connection. The handler of a FIN or
of an RST writes the connection state several times and then the socket's flags, one store after
the other, and the receive calls look at both: `_do_recv` at the flags before it calls `_tcp_recv`,
and every locked section of `_tcp_recv` at the state before it looks at the buffer. So the steps of
the handler are events of their own here, and so are the test of `_do_recv` and the sections.

`close_connection` leaves `TCS_CLOSED` behind, whatever the handler had written before, and sets
`SF_SHUTDOWN`; `_do_recv` answers 0 from then on.

## Main results

* `Buffered.copyInData`, `Buffered.recvSection`: the buffer is a queue
* `close_reported`: runs with clean closes report the close as they should
-/

namespace SeaKernel.Tcp

open List Option Nat

/-! ## The receive buffer as a queue -/

/-- The bytes `copy_in_data` stores. -/
def storedBytes (t : Socket) (seq : ℕ) (data : List UInt8) : List UInt8 :=
  if inWindow t seq data.length then
    let skip := if seq < t.recvNext then sub32 t.recvNext seq else 0
    let len := sub64 data.length skip
    let seq := if seq < t.recvNext then t.recvNext else seq
    let stop := u32 (t.recvNext + t.recvWin)
    (data.drop skip).take (if u64 (seq + len) ≥ stop then sub32 stop seq else len)
  else []

/-- The receive buffer holds the bytes: they end at `recv_next` in the ring. -/
structure Buffered (t : Socket) (bytes : List UInt8) : Prop where
  recvNext : t.recvNext < 2 ^ 32
  recvWin : t.recvWin ≤ windowSz
  length : bytes.length + t.recvWin = windowSz
  holds : RingHolds windowSz t.rxbuffer (t.recvNext + t.recvWin) bytes

section Queue

variable {t : Socket} {bytes : List UInt8} {seq : ℕ} {data : List UInt8}

theorem copyInData_cut (hR : t.recvNext < 2 ^ 32) (hW : t.recvWin ≤ windowSz) (hseq : seq < 2 ^ 32)
    (hdata : data ≠ []) (hshort : data.length < 2 ^ 16) (h : inWindow t seq data.length) :
    (storedBytes t seq data).length ≤ t.recvWin ∧ copyInData t seq data =
        { copyIn (storedBytes t seq data) t with
          recvWin := t.recvWin - (storedBytes t seq data).length } := by
  have hpos : 0 < data.length := length_pos_iff.mpr hdata
  have hlast : sub64 (seq + data.length) 1 = seq + data.length - 1 :=
    sub64_of_le (by omega) (by omega)
  have hwindow := h
  simp only [inWindow, hlast, Bool.or_eq_true, Bool.and_eq_true, decide_eq_true_eq] at hwindow
  -- The window does not reach over `2 ^ 32`, or no sequence number would be in it.
  have hstop : t.recvNext + t.recvWin < 2 ^ 32 := by
    simp only [u32, windowSz] at hwindow hW
    omega
  rw [u32_of_lt hstop] at hwindow
  -- `skip` bytes of the segment are cut off in front, and `n` of the rest are stored.
  obtain ⟨skip, n, hskip, hn, hfit⟩ : ∃ skip n,
      (if seq < t.recvNext then sub32 t.recvNext seq else 0) = skip ∧
      (if u64 ((if seq < t.recvNext then t.recvNext else seq) + sub64 data.length skip) ≥
          t.recvNext + t.recvWin then
        sub32 (t.recvNext + t.recvWin) (if seq < t.recvNext then t.recvNext else seq)
      else sub64 data.length skip) = n ∧ skip + n ≤ data.length ∧ n ≤ t.recvWin := by
    refine ⟨_, _, rfl, rfl, ?_⟩
    rcases lt_or_ge seq t.recvNext with hlt | hge
    · rw [if_pos hlt, if_pos hlt, sub32_of_le hR hlt.le, sub64_of_le (by omega) (by omega),
        sub32_of_le hstop (le_add_right _ _), u64_of_lt (by omega)]
      split <;> omega
    · have hnlt : ¬ seq < t.recvNext := not_lt.mpr hge
      rw [if_neg hnlt, if_neg hnlt, sub64_of_le (by omega) (zero_le _),
        sub32_of_le hstop (by omega), u64_of_lt (by omega)]
      split <;> omega
  have hstored : storedBytes t seq data = (data.drop skip).take n := by
    simp only [storedBytes, h, if_true, hskip, u32_of_lt hstop, hn]
  have hlen : (storedBytes t seq data).length = n := by
    rw [hstored, length_take, length_drop]
    omega
  have hwin : (copyIn (storedBytes t seq data) t).recvWin = t.recvWin := by
    obtain ⟨rx, rn, hcopy⟩ := copyIn_frame (storedBytes t seq data) t
    rw [hcopy]
  refine ⟨by omega, ?_⟩
  unfold copyInData
  simp only [h, if_true, hskip, u32_of_lt hstop, hn, ← hstored]
  have hWlt : windowSz < 2 ^ 32 := by decide
  rw [hwin, hlen, u32_of_lt (by omega), sub32_of_le (by omega) hfit.2]

theorem Buffered.copyInData (h : Buffered t bytes) (hseq : seq < 2 ^ 32) (hdata : data ≠ [])
    (hshort : data.length < 2 ^ 16) :
    Buffered (copyInData t seq data) (bytes ++ storedBytes t seq data) := by
  by_cases hin : inWindow t seq data.length
  · obtain ⟨hle, hcopy⟩ := copyInData_cut h.recvNext h.recvWin hseq hdata hshort hin
    have hlength := h.length
    rw [hcopy, copyIn_eq _ _ h.recvNext]
    refine ⟨u32_lt _, ?_, ?_, ?_⟩
    · dsimp only
      omega
    · rw [length_append]
      dsimp only
      omega
    · -- The bytes start where they did, and the new ones go to `recv_next`.
      have hfit : bytes.length + (storedBytes t seq data).length ≤ windowSz := by omega
      have happ := h.holds.append hfit
      have hnext : (t.recvNext + t.recvWin + bytes.length) % windowSz = t.recvNext % windowSz := by
        rw [show t.recvNext + t.recvWin + bytes.length = t.recvNext + windowSz by omega,
          add_mod_right]
      rw [ringWrite_congr hnext] at happ
      refine (ringHolds_congr ?_).mp happ
      dsimp only
      rw [add_mod (u32 _), u32_mod_windowSz, ← add_mod]
      congr 1
      omega
  · have hstored : storedBytes t seq data = [] := by
      rw [storedBytes, if_neg hin]
    rw [hstored, append_nil, copyInData_of_not_inWindow hin]
    exact h

theorem Buffered.recvSection (h : Buffered t bytes) (hstate : t.state = .established) (len : ℕ)
    (nonblock : Bool) :
    Buffered (tcpRecvSection t len nonblock).1 (bytes.drop (min len bytes.length)) ∧
      (tcpRecvSection t len nonblock).1.state = .established ∧
      (tcpRecvSection t len nonblock).2 =
        if bytes.take len = [] then (if nonblock then .error .eagain else .wait)
        else .done (bytes.take len) := by
  have hlength := h.length
  have hnext := h.recvNext
  have hW : windowSz = 2 ^ 14 := by decide
  have hpend : sub64 windowSz t.recvWin = bytes.length := by
    rw [sub64_of_le (by decide) h.recvWin]
    omega
  have hstart : sub64 t.recvNext bytes.length % windowSz = (t.recvNext + t.recvWin) % windowSz := by
    simp only [sub64, hW] at *
    omega
  have hread : recvLoop t.rxbuffer len bytes.length (sub64 t.recvNext bytes.length) =
      bytes.take len := by
    rw [recvLoop_eq, ringRead_congr hstart, h.holds.read (min_le_right _ _)]
    rcases le_total len bytes.length with hle | hle
    · rw [min_eq_left hle]
    · rw [min_eq_right hle, take_length, take_of_length_le hle]
  have hwin : u32 (t.recvWin + (bytes.take len).length) = t.recvWin + min len bytes.length := by
    rw [length_take]
    exact u32_of_lt (by omega)
  have hleft : Buffered { t with recvWin := t.recvWin + min len bytes.length }
      (bytes.drop (min len bytes.length)) := by
    refine ⟨hnext, ?_, ?_, ?_⟩
    · dsimp only
      omega
    · rw [length_drop]
      dsimp only
      omega
    · dsimp only
      rw [← add_assoc]
      exact h.holds.drop (min_le_right _ _)
  simp only [tcpRecvSection, hstate, hpend, hread, hwin]
  split
  · exact ⟨⟨hleft.recvNext, hleft.recvWin, hleft.length, hleft.holds⟩, rfl, rfl⟩
  · exact ⟨⟨hleft.recvNext, hleft.recvWin, hleft.length, hleft.holds⟩, rfl, rfl⟩

end Queue

namespace Close

/-! ## The handler and the receive calls -/

/-- A store of the segment handler to the connection state or to the socket's flags. -/
inductive Store where
  | state (st : TcpConState)
  | clearConnec
  | setShutdown
  deriving DecidableEq, Repr

/-- The stores of `close_connection`. -/
def closeStores : List Store := [.state .closed, .clearConnec, .setShutdown]

/-- The stores of `tcp_recv` for a FIN on an established connection. -/
def finStores : List Store := .state .lastack :: .state .finished :: closeStores

/-- The stores of `tcp_recv` for an RST. -/
def rstStores : List Store := .state .reset :: closeStores

/-- The socket of a connection: its flags `SF_CONNEC` and `SF_SHUTDOWN`, the stores the handler of
the current segment has still to make, and the length and the `_MSG_NONBLOCK` flag of each receive
call that is inside `_tcp_recv`. Beside it, the bytes accepted into the receive buffer, the bytes
returned, and whether an RST has arrived. -/
structure Conn (ρ : Type) where
  tcp : Socket
  connec : Bool
  shutdown : Bool
  handler : List Store
  caller : ρ → Option (ℕ × Bool)
  stored : List UInt8
  delivered : List UInt8
  wasReset : Bool

/-- A step of the handler or of a receive call. -/
inductive Event (ρ : Type) where
  | segment (header : TcpHeader) (data : List UInt8)
  | handle
  | doRecv (r : ρ) (len : ℕ) (nonblock : Bool)
  | recvSection (r : ρ)

variable {ρ : Type}

/-- The segment's data is stored, as far as it is in the window. -/
def accepts (t : Socket) (header : TcpHeader) (data : List UInt8) : Bool :=
  processed t header && data.length > 0 && inWindow t header.seqnum data.length

/-- A segment reaches `tcp_recv`. After `close_connection` the connection is no longer found. -/
def Conn.segment (c : Conn ρ) (header : TcpHeader) (data : List UInt8) : Conn ρ :=
  match c.tcp.state with
  | .established =>
    if header.rst then { c with handler := rstStores, wasReset := true }
    else
      { c with
        tcp := absorb c.tcp header data
        stored := c.stored ++
          if processed c.tcp header && data.length > 0 then
            storedBytes (tcpAck c.tcp header) header.seqnum data
          else []
        handler := if header.fin then finStores else [] }
  | _ => c

/-- The handler makes a store. -/
def Conn.store (c : Conn ρ) : Store → Conn ρ
  | .state st => { c with tcp := { c.tcp with state := st } }
  | .clearConnec => { c with connec := false }
  | .setShutdown => { c with shutdown := true }

/-- The flags test of `_do_recv`; `wait` means that the call goes on into `_tcp_recv`. -/
def Conn.doRecv (c : Conn ρ) : Outcome (List UInt8) :=
  if c.shutdown then .done []
  else if !c.connec then .error .enotconn
  else .wait

variable [DecidableEq ρ]

/-- One step. Segments are handled one at a time. -/
def Conn.exec (c : Conn ρ) : Event ρ → Option (Conn ρ)
  | .segment header data => if c.handler = [] then some (c.segment header data) else none
  | .handle =>
    match c.handler with
    | [] => none
    | st :: rest => some ({ c with handler := rest }.store st)
  | .doRecv r len nonblock =>
    if c.caller r = none then
      some { c with
        caller := Function.update c.caller r
          (if c.doRecv = .wait then some (len, nonblock) else none) }
    else none
  | .recvSection r =>
    match c.caller r with
    | none => none
    | some (len, nonblock) =>
      some { c with
        tcp := (tcpRecvSection c.tcp len nonblock).1
        delivered := c.delivered ++ (tcpRecvSection c.tcp len nonblock).2.bytes
        caller := Function.update c.caller r
          (if (tcpRecvSection c.tcp len nonblock).2 = .wait then some (len, nonblock) else none) }

omit [DecidableEq ρ] in
/-- What the step returns to the caller of a receive call; `wait` if it returns nothing. -/
def Conn.reply (c : Conn ρ) : Event ρ → Outcome (List UInt8)
  | .segment _ _ | .handle => .wait
  | .doRecv _ _ _ => c.doRecv
  | .recvSection r =>
    match c.caller r with
    | none => .wait
    | some (len, nonblock) => (tcpRecvSection c.tcp len nonblock).2

/-- The step relation. -/
def Step (c : Conn ρ) (e : Event ρ) (c' : Conn ρ) : Prop := c.exec e = some c'

omit [DecidableEq ρ]

open Conn

/-! ## Clean closes -/

/-- The step reports the end of the connection as it should: a call returns 0 only when every byte
accepted into the receive buffer has been returned, and after an RST a call that returns no data
returns `-ECONNRESET`. -/
def Reported (c : Conn ρ) (e : Event ρ) (c' : Conn ρ) : Prop :=
  (c.reply e = .done [] → c'.delivered = c'.stored) ∧
    (c.wasReset → c.reply e ≠ .wait → (c.reply e).bytes = [] → c.reply e = .error .econnreset)

/-- The fields of a segment have the widths of the packet. -/
def Event.OnWire : Event ρ → Prop
  | .segment header data => header.seqnum < 2 ^ 32 ∧ data.length < 2 ^ 16
  | _ => True

/-- If the event is a segment on an established connection, it is no RST, and if it is a FIN, the
receive buffer is empty and the segment brings no data for it. -/
def Event.CleanClose (c : Conn ρ) : Event ρ → Prop
  | .segment header data => c.tcp.state = .established →
      header.rst = false ∧
        (header.fin → c.tcp.recvWin = windowSz ∧ accepts c.tcp header data = false)
  | _ => True

/-- A connection that has just been established. -/
structure Connected (c : Conn ρ) : Prop where
  state : c.tcp.state = .established
  recvNext : c.tcp.recvNext < 2 ^ 32
  recvWin : c.tcp.recvWin = windowSz
  connec : c.connec = true
  shutdown : c.shutdown = false
  handler : c.handler = []
  stored : c.stored = []
  delivered : c.delivered = []
  wasReset : c.wasReset = false

/-- The connection is open. -/
structure Open (c : Conn ρ) : Prop where
  state : c.tcp.state = .established
  shutdown : c.shutdown = false
  handler : c.handler = []

/-- A FIN has come in: the buffer stays empty, since the state is not `TCS_ESTABLISHED` any more, or
will not be after the next store. -/
structure Closing (c : Conn ρ) : Prop where
  recvWin : c.tcp.recvWin = windowSz
  stores : ∀ st, .state st ∈ c.handler → st ≠ .established
  state : c.tcp.state = .established → ∃ st rest, c.handler = .state st :: rest

/-- The receive buffer holds what was accepted and not returned yet, no RST has arrived, and the
connection is open or about to close with an empty buffer. -/
structure Inv (c : Conn ρ) : Prop where
  buffered : ∃ bytes, Buffered c.tcp bytes ∧ c.stored = c.delivered ++ bytes
  noReset : c.wasReset = false
  phase : Open c ∨ Closing c

section Invariant

variable {c c' : Conn ρ}

theorem Inv.of_connected (h : Connected c) : Inv c := by
  refine ⟨⟨[], ⟨h.recvNext, h.recvWin.le, ?_, ringHolds_nil⟩, ?_⟩, h.wasReset,
    .inl ⟨h.state, h.shutdown, h.handler⟩⟩
  · rw [length_nil, zero_add, h.recvWin]
  · rw [h.stored, h.delivered, append_nil]

theorem Closing.delivered_eq (hc : Closing c) (h : Inv c) : c.delivered = c.stored := by
  obtain ⟨bytes, hbuf, hstored⟩ := h.buffered
  have hlength := hbuf.length
  rw [hc.recvWin] at hlength
  have hnil : bytes = [] := length_eq_zero_iff.mp (by omega)
  rw [hstored, hnil, append_nil]

variable {header : TcpHeader} {data : List UInt8}

theorem Buffered.absorb {t : Socket} {bytes : List UInt8} (h : Buffered t bytes)
    (hseq : header.seqnum < 2 ^ 32) (hshort : data.length < 2 ^ 16) :
    Buffered (Tcp.absorb t header data) (bytes ++
      if processed t header && data.length > 0 then
        storedBytes (tcpAck t header) header.seqnum data
      else []) := by
  -- The acknowledgement writes no field of the receive side.
  have hack : Buffered (tcpAck t header) bytes := ⟨h.recvNext, h.recvWin, h.length, h.holds⟩
  unfold Tcp.absorb
  by_cases hp : processed t header <;> by_cases hd : data.length > 0 <;> simp only [hp, hd]
  · simpa using hack.copyInData hseq (length_pos_iff.mp hd) hshort
  · simpa using hack
  · simpa using h
  · simpa using h

theorem absorb_recvWin {t : Socket} (h : accepts t header data = false) :
    (Tcp.absorb t header data).recvWin = t.recvWin := by
  unfold Tcp.absorb
  split
  · next hp =>
    split
    · next hd =>
      have hout : ¬ inWindow (tcpAck t header) header.seqnum data.length := by
        have hnot : inWindow t header.seqnum data.length = false := by
          simpa [accepts, hp, hd] using h
        exact (Bool.not_eq_true _).mpr hnot
      rw [copyInData_of_not_inWindow hout]
      rfl
    · rfl
  · rfl

theorem Inv.segment (h : Inv c) (hidle : c.handler = [])
    (hwire : (Event.segment (ρ := ρ) header data).OnWire)
    (hclean : (Event.segment header data).CleanClose c) : Inv (c.segment header data) := by
  by_cases hstate : c.tcp.state = .established
  · obtain ⟨hrst, hfin⟩ := hclean hstate
    obtain ⟨bytes, hbuf, hstored⟩ := h.buffered
    have hopen : Open c := by
      refine h.phase.resolve_right fun hc => ?_
      obtain ⟨st, rest, hhandler⟩ := hc.state hstate
      rw [hidle] at hhandler
      cases hhandler
    have habs : (Tcp.absorb c.tcp header data).state = .established := by
      unfold Tcp.absorb
      split
      · split
        · obtain ⟨rx, rn, win, hcopy⟩ := copyInData_frame (tcpAck c.tcp header) header.seqnum data
          rw [hcopy]
          exact hstate
        · exact hstate
      · exact hstate
    have hseg : c.segment header data =
        { c with
          tcp := Tcp.absorb c.tcp header data
          stored := c.stored ++
            if processed c.tcp header && data.length > 0 then
              storedBytes (tcpAck c.tcp header) header.seqnum data
            else []
          handler := if header.fin then finStores else [] } := by
      simp only [Conn.segment, hstate, hrst]
      rfl
    rw [hseg]
    refine ⟨⟨_, Buffered.absorb hbuf hwire.1 hwire.2, ?_⟩, h.noReset, ?_⟩
    · rw [hstored, append_assoc]
    · cases hf : header.fin with
      | false => exact .inl ⟨habs, hopen.shutdown, rfl⟩
      | true =>
        obtain ⟨hempty, hreject⟩ := hfin hf
        refine .inr ⟨(absorb_recvWin hreject).trans hempty, ?_, fun _ => ⟨_, _, rfl⟩⟩
        intro st hst
        simp only [if_true, finStores, closeStores, mem_cons, Store.state.injEq, reduceCtorEq,
          not_mem_nil, or_false] at hst
        rcases hst with rfl | rfl | rfl <;> decide
  · have hseg : c.segment header data = c := by
      unfold Conn.segment
      split
      · contradiction
      · rfl
    rw [hseg]
    exact h

theorem Inv.handle (h : Inv c) {st : Store} {rest : List Store}
    (hhandler : c.handler = st :: rest) : Inv ({ c with handler := rest }.store st) := by
  have hc : Closing c := by
    refine h.phase.resolve_left fun hopen => ?_
    rw [hopen.handler] at hhandler
    cases hhandler
  obtain ⟨bytes, hbuf, hstored⟩ := h.buffered
  have hstores : ∀ st, .state st ∈ rest → st ≠ .established :=
    fun st hst => hc.stores st (hhandler ▸ mem_cons_of_mem _ hst)
  cases st with
  | state st =>
    have hst : st ≠ .established := hc.stores st (hhandler ▸ mem_cons_self)
    exact ⟨⟨bytes, ⟨hbuf.recvNext, hbuf.recvWin, hbuf.length, hbuf.holds⟩, hstored⟩, h.noReset,
      .inr ⟨hc.recvWin, hstores, fun hcon => absurd hcon hst⟩⟩
  | clearConnec | setShutdown =>
    refine ⟨⟨bytes, hbuf, hstored⟩, h.noReset, .inr ⟨hc.recvWin, hstores, fun hstate => ?_⟩⟩
    obtain ⟨st', rest', hcons⟩ := hc.state hstate
    rw [hhandler] at hcons
    cases hcons

theorem Inv.section (h : Inv c) (len : ℕ) (nonblock : Bool) (caller : ρ → Option (ℕ × Bool)) :
    Inv { c with
      tcp := (tcpRecvSection c.tcp len nonblock).1
      delivered := c.delivered ++ (tcpRecvSection c.tcp len nonblock).2.bytes
      caller := caller } := by
  obtain ⟨bytes, hbuf, hstored⟩ := h.buffered
  by_cases hstate : c.tcp.state = .established
  · obtain ⟨hleft, hstate', hout⟩ := hbuf.recvSection hstate len nonblock
    have hbytes : (tcpRecvSection c.tcp len nonblock).2.bytes = bytes.take len := by
      rw [hout]
      split
      · next hnil => cases nonblock <;> simp [Outcome.bytes, hnil]
      · rfl
    refine ⟨⟨_, hleft, ?_⟩, h.noReset, ?_⟩
    · change c.stored = (c.delivered ++ (tcpRecvSection c.tcp len nonblock).2.bytes) ++ _
      rw [hbytes, hstored, append_assoc]
      rcases le_total len bytes.length with hle | hle
      · rw [min_eq_left hle, take_append_drop]
      · rw [min_eq_right hle, take_of_length_le hle, drop_length, append_nil]
    · rcases h.phase with hopen | hc
      · exact .inl ⟨hstate', hopen.shutdown, hopen.handler⟩
      · refine .inr ⟨?_, hc.stores, fun _ => hc.state hstate⟩
        have hlength := hbuf.length
        have hlength' := hleft.length
        rw [hc.recvWin] at hlength
        have hle := hleft.recvWin
        rw [length_drop] at hlength'
        change (tcpRecvSection c.tcp len nonblock).1.recvWin = windowSz
        omega
  · -- In every other state the section returns without a look at the buffer.
    have hsec : (tcpRecvSection c.tcp len nonblock).1 = c.tcp ∧
        (tcpRecvSection c.tcp len nonblock).2.bytes = [] := by
      cases hst : c.tcp.state <;> simp_all [tcpRecvSection, Outcome.bytes]
    refine ⟨⟨bytes, ?_, ?_⟩, h.noReset, ?_⟩
    · rw [hsec.1]
      exact hbuf
    · rw [hsec.2, append_nil]
      exact hstored
    · rcases h.phase with hopen | hc
      · exact absurd hopen.state hstate
      · refine .inr ⟨?_, hc.stores, fun hcon => ?_⟩
        · rw [hsec.1]
          exact hc.recvWin
        · rw [hsec.1] at hcon
          exact absurd hcon hstate

variable {e : Event ρ}

theorem Inv.closing_of_reply (h : Inv c) (hreply : c.reply e = .done []) : Closing c := by
  refine h.phase.resolve_left fun hopen => ?_
  cases e with
  | segment | handle => cases hreply
  | doRecv r len nonblock =>
    simp only [reply, doRecv, hopen.shutdown, Bool.false_eq_true, if_false] at hreply
    split at hreply <;> cases hreply
  | recvSection r =>
    obtain ⟨bytes, hbuf, -⟩ := h.buffered
    simp only [reply] at hreply
    split at hreply
    · cases hreply
    · next len nonblock _ =>
      rw [(hbuf.recvSection hopen.state len nonblock).2.2] at hreply
      split at hreply
      · cases nonblock <;> simp at hreply
      · next hne => exact hne (Outcome.done.inj hreply)

variable [DecidableEq ρ]

theorem exec_records (hstep : Step c e c') (hreply : c.reply e = .done []) :
    c'.delivered = c.delivered ∧ c'.stored = c.stored := by
  cases e with
  | segment | handle => cases hreply
  | doRecv r len nonblock =>
    simp only [Step, exec] at hstep
    split at hstep
    · cases hstep
      exact ⟨rfl, rfl⟩
    · cases hstep
  | recvSection r =>
    simp only [Step, exec] at hstep
    simp only [reply] at hreply
    split at hstep
    · cases hstep
    · next len nonblock hcaller =>
      cases hstep
      rw [hcaller] at hreply
      refine ⟨?_, rfl⟩
      change c.delivered ++ (tcpRecvSection c.tcp len nonblock).2.bytes = c.delivered
      rw [show (tcpRecvSection c.tcp len nonblock).2 = .done [] from hreply]
      exact append_nil _

/-- **Every step of a connection that closes cleanly keeps the invariant and reports as it
should.** -/
theorem Inv.exec (h : Inv c) (hstep : Step c e c') (hwire : e.OnWire) (hclean : e.CleanClose c) :
    Inv c' ∧ Reported c e c' := by
  have hreset : c.wasReset → c.reply e ≠ .wait → (c.reply e).bytes = [] →
      c.reply e = .error .econnreset := by
    rw [h.noReset]
    exact fun hcon => absurd hcon Bool.false_ne_true
  have hinv : Inv c' := by
    cases e with
    | segment header data =>
      simp only [Step, Conn.exec] at hstep
      split at hstep
      · next hidle =>
        cases hstep
        exact h.segment hidle hwire hclean
      · cases hstep
    | handle =>
      simp only [Step, Conn.exec] at hstep
      split at hstep
      · cases hstep
      · next st rest hhandler =>
        cases hstep
        exact h.handle hhandler
    | doRecv r len nonblock =>
      simp only [Step, Conn.exec] at hstep
      split at hstep
      · cases hstep
        refine ⟨h.buffered, h.noReset, h.phase.imp ?_ ?_⟩
        · exact fun hopen => ⟨hopen.state, hopen.shutdown, hopen.handler⟩
        · exact fun hc => ⟨hc.recvWin, hc.stores, hc.state⟩
      · cases hstep
    | recvSection r =>
      simp only [Step, Conn.exec] at hstep
      split at hstep
      · cases hstep
      · next len nonblock _ =>
        cases hstep
        exact h.section len nonblock _
  refine ⟨hinv, fun hreply => ?_, hreset⟩
  have hrecords := exec_records hstep hreply
  rw [hrecords.1, hrecords.2]
  exact (h.closing_of_reply hreply).delivered_eq h

end Invariant

/-- **The end of a connection is reported as it should be in every run in which no RST arrives and
every FIN finds the receive buffer empty and brings no data**: whenever a receive call returns 0,
every byte accepted into the receive buffer has been returned, and after an RST a receive call that
returns no data returns `-ECONNRESET`. The run starts on a new connection and interleaves segments,
the stores of their handler and the steps of any number of receive calls. -/
theorem close_reported [DecidableEq ρ] {c : Conn ρ} (hnew : Connected c)
    {run : List (Event ρ × Conn ρ)} (hrun : Along Step c run)
    (hwire : Along (fun _ e _ => e.OnWire) c run)
    (hclean : Along (fun c e _ => e.CleanClose c) c run) : Along Reported c run := by
  refine Along.of_inv (I := Inv) (R := fun c e c' => Step c e c' ∧ e.OnWire) ?_
    (.of_connected hnew) (hrun.and hwire) hclean
  rintro c e c' h ⟨hstep, hw⟩ hc
  exact h.exec hstep hw hc

instance (e : Event ρ) : Decidable e.OnWire := by
  cases e <;> unfold Event.OnWire <;> infer_instance

instance (c : Conn ρ) (e : Event ρ) : Decidable (e.CleanClose c) := by
  cases e <;> unfold Event.CleanClose <;> infer_instance

instance (c : Conn ρ) (e : Event ρ) (c' : Conn ρ) : Decidable (Reported c e c') := by
  unfold Reported
  infer_instance

/-- A new connection on which one reader makes receive calls. -/
def newConn : Conn Unit where
  tcp := (newConnection 0 0).tcp
  connec := true
  shutdown := false
  handler := []
  caller := fun _ => none
  stored := []
  delivered := []
  wasReset := false

theorem newConn_connected : Connected newConn :=
  ⟨rfl, by decide, rfl, rfl, rfl, rfl, rfl, rfl, rfl⟩

/-- A segment from the peer, at sequence number 0. -/
def fromPeer (fin rst : Bool) (data : List UInt8) : Event Unit :=
  .segment { seqnum := 0, acknum := 0, fin := fin, syn := false, rst := rst, ack := true,
             winsize := windowSz } data

theorem read_then_closed : ∃ run,
    run.map Prod.fst = [fromPeer false false [7], .doRecv () 16 false, .recvSection (),
      fromPeer true false [], .handle, .handle, .handle, .handle, .handle,
      .doRecv () 16 false] ∧
    Along Step newConn run ∧ (final newConn run).delivered = [7] ∧ Along Reported newConn run := by
  refine (exists_run exec (fun c e => e.OnWire ∧ e.CleanClose c) (fun c => c.delivered = [7])
    newConn _ (by decide +kernel)).imp fun run ⟨hevents, hrun, hgoal⟩ => ⟨hevents, ?_⟩
  have hsteps : Along Step newConn run := hrun.mono fun _ _ _ h => h.2
  exact ⟨hsteps, hgoal, close_reported newConn_connected hsteps
    (hrun.mono fun _ _ _ h => h.1.1) (hrun.mono fun _ _ _ h => h.1.2)⟩

/-- **A close loses what was not read, and a reset looks like a close**: after a byte and a FIN the
next receive call returns 0 without the byte, and after an RST a call that was blocked returns
`-ENOTCONN` and the next one returns 0. -/
theorem close_misreported :
    Connected newConn ∧
    (∃ run, run.map Prod.fst = [fromPeer false false [7], fromPeer true false [], .handle, .handle,
        .handle, .handle, .handle, .doRecv () 16 false] ∧
      Along (fun c e c' => e.OnWire ∧ c.exec e = some c') newConn run ∧
      ¬ Along Reported newConn run) ∧
    ∃ run, run.map Prod.fst = [.doRecv () 16 false, .recvSection (), fromPeer false true [],
        .handle, .handle, .handle, .handle, .recvSection (), .doRecv () 16 false] ∧
      Along (fun c e c' => e.OnWire ∧ c.exec e = some c') newConn run ∧
      ¬ Along Reported newConn run :=
  ⟨newConn_connected,
    exists_trace exec (fun _ e => e.OnWire) (fun run => ¬ Along Reported newConn run) newConn _
      (by decide +kernel),
    exists_trace exec (fun _ e => e.OnWire) (fun run => ¬ Along Reported newConn run) newConn _
      (by decide +kernel)⟩

end Close

end SeaKernel.Tcp
