import SeaKernel.Net.Tcp

/-!
# The transmit stream

The bytes accepted by `_tcp_send` stay in the transmit ring until they are acknowledged;
`txbufavail` counts the free cells. `tcp_recv` recomputes it from the bytes in flight, which it
takes as `send_next - send_unack`, or, where `send_next` is the smaller number, as
`2 ^ 32 - send_next + send_unack`: the second is not the number of bytes in flight.

## Main results

* `TransmitInv.step`: every step keeps the invariant that does not acknowledge across `2 ^ 32`
* `transmitOk_iff`: the runs that keep the transmit stream right
-/

namespace SeaKernel.Tcp

open List Option Nat World

/-- The bytes sent and not yet acknowledged. -/
def inFlight (t : Socket) : ℕ := sub32 t.sendNext t.sendUnack

/-- The bytes handed to the network, in the order of the segments. -/
def World.sent (w : World) : List UInt8 := w.handed.flatMap Segment.payload

/-- The segments follow each other in sequence, starting at position `p`. -/
def InSequence : ℕ → List Segment → Prop
  | _, [] => True
  | p, s :: rest => s.seqnum = u32 p ∧ InSequence (p + s.payload.length) rest

/-- The transmit side of a connection whose stream started at `isn`: the free cells are those
neither in flight nor pending, the accepted bytes that are not yet acknowledged are in the ring,
and the segments handed to the network, which follow each other in sequence, carry the accepted
bytes in order. -/
structure TransmitOk (isn : ℕ) (w : World) : Prop where
  avail : w.tcp.txbufavail + inFlight w.tcp + w.tcp.pending = windowSz
  kept : RingHolds windowSz w.tcp.txbuffer w.tcp.sendUnack
    (w.accepted.drop (w.sent.length - inFlight w.tcp))
  inSequence : InSequence isn w.handed
  sent : w.sent <+: w.accepted

/-- If the event is an acknowledgement, its number lies between `send_unack` and `send_next`,
modulo `2 ^ 32`. -/
def Event.AckInRange (w : World) : Event → Prop
  | .segment header _ _ => processed w.tcp header →
      header.acknum < 2 ^ 32 ∧ sub32 header.acknum w.tcp.sendUnack ≤ inFlight w.tcp
  | _ => True

/-- If the event is an acknowledgement, its number is not above `send_next` as a number: the
bytes left in flight do not lie across `2 ^ 32`. -/
def Event.AckNoWrap (w : World) : Event → Prop
  | .segment header _ _ => processed w.tcp header → header.acknum ≤ w.tcp.sendNext
  | _ => True

theorem inSequence_append {p : ℕ} {l : List Segment} {s : Segment} (h : InSequence p l)
    (hs : s.seqnum = u32 (p + (l.flatMap Segment.payload).length)) : InSequence p (l ++ [s]) := by
  induction l generalizing p with
  | nil => exact ⟨by simpa using hs, trivial⟩
  | cons x l ih =>
    refine ⟨h.1, ih h.2 ?_⟩
    rw [hs, flatMap_cons, length_append, add_assoc]

/-! ## The invariant -/

/-- `TransmitOk` with the sequence numbers it depends on. -/
structure TransmitInv (isn : ℕ) (w : World) : Prop where
  live : Live w.tcp
  sendNext : w.tcp.sendNext = u32 (isn + w.sent.length)
  sendUnack : w.tcp.sendUnack < 2 ^ 32
  flight : inFlight w.tcp ≤ w.sent.length
  accepted : w.accepted.length = w.sent.length + w.tcp.pending
  ok : TransmitOk isn w

section Invariant

variable {isn : ℕ} {w : World}

theorem TransmitInv.of_established (h : Established w) : TransmitInv w.tcp.sendNext w := by
  have hsent : w.sent = [] := by simp [sent, h.handed]
  have hflight : inFlight w.tcp = 0 := by
    rw [inFlight, h.sendUnack, sub32_of_le h.sendNext le_rfl, Nat.sub_self]
  have hnext := h.sendNext
  refine ⟨.inl h.state, ?_, ?_, ?_, ?_, ⟨?_, ?_, ?_, ?_⟩⟩
  · rw [hsent]
    exact (u32_of_lt hnext).symm
  · rw [h.sendUnack]
    exact hnext
  · rw [hflight]
    exact zero_le _
  · simp [hsent, h.accepted, h.pending]
  · rw [hflight, h.txbufavail, h.pending, Nat.add_zero]
  · rw [h.accepted, drop_nil]
    exact ringHolds_nil
  · rw [h.handed]
    trivial
  · rw [hsent]
    exact nil_prefix

variable (h : TransmitInv isn w)

include h

theorem TransmitInv.sendUnack_mod :
    (w.tcp.sendUnack + inFlight w.tcp) % windowSz = (isn + w.sent.length) % windowSz := by
  have hnext := h.sendNext
  have hun := h.sendUnack
  simp only [inFlight, sub32, u32, windowSz] at *
  omega

theorem TransmitInv.tcpAck {header : TcpHeader} (hlt : header.acknum < 2 ^ 32)
    (hrange : sub32 header.acknum w.tcp.sendUnack ≤ inFlight w.tcp)
    (hle : header.acknum ≤ w.tcp.sendNext) :
    TransmitInv isn { w with tcp := tcpAck w.tcp header } := by
  have hnext : w.tcp.sendNext < 2 ^ 32 := by
    rw [h.sendNext]
    exact u32_lt _
  have hun := h.sendUnack
  have havail := h.ok.avail
  have hflight := h.flight
  have hnew : inFlight (Tcp.tcpAck w.tcp header) = w.tcp.sendNext - header.acknum :=
    sub32_of_le hnext hle
  have hold : inFlight w.tcp =
      sub32 header.acknum w.tcp.sendUnack + (w.tcp.sendNext - header.acknum) := by
    simp only [inFlight, sub32] at *
    omega
  have hfree : (Tcp.tcpAck w.tcp header).txbufavail =
      windowSz - (w.tcp.sendNext - header.acknum) - w.tcp.pending := by
    have hwin : sub64 windowSz (w.tcp.sendNext - header.acknum) =
        windowSz - (w.tcp.sendNext - header.acknum) := sub64_of_le (by decide) (by omega)
    have hlt64 : windowSz - (w.tcp.sendNext - header.acknum) < 2 ^ 64 := by
      rw [windowSz]
      omega
    simp only [Tcp.tcpAck, ge_iff_le, hle, if_true]
    rw [hwin, sub64_of_le hlt64 (by omega)]
  refine ⟨h.live, h.sendNext, hlt, ?_, h.accepted, ⟨?_, ?_, h.ok.inSequence, h.ok.sent⟩⟩
  · change inFlight (Tcp.tcpAck w.tcp header) ≤ w.sent.length
    omega
  · change (Tcp.tcpAck w.tcp header).txbufavail + inFlight (Tcp.tcpAck w.tcp header) +
      w.tcp.pending = windowSz
    omega
  · change RingHolds windowSz w.tcp.txbuffer header.acknum
      (w.accepted.drop (w.sent.length - inFlight (Tcp.tcpAck w.tcp header)))
    have hlen := h.accepted
    have hdrop := h.ok.kept.drop (k := sub32 header.acknum w.tcp.sendUnack) (by
      rw [length_drop]
      omega)
    rw [drop_drop, hold, show w.sent.length - (sub32 header.acknum w.tcp.sendUnack +
      (w.tcp.sendNext - header.acknum)) + sub32 header.acknum w.tcp.sendUnack =
      w.sent.length - (w.tcp.sendNext - header.acknum) by omega] at hdrop
    rw [hnew]
    refine (ringHolds_congr ?_).mp hdrop
    simp only [sub32, windowSz]
    omega

/-- An accepted byte string goes behind the pending bytes, into cells that are neither in flight
nor pending. -/
theorem TransmitInv.send (buf : List UInt8) : TransmitInv isn (w.step (.send buf)) := by
  rcases h.live with hstate | hstate
  · have havail := h.ok.avail
    have hflight := h.flight
    have hlen := h.accepted
    have hW : windowSz < 2 ^ 64 := by decide
    have hfree : (buf.take w.tcp.txbufavail).length ≤ w.tcp.txbufavail := length_take_le _ _
    have hsec := tcpSendSection_of_established hstate (by omega) buf
    generalize buf.take w.tcp.txbufavail = bytes at hfree hsec
    have hstep : w.step (.send buf) =
        { w with
          tcp := { w.tcp with
            txbuffer := ringWrite windowSz w.tcp.txbuffer (u64 (w.tcp.sendNext + w.tcp.pending))
              bytes
            pending := w.tcp.pending + bytes.length
            txbufavail := w.tcp.txbufavail - bytes.length }
          accepted := w.accepted ++ bytes } := by
      simp only [step, hsec, Outcome.bytes]
    rw [hstep]
    refine ⟨h.live, h.sendNext, h.sendUnack, h.flight, ?_,
      ⟨?_, ?_, h.ok.inSequence, h.ok.sent.trans (prefix_append _ _)⟩⟩
    · change (w.accepted ++ bytes).length = w.sent.length + (w.tcp.pending + bytes.length)
      rw [length_append]
      omega
    · change w.tcp.txbufavail - bytes.length + inFlight w.tcp + (w.tcp.pending + bytes.length) =
        windowSz
      omega
    · change RingHolds windowSz _ w.tcp.sendUnack
        ((w.accepted ++ bytes).drop (w.sent.length - inFlight w.tcp))
      rw [drop_append_of_le_length (by omega)]
      have hdrop : (w.accepted.drop (w.sent.length - inFlight w.tcp)).length =
          inFlight w.tcp + w.tcp.pending := by
        rw [length_drop]
        omega
      have hpos : u64 (w.tcp.sendNext + w.tcp.pending) % windowSz =
          (w.tcp.sendUnack + (w.accepted.drop (w.sent.length - inFlight w.tcp)).length) %
            windowSz := by
        rw [u64_mod_windowSz, hdrop, ← add_assoc, add_mod,
          add_mod (w.tcp.sendUnack + inFlight w.tcp), h.sendUnack_mod, h.sendNext,
          u32_mod_windowSz]
      rw [ringWrite_congr hpos]
      exact h.ok.kept.append (by omega)
  · have hstep : w.step (.send buf) = w := by
      simp [step, tcpSendSection, hstate, Outcome.bytes]
    rw [hstep]
    exact h

theorem TransmitInv.transmit : TransmitInv isn (w.step .transmit) := by
  obtain ⟨n, hn⟩ : ∃ n, n = workerLen w.tcp := ⟨_, rfl⟩
  have hle : n ≤ w.tcp.pending := hn ▸ workerLen_le_pending w.tcp
  have havail := h.ok.avail
  have hflight := h.flight
  have hlen := h.accepted
  have hun := h.sendUnack
  have hnext := h.sendNext
  have hdrop : (w.accepted.drop (w.sent.length - inFlight w.tcp)).length =
      inFlight w.tcp + w.tcp.pending := by
    rw [length_drop]
    omega
  -- The ring from `send_next` on holds the accepted bytes that were not sent yet.
  have hpayload : (tcpWorkerSend w.tcp).2.payload = (w.accepted.drop w.sent.length).take n := by
    have hring := h.ok.kept.drop (k := inFlight w.tcp) (by omega)
    rw [drop_drop, Nat.sub_add_cancel hflight] at hring
    rw [tcpWorkerSend_payload, ← hn, ringRead_congr (q := w.tcp.sendUnack + inFlight w.tcp) ?_]
    · exact hring.read (by rw [length_drop]; omega)
    · rw [h.sendUnack_mod, hnext, u32_mod_windowSz]
  have hsent : (w.step .transmit).sent = w.sent ++ (w.accepted.drop w.sent.length).take n := by
    simp only [sent, step, flatMap_append, flatMap_cons, flatMap_nil, append_nil, hpayload]
  have hsentlen : (w.step .transmit).sent.length = w.sent.length + n := by
    rw [hsent, length_append, length_take, length_drop]
    omega
  have hflight' : inFlight (w.step .transmit).tcp = inFlight w.tcp + n := by
    change sub32 (u32 (w.tcp.sendNext + workerLen w.tcp)) w.tcp.sendUnack = _
    simp only [inFlight, sub32, u32, windowSz, ← hn] at *
    omega
  have hpending : (w.step .transmit).tcp.pending = w.tcp.pending - n := by
    change sub64 w.tcp.pending (workerLen w.tcp) = _
    rw [← hn, sub64_of_le ?_ hle]
    simp only [windowSz] at *
    omega
  refine ⟨h.live, ?_, h.sendUnack, ?_, ?_, ⟨?_, ?_, ?_, ?_⟩⟩
  · change u32 (w.tcp.sendNext + workerLen w.tcp) = _
    rw [hsentlen, hnext, ← hn, u32_add_u32, Nat.add_assoc]
  · omega
  · change w.accepted.length = _
    omega
  · change w.tcp.txbufavail + _ + _ = _
    omega
  · change RingHolds windowSz w.tcp.txbuffer w.tcp.sendUnack (w.accepted.drop _)
    rw [hsentlen, hflight', Nat.add_sub_add_right]
    exact h.ok.kept
  · refine inSequence_append h.ok.inSequence ?_
    exact hnext
  · rw [hsent, prefix_iff_eq_take.mp h.ok.sent, length_take,
      Nat.min_eq_left h.ok.sent.length_le, ← take_add]
    exact take_prefix _ _

theorem TransmitInv.recv (len : ℕ) (nonblock : Bool) :
    TransmitInv isn (w.step (.recv len nonblock)) := by
  obtain ⟨win, hwin⟩ := tcpRecvSection_frame w.tcp len nonblock
  simp only [step, hwin]
  exact ⟨h.live, h.sendNext, h.sendUnack, h.flight, h.accepted,
    ⟨h.ok.avail, h.ok.kept, h.ok.inSequence, h.ok.sent⟩⟩

omit h in
theorem segment_transmit (hlive : Live w.tcp) (header : TcpHeader) (data : List UInt8)
    (bound : Bool) :
    ∃ st rx rn win, (st = .established ∨ st = .closed) ∧ w.step (.segment header data bound) =
        { w with tcp :=
          { (if processed w.tcp header then tcpAck w.tcp header else w.tcp) with
            state := st, rxbuffer := rx, recvNext := rn, recvWin := win } } := by
  obtain ⟨st, hrecv, hst⟩ := tcpRecv_of_live hlive header data bound
  have habs : ∃ rx rn win, absorb w.tcp header data =
      { (if processed w.tcp header then tcpAck w.tcp header else w.tcp) with
        rxbuffer := rx, recvNext := rn, recvWin := win } := by
    unfold absorb
    split
    · split
      · exact copyInData_frame _ _ _
      · exact ⟨_, _, _, rfl⟩
    · exact ⟨_, _, _, rfl⟩
  obtain ⟨rx, rn, win, habs⟩ := habs
  refine ⟨st, rx, rn, win, hst, ?_⟩
  simp only [step, hrecv, habs]

theorem TransmitInv.segment {header : TcpHeader} {data : List UInt8} {bound : Bool}
    (hrange : (Event.segment header data bound).AckInRange w)
    (hwrap : (Event.segment header data bound).AckNoWrap w) :
    TransmitInv isn (w.step (.segment header data bound)) := by
  have hack : TransmitInv isn
      { w with tcp := if processed w.tcp header then Tcp.tcpAck w.tcp header else w.tcp } := by
    split
    · next hp => exact h.tcpAck (hrange hp).1 (hrange hp).2 (hwrap hp)
    · exact h
  obtain ⟨st, rx, rn, win, hst, hstep⟩ := segment_transmit h.live header data bound
  rw [hstep]
  exact ⟨hst, hack.sendNext, hack.sendUnack, hack.flight, hack.accepted,
    ⟨hack.ok.avail, hack.ok.kept, hack.ok.inSequence, hack.ok.sent⟩⟩

/-- **Every step without a wrapping acknowledgement keeps the transmit stream.** -/
theorem TransmitInv.step {e : Event} (hrange : e.AckInRange w) (hwrap : e.AckNoWrap w) :
    TransmitInv isn (w.step e) := by
  cases e with
  | segment header data bound => exact h.segment hrange hwrap
  | recv len nonblock => exact h.recv len nonblock
  | send buf => exact h.send buf
  | transmit => exact h.transmit

/-- **A wrapping acknowledgement breaks the accounting**: the free cells come out near
`2 ^ 64`. -/
theorem TransmitInv.ackNoWrap_of_ok {e : Event} (hrange : e.AckInRange w)
    (hok : TransmitOk isn (w.step e)) : e.AckNoWrap w := by
  cases e with
  | recv | send | transmit => trivial
  | segment header data bound =>
    intro hp
    by_contra hgt
    obtain ⟨hlt, hle⟩ := hrange hp
    obtain ⟨st, rx, rn, win, -, hstep⟩ := segment_transmit h.live header data bound
    have havail := hok.avail
    rw [hstep, if_pos hp] at havail
    have hold := h.ok.avail
    change sub64 (sub64 windowSz (if w.tcp.sendNext ≥ header.acknum then _ else _)) w.tcp.pending +
      sub32 w.tcp.sendNext header.acknum + w.tcp.pending = windowSz at havail
    rw [if_neg (by omega)] at havail
    simp only [inFlight, sub32, sub64, windowSz] at *
    omega

end Invariant

/-! ## Runs -/

/-- **The transmit stream is right in every state of a run exactly if no acknowledgement of the
run lies numerically above `send_next`.** The run starts on a new connection with any sequence
number and interleaves sends, transmissions, reads and segments whose acknowledgement numbers
lie between `send_unack` and `send_next`, modulo `2 ^ 32`. -/
theorem transmitOk_iff {w : World} (hnew : Established w) {run : List (Event × World)}
    (hrun : Along Step w run) (hrange : Along (fun w e _ => e.AckInRange w) w run) :
    After (TransmitOk w.tcp.sendNext) w run ↔ Along (fun w e _ => e.AckNoWrap w) w run := by
  refine after_iff_along (I := TransmitInv w.tcp.sendNext)
    (R := fun w e w' => Step w e w' ∧ e.AckInRange w) ?_ (fun _ h => h.ok) ?_
    (.of_established hnew) (hrun.and hrange)
  · rintro w e _ h ⟨rfl, hr⟩ hwrap
    exact h.step hr hwrap
  · rintro w e _ h ⟨rfl, hr⟩ hok
    exact h.ackNoWrap_of_ok hr hok

/-- A pure acknowledgement. -/
def ackSegment (acknum : ℕ) : Event :=
  .segment { seqnum := 0, acknum := acknum, fin := false, syn := false, rst := false, ack := true,
             winsize := windowSz } [] true

/-- Three bytes are accepted and sent, and two of them are acknowledged. -/
def acknowledgedRun : List (Event × World) :=
  (newConnection 0 0).run [.send [1, 2, 3], .transmit, ackSegment 2]

theorem acknowledgedRun_transmitOk : After (TransmitOk 0) (newConnection 0 0) acknowledgedRun := by
  refine (transmitOk_iff (newConnection_established (by decide) (by decide))
    (along_run _ _) ?_).mpr ?_
  · exact ⟨trivial, trivial, fun _ => ⟨by decide, by decide⟩, trivial⟩
  · exact ⟨trivial, trivial, fun _ => by decide, trivial⟩

/-- The first byte of the stream is the last one below `2 ^ 32`; it is sent, and the peer repeats
the acknowledgement of everything before it. -/
def wrappingRun : List (Event × World) :=
  (newConnection 0 (2 ^ 32 - 1)).run [.send [1, 2], .transmit, ackSegment (2 ^ 32 - 1)]

/-- **The accounting fails across `2 ^ 32`**: one byte is in flight and one pending, and
`txbufavail` is no number below `WINDOWSZ`. -/
theorem wrappingRun_not_transmitOk :
    Established (newConnection 0 (2 ^ 32 - 1)) ∧
      Along Step (newConnection 0 (2 ^ 32 - 1)) wrappingRun ∧
      Along (fun w e _ => e.AckInRange w) (newConnection 0 (2 ^ 32 - 1)) wrappingRun ∧
      ¬ After (TransmitOk (2 ^ 32 - 1)) (newConnection 0 (2 ^ 32 - 1)) wrappingRun := by
  refine ⟨newConnection_established (by decide) (by decide), along_run _ _, ?_, fun h => ?_⟩
  · exact ⟨trivial, trivial, fun _ => ⟨by decide, by decide⟩, trivial⟩
  · have havail := h.2.2.2.1.avail
    revert havail
    decide

end SeaKernel.Tcp
