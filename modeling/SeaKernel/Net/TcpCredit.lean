import SeaKernel.Net.TcpTransmit

/-!
# Credit and window of the transmit side

`txbufavail` is the credit of `_tcp_send`: it stores that many bytes behind the pending ones.
`tcp_recv` recomputes the credit from the acknowledgement number of every segment and does not
look whether the number makes sense. The worker compares the peer's window with the length of one
transmission, not with the bytes in flight.

## Main results

* `CreditInv.step`: what a step keeps of the credit
* `credit_iff`: the runs in which the credit stays inside the buffer
* `window_iff`: the runs in which the bytes in flight stay inside the peer's window
-/

namespace SeaKernel.Tcp

open World

/-! ## Credit -/

/-- The cell of the transmit ring `_tcp_send` stores its `i`-th byte in. -/
def storeCell (t : Socket) (i : ℕ) : ℕ := u64 (i + u64 (t.sendNext + t.pending)) % windowSz

/-- The cell of the `j`-th byte that the worker has still to transmit. -/
def pendingCell (t : Socket) (j : ℕ) : ℕ := (t.sendNext + j) % windowSz

/-- `_tcp_send` stores the bytes it accepts in cells of their own, none of which holds a byte the
worker has not transmitted. -/
def Event.NoOverwrite (w : World) : Event → Prop
  | .send buf =>
    let stored := (tcpSendSection w.tcp buf).2.bytes.length
    (∀ i < stored, ∀ j < w.tcp.pending, storeCell w.tcp i ≠ pendingCell w.tcp j) ∧
      ∀ i < stored, ∀ j < i, storeCell w.tcp i ≠ storeCell w.tcp j
  | _ => True

/-- The credit and the pending bytes fit into the buffer. -/
def CreditOk (w : World) : Prop := w.tcp.pending + w.tcp.txbufavail ≤ windowSz

/-- The fields of a segment have the widths of the header. -/
def Event.OnWire : Event → Prop
  | .segment header _ _ => header.acknum < 2 ^ 32 ∧ header.winsize < 2 ^ 16
  | _ => True

/-- If the event is an acknowledgement, its number is not above `send_next`, and what it leaves in
flight fits into the buffer with the pending bytes. -/
def Event.AckInCredit (w : World) : Event → Prop
  | .segment header _ _ => processed w.tcp header →
      header.acknum ≤ w.tcp.sendNext ∧
        w.tcp.sendNext - header.acknum + w.tcp.pending ≤ windowSz
  | _ => True

/-- `CreditOk` with what it depends on. -/
structure CreditInv (w : World) : Prop where
  live : Live w.tcp
  sendNext : w.tcp.sendNext < 2 ^ 32
  ok : CreditOk w

variable {header : TcpHeader} {data : List UInt8} {bound : Bool}

section Credit

variable {w : World}

theorem CreditInv.of_established (h : Established w) : CreditInv w := by
  refine ⟨.inl h.state, h.sendNext, ?_⟩
  rw [CreditOk, h.pending, h.txbufavail, Nat.zero_add]

theorem tcpAck_credit {t : Socket} (hnext : t.sendNext < 2 ^ 32) (hpending : t.pending ≤ windowSz)
    (hack : header.acknum < 2 ^ 32) :
    t.pending + (tcpAck t header).txbufavail ≤ windowSz ↔
      header.acknum ≤ t.sendNext ∧ t.sendNext - header.acknum + t.pending ≤ windowSz := by
  simp only [tcpAck, sub64, windowSz] at *
  split <;> omega

variable (h : CreditInv w)

include h

theorem CreditInv.pending_le : w.tcp.pending ≤ windowSz :=
  (Nat.le_add_right _ _).trans h.ok

theorem CreditInv.creditOk_segment_iff (hwire : (Event.segment header data bound).OnWire) :
    CreditOk (w.step (.segment header data bound)) ↔
      (Event.segment header data bound).AckInCredit w := by
  obtain ⟨st, rx, rn, win, -, hstep⟩ := segment_transmit h.live header data bound
  rw [hstep, CreditOk, Event.AckInCredit]
  by_cases hp : processed w.tcp header
  · simp only [hp, if_true, forall_const]
    exact tcpAck_credit h.sendNext h.pending_le hwire.1
  · simp only [hp, if_false, false_imp_iff, iff_true, Bool.false_eq_true]
    exact h.ok

theorem CreditInv.segment (hwire : (Event.segment header data bound).OnWire)
    (hcredit : (Event.segment header data bound).AckInCredit w) :
    CreditInv (w.step (.segment header data bound)) := by
  have hok := (h.creditOk_segment_iff hwire).mpr hcredit
  obtain ⟨st, rx, rn, win, hst, hstep⟩ := segment_transmit h.live header data bound
  rw [hstep] at hok ⊢
  refine ⟨hst, ?_, hok⟩
  change (if processed w.tcp header then tcpAck w.tcp header else w.tcp).sendNext < 2 ^ 32
  split <;> exact h.sendNext

theorem CreditInv.stored_le (buf : List UInt8) :
    (tcpSendSection w.tcp buf).2.bytes.length ≤ w.tcp.txbufavail := by
  have hok := h.ok
  have hW : windowSz < 2 ^ 64 := by decide
  rcases h.live with hstate | hstate
  · rw [tcpSendSection_of_established hstate (lt_of_le_of_lt hok hW) buf]
    exact List.length_take_le _ _
  · simp [tcpSendSection, hstate, Outcome.bytes]

theorem CreditInv.send (buf : List UInt8) : CreditInv (w.step (.send buf)) := by
  have hok := h.ok
  have hW : windowSz < 2 ^ 64 := by decide
  rcases h.live with hstate | hstate
  · have hlen : (buf.take w.tcp.txbufavail).length ≤ w.tcp.txbufavail := List.length_take_le _ _
    have hsec := tcpSendSection_of_established hstate (lt_of_le_of_lt hok hW) buf
    simp only [step, hsec]
    refine ⟨.inl hstate, h.sendNext, ?_⟩
    rw [CreditOk] at hok ⊢
    dsimp only
    omega
  · have hstep : w.step (.send buf) = w := by
      simp [step, tcpSendSection, hstate, Outcome.bytes]
    rw [hstep]
    exact h

theorem CreditInv.transmit : CreditInv (w.step .transmit) := by
  have hle := workerLen_le_pending w.tcp
  have hlt : w.tcp.pending < 2 ^ 64 := lt_of_le_of_lt h.pending_le (by decide)
  have hpending : (w.step .transmit).tcp.pending = w.tcp.pending - workerLen w.tcp :=
    sub64_of_le hlt hle
  refine ⟨h.live, u32_lt _, ?_⟩
  have hok := h.ok
  rw [CreditOk] at hok ⊢
  rw [hpending]
  change w.tcp.pending - workerLen w.tcp + w.tcp.txbufavail ≤ windowSz
  omega

theorem CreditInv.recv (len : ℕ) (nonblock : Bool) : CreditInv (w.step (.recv len nonblock)) := by
  obtain ⟨win, hwin⟩ := tcpRecvSection_frame w.tcp len nonblock
  simp only [step, hwin]
  exact ⟨h.live, h.sendNext, h.ok⟩

/-- **Every step but a bad acknowledgement keeps the credit inside the buffer.** -/
theorem CreditInv.step {e : Event} (hwire : e.OnWire) (hcredit : e.AckInCredit w) :
    CreditInv (w.step e) := by
  cases e with
  | segment header data bound => exact h.segment hwire hcredit
  | recv len nonblock => exact h.recv len nonblock
  | send buf => exact h.send buf
  | transmit => exact h.transmit

omit h in
theorem storeCell_eq (t : Socket) (i : ℕ) :
    storeCell t i = (t.sendNext + (t.pending + i)) % windowSz := by
  rw [storeCell, u64_mod_windowSz, Nat.add_mod, u64_mod_windowSz, ← Nat.add_mod]
  congr 1
  omega

theorem CreditInv.noOverwrite (e : Event) : e.NoOverwrite w := by
  cases e with
  | segment | recv | transmit => trivial
  | send buf =>
    have hstored := h.stored_le buf
    have hok := h.ok
    rw [CreditOk] at hok
    constructor
    · intro i hi j hj
      rw [storeCell_eq]
      exact (mod_ne_of_lt (by omega) (by omega)).symm
    · intro i hi j hj
      rw [storeCell_eq, storeCell_eq]
      exact (mod_ne_of_lt (by omega) (by omega)).symm

end Credit

/-- **The credit stays inside the buffer, and nothing that is not transmitted is overwritten, in
exactly those runs in which every acknowledgement that is processed is not above `send_next` and
leaves no more in flight than fits into the buffer with the pending bytes.** The run starts on a
new connection and interleaves sends, transmissions, reads and segments with any acknowledgement
numbers and windows. -/
theorem credit_iff {w : World} (hnew : Established w) {run : List (Event × World)}
    (hrun : Along Step w run) (hwire : Along (fun _ e _ => e.OnWire) w run) :
    After CreditOk w run ∧ Along (fun w e _ => e.NoOverwrite w) w run ↔
      Along (fun w e _ => e.AckInCredit w) w run := by
  have hsteps : ∀ w e w', CreditInv w → Step w e w' ∧ e.OnWire → e.AckInCredit w →
      CreditInv w' := by
    rintro w e _ h ⟨rfl, hw⟩ hcredit
    exact h.step hw hcredit
  constructor
  · rintro ⟨hafter, -⟩
    refine (after_iff_along hsteps (fun _ h => h.ok) ?_ (.of_established hnew)
      (hrun.and hwire)).mp hafter
    rintro w e _ h ⟨rfl, hw⟩ hok
    cases e with
    | recv | send | transmit => trivial
    | segment header data bound => exact (h.creditOk_segment_iff hw).mp hok
  · intro hcredit
    have hinv : After CreditInv w run :=
      (hrun.and hwire).after hsteps (.of_established hnew) hcredit
    refine ⟨hinv.mono fun _ h => h.ok, ?_⟩
    exact Along.of_inv (fun w e w' h hstep hc => ⟨hsteps w e w' h hstep hc, h.noOverwrite e⟩)
      (.of_established hnew) (hrun.and hwire) hcredit

/-- Two bytes are sent and acknowledged in two steps. -/
def creditRun : List (Event × World) :=
  (newConnection 0 0).run [.send [1, 2], .transmit, ackSegment 1, ackSegment 2]

theorem creditRun_ok : After CreditOk (newConnection 0 0) creditRun ∧
    Along (fun w e _ => e.NoOverwrite w) (newConnection 0 0) creditRun := by
  refine (credit_iff (newConnection_established (by decide) (by decide)) (along_run _ _)
    ?_).mpr ?_
  · exact ⟨trivial, trivial, ⟨by decide, by decide⟩, ⟨by decide, by decide⟩, trivial⟩
  · exact ⟨trivial, trivial, fun _ => by decide, fun _ => by decide, trivial⟩

/-- The peer acknowledges a byte that was never sent; then one byte more than the buffer holds is
sent. -/
def forgedRun : List (Event × World) :=
  (newConnection 0 0).run [ackSegment 1, .send (List.replicate (windowSz + 1) 7)]

/-- **A single forged acknowledgement gives credit without bound**: one call of `_tcp_send` runs
over its own bytes. -/
theorem forgedRun_overwrites : Established (newConnection 0 0) ∧
    Along Step (newConnection 0 0) forgedRun ∧
    Along (fun _ e _ => e.OnWire) (newConnection 0 0) forgedRun ∧
    ¬ After CreditOk (newConnection 0 0) forgedRun ∧
    ¬ Along (fun w e _ => e.NoOverwrite w) (newConnection 0 0) forgedRun := by
  refine ⟨newConnection_established (by decide) (by decide), along_run _ _,
    ⟨⟨by decide, by decide⟩, trivial, trivial⟩, fun h => ?_, fun h => ?_⟩
  · have hok : CreditOk ((newConnection 0 0).step (ackSegment 1)) := h.2.1
    revert hok
    unfold CreditOk
    decide
  · have hsend : (Event.send (List.replicate (windowSz + 1) 7)).NoOverwrite
        ((newConnection 0 0).step (ackSegment 1)) := h.2.1
    have hsec := tcpSendSection_of_established
      (t := ((newConnection 0 0).step (ackSegment 1)).tcp) (by decide) (by decide)
      (List.replicate (windowSz + 1) 7)
    simp only [Event.NoOverwrite, hsec, Outcome.bytes, List.length_take, List.length_replicate]
      at hsend
    -- The byte behind the last cell of the ring goes into the first one.
    refine hsend.2 windowSz (by decide) 0 (by decide) ?_
    rw [storeCell_eq, storeCell_eq]
    decide

/-! ## The peer's window -/

/-- If the event is a transmission, the bytes in flight after it are no more than the window the
peer advertised last. -/
def Event.InWindow (e : Event) (w' : World) : Prop :=
  match e with
  | .transmit => inFlight w'.tcp ≤ w'.tcp.sendWin
  | _ => True

/-- If the event is a transmission, nothing is in flight before it, or what is in flight fits into
the peer's window with the pending bytes up to the end of the ring. -/
def Event.RoomInWindow (w : World) : Event → Prop
  | .transmit => inFlight w.tcp = 0 ∨
      inFlight w.tcp + min w.tcp.pending (windowSz - w.tcp.sendNext % windowSz) ≤ w.tcp.sendWin
  | _ => True

/-- What the bound on the bytes in flight depends on. -/
structure WindowInv (w : World) : Prop where
  live : Live w.tcp
  sendNext : w.tcp.sendNext < 2 ^ 32
  sendUnack : w.tcp.sendUnack < 2 ^ 32
  sendWin : w.tcp.sendWin < 2 ^ 16
  flight : inFlight w.tcp < 2 ^ 16

section Window

variable {w : World}

theorem WindowInv.of_established (h : Established w) (hwin : w.tcp.sendWin < 2 ^ 16) :
    WindowInv w := by
  have hflight : inFlight w.tcp = 0 := by
    rw [inFlight, h.sendUnack, sub32_of_le h.sendNext le_rfl, Nat.sub_self]
  refine ⟨.inl h.state, h.sendNext, ?_, hwin, ?_⟩
  · rw [h.sendUnack]
    exact h.sendNext
  · rw [hflight]
    decide

variable (h : WindowInv w)

include h

theorem WindowInv.inFlight_transmit :
    inFlight (w.step .transmit).tcp = inFlight w.tcp + workerLen w.tcp := by
  have hlen : workerLen w.tcp < 2 ^ 16 := by
    rw [workerLen_eq]
    exact lt_of_le_of_lt (min_le_right _ _) h.sendWin
  have hnext := h.sendNext
  have hun := h.sendUnack
  have hflight := h.flight
  change sub32 (u32 (w.tcp.sendNext + workerLen w.tcp)) w.tcp.sendUnack = _
  simp only [inFlight, sub32, u32] at *
  omega

/-- **A transmission stays inside the window exactly if there is room for it.** -/
theorem WindowInv.inWindow_iff (e : Event) : e.InWindow (w.step e) ↔ e.RoomInWindow w := by
  cases e with
  | segment | recv | send => exact Iff.rfl
  | transmit =>
    have hflight := h.inFlight_transmit
    rw [workerLen_eq] at hflight
    change inFlight (w.step .transmit).tcp ≤ w.tcp.sendWin ↔ _
    rw [hflight, Event.RoomInWindow]
    omega

theorem WindowInv.tcpAck (hwin : header.winsize < 2 ^ 16) (hlt : header.acknum < 2 ^ 32)
    (hrange : sub32 header.acknum w.tcp.sendUnack ≤ inFlight w.tcp) :
    WindowInv { w with tcp := tcpAck w.tcp header } := by
  refine ⟨h.live, h.sendNext, hlt, hwin, ?_⟩
  have hnext := h.sendNext
  have hun := h.sendUnack
  have hflight := h.flight
  change sub32 w.tcp.sendNext header.acknum < 2 ^ 16
  simp only [inFlight, sub32] at *
  omega

theorem WindowInv.segment (hwire : (Event.segment header data bound).OnWire)
    (hrange : (Event.segment header data bound).AckInRange w) :
    WindowInv (w.step (.segment header data bound)) := by
  have hack : WindowInv
      { w with tcp := if processed w.tcp header then Tcp.tcpAck w.tcp header else w.tcp } := by
    split
    · next hp => exact h.tcpAck hwire.2 (hrange hp).1 (hrange hp).2
    · exact h
  obtain ⟨st, rx, rn, win, hst, hstep⟩ := segment_transmit h.live header data bound
  rw [hstep]
  exact ⟨hst, hack.sendNext, hack.sendUnack, hack.sendWin, hack.flight⟩

theorem WindowInv.step {e : Event} (hwire : e.OnWire) (hrange : e.AckInRange w)
    (hroom : e.RoomInWindow w) : WindowInv (w.step e) := by
  cases e with
  | segment header data bound => exact h.segment hwire hrange
  | recv len nonblock =>
    obtain ⟨win, hwin⟩ := tcpRecvSection_frame w.tcp len nonblock
    simp only [World.step, hwin]
    exact ⟨h.live, h.sendNext, h.sendUnack, h.sendWin, h.flight⟩
  | send buf =>
    obtain ⟨tx, pending, avail, hsec⟩ := tcpSendSection_frame w.tcp buf
    simp only [World.step, hsec]
    exact ⟨h.live, h.sendNext, h.sendUnack, h.sendWin, h.flight⟩
  | transmit =>
    have hin : inFlight (w.step .transmit).tcp ≤ w.tcp.sendWin := (h.inWindow_iff _).mpr hroom
    exact ⟨h.live, u32_lt _, h.sendUnack, h.sendWin, lt_of_le_of_lt hin h.sendWin⟩

end Window

/-- **The bytes in flight stay inside the peer's window in exactly those runs in which every
transmission starts with nothing in flight, or with room in the window for what is in flight and
the pending bytes up to the end of the ring.** The run starts on a new connection and interleaves
sends, transmissions, reads and segments whose acknowledgement numbers lie between `send_unack`
and `send_next`. -/
theorem window_iff {w : World} (hnew : Established w) (hwin : w.tcp.sendWin < 2 ^ 16)
    {run : List (Event × World)} (hrun : Along Step w run)
    (hwire : Along (fun _ e _ => e.OnWire) w run)
    (hrange : Along (fun w e _ => e.AckInRange w) w run) :
    Along (fun _ e w' => e.InWindow w') w run ↔ Along (fun w e _ => e.RoomInWindow w) w run := by
  refine along_iff_along (I := WindowInv)
    (R := fun w e w' => (Step w e w' ∧ e.OnWire) ∧ e.AckInRange w) ?_ ?_
    (.of_established hnew hwin) ((hrun.and hwire).and hrange)
  · rintro w e _ h ⟨⟨rfl, hw⟩, hr⟩ hroom
    exact h.step hw hr hroom
  · rintro w e _ h ⟨⟨rfl, -⟩, -⟩
    exact h.inWindow_iff e

theorem acknowledgedRun_inWindow :
    Along (fun _ e w' => e.InWindow w') (newConnection 0 0) acknowledgedRun := by
  refine (window_iff (newConnection_established (by decide) (by decide)) (by decide)
    (along_run _ _) ?_ ?_).mpr ?_
  · exact ⟨trivial, trivial, ⟨by decide, by decide⟩, trivial⟩
  · exact ⟨trivial, trivial, fun _ => ⟨by decide, by decide⟩, trivial⟩
  · exact ⟨trivial, Or.inl (by decide), trivial, trivial⟩

/-- The peer's window is two bytes; four bytes are accepted, and the worker runs twice. -/
def secondHelpingRun : List (Event × World) :=
  (newConnection 0 0).run
    [.segment { seqnum := 0, acknum := 0, fin := false, syn := false, rst := false, ack := true,
                winsize := 2 } [] true,
     .send [1, 2, 3, 4], .transmit, .transmit]

/-- **The worker fills the same window twice**: four bytes are in flight, the window is two. -/
theorem secondHelpingRun_not_inWindow : Established (newConnection 0 0) ∧
    Along Step (newConnection 0 0) secondHelpingRun ∧
    Along (fun _ e _ => e.OnWire) (newConnection 0 0) secondHelpingRun ∧
    Along (fun w e _ => e.AckInRange w) (newConnection 0 0) secondHelpingRun ∧
    ¬ Along (fun _ e w' => e.InWindow w') (newConnection 0 0) secondHelpingRun := by
  refine ⟨newConnection_established (by decide) (by decide), along_run _ _,
    ⟨⟨by decide, by decide⟩, trivial, trivial, trivial, trivial⟩,
    ⟨fun _ => ⟨by decide, by decide⟩, trivial, trivial, trivial, trivial⟩, fun h => ?_⟩
  have hin := h.2.2.2.1
  revert hin
  change ¬ inFlight _ ≤ _
  decide

end SeaKernel.Tcp
