import SeaKernel.Net.Tcp

/-!
# The receive stream

What `_tcp_recv` returns is compared with the peer's byte stream. `copy_in_data` stores the
accepted part of a segment at `recv_next` whatever its sequence number: for a segment that starts
at or before `recv_next` that is where it belongs, for one behind a gap it is not.

## Main results

* `copyInData_of_le`: the accepted part of a segment that starts at or before `recv_next`
* `ReceiveInv.step`: the receive buffer continues the bytes delivered
* `orderly_iff`: which connections take in data that is in order
* `delivered_prefix`: without an accepted gap, the bytes delivered are a prefix of the stream
-/

namespace SeaKernel.Tcp

open List Option World Bool

/-- The segment carries the bytes of the stream from `off` on, where the stream's first byte has
sequence number `isn`. A payload is bounded by the 16-bit length of its packet. -/
structure Carries (stream : List UInt8) (isn off : ℕ) (header : TcpHeader) (data : List UInt8) :
    Prop where
  seqnum : header.seqnum = u32 (isn + off)
  bound : off + data.length ≤ stream.length
  short : data.length < 2 ^ 16
  slice : data = (stream.drop off).take data.length

/-- The number of bytes received in order: those delivered and those still in the buffer. -/
def World.received (w : World) : ℕ := w.delivered.length + (windowSz - w.tcp.recvWin)

/-- If the event is a segment whose data passes the window test, the data is a slice of the
stream that starts at or before the position `recv_next` stands for. -/
def Event.NoGap (stream : List UInt8) (isn : ℕ) (w : World) : Event → Prop
  | .segment header data _ =>
    processed w.tcp header → data ≠ [] → inWindow w.tcp header.seqnum data.length →
      ∃ off ≤ w.received, Carries stream isn off header data
  | _ => True

/-! ## Storing a segment -/

section Store

variable {t : Socket} {seq : ℕ} {data : List UInt8}

/-- A segment that starts at or before `recv_next` is accepted only if the window does not reach
over `2 ^ 32` and the segment reaches over `recv_next`. -/
theorem inWindow_of_le (hR : t.recvNext < 2 ^ 32) (hW : t.recvWin < 2 ^ 32)
    (hseq : seq ≤ t.recvNext) (hdata : data ≠ []) (hshort : data.length < 2 ^ 32)
    (h : inWindow t seq data.length) :
    t.recvNext + t.recvWin < 2 ^ 32 ∧ t.recvNext < seq + data.length ∧ 0 < t.recvWin := by
  have hpos : 0 < data.length := length_pos_iff.mpr hdata
  have hlast : sub64 (seq + data.length) 1 = seq + data.length - 1 :=
    sub64_of_le (by omega) (by omega)
  simp only [inWindow, hlast, or_eq_true, and_eq_true, decide_eq_true_eq] at h
  simp only [u32] at h
  omega

theorem copyInData_of_le (hR : t.recvNext < 2 ^ 32) (hW : t.recvWin < 2 ^ 32)
    (hseq : seq ≤ t.recvNext) (hdata : data ≠ []) (hshort : data.length < 2 ^ 32)
    (h : inWindow t seq data.length) :
    copyInData t seq data =
      { t with
        rxbuffer := ringWrite windowSz t.rxbuffer t.recvNext
          ((data.drop (t.recvNext - seq)).take t.recvWin)
        recvNext := t.recvNext + ((data.drop (t.recvNext - seq)).take t.recvWin).length
        recvWin := t.recvWin - ((data.drop (t.recvNext - seq)).take t.recvWin).length } := by
  obtain ⟨hstop, hreach, hopen⟩ := inWindow_of_le hR hW hseq hdata hshort h
  have hskip : (if seq < t.recvNext then sub32 t.recvNext seq else 0) = t.recvNext - seq := by
    split
    · exact sub32_of_le hR hseq
    · omega
  have hstart : (if seq < t.recvNext then t.recvNext else seq) = t.recvNext := by
    split <;> omega
  have hlen : sub64 data.length (t.recvNext - seq) = data.length - (t.recvNext - seq) :=
    sub64_of_le (by omega) (by omega)
  have hsum : u64 (t.recvNext + (data.length - (t.recvNext - seq))) =
      t.recvNext + (data.length - (t.recvNext - seq)) := u64_of_lt (by omega)
  have hwin : sub32 (t.recvNext + t.recvWin) t.recvNext = t.recvWin := by
    rw [sub32_of_le hstop (by omega)]
    omega
  have hcut : (if t.recvNext + (data.length - (t.recvNext - seq)) ≥ t.recvNext + t.recvWin then
      t.recvWin else data.length - (t.recvNext - seq)) =
      ((data.drop (t.recvNext - seq)).take t.recvWin).length := by
    rw [length_take, length_drop]
    split <;> omega
  have htake : (data.drop (t.recvNext - seq)).take
      ((data.drop (t.recvNext - seq)).take t.recvWin).length =
      (data.drop (t.recvNext - seq)).take t.recvWin := by
    rw [length_take, ← take_take, take_length]
  have hle : ((data.drop (t.recvNext - seq)).take t.recvWin).length ≤ t.recvWin :=
    length_take_le _ _
  unfold copyInData
  simp only [h, if_true, hskip, hstart, hlen, u32_of_lt hstop, hsum, hwin, hcut, htake]
  generalize (data.drop (t.recvNext - seq)).take t.recvWin = bytes at hle ⊢
  rw [copyIn_eq _ _ hR]
  dsimp only
  rw [u32_of_lt (show t.recvNext + bytes.length < 2 ^ 32 by omega),
    u32_of_lt (show bytes.length < 2 ^ 32 by omega), sub32_of_le (by omega) hle]

end Store

/-! ## Segments in order -/

/-- The socket with the bytes of a segment behind those received, at any sequence number. -/
def Socket.append (t : Socket) (data : List UInt8) : Socket :=
  { t with
    rxbuffer := ringWrite windowSz t.rxbuffer t.recvNext data
    recvNext := u32 (t.recvNext + data.length)
    recvWin := t.recvWin - data.length }

/-- A segment ends at or before `recv_next`, and starts at most one window before it. -/
def Socket.Before (t : Socket) (seq len : ℕ) : Prop :=
  len ≤ sub32 t.recvNext seq ∧ sub32 t.recvNext seq ≤ t.recvWin

/-- What `copy_in_data` has to do with the next segment and with old ones. -/
def Socket.Orderly (t : Socket) : Prop :=
  (∀ data, data ≠ [] → data.length ≤ t.recvWin → copyInData t t.recvNext data = t.append data) ∧
    ∀ seq data, seq < 2 ^ 32 → data ≠ [] → t.Before seq data.length →
      copyInData t seq data = t

section Orderly

variable {t : Socket} {data : List UInt8}

theorem inWindow_recvNext (hdata : data ≠ []) (hlen : data.length ≤ t.recvWin)
    (hfit : t.recvNext + t.recvWin < 2 ^ 32) : inWindow t t.recvNext data.length := by
  have hpos : 0 < data.length := length_pos_iff.mpr hdata
  have hlt : t.recvNext < u32 (t.recvNext + t.recvWin) := by
    rw [u32_of_lt hfit]
    omega
  simp [inWindow, hlt]

/-- A window that reaches over `2 ^ 32` ends below the sequence number it starts with. -/
theorem not_inWindow_of_wrap {seq len : ℕ} (hR : t.recvNext < 2 ^ 32) (hW : t.recvWin < 2 ^ 32)
    (hwrap : 2 ^ 32 ≤ t.recvNext + t.recvWin) : ¬ inWindow t seq len := by
  have hstop : u32 (t.recvNext + t.recvWin) < t.recvNext := by
    simp only [u32]
    omega
  simp only [inWindow, or_eq_true, and_eq_true, decide_eq_true_eq]
  omega

theorem copyInData_before {seq : ℕ} (hW : t.recvWin ≤ 2 ^ 31)
    (hfit : t.recvNext + t.recvWin < 2 ^ 32) (hseq : seq < 2 ^ 32) (hdata : data ≠ [])
    (hbefore : t.Before seq data.length) : copyInData t seq data = t := by
  have hpos : 0 < data.length := length_pos_iff.mpr hdata
  obtain ⟨hlen, hnear⟩ := hbefore
  refine copyInData_of_not_inWindow ?_
  simp only [inWindow, or_eq_true, and_eq_true, decide_eq_true_eq, u32_of_lt hfit]
  simp only [sub32, sub64] at hlen hnear ⊢
  omega

/-- **Which connections take in data in order.** The sums in the window test are cut to 32 bits,
so that nothing is taken in from a window that reaches over `2 ^ 32`. A window of more than half of
the sequence numbers would hold old segments, too. -/
theorem orderly_iff (t : Socket) (hR : t.recvNext < 2 ^ 32) (hW : t.recvWin < 2 ^ 32) :
    t.Orderly ↔ t.recvNext + t.recvWin < 2 ^ 32 ∧ t.recvWin ≤ 2 ^ 31 := by
  constructor
  · rintro ⟨hnext, hbefore⟩
    have hfit : t.recvNext + t.recvWin < 2 ^ 32 := by
      by_contra hwrap
      have happend := hnext [0] (by simp) (by simp; omega)
      rw [copyInData_of_not_inWindow (not_inWindow_of_wrap hR hW (by omega))] at happend
      have hwin : t.recvWin = t.recvWin - 1 := congrArg Socket.recvWin happend
      omega
    refine ⟨hfit, ?_⟩
    -- In a larger window, the byte a window before `recv_next` is also ahead of it.
    by_contra hlarge
    have hold : t.Before (2 ^ 32 + t.recvNext - t.recvWin) [(0 : UInt8)].length := by
      simp only [Socket.Before, sub32, length_singleton]
      omega
    have hin : inWindow t (2 ^ 32 + t.recvNext - t.recvWin) 1 := by
      simp only [inWindow, or_eq_true, and_eq_true, decide_eq_true_eq, u32_of_lt hfit]
      omega
    have hsame := congrArg Socket.recvNext (hbefore _ [0] (by omega) (by simp) hold)
    have hskip : ¬ 2 ^ 32 + t.recvNext - t.recvWin < t.recvNext := by omega
    have hcount : ∀ n, 0 < n → [(0 : UInt8)].take n = [0] := by
      intro n hn
      exact take_of_length_le hn
    simp only [copyInData, length_singleton, hin, if_true, hskip, if_false, drop_zero,
      u32_of_lt hfit] at hsame
    rw [hcount] at hsame
    · simp only [copyIn, u32] at hsame
      omega
    · split_ifs
      · simp only [sub32]
        omega
      · decide
  · rintro ⟨hfit, hhalf⟩
    refine ⟨fun data hdata hlen => ?_, fun seq data hseq hdata hbefore => ?_⟩
    · rw [copyInData_of_le hR hW le_rfl hdata (by omega) (inWindow_recvNext hdata hlen hfit)]
      rw [Nat.sub_self, drop_zero, take_of_length_le hlen, Socket.append, u32_of_lt (by omega)]
    · exact copyInData_before hhalf hfit hseq hdata hbefore

/-- A fresh connection with the sequence number 7. -/
theorem orderly_newConnection : (newConnection 7 0).tcp.Orderly :=
  (orderly_iff _ (by decide) (by decide)).mpr (by decide)

/-- Just below `2 ^ 32`, the next byte is thrown away. -/
theorem next_byte_lost : ¬ (newConnection (2 ^ 32 - 1) 0).tcp.Orderly := by
  intro h
  have hnext := congrArg Socket.recvNext (h.1 [1] (by decide) (by decide))
  revert hnext
  decide

end Orderly

/-! ## The invariant -/

/-- The receive buffer holds the bytes of the stream that follow the delivered ones, up to the
position `recv_next` stands for, and sequence numbers have not wrapped. -/
structure ReceiveInv (stream : List UInt8) (isn : ℕ) (w : World) : Prop where
  live : Live w.tcp
  window : w.tcp.recvWin ≤ windowSz
  recvNext : w.tcp.recvNext = isn + w.received
  noWrap : w.tcp.recvNext < 2 ^ 32
  bound : w.received ≤ stream.length
  delivered : w.delivered = stream.take w.delivered.length
  holds : RingHolds windowSz w.tcp.rxbuffer (isn + w.delivered.length)
    ((stream.take w.received).drop w.delivered.length)

section Invariant

variable {stream : List UInt8} {isn : ℕ} {w : World}

theorem ReceiveInv.of_established (h : Established w) : ReceiveInv stream w.tcp.recvNext w := by
  have hrec : w.received = 0 := by simp [received, h.delivered, h.recvWin]
  refine ⟨.inl h.state, h.recvWin.le, by omega, h.recvNext, by omega, by simp [h.delivered], ?_⟩
  rw [hrec]
  simpa using ringHolds_nil

variable {header : TcpHeader} {data : List UInt8}

theorem Carries.drop_take {off n : ℕ} (h : Carries stream isn off header data) (hoff : off ≤ n)
    (k : ℕ) :
    (data.drop (n - off)).take k = (stream.drop n).take (min k (data.length - (n - off))) := by
  rw [h.slice, List.drop_take, List.drop_drop, List.take_take, List.length_take,
    length_drop, show off + (n - off) = n by omega]
  congr 2
  have := h.bound
  omega

theorem ReceiveInv.copyInData (h : ReceiveInv stream isn w) {header : TcpHeader}
    {data : List UInt8} (hdata : data ≠ [])
    (hgap : inWindow w.tcp header.seqnum data.length →
      ∃ off ≤ w.received, Carries stream isn off header data) :
    ReceiveInv stream isn { w with tcp := copyInData w.tcp header.seqnum data } := by
  by_cases hin : inWindow w.tcp header.seqnum data.length
  · obtain ⟨off, hoff, hc⟩ := hgap hin
    have hwin := h.window
    have hnext := h.recvNext
    have hwrap := h.noWrap
    have hseq : header.seqnum = isn + off := by
      rw [hc.seqnum]
      exact u32_of_lt (by omega)
    have hle : header.seqnum ≤ w.tcp.recvNext := by omega
    have hwinlt : w.tcp.recvWin < 2 ^ 32 := hwin.trans_lt (by decide)
    have hshort : data.length < 2 ^ 32 := hc.short.trans (by decide)
    obtain ⟨hstop, hreach, -⟩ := inWindow_of_le hwrap hwinlt hle hdata hshort hin
    have hskip : w.tcp.recvNext - header.seqnum = w.received - off := by omega
    rw [copyInData_of_le hwrap hwinlt hle hdata hshort hin, hskip, hc.drop_take hoff]
    -- the number of bytes stored, and where the stream stands after them
    generalize hn : min w.tcp.recvWin (data.length - (w.received - off)) = n
    have hn' : n ≤ w.tcp.recvWin ∧ w.received + n ≤ stream.length := by
      have := hc.bound
      omega
    have hlen : ((stream.drop w.received).take n).length = n := by
      rw [length_take, length_drop]
      omega
    rw [hlen]
    have hrec : w.delivered.length + (windowSz - (w.tcp.recvWin - n)) = w.received + n := by
      unfold received
      omega
    have hdel : w.delivered.length ≤ w.received := by
      unfold received
      omega
    have hold : ((stream.take w.received).drop w.delivered.length).length =
        w.received - w.delivered.length := by
      have := h.bound
      rw [length_drop, length_take]
      omega
    refine ⟨h.live, ?_, ?_, ?_, ?_, h.delivered, ?_⟩
    · dsimp only
      omega
    · simp only [received, hrec]
      omega
    · dsimp only
      omega
    · simp only [received, hrec]
      exact hn'.2
    · simp only [received, hrec]
      have hfit : ((stream.take w.received).drop w.delivered.length).length +
          ((stream.drop w.received).take n).length ≤ windowSz := by
        rw [hold, hlen]
        unfold received
        omega
      have happ := h.holds.append hfit
      rw [hold, show isn + w.delivered.length + (w.received - w.delivered.length) =
        w.tcp.recvNext by omega] at happ
      have hcat : (stream.take w.received).drop w.delivered.length ++
          (stream.drop w.received).take n =
          (stream.take (w.received + n)).drop w.delivered.length := by
        rw [take_add, drop_append_of_le_length]
        rw [length_take]
        have := h.bound
        omega
      rwa [hcat] at happ
  · rw [copyInData_of_not_inWindow hin]
    exact h

variable (h : ReceiveInv stream isn w)

include h

theorem ReceiveInv.segment {bound : Bool}
    (hgap : (Event.segment header data bound).NoGap stream isn w) :
    ReceiveInv stream isn (w.step (.segment header data bound)) := by
  obtain ⟨st, heq, hst⟩ := tcpRecv_of_live h.live header data bound
  have habs : ReceiveInv stream isn { w with tcp := absorb w.tcp header data } := by
    unfold absorb
    split
    · rename_i hproc
      -- the acknowledgement writes no field of the receive side
      have hack : ReceiveInv stream isn { w with tcp := tcpAck w.tcp header } :=
        ⟨h.live, h.window, h.recvNext, h.noWrap, h.bound, h.delivered, h.holds⟩
      split
      · rename_i hpos
        have hdata : data ≠ [] := length_pos_iff.mp hpos
        exact hack.copyInData hdata (hgap hproc hdata)
      · exact hack
    · exact h
  simp only [step, heq]
  exact ⟨hst, habs.window, habs.recvNext, habs.noWrap, habs.bound, habs.delivered, habs.holds⟩

theorem ReceiveInv.recv (len : ℕ) (nonblock : Bool) :
    ReceiveInv stream isn (w.step (.recv len nonblock)) := by
  rcases h.live with hst | hst
  · have hwin := h.window
    have hwrap := h.noWrap
    have hpend : sub64 windowSz w.tcp.recvWin = windowSz - w.tcp.recvWin :=
      sub64_of_le (by decide) hwin
    have hstart : sub64 w.tcp.recvNext (windowSz - w.tcp.recvWin) % windowSz =
        (isn + w.delivered.length) % windowSz := by
      have := h.recvNext
      unfold received at this
      simp only [sub64, windowSz] at *
      omega
    have hold : ((stream.take w.received).drop w.delivered.length).length =
        windowSz - w.tcp.recvWin := by
      have := h.bound
      rw [length_drop, length_take]
      unfold received at *
      omega
    -- the bytes read
    generalize hn : min len (windowSz - w.tcp.recvWin) = n
    have hbytes : recvLoop w.tcp.rxbuffer len (windowSz - w.tcp.recvWin)
        (sub64 w.tcp.recvNext (windowSz - w.tcp.recvWin)) =
        ((stream.take w.received).drop w.delivered.length).take n := by
      rw [recvLoop_eq, ringRead_congr hstart, hn, h.holds.read (by omega)]
    have hlen : (((stream.take w.received).drop w.delivered.length).take n).length = n := by
      rw [length_take]
      omega
    have hstep : w.step (.recv len nonblock) =
        { w with
          tcp := { w.tcp with recvWin := w.tcp.recvWin + n }
          delivered := w.delivered ++
            ((stream.take w.received).drop w.delivered.length).take n } := by
      have hu : u32 (w.tcp.recvWin + n) = w.tcp.recvWin + n :=
        u32_of_lt (by simp only [windowSz] at *; omega)
      simp only [step, tcpRecvSection, hst, hpend, hbytes, hlen, hu]
      split
      · rename_i hnil
        cases nonblock <;> simp [Outcome.bytes, hnil]
      · simp [Outcome.bytes]
    have hle : w.delivered.length + n ≤ w.received := by
      unfold received
      omega
    have hdel : (w.step (.recv len nonblock)).delivered = stream.take (w.delivered.length + n) := by
      rw [hstep, take_add, ← h.delivered, drop_take, take_take,
        show min n (w.received - w.delivered.length) = n by omega]
    have hdellen : (w.step (.recv len nonblock)).delivered.length = w.delivered.length + n := by
      rw [hstep, length_append, hlen]
    have htcp :
        (w.step (.recv len nonblock)).tcp = { w.tcp with recvWin := w.tcp.recvWin + n } := by
      rw [hstep]
    have hrec : (w.step (.recv len nonblock)).received = w.received := by
      unfold received
      rw [hdellen, htcp]
      dsimp only
      omega
    refine ⟨?_, ?_, ?_, ?_, ?_, ?_, ?_⟩
    · rw [htcp]
      exact h.live
    · rw [htcp]
      dsimp only
      omega
    · rw [hrec, htcp]
      exact h.recvNext
    · rw [htcp]
      exact hwrap
    · rw [hrec]
      exact h.bound
    · rw [hdellen]
      exact hdel
    · rw [hrec, hdellen, htcp, ← Nat.add_assoc, ← drop_drop]
      exact h.holds.drop (by omega)
  · have hstep : w.step (.recv len nonblock) = w := by
      simp [step, tcpRecvSection, hst, Outcome.bytes]
    rw [hstep]
    exact h

/-- **Every step that leaves no gap keeps the receive invariant.** -/
theorem ReceiveInv.step {e : Event} (hgap : e.NoGap stream isn w) :
    ReceiveInv stream isn (w.step e) := by
  cases e with
  | segment header data bound => exact h.segment hgap
  | recv len nonblock => exact h.recv len nonblock
  | send buf =>
    obtain ⟨tx, pending, avail, hs⟩ := tcpSendSection_frame w.tcp buf
    simp only [World.step, hs]
    exact ⟨h.live, h.window, h.recvNext, h.noWrap, h.bound, h.delivered, h.holds⟩
  | transmit => exact ⟨h.live, h.window, h.recvNext, h.noWrap, h.bound, h.delivered, h.holds⟩

end Invariant

/-- **Receive stream integrity.** In every run of an established connection in which no segment
is accepted in front of a gap, the bytes returned by `_tcp_recv` are at all times a prefix of
the peer's stream. -/
theorem delivered_prefix (stream : List UInt8) (w : World) (hw : Established w)
    (run : List (Event × World)) (hrun : Along Step w run)
    (hgap : Along (fun w' e _ => e.NoGap stream w.tcp.recvNext w') w run) :
    After (fun w' => w'.delivered <+: stream) w run := by
  have hinv : After (ReceiveInv stream w.tcp.recvNext) w run := by
    refine hrun.after (fun w' e w'' h hs hg => ?_) (ReceiveInv.of_established hw) hgap
    rw [hs]
    exact h.step hg
  refine hinv.mono fun w' h => ?_
  rw [h.delivered]
  exact take_prefix _ _

/-- A data segment with nothing new to acknowledge. -/
def dataSegment (seqnum : ℕ) (data : List UInt8) : Event :=
  .segment
    { seqnum := seqnum, acknum := 0, fin := false, syn := false, rst := false, ack := true,
      winsize := windowSz } data true

/-- Two overlapping segments in order, then a read. -/
def orderedRun : List (Event × World) :=
  (newConnection 7 0).run [dataSegment 7 [1, 2], dataSegment 8 [2, 3, 4], .recv 16 true]

theorem orderedRun_delivered :
    Along Step (newConnection 7 0) orderedRun ∧
      After (fun w => w.delivered <+: [1, 2, 3, 4]) (newConnection 7 0) orderedRun := by
  have hrun : Along Step (newConnection 7 0) orderedRun := along_run _ _
  have hnew : Established (newConnection 7 0) :=
    newConnection_established (by decide) (by decide)
  refine ⟨hrun, delivered_prefix [1, 2, 3, 4] _ hnew _ hrun ⟨?_, ?_, trivial, trivial⟩⟩
  · exact fun _ _ _ => ⟨0, by decide, ⟨rfl, by decide, by decide, rfl⟩⟩
  · exact fun _ _ _ => ⟨1, by decide, ⟨rfl, by decide, by decide, rfl⟩⟩

/-- The segment's data is a slice of the stream. -/
def Event.CarriesSlice (stream : List UInt8) (isn : ℕ) : Event → Prop
  | .segment header data _ => data ≠ [] → ∃ off, Carries stream isn off header data
  | _ => True

/-- The second half of the stream overtakes the first one; a read follows. -/
def overtakingRun : List (Event × World) :=
  (newConnection 7 0).run [dataSegment 9 [3, 4], .recv 16 true]

theorem overtakingRun_delivered :
    Established (newConnection 7 0) ∧ Along Step (newConnection 7 0) overtakingRun ∧
      Along (fun _ e _ => e.CarriesSlice [1, 2, 3, 4] 7) (newConnection 7 0) overtakingRun ∧
      (overtakingRun.map fun x => x.2.delivered) = [[], [3, 4]] ∧
      ¬ After (fun w => w.delivered <+: [1, 2, 3, 4]) (newConnection 7 0) overtakingRun := by
  refine ⟨newConnection_established (by decide) (by decide), along_run _ _,
    ⟨?_, trivial, trivial⟩, by decide, ?_⟩
  · exact fun _ => ⟨2, rfl, by decide, by decide, rfl⟩
  · rintro ⟨-, -, h, -⟩
    revert h
    decide

end SeaKernel.Tcp
