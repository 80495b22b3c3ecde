import SeaKernel.Net.ReceiveOwnership

/-!
# What the receive path reads

The handlers take lengths from the packet (the IPv6 length field, the UDP length field, the data
offset of a TCP segment, the lengths of ICMP options) and compare none of them with the length that
was received. The result says for which frames all reads stay inside the frame and all copies inside
their destinations, whatever sockets and neighbours there are and whatever calls take packets off
queues.

The condition of a frame is the conjunction of the conditions of the handlers that it comes to.
Raw sockets are a case of their own: the duplicate they get refers to the buffer of the packet it
was made from, so the read is right only if that packet is never released.

## Main results

* `routerAdvert_fine_iff`, `neighborAdvert_fine_iff`, `neighborSolicit_fine_iff`: ICMP messages
* `copyInDataReads_fine_iff`: the payload of a segment, over all states of the connection
* `safe_iff`: which frames are safe
-/

namespace SeaKernel.Receive

open Ipv6 Logged Event

/-- A read is below the received length, and a copy fits its destination. -/
def Event.Ok (f : Frame) : Event → Prop
  | .read off len => ∀ i < len, off + i < f.length
  | .copy len cap => len ≤ cap
  | _ => True

/-- An event and the call that takes the packet off the queue, if it is put on one. The buffer of a
packet that is released may hold anything by the time of that call. -/
def Event.Fine (f : Frame) (released : Prop) (e : Event) : Prop :=
  e.Ok f ∧ ∀ header, (¬released → header = f.data) → ∀ length srclen,
    (e.consumer f header length srclen).Each (Event.Ok f)

/-- **Every read of the computation is inside the frame, and every copy inside its destination**;
so are those of the calls that take the packet off the queues. -/
def Safe (f : Frame) (x : Proc Unit) : Prop := x.Each (Event.Fine f (Released x.log))

variable {off len sock : ℕ}

section Events

variable {f : Frame} {released : Prop}

theorem ok_read_iff : (Event.read off len).Ok f ↔ len = 0 ∨ off + len ≤ f.length := by
  unfold Event.Ok
  constructor
  · intro h
    rcases Nat.eq_zero_or_pos len with hzero | hpos
    · exact .inl hzero
    · have hlast := h (len - 1) (by omega)
      exact .inr (by omega)
  · intro h i hi
    omega

@[simp] theorem ok_copy_iff {cap : ℕ} : (Event.copy len cap).Ok f ↔ len ≤ cap := Iff.rfl

theorem fine_read_iff : (Event.read off len).Fine f released ↔ len = 0 ∨ off + len ≤ f.length := by
  rw [← ok_read_iff]
  exact and_iff_left fun _ _ _ _ => each_pure

theorem fine_copy_iff {cap : ℕ} : (Event.copy len cap).Fine f released ↔ len ≤ cap :=
  and_iff_left fun _ _ _ _ => each_pure

theorem fine_packetGet : Event.packetGet.Fine f released := ⟨trivial, fun _ _ _ _ => each_pure⟩

theorem fine_packetPut : Event.packetPut.Fine f released := ⟨trivial, fun _ _ _ _ => each_pure⟩

theorem fine_neighbor : (Event.packetQueue .neighbor).Fine f released :=
  ⟨trivial, fun _ _ _ _ => each_pure⟩

theorem fine_sockGet (sock : ℕ) : (Event.sockGet sock).Fine f released :=
  ⟨trivial, fun _ _ _ _ => each_pure⟩

theorem fine_sockPut (sock : ℕ) : (Event.sockPut sock).Fine f released :=
  ⟨trivial, fun _ _ _ _ => each_pure⟩

theorem fine_pendCon_iff :
    (Event.packetQueue (.pendCon sock)).Fine f released ↔ dataOff + 8 ≤ f.length := by
  have hread : (startEstablish).Each (Event.Ok f) ↔ dataOff + 8 ≤ f.length := by
    unfold startEstablish
    rw [each_observe, ok_read_iff]
    omega
  constructor
  · rintro ⟨-, h⟩
    exact hread.mp (h f.data (fun _ => rfl) 0 0)
  · intro h
    exact ⟨trivial, fun _ _ _ _ => hread.mpr h⟩

/-- The length field of a datagram. -/
abbrev Frame.udplen (f : Frame) : ℕ := f.get16 (dataOff + 4)

/-- The condition of a datagram that is received: the length field counts the header. -/
def Frame.DatagramFits (f : Frame) : Prop :=
  dataOff + 6 ≤ f.length ∧
    (f.udplen = 8 ∨ 8 < f.udplen ∧ dataOff + f.udplen ≤ f.length)

theorem fine_udp_iff : (Event.packetQueue (.udp sock)).Fine f released ↔ f.DatagramFits := by
  have hlen : f.udplen < 2 ^ 16 := fromBig16_lt ..
  have hsize : f.length ≤ 4096 := f.length_le
  have hread : ∀ length srclen, (udpRecvfrom f length srclen).Each (Event.Ok f) ↔
      dataOff + 6 ≤ f.length ∧ (min length (sub64 f.udplen 8) = 0 ∨
        dataOff + 8 + min length (sub64 f.udplen 8) ≤ f.length) := by
    intro length srclen
    have hmsg : min length (sub64 f.udplen 8) ≤ length := min_le_left ..
    have hsrc : min srclen 28 ≤ srclen := min_le_left ..
    unfold udpRecvfrom
    rw [each_observe_bind, each_observe_bind, each_observe_bind, each_observe, ok_read_iff,
      ok_read_iff, ok_copy_iff, ok_copy_iff, and_iff_left hsrc, and_iff_left hmsg]
    exact and_congr_left' (by omega)
  unfold Frame.DatagramFits
  constructor
  · rintro ⟨-, h⟩
    have hall := (hread (2 ^ 64) 0).mp (h f.data (fun _ => rfl) (2 ^ 64) 0)
    simp only [sub64] at hall
    omega
  · rintro ⟨hhead, hfits⟩
    refine ⟨trivial, fun _ _ length srclen => (hread length srclen).mpr ⟨hhead, ?_⟩⟩
    rcases hfits with heq | ⟨hlt, hle⟩
    · left
      rw [heq]
      simp [sub64]
    · right
      rw [sub64_of_le (by omega) (by omega)]
      omega

theorem fine_rawQueue_iff (hhead : dataOff ≤ f.length) :
    (Event.rawQueue sock).Fine f released ↔ ¬released ∧ dataOff + f.plen ≤ f.length := by
  have hsize : f.length ≤ 4096 := f.length_le
  have hdata : dataOff = 54 := rfl
  have hread : ∀ header length srclen, (ipv6Recvfrom header length srclen).Each (Event.Ok f) ↔
      (min length (fromBig16 (header (headlen + 4)) (header (headlen + 5))) = 0 ∨
        dataOff + min length (fromBig16 (header (headlen + 4)) (header (headlen + 5))) ≤
          f.length) := by
    intro header length srclen
    have hfield : headlen + 4 + 2 ≤ f.length := by
      have : headlen = 14 := rfl
      omega
    unfold ipv6Recvfrom
    simp only [each_observe_bind, each_observe, ok_read_iff, ok_copy_iff, min_le_left, and_true,
      hfield, or_true, true_and]
  constructor
  · rintro ⟨-, h⟩
    have hheld : ¬released := by
      intro hreleased
      have hfull := (hread (fun _ => 0xff) (2 ^ 16) 0).mp
        (h (fun _ => 0xff) (fun hnot => absurd hreleased hnot) (2 ^ 16) 0)
      have hmax : fromBig16 0xff 0xff = 65535 := rfl
      rw [hmax] at hfull
      omega
    have hown := (hread f.data (2 ^ 16) 0).mp (h f.data (fun _ => rfl) (2 ^ 16) 0)
    have hlt : f.plen < 2 ^ 16 := fromBig16_lt ..
    change min (2 ^ 16) f.plen = 0 ∨ dataOff + min (2 ^ 16) f.plen ≤ f.length at hown
    exact ⟨hheld, by omega⟩
  · rintro ⟨hheld, hfits⟩
    refine ⟨trivial, fun header hheader length srclen => (hread header length srclen).mpr ?_⟩
    rw [hheader hheld]
    change min length f.plen = 0 ∨ dataOff + min length f.plen ≤ f.length
    omega

end Events

/-! ## ICMP messages -/

section Icmp

variable {f : Frame} {released : Prop} (hhead : dataOff ≤ f.length)
include hhead

theorem fine_header_read (h : off + len ≤ dataOff) : (Event.read off len).Fine f released :=
  fine_read_iff.mpr (.inr (h.trans hhead))

theorem fine_length : (read (headlen + 4) 2).Fine f released := fine_header_read hhead (by decide)

theorem fine_next : (read (headlen + 6) 1).Fine f released := fine_header_read hhead (by decide)

theorem fine_source : (read (headlen + 8) 16).Fine f released := fine_header_read hhead (by decide)

theorem ipv6DropPacket_fine : ipv6DropPacket.Each (Event.Fine f released) := by
  unfold ipv6DropPacket
  rw [each_observe_bind, each_observe]
  exact ⟨fine_header_read hhead (by decide), fine_packetPut⟩

theorem ipv6GenChecksumReads_fine_iff :
    (ipv6GenChecksumReads f).Each (Event.Fine f released) ↔ dataOff + f.plen ≤ f.length := by
  unfold ipv6GenChecksumReads
  rw [each_observe_bind, each_observe_bind, each_observe_bind, each_observe]
  have haddr : (read (headlen + 8) 32).Fine f released := fine_header_read hhead (by decide)
  simp only [fine_length hhead, haddr, fine_next hhead, true_and, fine_read_iff]
  change f.plen = 0 ∨ dataOff + f.plen ≤ f.length ↔ dataOff + f.plen ≤ f.length
  omega

theorem ipv6ReplyPacket_fine_iff (reachable : Bool) :
    (ipv6ReplyPacket f reachable).Each (Event.Fine f released) ↔ dataOff + f.plen ≤ f.length := by
  have hlast : (if reachable then tell .packetPut else tell (.packetQueue .neighbor) :
      Proc Unit).Each (Event.Fine f released) := by
    cases reachable with
    | true => exact each_observe.mpr fine_packetPut
    | false => exact each_observe.mpr fine_neighbor
  unfold ipv6ReplyPacket
  rw [each_bind, ipv6GenChecksumReads_fine_iff hhead]
  exact and_iff_left fun _ _ => hlast

omit hhead in
/-- An option with a link-layer address has room for six bytes: its length is 1, in units of
eight. -/
theorem copyLinkAddress_fine_iff (o : ℕ) : (copyLinkAddress f o).Each (Event.Fine f released) ↔
      (f.data (o + 1)).toNat = 1 ∧ o + 8 ≤ f.length := by
  have hlt := (f.data (o + 1)).toNat_lt
  unfold copyLinkAddress
  rw [each_observe_bind]
  dsimp only
  rw [each_observe_bind, each_observe, fine_read_iff, fine_read_iff, fine_copy_iff]
  simp only [sub64]
  omega

/-- The condition of an option of a router advertisement. -/
def Frame.RouterOptionFits (f : Frame) (o : ℕ) : Prop :=
  o + 2 ≤ f.length ∧ (f.data o = 1 → (f.data (o + 1)).toNat = 1 ∧ o + 8 ≤ f.length) ∧
    (f.data o = 3 → o + 32 ≤ f.length)

theorem routerOption_fine_iff (type : UInt8) (o : ℕ) (s : Bool × Option ℕ) :
    (routerOption f type o s).Each (Event.Fine f released) ↔
      (type = 1 → (f.data (o + 1)).toNat = 1 ∧ o + 8 ≤ f.length) ∧
        (type = 3 → o + 32 ≤ f.length) := by
  unfold routerOption
  by_cases h1 : type = 1
  · simp [h1, each_bind, copyLinkAddress_fine_iff, fine_source hhead]
  · by_cases h3 : type = 3
    · simp [h3, fine_read_iff]
      omega
    · simp [h1, h3]

theorem routerLoop_fine_iff :
    (∀ rounds, (optionLoop f (dataOff + f.plen) (fun _ => false) (routerOption f) rounds
      (dataOff + 16) (false, none)).Each (Event.Fine f released)) ↔
      ∀ o, f.RouterWalk o → f.RouterOptionFits o := by
  rw [optionLoop_each_iff (routerOption_isSome f) (routerOption_fine_iff hhead)]
  refine forall₂_congr fun o _ => ?_
  simp only [fine_read_iff, true_imp_iff]
  constructor
  · rintro ⟨-, hbody, hnext⟩
    exact ⟨by omega, hbody⟩
  · rintro ⟨hnext, hbody⟩
    exact ⟨by omega, hbody, by omega⟩

theorem routerAdvert_fine_iff : (∀ rounds, (routerAdvert f rounds).Each (Event.Fine f released)) ↔
      dataOff + 16 ≤ f.length ∧ ∀ o, f.RouterWalk o → f.RouterOptionFits o := by
  have hunfold : ∀ rounds, (routerAdvert f rounds).Each (Event.Fine f released) ↔
      dataOff + 16 ≤ f.length ∧
      (optionLoop f (dataOff + f.plen) (fun _ => false) (routerOption f) rounds (dataOff + 16)
        (false, none)).Each (Event.Fine f released) ∧
      ∀ s, (optionLoop f (dataOff + f.plen) (fun _ => false) (routerOption f) rounds
        (dataOff + 16) (false, none)).result = some s →
        (routerAdd s).Each (Event.Fine f released) := by
    intro rounds
    unfold routerAdvert
    rw [each_observe_bind, each_observe_bind, each_bind, and_iff_right (fine_length hhead),
      fine_read_iff]
    exact and_congr (by omega) Iff.rfl
  rw [← routerLoop_fine_iff hhead]
  constructor
  · intro h
    exact ⟨((hunfold 0).mp (h 0)).1, fun rounds => ((hunfold rounds).mp (h rounds)).2.1⟩
  · rintro ⟨hheader, hloop⟩ rounds
    refine (hunfold rounds).mpr ⟨hheader, hloop rounds, ?_⟩
    intro s hs
    obtain ⟨-, -, hoffset⟩ := routerLoop_result hs
    have hfits := (routerLoop_fine_iff hhead).mp hloop
    unfold routerAdd
    split
    · next o =>
      -- the offset is that of a prefix which the loop has read
      obtain hnone | ⟨hwalk, htype⟩ := hoffset o rfl
      · cases hnone
      · have hprefix := (hfits o hwalk).2.2 htype
        simp only [each_observe_bind, each_observe, fine_read_iff]
        omega
    · exact ipv6DropPacket_fine hhead

/-- The condition of an option of a neighbour advertisement. -/
def Frame.AdvertOptionFits (f : Frame) (o : ℕ) : Prop :=
  if f.data o = 2 then (f.data (o + 1)).toNat = 1 ∧ o + 8 ≤ f.length else o + 2 ≤ f.length

omit hhead in
theorem Walk.le {stop : ℕ} {ends : UInt8 → Bool} {o o' : ℕ} (h : Walk f stop ends o o') :
    o ≤ o' := by
  induction h with
  | here => exact le_rfl
  | next _ _ _ ih => omega

theorem advertLoop_fine_iff :
    (∀ rounds, (optionLoop f (dataOff + f.plen) (· = 2) (advertOption f) rounds
      (dataOff + 24) ()).Each (Event.Fine f released)) ↔
      ∀ o, f.AdvertWalk o → f.AdvertOptionFits o := by
  have hbody : ∀ type o s, (advertOption f type o s).Each (Event.Fine f released) ↔
      (type = 2 → ((f.data (o + 1)).toNat = 1 ∧ o + 8 ≤ f.length) ∧ dataOff + 24 ≤ f.length) := by
    intro type o s
    unfold advertOption
    split
    · next h2 =>
      rw [each_bind, copyLinkAddress_fine_iff]
      simp [h2, each_observe, fine_read_iff, copyLinkAddress_result, and_assoc]
    · next h2 => simp [h2]
  rw [optionLoop_each_iff (advertOption_isSome f) hbody]
  refine forall₂_congr fun o hwalk => ?_
  have hge := hwalk.le
  unfold Frame.AdvertOptionFits
  simp only [fine_read_iff]
  split
  · next h2 =>
    -- the link-layer address ends the loop before the next length is read
    constructor
    · rintro ⟨-, hbody, -⟩
      exact (hbody h2).1
    · intro h
      exact ⟨by omega, fun _ => ⟨h, by omega⟩, fun hends => absurd h2 (by simpa using hends)⟩
  · next h2 =>
    constructor
    · rintro ⟨-, -, hnext⟩
      have hlength := hnext (by simpa using h2)
      omega
    · intro h
      exact ⟨by omega, fun htype => absurd htype h2, fun _ => by omega⟩

theorem neighborAdvert_fine_iff :
    (∀ rounds, (neighborAdvert f rounds).Each (Event.Fine f released)) ↔
      (f.plen ≠ 24 → ∀ o, f.AdvertWalk o → f.AdvertOptionFits o) := by
  have hput : (tell .packetPut : Proc Unit).Each (Event.Fine f released) :=
    each_observe.mpr fine_packetPut
  unfold neighborAdvert
  simp only [each_observe_bind, fine_length hhead, true_and]
  by_cases hlen : f.plen = 24
  · simp only [hlen, if_true, ne_eq, not_true_eq_false, false_imp_iff, iff_true]
    exact fun _ => ipv6DropPacket_fine hhead
  · rw [← advertLoop_fine_iff hhead]
    simp only [hlen, if_false, ne_eq, not_false_eq_true, true_imp_iff]
    refine forall_congr' fun rounds => ?_
    rw [each_bind]
    exact and_iff_left fun _ _ => hput

/-- The condition of a neighbour solicitation for the card. -/
def Frame.SolicitFits (f : Frame) : Prop :=
  f.plen ≠ 24 → dataOff + 25 ≤ f.length ∧
    (f.data (dataOff + 24) = 1 → (f.data (dataOff + 25)).toNat = 1 ∧ dataOff + 32 ≤ f.length)

theorem solicitOption_fine_iff (reachable : Bool) :
    (solicitOption f reachable).Each (Event.Fine f released) ↔ f.SolicitFits := by
  unfold solicitOption Frame.SolicitFits
  rw [each_observe_bind, and_iff_right (fine_length hhead)]
  by_cases hlen : f.plen = 24
  · simp [hlen]
  · simp only [hlen, if_false, ne_eq, not_false_eq_true, true_imp_iff, each_observe_bind,
      fine_read_iff]
    refine and_congr (by omega) ?_
    split
    · next h1 => simp [h1, each_bind, copyLinkAddress_fine_iff, fine_source hhead, Nat.add_assoc]
    · next h1 => simp [h1]

theorem neighborSolicit_fine_iff (nd : NicData) (w : Tables) (hsum : dataOff + f.plen ≤ f.length) :
    (neighborSolicit f nd w).Each (Event.Fine f released) ↔
      dataOff + 24 ≤ f.length ∧ (nd.owns (memread f.data (dataOff + 8) 16) → f.SolicitFits) := by
  have hcopy : (copy 6 (bufferSize - (dataOff + 26))).Fine f released :=
    fine_copy_iff.mpr (by decide)
  have hreply : ∀ r, (ipv6ReplyPacket f r).Each (Event.Fine f released) :=
    fun r => (ipv6ReplyPacket_fine_iff hhead r).mpr hsum
  unfold neighborSolicit
  rw [each_observe_bind, fine_read_iff]
  refine and_congr (by omega) ?_
  split
  · next howns =>
    simp only [howns, true_imp_iff]
    rw [each_observe_bind, and_iff_right (fine_source hhead), each_bind,
      solicitOption_fine_iff hhead]
    refine and_iff_left fun r _ => ?_
    rw [each_observe_bind]
    exact ⟨hcopy, hreply r⟩
  · next howns => exact iff_of_true (ipv6DropPacket_fine hhead) fun h => absurd h howns

/-- The condition of an ICMP message. -/
structure Frame.IcmpFits (f : Frame) (nd : NicData) : Prop where
  header : dataOff + 1 ≤ f.length
  checksum : dataOff + f.plen ≤ f.length
  router : f.icmpType = 134 →
    dataOff + 16 ≤ f.length ∧ ∀ o, f.RouterWalk o → f.RouterOptionFits o
  advert : f.icmpType = 136 → f.plen ≠ 24 → ∀ o, f.AdvertWalk o → f.AdvertOptionFits o
  solicit : f.icmpType = 135 → dataOff + 24 ≤ f.length ∧
    (nd.owns (memread f.data (dataOff + 8) 16) → f.SolicitFits)

theorem icmp6Receive_fine_iff (nd : NicData) (w : Tables) :
    (∀ rounds, (icmp6Receive f nd w rounds).Each (Event.Fine f released)) ↔ f.IcmpFits nd := by
  have hunfold : ∀ rounds, (icmp6Receive f nd w rounds).Each (Event.Fine f released) ↔
      dataOff + f.plen ≤ f.length ∧ dataOff + 1 ≤ f.length ∧
        (icmp6Message f nd w rounds f.icmpType).Each (Event.Fine f released) := by
    intro rounds
    have hresult : (ipv6GenChecksumReads f).result = some () := rfl
    unfold icmp6Receive
    rw [each_bind, ipv6GenChecksumReads_fine_iff hhead, hresult]
    simp only [forall_const, each_observe_bind, fine_read_iff, one_ne_zero, false_or]
  simp only [hunfold, forall_and, forall_const]
  constructor
  · rintro ⟨hsum, hheader, h⟩
    unfold icmp6Message at h
    refine ⟨hheader, hsum, ?_, ?_, ?_⟩
    · intro htype
      simp only [htype] at h
      exact (routerAdvert_fine_iff hhead).mp h
    · intro htype
      simp only [htype] at h
      exact (neighborAdvert_fine_iff hhead).mp h
    · intro htype
      simp only [htype] at h
      exact (neighborSolicit_fine_iff hhead nd w hsum).mp (h 0)
  · rintro ⟨hheader, hsum, hrouter, hadvert, hsolicit⟩
    refine ⟨hsum, hheader, ?_⟩
    intro rounds
    unfold icmp6Message
    split_ifs with hecho h134 h136 h135
    · rw [each_observe_bind]
      exact ⟨fine_source hhead, (ipv6ReplyPacket_fine_iff hhead _).mpr hsum⟩
    · exact (routerAdvert_fine_iff hhead).mpr (hrouter h134) rounds
    · exact (neighborAdvert_fine_iff hhead).mpr (hadvert h136) rounds
    · exact (neighborSolicit_fine_iff hhead nd w hsum).mpr (hsolicit h135)
    · exact ipv6DropPacket_fine hhead

end Icmp

/-! ## The payload of a segment -/

section Payload

variable {f : Frame} {released : Prop} {t : Tcp.Socket} {seq len : ℕ}

/-- The bytes of a payload that some connection takes: all of them, unless the sequence numbers
reach `2 ^ 32`, where no window goes on. -/
def takenMax (seq len : ℕ) : ℕ := if seq + len < 2 ^ 32 then len else 2 ^ 32 - 1 - seq

theorem inWindow_iff (hnext : t.recvNext < 2 ^ 32) (hwin : t.recvWin ≤ Tcp.windowSz)
    (hseq : seq < 2 ^ 32) (hpos : 0 < len) (hlen : len < 2 ^ 16) :
    Tcp.inWindow t seq len ↔ t.recvNext + t.recvWin < 2 ^ 32 ∧
      (t.recvNext ≤ seq ∧ seq < t.recvNext + t.recvWin ∨
        t.recvNext < seq + len ∧ seq + len ≤ t.recvNext + t.recvWin) := by
  have hsz : Tcp.windowSz = 16384 := rfl
  have hsub : sub64 (seq + len) 1 = seq + len - 1 := sub64_of_le (by omega) (by omega)
  unfold Tcp.inWindow
  rw [hsub]
  simp only [ge_iff_le, Bool.or_eq_true, Bool.and_eq_true, decide_eq_true_eq]
  rcases Nat.lt_or_ge (t.recvNext + t.recvWin) (2 ^ 32) with hwrap | hwrap
  · rw [u32_of_lt hwrap]
    omega
  · have hstop : u32 (t.recvNext + t.recvWin) < t.recvNext := by
      simp only [u32]
      omega
    omega

theorem copyExtent_of_lt (hwrap : t.recvNext + t.recvWin < 2 ^ 32) (hlen : len < 2 ^ 16)
    (hlt : seq < t.recvNext) (hle : t.recvNext ≤ seq + len) :
    Tcp.copyExtent t seq len = (t.recvNext - seq, min t.recvWin (seq + len - t.recvNext)) := by
  unfold Tcp.copyExtent
  dsimp only
  rw [u32_of_lt hwrap, if_pos hlt, if_pos hlt, sub32_of_le (by omega) (by omega),
    sub64_of_le (by omega) (by omega), u64_of_lt (by omega), sub32_of_le (by omega) (by omega)]
  refine Prod.ext rfl ?_
  dsimp only
  split <;> omega

theorem copyExtent_of_ge (hwrap : t.recvNext + t.recvWin < 2 ^ 32) (hlen : len < 2 ^ 64)
    (hge : ¬seq < t.recvNext) :
    Tcp.copyExtent t seq len =
      (0, if u64 (seq + len) ≥ t.recvNext + t.recvWin then sub32 (t.recvNext + t.recvWin) seq
        else len) := by
  unfold Tcp.copyExtent
  dsimp only
  rw [u32_of_lt hwrap, if_neg hge, if_neg hge, sub64_of_le hlen (Nat.zero_le _), Nat.sub_zero]

theorem copyExtent_le (hnext : t.recvNext < 2 ^ 32) (hwin : t.recvWin ≤ Tcp.windowSz)
    (hseq : seq < 2 ^ 32) (hpos : 0 < len) (hlen : len < 2 ^ 16) (hin : Tcp.inWindow t seq len) :
    (Tcp.copyExtent t seq len).1 + (Tcp.copyExtent t seq len).2 ≤ takenMax seq len := by
  rw [inWindow_iff hnext hwin hseq hpos hlen] at hin
  obtain ⟨hwrap, hin⟩ := hin
  unfold takenMax
  by_cases hlt : seq < t.recvNext
  · rw [copyExtent_of_lt hwrap hlen hlt (by omega)]
    dsimp only
    split <;> omega
  · rw [copyExtent_of_ge hwrap (by omega) hlt, u64_of_lt (by omega)]
    dsimp only
    split
    · rw [sub32_of_le hwrap (by omega)]
      split <;> omega
    · split <;> omega

theorem exists_window (recvNext recvWin : ℕ) :
    ∃ t : Tcp.Socket, t.state = .established ∧ t.recvNext = recvNext ∧ t.recvWin = recvWin :=
  ⟨⟨.established, 0, 0, recvNext, recvWin, 0, fun _ => 0, fun _ => 0, 0, 0⟩, rfl, rfl, rfl⟩

/-- A connection that a segment can meet. -/
structure Meets (t : Tcp.Socket) (seq len : ℕ) : Prop where
  state : t.state = .established
  recvNext : t.recvNext < 2 ^ 32
  recvWin : t.recvWin ≤ Tcp.windowSz
  inWindow : Tcp.inWindow t seq len

variable (hseq : seq < 2 ^ 32)

include hseq

theorem exists_copyExtent (hlen : len < 2 ^ 16) (hpos : 0 < takenMax seq len) :
    ∃ t, Meets t seq len ∧ 0 < (Tcp.copyExtent t seq len).2 ∧ min (takenMax seq len) Tcp.windowSz ≤
        (Tcp.copyExtent t seq len).1 + (Tcp.copyExtent t seq len).2 := by
  have hsz : Tcp.windowSz = 16384 := rfl
  unfold takenMax at hpos ⊢
  split at hpos
  · next hsum =>
    -- the window is the last byte
    obtain ⟨t, hstate, hnext, hwin⟩ := exists_window (seq + len - 1) 1
    have hwrap : t.recvNext + t.recvWin < 2 ^ 32 := by omega
    have hin : Tcp.inWindow t seq len := by
      rw [inWindow_iff (by omega) (by omega) hseq hpos hlen]
      omega
    refine ⟨t, ⟨hstate, by omega, by omega, hin⟩, ?_⟩
    rw [if_pos hsum]
    by_cases hlt : seq < t.recvNext
    · rw [copyExtent_of_lt hwrap hlen hlt (by omega)]
      dsimp only
      omega
    · rw [copyExtent_of_ge hwrap (by omega) hlt, u64_of_lt (by omega), if_pos (by omega),
        sub32_of_le hwrap (by omega)]
      dsimp only
      omega
  · next hsum =>
    -- the window ends at the last sequence number
    obtain ⟨t, hstate, hnext, hwin⟩ := exists_window seq (min (2 ^ 32 - 1 - seq) Tcp.windowSz)
    have hwrap : t.recvNext + t.recvWin < 2 ^ 32 := by omega
    have hin : Tcp.inWindow t seq len := by
      rw [inWindow_iff (by omega) (by omega) hseq (by omega) hlen]
      omega
    refine ⟨t, ⟨hstate, by omega, by omega, hin⟩, ?_⟩
    rw [if_neg hsum, copyExtent_of_ge hwrap (by omega) (by omega), u64_of_lt (by omega),
      if_pos (by omega), sub32_of_le hwrap (by omega)]
    dsimp only
    omega

/-- A data offset behind the end of the segment lets some connection read on for at least a
window. -/
theorem exists_copyExtent_of_lt (hoff : off ≤ 60) (hlt : len < off) :
    ∃ t, Meets t seq (sub64 len off) ∧ Tcp.windowSz ≤ (Tcp.copyExtent t seq (sub64 len off)).2 := by
  have hsz : Tcp.windowSz = 16384 := rfl
  have hlarge : sub64 len off = 2 ^ 64 - (off - len) := by
    simp only [sub64]
    omega
  rw [hlarge]
  rcases Nat.lt_or_ge seq 100 with hsmall | hbig
  · -- the segment starts where the window does
    obtain ⟨t, hstate, hnext, hwin⟩ := exists_window seq Tcp.windowSz
    have hwrap : t.recvNext + t.recvWin < 2 ^ 32 := by omega
    have hin : Tcp.inWindow t seq (2 ^ 64 - (off - len)) := by
      unfold Tcp.inWindow
      rw [u32_of_lt hwrap]
      simp only [ge_iff_le, Bool.or_eq_true, Bool.and_eq_true, decide_eq_true_eq]
      omega
    refine ⟨t, ⟨hstate, by omega, by omega, hin⟩, ?_⟩
    rw [copyExtent_of_ge hwrap (by omega) (by omega)]
    dsimp only
    split
    · rw [sub32_of_le hwrap (by omega)]
      omega
    · omega
  · -- the segment ends in front of its start, and the window there
    obtain ⟨t, hstate, hnext, hwin⟩ := exists_window (seq - 100) 100
    have hwrap : t.recvNext + t.recvWin < 2 ^ 32 := by omega
    have hend : sub64 (seq + (2 ^ 64 - (off - len))) 1 = seq - (off - len) - 1 := by
      simp only [sub64]
      omega
    have hin : Tcp.inWindow t seq (2 ^ 64 - (off - len)) := by
      unfold Tcp.inWindow
      rw [u32_of_lt hwrap, hend]
      simp only [ge_iff_le, Bool.or_eq_true, Bool.and_eq_true, decide_eq_true_eq]
      omega
    have hsum : u64 (seq + (2 ^ 64 - (off - len))) = seq - (off - len) := by
      simp only [u64]
      omega
    refine ⟨t, ⟨hstate, by omega, by omega, hin⟩, ?_⟩
    rw [copyExtent_of_ge hwrap (by omega) (by omega), hsum, if_neg (by omega)]
    dsimp only
    omega

/-- **The payload of a segment is safe for every connection** exactly if the data offset is inside
the segment and what can be taken is inside the frame. -/
theorem copyInDataReads_fine_iff (hlen : len < 2 ^ 16) (hoff : off ≤ 60) :
    (∀ t : Tcp.Socket, t.state = .established → t.recvNext < 2 ^ 32 → t.recvWin ≤ Tcp.windowSz →
      (copyInDataReads t seq off (sub64 len off)).Each (Event.Fine f released)) ↔
      off ≤ len ∧ (takenMax seq (len - off) = 0 ∨
        dataOff + off + takenMax seq (len - off) ≤ f.length) := by
  have hsize : f.length ≤ 4096 := f.length_le
  have hsz : Tcp.windowSz = 16384 := rfl
  have hread : ∀ {t : Tcp.Socket} {n : ℕ}, 0 < n → Tcp.inWindow t seq n →
      ((copyInDataReads t seq off n).Each (Event.Fine f released) ↔ (Tcp.copyExtent t seq n).2 = 0 ∨
          dataOff + off + (Tcp.copyExtent t seq n).1 + (Tcp.copyExtent t seq n).2 ≤ f.length) := by
    intro t n hn hin
    unfold copyInDataReads
    rw [if_pos ⟨hn, hin⟩, each_observe, fine_read_iff]
  constructor
  · intro h
    have hle : off ≤ len := by
      by_contra hgt
      obtain ⟨t, hmeets, hmany⟩ := exists_copyExtent_of_lt hseq hoff (Nat.not_le.mp hgt)
      have hpos : 0 < sub64 len off := by
        simp only [sub64]
        omega
      have hfine := (hread hpos hmeets.inWindow).mp
        (h t hmeets.state hmeets.recvNext hmeets.recvWin)
      omega
    refine ⟨hle, ?_⟩
    rw [sub64_of_le (by omega) hle] at h
    rcases Nat.eq_zero_or_pos (takenMax seq (len - off)) with hzero | hpos
    · exact .inl hzero
    · obtain ⟨t, hmeets, hmany, hlast⟩ := exists_copyExtent hseq (by omega) hpos
      have hne : 0 < len - off := by
        by_contra hnone
        rw [show len - off = 0 by omega, takenMax, if_pos (by omega)] at hpos
        omega
      have hfine := (hread hne hmeets.inWindow).mp (h t hmeets.state hmeets.recvNext hmeets.recvWin)
      exact .inr (by omega)
  · rintro ⟨hle, htaken⟩ t - hnext hwin
    rw [sub64_of_le (by omega) hle]
    by_cases hin : 0 < len - off ∧ Tcp.inWindow t seq (len - off)
    · have hextent := copyExtent_le hnext hwin hseq hin.1 (by omega) hin.2
      rw [hread hin.1 hin.2]
      omega
    · unfold copyInDataReads
      rw [if_neg hin]
      exact each_pure

end Payload

/-! ## UDP and TCP -/

section Transport

variable {f : Frame} {released : Prop}

/-- The sequence number of a segment. -/
abbrev Frame.seqnum (f : Frame) : ℕ := f.get32 (dataOff + 4)

abbrev Frame.flags (f : Frame) : UInt8 := f.data (dataOff + 13)

/-- The length of the header of a segment, in bytes. -/
abbrev Frame.headerLen (f : Frame) : ℕ := 4 * ((f.data (dataOff + 12)).toNat / 16)

/-- The condition of a segment. -/
structure Frame.SegmentFits (f : Frame) : Prop where
  header : dataOff + 14 ≤ f.length
  window : ¬rst f.flags → ack f.flags → dataOff + 16 ≤ f.length
  payload : ¬rst f.flags → ack f.flags → ¬syn f.flags →
    f.headerLen ≤ f.plen ∧ (takenMax f.seqnum (f.plen - f.headerLen) = 0 ∨
      dataOff + f.headerLen + takenMax f.seqnum (f.plen - f.headerLen) ≤ f.length)

theorem seqnum_lt (f : Frame) : f.seqnum < 2 ^ 32 := by
  have hhi : f.get16 (dataOff + 4) < 2 ^ 16 := fromBig16_lt ..
  have hlo : f.get16 (dataOff + 4 + 2) < 2 ^ 16 := fromBig16_lt ..
  unfold Frame.seqnum Frame.get32
  omega

theorem headerLen_le (f : Frame) : f.headerLen ≤ 60 := by
  have hlt := (f.data (dataOff + 12)).toNat_lt
  unfold Frame.headerLen
  omega

section

variable (hheader : dataOff + 14 ≤ f.length)

include hheader

theorem tcpPayload_fine_iff (t : Tcp.Socket) :
    (tcpPayload f t f.plen).Each (Event.Fine f released) ↔
      (copyInDataReads t f.seqnum f.headerLen (sub64 f.plen f.headerLen)).Each
        (Event.Fine f released) := by
  unfold tcpPayload
  rw [each_observe_bind, each_observe_bind, fine_read_iff, fine_read_iff, and_iff_right (by omega),
    and_iff_right (by omega)]

theorem tcpBoundState_fine_of_synsent (hsyn : syn f.flags) (hack : ack f.flags) (sock : ℕ) :
    (tcpBoundState sock .synsent f.flags).Each (Event.Fine f released) ↔
      dataOff + 16 ≤ f.length := by
  unfold tcpBoundState
  dsimp only
  rw [if_pos ⟨hsyn, hack⟩, each_observe_bind, each_observe, fine_read_iff, fine_read_iff]
  omega

theorem tcpRecvState_fine_of_established (hack : ack f.flags) (hsyn : ¬syn f.flags) {c : Connection}
    (hstate : c.tcp.state = .established) (w : Tables) (dest : Endpoint) :
    (tcpRecvState f w dest c f.plen f.flags).Each (Event.Fine f released) ↔
      dataOff + 16 ≤ f.length ∧
        (copyInDataReads c.tcp f.seqnum f.headerLen (sub64 f.plen f.headerLen)).Each
          (Event.Fine f released) := by
  unfold tcpRecvState
  rw [hstate]
  dsimp only
  rw [if_pos ⟨hack, hsyn⟩, each_observe_bind, each_observe_bind, fine_read_iff, fine_read_iff,
    tcpPayload_fine_iff hheader, and_iff_right (by omega)]
  exact and_congr_left' (by omega)

end

theorem tcpBoundState_fine (h : f.SegmentFits) (hrst : ¬rst f.flags) (sock : ℕ)
    (state : Tcp.TcpConState) :
    (tcpBoundState sock state f.flags).Each (Event.Fine f released) := by
  have hheader := h.header
  by_cases hsent : state = .synsent ∧ syn f.flags ∧ ack f.flags
  · obtain ⟨rfl, hsyn, hack⟩ := hsent
    exact (tcpBoundState_fine_of_synsent hheader hsyn hack sock).mpr (h.window hrst hack)
  · unfold tcpBoundState
    split
    · rw [if_neg fun hflags => hsent ⟨rfl, hflags⟩]
      exact each_pure
    · split
      · rw [each_observe_bind, each_observe, fine_pendCon_iff]
        exact ⟨fine_packetGet, by omega⟩
      · exact each_pure
    · exact each_pure

theorem tcpRecvState_fine (h : f.SegmentFits) (hrst : ¬rst f.flags) (w : Tables) (dest : Endpoint)
    (c : Connection) : (tcpRecvState f w dest c f.plen f.flags).Each (Event.Fine f released) := by
  have hheader := h.header
  have hplen : f.plen < 2 ^ 16 := fromBig16_lt ..
  by_cases hflags : ack f.flags ∧ ¬syn f.flags
  · obtain ⟨hack, hsyn⟩ := hflags
    have hwindow := h.window hrst hack
    by_cases hstate : c.tcp.state = .established
    · rw [tcpRecvState_fine_of_established hheader hack hsyn hstate]
      refine ⟨hwindow, ?_⟩
      exact (copyInDataReads_fine_iff (seqnum_lt f) hplen (headerLen_le f)).mpr
        (h.payload hrst hack hsyn) c.tcp hstate c.recvNext_lt c.recvWin_le
    · unfold tcpRecvState
      split
      · next hest => exact absurd hest hstate
      · rw [if_pos ⟨hack, hsyn⟩]
        split
        · simp only [each_observe_bind, each_observe, fine_read_iff, fine_sockGet, fine_sockPut,
            true_and, and_true]
          omega
        · exact each_pure
      · exact each_pure
  · unfold tcpRecvState
    split
    · rw [if_neg hflags]
      exact each_pure
    · rw [if_neg hflags]
      exact each_pure
    · exact each_pure

variable {w : Tables} {src dest : Endpoint}

theorem tcpRecv_fine_of_connection {c : Connection} (hc : w.tcpConnection src dest = some c) :
    (tcpRecv f w src dest f.plen).Each (Event.Fine f released) ↔
      dataOff + 14 ≤ f.length ∧ (¬rst f.flags →
        (tcpRecvState f w dest c f.plen f.flags).Each (Event.Fine f released)) := by
  have hresult := (tcpRecvState_kept f w dest c f.plen f.flags).1
  unfold tcpRecv
  rw [hc]
  dsimp only
  rw [each_observe_bind, each_observe_bind, and_iff_right (fine_sockGet _), fine_read_iff]
  refine and_congr (by omega) ?_
  split
  · next hrst => exact iff_of_true each_pure fun hnot => absurd hrst hnot
  · next hrst =>
    rw [each_bind, hresult]
    simp [hrst, each_observe, fine_sockPut]

theorem tcpRecv_fine_of_bound {state : Tcp.TcpConState} (hc : w.tcpConnection src dest = none)
    (hb : w.tcpBound dest = some (sock, state)) :
    (tcpRecv f w src dest f.plen).Each (Event.Fine f released) ↔
      dataOff + 14 ≤ f.length ∧ (¬rst f.flags →
        (tcpBoundState sock state f.flags).Each (Event.Fine f released)) := by
  have hresult := (tcpBoundState_kept sock state f.flags).1
  unfold tcpRecv tcpRecvBoundOnly
  rw [hc, hb]
  dsimp only
  rw [each_observe_bind, fine_read_iff]
  refine and_congr (by omega) ?_
  split
  · next hrst => exact iff_of_true each_pure fun hnot => absurd hrst hnot
  · next hrst =>
    rw [each_observe_bind, each_bind, hresult, and_iff_right (fine_sockGet _)]
    simp [hrst, each_observe, fine_sockPut]

theorem tcpRecv_fine_of_unbound {w : Tables} {src dest : Endpoint}
    (hc : w.tcpConnection src dest = none) (hb : w.tcpBound dest = none) :
    (tcpRecv f w src dest f.plen).Each (Event.Fine f released) ↔ dataOff + 14 ≤ f.length := by
  unfold tcpRecv tcpRecvBoundOnly
  rw [hc, hb]
  dsimp only
  rw [each_observe_bind, fine_read_iff, ite_self]
  simp only [each_pure, and_true]
  omega

/-- **A segment is safe for all sockets** exactly if it fits. -/
theorem tcpRecv_fine_iff (raw : List (ℕ × ℕ)) (src dest : Endpoint) :
    (∀ w : Tables, w.raw = raw → (tcpRecv f w src dest f.plen).Each (Event.Fine f released)) ↔
      f.SegmentFits := by
  have hplen : f.plen < 2 ^ 16 := fromBig16_lt ..
  constructor
  · intro h
    have hheader : dataOff + 14 ≤ f.length :=
      (tcpRecv_fine_of_unbound rfl rfl).mp (h { noSockets with raw := raw } rfl)
    -- an established connection with any window
    have hestablished : ∀ t : Tcp.Socket, t.state = .established → t.recvNext < 2 ^ 32 →
        t.recvWin ≤ Tcp.windowSz → ¬rst f.flags → ack f.flags → ¬syn f.flags →
        dataOff + 16 ≤ f.length ∧
          (copyInDataReads t f.seqnum f.headerLen (sub64 f.plen f.headerLen)).Each
            (Event.Fine f released) := by
      intro t hstate hnext hwin hrst hack hsyn
      have hsafe := (tcpRecv_fine_of_connection rfl).mp
        (h { noSockets with raw := raw, tcpConnection := fun _ _ => some ⟨0, t, hnext, hwin⟩ } rfl)
      exact (tcpRecvState_fine_of_established hheader hack hsyn hstate _ _).mp (hsafe.2 hrst)
    have hpayload : ¬rst f.flags → ack f.flags → ¬syn f.flags → _ :=
      fun hrst hack hsyn => (copyInDataReads_fine_iff (seqnum_lt f) hplen (headerLen_le f)).mp
        fun t hstate hnext hwin => (hestablished t hstate hnext hwin hrst hack hsyn).2
    refine ⟨hheader, ?_, hpayload⟩
    intro hrst hack
    by_cases hsyn : syn f.flags
    · have hsafe := (tcpRecv_fine_of_bound rfl rfl).mp
        (h { noSockets with raw := raw, tcpBound := fun _ => some (0, .synsent) } rfl)
      exact (tcpBoundState_fine_of_synsent hheader hsyn hack 0).mp (hsafe.2 hrst)
    · obtain ⟨t, hstate, hnext, hwin⟩ := exists_window 0 0
      exact (hestablished t hstate (by omega) (by omega) hrst hack hsyn).1
  · intro h w _
    cases hc : w.tcpConnection src dest with
    | some c =>
      exact (tcpRecv_fine_of_connection hc).mpr
        ⟨h.header, fun hrst => tcpRecvState_fine h hrst w dest c⟩
    | none =>
      cases hb : w.tcpBound dest with
      | some bound =>
        exact (tcpRecv_fine_of_bound hc hb).mpr
          ⟨h.header, fun hrst => tcpBoundState_fine h hrst bound.1 bound.2⟩
      | none => exact (tcpRecv_fine_of_unbound hc hb).mpr h.header

/-- **A datagram is safe for all sockets** exactly if it fits. -/
theorem udpRecv_fine_iff (raw : List (ℕ × ℕ)) (dest : Endpoint) :
    (∀ w : Tables, w.raw = raw → (udpRecv w dest).Each (Event.Fine f released)) ↔
      f.DatagramFits := by
  constructor
  · intro h
    have hsafe := h { noSockets with raw := raw, udpBound := fun _ => some 0 } rfl
    unfold udpRecv at hsafe
    simp only [each_observe_bind, fine_udp_iff] at hsafe
    exact hsafe.2.1
  · intro h w _
    unfold udpRecv
    split
    · simp only [each_observe_bind, each_observe, fine_udp_iff]
      exact ⟨fine_sockGet _, h, fine_sockPut _⟩
    · exact each_observe.mpr fine_packetPut

end Transport

/-! ## The whole path -/

section Path

variable {f : Frame} {released : Prop}

/-- The condition of the protocol that a frame carries. -/
structure Frame.ProtocolFits (f : Frame) (nd : NicData) : Prop where
  icmp : f.nextHeader = 0x3a → f.IcmpFits nd
  udp : f.nextHeader = 17 → f.DatagramFits
  tcp : f.nextHeader = 6 → f.SegmentFits

/-- A raw socket gets a duplicate of the frame. -/
def Frame.RawTaken (f : Frame) (raw : List (ℕ × ℕ)) : Prop :=
  ∃ s ∈ raw, rawMatches f.nextHeader.toNat s.2

/-- **The condition of a frame.** The protocol it carries fits; if a raw socket gets a duplicate,
the length field is inside the frame and the packet is never released. -/
def Frame.InBounds (f : Frame) (nd : NicData) (raw : List (ℕ × ℕ)) : Prop :=
  f.ForIpv6 nd → dataOff ≤ f.length ∧ (nd.accepts f.destination →
    f.ProtocolFits nd ∧
      (f.RawTaken raw → dataOff + f.plen ≤ f.length ∧ (f.Leaks nd ∨ ¬f.Ends nd)))

theorem rawsocketLoop_each_iff {p : Event → Prop} (nextHeader : ℕ) (socks : List (ℕ × ℕ)) :
    (rawsocketLoop nextHeader socks).Each p ↔
      ∀ s ∈ socks, rawMatches nextHeader s.2 → p (.rawQueue s.1) := by
  induction socks with
  | nil => simp [rawsocketLoop]
  | cons s socks ih =>
    obtain ⟨sock, protocol⟩ := s
    unfold rawsocketLoop
    rw [List.forall_mem_cons, ← ih]
    cases rawMatches nextHeader protocol with
    | true => simp [each_observe_bind]
    | false => simp [each_bind]

section

variable (hhead : dataOff ≤ f.length)

include hhead

theorem ipv6RawsocketCopy_fine_iff (w : Tables) :
    (ipv6RawsocketCopy f w).Each (Event.Fine f released) ↔
      (f.RawTaken w.raw → ¬released ∧ dataOff + f.plen ≤ f.length) := by
  have hwhole : (read 0 f.length).Fine f released := fine_read_iff.mpr (.inr (by omega))
  have hcopy : (copy f.length bufferSize).Fine f released := fine_copy_iff.mpr f.length_le
  unfold ipv6RawsocketCopy Frame.RawTaken
  split
  · next hnone => simp [hnone]
  · simp only [each_observe_bind, fine_next hhead, hwhole, hcopy, true_and, rawsocketLoop_each_iff,
      fine_rawQueue_iff hhead]
    constructor
    · rintro h ⟨s, hs, hmatch⟩
      exact h s hs hmatch
    · intro h s hs hmatch
      exact h ⟨s, hs, hmatch⟩

theorem transportReceive_each_iff (w : Tables) (next : UInt8) :
    (transportReceive f w next).Each (Event.Fine f released) ↔ dataOff + 4 ≤ f.length ∧
      (if next = 17 then
          udpRecv w ⟨f.destination, memread f.data (dataOff + 2) 2⟩
        else tcpRecv f w ⟨memread f.data (headlen + 8) 16, memread f.data dataOff 2⟩
          ⟨f.destination, memread f.data (dataOff + 2) 2⟩ f.plen).Each (Event.Fine f released) := by
  have hdest : (read (headlen + 24) 16).Fine f released := fine_header_read hhead (by decide)
  unfold transportReceive
  rw [each_observe_bind, each_observe_bind, each_observe_bind, each_observe_bind,
    and_iff_right (fine_source hhead), and_iff_right hdest, fine_read_iff, fine_read_iff,
    ← and_assoc]
  refine and_congr (by omega) ?_
  split
  · rfl
  · rw [each_observe_bind, and_iff_right (fine_length hhead)]

theorem protocolReceive_fine_iff (nd : NicData) (raw : List (ℕ × ℕ)) :
    (∀ w : Tables, w.raw = raw → ∀ rounds,
      (protocolReceive f nd w rounds f.nextHeader).Each (Event.Fine f released)) ↔
      f.ProtocolFits nd := by
  constructor
  · intro h
    refine ⟨?_, ?_, ?_⟩
    · intro hicmp
      have hsafe := h { noSockets with raw := raw } rfl
      rw [hicmp] at hsafe
      exact (icmp6Receive_fine_iff hhead nd _).mp hsafe
    · intro hudp
      rw [hudp] at h
      exact (udpRecv_fine_iff raw _).mp fun w hw =>
        ((transportReceive_each_iff hhead w 17).mp (h w hw 0)).2
    · intro htcp
      rw [htcp] at h
      exact (tcpRecv_fine_iff raw _ _).mp fun w hw =>
        ((transportReceive_each_iff hhead w 6).mp (h w hw 0)).2
  · intro h w hw rounds
    unfold protocolReceive
    split_ifs with hicmp htransport
    · exact (icmp6Receive_fine_iff hhead nd w).mpr (h.icmp hicmp) rounds
    · rw [transportReceive_each_iff hhead]
      split_ifs with hudp
      · have hfits := h.udp hudp
        exact ⟨by have := hfits.1; omega, (udpRecv_fine_iff raw _).mpr hfits w hw⟩
      · have hfits := h.tcp (htransport.resolve_left hudp)
        exact ⟨by have := hfits.header; omega, (tcpRecv_fine_iff raw _ _).mpr hfits w hw⟩
    · exact ipv6DropPacket_fine hhead

omit hhead in
theorem Fine.mono {released' : Prop} {e : Event} (h : released' → released)
    (he : e.Fine f released) : e.Fine f released' :=
  ⟨he.1, fun header hheader => he.2 header fun hnot => hheader fun hr => hnot (h hr)⟩

theorem protocolReceive_fine_iff_forall (nd : NicData) (raw : List (ℕ × ℕ))
    (released : Tables → ℕ → Prop) :
    (∀ w : Tables, w.raw = raw → ∀ rounds,
      (protocolReceive f nd w rounds f.nextHeader).Each (Event.Fine f (released w rounds))) ↔
      f.ProtocolFits nd := by
  constructor
  · intro h
    have hheld : ∀ w : Tables, w.raw = raw → ∀ rounds,
        (protocolReceive f nd w rounds f.nextHeader).Each (Event.Fine f False) :=
      fun w hw rounds => (h w hw rounds).mono fun e => Fine.mono False.elim
    exact (protocolReceive_fine_iff hhead nd raw).mp hheld
  · intro h w hw rounds
    have hany : (protocolReceive f nd w rounds f.nextHeader).Each (Event.Fine f True) :=
      (protocolReceive_fine_iff hhead nd raw).mpr h w hw rounds
    exact hany.mono fun e => Fine.mono fun _ => trivial

end

/-- **When a packet may be released**: always, unless it leaks or its processing does not end. -/
theorem forall_not_released_iff (f : Frame) (nd : NicData) (raw : List (ℕ × ℕ)) :
    (∀ w : Tables, w.raw = raw → ∀ rounds, ¬Released (netNicReceive f nd w rounds).log) ↔
      f.Leaks nd ∨ ¬f.Ends nd := by
  have hkept : ∀ w rounds, Released (netNicReceive f nd w rounds).log ↔
      Released ((netNicReceive f nd w rounds).kept owning) := fun _ _ =>
    released_filter_iff.symm
  constructor
  · intro h
    by_contra hnot
    obtain ⟨hleaks, hends⟩ := not_or.mp hnot
    rw [not_not] at hends
    obtain ⟨rounds, hsome⟩ :=
      (netNicReceive_ends_iff f nd { noSockets with raw := raw }).mpr hends
    have hhands := netNicReceive_hands f nd { noSockets with raw := raw } rounds
    exact h _ rfl rounds ((hkept _ _).mpr (hhands.handed hsome hleaks).released)
  · intro h w hw rounds
    rw [hkept]
    refine ((netNicReceive_hands f nd w rounds).leaked ?_).not_released
    rcases h with hleaks | hends
    · exact .inr hleaks
    · rw [← netNicReceive_ends_iff f nd w] at hends
      left
      by_contra hsome
      exact hends ⟨rounds, Option.isSome_iff_ne_none.mpr hsome⟩

theorem netNicReceive_each_iff {nd : NicData} (hipv6 : f.ForIpv6 nd) (w : Tables) (rounds : ℕ) :
    (netNicReceive f nd w rounds).Each (Event.Fine f released) ↔
      dataOff ≤ f.length ∧ (nd.accepts f.destination →
        (f.RawTaken w.raw → ¬released ∧ dataOff + f.plen ≤ f.length) ∧
          (protocolReceive f nd w rounds f.nextHeader).Each (Event.Fine f released)) := by
  have hdata : headlen + 24 + 16 = dataOff := rfl
  unfold netNicReceive
  rw [if_pos hipv6]
  unfold ipv6Receive
  rw [each_observe_bind, fine_read_iff, hdata, or_iff_right (by decide)]
  refine and_congr_right fun hhead => ?_
  split
  · next haccepts =>
    rw [← ipv6RawsocketCopy_fine_iff hhead, ipv6ReceiveProcess, each_bind,
      (ipv6RawsocketCopy_quiet f w).2]
    simp [haccepts, fine_next hhead]
  · next haccepts =>
    exact iff_of_true (ipv6DropPacket_fine hhead) fun h => absurd h haccepts

/-- **Which frames are safe**, on a card with the given raw sockets: whatever else the tables hold
and however long the loops run, all reads are inside the frame and all copies fit, exactly if the
frame is in bounds. -/
theorem safe_iff (f : Frame) (nd : NicData) (raw : List (ℕ × ℕ)) :
    (∀ w : Tables, w.raw = raw → ∀ rounds, Safe f (netNicReceive f nd w rounds)) ↔
      f.InBounds nd raw := by
  unfold Safe Frame.InBounds
  by_cases hipv6 : f.ForIpv6 nd
  · simp only [hipv6, true_imp_iff, netNicReceive_each_iff hipv6]
    have hheld := forall_not_released_iff f nd raw
    constructor
    · intro h
      have hhead : dataOff ≤ f.length := (h { noSockets with raw := raw } rfl 0).1
      refine ⟨hhead, fun haccepts => ⟨?_, fun hraw => ⟨?_, hheld.mp ?_⟩⟩⟩
      · exact (protocolReceive_fine_iff_forall hhead nd raw _).mp fun w hw rounds =>
          ((h w hw rounds).2 haccepts).2
      · exact (((h { noSockets with raw := raw } rfl 0).2 haccepts).1 hraw).2
      · intro w hw rounds
        exact (((h w hw rounds).2 haccepts).1 (hw ▸ hraw)).1
    · rintro ⟨hhead, h⟩ w hw rounds
      refine ⟨hhead, fun haccepts => ?_⟩
      obtain ⟨hprotocol, hraw⟩ := h haccepts
      refine ⟨fun htaken => ?_, ?_⟩
      · obtain ⟨hfits, hnever⟩ := hraw (hw ▸ htaken)
        exact ⟨hheld.mpr hnever w hw rounds, hfits⟩
      · exact (protocolReceive_fine_iff_forall hhead nd raw
          fun w rounds => Released (netNicReceive f nd w rounds).log).mpr hprotocol w hw rounds
  · simp only [hipv6, false_imp_iff, iff_true]
    intro w _ rounds
    unfold netNicReceive
    rw [if_neg hipv6]
    exact each_observe.mpr fine_packetPut

end Path

/-! ### Two datagrams -/

theorem datagram_safe :
    ∀ w : Tables, w.raw = [] → ∀ rounds, Safe datagramFrame (netNicReceive datagramFrame testCard
      w rounds) := by
  refine (safe_iff datagramFrame testCard []).mpr ?_
  intro _
  refine ⟨by decide, fun _ => ⟨⟨?_, fun _ => ?_, ?_⟩, ?_⟩⟩
  · intro hicmp
    exact absurd hicmp (by decide)
  · exact ⟨by decide, .inr (by decide)⟩
  · intro htcp
    exact absurd htcp (by decide)
  · rintro ⟨s, hs, -⟩
    cases hs

/-- The same datagram with the length 0 in its UDP header. -/
def shortDatagram : Frame :=
  frameOf (headersTo 11 17 ++ [4, 0, 8, 0, 0, 0, 0, 0] ++ [1, 2, 3]) (by decide)

/-- The frame has 65 bytes, and the call that receives the datagram copies 4000 bytes from offset 62
on. -/
theorem shortDatagram_overread :
    .packetQueue (.udp 0) ∈ (netNicReceive shortDatagram testCard oneUdpSocket 0).log ∧
      .read 62 4000 ∈ (udpRecvfrom shortDatagram 4000 0).log ∧ shortDatagram.length = 65 ∧
      ¬Safe shortDatagram (netNicReceive shortDatagram testCard oneUdpSocket 0) := by
  have hqueue : .packetQueue (.udp 0) ∈
      (netNicReceive shortDatagram testCard oneUdpSocket 0).log := by decide +kernel
  refine ⟨hqueue, by decide +kernel, by decide, ?_⟩
  intro hsafe
  obtain ⟨-, hfits⟩ := fine_udp_iff.mp (hsafe _ hqueue)
  revert hfits
  decide

end SeaKernel.Receive
