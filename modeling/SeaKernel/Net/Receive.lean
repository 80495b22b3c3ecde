import SeaKernel.Lib.Contents
import SeaKernel.Lib.Logged
import SeaKernel.Net.Ipv6
import SeaKernel.Net.Tcp

/-!
# The receive path

What happens to a frame between `net_nic_receive` and the end of its processing: `net/ethernet.c`,
`ipv6_receive` of `net/ipv6.c`, `icmp6_receive` of `net/icmp6.c`, `udp_recv` of `net/udp.c` and
`tcp_recv` of `net/tcp.c`, and the calls that take packets out of the queues of sockets.

What is recorded is every read of packet bytes with its extent, every copy of a computed length with
the room at its destination, and every reference that is taken, dropped or handed to a queue. The
reads of the link header by the link layer are not. Replies overwrite parts of the packet in place
(addresses, type, checksum, option); none of what is read after such a store decides anything but
the destination of the reply, which is the source of the packet. The stores to sockets, neighbours
and routers, the messages sent by `__tcp_sendmsg` and the references of neighbours and cards are
left out.

The loops over ICMP options run for a given number of rounds: an option of length 0 keeps them where
they are.

## Main definitions

* `Frame`: a received frame, in a buffer that may hold anything behind it
* `Event`: what is recorded
* `NicData`, `Tables`: the card, and the sockets and neighbours at the time
* `netNicReceive`: the processing of a frame
* `Event.consumer`: the call that takes the packet out of a queue later

## Main results

* `optionLoop_each_iff`: what a loop over options does is what its body does at the options
* `optionLoop_isSome_iff`: a loop over options ends exactly if it advances
-/

namespace SeaKernel.Tcp

/-- The first byte that `copy_in_data` takes from a segment of the given length and the number of
bytes. -/
def copyExtent (t : Socket) (seq len : ℕ) : ℕ × ℕ :=
  let skip := if seq < t.recvNext then sub32 t.recvNext seq else 0
  let len := sub64 len skip
  let seq := if seq < t.recvNext then t.recvNext else seq
  let stop := u32 (t.recvNext + t.recvWin)
  (skip, if u64 (seq + len) ≥ stop then sub32 stop seq else len)

end SeaKernel.Tcp

namespace SeaKernel.Receive

open Ipv6 Logged

/-- A received frame: its length, and the buffer it is in. -/
structure Frame where
  data : ℕ → UInt8
  length : ℕ
  length_le : length ≤ bufferSize

/-- The queues a packet can be put on. -/
inductive Queue where
  | neighbor
  | udp (sock : ℕ)
  | pendCon (sock : ℕ)
  deriving DecidableEq

/-- What is recorded: reads of packet bytes, copies with the room at their destination, references
to the packet and to sockets that are taken and dropped, and queues. A raw socket gets a duplicate
of the packet. -/
inductive Event where
  | read (off len : ℕ)
  | copy (len cap : ℕ)
  | packetGet
  | packetPut
  | packetQueue (queue : Queue)
  | rawQueue (sock : ℕ)
  | sockGet (sock : ℕ)
  | sockPut (sock : ℕ)
  deriving DecidableEq

abbrev Proc := Logged Event

/-- The addresses of the card that a frame came in on (`struct nicdata`). -/
structure NicData where
  physaddr : PhysicalAddress
  linkaddr : Address
  globaladdr : Address
  hasGlobal : Bool

/-- An address and a port, both as the packet has them. -/
structure Endpoint where
  addr : List UInt8
  port : List UInt8

/-- A socket with its connection. -/
structure Connection where
  sock : ℕ
  tcp : Tcp.Socket
  recvNext_lt : tcp.recvNext < 2 ^ 32
  recvWin_le : tcp.recvWin ≤ Tcp.windowSz

/-- What the tables answer: the raw sockets with their protocols, the bound sockets, the connections
by peer and local end, and the neighbours that are reachable. -/
structure Tables where
  raw : List (ℕ × ℕ)
  udpBound : Endpoint → Option ℕ
  tcpBound : Endpoint → Option (ℕ × Tcp.TcpConState)
  tcpConnection : Endpoint → Endpoint → Option Connection
  reachable : List UInt8 → Bool

/-! ## Reading the packet -/

/-- Bytes of the packet. -/
abbrev Frame.bytes (f : Frame) (off len : ℕ) : Proc (List UInt8) :=
  observe (.read off len) (memread f.data off len)

/-- A byte of the packet. -/
abbrev Frame.byte (f : Frame) (off : ℕ) : Proc UInt8 := observe (.read off 1) (f.data off)

/-- The value of a 16-bit field, in host order. -/
def Frame.get16 (f : Frame) (off : ℕ) : ℕ := fromBig16 (f.data off) (f.data (off + 1))

/-- The value of a 32-bit field, in host order. -/
def Frame.get32 (f : Frame) (off : ℕ) : ℕ := f.get16 off * 2 ^ 16 + f.get16 (off + 2)

/-- A 16-bit field of the packet. -/
abbrev Frame.big16 (f : Frame) (off : ℕ) : Proc ℕ := observe (.read off 2) (f.get16 off)

/-- A 32-bit field of the packet. -/
abbrev Frame.big32 (f : Frame) (off : ℕ) : Proc ℕ := observe (.read off 4) (f.get32 off)

/-- The reads of `ipv6_gen_checksum`. -/
def ipv6GenChecksumReads (f : Frame) : Proc Unit := do
  let len ← f.big16 (headlen + 4)
  tell (.read (headlen + 8) 32)
  tell (.read (headlen + 6) 1)
  tell (.read dataOff len)

/-! ## IPv6 -/

/-- `ipv6_drop_packet`; the message shows the destination. -/
def ipv6DropPacket : Proc Unit := do
  tell (.read (headlen + 24) 16)
  tell .packetPut

/-- `ipv6_reply_packet`: the driver drops the reference after the transmission, and a neighbour that
is not reachable keeps it in its queue. -/
def ipv6ReplyPacket (f : Frame) (reachable : Bool) : Proc Unit := do
  ipv6GenChecksumReads f
  if reachable then tell .packetPut else tell (.packetQueue .neighbor)

/-- Whether a raw socket with this protocol gets a packet. -/
def rawMatches (nextHeader protocol : ℕ) : Bool :=
  protocol = nextHeader || protocol = 0 || protocol = 255

/-- The loop of `ipv6_rawsocket_copy` over the raw sockets. -/
def rawsocketLoop (nextHeader : ℕ) : List (ℕ × ℕ) → Proc Unit
  | [] => pure ()
  | (sock, protocol) :: socks => do
    (if rawMatches nextHeader protocol then tell (.rawQueue sock) else pure ())
    rawsocketLoop nextHeader socks

/-- `ipv6_rawsocket_copy`: the packet is duplicated as a whole. -/
def ipv6RawsocketCopy (f : Frame) (w : Tables) : Proc Unit :=
  if w.raw = [] then pure ()
  else do
    tell (.read 0 f.length)
    tell (.copy f.length bufferSize)
    let nextHeader ← f.byte (headlen + 6)
    rawsocketLoop nextHeader.toNat w.raw

/-! ## ICMP -/

/-- The loop over the options of a message. The body gets the type and the offset of an option, and
`ends` says after which type the loop is left. -/
def optionLoop {σ : Type} (f : Frame) (stop : ℕ) (ends : UInt8 → Bool)
    (body : UInt8 → ℕ → σ → Proc σ) : ℕ → ℕ → σ → Proc σ
  | 0, _, _ => stuck
  | rounds + 1, o, s =>
    if o < stop then do
      let type ← f.byte o
      let s ← body type o s
      if ends type then pure s
      else do
        let length ← f.byte (o + 1)
        optionLoop f stop ends body rounds (o + 8 * length.toNat) s
    else pure s

/-- The copy of a link-layer address out of an option: `opt->length * 8 - 2` bytes into the six of
`struct physical_address`. -/
def copyLinkAddress (f : Frame) (o : ℕ) : Proc Unit := do
  let length ← f.byte (o + 1)
  let len := sub64 (8 * length.toNat) 2
  tell (.read (o + 2) len)
  tell (.copy len 6)

/-- An option of a router advertisement. The loop keeps whether it has a neighbour, and the offset
of the last prefix. -/
def routerOption (f : Frame) (type : UInt8) (o : ℕ) (s : Bool × Option ℕ) :
    Proc (Bool × Option ℕ) :=
  if type = 1 then do
    copyLinkAddress f o
    -- `ipv6_neighbor_update` enters the source, so `ipv6_get_neighbor` finds it
    tell (.read (headlen + 8) 16)
    pure (true, s.2)
  else if type = 3 then do
    tell (.read (o + 16) 16)
    tell (.read (o + 3) 1)
    pure (s.1, some o)
  else pure s

/-- The end of a router advertisement: `ipv6_router_add`, which keeps nothing of the packet. -/
def routerAdd : Bool × Option ℕ → Proc Unit
  | (true, some o) => do
    tell (.read (dataOff + 4) 4)
    tell (.read (o + 3) 1)
    tell (.read (o + 16) 8)
  | _ => ipv6DropPacket

/-- A router advertisement. -/
def routerAdvert (f : Frame) (rounds : ℕ) : Proc Unit := do
  tell (.read (dataOff + 4) 12)
  let length ← f.big16 (headlen + 4)
  let s ← optionLoop f (dataOff + length) (fun _ => false) (routerOption f) rounds (dataOff + 16)
    (false, none)
  routerAdd s

/-- An option of a neighbour advertisement. -/
def advertOption (f : Frame) (type : UInt8) (o : ℕ) (_ : Unit) : Proc Unit :=
  if type = 2 then do
    copyLinkAddress f o
    tell (.read (dataOff + 8) 16)
  else pure ()

/-- A neighbour advertisement; the number of bytes behind its header is signed. -/
def neighborAdvert (f : Frame) (rounds : ℕ) : Proc Unit := do
  let length ← f.big16 (headlen + 4)
  if length = 24 then ipv6DropPacket
  else do
    optionLoop f (dataOff + length) (· = 2) (advertOption f) rounds (dataOff + 24) ()
    tell .packetPut

/-- The addresses of the card. -/
def NicData.owns (nd : NicData) (addr : List UInt8) : Bool :=
  addr = nd.linkaddr.octets || nd.hasGlobal && addr = nd.globaladdr.octets

/-- The option of a solicitation: whether the neighbour is reachable after it. -/
def solicitOption (f : Frame) (reachable : Bool) : Proc Bool := do
  let length ← f.big16 (headlen + 4)
  if length = 24 then pure reachable
  else do
    let type ← f.byte (dataOff + 24)
    if type = 1 then do
      copyLinkAddress f (dataOff + 24)
      tell (.read (headlen + 8) 16)
      pure true
    else pure reachable

/-- A neighbour solicitation: the packet becomes the reply, with the card's address stored behind
the header of the option. -/
def neighborSolicit (f : Frame) (nd : NicData) (w : Tables) : Proc Unit := do
  let target ← f.bytes (dataOff + 8) 16
  if nd.owns target then do
    let source ← f.bytes (headlen + 8) 16
    let reachable ← solicitOption f (w.reachable source)
    tell (.copy 6 (bufferSize - (dataOff + 26)))
    ipv6ReplyPacket f reachable
  else ipv6DropPacket

/-- The messages of `icmp6_receive`, by type. -/
def icmp6Message (f : Frame) (nd : NicData) (w : Tables) (rounds : ℕ) (type : UInt8) :
    Proc Unit :=
  if type = 128 then do
    let source ← f.bytes (headlen + 8) 16
    ipv6ReplyPacket f (w.reachable source)
  else if type = 134 then routerAdvert f rounds
  else if type = 136 then neighborAdvert f rounds
  else if type = 135 then neighborSolicit f nd w
  else ipv6DropPacket

/-- `icmp6_receive`; a wrong checksum is only reported. -/
def icmp6Receive (f : Frame) (nd : NicData) (w : Tables) (rounds : ℕ) : Proc Unit := do
  ipv6GenChecksumReads f
  let type ← f.byte dataOff
  icmp6Message f nd w rounds type

/-! ## UDP -/

/-- `udp_recv` -/
def udpRecv (w : Tables) (dest : Endpoint) : Proc Unit :=
  match w.udpBound dest with
  | some sock => do
    tell (.sockGet sock)
    tell (.packetQueue (.udp sock))
    tell (.sockPut sock)
  | none => tell .packetPut

/-! ## TCP -/

/-- The bits of the flags byte that are tested. -/
def flag (flags : UInt8) (bit : ℕ) : Bool := flags.toNat.testBit bit

def syn (flags : UInt8) : Bool := flag flags 1

def rst (flags : UInt8) : Bool := flag flags 2

def ack (flags : UInt8) : Bool := flag flags 4

/-- The cases of `_tcp_recv_bound_only`. -/
def tcpBoundState (sock : ℕ) (state : Tcp.TcpConState) (flags : UInt8) : Proc Unit :=
  match state with
  | .synsent =>
    if syn flags ∧ ack flags then do
      tell (.read (dataOff + 4) 8)
      tell (.read (dataOff + 14) 2)
    else pure ()
  | .listening =>
    if syn flags ∧ ¬ack flags then do
      tell .packetGet
      tell (.packetQueue (.pendCon sock))
    else pure ()
  | _ => pure ()

/-- `_tcp_recv_bound_only` -/
def tcpRecvBoundOnly (f : Frame) (w : Tables) (dest : Endpoint) : Proc Unit := do
  let flags ← f.byte (dataOff + 13)
  if rst flags then pure ()
  else
    match w.tcpBound dest with
    | none => pure ()
    | some (sock, state) => do
      tell (.sockGet sock)
      tcpBoundState sock state flags
      tell (.sockPut sock)

/-- The reads of `copy_in_data`, for a payload at the given offset of the segment. The ring it goes
to is indexed modulo its size. -/
def copyInDataReads (t : Tcp.Socket) (seq off len : ℕ) : Proc Unit :=
  if len > 0 ∧ Tcp.inWindow t seq len then
    tell (.read (dataOff + off + (Tcp.copyExtent t seq len).1) (Tcp.copyExtent t seq len).2)
  else pure ()

/-- The payload of a segment on an established connection: `len - header->doff * 4` bytes, as a
`size_t`, from the data offset on. -/
def tcpPayload (f : Frame) (t : Tcp.Socket) (len : ℕ) : Proc Unit := do
  let seq ← f.big32 (dataOff + 4)
  let doff ← f.byte (dataOff + 12)
  copyInDataReads t seq (4 * (doff.toNat / 16)) (sub64 len (4 * (doff.toNat / 16)))

/-- The cases of `tcp_recv`; those that only test the flags record nothing. The reference taken for
`establishing` is the queue's. -/
def tcpRecvState (f : Frame) (w : Tables) (dest : Endpoint) (c : Connection) (len : ℕ)
    (flags : UInt8) : Proc Unit :=
  match c.tcp.state with
  | .established =>
    if ack flags ∧ ¬syn flags then do
      tell (.read (dataOff + 8) 4)
      tell (.read (dataOff + 14) 2)
      tcpPayload f c.tcp len
    else pure ()
  | .synrecv =>
    if ack flags ∧ ¬syn flags then
      match w.tcpBound dest with
      | some (bound, _) => do
        tell (.sockGet bound)
        tell (.read (dataOff + 4) 8)
        tell (.read (dataOff + 14) 2)
        tell (.sockGet c.sock)
        tell (.sockPut bound)
      | none => pure ()
    else pure ()
  | _ => pure ()

/-- `tcp_recv`. The reference that `close_connection` drops is the one of the table. -/
def tcpRecv (f : Frame) (w : Tables) (src dest : Endpoint) (len : ℕ) : Proc Unit :=
  match w.tcpConnection src dest with
  | none => tcpRecvBoundOnly f w dest
  | some c => do
    tell (.sockGet c.sock)
    let flags ← f.byte (dataOff + 13)
    if rst flags then pure ()
    else do
      tcpRecvState f w dest c len flags
      tell (.sockPut c.sock)

/-! ## The whole path -/

/-- The part of `ipv6_receive_process` for UDP and TCP. -/
def transportReceive (f : Frame) (w : Tables) (nextHeader : UInt8) : Proc Unit := do
  let source ← f.bytes (headlen + 8) 16
  let destination ← f.bytes (headlen + 24) 16
  let sport ← f.bytes dataOff 2
  let dport ← f.bytes (dataOff + 2) 2
  if nextHeader = 17 then udpRecv w ⟨destination, dport⟩
  else do
    let length ← f.big16 (headlen + 4)
    tcpRecv f w ⟨source, sport⟩ ⟨destination, dport⟩ length

/-- The protocols of `ipv6_receive_process`. -/
def protocolReceive (f : Frame) (nd : NicData) (w : Tables) (rounds : ℕ) (nextHeader : UInt8) :
    Proc Unit :=
  if nextHeader = 0x3a then icmp6Receive f nd w rounds
  else if nextHeader = 17 ∨ nextHeader = 6 then transportReceive f w nextHeader
  else ipv6DropPacket

/-- `ipv6_receive_process` -/
def ipv6ReceiveProcess (f : Frame) (nd : NicData) (w : Tables) (rounds : ℕ) : Proc Unit := do
  ipv6RawsocketCopy f w
  let nextHeader ← f.byte (headlen + 6)
  protocolReceive f nd w rounds nextHeader

/-- The destinations that are processed. -/
def NicData.accepts (nd : NicData) (destination : List UInt8) : Bool :=
  nd.owns destination || destination.take 2 = [0xff, 0x02]

/-- `ipv6_receive` -/
def ipv6Receive (f : Frame) (nd : NicData) (w : Tables) (rounds : ℕ) : Proc Unit := do
  let destination ← f.bytes (headlen + 24) 16
  if nd.accepts destination then ipv6ReceiveProcess f nd w rounds else ipv6DropPacket

/-- The frames that the link layer hands to `ipv6_receive`: multicast or for this card, of the type
of IPv6. -/
def Frame.ForIpv6 (f : Frame) (nd : NicData) : Prop :=
  ((f.data 0).toNat % 2 = 1 ∨ memread f.data 0 6 = nd.physaddr.octets) ∧
    fromBig16 (f.data 12) (f.data 13) = 0x86dd

instance (f : Frame) (nd : NicData) : Decidable (f.ForIpv6 nd) := by
  unfold Frame.ForIpv6
  infer_instance

/-- `net_nic_receive` of an Ethernet card, with `net_ethernet_receive`. -/
def netNicReceive (f : Frame) (nd : NicData) (w : Tables) (rounds : ℕ) : Proc Unit :=
  if f.ForIpv6 nd then ipv6Receive f nd w rounds else tell .packetPut

/-! ## Taking packets out of queues -/

/-- `_udp_recvfrom` with a buffer of the given length, and the size of the address asked for.
The length field minus 8 is a `size_t`. -/
def udpRecvfrom (f : Frame) (length srclen : ℕ) : Proc Unit := do
  let udplen ← f.big16 (dataOff + 4)
  let minlen := min length (sub64 udplen 8)
  tell (.read (dataOff + 8) minlen)
  tell (.copy minlen length)
  tell (.copy (min srclen 28) srclen)

/-- `_ipv6_recvfrom` on a duplicate. The duplicate has a buffer of its own, but its
`network_header` still points into the buffer of the packet it was made from, whose contents at the
time of the call are `header`. The source address has not been filled in when the packet is
duplicated, and the family 0 has the length 0. -/
def ipv6Recvfrom (header : ℕ → UInt8) (length srclen : ℕ) : Proc Unit := do
  let plen ← observe (.read (headlen + 4) 2)
    (fromBig16 (header (headlen + 4)) (header (headlen + 5)))
  let minlen := min length plen
  tell (.read dataOff minlen)
  tell (.copy minlen length)
  tell (.copy (min srclen 0) srclen)

/-- `_start_establish` on a packet of a listening socket. -/
def startEstablish : Proc Unit := tell (.read (dataOff + 4) 4)

/-- The call that takes a packet out of the queue it was put on; `header` is what the buffer of the
packet holds by then. -/
def Event.consumer (f : Frame) (header : ℕ → UInt8) (length srclen : ℕ) : Event → Proc Unit
  | .packetQueue (.udp _) => udpRecvfrom f length srclen
  | .packetQueue (.pendCon _) => startEstablish
  | .rawQueue _ => ipv6Recvfrom header length srclen
  | _ => pure ()

/-! ## The option loop -/

section Options

variable {σ : Type} {f : Frame} {stop : ℕ} {ends : UInt8 → Bool} {body : UInt8 → ℕ → σ → Proc σ}

/-- The options that a loop comes to from an offset. -/
inductive Walk (f : Frame) (stop : ℕ) (ends : UInt8 → Bool) : ℕ → ℕ → Prop
  | here {o : ℕ} (h : o < stop) : Walk f stop ends o o
  | next {o o' : ℕ} (h : o < stop) (ht : ends (f.data o) = false)
      (hw : Walk f stop ends (o + 8 * (f.data (o + 1)).toNat) o') : Walk f stop ends o o'

variable {o : ℕ}

theorem Walk.lt_stop {o' : ℕ} (h : Walk f stop ends o o') : o < stop := by
  cases h <;> assumption

theorem forall_walk_iff (ho : o < stop) {P : ℕ → Prop} : (∀ o', Walk f stop ends o o' → P o') ↔
      P o ∧ (ends (f.data o) = false →
        ∀ o', Walk f stop ends (o + 8 * (f.data (o + 1)).toNat) o' → P o') := by
  constructor
  · intro h
    exact ⟨h o (.here ho), fun ht o' hw => h o' (.next ho ht hw)⟩
  · rintro ⟨h, hnext⟩ o' hw
    cases hw with
    | here => exact h
    | next _ ht hw => exact hnext ht o' hw

theorem exists_walk_iff (ho : o < stop) {P : ℕ → Prop} : (∃ o', Walk f stop ends o o' ∧ P o') ↔
      P o ∨ ends (f.data o) = false ∧
        ∃ o', Walk f stop ends (o + 8 * (f.data (o + 1)).toNat) o' ∧ P o' := by
  constructor
  · rintro ⟨o', hw, h⟩
    cases hw with
    | here => exact .inl h
    | next _ ht hw => exact .inr ⟨ht, o', hw, h⟩
  · rintro (h | ⟨ht, o', hw, h⟩)
    · exact ⟨o, .here ho, h⟩
    · exact ⟨o', .next ho ht hw, h⟩

variable {rounds : ℕ} {s : σ}

theorem optionLoop_succ (ho : o < stop) : optionLoop f stop ends body (rounds + 1) o s =
      (f.byte o >>= fun type => body type o s >>= fun s =>
        if ends type then pure s
        else f.byte (o + 1) >>= fun length =>
          optionLoop f stop ends body rounds (o + 8 * length.toNat) s) :=
  if_pos ho

theorem optionLoop_of_ge (ho : stop ≤ o) : optionLoop f stop ends body (rounds + 1) o s = pure s :=
  if_neg (Nat.not_lt.mpr ho)

/-- **What a loop does over all its rounds** is what the body does at the options it comes to. -/
theorem optionLoop_each_iff {p : Event → Prop} {B : UInt8 → ℕ → Prop}
    (hend : ∀ type o s, (body type o s).result.isSome)
    (hbody : ∀ type o s, (body type o s).Each p ↔ B type o) (o : ℕ) (s : σ) :
    (∀ rounds, (optionLoop f stop ends body rounds o s).Each p) ↔ ∀ o', Walk f stop ends o o' →
        p (.read o' 1) ∧ B (f.data o') o' ∧ (ends (f.data o') = false → p (.read (o' + 1) 1)) := by
  -- what a round does, with the state after the body
  have hround : ∀ {o : ℕ} {s : σ}, o < stop → ∃ s', ∀ rounds,
      ((optionLoop f stop ends body (rounds + 1) o s).Each p ↔
        p (.read o 1) ∧ B (f.data o) o ∧ (ends (f.data o) = false → p (.read (o + 1) 1) ∧
          (optionLoop f stop ends body rounds (o + 8 * (f.data (o + 1)).toNat) s').Each p)) := by
    intro o s ho
    obtain ⟨s', hs'⟩ := Option.isSome_iff_exists.mp (hend (f.data o) o s)
    refine ⟨s', ?_⟩
    intro rounds
    rw [optionLoop_succ ho, each_observe_bind, each_bind, hbody]
    cases ends (f.data o) with
    | true => simp
    | false => simp [hs']
  constructor
  · intro h o' hw
    induction hw generalizing s with
    | here ho =>
      obtain ⟨s', hs'⟩ := hround ho
      obtain ⟨hread, hB, hnext⟩ := (hs' 0).mp (h 1)
      exact ⟨hread, hB, fun ht => (hnext ht).1⟩
    | next ho ht hw ih =>
      obtain ⟨s', hs'⟩ := hround ho
      exact ih s' fun rounds => (((hs' rounds).mp (h (rounds + 1))).2.2 ht).2
  · intro h rounds
    induction rounds generalizing o s with
    | zero => exact each_stuck
    | succ rounds ih =>
      rcases lt_or_ge o stop with ho | ho
      · rw [forall_walk_iff ho] at h
        obtain ⟨⟨hread, hB, hnext⟩, hrest⟩ := h
        obtain ⟨s', hs'⟩ := hround ho
        exact (hs' rounds).mpr ⟨hread, hB, fun ht => ⟨hnext ht, ih _ _ (hrest ht)⟩⟩
      · rw [optionLoop_of_ge ho]
        exact each_pure

variable (f stop ends) in
theorem optionLoop_kept {q : Event → Bool} (hq : ∀ off len, q (.read off len) = false)
    (hbody : ∀ type o s, (body type o s).kept q = []) (rounds o : ℕ) (s : σ) :
    (optionLoop f stop ends body rounds o s).kept q = [] := by
  induction rounds generalizing o s with
  | zero => rfl
  | succ rounds ih =>
    rcases lt_or_ge o stop with ho | ho
    · rw [optionLoop_succ ho, kept_observe_bind, kept_bind, hbody]
      cases (body (f.data o) o s).result with
      | none => simp [hq]
      | some s' => cases ends (f.data o) <;> simp [hq, ih]
    · rw [optionLoop_of_ge ho]
      rfl

/-- No option that a loop comes to leaves it where it is. -/
def Advances (f : Frame) (stop : ℕ) (ends : UInt8 → Bool) (o : ℕ) : Prop :=
  ∀ o', Walk f stop ends o o' → ends (f.data o') = false → 0 < (f.data (o' + 1)).toNat

variable (f ends) in
theorem optionLoop_result_succ (hend : ∀ type o s, (body type o s).result.isSome) (s : σ)
    (ho : o < stop) :
    ∃ s', (body (f.data o) o s).result = some s' ∧ ∀ rounds,
      (optionLoop f stop ends body (rounds + 1) o s).result =
        if ends (f.data o) then some s'
        else (optionLoop f stop ends body rounds (o + 8 * (f.data (o + 1)).toNat) s').result := by
  obtain ⟨s', hs'⟩ := Option.isSome_iff_exists.mp (hend (f.data o) o s)
  refine ⟨s', hs', ?_⟩
  intro rounds
  rw [optionLoop_succ ho, result_observe_bind, result_bind, hs', Option.bind_some]
  split <;> simp

variable (hend : ∀ type o s, (body type o s).result.isSome)

include hend

theorem advances_of_isSome (h : (optionLoop f stop ends body rounds o s).result.isSome) :
    Advances f stop ends o := by
  induction rounds generalizing o s with
  | zero => cases h
  | succ rounds ih =>
    rcases lt_or_ge o stop with ho | ho
    · obtain ⟨s', -, hs'⟩ := optionLoop_result_succ f ends hend s ho
      rw [hs'] at h
      rw [Advances, forall_walk_iff ho]
      cases hends : ends (f.data o) with
      | true => exact ⟨nofun, nofun⟩
      | false =>
        rw [hends, if_neg Bool.false_ne_true] at h
        have hrest := ih h
        -- an option of length 0 is the next one again
        have hlen : 0 < (f.data (o + 1)).toNat := by
          by_contra hzero
          rw [show (f.data (o + 1)).toNat = 0 by omega] at hrest
          exact hzero (hrest o (.here ho) hends)
        exact ⟨fun _ => hlen, fun _ => hrest⟩
    · intro o' hw
      exact absurd hw.lt_stop (by omega)

/-- **A loop ends exactly if it advances**, and then after no more rounds than there are bytes: the
offset grows by the length of each option. -/
theorem optionLoop_isSome_iff (s : σ) (hrounds : stop - o < rounds) :
    (optionLoop f stop ends body rounds o s).result.isSome ↔ Advances f stop ends o := by
  refine ⟨advances_of_isSome hend, fun h => ?_⟩
  induction rounds generalizing o s with
  | zero => omega
  | succ rounds ih =>
    rcases lt_or_ge o stop with ho | ho
    · obtain ⟨s', -, hs'⟩ := optionLoop_result_succ f ends hend s ho
      rw [Advances, forall_walk_iff ho] at h
      obtain ⟨hlen, hrest⟩ := h
      rw [hs']
      cases hends : ends (f.data o) with
      | true => rfl
      | false =>
        have hpos := hlen hends
        exact ih s' (by omega) (hrest hends)
    · rw [optionLoop_of_ge ho]
      rfl

end Options

/-! ### The options of an advertisement -/

section Advertisements

variable {f : Frame} {stop rounds o : ℕ}

theorem copyLinkAddress_result (f : Frame) (o : ℕ) : (copyLinkAddress f o).result = some () := rfl

theorem routerOption_result (f : Frame) (type : UInt8) (o : ℕ) (s : Bool × Option ℕ) :
    (routerOption f type o s).result =
      some (if type = 1 then (true, s.2) else if type = 3 then (s.1, some o) else s) := by
  unfold routerOption
  split
  · rfl
  · split <;> rfl

theorem routerOption_isSome (f : Frame) (type : UInt8) (o : ℕ) (s : Bool × Option ℕ) :
    (routerOption f type o s).result.isSome := by
  rw [routerOption_result]
  rfl

theorem advertOption_isSome (f : Frame) (type : UInt8) (o : ℕ) (s : Unit) :
    (advertOption f type o s).result.isSome := by
  unfold advertOption
  split <;> rfl

/-- The loop over a router advertisement has found a neighbour if it came to a link-layer address,
and its prefix is one that it came to. -/
theorem routerLoop_result {s s' : Bool × Option ℕ}
    (h : (optionLoop f stop (fun _ => false) (routerOption f) rounds o s).result = some s') :
    (s'.1 = true ↔ s.1 = true ∨ ∃ o', Walk f stop (fun _ => false) o o' ∧ f.data o' = 1) ∧
      (s'.2.isSome ↔ s.2.isSome ∨ ∃ o', Walk f stop (fun _ => false) o o' ∧ f.data o' = 3) ∧
      ∀ p, s'.2 = some p → s.2 = some p ∨ Walk f stop (fun _ => false) o p ∧ f.data p = 3 := by
  induction rounds generalizing o s with
  | zero => cases h
  | succ rounds ih =>
    rcases lt_or_ge o stop with ho | ho
    · obtain ⟨s₁, hs₁, hloop⟩ :=
        optionLoop_result_succ f (fun _ => false) (routerOption_isSome f) s ho
      rw [hloop, if_neg Bool.false_ne_true] at h
      obtain ⟨hneighbor, hprefix, hoffset⟩ := ih h
      rw [routerOption_result, Option.some_inj] at hs₁
      rw [exists_walk_iff ho, exists_walk_iff ho, hneighbor, hprefix]
      have hlater : ∀ p, s₁.2 = some p ∨ Walk f stop (fun _ => false)
          (o + 8 * (f.data (o + 1)).toNat) p ∧ f.data p = 3 →
          s₁.2 = some p ∨ Walk f stop (fun _ => false) o p ∧ f.data p = 3 := by
        rintro p (hp | ⟨hw, hp⟩)
        · exact .inl hp
        · exact .inr ⟨.next ho rfl hw, hp⟩
      subst hs₁
      by_cases h1 : f.data o = 1
      · simp only [h1, if_true] at hlater hoffset ⊢
        refine ⟨by simp, by simp, fun p hp => hlater p (hoffset p hp)⟩
      · by_cases h3 : f.data o = 3
        · simp only [h3] at hlater hoffset ⊢
          refine ⟨by simp, by simp, ?_⟩
          intro p hp
          rcases hlater p (hoffset p hp) with hp | hp
          · cases hp
            exact .inr ⟨.here ho, h3⟩
          · exact .inr hp
        · simp only [h1, h3, if_false] at hlater hoffset ⊢
          refine ⟨by simp, by simp, fun p hp => hlater p (hoffset p hp)⟩
    · rw [optionLoop_of_ge ho, result_pure, Option.some_inj] at h
      subst h
      have hnone : ∀ {o'}, ¬Walk f stop (fun _ => false) o o' := by
        intro o' hw
        exact absurd hw.lt_stop (by omega)
      simp [hnone]

end Advertisements

end SeaKernel.Receive
