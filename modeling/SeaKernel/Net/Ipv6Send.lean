import SeaKernel.Lib.Contents
import SeaKernel.Net.Ipv6
import SeaKernel.Net.Tcp

/-!
# Transmitted frames

`ipv6_network_send` of `net/ipv6.c` and its three callers: `_udp_sendto`, `_ipv6_sendto` of raw
sockets, and the worker of a TCP connection. The function copies the transport header and the
message into a packet buffer of 4096 bytes behind the link header and the IPv6 header, and takes
the place of the checksum from its caller; it looks at none of the lengths. The model's buffer has
no end, and every copy into it is recorded with its place.

The length of the packet handed to the driver is computed from the 16-bit length field, which is
cut off if the message is too long for it.

## Main definitions

* `Buffer`, `Buffer.store`: a packet buffer with the extents of its stores
* `SendArgs`, `Network`: the arguments of a call and what the tables answer
* `ipv6NetworkSend`: the packet a call builds
* `Call`: a transmission by one of the three callers
* `FrameOk`: the frame that a call should build

## Main results

* `frameOk_iff`: which frames are right
* `udpArgs_fits_iff`, `rawArgs_fits_iff`, `tcpArgs_fits_iff`: what fits, for each caller
* `transmission_sound_iff`: which transmissions return an error or build the right frame
-/

namespace SeaKernel.Ipv6

open List Option

/-! ## Building a packet -/

/-- A packet buffer, with the offset and the length of every store to it. -/
structure Buffer where
  data : ℕ → UInt8
  stores : List (ℕ × ℕ)

/-- A copy of bytes into the buffer. -/
def Buffer.store (b : Buffer) (off : ℕ) (bytes : List UInt8) : Buffer where
  data := memcpy b.data off bytes
  stores := (off, bytes.length) :: b.stores

/-- The part of `struct nic` that a packet depends on, with its link-local address. -/
structure Nic where
  physaddr : PhysicalAddress
  linkaddr : Address

/-- A port in network order. -/
structure Port where
  octets : List UInt8
  length_eq : octets.length = 2

/-- The destination of a packet (`struct sockaddr_in6`). The family is an index into the tables
`sockaddrinfo` and `senders`. -/
structure SockaddrIn6 where
  family : Fin 11
  port : Port
  addr : Address
  scope : ℕ

/-- What the tables of `ipv6.c` answer: the card with a number, the card of a prefix, the card and
the address of the default router, and the physical addresses of the neighbours that are
reachable. -/
structure Network where
  bynum : ℕ → Option Nic
  prefixes : List UInt8 → Option Nic
  defaultRouter : Option (Nic × Address)
  neighbor : Address → Option PhysicalAddress

/-- The arguments of `ipv6_network_send`; a null pointer is `none`. -/
structure SendArgs where
  daddr : SockaddrIn6
  sender : Option Nic
  trheader : Option (List UInt8)
  thlen : ℕ
  msg : Option (List UInt8)
  mlen : ℕ
  prot : UInt8
  csoff : ℤ
  trheader_length : ∀ h ∈ trheader, h.length = thlen
  msg_length : ∀ m ∈ msg, m.length = mlen

/-- The card to send from and the next hop. -/
def Network.route (net : Network) (a : SendArgs) : Except Errno (Nic × Address) :=
  let nexthop := a.daddr.addr
  match a.sender with
  | some nic => .ok (nic, nexthop)
  | none =>
    if nexthop.octets.take 2 = [0xff, 0x02] ∨ nexthop.octets.take 2 = [0xfe, 0x80] then
      match net.bynum a.daddr.scope with
      | some nic => .ok (nic, nexthop)
      | none => .error .enetunreach
    else
      match net.prefixes (nexthop.octets.take 8) with
      | some nic => .ok (nic, nexthop)
      | none =>
        match net.defaultRouter with
        | some (nic, router) => .ok (nic, router)
        | none => .error .enetunreach

/-- The stores to the IPv6 header; the version is the upper half of its byte. -/
def putHeader (b : Buffer) (a : SendArgs) : Buffer :=
  let b := b.store (headlen + 24) a.daddr.addr.octets
  let b := b.store (headlen + 4) (toBig16 (a.thlen + a.mlen))
  let b := b.store (headlen + 6) [a.prot]
  b.store headlen [UInt8.ofNat (6 * 16 + (b.data headlen).toNat % 16)]

/-- The copies of the transport header and of the message. -/
def putPayload (b : Buffer) (a : SendArgs) : Buffer :=
  let b := match a.trheader with
    | some h => b.store dataOff h
    | none => b
  match a.msg with
  | some m => b.store (dataOff + a.thlen) m
  | none => b

/-- `ipv6_construct_final`; the checksum goes to `header->data + csoff`. -/
def ipv6ConstructFinal (b : Buffer) (nic : Nic) (csoff : ℤ) : Buffer :=
  let b := b.store (headlen + 8) nic.linkaddr.octets
  let b := b.store (headlen + 7) [255]
  if csoff ≥ 0 then
    let b := b.store (dataOff + csoff.toNat) [0, 0]
    let sum := ipv6GenChecksum b.data
    b.store (dataOff + csoff.toNat) [UInt8.ofNat sum, UInt8.ofNat (sum / 256)]
  else b

/-- The stores of `net_ethernet_send`. -/
def netEthernetSend (b : Buffer) (nic : Nic) (addr : PhysicalAddress) : Buffer :=
  let b := b.store 0 addr.octets
  let b := b.store 6 nic.physaddr.octets
  b.store 12 (toBig16 0x86DD)

/-- The physical address for multicast packets. -/
def multicast : PhysicalAddress := ⟨[0x33, 0x33, 0, 0, 0, 0], rfl⟩

/-- A packet that has been built: its buffer and length, the card it goes out on, and the physical
address it was sent to; without one, it waits in the queue of its neighbour. -/
structure Packet where
  buffer : Buffer
  length : ℕ
  nic : Nic
  link : Option PhysicalAddress

/-- The end of `ipv6_network_send`: the packet is sent or queued. -/
def transmit (net : Network) (b : Buffer) (length : ℕ) (nic : Nic) (nexthop : Address) : Packet :=
  if nexthop.octets.head? = some 0xff then
    ⟨netEthernetSend b nic multicast, length, nic, some multicast⟩
  else
    match net.neighbor nexthop with
    | some physaddr => ⟨netEthernetSend b nic physaddr, length, nic, some physaddr⟩
    | none => ⟨b, length, nic, none⟩

/-- `ipv6_network_send`, on a packet buffer that holds anything. -/
def ipv6NetworkSend (net : Network) (data : ℕ → UInt8) (a : SendArgs) : Except Errno Packet := do
  let (nic, nexthop) ← net.route a
  let b := putPayload (putHeader ⟨data, []⟩ a) a
  let length := headlen + 40 + fromBig16 (b.data (headlen + 4)) (b.data (headlen + 5))
  return transmit net (ipv6ConstructFinal b nic a.csoff) length nic nexthop

/-! ## The callers -/

/-- The index of the only family with a sender. -/
def afInet6 : Fin 11 := 10

/-- `sockaddrinfo[family].length` -/
def sockaddrLength (family : Fin 11) : ℕ := if family = afInet6 then 28 else 0

/-- What `_udp_sendto` needs of its socket: the card it is tied to, the port of its binding, and the
port that binding it to the `any` address gives, if that succeeds. -/
structure UdpSocket where
  nic : Option Nic
  binding : Option Port
  autobind : Option Port

/-- The source port of a transmission: the socket is bound first if it is not. -/
def UdpSocket.srcport (sock : UdpSocket) : Option Port := sock.binding <|> sock.autobind

/-- A message in the memory of a caller; a null pointer is `none`. -/
structure Message where
  bytes : Option (List UInt8)
  length : ℕ
  length_eq : ∀ m ∈ bytes, m.length = length

/-- The arguments that `_udp_sendto` passes on: a header of eight bytes with its checksum at
offset 6. -/
def udpArgs (sock : UdpSocket) (m : Message) (dest : SockaddrIn6) (srcport : Port) :
    SendArgs where
  daddr := dest
  sender := sock.nic
  trheader := some (srcport.octets ++ dest.port.octets ++ toBig16 (m.length + 8) ++ [0, 0])
  thlen := 8
  msg := m.bytes
  mlen := m.length
  prot := 17
  csoff := 6
  trheader_length := by simp [srcport.length_eq, dest.port.length_eq]
  msg_length := m.length_eq

/-- `_udp_sendto` -/
def udpSendto (net : Network) (data : ℕ → UInt8) (sock : UdpSocket) (m : Message)
    (dest : Option SockaddrIn6) (destLen : ℕ) : Except Errno Packet :=
  match dest with
  | none => .error .einval
  | some dest =>
    if destLen < sockaddrLength dest.family then .error .einval
    else match sock.srcport with
      | none => .error .enomem
      | some srcport =>
        -- `net_network_send`: the other families have no sender
        if dest.family = afInet6 then ipv6NetworkSend net data (udpArgs sock m dest srcport)
        else .error .enotsup

/-- What `_ipv6_sendto` needs of a raw socket: its card, its protocol, and the place of the
checksum, if the option `IPV6_CHECKSUM` is set. -/
structure RawSocket where
  nic : Option Nic
  protocol : UInt8
  checksum : Option ℤ

/-- The arguments that `_ipv6_sendto` passes on: no transport header. -/
def rawArgs (sock : RawSocket) (m : Message) (dest : SockaddrIn6) : SendArgs where
  daddr := dest
  sender := sock.nic
  trheader := none
  thlen := 0
  msg := m.bytes
  mlen := m.length
  prot := sock.protocol
  csoff := sock.checksum.getD (-1)
  trheader_length := by simp
  msg_length := m.length_eq

/-- `_ipv6_sendto` -/
def ipv6Sendto (net : Network) (data : ℕ → UInt8) (sock : RawSocket) (m : Message)
    (dest : Option SockaddrIn6) (destLen : ℕ) : Except Errno Packet :=
  match dest with
  | none => .error .einval
  | some dest =>
    if destLen < sockaddrLength dest.family then .error .einval
    else ipv6NetworkSend net data (rawArgs sock m dest)

/-- The ends of a TCP connection, with the bytes that the checksum field of the header holds before
the checksum is computed. -/
structure TcpPeer where
  nic : Option Nic
  srcport : Port
  peer : SockaddrIn6
  stale : List UInt8
  stale_length : stale.length = 2

/-- `HOST_TO_BIG32` -/
def toBig32 (n : ℕ) : List UInt8 := toBig16 (n / 2 ^ 16) ++ toBig16 n

/-- The header of `__tcp_sendmsg`, with the data offset 5. -/
def tcpHeaderBytes (c : TcpPeer) (s : Tcp.Segment) : List UInt8 :=
  c.srcport.octets ++ c.peer.port.octets ++ toBig32 s.seqnum ++ toBig32 s.acknum ++
    [0x50, UInt8.ofNat s.flags] ++ toBig16 s.winsize ++ c.stale ++ [0, 0]

/-- The arguments that `__tcp_sendmsg` passes on. -/
def tcpArgs (c : TcpPeer) (s : Tcp.Segment) : SendArgs where
  daddr := c.peer
  sender := c.nic
  trheader := some (tcpHeaderBytes c s)
  thlen := 20
  msg := some s.payload
  mlen := s.payload.length
  prot := 6
  csoff := 16
  trheader_length := by
    simp [tcpHeaderBytes, toBig32, c.srcport.length_eq, c.peer.port.length_eq, c.stale_length]
  msg_length := by simp

/-- The transmission of the worker of a connection. -/
def tcpWorkerTransmit (net : Network) (data : ℕ → UInt8) (c : TcpPeer) (t : Tcp.Socket) :
    Except Errno Packet :=
  if c.peer.family = afInet6 then
    ipv6NetworkSend net data (tcpArgs c (Tcp.tcpWorkerSend t).2)
  else .error .enotsup

/-! ## The frame -/

/-- The bytes that are to follow the IPv6 header. -/
def SendArgs.payload (a : SendArgs) : List UInt8 := a.trheader.getD [] ++ a.msg.getD []

/-- Whether a byte of the payload is replaced by the checksum. -/
def SendArgs.checksummed (a : SendArgs) (j : ℕ) : Prop :=
  0 ≤ a.csoff ∧ (j = a.csoff.toNat ∨ j = a.csoff.toNat + 1)

/-- **The frame that a call should build**: inside the buffer, the link header, the IPv6 header and
the transport header with the whole message, as long as the length field says. -/
structure FrameOk (a : SendArgs) (nic : Nic) (addr : PhysicalAddress) (b : Buffer) (length : ℕ) :
    Prop where
  inside : ∀ s ∈ b.stores, s.1 + s.2 ≤ bufferSize
  fits : length ≤ bufferSize
  length_eq : length = dataOff + (a.thlen + a.mlen)
  link : memread b.data 0 headlen = addr.octets ++ nic.physaddr.octets ++ toBig16 0x86DD
  version : (b.data headlen).toNat / 16 = 6
  lengthField : fromBig16 (b.data (headlen + 4)) (b.data (headlen + 5)) = a.thlen + a.mlen
  nextHeader : b.data (headlen + 6) = a.prot
  hoplim : b.data (headlen + 7) = 255
  source : memread b.data (headlen + 8) 16 = nic.linkaddr.octets
  destination : memread b.data (headlen + 24) 16 = a.daddr.addr.octets
  payload_length : a.payload.length = a.thlen + a.mlen
  payload : ∀ j (hj : j < a.payload.length), ¬a.checksummed j →
    b.data (dataOff + j) = a.payload[j]

/-- A packet in the queue of its neighbour gets its link header when the neighbour is known. -/
def Packet.Ok (p : Packet) (a : SendArgs) : Prop :=
  match p.link with
  | some addr => FrameOk a p.nic addr p.buffer p.length
  | none => ∀ addr, FrameOk a p.nic addr (netEthernetSend p.buffer p.nic addr) p.length

/-- What a caller has to see to: the pointers are not null unless nothing is behind them, the frame
fits, and so does the checksum. -/
structure SendArgs.Fits (a : SendArgs) : Prop where
  trheader : a.trheader = none → a.thlen = 0
  msg : a.msg = none → a.mlen = 0
  frame : dataOff + (a.thlen + a.mlen) ≤ bufferSize
  checksum : a.csoff < 0 ∨ dataOff + a.csoff.toNat + 2 ≤ bufferSize

/-! ## What each stage stores -/

section Stages

variable {b : Buffer} {a : SendArgs} {nic : Nic} {addr : PhysicalAddress} {i : ℕ}
  {off : ℕ} {bytes : List UInt8}

theorem store_of_disjoint (h : i < off ∨ off + bytes.length ≤ i) :
    (b.store off bytes).data i = b.data i := by
  rcases h with hlt | hge
  · exact memcpy_of_lt hlt
  · exact memcpy_of_ge hge

variable {n : ℕ}

theorem memread_congr {data data' : ℕ → UInt8} (h : ∀ i, off ≤ i → i < off + n → data i = data' i) :
    memread data off n = memread data' off n := by
  apply map_congr_left
  intro j hj
  have hj' : j < n := mem_range.mp hj
  exact h _ (by omega) (by omega)

theorem memread_store (h : bytes.length = n) : memread (b.store off bytes).data off n = bytes := by
  subst h
  apply ext_getElem
  · simp
  · intro j hj hj'
    simp only [memread, getElem_map, getElem_range]
    exact memcpy_of_mem hj'

theorem memread_store_of_disjoint {off' : ℕ} (h : off' + n ≤ off ∨ off + bytes.length ≤ off') :
    memread (b.store off bytes).data off' n = memread b.data off' n := by
  apply memread_congr
  intro i hge hlt
  exact store_of_disjoint (by omega)

theorem netEthernetSend_of_ge (h : headlen ≤ i) :
    (netEthernetSend b nic addr).data i = b.data i := by
  have h14 : 14 ≤ i := h
  have haddr := addr.length_eq
  have hnic := nic.physaddr.length_eq
  unfold netEthernetSend
  rw [store_of_disjoint (by simp; omega), store_of_disjoint (by omega),
    store_of_disjoint (by omega)]

theorem memread_netEthernetSend : memread (netEthernetSend b nic addr).data 0 headlen =
      addr.octets ++ nic.physaddr.octets ++ toBig16 0x86DD := by
  have haddr := addr.length_eq
  have hnic := nic.physaddr.length_eq
  have hsplit : ∀ data : ℕ → UInt8,
      memread data 0 headlen = memread data 0 6 ++ memread data 6 6 ++ memread data 12 2 :=
    fun data => by rw [show headlen = 6 + 6 + 2 from rfl, memread_add, memread_add]
  have htype : memread (netEthernetSend b nic addr).data 12 2 = toBig16 0x86DD := memread_store rfl
  have hsrc : memread (netEthernetSend b nic addr).data 6 6 = nic.physaddr.octets := by
    unfold netEthernetSend
    rw [memread_store_of_disjoint (by simp), memread_store hnic]
  have hdest : memread (netEthernetSend b nic addr).data 0 6 = addr.octets := by
    unfold netEthernetSend
    rw [memread_store_of_disjoint (by simp), memread_store_of_disjoint (by simp),
      memread_store haddr]
  rw [hsplit, htype, hsrc, hdest]

variable {csoff : ℤ}

theorem ipv6ConstructFinal_of_ne (hhead : i ≠ headlen + 7)
    (hsource : i < headlen + 8 ∨ headlen + 24 ≤ i)
    (hsum : ¬(0 ≤ csoff ∧ (i = dataOff + csoff.toNat ∨ i = dataOff + csoff.toNat + 1))) :
    (ipv6ConstructFinal b nic csoff).data i = b.data i := by
  have hnic := nic.linkaddr.length_eq
  have hfields : ((b.store (headlen + 8) nic.linkaddr.octets).store (headlen + 7) [255]).data i =
      b.data i := by
    rw [store_of_disjoint (by simp only [length_singleton]; omega), store_of_disjoint (by omega)]
  unfold ipv6ConstructFinal
  dsimp only
  split
  · next hcs =>
    rw [store_of_disjoint (by simp; omega), store_of_disjoint (by simp; omega), hfields]
  · exact hfields

theorem ipv6ConstructFinal_of_lt (h : i < dataOff) : (ipv6ConstructFinal b nic csoff).data i =
      ((b.store (headlen + 8) nic.linkaddr.octets).store (headlen + 7) [255]).data i := by
  unfold ipv6ConstructFinal
  dsimp only
  split
  · rw [store_of_disjoint (by omega), store_of_disjoint (by omega)]
  · rfl

theorem ipv6ConstructFinal_source (b : Buffer) (nic : Nic) (csoff : ℤ) :
    memread (ipv6ConstructFinal b nic csoff).data (headlen + 8) 16 = nic.linkaddr.octets := by
  have hdata : dataOff = headlen + 40 := rfl
  rw [memread_congr fun i _ hi => ipv6ConstructFinal_of_lt (by omega),
    memread_store_of_disjoint (by simp), memread_store nic.linkaddr.length_eq]

theorem putPayload_of_lt (h : i < dataOff) : (putPayload b a).data i = b.data i := by
  unfold putPayload
  rcases a.trheader with _ | hd <;> rcases a.msg with _ | m
  · rfl
  · exact store_of_disjoint (by omega)
  · exact store_of_disjoint (by omega)
  · exact (store_of_disjoint (by omega)).trans (store_of_disjoint (by omega))

theorem putPayload_data (h : a.trheader = none → a.thlen = 0) :
    (putPayload b a).data = memcpy b.data dataOff a.payload := by
  have hlen := a.trheader_length
  unfold putPayload SendArgs.payload
  rcases htr : a.trheader with _ | hd
  · rw [h htr]
    rcases a.msg with _ | m
    · simp
    · rfl
  · have hthlen : hd.length = a.thlen := hlen hd htr
    rcases a.msg with _ | m
    · simp [Buffer.store]
    · simp [Buffer.store, memcpy_append, hthlen]

/-- The stages of a packet that is ready for its link header. -/
def built (data : ℕ → UInt8) (a : SendArgs) (nic : Nic) : Buffer :=
  ipv6ConstructFinal (putPayload (putHeader ⟨data, []⟩ a) a) nic a.csoff

/-- The packet length that the call computes. -/
def builtLength (data : ℕ → UInt8) (a : SendArgs) : ℕ :=
  let b := putPayload (putHeader ⟨data, []⟩ a) a
  headlen + 40 + fromBig16 (b.data (headlen + 4)) (b.data (headlen + 5))

/-! ### The fields of the header -/

theorem putHeader_length (b : Buffer) (a : SendArgs) :
    fromBig16 ((putHeader b a).data (headlen + 4)) ((putHeader b a).data (headlen + 5)) =
      (a.thlen + a.mlen) % 2 ^ 16 :=
  fromBig16_toBig16 (a.thlen + a.mlen)

theorem putHeader_nextHeader (b : Buffer) (a : SendArgs) :
    (putHeader b a).data (headlen + 6) = a.prot := rfl

theorem putHeader_version (b : Buffer) (a : SendArgs) :
    ((putHeader b a).data headlen).toNat / 16 = 6 := by
  have hbyte : ∀ c : UInt8, (UInt8.ofNat (6 * 16 + c.toNat % 16)).toNat / 16 = 6 := by
    intro c
    rw [UInt8.toNat_ofNat']
    omega
  exact hbyte _

theorem putHeader_destination (b : Buffer) (a : SendArgs) :
    memread (putHeader b a).data (headlen + 24) 16 = a.daddr.addr.octets := by
  unfold putHeader
  rw [memread_store_of_disjoint (by simp), memread_store_of_disjoint (by simp),
    memread_store_of_disjoint (by simp), memread_store a.daddr.addr.length_eq]

theorem builtLength_eq (data : ℕ → UInt8) (a : SendArgs) :
    builtLength data a = dataOff + (a.thlen + a.mlen) % 2 ^ 16 := by
  unfold builtLength
  dsimp only
  rw [putPayload_of_lt (by decide), putPayload_of_lt (by decide), putHeader_length]
  rfl

/-! ### The extents of the stores -/

/-- Every store to the buffer ends inside it. -/
def Buffer.Inside (b : Buffer) : Prop := ∀ s ∈ b.stores, s.1 + s.2 ≤ bufferSize

theorem inside_store : (b.store off bytes).Inside ↔ off + bytes.length ≤ bufferSize ∧ b.Inside :=
  forall_mem_cons

theorem inside_putHeader (data : ℕ → UInt8) (a : SendArgs) : (putHeader ⟨data, []⟩ a).Inside := by
  have hdest := a.daddr.addr.length_eq
  simp only [putHeader, inside_store, hdest]
  simp [Buffer.Inside, headlen, bufferSize]

theorem inside_putPayload (hb : b.Inside) (hfits : a.Fits) : (putPayload b a).Inside := by
  have hframe := hfits.frame
  have hthlen := a.trheader_length
  have hmlen := a.msg_length
  unfold putPayload
  rcases htr : a.trheader with _ | hd <;> rcases hmsg : a.msg with _ | m
  · exact hb
  · have := hmlen m hmsg
    exact inside_store.mpr ⟨by omega, hb⟩
  · have := hthlen hd htr
    exact inside_store.mpr ⟨by omega, hb⟩
  · have := hthlen hd htr
    have := hmlen m hmsg
    exact inside_store.mpr ⟨by omega, inside_store.mpr ⟨by omega, hb⟩⟩

theorem inside_ipv6ConstructFinal : (ipv6ConstructFinal b nic csoff).Inside ↔
      b.Inside ∧ (csoff < 0 ∨ dataOff + csoff.toNat + 2 ≤ bufferSize) := by
  have hnic := nic.linkaddr.length_eq
  unfold ipv6ConstructFinal
  dsimp only
  split
  · next hcs =>
    simp only [inside_store, hnic, length_cons, length_nil]
    have hsource : headlen + 8 + 16 ≤ bufferSize := by decide
    have hhop : headlen + 7 + (0 + 1) ≤ bufferSize := by decide
    constructor
    · rintro ⟨hsum, -, -, -, hb⟩
      exact ⟨hb, .inr hsum⟩
    · rintro ⟨hb, hneg | hsum⟩
      · omega
      · exact ⟨hsum, hsum, hhop, hsource, hb⟩
  · next hcs =>
    simp only [inside_store, hnic, length_cons, length_nil]
    have hneg : csoff < 0 := by omega
    simp [hneg, headlen, bufferSize]

theorem inside_netEthernetSend : (netEthernetSend b nic addr).Inside ↔ b.Inside := by
  have haddr := addr.length_eq
  have hnic := nic.physaddr.length_eq
  simp [netEthernetSend, inside_store, haddr, hnic, bufferSize]

end Stages

/-! ## Which frames are right -/

section Frames

variable {data : ℕ → UInt8} {a : SendArgs} {nic : Nic} {addr : PhysicalAddress}

theorem payload_length_iff : a.payload.length = a.thlen + a.mlen ↔
      (a.trheader = none → a.thlen = 0) ∧ (a.msg = none → a.mlen = 0) := by
  have hthlen := a.trheader_length
  have hmlen := a.msg_length
  unfold SendArgs.payload
  rcases htr : a.trheader with _ | hd <;> rcases hmsg : a.msg with _ | m
  · simp
    omega
  · have := hmlen m hmsg
    simp
    omega
  · have := hthlen hd htr
    simp
    omega
  · have := hthlen hd htr
    have := hmlen m hmsg
    simp
    omega

/-- **Which frames are right**: those of calls that fit. -/
theorem frameOk_iff :
    FrameOk a nic addr (netEthernetSend (built data a nic) nic addr) (builtLength data a) ↔
      a.Fits := by
  constructor
  · intro h
    obtain ⟨htr, hmsg⟩ := payload_length_iff.mp h.payload_length
    have hinside : (netEthernetSend (built data a nic) nic addr).Inside := h.inside
    rw [inside_netEthernetSend, built, inside_ipv6ConstructFinal] at hinside
    have hfits := h.fits
    rw [h.length_eq] at hfits
    exact ⟨htr, hmsg, hfits, hinside.2⟩
  · intro h
    have hframe := h.frame
    have hdata : dataOff = 54 := rfl
    have hsize : bufferSize = 4096 := rfl
    have hhead : headlen = 14 := rfl
    have hshort : (a.thlen + a.mlen) % 2 ^ 16 = a.thlen + a.mlen := Nat.mod_eq_of_lt (by omega)
    have hfield : ∀ i, headlen ≤ i → i < headlen + 7 ∨ headlen + 24 ≤ i ∧ i < dataOff →
        (netEthernetSend (built data a nic) nic addr).data i = (putHeader ⟨data, []⟩ a).data i := by
      intro i hi hrange
      rw [netEthernetSend_of_ge hi, built, ipv6ConstructFinal_of_ne (by omega) (by omega)
        (by omega), putPayload_of_lt (by omega)]
    refine ⟨?_, ?_, ?_, memread_netEthernetSend, ?_, ?_, ?_, ?_, ?_, ?_, ?_, ?_⟩
    · exact inside_netEthernetSend.mpr (inside_ipv6ConstructFinal.mpr
        ⟨inside_putPayload (inside_putHeader data a) h, h.checksum⟩)
    · rw [builtLength_eq, hshort]
      exact hframe
    · rw [builtLength_eq, hshort]
    · rw [hfield _ (by omega) (by omega), putHeader_version]
    · rw [hfield _ (by omega) (by omega), hfield _ (by omega) (by omega), putHeader_length, hshort]
    · rw [hfield _ (by omega) (by omega), putHeader_nextHeader]
    · rw [netEthernetSend_of_ge (by omega), built, ipv6ConstructFinal_of_lt (by omega)]
      rfl
    · rw [memread_congr fun i hi _ => netEthernetSend_of_ge (by omega)]
      exact ipv6ConstructFinal_source ..
    · rw [← putHeader_destination ⟨data, []⟩ a]
      exact memread_congr fun i hge hlt => hfield i (by omega) (by omega)
    · exact payload_length_iff.mpr ⟨h.trheader, h.msg⟩
    · intro j hj hsum
      unfold SendArgs.checksummed at hsum
      rw [netEthernetSend_of_ge (by omega), built, ipv6ConstructFinal_of_ne (by omega) (by omega)
        (by omega), putPayload_data h.trheader, memcpy_of_mem hj]

/-! ## Which calls are right -/

/-- The addresses that stay on the link of a card. -/
def LinkScope (addr : Address) : Prop :=
  addr.octets.take 2 = [0xff, 0x02] ∨ addr.octets.take 2 = [0xfe, 0x80]

/-- There is a card to send from. -/
def Network.Reachable (net : Network) (a : SendArgs) : Prop :=
  a.sender ≠ none ∨ LinkScope a.daddr.addr ∧ net.bynum a.daddr.scope ≠ none ∨
    ¬LinkScope a.daddr.addr ∧
      (net.prefixes (a.daddr.addr.octets.take 8) ≠ none ∨ net.defaultRouter ≠ none)

theorem route_eq_ok_iff (net : Network) (a : SendArgs) :
    (∃ r, net.route a = .ok r) ↔ net.Reachable a := by
  unfold Network.route Network.Reachable LinkScope
  cases a.sender with
  | some nic => simp
  | none =>
    dsimp only
    split_ifs with hscope
    · cases net.bynum a.daddr.scope <;> simp [hscope]
    · cases net.prefixes (a.daddr.addr.octets.take 8) with
      | some nic => simp [hscope]
      | none => cases net.defaultRouter <;> simp [hscope]

/-- A call returns an error, or the packet it builds is right. -/
def Sound (result : Except Errno Packet) (a : SendArgs) : Prop := ∀ p, result = .ok p → p.Ok a

theorem transmit_ok_iff (net : Network) (nexthop : Address) :
    (transmit net (built data a nic) (builtLength data a) nic nexthop).Ok a ↔ a.Fits := by
  unfold transmit
  split
  · exact frameOk_iff
  · split
    · exact frameOk_iff
    · constructor
      · intro h
        exact frameOk_iff.mp (h multicast)
      · intro h addr
        exact frameOk_iff.mpr h

/-- A call of `ipv6_network_send` is right exactly if there is no way to the destination or the
frame fits. -/
theorem ipv6NetworkSend_sound_iff (net : Network) (data : ℕ → UInt8) (a : SendArgs) :
    Sound (ipv6NetworkSend net data a) a ↔ (net.Reachable a → a.Fits) := by
  rw [← route_eq_ok_iff]
  unfold Sound ipv6NetworkSend
  cases hroute : net.route a with
  | error e => simp [bind, Except.bind]
  | ok r =>
    obtain ⟨nic, nexthop⟩ := r
    constructor
    · intro h _
      exact (transmit_ok_iff net nexthop).mp (h _ rfl)
    · intro h p hp
      cases hp
      exact (transmit_ok_iff net nexthop).mpr (h ⟨_, rfl⟩)

end Frames

/-! ### The three callers -/

/-- A transmission by one of the three callers of `ipv6_network_send`. -/
inductive Call where
  | udp (sock : UdpSocket) (m : Message) (dest : Option SockaddrIn6) (destLen : ℕ)
  | raw (sock : RawSocket) (m : Message) (dest : Option SockaddrIn6) (destLen : ℕ)
  | tcp (c : TcpPeer) (t : Tcp.Socket)

/-- What a transmission returns. -/
def Call.result (net : Network) (data : ℕ → UInt8) : Call → Except Errno Packet
  | .udp sock m dest destLen => udpSendto net data sock m dest destLen
  | .raw sock m dest destLen => ipv6Sendto net data sock m dest destLen
  | .tcp c t => tcpWorkerTransmit net data c t

/-- The arguments that a transmission passes to `ipv6_network_send`, if the checks of the caller
let it come that far. -/
def Call.args : Call → Option SendArgs
  | .udp sock m dest destLen => do
    let dest ← dest
    let srcport ← sock.srcport
    if dest.family = afInet6 ∧ 28 ≤ destLen then some (udpArgs sock m dest srcport) else none
  | .raw sock m dest destLen => do
    let dest ← dest
    if sockaddrLength dest.family ≤ destLen then some (rawArgs sock m dest) else none
  | .tcp c t =>
    if c.peer.family = afInet6 then some (tcpArgs c (Tcp.tcpWorkerSend t).2) else none

/-- A transmission returns an error, or it has passed on its arguments and the packet is right. -/
def Call.Sound (net : Network) (data : ℕ → UInt8) (call : Call) : Prop :=
  ∀ p, call.result net data = .ok p → ∃ a, call.args = some a ∧ p.Ok a

/-- The lengths for which the frame of a transmission fits. -/
def Call.Fits : Call → Prop
  | .udp _ m _ _ => (m.bytes = none → m.length = 0) ∧ m.length ≤ 4034
  | .raw sock m _ _ =>
    (m.bytes = none → m.length = 0) ∧ m.length ≤ 4042 ∧ ∀ c ∈ sock.checksum, c ≤ 4040
  | .tcp _ t => min (min t.pending (Tcp.windowSz - t.sendNext % Tcp.windowSz)) t.sendWin ≤ 4022

theorem udpArgs_fits_iff {sock : UdpSocket} {m : Message} {dest : SockaddrIn6} {srcport : Port} :
    (udpArgs sock m dest srcport).Fits ↔ (m.bytes = none → m.length = 0) ∧ m.length ≤ 4034 := by
  constructor
  · rintro ⟨-, hmsg, hframe, -⟩
    simp only [udpArgs, dataOff, headlen, bufferSize] at hmsg hframe
    exact ⟨hmsg, by omega⟩
  · rintro ⟨hmsg, hlen⟩
    refine ⟨nofun, hmsg, ?_, .inr (show dataOff + 6 + 2 ≤ bufferSize by decide)⟩
    simp only [udpArgs, dataOff, headlen, bufferSize]
    omega

theorem rawArgs_fits_iff {sock : RawSocket} {m : Message} {dest : SockaddrIn6} :
    (rawArgs sock m dest).Fits ↔
      (m.bytes = none → m.length = 0) ∧ m.length ≤ 4042 ∧ ∀ c ∈ sock.checksum, c ≤ 4040 := by
  have hsum : (sock.checksum.getD (-1) < 0 ∨
      dataOff + (sock.checksum.getD (-1)).toNat + 2 ≤ bufferSize) ↔
      ∀ c ∈ sock.checksum, c ≤ 4040 := by
    simp only [dataOff, headlen, bufferSize]
    cases sock.checksum with
    | none => simp
    | some c =>
      simp only [getD_some, mem_some_iff, forall_eq']
      omega
  constructor
  · rintro ⟨-, hmsg, hframe, hcs⟩
    simp only [rawArgs, dataOff, headlen, bufferSize] at hmsg hframe
    exact ⟨hmsg, by omega, hsum.mp hcs⟩
  · rintro ⟨hmsg, hlen, hcs⟩
    refine ⟨fun _ => rfl, hmsg, ?_, hsum.mpr hcs⟩
    simp only [rawArgs, dataOff, headlen, bufferSize]
    omega

theorem tcpArgs_fits_iff {c : TcpPeer} {t : Tcp.Socket} : (tcpArgs c (Tcp.tcpWorkerSend t).2).Fits ↔
      min (min t.pending (Tcp.windowSz - t.sendNext % Tcp.windowSz)) t.sendWin ≤ 4022 := by
  have hlen : (Tcp.tcpWorkerSend t).2.payload.length = Tcp.workerLen t := by
    simp [Tcp.tcpWorkerSend, Tcp.tcpSendmsg]
  rw [← Tcp.workerLen_eq, ← hlen]
  constructor
  · rintro ⟨-, -, hframe, -⟩
    simp only [tcpArgs, dataOff, headlen, bufferSize] at hframe
    omega
  · intro h
    refine ⟨by simp [tcpArgs], by simp [tcpArgs], ?_,
      .inr (show dataOff + 16 + 2 ≤ bufferSize by decide)⟩
    simp only [tcpArgs, dataOff, headlen, bufferSize]
    omega

theorem Call.result_eq_ok_iff (net : Network) (data : ℕ → UInt8) (call : Call) (p : Packet) :
    call.result net data = .ok p ↔
      ∃ a, call.args = some a ∧ ipv6NetworkSend net data a = .ok p := by
  cases call with
  | udp sock m dest destLen =>
    cases dest with
    | none => simp [result, udpSendto, args]
    | some dest =>
      cases hport : sock.srcport with
      | none =>
        simp only [result, udpSendto, args, hport]
        split <;> simp
      | some srcport =>
        by_cases hfamily : dest.family = afInet6
        · by_cases hlen : destLen < 28
          · simp [result, udpSendto, args, hport, sockaddrLength, hfamily, hlen]
          · simp [result, udpSendto, args, hport, sockaddrLength, hfamily, hlen, Nat.not_lt.mp hlen]
        · simp [result, udpSendto, args, hport, sockaddrLength, hfamily]
  | raw sock m dest destLen =>
    cases dest with
    | none => simp [result, ipv6Sendto, args]
    | some dest =>
      by_cases hlen : destLen < sockaddrLength dest.family
      · simp [result, ipv6Sendto, args, hlen]
      · simp [result, ipv6Sendto, args, hlen, Nat.not_lt.mp hlen]
  | tcp c t =>
    by_cases hfamily : c.peer.family = afInet6
    · simp [result, tcpWorkerTransmit, args, hfamily]
    · simp [result, tcpWorkerTransmit, args, hfamily]

theorem Call.fits_iff {call : Call} {a : SendArgs} (h : call.args = some a) :
    a.Fits ↔ call.Fits := by
  cases call with
  | udp sock m dest destLen =>
    simp only [args, bind_eq_bind, bind_eq_some_iff, ite_none_right_eq_some, some.injEq] at h
    obtain ⟨dest, -, srcport, -, -, rfl⟩ := h
    exact udpArgs_fits_iff
  | raw sock m dest destLen =>
    simp only [args, bind_eq_bind, bind_eq_some_iff, ite_none_right_eq_some, some.injEq] at h
    obtain ⟨dest, -, -, rfl⟩ := h
    exact rawArgs_fits_iff
  | tcp c t =>
    simp only [args, ite_none_right_eq_some, some.injEq] at h
    obtain ⟨-, rfl⟩ := h
    exact tcpArgs_fits_iff

/-- **Which transmissions are right**: a transmission that passes the checks of its caller and has a
card to send from builds the right frame exactly if its lengths fit. -/
theorem transmission_sound_iff (net : Network) (data : ℕ → UInt8) (call : Call) :
    call.Sound net data ↔ ∀ a, call.args = some a → net.Reachable a → call.Fits := by
  have hsend : ∀ a, Sound (ipv6NetworkSend net data a) a ↔ (net.Reachable a → a.Fits) :=
    ipv6NetworkSend_sound_iff net data
  constructor
  · intro h a ha
    rw [← Call.fits_iff ha, ← hsend]
    intro p hp
    obtain ⟨a', ha', hok⟩ := h p ((Call.result_eq_ok_iff ..).mpr ⟨a, ha, hp⟩)
    cases ha.symm.trans ha'
    exact hok
  · intro h p hp
    obtain ⟨a, ha, hp⟩ := (Call.result_eq_ok_iff ..).mp hp
    have hfits := h a ha
    rw [← Call.fits_iff ha, ← hsend] at hfits
    exact ⟨a, ha, hfits p hp⟩

/-! ### Datagrams of different lengths -/

/-- A card at the address `fe80::1`. -/
def testNic : Nic where
  physaddr := ⟨[2, 0, 0, 0, 0, 1], rfl⟩
  linkaddr := ⟨[0xfe, 0x80, 0, 0, 0, 0, 0, 0, 0, 0, 0, 0, 0, 0, 0, 1], rfl⟩

/-- Port 2048 at the address `fe80::2`. -/
def testDest : SockaddrIn6 where
  family := afInet6
  port := ⟨[8, 0], rfl⟩
  addr := ⟨[0xfe, 0x80, 0, 0, 0, 0, 0, 0, 0, 0, 0, 0, 0, 0, 0, 2], rfl⟩
  scope := 0

/-- A datagram of the given length, from a socket tied to the card. -/
def datagram (length : ℕ) : Call :=
  .udp ⟨some testNic, some ⟨[4, 0], rfl⟩, none⟩
    ⟨some (List.replicate length 7), length, by simp⟩ (some testDest) 28

/-- A network without routers that knows its neighbour. -/
def testNet : Network where
  bynum _ := some testNic
  prefixes _ := none
  defaultRouter := none
  neighbor _ := some ⟨[2, 0, 0, 0, 0, 2], rfl⟩

theorem datagram_sent : (datagram 4034).Sound testNet (fun _ => 0) := by
  refine (transmission_sound_iff ..).mpr ?_
  intro _ _ _
  exact ⟨nofun, le_rfl⟩

theorem datagram_store (length : ℕ) : ∃ p, (datagram length).result testNet (fun _ => 0) = .ok p ∧
      p.link = some ⟨[2, 0, 0, 0, 0, 2], rfl⟩ ∧ (62, length) ∈ p.buffer.stores := by
  refine ⟨_, rfl, rfl, ?_⟩
  simp [transmit, testNet, testDest, netEthernetSend, ipv6ConstructFinal, putPayload, udpArgs,
    Buffer.store, dataOff, headlen]

theorem datagram_overruns :
    (∃ p, (datagram 5000).result testNet (fun _ => 0) = .ok p ∧ (62, 5000) ∈ p.buffer.stores) ∧
      ¬(datagram 5000).Sound testNet (fun _ => 0) := by
  obtain ⟨p, hp, hlink, hmem⟩ := datagram_store 5000
  refine ⟨⟨p, hp, hmem⟩, ?_⟩
  intro h
  obtain ⟨a, -, hok⟩ := h p hp
  rw [Packet.Ok, hlink] at hok
  exact absurd (hok.inside _ hmem) (by decide)

end SeaKernel.Ipv6
