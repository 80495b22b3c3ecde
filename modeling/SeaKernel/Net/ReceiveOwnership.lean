import SeaKernel.Net.Receive

/-!
# Who owns a received packet

`net_nic_receive` creates a packet object with one reference. Every handler is meant to pass it on:
to drop it, to send it back as a reply, whose transmission drops it, or to put it on a queue. The
handlers of TCP segments and of router advertisements that are accepted do none of this, and the
packet is never released.

What a handler does to the references is a short list of events, whatever it reads on its way
(`Handed`, `Leaked`); the results follow from the lists.

## Main results

* `netNicReceive_ends_iff`: which frames are processed in finitely many rounds
* `netNicReceive_hands`: what is done to the references, for every frame
* `icmp6Receive_rounds_iff`: when the loops over ICMP options come to an end
* `ownership`: which packets are owned when their processing ends
-/

namespace SeaKernel.Receive

open Ipv6 Logged Event

/-! ## Ownership -/

/-- The events that take, drop or hand over references. -/
def Event.owning : Event → Bool
  | .read _ _ => false
  | .copy _ _ => false
  | .rawQueue _ => false
  | _ => true

def Event.isQueue : Event → Bool
  | .packetQueue _ => true
  | _ => false

/-- The reference count of the packet after some events. Nothing may be done to a packet whose count
is 0. -/
def refsAfter : ℕ → List Event → Option ℕ
  | refs, [] => some refs
  | 0, e :: es =>
    if e = .packetGet ∨ e = .packetPut ∨ e.isQueue then none else refsAfter 0 es
  | refs + 1, .packetGet :: es => refsAfter (refs + 2) es
  | refs + 1, .packetPut :: es => refsAfter refs es
  | refs + 1, _ :: es => refsAfter (refs + 1) es

/-- **The packet is released, or held by the queues it was put on with one reference each**, and the
references to sockets have been dropped. -/
structure Owned (es : List Event) : Prop where
  packet : refsAfter 1 es = some (es.countP Event.isQueue)
  sockets : ∀ sock, es.count (.sockGet sock) = es.count (.sockPut sock)

/-- The packet has been released, or will be when it is taken off the queues. -/
def Released (es : List Event) : Prop :=
  1 + es.count .packetGet ≤ es.count .packetPut + es.countP Event.isQueue

theorem refsAfter_filter (refs : ℕ) (es : List Event) :
    refsAfter refs (es.filter Event.owning) = refsAfter refs es := by
  induction es generalizing refs with
  | nil => rfl
  | cons e es ih =>
    cases refs with
    | zero => cases e <;> simp [List.filter_cons, owning, isQueue, refsAfter, ih]
    | succ refs => cases e <;> simp [List.filter_cons, owning, refsAfter, ih]

theorem countP_filter_owning (es : List Event) :
    (es.filter Event.owning).countP Event.isQueue = es.countP Event.isQueue := by
  rw [List.countP_filter]
  refine List.countP_congr fun e _ => ?_
  cases e <;> simp [isQueue, owning]

variable {es : List Event}

theorem released_filter_iff : Released (es.filter Event.owning) ↔ Released es := by
  unfold Released
  rw [List.count_filter rfl, List.count_filter rfl, countP_filter_owning]

theorem owned_filter_iff : Owned (es.filter Event.owning) ↔ Owned es := by
  have hqueues := countP_filter_owning es
  have hcount : ∀ e : Event, e.owning → (es.filter owning).count e = es.count e :=
    fun e he => List.count_filter he
  constructor
  · rintro ⟨hpacket, hsockets⟩
    rw [refsAfter_filter, hqueues] at hpacket
    refine ⟨hpacket, fun sock => ?_⟩
    rw [← hcount _ rfl, hsockets, hcount _ rfl]
  · rintro ⟨hpacket, hsockets⟩
    refine ⟨by rwa [refsAfter_filter, hqueues], fun sock => ?_⟩
    rw [hcount _ rfl, hsockets, hcount _ rfl]

/-! ## What the handlers do -/

/-- The packet is dropped or put on one queue. -/
inductive Handed : List Event → Prop
  | put : Handed [.packetPut]
  | neighbor : Handed [.packetQueue .neighbor]
  | udp (sock : ℕ) : Handed [.sockGet sock, .packetQueue (.udp sock), .sockPut sock]

/-- The first reference to the packet is kept by nobody. -/
inductive Leaked : List Event → Prop
  | nothing : Leaked []
  | unused (sock : ℕ) : Leaked [.sockGet sock, .sockPut sock]
  | listening (sock : ℕ) :
    Leaked [.sockGet sock, .packetGet, .packetQueue (.pendCon sock), .sockPut sock]
  | reset (sock : ℕ) : Leaked [.sockGet sock]
  | establishing (sock bound : ℕ) :
    Leaked [.sockGet sock, .sockGet bound, .sockGet sock, .sockPut bound, .sockPut sock]

theorem Handed.owned (h : Handed es) : Owned es := by
  cases h with
  | put => exact ⟨rfl, fun sock => rfl⟩
  | neighbor => exact ⟨rfl, fun sock => rfl⟩
  | udp s => exact ⟨rfl, fun sock => by simp [List.count_cons]⟩

theorem Handed.released (h : Handed es) : Released es := by
  cases h <;> simp [Released, List.countP_cons, isQueue]

theorem Leaked.not_owned (h : Leaked es) : ¬Owned es := by
  intro howned
  have hpacket := howned.packet
  cases h <;> simp [refsAfter, List.countP_cons, isQueue] at hpacket

theorem Leaked.not_released (h : Leaked es) : ¬Released es := by
  cases h <;> simp [Released, List.countP_cons, isQueue]

/-- A handler passes the packet on if it ends and nothing is leaked. -/
structure Hands (x : Proc Unit) (leaks : Prop) : Prop where
  handed : x.result.isSome → ¬leaks → Handed (x.kept Event.owning)
  leaked : x.result = none ∨ leaks → Leaked (x.kept Event.owning)

namespace Hands

variable {α : Type} {x : Proc Unit} {y : Proc α} {g : α → Proc Unit} {a : α} {leaks leaks' : Prop}

theorem of_handed (hx : x.result = some ()) (h : Handed (x.kept Event.owning)) : Hands x False := by
  refine ⟨fun _ _ => h, ?_⟩
  rintro (hnone | hfalse)
  · exact absurd (hx.symm.trans hnone) nofun
  · exact hfalse.elim

theorem of_leaked (h : Leaked (x.kept Event.owning)) : Hands x True :=
  ⟨fun _ hleaks => absurd trivial hleaks, fun _ => h⟩

theorem congr (h : Hands x leaks) (hiff : leaks ↔ leaks') : Hands x leaks' := by
  rwa [← propext hiff]

theorem bind_of_nil (hy : y.kept Event.owning = []) (ha : y.result = some a)
    (h : Hands (g a) leaks) : Hands (y >>= g) leaks := by
  have hresult : (y >>= g).result = (g a).result := result_bind_of_some ha
  have hkept : (y >>= g).kept owning = (g a).kept owning := kept_bind_of_nil hy ha
  refine ⟨?_, ?_⟩
  · rw [hresult, hkept]
    exact h.handed
  · rw [hresult, hkept]
    exact h.leaked

theorem bind_of_none (hy : y.kept Event.owning = []) (hnone : y.result = none) :
    Hands (y >>= g) leaks := by
  have hresult : (y >>= g).result = none := by rw [result_bind, hnone]; rfl
  have hkept : (y >>= g).kept owning = [] := by rw [kept_bind, hy, hnone]; rfl
  refine ⟨fun hsome => ?_, fun _ => ?_⟩
  · rw [hresult] at hsome
    cases hsome
  · rw [hkept]
    exact .nothing

theorem read_bind {off len : ℕ} (h : Hands (g a) leaks) :
    Hands (observe (.read off len) a >>= g) leaks :=
  bind_of_nil rfl rfl h

end Hands

theorem ipv6DropPacket_hands : Hands ipv6DropPacket False := .of_handed rfl .put

theorem ipv6ReplyPacket_hands (f : Frame) (reachable : Bool) :
    Hands (ipv6ReplyPacket f reachable) False := by
  cases reachable with
  | true => exact .of_handed rfl .put
  | false => exact .of_handed rfl .neighbor

theorem rawsocketLoop_quiet (nextHeader : ℕ) (socks : List (ℕ × ℕ)) :
    (rawsocketLoop nextHeader socks).kept Event.owning = [] ∧
      (rawsocketLoop nextHeader socks).result = some () := by
  induction socks with
  | nil => exact ⟨rfl, rfl⟩
  | cons sock socks ih =>
    obtain ⟨sock, protocol⟩ := sock
    have hqueue : ∀ b : Bool,
        (if b then tell (.rawQueue sock) else pure () : Proc Unit).kept owning = [] ∧
          (if b then tell (.rawQueue sock) else pure () : Proc Unit).result = some () := by
      intro b
      cases b <;> exact ⟨rfl, rfl⟩
    obtain ⟨hkept, hresult⟩ := hqueue (rawMatches nextHeader protocol)
    exact ⟨(kept_bind_of_nil hkept hresult).trans ih.1, (result_bind_of_some hresult).trans ih.2⟩

theorem ipv6RawsocketCopy_quiet (f : Frame) (w : Tables) :
    (ipv6RawsocketCopy f w).kept Event.owning = [] ∧ (ipv6RawsocketCopy f w).result = some () := by
  unfold ipv6RawsocketCopy
  split
  · exact ⟨rfl, rfl⟩
  · exact rawsocketLoop_quiet (f.data (headlen + 6)).toNat w.raw

theorem routerOption_kept (f : Frame) (type : UInt8) (o : ℕ) (s : Bool × Option ℕ) :
    (routerOption f type o s).kept Event.owning = [] := by
  unfold routerOption
  split
  · rfl
  · split <;> rfl

theorem advertOption_kept (f : Frame) (type : UInt8) (o : ℕ) (s : Unit) :
    (advertOption f type o s).kept Event.owning = [] := by
  unfold advertOption
  split <;> rfl

/-! ### The fields that decide -/

/-- The length field of the IPv6 header. -/
abbrev Frame.plen (f : Frame) : ℕ := f.get16 (headlen + 4)

abbrev Frame.destination (f : Frame) : List UInt8 := memread f.data (headlen + 24) 16

abbrev Frame.nextHeader (f : Frame) : UInt8 := f.data (headlen + 6)

abbrev Frame.icmpType (f : Frame) : UInt8 := f.data dataOff

/-- The frames that get to `ipv6_receive_process`. -/
def Frame.Processed (f : Frame) (nd : NicData) : Prop :=
  f.ForIpv6 nd ∧ nd.accepts f.destination

/-- The options of a router advertisement. -/
abbrev Frame.RouterWalk (f : Frame) : ℕ → Prop :=
  Walk f (dataOff + f.plen) (fun _ => false) (dataOff + 16)

/-- The options of a neighbour advertisement, up to the first link-layer address. -/
abbrev Frame.AdvertWalk (f : Frame) : ℕ → Prop :=
  Walk f (dataOff + f.plen) (· = 2) (dataOff + 24)

/-- A router advertisement with a link-layer address and a prefix. -/
def Frame.RouterFound (f : Frame) : Prop :=
  (∃ o, f.RouterWalk o ∧ f.data o = 1) ∧ ∃ o, f.RouterWalk o ∧ f.data o = 3

/-! ### ICMP -/

section

variable (f : Frame)

theorem routerAdvert_hands (rounds : ℕ) : Hands (routerAdvert f rounds) f.RouterFound := by
  have hquiet : (optionLoop f (dataOff + f.plen) (fun _ => false) (routerOption f) rounds
      (dataOff + 16) (false, none)).kept owning = [] :=
    optionLoop_kept _ _ _ (fun _ _ => rfl) (routerOption_kept f) _ _ _
  unfold routerAdvert
  refine .read_bind (.read_bind ?_)
  cases hloop : (optionLoop f (dataOff + f.plen) (fun _ => false) (routerOption f) rounds
      (dataOff + 16) (false, none)).result with
  | none => exact .bind_of_none hquiet hloop
  | some s =>
    obtain ⟨hneighbor, hprefix, -⟩ := routerLoop_result hloop
    refine .bind_of_nil hquiet hloop ?_
    obtain ⟨neighbor, pod⟩ := s
    simp only [Bool.false_eq_true, Option.isSome_none, false_or] at hneighbor hprefix
    have hfound : f.RouterFound ↔ neighbor = true ∧ pod.isSome := by
      rw [hneighbor, hprefix]
      rfl
    match neighbor, pod with
    | true, some o =>
      refine Hands.congr (.of_leaked ?_) (by simp [hfound])
      exact .nothing
    | true, none => exact ipv6DropPacket_hands.congr (by simp [hfound])
    | false, _ => exact ipv6DropPacket_hands.congr (by simp [hfound])

theorem neighborAdvert_hands (rounds : ℕ) : Hands (neighborAdvert f rounds) False := by
  have hquiet : (optionLoop f (dataOff + f.plen) (· = 2) (advertOption f) rounds
      (dataOff + 24) ()).kept owning = [] :=
    optionLoop_kept _ _ _ (fun _ _ => rfl) (advertOption_kept f) _ _ _
  unfold neighborAdvert
  refine .read_bind ?_
  split
  · exact ipv6DropPacket_hands
  · cases hloop : (optionLoop f (dataOff + f.plen) (· = 2) (advertOption f) rounds
        (dataOff + 24) ()).result with
    | none => exact .bind_of_none hquiet hloop
    | some s => exact .bind_of_nil hquiet hloop (.of_handed rfl .put)

theorem solicitOption_quiet (reachable : Bool) :
    (solicitOption f reachable).kept Event.owning = [] ∧
      ∃ reachable', (solicitOption f reachable).result = some reachable' := by
  unfold solicitOption
  by_cases hlen : f.get16 (headlen + 4) = 24
  · simp [hlen, owning]
  · by_cases htype : f.data (dataOff + 24) = 1
    · simp [hlen, htype, copyLinkAddress, owning, kept_bind, result_bind]
    · simp [hlen, htype, owning]

theorem neighborSolicit_hands (nd : NicData) (w : Tables) :
    Hands (neighborSolicit f nd w) False := by
  unfold neighborSolicit
  refine .read_bind ?_
  split
  · refine .read_bind ?_
    obtain ⟨hkept, reachable, hresult⟩ :=
      solicitOption_quiet f (w.reachable (memread f.data (headlen + 8) 16))
    refine .bind_of_nil hkept hresult (.bind_of_nil rfl rfl (ipv6ReplyPacket_hands f reachable))
  · exact ipv6DropPacket_hands

theorem icmp6Receive_hands (nd : NicData) (w : Tables) (rounds : ℕ) :
    Hands (icmp6Receive f nd w rounds) (f.icmpType = 134 ∧ f.RouterFound) := by
  unfold icmp6Receive
  refine .bind_of_nil rfl rfl (.read_bind ?_)
  unfold icmp6Message
  split_ifs with hecho hrouter hadvert hsolicit
  · exact (Hands.read_bind (ipv6ReplyPacket_hands f _)).congr (by simp [hecho])
  · exact (routerAdvert_hands f rounds).congr (by simp [hrouter])
  · exact (neighborAdvert_hands f rounds).congr (by simp [hadvert])
  · exact (neighborSolicit_hands f nd w).congr (by simp [hsolicit])
  · exact ipv6DropPacket_hands.congr (by simp [hrouter])

/-! ### UDP and TCP -/

theorem udpRecv_hands (w : Tables) (dest : Endpoint) : Hands (udpRecv w dest) False := by
  unfold udpRecv
  split
  · exact .of_handed rfl (.udp _)
  · exact .of_handed rfl .put

theorem kept_bracket {x : Proc Unit} (hx : x.result = some ()) (sock : ℕ) :
    (Logged.tell (.sockGet sock) >>= fun _ => x >>= fun _ => Logged.tell (.sockPut sock)).kept
        Event.owning =
      .sockGet sock :: (x.kept Event.owning ++ [.sockPut sock]) := by
  rw [kept_observe_bind, kept_bind, hx]
  rfl

theorem tcpBoundState_kept (sock : ℕ) (state : Tcp.TcpConState) (flags : UInt8) :
    (tcpBoundState sock state flags).result = some () ∧
      ((tcpBoundState sock state flags).kept Event.owning = [] ∨
        (tcpBoundState sock state flags).kept Event.owning =
          [.packetGet, .packetQueue (.pendCon sock)]) := by
  unfold tcpBoundState
  cases state with
  | synsent =>
    dsimp only
    split
    · exact ⟨rfl, .inl rfl⟩
    · exact ⟨rfl, .inl rfl⟩
  | listening =>
    dsimp only
    split
    · exact ⟨rfl, .inr rfl⟩
    · exact ⟨rfl, .inl rfl⟩
  | _ => exact ⟨rfl, .inl rfl⟩

theorem tcpRecvBoundOnly_leaked (w : Tables) (dest : Endpoint) :
    Leaked ((tcpRecvBoundOnly f w dest).kept Event.owning) := by
  unfold tcpRecvBoundOnly
  rw [kept_observe_bind]
  change Leaked ((if rst (f.data (dataOff + 13)) then _ else _ : Proc Unit).kept _)
  split_ifs with hrst
  · exact .nothing
  · split
    · exact .nothing
    · next sock state _ =>
      obtain ⟨hresult, hkept | hkept⟩ := tcpBoundState_kept sock state (f.data (dataOff + 13))
      · rw [kept_bracket hresult, hkept]
        exact .unused sock
      · rw [kept_bracket hresult, hkept]
        exact .listening sock

theorem copyInDataReads_quiet (t : Tcp.Socket) (seq off len : ℕ) :
    (copyInDataReads t seq off len).result = some () ∧
      (copyInDataReads t seq off len).kept Event.owning = [] := by
  unfold copyInDataReads
  split
  · exact ⟨rfl, rfl⟩
  · exact ⟨rfl, rfl⟩

theorem tcpPayload_quiet (t : Tcp.Socket) (len : ℕ) :
    (tcpPayload f t len).result = some () ∧ (tcpPayload f t len).kept Event.owning = [] := by
  unfold tcpPayload
  refine ⟨?_, ?_⟩
  · simp only [result_observe_bind, copyInDataReads_quiet]
  · simp only [kept_observe_bind, copyInDataReads_quiet]
    rfl

end

/-- The cases of `tcp_recv` leave the packet alone; one of them puts the socket on a queue. -/
def KeepsPacket (sock : ℕ) (x : Proc Unit) : Prop :=
  x.result = some () ∧ (x.kept Event.owning = [] ∨
    ∃ bound, x.kept Event.owning = [.sockGet bound, .sockGet sock, .sockPut bound])

theorem tcpRecvState_kept (f : Frame) (w : Tables) (dest : Endpoint) (c : Connection) (len : ℕ)
    (flags : UInt8) : KeepsPacket c.sock (tcpRecvState f w dest c len flags) := by
  have hpure : KeepsPacket c.sock (pure ()) := ⟨rfl, .inl rfl⟩
  unfold tcpRecvState
  split
  · split
    · obtain ⟨hresult, hkept⟩ := tcpPayload_quiet f c.tcp len
      refine ⟨?_, .inl ?_⟩
      · rw [result_observe_bind, result_observe_bind, hresult]
      · rw [kept_observe_bind, kept_observe_bind, hkept]
        rfl
    · exact hpure
  · split
    · split
      · next bound _ _ => exact ⟨rfl, .inr ⟨bound, rfl⟩⟩
      · exact hpure
    · exact hpure
  · exact hpure

/-- **No case of `tcp_recv` passes the packet on.** -/
theorem tcpRecv_leaked (f : Frame) (w : Tables) (src dest : Endpoint) (len : ℕ) :
    Leaked ((tcpRecv f w src dest len).kept Event.owning) := by
  unfold tcpRecv
  split
  · exact tcpRecvBoundOnly_leaked f w dest
  · next c _ =>
    rw [kept_observe_bind, kept_observe_bind]
    split
    · exact .reset c.sock
    · obtain ⟨hresult, hkept⟩ := tcpRecvState_kept f w dest c len (f.data (dataOff + 13))
      rw [kept_bind, hresult]
      rcases hkept with hkept | ⟨bound, hkept⟩
      · rw [hkept]
        exact .unused c.sock
      · rw [hkept]
        exact .establishing c.sock bound

/-! ### The whole path -/

/-- The frames whose packets are lost: TCP segments, and router advertisements with a link-layer
address and a prefix. -/
def Frame.Leaks (f : Frame) (nd : NicData) : Prop :=
  f.Processed nd ∧
    (f.nextHeader = 6 ∨ f.nextHeader = 0x3a ∧ f.icmpType = 134 ∧ f.RouterFound)

theorem ipv6ReceiveProcess_hands (f : Frame) (nd : NicData) (w : Tables) (rounds : ℕ) :
    Hands (ipv6ReceiveProcess f nd w rounds)
      (f.nextHeader = 6 ∨ f.nextHeader = 0x3a ∧ f.icmpType = 134 ∧ f.RouterFound) := by
  obtain ⟨hkept, hresult⟩ := ipv6RawsocketCopy_quiet f w
  unfold ipv6ReceiveProcess
  refine .bind_of_nil hkept hresult (.read_bind ?_)
  unfold protocolReceive
  split_ifs with hicmp htransport
  · exact (icmp6Receive_hands f nd w rounds).congr (by simp [hicmp])
  · refine .read_bind (.read_bind (.read_bind (.read_bind ?_)))
    split_ifs with hudp
    · exact (udpRecv_hands w _).congr (by simp [hudp])
    · have htcp : f.nextHeader = 6 := htransport.resolve_left hudp
      exact (Hands.read_bind (.of_leaked (tcpRecv_leaked ..))).congr (by simp [htcp])
  · have hother : f.nextHeader ≠ 6 := fun h => htransport (.inr h)
    exact ipv6DropPacket_hands.congr (by simp [hother, hicmp])

/-- **What is done to the references of a packet**, for every frame. -/
theorem netNicReceive_hands (f : Frame) (nd : NicData) (w : Tables) (rounds : ℕ) :
    Hands (netNicReceive f nd w rounds) (f.Leaks nd) := by
  unfold netNicReceive Frame.Leaks Frame.Processed
  split_ifs with hipv6
  · unfold ipv6Receive
    refine .read_bind ?_
    split_ifs with haccepts
    · exact (ipv6ReceiveProcess_hands f nd w rounds).congr (by simp [hipv6, haccepts])
    · exact ipv6DropPacket_hands.congr (by simp [haccepts])
  · have hput : Hands (tell .packetPut) False := .of_handed rfl .put
    exact hput.congr (by simp [hipv6])

/-! ## Which frames are processed to the end -/

/-- The frames whose processing ends: no option of an advertisement leaves the loop where it is. -/
def Frame.Ends (f : Frame) (nd : NicData) : Prop :=
  f.Processed nd → f.nextHeader = 0x3a →
    (f.icmpType = 134 → Advances f (dataOff + f.plen) (fun _ => false) (dataOff + 16)) ∧
      (f.icmpType = 136 → f.plen ≠ 24 → Advances f (dataOff + f.plen) (· = 2) (dataOff + 24))

theorem routerAdvert_isSome (f : Frame) (rounds : ℕ) : (routerAdvert f rounds).result.isSome ↔
      (optionLoop f (dataOff + f.plen) (fun _ => false) (routerOption f) rounds (dataOff + 16)
        (false, none)).result.isSome := by
  unfold routerAdvert
  rw [result_observe_bind, result_observe_bind, isSome_bind]
  intro s
  unfold routerAdd
  split <;> rfl

theorem neighborAdvert_isSome (f : Frame) (rounds : ℕ) : (neighborAdvert f rounds).result.isSome ↔
      (f.plen ≠ 24 → (optionLoop f (dataOff + f.plen) (· = 2) (advertOption f) rounds
        (dataOff + 24) ()).result.isSome) := by
  unfold neighborAdvert
  rw [result_observe_bind]
  split_ifs with hlen
  · exact iff_of_true rfl fun h => absurd hlen h
  · rw [isSome_bind]
    · exact ⟨fun h _ => h, fun h => h hlen⟩
    · intro s
      rfl

theorem neighborSolicit_isSome (f : Frame) (nd : NicData) (w : Tables) :
    (neighborSolicit f nd w).result.isSome := by
  unfold neighborSolicit
  rw [result_observe_bind]
  split
  · rw [result_observe_bind]
    obtain ⟨-, reachable, hresult⟩ :=
      solicitOption_quiet f (w.reachable (memread f.data (headlen + 8) 16))
    rw [result_bind_of_some hresult]
    cases reachable <;> rfl
  · rfl

theorem icmp6Receive_isSome (f : Frame) (nd : NicData) (w : Tables) (rounds : ℕ) :
    (icmp6Receive f nd w rounds).result.isSome ↔
      (f.icmpType = 134 → (routerAdvert f rounds).result.isSome) ∧
        (f.icmpType = 136 → (neighborAdvert f rounds).result.isSome) := by
  have hreply : ∀ reachable, (ipv6ReplyPacket f reachable).result = some () := by
    intro reachable
    cases reachable <;> rfl
  have hdrop : ipv6DropPacket.result = some () := rfl
  unfold icmp6Receive
  rw [result_bind_of_some rfl, result_observe_bind]
  unfold icmp6Message
  by_cases hrouter : f.icmpType = 134
  · simp [hrouter]
  · by_cases hadvert : f.icmpType = 136
    · simp [hadvert]
    · have hsome := neighborSolicit_isSome f nd w
      simp only [hrouter, hadvert, if_false, false_imp_iff, and_self, iff_true]
      split_ifs
      · rw [result_observe_bind, hreply]
        rfl
      · exact hsome
      · rw [hdrop]
        rfl

/-- The options of an ICMP message move the loop on, where there is one. -/
def Frame.OptionsAdvance (f : Frame) : Prop :=
  (f.icmpType = 134 → Advances f (dataOff + f.plen) (fun _ => false) (dataOff + 16)) ∧
    (f.icmpType = 136 → f.plen ≠ 24 → Advances f (dataOff + f.plen) (· = 2) (dataOff + 24))

theorem optionsAdvance_of_isSome {f : Frame} {nd : NicData} {w : Tables} {rounds : ℕ}
    (h : (icmp6Receive f nd w rounds).result.isSome) : f.OptionsAdvance := by
  rw [icmp6Receive_isSome, routerAdvert_isSome, neighborAdvert_isSome] at h
  exact h.imp (fun h ht => advances_of_isSome (routerOption_isSome f) (h ht))
    fun h ht hlen => advances_of_isSome (advertOption_isSome f) (h ht hlen)

theorem Frame.OptionsAdvance.isSome {f : Frame} (h : f.OptionsAdvance) (nd : NicData)
    (w : Tables) : (icmp6Receive f nd w (f.plen + 1)).result.isSome := by
  rw [icmp6Receive_isSome, routerAdvert_isSome, neighborAdvert_isSome]
  refine h.imp (fun h ht => ?_) fun h ht hlen => ?_
  · exact (optionLoop_isSome_iff (routerOption_isSome f) _ (by omega)).mpr (h ht)
  · exact (optionLoop_isSome_iff (advertOption_isSome f) _ (by omega)).mpr (h ht hlen)

theorem icmp6Receive_ends_iff (f : Frame) (nd : NicData) (w : Tables) :
    (∃ rounds, (icmp6Receive f nd w rounds).result.isSome) ↔ f.OptionsAdvance :=
  ⟨fun ⟨_, h⟩ => optionsAdvance_of_isSome h, fun h => ⟨_, h.isSome nd w⟩⟩

theorem udpRecv_result (w : Tables) (dest : Endpoint) : (udpRecv w dest).result = some () := by
  unfold udpRecv
  split <;> rfl

theorem tcpRecv_result (f : Frame) (w : Tables) (src dest : Endpoint) (len : ℕ) :
    (tcpRecv f w src dest len).result = some () := by
  unfold tcpRecv
  split
  · unfold tcpRecvBoundOnly
    rw [result_observe_bind]
    split
    · rfl
    · split
      · rfl
      · rw [result_observe_bind, result_bind_of_some (tcpBoundState_kept ..).1]
        rfl
  · rw [result_observe_bind, result_observe_bind]
    split
    · rfl
    · rw [result_bind_of_some (tcpRecvState_kept ..).1]
      rfl

/-- **Which frames are processed to the end**: all but the advertisements that send the loop over
their options back to where it was. -/
theorem netNicReceive_ends_iff (f : Frame) (nd : NicData) (w : Tables) :
    (∃ rounds, (netNicReceive f nd w rounds).result.isSome) ↔ f.Ends nd := by
  have hraw := (ipv6RawsocketCopy_quiet f w).2
  have hudp := udpRecv_result w
  have htcp := tcpRecv_result f w
  have hdrop : ipv6DropPacket.result = some () := rfl
  unfold netNicReceive Frame.Ends Frame.Processed
  by_cases hipv6 : f.ForIpv6 nd
  · simp only [hipv6, if_true, true_and, ipv6Receive, result_observe_bind]
    by_cases haccepts : nd.accepts f.destination
    · simp only [haccepts, if_true, true_imp_iff, ipv6ReceiveProcess, result_bind_of_some hraw,
        result_observe_bind, protocolReceive, transportReceive]
      by_cases hicmp : f.nextHeader = 0x3a
      · simp [hicmp, icmp6Receive_ends_iff, Frame.OptionsAdvance]
      · simp only [hicmp, if_false, false_imp_iff, iff_true]
        refine ⟨0, ?_⟩
        split_ifs <;> simp [result_observe_bind, hudp, htcp, hdrop]
    · simp [haccepts, hdrop]
  · simp [hipv6]

/-! ## Ownership, for every frame -/

/-- **Which packets are owned when their processing ends.** Processing ends for the frames that
`Frame.Ends` describes; whenever it has ended, the packet is released or held by its queues, and
all references to sockets are dropped, exactly if the frame is not one that leaks. -/
theorem ownership (f : Frame) (nd : NicData) (w : Tables) :
    ((∃ rounds, (netNicReceive f nd w rounds).result.isSome) ↔ f.Ends nd) ∧
      ∀ rounds, (netNicReceive f nd w rounds).result.isSome →
        (Owned (netNicReceive f nd w rounds).log ↔ ¬f.Leaks nd) := by
  refine ⟨netNicReceive_ends_iff f nd w, ?_⟩
  intro rounds hsome
  have hhands := netNicReceive_hands f nd w rounds
  rw [← owned_filter_iff]
  constructor
  · intro howned hleaks
    exact (hhands.leaked (.inr hleaks)).not_owned howned
  · intro hleaks
    exact (hhands.handed hsome hleaks).owned

/-! ### Two frames -/

/-- A frame with these bytes, in an empty buffer. -/
def frameOf (bytes : List UInt8) (h : bytes.length ≤ bufferSize) : Frame where
  data i := bytes.getD i 0
  length := bytes.length
  length_le := h

theorem length_physaddr : [2, 0, 0, 0, 0, (1 : UInt8)].length = 6 := rfl

theorem length_linkaddr :
    [0xfe, 0x80, 0, 0, 0, 0, 0, 0, 0, 0, 0, 0, 0, 0, 0, (1 : UInt8)].length = 16 := rfl

/-- A card at the address `fe80::1`. -/
def testCard : NicData where
  physaddr := ⟨_, length_physaddr⟩
  linkaddr := ⟨_, length_linkaddr⟩
  globaladdr := ⟨[0, 0, 0, 0, 0, 0, 0, 0, 0, 0, 0, 0, 0, 0, 0, 0], rfl⟩
  hasGlobal := false

/-- No socket is open and no neighbour is known. -/
def noSockets : Tables where
  raw := []
  udpBound _ := none
  tcpBound _ := none
  tcpConnection _ _ := none
  reachable _ := false

/-- One UDP socket is bound. -/
def oneUdpSocket : Tables := { noSockets with udpBound := fun _ => some 0 }

/-- The headers in front of a payload that `fe80::2` sends to the card. -/
def headersTo (length nextHeader : UInt8) : List UInt8 :=
  [2, 0, 0, 0, 0, 1] ++ [2, 0, 0, 0, 0, 2] ++ [0x86, 0xdd] ++ [0x60, 0, 0, 0] ++ [0, length] ++
    [nextHeader, 255] ++ [0xfe, 0x80, 0, 0, 0, 0, 0, 0, 0, 0, 0, 0, 0, 0, 0, 2] ++
    [0xfe, 0x80, 0, 0, 0, 0, 0, 0, 0, 0, 0, 0, 0, 0, 0, 1]

/-- A datagram of three bytes from port 1024 to port 2048. -/
def datagramFrame : Frame :=
  frameOf (headersTo 11 17 ++ [4, 0, 8, 0, 0, 11, 0, 0] ++ [1, 2, 3]) (by decide)

/-- A TCP segment with the flag SYN, for a port that nobody listens on. -/
def synFrame : Frame :=
  frameOf (headersTo 20 6 ++ [4, 0, 8, 0, 0, 0, 0, 7, 0, 0, 0, 0, 0x50, 2, 0x40, 0, 0, 0, 0, 0])
    (by decide)

/-- A router advertisement with an option of length 0. -/
def emptyOption : Frame :=
  frameOf (headersTo 24 58 ++ [134, 0, 0, 0] ++ List.replicate 12 0 ++ [5, 0, 0, 0, 0, 0, 0, 0])
    (by decide)

theorem datagram_owned :
    (netNicReceive datagramFrame testCard oneUdpSocket 0).result.isSome ∧
      .packetQueue (.udp 0) ∈ (netNicReceive datagramFrame testCard oneUdpSocket 0).log ∧
      Owned (netNicReceive datagramFrame testCard oneUdpSocket 0).log := by
  have hsome : (netNicReceive datagramFrame testCard oneUdpSocket 0).result.isSome := by
    decide +kernel
  refine ⟨hsome, by decide +kernel, ?_⟩
  refine ((ownership datagramFrame testCard oneUdpSocket).2 0 hsome).mpr ?_
  rintro ⟨-, htcp | ⟨hicmp, -⟩⟩
  · exact absurd htcp (by decide)
  · exact absurd hicmp (by decide)

/-- The segment is processed to the end, but its packet keeps a reference without being on any
queue. -/
theorem syn_leaked :
    (netNicReceive synFrame testCard noSockets 0).result.isSome ∧
      refsAfter 1 (netNicReceive synFrame testCard noSockets 0).log = some 1 ∧
      (netNicReceive synFrame testCard noSockets 0).log.countP Event.isQueue = 0 ∧
      ¬Owned (netNicReceive synFrame testCard noSockets 0).log := by
  have hrefs : refsAfter 1 (netNicReceive synFrame testCard noSockets 0).log = some 1 := by
    decide +kernel
  have hqueues : (netNicReceive synFrame testCard noSockets 0).log.countP isQueue = 0 := by
    decide +kernel
  refine ⟨by decide +kernel, hrefs, hqueues, ?_⟩
  intro howned
  have hpacket := howned.packet
  rw [hrefs, hqueues] at hpacket
  exact absurd hpacket (by decide)

end SeaKernel.Receive
