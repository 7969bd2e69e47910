-- The packet of `packet.hpp` and its dissection in `packet.cpp`: the
-- 5-tuple, the payload window and the flow key.
import PacketInspector.Wire

open wire

namespace packet_inspector

/-- The verdict applied to a packet at the netlink queue. -/
inductive Verdict where
  | ALLOW
  | BLOCK
  deriving DecidableEq, Repr

/-- The dissected packet. `payload` is an offset into the packet's bytes,
and nothing where the code has a null pointer. -/
structure FlowView where
  ip_version : Nat := 0
  ip_proto : Nat := 0
  src_ip : Bytes := List.replicate 16 0
  dst_ip : Bytes := List.replicate 16 0
  src_port : Nat := 0
  dst_port : Nat := 0
  payload : Option Nat := none
  payload_len : Nat := 0
  tcp_flags : Nat := 0
  key : UInt32 := 0
  deriving DecidableEq

/-! ## Dissection -/

def kProtoTcp : Nat := 6
def kProtoUdp : Nat := 17

/-- The payload window that a dissection found, when it did not fail, and
the flow as far as it was filled. -/
abbrev Dissected := Option (Nat × Nat) × FlowView

/-- TCP or UDP at offset `l4`: the ports, the flags and the payload window. -/
def parseL4 (proto : Nat) (data : Bytes) (l4 l4_len : Nat) (flow : FlowView) : Dissected :=
  let flow := { flow with ip_proto := proto }
  if proto = kProtoTcp then
    if l4_len < 20 then (none, flow)
    else
      let flow := { flow with
        src_port := rd16 data l4
        dst_port := rd16 data (l4 + 2)
        tcp_flags := byteAt data (l4 + 13) }
      let data_off := (byteAt data (l4 + 12) >>> 4) * 4
      if data_off < 20 ∨ data_off > l4_len then (none, flow)
      else (some (l4 + data_off, l4_len - data_off), flow)
  else if proto = kProtoUdp then
    if l4_len < 8 then (none, flow)
    else
      let flow := { flow with
        src_port := rd16 data l4
        dst_port := rd16 data (l4 + 2) }
      let udp_len := rd16 data (l4 + 4)
      let plen := l4_len - 8
      let plen := if udp_len ≥ 8 ∧ udp_len - 8 ≤ plen then udp_len - 8 else plen
      (some (l4 + 8, plen), flow)
  else (none, flow)

def parseIPv4 (data : Bytes) (flow : FlowView) : Dissected :=
  if data.length < 20 then (none, flow)
  else
    let flow := { flow with ip_version := 4 }
    let ihl := (byteAt data 0 &&& 0x0f) * 4
    if ihl < 20 ∨ ihl > data.length then (none, flow)
    -- a fragment that is not the first one carries no L4 header
    else if rd16 data 6 &&& 0x1fff ≠ 0 then (none, flow)
    else
      let flow := { flow with
        src_ip := (data.drop 12).take 4 ++ flow.src_ip.drop 4
        dst_ip := (data.drop 16).take 4 ++ flow.dst_ip.drop 4 }
      let total_len := rd16 data 2
      let l3_len := if total_len ≥ ihl ∧ total_len ≤ data.length then total_len else data.length
      parseL4 (byteAt data 9) data ihl (l3_len - ihl) flow

def kV6HopByHop : Nat := 0
def kV6Routing : Nat := 43
def kV6Fragment : Nat := 44
def kV6DestOpts : Nat := 60
def kV6Mobility : Nat := 135
def kMaxV6ExtHeaders : Nat := 8

/-- The walk over the IPv6 extension headers. The first argument is the
number of turns that are left. -/
def walkV6 (data : Bytes) (l3_len : Nat) : Nat → Nat → Nat → FlowView → Dissected
  | 0, _, _, flow => (none, flow)
  | turns + 1, next, off, flow =>
    if next = kProtoTcp ∨ next = kProtoUdp then parseL4 next data off (l3_len - off) flow
    else if next = kV6HopByHop ∨ next = kV6Routing ∨ next = kV6DestOpts ∨ next = kV6Mobility then
      if off + 2 > l3_len then (none, flow)
      else
        let off' := off + (byteAt data (off + 1) + 1) * 8
        if off' > l3_len then (none, flow)
        else walkV6 data l3_len turns (byteAt data off) off' flow
    else if next = kV6Fragment then
      if off + 8 > l3_len then (none, flow)
      else if rd16 data (off + 2) &&& 0xfff8 ≠ 0 then (none, flow)
      else walkV6 data l3_len turns (byteAt data off) (off + 8) flow
    else (none, flow)

def parseIPv6 (data : Bytes) (flow : FlowView) : Dissected :=
  if data.length < 40 then (none, flow)
  else
    let plen := rd16 data 4
    let flow := { flow with
      ip_version := 6
      src_ip := (data.drop 8).take 16
      dst_ip := (data.drop 24).take 16 }
    let l3_len := if 40 + plen ≤ data.length then 40 + plen else data.length
    walkV6 data l3_len kMaxV6ExtHeaders (byteAt data 6) 40 flow

/-- Base-131 polynomial hash of one endpoint, in 64 bits, cut to 32. -/
def endpointHash (ip : Bytes) (port : Nat) : UInt32 :=
  (ip.foldl (fun (h : UInt64) b => h * 131 + b.toUInt64) 0 * 131 + UInt64.ofNat port).toUInt32

/-- The flow key: the endpoints are put in order, so both directions of a
connection have the same key. -/
def routeKey (f : FlowView) : UInt32 :=
  let a := endpointHash f.src_ip f.src_port
  let b := endpointHash f.dst_ip f.dst_port
  let lo := if a < b then a else b
  let hi := if a < b then b else a
  let h := UInt64.ofNat f.ip_proto
  let h := h * 1000003 + lo.toUInt64
  let h := h * 1000003 + hi.toUInt64
  h.toUInt32

/-- L3 dissection. The flow is reset first, whatever it held. -/
def parseFlow (data : Option Bytes) (_flow : FlowView) : Dissected :=
  let flow : FlowView := {}
  match data with
  | none => (none, flow)
  | some data =>
    if data.length < 1 then (none, flow)
    else
      let version := byteAt data 0 >>> 4
      if version = 4 then parseIPv4 data flow
      else if version = 6 then parseIPv6 data flow
      else (none, flow)

/-! ## The packet -/

/-- Where a packet's bytes are: in the receive buffer, in a buffer of its
own, or no longer there. -/
inductive Storage where
  | view
  | owned
  | shell
  deriving DecidableEq

/-- A layer-3 packet. `bytes` are the bytes that it was built over. They
never change, so the model keeps them for the whole life of the packet,
and `storage` says whether the code can still reach them. -/
structure Packet where
  bytes : Bytes := []
  storage : Storage := .shell
  id : UInt32 := 0
  verdict : Verdict := .ALLOW
  pending : Bool := false
  deriving DecidableEq

namespace Packet

def data (p : Packet) : Option Bytes := if p.storage = .shell then none else some p.bytes

def has_bytes (p : Packet) : Bool := p.data.isSome

def release_bytes (p : Packet) : Packet := { p with storage := .shell }

/-- Parse the 5-tuple into `flow` and fill its routing key. -/
def flow_view (p : Packet) (flow : FlowView) : Bool × FlowView :=
  match parseFlow p.data flow with
  | (none, flow) => (false, flow)
  | (some (payload, payload_len), flow) =>
    let flow := { flow with payload := some payload, payload_len := payload_len }
    (true, { flow with key := routeKey flow })

def flow_key (p : Packet) : UInt32 :=
  match p.flow_view {} with
  | (true, flow) => flow.key
  | (false, _) => 0

/-- What names a packet through its life: its kernel id and its bytes. -/
def tag (p : Packet) : UInt32 × Bytes := (p.id, p.bytes)

@[simp] theorem tag_release_bytes (p : Packet) : p.release_bytes.tag = p.tag := rfl

end Packet

/-- The payload of a dissected packet. -/
def payloadOf (data : Bytes) (f : FlowView) : Bytes :=
  (data.drop (f.payload.getD 0)).take f.payload_len

/-- The flow of a packet that dissects as TCP. -/
def tcpFlow (p : Packet) : Option FlowView :=
  match p.flow_view {} with
  | (true, f) => if f.ip_proto = kProtoTcp then some f else none
  | (false, _) => none

/-- The TCP flow that a byte string dissects to. -/
def flowOf (data : Bytes) : Option FlowView := tcpFlow { bytes := data, storage := .view }

/-- The key of the flow that a packet belongs to. A packet that is not TCP,
or does not dissect, belongs to no flow. -/
def keyOf (p : Packet) : Option UInt32 := (flowOf p.bytes).map (·.key)

/-- A packet as it reaches the extractor: with its bytes, or with none. -/
def Arrival := { p : Packet // p.has_bytes = true ∨ p.bytes = [] }

theorem tcpFlow_of_has_bytes {p : Packet} (h : p.has_bytes = true) :
    tcpFlow p = flowOf p.bytes := by
  have hd : p.data = some p.bytes := by
    unfold Packet.has_bytes Packet.data at h
    unfold Packet.data
    split at h
    · cases h
    · rename_i hs; rw [if_neg hs]
  simp only [flowOf, tcpFlow, Packet.flow_view, hd]
  rfl

@[simp] theorem keyOf_release_bytes (p : Packet) : keyOf p.release_bytes = keyOf p := rfl

/-! ## Connections -/

/-- A connection: IP version, protocol, and the two endpoints in no order. -/
abbrev Connection := Nat × Nat × Sym2 (Bytes × Nat)

def connectionOf (f : FlowView) : Connection :=
  (f.ip_version, f.ip_proto, s((f.src_ip, f.src_port), (f.dst_ip, f.dst_port)))

theorem routeKey_congr {f g : FlowView} (hp : f.ip_proto = g.ip_proto) (h1 : f.src_ip = g.src_ip)
    (h2 : f.src_port = g.src_port) (h3 : f.dst_ip = g.dst_ip) (h4 : f.dst_port = g.dst_port) :
    routeKey f = routeKey g := by
  unfold routeKey
  rw [hp, h1, h2, h3, h4]

/-- Both directions of a connection have the same key. -/
theorem routeKey_of_connectionOf {f g : FlowView} (h : connectionOf f = connectionOf g) :
    routeKey f = routeKey g := by
  have hmin : ∀ a b : UInt32, (if a < b then a else b) = if b < a then b else a := by
    intro a b
    split
    · rename_i hab
      rw [if_neg (UInt32.lt_asymm hab)]
    · split
      · rfl
      · rename_i hab hba
        exact UInt32.le_antisymm (UInt32.not_lt.mp hab) (UInt32.not_lt.mp hba)
  have hmax : ∀ a b : UInt32, (if a < b then b else a) = if b < a then a else b := by
    intro a b
    split
    · rename_i hab
      rw [if_neg (UInt32.lt_asymm hab)]
    · split
      · rfl
      · rename_i hab hba
        exact UInt32.le_antisymm (UInt32.not_lt.mp hba) (UInt32.not_lt.mp hab)
  simp only [connectionOf, Prod.mk.injEq, Sym2.eq_iff] at h
  obtain ⟨-, hproto, ⟨⟨h1, h2⟩, h3, h4⟩ | ⟨⟨h1, h2⟩, h3, h4⟩⟩ := h
  · exact routeKey_congr hproto h1 h2 h3 h4
  · unfold routeKey
    rw [hproto, h1, h2, h3, h4]
    dsimp only
    rw [hmin (endpointHash g.dst_ip g.dst_port), hmax (endpointHash g.dst_ip g.dst_port)]

theorem key_of_flowOf {data : Bytes} {f : FlowView} (h : flowOf data = some f) :
    f.key = routeKey f := by
  unfold flowOf tcpFlow at h
  split at h
  · rename_i f' hv
    split at h
    · cases h
      unfold Packet.flow_view at hv
      split at hv
      · cases hv
      · cases hv
        exact routeKey_congr rfl rfl rfl rfl rfl
    · cases h
  · cases h

end packet_inspector
