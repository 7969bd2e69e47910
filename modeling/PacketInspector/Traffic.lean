-- Traffic to run the extractor on: the packets of `packet_builders.hpp`,
-- and a reassembler that puts segments in order by their sequence numbers.
import PacketInspector.Extractor

open wire packet_inspector.tls

namespace packet_inspector.traffic

/-! ## Packets -/

/-- The extensions of a ClientHello: the server name, when there is one. -/
def helloExtensions (host : Bytes) : Bytes :=
  if host = [] then []
  else be16 0 ++ vec16 (vec16 ([0x00] ++ vec16 host))

def helloBody (host : Bytes) : Bytes :=
  [0x03, 0x03] ++ List.replicate 32 0xab ++ [0x00] ++ vec16 [0x13, 0x01] ++ [0x01, 0x00] ++
    vec16 (helloExtensions host)

/-- A TLS ClientHello record that carries `host`. -/
def client_hello (host : Bytes) : Bytes :=
  [0x16, 0x03, 0x01] ++ vec16 ([0x01, 0x00] ++ vec16 (helloBody host))

/-- An address and a port. -/
structure Endpoint where
  ip : Bytes
  port : Nat

/-- One IPv4 packet as L3 bytes. The checksums are left out: no one reads
them. -/
def ipv4 (proto : UInt8) (src dst : Endpoint) (l4 : Bytes) : Bytes :=
  [0x45, 0x00] ++ be16 (20 + l4.length) ++ [0, 0, 0, 0, 64, proto, 0, 0] ++ src.ip ++ dst.ip ++ l4

/-- One IPv4/TCP segment. -/
def build_l3 (src dst : Endpoint) (seq : Nat) (flags : UInt8) (payload : Bytes) : Bytes :=
  ipv4 6 src dst (be16 src.port ++ be16 dst.port ++ be16 (seq / 65536) ++ be16 seq ++
    [0, 0, 0, 0, 0x50, flags, 0, 0, 0, 0, 0, 0] ++ payload)

/-- One IPv4/UDP datagram. -/
def build_udp (src dst : Endpoint) (payload : Bytes) : Bytes :=
  ipv4 17 src dst (be16 src.port ++ be16 dst.port ++ be16 (8 + payload.length) ++ [0, 0] ++ payload)

def server : Endpoint := ⟨[93, 184, 216, 34], 443⟩

def client (n : UInt8) : Endpoint := ⟨[10, 0, 0, n], 40000⟩

/-- The hostname `e.x`. -/
def host : Bytes := [0x65, 0x2e, 0x78]

/-- A packet that owns its bytes, as a worker hands it over. -/
def owned (bytes : Bytes) (id : UInt32) : Arrival :=
  ⟨{ bytes := bytes, storage := .owned, id := id, pending := true }, .inl rfl⟩

/-- The SYN of a client. -/
def syn (c : Endpoint) (id : UInt32) : Arrival := owned (build_l3 c server 0 0x02 []) id

/-- A segment of a client with some payload. -/
def segmentOf (c : Endpoint) (seq : Nat) (payload : Bytes) (id : UInt32) : Arrival :=
  owned (build_l3 c server seq 0x18 payload) id

/-- The ClientHello of a client in one segment. -/
def hello (c : Endpoint) (id : UInt32) : Arrival := segmentOf c 1 (client_hello host) id

/-! ## A reassembler -/

/-- The TCP sequence number of an IPv4 packet. -/
def seqOf (packet : Bytes) : Nat :=
  let l4 := byteAt packet 0 % 16 * 4
  rd16 packet (l4 + 4) * 65536 + rd16 packet (l4 + 6)

/-- One direction of a connection: the sequence number that is due, once a
packet has set it, and the segments that came ahead of it. -/
structure Half where
  due : Option Nat := none
  parked : List (Nat × Bytes) := []
  finished : Bool := false

/-- The parked segments that have come due, one after the other, each without
what was there before; `rounds` bounds the search. -/
def unpark : Nat → Nat → List (Nat × Bytes) → Nat × List (Nat × Bytes) × List Bytes
  | 0, due, parked => (due, parked, [])
  | rounds + 1, due, parked =>
    match parked.find? (fun p => p.1 ≤ due) with
    | none => (due, parked, [])
    | some p =>
      let fresh := p.2.drop (due - p.1)
      let (due, parked, chunks) := unpark rounds (due + fresh.length) (parked.erase p)
      (due, parked, fresh :: chunks)

/-- Take in the data that starts at `seq`: what it brings that is due is handed
over, and what lies behind a gap is parked. -/
def Half.take (h : Half) (seq : Nat) (data : Bytes) : Half × List Bytes :=
  match h.due with
  | none => ({ h with due := some (seq + data.length) }, [data])
  | some due =>
    if seq > due then ({ h with parked := h.parked ++ [(seq, data)] }, [])
    else
      let fresh := data.drop (due - seq)
      let (due, parked, chunks) := unpark h.parked.length (due + fresh.length) h.parked
      ({ h with due := some due, parked := parked }, fresh :: chunks)

example : ((({ due := some 1 } : Half).take 3 [3]).1.take 1 [1, 2]).2 = [[1, 2], [3]] := by decide

/-- What the reassembler keeps of a connection: its flow as the first packet
had it, both directions, and when it was closed. -/
structure Link where
  first : FlowView
  token : UInt32
  client : Half := {}
  server : Half := {}
  closedAt : Option Time := none

namespace Link

variable (l : Link)

/-- The side that a packet comes from, when it is of the connection. -/
def side (f : FlowView) : Option Int :=
  if (f.src_ip, f.src_port, f.dst_ip, f.dst_port) =
      (l.first.src_ip, l.first.src_port, l.first.dst_ip, l.first.dst_port) then some 0
  else if (f.dst_ip, f.dst_port, f.src_ip, f.src_port) =
      (l.first.src_ip, l.first.src_port, l.first.dst_ip, l.first.dst_port) then some 1
  else none

/-- A RST ends the connection, and so does the FIN of the second side. -/
def ends (side : Int) (f : FlowView) : Bool :=
  f.tcp_flags &&& kTcpRst ≠ 0 ∨
    (f.tcp_flags &&& kTcpFin ≠ 0 ∧ (if side = 0 then l.server else l.client).finished = true)

/-- What an open connection does with a packet of its own. A SYN comes before
the data of its packet. -/
def takeOpen (now : Time) (packet : Bytes) (f : FlowView) : Link × List Callback :=
  let side := (l.side f).getD 0
  let start := seqOf packet + if f.tcp_flags &&& kTcpSyn = 0 then 0 else 1
  let (half, chunks) := (if side = 0 then l.client else l.server).take start (payloadOf packet f)
  let half := { half with finished := half.finished || f.tcp_flags &&& kTcpFin ≠ 0 }
  let taken := if side = 0 then { l with client := half } else { l with server := half }
  let told := (chunks.filter (· ≠ [])).map (Callback.message side l.token)
  if l.ends side f then ({ taken with closedAt := some now }, told ++ [.finish l.token])
  else (taken, told)

/-- A closed connection ignores its packets. -/
def take (now : Time) (packet : Bytes) (f : FlowView) : Link × List Callback :=
  if l.closedAt.isSome then (l, []) else l.takeOpen now packet f

/-- What becomes of an open connection, and what it says: messages, and its
end when it ends. -/
theorem takeOpen_spec (now : Time) (packet : Bytes) (f : FlowView) :
    let after := l.takeOpen now packet f
    let ended := l.ends ((l.side f).getD 0) f
    after.1.first = l.first ∧ after.1.token = l.token ∧
    after.1.closedAt = (if ended then some now else l.closedAt) ∧
    ∃ told, (∀ cb ∈ told, ∃ side data, cb = .message side l.token data) ∧
      after.2 = told ++ if ended then [.finish l.token] else [] := by
  have htold : ∀ (side : Int) (chunks : List Bytes),
      ∀ cb ∈ (chunks.filter (· ≠ [])).map (Callback.message side l.token),
        ∃ side data, cb = .message side l.token data := by
    intro side chunks cb hcb
    obtain ⟨data, -, rfl⟩ := List.mem_map.mp hcb
    exact ⟨side, data, rfl⟩
  unfold takeOpen
  dsimp only
  cases hended : l.ends ((l.side f).getD 0) f with
  | true =>
    refine ⟨?_, ?_, rfl, _, htold _ _, rfl⟩
    · by_cases hs : (l.side f).getD 0 = 0 <;> simp [hs]
    · by_cases hs : (l.side f).getD 0 = 0 <;> simp [hs]
  | false =>
    refine ⟨?_, ?_, ?_, _, htold _ _, (List.append_nil _).symm⟩
    · by_cases hs : (l.side f).getD 0 = 0 <;> simp [hs]
    · by_cases hs : (l.side f).getD 0 = 0 <;> simp [hs]
    · by_cases hs : (l.side f).getD 0 = 0 <;> simp [hs]

theorem take_of_closed {l : Link} (h : l.closedAt.isSome = true) (now : Time) (packet : Bytes)
    (f : FlowView) : l.take now packet f = (l, []) := if_pos h

theorem take_of_open {l : Link} (h : l.closedAt = none) (now : Time) (packet : Bytes)
    (f : FlowView) : l.take now packet f = l.takeOpen now packet f := if_neg (by simp [h])

/-- A packet changes neither the flow nor the token of a connection. -/
theorem take_same (now : Time) (packet : Bytes) (f : FlowView) :
    (l.take now packet f).1.first = l.first ∧ (l.take now packet f).1.token = l.token := by
  unfold take
  split
  · exact ⟨rfl, rfl⟩
  · obtain ⟨hfirst, htoken, -⟩ := l.takeOpen_spec now packet f
    exact ⟨hfirst, htoken⟩

theorem flags_of_ends {side : Int} {f : FlowView} (h : l.ends side f = true) :
    f.tcp_flags &&& (kTcpFin ||| kTcpRst) ≠ 0 := by
  intro hz
  rw [Nat.and_or_distrib_left, Nat.or_eq_zero_iff] at hz
  simp [ends, hz.1, hz.2] at h

/-- A connection says messages, and its end on a FIN or a RST. -/
theorem told_of_take {now : Time} {packet : Bytes} {f : FlowView} {cb : Callback}
    (h : cb ∈ (l.take now packet f).2) : (∃ side data, cb = .message side l.token data) ∨
      (cb = .finish l.token ∧ f.tcp_flags &&& (kTcpFin ||| kTcpRst) ≠ 0) := by
  unfold take at h
  split at h
  · cases h
  · obtain ⟨-, -, -, told, htold, heq⟩ := l.takeOpen_spec now packet f
    rw [heq] at h
    rcases List.mem_append.mp h with h | h
    · exact .inl (htold cb h)
    · split at h
      · rename_i hends
        exact .inr ⟨List.mem_singleton.mp h, l.flags_of_ends hends⟩
      · cases h

/-- A connection that a packet closes says so. -/
theorem finish_of_closed {now : Time} {packet : Bytes} {f : FlowView} (hopen : l.closedAt = none)
    (h : (l.take now packet f).1.closedAt.isSome = true) :
    .finish l.token ∈ (l.take now packet f).2 := by
  rw [take_of_open hopen] at h ⊢
  obtain ⟨-, -, hclosed, told, -, heq⟩ := l.takeOpen_spec now packet f
  rw [hclosed, hopen] at h
  split at h
  · rename_i hends
    rw [heq, if_pos hends]
    exact List.mem_append_right _ (List.mem_singleton_self _)
  · cases h

/-- The first data of a connection is handed over at once. -/
theorem told_of_first {now : Time} {packet : Bytes} {f : FlowView} (hne : payloadOf packet f ≠ [])
    (token : UInt32) : ∃ rest, (({ first := f, token := token } : Link).take now packet f).2 =
      .message 0 token (payloadOf packet f) :: rest := by
  have hside : ({ first := f, token := token } : Link).side f = some 0 := by simp [side]
  rw [take_of_open rfl]
  unfold takeOpen
  simp only [hside, Option.getD_some, if_true, Half.take]
  split
  · exact ⟨[.finish token], by simp [hne]⟩
  · exact ⟨[], by simp [hne]⟩

end Link

/-- The record of the connection that a flow belongs to. -/
def recordOf (links : List Link) (f : FlowView) : Option Link :=
  links.find? (fun l => (l.side f).isSome)

def closeLink (now : Time) (token : UInt32) (links : List Link) : List Link :=
  links.map (fun l =>
    if l.token = token ∧ l.closedAt = none then { l with closedAt := some now } else l)

/-- Each connection hands its data over in the order of the sequence numbers,
every byte once. A closed one is ignored until it is purged. -/
def reassemblePacket (links : List Link) (now : Time) (packet : Bytes) :
    List Link × List Callback :=
  match flowOf packet with
  | none => (links, [])
  | some f =>
    match recordOf links f with
    | none =>
      let (l, told) := ({ first := f, token := f.key + 1 } : Link).take now packet f
      (l :: links, .start l.token :: told)
    | some l =>
      let (l, told) := l.take now packet f
      (links.map (fun l' => if (l'.side f).isSome then l else l'), told)

def closeConnection (links : List Link) (now : Time) (token : UInt32) :
    List Link × List Callback :=
  (closeLink now token links, [.finish token])

/-- A closed connection is forgotten one second after its close. -/
def purgeClosedConnections (links : List Link) (now : Time) : List Link × List Callback :=
  (links.filter (fun l => l.closedAt.all (fun t => now - t < seconds 1)), [])

/-- The token of a connection, which is one above its flow key. -/
def tokenOf (c : Connection) : UInt32 :=
  c.2.2.lift ⟨fun a b => routeKey
      { ip_proto := c.2.1, src_ip := a.1, src_port := a.2, dst_ip := b.1, dst_port := b.2 } + 1, by
    intro a b
    refine congrArg (· + 1) (routeKey_of_connectionOf ?_)
    simp only [connectionOf, Sym2.eq_swap]⟩

/-- The world of a worker with the blocklist `b`. -/
def world (b : BlockList) : World (List Link) Unit where
  reassemblePacket := reassemblePacket
  closeConnection := closeConnection
  purgeClosedConnections := purgeClosedConnections
  decide := workerPolicy b
  walk := fun t => t.keys
  walk_perm := fun _ => .refl _

/-- The state after a run of a worker that blocks `host`. -/
def after (max_flows max_blocked : Nat) (ops : List Op) :
    TcpTlsHostnameExtractor (List Link) Unit :=
  ops.foldl (Op.apply (world { exact := [host] })) (.init [] () max_flows max_blocked)

end packet_inspector.traffic
