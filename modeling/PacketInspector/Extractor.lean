-- The extractor of `hostname_extractor.cpp`: the flow table, the ring of
-- blocked keys, and `feed`, `tick` and `flush`. The reassembler, the policy
-- and the order in which the table is walked are parameters.
import PacketInspector.Runs
import PacketInspector.Hostname
import PacketInspector.Policy

open wire packet_inspector.tls

namespace packet_inspector

/-- A point of the steady clock, in nanoseconds. -/
abbrev Time := Int

def seconds (n : Int) : Time := n * 1000000000

def kMaxPacketsPerConn : Nat := 32
def kMaxStreamBytes : Nat := 32 * 1024
def kWaitIdleTimeout : Time := seconds 10
def kBlockIdleTimeout : Time := seconds 60
def kSweepInterval : Time := seconds 1
def kDefaultBlockedShare : Nat := 4

def kTcpFin : Nat := 0x01
def kTcpSyn : Nat := 0x02
def kTcpRst : Nat := 0x04
def kTcpAck : Nat := 0x10

def kClientSide : Int := 0

/-- A payload that opens a TLS handshake record. -/
def opensTlsHandshake (payload : Bytes) : Bool :=
  payload.length ≥ 2 && byteAt payload 0 = 0x16 && byteAt payload 1 = 0x03

/-- A connection opening from the client: SYN set, ACK clear. -/
def isClientSyn (f : FlowView) : Bool := f.tcp_flags &&& kTcpSyn ≠ 0 && f.tcp_flags &&& kTcpAck = 0

/-- A packet that starts the tracking of an untracked flow. -/
def opensTracking (data : Bytes) (f : FlowView) : Bool :=
  isClientSyn f || opensTlsHandshake (payloadOf data f)

/-! ## The state -/

inductive State where
  | Wait
  | Block
  deriving DecidableEq

/-- What the table keeps for a flow. -/
structure Conn where
  state : State := .Wait
  held : List Packet := []
  stream : Bytes := []
  pcpp_key : UInt32 := 0
  pcpp_closed : Bool := false
  last : Time := 0

/-- A packet the extractor is finished with, and what should happen to it. -/
structure Decided where
  pkt : Packet
  verdict : Verdict

/-- A callback of the reassembler, with its key for the connection. -/
inductive Callback where
  | start (flowKey : UInt32)
  | message (side : Int) (flowKey : UInt32) (data : Bytes)
  | finish (flowKey : UInt32)
  deriving DecidableEq

/-- The history that the laws speak about. The code keeps none of it. -/
inductive Event where
  | tracked (key : UInt32)
  | callback (packet : Bytes) (cb : Callback)
  | asked (key : UInt32) (hostname : Option Bytes) (verdict : Verdict)
  | evicted (key : UInt32)
  | expired (key : UInt32)
  deriving DecidableEq

/-- The table of flows, by flow key. -/
abbrev Table := AList (fun _ : UInt32 => Conn)

/-- What the extractor is built on: the reassembler, which answers a call
with the callbacks that it makes, the policy, and the order in which a walk
over the hash table visits the keys. -/
structure World (R P : Type) where
  reassemblePacket : R → Time → Bytes → R × List Callback
  closeConnection : R → Time → UInt32 → R × List Callback
  purgeClosedConnections : R → Time → R × List Callback
  decide : P → Option Bytes → Verdict × P
  walk : Table → List UInt32
  walk_perm : ∀ t, (walk t).Perm t.keys

structure TcpTlsHostnameExtractor (R P : Type) where
  decided : List Decided := []
  policy : P
  reassembly : R
  to_close : List UInt32 := []
  conns : Table := ∅
  current_key : UInt32 := 0
  feeding : Bool := false
  max_flows : Nat
  max_blocked : Nat
  block_ring : List UInt32
  block_next : Nat := 0
  lastSweep : Time := 0
  flows : Nat := 0
  blocked : Nat := 0
  dropped_at_cap : Nat := 0
  trace : List Event := []

/-- The policy of a worker keeps no state of its own. -/
def workerPolicy {P : Type} (b : BlockList) (policy : P) (hostname : Option Bytes) : Verdict × P :=
  (workerDecide b hostname, policy)

namespace TcpTlsHostnameExtractor

variable {R P : Type}

/-- The constructor. Neither cap is ever zero, and the blocked one is never
above the other. -/
def init (r : R) (p : P) (max_flows max_blocked : Nat) : TcpTlsHostnameExtractor R P :=
  let max_flows := if max_flows = 0 then 1 else max_flows
  let max_blocked :=
    if max_blocked ≠ 0 then max_blocked else max 1 (max_flows / kDefaultBlockedShare)
  let max_blocked := min max_blocked max_flows
  { policy := p, reassembly := r, max_flows := max_flows, max_blocked := max_blocked,
    block_ring := List.replicate max_blocked 0 }

variable (s : TcpTlsHostnameExtractor R P)

@[simps] def publish : TcpTlsHostnameExtractor R P := { s with flows := s.conns.size }

/-- Park one finished packet in the decided buffer. -/
@[simps] def decide (pkt : Packet) (v : Verdict) : TcpTlsHostnameExtractor R P :=
  { s with decided := s.decided ++ [⟨pkt, v⟩] }

/-- Write the entry of `key`. -/
@[simps] def put (key : UInt32) (c : Conn) : TcpTlsHostnameExtractor R P :=
  { s with conns := s.conns.insert key c }

/-- Erase the entry of `key`. -/
@[simps] def forget (key : UInt32) : TcpTlsHostnameExtractor R P :=
  { s with conns := s.conns.erase key }

@[simps] def clear : TcpTlsHostnameExtractor R P := { s with conns := ∅ }

@[simps] def log (e : Event) : TcpTlsHostnameExtractor R P := { s with trace := s.trace ++ [e] }

/-! ## The ring of blocked keys -/

/-- The flow of `key`, when it is there and blocked. -/
def blockedConn (key : UInt32) : Bool :=
  match s.conns.find key with
  | some c => c.state = .Block
  | none => false

/-- Erase the victim of an eviction. -/
def evict (victim : UInt32) : TcpTlsHostnameExtractor R P :=
  ((s.forget victim).log (.evicted victim)).publish

/-- The slot to overwrite, that is the oldest. -/
def oldest : UInt32 := s.block_ring.getD s.block_next 0

/-- Write the oldest slot and go on to the next one. -/
@[simps] def turn (key : UInt32) : TcpTlsHostnameExtractor R P :=
  { s with
    block_ring := s.block_ring.set s.block_next key
    block_next := (s.block_next + 1) % s.max_blocked }

def remember_blocked (key : UInt32) : TcpTlsHostnameExtractor R P :=
  if s.oldest ≠ 0 ∧ s.oldest ≠ key ∧ s.blockedConn s.oldest = true then
    turn (s.evict s.oldest) key
  else s.turn key

/-- The turns of `evict_oldest_blocked`; the first argument counts those
that are left. -/
def evictTurns : Nat → TcpTlsHostnameExtractor R P → Bool × TcpTlsHostnameExtractor R P
  | 0, s => (false, s)
  | left + 1, s =>
    if s.oldest ≠ 0 ∧ s.blockedConn s.oldest = true then (true, (s.turn 0).evict s.oldest)
    else evictTurns left (s.turn 0)

def evict_oldest_blocked : Bool × TcpTlsHostnameExtractor R P := evictTurns s.max_blocked s

variable (w : World R P)

/-! ## Resolving a flow -/

/-- Put the question to the policy. -/
@[simps] def ask (key : UInt32) (hostname : Option Bytes) : TcpTlsHostnameExtractor R P :=
  { s with
    policy := (w.decide s.policy hostname).2
    trace := s.trace ++ [.asked key hostname (w.decide s.policy hostname).1] }

/-- Note the close of the reassembler's connection, unless it is closed. -/
@[simps] def close (c : Conn) : TcpTlsHostnameExtractor R P :=
  { s with
    to_close :=
      if c.pcpp_key ≠ 0 ∧ c.pcpp_closed = false then s.to_close ++ [c.pcpp_key] else s.to_close }

/-- Everything a flow was holding gets the same verdict, in arrival order. -/
def release (held : List Packet) (v : Verdict) : TcpTlsHostnameExtractor R P :=
  held.foldl (fun s p => s.decide p v) s

/-- Decide the flow of `key`, verdict everything held for it, and either
drop the entry or turn it into a Block entry. -/
def resolve (key : UInt32) (hostname : Option Bytes) : TcpTlsHostnameExtractor R P :=
  match s.conns.find key with
  | none => s
  | some c =>
    if c.state = .Block then s
    else
      let v := (w.decide s.policy hostname).1
      let s := s.ask w key hostname
      let s :=
        match v with
        | .BLOCK =>
          (s.put key { c with state := .Block, held := [], stream := [] }).remember_blocked key
        | .ALLOW => s.forget key
      (s.close c).release c.held v

/-! ## The callbacks of the reassembler -/

def onConnectionStart (flowKey : UInt32) : TcpTlsHostnameExtractor R P :=
  if s.feeding = false then s
  else
    match s.conns.find s.current_key with
    | none => s
    | some c => s.put s.current_key { c with pcpp_key := flowKey }

/-- Look for the hostname in the stream of the flow `key`. -/
def checkStream (key : UInt32) (stream : Bytes) : TcpTlsHostnameExtractor R P :=
  match extractHostname stream with
  | .Found host => s.resolve w key (some host)
  | .NotFound => s.resolve w key none
  | .NeedMore => if stream.length > kMaxStreamBytes then s.resolve w key none else s

def onMessageReady (side : Int) (flowKey : UInt32) (data : Bytes) : TcpTlsHostnameExtractor R P :=
  if s.feeding = false then s
  else if side ≠ kClientSide then s
  else
    match s.conns.find s.current_key with
    | none => s
    | some c =>
      if c.state ≠ .Wait then s
      else
        let c := { c with pcpp_key := flowKey, stream := c.stream ++ data }
        (s.put s.current_key c).checkStream w s.current_key c.stream

def onConnectionEnd : TcpTlsHostnameExtractor R P :=
  if s.feeding = false then s
  else
    match s.conns.find s.current_key with
    | none => s
    | some c => (s.put s.current_key { c with pcpp_closed := true }).resolve w s.current_key none

def callback : Callback → TcpTlsHostnameExtractor R P
  | .start flowKey => s.onConnectionStart flowKey
  | .message side flowKey data => s.onMessageReady w side flowKey data
  | .finish _ => s.onConnectionEnd w

/-- A callback that the reassembler makes while it is fed `packet`. -/
def deliver (packet : Bytes) (cb : Callback) : TcpTlsHostnameExtractor R P :=
  (s.log (.callback packet cb)).callback w cb

/-! ## Calls into the reassembler -/

/-- Take over the reassembler's answer to a call that is not about a packet. -/
def settle (answer : R × List Callback) : TcpTlsHostnameExtractor R P :=
  answer.2.foldl (fun s cb => s.callback w cb) { s with reassembly := answer.1 }

def drain_closes (now : Time) : TcpTlsHostnameExtractor R P :=
  { s.to_close.foldl (fun s token => s.settle w (w.closeConnection s.reassembly now token)) s with
    to_close := [] }

/-- Hand a packet of the flow `key` to the reassembler. -/
def reassemble (now : Time) (key : UInt32) (packet : Bytes) : TcpTlsHostnameExtractor R P :=
  let answer := w.reassemblePacket s.reassembly now packet
  let s := { s with current_key := key, feeding := true, reassembly := answer.1 }
  let s := answer.2.foldl (fun s cb => s.deliver w packet cb) s
  drain_closes { s with feeding := false } w now

/-! ## Idle flows -/

def idleTimeout : State → Time
  | .Block => kBlockIdleTimeout
  | .Wait => kWaitIdleTimeout

def isIdle (now : Time) (c : Conn) : Bool := now - c.last ≥ idleTimeout c.state

/-- The keys that a walk over the table collects. -/
def collect (p : Conn → Bool) : List UInt32 :=
  (w.walk s.conns).filter (fun key => (s.conns.find key).any p)

/-- Forget an idle flow: a blocked one is erased, a waiting one resolved. -/
def expire (key : UInt32) : TcpTlsHostnameExtractor R P :=
  match s.conns.find key with
  | none => s
  | some c =>
    if c.state = .Block then (s.forget key).log (.expired key)
    else s.resolve w key none

def blockedCount : Nat := s.conns.entries.countP (fun e => e.2.state = .Block)

/-- Collect the idle flows first, then act. -/
def expireAll (now : Time) : TcpTlsHostnameExtractor R P :=
  (s.collect w (isIdle now)).foldl (fun s key => s.expire w key) s

def sweep (now : Time) : TcpTlsHostnameExtractor R P :=
  let s := expireAll { s with blocked := s.blockedCount } w now
  let s := s.settle w (w.purgeClosedConnections s.reassembly now)
  (s.drain_closes w now).publish

def tick (now : Time) : TcpTlsHostnameExtractor R P :=
  if now - s.lastSweep < kSweepInterval then s
  else sweep { s with lastSweep := now } w now

/-- Release whatever is still held. -/
def resolveAll : TcpTlsHostnameExtractor R P :=
  (s.collect w (fun c => c.state = .Wait)).foldl (fun s key => s.resolve w key none) s

/-- `now` is the reassembler's own clock: the code's `flush` takes no time. -/
def flush (now : Time) : TcpTlsHostnameExtractor R P :=
  ((s.resolveAll w).clear.drain_closes w now).publish

/-! ## Feeding a packet -/

/-- Make room for a new flow in a full table. -/
def makeRoom (now : Time) : TcpTlsHostnameExtractor R P :=
  if s.conns.size ≥ s.max_flows then
    let s := s.tick w now
    if s.conns.size ≥ s.max_flows then s.evict_oldest_blocked.2 else s
  else s

/-- Count a flow that is not tracked because the table is full. -/
@[simps] def refuse : TcpTlsHostnameExtractor R P :=
  { s with dropped_at_cap := s.dropped_at_cap + 1 }

/-- Drop the bytes of the packet held last for `key`, when one is. -/
def releaseLast (key : UInt32) : TcpTlsHostnameExtractor R P :=
  match s.conns.find key with
  | none => s
  | some c =>
    match c.held.getLast? with
    | none => s
    | some p =>
      s.put key { c with held := c.held.dropLast ++ [p.release_bytes] }

/-- A packet of a flow that waits, with its entry `c`. -/
def feedTracked (now : Time) (pkt : Packet) (f : FlowView) (c : Conn) :
    TcpTlsHostnameExtractor R P :=
  let key := f.key
  let c := { c with last := now }
  let s := s.put key c
  if c.held.length ≥ kMaxPacketsPerConn then (s.resolve w key none).decide pkt .ALLOW
  else if f.payload_len > 0 then
    let s := s.put key { c with held := c.held ++ [pkt] }
    (s.reassemble w now key pkt.bytes).releaseLast key
  else if f.tcp_flags &&& (kTcpSyn ||| kTcpFin ||| kTcpRst) = 0 then s.decide pkt .ALLOW
  else (s.reassemble w now key pkt.bytes).decide pkt .ALLOW

/-- A packet of a flow that the table does not know. -/
def feedUntracked (now : Time) (pkt : Packet) (f : FlowView) : TcpTlsHostnameExtractor R P :=
  if opensTracking pkt.bytes f = false then s.decide pkt .ALLOW
  else
    let s := s.makeRoom w now
    if s.conns.size ≥ s.max_flows then s.refuse.decide pkt .ALLOW
    else (s.log (.tracked f.key)).feedTracked w now pkt f {}

/-- A TCP packet, after the tick. -/
def feedFlow (now : Time) (pkt : Packet) (f : FlowView) : TcpTlsHostnameExtractor R P :=
  match s.conns.find f.key with
  | some c =>
    if c.state = .Block then (s.put f.key { c with last := now }).decide pkt .BLOCK
    else s.feedTracked w now pkt f c
  | none => s.feedUntracked w now pkt f

def feed (now : Time) (pkt : Packet) : TcpTlsHostnameExtractor R P :=
  let s := s.tick w now
  publish <|
    if pkt.has_bytes = false then s.decide pkt .ALLOW
    else
      match pkt.flow_view {} with
      | (false, _) => s.decide pkt .ALLOW
      | (true, f) =>
        if f.ip_proto ≠ kProtoTcp then s.decide pkt .ALLOW else s.feedFlow w now pkt f

end TcpTlsHostnameExtractor

/-! ## Runs -/

/-- A call on the extractor, with the time at which it is made. -/
inductive Op where
  | feed (now : Time) (pkt : Arrival)
  | tick (now : Time)
  | flush (now : Time)

namespace Op

def apply {R P : Type} (w : World R P) (s : TcpTlsHostnameExtractor R P) :
    Op → TcpTlsHostnameExtractor R P
  | feed now pkt => s.feed w now pkt.val
  | tick now => s.tick w now
  | flush now => s.flush w now

/-- The packet that a call feeds. -/
def fed : Op → Option Packet
  | feed _ pkt => some pkt.val
  | _ => none

def now : Op → Time
  | feed now _ => now
  | tick now => now
  | flush now => now

end Op

/-- The packets fed by a run, in order. -/
def fedBy (ops : List Op) : List Packet := ops.filterMap Op.fed

end packet_inspector
