-- The queue of `NFQueue.cpp` and the worker of `worker.cpp` that drives it:
-- a packet comes from the kernel, goes to the extractor, and goes back with
-- its verdict once a turn.
import PacketInspector.Extractor

open wire

namespace packet_inspector

/-! ## The queue -/

/-- What the netlink library tells of one packet in the receive buffer. -/
structure NfqData where
  packet_id : Option UInt32
  payload : Option Bytes

/-- `nfq_set_verdict`: its result, which may depend on the calls before. -/
abbrev SetVerdict := List (UInt32 × Verdict) → UInt32 → Verdict → Int

/-- A packet that was moved from: no bytes, no id, owing nothing. -/
def Packet.husk : Packet := {}

/-- A view over the receive buffer, which owes a verdict from the start. -/
def NfqData.packet (nfa : NfqData) : Packet :=
  let id := nfa.packet_id.getD 0
  match nfa.payload with
  | some data =>
    if data.length > 0 then { bytes := data, storage := .view, id := id, pending := true }
    else { id := id, pending := true }
  | none => { id := id, pending := true }

/-- The counters of a queue. `verdicts` is the history of the calls of
`nfq_set_verdict`, which the code does not keep. -/
structure NFQueue where
  received : Nat := 0
  verdicted : Nat := 0
  undecided : Nat := 0
  verdicts : List (UInt32 × Verdict) := []

namespace NFQueue

def packets_received (q : NFQueue) : UInt64 := UInt64.ofNat q.received

def verdicts_issued (q : NFQueue) : UInt64 := UInt64.ofNat q.verdicted

/-- A difference that wraps, as the two counters of the code do. -/
def outstanding (q : NFQueue) : UInt64 := q.packets_received - q.verdicts_issued

/-- Tell the kernel, unless the packet owes nothing. The packet is changed
in place, so it comes back with the queue. -/
def submit (q : NFQueue) (nfq_set_verdict : SetVerdict) (pkt : Packet) (v : Verdict) :
    NFQueue × Packet :=
  if pkt.pending = false then (q, pkt)
  else
    let pkt := { pkt.release_bytes with verdict := v, pending := false }
    let rc := nfq_set_verdict q.verdicts pkt.id v
    ({ q with
        verdicted := if rc ≥ 0 then q.verdicted + 1 else q.verdicted
        verdicts := q.verdicts ++ [(pkt.id, v)] }, pkt)

end NFQueue

/-! ## The worker -/

structure Worker (R P : Type) where
  passthrough : Bool
  queue : NFQueue := {}
  tls : TcpTlsHostnameExtractor R P

/-- Why `run_once` came back, with the packets of the buffer that it drained
and the time at which each is fed. -/
inductive NFQueue.Event where
  | Packets (batch : List (Time × NfqData))
  | Idle
  | Stop
  | Error

/-- The packets that come with an event. -/
def NFQueue.Event.received : NFQueue.Event → List Packet
  | .Packets batch => batch.map (fun x => x.2.packet)
  | _ => []

namespace Worker

variable {R P : Type} (wk : Worker R P) (w : World R P) (nfq_set_verdict : SetVerdict)

/-- The callback takes a reference: what it leaves of the packet comes back.
`feed` takes its argument by value, which moves the packet out at once. -/
def callback (now : Time) (pkt : Packet) : Worker R P × Packet :=
  if wk.passthrough then
    let (queue, pkt) := wk.queue.submit nfq_set_verdict pkt .ALLOW
    ({ wk with queue := queue }, pkt)
  else ({ wk with tls := wk.tls.feed w now pkt }, Packet.husk)

def receive : Worker R P :=
  { wk with queue := { wk.queue with received := wk.queue.received + 1 } }

/-- The fail-safe: a packet that still owes a verdict after the callback is
let through. -/
def failSafe (pkt : Packet) : Worker R P :=
  if pkt.pending then
    let queue := { wk.queue with undecided := wk.queue.undecided + 1 }
    { wk with queue := (queue.submit nfq_set_verdict pkt .ALLOW).1 }
  else wk

def handle (now : Time) (nfa : NfqData) : Worker R P :=
  let (wk, pkt) := wk.receive.callback w nfq_set_verdict now nfa.packet
  wk.failSafe nfq_set_verdict pkt

def run_once : NFQueue.Event → Worker R P
  | .Packets batch => batch.foldl (fun wk x => wk.handle w nfq_set_verdict x.1 x.2) wk
  | _ => wk

/-- Hand what is decided to the kernel, then empty the buffer. -/
def drain_decided : Worker R P :=
  { wk with
    queue := wk.tls.decided.foldl
      (fun q d => (q.submit nfq_set_verdict d.pkt d.verdict).1) wk.queue
    tls := { wk.tls with decided := [] } }

/-- A turn of the loop that does not end it. -/
def turn (ev : NFQueue.Event) (now : Time) : Worker R P :=
  let wk := wk.run_once w nfq_set_verdict ev
  drain_decided { wk with tls := wk.tls.tick w now } nfq_set_verdict

/-- The end of the loop. -/
def finish (now : Time) : Worker R P :=
  drain_decided { wk with tls := wk.tls.flush w now } nfq_set_verdict

/-- The loop over the turns that `run_once` came back from so far, and
whether it has ended. -/
def loop : Worker R P → List (NFQueue.Event × Time) → Bool × Worker R P
  | wk, [] => (false, wk)
  | wk, (.Stop, now) :: _ => (true, wk.finish w nfq_set_verdict now)
  | wk, (.Error, now) :: _ => (true, wk.finish w nfq_set_verdict now)
  | wk, (ev, now) :: turns => loop (wk.turn w nfq_set_verdict ev now) turns

/-- The packets that a loop receives before it ends. -/
def arrivals : List (NFQueue.Event × Time) → List Packet
  | [] => []
  | (.Stop, _) :: _ => []
  | (.Error, _) :: _ => []
  | (ev, _) :: turns => ev.received ++ arrivals turns

end Worker

end packet_inspector
