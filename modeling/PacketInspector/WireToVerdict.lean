-- From the wire to the kernel: the hello of a host, in an IPv4 packet, gets
-- the verdict that the lines of the blocklist file say.
import PacketInspector.BlockedNames
import PacketInspector.BuiltHellos
import PacketInspector.Closing
import PacketInspector.Forgetting
import PacketInspector.KernelDrops
import PacketInspector.Segments

open wire packet_inspector.tls

namespace packet_inspector

variable {R P : Type} {w : World R P} {b : BlockList}

namespace TcpTlsHostnameExtractor

variable {s x : TcpTlsHostnameExtractor R P} {packet : Bytes} {f : FlowView} {h : Bytes} {c : Conn}

/-! ## The answer to a hello -/

/-- Client bytes that complete a hostname settle the flow, with everything
that it holds. -/
theorem deliver_answers (packet : Bytes) (tok : UInt32) {key : UInt32} {data : Bytes}
    (hpolicy : w.decide = workerPolicy b) (hin : s.inside = (true, key))
    (hl : s.conns.find key = some c) (hc : c.state = .Wait)
    (hfound : extractHostname (c.stream ++ data) = .Found h) :
    (s.deliver w packet (.message kClientSide tok data)).waits key = none ∧
    (s.deliver w packet (.message kClientSide tok data)).decided =
      s.decided ++ c.held.map (fun p => ⟨p, workerDecide b (some h)⟩) := by
  have hv : ∀ p : P, (w.decide p (some h)).1 = workerDecide b (some h) := by
    intro p
    rw [hpolicy]
    rfl
  rw [deliver_message_wait tok data hin hl hc]
  unfold checkStream
  simp only [hfound]
  generalize hc' : ({ c with pcpp_key := tok, stream := c.stream ++ data } : Conn) = c'
  have hwait : c'.state = .Wait := by
    rw [← hc']
    exact hc
  have hput : ((s.log (.callback packet (.message kClientSide tok data))).put key c').conns.find key =
      some c' := AList.find_insert_self _ _ _
  have hwrite := resolve_write w (some h) (waits_eq_some.mpr ⟨c', hput, hwait, rfl⟩)
  refine ⟨?_, ?_⟩
  · rw [hwrite.waits, if_pos rfl]
  · rw [resolve_decided hput hwait, hv, ← hc']
    rfl

/-- A flow that no longer waits decides nothing more in a callback. -/
theorem deliver_settled (packet : Bytes) (cb : Callback) {key : UInt32}
    (hin : s.inside = (true, key)) (h : s.waits key = none) :
    (s.deliver w packet cb).waits key = none ∧ (s.deliver w packet cb).decided = s.decided := by
  refine ⟨((deliver_alike packet cb hin h).waits key).trans h, ?_⟩
  cases hl : s.conns.find key with
  | none =>
    rw [deliver_of_none cb hin hl]
    rfl
  | some c => exact (deliver_blocked packet hin hl (waits_eq_none.mp h c hl) cb).2

/-- The reassembler hands the payload of a packet over, as the first message
of the client. -/
def HandsOver (w : World R P) (r : R) (now : Time) (packet payload : Bytes) : Prop :=
  ∃ starts tok rest, (∀ cb ∈ starts, ∃ t, cb = .start t) ∧
    (w.reassemblePacket r now packet).2 = starts ++ .message kClientSide tok payload :: rest

/-- A hello that is handed over settles the flow that waits for it. -/
theorem reassemble_answers {now : Time} (hpolicy : w.decide = workerPolicy b)
    (hf : flowOf packet = some f) (hl : s.conns.find f.key = some c) (hc : c.state = .Wait)
    (hstream : c.stream = []) (hhello : extractHostname (payloadOf packet f) = .Found h)
    (hhands : HandsOver w s.reassembly now packet (payloadOf packet f)) :
    (s.reassemble w now f.key packet).decided =
      s.decided ++ c.held.map (fun p => ⟨p, workerDecide b (some h)⟩) := by
  obtain ⟨starts, tok, rest, hstarts, hcbs⟩ := hhands
  -- among the starts and before the message, and after it
  have hend := reassemble_rule w now (s := s)
    (Q := fun cbs x =>
      (∃ starts, (∀ cb ∈ starts, ∃ t, cb = .start t) ∧
        cbs = starts ++ .message kClientSide tok (payloadOf packet f) :: rest ∧
        ∃ c', x.conns.find f.key = some c' ∧ c'.state = .Wait ∧ c'.stream = [] ∧
          c'.held = c.held ∧ x.decided = s.decided) ∨
      (x.waits f.key = none ∧
        x.decided = s.decided ++ c.held.map (fun p => ⟨p, workerDecide b (some h)⟩)))
    hf ?_ ?_ (.inl ⟨starts, hstarts, hcbs, c, hl, hc, hstream, rfl, rfl⟩)
  · rcases hend with ⟨starts, -, hnil, -⟩ | ⟨-, hdec⟩
    · simp at hnil
    · exact hdec
  · intro cbs x y ht hconns hdec hx
    have hwaits : y.waits f.key = x.waits f.key := by
      unfold waits
      rw [hconns]
    rw [hconns, hdec, hwaits]
    exact hx
  · intro cb cbs x hin hx
    rcases hx with ⟨starts, hstarts, hcbs, c', hl', hc', hstream', hheld', hdec⟩ | ⟨hnone, hdec⟩
    · cases starts with
      | nil =>
        obtain ⟨rfl, rfl⟩ := List.cons.inj hcbs
        refine .inr ?_
        have hfound : extractHostname (c'.stream ++ payloadOf packet f) = .Found h := by
          rw [hstream', List.nil_append]
          exact hhello
        have hanswer := deliver_answers (w := w) packet tok hpolicy hin hl' hc' hfound
        rw [hheld', hdec] at hanswer
        exact hanswer
      | cons start starts =>
        obtain ⟨rfl, rfl⟩ := List.cons.inj hcbs
        obtain ⟨t, rfl⟩ := hstarts cb (by simp)
        rw [deliver_start t hin hl']
        exact .inl ⟨starts, fun cb hcb => hstarts cb (by simp [hcb]), rfl, _,
          AList.find_insert_self _ _ _, hc', hstream', hheld', hdec⟩
    · obtain ⟨hsettled, hsame⟩ := deliver_settled (w := w) packet cb hin hnone
      exact .inr ⟨hsettled, hsame.trans hdec⟩

/-- The flow of `key` has room for its first client bytes: it is not tracked
and the table is not full, or it waits with nothing received. -/
def Awaits (t : TcpTlsHostnameExtractor R P) (key : UInt32) : Prop :=
  (t.conns.find key = none ∧ t.conns.size < t.max_flows) ∨
  ∃ c, t.conns.find key = some c ∧ c.state = .Wait ∧ c.stream = [] ∧ c.held = []

/-- The hello of a flow that awaits it is decided in its own feed. -/
theorem feed_answers {now : Time} {pkt : Arrival} (hpolicy : w.decide = workerPolicy b)
    (hf : flowOf pkt.val.bytes = some f)
    (hhello : extractHostname (payloadOf pkt.val.bytes f) = .Found h)
    (hawaits : (s.tick w now).Awaits f.key)
    (hhands : HandsOver w (s.tick w now).reassembly now pkt.val.bytes (payloadOf pkt.val.bytes f)) :
    (s.feed w now pkt.val).decided =
      (s.tick w now).decided ++ [⟨pkt.val, workerDecide b (some h)⟩] := by
  obtain ⟨hlen, h0, h1⟩ := opens_of_found hhello
  have hpay : f.payload_len > 0 := by
    apply payload_pos
    intro hnil
    rw [hnil] at hlen
    simp at hlen
  have htracked : ∀ (u : TcpTlsHostnameExtractor R P) (c : Conn),
      HandsOver w u.reassembly now pkt.val.bytes (payloadOf pkt.val.bytes f) →
      c.state = .Wait → c.stream = [] → c.held = [] →
      (u.feedTracked w now pkt.val f c).decided =
        u.decided ++ [⟨pkt.val, workerDecide b (some h)⟩] := by
    intro u c hhands hc hstream hheld
    have hput : ((u.put f.key { c with last := now }).put f.key
        { c with held := c.held ++ [pkt.val], last := now }).conns.find f.key =
          some { c with held := c.held ++ [pkt.val], last := now } := AList.find_insert_self _ _ _
    rw [feedTracked_payload (by simp [hheld, kMaxPacketsPerConn]) hpay, releaseLast_decided,
      reassemble_answers hpolicy hf hput hc hstream hhello hhands, hheld]
    rfl
  rw [feed_of_flow hf, publish_decided]
  unfold feedFlow
  rcases hawaits with ⟨hnone, hroom⟩ | ⟨c, hl, hc, hstream, hheld⟩
  · have hopen : opensTracking pkt.val.bytes f = true := by
      simp [opensTracking, opensTlsHandshake, hlen, h0, h1]
    unfold feedUntracked
    simp only [hnone, makeRoom_of_room hroom]
    rw [if_neg (by simp [hopen]), if_neg (by omega)]
    exact htracked ((s.tick w now).log (.tracked f.key)) {} hhands rfl rfl rfl
  · simp only [hl]
    rw [if_neg (by simp [hc])]
    exact htracked (s.tick w now) c hhands hc hstream hheld

end TcpTlsHostnameExtractor

/-! ## The hello on the wire -/

namespace IPv4Packet

variable (h : IPv4Packet)

/-- The flow that a packet on the wire dissects to. -/
theorem flowOf_encode (padding : Bytes) : ∃ f, flowOf (h.encode ++ padding) = some f ∧
    f.key = routeKey h.view ∧ payloadOf (h.encode ++ padding) f = h.segment.payload := by
  refine ⟨{ h.view with
    payload := some (h.header.length + h.segment.header.length)
    payload_len := h.segment.payload.length
    key := routeKey h.view }, ?_, rfl, ?_⟩
  · have hdata : ({ bytes := h.encode ++ padding, storage := .view } : Packet).data =
        some (h.encode ++ padding) := rfl
    unfold flowOf tcpFlow Packet.flow_view
    rw [hdata, h.parseFlow_encode padding]
    rfl
  · have hassoc : h.encode ++ padding =
        h.header ++ (h.segment.header ++ (h.segment.payload ++ padding)) := by
      simp only [IPv4Packet.encode, TcpSegment.encode, List.append_assoc]
    unfold payloadOf
    rw [hassoc, Option.getD_some, drop_skip rfl, ← Nat.add_zero h.segment.header.length,
      drop_skip rfl, List.drop_zero, List.take_left]

end IPv4Packet

namespace Worker

open TcpTlsHostnameExtractor

/-- From the wire to the kernel: when a packet carries a ClientHello with a host
name, cut into records in any way, and its flow awaits it, the kernel is told
to drop the packet when a line of the blocklist file names the host, and to
accept it otherwise. -/
theorem a_hello_gets_what_the_file_says (content : Bytes)
    (hpolicy : w.decide = workerPolicy (BlockList.load content)) (k : SetVerdict) (r : R) (p : P)
    (max_flows max_blocked : Nat) (turns : List (NFQueue.Event × Time)) (ops later : List Op)
    (now : Time) (pkt : Arrival) (h : IPv4Packet) (padding host rest : Bytes) (rs : List tls.Record)
    (hcalls : calls turns = ops ++ .feed now pkt :: later)
    (hbytes : pkt.val.bytes = h.encode ++ padding)
    (hpayload : h.segment.payload = Record.encodeAll rs ++ rest)
    (hmessage : IsClientHello (Record.payloads rs)) (hname : CarriesHost (Record.payloads rs) host) :
    let t := (ops.foldl (Op.apply w) (init r p max_flows max_blocked)).tick w now
    let wk := ((constructed false r p max_flows max_blocked).loop w k turns).2
    let named := ∃ line ∈ content.splitOn 0x0a, BlockList.Names (BlockList.parse_line line) host
    t.Awaits (routeKey h.view) →
    HandsOver w t.reassembly now pkt.val.bytes h.segment.payload →
    (named → (pkt.val.id, .BLOCK) ∈ wk.queue.verdicts) ∧
    (¬ named → (pkt.val.id, .ALLOW) ∈ wk.queue.verdicts) ∧
    (((arrivals turns).map Packet.id).Nodup → ((pkt.val.id, .BLOCK) ∈ wk.queue.verdicts ↔ named)) := by
  intro t wk named hawaits hhands
  obtain ⟨f, hf, hkey, hpay⟩ := h.flowOf_encode padding
  rw [← hbytes] at hf hpay
  have hhello : extractHostname (payloadOf pkt.val.bytes f) = .Found host := by
    rw [hpay, hpayload, extractHostname_of_framing hmessage (List.prefix_append _ rest)]
    exact parseClientHello_eq_found_iff.mpr hname
  have hdecided := feed_answers hpolicy hf hhello (hkey ▸ hawaits) (hpay ▸ hhands)
  -- what is decided in this feed is told by the end of the run
  have htold : wk.queue.verdicts = _ := (constructed_calls w k r p max_flows max_blocked turns).1
  have hrun : (calls turns).foldl (Op.apply w) (init r p max_flows max_blocked) =
      later.foldl (Op.apply w) ((ops.foldl (Op.apply w) (init r p max_flows max_blocked)).feed w now
        pkt.val) := by
    rw [hcalls, List.foldl_append, List.foldl_cons]
    rfl
  have hfeed := (accounted_run w r p max_flows max_blocked ops).2
  have hlater := (run_decided (w := w) later (feed_feeds w now pkt hfeed).2).1.subset
    (by rw [hdecided]; exact List.mem_append_right _ (List.mem_singleton.mpr rfl))
  have hverdict : (pkt.val.id, workerDecide (BlockList.load content) (some host)) ∈
      wk.queue.verdicts := by
    rw [htold, hrun]
    exact List.mem_map.mpr ⟨_, hlater, rfl⟩
  have hnamed : workerDecide (BlockList.load content) (some host) = .BLOCK ↔ named := by
    rw [workerDecide_eq_block_iff]
    simp only [Option.some.injEq, exists_eq_left']
    exact BlockList.isHostnameBlocked_iff content host
  have hallow : ¬ named → workerDecide (BlockList.load content) (some host) = .ALLOW := by
    intro hno
    cases hv : workerDecide (BlockList.load content) (some host) with
    | ALLOW => rfl
    | BLOCK => exact absurd (hnamed.mp hv) hno
  refine ⟨fun hyes => hnamed.mpr hyes ▸ hverdict, fun hno => hallow hno ▸ hverdict,
    fun hids => ⟨fun hblock => ?_, fun hyes => hnamed.mpr hyes ▸ hverdict⟩⟩
  exact hnamed.mp (told_once w k r p max_flows max_blocked turns hids _ _ _ hverdict hblock)

open traffic in
/-- A client opens a connection and sends the hello of the one host that the
file lists. -/
theorem the_hello_of_a_listed_host_is_dropped :
    let wk := ((constructed false [] () 2 1).loop (world (BlockList.load traffic.host))
      (fun _ _ _ => 0) [(.Packets [(0, ⟨some 1, some (syn (client 2) 1).val.bytes⟩),
        (0, ⟨some 2, some (hello (client 2) 2).val.bytes⟩)], 0), (.Stop, 0)]).2
    (2, .BLOCK) ∈ wk.queue.verdicts ↔
      ∃ line ∈ traffic.host.splitOn 0x0a, BlockList.Names (BlockList.parse_line line) traffic.host := by
  intro wk
  let w := world (BlockList.load traffic.host)
  let first : Arrival := (⟨some 1, some (syn (client 2) 1).val.bytes⟩ : NfqData).arrival
  let second : Arrival := (⟨some 2, some (hello (client 2) 2).val.bytes⟩ : NfqData).arrival
  let t := ((init ([] : List Link) () 2 1).feed w 0 first.val).tick w 0
  let h : IPv4Packet :=
    { tos := 0, id := [0, 0], flags := 0, ttl := 64, checksum := [0, 0], src_ip := (client 2).ip
      dst_ip := server.ip, options := []
      segment :=
        { src_port := 40000, dst_port := 443, numbers := [0, 0, 0, 1, 0, 0, 0, 0], reserved := 0
          flags := 0x18, rest := [0, 0, 0, 0, 0, 0], options := [], payload := client_hello traffic.host
          numbers_length := rfl, reserved_lt := by decide, rest_length := rfl
          words := ⟨0, by decide, rfl⟩ }
      id_length := rfl, flags_lt := by decide, checksum_length := rfl, src_ip_length := rfl
      dst_ip_length := rfl, words := ⟨0, by decide, rfl⟩, fits := by decide }
  obtain ⟨record, hrecord, hhello⟩ := @client_hello_eq traffic.host (by decide)
  have hentry : (t.conns.find (routeKey h.view)).map (fun c => (c.state, c.stream, c.held.length)) =
      some (.Wait, [], 0) := by
    decide +kernel
  have hawaits : t.Awaits (routeKey h.view) := by
    obtain ⟨c, hl, hc⟩ := Option.map_eq_some_iff.mp hentry
    obtain ⟨hstate, hstream, hheld⟩ := by simpa only [Prod.mk.injEq] using hc
    exact .inr ⟨c, hl, hstate, hstream, List.length_eq_zero_iff.mp hheld⟩
  have hpayloads : Record.payloads [record] = handshake traffic.host := by simpa using hrecord
  have hmessage : IsClientHello (Record.payloads [record]) :=
    hpayloads ▸ isClientHello_handshake (by decide)
  have hname : CarriesHost (Record.payloads [record]) traffic.host :=
    hpayloads ▸ parseClientHello_eq_found_iff.mp (parseClientHello_handshake (by decide))
  have hhands : HandsOver w t.reassembly 0 second.val.bytes h.segment.payload :=
    ⟨[], 3561989441, [], by simp, by decide +kernel⟩
  have hlaw := a_hello_gets_what_the_file_says (w := w) traffic.host rfl (fun _ _ _ => 0) [] () 2 1
    [(.Packets [(0, ⟨some 1, some (syn (client 2) 1).val.bytes⟩),
      (0, ⟨some 2, some (hello (client 2) 2).val.bytes⟩)], 0), (.Stop, 0)]
    [.feed 0 first] [.tick 0, .flush 0] 0 second h [] traffic.host [] [record] rfl (by decide +kernel)
    (by simpa using hhello) hmessage hname hawaits hhands
  exact hlaw.2.2 (by decide +kernel)

end Worker

end packet_inspector
