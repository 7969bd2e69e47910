-- A flow that gathers its ClientHello: as long as the bytes delivered for
-- it are a part of a framed hello it waits and holds its payload, and the
-- bytes that complete the hello block it.
import PacketInspector.Flow

open wire packet_inspector.tls runs

namespace packet_inspector

/-! ## Framed hellos -/

/-- Records that frame a whole ClientHello with a blocked hostname, within
what a flow may buffer. -/
structure Frames (b : BlockList) (rs : List Record) : Prop where
  whole : (Record.payloads rs).length = 4 + rd24 (Record.payloads rs) 1
  short : (Record.encodeAll rs).length ≤ kMaxStreamBytes
  blocked : ∃ h, parseClientHello (Record.payloads rs) = .Found h ∧ b.isHostnameBlocked h = true

/-- The bytes start with such a framing. -/
def Begins (b : BlockList) (data : Bytes) : Prop :=
  ∃ rs, Frames b rs ∧ Record.encodeAll rs <+: data

theorem payloads_length_le (rs : List Record) :
    (Record.payloads rs).length ≤ (Record.encodeAll rs).length := by
  induction rs with
  | nil => simp
  | cons r rs ih =>
    simp only [Record.payloads_cons, Record.encodeAll_cons, List.length_append,
      Record.encode_length]
    omega

theorem parseClientHello_found_bounds {m h : Bytes} (hm : parseClientHello m = .Found h) :
    byteAt m 0 = 0x01 ∧ 39 ≤ m.length := by
  unfold parseClientHello at hm
  split at hm
  · cases hm
  · rename_i h0
    simp only at hm
    split at hm
    · cases hm
    · rename_i h39
      exact ⟨by simpa using (not_or.mp h0).2, by omega⟩

variable {b : BlockList} {rs : List Record}

theorem Frames.isClientHello (h : Frames b rs) : IsClientHello (Record.payloads rs) := by
  obtain ⟨host, hparse, -⟩ := h.blocked
  obtain ⟨h0, h39⟩ := parseClientHello_found_bounds hparse
  have hwhole := h.whole
  have hshort := h.short
  have hle := payloads_length_le rs
  unfold kMaxStreamBytes at hshort
  exact ⟨h0, by omega, by omega, hwhole⟩

theorem Frames.found (h : Frames b rs) {x : Bytes} (hx : Record.encodeAll rs <+: x) :
    ∃ host, extractHostname x = .Found host ∧ b.isHostnameBlocked host = true := by
  obtain ⟨host, hparse, hblock⟩ := h.blocked
  exact ⟨host, (extractHostname_of_framing h.isClientHello hx).trans hparse, hblock⟩

theorem not_begins_of_needMore {data : Bytes} (h : extractHostname data = .NeedMore) :
    ¬ Begins b data := by
  rintro ⟨rs, hrs, hle⟩
  obtain ⟨host, hfound, -⟩ := hrs.found hle
  rw [h] at hfound
  cases hfound

/-- A part of the framing is buffered without an answer. -/
theorem Frames.needMore (h : Frames b rs) {x : Bytes} (hx : x <+: Record.encodeAll rs)
    (hne : ¬ Record.encodeAll rs <+: x) :
    extractHostname x = .NeedMore ∧ x.length ≤ kMaxStreamBytes := by
  refine ⟨extractHostname_needMore h.isClientHello hx ?_, hx.length_le.trans h.short⟩
  intro he
  apply hne
  rw [he]

/-! ## The bytes of a call into the reassembler -/

def Callback.clientBytes : Callback → Bytes
  | .message side _ data => if side = kClientSide then data else []
  | _ => []

/-- The client bytes that a list of callbacks delivers. -/
def bytesOf (cbs : List Callback) : Bytes := cbs.flatMap Callback.clientBytes

@[simp] theorem bytesOf_nil : bytesOf [] = [] := rfl

@[simp] theorem bytesOf_cons (cb : Callback) (cbs : List Callback) :
    bytesOf (cb :: cbs) = cb.clientBytes ++ bytesOf cbs := rfl

theorem clientData_callback {packet : Bytes} {f : FlowView} (hf : flowOf packet = some f)
    (cb : Callback) : clientData (keyed f.key) (.callback packet cb) = cb.clientBytes := by
  have hk : keyed f.key packet = true := keyed_iff.mpr ⟨f, hf, rfl⟩
  cases cb with
  | start tok => rfl
  | finish tok => rfl
  | message side tok data => simp [clientData, Callback.clientBytes, hk]

namespace TcpTlsHostnameExtractor

variable {R P : Type} {w : World R P} {s x : TcpTlsHostnameExtractor R P} {now : Time}
  {packet : Bytes} {f : FlowView}

/-- What a callback adds to the history are no callbacks. -/
theorem callback_trace (w : World R P) (s : TcpTlsHostnameExtractor R P) (cb : Callback) :
    ∃ es, (s.callback w cb).trace = s.trace ++ es ∧ ∀ packet cb', .callback packet cb' ∉ es := by
  have hsame : ∃ es, s.trace = s.trace ++ es ∧ ∀ packet cb', Event.callback packet cb' ∉ es :=
    ⟨[], by simp, by simp⟩
  have hresolve : ∀ (y : TcpTlsHostnameExtractor R P) (key : UInt32) (hostname : Option Bytes),
      y.trace = s.trace → ∃ es, (y.resolve w key hostname).trace = s.trace ++ es ∧
        ∀ packet cb', Event.callback packet cb' ∉ es := by
    intro y key hostname hy
    obtain ⟨es, he, hno, -⟩ := resolve_trace (w := w) y key hostname
    exact ⟨es, by rw [he, hy], hno⟩
  cases cb with
  | start tok =>
    change ∃ es, (s.onConnectionStart tok).trace = _ ∧ _
    unfold onConnectionStart
    split
    · exact hsame
    · split
      · exact hsame
      · exact hsame
  | finish tok =>
    change ∃ es, (s.onConnectionEnd w).trace = _ ∧ _
    unfold onConnectionEnd
    split
    · exact hsame
    · split
      · exact hsame
      · exact hresolve _ _ none rfl
  | message side tok data =>
    change ∃ es, (s.onMessageReady w side tok data).trace = _ ∧ _
    unfold onMessageReady
    split
    · exact hsame
    · split
      · exact hsame
      · split
        · exact hsame
        · split
          · exact hsame
          · simp only
            unfold checkStream
            split
            · exact hresolve _ _ _ rfl
            · exact hresolve _ _ none rfl
            · split
              · exact hresolve _ _ none rfl
              · exact hsame

theorem deliver_delivered (hf : flowOf packet = some f) (cb : Callback) :
    delivered (keyed f.key) (s.deliver w packet cb).trace =
      delivered (keyed f.key) s.trace ++ cb.clientBytes := by
  obtain ⟨es, he, hno⟩ := callback_trace w (s.log (.callback packet cb)) cb
  have hnone : delivered (keyed f.key) es = [] :=
    delivered_of_callbacks (fun packet' cb' hm => absurd hm (hno packet' cb'))
  unfold deliver
  rw [he, log_trace, delivered_append, delivered_append, hnone, List.append_nil,
    delivered_singleton, clientData_callback hf]

theorem reassemble_delivered (w : World R P) (now : Time) (s : TcpTlsHostnameExtractor R P)
    (hf : flowOf packet = some f) :
    delivered (keyed f.key) (s.reassemble w now f.key packet).trace =
      delivered (keyed f.key) s.trace ++ bytesOf (w.reassemblePacket s.reassembly now packet).2 := by
  have hend := reassemble_rule w now (s := s)
    (Q := fun cbs y => delivered (keyed f.key) y.trace ++ bytesOf cbs =
      delivered (keyed f.key) s.trace ++ bytesOf (w.reassemblePacket s.reassembly now packet).2)
    hf ?_ ?_ rfl
  · simpa using hend
  · intro cbs y z ht _ _ hy
    rw [ht]
    exact hy
  · intro cb cbs y _ hy
    rw [deliver_delivered hf, List.append_assoc]
    exact hy

/-- A start of a stream that a framing agrees with agrees with the framing. -/
theorem compatible {x y z : Bytes} (hx : x <+: y) (hz : z <+: y ∨ y <+: z) :
    x <+: z ∨ z <+: x := by
  rcases hz with hz | hz
  · exact List.prefix_or_prefix_of_prefix hx hz
  · exact .inl (hx.trans hz)

/-- A call into the reassembler that delivers, together with what the flow
has buffered, a part of a blocked hello or more than it: the flow goes on
waiting with all of it, or is blocked with everything that it holds. -/
theorem reassemble_outcome (hpolicy : w.decide = workerPolicy b) (hrs : Frames b rs) {c : Conn}
    (hf : flowOf packet = some f) (hl : s.conns.find f.key = some c) (hc : c.state = .Wait)
    (hopen : ¬ Record.encodeAll rs <+: c.stream)
    (hend : ∀ tok, .finish tok ∉ (w.reassemblePacket s.reassembly now packet).2) {y : Bytes}
    (hy : y = c.stream ++ bytesOf (w.reassemblePacket s.reassembly now packet).2)
    (hcompat : Record.encodeAll rs <+: y ∨ y <+: Record.encodeAll rs) :
    (¬ Record.encodeAll rs <+: y ∧ ∃ tok,
      (s.reassemble w now f.key packet).conns.find f.key =
        some { c with pcpp_key := tok, stream := y } ∧
      (s.reassemble w now f.key packet).decided = s.decided) ∨
    (Record.encodeAll rs <+: y ∧ (s.reassemble w now f.key packet).blockedConn f.key = true ∧
      (s.reassemble w now f.key packet).decided =
        s.decided ++ c.held.map (fun p => ⟨p, .BLOCK⟩)) := by
  have hrule := reassemble_rule w now (s := s)
    (Q := fun cbs x => (∀ tok, .finish tok ∉ cbs) ∧
      ((∃ tok stream, stream ++ bytesOf cbs = y ∧ ¬ Record.encodeAll rs <+: stream ∧
          x.conns.find f.key = some { c with pcpp_key := tok, stream := stream } ∧
          x.decided = s.decided) ∨
        (Record.encodeAll rs <+: y ∧ x.blockedConn f.key = true ∧
          x.decided = s.decided ++ c.held.map (fun p => ⟨p, .BLOCK⟩))))
    hf ?_ ?_ ⟨hend, .inl ⟨c.pcpp_key, c.stream, hy.symm, hopen, hl, rfl⟩⟩
  · rcases hrule.2 with ⟨tok, stream, hstream, hnot, hfind, hdec⟩ | hcaught
    · rw [bytesOf_nil, List.append_nil] at hstream
      subst hstream
      exact .inl ⟨hnot, tok, hfind, hdec⟩
    · exact .inr hcaught
  · intro cbs x z _ hconns hdec hx
    have hblocked : z.blockedConn f.key = x.blockedConn f.key := by
      unfold blockedConn
      rw [hconns]
    rw [hconns, hdec, hblocked]
    exact hx
  · rintro cb cbs x hin ⟨hfin, hx⟩
    refine ⟨fun tok hm => hfin tok (List.mem_cons_of_mem cb hm), ?_⟩
    rcases hx with ⟨tok, stream, hstream, hnot, hfind, hdec⟩ | ⟨hle, hb, hdec⟩
    · rw [bytesOf_cons] at hstream
      cases cb with
      | start tok' =>
        rw [deliver_start tok' hin hfind]
        exact .inl ⟨tok', stream, hstream, hnot, AList.find_insert_self _ _ _, hdec⟩
      | finish tok' => exact absurd List.mem_cons_self (hfin tok')
      | message side tok' data =>
        by_cases hside : side = kClientSide
        · subst hside
          simp only [Callback.clientBytes, if_true] at hstream
          rw [← List.append_assoc] at hstream
          have hpart : stream ++ data <+: y := ⟨_, hstream⟩
          by_cases hle : Record.encodeAll rs <+: stream ++ data
          · obtain ⟨host, hfound, hblock⟩ := hrs.found hle
            have hcaught := deliver_found (w := w) packet tok' hpolicy hin hfind hc hfound hblock
            rw [hdec] at hcaught
            exact .inr ⟨hle.trans hpart, hcaught⟩
          · obtain ⟨hmore, hlen⟩ := hrs.needMore ((compatible hpart hcompat).resolve_right hle) hle
            rw [deliver_needMore packet tok' hin hfind hc hmore hlen]
            exact .inl ⟨tok', stream ++ data, hstream, hle, AList.find_insert_self _ _ _, hdec⟩
        · simp only [Callback.clientBytes, if_neg hside, List.nil_append] at hstream
          rw [deliver_other_side tok' data hside]
          exact .inl ⟨tok, stream, hstream, hnot, hfind, hdec⟩
    · obtain ⟨c', hl', hc'⟩ := blockedConn_iff.mp hb
      have hkeep := deliver_blocked (w := w) packet hin hl' hc' cb
      exact .inr ⟨hle, hkeep.1, hkeep.2.trans hdec⟩

/-! ## A flow that gathers its hello -/

/-- A connection ends with a FIN or a RST only. -/
def EndsOnFin (w : World R P) : Prop :=
  ∀ r now packet f tok, flowOf packet = some f → f.tcp_flags &&& (kTcpFin ||| kTcpRst) = 0 →
    .finish tok ∉ (w.reassemblePacket r now packet).2

/-- The client bytes of the flow `k` that were delivered since the state `s`. -/
def since (k : UInt32) (s x : TcpTlsHostnameExtractor R P) : Bytes :=
  (delivered (keyed k) x.trace).drop (delivered (keyed k) s.trace).length

theorem since_eq {k : UInt32} {z : Bytes}
    (h : delivered (keyed k) x.trace = delivered (keyed k) s.trace ++ z) : since k s x = z := by
  unfold since
  rw [h, List.drop_left]

/-- Since the state `s` the flow `k` waits: its entry has everything that was
delivered, and nothing of its payload is decided. -/
structure Gathers (k : UInt32) (s x : TcpTlsHostnameExtractor R P) (c : Conn) : Prop where
  entry : x.conns.find k = some c
  waits : c.state = .Wait
  bytes : delivered (keyed k) x.trace = delivered (keyed k) s.trace ++ c.stream
  decisions : x.decidedOf k = s.decidedOf k

theorem Gathers.since_eq {k : UInt32} {c : Conn} (h : Gathers k s x c) : since k s x = c.stream :=
  TcpTlsHostnameExtractor.since_eq h.bytes

theorem Gathers.beside {k : UInt32} {c : Conn} {x' : TcpTlsHostnameExtractor R P}
    (h : Gathers k s x c) (hb : Beside k x x')
    (hd : delivered (keyed k) x'.trace = delivered (keyed k) x.trace) : Gathers k s x' c := by
  refine ⟨?_, h.waits, hd.trans h.bytes, hb.decisions.trans h.decisions⟩
  rcases hb.entry with he | ⟨hblocked, -, -⟩
  · exact he.trans h.entry
  · obtain ⟨c', hl, hc⟩ := blockedConn_iff.mp hblocked
    rw [h.entry] at hl
    cases hl
    rw [h.waits] at hc
    cases hc

theorem Gathers.put {k : UInt32} {c : Conn} (h : Gathers k s x c) (c' : Conn)
    (hwait : c'.state = .Wait) (hstream : c'.stream = c.stream) : Gathers k s (x.put k c') c' :=
  ⟨AList.find_insert_self _ _ _, hwait, hstream ▸ h.bytes, h.decisions⟩

/-- A packet without payload is decided without a word on the flow. -/
theorem Gathers.decide {k : UInt32} {c : Conn} {p : Packet} {v : Verdict} (h : Gathers k s x c)
    (hp : carries p.tag = none) : Gathers k s (x.decide p v) c := by
  refine ⟨h.entry, h.waits, h.bytes, Eq.trans ?_ h.decisions⟩
  simp [decidedOf, hp]

section Own

variable {c : Conn} (hpolicy : w.decide = workerPolicy b) (hrs : Frames b rs) (hw : EndsOnFin w)
  (hf : flowOf packet = some f) (hfin : f.tcp_flags &&& (kTcpFin ||| kTcpRst) = 0)

include hpolicy hrs hw hf hfin

theorem Gathers.reassemble (h : Gathers f.key s x c)
    (hopen : ¬ Record.encodeAll rs <+: c.stream) {y : Bytes}
    (hy : y = since f.key s (x.reassemble w now f.key packet))
    (hcompat : Record.encodeAll rs <+: y ∨ y <+: Record.encodeAll rs) :
    (¬ Record.encodeAll rs <+: y ∧ ∃ tok, Gathers f.key s (x.reassemble w now f.key packet)
      { c with pcpp_key := tok, stream := y }) ∨
    (Record.encodeAll rs <+: y ∧ (x.reassemble w now f.key packet).blockedConn f.key = true ∧
      (x.reassemble w now f.key packet).decided =
        x.decided ++ c.held.map (fun p => ⟨p, .BLOCK⟩)) := by
  have hbytes := reassemble_delivered w now x hf
  rw [h.bytes, List.append_assoc] at hbytes
  rw [TcpTlsHostnameExtractor.since_eq hbytes] at hy
  have hend : ∀ tok, .finish tok ∉ (w.reassemblePacket x.reassembly now packet).2 :=
    fun tok => hw x.reassembly now packet f tok hf hfin
  rcases reassemble_outcome hpolicy hrs hf h.entry h.waits hopen hend hy hcompat with
    ⟨hnot, tok, hfind, hdec⟩ | hcaught
  · refine .inl ⟨hnot, tok, hfind, h.waits, by rw [hbytes, hy], ?_⟩
    exact (congrArg _ hdec).trans h.decisions
  · exact .inr hcaught

end Own

/-- A packet with payload is held and handed to the reassembler. -/
theorem feedTracked_payload {p : Packet} {c : Conn} (hroom : c.held.length < kMaxPacketsPerConn)
    (hpay : f.payload_len > 0) :
    x.feedTracked w now p f c =
      (((x.put f.key { c with last := now }).put f.key
        { c with held := c.held ++ [p], last := now }).reassemble w now f.key
          p.bytes).releaseLast f.key := by
  unfold feedTracked
  simp only
  rw [if_neg (by omega), if_pos hpay]

theorem carries_of_flow {p : Packet} (hf : flowOf p.bytes = some f) :
    carries p.tag = if f.payload_len > 0 then some f.key else none := by
  simp [carries, Packet.tag, hf]

section OwnPacket

variable {c : Conn} {p : Packet} (hpolicy : w.decide = workerPolicy b) (hrs : Frames b rs)
  (hw : EndsOnFin w) (hf : flowOf p.bytes = some f)
  (hfin : f.tcp_flags &&& (kTcpFin ||| kTcpRst) = 0)

include hpolicy hrs hw hf hfin

/-- A packet of the flow that brings a part of the hello only is held when it
has payload, and the flow goes on waiting. -/
theorem Gathers.feedTracked (h : Gathers f.key s x c) (hopen : ¬ Record.encodeAll rs <+: c.stream)
    (hroom : c.held.length < kMaxPacketsPerConn) {y : Bytes}
    (hy : y = since f.key s (x.feedTracked w now p f c)) (hpart : y <+: Record.encodeAll rs)
    (hnot : ¬ Record.encodeAll rs <+: y) :
    ∃ c', Gathers f.key s (x.feedTracked w now p f c) c' ∧ c'.last = now ∧
      c'.held.map Packet.tag =
        c.held.map Packet.tag ++ if f.payload_len > 0 then [p.tag] else [] := by
  have htouch : Gathers f.key s (x.put f.key { c with last := now }) { c with last := now } :=
    h.put _ h.waits rfl
  by_cases hpay : f.payload_len > 0
  · rw [feedTracked_payload hroom hpay] at hy ⊢
    rw [if_pos hpay]
    have hhold := htouch.put { c with held := c.held ++ [p], last := now } h.waits rfl
    unfold since at hy
    rw [releaseLast_trace] at hy
    rcases hhold.reassemble hpolicy hrs hw hf hfin hopen hy (.inr hpart) with
      ⟨-, tok, hwait⟩ | ⟨hle, -⟩
    · rw [releaseLast_of_held hwait.entry rfl]
      exact ⟨_, hwait.put _ hwait.waits rfl, rfl, by simp⟩
    · exact absurd hle hnot
  · have hnone : carries p.tag = none := by rw [carries_of_flow hf, if_neg hpay]
    rw [if_neg hpay]
    unfold TcpTlsHostnameExtractor.feedTracked at hy ⊢
    simp only at hy ⊢
    rw [if_neg (by omega), if_neg hpay] at hy ⊢
    split at hy
    · rename_i hflags
      rw [if_pos hflags]
      exact ⟨_, htouch.decide hnone, rfl, by simp⟩
    · rename_i hflags
      rw [if_neg hflags]
      rcases htouch.reassemble hpolicy hrs hw hf hfin hopen hy (.inr hpart) with
        ⟨-, tok, hwait⟩ | ⟨hle, -⟩
      · exact ⟨_, hwait.decide hnone, rfl, by simp⟩
      · exact absurd hle hnot

/-- The packet that completes the hello blocks the flow. -/
theorem Gathers.feedTracked_caught (h : Gathers f.key s x c)
    (hopen : ¬ Record.encodeAll rs <+: c.stream) (hroom : c.held.length < kMaxPacketsPerConn)
    (hpay : f.payload_len > 0)
    (hle : Record.encodeAll rs <+: since f.key s (x.feedTracked w now p f c)) :
    (x.feedTracked w now p f c).blockedConn f.key = true ∧
    (x.feedTracked w now p f c).decided =
      x.decided ++ (c.held ++ [p]).map (fun p => ⟨p, .BLOCK⟩) := by
  have hhold : Gathers f.key s ((x.put f.key { c with last := now }).put f.key
      { c with held := c.held ++ [p], last := now }) { c with held := c.held ++ [p], last := now } :=
    (h.put { c with last := now } h.waits rfl).put _ h.waits rfl
  rw [feedTracked_payload hroom hpay] at hle ⊢
  unfold since at hle
  rw [releaseLast_trace] at hle
  rcases hhold.reassemble hpolicy hrs hw hf hfin hopen rfl (.inl hle) with
    ⟨hnot, -⟩ | ⟨-, hblocked, hdec⟩
  · exact absurd hle hnot
  · exact ⟨releaseLast_blockedConn hblocked, (releaseLast_decided _ _).trans hdec⟩

end OwnPacket

end TcpTlsHostnameExtractor

end packet_inspector
