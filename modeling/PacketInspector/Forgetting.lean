-- A blocked flow that was forgotten is tracked again when its client sends
-- the ClientHello once more. Whether it is blocked again depends on what
-- the reassembler still knows of the connection.
import PacketInspector.Flow

open wire packet_inspector.tls runs

namespace packet_inspector.TcpTlsHostnameExtractor

variable {R P : Type} {w : World R P} {b : BlockList} {s : TcpTlsHostnameExtractor R P}
  {now : Time}

/-- What the extractor relies on: a packet of a connection that the
reassembler has no record of is delivered at once, and the packets of one
that was closed are ignored until a purge removes its record. -/
structure Reassembles (w : World R P) (fresh closed : R → FlowView → Prop) : Prop where
  delivers : ∀ r now packet f, flowOf packet = some f → fresh r f → payloadOf packet f ≠ [] →
    ∃ tok rest, (w.reassemblePacket r now packet).2 =
      .start tok :: .message kClientSide tok (payloadOf packet f) :: rest
  ignores : ∀ r now packet f, flowOf packet = some f → closed r f →
    (w.reassemblePacket r now packet).2 = []
  close_fresh : ∀ r now tok f, fresh r f → fresh (w.closeConnection r now tok).1 f
  close_closed : ∀ r now tok f, closed r f → closed (w.closeConnection r now tok).1 f
  purge_fresh : ∀ r now f, fresh r f → fresh (w.purgeClosedConnections r now).1 f
  purge_closed : ∀ r now f, closed r f →
    fresh (w.purgeClosedConnections r now).1 f ∨ closed (w.purgeClosedConnections r now).1 f

/-- The reassembler has no record of the connection when it is handed a
packet at `now`: it had none, or a sweep is due and its purge removes it. -/
def Purged (w : World R P) (fresh : R → FlowView → Prop) (s : TcpTlsHostnameExtractor R P)
    (now : Time) (f : FlowView) : Prop :=
  fresh s.reassembly f ∨
    (now - s.lastSweep ≥ kSweepInterval ∧ fresh (w.purgeClosedConnections s.reassembly now).1 f)

/-! ## The reassembler across a tick -/

/-- What every close keeps, the closes that are due keep. -/
theorem drain_closes_keeps {I : R → Prop} (hfeed : s.feeding = false)
    (hclose : ∀ r tok, I r → I (w.closeConnection r now tok).1) (h : I s.reassembly) :
    I (s.drain_closes w now).reassembly := by
  have hfold := foldl_keeps (f := fun (x : TcpTlsHostnameExtractor R P) token =>
    x.settle w (w.closeConnection x.reassembly now token))
    (I := fun x => x.feeding = false ∧ I x.reassembly) (l := s.to_close) ?_ s ⟨hfeed, h⟩
  · exact hfold.2
  · rintro x tok ⟨hx, hi⟩
    rw [settle_of_not_feeding _ hx]
    exact ⟨hx, hclose _ tok hi⟩

/-- A tick at which no sweep is due changes nothing; another one purges the
reassembler and then closes some connections. -/
theorem tick_keeps {I : R → Prop} (hfeed : s.feeding = false)
    (hclose : ∀ r tok, I r → I (w.closeConnection r now tok).1)
    (hidle : now - s.lastSweep < kSweepInterval → I s.reassembly)
    (hsweep : now - s.lastSweep ≥ kSweepInterval →
      I (w.purgeClosedConnections s.reassembly now).1) : I (s.tick w now).reassembly := by
  unfold tick
  split
  · rename_i hdue
    exact hidle hdue
  · rename_i hdue
    unfold sweep
    have hexpire := (expireAll_path w now .tick
      (s := { s with lastSweep := now, blocked := blockedCount { s with lastSweep := now } })
      hfeed).2
    have hsame := (expireAll_framed w now
      { s with lastSweep := now, blocked := blockedCount { s with lastSweep := now } }).reassembly
    simp only [settle_of_not_feeding _ hexpire, publish_reassembly]
    refine drain_closes_keeps hexpire hclose ?_
    simp only [hsame]
    exact hsweep (not_lt.mp hdue)

theorem tick_fresh {fresh closed : R → FlowView → Prop} {f : FlowView}
    (hw : Reassembles w fresh closed) (hfeed : s.feeding = false)
    (h : Purged w fresh s now f) : fresh (s.tick w now).reassembly f := by
  refine tick_keeps hfeed (fun r tok hr => hw.close_fresh r now tok f hr) ?_ ?_
  · intro hidle
    rcases h with h | ⟨hdue, -⟩
    · exact h
    · exact absurd hdue (not_le.mpr hidle)
  · intro _
    rcases h with h | ⟨-, h⟩
    · exact hw.purge_fresh _ now f h
    · exact h

theorem tick_closed {fresh closed : R → FlowView → Prop} {f : FlowView}
    (hw : Reassembles w fresh closed) (hfeed : s.feeding = false) (h : closed s.reassembly f)
    (hnot : ¬ Purged w fresh s now f) : closed (s.tick w now).reassembly f := by
  refine tick_keeps hfeed (fun r tok hr => hw.close_closed r now tok f hr) (fun _ => h) ?_
  intro hdue
  rcases hw.purge_closed s.reassembly now f h with hfresh | hclosed
  · exact absurd (.inr ⟨hdue, hfresh⟩) hnot
  · exact hclosed

/-! ## Room for the flow -/

theorem remember_blocked_size_le (s : TcpTlsHostnameExtractor R P) (key : UInt32) :
    (s.remember_blocked key).conns.size ≤ s.conns.size := by
  rcases remember_blocked_cases s key with ⟨hr, -⟩ | ⟨hr, -⟩
  · rw [hr]
    exact Nat.le_refl _
  · rw [hr]
    exact AList.size_erase_le _ _

theorem resolve_size_le (s : TcpTlsHostnameExtractor R P) (key : UInt32)
    (hostname : Option Bytes) : (s.resolve w key hostname).conns.size ≤ s.conns.size := by
  rcases resolve_eq_self_or w s key hostname with ⟨h, -⟩ | ⟨c, hl, hc⟩
  · rw [h]
  · cases hv : (w.decide s.policy hostname).1 with
    | ALLOW =>
      rw [resolve_allow hl hc hv, release_conns]
      exact AList.size_erase_le _ _
    | BLOCK =>
      rw [resolve_blocked hl hc hv, release_conns, close_conns]
      refine (remember_blocked_size_le _ key).trans ?_
      rw [put_conns, ask_conns, AList.size_insert_of_some hl]

/-- Only the packets of a flow make the table grow. -/
theorem step_size_le {call : Call} {s' : TcpTlsHostnameExtractor R P} (hcall : call.key = none)
    (hs : Step w now call s s') : s'.conns.size ≤ s.conns.size := by
  cases hs with
  | books => exact Nat.le_refl _
  | heard => exact Nat.le_refl _
  | joined packet f c tok data hf hc => simp [hc, Call.key, hf] at hcall
  | marked key c tok closed hkey hl => simp [hkey] at hcall
  | touched key c hkey hl => simp [hkey] at hcall
  | opened key hkey hl hroom => simp [hkey] at hcall
  | released key c ps p hkey hl hheld => simp [hkey] at hcall
  | resolved key c hostname => exact resolve_size_le s key hostname
  | expired key c hl hc hidle => exact AList.size_erase_le _ _
  | passed hv => exact Nat.le_refl _
  | evicted h0 hv => exact AList.size_erase_le _ _
  | cleared => exact Nat.zero_le _

theorem tick_room (hfeed : s.feeding = false) (hroom : s.conns.size < s.max_flows) :
    (s.tick w now).conns.size < (s.tick w now).max_flows := by
  have hpath := (tick_path w now .tick hfeed).1
  have hsize : (s.tick w now).conns.size ≤ s.conns.size :=
    path_keeps (I := fun x => x.conns.size ≤ s.conns.size)
      (fun _ _ hs hx => (step_size_le rfl hs).trans hx) hpath (Nat.le_refl _)
  have hcap : (s.tick w now).max_flows = s.max_flows := congrArg Prod.fst (path_caps hpath)
  omega

theorem makeRoom_of_room (hroom : s.conns.size < s.max_flows) : s.makeRoom w now = s := by
  unfold makeRoom
  rw [if_neg (by omega)]

/-! ## The hello -/

theorem payload_pos {data : Bytes} {f : FlowView} (h : payloadOf data f ≠ []) :
    f.payload_len > 0 := by
  by_contra hn
  have h0 : f.payload_len = 0 := by omega
  exact h (by simp [payloadOf, h0])

/-- The entry of a flow whose first packet is held. -/
def firstHeld (now : Time) (pkt : Packet) : Conn := { held := [pkt], last := now }

/-- A hello of an untracked flow, with room in the table, is held and handed
to the reassembler. -/
theorem feed_hello {pkt : Arrival} {f : FlowView} {h : Bytes}
    (hf : flowOf pkt.val.bytes = some f) (hn : (s.tick w now).conns.find f.key = none)
    (hroom : (s.tick w now).conns.size < (s.tick w now).max_flows)
    (hhello : extractHostname (payloadOf pkt.val.bytes f) = .Found h) :
    s.feed w now pkt.val =
      ((((((s.tick w now).log (.tracked f.key)).put f.key { last := now }).put f.key
        (firstHeld now pkt.val)).reassemble w now f.key
          pkt.val.bytes).releaseLast f.key).publish := by
  obtain ⟨hlen, h0, h1⟩ := opens_of_found hhello
  have hopen : opensTracking pkt.val.bytes f = true := by
    simp [opensTracking, opensTlsHandshake, hlen, h0, h1]
  have hpay : f.payload_len > 0 := by
    apply payload_pos
    intro hnil
    rw [hnil] at hlen
    simp at hlen
  rw [feed_of_flow hf]
  unfold feedFlow feedUntracked
  simp only [hn, makeRoom_of_room hroom]
  rw [if_neg (by simp [hopen]), if_neg (by omega)]
  unfold feedTracked
  simp only
  rw [if_neg (by simp [kMaxPacketsPerConn]), if_pos hpay]
  rfl

/-- The hello of a connection that the reassembler does not know is delivered
at once, and the flow is blocked on it. -/
theorem reassemble_fresh {fresh closed : R → FlowView → Prop} {packet : Bytes} {f : FlowView}
    {h : Bytes} {c : Conn} (hpolicy : w.decide = workerPolicy b) (hw : Reassembles w fresh closed)
    (hf : flowOf packet = some f) (hhello : extractHostname (payloadOf packet f) = .Found h)
    (hblock : b.isHostnameBlocked h = true) (hfresh : fresh s.reassembly f)
    (hl : s.conns.find f.key = some c) (hc : c.state = .Wait) (hstream : c.stream = []) :
    (s.reassemble w now f.key packet).blockedConn f.key = true ∧
    (s.reassemble w now f.key packet).decided =
      s.decided ++ c.held.map (fun p => ⟨p, .BLOCK⟩) := by
  have hne : payloadOf packet f ≠ [] := by
    intro hnil
    have hlen := (opens_of_found hhello).1
    rw [hnil] at hlen
    simp at hlen
  obtain ⟨tok, rest, hcbs⟩ := hw.delivers s.reassembly now packet f hf hfresh hne
  -- before the start, between the start and the message, and after it
  have hend := reassemble_rule w now (s := s)
    (Q := fun cbs x =>
      (∃ c', x.conns.find f.key = some c' ∧ c'.state = .Wait ∧ c'.stream = [] ∧
        c'.held = c.held ∧ x.decided = s.decided ∧
        (cbs = .start tok :: .message kClientSide tok (payloadOf packet f) :: rest ∨
          cbs = .message kClientSide tok (payloadOf packet f) :: rest)) ∨
      (x.blockedConn f.key = true ∧ x.decided = s.decided ++ c.held.map (fun p => ⟨p, .BLOCK⟩)))
    hf ?_ ?_ (.inl ⟨c, hl, hc, hstream, rfl, rfl, .inl hcbs⟩)
  · rcases hend with ⟨c', -, -, -, -, -, hcbs | hcbs⟩ | hend
    · cases hcbs
    · cases hcbs
    · exact hend
  · intro cbs x y ht hconns hdec hx
    have hblocked : y.blockedConn f.key = x.blockedConn f.key := by
      unfold blockedConn
      rw [hconns]
    rw [hconns, hdec, hblocked]
    exact hx
  · intro cb cbs x hin hx
    rcases hx with ⟨c', hl', hc', hstream', hheld', hdec, hcbs | hcbs⟩ | ⟨hb, hdec⟩
    · obtain ⟨rfl, rfl⟩ := List.cons.inj hcbs
      rw [deliver_start tok hin hl']
      exact .inl ⟨_, AList.find_insert_self _ _ _, hc', hstream', hheld', hdec, .inr rfl⟩
    · obtain ⟨rfl, rfl⟩ := List.cons.inj hcbs
      refine .inr ?_
      have hfound : extractHostname (c'.stream ++ payloadOf packet f) = .Found h := by
        rw [hstream', List.nil_append]
        exact hhello
      have hcaught := deliver_found (w := w) packet tok hpolicy hin hl' hc' hfound hblock
      rw [hheld', hdec] at hcaught
      exact hcaught
    · obtain ⟨c', hl', hc'⟩ := blockedConn_iff.mp hb
      have hkeep := deliver_blocked (w := w) packet hin hl' hc' cb
      exact .inr ⟨hkeep.1, hkeep.2.trans hdec⟩

/-- The hello of a closed connection reaches no one. -/
theorem reassemble_closed {fresh closed : R → FlowView → Prop} {packet : Bytes} {f : FlowView}
    (hw : Reassembles w fresh closed) (hf : flowOf packet = some f)
    (hclosed : closed s.reassembly f) :
    (s.reassemble w now f.key packet).conns = s.conns ∧
    (s.reassemble w now f.key packet).decided = s.decided := by
  have hend := reassemble_rule w now (s := s)
    (Q := fun cbs x => cbs = [] ∧ x.conns = s.conns ∧ x.decided = s.decided) hf ?_ ?_
    ⟨hw.ignores s.reassembly now packet f hf hclosed, rfl, rfl⟩
  · exact hend.2
  · rintro cbs x y - hconns hdec ⟨hcbs, hx, hd⟩
    exact ⟨hcbs, hconns.trans hx, hdec.trans hd⟩
  · rintro cb cbs x - ⟨hcbs, -⟩
    cases hcbs

theorem resolve_decided_grows (s : TcpTlsHostnameExtractor R P) (key : UInt32)
    (hostname : Option Bytes) : s.decided <+: (s.resolve w key hostname).decided := by
  rcases resolve_eq_self_or w s key hostname with ⟨hr, -⟩ | ⟨c, hl, hc⟩
  · rw [hr]
  · rw [resolve_decided hl hc]
    exact List.prefix_append _ _

/-- With no hostname to go by, a flow is allowed; the others are left alone. -/
theorem resolve_none_allows {k : UInt32} {c : Conn} {p : Packet} (hpolicy : w.decide = workerPolicy b)
    (hl : s.conns.find k = some c) (hc : c.state = .Wait) (hp : p ∈ c.held) (key : UInt32) :
    (k ≠ key ∧ (s.resolve w key none).conns.find k = some c) ∨
    ⟨p, .ALLOW⟩ ∈ (s.resolve w key none).decided := by
  have hv : (w.decide s.policy none).1 = .ALLOW := by
    rw [hpolicy]
    rfl
  by_cases hk : k = key
  · subst hk
    refine .inr ?_
    rw [resolve_decided hl hc, hv]
    exact List.mem_append_right _ (List.mem_map.mpr ⟨p, hp, rfl⟩)
  · refine .inl ⟨hk, ?_⟩
    rcases resolve_eq_self_or w s key none with ⟨hr, -⟩ | ⟨c', hl', hc'⟩
    · rw [hr]
      exact hl
    · rw [resolve_allow hl' hc' hv, release_conns]
      exact (AList.find_erase_of_ne _ hk).trans hl

/-- A flush lets go of what a flow holds. -/
theorem flush_allows {k : UInt32} {c : Conn} {p : Packet} (hpolicy : w.decide = workerPolicy b)
    (hfeed : s.feeding = false) (hl : s.conns.find k = some c) (hc : c.state = .Wait)
    (hp : p ∈ c.held) (now : Time) : ⟨p, .ALLOW⟩ ∈ (s.flush w now).decided := by
  have hfold : ∀ (keys : List UInt32) (x : TcpTlsHostnameExtractor R P),
      (k ∈ keys ∧ x.conns.find k = some c) ∨ ⟨p, .ALLOW⟩ ∈ x.decided →
      ⟨p, .ALLOW⟩ ∈ (keys.foldl (fun s key => s.resolve w key none) x).decided := by
    intro keys
    induction keys with
    | nil =>
      rintro x (⟨hm, -⟩ | hd)
      · cases hm
      · exact hd
    | cons key keys ih =>
      intro x hx
      apply ih
      rcases hx with ⟨hm, hfind⟩ | hd
      · rcases resolve_none_allows hpolicy hfind hc hp key with ⟨hk, hfind'⟩ | hd
        · exact .inl ⟨(List.mem_cons.mp hm).resolve_left hk, hfind'⟩
        · exact .inr hd
      · exact .inr ((resolve_decided_grows x key none).subset hd)
  obtain ⟨-, hfeed', -⟩ := resolveAll_path w now hfeed
  obtain ⟨r, hr⟩ := drain_closes_of_not_feeding (w := w) (s := (s.resolveAll w).clear) now hfeed'
  unfold flush
  rw [hr]
  exact hfold _ s (.inl ⟨mem_collect.mpr ⟨c, hl, by simpa using hc⟩, hl⟩)

/-! ## The law -/

/-- A flow that was forgotten is blocked again on its ClientHello when the
reassembler has no record of its connection any more: the hello is decided
BLOCK in the call that feeds it, and never again. As long as the connection
is closed and not purged, the hello is held, and a flush allows it. -/
theorem a_forgotten_flow_is_blocked_again {w : World R P} {b : BlockList}
    (hpolicy : w.decide = workerPolicy b) {fresh closed : R → FlowView → Prop}
    (hw : Reassembles w fresh closed) (r : R) (p : P) (max_flows max_blocked : Nat)
    (ops : List Op) (now : Time) (pkt : Arrival) (f : FlowView) (h : Bytes)
    (hf : flowOf pkt.val.bytes = some f)
    (hhello : extractHostname (payloadOf pkt.val.bytes f) = .Found h)
    (hblock : b.isHostnameBlocked h = true) :
    let s := ops.foldl (Op.apply w) (init r p max_flows max_blocked)
    let t := s.feed w now pkt.val
    s.conns.find f.key = none → s.conns.size < s.max_flows →
    (Purged w fresh s now f →
      t.decided = (s.tick w now).decided ++ [⟨pkt.val, .BLOCK⟩] ∧
      ∀ later, ∃ ds, (later.foldl (Op.apply w) t).decided = t.decided ++ ds ∧
        (ds.map (·.pkt.tag)).filter (fun x => carries x = some f.key) <+: carried f.key later) ∧
    (closed s.reassembly f → ¬ Purged w fresh s now f →
      t.decided = (s.tick w now).decided ∧
      ∀ now', ⟨pkt.val.release_bytes, .ALLOW⟩ ∈ (t.flush w now').decided) := by
  intro s t hn hroom
  obtain ⟨ha, hfeed⟩ := accounted_run w r p max_flows max_blocked ops
  have htick := (tick_path w now .tick hfeed).1
  have hn' : (s.tick w now).conns.find f.key = none :=
    tick_find_none w now hfeed hn
  have ht : t = _ := feed_hello hf hn' (tick_room hfeed hroom) hhello
  have htfeed : t.feeding = false := (feed_feeds w now pkt hfeed).2
  have hheld : ((((s.tick w now).log (.tracked f.key)).put f.key { last := now }).put f.key
      (firstHeld now pkt.val)).conns.find f.key = some (firstHeld now pkt.val) := by
    simp
  refine ⟨?_, ?_⟩
  · intro hpurged
    obtain ⟨hb, hdec⟩ := reassemble_fresh
      (s := (((s.tick w now).log (.tracked f.key)).put f.key { last := now }).put f.key
        (firstHeld now pkt.val))
      hpolicy hw hf hhello hblock (tick_fresh hw hfeed hpurged) hheld rfl rfl
    have hdecided : t.decided = (s.tick w now).decided ++ [⟨pkt.val, .BLOCK⟩] := by
      rw [ht, publish_decided, releaseLast_decided]
      exact hdec
    have hta := accounted_later (w := w) ha hfeed [.feed now pkt]
    have hbt : t.blockedConn f.key = true := by
      rw [ht]
      exact releaseLast_blockedConn hb
    exact ⟨hdecided, blocked_decides_once hta htfeed hbt⟩
  · intro hclosed hnot
    obtain ⟨hconns, hdec⟩ := reassemble_closed
      (s := (((s.tick w now).log (.tracked f.key)).put f.key { last := now }).put f.key
        (firstHeld now pkt.val))
      hw hf (tick_closed hw hfeed hclosed hnot)
    refine ⟨?_, ?_⟩
    · rw [ht, publish_decided, releaseLast_decided]
      exact hdec
    · intro now'
      have hfind : t.conns.find f.key = some { firstHeld now pkt.val with
          held := [pkt.val.release_bytes] } := by
        rw [ht, publish_conns]
        unfold releaseLast
        rw [hconns, hheld]
        exact AList.find_insert_self _ _ _
      exact flush_allows hpolicy htfeed hfind rfl (by simp) now'

section Traffic

open traffic

/-- The records that the reassembler has of a flow's connection. -/
def recordsOf (links : List Link) (f : FlowView) : List Link :=
  links.filter (fun l => (l.side f).isSome)

/-- The reassembler has one record of the connection, and it is closed. -/
def closedRecord (links : List Link) (f : FlowView) : Prop :=
  ∃ l t, recordsOf links f = [l] ∧ l.closedAt = some t

theorem recordOf_eq_head (links : List Link) (f : FlowView) :
    recordOf links f = (recordsOf links f).head? := by
  unfold recordOf recordsOf
  rw [List.head?_filter]

/-- A close changes no side of a record. -/
theorem recordsOf_closeLink (now : Time) (tok : UInt32) (links : List Link) (f : FlowView) :
    recordsOf (closeLink now tok links) f = closeLink now tok (recordsOf links f) := by
  unfold recordsOf closeLink
  rw [List.filter_map]
  congr 1
  refine List.filter_congr ?_
  intro l _
  simp only [Function.comp_apply]
  split
  · rfl
  · rfl

theorem world_reassembles (b : BlockList) :
    Reassembles (world b) (fun links f => recordsOf links f = []) closedRecord where
  delivers := by
    intro links now packet f hf hfresh hne
    have hnone : recordOf links f = none := by rw [recordOf_eq_head, hfresh]; rfl
    obtain ⟨rest, hrest⟩ := @Link.told_of_first now packet f hne (f.key + 1)
    obtain ⟨-, htoken⟩ := Link.take_same { first := f, token := f.key + 1 } now packet f
    refine ⟨f.key + 1, rest, ?_⟩
    simp only [world, reassemblePacket, hf, hnone, hrest, htoken]
    rfl
  ignores := by
    rintro links now packet f hf ⟨l, t, hl, ht⟩
    have hsome : recordOf links f = some l := by rw [recordOf_eq_head, hl]; rfl
    simp only [world, reassemblePacket, hf, hsome]
    rw [Link.take_of_closed (by simp [ht])]
  close_fresh := by
    intro links now tok f hfresh
    change recordsOf (closeLink now tok links) f = []
    rw [recordsOf_closeLink, hfresh]
    rfl
  close_closed := by
    rintro links now tok f ⟨l, t, hl, ht⟩
    refine ⟨l, t, ?_, ht⟩
    change recordsOf (closeLink now tok links) f = [l]
    rw [recordsOf_closeLink, hl]
    simp [closeLink, ht]
  purge_fresh := by
    intro links now f hfresh
    change recordsOf (links.filter _) f = []
    unfold recordsOf at hfresh ⊢
    rw [List.filter_comm, hfresh]
    rfl
  purge_closed := by
    rintro links now f ⟨l, t, hl, ht⟩
    change recordsOf (links.filter _) f = [] ∨ closedRecord (links.filter _) f
    unfold closedRecord recordsOf at *
    rw [List.filter_comm, hl]
    by_cases hdue : l.closedAt.all (fun t => now - t < seconds 1) = true
    · exact .inr ⟨l, t, by simp only [List.filter_cons, hdue]; rfl, ht⟩
    · exact .inl (by simp only [List.filter_cons, hdue]; rfl)

/-- Two seconds after its close the connection is purged, so that the hello
that comes again is blocked again. -/
theorem a_hello_is_blocked_again_after_a_purge :
    let w := world { exact := [host] }
    let s := after 2 1 [.feed 0 (hello (client 2) 1), .feed 0 (hello (client 3) 2)]
    let again := hello (client 2) 3
    .evicted 3561989440 ∈ s.trace ∧
    (s.feed w (seconds 2) again.val).decided =
      (s.tick w (seconds 2)).decided ++ [⟨again.val, .BLOCK⟩] := by
  intro w s again
  refine ⟨by decide +kernel, ?_⟩
  have hf : ∃ f, flowOf again.val.bytes = some f ∧ f.key = 3561989440 ∧
      extractHostname (payloadOf again.val.bytes f) = .Found host ∧
      recordsOf (w.purgeClosedConnections s.reassembly (seconds 2)).1 f = [] := by
    decide +kernel
  obtain ⟨f, hf, hkey, hhello, hpurge⟩ := hf
  have hroom : s.conns.find 3561989440 = none ∧ s.conns.size < s.max_flows ∧
      seconds 2 - s.lastSweep ≥ kSweepInterval := by
    decide +kernel
  have hlaw := a_forgotten_flow_is_blocked_again rfl (world_reassembles { exact := [host] }) [] ()
    2 1 [.feed 0 (hello (client 2) 1), .feed 0 (hello (client 3) 2)] (seconds 2) again f host
    hf hhello (by decide) (hkey ▸ hroom.1) hroom.2.1
  exact (hlaw.1 (.inr ⟨hroom.2.2, hpurge⟩)).1

/-- Half a second after the close it is not, and the hello is allowed in the
end: the flow of the first client is evicted by that of the second, its hello
comes again, and the flow idles out. -/
theorem a_hello_that_comes_again_too_soon_is_allowed :
    let s := after 2 1 [.feed 0 (hello (client 2) 1), .feed 0 (hello (client 3) 2)]
    let again := hello (client 2) 3
    let ops : List Op := [.feed 500000000 again, .tick (seconds 11)]
    let t := ops.foldl (Op.apply (world { exact := [host] })) s
    keyOf again.val = some 3561989440 ∧ .evicted 3561989440 ∈ s.trace ∧
    s.conns.find 3561989440 = none ∧ s.conns.size < s.max_flows ∧
    (∃ f ∈ flowOf again.val.bytes,
      extractHostname (payloadOf again.val.bytes f) = .Found host) ∧
    s.decided.map (fun d => (d.pkt.id, d.verdict)) = [(1, .BLOCK), (2, .BLOCK)] ∧
    t.decided.map (fun d => (d.pkt.id, d.verdict)) = [(1, .BLOCK), (2, .BLOCK), (3, .ALLOW)] := by
  decide +kernel

end Traffic

end packet_inspector.TcpTlsHostnameExtractor
