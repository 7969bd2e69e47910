-- Every packet is decided exactly once. The extractor keeps a ledger: what
-- it decided and what its waiting flows hold is what it was fed, and each
-- flow's payload leaves in the order in which it came.
import PacketInspector.Ledger
import PacketInspector.Steps
import PacketInspector.Traffic

open wire packet_inspector.tls runs ledger

namespace packet_inspector

/-- The flow that a packet with this tag carries payload of. -/
def carries (t : UInt32 × Bytes) : Option UInt32 :=
  match flowOf t.2 with
  | some f => if f.payload_len > 0 then some f.key else none
  | none => none

theorem carries_eq_some_iff {p : Packet} {k : UInt32} :
    carries p.tag = some k ↔ ∃ f, flowOf p.bytes = some f ∧ f.payload_len > 0 ∧ f.key = k := by
  unfold carries Packet.tag
  cases h : flowOf p.bytes with
  | none => simp
  | some f => simp

namespace TcpTlsHostnameExtractor

variable {R P : Type} {w : World R P} {s s' : TcpTlsHostnameExtractor R P}

/-! ## The extractor as a ledger -/

/-- The tags of the packets held under `k`. -/
def heldTags (s : TcpTlsHostnameExtractor R P) (k : UInt32) : List (UInt32 × Bytes) :=
  match s.conns.find k with
  | some c => c.held.map Packet.tag
  | none => []

def ledgerOf (s : TcpTlsHostnameExtractor R P) : Ledger UInt32 (UInt32 × Bytes) :=
  ⟨s.decided.map (·.pkt.tag), s.heldTags⟩

/-- The packets held under `k`. -/
def heldPackets (s : TcpTlsHostnameExtractor R P) (k : UInt32) : List Packet :=
  match s.conns.find k with
  | some c => c.held
  | none => []

/-- The same ledger with the packets themselves, as far as they have bytes. -/
def packetsOf (s : TcpTlsHostnameExtractor R P) : Ledger UInt32 Packet :=
  ⟨s.decided.map (·.pkt), s.heldPackets⟩

/-- A blocked flow holds nothing. -/
def Quiet (s : TcpTlsHostnameExtractor R P) : Prop :=
  ∀ k c, s.conns.find k = some c → c.state = .Block → c.held = []

theorem heldPackets_of_some {k : UInt32} {c : Conn} (h : s.conns.find k = some c) :
    s.heldPackets k = c.held := by
  unfold heldPackets
  rw [h]

theorem heldPackets_of_none {k : UInt32} (h : s.conns.find k = none) : s.heldPackets k = [] := by
  unfold heldPackets
  rw [h]

theorem heldTags_eq (s : TcpTlsHostnameExtractor R P) (k : UInt32) :
    s.heldTags k = (s.heldPackets k).map Packet.tag := by
  unfold heldTags heldPackets
  split
  · rfl
  · rfl

theorem ledgerOf_eq_map (s : TcpTlsHostnameExtractor R P) :
    s.ledgerOf = s.packetsOf.map Packet.tag := by
  unfold ledgerOf packetsOf Ledger.map
  rw [List.map_map]
  congr 1
  funext k
  exact heldTags_eq s k

theorem heldTags_of_some {k : UInt32} {c : Conn} (h : s.conns.find k = some c) :
    s.heldTags k = c.held.map Packet.tag := by
  rw [heldTags_eq, heldPackets_of_some h]

theorem heldTags_of_none {k : UInt32} (h : s.conns.find k = none) : s.heldTags k = [] := by
  rw [heldTags_eq, heldPackets_of_none h, List.map_nil]

theorem heldTags_congr (hc : s'.conns = s.conns) : s'.heldTags = s.heldTags := by
  unfold heldTags
  rw [hc]

theorem packetsOf_eq (hd : s'.decided = s.decided) (hc : s'.conns = s.conns) :
    s'.packetsOf = s.packetsOf := by
  unfold packetsOf heldPackets
  rw [hd, hc]

theorem heldPackets_put (key : UInt32) (c : Conn) :
    (s.put key c).heldPackets = Function.update s.heldPackets key c.held := by
  funext k
  by_cases hk : k = key
  · subst hk
    rw [Function.update_self, heldPackets_of_some (c := c) (by simp)]
  · rw [Function.update_of_ne hk]
    unfold heldPackets
    rw [put_conns, AList.find_insert_of_ne _ _ hk]

theorem heldPackets_forget (key : UInt32) :
    (s.forget key).heldPackets = Function.update s.heldPackets key [] := by
  funext k
  by_cases hk : k = key
  · subst hk
    rw [Function.update_self, heldPackets_of_none (by simp)]
  · rw [Function.update_of_ne hk]
    unfold heldPackets
    rw [forget_conns, AList.find_erase_of_ne _ hk]

/-- An entry is written anew, with other packets or the same. -/
theorem packetsOf_put (key : UInt32) (c : Conn) :
    (s.put key c).packetsOf =
      { s.packetsOf with held := Function.update s.packetsOf.held key c.held } :=
  congrArg (Ledger.mk _) (heldPackets_put key c)

theorem packetsOf_put_same {key : UInt32} {c : Conn} (h : c.held = s.heldPackets key) :
    (s.put key c).packetsOf = s.packetsOf := by
  rw [packetsOf_put, h]
  exact congrArg (Ledger.mk _) (Function.update_eq_self key s.heldPackets)

/-- A table without an entry that holds nothing is the same to the ledger. -/
theorem packetsOf_forget {key : UInt32} (h : s.heldPackets key = []) :
    (s.forget key).packetsOf = s.packetsOf := by
  unfold packetsOf
  rw [heldPackets_forget, ← h, Function.update_eq_self]
  rfl

theorem Quiet.heldPackets (h : Quiet s) {k : UInt32} (hb : s.blockedConn k = true) :
    s.heldPackets k = [] := by
  obtain ⟨c, hf, hc⟩ := blockedConn_iff.mp hb
  rw [heldPackets_of_some hf, h k c hf hc]

theorem Quiet.heldTags (h : Quiet s) {k : UInt32} (hb : s.blockedConn k = true) :
    s.heldTags k = [] := by
  rw [heldTags_eq, h.heldPackets hb, List.map_nil]

theorem packetsOf_log (e : Event) : (s.log e).packetsOf = s.packetsOf := packetsOf_eq rfl rfl

theorem packetsOf_decide (p : Packet) (v : Verdict) :
    (s.decide p v).packetsOf = { s.packetsOf with gone := s.packetsOf.gone ++ [p] } :=
  congrArg (fun gone => (⟨gone, s.heldPackets⟩ : Ledger UInt32 Packet)) List.map_append

theorem packetsOf_turn (key : UInt32) : (s.turn key).packetsOf = s.packetsOf :=
  packetsOf_eq rfl rfl

theorem packetsOf_evict {victim : UInt32} (h : s.heldPackets victim = []) :
    (s.evict victim).packetsOf = s.packetsOf :=
  (packetsOf_eq rfl rfl).trans (packetsOf_forget h)

theorem packetsOf_remember_blocked (h : Quiet s) (key : UInt32) :
    (s.remember_blocked key).packetsOf = s.packetsOf := by
  rcases remember_blocked_cases s key with ⟨hr, -⟩ | ⟨hr, -, -, hb⟩
  · rw [hr, packetsOf_turn]
  · rw [hr, packetsOf_turn, packetsOf_evict (h.heldPackets hb)]

/-! ## Blocked flows hold nothing -/

theorem Quiet.put {key : UInt32} {c : Conn} (h : Quiet s)
    (hc : c.state = .Block → c.held = []) : Quiet (s.put key c) := by
  intro k c' hf hb
  simp only [put_conns, AList.find_insert] at hf
  split at hf
  · cases hf
    exact hc hb
  · exact h k c' hf hb

theorem Quiet.of_find (h : Quiet s)
    (hsub : ∀ k c, s'.conns.find k = some c → s.conns.find k = some c) : Quiet s' :=
  fun k c hf => h k c (hsub k c hf)

theorem Quiet.forget (h : Quiet s) (key : UInt32) : Quiet (s.forget key) := by
  refine h.of_find ?_
  intro k c hf
  simp only [forget_conns, AList.find_erase] at hf
  split at hf
  · cases hf
  · exact hf

theorem quiet_step {now : Time} {call : Call} (hs : Step w now call s s') (h : Quiet s) :
    Quiet s' := by
  cases hs with
  | books => exact h
  | heard => exact h
  | joined packet f c tok data hf hcall hl hc =>
    refine Quiet.put h ?_
    intro hb
    rw [hc] at hb
    cases hb
  | marked key c tok closed hcall hl => exact Quiet.put h (h key c hl)
  | touched key c hcall hl => exact Quiet.put h (h key c hl)
  | opened key hcall hl hroom => exact Quiet.put h (fun _ => rfl)
  | released key c ps p hcall hl hheld =>
    refine Quiet.put h ?_
    intro hb
    have hempty := h key c hl hb
    rw [hheld] at hempty
    simp at hempty
  | resolved key c hostname hl hc hcall hreason =>
    intro k c' hf hb
    by_cases hk : k = key
    · subst hk
      rw [resolve_find_self hl hc hf]
      rfl
    · exact h k c' (resolve_find_of_ne hk hf) hb
  | expired key c hl hc hidle => exact Quiet.of_find (h.forget key) (fun _ _ hf => hf)
  | passed hv => exact h
  | evicted h0 hv => exact Quiet.of_find (h.forget s.oldest) (fun _ _ hf => hf)
  | cleared hcall hb =>
    intro k c hf
    simp at hf

/-! ## Every step is one of the ledger -/

theorem resolve_packets {key : UInt32} {c : Conn} {hostname : Option Bytes} (h : Quiet s)
    (hl : s.conns.find key = some c) (hc : c.state = .Wait) :
    (s.resolve w key hostname).packetsOf =
      ⟨s.packetsOf.gone ++ s.packetsOf.held key, Function.update s.packetsOf.held key []⟩ := by
  have hheld : s.packetsOf.held key = c.held := heldPackets_of_some hl
  have hpackets : ∀ v, (c.held.map (fun p => (⟨p, v⟩ : Decided))).map (·.pkt) = c.held := by
    intro v
    rw [List.map_map]
    exact List.map_id _
  rw [hheld]
  cases hv : (w.decide s.policy hostname).1 with
  | ALLOW =>
    rw [resolve_allow hl hc hv, release_eq]
    unfold packetsOf
    simp only [close_decided, forget_decided, ask_decided, List.map_append, hpackets]
    congr 1
    exact heldPackets_forget key
  | BLOCK =>
    have hquiet : Quiet ((s.ask w key hostname).put key (blockConn c)) :=
      Quiet.put h (fun _ => rfl)
    have hkeep := packetsOf_remember_blocked hquiet key
    rw [resolve_blocked hl hc hv, release_eq]
    unfold packetsOf at hkeep ⊢
    rw [Ledger.mk.injEq] at hkeep
    simp only [close_decided, List.map_append, hpackets]
    rw [hkeep.1]
    congr 1
    exact hkeep.2.trans (heldPackets_put key (blockConn c))

/-- A step of the extractor changes nothing that the ledger knows, lets go of
one flow's packets, or gives back the bytes of the packet held last. -/
theorem step_packets {now : Time} {call : Call} (hs : Step w now call s s') (h : Quiet s) :
    s'.packetsOf = s.packetsOf ∨
    (∃ k, s'.packetsOf =
      ⟨s.packetsOf.gone ++ s.packetsOf.held k, Function.update s.packetsOf.held k []⟩) ∨
    ∃ k ps p, call.key = some k ∧ s.packetsOf.held k = ps ++ [p] ∧ s'.packetsOf =
      { s.packetsOf with held := Function.update s.packetsOf.held k (ps ++ [p.release_bytes]) } := by
  cases hs with
  | books => exact .inl (packetsOf_eq rfl rfl)
  | heard => exact .inl (packetsOf_eq rfl rfl)
  | joined packet f c tok data hf hcall hl hc =>
    have hput := packetsOf_put_same (s := s.log (.callback packet (.message kClientSide tok data)))
      (c := { c with pcpp_key := tok, stream := c.stream ++ data }) (heldPackets_of_some hl).symm
    exact .inl (hput.trans (packetsOf_log _))
  | marked key c tok closed hcall hl => exact .inl (packetsOf_put_same (heldPackets_of_some hl).symm)
  | touched key c hcall hl => exact .inl (packetsOf_put_same (heldPackets_of_some hl).symm)
  | opened key hcall hl hroom => exact .inl (packetsOf_put_same (heldPackets_of_none hl).symm)
  | released key c ps p hcall hl hheld =>
    exact .inr (.inr ⟨key, ps, p, hcall, (heldPackets_of_some hl).trans hheld, packetsOf_put _ _⟩)
  | resolved key c hostname hl hc hcall hreason => exact .inr (.inl ⟨key, resolve_packets h hl hc⟩)
  | expired key c hl hc hidle =>
    have hempty := h.heldPackets (blockedConn_iff.mpr ⟨c, hl, hc⟩)
    exact .inl ((packetsOf_log _).trans (packetsOf_forget hempty))
  | passed hv => exact .inl (packetsOf_turn 0)
  | evicted h0 hv => exact .inl (packetsOf_evict (h.heldPackets hv))
  | cleared hcall hb =>
    refine .inl ?_
    have hempty : ∀ k, s.heldPackets k = [] := by
      intro k
      cases hf : s.conns.find k with
      | none => exact heldPackets_of_none hf
      | some c => exact h.heldPackets (blockedConn_iff.mpr ⟨c, hf, hb k c hf⟩)
    unfold packetsOf
    congr 1
    funext k
    rw [hempty k]
    rfl

/-- A step of the extractor lets go of one flow's packets, or changes
nothing that the ledger knows of their tags. -/
theorem step_ledger {now : Time} {call : Call} (hs : Step w now call s s') (h : Quiet s) :
    s'.ledgerOf = s.ledgerOf ∨ ledger.Step carries s.ledgerOf none s'.ledgerOf := by
  rw [ledgerOf_eq_map, ledgerOf_eq_map]
  rcases step_packets hs h with he | ⟨k, he⟩ | ⟨k, ps, p, -, hheld, he⟩
  · rw [he]
    exact .inl rfl
  · rw [he]
    exact .inr (ledger.Step.map (.release _ k))
  · refine .inl ?_
    rw [he]
    unfold Ledger.map
    congr 1
    funext k'
    show (Function.update s.packetsOf.held k (ps ++ [p.release_bytes]) k').map Packet.tag = _
    by_cases hk : k' = k
    · subst hk
      rw [Function.update_self, hheld]
      simp
    · rw [Function.update_of_ne hk]

/-- The turn of a fed packet decides it, when no other of its flow is held, or
holds it. -/
theorem take_packets {p : Packet} (ht : Take w p s s') (h : Quiet s) :
    ((∀ k, carries p.tag = some k → s.packetsOf.held k = []) ∧
      s'.packetsOf = { s.packetsOf with gone := s.packetsOf.gone ++ [p] }) ∨
    ∃ k, carries p.tag = some k ∧ s'.packetsOf =
      { s.packetsOf with held := Function.update s.packetsOf.held k (s.packetsOf.held k ++ [p]) } := by
  cases ht with
  | decided v hempty hblock =>
    refine .inl ⟨?_, packetsOf_decide p v⟩
    intro k hk
    obtain ⟨f, hf, hpay, rfl⟩ := carries_eq_some_iff.mp hk
    cases hl : s.conns.find f.key with
    | none => exact heldPackets_of_none hl
    | some c =>
      cases hc : c.state with
      | Wait => exact (heldPackets_of_some hl).trans (hempty f c hf hpay hl hc)
      | Block => exact h.heldPackets (blockedConn_iff.mpr ⟨c, hl, hc⟩)
  | refused f hf hl hfull =>
    have hsame : s.refuse.packetsOf = s.packetsOf := packetsOf_eq rfl rfl
    rw [packetsOf_decide, hsame]
    refine .inl ⟨?_, rfl⟩
    intro k hk
    obtain ⟨f', hf', -, rfl⟩ := carries_eq_some_iff.mp hk
    rw [hf] at hf'
    cases hf'
    exact heldPackets_of_none hl
  | held f c hf hpay hl hc hroom =>
    refine .inr ⟨f.key, carries_eq_some_iff.mpr ⟨f, hf, hpay, rfl⟩, ?_⟩
    have hheld : s.packetsOf.held f.key = c.held := heldPackets_of_some hl
    rw [packetsOf_put, hheld]

/-- So it is a step of the ledger that takes the packet in. -/
theorem take_ledger {p : Packet} (ht : Take w p s s') (h : Quiet s) :
    ledger.Step carries s.ledgerOf (some p.tag) s'.ledgerOf := by
  rw [ledgerOf_eq_map, ledgerOf_eq_map]
  rcases take_packets ht h with ⟨hempty, he⟩ | ⟨k, hk, he⟩
  · rw [he]
    exact ledger.Step.map (f := Packet.tag) (t := some p) (.pass _ p hempty)
  · rw [he]
    exact ledger.Step.map (f := Packet.tag) (t := some p) (.hold _ p k hk)

/-! ## The law -/

/-- What a run owes to the packets that it fed. -/
def Accounted (fed : List Packet) (s : TcpTlsHostnameExtractor R P) : Prop :=
  Quiet s ∧ Kept carries (fed.map Packet.tag) s.ledgerOf

theorem accounted_step {now : Time} {call : Call} {fed : List Packet} (hs : Step w now call s s')
    (h : Accounted fed s) : Accounted fed s' := by
  refine ⟨quiet_step hs h.1, ?_⟩
  rcases step_ledger hs h.1 with he | hl
  · rw [he]
    exact h.2
  · simpa using kept_step hl h.2

theorem path_accounted {now : Time} {call : Call} {fed : List Packet} (hp : Path w now call s s')
    (h : Accounted fed s) : Accounted fed s' :=
  path_keeps (I := Accounted fed) (fun _ _ hs hx => accounted_step hs hx) hp h

theorem quiet_take {p : Packet} (ht : Take w p s s') (h : Quiet s) : Quiet s' := by
  cases ht with
  | decided v => exact h
  | refused f => exact h
  | held f c hf hpay hl hc hroom =>
    refine Quiet.put h ?_
    intro hb
    rw [hc] at hb
    cases hb

theorem accounted_take {p : Packet} {fed : List Packet} (ht : Take w p s s')
    (h : Accounted fed s) : Accounted (fed ++ [p]) s' :=
  ⟨quiet_take ht h.1, by simpa using kept_step (take_ledger ht h.1) h.2⟩

theorem accounted_run (w : World R P) (r : R) (p : P) (max_flows max_blocked : Nat) (ops : List Op) :
    Accounted (fedBy ops) (ops.foldl (Op.apply w) (init r p max_flows max_blocked)) ∧
    (ops.foldl (Op.apply w) (init r p max_flows max_blocked)).feeding = false := by
  have hquiet : Quiet (init r p max_flows max_blocked) := by
    intro k c hf
    simp [init] at hf
  exact run_law (I := Accounted) (fun _ _ _ _ _ hs h => accounted_step hs h)
    (fun _ _ _ _ ht h => accounted_take ht h) rfl ⟨hquiet, kept_nil⟩ ops

/-- The tags that are decided, and those that are held, are those fed. -/
theorem Accounted.perm {fed : List Packet} (h : Accounted fed s) :
    (s.decided.map (·.pkt.tag) ++ s.conns.keys.flatMap s.heldTags).Perm (fed.map Packet.tag) := by
  refine h.2.perm s.conns.keys_nodup ?_
  intro k hk
  rw [AList.mem_keys_iff_find]
  cases hf : s.conns.find k with
  | none => exact absurd (heldTags_of_none hf) hk
  | some c => exact ⟨c, rfl⟩

theorem Accounted.home {fed : List Packet} (h : Accounted fed s) {k : UInt32} {c : Conn} {p : Packet}
    (hf : s.conns.find k = some c) (hp : p ∈ c.held) : c.state = .Wait ∧ carries p.tag = some k := by
  refine ⟨?_, ?_⟩
  · cases hc : c.state with
    | Wait => rfl
    | Block =>
      rw [h.1 k c hf hc] at hp
      cases hp
  · apply h.2.home k
    have htags : s.ledgerOf.held k = c.held.map Packet.tag := heldTags_of_some hf
    rw [htags]
    exact List.mem_map_of_mem hp

theorem flush_conns (w : World R P) (now : Time) (hfeed : s.feeding = false) :
    (s.flush w now).conns = ∅ := by
  obtain ⟨-, hfeed', -⟩ := resolveAll_path w now hfeed
  obtain ⟨r, hr⟩ := drain_closes_of_not_feeding (w := w) (s := (s.resolveAll w).clear) now hfeed'
  unfold flush
  rw [hr]
  rfl

/-- Every packet is decided exactly once: at any time the packets decided and
those held are the packets fed; a packet is held by the waiting flow of its
own key only; the payload of a TCP flow is decided in the order in which it
was fed; and a flush leaves nothing held. -/
theorem every_packet_is_decided_exactly_once (w : World R P) (r : R) (p : P)
    (max_flows max_blocked : Nat) (ops : List Op) :
    let s := ops.foldl (Op.apply w) (init r p max_flows max_blocked)
    let fed := (fedBy ops).map Packet.tag
    let gone := s.decided.map (·.pkt.tag)
    (gone ++ s.conns.keys.flatMap s.heldTags).Perm fed ∧
    (∀ k c pkt, s.conns.find k = some c → pkt ∈ c.held →
      c.state = .Wait ∧ carries pkt.tag = some k) ∧
    (∀ k, gone.filter (fun t => carries t = some k) ++ s.heldTags k =
      fed.filter (fun t => carries t = some k)) ∧
    (∀ now, (s.flush w now).conns = ∅ ∧
      ((s.flush w now).decided.map (·.pkt.tag)).Perm fed) := by
  intro s fed gone
  obtain ⟨h, hfeed⟩ := accounted_run w r p max_flows max_blocked ops
  refine ⟨h.perm, fun k c pkt hf hp => h.home hf hp, h.2.order, ?_⟩
  intro now
  have hempty : (s.flush w now).conns = ∅ := flush_conns w now hfeed
  refine ⟨hempty, ?_⟩
  have hflush := (accounted_run w r p max_flows max_blocked (ops ++ [.flush now])).1.perm
  rw [List.foldl_append] at hflush
  have hfed : fedBy (ops ++ [.flush now]) = fedBy ops := by simp [fedBy, Op.fed]
  rw [hfed] at hflush
  change ((s.flush w now).decided.map (·.pkt.tag) ++
    (s.flush w now).conns.keys.flatMap (s.flush w now).heldTags).Perm fed at hflush
  rw [hempty] at hflush
  simpa using hflush

open traffic in
/-- A datagram whose flow key is that of a TCP flow overtakes the segment
that the flow holds: it is no TCP, so it is let through at once. -/
theorem a_datagram_overtakes_a_held_segment :
    let tcp := segmentOf (client 2) 1 [0x16, 0x03] 1
    let udp := owned (build_udp ⟨[10, 8, 163, 206], 20044⟩ server [0x01]) 2
    let ops : List Op := [.feed 0 tcp, .feed 0 udp, .flush 0]
    tcp.val.flow_key = udp.val.flow_key ∧
    (tcp.val.flow_view {}).2.payload_len > 0 ∧ (udp.val.flow_view {}).2.payload_len > 0 ∧
    (fedBy ops).map (·.id) = [1, 2] ∧ (after 2 1 ops).decided.map (·.pkt.id) = [2, 1] := by
  decide +kernel

end TcpTlsHostnameExtractor

end packet_inspector
