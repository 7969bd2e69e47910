-- Every packet that a worker receives is verdicted once: what it sent to the
-- kernel, what is decided and what flows hold is what it received, and at
-- the end of a turn only held packets are outstanding.
import PacketInspector.Worker
import PacketInspector.Accounting

open wire packet_inspector.tls runs ledger

namespace packet_inspector

variable {R P : Type} {w : World R P}

namespace TcpTlsHostnameExtractor

variable {s s' : TcpTlsHostnameExtractor R P}

/-! ## The packets of an extractor -/

/-- Every packet in the decided buffer and in a held list is a `Q`. -/
structure AllPackets (Q : Packet → Prop) (s : TcpTlsHostnameExtractor R P) : Prop where
  decided : ∀ d ∈ s.decided, Q d.pkt
  held : ∀ k c, s.conns.find k = some c → ∀ p ∈ c.held, Q p

theorem AllPackets.of_find {Q : Packet → Prop} (h : AllPackets Q s) (hd : s'.decided = s.decided)
    (hsub : ∀ k c, s'.conns.find k = some c → s.conns.find k = some c) : AllPackets Q s' :=
  ⟨hd ▸ h.decided, fun k c hl => h.held k c (hsub k c hl)⟩

theorem AllPackets.forget {Q : Packet → Prop} (h : AllPackets Q s) (key : UInt32) :
    AllPackets Q (s.forget key) := by
  refine h.of_find rfl ?_
  intro k c hl
  rw [forget_conns, AList.find_erase] at hl
  split at hl
  · cases hl
  · exact hl

/-- What is said of all packets but those of one flow is said of all when
its entry is written anew. -/
theorem AllPackets.put_of_forget {Q : Packet → Prop} {key : UInt32} {c : Conn}
    (h : AllPackets Q (s.forget key)) (hc : ∀ p ∈ c.held, Q p) : AllPackets Q (s.put key c) := by
  refine ⟨h.decided, ?_⟩
  intro k c' hl
  rw [put_conns, AList.find_insert] at hl
  split at hl
  · cases hl
    exact hc
  · rename_i hk
    refine h.held k c' ?_
    rw [forget_conns, AList.find_erase_of_ne _ hk]
    exact hl

theorem AllPackets.put {Q : Packet → Prop} (h : AllPackets Q s) (key : UInt32) {c : Conn}
    (hc : ∀ p ∈ c.held, Q p) : AllPackets Q (s.put key c) :=
  (h.forget key).put_of_forget hc

theorem AllPackets.decide {Q : Packet → Prop} (h : AllPackets Q s) {p : Packet} (hp : Q p)
    (v : Verdict) : AllPackets Q (s.decide p v) := by
  refine ⟨?_, h.held⟩
  intro d hd
  rw [decide_decided] at hd
  rcases List.mem_append.mp hd with hd | hd
  · exact h.decided d hd
  · rw [List.mem_singleton.mp hd]
    exact hp

theorem AllPackets.release {Q : Packet → Prop} {held : List Packet} (h : AllPackets Q s)
    (hheld : ∀ p ∈ held, Q p) (v : Verdict) : AllPackets Q (s.release held v) := by
  rw [release_eq]
  refine ⟨?_, h.held⟩
  intro d hd
  rcases List.mem_append.mp hd with hd | hd
  · exact h.decided d hd
  · obtain ⟨p, hp, rfl⟩ := List.mem_map.mp hd
    exact hheld p hp

theorem AllPackets.remember_blocked {Q : Packet → Prop} (h : AllPackets Q s) (key : UInt32) :
    AllPackets Q (s.remember_blocked key) := by
  rcases remember_blocked_cases s key with ⟨hr, -⟩ | ⟨hr, -, -, -⟩
  · rw [hr]
    exact ⟨h.decided, h.held⟩
  · rw [hr]
    have hforget := h.forget s.oldest
    exact ⟨hforget.decided, hforget.held⟩

/-- A flow that is resolved lets its packets go, and no packet is new. -/
theorem AllPackets.resolve {Q : Packet → Prop} (h : AllPackets Q s) (key : UInt32)
    (hostname : Option Bytes) : AllPackets Q (s.resolve w key hostname) := by
  rcases resolve_eq_self_or w s key hostname with ⟨hr, -⟩ | ⟨c, hl, hc⟩
  · rw [hr]
    exact h
  · have hheld := h.held key c hl
    cases hv : (w.decide s.policy hostname).1 with
    | ALLOW =>
      rw [resolve_allow hl hc hv]
      refine AllPackets.release ?_ hheld .ALLOW
      have hforget := h.forget key
      exact ⟨hforget.decided, hforget.held⟩
    | BLOCK =>
      rw [resolve_blocked hl hc hv]
      refine AllPackets.release ?_ hheld .BLOCK
      have hput : AllPackets Q ((s.ask w key hostname).put key (blockConn c)) :=
        AllPackets.put (s := s.ask w key hostname) ⟨h.decided, h.held⟩ key
          (fun p hp => by cases hp)
      have hremember := hput.remember_blocked key
      exact ⟨hremember.decided, hremember.held⟩

theorem allPackets_step {Q : Packet → Prop} (hQ : ∀ p, Q p → Q p.release_bytes) {now : Time}
    {call : Call} (hs : Step w now call s s') (h : AllPackets Q s) : AllPackets Q s' := by
  cases hs with
  | books => exact ⟨h.decided, h.held⟩
  | heard => exact ⟨h.decided, h.held⟩
  | joined packet f c tok data hf hcall hl hc =>
    exact AllPackets.put (s := s.log _) ⟨h.decided, h.held⟩ f.key (h.held f.key c hl)
  | marked key c tok closed hcall hl => exact h.put key (h.held key c hl)
  | touched key c hcall hl => exact h.put key (h.held key c hl)
  | opened key hcall hl hroom =>
    exact AllPackets.put (s := s.log _) ⟨h.decided, h.held⟩ key (fun p hp => by cases hp)
  | released key c ps p hcall hl hheld =>
    have hold := h.held key c hl
    rw [hheld] at hold
    refine h.put key ?_
    intro q hq
    rcases List.mem_append.mp hq with hq | hq
    · exact hold q (List.mem_append_left _ hq)
    · rw [List.mem_singleton.mp hq]
      exact hQ p (hold p (by simp))
  | resolved key c hostname hl hc hcall hreason => exact h.resolve key hostname
  | expired key c hl hc hidle =>
    have hforget := h.forget key
    exact ⟨hforget.decided, hforget.held⟩
  | passed hv => exact ⟨h.decided, h.held⟩
  | evicted h0 hv =>
    have hforget := h.forget s.oldest
    exact ⟨hforget.decided, hforget.held⟩
  | cleared hcall hb =>
    refine ⟨h.decided, ?_⟩
    intro k c hl
    cases hl

theorem allPackets_take {Q : Packet → Prop} {p : Packet} (ht : Take w p s s') (hp : Q p)
    (h : AllPackets Q s) : AllPackets Q s' := by
  cases ht with
  | decided v => exact h.decide hp v
  | refused f => exact AllPackets.decide (s := s.refuse) ⟨h.decided, h.held⟩ hp .ALLOW
  | held f c hf hpay hl hc hroom =>
    refine h.put f.key ?_
    intro q hq
    rcases List.mem_append.mp hq with hq | hq
    · exact h.held f.key c hl q hq
    · rw [List.mem_singleton.mp hq]
      exact hp

/-! ## What is sent, decided and held -/

/-- The packets that wait in the held lists. -/
def heldCount (s : TcpTlsHostnameExtractor R P) : Nat :=
  ((s.conns.entries.filter (fun e => e.2.state = .Wait)).map (fun e => e.2.held.length)).sum

theorem find_of_mem_entries {e : (_ : UInt32) × Conn} (h : e ∈ s.conns.entries) :
    s.conns.find e.1 = some e.2 :=
  AList.mem_lookup_iff.mpr h

theorem Quiet.heldCount (h : Quiet s) : (s.conns.keys.flatMap s.heldTags).length = s.heldCount := by
  have hlist : ∀ l : List ((_ : UInt32) × Conn), (∀ e ∈ l, s.conns.find e.1 = some e.2) →
      ((l.map Sigma.fst).flatMap s.heldTags).length =
        ((l.filter (fun e => e.2.state = .Wait)).map (fun e => e.2.held.length)).sum := by
    intro l
    induction l with
    | nil => exact fun _ => rfl
    | cons e l ih =>
      intro hl
      have hrest := ih (fun e' hm => hl e' (by simp [hm]))
      have he := hl e (by simp)
      rw [List.map_cons, List.flatMap_cons, List.length_append, hrest, heldTags_of_some he,
        List.length_map]
      cases hc : e.2.state with
      | Wait =>
        rw [List.filter_cons_of_pos (by simp [hc]), List.map_cons, List.sum_cons]
      | Block =>
        rw [List.filter_cons_of_neg (by simp [hc]), h e.1 e.2 he hc, List.length_nil, Nat.zero_add]
  exact hlist s.conns.entries (fun e hm => find_of_mem_entries hm)

/-- `sent` are the tags of the packets that were decided and taken out of
the decided buffer. -/
structure Owing (sent : List (UInt32 × Bytes)) (fed : List Packet)
    (s : TcpTlsHostnameExtractor R P) : Prop where
  quiet : Quiet s
  kept : Kept carries (fed.map Packet.tag) (s.ledgerOf.after sent)
  pending : AllPackets (fun p => p.pending = true) s

variable {sent : List (UInt32 × Bytes)} {fed : List Packet}

theorem owing_step {now : Time} {call : Call} (hs : Step w now call s s') (h : Owing sent fed s) :
    Owing sent fed s' := by
  refine ⟨quiet_step hs h.quiet, ?_, allPackets_step (fun _ hp => hp) hs h.pending⟩
  rcases step_ledger hs h.quiet with he | hl
  · rw [he]
    exact h.kept
  · simpa using kept_step (hl.after sent) h.kept

theorem owing_take {p : Packet} (ht : Take w p s s') (hp : p.pending = true)
    (h : Owing sent fed s) : Owing sent (fed ++ [p]) s' := by
  refine ⟨quiet_take ht h.quiet, ?_, allPackets_take ht hp h.pending⟩
  simpa using kept_step ((take_ledger ht h.quiet).after sent) h.kept

theorem owing_apply (op : Op) (hop : ∀ p, op.fed = some p → p.pending = true)
    (hfeed : s.feeding = false) (h : Owing sent fed s) :
    Owing sent (fed ++ op.fed.toList) (op.apply w s) :=
  apply_law (I := fun fed x => Owing sent fed x) (fun _ _ _ _ _ hs hx => owing_step hs hx)
    (fun p _ _ _ hp ht hx => owing_take ht (hop p hp) hx) hfeed h

/-- What is taken out of the decided buffer is sent. -/
theorem Owing.sends (h : Owing sent fed s) :
    Owing (sent ++ s.decided.map (·.pkt.tag)) fed { s with decided := [] } := by
  refine ⟨h.quiet, ?_, ⟨(fun d hd => by cases hd), h.pending.held⟩⟩
  have hledger : ({ s with decided := [] } : TcpTlsHostnameExtractor R P).ledgerOf.after
      (sent ++ s.decided.map (·.pkt.tag)) = s.ledgerOf.after sent := by
    have hheld : heldTags { s with decided := [] } = s.heldTags := heldTags_congr rfl
    simp [Ledger.after, ledgerOf, hheld]
  rw [hledger]
  exact h.kept

theorem Owing.perm (h : Owing sent fed s) :
    (sent ++ s.decided.map (·.pkt.tag) ++ s.conns.keys.flatMap s.heldTags).Perm
      (fed.map Packet.tag) := by
  refine h.kept.perm s.conns.keys_nodup ?_
  intro k hk
  rw [AList.mem_keys_iff_find]
  cases hf : s.conns.find k with
  | none => exact absurd (heldTags_of_none hf) hk
  | some c => exact ⟨c, rfl⟩

end TcpTlsHostnameExtractor

open TcpTlsHostnameExtractor

/-! ## The queue -/

theorem NFQueue.submit_of_pending {q : NFQueue} {k : SetVerdict} {pkt : Packet} {v : Verdict}
    (hk : ∀ log id v, k log id v ≥ 0) (h : pkt.pending = true) :
    (q.submit k pkt v).1 = { q with
      verdicted := q.verdicted + 1
      verdicts := q.verdicts ++ [(pkt.id, v)] } := by
  unfold NFQueue.submit
  rw [if_neg (by simp [h])]
  simp only [if_pos (hk _ _ _)]
  rfl

theorem NFQueue.submit_pending (q : NFQueue) (k : SetVerdict) (pkt : Packet) (v : Verdict) :
    (q.submit k pkt v).2.pending = false := by
  unfold NFQueue.submit
  split
  · rename_i h
    exact h
  · rfl

theorem NFQueue.submit_all {k : SetVerdict} (hk : ∀ log id v, k log id v ≥ 0) (ds : List Decided) :
    ∀ q : NFQueue, (∀ d ∈ ds, d.pkt.pending = true) →
      ds.foldl (fun q d => (q.submit k d.pkt d.verdict).1) q = { q with
        verdicted := q.verdicted + ds.length
        verdicts := q.verdicts ++ ds.map (fun d => (d.pkt.id, d.verdict)) } := by
  induction ds with
  | nil =>
    intro q _
    simp
  | cons d ds ih =>
    intro q hds
    rw [List.foldl_cons, NFQueue.submit_of_pending hk (hds d (by simp)),
      ih _ (fun d' hd' => hds d' (by simp [hd']))]
    simp [Nat.add_assoc, Nat.add_comm 1]

theorem NfqData.packet_pending (nfa : NfqData) : nfa.packet.pending = true := by
  unfold NfqData.packet
  split
  · dsimp only
    split <;> rfl
  · rfl

theorem NfqData.packet_bytes (nfa : NfqData) :
    nfa.packet.has_bytes = true ∨ nfa.packet.bytes = [] := by
  unfold NfqData.packet
  split
  · dsimp only
    split
    · exact .inl rfl
    · exact .inr rfl
  · exact .inr rfl

/-- A packet reaches the extractor with its bytes, or had none. -/
def NfqData.arrival (nfa : NfqData) : Arrival := ⟨nfa.packet, nfa.packet_bytes⟩

namespace Worker

variable {k : SetVerdict} {wk : Worker R P} {arrived : List Packet}

/-! ## The books of a worker -/

/-- A queue that has answered all but `n` of its packets has `n` outstanding. -/
theorem outstanding_of_received {q : NFQueue} {n : Nat} (h : q.received = q.verdicted + n) :
    q.outstanding = UInt64.ofNat n := by
  unfold NFQueue.outstanding NFQueue.packets_received NFQueue.verdicts_issued
  rw [h, UInt64.ofNat_add, UInt64.add_comm, UInt64.add_sub_cancel]

/-- What a worker owes to the packets that it received. The extractor sent
`sent` of them; in passthrough mode it was fed none, and the kernel was told
about all of them. -/
structure Books (passthrough : Bool) (arrived : List Packet) (sent : List (UInt32 × Bytes))
    (wk : Worker R P) : Prop where
  mode : wk.passthrough = passthrough
  feeding : wk.tls.feeding = false
  owing : Owing sent (if passthrough then [] else arrived) wk.tls
  told : wk.queue.verdicts.map (·.1) =
    (if passthrough then arrived.map Packet.tag else sent).map (·.1)
  received : wk.queue.received = arrived.length
  verdicted : wk.queue.verdicted = wk.queue.verdicts.length
  undecided : wk.queue.undecided = 0

theorem handle_inspecting (w : World R P) (k : SetVerdict) (now : Time) (nfa : NfqData)
    (h : wk.passthrough = false) :
    wk.handle w k now nfa = { wk.receive with tls := wk.tls.feed w now nfa.packet } := by
  have hcallback : wk.receive.callback w k now nfa.packet =
      ({ wk.receive with tls := wk.tls.feed w now nfa.packet }, Packet.husk) := by
    unfold callback
    rw [if_neg (by simp [receive, h])]
    rfl
  unfold handle
  rw [hcallback]
  rfl

/-- In passthrough mode the packet is submitted inside the callback, so that
the fail-safe finds nothing to do. -/
theorem handle_of_passthrough (w : World R P) (k : SetVerdict) (now : Time) (nfa : NfqData)
    (h : wk.passthrough = true) :
    wk.handle w k now nfa =
      { wk with queue := (wk.receive.queue.submit k nfa.packet .ALLOW).1 } := by
  have hpending := NFQueue.submit_pending wk.receive.queue k nfa.packet .ALLOW
  unfold handle callback failSafe
  rw [if_pos (by simp [receive, h])]
  simp only [hpending]
  rfl

theorem handle_passthrough (w : World R P) (hk : ∀ log id v, k log id v ≥ 0) (now : Time)
    (nfa : NfqData) (h : wk.passthrough = true) :
    wk.handle w k now nfa = { wk with queue := { wk.queue with
      received := wk.queue.received + 1
      verdicted := wk.queue.verdicted + 1
      verdicts := wk.queue.verdicts ++ [(nfa.packet.id, .ALLOW)] } } := by
  rw [handle_of_passthrough w k now nfa h, NFQueue.submit_of_pending hk nfa.packet_pending]
  rfl

section Books

variable {passthrough : Bool} {sent : List (UInt32 × Bytes)}

theorem Books.handle (w : World R P) (hk : ∀ log id v, k log id v ≥ 0)
    (h : Books passthrough arrived sent wk) (now : Time) (nfa : NfqData) :
    Books passthrough (arrived ++ [nfa.packet]) sent (wk.handle w k now nfa) := by
  cases passthrough with
  | false =>
    rw [handle_inspecting w k now nfa h.mode]
    refine ⟨h.mode, apply_feeding (w := w) (.feed now nfa.arrival) h.feeding, ?_, h.told, ?_,
      h.verdicted, h.undecided⟩
    · refine owing_apply (w := w) (.feed now nfa.arrival) ?_ h.feeding h.owing
      rintro p hp
      cases hp
      exact nfa.packet_pending
    · simp [receive, h.received]
  | true =>
    rw [handle_passthrough w hk now nfa h.mode]
    refine ⟨h.mode, h.feeding, h.owing, ?_, ?_, ?_, h.undecided⟩
    · simp [h.told, Packet.tag]
    · simp [h.received]
    · simp [h.verdicted]

theorem Books.run_once (w : World R P) (hk : ∀ log id v, k log id v ≥ 0)
    (h : Books passthrough arrived sent wk) (ev : NFQueue.Event) :
    Books passthrough (arrived ++ ev.received) sent (wk.run_once w k ev) := by
  have hidle : Books passthrough (arrived ++ []) sent wk := by
    rw [List.append_nil]
    exact h
  cases ev with
  | Idle => exact hidle
  | Stop => exact hidle
  | Error => exact hidle
  | Packets batch =>
    clear hidle
    show Books passthrough (arrived ++ batch.map (fun x => x.2.packet)) sent
      (batch.foldl (fun wk x => wk.handle w k x.1 x.2) wk)
    induction batch generalizing wk arrived with
    | nil =>
      rw [List.map_nil, List.append_nil]
      exact h
    | cons x batch ih =>
      have hrest := ih (h.handle w hk x.1 x.2)
      rw [List.append_assoc] at hrest
      exact hrest

/-- A tick and a flush feed nothing. -/
theorem Books.serve (w : World R P) (h : Books passthrough arrived sent wk) (op : Op)
    (hop : op.fed = none) :
    Books passthrough arrived sent { wk with tls := op.apply w wk.tls } := by
  have howing := owing_apply (w := w) op (fun p hp => by rw [hop] at hp; cases hp)
    h.feeding h.owing
  rw [hop, Option.toList_none, List.append_nil] at howing
  exact ⟨h.mode, apply_feeding op h.feeding, howing, h.told, h.received, h.verdicted, h.undecided⟩

/-- In passthrough mode the extractor decides and holds nothing. -/
theorem Books.of_passthrough (h : Books true arrived sent wk) :
    wk.tls.decided = [] ∧ wk.tls.conns.keys.flatMap wk.tls.heldTags = [] := by
  have hempty := h.owing.perm.eq_nil
  rw [List.append_eq_nil_iff, List.append_eq_nil_iff, List.map_eq_nil_iff] at hempty
  exact ⟨hempty.1.2, hempty.2⟩

theorem Books.drain_decided (hk : ∀ log id v, k log id v ≥ 0)
    (h : Books passthrough arrived sent wk) :
    Books passthrough arrived (sent ++ wk.tls.decided.map (·.pkt.tag)) (wk.drain_decided k) := by
  have hqueue : (wk.drain_decided k).queue = { wk.queue with
      verdicted := wk.queue.verdicted + wk.tls.decided.length
      verdicts := wk.queue.verdicts ++ wk.tls.decided.map (fun d => (d.pkt.id, d.verdict)) } :=
    NFQueue.submit_all hk wk.tls.decided wk.queue h.owing.pending.decided
  refine ⟨h.mode, h.feeding, h.owing.sends, ?_, ?_, ?_, ?_⟩
  · rw [hqueue, List.map_append, h.told]
    cases passthrough with
    | false => simp [Packet.tag]
    | true => simp [h.of_passthrough.1]
  · rw [hqueue]
    exact h.received
  · rw [hqueue]
    simp [h.verdicted]
  · rw [hqueue]
    exact h.undecided

/-! ## The loop -/

/-- The books and an empty buffer, which is how a turn ends. -/
def Settled (passthrough : Bool) (arrived : List Packet) (wk : Worker R P) : Prop :=
  wk.tls.decided = [] ∧ ∃ sent, Books passthrough arrived sent wk

theorem Books.settled (hk : ∀ log id v, k log id v ≥ 0) (h : Books passthrough arrived sent wk) :
    Settled passthrough arrived (wk.drain_decided k) :=
  ⟨rfl, _, h.drain_decided hk⟩

theorem Settled.turn (w : World R P) (hk : ∀ log id v, k log id v ≥ 0)
    (h : Settled passthrough arrived wk) (ev : NFQueue.Event) (now : Time) :
    Settled passthrough (arrived ++ ev.received) (wk.turn w k ev now) := by
  obtain ⟨-, sent, hbooks⟩ := h
  exact ((hbooks.run_once w hk ev).serve w (.tick now) rfl).settled hk

/-- The flush of a loop that ends leaves no flow. -/
theorem Settled.finish (w : World R P) (hk : ∀ log id v, k log id v ≥ 0)
    (h : Settled passthrough arrived wk) (now : Time) :
    Settled passthrough arrived (wk.finish w k now) ∧ (wk.finish w k now).tls.conns = ∅ := by
  obtain ⟨-, sent, hbooks⟩ := h
  exact ⟨(hbooks.serve w (.flush now) rfl).settled hk, flush_conns w now hbooks.feeding⟩

theorem settled_loop (w : World R P) (hk : ∀ log id v, k log id v ≥ 0)
    (turns : List (NFQueue.Event × Time)) :
    ∀ (wk : Worker R P) (arrived : List Packet), Settled passthrough arrived wk →
      Settled passthrough (arrived ++ arrivals turns) (wk.loop w k turns).2 ∧
      ((wk.loop w k turns).1 = true → (wk.loop w k turns).2.tls.conns = ∅) := by
  induction turns with
  | nil =>
    intro wk arrived h
    refine ⟨?_, fun he => by cases he⟩
    rw [arrivals, List.append_nil]
    exact h
  | cons t turns ih =>
    intro wk arrived h
    obtain ⟨ev, now⟩ := t
    have hend : Settled passthrough (arrived ++ []) (wk.finish w k now) ∧
        (wk.finish w k now).tls.conns = ∅ := by
      rw [List.append_nil]
      exact h.finish w hk now
    have hturn := ih (wk.turn w k ev now) _ (h.turn w hk ev now)
    rw [List.append_assoc] at hturn
    cases ev with
    | Stop => exact ⟨hend.1, fun _ => hend.2⟩
    | Error => exact ⟨hend.1, fun _ => hend.2⟩
    | Idle => exact hturn
    | Packets batch => exact hturn

/-- What the kernel was told about and what is held is what was received. -/
theorem Settled.perm (h : Settled passthrough arrived wk) :
    (wk.queue.verdicts.map (·.1) ++ (wk.tls.conns.keys.flatMap wk.tls.heldTags).map (·.1)).Perm
      (arrived.map (·.id)) := by
  obtain ⟨hempty, sent, hbooks⟩ := h
  have hids : (arrived.map Packet.tag).map (·.1) = arrived.map (·.id) := by
    rw [List.map_map]
    rfl
  rw [hbooks.told, ← hids]
  cases passthrough with
  | true =>
    rw [hbooks.of_passthrough.2, List.map_nil, List.append_nil]
    exact .refl _
  | false =>
    have hperm := hbooks.owing.perm.map (·.1)
    rw [hempty, List.map_nil, List.append_nil, List.map_append] at hperm
    exact hperm

theorem Settled.received (h : Settled passthrough arrived wk) :
    wk.queue.received = wk.queue.verdicted + wk.tls.heldCount := by
  have hlen := h.perm.length_eq
  obtain ⟨-, sent, hbooks⟩ := h
  rw [List.length_append, List.length_map, List.length_map, List.length_map,
    hbooks.owing.quiet.heldCount] at hlen
  rw [hbooks.received, hbooks.verdicted]
  exact hlen.symm

theorem Settled.held_of_passthrough (h : Settled true arrived wk) : wk.tls.heldCount = 0 := by
  obtain ⟨-, sent, hbooks⟩ := h
  rw [← hbooks.owing.quiet.heldCount, hbooks.of_passthrough.2]
  rfl

end Books

/-- In every run of the loop, when the kernel takes every verdict and gives
distinct ids: no id is verdicted twice; no packet is left to the fail-safe;
at the end of a turn all packets received are verdicted but those that the
waiting flows hold, which are outstanding and are none in passthrough mode;
and when the loop has ended, every packet received is verdicted and nothing
is outstanding. -/
theorem every_packet_is_verdicted_once (w : World R P) (k : SetVerdict)
    (hk : ∀ log id v, k log id v ≥ 0) (passthrough : Bool) (r : R) (p : P)
    (max_flows max_blocked : Nat) (turns : List (NFQueue.Event × Time))
    (hids : ((arrivals turns).map (·.id)).Nodup) :
    let wk : Worker R P := { passthrough := passthrough, tls := init r p max_flows max_blocked }
    let ended := (wk.loop w k turns).1
    let wk' := (wk.loop w k turns).2
    (wk'.queue.verdicts.map (·.1)).Nodup ∧ wk'.queue.undecided = 0 ∧
    wk'.queue.received = (arrivals turns).length ∧
    wk'.queue.received = wk'.queue.verdicted + wk'.tls.heldCount ∧
    wk'.queue.outstanding = UInt64.ofNat wk'.tls.heldCount ∧
    (passthrough = true → wk'.tls.heldCount = 0 ∧ wk'.queue.outstanding = 0) ∧
    (ended = true → wk'.queue.verdicted = wk'.queue.received ∧ wk'.queue.outstanding = 0 ∧
      (wk'.queue.verdicts.map (·.1)).Perm ((arrivals turns).map (·.id))) := by
  intro wk ended wk'
  have hstart : Settled passthrough [] wk := by
    refine ⟨rfl, [], rfl, rfl, ⟨?_, ?_, ?_⟩, ?_, rfl, rfl, rfl⟩
    · intro key c hl
      cases hl
    · rw [ite_self]
      exact kept_nil
    · refine ⟨fun d hd => ?_, fun key c hl => ?_⟩
      · cases hd
      · cases hl
    · show [] = (if passthrough = true then ([] : List (UInt32 × Bytes)) else []).map (·.1)
      rw [ite_self]
      rfl
  obtain ⟨hsettled, hend⟩ := settled_loop w hk turns wk [] hstart
  rw [List.nil_append] at hsettled
  have hreceived : wk'.queue.received = wk'.queue.verdicted + wk'.tls.heldCount :=
    hsettled.received
  have hout := outstanding_of_received hreceived
  have hperm := hsettled.perm
  have hbooked : wk'.queue.undecided = 0 ∧ wk'.queue.received = (arrivals turns).length := by
    obtain ⟨-, sent, hbooks⟩ := hsettled
    exact ⟨hbooks.undecided, hbooks.received⟩
  refine ⟨?_, hbooked.1, hbooked.2, hreceived, hout, ?_, ?_⟩
  · exact (hperm.nodup_iff.mpr hids).of_append_left
  · rintro rfl
    have hnone := hsettled.held_of_passthrough
    exact ⟨hnone, by rw [hout, hnone]; rfl⟩
  · intro hended
    have hconns : wk'.tls.conns = ∅ := hend hended
    have hnone : wk'.tls.heldCount = 0 := by
      unfold heldCount
      rw [hconns]
      rfl
    refine ⟨by rw [hreceived, hnone, Nat.add_zero], by rw [hout, hnone]; rfl, ?_⟩
    rw [hconns] at hperm
    simpa using hperm

/-- A loop keeps of the extractor what its calls and an emptied buffer keep. -/
theorem loop_keeps {w : World R P} {k : SetVerdict}
    {I : TcpTlsHostnameExtractor R P → Prop} (happly : ∀ op x, I x → I (Op.apply w x op))
    (hdrain : ∀ x, I x → I { x with decided := [] }) (turns : List (NFQueue.Event × Time)) :
    ∀ {wk : Worker R P}, I wk.tls → I (wk.loop w k turns).2.tls := by
  have hhandle : ∀ (wk : Worker R P) (x : Time × NfqData), I wk.tls →
      I (wk.handle w k x.1 x.2).tls := by
    intro wk x h
    cases hmode : wk.passthrough with
    | true =>
      rw [handle_of_passthrough w k x.1 x.2 hmode]
      exact h
    | false =>
      rw [handle_inspecting w k x.1 x.2 hmode]
      exact happly (.feed x.1 x.2.arrival) wk.tls h
  induction turns with
  | nil => exact fun h => h
  | cons t turns ih =>
    intro wk h
    obtain ⟨ev, now⟩ := t
    cases ev with
    | Stop => exact hdrain _ (happly (.flush now) _ h)
    | Error => exact hdrain _ (happly (.flush now) _ h)
    | Idle => exact @ih (wk.turn w k .Idle now) (hdrain _ (happly (.tick now) _ h))
    | Packets batch =>
      have hbatch : I (wk.run_once w k (.Packets batch)).tls :=
        foldl_keeps (I := fun wk : Worker R P => I wk.tls) hhandle batch wk h
      exact @ih (wk.turn w k (.Packets batch) now) (hdrain _ (happly (.tick now) _ hbatch))

open traffic in
/-- A loop that receives a hello and is stopped verdicts both of its packets. -/
theorem a_stopped_loop_verdicts_its_packets :
    let turns : List (NFQueue.Event × Time) := [
      (.Packets [(0, ⟨some 1, some (syn (client 2) 1).val.bytes⟩),
        (0, ⟨some 2, some (hello (client 2) 2).val.bytes⟩)], 0), (.Stop, 0)]
    let wk : Worker (List Link) Unit := { passthrough := false, tls := init [] () 2 1 }
    let wk' := (wk.loop (world { exact := [host] }) (fun _ _ _ => 0) turns).2
    wk'.queue.verdicted = wk'.queue.received ∧ wk'.queue.outstanding = 0 ∧
      (wk'.queue.verdicts.map (·.1)).Perm [1, 2] := by
  intro turns wk wk'
  have hbooks := every_packet_is_verdicted_once (world { exact := [host] }) (fun _ _ _ => 0)
    (fun _ _ _ => Int.le_refl 0) false [] () 2 1 turns (by decide +kernel)
  obtain ⟨-, -, -, -, -, -, hended⟩ := hbooks
  exact hended (by decide +kernel)

end Worker

end packet_inspector
