-- An allowed flow is one without an entry. It stays untouched as long as
-- none of its later packets opens a TLS handshake record at a moment when
-- the table can take a new flow.
import PacketInspector.Flow

open wire packet_inspector.tls runs

namespace packet_inspector.TcpTlsHostnameExtractor

variable {R P : Type} {w : World R P} {s s' u x : TcpTlsHostnameExtractor R P} {k : UInt32}

/-! ## A flow resolved to ALLOW has no entry -/

/-- The policy was asked about the flow `k` between two states, and allowed it. -/
def AllowedSince (k : UInt32) (s s' : TcpTlsHostnameExtractor R P) : Prop :=
  ∃ es hostname, s'.trace = s.trace ++ es ∧ .asked k hostname .ALLOW ∈ es

/-- Since `u`, the flow `k` was not allowed, or has no entry any more. -/
def Settled (k : UInt32) (u x : TcpTlsHostnameExtractor R P) : Prop :=
  (∃ es, x.trace = u.trace ++ es) ∧ (AllowedSince k u x → x.conns.find k = none)

/-- Events that do not allow the flow `k` leave it as settled as it was. -/
theorem AllowedSince.of_append {es : List Event} (hx : ∃ es, x.trace = u.trace ++ es)
    (htrace : s'.trace = x.trace ++ es) (hes : ∀ hostname, .asked k hostname .ALLOW ∉ es)
    (h : AllowedSince k u s') : AllowedSince k u x := by
  obtain ⟨es0, he0⟩ := hx
  obtain ⟨es1, hostname, he1, hm⟩ := h
  rw [htrace, he0, List.append_assoc, List.append_cancel_left_eq] at he1
  rw [← he1] at hm
  rcases List.mem_append.mp hm with hm | hm
  · exact ⟨es0, hostname, he0, hm⟩
  · exact absurd hm (hes hostname)

theorem Settled.step {es : List Event} (h : Settled k u x) (htrace : s'.trace = x.trace ++ es)
    (hes : ∀ hostname, .asked k hostname .ALLOW ∉ es)
    (hfind : x.conns.find k = none → s'.conns.find k = none) : Settled k u s' := by
  obtain ⟨⟨es0, he0⟩, hnone⟩ := h
  refine ⟨⟨es0 ++ es, by rw [htrace, he0, List.append_assoc]⟩, ?_⟩
  intro ha
  exact hfind (hnone (ha.of_append ⟨es0, he0⟩ htrace hes))

/-- Resolving the flow `k` to ALLOW erases it. -/
theorem Settled.resolve {hostname : Option Bytes} (h : Settled k u x) :
    Settled k u (x.resolve w k hostname) := by
  rcases resolve_eq_self_or w x k hostname with ⟨hr, -⟩ | ⟨c, hl, hc⟩
  · rw [hr]
    exact h
  · obtain ⟨es, he, -, hasked⟩ := resolve_trace (w := w) x k hostname
    cases hv : (w.decide x.policy hostname).1 with
    | ALLOW =>
      obtain ⟨es0, he0⟩ := h.1
      refine ⟨⟨es0 ++ es, by rw [he, he0, List.append_assoc]⟩, ?_⟩
      intro _
      rw [resolve_allow hl hc hv, release_conns]
      exact AList.find_erase_self _ _
    | BLOCK =>
      refine h.step he ?_ ?_
      · intro hostname' hm
        rw [hv] at hasked
        cases (hasked k hostname' .ALLOW hm).2
      · intro hn
        rw [hn] at hl
        cases hl

theorem Settled.checkStream (h : Settled k u x) (stream : Bytes) :
    Settled k u (x.checkStream w k stream) := by
  unfold TcpTlsHostnameExtractor.checkStream
  split
  · exact h.resolve
  · exact h.resolve
  · split
    · exact h.resolve
    · exact h

theorem Settled.log {e : Event} (h : Settled k u x) (he : ∀ hostname, e ≠ .asked k hostname .ALLOW) :
    Settled k u (x.log e) :=
  h.step rfl (fun hostname hm => he hostname (List.mem_singleton.mp hm).symm) (fun hn => hn)

theorem Settled.put {c c' : Conn} (h : Settled k u x) (hl : x.conns.find k = some c) :
    Settled k u (x.put k c') := by
  refine h.step (List.append_nil _).symm (by simp) ?_
  intro hn
  rw [hn] at hl
  cases hl

theorem Settled.deliver {packet : Bytes} (h : Settled k u x) (hin : x.inside = (true, k))
    (cb : Callback) : Settled k u (x.deliver w packet cb) := by
  have hlog : Settled k u (x.log (.callback packet cb)) := h.log (fun _ he => nomatch he)
  cases hl : x.conns.find k with
  | none =>
    rw [deliver_of_none cb hin hl]
    exact hlog
  | some c =>
    cases cb with
    | start tok =>
      rw [deliver_start tok hin hl]
      exact hlog.put hl
    | finish tok =>
      rw [deliver_finish tok hin hl]
      exact (hlog.put hl).resolve
    | message side tok data =>
      by_cases hside : side = kClientSide
      · subst hside
        cases hc : c.state with
        | Block =>
          rw [deliver_message_block kClientSide tok data hin hl hc]
          exact hlog
        | Wait =>
          rw [deliver_message_wait tok data hin hl hc]
          exact (hlog.put hl).checkStream _
      · rw [deliver_other_side tok data hside]
        exact hlog

theorem Settled.congr (h : Settled k u x) (ht : s'.trace = x.trace) (hc : s'.conns = x.conns) :
    Settled k u s' := by
  refine h.step (by rw [ht, List.append_nil]) (by simp) ?_
  intro hn
  rw [hc]
  exact hn

theorem Settled.reassemble {now : Time} {packet : Bytes} {f : FlowView} (hf : flowOf packet = some f)
    (h : Settled f.key u x) : Settled f.key u (x.reassemble w now f.key packet) :=
  reassemble_rule w now (Q := fun _ y => Settled f.key u y) hf
    (fun _ _ _ ht hc _ hy => hy.congr ht hc) (fun cb _ _ hin hy => hy.deliver hin cb) h

theorem Settled.releaseLast (h : Settled k u x) : Settled k u (x.releaseLast k) := by
  unfold TcpTlsHostnameExtractor.releaseLast
  cases hl : x.conns.find k with
  | none => exact h
  | some c =>
    simp only
    split
    · exact h
    · exact h.put hl

theorem Settled.decide (h : Settled k u x) (p : Packet) (v : Verdict) :
    Settled k u (x.decide p v) := h.congr rfl rfl

theorem Settled.feedTracked {now : Time} {p : Packet} {f : FlowView} {c : Conn}
    (hf : flowOf p.bytes = some f) (h : Settled f.key u (x.put f.key { c with last := now })) :
    Settled f.key u (x.feedTracked w now p f c) := by
  unfold TcpTlsHostnameExtractor.feedTracked
  simp only
  split
  · exact h.resolve.decide p .ALLOW
  · split
    · exact (Settled.reassemble hf (h.put (AList.find_insert_self _ _ _))).releaseLast
    · split
      · exact h.decide p .ALLOW
      · exact (Settled.reassemble hf h).decide p .ALLOW

theorem step_asked {now : Time} {call : Call} (hs : Step w now call s s')
    (hn : s.conns.find k = none) :
    ∃ es, s'.trace = s.trace ++ es ∧ ∀ h v, .asked k h v ∉ es := by
  have hsame : ∃ es, s.trace = s.trace ++ es ∧ ∀ h v, Event.asked k h v ∉ es :=
    ⟨[], by simp, by simp⟩
  cases hs with
  | heard packet f cb hf hcall hquiet => exact ⟨_, rfl, by simp⟩
  | joined packet f c tok data hf hcall hl hc => exact ⟨_, rfl, by simp⟩
  | resolved key c hostname hl hc hcall hreason =>
    obtain ⟨es, he, -, hasked⟩ := resolve_trace (w := w) s key hostname
    refine ⟨es, he, ?_⟩
    intro h v hm
    rw [(hasked k h v hm).1, hl] at hn
    cases hn
  | opened key hcall hl hroom => exact ⟨_, rfl, by simp⟩
  | expired key c hl hc hidle => exact ⟨_, rfl, by simp⟩
  | evicted h0 hv => exact ⟨_, rfl, by simp⟩
  | _ => exact hsame

/-- As long as the flow `k` has no entry, no one asks about it. -/
theorem path_not_asked {now : Time} {call : Call} (hp : Path w now call u x)
    (hk : call.key ≠ some k) (hn : u.conns.find k = none) :
    x.conns.find k = none ∧ Settled k u x ∧ ¬ AllowedSince k u x := by
  have hstep : ∀ y z, Step w now call y z →
      y.conns.find k = none ∧ (∃ es, y.trace = u.trace ++ es ∧ ∀ h v, .asked k h v ∉ es) →
      z.conns.find k = none ∧ (∃ es, z.trace = u.trace ++ es ∧ ∀ h v, .asked k h v ∉ es) := by
    rintro y z hs ⟨hn, es, he, hes⟩
    refine ⟨step_find_none hk hs hn, ?_⟩
    obtain ⟨es', he', hes'⟩ := step_asked hs hn
    refine ⟨es ++ es', by rw [he', he, List.append_assoc], ?_⟩
    intro h v hm
    rcases List.mem_append.mp hm with hm | hm
    · exact hes h v hm
    · exact hes' h v hm
  obtain ⟨hnx, es, he, hes⟩ := path_keeps hstep hp ⟨hn, [], by simp, by simp⟩
  have hnot : ¬ AllowedSince k u x := by
    rintro ⟨es', hostname, he', hm⟩
    rw [he, List.append_cancel_left_eq] at he'
    exact hes hostname .ALLOW (he' ▸ hm)
  exact ⟨hnx, ⟨⟨es, he⟩, fun _ => hnx⟩, hnot⟩

/-- A flow that is resolved to ALLOW by one of its own packets has no entry
after that call. -/
theorem find_none_of_allowed {now : Time} {pkt : Arrival} (hfeed : s.feeding = false)
    (hkey : keyOf pkt.val = some k)
    (h : AllowedSince k (s.tick w now) (s.feed w now pkt.val)) :
    (s.feed w now pkt.val).conns.find k = none := by
  obtain ⟨f, hf, rfl⟩ := Option.map_eq_some_iff.mp hkey
  have hfeed' := (tick_path w now .tick hfeed).2
  suffices hs : Settled f.key (s.tick w now) (s.feed w now pkt.val) from hs.2 h
  rw [feed_of_flow hf]
  generalize s.tick w now = u at hfeed' ⊢
  have hself : Settled f.key u u := by
    refine ⟨⟨[], by simp⟩, ?_⟩
    rintro ⟨es, hostname, he, hm⟩
    rw [List.self_eq_append_right] at he
    rw [he] at hm
    cases hm
  refine Settled.congr ?_ rfl rfl (x := u.feedFlow w now pkt.val f)
  unfold feedFlow
  cases hl : u.conns.find f.key with
  | some c =>
    simp only
    split
    · exact (hself.put hl).decide pkt.val .BLOCK
    · exact Settled.feedTracked hf (hself.put hl)
  | none =>
    simp only
    unfold feedUntracked
    split
    · exact hself.decide pkt.val .ALLOW
    · obtain ⟨hn, hset, hnot⟩ := path_not_asked (makeRoom_path w now .tick hfeed').1
        (by simp [Call.key]) hl
      simp only
      split
      · exact Settled.decide (hset.congr rfl rfl) pkt.val .ALLOW
      · have hlog : Settled f.key u ((u.makeRoom w now).log (.tracked f.key)) :=
          hset.log (fun _ he => by cases he)
        refine Settled.feedTracked hf ⟨hlog.1, ?_⟩
        intro ha
        exact absurd (ha.of_append hset.1 rfl (by simp)) hnot

/-! ## The law -/

/-- The packet does not start the tracking of its flow: it is no client SYN,
and when it opens a TLS handshake record the table cannot take a new flow. -/
def Passes (w : World R P) (u : TcpTlsHostnameExtractor R P) (now : Time) (q : Packet) : Prop :=
  ∀ f, flowOf q.bytes = some f → isClientSyn f = false ∧
    (opensTlsHandshake (payloadOf q.bytes f) = true →
      ((u.tick w now).makeRoom w now).conns.size ≥ ((u.tick w now).makeRoom w now).max_flows)

/-- The packet `q` of the flow `k` is allowed straight away: it is decided
in the call that feeds it, and its flow has no entry to hold it. -/
def AllowedAtOnce (w : World R P) (k : UInt32) (u : TcpTlsHostnameExtractor R P) (now : Time)
    (q : Packet) : Prop :=
  ∃ x : TcpTlsHostnameExtractor R P, u.decided <+: x.decided ∧ x.conns.find k = none ∧
    u.feed w now q = (x.decide q .ALLOW).publish

theorem allowedAtOnce_of_passes {now : Time} {q : Arrival} (hfeed : u.feeding = false)
    (hkey : keyOf q.val = some k) (hn : u.conns.find k = none) (hpass : Passes w u now q.val) :
    AllowedAtOnce w k u now q.val := by
  obtain ⟨f, hf, rfl⟩ := Option.map_eq_some_iff.mp hkey
  obtain ⟨hsyn, hfull⟩ := hpass f hf
  obtain ⟨htick, hfeed'⟩ := tick_path w now .tick hfeed
  have hn' : (u.tick w now).conns.find f.key = none :=
    tick_find_none w now hfeed hn
  unfold AllowedAtOnce
  rw [feed_of_flow hf]
  unfold feedFlow
  simp only [hn']
  unfold feedUntracked
  by_cases hopen : opensTracking q.val.bytes f = false
  · rw [if_pos hopen]
    exact ⟨u.tick w now, path_decided htick, hn', rfl⟩
  · rw [if_neg hopen]
    have hopens : opensTlsHandshake (payloadOf q.val.bytes f) = true := by
      simpa [opensTracking, hsyn] using hopen
    simp only
    rw [if_pos (hfull hopens)]
    refine ⟨((u.tick w now).makeRoom w now).refuse, ?_, ?_, rfl⟩
    · have hroom := path_decided (makeRoom_path w now .tick hfeed').1
      exact (path_decided htick).trans hroom
    · exact makeRoom_find_none w now hfeed' hn'

/-- A flow that is resolved to ALLOW stays untouched, as long as no later
packet of it starts its tracking again: each one is allowed at once. -/
theorem an_allowed_flow_stays_untouched (w : World R P) (r : R) (p : P)
    (max_flows max_blocked : Nat) (ops : List Op) (now : Time) (pkt : Arrival) (k : UInt32)
    (hkey : keyOf pkt.val = some k) (later : List Op) :
    let s := ops.foldl (Op.apply w) (init r p max_flows max_blocked)
    let t := s.feed w now pkt.val
    AllowedSince k (s.tick w now) t →
    (∀ pre now' q post, later = pre ++ .feed now' q :: post → keyOf q.val = some k →
      Passes w (pre.foldl (Op.apply w) t) now' q.val) →
    ∀ pre now' q post, later = pre ++ .feed now' q :: post → keyOf q.val = some k →
      AllowedAtOnce w k (pre.foldl (Op.apply w) t) now' q.val := by
  intro s t hallowed hpass
  have hfeed : s.feeding = false := (accounted_run w r p max_flows max_blocked ops).2
  have htfeed : t.feeding = false := (feed_feeds w now pkt hfeed).2
  -- the flow has no entry after any part of the later run
  have hnone : ∀ pre post, later = pre ++ post →
      (pre.foldl (Op.apply w) t).conns.find k = none ∧
      (pre.foldl (Op.apply w) t).feeding = false := by
    intro pre
    induction pre using List.reverseRecOn with
    | nil => exact fun _ _ => ⟨find_none_of_allowed hfeed hkey hallowed, htfeed⟩
    | append_singleton pre op ih =>
      intro post hlater
      obtain ⟨hn, hf⟩ := ih (op :: post) (by rw [hlater]; simp)
      rw [List.foldl_append]
      refine ⟨?_, apply_feeding op hf⟩
      by_cases hop : ∃ now' q, op = .feed now' q ∧ keyOf q.val = some k
      · obtain ⟨now', q, rfl, hq⟩ := hop
        obtain ⟨x, -, hx, heq⟩ := allowedAtOnce_of_passes hf hq hn
          (hpass pre now' q post (by rw [hlater]; simp) hq)
        change ((pre.foldl (Op.apply w) t).feed w now' q.val).conns.find k = none
        rw [heq]
        exact hx
      · refine apply_find_none ?_ hf hn
        intro q hq hk
        cases op with
        | feed now' q' =>
          cases hq
          exact hop ⟨now', q', rfl, hk⟩
        | tick now' => cases hq
        | flush now' => cases hq
  intro pre now' q post hlater hq
  obtain ⟨hn, hf⟩ := hnone pre (.feed now' q :: post) hlater
  exact allowedAtOnce_of_passes hf hq hn (hpass pre now' q post hlater hq)

open traffic in
theorem application_data_of_an_allowed_flow_passes :
    let w := world { exact := [host] }
    let pkt := segmentOf (client 2) 1 (client_hello [0x61]) 1
    let q := segmentOf (client 2) 63 [0x17, 0x03, 0x03, 0x00, 0x01, 0xff] 2
    let s := after 2 1 []
    AllowedSince 3561989440 (s.tick w 0) (s.feed w 0 pkt.val) ∧
    AllowedAtOnce w 3561989440 (s.feed w 0 pkt.val) 0 q.val := by
  intro w pkt q s
  have hallowed : AllowedSince 3561989440 (s.tick w 0) (s.feed w 0 pkt.val) := by
    have hm : .asked 3561989440 (some [0x61]) .ALLOW ∈ (s.feed w 0 pkt.val).trace ∧
        (s.tick w 0).trace = [] := by
      decide +kernel
    exact ⟨_, some [0x61], by rw [hm.2, List.nil_append], hm.1⟩
  have hquiet : ∀ f ∈ flowOf q.val.bytes,
      isClientSyn f = false ∧ opensTlsHandshake (payloadOf q.val.bytes f) = false := by
    decide +kernel
  refine ⟨hallowed, an_allowed_flow_stays_untouched w [] () 2 1 [] 0 pkt 3561989440
    (by decide +kernel) [.feed 0 q] hallowed ?_ [] 0 q [] rfl (by decide +kernel)⟩
  rintro pre now' q' post hlater - f hf
  have hq : now' = 0 ∧ q' = q := by
    cases pre with
    | nil => simpa using (congrArg List.head? hlater).symm
    | cons op pre => simp at hlater
  obtain ⟨-, rfl⟩ := hq
  obtain ⟨hsyn, hopen⟩ := hquiet f hf
  refine ⟨hsyn, ?_⟩
  intro h
  rw [hopen] at h
  cases h

open traffic in
/-- A later handshake record of an allowed flow, such as the key exchange of
TLS 1.2, tracks the flow again, and is held: the reassembler still ignores
the connection that was closed. -/
theorem a_later_handshake_record_is_held :
    let w := world { exact := [host] }
    let pkt := segmentOf (client 2) 1 (client_hello [0x61]) 1
    let q := segmentOf (client 2) 63 [0x16, 0x03, 0x03, 0x00, 0x04, 0x10, 0x00, 0x00, 0x00] 2
    let t := after 2 1 [.feed 0 pkt]
    let u := t.feed w 0 q.val
    keyOf pkt.val = some 3561989440 ∧ keyOf q.val = some 3561989440 ∧
    (∀ f ∈ flowOf q.val.bytes, isClientSyn f = false) ∧
    .asked 3561989440 (some [0x61]) .ALLOW ∈ t.trace ∧
    u.decided.map (·.pkt.id) = [1] ∧
    (u.conns.find 3561989440).map (fun c => c.held.map (·.id)) = some [2] := by
  decide +kernel

end packet_inspector.TcpTlsHostnameExtractor
