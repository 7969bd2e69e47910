-- The deferred closes: which waiting flow has which token of the
-- reassembler, which tokens wait to be closed, and the states in which the
-- queue of closes is drained.
import PacketInspector.Steps

open wire packet_inspector.tls runs

namespace packet_inspector

/-- The reassembler's key for the connection of a callback. -/
def Callback.token : Callback → UInt32
  | .start tok => tok
  | .message _ tok _ => tok
  | .finish tok => tok

/-- The callbacks that tell the extractor the token of a connection. -/
def Callback.names : Callback → Bool
  | .start _ => true
  | .message side _ _ => side = kClientSide
  | .finish _ => false

/-- The callbacks resolve a waiting flow with this stream: the connection
ends, or its client bytes give an answer or are too many. -/
def resolvesOn : Bytes → List Callback → Bool
  | _, [] => false
  | stream, .start _ :: cbs => resolvesOn stream cbs
  | _, .finish _ :: _ => true
  | stream, .message side _ data :: cbs =>
    if side ≠ kClientSide then resolvesOn stream cbs
    else if extractHostname (stream ++ data) ≠ .NeedMore ∨
        (stream ++ data).length > kMaxStreamBytes then true
    else resolvesOn (stream ++ data) cbs

theorem resolvesOn_client (stream : Bytes) (tok : UInt32) (data : Bytes) (cbs : List Callback) :
    resolvesOn stream (.message kClientSide tok data :: cbs) =
      if extractHostname (stream ++ data) ≠ .NeedMore ∨ (stream ++ data).length > kMaxStreamBytes
        then true
      else resolvesOn (stream ++ data) cbs := by
  rw [resolvesOn, if_neg (by simp)]

namespace TcpTlsHostnameExtractor

variable {R P : Type} {w : World R P} {s s' x : TcpTlsHostnameExtractor R P} {now : Time}
  {key : UInt32}

/-! ## The tokens of the flows that wait -/

/-- The token of a flow that waits, and the mark that its connection ended. -/
def waits (s : TcpTlsHostnameExtractor R P) (k : UInt32) : Option (UInt32 × Bool) :=
  match s.conns.find k with
  | some c => if c.state = .Wait then some (c.pcpp_key, c.pcpp_closed) else none
  | none => none

/-- The entry of `key` now waits with `v`, or no longer, and the tokens of
`q` are queued to be closed. Nothing else of this changes. -/
structure Write (key : UInt32) (v : Option (UInt32 × Bool)) (q : List UInt32)
    (s s' : TcpTlsHostnameExtractor R P) : Prop where
  waits : ∀ k, s'.waits k = if k = key then v else s.waits k
  to_close : s'.to_close = s.to_close ++ q
  reassembly : s'.reassembly = s.reassembly

/-- The same flows wait with the same tokens, and nothing is queued. -/
structure Alike (s s' : TcpTlsHostnameExtractor R P) : Prop where
  waits : ∀ k, s'.waits k = s.waits k
  to_close : s'.to_close = s.to_close
  reassembly : s'.reassembly = s.reassembly

/-- What a resolved flow leaves to be closed. -/
def queued (v : UInt32 × Bool) : List UInt32 := if v.1 ≠ 0 ∧ v.2 = false then [v.1] else []

theorem eq_of_mem_queued {v : UInt32 × Bool} {tok : UInt32} (h : tok ∈ queued v) :
    tok = v.1 ∧ tok ≠ 0 := by
  unfold queued at h
  split at h
  · rename_i hc
    have he := List.mem_singleton.mp h
    exact ⟨he, he ▸ hc.1⟩
  · cases h

theorem Alike.refl (s : TcpTlsHostnameExtractor R P) : Alike s s := ⟨fun _ => rfl, rfl, rfl⟩

theorem Alike.trans (h1 : Alike s s') (h2 : Alike s' x) : Alike s x :=
  ⟨fun k => (h2.waits k).trans (h1.waits k), h2.to_close.trans h1.to_close,
    h2.reassembly.trans h1.reassembly⟩

theorem alike_of_conns (hc : s'.conns = s.conns) (ht : s'.to_close = s.to_close)
    (hr : s'.reassembly = s.reassembly) : Alike s s' := by
  refine ⟨?_, ht, hr⟩
  intro k
  unfold waits
  rw [hc]

theorem waits_eq_some {k : UInt32} {v : UInt32 × Bool} :
    s.waits k = some v ↔
      ∃ c, s.conns.find k = some c ∧ c.state = .Wait ∧ v = (c.pcpp_key, c.pcpp_closed) := by
  unfold waits
  cases s.conns.find k with
  | none => simp
  | some c =>
    simp only [Option.some.injEq, exists_eq_left']
    split
    · rename_i h
      simp [h, eq_comm]
    · rename_i h
      simp [h]

theorem waits_eq_none {k : UInt32} :
    s.waits k = none ↔ ∀ c, s.conns.find k = some c → c.state = .Block := by
  unfold waits
  cases s.conns.find k with
  | none => simp
  | some c =>
    simp only [Option.some.injEq, forall_eq']
    cases hc : c.state with
    | Wait => simp
    | Block => simp

theorem waits_put (s : TcpTlsHostnameExtractor R P) (key : UInt32) (c : Conn) (k : UInt32) :
    (s.put key c).waits k =
      if k = key then (if c.state = .Wait then some (c.pcpp_key, c.pcpp_closed) else none)
      else s.waits k := by
  unfold waits
  rw [put_conns, AList.find_insert]
  by_cases hk : k = key
  · simp [hk]
  · simp [hk]

theorem waits_forget (s : TcpTlsHostnameExtractor R P) (key k : UInt32) :
    (s.forget key).waits k = if k = key then none else s.waits k := by
  unfold waits
  rw [forget_conns, AList.find_erase]
  by_cases hk : k = key
  · simp [hk]
  · simp [hk]

/-- Erasing a flow that does not wait is not seen here. -/
theorem waits_forget_of_none (h : s.waits key = none) (k : UInt32) :
    (s.forget key).waits k = s.waits k := by
  rw [waits_forget]
  split
  · rename_i hk
    rw [hk, h]
  · rfl

theorem put_alike {c c' : Conn} (hl : s.conns.find key = some c) (hs : c'.state = c.state)
    (ht : c'.pcpp_key = c.pcpp_key) (hc : c'.pcpp_closed = c.pcpp_closed) :
    Alike s (s.put key c') := by
  refine ⟨?_, rfl, rfl⟩
  intro k
  rw [waits_put]
  split
  · rename_i hk
    subst hk
    unfold waits
    rw [hl, hs, ht, hc]
  · rfl

theorem waits_of_blockedConn {k : UInt32} (h : s.blockedConn k = true) : s.waits k = none := by
  obtain ⟨c, hl, hc⟩ := blockedConn_iff.mp h
  rw [waits_eq_none]
  intro c' hl'
  rw [hl] at hl'
  cases hl'
  exact hc

theorem evict_alike {victim : UInt32} (h : s.blockedConn victim = true) :
    Alike s (s.evict victim) :=
  ⟨waits_forget_of_none (waits_of_blockedConn h), rfl, rfl⟩

theorem remember_blocked_alike (s : TcpTlsHostnameExtractor R P) (key : UInt32) :
    Alike s (s.remember_blocked key) := by
  rcases remember_blocked_cases s key with ⟨hr, -⟩ | ⟨hr, -, -, hb⟩
  · rw [hr]
    exact alike_of_conns rfl rfl rfl
  · rw [hr]
    exact (evict_alike hb).trans (alike_of_conns rfl rfl rfl)

theorem evictTurns_alike (left : Nat) (s : TcpTlsHostnameExtractor R P) :
    Alike s (evictTurns left s).2 := by
  induction left generalizing s with
  | zero => exact Alike.refl s
  | succ left ih =>
    have hturn : Alike s (s.turn 0) := alike_of_conns rfl rfl rfl
    unfold evictTurns
    split
    · rename_i hv
      exact hturn.trans (evict_alike (s := s.turn 0) hv.2)
    · exact hturn.trans (ih (s.turn 0))

/-! ## Resolving a flow -/

theorem resolve_of_not_waiting {hostname : Option Bytes} (h : s.waits key = none) :
    s.resolve w key hostname = s := by
  rcases resolve_eq_self_or w s key hostname with ⟨hr, -⟩ | ⟨c, hl, hc⟩
  · exact hr
  · rw [waits_eq_none.mp h c hl] at hc
    cases hc

/-- A flow that is resolved no longer waits, and its token is queued unless
its connection ended. -/
theorem resolve_write (w : World R P) (hostname : Option Bytes) {v : UInt32 × Bool}
    (h : s.waits key = some v) : Write key none (queued v) s (s.resolve w key hostname) := by
  obtain ⟨c, hl, hc, rfl⟩ := waits_eq_some.mp h
  have hqueue : ∀ l : List UInt32, (if c.pcpp_key ≠ 0 ∧ c.pcpp_closed = false
      then l ++ [c.pcpp_key] else l) = l ++ queued (c.pcpp_key, c.pcpp_closed) := by
    intro l
    unfold queued
    split
    · rfl
    · exact (List.append_nil l).symm
  cases hv : (w.decide s.policy hostname).1 with
  | ALLOW =>
    rw [resolve_allow hl hc hv, release_eq]
    exact ⟨waits_forget s key, hqueue s.to_close, rfl⟩
  | BLOCK =>
    rw [resolve_blocked hl hc hv, release_eq]
    have halike := remember_blocked_alike ((s.ask w key hostname).put key (blockConn c)) key
    refine ⟨?_, ?_, halike.reassembly⟩
    · intro k
      refine (halike.waits k).trans ?_
      exact waits_put s key (blockConn c) k
    · show (if c.pcpp_key ≠ 0 ∧ c.pcpp_closed = false then _ else _) = _
      rw [halike.to_close]
      exact hqueue s.to_close

/-- Resolving a flow keeps what both of its outcomes keep. -/
theorem resolve_keeps {I : TcpTlsHostnameExtractor R P → Prop} {hostname : Option Bytes}
    (hwrite : ∀ v x, s.waits key = some v → Write key none (queued v) s x → I x) (h : I s) :
    I (s.resolve w key hostname) := by
  cases hv : s.waits key with
  | none =>
    rw [resolve_of_not_waiting hv]
    exact h
  | some v => exact hwrite v _ hv (resolve_write w hostname hv)

/-! ## The callbacks of the reassembler -/

section Callbacks

variable {packet : Bytes}

theorem log_alike (s : TcpTlsHostnameExtractor R P) (e : Event) : Alike s (s.log e) :=
  alike_of_conns rfl rfl rfl

/-- A flow that does not wait takes no notice of a callback. -/
theorem deliver_alike (packet : Bytes) (cb : Callback) (hin : s.inside = (true, key)) (h : s.waits key = none) :
    Alike s (s.deliver w packet cb) := by
  cases hl : s.conns.find key with
  | none =>
    rw [deliver_of_none cb hin hl]
    exact log_alike s _
  | some c =>
    have hc := waits_eq_none.mp h c hl
    have hput : ∀ e c', c'.state = .Block → Alike s ((s.log e).put key c') := by
      intro e c' hc'
      refine ⟨?_, rfl, rfl⟩
      intro k
      rw [waits_put, hc']
      split
      · rename_i hk
        rw [hk, h]
        rfl
      · rfl
    cases cb with
    | start tok =>
      rw [deliver_start tok hin hl]
      exact hput _ _ hc
    | message side tok data =>
      rw [deliver_message_block side tok data hin hl hc]
      exact log_alike s _
    | finish tok =>
      rw [deliver_finish tok hin hl]
      have hwaits : ((s.log (.callback packet (.finish tok))).put key
          { c with pcpp_closed := true }).waits key = none :=
        ((hput _ { c with pcpp_closed := true } hc).waits key).trans h
      rw [resolve_of_not_waiting hwaits]
      exact hput _ _ hc

theorem put_write (s : TcpTlsHostnameExtractor R P) (key : UInt32) (e : Event) {c : Conn}
    (hc : c.state = .Wait) :
    Write key (some (c.pcpp_key, c.pcpp_closed)) [] s ((s.log e).put key c) := by
  refine ⟨?_, (List.append_nil _).symm, rfl⟩
  intro k
  rw [waits_put, if_pos hc]
  rfl

theorem Write.resolve {v : UInt32 × Bool} {hostname : Option Bytes} (h : Write key (some v) [] s x) :
    Write key none (queued v) s (x.resolve w key hostname) := by
  have hself : x.waits key = some v := by
    rw [h.waits, if_pos rfl]
  have hres := resolve_write w hostname hself
  refine ⟨?_, ?_, hres.reassembly.trans h.reassembly⟩
  · intro k
    rw [hres.waits, h.waits]
    split <;> rfl
  · rw [hres.to_close, h.to_close, List.append_nil]

/-- What a callback does to a waiting flow `c`: the flow still waits, maybe
with a new token, or the callback resolves it. -/
theorem deliver_outcome (packet : Bytes) {c : Conn} (cb : Callback) (hin : s.inside = (true, key))
    (hl : s.conns.find key = some c) (hc : c.state = .Wait) :
    (∃ c', (s.deliver w packet cb).conns.find key = some c' ∧ c'.state = .Wait ∧
      c'.pcpp_key = (if cb.names = true then cb.token else c.pcpp_key) ∧
      c'.pcpp_closed = c.pcpp_closed ∧
      (∀ cbs, resolvesOn c.stream (cb :: cbs) = resolvesOn c'.stream cbs) ∧
      Write key (some (c'.pcpp_key, c'.pcpp_closed)) [] s (s.deliver w packet cb)) ∨
    ((∀ cbs, resolvesOn c.stream (cb :: cbs) = true) ∧
      Write key none (if cb.names = true then queued (cb.token, c.pcpp_closed) else []) s
        (s.deliver w packet cb)) := by
  cases cb with
  | start tok =>
    rw [deliver_start tok hin hl]
    refine .inl ⟨_, AList.find_insert_self _ _ _, hc, rfl, rfl, fun _ => rfl, ?_⟩
    exact put_write s key _ (c := { c with pcpp_key := tok }) hc
  | finish tok =>
    rw [deliver_finish tok hin hl]
    have hput := put_write s key (.callback packet (.finish tok))
      (c := { c with pcpp_closed := true }) hc
    have hnone : queued (c.pcpp_key, true) = [] := by simp [queued]
    refine .inr ⟨fun _ => rfl, ?_⟩
    show Write key none [] s _
    rw [← hnone]
    exact hput.resolve
  | message side tok data =>
    by_cases hside : side = kClientSide
    · subst hside
      have hput := put_write s key (.callback packet (.message kClientSide tok data))
        (c := { c with pcpp_key := tok, stream := c.stream ++ data }) hc
      have hres : ∀ hostname, Write key none (queued (tok, c.pcpp_closed)) s
          (((s.log (.callback packet (.message kClientSide tok data))).put key
            { c with pcpp_key := tok, stream := c.stream ++ data }).resolve w key hostname) :=
        fun hostname => hput.resolve
      rw [deliver_message_wait tok data hin hl hc]
      unfold checkStream
      split
      · rename_i host he
        refine .inr ⟨fun cbs => ?_, hres _⟩
        rw [resolvesOn_client, if_pos (.inl (by simp [he]))]
      · rename_i he
        refine .inr ⟨fun cbs => ?_, hres _⟩
        rw [resolvesOn_client, if_pos (.inl (by simp [he]))]
      · rename_i he
        split
        · rename_i hlen
          refine .inr ⟨fun cbs => ?_, hres _⟩
          rw [resolvesOn_client, if_pos (.inr hlen)]
        · rename_i hlen
          refine .inl ⟨_, AList.find_insert_self _ _ _, hc, rfl, rfl, ?_, hput⟩
          intro cbs
          rw [resolvesOn_client, if_neg (by rintro (h | h); exacts [h he, hlen h])]
    · rw [deliver_other_side tok data hside]
      refine .inl ⟨c, hl, hc, by simp [Callback.names, hside], rfl, ?_, ?_⟩
      · intro cbs
        simp [resolvesOn, hside]
      · refine ⟨?_, (List.append_nil _).symm, rfl⟩
        intro k
        split
        · rename_i hk
          rw [hk, ← waits_eq_some.mpr ⟨c, hl, hc, rfl⟩]
          rfl
        · rfl

end Callbacks

/-! ## Where the queue is drained -/

/-- The state in which a sweep drains the queue of closes. -/
def sweepPoint (s : TcpTlsHostnameExtractor R P) (w : World R P) (now : Time) :
    TcpTlsHostnameExtractor R P :=
  let s := expireAll { s with blocked := s.blockedCount } w now
  s.settle w (w.purgeClosedConnections s.reassembly now)

/-- The state in which a flush does. -/
def flushPoint (s : TcpTlsHostnameExtractor R P) (w : World R P) :
    TcpTlsHostnameExtractor R P := (s.resolveAll w).clear

/-- The state after the callbacks for a packet, in which the queue is drained. -/
def reassemblePoint (s : TcpTlsHostnameExtractor R P) (w : World R P) (now : Time)
    (key : UInt32) (packet : Bytes) : TcpTlsHostnameExtractor R P :=
  let answer := w.reassemblePacket s.reassembly now packet
  let s := { s with current_key := key, feeding := true, reassembly := answer.1 }
  { answer.2.foldl (fun s cb => s.deliver w packet cb) s with feeding := false }

theorem sweep_drains (s : TcpTlsHostnameExtractor R P) (w : World R P) (now : Time) :
    s.sweep w now = ((s.sweepPoint w now).drain_closes w now).publish := rfl

theorem flush_drains (s : TcpTlsHostnameExtractor R P) (w : World R P) (now : Time) :
    s.flush w now = ((s.flushPoint w).drain_closes w now).publish := rfl

theorem reassemble_drains (s : TcpTlsHostnameExtractor R P) (w : World R P) (now : Time)
    (key : UInt32) (packet : Bytes) :
    s.reassemble w now key packet = (s.reassemblePoint w now key packet).drain_closes w now := rfl

theorem drain_closes_view (w : World R P) (now : Time) (h : x.feeding = false) :
    (∀ k, (x.drain_closes w now).waits k = x.waits k) ∧ (x.drain_closes w now).to_close = [] := by
  obtain ⟨r, hr⟩ := drain_closes_of_not_feeding (w := w) now h
  rw [hr]
  exact ⟨fun _ => rfl, rfl⟩

def tickDrains (s : TcpTlsHostnameExtractor R P) (w : World R P) (now : Time) :
    List (TcpTlsHostnameExtractor R P) :=
  if now - s.lastSweep < kSweepInterval then [] else [sweepPoint { s with lastSweep := now } w now]

/-- The state in which a packet of a waiting flow goes to the reassembler,
when it does. -/
def handTracked (s : TcpTlsHostnameExtractor R P) (now : Time) (pkt : Packet) (f : FlowView)
    (c : Conn) :
    Option (TcpTlsHostnameExtractor R P) :=
  let c := { c with last := now }
  let s := s.put f.key c
  if c.held.length ≥ kMaxPacketsPerConn then none
  else if f.payload_len > 0 then some (s.put f.key { c with held := c.held ++ [pkt] })
  else if f.tcp_flags &&& (kTcpSyn ||| kTcpFin ||| kTcpRst) = 0 then none
  else some s

/-- The state in which a packet goes to the reassembler, after the tick. -/
def hands (s : TcpTlsHostnameExtractor R P) (w : World R P) (now : Time) (pkt : Packet)
    (f : FlowView) : Option (TcpTlsHostnameExtractor R P) :=
  match s.conns.find f.key with
  | some c => if c.state = .Block then none else s.handTracked now pkt f c
  | none =>
    if opensTracking pkt.bytes f = false then none
    else
      let s := s.makeRoom w now
      if s.conns.size ≥ s.max_flows then none
      else (s.log (.tracked f.key)).handTracked now pkt f {}

/-- The states in which a packet, after the tick, drains the queue: when the
table is full and when the reassembler had it. -/
def flowDrains (s : TcpTlsHostnameExtractor R P) (w : World R P) (now : Time) (pkt : Packet)
    (f : FlowView) : List (TcpTlsHostnameExtractor R P) :=
  (if s.conns.find f.key = none ∧ opensTracking pkt.bytes f = true ∧ s.conns.size ≥ s.max_flows
    then s.tickDrains w now else []) ++
  ((s.hands w now pkt f).map (fun x => x.reassemblePoint w now f.key pkt.bytes)).toList

/-- The states in which a call drains the queue of closes. -/
def drains (s : TcpTlsHostnameExtractor R P) (w : World R P) :
    Op → List (TcpTlsHostnameExtractor R P)
  | .feed now pkt =>
    s.tickDrains w now ++
      match flowOf pkt.val.bytes with
      | none => []
      | some f => (s.tick w now).flowDrains w now pkt.val f
  | .tick now => s.tickDrains w now
  | .flush _ => [s.flushPoint w]

/-! ## The rules -/

section Rules

variable {I : TcpTlsHostnameExtractor R P → Prop}

theorem publish_alike (s : TcpTlsHostnameExtractor R P) : Alike s s.publish :=
  alike_of_conns rfl rfl rfl

theorem sweepPoint_feeding (hfeed : s.feeding = false) : (s.sweepPoint w now).feeding = false := by
  obtain ⟨-, hfeed'⟩ := expireAll_path w now .tick (s := { s with blocked := s.blockedCount }) hfeed
  unfold sweepPoint
  simp only [settle_of_not_feeding _ hfeed']
  exact hfeed'

theorem expire_law (hstill : ∀ x y, Alike x y → I x → I y)
    (hresolve : ∀ x, I x → I (x.resolve w key none)) (h : I s) : I (s.expire w key) := by
  unfold expire
  cases hl : s.conns.find key with
  | none => exact h
  | some c =>
    simp only
    split
    · rename_i hc
      have hnone : s.waits key = none := waits_of_blockedConn (blockedConn_iff.mpr ⟨c, hl, hc⟩)
      exact hstill s _ ⟨waits_forget_of_none hnone, rfl, rfl⟩ h
    · exact hresolve s h

theorem sweepPoint_law (hstill : ∀ x y, Alike x y → I x → I y)
    (hresolve : ∀ x, ∀ key ∈ s.collect w (isIdle now), I x → I (x.resolve w key none))
    (hpurge : ∀ x, I x → I { x with reassembly := (w.purgeClosedConnections x.reassembly now).1 })
    (hfeed : s.feeding = false) (h : I s) : I (s.sweepPoint w now) := by
  obtain ⟨-, hfeed'⟩ := expireAll_path w now .tick (s := { s with blocked := s.blockedCount }) hfeed
  have hexpired : I (expireAll { s with blocked := s.blockedCount } w now) := by
    have hturn : ∀ key l x, (∀ key' ∈ key :: l, key' ∈ s.collect w (isIdle now)) ∧ I x →
        (∀ key' ∈ l, key' ∈ s.collect w (isIdle now)) ∧ I (x.expire w key) := by
      rintro key l x ⟨hl, hx⟩
      exact ⟨fun key' hm => hl key' (by simp [hm]),
        expire_law hstill (fun y => hresolve y key (hl key (by simp))) hx⟩
    have hfold := foldl_leaves (f := fun x key => x.expire w key)
      (Q := fun l x => (∀ key ∈ l, key ∈ s.collect w (isIdle now)) ∧ I x) hturn
      (s.collect w (isIdle now)) { s with blocked := s.blockedCount }
      ⟨fun _ hm => hm, hstill s _ (alike_of_conns rfl rfl rfl) h⟩
    exact hfold.2
  unfold sweepPoint
  simp only [settle_of_not_feeding _ hfeed']
  exact hpurge _ hexpired

theorem tick_law (hstill : ∀ x y, Alike x y → I x → I y)
    (hresolve : ∀ x, ∀ key ∈ s.collect w (isIdle now), I x → I (x.resolve w key none))
    (hpurge : ∀ x, I x → I { x with reassembly := (w.purgeClosedConnections x.reassembly now).1 })
    (hdrain : ∀ x, x.feeding = false → I x → I (x.drain_closes w now))
    (hfeed : s.feeding = false) (h : I s) : I (s.tick w now) := by
  unfold tick
  split
  · exact h
  · have hstart : I { s with lastSweep := now } := hstill s _ (alike_of_conns rfl rfl rfl) h
    have hpoint := sweepPoint_law hstill hresolve hpurge (s := { s with lastSweep := now }) hfeed hstart
    rw [sweep_drains]
    exact hstill _ _ (publish_alike _) (hdrain _ (sweepPoint_feeding hfeed) hpoint)

theorem flushPoint_law (hstill : ∀ x y, Alike x y → I x → I y)
    (hresolve : ∀ x key, I x → I (x.resolve w key none)) (hfeed : s.feeding = false)
    (h : I s) : I (s.flushPoint w) := by
  have hall : I (s.resolveAll w) := by
    refine foldl_keeps (I := I) ?_ _ s h
    exact hresolve
  -- every flow that waited is resolved, so that clearing the table loses no token
  obtain ⟨-, -, hblock⟩ := resolveAll_path w 0 hfeed
  refine hstill (s.resolveAll w) _ ⟨?_, rfl, rfl⟩ hall
  intro k
  rw [waits_eq_none.mpr (hblock k)]
  rfl

theorem flush_law (hstill : ∀ x y, Alike x y → I x → I y)
    (hresolve : ∀ x key, I x → I (x.resolve w key none))
    (hdrain : ∀ x, x.feeding = false → I x → I (x.drain_closes w now))
    (hfeed : s.feeding = false) (h : I s) : I (s.flush w now) := by
  obtain ⟨-, hfeed', -⟩ := resolveAll_path w now hfeed
  rw [flush_drains]
  exact hstill _ _ (publish_alike _) (hdrain _ hfeed' (flushPoint_law hstill hresolve hfeed h))

/-- What holds of a state and of the callbacks that are left holds when the
queue is drained. -/
theorem reassemblePoint_law (w : World R P) (now : Time)
    {Q : List Callback → TcpTlsHostnameExtractor R P → Prop} {packet : Bytes} {f : FlowView} (hf : flowOf packet = some f)
    (hsame : ∀ cbs x y, y.conns = x.conns → y.to_close = x.to_close →
      y.reassembly = x.reassembly → Q cbs x → Q cbs y)
    (hdeliver : ∀ cb cbs x, x.inside = (true, f.key) → Q (cb :: cbs) x →
      Q cbs (x.deliver w packet cb))
    (h : Q (w.reassemblePacket s.reassembly now packet).2
      { s with reassembly := (w.reassemblePacket s.reassembly now packet).1 }) :
    Q [] (s.reassemblePoint w now f.key packet) := by
  have hfold := foldl_leaves (f := fun x cb => x.deliver w packet cb)
    (Q := fun cbs x => x.inside = (true, f.key) ∧ Q cbs x)
    (fun cb cbs x hx => ⟨deliver_inside hf hx.1 cb, hdeliver cb cbs x hx.1 hx.2⟩)
    (w.reassemblePacket s.reassembly now packet).2
    { s with
      current_key := f.key, feeding := true
      reassembly := (w.reassemblePacket s.reassembly now packet).1 }
    ⟨rfl, hsame _ { s with reassembly := (w.reassemblePacket s.reassembly now packet).1 } _
      rfl rfl rfl h⟩
  unfold reassemblePoint
  simp only
  generalize List.foldl _ _ _ = y at hfold ⊢
  exact hsame _ y _ rfl rfl rfl hfold.2

theorem releaseLast_alike (s : TcpTlsHostnameExtractor R P) (key : UInt32) :
    Alike s (s.releaseLast key) := by
  unfold releaseLast
  cases hl : s.conns.find key with
  | none => exact Alike.refl s
  | some c =>
    simp only
    split
    · exact Alike.refl s
    · exact put_alike hl rfl rfl rfl

theorem handTracked_alike {pkt : Packet} {f : FlowView} {c : Conn}
    (h : s.handTracked now pkt f c = some x) : Alike (s.put f.key { c with last := now }) x := by
  unfold handTracked at h
  simp only at h
  split at h
  · cases h
  · split at h
    · cases h
      exact put_alike (AList.find_insert_self _ _ _) rfl rfl rfl
    · split at h
      · cases h
      · cases h
        exact Alike.refl _

/-- A packet goes to the reassembler with its flow waiting. -/
theorem handTracked_entry {pkt : Packet} {f : FlowView} {c : Conn} (hc : c.state = .Wait)
    (h : s.handTracked now pkt f c = some x) :
    ∃ c', x.conns.find f.key = some c' ∧ c'.state = .Wait := by
  unfold handTracked at h
  simp only at h
  split at h
  · cases h
  · split at h
    · cases h
      exact ⟨_, AList.find_insert_self _ _ _, hc⟩
    · split at h
      · cases h
      · cases h
        exact ⟨_, AList.find_insert_self _ _ _, hc⟩

theorem hands_entry {pkt : Packet} {f : FlowView} (h : s.hands w now pkt f = some x) :
    ∃ c, x.conns.find f.key = some c ∧ c.state = .Wait := by
  unfold hands at h
  split at h
  · rename_i c hl
    split at h
    · cases h
    · rename_i hb
      have hc : c.state = .Wait := by
        cases hst : c.state with
        | Wait => rfl
        | Block => exact absurd hst hb
      exact handTracked_entry hc h
  · split at h
    · cases h
    · simp only at h
      split at h
      · cases h
      · exact handTracked_entry rfl h

theorem feedTracked_law (hstill : ∀ x y, Alike x y → I x → I y) {pkt : Packet} {f : FlowView}
    {c : Conn} (hresolve : ∀ x, I x → I (x.resolve w f.key none))
    (hfed : ∀ x, s.handTracked now pkt f c = some x → I x →
      I (x.reassemble w now f.key pkt.bytes))
    (h : I (s.put f.key { c with last := now })) : I (s.feedTracked w now pkt f c) := by
  have hdecide : ∀ x v, I x → I (x.decide pkt v) :=
    fun x v hx => hstill x _ (alike_of_conns rfl rfl rfl) hx
  have hhand : ∀ x, s.handTracked now pkt f c = some x → I (x.reassemble w now f.key pkt.bytes) :=
    fun x hx => hfed x hx (hstill _ x (handTracked_alike hx) h)
  unfold handTracked at hhand
  unfold feedTracked
  simp only at hhand ⊢
  split
  · exact hdecide _ _ (hresolve _ h)
  · rename_i hroom
    rw [if_neg hroom] at hhand
    split
    · rename_i hpay
      rw [if_pos hpay] at hhand
      exact hstill _ _ (releaseLast_alike _ _) (hhand _ rfl)
    · rename_i hpay
      rw [if_neg hpay] at hhand
      split
      · exact hdecide _ _ h
      · rename_i hflags
        rw [if_neg hflags] at hhand
        exact hdecide _ _ (hhand _ rfl)

/-- A new entry waits with no token. -/
theorem open_write (s : TcpTlsHostnameExtractor R P) (key : UInt32) (now : Time) :
    Write key (some (0, false)) [] s (s.put key { last := now }) := by
  refine ⟨?_, (List.append_nil _).symm, rfl⟩
  intro k
  rw [waits_put]
  rfl

theorem makeRoom_law (hstill : ∀ x y, Alike x y → I x → I y) (htick : I (s.tick w now))
    (h : I s) : I (s.makeRoom w now) := by
  unfold makeRoom
  split
  · simp only
    split
    · exact hstill _ _ (evictTurns_alike _ _) htick
    · exact htick
  · exact h

section Feed

variable {pkt : Packet} {f : FlowView}

theorem tracked_put_law (now : Time) (hstill : ∀ x y, Alike x y → I x → I y) {c : Conn}
    (hl : s.conns.find f.key = some c) (h : I s) : I (s.put f.key { c with last := now }) :=
  hstill s _ (put_alike hl rfl rfl rfl) h

theorem untracked_put_law (hopen : ∀ x y, x.waits f.key = none →
      Write f.key (some (0, false)) [] x y → I x → I y)
    (hn : s.conns.find f.key = none) (h : I s) : I (s.put f.key { last := now }) := by
  refine hopen s _ ?_ (open_write s f.key now) h
  rw [waits_eq_none]
  intro c hc
  rw [hn] at hc
  cases hc

/-- The state in which a packet goes to the reassembler keeps what the calls
before it keep. -/
theorem hands_law (hstill : ∀ x y, Alike x y → I x → I y) (htick : I (s.tick w now))
    (hopen : ∀ x y, x.waits f.key = none → Write f.key (some (0, false)) [] x y → I x → I y)
    (hfeed : s.feeding = false) (h : I s) (hx : s.hands w now pkt f = some x) : I x := by
  unfold hands at hx
  cases hl : s.conns.find f.key with
  | some c =>
    simp only [hl] at hx
    split at hx
    · cases hx
    · exact hstill _ x (handTracked_alike hx) (tracked_put_law now hstill hl h)
  | none =>
    simp only [hl] at hx
    split at hx
    · cases hx
    · split at hx
      · cases hx
      · have hn := makeRoom_find_none w now hfeed hl
        have hroom := hstill _ _ (log_alike _ (.tracked f.key)) (makeRoom_law hstill htick h)
        exact hstill _ x (handTracked_alike hx) (untracked_put_law hopen hn hroom)

theorem feedFlow_law (hstill : ∀ x y, Alike x y → I x → I y)
    (hresolve : ∀ x, I x → I (x.resolve w f.key none)) (htick : I (s.tick w now))
    (hopen : ∀ x y, x.waits f.key = none → Write f.key (some (0, false)) [] x y → I x → I y)
    (hfed : ∀ x, s.hands w now pkt f = some x → I x → I (x.reassemble w now f.key pkt.bytes))
    (hfeed : s.feeding = false) (h : I s) : I (s.feedFlow w now pkt f) := by
  have hdecide : ∀ x v, I x → I (x.decide pkt v) :=
    fun x v hx => hstill x _ (alike_of_conns rfl rfl rfl) hx
  unfold hands at hfed
  unfold feedFlow
  cases hl : s.conns.find f.key with
  | some c =>
    simp only [hl] at hfed ⊢
    have hput := tracked_put_law now hstill hl h
    split
    · exact hdecide _ _ hput
    · rename_i hc
      rw [if_neg hc] at hfed
      exact feedTracked_law hstill hresolve hfed hput
  | none =>
    simp only [hl] at hfed ⊢
    unfold feedUntracked
    split
    · exact hdecide _ _ h
    · rename_i hopens
      rw [if_neg hopens] at hfed
      have hn := makeRoom_find_none w now hfeed hl
      have hroom := makeRoom_law hstill htick h
      simp only at hfed ⊢
      split
      · exact hdecide _ _ (hstill (s.makeRoom w now) _ (alike_of_conns rfl rfl rfl) hroom)
      · rename_i hsize
        rw [if_neg hsize] at hfed
        have hlog := hstill _ _ (log_alike _ (.tracked f.key)) hroom
        exact feedTracked_law hstill hresolve hfed (untracked_put_law hopen hn hlog)

end Feed

end Rules

end TcpTlsHostnameExtractor

end packet_inspector
