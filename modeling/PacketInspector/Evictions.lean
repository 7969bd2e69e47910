-- The calls of `remember_blocked` and of `evict_oldest_blocked` in a run,
-- each with the state in which it is made: the two places where the ring of
-- blocked keys takes a flow out of the table.
import PacketInspector.BlockRing
import PacketInspector.Closing

open wire packet_inspector.tls runs

namespace packet_inspector

variable {R P : Type}

/-- A call of one of the two, in the state in which it is made. The entry of
a flow that `remember_blocked` registers is blocked by then. -/
inductive Eviction (R P : Type) where
  | remember (key : UInt32) (s : TcpTlsHostnameExtractor R P)
  | evictOldest (s : TcpTlsHostnameExtractor R P)

namespace TcpTlsHostnameExtractor

variable (s : TcpTlsHostnameExtractor R P) (w : World R P)

/-! ## Where they are called -/

def resolveEvictions (key : UInt32) (hostname : Option Bytes) : List (Eviction R P) :=
  match s.conns.find key with
  | none => []
  | some c =>
    if c.state = .Block then []
    else
      match (w.decide s.policy hostname).1 with
      | .BLOCK => [.remember key ((s.ask w key hostname).put key (blockConn c))]
      | .ALLOW => []

def checkStreamEvictions (key : UInt32) (stream : Bytes) : List (Eviction R P) :=
  match extractHostname stream with
  | .Found host => s.resolveEvictions w key (some host)
  | .NotFound => s.resolveEvictions w key none
  | .NeedMore => if stream.length > kMaxStreamBytes then s.resolveEvictions w key none else []

def onMessageReadyEvictions (side : Int) (flowKey : UInt32) (data : Bytes) : List (Eviction R P) :=
  if s.feeding = false then []
  else if side ≠ kClientSide then []
  else
    match s.conns.find s.current_key with
    | none => []
    | some c =>
      if c.state ≠ .Wait then []
      else
        let c := { c with pcpp_key := flowKey, stream := c.stream ++ data }
        (s.put s.current_key c).checkStreamEvictions w s.current_key c.stream

def onConnectionEndEvictions : List (Eviction R P) :=
  if s.feeding = false then []
  else
    match s.conns.find s.current_key with
    | none => []
    | some c =>
      (s.put s.current_key { c with pcpp_closed := true }).resolveEvictions w s.current_key none

def callbackEvictions : Callback → List (Eviction R P)
  | .start _ => []
  | .message side flowKey data => s.onMessageReadyEvictions w side flowKey data
  | .finish _ => s.onConnectionEndEvictions w

def settleEvictions (answer : R × List Callback) : List (Eviction R P) :=
  visits (fun s cb => s.callback w cb) (fun s cb => s.callbackEvictions w cb)
    { s with reassembly := answer.1 } answer.2

def drainEvictions (now : Time) : List (Eviction R P) :=
  visits (fun s token => s.settle w (w.closeConnection s.reassembly now token))
    (fun s token => s.settleEvictions w (w.closeConnection s.reassembly now token)) s s.to_close

def reassembleEvictions (now : Time) (key : UInt32) (packet : Bytes) : List (Eviction R P) :=
  let answer := w.reassemblePacket s.reassembly now packet
  visits (fun s cb => s.deliver w packet cb)
    (fun s cb => (s.log (.callback packet cb)).callbackEvictions w cb)
    { s with current_key := key, feeding := true, reassembly := answer.1 } answer.2 ++
  (s.reassemblePoint w now key packet).drainEvictions w now

def expireEvictions (key : UInt32) : List (Eviction R P) :=
  match s.conns.find key with
  | none => []
  | some c => if c.state = .Block then [] else s.resolveEvictions w key none

def expireAllEvictions (now : Time) : List (Eviction R P) :=
  visits (fun s key => s.expire w key) (fun s key => s.expireEvictions w key) s
    (s.collect w (isIdle now))

def sweepEvictions (now : Time) : List (Eviction R P) :=
  let s := { s with blocked := s.blockedCount }
  let x := s.expireAll w now
  let answer := w.purgeClosedConnections x.reassembly now
  s.expireAllEvictions w now ++ x.settleEvictions w answer ++ (x.settle w answer).drainEvictions w now

def tickEvictions (now : Time) : List (Eviction R P) :=
  if now - s.lastSweep < kSweepInterval then []
  else sweepEvictions { s with lastSweep := now } w now

def flushEvictions (now : Time) : List (Eviction R P) :=
  visits (fun s key => s.resolve w key none) (fun s key => s.resolveEvictions w key none) s
    (s.collect w (fun c => c.state = .Wait)) ++
  (s.resolveAll w).clear.drainEvictions w now

def makeRoomEvictions (now : Time) : List (Eviction R P) :=
  if s.conns.size ≥ s.max_flows then
    let x := s.tick w now
    s.tickEvictions w now ++ if x.conns.size ≥ x.max_flows then [.evictOldest x] else []
  else []

def feedTrackedEvictions (now : Time) (pkt : Packet) (f : FlowView) (c : Conn) :
    List (Eviction R P) :=
  let key := f.key
  let c := { c with last := now }
  let s := s.put key c
  if c.held.length ≥ kMaxPacketsPerConn then s.resolveEvictions w key none
  else if f.payload_len > 0 then
    let s := s.put key { c with held := c.held ++ [pkt] }
    s.reassembleEvictions w now key pkt.bytes
  else if f.tcp_flags &&& (kTcpSyn ||| kTcpFin ||| kTcpRst) = 0 then []
  else s.reassembleEvictions w now key pkt.bytes

def feedUntrackedEvictions (now : Time) (pkt : Packet) (f : FlowView) : List (Eviction R P) :=
  if opensTracking pkt.bytes f = false then []
  else
    let x := s.makeRoom w now
    s.makeRoomEvictions w now ++
      if x.conns.size ≥ x.max_flows then []
      else (x.log (.tracked f.key)).feedTrackedEvictions w now pkt f {}

def feedFlowEvictions (now : Time) (pkt : Packet) (f : FlowView) : List (Eviction R P) :=
  match s.conns.find f.key with
  | some c => if c.state = .Block then [] else s.feedTrackedEvictions w now pkt f c
  | none => s.feedUntrackedEvictions w now pkt f

def feedEvictions (now : Time) (pkt : Packet) : List (Eviction R P) :=
  let x := s.tick w now
  s.tickEvictions w now ++
    if pkt.has_bytes = false then []
    else
      match pkt.flow_view {} with
      | (false, _) => []
      | (true, f) => if f.ip_proto ≠ kProtoTcp then [] else x.feedFlowEvictions w now pkt f

/-- The calls of the two that a call on the extractor makes, in order. -/
def evictions : Op → List (Eviction R P)
  | .feed now pkt => s.feedEvictions w now pkt.val
  | .tick now => s.tickEvictions w now
  | .flush now => s.flushEvictions w now

/-- The calls of the two in a run. -/
def runEvictions (ops : List Op) : List (Eviction R P) :=
  visits (Op.apply w) (fun s op => s.evictions w op) s ops

end TcpTlsHostnameExtractor

/-! ## What a call removes -/

namespace Eviction

open TcpTlsHostnameExtractor

variable (m : Eviction R P)

def state : Eviction R P → TcpTlsHostnameExtractor R P
  | .remember _ s => s
  | .evictOldest s => s

def after : Eviction R P → TcpTlsHostnameExtractor R P
  | .remember key s => s.remember_blocked key
  | .evictOldest s => s.evict_oldest_blocked.2

/-- The blocked flows that the call takes out of the table. -/
def removed : List UInt32 :=
  m.state.blockedKeys.filter (fun v => (m.after.conns.find v).isNone)

variable {m} {v : UInt32}

theorem mem_removed_iff :
    v ∈ m.removed ↔ m.state.blockedConn v = true ∧ m.after.conns.find v = none := by
  simp [removed, mem_blockedKeys_iff]

theorem removed_of_same (h : m.after.conns = m.state.conns) : m.removed = [] := by
  refine List.eq_nil_iff_forall_not_mem.mpr ?_
  intro u hu
  obtain ⟨hb, hn⟩ := mem_removed_iff.mp hu
  obtain ⟨c, hf, -⟩ := blockedConn_iff.mp hb
  rw [h, hf] at hn
  cases hn

theorem removed_of_erase (hb : m.state.blockedConn v = true)
    (h : m.after.conns = m.state.conns.erase v) : m.removed = [v] := by
  have hnodup : m.removed.Nodup := (blockedKeys_nodup m.state).filter _
  refine List.perm_singleton.mp ((List.perm_ext_iff_of_nodup hnodup (List.nodup_singleton v)).mpr ?_)
  intro u
  rw [mem_removed_iff, h, AList.find_erase, List.mem_singleton]
  constructor
  · rintro ⟨hu, hn⟩
    obtain ⟨c, hf, -⟩ := blockedConn_iff.mp hu
    by_contra hne
    rw [if_neg hne, hf] at hn
    cases hn
  · rintro rfl
    exact ⟨hb, if_pos rfl⟩

end Eviction

/-! ## Nothing else evicts -/

/-- The key that an event says was evicted. -/
def Event.evictedKey : Event → Option UInt32
  | .evicted key => some key
  | _ => none

namespace TcpTlsHostnameExtractor

open Eviction

/-- The keys that were evicted so far. -/
def evictedKeys (s : TcpTlsHostnameExtractor R P) : List UInt32 :=
  s.trace.filterMap Event.evictedKey

/-- The flows evicted from `x` to `y` are those that the calls `es` remove. -/
def Accounts (es : List (Eviction R P)) (x y : TcpTlsHostnameExtractor R P) : Prop :=
  y.evictedKeys = x.evictedKeys ++ es.flatMap removed

variable {w : World R P} {s x y z : TcpTlsHostnameExtractor R P} {es es' : List (Eviction R P)}

theorem Accounts.trans (h : Accounts es x y) (h' : Accounts es' y z) : Accounts (es ++ es') x z := by
  unfold Accounts at *
  rw [h', h, List.flatMap_append, List.append_assoc]

/-- Only the history counts. -/
theorem Accounts.congr {x' y' : TcpTlsHostnameExtractor R P} (h : Accounts es x' y')
    (hx : x'.trace = x.trace) (hy : y.trace = y'.trace) : Accounts es x y := by
  unfold Accounts evictedKeys at *
  rw [hy, h, hx]

theorem accounts_nil (h : y.trace = x.trace) : Accounts [] x y := by
  unfold Accounts evictedKeys
  rw [h]
  simp

/-- Calls one after the other. -/
theorem visits_accounts {α : Type} {f : TcpTlsHostnameExtractor R P → α → TcpTlsHostnameExtractor R P}
    {g : TcpTlsHostnameExtractor R P → α → List (Eviction R P)}
    (hturn : ∀ x a, Accounts (g x a) x (f x a)) (l : List α) :
    ∀ x, Accounts (visits f g x l) x (l.foldl f x) := by
  induction l with
  | nil => exact fun x => accounts_nil rfl
  | cons a l ih => exact fun x => (hturn x a).trans (ih (f x a))

theorem evictedKeys_log (s : TcpTlsHostnameExtractor R P) (e : Event) :
    (s.log e).evictedKeys = s.evictedKeys ++ e.evictedKey.toList := by
  unfold evictedKeys
  rw [log_trace, List.filterMap_append]
  cases h : Event.evictedKey e with
  | none => simp [h]
  | some k => simp [h]

theorem evictedKeys_ask (s : TcpTlsHostnameExtractor R P) (w : World R P) (key : UInt32)
    (hostname : Option Bytes) : (s.ask w key hostname).evictedKeys = s.evictedKeys := by
  unfold evictedKeys
  rw [ask_trace, List.filterMap_append]
  simp [Event.evictedKey]

/-- An event that is no eviction. -/
theorem accounts_log (s : TcpTlsHostnameExtractor R P) {e : Event} (he : e.evictedKey = none) :
    Accounts [] s (s.log e) := by
  unfold Accounts
  rw [evictedKeys_log, he]
  simp

theorem accounts_remember (s : TcpTlsHostnameExtractor R P) (key : UInt32) :
    Accounts [.remember key s] s (s.remember_blocked key) := by
  unfold Accounts
  rw [List.flatMap_singleton]
  rcases remember_blocked_cases s key with ⟨he, -⟩ | ⟨he, -, -, hb⟩
  · have hsame : (Eviction.remember key s).removed = [] := removed_of_same (by
      show (s.remember_blocked key).conns = s.conns
      rw [he]
      rfl)
    rw [he, hsame, List.append_nil]
    rfl
  · have herase : (Eviction.remember key s).removed = [s.oldest] := removed_of_erase hb (by
      show (s.remember_blocked key).conns = s.conns.erase s.oldest
      rw [he]
      rfl)
    rw [he, herase]
    exact evictedKeys_log (s.forget s.oldest) (.evicted s.oldest)

/-- A search takes out no flow, or a blocked one that it tells of. -/
theorem evictTurns_cases (left : Nat) (s : TcpTlsHostnameExtractor R P) :
    ((evictTurns left s).2.conns = s.conns ∧ (evictTurns left s).2.trace = s.trace) ∨
    ∃ v, s.blockedConn v = true ∧ (evictTurns left s).2.conns = s.conns.erase v ∧
      (evictTurns left s).2.trace = s.trace ++ [.evicted v] := by
  induction left generalizing s with
  | zero => exact .inl ⟨rfl, rfl⟩
  | succ left ih =>
    unfold evictTurns
    split
    · rename_i hv
      exact .inr ⟨s.oldest, hv.2, rfl, rfl⟩
    · exact ih (s.turn 0)

theorem accounts_evictOldest (s : TcpTlsHostnameExtractor R P) :
    Accounts [.evictOldest s] s s.evict_oldest_blocked.2 := by
  unfold Accounts evictedKeys
  rw [List.flatMap_singleton]
  rcases evictTurns_cases s.max_blocked s with ⟨hconns, htrace⟩ | ⟨v, hb, hconns, htrace⟩
  · rw [removed_of_same (m := .evictOldest s) hconns]
    unfold evict_oldest_blocked
    rw [htrace, List.append_nil]
  · rw [removed_of_erase (m := .evictOldest s) hb hconns]
    unfold evict_oldest_blocked
    rw [htrace, List.filterMap_append]
    rfl

theorem accounts_resolve (s : TcpTlsHostnameExtractor R P) (w : World R P) (key : UInt32)
    (hostname : Option Bytes) :
    Accounts (s.resolveEvictions w key hostname) s (s.resolve w key hostname) := by
  unfold resolveEvictions
  cases hl : s.conns.find key with
  | none =>
    rw [resolve_of_none hostname hl]
    exact accounts_nil rfl
  | some c =>
    cases hc : c.state with
    | Block =>
      rw [resolve_of_block hostname hl hc]
      simp only [hc, if_true]
      exact accounts_nil rfl
    | Wait =>
      simp only [hc, reduceCtorEq, if_false]
      have hasked : Accounts [] s (s.ask w key hostname) := by
        unfold Accounts
        rw [evictedKeys_ask]
        simp
      cases hv : (w.decide s.policy hostname).1 with
      | ALLOW =>
        rw [resolve_allow hl hc hv, release_eq]
        exact hasked.congr rfl rfl
      | BLOCK =>
        rw [resolve_blocked hl hc hv, release_eq]
        have hput : Accounts [] s ((s.ask w key hostname).put key (blockConn c)) :=
          hasked.congr rfl rfl
        exact (hput.trans (accounts_remember _ key)).congr rfl rfl

theorem accounts_checkStream (s : TcpTlsHostnameExtractor R P) (w : World R P) (key : UInt32)
    (stream : Bytes) :
    Accounts (s.checkStreamEvictions w key stream) s (s.checkStream w key stream) := by
  unfold checkStreamEvictions checkStream
  cases extractHostname stream with
  | Found host => exact accounts_resolve s w key (some host)
  | NotFound => exact accounts_resolve s w key none
  | NeedMore =>
    by_cases hlong : stream.length > kMaxStreamBytes
    · simp only [if_pos hlong]
      exact accounts_resolve s w key none
    · simp only [if_neg hlong]
      exact accounts_nil rfl

theorem accounts_callback (s : TcpTlsHostnameExtractor R P) (w : World R P) (cb : Callback) :
    Accounts (s.callbackEvictions w cb) s (s.callback w cb) := by
  cases cb with
  | start tok =>
    refine accounts_nil ?_
    simp only [callback, onConnectionStart]
    split
    · rfl
    · split
      · rfl
      · rfl
  | message side tok data =>
    simp only [callbackEvictions, onMessageReadyEvictions, callback, onMessageReady]
    by_cases hfeed : s.feeding = false
    · simp only [if_pos hfeed]
      exact accounts_nil rfl
    · by_cases hside : side ≠ kClientSide
      · simp only [if_neg hfeed, if_pos hside]
        exact accounts_nil rfl
      · simp only [if_neg hfeed, if_neg hside]
        cases s.conns.find s.current_key with
        | none => exact accounts_nil rfl
        | some c =>
          by_cases hwait : c.state ≠ .Wait
          · simp only [if_pos hwait]
            exact accounts_nil rfl
          · simp only [if_neg hwait]
            exact (accounts_checkStream _ w s.current_key _).congr rfl rfl
  | finish tok =>
    simp only [callbackEvictions, onConnectionEndEvictions, callback, onConnectionEnd]
    by_cases hfeed : s.feeding = false
    · simp only [if_pos hfeed]
      exact accounts_nil rfl
    · simp only [if_neg hfeed]
      cases s.conns.find s.current_key with
      | none => exact accounts_nil rfl
      | some c => exact (accounts_resolve _ w s.current_key none).congr rfl rfl

theorem accounts_settle (s : TcpTlsHostnameExtractor R P) (w : World R P)
    (answer : R × List Callback) :
    Accounts (s.settleEvictions w answer) s (s.settle w answer) :=
  (visits_accounts (fun x cb => accounts_callback x w cb) answer.2 _).congr rfl rfl

theorem accounts_drain (s : TcpTlsHostnameExtractor R P) (w : World R P) (now : Time) :
    Accounts (s.drainEvictions w now) s (s.drain_closes w now) :=
  (visits_accounts (fun x token => accounts_settle x w (w.closeConnection x.reassembly now token))
    s.to_close s).congr rfl rfl

theorem accounts_reassemble (s : TcpTlsHostnameExtractor R P) (w : World R P) (now : Time)
    (key : UInt32) (packet : Bytes) :
    Accounts (s.reassembleEvictions w now key packet) s (s.reassemble w now key packet) := by
  have hdeliver : ∀ (x : TcpTlsHostnameExtractor R P) (cb : Callback),
      Accounts ((x.log (.callback packet cb)).callbackEvictions w cb) x (x.deliver w packet cb) := by
    intro x cb
    exact (accounts_log x (e := .callback packet cb) rfl).trans (accounts_callback _ w cb)
  have hpoint := visits_accounts hdeliver (w.reassemblePacket s.reassembly now packet).2
    { s with
      current_key := key, feeding := true
      reassembly := (w.reassemblePacket s.reassembly now packet).1 }
  rw [reassemble_drains]
  exact Accounts.trans (hpoint.congr rfl rfl) (accounts_drain _ w now)

theorem accounts_expire (s : TcpTlsHostnameExtractor R P) (w : World R P) (key : UInt32) :
    Accounts (s.expireEvictions w key) s (s.expire w key) := by
  unfold expireEvictions expire
  cases s.conns.find key with
  | none => exact accounts_nil rfl
  | some c =>
    by_cases hc : c.state = .Block
    · have hlog := evictedKeys_log (s.forget key) (.expired key)
      simp only [if_pos hc]
      unfold Accounts
      rw [hlog]
      simp [Event.evictedKey, evictedKeys]
    · simp only [if_neg hc]
      exact accounts_resolve s w key none

theorem accounts_tick (s : TcpTlsHostnameExtractor R P) (w : World R P) (now : Time) :
    Accounts (s.tickEvictions w now) s (s.tick w now) := by
  unfold tickEvictions tick
  by_cases hearly : now - s.lastSweep < kSweepInterval
  · rw [if_pos hearly, if_pos hearly]
    exact accounts_nil rfl
  · have hexpired := visits_accounts (fun x key => accounts_expire x w key)
      (collect { s with lastSweep := now, blocked := blockedCount { s with lastSweep := now } } w
        (isIdle now))
      { s with lastSweep := now, blocked := blockedCount { s with lastSweep := now } }
    rw [if_neg hearly, if_neg hearly]
    exact ((hexpired.trans (accounts_settle _ w _)).trans (accounts_drain _ w now)).congr rfl rfl

theorem accounts_makeRoom (s : TcpTlsHostnameExtractor R P) (w : World R P) (now : Time) :
    Accounts (s.makeRoomEvictions w now) s (s.makeRoom w now) := by
  unfold makeRoomEvictions makeRoom
  by_cases hfull : s.conns.size ≥ s.max_flows
  · simp only [if_pos hfull]
    refine (accounts_tick s w now).trans ?_
    by_cases hstill : (s.tick w now).conns.size ≥ (s.tick w now).max_flows
    · simp only [if_pos hstill]
      exact accounts_evictOldest _
    · simp only [if_neg hstill]
      exact accounts_nil rfl
  · simp only [if_neg hfull]
    exact accounts_nil rfl

theorem accounts_feedTracked (s : TcpTlsHostnameExtractor R P) (w : World R P) (now : Time)
    (pkt : Packet) (f : FlowView) (c : Conn) :
    Accounts (s.feedTrackedEvictions w now pkt f c) s (s.feedTracked w now pkt f c) := by
  simp only [feedTrackedEvictions, feedTracked]
  by_cases hflood : c.held.length ≥ kMaxPacketsPerConn
  · simp only [if_pos hflood]
    exact (accounts_resolve _ w f.key none).congr rfl rfl
  · by_cases hpay : f.payload_len > 0
    · simp only [if_neg hflood, if_pos hpay]
      exact (accounts_reassemble _ w now f.key pkt.bytes).congr rfl (releaseLast_trace _ f.key)
    · by_cases hflags : f.tcp_flags &&& (kTcpSyn ||| kTcpFin ||| kTcpRst) = 0
      · simp only [if_neg hflood, if_neg hpay, if_pos hflags]
        exact accounts_nil rfl
      · simp only [if_neg hflood, if_neg hpay, if_neg hflags]
        exact (accounts_reassemble _ w now f.key pkt.bytes).congr rfl rfl

theorem accounts_feedUntracked (s : TcpTlsHostnameExtractor R P) (w : World R P) (now : Time)
    (pkt : Packet) (f : FlowView) :
    Accounts (s.feedUntrackedEvictions w now pkt f) s (s.feedUntracked w now pkt f) := by
  unfold feedUntrackedEvictions feedUntracked
  by_cases hopen : opensTracking pkt.bytes f = false
  · simp only [if_pos hopen]
    exact accounts_nil rfl
  · simp only [if_neg hopen]
    refine (accounts_makeRoom s w now).trans ?_
    by_cases hfull : (s.makeRoom w now).conns.size ≥ (s.makeRoom w now).max_flows
    · simp only [if_pos hfull]
      exact accounts_nil rfl
    · simp only [if_neg hfull]
      exact (accounts_log _ (e := .tracked f.key) rfl).trans
        (accounts_feedTracked _ w now pkt f {})

theorem accounts_feedFlow (s : TcpTlsHostnameExtractor R P) (w : World R P) (now : Time)
    (pkt : Packet) (f : FlowView) :
    Accounts (s.feedFlowEvictions w now pkt f) s (s.feedFlow w now pkt f) := by
  unfold feedFlowEvictions feedFlow
  cases s.conns.find f.key with
  | none => exact accounts_feedUntracked s w now pkt f
  | some c =>
    by_cases hc : c.state = .Block
    · simp only [if_pos hc]
      exact accounts_nil rfl
    · simp only [if_neg hc]
      exact accounts_feedTracked s w now pkt f c

theorem accounts_feed (s : TcpTlsHostnameExtractor R P) (w : World R P) (now : Time)
    (pkt : Arrival) : Accounts (s.feedEvictions w now pkt.val) s (s.feed w now pkt.val) := by
  unfold feedEvictions feed
  refine (accounts_tick s w now).trans ?_
  by_cases hbytes : pkt.val.has_bytes = false
  · simp only [if_pos hbytes]
    exact accounts_nil rfl
  · simp only [if_neg hbytes]
    rcases pkt.val.flow_view {} with ⟨_ | _, f⟩
    · exact accounts_nil rfl
    · by_cases hproto : f.ip_proto ≠ kProtoTcp
      · simp only [if_pos hproto]
        exact accounts_nil rfl
      · simp only [if_neg hproto]
        exact (accounts_feedFlow _ w now pkt.val f).congr rfl rfl

theorem accounts_flush (s : TcpTlsHostnameExtractor R P) (w : World R P) (now : Time) :
    Accounts (s.flushEvictions w now) s (s.flush w now) := by
  have hresolved := visits_accounts (fun x key => accounts_resolve x w key none)
    (s.collect w (fun c => c.state = .Wait)) s
  exact (Accounts.trans (hresolved.congr (y := (s.resolveAll w).clear) rfl rfl)
    (accounts_drain _ w now)).congr rfl rfl

theorem accounts_apply (s : TcpTlsHostnameExtractor R P) (w : World R P) (op : Op) :
    Accounts (s.evictions w op) s (op.apply w s) := by
  cases op with
  | feed now pkt => exact accounts_feed s w now pkt
  | tick now => exact accounts_tick s w now
  | flush now => exact accounts_flush s w now

/-- The flows that a run evicts are those that its calls of the two remove. -/
theorem run_evicts (s : TcpTlsHostnameExtractor R P) (w : World R P) (ops : List Op) :
    (ops.foldl (Op.apply w) s).evictedKeys =
      s.evictedKeys ++ (s.runEvictions w ops).flatMap removed :=
  visits_accounts (fun x op => accounts_apply x w op) ops s

end TcpTlsHostnameExtractor

end packet_inspector
