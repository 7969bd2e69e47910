-- The points inside `feed` at which an exception may be thrown, with the
-- state that unwinding leaves there. The argument of `feed` owns the packet
-- until a held list takes it, so the fail-safe of the queue does not see it.
import PacketInspector.Closing
import PacketInspector.Flow
import PacketInspector.Verdicts

open wire packet_inspector.tls runs

namespace packet_inspector

variable {R P : Type} {w : World R P}

/-! ## The points of a throw -/

/-- What may throw while the reassembler has a packet: the reassembler
itself, a copy of its bytes into a stream, the parser's strings, the policy,
and the two buffers that a resolved flow appends to. -/
inductive Work where
  | reassembler
  | append
  | parse
  | ask
  | queue
  | release
  | close
  deriving DecidableEq

/-- Where `feed` throws. `work true` is after the packet was appended to its
flow's held list, `work false` is for a packet that is never held. -/
inductive Point where
  | tick
  | insert
  | giveUp
  | build
  | hold
  | park
  | work (held : Bool) (what : Work)
  deriving DecidableEq

/-- The packet is in a held list or in the decided buffer when this throws. -/
def Point.placed : Point → Bool
  | .work true .queue => false
  | .work true .release => false
  | .work true _ => true
  | _ => false

namespace TcpTlsHostnameExtractor

variable (s : TcpTlsHostnameExtractor R P) (w : World R P)

/-- A table of points, each with the state in which it throws. -/
abbrev Throws (τ R P : Type) := List (τ × TcpTlsHostnameExtractor R P)

/-- The entry of a flow with this verdict, when its held packets are out. -/
def settleEntry (key : UInt32) (hostname : Option Bytes) (c : Conn) : Verdict →
    TcpTlsHostnameExtractor R P
  | .BLOCK => ((s.ask w key hostname).put key (blockConn c)).remember_blocked key
  | .ALLOW => (s.ask w key hostname).forget key

/-- The policy is asked before the held list is moved out of the entry, and
the two appends come after it. -/
def resolveThrows (key : UInt32) (hostname : Option Bytes) : Throws Work R P :=
  match s.conns.find key with
  | none => []
  | some c =>
    if c.state = .Block then []
    else
      let v := (w.decide s.policy hostname).1
      let x := s.settleEntry w key hostname c v
      (.ask, s) ::
      (if c.pcpp_key ≠ 0 ∧ c.pcpp_closed = false then [(.queue, x)] else []) ++
      (List.range c.held.length).map (fun i => (.release, (x.close c).release (c.held.take i) v))

def checkStreamThrows (key : UInt32) (stream : Bytes) : Throws Work R P :=
  match extractHostname stream with
  | .Found host => s.resolveThrows w key (some host)
  | .NotFound => s.resolveThrows w key none
  | .NeedMore => if stream.length > kMaxStreamBytes then s.resolveThrows w key none else []

def onMessageReadyThrows (side : Int) (flowKey : UInt32) (data : Bytes) : Throws Work R P :=
  if s.feeding = false then []
  else if side ≠ kClientSide then []
  else
    match s.conns.find s.current_key with
    | none => []
    | some c =>
      if c.state ≠ .Wait then []
      else
        let named := { c with pcpp_key := flowKey }
        let c := { c with pcpp_key := flowKey, stream := c.stream ++ data }
        let x := s.put s.current_key c
        (.append, s.put s.current_key named) :: (.parse, x) ::
          x.checkStreamThrows w s.current_key c.stream

def onConnectionEndThrows : Throws Work R P :=
  if s.feeding = false then []
  else
    match s.conns.find s.current_key with
    | none => []
    | some c => (s.put s.current_key { c with pcpp_closed := true }).resolveThrows w s.current_key none

def callbackThrows : Callback → Throws Work R P
  | .start _ => []
  | .message side flowKey data => s.onMessageReadyThrows w side flowKey data
  | .finish _ => s.onConnectionEndThrows w

/-- The reassembler may throw before each of its callbacks and after them. -/
def answerThrows (deliver : TcpTlsHostnameExtractor R P → Callback → TcpTlsHostnameExtractor R P)
    (throws : TcpTlsHostnameExtractor R P → Callback → Throws Work R P) :
    TcpTlsHostnameExtractor R P → List Callback → Throws Work R P
  | s, [] => [(.reassembler, s)]
  | s, cb :: cbs =>
    (.reassembler, s) :: throws s cb ++ answerThrows deliver throws (deliver s cb) cbs

def settleThrows (answer : R × List Callback) : Throws Work R P :=
  answerThrows (fun s cb => s.callback w cb) (fun s cb => s.callbackThrows w cb)
    { s with reassembly := answer.1 } answer.2

def drainThrows (now : Time) : TcpTlsHostnameExtractor R P → List UInt32 → Throws Work R P
  | _, [] => []
  | s, token :: tokens =>
    let answer := w.closeConnection s.reassembly now token
    (.close, s) :: s.settleThrows w answer ++ drainThrows now (s.settle w answer) tokens

def reassembleThrows (now : Time) (key : UInt32) (packet : Bytes) : Throws Work R P :=
  let answer := w.reassemblePacket s.reassembly now packet
  let x := s.reassemblePoint w now key packet
  let s := { s with current_key := key, feeding := true, reassembly := answer.1 }
  answerThrows (fun s cb => s.deliver w packet cb)
    (fun s cb => (s.log (.callback packet cb)).callbackThrows w cb) s answer.2 ++
  drainThrows w now x x.to_close

def expireThrows (key : UInt32) : Throws Work R P :=
  match s.conns.find key with
  | none => []
  | some c => if c.state = .Block then [] else s.resolveThrows w key none

def expireAllThrows : TcpTlsHostnameExtractor R P → List UInt32 → Throws Work R P
  | _, [] => []
  | s, key :: keys => s.expireThrows w key ++ expireAllThrows (s.expire w key) keys

/-- The list of idle keys is built first, before anything changes. -/
def sweepThrows (now : Time) : Throws Work R P :=
  let counted := { s with blocked := s.blockedCount }
  let x := counted.expireAll w now
  let answer := w.purgeClosedConnections x.reassembly now
  let y := x.settle w answer
  (.append, s) :: counted.expireAllThrows w (counted.collect w (isIdle now)) ++
    x.settleThrows w answer ++ drainThrows w now y y.to_close

def tickThrows (now : Time) : Throws Point R P :=
  if now - s.lastSweep < kSweepInterval then []
  else (sweepThrows { s with lastSweep := now } w now).map (fun e => (.tick, e.2))

def makeRoomThrows (now : Time) : Throws Point R P :=
  if s.conns.size ≥ s.max_flows then s.tickThrows w now else []

def feedTrackedThrows (now : Time) (pkt : Packet) (f : FlowView) (c : Conn) : Throws Point R P :=
  let key := f.key
  let c := { c with last := now }
  let s := s.put key c
  if c.held.length ≥ kMaxPacketsPerConn then
    (s.resolveThrows w key none).map (fun e => (.giveUp, e.2)) ++ [(.park, s.resolve w key none)]
  else if f.payload_len > 0 then
    let x := s.put key { c with held := c.held ++ [pkt] }
    (.build, s) :: (.hold, s) ::
      (x.reassembleThrows w now key pkt.bytes).map (fun e => (.work true e.1, e.2))
  else if f.tcp_flags &&& (kTcpSyn ||| kTcpFin ||| kTcpRst) = 0 then [(.park, s)]
  else
    (.build, s) :: (s.reassembleThrows w now key pkt.bytes).map (fun e => (.work false e.1, e.2)) ++
      [(.park, s.reassemble w now key pkt.bytes)]

def feedUntrackedThrows (now : Time) (pkt : Packet) (f : FlowView) : Throws Point R P :=
  if opensTracking pkt.bytes f = false then [(.park, s)]
  else
    let x := s.makeRoom w now
    s.makeRoomThrows w now ++
      if x.conns.size ≥ x.max_flows then [(.park, x.refuse)]
      else (.insert, x) :: (x.log (.tracked f.key)).feedTrackedThrows w now pkt f {}

def feedFlowThrows (now : Time) (pkt : Packet) (f : FlowView) : Throws Point R P :=
  match s.conns.find f.key with
  | some c =>
    if c.state = .Block then [(.park, s.put f.key { c with last := now })]
    else s.feedTrackedThrows w now pkt f c
  | none => s.feedUntrackedThrows w now pkt f

/-- Every point at which `feed` may throw, in order. -/
def feedThrows (now : Time) (pkt : Packet) : Throws Point R P :=
  let x := s.tick w now
  s.tickThrows w now ++
    if pkt.has_bytes = false then [(.park, x)]
    else
      match pkt.flow_view {} with
      | (false, _) => [(.park, x)]
      | (true, f) => if f.ip_proto ≠ kProtoTcp then [(.park, x)] else x.feedFlowThrows w now pkt f

end TcpTlsHostnameExtractor

/-! ## The handler -/

/-- What `handle` leaves when its callback throws in the state `x`. The
packet was moved into the argument of `feed`, so that unwinding destroys it
and the fail-safe sees what the move left. -/
def Worker.unwind (wk : Worker R P) (nfq_set_verdict : SetVerdict)
    (x : TcpTlsHostnameExtractor R P) : Worker R P :=
  failSafe { wk.receive with tls := x.publish } nfq_set_verdict Packet.husk

/-- The outcomes of `handle` with the inspecting callback: it returns with
no exception, or one was thrown at a point of `feed`. -/
inductive Handled (w : World R P) (k : SetVerdict) (wk : Worker R P) (now : Time) (nfa : NfqData) :
    Option Point → Worker R P → Prop
  | returned : Handled w k wk now nfa none (wk.handle w k now nfa)
  | threw (pt : Point) (x : TcpTlsHostnameExtractor R P) :
      (pt, x) ∈ wk.tls.feedThrows w now nfa.packet → Handled w k wk now nfa (some pt) (wk.unwind k x)

namespace TcpTlsHostnameExtractor

variable {s x : TcpTlsHostnameExtractor R P} {now : Time} {key : UInt32} {t : UInt32 × Bytes}

/-- A packet with this tag is decided, or a flow holds it. -/
def Here (t : UInt32 × Bytes) (s : TcpTlsHostnameExtractor R P) : Prop :=
  (∃ d ∈ s.decided, d.pkt.tag = t) ∨
  ∃ key c, s.conns.find key = some c ∧ ∃ p ∈ c.held, p.tag = t

/-! ## No packet appears by itself -/

section Keeps

variable {Q : Packet → Prop}

theorem not_here_iff : ¬ Here t s ↔ AllPackets (fun p => p.tag ≠ t) s := by
  refine ⟨fun h => ⟨?_, ?_⟩, fun h => ?_⟩
  · intro d hd he
    exact h (.inl ⟨d, hd, he⟩)
  · intro k c hl p hp he
    exact h (.inr ⟨k, c, hl, p, hp, he⟩)
  · rintro (⟨d, hd, he⟩ | ⟨k, c, hl, p, hp, he⟩)
    · exact h.decided d hd he
    · exact h.held k c hl p hp he

theorem AllPackets.close (h : AllPackets Q s) (c : Conn) : AllPackets Q (s.close c) :=
  ⟨h.decided, h.held⟩

theorem AllPackets.checkStream (h : AllPackets Q s) (key : UInt32) (stream : Bytes) :
    AllPackets Q (s.checkStream w key stream) := by
  unfold TcpTlsHostnameExtractor.checkStream
  split
  · exact h.resolve key _
  · exact h.resolve key _
  · split
    · exact h.resolve key _
    · exact h

theorem AllPackets.callback (h : AllPackets Q s) (cb : Callback) :
    AllPackets Q (s.callback w cb) := by
  have hput : ∀ c c', s.conns.find s.current_key = some c → c'.held = c.held →
      AllPackets Q (s.put s.current_key c') := by
    intro c c' hl he
    exact h.put s.current_key (he ▸ h.held s.current_key c hl)
  cases cb with
  | start tok =>
    simp only [TcpTlsHostnameExtractor.callback, onConnectionStart]
    split
    · exact h
    · split
      · exact h
      · rename_i c hl
        exact hput c _ hl rfl
  | message side tok data =>
    simp only [TcpTlsHostnameExtractor.callback, onMessageReady]
    split
    · exact h
    · split
      · exact h
      · split
        · exact h
        · rename_i c hl
          split
          · exact h
          · refine AllPackets.checkStream ?_ s.current_key _
            exact hput c _ hl rfl
  | finish tok =>
    simp only [TcpTlsHostnameExtractor.callback, onConnectionEnd]
    split
    · exact h
    · split
      · exact h
      · rename_i c hl
        refine AllPackets.resolve ?_ s.current_key none
        exact hput c _ hl rfl

theorem AllPackets.deliver (h : AllPackets Q s) (packet : Bytes) (cb : Callback) :
    AllPackets Q (s.deliver w packet cb) :=
  AllPackets.callback (s := s.log (.callback packet cb)) ⟨h.decided, h.held⟩ cb

theorem AllPackets.settle (h : AllPackets Q s) (answer : R × List Callback) :
    AllPackets Q (s.settle w answer) :=
  foldl_keeps (I := AllPackets Q) (fun _ cb hx => hx.callback cb) answer.2 _ ⟨h.decided, h.held⟩

theorem AllPackets.drain_closes (h : AllPackets Q s) (now : Time) :
    AllPackets Q (s.drain_closes w now) := by
  have hfold := foldl_keeps (I := AllPackets Q)
    (f := fun x tok => x.settle w (w.closeConnection x.reassembly now tok))
    (fun _ _ hx => hx.settle _) s.to_close s h
  exact ⟨hfold.decided, hfold.held⟩

theorem AllPackets.expire (h : AllPackets Q s) (key : UInt32) : AllPackets Q (s.expire w key) := by
  unfold TcpTlsHostnameExtractor.expire
  split
  · exact h
  · split
    · have hforget := h.forget key
      exact ⟨hforget.decided, hforget.held⟩
    · exact h.resolve key none

theorem AllPackets.expireAll (h : AllPackets Q s) (now : Time) :
    AllPackets Q (s.expireAll w now) :=
  foldl_keeps (I := AllPackets Q) (fun _ key hx => hx.expire key) _ s h

theorem AllPackets.sweep (h : AllPackets Q s) (now : Time) : AllPackets Q (s.sweep w now) := by
  have hexpired : AllPackets Q
      (TcpTlsHostnameExtractor.expireAll { s with blocked := s.blockedCount } w now) :=
    AllPackets.expireAll (s := { s with blocked := s.blockedCount }) ⟨h.decided, h.held⟩ now
  have hdrained := AllPackets.drain_closes (w := w) (hexpired.settle (w := w) (w.purgeClosedConnections
    (TcpTlsHostnameExtractor.expireAll { s with blocked := s.blockedCount } w now).reassembly now)) now
  exact ⟨hdrained.decided, hdrained.held⟩

theorem AllPackets.tick (h : AllPackets Q s) (now : Time) : AllPackets Q (s.tick w now) := by
  unfold TcpTlsHostnameExtractor.tick
  split
  · exact h
  · exact AllPackets.sweep (s := { s with lastSweep := now }) ⟨h.decided, h.held⟩ now

theorem AllPackets.evict (h : AllPackets Q s) (victim : UInt32) : AllPackets Q (s.evict victim) := by
  have hforget := h.forget victim
  exact ⟨hforget.decided, hforget.held⟩

theorem AllPackets.evictTurns (left : Nat) :
    ∀ {s : TcpTlsHostnameExtractor R P}, AllPackets Q s → AllPackets Q (evictTurns left s).2 := by
  induction left with
  | zero => exact fun h => h
  | succ left ih =>
    intro s h
    have hturn : AllPackets Q (s.turn 0) := ⟨h.decided, h.held⟩
    unfold TcpTlsHostnameExtractor.evictTurns
    split
    · exact hturn.evict s.oldest
    · exact ih hturn

theorem AllPackets.makeRoom (h : AllPackets Q s) (now : Time) : AllPackets Q (s.makeRoom w now) := by
  unfold TcpTlsHostnameExtractor.makeRoom
  split
  · dsimp only
    split
    · exact AllPackets.evictTurns _ (h.tick now)
    · exact h.tick now
  · exact h

theorem AllPackets.reassemblePoint (h : AllPackets Q s) (now : Time) (key : UInt32)
    (packet : Bytes) : AllPackets Q (s.reassemblePoint w now key packet) := by
  have hfold := foldl_keeps (I := AllPackets Q) (f := fun x cb => x.deliver w packet cb)
    (fun _ cb hx => hx.deliver packet cb) (w.reassemblePacket s.reassembly now packet).2
    { s with
      current_key := key, feeding := true
      reassembly := (w.reassemblePacket s.reassembly now packet).1 } ⟨h.decided, h.held⟩
  exact ⟨hfold.decided, hfold.held⟩

theorem AllPackets.reassemble (h : AllPackets Q s) (now : Time) (key : UInt32) (packet : Bytes) :
    AllPackets Q (s.reassemble w now key packet) := by
  rw [reassemble_drains]
  exact (h.reassemblePoint now key packet).drain_closes now

end Keeps

/-! ## The throws that lose nothing new -/

section Lost

variable {Q : Packet → Prop}

/-- A flow whose packets are out leaves those of the others. -/
theorem AllPackets.settleEntry (h : AllPackets Q (s.forget key)) (hostname : Option Bytes)
    (c : Conn) (v : Verdict) : AllPackets Q (s.settleEntry w key hostname c v) := by
  cases v with
  | ALLOW => exact ⟨h.decided, h.held⟩
  | BLOCK =>
    have hput : AllPackets Q ((s.ask w key hostname).put key (blockConn c)) :=
      AllPackets.put_of_forget (s := s.ask w key hostname) ⟨h.decided, h.held⟩
        (fun p hp => by cases hp)
    exact hput.remember_blocked key

theorem resolveThrows_all (h : AllPackets Q s) (key : UInt32) (hostname : Option Bytes) :
    ∀ e ∈ s.resolveThrows w key hostname, AllPackets Q e.2 := by
  intro e he
  unfold resolveThrows at he
  split at he
  · cases he
  · rename_i c hl
    split at he
    · cases he
    · have hout := (h.forget key).settleEntry (w := w) hostname c (w.decide s.policy hostname).1
      simp only [List.cons_append, List.mem_cons, List.mem_append, List.mem_map] at he
      rcases he with rfl | he | ⟨i, -, rfl⟩
      · exact h
      · split at he
        · rw [List.mem_singleton.mp he]
          exact hout
        · cases he
      · refine AllPackets.release (hout.close c) ?_ _
        intro p hp
        exact h.held key c hl p (List.mem_of_mem_take hp)

theorem checkStreamThrows_all (h : AllPackets Q s) (key : UInt32) (stream : Bytes) :
    ∀ e ∈ s.checkStreamThrows w key stream, AllPackets Q e.2 := by
  unfold checkStreamThrows
  split
  · exact resolveThrows_all h key _
  · exact resolveThrows_all h key _
  · split
    · exact resolveThrows_all h key _
    · exact fun e he => by cases he

theorem callbackThrows_all (h : AllPackets Q s) (cb : Callback) :
    ∀ e ∈ s.callbackThrows w cb, AllPackets Q e.2 := by
  have hput : ∀ c c', s.conns.find s.current_key = some c → c'.held = c.held →
      AllPackets Q (s.put s.current_key c') := by
    intro c c' hl he
    exact h.put s.current_key (he ▸ h.held s.current_key c hl)
  intro e he
  cases cb with
  | start tok => cases he
  | message side tok data =>
    simp only [callbackThrows, onMessageReadyThrows] at he
    split at he
    · cases he
    · split at he
      · cases he
      · split at he
        · cases he
        · rename_i c hl
          split at he
          · cases he
          · rcases List.mem_cons.mp he with rfl | he
            · exact hput c _ hl rfl
            · rcases List.mem_cons.mp he with rfl | he
              · exact hput c _ hl rfl
              · refine checkStreamThrows_all ?_ s.current_key _ e he
                exact hput c _ hl rfl
  | finish tok =>
    simp only [callbackThrows, onConnectionEndThrows] at he
    split at he
    · cases he
    · split at he
      · cases he
      · rename_i c hl
        refine resolveThrows_all ?_ s.current_key none e he
        exact hput c _ hl rfl

/-- What the callbacks keep says what holds where one of them throws. -/
theorem answerThrows_law
    {deliver : TcpTlsHostnameExtractor R P → Callback → TcpTlsHostnameExtractor R P}
    {throws : TcpTlsHostnameExtractor R P → Callback → Throws Work R P}
    {I : TcpTlsHostnameExtractor R P → Prop} {J : Work × TcpTlsHostnameExtractor R P → Prop}
    (hdeliver : ∀ x cb, I x → I (deliver x cb)) (hself : ∀ x, I x → J (.reassembler, x))
    (hthrows : ∀ x cb, I x → ∀ e ∈ throws x cb, J e) (cbs : List Callback) :
    ∀ {s : TcpTlsHostnameExtractor R P}, I s → ∀ e ∈ answerThrows deliver throws s cbs, J e := by
  induction cbs with
  | nil =>
    intro s h e he
    rw [List.mem_singleton.mp he]
    exact hself s h
  | cons cb cbs ih =>
    intro s h e he
    simp only [answerThrows, List.cons_append, List.mem_cons, List.mem_append] at he
    rcases he with rfl | he | he
    · exact hself s h
    · exact hthrows s cb h e he
    · exact ih (hdeliver s cb h) e he

theorem settleThrows_all (h : AllPackets Q s) (answer : R × List Callback) :
    ∀ e ∈ s.settleThrows w answer, AllPackets Q e.2 :=
  answerThrows_law (I := AllPackets Q) (J := fun e => AllPackets Q e.2)
    (fun _ cb hx => hx.callback cb) (fun _ hx => hx) (fun _ cb hx => callbackThrows_all hx cb)
    answer.2 ⟨h.decided, h.held⟩

theorem drainThrows_law {I : TcpTlsHostnameExtractor R P → Prop}
    {J : Work × TcpTlsHostnameExtractor R P → Prop} (now : Time)
    (hsettle : ∀ x answer, I x → I (x.settle w answer)) (hself : ∀ x, I x → J (.close, x))
    (hthrows : ∀ x answer, I x → ∀ e ∈ x.settleThrows w answer, J e) (toks : List UInt32) :
    ∀ {s : TcpTlsHostnameExtractor R P}, I s → ∀ e ∈ drainThrows w now s toks, J e := by
  induction toks with
  | nil => exact fun _ e he => by cases he
  | cons tok toks ih =>
    intro s h e he
    simp only [drainThrows, List.cons_append, List.mem_cons, List.mem_append] at he
    rcases he with rfl | he | he
    · exact hself s h
    · exact hthrows s _ h e he
    · exact ih (hsettle s _ h) e he

theorem drainThrows_all (h : AllPackets Q s) (now : Time) (toks : List UInt32) :
    ∀ e ∈ drainThrows w now s toks, AllPackets Q e.2 :=
  drainThrows_law (I := AllPackets Q) (J := fun e => AllPackets Q e.2) now
    (fun _ answer hx => hx.settle answer) (fun _ hx => hx)
    (fun _ answer hx => settleThrows_all hx answer) toks h

theorem expireAllThrows_all (keys : List UInt32) :
    ∀ {s : TcpTlsHostnameExtractor R P}, AllPackets Q s →
      ∀ e ∈ s.expireAllThrows w keys, AllPackets Q e.2 := by
  induction keys with
  | nil => exact fun _ e he => by cases he
  | cons key keys ih =>
    intro s h e he
    rcases List.mem_append.mp he with he | he
    · unfold expireThrows at he
      split at he
      · cases he
      · split at he
        · cases he
        · exact resolveThrows_all h key none e he
    · exact ih (h.expire key) e he

theorem sweepThrows_all (h : AllPackets Q s) (now : Time) :
    ∀ e ∈ s.sweepThrows w now, AllPackets Q e.2 := by
  have hcounted : AllPackets Q { s with blocked := s.blockedCount } := ⟨h.decided, h.held⟩
  have hexpired := hcounted.expireAll (w := w) now
  intro e he
  simp only [sweepThrows, List.cons_append, List.mem_cons, List.mem_append] at he
  rcases he with rfl | (he | he) | he
  · exact h
  · exact expireAllThrows_all _ hcounted e he
  · exact settleThrows_all hexpired _ e he
  · exact drainThrows_all (hexpired.settle _) now _ e he

theorem tickThrows_all (h : AllPackets Q s) (now : Time) :
    ∀ e ∈ s.tickThrows w now, e.1 = .tick ∧ AllPackets Q e.2 := by
  intro e he
  unfold tickThrows at he
  split at he
  · cases he
  · obtain ⟨e', he', rfl⟩ := List.mem_map.mp he
    exact ⟨rfl, sweepThrows_all (s := { s with lastSweep := now }) ⟨h.decided, h.held⟩ now e' he'⟩

theorem reassembleThrows_all (h : AllPackets Q s) (now : Time) (key : UInt32) (packet : Bytes) :
    ∀ e ∈ s.reassembleThrows w now key packet, AllPackets Q e.2 := by
  intro e he
  have hstart : AllPackets Q { s with
      current_key := key, feeding := true
      reassembly := (w.reassemblePacket s.reassembly now packet).1 } := ⟨h.decided, h.held⟩
  rcases List.mem_append.mp he with he | he
  · exact answerThrows_law (I := AllPackets Q) (J := fun e => AllPackets Q e.2)
      (fun _ cb hx => hx.deliver packet cb) (fun _ hx => hx)
      (fun x cb hx => callbackThrows_all (s := x.log (.callback packet cb)) ⟨hx.decided, hx.held⟩ cb)
      _ hstart e he
  · exact drainThrows_all (h.reassemblePoint now key packet) now _ e he

end Lost

/-! ## The throws around a packet that is held -/

section Held

variable {packet : Bytes} {f : FlowView}

/-- The packet is the last that the waiting flow `key` holds, and is nowhere
else. -/
def Last (key : UInt32) (t : UInt32 × Bytes) (s : TcpTlsHostnameExtractor R P) : Prop :=
  ∃ c hs p, s.conns.find key = some c ∧ c.state = .Wait ∧ c.held = hs ++ [p] ∧ p.tag = t ∧
    (∀ q ∈ hs, q.tag ≠ t) ∧ AllPackets (fun q => q.tag ≠ t) (s.forget key)

/-- The packet is decided, and its flow no longer waits. -/
def Out (key : UInt32) (t : UInt32 × Bytes) (s : TcpTlsHostnameExtractor R P) : Prop :=
  (∃ d ∈ s.decided, d.pkt.tag = t) ∧ s.waits key = none

theorem Last.here (h : Last key t s) : Here t s := by
  obtain ⟨c, hs, p, hl, -, hheld, ht, -, -⟩ := h
  exact .inr ⟨key, c, hl, p, by simp [hheld], ht⟩

theorem Last.congr (h : Last key t s) (hconns : x.conns = s.conns)
    (hdecided : x.decided = s.decided) : Last key t x := by
  obtain ⟨c, hs, p, hl, hc, hheld, ht, hhs, hothers⟩ := h
  refine ⟨c, hs, p, hconns ▸ hl, hc, hheld, ht, hhs, hothers.of_find hdecided ?_⟩
  intro k c' hk
  rwa [forget_conns, hconns] at hk

theorem Last.log (h : Last key t s) (e : Event) : Last key t (s.log e) := h.congr rfl rfl

theorem Last.put {c c' : Conn} (h : Last key t s) (hl : s.conns.find key = some c)
    (hstate : c'.state = c.state) (hheld : c'.held = c.held) : Last key t (s.put key c') := by
  obtain ⟨c0, hs, p, hl0, hc, hh, ht, hhs, hothers⟩ := h
  rw [hl] at hl0
  cases hl0
  refine ⟨c', hs, p, AList.find_insert_self _ _ _, hstate.trans hc, hheld.trans hh, ht, hhs, ?_⟩
  refine hothers.of_find rfl ?_
  intro k c'' hk
  rw [forget_conns, AList.find_erase] at hk ⊢
  split at hk
  · cases hk
  · rename_i hne
    rw [if_neg hne]
    rwa [put_conns, AList.find_insert_of_ne _ _ hne] at hk

theorem Last.resolve (h : Last key t s) (hostname : Option Bytes) :
    Out key t (s.resolve w key hostname) := by
  obtain ⟨c, hs, p, hl, hc, hheld, ht, -, -⟩ := h
  have hwrite := resolve_write w hostname (waits_eq_some.mpr ⟨c, hl, hc, rfl⟩)
  refine ⟨?_, ?_⟩
  · rw [resolve_decided hl hc, hheld]
    exact ⟨⟨p, (w.decide s.policy hostname).1⟩, by simp, ht⟩
  · rw [hwrite.waits, if_pos rfl]

theorem Last.checkStream (h : Last key t s) (stream : Bytes) :
    Last key t (s.checkStream w key stream) ∨ Out key t (s.checkStream w key stream) := by
  unfold TcpTlsHostnameExtractor.checkStream
  split
  · exact .inr (h.resolve _)
  · exact .inr (h.resolve _)
  · split
    · exact .inr (h.resolve _)
    · exact .inl h

theorem Out.deliver (hf : flowOf packet = some f) (hin : s.inside = (true, f.key)) (cb : Callback)
    (h : Out f.key t s) : Out f.key t (s.deliver w packet cb) := by
  obtain ⟨⟨d, hd, ht⟩, hnone⟩ := h
  have hpath : Path w 0 (.feed packet) s (s.deliver w packet cb) ∧ _ := deliver_path hf rfl hin cb
  refine ⟨⟨d, (path_decided hpath.1).subset hd, ht⟩, ?_⟩
  rw [(deliver_alike packet cb hin hnone).waits]
  exact hnone

theorem Last.deliver (packet : Bytes) (hin : s.inside = (true, key)) (cb : Callback)
    (h : Last key t s) : Last key t (s.deliver w packet cb) ∨ Out key t (s.deliver w packet cb) := by
  have hlog : ∀ e, Last key t (s.log e) := fun e => h.log e
  obtain ⟨c, -, -, hl, hc, -⟩ := id h
  cases cb with
  | start tok =>
    rw [deliver_start tok hin hl]
    exact .inl ((hlog _).put hl rfl rfl)
  | finish tok =>
    rw [deliver_finish tok hin hl]
    refine .inr (Last.resolve ?_ none)
    exact (hlog _).put hl rfl rfl
  | message side tok data =>
    by_cases hside : side = kClientSide
    · subst hside
      rw [deliver_message_wait tok data hin hl hc]
      refine Last.checkStream ?_ _
      exact (hlog _).put hl rfl rfl
    · rw [deliver_other_side tok data hside]
      exact .inl (hlog _)

/-- The policy throws with the packets still held. The two appends throw
with all of them out of the entry, and the last of them not yet decided. -/
theorem Last.resolveThrows (h : Last key t s) (hostname : Option Bytes) :
    ∀ e ∈ s.resolveThrows w key hostname, Here t e.2 ↔ (Point.work true e.1).placed = true := by
  obtain ⟨c, hs, p, hl, hc, hheld, ht, hhs, hothers⟩ := id h
  have hout := hothers.settleEntry (w := w) hostname c (w.decide s.policy hostname).1
  intro e he
  unfold TcpTlsHostnameExtractor.resolveThrows at he
  simp only [hl, hc, reduceCtorEq, if_false] at he
  simp only [List.cons_append, List.mem_cons, List.mem_append, List.mem_map] at he
  rcases he with rfl | he | ⟨i, hi, rfl⟩
  · simpa [Point.placed] using h.here
  · split at he
    · rw [List.mem_singleton.mp he]
      simpa [Point.placed] using not_here_iff.mpr hout
    · cases he
  · have hfew : ∀ q ∈ c.held.take i, q.tag ≠ t := by
      intro q hq
      rw [hheld] at hq hi
      have hle : i ≤ hs.length := by
        rw [List.length_append, List.length_singleton, List.mem_range] at hi
        omega
      rw [List.take_append_of_le_length hle] at hq
      exact hhs q (List.mem_of_mem_take hq)
    have hrelease := (hout.close c).release hfew (w.decide s.policy hostname).1
    simpa [Point.placed] using not_here_iff.mpr hrelease

theorem Last.checkStreamThrows (h : Last key t s) (stream : Bytes) :
    ∀ e ∈ s.checkStreamThrows w key stream, Here t e.2 ↔ (Point.work true e.1).placed = true := by
  unfold TcpTlsHostnameExtractor.checkStreamThrows
  split
  · exact h.resolveThrows _
  · exact h.resolveThrows _
  · split
    · exact h.resolveThrows _
    · exact fun e he => by cases he

theorem Last.callbackThrows (hin : s.inside = (true, key)) (cb : Callback) (h : Last key t s) :
    ∀ e ∈ s.callbackThrows w cb, Here t e.2 ↔ (Point.work true e.1).placed = true := by
  have hfeed : s.feeding = true := congrArg Prod.fst hin
  have hkey : s.current_key = key := congrArg Prod.snd hin
  obtain ⟨c, -, -, hl, hc, -⟩ := id h
  have hput : ∀ c', c'.state = c.state → c'.held = c.held → Last key t (s.put key c') :=
    fun c' h1 h2 => h.put hl h1 h2
  intro e he
  cases cb with
  | start tok => cases he
  | finish tok =>
    simp only [TcpTlsHostnameExtractor.callbackThrows, onConnectionEndThrows, hfeed, hkey, hl,
      Bool.true_eq_false, if_false] at he
    refine Last.resolveThrows ?_ none e he
    exact hput _ rfl rfl
  | message side tok data =>
    by_cases hside : side = kClientSide
    · have hwait : (¬ c.state = .Wait) = False := by simp [hc]
      simp only [TcpTlsHostnameExtractor.callbackThrows, onMessageReadyThrows, hfeed, hkey, hl, hwait,
        hside, Bool.true_eq_false, if_false, ne_eq, not_true_eq_false] at he
      rcases List.mem_cons.mp he with rfl | he
      · have hhere := (hput { c with pcpp_key := tok } rfl rfl).here
        simpa [Point.placed] using hhere
      · have hlast := hput { c with pcpp_key := tok, stream := c.stream ++ data } rfl rfl
        rcases List.mem_cons.mp he with rfl | he
        · simpa [Point.placed] using hlast.here
        · exact hlast.checkStreamThrows _ e he
    · simp [TcpTlsHostnameExtractor.callbackThrows, onMessageReadyThrows, hfeed, hside] at he

/-- A flow that no longer waits is not resolved again. -/
theorem Out.callbackThrows (hin : s.inside = (true, key)) (cb : Callback) (h : Out key t s) :
    s.callbackThrows w cb = [] := by
  have hkey : s.current_key = key := congrArg Prod.snd hin
  cases hl : s.conns.find key with
  | none =>
    cases cb with
    | start tok => rfl
    | finish tok => simp [TcpTlsHostnameExtractor.callbackThrows, onConnectionEndThrows, hkey, hl]
    | message side tok data =>
      simp [TcpTlsHostnameExtractor.callbackThrows, onMessageReadyThrows, hkey, hl]
  | some c =>
    have hc := waits_eq_none.mp h.2 c hl
    cases cb with
    | start tok => rfl
    | finish tok =>
      simp [TcpTlsHostnameExtractor.callbackThrows, onConnectionEndThrows, hkey, hl,
        TcpTlsHostnameExtractor.resolveThrows, hc]
    | message side tok data =>
      simp [TcpTlsHostnameExtractor.callbackThrows, onMessageReadyThrows, hkey, hl, hc]

/-- What the callbacks for a packet keep of it. -/
def During (key : UInt32) (t : UInt32 × Bytes) (s : TcpTlsHostnameExtractor R P) : Prop :=
  s.inside = (true, key) ∧ (Last key t s ∨ Out key t s)

theorem During.here (h : During key t s) : Here t s :=
  h.2.elim Last.here (fun hout => .inl hout.1)

theorem During.deliver (hf : flowOf packet = some f) (cb : Callback) (h : During f.key t s) :
    During f.key t (s.deliver w packet cb) := by
  obtain ⟨hin, hs⟩ := h
  refine ⟨deliver_inside hf hin cb, ?_⟩
  rcases hs with hlast | hout
  · exact hlast.deliver packet hin cb
  · exact .inr (hout.deliver hf hin cb)

theorem During.callbackThrows (packet : Bytes) (cb : Callback) (h : During key t s) :
    ∀ e ∈ (s.log (.callback packet cb)).callbackThrows w cb,
      Here t e.2 ↔ (Point.work true e.1).placed = true := by
  obtain ⟨hin, hs⟩ := h
  have hin' : (s.log (.callback packet cb)).inside = (true, key) := hin
  rcases hs with hlast | hout
  · exact (hlast.log _).callbackThrows hin' cb
  · have hout' : Out key t (s.log (.callback packet cb)) := hout
    rw [hout'.callbackThrows hin' cb]
    exact fun e he => by cases he

/-- The call into the reassembler ends with the packet held or decided. -/
theorem Last.reassemblePoint (now : Time) (hf : flowOf packet = some f) (h : Last f.key t s) :
    Here t (s.reassemblePoint w now f.key packet) := by
  have hfold := foldl_keeps (I := During f.key t) (f := fun x cb => x.deliver w packet cb)
    (fun _ cb hx => hx.deliver hf cb) (w.reassemblePacket s.reassembly now packet).2
    { s with
      current_key := f.key, feeding := true
      reassembly := (w.reassemblePacket s.reassembly now packet).1 }
    ⟨rfl, .inl (h.congr rfl rfl)⟩
  exact hfold.here

theorem Here.settle (hfeed : s.feeding = false) (answer : R × List Callback) (h : Here t s) :
    Here t (s.settle w answer) := by
  rw [settle_of_not_feeding answer hfeed]
  exact h

theorem settleThrows_here (hfeed : s.feeding = false) (answer : R × List Callback) (h : Here t s) :
    ∀ e ∈ s.settleThrows w answer, Here t e.2 ↔ (Point.work true e.1).placed = true := by
  refine answerThrows_law (I := fun x => x.feeding = false ∧ Here t x) ?_ ?_ ?_ answer.2 ⟨hfeed, h⟩
  · rintro x cb ⟨hx, hh⟩
    rw [callback_of_not_feeding cb hx]
    exact ⟨hx, hh⟩
  · rintro x ⟨-, hh⟩
    simpa [Point.placed] using hh
  · rintro x cb ⟨hx, -⟩ e he
    cases cb with
    | start tok => cases he
    | message side tok data => simp [callbackThrows, onMessageReadyThrows, hx] at he
    | finish tok => simp [callbackThrows, onConnectionEndThrows, hx] at he

theorem drainThrows_here (now : Time) (hfeed : s.feeding = false) (h : Here t s)
    (toks : List UInt32) :
    ∀ e ∈ drainThrows w now s toks, Here t e.2 ↔ (Point.work true e.1).placed = true := by
  refine drainThrows_law (I := fun x => x.feeding = false ∧ Here t x) now ?_ ?_ ?_ toks ⟨hfeed, h⟩
  · rintro x answer ⟨hx, hh⟩
    refine ⟨?_, hh.settle hx answer⟩
    rw [settle_of_not_feeding answer hx]
    exact hx
  · rintro x ⟨-, hh⟩
    simpa [Point.placed] using hh
  · rintro x answer ⟨hx, hh⟩
    exact settleThrows_here hx answer hh

theorem Last.reassembleThrows (now : Time) (hf : flowOf packet = some f) (h : Last f.key t s) :
    ∀ e ∈ s.reassembleThrows w now f.key packet,
      Here t e.2 ↔ (Point.work true e.1).placed = true := by
  have hstart : During f.key t { s with
      current_key := f.key, feeding := true
      reassembly := (w.reassemblePacket s.reassembly now packet).1 } :=
    ⟨rfl, .inl (h.congr rfl rfl)⟩
  intro e he
  rcases List.mem_append.mp he with he | he
  · refine answerThrows_law (I := During f.key t) (fun _ cb hx => hx.deliver hf cb) ?_
      (fun _ cb hx => hx.callbackThrows packet cb) _ hstart e he
    intro x hx
    simpa [Point.placed] using hx.here
  · exact drainThrows_here now rfl (h.reassemblePoint now hf) _ e he

/-! ## The throws of a call -/

variable {p : Packet} {c : Conn}

theorem here_decide (s : TcpTlsHostnameExtractor R P) (p : Packet) (v : Verdict) :
    Here p.tag (s.decide p v) := .inl ⟨⟨p, v⟩, by simp, rfl⟩

/-- A packet that is appended to its flow is its last one. -/
theorem last_put (h : ¬ Here p.tag s) (hl : ∀ q ∈ c.held, q.tag ≠ p.tag) (hc : c.state = .Wait) :
    Last key p.tag (s.put key { c with held := c.held ++ [p] }) := by
  refine ⟨_, c.held, p, AList.find_insert_self _ _ _, hc, rfl, rfl, hl, ?_⟩
  have hall := (not_here_iff.mp h).forget key
  refine hall.of_find rfl ?_
  intro k c' hk
  rw [forget_conns, AList.find_erase] at hk ⊢
  split at hk
  · cases hk
  · rename_i hne
    rw [if_neg hne]
    rwa [put_conns, AList.find_insert_of_ne _ _ hne] at hk

theorem feedTrackedThrows_iff (now : Time) (hf : flowOf p.bytes = some f) (h : ¬ Here p.tag s)
    (hheld : ∀ q ∈ c.held, q.tag ≠ p.tag) (hc : c.state = .Wait) :
    ∀ e ∈ s.feedTrackedThrows w now p f c, Here p.tag e.2 ↔ e.1.placed = true := by
  have hput : AllPackets (fun q => q.tag ≠ p.tag) (s.put f.key { c with last := now }) :=
    (not_here_iff.mp h).put f.key hheld
  have hlost : ∀ (pt : Point) (x : TcpTlsHostnameExtractor R P), pt.placed = false →
      AllPackets (fun q => q.tag ≠ p.tag) x → (Here p.tag x ↔ pt.placed = true) := by
    intro pt x hpt hx
    simpa [hpt] using not_here_iff.mpr hx
  intro e he
  simp only [feedTrackedThrows] at he
  split at he
  · rcases List.mem_append.mp he with he | he
    · obtain ⟨e', he', rfl⟩ := List.mem_map.mp he
      exact hlost _ _ rfl (resolveThrows_all hput f.key none e' he')
    · rw [List.mem_singleton.mp he]
      exact hlost _ _ rfl (hput.resolve f.key none)
  · split at he
    · rcases List.mem_cons.mp he with rfl | he
      · exact hlost _ _ rfl hput
      · rcases List.mem_cons.mp he with rfl | he
        · exact hlost _ _ rfl hput
        · obtain ⟨e', he', rfl⟩ := List.mem_map.mp he
          refine Last.reassembleThrows now hf ?_ e' he'
          exact last_put (c := { c with last := now }) (not_here_iff.mpr hput) hheld hc
    · split at he
      · rw [List.mem_singleton.mp he]
        exact hlost _ _ rfl hput
      · simp only [List.cons_append, List.mem_cons, List.mem_append, List.mem_map,
          List.not_mem_nil, or_false] at he
        rcases he with rfl | ⟨e', he', rfl⟩ | rfl
        · exact hlost _ _ rfl hput
        · exact hlost _ _ rfl (reassembleThrows_all hput now f.key p.bytes e' he')
        · exact hlost _ _ rfl (hput.reassemble now f.key p.bytes)

theorem feedUntrackedThrows_iff (now : Time) (hf : flowOf p.bytes = some f) (h : ¬ Here p.tag s) :
    ∀ e ∈ s.feedUntrackedThrows w now p f, Here p.tag e.2 ↔ e.1.placed = true := by
  have hroom : ¬ Here p.tag (s.makeRoom w now) :=
    not_here_iff.mpr ((not_here_iff.mp h).makeRoom now)
  intro e he
  unfold feedUntrackedThrows at he
  split at he
  · rw [List.mem_singleton.mp he]
    simpa [Point.placed] using h
  · rcases List.mem_append.mp he with he | he
    · unfold makeRoomThrows at he
      split at he
      · obtain ⟨hpt, hall⟩ := tickThrows_all (not_here_iff.mp h) now e he
        simpa [hpt, Point.placed] using not_here_iff.mpr hall
      · cases he
    · split at he
      · have hrefuse : ¬ Here p.tag (s.makeRoom w now).refuse := hroom
        rw [List.mem_singleton.mp he]
        simpa [Point.placed] using hrefuse
      · rcases List.mem_cons.mp he with rfl | he
        · simpa [Point.placed] using hroom
        · have hlog : ¬ Here p.tag ((s.makeRoom w now).log (.tracked f.key)) := hroom
          exact feedTrackedThrows_iff (c := {}) now hf hlog (fun q hq => by cases hq) rfl e he

theorem feedFlowThrows_iff (now : Time) (hf : flowOf p.bytes = some f) (h : ¬ Here p.tag s) :
    ∀ e ∈ s.feedFlowThrows w now p f, Here p.tag e.2 ↔ e.1.placed = true := by
  intro e he
  unfold feedFlowThrows at he
  split at he
  · rename_i c hl
    have hheld := (not_here_iff.mp h).held f.key c hl
    split at he
    · have hput := (not_here_iff.mp h).put f.key (c := { c with last := now }) hheld
      rw [List.mem_singleton.mp he]
      simpa [Point.placed] using not_here_iff.mpr hput
    · rename_i hc
      have hwait : c.state = .Wait := by
        cases hst : c.state with
        | Wait => rfl
        | Block => exact absurd hst hc
      exact feedTrackedThrows_iff now hf h hheld hwait e he
  · exact feedUntrackedThrows_iff now hf h e he

/-- Where `feed` throws, the packet is in the extractor exactly at the points
after its flow took it, but for those between two owners. -/
theorem feedThrows_iff (pkt : Arrival) (now : Time) (h : ¬ Here pkt.val.tag s) :
    ∀ e ∈ s.feedThrows w now pkt.val, Here pkt.val.tag e.2 ↔ e.1.placed = true := by
  have htick : ¬ Here pkt.val.tag (s.tick w now) :=
    not_here_iff.mpr ((not_here_iff.mp h).tick now)
  intro e he
  unfold feedThrows at he
  rcases List.mem_append.mp he with he | he
  · obtain ⟨hpt, hall⟩ := tickThrows_all (not_here_iff.mp h) now e he
    simpa [hpt, Point.placed] using not_here_iff.mpr hall
  · split at he
    · rw [List.mem_singleton.mp he]
      simpa [Point.placed] using htick
    · rename_i hb
      have hflow := tcpFlow_of_has_bytes (p := pkt.val) (by simpa using hb)
      unfold tcpFlow at hflow
      split at he
      · rw [List.mem_singleton.mp he]
        simpa [Point.placed] using htick
      · rename_i f hv
        split at he
        · rw [List.mem_singleton.mp he]
          simpa [Point.placed] using htick
        · rename_i hp
          simp only [hv, not_not.mp hp, if_true] at hflow
          exact feedFlowThrows_iff now hflow.symm htick e he

/-! ## A call that returns -/

theorem Here.releaseLast (key : UInt32) (h : Here t s) : Here t (s.releaseLast key) := by
  unfold TcpTlsHostnameExtractor.releaseLast
  split
  · exact h
  · rename_i c hl
    split
    · exact h
    · rename_i last hlast
      obtain ⟨hd, hheld⟩ | ⟨k, c', hk, q, hq, ht⟩ := h
      · exact .inl ⟨hd, hheld⟩
      · by_cases he : k = key
        · subst he
          rw [hl] at hk
          cases hk
          refine .inr ⟨k, _, AList.find_insert_self _ _ _, ?_⟩
          have hsplit := List.dropLast_append_getLast? last hlast
          rw [← hsplit] at hq
          rcases List.mem_append.mp hq with hq | hq
          · exact ⟨q, List.mem_append_left _ hq, ht⟩
          · rw [List.mem_singleton.mp hq] at ht
            exact ⟨last.release_bytes, by simp, ht⟩
        · exact .inr ⟨k, c', (AList.find_insert_of_ne _ _ he).trans hk, q, hq, ht⟩

theorem Here.drain_closes (now : Time) (hfeed : s.feeding = false) (h : Here t s) :
    Here t (s.drain_closes w now) := by
  obtain ⟨r, hr⟩ := drain_closes_of_not_feeding (w := w) now hfeed
  rw [hr]
  exact h

theorem feedTracked_here (now : Time) (hf : flowOf p.bytes = some f) (h : ¬ Here p.tag s)
    (hheld : ∀ q ∈ c.held, q.tag ≠ p.tag) (hc : c.state = .Wait) :
    Here p.tag (s.feedTracked w now p f c) := by
  have hput : AllPackets (fun q => q.tag ≠ p.tag) (s.put f.key { c with last := now }) :=
    (not_here_iff.mp h).put f.key hheld
  simp only [feedTracked]
  split
  · exact here_decide _ p .ALLOW
  · split
    · refine Here.releaseLast f.key ?_
      rw [reassemble_drains]
      refine Here.drain_closes now rfl (Last.reassemblePoint now hf ?_)
      exact last_put (c := { c with last := now }) (not_here_iff.mpr hput) hheld hc
    · split
      · exact here_decide _ p .ALLOW
      · exact here_decide _ p .ALLOW

/-- A call that returns has decided its packet, or a flow holds it. -/
theorem feed_here (pkt : Arrival) (now : Time) (h : ¬ Here pkt.val.tag s) :
    Here pkt.val.tag (s.feed w now pkt.val) := by
  have htick : ¬ Here pkt.val.tag (s.tick w now) :=
    not_here_iff.mpr ((not_here_iff.mp h).tick now)
  cases hf : flowOf pkt.val.bytes with
  | none =>
    rw [feed_of_no_flow hf]
    exact here_decide _ pkt.val .ALLOW
  | some f =>
    rw [feed_of_flow hf]
    show Here pkt.val.tag ((s.tick w now).feedFlow w now pkt.val f)
    unfold feedFlow
    split
    · rename_i c hl
      have hheld := (not_here_iff.mp htick).held f.key c hl
      split
      · exact here_decide _ pkt.val .BLOCK
      · rename_i hc
        refine feedTracked_here now hf htick hheld ?_
        cases hst : c.state with
        | Wait => rfl
        | Block => exact absurd hst hc
    · unfold feedUntracked
      split
      · exact here_decide _ pkt.val .ALLOW
      · have hroom : ¬ Here pkt.val.tag ((s.tick w now).makeRoom w now) :=
          not_here_iff.mpr ((not_here_iff.mp htick).makeRoom now)
        dsimp only
        split
        · exact here_decide _ pkt.val .ALLOW
        · have hlog : ¬ Here pkt.val.tag (((s.tick w now).makeRoom w now).log (.tracked f.key)) :=
            hroom
          exact feedTracked_here (c := {}) now hf hlog (fun q hq => by cases hq) rfl

end Held

end TcpTlsHostnameExtractor

open TcpTlsHostnameExtractor

/-- The packet was verdicted, is decided, or is held by a flow. -/
def Covered (pkt : Packet) (wk : Worker R P) : Prop :=
  (∃ v, (pkt.id, v) ∈ wk.queue.verdicts) ∨ Here pkt.tag wk.tls

/-- Whatever comes of a packet that is new, it is covered if and only if no
exception was thrown, or one was thrown after a flow took the packet, and
not between the move of the held list out of its entry and the append of
the packet to the decided buffer. -/
theorem a_packet_is_covered_unless_the_throw_has_it (w : World R P) (k : SetVerdict)
    (wk : Worker R P) (now : Time) (nfa : NfqData) (outcome : Option Point) (wk' : Worker R P)
    (hmode : wk.passthrough = false) (hnew : ¬ Covered nfa.packet wk)
    (h : Handled w k wk now nfa outcome wk') :
    Covered nfa.packet wk' ↔ ∀ pt ∈ outcome, pt.placed = true := by
  have hhere : ¬ Here nfa.arrival.val.tag wk.tls := fun hh => hnew (.inr hh)
  cases h with
  | returned =>
    rw [Worker.handle_inspecting w k now nfa hmode]
    refine ⟨fun _ pt hpt => (by cases hpt), fun _ => .inr ?_⟩
    exact feed_here nfa.arrival now hhere
  | threw pt x hx =>
    have hiff := feedThrows_iff nfa.arrival now hhere (pt, x) hx
    refine ⟨?_, ?_⟩
    · rintro (⟨v, hv⟩ | hcov) pt' hpt'
      · exact absurd (.inl ⟨v, hv⟩) hnew
      · cases hpt'
        exact hiff.mp hcov
    · intro hplaced
      exact .inr (hiff.mpr (hplaced pt rfl))

theorem not_covered_of_empty (pkt : Packet) (passthrough : Bool) (r : R) (p : P)
    (max_flows max_blocked : Nat) :
    ¬ Covered pkt { passthrough := passthrough, tls := init r p max_flows max_blocked } := by
  rintro (⟨v, hv⟩ | ⟨d, hd, -⟩ | ⟨key, c, hl, -⟩)
  · cases hv
  · cases hd
  · cases hl

open traffic in
/-- The policy throws at the hello of a new flow: the packet is still held. -/
theorem a_hello_is_covered_when_the_policy_throws :
    let wk : Worker (List Link) Unit := { passthrough := false, tls := init [] () 2 1 }
    let nfa : NfqData := ⟨some 2, some (hello (client 2) 2).val.bytes⟩
    ∃ wk', Handled (world {}) (fun _ _ _ => 0) wk 0 nfa (some (.work true .ask)) wk' ∧
      Covered nfa.packet wk' := by
  intro wk nfa
  have hpoint : Point.work true .ask ∈ (wk.tls.feedThrows (world {}) 0 nfa.packet).map (·.1) := by
    decide +kernel
  obtain ⟨⟨pt, x⟩, hx, hpt⟩ := List.mem_map.mp hpoint
  cases hpt
  have hthrew : Handled (world {}) (fun _ _ _ => 0) wk 0 nfa _ _ := .threw (.work true .ask) x hx
  refine ⟨_, hthrew, ?_⟩
  refine (a_packet_is_covered_unless_the_throw_has_it (world {}) (fun _ _ _ => 0) wk 0 nfa _ _ rfl
    (not_covered_of_empty nfa.packet false [] () 2 1) hthrew).mpr ?_
  intro pt' hpt'
  cases hpt'
  rfl

open traffic in
/-- There is no memory for the entry of a new flow: its SYN is lost. -/
theorem a_packet_that_cannot_be_tracked_is_lost :
    let wk : Worker (List Link) Unit := { passthrough := false, tls := init [] () 2 1 }
    let nfa : NfqData := ⟨some 1, some (syn (client 2) 1).val.bytes⟩
    ∃ wk', Handled (world {}) (fun _ _ _ => 0) wk 0 nfa (some .insert) wk' ∧
      ¬ Covered nfa.packet wk' := by
  intro wk nfa
  have hpoint : Point.insert ∈ (wk.tls.feedThrows (world {}) 0 nfa.packet).map (·.1) := by
    decide +kernel
  obtain ⟨⟨pt, x⟩, hx, hpt⟩ := List.mem_map.mp hpoint
  cases hpt
  have hnew : ¬ Here nfa.arrival.val.tag wk.tls :=
    fun hh => not_covered_of_empty nfa.packet false [] () 2 1 (.inr hh)
  have hiff := feedThrows_iff nfa.arrival 0 hnew _ hx
  refine ⟨_, .threw .insert x hx, ?_⟩
  rintro (⟨v, hv⟩ | hcov)
  · cases hv
  · have hplaced : Point.insert.placed = true := hiff.mp hcov
    cases hplaced

end packet_inspector
