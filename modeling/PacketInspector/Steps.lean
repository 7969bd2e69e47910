-- What the extractor can do to its state, said once: every call is a path
-- of a dozen small steps, and a law about runs is proved step by step.
import PacketInspector.Runs
import PacketInspector.Extractor

open wire packet_inspector.tls runs

namespace packet_inspector.TcpTlsHostnameExtractor

variable {R P : Type} {w : World R P} {s s' : TcpTlsHostnameExtractor R P}

/-! ## Deciding and resolving -/

theorem release_eq (s : TcpTlsHostnameExtractor R P) (held : List Packet) (v : Verdict) :
    s.release held v = { s with decided := s.decided ++ held.map (fun p => ⟨p, v⟩) } := by
  unfold release
  induction held generalizing s with
  | nil => simp
  | cons p held ih => rw [List.foldl_cons, ih]; simp [decide]

/-- The flow of `c`, once it is decided against. -/
def blockConn (c : Conn) : Conn := { c with state := .Block, held := [], stream := [] }

theorem resolve_of_none {key : UInt32} (hostname : Option Bytes) (h : s.conns.find key = none) :
    s.resolve w key hostname = s := by
  unfold resolve
  rw [h]

theorem resolve_of_block {key : UInt32} {c : Conn} (hostname : Option Bytes)
    (h : s.conns.find key = some c) (hc : c.state = .Block) : s.resolve w key hostname = s := by
  unfold resolve
  simp only [h]
  rw [if_pos hc]

theorem resolve_allow {key : UInt32} {c : Conn} {hostname : Option Bytes}
    (h : s.conns.find key = some c) (hc : c.state = .Wait)
    (hv : (w.decide s.policy hostname).1 = .ALLOW) :
    s.resolve w key hostname =
      (((s.ask w key hostname).forget key).close c).release c.held .ALLOW := by
  unfold resolve
  simp only [h]
  rw [if_neg (by rw [hc]; decide)]
  simp only [hv]

theorem resolve_blocked {key : UInt32} {c : Conn} {hostname : Option Bytes}
    (h : s.conns.find key = some c) (hc : c.state = .Wait)
    (hv : (w.decide s.policy hostname).1 = .BLOCK) :
    s.resolve w key hostname =
      ((((s.ask w key hostname).put key (blockConn c)).remember_blocked key).close c).release
        c.held .BLOCK := by
  unfold resolve
  simp only [h]
  rw [if_neg (by rw [hc]; decide)]
  simp only [hv, blockConn]

theorem blockedConn_iff {key : UInt32} :
    s.blockedConn key = true ↔ ∃ c, s.conns.find key = some c ∧ c.state = .Block := by
  unfold blockedConn
  cases h : s.conns.find key with
  | none => simp
  | some c => simp

theorem put_blockedConn_of_ne {key k : UInt32} {c : Conn} (hk : k ≠ key) :
    (s.put key c).blockedConn k = s.blockedConn k := by
  simp [blockedConn, AList.find_insert_of_ne _ _ hk]

theorem put_blockedConn {key k : UInt32} {c : Conn}
    (hc : c.state = .Block ↔ s.blockedConn key = true) :
    (s.put key c).blockedConn k = s.blockedConn k := by
  by_cases hk : k = key
  · subst hk
    rw [Bool.eq_iff_iff, ← hc]
    simp [blockedConn]
  · exact put_blockedConn_of_ne hk

/-- An entry is written anew with the state it has. -/
theorem put_same_blockedConn {key k : UInt32} {c c' : Conn} (hl : s.conns.find key = some c)
    (hc : c'.state = c.state) : (s.put key c').blockedConn k = s.blockedConn k := by
  refine put_blockedConn ?_
  simp [blockedConn, hl, hc]

theorem forget_blockedConn (s : TcpTlsHostnameExtractor R P) (key : UInt32) {k : UInt32} :
    (s.forget key).blockedConn k = if key = k then false else s.blockedConn k := by
  unfold blockedConn
  simp only [forget_conns, AList.find_erase]
  by_cases hk : k = key
  · subst hk
    simp
  · rw [if_neg hk, if_neg (fun he => hk he.symm)]

/-- Registering a key writes the oldest slot, and evicts the flow that the
slot named when that flow is another one and still blocked. -/
theorem remember_blocked_cases (s : TcpTlsHostnameExtractor R P) (key : UInt32) :
    (s.remember_blocked key = s.turn key ∧
      (s.oldest = 0 ∨ s.oldest = key ∨ s.blockedConn s.oldest = false)) ∨
    (s.remember_blocked key = turn (s.evict s.oldest) key ∧
      s.oldest ≠ 0 ∧ s.oldest ≠ key ∧ s.blockedConn s.oldest = true) := by
  unfold remember_blocked
  split
  · rename_i h
    exact .inr ⟨rfl, h⟩
  · rename_i h
    refine .inl ⟨rfl, ?_⟩
    by_contra hn
    push Not at hn
    exact h ⟨hn.1, hn.2.1, by simpa using hn.2.2⟩

/-! ## The steps -/

/-- The reason for which a waiting flow is resolved: none, or the name that
its stream carries. -/
def Reason (c : Conn) (hostname : Option Bytes) : Prop :=
  hostname = none ∨ ∃ h, hostname = some h ∧ extractHostname c.stream = .Found h

/-- The callback carries client bytes that the flow `c` would take. -/
def Adds (c : Option Conn) (cb : Callback) : Prop :=
  ∃ c' tok data, c = some c' ∧ c'.state = .Wait ∧ cb = .message kClientSide tok data

/-- The kinds of calls, with the bytes of the packet that is fed. -/
inductive Call where
  | feed (packet : Bytes)
  | tick
  | flush

/-- The key of the flow that a call feeds a packet of. -/
def Call.key : Call → Option UInt32
  | .feed packet => (flowOf packet).map (·.key)
  | _ => none

/-- One step of a call made at `now`. -/
inductive Step (w : World R P) (now : Time) (call : Call) :
    TcpTlsHostnameExtractor R P → TcpTlsHostnameExtractor R P → Prop
  /-- Everything that is neither a packet, a flow nor the ring. -/
  | books (s : TcpTlsHostnameExtractor R P) (reassembly : R) (to_close : List UInt32)
      (current_key : UInt32) (feeding : Bool) (lastSweep : Time) (flows blocked : Nat) :
      Step w now call s { s with
        reassembly := reassembly, to_close := to_close, current_key := current_key
        feeding := feeding, lastSweep := lastSweep, flows := flows, blocked := blocked }
  /-- A callback that adds nothing to a waiting flow. -/
  | heard (s : TcpTlsHostnameExtractor R P) (packet : Bytes) (f : FlowView) (cb : Callback) :
      flowOf packet = some f → call = .feed packet → ¬ Adds (s.conns.find f.key) cb →
      Step w now call s (s.log (.callback packet cb))
  /-- Client bytes for a waiting flow. -/
  | joined (s : TcpTlsHostnameExtractor R P) (packet : Bytes) (f : FlowView) (c : Conn)
      (tok : UInt32) (data : Bytes) :
      flowOf packet = some f → call = .feed packet →
      s.conns.find f.key = some c → c.state = .Wait →
      Step w now call s ((s.log (.callback packet (.message kClientSide tok data))).put f.key
        { c with pcpp_key := tok, stream := c.stream ++ data })
  /-- The reassembler's key of a flow, or the end of its connection. -/
  | marked (s : TcpTlsHostnameExtractor R P) (key : UInt32) (c : Conn) (tok : UInt32) (closed : Bool) :
      call.key = some key → s.conns.find key = some c →
      Step w now call s (s.put key { c with pcpp_key := tok, pcpp_closed := closed })
  /-- A packet of a tracked flow arrives. -/
  | touched (s : TcpTlsHostnameExtractor R P) (key : UInt32) (c : Conn) :
      call.key = some key → s.conns.find key = some c →
      Step w now call s (s.put key { c with last := now })
  /-- Tracking starts. -/
  | opened (s : TcpTlsHostnameExtractor R P) (key : UInt32) :
      call.key = some key → s.conns.find key = none → s.conns.size < s.max_flows →
      Step w now call s ((s.log (.tracked key)).put key { last := now })
  /-- The bytes of the packet held last are given back. -/
  | released (s : TcpTlsHostnameExtractor R P) (key : UInt32) (c : Conn) (ps : List Packet) (p : Packet) :
      call.key = some key → s.conns.find key = some c → c.held = ps ++ [p] →
      Step w now call s (s.put key { c with held := ps ++ [p.release_bytes] })
  /-- A waiting flow is resolved: its own packet did it, or it idled out. -/
  | resolved (s : TcpTlsHostnameExtractor R P) (key : UInt32) (c : Conn) (hostname : Option Bytes) :
      s.conns.find key = some c → c.state = .Wait →
      call.key = some key ∨ call = .flush ∨ isIdle now c = true →
      Reason c hostname → Step w now call s (s.resolve w key hostname)
  /-- A blocked flow idles out. -/
  | expired (s : TcpTlsHostnameExtractor R P) (key : UInt32) (c : Conn) :
      s.conns.find key = some c → c.state = .Block → isIdle now c = true →
      Step w now call s ((s.forget key).log (.expired key))
  /-- A turn of the ring that finds no blocked flow. -/
  | passed (s : TcpTlsHostnameExtractor R P) :
      s.oldest = 0 ∨ s.blockedConn s.oldest = false → Step w now call s (s.turn 0)
  /-- A turn of the ring that evicts one. -/
  | evicted (s : TcpTlsHostnameExtractor R P) :
      s.oldest ≠ 0 → s.blockedConn s.oldest = true →
      Step w now call s ((s.turn 0).evict s.oldest)
  /-- A flush forgets the blocked flows. -/
  | cleared (s : TcpTlsHostnameExtractor R P) :
      call = .flush → (∀ key c, s.conns.find key = some c → c.state = .Block) →
      Step w now call s s.clear

/-- A path of steps of one call. -/
abbrev Path (w : World R P) (now : Time) (call : Call) :
    TcpTlsHostnameExtractor R P → TcpTlsHostnameExtractor R P → Prop :=
  Relation.ReflTransGen (Step w now call)

/-- What becomes of the packet that a call feeds: it is decided, it is let
through because the table is full, or its own flow holds it. -/
inductive Take (w : World R P) (p : Packet) :
    TcpTlsHostnameExtractor R P → TcpTlsHostnameExtractor R P → Prop
  | decided (s : TcpTlsHostnameExtractor R P) (v : Verdict) :
      (∀ f c, flowOf p.bytes = some f → f.payload_len > 0 →
        s.conns.find f.key = some c → c.state = .Wait → c.held = []) →
      (v = .BLOCK → ∃ f c, flowOf p.bytes = some f ∧
        s.conns.find f.key = some c ∧ c.state = .Block) →
      Take w p s (s.decide p v)
  | refused (s : TcpTlsHostnameExtractor R P) (f : FlowView) :
      flowOf p.bytes = some f → s.conns.find f.key = none → s.conns.size ≥ s.max_flows →
      Take w p s (s.refuse.decide p .ALLOW)
  | held (s : TcpTlsHostnameExtractor R P) (f : FlowView) (c : Conn) :
      flowOf p.bytes = some f → f.payload_len > 0 →
      s.conns.find f.key = some c → c.state = .Wait → c.held.length < kMaxPacketsPerConn →
      Take w p s (s.put f.key { c with held := c.held ++ [p] })

/-! ## What a call leaves alone -/

/-- The part of the state that says which packet is inside the reassembler. -/
def inside (s : TcpTlsHostnameExtractor R P) : Bool × UInt32 := (s.feeding, s.current_key)

/-- The caps, and the count of flows turned away. -/
def caps (s : TcpTlsHostnameExtractor R P) : Nat × Nat × Nat :=
  (s.max_flows, s.max_blocked, s.dropped_at_cap)

@[simp] theorem release_conns (held : List Packet) (v : Verdict) :
    (s.release held v).conns = s.conns := by
  rw [release_eq]

/-- What a verdict on a flow leaves alone: `s'` has it from `s`. -/
structure Framed (s s' : TcpTlsHostnameExtractor R P) : Prop where
  inside : s'.inside = s.inside
  caps : s'.caps = s.caps
  reassembly : s'.reassembly = s.reassembly
  lastSweep : s'.lastSweep = s.lastSweep
  blocked : s'.blocked = s.blocked

theorem Framed.refl (s : TcpTlsHostnameExtractor R P) : Framed s s := ⟨rfl, rfl, rfl, rfl, rfl⟩

theorem Framed.trans {s s' s'' : TcpTlsHostnameExtractor R P} (h : Framed s s')
    (h' : Framed s' s'') : Framed s s'' :=
  ⟨h'.inside.trans h.inside, h'.caps.trans h.caps, h'.reassembly.trans h.reassembly,
    h'.lastSweep.trans h.lastSweep, h'.blocked.trans h.blocked⟩

theorem remember_blocked_framed (s : TcpTlsHostnameExtractor R P) (key : UInt32) :
    Framed s (s.remember_blocked key) := by
  rcases remember_blocked_cases s key with ⟨h, -⟩ | ⟨h, -⟩
  · rw [h]
    exact ⟨rfl, rfl, rfl, rfl, rfl⟩
  · rw [h]
    exact ⟨rfl, rfl, rfl, rfl, rfl⟩

theorem remember_blocked_find {key k : UInt32} {c : Conn}
    (h : (s.remember_blocked key).conns.find k = some c) : s.conns.find k = some c := by
  rcases remember_blocked_cases s key with ⟨hr, -⟩ | ⟨hr, -⟩
  · rw [hr] at h
    exact h
  · rw [hr] at h
    simp only [turn_conns, evict, publish_conns, log_conns, forget_conns, AList.find_erase] at h
    split at h
    · cases h
    · exact h

/-- A flow that does not wait is left alone by `resolve`. -/
theorem resolve_eq_self_or (w : World R P) (s : TcpTlsHostnameExtractor R P) (key : UInt32)
    (hostname : Option Bytes) :
    (s.resolve w key hostname = s ∧ ∀ c, s.conns.find key = some c → c.state = .Block) ∨
    ∃ c, s.conns.find key = some c ∧ c.state = .Wait := by
  cases hl : s.conns.find key with
  | none => exact .inl ⟨resolve_of_none hostname hl, by simp⟩
  | some c =>
    cases hc : c.state with
    | Block => exact .inl ⟨resolve_of_block hostname hl hc, by simp [hc]⟩
    | Wait => exact .inr ⟨c, rfl, hc⟩

theorem resolve_framed (s : TcpTlsHostnameExtractor R P) (key : UInt32) (hostname : Option Bytes) :
    Framed s (s.resolve w key hostname) := by
  rcases resolve_eq_self_or w s key hostname with ⟨h, -⟩ | ⟨c, hl, hc⟩
  · rw [h]
    exact .refl s
  · cases hv : (w.decide s.policy hostname).1 with
    | ALLOW =>
      rw [resolve_allow hl hc hv, release_eq]
      exact ⟨rfl, rfl, rfl, rfl, rfl⟩
    | BLOCK =>
      have hframe := remember_blocked_framed ((s.ask w key hostname).put key (blockConn c)) key
      rw [resolve_blocked hl hc hv, release_eq]
      exact ⟨hframe.inside, hframe.caps, hframe.reassembly, hframe.lastSweep, hframe.blocked⟩

theorem resolve_inside (s : TcpTlsHostnameExtractor R P) (key : UInt32) (hostname : Option Bytes) :
    (s.resolve w key hostname).inside = s.inside :=
  (resolve_framed s key hostname).inside

/-- Resolving one flow leaves the others, or evicts one of them. -/
theorem resolve_find_of_ne {key k : UInt32} {hostname : Option Bytes} {c : Conn} (hk : k ≠ key)
    (h : (s.resolve w key hostname).conns.find k = some c) : s.conns.find k = some c := by
  rcases resolve_eq_self_or w s key hostname with ⟨hr, -⟩ | ⟨c', hl, hc⟩
  · rw [hr] at h
    exact h
  · cases hv : (w.decide s.policy hostname).1 with
    | ALLOW =>
      rw [resolve_allow hl hc hv] at h
      simpa [AList.find_erase, hk] using h
    | BLOCK =>
      rw [resolve_blocked hl hc hv, release_conns, close_conns] at h
      simpa [AList.find_insert, hk] using remember_blocked_find h

/-- A flow that still waits after a `resolve` is another one, and as it was. -/
theorem resolve_find_wait {key k : UInt32} {hostname : Option Bytes} {c : Conn}
    (h : (s.resolve w key hostname).conns.find k = some c) (hw : c.state = .Wait) :
    k ≠ key ∧ s.conns.find k = some c := by
  have hne : k ≠ key := by
    intro hk
    subst hk
    have hb : c.state = .Block := by
      rcases resolve_eq_self_or w s k hostname with ⟨hr, hb⟩ | ⟨c', hl, hc⟩
      · rw [hr] at h
        exact hb c h
      · cases hv : (w.decide s.policy hostname).1 with
        | ALLOW =>
          rw [resolve_allow hl hc hv] at h
          simp at h
        | BLOCK =>
          rw [resolve_blocked hl hc hv, release_conns, close_conns] at h
          have hb := remember_blocked_find h
          simp only [put_conns, AList.find_insert_self, Option.some.injEq] at hb
          rw [← hb]
          rfl
    rw [hb] at hw
    cases hw
  exact ⟨hne, resolve_find_of_ne hne h⟩

theorem callback_of_not_feeding (cb : Callback) (h : s.feeding = false) : s.callback w cb = s := by
  cases cb with
  | start tok => exact if_pos h
  | message side tok data => exact if_pos h
  | finish tok => exact if_pos h

section Inside

/-! With a packet of the flow `key` inside, a callback does one of these. -/

variable {key : UInt32} {packet : Bytes} {c : Conn}

theorem deliver_of_none (cb : Callback) (hin : s.inside = (true, key))
    (h : s.conns.find key = none) : s.deliver w packet cb = s.log (.callback packet cb) := by
  have hkey : s.current_key = key := congrArg Prod.snd hin
  cases cb with
  | start tok => simp [deliver, callback, onConnectionStart, hkey, h]
  | message side tok data => simp [deliver, callback, onMessageReady, hkey, h]
  | finish tok => simp [deliver, callback, onConnectionEnd, hkey, h]

theorem deliver_start (tok : UInt32) (hin : s.inside = (true, key))
    (h : s.conns.find key = some c) :
    s.deliver w packet (.start tok) =
      (s.log (.callback packet (.start tok))).put key { c with pcpp_key := tok } := by
  have hfeed : s.feeding = true := congrArg Prod.fst hin
  have hkey : s.current_key = key := congrArg Prod.snd hin
  simp [deliver, callback, onConnectionStart, hfeed, hkey, h]

theorem deliver_finish (tok : UInt32) (hin : s.inside = (true, key))
    (h : s.conns.find key = some c) :
    s.deliver w packet (.finish tok) =
      ((s.log (.callback packet (.finish tok))).put key { c with pcpp_closed := true }).resolve w
        key none := by
  have hfeed : s.feeding = true := congrArg Prod.fst hin
  have hkey : s.current_key = key := congrArg Prod.snd hin
  simp [deliver, callback, onConnectionEnd, hfeed, hkey, h]

theorem deliver_other_side {side : Int} (tok : UInt32) (data : Bytes) (hside : side ≠ kClientSide) :
    s.deliver w packet (.message side tok data) = s.log (.callback packet (.message side tok data)) := by
  simp [deliver, callback, onMessageReady, hside]

theorem deliver_message_block (side : Int) (tok : UInt32) (data : Bytes)
    (hin : s.inside = (true, key)) (h : s.conns.find key = some c) (hc : c.state = .Block) :
    s.deliver w packet (.message side tok data) = s.log (.callback packet (.message side tok data)) := by
  have hkey : s.current_key = key := congrArg Prod.snd hin
  simp [deliver, callback, onMessageReady, hkey, h, hc]

theorem deliver_message_wait (tok : UInt32) (data : Bytes)
    (hin : s.inside = (true, key)) (h : s.conns.find key = some c) (hc : c.state = .Wait) :
    s.deliver w packet (.message kClientSide tok data) =
      ((s.log (.callback packet (.message kClientSide tok data))).put key
        { c with pcpp_key := tok, stream := c.stream ++ data }).checkStream w key
          (c.stream ++ data) := by
  have hfeed : s.feeding = true := congrArg Prod.fst hin
  have hkey : s.current_key = key := congrArg Prod.snd hin
  simp [deliver, callback, onMessageReady, hfeed, hkey, h, hc]

end Inside

theorem checkStream_framed (s : TcpTlsHostnameExtractor R P) (key : UInt32) (stream : Bytes) :
    Framed s (s.checkStream w key stream) := by
  unfold checkStream
  split
  · exact resolve_framed s key _
  · exact resolve_framed s key _
  · split
    · exact resolve_framed s key _
    · exact .refl s

theorem checkStream_inside (s : TcpTlsHostnameExtractor R P) (key : UInt32) (stream : Bytes) :
    (s.checkStream w key stream).inside = s.inside :=
  (checkStream_framed s key stream).inside

theorem settle_of_not_feeding (answer : R × List Callback) (h : s.feeding = false) :
    s.settle w answer = { s with reassembly := answer.1 } := by
  have hfold : ∀ (cbs : List Callback) (x : TcpTlsHostnameExtractor R P), x.feeding = false →
      cbs.foldl (fun s cb => s.callback w cb) x = x := by
    intro cbs
    induction cbs with
    | nil => intro x _; rfl
    | cons cb cbs ih =>
      intro x hx
      rw [List.foldl_cons, callback_of_not_feeding cb hx, ih x hx]
  exact hfold answer.2 _ h

theorem drain_closes_of_not_feeding (now : Time) (h : s.feeding = false) :
    ∃ r, s.drain_closes w now = { s with reassembly := r, to_close := [] } := by
  have hfold : ∀ (tokens : List UInt32) (x : TcpTlsHostnameExtractor R P), x.feeding = false →
      ∃ r, tokens.foldl (fun s token => s.settle w (w.closeConnection s.reassembly now token)) x =
        { x with reassembly := r } := by
    intro tokens
    induction tokens with
    | nil => intro x _; exact ⟨x.reassembly, rfl⟩
    | cons token tokens ih =>
      intro x hx
      rw [List.foldl_cons, settle_of_not_feeding _ hx]
      exact ih _ hx
  obtain ⟨r, hr⟩ := hfold s.to_close s h
  refine ⟨r, ?_⟩
  unfold drain_closes
  rw [hr]

/-! ## Each call is a path of steps -/

section Paths

variable {now : Time} {call : Call}

theorem books_path (h : ∃ r tc cur fd ls fl bl, s' = { s with
      reassembly := r, to_close := tc, current_key := cur, feeding := fd, lastSweep := ls
      flows := fl, blocked := bl }) : Path w now call s s' := by
  obtain ⟨r, tc, cur, fd, ls, fl, bl, rfl⟩ := h
  exact .single (Step.books s r tc cur fd ls fl bl)

theorem publish_path (s : TcpTlsHostnameExtractor R P) : Path w now call s s.publish :=
  books_path ⟨_, _, _, _, _, _, _, rfl⟩

theorem drain_closes_path (h : s.feeding = false) : Path w now call s (s.drain_closes w now) := by
  obtain ⟨r, hr⟩ := drain_closes_of_not_feeding (w := w) now h
  rw [hr]
  exact books_path ⟨_, _, _, _, _, _, _, rfl⟩

theorem drain_closes_feeding (h : s.feeding = false) : (s.drain_closes w now).feeding = false := by
  obtain ⟨r, hr⟩ := drain_closes_of_not_feeding (w := w) now h
  rw [hr]
  exact h

theorem resolve_path {key : UInt32} {hostname : Option Bytes}
    (hcall : ∀ c, s.conns.find key = some c → c.state = .Wait →
      call.key = some key ∨ call = .flush ∨ isIdle now c = true)
    (hreason : ∀ c, s.conns.find key = some c → c.state = .Wait → Reason c hostname) :
    Path w now call s (s.resolve w key hostname) := by
  rcases resolve_eq_self_or w s key hostname with ⟨hr, -⟩ | ⟨c, hl, hc⟩
  · rw [hr]
  · exact .single (Step.resolved s key c hostname hl hc (hcall c hl hc) (hreason c hl hc))

theorem checkStream_path {key : UInt32} {c : Conn} (hcall : call.key = some key)
    (hl : s.conns.find key = some c) : Path w now call s (s.checkStream w key c.stream) := by
  unfold checkStream
  split
  · rename_i host he
    refine resolve_path (fun _ _ _ => .inl hcall) (fun c' hc' _ => ?_)
    rw [hl] at hc'
    cases hc'
    exact .inr ⟨host, rfl, he⟩
  · exact resolve_path (fun _ _ _ => .inl hcall) (fun _ _ _ => .inl rfl)
  · split
    · exact resolve_path (fun _ _ _ => .inl hcall) (fun _ _ _ => .inl rfl)
    · exact .refl

/-- A callback for the fed packet is a path, and keeps the packet inside. -/
theorem deliver_path {packet : Bytes} {f : FlowView} (hf : flowOf packet = some f)
    (hcall : call = .feed packet) (hin : s.inside = (true, f.key)) (cb : Callback) :
    Path w now call s (s.deliver w packet cb) ∧ (s.deliver w packet cb).inside = (true, f.key) := by
  have hkey : call.key = some f.key := by simp [hcall, Call.key, hf]
  have hheard : ¬ Adds (s.conns.find f.key) cb →
      Path w now call s (s.log (.callback packet cb)) :=
    fun h => .single (Step.heard s packet f cb hf hcall h)
  cases hl : s.conns.find f.key with
  | none =>
    rw [deliver_of_none cb hin hl]
    exact ⟨hheard (by rw [hl]; rintro ⟨c', t, d, h, -⟩; cases h), hin⟩
  | some c =>
    cases cb with
    | start tok =>
      rw [deliver_start tok hin hl]
      have hp := hheard (by rintro ⟨c', t, d, -, -, h⟩; cases h)
      exact ⟨hp.tail (Step.marked _ f.key c tok c.pcpp_closed hkey hl), hin⟩
    | finish tok =>
      rw [deliver_finish tok hin hl]
      have hp := hheard (by rintro ⟨c', t, d, -, -, h⟩; cases h)
      refine ⟨(hp.tail (Step.marked _ f.key c c.pcpp_key true hkey hl)).trans ?_, ?_⟩
      · exact resolve_path (fun _ _ _ => .inl hkey) (fun _ _ _ => .inl rfl)
      · rw [resolve_inside]
        exact hin
    | message side tok data =>
      by_cases hside : side = kClientSide
      · subst hside
        cases hc : c.state with
        | Block =>
          rw [deliver_message_block kClientSide tok data hin hl hc]
          refine ⟨hheard ?_, hin⟩
          rw [hl]
          rintro ⟨c', t, d, h, hw, -⟩
          cases h
          rw [hc] at hw
          cases hw
        | Wait =>
          rw [deliver_message_wait tok data hin hl hc]
          refine ⟨.head (Step.joined s packet f c tok data hf hcall hl hc) ?_, ?_⟩
          · exact checkStream_path (c := { c with pcpp_key := tok, stream := c.stream ++ data })
              hkey (by simp)
          · rw [checkStream_inside]
            exact hin
      · rw [deliver_other_side tok data hside]
        refine ⟨hheard ?_, hin⟩
        rintro ⟨c', t, d, -, -, h⟩
        cases h
        exact hside rfl

theorem reassemble_path (w : World R P) (now : Time) {packet : Bytes} {f : FlowView} (hf : flowOf packet = some f)
    (hcall : call = .feed packet) :
    Path w now call s (s.reassemble w now f.key packet) ∧
    (s.reassemble w now f.key packet).feeding = false := by
  unfold reassemble
  simp only
  obtain ⟨hfold, -⟩ := foldl_path (r := Step w now call)
    (f := fun s cb => s.deliver w packet cb) (Q := fun _ s => s.inside = (true, f.key))
    (fun cb _ s hin => deliver_path hf hcall hin cb)
    (w.reassemblePacket s.reassembly now packet).2
    { s with
      current_key := f.key, feeding := true
      reassembly := (w.reassemblePacket s.reassembly now packet).1 } rfl
  refine ⟨?_, drain_closes_feeding rfl⟩
  refine (books_path ⟨_, _, _, _, _, _, _, rfl⟩).trans (hfold.trans ?_)
  exact (books_path ⟨_, _, _, _, _, _, _, rfl⟩).trans (drain_closes_path rfl)

theorem deliver_inside {packet : Bytes} {f : FlowView} (hf : flowOf packet = some f)
    (hin : s.inside = (true, f.key)) (cb : Callback) :
    (s.deliver w packet cb).inside = (true, f.key) := by
  have h : Path w 0 (.feed packet) s (s.deliver w packet cb) ∧ _ := deliver_path hf rfl hin cb
  exact h.2

/-- What holds of a state and of the callbacks that are left holds at the end
of a call into the reassembler. -/
theorem reassemble_rule (w : World R P) (now : Time) {packet : Bytes} {f : FlowView}
    {Q : List Callback → TcpTlsHostnameExtractor R P → Prop} (hf : flowOf packet = some f)
    (hbooks : ∀ cbs x y, y.trace = x.trace → y.conns = x.conns → y.decided = x.decided →
      Q cbs x → Q cbs y)
    (hdeliver : ∀ cb cbs x, x.inside = (true, f.key) → Q (cb :: cbs) x →
      Q cbs (x.deliver w packet cb))
    (h : Q (w.reassemblePacket s.reassembly now packet).2 s) :
    Q [] (s.reassemble w now f.key packet) := by
  have hfold : ∀ (cbs : List Callback) (x : TcpTlsHostnameExtractor R P),
      x.inside = (true, f.key) → Q cbs x →
      Q [] (cbs.foldl (fun s cb => s.deliver w packet cb) x) := by
    intro cbs
    induction cbs with
    | nil => exact fun x _ hx => hx
    | cons cb cbs ih =>
      intro x hin hx
      exact ih _ (deliver_inside hf hin cb) (hdeliver cb cbs x hin hx)
  unfold reassemble
  simp only
  have hend := hfold (w.reassemblePacket s.reassembly now packet).2
    { s with
      current_key := f.key, feeding := true
      reassembly := (w.reassemblePacket s.reassembly now packet).1 } rfl
    (hbooks _ s _ rfl rfl rfl h)
  generalize List.foldl _ _ _ = y at hend ⊢
  obtain ⟨r, hr⟩ := drain_closes_of_not_feeding (w := w) (s := { y with feeding := false }) now rfl
  rw [hr]
  exact hbooks _ y _ rfl rfl rfl hend

theorem expire_path {key : UInt32} (h : ∀ c, s.conns.find key = some c → isIdle now c = true) :
    Path w now call s (s.expire w key) := by
  unfold expire
  cases hl : s.conns.find key with
  | none => exact .refl
  | some c =>
    simp only
    split
    · rename_i hc
      exact .single (Step.expired s key c hl hc (h c hl))
    · exact resolve_path (fun c' hc' _ => .inr (.inr (h c' hc'))) (fun _ _ _ => .inl rfl)

theorem expire_framed (s : TcpTlsHostnameExtractor R P) (key : UInt32) :
    Framed s (s.expire w key) := by
  unfold expire
  split
  · exact .refl s
  · split
    · exact ⟨rfl, rfl, rfl, rfl, rfl⟩
    · exact resolve_framed s key none

theorem expireAll_framed (w : World R P) (now : Time) (s : TcpTlsHostnameExtractor R P) :
    Framed s (s.expireAll w now) :=
  foldl_keeps (fun x key hx => hx.trans (expire_framed x key)) _ s (.refl s)

theorem resolveAll_framed (w : World R P) (s : TcpTlsHostnameExtractor R P) :
    Framed s (s.resolveAll w) :=
  foldl_keeps (fun x key hx => hx.trans (resolve_framed x key none)) _ s (.refl s)

theorem expire_find_of_ne {key k : UInt32} {c : Conn} (hk : k ≠ key)
    (h : (s.expire w key).conns.find k = some c) : s.conns.find k = some c := by
  unfold expire at h
  split at h
  · exact h
  · split at h
    · simpa [AList.find_erase, hk] using h
    · exact resolve_find_of_ne hk h

theorem collect_nodup (p : Conn → Bool) : (s.collect w p).Nodup :=
  ((w.walk_perm s.conns).nodup_iff.mpr s.conns.keys_nodup).filter _

theorem mem_collect {p : Conn → Bool} {key : UInt32} :
    key ∈ s.collect w p ↔ ∃ c, s.conns.find key = some c ∧ p c = true := by
  unfold collect
  rw [List.mem_filter, (w.walk_perm s.conns).mem_iff, AList.mem_keys_iff_find]
  cases s.conns.find key with
  | none => simp
  | some c => simp

/-- The keys that are left to expire are idle as long as no one else is
served: expiring one flow touches no other, except to evict it. -/
theorem expireAll_path (w : World R P) (now : Time) (call : Call) (h : s.feeding = false) :
    Path w now call s (s.expireAll w now) ∧ (s.expireAll w now).feeding = false := by
  obtain ⟨hpath, -, -, hfeed⟩ := foldl_path (r := Step w now call)
    (f := fun s key => s.expire w key)
    (Q := fun l x => l.Nodup ∧ (∀ key ∈ l, ∀ c, x.conns.find key = some c → isIdle now c = true) ∧
      x.feeding = false)
    (by
      rintro key l x ⟨hnd, hidle, hfeed⟩
      refine ⟨expire_path (hidle key (by simp)), (List.nodup_cons.mp hnd).2, ?_, ?_⟩
      · intro k hk c hc
        have hne : k ≠ key := fun he => (List.nodup_cons.mp hnd).1 (he ▸ hk)
        exact hidle k (by simp [hk]) c (expire_find_of_ne hne hc)
      · exact (congrArg Prod.fst (expire_framed x key).inside).trans hfeed)
    (s.collect w (isIdle now)) s
    ⟨collect_nodup _, by
      intro key hkey c hc
      obtain ⟨c', hc', hi⟩ := mem_collect.mp hkey
      rw [hc] at hc'
      cases hc'
      exact hi, h⟩
  exact ⟨hpath, hfeed⟩

theorem sweep_path (w : World R P) (now : Time) (call : Call) (h : s.feeding = false) :
    Path w now call s (s.sweep w now) ∧ (s.sweep w now).feeding = false := by
  have hgauge : Path w now call s { s with blocked := s.blockedCount } :=
    books_path ⟨_, _, _, _, _, _, _, rfl⟩
  obtain ⟨hpath, hfeed⟩ := expireAll_path w now call
    (s := { s with blocked := s.blockedCount }) h
  unfold sweep
  simp only [settle_of_not_feeding _ hfeed]
  generalize expireAll { s with blocked := s.blockedCount } w now = x at hpath hfeed ⊢
  have hpurge : Path w now call x
      { x with reassembly := (w.purgeClosedConnections x.reassembly now).1 } :=
    books_path ⟨_, _, _, _, _, _, _, rfl⟩
  refine ⟨hgauge.trans (hpath.trans (hpurge.trans ?_)), drain_closes_feeding hfeed⟩
  exact Relation.ReflTransGen.trans (drain_closes_path hfeed) (publish_path _)

theorem tick_path (w : World R P) (now : Time) (call : Call) (h : s.feeding = false) :
    Path w now call s (s.tick w now) ∧ (s.tick w now).feeding = false := by
  unfold tick
  split
  · exact ⟨.refl, h⟩
  · obtain ⟨hpath, hfeed⟩ := sweep_path w now call
      (s := { s with lastSweep := now }) h
    exact ⟨(books_path ⟨_, _, _, _, _, _, _, rfl⟩).trans hpath, hfeed⟩

theorem evictTurns_path (w : World R P) (now : Time) (call : Call) (left : Nat) (s : TcpTlsHostnameExtractor R P) :
    Path w now call s (evictTurns left s).2 ∧ (evictTurns left s).2.inside = s.inside := by
  induction left generalizing s with
  | zero => exact ⟨.refl, rfl⟩
  | succ left ih =>
    unfold evictTurns
    split
    · rename_i hv
      exact ⟨.single (Step.evicted s hv.1 hv.2), rfl⟩
    · rename_i hv
      obtain ⟨hpath, hin⟩ := ih (s.turn 0)
      refine ⟨.head (Step.passed s ?_) hpath, hin⟩
      by_cases h0 : s.oldest = 0
      · exact .inl h0
      · exact .inr (by simpa [h0] using hv)

theorem makeRoom_path (w : World R P) (now : Time) (call : Call) (h : s.feeding = false) :
    Path w now call s (s.makeRoom w now) ∧ (s.makeRoom w now).feeding = false := by
  unfold makeRoom
  split
  · obtain ⟨hpath, hfeed⟩ := tick_path w now call h
    simp only
    split
    · obtain ⟨hturns, hin⟩ := evictTurns_path w now call
        (s.tick w now).max_blocked (s.tick w now)
      exact ⟨hpath.trans hturns, (congrArg Prod.fst hin).trans hfeed⟩
    · exact ⟨hpath, hfeed⟩
  · exact ⟨.refl, h⟩

theorem resolveAll_path (w : World R P) (now : Time) (h : s.feeding = false) :
    Path w now .flush s (s.resolveAll w) ∧ (s.resolveAll w).feeding = false ∧
    ∀ key c, (s.resolveAll w).conns.find key = some c → c.state = .Block := by
  obtain ⟨hpath, hwait, hfeed⟩ := foldl_path (r := Step w now .flush)
    (f := fun s key => s.resolve w key none)
    (Q := fun l x => (∀ key c, x.conns.find key = some c → c.state = .Wait → key ∈ l) ∧
      x.feeding = false)
    (by
      rintro key l x ⟨hwait, hfeed⟩
      refine ⟨resolve_path (fun _ _ _ => .inr (.inl rfl)) (fun _ _ _ => .inl rfl), ?_, ?_⟩
      · intro k c hc hw
        obtain ⟨hne, hc'⟩ := resolve_find_wait hc hw
        exact (List.mem_cons.mp (hwait k c hc' hw)).resolve_left hne
      · exact (congrArg Prod.fst (resolve_inside x key none)).trans hfeed)
    (s.collect w (fun c => c.state = .Wait)) s
    ⟨fun key c hc hw => mem_collect.mpr ⟨c, hc, by simpa using hw⟩, h⟩
  refine ⟨hpath, hfeed, ?_⟩
  intro key c hc
  cases hst : c.state with
  | Block => rfl
  | Wait => exact absurd (hwait key c hc hst) (by simp)

/-- A flush resolves every flow that waits, so it forgets blocked ones only. -/
theorem flush_path (w : World R P) (now : Time) (h : s.feeding = false) :
    Path w now .flush s (s.flush w now) ∧ (s.flush w now).feeding = false := by
  obtain ⟨hpath, hfeed, hblock⟩ := resolveAll_path w now h
  have hdrain : Path w now .flush (s.resolveAll w).clear ((s.resolveAll w).clear.drain_closes w now) :=
    drain_closes_path hfeed
  unfold flush
  refine ⟨hpath.trans (.head (Step.cleared _ rfl hblock) ?_), drain_closes_feeding hfeed⟩
  exact hdrain.trans (publish_path _)

/-! ## Feeding a packet -/

theorem flowOf_nil : flowOf [] = none := rfl

theorem feed_of_no_flow {p : Arrival} (h : flowOf p.val.bytes = none) :
    s.feed w now p.val = ((s.tick w now).decide p.val .ALLOW).publish := by
  unfold feed
  simp only
  by_cases hb : p.val.has_bytes = true
  · rw [if_neg (by simp [hb])]
    rw [← tcpFlow_of_has_bytes hb, tcpFlow] at h
    split at h
    · rename_i f hv
      rw [hv]
      split at h
      · cases h
      · rename_i hp
        simp [hp]
    · rename_i f hv
      rw [hv]
  · rw [if_pos (by simpa using hb)]

theorem feed_of_flow {p : Arrival} {f : FlowView} (h : flowOf p.val.bytes = some f) :
    s.feed w now p.val = ((s.tick w now).feedFlow w now p.val f).publish := by
  have hb : p.val.has_bytes = true := by
    rcases p.property with hb | hb
    · exact hb
    · rw [hb, flowOf_nil] at h
      cases h
  unfold feed
  simp only
  rw [if_neg (by simp [hb])]
  rw [← tcpFlow_of_has_bytes hb, tcpFlow] at h
  split at h
  · rename_i f' hv
    rw [hv]
    split at h
    · rename_i hp
      cases h
      simp [hp]
    · cases h
  · cases h

theorem resolve_find_self {key : UInt32} {hostname : Option Bytes} {c c' : Conn}
    (hl : s.conns.find key = some c) (hc : c.state = .Wait)
    (h : (s.resolve w key hostname).conns.find key = some c') : c' = blockConn c := by
  cases hv : (w.decide s.policy hostname).1 with
  | ALLOW =>
    rw [resolve_allow hl hc hv] at h
    simp at h
  | BLOCK =>
    rw [resolve_blocked hl hc hv, release_conns, close_conns] at h
    have h' := remember_blocked_find h
    simp only [put_conns, AList.find_insert_self, Option.some.injEq] at h'
    exact h'.symm

theorem releaseLast_path {key : UInt32} (hcall : call.key = some key) :
    Path w now call s (s.releaseLast key) := by
  unfold releaseLast
  cases hl : s.conns.find key with
  | none => exact .refl
  | some c =>
    simp only
    cases hh : c.held.getLast? with
    | none => exact .refl
    | some p =>
      have hheld : c.held = c.held.dropLast ++ [p] := by
        obtain ⟨ps, hps⟩ := List.getLast?_eq_some_iff.mp hh
        rw [hps]
        simp
      exact .single (Step.released s key c c.held.dropLast p hcall hl hheld)

theorem releaseLast_feeding (s : TcpTlsHostnameExtractor R P) (key : UInt32) :
    (s.releaseLast key).feeding = s.feeding := by
  unfold releaseLast
  split
  · rfl
  · split
    · rfl
    · rfl

theorem releaseLast_trace (s : TcpTlsHostnameExtractor R P) (key : UInt32) :
    (s.releaseLast key).trace = s.trace := by
  unfold releaseLast
  split
  · rfl
  · split
    · rfl
    · rfl

/-- A call that feeds `p`: a path, the packet's own turn, and a path. -/
def Feeds (w : World R P) (now : Time) (p : Packet) (s s' : TcpTlsHostnameExtractor R P) : Prop :=
  ∃ s1 s2, Path w now (.feed p.bytes) s s1 ∧ Take w p s1 s2 ∧
    Path w now (.feed p.bytes) s2 s'

theorem Feeds.head {p : Packet} {s1 : TcpTlsHostnameExtractor R P}
    (h : Path w now (.feed p.bytes) s s1) (hf : Feeds w now p s1 s') :
    Feeds w now p s s' := by
  obtain ⟨s2, s3, h1, h2, h3⟩ := hf
  exact ⟨s2, s3, h.trans h1, h2, h3⟩

theorem feedTracked_feeds (w : World R P) (now : Time) {p : Packet} {f : FlowView} {c : Conn} (hf : flowOf p.bytes = some f)
    (hc : c.state = .Wait) (hfeed : s.feeding = false)
    (hput : Path w now (.feed p.bytes) s' (s.put f.key { c with last := now })) :
    Feeds w now p s' (s.feedTracked w now p f c) ∧
      (s.feedTracked w now p f c).feeding = false := by
  have hkey : (Call.feed p.bytes).key = some f.key := by simp [Call.key, hf]
  have hl : (s.put f.key { c with last := now }).conns.find f.key = some { c with last := now } := by
    simp
  unfold feedTracked
  simp only
  split
  · -- flooded: the flow is given up, and holds nothing when the packet is decided
    have hin := resolve_inside (w := w) (s.put f.key { c with last := now }) f.key none
    refine ⟨Feeds.head hput ⟨_, _, ?_, .decided _ .ALLOW ?_ (by simp), .refl⟩, ?_⟩
    · exact resolve_path (fun _ _ _ => .inl hkey) (fun _ _ _ => .inl rfl)
    · intro f' c' hf' _ hc' _
      rw [hf] at hf'
      cases hf'
      rw [resolve_find_self hl hc hc']
      rfl
    · exact (congrArg Prod.fst hin).trans hfeed
  · rename_i hroom
    split
    · rename_i hpay
      obtain ⟨hpath, hfeed'⟩ := reassemble_path w now
        (s := (s.put f.key { c with last := now }).put f.key
          { c with held := c.held ++ [p], last := now }) hf rfl
      refine ⟨Feeds.head hput ⟨_, _, .refl, .held _ f _ hf hpay hl hc (by simpa using hroom),
        hpath.trans (releaseLast_path hkey)⟩, ?_⟩
      rw [releaseLast_feeding]
      exact hfeed'
    · rename_i hpay
      have hnone : ∀ (x : TcpTlsHostnameExtractor R P) (f' : FlowView) (c' : Conn),
          flowOf p.bytes = some f' → f'.payload_len > 0 →
          x.conns.find f'.key = some c' → c'.state = .Wait → c'.held = [] := by
        intro x f' c' hf' hp' _ _
        rw [hf] at hf'
        cases hf'
        exact absurd hp' hpay
      split
      · exact ⟨Feeds.head hput ⟨_, _, .refl, .decided _ .ALLOW (hnone _) (by simp), .refl⟩, hfeed⟩
      · obtain ⟨hpath, hfeed'⟩ := reassemble_path w now
          (s := s.put f.key { c with last := now }) hf rfl
        exact ⟨Feeds.head hput ⟨_, _, hpath, .decided _ .ALLOW (hnone _) (by simp), .refl⟩, hfeed'⟩

theorem put_put (x : TcpTlsHostnameExtractor R P) (k : UInt32) (c c' : Conn) :
    (x.put k c).put k c' = x.put k c' := by
  unfold put
  simp only [AList.insert_insert]

/-- Feeding a packet to a fresh entry is feeding it to one that is there. -/
theorem feedTracked_put (x : TcpTlsHostnameExtractor R P) (p : Packet) (f : FlowView) (c : Conn) :
    (x.put f.key c).feedTracked w now p f c = x.feedTracked w now p f c := by
  unfold feedTracked
  simp only [put_put]

/-- No step moves a cap, or turns a flow away. -/
theorem step_caps (h : Step w now call s s') : s'.caps = s.caps := by
  cases h with
  | resolved key c hostname hl hc hcall hreason => exact (resolve_framed s key hostname).caps
  | _ => rfl

theorem path_caps (h : Path w now call s s') : s'.caps = s.caps :=
  path_keeps (I := fun x => x.caps = s.caps) (fun _ _ hs hx => (step_caps hs).trans hx) h rfl

theorem feedTracked_caps {p : Packet} {f : FlowView} {c : Conn} (hf : flowOf p.bytes = some f) :
    (s.feedTracked w now p f c).caps = s.caps := by
  have hkey : (Call.feed p.bytes).key = some f.key := by simp [Call.key, hf]
  have hre : ∀ x : TcpTlsHostnameExtractor R P, (x.reassemble w now f.key p.bytes).caps = x.caps :=
    fun x => path_caps (reassemble_path w now hf rfl).1
  have hrel : ∀ x : TcpTlsHostnameExtractor R P, (x.releaseLast f.key).caps = x.caps :=
    fun x => path_caps (w := w) (releaseLast_path (s := x) hkey : Path w now (.feed p.bytes) x _)
  unfold feedTracked
  simp only
  split
  · exact (resolve_framed _ f.key none).caps
  · split
    · rw [hrel, hre]
      rfl
    · split
      · rfl
      · exact hre _

/-- No step tracks a flow that the call is not about. -/
theorem step_find_none {k : UInt32} (hk : call.key ≠ some k) (h : Step w now call s s')
    (hn : s.conns.find k = none) : s'.conns.find k = none := by
  cases h with
  | books => exact hn
  | heard => exact hn
  | joined packet f c tok data hf hcall hl hc =>
    have hne : k ≠ f.key := fun he => hk (by simp [hcall, Call.key, hf, he])
    simpa [AList.find_insert_of_ne _ _ hne] using hn
  | marked key c tok closed hcall hl =>
    have hne : k ≠ key := fun he => hk (he ▸ hcall)
    simpa [AList.find_insert_of_ne _ _ hne] using hn
  | touched key c hcall hl =>
    have hne : k ≠ key := fun he => hk (he ▸ hcall)
    simpa [AList.find_insert_of_ne _ _ hne] using hn
  | opened key hcall hl hroom =>
    have hne : k ≠ key := fun he => hk (he ▸ hcall)
    simpa [AList.find_insert_of_ne _ _ hne] using hn
  | released key c ps p hcall hl hheld =>
    have hne : k ≠ key := fun he => hk (he ▸ hcall)
    simpa [AList.find_insert_of_ne _ _ hne] using hn
  | resolved key c hostname hl hc hcall hreason =>
    have hne : k ≠ key := by
      rintro rfl
      rw [hn] at hl
      cases hl
    refine Option.eq_none_iff_forall_ne_some.mpr (fun c' hc' => ?_)
    rw [resolve_find_of_ne hne hc'] at hn
    cases hn
  | expired key c hl hc hidle => simp [AList.find_erase, hn]
  | passed hv => exact hn
  | evicted h0 hv => simp [evict, AList.find_erase, hn]
  | cleared hcall hb => rfl

theorem path_find_none {call : Call} {k : UInt32} (hp : Path w now call s s')
    (hcall : call.key ≠ some k) (hn : s.conns.find k = none) : s'.conns.find k = none :=
  path_keeps (I := fun x => x.conns.find k = none) (fun _ _ hs hx => step_find_none hcall hs hx)
    hp hn

theorem tick_find_none (w : World R P) (now : Time) {k : UInt32} (hfeed : s.feeding = false)
    (hn : s.conns.find k = none) : (s.tick w now).conns.find k = none :=
  path_find_none (tick_path w now .tick hfeed).1 (by simp [Call.key]) hn

theorem makeRoom_find_none (w : World R P) (now : Time) {k : UInt32} (hfeed : s.feeding = false)
    (hn : s.conns.find k = none) : (s.makeRoom w now).conns.find k = none :=
  path_find_none (makeRoom_path w now .tick hfeed).1 (by simp [Call.key]) hn

theorem feedUntracked_feeds (w : World R P) (now : Time) {p : Packet} {f : FlowView} (hf : flowOf p.bytes = some f)
    (hn : s.conns.find f.key = none) (hfeed : s.feeding = false) :
    Feeds w now p s (s.feedUntracked w now p f) ∧ (s.feedUntracked w now p f).feeding = false := by
  have hkey : (Call.feed p.bytes).key = some f.key := by simp [Call.key, hf]
  unfold feedUntracked
  split
  · refine ⟨⟨_, _, .refl, .decided s .ALLOW ?_ (by simp), .refl⟩, hfeed⟩
    intro f' c' hf' _ hc' _
    rw [hf] at hf'
    cases hf'
    rw [hn] at hc'
    cases hc'
  · obtain ⟨hroom, hfeed'⟩ := makeRoom_path w now (.feed p.bytes) hfeed
    have hn' := makeRoom_find_none w now hfeed hn
    simp only
    split
    · rename_i hsize
      exact ⟨Feeds.head hroom ⟨_, _, .refl, .refused _ f hf hn' hsize, .refl⟩, hfeed'⟩
    · rename_i hsize
      obtain ⟨hfeeds, hfeed''⟩ := feedTracked_feeds w now
        (s := (s.makeRoom w now).log (.tracked f.key)) (c := {}) hf rfl hfeed'
        (.single (Step.opened _ f.key hkey hn' (by simpa using hsize)))
      exact ⟨Feeds.head hroom hfeeds, hfeed''⟩

theorem feedFlow_feeds (w : World R P) (now : Time) {p : Packet} {f : FlowView} (hf : flowOf p.bytes = some f)
    (hfeed : s.feeding = false) :
    Feeds w now p s (s.feedFlow w now p f) ∧ (s.feedFlow w now p f).feeding = false := by
  have hkey : (Call.feed p.bytes).key = some f.key := by simp [Call.key, hf]
  unfold feedFlow
  cases hl : s.conns.find f.key with
  | none => exact feedUntracked_feeds w now hf hl hfeed
  | some c =>
    simp only
    split
    · rename_i hc
      refine ⟨⟨_, _, .single (Step.touched s f.key c hkey hl), .decided _ .BLOCK ?_ ?_, .refl⟩, hfeed⟩
      · intro f' c' hf' _ hc' hw
        rw [hf] at hf'
        cases hf'
        simp only [put_conns, AList.find_insert_self, Option.some.injEq] at hc'
        subst hc'
        rw [hc] at hw
        cases hw
      · intro _
        exact ⟨f, { c with last := now }, hf, by simp, hc⟩
    · rename_i hc
      have hc : c.state = .Wait := by
        cases hst : c.state with
        | Wait => rfl
        | Block => exact absurd hst hc
      exact feedTracked_feeds w now hf hc hfeed (.single (Step.touched s f.key c hkey hl))

/-- Feeding a packet: idle flows are served, the packet is decided or held,
and what follows from it is done. -/
theorem feed_feeds (w : World R P) (now : Time) (p : Arrival) (hfeed : s.feeding = false) :
    Feeds w now p.val s (s.feed w now p.val) ∧ (s.feed w now p.val).feeding = false := by
  obtain ⟨htick, hfeed'⟩ := tick_path w now (.feed p.val.bytes) hfeed
  cases hf : flowOf p.val.bytes with
  | none =>
    rw [feed_of_no_flow hf]
    refine ⟨⟨_, _, htick, .decided _ .ALLOW ?_ (by simp), publish_path _⟩, hfeed'⟩
    intro f c hf'
    rw [hf] at hf'
    cases hf'
  | some f =>
    rw [feed_of_flow hf]
    obtain ⟨⟨s1, s2, h1, h2, h3⟩, hfeed''⟩ := feedFlow_feeds w now
      (s := s.tick w now) hf hfeed'
    exact ⟨⟨s1, s2, htick.trans h1, h2, h3.trans (publish_path _)⟩, hfeed''⟩

end Paths

/-! ## Runs -/

theorem apply_feeding (op : Op) (h : s.feeding = false) : (op.apply w s).feeding = false := by
  cases op with
  | feed now p => exact (feed_feeds w now p h).2
  | tick now => exact (tick_path w now .tick h).2
  | flush now => exact (flush_path w now h).2

/-- A flow that no packet is fed for is never tracked. -/
theorem apply_find_none {k : UInt32} {op : Op} (hop : ∀ p, op.fed = some p → keyOf p ≠ some k)
    (hfeed : s.feeding = false) (hn : s.conns.find k = none) :
    (op.apply w s).conns.find k = none := by
  cases op with
  | feed now p =>
    have hk : keyOf p.val ≠ some k := hop p.val rfl
    have hcall : (Call.feed p.val.bytes).key ≠ some k := hk
    obtain ⟨⟨s1, s2, h1, h2, h3⟩, -⟩ := feed_feeds w now p hfeed
    refine path_find_none h3 hcall ?_
    have hs1 := path_find_none h1 hcall hn
    cases h2 with
    | decided v => exact hs1
    | refused f => exact hs1
    | held f c hf =>
      have hne : k ≠ f.key := fun he => hk (by simp [keyOf, hf, he])
      simpa [AList.find_insert_of_ne _ _ hne] using hs1
  | tick now => exact tick_find_none w now hfeed hn
  | flush now => exact path_find_none (flush_path w now hfeed).1 (by simp [Call.key]) hn

theorem run_find_none {k : UInt32} {ops : List Op} (hops : ∀ p ∈ fedBy ops, keyOf p ≠ some k)
    (hfeed : s.feeding = false) (hn : s.conns.find k = none) :
    (ops.foldl (Op.apply w) s).conns.find k = none := by
  induction ops generalizing s with
  | nil => exact hn
  | cons op ops ih =>
    have hop : ∀ p, op.fed = some p → keyOf p ≠ some k := by
      intro p hp
      exact hops p (List.mem_filterMap.mpr ⟨op, by simp, hp⟩)
    have hrest : ∀ p ∈ fedBy ops, keyOf p ≠ some k := by
      intro p hp
      obtain ⟨op', hm, hf⟩ := List.mem_filterMap.mp hp
      exact hops p (List.mem_filterMap.mpr ⟨op', List.mem_cons_of_mem op hm, hf⟩)
    exact ih hrest (apply_feeding op hfeed) (apply_find_none hop hfeed hn)

/-- A call keeps what its steps keep and what the turn of its packet keeps. -/
theorem apply_law {I : List Packet → TcpTlsHostnameExtractor R P → Prop} {op : Op}
    (hstep : ∀ now call fed s s', Step w now call s s' → I fed s → I fed s')
    (htake : ∀ p fed s s', op.fed = some p → Take w p s s' → I fed s → I (fed ++ [p]) s')
    (hfeed : s.feeding = false) {fed : List Packet} (h : I fed s) :
    I (fed ++ op.fed.toList) (op.apply w s) := by
  have hpath : ∀ now call fed s s', Path w now call s s' → I fed s → I fed s' :=
    fun now call fed s s' h => path_keeps (I := I fed) (hstep now call fed) h
  cases op with
  | feed now p =>
    obtain ⟨⟨s1, s2, h1, h2, h3⟩, -⟩ := feed_feeds w now p hfeed
    exact hpath _ _ _ _ _ h3 (htake _ _ _ _ rfl h2 (hpath _ _ _ _ _ h1 h))
  | tick now =>
    show I (fed ++ []) _
    rw [List.append_nil]
    exact hpath _ _ _ _ _ (tick_path w now .tick hfeed).1 h
  | flush now =>
    show I (fed ++ []) _
    rw [List.append_nil]
    exact hpath _ _ _ _ _ (flush_path w now hfeed).1 h

/-- A law of every state that a run reaches: it holds at the start, every
step keeps it, and so does the turn of a fed packet. -/
theorem run_law {I : List Packet → TcpTlsHostnameExtractor R P → Prop}
    (hstep : ∀ now call fed s s', Step w now call s s' → I fed s → I fed s')
    (htake : ∀ p fed s s', Take w p s s' → I fed s → I (fed ++ [p]) s')
    (hfeed : s.feeding = false) (hinit : I [] s) (ops : List Op) :
    I (fedBy ops) (ops.foldl (Op.apply w) s) ∧ (ops.foldl (Op.apply w) s).feeding = false := by
  refine run_keeps (I := fun done x => I (fedBy done) x ∧ x.feeding = false) ⟨hinit, hfeed⟩ ?_ ops
  rintro done x op ⟨hx, hxf⟩
  have hfed : fedBy (done ++ [op]) = fedBy done ++ op.fed.toList := by
    rw [fedBy, fedBy, List.filterMap_append]
    cases op <;> rfl
  rw [hfed]
  exact ⟨apply_law hstep (fun p fed s s' _ => htake p fed s s') hxf hx, apply_feeding op hxf⟩

end packet_inspector.TcpTlsHostnameExtractor
