-- Evidence for every block: a packet is decided BLOCK only after a blocked
-- hostname was read in the client bytes of its own flow, and its own flow
-- is its own connection when no two connections share a key.
import PacketInspector.Accounting

open wire packet_inspector.tls runs

namespace packet_inspector

/-! ## The bytes that the reassembler delivered -/

/-- The client bytes of an event, when it is about a packet in `p`. -/
def clientData (p : Bytes → Bool) : Event → Bytes
  | .callback packet (.message side _ data) =>
    if p packet = true ∧ side = kClientSide then data else []
  | _ => []

/-- The client bytes delivered for the packets in `p`. -/
def delivered (p : Bytes → Bool) (trace : List Event) : Bytes := trace.flatMap (clientData p)

/-- The client bytes of a flow after an event: none when its tracking starts. -/
def streamAfter (p : Bytes → Bool) (key : UInt32) (seen : Bytes) : Event → Bytes
  | .tracked k => if k = key then [] else seen
  | e => seen ++ clientData p e

/-- The client bytes delivered for the packets in `p` since the tracking of
the flow `key` started last. -/
def clientStream (p : Bytes → Bool) (key : UInt32) (trace : List Event) : Bytes :=
  trace.foldl (streamAfter p key) []

/-- The packets of one flow key. -/
def keyed (k : UInt32) (packet : Bytes) : Bool := (flowOf packet).map (·.key) = some k

/-- The packets of one connection. -/
def ofConnection (conn : Connection) (packet : Bytes) : Bool :=
  (flowOf packet).map connectionOf = some conn

@[simp] theorem delivered_nil (p : Bytes → Bool) : delivered p [] = [] := rfl

theorem delivered_append (p : Bytes → Bool) (t u : List Event) :
    delivered p (t ++ u) = delivered p t ++ delivered p u := by
  simp [delivered]

@[simp] theorem delivered_singleton (p : Bytes → Bool) (e : Event) :
    delivered p [e] = clientData p e := by
  simp [delivered]

theorem clientStream_append (p : Bytes → Bool) (key : UInt32) (trace : List Event) (e : Event) :
    clientStream p key (trace ++ [e]) = streamAfter p key (clientStream p key trace) e := by
  rw [clientStream, List.foldl_append]
  rfl

theorem streamAfter_of_untracked {p : Bytes → Bool} {key : UInt32} {seen : Bytes} {e : Event}
    (he : e ≠ .tracked key) : streamAfter p key seen e = seen ++ clientData p e := by
  cases e with
  | tracked k =>
    have hk : k ≠ key := fun hk => he (hk ▸ rfl)
    simp [streamAfter, hk, clientData]
  | _ => rfl

/-- Since its tracking started, a flow got a last part of all it got. -/
theorem clientStream_suffix (p : Bytes → Bool) (key : UInt32) (trace : List Event) :
    clientStream p key trace <:+ delivered p trace := by
  induction trace using List.reverseRecOn with
  | nil => exact List.suffix_rfl
  | append_singleton trace e ih =>
    rw [clientStream_append, delivered_append, delivered_singleton]
    by_cases he : e = .tracked key
    · subst he
      simp [streamAfter]
    · rw [streamAfter_of_untracked he]
      obtain ⟨before, hb⟩ := ih
      exact ⟨before, by rw [← hb, List.append_assoc]⟩

theorem keyed_iff {k : UInt32} {packet : Bytes} :
    keyed k packet = true ↔ ∃ f, flowOf packet = some f ∧ f.key = k := by
  simp [keyed]

/-- What an event delivers to a flow is what a client message of a packet of
that flow carries. -/
theorem clientData_keyed {k : UInt32} {e : Event} (h : clientData (keyed k) e ≠ []) :
    ∃ packet f tok data, e = .callback packet (.message kClientSide tok data) ∧
      flowOf packet = some f ∧ f.key = k := by
  unfold clientData at h
  split at h
  · rename_i packet side tok data
    split at h
    · rename_i hc
      obtain ⟨hk, rfl⟩ := hc
      obtain ⟨f, hf, he⟩ := keyed_iff.mp hk
      exact ⟨packet, f, tok, data, rfl, hf, he⟩
    · exact absurd rfl h
  · exact absurd rfl h

theorem clientData_message {k : UInt32} {packet : Bytes} {f : FlowView} (tok : UInt32) (data : Bytes)
    (hf : flowOf packet = some f) :
    clientData (keyed k) (.callback packet (.message kClientSide tok data)) =
      if f.key = k then data else [] := by
  have hiff : keyed k packet = true ↔ f.key = k := by simp [keyed, hf]
  simp only [clientData, and_true]
  split
  · rename_i h
    rw [if_pos (hiff.mp h)]
  · rename_i h
    rw [if_neg (fun he => h (hiff.mpr he))]

namespace TcpTlsHostnameExtractor

variable {R P : Type} {w : World R P} {b : BlockList} {s s' : TcpTlsHostnameExtractor R P}

/-! ## The evidence -/

/-- The flow `key` was resolved to BLOCK on a blocked hostname, which is what
`extractHostname` finds in all the client bytes delivered for the packets in
`p` from the start of its tracking to that moment. -/
def Convicted (b : BlockList) (key : UInt32) (p : Bytes → Bool) (trace : List Event) : Prop :=
  ∃ before host after, trace = before ++ .asked key (some host) .BLOCK :: after ∧
    extractHostname (clientStream p key before) = .Found host ∧ b.isHostnameBlocked host = true

theorem Convicted.append {key : UInt32} {p : Bytes → Bool} {trace : List Event}
    (h : Convicted b key p trace) (more : List Event) : Convicted b key p (trace ++ more) := by
  obtain ⟨before, host, after, rfl, hfound, hblock⟩ := h
  exact ⟨before, host, after ++ more, by simp, hfound, hblock⟩

structure Evident (b : BlockList) (s : TcpTlsHostnameExtractor R P) : Prop where
  /-- A waiting flow's stream is what was delivered for it since it is tracked. -/
  stream : ∀ k c, s.conns.find k = some c → c.state = .Wait →
    c.stream = clientStream (keyed k) k s.trace
  block : ∀ k c, s.conns.find k = some c → c.state = .Block → Convicted b k (keyed k) s.trace
  decided : ∀ d ∈ s.decided, d.verdict = .BLOCK →
    ∃ f, flowOf d.pkt.bytes = some f ∧ Convicted b f.key (keyed f.key) s.trace

theorem evident_init (r : R) (p : P) (max_flows max_blocked : Nat) :
    Evident b (init r p max_flows max_blocked) := by
  refine ⟨?_, ?_, ?_⟩
  · intro k c hf
    simp [init] at hf
  · intro k c hf
    simp [init] at hf
  · intro d hd
    simp [init] at hd

theorem Evident.put {key : UInt32} {c : Conn} (h : Evident b s)
    (hw : c.state = .Wait → c.stream = clientStream (keyed key) key s.trace)
    (hb : c.state = .Block → Convicted b key (keyed key) s.trace) : Evident b (s.put key c) := by
  refine ⟨?_, ?_, h.decided⟩
  · intro k c' hf hst
    simp only [put_conns, AList.find_insert] at hf
    split at hf
    · rename_i he
      subst he
      cases hf
      exact hw hst
    · exact h.stream k c' hf hst
  · intro k c' hf hst
    simp only [put_conns, AList.find_insert] at hf
    split at hf
    · rename_i he
      subst he
      cases hf
      exact hb hst
    · exact h.block k c' hf hst

/-- An entry whose state and stream are as they were. -/
theorem Evident.put_same {key : UInt32} {c c' : Conn} (h : Evident b s)
    (hf : s.conns.find key = some c) (hst : c'.state = c.state) (hstr : c'.stream = c.stream) :
    Evident b (s.put key c') := by
  refine h.put ?_ ?_
  · intro hw
    rw [hstr]
    exact h.stream key c hf (hst ▸ hw)
  · intro hb
    exact h.block key c hf (hst ▸ hb)

theorem Evident.of_find (h : Evident b s)
    (hsub : ∀ k c, s'.conns.find k = some c → s.conns.find k = some c)
    (htrace : s'.trace = s.trace) (hdec : s'.decided = s.decided) : Evident b s' := by
  refine ⟨?_, ?_, ?_⟩
  · intro k c hf
    rw [htrace]
    exact h.stream k c (hsub k c hf)
  · intro k c hf
    rw [htrace]
    exact h.block k c (hsub k c hf)
  · rw [htrace, hdec]
    exact h.decided

theorem Evident.forget (h : Evident b s) (key : UInt32) : Evident b (s.forget key) := by
  refine h.of_find ?_ rfl rfl
  intro k c hf
  simp only [forget_conns, AList.find_erase] at hf
  split at hf
  · cases hf
  · exact hf

/-- The history grows by an event that brings no waiting flow anything. -/
theorem Evident.log {e : Event} (h : Evident b s)
    (he : ∀ k c, s.conns.find k = some c → c.state = .Wait →
      e ≠ .tracked k ∧ clientData (keyed k) e = []) :
    Evident b (s.log e) := by
  refine ⟨?_, ?_, ?_⟩
  · intro k c hf hw
    obtain ⟨htracked, hdata⟩ := he k c hf hw
    rw [log_trace, clientStream_append, streamAfter_of_untracked htracked, hdata, List.append_nil]
    exact h.stream k c hf hw
  · intro k c hf hb
    exact (h.block k c hf hb).append _
  · intro d hd hv
    obtain ⟨f, hf, hc⟩ := h.decided d hd hv
    exact ⟨f, hf, hc.append _⟩

theorem Evident.release {held : List Packet} {v : Verdict} (h : Evident b s)
    (hv : v = .BLOCK → ∀ p ∈ held, ∃ f, flowOf p.bytes = some f ∧
      Convicted b f.key (keyed f.key) s.trace) : Evident b (s.release held v) := by
  rw [release_eq]
  refine ⟨h.stream, h.block, ?_⟩
  intro d hd hb
  rcases List.mem_append.mp hd with hd | hd
  · exact h.decided d hd hb
  · obtain ⟨p, hp, rfl⟩ := List.mem_map.mp hd
    exact hv hb p hp

theorem Evident.turn (h : Evident b s) (key : UInt32) : Evident b (s.turn key) :=
  h.of_find (fun _ _ hf => hf) rfl rfl

theorem Evident.evict (h : Evident b s) (victim : UInt32) : Evident b (s.evict victim) :=
  ((h.forget victim).log (fun _ _ _ _ => ⟨by simp, rfl⟩)).of_find (fun _ _ hf => hf) rfl rfl

theorem Evident.remember_blocked (h : Evident b s) (key : UInt32) :
    Evident b (s.remember_blocked key) := by
  rcases remember_blocked_cases s key with ⟨hr, -⟩ | ⟨hr, -⟩
  · rw [hr]
    exact h.turn key
  · rw [hr]
    exact (h.evict s.oldest).turn key

theorem remember_blocked_trace (s : TcpTlsHostnameExtractor R P) (key : UInt32) :
    (s.remember_blocked key).trace = s.trace ∨
    (s.remember_blocked key).trace = s.trace ++ [.evicted s.oldest] := by
  rcases remember_blocked_cases s key with ⟨hr, -⟩ | ⟨hr, -⟩
  · exact .inl (by rw [hr]; rfl)
  · exact .inr (by rw [hr]; rfl)

/-- A flow is resolved to BLOCK on the hostname in its stream. -/
theorem Evident.resolve {key : UInt32} {c : Conn} {hostname : Option Bytes}
    (hpolicy : w.decide = workerPolicy b) (h : Evident b s) (hl : s.conns.find key = some c)
    (hc : c.state = .Wait) (hreason : Reason c hostname)
    (home : ∀ p ∈ c.held, ∃ f, flowOf p.bytes = some f ∧ f.key = key) :
    Evident b (s.resolve w key hostname) := by
  have hasked : Evident b (s.ask w key hostname) :=
    Evident.of_find (h.log (e := .asked key hostname (w.decide s.policy hostname).1)
      (fun _ _ _ _ => ⟨by simp, rfl⟩)) (fun _ _ hf => hf) rfl rfl
  cases hv : (w.decide s.policy hostname).1 with
  | ALLOW =>
    rw [resolve_allow hl hc hv]
    refine Evident.release ?_ (by simp)
    exact (hasked.forget key).of_find (fun _ _ hf => hf) rfl rfl
  | BLOCK =>
    have hblock : workerDecide b hostname = .BLOCK := by
      rw [hpolicy] at hv
      exact hv
    obtain ⟨host, rfl, hhost⟩ := workerDecide_eq_block_iff.mp hblock
    have hfound : extractHostname c.stream = .Found host := by
      rcases hreason with hn | ⟨h', he, hf⟩
      · cases hn
      · cases he
        exact hf
    have hconv : Convicted b key (keyed key) (s.ask w key (some host)).trace := by
      rw [h.stream key c hl hc] at hfound
      exact ⟨s.trace, host, [], by rw [ask_trace, hv], hfound, hhost⟩
    have hput : Evident b ((s.ask w key (some host)).put key (blockConn c)) := by
      refine hasked.put ?_ ?_
      · intro hw
        cases hw
      · intro _
        exact hconv
    rw [resolve_blocked hl hc hv]
    refine Evident.release ((hput.remember_blocked key).of_find (fun _ _ hf => hf) rfl rfl) ?_
    intro _ p hp
    obtain ⟨f, hf, rfl⟩ := home p hp
    refine ⟨f, hf, ?_⟩
    rw [close_trace]
    rcases remember_blocked_trace ((s.ask w f.key (some host)).put f.key (blockConn c)) f.key with
      ht | ht
    · rw [ht]
      exact hconv
    · rw [ht]
      exact hconv.append _

theorem evident_step {now : Time} {call : Call} {fed : List Packet}
    (hpolicy : w.decide = workerPolicy b) (hs : Step w now call s s') (ha : Accounted fed s)
    (h : Evident b s) : Evident b s' := by
  cases hs with
  | books => exact h.of_find (fun _ _ hf => hf) rfl rfl
  | heard packet f cb hf hcall hquiet =>
    refine h.log ?_
    intro k c hl hw
    refine ⟨by simp, ?_⟩
    by_contra hdata
    obtain ⟨packet', f', tok, data, he, hf', rfl⟩ := clientData_keyed hdata
    cases he
    rw [hf] at hf'
    cases hf'
    exact hquiet ⟨c, tok, data, hl, hw, rfl⟩
  | joined packet f c tok data hf hcall hl hc =>
    have hdata := fun k => clientData_message (k := k) tok data hf
    refine ⟨?_, ?_, ?_⟩
    · intro k c' hl' hw
      rw [put_trace, log_trace, clientStream_append, streamAfter_of_untracked (by simp), hdata]
      simp only [put_conns, log_conns, AList.find_insert] at hl'
      split at hl'
      · rename_i he
        subst he
        cases hl'
        rw [if_pos rfl, ← h.stream f.key c hl hc]
      · rename_i he
        rw [if_neg (Ne.symm he), List.append_nil]
        exact h.stream k c' hl' hw
    · intro k c' hl' hb
      simp only [put_conns, log_conns, AList.find_insert] at hl'
      split at hl'
      · cases hl'
        rw [hc] at hb
        cases hb
      · exact (h.block k c' hl' hb).append _
    · intro d hd hv
      obtain ⟨f', hf', hconv⟩ := h.decided d hd hv
      exact ⟨f', hf', hconv.append _⟩
  | marked key c tok closed hcall hl => exact h.put_same hl rfl rfl
  | touched key c hcall hl => exact h.put_same hl rfl rfl
  | opened key hcall hl hroom =>
    have hlog : Evident b (s.log (.tracked key)) := by
      refine h.log ?_
      intro k c hf _
      refine ⟨?_, rfl⟩
      intro he
      cases he
      rw [hl] at hf
      cases hf
    refine hlog.put ?_ ?_
    · intro _
      rw [log_trace, clientStream_append]
      simp [streamAfter]
    · intro hb
      cases hb
  | released key c ps p hcall hl hheld => exact h.put_same hl rfl rfl
  | resolved key c hostname hl hc hcall hreason =>
    refine h.resolve hpolicy hl hc hreason ?_
    intro p hp
    obtain ⟨f, hf, -, hk⟩ := carries_eq_some_iff.mp (ha.home hl hp).2
    exact ⟨f, hf, hk⟩
  | expired key c hl hc hidle => exact (h.forget key).log (fun _ _ _ _ => ⟨by simp, rfl⟩)
  | passed hv => exact h.turn 0
  | evicted h0 hv => exact (h.turn 0).evict s.oldest
  | cleared hcall hb =>
    refine h.of_find ?_ rfl rfl
    intro k c hf
    simp at hf

theorem evident_take {p : Packet} (ht : Take w p s s') (h : Evident b s) : Evident b s' := by
  cases ht with
  | decided v hempty hblock =>
    refine ⟨h.stream, h.block, ?_⟩
    intro d hd hv
    rcases List.mem_append.mp hd with hd | hd
    · exact h.decided d hd hv
    · rw [List.mem_singleton] at hd
      subst hd
      obtain ⟨f, c, hf, hl, hc⟩ := hblock hv
      exact ⟨f, hf, h.block f.key c hl hc⟩
  | refused f =>
    refine ⟨h.stream, h.block, ?_⟩
    intro d hd hv
    rcases List.mem_append.mp hd with hd | hd
    · exact h.decided d hd hv
    · rw [List.mem_singleton] at hd
      subst hd
      cases hv
  | held f c hf hpay hl hc hroom => exact h.put_same hl rfl rfl

theorem evident_run (hpolicy : w.decide = workerPolicy b) (r : R) (p : P)
    (max_flows max_blocked : Nat) (ops : List Op) :
    Evident b (ops.foldl (Op.apply w) (init r p max_flows max_blocked)) := by
  have hquiet : Quiet (init r p max_flows max_blocked) := by
    intro k c hf
    simp [init] at hf
  exact (run_law (I := fun fed x => Accounted fed x ∧ Evident b x)
    (fun _ _ _ _ _ hs h => ⟨accounted_step hs h.1, evident_step hpolicy hs h.1 h.2⟩)
    (fun _ _ _ _ ht h => ⟨accounted_take ht h.1, evident_take ht h.2⟩) rfl
    ⟨⟨hquiet, ledger.kept_nil⟩, evident_init r p max_flows max_blocked⟩ ops).1.2

/-! ## Whose bytes they are -/

/-- A flow that waits is asked about, and at most an eviction follows. -/
theorem resolve_trace_of_wait {key : UInt32} {c : Conn} (hostname : Option Bytes)
    (hl : s.conns.find key = some c) (hc : c.state = .Wait) :
    ∃ es, (s.resolve w key hostname).trace =
        s.trace ++ .asked key hostname (w.decide s.policy hostname).1 :: es ∧
      ∀ e ∈ es, ∃ k, e = .evicted k := by
  cases hv : (w.decide s.policy hostname).1 with
  | ALLOW =>
    rw [resolve_allow hl hc hv, release_eq, ← hv]
    exact ⟨[], rfl, by simp⟩
  | BLOCK =>
    rw [resolve_blocked hl hc hv, release_eq, ← hv]
    simp only [close_trace]
    rcases remember_blocked_trace ((s.ask w key hostname).put key (blockConn c)) key with ht | ht
    · rw [ht]
      exact ⟨[], rfl, by simp⟩
    · rw [ht, put_trace, ask_trace, List.append_assoc]
      exact ⟨_, rfl, by simp⟩

theorem resolve_trace (s : TcpTlsHostnameExtractor R P) (key : UInt32) (hostname : Option Bytes) :
    ∃ es, (s.resolve w key hostname).trace = s.trace ++ es ∧
      (∀ packet cb, .callback packet cb ∉ es) ∧
      ∀ k h v, .asked k h v ∈ es → k = key ∧ v = (w.decide s.policy hostname).1 := by
  rcases resolve_eq_self_or w s key hostname with ⟨h, -⟩ | ⟨c, hl, hc⟩
  · exact ⟨[], by rw [h, List.append_nil], by simp, by simp⟩
  · obtain ⟨es, he, hes⟩ := resolve_trace_of_wait (w := w) hostname hl hc
    refine ⟨_, he, ?_, ?_⟩
    · intro packet cb hm
      rcases List.mem_cons.mp hm with hm | hm
      · cases hm
      · obtain ⟨k, hk⟩ := hes _ hm
        cases hk
    · intro k h v hm
      rcases List.mem_cons.mp hm with hm | hm
      · cases hm
        exact ⟨rfl, rfl⟩
      · obtain ⟨k', hk⟩ := hes _ hm
        cases hk

/-- The history only grows, and by callbacks of the fed packet only. -/
theorem step_trace {now : Time} {call : Call} (hs : Step w now call s s') :
    ∃ es, s'.trace = s.trace ++ es ∧ ∀ packet cb, .callback packet cb ∈ es → call = .feed packet := by
  have hsame : ∃ es, s.trace = s.trace ++ es ∧
      ∀ packet cb, Event.callback packet cb ∈ es → call = .feed packet := ⟨[], by simp, by simp⟩
  cases hs with
  | heard packet f cb hf hcall hquiet =>
    refine ⟨_, rfl, ?_⟩
    intro packet' cb' hm
    simp only [List.mem_singleton, Event.callback.injEq] at hm
    rw [hm.1]
    exact hcall
  | joined packet f c tok data hf hcall hl hc =>
    refine ⟨_, rfl, ?_⟩
    intro packet' cb' hm
    simp only [List.mem_singleton, Event.callback.injEq] at hm
    rw [hm.1]
    exact hcall
  | resolved key c hostname hl hc hcall hreason =>
    obtain ⟨es, he, hno, -⟩ := resolve_trace (w := w) s key hostname
    exact ⟨es, he, fun packet cb hm => absurd hm (hno packet cb)⟩
  | opened key hcall hl hroom => exact ⟨_, rfl, by simp⟩
  | expired key c hl hc hidle => exact ⟨_, rfl, by simp⟩
  | evicted h0 hv => exact ⟨_, rfl, by simp⟩
  | _ => exact hsame

theorem path_trace {now : Time} {call : Call} (hp : Path w now call s s') :
    ∃ es, s'.trace = s.trace ++ es ∧ ∀ packet cb, .callback packet cb ∈ es → call = .feed packet := by
  induction hp with
  | refl => exact ⟨[], by simp, by simp⟩
  | tail _ hs ih =>
    obtain ⟨es, he, hes⟩ := ih
    obtain ⟨es', he', hes'⟩ := step_trace hs
    refine ⟨es ++ es', by rw [he', he, List.append_assoc], ?_⟩
    intro packet cb hm
    rcases List.mem_append.mp hm with hm | hm
    · exact hes packet cb hm
    · exact hes' packet cb hm

theorem take_trace {p : Packet} (ht : Take w p s s') : s'.trace = s.trace := by
  cases ht with
  | decided v => rfl
  | refused f => rfl
  | held f c => rfl

/-- The events of one call, and whose callbacks they are. -/
theorem apply_trace (op : Op) (hfeed : s.feeding = false) :
    ∃ es, (op.apply w s).trace = s.trace ++ es ∧
      ∀ packet cb, .callback packet cb ∈ es → ∃ p, op.fed = some p ∧ p.bytes = packet := by
  cases op with
  | feed now p =>
    obtain ⟨⟨s1, s2, h1, h2, h3⟩, -⟩ := feed_feeds w now p hfeed
    obtain ⟨es, he, hes⟩ := path_trace h1
    obtain ⟨es', he', hes'⟩ := path_trace h3
    refine ⟨es ++ es', ?_, ?_⟩
    · change (s.feed w now p.val).trace = _
      rw [he', take_trace h2, he, List.append_assoc]
    · intro packet cb hm
      refine ⟨p.val, rfl, ?_⟩
      rcases List.mem_append.mp hm with hm | hm
      · exact Call.feed.inj (hes packet cb hm)
      · exact Call.feed.inj (hes' packet cb hm)
  | tick now =>
    obtain ⟨es, he, hes⟩ := path_trace (tick_path w now .tick hfeed).1
    exact ⟨es, he, fun packet cb hm => nomatch hes packet cb hm⟩
  | flush now =>
    obtain ⟨es, he, hes⟩ := path_trace (flush_path w now hfeed).1
    exact ⟨es, he, fun packet cb hm => nomatch hes packet cb hm⟩

/-- Every callback in the history is one of a packet that was fed. -/
theorem run_callback (r : R) (p : P) (max_flows max_blocked : Nat) (ops : List Op) :
    ∀ packet cb,
      .callback packet cb ∈ (ops.foldl (Op.apply w) (init r p max_flows max_blocked)).trace →
      ∃ x ∈ fedBy ops, x.bytes = packet := by
  refine (run_keeps (I := fun done (x : TcpTlsHostnameExtractor R P) =>
    (∀ packet cb, .callback packet cb ∈ x.trace → ∃ y ∈ fedBy done, y.bytes = packet) ∧
      x.feeding = false) ?_ ?_ ops).1
  · refine ⟨?_, rfl⟩
    intro packet cb hm
    simp [init] at hm
  · rintro done x op ⟨hx, hfeed⟩
    obtain ⟨es, he, hes⟩ := apply_trace (w := w) op hfeed
    refine ⟨?_, apply_feeding op hfeed⟩
    intro packet cb hm
    rw [he] at hm
    have hfed : fedBy (done ++ [op]) = fedBy done ++ op.fed.toList := by
      cases hf : op.fed with
      | none => simp [fedBy, hf]
      | some y => simp [fedBy, hf]
    rw [hfed]
    rcases List.mem_append.mp hm with hm | hm
    · obtain ⟨y, hy, hb⟩ := hx packet cb hm
      exact ⟨y, List.mem_append_left _ hy, hb⟩
    · obtain ⟨y, hy, hb⟩ := hes packet cb hm
      exact ⟨y, by simp [hy], hb⟩

/-- Two packets of the same flow key are of the same connection. -/
def Separated (fed : List Packet) : Prop :=
  ∀ x ∈ fed, ∀ y ∈ fed, ∀ f g, flowOf x.bytes = some f → flowOf y.bytes = some g →
    f.key = g.key → connectionOf f = connectionOf g

theorem clientStream_congr {p q : Bytes → Bool} (key : UInt32) {trace : List Event}
    (h : ∀ packet cb, .callback packet cb ∈ trace → p packet = q packet) :
    clientStream p key trace = clientStream q key trace := by
  unfold clientStream
  refine List.foldl_ext _ _ _ ?_
  intro seen e he
  cases e with
  | callback packet cb =>
    cases cb with
    | message side tok data => simp only [streamAfter, clientData, h packet _ he]
    | start tok => rfl
    | finish tok => rfl
  | tracked => rfl
  | asked => rfl
  | evicted => rfl
  | expired => rfl

/-- No connection is blocked for the hostname of another one, as long as no
two connections share a flow key: every BLOCK has its evidence in the client
bytes of the packet's own connection. -/
theorem no_connection_is_blocked_for_another {w : World R P} {b : BlockList}
    (hpolicy : w.decide = workerPolicy b) (r : R) (p : P) (max_flows max_blocked : Nat)
    (ops : List Op) (hsep : Separated (fedBy ops)) :
    let s := ops.foldl (Op.apply w) (init r p max_flows max_blocked)
    ∀ d ∈ s.decided, d.verdict = .BLOCK →
      ∃ f, flowOf d.pkt.bytes = some f ∧
        Convicted b f.key (ofConnection (connectionOf f)) s.trace := by
  intro s d hd hv
  obtain ⟨f, hf, before, host, after, htrace, hfound, hblock⟩ :=
    (evident_run hpolicy r p max_flows max_blocked ops).decided d hd hv
  refine ⟨f, hf, before, host, after, htrace, ?_, hblock⟩
  have hfed : ∃ x ∈ fedBy ops, x.bytes = d.pkt.bytes := by
    have hperm := (accounted_run w r p max_flows max_blocked ops).1.perm
    have hm : d.pkt.tag ∈ (fedBy ops).map Packet.tag := by
      apply hperm.subset
      exact List.mem_append_left _ (List.mem_map.mpr ⟨d, hd, rfl⟩)
    obtain ⟨x, hx, ht⟩ := List.mem_map.mp hm
    exact ⟨x, hx, congrArg Prod.snd ht⟩
  obtain ⟨x, hx, hxb⟩ := hfed
  have hsame : clientStream (keyed f.key) f.key before =
      clientStream (ofConnection (connectionOf f)) f.key before := by
    refine clientStream_congr f.key ?_
    intro packet cb hm
    have hmem : .callback packet cb ∈ s.trace := htrace ▸ List.mem_append_left _ hm
    obtain ⟨y, hy, rfl⟩ := run_callback r p max_flows max_blocked ops packet cb hmem
    cases hg : flowOf y.bytes with
    | none => simp [keyed, ofConnection, hg]
    | some g =>
      have hiff : g.key = f.key ↔ connectionOf g = connectionOf f := by
        constructor
        · intro he
          exact hsep y hy x hx g f hg (hxb ▸ hf) he
        · intro he
          rw [key_of_flowOf hg, key_of_flowOf hf, routeKey_of_connectionOf he]
      simp [keyed, ofConnection, hg, hiff]
  rw [← hsame]
  exact hfound

open traffic in
theorem a_hello_in_two_segments_convicts_its_connection :
    let ops : List Op := [.feed 0 (syn (client 2) 1),
      .feed 0 (segmentOf (client 2) 1 ((client_hello host).take 20) 2),
      .feed 0 (segmentOf (client 2) 21 ((client_hello host).drop 20) 3)]
    let s := after 2 1 ops
    Separated (fedBy ops) ∧ s.decided.map (·.verdict) = [.ALLOW, .BLOCK, .BLOCK] ∧
    ∀ d ∈ s.decided, d.verdict = .BLOCK → ∃ f, flowOf d.pkt.bytes = some f ∧
      Convicted { exact := [host] } f.key (ofConnection (connectionOf f)) s.trace := by
  intro ops s
  have hconn : ∀ x ∈ fedBy ops, (flowOf x.bytes).map connectionOf =
      (flowOf (syn (client 2) 1).val.bytes).map connectionOf := by
    decide +kernel
  have hsep : Separated (fedBy ops) := by
    intro x hx y hy f g hf hg _
    have hxy := (hconn x hx).trans (hconn y hy).symm
    rw [hf, hg] at hxy
    exact Option.some.inj hxy
  have hverdicts : s.decided.map (·.verdict) = [.ALLOW, .BLOCK, .BLOCK] := by decide +kernel
  exact ⟨hsep, hverdicts, no_connection_is_blocked_for_another rfl [] () 2 1 ops hsep⟩

open traffic in
/-- Another client's SYN, whose key is that of a blocked connection, is
blocked, although nothing was ever delivered for that client. -/
theorem a_colliding_connection_is_blocked :
    let other : Endpoint := ⟨[10, 185, 0, 253], 17932⟩
    let s := after 2 1 [.feed 0 (hello (client 2) 1), .feed 0 (syn other 2)]
    ∃ d ∈ s.decided, d.verdict = .BLOCK ∧ d.pkt.tag = (syn other 2).val.tag ∧
      ∀ f, flowOf d.pkt.bytes = some f →
        ¬ Convicted { exact := [host] } f.key (ofConnection (connectionOf f)) s.trace := by
  intro other s
  have hnothing : ∃ d ∈ s.decided, d.verdict = .BLOCK ∧ d.pkt.tag = (syn other 2).val.tag ∧
      ∀ f ∈ flowOf d.pkt.bytes, delivered (ofConnection (connectionOf f)) s.trace = [] := by
    decide +kernel
  obtain ⟨d, hd, hv, ht, hempty⟩ := hnothing
  refine ⟨d, hd, hv, ht, ?_⟩
  rintro f hf ⟨before, h, after, htrace, hfound, -⟩
  have hnone : clientStream (ofConnection (connectionOf f)) f.key before = [] := by
    have hall := hempty f hf
    rw [htrace, delivered_append] at hall
    have hsuffix := clientStream_suffix (ofConnection (connectionOf f)) f.key before
    rw [List.append_eq_nil_iff.mp hall |>.1] at hsuffix
    exact List.suffix_nil.mp hsuffix
  rw [hnone] at hfound
  cases hfound

end TcpTlsHostnameExtractor

end packet_inspector
