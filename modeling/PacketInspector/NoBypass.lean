-- No bypass of a blocked name: however a client cuts its ClientHello into
-- records and segments, and whatever runs between them, the packets that
-- carry it are blocked.
import PacketInspector.Gathering
import PacketInspector.Traffic

open wire packet_inspector.tls runs

namespace packet_inspector.TcpTlsHostnameExtractor

variable {R P : Type} {w : World R P} {b : BlockList} {rs : List Record}
  {s x : TcpTlsHostnameExtractor R P} {k : UInt32} {c : Conn} {now : Time} {f : FlowView}

/-! ## The calls of a window -/

/-- When the flow `k` was last fed a packet, after the calls of `ops`. -/
def lastSeen (k : UInt32) (start : Time) (ops : List Op) : Time :=
  ops.foldl (fun last op => if op.fed.bind keyOf = some k then op.now else last) start

/-- Calls that let the flow `k` gather its hello: no flush, no call ten
seconds after its last packet, no end of its connection, and no more payload
than a flow may hold. -/
structure Window (k : UInt32) (start : Time) (ops : List Op) : Prop where
  live : ∀ now, .flush now ∉ ops
  gaps : ∀ pre op, pre ++ [op] <+: ops → op.now - lastSeen k start pre < kWaitIdleTimeout
  unended : ∀ p ∈ fedBy ops, ∀ f, flowOf p.bytes = some f → f.key = k →
    f.tcp_flags &&& (kTcpFin ||| kTcpRst) = 0
  few : (carried k ops).length ≤ kMaxPacketsPerConn

theorem Window.init {start : Time} {ops : List Op} {op : Op} (h : Window k start (ops ++ [op])) :
    Window k start ops := by
  have hsub : ops <+: ops ++ [op] := List.prefix_append ops [op]
  refine ⟨?_, ?_, ?_, ?_⟩
  · intro now hm
    exact h.live now (hsub.subset hm)
  · intro pre op' hpre
    exact h.gaps pre op' (hpre.trans hsub)
  · intro p hp
    exact h.unended p ((hsub.sublist.filterMap _).subset hp)
  · refine le_trans ?_ h.few
    exact (((hsub.sublist.filterMap _).map _).filter _).length_le

theorem lastSeen_append (k : UInt32) (start : Time) (ops : List Op) (op : Op) :
    lastSeen k start (ops ++ [op]) =
      if op.fed.bind keyOf = some k then op.now else lastSeen k start ops := by
  simp [lastSeen]

theorem carried_append (k : UInt32) (ops more : List Op) :
    carried k (ops ++ more) = carried k ops ++ carried k more := by
  simp [carried, fedBy]

theorem carried_feed (k : UInt32) (now : Time) (p : Arrival) :
    carried k [.feed now p] = if carries p.val.tag = some k then [p.val.tag] else [] := by
  simp [carried, fedBy, Op.fed, List.filter_cons]

/-- A call that feeds no packet of `k` feeds no payload of it. -/
theorem carried_other {op : Op} (h : op.fed.bind keyOf ≠ some k) : carried k [op] = [] := by
  cases op with
  | feed now p =>
    rw [carried_feed, if_neg]
    intro hc
    exact h (keyOf_of_carries hc)
  | tick now => rfl
  | flush now => rfl

/-! ## The flow between its packets -/

theorem Gathers.calm (h : Gathers k s x c) (hgap : now - c.last < kWaitIdleTimeout) :
    Calm k now x := by
  intro c' hl hc
  rw [h.entry] at hl
  cases hl
  simp only [isIdle, idleTimeout, hc]
  simpa using hgap

theorem Gathers.tick {fed : List Packet} (h : Gathers k s x c) (hfeed : x.feeding = false)
    (ha : Accounted fed x) (hgap : now - c.last < kWaitIdleTimeout) :
    Gathers k s (x.tick w now) c := by
  obtain ⟨hbeside, hbytes⟩ := tick_beside w hfeed ha (h.calm hgap)
  exact h.beside hbeside hbytes

/-- A packet of the flow is handled by `feedTracked`, after the tick. -/
theorem Gathers.feed_eq {p : Arrival} (h : Gathers f.key s (x.tick w now) c)
    (hf : flowOf p.val.bytes = some f) :
    x.feed w now p.val = ((x.tick w now).feedTracked w now p.val f c).publish := by
  rw [feed_of_flow hf]
  unfold feedFlow
  simp only [h.entry]
  rw [if_neg (by rw [h.waits]; decide)]

/-! ## The packets of the flow -/

/-- What was delivered since `s` only grows. -/
theorem since_grows {y : TcpTlsHostnameExtractor R P} (hx : ∃ es, x.trace = s.trace ++ es)
    (hy : ∃ es, y.trace = x.trace ++ es) : since k s x <+: since k s y := by
  obtain ⟨es, hes⟩ := hx
  obtain ⟨es', hes'⟩ := hy
  have h1 : since k s x = delivered (keyed k) es := since_eq (by rw [hes, delivered_append])
  have h2 : since k s y = delivered (keyed k) es ++ delivered (keyed k) es' :=
    since_eq (by rw [hes', hes, delivered_append, delivered_append, List.append_assoc])
  rw [h1, h2]
  exact List.prefix_append _ _

theorem run_grows (ops : List Op) (hfeed : x.feeding = false) :
    ∃ es, (ops.foldl (Op.apply w) x).trace = x.trace ++ es := by
  refine (run_keeps (I := fun _ (y : TcpTlsHostnameExtractor R P) =>
    (∃ es, y.trace = x.trace ++ es) ∧ y.feeding = false) ⟨⟨[], by simp⟩, hfeed⟩ ?_ ops).1
  rintro done y op ⟨⟨es, he⟩, hy⟩
  obtain ⟨es', he', -⟩ := apply_trace (w := w) op hy
  exact ⟨⟨es ++ es', by rw [he', he, List.append_assoc]⟩, apply_feeding op hy⟩

/-- What the hello of the flow is known to be: its framing, and that the
bytes delivered are a part of it which is not all of it. -/
def Partial (rs : List Record) (data : Bytes) : Prop :=
  data <+: Record.encodeAll rs ∧ ¬ Record.encodeAll rs <+: data

/-- Before the packet that completes the hello, the bytes are a part of it. -/
theorem partial_before {t : TcpTlsHostnameExtractor R P} {window : List Op} {p : Arrival}
    (hfeed : t.feeding = false) (hgrow : ∃ es, t.trace = s.trace ++ es)
    (hfirst : ∀ pre, pre <+: window →
      ¬ Record.encodeAll rs <+: since k s (pre.foldl (Op.apply w) t))
    (hle : Record.encodeAll rs <+: since k s ((window.foldl (Op.apply w) t).feed w now p.val)) :
    ∀ pre, pre <+: window → Partial rs (since k s (pre.foldl (Op.apply w) t)) := by
  rintro pre ⟨rest, rfl⟩
  have hnot := hfirst pre (List.prefix_append pre rest)
  obtain ⟨es, he⟩ := hgrow
  obtain ⟨es', he'⟩ := run_grows (w := w) pre hfeed
  have hpre := run_grows (w := w) (rest ++ [.feed now p]) (run_decided (w := w) pre hfeed).2
  rw [← List.foldl_append, ← List.append_assoc, List.foldl_append] at hpre
  have hmore := since_grows (s := s) (k := k) ⟨es ++ es', by rw [he', he, List.append_assoc]⟩
    hpre
  exact ⟨(List.prefix_or_prefix_of_prefix hmore hle).resolve_right hnot, hnot⟩

section Packets

variable (hpolicy : w.decide = workerPolicy b) (hrs : Frames b rs) (hw : EndsOnFin w)

include hpolicy hrs hw

/-- A client SYN that finds room in the table starts the gathering. -/
theorem syn_gathers {syn : Arrival} {fed : List Packet} (hfeed : s.feeding = false)
    (ha : Accounted fed s) (hn : s.conns.find f.key = none)
    (hf : flowOf syn.val.bytes = some f) (hsyn : isClientSyn f = true) (hpay : f.payload_len = 0)
    (hfin : f.tcp_flags &&& (kTcpFin ||| kTcpRst) = 0)
    (hroom : ((s.tick w now).makeRoom w now).conns.size <
      ((s.tick w now).makeRoom w now).max_flows)
    (hpart : Partial rs (since f.key s (s.feed w now syn.val))) :
    ∃ c, Gathers f.key s (s.feed w now syn.val) c ∧ c.last = now ∧ c.held.map Packet.tag = [] := by
  obtain ⟨htick, hfeed'⟩ := tick_path w now .tick hfeed
  have hcall : Call.tick.key ≠ some f.key := by simp [Call.key]
  have hpath := htick.trans (makeRoom_path w now .tick hfeed').1
  have hcalm : Calm f.key now s := by
    intro c hl
    rw [hn] at hl
    cases hl
  have hbeside := path_beside hpath hcall (by simp) ha hcalm
  have hbytes := path_delivered hpath hcall
  have hn' : (s.tick w now).conns.find f.key = none :=
    path_find_none htick hcall hn
  have heq : s.feed w now syn.val =
      ((((s.tick w now).makeRoom w now).log (.tracked f.key)).feedTracked w now syn.val f
        {}).publish := by
    rw [feed_of_flow hf]
    unfold feedFlow feedUntracked
    simp only [hn']
    rw [if_neg (by simp [opensTracking, hsyn]), if_neg (by omega)]
  generalize (s.tick w now).makeRoom w now = y at hbeside hbytes heq
  have hfresh : Gathers f.key s ((y.log (.tracked f.key)).put f.key {}) {} := by
    refine ⟨AList.find_insert_self _ _ _, rfl, ?_, hbeside.decisions⟩
    rw [put_trace, log_trace, delivered_append, hbytes]
    rfl
  rw [heq, ← feedTracked_put] at hpart ⊢
  have hne : ¬ Record.encodeAll rs <+: ({} : Conn).stream := by
    intro h
    exact hpart.2 (h.trans List.nil_prefix)
  obtain ⟨c, hg, hlast, hheld⟩ := hfresh.feedTracked hpolicy hrs hw hf hfin hne (by decide) rfl
    hpart.1 hpart.2
  exact ⟨c, ⟨hg.entry, hg.waits, hg.bytes, hg.decisions⟩, hlast, by simpa [hpay] using hheld⟩

/-- A packet of the flow that brings another part of the hello. -/
theorem Gathers.feed {p : Arrival} {fed : List Packet} (h : Gathers f.key s x c)
    (hfeed : x.feeding = false) (ha : Accounted fed x)
    (hgap : now - c.last < kWaitIdleTimeout) (hf : flowOf p.val.bytes = some f)
    (hfin : f.tcp_flags &&& (kTcpFin ||| kTcpRst) = 0)
    (hroom : c.held.length < kMaxPacketsPerConn) (hopen : ¬ Record.encodeAll rs <+: c.stream)
    (hpart : Partial rs (since f.key s (x.feed w now p.val))) :
    ∃ c', Gathers f.key s (x.feed w now p.val) c' ∧ c'.last = now ∧
      c'.held.map Packet.tag = c.held.map Packet.tag ++ carried f.key [.feed now p] := by
  have htick : Gathers f.key s (x.tick w now) c := h.tick hfeed ha hgap
  rw [htick.feed_eq hf] at hpart ⊢
  obtain ⟨c', hg, hlast, hheld⟩ := htick.feedTracked hpolicy hrs hw hf hfin hopen hroom rfl
    hpart.1 hpart.2
  refine ⟨c', ⟨hg.entry, hg.waits, hg.bytes, hg.decisions⟩, hlast, ?_⟩
  rw [hheld, carried_feed, carries_of_flow hf]
  by_cases hpay : f.payload_len > 0
  · simp [hpay]
  · simp [hpay]

/-- The flow gathers through the whole window: it holds the payload that came,
in order. The induction is over the calls made so far. -/
theorem Gathers.window {t : TcpTlsHostnameExtractor R P} {fed : List Packet} {start : Time}
    {ops : List Op} (h : Gathers k s t c) (hfeed : t.feeding = false) (ha : Accounted fed t)
    (hlast : c.last = start) (hheld : c.held.map Packet.tag = []) (hwin : Window k start ops)
    (hfew : (carried k ops).length < kMaxPacketsPerConn)
    (hpart : ∀ pre, pre <+: ops → Partial rs (since k s (pre.foldl (Op.apply w) t))) :
    ∀ pre, pre <+: ops → ∃ c', Gathers k s (pre.foldl (Op.apply w) t) c' ∧
      c'.last = lastSeen k start pre ∧ c'.held.map Packet.tag = carried k pre := by
  intro pre
  induction pre using List.reverseRecOn with
  | nil => exact fun _ => ⟨c, h, hlast, hheld⟩
  | append_singleton pre op ih =>
    intro hpre
    have hpre' : pre <+: ops := (List.prefix_append pre [op]).trans hpre
    have hmem : op ∈ ops := hpre.subset (by simp)
    obtain ⟨c', hg, hlast', hheld'⟩ := ih hpre'
    have hgap := hwin.gaps pre op hpre
    rw [← hlast'] at hgap
    have hnext := hpart _ hpre
    have hfeed' := (run_decided (w := w) pre hfeed).2
    have ha' := accounted_later (w := w) ha hfeed pre
    rw [List.foldl_append, lastSeen_append, carried_append]
    rw [List.foldl_append] at hnext
    by_cases hop : op.fed.bind keyOf = some k
    · rw [if_pos hop]
      cases op with
      | tick now => cases hop
      | flush now => cases hop
      | feed now p =>
        obtain ⟨f, hf, rfl⟩ := Option.map_eq_some_iff.mp (hop : keyOf p.val = some k)
        have hfin := hwin.unended p.val (List.mem_filterMap.mpr ⟨_, hmem, rfl⟩) f hf rfl
        have hroom : c'.held.length < kMaxPacketsPerConn := by
          obtain ⟨rest, hrest⟩ := hpre'
          have hlen := congrArg List.length hheld'
          rw [List.length_map] at hlen
          rw [← hrest, carried_append, List.length_append] at hfew
          omega
        have hopen := (hpart pre hpre').2
        rw [hg.since_eq] at hopen
        rw [← hheld']
        exact hg.feed hpolicy hrs hw hfeed' ha' hgap hf hfin hroom hopen hnext
    · rw [if_neg hop, carried_other hop, List.append_nil]
      have hother : ∀ p, op.fed = some p → keyOf p ≠ some k := by
        intro p hp hk
        exact hop (by rw [hp]; exact hk)
      have hlive : ∀ now, op ≠ .flush now := fun now he => hwin.live now (he ▸ hmem)
      have hbeside := apply_beside (w := w) hother hlive hfeed' ha' (hg.calm hgap)
      exact ⟨c', hg.beside hbeside.1 hbeside.2, hlast', hheld'⟩

/-- The packet that completes the hello blocks the flow, with everything that
it holds. -/
theorem Gathers.feed_caught {p : Arrival} {fed : List Packet} (h : Gathers f.key s x c)
    (hfeed : x.feeding = false) (ha : Accounted fed x)
    (hgap : now - c.last < kWaitIdleTimeout) (hf : flowOf p.val.bytes = some f)
    (hfin : f.tcp_flags &&& (kTcpFin ||| kTcpRst) = 0)
    (hroom : c.held.length < kMaxPacketsPerConn) (hopen : ¬ Record.encodeAll rs <+: c.stream)
    (hpay : f.payload_len > 0)
    (hle : Record.encodeAll rs <+: since f.key s (x.feed w now p.val)) :
    (x.feed w now p.val).blockedConn f.key = true ∧
    (x.feed w now p.val).decidedOf f.key =
      s.decidedOf f.key ++ (c.held ++ [p.val]).map (fun p => ⟨p, .BLOCK⟩) := by
  have htick : Gathers f.key s (x.tick w now) c := h.tick hfeed ha hgap
  rw [htick.feed_eq hf] at hle ⊢
  obtain ⟨hb, hdec⟩ := htick.feedTracked_caught hpolicy hrs hw hf hfin hopen hroom hpay hle
  refine ⟨hb, ?_⟩
  have hown : ∀ d ∈ (c.held ++ [p.val]).map (fun p => (⟨p, .BLOCK⟩ : Decided)),
      carries d.pkt.tag = some f.key := by
    intro d hd
    obtain ⟨q, hq, rfl⟩ := List.mem_map.mp hd
    rcases List.mem_append.mp hq with hq | hq
    · exact (ha.home h.entry hq).2
    · rw [List.mem_singleton] at hq
      subst hq
      exact carries_eq_some_iff.mpr ⟨f, hf, hpay, rfl⟩
  rw [← htick.decisions]
  unfold decidedOf
  rw [publish_decided, hdec, List.filter_append]
  congr 1
  rw [List.filter_eq_self]
  intro d hd
  exact decide_eq_true (hown d hd)

/-- From the SYN to the packet that completes the hello: the flow is blocked,
and what it held is what came of its payload. -/
theorem window_caught {fed : List Packet} {start : Time} {syn pkt : Arrival} {g : FlowView}
    {window : List Op} (hfeed : s.feeding = false) (ha : Accounted fed s)
    (hn : s.conns.find g.key = none) (hg : flowOf syn.val.bytes = some g)
    (hsyn : isClientSyn g = true) (hempty : g.payload_len = 0)
    (hgfin : g.tcp_flags &&& (kTcpFin ||| kTcpRst) = 0)
    (hroom : ((s.tick w start).makeRoom w start).conns.size <
      ((s.tick w start).makeRoom w start).max_flows)
    (hpkt : carries pkt.val.tag = some g.key)
    (hwin : Window g.key start (window ++ [.feed now pkt]))
    (hfirst : ∀ pre, pre <+: window → ¬ Record.encodeAll rs <+:
      since g.key s (pre.foldl (Op.apply w) (s.feed w start syn.val)))
    (hle : Record.encodeAll rs <+: since g.key s
      ((window.foldl (Op.apply w) (s.feed w start syn.val)).feed w now pkt.val)) :
    ∃ held : List Packet,
      ((window.foldl (Op.apply w) (s.feed w start syn.val)).feed w now pkt.val).blockedConn
        g.key = true ∧
      ((window.foldl (Op.apply w) (s.feed w start syn.val)).feed w now pkt.val).decidedOf g.key =
        s.decidedOf g.key ++ held.map (fun p => ⟨p, .BLOCK⟩) ∧
      held.map Packet.tag = carried g.key (window ++ [.feed now pkt]) := by
  obtain ⟨f, hf, hpay, hk⟩ := carries_eq_some_iff.mp hpkt
  have htfeed : (s.feed w start syn.val).feeding = false := apply_feeding (.feed start syn) hfeed
  have hta : Accounted _ (s.feed w start syn.val) :=
    accounted_later (w := w) ha hfeed [.feed start syn]
  have hpart := partial_before htfeed (run_grows (w := w) [.feed start syn] hfeed) hfirst hle
  obtain ⟨c0, hg0, hlast0, hheld0⟩ := syn_gathers hpolicy hrs hw hfeed ha hn hg hsyn hempty
    hgfin hroom (hpart [] List.nil_prefix)
  generalize s.feed w start syn.val = t at *
  have hfew : (carried g.key window).length < kMaxPacketsPerConn := by
    have hall := hwin.few
    rw [carried_append, carried_feed, if_pos hpkt, List.length_append] at hall
    exact hall
  obtain ⟨c, hgather, hlast, hheld⟩ := hg0.window hpolicy hrs hw htfeed hta hlast0 hheld0
    hwin.init hfew hpart window (List.prefix_refl _)
  have hgap := hwin.gaps window (.feed now pkt) (List.prefix_refl _)
  rw [← hlast] at hgap
  have hopen := (hpart window (List.prefix_refl _)).2
  rw [hgather.since_eq] at hopen
  have hlen := congrArg List.length hheld
  rw [List.length_map] at hlen
  have hfin := hwin.unended pkt.val (by simp [fedBy, Op.fed]) f hf hk
  rw [← hk] at hgather hle
  obtain ⟨hb, hdec⟩ := hgather.feed_caught hpolicy hrs hw (run_decided (w := w) window htfeed).2
    (accounted_later (w := w) hta htfeed window) hgap hf hfin (by omega) hopen hpay hle
  rw [hk] at hb hdec
  refine ⟨_, hb, hdec, ?_⟩
  rw [carried_append, ← hheld, carried_feed, if_pos hpkt, List.map_append]
  rfl

end Packets

/-! ## The flow once it is blocked -/

theorem calm_of_blocked (hb : x.blockedConn k = true) : Calm k now x := by
  intro c hl hc
  obtain ⟨c', hl', hc'⟩ := blockedConn_iff.mp hb
  rw [hl] at hl'
  cases hl'
  rw [hc] at hc'
  cases hc'

theorem Beside.blocked {y : TcpTlsHostnameExtractor R P} (h : Beside k x y)
    (hb : x.blockedConn k = true) : y.blockedConn k = true ∨ Lost k x y := by
  rcases h.entry with he | ⟨-, -, hlost⟩
  · unfold blockedConn at hb ⊢
    rw [he]
    exact .inl hb
  · exact .inr hlost

/-- A packet of a blocked flow is decided at once. -/
theorem feed_blocked {p : Arrival} (hf : flowOf p.val.bytes = some f)
    (hb : (x.tick w now).blockedConn f.key = true) :
    (x.feed w now p.val).blockedConn f.key = true ∧
    (x.feed w now p.val).decided = (x.tick w now).decided ++ [⟨p.val, .BLOCK⟩] := by
  obtain ⟨c, hl, hc⟩ := blockedConn_iff.mp hb
  rw [feed_of_blocked hf hl hc]
  exact ⟨blockedConn_iff.mpr ⟨{ c with last := now }, AList.find_insert_self _ _ _, hc⟩, rfl⟩

/-- Until it is lost, a blocked flow stays blocked through a tick. -/
theorem tick_blocked {v : TcpTlsHostnameExtractor R P} {fed : List Packet} (w : World R P)
    (now : Time) (hfeed : x.feeding = false) (ha : Accounted fed x)
    (hgrow : ∃ es, x.trace = v.trace ++ es) (h : x.blockedConn k = true ∨ Lost k v x) :
    (x.tick w now).blockedConn k = true ∨ Lost k v (x.tick w now) := by
  have hmore := path_grows (tick_path w now .tick hfeed).1
  rcases h with hb | hlost
  · have hbeside : Beside k x (x.tick w now) :=
      (tick_beside w hfeed ha (calm_of_blocked hb)).1
    exact (hbeside.blocked hb).imp_right (fun hlost => hlost.before hgrow)
  · exact .inr (hlost.after hmore)

theorem run_blocked {v : TcpTlsHostnameExtractor R P} {fed : List Packet}
    (hfeed : v.feeding = false) (ha : Accounted fed v) (hb : v.blockedConn k = true)
    (later : List Op) (hlive : ∀ now, .flush now ∉ later) :
    (later.foldl (Op.apply w) v).blockedConn k = true ∨
      Lost k v (later.foldl (Op.apply w) v) := by
  induction later using List.reverseRecOn with
  | nil => exact .inl hb
  | append_singleton later op ih =>
    have hbefore := ih (fun now hm => hlive now (List.mem_append_left _ hm))
    have hfeed' := (run_decided (w := w) later hfeed).2
    have ha' := accounted_later (w := w) ha hfeed later
    have hgrow := run_grows (w := w) later hfeed
    rw [List.foldl_append]
    generalize later.foldl (Op.apply w) v = y at hbefore hfeed' ha' hgrow
    change (op.apply w y).blockedConn k = true ∨ Lost k v (op.apply w y)
    obtain ⟨es, hmore, -⟩ := apply_trace (w := w) op hfeed'
    rcases hbefore with hby | hlost
    · by_cases hop : ∃ now p, op = .feed now p ∧ keyOf p.val = some k
      · obtain ⟨now, p, rfl, hkey⟩ := hop
        obtain ⟨f, hf, rfl⟩ := Option.map_eq_some_iff.mp hkey
        rcases tick_blocked w now hfeed' ha' hgrow (.inl hby) with hbt | hlost
        · exact .inl (feed_blocked hf hbt).1
        · exact .inr (hlost.after (feed_grows hf hfeed'))
      · have hother : ∀ p, op.fed = some p → keyOf p ≠ some k := by
          intro p hp hk
          cases op with
          | feed now q =>
            cases hp
            exact hop ⟨now, q, rfl, hk⟩
          | tick now => cases hp
          | flush now => cases hp
        have hno : ∀ now, op ≠ .flush now := by
          rintro now rfl
          exact hlive now (by simp)
        have hbeside := (apply_beside (w := w) hother hno hfeed' ha' (calm_of_blocked hby)).1
        exact (hbeside.blocked hby).imp_right (fun hlost => hlost.before hgrow)
    · exact .inr (hlost.after ⟨es, hmore⟩)

/-! ## The law -/

/-- No bypass of a blocked name. A client SYN finds room in the table, and in
the calls that follow the client bytes of the flow come to start with a framed
ClientHello of a blocked hostname. Then all of the flow's payload since the
SYN is decided BLOCK, in order, and none of it is decided again; and every
later packet of the flow is decided BLOCK as it is fed, until the flow is
evicted, idles out or is flushed. -/
theorem a_blocked_name_is_never_bypassed {w : World R P} {b : BlockList}
    (hpolicy : w.decide = workerPolicy b) (hw : EndsOnFin w) (r : R) (p : P)
    (max_flows max_blocked : Nat) (ops : List Op) (start : Time) (syn : Arrival) (g : FlowView)
    (hg : flowOf syn.val.bytes = some g) (hsyn : isClientSyn g = true) (hempty : g.payload_len = 0)
    (hgfin : g.tcp_flags &&& (kTcpFin ||| kTcpRst) = 0) (window : List Op) (now : Time)
    (pkt : Arrival) (hpkt : carries pkt.val.tag = some g.key) :
    let s := ops.foldl (Op.apply w) (init r p max_flows max_blocked)
    let t := s.feed w start syn.val
    let v := (window.foldl (Op.apply w) t).feed w now pkt.val
    s.conns.find g.key = none →
    ((s.tick w start).makeRoom w start).conns.size <
      ((s.tick w start).makeRoom w start).max_flows →
    Window g.key start (window ++ [.feed now pkt]) →
    (∀ pre, pre <+: window → ¬ Begins b (since g.key s (pre.foldl (Op.apply w) t))) →
    Begins b (since g.key s v) →
    (∃ ds, v.decidedOf g.key = s.decidedOf g.key ++ ds ∧
      ds.map (·.pkt.tag) = carried g.key (window ++ [.feed now pkt]) ∧
      ∀ d ∈ ds, d.verdict = .BLOCK) ∧
    (∀ later, ∃ ds, (later.foldl (Op.apply w) v).decided = v.decided ++ ds ∧
      (ds.map (·.pkt.tag)).filter (fun x => carries x = some g.key) <+: carried g.key later) ∧
    (∀ (later : List Op) (now' : Time) (q : Arrival), (∀ now, .flush now ∉ later) →
      keyOf q.val = some g.key →
      ¬ Lost g.key v ((later.foldl (Op.apply w) v).tick w now') →
      ((later.foldl (Op.apply w) v).feed w now' q.val).decided =
        ((later.foldl (Op.apply w) v).tick w now').decided ++ [⟨q.val, .BLOCK⟩]) := by
  intro s t v hnone hroom hwin hfirst ⟨rs, hrs, hle⟩
  obtain ⟨ha, hfeed⟩ := accounted_run w r p max_flows max_blocked ops
  obtain ⟨held, hb, hdec, hheld⟩ := window_caught hpolicy hrs hw hfeed ha hnone hg hsyn hempty
    hgfin hroom hpkt hwin (fun pre hpre hpart => hfirst pre hpre ⟨rs, hrs, hpart⟩) hle
  have hrun : (.feed start syn :: (window ++ [.feed now pkt])).foldl (Op.apply w) s = v := by
    rw [List.foldl_cons, List.foldl_append]
    rfl
  have hva := accounted_later (w := w) ha hfeed (.feed start syn :: (window ++ [.feed now pkt]))
  have hvfeed := (run_decided (w := w) (.feed start syn :: (window ++ [.feed now pkt])) hfeed).2
  rw [hrun] at hva hvfeed
  refine ⟨⟨_, hdec, ?_, ?_⟩, blocked_decides_once hva hvfeed hb, ?_⟩
  · rw [← hheld, List.map_map]
    rfl
  · intro d hd
    obtain ⟨q, -, rfl⟩ := List.mem_map.mp hd
    rfl
  · intro later now' q hlive hkey hkept
    obtain ⟨f, hf, hk⟩ := Option.map_eq_some_iff.mp hkey
    have hstill := run_blocked (w := w) hvfeed hva hb later hlive
    have htick := tick_blocked w now' (run_decided (w := w) later hvfeed).2
      (accounted_later (w := w) hva hvfeed later) (run_grows (w := w) later hvfeed) hstill
    rw [← hk] at htick hkept
    exact (feed_blocked hf (htick.resolve_right hkept)).2

section Traffic

open traffic

theorem world_endsOnFin (b : BlockList) : EndsOnFin (world b) := by
  intro links now packet f tok hf hfin
  have htake : ∀ l : Link, .finish tok ∉ (l.take now packet f).2 := by
    intro l hm
    rcases l.told_of_take hm with ⟨side, data, he⟩ | ⟨-, hflags⟩
    · cases he
    · exact hflags hfin
  simp only [world, reassemblePacket, hf]
  split
  · simp [htake]
  · exact htake _

/-- A ClientHello in two records, of which the first has ten bytes of it. -/
def twoRecords : List Record :=
  [⟨1, ((client_hello host).drop 5).take 10, by decide, by decide⟩,
    ⟨1, ((client_hello host).drop 5).drop 10, by decide, by decide⟩]

/-- The records in two segments, cut behind the header of the second one. -/
theorem a_hello_in_two_records_and_two_segments_is_blocked :
    let w := world { exact := [host] }
    let s := after 2 1 []
    let t := s.feed w 0 (syn (client 2) 1).val
    let first := segmentOf (client 2) 1 ((Record.encodeAll twoRecords).take 20) 2
    let second := segmentOf (client 2) 21 ((Record.encodeAll twoRecords).drop 20) 3
    let v := (t.feed w 0 first.val).feed w (seconds 9) second.val
    ∃ ds, v.decidedOf 3561989440 = s.decidedOf 3561989440 ++ ds ∧
      ds.map (·.pkt.tag) = [first.val.tag, second.val.tag] ∧ ∀ d ∈ ds, d.verdict = .BLOCK := by
  intro w s t first second v
  have hsyn : ∃ g, flowOf (syn (client 2) 1).val.bytes = some g ∧ g.key = 3561989440 ∧
      isClientSyn g = true ∧ g.payload_len = 0 ∧ g.tcp_flags &&& (kTcpFin ||| kTcpRst) = 0 := by
    decide +kernel
  obtain ⟨g, hg, hk, hclient, hempty, hgfin⟩ := hsyn
  have hroom : s.conns.find 3561989440 = none ∧
      ((s.tick w 0).makeRoom w 0).conns.size < ((s.tick w 0).makeRoom w 0).max_flows := by
    decide +kernel
  have hpkt : carries second.val.tag = some 3561989440 := by decide +kernel
  have hframes : Frames { exact := [host] } twoRecords :=
    ⟨by decide +kernel, by decide +kernel, host, by decide +kernel, by decide⟩
  have hlast : ∀ f ∈ flowOf second.val.bytes, f.tcp_flags &&& (kTcpFin ||| kTcpRst) = 0 := by
    decide +kernel
  have hfirst : ∀ f ∈ flowOf first.val.bytes, f.tcp_flags &&& (kTcpFin ||| kTcpRst) = 0 := by
    decide +kernel
  have htags : carried 3561989440 [.feed 0 first, .feed (seconds 9) second] =
      [first.val.tag, second.val.tag] := by
    decide +kernel
  have hwin : Window 3561989440 0 [.feed 0 first, .feed (seconds 9) second] := by
    refine ⟨by simp, ?_, ?_, ?_⟩
    · rintro pre op ⟨rest, hrest⟩
      rcases pre with _ | ⟨o, _ | ⟨o', pre⟩⟩
      · obtain ⟨rfl, -⟩ := List.cons.inj hrest
        decide +kernel
      · obtain ⟨rfl, htail⟩ := List.cons.inj hrest
        obtain ⟨rfl, -⟩ := List.cons.inj htail
        decide +kernel
      · simp at hrest
    · intro p hp f hf _
      have hmem : p = first.val ∨ p = second.val := by simpa [fedBy, Op.fed] using hp
      rcases hmem with rfl | rfl
      · exact hfirst f hf
      · exact hlast f hf
    · rw [htags]
      decide
  have hlaw := a_blocked_name_is_never_bypassed rfl (world_endsOnFin { exact := [host] }) [] () 2 1
    [] 0 (syn (client 2) 1) g hg hclient hempty hgfin [.feed 0 first] (seconds 9) second
    (hk ▸ hpkt)
  rw [hk] at hlaw
  have hopen : extractHostname (since 3561989440 s t) = .NeedMore ∧
      extractHostname (since 3561989440 s (t.feed w 0 first.val)) = .NeedMore := by
    decide +kernel
  have hparts : ∀ pre, pre <+: [.feed 0 first] →
      ¬ Begins { exact := [host] } (since 3561989440 s (pre.foldl (Op.apply w) t)) := by
    rintro pre ⟨rest, hrest⟩
    rcases pre with _ | ⟨o, _ | ⟨o', pre⟩⟩
    · exact not_begins_of_needMore hopen.1
    · obtain ⟨rfl, -⟩ := List.cons.inj hrest
      exact not_begins_of_needMore hopen.2
    · simp at hrest
  have hwhole : Record.encodeAll twoRecords <+: since 3561989440 s v := ⟨[], by decide +kernel⟩
  have hcaught := (hlaw hroom.1 hroom.2 hwin hparts ⟨twoRecords, hframes, hwhole⟩).1
  rw [← htags]
  exact hcaught

/-- A datagram whose flow key is that of a blocked flow is let through: it is
no TCP. -/
theorem a_datagram_with_the_key_of_a_blocked_flow_is_allowed :
    let udp := owned (build_udp ⟨[10, 8, 163, 206], 20044⟩ server [0x01]) 3
    let s := after 2 1 [.feed 0 (syn (client 2) 1), .feed 0 (hello (client 2) 2), .feed 0 udp]
    (syn (client 2) 1).val.flow_key = udp.val.flow_key ∧
    (hello (client 2) 2).val.flow_key = udp.val.flow_key ∧
    (udp.val.flow_view {}).2.payload_len > 0 ∧
    s.decided.map (fun d => (d.pkt.id, d.verdict)) = [(1, .ALLOW), (2, .BLOCK), (3, .ALLOW)] ∧
    s.blockedConn udp.val.flow_key = true := by
  decide +kernel

end Traffic

end packet_inspector.TcpTlsHostnameExtractor
