-- A live flow and the close of its own connection: the token of a waiting
-- flow is not in the queue of closes when the queue is drained, as long as
-- no flow is tracked again before the close that it left behind is drained.
import PacketInspector.Closing
import PacketInspector.Accounting
import PacketInspector.Traffic

open wire packet_inspector.tls runs

namespace packet_inspector

/-- The tokens tell the connections of these packets apart. -/
def Apart (token : Connection → UInt32) (fed : List Packet) : Prop :=
  ∀ p ∈ fed, ∀ q ∈ fed, ∀ f g, flowOf p.bytes = some f → flowOf q.bytes = some g →
    token (connectionOf f) = token (connectionOf g) → connectionOf f = connectionOf g

/-- The token is that of a connection with this flow key. -/
def Home (token : Connection → UInt32) (fed : List Packet) (tok key : UInt32) : Prop :=
  ∃ p ∈ fed, ∃ f, flowOf p.bytes = some f ∧ token (connectionOf f) = tok ∧ f.key = key

theorem Apart.key_eq {token : Connection → UInt32} {fed : List Packet} {tok k k' : UInt32}
    (h : Apart token fed) (h1 : Home token fed tok k) (h2 : Home token fed tok k') : k = k' := by
  obtain ⟨p, hp, f, hf, ht, rfl⟩ := h1
  obtain ⟨q, hq, g, hg, ht', rfl⟩ := h2
  have hconn := h p hp q hq f g hf hg (ht.trans ht'.symm)
  rw [key_of_flowOf hf, key_of_flowOf hg]
  exact routeKey_of_connectionOf hconn

theorem Apart.mono {token : Connection → UInt32} {fed fed' : List Packet} (h : Apart token fed')
    (hsub : fed ⊆ fed') : Apart token fed :=
  fun p hp q hq => h p (hsub hp) q (hsub hq)

theorem Home.mono {token : Connection → UInt32} {fed fed' : List Packet} {tok k : UInt32}
    (h : Home token fed tok k) (hsub : fed ⊆ fed') : Home token fed' tok k := by
  obtain ⟨p, hp, hrest⟩ := h
  exact ⟨p, hsub hp, hrest⟩

namespace TcpTlsHostnameExtractor

variable {R P : Type} {w : World R P} {s x : TcpTlsHostnameExtractor R P} {now : Time}
  {token : Connection → UInt32} {fed : List Packet} {key : UInt32}

/-! ## The invariant -/

/-- Every token belongs to its flow, and only the flow `key` may wait with a
token that is in the queue. -/
structure Unclosed (token : Connection → UInt32) (fed : List Packet) (key : Option UInt32)
    (s : TcpTlsHostnameExtractor R P) : Prop where
  home : ∀ k tok b, s.waits k = some (tok, b) → tok = 0 ∨ Home token fed tok k
  free : ∀ k tok b, some k ≠ key → s.waits k = some (tok, b) → tok ∉ s.to_close
  nonzero : 0 ∉ s.to_close

theorem Unclosed.alike {key : Option UInt32} {y : TcpTlsHostnameExtractor R P}
    (h : Unclosed token fed key x) (ha : Alike x y) : Unclosed token fed key y := by
  refine ⟨?_, ?_, ?_⟩
  · intro k tok b hk
    rw [ha.waits] at hk
    exact h.home k tok b hk
  · intro k tok b hne hk
    rw [ha.waits] at hk
    rw [ha.to_close]
    exact h.free k tok b hne hk
  · rw [ha.to_close]
    exact h.nonzero

theorem Unclosed.mono {key : Option UInt32} {fed' : List Packet} (h : Unclosed token fed key x)
    (hsub : fed ⊆ fed') : Unclosed token fed' key x :=
  ⟨fun k tok b hk => (h.home k tok b hk).imp_right (fun hh => hh.mono hsub), h.free, h.nonzero⟩

/-- A flow that stops to wait may queue its token: it is no other flow's. -/
theorem Unclosed.leave {key' : Option UInt32} {v : UInt32 × Bool} {y : TcpTlsHostnameExtractor R P}
    (h : Unclosed token fed key' x) (hapart : Apart token fed)
    (hv : v.1 = 0 ∨ Home token fed v.1 key) (hw : Write key none (queued v) x y) :
    Unclosed token fed key' y := by
  refine ⟨?_, ?_, ?_⟩
  · intro k tok b hk
    rw [hw.waits] at hk
    split at hk
    · cases hk
    · exact h.home k tok b hk
  · intro k tok b hne hk hm
    rw [hw.waits] at hk
    split at hk
    · cases hk
    · rename_i hkey
      rw [hw.to_close] at hm
      rcases List.mem_append.mp hm with hm | hm
      · exact h.free k tok b hne hk hm
      · obtain ⟨rfl, h0⟩ := eq_of_mem_queued hm
        have h1 := (h.home k v.1 b hk).resolve_left h0
        exact hkey (hapart.key_eq h1 (hv.resolve_left h0))
  · rw [hw.to_close]
    intro hm
    rcases List.mem_append.mp hm with hm | hm
    · exact h.nonzero hm
    · exact (eq_of_mem_queued hm).2 rfl

theorem Unclosed.resolve {key' : Option UInt32} (h : Unclosed token fed key' x)
    (hapart : Apart token fed) (key : UInt32) (hostname : Option Bytes) :
    Unclosed token fed key' (x.resolve w key hostname) := by
  refine resolve_keeps (I := Unclosed token fed key') ?_ h
  intro v y hv hw
  exact h.leave hapart (h.home key v.1 v.2 hv) hw

/-- A flow that waits anew has no token, and zero is never queued. -/
theorem Unclosed.enter {key' : Option UInt32} {y : TcpTlsHostnameExtractor R P}
    (h : Unclosed token fed key' x) (hw : Write key (some (0, false)) [] x y) :
    Unclosed token fed key' y := by
  have hsame : y.to_close = x.to_close := hw.to_close.trans (List.append_nil _)
  refine ⟨?_, ?_, ?_⟩
  · intro k tok b hk
    rw [hw.waits] at hk
    split at hk
    · cases hk
      exact .inl rfl
    · exact h.home k tok b hk
  · intro k tok b hne hk
    rw [hsame]
    rw [hw.waits] at hk
    split at hk
    · cases hk
      exact h.nonzero
    · exact h.free k tok b hne hk
  · rw [hsame]
    exact h.nonzero

theorem Unclosed.drain {key' : Option UInt32} (hfeed : x.feeding = false)
    (h : Unclosed token fed key' x) : Unclosed token fed none (x.drain_closes w now) := by
  obtain ⟨hwaits, hempty⟩ := drain_closes_view w now hfeed
  refine ⟨?_, ?_, ?_⟩
  · intro k tok b hk
    rw [hwaits] at hk
    exact h.home k tok b hk
  · intro k tok b _ _
    rw [hempty]
    exact List.not_mem_nil
  · rw [hempty]
    exact List.not_mem_nil

theorem Unclosed.purge {key' : Option UInt32} (h : Unclosed token fed key' x) (r : R) :
    Unclosed token fed key' { x with reassembly := r } :=
  ⟨h.home, h.free, h.nonzero⟩

theorem Unclosed.tick (hapart : Apart token fed) (hfeed : x.feeding = false)
    (h : Unclosed token fed none x) : Unclosed token fed none (x.tick w now) :=
  tick_law (I := Unclosed token fed none) (fun _ _ ha hx => hx.alike ha)
    (fun _ key _ hx => hx.resolve hapart key none) (fun _ hx => hx.purge _)
    (fun _ hf hx => hx.drain hf) hfeed h

/-! ## The callbacks of one packet -/

section Packet

variable {packet : Bytes} {f : FlowView} {c : Conn}

theorem Unclosed.told {y : TcpTlsHostnameExtractor R P} {tok : UInt32} {b : Bool}
    (h : Unclosed token fed (some key) x) (htok : tok = 0 ∨ Home token fed tok key)
    (hw : Write key (some (tok, b)) [] x y) : Unclosed token fed (some key) y := by
  have hsame : y.to_close = x.to_close := hw.to_close.trans (List.append_nil _)
  refine ⟨?_, ?_, ?_⟩
  · intro k tok' b' hk
    rw [hw.waits] at hk
    split at hk
    · rename_i he
      cases hk
      exact he ▸ htok
    · exact h.home k tok' b' hk
  · intro k tok' b' hne hk
    rw [hsame]
    rw [hw.waits, if_neg (fun he => hne (congrArg some he))] at hk
    exact h.free k tok' b' hne hk
  · rw [hsame]
    exact h.nonzero

/-- The flow `key` waits with a queued token, or will be told one, only when
the callbacks that are left resolve it. -/
def WillResolve (key : UInt32) (cbs : List Callback) (x : TcpTlsHostnameExtractor R P) : Prop :=
  ∀ c, x.conns.find key = some c → c.state = .Wait →
    (c.pcpp_key ∈ x.to_close ∨ ∃ cb ∈ cbs, cb.names = true ∧ cb.token ∈ x.to_close) →
    resolvesOn c.stream cbs = true

theorem willResolve_of_none {cbs : List Callback} (h : x.waits key = none) :
    WillResolve key cbs x := by
  intro c hl hc
  rw [waits_eq_none.mp h c hl] at hc
  cases hc

theorem Unclosed.deliver (packet : Bytes) {cb : Callback} {cbs : List Callback} (hapart : Apart token fed)
    (hhome : Home token fed cb.token key) (hin : x.inside = (true, key))
    (h : Unclosed token fed (some key) x) (hw : WillResolve key (cb :: cbs) x) :
    Unclosed token fed (some key) (x.deliver w packet cb) ∧
    WillResolve key cbs (x.deliver w packet cb) := by
  cases hv : x.waits key with
  | none =>
    have ha := deliver_alike (w := w) packet cb hin hv
    exact ⟨h.alike ha, willResolve_of_none ((ha.waits key).trans hv)⟩
  | some v =>
    obtain ⟨c, hl, hc, rfl⟩ := waits_eq_some.mp hv
    have hold : c.pcpp_key = 0 ∨ Home token fed c.pcpp_key key := h.home key _ _ hv
    rcases deliver_outcome (w := w) packet cb hin hl hc with
      ⟨c', hl', hc', htok, hclosed, hres, hwrite⟩ | ⟨hres, hwrite⟩
    · have htok' : c'.pcpp_key = 0 ∨ Home token fed c'.pcpp_key key := by
        rw [htok]
        split
        · exact .inr hhome
        · exact hold
      refine ⟨h.told htok' hwrite, ?_⟩
      intro c'' hl'' _ hqueued
      rw [hl'] at hl''
      cases hl''
      rw [hwrite.to_close, List.append_nil] at hqueued
      rw [← hres cbs]
      apply hw c hl hc
      rcases hqueued with hq | ⟨cb', hm, hn, hq⟩
      · rw [htok] at hq
        split at hq
        · rename_i hn
          exact .inr ⟨cb, by simp, hn, hq⟩
        · exact .inl hq
      · exact .inr ⟨cb', by simp [hm], hn, hq⟩
    · refine ⟨?_, willResolve_of_none ?_⟩
      · split at hwrite
        · exact h.leave (v := (cb.token, c.pcpp_closed)) hapart (.inr hhome) hwrite
        · have hnone : queued (0, true) = [] := by simp [queued]
          rw [← hnone] at hwrite
          exact h.leave hapart (.inl rfl) hwrite
      · rw [hwrite.waits, if_pos rfl]

/-- When the queue is drained after the callbacks, no waiting flow has a
token in it. -/
theorem Unclosed.reassemblePoint (hapart : Apart token fed) {p : Packet} (hp : p ∈ fed)
    (hf : flowOf p.bytes = some f)
    (hreports : ∀ cb ∈ (w.reassemblePacket x.reassembly now p.bytes).2,
      cb.token = token (connectionOf f)) (h : Unclosed token fed none x)
    (hw : WillResolve f.key (w.reassemblePacket x.reassembly now p.bytes).2 x) :
    Unclosed token fed none (x.reassemblePoint w now f.key p.bytes) := by
  have hcbs : ∀ cb ∈ (w.reassemblePacket x.reassembly now p.bytes).2,
      Home token fed cb.token f.key := by
    intro cb hm
    exact ⟨p, hp, f, hf, (hreports cb hm).symm, rfl⟩
  have hpoint := reassemblePoint_law w now (s := x)
    (Q := fun cbs y => (∀ cb ∈ cbs, Home token fed cb.token f.key) ∧
      Unclosed token fed (some f.key) y ∧ WillResolve f.key cbs y) hf
    (by
      rintro cbs y z hconns hclose hreass ⟨hhome, hy, hres⟩
      refine ⟨hhome, hy.alike (alike_of_conns hconns hclose hreass), ?_⟩
      intro c hl hc hq
      rw [hconns] at hl
      rw [hclose] at hq
      exact hres c hl hc hq)
    (by
      rintro cb cbs y hin ⟨hhome, hy, hres⟩
      obtain ⟨hy', hres'⟩ := hy.deliver p.bytes hapart (hhome cb (by simp)) hin hres
      exact ⟨fun cb' hm => hhome cb' (by simp [hm]), hy', hres'⟩)
    ⟨hcbs, ⟨h.home, fun k tok b _ hk => h.free k tok b (by simp) hk, h.nonzero⟩, hw⟩
  obtain ⟨-, hend, hres⟩ := hpoint
  refine ⟨hend.home, ?_, hend.nonzero⟩
  intro k tok b _ hk hm
  by_cases hkey : k = f.key
  · subst hkey
    obtain ⟨c, hl, hc, hv⟩ := waits_eq_some.mp hk
    obtain ⟨rfl, -⟩ := Prod.mk.injEq .. ▸ hv
    have hno := hres c hl hc (.inl hm)
    simp [resolvesOn] at hno
  · exact hend.free k tok b (by simpa using hkey) hk hm

/-- A flow that waits to the end has the token that it was told. -/
theorem reassemblePoint_waits {tok : UInt32} (hf : flowOf packet = some f)
    (htok : ∀ cb ∈ (w.reassemblePacket x.reassembly now packet).2, cb.token = tok)
    (hnames : ∃ cb ∈ (w.reassemblePacket x.reassembly now packet).2, cb.names = true)
    (hl : x.conns.find f.key = some c) (hc : c.state = .Wait) (hm : tok ∈ x.to_close)
    (hres : resolvesOn c.stream (w.reassemblePacket x.reassembly now packet).2 = false) :
    ∃ c', (x.reassemblePoint w now f.key packet).conns.find f.key = some c' ∧ c'.state = .Wait ∧
      c'.pcpp_key = tok ∧ tok ∈ (x.reassemblePoint w now f.key packet).to_close := by
  have hpoint := reassemblePoint_law w now (s := x)
    (Q := fun cbs y => (∀ cb ∈ cbs, cb.token = tok) ∧ tok ∈ y.to_close ∧
      ∃ c, y.conns.find f.key = some c ∧ c.state = .Wait ∧ resolvesOn c.stream cbs = false ∧
        (c.pcpp_key = tok ∨ ∃ cb ∈ cbs, cb.names = true)) hf
    (by
      rintro cbs y z hconns hclose - ⟨htok, hm, hy⟩
      rw [hconns, hclose]
      exact ⟨htok, hm, hy⟩)
    (by
      rintro cb cbs y hin ⟨htok, hm, c, hl, hc, hres, hkey⟩
      have hrest : ∀ cb' ∈ cbs, cb'.token = tok := fun cb' hm' => htok cb' (by simp [hm'])
      rcases deliver_outcome (w := w) packet cb hin hl hc with
        ⟨c', hl', hc', hkey', -, hres', hwrite⟩ | ⟨hres', -⟩
      · refine ⟨hrest, ?_, c', hl', hc', (hres' cbs).symm.trans hres, ?_⟩
        · rw [hwrite.to_close, List.append_nil]
          exact hm
        · rw [hkey']
          split
          · exact .inl (htok cb (by simp))
          · rename_i hn
            rcases hkey with hkey | ⟨cb', hm', hn'⟩
            · exact .inl hkey
            · rcases List.mem_cons.mp hm' with rfl | hm'
              · exact absurd hn' hn
              · exact .inr ⟨cb', hm', hn'⟩
      · rw [hres' cbs] at hres
        cases hres)
    ⟨htok, hm, c, hl, hc, hres, .inr hnames⟩
  obtain ⟨-, hm', c', hl', hc', -, hkey | ⟨cb, hcb, -⟩⟩ := hpoint
  · exact ⟨c', hl', hc', hkey, hm'⟩
  · cases hcb

end Packet

/-! ## Runs -/

/-- The reassembler makes callbacks for the connection of the fed packet
only, and names it by a token that depends on its 5-tuple alone. -/
def Reported (w : World R P) (token : Connection → UInt32) (s : TcpTlsHostnameExtractor R P) :
    Op → Prop
  | .feed now pkt =>
    ∀ f ∈ flowOf pkt.val.bytes, ∀ x ∈ (s.tick w now).hands w now pkt.val f,
    ∀ cb ∈ (w.reassemblePacket x.reassembly now pkt.val.bytes).2,
      cb.token = token (connectionOf f)
  | _ => True

/-- A packet does not go to the reassembler while the close of its own
connection is queued and the callbacks name that connection again, unless
the same callbacks resolve the flow. -/
def Unqueued (w : World R P) (s : TcpTlsHostnameExtractor R P) : Op → Prop
  | .feed now pkt =>
    ∀ f ∈ flowOf pkt.val.bytes, ∀ x ∈ (s.tick w now).hands w now pkt.val f,
    ∀ c ∈ x.conns.find f.key, ∀ cb ∈ (w.reassemblePacket x.reassembly now pkt.val.bytes).2,
      cb.names = true → cb.token ∈ x.to_close →
      resolvesOn c.stream (w.reassemblePacket x.reassembly now pkt.val.bytes).2 = true
  | _ => True

/-- No token in the queue is that of a flow that waits. -/
def NoneLive (x : TcpTlsHostnameExtractor R P) : Prop :=
  ∀ tok ∈ x.to_close, ∀ k c, x.conns.find k = some c → c.state = .Wait → c.pcpp_key ≠ tok

theorem Unclosed.noneLive (h : Unclosed token fed none x) : NoneLive x := by
  intro tok hm k c hl hc he
  exact h.free k c.pcpp_key c.pcpp_closed (by simp) (waits_eq_some.mpr ⟨c, hl, hc, rfl⟩) (he ▸ hm)

/-- The state in which a packet goes to the reassembler, under the condition. -/
theorem Unclosed.hands {pkt : Arrival} {f : FlowView} (hapart : Apart token fed)
    (hf : flowOf pkt.val.bytes = some f) (hfeed : s.feeding = false)
    (h : Unclosed token fed none s) (hcond : Unqueued w s (.feed now pkt))
    (hx : (s.tick w now).hands w now pkt.val f = some x) :
    Unclosed token fed none x ∧
    WillResolve f.key (w.reassemblePacket x.reassembly now pkt.val.bytes).2 x := by
  have htick : ∀ y : TcpTlsHostnameExtractor R P, y.feeding = false →
      Unclosed token fed none y → Unclosed token fed none (y.tick w now) :=
    fun y hy hu => hu.tick hapart hy
  have hux : Unclosed token fed none x :=
    hands_law (I := Unclosed token fed none) (fun _ _ ha hy => hy.alike ha)
      (htick _ (tick_path w now .tick hfeed).2 (htick s hfeed h))
      (fun _ _ _ hw hy => hy.enter hw) (tick_path w now .tick hfeed).2 (htick s hfeed h) hx
  refine ⟨hux, ?_⟩
  intro c hl hc hq
  rcases hq with hq | ⟨cb, hm, hn, hq⟩
  · exact absurd hq (hux.free f.key _ _ (by simp) (waits_eq_some.mpr ⟨c, hl, hc, rfl⟩))
  · exact hcond f hf x hx c hl cb hm hn hq

theorem Unclosed.apply {op : Op} (hapart : Apart token fed)
    (hfed : ∀ p, op.fed = some p → p ∈ fed) (hfeed : s.feeding = false)
    (h : Unclosed token fed none s) (hreports : Reported w token s op) (hcond : Unqueued w s op) :
    Unclosed token fed none (op.apply w s) := by
  cases op with
  | feed now pkt =>
    have htick : ∀ y : TcpTlsHostnameExtractor R P, y.feeding = false →
        Unclosed token fed none y → Unclosed token fed none (y.tick w now) :=
      fun y hy hu => hu.tick hapart hy
    show Unclosed token fed none (s.feed w now pkt.val)
    cases hf : flowOf pkt.val.bytes with
    | none =>
      rw [feed_of_no_flow hf]
      exact (htick s hfeed h).alike (alike_of_conns rfl rfl rfl)
    | some f =>
      rw [feed_of_flow hf]
      refine Unclosed.alike ?_ (publish_alike _)
      refine feedFlow_law (I := Unclosed token fed none) (fun _ _ ha hy => hy.alike ha)
        (fun _ hy => hy.resolve hapart f.key none)
        (htick _ (tick_path w now .tick hfeed).2 (htick s hfeed h))
        (fun _ _ _ hw hy => hy.enter hw) ?_ (tick_path w now .tick hfeed).2 (htick s hfeed h)
      intro x hx _
      obtain ⟨hux, hres⟩ := h.hands hapart hf hfeed hcond hx
      rw [reassemble_drains]
      exact (hux.reassemblePoint hapart (hfed _ rfl) hf (hreports f hf x hx) hres).drain rfl
  | tick now => exact h.tick hapart hfeed
  | flush now =>
    exact flush_law (I := Unclosed token fed none) (fun _ _ ha hy => hy.alike ha)
      (fun _ key hy => hy.resolve hapart key none) (fun _ hf hy => hy.drain hf) hfeed h

theorem tickDrains_noneLive (hapart : Apart token fed) (hfeed : s.feeding = false)
    (h : Unclosed token fed none s) (hx : x ∈ s.tickDrains w now) : NoneLive x := by
  unfold tickDrains at hx
  split at hx
  · cases hx
  · rw [List.mem_singleton.mp hx]
    have hpoint : Unclosed token fed none (sweepPoint { s with lastSweep := now } w now) :=
      sweepPoint_law (I := Unclosed token fed none) (fun _ _ ha hy => hy.alike ha)
        (fun _ key _ hy => hy.resolve hapart key none) (fun _ hy => hy.purge _) hfeed
        (h.alike (alike_of_conns rfl rfl rfl))
    exact hpoint.noneLive

theorem Unclosed.drains {op : Op} (hapart : Apart token fed)
    (hfed : ∀ p, op.fed = some p → p ∈ fed) (hfeed : s.feeding = false)
    (h : Unclosed token fed none s) (hreports : Reported w token s op) (hcond : Unqueued w s op)
    (hx : x ∈ s.drains w op) :
    NoneLive x := by
  cases op with
  | feed now pkt =>
    rcases List.mem_append.mp hx with hx | hx
    · exact tickDrains_noneLive hapart hfeed h hx
    · cases hf : flowOf pkt.val.bytes with
      | none =>
        simp only [hf] at hx
        cases hx
      | some f =>
        simp only [hf] at hx
        rcases List.mem_append.mp hx with hx | hx
        · split at hx
          · exact tickDrains_noneLive hapart (tick_path w now .tick hfeed).2 (h.tick hapart hfeed) hx
          · cases hx
        · obtain ⟨y, hy, rfl⟩ := Option.map_eq_some_iff.mp (Option.mem_toList.mp hx)
          obtain ⟨huy, hres⟩ := h.hands hapart hf hfeed hcond hy
          exact (huy.reassemblePoint hapart (hfed _ rfl) hf (hreports f hf y hy) hres).noneLive
  | tick now => exact tickDrains_noneLive hapart hfeed h hx
  | flush now =>
    rw [List.mem_singleton.mp hx]
    have hpoint : Unclosed token fed none (s.flushPoint w) :=
      flushPoint_law (I := Unclosed token fed none) (fun _ _ ha hy => hy.alike ha)
        (fun _ key hy => hy.resolve hapart key none) hfeed h
    exact hpoint.noneLive

/-- A call whose drains meet no live flow keeps the condition. -/
theorem unqueued_of_drains {op : Op} (hreports : Reported w token s op)
    (h : ∀ x ∈ s.drains w op, NoneLive x) : Unqueued w s op := by
  cases op with
  | feed now pkt =>
    intro f hf x hx c hl cb hm hn hq
    by_contra hres
    obtain ⟨c', hl', hc'⟩ := hands_entry hx
    rw [hl] at hl'
    cases hl'
    have htok : ∀ cb' ∈ (w.reassemblePacket x.reassembly now pkt.val.bytes).2,
        cb'.token = cb.token := by
      intro cb' hm'
      rw [hreports f hf x hx cb hm]
      exact hreports f hf x hx cb' hm'
    obtain ⟨c'', hl'', hc'', hkey, hm''⟩ := reassemblePoint_waits hf htok ⟨cb, hm, hn⟩ hl hc' hq
      (by simpa using hres)
    refine h (x.reassemblePoint w now f.key pkt.val.bytes) ?_ cb.token hm'' f.key c'' hl'' hc'' hkey
    refine List.mem_append_right _ ?_
    simp only [Option.mem_def.mp hf]
    refine List.mem_append_right _ ?_
    rw [Option.mem_def.mp hx]
    exact List.mem_singleton_self _
  | tick now => trivial
  | flush now => trivial

/-- In every run the queue of closes is drained without the token of a live
flow in it, exactly when no packet goes to the reassembler, and names its
connection, while the close of that connection is still queued. -/
theorem a_live_flow_keeps_its_connection {w : World R P} {token : Connection → UInt32} (r : R)
    (p : P) (max_flows max_blocked : Nat) (ops : List Op) (hapart : Apart token (fedBy ops))
    (hreports : Along (Op.apply w) (Reported w token) (init r p max_flows max_blocked) ops) :
    Along (Op.apply w) (fun s op => ∀ x ∈ s.drains w op, NoneLive x)
      (init r p max_flows max_blocked) ops ↔
    Along (Op.apply w) (Unqueued w) (init r p max_flows max_blocked) ops := by
  refine ⟨fun h => ?_, fun h => ?_⟩
  · exact (hreports.and h).imp (fun s op hs => unqueued_of_drains hs.1 hs.2)
  · refine Along.keeps (I := fun s => Unclosed token (fedBy ops) none s ∧ s.feeding = false) ?_
      ⟨?_, rfl⟩ (hreports.and h)
    · rintro s op hop ⟨hs, hfeed⟩ ⟨hrep, hcond⟩
      have hfed : ∀ q, op.fed = some q → q ∈ fedBy ops :=
        fun q hq => List.mem_filterMap.mpr ⟨op, hop, hq⟩
      exact ⟨fun x hx => hs.drains hapart hfed hfeed hrep hcond hx,
        hs.apply hapart hfed hfeed hrep hcond, apply_feeding op hfeed⟩
    · refine ⟨fun k tok b hk => ?_, fun k tok b _ hk => ?_, by simp [init]⟩
      · cases hk
      · cases hk

open traffic in
theorem a_hello_in_two_segments_keeps_its_connection :
    let w := world { exact := [host] }
    let ops := [.feed 0 (syn (client 2) 1),
      .feed 0 (segmentOf (client 2) 1 ((client_hello host).take 20) 2), .tick (seconds 2)]
    Along (Op.apply w) (fun s op => ∀ x ∈ s.drains w op, NoneLive x) (init [] () 2 1) ops := by
  intro w ops
  have hone : ∀ p ∈ fedBy ops, ∀ f ∈ flowOf p.bytes,
      connectionOf f = (4, 6, s(([10, 0, 0, 2] ++ List.replicate 12 0, 40000),
        ([93, 184, 216, 34] ++ List.replicate 12 0, 443))) := by
    decide +kernel
  have hapart : Apart tokenOf (fedBy ops) := by
    intro p hp q hq f g hf hg _
    rw [hone p hp f hf, hone q hq g hg]
  refine (a_live_flow_keeps_its_connection [] () 2 1 ops hapart ?_).mpr ?_
  · refine ⟨?_, ?_, ?_, ?_⟩
    · unfold Reported
      decide +kernel
    · unfold Reported
      decide +kernel
    · trivial
    · trivial
  · refine ⟨?_, ?_, ?_, ?_⟩
    · unfold Unqueued
      decide +kernel
    · unfold Unqueued
      decide +kernel
    · trivial
    · trivial

open traffic in
/-- A flow that gave up on its thirty-third packet, a retransmission of the one
before, leaves its close in the queue. The next segment in order opens the flow
again, and the close of that very connection is then drained. -/
theorem a_flow_that_is_tracked_again_loses_its_connection :
    let opening : Bytes := [0x16, 0x03, 0x01, 0x40, 0x00, 0x01, 0x00, 0x3f, 0xfc]
    let held := Op.feed 0 (segmentOf (client 2) 1 opening 2) :: (List.range 31).map (fun i =>
      Op.feed 0 (segmentOf (client 2) (i + 10) [0x00] (i + 3).toUInt32))
    let again := Op.feed 0 (segmentOf (client 2) 40 [0x00] 34)
    let s := after 2 1 (.feed 0 (syn (client 2) 1) :: held ++ [again])
    ∃ x ∈ s.drains (world { exact := [host] }) (.feed 0 (segmentOf (client 2) 41 opening 35)),
      ¬ NoneLive x := by
  intro opening held again s
  have hany : (s.drains (world { exact := [host] })
      (.feed 0 (segmentOf (client 2) 41 opening 35))).any (fun x => x.to_close.any (fun tok =>
        (x.conns.find 3561989440).any (fun c => c.state = .Wait && c.pcpp_key = tok))) = true := by
    decide +kernel
  obtain ⟨x, hx, hlive⟩ := List.any_eq_true.mp hany
  obtain ⟨tok, htok, hconn⟩ := List.any_eq_true.mp hlive
  obtain ⟨c, hl, hc⟩ := (Option.any_eq_true _ _).mp hconn
  simp only [Bool.and_eq_true, decide_eq_true_eq] at hc
  refine ⟨x, hx, ?_⟩
  intro hsafe
  exact hsafe tok htok 3561989440 c hl hc.1 hc.2

end TcpTlsHostnameExtractor

end packet_inspector
