-- Flows with different keys do not influence each other: a flow that is fed
-- among others is decided as if it were fed alone, up to the packet that
-- resolves it, and for good when it is blocked.
import PacketInspector.Isolation
import PacketInspector.Remembering
import PacketInspector.AllowedFlows
import PacketInspector.FlowTable
import PacketInspector.Chunking

open wire packet_inspector.tls runs

namespace packet_inspector

/-- The call feeds a packet of the flow `k`. -/
def Op.isOf (k : UInt32) (op : Op) : Bool := op.fed.bind keyOf = some k

/-- Timed packets of the flow `k`, less than ten seconds apart, among ticks
and timed packets of other flows. -/
structure Interleaved (k : UInt32) (ops : List Op) : Prop where
  steady : ops.Pairwise (fun op op' => op.now ≤ op'.now)
  gaps : ∀ done op rest, ops = done ++ op :: rest → op.isOf k = true →
    ∀ t ∈ lastFed k done, op.now - t < kWaitIdleTimeout
  flushless : ∀ now, .flush now ∉ ops

/-- The run ends less than ten seconds after the latest packet of `k`. -/
def Recent (k : UInt32) (ops : List Op) : Prop :=
  ∀ op ∈ ops.getLast?, ∀ t ∈ lastFed k ops, op.now - t < kWaitIdleTimeout

theorem Interleaved.recent {k : UInt32} {ops done rest : List Op} {op : Op} (h : Interleaved k ops)
    (hops : ops = done ++ op :: rest) (hgap : ∀ t ∈ lastFed k done, op.now - t < kWaitIdleTimeout) :
    Recent k done := by
  intro last hlast t ht
  have hsteady := h.steady
  rw [hops] at hsteady
  have hle : last.now ≤ op.now :=
    (List.pairwise_append.mp hsteady).2.2 last (List.mem_of_getLast? hlast) op (by simp)
  exact lt_of_le_of_lt (sub_le_sub_right hle t) (hgap t ht)

namespace TcpTlsHostnameExtractor

variable {R P : Type} {w : World R P} {s s' x y : TcpTlsHostnameExtractor R P} {k : UInt32}
  {now : Time}

/-! ## The decisions of a flow -/

/-- The decisions on the packets of the flow `k`, in order. -/
def verdictsOf (s : TcpTlsHostnameExtractor R P) (k : UInt32) : List Decided :=
  s.decided.filter (fun d => keyOf d.pkt = some k)

theorem path_verdictsOf {call : Call} {fed : List Packet} (hp : Path w now call s s')
    (hk : call.key ≠ some k) (hflush : call ≠ .flush) (ha : Accounted fed s)
    (hcalm : Calm k now s) : s'.verdictsOf k = s.verdictsOf k := by
  induction hp with
  | refl => rfl
  | @tail s1 s2 hp hs ih =>
    have ha1 : Accounted fed s1 := path_accounted hp ha
    have hcalm1 := (path_beside hp hk hflush ha hcalm).calm hcalm
    refine Eq.trans (step_picked (p := fun q => keyOf q = some k) ?_ hs hk hflush ha1 hcalm1) ih
    intro q key hq hne
    simp [keyOf_of_carries hq, hne]

/-- A call on another flow, or a tick, decides no packet of the flow `k`. -/
theorem apply_verdictsOf {op : Op} {fed : List Packet}
    (hop : ∀ p, op.fed = some p → keyOf p ≠ some k) (hflush : ∀ now, op ≠ .flush now)
    (hfeed : s.feeding = false) (ha : Accounted fed s) (hcalm : Calm k op.now s) :
    (op.apply w s).verdictsOf k = s.verdictsOf k := by
  cases op with
  | feed now p =>
    have hk : keyOf p.val ≠ some k := hop p.val rfl
    have hcall : (Call.feed p.val.bytes).key ≠ some k := hk
    obtain ⟨⟨s1, s2, h1, h2, h3⟩, -⟩ := feed_feeds w now p hfeed
    have ha1 : Accounted fed s1 := path_accounted h1 ha
    have hcalm1 := (path_beside h1 hcall (by simp) ha hcalm).calm hcalm
    have htaken : s2.verdictsOf k = s1.verdictsOf k := by
      cases h2 with
      | decided v => simp [verdictsOf, hk]
      | refused f => simp [verdictsOf, hk]
      | held f c => rfl
    have hlater := path_verdictsOf h3 hcall (by simp) (accounted_take h2 ha1)
      ((take_beside h2 hk).calm hcalm1)
    exact hlater.trans (htaken.trans (path_verdictsOf h1 hcall (by simp) ha hcalm))
  | tick now => exact path_verdictsOf (tick_path w now .tick hfeed).1 (by simp [Call.key]) (by simp) ha hcalm
  | flush now => exact absurd rfl (hflush now)

/-! ## Two states that agree on a flow -/

/-- The entry of `k` is the same in both states, and so are its decisions,
after those in `base`. -/
structure Same (k : UInt32) (base : List Decided) (x y : TcpTlsHostnameExtractor R P) : Prop where
  entry : x.conns.find k = y.conns.find k
  verdicts : x.verdictsOf k = base ++ y.verdictsOf k

section Same

variable {base : List Decided} {x' y' : TcpTlsHostnameExtractor R P}

theorem Same.congr (h : Same k base x y) (hx : x'.conns.find k = x.conns.find k)
    (hxd : x'.verdictsOf k = x.verdictsOf k) (hy : y'.conns.find k = y.conns.find k)
    (hyd : y'.verdictsOf k = y.verdictsOf k) : Same k base x' y' :=
  ⟨hx.trans (h.entry.trans hy.symm), by rw [hxd, hyd, h.verdicts]⟩

theorem Same.waits (h : Same k base x y) : x.waits k = y.waits k := by
  unfold TcpTlsHostnameExtractor.waits
  rw [h.entry]

theorem Same.put (h : Same k base x y) (c : Conn) : Same k base (x.put k c) (y.put k c) :=
  ⟨by simp, h.verdicts⟩

theorem Same.log (h : Same k base x y) (e : Event) : Same k base (x.log e) (y.log e) :=
  ⟨h.entry, h.verdicts⟩

theorem Same.decide (h : Same k base x y) (p : Packet) (v : Verdict) :
    Same k base (x.decide p v) (y.decide p v) := by
  refine ⟨h.entry, ?_⟩
  have hd := h.verdicts
  unfold verdictsOf at hd ⊢
  rw [decide_decided, decide_decided, List.filter_append, List.filter_append, hd,
    List.append_assoc]

/-- What becomes of the entry of a flow that is resolved. -/
theorem resolve_entry {c : Conn} (hostname : Option Bytes) (hl : s.conns.find k = some c)
    (hc : c.state = .Wait) :
    (s.resolve w k hostname).conns.find k =
      match (w.decide s.policy hostname).1 with
      | .ALLOW => none
      | .BLOCK => some (blockConn c) := by
  cases hv : (w.decide s.policy hostname).1 with
  | ALLOW =>
    rw [resolve_allow hl hc hv, release_conns]
    exact AList.find_erase_self _ _
  | BLOCK =>
    rw [resolve_blocked hl hc hv, release_conns, close_conns, remember_blocked_find_self]
    exact AList.find_insert_self _ _ _

variable {verdict : Option Bytes → Verdict}

/-- The policy answers by the hostname alone, so both are resolved alike. -/
theorem Same.resolve (hverdict : ∀ p h, (w.decide p h).1 = verdict h) (h : Same k base x y)
    (hostname : Option Bytes) :
    Same k base (x.resolve w k hostname) (y.resolve w k hostname) := by
  cases hl : y.conns.find k with
  | none =>
    rw [resolve_of_none hostname hl, resolve_of_none hostname (h.entry.trans hl)]
    exact h
  | some c =>
    have hlx := h.entry.trans hl
    cases hc : c.state with
    | Block =>
      rw [resolve_of_block hostname hl hc, resolve_of_block hostname hlx hc]
      exact h
    | Wait =>
      refine ⟨?_, ?_⟩
      · rw [resolve_entry hostname hl hc, resolve_entry hostname hlx hc, hverdict, hverdict]
      · have hd := h.verdicts
        unfold verdictsOf at hd ⊢
        rw [resolve_decided hl hc, resolve_decided hlx hc, hverdict, hverdict, List.filter_append,
          List.filter_append, hd, List.append_assoc]

theorem Same.checkStream (hverdict : ∀ p h, (w.decide p h).1 = verdict h) (h : Same k base x y)
    (stream : Bytes) : Same k base (x.checkStream w k stream) (y.checkStream w k stream) := by
  unfold TcpTlsHostnameExtractor.checkStream
  cases extractHostname stream with
  | Found host => exact h.resolve hverdict (some host)
  | NotFound => exact h.resolve hverdict none
  | NeedMore =>
    simp only
    split
    · exact h.resolve hverdict none
    · exact h

theorem Same.deliver (hverdict : ∀ p h, (w.decide p h).1 = verdict h) (h : Same k base x y)
    (hx : x.inside = (true, k)) (hy : y.inside = (true, k)) (packet : Bytes) (cb : Callback) :
    Same k base (x.deliver w packet cb) (y.deliver w packet cb) := by
  cases hl : y.conns.find k with
  | none =>
    rw [deliver_of_none cb hy hl, deliver_of_none cb hx (h.entry.trans hl)]
    exact h.log _
  | some c =>
    have hlx := h.entry.trans hl
    cases cb with
    | start tok =>
      rw [deliver_start tok hy hl, deliver_start tok hx hlx]
      exact (h.log _).put _
    | finish tok =>
      rw [deliver_finish tok hy hl, deliver_finish tok hx hlx]
      exact ((h.log _).put _).resolve hverdict none
    | message side tok data =>
      by_cases hside : side = kClientSide
      · subst hside
        cases hc : c.state with
        | Block =>
          rw [deliver_message_block _ tok data hy hl hc, deliver_message_block _ tok data hx hlx hc]
          exact h.log _
        | Wait =>
          rw [deliver_message_wait tok data hy hl hc, deliver_message_wait tok data hx hlx hc]
          exact ((h.log _).put _).checkStream hverdict _
      · rw [deliver_other_side tok data hside, deliver_other_side tok data hside]
        exact h.log _

theorem drain_closes_same (w : World R P) (now : Time) (hfeed : x.feeding = false) :
    (x.drain_closes w now).conns = x.conns ∧ (x.drain_closes w now).decided = x.decided := by
  obtain ⟨r, hr⟩ := drain_closes_of_not_feeding (w := w) now hfeed
  rw [hr]
  exact ⟨rfl, rfl⟩

/-- The same callbacks have the same effect on both. -/
theorem Same.reassemble (hverdict : ∀ p h, (w.decide p h).1 = verdict h) {f : FlowView}
    {packet : Bytes} (hf : flowOf packet = some f) (h : Same f.key base x y)
    (hcbs : (w.reassemblePacket x.reassembly now packet).2 =
      (w.reassemblePacket y.reassembly now packet).2) :
    Same f.key base (x.reassemble w now f.key packet) (y.reassemble w now f.key packet) := by
  rw [reassemble_drains, reassemble_drains]
  obtain ⟨hxc, hxd⟩ := drain_closes_same w now
    (x := x.reassemblePoint w now f.key packet) rfl
  obtain ⟨hyc, hyd⟩ := drain_closes_same w now
    (x := y.reassemblePoint w now f.key packet) rfl
  suffices hpoint : Same f.key base (x.reassemblePoint w now f.key packet)
      (y.reassemblePoint w now f.key packet) by
    refine hpoint.congr (by rw [hxc]) ?_ (by rw [hyc]) ?_
    · unfold verdictsOf
      rw [hxd]
    · unfold verdictsOf
      rw [hyd]
  unfold reassemblePoint
  simp only
  rw [hcbs]
  have hfold := List.foldl_rel
    (r := fun a b : TcpTlsHostnameExtractor R P =>
      a.inside = (true, f.key) ∧ b.inside = (true, f.key) ∧ Same f.key base a b)
    (l := (w.reassemblePacket y.reassembly now packet).2)
    (f := fun s cb => s.deliver w packet cb) (g := fun s cb => s.deliver w packet cb)
    (a := { x with
      current_key := f.key, feeding := true
      reassembly := (w.reassemblePacket x.reassembly now packet).1 })
    (b := { y with
      current_key := f.key, feeding := true
      reassembly := (w.reassemblePacket y.reassembly now packet).1 })
    ⟨rfl, rfl, h.entry, h.verdicts⟩
    (fun cb _ a b ⟨ha, hb, hab⟩ =>
      ⟨deliver_inside hf ha cb, deliver_inside hf hb cb, hab.deliver hverdict ha hb packet cb⟩)
  exact ⟨hfold.2.2.entry, hfold.2.2.verdicts⟩

theorem Same.releaseLast (h : Same k base x y) : Same k base (x.releaseLast k) (y.releaseLast k) := by
  unfold TcpTlsHostnameExtractor.releaseLast
  rw [h.entry]
  cases y.conns.find k with
  | none => exact h
  | some c =>
    simp only
    cases c.held.getLast? with
    | none => exact h
    | some p => exact h.put _

theorem Same.feedTracked (hverdict : ∀ p h, (w.decide p h).1 = verdict h) {f : FlowView}
    {p : Packet} (hf : flowOf p.bytes = some f) (h : Same f.key base x y) (c : Conn)
    (hcbs : (w.reassemblePacket x.reassembly now p.bytes).2 =
      (w.reassemblePacket y.reassembly now p.bytes).2) :
    Same f.key base (x.feedTracked w now p f c) (y.feedTracked w now p f c) := by
  have hput := h.put { c with last := now }
  unfold TcpTlsHostnameExtractor.feedTracked
  simp only
  split
  · exact (hput.resolve hverdict none).decide p .ALLOW
  · split
    · exact Same.releaseLast (Same.reassemble hverdict hf (hput.put _) hcbs)
    · split
      · exact hput.decide p .ALLOW
      · exact (hput.reassemble hverdict hf hcbs).decide p .ALLOW

end Same

/-! ## A flow that loses its entry -/

/-- The history goes on from `u`, and the flow `k` has its entry still unless
it was allowed or lost the entry. -/
def Tracked (k : UInt32) (u x : TcpTlsHostnameExtractor R P) : Prop :=
  (∃ es, x.trace = u.trace ++ es) ∧
    (x.conns.find k = none → AllowedSince k u x ∨ Lost k u x)

theorem AllowedSince.before {u : TcpTlsHostnameExtractor R P} (h : AllowedSince k s s')
    (hgrow : ∃ es, s.trace = u.trace ++ es) : AllowedSince k u s' := by
  obtain ⟨es, hostname, he, hm⟩ := h
  obtain ⟨es0, he0⟩ := hgrow
  exact ⟨es0 ++ es, hostname, by rw [he, he0, List.append_assoc], List.mem_append_right _ hm⟩

theorem AllowedSince.after {s2 : TcpTlsHostnameExtractor R P} (h : AllowedSince k s s')
    (hgrow : ∃ es, s2.trace = s'.trace ++ es) : AllowedSince k s s2 := by
  obtain ⟨es, hostname, he, hm⟩ := h
  obtain ⟨es2, he2⟩ := hgrow
  exact ⟨es ++ es2, hostname, by rw [he2, he, List.append_assoc], List.mem_append_left _ hm⟩

/-- A step that takes the entry of `k` away resolves it to ALLOW, evicts it
or expires it. -/
theorem step_gone {call : Call} {c : Conn} (hs : Step w now call s s') (hflush : call ≠ .flush)
    (hl : s.conns.find k = some c) (hn : s'.conns.find k = none) :
    AllowedSince k s s' ∨ Lost k s s' := by
  have hput : ∀ (z : TcpTlsHostnameExtractor R P) (key : UInt32) (c' : Conn), z.conns = s.conns →
      (z.put key c').conns.find k ≠ none := by
    intro z key c' hz hz'
    rw [put_conns, hz, AList.find_insert] at hz'
    split at hz'
    · cases hz'
    · rw [hl] at hz'
      cases hz'
  cases hs with
  | books => exact absurd (hl.symm.trans hn) (by simp)
  | heard => exact absurd (hl.symm.trans hn) (by simp)
  | joined packet f c' tok data hf hcall hl' hc' => exact absurd hn (hput (s.log _) _ _ rfl)
  | marked key c' tok closed hcall hl' => exact absurd hn (hput s _ _ rfl)
  | touched key c' hcall hl' => exact absurd hn (hput s _ _ rfl)
  | opened key hcall hl' hroom => exact absurd hn (hput s _ _ rfl)
  | released key c' ps p hcall hl' hheld => exact absurd hn (hput s _ _ rfl)
  | resolved key c' hostname hl' hc' hcall hreason =>
    by_cases hk : k = key
    · subst hk
      rw [resolve_entry hostname hl' hc'] at hn
      cases hv : (w.decide s.policy hostname).1 with
      | ALLOW =>
        refine .inl ⟨[.asked k hostname .ALLOW], hostname, ?_, by simp⟩
        rw [resolve_allow hl' hc' hv, release_eq]
        simp [hv]
      | BLOCK =>
        rw [hv] at hn
        cases hn
    · have hother : (s.resolve w key hostname).conns.find k = some c ∨ _ :=
        resolve_find_other hk hl
      rcases hother with hf | ⟨-, -, hlost⟩
      · rw [hn] at hf
        cases hf
      · exact .inr hlost
  | expired key c' hl' hc' hidle =>
    by_cases hk : k = key
    · subst hk
      exact .inr ⟨[.expired k], rfl, by simp⟩
    · rw [log_conns, forget_conns, AList.find_erase_of_ne _ hk, hl] at hn
      cases hn
  | passed hv => exact absurd (hl.symm.trans hn) (by simp)
  | evicted h0 hv =>
    by_cases hk : k = s.oldest
    · subst hk
      exact .inr ⟨[.evicted s.oldest], rfl, by simp⟩
    · have hf : ((s.turn 0).evict s.oldest).conns.find k = some c :=
        (AList.find_erase_of_ne _ hk).trans hl
      rw [hn] at hf
      cases hf
  | cleared hcall hb => exact absurd hcall hflush

theorem Tracked.path {u : TcpTlsHostnameExtractor R P} {call : Call} (h : Tracked k u s)
    (hp : Path w now call s s') (hflush : call ≠ .flush) : Tracked k u s' := by
  refine path_keeps (I := Tracked k u) ?_ hp h
  rintro a b hs ⟨hgrow, hgone⟩
  obtain ⟨es, he⟩ := step_grows hs
  obtain ⟨es0, he0⟩ := hgrow
  refine ⟨⟨es0 ++ es, by rw [he, he0, List.append_assoc]⟩, ?_⟩
  intro hn
  cases hl : a.conns.find k with
  | none => exact (hgone hl).imp (fun ha => ha.after ⟨es, he⟩) (fun hlost => hlost.after ⟨es, he⟩)
  | some c =>
    exact (step_gone hs hflush hl hn).imp (fun ha => ha.before ⟨es0, he0⟩)
      (fun hlost => hlost.before ⟨es0, he0⟩)

theorem Tracked.take {u : TcpTlsHostnameExtractor R P} {p : Packet} (h : Tracked k u s)
    (ht : Take w p s s') : Tracked k u s' := by
  cases ht with
  | decided v => exact h
  | refused f => exact h
  | held f c hf hpay hl hc hroom =>
    refine ⟨h.1, ?_⟩
    intro hn
    rw [put_conns, AList.find_insert] at hn
    split at hn
    · cases hn
    · exact h.2 hn

/-- A waiting flow has its entry after its own packet, unless the packet
resolves it to ALLOW or the entry is lost. -/
theorem feedTracked_tracked (w : World R P) (now : Time) {p : Packet} {f : FlowView} {c : Conn}
    (hf : flowOf p.bytes = some f) (hc : c.state = .Wait) (hfeed : x.feeding = false) :
    Tracked f.key x (x.feedTracked w now p f c) := by
  have hstart : Tracked f.key x (x.put f.key { c with last := now }) :=
    ⟨⟨[], by simp⟩, fun hn => by simp at hn⟩
  obtain ⟨⟨s1, s2, h1, h2, h3⟩, -⟩ := feedTracked_feeds w now hf hc hfeed .refl
  exact ((hstart.path h1 (by simp)).take h2).path h3 (by simp)

/-! ## A flow that is not resolved -/

section Live

variable {S : Type} {token : Connection → UInt32} {part : R → UInt32 → S}
  {step : S → Time → Bytes → S × List Callback} {ended : S → Prop} {fed : List Packet}
  {base : List Decided} {verdict : Option Bytes → Verdict} {f : FlowView} {p : Packet} {c : Conn}
  {x' y' : TcpTlsHostnameExtractor R P}

/-- Both reassemblers have the same parts for the connections of the flow
`k`. None has ended, and no close of one is to come. -/
def Live (token : Connection → UInt32) (part : R → UInt32 → S) (ended : S → Prop)
    (fed : List Packet) (k : UInt32) (x y : TcpTlsHostnameExtractor R P) : Prop :=
  ∃ parts : UInt32 → S,
    Shielded token part fed (fun tok => Home token fed tok k) parts x ∧
    Shielded token part fed (fun tok => Home token fed tok k) parts y ∧
    ∀ tok, Home token fed tok k → ¬ ended (parts tok)

theorem Live.alike (h : Live token part ended fed k x y) (hx : Alike x x') (hy : Alike y y') :
    Live token part ended fed k x' y' := by
  obtain ⟨parts, hsx, hsy, hopen⟩ := h
  exact ⟨parts, hsx.alike hx, hsy.alike hy, hopen⟩

theorem resolve_waits (s : TcpTlsHostnameExtractor R P) (key : UInt32) (hostname : Option Bytes) :
    (s.resolve w key hostname).waits key = none := by
  cases hv : s.waits key with
  | none => rw [resolve_of_not_waiting hv, hv]
  | some v => rw [(resolve_write w hostname hv).waits, if_pos rfl]

section Packet

variable (hw : Independent w token part step ended) (hp : p ∈ fed) (hf : flowOf p.bytes = some f)

include hw hp hf

/-- A packet of the flow is answered alike. -/
theorem Live.callbacks (now : Time) (h : Live token part ended fed f.key x y) :
    (w.reassemblePacket x.reassembly now p.bytes).2 =
      (w.reassemblePacket y.reassembly now p.bytes).2 := by
  obtain ⟨parts, hsx, hsy, hopen⟩ := h
  have hhome : Home token fed (token (connectionOf f)) f.key := ⟨p, hp, f, hf, rfl, rfl⟩
  have hxp := hsx.parts _ hhome
  have hyp := hsy.parts _ hhome
  rw [(hw.own x.reassembly now p.bytes f hf (hxp ▸ hopen _ hhome)).2,
    (hw.own y.reassembly now p.bytes f hf (hyp ▸ hopen _ hhome)).2, hxp, hyp]

theorem Live.reassemble (h : Live token part ended fed f.key x y) {cx cy : Conn}
    (hlx : x.conns.find f.key = some cx) (hcx : cx.state = .Wait)
    (hly : y.conns.find f.key = some cy) (hcy : cy.state = .Wait)
    (hwx : (x.reassemble w now f.key p.bytes).waits f.key ≠ none)
    (hwy : (y.reassemble w now f.key p.bytes).waits f.key ≠ none) :
    Live token part ended fed f.key (x.reassemble w now f.key p.bytes)
      (y.reassemble w now f.key p.bytes) := by
  obtain ⟨parts, hsx, hsy, hopen⟩ := h
  have hhome : Home token fed (token (connectionOf f)) f.key := ⟨p, hp, f, hf, rfl, rfl⟩
  obtain ⟨hsx', hopen'⟩ := hsx.reassemble_own hw hopen hp hf hhome now hlx hcx hwx
  obtain ⟨hsy', -⟩ := hsy.reassemble_own hw hopen hp hf hhome now hly hcy hwy
  exact ⟨_, hsx', hsy', hopen'⟩

variable (hverdict : ∀ p h, (w.decide p h).1 = verdict h)

include hverdict

theorem Live.feedTracked (hsame : Same f.key base x y) (hc : c.state = .Wait)
    (h : Live token part ended fed f.key (x.put f.key { c with last := now })
      (y.put f.key { c with last := now }))
    (hwaits : (y.feedTracked w now p f c).waits f.key ≠ none) :
    Live token part ended fed f.key (x.feedTracked w now p f c) (y.feedTracked w now p f c) := by
  have hcbs := h.callbacks hw hp hf now
  have hput := hsame.put { c with last := now }
  unfold TcpTlsHostnameExtractor.feedTracked at hwaits ⊢
  simp only at hwaits ⊢
  by_cases hheld : c.held.length ≥ kMaxPacketsPerConn
  · rw [if_pos hheld] at hwaits
    exact absurd (resolve_waits _ f.key none) hwaits
  · rw [if_neg hheld] at hwaits
    rw [if_neg hheld, if_neg hheld]
    by_cases hpay : f.payload_len > 0
    · rw [if_pos hpay] at hwaits
      rw [if_pos hpay, if_pos hpay]
      rw [(releaseLast_alike _ _).waits] at hwaits
      have hmore := hput.put { c with last := now, held := c.held ++ [p] }
      have hwx := hwaits
      rw [← (hmore.reassemble hverdict hf hcbs).waits] at hwx
      have hstill : ∀ z : TcpTlsHostnameExtractor R P, Alike (z.put f.key { c with last := now })
          ((z.put f.key { c with last := now }).put f.key
            { c with last := now, held := c.held ++ [p] }) :=
        fun z => put_alike (AList.find_insert_self _ _ _) rfl rfl rfl
      exact ((h.alike (hstill x) (hstill y)).reassemble hw hp hf (AList.find_insert_self _ _ _) hc
        (AList.find_insert_self _ _ _) hc hwx hwaits).alike (releaseLast_alike _ _)
          (releaseLast_alike _ _)
    · rw [if_neg hpay] at hwaits
      rw [if_neg hpay, if_neg hpay]
      by_cases hflags : f.tcp_flags &&& (kTcpSyn ||| kTcpFin ||| kTcpRst) = 0
      · rw [if_pos hflags, if_pos hflags]
        exact h.alike (alike_of_conns rfl rfl rfl) (alike_of_conns rfl rfl rfl)
      · rw [if_neg hflags] at hwaits
        rw [if_neg hflags, if_neg hflags]
        have hwy : ((y.put f.key { c with last := now }).reassemble w now f.key
            p.bytes).waits f.key ≠ none := hwaits
        have hwx := hwy
        rw [← (hput.reassemble hverdict hf hcbs).waits] at hwx
        exact (h.reassemble hw hp hf (AList.find_insert_self _ _ _) hc
          (AList.find_insert_self _ _ _) hc hwx hwy).alike (alike_of_conns rfl rfl rfl)
            (alike_of_conns rfl rfl rfl)

end Packet

/-! ## A call on the flow -/

/-- The two agree about the flow `k`, which is not resolved yet, or blocked,
or was allowed since `u`. -/
structure Near (token : Connection → UInt32) (part : R → UInt32 → S) (ended : S → Prop)
    (fed : List Packet) (u : TcpTlsHostnameExtractor R P) (k : UInt32) (base : List Decided)
    (x y : TcpTlsHostnameExtractor R P) : Prop where
  same : Same k base x y
  phase : AllowedSince k u x ∨ y.blockedConn k = true ∨ Live token part ended fed k x y

theorem not_idle (h : now - c.last < kWaitIdleTimeout) : isIdle now c = false := by
  have hle : kWaitIdleTimeout ≤ kBlockIdleTimeout := by decide
  unfold isIdle
  cases hc : c.state with
  | Wait =>
    simp only [idleTimeout]
    exact decide_eq_false (not_le.mpr h)
  | Block =>
    simp only [idleTimeout]
    exact decide_eq_false (not_le.mpr (lt_of_lt_of_le h hle))

/-- A sweep serves foreign flows only while the flow `k` is not idle. -/
theorem collect_foreign (hapart : Apart token fed)
    (hidle : ∀ c, s.conns.find k = some c → now - c.last < kWaitIdleTimeout) :
    ∀ key ∈ s.collect w (isIdle now), Foreign token fed (fun tok => Home token fed tok k) key := by
  intro key hm
  apply hapart.foreign
  rintro rfl
  obtain ⟨c, hl, hi⟩ := mem_collect.mp hm
  rw [not_idle (hidle c hl)] at hi
  cases hi

/-- With no other flow in the table a tick changes none. -/
theorem tick_alone (w : World R P) (hfeed : s.feeding = false)
    (halone : ∀ key, key ≠ k → s.conns.find key = none)
    (hidle : ∀ c, s.conns.find k = some c → now - c.last < kWaitIdleTimeout) :
    (s.tick w now).conns = s.conns ∧ (s.tick w now).decided = s.decided := by
  unfold tick
  split
  · exact ⟨rfl, rfl⟩
  · have hnone : collect { s with lastSweep := now, blocked := blockedCount { s with lastSweep := now } }
        w (isIdle now) = [] := by
      refine List.eq_nil_iff_forall_not_mem.mpr ?_
      intro key hm
      obtain ⟨c, hl, hi⟩ := mem_collect.mp hm
      by_cases hk : key = k
      · subst hk
        rw [not_idle (hidle c hl)] at hi
        cases hi
      · have hno : s.conns.find key = some c := hl
        rw [halone key hk] at hno
        cases hno
    unfold sweep
    simp only [TcpTlsHostnameExtractor.expireAll, hnone, List.foldl_nil]
    have hset := settle_of_not_feeding (w := w)
      (s := { s with lastSweep := now, blocked := blockedCount { s with lastSweep := now } })
      (w.purgeClosedConnections s.reassembly now) hfeed
    rw [hset]
    exact drain_closes_same w now hfeed

theorem makeRoom_alone (w : World R P) (now : Time) (hnone : ∀ key, s.conns.find key = none)
    (hmax : 0 < s.max_flows) : s.conns.size = 0 ∧ s.makeRoom w now = s := by
  have hkeys : s.conns.keys = [] := by
    refine List.eq_nil_iff_forall_not_mem.mpr ?_
    intro key hm
    obtain ⟨c, hl⟩ := AList.mem_keys_iff_find.mp hm
    rw [hnone key] at hl
    cases hl
  have hsize : s.conns.size = 0 := by
    rw [AList.size_eq_length_keys, hkeys]
    rfl
  refine ⟨hsize, ?_⟩
  unfold makeRoom
  rw [if_neg (by omega)]

section Call

variable {u : TcpTlsHostnameExtractor R P} (hw : Independent w token part step ended)
  (hverdict : ∀ p h, (w.decide p h).1 = verdict h)

include hw

/-- A tick before a packet of the flow, in both. -/
theorem Near.tick (hapart : Apart token fed) (hx : x.feeding = false) (hy : y.feeding = false)
    {taken : List Packet} (hacc : Accounted taken x)
    (halone : ∀ key, key ≠ k → y.conns.find key = none)
    (hidle : ∀ c, y.conns.find k = some c → now - c.last < kWaitIdleTimeout)
    (hkeep : ¬ Lost k x (x.tick w now)) (hgiven : ¬ AllowedSince k u x)
    (h : Near token part ended fed u k base x y) :
    Same k base (x.tick w now) (y.tick w now) ∧
    ((y.tick w now).blockedConn k = true ∨
      Live token part ended fed k (x.tick w now) (y.tick w now)) := by
  have hidle' : ∀ c, x.conns.find k = some c → now - c.last < kWaitIdleTimeout := by
    intro c hl
    exact hidle c (h.same.entry.symm.trans hl)
  have hcalm : Calm k now x := fun c hl _ => not_idle (hidle' c hl)
  have hentry : (x.tick w now).conns.find k = x.conns.find k := by
    rcases (tick_beside w hx hacc hcalm).1.entry with he | ⟨-, -, hlost⟩
    · exact he
    · exact absurd hlost hkeep
  obtain ⟨hyc, hyd⟩ := tick_alone w hy halone hidle
  refine ⟨h.same.congr hentry ?_ (by rw [hyc]) ?_, ?_⟩
  · exact path_verdictsOf (tick_path w now .tick hx).1 (by simp [Call.key]) (by simp) hacc hcalm
  · unfold verdictsOf
    rw [hyd]
  · rcases h.phase with ha | hb | ⟨parts, hsx, hsy, hopen⟩
    · exact absurd ha hgiven
    · refine .inl ?_
      unfold blockedConn
      rw [hyc]
      exact hb
    · exact .inr ⟨parts, hsx.tick hw hopen now hx (collect_foreign hapart hidle'),
        hsy.tick hw hopen now hy (collect_foreign hapart hidle), hopen⟩

include hverdict

/-- A packet of the flow, while it waits or when it starts to. -/
theorem Near.feedTracked (hp : p ∈ fed) (hf : flowOf p.bytes = some f) (hc : c.state = .Wait)
    (hx : x.feeding = false) (hgrow : ∃ es, x.trace = u.trace ++ es)
    (hkeep : ¬ Lost f.key x (x.feedTracked w now p f c)) (hsame : Same f.key base x y)
    (hlive : Live token part ended fed f.key (x.put f.key { c with last := now })
      (y.put f.key { c with last := now })) :
    Near token part ended fed u f.key base (x.feedTracked w now p f c)
      (y.feedTracked w now p f c) := by
  have hcbs := hlive.callbacks hw hp hf now
  have hnext := hsame.feedTracked hverdict hf c hcbs
  refine ⟨hnext, ?_⟩
  by_cases hwaits : (y.feedTracked w now p f c).waits f.key = none
  · cases hl : (y.feedTracked w now p f c).conns.find f.key with
    | none =>
      have hgone := (feedTracked_tracked w now hf hc hx).2 (hnext.entry.trans hl)
      exact .inl ((hgone.resolve_right hkeep).before hgrow)
    | some c' => exact .inr (.inl (blockedConn_iff.mpr ⟨c', hl, waits_eq_none.mp hwaits c' hl⟩))
  · exact .inr (.inr (hlive.feedTracked hw hp hf hverdict hsame hc hwaits))

theorem Near.feedFlow (hapart : Apart token fed) (hp : p ∈ fed) (hf : flowOf p.bytes = some f)
    (hx : x.feeding = false) {taken : List Packet} (hacc : Accounted taken x)
    (halone : ∀ key, key ≠ f.key → y.conns.find key = none) (hmax : 0 < y.max_flows)
    (hgrow : ∃ es, x.trace = u.trace ++ es) (hkeep : ¬ Lost f.key x (x.feedFlow w now p f))
    (hroom : (x.feedFlow w now p f).dropped_at_cap = x.dropped_at_cap) (hsame : Same f.key base x y)
    (hphase : y.blockedConn f.key = true ∨ Live token part ended fed f.key x y) :
    Near token part ended fed u f.key base (x.feedFlow w now p f) (y.feedFlow w now p f) := by
  unfold TcpTlsHostnameExtractor.feedFlow at hkeep hroom ⊢
  cases hl : y.conns.find f.key with
  | some c =>
    have hlx := hsame.entry.trans hl
    simp only [hlx] at hkeep ⊢
    by_cases hb : c.state = .Block
    · rw [if_pos hb, if_pos hb]
      refine ⟨(hsame.put _).decide p .BLOCK, .inr (.inl ?_)⟩
      exact blockedConn_iff.mpr ⟨_, AList.find_insert_self _ _ _, hb⟩
    · have hc : c.state = .Wait := by
        cases hst : c.state with
        | Wait => rfl
        | Block => exact absurd hst hb
      have hlive := hphase.resolve_left (by simp [blockedConn, hl, hc])
      rw [if_neg hb] at hkeep
      rw [if_neg hb, if_neg hb]
      exact Near.feedTracked hw hverdict hp hf hc hx hgrow hkeep hsame
        (hlive.alike (put_alike hlx rfl rfl rfl) (put_alike hl rfl rfl rfl))
  | none =>
    have hlx := hsame.entry.trans hl
    have hlive := hphase.resolve_left (by simp [blockedConn, hl])
    simp only [hlx] at hkeep hroom ⊢
    unfold feedUntracked at hkeep hroom ⊢
    by_cases hopens : opensTracking p.bytes f = false
    · rw [if_pos hopens, if_pos hopens]
      exact ⟨hsame.decide p .ALLOW, .inr (.inr (hlive.alike (alike_of_conns rfl rfl rfl)
        (alike_of_conns rfl rfl rfl)))⟩
    · rw [if_neg hopens] at hkeep hroom
      rw [if_neg hopens, if_neg hopens]
      have hnone : ∀ key, y.conns.find key = none := by
        intro key
        by_cases hk : key = f.key
        · rw [hk, hl]
        · exact halone key hk
      obtain ⟨hsize, hstay⟩ := makeRoom_alone w now hnone hmax
      obtain ⟨hpath, hx'⟩ := makeRoom_path w now .tick hx
      simp only [hstay] at hkeep hroom ⊢
      rw [if_neg (c := y.conns.size ≥ y.max_flows) (by omega)]
      by_cases hfull : (x.makeRoom w now).conns.size ≥ (x.makeRoom w now).max_flows
      · -- the table is full for the flow that opens, which is ruled out
        rw [if_pos hfull] at hroom
        have hcaps := congrArg (fun caps => caps.2.2) (path_caps hpath)
        simp only [caps] at hcaps
        simp [hcaps] at hroom
      · rw [if_neg hfull] at hkeep ⊢
        have hn := makeRoom_find_none w now hx hlx
        have hcalm : Calm f.key now x := fun c hc => absurd (hlx.symm.trans hc) (by simp)
        have hsame' : Same f.key base (x.makeRoom w now) y :=
          hsame.congr (hn.trans hlx.symm)
            (path_verdictsOf hpath (by simp [Call.key]) (by simp) hacc hcalm) rfl rfl
        have hgrown : ∃ es, ((x.makeRoom w now).log (.tracked f.key)).trace = x.trace ++ es := by
          obtain ⟨es, he⟩ := path_grows hpath
          exact ⟨es ++ [.tracked f.key], by rw [log_trace, he, List.append_assoc]⟩
        obtain ⟨es, he⟩ := hgrown
        obtain ⟨es0, he0⟩ := hgrow
        have hopen : Live token part ended fed f.key
            (((x.makeRoom w now).log (.tracked f.key)).put f.key { last := now })
            ((y.log (.tracked f.key)).put f.key { last := now }) := by
          obtain ⟨parts, hsx, hsy, hopen⟩ := hlive
          have htick := hsx.tick hw hopen now hx (collect_foreign hapart (fun c hc => by
            rw [hlx] at hc
            cases hc))
          have hsx' : Shielded token part fed _ parts (x.makeRoom w now) :=
            makeRoom_law (I := Shielded token part fed _ parts) (fun _ _ ha hz => hz.alike ha) htick hsx
          exact ⟨parts, (hsx'.alike (log_alike _ _)).enter (open_write _ f.key now),
            (hsy.alike (log_alike _ _)).enter (open_write _ f.key now), hopen⟩
        exact Near.feedTracked hw hverdict hp hf rfl hx' ⟨es0 ++ es, by rw [he, he0, List.append_assoc]⟩
          (fun hlost => hkeep (hlost.before ⟨es, he⟩)) (hsame'.log (.tracked f.key)) hopen

/-- A packet of the flow, fed to both. -/
theorem Near.feed {pkt : Arrival} (hapart : Apart token fed) (hp : pkt.val ∈ fed)
    (hf : flowOf pkt.val.bytes = some f) (hx : x.feeding = false) (hy : y.feeding = false)
    {taken : List Packet} (hacc : Accounted taken x)
    (halone : ∀ key, key ≠ f.key → y.conns.find key = none) (hmax : 0 < y.max_flows)
    (hidle : ∀ c, y.conns.find f.key = some c → now - c.last < kWaitIdleTimeout)
    (hgrow : ∃ es, x.trace = u.trace ++ es) (hkeep : ¬ Lost f.key x (x.feed w now pkt.val))
    (hroom : (x.feed w now pkt.val).dropped_at_cap = x.dropped_at_cap)
    (hgiven : ¬ AllowedSince f.key u x) (h : Near token part ended fed u f.key base x y) :
    Near token part ended fed u f.key base (x.feed w now pkt.val) (y.feed w now pkt.val) := by
  obtain ⟨hpath, hx'⟩ := tick_path w now .tick hx
  obtain ⟨hypath, -⟩ := tick_path w now .tick hy
  have hkeep' : ¬ Lost f.key x (x.tick w now) := fun hlost => hkeep (hlost.after (feed_grows hf hx))
  obtain ⟨hsame, hphase⟩ := h.tick hw hapart hx hy hacc halone hidle hkeep' hgiven
  obtain ⟨hyc, -⟩ := tick_alone w hy halone hidle
  obtain ⟨es, he⟩ := path_grows hpath
  obtain ⟨es0, he0⟩ := hgrow
  have hcaps := congrArg (fun caps => caps.2.2) (path_caps hpath)
  have hycaps := congrArg (fun caps => caps.1) (path_caps hypath)
  simp only [caps] at hcaps hycaps
  rw [feed_of_flow hf] at hkeep hroom
  rw [feed_of_flow hf, feed_of_flow hf]
  have hacc' : Accounted taken (x.tick w now) := path_accounted hpath hacc
  have hnear : Near token part ended fed u f.key base ((x.tick w now).feedFlow w now pkt.val f)
      ((y.tick w now).feedFlow w now pkt.val f) :=
    Near.feedFlow hw hverdict hapart hp hf hx' hacc' (by rwa [hyc]) (by rwa [hycaps])
      ⟨es0 ++ es, by rw [he, he0, List.append_assoc]⟩ (fun hlost => hkeep (hlost.before ⟨es, he⟩))
      (hroom.trans hcaps.symm) hsame hphase
  refine ⟨⟨hnear.same.entry, hnear.same.verdicts⟩, ?_⟩
  rcases hnear.phase with ha | hb | hlive
  · exact .inl ha
  · exact .inr (.inl hb)
  · exact .inr (.inr (hlive.alike (publish_alike _) (publish_alike _)))

omit hverdict in
/-- A call that is not about the flow, made in one of the two. -/
theorem Near.beside {op : Op} (hapart : Apart token fed) (hfed : ∀ q, op.fed = some q → q ∈ fed)
    (hop : ∀ q, op.fed = some q → keyOf q ≠ some k) (hflush : ∀ now, op ≠ .flush now)
    (hx : x.feeding = false) {taken : List Packet} (hacc : Accounted taken x)
    (hidle : ∀ c, x.conns.find k = some c → op.now - c.last < kWaitIdleTimeout)
    (hkeep : ¬ Lost k x (op.apply w x)) (h : Near token part ended fed u k base x y) :
    Near token part ended fed u k base (op.apply w x) y := by
  have hcalm : Calm k op.now x := fun c hl _ => not_idle (hidle c hl)
  have hentry : (op.apply w x).conns.find k = x.conns.find k := by
    rcases (apply_beside hop hflush hx hacc hcalm).1.entry with he | ⟨-, -, hlost⟩
    · exact he
    · exact absurd hlost hkeep
  refine ⟨h.same.congr hentry (apply_verdictsOf hop hflush hx hacc hcalm) rfl rfl, ?_⟩
  rcases h.phase with ha | hb | ⟨parts, hsx, hsy, hopen⟩
  · obtain ⟨es, he, -⟩ := apply_trace (w := w) op hx
    exact .inl (ha.after ⟨es, he⟩)
  · exact .inr (.inl hb)
  · have htimed : Timed (fun _ t => op.now - t < kWaitIdleTimeout) k (x.tick w op.now) :=
      path_timed (fun _ => id) (by simp [Call.key]) (tick_path w op.now .tick hx).1 hidle
    refine .inr (.inr ⟨parts, ?_, hsy, hopen⟩)
    refine hsx.apply hw hopen hfed hx ?_ ?_ (fun now he => absurd he (hflush now))
    · rintro z (rfl | rfl)
      · exact collect_foreign hapart hidle
      · exact collect_foreign hapart htimed
    · intro q g hq hg
      exact hapart.foreign (fun hk => hop q hq (by simp [keyOf, hg, hk]))

end Call

end Live

/-! ## Runs -/

/-- Nothing of the flow `k` is left: it has no entry, the reassembler has no
state for it, and no close of it is to come. -/
structure Unknown {S : Type} (token : Connection → UInt32) (part : R → UInt32 → S)
    (fed : List Packet) (fresh : S) (k : UInt32) (s : TcpTlsHostnameExtractor R P) : Prop where
  entry : s.conns.find k = none
  fresh : ∀ tok, Home token fed tok k → part s.reassembly tok = fresh
  unqueued : ∀ tok ∈ s.to_close, ¬ Home token fed tok k

/-- The call does not evict the flow `k`, and does not find the table full
when it is the flow's own. -/
def Spared (w : World R P) (k : UInt32) (x : TcpTlsHostnameExtractor R P) (op : Op) : Prop :=
  (op.apply w x).trace.count (.evicted k) = x.trace.count (.evicted k) ∧
  (op.isOf k = true → (op.apply w x).dropped_at_cap = x.dropped_at_cap)

theorem Spared.not_lost {op : Op} {done : List Op} (h : Spared w k x op) (hx : x.feeding = false)
    (htimed : Timed (fun _ t => lastFed k done = some t) k x)
    (hgap : ∀ t ∈ lastFed k done, op.now - t < kWaitIdleTimeout) : ¬ Lost k x (op.apply w x) := by
  rintro ⟨es, he, hlost⟩
  rcases hlost with hevicted | hexpired
  · have hcount := h.1
    rw [he, List.count_append, Nat.add_eq_left] at hcount
    exact List.count_eq_zero.mp hcount hevicted
  · obtain ⟨es', he', hidle⟩ := apply_expiresAt (w := w) op hx htimed
    rw [he, List.append_cancel_left_eq] at he'
    obtain ⟨t, ht, hlate⟩ := hidle (he' ▸ hexpired)
    have hle : kWaitIdleTimeout ≤ kBlockIdleTimeout := by decide
    exact absurd (lt_of_lt_of_le (hgap t ht) hle) (not_lt.mpr hlate)

/-- A run among others, in `x`, and the flow's own run, in `y`. -/
structure Together {S : Type} (token : Connection → UInt32) (part : R → UInt32 → S)
    (ended : S → Prop) (fed taken : List Packet) (u : TcpTlsHostnameExtractor R P) (k : UInt32)
    (base : List Decided) (done : List Op) (x y : TcpTlsHostnameExtractor R P) : Prop where
  feeding : x.feeding = false ∧ y.feeding = false
  grows : ∃ es, x.trace = u.trace ++ es
  timed : Timed (fun _ t => lastFed k done = some t) k x
  accounted : Accounted (taken ++ fedBy done) x
  alone : ∀ key, key ≠ k → y.conns.find key = none
  room : 0 < y.max_flows
  near : Recent k done → Near token part ended fed u k base x y
  quiet : y.waits k = none → x.verdictsOf k = base ++ y.verdictsOf k ∧ x.waits k = none

section Runs

variable {S : Type} {token : Connection → UInt32} {part : R → UInt32 → S}
  {step : S → Time → Bytes → S × List Callback} {ended : S → Prop} {fed taken : List Packet}
  {u : TcpTlsHostnameExtractor R P} {base : List Decided} {done rest ops : List Op} {op : Op}
  {verdict : Option Bytes → Verdict}

theorem Near.quiet (h : Near token part ended fed u k base x y) (hwaits : y.waits k = none) :
    x.verdictsOf k = base ++ y.verdictsOf k ∧ x.waits k = none :=
  ⟨h.same.verdicts, h.same.waits.trans hwaits⟩

theorem accounted_call (h : Accounted (taken ++ fedBy done) x) (hx : x.feeding = false) (op : Op) :
    Accounted (taken ++ fedBy (done ++ [op])) (op.apply w x) := by
  have hlater := accounted_later (w := w) h hx [op]
  rw [List.append_assoc] at hlater
  rw [fedBy, List.filterMap_append]
  exact hlater

/-- A packet of the flow, fed to both runs. -/
theorem Together.own (hw : Independent w token part step ended)
    (hverdict : ∀ p h, (w.decide p h).1 = verdict h) (hapart : Apart token fed)
    (hinter : Interleaved k ops) (hops : ops = done ++ op :: rest) (hown : op.isOf k = true)
    (hfed : ∀ q, op.fed = some q → q ∈ fed) (hspared : Spared w k x op)
    (hgiven : ¬ AllowedSince k u x) (h : Together token part ended fed taken u k base done x y) :
    Together token part ended fed taken u k base (done ++ [op]) (op.apply w x) (op.apply w y) := by
  obtain ⟨hx, hy⟩ := h.feeding
  have hgap := hinter.gaps done op rest hops hown
  have hnear := h.near (hinter.recent hops hgap)
  have hkeep := hspared.not_lost hx h.timed hgap
  have hnext : Near token part ended fed u k base (op.apply w x) (op.apply w y) := by
    cases op with
    | tick now => cases hown
    | flush now => cases hown
    | feed now pkt =>
      have hkey : keyOf pkt.val = some k := of_decide_eq_true hown
      obtain ⟨f, hf, rfl⟩ := Option.map_eq_some_iff.mp hkey
      refine hnear.feed hw hverdict hapart (hfed _ rfl) hf hx hy h.accounted h.alone h.room ?_
        h.grows hkeep (hspared.2 hown) hgiven
      intro c hl
      exact hgap _ (h.timed c (hnear.same.entry.trans hl))
  have hkeys : ∀ key, key ≠ k → ∀ q, op.fed = some q → keyOf q ≠ some key := by
    intro key hne q hq hk
    have hown' : op.fed.bind keyOf = some k := of_decide_eq_true hown
    rw [hq, Option.bind_some, hk, Option.some.injEq] at hown'
    exact hne hown'
  obtain ⟨es, he, -⟩ := apply_trace (w := w) op hx
  obtain ⟨es0, he0⟩ := h.grows
  exact
    { feeding := ⟨apply_feeding op hx, apply_feeding op hy⟩
      grows := ⟨es0 ++ es, by rw [he, he0, List.append_assoc]⟩
      timed := apply_lastFed op hx h.timed
      accounted := accounted_call h.accounted hx op
      alone := fun key hne => apply_find_none (hkeys key hne) hy (h.alone key hne)
      room := (run_caps (w := w) [op] hy).1 ▸ h.room
      near := fun _ => hnext
      quiet := hnext.quiet }

/-- Any other call, made in the first run only. Once the flow does not wait,
it does not matter how late the call is. -/
theorem Together.other (hw : Independent w token part step ended) (hapart : Apart token fed)
    (hinter : Interleaved k ops) (hops : ops = done ++ op :: rest) (hother : op.isOf k = false)
    (hfed : ∀ q, op.fed = some q → q ∈ fed) (hspared : Spared w k x op)
    (h : Together token part ended fed taken u k base done x y) :
    Together token part ended fed taken u k base (done ++ [op]) (op.apply w x) y := by
  obtain ⟨hx, hy⟩ := h.feeding
  have hop : ∀ q, op.fed = some q → keyOf q ≠ some k := by
    intro q hq hk
    have hno : ¬ op.fed.bind keyOf = some k := of_decide_eq_false hother
    exact hno (by rw [hq]; exact hk)
  have hflush : ∀ now, op ≠ .flush now := by
    rintro now rfl
    exact hinter.flushless now (by simp [hops])
  have hlast : lastFed k (done ++ [op]) = lastFed k done := by
    rw [lastFed_append, if_neg (of_decide_eq_false hother)]
  obtain ⟨es, he, -⟩ := apply_trace (w := w) op hx
  obtain ⟨es0, he0⟩ := h.grows
  refine
    { feeding := ⟨apply_feeding op hx, hy⟩
      grows := ⟨es0 ++ es, by rw [he, he0, List.append_assoc]⟩
      timed := apply_lastFed op hx h.timed
      accounted := accounted_call h.accounted hx op
      alone := h.alone
      room := h.room
      near := ?_
      quiet := ?_ }
  · intro hrecent
    have hgap : ∀ t ∈ lastFed k done, op.now - t < kWaitIdleTimeout := by
      intro t ht
      exact hrecent op (by simp) t (hlast ▸ ht)
    exact (h.near (hinter.recent hops hgap)).beside hw hapart hfed hop hflush hx h.accounted
      (fun c hl => hgap _ (h.timed c hl)) (hspared.not_lost hx h.timed hgap)
  · intro hwaits
    obtain ⟨hverdicts, hnone⟩ := h.quiet hwaits
    have hcalm : Calm k op.now x := by
      intro c hl hc
      rw [waits_eq_none.mp hnone c hl] at hc
      cases hc
    refine ⟨(apply_verdictsOf hop hflush hx h.accounted hcalm).trans hverdicts, ?_⟩
    rcases (apply_beside hop hflush hx h.accounted hcalm).1.entry with hf | ⟨-, hf, -⟩
    · unfold waits
      rw [hf]
      exact hnone
    · rw [waits_eq_none]
      intro c hl
      rw [hf] at hl
      cases hl

end Runs

/-- Flows with different keys do not influence each other. From a state in
which nothing of the flow `k` is left, its packets are decided among other
calls as they are by an extractor that is fed nothing else, up to the packet
that allows the flow, and for good when it is blocked. -/
theorem flows_do_not_influence_each_other {S : Type} {w : World R P}
    {token : Connection → UInt32} {part : R → UInt32 → S}
    {step : S → Time → Bytes → S × List Callback} {ended : S → Prop}
    {verdict : Option Bytes → Verdict} {fresh : S} (hw : Independent w token part step ended)
    (hverdict : ∀ p h, (w.decide p h).1 = verdict h) (hfresh : ¬ ended fresh) (r : R) (p : P)
    (max_flows max_blocked : Nat) (past ops : List Op) (k : UInt32)
    (hapart : Apart token (fedBy (past ++ ops))) (hempty : ∀ tok, part r tok = fresh)
    (hnew : Unknown token part (fedBy (past ++ ops)) fresh k
      (past.foldl (Op.apply w) (init r p max_flows max_blocked)))
    (hinter : Interleaved k ops)
    (hspared : Along (Op.apply w) (Spared w k)
      (past.foldl (Op.apply w) (init r p max_flows max_blocked)) ops)
    (hgiven : Along (Op.apply w) (fun x op => op.isOf k = true →
        ¬ AllowedSince k (past.foldl (Op.apply w) (init r p max_flows max_blocked)) x)
      (past.foldl (Op.apply w) (init r p max_flows max_blocked)) ops)
    (hend : Recent k ops ∨ ((ops.filter (Op.isOf k)).foldl (Op.apply w)
      (init r p max_flows max_blocked)).waits k = none) :
    ((past ++ ops).foldl (Op.apply w) (init r p max_flows max_blocked)).verdictsOf k =
      (past.foldl (Op.apply w) (init r p max_flows max_blocked)).verdictsOf k ++
      ((ops.filter (Op.isOf k)).foldl (Op.apply w)
        (init r p max_flows max_blocked)).verdictsOf k := by
  have hpast : ∀ q ∈ fedBy past, q ∈ fedBy (past ++ ops) := by
    intro q hq
    rw [fedBy, List.filterMap_append]
    exact List.mem_append_left _ hq
  have hfed : ∀ done op rest, ops = done ++ op :: rest → ∀ q, op.fed = some q →
      q ∈ fedBy (past ++ ops) :=
    fun done op rest hops q hq => List.mem_filterMap.mpr ⟨op, by simp [hops], hq⟩
  have hhome : Shielded token part (fedBy (past ++ ops)) (fun _ => False) (fun _ => fresh) _ :=
    shielded_run hw (fun _ => fresh) r p max_flows max_blocked past hpast
  obtain ⟨hacc, hfeed⟩ := accounted_run w r p max_flows max_blocked past
  rw [List.foldl_append]
  generalize hs : past.foldl (Op.apply w) (init r p max_flows max_blocked) = s at *
  have hnear : Near token part ended (fedBy (past ++ ops)) s k (s.verdictsOf k) s
      (init r p max_flows max_blocked) := by
    refine ⟨⟨hnew.entry, by simp [verdictsOf, init]⟩, .inr (.inr ⟨fun _ => fresh, ?_, ?_, fun _ _ => hfresh⟩)⟩
    · exact ⟨hhome.home, hnew.unqueued, hnew.fresh⟩
    · exact ⟨fun _ _ _ hk => (by cases hk), fun _ hm => (List.not_mem_nil hm).elim,
        fun tok _ => hempty tok⟩
  have hstart : Together token part ended (fedBy (past ++ ops)) (fedBy past) s k (s.verdictsOf k)
      [] s (init r p max_flows max_blocked) :=
    { feeding := ⟨hfeed, rfl⟩
      grows := ⟨[], by simp⟩
      timed := fun c hl => absurd (hnew.entry.symm.trans hl) (by simp)
      accounted := by simpa [fedBy] using hacc
      alone := fun _ _ => rfl
      room := by
        simp only [init]
        split <;> omega
      near := fun _ => hnear
      quiet := hnear.quiet }
  have hrun := unwinding (f := Op.apply w) (g := Op.apply w)
    (fun done op rest a b hops hown hC h => h.own hw hverdict hapart hinter hops hown
      (hfed done op rest hops) hC.1 (hC.2 hown))
    (fun done op rest a b hops hother hC h => h.other hw hapart hinter hops hother
      (hfed done op rest hops) hC.1)
    (hspared.and hgiven) hstart
  rcases hend with hrecent | hwaits
  · exact (hrun.near hrecent).same.verdicts
  · exact (hrun.quiet hwaits).1

open traffic in
/-- The hello of one client in two segments, with the blocked flow of another
client between them, and the ring of one slot passed on from flow to flow. -/
theorem a_hello_among_others_is_blocked_as_if_alone :
    let w := apartWorld { exact := [host] }
    let past : List Op := [.feed 0 (hello (client 3) 1)]
    let ops : List Op := [.feed (seconds 1) (syn (client 2) 2),
      .feed (seconds 2) (segmentOf (client 2) 1 ((client_hello host).take 20) 3),
      .feed (seconds 3) (hello (client 4) 4), .tick (seconds 4),
      .feed (seconds 5) (segmentOf (client 2) 21 ((client_hello host).drop 20) 5)]
    let s := past.foldl (Op.apply w) (init (fun _ => none) () 3 1)
    let x := (past ++ ops).foldl (Op.apply w) (init (fun _ => none) () 3 1)
    (x.verdictsOf 3561989440).map (·.verdict) = [.ALLOW, .BLOCK, .BLOCK] ∧
    x.verdictsOf 3561989440 = s.verdictsOf 3561989440 ++
      ((ops.filter (Op.isOf 3561989440)).foldl (Op.apply w)
        (init (fun _ => none) () 3 1)).verdictsOf 3561989440 := by
  intro w past ops s x
  have hapart : Apart tokenOf (fedBy (past ++ ops)) := by
    have hall : ∀ p ∈ fedBy (past ++ ops), ∀ q ∈ fedBy (past ++ ops), ∀ f ∈ flowOf p.bytes,
        ∀ g ∈ flowOf q.bytes, tokenOf (connectionOf f) = tokenOf (connectionOf g) →
          connectionOf f = connectionOf g := by
      decide +kernel
    exact fun p hp q hq f g hf hg => hall p hp q hq f hf g hg
  have hnew : Unknown tokenOf (fun links token => links token) (fedBy (past ++ ops)) none
      3561989440 s := by
    have hfree : ∀ p ∈ fedBy (past ++ ops), ∀ f ∈ flowOf p.bytes, f.key = 3561989440 →
        (s.reassembly (tokenOf (connectionOf f))).isNone = true ∧
        tokenOf (connectionOf f) ∉ s.to_close := by
      decide +kernel
    refine ⟨Option.isNone_iff_eq_none.mp (by decide +kernel), ?_, ?_⟩
    · rintro tok ⟨p, hp, f, hf, rfl, hk⟩
      exact Option.isNone_iff_eq_none.mp (hfree p hp f hf hk).1
    · rintro tok hm ⟨p, hp, f, hf, rfl, hk⟩
      exact (hfree p hp f hf hk).2 hm
  have hinter : Interleaved 3561989440 ops := by
    refine ⟨by decide +kernel, ?_, by simp [ops]⟩
    intro done op rest hops
    refine of_each_split (C := fun done (op : Op) => op.isOf 3561989440 = true →
      ∀ t ∈ lastFed 3561989440 done, op.now - t < kWaitIdleTimeout) ?_ hops
    decide +kernel
  have hspared : Along (Op.apply w) (Spared w 3561989440) s ops := by
    unfold Spared
    refine ⟨?_, ?_, ?_, ?_, ?_, trivial⟩ <;> decide +kernel
  have hgiven : Along (Op.apply w) (fun y op => op.isOf 3561989440 = true →
      ¬ AllowedSince 3561989440 s y) s ops := by
    have hno : ∀ y : TcpTlsHostnameExtractor (UInt32 → Option Link) Unit,
        y.trace.all (fun e => !asks 3561989440 e) = true → ¬ AllowedSince 3561989440 s y := by
      rintro y hall ⟨es, hostname, he, hm⟩
      have hasked := List.all_eq_true.mp hall _ (he ▸ List.mem_append_right _ hm)
      simp [asks] at hasked
    refine ⟨fun _ => hno _ ?_, fun _ => hno _ ?_, fun _ => hno _ ?_, fun _ => hno _ ?_,
      fun _ => hno _ ?_, trivial⟩ <;> decide +kernel
  have hverdicts : (x.verdictsOf 3561989440).map (·.verdict) = [.ALLOW, .BLOCK, .BLOCK] := by
    decide +kernel
  have hpolicy : ∀ p h, (w.decide p h).1 = workerDecide { exact := [host] } h := fun _ _ => rfl
  have hfresh : ¬ hasEnded none := by
    rintro ⟨l, hl, -⟩
    cases hl
  have hrecent : Recent 3561989440 ops := by
    unfold Recent
    decide +kernel
  exact ⟨hverdicts, flows_do_not_influence_each_other (apartWorld_independent _) hpolicy hfresh
    (fun _ => none) () 3 1 past ops 3561989440 hapart (fun _ => rfl) hnew hinter hspared hgiven
    (.inl hrecent)⟩

end TcpTlsHostnameExtractor

end packet_inspector
