-- One flow among the others: what the calls that are not about it leave of
-- its entry, its decisions and its bytes.
import PacketInspector.Evidence

open wire packet_inspector.tls runs

namespace packet_inspector.TcpTlsHostnameExtractor

variable {R P : Type} {w : World R P} {s s' : TcpTlsHostnameExtractor R P} {k : UInt32}

/-- The decisions on the payload of the flow `k`, in order. -/
def decidedOf (s : TcpTlsHostnameExtractor R P) (k : UInt32) : List Decided :=
  s.decided.filter (fun d => carries d.pkt.tag = some k)

/-- The payload of the flow `k` that a run feeds, in order. -/
def carried (k : UInt32) (ops : List Op) : List (UInt32 × Bytes) :=
  ((fedBy ops).map Packet.tag).filter (fun t => carries t = some k)

/-- The entry of `k` was evicted or idled out between two states. -/
def Lost (k : UInt32) (s s' : TcpTlsHostnameExtractor R P) : Prop :=
  ∃ es, s'.trace = s.trace ++ es ∧ (.evicted k ∈ es ∨ .expired k ∈ es)

/-- The flow `k` does not idle out at `now`. -/
def Calm (k : UInt32) (now : Time) (s : TcpTlsHostnameExtractor R P) : Prop :=
  ∀ c, s.conns.find k = some c → c.state = .Wait → isIdle now c = false

/-- What calls on other flows leave of the flow `k`: its decisions, and its
entry, unless that was blocked and is lost. -/
structure Beside (k : UInt32) (s s' : TcpTlsHostnameExtractor R P) : Prop where
  entry : s'.conns.find k = s.conns.find k ∨
    (s.blockedConn k = true ∧ s'.conns.find k = none ∧ Lost k s s')
  decisions : s'.decidedOf k = s.decidedOf k

theorem keyOf_of_carries {p : Packet} (h : carries p.tag = some k) : keyOf p = some k := by
  obtain ⟨f, hf, -, hk⟩ := carries_eq_some_iff.mp h
  simp [keyOf, hf, hk]

/-! ## The history grows -/

theorem Lost.before {s0 : TcpTlsHostnameExtractor R P} (h : Lost k s s')
    (hgrow : ∃ es, s.trace = s0.trace ++ es) : Lost k s0 s' := by
  obtain ⟨es, he, hlost⟩ := h
  obtain ⟨es0, he0⟩ := hgrow
  refine ⟨es0 ++ es, by rw [he, he0, List.append_assoc], ?_⟩
  rcases hlost with h | h
  · exact .inl (List.mem_append_right _ h)
  · exact .inr (List.mem_append_right _ h)

theorem Lost.after {s2 : TcpTlsHostnameExtractor R P} (h : Lost k s s')
    (hgrow : ∃ es, s2.trace = s'.trace ++ es) : Lost k s s2 := by
  obtain ⟨es, he, hlost⟩ := h
  obtain ⟨es2, he2⟩ := hgrow
  refine ⟨es ++ es2, by rw [he2, he, List.append_assoc], ?_⟩
  rcases hlost with h | h
  · exact .inl (List.mem_append_left _ h)
  · exact .inr (List.mem_append_left _ h)

theorem step_grows {now : Time} {call : Call} (hs : Step w now call s s') :
    ∃ es, s'.trace = s.trace ++ es := by
  obtain ⟨es, he, -⟩ := step_trace hs
  exact ⟨es, he⟩

theorem path_grows {now : Time} {call : Call} (hp : Path w now call s s') :
    ∃ es, s'.trace = s.trace ++ es := by
  obtain ⟨es, he, -⟩ := path_trace hp
  exact ⟨es, he⟩

/-- The history of a call that feeds a packet goes on from its tick. -/
theorem feed_grows {now : Time} {p : Arrival} {f : FlowView} (hf : flowOf p.val.bytes = some f)
    (hfeed : s.feeding = false) : ∃ es, (s.feed w now p.val).trace = (s.tick w now).trace ++ es := by
  have hfeed' := (tick_path w now .tick hfeed).2
  obtain ⟨⟨s1, s2, h1, h2, h3⟩, -⟩ := feedFlow_feeds w now hf hfeed'
  obtain ⟨es, he⟩ := path_grows h1
  obtain ⟨es', he'⟩ := path_grows h3
  refine ⟨es ++ es', ?_⟩
  rw [feed_of_flow hf, publish_trace, he', take_trace h2, he, List.append_assoc]

/-- A call that is not about the flow `k` delivers nothing for it. -/
theorem delivered_of_callbacks {es : List Event}
    (h : ∀ packet cb, .callback packet cb ∈ es → (flowOf packet).map (·.key) ≠ some k) :
    delivered (keyed k) es = [] := by
  unfold delivered
  rw [List.flatMap_eq_nil_iff]
  intro e he
  by_contra hdata
  obtain ⟨packet, f, tok, data, rfl, hf, hk⟩ := clientData_keyed hdata
  exact h packet _ he (by simp [hf, hk])

theorem path_delivered {now : Time} {call : Call} (hp : Path w now call s s')
    (hk : call.key ≠ some k) :
    delivered (keyed k) s'.trace = delivered (keyed k) s.trace := by
  obtain ⟨es, he, hes⟩ := path_trace hp
  have hnone : delivered (keyed k) es = [] := by
    refine delivered_of_callbacks ?_
    intro packet cb hm hf
    apply hk
    rw [hes packet cb hm]
    exact hf
  rw [he, delivered_append, hnone, List.append_nil]

/-! ## Steps beside a flow -/

theorem resolve_find_other {key : UInt32} {hostname : Option Bytes} {c : Conn} (hk : k ≠ key)
    (hl : s.conns.find k = some c) :
    (s.resolve w key hostname).conns.find k = some c ∨
    (c.state = .Block ∧ (s.resolve w key hostname).conns.find k = none ∧
      Lost k s (s.resolve w key hostname)) := by
  rcases resolve_eq_self_or w s key hostname with ⟨hr, -⟩ | ⟨c', hl', hc'⟩
  · rw [hr]
    exact .inl hl
  · cases hv : (w.decide s.policy hostname).1 with
    | ALLOW =>
      rw [resolve_allow hl' hc' hv, release_conns, close_conns, forget_conns]
      exact .inl ((AList.find_erase_of_ne _ hk).trans hl)
    | BLOCK =>
      have hput : ((s.ask w key hostname).put key (blockConn c')).conns.find k = some c :=
        (AList.find_insert_of_ne _ _ hk).trans hl
      rw [resolve_blocked hl' hc' hv, release_eq]
      rcases remember_blocked_cases ((s.ask w key hostname).put key (blockConn c')) key with
        ⟨hr, -⟩ | ⟨hr, -, -, hb⟩
      · rw [hr]
        exact .inl hput
      · rw [hr]
        by_cases ho : k = ((s.ask w key hostname).put key (blockConn c')).oldest
        · obtain ⟨c'', hf, hst⟩ := blockedConn_iff.mp hb
          rw [← ho, hput] at hf
          cases hf
          refine .inr ⟨hst, ?_, ?_⟩
          · rw [← ho]
            exact AList.find_erase_self _ _
          · rw [← ho]
            refine ⟨[.asked key hostname (w.decide s.policy hostname).1, .evicted k], ?_, by simp⟩
            simp [evict]
        · exact .inl ((AList.find_erase_of_ne _ ho).trans hput)

theorem step_find_other {now : Time} {call : Call} {c : Conn} (hs : Step w now call s s')
    (hk : call.key ≠ some k) (hflush : call ≠ .flush) (hcalm : Calm k now s)
    (hl : s.conns.find k = some c) :
    s'.conns.find k = some c ∨
    (c.state = .Block ∧ s'.conns.find k = none ∧ Lost k s s') := by
  have hput : ∀ (x : TcpTlsHostnameExtractor R P) (key : UInt32) (c' : Conn),
      call.key = some key → x.conns = s.conns → (x.put key c').conns.find k = some c := by
    intro x key c' hkey hx
    have hne : k ≠ key := fun he => hk (he ▸ hkey)
    rw [put_conns, hx, AList.find_insert_of_ne _ _ hne]
    exact hl
  cases hs with
  | books => exact .inl hl
  | heard => exact .inl hl
  | joined packet f c' tok data hf hcall hl' hc' =>
    exact .inl (hput _ f.key _ (by simp [hcall, Call.key, hf]) rfl)
  | marked key c' tok closed hkey hl' => exact .inl (hput s key _ hkey rfl)
  | touched key c' hkey hl' => exact .inl (hput s key _ hkey rfl)
  | opened key hkey hl' hroom => exact .inl (hput s key _ hkey rfl)
  | released key c' ps p hkey hl' hheld => exact .inl (hput s key _ hkey rfl)
  | resolved key c' hostname hl' hc' hcall hreason =>
    have hne : k ≠ key := by
      rintro rfl
      rw [hl] at hl'
      cases hl'
      rcases hcall with h | h | h
      · exact hk h
      · exact hflush h
      · rw [hcalm c hl hc'] at h
        cases h
    exact resolve_find_other hne hl
  | expired key c' hl' hc' hidle =>
    by_cases hkey : k = key
    · subst hkey
      rw [hl] at hl'
      cases hl'
      exact .inr ⟨hc', AList.find_erase_self _ _, [_], rfl, by simp⟩
    · exact .inl ((AList.find_erase_of_ne _ hkey).trans hl)
  | passed hv => exact .inl hl
  | evicted h0 hv =>
    by_cases ho : k = s.oldest
    · obtain ⟨c'', hf, hst⟩ := blockedConn_iff.mp hv
      rw [← ho, hl] at hf
      cases hf
      rw [← ho]
      exact .inr ⟨hst, AList.find_erase_self _ _, [_], rfl, by simp⟩
    · exact .inl ((AList.find_erase_of_ne _ ho).trans hl)
  | cleared hcall hb => exact absurd hcall hflush

/-- A flow's packets are decided together, so a flow that is not resolved
has no new decisions. -/
theorem resolve_decided {key : UInt32} {hostname : Option Bytes} {c : Conn}
    (hl : s.conns.find key = some c) (hc : c.state = .Wait) :
    (s.resolve w key hostname).decided =
      s.decided ++ c.held.map (fun p => ⟨p, (w.decide s.policy hostname).1⟩) := by
  cases hv : (w.decide s.policy hostname).1 with
  | ALLOW => rw [resolve_allow hl hc hv, release_eq]; rfl
  | BLOCK =>
    rw [resolve_blocked hl hc hv, release_eq]
    have hkeep : (((s.ask w key hostname).put key (blockConn c)).remember_blocked key).decided =
        s.decided := by
      rcases remember_blocked_cases ((s.ask w key hostname).put key (blockConn c)) key with
        ⟨hr, -⟩ | ⟨hr, -⟩
      · rw [hr]; rfl
      · rw [hr]; rfl
    simp only [close_decided, hkeep]

/-- What is decided stays decided. -/
theorem step_decided {now : Time} {call : Call} (hs : Step w now call s s') :
    s.decided <+: s'.decided := by
  cases hs with
  | resolved key c hostname hl hc hcall hreason =>
    rw [resolve_decided hl hc]
    exact List.prefix_append _ _
  | _ => exact List.prefix_refl _

theorem path_decided {now : Time} {call : Call} (hp : Path w now call s s') :
    s.decided <+: s'.decided :=
  path_keeps (I := fun x => s.decided <+: x.decided) (fun _ _ hs hx => hx.trans (step_decided hs))
    hp (List.prefix_refl _)

/-- A step of a call on other flows decides no packet that the flow `k` may
hold, nor any other that `p` picks out. -/
theorem step_picked {now : Time} {call : Call} {fed : List Packet} {p : Packet → Bool}
    (hp : ∀ q key, carries q.tag = some key → key ≠ k → p q = false) (hs : Step w now call s s')
    (hk : call.key ≠ some k) (hflush : call ≠ .flush) (ha : Accounted fed s)
    (hcalm : Calm k now s) :
    s'.decided.filter (fun d => p d.pkt) = s.decided.filter (fun d => p d.pkt) := by
  cases hs with
  | resolved key c hostname hl hc hcall hreason =>
    have hne : key ≠ k := by
      rintro rfl
      rcases hcall with h | h | h
      · exact hk h
      · exact hflush h
      · rw [hcalm c hl hc] at h
        cases h
    rw [resolve_decided hl hc, List.filter_append]
    have hnone : (c.held.map (fun p => (⟨p, (w.decide s.policy hostname).1⟩ : Decided))).filter
        (fun d => p d.pkt) = [] := by
      rw [List.filter_eq_nil_iff]
      intro d hd
      obtain ⟨q, hq, rfl⟩ := List.mem_map.mp hd
      simp [hp q key (ha.home hl hq).2 hne]
    rw [hnone, List.append_nil]
  | _ => rfl

theorem step_decidedOf {now : Time} {call : Call} {fed : List Packet} (hs : Step w now call s s')
    (hk : call.key ≠ some k) (hflush : call ≠ .flush) (ha : Accounted fed s)
    (hcalm : Calm k now s) : s'.decidedOf k = s.decidedOf k := by
  refine step_picked (p := fun q => carries q.tag = some k) ?_ hs hk hflush ha hcalm
  intro q key hq hne
  simp [hq, hne]

theorem step_beside {now : Time} {call : Call} {fed : List Packet} (hs : Step w now call s s')
    (hk : call.key ≠ some k) (hflush : call ≠ .flush) (ha : Accounted fed s)
    (hcalm : Calm k now s) : Beside k s s' := by
  refine ⟨?_, step_decidedOf hs hk hflush ha hcalm⟩
  cases hl : s.conns.find k with
  | none => exact .inl (step_find_none hk hs hl)
  | some c =>
    rcases step_find_other hs hk hflush hcalm hl with h | ⟨hb, hn, hlost⟩
    · exact .inl h
    · exact .inr ⟨blockedConn_iff.mpr ⟨c, hl, hb⟩, hn, hlost⟩

theorem Beside.calm {now : Time} (h : Beside k s s') (hcalm : Calm k now s) : Calm k now s' := by
  intro c hf
  rcases h.entry with he | ⟨-, hn, -⟩
  · rw [he] at hf
    exact hcalm c hf
  · rw [hn] at hf
    cases hf

theorem Beside.refl (k : UInt32) (s : TcpTlsHostnameExtractor R P) : Beside k s s :=
  ⟨.inl rfl, rfl⟩

theorem Beside.trans {s2 : TcpTlsHostnameExtractor R P} (h1 : Beside k s s') (h2 : Beside k s' s2)
    (g1 : ∃ es, s'.trace = s.trace ++ es) (g2 : ∃ es, s2.trace = s'.trace ++ es) :
    Beside k s s2 := by
  refine ⟨?_, h2.decisions.trans h1.decisions⟩
  rcases h1.entry with he1 | ⟨hb1, hn1, hl1⟩
  · rcases h2.entry with he2 | ⟨hb2, hn2, hl2⟩
    · exact .inl (he2.trans he1)
    · refine .inr ⟨?_, hn2, hl2.before g1⟩
      obtain ⟨c, hf, hc⟩ := blockedConn_iff.mp hb2
      exact blockedConn_iff.mpr ⟨c, he1 ▸ hf, hc⟩
  · rcases h2.entry with he2 | ⟨hb2, -, -⟩
    · exact .inr ⟨hb1, he2.trans hn1, hl1.after g2⟩
    · obtain ⟨c, hf, -⟩ := blockedConn_iff.mp hb2
      rw [hn1] at hf
      cases hf

theorem path_beside {now : Time} {call : Call} {fed : List Packet} (hp : Path w now call s s')
    (hk : call.key ≠ some k) (hflush : call ≠ .flush) (ha : Accounted fed s)
    (hcalm : Calm k now s) : Beside k s s' := by
  induction hp with
  | refl => exact Beside.refl k s
  | @tail s1 s2 hp hs ih =>
    have ha1 : Accounted fed s1 := path_accounted hp ha
    exact ih.trans (step_beside hs hk hflush ha1 (ih.calm hcalm)) (path_grows hp) (step_grows hs)

theorem take_beside {p : Packet} (ht : Take w p s s') (hk : keyOf p ≠ some k) : Beside k s s' := by
  have hcarry : carries p.tag ≠ some k := by
    intro hc
    obtain ⟨f, hf, -, hkey⟩ := carries_eq_some_iff.mp hc
    exact hk (by simp [keyOf, hf, hkey])
  cases ht with
  | decided v => exact ⟨.inl rfl, by simp [decidedOf, hcarry]⟩
  | refused f => exact ⟨.inl rfl, by simp [decidedOf, hcarry]⟩
  | held f c hf hpay hl hc hroom =>
    have hne : k ≠ f.key := fun he => hk (by simp [keyOf, hf, he])
    exact ⟨.inl (AList.find_insert_of_ne _ _ hne), rfl⟩

theorem tick_beside (w : World R P) {now : Time} {fed : List Packet} (hfeed : s.feeding = false)
    (ha : Accounted fed s) (hcalm : Calm k now s) :
    Beside k s (s.tick w now) ∧
    delivered (keyed k) (s.tick w now).trace = delivered (keyed k) s.trace := by
  have hpath := (tick_path w now .tick hfeed).1
  have hk : Call.tick.key ≠ some k := by simp [Call.key]
  exact ⟨path_beside hpath hk (by simp) ha hcalm, path_delivered hpath hk⟩

/-- A call on another flow, or a tick, leaves the flow `k` as it was. -/
theorem apply_beside {op : Op} {fed : List Packet} (hop : ∀ p, op.fed = some p → keyOf p ≠ some k)
    (hflush : ∀ now, op ≠ .flush now) (hfeed : s.feeding = false) (ha : Accounted fed s)
    (hcalm : Calm k op.now s) :
    Beside k s (op.apply w s) ∧
    delivered (keyed k) (op.apply w s).trace = delivered (keyed k) s.trace := by
  cases op with
  | feed now p =>
    have hk : keyOf p.val ≠ some k := hop p.val rfl
    have hcall : (Call.feed p.val.bytes).key ≠ some k := hk
    obtain ⟨⟨s1, s2, h1, h2, h3⟩, -⟩ := feed_feeds w now p hfeed
    have ha1 : Accounted fed s1 := path_accounted h1 ha
    have hb1 := path_beside h1 hcall (by simp) ha hcalm
    have hb2 := take_beside h2 hk
    have hg2 : ∃ es, s2.trace = s1.trace ++ es := ⟨[], by rw [take_trace h2, List.append_nil]⟩
    have hb12 := hb1.trans hb2 (path_grows h1) hg2
    have hb3 := path_beside h3 hcall (by simp) (accounted_take h2 ha1) (hb12.calm hcalm)
    obtain ⟨es1, he1⟩ := path_grows h1
    refine ⟨hb12.trans hb3 ⟨es1, by rw [take_trace h2, he1]⟩ (path_grows h3), ?_⟩
    change delivered (keyed k) (s.feed w now p.val).trace = _
    rw [path_delivered h3 hcall, take_trace h2, path_delivered h1 hcall]
  | tick now => exact tick_beside w hfeed ha hcalm
  | flush now => exact absurd rfl (hflush now)

/-! ## What comes later -/

theorem apply_decided (op : Op) (hfeed : s.feeding = false) :
    s.decided <+: (op.apply w s).decided := by
  cases op with
  | feed now p =>
    obtain ⟨⟨s1, s2, h1, h2, h3⟩, -⟩ := feed_feeds w now p hfeed
    have h12 : s1.decided <+: s2.decided := by
      cases h2 with
      | decided v => exact List.prefix_append _ _
      | refused f => exact List.prefix_append _ _
      | held f c => exact List.prefix_refl _
    exact (path_decided h1).trans (h12.trans (path_decided h3))
  | tick now => exact path_decided (tick_path w now .tick hfeed).1
  | flush now => exact path_decided (flush_path w now hfeed).1

theorem run_decided (later : List Op) (hfeed : s.feeding = false) :
    s.decided <+: (later.foldl (Op.apply w) s).decided ∧
    (later.foldl (Op.apply w) s).feeding = false := by
  refine run_keeps (I := fun _ (x : TcpTlsHostnameExtractor R P) =>
    s.decided <+: x.decided ∧ x.feeding = false) ⟨List.prefix_refl _, hfeed⟩ ?_ later
  rintro done x op ⟨hx, hxf⟩
  exact ⟨hx.trans (apply_decided op hxf), apply_feeding op hxf⟩

theorem accounted_later {fed : List Packet} (ha : Accounted fed s) (hfeed : s.feeding = false)
    (later : List Op) : Accounted (fed ++ fedBy later) (later.foldl (Op.apply w) s) :=
  (run_law (I := fun more x => Accounted (fed ++ more) x)
    (fun _ _ _ _ _ hs h => accounted_step hs h)
    (fun _ _ _ _ ht h => by rw [← List.append_assoc]; exact accounted_take ht h)
    hfeed (by rw [List.append_nil]; exact ha) later).1

/-- What is decided of the payload of `k` in a later run, and what is held
then, is what was held before and what was fed since. -/
theorem decided_later {fed : List Packet} (ha : Accounted fed s) (hfeed : s.feeding = false)
    (later : List Op) :
    ∃ ds, (later.foldl (Op.apply w) s).decided = s.decided ++ ds ∧
      ∀ k, (ds.map (·.pkt.tag)).filter (fun t => carries t = some k) ++
          (later.foldl (Op.apply w) s).heldTags k =
        s.heldTags k ++ carried k later := by
  obtain ⟨ds, hds⟩ := (run_decided (w := w) later hfeed).1
  have hthen := (accounted_later (w := w) ha hfeed later).2
  rw [List.map_append] at hthen
  have hgone : (later.foldl (Op.apply w) s).ledgerOf.gone =
      s.ledgerOf.gone ++ ds.map (·.pkt.tag) := by
    simp [ledgerOf, ← hds]
  exact ⟨ds, hds.symm, ha.2.since hthen hgone⟩

/-- Once the flow `k` is blocked, what is decided of its payload was fed later:
a decision that was made is never made again. -/
theorem blocked_decides_once {fed : List Packet} (ha : Accounted fed s)
    (hfeed : s.feeding = false) (hb : s.blockedConn k = true) (later : List Op) :
    ∃ ds, (later.foldl (Op.apply w) s).decided = s.decided ++ ds ∧
      (ds.map (·.pkt.tag)).filter (fun t => carries t = some k) <+: carried k later := by
  obtain ⟨ds, hds, hkept⟩ := decided_later (w := w) ha hfeed later
  refine ⟨ds, hds, ?_⟩
  have hk := hkept k
  rw [Quiet.heldTags ha.1 hb, List.nil_append] at hk
  exact ⟨_, hk⟩

/-! ## Callbacks of a flow's own packet -/

/-- A blocked flow stays blocked, and nothing is decided. -/
theorem deliver_blocked (packet : Bytes) {c : Conn} (hin : s.inside = (true, k))
    (hl : s.conns.find k = some c) (hc : c.state = .Block) (cb : Callback) :
    (s.deliver w packet cb).blockedConn k = true ∧ (s.deliver w packet cb).decided = s.decided := by
  cases cb with
  | start tok =>
    rw [deliver_start tok hin hl]
    exact ⟨blockedConn_iff.mpr ⟨_, AList.find_insert_self _ _ _, hc⟩, rfl⟩
  | finish tok =>
    rw [deliver_finish tok hin hl]
    have hput : ((s.log (.callback packet (.finish tok))).put k
        { c with pcpp_closed := true }).conns.find k = some { c with pcpp_closed := true } := by
      simp
    rw [resolve_of_block none hput hc]
    exact ⟨blockedConn_iff.mpr ⟨_, hput, hc⟩, rfl⟩
  | message side tok data =>
    rw [deliver_message_block side tok data hin hl hc]
    exact ⟨blockedConn_iff.mpr ⟨c, hl, hc⟩, rfl⟩

/-- A packet of a blocked flow is decided against, and nothing else is done. -/
theorem feed_of_blocked {now : Time} {p : Arrival} {f : FlowView} {c : Conn}
    (hf : flowOf p.val.bytes = some f) (hl : (s.tick w now).conns.find f.key = some c)
    (hc : c.state = .Block) :
    s.feed w now p.val =
      (((s.tick w now).put f.key { c with last := now }).decide p.val .BLOCK).publish := by
  rw [feed_of_flow hf]
  unfold feedFlow
  simp only [hl]
  rw [if_pos hc]

/-- Resolving a flow to BLOCK keeps its entry, as a blocked one. -/
theorem resolve_blockedConn {key : UInt32} {hostname : Option Bytes} {c : Conn}
    (hl : s.conns.find key = some c) (hc : c.state = .Wait)
    (hv : (w.decide s.policy hostname).1 = .BLOCK) :
    (s.resolve w key hostname).blockedConn key = true := by
  have hput : ((s.ask w key hostname).put key (blockConn c)).conns.find key =
      some (blockConn c) := by
    simp
  refine blockedConn_iff.mpr ⟨blockConn c, ?_, rfl⟩
  rw [resolve_blocked hl hc hv, release_conns, close_conns]
  rcases remember_blocked_cases ((s.ask w key hostname).put key (blockConn c)) key with
    ⟨hr, -⟩ | ⟨hr, -, hne, -⟩
  · rw [hr]
    exact hput
  · rw [hr]
    exact (AList.find_erase_of_ne _ (Ne.symm hne)).trans hput

/-- Client bytes that complete a blocked hostname block the flow, with
everything that it holds. -/
theorem deliver_found {b : BlockList} (packet : Bytes) (tok : UInt32) {data h : Bytes} {c : Conn}
    (hpolicy : w.decide = workerPolicy b) (hin : s.inside = (true, k))
    (hl : s.conns.find k = some c) (hc : c.state = .Wait)
    (hfound : extractHostname (c.stream ++ data) = .Found h)
    (hblock : b.isHostnameBlocked h = true) :
    (s.deliver w packet (.message kClientSide tok data)).blockedConn k = true ∧
    (s.deliver w packet (.message kClientSide tok data)).decided =
      s.decided ++ c.held.map (fun p => ⟨p, .BLOCK⟩) := by
  have hv : ∀ p : P, (w.decide p (some h)).1 = .BLOCK := by
    intro p
    rw [hpolicy]
    exact workerDecide_eq_block_iff.mpr ⟨h, rfl, hblock⟩
  rw [deliver_message_wait tok data hin hl hc]
  unfold checkStream
  simp only [hfound]
  generalize hc' : ({ c with pcpp_key := tok, stream := c.stream ++ data } : Conn) = c'
  have hwait : c'.state = .Wait := by
    rw [← hc']
    exact hc
  have hput : ((s.log (.callback packet (.message kClientSide tok data))).put k c').conns.find k =
      some c' := AList.find_insert_self _ _ _
  refine ⟨resolve_blockedConn hput hwait (hv _), ?_⟩
  rw [resolve_decided hput hwait, hv, ← hc']
  rfl

/-- Client bytes that leave the hostname open are buffered. -/
theorem deliver_needMore (packet : Bytes) (tok : UInt32) {data : Bytes} {c : Conn}
    (hin : s.inside = (true, k)) (hl : s.conns.find k = some c) (hc : c.state = .Wait)
    (hmore : extractHostname (c.stream ++ data) = .NeedMore)
    (hlen : (c.stream ++ data).length ≤ kMaxStreamBytes) :
    s.deliver w packet (.message kClientSide tok data) =
      (s.log (.callback packet (.message kClientSide tok data))).put k
        { c with pcpp_key := tok, stream := c.stream ++ data } := by
  rw [deliver_message_wait tok data hin hl hc]
  unfold checkStream
  simp only [hmore]
  rw [if_neg (by omega)]

/-! ## The packet held last -/

theorem releaseLast_blockedConn {key : UInt32} (h : s.blockedConn key = true) :
    (s.releaseLast key).blockedConn key = true := by
  obtain ⟨c, hl, hc⟩ := blockedConn_iff.mp h
  unfold releaseLast
  simp only [hl]
  split
  · exact h
  · exact blockedConn_iff.mpr ⟨_, AList.find_insert_self _ _ _, hc⟩

theorem releaseLast_decided (s : TcpTlsHostnameExtractor R P) (key : UInt32) :
    (s.releaseLast key).decided = s.decided := by
  unfold releaseLast
  split
  · rfl
  · split
    · rfl
    · rfl

theorem releaseLast_of_held {c : Conn} {ps : List Packet} {p : Packet}
    (hl : s.conns.find k = some c) (hheld : c.held = ps ++ [p]) :
    s.releaseLast k = s.put k { c with held := ps ++ [p.release_bytes] } := by
  unfold releaseLast
  simp [hl, hheld]

end packet_inspector.TcpTlsHostnameExtractor
