-- No connection of the reassembler is leaked: one that is open waits in the
-- table with its token or is queued to be closed, on every path out of the
-- table, and each sweep and each flush drains the queue.
import PacketInspector.Watching
import PacketInspector.Traffic

open wire packet_inspector.tls runs

namespace packet_inspector

variable {R P : Type}

/-- The start of a connection is the first callback for its packet, its
token is not zero, and no two open connections share a flow key. -/
structure Single (acts : List Act) : Prop where
  started : Started acts
  first : ∀ pre packet tok post, acts = pre ++ .told packet (.start tok) :: post →
    pre.getLast? = some (.fed packet)
  nonzero : ∀ packet tok, .told packet (.start tok) ∈ acts → tok ≠ 0
  alone : ∀ pre post, acts = pre ++ post →
    ∀ k tok tok', (k, tok) ∈ opened pre → (k, tok') ∈ opened pre → tok = tok'

theorem Single.init {acts more : List Act} (h : Single (acts ++ more)) : Single acts := by
  refine ⟨h.started.init, ?_, ?_, ?_⟩
  · intro pre packet tok post hacts
    refine h.first pre packet tok (post ++ more) ?_
    rw [hacts, List.append_assoc]
    rfl
  · intro packet tok hm
    exact h.nonzero packet tok (List.mem_append_left _ hm)
  · intro pre post hacts
    refine h.alone pre (post ++ more) ?_
    rw [hacts, List.append_assoc]

/-- A start comes directly after its packet and has a token. -/
def Act.starts (pre : List Act) : Act → Bool
  | .told packet (.start tok) => pre.getLast? = some (.fed packet) && tok ≠ 0
  | _ => true

theorem single_of_each {acts : List Act} (hstarted : Started acts)
    (hstarts : ∀ n ∈ List.range acts.length, ∀ a ∈ acts[n]?, a.starts (acts.take n) = true)
    (halone : ∀ n ∈ List.range (acts.length + 1), (opened (acts.take n)).length ≤ 1) :
    Single acts := by
  have heach : ∀ pre packet tok post, acts = pre ++ .told packet (.start tok) :: post →
      pre.getLast? = some (.fed packet) ∧ tok ≠ 0 := by
    intro pre packet tok post hacts
    have h := of_each_split (C := fun pre a => a.starts pre = true) hstarts hacts
    simpa [Act.starts] using h
  refine ⟨hstarted, fun pre packet tok post hacts => (heach pre packet tok post hacts).1, ?_, ?_⟩
  · intro packet tok hm
    obtain ⟨pre, post, hacts⟩ := List.append_of_mem hm
    exact (heach pre packet tok post hacts).2
  · intro pre post hacts k tok tok' h1 h2
    have hone := halone pre.length (by simp [hacts])
    rw [hacts, List.take_left] at hone
    have hall : ∀ m ∈ opened pre, ∀ m' ∈ opened pre, m = m' := by
      intro m hm m' hm'
      match hlinks : opened pre, hone, hm, hm' with
      | [a], _, hm, hm' => rw [List.mem_singleton.mp hm, List.mem_singleton.mp hm']
    exact congrArg Prod.snd (hall _ h1 _ h2)

theorem Single.same {acts : List Act} {k tok tok' : UInt32} (h : Single acts)
    (h1 : (k, tok) ∈ opened acts) (h2 : (k, tok') ∈ opened acts) : tok = tok' :=
  h.alone acts [] (List.append_nil _).symm k tok tok' h1 h2

/-- Only a start opens a connection. -/
theorem opening_subset {links : List (UInt32 × UInt32)} {a : Act}
    (ha : ∀ packet tok, a ≠ .told packet (.start tok)) : opening links a ⊆ links := by
  cases a with
  | fed packet => exact fun _ hl => hl
  | closed tok => exact fun _ hl => (List.mem_filter.mp hl).1
  | told packet cb =>
    cases cb with
    | start tok => exact absurd rfl (ha packet tok)
    | message side tok data => exact fun _ hl => hl
    | finish tok => exact fun _ hl => (List.mem_filter.mp hl).1

theorem nonzero_of_opened {acts : List Act} {k tok : UInt32} (h : Single acts)
    (hm : (k, tok) ∈ opened acts) : tok ≠ 0 := by
  induction acts using List.reverseRecOn with
  | nil => cases hm
  | append_singleton acts a ih =>
    rw [opened_append] at hm
    by_cases ha : ∃ packet t, a = .told packet (.start t)
    · obtain ⟨packet, t, rfl⟩ := ha
      rcases List.mem_cons.mp hm with he | hm
      · cases he
        exact h.nonzero packet tok (by simp)
      · exact ih h.init (List.mem_filter.mp hm).1
    · exact ih h.init (opening_subset (fun packet t he => ha ⟨packet, t, he⟩) hm)

theorem mem_opened_closed {acts : List Act} {l : UInt32 × UInt32} (toks : List UInt32) :
    l ∈ opened (acts ++ toks.map .closed) ↔ l ∈ opened acts ∧ l.2 ∉ toks := by
  induction toks using List.reverseRecOn with
  | nil => simp
  | append_singleton toks t ih =>
    rw [List.map_append, ← List.append_assoc]
    show l ∈ opened ((acts ++ toks.map .closed) ++ [.closed t]) ↔ _
    rw [opened_append]
    show l ∈ (opened (acts ++ toks.map .closed)).filter (fun l => l.2 ≠ t) ↔ _
    rw [List.mem_filter, ih]
    simp [and_assoc]

namespace TcpTlsHostnameExtractor

variable {w : World R P} {s x y : TcpTlsHostnameExtractor (R × List Act) P} {now : Time}
  {acts acts' : List Act} {key : UInt32}

/-! ## The invariant -/

/-- No flow waits with an ended connection, and an open connection is queued
or waited with. -/
structure Owned (acts : List Act) (s : TcpTlsHostnameExtractor (R × List Act) P) : Prop where
  unclosed : ∀ k tok b, s.waits k = some (tok, b) → b = false
  kept : ∀ k tok, (k, tok) ∈ opened acts → tok ∈ s.to_close ∨ s.waits k = some (tok, false)

/-- What is written for one flow owns what is open under its key, and the
record opens nothing under the others. -/
theorem Owned.write {v : Option (UInt32 × Bool)} {q : List UInt32} (h : Owned acts x)
    (hw : Write key v q x y) (hv : ∀ tok b, v = some (tok, b) → b = false)
    (hothers : ∀ k tok, k ≠ key → (k, tok) ∈ opened acts' → (k, tok) ∈ opened acts)
    (hkey : ∀ tok, (key, tok) ∈ opened acts' → tok ∈ y.to_close ∨ v = some (tok, false)) :
    Owned acts' y := by
  refine ⟨?_, ?_⟩
  · intro k tok b hk
    rw [hw.waits] at hk
    split at hk
    · exact hv tok b hk
    · exact h.unclosed k tok b hk
  · intro k tok hm
    rw [hw.waits]
    split
    · rename_i he
      exact hkey tok (he ▸ hm)
    · rename_i he
      rw [hw.to_close]
      exact (h.kept k tok (hothers k tok he hm)).imp_left (List.mem_append_left q)

theorem Owned.alike (h : Owned acts x) (ha : Alike x y) : Owned acts y := by
  refine ⟨?_, ?_⟩
  · intro k tok b hk
    rw [ha.waits] at hk
    exact h.unclosed k tok b hk
  · intro k tok hm
    rw [ha.waits, ha.to_close]
    exact h.kept k tok hm

theorem mem_queued {tok : UInt32} (h : tok ≠ 0) : tok ∈ queued (tok, false) := by
  simp [queued, h]

/-- A flow that stops to wait queues the token of what is open under its key. -/
theorem Owned.resolve (h : Owned acts x) (hsingle : Single acts) (key : UInt32)
    (hostname : Option Bytes) : Owned acts (x.resolve (watched w) key hostname) := by
  refine resolve_keeps (I := Owned acts) ?_ h
  rintro ⟨tok, b⟩ y hk hw
  refine h.write hw (fun _ _ hv => by cases hv) (fun _ _ _ hm => hm) ?_
  intro tok' hm
  rw [hw.to_close]
  refine .inl ?_
  rcases h.kept key tok' hm with hq | hwaits
  · exact List.mem_append_left _ hq
  · rw [hk] at hwaits
    cases hwaits
    exact List.mem_append_right _ (mem_queued (nonzero_of_opened hsingle hm))

theorem Owned.enter (h : Owned acts x) (hn : x.waits key = none)
    (hw : Write key (some (0, false)) [] x y) : Owned acts y := by
  refine h.write hw ?_ (fun _ _ _ hm => hm) ?_
  · intro tok b hv
    cases hv
    rfl
  · intro tok hm
    rw [hw.to_close, List.append_nil]
    rcases h.kept key tok hm with hq | hwaits
    · exact .inl hq
    · rw [hn] at hwaits
      cases hwaits

/-- What is queued is closed, so that all that is open is waited with. -/
theorem Owned.drain (now : Time) (hfeed : x.feeding = false) (h : Owned acts x) :
    Owned (acts ++ x.to_close.map .closed) (x.drain_closes (watched w) now) := by
  obtain ⟨hwaits, hempty⟩ := drain_closes_view (watched w) now hfeed
  refine ⟨?_, ?_⟩
  · intro k tok b hk
    rw [hwaits] at hk
    exact h.unclosed k tok b hk
  · intro k tok hm
    obtain ⟨hopen, hout⟩ := (mem_opened_closed _).mp hm
    rw [hwaits]
    exact .inr ((h.kept k tok hopen).resolve_left hout)

theorem owned_bookkeeping (w : World R P) : Bookkeeping w Single (Owned (R := R) (P := P)) where
  init _ _ h := h.init
  alike _ _ _ ha h := h.alike ha
  answered _ _ _ h := ⟨h.unclosed, h.kept⟩
  resolve _ _ key hostname hsingle h := h.resolve hsingle key hostname
  enter _ _ _ _ _ hn hw h := h.enter hn hw
  drain _ _ now hfeed h := h.drain now hfeed

/-! ## The callbacks for a packet -/

section Packet

variable {packet : Bytes} {f : FlowView} {cb : Callback} {cbs : List Callback}

theorem keyIn_eq (hf : flowOf packet = some f) : keyIn packet = f.key := by
  unfold keyIn
  rw [hf]
  rfl

/-- A callback opens no connection of another flow. -/
theorem opened_others {k tok : UInt32} (hf : flowOf packet = some f) (hk : k ≠ f.key)
    (hm : (k, tok) ∈ opened (acts ++ [.told packet cb])) : (k, tok) ∈ opened acts := by
  rw [opened_append] at hm
  cases cb with
  | start t =>
    rcases List.mem_cons.mp hm with he | hm
    · obtain ⟨rfl, -⟩ := Prod.mk.injEq .. ▸ he
      exact absurd (keyIn_eq hf) hk
    · exact (List.mem_filter.mp hm).1
  | message side t data => exact hm
  | finish t => exact (List.mem_filter.mp hm).1

/-- The connection that a callback names is open after it. -/
theorem opened_of_names (hsingle : Single (acts ++ [.told packet cb])) (hf : flowOf packet = some f)
    (hn : cb.names = true) : (f.key, cb.token) ∈ opened (acts ++ [.told packet cb]) := by
  rw [opened_append, ← keyIn_eq hf]
  cases cb with
  | finish t => cases hn
  | start t => exact List.mem_cons_self
  | message side t data => exact hsingle.started acts packet _ [] rfl (by simp)

/-- After the end of a connection nothing is open under its flow key. -/
theorem opened_of_finish {tok tok' : UInt32}
    (hsingle : Single (acts ++ [.told packet (.finish tok)])) (hf : flowOf packet = some f) :
    (f.key, tok') ∉ opened (acts ++ [.told packet (.finish tok)]) := by
  intro hm
  rw [opened_append] at hm
  obtain ⟨hopen, hne⟩ := List.mem_filter.mp hm
  have hself := hsingle.started acts packet _ [] rfl (by simp)
  rw [keyIn_eq hf] at hself
  have he := hsingle.init.same hopen hself
  simp [he, Callback.token] at hne

theorem Owned.deliver (h : Owned acts x) (hsingle : Single (acts ++ [.told packet cb]))
    (hf : flowOf packet = some f) (hin : x.inside = (true, f.key))
    (hstart : ∀ tok, cb = .start tok → x.waits f.key ≠ none) :
    Owned (acts ++ [.told packet cb]) (x.deliver (watched w) packet cb) := by
  have hothers : ∀ k tok, k ≠ f.key → (k, tok) ∈ opened (acts ++ [.told packet cb]) →
      (k, tok) ∈ opened acts := fun k tok hk hm => opened_others hf hk hm
  cases hv : x.waits f.key with
  | none =>
    have ha := deliver_alike (w := watched w) packet cb hin hv
    have hw : Write f.key none [] x (x.deliver (watched w) packet cb) := by
      refine ⟨?_, ha.to_close.trans (List.append_nil _).symm, ha.reassembly⟩
      intro k
      rw [ha.waits]
      split
      · rename_i hk
        rw [hk, hv]
      · rfl
    refine h.write hw (fun _ _ he => by cases he) hothers ?_
    intro tok hm
    have hold : (f.key, tok) ∈ opened acts := by
      rw [opened_append] at hm
      refine opening_subset ?_ hm
      rintro packet' tok' he
      cases he
      exact hstart tok' rfl hv
    rw [ha.to_close]
    rcases h.kept f.key tok hold with hq | hwaits
    · exact .inl hq
    · rw [hv] at hwaits
      cases hwaits
  | some v =>
    obtain ⟨c, hl, hc, rfl⟩ := waits_eq_some.mp hv
    have hopen : c.pcpp_closed = false := h.unclosed f.key _ _ hv
    have hnamed : cb.names = true → ∀ tok,
        (f.key, tok) ∈ opened (acts ++ [.told packet cb]) → tok = cb.token :=
      fun hn tok hm => hsingle.same hm (opened_of_names hsingle hf hn)
    rcases deliver_outcome (w := watched w) packet cb hin hl hc with
      ⟨c', -, -, htok, hclosed, hres, hw⟩ | ⟨hres, hw⟩
    · refine h.write hw ?_ hothers ?_
      · intro tok b he
        cases he
        exact hclosed.trans hopen
      · intro tok hm
        rw [hclosed, hopen, hw.to_close, List.append_nil, htok]
        split
        · rename_i hn
          rw [hnamed hn tok hm]
          exact .inr rfl
        · rename_i hn
          -- neither the start nor the end of a connection
          have hsame : (f.key, tok) ∈ opened acts := by
            cases cb with
            | start t => exact absurd rfl hn
            | message side t data => rwa [opened_append] at hm
            | finish t =>
              have hno := hres []
              simp [resolvesOn] at hno
          have hkept := h.kept f.key tok hsame
          rw [hv, hopen] at hkept
          exact hkept
    · refine h.write hw (fun _ _ he => by cases he) hothers ?_
      intro tok hm
      rw [hw.to_close]
      by_cases hn : cb.names = true
      · have h0 := nonzero_of_opened hsingle (opened_of_names hsingle hf hn)
        rw [if_pos hn, hnamed hn tok hm, hopen]
        exact .inl (List.mem_append_right _ (mem_queued h0))
      · cases cb with
        | finish t => exact absurd hm (opened_of_finish hsingle hf)
        | start t => exact absurd rfl hn
        | message side t data =>
          have hside : side ≠ kClientSide := by simpa [Callback.names] using hn
          have hno := hres []
          simp [resolvesOn, hside] at hno

theorem owned_reassemblePoint (h : Holds Single Owned x) (hf : flowOf packet = some f)
    (hwaits : x.waits f.key ≠ none) :
    Holds Single Owned (x.reassemblePoint (watched w) now f.key packet) := by
  intro hsingle
  have hbefore : Single x.reassembly.2 := by
    rw [reassemblePoint_acts w now hf] at hsingle
    exact hsingle.init
  have hfed : Owned (recorded x.reassembly.2 packet []) x := by
    refine ⟨(h hbefore).unclosed, ?_⟩
    intro k tok hm
    refine (h hbefore).kept k tok ?_
    rw [recorded, List.map_nil, opened_append] at hm
    exact hm
  refine reassemblePoint_record (E := fun done _ y => done = [] → y.waits f.key ≠ none)
    (owned_bookkeeping w) hf ?_ ?_ hfed (fun _ => hwaits) hsingle
  · intro done _ y z hconns _ hy hdone
    unfold waits
    rw [hconns]
    exact hy hdone
  · intro done cb cbs y hin hsofar hy hstart
    refine ⟨hy.deliver hsofar hf hin ?_, fun hdone => by simp at hdone⟩
    rintro tok rfl
    -- the packet comes directly before the start of its connection
    have hlast := hsofar.first _ packet tok [] rfl
    refine hstart ?_
    rcases List.eq_nil_or_concat done with rfl | ⟨done, cb, rfl⟩
    · rfl
    · simp [recorded_append] at hlast

end Packet

/-! ## Runs -/

theorem holds_owned (w : World R P) (r : R) (p : P) (max_flows max_blocked : Nat) (ops : List Op) :
    Holds Single Owned (ops.foldl (Op.apply (watched w)) (init (r, []) p max_flows max_blocked)) ∧
    (ops.foldl (Op.apply (watched w)) (init (r, []) p max_flows max_blocked)).feeding = false := by
  refine foldl_keeps (I := fun s => Holds Single Owned s ∧ s.feeding = false) ?_ ops _ ⟨?_, rfl⟩
  · rintro s op ⟨hs, hfeed⟩
    refine ⟨hs.apply (owned_bookkeeping w) hfeed ?_, apply_feeding op hfeed⟩
    rintro now pkt f x - hf hx hwx
    obtain ⟨c, hl, hc⟩ := hands_entry hx
    refine owned_reassemblePoint hwx hf ?_
    rw [waits_eq_some.mpr ⟨c, hl, hc, rfl⟩]
    exact Option.some_ne_none _
  · intro _
    refine ⟨fun k tok b hk => ?_, fun k tok hm => ?_⟩
    · cases hk
    · cases hm

/-- A tick that is due leaves nothing queued. -/
theorem tick_to_close (hfeed : s.feeding = false) (hdue : ¬ now - s.lastSweep < kSweepInterval) :
    (s.tick (watched w) now).to_close = [] := by
  unfold tick
  rw [if_neg hdue, sweep_drains]
  have hfeed' : (sweepPoint { s with lastSweep := now } (watched w) now).feeding = false :=
    sweepPoint_feeding hfeed
  exact (drain_closes_view (watched w) now hfeed').2

theorem flush_view (w : World R P) (now : Time) (hfeed : s.feeding = false) :
    (s.flush (watched w) now).to_close = [] ∧ (s.flush (watched w) now).conns = ∅ := by
  obtain ⟨-, hfeed', -⟩ := resolveAll_path (watched w) now hfeed
  have hfeed'' : (s.flushPoint (watched w)).feeding = false := hfeed'
  rw [flush_drains]
  obtain ⟨r, hr⟩ := drain_closes_of_not_feeding (w := watched w) now hfeed''
  rw [hr]
  exact ⟨rfl, rfl⟩

/-- In every run, at the end of every sweep a connection that is open is the
token of a flow that waits, and at the end of every flush none is open. A
sweep is always that of a tick, which a packet is fed with first. -/
theorem no_connection_is_leaked (w : World R P) (r : R) (p : P) (max_flows max_blocked : Nat)
    (ops : List Op) (now : Time) :
    let s := ops.foldl (Op.apply (watched w)) (init (r, []) p max_flows max_blocked)
    let swept := s.tick (watched w) now
    let flushed := s.flush (watched w) now
    (¬ now - s.lastSweep < kSweepInterval → Single swept.reassembly.2 →
      ∀ k tok, (k, tok) ∈ opened swept.reassembly.2 →
        ∃ c, swept.conns.find k = some c ∧ c.state = .Wait ∧ c.pcpp_key = tok) ∧
    (Single flushed.reassembly.2 → opened flushed.reassembly.2 = []) := by
  intro s swept flushed
  obtain ⟨hs, hfeed⟩ := holds_owned w r p max_flows max_blocked ops
  refine ⟨?_, ?_⟩
  · intro hdue hsingle k tok hm
    have howned : Owned swept.reassembly.2 swept := hs.tick (owned_bookkeeping w) hfeed hsingle
    have hempty : swept.to_close = [] := tick_to_close hfeed hdue
    rcases howned.kept k tok hm with hq | hwaits
    · rw [hempty] at hq
      cases hq
    · obtain ⟨c, hl, hc, hv⟩ := waits_eq_some.mp hwaits
      obtain ⟨rfl, -⟩ := Prod.mk.injEq .. ▸ hv
      exact ⟨c, hl, hc, rfl⟩
  · intro hsingle
    have howned : Owned flushed.reassembly.2 flushed := hs.flush (owned_bookkeeping w) hfeed hsingle
    obtain ⟨hempty, hclear⟩ := flush_view w now hfeed
    refine List.eq_nil_iff_forall_not_mem.mpr ?_
    rintro ⟨k, tok⟩ hm
    rcases howned.kept k tok hm with hq | hwaits
    · rw [hempty] at hq
      cases hq
    · unfold waits at hwaits
      rw [hclear] at hwaits
      cases hwaits

open traffic in
/-- A flow that only opened is waited with after a sweep, and a flush closes
its connection. -/
theorem a_silent_flow_keeps_its_connection :
    let s := [Op.feed 0 (syn (client 2) 1)].foldl (Op.apply (watched (world {})))
      (init ([], []) () 2 1)
    let swept := s.tick (watched (world {})) (seconds 2)
    let flushed := s.flush (watched (world {})) (seconds 2)
    opened swept.reassembly.2 = [(3561989440, 3561989441)] ∧
    (∃ c, swept.conns.find 3561989440 = some c ∧ c.state = .Wait ∧ c.pcpp_key = 3561989441) ∧
    opened flushed.reassembly.2 = [] := by
  intro s swept flushed
  obtain ⟨hswept, hflushed⟩ := no_connection_is_leaked (world {}) [] () 2 1
    [.feed 0 (syn (client 2) 1)] (seconds 2)
  have hopen : opened swept.reassembly.2 = [(3561989440, 3561989441)] := by decide +kernel
  refine ⟨hopen, ?_, ?_⟩
  · refine hswept (by decide +kernel) (single_of_each (started_of_each ?_) ?_ ?_) _ _ ?_
    · decide +kernel
    · decide +kernel
    · decide +kernel
    · decide +kernel
  · refine hflushed (single_of_each (started_of_each ?_) ?_ ?_)
    · decide +kernel
    · decide +kernel
    · decide +kernel

end TcpTlsHostnameExtractor

end packet_inspector
