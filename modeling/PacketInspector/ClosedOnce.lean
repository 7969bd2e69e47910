-- A connection that ended is not closed again, as long as its end does not
-- come while its close is queued: neither from an earlier call nor from the
-- data of the same call.
import PacketInspector.Watching
import PacketInspector.Traffic

open wire packet_inspector.tls runs

namespace packet_inspector

variable {R P : Type}

/-! ## The connections that ended -/

/-- The callback is the end of a connection. -/
def Callback.ends : Callback → Bool
  | .finish _ => true
  | _ => false

/-- The ended connections after an exchange. A close ends its connection. -/
def ending (toks : List UInt32) : Act → List UInt32
  | .told _ (.start tok) => toks.filter (fun t => t ≠ tok)
  | .told _ (.finish tok) => tok :: toks
  | .closed tok => tok :: toks
  | _ => toks

/-- The connections that ended and did not start again. -/
def ended (acts : List Act) : List UInt32 := acts.foldl ending []

theorem ended_append (acts : List Act) (a : Act) : ended (acts ++ [a]) = ending (ended acts) a := by
  simp [ended]

theorem mem_ended_closed {acts : List Act} {tok : UInt32} (toks : List UInt32) :
    tok ∈ ended (acts ++ toks.map .closed) ↔ tok ∈ toks ∨ tok ∈ ended acts := by
  induction toks using List.reverseRecOn with
  | nil => simp
  | append_singleton toks t ih =>
    rw [List.map_append, ← List.append_assoc]
    show tok ∈ ended ((acts ++ toks.map .closed) ++ [.closed t]) ↔ _
    rw [ended_append]
    show tok ∈ t :: ended (acts ++ toks.map .closed) ↔ _
    rw [List.mem_cons, ih, List.mem_append, List.mem_singleton]
    tauto

theorem not_ended_of_opened {acts : List Act} {k tok : UInt32} (h : (k, tok) ∈ opened acts) :
    tok ∉ ended acts := by
  induction acts using List.reverseRecOn generalizing k tok with
  | nil => cases h
  | append_singleton acts a ih =>
    rw [opened_append] at h
    rw [ended_append]
    have hfilter : ∀ t, (k, tok) ∈ (opened acts).filter (fun l => l.2 ≠ t) →
        tok ≠ t ∧ tok ∉ ended acts := by
      intro t hm
      obtain ⟨hm, hne⟩ := List.mem_filter.mp hm
      exact ⟨by simpa using hne, ih hm⟩
    cases a with
    | fed packet => exact ih h
    | closed t =>
      obtain ⟨hne, hold⟩ := hfilter t h
      exact fun hm => (List.mem_cons.mp hm).elim hne hold
    | told packet cb =>
      cases cb with
      | message side t data => exact ih h
      | finish t =>
        obtain ⟨hne, hold⟩ := hfilter t h
        exact fun hm => (List.mem_cons.mp hm).elim hne hold
      | start t =>
        intro hm
        obtain ⟨hold, hne⟩ := List.mem_filter.mp hm
        rcases List.mem_cons.mp h with he | hm'
        · cases he
          simp at hne
        · exact (hfilter t hm').2 hold

/-- The tokens tell the connections apart, and a connection starts before
any other callback for it. -/
structure Orderly (acts : List Act) : Prop where
  identified : ∀ packet cb packet' cb' f g, .told packet cb ∈ acts → .told packet' cb' ∈ acts →
    cb.token = cb'.token → flowOf packet = some f → flowOf packet' = some g →
    connectionOf f = connectionOf g
  started : Started acts

/-- The packet that a callback is made for is of the connection `conn`. -/
def Act.isOf (conn : Connection) : Act → Bool
  | .told packet _ => (flowOf packet).all (fun f => connectionOf f = conn)
  | _ => true

/-- The record of one connection is orderly when the connection starts first. -/
theorem orderly_of_one {acts : List Act} (conn : Connection) (hone : ∀ a ∈ acts, a.isOf conn = true)
    (h : Started acts) : Orderly acts := by
  have hconn : ∀ packet cb f, .told packet cb ∈ acts → flowOf packet = some f →
      connectionOf f = conn := by
    intro packet cb f hm hf
    simpa [Act.isOf, hf] using hone _ hm
  refine ⟨?_, h⟩
  intro packet cb packet' cb' f g hm hm' _ hf hg
  rw [hconn packet cb f hm hf, hconn packet' cb' g hm' hg]

theorem Orderly.init {acts more : List Act} (h : Orderly (acts ++ more)) : Orderly acts := by
  refine ⟨?_, h.started.init⟩
  intro packet cb packet' cb' f g hm hm'
  exact h.identified packet cb packet' cb' f g (List.mem_append_left _ hm)
    (List.mem_append_left _ hm')

/-- The token is that of a connection with this flow key. -/
def Told (acts : List Act) (tok key : UInt32) : Prop :=
  ∃ packet cb f, .told packet cb ∈ acts ∧ cb.token = tok ∧ flowOf packet = some f ∧ f.key = key

theorem Orderly.key_eq {acts : List Act} {tok k k' : UInt32} (h : Orderly acts)
    (h1 : Told acts tok k) (h2 : Told acts tok k') : k = k' := by
  obtain ⟨packet, cb, f, hm, ht, hf, rfl⟩ := h1
  obtain ⟨packet', cb', g, hm', ht', hg, rfl⟩ := h2
  have hconn := h.identified packet cb packet' cb' f g hm hm' (ht.trans ht'.symm) hf hg
  rw [key_of_flowOf hf, key_of_flowOf hg]
  exact routeKey_of_connectionOf hconn

theorem Told.mono {acts more : List Act} {tok k : UInt32} (h : Told acts tok k) :
    Told (acts ++ more) tok k := by
  obtain ⟨packet, cb, f, hm, hrest⟩ := h
  exact ⟨packet, cb, f, List.mem_append_left _ hm, hrest⟩

/-- No close is for a connection that has already ended. -/
def ClosesOnce (acts : List Act) : Prop :=
  ∀ pre tok post, acts = pre ++ .closed tok :: post → tok ∉ ended pre

theorem ClosesOnce.append {acts : List Act} {a : Act} (h : ClosesOnce acts)
    (ha : ∀ tok, a = .closed tok → tok ∉ ended acts) : ClosesOnce (acts ++ [a]) := by
  intro pre tok post hacts
  rcases List.eq_nil_or_concat post with rfl | ⟨post, b, rfl⟩
  · obtain ⟨rfl, hb⟩ := List.append_inj' hacts rfl
    cases hb
    exact ha tok rfl
  · rw [List.concat_eq_append, ← List.cons_append, ← List.append_assoc] at hacts
    obtain ⟨hacts, -⟩ := List.append_inj' hacts rfl
    exact h pre tok post hacts

/-- Distinct connections that have not ended may be closed one by one. -/
theorem ClosesOnce.closes {acts : List Act} {toks : List UInt32} (h : ClosesOnce acts) (hnodup : toks.Nodup)
    (hend : ∀ tok ∈ toks, tok ∉ ended acts) : ClosesOnce (acts ++ toks.map .closed) := by
  induction toks using List.reverseRecOn with
  | nil => simpa using h
  | append_singleton toks t ih =>
    obtain ⟨hrest, -, hout⟩ := List.nodup_append.mp hnodup
    rw [List.map_append, ← List.append_assoc]
    refine ClosesOnce.append (ih hrest (fun tok hm => hend tok (by simp [hm]))) ?_
    intro tok he
    cases he
    rw [mem_ended_closed]
    rintro (hm | hm)
    · exact hout t hm t (by simp) rfl
    · exact hend t (by simp) hm

namespace TcpTlsHostnameExtractor

variable {w : World R P} {now : Time}

/-! ## A connection is closed once -/

/-- No flow waits with the token of a connection that ended or that is
queued, and no queued connection ended or is queued twice. -/
structure Sound (acts : List Act) (s : TcpTlsHostnameExtractor (R × List Act) P) : Prop where
  home : ∀ k tok b, s.waits k = some (tok, b) → tok = 0 ∨ Told acts tok k
  live : ∀ k tok b, s.waits k = some (tok, b) → tok = 0 ∨ tok ∉ ended acts ∧ tok ∉ s.to_close
  queue : ∀ tok ∈ s.to_close, tok ≠ 0 ∧ tok ∉ ended acts
  nodup : s.to_close.Nodup
  once : ClosesOnce acts

section Sound

variable {s x y : TcpTlsHostnameExtractor (R × List Act) P} {acts : List Act} {key : UInt32}

theorem Sound.alike (h : Sound acts x) (ha : Alike x y) : Sound acts y := by
  refine ⟨?_, ?_, ?_, ?_, h.once⟩
  · intro k tok b hk
    rw [ha.waits] at hk
    exact h.home k tok b hk
  · intro k tok b hk
    rw [ha.waits] at hk
    rw [ha.to_close]
    exact h.live k tok b hk
  · rw [ha.to_close]
    exact h.queue
  · rw [ha.to_close]
    exact h.nodup

theorem Sound.answered (h : Sound acts x) (r : R × List Act) :
    Sound acts { x with reassembly := r } :=
  ⟨h.home, h.live, h.queue, h.nodup, h.once⟩

/-- The token of a flow that waits may be written, or queued when the flow
no longer waits, as long as it is not queued and did not end. -/
theorem Sound.write {v : Option (UInt32 × Bool)} {q : List UInt32} (h : Sound acts x)
    (hord : Orderly acts) (hw : Write key v q x y)
    (hv : ∀ tok b, v = some (tok, b) →
      tok = 0 ∨ Told acts tok key ∧ tok ∉ ended acts ∧ tok ∉ y.to_close)
    (hq : q = [] ∨ ∃ tok, q = [tok] ∧ tok ≠ 0 ∧ Told acts tok key ∧ tok ∉ ended acts ∧
      tok ∉ x.to_close) :
    Sound acts y := by
  refine ⟨?_, ?_, ?_, ?_, h.once⟩
  · intro k tok b hk
    rw [hw.waits] at hk
    split at hk
    · rename_i he
      exact (hv tok b hk).imp_right (fun ht => he ▸ ht.1)
    · exact h.home k tok b hk
  · intro k tok b hk
    rw [hw.waits] at hk
    split at hk
    · exact (hv tok b hk).imp_right (fun ht => ht.2)
    · rename_i he
      rcases h.live k tok b hk with h0 | ⟨hend, hout⟩
      · exact .inl h0
      · rcases h.home k tok b hk with h0 | hhome
        · exact .inl h0
        · refine .inr ⟨hend, ?_⟩
          rw [hw.to_close]
          intro hm
          rcases List.mem_append.mp hm with hm | hm
          · exact hout hm
          · rcases hq with rfl | ⟨tok', rfl, -, htold, -, -⟩
            · cases hm
            · rw [List.mem_singleton.mp hm] at hhome
              exact he (hord.key_eq hhome htold)
  · intro tok hm
    rw [hw.to_close] at hm
    rcases List.mem_append.mp hm with hm | hm
    · exact h.queue tok hm
    · rcases hq with rfl | ⟨tok', rfl, h0, -, hend, -⟩
      · cases hm
      · rw [List.mem_singleton.mp hm]
        exact ⟨h0, hend⟩
  · rw [hw.to_close]
    rcases hq with rfl | ⟨tok', rfl, -, -, -, hout⟩
    · rw [List.append_nil]
      exact h.nodup
    · refine List.Nodup.append h.nodup (List.nodup_singleton _) ?_
      rw [List.disjoint_singleton]
      exact hout

/-- A flow that is resolved queues the token that it waited with. -/
theorem Sound.resolve (h : Sound acts x) (hord : Orderly acts) (key : UInt32)
    (hostname : Option Bytes) : Sound acts (x.resolve (watched w) key hostname) := by
  refine resolve_keeps (I := Sound acts) ?_ h
  rintro ⟨tok, b⟩ y hk hw
  refine h.write hord hw (fun _ _ hv => by cases hv) ?_
  unfold queued
  split
  · rename_i hc
    obtain ⟨hend, hout⟩ := (h.live key tok b hk).resolve_left hc.1
    exact .inr ⟨tok, rfl, hc.1, (h.home key tok b hk).resolve_left hc.1, hend, hout⟩
  · exact .inl rfl

theorem Sound.enter (h : Sound acts x) (hord : Orderly acts)
    (hw : Write key (some (0, false)) [] x y) : Sound acts y := by
  refine h.write hord hw ?_ (.inl rfl)
  intro tok b hv
  cases hv
  exact .inl rfl

theorem Sound.drain (now : Time) (hfeed : x.feeding = false) (h : Sound acts x) :
    Sound (acts ++ x.to_close.map .closed) (x.drain_closes (watched w) now) := by
  obtain ⟨hwaits, hempty⟩ := drain_closes_view (watched w) now hfeed
  refine ⟨?_, ?_, ?_, ?_, h.once.closes h.nodup (fun tok hm => (h.queue tok hm).2)⟩
  · intro k tok b hk
    rw [hwaits] at hk
    exact (h.home k tok b hk).imp_right Told.mono
  · intro k tok b hk
    rw [hwaits] at hk
    refine (h.live k tok b hk).imp_right ?_
    rintro ⟨hend, hout⟩
    rw [mem_ended_closed, hempty]
    exact ⟨fun hm => hm.elim hout hend, List.not_mem_nil⟩
  · rw [hempty]
    intro tok hm
    cases hm
  · rw [hempty]
    exact List.nodup_nil

theorem sound_bookkeeping (w : World R P) : Bookkeeping w Orderly (Sound (R := R) (P := P)) where
  init _ _ h := h.init
  alike _ _ _ ha h := h.alike ha
  answered _ _ r h := h.answered r
  resolve _ _ key hostname hord h := h.resolve hord key hostname
  enter _ _ _ _ hord _ hw h := h.enter hord hw
  drain _ _ now hfeed h := h.drain now hfeed

theorem Sound.fed (packet : Bytes) (h : Sound acts x) : Sound (acts ++ [.fed packet]) x := by
  have hended : ended (acts ++ [.fed packet]) = ended acts := ended_append _ _
  refine ⟨fun k tok b hk => (h.home k tok b hk).imp_right Told.mono, ?_, ?_, h.nodup,
    h.once.append (fun tok he => by cases he)⟩
  · rw [hended]
    exact h.live
  · rw [hended]
    exact h.queue

/-- The record goes on with a callback, unless it is the end of a connection
that a flow waits with or that is queued. -/
theorem Sound.hear {packet : Bytes} {f : FlowView} {cb : Callback} (h : Sound acts x)
    (hord : Orderly (acts ++ [.told packet cb])) (hf : flowOf packet = some f)
    (hfinish : ∀ tok, cb = .finish tok → tok ∉ x.to_close ∧ x.waits f.key = none) :
    Sound (acts ++ [.told packet cb]) x := by
  have hended : ∀ tok, tok ∉ ended acts → cb ≠ .finish tok →
      tok ∉ ended (acts ++ [.told packet cb]) := by
    intro tok hend hne
    rw [ended_append]
    cases cb with
    | start t => exact fun hm => hend (List.mem_filter.mp hm).1
    | message side t data => exact hend
    | finish t =>
      intro hm
      rcases List.mem_cons.mp hm with rfl | hm
      · exact hne rfl
      · exact hend hm
  refine ⟨?_, ?_, ?_, h.nodup, h.once.append (fun tok he => by cases he)⟩
  · intro k tok b hk
    exact (h.home k tok b hk).imp_right Told.mono
  · intro k tok b hk
    rcases h.home k tok b hk with h0 | hhome
    · exact .inl h0
    · refine (h.live k tok b hk).imp_right ?_
      rintro ⟨hend, hout⟩
      refine ⟨hended tok hend ?_, hout⟩
      rintro rfl
      -- the flow that waits with this token is the flow of the packet
      have htold : Told (acts ++ [.told packet (.finish tok)]) tok f.key :=
        ⟨packet, .finish tok, f, by simp, rfl, hf, rfl⟩
      have hkey : k = f.key := hord.key_eq hhome.mono htold
      rw [hkey, (hfinish tok rfl).2] at hk
      cases hk
  · intro tok hm
    obtain ⟨h0, hend⟩ := h.queue tok hm
    exact ⟨h0, hended tok hend (fun he => (hfinish tok he).1 hm)⟩

/-- What the callbacks that are left may not do: name or end a connection
that is queued, or end one after the flow was resolved. -/
structure Timely (key : UInt32) (cbs : List Callback) (x : TcpTlsHostnameExtractor R P) :
    Prop where
  names : x.waits key ≠ none → ∀ cb ∈ cbs, cb.names = true → cb.token ∉ x.to_close
  ends : ∀ cb ∈ cbs, cb.ends = true → cb.token ∉ x.to_close
  first : ∀ c, x.conns.find key = some c → c.state = .Wait → cbs.any Callback.ends = true →
    resolvesOn c.stream (cbs.takeWhile (fun cb => !cb.ends)) = false

end Sound

section Packet

variable {x : TcpTlsHostnameExtractor (R × List Act) P} {acts : List Act} {packet : Bytes}
  {f : FlowView} {cb : Callback} {cbs : List Callback}

theorem Sound.deliver (h : Sound acts x) (hord : Orderly (acts ++ [.told packet cb]))
    (hf : flowOf packet = some f) (hin : x.inside = (true, f.key))
    (ht : Timely f.key (cb :: cbs) x) :
    Sound (acts ++ [.told packet cb]) (x.deliver (watched w) packet cb) := by
  have htold : Told (acts ++ [.told packet cb]) cb.token f.key :=
    ⟨packet, cb, f, by simp, rfl, hf, rfl⟩
  cases hv : x.waits f.key with
  | none =>
    have ha := deliver_alike (w := watched w) packet cb hin hv
    refine (h.hear hord hf ?_).alike ha
    rintro tok rfl
    exact ⟨ht.ends (.finish tok) (by simp) rfl, hv⟩
  | some v =>
    obtain ⟨c, hl, hc, rfl⟩ := waits_eq_some.mp hv
    have hwaits : x.waits f.key ≠ none := by
      rw [hv]
      exact Option.some_ne_none _
    have hfree : cb.names = true → cb.token ∉ x.to_close := ht.names hwaits cb (by simp)
    -- a named connection is open when the callback has been heard
    have hopen : cb.names = true → cb.token ∉ ended (acts ++ [.told packet cb]) := by
      intro hn
      rw [ended_append]
      cases cb with
      | finish tok => cases hn
      | start tok => simp [ending, Callback.token]
      | message side tok data =>
        exact not_ended_of_opened (hord.started acts packet _ [] rfl (by simp))
    rcases deliver_outcome (w := watched w) packet cb hin hl hc with
      ⟨c', -, -, htok, -, hres, hwrite⟩ | ⟨-, hwrite⟩
    · have hheard : Sound (acts ++ [.told packet cb]) x := by
        refine h.hear hord hf ?_
        rintro tok rfl
        have hno := hres []
        simp [resolvesOn] at hno
      refine hheard.write hord hwrite ?_ (.inl rfl)
      intro tok b he
      cases he
      rw [htok, hwrite.to_close, List.append_nil]
      split
      · rename_i hn
        exact .inr ⟨htold, hopen hn, hfree hn⟩
      · rcases hheard.home f.key _ _ hv with h0 | hhome
        · exact .inl h0
        · exact (hheard.live f.key _ _ hv).imp_right (fun hlive => ⟨hhome, hlive⟩)
    · by_cases hn : cb.names = true
      · rw [if_pos hn] at hwrite
        have hheard : Sound (acts ++ [.told packet cb]) x := by
          refine h.hear hord hf ?_
          rintro tok rfl
          cases hn
        refine hheard.write hord hwrite (fun _ _ he => by cases he) ?_
        unfold queued
        split
        · rename_i hq
          exact .inr ⟨cb.token, rfl, hq.1, htold, hopen hn, hfree hn⟩
        · exact .inl rfl
      · rw [if_neg hn] at hwrite
        -- the flow stops to wait before the end of its connection is noted
        have hleft := h.write hord.init hwrite (fun _ _ he => by cases he) (.inl rfl)
        refine hleft.hear hord hf ?_
        rintro tok rfl
        rw [hwrite.to_close, List.append_nil, hwrite.waits, if_pos rfl]
        exact ⟨ht.ends (.finish tok) (by simp) rfl, rfl⟩

theorem Timely.deliver (hin : x.inside = (true, f.key)) (ht : Timely f.key (cb :: cbs) x) :
    Timely f.key cbs (x.deliver (watched w) packet cb) := by
  have hends : ∀ cb' ∈ cbs, cb'.ends = true → cb'.token ∉ x.to_close :=
    fun cb' hm => ht.ends cb' (by simp [hm])
  cases hv : x.waits f.key with
  | none =>
    have ha := deliver_alike (w := watched w) packet cb hin hv
    have hnone := (ha.waits f.key).trans hv
    refine ⟨fun hne => absurd hnone hne, ?_, ?_⟩
    · rw [ha.to_close]
      exact hends
    · intro c hl hc
      rw [waits_eq_none.mp hnone c hl] at hc
      cases hc
  | some v =>
    obtain ⟨c, hl, hc, rfl⟩ := waits_eq_some.mp hv
    have hwaits : x.waits f.key ≠ none := by
      rw [hv]
      exact Option.some_ne_none _
    rcases deliver_outcome (w := watched w) packet cb hin hl hc with
      ⟨c', hl', hc', -, -, hres, hwrite⟩ | ⟨hres, hwrite⟩
    · have hsame : (x.deliver (watched w) packet cb).to_close = x.to_close :=
        hwrite.to_close.trans (List.append_nil _)
      refine ⟨fun _ cb' hm => ?_, ?_, ?_⟩
      · rw [hsame]
        exact ht.names hwaits cb' (by simp [hm])
      · rw [hsame]
        exact hends
      · intro c'' hl'' _ hany
        rw [hl'] at hl''
        cases hl''
        have hcb : cb.ends = false := by
          cases cb with
          | finish tok =>
            have hno := hres []
            simp [resolvesOn] at hno
          | start tok => rfl
          | message side tok data => rfl
        have hfirst := ht.first c hl hc (by simp [hany])
        rw [List.takeWhile_cons_of_pos (by simp [hcb]), hres] at hfirst
        exact hfirst
    · have hnone : (x.deliver (watched w) packet cb).waits f.key = none := by
        rw [hwrite.waits, if_pos rfl]
      refine ⟨fun hne => absurd hnone hne, ?_, ?_⟩
      · intro cb' hm he
        by_cases hn : cb.names = true
        · -- the flow was resolved by data, so that no end of a connection is left
          have hcb : cb.ends = false := by
            cases cb with
            | finish tok => cases hn
            | start tok => rfl
            | message side tok data => rfl
          have hany : (cb :: cbs).any Callback.ends = true :=
            List.any_eq_true.mpr ⟨cb', by simp [hm], he⟩
          have hfirst := ht.first c hl hc hany
          rw [List.takeWhile_cons_of_pos (by simp [hcb]), hres] at hfirst
          cases hfirst
        · rw [if_neg hn] at hwrite
          rw [hwrite.to_close, List.append_nil]
          exact hends cb' hm he
      · intro c' hl' hc'
        rw [waits_eq_none.mp hnone c' hl'] at hc'
        cases hc'

theorem sound_reassemblePoint (h : Holds Orderly Sound x) (hf : flowOf packet = some f)
    (ht : Timely f.key (w.reassemblePacket x.reassembly.1 now packet).2 x) :
    Holds Orderly Sound (x.reassemblePoint (watched w) now f.key packet) := by
  intro hord
  have hbefore : Orderly x.reassembly.2 := by
    rw [reassemblePoint_acts w now hf] at hord
    exact hord.init
  refine reassemblePoint_record (E := fun _ => Timely f.key) (sound_bookkeeping w) hf ?_ ?_
    ((h hbefore).fed packet) ht hord
  · intro _ cbs y z hconns hclose hyt
    refine ⟨?_, ?_, ?_⟩
    · unfold waits
      rw [hconns, hclose]
      exact hyt.names
    · rw [hclose]
      exact hyt.ends
    · rw [hconns]
      exact hyt.first
  · intro done cb cbs y hin hsofar hy hyt
    exact ⟨hy.deliver hsofar hf hin hyt, hyt.deliver hin⟩

end Packet

/-! ## Runs -/

/-- The callbacks for a packet do not name or end a connection that is still
queued, and do not end it after they resolved its flow. -/
def InTime (w : World R P) (s : TcpTlsHostnameExtractor R P) : Op → Prop
  | .feed now pkt =>
    ∀ f ∈ flowOf pkt.val.bytes, ∀ x ∈ (s.tick w now).hands w now pkt.val f,
    ∀ c ∈ x.conns.find f.key,
      let cbs := (w.reassemblePacket x.reassembly now pkt.val.bytes).2
      (∀ cb ∈ cbs, cb.names = true ∨ cb.ends = true → cb.token ∉ x.to_close) ∧
      (cbs.any Callback.ends = true →
        resolvesOn c.stream (cbs.takeWhile (fun cb => !cb.ends)) = false)
  | _ => True

/-- In every run whose callbacks are in time, the extractor closes no
connection that the reassembler has ended or that it closed before. -/
theorem no_ended_connection_is_closed (w : World R P) (r : R) (p : P) (max_flows max_blocked : Nat)
    (ops : List Op)
    (hcond : Along (Op.apply (watched w)) (InTime (watched w)) (init (r, []) p max_flows max_blocked)
      ops)
    (hord : Orderly (ops.foldl (Op.apply (watched w))
      (init (r, []) p max_flows max_blocked)).reassembly.2) :
    ClosesOnce (ops.foldl (Op.apply (watched w))
      (init (r, []) p max_flows max_blocked)).reassembly.2 := by
  refine ((hcond.leaves (I := fun s => Holds Orderly Sound s ∧ s.feeding = false) ?_ ⟨?_, rfl⟩).1
    hord).once
  · rintro s op ⟨hs, hfeed⟩ hc
    refine ⟨hs.apply (sound_bookkeeping w) hfeed ?_, apply_feeding op hfeed⟩
    rintro now pkt f x rfl hf hx hwx
    obtain ⟨c, hl, -⟩ := hands_entry hx
    obtain ⟨hnames, hends⟩ := hc f hf x hx c hl
    refine sound_reassemblePoint hwx hf ⟨?_, ?_, ?_⟩
    · exact fun _ cb hm hn => hnames cb hm (.inl hn)
    · exact fun cb hm he => hnames cb hm (.inr he)
    · intro c' hl' _ hany
      rw [hl] at hl'
      cases hl'
      exact hends hany
  · intro _
    refine ⟨fun k tok b hk => ?_, fun k tok b hk => ?_, ?_, List.nodup_nil, ?_⟩
    · cases hk
    · cases hk
    · intro tok hm
      cases hm
    · intro pre tok post hacts
      simp [init] at hacts

open traffic in
/-- A RST ends a connection whose flow waits for the rest of a hello, and it is
not closed. The client opens it anew and sends a blocked hello, and it is
closed once. -/
theorem a_reset_connection_is_not_closed :
    let reset := owned (build_l3 (client 2) server 21 0x14 []) 3
    let ops := [Op.feed 0 (syn (client 2) 1),
      .feed 0 (segmentOf (client 2) 1 ((client_hello host).take 20) 2), .feed 0 reset,
      .feed (seconds 2) (syn (client 2) 4), .feed (seconds 2) (hello (client 2) 5)]
    let acts := (ops.foldl (Op.apply (watched (world { exact := [host] })))
      (init ([], []) () 2 1)).reassembly.2
    .told reset.val.bytes (.finish 3561989441) ∈ acts ∧ acts.count (.closed 3561989441) = 1 ∧
      ClosesOnce acts := by
  intro reset ops acts
  refine ⟨by decide +kernel, by decide +kernel, ?_⟩
  refine no_ended_connection_is_closed (world { exact := [host] }) [] () 2 1 ops ?_ ?_
  · refine ⟨?_, ?_, ?_, ?_, ?_, trivial⟩
    all_goals
      unfold InTime
      decide +kernel
  · refine orderly_of_one (4, 6, s(([10, 0, 0, 2] ++ List.replicate 12 0, 40000),
      ([93, 184, 216, 34] ++ List.replicate 12 0, 443))) ?_ (started_of_each ?_)
    · decide +kernel
    · decide +kernel

open traffic in
/-- A segment carries the ClientHello of a blocked host and a RST. The
data resolve the flow, which queues the close, and the reassembler then ends
the connection in the same call. -/
theorem a_hello_with_a_reset_is_closed_after_its_end :
    let s := [Op.feed 0 (syn (client 2) 1),
        .feed 0 (owned (build_l3 (client 2) server 1 0x1c (client_hello host)) 2)].foldl
      (Op.apply (watched (world { exact := [host] }))) (init ([], []) () 2 1)
    Orderly s.reassembly.2 ∧ ¬ ClosesOnce s.reassembly.2 := by
  intro s
  refine ⟨?_, ?_⟩
  · refine orderly_of_one (4, 6, s(([10, 0, 0, 2] ++ List.replicate 12 0, 40000),
      ([93, 184, 216, 34] ++ List.replicate 12 0, 443))) ?_ (started_of_each ?_)
    · decide +kernel
    · decide +kernel
  · intro h
    have hsplit : s.reassembly.2 = s.reassembly.2.take 5 ++ .closed 3561989441 :: [] := by
      decide +kernel
    exact h _ _ _ hsplit (by decide +kernel)

end TcpTlsHostnameExtractor

end packet_inspector
