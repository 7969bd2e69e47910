-- Idle flows and the sweep: when a flow was last fed, what the sweep leaves
-- in the table, and why the rate limit of the sweep costs one second only.
import PacketInspector.Accounting
import PacketInspector.Traffic

open wire packet_inspector.tls runs

namespace packet_inspector

/-! ## The clock of a run -/

/-- The time that a call reads from the steady clock. A flush reads none. -/
def Op.clock : Op → Option Time
  | .feed now _ => some now
  | .tick now => some now
  | .flush _ => none

def clocks (ops : List Op) : List Time := ops.filterMap Op.clock

/-- A run on the steady clock: it never goes back, and never reads a time
before its epoch. -/
structure Clocked (ops : List Op) : Prop where
  steady : (clocks ops).Pairwise (· ≤ ·)
  epoch : ∀ t ∈ clocks ops, 0 ≤ t

/-- The time of the latest packet fed for the flow `k`. -/
def lastFed (k : UInt32) (ops : List Op) : Option Time :=
  ops.foldl (fun last op => if op.fed.bind keyOf = some k then some op.now else last) none

theorem clocks_append (ops : List Op) (op : Op) :
    clocks (ops ++ [op]) = clocks ops ++ op.clock.toList := by
  unfold clocks
  rw [List.filterMap_append]
  cases h : op.clock <;> simp [h]

theorem lastFed_append (k : UInt32) (ops : List Op) (op : Op) :
    lastFed k (ops ++ [op]) =
      if op.fed.bind keyOf = some k then some op.now else lastFed k ops := by
  simp [lastFed]

theorem Clocked.init {ops : List Op} {op : Op} (h : Clocked (ops ++ [op])) : Clocked ops := by
  have hsub : (clocks ops).Sublist (clocks (ops ++ [op])) := by
    rw [clocks_append]
    exact List.sublist_append_left _ _
  exact ⟨h.steady.sublist hsub, fun t ht => h.epoch t (hsub.subset ht)⟩

/-- The time of a call is no earlier than those before it. -/
theorem Clocked.le_last {ops : List Op} {op : Op} {t now : Time} (h : Clocked (ops ++ [op]))
    (hnow : op.clock = some now) (ht : t = 0 ∨ t ∈ clocks ops) : t ≤ now := by
  have hclocks : clocks (ops ++ [op]) = clocks ops ++ [now] := by
    rw [clocks_append, hnow]
    rfl
  rcases ht with rfl | ht
  · apply h.epoch
    rw [hclocks]
    exact List.mem_append_right _ (List.mem_singleton_self now)
  · have hsteady := h.steady
    rw [hclocks] at hsteady
    exact (List.pairwise_append.mp hsteady).2.2 t ht now (List.mem_singleton_self now)

namespace TcpTlsHostnameExtractor

variable {R P : Type} {w : World R P} {s s' : TcpTlsHostnameExtractor R P} {now : Time}
  {k : UInt32} {Q : State → Time → Prop}

/-! ## The time of an entry -/

/-- The entry of `k`, when there is one, has a state and a time as `Q` says. -/
def Timed (Q : State → Time → Prop) (k : UInt32) (s : TcpTlsHostnameExtractor R P) : Prop :=
  ∀ c, s.conns.find k = some c → Q c.state c.last

theorem Timed.put {key : UInt32} {c : Conn} (h : Timed Q k s) (hc : k = key → Q c.state c.last) :
    Timed Q k (s.put key c) := by
  intro c' hf
  simp only [put_conns, AList.find_insert] at hf
  split at hf
  · rename_i he
    cases hf
    exact hc he
  · exact h c' hf

/-- An entry is written with a new state only when it is blocked, and with a
new time only when a packet of its flow is fed. -/
theorem step_timed {call : Call} (hblock : ∀ t, Q .Wait t → Q .Block t)
    (hnow : call.key = some k → ∀ state, Q state now) (hs : Step w now call s s')
    (h : Timed Q k s) : Timed Q k s' := by
  cases hs with
  | books => exact h
  | heard => exact h
  | joined packet f c tok data hf hcall hl hc =>
    refine Timed.put h ?_
    rintro rfl
    exact h c hl
  | marked key c tok closed hcall hl =>
    refine h.put ?_
    rintro rfl
    exact h c hl
  | touched key c hcall hl =>
    refine h.put ?_
    rintro rfl
    exact hnow hcall _
  | opened key hcall hl hroom =>
    refine h.put ?_
    rintro rfl
    exact hnow hcall _
  | released key c ps p hcall hl hheld =>
    refine h.put ?_
    rintro rfl
    exact h c hl
  | resolved key c hostname hl hc hcall hreason =>
    intro c' hf
    by_cases hk : k = key
    · subst hk
      rw [resolve_find_self hl hc hf]
      apply hblock
      have hq := h c hl
      rw [hc] at hq
      exact hq
    · exact h c' (resolve_find_of_ne hk hf)
  | expired key c hl hc hidle =>
    intro c' hf
    simp only [log_conns, forget_conns, AList.find_erase] at hf
    split at hf
    · cases hf
    · exact h c' hf
  | passed hv => exact h
  | evicted h0 hv =>
    intro c' hf
    simp only [evict, publish_conns, log_conns, forget_conns, turn_conns, AList.find_erase] at hf
    split at hf
    · cases hf
    · exact h c' hf
  | cleared hcall hb =>
    intro c' hf
    simp at hf

theorem path_timed {call : Call} (hblock : ∀ t, Q .Wait t → Q .Block t)
    (hnow : call.key = some k → ∀ state, Q state now) (hp : Path w now call s s')
    (h : Timed Q k s) : Timed Q k s' :=
  path_keeps (I := Timed Q k) (fun _ _ hs hx => step_timed hblock hnow hs hx) hp h

theorem take_timed {p : Packet} (ht : Take w p s s') (h : Timed Q k s) : Timed Q k s' := by
  cases ht with
  | decided v => exact h
  | refused f => exact h
  | held f c hf hpay hl hc hroom =>
    refine h.put ?_
    rintro rfl
    exact h c hl

theorem feeds_timed {p : Packet} (hblock : ∀ t, Q .Wait t → Q .Block t)
    (hnow : keyOf p = some k → ∀ state, Q state now) (hp : Feeds w now p s s')
    (h : Timed Q k s) : Timed Q k s' := by
  obtain ⟨s1, s2, h1, h2, h3⟩ := hp
  have hkey : (Call.feed p.bytes).key = some k → ∀ state, Q state now := hnow
  exact path_timed hblock hkey h3 (take_timed h2 (path_timed hblock hkey h1 h))

/-- A packet of the flow `k` stamps its entry, whatever time that had. -/
theorem feedFlow_timed {p : Packet} {f : FlowView} (hf : flowOf p.bytes = some f)
    (hfeed : s.feeding = false) (hblock : ∀ t, Q .Wait t → Q .Block t)
    (hnow : ∀ state, Q state now) : Timed Q f.key (s.feedFlow w now p f) := by
  unfold feedFlow
  cases hl : s.conns.find f.key with
  | none =>
    refine feeds_timed hblock (fun _ => hnow) (feedUntracked_feeds w now hf hl hfeed).1 ?_
    intro c hc
    rw [hl] at hc
    cases hc
  | some c =>
    simp only
    split
    · intro c' hc'
      simp only [decide_conns, put_conns, AList.find_insert_self, Option.some.injEq] at hc'
      subst hc'
      exact hnow _
    · rename_i hb
      have hc : c.state = .Wait := by
        cases hst : c.state with
        | Wait => rfl
        | Block => exact absurd hst hb
      -- the entry is stamped first, and what follows keeps the stamp
      refine feeds_timed hblock (fun _ => hnow) (feedTracked_feeds w now hf hc hfeed .refl).1 ?_
      intro c' hc'
      simp only [put_conns, AList.find_insert_self, Option.some.injEq] at hc'
      subst hc'
      exact hnow _

/-- An entry has the time of the latest packet that was fed for it. -/
theorem apply_lastFed {ops : List Op} (op : Op) (hfeed : s.feeding = false)
    (h : Timed (fun _ t => lastFed k ops = some t) k s) :
    Timed (fun _ t => lastFed k (ops ++ [op]) = some t) k (op.apply w s) := by
  have hpath : ∀ {call : Call} {x : TcpTlsHostnameExtractor R P} {now' : Time},
      call.key = none → Path w now' call s x → Timed (fun _ t => lastFed k ops = some t) k x := by
    intro call x now' hcall hp
    exact path_timed (fun _ => id) (fun hk => by simp [hcall] at hk) hp h
  cases op with
  | feed now p =>
    rw [lastFed_append]
    split
    · rename_i hk
      cases hf : flowOf p.val.bytes with
      | none => simp [Op.fed, keyOf, hf] at hk
      | some f =>
        have hkey : f.key = k := by simpa [Op.fed, keyOf, hf] using hk
        subst hkey
        show Timed (fun _ t => some now = some t) f.key (s.feed w now p.val)
        rw [feed_of_flow hf]
        have hstamp : Timed (fun _ t => some now = some t) f.key
            ((s.tick w now).feedFlow w now p.val f) :=
          feedFlow_timed hf (tick_path w now .tick hfeed).2 (fun _ => id) (fun _ => rfl)
        exact hstamp
    · rename_i hk
      exact feeds_timed (fun _ => id) (fun hk' => absurd hk' hk) (feed_feeds w now p hfeed).1 h
  | tick now =>
    rw [lastFed_append, if_neg (by simp [Op.fed])]
    exact hpath rfl (tick_path w now .tick hfeed).1
  | flush now =>
    rw [lastFed_append, if_neg (by simp [Op.fed])]
    exact hpath rfl (flush_path w now hfeed).1

theorem run_lastFed (w : World R P) (r : R) (p : P) (max_flows max_blocked : Nat) (ops : List Op)
    {k : UInt32} {c : Conn}
    (hl : (ops.foldl (Op.apply w) (init r p max_flows max_blocked)).conns.find k = some c) :
    lastFed k ops = some c.last := by
  refine (run_keeps (f := Op.apply w) (s := init r p max_flows max_blocked)
    (I := fun done x => (∀ k, Timed (fun _ t => lastFed k done = some t) k x) ∧ x.feeding = false)
    ⟨?_, rfl⟩ ?_ ops).1 k c hl
  · intro k c hf
    simp [init] at hf
  · rintro done x op ⟨hx, hfeed⟩
    exact ⟨fun k => apply_lastFed op hfeed (hx k), apply_feeding op hfeed⟩

/-! ## The time of the last sweep -/

theorem callback_lastSweep (s : TcpTlsHostnameExtractor R P) (cb : Callback) :
    (s.callback w cb).lastSweep = s.lastSweep := by
  cases cb with
  | start tok =>
    show (s.onConnectionStart tok).lastSweep = s.lastSweep
    unfold onConnectionStart
    split
    · rfl
    · split <;> rfl
  | message side tok data =>
    show (s.onMessageReady w side tok data).lastSweep = s.lastSweep
    unfold onMessageReady
    split
    · rfl
    · split
      · rfl
      · split
        · rfl
        · split
          · rfl
          · exact (checkStream_framed _ _ _).lastSweep
  | finish tok =>
    show (s.onConnectionEnd w).lastSweep = s.lastSweep
    unfold onConnectionEnd
    split
    · rfl
    · split
      · rfl
      · exact (resolve_framed _ _ _).lastSweep

theorem reassemble_lastSweep (s : TcpTlsHostnameExtractor R P) (key : UInt32) (packet : Bytes) :
    (s.reassemble w now key packet).lastSweep = s.lastSweep := by
  unfold reassemble
  simp only
  have hfold := foldl_keeps (I := fun x : TcpTlsHostnameExtractor R P => x.lastSweep = s.lastSweep)
    (f := fun x cb => x.deliver w packet cb)
    (fun x cb hx => (callback_lastSweep (x.log (.callback packet cb)) cb).trans hx)
    (w.reassemblePacket s.reassembly now packet).2
    { s with
      current_key := key, feeding := true
      reassembly := (w.reassemblePacket s.reassembly now packet).1 } rfl
  generalize List.foldl _ _ _ = y at hfold ⊢
  obtain ⟨r, hr⟩ := drain_closes_of_not_feeding (w := w) (s := { y with feeding := false }) now rfl
  rw [hr]
  exact hfold

theorem releaseLast_lastSweep (s : TcpTlsHostnameExtractor R P) (key : UInt32) :
    (s.releaseLast key).lastSweep = s.lastSweep := by
  unfold releaseLast
  split
  · rfl
  · split <;> rfl

theorem evictTurns_lastSweep (left : Nat) (s : TcpTlsHostnameExtractor R P) :
    (evictTurns left s).2.lastSweep = s.lastSweep := by
  induction left generalizing s with
  | zero => rfl
  | succ left ih =>
    unfold evictTurns
    split
    · rfl
    · exact ih (s.turn 0)

/-- What a sweep does to the table, and to its own time. -/
theorem sweep_eq (hfeed : s.feeding = false) :
    (s.sweep w now).conns = (expireAll { s with blocked := s.blockedCount } w now).conns ∧
    (s.sweep w now).lastSweep = s.lastSweep := by
  obtain ⟨-, hfeed'⟩ := expireAll_path w now .tick (s := { s with blocked := s.blockedCount }) hfeed
  have hlast := (expireAll_framed w now { s with blocked := s.blockedCount }).lastSweep
  unfold sweep
  simp only [settle_of_not_feeding _ hfeed']
  generalize expireAll { s with blocked := s.blockedCount } w now = x at hfeed' hlast ⊢
  obtain ⟨r, hr⟩ := drain_closes_of_not_feeding (w := w) now
    (s := { x with reassembly := (w.purgeClosedConnections x.reassembly now).1 }) hfeed'
  rw [hr]
  exact ⟨rfl, hlast⟩

theorem tick_lastSweep (hfeed : s.feeding = false) :
    (s.tick w now).lastSweep = if now - s.lastSweep < kSweepInterval then s.lastSweep else now := by
  unfold tick
  split
  · rfl
  · exact (sweep_eq (s := { s with lastSweep := now }) hfeed).2

/-- After a tick the last sweep is less than a second ago. -/
theorem tick_recent (w : World R P) (now : Time) (hfeed : s.feeding = false) :
    now - (s.tick w now).lastSweep < kSweepInterval := by
  rw [tick_lastSweep hfeed]
  split
  · rename_i h
    exact h
  · rw [sub_self]
    decide

/-- A second tick at the same time does nothing. -/
theorem tick_tick (hfeed : s.feeding = false) : (s.tick w now).tick w now = s.tick w now := by
  nth_rewrite 1 [tick]
  rw [if_pos (tick_recent w now hfeed)]

theorem feedTracked_lastSweep (p : Packet) (f : FlowView) (c : Conn) :
    (s.feedTracked w now p f c).lastSweep = s.lastSweep := by
  unfold feedTracked
  simp only
  split
  · exact (resolve_framed _ _ _).lastSweep
  · split
    · rw [releaseLast_lastSweep]
      exact reassemble_lastSweep _ _ _
    · split
      · rfl
      · exact reassemble_lastSweep _ _ _

/-- A packet that is fed sweeps in its tick or not at all: the sweep of a
full table would come at the time of that tick. -/
theorem feed_lastSweep (p : Arrival) (hfeed : s.feeding = false) :
    (s.feed w now p.val).lastSweep = (s.tick w now).lastSweep := by
  cases hf : flowOf p.val.bytes with
  | none =>
    rw [feed_of_no_flow hf]
    rfl
  | some f =>
    rw [feed_of_flow hf]
    show ((s.tick w now).feedFlow w now p.val f).lastSweep = _
    have hroom : ((s.tick w now).makeRoom w now).lastSweep = (s.tick w now).lastSweep := by
      unfold makeRoom
      rw [tick_tick hfeed]
      split
      · rename_i hfull
        simp only
        rw [if_pos hfull]
        exact evictTurns_lastSweep _ _
      · rfl
    unfold feedFlow
    split
    · split
      · rfl
      · exact feedTracked_lastSweep _ _ _
    · unfold feedUntracked
      split
      · rfl
      · simp only
        split
        · exact hroom
        · rw [feedTracked_lastSweep]
          exact hroom

theorem flush_lastSweep (hfeed : s.feeding = false) :
    (s.flush w now).lastSweep = s.lastSweep := by
  obtain ⟨-, hfeed', -⟩ := resolveAll_path w now hfeed
  obtain ⟨r, hr⟩ := drain_closes_of_not_feeding (w := w) (s := (s.resolveAll w).clear) now hfeed'
  unfold flush
  rw [hr]
  exact (resolveAll_framed w s).lastSweep

/-! ## What a sweep leaves -/

/-- At the time `t` the entry is within its timeout. -/
def Awake (t : Time) (state : State) (last : Time) : Prop := t - last < idleTimeout state

theorem awake_block (t : Time) {last : Time} (h : Awake t .Wait last) : Awake t .Block last := by
  have hle : idleTimeout .Wait ≤ idleTimeout .Block := by decide
  exact lt_of_lt_of_le h hle

theorem awake_now {t : Time} (h : t ≤ now) (state : State) : Awake t state now := by
  have hpos : 0 < idleTimeout state := by
    cases state with
    | Wait => decide
    | Block => decide
  exact lt_of_le_of_lt (sub_nonpos.mpr h) hpos

theorem expire_find_self (hallow : ∀ p, (w.decide p none).1 = .ALLOW) (key : UInt32) :
    (s.expire w key).conns.find key = none := by
  unfold expire
  cases hl : s.conns.find key with
  | none => exact hl
  | some c =>
    cases hc : c.state with
    | Block => simp [hc]
    | Wait =>
      simp only [hc, reduceCtorEq, if_false]
      rw [resolve_allow hl hc (hallow s.policy)]
      simp

/-- With a policy that lets a flow without a hostname through, a sweep
leaves no idle flow. -/
theorem expireAll_awake (hallow : ∀ p, (w.decide p none).1 = .ALLOW) (k : UInt32) :
    Timed (Awake now) k (s.expireAll w now) := by
  have hleft := foldl_leaves (f := fun (x : TcpTlsHostnameExtractor R P) key => x.expire w key)
    (Q := fun l x => ∀ c, x.conns.find k = some c → isIdle now c = true → k ∈ l)
    (by
      intro key l x hx c hf hidle
      by_cases hk : k = key
      · subst hk
        rw [expire_find_self hallow] at hf
        cases hf
      · exact (List.mem_cons.mp (hx c (expire_find_of_ne hk hf) hidle)).resolve_left hk)
    (s.collect w (isIdle now)) s
    (fun c hf hidle => mem_collect.mpr ⟨c, hf, hidle⟩)
  intro c hf
  by_contra hn
  have hidle : isIdle now c = true := by
    simpa [isIdle] using not_lt.mp hn
  exact absurd (hleft c hf hidle) (List.not_mem_nil)

theorem tick_awake (hallow : ∀ p, (w.decide p none).1 = .ALLOW) (hfeed : s.feeding = false)
    (h : Timed (Awake s.lastSweep) k s) :
    Timed (Awake (s.tick w now).lastSweep) k (s.tick w now) := by
  rw [tick_lastSweep hfeed]
  unfold tick
  split
  · exact h
  · intro c hf
    rw [(sweep_eq (s := { s with lastSweep := now }) hfeed).1] at hf
    exact expireAll_awake hallow k c hf

theorem apply_awake {ops : List Op} {op : Op} (hallow : ∀ p, (w.decide p none).1 = .ALLOW)
    (hclock : Clocked (ops ++ [op])) (hfeed : s.feeding = false)
    (hlast : s.lastSweep = 0 ∨ s.lastSweep ∈ clocks ops) (h : ∀ k, Timed (Awake s.lastSweep) k s) :
    ((op.apply w s).lastSweep = 0 ∨ (op.apply w s).lastSweep ∈ clocks (ops ++ [op])) ∧
    ∀ k, Timed (Awake (op.apply w s).lastSweep) k (op.apply w s) := by
  have hsub : ∀ t, t = 0 ∨ t ∈ clocks ops → t = 0 ∨ t ∈ clocks (ops ++ [op]) := by
    intro t ht
    rw [clocks_append, List.mem_append]
    exact ht.imp id .inl
  have htick : ∀ now, op.clock = some now →
      (s.tick w now).lastSweep = 0 ∨ (s.tick w now).lastSweep ∈ clocks (ops ++ [op]) := by
    intro now hnow
    rw [tick_lastSweep hfeed]
    split
    · exact hsub _ hlast
    · rw [clocks_append, hnow]
      exact .inr (by simp)
  cases op with
  | feed now p =>
    have hle : (s.tick w now).lastSweep ≤ now := by
      rw [tick_lastSweep hfeed]
      split
      · exact hclock.le_last rfl hlast
      · exact le_refl now
    have hlastSweep : (Op.apply w s (.feed now p)).lastSweep = (s.tick w now).lastSweep :=
      feed_lastSweep p hfeed
    rw [hlastSweep]
    refine ⟨htick now rfl, fun k => ?_⟩
    have hstart : Timed (Awake (s.tick w now).lastSweep) k (s.tick w now) :=
      tick_awake hallow hfeed (h k)
    show Timed (Awake (s.tick w now).lastSweep) k (s.feed w now p.val)
    cases hf : flowOf p.val.bytes with
    | none =>
      rw [feed_of_no_flow hf]
      exact hstart
    | some f =>
      rw [feed_of_flow hf]
      obtain ⟨hfeeds, -⟩ := feedFlow_feeds w now hf (tick_path w now .tick hfeed).2
      have hend : Timed (Awake (s.tick w now).lastSweep) k ((s.tick w now).feedFlow w now p.val f) :=
        feeds_timed (fun _ => awake_block _) (fun _ => awake_now hle) hfeeds hstart
      exact hend
  | tick now => exact ⟨htick now rfl, fun k => tick_awake hallow hfeed (h k)⟩
  | flush now =>
    have hlastSweep : (Op.apply w s (.flush now)).lastSweep = s.lastSweep := flush_lastSweep hfeed
    rw [hlastSweep]
    refine ⟨hsub _ hlast, fun k c hf => ?_⟩
    have hempty : (Op.apply w s (.flush now)).conns = ∅ := flush_conns w now hfeed
    rw [hempty] at hf
    simp at hf

theorem run_awake {w : World R P} (hallow : ∀ p, (w.decide p none).1 = .ALLOW) (r : R) (p : P)
    (max_flows max_blocked : Nat) {ops : List Op} (hclock : Clocked ops) :
    let s := ops.foldl (Op.apply w) (init r p max_flows max_blocked)
    (s.lastSweep = 0 ∨ s.lastSweep ∈ clocks ops) ∧ ∀ k, Timed (Awake s.lastSweep) k s := by
  intro s
  refine (run_keeps (f := Op.apply w) (s := init r p max_flows max_blocked)
    (I := fun done x => x.feeding = false ∧ (Clocked done →
      (x.lastSweep = 0 ∨ x.lastSweep ∈ clocks done) ∧ ∀ k, Timed (Awake x.lastSweep) k x))
    ⟨rfl, fun _ => ⟨.inl rfl, ?_⟩⟩ ?_ ops).2 hclock
  · intro k c hf
    simp [init] at hf
  · rintro done x op ⟨hfeed, hx⟩
    refine ⟨apply_feeding op hfeed, fun hc => ?_⟩
    obtain ⟨hlast, hawake⟩ := hx hc.init
    exact apply_awake hallow hc hfeed hlast hawake

/-! ## The law -/

/-- After every tick a waiting flow was fed less than eleven seconds ago, a
blocked one less than sixty-one, and so no packet is held for a flow that
has been silent for eleven seconds. -/
theorem idle_flows_are_released_in_bounded_time {w : World R P}
    (hallow : ∀ p, (w.decide p none).1 = .ALLOW) (r : R) (p : P) (max_flows max_blocked : Nat)
    (ops : List Op) (t : Time) (hclock : Clocked (ops ++ [.tick t])) (k : UInt32) (c : Conn)
    (hl : ((ops ++ [Op.tick t]).foldl (Op.apply w)
      (init r p max_flows max_blocked)).conns.find k = some c) :
    lastFed k ops = some c.last ∧
    (c.state = .Wait → t - c.last < seconds 11) ∧
    (c.state = .Block → t - c.last < seconds 61) ∧
    (c.held ≠ [] → t - c.last < seconds 11) := by
  have hlast : lastFed k ops = some c.last := by
    have h := run_lastFed w r p max_flows max_blocked (ops ++ [Op.tick t]) hl
    rwa [lastFed_append, if_neg (by simp [Op.fed])] at h
  have hidle : t - c.last < idleTimeout c.state + kSweepInterval := by
    have hawake : Awake _ c.state c.last := (run_awake hallow r p max_flows max_blocked hclock).2 k c hl
    have hrecent := tick_recent w t (accounted_run w r p max_flows max_blocked ops).2
    rw [List.foldl_append] at hawake
    unfold Awake at hawake
    calc t - c.last = (t - _) + (_ - c.last) := (sub_add_sub_cancel t _ c.last).symm
      _ < kSweepInterval + idleTimeout c.state := add_lt_add hrecent hawake
      _ = idleTimeout c.state + kSweepInterval := add_comm _ _
  have hwait : c.state = .Wait → t - c.last < seconds 11 := by
    intro hc
    rw [hc] at hidle
    exact hidle
  refine ⟨hlast, hwait, ?_, ?_⟩
  · intro hc
    rw [hc] at hidle
    exact hidle
  · intro hheld
    apply hwait
    obtain ⟨⟨hquiet, -⟩, -⟩ := accounted_run w r p max_flows max_blocked (ops ++ [Op.tick t])
    cases hc : c.state with
    | Wait => rfl
    | Block => exact absurd (hquiet k c hl hc) hheld

open traffic in
theorem a_held_segment_is_of_a_recent_flow :
    let p := segmentOf (client 2) 1 [0x16, 0x03, 0x01] 1
    let s := after 2 1 [.feed (seconds 100) p, .tick (seconds 109)]
    ∃ c, s.conns.find 3561989440 = some c ∧ c.held.map (·.id) = [1] ∧
      lastFed 3561989440 [.feed (seconds 100) p] = some c.last ∧
      seconds 109 - c.last < seconds 11 := by
  intro p s
  have hfound : (s.conns.find 3561989440).map (fun c => (c.state, c.held.map (·.id))) =
      some (.Wait, [1]) := by
    decide +kernel
  obtain ⟨c, hl, hc⟩ := Option.map_eq_some_iff.mp hfound
  obtain ⟨hwait, hheld⟩ := Prod.mk.injEq .. ▸ hc
  have hclock : Clocked [.feed (seconds 100) p, .tick (seconds 109)] := by
    refine ⟨?_, ?_⟩
    · simp [clocks, Op.clock, seconds]
    · simp [clocks, Op.clock, seconds]
  obtain ⟨hlast, hbound, -⟩ := idle_flows_are_released_in_bounded_time
    (w := world { exact := [host] }) (fun _ => rfl) [] () 2 1 [.feed (seconds 100) p] (seconds 109) hclock
    3561989440 c hl
  exact ⟨c, hl, hheld, hlast, hbound hwait⟩

end TcpTlsHostnameExtractor

end packet_inspector
