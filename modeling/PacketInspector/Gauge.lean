-- The gauge of blocked flows. A sweep counts the blocked flows and then acts
-- on the idle ones, and a flush counts nothing, so the gauge is right after
-- those that have nothing to act on.
import PacketInspector.BlockRing
import PacketInspector.FlowTable
import PacketInspector.Idle
import PacketInspector.Remembering

open wire packet_inspector.tls runs

namespace packet_inspector.TcpTlsHostnameExtractor

variable {R P : Type} {w : World R P} {s x : TcpTlsHostnameExtractor R P} {now : Time}

/-! ## The number of blocked flows -/

theorem blockedCount_congr (h : ∀ k, x.blockedConn k = s.blockedConn k) :
    x.blockedCount = s.blockedCount := by
  rw [← blockedKeys_length, ← blockedKeys_length]
  refine ((List.perm_ext_iff_of_nodup (blockedKeys_nodup x) (blockedKeys_nodup s)).mpr ?_).length_eq
  intro k
  rw [mem_blockedKeys_iff, mem_blockedKeys_iff, h]

/-- When some blocked flow is gone and none is new, there are fewer of them. -/
theorem blockedCount_lt {k : UInt32} (hsub : ∀ k, x.blockedConn k = true → s.blockedConn k = true)
    (hk : s.blockedConn k = true) (hgone : x.blockedConn k = false) :
    x.blockedCount < s.blockedCount := by
  rw [← blockedKeys_length, ← blockedKeys_length]
  have hnot : k ∉ x.blockedKeys := by
    rw [mem_blockedKeys_iff, hgone]
    exact Bool.false_ne_true
  have hnodup : (k :: x.blockedKeys).Nodup := List.nodup_cons.mpr ⟨hnot, blockedKeys_nodup x⟩
  have hmem : k :: x.blockedKeys ⊆ s.blockedKeys := by
    intro k' hm
    rw [mem_blockedKeys_iff]
    rcases List.mem_cons.mp hm with rfl | hm
    · exact hk
    · exact hsub k' (mem_blockedKeys_iff.mp hm)
  exact (hnodup.subperm hmem).length_le

theorem blockedCount_le_size (s : TcpTlsHostnameExtractor R P) :
    s.blockedCount ≤ s.conns.size :=
  List.countP_le_length

/-! ## The gauge of a sweep -/

/-- A sweep leaves the number of flows that were blocked before it, and the
table that its acting pass leaves. -/
theorem sweep_gauge (now : Time) (hfeed : s.feeding = false) :
    (s.sweep w now).blocked = s.blockedCount ∧
    (s.sweep w now).flows = (s.sweep w now).conns.size := by
  obtain ⟨-, hfeed'⟩ := expireAll_path w now .tick (s := { s with blocked := s.blockedCount }) hfeed
  have hgauge := (expireAll_framed w now { s with blocked := s.blockedCount }).blocked
  unfold sweep
  simp only [settle_of_not_feeding _ hfeed']
  generalize expireAll { s with blocked := s.blockedCount } w now = y at hfeed' hgauge ⊢
  obtain ⟨r, hr⟩ := drain_closes_of_not_feeding (w := w) now
    (s := { y with reassembly := (w.purgeClosedConnections y.reassembly now).1 }) hfeed'
  rw [hr]
  exact ⟨hgauge, rfl⟩

/-- With a policy that lets a flow without a hostname through, expiring a
flow erases it, and no other. -/
theorem expire_find (hallow : ∀ p, (w.decide p none).1 = .ALLOW) (key k : UInt32) :
    (s.expire w key).conns.find k = if k = key then none else s.conns.find k := by
  by_cases hk : k = key
  · subst hk
    rw [if_pos rfl]
    exact expire_find_self hallow k
  · rw [if_neg hk]
    unfold expire
    cases hl : s.conns.find key with
    | none => rfl
    | some c =>
      cases hc : c.state with
      | Block =>
        simp only [hc, if_true]
        exact AList.find_erase_of_ne _ hk
      | Wait =>
        simp only [hc, reduceCtorEq, if_false]
        rw [resolve_allow hl hc (hallow s.policy), release_conns]
        exact AList.find_erase_of_ne _ hk

/-- The flows that expire are erased, and the rest of the table stays. -/
theorem expireAll_find (hallow : ∀ p, (w.decide p none).1 = .ALLOW) (k : UInt32) :
    (s.expireAll w now).conns.find k =
      if k ∈ s.collect w (isIdle now) then none else s.conns.find k := by
  unfold expireAll
  generalize s.collect w (isIdle now) = keys
  induction keys generalizing s with
  | nil => rfl
  | cons key keys ih =>
    rw [List.foldl_cons, ih, expire_find hallow]
    by_cases hk : k = key
    · simp [hk]
    · simp [hk]

/-! ## The law -/

/-- The gauge shows how many flows of the table are blocked, which is at
most the number of flows shown. -/
def GaugeRight (s : TcpTlsHostnameExtractor R P) : Prop :=
  s.blocked = s.blockedCount ∧ s.blocked ≤ s.flows

/-- The sweep at the time `now` blocks no flow and forgets no blocked one:
each idle flow waits, and the policy lets it through. -/
def Harmless (w : World R P) (now : Time) (s : TcpTlsHostnameExtractor R P) : Prop :=
  ∀ k c, s.conns.find k = some c → isIdle now c = true →
    c.state = .Wait ∧ ∀ p, (w.decide p none).1 = .ALLOW

/-- The gauge is right after a sweep whose acting pass keeps the number of
blocked flows. -/
theorem sweep_right_iff (hfeed : s.feeding = false) :
    GaugeRight (s.sweep w now) ↔
      (expireAll { s with blocked := s.blockedCount } w now).blockedCount = s.blockedCount := by
  obtain ⟨hgauge, hflows⟩ := sweep_gauge (w := w) now hfeed
  have hcount : (s.sweep w now).blockedCount =
      (expireAll { s with blocked := s.blockedCount } w now).blockedCount := by
    unfold blockedCount
    rw [(sweep_eq hfeed).1]
    rfl
  unfold GaugeRight
  rw [hgauge, hcount, hflows]
  refine ⟨fun h => h.1.symm, fun h => ⟨h.symm, ?_⟩⟩
  rw [← h, ← hcount]
  exact blockedCount_le_size _

/-- What expires from the table, by the state of the flow. -/
theorem expireAll_blockedConn (hallow : ∀ p, (w.decide p none).1 = .ALLOW) (k : UInt32) :
    (s.expireAll w now).blockedConn k = true ↔
      ∃ c, s.conns.find k = some c ∧ c.state = .Block ∧ isIdle now c = false := by
  rw [blockedConn_iff, expireAll_find hallow]
  constructor
  · rintro ⟨c, hl, hc⟩
    split at hl
    · cases hl
    · rename_i hm
      refine ⟨c, hl, hc, ?_⟩
      rw [Bool.eq_false_iff]
      exact fun hidle => hm (mem_collect.mpr ⟨c, hl, hidle⟩)
  · rintro ⟨c, hl, hc, hidle⟩
    refine ⟨c, ?_, hc⟩
    rw [if_neg, hl]
    intro hm
    obtain ⟨c', hl', hidle'⟩ := mem_collect.mp hm
    rw [hl] at hl'
    cases hl'
    rw [hidle] at hidle'
    cases hidle'

theorem sweep_right_of_harmless (hfeed : s.feeding = false) (h : Harmless w now s) :
    GaugeRight (s.sweep w now) := by
  rw [sweep_right_iff hfeed]
  by_cases hany : ∃ k c, s.conns.find k = some c ∧ isIdle now c = true
  · obtain ⟨k0, c0, hl0, hidle0⟩ := hany
    have hallow := (h k0 c0 hl0 hidle0).2
    refine blockedCount_congr (s := s) (fun k => ?_)
    rw [Bool.eq_iff_iff, expireAll_blockedConn hallow, blockedConn_iff]
    refine ⟨fun ⟨c, hl, hc, _⟩ => ⟨c, hl, hc⟩, ?_⟩
    rintro ⟨c, hl, hc⟩
    refine ⟨c, hl, hc, ?_⟩
    rw [Bool.eq_false_iff]
    intro hidle
    rw [(h k c hl hidle).1] at hc
    cases hc
  · -- no flow is idle, so no one is served
    have hnone : collect { s with blocked := s.blockedCount } w (isIdle now) = [] := by
      refine List.eq_nil_iff_forall_not_mem.mpr ?_
      intro k hm
      obtain ⟨c, hl, hidle⟩ := mem_collect.mp hm
      exact hany ⟨k, c, hl, hidle⟩
    unfold expireAll
    rw [hnone]
    rfl

/-- A blocked flow that expires is counted, and gone. -/
theorem harmless_of_sweep_right (hfeed : s.feeding = false)
    (hallow : ∀ p, (w.decide p none).1 = .ALLOW) (h : GaugeRight (s.sweep w now)) :
    Harmless w now s := by
  intro k c hl hidle
  refine ⟨?_, hallow⟩
  cases hc : c.state with
  | Wait => rfl
  | Block =>
    exfalso
    rw [sweep_right_iff hfeed] at h
    refine absurd h (Nat.ne_of_lt (blockedCount_lt (k := k) ?_ ?_ ?_))
    · intro k' hb
      obtain ⟨c', hl', hc', -⟩ := (expireAll_blockedConn hallow k').mp hb
      exact blockedConn_iff.mpr ⟨c', hl', hc'⟩
    · exact blockedConn_iff.mpr ⟨c, hl, hc⟩
    · rw [Bool.eq_false_iff]
      intro hb
      obtain ⟨c', hl', -, hidle'⟩ := (expireAll_blockedConn hallow k).mp hb
      have hsame : s.conns.find k = some c' := hl'
      rw [hl] at hsame
      cases hsame
      rw [hidle] at hidle'
      cases hidle'

/-- A flush leaves the gauge as it was, and no flow. -/
theorem flush_right_iff (hfeed : s.feeding = false) (now : Time) :
    GaugeRight (s.flush w now) ↔ s.blocked = 0 := by
  obtain ⟨-, hfeed', -⟩ := resolveAll_path w now hfeed
  have hgauge := (resolveAll_framed w s).blocked
  obtain ⟨r, hr⟩ := drain_closes_of_not_feeding (w := w) (s := (s.resolveAll w).clear) now hfeed'
  unfold flush
  rw [hr]
  change (s.resolveAll w).blocked = 0 ∧ (s.resolveAll w).blocked ≤ 0 ↔ s.blocked = 0
  rw [hgauge]
  omega

/-- The states in which a call may sweep, with the time: at its start, and
again when a packet finds the table full. -/
def sweepsAt (w : World R P) (s : TcpTlsHostnameExtractor R P) :
    Op → List (Time × TcpTlsHostnameExtractor R P)
  | .feed now _ => [(now, s), (now, s.tick w now)]
  | .tick now => [(now, s)]
  | .flush _ => []

/-- The gauge is right after each sweep of the call, and after its flush. -/
def Gauged (w : World R P) (s : TcpTlsHostnameExtractor R P) (op : Op) : Prop :=
  (∀ e ∈ sweepsAt w s op, kSweepInterval ≤ e.1 - e.2.lastSweep → GaugeRight (e.2.tick w e.1)) ∧
  ∀ now, op = .flush now → GaugeRight (s.flush w now)

/-- The call's sweeps are harmless, and it flushes with the gauge at zero. -/
def Gentle (w : World R P) (s : TcpTlsHostnameExtractor R P) (op : Op) : Prop :=
  (∀ e ∈ sweepsAt w s op, kSweepInterval ≤ e.1 - e.2.lastSweep → Harmless w e.1 e.2) ∧
  ∀ now, op = .flush now → s.blocked = 0

theorem sweepsAt_feeding {op : Op} (hfeed : s.feeding = false) :
    ∀ e ∈ sweepsAt w s op, e.2.feeding = false := by
  intro e he
  cases op with
  | feed now pkt =>
    simp only [sweepsAt, List.mem_cons, List.not_mem_nil, or_false] at he
    rcases he with rfl | rfl
    · exact hfeed
    · exact (tick_path w now .tick hfeed).2
  | tick now =>
    simp only [sweepsAt, List.mem_singleton] at he
    rw [he]
    exact hfeed
  | flush now => cases he

/-- In every run whose calls are all gentle, the gauge matches the table
after every sweep and every flush. A policy that lets a flow without a
hostname through makes no other call right. -/
theorem the_gauge_is_right_when_a_sweep_leaves_blocked_flows_alone (w : World R P) (r : R) (p : P)
    (max_flows max_blocked : Nat) (ops : List Op) (op : Op) :
    let s := ops.foldl (Op.apply w) (init r p max_flows max_blocked)
    (Gentle w s op → Gauged w s op) ∧
    ((∀ p, (w.decide p none).1 = .ALLOW) → Gauged w s op → Gentle w s op) := by
  intro s
  have hfeed : s.feeding = false := (accounted_run w r p max_flows max_blocked ops).2
  have htick : ∀ e ∈ sweepsAt w s op, kSweepInterval ≤ e.1 - e.2.lastSweep →
      e.2.tick w e.1 = sweep { e.2 with lastSweep := e.1 } w e.1 := by
    intro e _ hdue
    unfold tick
    rw [if_neg (not_lt.mpr hdue)]
  refine ⟨?_, ?_⟩
  · rintro ⟨hsweep, hflush⟩
    refine ⟨?_, fun now ho => (flush_right_iff hfeed now).mpr (hflush now ho)⟩
    intro e he hdue
    rw [htick e he hdue]
    exact sweep_right_of_harmless (sweepsAt_feeding hfeed e he) (hsweep e he hdue)
  · rintro hallow ⟨hsweep, hflush⟩
    refine ⟨?_, fun now ho => (flush_right_iff hfeed now).mp (hflush now ho)⟩
    intro e he hdue
    have hright := hsweep e he hdue
    rw [htick e he hdue] at hright
    exact harmless_of_sweep_right (s := { e.2 with lastSweep := e.1 })
      (sweepsAt_feeding hfeed e he) hallow hright

open traffic in
theorem a_young_blocked_flow_is_counted :
    let w := world { exact := [host] }
    let s := after 2 1 [.feed 0 (hello (client 2) 1)]
    Gauged w s (.tick (seconds 5)) ∧ (s.tick w (seconds 5)).blocked = 1 := by
  intro w s
  have hyoung : (∀ e ∈ s.conns.entries, isIdle (seconds 5) e.2 = false) ∧
      (s.tick w (seconds 5)).blocked = 1 := by
    decide +kernel
  suffices hgentle : Gentle w s (.tick (seconds 5)) from
    ⟨(the_gauge_is_right_when_a_sweep_leaves_blocked_flows_alone w [] () 2 1
      [.feed 0 (hello (client 2) 1)] (.tick (seconds 5))).1 hgentle, hyoung.2⟩
  refine ⟨?_, fun now h => Op.noConfusion h⟩
  intro e he _ k c hl hidle
  simp only [sweepsAt, List.mem_singleton] at he
  subst he
  have hm : (⟨k, c⟩ : (_ : UInt32) × Conn) ∈ s.conns.entries := List.of_mem_dlookup hl
  rw [hyoung.1 _ hm] at hidle
  cases hidle

open traffic in
/-- A sweep that expires the only blocked flow goes on to show one, in a
table of none. -/
theorem an_expired_flow_is_still_counted :
    let w := world { exact := [host] }
    let s := after 2 1 [.feed 0 (hello (client 2) 1)]
    let t := s.tick w (seconds 61)
    kSweepInterval ≤ seconds 61 - s.lastSweep ∧ t.blocked = 1 ∧ t.blockedCount = 0 ∧
    t.flows = 0 ∧ ¬ GaugeRight t := by
  intro w s t
  have hrun : kSweepInterval ≤ seconds 61 - s.lastSweep ∧ t.blocked = 1 ∧ t.blockedCount = 0 ∧
      t.flows = 0 := by
    decide +kernel
  obtain ⟨hdue, hshown, hcount, hflows⟩ := hrun
  refine ⟨hdue, hshown, hcount, hflows, ?_⟩
  rintro ⟨h, -⟩
  rw [hshown, hcount] at h
  cases h

end packet_inspector.TcpTlsHostnameExtractor
