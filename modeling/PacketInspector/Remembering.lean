-- A block is remembered: the history of a run says which flows are blocked,
-- and a blocked flow stays blocked, and is never asked about again, until
-- the history says that its entry is gone.
import PacketInspector.Flow
import PacketInspector.Idle

open wire packet_inspector.tls runs

namespace packet_inspector.TcpTlsHostnameExtractor

variable {R P : Type} {w : World R P} {s s' u x : TcpTlsHostnameExtractor R P} {k : UInt32}
  {now : Time}

/-! ## What the history says -/

/-- Whether the flow `k` is blocked after an event. -/
def note (k : UInt32) (b : Bool) : Event → Bool
  | .asked key _ v => if key = k ∧ v = .BLOCK then true else b
  | .evicted key => if key = k then false else b
  | .expired key => if key = k then false else b
  | .tracked _ => b
  | .callback _ _ => b

/-- The events neither evict the flow `k` nor expire it. -/
def Keeps (k : UInt32) (es : List Event) : Prop := .evicted k ∉ es ∧ .expired k ∉ es

theorem keeps_append {es es' : List Event} : Keeps k (es ++ es') ↔ Keeps k es ∧ Keeps k es' := by
  simp only [Keeps, List.mem_append, not_or]
  tauto

theorem keeps_cons {e : Event} {es : List Event} (h : Keeps k (e :: es)) : Keeps k es :=
  ⟨fun hm => h.1 (List.mem_cons_of_mem e hm), fun hm => h.2 (List.mem_cons_of_mem e hm)⟩

/-- A blocked flow stays blocked through events that keep it. -/
theorem foldl_note_keeps {es : List Event} (h : Keeps k es) : es.foldl (note k) true = true := by
  induction es with
  | nil => rfl
  | cons e es ih =>
    have he : note k true e = true := by
      cases e with
      | tracked key => rfl
      | callback packet cb => rfl
      | asked key hostname v => simp [note]
      | evicted key =>
        have hne : key ≠ k := by
          rintro rfl
          exact h.1 (by simp)
        simp [note, hne]
      | expired key =>
        have hne : key ≠ k := by
          rintro rfl
          exact h.2 (by simp)
        simp [note, hne]
    rw [List.foldl_cons, he]
    exact ih (keeps_cons h)

/-- The history from `u` to `x` says whether `k` is blocked in `x`, and no
one asks about a blocked flow. -/
def Follows (k : UInt32) (u x : TcpTlsHostnameExtractor R P) : Prop :=
  ∃ es, x.trace = u.trace ++ es ∧ x.blockedConn k = es.foldl (note k) (u.blockedConn k) ∧
    (u.blockedConn k = true → Keeps k es → ∀ h v, .asked k h v ∉ es)

theorem Follows.refl (k : UInt32) (u : TcpTlsHostnameExtractor R P) : Follows k u u :=
  ⟨[], by simp, rfl, by simp⟩

theorem Follows.trans {y : TcpTlsHostnameExtractor R P} (h1 : Follows k u x) (h2 : Follows k x y) :
    Follows k u y := by
  obtain ⟨es, he, hb, hno⟩ := h1
  obtain ⟨es', he', hb', hno'⟩ := h2
  refine ⟨es ++ es', by rw [he', he, List.append_assoc], ?_, ?_⟩
  · rw [List.foldl_append, ← hb]
    exact hb'
  · intro hu hkeep h v hm
    obtain ⟨hkeep1, hkeep2⟩ := keeps_append.mp hkeep
    have hx : x.blockedConn k = true := by
      rw [hb, hu]
      exact foldl_note_keeps hkeep1
    rcases List.mem_append.mp hm with hm | hm
    · exact hno hu hkeep1 h v hm
    · exact hno' hx hkeep2 h v hm

/-- Registering a key that is blocked leaves it blocked. -/
theorem remember_blocked_find_self (s : TcpTlsHostnameExtractor R P) (key : UInt32) :
    (s.remember_blocked key).conns.find key = s.conns.find key := by
  rcases remember_blocked_cases s key with ⟨hr, -⟩ | ⟨hr, -, hk, -⟩
  · rw [hr]
    rfl
  · rw [hr]
    exact AList.find_erase_of_ne _ (fun he => hk he.symm)

theorem remember_blocked_follows (s : TcpTlsHostnameExtractor R P) (key : UInt32) :
    Follows k s (s.remember_blocked key) := by
  rcases remember_blocked_cases s key with ⟨hr, -⟩ | ⟨hr, -, hk, -⟩
  · rw [hr]
    exact Follows.refl k s
  · rw [hr]
    refine ⟨[.evicted s.oldest], rfl, ?_, by simp⟩
    exact forget_blockedConn s s.oldest

theorem resolve_follows {key : UInt32} {c : Conn} {hostname : Option Bytes}
    (hl : s.conns.find key = some c) (hc : c.state = .Wait) :
    Follows k s (s.resolve w key hostname) := by
  have hwait : key = k → s.blockedConn k = false := by
    rintro rfl
    simp [blockedConn, hl, hc]
  cases hv : (w.decide s.policy hostname).1 with
  | ALLOW =>
    rw [resolve_allow hl hc hv, release_eq]
    refine ⟨[.asked key hostname .ALLOW], by simp [hv], ?_, ?_⟩
    · show (s.forget key).blockedConn k = _
      rw [forget_blockedConn]
      simp only [List.foldl_cons, List.foldl_nil, note, reduceCtorEq, and_false, if_false]
      split
      · rename_i he
        exact (hwait he).symm
      · rfl
    · intro hb _ h v hm
      have he := List.mem_singleton.mp hm
      cases he
      rw [hwait rfl] at hb
      cases hb
  | BLOCK =>
    rw [resolve_blocked hl hc hv, release_eq]
    have hput : Follows k s ((s.ask w key hostname).put key (blockConn c)) := by
      refine ⟨[.asked key hostname .BLOCK], by simp [hv], ?_, ?_⟩
      · by_cases hk : key = k
        · subst hk
          simp [note, blockedConn, blockConn]
        · have hk' : k ≠ key := fun he => hk he.symm
          simp [note, hk, blockedConn, AList.find_insert_of_ne _ _ hk']
      · intro hb _ h v hm
        have he := List.mem_singleton.mp hm
        cases he
        rw [hwait rfl] at hb
        cases hb
    exact hput.trans (remember_blocked_follows _ key)

/-- Every step but the flush's clearing follows the history. -/
theorem step_follows {call : Call} (hflush : call ≠ .flush) (hs : Step w now call s s') :
    Follows k s s' := by
  cases hs with
  | books => exact Follows.refl k s
  | heard packet f cb hf hcall hquiet =>
    exact ⟨[.callback packet cb], rfl, rfl, by simp⟩
  | joined packet f c tok data hf hcall hl hc =>
    refine ⟨[.callback packet (.message kClientSide tok data)], rfl, ?_, by simp⟩
    exact put_same_blockedConn (s := s.log _) hl rfl
  | marked key c tok closed hcall hl =>
    exact ⟨[], by simp, put_same_blockedConn hl rfl, by simp⟩
  | touched key c hcall hl =>
    exact ⟨[], by simp, put_same_blockedConn hl rfl, by simp⟩
  | opened key hcall hl hroom =>
    refine ⟨[.tracked key], rfl, put_blockedConn (s := s.log _) ?_, by simp⟩
    simp [blockedConn, hl]
  | released key c ps p hcall hl hheld =>
    exact ⟨[], by simp, put_same_blockedConn hl rfl, by simp⟩
  | resolved key c hostname hl hc hcall hreason => exact resolve_follows hl hc
  | expired key c hl hc hidle =>
    exact ⟨[.expired key], rfl, forget_blockedConn s key, by simp⟩
  | passed hv => exact ⟨[], by simp, rfl, by simp⟩
  | evicted h0 hv =>
    exact ⟨[.evicted s.oldest], rfl, forget_blockedConn s s.oldest, by simp⟩
  | cleared hcall hb => exact absurd hcall hflush

theorem path_follows {call : Call} (hflush : call ≠ .flush) (hp : Path w now call s s') :
    Follows k s s' :=
  path_keeps (I := Follows k s) (fun _ _ hs hx => hx.trans (step_follows hflush hs)) hp
    (Follows.refl k s)

theorem take_follows {p : Packet} (ht : Take w p s s') : Follows k s s' := by
  cases ht with
  | decided v => exact Follows.refl k s
  | refused f => exact Follows.refl k s
  | held f c hf hpay hl hc hroom => exact ⟨[], by simp, put_same_blockedConn hl rfl, by simp⟩

theorem apply_follows (op : Op) (hfeed : s.feeding = false) (hflush : ∀ now, op ≠ .flush now) :
    Follows k s (op.apply w s) := by
  cases op with
  | feed now p =>
    obtain ⟨⟨s1, s2, h1, h2, h3⟩, -⟩ := feed_feeds w now p hfeed
    exact (path_follows (by simp) h1).trans ((take_follows h2).trans (path_follows (by simp) h3))
  | tick now => exact path_follows (by simp) (tick_path w now .tick hfeed).1
  | flush now => exact absurd rfl (hflush now)

/-! ## When a blocked flow expires -/

/-- Between `u` and `x` the flow `k` expires only at a time sixty seconds
after one that `Q` allows. -/
def ExpiresAt (Q : Time → Prop) (k : UInt32) (now : Time) (u x : TcpTlsHostnameExtractor R P) : Prop :=
  ∃ es, x.trace = u.trace ++ es ∧ (.expired k ∈ es → ∃ t, Q t ∧ now - t ≥ kBlockIdleTimeout)

theorem ExpiresAt.refl (Q : Time → Prop) (k : UInt32) (now : Time)
    (u : TcpTlsHostnameExtractor R P) : ExpiresAt Q k now u u := ⟨[], by simp, by simp⟩

theorem ExpiresAt.trans {Q : Time → Prop} {y : TcpTlsHostnameExtractor R P}
    (h1 : ExpiresAt Q k now u x) (h2 : ExpiresAt Q k now x y) : ExpiresAt Q k now u y := by
  obtain ⟨es, he, hes⟩ := h1
  obtain ⟨es', he', hes'⟩ := h2
  refine ⟨es ++ es', by rw [he', he, List.append_assoc], ?_⟩
  intro hm
  exact (List.mem_append.mp hm).elim hes hes'

theorem resolve_not_expired (s : TcpTlsHostnameExtractor R P) (key : UInt32)
    (hostname : Option Bytes) :
    ∃ es, (s.resolve w key hostname).trace = s.trace ++ es ∧ ∀ k, .expired k ∉ es := by
  rcases resolve_eq_self_or w s key hostname with ⟨hr, -⟩ | ⟨c, hl, hc⟩
  · exact ⟨[], by rw [hr, List.append_nil], by simp⟩
  · obtain ⟨es, he, hes⟩ := resolve_trace_of_wait (w := w) hostname hl hc
    refine ⟨_, he, ?_⟩
    intro k hm
    rcases List.mem_cons.mp hm with hm | hm
    · cases hm
    · obtain ⟨k', hk⟩ := hes _ hm
      cases hk

theorem step_expiresAt {Q : Time → Prop} {call : Call} (hs : Step w now call s s')
    (h : Timed (fun _ t => Q t) k s) : ExpiresAt Q k now s s' := by
  have hquiet : ∀ es, s'.trace = s.trace ++ es → .expired k ∉ es → ExpiresAt Q k now s s' :=
    fun es he hno => ⟨es, he, fun hm => absurd hm hno⟩
  cases hs with
  | heard packet f cb hf hcall hq => exact hquiet _ rfl (by simp)
  | joined packet f c tok data hf hcall hl hc => exact hquiet _ rfl (by simp)
  | resolved key c hostname hl hc hcall hreason =>
    obtain ⟨es, he, hno⟩ := resolve_not_expired (w := w) s key hostname
    exact hquiet es he (hno k)
  | expired key c hl hc hidle =>
    refine ⟨[.expired key], rfl, ?_⟩
    intro hm
    have hkey : key = k := by simpa using (List.mem_singleton.mp hm).symm
    subst hkey
    refine ⟨c.last, h c hl, ?_⟩
    simpa [isIdle, idleTimeout, hc] using hidle
  | opened key hcall hl hroom => exact hquiet _ rfl (by simp)
  | evicted h0 hv => exact hquiet _ rfl (by simp)
  | _ => exact ExpiresAt.refl Q k now s

theorem path_expiresAt {Q : Time → Prop} {call : Call} (hp : Path w now call s s')
    (hnow : call.key = some k → Q now) (h : Timed (fun _ t => Q t) k s) :
    ExpiresAt Q k now s s' ∧ Timed (fun _ t => Q t) k s' := by
  refine path_keeps (I := fun y => ExpiresAt Q k now s y ∧ Timed (fun _ t => Q t) k y) ?_ hp
    ⟨ExpiresAt.refl Q k now s, h⟩
  rintro y z hs ⟨hy, ht⟩
  exact ⟨hy.trans (step_expiresAt hs ht), step_timed (fun _ => id) (fun hk _ => hnow hk) hs ht⟩

/-- A call that expires `k` comes sixty seconds after its latest packet. -/
theorem apply_expiresAt {ops : List Op} (op : Op) (hfeed : s.feeding = false)
    (h : Timed (fun _ t => lastFed k ops = some t) k s) :
    ExpiresAt (fun t => lastFed k ops = some t) k op.now s (op.apply w s) := by
  cases op with
  | feed now p =>
    -- the packet that is fed may stamp its entry, which then cannot be idle
    have hstart : Timed (fun _ t => lastFed k ops = some t ∨ t = now) k s :=
      fun c hl => .inl (h c hl)
    obtain ⟨⟨s1, s2, h1, h2, h3⟩, -⟩ := feed_feeds w now p hfeed
    obtain ⟨⟨es, he, hes⟩, ht1⟩ := path_expiresAt h1 (fun _ => .inr rfl) hstart
    obtain ⟨⟨es', he', hes'⟩, -⟩ := path_expiresAt h3 (fun _ => .inr rfl) (take_timed h2 ht1)
    have hold : ∀ t, (lastFed k ops = some t ∨ t = now) → now - t ≥ kBlockIdleTimeout →
        lastFed k ops = some t := by
      rintro t (ht | rfl) hidle
      · exact ht
      · rw [sub_self] at hidle
        exact absurd hidle (by decide)
    refine ⟨es ++ es', ?_, ?_⟩
    · show (s.feed w now p.val).trace = _
      rw [he', take_trace h2, he, List.append_assoc]
    · intro hm
      obtain ⟨t, hq, hidle⟩ := (List.mem_append.mp hm).elim hes hes'
      exact ⟨t, hold t hq hidle, hidle⟩
  | tick now =>
    exact (path_expiresAt (tick_path w now .tick hfeed).1 (by simp [Call.key]) h).1
  | flush now =>
    exact (path_expiresAt (flush_path w now hfeed).1 (by simp [Call.key]) h).1

/-! ## The law -/

/-- Between two states the flow `k` is resolved to BLOCK, and not lost after. -/
def BlockedSince (k : UInt32) (s s' : TcpTlsHostnameExtractor R P) : Prop :=
  ∃ es hostname es', s'.trace = s.trace ++ es ++ .asked k hostname .BLOCK :: es' ∧ Keeps k es'

/-- The entry of `k` is removed in a call: by a flush, by an eviction from
the ring of blocked keys, or by a sweep. -/
def Removed (w : World R P) (k : UInt32) (u : TcpTlsHostnameExtractor R P) (op : Op) : Prop :=
  (∃ now, op = .flush now) ∨ Lost k u (op.apply w u)

/-- What a call does about a flow that stays blocked: it does not ask about
it, and drops its packet at once. -/
structure Remembered (w : World R P) (k : UInt32) (u : TcpTlsHostnameExtractor R P) (op : Op) :
    Prop where
  stays : (op.apply w u).blockedConn k = true
  unasked : ∀ es, (op.apply w u).trace = u.trace ++ es → ∀ hostname v, .asked k hostname v ∉ es
  drops : ∀ now p, op = .feed now p → keyOf p.val = some k →
    ∃ c, (u.tick w now).conns.find k = some c ∧ c.state = .Block ∧
      u.feed w now p.val =
        (((u.tick w now).put k { c with last := now }).decide p.val .BLOCK).publish

theorem keeps_of_not_lost {es : List Event} (h : ¬ Lost k u x) (ht : x.trace = u.trace ++ es) :
    Keeps k es :=
  ⟨fun hm => h ⟨es, ht, .inl hm⟩, fun hm => h ⟨es, ht, .inr hm⟩⟩

theorem Follows.blocked {es es' : List Event} {hostname : Option Bytes} (h : Follows k u x)
    (ht : x.trace = u.trace ++ es ++ .asked k hostname .BLOCK :: es') (hkeep : Keeps k es') :
    x.blockedConn k = true := by
  obtain ⟨all, he, hb, -⟩ := h
  have hall : all = es ++ .asked k hostname .BLOCK :: es' := by
    rw [he, List.append_assoc] at ht
    exact List.append_cancel_left ht
  have hask : ∀ b, note k b (.asked k hostname .BLOCK) = true := by simp [note]
  rw [hb, hall, List.foldl_append, List.foldl_cons, hask]
  exact foldl_note_keeps hkeep

/-- A call that does not remove a blocked flow remembers it. -/
theorem remembered_of_not_removed {op : Op} (hfeed : u.feeding = false)
    (hb : u.blockedConn k = true) (hkept : ¬ Removed w k u op) : Remembered w k u op := by
  have hflush : ∀ now, op ≠ .flush now := fun now he => hkept (.inl ⟨now, he⟩)
  have hlost : ¬ Lost k u (op.apply w u) := fun hl => hkept (.inr hl)
  obtain ⟨all, he, hfold, hno⟩ := apply_follows (w := w) (k := k) op hfeed hflush
  have hkeep : Keeps k all := keeps_of_not_lost hlost he
  refine ⟨?_, ?_, ?_⟩
  · rw [hfold, hb]
    exact foldl_note_keeps hkeep
  · intro es hes hostname v hm
    rw [he] at hes
    rw [← List.append_cancel_left hes] at hm
    exact hno hb hkeep hostname v hm
  · rintro now p rfl hkey
    obtain ⟨f, hf, rfl⟩ := Option.map_eq_some_iff.mp hkey
    have hfollow : Follows f.key u (u.tick w now) :=
      path_follows (by simp) (tick_path w now .tick hfeed).1
    obtain ⟨es, het, hbt, -⟩ := hfollow
    have htick : (u.tick w now).blockedConn f.key = true := by
      rw [hbt, hb]
      refine foldl_note_keeps (keeps_of_not_lost ?_ het)
      -- what the tick loses, the call loses
      intro hl
      exact hlost (hl.after (feed_grows hf hfeed))
    obtain ⟨c, hl, hc⟩ := blockedConn_iff.mp htick
    exact ⟨c, hl, hc, feed_of_blocked hf hl hc⟩

/-- As long as no call removes it, a blocked flow is remembered. -/
theorem remembered_later {later : List Op} (hfeed : u.feeding = false)
    (hb : u.blockedConn k = true)
    (hkept : ∀ pre op post, later = pre ++ op :: post →
      ¬ Removed w k (pre.foldl (Op.apply w) u) op) {pre post : List Op} {op : Op}
    (hlater : later = pre ++ op :: post) :
    Remembered w k (pre.foldl (Op.apply w) u) op := by
  induction pre using List.reverseRecOn generalizing op post with
  | nil => exact remembered_of_not_removed hfeed hb (hkept [] op post hlater)
  | append_singleton pre op' ih =>
    have hbefore := @ih (op :: post) op' (by rw [hlater, List.append_assoc]; rfl)
    have hfeed' := (run_decided (w := w) (pre ++ [op']) hfeed).2
    refine remembered_of_not_removed hfeed' ?_ (hkept _ op post hlater)
    rw [List.foldl_append]
    exact hbefore.stays

/-- After the call in which a flow is resolved to BLOCK, its entry stays
blocked, it is never asked about again, and every packet of it is dropped in
its own call, until the entry is removed. A sweep removes it sixty seconds
after its latest packet, and registering a blocked key evicts another one. -/
theorem a_block_is_remembered_until_its_entry_is_removed (w : World R P) (r : R) (p : P)
    (max_flows max_blocked : Nat) (ops : List Op) (k : UInt32) :
    let s := ops.foldl (Op.apply w) (init r p max_flows max_blocked)
    (∀ now pkt later,
      let u := s.feed w now (pkt : Arrival).val
      BlockedSince k s u →
      (∀ pre op post, later = pre ++ op :: post → ¬ Removed w k (pre.foldl (Op.apply w) u) op) →
      u.blockedConn k = true ∧
      ∀ pre op post, later = pre ++ op :: post →
        Remembered w k (pre.foldl (Op.apply w) u) op) ∧
    (∀ (op : Op) es, (op.apply w s).trace = s.trace ++ es → .expired k ∈ es →
      ∃ last, lastFed k ops = some last ∧ op.now - last ≥ seconds 60) ∧
    ∀ x : TcpTlsHostnameExtractor R P,
      (x.remember_blocked k).conns.find k = x.conns.find k := by
  intro s
  have hfeed : s.feeding = false := (accounted_run w r p max_flows max_blocked ops).2
  refine ⟨?_, ?_, ?_⟩
  · rintro now pkt later u ⟨es, hostname, es', ht, hkeep⟩ hkept
    have hfollow : Follows k s u := apply_follows (.feed now pkt) hfeed (by simp)
    have hb : u.blockedConn k = true := hfollow.blocked ht hkeep
    refine ⟨hb, ?_⟩
    intro pre op post hlater
    exact remembered_later (apply_feeding (.feed now pkt) hfeed) hb hkept hlater
  · intro op es ht hm
    have hstamped : Timed (fun _ t => lastFed k ops = some t) k s :=
      fun c hl => run_lastFed w r p max_flows max_blocked ops hl
    obtain ⟨es', ht', hexp⟩ := apply_expiresAt (w := w) op hfeed hstamped
    rw [ht'] at ht
    exact hexp (List.append_cancel_left ht ▸ hm)
  · intro x
    exact remember_blocked_find_self x k

open traffic in
theorem a_segment_after_a_blocked_hello_is_dropped :
    let w := world { exact := [host] }
    let q := segmentOf (client 2) 65 [0x17, 0x03, 0x03] 3
    let s := after 2 1 [.feed 0 (syn (client 2) 1)]
    let u := s.feed w 0 (hello (client 2) 2).val
    u.blockedConn 3561989440 = true ∧ keyOf q.val = some 3561989440 ∧
    Remembered w 3561989440 u (.feed 0 q) := by
  intro w q s u
  have hevents : u.trace = s.trace ++
      [.callback (hello (client 2) 2).val.bytes (.message 0 3561989441 (client_hello host))] ++
      [.asked 3561989440 (some host) .BLOCK] ∧ (u.feed w 0 q.val).trace = u.trace := by
    decide +kernel
  have hkept : ∀ pre op post, [Op.feed 0 q] = pre ++ op :: post →
      ¬ Removed w 3561989440 (pre.foldl (Op.apply w) u) op := by
    intro pre op post hlater
    obtain ⟨rfl, rfl⟩ : pre = [] ∧ op = .feed 0 q := by
      cases pre with
      | nil => simpa using (congrArg List.head? hlater).symm
      | cons op' pre => simp at hlater
    rintro (⟨now, h⟩ | ⟨es, he, hm⟩)
    · cases h
    · have hnil : es = [] := by
        have hself := hevents.2.symm.trans he
        exact List.self_eq_append_right.mp hself
      rw [hnil] at hm
      simp at hm
  obtain ⟨hb, hlater⟩ := (a_block_is_remembered_until_its_entry_is_removed w [] () 2 1
    [.feed 0 (syn (client 2) 1)] 3561989440).1 0 (hello (client 2) 2) [.feed 0 q]
    ⟨_, some host, [], hevents.1, by simp [Keeps]⟩ hkept
  exact ⟨hb, by decide +kernel, hlater [] (.feed 0 q) [] rfl⟩

open traffic in
/-- A datagram whose key is that of a blocked flow is let through in its own
call, with the entry of the flow in place. -/
theorem a_datagram_of_a_remembered_key_passes :
    let udp := owned (build_udp ⟨[10, 8, 163, 206], 20044⟩ server [0x01]) 3
    let s := after 2 1 [.feed 0 (syn (client 2) 1), .feed 0 (hello (client 2) 2)]
    let u := s.feed (world { exact := [host] }) 0 udp.val
    (udp.val.flow_view {}).1 = true ∧ udp.val.flow_key = 3561989440 ∧
    .asked 3561989440 (some host) .BLOCK ∈ s.trace ∧ s.blockedConn 3561989440 = true ∧
    u.blockedConn 3561989440 = true ∧
    s.decided.map (fun d => (d.pkt.id, d.verdict)) = [(1, .ALLOW), (2, .BLOCK)] ∧
    u.decided.map (fun d => (d.pkt.id, d.verdict)) = [(1, .ALLOW), (2, .BLOCK), (3, .ALLOW)] := by
  decide +kernel

end packet_inspector.TcpTlsHostnameExtractor
