-- The order of the ring of blocked keys. From the cursor on, the newest slots
-- of the blocked flows stand in the order in which these were registered.
import PacketInspector.BlockRing
import PacketInspector.Recency

open wire packet_inspector.tls runs recency

namespace packet_inspector

variable {R P : Type} {w : World R P}

/-- The key that an event registers as blocked. -/
def Event.registers : Event → Option UInt32
  | .asked key _ .BLOCK => some key
  | _ => none

namespace TcpTlsHostnameExtractor

variable {s s' : TcpTlsHostnameExtractor R P}

/-! ## The slots and the registrations -/

/-- The slots of the ring, the one to overwrite next first. -/
def slots (s : TcpTlsHostnameExtractor R P) : List UInt32 := s.block_ring.rotate s.block_next

/-- The keys that were registered as blocked, in order. -/
def registrations (s : TcpTlsHostnameExtractor R P) : List UInt32 :=
  s.trace.filterMap Event.registers

theorem slots_eq_cons (hlen : s.block_ring.length = s.max_blocked)
    (hnext : s.block_next < s.max_blocked) : s.slots = s.oldest :: s.slots.tail := by
  have hlt : s.block_next < s.block_ring.length := hlen ▸ hnext
  unfold slots oldest
  rw [List.rotate_eq_drop_append_take hlt.le, List.drop_eq_getElem_cons hlt,
    List.getD_eq_getElem _ _ hlt]
  rfl

/-- A turn takes the first slot, and comes back with it as the last one. -/
theorem slots_turn (hlen : s.block_ring.length = s.max_blocked)
    (hnext : s.block_next < s.max_blocked) (key : UInt32) :
    (s.turn key).slots = s.slots.tail ++ [key] := by
  unfold slots
  simp only [turn_block_ring, turn_block_next]
  rw [← hlen]
  exact rotate_set_next (hlen ▸ hnext) key

theorem mem_slots {k : UInt32} : k ∈ s.slots ↔ k ∈ s.block_ring := List.mem_rotate

/-! ## The invariant -/

/-- The blocked flows were all registered, and the newest slots of any two of
them stand in the order of their registrations. -/
structure InOrder (s : TcpTlsHostnameExtractor R P) : Prop where
  ringed : Ringed s
  registered : ∀ k, s.blockedConn k = true → k ∈ s.registrations
  order : ∀ k k', k ≠ 0 → k' ≠ 0 → s.blockedConn k = true → s.blockedConn k' = true →
    Before s.slots k k' → Before s.registrations k k'

/-- The same of a state in which the flow of `key` is being registered: it
is blocked and has no slot yet. -/
structure Registering (key : UInt32) (s : TcpTlsHostnameExtractor R P) : Prop where
  length_ring : s.block_ring.length = s.max_blocked
  next_lt : s.block_next < s.max_blocked
  named : ∀ k, k ≠ 0 → k ≠ key → s.blockedConn k = true → k ∈ s.slots
  order : ∀ k k', k ≠ 0 → k' ≠ 0 → k ≠ key → k' ≠ key → s.blockedConn k = true →
    s.blockedConn k' = true → Before s.slots k k' → Before s.registrations k k'
  newest : ∀ k, k ≠ key → s.blockedConn k = true → Before s.registrations k key
  registered : key ∈ s.registrations

theorem blockedConn_of_forget {key k : UInt32} (h : (s.forget key).blockedConn k = true) :
    s.blockedConn k = true := by
  rw [forget_blockedConn] at h
  split at h
  · cases h
  · exact h

theorem blockedConn_of_put_wait {key k : UInt32} {c : Conn} (hc : c.state = .Wait)
    (h : (s.put key c).blockedConn k = true) : s.blockedConn k = true := by
  by_cases hk : k = key
  · obtain ⟨c', hf, hb⟩ := blockedConn_iff.mp h
    rw [hk, put_conns, AList.find_insert_self] at hf
    cases hf
    rw [hc] at hb
    cases hb
  · rwa [put_blockedConn_of_ne hk] at h

theorem InOrder.named (h : InOrder s) {k : UInt32} (hk : k ≠ 0) (hb : s.blockedConn k = true) :
    k ∈ s.slots := by
  obtain ⟨c, hf, hc⟩ := blockedConn_iff.mp hb
  exact mem_slots.mpr (h.ringed.named k c hk hf hc)

/-- The invariant speaks of fewer flows when fewer are blocked. -/
theorem InOrder.fewer (h : InOrder s) (hr : Ringed s')
    (hb : ∀ k, s'.blockedConn k = true → s.blockedConn k = true) (hslots : s'.slots = s.slots)
    (hregs : s'.registrations = s.registrations) : InOrder s' := by
  refine ⟨hr, ?_, ?_⟩
  · intro k hk
    rw [hregs]
    exact h.registered k (hb k hk)
  · intro k k' h0 h0' hk hk'
    rw [hslots, hregs]
    exact h.order k k' h0 h0' (hb k hk) (hb k' hk')

/-- A turn that writes an empty slot. -/
theorem InOrder.fewer_turn (h : InOrder s) (hr : Ringed s')
    (hb : ∀ k, s'.blockedConn k = true → s.blockedConn k = true)
    (hslots : s'.slots = s.slots.tail ++ [0]) (hregs : s'.registrations = s.registrations) :
    InOrder s' := by
  refine ⟨hr, ?_, ?_⟩
  · intro k hk
    rw [hregs]
    exact h.registered k (hb k hk)
  · intro k k' h0 h0' hk hk' hbefore
    rw [hslots, before_concat_iff] at hbefore
    have htail : Before s.slots.tail k k' := hbefore.2.resolve_right (fun he => h0' he.2)
    rw [hregs]
    refine h.order k k' h0 h0' (hb k hk) (hb k' hk') ?_
    rw [slots_eq_cons h.ringed.length_ring h.ringed.next_lt]
    exact htail.cons _

theorem registrations_log {e : Event} (h : Event.registers e = none) :
    (s.log e).registrations = s.registrations := by
  unfold registrations
  rw [log_trace, List.filterMap_append]
  simp [h]

/-- The question of a flow that is then blocked, and its entry. -/
theorem InOrder.registering (h : InOrder s) {key : UInt32} {c : Conn} {hostname : Option Bytes}
    (hv : (w.decide s.policy hostname).1 = .BLOCK) :
    Registering key ((s.ask w key hostname).put key (blockConn c)) := by
  have hregs : ((s.ask w key hostname).put key (blockConn c)).registrations =
      s.registrations ++ [key] := by
    unfold registrations
    rw [put_trace, ask_trace, List.filterMap_append, hv]
    rfl
  have hblocked : ∀ k, k ≠ key →
      ((s.ask w key hostname).put key (blockConn c)).blockedConn k = true →
      s.blockedConn k = true := by
    intro k hk hb
    rwa [put_blockedConn_of_ne hk] at hb
  refine ⟨h.ringed.length_ring, h.ringed.next_lt, ?_, ?_, ?_, ?_⟩
  · exact fun k h0 hk hb => h.named h0 (hblocked k hk hb)
  · intro k k' h0 h0' hk hk' hb hb' hbefore
    rw [hregs]
    exact (h.order k k' h0 h0' (hblocked k hk hb) (hblocked k' hk' hb') hbefore).concat hk
  · intro k hk hb
    rw [hregs]
    exact before_concat_iff.mpr ⟨hk, .inr ⟨h.registered k (hblocked k hk hb), rfl⟩⟩
  · rw [hregs]
    simp

/-- Registering a flow keeps the order, whoever leaves for it. -/
theorem Registering.remember_blocked {key : UInt32} (h : Registering key s)
    (hr : Ringed (s.remember_blocked key)) : InOrder (s.remember_blocked key) := by
  have hall : ∀ x : TcpTlsHostnameExtractor R P, Ringed (x.turn key) → x.registrations = s.registrations →
      x.block_ring = s.block_ring → x.block_next = s.block_next → x.max_blocked = s.max_blocked →
      (∀ k, x.blockedConn k = true → s.blockedConn k = true) → InOrder (x.turn key) := by
    intro x hx hregs hring hnext hmax hfewer
    have hslots : (x.turn key).slots = s.slots.tail ++ [key] := by
      rw [slots_turn (by rw [hring, hmax]; exact h.length_ring) (by rw [hnext, hmax]; exact h.next_lt)]
      unfold slots
      rw [hring, hnext]
    have hnewest : ∀ k, k ≠ key → s.blockedConn k = true → Before s.registrations k key := h.newest
    refine ⟨hx, ?_, ?_⟩
    · intro k hk
      show k ∈ x.registrations
      rw [hregs]
      by_cases he : k = key
      · rw [he]
        exact h.registered
      · exact (hnewest k he (hfewer k hk)).1
    · intro k k' h0 h0' hk hk' hbefore
      show Before x.registrations k k'
      rw [hregs]
      rw [hslots, before_concat_iff] at hbefore
      obtain ⟨hne, hbefore⟩ := hbefore
      by_cases he : k' = key
      · rw [he]
        exact hnewest k hne (hfewer k hk)
      · have htail := hbefore.resolve_right (fun hx => he hx.2)
        refine h.order k k' h0 h0' hne he (hfewer k hk) (hfewer k' hk') ?_
        rw [slots_eq_cons h.length_ring h.next_lt]
        exact htail.cons _
  rcases remember_blocked_cases s key with ⟨he, -⟩ | ⟨he, -⟩
  · rw [he] at hr ⊢
    exact hall s hr rfl rfl rfl rfl (fun k hk => hk)
  · rw [he] at hr ⊢
    refine hall _ hr (registrations_log (s := s.forget s.oldest) rfl) rfl rfl rfl ?_
    intro k hk
    exact blockedConn_of_forget hk

/-! ## Every step keeps it -/

theorem InOrder.put_same (h : InOrder s) {key : UInt32} {c c' : Conn}
    (hl : s.conns.find key = some c) (hc : c'.state = c.state) : InOrder (s.put key c') :=
  h.fewer (h.ringed.put_same hl hc)
    (fun _ hk => (put_same_blockedConn hl hc).symm.trans hk) rfl rfl

theorem InOrder.log (h : InOrder s) {e : Event} (he : Event.registers e = none) :
    InOrder (s.log e) :=
  h.fewer (h.ringed.congr rfl rfl rfl rfl rfl) (fun _ hk => hk) rfl (registrations_log he)

theorem InOrder.forget (h : InOrder s) (key : UInt32) : InOrder (s.forget key) :=
  h.fewer (h.ringed.forget key) (fun _ => blockedConn_of_forget) rfl rfl

theorem InOrder.resolve (h : InOrder s) (w : World R P) (key : UInt32) (hostname : Option Bytes) :
    InOrder (s.resolve w key hostname) := by
  rcases resolve_eq_self_or w s key hostname with ⟨he, -⟩ | ⟨c, hl, hc⟩
  · rw [he]
    exact h
  · have hr : Ringed (s.resolve w key hostname) := h.ringed.resolve hl hc
    cases hv : (w.decide s.policy hostname).1 with
    | ALLOW =>
      have hregs : (s.ask w key hostname).registrations = s.registrations := by
        unfold registrations
        rw [ask_trace, List.filterMap_append, hv]
        simp [Event.registers]
      rw [resolve_allow hl hc hv, release_eq] at hr ⊢
      exact h.fewer hr (fun _ hk => blockedConn_of_forget (s := s.ask w key hostname) hk) rfl hregs
    | BLOCK =>
      have hring : Ringed (((s.ask w key hostname).put key (blockConn c)).remember_blocked key) := by
        have hasked : Ringed (s.ask w key hostname) := h.ringed.congr rfl rfl rfl rfl rfl
        exact hasked.remember_blocked hl
      have hin := (h.registering hv).remember_blocked hring
      rw [resolve_blocked hl hc hv, release_eq] at hr ⊢
      exact hin.fewer hr (fun _ hk => hk) rfl rfl

theorem inOrder_step {now : Time} {call : Call} (hs : Step w now call s s') (h : InOrder s) :
    InOrder s' := by
  have hr : Ringed s' := ringed_step hs h.ringed
  cases hs with
  | books => exact h.fewer hr (fun _ hk => hk) rfl rfl
  | heard packet f cb => exact h.log rfl
  | joined packet f c tok data hf hcall hl hc =>
    have hlog : InOrder (s.log (.callback packet (.message kClientSide tok data))) := h.log rfl
    exact hlog.put_same hl rfl
  | marked key c tok closed hcall hl => exact h.put_same hl rfl
  | touched key c hcall hl => exact h.put_same hl rfl
  | opened key hcall hl hroom =>
    have hlog : InOrder (s.log (.tracked key)) := h.log rfl
    exact hlog.fewer hr (fun _ => blockedConn_of_put_wait rfl) rfl rfl
  | released key c ps p hcall hl hheld => exact h.put_same hl rfl
  | resolved key c hostname => exact h.resolve w key hostname
  | expired key c => exact (h.forget key).log rfl
  | passed =>
    exact h.fewer_turn hr (fun _ hk => hk) (slots_turn h.ringed.length_ring h.ringed.next_lt 0) rfl
  | evicted =>
    refine h.fewer_turn hr (fun _ hk => blockedConn_of_forget (s := s.turn 0) hk)
      (slots_turn h.ringed.length_ring h.ringed.next_lt 0) ?_
    exact registrations_log (s := (s.turn 0).forget s.oldest) rfl
  | cleared => exact h.fewer hr (fun _ hk => by cases hk) rfl rfl

theorem inOrder_take {p : Packet} (ht : Take w p s s') (h : InOrder s) : InOrder s' := by
  cases ht with
  | decided v => exact h.fewer (h.ringed.congr rfl rfl rfl rfl rfl) (fun _ hk => hk) rfl rfl
  | refused f => exact h.fewer (h.ringed.congr rfl rfl rfl rfl rfl) (fun _ hk => hk) rfl rfl
  | held f c hf hpay hl => exact h.put_same hl rfl

theorem inOrder_path {now : Time} {call : Call} (hp : Path w now call s s') (h : InOrder s) :
    InOrder s' :=
  path_keeps (I := InOrder) (fun _ _ hs hx => inOrder_step hs hx) hp h

theorem inOrder_init (r : R) (p : P) (max_flows max_blocked : Nat) :
    InOrder (init r p max_flows max_blocked) := by
  refine ⟨ringed_init r p max_flows max_blocked, ?_, ?_⟩
  · intro k hk
    cases hk
  · intro k k' _ _ hk
    cases hk

end TcpTlsHostnameExtractor

end packet_inspector
