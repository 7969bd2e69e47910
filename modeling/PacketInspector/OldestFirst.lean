-- Who leaves when the ring of blocked keys evicts a flow: the oldest one and
-- only for a full ring, if and only if no slot is stale where it matters.
import PacketInspector.Evictions
import PacketInspector.RingOrder

open wire packet_inspector.tls runs recency

namespace packet_inspector

variable {R P : Type} {w : World R P}

namespace TcpTlsHostnameExtractor

variable {s s' : TcpTlsHostnameExtractor R P}

/-! ## Who is evicted -/

/-- The first slot that names a blocked flow. -/
def firstBlocked (s : TcpTlsHostnameExtractor R P) : Option UInt32 :=
  s.slots.find? (fun k => k ≠ 0 ∧ s.blockedConn k = true)

theorem firstBlocked_some {v : UInt32} (h : s.firstBlocked = some v) :
    v ≠ 0 ∧ s.blockedConn v = true := by
  simpa using List.find?_some h

/-- The turns visit the slots in order, until one names a blocked flow. -/
theorem evictTurns_conns {left : Nat} (hlen : s.block_ring.length = s.max_blocked)
    (hnext : s.block_next < s.max_blocked) (hleft : left ≤ s.max_blocked) :
    (evictTurns left s).2.conns =
      match (s.slots.take left).find? (fun k => k ≠ 0 ∧ s.blockedConn k = true) with
      | some v => s.conns.erase v
      | none => s.conns := by
  induction left generalizing s with
  | zero => rfl
  | succ left ih =>
    have hslots := slots_eq_cons hlen hnext
    have hlength : s.slots.tail.length + 1 = s.max_blocked := by
      rw [← hlen, ← List.length_rotate s.block_ring s.block_next]
      exact congrArg List.length hslots.symm
    have hturn := ih (s := s.turn 0) (by simpa using hlen) (Nat.mod_lt _ (Nat.zero_lt_of_lt hnext))
      (Nat.le_of_succ_le hleft)
    rw [slots_turn hlen hnext, List.take_append_of_le_length (by omega)] at hturn
    unfold evictTurns
    rw [hslots, List.take_succ_cons]
    split
    · rename_i hv
      rw [List.find?_cons_of_pos (by simpa using hv)]
      rfl
    · rename_i hv
      rw [List.find?_cons_of_neg (by simpa using hv)]
      exact hturn

/-- The search for the oldest blocked flow takes the first one of the slots. -/
theorem evict_oldest_blocked_conns (h : Ringed s) : s.evict_oldest_blocked.2.conns =
    match s.firstBlocked with
    | some v => s.conns.erase v
    | none => s.conns := by
  unfold evict_oldest_blocked
  rw [evictTurns_conns h.length_ring h.next_lt (Nat.le_refl _), List.take_of_length_le]
  · rfl
  · rw [slots, List.length_rotate, h.length_ring]

/-- The blocked flow of `v` was registered before every other one. -/
def Earliest (s : TcpTlsHostnameExtractor R P) (v : UInt32) : Prop :=
  ∀ k ∈ s.blockedKeys, k ≠ v → Before s.registrations v k

instance (v : UInt32) : Decidable (s.Earliest v) :=
  List.decidableBAll (fun k => k ≠ v → Before s.registrations v k) s.blockedKeys

end TcpTlsHostnameExtractor

namespace Eviction

open TcpTlsHostnameExtractor

variable (m : Eviction R P)

/-- As many flows as the ring has slots are blocked besides the new one. -/
def Full : Eviction R P → Prop
  | .remember key s => s.max_blocked ≤ (s.blockedKeys.erase key).length
  | .evictOldest _ => True

/-- The call takes out the oldest blocked flow only, and a registration does
so only when the ring is full. -/
def OldestFirst : Prop := ∀ v ∈ m.removed, m.state.Earliest v ∧ m.Full

/-- The slots tell the truth where it matters: a registration whose slot
names another blocked flow meets a ring of as many other blocked flows as it
has slots, and no slot behind the one where the search stops names that flow
again, past another one. -/
def Fresh : Eviction R P → Prop
  | .remember key s =>
    s.oldest ≠ 0 → s.oldest ≠ key → s.blockedConn s.oldest = true →
      s.block_ring.Nodup ∧ ∀ k ∈ s.block_ring, k ≠ key ∧ s.blockedConn k = true
  | .evictOldest s =>
    ∀ v ∈ s.firstBlocked, ∀ k ∈ s.blockedKeys, k ≠ v → Before s.slots v k

instance : Decidable m.Full :=
  match m with
  | .remember key s => inferInstanceAs (Decidable (s.max_blocked ≤ (s.blockedKeys.erase key).length))
  | .evictOldest _ => inferInstanceAs (Decidable True)

instance : Decidable m.OldestFirst :=
  List.decidableBAll (fun v => m.state.Earliest v ∧ m.Full) m.removed

-- The lists are searched, and not all keys: those are many.
instance : Decidable m.Fresh :=
  match m with
  | .remember key s =>
    haveI : Decidable (∀ k ∈ s.block_ring, k ≠ key ∧ s.blockedConn k = true) :=
      List.decidableBAll (fun k => k ≠ key ∧ s.blockedConn k = true) s.block_ring
    inferInstanceAs (Decidable (s.oldest ≠ 0 → s.oldest ≠ key → s.blockedConn s.oldest = true →
      s.block_ring.Nodup ∧ ∀ k ∈ s.block_ring, k ≠ key ∧ s.blockedConn k = true))
  | .evictOldest s =>
    haveI (v : UInt32) : Decidable (∀ k ∈ s.blockedKeys, k ≠ v → Before s.slots v k) :=
      List.decidableBAll (fun k => k ≠ v → Before s.slots v k) s.blockedKeys
    Option.decidableForallMem s.firstBlocked

/-- What holds of the state in which a call is made. -/
def Sound : Eviction R P → Prop
  | .remember key s => Registering key s
  | .evictOldest s => InOrder s

variable {m} {s : TcpTlsHostnameExtractor R P} {key v : UInt32}

theorem mem_removed_evictOldest (h : Ringed s) :
    v ∈ (Eviction.evictOldest s).removed ↔ s.firstBlocked = some v := by
  have hconns := evict_oldest_blocked_conns h
  cases hfirst : s.firstBlocked with
  | none =>
    rw [hfirst] at hconns
    rw [removed_of_same (m := .evictOldest s) hconns]
    simp
  | some u =>
    rw [hfirst] at hconns
    rw [removed_of_erase (m := .evictOldest s) (firstBlocked_some hfirst).2 hconns]
    simp [eq_comm]

theorem mem_removed_remember :
    v ∈ (Eviction.remember key s).removed ↔
      v = s.oldest ∧ s.oldest ≠ 0 ∧ s.oldest ≠ key ∧ s.blockedConn s.oldest = true := by
  rcases remember_blocked_cases s key with ⟨he, hno⟩ | ⟨he, hyes⟩
  · have hsame : (Eviction.remember key s).after.conns = s.conns := congrArg (·.conns) he
    rw [removed_of_same (m := .remember key s) hsame]
    refine ⟨fun hv => (by cases hv), ?_⟩
    rintro ⟨-, h0, hk, hb⟩
    rcases hno with h | h | h
    · exact absurd h h0
    · exact absurd h hk
    · rw [hb] at h
      cases h
  · have herase : (Eviction.remember key s).after.conns = s.conns.erase s.oldest :=
      congrArg (·.conns) he
    rw [removed_of_erase (m := .remember key s) hyes.2.2 herase, List.mem_singleton]
    exact ⟨fun hv => ⟨hv, hyes⟩, fun hv => hv.1⟩

theorem blockedKeys_ne_zero {k : UInt32} (hzero : s.blockedConn 0 = false)
    (hk : k ∈ s.blockedKeys) : k ≠ 0 := by
  rintro rfl
  rw [mem_blockedKeys_iff, hzero] at hk
  cases hk

/-- The search takes out the oldest flow if and only if no slot misleads it. -/
theorem evictOldest_iff (h : InOrder s)
    (hzero : ∀ v ∈ (Eviction.evictOldest s).removed, s.blockedConn 0 = false) :
    (Eviction.evictOldest s).OldestFirst ↔ (Eviction.evictOldest s).Fresh := by
  have hiff : ∀ v, s.firstBlocked = some v → ∀ k ∈ s.blockedKeys, k ≠ v →
      (Before s.registrations v k ↔ Before s.slots v k) := by
    intro v hfirst k hk hne
    obtain ⟨hv0, hvb⟩ := firstBlocked_some hfirst
    have hk0 := blockedKeys_ne_zero (hzero v ((mem_removed_evictOldest h.ringed).mpr hfirst)) hk
    rw [mem_blockedKeys_iff] at hk
    constructor
    · intro hregs
      refine (before_total (h.named hv0 hvb) (h.named hk0 hk) hne.symm).resolve_right ?_
      intro hslots
      exact hregs.asymm (h.order k v hk0 hv0 hk hvb hslots)
    · exact h.order v k hv0 hk0 hvb hk
  constructor
  · intro hold v hfirst k hk hne
    have hearliest := (hold v ((mem_removed_evictOldest h.ringed).mpr hfirst)).1
    exact (hiff v hfirst k hk hne).mp (hearliest k hk hne)
  · intro hfresh v hv
    have hfirst := (mem_removed_evictOldest h.ringed).mp hv
    refine ⟨?_, trivial⟩
    intro k hk hne
    exact (hiff v hfirst k hk hne).mpr (hfresh v hfirst k hk hne)

theorem mem_others_iff {k : UInt32} :
    k ∈ s.blockedKeys.erase key ↔ k ≠ key ∧ s.blockedConn k = true := by
  rw [(blockedKeys_nodup s).mem_erase_iff, mem_blockedKeys_iff]

/-- As many flows as there are slots are blocked besides the new one if and
only if each slot names one of them, and no two the same. -/
theorem full_iff (h : Registering key s) (hzero : s.blockedConn 0 = false) :
    (Eviction.remember key s).Full ↔
      s.block_ring.Nodup ∧ ∀ k ∈ s.block_ring, k ≠ key ∧ s.blockedConn k = true := by
  have hnodup : (s.blockedKeys.erase key).Nodup := (blockedKeys_nodup s).erase key
  show s.max_blocked ≤ (s.blockedKeys.erase key).length ↔ _
  rw [← h.length_ring]
  constructor
  · intro hfull
    have hsub : s.blockedKeys.erase key ⊆ s.block_ring := by
      intro k hk
      obtain ⟨hne, hb⟩ := mem_others_iff.mp hk
      exact mem_slots.mp (h.named k (blockedKeys_ne_zero hzero (mem_blockedKeys_iff.mpr hb)) hne hb)
    have hperm := (hnodup.subperm hsub).perm_of_length_le hfull
    exact ⟨hperm.nodup_iff.mp hnodup, fun k hk => mem_others_iff.mp (hperm.mem_iff.mpr hk)⟩
  · rintro ⟨hring, hall⟩
    exact (hring.subperm fun k hk => mem_others_iff.mpr (hall k hk)).length_le

/-- A registration evicts the oldest flow of a full ring if and only if the
ring is that full. -/
theorem remember_iff (h : Registering key s)
    (hzero : ∀ v ∈ (Eviction.remember key s).removed, s.blockedConn 0 = false) :
    (Eviction.remember key s).OldestFirst ↔ (Eviction.remember key s).Fresh := by
  constructor
  · intro hold h0 hne hb
    have hv : s.oldest ∈ (Eviction.remember key s).removed :=
      mem_removed_remember.mpr ⟨rfl, h0, hne, hb⟩
    exact (full_iff h (hzero _ hv)).mp (hold _ hv).2
  · intro hfresh v hv
    obtain ⟨rfl, h0, hne, hb⟩ := mem_removed_remember.mp hv
    obtain ⟨hnodup, hall⟩ := hfresh h0 hne hb
    refine ⟨?_, (full_iff h (hzero _ hv)).mpr ⟨hnodup, hall⟩⟩
    intro k hk hk'
    by_cases he : k = key
    · rw [he]
      exact h.newest _ hne hb
    · -- the slots have no name twice, and the first of them is the one that leaves
      have hk0 := blockedKeys_ne_zero (hzero _ hv) hk
      rw [mem_blockedKeys_iff] at hk
      have hslots := slots_eq_cons h.length_ring h.next_lt
      have hmem := h.named k hk0 he hk
      have honce : s.slots.Nodup := List.nodup_rotate.mpr hnodup
      rw [hslots, List.nodup_cons] at honce
      rw [hslots, List.mem_cons] at hmem
      refine h.order s.oldest k h0 hk0 hne he hb hk ?_
      rw [hslots]
      exact before_cons_iff.mpr (.inr ⟨rfl, honce.1, hmem.resolve_left hk'⟩)

theorem oldestFirst_iff (h : m.Sound) (hzero : ∀ v ∈ m.removed, m.state.blockedConn 0 = false) :
    m.OldestFirst ↔ m.Fresh := by
  cases m with
  | remember key s => exact remember_iff h hzero
  | evictOldest s => exact evictOldest_iff h hzero

end Eviction

namespace TcpTlsHostnameExtractor

/-! ## The states in which they are called -/

open Eviction

variable {s : TcpTlsHostnameExtractor R P} {now : Time}

theorem resolveEvictions_sound (h : InOrder s) (key : UInt32) (hostname : Option Bytes) :
    ∀ m ∈ s.resolveEvictions w key hostname, m.Sound := by
  intro m hm
  unfold resolveEvictions at hm
  split at hm
  · cases hm
  · split at hm
    · cases hm
    · split at hm
      · rename_i hv
        rw [List.mem_singleton.mp hm]
        exact h.registering hv
      · cases hm

theorem checkStreamEvictions_sound (h : InOrder s) (key : UInt32) (stream : Bytes) :
    ∀ m ∈ s.checkStreamEvictions w key stream, m.Sound := by
  intro m hm
  unfold checkStreamEvictions at hm
  split at hm
  · exact resolveEvictions_sound h key _ m hm
  · exact resolveEvictions_sound h key none m hm
  · split at hm
    · exact resolveEvictions_sound h key none m hm
    · cases hm

theorem callbackEvictions_sound (h : InOrder s) (cb : Callback) :
    ∀ m ∈ s.callbackEvictions w cb, m.Sound := by
  intro m hm
  cases cb with
  | start tok => cases hm
  | message side tok data =>
    simp only [callbackEvictions, onMessageReadyEvictions] at hm
    split at hm
    · cases hm
    · split at hm
      · cases hm
      · split at hm
        · cases hm
        · rename_i c hl
          split at hm
          · cases hm
          · refine checkStreamEvictions_sound ?_ _ _ m hm
            exact h.put_same hl rfl
  | finish tok =>
    simp only [callbackEvictions, onConnectionEndEvictions] at hm
    split at hm
    · cases hm
    · split at hm
      · cases hm
      · rename_i c hl
        refine resolveEvictions_sound ?_ _ none m hm
        exact h.put_same hl rfl

/-- Outside a fed packet a callback does nothing. -/
theorem callbackEvictions_of_not_feeding (cb : Callback) (h : s.feeding = false) :
    s.callbackEvictions w cb = [] := by
  cases cb with
  | start tok => rfl
  | message side tok data => exact if_pos h
  | finish tok => exact if_pos h

theorem settleEvictions_sound (answer : R × List Callback) (h : s.feeding = false) :
    ∀ m ∈ s.settleEvictions w answer, m.Sound := by
  refine visits_law (I := fun x => x.feeding = false) ?_ ?_ answer.2 _ h
  · intro x cb hx
    rw [callback_of_not_feeding cb hx]
    exact hx
  · intro x cb hx m hm
    rw [callbackEvictions_of_not_feeding cb hx] at hm
    cases hm

theorem drainEvictions_sound (now : Time) (h : s.feeding = false) :
    ∀ m ∈ s.drainEvictions w now, m.Sound := by
  refine visits_law (I := fun x => x.feeding = false) ?_ ?_ s.to_close s h
  · intro x token hx
    rw [settle_of_not_feeding _ hx]
    exact hx
  · exact fun x token hx => settleEvictions_sound _ hx

theorem reassembleEvictions_sound (now : Time) {packet : Bytes} {f : FlowView}
    (hf : flowOf packet = some f) (h : InOrder s) :
    ∀ m ∈ s.reassembleEvictions w now f.key packet, m.Sound := by
  intro m hm
  rcases List.mem_append.mp hm with hm | hm
  · refine visits_law (I := fun x => InOrder x ∧ x.inside = (true, f.key)) ?_ ?_ _ _ ⟨?_, rfl⟩ m hm
    · rintro x cb ⟨hx, hin⟩
      have hpath : Path w now (.feed packet) x (x.deliver w packet cb) ∧ _ :=
        deliver_path hf rfl hin cb
      exact ⟨inOrder_path hpath.1 hx, hpath.2⟩
    · rintro x cb ⟨hx, -⟩
      exact callbackEvictions_sound (hx.log rfl) cb
    · exact h.fewer (h.ringed.congr rfl rfl rfl rfl rfl) (fun _ hk => hk) rfl rfl
  · exact drainEvictions_sound now rfl m hm

theorem expire_sound (w : World R P) (h : InOrder s) (key : UInt32) : InOrder (s.expire w key) := by
  unfold expire
  split
  · exact h
  · split
    · exact (h.forget key).log rfl
    · exact h.resolve w key none

theorem expireAllEvictions_sound (now : Time) (h : InOrder s) :
    ∀ m ∈ s.expireAllEvictions w now, m.Sound := by
  refine visits_law (I := InOrder) (fun x key hx => expire_sound w hx key) ?_ _ s h
  intro x key hx m hm
  unfold expireEvictions at hm
  split at hm
  · cases hm
  · split at hm
    · cases hm
    · exact resolveEvictions_sound hx key none m hm

theorem tickEvictions_sound (now : Time) (hfeed : s.feeding = false) (h : InOrder s) :
    ∀ m ∈ s.tickEvictions w now, m.Sound := by
  intro m hm
  unfold tickEvictions at hm
  split at hm
  · cases hm
  · have hcounted : InOrder { s with
        lastSweep := now, blocked := blockedCount { s with lastSweep := now } } :=
      h.fewer (h.ringed.congr rfl rfl rfl rfl rfl) (fun _ hk => hk) rfl rfl
    have hexpired := (expireAll_path w now .tick (s := { s with
      lastSweep := now, blocked := blockedCount { s with lastSweep := now } }) hfeed).2
    simp only [sweepEvictions, List.mem_append] at hm
    rcases hm with (hm | hm) | hm
    · exact expireAllEvictions_sound now hcounted m hm
    · exact settleEvictions_sound _ hexpired m hm
    · refine drainEvictions_sound now ?_ m hm
      rw [settle_of_not_feeding _ hexpired]
      exact hexpired

theorem flushEvictions_sound (now : Time) (hfeed : s.feeding = false) (h : InOrder s) :
    ∀ m ∈ s.flushEvictions w now, m.Sound := by
  intro m hm
  rcases List.mem_append.mp hm with hm | hm
  · refine visits_law (I := InOrder) ?_ ?_ _ s h m hm
    · exact fun x key hx => hx.resolve w key none
    · exact fun x key hx => resolveEvictions_sound hx key none
  · refine drainEvictions_sound (s := (s.resolveAll w).clear) now ?_ m hm
    exact (resolveAll_path w now hfeed).2.1

theorem makeRoomEvictions_sound (now : Time) (hfeed : s.feeding = false) (h : InOrder s) :
    ∀ m ∈ s.makeRoomEvictions w now, m.Sound := by
  intro m hm
  unfold makeRoomEvictions at hm
  split at hm
  · rcases List.mem_append.mp hm with hm | hm
    · exact tickEvictions_sound now hfeed h m hm
    · split at hm
      · rw [List.mem_singleton.mp hm]
        exact inOrder_path (tick_path w now .tick hfeed).1 h
      · cases hm
  · cases hm

theorem feedTrackedEvictions_sound (now : Time) {pkt : Packet} {f : FlowView} {c : Conn}
    (hf : flowOf pkt.bytes = some f)
    (h : ∀ held, InOrder (s.put f.key { c with last := now, held := held })) :
    ∀ m ∈ s.feedTrackedEvictions w now pkt f c, m.Sound := by
  intro m hm
  simp only [feedTrackedEvictions] at hm
  split at hm
  · exact resolveEvictions_sound (h c.held) f.key none m hm
  · split at hm
    · rw [put_put] at hm
      exact reassembleEvictions_sound now hf (h (c.held ++ [pkt])) m hm
    · split at hm
      · cases hm
      · exact reassembleEvictions_sound now hf (h c.held) m hm

theorem feedFlowEvictions_sound (now : Time) {pkt : Packet} {f : FlowView}
    (hf : flowOf pkt.bytes = some f) (hfeed : s.feeding = false) (h : InOrder s) :
    ∀ m ∈ s.feedFlowEvictions w now pkt f, m.Sound := by
  intro m hm
  unfold feedFlowEvictions at hm
  split at hm
  · rename_i c hl
    split at hm
    · cases hm
    · exact feedTrackedEvictions_sound now hf (fun _ => h.put_same hl rfl) m hm
  · rename_i hl
    unfold feedUntrackedEvictions at hm
    split at hm
    · cases hm
    · rcases List.mem_append.mp hm with hm | hm
      · exact makeRoomEvictions_sound now hfeed h m hm
      · split at hm
        · cases hm
        · rename_i hroom
          have hin : InOrder ((s.makeRoom w now).log (.tracked f.key)) :=
            (inOrder_path (makeRoom_path w now .tick hfeed).1 h).log rfl
          refine feedTrackedEvictions_sound now hf (fun held => ?_) m hm
          refine hin.fewer (hin.ringed.put (fun hb => by cases hb) ?_)
            (fun _ => blockedConn_of_put_wait rfl) rfl rfl
          rw [log_conns, AList.size_insert_of_none (makeRoom_find_none w now hfeed hl)]
          exact Nat.lt_of_not_le hroom

theorem feedEvictions_sound (now : Time) (pkt : Arrival) (hfeed : s.feeding = false)
    (h : InOrder s) : ∀ m ∈ s.feedEvictions w now pkt.val, m.Sound := by
  obtain ⟨hpath, hfeed'⟩ := tick_path w now .tick hfeed
  intro m hm
  unfold feedEvictions at hm
  rcases List.mem_append.mp hm with hm | hm
  · exact tickEvictions_sound now hfeed h m hm
  · split at hm
    · cases hm
    · rename_i hb
      have hflow := tcpFlow_of_has_bytes (p := pkt.val) (by simpa using hb)
      unfold tcpFlow at hflow
      split at hm
      · cases hm
      · rename_i f hv
        split at hm
        · cases hm
        · rename_i hp
          simp only [hv, not_not.mp hp, if_true] at hflow
          exact feedFlowEvictions_sound now hflow.symm hfeed' (inOrder_path hpath h) m hm

theorem evictions_sound (op : Op) (hfeed : s.feeding = false) (h : InOrder s) :
    ∀ m ∈ s.evictions w op, m.Sound := by
  cases op with
  | feed now pkt => exact feedEvictions_sound now pkt hfeed h
  | tick now => exact tickEvictions_sound now hfeed h
  | flush now => exact flushEvictions_sound now hfeed h

/-- In every run, the two are called in states that are in order. -/
theorem runEvictions_sound (w : World R P) (r : R) (p : P) (max_flows max_blocked : Nat)
    (ops : List Op) : ∀ m ∈ runEvictions (init r p max_flows max_blocked) w ops, m.Sound := by
  refine visits_law (I := fun x => InOrder x ∧ x.feeding = false) ?_ ?_ ops _
    ⟨inOrder_init r p max_flows max_blocked, rfl⟩
  · rintro x op ⟨hx, hfeed⟩
    refine ⟨?_, apply_feeding op hfeed⟩
    exact @apply_law R P w x (fun _ => InOrder) op (fun _ _ _ _ _ hs hy => inOrder_step hs hy)
      (fun _ _ _ _ _ ht hy => inOrder_take ht hy) hfeed [] hx
  · rintro x op ⟨hx, hfeed⟩
    exact evictions_sound op hfeed hx

end TcpTlsHostnameExtractor

open TcpTlsHostnameExtractor

/-- In every run without a blocked flow under the key zero, the ring evicts
oldest first and only when it is full if and only if its slots tell the truth
in every call that evicts. -/
theorem the_ring_evicts_oldest_first_iff (w : World R P) (r : R) (p : P)
    (max_flows max_blocked : Nat) (ops : List Op)
    (hzero : ∀ m ∈ runEvictions (init r p max_flows max_blocked) w ops,
      ∀ v ∈ m.removed, m.state.blockedConn 0 = false) :
    (∀ m ∈ runEvictions (init r p max_flows max_blocked) w ops, m.OldestFirst) ↔
      ∀ m ∈ runEvictions (init r p max_flows max_blocked) w ops, m.Fresh := by
  have hiff : ∀ m ∈ runEvictions (init r p max_flows max_blocked) w ops,
      (m.OldestFirst ↔ m.Fresh) := by
    intro m hm
    exact Eviction.oldestFirst_iff (runEvictions_sound w r p max_flows max_blocked ops m hm) (hzero m hm)
  exact forall₂_congr hiff

open traffic in
/-- A client opens a connection, and is blocked. -/
def blockedFlow (c : Endpoint) (now : Time) (id : UInt32) : List Op :=
  [.feed now (syn c id), .feed now (hello c (id + 1))]

open traffic in
/-- Four clients of a ring of three slots: the fourth one takes out the first. -/
theorem the_ring_evicts_oldest_first_of_four :
    let run := runEvictions (init [] () 8 3) (world { exact := [host] })
      (blockedFlow (client 2) 0 1 ++ blockedFlow (client 3) 0 3 ++ blockedFlow (client 4) 0 5 ++
        blockedFlow (client 5) 0 7)
    (∃ m ∈ run, m.removed ≠ []) ∧ ∀ m ∈ run, m.OldestFirst := by
  intro run
  have hzero : ∀ m ∈ run, m.state.blockedConn 0 = false := by decide +kernel
  have hfresh : ∀ m ∈ run, m.Fresh := by decide +kernel
  refine ⟨by decide +kernel, ?_⟩
  exact (the_ring_evicts_oldest_first_iff _ _ _ _ _ _ (fun m hm _ _ => hzero m hm)).mpr hfresh

open traffic in
/-- Three clients fill a ring of three slots. The second one expires and is
blocked anew, which takes out the first one although the ring has room; the
client after it takes out the second one, and the third one is older. -/
theorem the_ring_evicts_a_younger_flow :
    let run := runEvictions (init [] () 8 3) (world { exact := [host] })
      (blockedFlow (client 2) 0 1 ++ blockedFlow (client 3) 0 3 ++ blockedFlow (client 4) 0 5 ++
        [.feed (seconds 30) (segmentOf (client 2) 65 [1] 7),
          .feed (seconds 30) (segmentOf (client 4) 65 [1] 8), .tick (seconds 60)] ++
        blockedFlow (client 3) (seconds 60) 9 ++ blockedFlow (client 5) (seconds 60) 11)
    (∃ m ∈ run, m.removed ≠ [] ∧ ¬ m.Full) ∧ (∃ m ∈ run, ∃ v ∈ m.removed, ¬ m.state.Earliest v) ∧
      ¬ ∀ m ∈ run, m.OldestFirst := by
  intro run
  have hfull : ∃ m ∈ run, m.removed ≠ [] ∧ ¬ m.Full := by decide +kernel
  have hlast : run.getLast?.map (fun m => (m.removed, m.state.blockedKeys, m.state.registrations)) =
      some ([3900446611], [2424254735, 3900446611, 4238903782],
        [3561989440, 3900446611, 4238903782, 3900446611, 2424254735]) := by decide +kernel
  obtain ⟨m, hm, hdata⟩ := Option.map_eq_some_iff.mp hlast
  simp only [Prod.mk.injEq] at hdata
  obtain ⟨hremoved, hblocked, hregs⟩ := hdata
  have hyounger : ∃ m ∈ run, ∃ v ∈ m.removed, ¬ m.state.Earliest v := by
    refine ⟨m, List.mem_of_getLast? hm, 3900446611, by simp [hremoved], ?_⟩
    intro hearliest
    have hbefore := hearliest 4238903782 (by simp [hblocked]) (by simp)
    rw [hregs] at hbefore
    simp [Before, afterLast] at hbefore
  refine ⟨hfull, hyounger, ?_⟩
  intro hall
  obtain ⟨m', hm', v, hv, hnot⟩ := hyounger
  exact hnot (hall m' hm' v hv).1

end packet_inspector
