-- The ring of blocked keys: every blocked flow with a key other than zero
-- is in some slot, so the ring bounds the blocked flows and one full turn
-- of it always finds one to evict.
import PacketInspector.Steps
import PacketInspector.Traffic

open wire packet_inspector.tls runs

namespace packet_inspector.TcpTlsHostnameExtractor

variable {R P : Type} {w : World R P} {s s' : TcpTlsHostnameExtractor R P}

/-! ## The invariant -/

/-- The slots have their fixed number, and name every blocked flow whose key
is not the mark of an empty slot. -/
structure Ringed (s : TcpTlsHostnameExtractor R P) : Prop where
  length_ring : s.block_ring.length = s.max_blocked
  next_lt : s.block_next < s.max_blocked
  named : ∀ k c, k ≠ 0 → s.conns.find k = some c → c.state = .Block → k ∈ s.block_ring
  size_le : s.conns.size ≤ s.max_flows

theorem ringed_init (r : R) (p : P) (max_flows max_blocked : Nat) :
    Ringed (init r p max_flows max_blocked) := by
  refine ⟨?_, ?_, ?_, ?_⟩
  · simp [init]
  · simp only [init]
    split <;> split <;> omega
  · intro k c _ h
    simp [init] at h
  · exact Nat.zero_le _

theorem mem_set_of_mem {ring : List UInt32} {i : Nat} {k key : UInt32} (h : k ∈ ring)
    (hk : k ≠ ring.getD i 0) : k ∈ ring.set i key := by
  obtain ⟨j, hj, rfl⟩ := List.getElem_of_mem h
  have hne : i ≠ j := by
    rintro rfl
    exact hk (by simp [List.getD, List.getElem?_eq_getElem hj])
  refine List.mem_iff_getElem.mpr ⟨j, by simpa using hj, ?_⟩
  exact List.getElem_set_ne hne _

/-- An entry keeps its state, or starts to wait. -/
theorem Ringed.put {key : UInt32} {c : Conn} (h : Ringed s)
    (hc : c.state = .Block → ∃ c', s.conns.find key = some c' ∧ c'.state = .Block)
    (hsize : (s.conns.insert key c).size ≤ s.max_flows) : Ringed (s.put key c) := by
  refine ⟨h.length_ring, h.next_lt, ?_, hsize⟩
  intro k c' hk hf hb
  simp only [put_conns, AList.find_insert] at hf
  split at hf
  · rename_i he
    subst he
    cases hf
    obtain ⟨c'', hf', hb'⟩ := hc hb
    exact h.named k c'' hk hf' hb'
  · exact h.named k c' hk hf hb

theorem Ringed.put_same {key : UInt32} {c c' : Conn} (h : Ringed s)
    (hf : s.conns.find key = some c') (hc : c.state = c'.state) : Ringed (s.put key c) := by
  refine h.put (fun hb => ⟨c', hf, hc ▸ hb⟩) ?_
  rw [AList.size_insert_of_some hf]
  exact h.size_le

theorem Ringed.forget (h : Ringed s) (key : UInt32) : Ringed (s.forget key) := by
  refine ⟨h.length_ring, h.next_lt, ?_, (AList.size_erase_le _ _).trans h.size_le⟩
  intro k c hk hf hb
  simp only [forget_conns, AList.find_erase] at hf
  split at hf
  · cases hf
  · exact h.named k c hk hf hb

/-- The table and the ring are what the invariant is about. -/
theorem Ringed.congr (h : Ringed s) (hc : s'.conns = s.conns) (hr : s'.block_ring = s.block_ring)
    (hn : s'.block_next = s.block_next) (hf : s'.max_flows = s.max_flows)
    (hb : s'.max_blocked = s.max_blocked) : Ringed s' := by
  refine ⟨?_, ?_, ?_, ?_⟩
  · rw [hr, hb]
    exact h.length_ring
  · rw [hn, hb]
    exact h.next_lt
  · rw [hc, hr]
    exact h.named
  · rw [hc, hf]
    exact h.size_le

/-- A turn of the ring loses one name at most, that of the oldest slot. -/
theorem Ringed.turn {key : UInt32} (hlen : s.block_ring.length = s.max_blocked)
    (hnext : s.block_next < s.max_blocked) (hsize : s.conns.size ≤ s.max_flows)
    (h : ∀ k c, k ≠ 0 → s.conns.find k = some c → c.state = .Block →
      k = key ∨ k ∈ s.block_ring ∧ k ≠ s.oldest) : Ringed (s.turn key) := by
  refine ⟨by simpa using hlen, Nat.mod_lt _ (Nat.zero_lt_of_lt hnext), ?_, hsize⟩
  intro k c hk hf hb
  rcases h k c hk hf hb with rfl | ⟨hm, ho⟩
  · exact List.mem_iff_getElem.mpr ⟨s.block_next, by simpa [hlen] using hnext, by simp⟩
  · exact mem_set_of_mem hm ho

theorem Ringed.remember_blocked {key : UInt32} {c : Conn} (h : Ringed s)
    (hl : s.conns.find key = some c) : Ringed ((s.put key (blockConn c)).remember_blocked key) := by
  have hsize : (s.conns.insert key (blockConn c)).size ≤ s.max_flows := by
    rw [AList.size_insert_of_some hl]
    exact h.size_le
  have hnamed : ∀ k c', k ≠ 0 → (s.conns.insert key (blockConn c)).find k = some c' →
      c'.state = .Block → k = key ∨ k ∈ s.block_ring := by
    intro k c' hk hf hb
    rw [AList.find_insert] at hf
    split at hf
    · rename_i he
      exact .inl he
    · exact .inr (h.named k c' hk hf hb)
  rcases remember_blocked_cases (s.put key (blockConn c)) key with ⟨hr, ho⟩ | ⟨hr, h0, hk, hb⟩
  · rw [hr]
    refine Ringed.turn h.length_ring h.next_lt hsize ?_
    intro k c' hk hf hb
    rcases hnamed k c' hk hf hb with he | hm
    · exact .inl he
    · by_cases he : k = key
      · exact .inl he
      · refine .inr ⟨hm, ?_⟩
        -- the oldest slot is empty, names `key`, or names a flow that is not blocked
        rintro rfl
        rcases ho with ho | ho | ho
        · exact hk ho
        · exact he ho
        · rw [blockedConn_iff.mpr ⟨c', hf, hb⟩] at ho
          cases ho
  · rw [hr]
    refine Ringed.turn h.length_ring h.next_lt ?_ ?_
    · exact (AList.size_erase_le _ _).trans hsize
    · intro k c' hk' hf hb'
      simp only [evict, publish_conns, log_conns, forget_conns, AList.find_erase] at hf
      split at hf
      · cases hf
      · rename_i hne
        rcases hnamed k c' hk' hf hb' with he | hm
        · exact .inl he
        · exact .inr ⟨hm, hne⟩

theorem Ringed.resolve {key : UInt32} {c : Conn} {hostname : Option Bytes} (h : Ringed s)
    (hl : s.conns.find key = some c) (hc : c.state = .Wait) :
    Ringed (s.resolve w key hostname) := by
  have hasked : Ringed (s.ask w key hostname) := h.congr rfl rfl rfl rfl rfl
  cases hv : (w.decide s.policy hostname).1 with
  | ALLOW =>
    rw [resolve_allow hl hc hv, release_eq]
    exact (hasked.forget key).congr rfl rfl rfl rfl rfl
  | BLOCK =>
    rw [resolve_blocked hl hc hv, release_eq]
    exact (hasked.remember_blocked hl).congr rfl rfl rfl rfl rfl

theorem ringed_step {now : Time} {call : Call} (hs : Step w now call s s') (h : Ringed s) :
    Ringed s' := by
  cases hs with
  | books => exact h.congr rfl rfl rfl rfl rfl
  | heard => exact h.congr rfl rfl rfl rfl rfl
  | joined packet f c tok data hf hcall hl hc =>
    exact Ringed.put_same (h.congr rfl rfl rfl rfl rfl) hl rfl
  | marked key c tok closed hcall hl => exact h.put_same hl rfl
  | touched key c hcall hl => exact h.put_same hl rfl
  | opened key hcall hl hroom =>
    have hlog : Ringed (s.log (.tracked key)) := h.congr rfl rfl rfl rfl rfl
    refine hlog.put (fun hb => by cases hb) ?_
    rw [log_conns, AList.size_insert_of_none hl]
    exact hroom
  | released key c ps p hcall hl hheld => exact h.put_same hl rfl
  | resolved key c hostname hl hc hcall hreason => exact h.resolve hl hc
  | expired key c hl hc hidle => exact (h.forget key).congr rfl rfl rfl rfl rfl
  | passed hv =>
    refine Ringed.turn h.length_ring h.next_lt h.size_le ?_
    intro k c hk hf hb
    refine .inr ⟨h.named k c hk hf hb, ?_⟩
    rintro rfl
    rcases hv with h0 | hv
    · exact hk h0
    · rw [blockedConn_iff.mpr ⟨c, hf, hb⟩] at hv
      cases hv
  | evicted h0 hv =>
    have hturn : Ringed ((s.forget s.oldest).turn 0) := by
      refine Ringed.turn h.length_ring h.next_lt (h.forget _).size_le ?_
      intro k c hk hf hb
      refine .inr ⟨(h.forget s.oldest).named k c hk hf hb, ?_⟩
      intro he
      rw [he] at hf
      simp [oldest] at hf
    exact hturn.congr rfl rfl rfl rfl rfl
  | cleared hcall hb =>
    refine ⟨h.length_ring, h.next_lt, ?_, Nat.zero_le _⟩
    intro k c _ hf
    simp at hf

theorem ringed_take {p : Packet} (ht : Take w p s s') (h : Ringed s) : Ringed s' := by
  cases ht with
  | decided v => exact h.congr rfl rfl rfl rfl rfl
  | refused f => exact h.congr rfl rfl rfl rfl rfl
  | held f c hf hpay hl hc hroom => exact h.put_same hl rfl

theorem ringed_run (r : R) (p : P) (max_flows max_blocked : Nat) (ops : List Op) :
    Ringed (ops.foldl (Op.apply w) (init r p max_flows max_blocked)) ∧
    (ops.foldl (Op.apply w) (init r p max_flows max_blocked)).feeding = false :=
  run_law (I := fun _ x => Ringed x) (fun _ _ _ _ _ hs h => ringed_step hs h)
    (fun _ _ _ _ ht h => ringed_take ht h) rfl (ringed_init r p max_flows max_blocked) ops

/-! ## The bound -/

/-- The keys of the blocked flows. -/
def blockedKeys (s : TcpTlsHostnameExtractor R P) : List UInt32 :=
  (s.conns.entries.filter (fun e => e.2.state = .Block)).map (·.1)

theorem blockedKeys_length (s : TcpTlsHostnameExtractor R P) :
    s.blockedKeys.length = s.blockedCount := by
  simp [blockedKeys, blockedCount, List.countP_eq_length_filter]

theorem blockedKeys_nodup (s : TcpTlsHostnameExtractor R P) : s.blockedKeys.Nodup := by
  have hsub : s.blockedKeys.Sublist s.conns.keys := List.filter_sublist.map _
  exact hsub.nodup s.conns.keys_nodup

theorem mem_blockedKeys {k : UInt32} (h : k ∈ s.blockedKeys) :
    ∃ c, s.conns.find k = some c ∧ c.state = .Block := by
  obtain ⟨e, he, rfl⟩ := List.mem_map.mp h
  rw [List.mem_filter] at he
  refine ⟨e.2, ?_, by simpa using he.2⟩
  exact List.mem_dlookup s.conns.nodupKeys he.1

theorem mem_blockedKeys_iff {k : UInt32} : k ∈ s.blockedKeys ↔ s.blockedConn k = true := by
  rw [blockedConn_iff]
  refine ⟨mem_blockedKeys, ?_⟩
  rintro ⟨c, hl, hc⟩
  refine List.mem_map.mpr ⟨⟨k, c⟩, List.mem_filter.mpr ⟨?_, by simpa using hc⟩, rfl⟩
  exact List.of_mem_dlookup hl

/-- The ring bounds the blocked flows, but for the one under the key zero. -/
theorem Ringed.blockedCount_le (h : Ringed s) :
    s.blockedCount ≤ s.max_blocked + if s.blockedConn 0 = true then 1 else 0 := by
  rw [← blockedKeys_length, ← h.length_ring]
  split
  · have hsub : s.blockedKeys ⊆ 0 :: s.block_ring := by
      intro k hk
      obtain ⟨c, hf, hb⟩ := mem_blockedKeys hk
      by_cases h0 : k = 0
      · simp [h0]
      · exact List.mem_cons_of_mem 0 (h.named k c h0 hf hb)
    exact ((blockedKeys_nodup s).subperm hsub).length_le
  · rename_i h0
    have hsub : s.blockedKeys ⊆ s.block_ring := by
      intro k hk
      obtain ⟨c, hf, hb⟩ := mem_blockedKeys hk
      refine h.named k c ?_ hf hb
      rintro rfl
      exact h0 (blockedConn_iff.mpr ⟨c, hf, hb⟩)
    exact ((blockedKeys_nodup s).subperm hsub).length_le

/-! ## A full turn -/

/-- An empty slot stays empty while the ring is turned for a victim. -/
theorem evictTurns_zero {left i : Nat} (h : s.block_ring.getD i 0 = 0) :
    (evictTurns left s).2.block_ring.getD i 0 = 0 := by
  induction left generalizing s with
  | zero => exact h
  | succ left ih =>
    have hturn : (s.turn 0).block_ring.getD i 0 = 0 := by
      simp only [turn_block_ring, List.getD, List.getElem?_set]
      split
      · split <;> rfl
      · exact h
    unfold evictTurns
    split
    · exact hturn
    · exact ih hturn

/-- A search that finds no victim has emptied every slot that it visited. -/
theorem evictTurns_visited {left j : Nat} (hlen : s.block_ring.length = s.max_blocked)
    (hnext : s.block_next < s.max_blocked) (h : (evictTurns left s).1 = false) (hj : j < left) :
    (evictTurns left s).2.block_ring.getD ((s.block_next + j) % s.max_blocked) 0 = 0 := by
  induction left generalizing s j with
  | zero => omega
  | succ left ih =>
    unfold evictTurns at h ⊢
    split at h
    · cases h
    · rename_i hv
      rw [if_neg hv]
      cases j with
      | zero =>
        apply evictTurns_zero
        rw [Nat.add_zero, Nat.mod_eq_of_lt hnext]
        simp [List.getD, hlen, hnext]
      | succ j =>
        have hpos : 0 < s.max_blocked := Nat.zero_lt_of_lt hnext
        have hmod : (s.block_next + (j + 1)) % s.max_blocked =
            ((s.turn 0).block_next + j) % (s.turn 0).max_blocked := by
          simp only [turn_block_next, turn_max_blocked]
          rw [Nat.mod_add_mod]
          congr 1
          omega
        rw [hmod]
        exact ih (by simpa using hlen) (Nat.mod_lt _ hpos) h (by omega)

theorem evictTurns_size {left : Nat} (h : (evictTurns left s).1 = true) :
    (evictTurns left s).2.conns.size + 1 = s.conns.size := by
  induction left generalizing s with
  | zero => cases h
  | succ left ih =>
    unfold evictTurns at h ⊢
    split at h
    · rename_i hv
      rw [if_pos hv]
      obtain ⟨c, hf, -⟩ := blockedConn_iff.mp hv.2
      exact AList.size_erase_of_some hf
    · rename_i hv
      rw [if_neg hv]
      exact ih h

/-- Every slot of a ring is met in one full turn. -/
theorem exists_turn {n b i : Nat} (hb : b < n) (hi : i < n) : ∃ j, j < n ∧ (b + j) % n = i := by
  refine ⟨(i + (n - b)) % n, Nat.mod_lt _ (by omega), ?_⟩
  rw [Nat.add_mod_mod, show b + (i + (n - b)) = i + n by omega, Nat.add_mod_right]
  exact Nat.mod_eq_of_lt hi

/-- When no victim is found in a full turn, no flow with a key other than
zero is blocked. -/
theorem evict_oldest_blocked_false (w : World R P) (h : Ringed s)
    (hf : s.evict_oldest_blocked.1 = false) {k : UInt32} {c : Conn} (hk : k ≠ 0)
    (hc : s.evict_oldest_blocked.2.conns.find k = some c) : c.state ≠ .Block := by
  intro hb
  have hpath := (evictTurns_path w 0 .tick s.max_blocked s).1
  have hr : Ringed s.evict_oldest_blocked.2 :=
    path_keeps (I := Ringed) (fun _ _ hs hx => ringed_step hs hx) hpath h
  have hmax : s.evict_oldest_blocked.2.max_blocked = s.max_blocked :=
    congrArg (fun x => x.2.1) (path_caps hpath)
  obtain ⟨i, hi, hk'⟩ := List.getElem_of_mem (hr.named k c hk hc hb)
  obtain ⟨j, hj, hji⟩ := exists_turn h.next_lt (i := i) (by rw [← hmax, ← hr.length_ring]; exact hi)
  have hzero := evictTurns_visited h.length_ring h.next_lt hf hj
  rw [hji] at hzero
  apply hk
  rw [← hk', ← hzero]
  exact (List.getD_eq_getElem _ _ hi).symm

/-- A table that is still full after room was made for a new flow is full of
flows that wait, but for the one under the key zero. -/
theorem makeRoom_full {now : Time} (h : Ringed s) (hfeed : s.feeding = false)
    (hfull : (s.makeRoom w now).conns.size ≥ (s.makeRoom w now).max_flows) :
    (s.makeRoom w now).conns.size = (s.makeRoom w now).max_flows ∧
    ∀ k c, k ≠ 0 → (s.makeRoom w now).conns.find k = some c → c.state ≠ .Block := by
  have hpath := (makeRoom_path w now .tick hfeed).1
  have hr : Ringed (s.makeRoom w now) :=
    path_keeps (I := Ringed) (fun _ _ hs hx => ringed_step hs hx) hpath h
  refine ⟨Nat.le_antisymm hr.size_le hfull, ?_⟩
  have htick : Ringed (s.tick w now) :=
    path_keeps (I := Ringed) (fun _ _ hs hx => ringed_step hs hx)
      (tick_path w now .tick hfeed).1 h
  unfold makeRoom at hfull ⊢
  split at hfull
  · rename_i hs
    simp only at hfull
    rw [if_pos hs]
    split at hfull
    · rename_i ht
      simp only
      rw [if_pos ht]
      intro k c hk hc
      cases he : (s.tick w now).evict_oldest_blocked.1 with
      | false => exact evict_oldest_blocked_false w htick he hk hc
      | true =>
        -- an eviction makes room, because the table is never above its cap
        have hsize := evictTurns_size he
        have hcap : (s.tick w now).evict_oldest_blocked.2.max_flows = (s.tick w now).max_flows :=
          congrArg (fun x => x.1) (path_caps (evictTurns_path w now .tick _ _).1)
        have hle := htick.size_le
        unfold evict_oldest_blocked at hfull hcap
        omega
    · rename_i ht
      exact absurd hfull ht
  · rename_i hs
    exact absurd hfull hs

/-! ## The laws -/

/-- A call that counts a flow as turned away ends right there. -/
theorem feed_refused {now : Time} {pkt : Arrival} (hfeed : s.feeding = false)
    (h : (s.feed w now pkt.val).dropped_at_cap ≠ s.dropped_at_cap) :
    s.feed w now pkt.val =
      (((s.tick w now).makeRoom w now).refuse.decide pkt.val .ALLOW).publish ∧
    ((s.tick w now).makeRoom w now).conns.size ≥ ((s.tick w now).makeRoom w now).max_flows := by
  obtain ⟨htick, hfeed'⟩ := tick_path w now .tick hfeed
  have hsame : ∀ x : TcpTlsHostnameExtractor R P, x.caps = (s.tick w now).caps →
      x.dropped_at_cap = s.dropped_at_cap :=
    fun x hx => congrArg (fun y => y.2.2) (hx.trans (path_caps htick))
  cases hf : flowOf pkt.val.bytes with
  | none =>
    rw [feed_of_no_flow hf] at h
    exact absurd (hsame _ rfl) h
  | some f =>
    rw [feed_of_flow hf] at h ⊢
    unfold feedFlow at h ⊢
    cases hl : (s.tick w now).conns.find f.key with
    | some c =>
      simp only [hl] at h
      split at h
      · exact absurd (hsame _ rfl) h
      · exact absurd (hsame _ (feedTracked_caps hf)) h
    | none =>
      simp only [hl] at h
      unfold feedUntracked at h ⊢
      split at h
      · exact absurd (hsame _ rfl) h
      · rename_i hopen
        simp only at h
        split at h
        · rename_i hfull
          simp only
          rw [if_neg hopen, if_pos hfull]
          exact ⟨rfl, hfull⟩
        · have hroom := path_caps (makeRoom_path w now .tick hfeed').1
          have hlog : (((s.tick w now).makeRoom w now).log (.tracked f.key)).caps =
              (s.tick w now).caps := hroom
          exact absurd (hsame _ ((feedTracked_caps hf).trans hlog)) h

/-- Whenever a flow is turned away, the table is full, and no flow in it with
a key other than zero is blocked. -/
theorem a_blocked_flow_never_keeps_another_out (w : World R P) (r : R) (p : P)
    (max_flows max_blocked : Nat) (ops : List Op) (now : Time) (pkt : Arrival) :
    let s := ops.foldl (Op.apply w) (init r p max_flows max_blocked)
    (s.feed w now pkt.val).dropped_at_cap ≠ s.dropped_at_cap →
    ∃ t : TcpTlsHostnameExtractor R P,
      s.feed w now pkt.val = (t.refuse.decide pkt.val .ALLOW).publish ∧
      t.conns.size = t.max_flows ∧
      ∀ k c, k ≠ 0 → t.conns.find k = some c → c.state ≠ .Block := by
  intro s h
  obtain ⟨hr, hfeed⟩ := ringed_run (w := w) r p max_flows max_blocked ops
  obtain ⟨heq, hfull⟩ := feed_refused hfeed h
  obtain ⟨htick, hfeed'⟩ := tick_path w now .tick hfeed
  have hr' : Ringed (s.tick w now) :=
    path_keeps (I := Ringed) (fun _ _ hs hx => ringed_step hs hx) htick hr
  obtain ⟨hsize, hnone⟩ := makeRoom_full hr' hfeed' hfull
  exact ⟨(s.tick w now).makeRoom w now, heq, hsize, hnone⟩

open traffic in
theorem a_second_flow_is_turned_away :
    let w := world { exact := [host] }
    let s := after 1 1 [.feed 0 (syn (client 2) 1)]
    let pkt := syn (client 3) 2
    (s.feed w 0 pkt.val).dropped_at_cap ≠ s.dropped_at_cap ∧
    ∃ t : TcpTlsHostnameExtractor (List Link) Unit,
      s.feed w 0 pkt.val = (t.refuse.decide pkt.val .ALLOW).publish ∧
      t.conns.size = t.max_flows ∧
      ∀ k c, k ≠ 0 → t.conns.find k = some c → c.state ≠ .Block := by
  intro w s pkt
  have h : (s.feed w 0 pkt.val).dropped_at_cap ≠ s.dropped_at_cap := by decide +kernel
  exact ⟨h, a_blocked_flow_never_keeps_another_out w [] () 1 1 [.feed 0 (syn (client 2) 1)] 0 pkt h⟩

/-- The blocked flows stay within their share in every state in which the
key zero is not blocked, and so in every run that feeds no packet of it. -/
theorem blocked_flows_are_bounded_apart_from_key_zero (w : World R P) (r : R) (p : P)
    (max_flows max_blocked : Nat) (ops : List Op) :
    let s := ops.foldl (Op.apply w) (init r p max_flows max_blocked)
    (s.blockedConn 0 = false → s.blockedCount ≤ s.max_blocked) ∧
    ((∀ pkt ∈ fedBy ops, keyOf pkt ≠ some 0) → s.blockedCount ≤ s.max_blocked) := by
  intro s
  have hbound : s.blockedConn 0 = false → s.blockedCount ≤ s.max_blocked := by
    intro h0
    have hr : Ringed s := (ringed_run r p max_flows max_blocked ops).1
    simpa [h0] using hr.blockedCount_le
  refine ⟨hbound, fun hops => hbound ?_⟩
  have hnone : s.conns.find 0 = none := run_find_none hops rfl rfl
  simp [blockedConn, hnone]

open traffic in
theorem two_blocked_flows_share_one_slot :
    let ops : List Op := [.feed 0 (hello (client 2) 1), .feed 0 (hello (client 3) 2)]
    (∀ pkt ∈ fedBy ops, keyOf pkt ≠ some 0) ∧
    (after 2 1 ops).blockedCount ≤ (after 2 1 ops).max_blocked := by
  intro ops
  have h : ∀ pkt ∈ fedBy ops, keyOf pkt ≠ some 0 := by decide +kernel
  exact ⟨h, (blocked_flows_are_bounded_apart_from_key_zero _ [] () 2 1 ops).2 h⟩

open traffic in
/-- A flow under the key zero, then another one: both are blocked, with room
for one. -/
theorem key_zero_escapes_the_ring :
    let s := after 2 1 [.feed 0 (hello ⟨[10, 9, 109, 145], 11983⟩ 1), .feed 0 (hello (client 2) 2)]
    ¬ s.blockedCount ≤ s.max_blocked := by
  decide +kernel

end packet_inspector.TcpTlsHostnameExtractor
