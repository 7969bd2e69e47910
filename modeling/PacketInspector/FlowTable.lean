-- What the flow table looks like between two calls: a blocked flow keeps
-- nothing, a waiting one keeps a bounded number of packets and of bytes,
-- and no held packet reaches into the receive buffer any more.
import PacketInspector.BlockRing

open wire packet_inspector.tls runs

namespace packet_inspector.TcpTlsHostnameExtractor

variable {R P : Type} {w : World R P} {s : TcpTlsHostnameExtractor R P} {now : Time}

/-! ## One entry -/

/-- A blocked flow keeps nothing. A waiting one stays under both caps, and
of its held packets only those of `tail` may still have their bytes. -/
structure Fit (tail : List Packet) (c : Conn) : Prop where
  block : c.state = .Block → c.held = [] ∧ c.stream = []
  wait : c.state = .Wait → c.held.length ≤ kMaxPacketsPerConn ∧ c.stream.length ≤ kMaxStreamBytes ∧
    ∃ ps, c.held = ps ++ tail ∧ ∀ p ∈ ps, p.has_bytes = false

theorem fit_blockConn (tail : List Packet) (c : Conn) : Fit tail (blockConn c) :=
  ⟨fun _ => ⟨rfl, rfl⟩, fun h => by cases h⟩

/-- The tokens and the time of an entry do not matter. -/
theorem Fit.congr {tail : List Packet} {c c' : Conn} (h : Fit tail c) (hs : c'.state = c.state)
    (hh : c'.held = c.held) (ht : c'.stream = c.stream) : Fit tail c' := by
  refine ⟨?_, ?_⟩
  · rw [hs, hh, ht]
    exact h.block
  · rw [hs, hh, ht]
    exact h.wait

/-! ## The table while a packet is fed -/

/-- Every entry is fit. The flow `key` may hold `tail` with its bytes. -/
def Fitted (key : UInt32) (tail : List Packet) (t : Table) : Prop :=
  ∀ k c, t.find k = some c → Fit (if k = key then tail else []) c

section Table

variable {key : UInt32} {tail : List Packet}

theorem Fitted.insert {t : Table} {c : Conn} (h : Fitted key tail t) (hc : Fit tail c) :
    Fitted key tail (t.insert key c) := by
  intro k c' hf
  rw [AList.find_insert] at hf
  split at hf
  · rename_i he
    cases hf
    rw [if_pos he]
    exact hc
  · exact h k c' hf

/-- With no bytes left in it, a table is fit whichever key is looked at. -/
theorem Fitted.nil {t : Table} (h : Fitted key [] t) (key' : UInt32) : Fitted key' [] t := by
  intro k c hf
  have hfit := h k c hf
  simpa using hfit

theorem Fitted.resolve {hostname : Option Bytes} (h : ∀ k c, s.conns.find k = some c →
      k = key ∧ c.state = .Wait ∨ Fit (if k = key then tail else []) c) :
    Fitted key tail (s.resolve w key hostname).conns := by
  intro k c hf
  by_cases hk : k = key
  · subst hk
    rcases resolve_eq_self_or w s k hostname with ⟨hr, hb⟩ | ⟨c', hl, hc⟩
    · rw [hr] at hf
      rcases h k c hf with ⟨-, hw⟩ | hfit
      · rw [hb c hf] at hw
        cases hw
      · exact hfit
    · rw [resolve_find_self hl hc hf]
      exact fit_blockConn _ c'
  · rcases h k c (resolve_find_of_ne hk hf) with ⟨he, -⟩ | hfit
    · exact absurd he hk
    · exact hfit

/-- A look at the stream leaves it short enough, or resolves the flow. -/
theorem Fitted.checkStream {stream : Bytes} (h : ∀ k c, s.conns.find k = some c →
      k = key ∧ c.state = .Wait ∨ Fit (if k = key then tail else []) c)
    (hshort : stream.length ≤ kMaxStreamBytes → Fitted key tail s.conns) :
    Fitted key tail (s.checkStream w key stream).conns := by
  unfold TcpTlsHostnameExtractor.checkStream
  split
  · exact Fitted.resolve h
  · exact Fitted.resolve h
  · split
    · exact Fitted.resolve h
    · rename_i hlen
      exact hshort (not_lt.mp hlen)

theorem Fitted.deliver {packet : Bytes} (cb : Callback) (hin : s.inside = (true, key))
    (h : Fitted key tail s.conns) : Fitted key tail (s.deliver w packet cb).conns := by
  cases hl : s.conns.find key with
  | none =>
    rw [deliver_of_none cb hin hl]
    exact h
  | some c =>
    have hc : Fit tail c := by simpa using h key c hl
    cases cb with
    | start tok =>
      rw [deliver_start tok hin hl]
      exact h.insert (hc.congr rfl rfl rfl)
    | finish tok =>
      rw [deliver_finish tok hin hl]
      have hput := h.insert (c := { c with pcpp_closed := true }) (hc.congr rfl rfl rfl)
      exact Fitted.resolve (fun k c' hf => .inr (hput k c' hf))
    | message side tok data =>
      by_cases hside : side = kClientSide
      · subst hside
        cases hst : c.state with
        | Block =>
          rw [deliver_message_block kClientSide tok data hin hl hst]
          exact h
        | Wait =>
          rw [deliver_message_wait tok data hin hl hst]
          refine Fitted.checkStream ?_ ?_
          · intro k c' hf
            simp only [put_conns, log_conns, AList.find_insert] at hf
            split at hf
            · rename_i he
              cases hf
              exact .inl ⟨he, hst⟩
            · exact .inr (h k c' hf)
          · -- the bytes that were added keep the stream within its cap
            intro hlen
            refine h.insert ⟨fun hb => ?_, fun hw => ?_⟩
            · rw [hst] at hb
              cases hb
            · obtain ⟨hheld, -, hps⟩ := hc.wait hst
              exact ⟨hheld, hlen, hps⟩
      · rw [deliver_other_side tok data hside]
        exact h

theorem Fitted.reassemble {packet : Bytes} {f : FlowView} (hf : flowOf packet = some f)
    (h : Fitted f.key tail s.conns) :
    Fitted f.key tail (s.reassemble w now f.key packet).conns := by
  refine reassemble_rule w now (s := s) (Q := fun _ x => Fitted f.key tail x.conns) hf ?_ ?_ h
  · intro cbs x y _ hconns _ hx
    rw [hconns]
    exact hx
  · intro cb cbs x hin hx
    exact hx.deliver cb hin

/-- The packet that was fed last gives its bytes back. -/
theorem Fitted.releaseLast {p : Packet} (h : Fitted key [p] s.conns) :
    Fitted key [] (s.releaseLast key).conns := by
  have hother : ∀ k c, k ≠ key → s.conns.find k = some c → Fit [] c := by
    intro k c hk hf
    simpa [hk] using h k c hf
  unfold TcpTlsHostnameExtractor.releaseLast
  cases hl : s.conns.find key with
  | none =>
    intro k c hf
    have hk : k ≠ key := by
      rintro rfl
      simp only [hl, reduceCtorEq] at hf
    simpa using hother k c hk hf
  | some c =>
    have hc : Fit [p] c := by simpa using h key c hl
    simp only
    cases hst : c.state with
    | Block =>
      have hheld : c.held.getLast? = none := by simp [(hc.block hst).1]
      rw [hheld]
      intro k c' hf
      by_cases hk : k = key
      · subst hk
        rw [hl] at hf
        cases hf
        refine ⟨hc.block, fun hw => ?_⟩
        rw [hst] at hw
        cases hw
      · simpa using hother k c' hk hf
    | Wait =>
      obtain ⟨hmax, hlen, ps, hps, hshell⟩ := hc.wait hst
      have hlast : c.held.getLast? = some p := by simp [hps]
      rw [hlast]
      intro k c' hf
      simp only [put_conns, AList.find_insert] at hf
      split at hf
      · cases hf
        refine ⟨fun hb => ?_, fun _ => ⟨?_, hlen, ps ++ [p.release_bytes], ?_, ?_⟩⟩
        · cases hb
        · simpa [hps] using hmax
        · simp [hps]
        · intro q hq
          rcases List.mem_append.mp hq with hq | hq
          · exact hshell q hq
          · rw [List.mem_singleton.mp hq]
            rfl
      · rename_i hk
        simpa using hother k c' hk hf

end Table

/-! ## The table after a call -/

/-- A step of a call that feeds no flow keeps every entry fit. -/
theorem step_fitted {call : Call} {s' : TcpTlsHostnameExtractor R P} (hcall : call.key = none)
    (hs : Step w now call s s') (h : Fitted 0 [] s.conns) : Fitted 0 [] s'.conns := by
  have hfeed : ∀ {packet : Bytes} {f : FlowView}, flowOf packet = some f → call ≠ .feed packet := by
    rintro packet f hf rfl
    simp [Call.key, hf] at hcall
  cases hs with
  | books => exact h
  | heard => exact h
  | joined packet f c tok data hf hc => exact absurd hc (hfeed hf)
  | marked key c tok closed hkey => simp [hcall] at hkey
  | touched key c hkey => simp [hcall] at hkey
  | opened key hkey => simp [hcall] at hkey
  | released key c ps p hkey => simp [hcall] at hkey
  | resolved key c hostname hl hc _ _ =>
    have hres : Fitted key [] (s.resolve w key hostname).conns := by
      refine Fitted.resolve (fun k c' hf => .inr ?_)
      exact h.nil key k c' hf
    exact hres.nil 0
  | expired key c hl hc hidle =>
    intro k c' hf
    simp only [log_conns, forget_conns, AList.find_erase] at hf
    split at hf
    · cases hf
    · exact h k c' hf
  | passed hv => exact h
  | evicted h0 hv =>
    intro k c' hf
    simp only [evict, publish_conns, log_conns, forget_conns, turn_conns, AList.find_erase] at hf
    split at hf
    · cases hf
    · exact h k c' hf
  | cleared _ _ =>
    intro k c' hf
    simp at hf

theorem path_fitted {call : Call} {s' : TcpTlsHostnameExtractor R P} (hcall : call.key = none)
    (hp : Path w now call s s') (h : Fitted 0 [] s.conns) : Fitted 0 [] s'.conns :=
  path_keeps (I := fun x => Fitted 0 [] x.conns) (fun _ _ hs hx => step_fitted hcall hs hx) hp h

theorem Fitted.feedTracked {p : Packet} {f : FlowView} {c : Conn} (hf : flowOf p.bytes = some f)
    (hc : c.state = .Wait) (hfit : Fit [] c) (h : Fitted 0 [] s.conns) :
    Fitted 0 [] (s.feedTracked w now p f c).conns := by
  have hput : Fitted f.key [] (s.put f.key { c with last := now }).conns :=
    (h.nil f.key).insert (hfit.congr rfl rfl rfl)
  unfold TcpTlsHostnameExtractor.feedTracked
  simp only
  split
  · -- flooded: the flow is given up
    have hres : Fitted f.key [] ((s.put f.key { c with last := now }).resolve w f.key none).conns :=
      Fitted.resolve (fun k c' hf' => .inr (hput k c' hf'))
    exact hres.nil 0
  · rename_i hroom
    split
    · -- the packet is held with its bytes while the reassembler has it
      have hheld : Fit [p] { c with held := c.held ++ [p], last := now } := by
        refine ⟨fun hb => ?_, fun _ => ?_⟩
        · rw [hc] at hb
          cases hb
        · obtain ⟨hmax, hlen, ps, hps, hshell⟩ := hfit.wait hc
          refine ⟨?_, hlen, ps, by simp [hps], hshell⟩
          simp only [List.length_append, List.length_singleton]
          omega
      have hin : Fitted f.key [p] ((s.put f.key { c with last := now }).put f.key
          { c with held := c.held ++ [p], last := now }).conns := by
        intro k c' hf'
        simp only [put_conns, AList.find_insert] at hf'
        split at hf'
        · rename_i he
          cases hf'
          rw [if_pos he]
          exact hheld
        · rename_i he
          rw [if_neg he]
          simpa using h k c' hf'
      exact (hin.reassemble hf).releaseLast.nil 0
    · split
      · exact hput.nil 0
      · exact (hput.reassemble hf).nil 0

theorem fit_empty : Fit [] {} := by
  refine ⟨?_, ?_⟩
  · intro h
    cases h
  · intro _
    exact ⟨Nat.zero_le _, Nat.zero_le _, [], rfl, by simp⟩

theorem Fitted.feedFlow {p : Packet} {f : FlowView} (hf : flowOf p.bytes = some f)
    (hfeed : s.feeding = false) (h : Fitted 0 [] s.conns) :
    Fitted 0 [] (s.feedFlow w now p f).conns := by
  unfold TcpTlsHostnameExtractor.feedFlow
  cases hl : s.conns.find f.key with
  | none =>
    have hroom : Fitted 0 [] (s.makeRoom w now).conns :=
      path_fitted rfl (makeRoom_path w now .tick hfeed).1 h
    simp only
    unfold feedUntracked
    split
    · exact h
    · simp only
      split
      · exact hroom
      · exact Fitted.feedTracked hf rfl fit_empty hroom
  | some c =>
    have hfit : Fit [] c := by simpa using h f.key c hl
    simp only
    split
    · have hput := (h.nil f.key).insert (c := { c with last := now }) (hfit.congr rfl rfl rfl)
      exact hput.nil 0
    · rename_i hc
      have hw : c.state = .Wait := by
        cases hst : c.state with
        | Wait => rfl
        | Block => exact absurd hst hc
      exact Fitted.feedTracked hf hw hfit h

theorem apply_fitted (op : Op) (hfeed : s.feeding = false) (h : Fitted 0 [] s.conns) :
    Fitted 0 [] (op.apply w s).conns := by
  cases op with
  | feed now p =>
    have htick : Fitted 0 [] (s.tick w now).conns :=
      path_fitted rfl (tick_path w now .tick hfeed).1 h
    show Fitted 0 [] (s.feed w now p.val).conns
    cases hf : flowOf p.val.bytes with
    | none =>
      rw [feed_of_no_flow hf]
      exact htick
    | some f =>
      rw [feed_of_flow hf]
      exact htick.feedFlow hf (tick_path w now .tick hfeed).2
  | tick now => exact path_fitted rfl (tick_path w now .tick hfeed).1 h
  | flush now => exact path_fitted rfl (flush_path w now hfeed).1 h

/-- The gauge that other threads read is the size of the table. -/
theorem apply_flows (op : Op) (h : s.flows = s.conns.size) :
    (op.apply w s).flows = (op.apply w s).conns.size := by
  cases op with
  | feed now p => rfl
  | tick now =>
    show (s.tick w now).flows = (s.tick w now).conns.size
    unfold tick
    split
    · exact h
    · rfl
  | flush now => rfl

/-- No call moves a cap. -/
theorem run_caps (ops : List Op) (hfeed : s.feeding = false) :
    (ops.foldl (Op.apply w) s).max_flows = s.max_flows ∧
    (ops.foldl (Op.apply w) s).max_blocked = s.max_blocked := by
  refine (run_law (I := fun _ x => x.max_flows = s.max_flows ∧ x.max_blocked = s.max_blocked)
    ?_ ?_ hfeed ⟨rfl, rfl⟩ ops).1
  · intro now call fed x y hs hx
    have hcaps := step_caps hs
    exact ⟨(congrArg (fun z => z.1) hcaps).trans hx.1, (congrArg (fun z => z.2.1) hcaps).trans hx.2⟩
  · intro p fed x y ht hx
    cases ht with
    | decided v => exact hx
    | refused f => exact hx
    | held f c => exact hx

/-! ## The law -/

/-- The representation invariant of the flow table. -/
structure WellFormed (s : TcpTlsHostnameExtractor R P) : Prop where
  size_le : s.conns.size ≤ s.max_flows
  flows_eq : s.flows = s.conns.size
  block_empty : ∀ k c, s.conns.find k = some c → c.state = .Block → c.held = [] ∧ c.stream = []
  wait_bounded : ∀ k c, s.conns.find k = some c → c.state = .Wait →
    c.held.length ≤ 32 ∧ c.stream.length ≤ 32768
  held_shells : ∀ k c p, s.conns.find k = some c → p ∈ c.held → p.has_bytes = false
  ring_length : s.block_ring.length = s.max_blocked
  ring_pos : 1 ≤ s.max_blocked
  next_lt : s.block_next < s.max_blocked

theorem wellFormed_of_fitted (h : Fitted 0 [] s.conns) (hflows : s.flows = s.conns.size)
    (hring : Ringed s) : WellFormed s := by
  have hfit : ∀ k c, s.conns.find k = some c → Fit [] c := by
    intro k c hf
    simpa using h k c hf
  refine ⟨hring.size_le, hflows, fun k c hf => (hfit k c hf).block, ?_, ?_, hring.length_ring,
    Nat.zero_lt_of_lt hring.next_lt, hring.next_lt⟩
  · intro k c hf hw
    obtain ⟨hheld, hlen, -⟩ := (hfit k c hf).wait hw
    exact ⟨hheld, hlen⟩
  · intro k c p hf hp
    cases hst : c.state with
    | Block =>
      rw [((hfit k c hf).block hst).1] at hp
      cases hp
    | Wait =>
      obtain ⟨-, -, ps, hps, hshell⟩ := (hfit k c hf).wait hst
      rw [hps, List.append_nil] at hp
      exact hshell p hp

/-- After every call of every run the table is well formed, under the caps
that the constructor chose. -/
theorem every_call_leaves_a_well_formed_table (w : World R P) (r : R) (p : P)
    (max_flows max_blocked : Nat) (ops : List Op) :
    WellFormed (ops.foldl (Op.apply w) (init r p max_flows max_blocked)) ∧
    (ops.foldl (Op.apply w) (init r p max_flows max_blocked)).max_flows =
      (init r p max_flows max_blocked).max_flows ∧
    (ops.foldl (Op.apply w) (init r p max_flows max_blocked)).max_blocked =
      (init r p max_flows max_blocked).max_blocked := by
  have hlaw := run_keeps (f := Op.apply w) (s := init r p max_flows max_blocked)
    (I := fun _ x => Fitted 0 [] x.conns ∧ x.flows = x.conns.size ∧ x.feeding = false)
    ⟨fun k c hf => by simp [init] at hf, rfl, rfl⟩
    (fun done x op hx =>
      ⟨apply_fitted op hx.2.2 hx.1, apply_flows op hx.2.1, apply_feeding op hx.2.2⟩) ops
  obtain ⟨hfitted, hflows, -⟩ := hlaw
  obtain ⟨hring, -⟩ := ringed_run (w := w) r p max_flows max_blocked ops
  exact ⟨wellFormed_of_fitted hfitted hflows hring, run_caps ops rfl⟩

end packet_inspector.TcpTlsHostnameExtractor
