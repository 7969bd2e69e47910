-- One resolution gives one verdict. A flow that is resolved on its own
-- payload packet takes the whole batch with it: what it held, and the packet.
-- Only the cap on held packets hands the packet a verdict of its own.
import PacketInspector.Chunking
import PacketInspector.Flow
import PacketInspector.Idle
import PacketInspector.Traffic

open wire packet_inspector.tls runs

namespace packet_inspector.TcpTlsHostnameExtractor

variable {R P : Type} {w : World R P} {s u x : TcpTlsHostnameExtractor R P} {k : UInt32}
  {batch : List Packet}

/-! ## The batch and its verdict -/

/-- The policy was asked about the flow `k` between two states, and answered `v`. -/
def AnsweredSince (k : UInt32) (v : Verdict) (s s' : TcpTlsHostnameExtractor R P) : Prop :=
  ∃ es hostname, s'.trace = s.trace ++ es ∧ .asked k hostname v ∈ es

/-- The packets that the flow `k` holds. -/
def heldBy (s : TcpTlsHostnameExtractor R P) (k : UInt32) : List Packet :=
  match s.conns.find k with
  | some c => c.held
  | none => []

/-- Whatever the policy answered about the flow `k` is the verdict of the
whole batch, and nothing else was decided. -/
def OneVerdict (k : UInt32) (batch : List Packet) (s s' : TcpTlsHostnameExtractor R P) : Prop :=
  ∀ v, AnsweredSince k v s s' → s'.decided = s.decided ++ batch.map (fun p => ⟨p, v⟩)

/-- The flow `k` waits and holds the batch; no one has asked about it since `u`. -/
structure Pending (k : UInt32) (batch : List Packet) (u x : TcpTlsHostnameExtractor R P) :
    Prop where
  entry : ∃ c, x.conns.find k = some c ∧ c.state = .Wait ∧ c.held = batch
  decided : x.decided = u.decided
  quiet : ∃ es, x.trace = u.trace ++ es ∧ ∀ h v, .asked k h v ∉ es

/-- The batch has been given the verdict `v`, the one answer since `u`. -/
structure Verdicted (k : UInt32) (batch : List Packet) (v : Verdict)
    (u x : TcpTlsHostnameExtractor R P) : Prop where
  entry : ∀ c, x.conns.find k = some c → c.state = .Block
  decided : x.decided = u.decided ++ batch.map (fun p => ⟨p, v⟩)
  only : ∃ es, x.trace = u.trace ++ es ∧ ∀ h v', .asked k h v' ∈ es → v' = v

def InOne (k : UInt32) (batch : List Packet) (u x : TcpTlsHostnameExtractor R P) : Prop :=
  Pending k batch u x ∨ ∃ v, Verdicted k batch v u x

theorem OneVerdict.congr {y : TcpTlsHostnameExtractor R P} (h : OneVerdict k batch u x)
    (ht : y.trace = x.trace) (hd : y.decided = x.decided) : OneVerdict k batch u y := by
  rintro v ⟨es, hostname, he, hm⟩
  rw [hd]
  exact h v ⟨es, hostname, by rw [← ht, he], hm⟩

/-! ## A callback -/

theorem Pending.step {y : TcpTlsHostnameExtractor R P} {c : Conn} {es : List Event}
    (h : Pending k batch u x) (hl : y.conns.find k = some c) (hc : c.state = .Wait)
    (hheld : c.held = batch) (hd : y.decided = x.decided) (ht : y.trace = x.trace ++ es)
    (hes : ∀ h v, .asked k h v ∉ es) : Pending k batch u y := by
  refine ⟨⟨c, hl, hc, hheld⟩, hd.trans h.decided, ?_⟩
  obtain ⟨es0, he0, hquiet⟩ := h.quiet
  refine ⟨es0 ++ es, by rw [ht, he0, List.append_assoc], ?_⟩
  intro hostname v hm
  rcases List.mem_append.mp hm with hm | hm
  · exact hquiet hostname v hm
  · exact hes hostname v hm

/-- Resolving the flow gives the batch the answer of the policy. -/
theorem Pending.resolve (h : Pending k batch u x) (hostname : Option Bytes) :
    Verdicted k batch (w.decide x.policy hostname).1 u (x.resolve w k hostname) := by
  obtain ⟨c, hl, hc, rfl⟩ := h.entry
  refine ⟨?_, by rw [resolve_decided hl hc, h.decided], ?_⟩
  · intro c' hl'
    rw [resolve_find_self hl hc hl']
    rfl
  · obtain ⟨es0, he0, hquiet⟩ := h.quiet
    obtain ⟨es, he, -, hasked⟩ := resolve_trace (w := w) x k hostname
    refine ⟨es0 ++ es, by rw [he, he0, List.append_assoc], ?_⟩
    intro hostname' v hm
    rcases List.mem_append.mp hm with hm | hm
    · exact absurd hm (hquiet hostname' v)
    · exact (hasked k hostname' v hm).2

theorem Pending.checkStream (h : Pending k batch u x) (stream : Bytes) :
    InOne k batch u (x.checkStream w k stream) := by
  unfold TcpTlsHostnameExtractor.checkStream
  split
  · exact .inr ⟨_, h.resolve _⟩
  · exact .inr ⟨_, h.resolve _⟩
  · split
    · exact .inr ⟨_, h.resolve _⟩
    · exact .inl h

theorem Pending.deliver (h : Pending k batch u x) (hin : x.inside = (true, k)) (packet : Bytes)
    (cb : Callback) : InOne k batch u (x.deliver w packet cb) := by
  obtain ⟨c, hl, hc, hheld⟩ := h.entry
  -- the callback is recorded, and the entry rewritten
  have hput : ∀ c' : Conn, c'.state = .Wait → c'.held = batch →
      Pending k batch u ((x.log (.callback packet cb)).put k c') := by
    intro c' hc' hheld'
    exact h.step (AList.find_insert_self _ _ _) hc' hheld' rfl rfl (by simp)
  cases cb with
  | start tok =>
    rw [deliver_start tok hin hl]
    exact .inl (hput _ hc hheld)
  | finish tok =>
    rw [deliver_finish tok hin hl]
    exact .inr ⟨_, (hput { c with pcpp_closed := true } hc hheld).resolve none⟩
  | message side tok data =>
    by_cases hside : side = kClientSide
    · subst hside
      rw [deliver_message_wait tok data hin hl hc]
      exact (hput { c with pcpp_key := tok, stream := c.stream ++ data } hc hheld).checkStream _
    · rw [deliver_other_side tok data hside]
      exact .inl (h.step hl hc hheld rfl rfl (by simp))

/-- Once the batch is decided, a callback decides nothing more of the flow. -/
theorem Verdicted.deliver {v : Verdict} (h : Verdicted k batch v u x) (hin : x.inside = (true, k))
    (packet : Bytes) (cb : Callback) : Verdicted k batch v u (x.deliver w packet cb) := by
  have hlog : ∀ y : TcpTlsHostnameExtractor R P, y.decided = x.decided →
      y.trace = x.trace ++ [.callback packet cb] →
      (∀ c, y.conns.find k = some c → c.state = .Block) → Verdicted k batch v u y := by
    intro y hd ht hblock
    obtain ⟨es, he, honly⟩ := h.only
    refine ⟨hblock, hd.trans h.decided, es ++ [.callback packet cb], ?_, ?_⟩
    · rw [ht, he, List.append_assoc]
    · intro hostname v' hm
      simp only [List.mem_append, List.mem_singleton, reduceCtorEq, or_false] at hm
      exact honly hostname v' hm
  cases hl : x.conns.find k with
  | none =>
    rw [deliver_of_none cb hin hl]
    exact hlog _ rfl rfl h.entry
  | some c =>
    have hc := h.entry c hl
    have hput : ∀ c' : Conn, c'.state = .Block →
        Verdicted k batch v u ((x.log (.callback packet cb)).put k c') := by
      intro c' hc'
      refine hlog _ rfl rfl ?_
      intro c'' hl''
      rw [put_conns, AList.find_insert_self, Option.some.injEq] at hl''
      rw [← hl'', hc']
    cases cb with
    | start tok =>
      rw [deliver_start tok hin hl]
      exact hput _ hc
    | finish tok =>
      rw [deliver_finish tok hin hl, resolve_of_block (c := { c with pcpp_closed := true }) none
        (AList.find_insert_self _ _ _) hc]
      exact hput { c with pcpp_closed := true } hc
    | message side tok data =>
      rw [deliver_message_block side tok data hin hl hc]
      exact hlog _ rfl rfl h.entry

theorem InOne.reassemble (now : Time) {packet : Bytes} {f : FlowView}
    (hf : flowOf packet = some f) (h : InOne f.key batch u x) :
    InOne f.key batch u (x.reassemble w now f.key packet) := by
  refine reassemble_rule w now (Q := fun _ y => InOne f.key batch u y) hf ?_ ?_ h
  · intro _ y z ht hc hd hy
    rcases hy with hy | ⟨v, hy⟩
    · exact .inl ⟨by rw [hc]; exact hy.entry, by rw [hd]; exact hy.decided,
        by rw [ht]; exact hy.quiet⟩
    · exact .inr ⟨v, by rw [hc]; exact hy.entry, by rw [hd]; exact hy.decided,
        by rw [ht]; exact hy.only⟩
  · intro cb _ y hin hy
    rcases hy with hy | ⟨v, hy⟩
    · exact hy.deliver hin packet cb
    · exact .inr ⟨v, hy.deliver hin packet cb⟩

/-! ## The law -/

end packet_inspector.TcpTlsHostnameExtractor
