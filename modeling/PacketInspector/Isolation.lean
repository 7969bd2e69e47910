-- One flow apart from the others: what the reassembler is relied on for, and
-- what the calls on other flows leave of the connections of one flow: their
-- part of the reassembler, and that no one queues their close.
import PacketInspector.Tokens
import PacketInspector.Traffic

open wire packet_inspector.tls runs

namespace packet_inspector

/-- The reassembler keeps its connections apart. A packet is answered from
the part of its own connection, with callbacks for that connection, and the
parts of the others stay as they are until they ended. A connection ends with
a callback that says so. -/
structure Independent {R P S : Type} (w : World R P) (token : Connection → UInt32)
    (part : R → UInt32 → S) (step : S → Time → Bytes → S × List Callback) (ended : S → Prop) :
    Prop where
  own : ∀ r now packet f, flowOf packet = some f → ¬ ended (part r (token (connectionOf f))) →
    part (w.reassemblePacket r now packet).1 (token (connectionOf f)) =
      (step (part r (token (connectionOf f))) now packet).1 ∧
    (w.reassemblePacket r now packet).2 = (step (part r (token (connectionOf f))) now packet).2
  others : ∀ r now packet f tok, flowOf packet = some f → tok ≠ token (connectionOf f) →
    ¬ ended (part r tok) → part (w.reassemblePacket r now packet).1 tok = part r tok
  closes : ∀ r now tok tok', tok' ≠ tok → ¬ ended (part r tok') →
    part (w.closeConnection r now tok).1 tok' = part r tok'
  purges : ∀ r now tok, ¬ ended (part r tok) →
    part (w.purgeClosedConnections r now).1 tok = part r tok
  names : ∀ r now packet f, flowOf packet = some f →
    ∀ cb ∈ (w.reassemblePacket r now packet).2, cb.token = token (connectionOf f)
  ends : ∀ st now packet, ¬ ended st → ended (step st now packet).1 →
    ∃ tok, .finish tok ∈ (step st now packet).2

/-- No token that is guarded belongs to the flow `key`. -/
def Foreign (token : Connection → UInt32) (fed : List Packet) (guarded : UInt32 → Prop)
    (key : UInt32) : Prop :=
  ∀ tok, guarded tok → ¬ Home token fed tok key

theorem Apart.foreign {token : Connection → UInt32} {fed : List Packet} {k key : UInt32}
    (h : Apart token fed) (hk : key ≠ k) :
    Foreign token fed (fun tok => Home token fed tok k) key :=
  fun _ hhome hkey => hk (h.key_eq hkey hhome)

theorem resolvesOn_of_finish {tok : UInt32} {cbs : List Callback} (h : .finish tok ∈ cbs) :
    ∀ stream, resolvesOn stream cbs = true := by
  induction cbs with
  | nil => cases h
  | cons cb cbs ih =>
    intro stream
    rcases List.mem_cons.mp h with rfl | hrest
    · rfl
    · cases cb with
      | start tok' => exact ih hrest stream
      | finish tok' => rfl
      | message side tok' data =>
        by_cases hside : side = kClientSide
        · subst hside
          rw [resolvesOn_client]
          split
          · rfl
          · exact ih hrest (stream ++ data)
        · simp only [resolvesOn, ne_eq, hside, not_false_eq_true, if_true]
          exact ih hrest stream

namespace TcpTlsHostnameExtractor

variable {R P S : Type} {w : World R P} {s x y : TcpTlsHostnameExtractor R P} {now : Time}
  {token : Connection → UInt32} {part : R → UInt32 → S}
  {step : S → Time → Bytes → S × List Callback} {ended : S → Prop} {fed : List Packet}
  {guarded : UInt32 → Prop} {parts : UInt32 → S} {key : UInt32}

/-! ## The invariant -/

/-- Every waiting flow has a token of its own. No guarded one is queued to be
closed, and the reassembler has the parts of the guarded ones. -/
structure Shielded (token : Connection → UInt32) (part : R → UInt32 → S) (fed : List Packet)
    (guarded : UInt32 → Prop) (parts : UInt32 → S) (s : TcpTlsHostnameExtractor R P) : Prop where
  home : ∀ k tok b, s.waits k = some (tok, b) → tok = 0 ∨ Home token fed tok k
  free : ∀ tok ∈ s.to_close, ¬ guarded tok
  parts : ∀ tok, guarded tok → part s.reassembly tok = parts tok

theorem Shielded.alike (h : Shielded token part fed guarded parts x) (ha : Alike x y) :
    Shielded token part fed guarded parts y := by
  refine ⟨?_, ?_, ?_⟩
  · intro k tok b hk
    rw [ha.waits] at hk
    exact h.home k tok b hk
  · rw [ha.to_close]
    exact h.free
  · rw [ha.reassembly]
    exact h.parts

/-- A foreign flow that is resolved queues a token of its own. -/
theorem Shielded.resolve (h : Shielded token part fed guarded parts x)
    (hforeign : Foreign token fed guarded key) (hostname : Option Bytes) :
    Shielded token part fed guarded parts (x.resolve w key hostname) := by
  refine resolve_keeps (I := Shielded token part fed guarded parts) ?_ h
  intro v z hv hwrite
  refine ⟨?_, ?_, ?_⟩
  · intro k tok b hk
    rw [hwrite.waits] at hk
    split at hk
    · cases hk
    · exact h.home k tok b hk
  · intro tok hm hg
    rw [hwrite.to_close] at hm
    rcases List.mem_append.mp hm with hm | hm
    · exact h.free tok hm hg
    · obtain ⟨rfl, h0⟩ := eq_of_mem_queued hm
      exact hforeign v.1 hg ((h.home key v.1 v.2 hv).resolve_left h0)
  · rw [hwrite.reassembly]
    exact h.parts

theorem Shielded.enter (h : Shielded token part fed guarded parts x)
    (hwrite : Write key (some (0, false)) [] x y) :
    Shielded token part fed guarded parts y := by
  refine ⟨?_, ?_, ?_⟩
  · intro k tok b hk
    rw [hwrite.waits] at hk
    split at hk
    · cases hk
      exact .inl rfl
    · exact h.home k tok b hk
  · rw [hwrite.to_close, List.append_nil]
    exact h.free
  · rw [hwrite.reassembly]
    exact h.parts

section Calls

variable (hw : Independent w token part step ended) (hopen : ∀ tok, guarded tok → ¬ ended (parts tok))

include hw hopen

theorem Shielded.purge (now : Time) (h : Shielded token part fed guarded parts x) :
    Shielded token part fed guarded parts
      { x with reassembly := (w.purgeClosedConnections x.reassembly now).1 } := by
  refine ⟨h.home, h.free, ?_⟩
  intro tok hg
  have hpart := h.parts tok hg
  rw [hw.purges x.reassembly now tok (hpart ▸ hopen tok hg)]
  exact hpart

theorem Shielded.drain (now : Time) (hfeed : x.feeding = false)
    (h : Shielded token part fed guarded parts x) :
    Shielded token part fed guarded parts (x.drain_closes w now) := by
  have hfold := foldl_leaves (f := fun y tok => y.settle w (w.closeConnection y.reassembly now tok))
    (Q := fun l y => (∀ tok ∈ l, ¬ guarded tok) ∧ y.feeding = false ∧ y.conns = x.conns ∧
      ∀ tok, guarded tok → part y.reassembly tok = parts tok) ?_ x.to_close x
    ⟨h.free, hfeed, rfl, h.parts⟩
  · obtain ⟨-, -, hconns, hparts⟩ := hfold
    refine ⟨?_, fun tok hm => (List.not_mem_nil hm).elim, hparts⟩
    intro k tok b hk
    have ha : Alike x { x with conns := (x.drain_closes w now).conns } :=
      alike_of_conns hconns rfl rfl
    exact h.home k tok b ((ha.waits k).symm.trans hk)
  · rintro tok l z ⟨hfree, hzf, hconns, hparts⟩
    refine ⟨fun tok' hm => hfree tok' (by simp [hm]), ?_⟩
    rw [settle_of_not_feeding _ hzf]
    refine ⟨hzf, hconns, ?_⟩
    intro tok' hg
    have hne : tok' ≠ tok := by
      rintro rfl
      exact hfree tok' (by simp) hg
    have hpart := hparts tok' hg
    rw [hw.closes z.reassembly now tok tok' hne (hpart ▸ hopen tok' hg)]
    exact hpart

theorem Shielded.tick (now : Time) (hfeed : x.feeding = false)
    (hforeign : ∀ key ∈ x.collect w (isIdle now), Foreign token fed guarded key)
    (h : Shielded token part fed guarded parts x) :
    Shielded token part fed guarded parts (x.tick w now) :=
  tick_law (I := Shielded token part fed guarded parts) (fun _ _ ha hy => hy.alike ha)
    (fun _ key hm hy => hy.resolve (hforeign key hm) none) (fun _ hy => hy.purge hw hopen now)
    (fun _ hf hy => hy.drain hw hopen now hf) hfeed h

/-! ## The callbacks of one packet -/

/-- Between the callbacks for a packet of the flow `key`: no guarded token is
queued, unless this flow was resolved and the token is its own. -/
structure Amid (token : Connection → UInt32) (part : R → UInt32 → S) (fed : List Packet)
    (guarded : UInt32 → Prop) (parts : UInt32 → S) (key : UInt32)
    (s : TcpTlsHostnameExtractor R P) : Prop where
  home : ∀ k tok b, s.waits k = some (tok, b) → tok = 0 ∨ Home token fed tok k
  free : Foreign token fed guarded key ∨ s.waits key ≠ none → ∀ tok ∈ s.to_close, ¬ guarded tok
  parts : ∀ tok, guarded tok → part s.reassembly tok = parts tok

omit hw hopen in
theorem Amid.alike (h : Amid token part fed guarded parts key x) (ha : Alike x y) :
    Amid token part fed guarded parts key y := by
  refine ⟨?_, ?_, ?_⟩
  · intro k tok b hk
    rw [ha.waits] at hk
    exact h.home k tok b hk
  · rw [ha.to_close, ha.waits]
    exact h.free
  · rw [ha.reassembly]
    exact h.parts

omit hw hopen in
theorem Amid.deliver (packet : Bytes) {cb : Callback} (hhome : Home token fed cb.token key)
    (hin : x.inside = (true, key)) (h : Amid token part fed guarded parts key x) :
    Amid token part fed guarded parts key (x.deliver w packet cb) := by
  cases hv : x.waits key with
  | none => exact h.alike (deliver_alike packet cb hin hv)
  | some v =>
    obtain ⟨c, hl, hc, rfl⟩ := waits_eq_some.mp hv
    have hfree := h.free (.inr (by simp [hv]))
    rcases deliver_outcome (w := w) packet cb hin hl hc with
      ⟨c', hl', hc', htok, hclosed, -, hwrite⟩ | ⟨-, hwrite⟩
    · -- the flow still waits, maybe with the token that the callback told it
      refine ⟨?_, ?_, ?_⟩
      · intro k tok b hk
        rw [hwrite.waits] at hk
        split at hk
        · rename_i he
          cases hk
          rw [htok, he]
          split
          · exact .inr hhome
          · exact h.home key _ _ hv
        · exact h.home k tok b hk
      · rw [hwrite.to_close, List.append_nil]
        exact fun _ => hfree
      · rw [hwrite.reassembly]
        exact h.parts
    · refine ⟨?_, ?_, ?_⟩
      · intro k tok b hk
        rw [hwrite.waits] at hk
        split at hk
        · cases hk
        · exact h.home k tok b hk
      · intro hguard tok hm hg
        rw [hwrite.waits, if_pos rfl] at hguard
        rw [hwrite.to_close] at hm
        rcases List.mem_append.mp hm with hm | hm
        · exact hfree tok hm hg
        · split at hm
          · obtain ⟨rfl, -⟩ := eq_of_mem_queued hm
            exact hguard.resolve_right (by simp) _ hg hhome
          · cases hm
      · rw [hwrite.reassembly]
        exact h.parts

omit hopen in
theorem Amid.reassemblePoint {p : Packet} {f : FlowView} (parts' : UInt32 → S) (hp : p ∈ fed)
    (hf : flowOf p.bytes = some f) (now : Time) (h : Shielded token part fed guarded parts x)
    (hparts : ∀ tok, guarded tok →
      part (w.reassemblePacket x.reassembly now p.bytes).1 tok = parts' tok) :
    Amid token part fed guarded parts' f.key (x.reassemblePoint w now f.key p.bytes) := by
  have hcbs : ∀ cb ∈ (w.reassemblePacket x.reassembly now p.bytes).2,
      Home token fed cb.token f.key :=
    fun cb hm => ⟨p, hp, f, hf, (hw.names _ now _ f hf cb hm).symm, rfl⟩
  have hpoint := reassemblePoint_law w now (s := x)
    (Q := fun cbs y => (∀ cb ∈ cbs, Home token fed cb.token f.key) ∧
      Amid token part fed guarded parts' f.key y) hf
    (fun cbs y z hconns hclose hreass hy => ⟨hy.1, hy.2.alike (alike_of_conns hconns hclose hreass)⟩)
    (fun cb cbs y hin hy => ⟨fun cb' hm => hy.1 cb' (by simp [hm]),
      hy.2.deliver p.bytes (hy.1 cb (by simp)) hin⟩)
    ⟨hcbs, h.home, fun _ => h.free, hparts⟩
  exact hpoint.2

omit hw hopen in
/-- A flow waits after the callbacks only when none of them resolves it. -/
theorem reassemblePoint_still {packet : Bytes} {f : FlowView} {c : Conn} (now : Time)
    (hf : flowOf packet = some f) (hl : x.conns.find f.key = some c) (hc : c.state = .Wait)
    (hwaits : (x.reassemblePoint w now f.key packet).waits f.key ≠ none) :
    resolvesOn c.stream (w.reassemblePacket x.reassembly now packet).2 = false := by
  by_contra hres
  have hpoint := reassemblePoint_law w now (s := x)
    (Q := fun cbs y => y.waits f.key = none ∨
      ∃ c, y.conns.find f.key = some c ∧ c.state = .Wait ∧ resolvesOn c.stream cbs = true) hf
    (by
      rintro cbs y z hconns hclose hreass hy
      rwa [(alike_of_conns (s := y) hconns hclose hreass).waits, hconns])
    (by
      rintro cb cbs y hin (hy | ⟨c', hl', hc', hres'⟩)
      · exact .inl (((deliver_alike packet cb hin hy).waits f.key).trans hy)
      · rcases deliver_outcome (w := w) packet cb hin hl' hc' with
          ⟨c'', hl'', hc'', -, -, hnext, -⟩ | ⟨-, hwrite⟩
        · exact .inr ⟨c'', hl'', hc'', (hnext cbs).symm.trans hres'⟩
        · refine .inl ?_
          rw [hwrite.waits, if_pos rfl])
    (.inr ⟨c, hl, hc, by simpa using hres⟩)
  rcases hpoint with hnone | ⟨c', -, -, hno⟩
  · exact hwaits hnone
  · simp [resolvesOn] at hno

/-- A packet of a foreign flow leaves the guarded connections alone. -/
theorem Shielded.reassemble {p : Packet} {f : FlowView} (hp : p ∈ fed)
    (hf : flowOf p.bytes = some f) (hforeign : Foreign token fed guarded f.key) (now : Time)
    (h : Shielded token part fed guarded parts x) :
    Shielded token part fed guarded parts (x.reassemble w now f.key p.bytes) := by
  have hpoint := Amid.reassemblePoint hw parts hp hf now h (by
    intro tok hg
    have hne : tok ≠ token (connectionOf f) := by
      rintro rfl
      exact hforeign _ hg ⟨p, hp, f, hf, rfl, rfl⟩
    have hpart := h.parts tok hg
    rw [hw.others x.reassembly now p.bytes f tok hf hne (hpart ▸ hopen tok hg)]
    exact hpart)
  rw [reassemble_drains]
  exact Shielded.drain hw hopen now rfl ⟨hpoint.home, hpoint.free (.inl hforeign), hpoint.parts⟩

/-- The parts of the connections after a packet of the flow `f`. -/
def partsAfter (token : Connection → UInt32) (step : S → Time → Bytes → S × List Callback)
    (parts : UInt32 → S) (now : Time) (f : FlowView) (packet : Bytes) : UInt32 → S :=
  Function.update parts (token (connectionOf f))
    (step (parts (token (connectionOf f))) now packet).1

/-- A packet of a guarded flow that waits on: its connection steps by itself,
and has not ended. -/
theorem Shielded.reassemble_own {p : Packet} {f : FlowView} {c : Conn} (hp : p ∈ fed)
    (hf : flowOf p.bytes = some f) (hown : guarded (token (connectionOf f))) (now : Time)
    (hl : x.conns.find f.key = some c) (hc : c.state = .Wait)
    (h : Shielded token part fed guarded parts x)
    (hwaits : (x.reassemble w now f.key p.bytes).waits f.key ≠ none) :
    Shielded token part fed guarded (partsAfter token step parts now f p.bytes)
      (x.reassemble w now f.key p.bytes) ∧
    ∀ tok, guarded tok → ¬ ended (partsAfter token step parts now f p.bytes tok) := by
  have hself := h.parts _ hown
  obtain ⟨hpart, hcbs⟩ := hw.own x.reassembly now p.bytes f hf (hself ▸ hopen _ hown)
  rw [hself] at hpart hcbs
  have hpoint := Amid.reassemblePoint hw (partsAfter token step parts now f p.bytes) hp hf now h (by
    intro tok hg
    unfold partsAfter
    by_cases hne : tok = token (connectionOf f)
    · rw [hne, Function.update_self]
      exact hpart
    · have htok := h.parts tok hg
      rw [Function.update_of_ne hne, hw.others x.reassembly now p.bytes f tok hf hne
        (htok ▸ hopen tok hg)]
      exact htok)
  rw [reassemble_drains] at hwaits ⊢
  rw [(drain_closes_view w now rfl).1] at hwaits
  have hopen' : ∀ tok, guarded tok → ¬ ended (partsAfter token step parts now f p.bytes tok) := by
    intro tok hg hend
    unfold partsAfter at hend
    by_cases hne : tok = token (connectionOf f)
    · rw [hne, Function.update_self] at hend
      obtain ⟨tok', hm⟩ := hw.ends _ now p.bytes (hopen _ hown) hend
      have hstill := reassemblePoint_still now hf hl hc hwaits
      rw [hcbs, resolvesOn_of_finish hm] at hstill
      cases hstill
    · rw [Function.update_of_ne hne] at hend
      exact hopen tok hg hend
  refine ⟨?_, hopen'⟩
  exact Shielded.drain hw hopen' now rfl ⟨hpoint.home, hpoint.free (.inr hwaits), hpoint.parts⟩

/-! ## The calls -/

/-- A call that serves foreign flows only leaves the guarded connections
alone. -/
theorem Shielded.apply {op : Op} (hfed : ∀ p, op.fed = some p → p ∈ fed)
    (hfeed : s.feeding = false)
    (hidle : ∀ x, (x = s ∨ x = s.tick w op.now) → ∀ key ∈ x.collect w (isIdle op.now),
      Foreign token fed guarded key)
    (hown : ∀ p f, op.fed = some p → flowOf p.bytes = some f → Foreign token fed guarded f.key)
    (hflush : ∀ now, op = .flush now → ∀ key, Foreign token fed guarded key)
    (h : Shielded token part fed guarded parts s) :
    Shielded token part fed guarded parts (op.apply w s) := by
  cases op with
  | tick now => exact h.tick hw hopen now hfeed (hidle s (.inl rfl))
  | flush now =>
    exact flush_law (I := Shielded token part fed guarded parts) (fun _ _ ha hy => hy.alike ha)
      (fun _ key hy => hy.resolve (hflush now rfl key) none)
      (fun _ hf hy => hy.drain hw hopen now hf) hfeed h
  | feed now pkt =>
    have hfeed' := (tick_path w now .tick hfeed).2
    have htick := h.tick hw hopen now hfeed (hidle s (.inl rfl))
    show Shielded token part fed guarded parts (s.feed w now pkt.val)
    cases hf : flowOf pkt.val.bytes with
    | none =>
      rw [feed_of_no_flow hf]
      exact htick.alike (alike_of_conns rfl rfl rfl)
    | some f =>
      rw [feed_of_flow hf]
      refine Shielded.alike ?_ (publish_alike _)
      exact feedFlow_law (I := Shielded token part fed guarded parts)
        (fun _ _ ha hy => hy.alike ha) (fun _ hy => hy.resolve (hown _ f rfl hf) none)
        (htick.tick hw hopen now hfeed' (hidle _ (.inr rfl))) (fun _ _ _ hwrite hy => hy.enter hwrite)
        (fun _ _ hy => hy.reassemble hw hopen (hfed _ rfl) hf (hown _ f rfl hf) now) hfeed' htick

omit hopen in
/-- In every run a waiting flow has no token but its own. -/
theorem shielded_run (parts : UInt32 → S) (r : R) (p : P)
    (max_flows max_blocked : Nat) (ops : List Op) (hfed : ∀ q ∈ fedBy ops, q ∈ fed) :
    Shielded token part fed (fun _ => False) parts
      (ops.foldl (Op.apply w) (init r p max_flows max_blocked)) := by
  refine (run_keeps (f := Op.apply w) (s := init r p max_flows max_blocked)
    (I := fun done x => (∀ q ∈ fedBy done, q ∈ fed) →
      Shielded token part fed (fun _ => False) parts x ∧ x.feeding = false) ?_ ?_ ops hfed).1
  · intro _
    exact ⟨⟨fun k tok b hk => (by cases hk), fun _ _ => id, fun _ => False.elim⟩, rfl⟩
  · intro done x op hx hdone
    have hop : ∀ q, op.fed = some q → q ∈ fed :=
      fun q hq => hdone q (List.mem_filterMap.mpr ⟨op, by simp, hq⟩)
    obtain ⟨hshield, hfeed⟩ := hx (fun q hq => hdone q (by
      obtain ⟨op', hm, hq'⟩ := List.mem_filterMap.mp hq
      exact List.mem_filterMap.mpr ⟨op', List.mem_append_left _ hm, hq'⟩))
    have hnone : ∀ key, Foreign token fed (fun _ => False) key := fun _ _ => False.elim
    exact ⟨hshield.apply hw (fun _ => False.elim) hop hfeed (fun _ _ key _ => hnone key)
      (fun _ f _ _ => hnone f.key) (fun _ _ => hnone), apply_feeding op hfeed⟩

end Calls

end TcpTlsHostnameExtractor

/-! ## A reassembler that keeps its connections apart -/

namespace traffic

/-- What one connection does with a packet. -/
def stepLink (link : Option Link) (now : Time) (packet : Bytes) : Option Link × List Callback :=
  match flowOf packet with
  | none => (link, [])
  | some f =>
    let token := tokenOf (connectionOf f)
    match link with
    | none =>
      let (l, told) := ({ first := f, token := token } : Link).take now packet f
      (some l, .start token :: told)
    | some l =>
      let (l, told) := ({ l with token := token } : Link).take now packet f
      (some l, told)

def hasEnded (link : Option Link) : Prop := ∃ l, link = some l ∧ l.closedAt.isSome = true

theorem keys_perm (t : AList (fun _ : UInt32 => Conn)) : t.keys.Perm t.keys := .refl _

/-- The world of a worker whose reassembler has one link for each token. -/
def apartWorld (b : BlockList) : World (UInt32 → Option Link) Unit where
  reassemblePacket := fun links now packet =>
    match flowOf packet with
    | none => (links, [])
    | some f =>
      let answer := stepLink (links (tokenOf (connectionOf f))) now packet
      (Function.update links (tokenOf (connectionOf f)) answer.1, answer.2)
  closeConnection := fun links now token =>
    (Function.update links token ((links token).map (fun l => { l with closedAt := some now })),
      [.finish token])
  purgeClosedConnections := fun links now =>
    (fun token => (links token).filter (fun l => l.closedAt.all (fun t => now - t < seconds 1)), [])
  decide := workerPolicy b
  walk := fun t => t.keys
  walk_perm := keys_perm

theorem token_of_take {l : Link} {now : Time} {packet : Bytes} {f : FlowView} {cb : Callback}
    (h : cb ∈ (l.take now packet f).2) : cb.token = l.token := by
  rcases l.told_of_take h with ⟨side, data, rfl⟩ | ⟨rfl, -⟩
  · rfl
  · rfl

theorem token_of_stepLink {link : Option Link} {now : Time} {packet : Bytes} {f : FlowView}
    {cb : Callback} (hf : flowOf packet = some f) (h : cb ∈ (stepLink link now packet).2) :
    cb.token = tokenOf (connectionOf f) := by
  unfold stepLink at h
  simp only [hf] at h
  split at h
  · rcases List.mem_cons.mp h with rfl | h
    · rfl
    · exact token_of_take h
  · exact token_of_take h

/-- A link is closed by a packet that ends its connection, and says so. -/
theorem finish_of_stepLink {link : Option Link} {now : Time} {packet : Bytes}
    (hopen : ¬ hasEnded link) (h : hasEnded (stepLink link now packet).1) :
    ∃ token, .finish token ∈ (stepLink link now packet).2 := by
  unfold stepLink at h ⊢
  cases hf : flowOf packet with
  | none =>
    simp only [hf] at h
    exact absurd h hopen
  | some f =>
    simp only [hf] at h ⊢
    have htake : ∀ l : Link, l.closedAt = none →
        hasEnded (some (l.take now packet f).1) → .finish l.token ∈ (l.take now packet f).2 := by
      rintro l hl ⟨l', he, hclosed⟩
      cases he
      exact l.finish_of_closed hl hclosed
    cases link with
    | none => exact ⟨_, List.mem_cons_of_mem _ (htake _ rfl h)⟩
    | some l =>
      have hl : l.closedAt = none := by
        by_contra hsome
        exact hopen ⟨l, rfl, Option.isSome_iff_ne_none.mpr hsome⟩
      exact ⟨_, htake _ hl h⟩

theorem apartWorld_independent (b : BlockList) :
    Independent (apartWorld b) tokenOf (fun links token => links token) stepLink hasEnded := by
  refine ⟨?_, ?_, ?_, ?_, ?_, fun link now packet => finish_of_stepLink⟩
  · intro links now packet f hf _
    simp [apartWorld, hf]
  · intro links now packet f token hf hne _
    simp [apartWorld, hf, Function.update_of_ne hne]
  · intro links now token token' hne _
    exact Function.update_of_ne hne _ _
  · intro links now token hopen
    simp only [apartWorld]
    cases hl : links token with
    | none => rfl
    | some l =>
      have hnone : l.closedAt = none := by
        by_contra hsome
        exact hopen ⟨l, hl, Option.isSome_iff_ne_none.mpr hsome⟩
      simp [hnone]
  · intro links now packet f hf cb hm
    simp only [apartWorld, hf] at hm
    exact token_of_stepLink hf hm

end traffic

end packet_inspector
