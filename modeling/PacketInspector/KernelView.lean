-- What the kernel sees of a worker. The verdicts that it is told are those
-- of one extractor run, so what is proved of the extractor holds at the
-- queue: no flow is reordered, and no packet is dropped without evidence.
import PacketInspector.Draining
import PacketInspector.BlockedNames
import PacketInspector.Evidence
import PacketInspector.FlowTable

open wire packet_inspector.tls runs ledger

namespace packet_inspector

variable {R P : Type} {w : World R P} {k : SetVerdict}

/-- What the kernel is told of a decided packet. -/
def Decided.told (d : Decided) : UInt32 × Verdict := (d.pkt.id, d.verdict)

theorem NFQueue.submit_verdicts {q : NFQueue} {pkt : Packet} (v : Verdict)
    (h : pkt.pending = true) : (q.submit k pkt v).1.verdicts = q.verdicts ++ [(pkt.id, v)] := by
  unfold submit
  rw [if_neg (by simp [h])]
  rfl

/-- The kernel is told of every packet that owes a verdict, whether it takes
the verdict or not. -/
theorem NFQueue.submit_all_verdicts {ds : List Decided} :
    ∀ {q : NFQueue}, (∀ d ∈ ds, d.pkt.pending = true) →
      (ds.foldl (fun q d => (q.submit k d.pkt d.verdict).1) q).verdicts =
        q.verdicts ++ ds.map Decided.told := by
  induction ds with
  | nil => simp
  | cons d ds ih =>
    intro q hds
    rw [List.foldl_cons, ih (fun d' hd' => hds d' (by simp [hd'])),
      NFQueue.submit_verdicts d.verdict (hds d (by simp))]
    simp [Decided.told]

/-- A list without entries blocks no name. -/
theorem BlockList.isHostnameBlocked_of_no_names {b : BlockList} (hexact : b.exact = [])
    (hwildcard : b.wildcard = []) (host : Bytes) : b.isHostnameBlocked host = false := by
  have hwalk : parentBlocked b.wildcard host ≠ true := by
    rw [Ne, parentBlocked_iff, hwildcard]
    simp
  unfold isHostnameBlocked
  rw [hexact, if_neg (by simp)]
  exact Bool.eq_false_of_not_eq_true hwalk

namespace TcpTlsHostnameExtractor

theorem allPackets_apply {Q : Packet → Prop} (hQ : ∀ p, Q p → Q p.release_bytes)
    {s : TcpTlsHostnameExtractor R P} (op : Op) (hop : ∀ p, op.fed = some p → Q p)
    (hfeed : s.feeding = false) (h : AllPackets Q s) : AllPackets Q (op.apply w s) :=
  @apply_law _ _ _ _ (fun _ x => AllPackets Q x) _
    (fun _ _ _ _ _ hs hx => allPackets_step hQ hs hx)
    (fun p _ _ _ hp ht hx => allPackets_take ht (hop p hp) hx) hfeed [] h

/-- A run over packets that owe a verdict leaves only such packets. -/
theorem allPending_run {ops : List Op} (hops : ∀ p ∈ fedBy ops, p.pending = true) :
    ∀ {s : TcpTlsHostnameExtractor R P}, s.feeding = false →
      AllPackets (fun p => p.pending = true) s →
      (ops.foldl (Op.apply w) s).feeding = false ∧
      AllPackets (fun p => p.pending = true) (ops.foldl (Op.apply w) s) := by
  induction ops with
  | nil => exact fun hfeed h => ⟨hfeed, h⟩
  | cons op ops ih =>
    intro s hfeed h
    have hop : ∀ p, op.fed = some p → p.pending = true :=
      fun p hp => hops p (List.mem_filterMap.mpr ⟨op, by simp, hp⟩)
    have hrest : ∀ p ∈ fedBy ops, p.pending = true := by
      intro p hp
      obtain ⟨op', hm, he⟩ := List.mem_filterMap.mp hp
      exact hops p (List.mem_filterMap.mpr ⟨op', by simp [hm], he⟩)
    exact ih hrest (apply_feeding op hfeed) (allPackets_apply (fun _ hp => hp) op hop hfeed h)

/-- A table of fit entries holds as many packets as its flows may. -/
theorem heldCount_le {s : TcpTlsHostnameExtractor R P} (h : Fitted 0 [] s.conns) :
    s.heldCount ≤ kMaxPacketsPerConn * s.conns.size := by
  have hone : ∀ n ∈ (s.conns.entries.filter (fun e => e.2.state = .Wait)).map
      (fun e => e.2.held.length), n ≤ kMaxPacketsPerConn := by
    intro n hn
    obtain ⟨e, he, rfl⟩ := List.mem_map.mp hn
    obtain ⟨hm, hwait⟩ := List.mem_filter.mp he
    exact ((h e.1 e.2 (find_of_mem_entries hm)).wait (of_decide_eq_true hwait)).1
  have hsum := List.sum_le_card_nsmul _ _ hone
  have hlen := List.length_filter_le (fun e => e.2.state = .Wait) s.conns.entries
  rw [List.length_map, smul_eq_mul, Nat.mul_comm] at hsum
  exact hsum.trans (Nat.mul_le_mul_left _ hlen)

theorem fitted_run (r : R) (p : P) (max_flows max_blocked : Nat) (ops : List Op) :
    Fitted 0 [] (ops.foldl (Op.apply w) (init r p max_flows max_blocked)).conns :=
  (run_keeps (f := Op.apply w) (I := fun _ x => x.feeding = false ∧ Fitted 0 [] x.conns)
    ⟨rfl, fun k c hf => by simp [init] at hf⟩
    (fun _ _ op hx => ⟨apply_feeding op hx.1, apply_fitted op hx.1 hx.2⟩) ops).2

end TcpTlsHostnameExtractor

open TcpTlsHostnameExtractor

namespace Worker

variable {wk : Worker R P}

/-! ## The calls of a loop -/

/-- The call by which a packet of a batch is fed. -/
def feedOf (x : Time × NfqData) : Op := .feed x.1 x.2.arrival

/-- The calls that the turns of a loop make, up to its end. -/
def calls : List (NFQueue.Event × Time) → List Op
  | [] => []
  | (.Stop, now) :: _ => [.flush now]
  | (.Error, now) :: _ => [.flush now]
  | (.Idle, now) :: turns => .tick now :: calls turns
  | (.Packets batch, now) :: turns => batch.map feedOf ++ .tick now :: calls turns

theorem fedBy_feeds (batch : List (Time × NfqData)) :
    fedBy (batch.map feedOf) = batch.map (fun x => x.2.packet) := by
  induction batch with
  | nil => rfl
  | cons x batch ih =>
    rw [List.map_cons, List.map_cons, ← ih]
    rfl

/-- The packets fed are those that the loop receives. -/
theorem fedBy_calls (turns : List (NFQueue.Event × Time)) : fedBy (calls turns) = arrivals turns := by
  induction turns with
  | nil => rfl
  | cons t turns ih =>
    obtain ⟨ev, now⟩ := t
    cases ev with
    | Stop => rfl
    | Error => rfl
    | Idle => exact ih
    | Packets batch =>
      have hfeeds := fedBy_feeds batch
      show fedBy (batch.map feedOf ++ .tick now :: calls turns) =
        batch.map (fun x => x.2.packet) ++ arrivals turns
      rw [fedBy, List.filterMap_append, ← fedBy, hfeeds, ← ih]
      rfl

/-! ## The loop as one run -/

/-- An inspecting worker feeds its batch, and nothing else of it moves but
the count of the packets received. -/
theorem run_once_inspecting (batch : List (Time × NfqData)) :
    ∀ {wk : Worker R P}, wk.passthrough = false →
      wk.run_once w k (.Packets batch) = { wk with
        queue := { wk.queue with received := wk.queue.received + batch.length }
        tls := (batch.map feedOf).foldl (Op.apply w) wk.tls } := by
  induction batch with
  | nil => exact fun _ => rfl
  | cons x batch ih =>
    intro wk hmode
    have hrest := @ih { wk.receive with tls := wk.tls.feed w x.1 x.2.packet } hmode
    unfold run_once at hrest ⊢
    dsimp only at hrest ⊢
    rw [List.foldl_cons, handle_inspecting w k x.1 x.2 hmode, hrest]
    simp [receive, feedOf, Op.apply, NfqData.arrival, Nat.add_assoc, Nat.add_comm 1]

/-- The worker between two turns: it inspects, nothing is being fed, and
every packet owes a verdict. -/
structure Inspecting (wk : Worker R P) : Prop where
  mode : wk.passthrough = false
  feeding : wk.tls.feeding = false
  pending : AllPackets (fun p => p.pending = true) wk.tls

/-- A worker makes some calls and drains the buffer: the kernel is told what
they decided, and the buffer is empty. -/
theorem Inspecting.serve (h : Inspecting wk) (ops : List Op)
    (hops : ∀ p ∈ fedBy ops, p.pending = true) (queue : NFQueue) :
    let x := ops.foldl (Op.apply w) wk.tls
    let wk' := drain_decided { wk with queue := queue, tls := x } k
    Inspecting wk' ∧ wk'.queue.verdicts = queue.verdicts ++ x.decided.map Decided.told ∧
    wk'.tls = { x with decided := [] } := by
  intro x wk'
  obtain ⟨hfeed, hpending⟩ := allPending_run (w := w) hops h.feeding h.pending
  refine ⟨⟨h.mode, hfeed, ⟨fun d hd => (by cases hd), hpending.held⟩⟩, ?_, rfl⟩
  exact NFQueue.submit_all_verdicts hpending.decided

theorem loop_calls (w : World R P) (k : SetVerdict) (turns : List (NFQueue.Event × Time)) :
    ∀ {wk : Worker R P}, Inspecting wk → wk.tls.decided = [] →
      let x := (calls turns).foldl (Op.apply w) wk.tls
      let wk' := (wk.loop w k turns).2
      wk'.queue.verdicts = wk.queue.verdicts ++ x.decided.map Decided.told ∧
      wk'.tls = { x with decided := [] } := by
  induction turns with
  | nil =>
    intro wk _ hempty
    simp only [calls, loop, List.foldl_nil]
    rw [hempty]
    refine ⟨(List.append_nil _).symm, ?_⟩
    rw [← hempty]
  | cons t turns ih =>
    intro wk h hempty
    obtain ⟨ev, now⟩ := t
    -- a turn that does not end the loop: its calls, and then those of the rest
    have hturn : ∀ (ops : List Op) (queue : NFQueue), (∀ p ∈ fedBy ops, p.pending = true) →
        queue.verdicts = wk.queue.verdicts →
        let x := (ops ++ calls turns).foldl (Op.apply w) wk.tls
        let wk' := ((drain_decided { wk with
          queue := queue, tls := ops.foldl (Op.apply w) wk.tls } k).loop w k turns).2
        wk'.queue.verdicts = wk.queue.verdicts ++ x.decided.map Decided.told ∧
        wk'.tls = { x with decided := [] } := by
      intro ops queue hops hqueue
      obtain ⟨hnext, htold, htls⟩ := h.serve (w := w) (k := k) _ hops queue
      obtain ⟨hverdicts, hend⟩ := ih hnext (by rw [htls])
      rw [htls] at hend hverdicts
      dsimp only
      rw [run_drained, ahead_decided]
      refine ⟨?_, hend⟩
      rw [hverdicts, htold, hqueue, List.map_append, List.append_assoc]
    have hend : let x := [Op.flush now].foldl (Op.apply w) wk.tls
        (wk.finish w k now).queue.verdicts =
          wk.queue.verdicts ++ x.decided.map Decided.told ∧
        (wk.finish w k now).tls = { x with decided := [] } :=
      (h.serve (w := w) (k := k) [.flush now] (by simp [fedBy, Op.fed]) wk.queue).2
    cases ev with
    | Stop => exact hend
    | Error => exact hend
    | Idle => exact hturn [.tick now] wk.queue (by simp [fedBy, Op.fed]) rfl
    | Packets batch =>
      have hfed : ∀ p ∈ fedBy (batch.map feedOf ++ [.tick now]), p.pending = true := by
        intro p hp
        rw [fedBy, List.filterMap_append, ← fedBy, fedBy_feeds] at hp
        rcases List.mem_append.mp hp with hp | hp
        · obtain ⟨x, -, rfl⟩ := List.mem_map.mp hp
          exact x.2.packet_pending
        · simp [Op.fed] at hp
      have hall := hturn (batch.map feedOf ++ [.tick now])
        { wk.queue with received := wk.queue.received + batch.length } hfed rfl
      have hloop : wk.loop w k ((.Packets batch, now) :: turns) =
          (wk.turn w k (.Packets batch) now).loop w k turns := rfl
      rw [hloop, turn, run_once_inspecting batch h.mode]
      have htick : (batch.map feedOf ++ [Op.tick now]).foldl (Op.apply w) wk.tls =
          ((batch.map feedOf).foldl (Op.apply w) wk.tls).tick w now := by
        rw [List.foldl_append]
        rfl
      rw [htick, List.append_assoc] at hall
      exact hall

/-- A worker as main builds it. -/
def constructed (passthrough : Bool) (r : R) (p : P) (max_flows max_blocked : Nat) : Worker R P :=
  { passthrough := passthrough, tls := init r p max_flows max_blocked }

theorem constructed_inspecting (r : R) (p : P) (max_flows max_blocked : Nat) :
    Inspecting (constructed false r p max_flows max_blocked) := by
  refine ⟨rfl, rfl, ⟨fun d hd => ?_, fun key c hl => ?_⟩⟩
  · cases hd
  · cases hl

theorem constructed_calls (w : World R P) (k : SetVerdict) (r : R) (p : P) (max_flows max_blocked : Nat)
    (turns : List (NFQueue.Event × Time)) :
    let x := (calls turns).foldl (Op.apply w) (init r p max_flows max_blocked)
    let wk := ((constructed false r p max_flows max_blocked).loop w k turns).2
    wk.queue.verdicts = x.decided.map Decided.told ∧ wk.tls = { x with decided := [] } :=
  loop_calls w k turns (constructed_inspecting r p max_flows max_blocked) rfl

/-- An inspecting worker is one extractor that is fed what the kernel hands
over: whatever the kernel answers, it is told the decisions of that run, in
their order, and the extractor is left as by that run. -/
theorem the_kernel_is_told_one_run (w : World R P) (k : SetVerdict) (r : R) (p : P)
    (max_flows max_blocked : Nat) (turns : List (NFQueue.Event × Time)) :
    let x := (calls turns).foldl (Op.apply w) (init r p max_flows max_blocked)
    let wk := ((constructed false r p max_flows max_blocked).loop w k turns).2
    fedBy (calls turns) = arrivals turns ∧
    wk.queue.verdicts = x.decided.map (fun d => (d.pkt.id, d.verdict)) ∧
    wk.tls = { x with decided := [] } := by
  intro x wk
  exact ⟨fedBy_calls turns, constructed_calls w k r p max_flows max_blocked turns⟩

/-! ## What the kernel is told -/

section Told

variable (w : World R P) (k : SetVerdict) (r : R) (p : P) (max_flows max_blocked : Nat)
  (turns : List (NFQueue.Event × Time))

/-- What was decided was received. -/
theorem decided_received {d : Decided}
    (hd : d ∈ ((calls turns).foldl (Op.apply w) (init r p max_flows max_blocked)).decided) :
    ∃ pkt ∈ arrivals turns, pkt.tag = d.pkt.tag := by
  have hperm := (accounted_run w r p max_flows max_blocked (calls turns)).1.perm
  rw [fedBy_calls] at hperm
  have hm : d.pkt.tag ∈ (arrivals turns).map Packet.tag :=
    hperm.subset (List.mem_append_left _ (List.mem_map.mpr ⟨d, hd, rfl⟩))
  exact List.mem_map.mp hm

variable {w} in
/-- The evidence for one drop. -/
theorem drop_convicted {b : BlockList} (hpolicy : w.decide = workerPolicy b) {id : UInt32} :
    let wk := ((constructed false r p max_flows max_blocked).loop w k turns).2
    (id, .BLOCK) ∈ wk.queue.verdicts → ∃ pkt ∈ arrivals turns, pkt.id = id ∧
      ∃ f, flowOf pkt.bytes = some f ∧ Convicted b f.key (keyed f.key) wk.tls.trace := by
  intro wk hid
  obtain ⟨htold, htls⟩ := constructed_calls w k r p max_flows max_blocked turns
  change wk.queue.verdicts = _ at htold
  rw [htold] at hid
  obtain ⟨d, hd, he⟩ := List.mem_map.mp hid
  obtain ⟨pkt, hpkt, htag⟩ := decided_received w r p max_flows max_blocked turns hd
  have hpktid : pkt.id = d.pkt.id := congrArg Prod.fst htag
  have hbytes : pkt.bytes = d.pkt.bytes := congrArg Prod.snd htag
  obtain ⟨f, hf, hconvicted⟩ := (evident_run hpolicy r p max_flows max_blocked
    (calls turns)).decided d hd (congrArg Prod.snd he)
  refine ⟨pkt, hpkt, hpktid.trans (congrArg Prod.fst he), f, hbytes ▸ hf, ?_⟩
  have htrace : wk.tls.trace = ((calls turns).foldl (Op.apply w)
      (init r p max_flows max_blocked)).trace := congrArg (·.trace) htls
  rw [htrace]
  exact hconvicted

variable {w} in
/-- No packet is dropped without evidence: for every drop that the kernel is
told of, a packet came in under that id, and its flow was resolved to BLOCK on
a blocked hostname, read in all the client bytes that were delivered for it
since it was tracked. -/
theorem every_drop_has_its_evidence {b : BlockList} (hpolicy : w.decide = workerPolicy b) :
    let wk := ((constructed false r p max_flows max_blocked).loop w k turns).2
    ∀ id, (id, .BLOCK) ∈ wk.queue.verdicts → ∃ pkt ∈ arrivals turns, pkt.id = id ∧
      ∃ f, flowOf pkt.bytes = some f ∧ Convicted b f.key (keyed f.key) wk.tls.trace :=
  fun _ hid => drop_convicted k r p max_flows max_blocked turns hpolicy hid

end Told

open traffic in
/-- A hello of a blocked name is dropped, and the loop is stopped. -/
theorem a_dropped_hello_has_its_evidence :
    let w := world { exact := [host] }
    let turns : List (NFQueue.Event × Time) := [
      (.Packets [(0, ⟨some 1, some (syn (client 2) 1).val.bytes⟩),
        (0, ⟨some 2, some (hello (client 2) 2).val.bytes⟩)], 0), (.Stop, 0)]
    let wk := ((constructed false [] () 2 1).loop w (fun _ _ _ => 0) turns).2
    wk.queue.verdicts = [(1, .ALLOW), (2, .BLOCK)] ∧
    ∃ pkt ∈ arrivals turns, pkt.id = 2 ∧ ∃ f, flowOf pkt.bytes = some f ∧
      Convicted { exact := [host] } f.key (keyed f.key) wk.tls.trace := by
  intro w turns wk
  have htold : wk.queue.verdicts = [(1, .ALLOW), (2, .BLOCK)] := by decide +kernel
  refine ⟨htold, ?_⟩
  exact every_drop_has_its_evidence (w := w) (fun _ _ _ => 0) [] () 2 1 turns rfl 2
    (by rw [htold]; simp)

/-! ## The end of a loop -/

/-- A loop that has ended has flushed. -/
theorem calls_of_ended (turns : List (NFQueue.Event × Time)) :
    ∀ {wk : Worker R P}, (wk.loop w k turns).1 = true →
      ∃ ops now, calls turns = ops ++ [.flush now] := by
  induction turns with
  | nil =>
    intro wk h
    cases h
  | cons t turns ih =>
    intro wk h
    obtain ⟨ev, now⟩ := t
    cases ev with
    | Stop => exact ⟨[], now, rfl⟩
    | Error => exact ⟨[], now, rfl⟩
    | Idle =>
      obtain ⟨ops, last, hops⟩ := @ih (wk.turn w k .Idle now) h
      exact ⟨.tick now :: ops, last, by rw [calls, hops, List.cons_append]⟩
    | Packets batch =>
      obtain ⟨ops, last, hops⟩ := @ih (wk.turn w k (.Packets batch) now) h
      refine ⟨batch.map feedOf ++ .tick now :: ops, last, ?_⟩
      show batch.map feedOf ++ .tick now :: calls turns = _
      rw [hops, List.append_assoc, List.cons_append]

theorem conns_of_ended (r : R) (p : P) (max_flows max_blocked : Nat)
    (turns : List (NFQueue.Event × Time)) {wk : Worker R P} (h : (wk.loop w k turns).1 = true) :
    ((calls turns).foldl (Op.apply w) (init r p max_flows max_blocked)).conns = ∅ := by
  obtain ⟨ops, now, hops⟩ := calls_of_ended turns h
  rw [hops, List.foldl_append]
  exact flush_conns w now (accounted_run w r p max_flows max_blocked ops).2

/-- No flow is reordered at the kernel: the payload of a flow is verdicted in
the order in which it came in, up to what the flow still holds, and all of it
once the loop has ended. -/
theorem no_flow_is_reordered (w : World R P) (k : SetVerdict) (r : R) (p : P)
    (max_flows max_blocked : Nat) (turns : List (NFQueue.Event × Time)) (key : UInt32) :
    let ended := ((constructed false r p max_flows max_blocked).loop w k turns).1
    let wk := ((constructed false r p max_flows max_blocked).loop w k turns).2
    let payload := (arrivals turns).filter (fun pkt => carries pkt.tag = some key)
    ∃ told, told.Sublist (wk.queue.verdicts.map (·.1)) ∧
      told ++ (wk.tls.heldTags key).map (·.1) = payload.map (·.id) ∧
      (ended = true → told = payload.map (·.id)) := by
  intro ended wk payload
  obtain ⟨htold, htls⟩ := constructed_calls w k r p max_flows max_blocked turns
  have horder := (accounted_run w r p max_flows max_blocked (calls turns)).1.2.order key
  have hconns := @conns_of_ended R P w k r p max_flows max_blocked turns
    (constructed false r p max_flows max_blocked)
  rw [fedBy_calls] at horder
  change ended = true → _ at hconns
  change wk.queue.verdicts = _ at htold
  change wk.tls = _ at htls
  generalize (calls turns).foldl (Op.apply w) (init r p max_flows max_blocked) = x at *
  have hids : (ofKey carries (some key) ((arrivals turns).map Packet.tag)).map (·.1) =
      payload.map (·.id) := by
    unfold ofKey
    rw [List.filter_map, List.map_map]
    rfl
  have hheld : wk.tls.heldTags = x.heldTags := heldTags_congr (by rw [htls])
  have hsplit := congrArg (List.map (·.1)) horder
  rw [List.map_append, hids] at hsplit
  refine ⟨(ofKey carries (some key) x.ledgerOf.gone).map (·.1), ?_, ?_, ?_⟩
  · have hgone : wk.queue.verdicts.map (·.1) = x.ledgerOf.gone.map (·.1) := by
      rw [htold, ledgerOf, List.map_map, List.map_map]
      rfl
    rw [hgone]
    exact List.filter_sublist.map _
  · rw [hheld]
    exact hsplit
  · intro hended
    have hnone : x.heldTags key = [] := heldTags_of_none (by rw [hconns hended]; rfl)
    have hempty : x.ledgerOf.held key = [] := hnone
    rw [hempty, List.map_nil, List.append_nil] at hsplit
    exact hsplit

/-! ## Passing everything -/

/-- A worker in passthrough mode: its extractor was fed nothing. -/
structure Bypassing (wk : Worker R P) : Prop where
  mode : wk.passthrough = true
  feeding : wk.tls.feeding = false
  owing : Owing [] [] wk.tls

theorem Bypassing.decided (h : Bypassing wk) : wk.tls.decided = [] := by
  have hperm := h.owing.perm.eq_nil
  rw [List.append_eq_nil_iff, List.append_eq_nil_iff, List.map_eq_nil_iff] at hperm
  exact hperm.1.2

/-- A tick and a flush decide nothing, so the drain tells the kernel nothing. -/
theorem Bypassing.serve (h : Bypassing wk) (op : Op) (hop : op.fed = none) :
    Bypassing (drain_decided { wk with tls := op.apply w wk.tls } k) ∧
    (drain_decided { wk with tls := op.apply w wk.tls } k).queue = wk.queue := by
  have howing := owing_apply (w := w) op (fun p hp => by rw [hop] at hp; cases hp) h.feeding h.owing
  rw [hop, Option.toList_none, List.append_nil] at howing
  have hserved : Bypassing { wk with tls := op.apply w wk.tls } :=
    ⟨h.mode, apply_feeding op h.feeding, howing⟩
  have hempty : (op.apply w wk.tls).decided = [] := hserved.decided
  have hdrain : drain_decided { wk with tls := op.apply w wk.tls } k =
      { wk with tls := op.apply w wk.tls } := by
    unfold drain_decided
    rw [hempty, List.foldl_nil, ← hempty]
  rw [hdrain]
  exact ⟨hserved, rfl⟩

theorem Bypassing.run_once (w : World R P) (k : SetVerdict) (batch : List (Time × NfqData)) :
    ∀ {wk : Worker R P}, Bypassing wk → Bypassing (wk.run_once w k (.Packets batch)) ∧
      (wk.run_once w k (.Packets batch)).queue.verdicts =
        wk.queue.verdicts ++ batch.map (fun x => (x.2.packet.id, .ALLOW)) := by
  unfold Worker.run_once
  induction batch with
  | nil => exact fun h => ⟨h, (List.append_nil _).symm⟩
  | cons x batch ih =>
    intro wk h
    have hone := handle_of_passthrough w k x.1 x.2 h.mode
    obtain ⟨hrest, hverdicts⟩ := @ih (wk.handle w k x.1 x.2) (by
      rw [hone]
      exact ⟨h.mode, h.feeding, h.owing⟩)
    refine ⟨hrest, ?_⟩
    dsimp only at hverdicts ⊢
    rw [List.foldl_cons, hverdicts, hone]
    dsimp only
    rw [NFQueue.submit_verdicts .ALLOW x.2.packet_pending]
    simp [receive]

theorem loop_passthrough (w : World R P) (k : SetVerdict) (turns : List (NFQueue.Event × Time)) :
    ∀ {wk : Worker R P}, Bypassing wk → (wk.loop w k turns).2.queue.verdicts =
      wk.queue.verdicts ++ (arrivals turns).map (fun pkt => (pkt.id, .ALLOW)) := by
  induction turns with
  | nil => exact fun _ => (List.append_nil _).symm
  | cons t turns ih =>
    intro wk h
    obtain ⟨ev, now⟩ := t
    have hend : (wk.finish w k now).queue.verdicts = wk.queue.verdicts ++ [] := by
      rw [List.append_nil]
      exact congrArg NFQueue.verdicts (h.serve (w := w) (k := k) (.flush now) rfl).2
    cases ev with
    | Stop => exact hend
    | Error => exact hend
    | Idle =>
      obtain ⟨hnext, hqueue⟩ := h.serve (w := w) (k := k) (.tick now) rfl
      have hrest := ih hnext
      rw [hqueue] at hrest
      exact hrest
    | Packets batch =>
      obtain ⟨hfed, hverdicts⟩ := h.run_once w k batch
      obtain ⟨hnext, hqueue⟩ := hfed.serve (w := w) (k := k) (.tick now) rfl
      have hrest := ih hnext
      rw [hqueue, hverdicts] at hrest
      show _ = wk.queue.verdicts ++ (batch.map (fun x => x.2.packet) ++ arrivals turns).map _
      rw [List.map_append, List.map_map, ← List.append_assoc]
      exact hrest

theorem constructed_bypassing (r : R) (p : P) (max_flows max_blocked : Nat) :
    Bypassing (constructed true r p max_flows max_blocked) := by
  refine ⟨rfl, rfl, ⟨?_, kept_nil, ⟨fun d hd => ?_, fun key c hl => ?_⟩⟩⟩
  · intro key c hl
    cases hl
  · cases hd
  · cases hl

/-- Inspection with a list that blocks no name is passthrough: once the loop
has ended the kernel was told the same verdicts, whatever it answered. -/
theorem a_list_that_blocks_nothing_passes_everything {b : BlockList}
    (hpolicy : w.decide = workerPolicy b) (hb : ∀ host, b.isHostnameBlocked host = false)
    (k : SetVerdict) (r : R) (p : P) (max_flows max_blocked : Nat)
    (turns : List (NFQueue.Event × Time))
    (hended : ((constructed false r p max_flows max_blocked).loop w k turns).1 = true) :
    ((constructed false r p max_flows max_blocked).loop w k turns).2.queue.verdicts.Perm
      ((constructed true r p max_flows max_blocked).loop w k turns).2.queue.verdicts := by
  obtain ⟨htold, -⟩ := constructed_calls w k r p max_flows max_blocked turns
  have hpass := loop_passthrough w k turns (constructed_bypassing r p max_flows max_blocked)
  have hconns := conns_of_ended r p max_flows max_blocked turns hended
  have hperm := (accounted_run w r p max_flows max_blocked (calls turns)).1.perm
  have hevident := evident_run hpolicy r p max_flows max_blocked (calls turns)
  rw [fedBy_calls] at hperm
  rw [htold, hpass]
  generalize (calls turns).foldl (Op.apply w) (init r p max_flows max_blocked) = x at *
  -- a drop would have read a name that is blocked
  have hallow : ∀ d ∈ x.decided, d.told = (d.pkt.tag.1, .ALLOW) := by
    intro d hd
    cases hv : d.verdict with
    | ALLOW => simp [Decided.told, Packet.tag, hv]
    | BLOCK =>
      obtain ⟨f, hf, before, host, after, -, -, hblock⟩ := hevident.decided d hd hv
      rw [hb host] at hblock
      cases hblock
  rw [hconns, AList.keys_empty, List.flatMap_nil, List.append_nil] at hperm
  have hids := hperm.map (fun t => (t.1, Verdict.ALLOW))
  rw [List.map_map, List.map_map] at hids
  rw [List.map_congr_left hallow]
  exact hids

open traffic in
/-- A list with comments alone, over a hello and a stop. -/
theorem a_list_of_comments_passes_a_hello :
    let w := world (BlockList.load [0x23, 0x65, 0x2e, 0x78])
    let turns : List (NFQueue.Event × Time) := [
      (.Packets [(0, ⟨some 1, some (syn (client 2) 1).val.bytes⟩),
        (0, ⟨some 2, some (hello (client 2) 2).val.bytes⟩)], 0), (.Stop, 0)]
    ((constructed false [] () 2 1).loop w (fun _ _ _ => 0) turns).2.queue.verdicts.Perm
      ((constructed true [] () 2 1).loop w (fun _ _ _ => 0) turns).2.queue.verdicts := by
  intro w turns
  have hb : ∀ host, (BlockList.load [0x23, 0x65, 0x2e, 0x78]).isHostnameBlocked host = false :=
    BlockList.isHostnameBlocked_of_no_names (by decide) (by decide)
  exact a_list_that_blocks_nothing_passes_everything (w := w) rfl hb (fun _ _ _ => 0) [] () 2 1
    turns (by decide +kernel)

/-! ## What a worker keeps from the kernel -/

theorem constructed_settled (passthrough : Bool) (r : R) (p : P) (max_flows max_blocked : Nat) :
    Settled passthrough [] (constructed passthrough r p max_flows max_blocked) := by
  refine ⟨rfl, [], rfl, rfl, ⟨?_, ?_, ?_⟩, ?_, rfl, rfl, rfl⟩
  · intro key c hl
    cases hl
  · rw [ite_self]
    exact kept_nil
  · exact ⟨fun d hd => (by cases hd), fun key c hl => (by cases hl)⟩
  · simp [constructed]

/-- When the kernel takes every verdict, what a worker keeps from it is bounded
by its table: after every turn, all packets received are verdicted but at most
32 for each flow that it may track, and these are outstanding. -/
theorem outstanding_is_bounded (w : World R P) {k : SetVerdict} (hk : ∀ log id v, k log id v ≥ 0)
    (passthrough : Bool) (r : R) (p : P) (max_flows max_blocked : Nat)
    (turns : List (NFQueue.Event × Time)) :
    let s := constructed passthrough r p max_flows max_blocked
    let wk := (s.loop w k turns).2
    wk.queue.verdicted ≤ wk.queue.received ∧
    wk.queue.received ≤ wk.queue.verdicted + 32 * s.tls.max_flows ∧
    wk.queue.outstanding.toNat ≤ 32 * s.tls.max_flows := by
  intro s wk
  have hsettled := (settled_loop w hk turns s [] (constructed_settled passthrough r p max_flows
    max_blocked)).1
  have hreceived : wk.queue.received = wk.queue.verdicted + wk.tls.heldCount := hsettled.received
  have hheld : wk.tls.heldCount ≤ 32 * s.tls.max_flows := by
    cases passthrough with
    | true =>
      rw [hsettled.held_of_passthrough]
      exact Nat.zero_le _
    | false =>
      obtain ⟨-, htls⟩ := constructed_calls w k r p max_flows max_blocked turns
      have hfitted := fitted_run (w := w) r p max_flows max_blocked (calls turns)
      have hsize := (ringed_run (w := w) r p max_flows max_blocked (calls turns)).1.size_le
      have hcaps := (run_caps (w := w) (s := init r p max_flows max_blocked) (calls turns) rfl).1
      rw [hcaps] at hsize
      rw [htls]
      exact (heldCount_le hfitted).trans (Nat.mul_le_mul_left _ hsize)
  refine ⟨by omega, by omega, ?_⟩
  rw [outstanding_of_received hreceived, UInt64.toNat_ofNat']
  exact (Nat.mod_le _ _).trans hheld

open traffic in
/-- A worker that holds the first half of a hello. -/
theorem half_a_hello_is_outstanding :
    let turns : List (NFQueue.Event × Time) := [
      (.Packets [(0, ⟨some 1, some (syn (client 2) 1).val.bytes⟩), (0, ⟨some 2,
        some (segmentOf (client 2) 1 ((client_hello host).take 20) 2).val.bytes⟩)], 0)]
    let s := constructed false [] () 2 1
    let wk := (s.loop (world { exact := [host] }) (fun _ _ _ => 0) turns).2
    wk.queue.outstanding = 1 ∧ wk.queue.received ≤ wk.queue.verdicted + 32 * s.tls.max_flows := by
  intro turns s wk
  obtain ⟨-, hbound, -⟩ := outstanding_is_bounded (world { exact := [host] })
    (fun _ _ _ => Int.le_refl 0) false [] () 2 1 turns
  exact ⟨by decide +kernel, hbound⟩

end Worker

end packet_inspector
