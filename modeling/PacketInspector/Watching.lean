-- A record of what the reassembler is fed, what it tells and what it is told
-- to close. The calls keep what a drain, a resolved flow and the callbacks
-- for a packet keep, as long as the record is one of a sane reassembler.
import PacketInspector.Closing

open wire packet_inspector.tls runs

namespace packet_inspector

variable {R P : Type}

/-! ## The record -/

/-- A packet that the reassembler is fed, a callback that it makes for it,
and a connection that it is told to close. -/
inductive Act where
  | fed (packet : Bytes)
  | told (packet : Bytes) (cb : Callback)
  | closed (tok : UInt32)
  deriving DecidableEq

/-- The same world, with a record of the exchanges with the reassembler. -/
def watched (w : World R P) : World (R × List Act) P where
  reassemblePacket r now packet :=
    let answer := w.reassemblePacket r.1 now packet
    ((answer.1, r.2 ++ .fed packet :: answer.2.map (.told packet)), answer.2)
  closeConnection r now tok :=
    let answer := w.closeConnection r.1 now tok
    ((answer.1, r.2 ++ [.closed tok]), answer.2)
  purgeClosedConnections r now :=
    let answer := w.purgeClosedConnections r.1 now
    ((answer.1, r.2), answer.2)
  decide := w.decide
  walk := w.walk
  walk_perm := w.walk_perm

/-- The flow key of a packet that the reassembler is fed. -/
def keyIn (packet : Bytes) : UInt32 := ((flowOf packet).map (·.key)).getD 0

/-- The open connections after an exchange, each with its flow key. -/
def opening (links : List (UInt32 × UInt32)) : Act → List (UInt32 × UInt32)
  | .told packet (.start tok) => (keyIn packet, tok) :: links.filter (fun l => l.2 ≠ tok)
  | .told _ (.finish tok) => links.filter (fun l => l.2 ≠ tok)
  | .closed tok => links.filter (fun l => l.2 ≠ tok)
  | _ => links

/-- The connections that started and neither ended nor were closed. -/
def opened (acts : List Act) : List (UInt32 × UInt32) := acts.foldl opening []

theorem opened_append (acts : List Act) (a : Act) : opened (acts ++ [a]) = opening (opened acts) a := by
  simp [opened]

/-! ## What is assumed of the reassembler -/

/-- A connection starts before any other callback for it. -/
def Started (acts : List Act) : Prop :=
  ∀ pre packet cb post, acts = pre ++ .told packet cb :: post →
    (∀ tok, cb ≠ .start tok) → (keyIn packet, cb.token) ∈ opened pre

theorem Started.init {acts more : List Act} (h : Started (acts ++ more)) : Started acts := by
  intro pre packet cb post hacts
  refine h pre packet cb (post ++ more) ?_
  rw [hacts, List.append_assoc]
  rfl

/-- The callback starts a connection or is for an open one. -/
def Act.follows (links : List (UInt32 × UInt32)) : Act → Bool
  | .told _ (.start _) => true
  | .told packet cb => (keyIn packet, cb.token) ∈ links
  | _ => true

theorem started_of_each {acts : List Act}
    (h : ∀ n ∈ List.range acts.length, ∀ a ∈ acts[n]?, a.follows (opened (acts.take n)) = true) :
    Started acts := by
  intro pre packet cb post hacts hstart
  have hfollows := of_each_split (C := fun pre a => a.follows (opened pre) = true) h hacts
  cases cb with
  | start tok => exact absurd rfl (hstart tok)
  | message side tok data => simpa [Act.follows] using hfollows
  | finish tok => simpa [Act.follows] using hfollows

namespace TcpTlsHostnameExtractor

variable {w : World R P} {now : Time}

/-- A drain closes what is queued, in order, and nothing else. -/
theorem drain_closes_acts (w : World R P) (now : Time)
    {s : TcpTlsHostnameExtractor (R × List Act) P} (h : s.feeding = false) :
    (s.drain_closes (watched w) now).reassembly.2 = s.reassembly.2 ++ s.to_close.map .closed := by
  have hfold : ∀ (toks : List UInt32) (x : TcpTlsHostnameExtractor (R × List Act) P),
      x.feeding = false →
      (toks.foldl (fun x tok => x.settle (watched w)
        ((watched w).closeConnection x.reassembly now tok)) x).reassembly.2 =
        x.reassembly.2 ++ toks.map .closed := by
    intro toks
    induction toks with
    | nil =>
      intro x _
      simp
    | cons tok toks ih =>
      intro x hx
      rw [List.foldl_cons, settle_of_not_feeding _ hx]
      refine (ih { x with
        reassembly := ((watched w).closeConnection x.reassembly now tok).1 } hx).trans ?_
      simp [watched]
  exact hfold s.to_close s h

/-! ## The callbacks for a packet -/

/-- The record after some of the callbacks for a packet. -/
def recorded (acts : List Act) (packet : Bytes) (cbs : List Callback) : List Act :=
  acts ++ .fed packet :: cbs.map (.told packet)

theorem recorded_append (acts : List Act) (packet : Bytes) (done : List Callback) (cb : Callback) :
    recorded acts packet (done ++ [cb]) = recorded acts packet done ++ [.told packet cb] := by
  simp [recorded]

theorem reassemblePoint_acts {x : TcpTlsHostnameExtractor (R × List Act) P} {packet : Bytes}
    {f : FlowView} (w : World R P) (now : Time) (hf : flowOf packet = some f) :
    (x.reassemblePoint (watched w) now f.key packet).reassembly.2 =
      recorded x.reassembly.2 packet (w.reassemblePacket x.reassembly.1 now packet).2 := by
  refine reassemblePoint_law (watched w) now (Q := fun _ y => y.reassembly.2 =
    recorded x.reassembly.2 packet (w.reassemblePacket x.reassembly.1 now packet).2) hf ?_ ?_ ?_
  · intro cbs y z _ _ hr hy
    rw [hr]
    exact hy
  · intro cb cbs y hin hy
    cases hv : y.waits f.key with
    | none =>
      rw [(deliver_alike (w := watched w) packet cb hin hv).reassembly]
      exact hy
    | some v =>
      obtain ⟨c, hl, hc, -⟩ := waits_eq_some.mp hv
      rcases deliver_outcome (w := watched w) packet cb hin hl hc with
        ⟨_, -, -, -, -, -, hwrite⟩ | ⟨-, hwrite⟩
      · rw [hwrite.reassembly]
        exact hy
      · rw [hwrite.reassembly]
        exact hy
  · rfl

/-! ## What the calls keep -/

/-- `I` is kept by all that a call does but the callbacks for a packet, when
the record meets `C`. -/
structure Bookkeeping (w : World R P) (C : List Act → Prop)
    (I : List Act → TcpTlsHostnameExtractor (R × List Act) P → Prop) : Prop where
  init : ∀ acts more, C (acts ++ more) → C acts
  alike : ∀ acts x y, Alike x y → I acts x → I acts y
  answered : ∀ acts x r, I acts x → I acts { x with reassembly := r }
  resolve : ∀ acts x key hostname, C acts → I acts x →
    I acts (x.resolve (watched w) key hostname)
  enter : ∀ acts x y key, C acts → x.waits key = none → Write key (some (0, false)) [] x y →
    I acts x → I acts y
  drain : ∀ acts x now, x.feeding = false → I acts x →
    I (acts ++ x.to_close.map .closed) (x.drain_closes (watched w) now)

/-- What a run keeps, as long as the record meets `C`. -/
def Holds (C : List Act → Prop) (I : List Act → TcpTlsHostnameExtractor (R × List Act) P → Prop)
    (s : TcpTlsHostnameExtractor (R × List Act) P) : Prop :=
  C s.reassembly.2 → I s.reassembly.2 s

section Bookkeeping

variable {s x y : TcpTlsHostnameExtractor (R × List Act) P} {C : List Act → Prop}
  {I : List Act → TcpTlsHostnameExtractor (R × List Act) P → Prop} {key : UInt32}

/-- What every callback keeps, with what it says of those that are left,
holds when the queue is drained. -/
theorem reassemblePoint_record {E : List Callback → List Callback → TcpTlsHostnameExtractor (R × List Act) P → Prop}
    {packet : Bytes} {f : FlowView} (hI : Bookkeeping w C I) (hf : flowOf packet = some f)
    (hsame : ∀ done cbs y z, z.conns = y.conns → z.to_close = y.to_close →
      E done cbs y → E done cbs z)
    (hdeliver : ∀ done cb cbs y, y.inside = (true, f.key) →
      C (recorded x.reassembly.2 packet done ++ [.told packet cb]) →
      I (recorded x.reassembly.2 packet done) y → E done (cb :: cbs) y →
      I (recorded x.reassembly.2 packet done ++ [.told packet cb]) (y.deliver (watched w) packet cb) ∧
      E (done ++ [cb]) cbs (y.deliver (watched w) packet cb))
    (h : I (recorded x.reassembly.2 packet []) x)
    (hE : E [] (w.reassemblePacket x.reassembly.1 now packet).2 x) :
    Holds C I (x.reassemblePoint (watched w) now f.key packet) := by
  intro hC
  rw [reassemblePoint_acts w now hf] at hC ⊢
  have hpoint := reassemblePoint_law (watched w) now (s := x)
    (Q := fun cbs y => ∃ done, (w.reassemblePacket x.reassembly.1 now packet).2 = done ++ cbs ∧
      I (recorded x.reassembly.2 packet done) y ∧ E done cbs y) hf
    (by
      rintro cbs y z hconns hclose hr ⟨done, hdone, hy, hE'⟩
      exact ⟨done, hdone, hI.alike _ y z (alike_of_conns hconns hclose hr) hy,
        hsame done cbs y z hconns hclose hE'⟩)
    (by
      rintro cb cbs y hin ⟨done, hdone, hy, hE'⟩
      have hsofar : C (recorded x.reassembly.2 packet done ++ [.told packet cb]) := by
        refine hI.init _ (cbs.map (.told packet)) ?_
        rw [hdone] at hC
        simpa [recorded] using hC
      obtain ⟨hy', hE''⟩ := hdeliver done cb cbs y hin hsofar hy hE'
      refine ⟨done ++ [cb], by simp [hdone], ?_, hE''⟩
      rw [recorded_append]
      exact hy')
    ⟨[], rfl, hI.answered _ x _ h, hsame [] _ x _ rfl rfl hE⟩
  obtain ⟨done, hdone, hend, -⟩ := hpoint
  rw [List.append_nil] at hdone
  rw [hdone]
  exact hend

theorem Holds.alike (hI : Bookkeeping w C I) (ha : Alike x y) (h : Holds C I x) : Holds C I y := by
  intro hC
  rw [ha.reassembly] at hC ⊢
  exact hI.alike _ x y ha (h hC)

theorem Holds.resolve (hI : Bookkeeping w C I) (key : UInt32) (hostname : Option Bytes)
    (h : Holds C I x) : Holds C I (x.resolve (watched w) key hostname) := by
  have hsame : (x.resolve (watched w) key hostname).reassembly = x.reassembly := by
    refine resolve_keeps (I := fun y => y.reassembly = x.reassembly) ?_ rfl
    intro v y _ hw
    exact hw.reassembly
  intro hC
  rw [hsame] at hC ⊢
  exact hI.resolve _ x key hostname hC (h hC)

theorem Holds.enter (hI : Bookkeeping w C I) (hn : x.waits key = none)
    (hw : Write key (some (0, false)) [] x y) (h : Holds C I x) : Holds C I y := by
  intro hC
  rw [hw.reassembly] at hC ⊢
  exact hI.enter _ x y key hC hn hw (h hC)

theorem Holds.drain (hI : Bookkeeping w C I) (hfeed : x.feeding = false) (h : Holds C I x) :
    Holds C I (x.drain_closes (watched w) now) := by
  intro hC
  rw [drain_closes_acts w now hfeed] at hC ⊢
  exact hI.drain _ x now hfeed (h (hI.init _ _ hC))

theorem Holds.tick (hI : Bookkeeping w C I) (hfeed : x.feeding = false) (h : Holds C I x) :
    Holds C I (x.tick (watched w) now) :=
  tick_law (I := Holds C I) (fun _ _ ha hy => hy.alike hI ha)
    (fun _ key _ hy => hy.resolve hI key none)
    (fun y hy hC => hI.answered _ y _ (hy hC)) (fun _ hf hy => hy.drain hI hf) hfeed h

theorem Holds.flush (hI : Bookkeeping w C I) (hfeed : x.feeding = false) (h : Holds C I x) :
    Holds C I (x.flush (watched w) now) :=
  flush_law (I := Holds C I) (fun _ _ ha hy => hy.alike hI ha)
    (fun _ key hy => hy.resolve hI key none) (fun _ hf hy => hy.drain hI hf) hfeed h

/-- What the callbacks for a packet keep, a call keeps. -/
theorem Holds.apply {op : Op} (hI : Bookkeeping w C I) (hfeed : s.feeding = false) (h : Holds C I s)
    (hpacket : ∀ now pkt f x, op = .feed now pkt → flowOf pkt.val.bytes = some f →
      (s.tick (watched w) now).hands (watched w) now pkt.val f = some x → Holds C I x →
      Holds C I (x.reassemblePoint (watched w) now f.key pkt.val.bytes)) :
    Holds C I (op.apply (watched w) s) := by
  cases op with
  | feed now pkt =>
    show Holds C I (s.feed (watched w) now pkt.val)
    have htick : Holds C I (s.tick (watched w) now) := h.tick hI hfeed
    cases hf : flowOf pkt.val.bytes with
    | none =>
      rw [feed_of_no_flow hf]
      exact Holds.alike (x := s.tick (watched w) now) hI (alike_of_conns rfl rfl rfl) htick
    | some f =>
      rw [feed_of_flow hf]
      refine Holds.alike hI (publish_alike _) ?_
      refine feedFlow_law (I := Holds C I) (fun _ _ ha hy => hy.alike hI ha)
        (fun _ hy => hy.resolve hI f.key none) (htick.tick hI (tick_path (watched w) now .tick hfeed).2)
        (fun _ _ hn hw hy => hy.enter hI hn hw) ?_ (tick_path (watched w) now .tick hfeed).2 htick
      intro x hx hwx
      rw [reassemble_drains]
      exact (hpacket now pkt f x rfl hf hx hwx).drain hI rfl
  | tick now => exact h.tick hI hfeed
  | flush now => exact h.flush hI hfeed

end Bookkeeping

end TcpTlsHostnameExtractor

end packet_inspector
