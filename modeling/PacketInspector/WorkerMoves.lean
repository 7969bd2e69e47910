-- The worker's code as a program of packet moves: a packet goes from `handle`
-- into the argument of `feed`, from there into a held list or the decided
-- buffer, and from the decided buffer to the kernel.
import PacketInspector.Seats
import PacketInspector.KernelView

open wire packet_inspector.tls resources runs ledger

namespace packet_inspector

/-! ## The program -/

/-- What the extractor does with packets. The first two take the argument of
`feed`, which they have read; the others are about the held list of a flow. -/
inductive Move where
  | decide
  | hold (key : UInt32)
  | release_bytes (key : UInt32)
  | resolve (key : UInt32)

/-- What the worker does with packets. In the order of the code: a buffer is
received, `handle` is called with either callback, a tick or a flush resolves
flows, and the decided buffer is drained. -/
inductive WorkerOp where
  | recv
  | pass (nfa : NfqData)
  | feed (nfa : NfqData) (moves : List Move)
  | resolve (keys : List UInt32)
  | drain (verdicts : List Verdict)

namespace Hands

/-- Operations one after the other, the second from where the first leaves the hands. -/
def andThen (first : List PacketOp × Hands) (second : Hands → List PacketOp × Hands) :
    List PacketOp × Hands :=
  (first.1 ++ (second first.2).1, (second first.2).2)

/-- A packet that is held is read where it is held, by the reassembler. -/
def move (h : Hands) : Move → List PacketOp × Hands
  | .decide => andThen ((inSeat h .argument).map .read, h) (fun h => send h .argument .decided)
  | .hold key =>
    andThen ((inSeat h .argument).map .read, h) fun h =>
      andThen (send h .argument (.held key)) fun h =>
        ((inSeat h (.held key)).getLast?.toList.map .read, h)
  | .release_bytes key => ((inSeat h (.held key)).getLast?.toList.map .release_bytes, h)
  | .resolve key => andThen (send h (.held key) .decided) (fun h => clear h (.held key))

def moves (h : Hands) : List Move → List PacketOp × Hands
  | [] => ([], h)
  | m :: ms => andThen (move h m) (fun h => moves h ms)

/-- `handle`, with what its callback does from its own object on. -/
def handling (h : Hands) (nfa : NfqData) (callback : Hands → List PacketOp × Hands) :
    List PacketOp × Hands :=
  let (ops, h') := callback (h ++ [.handle])
  (.arrive nfa :: ops ++ [.fail_safe h.length, .destroy h.length], (clear h' .handle).2)

/-- `feed` takes its argument by value, and destroys it at its end. -/
def feeding (ms : List Move) (h : Hands) : List PacketOp × Hands :=
  andThen (send h .handle .argument) fun h =>
    andThen (moves h ms) (fun h => clear h .argument)

def act (h : Hands) : WorkerOp → List PacketOp × Hands
  | .recv => ([.recv], h)
  | .pass nfa => handling h nfa (fun h => ((inSeat h .handle).map (.submit · .ALLOW), h))
  | .feed nfa ms => handling h nfa (feeding ms)
  | .resolve keys => moves h (keys.map .resolve)
  | .drain verdicts =>
    andThen (List.zipWith .submit (inSeat h .decided) verdicts, h) (fun h => clear h .decided)

/-- All that some acts do, one after the other. -/
def program (h : Hands) : List WorkerOp → List PacketOp × Hands
  | [] => ([], h)
  | a :: acts => andThen (act h a) (fun h => program h acts)

theorem moves_append (ms more : List Move) : ∀ h : Hands,
    moves h (ms ++ more) = andThen (moves h ms) (fun h => moves h more) := by
  induction ms with
  | nil => exact fun _ => rfl
  | cons m ms ih =>
    intro h
    show andThen (move h m) (fun h => moves h (ms ++ more)) = _
    simp only [ih]
    simp [andThen, moves]

theorem program_append (acts more : List WorkerOp) : ∀ h : Hands,
    program h (acts ++ more) = andThen (program h acts) (fun h => program h more) := by
  induction acts with
  | nil => exact fun _ => rfl
  | cons a acts ih =>
    intro h
    show andThen (act h a) (fun h => program h (acts ++ more)) = _
    simp only [ih]
    simp [andThen, program]

end Hands

/-! ## What is in the places -/

/-- The packets in the hands of the worker: those of an extractor, and what is
left in `handle` and in the argument of `feed`. -/
def seatsOf (own arg : List Packet) (l : Ledger UInt32 Packet) : Seat → List Packet
  | .gone => []
  | .handle => own
  | .argument => arg
  | .decided => l.gone
  | .held key => l.held key

namespace Objects

open Hands

variable {k : SetVerdict} {s : Objects} {h : Hands} {q : NFQueue} {own arg : List Packet}
  {l : Ledger UInt32 Packet}

theorem Seated.of_eq {f g : Seat → List Packet} (hs : Seated h s f q) (hfg : f = g) : Seated h s g q :=
  hfg ▸ hs

/-- Reads move nothing. -/
theorem Seated.reads {f : Seat → List Packet} (k : SetVerdict) (is : List Nat) (hs : Seated h s f q) :
    Seated h (s.run k (is.map .read)) f q := by
  obtain ⟨log, hlog⟩ := run_reads k is s
  rw [hlog]
  exact hs.same rfl rfl rfl

/-- The argument of `feed` goes to the decided buffer. -/
theorem Seated.decide {p : Packet} (k : SetVerdict) (hs : Seated h s (seatsOf own [p] l) q) :
    Seated (move h .decide).2 (s.run k (move h .decide).1)
      (seatsOf own [.husk] { l with gone := l.gone ++ [p] }) q := by
  have hsent := (hs.reads k (inSeat h .argument)).send k (x := .argument) (y := .decided) (by simp) (by simp)
  rw [← run_append] at hsent
  refine hsent.of_eq (funext fun z => ?_)
  cases z <;> simp [sent, seatsOf]

/-- The argument of `feed` goes to the held list of its flow. -/
theorem Seated.hold {p : Packet} (k : SetVerdict) (key : UInt32)
    (hs : Seated h s (seatsOf own [p] l) q) :
    Seated (move h (.hold key)).2 (s.run k (move h (.hold key)).1)
      (seatsOf own [.husk] { l with held := Function.update l.held key (l.held key ++ [p]) }) q := by
  have hsent := (hs.reads k (inSeat h .argument)).send k (x := .argument) (y := .held key) (by simp) (by simp)
  have hread := hsent.reads k (inSeat (Hands.send h .argument (.held key)).2 (.held key)).getLast?.toList
  rw [← run_append, ← run_append] at hread
  refine hread.of_eq (funext fun z => ?_)
  cases z with
  | held key' =>
    by_cases hk : key' = key
    · subst hk
      simp [sent, seatsOf]
    · simp [sent, seatsOf, hk]
  | _ => simp [sent, seatsOf]

/-- What a flow holds goes to the decided buffer. -/
theorem Seated.resolve (k : SetVerdict) (key : UInt32) (hs : Seated h s (seatsOf own arg l) q) :
    Seated (move h (.resolve key)).2 (s.run k (move h (.resolve key)).1)
      (seatsOf own arg ⟨l.gone ++ l.held key, Function.update l.held key []⟩) q := by
  have hsent := hs.send k (x := .held key) (y := .decided) (by simp) (by simp)
  have hcleared := hsent.clear k (x := .held key) (by simp) (by
    intro p hp
    simp only [sent, if_true, reduceCtorEq, if_false, List.append_nil] at hp
    obtain ⟨-, -, rfl⟩ := List.mem_map.mp hp
    rfl)
  rw [← run_append] at hcleared
  refine hcleared.of_eq (funext fun z => ?_)
  cases z with
  | held key' =>
    by_cases hk : key' = key
    · subst hk
      simp [seatsOf]
    · simp [sent, seatsOf, hk]
  | _ => simp [sent, seatsOf]

/-- The packet held last gives its bytes back. -/
theorem Seated.release_bytes {ps : List Packet} {p : Packet} (k : SetVerdict) {key : UInt32}
    (hs : Seated h s (seatsOf own arg l) q) (hheld : l.held key = ps ++ [p]) :
    Seated (move h (.release_bytes key)).2 (s.run k (move h (.release_bytes key)).1)
      (seatsOf own arg
        { l with held := Function.update l.held key (ps ++ [p.release_bytes]) }) q := by
  have hpackets : (inSeat h (.held key)).map s.packetAt = (l.held key).map some :=
    hs.packets (.held key) (by simp)
  obtain ⟨is, i, his⟩ : ∃ is i, inSeat h (.held key) = is ++ [i] := by
    rcases List.eq_nil_or_concat' (inSeat h (.held key)) with hnil | his
    · rw [hnil, hheld] at hpackets
      simp at hpackets
    · exact his
  rw [his, hheld, List.map_append, List.map_append] at hpackets
  obtain ⟨hrest, hlast⟩ := List.append_inj' hpackets rfl
  obtain ⟨o, ho, hp⟩ := Option.map_eq_some_iff.mp (List.cons.inj hlast).1
  have hi : i ∉ is := by
    have hnodup := inSeat_nodup h (.held key)
    rw [his, List.nodup_append] at hnodup
    exact fun hm => hnodup.2.2 i hm i (by simp) rfl
  obtain ⟨hlen, hqueue, hlost, hat⟩ := step_release_bytes k ho
  have hops : (move h (.release_bytes key)).1 = [.release_bytes i] := by
    simp [move, his]
  rw [hops]
  have hput : Seated h _ (Function.update _ (.held key) (ps ++ [p.release_bytes])) _ :=
    hs.put (by simp) hlen ?_ ?_
    (hqueue.trans hs.queue) (hlost.trans hs.lost)
  · refine hput.of_eq (funext fun z => ?_)
    cases z with
    | held key' =>
      by_cases hk : key' = key
      · subst hk
        simp [seatsOf]
      · rw [Function.update_of_ne (by simpa using hk)]
        simp [seatsOf, hk]
    | _ => rfl
  · intro j hj
    rw [hat j, if_neg (fun he => hj (by simp [he, his]))]
  · rw [his, List.map_append, List.map_append, ← hrest]
    congr 1
    · refine List.map_congr_left (fun j hj => ?_)
      have hne : j ≠ i := fun he => hi (he ▸ hj)
      unfold packetAt
      rw [hat j, if_neg hne]
    · unfold packetAt
      rw [List.map_singleton, hat i, if_pos rfl, List.map_singleton, ← hp]
      rfl

end Objects

namespace TcpTlsHostnameExtractor

variable {R P : Type} {w : World R P} {x x' : TcpTlsHostnameExtractor R P}

/-! ## Held packets have given their bytes back -/

/-- Every held packet but the last one of the flow `last` is a shell. -/
def Bare (last : Option UInt32) (x : TcpTlsHostnameExtractor R P) : Prop :=
  ∀ key, ∀ p ∈ (if last = some key then (x.heldPackets key).dropLast else x.heldPackets key),
    p.storage = .shell

theorem Bare.congr {last : Option UInt32} (h : Bare last x) (hsame : x'.packetsOf = x.packetsOf) :
    Bare last x' := by
  have hheld : x'.heldPackets = x.heldPackets := congrArg Ledger.held hsame
  unfold Bare
  rw [hheld]
  exact h

/-- One flow's list is written anew. -/
theorem Bare.update {last : Option UInt32} (h : Bare last x) {key : UInt32} {ps : List Packet}
    (hheld : x'.heldPackets = Function.update x.heldPackets key ps)
    (hps : ∀ p ∈ (if last = some key then ps.dropLast else ps), p.storage = .shell) : Bare last x' := by
  intro key' p hp
  rw [hheld] at hp
  by_cases hk : key' = key
  · subst hk
    rw [Function.update_self] at hp
    exact hps p hp
  · rw [Function.update_of_ne hk] at hp
    exact h key' p hp

theorem step_bare {now : Time} {call : Call} {last : Option UInt32} (hs : Step w now call x x')
    (hquiet : Quiet x) (h : Bare last x) : Bare last x' := by
  rcases step_packets hs hquiet with he | ⟨key, he⟩ | ⟨key, ps, p, -, hheld, he⟩
  · exact h.congr he
  · exact h.update (congrArg Ledger.held he) (by simp)
  · refine h.update (congrArg Ledger.held he) ?_
    have hold := h key
    have hheld' : x.heldPackets key = ps ++ [p] := hheld
    rw [hheld'] at hold
    intro p' hp'
    split at hp'
    · rename_i hkey
      rw [List.dropLast_concat] at hp'
      exact hold p' (by rw [if_pos hkey, List.dropLast_concat]; exact hp')
    · rename_i hkey
      rcases List.mem_append.mp hp' with hm | hm
      · exact hold p' (by rw [if_neg hkey]; exact List.mem_append_left _ hm)
      · rw [List.mem_singleton.mp hm]
        rfl

theorem path_bare {now : Time} {call : Call} {last : Option UInt32} (hp : Path w now call x x')
    (hquiet : Quiet x) (h : Bare last x) : Quiet x' ∧ Bare last x' :=
  path_keeps (I := fun y => Quiet y ∧ Bare last y)
    (fun _ _ hs hy => ⟨quiet_step hs hy.1, step_bare hs hy.1 hy.2⟩) hp ⟨hquiet, h⟩

/-- The flow's last packet becomes a shell like the others. -/
theorem releaseLast_bare {key : UInt32} (h : Bare (some key) x) : Bare none (x.releaseLast key) := by
  have hother : ∀ key', key' ≠ key → ∀ p ∈ x.heldPackets key', p.storage = .shell := by
    intro key' hne p hp
    exact h key' p (by rw [if_neg (by simpa using Ne.symm hne)]; exact hp)
  have hself := h key
  rw [if_pos rfl] at hself
  have hempty : x.heldPackets key = [] → Bare none x := by
    intro hnil key' p hp
    by_cases hk : key' = key
    · rw [if_neg (by simp), hk, hnil] at hp
      cases hp
    · exact hother key' hk p (by simpa using hp)
  unfold releaseLast
  cases hl : x.conns.find key with
  | none => exact hempty (heldPackets_of_none hl)
  | some c =>
    have hheld := heldPackets_of_some hl
    simp only
    cases hlast : c.held.getLast? with
    | none => exact hempty (hheld.trans (List.getLast?_eq_none_iff.mp hlast))
    | some p =>
      intro key' p' hp'
      rw [if_neg (by simp), heldPackets_put] at hp'
      by_cases hk : key' = key
      · rw [hk, Function.update_self] at hp'
        rcases List.mem_append.mp hp' with hm | hm
        · exact hself p' (by rw [hheld]; exact hm)
        · rw [List.mem_singleton.mp hm]
          rfl
      · rw [Function.update_of_ne hk] at hp'
        exact hother key' hk p' hp'

theorem apply_quiet (op : Op) (hfeed : x.feeding = false) (h : Quiet x) : Quiet (op.apply w x) :=
  @apply_law _ _ _ _ (fun _ y => Quiet y) _ (fun _ _ _ _ _ hs hy => quiet_step hs hy)
    (fun _ _ _ _ _ ht hy => quiet_take ht hy) hfeed [] h

/-- A packet of a tracked flow, which holds shells, leaves shells held. -/
theorem feedTracked_bare {now : Time} {p : Packet} {f : FlowView} {c : Conn}
    (hf : flowOf p.bytes = some f) (hc : c.state = .Wait)
    (hquiet : Quiet (x.put f.key { c with last := now }))
    (h : Bare none (x.put f.key { c with last := now })) : Bare none (x.feedTracked w now p f c) := by
  have hkey : (Call.feed p.bytes).key = some f.key := by simp [Call.key, hf]
  unfold feedTracked
  simp only
  split
  · have hresolve : Path w now (.feed p.bytes) (x.put f.key { c with last := now })
        ((x.put f.key { c with last := now }).resolve w f.key none) :=
      resolve_path (fun _ _ _ => .inl hkey) (fun _ _ _ => .inl rfl)
    exact (path_bare hresolve hquiet h).2
  · split
    · -- held in full while the reassembler reads it, and then a shell
      refine releaseLast_bare (path_bare (reassemble_path w now hf rfl).1 ?_ ?_).2
      · exact Quiet.put hquiet (fun hb => by rw [hc] at hb; cases hb)
      · intro key p' hp'
        rw [heldPackets_put] at hp'
        have hold := h key p'
        rw [if_neg (by simp), heldPackets_put] at hold
        by_cases hk : key = f.key
        · subst hk
          rw [if_pos rfl, Function.update_self, List.dropLast_concat] at hp'
          exact hold (by rw [Function.update_self]; exact hp')
        · rw [if_neg (by simpa using Ne.symm hk), Function.update_of_ne hk, heldPackets_put,
            Function.update_of_ne hk] at hp'
          exact hold (by rw [Function.update_of_ne hk]; exact hp')
    · split
      · exact h
      · exact (path_bare (reassemble_path w now hf rfl).1 hquiet h).2

theorem apply_bare (op : Op) (hfeed : x.feeding = false) (hquiet : Quiet x) (h : Bare none x) :
    Bare none (op.apply w x) := by
  cases op with
  | tick now => exact (path_bare (tick_path w now .tick hfeed).1 hquiet h).2
  | flush now => exact (path_bare (flush_path w now hfeed).1 hquiet h).2
  | feed now p =>
    obtain ⟨htick, hfeed'⟩ := tick_path w now (.feed p.val.bytes) hfeed
    obtain ⟨hquiet', h'⟩ := path_bare htick hquiet h
    show Bare none (x.feed w now p.val)
    cases hf : flowOf p.val.bytes with
    | none =>
      rw [feed_of_no_flow hf]
      exact h'
    | some f =>
      rw [feed_of_flow hf]
      show Bare none ((x.tick w now).feedFlow w now p.val f)
      generalize x.tick w now = y at *
      unfold feedFlow
      cases hl : y.conns.find f.key with
      | some c =>
        have hsame : (y.put f.key { c with last := now }).packetsOf = y.packetsOf :=
          packetsOf_put_same (heldPackets_of_some hl).symm
        simp only
        split
        · exact (h'.congr hsame : Bare none (y.put f.key { c with last := now }))
        · rename_i hc
          have hwait : c.state = .Wait := by
            cases hst : c.state with
            | Wait => rfl
            | Block => exact absurd hst hc
          exact feedTracked_bare hf hwait (Quiet.put hquiet' (hquiet' f.key c hl)) (h'.congr hsame)
      | none =>
        simp only
        unfold feedUntracked
        split
        · exact h'
        · obtain ⟨hroom, -⟩ := makeRoom_path w now (.feed p.val.bytes) hfeed'
          obtain ⟨hquiet'', h''⟩ := path_bare hroom hquiet' h'
          have hnone := makeRoom_find_none w now hfeed' hl
          simp only
          split
          · exact h''
          · have hsame : (((y.makeRoom w now).log (.tracked f.key)).put f.key
                { ({} : Conn) with last := now }).packetsOf = (y.makeRoom w now).packetsOf :=
              (packetsOf_put_same (heldPackets_of_none hnone).symm).trans (packetsOf_log _)
            exact feedTracked_bare hf rfl (Quiet.put hquiet'' (fun _ => rfl)) (h''.congr hsame)

end TcpTlsHostnameExtractor

namespace Hands

/-! ## What the callbacks do -/

theorem map_ofCallback {f : Nat → PacketOp} (hf : ∀ i, Objects.ofCallback (f i)) (is : List Nat) :
    ∀ op ∈ is.map f, Objects.ofCallback op := by
  intro op hop
  obtain ⟨i, -, rfl⟩ := List.mem_map.mp hop
  exact hf i

theorem reads_ofCallback (is : List Nat) : ∀ op ∈ is.map PacketOp.read, Objects.ofCallback op :=
  map_ofCallback (f := .read) (fun _ => trivial) is

theorem send_ofCallback (h : Hands) (x y : Seat) : ∀ op ∈ (send h x y).1, Objects.ofCallback op :=
  map_ofCallback (f := .move_construct) (fun _ => trivial) (inSeat h x)

theorem clear_ofCallback (h : Hands) (x : Seat) : ∀ op ∈ (clear h x).1, Objects.ofCallback op :=
  map_ofCallback (f := .destroy) (fun _ => trivial) (inSeat h x)

theorem andThen_forall {C : PacketOp → Prop} {first : List PacketOp × Hands}
    {second : Hands → List PacketOp × Hands} (h : ∀ op ∈ first.1, C op)
    (h' : ∀ op ∈ (second first.2).1, C op) : ∀ op ∈ (andThen first second).1, C op := by
  intro op hop
  rcases List.mem_append.mp hop with hop | hop
  · exact h op hop
  · exact h' op hop

theorem move_ofCallback (h : Hands) (m : Move) : ∀ op ∈ (move h m).1, Objects.ofCallback op := by
  cases m with
  | decide => exact andThen_forall (reads_ofCallback _) (send_ofCallback _ _ _)
  | hold key =>
    exact andThen_forall (reads_ofCallback _)
      (andThen_forall (send_ofCallback _ _ _) (reads_ofCallback _))
  | release_bytes key => exact map_ofCallback (f := .release_bytes) (fun _ => trivial) _
  | resolve key => exact andThen_forall (send_ofCallback _ _ _) (clear_ofCallback _ _)

theorem moves_ofCallback (ms : List Move) :
    ∀ h : Hands, ∀ op ∈ (moves h ms).1, Objects.ofCallback op := by
  induction ms with
  | nil => exact fun _ op hop => by cases hop
  | cons m ms ih => exact fun h => andThen_forall (move_ofCallback h m) (ih _)

theorem feeding_ofCallback (ms : List Move) (h : Hands) :
    ∀ op ∈ (feeding ms h).1, Objects.ofCallback op :=
  andThen_forall (send_ofCallback _ _ _) (andThen_forall (moves_ofCallback ms _) (clear_ofCallback _ _))

/-- The object of `handle` stays where it is. -/
theorem send_handle {h : Hands} {x y : Seat} {i : Nat} (hi : h[i]? = some .handle) :
    (send h x y).2[i]? = some .handle := by
  obtain ⟨hlt, -⟩ := List.getElem?_eq_some_iff.mp hi
  unfold send
  rw [List.getElem?_append_left hlt, hi]

theorem clear_handle {h : Hands} {x : Seat} {i : Nat} (hx : x ≠ .handle) (hi : h[i]? = some .handle) :
    (clear h x).2[i]? = some .handle := by
  unfold clear
  rw [List.getElem?_map, hi, Option.map_some, if_neg (Ne.symm hx)]

theorem move_handle {h : Hands} {i : Nat} (m : Move) (hi : h[i]? = some .handle) :
    (move h m).2[i]? = some .handle := by
  cases m with
  | decide => exact send_handle hi
  | hold key => exact send_handle hi
  | release_bytes key => exact hi
  | resolve key => exact clear_handle (by simp) (send_handle hi)

theorem moves_handle {i : Nat} (ms : List Move) :
    ∀ {h : Hands}, h[i]? = some .handle → (moves h ms).2[i]? = some .handle := by
  induction ms with
  | nil => exact fun hi => hi
  | cons m ms ih => exact fun hi => ih (move_handle m hi)

end Hands

namespace Objects

open Hands TcpTlsHostnameExtractor

variable {k : SetVerdict} {s : Objects} {h : Hands} {q : NFQueue} {own arg : List Packet}
  {l : Ledger UInt32 Packet}
variable {R P : Type} {w : World R P} {x x' : TcpTlsHostnameExtractor R P} {now : Time} {call : Call}

/-! ## The extractor moves packets -/

/-- A step of the extractor is at most one move of packets. -/
theorem Seated.step (k : SetVerdict) (hstep : Step w now call x x') (hquiet : Quiet x)
    (hs : Seated h s (seatsOf own arg x.packetsOf) q) :
    ∃ ms, Seated (moves h ms).2 (s.run k (moves h ms).1) (seatsOf own arg x'.packetsOf) q ∧
      (call.key = none → ∃ keys : List UInt32, ms = keys.map .resolve) := by
  rcases step_packets hstep hquiet with he | ⟨key, he⟩ | ⟨key, ps, p, hcall, hheld, he⟩
  · exact ⟨[], by rw [he]; exact hs, fun _ => ⟨[], rfl⟩⟩
  · refine ⟨[.resolve key], ?_, fun _ => ⟨[key], rfl⟩⟩
    rw [he]
    simpa [moves, andThen] using hs.resolve k key
  · refine ⟨[.release_bytes key], ?_, fun hnone => ?_⟩
    · rw [he]
      simpa [moves, andThen] using hs.release_bytes k hheld
    · rw [hnone] at hcall
      cases hcall

theorem Seated.path (k : SetVerdict) (hp : Path w now call x x') (hquiet : Quiet x)
    (hs : Seated h s (seatsOf own arg x.packetsOf) q) :
    ∃ ms, Seated (moves h ms).2 (s.run k (moves h ms).1) (seatsOf own arg x'.packetsOf) q ∧
      Quiet x' ∧ (call.key = none → ∃ keys : List UInt32, ms = keys.map .resolve) := by
  induction hp with
  | refl => exact ⟨[], hs, hquiet, fun _ => ⟨[], rfl⟩⟩
  | tail _ hstep ih =>
    obtain ⟨ms, hms, hquiet', hkeys⟩ := ih
    obtain ⟨more, hmore, hkeys'⟩ := hms.step k hstep hquiet'
    refine ⟨ms ++ more, ?_, quiet_step hstep hquiet', fun hnone => ?_⟩
    · rw [moves_append]
      unfold andThen
      rw [run_append]
      exact hmore
    · obtain ⟨keys, rfl⟩ := hkeys hnone
      obtain ⟨keys', rfl⟩ := hkeys' hnone
      exact ⟨keys ++ keys', by rw [List.map_append]⟩

/-- The fed packet leaves the argument of `feed`. -/
theorem Seated.take {p : Packet} (k : SetVerdict) (ht : Take w p x x') (hquiet : Quiet x)
    (hs : Seated h s (seatsOf own [p] x.packetsOf) q) :
    ∃ m, Seated (move h m).2 (s.run k (move h m).1) (seatsOf own [.husk] x'.packetsOf) q := by
  rcases take_packets ht hquiet with ⟨-, he⟩ | ⟨key, -, he⟩
  · rw [he]
    exact ⟨.decide, hs.decide k⟩
  · rw [he]
    exact ⟨.hold key, hs.hold k key⟩

/-! ## The calls of `handle` -/

/-- The end of `handle`: its object owes nothing, and goes. -/
theorem Seated.handled {p : Packet} {n : Nat} (k : SetVerdict)
    (hs : Seated h s (seatsOf [p] [] l) q) (hp : p.pending = false) (hn : h[n]? = some .handle) :
    Seated (Hands.clear h .handle).2 (s.run k [.fail_safe n, .destroy n]) (seatsOf [] [] l) q := by
  have hlen : (inSeat h .handle).length = 1 := hs.count (by simp)
  obtain ⟨m, hm⟩ := List.length_eq_one_iff.mp hlen
  have hself : n ∈ inSeat h .handle := mem_inSeat.mpr hn
  obtain ⟨o, ho, hpacket⟩ := hs.there (x := .handle) (by simp) hself
  rw [hm, List.mem_singleton] at hself
  have howed : o.packet.pending = false := by
    rw [List.mem_singleton.mp hpacket]
    exact hp
  have hsafe : s.step k (.fail_safe n) = s := by
    unfold Objects.step
    simp only [ho]
    exact if_neg (by simp [howed])
  have hcleared := hs.clear k (x := .handle) (by simp) (by
    intro p' hp'
    rw [List.mem_singleton.mp hp']
    exact hp)
  have hops : (Hands.clear h .handle).1 = [.destroy n] := by
    unfold Hands.clear
    rw [hm, hself]
    rfl
  rw [hops] at hcleared
  have hrun : s.run k [.fail_safe n, .destroy n] = s.run k [.destroy n] := by
    unfold run
    rw [List.foldl_cons, hsafe]
  rw [hrun]
  refine hcleared.of_eq (funext fun z => ?_)
  cases z <;> simp [seatsOf]

theorem Seated.arrived (k : SetVerdict) (nfa : NfqData) (hs : Seated h s (seatsOf [] [] l) q) :
    Seated (h ++ [.handle]) (s.step k (.arrive nfa)) (seatsOf [nfa.packet] [] l)
      { q with received := q.received + 1 } := by
  refine (hs.arrive k nfa rfl).of_eq (funext fun z => ?_)
  cases z <;> simp [seatsOf]

theorem at_arrival (h : Hands) : (h ++ [Seat.handle])[h.length]? = some .handle := by simp

/-- `handle` with a callback that leaves nothing to answer in its object. -/
theorem Seated.handling {p : Packet} (k : SetVerdict) (nfa : NfqData)
    {c : Hands → List PacketOp × Hands}
    (hs : Seated (c (h ++ [.handle])).2
      ((s.step k (.arrive nfa)).run k (c (h ++ [.handle])).1) (seatsOf [p] [] l) q)
    (hp : p.pending = false) (hkeep : (c (h ++ [.handle])).2[h.length]? = some .handle) :
    Seated (Hands.handling h nfa c).2 (s.run k (Hands.handling h nfa c).1)
      (seatsOf [] [] l) q := by
  have hdone := hs.handled k hp hkeep
  rw [← run_append] at hdone
  exact hdone

/-- A feed moves its packet and those that it resolves. -/
theorem Seated.feed (w : World R P) (k : SetVerdict) (now : Time) (nfa : NfqData)
    (hfeed : x.feeding = false) (hquiet : Quiet x) (hs : Seated h s (seatsOf [] [] x.packetsOf) q) :
    ∃ ms, Seated (Hands.act h (.feed nfa ms)).2 (s.run k (Hands.act h (.feed nfa ms)).1)
      (seatsOf [] [] (x.feed w now nfa.packet).packetsOf) { q with received := q.received + 1 } := by
  obtain ⟨⟨x₁, x₂, hbefore, htake, hafter⟩, -⟩ := feed_feeds w now nfa.arrival hfeed
  have hsent := (hs.arrived k nfa).send k (x := .handle) (y := .argument) (by simp) (by simp)
  have hargument : sent (seatsOf [nfa.packet] [] x.packetsOf) .handle .argument =
      seatsOf [.husk] [nfa.packet] x.packetsOf := by
    funext z
    cases z <;> simp [sent, seatsOf]
  rw [hargument] at hsent
  obtain ⟨before, hbefores, hquiet₁, -⟩ := hsent.path k hbefore hquiet
  obtain ⟨m, htaken⟩ := hbefores.take k htake hquiet₁
  obtain ⟨after, hafters, -, -⟩ := htaken.path k hafter (quiet_take htake hquiet₁)
  have hcleared := hafters.clear k (x := .argument) (by simp) (by
    intro p hp
    rw [List.mem_singleton.mp hp]
    rfl)
  have hempty : Function.update (seatsOf [.husk] [.husk] (x.feed w now nfa.packet).packetsOf)
      .argument [] = seatsOf [.husk] [] (x.feed w now nfa.packet).packetsOf := by
    funext z
    cases z <;> simp [seatsOf]
  refine ⟨before ++ (m :: after), Seated.handling k nfa (c := feeding (before ++ (m :: after)))
    (p := .husk) ?_ rfl ?_⟩
  · rw [← hempty]
    simp only [Hands.feeding, moves_append, Hands.moves, andThen, run_append]
    exact hcleared
  · exact clear_handle (by simp) (moves_handle _ (send_handle (at_arrival h)))

/-- In passthrough mode the callback answers for the packet at once. -/
theorem Seated.pass (k : SetVerdict) (nfa : NfqData) (hs : Seated h s (seatsOf [] [] l) q) :
    Seated (Hands.act h (.pass nfa)).2 (s.run k (Hands.act h (.pass nfa)).1) (seatsOf [] [] l)
      ({ q with received := q.received + 1 }.submit k nfa.packet .ALLOW).1 := by
  have harrived := hs.arrived k nfa
  have hseat : inSeat (h ++ [.handle]) .handle = [h.length] := by
    have hlen : (inSeat (h ++ [.handle]) .handle).length = 1 := harrived.count (by simp)
    obtain ⟨m, hm⟩ := List.length_eq_one_iff.mp hlen
    have hself : h.length ∈ inSeat (h ++ [.handle]) .handle := mem_inSeat.mpr (at_arrival h)
    rw [hm, List.mem_singleton] at hself
    rw [hm, hself]
  obtain ⟨o, ho, hpacket⟩ := harrived.there (x := .handle) (by simp) (mem_inSeat.mpr (at_arrival h))
  rw [show seatsOf [nfa.packet] [] l .handle = [nfa.packet] from rfl, List.mem_singleton] at hpacket
  obtain ⟨hlen, hqueue, hlost, hothers, o', ho', howes⟩ :=
    step_submit_at k ho (hpacket ▸ nfa.packet_pending) .ALLOW
  have hanswered : ∀ i ∈ [h.length], ∃ o,
      ((s.step k (.arrive nfa)).step k (.submit h.length .ALLOW)).object i = some o ∧ o.owes = [] := by
    simpa using ⟨o', ho', howes⟩
  obtain ⟨ps, hps, hnone⟩ := exists_packets hanswered
  have hput := harrived.put (x := .handle) (by simp) hlen
    (fun j hj => hothers j (fun he => hj (by simp [hseat, he]))) (by rw [hseat]; exact hps)
    (hqueue.trans (by rw [harrived.queue, hpacket])) (hlost.trans harrived.lost)
  obtain ⟨p, rfl⟩ : ∃ p, ps = [p] := by
    have hcount := congrArg List.length hps
    rw [List.length_map, List.length_map] at hcount
    exact List.length_eq_one_iff.mp hcount.symm
  refine Seated.handling k nfa (p := p) ?_ (hnone p (by simp)) (at_arrival h)
  rw [hseat]
  refine hput.of_eq (funext fun z => ?_)
  cases z <;> simp [seatsOf]

/-- What is decided goes to the kernel. -/
theorem Seated.drain (k : SetVerdict) {ds : List Decided} (hds : ∀ d ∈ ds, d.pkt.pending = true)
    (hgone : l.gone = ds.map (·.pkt)) (hs : Seated h s (seatsOf [] [] l) q) :
    Seated (Hands.act h (.drain (ds.map Decided.verdict))).2
      (s.run k (Hands.act h (.drain (ds.map Decided.verdict))).1)
      (seatsOf [] [] { l with gone := [] })
      (ds.foldl (fun q d => (q.submit k d.pkt d.verdict).1) q) := by
  have hpackets : (inSeat h .decided).map s.packetAt = ds.map (fun d => some d.pkt) := by
    rw [hs.packets .decided (by simp)]
    show l.gone.map some = _
    rw [hgone, List.map_map]
    rfl
  obtain ⟨hlen, hqueue, hlost, hothers, hall⟩ :=
    run_submits k ds (inSeat_nodup h .decided) hpackets hds
  obtain ⟨ps, hps, hnone⟩ := exists_packets hall
  have hput := hs.put (x := .decided) (by simp) hlen hothers hps
    (hqueue.trans (by rw [hs.queue])) (hlost.trans hs.lost)
  have hcleared := hput.clear k (x := .decided) (by simp) (by
    rw [Function.update_self]
    exact hnone)
  rw [← run_append] at hcleared
  refine hcleared.of_eq (funext fun z => ?_)
  cases z <;> simp [seatsOf]

/-! ## No view outlives its buffer -/

theorem careful_of_callback {ops : List PacketOp} (hops : ∀ op ∈ ops, op ≠ .recv) (s : Objects) :
    Along (Objects.step k) Careful s ops := by
  refine Along.of_forall (fun s' op hop => ?_) s
  cases op with
  | recv => exact absurd rfl (hops .recv hop)
  | _ => trivial

theorem ne_recv_of_callback {ops : List PacketOp} (hops : ∀ op ∈ ops, ofCallback op) :
    ∀ op ∈ ops, op ≠ .recv := by
  intro op hop he
  have hcallback := hops op hop
  rw [he] at hcallback
  exact hcallback

/-- Only the act of receiving receives. -/
theorem act_ne_recv {a : WorkerOp} (ha : a ≠ .recv) (h : Hands) :
    ∀ op ∈ (Hands.act h a).1, op ≠ .recv := by
  have hhandling : ∀ (nfa : NfqData) (callback : Hands → List PacketOp × Hands),
      (∀ op ∈ (callback (h ++ [.handle])).1, op ≠ .recv) →
      ∀ op ∈ (Hands.handling h nfa callback).1, op ≠ .recv := by
    intro nfa callback hcallback op hop
    simp only [Hands.handling, List.mem_append, List.mem_cons, List.not_mem_nil, or_false] at hop
    rcases hop with (rfl | hop) | rfl | rfl
    · simp
    · exact hcallback op hop
    · simp
    · simp
  cases a with
  | recv => exact absurd rfl ha
  | pass nfa =>
    refine hhandling nfa _ (fun op hop => ?_)
    obtain ⟨i, -, rfl⟩ := List.mem_map.mp hop
    simp
  | feed nfa ms => exact hhandling nfa _ (ne_recv_of_callback (feeding_ofCallback ms _))
  | resolve keys => exact ne_recv_of_callback (moves_ofCallback _ h)
  | drain verdicts =>
    refine andThen_forall (fun op hop => ?_) (ne_recv_of_callback (clear_ofCallback h .decided))
    rw [← List.map_uncurry_zip_eq_zipWith] at hop
    obtain ⟨⟨i, v⟩, -, rfl⟩ := List.mem_map.mp hop
    simp [Function.uncurry]

/-- Where all packets are shells no object points into the receive buffer. -/
theorem Seated.views {f : Seat → List Packet} (hs : Seated h s f q)
    (hf : ∀ z, ∀ p ∈ f z, p.storage = .shell) : s.views = [] := by
  rw [List.eq_nil_iff_forall_not_mem]
  intro n hn
  obtain ⟨o, hm, hview⟩ := mem_contents.mp hn
  obtain ⟨i, hi⟩ := List.mem_iff_getElem?.mp hm
  have ho : s.object i = some o := by simp [object, hi]
  have hlt : i < h.length := hs.length ▸ object_lt ho
  have hseat := List.getElem?_eq_getElem hlt
  have hz : h[i] ≠ .gone := by
    intro hgone
    rw [hgone] at hseat
    rw [hs.gone i (mem_inSeat.mpr hseat)] at ho
    cases ho
  obtain ⟨o', ho', hpacket⟩ := hs.there hz (mem_inSeat.mpr hseat)
  rw [ho] at ho'
  cases ho'
  have hshell := hf _ _ hpacket
  rcases o.fits with ⟨-, hmem⟩ | ⟨hview', -⟩ | ⟨howned, -⟩
  · rw [PacketObject.view, hmem] at hview
    cases hview
  · rw [hshell] at hview'
    cases hview'
  · rw [hshell] at howned
    cases howned

/-! ## The worker -/

variable {wk : Worker R P} {passthrough : Bool}

/-- The objects are where the worker has its packets. -/
structure Working (passthrough : Bool) (h : Hands) (s : Objects) (wk : Worker R P) : Prop where
  mode : wk.passthrough = passthrough
  seated : Seated h s (seatsOf [] [] wk.tls.packetsOf) wk.queue
  quiet : Quiet wk.tls
  feeding : wk.tls.feeding = false
  bare : Bare none wk.tls
  pending : AllPackets (fun p => p.pending = true) wk.tls

/-- The acts that a call of `handle` may be. -/
def Handles (passthrough : Bool) (arrival : Time × NfqData) (a : WorkerOp) : Prop :=
  if passthrough then a = .pass arrival.2 else ∃ ms, a = .feed arrival.2 ms

/-- The acts that some turns of the loop may be. -/
def Turns (passthrough : Bool) : List (NFQueue.Event × Time) → List WorkerOp → Prop
  | [], acts => acts = []
  | (.Stop, _) :: _, acts => ∃ keys verdicts, acts = [.resolve keys, .drain verdicts]
  | (.Error, _) :: _, acts => ∃ keys verdicts, acts = [.resolve keys, .drain verdicts]
  | (.Idle, _) :: turns, acts => ∃ keys verdicts rest,
      acts = .resolve keys :: .drain verdicts :: rest ∧ Turns passthrough turns rest
  | (.Packets batch, _) :: turns, acts => ∃ calls keys verdicts rest,
      List.Forall₂ (Handles passthrough) batch calls ∧
      acts = .recv :: (calls ++ .resolve keys :: .drain verdicts :: rest) ∧ Turns passthrough turns rest

theorem Working.handle (w : World R P) (k : SetVerdict) (hw : Working passthrough h s wk)
    (arrival : Time × NfqData) : ∃ a, Handles passthrough arrival a ∧ a ≠ .recv ∧
      Working passthrough (Hands.act h a).2 (s.run k (Hands.act h a).1)
        (wk.handle w k arrival.1 arrival.2) := by
  cases hmode : wk.passthrough with
  | true =>
    rw [Worker.handle_of_passthrough w k arrival.1 arrival.2 hmode]
    have hpass : passthrough = true := hw.mode.symm.trans hmode
    refine ⟨.pass arrival.2, ?_, by simp, hw.mode, hw.seated.pass k arrival.2, hw.quiet, hw.feeding,
      hw.bare, hw.pending⟩
    rw [Handles, hpass]
    rfl
  | false =>
    rw [Worker.handle_inspecting w k arrival.1 arrival.2 hmode]
    have hpass : passthrough = false := hw.mode.symm.trans hmode
    have hpending : ∀ p, (Op.feed arrival.1 arrival.2.arrival).fed = some p → p.pending = true := by
      rintro p hp
      cases hp
      exact arrival.2.packet_pending
    obtain ⟨ms, hms⟩ := hw.seated.feed w k arrival.1 arrival.2 hw.feeding hw.quiet
    refine ⟨.feed arrival.2 ms, ?_, by simp, hw.mode, hms, ?_, ?_, ?_, ?_⟩
    · rw [Handles, hpass]
      exact ⟨ms, rfl⟩
    · exact apply_quiet (w := w) (.feed arrival.1 arrival.2.arrival) hw.feeding hw.quiet
    · exact apply_feeding (w := w) (.feed arrival.1 arrival.2.arrival) hw.feeding
    · exact apply_bare (w := w) (.feed arrival.1 arrival.2.arrival) hw.feeding hw.quiet hw.bare
    · exact allPackets_apply (w := w) (fun _ hp => hp) (.feed arrival.1 arrival.2.arrival) hpending
        hw.feeding hw.pending

/-- A tick and a flush resolve flows, and do nothing else. -/
theorem Working.serve (w : World R P) (k : SetVerdict) (hw : Working passthrough h s wk) (op : Op)
    (hop : op.fed = none) : ∃ keys,
      Working passthrough (Hands.act h (.resolve keys)).2 (s.run k (Hands.act h (.resolve keys)).1)
        { wk with tls := op.apply w wk.tls } := by
  obtain ⟨call, hcall, hpath⟩ : ∃ call : Call, call.key = none ∧
      Path w op.now call wk.tls (op.apply w wk.tls) := by
    cases op with
    | feed now p => cases hop
    | tick now => exact ⟨.tick, rfl, (tick_path w now .tick hw.feeding).1⟩
    | flush now => exact ⟨.flush, rfl, (flush_path w now hw.feeding).1⟩
  obtain ⟨ms, hms, hquiet, hkeys⟩ := hw.seated.path k hpath hw.quiet
  obtain ⟨keys, rfl⟩ := hkeys hcall
  exact ⟨keys, hw.mode, hms, hquiet, apply_feeding op hw.feeding, apply_bare op hw.feeding hw.quiet hw.bare,
    allPackets_apply (fun _ hp => hp) op (fun p hp => by rw [hop] at hp; cases hp) hw.feeding hw.pending⟩

theorem Working.drain (k : SetVerdict) (hw : Working passthrough h s wk) :
    ∃ verdicts, Working passthrough (Hands.act h (.drain verdicts)).2
      (s.run k (Hands.act h (.drain verdicts)).1) (wk.drain_decided k) :=
  ⟨_, hw.mode, hw.seated.drain k hw.pending.decided rfl, hw.quiet, hw.feeding, hw.bare,
    ⟨fun d hd => (by cases hd), hw.pending.held⟩⟩

/-- When everything decided was drained, what is left is shells. -/
theorem Working.views (hw : Working passthrough h s wk) (hdrained : wk.tls.decided = []) :
    s.views = [] := by
  refine hw.seated.views (fun z p hp => ?_)
  cases z with
  | held key => exact hw.bare key p (by rw [if_neg (by simp)]; exact hp)
  | decided =>
    simp only [seatsOf, packetsOf, hdrained] at hp
    cases hp
  | _ => cases hp

theorem Working.recv (k : SetVerdict) (hw : Working passthrough h s wk) :
    Working passthrough h (s.step k .recv) wk :=
  ⟨hw.mode, hw.seated.same rfl rfl rfl, hw.quiet, hw.feeding, hw.bare, hw.pending⟩

/-- A program of acts that leads the objects along with the worker, and keeps
no view over a `recv`. -/
def Leads (k : SetVerdict) (passthrough : Bool) (h : Hands) (s : Objects) (wk : Worker R P)
    (acts : List WorkerOp) : Prop :=
  Working passthrough (program h acts).2 (s.run k (program h acts).1) wk ∧
  Along (Objects.step k) Careful s (program h acts).1

theorem Leads.nil (hw : Working passthrough h s wk) : Leads k passthrough h s wk [] := ⟨hw, trivial⟩

theorem Leads.cons {a : WorkerOp} {acts : List WorkerOp} {wk' : Worker R P}
    (hcareful : Along (Objects.step k) Careful s (Hands.act h a).1)
    (hl : Leads k passthrough (Hands.act h a).2 (s.run k (Hands.act h a).1) wk' acts) :
    Leads k passthrough h s wk' (a :: acts) := by
  refine ⟨?_, hcareful.append hl.2⟩
  have hw := hl.1
  rw [← run_append] at hw
  exact hw

theorem Leads.cons_still {a : WorkerOp} {acts : List WorkerOp} {wk' : Worker R P} (ha : a ≠ .recv)
    (hl : Leads k passthrough (Hands.act h a).2 (s.run k (Hands.act h a).1) wk' acts) :
    Leads k passthrough h s wk' (a :: acts) :=
  hl.cons (careful_of_callback (act_ne_recv ha h) s)

theorem Leads.append {acts more : List WorkerOp} {wk' : Worker R P}
    (hl : Leads k passthrough h s wk acts)
    (hm : Leads k passthrough (program h acts).2 (s.run k (program h acts).1) wk' more) :
    Leads k passthrough h s wk' (acts ++ more) := by
  obtain ⟨hw, hcareful⟩ := hm
  rw [← run_append] at hw
  unfold Leads
  rw [program_append]
  exact ⟨hw, hl.2.append hcareful⟩

/-- The calls of `handle` of one buffer. -/
theorem Working.batch (w : World R P) (k : SetVerdict) (batch : List (Time × NfqData)) :
    ∀ {h : Hands} {s : Objects} {wk : Worker R P}, Working passthrough h s wk →
      ∃ calls, List.Forall₂ (Handles passthrough) batch calls ∧
        Leads k passthrough h s (batch.foldl (fun wk x => wk.handle w k x.1 x.2) wk) calls := by
  induction batch with
  | nil => exact fun hw => ⟨[], .nil, .nil hw⟩
  | cons arrival batch ih =>
    intro h s wk hw
    obtain ⟨a, ha, hstill, hhandled⟩ := hw.handle w k arrival
    obtain ⟨calls, hcalls, hl⟩ := ih hhandled
    exact ⟨a :: calls, .cons ha hcalls, hl.cons_still hstill⟩

/-- What follows `run_once` in a turn, or in the end of the loop. -/
theorem Working.settle (w : World R P) (k : SetVerdict) (hw : Working passthrough h s wk) (op : Op)
    (hop : op.fed = none) : ∃ keys verdicts,
      Leads k passthrough h s (Worker.drain_decided { wk with tls := op.apply w wk.tls } k)
        [.resolve keys, .drain verdicts] := by
  obtain ⟨keys, hserved⟩ := hw.serve w k op hop
  obtain ⟨verdicts, hdrained⟩ := hserved.drain k
  exact ⟨keys, verdicts, .cons_still (by simp) (.cons_still (by simp) (.nil hdrained))⟩

/-- Turn after turn the acts do what the worker's loop does: those of the first
turns come first. -/
def Follows (w : World R P) (k : SetVerdict) (passthrough : Bool) (h : Hands) (s : Objects)
    (wk : Worker R P) (turns : List (NFQueue.Event × Time)) (acts : List WorkerOp) : Prop :=
  ∀ first, first <+: turns → ∃ done, done <+: acts ∧ Turns passthrough first done ∧
    Leads k passthrough h s (wk.loop w k first).2 done

/-- Acts follow a loop that took a turn, when those of the turn lead where the
others follow. -/
theorem Follows.cons {w : World R P} {t : NFQueue.Event × Time} {turns : List (NFQueue.Event × Time)}
    {wk' : Worker R P} {acts rest : List WorkerOp} (hw : Working passthrough h s wk)
    (hl : Leads k passthrough h s wk' acts)
    (hloop : ∀ first, (wk.loop w k (t :: first)).2 = (wk'.loop w k first).2)
    (hturns : ∀ first done, Turns passthrough first done → Turns passthrough (t :: first) (acts ++ done))
    (hrest : Follows w k passthrough (program h acts).2 (s.run k (program h acts).1) wk' turns rest) :
    Follows w k passthrough h s wk (t :: turns) (acts ++ rest) := by
  intro first hfirst
  rcases List.prefix_cons_iff.mp hfirst with rfl | ⟨first, rfl, hinside⟩
  · exact ⟨[], List.nil_prefix, rfl, .nil hw⟩
  · obtain ⟨done, hdone, ht, hled⟩ := hrest first hinside
    refine ⟨acts ++ done, (List.prefix_append_right_inj acts).mpr hdone, hturns first done ht, ?_⟩
    rw [hloop]
    exact hl.append hled

/-- Turn after turn, the worker's loop is a program of acts. -/
theorem Working.loop (w : World R P) (k : SetVerdict) (turns : List (NFQueue.Event × Time)) :
    ∀ {h : Hands} {s : Objects} {wk : Worker R P}, Working passthrough h s wk → wk.tls.decided = [] →
      ∃ acts, Turns passthrough turns acts ∧ Leads k passthrough h s (wk.loop w k turns).2 acts ∧
        Follows w k passthrough h s wk turns acts := by
  induction turns with
  | nil =>
    intro h s wk hw _
    refine ⟨[], rfl, .nil hw, fun first hfirst => ?_⟩
    rw [List.prefix_nil.mp hfirst]
    exact ⟨[], List.nil_prefix, rfl, .nil hw⟩
  | cons t turns ih =>
    intro h s wk hw hdrained
    obtain ⟨ev, now⟩ := t
    -- a turn that ends the loop leaves nothing to the others
    have hend : (∀ first, (wk.loop w k ((ev, now) :: first)).2 = wk.finish w k now) →
        (∀ first keys verdicts,
          Turns passthrough ((ev, now) :: first) [.resolve keys, .drain verdicts]) →
        ∃ acts, Turns passthrough ((ev, now) :: turns) acts ∧
          Leads k passthrough h s (wk.loop w k ((ev, now) :: turns)).2 acts ∧
          Follows w k passthrough h s wk ((ev, now) :: turns) acts := by
      intro hloop hturn
      obtain ⟨keys, verdicts, hl⟩ := hw.settle w k (.flush now) rfl
      refine ⟨_, hturn turns keys verdicts, ?_, fun first hfirst => ?_⟩
      · rw [hloop]
        exact hl
      · rcases List.prefix_cons_iff.mp hfirst with rfl | ⟨first, rfl, -⟩
        · exact ⟨[], List.nil_prefix, rfl, .nil hw⟩
        · refine ⟨_, List.prefix_refl _, hturn first keys verdicts, ?_⟩
          rw [hloop]
          exact hl
    cases ev with
    | Stop => exact hend (fun _ => rfl) (fun _ keys verdicts => ⟨keys, verdicts, rfl⟩)
    | Error => exact hend (fun _ => rfl) (fun _ keys verdicts => ⟨keys, verdicts, rfl⟩)
    | Idle =>
      obtain ⟨keys, verdicts, hl⟩ := hw.settle w k (.tick now) rfl
      obtain ⟨rest, hturns, hrest, hfollows⟩ := ih hl.1 rfl
      have hturn : ∀ first done, Turns passthrough first done →
          Turns passthrough ((.Idle, now) :: first) ([.resolve keys, .drain verdicts] ++ done) :=
        fun first done ht => ⟨keys, verdicts, done, rfl, ht⟩
      exact ⟨_, hturn turns rest hturns, hl.append hrest,
        .cons hw hl (fun _ => rfl) hturn hfollows⟩
    | Packets batch =>
      have hreceive : Along (Objects.step k) Careful s (Hands.act h .recv).1 :=
        ⟨hw.views hdrained, trivial⟩
      obtain ⟨calls, hcalls, hbatch⟩ := (hw.recv k).batch w k batch
      obtain ⟨keys, verdicts, hserved⟩ := hbatch.1.settle w k (.tick now) rfl
      have hl := Leads.cons hreceive (hbatch.append hserved)
      obtain ⟨rest, hturns, hrest, hfollows⟩ := ih hl.1 rfl
      have hturn : ∀ first done, Turns passthrough first done →
          Turns passthrough ((.Packets batch, now) :: first)
            ((.recv :: (calls ++ [.resolve keys, .drain verdicts])) ++ done) :=
        fun first done ht => ⟨calls, keys, verdicts, done, hcalls, by simp, ht⟩
      exact ⟨_, hturn turns rest hturns, hl.append hrest,
        .cons hw hl (fun _ => rfl) hturn hfollows⟩

/-- What a program of acts leaves is what a worker has: the queue, and each
packet where the worker has it, in that order. It has lost none, and those
that still owe a verdict are no others. -/
structure Mirrors (k : SetVerdict) (acts : List WorkerOp) (wk : Worker R P) : Prop where
  queue : (run k {} (program [] acts).1).queue = wk.queue
  lost : (run k {} (program [] acts).1).lost = []
  decided : (inSeat (program [] acts).2 .decided).map (run k {} (program [] acts).1).packetAt =
    wk.tls.decided.map (fun d => some d.pkt)
  held : ∀ key, (inSeat (program [] acts).2 (.held key)).map (run k {} (program [] acts).1).packetAt =
    (wk.tls.heldPackets key).map some
  pending : ∀ p ∈ (run k {} (program [] acts).1).packets, p.pending = true
  owing : ((run k {} (program [] acts).1).packets.map Packet.tag).Perm
    (wk.tls.decided.map (·.pkt.tag) ++ wk.tls.conns.keys.flatMap wk.tls.heldTags)

theorem Working.mirrors {acts : List WorkerOp}
    (hw : Working passthrough (program [] acts).2 (run k {} (program [] acts).1) wk) :
    Mirrors k acts wk := by
  have hkeys : ∀ key, wk.tls.heldPackets key ≠ [] → key ∈ wk.tls.conns.keys := by
    intro key hne
    rw [AList.mem_keys_iff_find]
    cases hl : wk.tls.conns.find key with
    | none => exact absurd (heldPackets_of_none hl) hne
    | some c => exact ⟨c, rfl⟩
  have hperm := hw.seated.perm rfl rfl wk.tls.conns.keys_nodup hkeys
  refine ⟨hw.seated.queue, hw.seated.lost, ?_, fun key => hw.seated.packets (.held key) (by simp),
    fun p hp => ?_, ?_⟩
  · exact (hw.seated.packets .decided (by simp)).trans (List.map_map ..)
  · rcases List.mem_append.mp (hperm.mem_iff.mp hp) with hp | hp
    · obtain ⟨d, hd, rfl⟩ := List.mem_map.mp hp
      exact hw.pending.decided d hd
    · obtain ⟨key, -, hheld⟩ := List.mem_flatMap.mp hp
      have hmem : p ∈ wk.tls.heldPackets key := hheld
      cases hl : wk.tls.conns.find key with
      | none =>
        rw [heldPackets_of_none hl] at hmem
        cases hmem
      | some c =>
        rw [heldPackets_of_some hl] at hmem
        exact hw.pending.held key c hl p hmem
  · have htags := hperm.map Packet.tag
    have hheld : wk.tls.heldTags = fun key => (wk.tls.heldPackets key).map Packet.tag :=
      funext (heldTags_eq wk.tls)
    have hdecided : wk.tls.decided.map (·.pkt.tag) = wk.tls.packetsOf.gone.map Packet.tag :=
      (@List.map_map _ _ _ Packet.tag Decided.pkt wk.tls.decided).symm
    rw [List.map_append, List.map_flatMap] at htags
    rw [hheld, hdecided]
    exact htags

theorem working_start (passthrough : Bool) (r : R) (p : P) (max_flows max_blocked : Nat) :
    Working passthrough [] {}
      ({ passthrough := passthrough, tls := .init r p max_flows max_blocked } : Worker R P) := by
  refine ⟨rfl, ⟨rfl, by simp [inSeat], ?_, rfl, rfl⟩, ?_, rfl, ?_, ?_⟩
  · intro z hz
    cases z <;> simp [seatsOf, packetsOf, heldPackets, init, inSeat]
  · intro key c hl
    cases hl
  · intro key p hp
    simp [heldPackets, init] at hp
  · exact ⟨fun d hd => (by cases hd), fun key c hl => (by cases hl)⟩

/-- Every run of a worker's loop, in both modes and with any answers of the
kernel, is a program of moves: each packet goes from `handle` to the kernel,
or through the argument of `feed`, a held list and the decided buffer, and
nothing is thrown on the way. The program keeps no view over a `recv`. After
every turn, it has lost no packet and left the queue as the worker has, and
the packets that still owe a verdict are those that lie in the decided buffer
and in the held lists, in the order in which the worker has them. -/
theorem the_worker_loop_is_a_program_of_moves (w : World R P) (k : SetVerdict)
    (passthrough : Bool) (r : R) (p : P) (max_flows max_blocked : Nat)
    (turns : List (NFQueue.Event × Time)) :
    let wk : Worker R P := { passthrough := passthrough, tls := .init r p max_flows max_blocked }
    ∃ acts, Turns passthrough turns acts ∧ Mirrors k acts (wk.loop w k turns).2 ∧
      Along (Objects.step k) Careful {} (program [] acts).1 ∧
      ∀ first, first <+: turns → ∃ done, done <+: acts ∧ Turns passthrough first done ∧
        Mirrors k done (wk.loop w k first).2 := by
  intro wk
  obtain ⟨acts, hturns, hl, hfollows⟩ :=
    (working_start passthrough r p max_flows max_blocked).loop w k turns rfl
  refine ⟨acts, hturns, hl.1.mirrors, hl.2, fun first hfirst => ?_⟩
  obtain ⟨done, hdone, ht, hled⟩ := hfollows first hfirst
  exact ⟨done, hdone, ht, hled.1.mirrors⟩

end Objects

end packet_inspector
