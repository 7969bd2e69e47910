-- The counters of a queue as another thread reads them: `outstanding` loads
-- the two of them one after the other, and the worker goes on in between. It
-- may verdict what was received after the first load, and then it wraps.
import PacketInspector.Verdicts

open wire packet_inspector.tls

namespace packet_inspector

/-! ## The worker, one atomic step at a time -/

/-- A worker between two steps on the counters: its queue, and the packets
that still owe a verdict, wherever it keeps them. -/
structure WorkerThread where
  queue : NFQueue := {}
  owed : List Packet := []

/-- The steps that another thread can see: a packet is counted as it comes
in, and one of those that owe a verdict is submitted. -/
inductive AtomicStep where
  | receive (nfa : NfqData)
  | submit (i : Nat) (v : Verdict)

namespace WorkerThread

def step (k : SetVerdict) (s : WorkerThread) : AtomicStep → WorkerThread
  | .receive nfa =>
    { queue := { s.queue with received := s.queue.received + 1 }
      owed := s.owed ++ [nfa.packet] }
  | .submit i v =>
    match s.owed[i]? with
    | none => s
    | some pkt => { queue := (s.queue.submit k pkt v).1, owed := s.owed.eraseIdx i }

def run (k : SetVerdict) (s : WorkerThread) (steps : List AtomicStep) : WorkerThread :=
  steps.foldl (step k) s

end WorkerThread

/-! ## The loads of another thread -/

namespace NFQueue

/-- `outstanding` with its two loads at different times. -/
def outstanding_loaded (first second : NFQueue) : UInt64 :=
  first.packets_received - second.verdicts_issued

theorem outstanding_loaded_toNat (first second : NFQueue) :
    (first.outstanding_loaded second).toNat =
      (2 ^ 64 - second.verdicted % 2 ^ 64 + first.received % 2 ^ 64) % 2 ^ 64 := by
  unfold outstanding_loaded packets_received verdicts_issued
  rw [UInt64.toNat_sub, UInt64.toNat_ofNat', UInt64.toNat_ofNat']

/-- The loads of a queue that rests give what is outstanding. -/
@[simp] theorem outstanding_loaded_self (q : NFQueue) : q.outstanding_loaded q = q.outstanding := rfl

end NFQueue

/-! ## What a step can do -/

/-- A submit counts at most one verdict, and nothing else moves. -/
theorem NFQueue.submit_counters (q : NFQueue) (k : SetVerdict) (pkt : Packet) (v : Verdict) :
    (q.submit k pkt v).1.received = q.received ∧ q.verdicted ≤ (q.submit k pkt v).1.verdicted ∧
    (q.submit k pkt v).1.verdicted ≤ q.verdicted + 1 := by
  unfold submit
  split
  · exact ⟨rfl, Nat.le_refl _, Nat.le_succ _⟩
  · refine ⟨rfl, ?_, ?_⟩
    · dsimp only
      split
      · exact Nat.le_succ _
      · exact Nat.le_refl _
    · dsimp only
      split
      · exact Nat.le_refl _
      · exact Nat.le_succ _

namespace WorkerThread

variable {k : SetVerdict} {s : WorkerThread}

/-- A submit finds a packet that owes a verdict, or does nothing. -/
theorem step_submit (k : SetVerdict) (s : WorkerThread) (i : Nat) (v : Verdict) :
    s.step k (.submit i v) = s ∨ ∃ pkt, s.owed[i]? = some pkt ∧
      s.step k (.submit i v) = { queue := (s.queue.submit k pkt v).1, owed := s.owed.eraseIdx i } := by
  cases h : s.owed[i]? with
  | none => exact .inl (by simp [step, h])
  | some pkt => exact .inr ⟨pkt, rfl, by simp [step, h]⟩

/-- The packets verdicted and those that owe a verdict were received. -/
def Covered (s : WorkerThread) : Prop := s.queue.verdicted + s.owed.length ≤ s.queue.received

theorem step_covered (a : AtomicStep) (h : s.Covered) : (s.step k a).Covered := by
  cases a with
  | receive nfa =>
    unfold Covered at h ⊢
    simp only [step, List.length_append, List.length_singleton]
    omega
  | submit i v =>
    rcases step_submit k s i v with hs | ⟨pkt, hpkt, hs⟩
    · rw [hs]
      exact h
    · obtain ⟨hi, -⟩ := List.getElem?_eq_some_iff.mp hpkt
      obtain ⟨hreceived, -, hone⟩ := s.queue.submit_counters k pkt v
      have hlen := List.length_eraseIdx_of_lt hi
      rw [hs]
      unfold Covered at h ⊢
      simp only [hreceived, hlen]
      omega

/-- No counter goes down. -/
theorem step_mono (k : SetVerdict) (s : WorkerThread) (a : AtomicStep) :
    s.queue.received ≤ (s.step k a).queue.received ∧
    s.queue.verdicted ≤ (s.step k a).queue.verdicted := by
  cases a with
  | receive nfa => exact ⟨Nat.le_succ _, Nat.le_refl _⟩
  | submit i v =>
    rcases step_submit k s i v with hs | ⟨pkt, -, hs⟩
    · rw [hs]
      exact ⟨Nat.le_refl _, Nat.le_refl _⟩
    · obtain ⟨hreceived, hmore, -⟩ := s.queue.submit_counters k pkt v
      rw [hs]
      exact ⟨hreceived.ge, hmore⟩

theorem run_covered (steps : List AtomicStep) (h : s.Covered) : (s.run k steps).Covered := by
  induction steps generalizing s with
  | nil => exact h
  | cons a steps ih => exact ih (step_covered a h)

theorem run_mono (k : SetVerdict) (s : WorkerThread) (steps : List AtomicStep) :
    s.queue.received ≤ (s.run k steps).queue.received ∧
    s.queue.verdicted ≤ (s.run k steps).queue.verdicted := by
  induction steps generalizing s with
  | nil => exact ⟨Nat.le_refl _, Nat.le_refl _⟩
  | cons a steps ih =>
    obtain ⟨hreceived, hverdicted⟩ := step_mono k s a
    obtain ⟨hreceived', hverdicted'⟩ := ih (s.step k a)
    exact ⟨hreceived.trans hreceived', hverdicted.trans hverdicted'⟩

theorem start_covered (k : SetVerdict) (steps : List AtomicStep) :
    (run k {} steps).Covered :=
  run_covered steps (Nat.le_refl 0)

/-! ## The law -/

/-- Received, and not yet verdicted. -/
def inHand (s : WorkerThread) : Nat := s.queue.received - s.queue.verdicted

/-- The verdicts that some steps add to the counter. -/
def issued (k : SetVerdict) (s : WorkerThread) (steps : List AtomicStep) : Nat :=
  (s.run k steps).queue.verdicted - s.queue.verdicted

/-- In every interleaving of the worker with the two loads, the value of
`outstanding` is at most the number of packets received, unless more verdicts
come between the loads than there were packets in hand at the first one. Then
it wraps, to a value that fewer than 2 ^ 63 packets never reach. -/
theorem outstanding_stays_below_received_iff (k : SetVerdict) (before between : List AtomicStep) :
    let first := run k {} before
    let second := run k first between
    (first.queue.outstanding_loaded second.queue).toNat ≤ second.queue.received ↔
      issued k first between ≤ first.inHand ∨
        2 ^ 64 ≤ second.queue.received + (issued k first between - first.inHand) := by
  intro first second
  have hfirst : first.Covered := start_covered k before
  have hsecond : second.Covered := run_covered between hfirst
  obtain ⟨hreceived, hverdicted⟩ := run_mono k first between
  unfold Covered at hfirst hsecond
  rw [NFQueue.outstanding_loaded_toNat]
  unfold issued inHand
  change first.queue.received ≤ second.queue.received at hreceived
  change first.queue.verdicted ≤ second.queue.verdicted at hverdicted
  change _ ↔ second.queue.verdicted - first.queue.verdicted ≤ _ ∨
    2 ^ 64 ≤ _ + (second.queue.verdicted - first.queue.verdicted - _)
  generalize first.queue.received = r at *
  generalize first.queue.verdicted = v at *
  generalize second.queue.received = r' at *
  generalize second.queue.verdicted = v' at *
  omega

/-- The packet that comes in after the first load is verdicted before the
second one, and nothing was in hand. -/
theorem the_outstanding_counter_wraps :
    let k : SetVerdict := fun _ _ _ => 0
    let first := run k {} []
    let second := run k first [.receive ⟨some 1, some [0x45]⟩, .submit 0 .ALLOW]
    second.queue.received = 1 ∧ second.queue.verdicted = 1 ∧
    (first.queue.outstanding_loaded second.queue).toNat = 2 ^ 64 - 1 ∧
    ¬ (first.queue.outstanding_loaded second.queue).toNat ≤ second.queue.received := by
  decide

/-- With its loads the other way round `outstanding` never wraps: what was
verdicted first was received by then. -/
theorem loads_the_other_way_stay_below_received (k : SetVerdict) (before between : List AtomicStep) :
    let first := run k {} before
    let second := run k first between
    (second.queue.outstanding_loaded first.queue).toNat ≤ second.queue.received := by
  intro first second
  have hfirst : first.Covered := start_covered k before
  obtain ⟨hreceived, -⟩ := run_mono k first between
  change first.queue.received ≤ second.queue.received at hreceived
  unfold Covered at hfirst
  rw [NFQueue.outstanding_loaded_toNat]
  omega

/-! ## The steps of the worker loop -/

variable {R P : Type} {w : World R P} {wk : Worker R P}

theorem run_append (k : SetVerdict) (s : WorkerThread) (before after : List AtomicStep) :
    s.run k (before ++ after) = (s.run k before).run k after :=
  List.foldl_append

/-- A submit looks at the id of a packet that owes a verdict, and at nothing
else of it. -/
theorem submit_congr (q : NFQueue) (k : SetVerdict) {p p' : Packet} (v : Verdict)
    (hp : p.pending = true) (hp' : p'.pending = true) (htag : p.tag = p'.tag) :
    (q.submit k p v).1 = (q.submit k p' v).1 := by
  have hid : p.id = p'.id := congrArg Prod.fst htag
  unfold NFQueue.submit
  rw [if_neg (by simp [hp]), if_neg (by simp [hp'])]
  simp [Packet.release_bytes, hid]

/-- Some decided packets that are owed are submitted one after the other. -/
theorem run_submits (k : SetVerdict) (ds : List Decided) {rest : List (UInt32 × Bytes)}
    {s : WorkerThread} (hds : ∀ d ∈ ds, d.pkt.pending = true) (hs : ∀ p ∈ s.owed, p.pending = true)
    (hperm : (s.owed.map Packet.tag).Perm (ds.map (·.pkt.tag) ++ rest)) :
    ∃ steps, (s.run k steps).queue =
        ds.foldl (fun q d => (q.submit k d.pkt d.verdict).1) s.queue ∧
      (∀ p ∈ (s.run k steps).owed, p.pending = true) ∧
      ((s.run k steps).owed.map Packet.tag).Perm rest := by
  induction ds generalizing s with
  | nil => exact ⟨[], rfl, hs, hperm⟩
  | cons d ds ih =>
    have hmem : d.pkt.tag ∈ s.owed.map Packet.tag := hperm.mem_iff.mpr (by simp)
    obtain ⟨p, hp, htag⟩ := List.mem_map.mp hmem
    obtain ⟨i, hi, rfl⟩ := List.mem_iff_getElem.mp hp
    have hstep : s.step k (.submit i d.verdict) =
        { queue := (s.queue.submit k d.pkt d.verdict).1, owed := s.owed.eraseIdx i } := by
      rw [← submit_congr s.queue k d.verdict (hs _ hp) (hds d (by simp)) htag]
      simp [step, hi]
    have hrest : ((s.owed.eraseIdx i).map Packet.tag).Perm (ds.map (·.pkt.tag) ++ rest) := by
      have herase := (List.getElem_cons_eraseIdx_perm hi).map Packet.tag
      rw [List.map_cons, htag] at herase
      exact (herase.trans hperm).cons_inv
    obtain ⟨steps, hqueue, hpending, howed⟩ := ih
      (s := { queue := (s.queue.submit k d.pkt d.verdict).1, owed := s.owed.eraseIdx i })
      (fun d' hd' => hds d' (by simp [hd'])) (fun p' hp' => hs p' (List.mem_of_mem_eraseIdx hp'))
      hrest
    refine ⟨.submit i d.verdict :: steps, ?_⟩
    rw [run, List.foldl_cons, hstep]
    exact ⟨hqueue, hpending, howed⟩

/-- The thread has the counters of the worker, and it owes verdicts for the
packets that the worker decided or holds. -/
structure Backs (s : WorkerThread) (wk : Worker R P) : Prop where
  queue : s.queue = wk.queue
  feeding : wk.tls.feeding = false
  pending : ∀ p ∈ s.owed, p.pending = true
  owing : ∃ sent fed, TcpTlsHostnameExtractor.Owing sent fed wk.tls ∧
    (sent ++ s.owed.map Packet.tag).Perm (fed.map Packet.tag)

theorem Backs.handle (w : World R P) (k : SetVerdict) (h : Backs s wk) (now : Time)
    (nfa : NfqData) : ∃ steps, Backs (s.run k steps) (wk.handle w k now nfa) := by
  obtain ⟨sent, fed, howing, hperm⟩ := h.owing
  cases hmode : wk.passthrough with
  | false =>
    rw [Worker.handle_inspecting w k now nfa hmode]
    refine ⟨[.receive nfa], ?_, ?_, ?_, sent, fed ++ [nfa.packet], ?_, ?_⟩
    · simp [run, step, Worker.receive, h.queue]
    · exact TcpTlsHostnameExtractor.apply_feeding (w := w) (.feed now nfa.arrival) h.feeding
    · intro p hp
      rcases List.mem_append.mp hp with hp | hp
      · exact h.pending p hp
      · rw [List.mem_singleton.mp hp]
        exact nfa.packet_pending
    · refine TcpTlsHostnameExtractor.owing_apply (w := w) (.feed now nfa.arrival) ?_ h.feeding howing
      rintro p hp
      cases hp
      exact nfa.packet_pending
    · simpa [run, step] using hperm.append_right [nfa.packet.tag]
  | true =>
    rw [Worker.handle_of_passthrough w k now nfa hmode]
    have hback : (s.owed ++ [nfa.packet]).eraseIdx s.owed.length = s.owed := by
      rw [List.eraseIdx_append_of_length_le (Nat.le_refl _), Nat.sub_self]
      simp
    have hrun : s.run k [.receive nfa, .submit s.owed.length .ALLOW] =
        { queue := (wk.receive.queue.submit k nfa.packet .ALLOW).1, owed := s.owed } := by
      simp [run, step, Worker.receive, h.queue, hback]
    refine ⟨[.receive nfa, .submit s.owed.length .ALLOW], ?_⟩
    rw [hrun]
    exact ⟨rfl, h.feeding, h.pending, sent, fed, howing, hperm⟩

theorem Backs.run_once (w : World R P) (k : SetVerdict) (h : Backs s wk) (ev : NFQueue.Event) :
    ∃ steps, Backs (s.run k steps) (wk.run_once w k ev) := by
  cases ev with
  | Idle => exact ⟨[], h⟩
  | Stop => exact ⟨[], h⟩
  | Error => exact ⟨[], h⟩
  | Packets batch =>
    show ∃ steps, Backs (s.run k steps) (batch.foldl (fun wk x => wk.handle w k x.1 x.2) wk)
    induction batch generalizing s wk with
    | nil => exact ⟨[], h⟩
    | cons x batch ih =>
      obtain ⟨before, hbefore⟩ := h.handle w k x.1 x.2
      obtain ⟨after, hafter⟩ := ih hbefore
      exact ⟨before ++ after, by rw [run_append]; exact hafter⟩

/-- A tick and a flush feed nothing, and no other thread sees a step. -/
theorem Backs.serve (w : World R P) (h : Backs s wk) (op : Op) (hop : op.fed = none) :
    Backs s { wk with tls := op.apply w wk.tls } := by
  obtain ⟨sent, fed, howing, hperm⟩ := h.owing
  have hserved := TcpTlsHostnameExtractor.owing_apply (w := w) op
    (fun p hp => by rw [hop] at hp; cases hp) h.feeding howing
  rw [hop, Option.toList_none, List.append_nil] at hserved
  exact ⟨h.queue, TcpTlsHostnameExtractor.apply_feeding op h.feeding, h.pending, sent, fed, hserved, hperm⟩

theorem Backs.drain_decided (k : SetVerdict) (h : Backs s wk) :
    ∃ steps, Backs (s.run k steps) (wk.drain_decided k) := by
  obtain ⟨sent, fed, howing, hperm⟩ := h.owing
  have howed : (s.owed.map Packet.tag).Perm
      (wk.tls.decided.map (·.pkt.tag) ++ wk.tls.conns.keys.flatMap wk.tls.heldTags) := by
    rw [← List.perm_append_left_iff sent, ← List.append_assoc]
    exact hperm.trans howing.perm.symm
  obtain ⟨steps, hqueue, hpending, hheld⟩ :=
    run_submits k wk.tls.decided howing.pending.decided h.pending howed
  refine ⟨steps, ?_, h.feeding, hpending, _, fed, howing.sends, ?_⟩
  · rw [hqueue, h.queue]
    rfl
  · exact (hheld.append_left _).trans howing.perm

/-- Turn after turn, the worker loop takes steps that another thread can see,
and no others. -/
theorem Backs.loop (w : World R P) (k : SetVerdict) (turns : List (NFQueue.Event × Time)) :
    ∀ {s : WorkerThread} {wk : Worker R P}, Backs s wk →
      ∃ steps, Backs (s.run k steps) (wk.loop w k turns).2 := by
  induction turns with
  | nil => exact fun h => ⟨[], h⟩
  | cons t turns ih =>
    intro s wk h
    obtain ⟨ev, now⟩ := t
    have hend : ∃ steps, Backs (s.run k steps) (wk.finish w k now) :=
      (h.serve w (.flush now) rfl).drain_decided k
    have hturn : ∃ steps, Backs (s.run k steps) ((wk.turn w k ev now).loop w k turns).2 := by
      obtain ⟨fed, hfed⟩ := h.run_once w k ev
      obtain ⟨drained, hdrained⟩ := (hfed.serve w (.tick now) rfl).drain_decided k
      obtain ⟨rest, hrest⟩ := ih hdrained
      exact ⟨fed ++ (drained ++ rest), by rw [run_append, run_append]; exact hrest⟩
    cases ev with
    | Stop => exact hend
    | Error => exact hend
    | Idle => exact hturn
    | Packets batch => exact hturn

theorem backs_start (passthrough : Bool) (r : R) (p : P) (max_flows max_blocked : Nat) :
    Backs {} ({ passthrough := passthrough, tls := .init r p max_flows max_blocked } :
      Worker R P) := by
  refine ⟨rfl, rfl, fun _ hp => (by cases hp), [], [], ⟨?_, ledger.kept_nil, ?_⟩, .refl _⟩
  · intro key c hl
    cases hl
  · refine ⟨fun d hd => ?_, fun key c hl => ?_⟩
    · cases hd
    · cases hl

/-- Every run of the worker loop, in both modes and with any answers of the
kernel, is one of atomic steps, and so is what the loop does from then on. So
whenever a thread loads the counters, it loads those of such a run. -/
theorem the_worker_loop_takes_atomic_steps (w : World R P) (k : SetVerdict) (passthrough : Bool)
    (r : R) (p : P) (max_flows max_blocked : Nat) (turns later : List (NFQueue.Event × Time)) :
    let start : Worker R P :=
      { passthrough := passthrough, tls := .init r p max_flows max_blocked }
    let wk := (start.loop w k turns).2
    ∃ before between, (run k {} before).queue = wk.queue ∧
      (run k (run k {} before) between).queue = (wk.loop w k later).2.queue := by
  intro start wk
  obtain ⟨before, hbefore⟩ :=
    (backs_start passthrough r p max_flows max_blocked).loop w k turns
  obtain ⟨between, hbetween⟩ := hbefore.loop w k later
  exact ⟨before, between, hbefore.queue, hbetween.queue⟩

end WorkerThread

end packet_inspector
