-- What the process has done when main returns: every worker of it ran its
-- loop, the kernel has a verdict for all that was received, the final line
-- adds up, and the exit code says whether something failed.
import PacketInspector.KernelView
import PacketInspector.Returning

open wire packet_inspector.tls runs

namespace packet_inspector

variable {R P : Type}

theorem Config.worker_count_pos (c : Config) : 0 < c.worker_count := by
  unfold worker_count
  split
  · assumption
  · exact Nat.one_pos

/-! ## A loop that goes on -/

namespace Worker

variable {w : World R P} {k : SetVerdict}

/-- A loop that has not ended goes on with one more turn. -/
theorem loop_append (turns : List (NFQueue.Event × Time)) (t : NFQueue.Event × Time) :
    ∀ {wk : Worker R P}, (wk.loop w k turns).1 = false →
      wk.loop w k (turns ++ [t]) = (wk.loop w k turns).2.loop w k [t] ∧
      arrivals (turns ++ [t]) = arrivals turns ++ arrivals [t] := by
  induction turns with
  | nil => exact fun _ => ⟨rfl, rfl⟩
  | cons t' turns ih =>
    intro wk h
    obtain ⟨ev, now⟩ := t'
    cases ev with
    | Stop => cases h
    | Error => cases h
    | Idle => exact @ih (wk.turn w k .Idle now) h
    | Packets batch =>
      obtain ⟨hloop, harrivals⟩ := @ih (wk.turn w k (.Packets batch) now) h
      refine ⟨hloop, ?_⟩
      show NFQueue.Event.received (.Packets batch) ++ arrivals (turns ++ [t]) = _
      rw [harrivals, ← List.append_assoc]
      rfl

theorem loop_single (wk : Worker R P) (ev : NFQueue.Event) (now : Time) :
    wk.loop w k [(ev, now)] =
      (ev.ends, if ev.ends then wk.finish w k now else wk.turn w k ev now) ∧
    arrivals [(ev, now)] = ev.received := by
  cases ev with
  | Stop => exact ⟨rfl, rfl⟩
  | Error => exact ⟨rfl, rfl⟩
  | Idle => exact ⟨rfl, rfl⟩
  | Packets batch => exact ⟨rfl, List.append_nil _⟩

end Worker

open Worker

namespace Process

variable {env : Setting R P} {s s' : Process R P}

/-! ## A worker runs its loop -/

/-- The loop of a worker has ended. -/
def Ended (t : ThreadState) : Bool := t = .ended || t = .joined

/-- The worker is what its loop makes of the one that was built, over the
events that `run_once` came back with. The loop has ended when the thread has,
by its last event, and by an error when the queue has failed. -/
structure Looped (env : Setting R P) (i : Nat) (m : Member R P) : Prop where
  idle : m.thread = .none → m.events = []
  answered : ∃ answers, NFQueue.run_turns env.stop_fd answers = (m.failure, m.events.map Prod.fst)
  loop : (env.build i).worker.loop env.world (env.nfq_set_verdict i) m.events =
    (Ended m.thread, m.worker)
  arrived : m.arrived = arrivals m.events
  going : Ended m.thread = false → ∀ t ∈ m.events, t.1.ends = false
  before : ∀ t ∈ m.events.dropLast, t.1.ends = false
  failed : m.failure.failed = true ↔ ∃ now, m.events.getLast? = some (.Error, now)

/-- A turn of a running worker comes to its end. -/
theorem Looped.heed {i : Nat} {m : Member R P} (h : Looped env i m) (hrunning : m.thread = .running)
    {answer : NFQueue.Failure × NFQueue.Event} {poll : PollAnswer} {recv : RecvAnswer}
    (hanswer : NFQueue.run_once env.stop_fd m.failure poll recv = answer) (now : Time) :
    Looped env i (m.heed env.world (env.nfq_set_verdict i) answer now) := by
  obtain ⟨e, ev⟩ := answer
  have hcomes := NFQueue.run_once_comes env.stop_fd m.failure poll recv
  rw [hanswer] at hcomes
  have hthread : Ended m.thread = false := by
    rw [hrunning]
    rfl
  have hended : Ended (if ev.ends then .ended else m.thread) = ev.ends := by
    cases hends : ev.ends with
    | true => rfl
    | false => exact hthread
  have hhealthy : m.failure.failed = false := by
    by_contra hfailed
    obtain ⟨t, hlast⟩ := h.failed.mp (by simpa using hfailed)
    have hends := h.going hthread _ (List.mem_of_getLast? hlast)
    cases hends
  obtain ⟨hmore, harrivals⟩ := @loop_append R P env.world (env.nfq_set_verdict i) m.events (ev, now)
    (env.build i).worker (by rw [h.loop, hthread])
  obtain ⟨hone, hreceived⟩ := @loop_single R P env.world (env.nfq_set_verdict i) m.worker ev now
  refine ⟨fun hnone => ?_, ?_, ?_, ?_, fun hgoing => ?_, ?_, ?_⟩
  · have hnot : (if ev.ends then ThreadState.ended else m.thread) ≠ .none := by
      rw [hrunning]
      split <;> simp
    exact absurd hnone hnot
  · obtain ⟨answers, hturns⟩ := h.answered
    refine ⟨answers ++ [(poll, recv)], ?_⟩
    rw [NFQueue.run_turns_concat, hturns]
    simp only [hanswer]
    simp [Member.heed]
  · show Worker.loop _ _ _ (m.events ++ [(ev, now)]) = (Ended (if ev.ends then _ else _), _)
    rw [hmore, h.loop, hone, hended]
    rfl
  · show m.arrived ++ ev.received = arrivals (m.events ++ [(ev, now)])
    rw [harrivals, hreceived, h.arrived]
  · have hends : ev.ends = false := hended.symm.trans hgoing
    intro t ht
    rcases List.mem_append.mp ht with ht | ht
    · exact h.going hthread t ht
    · rw [List.mem_singleton.mp ht]
      exact hends
  · show ∀ t ∈ (m.events ++ [(ev, now)]).dropLast, t.1.ends = false
    rw [List.dropLast_concat]
    exact h.going hthread
  · show e.failed = true ↔ ∃ t, (m.events ++ [(ev, now)]).getLast? = some (.Error, t)
    rw [List.getLast?_concat]
    rcases hcomes with ⟨rfl, herror⟩ | ⟨what, -, err, he⟩
    · refine iff_of_false (by simp [hhealthy]) ?_
      rintro ⟨t, hlast⟩
      cases hlast
      exact herror rfl
    · cases he
      exact iff_of_true (m.failure.failed_record_error what err) ⟨now, rfl⟩

/-- A worker ran its loop whatever becomes of its thread and its object after. -/
theorem Looped.same {i : Nat} {m : Member R P} (h : Looped env i m) {t : ThreadState}
    {polled alive : Bool} (hended : Ended t = Ended m.thread) (hidle : t = .none → m.events = []) :
    Looped env i { m with thread := t, polled := polled, alive := alive } where
  idle := hidle
  answered := h.answered
  loop := h.loop.trans (by rw [hended])
  arrived := h.arrived
  going := fun hgoing => h.going (hended.symm.trans hgoing)
  before := h.before
  failed := h.failed

theorem step_looped (hs : Step env s s') (ho : Orderly s)
    (h : ∀ (i : Nat) (m : Member R P), s.members[i]? = some m → Looped env i m) :
    ∀ (i : Nat) (m : Member R P), s'.members[i]? = some m → Looped env i m := by
  intro j x hx
  -- a step that writes one worker
  have hset : ∀ {i : Nat} {m m' : Member R P}, s.members[i]? = some m →
      (s.members.set i m')[j]? = some x → Looped env i m' → Looped env j x := by
    intro i m m' hm hget hl
    grind
  cases hs with
  | built i a hmain hpc hi hok =>
    have hlen := ho.count i hpc
    have hnew : Looped env i (env.build i) :=
      ⟨fun _ => rfl, ⟨[], rfl⟩, rfl, rfl, by simp [Setting.build], by simp [Setting.build],
        by simp [Setting.build, NFQueue.Failure.failed]⟩
    grind
  | started i m rc hmain hpc hm =>
    have hfit := ho.fits i m hm
    rw [hpc] at hfit
    have hnone : m.thread = .none := hfit.2.2 (Nat.le_refl i)
    exact hset hm hx ((h i m hm).same (by rw [hnone]; rfl) (by simp))
  | joined i m hmain hpc hm hended =>
    exact hset hm hx ((h i m hm).same (by rw [hended]; rfl) (by simp))
  | destroyed i m hmain hpc hm hthread =>
    refine hset hm hx ((h i m hm).same ?_ (fun hnone => (h i m hm).idle ?_))
    · cases hat : m.thread <;> simp [Ended]
    · cases hat : m.thread <;> simp_all
  | polled i m answer now hfree hm hrunning =>
    refine hset hm hx ?_
    unfold Member.poll
    split
    · rename_i r hr
      exact (h i m hm).heed hrunning (NFQueue.run_once_of_poll hr .empty) now
    · exact (h i m hm).same rfl (fun hnone => (h i m hm).idle hnone)
  | received i m answer now hfree hm hrunning =>
    exact hset hm hx ((h i m hm).heed hrunning
      (NFQueue.run_once_of_recv (NFQueue.after_poll_ready _ _) answer) now)
  | stopped hmain hpc =>
    unfold on_signal at hx
    split at hx <;> exact h j x hx
  | _ => exact h j x hx

theorem Reachable.looped (h : Reachable env s) :
    ∀ (i : Nat) (m : Member R P), s.members[i]? = some m → Looped env i m :=
  (path_keeps (I := fun x => Orderly x ∧ ∀ (i : Nat) (m : Member R P), x.members[i]? = some m →
      Looped env i m)
    (fun _ _ hs hx => ⟨step_orderly hs hx.1, step_looped hs hx.1 hx.2⟩) h
    ⟨orderly_start, fun i m hm => by simp at hm⟩).2

/-- In every interleaving of the process, each worker is a run of its loop over
the events that `run_once` came back with, for some answers of `poll` and
`recv`: the packets that it received and the verdicts that it gave are what
the loop makes of them. It ends by its last event, when its thread does, and
by an error exactly when its queue has failed. -/
theorem every_worker_runs_its_loop (h : Reachable env s) {i : Nat} {m : Member R P}
    (hm : s.members[i]? = some m) :
    (∃ answers, NFQueue.run_turns env.stop_fd answers = (m.failure, m.events.map Prod.fst)) ∧
    (env.build i).worker.loop env.world (env.nfq_set_verdict i) m.events =
      (Ended m.thread, m.worker) ∧
    m.arrived = arrivals m.events ∧ (m.thread = .none → m.events = []) ∧
    (∀ t ∈ m.events.dropLast, t.1.ends = false) ∧
    (m.failure.failed = true ↔ ∃ now, m.events.getLast? = some (.Error, now)) := by
  have hl := h.looped i m hm
  exact ⟨hl.answered, hl.loop, hl.arrived, hl.idle, hl.before, hl.failed⟩

open traffic in
/-- One worker that drops the flows of one host. -/
def oneWorker : Setting (List traffic.Link) Unit where
  cfg := { jobs := 1, max_blocked_flows := 1 }
  stop_fd := 3
  world := world { exact := [host] }
  reassembly := []
  policy := ()
  nfq_set_verdict := fun _ _ _ _ => 0
  strerror := fun _ => []

open traffic in
/-- A hello comes in, then a signal, and main returns. -/
theorem a_worker_is_stopped : ∃ s m, Reachable oneWorker s ∧ s.pc = .returned ∧
    s.thrown = false ∧ s.members[0]? = some m ∧ m.thread = .joined ∧ s.rc = 0 ∧
    m.arrived.map (·.id) = [1, 2] := by
  have hunwritten : (PollAnswer.ready 1 0).Honest false := by simp [PollAnswer.Honest]
  have hwritten : (PollAnswer.ready 1 1).Honest true := by simp [PollAnswer.Honest]
  have hfree : ∀ t : Thread, t ∉ ([] : List Thread) := by simp
  have h1 : Reachable oneWorker _ := .tail .refl (.built {} 0 {} (hfree _) rfl (by decide) rfl)
  have h2 : Reachable oneWorker _ := h1.tail (.installed _ (hfree _) rfl)
  have h3 : Reachable oneWorker _ := h2.tail (.started _ 0 _ 0 (hfree _) rfl rfl)
  have hpoll : Reachable oneWorker _ :=
    h3.tail (.polled _ 0 _ (.ready 1 0) 0 (hfree _) rfl rfl rfl hunwritten)
  have h4 : Reachable oneWorker _ := hpoll.tail (.received _ 0 _ (.buffer [
      (0, ⟨some 1, some (syn (client 2) 1).val.bytes⟩),
      (0, ⟨some 2, some (hello (client 2) 2).val.bytes⟩)]) 0 (hfree _) rfl rfl rfl)
  have h5 : Reachable oneWorker _ := h4.tail (.allStarted _ (hfree _) rfl)
  have h6 : Reachable oneWorker _ := h5.tail (.unreported _ (hfree _) rfl rfl)
  have h7 : Reachable oneWorker _ := h6.tail (.signalled _ .main rfl (by simp [Live]) rfl)
  have h8 : Reachable oneWorker _ := h7.tail (.handled _ .main (by simp))
  have h9 : Reachable oneWorker _ :=
    h8.tail (.polled _ 0 _ (.ready 1 1) 0 (hfree _) rfl rfl rfl hwritten)
  have h10 : Reachable oneWorker _ := h9.tail (.joined _ 0 _ (hfree _) rfl rfl rfl)
  have h11 : Reachable oneWorker _ := h10.tail (.allJoined _ (hfree _) rfl)
  have h12 : Reachable oneWorker _ := h11.tail (.noStats _ (hfree _) rfl rfl)
  have h13 : Reachable oneWorker _ := h12.tail (.judged _ (hfree _) rfl)
  have h14 : Reachable oneWorker _ := h13.tail (.stopped _ (hfree _) rfl)
  have h15 : Reachable oneWorker _ := h14.tail (.destroyed _ 0 _ (hfree _) rfl rfl (by simp))
  have h16 : Reachable oneWorker _ := h15.tail (.allDestroyed _ (hfree _) rfl)
  have h17 : Reachable oneWorker _ := h16.tail (.unset _ (hfree _) rfl)
  have h18 : Reachable oneWorker _ := h17.tail (.closed _ (hfree _) rfl)
  exact ⟨_, _, h18, rfl, rfl, rfl, rfl, rfl, rfl⟩

theorem a_stopped_worker_ran_its_loop : ∃ m : Member (List traffic.Link) Unit,
    (oneWorker.build 0).worker.loop oneWorker.world (oneWorker.nfq_set_verdict 0) m.events =
      (true, m.worker) ∧ (arrivals m.events).map (·.id) = [1, 2] := by
  obtain ⟨s, m, hs, -, -, hm, hthread, -, hids⟩ := a_worker_is_stopped
  obtain ⟨-, hloop, harrived, -⟩ := every_worker_runs_its_loop hs hm
  rw [hthread] at hloop
  exact ⟨m, hloop, harrived ▸ hids⟩

/-! ## What the kernel was told -/

theorem Reachable.settled (h : Reachable env s) (hk : ∀ i log id v, env.nfq_set_verdict i log id v ≥ 0)
    {i : Nat} {m : Member R P} (hm : s.members[i]? = some m) :
    Settled (env.build i).worker.passthrough m.arrived m.worker ∧
    (m.thread ≠ .running → m.worker.tls.conns = ∅) := by
  obtain ⟨hidle, -, hloop, harrived, -⟩ := h.looped i m hm
  have hstart : Settled (env.build i).worker.passthrough [] (env.build i).worker :=
    constructed_settled _ _ _ _ _
  obtain ⟨hsettled, hended⟩ := settled_loop env.world (hk i) m.events _ _ hstart
  rw [hloop, List.nil_append, ← harrived] at hsettled
  rw [hloop] at hended
  refine ⟨hsettled, fun hthread => ?_⟩
  cases hat : m.thread with
  | running => exact absurd hat hthread
  | none =>
    rw [hidle hat] at hloop
    have hworker : (env.build i).worker = m.worker := (Prod.mk.inj hloop).2
    rw [← hworker]
    rfl
  | ended => exact hended (by simp [Ended, hat])
  | joined => exact hended (by simp [Ended, hat])

/-- A worker that does not run owes nothing to what it received. -/
theorem Reachable.answered (h : Reachable env s) (hk : ∀ i log id v, env.nfq_set_verdict i log id v ≥ 0)
    {i : Nat} {m : Member R P} (hm : s.members[i]? = some m) (hthread : m.thread ≠ .running) :
    (m.worker.queue.verdicts.map (·.1)).Perm (m.arrived.map (·.id)) ∧
    m.worker.queue.received = m.arrived.length ∧ m.worker.queue.verdicted = m.arrived.length ∧
    m.worker.queue.undecided = 0 := by
  obtain ⟨hsettled, hconns⟩ := h.settled hk hm
  have hperm := hsettled.perm
  rw [hconns hthread, AList.keys_empty, List.flatMap_nil, List.map_nil, List.append_nil] at hperm
  have hlength := hperm.length_eq
  rw [List.length_map, List.length_map] at hlength
  obtain ⟨-, sent, hbooks⟩ := hsettled
  exact ⟨hperm, hbooks.received, hbooks.verdicted.trans hlength, hbooks.undecided⟩

theorem Orderly.not_running (ho : Orderly s) (hpc : s.pc = .returned) {i : Nat} {m : Member R P}
    (hm : s.members[i]? = some m) : m.thread ≠ .running :=
  fun hrunning => ((ho.fits i m hm).of_started (.inl hrunning)).2 hpc

/-- When main has returned, by whatever way, and no feed has thrown, the kernel
has exactly one verdict for each packet that any worker received, the counters
agree on how many, and no packet was left to the fail-safe. -/
theorem every_packet_is_answered_before_main_returns (h : Reachable env s) (hpc : s.pc = .returned)
    (hk : ∀ i log id v, env.nfq_set_verdict i log id v ≥ 0) :
    ∀ m ∈ s.members, (m.worker.queue.verdicts.map (·.1)).Perm (m.arrived.map (·.id)) ∧
      m.worker.queue.received = m.arrived.length ∧
      m.worker.queue.verdicted = m.worker.queue.received ∧
      m.worker.queue.outstanding = 0 ∧ m.worker.queue.undecided = 0 := by
  intro m hm
  obtain ⟨i, hi⟩ := List.mem_iff_getElem?.mp hm
  obtain ⟨hperm, hreceived, hverdicted, hundecided⟩ :=
    h.answered hk hi (h.orderly.not_running hpc hi)
  have hall : m.worker.queue.received = m.worker.queue.verdicted + 0 := by omega
  exact ⟨hperm, hreceived, by omega, Worker.outstanding_of_received hall, hundecided⟩

theorem a_stopped_worker_has_answered : ∃ s m, Reachable oneWorker s ∧ m ∈ s.members ∧
    (m.worker.queue.verdicts.map (·.1)).Perm [1, 2] := by
  obtain ⟨s, m, hs, hpc, -, hm, -, -, hids⟩ := a_worker_is_stopped
  have hmem := List.mem_of_getElem? hm
  refine ⟨s, m, hs, hmem, hids ▸ ?_⟩
  exact (every_packet_is_answered_before_main_returns hs hpc
    (fun _ _ _ _ => Int.le_refl 0) m hmem).1

/-! ## What main reports -/

/-- Main has judged the run, or something was thrown. -/
def Late (pc : At) : Prop := pc = .stopping ∨ pc.Winding

/-- The queue of a worker has failed. -/
def Failing (s : Process R P) : Prop :=
  ∃ (i : Nat) (m : Member R P), s.members[i]? = some m ∧ m.failure.failed = true

structure Reported (env : Setting R P) (s : Process R P) : Prop where
  fewer : ∀ i, s.pc = .building i → i ≤ env.cfg.worker_count
  all : s.thrown = false → (∀ i, s.pc ≠ .building i) → s.members.length = env.cfg.worker_count
  late : s.thrown = true → Late s.pc
  joined : s.thrown = false → Late s.pc →
    ∀ (i : Nat) (m : Member R P), s.members[i]? = some m → m.thread = .joined
  line : s.thrown = false → Late s.pc → (ascii "final: " ++ Member.stats_line s.members) ∈ s.stderr
  code : s.thrown = false → s.rc = 0 ∨ (s.rc = 1 ∧ Late s.pc ∧ s.Failing)
  faulty : s.thrown = true ∨ (Late s.pc ∧ s.Failing) → s.rc = 1
  heeded : ∀ (i : Nat) (m : Member R P), s.members[i]? = some m → Ended m.thread = true →
    m.failure.failed = true ∨ 0 < s.stop_counter
  asked : s.thrown = false → s.pc.Winding → s.Failing ∨ 2 ≤ s.stop_counter

theorem reported_start : Reported env ({} : Process R P) where
  fewer := fun i hi => by cases hi; exact Nat.zero_le _
  all := fun _ h => absurd rfl (h 0)
  late := by simp
  joined := fun _ _ i m hm => by simp at hm
  line := fun _ h => by rcases h with h | h <;> cases h
  code := fun _ => .inl rfl
  faulty := fun h => by rcases h with h | ⟨h | h, -⟩ <;> cases h
  heeded := fun i m hm => by simp at hm
  asked := fun _ h => by cases h

theorem two_le_eventfd_write {counter : Nat} (h : 0 < counter) : 2 ≤ eventfd_write counter := by
  unfold eventfd_write kEventfdMax
  split <;> omega

section Reported

attribute [local grind] catching writeStop on_signal setMember Late At.Winding

theorem step_fewer (hs : Step env s s') (h : Reported env s) :
    ∀ i, s'.pc = .building i → i ≤ env.cfg.worker_count := by
  have hfewer := h.fewer
  cases hs <;> grind

theorem step_all (hs : Step env s s') (ho : Orderly s) (h : Reported env s) :
    s'.thrown = false → (∀ i, s'.pc ≠ .building i) → s'.members.length = env.cfg.worker_count := by
  have hall := h.all
  have hcount := ho.count
  cases hs <;> grind

theorem step_late (hs : Step env s s') (h : Reported env s) : s'.thrown = true → Late s'.pc := by
  have hlate := h.late
  cases hs <;> grind

theorem step_joined (hs : Step env s s') (ho : Orderly s) (h : Reported env s) :
    s'.thrown = false → Late s'.pc →
      ∀ (i : Nat) (m : Member R P), s'.members[i]? = some m → m.thread = .joined := by
  have hjoined := h.joined
  have hfits := ho.fits
  cases hs <;> grind [Fits]

/-- The line reads the workers alone. -/
theorem stats_line_set {l : List (Member R P)} {i : Nat} {m m' : Member R P} (hm : l[i]? = some m)
    (hworker : m'.worker = m.worker) : Member.stats_line (l.set i m') = Member.stats_line l := by
  have hsame : ∀ {α : Type} (f : Worker R P → α),
      (l.set i m').map (fun m => f m.worker) = l.map (fun m => f m.worker) := by
    intro α f
    rw [List.map_set, hworker]
    exact list_set_self (by simp [hm])
  unfold Member.stats_line Member.loads Member.outstanding
  simp only [hsame (fun wk => UInt64.ofNat wk.queue.received),
    hsame (fun wk => UInt64.ofNat wk.queue.verdicted), hsame (fun wk => UInt64.ofNat wk.tls.flows),
    hsame (fun wk => UInt64.ofNat wk.tls.blocked), hsame (fun wk => UInt64.ofNat wk.tls.dropped_at_cap),
    hsame (fun wk => UInt64.ofNat wk.queue.undecided),
    hsame (fun wk => wk.queue.outstanding_loaded wk.queue)]

theorem step_line (hs : Step env s s') (h : Reported env s) : s'.thrown = false → Late s'.pc →
    (ascii "final: " ++ Member.stats_line s'.members) ∈ s'.stderr := by
  have hline := h.line
  have hjoined := h.joined
  cases hs with
  | destroyed i m hmain hpc hm hthread =>
    have hsame := @stats_line_set _ _ s.members i m { m with
      alive := false
      thread := if m.thread = .ended then .joined else m.thread } hm rfl
    grind
  | _ => grind

/-- A queue that has failed stays so. -/
theorem step_failed (hs : Step env s s') {i : Nat} {m : Member R P} (hm : s.members[i]? = some m)
    (hfailed : m.failure.failed = true) :
    ∃ m', s'.members[i]? = some m' ∧ m'.failure.failed = true := by
  cases hs with
  | polled j x answer now hfree hx hrunning =>
    have hgoes := (x.poll_goes env.world (env.nfq_set_verdict j) env.stop_fd answer now).failure
    grind
  | received j x answer now hfree hx hrunning =>
    have hgoes := (x.recv_goes env.world (env.nfq_set_verdict j) answer now).failure
    grind
  | _ => grind

theorem step_failing (hs : Step env s s') (h : s.Failing) : s'.Failing := by
  obtain ⟨i, m, hm, hfailed⟩ := h
  exact ⟨i, step_failed hs hm hfailed⟩

/-- What was thrown is not forgotten. -/
theorem step_thrown (hs : Step env s s') (h : s.thrown = true) : s'.thrown = true := by
  cases hs with
  | stopped =>
    unfold on_signal
    split <;> exact h
  | _ => first | exact h | rfl

theorem step_code (hs : Step env s s') (h : Reported env s) :
    s'.thrown = false → s'.rc = 0 ∨ (s'.rc = 1 ∧ Late s'.pc ∧ s'.Failing) := by
  have hcode := h.code
  have hfailing := step_failing hs
  cases hs <;> grind [List.any_eq_true, List.mem_iff_getElem?, Failing]

/-- A thread ends by a failure, or because its loop is stopped. -/
theorem ended_heed {m : Member R P} {answer : NFQueue.Failure × NFQueue.Event}
    (hcomes : NFQueue.Comes m.failure answer) (w : World R P) (k : SetVerdict) (now : Time)
    (hrunning : m.thread = .running) (hended : Ended (m.heed w k answer now).thread = true) :
    answer.1.failed = true ∨ answer.2 = .Stop := by
  obtain ⟨e, ev⟩ := answer
  change Ended (if ev.ends then .ended else m.thread) = true at hended
  rcases hcomes with ⟨-, herror⟩ | ⟨what, -, err, he⟩
  · cases ev with
    | Stop => exact .inr rfl
    | Error => exact absurd rfl herror
    | Idle => simp [NFQueue.Event.ends, hrunning, Ended] at hended
    | Packets batch => simp [NFQueue.Event.ends, hrunning, Ended] at hended
  · cases he
    exact .inl (m.failure.failed_record_error what err)

/-- A `poll` ends the thread by a failure, or on a written stop fd. -/
theorem ended_poll {m : Member R P} {answer : PollAnswer} {readable : Bool}
    (hhonest : answer.Honest readable) (w : World R P) (k : SetVerdict) (stop_fd : Int) (now : Time)
    (hrunning : m.thread = .running)
    (hended : Ended (m.poll w k stop_fd answer now).thread = true) :
    (m.poll w k stop_fd answer now).failure.failed = true ∨ readable = true := by
  unfold Member.poll at hended ⊢
  split at hended
  · rename_i r hr
    obtain ⟨hcomes, -, hstop⟩ := NFQueue.after_poll_comes hr
    refine (ended_heed hcomes w k now hrunning hended).imp id (fun hstopped => ?_)
    obtain ⟨revents, stop_revents, rfl, hne⟩ := hstop hstopped
    exact hhonest.mp hne
  · simp [hrunning, Ended] at hended

/-- A `recv` ends the thread only by a failure. -/
theorem ended_recv {m : Member R P} (w : World R P) (k : SetVerdict) (answer : RecvAnswer)
    (now : Time) (hrunning : m.thread = .running)
    (hended : Ended (m.recv w k answer now).thread = true) :
    (m.recv w k answer now).failure.failed = true :=
  (ended_heed (NFQueue.after_recv_comes m.failure answer) w k now hrunning hended).resolve_right
    (NFQueue.after_recv_ne_stop m.failure answer)

theorem step_heeded (hs : Step env s s') (h : Reported env s) :
    ∀ (i : Nat) (m : Member R P), s'.members[i]? = some m → Ended m.thread = true →
      m.failure.failed = true ∨ 0 < s'.stop_counter := by
  have hheeded := h.heeded
  have hle := eventfd_write_le s.stop_counter
  cases hs with
  | polled i m answer now hfree hm hrunning hfresh hhonest =>
    have hended := @ended_poll _ _ m _ _ hhonest env.world (env.nfq_set_verdict i) env.stop_fd now
      hrunning
    grind
  | received i m answer now hfree hm hrunning =>
    have hended := @ended_recv _ _ m env.world (env.nfq_set_verdict i) answer now hrunning
    grind
  | _ => grind [Ended, Setting.build]

theorem step_faulty (hs : Step env s s') (h : Reported env s) :
    s'.thrown = true ∨ (Late s'.pc ∧ s'.Failing) → s'.rc = 1 := by
  have hfaulty := h.faulty
  have hlate := h.late
  have hjoined := h.joined
  cases hs with
  | polled => grind
  | received => grind
  | _ => grind [List.any_eq_true, List.mem_iff_getElem?, Failing]

/-- When nothing was thrown and no queue has failed, the stop fd is written
before main comes to write it: a worker has ended on it. -/
theorem Reported.written (hr : Reported env s) (hpc : s.pc = .stopping) (hthrown : s.thrown = false)
    (hfine : ¬ s.Failing) : 0 < s.stop_counter := by
  have hlength := hr.all hthrown (by simp [hpc])
  have hpos : 0 < s.members.length := by
    rw [hlength]
    exact env.cfg.worker_count_pos
  have hm := List.getElem?_eq_getElem hpos
  have hjoined := hr.joined hthrown (.inl hpc) 0 _ hm
  refine (hr.heeded 0 _ hm (by simp [Ended, hjoined])).resolve_left (fun hfailed => ?_)
  exact hfine ⟨0, _, hm, hfailed⟩

/-- A worker ends without a failure only on a written stop fd, so main's own
write is not the first one. -/
theorem step_twice (hs : Step env s s') (ho : Orderly s) (h : Reported env s) :
    s'.thrown = false → s'.pc.Winding → s'.Failing ∨ 2 ≤ s'.stop_counter := by
  have hasked := h.asked
  have hfailing := step_failing hs
  have hle := eventfd_write_le s.stop_counter
  cases hs with
  | stopped hmain hpc =>
    intro hthrown hwinding
    have hg : s.g_stop_fd = true := ho.known.mpr (by simp [hpc])
    simp only [on_signal, hg, if_true, writeStop] at hthrown ⊢
    by_cases hfailing : s.Failing
    · exact .inl hfailing
    · exact .inr (two_le_eventfd_write (h.written hpc hthrown hfailing))
  | _ => grind

theorem step_reported (hs : Step env s s') (ho : Orderly s) (h : Reported env s) :
    Reported env s' where
  fewer := step_fewer hs h
  all := step_all hs ho h
  late := step_late hs h
  joined := step_joined hs ho h
  line := step_line hs h
  code := step_code hs h
  faulty := step_faulty hs h
  heeded := step_heeded hs h
  asked := step_twice hs ho h

end Reported

theorem Reachable.reported (h : Reachable env s) : Reported env s :=
  (path_keeps (I := fun x => Orderly x ∧ Reported env x)
    (fun _ _ hs hx => ⟨step_orderly hs hx.1, step_reported hs hx.1 hx.2⟩) h
    ⟨orderly_start, reported_start⟩).2

/-- The exit code is 0 or 1, and 0 exactly when nothing was thrown in main and
no queue failed. Then all workers had been built, and the stop fd was already
written when main came to write it. -/
theorem the_exit_code_tells_of_failures (h : Reachable env s) (hpc : s.pc = .returned) :
    (s.rc = 0 ∨ s.rc = 1) ∧
    (s.rc = 0 ↔ s.thrown = false ∧ ∀ m ∈ s.members, m.failure.failed = false) ∧
    (s.rc = 0 → s.members.length = env.cfg.worker_count ∧ 2 ≤ s.stop_counter ∧
      ∀ x, Reachable env x → x.pc = .stopping → Relation.ReflTransGen (Step env) x s →
        0 < x.stop_counter) := by
  have hr := h.reported
  have hwinding : s.pc.Winding := by
    rw [hpc]
    trivial
  have hlate : Late s.pc := .inr hwinding
  have hfine : s.rc = 0 → s.thrown = false ∧ ¬ s.Failing := by
    intro hrc
    have hnot : ¬ (s.thrown = true ∨ (Late s.pc ∧ s.Failing)) := by
      intro hfaulty
      have hone := hr.faulty hfaulty
      omega
    exact ⟨by simpa using fun ht => hnot (.inl ht), fun hf => hnot (.inr ⟨hlate, hf⟩)⟩
  have hcode : s.thrown = false → s.rc = 0 ∨ s.rc = 1 := fun ht =>
    (hr.code ht).imp_right (fun hone => hone.1)
  refine ⟨?_, ⟨?_, ?_⟩, ?_⟩
  · cases hthrown : s.thrown with
    | true => exact .inr (hr.faulty (.inl hthrown))
    | false => exact hcode hthrown
  · intro hrc
    obtain ⟨hthrown, hnone⟩ := hfine hrc
    refine ⟨hthrown, fun m hm => ?_⟩
    obtain ⟨i, hi⟩ := List.mem_iff_getElem?.mp hm
    simpa using fun hfailed => hnone ⟨i, m, hi, hfailed⟩
  · rintro ⟨hthrown, hall⟩
    refine (hr.code hthrown).resolve_right ?_
    rintro ⟨-, -, i, m, hm, hfailed⟩
    rw [hall m (List.mem_of_getElem? hm)] at hfailed
    cases hfailed
  · intro hrc
    obtain ⟨hthrown, hnone⟩ := hfine hrc
    refine ⟨hr.all hthrown (by simp [hpc]), (hr.asked hthrown hwinding).resolve_left hnone,
      fun x hx hstopping hpath => hx.reported.written hstopping ?_ (fun hfailing => hnone ?_)⟩
    · -- neither a throw nor a failure before is forgotten
      by_contra hearly
      have hkept := path_keeps (I := fun y => y.thrown = true) (fun _ _ hs => step_thrown hs) hpath
        (by simpa using hearly)
      rw [hthrown] at hkept
      cases hkept
    · exact path_keeps (I := Failing) (fun _ _ hs => step_failing hs) hpath hfailing

theorem a_stopped_process_exits_with_0 : ∃ s, Reachable oneWorker s ∧ s.pc = .returned ∧
    s.rc = 0 ∧ s.members.length = 1 ∧ ∀ x, Reachable oneWorker x → x.pc = .stopping →
      Relation.ReflTransGen (Step oneWorker) x s → 0 < x.stop_counter := by
  obtain ⟨s, m, hs, hpc, -, -, -, hrc, -⟩ := a_worker_is_stopped
  obtain ⟨hlength, -, hbefore⟩ := (the_exit_code_tells_of_failures hs hpc).2.2 hrc
  exact ⟨s, hs, hpc, hrc, hlength, hbefore⟩

/-! ## The final line -/

theorem loads_eq (f : Member R P → Nat) (workers : List (Member R P)) :
    (Member.loads f workers).toNat = (workers.map f).sum % 2 ^ 64 := by
  have hsum : Member.loads f workers = UInt64.ofNat (workers.map f).sum := by
    unfold Member.loads
    induction workers with
    | nil => rfl
    | cons m workers ih =>
      rw [List.map_cons, List.sum_cons, ih, List.map_cons, List.sum_cons, UInt64.ofNat_add]
  rw [hsum, UInt64.toNat_ofNat']

theorem loads_congr {f g : Member R P → Nat} {workers : List (Member R P)}
    (h : ∀ m ∈ workers, f m = g m) :
    (Member.loads f workers).toNat = (workers.map g).sum % 2 ^ 64 := by
  rw [loads_eq, List.map_congr_left h]

theorem loads_zero {f : Member R P → Nat} {workers : List (Member R P)}
    (h : ∀ m ∈ workers, f m = 0) : (Member.loads f workers).toNat = 0 := by
  rw [loads_congr h]
  simp

theorem outstanding_zero {workers : List (Member R P)}
    (h : ∀ m ∈ workers, m.worker.queue.received = m.worker.queue.verdicted) :
    (Member.outstanding workers).toNat = 0 := by
  have hzero : ∀ m ∈ workers, m.worker.queue.outstanding_loaded m.worker.queue = 0 := by
    intro m hm
    unfold NFQueue.outstanding_loaded NFQueue.packets_received NFQueue.verdicts_issued
    rw [h m hm]
    exact UInt64.sub_self _
  unfold Member.outstanding
  rw [List.map_congr_left hzero]
  simp

/-- The gauge of tracked flows is the size of the table, so a worker that has
ended tracks none. -/
theorem Reachable.flows (h : Reachable env s) {i : Nat} {m : Member R P}
    (hm : s.members[i]? = some m) : m.worker.tls.flows = m.worker.tls.conns.size := by
  have hloop := (h.looped i m hm).loop
  have hkeeps := @loop_keeps R P env.world (env.nfq_set_verdict i)
    (fun x => x.flows = x.conns.size) (fun op x hx => TcpTlsHostnameExtractor.apply_flows op hx)
    (fun x hx => hx) m.events (env.build i).worker rfl
  rw [hloop] at hkeeps
  exact hkeeps

/-- The final line adds up: unless something was thrown, main prints that all
workers together have as many verdicts as packets received, that nothing is
outstanding, no flow is tracked, and no packet was left to the fail-safe. -/
theorem the_final_line_adds_up (h : Reachable env s) (hpc : s.pc = .returned)
    (hthrown : s.thrown = false) (hk : ∀ i log id v, env.nfq_set_verdict i log id v ≥ 0) :
    let received := decimal ((s.members.map (fun m => m.arrived.length)).sum % 2 ^ 64)
    ∃ blocked dropped : Nat, ascii "final: " ++ (ascii "rx=" ++ received ++ ascii " verdicts=" ++
      received ++ ascii " outstanding=" ++ decimal 0 ++ ascii " flows=" ++ decimal 0 ++
      ascii " blocked=" ++ decimal blocked ++ ascii " dropped_at_cap=" ++ decimal dropped ++
      ascii " undecided=" ++ decimal 0) ∈ s.stderr := by
  have hline := h.reported.line hthrown (.inr (by rw [hpc]; trivial))
  have hall : ∀ m ∈ s.members, m.worker.queue.received = m.arrived.length ∧
      m.worker.queue.verdicted = m.arrived.length ∧ m.worker.queue.undecided = 0 ∧
      m.worker.tls.flows = 0 := by
    intro m hm
    obtain ⟨i, hi⟩ := List.mem_iff_getElem?.mp hm
    have hthread := h.orderly.not_running hpc hi
    obtain ⟨-, hreceived, hverdicted, hundecided⟩ := h.answered hk hi hthread
    refine ⟨hreceived, hverdicted, hundecided, ?_⟩
    rw [h.flows hi, (h.settled hk hi).2 hthread]
    rfl
  unfold Member.stats_line at hline
  rw [loads_congr (fun m hm => (hall m hm).1), loads_congr (fun m hm => (hall m hm).2.1),
    loads_zero (fun m hm => (hall m hm).2.2.1), loads_zero (fun m hm => (hall m hm).2.2.2),
    outstanding_zero (fun m hm => (hall m hm).1.trans (hall m hm).2.1.symm)] at hline
  exact ⟨_, _, hline⟩

theorem a_stopped_process_prints_its_line : ∃ s, Reachable oneWorker s ∧
    ∃ line ∈ s.stderr, ascii "final: " <+: line := by
  obtain ⟨s, m, hs, hpc, hthrown, -⟩ := a_worker_is_stopped
  obtain ⟨blocked, dropped, hline⟩ := the_final_line_adds_up hs hpc hthrown
    (fun _ _ _ _ => Int.le_refl 0)
  exact ⟨s, hs, _, hline, List.prefix_append _ _⟩

end Process

end packet_inspector
