-- `main.cpp` as a system of threads: main builds the workers, starts, joins
-- and destroys them; the workers poll and receive; a thread prints counters;
-- and signals write the stop fd. A step is one thread's, in any interleaving.
-- Main may throw; on the threads of the workers nothing is thrown here. What a
-- feed that throws does is in `Losses.lean`.
import PacketInspector.Outstanding
import PacketInspector.Polling
import PacketInspector.Setup

open wire resources

namespace packet_inspector

variable {R P : Type}

/-! ## The workers of main -/

/-- The events that end the loop of a worker. -/
def NFQueue.Event.ends : NFQueue.Event → Bool
  | .Stop => true
  | .Error => true
  | _ => false

/-- How far a `std::thread` is: none, running, ended but not joined, joined. -/
inductive ThreadState where
  | none
  | running
  | ended
  | joined
  deriving DecidableEq

/-- A worker object. It is `polled` while its thread is past a `poll` that
found packets and has not called `recv`. `events` is what `run_once` came back
with so far, and `arrived` what the queue received, which the code does not
keep. A destroyed object is no longer alive. -/
structure Member (R P : Type) where
  args : WorkerArgs
  worker : Worker R P
  failure : NFQueue.Failure := {}
  thread : ThreadState := .none
  polled : Bool := false
  alive : Bool := true
  events : List (NFQueue.Event × Time) := []
  arrived : List Packet := []

/-- What the process runs on: its configuration, the stop fd that `eventfd`
gave, the world of its extractors, and the answers of the kernel to the
verdicts of each queue. -/
structure Setting (R P : Type) where
  cfg : Config
  stop_fd : Nat
  world : World R P
  reassembly : R
  policy : P
  nfq_set_verdict : Nat → SetVerdict
  strerror : Nat → Bytes

def decimal (n : Nat) : Bytes := ascii (toString n)

namespace Member

/-- The counters that others read: a 64-bit load each. -/
def loads (f : Member R P → Nat) (workers : List (Member R P)) : UInt64 :=
  (workers.map (fun m => UInt64.ofNat (f m))).sum

def outstanding (workers : List (Member R P)) : UInt64 :=
  (workers.map (fun m => m.worker.queue.outstanding_loaded m.worker.queue)).sum

/-- One line of counters, summed across workers. -/
def stats_line (workers : List (Member R P)) : Bytes :=
  ascii "rx=" ++ decimal (loads (fun m => m.worker.queue.received) workers).toNat ++
  ascii " verdicts=" ++ decimal (loads (fun m => m.worker.queue.verdicted) workers).toNat ++
  ascii " outstanding=" ++ decimal (outstanding workers).toNat ++
  ascii " flows=" ++ decimal (loads (fun m => m.worker.tls.flows) workers).toNat ++
  ascii " blocked=" ++ decimal (loads (fun m => m.worker.tls.blocked) workers).toNat ++
  ascii " dropped_at_cap=" ++ decimal (loads (fun m => m.worker.tls.dropped_at_cap) workers).toNat ++
  ascii " undecided=" ++ decimal (loads (fun m => m.worker.queue.undecided) workers).toNat

/-- The lines about one worker at the end: what was left to the fail-safe,
and why its queue failed. -/
def verdictLines (strerror : Nat → Bytes) (m : Member R P) : List Bytes :=
  let undecided := UInt64.ofNat m.worker.queue.undecided
  (if undecided ≠ 0 then
    [ascii "warning: worker " ++ ascii (toString m.args.id) ++ ascii " had " ++
      decimal undecided.toNat ++
      ascii " packet(s) reach the end of the callback undecided; they were allowed"]
  else []) ++
  (if m.failure.failed then
    [ascii "fatal: worker " ++ ascii (toString m.args.id) ++ ascii " (queue " ++
      decimal m.args.queue_num.toNat ++ ascii "): " ++ m.failure.error strerror]
  else [])

/-- The loop of a running worker with what `run_once` came back with. An event
that ends the loop leaves its thread ended. -/
def heed (w : World R P) (k : SetVerdict) (answer : NFQueue.Failure × NFQueue.Event) (now : Time)
    (m : Member R P) : Member R P :=
  let (failure, ev) := answer
  { m with
    failure := failure
    polled := false
    events := m.events ++ [(ev, now)]
    arrived := m.arrived ++ ev.received
    worker := if ev.ends then m.worker.finish w k now else m.worker.turn w k ev now
    thread := if ev.ends then .ended else m.thread }

/-- `poll` comes back: the turn ends here, or the worker goes on to `recv`. -/
def poll (w : World R P) (k : SetVerdict) (stop_fd : Int) (answer : PollAnswer) (now : Time)
    (m : Member R P) : Member R P :=
  match NFQueue.after_poll stop_fd m.failure answer with
  | some answer => m.heed w k answer now
  | none => { m with polled := true }

/-- `recv` comes back, and the packets in the buffer are handled. -/
def recv (w : World R P) (k : SetVerdict) (answer : RecvAnswer) (now : Time) (m : Member R P) :
    Member R P :=
  m.heed w k (NFQueue.after_recv m.failure answer) now

/-- What its own thread may do to a worker: the thread goes on or ends, and
the queue stays as it is or fails. -/
structure Goes (m m' : Member R P) : Prop where
  alive : m'.alive = m.alive
  thread : m'.thread = m.thread ∨ m'.thread = .ended
  failure : m'.failure = m.failure ∨ m'.failure.failed = true

theorem heed_goes (w : World R P) (k : SetVerdict) {answer : NFQueue.Failure × NFQueue.Event}
    (now : Time) {m : Member R P} (h : NFQueue.Comes m.failure answer) :
    Goes m (m.heed w k answer now) where
  alive := rfl
  thread := by
    show (if answer.2.ends then ThreadState.ended else m.thread) = m.thread ∨ _
    split
    · exact .inr (if_pos ‹_›)
    · exact .inl rfl
  failure := by
    rcases h with ⟨hsame, -⟩ | ⟨what, -, err, rfl⟩
    · exact .inl hsame
    · exact .inr (m.failure.failed_record_error what err)

theorem poll_goes (w : World R P) (k : SetVerdict) (stop_fd : Int) (answer : PollAnswer)
    (now : Time) (m : Member R P) : Goes m (m.poll w k stop_fd answer now) := by
  unfold poll
  cases h : NFQueue.after_poll stop_fd m.failure answer with
  | none => exact ⟨rfl, .inl rfl, .inl rfl⟩
  | some answer => exact heed_goes w k now (NFQueue.after_poll_comes h).1

theorem recv_goes (w : World R P) (k : SetVerdict) (answer : RecvAnswer) (now : Time)
    (m : Member R P) : Goes m (m.recv w k answer now) :=
  heed_goes w k now (NFQueue.after_recv_comes m.failure answer)

end Member

/-! ## The stop fd -/

/-- What the counter of an eventfd never exceeds. -/
def kEventfdMax : Nat := 2 ^ 64 - 2

/-- A write of one to a nonblocking eventfd, which may fail when it is full. -/
def eventfd_write (counter : Nat) : Nat :=
  if counter + 1 ≤ kEventfdMax then counter + 1 else counter

/-- What `poll` says of an fd that nothing reads: once it is readable it is
reported, unless the call fails. -/
def PollAnswer.Honest (readable : Bool) : PollAnswer → Prop
  | .failed _ => True
  | .timeout => readable = false
  | .ready _ stop_revents => stop_revents ≠ 0 ↔ readable = true

/-! ## The process -/

inductive Thread where
  | main
  | worker (i : Nat)
  | stats
  deriving DecidableEq

/-- Where main is: about to build worker `i`, to start it, to start the
counters thread, to join worker `i`, the counters thread, to judge the run,
to write the stop fd, to destroy worker `i`, to forget the stop fd, to close
it; or it has returned. -/
inductive At where
  | building (i : Nat)
  | starting (i : Nat)
  | reporting
  | joining (i : Nat)
  | joiningStats
  | judging
  | stopping
  | clearing (i : Nat)
  | unsetting
  | closing
  | returned
  deriving DecidableEq

/-- The process after `eventfd`. `handlers` says whether the signal handlers
are installed, and `pending` are the threads inside of one that has read the
stop fd and not written it. `log` is what was done with what it holds. -/
structure Process (R P : Type) where
  pc : At := .building 0
  members : List (Member R P) := []
  stats : ThreadState := .none
  reporting : Bool := false
  g_stop_fd : Bool := true
  stop_counter : Nat := 0
  handlers : Bool := false
  pending : List Thread := []
  thrown : Bool := false
  rc : Int := 0
  stderr : List Bytes := []
  log : List (Use Resource) := [.acquire .stop_fd]

namespace Process

variable (s : Process R P)

/-- The handler of main: what was thrown is printed, and the exit code is 1. -/
def catching (what : Bytes) : Process R P :=
  { s with pc := .stopping, thrown := true, rc := 1, stderr := s.stderr ++ [ascii "fatal: " ++ what] }

/-- Write one to the stop fd. -/
def writeStop : Process R P :=
  { s with stop_counter := eventfd_write s.stop_counter, log := s.log ++ [.use .stop_fd] }

/-- `on_signal` on main's own thread. -/
def on_signal : Process R P := if s.g_stop_fd then s.writeStop else s

def setMember (i : Nat) (m : Member R P) : Process R P := { s with members := s.members.set i m }

/-- A thread in which a signal handler may run: it has not ended. -/
def Live : Thread → Prop
  | .main => s.pc ≠ .returned
  | .worker i => ∃ m, s.members[i]? = some m ∧ m.thread = .running
  | .stats => s.stats = .running

/-- Where main may throw although no queue failed: at an allocation, or the
start of a thread. -/
def Throws : Prop :=
  (∃ i, s.pc = .building i) ∨ (∃ i, s.pc = .starting i) ∨ s.pc = .reporting ∨ s.pc = .judging

end Process

namespace Setting

variable (env : Setting R P)

/-- A worker as its constructor leaves it. -/
def build (i : Nat) : Member R P :=
  let args := env.cfg.worker i
  { args := args
    worker := { passthrough := args.passthrough
                tls := .init env.reassembly env.policy args.max_flows args.max_blocked } }

@[simp] theorem build_thread (i : Nat) : (env.build i).thread = .none := rfl

@[simp] theorem build_alive (i : Nat) : (env.build i).alive = true := rfl

/-- The calls of the constructor of worker `i` on its queue. -/
def create (i : Nat) (a : SetupAnswers) : List LibCall × Except SystemError Unit :=
  let args := env.cfg.worker i
  NFQueue.create args.queue_num args.queue_maxlen args.recv_buf_bytes a

/-- The warning of a start whose pinning fails. -/
def pinLines (i : Nat) (rc : Nat) : List Bytes :=
  let args := env.cfg.worker i
  if args.pin_cpu ≥ 0 ∧ rc ≠ 0 then
    [ascii "warning: worker " ++ ascii (toString args.id) ++ ascii " could not pin to CPU " ++
      ascii (toString args.pin_cpu) ++ ascii ": " ++ env.strerror rc]
  else []

end Setting

/-- A step of some thread. What a worker does between its calls of `poll` and
`recv` is one step with the call before it, and throws nothing. -/
inductive Process.Step (env : Setting R P) : Process R P → Process R P → Prop
  /-- Worker `i` is built, and its queue is bound. -/
  | built (s : Process R P) (i : Nat) (a : SetupAnswers) : .main ∉ s.pending →
      s.pc = .building i → i < env.cfg.worker_count → (env.create i a).2 = .ok () →
      Step env s { s with
        pc := .building (i + 1)
        members := s.members ++ [env.build i]
        log := s.log ++ usesOf i a (env.create i a).1 }
  /-- The queue of worker `i` cannot be set up. -/
  | unbound (s : Process R P) (i : Nat) (a : SetupAnswers) (e : SystemError) : .main ∉ s.pending →
      s.pc = .building i → i < env.cfg.worker_count → (env.create i a).2 = .error e →
      Step env s { s.catching (e.text env.strerror) with
        log := s.log ++ usesOf i a (env.create i a).1 }
  /-- The extractor of worker `i` cannot be built, so its queue is destroyed. -/
  | unbuilt (s : Process R P) (i : Nat) (a : SetupAnswers) (what : Bytes) : .main ∉ s.pending →
      s.pc = .building i → i < env.cfg.worker_count → (env.create i a).2 = .ok () →
      Step env s { s.catching what with
        log := s.log ++ usesOf i a ((env.create i a).1 ++ NFQueue.destroy) }
  | threw (s : Process R P) (what : Bytes) : .main ∉ s.pending → s.Throws →
      Step env s (s.catching what)
  /-- All workers are built, so the signal handlers are installed. -/
  | installed (s : Process R P) : .main ∉ s.pending → s.pc = .building env.cfg.worker_count →
      Step env s { s with pc := .starting 0, handlers := true }
  | started (s : Process R P) (i : Nat) (m : Member R P) (rc : Nat) : .main ∉ s.pending →
      s.pc = .starting i → s.members[i]? = some m →
      Step env s { s.setMember i { m with thread := .running } with
        pc := .starting (i + 1)
        stderr := s.stderr ++ env.pinLines i rc
        log := s.log ++ [.acquire (.thread i)] }
  | allStarted (s : Process R P) : .main ∉ s.pending → s.pc = .starting s.members.length →
      Step env s { s with pc := .reporting }
  | reported (s : Process R P) : .main ∉ s.pending → s.pc = .reporting →
      env.cfg.stats_interval_s > 0 →
      Step env s { s with
        pc := .joining 0
        stats := .running
        reporting := true
        log := s.log ++ [.acquire .stats] }
  | unreported (s : Process R P) : .main ∉ s.pending → s.pc = .reporting →
      env.cfg.stats_interval_s = 0 → Step env s { s with pc := .joining 0 }
  | joined (s : Process R P) (i : Nat) (m : Member R P) : .main ∉ s.pending → s.pc = .joining i →
      s.members[i]? = some m → m.thread = .ended →
      Step env s { s.setMember i { m with thread := .joined } with
        pc := .joining (i + 1)
        log := s.log ++ [.release (.thread i)] }
  | allJoined (s : Process R P) : .main ∉ s.pending → s.pc = .joining s.members.length →
      Step env s { s with pc := .joiningStats, reporting := false }
  | statsJoined (s : Process R P) : .main ∉ s.pending → s.pc = .joiningStats → s.stats = .ended →
      Step env s { s with pc := .judging, stats := .joined, log := s.log ++ [.release .stats] }
  | noStats (s : Process R P) : .main ∉ s.pending → s.pc = .joiningStats → s.stats = .none →
      Step env s { s with pc := .judging }
  /-- The final line, the lines about each worker, and the exit code. -/
  | judged (s : Process R P) : .main ∉ s.pending → s.pc = .judging →
      Step env s { s with
        pc := .stopping
        rc := if s.members.any (fun m => m.failure.failed) then 1 else s.rc
        stderr := s.stderr ++ (ascii "final: " ++ Member.stats_line s.members) ::
          s.members.flatMap (Member.verdictLines env.strerror)
        log := s.log ++ (List.range s.members.length).map (fun i => .use (.handle i)) }
  | stopped (s : Process R P) : .main ∉ s.pending → s.pc = .stopping →
      Step env s { s.on_signal with pc := .clearing 0 }
  /-- The destructor of worker `i` joins a thread that is not joined, and
  then destroys the queue. -/
  | destroyed (s : Process R P) (i : Nat) (m : Member R P) : .main ∉ s.pending →
      s.pc = .clearing i → s.members[i]? = some m → m.thread ≠ .running →
      Step env s { s.setMember i { m with
          alive := false
          thread := if m.thread = .ended then .joined else m.thread } with
        pc := .clearing (i + 1)
        log := s.log ++ ((if m.thread = .ended then [.release (.thread i)] else []) ++
          usesOf i {} NFQueue.destroy) }
  | allDestroyed (s : Process R P) : .main ∉ s.pending → s.pc = .clearing s.members.length →
      Step env s { s with pc := .unsetting }
  | unset (s : Process R P) : .main ∉ s.pending → s.pc = .unsetting →
      Step env s { s with pc := .closing, g_stop_fd := false }
  | closed (s : Process R P) : .main ∉ s.pending → s.pc = .closing →
      Step env s { s with pc := .returned, log := s.log ++ [.release .stop_fd] }
  /-- `poll` comes back in worker `i`. -/
  | polled (s : Process R P) (i : Nat) (m : Member R P) (poll : PollAnswer) (now : Time) :
      .worker i ∉ s.pending → s.members[i]? = some m → m.thread = .running → m.polled = false →
      poll.Honest (0 < s.stop_counter) →
      Step env s { s.setMember i (m.poll env.world (env.nfq_set_verdict i) env.stop_fd poll now)
        with log := s.log ++ [.use .stop_fd, .use (.handle i), .use (.queue i)] }
  /-- `recv` comes back in worker `i`, whatever was written since its `poll`. -/
  | received (s : Process R P) (i : Nat) (m : Member R P) (recv : RecvAnswer) (now : Time) :
      .worker i ∉ s.pending → s.members[i]? = some m → m.thread = .running → m.polled = true →
      Step env s { s.setMember i (m.recv env.world (env.nfq_set_verdict i) recv now)
        with log := s.log ++ [.use (.handle i), .use (.queue i)] }
  /-- The counters thread prints its line, which reads every worker. -/
  | printed (s : Process R P) : .stats ∉ s.pending → s.stats = .running →
      Step env s { s with
        stderr := s.stderr ++ [ascii "stats: " ++ Member.stats_line s.members]
        log := s.log ++ (List.range s.members.length).map (fun i => .use (.handle i)) }
  | quieted (s : Process R P) : .stats ∉ s.pending → s.stats = .running → s.reporting = false →
      Step env s { s with stats := .ended }
  /-- A signal reaches a thread, and its handler reads the stop fd. -/
  | signalled (s : Process R P) (t : Thread) : s.handlers = true → s.Live t → s.g_stop_fd = true →
      Step env s { s with pending := t :: s.pending }
  /-- The handler writes the stop fd and returns. -/
  | handled (s : Process R P) (t : Thread) : t ∈ s.pending →
      Step env s { s.writeStop with pending := s.pending.erase t }

end packet_inspector
