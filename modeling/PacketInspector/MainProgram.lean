-- The whole program, from its command line to its exit code: what main does
-- before it has a stop fd, what its exit code and its messages tell, and what
-- a drop has to do with the blocklist file.
import PacketInspector.BlockedNames
import PacketInspector.Endings

open wire packet_inspector.tls runs

namespace packet_inspector

variable {R P : Type}

/-! ## Before the stop fd -/

/-- What main finds when it starts: the content of a file or why it cannot be
read, the stop fd or the errno of `eventfd`, the world of the extractors, and
the kernel. -/
structure Surroundings (R P : Type) where
  file : Bytes → Except Bytes Bytes
  eventfd : Except Nat Nat
  world : World R P
  reassembly : R
  policy : P
  nfq_set_verdict : Nat → SetVerdict
  strerror : Nat → Bytes

namespace Surroundings

variable (e : Surroundings R P)

/-- The first half of main: it parses, loads the blocklist and makes the stop
fd, or it returns with a code and what it printed to stderr. -/
def prologue (argv : List Bytes) : Except (Int × List Bytes) (Setting R P) :=
  let parsed := cli.parse argv
  if parsed.should_exit then .error (parsed.exit_code, parsed.message.toList)
  else
    let cfg := parsed.config
    match e.file cfg.blocklist_path with
    | .error what =>
      .error (1, [ascii "fatal: " ++ (ascii "cannot load blocklist '" ++ cfg.blocklist_path ++ ascii "': " ++ what)])
    | .ok content =>
      match e.eventfd with
      | .error err => .error (1, [ascii "fatal: " ++ (ascii "eventfd: " ++ e.strerror err)])
      | .ok stop_fd => .ok {
          cfg := cfg
          stop_fd := stop_fd
          world := { e.world with decide := workerPolicy (BlockList.load content) }
          reassembly := e.reassembly
          policy := e.policy
          nfq_set_verdict := e.nfq_set_verdict
          strerror := e.strerror }

/-- Main returns `code`, and has printed `lines` to stderr. -/
inductive Exits (argv : List Bytes) : Int → List Bytes → Prop
  | early {code : Int} {lines : List Bytes} : e.prologue argv = .error (code, lines) → Exits argv code lines
  | returned {env : Setting R P} {s : Process R P} : e.prologue argv = .ok env →
      Process.Reachable env s → s.pc = .returned → Exits argv s.rc s.stderr

end Surroundings

/-! ## What a parse says -/

namespace cli

/-- A parse is refused with 2 and a message, or it says nothing. -/
theorem parseArgs_says (c : Config) (args : List Bytes) :
    ((parseArgs c args).should_exit = true ∧ (parseArgs c args).exit_code = 2 ∧
      ∃ msg, (parseArgs c args).message = some (ascii "PacketInspector: " ++ msg)) ∨
    ((parseArgs c args).exit_code = 0 ∧ (parseArgs c args).message = none) := by
  fun_induction parseArgs c args with
  | case1 c =>
    unfold finish
    split_ifs
    · exact .inl ⟨rfl, rfl, _, rfl⟩
    · exact .inr ⟨rfl, rfl⟩
  | case2 => exact .inr ⟨rfl, rfl⟩
  | case3 => exact .inl ⟨rfl, rfl, _, rfl⟩
  | case4 => exact .inl ⟨rfl, rfl, _, rfl⟩
  | case5 => assumption
  | case6 => exact .inl ⟨rfl, rfl, _, rfl⟩
  | case7 => assumption
  | case8 => assumption
  | case9 => assumption
  | case10 => exact .inl ⟨rfl, rfl, _, rfl⟩
  | case11 => assumption

end cli

/-! ## Lines that tell of a failure -/

/-- The line starts as those do that main and the parser print before they
fail. -/
def Fatal (line : Bytes) : Prop :=
  ascii "fatal: " <+: line ∨ ascii "PacketInspector: " <+: line

theorem fatal_append (what : Bytes) : Fatal (ascii "fatal: " ++ what) := .inl (List.prefix_append _ _)

/-- A line that starts otherwise is not fatal. -/
theorem not_fatal {p : Bytes} (hp : 7 ≤ p.length) (hfatal : p.take 7 ≠ ascii "fatal: ")
    (hname : p.take 7 ≠ ascii "PacketI") (x : Bytes) : ¬ Fatal (p ++ x) := by
  have hstart : ∀ q : Bytes, q.length = 7 → q <+: p ++ x → p.take 7 = q := by
    intro q hq h
    have htake := List.prefix_iff_eq_take.mp h
    rw [hq, List.take_append_of_le_length hp] at htake
    exact htake.symm
  rintro (h | h)
  · exact hfatal (hstart _ rfl h)
  · have hshort : ascii "PacketI" <+: ascii "PacketInspector: " := by decide
    exact hname (hstart _ rfl (hshort.trans h))

namespace Process

variable {env : Setting R P} {s s' : Process R P}

theorem not_fatal_pinLines (i rc : Nat) : ∀ line ∈ env.pinLines i rc, ¬ Fatal line := by
  intro line hline
  unfold Setting.pinLines at hline
  dsimp only at hline
  split at hline
  · rw [List.mem_singleton] at hline
    rw [hline]
    simp only [List.append_assoc]
    exact not_fatal (by decide) (by decide) (by decide) _
  · cases hline

/-- A failed queue gives a fatal line, and a sound one gives none. -/
theorem fatal_verdictLines (strerror : Nat → Bytes) (m : Member R P) :
    (∃ line ∈ m.verdictLines strerror, Fatal line) ↔ m.failure.failed = true := by
  unfold Member.verdictLines
  simp only [List.append_assoc]
  constructor
  · rintro ⟨line, hline, hfatal⟩
    by_contra hfailed
    rw [if_neg hfailed, List.append_nil] at hline
    split at hline
    · rw [List.mem_singleton] at hline
      rw [hline] at hfatal
      exact not_fatal (by decide) (by decide) (by decide) _ hfatal
    · cases hline
  · intro hfailed
    rw [if_pos hfailed]
    refine ⟨_, List.mem_append_right _ (List.mem_singleton.mpr rfl), ?_⟩
    have hstart : ascii "fatal: " <+: ascii "fatal: worker " := by decide
    exact .inl (hstart.trans (List.prefix_append _ _))

/-- Main's exit code so far is not 0 exactly when it has printed a fatal
line. -/
def Blamed (s : Process R P) : Prop := s.rc ≠ 0 ↔ ∃ line ∈ s.stderr, Fatal line

/-- Lines that are not fatal change nothing. -/
theorem Blamed.says (h : s.Blamed) (lines : List Bytes) (hlines : ∀ line ∈ lines, ¬ Fatal line)
    (hrc : s'.rc = s.rc) (hstderr : s'.stderr = s.stderr ++ lines) : s'.Blamed := by
  unfold Blamed at h ⊢
  rw [hrc, h, hstderr]
  constructor
  · rintro ⟨line, hline, hfatal⟩
    exact ⟨line, List.mem_append_left _ hline, hfatal⟩
  · rintro ⟨line, hline, hfatal⟩
    rcases List.mem_append.mp hline with hline | hline
    · exact ⟨line, hline, hfatal⟩
    · exact absurd hfatal (hlines line hline)

theorem Blamed.same (h : s.Blamed) (hrc : s'.rc = s.rc) (hstderr : s'.stderr = s.stderr) : s'.Blamed :=
  h.says [] (by simp) hrc (by rw [hstderr, List.append_nil])

theorem blamed_catching (s : Process R P) (what : Bytes) : (s.catching what).Blamed := by
  refine iff_of_true (by simp [catching]) ⟨_, List.mem_append_right _ ?_, fatal_append what⟩
  exact List.mem_singleton.mpr rfl

/-- The final line is not fatal, and the lines about the workers are when the
exit code becomes 1. -/
theorem Blamed.judged (h : s.Blamed) (strerror : Nat → Bytes)
    (hrc : s'.rc = if s.members.any (fun m => m.failure.failed) then 1 else s.rc)
    (hstderr : s'.stderr = s.stderr ++ (ascii "final: " ++ Member.stats_line s.members) ::
      s.members.flatMap (Member.verdictLines strerror)) : s'.Blamed := by
  by_cases hfailed : s.members.any (fun m => m.failure.failed) = true
  · obtain ⟨m, hm, hone⟩ := List.any_eq_true.mp hfailed
    obtain ⟨line, hline, hfatal⟩ := (fatal_verdictLines strerror m).mpr hone
    rw [if_pos hfailed] at hrc
    refine iff_of_true (by simp [hrc]) ⟨line, ?_, hfatal⟩
    rw [hstderr]
    exact List.mem_append_right _ (List.mem_cons_of_mem _ (List.mem_flatMap.mpr ⟨m, hm, hline⟩))
  · rw [if_neg hfailed] at hrc
    refine h.says _ (fun line hline => ?_) hrc hstderr
    rcases List.mem_cons.mp hline with rfl | hline
    · exact not_fatal (by decide) (by decide) (by decide) _
    · obtain ⟨m, hm, hline⟩ := List.mem_flatMap.mp hline
      intro hfatal
      exact hfailed (List.any_eq_true.mpr ⟨m, hm,
        (fatal_verdictLines strerror m).mp ⟨line, hline, hfatal⟩⟩)

theorem step_blamed (hs : Step env s s') (h : s.Blamed) : s'.Blamed := by
  cases hs with
  | unbound i a e hmain hpc hi he => exact (blamed_catching s _).same rfl rfl
  | unbuilt i a what hmain hpc hi he => exact (blamed_catching s what).same rfl rfl
  | threw what hmain hthrows => exact blamed_catching s what
  | started i m rc hmain hpc hm => exact h.says _ (not_fatal_pinLines i rc) rfl rfl
  | printed hstats hrunning =>
    refine h.says _ (fun line hline => ?_) rfl rfl
    rw [List.mem_singleton.mp hline]
    exact not_fatal (by decide) (by decide) (by decide) _
  | judged hmain hpc => exact h.judged env.strerror rfl rfl
  | stopped hmain hpc =>
    unfold on_signal
    split
    · exact h.same rfl rfl
    · exact h.same rfl rfl
  | _ => exact h.same rfl rfl

theorem Reachable.blamed (h : Reachable env s) : s.Blamed := by
  refine path_keeps (I := Blamed) (fun _ _ hs hx => step_blamed hs hx) h ?_
  exact iff_of_false (by simp) (by simp)

end Process

namespace Surroundings

variable {e : Surroundings R P} {argv : List Bytes}

/-- What the first half of main leaves: the configuration of an accepted
command line, and the world of the list that its file gives. -/
theorem prologue_ok {env : Setting R P} (h : e.prologue argv = .ok env) :
    (cli.parse argv).should_exit = false ∧ env.cfg = (cli.parse argv).config ∧
    ∃ content, e.file env.cfg.blocklist_path = .ok content ∧
      env.world.decide = workerPolicy (BlockList.load content) := by
  unfold prologue at h
  dsimp only at h
  split at h
  · cases h
  · rename_i hgo
    split at h
    · cases h
    · rename_i content hfile
      split at h
      · cases h
      · cases h
        exact ⟨by simpa using hgo, rfl, content, hfile, rfl⟩

/-- Main returns early with the parser's code, or with 1 and a fatal line. -/
theorem prologue_error {code : Int} {lines : List Bytes} (h : e.prologue argv = .error (code, lines)) :
    ((cli.parse argv).should_exit = true ∧ code = (cli.parse argv).exit_code ∧
      lines = (cli.parse argv).message.toList) ∨
    ((cli.parse argv).should_exit = false ∧ code = 1 ∧ ∃ line ∈ lines, Fatal line) := by
  unfold prologue at h
  dsimp only at h
  split at h
  · rename_i hexit
    cases h
    exact .inl ⟨hexit, rfl, rfl⟩
  · rename_i hgo
    have hno : (cli.parse argv).should_exit = false := by simpa using hgo
    split at h
    · cases h
      exact .inr ⟨hno, rfl, _, List.mem_singleton.mpr rfl, fatal_append _⟩
    · split at h
      · cases h
        exact .inr ⟨hno, rfl, _, List.mem_singleton.mpr rfl, fatal_append _⟩
      · cases h

/-- The exit code of the program is 0, 1 or 2: it is 2 exactly when the
command line is refused, and not 0 exactly when a line on stderr says what
went wrong. -/
theorem the_exit_code_is_explained {code : Int} {lines : List Bytes} (h : e.Exits argv code lines) :
    (code = 0 ∨ code = 1 ∨ code = 2) ∧ (code = 2 ↔ (cli.parse argv).exit_code = 2) ∧
    (code ≠ 0 ↔ ∃ line ∈ lines, Fatal line) := by
  have hsays := cli.parseArgs_says {} (argv.drop 1)
  change ((cli.parse argv).should_exit = true ∧ (cli.parse argv).exit_code = 2 ∧
    ∃ msg, (cli.parse argv).message = some (ascii "PacketInspector: " ++ msg)) ∨
    ((cli.parse argv).exit_code = 0 ∧ (cli.parse argv).message = none) at hsays
  have haccepted : (cli.parse argv).should_exit = false → (cli.parse argv).exit_code = 0 := by
    intro hgo
    rcases hsays with ⟨hexit, -⟩ | ⟨hcode, -⟩
    · rw [hexit] at hgo
      cases hgo
    · exact hcode
  cases h with
  | early hearly =>
    rcases prologue_error hearly with ⟨-, rfl, rfl⟩ | ⟨hgo, rfl, hfatal⟩
    · rcases hsays with ⟨-, hcode, msg, hmsg⟩ | ⟨hcode, hmsg⟩
      · refine ⟨.inr (.inr hcode), Iff.rfl, iff_of_true (by simp [hcode]) ?_⟩
        rw [hmsg]
        exact ⟨_, List.mem_singleton.mpr rfl, .inr (List.prefix_append _ _)⟩
      · exact ⟨.inl hcode, Iff.rfl, iff_of_false (by simp [hcode]) (by simp [hmsg])⟩
    · exact ⟨.inr (.inl rfl), iff_of_false (by simp) (by simp [haccepted hgo]),
        iff_of_true (by simp) hfatal⟩
  | returned hok hs hpc =>
    rename_i env s
    have hr := hs.reported
    have hcode : s.rc = 0 ∨ s.rc = 1 := by
      cases hthrown : s.thrown with
      | true => exact .inr (hr.faulty (.inl hthrown))
      | false => exact (hr.code hthrown).imp_right (fun hone => hone.1)
    have hparse := haccepted (prologue_ok hok).1
    refine ⟨hcode.imp_right .inl, iff_of_false ?_ (by simp [hparse]), hs.blamed⟩
    rcases hcode with hcode | hcode <;> simp [hcode]

open traffic in
/-- A file that lists one host. -/
def oneFile : Surroundings (List traffic.Link) Unit where
  file := fun _ => .ok host
  eventfd := .ok 3
  world := traffic.world {}
  reassembly := []
  policy := ()
  nfq_set_verdict := fun _ _ _ _ => 0
  strerror := fun _ => []

/-- A command line that asks for one worker. -/
def oneArgv : List Bytes :=
  [ascii "PacketInspector", ascii "-j", ascii "1", ascii "-max-blocked", ascii "1"]

open traffic in
theorem prologue_oneFile : oneFile.prologue oneArgv = .ok Process.oneWorker := by
  have hparse : cli.parse oneArgv = { config := { jobs := 1, max_blocked_flows := 1 } } := by
    decide +kernel
  have hload : BlockList.load host = { exact := [host] } := by rfl
  simp only [prologue, oneFile, hparse, hload]
  rfl

/-- A hello comes in and the process is stopped. -/
theorem a_stopped_program_says_nothing : ∃ lines, oneFile.Exits oneArgv 0 lines ∧
    ¬ ∃ line ∈ lines, Fatal line := by
  obtain ⟨s, m, hs, hpc, -, -, -, hrc, -⟩ := Process.a_worker_is_stopped
  have hexits : oneFile.Exits oneArgv 0 s.stderr := hrc ▸ .returned prologue_oneFile hs hpc
  refine ⟨s.stderr, hexits, fun hfatal => ?_⟩
  exact (the_exit_code_is_explained hexits).2.2.mpr hfatal rfl

/-! ## From the file to the kernel -/

/-- In passthrough mode a worker gives no drop. -/
theorem passthrough_never_blocks {env : Setting R P} (i : Nat) (hpass : env.cfg.passthrough = true)
    (turns : List (NFQueue.Event × Time)) (id : UInt32) :
    (id, .BLOCK) ∉
      ((env.build i).worker.loop env.world (env.nfq_set_verdict i) turns).2.queue.verdicts := by
  have hbypassing : Worker.Bypassing (env.build i).worker := by
    have hworker : (env.build i).worker = Worker.constructed env.cfg.passthrough env.reassembly
      env.policy (env.cfg.worker i).max_flows (env.cfg.worker i).max_blocked := rfl
    rw [hworker, hpass]
    exact Worker.constructed_bypassing _ _ _ _
  rw [Worker.loop_passthrough env.world (env.nfq_set_verdict i) turns hbypassing]
  intro hid
  rcases List.mem_append.mp hid with hid | hid
  · cases hid
  · obtain ⟨pkt, -, he⟩ := List.mem_map.mp hid
    cases he

/-- Every drop comes from the file: when a worker of the program has told the
kernel to drop a packet, the program inspects, the packet came in, and its flow
was resolved to BLOCK on a host that a line of the blocklist file names, read
in all the client bytes that were delivered for it since it was tracked. -/
theorem every_drop_comes_from_the_file {env : Setting R P} {s : Process R P}
    (hok : e.prologue argv = .ok env) (hs : Process.Reachable env s) {m : Member R P}
    (hm : m ∈ s.members) {id : UInt32} (hid : (id, .BLOCK) ∈ m.worker.queue.verdicts) :
    env.cfg.passthrough = false ∧ ∃ content, e.file env.cfg.blocklist_path = .ok content ∧
    ∃ pkt ∈ m.arrived, pkt.id = id ∧ ∃ f, flowOf pkt.bytes = some f ∧
    ∃ before host after,
      m.worker.tls.trace = before ++ .asked f.key (some host) .BLOCK :: after ∧
      extractHostname (clientStream (keyed f.key) f.key before) = .Found host ∧
      ∃ line ∈ content.splitOn 0x0a, BlockList.Names (BlockList.parse_line line) host := by
  obtain ⟨-, -, content, hfile, hdecide⟩ := prologue_ok hok
  obtain ⟨i, hi⟩ := List.mem_iff_getElem?.mp hm
  obtain ⟨-, -, hloop, harrived, -⟩ := hs.looped i m hi
  have hworker : ((env.build i).worker.loop env.world (env.nfq_set_verdict i) m.events).2 =
      m.worker := by
    rw [hloop]
  have hinspects : env.cfg.passthrough = false := by
    by_contra hpass
    have hpassthrough : env.cfg.passthrough = true := by simpa using hpass
    have hnone := passthrough_never_blocks i hpassthrough m.events id
    rw [hworker] at hnone
    exact hnone hid
  have hbuilt : (env.build i).worker = Worker.constructed false env.reassembly env.policy
      (env.cfg.worker i).max_flows (env.cfg.worker i).max_blocked := by
    rw [← hinspects]
    rfl
  rw [hbuilt] at hworker
  obtain ⟨pkt, hpkt, hpktid, f, hf, before, host, after, htrace, hfound, hblocked⟩ :=
    Worker.drop_convicted (env.nfq_set_verdict i) env.reassembly env.policy
      (env.cfg.worker i).max_flows (env.cfg.worker i).max_blocked m.events hdecide (hworker ▸ hid)
  rw [hworker] at htrace
  exact ⟨hinspects, content, hfile, pkt, harrived ▸ hpkt, hpktid, f, hf, before, host, after,
    htrace, hfound, (BlockList.isHostnameBlocked_iff content host).mp hblocked⟩

open traffic in
/-- A worker that has received a SYN and the hello of the blocked host. -/
theorem a_hello_is_dropped : ∃ s m, Process.Reachable Process.oneWorker s ∧ s.members[0]? = some m ∧
    (2, .BLOCK) ∈ m.worker.queue.verdicts := by
  have hunwritten : (PollAnswer.ready 1 0).Honest false := by simp [PollAnswer.Honest]
  have hfree : ∀ t : Thread, t ∉ ([] : List Thread) := by simp
  have h1 : Process.Reachable Process.oneWorker _ :=
    .tail .refl (.built {} 0 {} (hfree _) rfl (by decide) rfl)
  have h2 : Process.Reachable Process.oneWorker _ := h1.tail (.installed _ (hfree _) rfl)
  have h3 : Process.Reachable Process.oneWorker _ := h2.tail (.started _ 0 _ 0 (hfree _) rfl rfl)
  have h4 : Process.Reachable Process.oneWorker _ :=
    h3.tail (.polled _ 0 _ (.ready 1 0) 0 (hfree _) rfl rfl rfl hunwritten)
  have h5 : Process.Reachable Process.oneWorker _ := h4.tail (.received _ 0 _ (.buffer [
      (0, ⟨some 1, some (syn (client 2) 1).val.bytes⟩),
      (0, ⟨some 2, some (hello (client 2) 2).val.bytes⟩)]) 0 (hfree _) rfl rfl rfl)
  refine ⟨_, _, h5, rfl, ?_⟩
  decide +kernel

theorem the_drop_of_a_hello_comes_from_its_file : ∃ m : Member (List traffic.Link) Unit,
    ∃ pkt ∈ m.arrived, pkt.id = 2 ∧ ∃ line ∈ traffic.host.splitOn 0x0a, ∃ host,
    BlockList.Names (BlockList.parse_line line) host := by
  obtain ⟨s, m, hs, hm, hid⟩ := a_hello_is_dropped
  obtain ⟨-, content, hfile, pkt, hpkt, hpktid, f, hf, -, host, -, -, -, line, hline, hnames⟩ :=
    every_drop_comes_from_the_file prologue_oneFile hs (List.mem_of_getElem? hm) hid
  cases hfile
  exact ⟨m, pkt, hpkt, hpktid, line, hline, host, hnames⟩

end Surroundings

end packet_inspector
