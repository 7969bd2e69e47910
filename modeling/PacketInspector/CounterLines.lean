-- A line of counters while the workers go on: the counters thread loads them
-- one after the other, and the workers take steps in between.
import PacketInspector.Outstanding

open wire

namespace packet_inspector

/-! ## What another thread can load -/

/-- The counters of a worker: those of its queue, which come with the packets
that it owes, and those of its extractor. -/
structure Counters where
  thread : WorkerThread := {}
  flows : Nat := 0
  blocked : Nat := 0
  dropped_at_cap : Nat := 0

/-- The steps of a worker that another thread can see. The two gauges are
stored, and everything else is counted. -/
inductive CounterStep where
  | queue (a : AtomicStep)
  | undecided
  | flows (n : Nat)
  | blocked (n : Nat)
  | dropped_at_cap

namespace Counters

def queue (c : Counters) : NFQueue := c.thread.queue

def step (k : SetVerdict) (c : Counters) : CounterStep → Counters
  | .queue a => { c with thread := c.thread.step k a }
  | .undecided =>
    { c with thread.queue := { c.queue with undecided := c.queue.undecided + 1 } }
  | .flows n => { c with flows := n }
  | .blocked n => { c with blocked := n }
  | .dropped_at_cap => { c with dropped_at_cap := c.dropped_at_cap + 1 }

/-! ## The worker loop takes these steps -/

section Loop

variable {R P : Type} {w : World R P} {k : SetVerdict} {c : Counters} {wk : Worker R P}

/-- The counters are those of a worker. -/
structure Shows (c : Counters) (wk : Worker R P) : Prop where
  thread : c.thread.Backs wk
  flows : c.flows = wk.tls.flows
  blocked : c.blocked = wk.tls.blocked
  dropped_at_cap : c.dropped_at_cap = wk.tls.dropped_at_cap

/-- Flows that were turned away stay counted. -/
theorem loop_dropped_at_cap (w : World R P) (k : SetVerdict) (turns : List (NFQueue.Event × Time))
    (h : wk.tls.feeding = false) :
    wk.tls.dropped_at_cap ≤ (wk.loop w k turns).2.tls.dropped_at_cap := by
  have hkeeps := Worker.loop_keeps (w := w) (k := k)
    (I := fun x => x.feeding = false ∧ wk.tls.dropped_at_cap ≤ x.dropped_at_cap)
    (fun op x hx => ⟨TcpTlsHostnameExtractor.apply_feeding op hx.1, ?_⟩) (fun _ hx => hx) turns
    ⟨h, Nat.le_refl _⟩
  · exact hkeeps.2
  · refine @TcpTlsHostnameExtractor.apply_law R P w x
      (fun _ y => wk.tls.dropped_at_cap ≤ y.dropped_at_cap) op ?_ ?_ hx.1 [] hx.2
    · intro now call fed s s' hs hle
      exact hle.trans (congrArg (fun caps => caps.2.2) (TcpTlsHostnameExtractor.step_caps hs)).ge
    · intro p fed s s' _ htake hle
      cases htake with
      | refused f => exact Nat.le_succ_of_le hle
      | decided v => exact hle
      | held f c => exact hle

theorem run_queue (steps : List AtomicStep) : ∀ c : Counters,
    (steps.map CounterStep.queue).foldl (step k) c = { c with thread := c.thread.run k steps } := by
  induction steps with
  | nil => exact fun _ => rfl
  | cons a steps ih => exact fun c => ih (c.step k (.queue a))

theorem run_dropped_at_cap (n : Nat) : ∀ c : Counters,
    (List.replicate n CounterStep.dropped_at_cap).foldl (step k) c =
      { c with dropped_at_cap := c.dropped_at_cap + n } := by
  induction n with
  | zero => exact fun _ => rfl
  | succ n ih =>
    intro c
    rw [List.replicate_succ, List.foldl_cons, ih]
    simp [step, Nat.add_assoc, Nat.add_comm 1]

/-- Turn after turn, the counters of the worker loop are those that such steps
lead to. -/
theorem Shows.loop (w : World R P) (k : SetVerdict) (h : Shows c wk)
    (turns : List (NFQueue.Event × Time)) :
    ∃ steps : List CounterStep, Shows (steps.foldl (step k) c) (wk.loop w k turns).2 := by
  obtain ⟨steps, hsteps⟩ := h.thread.loop w k turns
  have hmore := loop_dropped_at_cap w k turns h.thread.feeding
  let wk' := (wk.loop w k turns).2
  refine ⟨steps.map .queue ++ (.flows wk'.tls.flows :: .blocked wk'.tls.blocked ::
    List.replicate (wk'.tls.dropped_at_cap - c.dropped_at_cap) .dropped_at_cap), ?_⟩
  rw [List.foldl_append, run_queue, List.foldl_cons, List.foldl_cons, run_dropped_at_cap]
  refine ⟨hsteps, rfl, rfl, ?_⟩
  have hle : c.dropped_at_cap ≤ wk'.tls.dropped_at_cap := h.dropped_at_cap ▸ hmore
  exact Nat.add_sub_cancel' hle

theorem shows_start (passthrough : Bool) (r : R) (p : P) (max_flows max_blocked : Nat) :
    Shows {} ({ passthrough := passthrough, tls := .init r p max_flows max_blocked } :
      Worker R P) :=
  ⟨WorkerThread.backs_start passthrough r p max_flows max_blocked, rfl, rfl, rfl⟩

end Loop

end Counters

/-- The threads of the workers, each under its index. -/
abbrev Threads := Nat → Counters

/-- Steps of the workers, in the order in which they are taken. -/
abbrev Schedule := List (Nat × CounterStep)

namespace Threads

def step (k : SetVerdict) (s : Threads) (x : Nat × CounterStep) : Threads :=
  Function.update s x.1 ((s x.1).step k x.2)

def run (k : SetVerdict) (s : Threads) (steps : Schedule) : Threads := steps.foldl (step k) s

/-! ## The loads of a line -/

structure Line where
  flows : UInt64 := 0
  blocked : UInt64 := 0
  dropped_at_cap : UInt64 := 0
  rx : UInt64 := 0
  verdicts : UInt64 := 0
  outstanding : UInt64 := 0
  undecided : UInt64 := 0

/-- What the workers do before each load of one worker's counters, in the
order of the loads. There are two inside `outstanding`. -/
structure Gaps where
  flows : Schedule := []
  blocked : Schedule := []
  dropped_at_cap : Schedule := []
  received : Schedule := []
  verdicted : Schedule := []
  outstanding_received : Schedule := []
  outstanding_verdicted : Schedule := []
  undecided : Schedule := []

/-- The counters of one worker as they are at each load. -/
structure Loads where
  flows : Counters
  blocked : Counters
  dropped_at_cap : Counters
  received : Counters
  verdicted : Counters
  outstanding_received : Counters
  outstanding_verdicted : Counters
  undecided : Counters

/-- One turn of the loop over the workers: what it loads, and how far the
workers are after it. -/
def load (k : SetVerdict) (i : Nat) (gaps : Gaps) (s : Threads) : Loads × Threads :=
  let s₁ := s.run k gaps.flows
  let s₂ := s₁.run k gaps.blocked
  let s₃ := s₂.run k gaps.dropped_at_cap
  let s₄ := s₃.run k gaps.received
  let s₅ := s₄.run k gaps.verdicted
  let s₆ := s₅.run k gaps.outstanding_received
  let s₇ := s₆.run k gaps.outstanding_verdicted
  let s₈ := s₇.run k gaps.undecided
  ({ flows := s₁ i
     blocked := s₂ i
     dropped_at_cap := s₃ i
     received := s₄ i
     verdicted := s₅ i
     outstanding_received := s₆ i
     outstanding_verdicted := s₇ i
     undecided := s₈ i }, s₈)

/-- What a turn of the loop adds to the sums. -/
def Line.add (line : Line) (l : Loads) : Line where
  flows := line.flows + UInt64.ofNat l.flows.flows
  blocked := line.blocked + UInt64.ofNat l.blocked.blocked
  dropped_at_cap := line.dropped_at_cap + UInt64.ofNat l.dropped_at_cap.dropped_at_cap
  rx := line.rx + l.received.queue.packets_received
  verdicts := line.verdicts + l.verdicted.queue.verdicts_issued
  outstanding := line.outstanding +
    l.outstanding_received.queue.outstanding_loaded l.outstanding_verdicted.queue
  undecided := line.undecided + UInt64.ofNat l.undecided.queue.undecided

/-- The loop from worker `i` on, with one `Gaps` for each worker that is left. -/
def loadAll (k : SetVerdict) : Nat → List Gaps → Threads → List Loads × Threads
  | _, [], s => ([], s)
  | i, gaps :: rest, s =>
    let (l, s) := load k i gaps s
    let (ls, s) := loadAll k (i + 1) rest s
    (l :: ls, s)

def stats_line (k : SetVerdict) (workers : List Gaps) (s : Threads) : Line × Threads :=
  let (ls, s) := loadAll k 0 workers s
  (ls.foldl Line.add {}, s)

/-! ## The columns -/

/-- The columns that show one counter each. -/
inductive Column where
  | flows
  | blocked
  | dropped_at_cap
  | received
  | verdicted
  | undecided

namespace Column

def value : Column → Counters → Nat
  | flows, c => c.flows
  | blocked, c => c.blocked
  | dropped_at_cap, c => c.dropped_at_cap
  | received, c => c.queue.received
  | verdicted, c => c.queue.verdicted
  | undecided, c => c.queue.undecided

def loaded : Column → Loads → Counters
  | flows, l => l.flows
  | blocked, l => l.blocked
  | dropped_at_cap, l => l.dropped_at_cap
  | received, l => l.received
  | verdicted, l => l.verdicted
  | undecided, l => l.undecided

def shown : Column → Line → UInt64
  | flows, line => line.flows
  | blocked, line => line.blocked
  | dropped_at_cap, line => line.dropped_at_cap
  | received, line => line.rx
  | verdicted, line => line.verdicts
  | undecided, line => line.undecided

/-- The columns of counters that only go up. The other two are gauges. -/
def Counts : Column → Prop
  | flows => False
  | blocked => False
  | _ => True

theorem shown_add (c : Column) (line : Line) (l : Loads) :
    c.shown (line.add l) = c.shown line + UInt64.ofNat (c.value (c.loaded l)) := by
  cases c <;> rfl

/-- A column shows the sum of what was loaded for it. -/
theorem shown_foldl (c : Column) (ls : List Loads) : ∀ line : Line,
    c.shown (ls.foldl Line.add line) =
      c.shown line + UInt64.ofNat ((ls.map c.loaded).map c.value).sum := by
  induction ls with
  | nil => exact fun line => (UInt64.add_zero _).symm
  | cons l ls ih =>
    intro line
    rw [List.foldl_cons, ih, shown_add, List.map_cons, List.map_cons, List.sum_cons, UInt64.ofNat_add,
      UInt64.add_assoc]

theorem shown_start (c : Column) : c.shown {} = 0 := by cases c <;> rfl

end Column

theorem outstanding_foldl (ls : List Loads) : ∀ line : Line,
    (ls.foldl Line.add line).outstanding = line.outstanding +
      (UInt64.ofNat ((ls.map (·.outstanding_received)).map Column.received.value).sum -
        UInt64.ofNat ((ls.map (·.outstanding_verdicted)).map Column.verdicted.value).sum) := by
  induction ls with
  | nil => exact fun line => (UInt64.add_zero _).symm
  | cons l ls ih =>
    intro line
    rw [List.foldl_cons, ih]
    simp only [List.map_cons, List.sum_cons, UInt64.ofNat_add, Line.add, NFQueue.outstanding_loaded,
      NFQueue.packets_received, NFQueue.verdicts_issued, Column.value]
    grind

/-! ## Counters only grow -/

/-- Every counter of the first threads is at most that of the second. -/
def Before (s s' : Threads) : Prop := ∀ (c : Column), c.Counts → ∀ i, c.value (s i) ≤ c.value (s' i)

theorem Before.trans {s s' s'' : Threads} (h : s.Before s') (h' : s'.Before s'') : s.Before s'' :=
  fun c hc i => (h c hc i).trans (h' c hc i)

theorem step_undecided (k : SetVerdict) (t : WorkerThread) (a : AtomicStep) :
    (t.step k a).queue.undecided = t.queue.undecided := by
  cases a with
  | receive nfa => rfl
  | submit i v =>
    rcases WorkerThread.step_submit k t i v with hs | ⟨pkt, -, hs⟩
    · rw [hs]
    · rw [hs]
      unfold NFQueue.submit
      split <;> rfl

theorem value_step (k : SetVerdict) {c : Column} (hc : c.Counts) (x : Counters) (a : CounterStep) :
    c.value x ≤ c.value (x.step k a) := by
  cases a with
  | queue a =>
    obtain ⟨hreceived, hverdicted⟩ := WorkerThread.step_mono k x.thread a
    cases c with
    | received => exact hreceived
    | verdicted => exact hverdicted
    | undecided => exact (step_undecided k x.thread a).ge
    | dropped_at_cap => exact Nat.le_refl _
    | flows => exact hc.elim
    | blocked => exact hc.elim
  | undecided => cases c <;> first | exact hc.elim | exact Nat.le_refl _ | exact Nat.le_succ _
  | flows n => cases c <;> first | exact hc.elim | exact Nat.le_refl _
  | blocked n => cases c <;> first | exact hc.elim | exact Nat.le_refl _
  | dropped_at_cap => cases c <;> first | exact hc.elim | exact Nat.le_refl _ | exact Nat.le_succ _

theorem before_step (k : SetVerdict) (s : Threads) (x : Nat × CounterStep) : s.Before (s.step k x) := by
  intro c hc i
  unfold step
  by_cases hi : i = x.1
  · subst hi
    rw [Function.update_self]
    exact value_step k hc _ _
  · rw [Function.update_of_ne hi]

theorem before_run (k : SetVerdict) (steps : Schedule) : ∀ s : Threads, s.Before (s.run k steps) := by
  induction steps with
  | nil => exact fun _ _ _ _ => Nat.le_refl _
  | cons x steps ih => exact fun s => (before_step k s x).trans (ih _)

theorem run_append (k : SetVerdict) (s : Threads) (steps more : Schedule) :
    s.run k (steps ++ more) = (s.run k steps).run k more := List.foldl_append

/-! ## When a load happens -/

/-- All that happens while one worker's counters are loaded. -/
def Gaps.schedule (g : Gaps) : Schedule :=
  g.flows ++ (g.blocked ++ (g.dropped_at_cap ++ (g.received ++ (g.verdicted ++
    (g.outstanding_received ++ (g.outstanding_verdicted ++ g.undecided))))))

/-- All that happens while a line is taken. -/
def schedule (workers : List Gaps) : Schedule := workers.flatMap Gaps.schedule

/-- A state of worker `i` while `steps` happen. -/
def During (k : SetVerdict) (s : Threads) (steps : Schedule) (i : Nat) (x : Counters) : Prop :=
  ∃ p, p <+: steps ∧ x = s.run k p i

section During

variable {k : SetVerdict} {s : Threads} {p steps rest : Schedule} {i : Nat} {x : Counters}

theorem During.last : During k s p i (s.run k p i) := ⟨p, List.prefix_refl p, rfl⟩

theorem During.before (h : During k s p i x) : During k s (p ++ rest) i x := by
  obtain ⟨q, hq, hx⟩ := h
  exact ⟨q, hq.trans (List.prefix_append p rest), hx⟩

theorem During.after (h : During k (s.run k p) rest i x) : During k s (p ++ rest) i x := by
  obtain ⟨q, hq, rfl⟩ := h
  exact ⟨p ++ q, (List.prefix_append_right_inj p).mpr hq, by rw [run_append]⟩

/-- A counter that is loaded is between its values before and after. -/
theorem During.value (h : During k s steps i x) {c : Column} (hc : c.Counts) :
    c.value (s i) ≤ c.value x ∧ c.value x ≤ c.value (s.run k steps i) := by
  obtain ⟨q, ⟨rest, rfl⟩, rfl⟩ := h
  refine ⟨before_run k q s c hc i, ?_⟩
  rw [run_append]
  exact before_run k rest _ c hc i

end During

/-- Each load of a turn happens at some time during it. -/
theorem load_during (k : SetVerdict) (i : Nat) (gaps : Gaps) (s : Threads) :
    (load k i gaps s).2 = s.run k gaps.schedule ∧
    (∀ c : Column, During k s gaps.schedule i (c.loaded (load k i gaps s).1)) ∧
    During k s gaps.schedule i (load k i gaps s).1.outstanding_received ∧
    During k s gaps.schedule i (load k i gaps s).1.outstanding_verdicted := by
  refine ⟨?_, fun c => ?_, ?_, ?_⟩
  · simp only [load, Gaps.schedule, run_append]
  · cases c with
    | flows => exact .before .last
    | blocked => exact .after (.before .last)
    | dropped_at_cap => exact .after (.after (.before .last))
    | received => exact .after (.after (.after (.before .last)))
    | verdicted => exact .after (.after (.after (.after (.before .last))))
    | undecided => exact .after (.after (.after (.after (.after (.after (.after .last))))))
  · exact .after (.after (.after (.after (.after (.before .last)))))
  · exact .after (.after (.after (.after (.after (.after (.before .last))))))

/-- What holds of every load of a line, one turn of the loop after the other. -/
theorem loadAll_during (k : SetVerdict) (workers : List Gaps) : ∀ (i : Nat) (s : Threads),
    let ls := (loadAll k i workers s).1
    (loadAll k i workers s).2 = s.run k (schedule workers) ∧ ls.length = workers.length ∧
    ∀ (j : Nat) (l : Loads), ls[j]? = some l →
      (∀ c : Column, During k s (schedule workers) (i + j) (c.loaded l)) ∧
      During k s (schedule workers) (i + j) l.outstanding_received ∧
      During k s (schedule workers) (i + j) l.outstanding_verdicted := by
  induction workers with
  | nil => exact fun i s => ⟨rfl, rfl, fun j l hl => by cases hl⟩
  | cons gaps workers ih =>
    intro i s
    obtain ⟨hthreads, hcolumns, hreceived, hverdicted⟩ := load_during k i gaps s
    obtain ⟨hend, hlength, hrest⟩ := ih (i + 1) (load k i gaps s).2
    rw [hthreads] at hend hrest
    have hschedule : schedule (gaps :: workers) = gaps.schedule ++ schedule workers := rfl
    refine ⟨?_, congrArg (· + 1) hlength, fun j l hl => ?_⟩
    · rw [hschedule, run_append]
      show (loadAll k (i + 1) workers (load k i gaps s).2).2 = _
      rw [hthreads]
      exact hend
    · cases j with
      | zero =>
        cases hl
        exact ⟨fun c => (hcolumns c).before, hreceived.before, hverdicted.before⟩
      | succ j =>
        have hl' : (loadAll k (i + 1) workers (s.run k gaps.schedule)).1[j]? = some l := by
          rw [← hthreads]
          exact hl
        obtain ⟨hc, hr, hv⟩ := hrest j l hl'
        rw [Nat.add_right_comm i 1 j] at hc hr hv
        exact ⟨fun c => (hc c).after, hr.after, hv.after⟩

/-! ## Sums over the workers -/

/-- A counter over `n` workers from worker `i` on. -/
def total (f : Counters → Nat) (s : Threads) : Nat → Nat → Nat
  | _, 0 => 0
  | i, n + 1 => f (s i) + total f s (i + 1) n

theorem total_mono {f g : Counters → Nat} {s s' : Threads} (h : ∀ i, f (s i) ≤ g (s' i)) (n : Nat) :
    ∀ i, s.total f i n ≤ s'.total g i n := by
  induction n with
  | zero => exact fun _ => Nat.le_refl _
  | succ n ih => exact fun i => Nat.add_le_add (h i) (ih (i + 1))

/-- A sum of one state of each worker is between the sums before and after. -/
theorem total_between {k : SetVerdict} {s : Threads} {steps : Schedule} {c : Column} (hc : c.Counts)
    (xs : List Counters) : ∀ i, (∀ (j : Nat) (x : Counters), xs[j]? = some x →
      During k s steps (i + j) x) →
    s.total c.value i xs.length ≤ (xs.map c.value).sum ∧
      (xs.map c.value).sum ≤ (s.run k steps).total c.value i xs.length := by
  induction xs with
  | nil => exact fun i _ => ⟨Nat.le_refl _, Nat.le_refl _⟩
  | cons x xs ih =>
    intro i h
    obtain ⟨hlow, hhigh⟩ := (h 0 x rfl).value hc
    obtain ⟨hlows, hhighs⟩ := ih (i + 1) (fun j y hy => by
      rw [Nat.add_right_comm]
      exact h (j + 1) y hy)
    rw [List.map_cons, List.sum_cons]
    exact ⟨Nat.add_le_add hlow hlows, Nat.add_le_add hhigh hhighs⟩

/-! ## No thread verdicts more than it received -/

theorem covered_run (k : SetVerdict) (steps : Schedule) : ∀ {s : Threads},
    (∀ i, (s i).thread.Covered) → ∀ i, (s.run k steps i).thread.Covered := by
  induction steps with
  | nil => exact fun h => h
  | cons x steps ih =>
    intro s h
    refine ih (s := s.step k x) (fun i => ?_)
    unfold step
    by_cases hi : i = x.1
    · rw [hi, Function.update_self]
      cases x.2 with
      | queue a => exact WorkerThread.step_covered a (h x.1)
      | _ => exact h x.1
    · rw [Function.update_of_ne hi]
      exact h i

theorem total_le_of_covered {s : Threads} (h : ∀ i, (s i).thread.Covered) (n : Nat) :
    s.total Column.verdicted.value 0 n ≤ s.total Column.received.value 0 n :=
  total_mono (fun i => Nat.le_of_add_right_le (h i)) n 0

/-! ## The law -/

/-- What a line shows: each column is a sum of one value of each worker while
the line was taken, and `outstanding` is a difference of two such sums. -/
theorem stats_line_shows (k : SetVerdict) (workers : List Gaps) (s : Threads) :
    let line := (stats_line k workers s).1
    (stats_line k workers s).2 = s.run k (schedule workers) ∧
    (∀ c : Column, ∃ xs : List Counters, xs.length = workers.length ∧
      c.shown line = UInt64.ofNat (xs.map c.value).sum ∧
      ∀ (i : Nat) (x : Counters), xs[i]? = some x → During k s (schedule workers) i x) ∧
    ∃ rs vs : List Counters, rs.length = workers.length ∧ vs.length = workers.length ∧
      line.outstanding = UInt64.ofNat (rs.map Column.received.value).sum -
        UInt64.ofNat (vs.map Column.verdicted.value).sum ∧
      (∀ (i : Nat) (x : Counters), rs[i]? = some x → During k s (schedule workers) i x) ∧
      ∀ (i : Nat) (x : Counters), vs[i]? = some x → During k s (schedule workers) i x := by
  intro line
  obtain ⟨hend, hlength, hloads⟩ := loadAll_during k workers 0 s
  have hat : ∀ (f : Loads → Counters), (∀ (i : Nat) (l : Loads),
      (loadAll k 0 workers s).1[i]? = some l → During k s (schedule workers) (0 + i) (f l)) →
      ∀ (i : Nat) (x : Counters), ((loadAll k 0 workers s).1.map f)[i]? = some x →
        During k s (schedule workers) i x := by
    intro f hf i x hx
    rw [List.getElem?_map] at hx
    obtain ⟨l, hl, rfl⟩ := Option.map_eq_some_iff.mp hx
    have hduring := hf i l hl
    rwa [Nat.zero_add] at hduring
  refine ⟨hend, fun c => ⟨(loadAll k 0 workers s).1.map c.loaded, ?_, ?_, ?_⟩,
    (loadAll k 0 workers s).1.map (·.outstanding_received),
    (loadAll k 0 workers s).1.map (·.outstanding_verdicted), ?_, ?_, ?_, ?_, ?_⟩
  · rw [List.length_map, hlength]
  · have hshown := c.shown_foldl (loadAll k 0 workers s).1 {}
    rw [c.shown_start, UInt64.zero_add] at hshown
    exact hshown
  · exact hat c.loaded (fun i l hl => (hloads i l hl).1 c)
  · rw [List.length_map, hlength]
  · rw [List.length_map, hlength]
  · exact (outstanding_foldl (loadAll k 0 workers s).1 {}).trans (UInt64.zero_add _)
  · exact hat _ (fun i l hl => (hloads i l hl).2.1)
  · exact hat _ (fun i l hl => (hloads i l hl).2.2)

/-- A column that counts lies between the sums before and after its line. -/
theorem shown_between (k : SetVerdict) (workers : List Gaps) (s : Threads) {c : Column} (hc : c.Counts) :
    ∃ r, c.shown (stats_line k workers s).1 = UInt64.ofNat r ∧
      s.total c.value 0 workers.length ≤ r ∧
      r ≤ (stats_line k workers s).2.total c.value 0 workers.length := by
  obtain ⟨hend, hshows, -⟩ := stats_line_shows k workers s
  obtain ⟨xs, hxs, hshown, hduring⟩ := hshows c
  obtain ⟨hlow, hhigh⟩ := total_between hc xs 0 (fun j x hx => by
    rw [Nat.zero_add]
    exact hduring j x hx)
  rw [hxs] at hlow hhigh
  rw [hend]
  exact ⟨_, hshown, hlow, hhigh⟩

/-- So do both sums that `outstanding` is the difference of. -/
theorem outstanding_between (k : SetVerdict) (workers : List Gaps) (s : Threads) :
    let line := stats_line k workers s
    let n := workers.length
    ∃ r v, s.total Column.received.value 0 n ≤ r ∧ r ≤ line.2.total Column.received.value 0 n ∧
      s.total Column.verdicted.value 0 n ≤ v ∧ v ≤ line.2.total Column.verdicted.value 0 n ∧
      line.1.outstanding = UInt64.ofNat r - UInt64.ofNat v := by
  intro line n
  obtain ⟨hend, -, rs, vs, hrs, hvs, hout, hduring_r, hduring_v⟩ := stats_line_shows k workers s
  obtain ⟨hrlow, hrhigh⟩ := total_between (c := .received) trivial rs 0 (fun j x hx => by
    rw [Nat.zero_add]
    exact hduring_r j x hx)
  obtain ⟨hvlow, hvhigh⟩ := total_between (c := .verdicted) trivial vs 0 (fun j x hx => by
    rw [Nat.zero_add]
    exact hduring_v j x hx)
  rw [hrs, ← hend] at hrhigh
  rw [hvs, ← hend] at hvhigh
  rw [hrs] at hrlow
  rw [hvs] at hvlow
  exact ⟨_, _, hrlow, hrhigh, hvlow, hvhigh, hout⟩

/-- Lines that are taken while the workers go on, as long as no counter comes
to 2^64 over all workers. What a column counts never goes back from one line
to a later one, and is between what was true before the first load of its line
and after the last, the verdicts never above what was received by then. A
gauge shows, of each worker, a value that it had while the line was taken. The
packets outstanding are a difference, which wraps, of what was received and
verdicted while the line was taken; when nothing moved it is that of the
columns. -/
theorem lines_never_go_back (k : SetVerdict) (before between : Schedule) {first second : List Gaps}
    (hsame : first.length = second.length)
    (hfits : ∀ c : Column, c.Counts →
      (stats_line k second ((stats_line k first (run k (fun _ => {}) before)).2.run k between)).2.total
        c.value 0 second.length < 2 ^ 64) :
    let s := run k (fun _ => {}) before
    let one := stats_line k first s
    let two := stats_line k second (one.2.run k between)
    let n := first.length
    (∀ c : Column, c.Counts → c.shown one.1 ≤ c.shown two.1 ∧
      s.total c.value 0 n ≤ (c.shown one.1).toNat ∧
      (c.shown one.1).toNat ≤ one.2.total c.value 0 n) ∧
    one.1.verdicts.toNat ≤ one.2.total Column.received.value 0 n ∧
    (∀ c : Column, ∃ xs : List Counters, xs.length = n ∧
      c.shown one.1 = UInt64.ofNat (xs.map c.value).sum ∧
      ∀ (i : Nat) (x : Counters), xs[i]? = some x → During k s (schedule first) i x) ∧
    (∃ r v, s.total Column.received.value 0 n ≤ r ∧ r ≤ one.2.total Column.received.value 0 n ∧
      s.total Column.verdicted.value 0 n ≤ v ∧ v ≤ one.2.total Column.verdicted.value 0 n ∧
      one.1.outstanding = UInt64.ofNat r - UInt64.ofNat v) ∧
    (s.total Column.received.value 0 n = one.2.total Column.received.value 0 n →
      s.total Column.verdicted.value 0 n = one.2.total Column.verdicted.value 0 n →
      one.1.outstanding = one.1.rx - one.1.verdicts) := by
  intro s one two n
  obtain ⟨hend, hshows, -⟩ := stats_line_shows k first s
  have hn : second.length = n := hsame.symm
  rw [hn] at hfits
  have hcovered : ∀ i, (one.2 i).thread.Covered := by
    change one.2 = _ at hend
    rw [hend]
    exact covered_run k _ (covered_run k before (fun _ => Nat.le_refl 0))
  -- the sum of the first line is at most that of the second, which fits
  have hcolumn : ∀ c : Column, c.Counts → ∃ r, c.shown one.1 = UInt64.ofNat r ∧
      s.total c.value 0 n ≤ r ∧ r ≤ one.2.total c.value 0 n ∧
      (c.shown one.1).toNat = r ∧ c.shown one.1 ≤ c.shown two.1 := by
    intro c hc
    obtain ⟨r, hone, hlow, hhigh⟩ := shown_between k first s hc
    obtain ⟨r', htwo, hlow', hhigh'⟩ := shown_between k second (one.2.run k between) hc
    rw [hn] at hlow' hhigh'
    have hle : r ≤ r' := (hhigh.trans (total_mono (before_run k between one.2 c hc) n 0)).trans hlow'
    have hlt : r' < 2 ^ 64 := Nat.lt_of_le_of_lt hhigh' (hfits c hc)
    have hr : (UInt64.ofNat r).toNat = r := UInt64.toNat_ofNat_of_lt' (Nat.lt_of_le_of_lt hle hlt)
    have hr' : (UInt64.ofNat r').toNat = r' := UInt64.toNat_ofNat_of_lt' hlt
    refine ⟨r, hone, hlow, hhigh, by rw [hone, hr], ?_⟩
    rw [UInt64.le_iff_toNat_le, hone, htwo, hr, hr']
    exact hle
  have hcounts : ∀ c : Column, c.Counts → c.shown one.1 ≤ c.shown two.1 ∧
      s.total c.value 0 n ≤ (c.shown one.1).toNat ∧
      (c.shown one.1).toNat ≤ one.2.total c.value 0 n := by
    intro c hc
    obtain ⟨r, -, hlow, hhigh, hr, hle⟩ := hcolumn c hc
    rw [hr]
    exact ⟨hle, hlow, hhigh⟩
  obtain ⟨r, v, hrlow, hrhigh, hvlow, hvhigh, hout⟩ := outstanding_between k first s
  refine ⟨hcounts, ?_, hshows, ⟨r, v, hrlow, hrhigh, hvlow, hvhigh, hout⟩, fun hr hv => ?_⟩
  · exact (hcounts .verdicted trivial).2.2.trans (total_le_of_covered hcovered n)
  · obtain ⟨r', hrx, hlow, hhigh, -⟩ := hcolumn .received trivial
    obtain ⟨v', hverdicts, hlow', hhigh', -⟩ := hcolumn .verdicted trivial
    have hsame_r : r' = r := Nat.le_antisymm (hhigh.trans (hr.ge.trans hrlow))
      (hrhigh.trans (hr.ge.trans hlow))
    have hsame_v : v' = v := Nat.le_antisymm (hhigh'.trans (hv.ge.trans hvlow))
      (hvhigh.trans (hv.ge.trans hlow'))
    have hrx' : one.1.rx = UInt64.ofNat r := hsame_r ▸ hrx
    have hverdicts' : one.1.verdicts = UInt64.ofNat v := hsame_v ▸ hverdicts
    rw [hrx', hverdicts']
    exact hout

/-- Two lines of one worker, which receives a packet while the first line is
taken and answers for it before the second. -/
theorem a_packet_between_two_lines_is_shown :
    let s := run (fun _ _ _ => 0) (fun _ => {}) [(0, .queue (.receive ⟨some 1, some [0x45]⟩))]
    let one := stats_line (fun _ _ _ => 0)
      [{ verdicted := [(0, .queue (.receive ⟨some 2, some [0x45]⟩))] }] s
    let two := stats_line (fun _ _ _ => 0) [{}]
      (one.2.run (fun _ _ _ => 0) [(0, .queue (.submit 0 .ALLOW))])
    one.1.rx ≤ two.1.rx ∧ one.1.verdicts ≤ two.1.verdicts := by
  obtain ⟨hcounts, -⟩ := @lines_never_go_back (fun _ _ _ => 0)
    [(0, .queue (.receive ⟨some 1, some [0x45]⟩))] [(0, .queue (.submit 0 .ALLOW))]
    [{ verdicted := [(0, .queue (.receive ⟨some 2, some [0x45]⟩))] }] [{}] rfl
    (fun c hc => by cases c <;> first | exact hc.elim | decide)
  exact ⟨(hcounts .received trivial).1, (hcounts .verdicted trivial).1⟩

end Threads

end packet_inspector
