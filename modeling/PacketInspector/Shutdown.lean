-- How the process winds down: which threads run while main is where it is,
-- that nothing is used after it is given back, that a written stop fd is
-- heeded by every worker.
import PacketInspector.Program
import PacketInspector.Traffic

open wire resources runs

namespace packet_inspector

variable {R P : Type} {env : Setting R P} {s s' : Process R P}

/-! ## The order of main -/

/-- Main is done with the workers: it has written the stop fd itself. -/
def At.Winding : At → Prop
  | .clearing _ => True
  | .unsetting => True
  | .closing => True
  | .returned => True
  | _ => False

namespace Process

def Started (t : ThreadState) : Prop := t = .running ∨ t = .ended

def Resting (t : ThreadState) : Prop := t = .none ∨ t = .joined

/-- The thread and the object of worker `i` while main is at a place. -/
def Fits : At → Nat → ThreadState → Bool → Prop
  | .building _, _, t, alive => t = .none ∧ alive = true
  | .starting j, i, t, alive => alive = true ∧ (i < j → Started t) ∧ (j ≤ i → t = .none)
  | .reporting, _, t, alive => alive = true ∧ Started t
  | .joining j, i, t, alive => alive = true ∧ (i < j → t = .joined) ∧ (j ≤ i → Started t)
  | .joiningStats, _, t, alive => alive = true ∧ t = .joined
  | .judging, _, t, alive => alive = true ∧ t = .joined
  | .stopping, _, _, alive => alive = true
  | .clearing j, i, t, alive => (i < j → alive = false ∧ Resting t) ∧ (j ≤ i → alive = true)
  | .unsetting, _, t, alive => alive = false ∧ Resting t
  | .closing, _, t, alive => alive = false ∧ Resting t
  | .returned, _, t, alive => alive = false ∧ Resting t

/-- The counters thread while main is at a place. -/
def StatsFits : At → ThreadState → Prop
  | .building _, t => t = .none
  | .starting _, t => t = .none
  | .reporting, t => t = .none
  | .joining _, t => t ≠ .joined
  | .joiningStats, t => t ≠ .joined
  | _, t => Resting t

structure Orderly (s : Process R P) : Prop where
  count : ∀ i, s.pc = .building i → s.members.length = i
  fits : ∀ i m, s.members[i]? = some m → Fits s.pc i m.thread m.alive
  past : ∀ (i : Nat) (m : Member R P), s.members[i]? = some m → m.polled = true → m.thread = .running
  stats : StatsFits s.pc s.stats
  known : s.g_stop_fd = true ↔ s.pc ≠ .closing ∧ s.pc ≠ .returned
  live : ∀ t ∈ s.pending, s.Live t ∧ (t = .main → s.g_stop_fd = true)
  written : s.pc.Winding → 0 < s.stop_counter

theorem eventfd_write_pos (counter : Nat) : 0 < eventfd_write counter := by
  unfold eventfd_write kEventfdMax
  split <;> omega

theorem eventfd_write_le (counter : Nat) : counter ≤ eventfd_write counter := by
  unfold eventfd_write
  split <;> omega

theorem orderly_start : Orderly ({} : Process R P) where
  count := fun i hi => by cases hi; rfl
  fits := fun i m hm => by simp at hm
  past := fun i m hm => by simp at hm
  stats := rfl
  known := by simp
  live := fun t ht => by cases ht
  written := fun h => h.elim

section Step

attribute [local grind] catching writeStop on_signal setMember Started Resting

theorem step_count (hs : Step env s s') (h : Orderly s) :
    ∀ i, s'.pc = .building i → s'.members.length = i := by
  have hcount := h.count
  cases hs <;> grind

theorem StatsFits.ended {pc : At} (h : StatsFits pc .running) : StatsFits pc .ended := by
  cases pc <;> simp_all [StatsFits, Resting]

theorem step_stats (hs : Step env s s') (h : Orderly s) : StatsFits s'.pc s'.stats := by
  have hstats := h.stats
  cases hs with
  | quieted _ hrunning => exact StatsFits.ended (hrunning ▸ hstats)
  | _ => grind [StatsFits, Throws]

theorem step_known (hs : Step env s s') (h : Orderly s) :
    s'.g_stop_fd = true ↔ s'.pc ≠ .closing ∧ s'.pc ≠ .returned := by
  have hknown := h.known
  cases hs <;> grind [Throws]

theorem step_written (hs : Step env s s') (h : Orderly s) : s'.pc.Winding → 0 < s'.stop_counter := by
  have hwritten := h.written
  have hknown := h.known
  cases hs <;> grind [At.Winding, eventfd_write_pos]

/-- A thread may end wherever it may run. -/
theorem Fits.ended {pc : At} {i : Nat} {alive : Bool} (h : Fits pc i .running alive) :
    Fits pc i .ended alive := by
  cases pc <;> simp_all [Fits, Started, Resting]

/-- A thread that does not run is joined, and its object destroyed. -/
theorem resting_of_destroyed {t : ThreadState} (h : t ≠ .running) :
    Resting (if t = .ended then .joined else t) := by
  cases t with
  | running => exact absurd rfl h
  | none => exact .inl (by simp)
  | ended => exact .inr (by simp)
  | joined => exact .inr (by simp)

/-- What its own thread does to a worker fits where main is. -/
theorem fits_goes (h : Orderly s) {i : Nat} {m m' : Member R P} (hm : s.members[i]? = some m)
    (hrunning : m.thread = .running) (hgoes : m.Goes m') :
    ∀ j x, (s.setMember i m').members[j]? = some x → Fits s.pc j x.thread x.alive := by
  have hfits := h.fits
  have hended : Fits s.pc i .ended m.alive := Fits.ended (hrunning ▸ hfits i m hm)
  obtain ⟨halive, hthread, -⟩ := hgoes
  grind

theorem step_fits (hs : Step env s s') (h : Orderly s) :
    ∀ i m, s'.members[i]? = some m → Fits s'.pc i m.thread m.alive := by
  have hfits := h.fits
  have hcount := h.count
  cases hs with
  | polled i m poll now hfree hm hrunning =>
    exact fits_goes h hm hrunning (m.poll_goes _ _ _ poll now)
  | received i m recv now hfree hm hrunning =>
    exact fits_goes h hm hrunning (m.recv_goes _ _ recv now)
  | destroyed i m hmain hpc hm hthread =>
    have hresting := resting_of_destroyed hthread
    grind [Fits]
  | _ => grind [Fits, Throws, Setting.build]

/-- Only a thread that runs is past its `poll`. -/
theorem step_past (hs : Step env s s') (h : Orderly s) : ∀ (i : Nat) (m : Member R P),
    s'.members[i]? = some m → m.polled = true → m.thread = .running := by
  have hpast := h.past
  cases hs with
  | polled i m answer now hfree hm hrunning =>
    have hafter : (m.poll env.world (env.nfq_set_verdict i) env.stop_fd answer now).polled = true →
        (m.poll env.world (env.nfq_set_verdict i) env.stop_fd answer now).thread = .running := by
      unfold Member.poll
      split
      · exact fun hpolled => absurd hpolled (by simp [Member.heed])
      · exact fun _ => hrunning
    grind
  | received i m answer now =>
    have hafter : (m.recv env.world (env.nfq_set_verdict i) answer now).polled = false := rfl
    grind
  | _ => grind [Setting.build]

/-- A thread lives on while it is not the one that ends. -/
theorem Live.mono {t : Thread} (h : s.Live t) (hmain : t = .main → s'.pc ≠ .returned)
    (hworker : ∀ i m, t = .worker i → s.members[i]? = some m → m.thread = .running →
      ∃ m', s'.members[i]? = some m' ∧ m'.thread = .running)
    (hstats : t = .stats → s.stats = .running → s'.stats = .running) : s'.Live t := by
  cases t with
  | main => exact hmain rfl
  | worker i =>
    obtain ⟨m, hm, hrunning⟩ := h
    exact hworker i m rfl hm hrunning
  | stats => exact hstats rfl h

theorem step_live (hs : Step env s s') (h : Orderly s) :
    ∀ t ∈ s'.pending, s'.Live t ∧ (t = .main → s'.g_stop_fd = true) := by
  have hlive := h.live
  have hfits := h.fits
  have hcount := h.count
  have hstats := h.stats
  have hknown := step_known hs h
  intro t ht
  cases hs with
  | signalled t' hhandlers ht' hg =>
    have hboth : s.Live t ∧ (t = .main → s.g_stop_fd = true) := by
      rcases List.mem_cons.mp ht with rfl | ht
      · exact ⟨ht', fun _ => hg⟩
      · exact hlive t ht
    exact ⟨Live.mono hboth.1 (by grind) (by grind) (by grind), hboth.2⟩
  | handled t' ht' =>
    obtain ⟨ht, hmain⟩ := hlive t (List.mem_of_mem_erase ht)
    exact ⟨Live.mono ht (by grind) (by grind) (by grind), hmain⟩
  | _ => refine ⟨Live.mono (s := s) ?_ ?_ ?_ ?_, ?_⟩ <;> grind [Throws, Fits, Setting.build]

theorem step_orderly (hs : Step env s s') (h : Orderly s) : Orderly s' where
  count := step_count hs h
  fits := step_fits hs h
  past := step_past hs h
  stats := step_stats hs h
  known := step_known hs h
  live := step_live hs h
  written := step_written hs h

end Step

/-- The states that the process may be in, in any interleaving. -/
def Reachable (env : Setting R P) (s : Process R P) : Prop :=
  Relation.ReflTransGen (Step env) {} s

theorem Reachable.orderly (h : Reachable env s) : Orderly s :=
  path_keeps (I := Orderly) (fun _ _ hs hx => step_orderly hs hx) h orderly_start

/-- A thread that is not joined has its object, and main has not returned. -/
theorem Fits.of_started {pc : At} {i : Nat} {t : ThreadState} {alive : Bool}
    (h : Fits pc i t alive) (ht : Started t) : alive = true ∧ pc ≠ .returned := by
  rcases ht with rfl | rfl
  · cases pc <;> grind [Fits, Resting, Started]
  · cases pc <;> grind [Fits, Resting, Started]

/-- The counters thread runs only while main joins. -/
theorem StatsFits.of_started {pc : At} {t : ThreadState} (h : StatsFits pc t) (ht : Started t) :
    (∃ i, pc = .joining i) ∨ pc = .joiningStats := by
  rcases ht with rfl | rfl
  · cases pc <;> simp_all [StatsFits, Resting]
  · cases pc <;> simp_all [StatsFits, Resting]

/-- While counters are read, by their thread or by main in the end, all workers
have their objects. -/
theorem Orderly.alive (h : Orderly s) (hread : s.pc = .judging ∨ Started s.stats) {i : Nat}
    {m : Member R P} (hm : s.members[i]? = some m) : m.alive = true := by
  have hfit := h.fits i m hm
  rcases hread with hpc | hstarted
  · rw [hpc] at hfit
    exact hfit.1
  · rcases h.stats.of_started hstarted with ⟨j, hpc⟩ | hpc
    · rw [hpc] at hfit
      exact hfit.1
    · rw [hpc] at hfit
      exact hfit.1

/-- A handler that is to write the stop fd runs in a thread for which main
keeps it open. -/
theorem Orderly.pc_of_pending (h : Orderly s) {t : Thread} (ht : t ∈ s.pending) :
    s.pc ≠ .returned := by
  obtain ⟨hlive, -⟩ := h.live t ht
  cases t with
  | main => exact hlive
  | worker i =>
    obtain ⟨m, hm, hrunning⟩ := hlive
    exact ((h.fits i m hm).of_started (.inl hrunning)).2
  | stats =>
    rcases h.stats.of_started (.inl hlive) with ⟨i, hpc⟩ | hpc
    · simp [hpc]
    · simp [hpc]

/-! ## What the process holds -/

/-- What the process holds: the stop fd up to the end, the handle and the
queue of each worker object, and the threads that are not joined. -/
def Holds (s : Process R P) : Resource → Prop
  | .stop_fd => s.pc ≠ .returned
  | .handle i => ∃ m, s.members[i]? = some m ∧ m.alive = true
  | .queue i => ∃ m, s.members[i]? = some m ∧ m.alive = true
  | .thread i => ∃ m, s.members[i]? = some m ∧ Started m.thread
  | .stats => Started s.stats

/-- The log passes the check, and what it leaves is what the process holds. -/
def Held (s : Process R P) : Prop :=
  ∃ held, track Resource.whole ∅ s.log = some held ∧ ∀ x, x ∈ held ↔ s.Holds x

theorem held_start : Held ({} : Process R P) := by
  refine ⟨{.stop_fd}, ?_, ?_⟩
  · show track Resource.whole ∅ [.acquire .stop_fd] = some {.stop_fd}
    rw [track_acquire (by simp) (by simp [Resource.whole]), track_nil]
    rfl
  · intro x
    cases x <;> simp [Holds, Started]

/-- A step that logs some uses and leaves held what it should. -/
theorem Held.logs {uses : List (Use Resource)} (h : Held s) (hlog : s'.log = s.log ++ uses)
    (hstep : ∀ held, (∀ x, x ∈ held ↔ s.Holds x) →
      ∃ held', track Resource.whole held uses = some held' ∧ ∀ x, x ∈ held' ↔ s'.Holds x) :
    Held s' := by
  obtain ⟨held, htrack, hheld⟩ := h
  obtain ⟨held', htrack', hheld'⟩ := hstep held hheld
  exact ⟨held', by rw [hlog, track_trans htrack, htrack'], hheld'⟩

/-- A step that only uses what is held. -/
theorem Held.uses (h : Held s) (ks : List Resource) (hlog : s'.log = s.log ++ ks.map .use)
    (hks : ∀ k ∈ ks, s.Holds k) (hsame : ∀ x, s'.Holds x ↔ s.Holds x) : Held s' := by
  refine h.logs hlog (fun held hheld => ⟨held, ?_, fun x => (hheld x).trans (hsame x).symm⟩)
  exact track_uses (fun k hk => (hheld k).mpr (hks k hk))

/-- A step that logs nothing. -/
theorem Held.quiet (h : Held s) (hlog : s'.log = s.log) (hsame : ∀ x, s'.Holds x ↔ s.Holds x) :
    Held s' :=
  h.uses [] (by simpa using hlog) (by simp) hsame

theorem Held.acquire {k : Resource} (h : Held s) (hlog : s'.log = s.log ++ [.acquire k])
    (hnew : ¬ s.Holds k) (hwhole : ∀ whole, k.whole = some whole → s.Holds whole)
    (hsame : ∀ x, s'.Holds x ↔ x = k ∨ s.Holds x) : Held s' := by
  refine h.logs hlog (fun held hheld => ⟨insert k held, ?_, fun x => ?_⟩)
  · exact track_acquire (fun hk => hnew ((hheld k).mp hk))
      (fun whole hw => (hheld whole).mpr (hwhole whole hw))
  · rw [Finset.mem_insert, hheld, hsame]

theorem Held.release {k : Resource} (h : Held s) (hlog : s'.log = s.log ++ [.release k])
    (hold : s.Holds k) (hpart : ∀ part, part.whole = some k → ¬ s.Holds part)
    (hsame : ∀ x, s'.Holds x ↔ x ≠ k ∧ s.Holds x) : Held s' := by
  refine h.logs hlog (fun held hheld => ⟨held.erase k, ?_, fun x => ?_⟩)
  · exact track_release ((hheld k).mpr hold)
      (fun part hp hw => hpart part hw ((hheld part).mp hp))
  · rw [Finset.mem_erase, hheld, hsame]

/-- What its own thread does to a worker uses what the process holds. -/
theorem Held.goes (h : Held s) (ho : Orderly s) {i : Nat} {m m' : Member R P}
    (hm : s.members[i]? = some m) (hrunning : m.thread = .running) (hgoes : m.Goes m')
    (ks : List Resource) (hlog : s'.log = s.log ++ ks.map .use)
    (hks : ∀ k ∈ ks, k = .stop_fd ∨ k = .handle i ∨ k = .queue i)
    (hset : s'.members = s.members.set i m') (hsame : s'.pc = s.pc ∧ s'.stats = s.stats) :
    Held s' := by
  obtain ⟨halive, hpc⟩ := (ho.fits i m hm).of_started (.inl hrunning)
  obtain ⟨halive', hthread, -⟩ := hgoes
  refine h.uses ks hlog (fun k hk => ?_) (fun x => ?_)
  · rcases hks k hk with rfl | rfl | rfl
    · exact hpc
    · exact ⟨m, hm, halive⟩
    · exact ⟨m, hm, halive⟩
  · cases x <;> grind [Holds, Started]

/-- What the constructor of a worker leaves of what was held. -/
theorem track_constructor (env : Setting R P) {i : Nat} {held : Finset Resource} (a : SetupAnswers)
    (h : Untouched i held) : track Resource.whole held (usesOf i a (env.create i a).1) =
      match (env.create i a).2 with
      | .ok _ => some (insert (.queue i) (insert (.handle i) held))
      | .error _ => some held :=
  track_create h _ _ _ a

/-- Nothing is held of a worker that is not built. -/
theorem untouched {held : Finset Resource} (hheld : ∀ x, x ∈ held ↔ s.Holds x) :
    Untouched s.members.length held := by
  refine ⟨?_, ?_, ?_⟩
  all_goals
    rw [hheld]
    rintro ⟨m, hm, -⟩
    simp at hm

theorem holds_handles (h : ∀ (i : Nat) (m : Member R P), s.members[i]? = some m → m.alive = true) :
    ∀ k ∈ (List.range s.members.length).map Resource.handle, s.Holds k := by
  intro k hk
  obtain ⟨i, hi, rfl⟩ := List.mem_map.mp hk
  have hlt := List.mem_range.mp hi
  exact ⟨s.members[i], List.getElem?_eq_getElem hlt, h i _ (List.getElem?_eq_getElem hlt)⟩

section Held

attribute [local grind] catching writeStop on_signal setMember Started Resting Holds

theorem step_held (hs : Step env s s') (ho : Orderly s) (h : Held s) : Held s' := by
  have hfits := ho.fits
  have hcount := ho.count
  have hstats := ho.stats
  have hknown := ho.known
  cases hs with
  | built i a hmain hpc hi hok =>
    have hlen : s.members.length = i := hcount i hpc
    subst hlen
    refine h.logs rfl (fun held hheld =>
      ⟨insert (.queue s.members.length) (insert (.handle s.members.length) held), ?_, fun x => ?_⟩)
    · have htrack := track_constructor env a (untouched hheld)
      rw [hok] at htrack
      exact htrack
    · rw [Finset.mem_insert, Finset.mem_insert, hheld]
      have hget : ∀ (j : Nat) (m : Member R P), (s.members ++ [env.build s.members.length])[j]? =
          some m ↔ s.members[j]? = some m ∨ (j = s.members.length ∧ env.build j = m) := by
        intro j m
        grind
      cases x <;> simp [Holds, hget, hpc, or_and_right, exists_or, Started, or_comm]
  | unbound i a e hmain hpc hi herr =>
    have hlen : s.members.length = i := hcount i hpc
    subst hlen
    refine h.logs rfl (fun held hheld => ⟨held, ?_, fun x => ?_⟩)
    · have htrack := track_constructor env a (untouched hheld)
      rw [herr] at htrack
      exact htrack
    · rw [hheld]
      cases x <;> grind
  | unbuilt i a what hmain hpc hi hok =>
    have hlen : s.members.length = i := hcount i hpc
    subst hlen
    refine h.logs rfl (fun held hheld => ⟨held, ?_, fun x => ?_⟩)
    · obtain ⟨hhandle, hqueue, hthread⟩ := untouched hheld
      have htrack := track_constructor env a (untouched hheld)
      rw [hok] at htrack
      rw [usesOf, List.flatMap_append, ← usesOf, ← usesOf, track_trans htrack,
        track_destroy a (by simp) (by simp) (by simp [hthread]),
        Finset.erase_insert (by simp [hqueue]), Finset.erase_insert hhandle]
    · rw [hheld]
      cases x <;> grind
  | started i m rc hmain hpc hm =>
    have hfit := hfits i m hm
    refine h.acquire rfl ?_ ?_ (fun x => ?_)
    · grind [Fits]
    · intro whole hw
      cases hw
      grind [Fits]
    · cases x <;> grind [Fits]
  | reported hmain hpc hsome =>
    refine h.acquire rfl ?_ ?_ (fun x => ?_)
    · grind [StatsFits]
    · intro whole hw
      cases hw
    · cases x <;> grind
  | joined i m hmain hpc hm hended =>
    refine h.release (k := .thread i) rfl ?_ ?_ (fun x => ?_)
    · grind
    · simp
    · cases x <;> grind
  | statsJoined hmain hpc hended =>
    refine h.release (k := .stats) rfl ?_ ?_ (fun x => ?_)
    · grind
    · simp
    · cases x <;> grind
  | closed hmain hpc =>
    refine h.release (k := .stop_fd) rfl ?_ ?_ (fun x => ?_)
    · grind
    · simp
    · cases x <;> grind
  | destroyed i m hmain hpc hm hthread =>
    have hfit := hfits i m hm
    have hjoin : ∀ held, (∀ x, x ∈ held ↔ s.Holds x) → track Resource.whole held
        (if m.thread = .ended then [.release (.thread i)] else []) =
          some (held.erase (.thread i)) := by
      intro held hheld
      split
      · exact track_release (by grind) (by simp)
      · rw [Finset.erase_eq_of_notMem (by grind), track_nil]
    refine h.logs rfl (fun held hheld =>
      ⟨((held.erase (.thread i)).erase (.queue i)).erase (.handle i), ?_, fun x => ?_⟩)
    · have hhandle : Resource.handle i ∈ held := by grind [Fits]
      have hqueue : Resource.queue i ∈ held := by grind [Fits]
      rw [track_trans (hjoin held hheld)]
      exact track_destroy {} (by simp [hqueue]) (by simp [hhandle]) (by simp)
    · rw [Finset.mem_erase, Finset.mem_erase, Finset.mem_erase, hheld]
      cases x <;> grind
  | judged hmain hpc =>
    refine h.uses _ (by simp) (holds_handles (fun i m => ho.alive (.inl hpc))) (fun x => ?_)
    cases x <;> grind
  | stopped hmain hpc =>
    have hg : s.g_stop_fd = true := hknown.mpr (by simp [hpc])
    refine h.uses [.stop_fd] (by simp [on_signal, hg, writeStop]) ?_ (fun x => ?_)
    · grind
    · cases x <;> grind
  | polled i m poll now hfree hm hrunning =>
    exact h.goes ho hm hrunning (m.poll_goes _ _ _ poll now) [.stop_fd, .handle i, .queue i] rfl
      (by simp) rfl ⟨rfl, rfl⟩
  | received i m recv now hfree hm hrunning =>
    exact h.goes ho hm hrunning (m.recv_goes _ _ recv now) [.handle i, .queue i] rfl
      (by simp) rfl ⟨rfl, rfl⟩
  | printed hfree hrunning =>
    refine h.uses _ (by simp) (holds_handles (fun i m => ho.alive (.inr (.inl hrunning)))) (fun x => ?_)
    cases x <;> grind
  | handled t ht =>
    refine h.uses [.stop_fd] rfl ?_ (fun x => ?_)
    · simpa [Holds] using ho.pc_of_pending ht
    · cases x <;> grind
  | _ =>
    refine h.quiet rfl (fun x => ?_)
    cases x <;> grind [Throws]

end Held

theorem Reachable.held (h : Reachable env s) : Held s :=
  (path_keeps (I := fun x => Orderly x ∧ Held x)
    (fun _ _ hs hx => ⟨step_orderly hs hx.1, step_held hs hx.1 hx.2⟩) h
    ⟨orderly_start, held_start⟩).2

/-- Nothing is used after it is given back: in every interleaving of main, the
workers, the counters thread and the signal handlers, whatever call fails,
the stop fd, the handles, the queues and the threads are used only while they
are held, no queue is destroyed under its thread, and no handle closed under
its queue. When main has returned, everything was given back exactly once. -/
theorem nothing_is_used_after_it_is_given_back (h : Reachable env s) :
    (∃ held, track Resource.whole ∅ s.log = some held) ∧
    (s.pc = .returned → ∀ k, s.log.count (.release k) = s.log.count (.acquire k)) := by
  obtain ⟨held, htrack, hheld⟩ := h.held
  refine ⟨⟨held, htrack⟩, fun hpc k => ?_⟩
  have hfits := h.orderly.fits
  have hstats := h.orderly.stats
  have hnone : ∀ x, ¬ s.Holds x := by
    intro x
    cases x <;> grind [Holds, Fits, StatsFits, Resting, Started]
  have hempty : held = ∅ := by
    rw [Finset.eq_empty_iff_forall_notMem]
    exact fun x hx => hnone x ((hheld x).mp hx)
  exact released_of_track (hempty ▸ htrack) k

open traffic in
/-- Two workers that drop the flows of one host. -/
def twoWorkers : Setting (List traffic.Link) Unit where
  cfg := { jobs := 2, max_blocked_flows := 1 }
  stop_fd := 3
  world := world { exact := [host] }
  reassembly := []
  policy := ()
  nfq_set_verdict := fun _ _ _ _ => 0
  strerror := fun _ => []

/-- The queue of the second worker is taken, so that the first is destroyed. -/
theorem a_failed_start_gives_all_back :
    ∃ s, Reachable twoWorkers s ∧ s.pc = .returned ∧ s.rc = 1 ∧ .acquire (.queue 0) ∈ s.log ∧
      ∀ k, s.log.count (.release k) = s.log.count (.acquire k) := by
  have hfree : ∀ t : Thread, t ∉ ([] : List Thread) := by simp
  have h1 : Reachable twoWorkers _ := .tail .refl (.built {} 0 {} (hfree _) rfl (by decide) rfl)
  have h2 : Reachable twoWorkers _ :=
    h1.tail (.unbound _ 1 { nfq_create_queue := some 1 } _ (hfree _) rfl (by decide) rfl)
  have h3 : Reachable twoWorkers _ := h2.tail (.stopped _ (hfree _) rfl)
  have h4 : Reachable twoWorkers _ := h3.tail (.destroyed _ 0 _ (hfree _) rfl rfl (by simp))
  have h5 : Reachable twoWorkers _ := h4.tail (.allDestroyed _ (hfree _) rfl)
  have h6 : Reachable twoWorkers _ := h5.tail (.unset _ (hfree _) rfl)
  have h7 : Reachable twoWorkers _ := h6.tail (.closed _ (hfree _) rfl)
  exact ⟨_, h7, rfl, rfl, by decide, (nothing_is_used_after_it_is_given_back h7).2 rfl⟩

/-! ## A written stop fd -/

/-- Once the stop fd is readable, a `poll` of a worker does not go on to `recv`:
it is interrupted, or it ends the loop. -/
theorem poll_of_stop {answer : PollAnswer} (hhonest : answer.Honest true) (w : World R P)
    (k : SetVerdict) {stop_fd : Int} (hfd : 0 ≤ stop_fd) (now : Time) (m : Member R P) :
    ∃ e ev, (∀ batch, ev ≠ .Packets batch) ∧ (ev.ends = true ∨ answer = .failed EINTR) ∧
      m.poll w k stop_fd answer now = m.heed w k (e, ev) now := by
  unfold Member.poll
  cases answer with
  | timeout => cases hhonest
  | ready revents stop_revents =>
    rw [NFQueue.after_poll_stop m.failure revents hfd (hhonest.mpr rfl)]
    exact ⟨m.failure, .Stop, by simp, .inl rfl, rfl⟩
  | failed errno =>
    by_cases hintr : errno = EINTR
    · exact ⟨m.failure, .Idle, by simp, .inr (by rw [hintr]), by simp [NFQueue.after_poll, hintr]⟩
    · exact ⟨m.failure.record_error (ascii "poll") errno, .Error, by simp, .inl rfl,
        by simp [NFQueue.after_poll, hintr]⟩

/-- What `run_once` came back with in worker `i` so far. -/
def eventsAt (s : Process R P) (i : Nat) : List (NFQueue.Event × Time) :=
  match s.members[i]? with
  | some m => m.events
  | none => []

/-- What the queue of worker `i` received so far. -/
def arrivedAt (s : Process R P) (i : Nat) : List Packet :=
  match s.members[i]? with
  | some m => m.arrived
  | none => []

/-- Worker `i` is between its `poll` and its `recv`. -/
def polledAt (s : Process R P) (i : Nat) : Bool :=
  match s.members[i]? with
  | some m => m.polled
  | none => false

/-- The events that come of a buffer. -/
def drained : NFQueue.Event × Time → Bool
  | (.Packets _, _) => true
  | _ => false

/-- Between two states, worker `i` has drained at most one buffer, and only if
it was past its `poll` in the first. -/
def HeedsAt (s s' : Process R P) (i : Nat) : Prop :=
  ∃ late, s'.eventsAt i = s.eventsAt i ++ late ∧
    s'.arrivedAt i = s.arrivedAt i ++ late.flatMap (fun t => t.1.received) ∧
    late.countP drained + (s'.polledAt i).toNat ≤ (s.polledAt i).toNat

theorem HeedsAt.refl {i : Nat} : HeedsAt s s i := ⟨[], by simp, by simp, by simp⟩

theorem HeedsAt.trans {x : Process R P} {i : Nat} (h : HeedsAt s x i) (h' : HeedsAt x s' i) :
    HeedsAt s s' i := by
  obtain ⟨late, hevents, harrived, hcount⟩ := h
  obtain ⟨later, hevents', harrived', hcount'⟩ := h'
  refine ⟨late ++ later, ?_, ?_, ?_⟩
  · rw [hevents', hevents, List.append_assoc]
  · rw [harrived', harrived, List.append_assoc, List.flatMap_append]
  · rw [List.countP_append]
    omega

/-- Nothing happens to what worker `i` received. -/
theorem HeedsAt.same {i : Nat} (hevents : s'.eventsAt i = s.eventsAt i)
    (harrived : s'.arrivedAt i = s.arrivedAt i) (hpolled : s'.polledAt i = s.polledAt i) :
    HeedsAt s s' i :=
  ⟨[], by simp [hevents], by simp [harrived], by simp [hpolled]⟩

/-- A turn of worker `i` comes to its end, and if it drained a buffer it was
past its `poll`. -/
theorem HeedsAt.heed {i j : Nat} {m : Member R P} (hm : s.members[i]? = some m) (w : World R P)
    (k : SetVerdict) (e : NFQueue.Failure) (ev : NFQueue.Event) (now : Time)
    (hpolled : m.polled = false → ∀ batch, ev ≠ .Packets batch)
    (hset : s'.members = s.members.set i (m.heed w k (e, ev) now)) : HeedsAt s s' j := by
  by_cases hj : j = i
  · subst hj
    have hi := (List.getElem?_eq_some_iff.mp hm).1
    have hm' : s'.members[j]? = some (m.heed w k (e, ev) now) := by
      rw [hset, List.getElem?_set_self hi]
    refine ⟨[(ev, now)], ?_, ?_, ?_⟩
    · simp [eventsAt, hm, hm', Member.heed]
    · simp [arrivedAt, hm, hm', Member.heed]
    · have hcount : [(ev, now)].countP drained ≤ m.polled.toNat := by
        cases hat : m.polled with
        | true => exact List.countP_le_length
        | false =>
          cases ev with
          | Packets batch => exact absurd rfl (hpolled hat batch)
          | _ => exact Nat.le_refl 0
      simpa [polledAt, hm, hm', Member.heed] using hcount
  · have hsame : s'.members[j]? = s.members[j]? := by
      rw [hset, List.getElem?_set_ne (Ne.symm hj)]
    exact .same (by simp [eventsAt, hsame]) (by simp [arrivedAt, hsame]) (by simp [polledAt, hsame])

/-- A step after the stop fd is written leaves it readable, and brings in
nothing but what a `poll` before had found. -/
theorem step_heeds (hs : Step env s s') (hcounter : 0 < s.stop_counter) :
    0 < s'.stop_counter ∧ ∀ i, HeedsAt s s' i := by
  have hle := eventfd_write_le s.stop_counter
  cases hs with
  | polled i m answer now hfree hm hrunning hfresh hhonest =>
    rw [decide_eq_true hcounter] at hhonest
    obtain ⟨e, ev, hnone, -, hpoll⟩ := poll_of_stop hhonest env.world (env.nfq_set_verdict i)
      (Int.natCast_nonneg env.stop_fd) now m
    exact ⟨hcounter, fun j => .heed hm _ _ e ev now (fun _ => hnone) (by rw [← hpoll]; rfl)⟩
  | received i m answer now hfree hm hrunning hpolled =>
    exact ⟨hcounter, fun j => .heed hm _ _ _ _ now (by simp [hpolled]) rfl⟩
  | built i a hmain hpc hi hok =>
    have hnew : (env.build i).events = [] ∧ (env.build i).arrived = [] ∧
      (env.build i).polled = false := ⟨rfl, rfl, rfl⟩
    refine ⟨hcounter, fun j => .same ?_ ?_ ?_⟩ <;> grind [eventsAt, arrivedAt, polledAt]
  | _ =>
    refine ⟨by grind [catching, writeStop, on_signal, setMember], fun j => .same ?_ ?_ ?_⟩ <;>
      grind [catching, writeStop, on_signal, setMember, eventsAt, arrivedAt, polledAt]

/-- Once the stop fd is written, in any interleaving, no worker receives more
than one buffer, and that only if its `poll` had come back before. -/
theorem a_written_stop_is_heeded (hcounter : 0 < s.stop_counter)
    (h : Relation.ReflTransGen (Step env) s s') :
    0 < s'.stop_counter ∧ ∀ i,
      (s.polledAt i = false → s'.arrivedAt i = s.arrivedAt i) ∧
      ∃ late, s'.eventsAt i = s.eventsAt i ++ late ∧
        s'.arrivedAt i = s.arrivedAt i ++ late.flatMap (fun t => t.1.received) ∧
        late.countP drained ≤ (s.polledAt i).toNat := by
  obtain ⟨hpos, hheeds⟩ : 0 < s'.stop_counter ∧ ∀ i, HeedsAt s s' i := by
    refine path_keeps (I := fun x => 0 < x.stop_counter ∧ ∀ i, HeedsAt s x i) ?_ h
      ⟨hcounter, fun i => .refl⟩
    rintro a b hs ⟨hpos, hall⟩
    obtain ⟨hpos', hstep⟩ := step_heeds hs hpos
    exact ⟨hpos', fun i => (hall i).trans (hstep i)⟩
  refine ⟨hpos, fun i => ?_⟩
  obtain ⟨late, hevents, harrived, hcount⟩ := hheeds i
  refine ⟨fun hfresh => ?_, late, hevents, harrived, by omega⟩
  -- no buffer, so nothing received
  have hnone : late.flatMap (fun t => t.1.received) = [] := by
    rw [List.flatMap_eq_nil_iff]
    intro t ht
    have hzero : late.countP drained = 0 := by
      rw [hfresh] at hcount
      exact Nat.le_zero.mp (by simpa using Nat.le_of_add_right_le hcount)
    have hnot := List.countP_eq_zero.mp hzero t ht
    obtain ⟨ev, now⟩ := t
    cases ev with
    | Packets batch => exact absurd rfl hnot
    | _ => rfl
  rw [harrived, hnone, List.append_nil]

open traffic in
/-- A hello is ready for the first worker when a signal comes in, between its
`poll` and its `recv`. -/
theorem a_signal_comes_in : ∃ s, Reachable twoWorkers s ∧ 0 < s.stop_counter ∧
    s.pending = [] ∧ s.arrivedAt 0 = [] ∧
    (∃ m, s.members[0]? = some m ∧ m.thread = .running ∧ m.polled = true) ∧
    ∃ m, s.members[1]? = some m ∧ m.thread = .running ∧ m.polled = false := by
  have hfree : ∀ t : Thread, t ∉ ([] : List Thread) := by simp
  have h1 : Reachable twoWorkers _ := .tail .refl (.built {} 0 {} (hfree _) rfl (by decide) rfl)
  have h2 : Reachable twoWorkers _ := h1.tail (.built _ 1 {} (hfree _) rfl (by decide) rfl)
  have h3 : Reachable twoWorkers _ := h2.tail (.installed _ (hfree _) rfl)
  have h4 : Reachable twoWorkers _ := h3.tail (.started _ 0 _ 0 (hfree _) rfl rfl)
  have h5 : Reachable twoWorkers _ := h4.tail (.started _ 1 _ 0 (hfree _) rfl rfl)
  have hunwritten : (PollAnswer.ready 1 0).Honest false := by simp [PollAnswer.Honest]
  have h6 : Reachable twoWorkers _ :=
    h5.tail (.polled _ 0 _ (.ready 1 0) 0 (hfree _) rfl rfl rfl hunwritten)
  have h7 : Reachable twoWorkers _ := h6.tail (.signalled _ (.worker 1) rfl ⟨_, rfl, rfl⟩ rfl)
  have h8 : Reachable twoWorkers _ := h7.tail (.handled _ (.worker 1) (by simp))
  exact ⟨_, h8, by decide, rfl, rfl, ⟨_, rfl, rfl, rfl⟩, _, rfl, rfl, rfl⟩

open traffic in
/-- The first worker still receives the hello, and the second worker, which had
not polled, receives nothing of what is ready for it. -/
theorem a_late_packet_is_left_to_the_kernel : ∃ s s', Reachable twoWorkers s ∧
    0 < s.stop_counter ∧ Relation.ReflTransGen (Step twoWorkers) s s' ∧
    (s'.arrivedAt 0).map (·.id) = [1, 2] ∧ s'.arrivedAt 1 = s.arrivedAt 1 := by
  obtain ⟨s, hs, hcounter, hpending, harrived, ⟨m, hm, hrunning, hpolled⟩,
    m', hm', hrunning', hfresh⟩ := a_signal_comes_in
  have hhonest : (PollAnswer.ready 1 1).Honest (0 < s.stop_counter) := by
    simp [PollAnswer.Honest, hcounter]
  have hrecv := @Step.received _ _ twoWorkers s 0 m (.buffer [
      (0, ⟨some 1, some (syn (client 2) 1).val.bytes⟩),
      (0, ⟨some 2, some (hello (client 2) 2).val.bytes⟩)]) 0 (by simp [hpending]) hm hrunning hpolled
  have hother : ∀ x : Member (List Link) Unit, (s.members.set 0 x)[1]? = some m' := fun x =>
    (List.getElem?_set_ne (by decide)).trans hm'
  have hpath := (Relation.ReflTransGen.single hrecv).tail (.polled _ 1 m' (.ready 1 1) 0
    (by simp [setMember, hpending]) (hother _) hrunning' hfresh hhonest)
  have hi := (List.getElem?_eq_some_iff.mp hm).1
  refine ⟨s, _, hs, hcounter, hpath, ?_, ?_⟩
  · have hnone : m.arrived = [] := by simpa [arrivedAt, hm] using harrived
    simp [arrivedAt, setMember, Member.recv, Member.heed, hi, hnone, NFQueue.after_recv]
    rfl
  · exact ((a_written_stop_is_heeded hcounter hpath).2 1).1 (by simp [polledAt, hm', hfresh])

end Process

end packet_inspector
