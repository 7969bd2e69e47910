-- How the queue of a worker is set up and taken down: the library calls of
-- the constructor and destructor of `NFQueue.cpp`, with the undoing of a
-- constructor that fails, read as uses of what the library hands out.
import PacketInspector.Resources
import PacketInspector.CommandLine

open wire resources

namespace packet_inspector

/-! ## The calls into the library -/

inductive LibCall where
  | nfq_open
  | nfq_bind_pf
  | nfq_create_queue (queue_num : UInt16)
  | nfq_set_mode (range : Nat)
  | nfq_set_queue_maxlen (queue_maxlen : UInt32)
  | so_rcvbufforce (bytes : Int)
  | so_rcvbuf (bytes : Int)
  | no_enobufs
  | nfq_destroy_queue
  | nfq_close
  deriving DecidableEq

/-- What the calls of a constructor come to: the errno of one that fails.
The calls whose failure is not fatal are left out, but for the one whose
failure is followed by another try. -/
structure SetupAnswers where
  nfq_open : Option Nat := none
  nfq_bind_pf : Option Nat := none
  nfq_create_queue : Option Nat := none
  nfq_set_mode : Option Nat := none
  so_rcvbufforce : Bool := true

/-- `std::system_error`: its code, and what it says it is about. -/
structure SystemError where
  code : Nat
  what : Bytes
  deriving DecidableEq

/-- Its `what()`. -/
def SystemError.text (strerror : Nat → Bytes) (e : SystemError) : Bytes :=
  e.what ++ ascii ": " ++ strerror e.code

namespace NFQueue

/-- The lambda `bail`: undo what already succeeded. -/
def bail (qh : Bool) : List LibCall :=
  (if qh then [.nfq_destroy_queue] else []) ++ [.nfq_close]

/-- The constructor: the calls that it makes, and what it throws. -/
def create (queue_num : UInt16) (queue_maxlen : UInt32) (recv_buf_bytes : Int) (a : SetupAnswers) :
    List LibCall × Except SystemError Unit :=
  match a.nfq_open with
  | some e => ([.nfq_open], .error ⟨e, ascii "nfq_open"⟩)
  | none =>
    match a.nfq_bind_pf with
    | some e => ([.nfq_open, .nfq_bind_pf] ++ bail false, .error ⟨e, ascii "nfq_bind_pf"⟩)
    | none =>
      match a.nfq_create_queue with
      | some e =>
        ([.nfq_open, .nfq_bind_pf, .nfq_create_queue queue_num] ++ bail false,
          .error ⟨e, ascii "nfq_create_queue"⟩)
      | none =>
        let bound := [.nfq_open, .nfq_bind_pf, .nfq_create_queue queue_num, .nfq_set_mode 0xffff]
        match a.nfq_set_mode with
        | some e => (bound ++ bail true, .error ⟨e, ascii "nfq_set_mode"⟩)
        | none =>
          (bound ++ [.nfq_set_queue_maxlen queue_maxlen, .so_rcvbufforce recv_buf_bytes] ++
            (if a.so_rcvbufforce then [] else [.so_rcvbuf recv_buf_bytes]) ++ [.no_enobufs], .ok ())

/-- The destructor of a queue that was set up. -/
def destroy : List LibCall := [.nfq_destroy_queue, .nfq_close]

end NFQueue

/-! ## What a process holds -/

/-- The eventfd, what the library hands to worker `i`, and the threads. -/
inductive Resource where
  | stop_fd
  | handle (i : Nat)
  | queue (i : Nat)
  | thread (i : Nat)
  | stats
  deriving DecidableEq

/-- A queue is a part of its handle, and a thread runs on its queue. -/
def Resource.whole : Resource → Option Resource
  | queue i => some (handle i)
  | thread i => some (queue i)
  | _ => none

@[simp] theorem whole_eq_queue {x : Resource} {i : Nat} :
    x.whole = some (.queue i) ↔ x = .thread i := by
  cases x <;> simp [Resource.whole]

@[simp] theorem whole_eq_handle {x : Resource} {i : Nat} :
    x.whole = some (.handle i) ↔ x = .queue i := by
  cases x <;> simp [Resource.whole]

@[simp] theorem whole_ne_stop_fd {x : Resource} : x.whole ≠ some .stop_fd := by
  cases x <;> simp [Resource.whole]

@[simp] theorem whole_ne_thread {x : Resource} {i : Nat} : x.whole ≠ some (.thread i) := by
  cases x <;> simp [Resource.whole]

@[simp] theorem whole_ne_stats {x : Resource} : x.whole ≠ some .stats := by
  cases x <;> simp [Resource.whole]

/-- What a call of worker `i` does to what the process holds, when the calls
that hand something out answer as in `a`. -/
def LibCall.uses (i : Nat) (a : SetupAnswers) : LibCall → List (Use Resource)
  | nfq_open => if a.nfq_open = none then [.acquire (.handle i)] else []
  | nfq_bind_pf => [.use (.handle i)]
  | nfq_create_queue _ =>
    .use (.handle i) :: if a.nfq_create_queue = none then [.acquire (.queue i)] else []
  | nfq_set_mode _ => [.use (.queue i)]
  | nfq_set_queue_maxlen _ => [.use (.queue i)]
  | so_rcvbufforce _ => [.use (.handle i)]
  | so_rcvbuf _ => [.use (.handle i)]
  | no_enobufs => [.use (.handle i)]
  | nfq_destroy_queue => [.release (.queue i)]
  | nfq_close => [.release (.handle i)]

/-- The uses of some calls of worker `i`. -/
def usesOf (i : Nat) (a : SetupAnswers) (calls : List LibCall) : List (Use Resource) :=
  calls.flatMap (LibCall.uses i a)

/-- Nothing of worker `i` is held. -/
def Untouched (i : Nat) (held : Finset Resource) : Prop :=
  .handle i ∉ held ∧ .queue i ∉ held ∧ .thread i ∉ held

section Setup

variable {i : Nat} {held : Finset Resource} {a : SetupAnswers} {queue_num : UInt16}
  {queue_maxlen : UInt32} {recv_buf_bytes : Int}

/-- The destructor gives back the queue first, and then its handle. -/
theorem track_destroy (a : SetupAnswers) (hqueue : .queue i ∈ held) (hhandle : .handle i ∈ held)
    (hthread : .thread i ∉ held) :
    track Resource.whole held (usesOf i a NFQueue.destroy) =
      some ((held.erase (.queue i)).erase (.handle i)) := by
  have hpart : ∀ x ∈ held, x.whole ≠ some (.queue i) := by
    intro x hx hw
    rw [whole_eq_queue] at hw
    exact hthread (hw ▸ hx)
  have hrest : ∀ x ∈ held.erase (.queue i), x.whole ≠ some (.handle i) := by
    intro x hx hw
    rw [whole_eq_handle] at hw
    exact Finset.ne_of_mem_erase hx hw
  show track Resource.whole held [.release (.queue i), .release (.handle i)] = _
  rw [track_release hqueue hpart, track_release (by simp [hhandle]) hrest, track_nil]

/-- The calls up to the queue leave the handle and the queue held. -/
theorem track_bound (h : Untouched i held) (more : List (Use Resource)) :
    track Resource.whole held ([.acquire (.handle i), .use (.handle i), .use (.handle i),
      .acquire (.queue i), .use (.queue i)] ++ more) =
      track Resource.whole (insert (.queue i) (insert (.handle i) held)) more := by
  obtain ⟨hhandle, hqueue, -⟩ := h
  simp only [List.cons_append, List.nil_append]
  rw [track_acquire hhandle (by simp [Resource.whole]), track_use (by simp), track_use (by simp),
    track_acquire (by simp [hqueue]) (by simp [Resource.whole]), track_use (by simp)]

/-- What a handle was used for is undone by its close. -/
theorem track_closed (h : Untouched i held) (n : Nat) :
    track Resource.whole held (.acquire (.handle i) :: List.replicate n (.use (.handle i)) ++
      [.release (.handle i)]) = some held := by
  obtain ⟨hhandle, hqueue, -⟩ := h
  have huses : track Resource.whole (insert (.handle i) held)
      (List.replicate n (.use (.handle i))) = some (insert (.handle i) held) := by
    rw [← List.map_replicate]
    exact track_uses (fun k hk => by rw [List.eq_of_mem_replicate hk]; simp)
  have hpart : ∀ x ∈ insert (.handle i) held, x.whole ≠ some (.handle i) := by
    intro x hx hw
    rw [whole_eq_handle] at hw
    subst hw
    simp [hqueue] at hx
  rw [List.cons_append, track_acquire hhandle (by simp [Resource.whole]), track_trans huses,
    track_release (by simp) hpart, track_nil, Finset.erase_insert hhandle]

/-- A constructor that fails gives back everything that it was handed, and
one that succeeds is left with the handle and the queue. -/
theorem track_create (h : Untouched i held) (num : UInt16) (len : UInt32) (bytes : Int)
    (a : SetupAnswers) :
    track Resource.whole held (usesOf i a (NFQueue.create num len bytes a).1) =
      match (NFQueue.create num len bytes a).2 with
      | .ok _ => some (insert (.queue i) (insert (.handle i) held))
      | .error _ => some held := by
  obtain ⟨opened, bound, created, moded, forced⟩ := a
  cases opened with
  | some e => rfl
  | none =>
    cases bound with
    | some e => exact track_closed h 1
    | none =>
      cases created with
      | some e => exact track_closed h 2
      | none =>
        cases moded with
        | some e =>
          have hclosed := @track_destroy i (insert (.queue i) (insert (.handle i) held))
            {} (by simp) (by simp) (by simp [h.2.2])
          rw [Finset.erase_insert (by simp [h.2.1]), Finset.erase_insert h.1] at hclosed
          exact (track_bound h _).trans hclosed
        | none =>
          have hrest : ∀ ks : List Resource, (∀ k ∈ ks, k = .handle i ∨ k = .queue i) →
              track Resource.whole (insert (.queue i) (insert (.handle i) held)) (ks.map .use) =
                some (insert (.queue i) (insert (.handle i) held)) := by
            intro ks hks
            refine track_uses (fun k hk => ?_)
            rcases hks k hk with rfl | rfl
            · simp
            · simp
          cases forced with
          | true =>
            exact (track_bound h _).trans (hrest [.queue i, .handle i, .handle i] (by simp))
          | false =>
            exact (track_bound h _).trans
              (hrest [.queue i, .handle i, .handle i, .handle i] (by simp))

end Setup

end packet_inspector
