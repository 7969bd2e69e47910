-- `run_once` of `NFQueue.cpp`: what `poll` and `recv` answer, the event that
-- comes of it, and the error that the queue remembers. It is cut in two at
-- `recv`, since other threads run between the two calls.
import PacketInspector.CommandLine
import PacketInspector.Worker

open wire

namespace packet_inspector

/-! ## The errors of a queue -/

def EINTR : Nat := 4
def EIO : Nat := 5
def EAGAIN : Nat := 11
def EWOULDBLOCK : Nat := 11
def ENOBUFS : Nat := 105

/-- What a queue remembers of its failure. The errno is 0 while it is healthy. -/
structure NFQueue.Failure where
  err_what : Option Bytes := none
  err_errno : Nat := 0
deriving DecidableEq

namespace NFQueue.Failure

variable (e : Failure)

def record_error (_e : Failure) (what : Bytes) (err : Nat) : Failure :=
  { err_what := some what, err_errno := if err ≠ 0 then err else EIO }

def failed : Bool := e.err_errno ≠ 0

theorem failed_record_error (what : Bytes) (err : Nat) : (e.record_error what err).failed = true := by
  unfold record_error failed EIO
  simp only [decide_eq_true_eq]
  split
  · assumption
  · decide

/-- The text of the failure, with the one that `strerror` has for the errno. -/
def error (strerror : Nat → Bytes) : Bytes :=
  if e.err_errno = 0 then []
  else e.err_what.getD (ascii "nfqueue") ++ ascii ": " ++ strerror e.err_errno

end NFQueue.Failure

/-! ## One turn of the receive path -/

def POLLIN : UInt16 := 0x001
def POLLERR : UInt16 := 0x008
def POLLHUP : UInt16 := 0x010
def POLLNVAL : UInt16 := 0x020

/-- What `poll` answers: an errno, nothing within the timeout, or the
`revents` of the netlink socket and of the stop fd. -/
inductive PollAnswer where
  | failed (errno : Nat)
  | timeout
  | ready (revents stop_revents : UInt16)
  deriving DecidableEq

/-- What `recv` answers: an errno, no bytes, or a buffer with some packets,
each with the time at which its callback runs. -/
inductive RecvAnswer where
  | failed (errno : Nat)
  | empty
  | buffer (batch : List (Time × NfqData))

namespace NFQueue

/-- The errors of `recv` that are worth another turn. -/
def transient (errno : Nat) : Bool :=
  errno = ENOBUFS || errno = EINTR || errno = EAGAIN || errno = EWOULDBLOCK

/-- `run_once` up to `poll`: nothing comes of it yet when `recv` is next. -/
def after_poll (stop_fd : Int) (e : Failure) (poll : PollAnswer) : Option (Failure × Event) :=
  let nfds := if stop_fd ≥ 0 then 2 else 1
  match poll with
  | .failed errno =>
    if errno = EINTR then some (e, .Idle) else some (e.record_error (ascii "poll") errno, .Error)
  | .timeout => some (e, .Idle)
  | .ready revents stop_revents =>
    if nfds = 2 ∧ stop_revents ≠ 0 then some (e, .Stop)
    else if revents &&& POLLIN = 0 then
      if revents &&& (POLLERR ||| POLLHUP ||| POLLNVAL) ≠ 0 then
        some (e.record_error (ascii "poll: netlink socket error") EIO, .Error)
      else some (e, .Idle)
    else none

/-- `run_once` from `recv` on. -/
def after_recv (e : Failure) : RecvAnswer → Failure × Event
  | .failed errno =>
    if transient errno then (e, .Idle) else (e.record_error (ascii "recv") errno, .Error)
  | .empty => (e, .Idle)
  | .buffer batch => (e, .Packets batch)

def run_once (stop_fd : Int) (e : Failure) (poll : PollAnswer) (recv : RecvAnswer) :
    Failure × Event :=
  (after_poll stop_fd e poll).getD (after_recv e recv)

/-- One turn after another from a healthy queue, with what each comes back
with. -/
def run_turns (stop_fd : Int) (answers : List (PollAnswer × RecvAnswer)) : Failure × List Event :=
  answers.foldl
    (fun x a =>
      let answer := run_once stop_fd x.1 a.1 a.2
      (answer.1, x.2 ++ [answer.2]))
    ({}, [])

/-! ## What a turn can do -/

/-- The calls that a failure may name. -/
def failing : List Bytes := [ascii "poll", ascii "poll: netlink socket error", ascii "recv"]

/-- What `run_once` comes back with: a failure is recorded exactly when the
event is an error, and then it names the call that failed. -/
def Comes (e : Failure) (answer : Failure × Event) : Prop :=
  (answer.1 = e ∧ answer.2 ≠ .Error) ∨
    ∃ what ∈ failing, ∃ err, answer = (e.record_error what err, .Error)

theorem after_recv_comes (e : Failure) (recv : RecvAnswer) : Comes e (after_recv e recv) := by
  cases recv with
  | empty => exact .inl ⟨rfl, nofun⟩
  | buffer batch => exact .inl ⟨rfl, nofun⟩
  | failed errno =>
    unfold after_recv
    dsimp only
    split
    · exact .inl ⟨rfl, nofun⟩
    · exact .inr ⟨_, by simp [failing], errno, rfl⟩

theorem after_recv_ne_stop (e : Failure) (recv : RecvAnswer) : (after_recv e recv).2 ≠ .Stop := by
  cases recv with
  | empty => exact nofun
  | buffer batch => exact nofun
  | failed errno =>
    unfold after_recv
    dsimp only
    split <;> exact nofun

/-- A turn that ends at `poll` received nothing, and is stopped only by a
readable stop fd. -/
theorem after_poll_comes {stop_fd : Int} {e : Failure} {poll : PollAnswer}
    {answer : Failure × Event} (h : after_poll stop_fd e poll = some answer) :
    Comes e answer ∧ (∀ batch, answer.2 ≠ .Packets batch) ∧ (answer.2 = .Stop →
      ∃ revents stop_revents, poll = .ready revents stop_revents ∧ stop_revents ≠ 0) := by
  have hidle : Comes e (e, .Idle) := .inl ⟨rfl, nofun⟩
  unfold after_poll at h
  cases poll with
  | failed errno =>
    dsimp only at h
    split at h
    · cases h
      exact ⟨hidle, nofun, nofun⟩
    · cases h
      exact ⟨.inr ⟨_, by simp [failing], errno, rfl⟩, nofun, nofun⟩
  | timeout =>
    cases h
    exact ⟨hidle, nofun, nofun⟩
  | ready revents stop_revents =>
    dsimp only at h
    by_cases hstop : (if stop_fd ≥ 0 then 2 else 1) = 2 ∧ stop_revents ≠ 0
    · rw [if_pos hstop] at h
      cases h
      exact ⟨.inl ⟨rfl, nofun⟩, nofun, fun _ => ⟨revents, stop_revents, rfl, hstop.2⟩⟩
    rw [if_neg hstop] at h
    by_cases hin : revents &&& POLLIN = 0
    · rw [if_pos hin] at h
      split at h
      · cases h
        exact ⟨.inr ⟨_, by simp [failing], EIO, rfl⟩, nofun, nofun⟩
      · cases h
        exact ⟨hidle, nofun, nofun⟩
    · rw [if_neg hin] at h
      cases h

theorem run_once_of_poll {stop_fd : Int} {e : Failure} {poll : PollAnswer}
    {answer : Failure × Event} (h : after_poll stop_fd e poll = some answer) (recv : RecvAnswer) :
    run_once stop_fd e poll recv = answer := by
  rw [run_once, h, Option.getD_some]

theorem run_once_of_recv {stop_fd : Int} {e : Failure} {poll : PollAnswer}
    (h : after_poll stop_fd e poll = none) (recv : RecvAnswer) :
    run_once stop_fd e poll recv = after_recv e recv := by
  rw [run_once, h, Option.getD_none]

theorem run_once_comes (stop_fd : Int) (e : Failure) (poll : PollAnswer) (recv : RecvAnswer) :
    Comes e (run_once stop_fd e poll recv) := by
  cases h : after_poll stop_fd e poll with
  | none =>
    rw [run_once_of_recv h]
    exact after_recv_comes e recv
  | some answer =>
    rw [run_once_of_poll h]
    exact (after_poll_comes h).1

/-- Packets are ready, whatever the stop fd. -/
theorem after_poll_ready (stop_fd : Int) (e : Failure) : after_poll stop_fd e (.ready POLLIN 0) = none := by
  have hin : POLLIN ≠ 0 := by decide
  simp [after_poll, hin]

theorem run_turns_concat (stop_fd : Int) (answers : List (PollAnswer × RecvAnswer))
    (a : PollAnswer × RecvAnswer) :
    run_turns stop_fd (answers ++ [a]) =
      let answer := run_once stop_fd (run_turns stop_fd answers).1 a.1 a.2
      (answer.1, (run_turns stop_fd answers).2 ++ [answer.2]) := by
  rw [run_turns, List.foldl_append]
  rfl

/-- A readable stop fd ends the loop before anything is received. -/
theorem after_poll_stop {stop_fd : Int} (e : Failure) (revents : UInt16) {stop_revents : UInt16}
    (hfd : 0 ≤ stop_fd) (hstop : stop_revents ≠ 0) :
    after_poll stop_fd e (.ready revents stop_revents) = some (e, .Stop) := by
  simp [after_poll, hfd, hstop]

end NFQueue

end packet_inspector
