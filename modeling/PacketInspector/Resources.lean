-- Things that are acquired, used and released, some of them parts of others.
-- A log of such uses is checked against what is held; what the check lets
-- through releases everything once and uses nothing that is not held.
import Mathlib

namespace resources

variable {κ : Type*} [DecidableEq κ]

inductive Use (κ : Type*) where
  | acquire (k : κ)
  | use (k : κ)
  | release (k : κ)
  deriving DecidableEq

variable (parent : κ → Option κ)

/-- One use against what is held. What is acquired is new and its whole is
held; what is released is held, and no part of it is. -/
def check (held : Finset κ) : Use κ → Option (Finset κ)
  | .acquire k =>
    if k ∉ held ∧ ∀ whole ∈ parent k, whole ∈ held then some (insert k held) else none
  | .use k => if k ∈ held then some held else none
  | .release k =>
    if k ∈ held ∧ ∀ part ∈ held, parent part ≠ some k then some (held.erase k) else none

/-- What is held after a log, when all of it passes the check. -/
def track (held : Finset κ) (log : List (Use κ)) : Option (Finset κ) := log.foldlM (check parent) held

variable {parent} {held held' : Finset κ} {log more : List (Use κ)} {k : κ}

@[simp] theorem track_nil : track parent held [] = some held := rfl

theorem track_cons (u : Use κ) :
    track parent held (u :: log) = (check parent held u).bind (track parent · log) := rfl

theorem track_append :
    track parent held (log ++ more) = (track parent held log).bind (track parent · more) :=
  List.foldlM_append

/-- A log goes on where it ended. -/
theorem track_trans (h : track parent held log = some held') :
    track parent held (log ++ more) = track parent held' more := by
  rw [track_append, h, Option.bind_some]

theorem track_acquire (hnew : k ∉ held) (hwhole : ∀ whole, parent k = some whole → whole ∈ held) :
    track parent held (.acquire k :: log) = track parent (insert k held) log := by
  have hcheck : check parent held (.acquire k) = some (insert k held) := if_pos ⟨hnew, hwhole⟩
  rw [track_cons, hcheck, Option.bind_some]

theorem track_use (hheld : k ∈ held) :
    track parent held (.use k :: log) = track parent held log := by
  have hcheck : check parent held (.use k) = some held := if_pos hheld
  rw [track_cons, hcheck, Option.bind_some]

theorem track_release (hheld : k ∈ held) (hpart : ∀ part ∈ held, parent part ≠ some k) :
    track parent held (.release k :: log) = track parent (held.erase k) log := by
  have hcheck : check parent held (.release k) = some (held.erase k) := if_pos ⟨hheld, hpart⟩
  rw [track_cons, hcheck, Option.bind_some]

/-- Uses of what is held pass the check. -/
theorem track_uses {ks : List κ} (hks : ∀ k ∈ ks, k ∈ held) :
    track parent held (ks.map .use) = some held := by
  induction ks with
  | nil => rfl
  | cons k ks ih =>
    rw [List.map_cons, track_use (hks k (by simp))]
    exact ih (fun k' hk' => hks k' (by simp [hk']))

/-! ## What a checked log says -/

theorem mem_check_iff {u : Use κ} (h : check parent held u = some held') :
    (k ∈ held' ↔ u = .acquire k ∨ (k ∈ held ∧ u ≠ .release k)) ∧
    (u = .acquire k → k ∉ held) ∧ (u = .release k → k ∈ held) ∧ (u = .use k → k ∈ held) := by
  cases u with
  | acquire k' =>
    obtain ⟨hnew, he⟩ := Option.ite_none_right_eq_some.mp h
    cases he
    refine ⟨by simp [eq_comm], ?_, nofun, nofun⟩
    rintro he
    cases he
    exact hnew.1
  | use k' =>
    obtain ⟨hheld, he⟩ := Option.ite_none_right_eq_some.mp h
    cases he
    refine ⟨by simp, nofun, nofun, ?_⟩
    rintro he
    cases he
    exact hheld
  | release k' =>
    obtain ⟨hheld, he⟩ := Option.ite_none_right_eq_some.mp h
    cases he
    refine ⟨by simp [eq_comm, and_comm], nofun, ?_, nofun⟩
    rintro he
    cases he
    exact hheld.1

/-- The acquires of a thing are its releases, and one more while it is held. -/
theorem count_acquire (k : κ) : ∀ {log : List (Use κ)} {held held' : Finset κ},
    track parent held log = some held' →
      log.count (.acquire k) + (if k ∈ held then 1 else 0) =
        log.count (.release k) + (if k ∈ held' then 1 else 0) := by
  intro log
  induction log with
  | nil =>
    intro held held' h
    cases h
    rfl
  | cons u log ih =>
    intro held held' h
    rw [track_cons] at h
    obtain ⟨mid, hcheck, hrest⟩ := Option.bind_eq_some_iff.mp h
    obtain ⟨hmem, hacquire, hrelease, -⟩ := mem_check_iff (k := k) hcheck
    have hcount := ih hrest
    rw [List.count_cons, List.count_cons]
    by_cases ha : u = .acquire k
    · subst ha
      have hmid : k ∈ mid := hmem.mpr (.inl rfl)
      rw [if_pos hmid] at hcount
      simp [hacquire rfl]
      omega
    · by_cases hr : u = .release k
      · subst hr
        have hmid : k ∉ mid := fun hin => by simpa using hmem.mp hin
        rw [if_neg hmid] at hcount
        simp [hrelease rfl]
        omega
      · have hmid : k ∈ mid ↔ k ∈ held := by simp [hmem, ha, hr]
        rw [if_congr hmid rfl rfl] at hcount
        simp [ha, hr]
        omega

/-- When nothing is held at either end, every thing is released as often as
it is acquired. -/
theorem released_of_track (h : track parent ∅ log = some ∅) (k : κ) :
    log.count (.release k) = log.count (.acquire k) := by
  have hcount := count_acquire k h
  simpa using hcount.symm

end resources
