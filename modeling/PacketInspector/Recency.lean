-- Lists whose items come again: the order of the last places. A ring that is
-- overwritten slot by slot is such a list, read from its cursor on.
import Mathlib

namespace recency

variable {α : Type*}

/-! ## A ring that is overwritten -/

/-- Writing at the cursor and moving it on drops the first item from the
cursor on, and puts the new one at the end. -/
theorem rotate_set_next {ring : List α} {next : Nat} (h : next < ring.length) (x : α) :
    (ring.set next x).rotate ((next + 1) % ring.length) = (ring.rotate next).tail ++ [x] := by
  have hlen : (ring.take next).length = next := List.length_take_of_le (Nat.le_of_lt h)
  have hset : ring.set next x = (ring.take next ++ [x]) ++ ring.drop (next + 1) := by
    rw [List.set_eq_take_append_cons_drop, if_pos h, List.append_assoc, List.singleton_append]
  have hmod : (ring.set next x).rotate ((next + 1) % ring.length) =
      (ring.set next x).rotate (next + 1) := by
    conv_lhs => rw [← List.length_set, List.rotate_mod]
  have hcursor : next + 1 = (ring.take next ++ [x]).length := by
    rw [List.length_append, hlen, List.length_singleton]
  calc (ring.set next x).rotate ((next + 1) % ring.length)
    _ = ((ring.take next ++ [x]) ++ ring.drop (next + 1)).rotate (ring.take next ++ [x]).length := by
      rw [hmod, hset, hcursor]
    _ = ring.drop (next + 1) ++ (ring.take next ++ [x]) := List.rotate_append_length_eq _ _
    _ = (ring.rotate next).tail ++ [x] := by
      rw [List.rotate_eq_drop_append_take (Nat.le_of_lt h), List.drop_eq_getElem_cons h,
        List.cons_append, List.tail_cons, List.append_assoc]

/-! ## The order of the last places -/

variable [DecidableEq α]

/-- What stands in the list after the last place of `a`, from the end on. -/
def afterLast (l : List α) (a : α) : List α := l.reverse.takeWhile (fun x => x ≠ a)

/-- The last place of `a` is before the last place of `b`. -/
def Before (l : List α) (a b : α) : Prop := a ∈ l ∧ b ∈ afterLast l a

instance (l : List α) (a b : α) : Decidable (Before l a b) :=
  inferInstanceAs (Decidable (a ∈ l ∧ b ∈ afterLast l a))

example : Before [1, 2, 1, 3] 2 1 ∧ ¬ Before [1, 2, 1, 3] 1 2 := by decide

theorem afterLast_concat (l : List α) (a x : α) :
    afterLast (l ++ [x]) a = if x = a then [] else x :: afterLast l a := by
  unfold afterLast
  rw [List.reverse_concat, List.takeWhile_cons]
  by_cases h : x = a
  · simp [h]
  · simp [h]

/-- A new last item is after every other one. -/
theorem before_concat_iff {l : List α} {a b x : α} :
    Before (l ++ [x]) a b ↔ a ≠ x ∧ (Before l a b ∨ a ∈ l ∧ b = x) := by
  unfold Before
  rw [afterLast_concat]
  by_cases h : x = a
  · simp [h]
  · have hne : a ≠ x := fun he => h he.symm
    simp only [if_neg h, List.mem_append, List.mem_cons, hne, ne_eq, not_false_eq_true, true_and]
    tauto

/-- A new first item moves no last place, but its own when it has no other. -/
theorem before_cons_iff {l : List α} {a b x : α} :
    Before (x :: l) a b ↔ Before l a b ∨ a = x ∧ a ∉ l ∧ b ∈ l := by
  induction l using List.reverseRecOn with
  | nil =>
    rw [← List.nil_append [x], before_concat_iff]
    simp [Before]
  | append_singleton l y ih =>
    rw [← List.cons_append, before_concat_iff, before_concat_iff, ih, List.mem_cons]
    simp only [List.mem_append, List.mem_singleton]
    tauto

theorem Before.cons {l : List α} {a b : α} (h : Before l a b) (x : α) : Before (x :: l) a b :=
  before_cons_iff.mpr (.inl h)

theorem Before.concat {l : List α} {a b x : α} (h : Before l a b) (hx : a ≠ x) :
    Before (l ++ [x]) a b :=
  before_concat_iff.mpr ⟨hx, .inl h⟩

/-- Two items that are there have an order. -/
theorem before_total {l : List α} {a b : α} (ha : a ∈ l) (hb : b ∈ l) (hne : a ≠ b) :
    Before l a b ∨ Before l b a := by
  induction l using List.reverseRecOn with
  | nil => cases ha
  | append_singleton l x ih =>
    simp only [before_concat_iff]
    rw [List.mem_append, List.mem_singleton] at ha hb
    rcases ha with ha | rfl
    · rcases hb with hb | rfl
      · by_cases hax : a = x
        · exact .inr ⟨fun hbx => hne (hax.trans hbx.symm), .inr ⟨hb, hax⟩⟩
        · by_cases hbx : b = x
          · exact .inl ⟨hax, .inr ⟨ha, hbx⟩⟩
          · exact (ih ha hb).imp (fun h => ⟨hax, .inl h⟩) (fun h => ⟨hbx, .inl h⟩)
      · exact .inl ⟨hne, .inr ⟨ha, rfl⟩⟩
    · have hb : b ∈ l := hb.resolve_right hne.symm
      exact .inr ⟨hne.symm, .inr ⟨hb, rfl⟩⟩

theorem Before.asymm {l : List α} {a b : α} (h : Before l a b) : ¬ Before l b a := by
  induction l using List.reverseRecOn with
  | nil => cases h.1
  | append_singleton l x ih =>
    rw [before_concat_iff] at h ⊢
    rintro ⟨hbx, h'⟩
    have hab := h.2.resolve_right (fun he => hbx he.2)
    have hba := h'.resolve_right (fun he => h.1 he.2)
    exact ih hab hba

end recency
