-- Programs that check what C leaves unchecked: every read of a byte string,
-- every step of unsigned 32-bit arithmetic and every turn of a loop may
-- stop with a fault. A program that stops with none never leaves its bounds.
import PacketInspector.Wire

open wire

namespace checked

/-- What a checked program stops with: a read outside the buffer, a sum or a
difference that wraps, or a loop that is out of turns. -/
inductive Fault where
  | read
  | wrap
  | turns
  deriving DecidableEq

abbrev Checked := Except Fault

/-! ## The checked operations -/

def read8 (p : Bytes) (i : Nat) : Checked Nat :=
  if i < p.length then .ok (byteAt p i) else .error .read

def read16 (p : Bytes) (i : Nat) : Checked Nat := do
  let high ← read8 p i
  let low ← read8 p (i + 1)
  .ok (high * 256 + low)

def read24 (p : Bytes) (i : Nat) : Checked Nat := do
  let high ← read8 p i
  let middle ← read8 p (i + 1)
  let low ← read8 p (i + 2)
  .ok (high * 65536 + middle * 256 + low)

/-- The `n` bytes at `i`, as a copy or a window takes them. -/
def slice (p : Bytes) (i n : Nat) : Checked Bytes :=
  if i + n ≤ p.length then .ok ((p.drop i).take n) else .error .read

def add32 (a b : Nat) : Checked Nat := if a + b < 2 ^ 32 then .ok (a + b) else .error .wrap

def mul32 (a b : Nat) : Checked Nat := if a * b < 2 ^ 32 then .ok (a * b) else .error .wrap

def sub32 (a b : Nat) : Checked Nat := if b ≤ a then .ok (a - b) else .error .wrap

/-! ## Within bounds -/

variable {α β : Type} {p : Bytes} {i n a b : Nat}

@[simp] theorem ok_bind (x : α) (f : α → Checked β) : (Except.ok x >>= f) = f x := rfl

theorem read8_ok (h : i < p.length) : read8 p i = .ok (byteAt p i) := if_pos h

theorem read16_ok (h : i + 1 < p.length) : read16 p i = .ok (rd16 p i) := by
  unfold read16
  rw [read8_ok (Nat.lt_of_succ_lt h), read8_ok h]
  rfl

theorem read24_ok (h : i + 2 < p.length) : read24 p i = .ok (rd24 p i) := by
  unfold read24
  rw [read8_ok (by omega), read8_ok (by omega), read8_ok h]
  rfl

theorem slice_ok (h : i + n ≤ p.length) : slice p i n = .ok ((p.drop i).take n) := if_pos h

theorem add32_ok (h : a + b < 2 ^ 32) : add32 a b = .ok (a + b) := if_pos h

theorem mul32_ok (h : a * b < 2 ^ 32) : mul32 a b = .ok (a * b) := if_pos h

theorem sub32_ok (h : b ≤ a) : sub32 a b = .ok (a - b) := if_pos h

end checked
