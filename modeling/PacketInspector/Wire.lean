-- Byte strings and the length-prefixed items on them. Nothing here knows
-- about one format: an item is a tag of a fixed width, a two-byte length
-- and a body, and a stream is items back to back.
import Mathlib

namespace wire

abbrev Bytes := List UInt8

/-! ## Reads -/

/-- The byte at index `i`. A read past the end gives 0, so every caller
checks its bounds first. -/
def byteAt (p : Bytes) (i : Nat) : Nat := (p.getD i 0).toNat

/-- Two bytes at index `i`, most significant first. -/
def rd16 (p : Bytes) (i : Nat) : Nat := byteAt p i * 256 + byteAt p (i + 1)

/-- Three bytes at index `i`, most significant first. -/
def rd24 (p : Bytes) (i : Nat) : Nat :=
  byteAt p i * 65536 + byteAt p (i + 1) * 256 + byteAt p (i + 2)

/-- The two bytes of a number below 65536, most significant first. -/
def be16 (n : Nat) : Bytes := [UInt8.ofNat (n / 256), UInt8.ofNat n]

theorem byteAt_lt (p : Bytes) (i : Nat) : byteAt p i < 256 := UInt8.toNat_lt _

theorem rd16_lt (p : Bytes) (i : Nat) : rd16 p i < 65536 := by
  have h0 := byteAt_lt p i
  have h1 := byteAt_lt p (i + 1)
  unfold rd16
  omega

@[simp] theorem be16_length (n : Nat) : (be16 n).length = 2 := rfl

theorem byteAt_drop (p : Bytes) (k i : Nat) : byteAt (p.drop k) i = byteAt p (k + i) := by
  simp [byteAt, List.getD_eq_getElem?_getD]

theorem rd16_drop (p : Bytes) (k i : Nat) : rd16 (p.drop k) i = rd16 p (k + i) := by
  simp only [rd16, byteAt_drop, Nat.add_assoc]

theorem rd24_drop (p : Bytes) (k i : Nat) : rd24 (p.drop k) i = rd24 p (k + i) := by
  simp only [rd24, byteAt_drop, Nat.add_assoc]

theorem byteAt_append_left {p : Bytes} (t : Bytes) {i : Nat} (h : i < p.length) :
    byteAt (p ++ t) i = byteAt p i := by
  simp [byteAt, List.getD_eq_getElem?_getD, List.getElem?_append_left h]

theorem rd16_append_left {p : Bytes} (t : Bytes) {i : Nat} (h : i + 1 < p.length) :
    rd16 (p ++ t) i = rd16 p i := by
  simp only [rd16, byteAt_append_left t h, byteAt_append_left t (Nat.lt_of_succ_lt h)]

theorem rd24_append_left {p : Bytes} (t : Bytes) {i : Nat} (h : i + 2 < p.length) :
    rd24 (p ++ t) i = rd24 p i := by
  simp only [rd24, byteAt_append_left t h, byteAt_append_left t (show i < p.length by omega),
    byteAt_append_left t (show i + 1 < p.length by omega)]

theorem byteAt_take {p : Bytes} {n i : Nat} (h : i < n) : byteAt (p.take n) i = byteAt p i := by
  simp [byteAt, List.getD_eq_getElem?_getD, h]

theorem rd16_take {p : Bytes} {n i : Nat} (h : i + 1 < n) : rd16 (p.take n) i = rd16 p i := by
  simp only [rd16, byteAt_take h, byteAt_take (Nat.lt_of_succ_lt h)]

/-- A number below 65536 reads back from its two bytes. -/
theorem rd16_be16 {n : Nat} (t : Bytes) (h : n < 65536) : rd16 (be16 n ++ t) 0 = n := by
  simp only [rd16, byteAt, be16, List.cons_append, List.nil_append, List.getD_cons_zero,
    List.getD_cons_succ, UInt8.toNat_ofNat']
  omega

/-- Two bytes that are there are the two bytes of what they read as. -/
theorem take_two_eq_be16 {p : Bytes} (h : 2 ≤ p.length) : p.take 2 = be16 (rd16 p 0) := by
  rcases p with _ | ⟨a, _ | ⟨b, t⟩⟩
  · simp at h
  · simp at h
  · have ha := a.toNat_lt
    have hb := b.toNat_lt
    have h1 : UInt8.ofNat ((a.toNat * 256 + b.toNat) / 256) = a := by
      rw [show (a.toNat * 256 + b.toNat) / 256 = a.toNat by omega, UInt8.ofNat_toNat]
    have h2 : UInt8.ofNat (a.toNat * 256 + b.toNat) = b := by
      apply UInt8.toNat_inj.mp
      simp only [UInt8.toNat_ofNat']
      omega
    simp [be16, rd16, byteAt, h1, h2]

theorem be16_eq_zero_iff {n : Nat} (h : n < 65536) : be16 n = [0, 0] ↔ n = 0 := by
  constructor
  · intro he
    have hr := rd16_be16 [] h
    rw [he] at hr
    exact hr.symm
  · rintro rfl
    rfl

/-! ## Vectors with a length prefix -/

/-- A byte string behind its one-byte length. -/
def vec8 (b : Bytes) : Bytes := UInt8.ofNat b.length :: b

/-- A byte string behind its two-byte length. -/
def vec16 (b : Bytes) : Bytes := be16 b.length ++ b

@[simp] theorem vec8_length (b : Bytes) : (vec8 b).length = 1 + b.length := by
  simp [vec8]; omega

@[simp] theorem vec16_length (b : Bytes) : (vec16 b).length = 2 + b.length := by
  simp [vec16]

theorem byteAt_vec8 {b : Bytes} (t : Bytes) (h : b.length < 256) :
    byteAt (vec8 b ++ t) 0 = b.length := by
  simp only [byteAt, vec8, List.cons_append, List.getD_cons_zero, UInt8.toNat_ofNat']
  omega

theorem rd16_vec16 {b : Bytes} (t : Bytes) (h : b.length < 65536) :
    rd16 (vec16 b ++ t) 0 = b.length := by
  rw [vec16, List.append_assoc]
  exact rd16_be16 _ h

theorem drop_eq_take_append (p : Bytes) (a b : Nat) :
    p.drop a = (p.drop a).take b ++ p.drop (a + b) := by
  rw [← List.drop_drop, List.take_append_drop]

theorem drop_eq_vec8 {p : Bytes} {a : Nat} (h : a + 1 + byteAt p a ≤ p.length) :
    p.drop a = vec8 ((p.drop (a + 1)).take (byteAt p a)) ++ p.drop (a + 1 + byteAt p a) := by
  have hlen : ((p.drop (a + 1)).take (byteAt p a)).length = byteAt p a := by simp; omega
  have hhead : p.drop a = UInt8.ofNat (byteAt p a) :: p.drop (a + 1) := by
    have ha : a < p.length := by omega
    rw [List.drop_eq_getElem_cons ha, byteAt, List.getD_eq_getElem _ _ ha, UInt8.ofNat_toNat]
  rw [vec8, hlen, List.cons_append, ← drop_eq_take_append, hhead]

theorem drop_eq_be16 {p : Bytes} {a : Nat} (h : a + 2 ≤ p.length) :
    p.drop a = be16 (rd16 p a) ++ p.drop (a + 2) := by
  have htwo := take_two_eq_be16 (p := p.drop a) (by simp; omega)
  rw [rd16_drop, Nat.add_zero] at htwo
  rw [← htwo, ← drop_eq_take_append]

theorem drop_eq_vec16 {p : Bytes} {a : Nat} (h : a + 2 + rd16 p a ≤ p.length) :
    p.drop a = vec16 ((p.drop (a + 2)).take (rd16 p a)) ++ p.drop (a + 2 + rd16 p a) := by
  have hlen : ((p.drop (a + 2)).take (rd16 p a)).length = rd16 p a := by simp; omega
  rw [vec16, hlen, List.append_assoc, ← drop_eq_take_append, ← drop_eq_be16 (by omega)]

/-! ## One item -/

/-- A tag of `n` bytes, a two-byte length and a body of that length. -/
structure Item (n : Nat) where
  tag : Bytes
  body : Bytes
  tag_length : tag.length = n
  fits : body.length < 65536

namespace Item

variable {n : Nat}

def encode (x : Item n) : Bytes := x.tag ++ be16 x.body.length ++ x.body

/-- The first item of a byte string and the bytes after it, when all of
its bytes are there. -/
def decode (n : Nat) (q : Bytes) : Option (Item n × Bytes) :=
  if h : n + 2 + rd16 q n ≤ q.length then
    some (⟨q.take n, (q.drop (n + 2)).take (rd16 q n), by simp; omega,
      by have := rd16_lt q n; simp; omega⟩, q.drop (n + 2 + rd16 q n))
  else none

@[simp] theorem encode_length (x : Item n) : x.encode.length = n + 2 + x.body.length := by
  simp [encode, x.tag_length]; omega

theorem rd16_encode (x : Item n) (t : Bytes) : rd16 (x.encode ++ t) n = x.body.length := by
  have h : (x.encode ++ t).drop n = be16 x.body.length ++ (x.body ++ t) := by
    have hn := x.tag_length
    simp [encode, List.append_assoc, ← hn]
  have h2 := rd16_drop (x.encode ++ t) n 0
  rw [h, rd16_be16 _ x.fits] at h2
  simpa using h2.symm

/-- A byte string splits into its first item and the rest in one way. -/
theorem decode_eq_some_iff {q t : Bytes} {x : Item n} :
    decode n q = some (x, t) ↔ q = x.encode ++ t := by
  unfold decode
  constructor
  · intro h
    split at h
    · rename_i hle
      simp only [Option.some.injEq, Prod.mk.injEq] at h
      obtain ⟨rfl, rfl⟩ := h
      have hlen : ((q.drop (n + 2)).take (rd16 q n)).length = rd16 q n := by simp; omega
      calc q = q.take n ++ q.drop n := (List.take_append_drop n q).symm
        _ = q.take n ++ (vec16 ((q.drop (n + 2)).take (rd16 q n)) ++ q.drop (n + 2 + rd16 q n)) := by
            rw [← drop_eq_vec16 hle]
        _ = _ := by simp only [encode, vec16, hlen, List.append_assoc]
    · simp at h
  · rintro rfl
    have hr := rd16_encode x t
    have hle : n + 2 + rd16 (x.encode ++ t) n ≤ (x.encode ++ t).length := by
      rw [hr]; simp
    rw [dif_pos hle]
    simp only [Option.some.injEq, Prod.mk.injEq]
    refine ⟨?_, ?_⟩
    · obtain ⟨tag, body, ht, hb⟩ := x
      subst ht
      simp only [Item.mk.injEq]
      refine ⟨by simp [encode, List.append_assoc], ?_⟩
      rw [hr, ← List.drop_drop]
      simp [encode, be16, List.append_assoc]
    · rw [hr]
      exact List.drop_left' (by simp)

theorem decode_eq_none_iff {q : Bytes} :
    decode n q = none ↔ q.length < n + 2 + rd16 q n := by
  unfold decode
  split <;> simp <;> omega

/-! ## A stream of items -/

/-- Items back to back. -/
def encodeAll (xs : List (Item n)) : Bytes := xs.flatMap encode

/-- The bodies of the items, joined. -/
def bodies (xs : List (Item n)) : Bytes := xs.flatMap body

@[simp] theorem encodeAll_nil : encodeAll ([] : List (Item n)) = [] := rfl

@[simp] theorem encodeAll_cons (x : Item n) (xs : List (Item n)) :
    encodeAll (x :: xs) = x.encode ++ encodeAll xs := rfl

@[simp] theorem bodies_nil : bodies ([] : List (Item n)) = [] := rfl

@[simp] theorem bodies_cons (x : Item n) (xs : List (Item n)) :
    bodies (x :: xs) = x.body ++ bodies xs := rfl

/-- The body of the first item with the wanted tag. The walk stops at the
first item that is not complete. -/
def find (tag : Bytes) (q : Bytes) : Option Bytes :=
  match _h : decode tag.length q with
  | none => none
  | some (x, t) => if x.tag = tag then some x.body else find tag t
termination_by q.length
decreasing_by
  have := decode_eq_some_iff.mp _h
  subst this
  simp only [List.length_append, encode_length]
  omega

/-- `find` gives `b` exactly for complete items of other tags, then a
complete item of the wanted tag with body `b`, then anything. -/
theorem find_eq_some_iff {tag q b : Bytes} :
    find tag q = some b ↔ ∃ (xs : List (Item tag.length)) (x : Item tag.length) (t : Bytes),
      q = encodeAll xs ++ x.encode ++ t ∧ (∀ y ∈ xs, y.tag ≠ tag) ∧ x.tag = tag ∧
      x.body = b := by
  constructor
  · intro h
    fun_induction find tag q with
    | case1 q hd => simp at h
    | case2 q x t hd htag =>
      simp only [Option.some.injEq] at h
      exact ⟨[], x, t, by simpa using decode_eq_some_iff.mp hd, by simp, htag, h⟩
    | case3 q x t hd htag ih =>
      obtain ⟨xs, y, u, rfl, hxs, hy, hb⟩ := ih h
      refine ⟨x :: xs, y, u, ?_, ?_, hy, hb⟩
      · rw [decode_eq_some_iff.mp hd]
        simp [List.append_assoc]
      · simpa using ⟨htag, hxs⟩
  · rintro ⟨xs, x, t, rfl, hxs, hx, rfl⟩
    induction xs with
    | nil =>
      have hd : decode tag.length (x.encode ++ t) = some (x, t) := decode_eq_some_iff.mpr rfl
      rw [encodeAll_nil, List.nil_append, find]
      split
      · rename_i h; rw [hd] at h; cases h
      · rename_i h; rw [hd] at h; cases h; simp [hx]
    | cons y ys ih =>
      have hd : decode tag.length (encodeAll (y :: ys) ++ x.encode ++ t) =
          some (y, encodeAll ys ++ x.encode ++ t) := by
        rw [decode_eq_some_iff]; simp [List.append_assoc]
      rw [find]
      split
      · rename_i h; rw [hd] at h; cases h
      · rename_i h
        rw [hd] at h
        cases h
        rw [if_neg (hxs y (by simp))]
        exact ih (fun z hz => hxs z (by simp [hz]))

theorem find_of_decode_none {tag q : Bytes} (h : decode tag.length q = none) :
    find tag q = none := by
  rw [find]
  split <;> rename_i h' <;> rw [h] at h'
  cases h'

theorem find_of_decode_some {tag q t : Bytes} {x : Item tag.length}
    (h : decode tag.length q = some (x, t)) :
    find tag q = if x.tag = tag then some x.body else find tag t := by
  rw [find]
  split <;> rename_i h' <;> rw [h] at h' <;> cases h'
  rfl

/-- One step of the walk over the bytes from `o` to `e`, by offsets. -/
theorem find_window (tag : Bytes) {p : Bytes} {o e : Nat} (he : e ≤ p.length) :
    find tag ((p.take e).drop o) =
      if o + (tag.length + 2) ≤ e ∧ o + (tag.length + 2) + rd16 p (o + tag.length) ≤ e then
        if (p.drop o).take tag.length = tag then
          some ((p.drop (o + (tag.length + 2))).take (rd16 p (o + tag.length)))
        else find tag ((p.take e).drop (o + (tag.length + 2) + rd16 p (o + tag.length)))
      else none := by
  generalize hn : tag.length = n
  have hlen : ((p.take e).drop o).length = e - o := by simp; omega
  by_cases hfit : o + (n + 2) ≤ e
  swap
  · rw [if_neg (fun h => hfit h.1)]
    apply find_of_decode_none
    rw [decode_eq_none_iff, hlen, hn]
    omega
  have hrd : rd16 ((p.take e).drop o) n = rd16 p (o + n) := by
    rw [rd16_drop, rd16_take (by omega)]
  by_cases hall : o + (n + 2) + rd16 p (o + n) ≤ e
  swap
  · rw [if_neg (fun h => hall h.2)]
    apply find_of_decode_none
    rw [decode_eq_none_iff, hlen, hn, hrd]
    omega
  rw [if_pos ⟨hfit, hall⟩]
  have hle : tag.length + 2 + rd16 ((p.take e).drop o) tag.length ≤ ((p.take e).drop o).length := by
    rw [hn, hrd, hlen]; omega
  have hcut : ∀ a b, a + b ≤ e → ((p.take e).drop a).take b = (p.drop a).take b := by
    intro a b hab
    rw [List.drop_take, List.take_take]
    congr 1
    omega
  rw [find_of_decode_some (dif_pos hle : decode tag.length _ = _)]
  simp only [hn, hrd, List.drop_drop]
  rw [hcut o n (by omega), hcut _ _ (by omega), Nat.add_assoc o (n + 2)]

end Item

end wire
