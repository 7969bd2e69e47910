-- `strtoull` in base 10, as the C standard describes it, over any locale's
-- white space. Nothing here knows about one program: a string is its bytes,
-- and what is read of it is a numeral of white space, a sign and digits.
import PacketInspector.Wire

open wire

namespace libc

/-! ## Digits -/

/-- `isdigit`. -/
def isdigit (c : UInt8) : Bool := 0x30 ≤ c && c ≤ 0x39

/-- The string is a decimal numeral: at least one character, and digits only. -/
def IsDecimal (s : Bytes) : Prop := s ≠ [] ∧ ∀ c ∈ s, isdigit c = true

/-- The number that digits stand for, most significant first. -/
def decimalValue (digits : Bytes) : Nat :=
  digits.foldl (fun n c => 10 * n + (c.toNat - 0x30)) 0

/-- A decimal numeral has a decision procedure: every byte is looked at. -/
instance (s : Bytes) : Decidable (IsDecimal s) :=
  inferInstanceAs (Decidable (s ≠ [] ∧ ∀ c ∈ s, isdigit c = true))

example : decimalValue [0x34, 0x30, 0x39, 0x36] = 4096 := by decide

theorem isdigit_zero : isdigit 0 = false := by simp [isdigit]

/-! ## Strings -/

/-- What `c_str()` shows of a string: its characters up to the first NUL. -/
def c_str (s : Bytes) : Bytes := s.takeWhile (fun c => c != 0)

/-- No character of a C string is NUL. -/
theorem nul_not_mem_c_str (s : Bytes) : 0 ∉ c_str s := by
  intro h
  have hne := List.mem_takeWhile_imp h
  simp at hne

/-- A string is its C string, and then nothing or a NUL. -/
theorem exists_c_str_append (s : Bytes) :
    ∃ z, s = c_str s ++ z ∧ (z = [] ∨ z.head? = some 0) := by
  refine ⟨s.dropWhile (fun c => c != 0), List.takeWhile_append_dropWhile.symm, ?_⟩
  cases h : s.dropWhile (fun c => c != 0) with
  | nil => exact .inl rfl
  | cons c z =>
    have hc := List.head?_dropWhile_not (fun c => c != 0) s
    rw [h] at hc
    simp only [List.head?_cons, bne_eq_false_iff_eq] at hc
    rw [hc]
    exact .inr rfl

theorem c_str_append {p z : Bytes} (hp : 0 ∉ p) (hz : z = [] ∨ z.head? = some 0) :
    c_str (p ++ z) = p := by
  unfold c_str
  rw [List.takeWhile_append_of_pos]
  · rcases z with _ | ⟨c, z⟩
    · simp
    · have hc : c = 0 := by simpa using hz
      simp [hc]
  · intro c hc
    simp only [bne_iff_ne]
    rintro rfl
    exact hp hc

/-! ## Signs -/

/-- The sign in front of the digits. -/
inductive Sign
  | none
  | plus
  | minus
deriving DecidableEq

namespace Sign

/-- How a sign is written. -/
def text : Sign → Bytes
  | none => []
  | plus => [0x2b]
  | minus => [0x2d]

/-- What a sign makes of a number: a minus negates it in the return type. -/
def apply : Sign → Nat → Nat
  | minus, n => (2 ^ 64 - n) % 2 ^ 64
  | _, n => n

/-- The sign that a string starts with, and what follows it. -/
def read : Bytes → Sign × Bytes
  | [] => (none, [])
  | c :: rest =>
    if c = 0x2b then (plus, rest)
    else if c = 0x2d then (minus, rest)
    else (none, c :: rest)

theorem read_text (p : Bytes) : (read p).1.text ++ (read p).2 = p := by
  cases p with
  | nil => rfl
  | cons c rest =>
    rw [read]
    split_ifs with hplus hminus
    · rw [hplus]
      rfl
    · rw [hminus]
      rfl
    · rfl

/-- A sign in front of a digit is read as that sign. -/
theorem read_append (sign : Sign) {c : UInt8} (hc : isdigit c = true) (rest : Bytes) :
    read (sign.text ++ c :: rest) = (sign, c :: rest) := by
  cases sign with
  | plus => rfl
  | minus => rfl
  | none =>
    have hplus : c ≠ 0x2b := by
      rintro rfl
      simp [isdigit] at hc
    have hminus : c ≠ 0x2d := by
      rintro rfl
      simp [isdigit] at hc
    simp [text, read, hplus, hminus]

end Sign

/-! ## Numerals -/

/-- The white space of a locale: no digit, no sign and no NUL is part of it. -/
structure WhiteSpace where
  isspace : UInt8 → Bool
  digit : ∀ c, isdigit c = true → isspace c = false
  plus : isspace 0x2b = false
  minus : isspace 0x2d = false
  nul : isspace 0 = false

/-- The string `s` is white space, a sign, digits, and then the rest. -/
structure Numeral (space : WhiteSpace) (s blanks : Bytes) (sign : Sign) (digits rest : Bytes) :
    Prop where
  text : s = blanks ++ sign.text ++ digits ++ rest
  blank : ∀ c ∈ blanks, space.isspace c = true
  digit : ∀ c ∈ digits, isdigit c = true
  stop : ∀ c, rest.head? = some c → isdigit c = false

/-- What `strtoull` gives: its value, where it stopped, and whether it sets
`errno`. -/
structure Scan where
  value : Nat
  stop : Nat
  erange : Bool
deriving DecidableEq

def ULLONG_MAX : Nat := 2 ^ 64 - 1

/-- `std::strtoull(p, &end, 10)`. Without a digit, it stops where it began. -/
def strtoull (space : WhiteSpace) (p : Bytes) : Scan :=
  let blanks := p.takeWhile space.isspace
  let (sign, rest) := Sign.read (p.dropWhile space.isspace)
  let digits := rest.takeWhile isdigit
  if digits = [] then ⟨0, 0, false⟩
  else if decimalValue digits > ULLONG_MAX then
    ⟨ULLONG_MAX, (blanks ++ sign.text ++ digits).length, true⟩
  else ⟨sign.apply (decimalValue digits), (blanks ++ sign.text ++ digits).length, false⟩

section

variable {space : WhiteSpace} {p blanks digits rest : Bytes} {sign : Sign}

/-- The sign and the first digit end the white space. -/
theorem Numeral.unsigned_head (h : Numeral space p blanks sign digits rest) (hne : digits ≠ []) :
    ∃ c tail, sign.text ++ digits ++ rest = c :: tail ∧ space.isspace c = false := by
  obtain ⟨d, ds, rfl⟩ := List.exists_cons_of_ne_nil hne
  cases sign with
  | none => exact ⟨d, ds ++ rest, by simp [Sign.text], space.digit d (h.digit d (by simp))⟩
  | plus => exact ⟨0x2b, d :: ds ++ rest, rfl, space.plus⟩
  | minus => exact ⟨0x2d, d :: ds ++ rest, rfl, space.minus⟩

theorem Numeral.takeWhile_isdigit (h : Numeral space p blanks sign digits rest) :
    (digits ++ rest).takeWhile isdigit = digits := by
  rw [List.takeWhile_append_of_pos h.digit]
  cases rest with
  | nil => simp
  | cons c rest => simp [h.stop c rfl]

/-- `strtoull` reads a numeral to the end of its digits. -/
theorem strtoull_numeral (h : Numeral space p blanks sign digits rest) (hne : digits ≠ []) :
    strtoull space p = if decimalValue digits > ULLONG_MAX then
        ⟨ULLONG_MAX, (blanks ++ sign.text ++ digits).length, true⟩
      else ⟨sign.apply (decimalValue digits), (blanks ++ sign.text ++ digits).length, false⟩ := by
  have htext : p = blanks ++ (sign.text ++ digits ++ rest) := by
    rw [h.text]
    simp only [List.append_assoc]
  obtain ⟨c, tail, hrest, hc⟩ := h.unsigned_head hne
  have hblanks : p.takeWhile space.isspace = blanks := by
    rw [htext, List.takeWhile_append_of_pos h.blank, hrest]
    simp [hc]
  have hdrop : p.dropWhile space.isspace = sign.text ++ digits ++ rest := by
    rw [htext, List.dropWhile_append_of_pos h.blank, hrest]
    simp [hc]
  have hread : Sign.read (sign.text ++ digits ++ rest) = (sign, digits ++ rest) := by
    obtain ⟨d, ds, rfl⟩ := List.exists_cons_of_ne_nil hne
    rw [List.append_assoc]
    exact Sign.read_append sign (h.digit d (by simp)) (ds ++ rest)
  unfold strtoull
  rw [hdrop, hread]
  simp only [hblanks, h.takeWhile_isdigit, if_neg hne]

/-- Every string has its numeral, and without a digit nothing is read. -/
theorem exists_numeral (space : WhiteSpace) (p : Bytes) :
    ∃ blanks sign digits rest, Numeral space p blanks sign digits rest ∧
      (digits = [] → strtoull space p = ⟨0, 0, false⟩) := by
  have hsign := Sign.read_text (p.dropWhile space.isspace)
  set r := Sign.read (p.dropWhile space.isspace) with hr
  refine ⟨p.takeWhile space.isspace, r.1, r.2.takeWhile isdigit, r.2.dropWhile isdigit,
    ⟨?_, ?_, ?_, ?_⟩, ?_⟩
  · rw [List.append_assoc, List.takeWhile_append_dropWhile, List.append_assoc, hsign,
      List.takeWhile_append_dropWhile]
  · exact fun c hc => List.mem_takeWhile_imp hc
  · exact fun c hc => List.mem_takeWhile_imp hc
  · intro c hc
    have hstop := List.head?_dropWhile_not isdigit r.2
    rw [hc] at hstop
    exact hstop
  · intro hnil
    unfold strtoull
    simp only [← hr, hnil, if_pos]

/-- A decimal numeral has no white space, no sign and no rest. -/
theorem Numeral.of_decimal (h : Numeral space p blanks sign digits rest) (hp : IsDecimal p) :
    blanks = [] ∧ sign = .none ∧ digits = p ∧ rest = [] := by
  have hall : ∀ c ∈ blanks ++ sign.text ++ digits ++ rest, isdigit c = true := h.text ▸ hp.2
  have hblanks : blanks = [] := by
    refine List.eq_nil_iff_forall_not_mem.mpr fun c hc => ?_
    have hspace := space.digit c (hall c (by simp [hc]))
    rw [h.blank c hc] at hspace
    cases hspace
  have hsign : sign = .none := by
    cases sign with
    | none => rfl
    | plus => exact absurd (hall 0x2b (by simp [Sign.text])) (by simp [isdigit])
    | minus => exact absurd (hall 0x2d (by simp [Sign.text])) (by simp [isdigit])
  have hrest : rest = [] := by
    cases rest with
    | nil => rfl
    | cons c rest =>
      have hc := hall c (by simp)
      rw [h.stop c rfl] at hc
      cases hc
  refine ⟨hblanks, hsign, ?_, hrest⟩
  rw [h.text, hblanks, hsign, hrest]
  simp [Sign.text]

end

end libc
