-- `parse_uint` of cli.cpp, the reader of every numeric option, against what
-- its comment says of it: it accepts the unsigned decimals of its range.
import PacketInspector.Policy
import PacketInspector.Strtoull

open wire libc

namespace packet_inspector.cli

/-! ## The reader -/

/-- The white space of the C locale. -/
def cSpace : WhiteSpace where
  isspace := BlockList.isspace
  digit := by
    intro c hc
    simp only [isdigit, BlockList.isspace, Bool.and_eq_true, decide_eq_true_eq,
      Bool.or_eq_false_iff, decide_eq_false_iff_not, Bool.and_eq_false_imp] at hc ⊢
    have hlow := UInt8.le_iff_toNat_le.mp hc.1
    refine ⟨?_, fun _ h => ?_⟩
    · rintro rfl
      simp at hlow
    · have hhigh := UInt8.le_iff_toNat_le.mp h
      simp at hlow hhigh
      omega
  plus := by decide
  minus := by decide
  nul := by decide

/-- Parse an unsigned decimal into `[lo, hi]`: the number, or nothing. -/
def parse_uint (s : Bytes) (lo hi : Nat) : Option Nat :=
  if s = [] then none
  else
    let tmp := c_str s
    let v := strtoull cSpace tmp
    -- The byte past the end of `tmp` is its terminator.
    if v.erange ∨ v.stop = 0 ∨ byteAt tmp v.stop ≠ 0 ∨ v.value < lo ∨ v.value > hi then none
    else some v.value

/-! ## What it accepts -/

/-- The string `s` is read as the number `v`: white space, a sign and digits
come first, and then nothing or a NUL. -/
def ReadAs (s : Bytes) (v : Nat) : Prop :=
  ∃ (blanks : Bytes) (sign : Sign) (digits z : Bytes), s = blanks ++ sign.text ++ digits ++ z ∧
    (∀ c ∈ blanks, BlockList.isspace c = true) ∧ IsDecimal digits ∧
    (z = [] ∨ z.head? = some 0) ∧ decimalValue digits < 2 ^ 64 ∧ v = sign.apply (decimalValue digits)

theorem nul_not_mem_text (sign : Sign) : 0 ∉ sign.text := by
  cases sign <;> simp [Sign.text]

theorem nul_not_mem_numeral {p blanks digits rest : Bytes} {sign : Sign}
    (h : Numeral cSpace p blanks sign digits rest) : 0 ∉ blanks ++ sign.text ++ digits := by
  simp only [List.mem_append, not_or]
  refine ⟨⟨fun hc => ?_, nul_not_mem_text sign⟩, fun hc => ?_⟩
  · have hblank := h.blank 0 hc
    rw [cSpace.nul] at hblank
    cases hblank
  · have hdigit := h.digit 0 hc
    rw [isdigit_zero] at hdigit
    cases hdigit

/-- The terminator is where the numeral ends. -/
theorem byteAt_length_eq_zero_iff {p q : Bytes} (h : 0 ∉ p ++ q) :
    byteAt (p ++ q) p.length = 0 ↔ q = [] := by
  cases q with
  | nil => simp [byteAt]
  | cons c q =>
    have hc : c ≠ 0 := by
      rintro rfl
      exact h (by simp)
    simp only [byteAt, List.getD_append_right _ _ _ _ (Nat.le_refl p.length), Nat.sub_self,
      List.getD_cons_zero, reduceCtorEq, iff_false]
    exact fun hz => hc (UInt8.toNat_inj.mp hz)

/-- `parse_uint` accepts what reads as a number of its range. -/
theorem parse_uint_eq_some_iff {s : Bytes} {lo hi v : Nat} :
    parse_uint s lo hi = some v ↔ ReadAs s v ∧ lo ≤ v ∧ v ≤ hi := by
  constructor
  · intro h
    obtain ⟨z, hz, hend⟩ := exists_c_str_append s
    obtain ⟨blanks, sign, digits, rest, hnum, hempty⟩ := exists_numeral cSpace (c_str s)
    unfold parse_uint at h
    split_ifs at h with hs
    simp only [Option.ite_none_left_eq_some, not_or, Bool.not_eq_true, not_lt, not_not] at h
    obtain ⟨⟨herange, hstop, hnul, hlo, hhi⟩, hv⟩ := h
    have hne : digits ≠ [] := by
      intro hnil
      rw [hempty hnil] at hstop
      exact hstop rfl
    rw [strtoull_numeral hnum hne] at herange hnul hlo hhi hv
    have hfits : ¬ decimalValue digits > ULLONG_MAX := by
      intro hover
      rw [if_pos hover] at herange
      cases herange
    simp only [if_neg hfits, Option.some.injEq] at hnul hlo hhi hv
    have hrest : rest = [] := by
      rw [hnum.text] at hnul
      exact (byteAt_length_eq_zero_iff (hnum.text ▸ nul_not_mem_c_str s)).mp hnul
    refine ⟨⟨blanks, sign, digits, z, ?_, hnum.blank, ⟨hne, hnum.digit⟩, hend, ?_, hv.symm⟩,
      hv ▸ hlo, hv ▸ hhi⟩
    · rw [hz, hnum.text, hrest, List.append_nil]
    · unfold ULLONG_MAX at hfits
      omega
  · rintro ⟨⟨blanks, sign, digits, z, hs, hblank, ⟨hne, hdigit⟩, hend, hfits, hv⟩, hlo, hhi⟩
    have hnum : Numeral cSpace (blanks ++ sign.text ++ digits) blanks sign digits [] :=
      ⟨by rw [List.append_nil], hblank, hdigit, by simp⟩
    have hstr : c_str s = blanks ++ sign.text ++ digits := by
      rw [hs]
      exact c_str_append (nul_not_mem_numeral hnum) hend
    have hpos := List.length_pos_iff.mpr hne
    have hsne : s ≠ [] := by
      rw [hs]
      simp [hne]
    have hnul : byteAt (blanks ++ sign.text ++ digits) (blanks ++ sign.text ++ digits).length = 0 := by
      simp [byteAt]
    have hsmall : ¬ decimalValue digits > ULLONG_MAX := by
      unfold ULLONG_MAX
      omega
    unfold parse_uint
    simp only [if_neg hsne, hstr, strtoull_numeral hnum hne, if_neg hsmall, hnul, ← hv]
    rw [if_neg]
    simp only [Bool.false_eq_true, false_or, not_or, List.length_append]
    omega

/-! ## What its comment says -/

/-- A numeral of the string stands with white space, a sign or a NUL around
its digits, and `strtoull` makes of it a number of the range. -/
def Decorated (s : Bytes) (lo hi : Nat) : Prop :=
  ∃ (blanks : Bytes) (sign : Sign) (digits z : Bytes), s = blanks ++ sign.text ++ digits ++ z ∧
    (∀ c ∈ blanks, BlockList.isspace c = true) ∧ IsDecimal digits ∧
    (z = [] ∨ z.head? = some 0) ∧ (blanks ≠ [] ∨ sign ≠ .none ∨ z ≠ []) ∧
    decimalValue digits < 2 ^ 64 ∧
    lo ≤ sign.apply (decimalValue digits) ∧ sign.apply (decimalValue digits) ≤ hi

theorem stop_of_end {z : Bytes} (h : z = [] ∨ z.head? = some 0) :
    ∀ c, z.head? = some c → isdigit c = false := by
  rintro c hc
  rcases h with rfl | hz
  · cases hc
  · rw [hc] at hz
    cases hz
    exact isdigit_zero

/-- A decimal is read as its own number, and as no other. -/
theorem readAs_decimal_iff {s : Bytes} {v : Nat} (hs : IsDecimal s) :
    ReadAs s v ↔ v = decimalValue s ∧ v < 2 ^ 64 := by
  constructor
  · rintro ⟨blanks, sign, digits, z, htext, hblank, hdigits, hend, hfits, rfl⟩
    have hnum : Numeral cSpace s blanks sign digits z := ⟨htext, hblank, hdigits.2, stop_of_end hend⟩
    obtain ⟨-, rfl, rfl, -⟩ := hnum.of_decimal hs
    exact ⟨rfl, hfits⟩
  · rintro ⟨rfl, hfits⟩
    exact ⟨[], .none, s, [], by simp [Sign.text], by simp, hs, .inl rfl, hfits, rfl⟩

theorem decorated_iff {s : Bytes} {lo hi : Nat} :
    Decorated s lo hi ↔ ∃ v, ReadAs s v ∧ ¬ IsDecimal s ∧ lo ≤ v ∧ v ≤ hi := by
  constructor
  · rintro ⟨blanks, sign, digits, z, htext, hblank, hdigits, hend, hmore, hfits, hlo, hhi⟩
    refine ⟨_, ⟨blanks, sign, digits, z, htext, hblank, hdigits, hend, hfits, rfl⟩, ?_, hlo, hhi⟩
    intro hs
    have hnum : Numeral cSpace s blanks sign digits z := ⟨htext, hblank, hdigits.2, stop_of_end hend⟩
    obtain ⟨rfl, rfl, -, rfl⟩ := hnum.of_decimal hs
    simp at hmore
  · rintro ⟨v, ⟨blanks, sign, digits, z, htext, hblank, hdigits, hend, hfits, rfl⟩, hs, hlo, hhi⟩
    refine ⟨blanks, sign, digits, z, htext, hblank, hdigits, hend, ?_, hfits, hlo, hhi⟩
    by_contra hplain
    simp only [not_or, not_not] at hplain
    obtain ⟨rfl, rfl, rfl⟩ := hplain
    rw [htext] at hs
    simp [Sign.text, hdigits] at hs

/-- `parse_uint` accepts the unsigned decimals of the range, and nothing
else, on every string but the decorated ones. -/
theorem parse_uint_accepts_decimals_iff {s : Bytes} {lo hi : Nat} (hhi : hi < 2 ^ 64) :
    (∀ v, parse_uint s lo hi = some v ↔ IsDecimal s ∧ v = decimalValue s ∧ lo ≤ v ∧ v ≤ hi) ↔
      ¬ Decorated s lo hi := by
  rw [decorated_iff]
  constructor
  · rintro h ⟨v, hread, hs, hv⟩
    exact hs ((h v).mp (parse_uint_eq_some_iff.mpr ⟨hread, hv⟩)).1
  · intro h v
    rw [parse_uint_eq_some_iff]
    constructor
    · rintro ⟨hread, hv⟩
      have hs : IsDecimal s := by
        by_contra hs
        exact h ⟨v, hread, hs, hv⟩
      exact ⟨hs, ((readAs_decimal_iff hs).mp hread).1, hv⟩
    · rintro ⟨hs, hv, hlo, hle⟩
      exact ⟨(readAs_decimal_iff hs).mpr ⟨hv, by omega⟩, hlo, hle⟩

/-- The number of jobs as a plain decimal, `8`, is read to the letter. -/
theorem parse_uint_accepts_decimals_jobs : parse_uint [0x38] 1 4096 = some 8 := by
  have hplain : ¬ Decorated [0x38] 1 4096 := by
    rw [decorated_iff]
    rintro ⟨v, -, hs, -⟩
    exact hs (by simp [IsDecimal, isdigit])
  refine ((parse_uint_accepts_decimals_iff (by norm_num)).mpr hplain 8).mpr ?_
  simp [IsDecimal, isdigit, decimalValue]

/-- `-j -18446744073709551612` runs four workers: the range does not see the
minus sign. -/
theorem parse_uint_negative :
    ¬ ∀ (s : Bytes) (lo hi : Nat), lo ≤ hi → hi < 2 ^ 64 →
      ∀ v, parse_uint s lo hi = some v ↔ IsDecimal s ∧ v = decimalValue s ∧ lo ≤ v ∧ v ≤ hi := by
  intro h
  have hread : parse_uint [0x2d, 0x31, 0x38, 0x34, 0x34, 0x36, 0x37, 0x34, 0x34, 0x30, 0x37, 0x33,
      0x37, 0x30, 0x39, 0x35, 0x35, 0x31, 0x36, 0x31, 0x32] 1 4096 = some 4 := by
    decide +kernel
  have hdecimal := (h _ 1 4096 (by norm_num) (by norm_num) 4).mp hread
  exact absurd hdecimal.1 (by simp [IsDecimal, isdigit])

end packet_inspector.cli
