-- The fast path of `collectHandshake`. It answers before the first record is
-- complete and reads the message in place, but never against the joining
-- loop, which gives the same answer as soon as that record is there.
import PacketInspector.Records

open wire

namespace packet_inspector.tls

/-! ## The loop alone -/

/-- `collectHandshake` without its fast path. -/
def slowCollectHandshake (p : Bytes) : HostnameResult :=
  if p.length < 1 then .NeedMore
  else if byteAt p 0 ≠ 0x16 then .NotFound
  else if p.length ≥ 2 ∧ byteAt p 1 ≠ 0x03 then .NotFound
  else if p.length < 5 then .NeedMore
  else
    let rec0 := rd16 p 3
    if rec0 = 0 ∨ rec0 > 16384 then .NotFound
    else joinRecords p [] 0 0

theorem slowCollectHandshake_header (minor : UInt8) {rl : Nat} (rest : Bytes) (h1 : 1 ≤ rl)
    (h2 : rl ≤ 16384) :
    slowCollectHandshake (header minor rl ++ rest) = joinRest (header minor rl ++ rest) [] 0 := by
  have hlen : (header minor rl ++ rest).length = 5 + rest.length := by simp [header]; omega
  have h16 := rd16_header minor rest h2
  have hb0 : byteAt (header minor rl ++ rest) 0 = 0x16 := rfl
  have hb1 : byteAt (header minor rl ++ rest) 1 = 0x03 := rfl
  have hjoin := joinRecords_eq (header minor rl ++ rest) [] 0 0
  rw [List.drop_zero] at hjoin
  unfold slowCollectHandshake
  rw [if_neg (by omega), if_neg (by rw [hb0]; simp), if_neg (by rw [hb1]; simp),
    if_neg (by omega), h16]
  simp only [hjoin]
  rw [if_neg (by omega)]

/-- Both look at the first header in the same way. -/
theorem header_or_slow_eq (s : Bytes) :
    (∃ minor rl rest, s = header minor rl ++ rest ∧ 1 ≤ rl ∧ rl ≤ 16384) ∨
      slowCollectHandshake s = collectHandshake s := by
  unfold slowCollectHandshake collectHandshake
  by_cases hl : s.length < 1
  · exact .inr (by rw [if_pos hl, if_pos hl])
  by_cases h0 : byteAt s 0 ≠ 0x16
  · exact .inr (by rw [if_neg hl, if_neg hl, if_pos h0, if_pos h0])
  by_cases h1 : s.length ≥ 2 ∧ byteAt s 1 ≠ 0x03
  · exact .inr (by rw [if_neg hl, if_neg hl, if_neg h0, if_neg h0, if_pos h1, if_pos h1])
  by_cases h5 : s.length < 5
  · refine .inr ?_
    rw [if_neg hl, if_neg hl, if_neg h0, if_neg h0, if_neg h1, if_neg h1, if_pos h5, if_pos h5]
  by_cases hr : rd16 s 3 = 0 ∨ rd16 s 3 > 16384
  · refine .inr ?_
    rw [if_neg hl, if_neg hl, if_neg h0, if_neg h0, if_neg h1, if_neg h1, if_neg h5, if_neg h5]
    simp only [if_pos hr]
  have hb1 : byteAt s 1 = 0x03 := by
    by_contra h
    exact h1 ⟨by omega, h⟩
  exact .inl ⟨_, _, _, header_of_bytes (by omega) (not_not.mp h0) hb1, by omega, by omega⟩

/-! ## Where both answer -/

/-- Once the first record is complete, the fast path reads what the loop
joins: the header of the message, and the message when it is not longer. -/
theorem collectHandshake_of_complete (minor : UInt8) {rl : Nat} {rest : Bytes} (h1 : 1 ≤ rl)
    (h2 : rl ≤ 16384) (h : rl ≤ rest.length) :
    collectHandshake (header minor rl ++ rest) = joinRest (header minor rl ++ rest) [] 0 := by
  rw [collectHandshake_header minor rl rest h1 h2]
  by_cases h4 : 4 ≤ rl
  swap
  · rw [if_neg (fun hn => h4 hn.1)]
  rw [if_pos ⟨h4, by omega⟩]
  have hpay : (rest.take rl).length = rl := by simp [h]
  let r : Record := ⟨minor, rest.take rl, by omega, by omega⟩
  have hs : header minor rl ++ rest = r.encode ++ rest.drop rl := by
    simp [r, header, Record.encode, hpay, List.append_assoc]
  have hwant : wantAfter ([] ++ r.payload) 0 = messageWant rest 0 := by
    rw [List.nil_append, wantAfter, if_pos ⟨rfl, by rw [hpay]; exact h4⟩]
    exact (messageWant_of_initial (List.take_prefix rl rest) (by omega)).symm
  cases hw : messageWant rest 0 with
  | none =>
    rw [hw] at hwant
    rw [hs, joinRest_go (.inl rfl), nextRecord_encode]
    simp only [hwant]
  | some want =>
    simp only
    by_cases hle : want ≤ rl
    · have hmin := (messageWant_eq_some_iff.mp hw).2.2.2
      rw [hw] at hwant
      rw [if_pos hle, if_neg (by omega), hs, joinRest_go (.inl rfl), nextRecord_encode]
      simp only [hwant]
      rw [List.nil_append, joinRest_stop (by rw [hpay]; omega), List.take_take, min_eq_left hle]
    · rw [if_neg hle]

/-- Wherever the loop answers, the fast path gives its answer. -/
theorem collectHandshake_of_slow {s : Bytes} (h : slowCollectHandshake s ≠ .NeedMore) :
    collectHandshake s = slowCollectHandshake s := by
  rcases header_or_slow_eq s with ⟨minor, rl, rest, rfl, h1, h2⟩ | he
  · rw [slowCollectHandshake_header minor rest h1 h2] at h ⊢
    by_cases hlen : rest.length < rl
    · exact absurd (joinRest_of_incomplete minor h1 h2 hlen) h
    · exact collectHandshake_of_complete minor h1 h2 (not_lt.mp hlen)
  · exact he.symm

theorem collectHandshake_append {s : Bytes} (t : Bytes) (h : collectHandshake s ≠ .NeedMore) :
    collectHandshake (s ++ t) = collectHandshake s := by
  cases hc : collectHandshake s with
  | Found m => exact collectHandshake_found_append t hc
  | NotFound => exact collectHandshake_notFound_append t hc
  | NeedMore => exact absurd hc h

/-- An early answer is due: the loop gives it when the first record is there. -/
theorem the_loop_gives_every_early_answer {s : Bytes} (h : collectHandshake s ≠ .NeedMore) :
    ∃ t, slowCollectHandshake (s ++ t) = collectHandshake s := by
  rcases header_or_slow_eq s with ⟨minor, rl, rest, rfl, h1, h2⟩ | he
  · refine ⟨List.replicate (rl - rest.length) 0, ?_⟩
    rw [← collectHandshake_append (List.replicate (rl - rest.length) 0) h, List.append_assoc,
      slowCollectHandshake_header minor _ h1 h2, collectHandshake_of_complete minor h1 h2]
    simp
    omega
  · exact ⟨[], by rw [List.append_nil, he]⟩

/-- The fast path refines the joining loop: it answers whenever the loop
does, and as the loop does; and when it answers earlier, that is the answer
of the loop on every longer stream that it answers. -/
theorem the_fast_path_refines_the_joining_loop (s : Bytes) :
    (∀ m, slowCollectHandshake s = .Found m → collectHandshake s = .Found m) ∧
    (slowCollectHandshake s = .NotFound → collectHandshake s = .NotFound) ∧
    (∀ m, collectHandshake s = .Found m →
      ∀ t, slowCollectHandshake (s ++ t) ≠ .NeedMore → slowCollectHandshake (s ++ t) = .Found m) ∧
    (collectHandshake s = .NotFound →
      ∀ t, slowCollectHandshake (s ++ t) ≠ .NeedMore →
        slowCollectHandshake (s ++ t) = .NotFound) := by
  refine ⟨?_, ?_, ?_, ?_⟩
  · intro m h
    rw [collectHandshake_of_slow (by rw [h]; simp), h]
  · intro h
    rw [collectHandshake_of_slow (by rw [h]; simp), h]
  · intro m h t ht
    rw [← collectHandshake_of_slow ht, collectHandshake_append t (by rw [h]; simp), h]
  · intro h t ht
    rw [← collectHandshake_of_slow ht, collectHandshake_append t (by rw [h]; simp), h]

end packet_inspector.tls
