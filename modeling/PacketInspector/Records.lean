-- The record layer of `hostname_extractor.cpp`: `collectHandshake` takes a
-- handshake message out of the records that carry it. The laws say which
-- streams hold a whole ClientHello, and that any cut into records gives it
-- back.
import PacketInspector.Wire

open wire

namespace packet_inspector.tls

/-- The answer of the parsers, with what they point at on `Found`. -/
inductive HostnameResult where
  | Found (out : Bytes)
  | NotFound
  | NeedMore
  deriving DecidableEq, Repr

/-! ## The code -/

/-- The length of the whole message that starts with the four bytes at
`i`, or nothing when they do not open a ClientHello of a sane length. -/
def messageWant (p : Bytes) (i : Nat) : Option Nat :=
  if byteAt p i ≠ 0x01 then none
  else
    let msg_len := rd24 p (i + 1)
    if msg_len < 34 ∨ msg_len > 65535 then none else some (4 + msg_len)

/-- The length of the message once the payloads so far are `scratch`: read
when four bytes of it have accumulated, and kept from then on. -/
def wantAfter (scratch : Bytes) (want : Nat) : Option Nat :=
  if want = 0 ∧ 4 ≤ scratch.length then messageWant scratch 0 else some want

/-- The joining loop: `scratch` holds the payloads so far, `off` is the
next record, and `want` is the length of the message, 0 while unknown. -/
def joinRecords (p : Bytes) (scratch : Bytes) (off want : Nat) : HostnameResult :=
  if want = 0 ∨ scratch.length < want then
    if p.length - off < 5 then .NeedMore
    else if byteAt p off ≠ 0x16 ∨ byteAt p (off + 1) ≠ 0x03 then .NotFound
    else
      let rl := rd16 p (off + 3)
      if rl = 0 ∨ rl > 16384 then .NotFound
      else if p.length - off - 5 < rl then .NeedMore
      else
        let scratch := scratch ++ (p.drop (off + 5)).take rl
        let off := off + (5 + rl)
        match wantAfter scratch want with
        | none => .NotFound
        | some want =>
          if off ≥ p.length ∧ (want = 0 ∨ scratch.length < want) then .NeedMore
          else joinRecords p scratch off want
  else .Found (scratch.take want)
termination_by p.length - off

/-- Collect the complete handshake message out of the record layer. -/
def collectHandshake (p : Bytes) : HostnameResult :=
  if p.length < 1 then .NeedMore
  else if byteAt p 0 ≠ 0x16 then .NotFound
  else if p.length ≥ 2 ∧ byteAt p 1 ≠ 0x03 then .NotFound
  else if p.length < 5 then .NeedMore
  else
    let rec0 := rd16 p 3
    if rec0 = 0 ∨ rec0 > 16384 then .NotFound
    -- the first record holds the handshake header: read it in place
    else if rec0 ≥ 4 ∧ p.length ≥ 9 then
      match messageWant p 5 with
      | none => .NotFound
      | some want =>
        if want ≤ rec0 then
          if p.length < 5 + want then .NeedMore else .Found ((p.drop 5).take want)
        else joinRecords p [] 0 0
    else joinRecords p [] 0 0

/-! ## Records -/

/-- A complete TLS record of the handshake type. -/
structure Record where
  minor : UInt8
  payload : Bytes
  nonempty : 1 ≤ payload.length
  capped : payload.length ≤ 16384

namespace Record

def encode (r : Record) : Bytes := [0x16, 0x03, r.minor] ++ be16 r.payload.length ++ r.payload

def encodeAll (rs : List Record) : Bytes := rs.flatMap encode

def payloads (rs : List Record) : Bytes := rs.flatMap payload

@[simp] theorem encodeAll_nil : encodeAll [] = [] := rfl

@[simp] theorem encodeAll_cons (r : Record) (rs : List Record) :
    encodeAll (r :: rs) = r.encode ++ encodeAll rs := rfl

@[simp] theorem payloads_nil : payloads [] = [] := rfl

@[simp] theorem payloads_cons (r : Record) (rs : List Record) :
    payloads (r :: rs) = r.payload ++ payloads rs := rfl

@[simp] theorem encode_length (r : Record) : r.encode.length = 5 + r.payload.length := by
  simp [encode]; omega

/-- A record is an item with a three-byte tag. -/
def item (r : Record) : Item 3 :=
  ⟨[0x16, 0x03, r.minor], r.payload, rfl, by have := r.capped; omega⟩

theorem item_encode (r : Record) : r.item.encode = r.encode := rfl

end Record

/-- What the head of a stream is: the start of a record that is not all
there, no handshake record, or a complete record and what follows it. -/
inductive Next where
  | more
  | bad
  | record (payload rest : Bytes)

def nextRecord (q : Bytes) : Next :=
  if q.length < 5 then .more
  else if byteAt q 0 ≠ 0x16 ∨ byteAt q 1 ≠ 0x03 then .bad
  else if rd16 q 3 = 0 ∨ rd16 q 3 > 16384 then .bad
  else if q.length - 5 < rd16 q 3 then .more
  else .record ((q.drop 5).take (rd16 q 3)) (q.drop (5 + rd16 q 3))

theorem nextRecord_encode (r : Record) (t : Bytes) :
    nextRecord (r.encode ++ t) = .record r.payload t := by
  have h16 : rd16 (r.encode ++ t) 3 = r.payload.length := Item.rd16_encode r.item t
  have h0 : byteAt (r.encode ++ t) 0 = 0x16 := rfl
  have h1 : byteAt (r.encode ++ t) 1 = 0x03 := rfl
  have hlen : (r.encode ++ t).length = 5 + r.payload.length + t.length := by simp
  have hn := r.nonempty
  have hc := r.capped
  have hd : (r.encode ++ t).drop 5 = r.payload ++ t := by
    simp [Record.encode, be16]
  have hd2 : (r.encode ++ t).drop (5 + r.payload.length) = t := by
    rw [← List.drop_drop, hd]; simp
  unfold nextRecord
  rw [if_neg (by omega), h0, h1, if_neg (by simp), h16, if_neg (by omega), if_neg (by omega), hd,
    hd2]
  simp

theorem eq_encode_of_nextRecord {q b t : Bytes} (h : nextRecord q = .record b t) :
    ∃ r : Record, r.payload = b ∧ q = r.encode ++ t := by
  unfold nextRecord at h
  split at h
  · cases h
  split at h
  · cases h
  split at h
  · cases h
  split at h
  · cases h
  rename_i h5 htag hlen hrest
  simp only [Next.record.injEq] at h
  obtain ⟨rfl, rfl⟩ := h
  have hbody : ((q.drop 5).take (rd16 q 3)).length = rd16 q 3 := by simp; omega
  have hmin : 3 + 2 + rd16 q 3 ≤ q.length := by omega
  have hitem := Item.decode_eq_some_iff.mp (dif_pos hmin : Item.decode 3 q = _)
  refine ⟨⟨q.getD 2 0, (q.drop 5).take (rd16 q 3), by omega, by omega⟩, rfl, ?_⟩
  have htag3 : q.take 3 = [0x16, 0x03, q.getD 2 0] := by
    rcases q with _ | ⟨a, _ | ⟨b, _ | ⟨c, u⟩⟩⟩
    · simp at h5
    · simp at h5
    · simp at h5
    · simp only [byteAt, List.getD_cons_zero, List.getD_cons_succ, not_or, not_not] at htag
      have ha : a = 0x16 := UInt8.toNat_inj.mp htag.1
      have hb : b = 0x03 := UInt8.toNat_inj.mp htag.2
      simp [ha, hb]
  simpa [Item.encode, Record.encode, htag3] using hitem

theorem nextRecord_bad_append {q : Bytes} (t : Bytes) (h : nextRecord q = .bad) :
    nextRecord (q ++ t) = .bad := by
  unfold nextRecord at h
  split at h
  · cases h
  rename_i h5
  have hlen : ¬ (q ++ t).length < 5 := by simp; omega
  unfold nextRecord
  rw [if_neg hlen, byteAt_append_left t (by omega), byteAt_append_left t (by omega),
    rd16_append_left t (by omega)]
  split at h
  · rename_i htag; rw [if_pos htag]
  rename_i htag
  rw [if_neg htag]
  split at h
  · rename_i hrl; rw [if_pos hrl]
  split at h <;> cases h

/-! ## The message -/

/-- A complete ClientHello message: type 1, a 24-bit length in range, and
as many bytes as it says. -/
def IsClientHello (m : Bytes) : Prop :=
  byteAt m 0 = 0x01 ∧ 34 ≤ rd24 m 1 ∧ rd24 m 1 ≤ 65535 ∧ m.length = 4 + rd24 m 1

theorem messageWant_eq_some_iff {p : Bytes} {i n : Nat} :
    messageWant p i = some n ↔
      byteAt p i = 0x01 ∧ 34 ≤ rd24 p (i + 1) ∧ rd24 p (i + 1) ≤ 65535 ∧ n = 4 + rd24 p (i + 1) := by
  unfold messageWant
  by_cases h1 : byteAt p i = 0x01
  · simp only [h1, ne_eq, not_true_eq_false, if_false, true_and]
    split
    · simp; omega
    · simp only [Option.some.injEq]; omega
  · simp [h1]

theorem isClientHello_iff {m : Bytes} : IsClientHello m ↔ messageWant m 0 = some m.length := by
  rw [messageWant_eq_some_iff]; rfl

theorem messageWant_drop (p : Bytes) (k : Nat) : messageWant (p.drop k) 0 = messageWant p k := by
  simp [messageWant, byteAt_drop, rd24_drop]

/-- The first four bytes decide the length. -/
theorem messageWant_of_initial {x y : Bytes} (h : x <+: y) (h4 : 4 ≤ x.length) :
    messageWant y 0 = messageWant x 0 := by
  obtain ⟨t, rfl⟩ := h
  unfold messageWant
  rw [byteAt_append_left t (by omega), rd24_append_left t (by omega)]

theorem IsClientHello.four_le {m : Bytes} (h : IsClientHello m) : 4 ≤ m.length := by
  have := h.2.2.2
  omega

/-- Two strings that start the same stream agree on the length. -/
theorem messageWant_of_common {x m y : Bytes} (hx : x <+: y) (hm : m <+: y) (h4 : 4 ≤ x.length)
    (hc : IsClientHello m) : messageWant x 0 = some m.length := by
  rw [← messageWant_of_initial hx h4, messageWant_of_initial hm hc.four_le]
  exact isClientHello_iff.mp hc

/-! ## The joining loop on the rest of the stream -/

/-- The joining loop, on the bytes that it has not read yet. -/
def joinRest (q scratch : Bytes) (want : Nat) : HostnameResult :=
  if want = 0 ∨ scratch.length < want then
    match _h : nextRecord q with
    | .more => .NeedMore
    | .bad => .NotFound
    | .record b t =>
      match wantAfter (scratch ++ b) want with
      | none => .NotFound
      | some want => joinRest t (scratch ++ b) want
  else .Found (scratch.take want)
termination_by q.length
decreasing_by
  obtain ⟨r, -, rfl⟩ := eq_encode_of_nextRecord _h
  simp only [List.length_append, Record.encode_length]
  omega

theorem joinRest_go {q scratch : Bytes} {want : Nat} (hgo : want = 0 ∨ scratch.length < want) :
    joinRest q scratch want = match nextRecord q with
      | .more => .NeedMore
      | .bad => .NotFound
      | .record b t => match wantAfter (scratch ++ b) want with
        | none => .NotFound
        | some want => joinRest t (scratch ++ b) want := by
  rw [joinRest, if_pos hgo]
  split <;> rename_i h <;> simp only [h]

theorem joinRest_stop {q scratch : Bytes} {want : Nat} (h : ¬ (want = 0 ∨ scratch.length < want)) :
    joinRest q scratch want = .Found (scratch.take want) := by
  rw [joinRest, if_neg h]

theorem nextRecord_drop (p : Bytes) (off : Nat) :
    nextRecord (p.drop off) =
      if p.length - off < 5 then .more
      else if byteAt p off ≠ 0x16 ∨ byteAt p (off + 1) ≠ 0x03 then .bad
      else if rd16 p (off + 3) = 0 ∨ rd16 p (off + 3) > 16384 then .bad
      else if p.length - off - 5 < rd16 p (off + 3) then .more
      else .record ((p.drop (off + 5)).take (rd16 p (off + 3)))
        (p.drop (off + (5 + rd16 p (off + 3)))) := by
  simp only [nextRecord, byteAt_drop, rd16_drop, List.drop_drop, List.length_drop, Nat.add_zero]

/-- The loop by offsets is the loop on the rest of the stream. The early
`NeedMore` at the end of the stream is the one that the next turn gives. -/
theorem joinRecords_eq (p scratch : Bytes) (off want : Nat) :
    joinRecords p scratch off want = joinRest (p.drop off) scratch want := by
  fun_induction joinRecords p scratch off want with
  | case1 scratch off want hgo h5 =>
    rw [joinRest_go hgo, nextRecord_drop, if_pos h5]
  | case2 scratch off want hgo h5 htag =>
    rw [joinRest_go hgo, nextRecord_drop, if_neg h5, if_pos htag]
  | case3 scratch off want hgo h5 htag rl hrl =>
    rw [joinRest_go hgo, nextRecord_drop, if_neg h5, if_neg htag, if_pos hrl]
  | case4 scratch off want hgo h5 htag rl hrl hmore =>
    rw [joinRest_go hgo, nextRecord_drop, if_neg h5, if_neg htag, if_neg hrl, if_pos hmore]
  | case5 scratch off want hgo h5 htag rl hrl hmore joined hw =>
    rw [joinRest_go hgo, nextRecord_drop, if_neg h5, if_neg htag, if_neg hrl, if_neg hmore]
    simp only [joined, rl] at hw
    simp only [hw]
  | case6 scratch off want hgo h5 htag rl hrl hmore joined next want' hw hend =>
    rw [joinRest_go hgo, nextRecord_drop, if_neg h5, if_neg htag, if_neg hrl, if_neg hmore]
    simp only [joined, rl] at hw
    simp only [hw]
    rw [joinRest_go hend.2, List.drop_of_length_le hend.1]
    rfl
  | case7 scratch off want hgo h5 htag rl hrl hmore joined next want' hw hend ih =>
    rw [joinRest_go hgo, nextRecord_drop, if_neg h5, if_neg htag, if_neg hrl, if_neg hmore]
    simp only [joined, rl] at hw
    simp only [hw]
    exact ih
  | case8 scratch off want hstop => rw [joinRest_stop hstop]

/-! ## What the loop finds -/

/-- The loop knows the length of the message as soon as it has four bytes
of it, and not before. -/
def Expects (scratch : Bytes) (want : Nat) : Prop := wantAfter scratch 0 = some want

theorem expects_nil : Expects [] 0 := rfl

theorem Expects.of_four_le {scratch : Bytes} {want : Nat} (h : Expects scratch want)
    (h4 : 4 ≤ scratch.length) : messageWant scratch 0 = some want := by
  simpa [Expects, wantAfter, h4] using h

theorem Expects.four_le {scratch : Bytes} {want : Nat} (h : Expects scratch want)
    (hw : want ≠ 0) : 4 ≤ scratch.length := by
  by_contra h4
  simp only [Expects, wantAfter, h4, and_false, if_false, Option.some.injEq] at h
  exact hw h.symm

theorem Expects.ne_zero {scratch : Bytes} {want : Nat} (h : Expects scratch want)
    (h4 : 4 ≤ scratch.length) : want ≠ 0 := by
  have := (messageWant_eq_some_iff.mp (h.of_four_le h4)).2.2.2
  omega

/-- A turn of the loop keeps that knowledge. -/
theorem Expects.append {scratch b : Bytes} {want want' : Nat} (h : Expects scratch want)
    (hw : wantAfter (scratch ++ b) want = some want') : Expects (scratch ++ b) want' := by
  by_cases h0 : want = 0
  · subst h0
    exact hw
  · have h4 := h.four_le h0
    have hsame : want' = want := by simpa [wantAfter, h0] using hw.symm
    subst hsame
    have h4' : 4 ≤ (scratch ++ b).length := by simp; omega
    simp only [Expects, wantAfter, h4', and_self, if_true]
    rw [messageWant_of_initial (List.prefix_append scratch b) h4]
    exact h.of_four_le h4

/-- What the loop finds is a complete message at the front of the payloads
of complete records. -/
theorem hello_of_joinRest {q scratch m : Bytes} {want : Nat} (he : Expects scratch want)
    (h : joinRest q scratch want = .Found m) :
    IsClientHello m ∧ ∃ rs t, q = Record.encodeAll rs ++ t ∧ m <+: scratch ++ Record.payloads rs := by
  fun_induction joinRest q scratch want with
  | case1 | case2 | case3 => simp at h
  | case4 q scratch want hgo b t hn want' hw ih =>
    obtain ⟨r, rfl, rfl⟩ := eq_encode_of_nextRecord hn
    obtain ⟨hm, rs, u, rfl, hp⟩ := ih (he.append hw) h
    refine ⟨hm, r :: rs, u, by simp [List.append_assoc], ?_⟩
    simpa [List.append_assoc] using hp
  | case5 q scratch want hstop =>
    simp only [HostnameResult.Found.injEq] at h
    subst h
    have h0 : want ≠ 0 := fun h => hstop (Or.inl h)
    have hle : want ≤ scratch.length := by omega
    have hwant := he.of_four_le (he.four_le h0)
    have hmin := (messageWant_eq_some_iff.mp hwant).2.2.2
    have hlen : (scratch.take want).length = want := by simp [hle]
    refine ⟨?_, [], q, by simp, by simpa using List.take_prefix want scratch⟩
    rw [isClientHello_iff, hlen, ← messageWant_of_initial (List.take_prefix want scratch) (by omega)]
    exact hwant

theorem joinRest_stop_of_hello {q scratch m x : Bytes} {want : Nat} (hm : IsClientHello m)
    (he : Expects scratch want) (hp : m <+: scratch ++ x)
    (hstop : ¬ (want = 0 ∨ scratch.length < want)) : joinRest q scratch want = .Found m := by
  have h4 := he.four_le (fun h => hstop (Or.inl h))
  have hw := messageWant_of_common (List.prefix_append scratch x) hp h4 hm
  rw [he.of_four_le h4, Option.some.injEq] at hw
  rw [joinRest_stop hstop, List.prefix_iff_eq_take.mp hp, hw,
    List.take_append_of_le_length (by omega)]

/-- A complete message at the front of the payloads of complete records is
found, whatever follows them. -/
theorem joinRest_of_hello {m : Bytes} (hm : IsClientHello m) (rs : List Record) (t : Bytes)
    {scratch : Bytes} {want : Nat} (he : Expects scratch want)
    (hp : m <+: scratch ++ Record.payloads rs) :
    joinRest (Record.encodeAll rs ++ t) scratch want = .Found m := by
  induction rs generalizing scratch want with
  | nil =>
    apply joinRest_stop_of_hello hm he hp
    rw [Record.payloads_nil, List.append_nil] at hp
    have hle := hp.length_le
    have h4 := le_trans hm.four_le hle
    have hw := messageWant_of_common (List.prefix_refl scratch) hp h4 hm
    rw [he.of_four_le h4, Option.some.injEq] at hw
    have := he.ne_zero h4
    omega
  | cons r rs ih =>
    by_cases hgo : want = 0 ∨ scratch.length < want
    · rw [Record.payloads_cons, ← List.append_assoc] at hp
      obtain ⟨want', hw⟩ : ∃ w, wantAfter (scratch ++ r.payload) want = some w := by
        unfold wantAfter
        split
        · rename_i h4
          exact ⟨_, messageWant_of_common (List.prefix_append _ _) hp h4.2 hm⟩
        · exact ⟨_, rfl⟩
      rw [joinRest_go hgo, Record.encodeAll_cons, List.append_assoc, nextRecord_encode]
      simp only [hw]
      exact ih (he.append hw) hp
    · exact joinRest_stop_of_hello hm he hp hgo

/-- A stream that the loop rejects stays rejected when more arrives. -/
theorem joinRest_notFound_append {q scratch : Bytes} {want : Nat} (t : Bytes)
    (h : joinRest q scratch want = .NotFound) : joinRest (q ++ t) scratch want = .NotFound := by
  fun_induction joinRest q scratch want with
  | case1 => simp at h
  | case2 q scratch want hgo hn =>
    rw [joinRest_go hgo, nextRecord_bad_append t hn]
  | case3 q scratch want hgo b u hn hw =>
    obtain ⟨r, rfl, rfl⟩ := eq_encode_of_nextRecord hn
    rw [joinRest_go hgo, List.append_assoc, nextRecord_encode]
    simp only [hw]
  | case4 q scratch want hgo b u hn want' hw ih =>
    obtain ⟨r, rfl, rfl⟩ := eq_encode_of_nextRecord hn
    rw [joinRest_go hgo, List.append_assoc, nextRecord_encode]
    simp only [hw]
    exact ih h
  | case5 => simp at h

/-! ## What `collectHandshake` finds -/

/-- The message lies in the first record, which itself may be incomplete. -/
def InFirstRecord (s m : Bytes) : Prop :=
  ∃ (minor : UInt8) (rl : Nat) (rest : Bytes), s = [0x16, 0x03, minor] ++ be16 rl ++ rest ∧
    1 ≤ rl ∧ rl ≤ 16384 ∧ m.length ≤ rl ∧ m <+: rest

/-- The message is longer than the first record and lies in the payloads
of complete records. -/
def AcrossRecords (s m : Bytes) : Prop :=
  ∃ (r : Record) (rs : List Record) (tail : Bytes), s = Record.encodeAll (r :: rs) ++ tail ∧
    r.payload.length < m.length ∧ m <+: Record.payloads (r :: rs)

/-- The five bytes that open a record of `rl` bytes. -/
def header (minor : UInt8) (rl : Nat) : Bytes := [0x16, 0x03, minor] ++ be16 rl

theorem rd16_header (minor : UInt8) {rl : Nat} (rest : Bytes) (h : rl ≤ 16384) :
    rd16 (header minor rl ++ rest) 3 = rl := by
  have hd := rd16_drop (header minor rl ++ rest) 3 0
  rw [show (header minor rl ++ rest).drop 3 = be16 rl ++ rest from rfl,
    rd16_be16 rest (by omega)] at hd
  exact hd.symm

/-- The loop waits for the whole first record. -/
theorem joinRest_of_incomplete (minor : UInt8) {rl : Nat} {rest : Bytes} (h1 : 1 ≤ rl)
    (h2 : rl ≤ 16384) (h : rest.length < rl) :
    joinRest (header minor rl ++ rest) [] 0 = .NeedMore := by
  have hmore : nextRecord (header minor rl ++ rest) = .more := by
    have h16 := rd16_header minor rest h2
    have hlen : (header minor rl ++ rest).length = 5 + rest.length := by simp [header]; omega
    unfold nextRecord
    rw [if_neg (by omega), if_neg (by simp [header, byteAt]), h16, if_neg (by omega),
      if_pos (by omega)]
  rw [joinRest_go (Or.inl rfl), hmore]

/-- What the code does on a stream whose first record header is good. -/
theorem collectHandshake_header (minor : UInt8) (rl : Nat) (rest : Bytes) (h1 : 1 ≤ rl)
    (h2 : rl ≤ 16384) :
    collectHandshake (header minor rl ++ rest) =
      if 4 ≤ rl ∧ 4 ≤ rest.length then
        match messageWant rest 0 with
        | none => .NotFound
        | some want =>
          if want ≤ rl then if rest.length < want then .NeedMore else .Found (rest.take want)
          else joinRest (header minor rl ++ rest) [] 0
      else joinRest (header minor rl ++ rest) [] 0 := by
  have hlen : (header minor rl ++ rest).length = 5 + rest.length := by simp [header]; omega
  have h16 := rd16_header minor rest h2
  have hb0 : byteAt (header minor rl ++ rest) 0 = 0x16 := rfl
  have hb1 : byteAt (header minor rl ++ rest) 1 = 0x03 := rfl
  have hd : (header minor rl ++ rest).drop 5 = rest := rfl
  have hwant : messageWant (header minor rl ++ rest) 5 = messageWant rest 0 :=
    (messageWant_drop _ 5).symm
  have hjoin := joinRecords_eq (header minor rl ++ rest) [] 0 0
  rw [List.drop_zero] at hjoin
  have hcond : (rl ≥ 4 ∧ (header minor rl ++ rest).length ≥ 9) ↔ (4 ≤ rl ∧ 4 ≤ rest.length) := by
    omega
  have hshort : ∀ want, (header minor rl ++ rest).length < 5 + want ↔ rest.length < want := by
    omega
  unfold collectHandshake
  rw [if_neg (by omega), if_neg (by rw [hb0]; simp), if_neg (by rw [hb1]; simp),
    if_neg (by omega), h16]
  simp only [hcond, hshort, hd, hjoin, hwant]
  rw [if_neg (by omega)]

theorem header_of_bytes {s : Bytes} (h5 : 5 ≤ s.length) (h0 : byteAt s 0 = 0x16)
    (h1 : byteAt s 1 = 0x03) : s = header (s.getD 2 0) (rd16 s 3) ++ s.drop 5 := by
  rcases s with _ | ⟨a, _ | ⟨b, _ | ⟨c, u⟩⟩⟩
  · simp at h5
  · simp at h5
  · simp at h5
  · have ha : a = 0x16 := UInt8.toNat_inj.mp h0
    have hb : b = 0x03 := UInt8.toNat_inj.mp h1
    have htwo := take_two_eq_be16 (p := u) (by simpa using h5)
    have hrd : rd16 (a :: b :: c :: u) 3 = rd16 u 0 := rfl
    rw [hrd, header, ← htwo, ha, hb]
    simp

/-- The streams that the code does not answer from the first header: too
short, no handshake record, or a record of an illegal length. -/
theorem collectHandshake_cases (s : Bytes) :
    (∃ minor rl rest, s = header minor rl ++ rest ∧ 1 ≤ rl ∧ rl ≤ 16384) ∨
      collectHandshake s = .NeedMore ∨ (∀ t, collectHandshake (s ++ t) = .NotFound) := by
  by_cases hl : s.length < 1
  · exact Or.inr (Or.inl (by simp only [collectHandshake, if_pos hl]))
  by_cases h0 : byteAt s 0 = 0x16
  swap
  · refine Or.inr (Or.inr fun t => ?_)
    have hlt : ¬ (s ++ t).length < 1 := by rw [List.length_append]; omega
    unfold collectHandshake
    rw [if_neg hlt, byteAt_append_left t (by omega), if_pos h0]
  by_cases h1 : s.length ≥ 2 ∧ byteAt s 1 ≠ 0x03
  · refine Or.inr (Or.inr fun t => ?_)
    have hlt : ¬ (s ++ t).length < 1 := by rw [List.length_append]; omega
    have h1' : (s ++ t).length ≥ 2 ∧ byteAt (s ++ t) 1 ≠ 0x03 := by
      rw [byteAt_append_left t (by omega)]
      exact ⟨by simp; omega, h1.2⟩
    unfold collectHandshake
    rw [if_neg hlt, byteAt_append_left t (by omega), if_neg (not_not.mpr h0), if_pos h1']
  by_cases h5 : s.length < 5
  · refine Or.inr (Or.inl ?_)
    unfold collectHandshake
    rw [if_neg hl, if_neg (not_not.mpr h0), if_neg h1, if_pos h5]
  have hb1 : byteAt s 1 = 0x03 := by
    by_contra h
    exact h1 ⟨by omega, h⟩
  by_cases hr : rd16 s 3 = 0 ∨ rd16 s 3 > 16384
  · refine Or.inr (Or.inr fun t => ?_)
    have hlt : ¬ (s ++ t).length < 5 := by simp; omega
    unfold collectHandshake
    rw [if_neg (by omega), byteAt_append_left t (by omega), byteAt_append_left t (by omega),
      if_neg (not_not.mpr h0), if_neg (fun h => h.2 hb1), if_neg hlt, rd16_append_left t (by omega),
      if_pos hr]
  · exact Or.inl ⟨_, _, _, header_of_bytes (by omega) h0 hb1, by omega, by omega⟩

theorem payload_of_header {minor : UInt8} {rl : Nat} {rest t : Bytes} {r : Record}
    (h2 : rl ≤ 16384) (h : header minor rl ++ rest = r.encode ++ t) :
    r.payload.length = rl ∧ rest = r.payload ++ t := by
  refine ⟨?_, ?_⟩
  · have hr := Item.rd16_encode r.item t
    rw [Record.item_encode, ← h, rd16_header minor rest h2] at hr
    exact hr.symm
  · have hd : (r.encode ++ t).drop 5 = r.payload ++ t := by simp [Record.encode, be16]
    rw [← hd, ← h]
    rfl

/-- The loop finds a message only past the first record, because the fast
path would have taken a shorter one. -/
theorem across_of_joinRest {minor : UInt8} {rl : Nat} {rest m : Bytes} (h2 : rl ≤ 16384)
    (hj : joinRest (header minor rl ++ rest) [] 0 = .Found m)
    (hbig : 4 ≤ rl ∧ 4 ≤ rest.length → ∀ w, messageWant rest 0 = some w → ¬ w ≤ rl) :
    IsClientHello m ∧ AcrossRecords (header minor rl ++ rest) m := by
  obtain ⟨hm, rs, t, hs, hp⟩ := hello_of_joinRest expects_nil hj
  rw [List.nil_append] at hp
  have h4 := hm.four_le
  rcases rs with _ | ⟨r, rs⟩
  · have := hp.length_le
    rw [Record.payloads_nil, List.length_nil] at this
    omega
  refine ⟨hm, r, rs, t, hs, ?_, hp⟩
  rw [Record.encodeAll_cons, List.append_assoc] at hs
  obtain ⟨hrl, hrest⟩ := payload_of_header h2 hs
  by_contra hle
  have hlen : r.payload.length ≤ rest.length := by rw [hrest]; simp
  have hpay := messageWant_of_common (List.prefix_append r.payload (Record.payloads rs)) hp
    (by omega) hm
  refine hbig ⟨by omega, by omega⟩ m.length ?_ (by omega)
  rw [messageWant_of_initial ⟨_, hrest.symm⟩ (by omega), hpay]

theorem inFirst_or_across_of_found {s m : Bytes} (h : collectHandshake s = .Found m) :
    IsClientHello m ∧ (InFirstRecord s m ∨ AcrossRecords s m) := by
  rcases collectHandshake_cases s with ⟨minor, rl, rest, rfl, h1, h2⟩ | hn | hn
  · rw [collectHandshake_header minor rl rest h1 h2] at h
    split at h
    · rename_i h4
      split at h
      · cases h
      · rename_i want hw
        split at h
        · rename_i hle
          split at h
          · cases h
          · rename_i hlen
            have hmin := (messageWant_eq_some_iff.mp hw).2.2.2
            have htake : (rest.take want).length = want := by simp; omega
            cases h
            refine ⟨?_, Or.inl ⟨minor, rl, rest, rfl, h1, h2, by omega, List.take_prefix _ _⟩⟩
            rw [isClientHello_iff, htake,
              ← messageWant_of_initial (List.take_prefix want rest) (by omega)]
            exact hw
        · rename_i hbig
          refine (across_of_joinRest h2 h fun _ w hw' => ?_).imp_right Or.inr
          rw [hw, Option.some.injEq] at hw'
          omega
    · rename_i h4
      exact (across_of_joinRest h2 h fun hn => absurd hn h4).imp_right Or.inr
  · rw [hn] at h; cases h
  · have := hn []
    rw [List.append_nil, h] at this
    cases this

theorem found_of_inFirst {s m : Bytes} (hm : IsClientHello m) (h : InFirstRecord s m) :
    collectHandshake s = .Found m := by
  obtain ⟨minor, rl, rest, rfl, h1, h2, hle, hp⟩ := h
  have h4 := hm.four_le
  have hlen := hp.length_le
  have hw : messageWant rest 0 = some m.length := by
    rw [messageWant_of_initial hp h4]
    exact isClientHello_iff.mp hm
  have hc := collectHandshake_header minor rl rest h1 h2
  rw [if_pos ⟨by omega, by omega⟩, hw] at hc
  simp only [hle, if_true] at hc
  rw [if_neg (by omega), ← List.prefix_iff_eq_take.mp hp] at hc
  exact hc

theorem found_of_across {s m : Bytes} (hm : IsClientHello m) (h : AcrossRecords s m) :
    collectHandshake s = .Found m := by
  obtain ⟨r, rs, t, rfl, hlt, hp⟩ := h
  have hloop : joinRest (Record.encodeAll (r :: rs) ++ t) [] 0 = .Found m :=
    joinRest_of_hello hm (r :: rs) t expects_nil hp
  have hs : Record.encodeAll (r :: rs) ++ t =
      header r.minor r.payload.length ++ (r.payload ++ (Record.encodeAll rs ++ t)) := by
    simp [Record.encode, header, List.append_assoc]
  rw [hs] at hloop ⊢
  rw [collectHandshake_header _ _ _ r.nonempty r.capped]
  split
  · rename_i h4
    -- the first record already tells the length, and it is too short
    have hw : messageWant (r.payload ++ (Record.encodeAll rs ++ t)) 0 = some m.length := by
      rw [messageWant_of_initial (List.prefix_append _ _) h4.1]
      exact messageWant_of_common (List.prefix_append r.payload (Record.payloads rs)) hp h4.1 hm
    rw [hw]
    simp only
    rw [if_neg (by omega)]
    exact hloop
  · exact hloop

theorem collectHandshake_notFound_append {s : Bytes} (t : Bytes)
    (h : collectHandshake s = .NotFound) : collectHandshake (s ++ t) = .NotFound := by
  rcases collectHandshake_cases s with ⟨minor, rl, rest, rfl, h1, h2⟩ | hn | hn
  · rw [List.append_assoc, collectHandshake_header minor rl (rest ++ t) h1 h2]
    rw [collectHandshake_header minor rl rest h1 h2] at h
    have hloop : joinRest (header minor rl ++ rest) [] 0 = .NotFound →
        joinRest (header minor rl ++ (rest ++ t)) [] 0 = .NotFound := fun hj => by
      rw [← List.append_assoc]
      exact joinRest_notFound_append t hj
    by_cases h4 : 4 ≤ rl ∧ 4 ≤ rest.length
    · rw [if_pos h4] at h
      rw [if_pos ⟨h4.1, by rw [List.length_append]; omega⟩,
        messageWant_of_initial (List.prefix_append rest t) h4.2]
      split at h
      · rfl
      · split at h
        · split at h <;> cases h
        · rename_i hbig
          simp only [hbig, if_false]
          exact hloop h
    · rw [if_neg h4] at h
      by_cases hrl : 4 ≤ rl
      · -- fewer than four payload bytes have arrived, so the loop waits
        rw [joinRest_of_incomplete minor h1 h2 (by omega)] at h
        cases h
      · rw [if_neg (fun hn => hrl hn.1)]
        exact hloop h
  · rw [hn] at h; cases h
  · exact hn t

/-! ## Framings -/

theorem collectHandshake_found_append {s m : Bytes} (t : Bytes)
    (h : collectHandshake s = .Found m) : collectHandshake (s ++ t) = .Found m := by
  obtain ⟨hm, h | h⟩ := inFirst_or_across_of_found h
  · obtain ⟨minor, rl, rest, rfl, h1, h2, hle, hp⟩ := h
    exact found_of_inFirst hm ⟨minor, rl, rest ++ t, by simp [List.append_assoc], h1, h2, hle,
      hp.trans (List.prefix_append rest t)⟩
  · obtain ⟨r, rs, tail, rfl, hlt, hp⟩ := h
    exact found_of_across hm ⟨r, rs, tail ++ t, by rw [List.append_assoc], hlt, hp⟩

/-- Any cut of a message into records gives it back. -/
theorem collectHandshake_encodeAll {rs : List Record} (tail : Bytes)
    (hm : IsClientHello (Record.payloads rs)) :
    collectHandshake (Record.encodeAll rs ++ tail) = .Found (Record.payloads rs) := by
  rcases rs with _ | ⟨r, rs⟩
  · have := hm.four_le
    simp at this
  by_cases hlt : r.payload.length < (Record.payloads (r :: rs)).length
  · exact found_of_across hm ⟨r, rs, tail, rfl, hlt, List.prefix_refl _⟩
  · -- one record holds the whole message
    have hnil : Record.payloads rs = [] := by
      rw [Record.payloads_cons, List.length_append] at hlt
      exact List.length_eq_zero_iff.mp (by omega)
    refine found_of_inFirst hm ⟨r.minor, r.payload.length,
      r.payload ++ (Record.encodeAll rs ++ tail), ?_, r.nonempty, r.capped, by omega, ?_⟩
    · simp [Record.encode, List.append_assoc]
    · rw [Record.payloads_cons, hnil, List.append_nil]
      exact List.prefix_append _ _

theorem Record.eq_nil_of_payloads {rs : List Record} (h : payloads rs = []) : rs = [] := by
  cases rs with
  | nil => rfl
  | cons r rs =>
    have hr := r.nonempty
    rw [payloads_cons, List.append_eq_nil_iff] at h
    rw [h.1] at hr
    simp at hr

/-- Records that start a framing are the first ones of it. -/
theorem Record.encodeAll_cancel {rs rs' : List Record} {t : Bytes}
    (h : encodeAll rs ++ t = encodeAll rs') :
    ∃ rest, payloads rs' = payloads rs ++ payloads rest ∧ t = encodeAll rest := by
  induction rs generalizing rs' with
  | nil => exact ⟨rs', rfl, h⟩
  | cons r rs ih =>
    cases rs' with
    | nil =>
      have hlen := congrArg List.length h
      simp at hlen
    | cons r' rs' =>
      rw [encodeAll_cons, encodeAll_cons, List.append_assoc] at h
      have hnext := congrArg nextRecord h
      rw [nextRecord_encode, nextRecord_encode, Next.record.injEq] at hnext
      obtain ⟨rest, hpay, ht⟩ := ih hnext.2
      exact ⟨rest, by rw [payloads_cons, payloads_cons, hpay, hnext.1, List.append_assoc], ht⟩

/-- A message in the first record is all of its framing, and of the stream. -/
theorem InFirstRecord.eq_encodeAll {rs : List Record} {x t : Bytes}
    (h : InFirstRecord x (Record.payloads rs)) (hne : rs ≠ [])
    (ht : x ++ t = Record.encodeAll rs) : t = [] := by
  obtain ⟨minor, rl, rest, rfl, -, h2, hle, hp⟩ := h
  obtain ⟨r, rs, rfl⟩ := List.exists_cons_of_ne_nil hne
  have hstream : header minor rl ++ (rest ++ t) = r.encode ++ Record.encodeAll rs := by
    rw [← Record.encodeAll_cons, ← ht, ← List.append_assoc]
    rfl
  obtain ⟨hrl, hrest⟩ := payload_of_header h2 hstream
  have hlen := hp.length_le
  rw [Record.payloads_cons, List.length_append] at hle hlen
  have hnil : rs = [] := Record.eq_nil_of_payloads (List.length_eq_zero_iff.mp (by omega))
  subst hnil
  have htotal := congrArg List.length hrest
  simp only [List.length_append, Record.encodeAll_nil, List.length_nil] at htotal hlen
  exact List.length_eq_zero_iff.mp (by omega)

theorem AcrossRecords.eq_encodeAll {rs : List Record} {x t : Bytes}
    (h : AcrossRecords x (Record.payloads rs)) (ht : x ++ t = Record.encodeAll rs) : t = [] := by
  obtain ⟨r, rs', tail, rfl, -, hp⟩ := h
  rw [List.append_assoc] at ht
  obtain ⟨rest, hpay, htail⟩ := Record.encodeAll_cancel ht
  have hlen := hp.length_le
  rw [hpay, List.length_append] at hlen
  have hnil : rest = [] := Record.eq_nil_of_payloads (List.length_eq_zero_iff.mp (by omega))
  rw [hnil, Record.encodeAll_nil, List.append_eq_nil_iff] at htail
  exact htail.2

/-- A framing that is not all there is not answered. -/
theorem collectHandshake_needMore {rs : List Record} {x : Bytes}
    (hm : IsClientHello (Record.payloads rs)) (hx : x <+: Record.encodeAll rs)
    (hne : x ≠ Record.encodeAll rs) : collectHandshake x = .NeedMore := by
  obtain ⟨t, ht⟩ := hx
  have hwhole : collectHandshake (x ++ t) = .Found (Record.payloads rs) := by
    have h := collectHandshake_encodeAll [] hm
    rwa [List.append_nil, ← ht] at h
  cases hc : collectHandshake x with
  | NeedMore => rfl
  | NotFound =>
    rw [collectHandshake_notFound_append t hc] at hwhole
    cases hwhole
  | Found m =>
    exfalso
    apply hne
    rw [collectHandshake_found_append t hc] at hwhole
    cases hwhole
    have hrs : rs ≠ [] := by
      rintro rfl
      have h4 := hm.four_le
      simp at h4
    have htnil : t = [] := by
      rcases (inFirst_or_across_of_found hc).2 with hfirst | hacross
      · exact hfirst.eq_encodeAll hrs ht
      · exact hacross.eq_encodeAll ht
    rw [← ht, htnil, List.append_nil]

/-! ## The laws -/

/-- The record layer is stripped exactly: a message is found when it is a
complete ClientHello, and lies in the first record or across complete
records. So any cut of a message into records gives it back. -/
theorem the_record_layer_is_stripped_exactly (s m : Bytes) :
    (collectHandshake s = .Found m ↔
      IsClientHello m ∧ (InFirstRecord s m ∨ AcrossRecords s m)) ∧
    (∀ (rs : List Record) (tail : Bytes), IsClientHello m → Record.payloads rs = m →
      collectHandshake (Record.encodeAll rs ++ tail) = .Found m) := by
  refine ⟨⟨inFirst_or_across_of_found, ?_⟩, ?_⟩
  · rintro ⟨hm, h | h⟩
    · exact found_of_inFirst hm h
    · exact found_of_across hm h
  · rintro rs tail hm rfl
    exact collectHandshake_encodeAll tail hm

end packet_inspector.tls
