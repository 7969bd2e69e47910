-- The parser of `hostname_extractor.cpp` with every read, every sum and every
-- turn of its loops checked. It never stops with a fault, whatever the
-- stream is, and it answers as the unchecked one does.
import PacketInspector.Checked
import PacketInspector.Traffic

open wire checked

namespace packet_inspector.tls

/-! ## The checked parser -/

def messageWant_checked (p : Bytes) (i : Nat) : Checked (Option Nat) := do
  let msg_type ← read8 p i
  if msg_type ≠ 0x01 then .ok none
  else do
    let msg_len ← read24 p (i + 1)
    if msg_len < 34 ∨ msg_len > 65535 then .ok none
    else do
      let want ← add32 4 msg_len
      .ok (some want)

def wantAfter_checked (scratch : Bytes) (want : Nat) : Checked (Option Nat) :=
  if want = 0 ∧ 4 ≤ scratch.length then messageWant_checked scratch 0 else .ok (some want)

/-- The joining loop, with the turns that are left. -/
def joinRecords_checked (p : Bytes) : Nat → Bytes → Nat → Nat → Checked HostnameResult
  | 0, _, _, _ => .error .turns
  | turns + 1, scratch, off, want =>
    if want = 0 ∨ scratch.length < want then do
      let left ← sub32 p.length off
      if left < 5 then .ok .NeedMore
      else do
        let content_type ← read8 p off
        let majorAt ← add32 off 1
        let major ← read8 p majorAt
        if content_type ≠ 0x16 ∨ major ≠ 0x03 then .ok .NotFound
        else do
          let rl ← read16 p (off + 3)
          if rl = 0 ∨ rl > 16384 then .ok .NotFound
          else do
            let body ← sub32 left 5
            if body < rl then .ok .NeedMore
            else do
              let payload ← slice p (off + 5) rl
              let size ← add32 5 rl
              let off ← add32 off size
              let want ← wantAfter_checked (scratch ++ payload) want
              match want with
              | none => .ok .NotFound
              | some want =>
                if off ≥ p.length ∧ (want = 0 ∨ (scratch ++ payload).length < want) then .ok .NeedMore
                else joinRecords_checked p turns (scratch ++ payload) off want
    else do
      let hs ← slice scratch 0 want
      .ok (.Found hs)

def collectHandshake_checked (p : Bytes) : Checked HostnameResult :=
  if p.length < 1 then .ok .NeedMore
  else do
    let content_type ← read8 p 0
    if content_type ≠ 0x16 then .ok .NotFound
    else do
      let major ← (if p.length ≥ 2 then read8 p 1 else .ok 0x03)
      if major ≠ 0x03 then .ok .NotFound
      else if p.length < 5 then .ok .NeedMore
      else do
        let rec0 ← read16 p 3
        if rec0 = 0 ∨ rec0 > 16384 then .ok .NotFound
        else if rec0 ≥ 4 ∧ p.length ≥ 9 then do
          let want ← messageWant_checked p 5
          match want with
          | none => .ok .NotFound
          | some want =>
            if want ≤ rec0 then do
              let past ← add32 5 want
              if p.length < past then .ok .NeedMore
              else do
                let hs ← slice p 5 want
                .ok (.Found hs)
            else joinRecords_checked p (p.length + 1) [] 0 0
        else joinRecords_checked p (p.length + 1) [] 0 0

/-- The walk over the server names, with the turns that are left. -/
def serverNames_checked (p : Bytes) (list_end : Nat) : Nat → Nat → Checked HostnameResult
  | 0, _ => .error .turns
  | turns + 1, q => do
    let past ← add32 q 3
    if past ≤ list_end then do
      let name_type ← read8 p q
      let name_len ← read16 p (q + 1)
      let q ← add32 q 3
      let name_end ← add32 q name_len
      if name_end > list_end then .ok .NotFound
      else if name_type = 0x00 then do
        let host ← slice p q name_len
        .ok (.Found host)
      else do
        let q ← add32 q name_len
        serverNames_checked p list_end turns q
    else .ok .NotFound

def serverNameList_checked (p : Bytes) (o elen : Nat) : Checked HostnameResult := do
  let list_end ← add32 o elen
  let past ← add32 o 2
  if past > list_end then .ok .NotFound
  else do
    let length ← read16 p o
    let start ← add32 o 2
    let named ← add32 start length
    let q ← add32 o 2
    serverNames_checked p (if named < list_end then named else list_end) (p.length + 1) q

/-- The walk over the extensions, with the turns that are left. -/
def extensions_checked (p : Bytes) (ext_end : Nat) : Nat → Nat → Checked HostnameResult
  | 0, _ => .error .turns
  | turns + 1, o => do
    let past ← add32 o 4
    if past ≤ ext_end then do
      let etype ← read16 p o
      let elen ← read16 p (o + 2)
      let o ← add32 o 4
      let data_end ← add32 o elen
      if data_end > ext_end then .ok .NotFound
      else if etype = 0x0000 then serverNameList_checked p o elen
      else do
        let o ← add32 o elen
        extensions_checked p ext_end turns o
    else .ok .NotFound

def parseClientHello_checked (p : Bytes) : Checked HostnameResult :=
  if p.length < 4 then .ok .NotFound
  else do
    let msg_type ← read8 p 0
    if msg_type ≠ 0x01 then .ok .NotFound
    else do
      let body_end := p.length
      let past ← add32 4 (2 + 32 + 1)
      if ¬ past ≤ body_end then .ok .NotFound
      else do
        let o ← add32 4 (2 + 32)
        let session_id_len ← read8 p o
        let size ← add32 1 session_id_len
        let o ← add32 o size
        let past ← add32 o 2
        if ¬ past ≤ body_end then .ok .NotFound
        else do
          let suites ← read16 p o
          let size ← add32 2 suites
          let o ← add32 o size
          let past ← add32 o 1
          if ¬ past ≤ body_end then .ok .NotFound
          else do
            let methods ← read8 p o
            let size ← add32 1 methods
            let o ← add32 o size
            let past ← add32 o 2
            if ¬ past ≤ body_end then .ok .NotFound
            else do
              let total ← read16 p o
              let start ← add32 o 2
              let ext_end ← add32 start total
              let o ← add32 o 2
              extensions_checked p (if ext_end > body_end then body_end else ext_end)
                (p.length + 1) o

def extractHostname_checked (tls_data : Bytes) : Checked HostnameResult := do
  let r ← collectHandshake_checked tls_data
  match r with
  | .Found hs => parseClientHello_checked hs
  | r => .ok r

/-! ## The record layer -/

theorem messageWant_checked_eq {p : Bytes} {i : Nat} (h : i + 3 < p.length) :
    messageWant_checked p i = .ok (messageWant p i) := by
  unfold messageWant_checked messageWant
  rw [read8_ok (by omega), ok_bind, read24_ok (by omega), ok_bind]
  by_cases htype : byteAt p i ≠ 0x01
  · rw [if_pos htype, if_pos htype]
  · rw [if_neg htype, if_neg htype]
    by_cases hlen : rd24 p (i + 1) < 34 ∨ rd24 p (i + 1) > 65535
    · rw [if_pos hlen, if_pos hlen]
    · rw [if_neg hlen, if_neg hlen, add32_ok (by omega), ok_bind]

theorem wantAfter_checked_eq (scratch : Bytes) (want : Nat) :
    wantAfter_checked scratch want = .ok (wantAfter scratch want) := by
  unfold wantAfter_checked wantAfter
  split
  · exact messageWant_checked_eq (by omega)
  · rfl

/-- The joining loop takes a record at each turn, so the bytes that are left
bound its turns. -/
theorem joinRecords_checked_eq {p : Bytes} (hlen : p.length < 2 ^ 32) (turns : Nat) (scratch : Bytes)
    {off : Nat} (want : Nat) (hoff : off ≤ p.length) (hturns : p.length - off < turns) :
    joinRecords_checked p turns scratch off want = .ok (joinRecords p scratch off want) := by
  induction turns generalizing scratch off want with
  | zero => omega
  | succ turns ih =>
    rw [joinRecords]
    unfold joinRecords_checked
    by_cases hgo : want = 0 ∨ scratch.length < want
    · rw [if_pos hgo, if_pos hgo, sub32_ok hoff, ok_bind]
      by_cases hhead : p.length - off < 5
      · rw [if_pos hhead, if_pos hhead]
      · rw [if_neg hhead, if_neg hhead, read8_ok (by omega), ok_bind, add32_ok (by omega), ok_bind,
          read8_ok (by omega), ok_bind]
        by_cases htype : byteAt p off ≠ 0x16 ∨ byteAt p (off + 1) ≠ 0x03
        · rw [if_pos htype, if_pos htype]
        · rw [if_neg htype, if_neg htype, read16_ok (by omega), ok_bind]
          by_cases hrl : rd16 p (off + 3) = 0 ∨ rd16 p (off + 3) > 16384
          · rw [if_pos hrl, if_pos hrl]
          · rw [if_neg hrl, if_neg hrl, sub32_ok (by omega), ok_bind]
            by_cases hbody : p.length - off - 5 < rd16 p (off + 3)
            · rw [if_pos hbody, if_pos hbody]
            · rw [if_neg hbody, if_neg hbody, slice_ok (by omega), ok_bind, add32_ok (by omega),
                ok_bind, add32_ok (by omega), ok_bind, wantAfter_checked_eq, ok_bind]
              simp only
              cases wantAfter (scratch ++ (p.drop (off + 5)).take (rd16 p (off + 3))) want with
              | none => rfl
              | some want =>
                simp only
                split
                · rfl
                · exact ih _ _ (by omega) (by omega)
    · rw [if_neg hgo, if_neg hgo, slice_ok (by omega), ok_bind, List.drop_zero]

theorem collectHandshake_checked_eq {p : Bytes} (hlen : p.length < 2 ^ 32) :
    collectHandshake_checked p = .ok (collectHandshake p) := by
  have hjoin := joinRecords_checked_eq hlen (p.length + 1) [] 0 (Nat.zero_le _) (by omega)
  unfold collectHandshake_checked collectHandshake
  by_cases hempty : p.length < 1
  · rw [if_pos hempty, if_pos hempty]
  · rw [if_neg hempty, if_neg hempty, read8_ok (by omega), ok_bind]
    by_cases htype : byteAt p 0 ≠ 0x16
    · rw [if_pos htype, if_pos htype]
    · rw [if_neg htype, if_neg htype]
      have hmajor : (if p.length ≥ 2 then read8 p 1 else .ok 0x03) =
          .ok (if p.length ≥ 2 then byteAt p 1 else 0x03) := by
        split
        · exact read8_ok (by omega)
        · rfl
      have hiff : (if p.length ≥ 2 then byteAt p 1 else 0x03) ≠ 0x03 ↔
          p.length ≥ 2 ∧ byteAt p 1 ≠ 0x03 := by
        by_cases h2 : p.length ≥ 2
        · simp [h2]
        · simp [h2]
      rw [hmajor, ok_bind]
      by_cases hversion : p.length ≥ 2 ∧ byteAt p 1 ≠ 0x03
      · rw [if_pos (hiff.mpr hversion), if_pos hversion]
      · rw [if_neg (fun h => hversion (hiff.mp h)), if_neg hversion]
        by_cases hhead : p.length < 5
        · rw [if_pos hhead, if_pos hhead]
        · rw [if_neg hhead, if_neg hhead, read16_ok (by omega), ok_bind]
          by_cases hrec : rd16 p 3 = 0 ∨ rd16 p 3 > 16384
          · rw [if_pos hrec, if_pos hrec]
          · rw [if_neg hrec, if_neg hrec]
            by_cases hfast : rd16 p 3 ≥ 4 ∧ p.length ≥ 9
            · rw [if_pos hfast, if_pos hfast, messageWant_checked_eq (by omega), ok_bind]
              cases hwant : messageWant p 5 with
              | none => rfl
              | some want =>
                have hsmall : want ≤ 4 + 65535 := by
                  obtain ⟨-, -, hle, rfl⟩ := messageWant_eq_some_iff.mp hwant
                  omega
                simp only
                by_cases hfit : want ≤ rd16 p 3
                · rw [if_pos hfit, if_pos hfit, add32_ok (by omega), ok_bind]
                  by_cases hshort : p.length < 5 + want
                  · rw [if_pos hshort, if_pos hshort]
                  · rw [if_neg hshort, if_neg hshort, slice_ok (by omega), ok_bind]
                · rw [if_neg hfit, if_neg hfit, hjoin]
            · rw [if_neg hfast, if_neg hfast, hjoin]

/-! ## The message -/

theorem serverNames_checked_eq {p : Bytes} {list_end : Nat} (hend : list_end ≤ p.length)
    (hlen : p.length < 2 ^ 31) (turns : Nat) {q : Nat} (hq : q ≤ p.length)
    (hturns : p.length - q < turns) :
    serverNames_checked p list_end turns q = .ok (serverNames p q list_end) := by
  induction turns generalizing q with
  | zero => omega
  | succ turns ih =>
    rw [serverNames]
    unfold serverNames_checked
    rw [add32_ok (by omega), ok_bind]
    by_cases hroom : q + 3 ≤ list_end
    · have hname := rd16_lt p (q + 1)
      rw [if_pos hroom, if_pos hroom, read8_ok (by omega), ok_bind, read16_ok (by omega), ok_bind,
        ok_bind, add32_ok (by omega), ok_bind]
      by_cases hover : q + 3 + rd16 p (q + 1) > list_end
      · rw [if_pos hover, if_pos hover]
      · rw [if_neg hover, if_neg hover]
        by_cases htype : byteAt p q = 0x00
        · rw [if_pos htype, if_pos htype, slice_ok (by omega), ok_bind]
        · rw [if_neg htype, if_neg htype, ok_bind]
          exact ih (by omega) (by omega)
    · rw [if_neg hroom, if_neg hroom]

theorem serverNameList_checked_eq {p : Bytes} {o elen : Nat} (hend : o + elen ≤ p.length)
    (hlen : p.length < 2 ^ 31) :
    serverNameList_checked p o elen = .ok (serverNameList p o elen) := by
  unfold serverNameList_checked serverNameList
  rw [add32_ok (by omega), ok_bind, add32_ok (by omega), ok_bind]
  by_cases hroom : o + 2 > o + elen
  · rw [if_pos hroom, if_pos hroom]
  · have hnamed := rd16_lt p o
    rw [if_neg hroom, if_neg hroom, read16_ok (by omega), ok_bind, ok_bind, add32_ok (by omega),
      ok_bind, ok_bind]
    refine serverNames_checked_eq ?_ hlen _ (by omega) (by omega)
    split <;> omega

theorem extensions_checked_eq {p : Bytes} {ext_end : Nat} (hend : ext_end ≤ p.length)
    (hlen : p.length < 2 ^ 31) (turns : Nat) {o : Nat} (ho : o ≤ p.length)
    (hturns : p.length - o < turns) :
    extensions_checked p ext_end turns o = .ok (extensions p o ext_end) := by
  induction turns generalizing o with
  | zero => omega
  | succ turns ih =>
    rw [extensions]
    unfold extensions_checked
    rw [add32_ok (by omega), ok_bind]
    by_cases hroom : o + 4 ≤ ext_end
    · have helen := rd16_lt p (o + 2)
      rw [if_pos hroom, if_pos hroom, read16_ok (by omega), ok_bind, read16_ok (by omega), ok_bind,
        ok_bind, add32_ok (by omega), ok_bind]
      by_cases hover : o + 4 + rd16 p (o + 2) > ext_end
      · rw [if_pos hover, if_pos hover]
      · rw [if_neg hover, if_neg hover]
        by_cases htype : rd16 p o = 0x0000
        · rw [if_pos htype, if_pos htype]
          exact serverNameList_checked_eq (by omega) hlen
        · rw [if_neg htype, if_neg htype, ok_bind]
          exact ih (by omega) (by omega)
    · rw [if_neg hroom, if_neg hroom]

/-- The lengths of a message are added up before they are checked. They are
small enough for every sum of them in a message of this size. -/
theorem parseClientHello_checked_eq {p : Bytes} (hlen : p.length < 2 ^ 31) :
    parseClientHello_checked p = .ok (parseClientHello p) := by
  unfold parseClientHello_checked parseClientHello
  by_cases hshort : p.length < 4
  · rw [if_pos hshort, if_pos (.inl hshort)]
  · rw [if_neg hshort, read8_ok (by omega), ok_bind]
    by_cases htype : byteAt p 0 ≠ 0x01
    · rw [if_pos htype, if_pos (.inr htype)]
    · rw [if_neg htype, if_neg (not_or.mpr ⟨hshort, htype⟩), add32_ok (by omega), ok_bind]
      simp only
      by_cases hrandom : ¬ 4 + (2 + 32 + 1) ≤ p.length
      · rw [if_pos hrandom, if_pos hrandom]
      · have hid := byteAt_lt p (4 + (2 + 32))
        rw [if_neg hrandom, if_neg hrandom, add32_ok (by omega), ok_bind, read8_ok (by omega),
          ok_bind, add32_ok (by omega), ok_bind, add32_ok (by omega), ok_bind]
        have ho : 4 + (2 + 32) + (1 + byteAt p (4 + (2 + 32))) ≤ p.length + 256 := by omega
        generalize 4 + (2 + 32) + (1 + byteAt p (4 + (2 + 32))) = o at ho ⊢
        rw [add32_ok (by omega), ok_bind]
        by_cases hsuites : ¬ o + 2 ≤ p.length
        · rw [if_pos hsuites, if_pos hsuites]
        · have hid := rd16_lt p o
          rw [if_neg hsuites, if_neg hsuites, read16_ok (by omega), ok_bind, add32_ok (by omega),
            ok_bind, add32_ok (by omega), ok_bind]
          have ho' : o + (2 + rd16 p o) ≤ p.length + 65536 := by omega
          generalize o + (2 + rd16 p o) = o' at ho' ⊢
          rw [add32_ok (by omega), ok_bind]
          by_cases hmethods : ¬ o' + 1 ≤ p.length
          · rw [if_pos hmethods, if_pos hmethods]
          · have hid := byteAt_lt p o'
            rw [if_neg hmethods, if_neg hmethods, read8_ok (by omega), ok_bind, add32_ok (by omega),
              ok_bind, add32_ok (by omega), ok_bind]
            have ho'' : o' + (1 + byteAt p o') ≤ p.length + 256 := by omega
            generalize o' + (1 + byteAt p o') = o'' at ho'' ⊢
            rw [add32_ok (by omega), ok_bind]
            by_cases hext : ¬ o'' + 2 ≤ p.length
            · rw [if_pos hext, if_pos hext]
            · have htotal := rd16_lt p o''
              rw [if_neg hext, if_neg hext, read16_ok (by omega), ok_bind, ok_bind,
                add32_ok (by omega), ok_bind, ok_bind]
              refine extensions_checked_eq ?_ hlen _ (by omega) (by omega)
              split <;> omega

/-! ## The host -/

/-- A host that is found is a range of the buffer. -/
def Within (p : Bytes) (r : HostnameResult) : Prop :=
  ∀ host, r = .Found host →
    ∃ q, q + host.length ≤ p.length ∧ host = (p.drop q).take host.length

theorem within_notFound (p : Bytes) : Within p .NotFound := by
  rintro host h
  cases h

theorem serverNames_within {p : Bytes} {list_end : Nat} (hend : list_end ≤ p.length) (q : Nat) :
    Within p (serverNames p q list_end) := by
  fun_induction serverNames p q list_end with
  | case1 q hroom name_len q' hover => exact within_notFound p
  | case2 q hroom name_type name_len q' hover htype =>
    rintro host h
    cases h
    have hlen : ((p.drop q').take name_len).length = name_len := by
      rw [List.length_take, List.length_drop]
      omega
    exact ⟨q', by omega, by rw [hlen]⟩
  | case3 q hroom name_type name_len q' hover htype ih => exact ih
  | case4 q hroom => exact within_notFound p

theorem extensions_within {p : Bytes} {ext_end : Nat} (hend : ext_end ≤ p.length) (o : Nat) :
    Within p (extensions p o ext_end) := by
  fun_induction extensions p o ext_end with
  | case1 o hroom elen o' hover => exact within_notFound p
  | case2 o hroom etype elen o' hover htype =>
    unfold serverNameList
    simp only
    split
    · exact within_notFound p
    · refine serverNames_within ?_ _
      split <;> omega
  | case3 o hroom etype elen o' hover htype ih => exact ih
  | case4 o hroom => exact within_notFound p

theorem parseClientHello_within (p : Bytes) : Within p (parseClientHello p) := by
  unfold parseClientHello
  split
  · exact within_notFound p
  · simp only
    split
    · exact within_notFound p
    · split
      · exact within_notFound p
      · split
        · exact within_notFound p
        · split
          · exact within_notFound p
          · refine extensions_within ?_ _
            split <;> omega

/-! ## The law -/

/-- The parser never reads outside the stream or the message that it joined,
none of its sums and differences wraps, and its loops end. A host that it
finds lies inside the message. -/
theorem the_parser_stays_inside_its_buffers (s : Bytes) (hlen : s.length < 2 ^ 32) :
    extractHostname_checked s = .ok (extractHostname s) ∧
    ∀ host, extractHostname s = .Found host →
      ∃ hs q, collectHandshake s = .Found hs ∧ q + host.length ≤ hs.length ∧
        host = (hs.drop q).take host.length := by
  unfold extractHostname_checked extractHostname
  rw [collectHandshake_checked_eq hlen, ok_bind]
  cases hc : collectHandshake s with
  | NotFound => exact ⟨rfl, fun host h => by cases h⟩
  | NeedMore => exact ⟨rfl, fun host h => by cases h⟩
  | Found hs =>
    obtain ⟨⟨-, -, hle, hsize⟩, -⟩ := inFirst_or_across_of_found hc
    refine ⟨parseClientHello_checked_eq (by omega), ?_⟩
    intro host h
    obtain ⟨q, hq, hhost⟩ := parseClientHello_within hs host h
    exact ⟨hs, q, rfl, hq, hhost⟩

open traffic in
theorem a_client_hello_is_read_in_bounds :
    extractHostname_checked (client_hello host) = .ok (.Found host) := by
  rw [(the_parser_stays_inside_its_buffers (client_hello host) (by decide +kernel)).1]
  decide +kernel

end packet_inspector.tls
