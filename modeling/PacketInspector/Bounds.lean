-- The dissector of `packet.cpp` with every read and every sum checked. It
-- never stops with a fault, so it stays inside the packet, and it answers as
-- the unchecked one does.
import PacketInspector.Checked
import PacketInspector.Packet

open wire checked

namespace packet_inspector

/-! ## The checked dissector -/

def parseL4_checked (proto : Nat) (data : Bytes) (l4 l4_len : Nat) (flow : FlowView) :
    Checked Dissected :=
  let flow := { flow with ip_proto := proto }
  if proto = kProtoTcp then
    if l4_len < 20 then .ok (none, flow)
    else do
      let src_port ← read16 data l4
      let dst_port ← read16 data (l4 + 2)
      let tcp_flags ← read8 data (l4 + 13)
      let flow := { flow with src_port := src_port, dst_port := dst_port, tcp_flags := tcp_flags }
      let words ← read8 data (l4 + 12)
      let data_off := (words >>> 4) * 4
      if data_off < 20 ∨ data_off > l4_len then .ok (none, flow)
      else do
        let payload_len ← sub32 l4_len data_off
        .ok (some (l4 + data_off, payload_len), flow)
  else if proto = kProtoUdp then
    if l4_len < 8 then .ok (none, flow)
    else do
      let src_port ← read16 data l4
      let dst_port ← read16 data (l4 + 2)
      let flow := { flow with src_port := src_port, dst_port := dst_port }
      let udp_len ← read16 data (l4 + 4)
      let plen ← sub32 l4_len 8
      let short ← if udp_len ≥ 8 then sub32 udp_len 8 else .ok plen
      .ok (some (l4 + 8, if udp_len ≥ 8 ∧ short ≤ plen then short else plen), flow)
  else .ok (none, flow)

def parseIPv4_checked (data : Bytes) (flow : FlowView) : Checked Dissected :=
  if data.length < 20 then .ok (none, flow)
  else do
    let flow := { flow with ip_version := 4 }
    let first ← read8 data 0
    let ihl := (first &&& 0x0f) * 4
    if ihl < 20 ∨ ihl > data.length then .ok (none, flow)
    else do
      let fragment ← read16 data 6
      if fragment &&& 0x1fff ≠ 0 then .ok (none, flow)
      else do
        let src_ip ← slice data 12 4
        let dst_ip ← slice data 16 4
        let flow := { flow with
          src_ip := src_ip ++ flow.src_ip.drop 4
          dst_ip := dst_ip ++ flow.dst_ip.drop 4 }
        let total_len ← read16 data 2
        let l3_len := if total_len ≥ ihl ∧ total_len ≤ data.length then total_len else data.length
        let proto ← read8 data 9
        let l4_len ← sub32 l3_len ihl
        parseL4_checked proto data ihl l4_len flow

def walkV6_checked (data : Bytes) (l3_len : Nat) : Nat → Nat → Nat → FlowView → Checked Dissected
  | 0, _, _, flow => .ok (none, flow)
  | turns + 1, next, off, flow =>
    if next = kProtoTcp ∨ next = kProtoUdp then do
      let l4_len ← sub32 l3_len off
      parseL4_checked next data off l4_len flow
    else if next = kV6HopByHop ∨ next = kV6Routing ∨ next = kV6DestOpts ∨ next = kV6Mobility then do
      let second ← add32 off 2
      if second > l3_len then .ok (none, flow)
      else do
        let next ← read8 data off
        let lengthAt ← add32 off 1
        let length ← read8 data lengthAt
        let units ← add32 length 1
        let size ← mul32 units 8
        let off ← add32 off size
        if off > l3_len then .ok (none, flow)
        else walkV6_checked data l3_len turns next off flow
    else if next = kV6Fragment then do
      let past ← add32 off 8
      if past > l3_len then .ok (none, flow)
      else do
        let fragment ← read16 data (off + 2)
        if fragment &&& 0xfff8 ≠ 0 then .ok (none, flow)
        else do
          let next ← read8 data off
          let off ← add32 off 8
          walkV6_checked data l3_len turns next off flow
    else .ok (none, flow)

def parseIPv6_checked (data : Bytes) (flow : FlowView) : Checked Dissected :=
  if data.length < 40 then .ok (none, flow)
  else do
    let plen ← read16 data 4
    let src_ip ← slice data 8 16
    let dst_ip ← slice data 24 16
    let flow := { flow with ip_version := 6, src_ip := src_ip, dst_ip := dst_ip }
    let total ← add32 40 plen
    let l3_len := if total ≤ data.length then total else data.length
    let next ← read8 data 6
    walkV6_checked data l3_len kMaxV6ExtHeaders next 40 flow

def parseFlow_checked (data : Option Bytes) (_flow : FlowView) : Checked Dissected :=
  let flow : FlowView := {}
  match data with
  | none => .ok (none, flow)
  | some data =>
    if data.length < 1 then .ok (none, flow)
    else do
      let first ← read8 data 0
      let version := first >>> 4
      if version = 4 then parseIPv4_checked data flow
      else if version = 6 then parseIPv6_checked data flow
      else .ok (none, flow)

/-- The window is taken with its own check. -/
def Packet.flow_view_checked (p : Packet) (flow : FlowView) : Checked (Bool × FlowView) := do
  let parsed ← parseFlow_checked p.data flow
  match parsed with
  | (none, flow) => .ok (false, flow)
  | (some (payload, payload_len), flow) =>
    let _ ← slice p.bytes payload payload_len
    let flow := { flow with payload := some payload, payload_len := payload_len }
    .ok (true, { flow with key := routeKey flow })

/-! ## It stays in bounds -/

/-- The window of a dissection ends inside the packet. -/
def Inside (data : Bytes) (d : Dissected) : Prop := ∀ o n, d.1 = some (o, n) → o + n ≤ data.length

theorem inside_none (data : Bytes) (flow : FlowView) : Inside data (none, flow) := by
  rintro o n h
  cases h

theorem inside_some {data : Bytes} {o n : Nat} (h : o + n ≤ data.length) (flow : FlowView) :
    Inside data (some (o, n), flow) := by
  rintro o' n' h'
  cases h'
  exact h

/-- A transport header inside the packet is read inside the packet. -/
theorem parseL4_checked_eq (proto : Nat) {data : Bytes} {l4 l4_len : Nat} (flow : FlowView)
    (hin : l4 + l4_len ≤ data.length) :
    parseL4_checked proto data l4 l4_len flow = .ok (parseL4 proto data l4 l4_len flow) ∧
    Inside data (parseL4 proto data l4 l4_len flow) := by
  unfold parseL4_checked parseL4
  simp only
  by_cases htcp : proto = kProtoTcp
  · rw [if_pos htcp, if_pos htcp]
    by_cases hlen : l4_len < 20
    · rw [if_pos hlen, if_pos hlen]
      exact ⟨rfl, inside_none _ _⟩
    · rw [if_neg hlen, if_neg hlen, read16_ok (by omega), read16_ok (by omega),
        read8_ok (by omega), read8_ok (by omega)]
      simp only [ok_bind]
      by_cases hoff : byteAt data (l4 + 12) >>> 4 * 4 < 20 ∨ byteAt data (l4 + 12) >>> 4 * 4 > l4_len
      · rw [if_pos hoff, if_pos hoff]
        exact ⟨rfl, inside_none _ _⟩
      · rw [if_neg hoff, if_neg hoff, sub32_ok (by omega)]
        exact ⟨rfl, inside_some (by omega) _⟩
  · rw [if_neg htcp, if_neg htcp]
    by_cases hudp : proto = kProtoUdp
    · rw [if_pos hudp, if_pos hudp]
      by_cases hlen : l4_len < 8
      · rw [if_pos hlen, if_pos hlen]
        exact ⟨rfl, inside_none _ _⟩
      · rw [if_neg hlen, if_neg hlen, read16_ok (by omega), read16_ok (by omega),
          read16_ok (by omega), sub32_ok (by omega)]
        simp only [ok_bind]
        by_cases hmin : rd16 data (l4 + 4) ≥ 8
        · rw [if_pos hmin, sub32_ok hmin]
          refine ⟨rfl, inside_some ?_ _⟩
          split <;> omega
        · rw [if_neg hmin, if_neg (fun h => hmin h.1), if_neg (fun h => hmin h.1)]
          exact ⟨rfl, inside_some (by omega) _⟩
    · rw [if_neg hudp, if_neg hudp]
      exact ⟨rfl, inside_none _ _⟩

theorem parseIPv4_checked_eq (data : Bytes) (flow : FlowView) :
    parseIPv4_checked data flow = .ok (parseIPv4 data flow) ∧
    Inside data (parseIPv4 data flow) := by
  unfold parseIPv4_checked parseIPv4
  by_cases hlen : data.length < 20
  · rw [if_pos hlen, if_pos hlen]
    exact ⟨rfl, inside_none _ _⟩
  · rw [if_neg hlen, if_neg hlen, read8_ok (by omega), read16_ok (by omega), slice_ok (by omega),
      slice_ok (by omega), read16_ok (by omega), read8_ok (by omega)]
    simp only [ok_bind]
    generalize (byteAt data 0 &&& 0x0f) * 4 = ihl
    by_cases hihl : ihl < 20 ∨ ihl > data.length
    · rw [if_pos hihl, if_pos hihl]
      exact ⟨rfl, inside_none _ _⟩
    · rw [if_neg hihl, if_neg hihl]
      by_cases hfrag : rd16 data 6 &&& 0x1fff ≠ 0
      · rw [if_pos hfrag, if_pos hfrag]
        exact ⟨rfl, inside_none _ _⟩
      · rw [if_neg hfrag, if_neg hfrag]
        -- the length that is trusted is between the header's and the packet's
        have hl3 : ihl ≤ (if rd16 data 2 ≥ ihl ∧ rd16 data 2 ≤ data.length then rd16 data 2
              else data.length) ∧
            (if rd16 data 2 ≥ ihl ∧ rd16 data 2 ≤ data.length then rd16 data 2
              else data.length) ≤ data.length := by
          split <;> omega
        rw [sub32_ok hl3.1, ok_bind]
        exact parseL4_checked_eq _ _ (by omega)

/-- The walk over the extension headers stays below the length that it was
given, which is far from the end of the numbers. -/
theorem walkV6_checked_eq {data : Bytes} {l3_len : Nat} (hlen : l3_len ≤ data.length)
    (hsmall : l3_len ≤ 40 + 65535) (flow : FlowView) (turns next : Nat) {off : Nat}
    (hoff : off ≤ l3_len) :
    walkV6_checked data l3_len turns next off flow = .ok (walkV6 data l3_len turns next off flow) ∧
    Inside data (walkV6 data l3_len turns next off flow) := by
  induction turns generalizing next off with
  | zero => exact ⟨rfl, inside_none _ _⟩
  | succ turns ih =>
    unfold walkV6_checked walkV6
    by_cases hl4 : next = kProtoTcp ∨ next = kProtoUdp
    · rw [if_pos hl4, if_pos hl4, sub32_ok hoff, ok_bind]
      exact parseL4_checked_eq _ _ (by omega)
    · rw [if_neg hl4, if_neg hl4]
      by_cases hopt : next = kV6HopByHop ∨ next = kV6Routing ∨ next = kV6DestOpts ∨
          next = kV6Mobility
      · rw [if_pos hopt, if_pos hopt, add32_ok (by omega), ok_bind]
        by_cases hroom : off + 2 > l3_len
        · rw [if_pos hroom, if_pos hroom]
          exact ⟨rfl, inside_none _ _⟩
        · have hbyte := byteAt_lt data (off + 1)
          rw [if_neg hroom, if_neg hroom, read8_ok (by omega), ok_bind, add32_ok (by omega), ok_bind,
            read8_ok (by omega), ok_bind, add32_ok (by omega), ok_bind, mul32_ok (by omega), ok_bind,
            add32_ok (by omega), ok_bind]
          by_cases hnext : off + (byteAt data (off + 1) + 1) * 8 > l3_len
          · rw [if_pos hnext, if_pos hnext]
            exact ⟨rfl, inside_none _ _⟩
          · rw [if_neg hnext, if_neg hnext]
            exact ih _ (by omega)
      · rw [if_neg hopt, if_neg hopt]
        by_cases hfrag : next = kV6Fragment
        · rw [if_pos hfrag, if_pos hfrag, add32_ok (by omega), ok_bind]
          by_cases hroom : off + 8 > l3_len
          · rw [if_pos hroom, if_pos hroom]
            exact ⟨rfl, inside_none _ _⟩
          · rw [if_neg hroom, if_neg hroom, read16_ok (by omega), ok_bind]
            by_cases hfirst : rd16 data (off + 2) &&& 0xfff8 ≠ 0
            · rw [if_pos hfirst, if_pos hfirst]
              exact ⟨rfl, inside_none _ _⟩
            · rw [if_neg hfirst, if_neg hfirst, read8_ok (by omega), ok_bind, ok_bind]
              exact ih _ (by omega)
        · rw [if_neg hfrag, if_neg hfrag]
          exact ⟨rfl, inside_none _ _⟩

theorem parseIPv6_checked_eq (data : Bytes) (flow : FlowView) :
    parseIPv6_checked data flow = .ok (parseIPv6 data flow) ∧
    Inside data (parseIPv6 data flow) := by
  unfold parseIPv6_checked parseIPv6
  by_cases hlen : data.length < 40
  · rw [if_pos hlen, if_pos hlen]
    exact ⟨rfl, inside_none _ _⟩
  · have hplen := rd16_lt data 4
    rw [if_neg hlen, if_neg hlen, read16_ok (by omega), slice_ok (by omega), slice_ok (by omega),
      read8_ok (by omega)]
    simp only [ok_bind]
    rw [add32_ok (by omega), ok_bind]
    refine walkV6_checked_eq ?_ ?_ _ _ _ ?_
    · split <;> omega
    · split <;> omega
    · split <;> omega

theorem parseFlow_checked_eq (data : Option Bytes) (flow : FlowView) :
    parseFlow_checked data flow = .ok (parseFlow data flow) ∧
    Inside (data.getD []) (parseFlow data flow) := by
  unfold parseFlow_checked parseFlow
  cases data with
  | none => exact ⟨rfl, inside_none _ _⟩
  | some data =>
    simp only
    by_cases hlen : data.length < 1
    · rw [if_pos hlen, if_pos hlen]
      exact ⟨rfl, inside_none _ _⟩
    · rw [if_neg hlen, if_neg hlen, read8_ok (by omega), ok_bind]
      by_cases h4 : byteAt data 0 >>> 4 = 4
      · rw [if_pos h4, if_pos h4]
        exact parseIPv4_checked_eq data {}
      · rw [if_neg h4, if_neg h4]
        by_cases h6 : byteAt data 0 >>> 4 = 6
        · rw [if_pos h6, if_pos h6]
          exact parseIPv6_checked_eq data {}
        · rw [if_neg h6, if_neg h6]
          exact ⟨rfl, inside_none _ _⟩

/-- The dissector never reads outside a packet, and none of its sums and
differences wraps. The window that it reports lies inside the packet. -/
theorem the_dissector_stays_inside_the_packet (p : Packet) (flow : FlowView) :
    p.flow_view_checked flow = .ok (p.flow_view flow) ∧
    ∀ f, p.flow_view flow = (true, f) →
      ∃ o, f.payload = some o ∧ o + f.payload_len ≤ p.bytes.length := by
  obtain ⟨heq, hin⟩ := parseFlow_checked_eq p.data flow
  have hsub : (p.data.getD []).length ≤ p.bytes.length := by
    unfold Packet.data
    split
    · exact Nat.zero_le _
    · exact Nat.le_refl _
  unfold Packet.flow_view_checked Packet.flow_view
  rw [heq, ok_bind]
  generalize parseFlow p.data flow = d at hin ⊢
  obtain ⟨_ | ⟨o, n⟩, f⟩ := d
  · exact ⟨rfl, fun f hf => by cases hf⟩
  · have hwin : o + n ≤ p.bytes.length := (hin o n rfl).trans hsub
    simp only
    rw [slice_ok hwin]
    refine ⟨rfl, ?_⟩
    intro f' hf
    cases hf
    exact ⟨o, rfl, hwin⟩

end packet_inspector
