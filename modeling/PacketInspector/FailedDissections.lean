-- Dissections that fail. The flow is reset before its packet is looked at,
-- but the IP version is filled in as soon as the fixed header fits, so a
-- packet that fails behind that header leaves its fields in the flow.
import PacketInspector.Traffic

open wire

namespace packet_inspector

/-! ## What is dissected -/

/-- The length of the TCP header at offset `l4`, as its data offset says. -/
def tcpHeaderLength (data : Bytes) (l4 : Nat) : Nat := (byteAt data (l4 + 12) >>> 4) * 4

/-- The header of the protocol fits in the `l4_len` bytes at offset `l4`. -/
inductive Transport (data : Bytes) (l4 l4_len : Nat) : Nat → Prop
  | tcp : 20 ≤ tcpHeaderLength data l4 → tcpHeaderLength data l4 ≤ l4_len →
      Transport data l4 l4_len kProtoTcp
  | udp : 8 ≤ l4_len → Transport data l4 l4_len kProtoUdp

/-- The extension headers whose length is in their second byte. -/
def IsOptions (next : Nat) : Prop :=
  next = kV6HopByHop ∨ next = kV6Routing ∨ next = kV6DestOpts ∨ next = kV6Mobility

instance (next : Nat) : Decidable (IsOptions next) :=
  inferInstanceAs (Decidable (_ ∨ _ ∨ _ ∨ _))

/-- The end of the options header at offset `off`. -/
def optionsEnd (data : Bytes) (off : Nat) : Nat := off + (byteAt data (off + 1) + 1) * 8

/-- From the header `next` at offset `off`, at most `turns` turns over whole
extension headers reach a transport header. -/
inductive LeadsToTransport (data : Bytes) (l3_len : Nat) : Nat → Nat → Nat → Prop
  | here {turns next off : Nat} : Transport data off (l3_len - off) next →
      LeadsToTransport data l3_len (turns + 1) next off
  | options {turns next off : Nat} : IsOptions next → off + 2 ≤ l3_len →
      optionsEnd data off ≤ l3_len →
      LeadsToTransport data l3_len turns (byteAt data off) (optionsEnd data off) →
      LeadsToTransport data l3_len (turns + 1) next off
  | fragment {turns off : Nat} : off + 8 ≤ l3_len → rd16 data (off + 2) &&& 0xfff8 = 0 →
      LeadsToTransport data l3_len turns (byteAt data off) (off + 8) →
      LeadsToTransport data l3_len (turns + 1) kV6Fragment off

/-- The length of the IPv4 header, in bytes. -/
def ipv4HeaderLength (data : Bytes) : Nat := (byteAt data 0 &&& 0x0f) * 4

/-- The length of an IPv4 packet: the one that it says, when that is sane. -/
def ipv4Length (data : Bytes) : Nat :=
  if rd16 data 2 ≥ ipv4HeaderLength data ∧ rd16 data 2 ≤ data.length then rd16 data 2
  else data.length

/-- The length of an IPv6 packet: the one that it says, when that is sane. -/
def ipv6Length (data : Bytes) : Nat :=
  if 40 + rd16 data 4 ≤ data.length then 40 + rd16 data 4 else data.length

/-- The version nibble is 4 or 6, and the fixed header of that version fits. -/
def HasFixedHeader (data : Bytes) : Prop :=
  byteAt data 0 >>> 4 = 4 ∧ 20 ≤ data.length ∨ byteAt data 0 >>> 4 = 6 ∧ 40 ≤ data.length

/-- The bytes are those of a TCP or UDP packet that can be dissected. -/
inductive Dissectable (data : Bytes) : Prop
  | ipv4 : byteAt data 0 >>> 4 = 4 → 20 ≤ ipv4HeaderLength data →
      ipv4HeaderLength data ≤ data.length → rd16 data 6 &&& 0x1fff = 0 →
      Transport data (ipv4HeaderLength data) (ipv4Length data - ipv4HeaderLength data)
        (byteAt data 9) → Dissectable data
  | ipv6 : byteAt data 0 >>> 4 = 6 → 40 ≤ data.length →
      LeadsToTransport data (ipv6Length data) kMaxV6ExtHeaders (byteAt data 6) 40 →
      Dissectable data

theorem Transport.tcp_or_udp {data : Bytes} {l4 l4_len proto : Nat}
    (h : Transport data l4 l4_len proto) : proto = kProtoTcp ∨ proto = kProtoUdp := by
  cases h with
  | tcp => exact .inl rfl
  | udp => exact .inr rfl

theorem transport_tcp_iff {data : Bytes} {l4 l4_len : Nat} :
    Transport data l4 l4_len kProtoTcp ↔
      20 ≤ tcpHeaderLength data l4 ∧ tcpHeaderLength data l4 ≤ l4_len := by
  refine ⟨fun h => ?_, fun h => .tcp h.1 h.2⟩
  cases h with
  | tcp hmin hlen => exact ⟨hmin, hlen⟩

theorem transport_udp_iff {data : Bytes} {l4 l4_len : Nat} :
    Transport data l4 l4_len kProtoUdp ↔ 8 ≤ l4_len := by
  refine ⟨fun h => ?_, .udp⟩
  cases h with
  | udp hlen => exact hlen

theorem dissectable_ipv4_iff {data : Bytes} (hver : byteAt data 0 >>> 4 = 4) :
    Dissectable data ↔ 20 ≤ ipv4HeaderLength data ∧ ipv4HeaderLength data ≤ data.length ∧
      rd16 data 6 &&& 0x1fff = 0 ∧ Transport data (ipv4HeaderLength data)
        (ipv4Length data - ipv4HeaderLength data) (byteAt data 9) := by
  refine ⟨fun h => ?_, fun ⟨hmin, hihl, hfrag, htransport⟩ => .ipv4 hver hmin hihl hfrag htransport⟩
  cases h with
  | ipv4 _ hmin hihl hfrag htransport => exact ⟨hmin, hihl, hfrag, htransport⟩
  | ipv6 hver' => omega

theorem dissectable_ipv6_iff {data : Bytes} (hver : byteAt data 0 >>> 4 = 6) :
    Dissectable data ↔ 40 ≤ data.length ∧
      LeadsToTransport data (ipv6Length data) kMaxV6ExtHeaders (byteAt data 6) 40 := by
  refine ⟨fun h => ?_, fun ⟨hlen, hwalk⟩ => .ipv6 hver hlen hwalk⟩
  cases h with
  | ipv4 hver' => omega
  | ipv6 _ hlen hwalk => exact ⟨hlen, hwalk⟩

theorem Dissectable.hasFixedHeader {data : Bytes} (h : Dissectable data) : HasFixedHeader data := by
  cases h with
  | ipv4 hver hmin hlen hfrag htransport => exact .inl ⟨hver, hmin.trans hlen⟩
  | ipv6 hver hlen hwalk => exact .inr ⟨hver, hlen⟩

/-! ## What a dissection leaves in the flow -/

/-- The second flow has the version of the first one, and its window and key. -/
structure SameFrame (f g : FlowView) : Prop where
  ip_version : g.ip_version = f.ip_version
  payload : g.payload = f.payload
  payload_len : g.payload_len = f.payload_len
  key : g.key = f.key

theorem SameFrame.refl (f : FlowView) : SameFrame f f := ⟨rfl, rfl, rfl, rfl⟩

/-- A dissection that works exactly on the bytes that are `ok`, and leaves
the version, the window and the key of the flow as they were. -/
def Dissects (d : Dissected) (ok : Prop) (flow : FlowView) : Prop :=
  (d.1.isSome = true ↔ ok) ∧ SameFrame flow d.2

theorem Dissects.fails {ok : Prop} {f flow : FlowView} (h : ¬ ok) (hf : SameFrame flow f) :
    Dissects (none, f) ok flow :=
  ⟨iff_of_false (by simp) h, hf⟩

theorem Dissects.works {ok : Prop} {f flow : FlowView} (x : Nat × Nat) (h : ok)
    (hf : SameFrame flow f) : Dissects (some x, f) ok flow :=
  ⟨iff_of_true rfl h, hf⟩

theorem Dissects.congr {ok ok' : Prop} {d : Dissected} {flow : FlowView} (h : Dissects d ok flow)
    (hok : ok ↔ ok') : Dissects d ok' flow :=
  ⟨h.1.trans hok, h.2⟩

theorem parseL4_dissects (proto : Nat) (data : Bytes) (l4 l4_len : Nat) (flow : FlowView) :
    Dissects (parseL4 proto data l4 l4_len flow) (Transport data l4 l4_len proto) flow := by
  unfold parseL4
  simp only
  by_cases htcp : proto = kProtoTcp
  · subst htcp
    rw [if_pos rfl, transport_tcp_iff]
    unfold tcpHeaderLength
    by_cases hlen : l4_len < 20
    · rw [if_pos hlen]
      exact .fails (by omega) ⟨rfl, rfl, rfl, rfl⟩
    · rw [if_neg hlen]
      by_cases hoff : byteAt data (l4 + 12) >>> 4 * 4 < 20 ∨ byteAt data (l4 + 12) >>> 4 * 4 > l4_len
      · rw [if_pos hoff]
        exact .fails (by omega) ⟨rfl, rfl, rfl, rfl⟩
      · rw [if_neg hoff]
        exact .works _ (by omega) ⟨rfl, rfl, rfl, rfl⟩
  · rw [if_neg htcp]
    by_cases hudp : proto = kProtoUdp
    · subst hudp
      rw [if_pos rfl, transport_udp_iff]
      by_cases hlen : l4_len < 8
      · rw [if_pos hlen]
        exact .fails (by omega) ⟨rfl, rfl, rfl, rfl⟩
      · rw [if_neg hlen]
        exact .works _ (by omega) ⟨rfl, rfl, rfl, rfl⟩
    · rw [if_neg hudp]
      exact .fails (fun h => h.tcp_or_udp.elim htcp hudp) ⟨rfl, rfl, rfl, rfl⟩

theorem leadsToTransport_succ_iff {data : Bytes} {l3_len turns next off : Nat} :
    LeadsToTransport data l3_len (turns + 1) next off ↔
      Transport data off (l3_len - off) next ∨
      (IsOptions next ∧ off + 2 ≤ l3_len ∧ optionsEnd data off ≤ l3_len ∧
        LeadsToTransport data l3_len turns (byteAt data off) (optionsEnd data off)) ∨
      (next = kV6Fragment ∧ off + 8 ≤ l3_len ∧ rd16 data (off + 2) &&& 0xfff8 = 0 ∧
        LeadsToTransport data l3_len turns (byteAt data off) (off + 8)) := by
  constructor
  · intro h
    cases h with
    | here htransport => exact .inl htransport
    | options hopt hroom hend hrest => exact .inr (.inl ⟨hopt, hroom, hend, hrest⟩)
    | fragment hroom hfirst hrest => exact .inr (.inr ⟨rfl, hroom, hfirst, hrest⟩)
  · rintro (htransport | ⟨hopt, hroom, hend, hrest⟩ | ⟨rfl, hroom, hfirst, hrest⟩)
    · exact .here htransport
    · exact .options hopt hroom hend hrest
    · exact .fragment hroom hfirst hrest

/-- No number is that of two kinds of headers. -/
theorem IsOptions.ne {next : Nat} (h : IsOptions next) :
    next ≠ kProtoTcp ∧ next ≠ kProtoUdp ∧ next ≠ kV6Fragment := by
  rcases h with rfl | rfl | rfl | rfl <;> decide

/-- A turn of the walk, in these words. -/
theorem walkV6_succ (data : Bytes) (l3_len turns next off : Nat) (flow : FlowView) :
    walkV6 data l3_len (turns + 1) next off flow =
      if next = kProtoTcp ∨ next = kProtoUdp then parseL4 next data off (l3_len - off) flow
      else if IsOptions next then
        if off + 2 > l3_len then (none, flow)
        else if optionsEnd data off > l3_len then (none, flow)
        else walkV6 data l3_len turns (byteAt data off) (optionsEnd data off) flow
      else if next = kV6Fragment then
        if off + 8 > l3_len then (none, flow)
        else if rd16 data (off + 2) &&& 0xfff8 ≠ 0 then (none, flow)
        else walkV6 data l3_len turns (byteAt data off) (off + 8) flow
      else (none, flow) := rfl

/-- Each turn of the walk goes one of the ways to a transport header. -/
theorem walkV6_dissects (data : Bytes) (l3_len turns next off : Nat) (flow : FlowView) :
    Dissects (walkV6 data l3_len turns next off flow)
      (LeadsToTransport data l3_len turns next off) flow := by
  induction turns generalizing next off with
  | zero =>
    refine .fails ?_ (.refl flow)
    intro h
    cases h
  | succ turns ih =>
    rw [walkV6_succ, leadsToTransport_succ_iff]
    by_cases hl4 : next = kProtoTcp ∨ next = kProtoUdp
    · have hopt : ¬ IsOptions next := fun h => hl4.elim h.ne.1 h.ne.2.1
      have hfrag : next ≠ kV6Fragment := by
        rcases hl4 with rfl | rfl <;> decide
      rw [if_pos hl4]
      exact (parseL4_dissects next data off (l3_len - off) flow).congr (by simp [hopt, hfrag])
    · have hno : ¬ Transport data off (l3_len - off) next := fun h => hl4 h.tcp_or_udp
      rw [if_neg hl4]
      by_cases hopt : IsOptions next
      · rw [if_pos hopt]
        by_cases hroom : off + 2 > l3_len
        · rw [if_pos hroom]
          refine .fails ?_ (.refl flow)
          simp [hno, hopt.ne.2.2, hroom]
        · rw [if_neg hroom]
          by_cases hend : optionsEnd data off > l3_len
          · rw [if_pos hend]
            refine .fails ?_ (.refl flow)
            simp [hno, hopt.ne.2.2, hend]
          · rw [if_neg hend]
            refine (ih (byteAt data off) (optionsEnd data off)).congr ?_
            simp [hno, hopt, hopt.ne.2.2, not_lt.mp hroom, not_lt.mp hend]
      · rw [if_neg hopt]
        by_cases hfrag : next = kV6Fragment
        · subst hfrag
          rw [if_pos rfl]
          by_cases hroom : off + 8 > l3_len
          · rw [if_pos hroom]
            refine .fails ?_ (.refl flow)
            simp [hno, hopt, hroom]
          · rw [if_neg hroom]
            by_cases hfirst : rd16 data (off + 2) &&& 0xfff8 ≠ 0
            · rw [if_pos hfirst]
              refine .fails ?_ (.refl flow)
              simp [hno, hopt, hfirst]
            · rw [if_neg hfirst]
              refine (ih (byteAt data off) (off + 8)).congr ?_
              simp [hno, hopt, not_lt.mp hroom, not_not.mp hfirst]
        · rw [if_neg hfrag]
          refine .fails ?_ (.refl flow)
          simp [hno, hopt, hfrag]

/-! ## The fixed headers -/

/-- The two addresses of an IPv4 header are the first bytes of their fields. -/
def fillIPv4 (data : Bytes) (flow : FlowView) : FlowView :=
  { flow with
    ip_version := 4
    src_ip := (data.drop 12).take 4 ++ flow.src_ip.drop 4
    dst_ip := (data.drop 16).take 4 ++ flow.dst_ip.drop 4 }

theorem parseIPv4_eq (data : Bytes) (flow : FlowView) :
    parseIPv4 data flow =
      if data.length < 20 then (none, flow)
      else if ipv4HeaderLength data < 20 ∨ ipv4HeaderLength data > data.length then
        (none, { flow with ip_version := 4 })
      else if rd16 data 6 &&& 0x1fff ≠ 0 then (none, { flow with ip_version := 4 })
      else parseL4 (byteAt data 9) data (ipv4HeaderLength data)
        (ipv4Length data - ipv4HeaderLength data) (fillIPv4 data flow) := rfl

theorem parseIPv4_dissects {data : Bytes} (hver : byteAt data 0 >>> 4 = 4)
    (hlen : 20 ≤ data.length) (flow : FlowView) :
    Dissects (parseIPv4 data flow) (Dissectable data) { flow with ip_version := 4 } := by
  rw [dissectable_ipv4_iff hver, parseIPv4_eq, if_neg (by omega)]
  by_cases hihl : ipv4HeaderLength data < 20 ∨ ipv4HeaderLength data > data.length
  · rw [if_pos hihl]
    exact .fails (by omega) ⟨rfl, rfl, rfl, rfl⟩
  · rw [if_neg hihl]
    by_cases hfrag : rd16 data 6 &&& 0x1fff ≠ 0
    · rw [if_pos hfrag]
      exact .fails (fun h => hfrag h.2.2.1) ⟨rfl, rfl, rfl, rfl⟩
    · rw [if_neg hfrag]
      have hrange : 20 ≤ ipv4HeaderLength data ∧ ipv4HeaderLength data ≤ data.length := by omega
      obtain ⟨hsome, hframe⟩ := parseL4_dissects (byteAt data 9) data (ipv4HeaderLength data)
        (ipv4Length data - ipv4HeaderLength data) (fillIPv4 data flow)
      refine Dissects.congr ⟨hsome, hframe.1, hframe.2, hframe.3, hframe.4⟩ ?_
      simp [hrange.1, hrange.2, not_not.mp hfrag]

theorem parseIPv6_dissects {data : Bytes} (hver : byteAt data 0 >>> 4 = 6)
    (hlen : 40 ≤ data.length) (flow : FlowView) :
    Dissects (parseIPv6 data flow) (Dissectable data) { flow with ip_version := 6 } := by
  unfold parseIPv6
  rw [if_neg (by omega)]
  obtain ⟨hsome, hframe⟩ := walkV6_dissects data (ipv6Length data) kMaxV6ExtHeaders (byteAt data 6)
    40 { flow with
      ip_version := 6
      src_ip := (data.drop 8).take 16
      dst_ip := (data.drop 24).take 16 }
  refine Dissects.congr ⟨hsome, hframe.1, hframe.2, hframe.3, hframe.4⟩ ?_
  simp [dissectable_ipv6_iff hver, hlen]

theorem not_hasFixedHeader_nil : ¬ HasFixedHeader [] := by
  rintro (h | h)
  · exact absurd h.1 (by decide)
  · exact absurd h.1 (by decide)

/-- Without its fixed header a packet fails before anything is written. -/
theorem parseFlow_of_no_header {data : Option Bytes} (h : ¬ HasFixedHeader (data.getD []))
    (flow : FlowView) : parseFlow data flow = (none, {}) := by
  cases data with
  | none => rfl
  | some data =>
    simp only [Option.getD_some, HasFixedHeader, not_or, not_and, not_le] at h
    unfold parseFlow
    simp only
    by_cases hlen : data.length < 1
    · rw [if_pos hlen]
    · rw [if_neg hlen]
      by_cases h4 : byteAt data 0 >>> 4 = 4
      · rw [if_pos h4, parseIPv4_eq, if_pos (h.1 h4)]
      · rw [if_neg h4]
        by_cases h6 : byteAt data 0 >>> 4 = 6
        · rw [if_pos h6]
          unfold parseIPv6
          rw [if_pos (h.2 h6)]
        · rw [if_neg h6]

/-- Behind its fixed header it is dissected or not, but the version stays. -/
theorem parseFlow_of_header {data : Bytes} (h : HasFixedHeader data) (flow : FlowView) :
    ∃ version ≠ 0, Dissects (parseFlow (some data) flow) (Dissectable data)
      { ip_version := version } := by
  unfold parseFlow
  simp only
  rcases h with ⟨hver, hlen⟩ | ⟨hver, hlen⟩
  · rw [if_neg (by omega), if_pos hver]
    exact ⟨4, by decide, parseIPv4_dissects hver hlen {}⟩
  · rw [if_neg (by omega), if_neg (by omega), if_pos hver]
    exact ⟨6, by decide, parseIPv6_dissects hver hlen {}⟩

/-! ## The law -/

namespace Packet

/-- The bytes that the packet can still reach. -/
def reachable (p : Packet) : Bytes := p.data.getD []

theorem flow_view_of_no_header {p : Packet} (h : ¬ HasFixedHeader p.reachable) (flow : FlowView) :
    p.flow_view flow = (false, {}) := by
  unfold flow_view
  rw [parseFlow_of_no_header h]

/-- No window and no key. -/
structure NoWindow (f : FlowView) : Prop where
  payload : f.payload = none
  payload_len : f.payload_len = 0
  key : f.key = 0

theorem flow_view_of_header {p : Packet} (h : HasFixedHeader p.reachable) (flow : FlowView) :
    ((p.flow_view flow).1 = true ↔ Dissectable p.reachable) ∧
    (p.flow_view flow).2.ip_version ≠ 0 ∧
    ((p.flow_view flow).1 = false → NoWindow (p.flow_view flow).2) := by
  obtain ⟨data, hdata⟩ : ∃ data, p.data = some data := by
    cases hd : p.data with
    | none => exact absurd h (by simp [reachable, hd, not_hasFixedHeader_nil])
    | some data => exact ⟨data, rfl⟩
  have hreach : p.reachable = data := by simp [reachable, hdata]
  rw [hreach] at h ⊢
  obtain ⟨version, hne, hok, hframe⟩ := parseFlow_of_header h flow
  have hleft : (parseFlow (some data) flow).2.ip_version ≠ 0 := by
    rw [hframe.ip_version]
    exact hne
  unfold flow_view
  rw [hdata]
  generalize parseFlow (some data) flow = d at hok hframe hleft
  obtain ⟨_ | window, f⟩ := d
  · exact ⟨by simpa using hok, hleft, fun _ => ⟨hframe.payload, hframe.payload_len, hframe.key⟩⟩
  · refine ⟨by simpa using hok, hleft, fun hf => ?_⟩
    cases hf

/-- A packet is dissected exactly when it is a TCP or UDP packet whose
headers fit. -/
theorem flow_view_iff (p : Packet) (flow : FlowView) :
    (p.flow_view flow).1 = true ↔ Dissectable p.reachable := by
  by_cases h : HasFixedHeader p.reachable
  · exact (flow_view_of_header h flow).1
  · rw [flow_view_of_no_header h]
    simpa using fun hd : Dissectable p.reachable => h hd.hasFixedHeader

/-- A dissection that fails leaves no window and no key, whatever the flow held. -/
theorem a_failed_dissection_leaves_no_window (p : Packet) (flow : FlowView)
    (hfailed : (p.flow_view flow).1 = false) : NoWindow (p.flow_view flow).2 := by
  by_cases h : HasFixedHeader p.reachable
  · exact (flow_view_of_header h flow).2.2 hfailed
  · rw [flow_view_of_no_header h]
    exact ⟨rfl, rfl, rfl⟩

/-- A dissection that fails leaves the flow at its default exactly when the
packet has no fixed header: what comes behind that header fails too late. -/
theorem a_failed_dissection_leaves_nothing_iff (p : Packet) (flow : FlowView) :
    ((p.flow_view flow).1 = false → (p.flow_view flow).2 = {}) ↔
      (HasFixedHeader p.reachable → Dissectable p.reachable) := by
  have hfail : (p.flow_view flow).1 = false ↔ ¬ Dissectable p.reachable := by
    rw [← flow_view_iff p flow, Bool.not_eq_true]
  constructor
  · intro hclean hheader
    by_contra hbad
    have hleft := (flow_view_of_header hheader flow).2.1
    rw [hclean (hfail.mpr hbad)] at hleft
    exact hleft rfl
  · intro hok hfailed
    have hheader : ¬ HasFixedHeader p.reachable := fun h => hfail.mp hfailed (hok h)
    rw [flow_view_of_no_header hheader]

end Packet

namespace traffic

/-- An echo request of a client, which is neither TCP nor UDP. -/
def ping : Packet := { bytes := ipv4 1 (client 2) server [8, 0, 0, 0, 0, 1, 0, 1], storage := .view }

/-- Its version, its protocol and its addresses stay in the flow. -/
theorem a_failed_dissection_leaves_addresses :
    (ping.flow_view {}).1 = false ∧ (ping.flow_view {}).2 ≠ {} ∧
    (ping.flow_view {}).2 = {
      ip_version := 4
      ip_proto := 1
      src_ip := [10, 0, 0, 2] ++ List.replicate 12 0
      dst_ip := [93, 184, 216, 34] ++ List.replicate 12 0 } := by
  decide

end traffic

end packet_inspector
