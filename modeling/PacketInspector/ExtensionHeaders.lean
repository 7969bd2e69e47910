-- The extension headers of an IPv6 packet. The walk of `parseIPv6` spends a
-- turn on each of them and one more on the transport header, so the last
-- chain that it follows is one shorter than its limit.
import PacketInspector.Segments

open wire

namespace packet_inspector

/-! ## Chains of extension headers -/

/-- The extension headers whose length is in their second byte. -/
inductive OptionsKind where
  | hopByHop
  | routing
  | destOpts
  | mobility

def OptionsKind.number : OptionsKind → Nat
  | .hopByHop => kV6HopByHop
  | .routing => kV6Routing
  | .destOpts => kV6DestOpts
  | .mobility => kV6Mobility

/-- An extension header. `length` counts the words of eight bytes after the
first. A fragment header is that of the first fragment, so that its offset is
zero: `flags` are the three bits behind the offset. -/
inductive ExtHeader where
  | options (kind : OptionsKind) (length : UInt8) (body : Bytes)
      (body_length : body.length + 2 = (length.toNat + 1) * 8)
  | fragment (reserved : UInt8) (flags : Nat) (id : Bytes) (flags_lt : flags < 8)
      (id_length : id.length = 4)

namespace ExtHeader

def number : ExtHeader → Nat
  | options kind _ _ _ => kind.number
  | fragment _ _ _ _ _ => kV6Fragment

/-- The bytes of a header that names the header `next` after it. -/
def encode (next : Nat) : ExtHeader → Bytes
  | options _ length body _ => UInt8.ofNat next :: length :: body
  | fragment reserved flags id _ _ => UInt8.ofNat next :: reserved :: 0 :: UInt8.ofNat flags :: id

end ExtHeader

/-- The number of the first header of a chain that ends in a TCP header. -/
def firstNumber : List ExtHeader → Nat
  | [] => kProtoTcp
  | x :: _ => x.number

def encodeChain : List ExtHeader → Bytes
  | [] => []
  | x :: chain => x.encode (firstNumber chain) ++ encodeChain chain

theorem OptionsKind.number_lt (kind : OptionsKind) : kind.number < 256 := by
  cases kind <;> decide

theorem firstNumber_lt (chain : List ExtHeader) : firstNumber chain < 256 := by
  cases chain with
  | nil => decide
  | cons x chain =>
    cases x with
    | options kind length body hbody => exact kind.number_lt
    | fragment reserved flags id hflags hid => exact (by decide : kV6Fragment < 256)

/-! ## The walk -/

/-- One turn of the walk takes one extension header. -/
theorem walkV6_turn {data : Bytes} {l3_len turns off : Nat} (x : ExtHeader) (chain : List ExtHeader)
    (post : Bytes) (flow : FlowView)
    (hdata : data.drop off = x.encode (firstNumber chain) ++ post)
    (hroom : off + (x.encode (firstNumber chain)).length ≤ l3_len) :
    walkV6 data l3_len (turns + 1) x.number off flow =
      walkV6 data l3_len turns (firstNumber chain)
        (off + (x.encode (firstNumber chain)).length) flow := by
  have hnext : byteAt data off = firstNumber chain := by
    rw [← Nat.add_zero off, ← byteAt_drop, hdata]
    have hbyte : (UInt8.ofNat (firstNumber chain)).toNat = firstNumber chain := by
      rw [UInt8.toNat_ofNat']
      exact Nat.mod_eq_of_lt (firstNumber_lt chain)
    cases x with
    | options kind length body hbody => exact hbyte
    | fragment reserved flags id hflags hid => exact hbyte
  cases x with
  | options kind length body hbody =>
    have hsecond : byteAt data (off + 1) = length.toNat := by
      rw [← byteAt_drop, hdata]
      rfl
    have hlen : (ExtHeader.encode (firstNumber chain) (.options kind length body hbody)).length =
        (length.toNat + 1) * 8 := by
      simp only [ExtHeader.encode, List.length_cons]
      omega
    rw [hlen] at hroom ⊢
    have hkind : kind.number ≠ kProtoTcp ∧ kind.number ≠ kProtoUdp ∧
        (kind.number = kV6HopByHop ∨ kind.number = kV6Routing ∨ kind.number = kV6DestOpts ∨
          kind.number = kV6Mobility) := by
      cases kind <;> decide
    simp only [walkV6, ExtHeader.number]
    rw [if_neg (not_or.mpr ⟨hkind.1, hkind.2.1⟩), if_pos hkind.2.2, if_neg (by omega), hsecond,
      if_neg (by omega), hnext]
  | fragment reserved flags id hflags hid =>
    have hlen : (ExtHeader.encode (firstNumber chain) (.fragment reserved flags id hflags hid)).length =
        8 := by
      simp only [ExtHeader.encode, List.length_cons, hid]
    have hoffset : rd16 data (off + 2) &&& 0xfff8 = 0 := by
      rw [← rd16_drop, hdata]
      have hbyte : rd16 (ExtHeader.encode (firstNumber chain)
          (.fragment reserved flags id hflags hid) ++ post) 2 = flags := by
        change 0 * 256 + (UInt8.ofNat flags).toNat = flags
        rw [UInt8.toNat_ofNat']
        omega
      rw [hbyte]
      interval_cases flags <;> rfl
    rw [hlen] at hroom ⊢
    simp only [walkV6, ExtHeader.number]
    rw [if_neg (by decide), if_neg (by decide), if_pos trivial, if_neg (by omega),
      if_neg (not_not_intro hoffset), hnext]

/-- The walk reaches the segment at the end of a chain when it has a turn
left for it. -/
theorem walkV6_chain {data : Bytes} {l3_len : Nat} (t : TcpSegment) (post : Bytes) (flow : FlowView)
    (chain : List ExtHeader) {turns off : Nat}
    (hdata : data.drop off = encodeChain chain ++ (t.encode ++ post))
    (hend : off + (encodeChain chain).length + t.encode.length = l3_len) :
    walkV6 data l3_len turns (firstNumber chain) off flow =
      if chain.length < turns then
        (some (off + (encodeChain chain).length + t.header.length, t.payload.length), t.fill flow)
      else (none, flow) := by
  induction chain generalizing turns off with
  | nil =>
    cases turns with
    | zero => rfl
    | succ turns =>
      have hlen : l3_len - off = t.encode.length := by
        simp only [encodeChain, List.length_nil] at hend
        omega
      simp only [firstNumber, walkV6]
      rw [if_pos (.inl trivial), hlen, if_pos (by simp)]
      exact t.parseL4_encode post flow hdata
  | cons x chain ih =>
    cases turns with
    | zero => simp [walkV6]
    | succ turns =>
      rw [encodeChain, List.append_assoc] at hdata
      rw [encodeChain, List.length_append] at hend ⊢
      rw [firstNumber, walkV6_turn x chain _ flow hdata (by omega)]
      have hrest : data.drop (off + (x.encode (firstNumber chain)).length) =
          encodeChain chain ++ (t.encode ++ post) := by
        rw [← List.drop_drop, hdata, List.drop_left]
      rw [ih hrest (by omega)]
      simp only [List.length_cons, Nat.add_lt_add_iff_right, Nat.add_assoc]

/-! ## IPv6 packets -/

/-- A whole IPv6 packet that carries a TCP segment behind a chain of
extension headers, with a payload length that matches. `class_flow` are the
three bytes of the traffic class and the flow label, but for their first four
bits. -/
structure IPv6Packet where
  class_high : Nat
  class_flow : Bytes
  hop_limit : UInt8
  src_ip : Bytes
  dst_ip : Bytes
  chain : List ExtHeader
  segment : TcpSegment
  class_high_lt : class_high < 16
  class_flow_length : class_flow.length = 3
  src_ip_length : src_ip.length = 16
  dst_ip_length : dst_ip.length = 16
  fits : (encodeChain chain).length + segment.encode.length < 65536

namespace IPv6Packet

variable (h : IPv6Packet)

/-- The length after the fixed header. -/
def plen : Nat := (encodeChain h.chain).length + h.segment.encode.length

def header : Bytes :=
  UInt8.ofNat (6 * 16 + h.class_high) :: (h.class_flow ++ (be16 h.plen ++
    UInt8.ofNat (firstNumber h.chain) :: h.hop_limit :: (h.src_ip ++ h.dst_ip)))

def encode : Bytes := h.header ++ (encodeChain h.chain ++ h.segment.encode)

/-- The flow of the packet after its fixed header. -/
def fixed : FlowView := { ip_version := 6, src_ip := h.src_ip, dst_ip := h.dst_ip }

theorem header_length : h.header.length = 40 := by
  simp only [header, List.length_append, List.length_cons, be16_length, h.class_flow_length,
    h.src_ip_length, h.dst_ip_length]

/-- The fields of the fixed header, with anything behind it. -/
theorem header_fields (post : Bytes) :
    byteAt (h.header ++ post) 0 >>> 4 = 6 ∧ rd16 (h.header ++ post) 4 = h.plen ∧
    byteAt (h.header ++ post) 6 = firstNumber h.chain ∧
    ((h.header ++ post).drop 8).take 16 = h.src_ip ∧
    ((h.header ++ post).drop 24).take 16 = h.dst_ip := by
  have hsplit : h.header ++ post = [UInt8.ofNat (6 * 16 + h.class_high)] ++ (h.class_flow ++
      (be16 h.plen ++ ([UInt8.ofNat (firstNumber h.chain), h.hop_limit] ++ (h.src_ip ++
        (h.dst_ip ++ post))))) := by
    simp [header]
  have hfirst : [UInt8.ofNat (6 * 16 + h.class_high)].length = 1 := rfl
  have hnext : [UInt8.ofNat (firstNumber h.chain), h.hop_limit].length = 2 := rfl
  refine ⟨(nibbles (q := 6) (by decide) h.class_high_lt).1, ?_, ?_, ?_, ?_⟩
  · rw [hsplit, rd16_skip hfirst _ 3, rd16_skip h.class_flow_length _ 0]
    exact rd16_be16 _ h.fits
  · rw [hsplit, byteAt_skip hfirst _ 5, byteAt_skip h.class_flow_length _ 2,
      byteAt_skip (be16_length _) _ 0, List.cons_append, byteAt_cons_zero, UInt8.toNat_ofNat']
    exact Nat.mod_eq_of_lt (firstNumber_lt h.chain)
  · rw [hsplit, drop_skip hfirst _ 7, drop_skip h.class_flow_length _ 4, drop_skip (be16_length _) _ 2,
      drop_skip hnext _ 0, List.drop_zero]
    exact List.take_left' h.src_ip_length
  · rw [hsplit, drop_skip hfirst _ 23, drop_skip h.class_flow_length _ 20,
      drop_skip (be16_length _) _ 18, drop_skip hnext _ 16, drop_skip h.src_ip_length _ 0,
      List.drop_zero]
    exact List.take_left' h.dst_ip_length

/-- What a packet on the wire is dissected to, whatever stands behind it. -/
theorem parseFlow_encode (padding : Bytes) (flow : FlowView) :
    parseFlow (some (h.encode ++ padding)) flow =
      if h.chain.length < kMaxV6ExtHeaders then
        (some (40 + (encodeChain h.chain).length + h.segment.header.length,
          h.segment.payload.length), h.segment.fill h.fixed)
      else (none, h.fixed) := by
  have hassoc : h.encode ++ padding =
      h.header ++ (encodeChain h.chain ++ (h.segment.encode ++ padding)) := by
    simp only [encode, List.append_assoc]
  obtain ⟨hver, hplen, hnext, hsrc, hdst⟩ :=
    h.header_fields (encodeChain h.chain ++ (h.segment.encode ++ padding))
  have hsize : (h.header ++ (encodeChain h.chain ++ (h.segment.encode ++ padding))).length =
      40 + h.plen + padding.length := by
    simp only [List.length_append, h.header_length, plen]
    omega
  rw [hassoc]
  unfold parseFlow
  simp only
  rw [if_neg (by omega), if_neg (by omega), if_pos hver]
  unfold parseIPv6
  simp only [hplen, hnext, hsrc, hdst]
  rw [if_neg (by omega), if_pos (by omega)]
  refine walkV6_chain h.segment padding h.fixed h.chain ?_ (by unfold plen; omega)
  rw [← h.header_length]
  exact List.drop_left

end IPv6Packet

/-! ## The law -/

/-- The flow says what the packet says, and its window is the payload. -/
structure ShowsV6 (f : FlowView) (data : Bytes) (h : IPv6Packet) : Prop where
  ip_version : f.ip_version = 6
  ip_proto : f.ip_proto = kProtoTcp
  src_ip : f.src_ip = h.src_ip
  dst_ip : f.dst_ip = h.dst_ip
  src_port : f.src_port = h.segment.src_port.toNat
  dst_port : f.dst_port = h.segment.dst_port.toNat
  tcp_flags : f.tcp_flags = h.segment.flags.toNat
  payload : payloadOf data f = h.segment.payload
  payload_len : f.payload_len = h.segment.payload.length

/-- A packet behind up to eight extension headers is dissected to what it
says exactly when there are less than eight of them. -/
theorem extension_headers_are_followed_below_the_limit (h : IPv6Packet)
    (hn : h.chain.length ≤ kMaxV6ExtHeaders) (padding : Bytes) (p : Packet)
    (hp : p.data = some (h.encode ++ padding)) (flow : FlowView) :
    (∃ f, p.flow_view flow = (true, f) ∧ ShowsV6 f (h.encode ++ padding) h) ↔
      h.chain.length ≠ kMaxV6ExtHeaders := by
  unfold Packet.flow_view
  rw [hp, h.parseFlow_encode padding]
  by_cases hlt : h.chain.length < kMaxV6ExtHeaders
  · rw [if_pos hlt]
    refine iff_of_true ⟨_, rfl, ⟨rfl, rfl, rfl, rfl, rfl, rfl, rfl, ?_, rfl⟩⟩ (Nat.ne_of_lt hlt)
    have hassoc : h.encode ++ padding = h.header ++ (encodeChain h.chain ++
        (h.segment.header ++ (h.segment.payload ++ padding))) := by
      simp only [IPv6Packet.encode, TcpSegment.encode, List.append_assoc]
    unfold payloadOf
    rw [hassoc, Option.getD_some, Nat.add_assoc, drop_skip h.header_length, drop_skip rfl,
      ← Nat.add_zero h.segment.header.length, drop_skip rfl, List.drop_zero, List.take_left]
  · rw [if_neg hlt]
    refine iff_of_false ?_ (not_not_intro (Nat.le_antisymm hn (not_lt.mp hlt)))
    rintro ⟨f, hf, -⟩
    cases hf

namespace traffic

/-- Destination options of eight bytes. -/
def destOpts : ExtHeader := .options .destOpts 0 [1, 4, 0, 0, 0, 0] rfl

theorem no_class : 0 < 16 := by decide

/-- The segment of a client behind `n` headers of destination options. -/
def behind (n : Nat) (hn : n ≤ 8) : IPv6Packet where
  class_high := 0
  class_flow := [0, 0, 0]
  hop_limit := 64
  src_ip := [0x20, 0x01, 0x0d, 0xb8, 0, 0, 0, 0, 0, 0, 0, 0, 0, 0, 0, 1]
  dst_ip := [0x20, 0x01, 0x0d, 0xb8, 0, 0, 0, 0, 0, 0, 0, 0, 0, 0, 0, 2]
  chain := List.replicate n destOpts
  segment := request.segment
  class_high_lt := no_class
  class_flow_length := rfl
  src_ip_length := rfl
  dst_ip_length := rfl
  fits := by interval_cases n <;> decide

theorem a_segment_behind_seven_headers_is_seen :
    let h := behind 7 (by decide)
    let p : Packet := { bytes := h.encode ++ [], storage := .view }
    ∃ f, p.flow_view {} = (true, f) ∧ ShowsV6 f (h.encode ++ []) h := by
  intro h p
  exact (extension_headers_are_followed_below_the_limit h (by decide) [] p rfl {}).mpr (by decide)

/-- The walk gives up behind eight headers, with the TCP header right ahead. -/
theorem a_segment_behind_eight_headers_is_missed :
    let h := behind 8 (by decide)
    let p : Packet := { bytes := h.encode ++ [], storage := .view }
    h.chain.length = kMaxV6ExtHeaders ∧
    ¬ ∃ f, p.flow_view {} = (true, f) ∧ ShowsV6 f (h.encode ++ []) h := by
  intro h p
  have hmiss : (p.flow_view {}).1 = false := by decide +kernel
  refine ⟨rfl, ?_⟩
  rintro ⟨f, hf, -⟩
  rw [hf] at hmiss
  cases hmiss

end traffic

end packet_inspector
