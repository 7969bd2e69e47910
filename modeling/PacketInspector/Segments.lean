-- TCP segments in IPv4 packets as they are written on the wire. Dissection
-- takes such a packet apart again, whatever its options and padding, and the
-- flow key is one for both directions of a connection.
import PacketInspector.Packet

open wire

namespace packet_inspector

/-! ## Fields behind fields of known length -/

theorem byteAt_skip {p : Bytes} {n : Nat} (h : p.length = n) (t : Bytes) (i : Nat) :
    byteAt (p ++ t) (n + i) = byteAt t i := by
  rw [← byteAt_drop, ← h, List.drop_left]

theorem rd16_skip {p : Bytes} {n : Nat} (h : p.length = n) (t : Bytes) (i : Nat) :
    rd16 (p ++ t) (n + i) = rd16 t i := by
  rw [← rd16_drop, ← h, List.drop_left]

theorem drop_skip {p : Bytes} {n : Nat} (h : p.length = n) (t : Bytes) (i : Nat) :
    (p ++ t).drop (n + i) = t.drop i := by
  rw [← List.drop_drop, ← h, List.drop_left]

theorem byteAt_cons_zero (b : UInt8) (t : Bytes) : byteAt (b :: t) 0 = b.toNat := rfl

theorem byteAt_cons_succ (b : UInt8) (t : Bytes) (i : Nat) : byteAt (b :: t) (i + 1) = byteAt t i :=
  rfl

/-- The two halves of a byte. -/
theorem nibbles {q r : Nat} (hq : q < 16) (hr : r < 16) :
    (UInt8.ofNat (q * 16 + r)).toNat >>> 4 = q ∧ (UInt8.ofNat (q * 16 + r)).toNat &&& 0x0f = r := by
  have hbyte : (UInt8.ofNat (q * 16 + r)).toNat = q * 16 + r := by
    rw [UInt8.toNat_ofNat']
    omega
  rw [hbyte, Nat.shiftRight_eq_div_pow, Nat.and_two_pow_sub_one_eq_mod _ 4]
  omega

/-! ## TCP segments -/

/-- Options fill up to ten words of a header. -/
def Words (options : Bytes) : Prop := ∃ n ≤ 10, options.length = 4 * n

/-- A TCP segment. `numbers` are the sequence and the acknowledgement number,
`rest` the window, the checksum and the urgent pointer. -/
structure TcpSegment where
  src_port : UInt16
  dst_port : UInt16
  numbers : Bytes
  reserved : Nat
  flags : UInt8
  rest : Bytes
  options : Bytes
  payload : Bytes
  numbers_length : numbers.length = 8
  reserved_lt : reserved < 16
  rest_length : rest.length = 6
  words : Words options

namespace TcpSegment

variable (t : TcpSegment)

/-- The data offset, in words. -/
def offset : Nat := 5 + t.options.length / 4

def header : Bytes :=
  be16 t.src_port.toNat ++ (be16 t.dst_port.toNat ++ (t.numbers ++
    UInt8.ofNat (t.offset * 16 + t.reserved) :: t.flags :: (t.rest ++ t.options)))

def encode : Bytes := t.header ++ t.payload

/-- What a segment adds to the flow of its packet. -/
def fill (flow : FlowView) : FlowView :=
  { flow with
    ip_proto := kProtoTcp
    src_port := t.src_port.toNat
    dst_port := t.dst_port.toNat
    tcp_flags := t.flags.toNat }

theorem offset_words : t.offset < 16 ∧ t.header.length = t.offset * 4 ∧ 5 ≤ t.offset := by
  obtain ⟨n, hn, hlen⟩ := t.words
  have hdiv : 4 * n / 4 = n := by omega
  simp only [offset, header, List.length_append, List.length_cons, be16_length, t.numbers_length,
    t.rest_length, hlen, hdiv]
  omega

/-- A segment at offset `l4` is dissected to its fields and its payload. -/
theorem parseL4_encode {data : Bytes} {l4 : Nat} (post : Bytes) (flow : FlowView)
    (h : data.drop l4 = t.encode ++ post) :
    parseL4 kProtoTcp data l4 t.encode.length flow =
      (some (l4 + t.header.length, t.payload.length), t.fill flow) := by
  obtain ⟨hlt, hlen, hge⟩ := t.offset_words
  have hencode : t.encode.length = t.header.length + t.payload.length := List.length_append
  have hsrc : rd16 data l4 = t.src_port.toNat := by
    rw [← Nat.add_zero l4, ← rd16_drop, h, encode, header]
    simp only [List.append_assoc]
    exact rd16_be16 _ t.src_port.toNat_lt
  have hdst : rd16 data (l4 + 2) = t.dst_port.toNat := by
    rw [← rd16_drop, h, encode, header]
    simp only [List.append_assoc]
    rw [rd16_skip (be16_length _) _ 0]
    exact rd16_be16 _ t.dst_port.toNat_lt
  have htail : ∀ i, byteAt data (l4 + (12 + i)) =
      byteAt (UInt8.ofNat (t.offset * 16 + t.reserved) :: t.flags :: (t.rest ++ t.options) ++
        t.payload ++ post) i := by
    intro i
    rw [← byteAt_drop, h, encode, header]
    simp only [List.append_assoc]
    rw [show 12 + i = 2 + (2 + (8 + i)) by omega, byteAt_skip (be16_length _),
      byteAt_skip (be16_length _), byteAt_skip t.numbers_length]
  have hoff : (byteAt data (l4 + 12) >>> 4) * 4 = t.header.length := by
    rw [htail 0, List.cons_append, List.cons_append, byteAt_cons_zero,
      (nibbles hlt t.reserved_lt).1, hlen]
  have hflags : byteAt data (l4 + 13) = t.flags.toNat := htail 1
  unfold parseL4
  simp only [if_true, hsrc, hdst, hflags, hoff]
  rw [if_neg (by omega), if_neg (by omega), hencode, Nat.add_sub_cancel_left]
  rfl

end TcpSegment

/-! ## IPv4 packets -/

/-- A whole IPv4 packet that carries a TCP segment, and no fragment: `flags`
are the three bits before the fragment offset. -/
structure IPv4Packet where
  tos : UInt8
  id : Bytes
  flags : Nat
  ttl : UInt8
  checksum : Bytes
  src_ip : Bytes
  dst_ip : Bytes
  options : Bytes
  segment : TcpSegment
  id_length : id.length = 2
  flags_lt : flags < 8
  checksum_length : checksum.length = 2
  src_ip_length : src_ip.length = 4
  dst_ip_length : dst_ip.length = 4
  words : Words options
  fits : 20 + options.length + segment.encode.length < 65536

namespace IPv4Packet

variable (h : IPv4Packet)

/-- The header length, in words. -/
def ihl : Nat := 5 + h.options.length / 4

def total_len : Nat := h.ihl * 4 + h.segment.encode.length

def header : Bytes :=
  UInt8.ofNat (4 * 16 + h.ihl) :: h.tos :: (be16 h.total_len ++ (h.id ++
    UInt8.ofNat (h.flags * 32) :: 0 :: h.ttl :: UInt8.ofNat kProtoTcp ::
      (h.checksum ++ (h.src_ip ++ (h.dst_ip ++ h.options)))))

def encode : Bytes := h.header ++ h.segment.encode

/-- The flow of the packet, but for the payload window and the key. -/
def view : FlowView :=
  h.segment.fill { ip_version := 4,
                   src_ip := h.src_ip ++ List.replicate 12 0,
                   dst_ip := h.dst_ip ++ List.replicate 12 0 }

theorem ihl_words : h.ihl < 16 ∧ h.header.length = h.ihl * 4 ∧ 5 ≤ h.ihl ∧ h.total_len < 65536 := by
  obtain ⟨n, hn, hlen⟩ := h.words
  have hfits := h.fits
  have hdiv : 4 * n / 4 = n := by omega
  simp only [ihl, total_len, header, List.length_append, List.length_cons, be16_length, h.id_length,
    h.checksum_length, h.src_ip_length, h.dst_ip_length, hlen, hdiv]
  omega

/-- The fields of the header, with anything behind it. -/
theorem header_fields (post : Bytes) :
    byteAt (h.header ++ post) 0 >>> 4 = 4 ∧ byteAt (h.header ++ post) 0 &&& 0x0f = h.ihl ∧
    rd16 (h.header ++ post) 2 = h.total_len ∧ rd16 (h.header ++ post) 6 &&& 0x1fff = 0 ∧
    byteAt (h.header ++ post) 9 = kProtoTcp ∧
    ((h.header ++ post).drop 12).take 4 = h.src_ip ∧
    ((h.header ++ post).drop 16).take 4 = h.dst_ip := by
  obtain ⟨hihl, -, -, htotal⟩ := h.ihl_words
  have hfirst : byteAt (h.header ++ post) 0 = (UInt8.ofNat (4 * 16 + h.ihl)).toNat := rfl
  obtain ⟨hver, hlow⟩ := nibbles (q := 4) (by decide) hihl
  have hsplit : h.header ++ post = [UInt8.ofNat (4 * 16 + h.ihl), h.tos] ++ (be16 h.total_len ++
      (h.id ++ ([UInt8.ofNat (h.flags * 32), 0, h.ttl, UInt8.ofNat kProtoTcp] ++ (h.checksum ++
        (h.src_ip ++ (h.dst_ip ++ (h.options ++ post))))))) := by
    simp [header]
  have hlen : [UInt8.ofNat (4 * 16 + h.ihl), h.tos].length = 2 := rfl
  have hlen' : [UInt8.ofNat (h.flags * 32), 0, h.ttl, UInt8.ofNat kProtoTcp].length = 4 := rfl
  refine ⟨by rw [hfirst, hver], by rw [hfirst, hlow], ?_, ?_, ?_, ?_, ?_⟩
  · rw [hsplit, rd16_skip hlen _ 0]
    exact rd16_be16 _ htotal
  · rw [hsplit, rd16_skip hlen _ 4, rd16_skip (be16_length _) _ 2, rd16_skip h.id_length _ 0]
    have hbyte : (UInt8.ofNat (h.flags * 32)).toNat = h.flags * 32 := by
      have hlt := h.flags_lt
      rw [UInt8.toNat_ofNat']
      omega
    rw [Nat.and_two_pow_sub_one_eq_mod _ 13]
    simp only [rd16, List.cons_append, byteAt_cons_zero, byteAt_cons_succ, hbyte]
    change (h.flags * 32 * 256 + 0) % 2 ^ 13 = 0
    omega
  · rw [hsplit, byteAt_skip hlen _ 7, byteAt_skip (be16_length _) _ 5, byteAt_skip h.id_length _ 3]
    rfl
  · rw [hsplit, drop_skip hlen _ 10, drop_skip (be16_length _) _ 8, drop_skip h.id_length _ 6,
      drop_skip hlen' _ 2, drop_skip h.checksum_length _ 0, List.drop_zero]
    exact List.take_left' h.src_ip_length
  · rw [hsplit, drop_skip hlen _ 14, drop_skip (be16_length _) _ 12, drop_skip h.id_length _ 10,
      drop_skip hlen' _ 6, drop_skip h.checksum_length _ 4, drop_skip h.src_ip_length _ 0,
      List.drop_zero]
    exact List.take_left' h.dst_ip_length

theorem encode_length : h.encode.length = h.total_len := by
  rw [encode, List.length_append, h.ihl_words.2.1, total_len]

/-- What a packet on the wire is dissected to, whatever stands behind it. -/
theorem parseFlow_encode (padding : Bytes) (flow : FlowView) :
    parseFlow (some (h.encode ++ padding)) flow =
      (some (h.header.length + h.segment.header.length, h.segment.payload.length), h.view) := by
  obtain ⟨hihl, hheader, hge, htotal⟩ := h.ihl_words
  obtain ⟨hver, hlow, hlen, hfrag, hproto, hsrc, hdst⟩ :=
    h.header_fields (h.segment.encode ++ padding)
  have hassoc : h.encode ++ padding = h.header ++ (h.segment.encode ++ padding) := by
    rw [encode, List.append_assoc]
  have hsize : (h.header ++ (h.segment.encode ++ padding)).length =
      h.total_len + padding.length := by
    rw [← hassoc, List.length_append, h.encode_length]
  have hbound : h.ihl * 4 ≤ h.total_len := by
    unfold total_len
    omega
  have hsegment : h.total_len - h.ihl * 4 = h.segment.encode.length := by
    unfold total_len
    omega
  rw [hassoc]
  unfold parseFlow
  simp only
  rw [if_neg (by omega), if_pos hver]
  unfold parseIPv4
  simp only [hlow, hlen, hfrag, hproto, hsrc, hdst, ne_eq, not_true_eq_false, if_false]
  rw [if_neg (by omega), if_neg (by omega), if_pos (by omega), hsegment]
  refine (h.segment.parseL4_encode padding _ ?_).trans ?_
  · rw [← hheader]
    exact List.drop_left
  · rw [← hheader]
    rfl

end IPv4Packet

/-! ## The law -/

/-- The endpoints of a packet, in no order. -/
def IPv4Packet.endpoints (h : IPv4Packet) : Sym2 (Bytes × UInt16) :=
  s((h.src_ip, h.segment.src_port), (h.dst_ip, h.segment.dst_port))

/-- The flow says what the packet says, and its window is the payload. -/
structure Shows (f : FlowView) (data : Bytes) (h : IPv4Packet) : Prop where
  ip_version : f.ip_version = 4
  ip_proto : f.ip_proto = kProtoTcp
  src_ip : f.src_ip = h.src_ip ++ List.replicate 12 0
  dst_ip : f.dst_ip = h.dst_ip ++ List.replicate 12 0
  src_port : f.src_port = h.segment.src_port.toNat
  dst_port : f.dst_port = h.segment.dst_port.toNat
  tcp_flags : f.tcp_flags = h.segment.flags.toNat
  payload : payloadOf data f = h.segment.payload
  payload_len : f.payload_len = h.segment.payload.length

/-- The key of a packet on the wire. -/
theorem flow_key_encode {h : IPv4Packet} {padding : Bytes} {p : Packet}
    (hp : p.data = some (h.encode ++ padding)) : p.flow_key = routeKey h.view := by
  unfold Packet.flow_key Packet.flow_view
  rw [hp, h.parseFlow_encode padding]
  exact routeKey_congr rfl rfl rfl rfl rfl

/-- Dissection inverts the encoding of an IPv4 packet, for all options,
flags, payloads and paddings, and the key ignores the direction. -/
theorem dissection_inverts_encoding (h : IPv4Packet) (padding : Bytes) (p : Packet)
    (hp : p.data = some (h.encode ++ padding)) :
    (∀ flow, ∃ f, p.flow_view flow = (true, f) ∧ Shows f (h.encode ++ padding) h) ∧
    ∀ (h' : IPv4Packet) (padding' : Bytes) (p' : Packet),
      p'.data = some (h'.encode ++ padding') → h'.endpoints = h.endpoints →
      p'.flow_key = p.flow_key := by
  refine ⟨?_, ?_⟩
  · intro flow
    refine ⟨{ h.view with
      payload := some (h.header.length + h.segment.header.length)
      payload_len := h.segment.payload.length
      key := routeKey h.view }, ?_, ⟨rfl, rfl, rfl, rfl, rfl, rfl, rfl, ?_, rfl⟩⟩
    · unfold Packet.flow_view
      rw [hp, h.parseFlow_encode padding]
      rfl
    · have hassoc : h.encode ++ padding =
          h.header ++ (h.segment.header ++ (h.segment.payload ++ padding)) := by
        simp only [IPv4Packet.encode, TcpSegment.encode, List.append_assoc]
      unfold payloadOf
      rw [hassoc, Option.getD_some, drop_skip rfl, ← Nat.add_zero h.segment.header.length,
        drop_skip rfl, List.drop_zero, List.take_left]
  · intro h' padding' p' hp' hsame
    rw [flow_key_encode hp', flow_key_encode hp]
    refine routeKey_of_connectionOf ?_
    simp only [IPv4Packet.endpoints, Sym2.eq_iff, Prod.mk.injEq] at hsame
    simp only [connectionOf, Prod.mk.injEq, Sym2.eq_iff]
    refine ⟨rfl, rfl, ?_⟩
    unfold IPv4Packet.view TcpSegment.fill
    rcases hsame with ⟨⟨h1, h2⟩, h3, h4⟩ | ⟨⟨h1, h2⟩, h3, h4⟩
    · exact .inl (by simp only [h1, h2, h3, h4, and_self])
    · exact .inr (by simp only [h1, h2, h3, h4, and_self])

namespace traffic

/-- A request from port 40000 to port 443, with a word of options in both
of its headers. -/
def request : IPv4Packet where
  tos := 0
  id := [0, 1]
  flags := 2
  ttl := 64
  checksum := [0, 0]
  src_ip := [10, 0, 0, 2]
  dst_ip := [93, 184, 216, 34]
  options := [1, 1, 1, 1]
  segment :=
    { src_port := 40000, dst_port := 443, numbers := [0, 0, 0, 1, 0, 0, 0, 1], reserved := 0
      flags := 0x18, rest := [255, 255, 0, 0, 0, 0], options := [1, 1, 1, 1]
      payload := [0x16, 0x03], numbers_length := rfl, reserved_lt := by decide
      rest_length := rfl, words := ⟨1, by decide, rfl⟩ }
  id_length := rfl
  flags_lt := by decide
  checksum_length := rfl
  src_ip_length := rfl
  dst_ip_length := rfl
  words := ⟨1, by decide, rfl⟩
  fits := by decide

/-- A reply to it with no options and no payload. -/
def reply : IPv4Packet where
  tos := 0
  id := [0, 2]
  flags := 0
  ttl := 57
  checksum := [0, 0]
  src_ip := [93, 184, 216, 34]
  dst_ip := [10, 0, 0, 2]
  options := []
  segment :=
    { src_port := 443, dst_port := 40000, numbers := [0, 0, 0, 1, 0, 0, 0, 3], reserved := 0
      flags := 0x10, rest := [255, 255, 0, 0, 0, 0], options := [], payload := []
      numbers_length := rfl, reserved_lt := by decide, rest_length := rfl
      words := ⟨0, by decide, rfl⟩ }
  id_length := rfl
  flags_lt := by decide
  checksum_length := rfl
  src_ip_length := rfl
  dst_ip_length := rfl
  words := ⟨0, by decide, rfl⟩
  fits := by decide

theorem a_reply_has_the_key_of_its_request :
    let p : Packet := { bytes := request.encode ++ [0, 0, 0], storage := .view }
    let q : Packet := { bytes := reply.encode ++ [], storage := .owned }
    (∃ f, p.flow_view {} = (true, f) ∧ Shows f (request.encode ++ [0, 0, 0]) request) ∧
    q.flow_key = p.flow_key := by
  intro p q
  obtain ⟨hview, hkey⟩ := dissection_inverts_encoding request [0, 0, 0] p rfl
  refine ⟨hview {}, hkey reply [] q rfl ?_⟩
  exact Sym2.eq_swap

end traffic

end packet_inspector
