-- The ClientHello of `packet_builders.hpp`, read back: however it is cut into
-- records, its host comes out with the last byte, and nothing before it.
import PacketInspector.Hostname
import PacketInspector.Traffic

open wire

namespace packet_inspector.traffic

open tls

variable {host : Bytes}

/-! ## The message -/

/-- The handshake message inside the record of `client_hello`. -/
def handshake (host : Bytes) : Bytes := [0x01, 0x00] ++ vec16 (helloBody host)

/-- What the message names: the host, unless it is empty. -/
def namedHost (host : Bytes) : HostnameResult := if host = [] then .NotFound else .Found host

theorem helloExtensions_length (hne : host ≠ []) :
    (helloExtensions host).length = 9 + host.length := by
  simp [helloExtensions, hne]
  omega

theorem helloBody_length_le (host : Bytes) : (helloBody host).length ≤ 52 + host.length := by
  by_cases hne : host = []
  · subst hne
    simp [helloBody, helloExtensions]
  · have hlen := helloExtensions_length hne
    simp only [helloBody, List.length_append, vec16_length, hlen, List.length_cons, List.length_nil,
      List.length_replicate]
    omega

theorem le_helloBody_length (host : Bytes) : 34 ≤ (helloBody host).length := by
  simp only [helloBody, List.length_append, vec16_length, List.length_cons, List.length_nil,
    List.length_replicate]
  omega

theorem handshake_length (host : Bytes) : (handshake host).length = 4 + (helloBody host).length := by
  simp [handshake]
  omega

/-- The third byte of the length is zero, and the other two hold it. -/
theorem isClientHello_handshake (hfits : host.length ≤ 65483) : IsClientHello (handshake host) := by
  have hle := helloBody_length_le host
  have hlow := le_helloBody_length host
  have hrd : rd24 (handshake host) 1 = (helloBody host).length := by
    have hdrop : (handshake host).drop 2 = vec16 (helloBody host) ++ [] := by simp [handshake]
    have hlen := rd16_drop (handshake host) 2 0
    rw [hdrop, rd16_vec16 _ (by omega)] at hlen
    have hzero : byteAt (handshake host) 1 = 0 := rfl
    have hsplit : rd24 (handshake host) 1 =
        byteAt (handshake host) 1 * 65536 + rd16 (handshake host) 2 := by
      simp only [rd24, rd16, Nat.reduceAdd]
      omega
    rw [hsplit, hzero, show rd16 (handshake host) 2 = _ from hlen.symm]
    omega
  exact ⟨rfl, by omega, by omega, by rw [hrd, handshake_length]⟩

/-! ## The fields -/

/-- The message as the fields of the grammar. -/
def helloFields (host : Bytes) : Hello where
  length := 0x00 :: be16 (helloBody host).length
  legacy_version := [0x03, 0x03]
  random := List.replicate 32 0xab
  session_id := []
  cipher_suites := [0x13, 0x01]
  compression_methods := [0x00]
  total := (helloExtensions host).length % 65536
  rest := helloExtensions host
  length_size := rfl
  version_size := rfl
  random_size := List.length_replicate
  session_fits := by simp
  suites_fit := by simp
  methods_fit := by simp
  total_fits := Nat.mod_lt _ (by omega)

theorem handshake_eq_encode (hfits : (helloExtensions host).length < 65536) :
    handshake host = (helloFields host).encode := by
  simp [handshake, helloBody, helloFields, Hello.encode, vec16, vec8, Nat.mod_eq_of_lt hfits,
    List.append_assoc]

theorem block_helloFields (hfits : (helloExtensions host).length < 65536) :
    (helloFields host).block = helloExtensions host := by
  simp [Hello.block, helloFields, Nat.mod_eq_of_lt hfits]

/-- The server_name extension names the host. -/
theorem extensionsName (hne : host ≠ []) (hfits : host.length ≤ 65483) :
    ExtensionsName (helloExtensions host) host := by
  have hentry : (vec16 ([0x00] ++ vec16 host)).length < 65536 := by
    simp
    omega
  refine ⟨[], ⟨[0, 0], vec16 ([0x00] ++ vec16 host), rfl, hentry⟩, [], ?_, by simp, rfl, ?_⟩
  · simp [helloExtensions, hne, Item.encode, vec16, be16]
  · refine ⟨([0x00] ++ vec16 host).length, [0x00] ++ vec16 host, by simp; omega, rfl, [],
      ⟨[0], host, rfl, by omega⟩, [], ?_, by simp, rfl, rfl⟩
    simp [Item.encode, vec16]

theorem parseClientHello_handshake (hfits : host.length ≤ 65483) :
    parseClientHello (handshake host) = namedHost host := by
  have hext : (helloExtensions host).length < 65536 := by
    by_cases hne : host = []
    · simp [helloExtensions, hne]
    · rw [helloExtensions_length hne]
      omega
  rw [handshake_eq_encode hext, parseClientHello_encode, block_helloFields hext]
  unfold namedHost
  by_cases hne : host = []
  · rw [if_pos hne]
    have hnone : helloExtensions host = [] := by simp [helloExtensions, hne]
    have hend : Item.decode ([0, 0] : Bytes).length [] = none := by
      rw [Item.decode_eq_none_iff]
      simp
    rw [hnone, blockHost, Item.find_of_decode_none hend]
  · rw [if_neg hne]
    exact blockHost_eq_found_iff.mpr (extensionsName hne hfits)

/-! ## The stream -/

/-- What every cut of the message into records gives. -/
theorem read_back (hfits : host.length ≤ 65483) {rs : List Record}
    (hrs : Record.payloads rs = handshake host) :
    (∀ t, extractHostname (Record.encodeAll rs ++ t) = namedHost host) ∧
    ∀ x, x <+: Record.encodeAll rs → x ≠ Record.encodeAll rs → extractHostname x = .NeedMore := by
  have hm : IsClientHello (Record.payloads rs) := by
    rw [hrs]
    exact isClientHello_handshake hfits
  refine ⟨fun t => ?_, fun x hx hne => extractHostname_needMore hm hx hne⟩
  rw [extractHostname_of_framing hm (List.prefix_append _ t), hrs, parseClientHello_handshake hfits]

/-- The one record of `client_hello`. -/
theorem client_hello_eq (hfits : host.length ≤ 16328) :
    ∃ r : Record, r.payload = handshake host ∧ client_hello host = Record.encodeAll [r] := by
  have hlen := handshake_length host
  have hle := helloBody_length_le host
  refine ⟨⟨0x01, handshake host, by omega, by omega⟩, rfl, ?_⟩
  simp [client_hello, Record.encode, handshake, vec16]

/-- A hello that the test builder makes is read back: the stream gives its
host once it is all there, whatever follows, and asks for more on every part
of it. Any other cut of its message into records does the same. -/
theorem a_built_hello_is_read_back (hfits : host.length ≤ 16328) :
    (∀ t, extractHostname (client_hello host ++ t) = namedHost host) ∧
    (∀ x, x <+: client_hello host → x ≠ client_hello host → extractHostname x = .NeedMore) ∧
    ∀ rs : List Record, Record.payloads rs = handshake host →
      (∀ t, extractHostname (Record.encodeAll rs ++ t) = namedHost host) ∧
      ∀ x, x <+: Record.encodeAll rs → x ≠ Record.encodeAll rs → extractHostname x = .NeedMore := by
  obtain ⟨r, hr, he⟩ := client_hello_eq hfits
  have hone := @read_back host (by omega) [r] (by simpa using hr)
  rw [he]
  exact ⟨hone.1, hone.2, fun rs hrs => read_back (by omega) hrs⟩

/-- The hello of `e.x`, with the start of a record behind it. -/
theorem a_hello_of_e_x_is_read_back :
    extractHostname (client_hello [0x65, 0x2e, 0x78] ++ [0x16, 0x03]) = .Found [0x65, 0x2e, 0x78] ∧
    extractHostname ((client_hello [0x65, 0x2e, 0x78]).take 60) = .NeedMore := by
  obtain ⟨hwhole, hpart, -⟩ := @a_built_hello_is_read_back [0x65, 0x2e, 0x78] (by decide)
  exact ⟨hwhole _, hpart _ (List.take_prefix _ _) (by decide)⟩

end packet_inspector.traffic
