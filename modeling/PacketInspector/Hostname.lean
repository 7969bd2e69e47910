-- `extractHostname`: strip the record layer, then parse the ClientHello
-- inside it. An answer on a prefix of the stream is the answer on the
-- whole stream, so a decision taken early is never contradicted.
import PacketInspector.ClientHello

open wire

namespace packet_inspector.tls

/-- Strip the record layer, then parse the ClientHello inside it. -/
def extractHostname (tls_data : Bytes) : HostnameResult :=
  match collectHandshake tls_data with
  | .Found hs => parseClientHello hs
  | r => r

theorem extractHostname_of_found {s m : Bytes} (h : collectHandshake s = .Found m) :
    extractHostname s = parseClientHello m := by
  unfold extractHostname
  rw [h]

theorem extractHostname_append {s : Bytes} (t : Bytes) (h : extractHostname s ≠ .NeedMore) :
    extractHostname (s ++ t) = extractHostname s := by
  cases hc : collectHandshake s with
  | Found m =>
    rw [extractHostname_of_found (collectHandshake_found_append t hc), extractHostname_of_found hc]
  | NotFound =>
    unfold extractHostname
    rw [collectHandshake_notFound_append t hc, hc]
  | NeedMore =>
    unfold extractHostname at h
    rw [hc] at h
    exact absurd rfl h

/-- A stream that starts with the framing of a ClientHello is answered from
that message. -/
theorem extractHostname_of_framing {rs : List Record} {x : Bytes}
    (hm : IsClientHello (Record.payloads rs)) (hx : Record.encodeAll rs <+: x) :
    extractHostname x = parseClientHello (Record.payloads rs) := by
  obtain ⟨t, rfl⟩ := hx
  exact extractHostname_of_found (collectHandshake_encodeAll t hm)

/-- A stream that is only a part of the framing is not. -/
theorem extractHostname_needMore {rs : List Record} {x : Bytes}
    (hm : IsClientHello (Record.payloads rs)) (hx : x <+: Record.encodeAll rs)
    (hne : x ≠ Record.encodeAll rs) : extractHostname x = .NeedMore := by
  unfold extractHostname
  rw [collectHandshake_needMore hm hx hne]

/-- A stream with a hostname starts as a TLS handshake record. -/
theorem opens_of_found {s h : Bytes} (hs : extractHostname s = .Found h) :
    2 ≤ s.length ∧ byteAt s 0 = 0x16 ∧ byteAt s 1 = 0x03 := by
  have hc : ∃ m, collectHandshake s = .Found m := by
    unfold extractHostname at hs
    cases hc : collectHandshake s with
    | Found m => exact ⟨m, rfl⟩
    | NotFound => rw [hc] at hs; cases hs
    | NeedMore => rw [hc] at hs; cases hs
  obtain ⟨m, hm⟩ := hc
  unfold collectHandshake at hm
  split at hm
  · cases hm
  · split at hm
    · cases hm
    · rename_i h0
      split at hm
      · cases hm
      · rename_i h1
        split at hm
        · cases hm
        · rename_i hlen
          refine ⟨by omega, not_not.mp h0, ?_⟩
          by_contra hne
          exact h1 ⟨by omega, hne⟩

/-- Answers are stable under more data. -/
theorem an_answer_is_stable_under_more_data (s t : Bytes) :
    (∀ h, extractHostname s = .Found h → extractHostname (s ++ t) = .Found h) ∧
    (extractHostname s = .NotFound → extractHostname (s ++ t) = .NotFound) := by
  refine ⟨fun h hs => ?_, fun hs => ?_⟩
  · rw [extractHostname_append t (by rw [hs]; simp), hs]
  · rw [extractHostname_append t (by rw [hs]; simp), hs]

end packet_inspector.tls
