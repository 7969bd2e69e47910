-- Resolution does not depend on how the stream is chunked: a waiting flow
-- is resolved once, on the chunk that brings the byte which decides it, and
-- with the answer that the whole stream has.
import PacketInspector.Evidence
import PacketInspector.Traffic

open wire packet_inspector.tls runs

namespace packet_inspector.TcpTlsHostnameExtractor

variable {R P : Type} {w : World R P} {s : TcpTlsHostnameExtractor R P} {k : UInt32} {c : Conn}

/-! ## Chunks -/

/-- Chunks of client bytes, each with the reassembler's key, delivered in
order. -/
def onMessagesReady (w : World R P) (s : TcpTlsHostnameExtractor R P)
    (chunks : List (UInt32 × Bytes)) : TcpTlsHostnameExtractor R P :=
  chunks.foldl (fun s m => s.onMessageReady w kClientSide m.1 m.2) s

/-- The bytes that the chunks cut up. -/
def bytesIn (chunks : List (UInt32 × Bytes)) : Bytes := chunks.flatMap Prod.snd

/-- The hostname that a flow is resolved with. -/
def answerOf : HostnameResult → Option Bytes
  | .Found h => some h
  | _ => none

/-- The first `n` bytes of the stream decide it, and no fewer do. -/
structure DecidedAt (stream : Bytes) (n : Nat) : Prop where
  le_length : n ≤ stream.length
  answered : extractHostname (stream.take n) ≠ .NeedMore
  least : ∀ m, m < n → extractHostname (stream.take m) = .NeedMore

theorem bytesIn_append (xs ys : List (UInt32 × Bytes)) :
    bytesIn (xs ++ ys) = bytesIn xs ++ bytesIn ys := by
  simp [bytesIn]

theorem bytesIn_cons (m : UInt32 × Bytes) (ms : List (UInt32 × Bytes)) :
    bytesIn (m :: ms) = m.2 ++ bytesIn ms := rfl

theorem onMessagesReady_append (xs ys : List (UInt32 × Bytes)) :
    onMessagesReady w s (xs ++ ys) = onMessagesReady w (onMessagesReady w s xs) ys := by
  simp [onMessagesReady]

section Answers

variable {stream x : Bytes} {n : Nat}

/-- A part of the stream that does not reach byte `n` is not answered. -/
theorem DecidedAt.needMore (h : DecidedAt stream n) (hx : x <+: stream) (hlt : x.length < n) :
    extractHostname x = .NeedMore := by
  rw [List.prefix_iff_eq_take.mp hx]
  exact h.least x.length hlt

/-- A part that does has the answer of the whole stream. -/
theorem DecidedAt.answer (h : DecidedAt stream n) (hx : x <+: stream) (hle : n ≤ x.length) :
    extractHostname x = extractHostname stream ∧ extractHostname x ≠ .NeedMore := by
  have hpart : ∀ y, y <+: stream → n ≤ y.length →
      extractHostname y = extractHostname (stream.take n) := by
    intro y hy hn
    have htake : y.take n = stream.take n := by
      obtain ⟨t, rfl⟩ := hy
      rw [List.take_append_of_le_length hn]
    have hy' : y = stream.take n ++ y.drop n := by
      rw [← htake, List.take_append_drop]
    rw [hy']
    exact extractHostname_append _ h.answered
  rw [hpart x hx hle, hpart stream (List.prefix_refl _) h.le_length]
  exact ⟨rfl, h.answered⟩

theorem DecidedAt.pos (h : DecidedAt stream n) : 0 < n := by
  rcases Nat.eq_zero_or_pos n with h0 | h0
  · subst h0
    exact absurd rfl h.answered
  · exact h0

end Answers

/-! ## One chunk -/

theorem onMessageReady_wait (tok : UInt32) (data : Bytes) (hin : s.inside = (true, k))
    (hl : s.conns.find k = some c) (hc : c.state = .Wait) :
    s.onMessageReady w kClientSide tok data =
      (s.put k { c with pcpp_key := tok, stream := c.stream ++ data }).checkStream w k
        (c.stream ++ data) := by
  have hfeed : s.feeding = true := congrArg Prod.fst hin
  have hkey : s.current_key = k := congrArg Prod.snd hin
  simp [onMessageReady, hfeed, hkey, hl, hc]

/-- A flow that does not wait ignores what comes. -/
theorem onMessageReady_settled (tok : UInt32) (data : Bytes) (hkey : s.current_key = k)
    (h : ∀ c, s.conns.find k = some c → c.state = .Block) :
    s.onMessageReady w kClientSide tok data = s := by
  unfold onMessageReady
  split
  · rfl
  · rw [if_neg (by simp), hkey]
    cases hl : s.conns.find k with
    | none => rfl
    | some c =>
      simp only
      rw [if_pos (by rw [h c hl]; decide)]

theorem checkStream_answer {stream : Bytes} (h : extractHostname stream ≠ .NeedMore) :
    s.checkStream w k stream = s.resolve w k (answerOf (extractHostname stream)) := by
  unfold checkStream
  cases he : extractHostname stream with
  | Found host => rfl
  | NotFound => rfl
  | NeedMore => exact absurd he h

theorem checkStream_needMore {stream : Bytes} (h : extractHostname stream = .NeedMore)
    (hlen : stream.length ≤ kMaxStreamBytes) : s.checkStream w k stream = s := by
  unfold checkStream
  simp only [h]
  rw [if_neg (by omega)]

/-- A flow that waits after a look at its stream has no answer, and room. -/
theorem checkStream_find_wait {stream : Bytes} {c' : Conn}
    (h : (s.checkStream w k stream).conns.find k = some c') (hc : c'.state = .Wait) :
    s.checkStream w k stream = s ∧ extractHostname stream = .NeedMore ∧
      stream.length ≤ kMaxStreamBytes := by
  have hno : ∀ hostname, (s.resolve w k hostname).conns.find k ≠ some c' := by
    intro hostname hr
    exact (resolve_find_wait hr hc).1 rfl
  unfold checkStream at h ⊢
  cases he : extractHostname stream with
  | Found host =>
    simp only [he] at h
    exact absurd h (hno _)
  | NotFound =>
    simp only [he] at h
    exact absurd h (hno _)
  | NeedMore =>
    simp only [he] at h ⊢
    split at h
    · exact absurd h (hno _)
    · rename_i hlen
      rw [if_neg hlen]
      exact ⟨rfl, trivial, by omega⟩

/-! ## Many chunks -/

/-- The flow `k` still waits: its entry has the bytes that came, and nothing
else of the state that a verdict depends on has changed. -/
structure StillWaits (k : UInt32) (s x : TcpTlsHostnameExtractor R P) (c : Conn)
    (stream : Bytes) : Prop where
  inside : x.inside = (true, k)
  entry : ∃ tok, x.conns.find k = some { c with pcpp_key := tok, stream := stream }
  trace : x.trace = s.trace
  decided : x.decided = s.decided
  policy : x.policy = s.policy

theorem stillWaits_pre (hin : s.inside = (true, k)) (hl : s.conns.find k = some c)
    (hc : c.state = .Wait) (hempty : c.stream = []) {stream : Bytes} {n : Nat}
    (hn : DecidedAt stream n) (hle : n ≤ kMaxStreamBytes) (pre : List (UInt32 × Bytes))
    (hpre : bytesIn pre <+: stream) (hlt : (bytesIn pre).length < n) :
    StillWaits k s (onMessagesReady w s pre) c (bytesIn pre) := by
  induction pre using List.reverseRecOn with
  | nil =>
    have hsame : ({ c with pcpp_key := c.pcpp_key, stream := bytesIn [] } : Conn) = c := by
      cases c
      simp only at hempty
      subst hempty
      rfl
    exact ⟨hin, ⟨c.pcpp_key, hsame.symm ▸ hl⟩, rfl, rfl, rfl⟩
  | append_singleton pre m ih =>
    have hcut : bytesIn (pre ++ [m]) = bytesIn pre ++ m.2 := by simp [bytesIn]
    rw [hcut] at hpre hlt ⊢
    rw [List.length_append] at hlt
    have hbefore := ih ((List.prefix_append _ _).trans hpre) (by omega)
    obtain ⟨tok, hentry⟩ := hbefore.entry
    have hmore := hn.needMore hpre (by rw [List.length_append]; omega)
    rw [onMessagesReady_append]
    change StillWaits k s ((onMessagesReady w s pre).onMessageReady w kClientSide m.1 m.2) c _
    rw [onMessageReady_wait m.1 m.2 hbefore.inside hentry hc,
      checkStream_needMore hmore (by rw [List.length_append]; omega)]
    exact ⟨hbefore.inside, ⟨m.1, AList.find_insert_self _ _ _⟩, hbefore.trace, hbefore.decided,
      hbefore.policy⟩

/-- Once the flow does not wait any more, the other chunks are ignored. -/
theorem onMessagesReady_settled (hkey : s.current_key = k)
    (h : ∀ c, s.conns.find k = some c → c.state = .Block) (post : List (UInt32 × Bytes)) :
    onMessagesReady w s post = s := by
  induction post with
  | nil => rfl
  | cons m post ih =>
    change onMessagesReady w (s.onMessageReady w kClientSide m.1 m.2) post = s
    rw [onMessageReady_settled m.1 m.2 hkey h]
    exact ih

/-- The chunk that reaches byte `n`. -/
theorem exists_reaching {n : Nat} (hpos : 0 < n) (chunks : List (UInt32 × Bytes))
    (hle : n ≤ (bytesIn chunks).length) :
    ∃ pre m post, chunks = pre ++ m :: post ∧ (bytesIn pre).length < n ∧
      n ≤ (bytesIn pre ++ m.2).length := by
  induction chunks using List.reverseRecOn with
  | nil => simp [bytesIn] at hle; omega
  | append_singleton pre m ih =>
    by_cases hn : n ≤ (bytesIn pre).length
    · obtain ⟨pre', m', post, rfl, hlt, hreach⟩ := ih hn
      exact ⟨pre', m', post ++ [m], by simp, hlt, hreach⟩
    · have hcut : bytesIn (pre ++ [m]) = bytesIn pre ++ m.2 := by simp [bytesIn]
      rw [hcut] at hle
      exact ⟨pre, m, [], rfl, by omega, hle⟩

theorem onMessageReady_inside (side : Int) (tok : UInt32) (data : Bytes) :
    (s.onMessageReady w side tok data).inside = s.inside := by
  unfold onMessageReady
  split
  · rfl
  · split
    · rfl
    · split
      · rfl
      · split
        · rfl
        · exact checkStream_inside _ _ _

theorem onMessagesReady_inside (chunks : List (UInt32 × Bytes)) :
    (onMessagesReady w s chunks).inside = s.inside :=
  foldl_keeps (I := fun x => x.inside = s.inside)
    (fun _ m hx => (onMessageReady_inside kClientSide m.1 m.2).trans hx) chunks s rfl

/-- A flow that waits at the end has every chunk in its stream, and no answer
in it. -/
theorem waits_to_the_end (hin : s.inside = (true, k)) (hl : s.conns.find k = some c)
    (hempty : c.stream = []) (chunks : List (UInt32 × Bytes)) {c' : Conn}
    (h : (onMessagesReady w s chunks).conns.find k = some c') (hc : c'.state = .Wait) :
    c'.stream = bytesIn chunks ∧ extractHostname (bytesIn chunks) = .NeedMore ∧
      (bytesIn chunks).length ≤ kMaxStreamBytes := by
  induction chunks using List.reverseRecOn generalizing c' with
  | nil =>
    change s.conns.find k = some c' at h
    rw [hl] at h
    cases h
    exact ⟨hempty, rfl, Nat.zero_le _⟩
  | append_singleton pre m ih =>
    have hcut : bytesIn (pre ++ [m]) = bytesIn pre ++ m.2 := by simp [bytesIn]
    have hin' := (onMessagesReady_inside (w := w) pre).trans hin
    have hkey : (onMessagesReady w s pre).current_key = k := congrArg Prod.snd hin'
    rw [onMessagesReady_append] at h
    change ((onMessagesReady w s pre).onMessageReady w kClientSide m.1 m.2).conns.find k =
      some c' at h
    generalize onMessagesReady w s pre = x at h ih hin' hkey
    -- the flow waited before the last chunk: else it would have ignored it
    have hwaited : ∃ c0, x.conns.find k = some c0 ∧ c0.state = .Wait := by
      by_contra hno
      have hblock : ∀ c0, x.conns.find k = some c0 → c0.state = .Block := by
        intro c0 hl0
        cases hst : c0.state with
        | Block => rfl
        | Wait => exact absurd ⟨c0, hl0, hst⟩ hno
      rw [onMessageReady_settled m.1 m.2 hkey hblock] at h
      rw [hblock c' h] at hc
      cases hc
    obtain ⟨c0, hl0, hc0⟩ := hwaited
    obtain ⟨hstream, -, -⟩ := ih hl0 hc0
    rw [onMessageReady_wait m.1 m.2 hin' hl0 hc0, hstream] at h
    obtain ⟨hsame, hmore, hlen⟩ := checkStream_find_wait h hc
    rw [hsame, put_conns, AList.find_insert_self, Option.some.injEq] at h
    rw [hcut, ← h]
    exact ⟨rfl, hmore, hlen⟩

/-! ## The law -/

/-- The event is a question about the flow `k`. -/
def asks (k : UInt32) : Event → Bool
  | .asked key _ _ => key = k
  | _ => false

/-- A flow that waits is asked about once when it is resolved. -/
theorem resolve_asks (hostname : Option Bytes) (hl : s.conns.find k = some c)
    (hc : c.state = .Wait) :
    ∃ es, (s.resolve w k hostname).trace = s.trace ++ es ∧
      es.filter (asks k) = [.asked k hostname (w.decide s.policy hostname).1] := by
  obtain ⟨es, he, hes⟩ := resolve_trace_of_wait (w := w) hostname hl hc
  refine ⟨_, he, ?_⟩
  have hnil : es.filter (asks k) = [] := by
    rw [List.filter_eq_nil_iff]
    intro e hm
    obtain ⟨k', rfl⟩ := hes e hm
    simp [asks]
  rw [List.filter_cons_of_pos (by simp [asks]), hnil]

/-- Resolution does not depend on the chunks. When the first `n` bytes of the
stream decide it, and fit into the buffer, the flow waits until the chunk that
reaches byte `n`; on that chunk it is resolved, once, with the answer of the
whole stream, and the other chunks are ignored. A flow that still waits at the
end has no answer in the whole stream, which fits into the buffer. -/
theorem resolution_does_not_depend_on_chunks (w : World R P) (s : TcpTlsHostnameExtractor R P)
    (k : UInt32) (c : Conn) (hin : s.inside = (true, k)) (hl : s.conns.find k = some c)
    (hc : c.state = .Wait) (hempty : c.stream = []) (chunks : List (UInt32 × Bytes)) :
    let answer := answerOf (extractHostname (bytesIn chunks))
    let t := onMessagesReady w s chunks
    (∀ n, DecidedAt (bytesIn chunks) n → n ≤ kMaxStreamBytes →
      ∃ pre m post, chunks = pre ++ m :: post ∧
        (bytesIn pre).length < n ∧ n ≤ (bytesIn pre ++ m.2).length ∧
        StillWaits k s (onMessagesReady w s pre) c (bytesIn pre) ∧
        t = ((onMessagesReady w s pre).put k
          { c with pcpp_key := m.1, stream := bytesIn pre ++ m.2 }).resolve w k answer ∧
        ∃ es, t.trace = s.trace ++ es ∧
          es.filter (asks k) = [.asked k answer (w.decide s.policy answer).1]) ∧
    (∀ c', t.conns.find k = some c' → c'.state = .Wait →
      extractHostname (bytesIn chunks) = .NeedMore ∧
      (bytesIn chunks).length ≤ kMaxStreamBytes) := by
  intro answer t
  refine ⟨?_, ?_⟩
  · intro n hn hle
    obtain ⟨pre, m, post, rfl, hlt, hreach⟩ := exists_reaching hn.pos chunks hn.le_length
    have hcut : bytesIn (pre ++ m :: post) = bytesIn pre ++ m.2 ++ bytesIn post := by
      rw [bytesIn_append, bytesIn_cons, List.append_assoc]
    have hpart : bytesIn pre ++ m.2 <+: bytesIn (pre ++ m :: post) := ⟨_, hcut.symm⟩
    have hwaits := stillWaits_pre (w := w) hin hl hc hempty hn hle pre
      ((List.prefix_append _ _).trans hpart) hlt
    obtain ⟨hsame, hanswered⟩ := hn.answer hpart hreach
    obtain ⟨tok, hentry⟩ := hwaits.entry
    have hone : (onMessagesReady w s pre).onMessageReady w kClientSide m.1 m.2 =
        ((onMessagesReady w s pre).put k
          { c with pcpp_key := m.1, stream := bytesIn pre ++ m.2 }).resolve w k answer := by
      rw [onMessageReady_wait m.1 m.2 hwaits.inside hentry hc, checkStream_answer hanswered, hsame]
    have hput : ((onMessagesReady w s pre).put k
        { c with pcpp_key := m.1, stream := bytesIn pre ++ m.2 }).conns.find k =
        some { c with pcpp_key := m.1, stream := bytesIn pre ++ m.2 } :=
      AList.find_insert_self _ _ _
    have hall : t = ((onMessagesReady w s pre).put k
        { c with pcpp_key := m.1, stream := bytesIn pre ++ m.2 }).resolve w k answer := by
      change onMessagesReady w s (pre ++ m :: post) = _
      rw [onMessagesReady_append]
      change onMessagesReady w ((onMessagesReady w s pre).onMessageReady w kClientSide m.1 m.2)
        post = _
      rw [hone]
      refine onMessagesReady_settled (k := k) ?_ ?_ post
      · have hin' := resolve_inside (w := w) ((onMessagesReady w s pre).put k
          { c with pcpp_key := m.1, stream := bytesIn pre ++ m.2 }) k answer
        exact congrArg Prod.snd (hin'.trans hwaits.inside)
      · intro c' hl'
        rw [resolve_find_self hput hc hl']
        rfl
    refine ⟨pre, m, post, rfl, hlt, hreach, hwaits, hall, ?_⟩
    obtain ⟨es, hes, hask⟩ := resolve_asks (w := w) answer hput hc
    refine ⟨es, ?_, ?_⟩
    · rw [hall, hes, put_trace, hwaits.trace]
    · rw [hask, put_policy, hwaits.policy]
  · intro c' hl' hc'
    obtain ⟨-, hmore, hlen⟩ := waits_to_the_end hin hl hempty chunks hl' hc'
    exact ⟨hmore, hlen⟩

open traffic in
/-- A hello in three chunks, of which the second one decides the flow. -/
theorem the_second_of_three_chunks_decides :
    let w := world { exact := [host] }
    let c : Conn := {}
    let s := { after 2 1 [] with
      conns := (∅ : Table).insert 7 c, feeding := true, current_key := 7 }
    let chunks := [(9, (client_hello host).take 20), (9, (client_hello host).drop 20), (9, [0x17])]
    (onMessagesReady w s (chunks.take 1)).trace = [] ∧
    ∃ es, (onMessagesReady w s chunks).trace = es ∧
      es.filter (asks 7) = [.asked 7 (some host) .BLOCK] := by
  intro w c s chunks
  have hn : DecidedAt (bytesIn chunks) 64 := by
    refine ⟨by decide +kernel, by decide +kernel, ?_⟩
    decide +kernel
  refine ⟨by decide +kernel, ?_⟩
  obtain ⟨pre, m, post, hcut, hlt, hreach, hwaits, -, es, hes, hask⟩ :=
    (resolution_does_not_depend_on_chunks w s 7 c rfl rfl rfl rfl chunks).1 64 hn
      (by decide)
  refine ⟨es, hes, hask.trans ?_⟩
  decide +kernel

end packet_inspector.TcpTlsHostnameExtractor
