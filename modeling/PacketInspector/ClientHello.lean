-- The SNI parser of `hostname_extractor.cpp`. `parseClientHello` walks a
-- ClientHello by offsets. The law is that it accepts exactly the messages
-- of a grammar over whole fields, and answers `NotFound` on all others.
import PacketInspector.Records

open wire

namespace packet_inspector.tls

/-! ## The code -/

/-- The walk over a ServerNameList: the first entry of type host_name. -/
def serverNames (p : Bytes) (q list_end : Nat) : HostnameResult :=
  if q + 3 ≤ list_end then
    let name_type := byteAt p q
    let name_len := rd16 p (q + 1)
    let q := q + 3
    if q + name_len > list_end then .NotFound
    else if name_type = 0x00 then .Found ((p.drop q).take name_len)
    else serverNames p (q + name_len) list_end
  else .NotFound
termination_by list_end - q

/-- The body of a server_name extension of `elen` bytes at `o`. -/
def serverNameList (p : Bytes) (o elen : Nat) : HostnameResult :=
  let q := o
  let list_end := o + elen
  if q + 2 > list_end then .NotFound
  else
    let named := q + 2 + rd16 p q
    let q := q + 2
    serverNames p q (if named < list_end then named else list_end)

/-- The walk over the extensions, up to the server_name extension. -/
def extensions (p : Bytes) (o ext_end : Nat) : HostnameResult :=
  if o + 4 ≤ ext_end then
    let etype := rd16 p o
    let elen := rd16 p (o + 2)
    let o := o + 4
    if o + elen > ext_end then .NotFound
    else if etype = 0x0000 then serverNameList p o elen
    else extensions p (o + elen) ext_end
  else .NotFound
termination_by ext_end - o

/-- Parse the SNI host_name out of a complete ClientHello message. -/
def parseClientHello (p : Bytes) : HostnameResult :=
  if p.length < 4 ∨ byteAt p 0 ≠ 0x01 then .NotFound
  else
    let body_end := p.length
    let o := 4
    -- legacy_version(2) + random(32) + session_id_len(1)
    if ¬ o + (2 + 32 + 1) ≤ body_end then .NotFound
    else
      let o := o + (2 + 32)
      let o := o + (1 + byteAt p o)
      -- cipher_suites
      if ¬ o + 2 ≤ body_end then .NotFound
      else
        let o := o + (2 + rd16 p o)
        -- compression_methods
        if ¬ o + 1 ≤ body_end then .NotFound
        else
          let o := o + (1 + byteAt p o)
          -- extensions
          if ¬ o + 2 ≤ body_end then .NotFound
          else
            let ext_end := o + 2 + rd16 p o
            let o := o + 2
            extensions p o (if ext_end > body_end then body_end else ext_end)

/-! ## The grammar -/

/-- The fields of a ClientHello up to its extensions. `total` is the
length that the extensions block claims, and `rest` is what follows it. -/
structure Hello where
  length : Bytes
  legacy_version : Bytes
  random : Bytes
  session_id : Bytes
  cipher_suites : Bytes
  compression_methods : Bytes
  total : Nat
  rest : Bytes
  length_size : length.length = 3
  version_size : legacy_version.length = 2
  random_size : random.length = 32
  session_fits : session_id.length < 256
  suites_fit : cipher_suites.length < 65536
  methods_fit : compression_methods.length < 256
  total_fits : total < 65536

namespace Hello

def encode (m : Hello) : Bytes :=
  [0x01] ++ m.length ++ m.legacy_version ++ m.random ++ vec8 m.session_id ++
    vec16 m.cipher_suites ++ vec8 m.compression_methods ++ be16 m.total ++ m.rest

/-- The extensions block: what is there of the claimed length. -/
def block (m : Hello) : Bytes := m.rest.take (min m.total m.rest.length)

end Hello

/-- A server_name body that names `h`: a list length, and in what is there
of that length entries of other types, then a host_name entry `h`. -/
def NamesHost (data h : Bytes) : Prop :=
  ∃ (n : Nat) (names : Bytes), n < 65536 ∧ data = be16 n ++ names ∧
    ∃ (es : List (Item 1)) (e : Item 1) (t : Bytes),
      names.take (min n names.length) = Item.encodeAll es ++ e.encode ++ t ∧
      (∀ e' ∈ es, e'.tag ≠ [0]) ∧ e.tag = [0] ∧ e.body = h

/-- Extensions of other types, then a server_name extension that names `h`. -/
def ExtensionsName (block h : Bytes) : Prop :=
  ∃ (es : List (Item 2)) (e : Item 2) (t : Bytes),
    block = Item.encodeAll es ++ e.encode ++ t ∧ (∀ e' ∈ es, e'.tag ≠ [0, 0]) ∧
    e.tag = [0, 0] ∧ NamesHost e.body h

/-- The messages that carry the host name `h`. -/
def CarriesHost (m h : Bytes) : Prop := ∃ f : Hello, m = f.encode ∧ ExtensionsName f.block h

/-! ## The two walks -/

/-- A walk that gives a body gives `Found`, and every other walk `NotFound`. -/
def answer : Option Bytes → HostnameResult
  | some h => .Found h
  | none => .NotFound

theorem take_one_eq_zero_iff {p : Bytes} {o : Nat} (h : o < p.length) :
    (p.drop o).take 1 = [0] ↔ byteAt p o = 0 := by
  rw [List.drop_eq_getElem_cons h, List.take_succ_cons, List.take_zero, byteAt,
    List.getD_eq_getElem _ _ h, List.cons.injEq, ← UInt8.toNat_inj]
  simp

theorem take_two_eq_zero_iff {p : Bytes} {o : Nat} (h : o + 2 ≤ p.length) :
    (p.drop o).take 2 = [0, 0] ↔ rd16 p o = 0 := by
  rw [take_two_eq_be16 (by simp; omega), rd16_drop, Nat.add_zero, be16_eq_zero_iff (rd16_lt p o)]

theorem serverNames_eq (p : Bytes) (q list_end : Nat) (he : list_end ≤ p.length) :
    serverNames p q list_end = answer (Item.find [0] ((p.take list_end).drop q)) := by
  have hstep := fun q => Item.find_window [0] (p := p) (o := q) he
  simp only [List.length_singleton, Nat.reduceAdd] at hstep
  fun_induction serverNames p q list_end with
  | case1 q hfit name_len q' hover =>
    rw [hstep, if_neg (by omega)]
    rfl
  | case2 q hfit name_type name_len q' hover htype =>
    rw [hstep, if_pos (by omega), if_pos ((take_one_eq_zero_iff (by omega)).mpr htype)]
    rfl
  | case3 q hfit name_type name_len q' hover htype ih =>
    rw [hstep, if_pos (by omega), if_neg (fun h => htype ((take_one_eq_zero_iff (by omega)).mp h))]
    exact ih
  | case4 q hfit =>
    rw [hstep, if_neg (by omega)]
    rfl

/-- The host that a server_name body names, read on the body alone. -/
def hostOf (data : Bytes) : HostnameResult :=
  if data.length < 2 then .NotFound
  else answer (Item.find [0] ((data.drop 2).take (rd16 data 0)))

theorem serverNameList_eq (p : Bytes) (o elen : Nat) (h : o + elen ≤ p.length) :
    serverNameList p o elen = hostOf ((p.drop o).take elen) := by
  have hlen : ((p.drop o).take elen).length = elen := by simp; omega
  unfold serverNameList hostOf
  simp only [hlen]
  by_cases h2 : elen < 2
  · rw [if_pos (by omega), if_pos h2]
  · have hrd : rd16 ((p.drop o).take elen) 0 = rd16 p o := by
      rw [rd16_take (by omega), rd16_drop, Nat.add_zero]
    rw [if_neg (by omega), if_neg h2, serverNames_eq _ _ _ (by split <;> omega), hrd,
      List.drop_take, List.drop_take, List.drop_drop, List.take_take]
    congr 4
    split <;> omega

theorem extensions_eq (p : Bytes) (o ext_end : Nat) (he : ext_end ≤ p.length) :
    extensions p o ext_end = match Item.find [0, 0] ((p.take ext_end).drop o) with
      | none => .NotFound
      | some data => hostOf data := by
  have hstep := fun o => Item.find_window [0, 0] (p := p) (o := o) he
  simp only [List.length_cons, List.length_nil, Nat.reduceAdd] at hstep
  fun_induction extensions p o ext_end with
  | case1 o hfit elen o' hover => rw [hstep, if_neg (by omega)]
  | case2 o hfit etype elen o' hover htype =>
    rw [hstep, if_pos (by omega), if_pos ((take_two_eq_zero_iff (by omega)).mpr htype)]
    exact serverNameList_eq p o' elen (by omega)
  | case3 o hfit etype elen o' hover htype ih =>
    rw [hstep, if_pos (by omega), if_neg (fun h => htype ((take_two_eq_zero_iff (by omega)).mp h))]
    exact ih
  | case4 o hfit => rw [hstep, if_neg (by omega)]

theorem answer_eq_found_iff {r : Option Bytes} {h : Bytes} : answer r = .Found h ↔ r = some h := by
  cases r <;> simp [answer]

theorem hostOf_eq_found_iff {data h : Bytes} : hostOf data = .Found h ↔ NamesHost data h := by
  unfold hostOf NamesHost
  constructor
  · intro hh
    split at hh
    · cases hh
    rename_i h2
    refine ⟨rd16 data 0, data.drop 2, rd16_lt _ _, ?_, ?_⟩
    · simpa using drop_eq_be16 (p := data) (a := 0) (by omega)
    · rw [← List.take_eq_take_min]
      exact Item.find_eq_some_iff.mp (answer_eq_found_iff.mp hh)
  · rintro ⟨n, names, hn, rfl, hes⟩
    rw [← List.take_eq_take_min] at hes
    rw [if_neg (by simp; omega), rd16_be16 names hn, show (be16 n ++ names).drop 2 = names from rfl]
    exact answer_eq_found_iff.mpr (Item.find_eq_some_iff.mpr hes)

theorem answer_ne_needMore (r : Option Bytes) : answer r ≠ .NeedMore := by
  cases r <;> simp [answer]

theorem hostOf_ne_needMore (data : Bytes) : hostOf data ≠ .NeedMore := by
  unfold hostOf
  split
  · simp
  · exact answer_ne_needMore _

/-- The host that an extensions block names, read on the block alone. -/
def blockHost (block : Bytes) : HostnameResult :=
  match Item.find [0, 0] block with
  | none => .NotFound
  | some data => hostOf data

theorem blockHost_eq_found_iff {block h : Bytes} :
    blockHost block = .Found h ↔ ExtensionsName block h := by
  unfold blockHost ExtensionsName
  constructor
  · intro hh
    split at hh
    · cases hh
    rename_i data hf
    obtain ⟨es, e, t, hb, hes, he, rfl⟩ := Item.find_eq_some_iff.mp hf
    exact ⟨es, e, t, hb, hes, he, hostOf_eq_found_iff.mp hh⟩
  · rintro ⟨es, e, t, hb, hes, he, hn⟩
    have hf : Item.find [0, 0] block = some e.body :=
      Item.find_eq_some_iff.mpr ⟨es, e, t, hb, hes, he, rfl⟩
    rw [hf]
    exact hostOf_eq_found_iff.mpr hn

theorem blockHost_ne_needMore (block : Bytes) : blockHost block ≠ .NeedMore := by
  unfold blockHost
  split
  · simp
  · exact hostOf_ne_needMore _

/-! ## The fields before the extensions -/

theorem extensions_block (p : Bytes) (o ext_end : Nat) (he : ext_end ≤ p.length) :
    extensions p o ext_end = blockHost ((p.drop o).take (ext_end - o)) := by
  rw [extensions_eq p o ext_end he, List.drop_take]
  rfl

theorem parseClientHello_encode (f : Hello) : parseClientHello f.encode = blockHost f.block := by
  have hlength := f.length_size
  have hversion := f.version_size
  have hrandom := f.random_size
  -- the tails of the message, one behind each field
  have h38 : f.encode.drop 38 = vec8 f.session_id ++ (vec16 f.cipher_suites ++
      (vec8 f.compression_methods ++ (be16 f.total ++ f.rest))) := by
    have : f.encode = ([0x01] ++ f.length ++ f.legacy_version ++ f.random) ++ (vec8 f.session_id ++
        (vec16 f.cipher_suites ++ (vec8 f.compression_methods ++ (be16 f.total ++ f.rest)))) := by
      simp [Hello.encode, List.append_assoc]
    rw [this]
    exact List.drop_left' (by simp; omega)
  have hsid : byteAt f.encode 38 = f.session_id.length := by
    have := byteAt_drop f.encode 38 0
    rw [h38, byteAt_vec8 _ f.session_fits] at this
    exact this.symm
  have h1 : f.encode.drop (38 + (1 + f.session_id.length)) = vec16 f.cipher_suites ++
      (vec8 f.compression_methods ++ (be16 f.total ++ f.rest)) := by
    rw [← List.drop_drop, h38]
    exact List.drop_left' (by simp)
  have hcs : rd16 f.encode (38 + (1 + f.session_id.length)) = f.cipher_suites.length := by
    have := rd16_drop f.encode (38 + (1 + f.session_id.length)) 0
    rw [h1, rd16_vec16 _ f.suites_fit] at this
    exact this.symm
  have h2 : f.encode.drop (38 + (1 + f.session_id.length) + (2 + f.cipher_suites.length)) =
      vec8 f.compression_methods ++ (be16 f.total ++ f.rest) := by
    rw [← List.drop_drop, h1]
    exact List.drop_left' (by simp)
  have hcomp : byteAt f.encode (38 + (1 + f.session_id.length) + (2 + f.cipher_suites.length)) =
      f.compression_methods.length := by
    have := byteAt_drop f.encode (38 + (1 + f.session_id.length) + (2 + f.cipher_suites.length)) 0
    rw [h2, byteAt_vec8 _ f.methods_fit] at this
    exact this.symm
  generalize ho3 : 38 + (1 + f.session_id.length) + (2 + f.cipher_suites.length) +
    (1 + f.compression_methods.length) = o3
  have h3 : f.encode.drop o3 = be16 f.total ++ f.rest := by
    rw [← ho3, ← List.drop_drop, h2]
    exact List.drop_left' (by simp)
  have htotal : rd16 f.encode o3 = f.total := by
    have := rd16_drop f.encode o3 0
    rw [h3, rd16_be16 _ f.total_fits] at this
    exact this.symm
  have hrest : f.encode.drop (o3 + 2) = f.rest := by
    rw [← List.drop_drop, h3]
    rfl
  have hlen : f.encode.length = o3 + 2 + f.rest.length := by
    have := congrArg List.length h3
    simp only [List.length_drop, List.length_append, be16_length] at this
    omega
  unfold parseClientHello
  rw [if_neg (by simp only [not_or, not_not]; exact ⟨by omega, rfl⟩), if_neg (by omega)]
  simp only [Nat.reduceAdd, hsid, hcs, hcomp, ho3, htotal]
  rw [if_neg (by omega), if_neg (by omega), if_neg (by omega),
    extensions_block _ _ _ (by split <;> omega), hrest, Hello.block]
  congr 2
  split <;> omega

/-- A message that is no encoded hello is turned down. -/
theorem encode_or_notFound (p : Bytes) :
    (∃ f : Hello, p = f.encode) ∨ parseClientHello p = .NotFound := by
  unfold parseClientHello
  by_cases h0 : p.length < 4 ∨ byteAt p 0 ≠ 0x01
  · exact Or.inr (if_pos h0)
  rw [if_neg h0]
  by_cases h39 : 4 + (2 + 32 + 1) ≤ p.length
  swap
  · exact Or.inr (if_pos h39)
  rw [if_neg (not_not.mpr h39)]
  simp only [Nat.reduceAdd] at h39 ⊢
  generalize ho1 : 38 + (1 + byteAt p 38) = o1
  by_cases hcs : o1 + 2 ≤ p.length
  swap
  · exact Or.inr (if_pos hcs)
  rw [if_neg (not_not.mpr hcs)]
  generalize ho2 : o1 + (2 + rd16 p o1) = o2
  by_cases hcm : o2 + 1 ≤ p.length
  swap
  · exact Or.inr (if_pos hcm)
  rw [if_neg (not_not.mpr hcm)]
  generalize ho3 : o2 + (1 + byteAt p o2) = o3
  by_cases hext : o3 + 2 ≤ p.length
  swap
  · exact Or.inr (if_pos hext)
  left
  have hsid8 := byteAt_lt p 38
  have hcs16 := rd16_lt p o1
  have hcm8 := byteAt_lt p o2
  have e0 : p = p.take 1 ++ p.drop 1 := (List.take_append_drop 1 p).symm
  have e1 := drop_eq_take_append p 1 3
  have e4 := drop_eq_take_append p 4 2
  have e6 := drop_eq_take_append p 6 32
  have e38 := drop_eq_vec8 (p := p) (a := 38) (by omega)
  have ecs := drop_eq_vec16 (p := p) (a := o1) (by omega)
  have ecm := drop_eq_vec8 (p := p) (a := o2) (by omega)
  have eext := drop_eq_be16 (p := p) (a := o3) hext
  rw [Nat.add_assoc, ho1] at e38
  rw [Nat.add_assoc, ho2] at ecs
  rw [Nat.add_assoc, ho3] at ecm
  simp only [Nat.reduceAdd] at e1 e4 e6
  have hone : p.take 1 = [0x01] := by
    have hp : 0 < p.length := by omega
    simp only [not_or, not_not] at h0
    have : p.getD 0 0 = 0x01 := UInt8.toNat_inj.mp h0.2
    rw [List.getD_eq_getElem _ _ hp] at this
    have hd := List.drop_eq_getElem_cons hp
    rw [List.drop_zero] at hd
    rw [hd, List.take_succ_cons, List.take_zero, this]
  refine ⟨⟨(p.drop 1).take 3, (p.drop 4).take 2, (p.drop 6).take 32,
    (p.drop (38 + 1)).take (byteAt p 38), (p.drop (o1 + 2)).take (rd16 p o1),
    (p.drop (o2 + 1)).take (byteAt p o2), rd16 p o3, p.drop (o3 + 2),
    by simp; omega, by simp; omega, by simp; omega, by simp; omega, by simp; omega,
    by simp; omega, rd16_lt p o3⟩, ?_⟩
  simp only [Hello.encode, List.append_assoc]
  rw [← eext, ← ecm, ← ecs, ← e38, ← e6, ← e4, ← e1, ← hone]
  exact e0

theorem parseClientHello_eq_found_iff {m h : Bytes} :
    parseClientHello m = .Found h ↔ CarriesHost m h := by
  constructor
  · intro hm
    rcases encode_or_notFound m with ⟨f, rfl⟩ | hn
    · rw [parseClientHello_encode] at hm
      exact ⟨f, rfl, blockHost_eq_found_iff.mp hm⟩
    · rw [hn] at hm
      cases hm
  · rintro ⟨f, rfl, hb⟩
    rw [parseClientHello_encode]
    exact blockHost_eq_found_iff.mpr hb

theorem parseClientHello_ne_needMore (m : Bytes) : parseClientHello m ≠ .NeedMore := by
  rcases encode_or_notFound m with ⟨f, rfl⟩ | hn
  · rw [parseClientHello_encode]
    exact blockHost_ne_needMore _
  · rw [hn]
    simp

/-! ## The law -/

/-- The parser accepts exactly its grammar, and answers `NotFound` on every
other message, never `NeedMore`. -/
theorem the_parser_accepts_exactly_its_grammar (m h : Bytes) :
    (parseClientHello m = .Found h ↔ CarriesHost m h) ∧
    ((∃ h', CarriesHost m h') ∨ parseClientHello m = .NotFound) := by
  refine ⟨parseClientHello_eq_found_iff, ?_⟩
  cases hm : parseClientHello m with
  | Found h' => exact Or.inl ⟨h', parseClientHello_eq_found_iff.mp hm⟩
  | NotFound => exact Or.inr rfl
  | NeedMore => exact absurd hm (parseClientHello_ne_needMore m)

end packet_inspector.tls
