-- What a blocklist blocks: the names that its file lists. The walk of
-- `isHostnameBlocked` over the parent domains is read against the lines of
-- the file, through the two sets that the constructor fills.
import PacketInspector.Policy

open wire

namespace packet_inspector.BlockList

/-! ## The entries of a file -/

/-- The mark of a wildcard entry, `*.`. -/
def wildcardMark : Bytes := [0x2a, 0x2e]

/-- A stripped line that is neither blank nor a comment. -/
def IsEntry (e : Bytes) : Prop := e ≠ [] ∧ e.head? ≠ some 0x23

/-- The entry is a wildcard over the suffix `suffix`. -/
def IsWildcard (e suffix : Bytes) : Prop := suffix ≠ [] ∧ e = wildcardMark ++ suffix

/-- The name `h` lies below the domain `suffix`. -/
def Below (suffix h : Bytes) : Prop := ∃ p, h = p ++ [0x2e] ++ suffix

/-- The stripped line `e` names the hostname `h`. -/
def Names (e h : Bytes) : Prop :=
  IsEntry e ∧ ((∃ suffix, IsWildcard e suffix ∧ Below suffix h) ∨ ((¬ ∃ suffix, IsWildcard e suffix) ∧ h = e))

theorem wildcard_test_iff {e : Bytes} :
    (e.length > 2 ∧ e.take 2 = [0x2a, 0x2e]) ↔ IsWildcard e (e.drop 2) := by
  constructor
  · rintro ⟨hlen, htake⟩
    refine ⟨?_, ?_⟩
    · intro hnil
      have hzero := congrArg List.length hnil
      simp only [List.length_drop, List.length_nil] at hzero
      omega
    · rw [wildcardMark, ← htake, List.take_append_drop]
  · rintro ⟨hne, he⟩
    have hpos := List.length_pos_iff.mpr hne
    rw [List.length_drop] at hpos
    refine ⟨by omega, ?_⟩
    rw [he]
    rfl

theorem isWildcard_iff {e suffix : Bytes} :
    IsWildcard e suffix ↔ IsWildcard e (e.drop 2) ∧ suffix = e.drop 2 := by
  constructor
  · rintro ⟨hne, rfl⟩
    exact ⟨⟨hne, rfl⟩, rfl⟩
  · rintro ⟨h, rfl⟩
    exact h

/-- What a line adds to the names and to the suffixes. -/
theorem mem_addLine (b : BlockList) (line : Bytes) (x : Bytes) :
    (x ∈ (b.addLine line).exact ↔
      x ∈ b.exact ∨ (x = parse_line line ∧ IsEntry x ∧ ¬ ∃ suffix, IsWildcard x suffix)) ∧
    (x ∈ (b.addLine line).wildcard ↔
      x ∈ b.wildcard ∨ (IsEntry (parse_line line) ∧ IsWildcard (parse_line line) x)) := by
  unfold addLine
  simp only
  generalize parse_line line = e
  by_cases hskip : e = [] ∨ e.head? = some 0x23
  · have hnot : ¬ IsEntry e := by
      rintro ⟨hne, hhead⟩
      exact hskip.elim hne hhead
    rw [if_pos hskip]
    refine ⟨⟨.inl, fun h => h.elim id ?_⟩, ⟨.inl, fun h => h.elim id ?_⟩⟩
    · rintro ⟨rfl, he, -⟩
      exact absurd he hnot
    · exact fun h => absurd h.1 hnot
  · have hentry : IsEntry e := not_or.mp hskip
    rw [if_neg hskip]
    by_cases hwild : e.length > 2 ∧ e.take 2 = [0x2a, 0x2e]
    · have he := wildcard_test_iff.mp hwild
      rw [if_pos hwild]
      refine ⟨⟨.inl, fun h => h.elim id ?_⟩, ?_⟩
      · rintro ⟨rfl, -, hno⟩
        exact absurd ⟨_, he⟩ hno
      · rw [List.mem_cons, isWildcard_iff]
        refine ⟨fun h => h.elim (fun hx => .inr ⟨hentry, he, hx⟩) .inl, ?_⟩
        exact fun h => h.elim .inr (fun hx => .inl hx.2.2)
    · have hno : ¬ ∃ suffix, IsWildcard e suffix := by
        rintro ⟨suffix, h⟩
        exact hwild (wildcard_test_iff.mpr (isWildcard_iff.mp h).1)
      rw [if_neg hwild]
      refine ⟨?_, ⟨.inl, fun h => h.elim id (fun hx => absurd ⟨x, hx.2⟩ hno)⟩⟩
      rw [List.mem_cons]
      constructor
      · rintro (rfl | h)
        · exact .inr ⟨rfl, hentry, hno⟩
        · exact .inl h
      · rintro (h | ⟨rfl, -⟩)
        · exact .inr h
        · exact .inl rfl

/-- The names and the suffixes of a file, line by line. -/
theorem mem_load (content x : Bytes) :
    (x ∈ (load content).exact ↔ ∃ line ∈ content.splitOn 0x0a,
      x = parse_line line ∧ IsEntry x ∧ ¬ ∃ suffix, IsWildcard x suffix) ∧
    (x ∈ (load content).wildcard ↔ ∃ line ∈ content.splitOn 0x0a,
      IsEntry (parse_line line) ∧ IsWildcard (parse_line line) x) := by
  unfold load
  induction content.splitOn 0x0a using List.reverseRecOn with
  | nil => simp
  | append_singleton lines line ih =>
    obtain ⟨hexact, hwild⟩ := mem_addLine (lines.foldl addLine {}) line x
    rw [List.foldl_append]
    simp only [List.foldl_cons, List.foldl_nil, hexact, hwild, ih.1, ih.2, List.mem_append,
      List.mem_singleton]
    refine ⟨⟨?_, ?_⟩, ⟨?_, ?_⟩⟩
    · rintro (⟨l, hl, h⟩ | h)
      · exact ⟨l, .inl hl, h⟩
      · exact ⟨line, .inr rfl, h⟩
    · rintro ⟨l, hl | rfl, h⟩
      · exact .inl ⟨l, hl, h⟩
      · exact .inr h
    · rintro (⟨l, hl, h⟩ | h)
      · exact ⟨l, .inl hl, h⟩
      · exact ⟨line, .inr rfl, h⟩
    · rintro ⟨l, hl | rfl, h⟩
      · exact .inl ⟨l, hl, h⟩
      · exact .inr h

/-! ## The walk over the parent domains -/

theorem below_cons_iff {suffix : Bytes} (c : UInt8) (rest : Bytes) :
    Below suffix (c :: rest) ↔ (c = 0x2e ∧ rest = suffix) ∨ Below suffix rest := by
  constructor
  · rintro ⟨p, hp⟩
    cases p with
    | nil =>
      simp only [List.nil_append, List.cons_append, List.cons.injEq] at hp
      exact .inl hp
    | cons d p =>
      simp only [List.cons_append, List.cons.injEq] at hp
      exact .inr ⟨p, hp.2⟩
  · rintro (⟨rfl, rfl⟩ | ⟨p, rfl⟩)
    · exact ⟨[], rfl⟩
    · exact ⟨c :: p, rfl⟩

/-- The walk finds a suffix that the name lies below. The suffix after a last
dot is empty, and ends the walk with nothing left to visit. -/
theorem parentBlocked_iff (wildcard : List Bytes) (h : Bytes) :
    parentBlocked wildcard h = true ↔ ∃ suffix ∈ wildcard, suffix ≠ [] ∧ Below suffix h := by
  induction h with
  | nil =>
    simp only [parentBlocked, Bool.false_eq_true, false_iff]
    rintro ⟨suffix, -, -, p, hp⟩
    simp at hp
  | cons c rest ih =>
    simp only [parentBlocked, below_cons_iff]
    by_cases hc : c = 0x2e
    · rw [if_pos hc]
      by_cases hrest : rest = []
      · rw [if_pos hrest]
        simp only [Bool.false_eq_true, false_iff]
        rintro ⟨suffix, hm, hne, ⟨-, rfl⟩ | ⟨p, hp⟩⟩
        · exact hne hrest
        · rw [hrest] at hp
          simp at hp
      · rw [if_neg hrest]
        by_cases hmem : rest ∈ wildcard
        · rw [if_pos hmem]
          exact iff_of_true rfl ⟨rest, hmem, hrest, .inl ⟨hc, rfl⟩⟩
        · rw [if_neg hmem, ih]
          refine ⟨fun ⟨suffix, hm, hne, hb⟩ => ⟨suffix, hm, hne, .inr hb⟩, ?_⟩
          rintro ⟨suffix, hm, hne, ⟨-, rfl⟩ | hb⟩
          · exact absurd hm hmem
          · exact ⟨suffix, hm, hne, hb⟩
    · rw [if_neg hc, ih]
      refine ⟨fun ⟨suffix, hm, hne, hb⟩ => ⟨suffix, hm, hne, .inr hb⟩, ?_⟩
      rintro ⟨suffix, hm, hne, ⟨hdot, -⟩ | hb⟩
      · exact absurd hdot hc
      · exact ⟨suffix, hm, hne, hb⟩

/-- A name is blocked by the line of the file that names it. -/
theorem isHostnameBlocked_iff (content h : Bytes) :
    (load content).isHostnameBlocked h = true ↔
      ∃ line ∈ content.splitOn 0x0a, Names (parse_line line) h := by
  unfold isHostnameBlocked
  by_cases hexact : h ∈ (load content).exact
  · rw [if_pos hexact]
    obtain ⟨line, hline, rfl, hentry, hno⟩ := (mem_load content h).1.mp hexact
    exact iff_of_true rfl ⟨line, hline, hentry, .inr ⟨hno, rfl⟩⟩
  · rw [if_neg hexact, parentBlocked_iff]
    constructor
    · rintro ⟨suffix, hm, -, hb⟩
      obtain ⟨line, hline, hentry, hwild⟩ := (mem_load content suffix).2.mp hm
      exact ⟨line, hline, hentry, .inl ⟨suffix, hwild, hb⟩⟩
    · rintro ⟨line, hline, hentry, ⟨suffix, hwild, hb⟩ | ⟨hno, rfl⟩⟩
      · exact ⟨suffix, (mem_load content suffix).2.mpr ⟨line, hline, hentry, hwild⟩, hwild.1, hb⟩
      · exact absurd ((mem_load content _).1.mpr ⟨line, hline, rfl, hentry, hno⟩) hexact

/-! ## The labels of a name -/

theorem intercalate_append {sep : Bytes} {q r : List Bytes} (hq : q ≠ []) (hr : r ≠ []) :
    sep.intercalate (q ++ r) = sep.intercalate q ++ sep ++ sep.intercalate r := by
  obtain ⟨x, xs, rfl⟩ := List.exists_cons_of_ne_nil hr
  induction q with
  | nil => exact absurd rfl hq
  | cons l q ih =>
    cases q with
    | nil => simp [List.intercalate_cons_cons]
    | cons l' q =>
      have hrest := ih (List.cons_ne_nil l' q)
      rw [List.cons_append] at hrest
      rw [List.cons_append, List.cons_append, List.intercalate_cons_cons, hrest,
        List.intercalate_cons_cons]
      simp only [List.append_assoc]

/-- A name lies below a domain when the labels of the domain are its last
labels, and it has more of them. -/
theorem below_iff_labels (suffix h : Bytes) :
    Below suffix h ↔ ∃ q, q ≠ [] ∧ h.splitOn 0x2e = q ++ suffix.splitOn 0x2e := by
  constructor
  · rintro ⟨p, rfl⟩
    refine ⟨p.splitOn 0x2e, List.splitOn_ne_nil _ _, ?_⟩
    rw [List.append_assoc]
    exact List.splitOn_append_cons_self p suffix
  · rintro ⟨q, hq, he⟩
    refine ⟨[0x2e].intercalate q, ?_⟩
    calc h = [0x2e].intercalate (h.splitOn 0x2e) := (List.intercalate_splitOn 0x2e).symm
      _ = [0x2e].intercalate q ++ [0x2e] ++ [0x2e].intercalate (suffix.splitOn 0x2e) := by
        rw [he, intercalate_append hq (List.splitOn_ne_nil _ _)]
      _ = [0x2e].intercalate q ++ [0x2e] ++ suffix := by rw [List.intercalate_splitOn]

theorem not_below_self (suffix : Bytes) : ¬ Below suffix suffix := by
  rintro ⟨p, hp⟩
  have hlen := congrArg List.length hp
  simp only [List.length_append, List.length_singleton] at hlen
  omega

/-- What a wildcard entry names. -/
theorem names_wildcard_iff {suffix : Bytes} (hne : suffix ≠ []) (h : Bytes) :
    Names (wildcardMark ++ suffix) h ↔ Below suffix h := by
  have hwild : IsWildcard (wildcardMark ++ suffix) suffix := ⟨hne, rfl⟩
  constructor
  · rintro ⟨-, ⟨suffix', ⟨-, he⟩, hb⟩ | ⟨hno, -⟩⟩
    · rw [List.append_cancel_left_eq] at he
      exact he ▸ hb
    · exact absurd ⟨suffix, hwild⟩ hno
  · intro hb
    exact ⟨⟨List.cons_ne_nil _ _, by simp [wildcardMark]⟩, .inl ⟨suffix, hwild, hb⟩⟩

/-! ## The law -/

/-- A blocklist blocks what its file names: the order of the lines and their
repetition do not matter, and a wildcard names what has its suffix as its
last labels, and more of them, so not the apex. -/
theorem a_blocklist_blocks_exactly_what_its_file_names (content h : Bytes) :
    ((load content).isHostnameBlocked h = true ↔
      ∃ line ∈ content.splitOn 0x0a, Names (parse_line line) h) ∧
    (∀ content' : Bytes,
      (∀ line, line ∈ content'.splitOn 0x0a ↔ line ∈ content.splitOn 0x0a) →
      (load content').isHostnameBlocked h = (load content).isHostnameBlocked h) ∧
    (∀ suffix : Bytes, suffix ≠ [] → ¬ Names (wildcardMark ++ suffix) suffix) ∧
    (∀ suffix : Bytes, suffix ≠ [] → (Names (wildcardMark ++ suffix) h ↔
      ∃ q, q ≠ [] ∧ h.splitOn 0x2e = q ++ suffix.splitOn 0x2e)) := by
  refine ⟨isHostnameBlocked_iff content h, ?_, ?_, ?_⟩
  · intro content' hlines
    rw [Bool.eq_iff_iff, isHostnameBlocked_iff, isHostnameBlocked_iff]
    simp only [hlines]
  · intro suffix hne hnames
    exact not_below_self suffix ((names_wildcard_iff hne suffix).mp hnames)
  · intro suffix hne
    exact (names_wildcard_iff hne h).trans (below_iff_labels suffix h)

end packet_inspector.BlockList
