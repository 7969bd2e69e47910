-- Blocklist files as lists of entries: what a file comes down to, the file
-- that says no more than that, and one file behind another.
import PacketInspector.BlockedNames

open wire

namespace packet_inspector.BlockList

/-! ## Entries and files -/

instance (e : Bytes) : Decidable (IsEntry e) := inferInstanceAs (Decidable (e ≠ [] ∧ e.head? ≠ some 0x23))

/-- The entries of a file, in its order. -/
def entries (content : Bytes) : List Bytes :=
  ((content.splitOn 0x0a).map parse_line).filter (fun e => IsEntry e)

/-- The file of some entries, one on each line. -/
def text (es : List Bytes) : Bytes := es.flatMap (fun e => e ++ [0x0a])

/-- An entry as the constructor keeps it: stripped, and not skipped. -/
def Kept (e : Bytes) : Prop := IsEntry e ∧ parse_line e = e

/-! ## White space -/

theorem parse_line_idem (line : Bytes) : parse_line (parse_line line) = parse_line line := by
  simp [parse_line, List.filter_filter]

/-- The end of a line is white space. -/
theorem newline_not_mem_parse_line (line : Bytes) : 0x0a ∉ parse_line line := by
  intro hm
  have hblank := (List.mem_filter.mp hm).2
  simp [isspace] at hblank

theorem Kept.newline_not_mem {e : Bytes} (h : Kept e) : 0x0a ∉ e := by
  rw [← h.2]
  exact newline_not_mem_parse_line e

theorem kept_of_mem_entries {content e : Bytes} (h : e ∈ entries content) : Kept e := by
  obtain ⟨hm, he⟩ := List.mem_filter.mp h
  obtain ⟨line, -, rfl⟩ := List.mem_map.mp hm
  exact ⟨of_decide_eq_true he, parse_line_idem line⟩

/-! ## Reading a file back -/

theorem entries_append (c d : Bytes) : entries (c ++ 0x0a :: d) = entries c ++ entries d := by
  unfold entries
  rw [List.splitOn_append_cons_self, List.map_append, List.filter_append]

theorem entries_of_newline_not_mem {line : Bytes} (h : 0x0a ∉ line) :
    entries line = if IsEntry (parse_line line) then [parse_line line] else [] := by
  unfold entries
  rw [List.splitOn_eq_singleton h]
  by_cases he : IsEntry (parse_line line) <;> simp [he]

/-- The entries of a written file are the ones that were written. -/
theorem entries_text {es : List Bytes} (hes : ∀ e ∈ es, Kept e) : entries (text es) = es := by
  induction es with
  | nil => simp [entries, text, parse_line, IsEntry]
  | cons e es ih =>
    have he := hes e (by simp)
    have htext : text (e :: es) = e ++ 0x0a :: text es := by simp [text]
    rw [htext, entries_append, entries_of_newline_not_mem he.newline_not_mem, he.2, if_pos he.1,
      ih (fun x hx => hes x (by simp [hx]))]
    rfl

/-! ## What a file blocks -/

theorem isHostnameBlocked_iff_entries (content h : Bytes) :
    (load content).isHostnameBlocked h = true ↔ ∃ e ∈ entries content, Names e h := by
  rw [isHostnameBlocked_iff]
  constructor
  · rintro ⟨line, hline, hnames⟩
    exact ⟨parse_line line, List.mem_filter.mpr ⟨List.mem_map_of_mem hline, by simp [hnames.1]⟩, hnames⟩
  · rintro ⟨e, he, hnames⟩
    obtain ⟨line, hline, rfl⟩ := List.mem_map.mp (List.mem_filter.mp he).1
    exact ⟨line, hline, hnames⟩

/-- A file comes down to its entries. Written one on a line they are read back
as they were, and block what the file blocks, so comments, blank lines, white
space and line ends say nothing; and one file behind another blocks what
either does. -/
theorem a_file_comes_down_to_its_entries (content : Bytes) :
    entries (text (entries content)) = entries content ∧
    (∀ h, (load (text (entries content))).isHostnameBlocked h = (load content).isHostnameBlocked h) ∧
    (∀ es, (∀ e ∈ es, Kept e) → ∀ h,
      ((load (text es)).isHostnameBlocked h = true ↔ ∃ e ∈ es, Names e h)) ∧
    ∀ more h, (load (content ++ 0x0a :: more)).isHostnameBlocked h =
      ((load content).isHostnameBlocked h || (load more).isHostnameBlocked h) := by
  have hback : entries (text (entries content)) = entries content :=
    entries_text (fun e he => kept_of_mem_entries he)
  refine ⟨hback, fun h => ?_, fun es hes h => ?_, fun more h => ?_⟩
  · rw [Bool.eq_iff_iff, isHostnameBlocked_iff_entries, isHostnameBlocked_iff_entries, hback]
  · rw [isHostnameBlocked_iff_entries, entries_text hes]
  · rw [Bool.eq_iff_iff, Bool.or_eq_true, isHostnameBlocked_iff_entries,
      isHostnameBlocked_iff_entries, isHostnameBlocked_iff_entries, entries_append]
    simp only [List.mem_append, or_and_right, exists_or]

end packet_inspector.BlockList
