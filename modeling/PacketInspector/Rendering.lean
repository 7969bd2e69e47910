-- Configurations written as command lines: which ones `cli::parse` gives, and
-- that the options of each bring it back.
import PacketInspector.CommandLine

open wire libc

namespace libc

/-! ## Decimals -/

/-- `std::to_string`. -/
def to_string (n : Nat) : Bytes := (Nat.toDigits 10 n).map (fun c => UInt8.ofNat c.toNat)

theorem toNat_digit_byte {c : Char} (hc : c.isDigit = true) :
    (UInt8.ofNat c.toNat).toNat = c.toNat ∧ 0x30 ≤ c.toNat ∧ c.toNat ≤ 0x39 := by
  obtain ⟨hlow, hhigh⟩ : 0x30 ≤ c.toNat ∧ c.toNat ≤ 0x39 := by
    simpa [Char.isDigit, UInt32.le_iff_toNat_le] using hc
  refine ⟨?_, hlow, hhigh⟩
  rw [UInt8.toNat_ofNat']
  omega

theorem isDecimal_to_string (n : Nat) : IsDecimal (to_string n) := by
  refine ⟨by simp [to_string, Nat.toDigits_ne_nil], ?_⟩
  intro b hb
  obtain ⟨c, hc, rfl⟩ := List.mem_map.mp hb
  obtain ⟨hbyte, hlow, hhigh⟩ :=
    toNat_digit_byte (Nat.isDigit_of_mem_toDigits (by omega) (Nat.le_refl 10) hc)
  simp only [isdigit, Bool.and_eq_true, decide_eq_true_eq, UInt8.le_iff_toNat_le, hbyte]
  exact ⟨hlow, hhigh⟩

theorem decimalValue_to_string (n : Nat) : decimalValue (to_string n) = n := by
  have hfold : ∀ (cs : List Char) (v : Nat), (∀ c ∈ cs, c.isDigit = true) →
      (cs.map (fun c => UInt8.ofNat c.toNat)).foldl (fun v b => 10 * v + (b.toNat - 0x30)) v =
        Nat.ofDigitChars 10 cs v := by
    intro cs
    induction cs with
    | nil => intro v _; simp
    | cons c cs ih =>
      intro v hcs
      have hbyte := (toNat_digit_byte (hcs c (by simp))).1
      rw [List.map_cons, List.foldl_cons, hbyte, Nat.ofDigitChars_cons]
      exact ih _ (fun d hd => hcs d (by simp [hd]))
  unfold decimalValue to_string
  rw [hfold _ 0 (fun c hc => Nat.isDigit_of_mem_toDigits (by omega) (Nat.le_refl 10) hc)]
  exact Nat.ofDigitChars_ten_toDigits

end libc

namespace packet_inspector

/-! ## Configurations that can be written -/

/-- Arguments as the kernel hands them to a program: C strings, so no byte of
them is zero. -/
def cli.IsArgv (argv : List Bytes) : Prop := ∀ arg ∈ argv, 0 ∉ arg

/-- The unsigned fields are in the range of their options, or at their
defaults, and the path is a C string. -/
structure Config.Legal (c : Config) : Prop where
  queue_maxlen : 1 ≤ c.queue_maxlen.toNat
  max_blocked : c.max_blocked_flows ≤ UINT32_MAX
  stats : c.stats_interval_s.toNat ≤ 86400
  path : 0 ∉ c.blocklist_path

/-- What some command line can set: every field in its range, a path that is a
C string, and every queue in the 16-bit space. -/
structure Config.Writable (c : Config) : Prop extends c.InRange, c.Legal where
  last : c.last_queue ≤ 65535

namespace Config.Legal

theorem default : ({} : Config).Legal where
  queue_maxlen := by simp
  max_blocked := by simp
  stats := by simp
  path := by decide

variable {c : Config} (hc : c.Legal)
include hc

theorem set_jobs (n : Nat) : { c with jobs := n }.Legal := { hc with }

theorem set_queue_num (n : UInt16) : { c with queue_num := n }.Legal := { hc with }

theorem set_pin_first (cpu : Int) : { c with pin_first_cpu := cpu }.Legal := { hc with }

theorem set_stride (n : Int) : { c with pin_stride := n }.Legal := { hc with }

theorem set_recv_buf (n : Int) : { c with recv_buf_bytes := n }.Legal := { hc with }

theorem set_max_blocked {n : Nat} (h : n ≤ UINT32_MAX) : { c with max_blocked_flows := n }.Legal :=
  { hc with max_blocked := h }

theorem set_queue_maxlen {n : Nat} (hlo : 1 ≤ n) (hhi : n ≤ UINT32_MAX) :
    { c with queue_maxlen := UInt32.ofNat n }.Legal := by
  unfold UINT32_MAX at hhi
  have hfits : (UInt32.ofNat n).toNat = n :=
    UInt32.toNat_ofNat_of_lt' (by rw [UInt32.size]; omega)
  exact { hc with queue_maxlen := hfits.symm ▸ hlo }

theorem set_stats {n : Nat} (h : n ≤ 86400) :
    { c with stats_interval_s := UInt32.ofNat n }.Legal := by
  have hfits : (UInt32.ofNat n).toNat = n :=
    UInt32.toNat_ofNat_of_lt' (by rw [UInt32.size]; omega)
  exact { hc with stats := hfits.symm ▸ h }

end Config.Legal

namespace cli

/-- One option with its number. -/
def NumberFlag.words (f : NumberFlag) (n : Nat) : List Bytes := [f.flag, to_string n]

end cli

open cli in
/-- The options that say everything a configuration says. A bound on the
blocked flows and a CPU are left out where there is none. -/
def Config.options (c : Config) : List Bytes :=
  flagJobs.words c.jobs ++ flagNfq.words c.queue_num.toNat ++
  flagNfqSize.words c.queue_maxlen.toNat ++ flagRcvbuf.words c.recv_buf_bytes.toNat ++
  (if c.max_blocked_flows = 0 then [] else flagMaxBlocked.words c.max_blocked_flows) ++
  (if c.pin_first_cpu < 0 then [] else flagPin.words c.pin_first_cpu.toNat) ++
  flagPinStride.words c.pin_stride.toNat ++ flagStats.words c.stats_interval_s.toNat ++
  [ascii "-b", c.blocklist_path] ++ (if c.verbose then [ascii "-v"] else []) ++
  (if c.passthrough then [ascii "--passthrough"] else [])

namespace cli

/-! ## Reading one option back -/

theorem parse_uint_to_string {n lo hi : Nat} (hlo : lo ≤ n) (hhi : n ≤ hi) (hfits : n < 2 ^ 64) :
    parse_uint (to_string n) lo hi = some n := by
  refine parse_uint_eq_some_iff.mpr ⟨(readAs_decimal_iff (isDecimal_to_string n)).mpr ?_, hlo, hhi⟩
  exact ⟨(decimalValue_to_string n).symm, hfits⟩

/-- Every numeric option is found under its own name, and none of them asks
for the help text. -/
theorem find_flag {f : NumberFlag} (hf : f ∈ numberFlags) :
    numberFlags.find? (fun g => g.flag = f.flag) = some f ∧
      f.flag ≠ ascii "-h" ∧ f.flag ≠ ascii "--help" ∧ f.hi < 2 ^ 64 := by
  simp only [numberFlags, List.mem_cons, List.not_mem_nil, or_false] at hf
  rcases hf with rfl | rfl | rfl | rfl | rfl | rfl | rfl | rfl
  all_goals exact ⟨rfl, by decide, by decide, by decide⟩

theorem parseArgs_words {f : NumberFlag} (hf : f ∈ numberFlags) (c : Config) {n : Nat}
    (hlo : f.lo ≤ n) (hhi : n ≤ f.hi) (rest : List Bytes) :
    parseArgs c (f.words n ++ rest) = parseArgs (f.set c n) rest := by
  obtain ⟨hfind, hh, hhelp, hfits⟩ := find_flag hf
  have hread := parse_uint_to_string hlo hhi (Nat.lt_of_le_of_lt hhi hfits)
  show parseArgs c (f.flag :: to_string n :: rest) = _
  rw [parseArgs, if_neg (by simp [hh, hhelp]), hfind]
  simp only [hread]

/-- A bound of nothing is what a configuration starts with. -/
theorem parseArgs_max_blocked {c : Config} (hnone : c.max_blocked_flows = 0) {n : Nat}
    (hhi : n ≤ UINT32_MAX) (rest : List Bytes) :
    parseArgs c ((if n = 0 then [] else flagMaxBlocked.words n) ++ rest) =
      parseArgs { c with max_blocked_flows := n } rest := by
  by_cases hn : n = 0
  · rw [if_pos hn, hn, ← hnone]
    rfl
  · rw [if_neg hn]
    exact parseArgs_words (by simp [numberFlags]) c (Nat.pos_of_ne_zero hn) hhi rest

/-- No CPU is what a configuration starts with. -/
theorem parseArgs_pin {c : Config} (hnone : c.pin_first_cpu = -1) {cpu : Int}
    (hlo : -1 ≤ cpu) (hhi : cpu ≤ 4095) (rest : List Bytes) :
    parseArgs c ((if cpu < 0 then [] else flagPin.words cpu.toNat) ++ rest) =
      parseArgs { c with pin_first_cpu := cpu } rest := by
  by_cases hcpu : cpu < 0
  · have hsame : cpu = c.pin_first_cpu := by omega
    rw [if_pos hcpu, hsame]
    rfl
  · have hset : flagPin.set c cpu.toNat = { c with pin_first_cpu := cpu } := by
      show { c with pin_first_cpu := to_int cpu.toNat } = _
      rw [to_int_of_fits (by unfold INT_MIN; omega) (by unfold INT_MAX; omega),
        Int.toNat_of_nonneg (by omega)]
    rw [if_neg hcpu, ← hset]
    exact parseArgs_words (by simp [numberFlags]) c (Nat.zero_le _) (show _ ≤ 4095 by omega) rest

theorem parseArgs_path (c : Config) (path : Bytes) (rest : List Bytes) :
    parseArgs c (ascii "-b" :: path :: rest) = parseArgs { c with blocklist_path := path } rest := by
  have hnone : numberFlags.find? (fun f => f.flag = ascii "-b") = none := rfl
  rw [parseArgs.eq_def]
  simp only [hnone]
  rw [if_neg (by decide), if_pos trivial]

theorem parseArgs_verbose (c : Config) (rest : List Bytes) :
    parseArgs c (ascii "-v" :: rest) = parseArgs { c with verbose := true } rest := by
  have hnone : numberFlags.find? (fun f => f.flag = ascii "-v") = none := rfl
  rw [parseArgs.eq_def]
  simp only [hnone]
  rw [if_neg (by decide), if_neg (by decide), if_pos (.inl trivial)]

theorem parseArgs_passthrough (c : Config) (rest : List Bytes) :
    parseArgs c (ascii "--passthrough" :: rest) = parseArgs { c with passthrough := true } rest := by
  have hnone : numberFlags.find? (fun f => f.flag = ascii "--passthrough") = none := rfl
  rw [parseArgs.eq_def]
  simp only [hnone]
  rw [if_neg (by decide), if_neg (by decide), if_neg (by decide), if_pos trivial]

/-- The switches come last, on a configuration that has them off. -/
theorem parseArgs_switches (c : Config) (verbose passthrough : Bool) :
    parseArgs { c with verbose := false, passthrough := false }
        ((if verbose then [ascii "-v"] else []) ++
          (if passthrough then [ascii "--passthrough"] else [])) =
      finish { c with verbose := verbose, passthrough := passthrough } := by
  cases verbose <;> cases passthrough
  · rfl
  · exact parseArgs_passthrough _ []
  · exact parseArgs_verbose _ []
  · exact (parseArgs_verbose _ [ascii "--passthrough"]).trans (parseArgs_passthrough _ [])

/-! ## Arguments without a zero byte -/

theorem IsArgv.nil : IsArgv [] := fun _ harg => nomatch harg

theorem IsArgv.cons_iff {arg : Bytes} {args : List Bytes} :
    IsArgv (arg :: args) ↔ 0 ∉ arg ∧ IsArgv args := List.forall_mem_cons

theorem IsArgv.append {args more : List Bytes} (hargs : IsArgv args) (hmore : IsArgv more) :
    IsArgv (args ++ more) := List.forall_mem_append.mpr ⟨hargs, hmore⟩

theorem IsArgv.drop {argv : List Bytes} (hargv : IsArgv argv) (n : Nat) : IsArgv (argv.drop n) :=
  fun arg harg => hargv arg (List.mem_of_mem_drop harg)

theorem zero_not_mem_decimal {digits : Bytes} (h : IsDecimal digits) : 0 ∉ digits :=
  fun hzero => absurd (h.2 0 hzero) (by decide)

theorem isArgv_words {f : NumberFlag} (hf : f ∈ numberFlags) (n : Nat) : IsArgv (f.words n) := by
  have hflag : 0 ∉ f.flag := by
    simp only [numberFlags, List.mem_cons, List.not_mem_nil, or_false] at hf
    rcases hf with rfl | rfl | rfl | rfl | rfl | rfl | rfl | rfl
    all_goals decide
  exact IsArgv.cons_iff.mpr
    ⟨hflag, IsArgv.cons_iff.mpr ⟨zero_not_mem_decimal (isDecimal_to_string n), IsArgv.nil⟩⟩

/-- The options of a configuration can be handed to the program. -/
theorem isArgv_options {c : Config} (hpath : 0 ∉ c.blocklist_path) : IsArgv c.options := by
  have hwords : ∀ {f : NumberFlag}, f ∈ numberFlags → ∀ n, IsArgv (f.words n) := isArgv_words
  have hflag : ∀ {b : Bool} {s : String}, 0 ∉ ascii s → IsArgv (if b then [ascii s] else []) := by
    intro b s hs
    cases b
    · exact IsArgv.nil
    · exact IsArgv.cons_iff.mpr ⟨hs, IsArgv.nil⟩
  unfold Config.options
  refine IsArgv.append (IsArgv.append (IsArgv.append ?_ ?_) (hflag (by decide))) (hflag (by decide))
  · refine IsArgv.append (IsArgv.append (IsArgv.append (IsArgv.append ?_ ?_) ?_) ?_) ?_
    · exact ((((hwords (by simp [numberFlags]) _).append (hwords (by simp [numberFlags]) _)).append
        (hwords (by simp [numberFlags]) _)).append (hwords (by simp [numberFlags]) _))
    · split
      · exact IsArgv.nil
      · exact hwords (by simp [numberFlags]) _
    · split
      · exact IsArgv.nil
      · exact hwords (by simp [numberFlags]) _
    · exact hwords (by simp [numberFlags]) _
    · exact hwords (by simp [numberFlags]) _
  · exact IsArgv.cons_iff.mpr ⟨by decide, IsArgv.cons_iff.mpr ⟨hpath, IsArgv.nil⟩⟩

/-! ## The round trip -/

/-- The options of a configuration bring it back. -/
theorem parseArgs_options {c : Config} (hc : c.Writable) : parseArgs {} c.options = { config := c } := by
  have hjobs := hc.jobs
  have hrecv := hc.recv_buf
  have hstride := hc.stride
  have hpin := hc.pin_first
  have hqueue := c.queue_num.toNat_lt
  have hmaxlen := c.queue_maxlen.toNat_lt
  have hrecv_int : to_int c.recv_buf_bytes.toNat = c.recv_buf_bytes := by
    rw [Int.toNat_of_nonneg (by omega)]
    exact to_int_of_fits (by unfold INT_MIN; omega) hrecv.2
  have hstride_int : to_int c.pin_stride.toNat = c.pin_stride := by
    rw [Int.toNat_of_nonneg (by omega)]
    exact to_int_of_fits (by unfold INT_MIN; omega) (by unfold INT_MAX; omega)
  unfold Config.options
  simp only [List.append_assoc]
  rw [parseArgs_words (by simp [numberFlags]) _ hjobs.1 hjobs.2,
    parseArgs_words (by simp [numberFlags]) _ (Nat.zero_le _) (show _ ≤ 65535 by omega),
    parseArgs_words (by simp [numberFlags]) _ hc.queue_maxlen
      (show _ ≤ UINT32_MAX by unfold UINT32_MAX; omega),
    parseArgs_words (by simp [numberFlags]) _ (show 1 ≤ _ by omega) (show _ ≤ INT_MAX.toNat by omega),
    parseArgs_max_blocked rfl hc.max_blocked, parseArgs_pin rfl hpin.1 hpin.2,
    parseArgs_words (by simp [numberFlags]) _ (show 1 ≤ _ by omega) (show _ ≤ 64 by omega),
    parseArgs_words (by simp [numberFlags]) _ (Nat.zero_le _) hc.stats]
  simp only [flagJobs, flagNfq, flagNfqSize, flagRcvbuf, flagPinStride, flagStats, hrecv_int,
    hstride_int, UInt16.ofNat_toNat, UInt32.ofNat_toNat]
  rw [List.cons_append, List.cons_append, List.nil_append, parseArgs_path]
  exact (parseArgs_switches c c.verbose c.passthrough).trans (if_neg (Nat.not_lt.mpr hc.last))

/-- What an option sets, after its range check, is in range. -/
theorem legal_set {f : NumberFlag} (hf : f ∈ numberFlags) {c : Config} (hc : c.Legal) {n : Nat}
    (hlo : f.lo ≤ n) (hhi : n ≤ f.hi) : (f.set c n).Legal := by
  simp only [numberFlags, List.mem_cons, List.not_mem_nil, or_false] at hf
  rcases hf with rfl | rfl | rfl | rfl | rfl | rfl | rfl | rfl
  · exact hc.set_jobs _
  · exact hc.set_queue_num _
  · exact hc.set_queue_maxlen hlo hhi
  · exact hc.set_max_blocked hhi
  · exact hc.set_pin_first _
  · exact hc.set_stride _
  · exact hc.set_recv_buf _
  · exact hc.set_stats hhi

/-- A parse that is accepted gives nothing but its configuration, with a path
that is an argument or the default. -/
theorem parseArgs_legal {c : Config} (hc : c.Legal) {args : List Bytes} (hargs : IsArgv args)
    (h : (parseArgs c args).should_exit = false) :
    (parseArgs c args).config.Legal ∧ parseArgs c args = { config := (parseArgs c args).config } := by
  fun_induction parseArgs c args with
  | case1 c =>
    unfold finish at h ⊢
    split_ifs at h ⊢
    · cases h
    · exact ⟨hc, rfl⟩
  | case2 => cases h
  | case3 => cases h
  | case4 => cases h
  | case5 c arg hhelp f hfind val rest n hparse ih =>
    obtain ⟨-, hlo, hhi⟩ := parse_uint_eq_some_iff.mp hparse
    exact ih (legal_set (List.mem_of_find?_eq_some hfind) hc hlo hhi)
      (IsArgv.cons_iff.mp (IsArgv.cons_iff.mp hargs).2).2 h
  | case6 => cases h
  | case7 c val rest _ _ ih =>
    obtain ⟨hval, hrest⟩ := IsArgv.cons_iff.mp (IsArgv.cons_iff.mp hargs).2
    exact ih { hc with path := hval } hrest h
  | case8 c arg rest _ _ _ _ ih => exact ih { hc with } (IsArgv.cons_iff.mp hargs).2 h
  | case9 c rest _ _ _ _ ih => exact ih { hc with } (IsArgv.cons_iff.mp hargs).2 h
  | case10 => cases h
  | case11 c arg rest _ _ _ _ _ _ ih =>
    obtain ⟨harg, hrest⟩ := IsArgv.cons_iff.mp hargs
    exact ih { hc with path := harg } hrest h

/-- An accepted command line gives a configuration that can be written, and
nothing else. -/
theorem parse_writable {argv : List Bytes} (hargv : IsArgv argv)
    (h : (parse argv).should_exit = false) :
    (parse argv).config.Writable ∧ parse argv = { config := (parse argv).config } := by
  obtain ⟨hrange, hlast⟩ := parseArgs_inRange Config.InRange.default _ h
  obtain ⟨hlegal, hsame⟩ := parseArgs_legal Config.Legal.default (hargv.drop 1) h
  exact ⟨{ hrange, hlegal with last := hlast }, hsame⟩

/-- The configurations that command lines give are the ones that can be
written: the options of each are a command line that gives it back, whatever
the program is called. So an accepted command line, with its repetitions,
overwritten values and odd numerals, does what its configuration written out
in full does. -/
theorem accepted_configs_are_the_writable_ones :
    (∀ c : Config, (∃ argv, IsArgv argv ∧ parse argv = { config := c }) ↔ c.Writable) ∧
    (∀ c : Config, c.Writable → IsArgv c.options ∧
      ∀ name, parse (name :: c.options) = { config := c }) ∧
    ∀ argv, IsArgv argv → (parse argv).should_exit = false →
      IsArgv (parse argv).config.options ∧
        ∀ name, parse (name :: (parse argv).config.options) = parse argv := by
  have hwrite : ∀ c : Config, c.Writable → IsArgv c.options ∧
      ∀ name, parse (name :: c.options) = { config := c } :=
    fun c hc => ⟨isArgv_options hc.path, fun _ => parseArgs_options hc⟩
  refine ⟨fun c => ⟨?_, fun hc => ?_⟩, hwrite, fun argv hargv h => ?_⟩
  · rintro ⟨argv, hargv, hparse⟩
    have hw := (parse_writable hargv (by rw [hparse])).1
    rwa [hparse] at hw
  · obtain ⟨hoptions, hback⟩ := hwrite c hc
    exact ⟨[] :: c.options, IsArgv.cons_iff.mpr ⟨by simp, hoptions⟩, hback []⟩
  · obtain ⟨hw, hsame⟩ := parse_writable hargv h
    obtain ⟨hoptions, hback⟩ := hwrite _ hw
    exact ⟨hoptions, fun name => (hback name).trans hsame.symm⟩

end cli

end packet_inspector
