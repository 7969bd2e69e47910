-- The command line: `cli::parse` over any argv, and the workers that main
-- builds from the configuration. What is proved is that an accepted command
-- line lays the workers out on a gapless range of queues.
import PacketInspector.Extractor
import PacketInspector.Numbers

open wire libc

namespace packet_inspector

/-! ## Machine integers -/

def INT_MIN : Int := -2 ^ 31
def INT_MAX : Int := 2 ^ 31 - 1
def UINT32_MAX : Nat := 2 ^ 32 - 1

/-- `static_cast<int>`. -/
def to_int (n : Int) : Int := n.bmod (2 ^ 32)

/-- `static_cast<std::size_t>`. -/
def to_size (n : Int) : Nat := (n % 2 ^ 64).toNat

theorem to_int_of_fits {n : Int} (hmin : INT_MIN ≤ n) (hmax : n ≤ INT_MAX) : to_int n = n := by
  unfold INT_MIN INT_MAX at *
  unfold to_int
  exact Int.bmod_eq_of_le (by omega) (by omega)

theorem to_size_of_nonneg {n : Int} (hpos : 0 ≤ n) (hmax : n ≤ INT_MAX) : to_size n = n.toNat := by
  unfold INT_MAX at hmax
  unfold to_size
  rw [Int.emod_eq_of_lt hpos (by omega)]

/-! ## The configuration -/

/-- The bytes of an ASCII text. -/
def ascii (s : String) : Bytes := s.toList.map (fun c => UInt8.ofNat c.toNat)

/-- A configuration. Every field starts at its default. -/
structure Config where
  blocklist_path : Bytes := ascii "blocklist.txt"
  queue_num : UInt16 := 0
  queue_maxlen : UInt32 := 8192
  jobs : Nat := 4
  recv_buf_bytes : Int := 256 * 1024 * 1024
  max_blocked_flows : Nat := 0
  pin_first_cpu : Int := -1
  pin_stride : Int := 1
  verbose : Bool := false
  passthrough : Bool := false
  stats_interval_s : UInt32 := 0
deriving DecidableEq

namespace Config

variable (c : Config)

def worker_count : Nat := if c.jobs > 0 then c.jobs else 1

/-- `queue_num + worker_count() - 1`, in the arithmetic of `std::size_t`. -/
def last_queue : Nat := (c.queue_num.toNat + c.worker_count - 1) % 2 ^ 64

/-- The last queue number of the balance range. -/
def last_queue_num : UInt16 := UInt16.ofNat c.last_queue

def kFloor : Nat := 1024 * 1024

/-- Each worker's share of the receive buffer, never below 1 MiB. -/
def recv_buf_per_worker : Int :=
  let share := to_size c.recv_buf_bytes / c.worker_count
  to_int (if share < kFloor then kFloor else share)

end Config

/-! ## Parsing -/

namespace cli

/-- The result of a parse, with what it printed in front of the usage. -/
structure ParseResult where
  config : Config := {}
  should_exit : Bool := false
  exit_code : Int := 0
  message : Option Bytes := none
deriving DecidableEq

/-- Print a message and the usage, and exit with 2. -/
def fail (c : Config) (msg : Bytes) : ParseResult :=
  { config := c, should_exit := true, exit_code := 2,
    message := some (ascii "PacketInspector: " ++ msg) }

/-- An option that takes a number: its range, what it says it expects, and
the field that it sets. -/
structure NumberFlag where
  flag : Bytes
  lo : Nat
  hi : Nat
  expects : Bytes
  set : Config → Nat → Config

def flagJobs : NumberFlag :=
  ⟨ascii "-j", 1, 4096, ascii "-j expects an integer 1..4096, got '",
    fun c n => { c with jobs := n }⟩

def flagNfq : NumberFlag :=
  ⟨ascii "-nfq", 0, 65535, ascii "-nfq expects a queue number 0..65535, got '",
    fun c n => { c with queue_num := UInt16.ofNat n }⟩

def flagNfqSize : NumberFlag :=
  ⟨ascii "-nfq-size", 1, UINT32_MAX, ascii "-nfq-size expects a positive integer, got '",
    fun c n => { c with queue_maxlen := UInt32.ofNat n }⟩

def flagMaxBlocked : NumberFlag :=
  ⟨ascii "-max-blocked", 1, UINT32_MAX, ascii "-max-blocked expects a positive integer, got '",
    fun c n => { c with max_blocked_flows := n }⟩

def flagPin : NumberFlag :=
  ⟨ascii "-pin", 0, 4095, ascii "-pin expects a CPU number 0..4095, got '",
    fun c n => { c with pin_first_cpu := to_int n }⟩

def flagPinStride : NumberFlag :=
  ⟨ascii "-pin-stride", 1, 64, ascii "-pin-stride expects 1..64, got '",
    fun c n => { c with pin_stride := to_int n }⟩

def flagRcvbuf : NumberFlag :=
  ⟨ascii "-rcvbuf", 1, INT_MAX.toNat, ascii "-rcvbuf expects a positive byte count, got '",
    fun c n => { c with recv_buf_bytes := to_int n }⟩

def flagStats : NumberFlag :=
  ⟨ascii "--stats", 0, 86400, ascii "--stats expects seconds 0..86400, got '",
    fun c n => { c with stats_interval_s := UInt32.ofNat n }⟩

def numberFlags : List NumberFlag :=
  [flagJobs, flagNfq, flagNfqSize, flagMaxBlocked, flagPin, flagPinStride, flagRcvbuf, flagStats]

/-- The check after the last argument: the whole range of queues has to stay
inside the 16-bit queue number space. -/
def finish (c : Config) : ParseResult :=
  if c.last_queue > 65535 then
    fail c (ascii "-nfq " ++ ascii (toString c.queue_num.toNat) ++ ascii " with -j " ++
      ascii (toString c.jobs) ++ ascii " would need queues up to " ++
      ascii (toString c.last_queue) ++ ascii ", past the 65535 maximum")
  else { config := c }

def requiresValue (c : Config) (flag : Bytes) : ParseResult :=
  fail c (ascii "option " ++ flag ++ ascii " requires a value")

/-- The loop over the arguments that are left. -/
def parseArgs (c : Config) : List Bytes → ParseResult
  | [] => finish c
  | arg :: rest =>
    if arg = ascii "-h" ∨ arg = ascii "--help" then { config := c, should_exit := true }
    else
      match numberFlags.find? (fun f => f.flag = arg) with
      | some f =>
        match rest with
        | [] => requiresValue c arg
        | val :: rest =>
          match parse_uint val f.lo f.hi with
          | none => fail c (f.expects ++ val ++ ascii "'")
          | some n => parseArgs (f.set c n) rest
      | none =>
        if arg = ascii "-b" then
          match rest with
          | [] => requiresValue c arg
          | val :: rest => parseArgs { c with blocklist_path := val } rest
        else if arg = ascii "-v" ∨ arg = ascii "--verbose" then
          parseArgs { c with verbose := true } rest
        else if arg = ascii "--passthrough" then parseArgs { c with passthrough := true } rest
        else if arg.head? = some 0x2d then fail c (ascii "unknown option: " ++ arg)
        else parseArgs { c with blocklist_path := arg } rest

/-- `cli::parse`. The program's own name is skipped. -/
def parse (argv : List Bytes) : ParseResult := parseArgs {} (argv.drop 1)

end cli

/-! ## The workers of main -/

/-- What main hands to the constructor of a worker. -/
structure WorkerArgs where
  id : Int
  queue_num : UInt16
  verbose : Bool
  passthrough : Bool
  queue_maxlen : UInt32
  recv_buf_bytes : Int
  max_flows : Nat
  max_blocked : Nat
  pin_cpu : Int
deriving DecidableEq

namespace Config

def kDefaultMaxFlows : Nat := 65536

/-- The CPU of worker `i`, or −1 to leave scheduling alone. -/
def worker_cpu (c : Config) (i : Nat) : Int :=
  if c.pin_first_cpu ≥ 0 then c.pin_first_cpu + to_int i * c.pin_stride else -1

def worker (c : Config) (i : Nat) : WorkerArgs where
  id := to_int i
  queue_num := UInt16.ofNat (c.queue_num.toNat + i)
  verbose := c.verbose
  passthrough := c.passthrough
  queue_maxlen := c.queue_maxlen
  recv_buf_bytes := c.recv_buf_per_worker
  max_flows := kDefaultMaxFlows
  max_blocked := c.max_blocked_flows
  pin_cpu := c.worker_cpu i

/-- The workers that main builds, worker 0 first. -/
def workers (c : Config) : List WorkerArgs := (List.range c.worker_count).map c.worker

end Config

/-! ## What the range checks leave -/

/-- Every field is in the range that its option checks, or at its default. -/
structure Config.InRange (c : Config) : Prop where
  jobs : 1 ≤ c.jobs ∧ c.jobs ≤ 4096
  recv_buf : 1 ≤ c.recv_buf_bytes ∧ c.recv_buf_bytes ≤ INT_MAX
  pin_first : -1 ≤ c.pin_first_cpu ∧ c.pin_first_cpu ≤ 4095
  stride : 1 ≤ c.pin_stride ∧ c.pin_stride ≤ 64

namespace Config.InRange

theorem default : ({} : Config).InRange where
  jobs := by simp
  recv_buf := by simp [INT_MAX]
  pin_first := by simp
  stride := by simp

variable {c : Config} (hc : c.InRange)
include hc

theorem set_pin_first {n : Nat} (h : n ≤ 4095) : { c with pin_first_cpu := to_int n }.InRange := by
  rw [to_int_of_fits (by unfold INT_MIN; omega) (by unfold INT_MAX; omega)]
  exact { hc with pin_first := ⟨by simp, by simp; omega⟩ }

theorem set_stride {n : Nat} (hlo : 1 ≤ n) (h : n ≤ 64) : { c with pin_stride := to_int n }.InRange := by
  rw [to_int_of_fits (by unfold INT_MIN; omega) (by unfold INT_MAX; omega)]
  exact { hc with stride := ⟨by simp; omega, by simp; omega⟩ }

theorem set_recv_buf {n : Nat} (hlo : 1 ≤ n) (h : n ≤ INT_MAX.toNat) :
    { c with recv_buf_bytes := to_int n }.InRange := by
  unfold INT_MAX at h
  have hmax : (n : Int) ≤ INT_MAX := by
    unfold INT_MAX
    omega
  rw [to_int_of_fits (by unfold INT_MIN; omega) hmax]
  exact { hc with recv_buf := ⟨by simp; omega, hmax⟩ }

end Config.InRange

namespace cli

/-- What an option sets, after its range check, is in range. -/
theorem inRange_set {f : NumberFlag} (hf : f ∈ numberFlags) {c : Config} (hc : c.InRange) {n : Nat}
    (hlo : f.lo ≤ n) (hhi : n ≤ f.hi) : (f.set c n).InRange := by
  simp only [numberFlags, List.mem_cons, List.not_mem_nil, or_false] at hf
  rcases hf with rfl | rfl | rfl | rfl | rfl | rfl | rfl | rfl
  · exact { hc with jobs := ⟨hlo, hhi⟩ }
  · exact { hc with }
  · exact { hc with }
  · exact { hc with }
  · exact hc.set_pin_first hhi
  · exact hc.set_stride hlo hhi
  · exact hc.set_recv_buf hlo hhi
  · exact { hc with }

/-- An accepted command line leaves every field in range, and the last queue
in the 16-bit space. -/
theorem parseArgs_inRange {c : Config} (hc : c.InRange) (args : List Bytes)
    (h : (parseArgs c args).should_exit = false) :
    (parseArgs c args).config.InRange ∧ (parseArgs c args).config.last_queue ≤ 65535 := by
  fun_induction parseArgs c args with
  | case1 c =>
    unfold finish at h ⊢
    split_ifs at h ⊢ with hlast
    · cases h
    · exact ⟨hc, Nat.le_of_not_lt hlast⟩
  | case2 => cases h
  | case3 => cases h
  | case4 => cases h
  | case5 c arg hhelp f hfind val rest n hparse ih =>
    obtain ⟨-, hlo, hhi⟩ := parse_uint_eq_some_iff.mp hparse
    exact ih (inRange_set (List.mem_of_find?_eq_some hfind) hc hlo hhi) h
  | case6 => cases h
  | case7 c val rest _ _ ih => exact ih { hc with } h
  | case8 c arg rest _ _ _ _ ih => exact ih { hc with } h
  | case9 c rest _ _ _ _ ih => exact ih { hc with } h
  | case10 => cases h
  | case11 c arg rest _ _ _ _ _ _ ih => exact ih { hc with } h

/-- A parse that ends the program ends it with 0 and prints the usage alone,
or with 2 and a message in front of it. -/
theorem parse_exit_code {argv : List Bytes} (h : (parse argv).should_exit = true) :
    ((parse argv).exit_code = 0 ∧ (parse argv).message = none) ∨
      ((parse argv).exit_code = 2 ∧ (parse argv).message ≠ none) := by
  suffices hall : ∀ c args, (parseArgs c args).should_exit = true →
      ((parseArgs c args).exit_code = 0 ∧ (parseArgs c args).message = none) ∨
        ((parseArgs c args).exit_code = 2 ∧ (parseArgs c args).message ≠ none) from hall _ _ h
  clear h
  intro c args h
  fun_induction parseArgs c args with
  | case1 c =>
    unfold finish at h ⊢
    split_ifs at h ⊢
    exact .inr ⟨rfl, by simp [fail]⟩
  | case2 => exact .inl ⟨rfl, rfl⟩
  | case3 => exact .inr ⟨rfl, by simp [requiresValue, fail]⟩
  | case4 => exact .inr ⟨rfl, by simp [fail]⟩
  | case5 => rename_i ih; exact ih h
  | case6 => exact .inr ⟨rfl, by simp [requiresValue, fail]⟩
  | case7 => rename_i ih; exact ih h
  | case8 => rename_i ih; exact ih h
  | case9 => rename_i ih; exact ih h
  | case10 => exact .inr ⟨rfl, by simp [fail]⟩
  | case11 => rename_i ih; exact ih h

end cli

/-! ## The layout of the workers -/

namespace Config

variable {c : Config} (hc : c.InRange)
include hc

theorem worker_count_eq : c.worker_count = c.jobs := if_pos hc.jobs.1

/-- No queue number wraps around, when the last one does not. -/
theorem worker_queue (hlast : c.last_queue ≤ 65535) {i : Nat} (hi : i < c.worker_count) :
    (c.worker i).queue_num.toNat = c.queue_num.toNat + i ∧
      c.last_queue_num.toNat = c.queue_num.toNat + c.worker_count - 1 ∧
      c.queue_num.toNat + c.worker_count - 1 ≤ 65535 := by
  have hjobs := hc.jobs
  have hcount := worker_count_eq hc
  have hqueue := c.queue_num.toNat_lt
  have hexact : c.last_queue = c.queue_num.toNat + c.worker_count - 1 :=
    Nat.mod_eq_of_lt (by omega)
  have hworker : (UInt16.ofNat (c.queue_num.toNat + i)).toNat = c.queue_num.toNat + i :=
    UInt16.toNat_ofNat_of_lt (by rw [UInt16.size]; omega)
  have hend : c.last_queue_num.toNat = c.last_queue :=
    UInt16.toNat_ofNat_of_lt (by rw [UInt16.size]; omega)
  exact ⟨hworker, hend.trans hexact, hexact ▸ hlast⟩

/-- The queues of the workers are pairwise distinct. -/
theorem queues_nodup (hlast : c.last_queue ≤ 65535) :
    (c.workers.map (fun w => w.queue_num)).Nodup := by
  rw [workers, List.map_map]
  refine List.Nodup.map_on ?_ List.nodup_range
  intro i hi j hj heq
  rw [List.mem_range] at hi hj
  have hval := congrArg UInt16.toNat heq
  simp only [Function.comp_apply, (worker_queue hc hlast hi).1, (worker_queue hc hlast hj).1] at hval
  omega

/-- The queues of the workers are the range of the banner. -/
theorem mem_queues_iff (hlast : c.last_queue ≤ 65535) (q : UInt16) :
    q ∈ c.workers.map (fun w => w.queue_num) ↔ c.queue_num ≤ q ∧ q ≤ c.last_queue_num := by
  have hjobs := hc.jobs
  have hcount := worker_count_eq hc
  simp only [workers, List.map_map, List.mem_map, List.mem_range, Function.comp_apply,
    UInt16.le_iff_toNat_le]
  constructor
  · rintro ⟨i, hi, rfl⟩
    obtain ⟨hqueue, hend, -⟩ := worker_queue hc hlast hi
    omega
  · rintro ⟨hfrom, hto⟩
    have hend := (worker_queue hc hlast (show 0 < c.worker_count by omega)).2.1
    have hi : q.toNat - c.queue_num.toNat < c.worker_count := by omega
    refine ⟨_, hi, UInt16.toNat_inj.mp ?_⟩
    rw [(worker_queue hc hlast hi).1]
    omega

/-- The share of the receive buffer is a 32-bit size of at least 1 MiB, and
the shares stay within the total unless they are at the floor. -/
theorem recv_buf_bounds :
    2 ^ 20 ≤ c.recv_buf_per_worker ∧ c.recv_buf_per_worker ≤ INT_MAX ∧
      (c.jobs * c.recv_buf_per_worker ≤ c.recv_buf_bytes ∨ c.recv_buf_per_worker = 2 ^ 20) := by
  have hjobs := hc.jobs
  have hrecv := hc.recv_buf
  have hsize := to_size_of_nonneg (by omega) hrecv.2
  have hle : c.recv_buf_bytes.toNat / c.jobs ≤ c.recv_buf_bytes.toNat := Nat.div_le_self _ _
  have hsum : c.jobs * (c.recv_buf_bytes.toNat / c.jobs) ≤ c.recv_buf_bytes.toNat :=
    Nat.mul_div_le _ _
  unfold recv_buf_per_worker
  simp only [worker_count_eq hc, hsize]
  set share := c.recv_buf_bytes.toNat / c.jobs
  have hmax : (share : Int) ≤ INT_MAX := by omega
  by_cases hfloor : share < kFloor
  · rw [if_pos hfloor, to_int_of_fits (by simp [INT_MIN, kFloor]) (by simp [INT_MAX, kFloor])]
    exact ⟨by simp [kFloor], by simp [INT_MAX, kFloor], .inr (by simp [kFloor])⟩
  · rw [if_neg hfloor, to_int_of_fits (by unfold INT_MIN; omega) hmax]
    unfold kFloor at hfloor
    refine ⟨by omega, hmax, .inl ?_⟩
    have hcast : (c.jobs * share : Int) ≤ c.recv_buf_bytes.toNat := by exact_mod_cast hsum
    omega

/-- The CPU numbers of the workers fit an int, and so do the products on the
way. -/
theorem pin_bounds {i : Nat} (hi : i < c.worker_count) :
    to_int i = i ∧ 0 ≤ i * c.pin_stride ∧ i * c.pin_stride ≤ INT_MAX ∧
      INT_MIN ≤ c.pin_first_cpu + i * c.pin_stride ∧ c.pin_first_cpu + i * c.pin_stride ≤ INT_MAX := by
  have hjobs := hc.jobs
  have hfirst := hc.pin_first
  have hstride := hc.stride
  rw [worker_count_eq hc] at hi
  have hlow : 0 ≤ i * c.pin_stride := mul_nonneg (by omega) (by omega)
  have hhigh : i * c.pin_stride ≤ 4096 * 64 := mul_le_mul (by omega) hstride.2 (by omega) (by omega)
  refine ⟨to_int_of_fits (by unfold INT_MIN; omega) (by unfold INT_MAX; omega), hlow, ?_⟩
  unfold INT_MIN INT_MAX
  omega

end Config

/-- Every accepted command line gives a consistent layout: the queues of the
workers are distinct and fill the range that the banner prints, each share of
the receive buffer is in bounds, and the CPU numbers fit an int. -/
theorem accepted_command_line_layout {argv : List Bytes}
    (h : (cli.parse argv).should_exit = false) :
    let c := (cli.parse argv).config
    (1 ≤ c.jobs ∧ c.jobs ≤ 4096 ∧ c.workers.length = c.jobs) ∧
      ((c.workers.map (fun w => w.queue_num)).Nodup ∧
        (∀ i w, c.workers[i]? = some w → w.queue_num.toNat = c.queue_num.toNat + i) ∧
        ∀ q, q ∈ c.workers.map (fun w => w.queue_num) ↔ c.queue_num ≤ q ∧ q ≤ c.last_queue_num) ∧
      (2 ^ 20 ≤ c.recv_buf_per_worker ∧ c.recv_buf_per_worker ≤ INT_MAX ∧
        (c.jobs * c.recv_buf_per_worker ≤ c.recv_buf_bytes ∨ c.recv_buf_per_worker = 2 ^ 20)) ∧
      ∀ i, i < c.jobs → INT_MIN ≤ c.pin_first_cpu + i * c.pin_stride ∧
        c.pin_first_cpu + i * c.pin_stride ≤ INT_MAX ∧ to_int i * c.pin_stride = i * c.pin_stride := by
  intro c
  obtain ⟨hc, hlast⟩ : c.InRange ∧ c.last_queue ≤ 65535 :=
    cli.parseArgs_inRange Config.InRange.default _ h
  have hcount := Config.worker_count_eq hc
  have hlength : c.workers.length = c.jobs := by
    rw [Config.workers, List.length_map, List.length_range, hcount]
  refine ⟨⟨hc.jobs.1, hc.jobs.2, hlength⟩, ⟨Config.queues_nodup hc hlast, ?_,
    Config.mem_queues_iff hc hlast⟩, Config.recv_buf_bounds hc, ?_⟩
  · intro i w hw
    have hi : i < c.worker_count := by
      have hlt := (List.getElem?_eq_some_iff.mp hw).1
      omega
    rw [Config.workers, List.getElem?_map, List.getElem?_range hi, Option.map_some,
      Option.some.injEq] at hw
    rw [← hw]
    exact (Config.worker_queue hc hlast hi).1
  · intro i hi
    obtain ⟨hint, -, -, hmin, hmax⟩ := Config.pin_bounds hc (hcount.symm ▸ hi)
    exact ⟨hmin, hmax, by rw [hint]⟩

/-- Flags in any order, one of them twice: four workers from queue 65532 on. -/
def lastQueuesArgv : List Bytes :=
  [ascii "PacketInspector", ascii "-j", ascii "9", ascii "-nfq", ascii "65532", ascii "-pin",
    ascii "2", ascii "-rcvbuf", ascii "1", ascii "hosts.txt", ascii "-j", ascii "4"]

theorem accepted_command_line_layout_last_queues :
    (cli.parse lastQueuesArgv).should_exit = false ∧
      ((cli.parse lastQueuesArgv).config.workers.map (fun w => w.queue_num)).Nodup := by
  have h : (cli.parse lastQueuesArgv).should_exit = false := by decide +kernel
  exact ⟨h, (accepted_command_line_layout h).2.1.1⟩

end packet_inspector
