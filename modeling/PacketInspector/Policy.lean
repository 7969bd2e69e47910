-- The blocklist of `blocklist.cpp` and the policy that a worker builds on
-- it: a flow is blocked when it has a hostname and the list blocks it.
import PacketInspector.Packet

open wire

namespace packet_inspector

/-- Full-match names, and the suffixes of the `*.suffix` entries. -/
structure BlockList where
  exact : List Bytes := []
  wildcard : List Bytes := []

namespace BlockList

/-- `isspace` in the C locale. -/
def isspace (c : UInt8) : Bool := c = 0x20 || (0x09 ≤ c && c ≤ 0x0d)

/-- Strip all whitespace from a line. -/
def parse_line (line : Bytes) : Bytes := line.filter (fun c => !isspace c)

/-- One line of the file: a comment or a blank line adds nothing. -/
def addLine (b : BlockList) (line : Bytes) : BlockList :=
  let line := parse_line line
  if line = [] ∨ line.head? = some 0x23 then b
  else if line.length > 2 ∧ line.take 2 = [0x2a, 0x2e] then
    { b with wildcard := line.drop 2 :: b.wildcard }
  else { b with exact := line :: b.exact }

/-- The list that a file gives. -/
def load (content : Bytes) : BlockList := (content.splitOn 0x0a).foldl addLine {}

/-- The walk over the parent domains, from dot to dot. An empty suffix
ends it. -/
def parentBlocked (wildcard : List Bytes) : Bytes → Bool
  | [] => false
  | c :: rest =>
    if c = 0x2e then
      if rest = [] then false
      else if rest ∈ wildcard then true
      else parentBlocked wildcard rest
    else parentBlocked wildcard rest

def isHostnameBlocked (b : BlockList) (hostname : Bytes) : Bool :=
  if hostname ∈ b.exact then true else parentBlocked b.wildcard hostname

end BlockList

/-- The policy of a worker. -/
def workerDecide (b : BlockList) (hostname : Option Bytes) : Verdict :=
  match hostname with
  | some h => if b.isHostnameBlocked h then .BLOCK else .ALLOW
  | none => .ALLOW

theorem workerDecide_eq_block_iff {b : BlockList} {hostname : Option Bytes} :
    workerDecide b hostname = .BLOCK ↔ ∃ h, hostname = some h ∧ b.isHostnameBlocked h = true := by
  cases hostname with
  | none => simp [workerDecide]
  | some h => simp [workerDecide]

end packet_inspector
