-- No bypass, seen from the kernel: when a worker receives the hello of a
-- blocked name, the kernel is told to drop every packet that carried it.
import PacketInspector.KernelView
import PacketInspector.NoBypass

open wire packet_inspector.tls

namespace packet_inspector.Worker

open TcpTlsHostnameExtractor

variable {R P : Type} {w : World R P} {b : BlockList}

/-- The SYN of a client opens a connection that the extractor `s` does not
track, and there is room for it. -/
structure Opens (w : World R P) (s : TcpTlsHostnameExtractor R P) (start : Time) (syn : Arrival)
    (g : FlowView) : Prop where
  flow : flowOf syn.val.bytes = some g
  client : isClientSyn g = true
  empty : g.payload_len = 0
  unended : g.tcp_flags &&& (kTcpFin ||| kTcpRst) = 0
  untracked : s.conns.find g.key = none
  room : ((s.tick w start).makeRoom w start).conns.size < ((s.tick w start).makeRoom w start).max_flows

/-- When no id comes in twice, the kernel is not told two things of one. -/
theorem told_once (w : World R P) (k : SetVerdict) (r : R) (p : P) (max_flows max_blocked : Nat)
    (turns : List (NFQueue.Event × Time)) (hids : ((arrivals turns).map Packet.id).Nodup) :
    let wk := ((constructed false r p max_flows max_blocked).loop w k turns).2
    ∀ id v v', (id, v) ∈ wk.queue.verdicts → (id, v') ∈ wk.queue.verdicts → v = v' := by
  intro wk id v v' hv hv'
  have htold : wk.queue.verdicts = _ :=
    (constructed_calls w k r p max_flows max_blocked turns).1
  have hperm := (accounted_run w r p max_flows max_blocked (calls turns)).1.perm
  rw [fedBy_calls] at hperm
  have hnodup : (wk.queue.verdicts.map Prod.fst).Nodup := by
    have hall := (hperm.map Prod.fst).nodup_iff.mpr (by rw [List.map_map]; exact hids)
    rw [List.map_append, List.map_map] at hall
    rw [htold, List.map_map]
    exact hall.of_append_left
  exact congrArg Prod.snd (List.inj_on_of_nodup_map hnodup hv hv' rfl)

/-- A blocked name does not get past the kernel. When the client bytes that
are delivered since the SYN first begin with a hello of a blocked name, in at
most 32 packets, the kernel is told to drop each of them; and when no id comes
in twice it is told to accept none. -/
theorem the_kernel_drops_a_blocked_hello (hpolicy : w.decide = workerPolicy b) (hw : EndsOnFin w)
    (k : SetVerdict) (r : R) (p : P) (max_flows max_blocked : Nat)
    (turns : List (NFQueue.Event × Time)) (ops window later : List Op) (start now : Time)
    (syn pkt : Arrival) (g : FlowView) :
    let s := ops.foldl (Op.apply w) (init r p max_flows max_blocked)
    let t := s.feed w start syn.val
    let v := (window.foldl (Op.apply w) t).feed w now pkt.val
    let wk := ((constructed false r p max_flows max_blocked).loop w k turns).2
    calls turns = ops ++ .feed start syn :: (window ++ .feed now pkt :: later) →
    Opens w s start syn g →
    carries pkt.val.tag = some g.key →
    Window g.key start (window ++ [.feed now pkt]) →
    (∀ pre, pre <+: window → ¬ Begins b (since g.key s (pre.foldl (Op.apply w) t))) →
    Begins b (since g.key s v) →
    ∀ x ∈ carried g.key (window ++ [.feed now pkt]), (x.1, .BLOCK) ∈ wk.queue.verdicts ∧
      (((arrivals turns).map Packet.id).Nodup → (x.1, .ALLOW) ∉ wk.queue.verdicts) := by
  intro s t v wk hcalls hopens hpkt hwin hfirst ⟨rs, hrs, hle⟩ x hx
  obtain ⟨ha, hfeed⟩ := accounted_run w r p max_flows max_blocked ops
  obtain ⟨held, -, hdec, hheld⟩ := window_caught hpolicy hrs hw hfeed ha hopens.untracked hopens.flow
    hopens.client hopens.empty hopens.unended hopens.room hpkt hwin
    (fun pre hpre hpart => hfirst pre hpre ⟨rs, hrs, hpart⟩) hle
  have htold : wk.queue.verdicts = _ :=
    (constructed_calls w k r p max_flows max_blocked turns).1
  -- What was decided by the end of the hello is decided in the whole run.
  have hrun : (calls turns).foldl (Op.apply w) (init r p max_flows max_blocked) =
      later.foldl (Op.apply w) v := by
    rw [hcalls, List.foldl_append, List.foldl_cons, List.foldl_append, List.foldl_cons]
    rfl
  have hvfeed : v.feeding = false := by
    have hthrough := (run_decided (w := w) (.feed start syn :: (window ++ [.feed now pkt])) hfeed).2
    rw [List.foldl_cons, List.foldl_append] at hthrough
    exact hthrough
  have hblocked : (x.1, .BLOCK) ∈ wk.queue.verdicts := by
    rw [← hheld] at hx
    obtain ⟨q, hq, rfl⟩ := List.mem_map.mp hx
    have hd : (⟨q, .BLOCK⟩ : Decided) ∈ v.decidedOf g.key := by
      rw [hdec]
      exact List.mem_append_right _ (List.mem_map.mpr ⟨q, hq, rfl⟩)
    have hlater := (run_decided (w := w) later hvfeed).1.subset (List.mem_filter.mp hd).1
    rw [htold, hrun]
    exact List.mem_map.mpr ⟨_, hlater, rfl⟩
  refine ⟨hblocked, fun hids hallowed => ?_⟩
  have hsame := told_once w k r p max_flows max_blocked turns hids x.1 .BLOCK .ALLOW hblocked hallowed
  cases hsame

open traffic in
/-- A client opens a connection and sends its hello, and the worker is
stopped. -/
theorem the_kernel_drops_the_hello_of_e_x :
    let wk := ((constructed false [] () 2 1).loop (world { exact := [host] }) (fun _ _ _ => 0)
      [(.Packets [(0, ⟨some 1, some (syn (client 2) 1).val.bytes⟩),
        (0, ⟨some 2, some (hello (client 2) 2).val.bytes⟩)], 0), (.Stop, 0)]).2
    (2, .BLOCK) ∈ wk.queue.verdicts ∧ (2, .ALLOW) ∉ wk.queue.verdicts := by
  intro wk
  let w := world { exact := [host] }
  let turns : List (NFQueue.Event × Time) := [
    (.Packets [(0, ⟨some 1, some (syn (client 2) 1).val.bytes⟩),
      (0, ⟨some 2, some (hello (client 2) 2).val.bytes⟩)], 0), (.Stop, 0)]
  let first : Arrival := (⟨some 1, some (syn (client 2) 1).val.bytes⟩ : NfqData).arrival
  let second : Arrival := (⟨some 2, some (hello (client 2) 2).val.bytes⟩ : NfqData).arrival
  let s := init ([] : List Link) () 2 1
  let rs : List Record := [⟨1, (client_hello host).drop 5, by decide, by decide⟩]
  have hsyn : ∃ g, flowOf first.val.bytes = some g ∧ g.key = 3561989440 ∧
      isClientSyn g = true ∧ g.payload_len = 0 ∧ g.tcp_flags &&& (kTcpFin ||| kTcpRst) = 0 := by
    decide +kernel
  obtain ⟨g, hg, hk, hclient, hempty, hgfin⟩ := hsyn
  have hopens : Opens w s 0 first g := ⟨hg, hclient, hempty, hgfin, rfl, by decide +kernel⟩
  have hpkt : carries second.val.tag = some g.key := hk ▸ by decide +kernel
  have htags : carried g.key [.feed 0 second] = [second.val.tag] := by
    rw [carried_feed, if_pos hpkt]
  have hfin : ∀ f ∈ flowOf second.val.bytes, f.tcp_flags &&& (kTcpFin ||| kTcpRst) = 0 := by
    decide +kernel
  have hwin : Window g.key 0 [.feed 0 second] := by
    refine ⟨by simp, ?_, ?_, ?_⟩
    · rintro pre op ⟨rest, hrest⟩
      rcases pre with _ | ⟨o, pre⟩
      · obtain ⟨rfl, -⟩ := List.cons.inj hrest
        show (0 : Time) - 0 < kWaitIdleTimeout
        decide
      · simp at hrest
    · intro p hp f hf _
      have hmem : p = second.val := by simpa [fedBy, Op.fed] using hp
      rw [hmem] at hf
      exact hfin f hf
    · rw [htags]
      decide
  have hopen : extractHostname (since g.key s (s.feed w 0 first.val)) = .NeedMore := by
    rw [hk]
    decide +kernel
  have hbegins : Begins { exact := [host] }
      (since g.key s ((s.feed w 0 first.val).feed w 0 second.val)) := by
    rw [hk]
    exact ⟨rs, ⟨by decide +kernel, by decide +kernel, host, by decide +kernel, by decide⟩, [],
      by decide +kernel⟩
  have hlaw := the_kernel_drops_a_blocked_hello (w := w) rfl (world_endsOnFin { exact := [host] })
    (fun _ _ _ => 0) [] () 2 1 turns [] [] [.tick 0, .flush 0] 0 0 first second g rfl hopens hpkt hwin
    (fun pre hpre => by
      rw [List.prefix_nil.mp hpre]
      exact not_begins_of_needMore hopen) hbegins second.val.tag (by
      show second.val.tag ∈ carried g.key [.feed 0 second]
      rw [htags]
      exact List.mem_singleton.mpr rfl)
  exact ⟨hlaw.1, hlaw.2 (by decide +kernel)⟩

end packet_inspector.Worker
