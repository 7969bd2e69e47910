-- The decided buffer is written and never read by the extractor. So a worker
-- that empties it turn after turn tells the kernel what one extractor decides
-- over the whole run, in the same order.
import PacketInspector.Verdicts

open wire packet_inspector.tls runs

namespace packet_inspector

variable {R P : Type}

namespace TcpTlsHostnameExtractor

variable (w : World R P) (s : TcpTlsHostnameExtractor R P) (ds : List Decided)

/-! ## A buffer with more in front -/

/-- The same extractor, with `ds` in front of what it decided. -/
@[simps] def ahead : TcpTlsHostnameExtractor R P := { s with decided := ds ++ s.decided }

@[simp] theorem ahead_publish : (s.ahead ds).publish = s.publish.ahead ds := rfl

@[simp] theorem ahead_put (key : UInt32) (c : Conn) :
    (s.ahead ds).put key c = (s.put key c).ahead ds := rfl

@[simp] theorem ahead_forget (key : UInt32) :
    (s.ahead ds).forget key = (s.forget key).ahead ds := rfl

@[simp] theorem ahead_clear : (s.ahead ds).clear = s.clear.ahead ds := rfl

@[simp] theorem ahead_log (e : Event) : (s.ahead ds).log e = (s.log e).ahead ds := rfl

@[simp] theorem ahead_turn (key : UInt32) : (s.ahead ds).turn key = (s.turn key).ahead ds := rfl

@[simp] theorem ahead_evict (victim : UInt32) :
    (s.ahead ds).evict victim = (s.evict victim).ahead ds := rfl

@[simp] theorem ahead_oldest : (s.ahead ds).oldest = s.oldest := rfl

@[simp] theorem ahead_blockedConn (key : UInt32) : (s.ahead ds).blockedConn key = s.blockedConn key :=
  rfl

@[simp] theorem ahead_blockedCount : (s.ahead ds).blockedCount = s.blockedCount := rfl

@[simp] theorem ahead_ask (key : UInt32) (hostname : Option Bytes) :
    (s.ahead ds).ask w key hostname = (s.ask w key hostname).ahead ds := rfl

@[simp] theorem ahead_close (c : Conn) : (s.ahead ds).close c = (s.close c).ahead ds := rfl

@[simp] theorem ahead_refuse : (s.ahead ds).refuse = s.refuse.ahead ds := rfl

@[simp] theorem ahead_collect (p : Conn → Bool) : (s.ahead ds).collect w p = s.collect w p := rfl

/-- What is decided goes to the end of the buffer. -/
@[simp] theorem ahead_decide (pkt : Packet) (v : Verdict) :
    (s.ahead ds).decide pkt v = (s.decide pkt v).ahead ds := by
  simp [decide, ahead]

/-- A loop whose turns leave the front of the buffer alone leaves it alone. -/
theorem foldl_ahead {α : Type} {f : TcpTlsHostnameExtractor R P → α → TcpTlsHostnameExtractor R P}
    (hf : ∀ s x, f (s.ahead ds) x = (f s x).ahead ds) (l : List α) :
    l.foldl f (s.ahead ds) = (l.foldl f s).ahead ds :=
  List.foldl_hom (fun s : TcpTlsHostnameExtractor R P => s.ahead ds) hf

@[simp] theorem ahead_release (held : List Packet) (v : Verdict) :
    (s.ahead ds).release held v = (s.release held v).ahead ds :=
  foldl_ahead s ds (fun s p => ahead_decide s ds p v) held

/-! ## The calls -/

@[simp] theorem ahead_remember_blocked (key : UInt32) :
    (s.ahead ds).remember_blocked key = (s.remember_blocked key).ahead ds := by
  rcases remember_blocked_cases s key with ⟨hr, hno⟩ | ⟨hr, hzero, hkey, hblocked⟩
  · rw [hr, remember_blocked, if_neg]
    · rfl
    · rintro ⟨hzero, hkey, hblocked⟩
      rcases hno with h | h | h
      · exact hzero h
      · exact hkey h
      · exact Bool.noConfusion (hblocked.symm.trans h)
  · rw [hr, remember_blocked, if_pos ⟨hzero, hkey, hblocked⟩]
    rfl

theorem ahead_evictTurns (left : Nat) :
    ∀ s : TcpTlsHostnameExtractor R P, evictTurns left (s.ahead ds) =
      ((evictTurns left s).1, (evictTurns left s).2.ahead ds) := by
  induction left with
  | zero => exact fun _ => rfl
  | succ left ih =>
    intro s
    simp only [evictTurns, ahead_oldest, ahead_blockedConn, ahead_turn, ahead_evict, ih]
    split_ifs
    · rfl
    · rfl

/-- A flow is resolved by its entry and the policy alone. -/
@[simp] theorem ahead_resolve (key : UInt32) (hostname : Option Bytes) :
    (s.ahead ds).resolve w key hostname = (s.resolve w key hostname).ahead ds := by
  cases hl : s.conns.find key with
  | none =>
    have hl' : (s.ahead ds).conns.find key = none := hl
    rw [resolve_of_none hostname hl, resolve_of_none hostname hl']
  | some c =>
    have hl' : (s.ahead ds).conns.find key = some c := hl
    cases hc : c.state with
    | Block => rw [resolve_of_block hostname hl hc, resolve_of_block hostname hl' hc]
    | Wait =>
      cases hv : (w.decide s.policy hostname).1 with
      | ALLOW =>
        rw [resolve_allow hl hc hv, resolve_allow hl' hc hv]
        simp
      | BLOCK =>
        rw [resolve_blocked hl hc hv, resolve_blocked hl' hc hv]
        simp

@[simp] theorem ahead_checkStream (key : UInt32) (stream : Bytes) :
    (s.ahead ds).checkStream w key stream = (s.checkStream w key stream).ahead ds := by
  unfold checkStream
  cases extractHostname stream with
  | Found host => exact ahead_resolve w s ds key (some host)
  | NotFound => exact ahead_resolve w s ds key none
  | NeedMore =>
    dsimp only
    split_ifs
    · exact ahead_resolve w s ds key none
    · rfl

@[simp] theorem ahead_callback (cb : Callback) :
    (s.ahead ds).callback w cb = (s.callback w cb).ahead ds := by
  cases cb with
  | start flowKey =>
    simp only [callback, onConnectionStart, ahead_feeding, ahead_conns, ahead_current_key]
    split_ifs
    · rfl
    · cases s.conns.find s.current_key with
      | none => rfl
      | some c => rfl
  | message side flowKey data =>
    simp only [callback, onMessageReady, ahead_feeding, ahead_conns, ahead_current_key]
    split_ifs
    · rfl
    · rfl
    · cases s.conns.find s.current_key with
      | none => rfl
      | some c =>
        dsimp only
        split_ifs
        · rfl
        · rw [ahead_put, ahead_checkStream]
  | finish flowKey =>
    simp only [callback, onConnectionEnd, ahead_feeding, ahead_conns, ahead_current_key]
    split_ifs
    · rfl
    · cases s.conns.find s.current_key with
      | none => rfl
      | some c =>
        dsimp only
        rw [ahead_put, ahead_resolve]

@[simp] theorem ahead_settle (answer : R × List Callback) :
    (s.ahead ds).settle w answer = (s.settle w answer).ahead ds :=
  foldl_ahead { s with reassembly := answer.1 } ds (fun s cb => ahead_callback w s ds cb) answer.2

@[simp] theorem ahead_drain_closes (now : Time) :
    (s.ahead ds).drain_closes w now = (s.drain_closes w now).ahead ds := by
  have hfold := foldl_ahead s ds (f := fun s token =>
    s.settle w (w.closeConnection s.reassembly now token))
    (fun s token => ahead_settle w s ds (w.closeConnection s.reassembly now token)) s.to_close
  unfold drain_closes
  rw [ahead_to_close, hfold]
  rfl

@[simp] theorem ahead_reassemble (now : Time) (key : UInt32) (packet : Bytes) :
    (s.ahead ds).reassemble w now key packet = (s.reassemble w now key packet).ahead ds := by
  have hdeliver : ∀ (s : TcpTlsHostnameExtractor R P) cb,
      (s.ahead ds).deliver w packet cb = (s.deliver w packet cb).ahead ds := by
    intro s cb
    unfold deliver
    rw [ahead_log, ahead_callback]
  have hfold := foldl_ahead { s with
      current_key := key
      feeding := true
      reassembly := (w.reassemblePacket s.reassembly now packet).1 } ds
    (f := fun s cb => s.deliver w packet cb) hdeliver
    (w.reassemblePacket s.reassembly now packet).2
  have hdone : ∀ x : TcpTlsHostnameExtractor R P,
      drain_closes { x.ahead ds with feeding := false } w now =
        (drain_closes { x with feeding := false } w now).ahead ds :=
    fun x => ahead_drain_closes w { x with feeding := false } ds now
  refine Eq.trans ?_ (hdone _)
  rw [← hfold]
  rfl

@[simp] theorem ahead_expire (key : UInt32) :
    (s.ahead ds).expire w key = (s.expire w key).ahead ds := by
  unfold expire
  rw [ahead_conns]
  cases s.conns.find key with
  | none => rfl
  | some c =>
    dsimp only
    split_ifs
    · rfl
    · rw [ahead_resolve]

@[simp] theorem ahead_expireAll (now : Time) :
    (s.ahead ds).expireAll w now = (s.expireAll w now).ahead ds := by
  unfold expireAll
  rw [ahead_collect]
  exact foldl_ahead s ds (fun s key => ahead_expire w s ds key) _

@[simp] theorem ahead_sweep (now : Time) :
    (s.ahead ds).sweep w now = (s.sweep w now).ahead ds := by
  have hexpire := ahead_expireAll w { s with blocked := s.blockedCount } ds now
  have hrest : ∀ x : TcpTlsHostnameExtractor R P,
      (((x.ahead ds).settle w (w.purgeClosedConnections (x.ahead ds).reassembly now)).drain_closes
        w now).publish =
      ((x.settle w (w.purgeClosedConnections x.reassembly now)).drain_closes w now).publish.ahead
        ds := by
    intro x
    rw [ahead_settle, ahead_drain_closes, ahead_publish, ahead_reassembly]
  unfold sweep
  refine Eq.trans ?_ (hrest (expireAll { s with blocked := s.blockedCount } w now))
  rw [← hexpire]
  rfl

@[simp] theorem ahead_tick (now : Time) : (s.ahead ds).tick w now = (s.tick w now).ahead ds := by
  unfold tick
  rw [ahead_lastSweep]
  split_ifs
  · rfl
  · exact ahead_sweep w { s with lastSweep := now } ds now

@[simp] theorem ahead_flush (now : Time) : (s.ahead ds).flush w now = (s.flush w now).ahead ds := by
  have hall : (s.ahead ds).resolveAll w = (s.resolveAll w).ahead ds := by
    unfold resolveAll
    rw [ahead_collect]
    exact foldl_ahead s ds (fun s key => ahead_resolve w s ds key none) _
  unfold flush
  rw [hall, ahead_clear, ahead_drain_closes, ahead_publish]

@[simp] theorem ahead_makeRoom (now : Time) :
    (s.ahead ds).makeRoom w now = (s.makeRoom w now).ahead ds := by
  unfold makeRoom evict_oldest_blocked
  simp only [ahead_tick, ahead_conns, ahead_max_flows, ahead_max_blocked, ahead_evictTurns]
  split_ifs
  · rfl
  · rfl
  · rfl

@[simp] theorem ahead_releaseLast (key : UInt32) :
    (s.ahead ds).releaseLast key = (s.releaseLast key).ahead ds := by
  unfold releaseLast
  rw [ahead_conns]
  cases s.conns.find key with
  | none => rfl
  | some c =>
    dsimp only
    cases c.held.getLast? with
    | none => rfl
    | some p => rfl

@[simp] theorem ahead_feedTracked (now : Time) (pkt : Packet) (f : FlowView) (c : Conn) :
    (s.ahead ds).feedTracked w now pkt f c = (s.feedTracked w now pkt f c).ahead ds := by
  simp only [feedTracked, ahead_put, ahead_resolve, ahead_decide, ahead_reassemble,
    ahead_releaseLast]
  split_ifs
  · rfl
  · rfl
  · rfl
  · rfl

@[simp] theorem ahead_feedUntracked (now : Time) (pkt : Packet) (f : FlowView) :
    (s.ahead ds).feedUntracked w now pkt f = (s.feedUntracked w now pkt f).ahead ds := by
  simp only [feedUntracked, ahead_decide, ahead_makeRoom, ahead_conns, ahead_max_flows,
    ahead_refuse, ahead_log, ahead_feedTracked]
  split_ifs
  · rfl
  · rfl
  · rfl

@[simp] theorem ahead_feedFlow (now : Time) (pkt : Packet) (f : FlowView) :
    (s.ahead ds).feedFlow w now pkt f = (s.feedFlow w now pkt f).ahead ds := by
  unfold feedFlow
  rw [ahead_conns]
  cases s.conns.find f.key with
  | none => exact ahead_feedUntracked w s ds now pkt f
  | some c =>
    dsimp only
    split_ifs
    · rw [ahead_put, ahead_decide]
    · rw [ahead_feedTracked]

@[simp] theorem ahead_feed (now : Time) (pkt : Packet) :
    (s.ahead ds).feed w now pkt = (s.feed w now pkt).ahead ds := by
  simp only [feed, ahead_tick]
  rw [← ahead_publish]
  refine congrArg publish ?_
  split_ifs
  · rw [ahead_decide]
  · cases pkt.flow_view {} with
    | mk dissected f =>
      cases dissected with
      | false => exact ahead_decide (s.tick w now) ds pkt .ALLOW
      | true =>
        dsimp only
        split_ifs
        · rw [ahead_decide]
        · rw [ahead_feedFlow]

/-- No call reads the decided buffer. -/
theorem ahead_apply (op : Op) : op.apply w (s.ahead ds) = (op.apply w s).ahead ds := by
  cases op with
  | feed now pkt => exact ahead_feed w s ds now pkt.val
  | tick now => exact ahead_tick w s ds now
  | flush now => exact ahead_flush w s ds now

theorem ahead_run (ops : List Op) :
    ops.foldl (Op.apply w) (s.ahead ds) = (ops.foldl (Op.apply w) s).ahead ds :=
  foldl_ahead s ds (fun s op => ahead_apply w s ds op) ops

/-- A run that empties the buffer after its first calls decides the same. -/
theorem run_drained (done rest : List Op) :
    (done ++ rest).foldl (Op.apply w) s =
      ahead (rest.foldl (Op.apply w) { done.foldl (Op.apply w) s with decided := [] })
        (done.foldl (Op.apply w) s).decided := by
  have hahead : ∀ x : TcpTlsHostnameExtractor R P,
      x = ahead { x with decided := [] } x.decided := fun x => by simp [ahead]
  rw [List.foldl_append, ← ahead_run, ← hahead]

end TcpTlsHostnameExtractor

end packet_inspector
