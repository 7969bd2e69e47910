-- Runs of a worker whose feeds may throw anywhere: a packet may be lost to an
-- exception, but none is answered twice, and what is lost stays outstanding.
import PacketInspector.KernelView
import PacketInspector.Throwing

open wire packet_inspector.tls runs

namespace packet_inspector

variable {R P : Type}

namespace TcpTlsHostnameExtractor

variable {w : World R P} {s x : TcpTlsHostnameExtractor R P} {L : List (UInt32 × Bytes)}

/-! ## The packets of an extractor -/

/-- The packets that are decided, and those that flows hold. -/
def stock (s : TcpTlsHostnameExtractor R P) : List (UInt32 × Bytes) :=
  s.decided.map (·.pkt.tag) ++ s.conns.entries.flatMap (fun e => e.2.held.map Packet.tag)

/-- The extractor has no packets but those of `L`, and none more often. -/
def Within (L : List (UInt32 × Bytes)) (s : TcpTlsHostnameExtractor R P) : Prop := s.stock.Subperm L

/-- So it is when the flow `key` holds these packets. -/
def Fits (L : List (UInt32 × Bytes)) (s : TcpTlsHostnameExtractor R P) (key : UInt32)
    (held : List Packet) : Prop :=
  ((s.forget key).stock ++ held.map Packet.tag).Subperm L

theorem subperm_map {α β : Type*} (f : α → β) {l l' : List α} (h : l.Subperm l') :
    (l.map f).Subperm (l'.map f) := by
  obtain ⟨part, hperm, hsub⟩ := h
  exact ⟨part.map f, hperm.map f, hsub.map f⟩

theorem stock_congr (hconns : x.conns = s.conns) (hdecided : x.decided = s.decided) :
    x.stock = s.stock := by
  unfold stock
  rw [hconns, hdecided]

theorem Within.same (h : Within L s) (hconns : x.conns = s.conns) (hdecided : x.decided = s.decided) :
    Within L x := by
  unfold Within
  rw [stock_congr hconns hdecided]
  exact h

theorem stock_of_find {key : UInt32} {c : Conn} (h : s.conns.find key = some c) :
    s.stock.Perm ((s.forget key).stock ++ c.held.map Packet.tag) := by
  unfold stock
  have hentries := (AList.entries_perm_erase h).flatMap_right (fun e => e.2.held.map Packet.tag)
  rw [List.flatMap_cons] at hentries
  rw [forget_decided, forget_conns, List.append_assoc]
  exact (hentries.trans List.perm_append_comm).append_left _

theorem stock_put (s : TcpTlsHostnameExtractor R P) (key : UInt32) (c : Conn) :
    (s.put key c).stock.Perm ((s.forget key).stock ++ c.held.map Packet.tag) := by
  unfold stock
  rw [put_decided, put_conns, AList.entries_insert, List.flatMap_cons, forget_decided, forget_conns,
    List.append_assoc]
  exact List.perm_append_comm.append_left _

theorem stock_forget (s : TcpTlsHostnameExtractor R P) (key : UInt32) :
    (s.forget key).stock.Subperm s.stock := by
  unfold stock
  have hsub : (s.forget key).conns.entries.Sublist s.conns.entries := List.kerase_sublist key _
  exact (List.Sublist.append_left (hsub.flatMap _) _).subperm

theorem stock_release (s : TcpTlsHostnameExtractor R P) (held : List Packet) (v : Verdict) :
    (s.release held v).stock.Perm (s.stock ++ held.map Packet.tag) := by
  rw [release_eq]
  unfold stock
  rw [List.map_append, List.map_map, List.append_assoc, List.append_assoc]
  exact List.perm_append_comm.append_left _

theorem Within.forget (h : Within L s) (key : UInt32) : Within L (s.forget key) :=
  (stock_forget s key).trans h

theorem Within.fits {key : UInt32} {c : Conn} (h : Within L s) (hl : s.conns.find key = some c) :
    Fits L s key c.held :=
  (stock_of_find hl).symm.subperm.trans h

theorem Within.fits_nil (h : Within L s) (key : UInt32) : Fits L s key [] := by
  unfold Fits
  rw [List.map_nil, List.append_nil]
  exact h.forget key

theorem Fits.put {key : UInt32} {c : Conn} (h : Fits L s key c.held) : Within L (s.put key c) :=
  (stock_put s key c).subperm.trans h

/-- A packet is taken in, and its flow holds it. -/
theorem Fits.push {key : UInt32} {held : List Packet} (h : Fits L s key held) (p : Packet) :
    Fits (p.tag :: L) s key (held ++ [p]) := by
  unfold Fits
  rw [List.map_append, ← List.append_assoc, List.map_singleton]
  have hcons := (List.subperm_cons p.tag).mpr h
  exact (List.perm_append_singleton _ _).subperm.trans hcons

/-- A packet is taken in, and decided. -/
theorem Within.decide (h : Within L s) (p : Packet) (v : Verdict) : Within (p.tag :: L) (s.decide p v) := by
  have hrelease := stock_release s [p] v
  have hcons := (List.subperm_cons p.tag).mpr h
  exact (hrelease.trans (List.perm_append_singleton _ _)).subperm.trans hcons

theorem Within.cons (h : Within L s) (t : UInt32 × Bytes) : Within (t :: L) s := h.cons_right t

/-! ## What the operations keep -/

theorem Within.remember_blocked (h : Within L s) (key : UInt32) : Within L (s.remember_blocked key) := by
  rcases remember_blocked_cases s key with ⟨hr, -⟩ | ⟨hr, -⟩
  · rw [hr]
    exact h
  · rw [hr]
    exact h.forget s.oldest

/-- A flow that is settled keeps no packet. -/
theorem settleEntry_within (s : TcpTlsHostnameExtractor R P) (w : World R P) (key : UInt32)
    (hostname : Option Bytes) (c : Conn) (v : Verdict) :
    Within (s.forget key).stock (s.settleEntry w key hostname c v) := by
  have hstart : Within (s.forget key).stock ((s.ask w key hostname).forget key) := List.Subperm.refl _
  cases v with
  | ALLOW => exact hstart
  | BLOCK =>
    refine Within.remember_blocked (Fits.put ?_) key
    unfold Fits
    rw [blockConn, List.map_nil, List.append_nil]
    exact hstart

/-- Its packets are let go, or some of them. -/
theorem Fits.release {key : UInt32} {c : Conn} {held : List Packet} (h : Fits L s key c.held)
    (hheld : held.Sublist c.held) (hostname : Option Bytes) (v : Verdict) :
    Within L (((s.settleEntry w key hostname c v).close c).release held v) := by
  have hsettled : ((s.settleEntry w key hostname c v).close c).stock.Subperm (s.forget key).stock :=
    settleEntry_within s w key hostname c v
  have hpart : (held.map Packet.tag).Subperm (c.held.map Packet.tag) := (hheld.map _).subperm
  have hall : ((s.forget key).stock ++ held.map Packet.tag).Subperm L :=
    ((List.subperm_append_left _).mpr hpart).trans h
  exact (stock_release _ held v).subperm.trans (((List.subperm_append_right _).mpr hsettled).trans hall)

theorem resolve_eq_release {key : UInt32} {c : Conn} (hostname : Option Bytes)
    (hl : s.conns.find key = some c) (hc : c.state = .Wait) :
    s.resolve w key hostname = ((s.settleEntry w key hostname c (w.decide s.policy hostname).1).close
      c).release c.held (w.decide s.policy hostname).1 := by
  cases hv : (w.decide s.policy hostname).1 with
  | ALLOW => exact resolve_allow hl hc hv
  | BLOCK => exact resolve_blocked hl hc hv

theorem Within.resolve (h : Within L s) (key : UInt32) (hostname : Option Bytes) :
    Within L (s.resolve w key hostname) := by
  rcases resolve_eq_self_or w s key hostname with ⟨hr, -⟩ | ⟨c, hl, hc⟩
  · rw [hr]
    exact h
  · rw [resolve_eq_release hostname hl hc]
    exact (h.fits hl).release (List.Sublist.refl _) hostname _

theorem Within.checkStream (h : Within L s) (key : UInt32) (stream : Bytes) :
    Within L (s.checkStream w key stream) := by
  unfold TcpTlsHostnameExtractor.checkStream
  split
  · exact h.resolve key _
  · exact h.resolve key _
  · split
    · exact h.resolve key _
    · exact h

/-- An entry is written that holds what it held. -/
theorem Within.put_same {key : UInt32} {c c' : Conn} (h : Within L s) (hl : s.conns.find key = some c)
    (hheld : c'.held = c.held) : Within L (s.put key c') :=
  Fits.put (hheld ▸ h.fits hl)

theorem Within.callback (h : Within L s) (cb : Callback) : Within L (s.callback w cb) := by
  cases cb with
  | start tok =>
    simp only [TcpTlsHostnameExtractor.callback, onConnectionStart]
    split
    · exact h
    · split
      · exact h
      · rename_i c hl
        exact h.put_same hl rfl
  | message side tok data =>
    simp only [TcpTlsHostnameExtractor.callback, onMessageReady]
    split
    · exact h
    · split
      · exact h
      · split
        · exact h
        · rename_i c hl
          split
          · exact h
          · refine Within.checkStream ?_ s.current_key _
            exact h.put_same hl rfl
  | finish tok =>
    simp only [TcpTlsHostnameExtractor.callback, onConnectionEnd]
    split
    · exact h
    · split
      · exact h
      · rename_i c hl
        refine Within.resolve ?_ s.current_key none
        exact h.put_same hl rfl

theorem Within.deliver (h : Within L s) (packet : Bytes) (cb : Callback) :
    Within L (s.deliver w packet cb) := by
  have hlog : Within L (s.log (.callback packet cb)) := h
  exact hlog.callback cb

theorem Within.settle (h : Within L s) (answer : R × List Callback) : Within L (s.settle w answer) := by
  have hstart : Within L { s with reassembly := answer.1 } := h
  exact foldl_keeps (I := Within L) (fun _ cb hx => hx.callback cb) answer.2 _ hstart

theorem Within.drain_closes (h : Within L s) (now : Time) : Within L (s.drain_closes w now) := by
  have hfold := foldl_keeps (I := Within L)
    (f := fun x tok => x.settle w (w.closeConnection x.reassembly now tok))
    (fun _ _ hx => hx.settle _) s.to_close s h
  exact hfold.same rfl rfl

theorem Within.expire (h : Within L s) (key : UInt32) : Within L (s.expire w key) := by
  unfold TcpTlsHostnameExtractor.expire
  split
  · exact h
  · split
    · exact h.forget key
    · exact h.resolve key none

theorem Within.expireAll (h : Within L s) (now : Time) : Within L (s.expireAll w now) :=
  foldl_keeps (I := Within L) (fun _ key hx => hx.expire key) _ s h

theorem Within.sweep (h : Within L s) (now : Time) : Within L (s.sweep w now) := by
  have hcounted : Within L { s with blocked := s.blockedCount } := h
  have hexpired : Within L (TcpTlsHostnameExtractor.expireAll _ w now) := hcounted.expireAll now
  exact ((hexpired.settle _).drain_closes now).same rfl rfl

theorem Within.tick (h : Within L s) (now : Time) : Within L (s.tick w now) := by
  unfold TcpTlsHostnameExtractor.tick
  split
  · exact h
  · have hswept : Within L { s with lastSweep := now } := h
    exact hswept.sweep now

theorem Within.evictTurns (left : Nat) :
    ∀ {s : TcpTlsHostnameExtractor R P}, Within L s → Within L (evictTurns left s).2 := by
  induction left with
  | zero => exact fun h => h
  | succ left ih =>
    intro s h
    have hturn : Within L (s.turn 0) := h
    unfold TcpTlsHostnameExtractor.evictTurns
    split
    · exact hturn.forget s.oldest
    · exact ih hturn

theorem Within.makeRoom (h : Within L s) (now : Time) : Within L (s.makeRoom w now) := by
  unfold TcpTlsHostnameExtractor.makeRoom
  split
  · dsimp only
    split
    · exact Within.evictTurns _ (h.tick now)
    · exact h.tick now
  · exact h

theorem Within.reassemblePoint (h : Within L s) (now : Time) (key : UInt32) (packet : Bytes) :
    Within L (s.reassemblePoint w now key packet) := by
  have hstart : Within L { s with
      current_key := key, feeding := true
      reassembly := (w.reassemblePacket s.reassembly now packet).1 } := h
  have hfold := foldl_keeps (I := Within L) (f := fun x cb => x.deliver w packet cb)
    (fun _ cb hx => hx.deliver packet cb) (w.reassemblePacket s.reassembly now packet).2 _ hstart
  exact hfold.same rfl rfl

theorem Within.reassemble (h : Within L s) (now : Time) (key : UInt32) (packet : Bytes) :
    Within L (s.reassemble w now key packet) := by
  rw [reassemble_drains]
  exact (h.reassemblePoint now key packet).drain_closes now

theorem Within.releaseLast (h : Within L s) (key : UInt32) : Within L (s.releaseLast key) := by
  unfold TcpTlsHostnameExtractor.releaseLast
  split
  · exact h
  · rename_i c hl
    split
    · exact h
    · rename_i p hp
      have htags : (c.held.dropLast ++ [p.release_bytes]).map Packet.tag = c.held.map Packet.tag := by
        conv_rhs => rw [← List.dropLast_append_getLast? p hp]
        rw [List.map_append, List.map_append]
        rfl
      refine Fits.put ?_
      unfold Fits
      rw [htags]
      exact h.fits hl

/-- A waiting flow takes a packet in. -/
theorem Fits.feedTracked {f : FlowView} {c : Conn} (h : Fits L s f.key c.held) (now : Time)
    (pkt : Packet) : Within (pkt.tag :: L) (s.feedTracked w now pkt f c) := by
  have hput : Within L (s.put f.key { c with last := now }) := Fits.put h
  have hl : (s.put f.key { c with last := now }).conns.find f.key = some { c with last := now } := by
    simp
  have hfits := hput.fits hl
  simp only [TcpTlsHostnameExtractor.feedTracked]
  split
  · exact (hput.resolve f.key none).decide pkt .ALLOW
  · split
    · have hpush := hfits.push pkt
      exact ((Fits.put hpush).reassemble now f.key pkt.bytes).releaseLast f.key
    · split
      · exact hput.decide pkt .ALLOW
      · exact (hput.reassemble now f.key pkt.bytes).decide pkt .ALLOW

theorem Within.feed (h : Within L s) (now : Time) (pkt : Packet) :
    Within (pkt.tag :: L) (s.feed w now pkt) := by
  have htick : Within L (s.tick w now) := h.tick now
  unfold TcpTlsHostnameExtractor.feed
  dsimp only
  refine Within.same ?_ rfl rfl
  split
  · exact htick.decide pkt .ALLOW
  · split
    · exact htick.decide pkt .ALLOW
    · rename_i f hf
      split
      · exact htick.decide pkt .ALLOW
      · unfold feedFlow
        split
        · rename_i c hl
          split
          · exact Within.decide (htick.put_same hl rfl) pkt .BLOCK
          · exact (htick.fits hl).feedTracked now pkt
        · unfold feedUntracked
          split
          · exact htick.decide pkt .ALLOW
          · have hroom : Within L ((s.tick w now).makeRoom w now) := htick.makeRoom now
            dsimp only
            split
            · exact Within.decide (hroom.same rfl rfl) pkt .ALLOW
            · have hlog : Within L (((s.tick w now).makeRoom w now).log (.tracked f.key)) := hroom
              exact Fits.feedTracked (c := {}) (hlog.fits_nil f.key) now pkt

/-! ## What is left where one throws -/

theorem resolveThrows_within (h : Within L s) (key : UInt32) (hostname : Option Bytes) :
    ∀ e ∈ s.resolveThrows w key hostname, Within L e.2 := by
  intro e he
  unfold resolveThrows at he
  split at he
  · cases he
  · rename_i c hl
    split at he
    · cases he
    · have hfits := h.fits hl
      simp only [List.cons_append, List.mem_cons, List.mem_append, List.mem_map] at he
      rcases he with rfl | he | ⟨i, -, rfl⟩
      · exact h
      · split at he
        · rw [List.mem_singleton.mp he]
          exact (settleEntry_within s w key hostname c _).trans (h.forget key)
        · cases he
      · exact hfits.release (List.take_sublist i c.held) hostname _

theorem checkStreamThrows_within (h : Within L s) (key : UInt32) (stream : Bytes) :
    ∀ e ∈ s.checkStreamThrows w key stream, Within L e.2 := by
  unfold checkStreamThrows
  split
  · exact resolveThrows_within h key _
  · exact resolveThrows_within h key _
  · split
    · exact resolveThrows_within h key _
    · exact fun e he => by cases he

theorem callbackThrows_within (h : Within L s) (cb : Callback) :
    ∀ e ∈ s.callbackThrows w cb, Within L e.2 := by
  intro e he
  cases cb with
  | start tok => cases he
  | message side tok data =>
    simp only [callbackThrows, onMessageReadyThrows] at he
    split at he
    · cases he
    · split at he
      · cases he
      · split at he
        · cases he
        · rename_i c hl
          split at he
          · cases he
          · rcases List.mem_cons.mp he with rfl | he
            · exact h.put_same hl rfl
            · rcases List.mem_cons.mp he with rfl | he
              · exact h.put_same hl rfl
              · refine checkStreamThrows_within ?_ s.current_key _ e he
                exact h.put_same hl rfl
  | finish tok =>
    simp only [callbackThrows, onConnectionEndThrows] at he
    split at he
    · cases he
    · split at he
      · cases he
      · rename_i c hl
        refine resolveThrows_within ?_ s.current_key none e he
        exact h.put_same hl rfl

theorem settleThrows_within (h : Within L s) (answer : R × List Callback) :
    ∀ e ∈ s.settleThrows w answer, Within L e.2 := by
  have hstart : Within L { s with reassembly := answer.1 } := h
  exact answerThrows_law (I := Within L) (J := fun e => Within L e.2) (fun _ cb hx => hx.callback cb)
    (fun _ hx => hx) (fun _ cb hx => callbackThrows_within hx cb) answer.2 hstart

theorem drainThrows_within (h : Within L s) (now : Time) (toks : List UInt32) :
    ∀ e ∈ drainThrows w now s toks, Within L e.2 :=
  drainThrows_law (I := Within L) (J := fun e => Within L e.2) now (fun _ answer hx => hx.settle answer)
    (fun _ hx => hx) (fun _ answer hx => settleThrows_within hx answer) toks h

theorem expireAllThrows_within (keys : List UInt32) :
    ∀ {s : TcpTlsHostnameExtractor R P}, Within L s →
      ∀ e ∈ s.expireAllThrows w keys, Within L e.2 := by
  induction keys with
  | nil => exact fun _ e he => by cases he
  | cons key keys ih =>
    intro s h e he
    rcases List.mem_append.mp he with he | he
    · unfold expireThrows at he
      split at he
      · cases he
      · split at he
        · cases he
        · exact resolveThrows_within h key none e he
    · exact ih (h.expire key) e he

theorem sweepThrows_within (h : Within L s) (now : Time) :
    ∀ e ∈ s.sweepThrows w now, Within L e.2 := by
  have hcounted : Within L { s with blocked := s.blockedCount } := h
  have hexpired : Within L (TcpTlsHostnameExtractor.expireAll _ w now) := hcounted.expireAll now
  intro e he
  simp only [sweepThrows, List.cons_append, List.mem_cons, List.mem_append] at he
  rcases he with rfl | (he | he) | he
  · exact h
  · exact expireAllThrows_within _ hcounted e he
  · exact settleThrows_within hexpired _ e he
  · exact drainThrows_within (hexpired.settle _) now _ e he

theorem tickThrows_within (h : Within L s) (now : Time) :
    ∀ e ∈ s.tickThrows w now, Within L e.2 := by
  intro e he
  unfold tickThrows at he
  split at he
  · cases he
  · obtain ⟨e', he', rfl⟩ := List.mem_map.mp he
    have hswept : Within L { s with lastSweep := now } := h
    exact sweepThrows_within hswept now e' he'

theorem reassembleThrows_within (h : Within L s) (now : Time) (key : UInt32) (packet : Bytes) :
    ∀ e ∈ s.reassembleThrows w now key packet, Within L e.2 := by
  intro e he
  have hstart : Within L { s with
      current_key := key, feeding := true
      reassembly := (w.reassemblePacket s.reassembly now packet).1 } := h
  rcases List.mem_append.mp he with he | he
  · exact answerThrows_law (I := Within L) (J := fun e => Within L e.2)
      (fun _ cb hx => hx.deliver packet cb) (fun _ hx => hx)
      (fun x cb hx => callbackThrows_within (s := x.log (.callback packet cb)) hx cb) _ hstart e he
  · exact drainThrows_within (h.reassemblePoint now key packet) now _ e he

/-- A throw while a flow takes a packet leaves it held, decided or lost. -/
theorem Fits.feedTrackedThrows {f : FlowView} {c : Conn} (h : Fits L s f.key c.held) (now : Time)
    (pkt : Packet) : ∀ e ∈ s.feedTrackedThrows w now pkt f c, Within (pkt.tag :: L) e.2 := by
  have hput : Within L (s.put f.key { c with last := now }) := Fits.put h
  have hl : (s.put f.key { c with last := now }).conns.find f.key = some { c with last := now } := by
    simp
  have hfits := hput.fits hl
  intro e he
  simp only [TcpTlsHostnameExtractor.feedTrackedThrows] at he
  split at he
  · rcases List.mem_append.mp he with he | he
    · obtain ⟨e', he', rfl⟩ := List.mem_map.mp he
      exact (resolveThrows_within hput f.key none e' he').cons pkt.tag
    · rw [List.mem_singleton.mp he]
      exact (hput.resolve f.key none).cons pkt.tag
  · split at he
    · rcases List.mem_cons.mp he with rfl | he
      · exact hput.cons pkt.tag
      · rcases List.mem_cons.mp he with rfl | he
        · exact hput.cons pkt.tag
        · obtain ⟨e', he', rfl⟩ := List.mem_map.mp he
          exact reassembleThrows_within (Fits.put (hfits.push pkt)) now f.key pkt.bytes e' he'
    · split at he
      · rw [List.mem_singleton.mp he]
        exact hput.cons pkt.tag
      · simp only [List.cons_append, List.mem_cons, List.mem_append, List.mem_map,
          List.not_mem_nil, or_false] at he
        rcases he with rfl | ⟨e', he', rfl⟩ | rfl
        · exact hput.cons pkt.tag
        · exact (reassembleThrows_within hput now f.key pkt.bytes e' he').cons pkt.tag
        · exact (hput.reassemble now f.key pkt.bytes).cons pkt.tag

/-- Wherever a feed throws, it adds at most its packet. -/
theorem feedThrows_within (h : Within L s) (now : Time) (pkt : Packet) :
    ∀ e ∈ s.feedThrows w now pkt, Within (pkt.tag :: L) e.2 := by
  have htick : Within L (s.tick w now) := h.tick now
  intro e he
  unfold feedThrows at he
  rcases List.mem_append.mp he with he | he
  · exact (tickThrows_within h now e he).cons pkt.tag
  · split at he
    · rw [List.mem_singleton.mp he]
      exact htick.cons pkt.tag
    · split at he
      · rw [List.mem_singleton.mp he]
        exact htick.cons pkt.tag
      · rename_i f hf
        split at he
        · rw [List.mem_singleton.mp he]
          exact htick.cons pkt.tag
        · unfold feedFlowThrows at he
          split at he
          · rename_i c hl
            split at he
            · rw [List.mem_singleton.mp he]
              exact Within.cons (htick.put_same hl rfl) pkt.tag
            · exact (htick.fits hl).feedTrackedThrows now pkt e he
          · unfold feedUntrackedThrows at he
            split at he
            · rw [List.mem_singleton.mp he]
              exact htick.cons pkt.tag
            · have hroom : Within L ((s.tick w now).makeRoom w now) := htick.makeRoom now
              rcases List.mem_append.mp he with he | he
              · unfold makeRoomThrows at he
                split at he
                · exact (tickThrows_within htick now e he).cons pkt.tag
                · cases he
              · split at he
                · rw [List.mem_singleton.mp he]
                  exact Within.cons (hroom.same rfl rfl) pkt.tag
                · rcases List.mem_cons.mp he with rfl | he
                  · exact hroom.cons pkt.tag
                  · have hlog : Within L (((s.tick w now).makeRoom w now).log (.tracked f.key)) :=
                      hroom
                    exact Fits.feedTrackedThrows (c := {}) (hlog.fits_nil f.key) now pkt e he

/-! ## The end of a loop -/

theorem callback_of_empty (h : s.conns = ∅) (cb : Callback) : s.callback w cb = s := by
  have hnone : s.conns.find s.current_key = none := by simp [h]
  cases cb with
  | start tok => simp [TcpTlsHostnameExtractor.callback, onConnectionStart, hnone]
  | message side tok data => simp [TcpTlsHostnameExtractor.callback, onMessageReady, hnone]
  | finish tok => simp [TcpTlsHostnameExtractor.callback, onConnectionEnd, hnone]

/-- A flush leaves no flow, also when an exception has left `feeding` set. -/
theorem flush_empties (s : TcpTlsHostnameExtractor R P) (w : World R P) (now : Time) :
    (s.flush w now).conns = ∅ := by
  have hsettle : ∀ (x : TcpTlsHostnameExtractor R P) (answer : R × List Callback), x.conns = ∅ →
      (x.settle w answer).conns = ∅ := by
    intro x answer hx
    refine foldl_keeps (I := fun x : TcpTlsHostnameExtractor R P => x.conns = ∅)
      (fun y cb hy => ?_) answer.2 _ hx
    rw [callback_of_empty hy cb]
    exact hy
  exact foldl_keeps (I := fun x : TcpTlsHostnameExtractor R P => x.conns = ∅)
    (fun y tok hy => hsettle y _ hy) (s.flushPoint w).to_close (s.flushPoint w) rfl

theorem Within.flush (h : Within L s) (now : Time) : Within L (s.flush w now) := by
  have hresolved : Within L (s.resolveAll w) :=
    foldl_keeps (I := Within L) (fun _ key hx => hx.resolve key none) _ s h
  have hclear : Within L (s.resolveAll w).clear := by
    refine List.Subperm.trans (List.Sublist.subperm ?_) hresolved
    simp [stock]
  exact (hclear.drain_closes now).same rfl rfl

end TcpTlsHostnameExtractor

/-! ## The worker -/

/-- A submit tells the kernel of its packet, or of none. -/
theorem NFQueue.submit_tells (q : NFQueue) (k : SetVerdict) (pkt : Packet) (v : Verdict) :
    let q' := (q.submit k pkt v).1
    (q'.verdicts.map Prod.fst).Sublist (q.verdicts.map Prod.fst ++ [pkt.id]) ∧
    (q.verdicted ≤ q.verdicts.length → q'.verdicted ≤ q'.verdicts.length) ∧
    q'.received = q.received ∧ q'.undecided = q.undecided := by
  intro q'
  by_cases hp : pkt.pending = false
  · have hq : q' = q := congrArg Prod.fst (if_pos hp)
    rw [hq]
    exact ⟨List.sublist_append_left _ _, id, rfl, rfl⟩
  · have hq : q' = { q with
        verdicted := if k q.verdicts pkt.id v ≥ 0 then q.verdicted + 1 else q.verdicted
        verdicts := q.verdicts ++ [(pkt.id, v)] } := congrArg Prod.fst (if_neg hp)
    rw [hq]
    refine ⟨by simp, fun hle => ?_, rfl, rfl⟩
    dsimp only
    rw [List.length_append, List.length_singleton]
    split <;> omega

/-- So do the submits of a buffer, one after another. -/
theorem NFQueue.submits_tell (k : SetVerdict) (ds : List Decided) : ∀ q : NFQueue,
    let q' := ds.foldl (fun q d => (q.submit k d.pkt d.verdict).1) q
    (q'.verdicts.map Prod.fst).Sublist (q.verdicts.map Prod.fst ++ ds.map (·.pkt.id)) ∧
    (q.verdicted ≤ q.verdicts.length → q'.verdicted ≤ q'.verdicts.length) ∧
    q'.received = q.received ∧ q'.undecided = q.undecided := by
  induction ds with
  | nil => simp
  | cons d ds ih =>
    intro q
    obtain ⟨htold, hverdicted, hreceived, hundecided⟩ := q.submit_tells k d.pkt d.verdict
    obtain ⟨htold', hverdicted', hreceived', hundecided'⟩ := ih (q.submit k d.pkt d.verdict).1
    refine ⟨?_, fun hle => hverdicted' (hverdicted hle), hreceived'.trans hreceived,
      hundecided'.trans hundecided⟩
    have hboth := htold'.trans (htold.append_right _)
    rw [List.append_assoc] at hboth
    exact hboth

namespace Worker

open TcpTlsHostnameExtractor

variable {w : World R P} {k : SetVerdict} {wk wk' : Worker R P} {arrived : List Packet}

/-- The packets of a receive buffer, one after another: any of them may have
an exception thrown in its feed. -/
inductive Batch (w : World R P) (k : SetVerdict) :
    Worker R P → List (Time × NfqData) → Worker R P → Prop
  | done (wk : Worker R P) : Batch w k wk [] wk
  | next {wk wk' wk'' : Worker R P} {now : Time} {nfa : NfqData} {outcome : Option Point}
      {batch : List (Time × NfqData)} : Handled w k wk now nfa outcome wk' →
      Batch w k wk' batch wk'' → Batch w k wk ((now, nfa) :: batch) wk''

/-- The loop, where the handlers may throw. What `tick`, `drain_decided` and
`flush` throw is caught by nobody, so there is no state after it. -/
inductive Looping (w : World R P) (k : SetVerdict) :
    Worker R P → List (NFQueue.Event × Time) → Bool → Worker R P → Prop
  | running (wk : Worker R P) : Looping w k wk [] false wk
  | stopped (wk : Worker R P) (now : Time) (turns : List (NFQueue.Event × Time)) :
      Looping w k wk ((.Stop, now) :: turns) true (wk.finish w k now)
  | failed (wk : Worker R P) (now : Time) (turns : List (NFQueue.Event × Time)) :
      Looping w k wk ((.Error, now) :: turns) true (wk.finish w k now)
  | idle {wk wk' : Worker R P} {now : Time} {turns : List (NFQueue.Event × Time)} {ended : Bool} :
      Looping w k (wk.turn w k .Idle now) turns ended wk' →
      Looping w k wk ((.Idle, now) :: turns) ended wk'
  | drained {wk wk' wk'' : Worker R P} {now : Time} {batch : List (Time × NfqData)}
      {turns : List (NFQueue.Event × Time)} {ended : Bool} : Batch w k wk batch wk' →
      Looping w k (wk'.turn w k .Idle now) turns ended wk'' →
      Looping w k wk ((.Packets batch, now) :: turns) ended wk''

/-- A buffer in which nothing throws is one of these, -/
theorem batch_run_once (w : World R P) (k : SetVerdict) (batch : List (Time × NfqData)) :
    ∀ wk : Worker R P, Batch w k wk batch (wk.run_once w k (.Packets batch)) := by
  induction batch with
  | nil => exact fun wk => .done wk
  | cons x batch ih => exact fun wk => .next .returned (ih (wk.handle w k x.1 x.2))

/-- and so is such a loop. -/
theorem looping_loop (w : World R P) (k : SetVerdict) (turns : List (NFQueue.Event × Time)) :
    ∀ wk : Worker R P, Looping w k wk turns (wk.loop w k turns).1 (wk.loop w k turns).2 := by
  induction turns with
  | nil => exact fun wk => .running wk
  | cons t turns ih =>
    intro wk
    obtain ⟨ev, now⟩ := t
    cases ev with
    | Stop => exact .stopped wk now turns
    | Error => exact .failed wk now turns
    | Idle => exact .idle (ih (wk.turn w k .Idle now))
    | Packets batch => exact .drained (batch_run_once w k batch wk) (ih (wk.turn w k (.Packets batch) now))

/-- What a worker owes to the packets that arrived, whatever was thrown: it
told the kernel of each at most once, and of none that it still has. -/
structure Careless (arrived : List Packet) (wk : Worker R P) : Prop where
  mode : wk.passthrough = false
  told : (wk.queue.verdicts.map Prod.fst ++ wk.tls.stock.map Prod.fst).Subperm (arrived.map Packet.id)
  received : wk.queue.received = arrived.length
  verdicted : wk.queue.verdicted ≤ wk.queue.verdicts.length
  undecided : wk.queue.undecided = 0

/-- A packet is taken in. -/
theorem Careless.takes (h : Careless arrived wk) (pkt : Packet) {x : TcpTlsHostnameExtractor R P}
    (hx : Within (pkt.tag :: wk.tls.stock) x) :
    Careless (arrived ++ [pkt]) { wk.receive with tls := x } := by
  refine ⟨h.mode, ?_, by simp [receive, h.received], h.verdicted, h.undecided⟩
  have hstock : (x.stock.map Prod.fst).Subperm (pkt.id :: wk.tls.stock.map Prod.fst) :=
    subperm_map Prod.fst hx
  have hmore := (List.subperm_append_left (wk.queue.verdicts.map Prod.fst)).mpr hstock
  have htold := (List.subperm_append_right [pkt.id]).mpr h.told
  rw [List.map_append]
  refine hmore.trans (List.Subperm.trans (List.Perm.subperm ?_) htold)
  rw [List.append_assoc]
  exact (List.perm_append_singleton _ _).symm.append_left _

/-- The fail-safe finds nothing to do: it sees what a move has left. -/
theorem Careless.handled (h : Careless arrived wk) {now : Time} {nfa : NfqData}
    {outcome : Option Point} (hh : Handled w k wk now nfa outcome wk') :
    Careless (arrived ++ [nfa.packet]) wk' := by
  have hself : Within wk.tls.stock wk.tls := List.Subperm.refl _
  cases hh with
  | returned =>
    rw [handle_inspecting w k now nfa h.mode]
    exact h.takes nfa.packet (hself.feed now nfa.packet)
  | threw pt x hx =>
    have hunwound : wk.unwind k x = { wk.receive with tls := x.publish } := rfl
    rw [hunwound]
    exact h.takes nfa.packet (feedThrows_within hself now nfa.packet _ hx)

theorem Careless.batch {batch : List (Time × NfqData)} (hb : Batch w k wk batch wk') :
    ∀ {arrived : List Packet}, Careless arrived wk →
      Careless (arrived ++ NFQueue.Event.received (.Packets batch)) wk' := by
  induction hb with
  | done wk =>
    intro arrived h
    rw [NFQueue.Event.received, List.map_nil, List.append_nil]
    exact h
  | next hh hb ih =>
    intro arrived h
    have hrest := ih (h.handled hh)
    rw [List.append_assoc] at hrest
    exact hrest

/-- What is decided is told or let go. -/
theorem Careless.drains (h : Careless arrived wk) {x : TcpTlsHostnameExtractor R P}
    (hx : Within wk.tls.stock x) : Careless arrived (drain_decided { wk with tls := x } k) := by
  obtain ⟨htold, hverdicted, hreceived, hundecided⟩ := wk.queue.submits_tell k x.decided
  refine ⟨h.mode, ?_, hreceived.trans h.received, hverdicted h.verdicted, hundecided.trans h.undecided⟩
  have hids : x.stock.map Prod.fst = x.decided.map (·.pkt.id) ++
      (stock { x with decided := [] }).map Prod.fst := by
    simp [stock, Function.comp_def, Packet.tag]
  have hstock := (List.subperm_append_left (wk.queue.verdicts.map Prod.fst)).mpr (subperm_map Prod.fst hx)
  rw [hids, ← List.append_assoc] at hstock
  exact ((htold.append_right _).subperm.trans hstock).trans h.told

theorem Careless.turn (h : Careless arrived wk) (now : Time) :
    Careless arrived (wk.turn w k .Idle now) := by
  have hself : Within wk.tls.stock wk.tls := List.Subperm.refl _
  exact h.drains (hself.tick now)

theorem Careless.finish (h : Careless arrived wk) (now : Time) :
    Careless arrived (wk.finish w k now) := by
  have hself : Within wk.tls.stock wk.tls := List.Subperm.refl _
  exact h.drains (hself.flush now)

/-- A loop that ends keeps no packet. -/
theorem finish_stock (w : World R P) (k : SetVerdict) (wk : Worker R P) (now : Time) :
    (wk.finish w k now).tls.stock = [] := by
  have hempty := flush_empties wk.tls w now
  unfold Worker.finish drain_decided stock
  dsimp only
  rw [hempty]
  rfl

theorem Careless.looping {turns : List (NFQueue.Event × Time)} {ended : Bool}
    (hl : Looping w k wk turns ended wk') : ∀ {arrived : List Packet}, Careless arrived wk →
      Careless (arrived ++ arrivals turns) wk' ∧ (ended = true → wk'.tls.stock = []) := by
  induction hl with
  | running wk =>
    intro arrived h
    exact ⟨by simpa [arrivals] using h, by simp⟩
  | stopped wk now turns =>
    intro arrived h
    exact ⟨by simpa [arrivals] using h.finish now, fun _ => finish_stock w k wk now⟩
  | failed wk now turns =>
    intro arrived h
    exact ⟨by simpa [arrivals] using h.finish now, fun _ => finish_stock w k wk now⟩
  | idle hl ih =>
    intro arrived h
    exact ih (h.turn _)
  | drained hb hl ih =>
    intro arrived h
    have hrest := ih ((h.batch hb).turn _)
    rw [List.append_assoc] at hrest
    exact hrest

/-- Whatever is thrown in the feeds of a worker, and whatever the kernel says,
every packet that arrived is told once, kept, or lost. The counter of undecided
packets stays 0 all the same. At most what was told is counted as verdicted, so
that what is kept and what is lost stay outstanding. A loop that ends keeps
none. -/
theorem no_packet_is_answered_twice_whatever_throws (w : World R P) (k : SetVerdict) (r : R) (p : P)
    (max_flows max_blocked : Nat) {turns : List (NFQueue.Event × Time)} {ended : Bool}
    (h : Looping w k (constructed false r p max_flows max_blocked) turns ended wk) :
    let told := wk.queue.verdicts.map Prod.fst
    let kept := wk.tls.stock.map Prod.fst
    ∃ lost : List UInt32, (told ++ kept ++ lost).Perm ((arrivals turns).map Packet.id) ∧
    (((arrivals turns).map Packet.id).Nodup → told.Nodup ∧ ∀ id ∈ told, id ∉ kept ∧ id ∉ lost) ∧
    wk.queue.undecided = 0 ∧ wk.queue.received = (arrivals turns).length ∧
    wk.queue.verdicted ≤ told.length ∧
    wk.queue.verdicted + kept.length + lost.length ≤ wk.queue.received ∧
    (ended = true → kept = []) := by
  intro told kept
  have hstart : Careless [] (constructed false r p max_flows max_blocked) :=
    ⟨rfl, List.Subperm.refl _, rfl, Nat.le_refl 0, rfl⟩
  obtain ⟨hc, hend⟩ := hstart.looping h
  rw [List.nil_append] at hc
  obtain ⟨found, hperm, hsub⟩ := hc.told
  obtain ⟨lost, hlost⟩ := hsub.exists_perm_append
  have hall : (told ++ kept ++ lost).Perm ((arrivals turns).map Packet.id) :=
    ((hperm.append_right lost).symm).trans hlost.symm
  have hverdicted : wk.queue.verdicted ≤ told.length :=
    hc.verdicted.trans (List.length_map _).ge
  refine ⟨lost, hall, fun hids => ?_, hc.undecided, hc.received, hverdicted, ?_, fun he => ?_⟩
  · have hthree := hall.nodup_iff.mpr hids
    obtain ⟨hboth, -, hlosts⟩ := List.nodup_append.mp hthree
    obtain ⟨htold, -, hkepts⟩ := List.nodup_append.mp hboth
    exact ⟨htold, fun id hid => ⟨fun hkept => hkepts id hid id hkept rfl,
      fun hlost => hlosts id (List.mem_append_left _ hid) id hlost rfl⟩⟩
  · have hlength : told.length + kept.length + lost.length = wk.queue.received := by
      rw [hc.received, ← List.length_map (f := Packet.id), ← hall.length_eq, List.length_append,
        List.length_append]
    omega
  · show wk.tls.stock.map Prod.fst = []
    rw [hend he, List.map_nil]

open traffic in
/-- There is no memory for the entry of a new flow, and the worker is stopped:
its SYN was received, and nobody counts it as undecided. -/
theorem a_lost_syn_is_not_undecided : ∃ wk, Looping (world {}) (fun _ _ _ => 0)
    (constructed false [] () 2 1)
    [(.Packets [(0, ⟨some 1, some (syn (client 2) 1).val.bytes⟩)], 0), (.Stop, 0)] true wk ∧
    wk.queue.undecided = 0 ∧ wk.queue.received = 1 ∧ wk.tls.stock.map Prod.fst = [] := by
  let start : Worker (List Link) Unit := constructed false [] () 2 1
  let nfa : NfqData := ⟨some 1, some (syn (client 2) 1).val.bytes⟩
  have hpoint : Point.insert ∈ (start.tls.feedThrows (world {}) 0 nfa.packet).map (·.1) := by
    decide +kernel
  obtain ⟨⟨pt, x⟩, hx, -⟩ := List.mem_map.mp hpoint
  have hthrew : Handled (world {}) (fun _ _ _ => 0) start 0 nfa (some pt) (start.unwind _ x) :=
    .threw pt x hx
  have hlooping : Looping (world {}) (fun _ _ _ => 0) start [(.Packets [(0, nfa)], 0), (.Stop, 0)]
      true _ := .drained (.next hthrew (.done _)) (.stopped _ 0 [])
  obtain ⟨lost, hall, -, hundecided, hreceived, hverdicted, -, hkept⟩ :=
    no_packet_is_answered_twice_whatever_throws (world {}) (fun _ _ _ => 0) [] () 2 1 hlooping
  exact ⟨_, hlooping, hundecided, hreceived, hkept rfl⟩

end Worker

end packet_inspector
