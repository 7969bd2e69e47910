-- Places that code keeps packets in: it moves all that is in one place to
-- another, and destroys what is left there. What a place does with its own
-- packets (a vector that grows) is not followed.
import PacketInspector.Moves

open resources runs

namespace packet_inspector

/-! ## Places -/

/-- Where an object of the worker is: in `handle`, the argument of `feed`, in
the decided buffer, in the held list of a flow, or destroyed. -/
inductive Seat where
  | gone
  | handle
  | argument
  | decided
  | held (key : UInt32)
  deriving DecidableEq

/-- The place of each object, in the order in which they were built. -/
abbrev Hands := List Seat

namespace Hands

/-- The objects in a place. -/
def inSeat (h : Hands) (x : Seat) : List Nat := (List.range h.length).filter (fun i => h[i]? = some x)

/-- Everything in `x` is moved to new objects in `y`. -/
def send (h : Hands) (x y : Seat) : List PacketOp × Hands :=
  ((inSeat h x).map .move_construct, h ++ List.replicate (inSeat h x).length y)

/-- Everything in `x` is destroyed. -/
def clear (h : Hands) (x : Seat) : List PacketOp × Hands :=
  ((inSeat h x).map .destroy, h.map (fun y => if y = x then .gone else y))

theorem mem_inSeat {h : Hands} {x : Seat} {i : Nat} : i ∈ inSeat h x ↔ h[i]? = some x := by
  unfold inSeat
  rw [List.mem_filter, List.mem_range, decide_eq_true_iff, and_iff_right_iff_imp]
  intro hi
  exact (List.getElem?_eq_some_iff.mp hi).1

theorem lt_of_mem_inSeat {h : Hands} {x : Seat} {i : Nat} (hi : i ∈ inSeat h x) : i < h.length :=
  (List.getElem?_eq_some_iff.mp (mem_inSeat.mp hi)).1

theorem inSeat_nodup (h : Hands) (x : Seat) : (inSeat h x).Nodup := List.nodup_range.filter _

/-- Two places have no object in common. -/
theorem inSeat_disjoint {h : Hands} {x y : Seat} (hne : x ≠ y) {i : Nat} (hi : i ∈ inSeat h x) :
    i ∉ inSeat h y := by
  intro hj
  have hsame := (mem_inSeat.mp hi).symm.trans (mem_inSeat.mp hj)
  exact hne (Option.some.inj hsame)

theorem inSeat_append (h more : Hands) (x : Seat) :
    inSeat (h ++ more) x = inSeat h x ++ (inSeat more x).map (h.length + ·) := by
  unfold inSeat
  rw [List.length_append, List.range_add, List.filter_append]
  congr 1
  · refine List.filter_congr (fun i hi => ?_)
    rw [List.getElem?_append_left (List.mem_range.mp hi)]
  · rw [List.filter_map]
    congr 1
    refine List.filter_congr (fun i _ => ?_)
    simp [List.getElem?_append_right]

theorem inSeat_replicate (n : Nat) (x y : Seat) :
    inSeat (List.replicate n y) x = if x = y then List.range n else [] := by
  unfold inSeat
  rw [List.length_replicate]
  split
  · rename_i hxy
    rw [List.filter_eq_self]
    intro i hi
    simp [List.mem_range.mp hi, hxy]
  · rename_i hxy
    rw [List.filter_eq_nil_iff]
    intro i hi
    simp [List.mem_range.mp hi, Ne.symm hxy]

/-- Only the place that is cleared loses its objects. -/
theorem inSeat_clear (h : Hands) (x y : Seat) (hy : y ≠ .gone) :
    inSeat (clear h x).2 y = if y = x then [] else inSeat h y := by
  unfold inSeat clear
  rw [List.length_map]
  split
  · rename_i hxy
    rw [List.filter_eq_nil_iff]
    intro i hi
    subst hxy
    rw [List.getElem?_map]
    cases h[i]? with
    | none => simp
    | some z =>
      by_cases hz : z = y
      · simp [hz, Ne.symm hy]
      · simp [hz]
  · rename_i hxy
    refine List.filter_congr (fun i hi => ?_)
    rw [List.getElem?_map]
    cases h[i]? with
    | none => simp
    | some z =>
      by_cases hz : z = x
      · simp [hz, Ne.symm hy, Ne.symm hxy]
      · simp [hz]

end Hands

/-! ## Operations on many objects -/

namespace Objects

open Hands

variable {k : SetVerdict} {s : Objects}

/-- The packet of an object. -/
def packetAt (s : Objects) (i : Nat) : Option Packet := (s.object i).map PacketObject.packet

theorem run_append (k : SetVerdict) (s : Objects) (ops more : List PacketOp) :
    s.run k (ops ++ more) = (s.run k ops).run k more := List.foldl_append

theorem object_lt {i : Nat} {o : PacketObject} (h : s.object i = some o) : i < s.objects.length :=
  (List.getElem?_eq_some_iff.mp (getElem?_of_object h)).1

/-- An object is moved: it is the last one now, and a husk is left. -/
theorem step_move_construct (k : SetVerdict) {i : Nat} {o : PacketObject} (h : s.object i = some o) :
    let s' := s.step k (.move_construct i)
    s'.objects.length = s.objects.length + 1 ∧ s'.queue = s.queue ∧ s'.lost = s.lost ∧
    (∀ j, j < s.objects.length → s'.object j = if j = i then some .husk else s.object j) ∧
    s'.object s.objects.length = some o := by
  have hstep : s.step k (.move_construct i) =
      { s with objects := s.objects.set i (some .husk) ++ [some o] } := by
    unfold step
    simp only [h]
    rfl
  dsimp only
  rw [hstep]
  refine ⟨by simp, rfl, rfl, fun j hj => ?_, by simp [object]⟩
  unfold object
  dsimp only
  rw [List.getElem?_append_left (by simpa using hj), List.getElem?_set]
  by_cases hji : j = i
  · rw [if_pos hji.symm, if_pos (hji ▸ hj), if_pos hji]
    rfl
  · rw [if_neg (Ne.symm hji), if_neg hji]

/-- Objects that are there are moved one after the other to new ones. -/
theorem run_moves (k : SetVerdict) (is : List Nat) : ∀ {s : Objects}, is.Nodup →
    (∀ i ∈ is, ∃ o, s.object i = some o) →
    let s' := s.run k (is.map .move_construct)
    s'.objects.length = s.objects.length + is.length ∧ s'.queue = s.queue ∧ s'.lost = s.lost ∧
    (∀ j, j < s.objects.length → s'.object j = if j ∈ is then some .husk else s.object j) ∧
    ∀ m, s'.object (s.objects.length + m) = is[m]?.bind s.object := by
  induction is with
  | nil =>
    intro s _ _
    refine ⟨rfl, rfl, rfl, fun j _ => by simp [run], fun m => ?_⟩
    simp [run, object]
  | cons i is ih =>
    intro s hnodup hthere
    obtain ⟨hi, hnodup'⟩ := List.nodup_cons.mp hnodup
    obtain ⟨o, ho⟩ := hthere i (by simp)
    obtain ⟨hlen, hqueue, hlost, hold, hnew⟩ := step_move_construct k ho
    have hkeep : ∀ j ∈ is, (s.step k (.move_construct i)).object j = s.object j := by
      intro j hj
      obtain ⟨o', ho'⟩ := hthere j (by simp [hj])
      have hne : j ≠ i := fun he => hi (he ▸ hj)
      rw [hold j (object_lt ho'), if_neg hne]
    obtain ⟨hlen', hqueue', hlost', hleft, hbuilt⟩ := ih (s := s.step k (.move_construct i)) hnodup'
      (fun j hj => by rw [hkeep j hj]; exact hthere j (by simp [hj]))
    refine ⟨?_, hqueue'.trans hqueue, hlost'.trans hlost, fun j hj => ?_, fun m => ?_⟩
    · refine hlen'.trans ?_
      rw [hlen, List.length_cons]
      omega
    · refine (hleft j (by omega)).trans ?_
      rw [hold j hj]
      by_cases hji : j = i
      · simp [hji]
      · simp [hji]
    · cases m with
      | zero =>
        have hout : s.objects.length ∉ is := by
          intro hm
          obtain ⟨o', ho'⟩ := hthere s.objects.length (List.mem_cons_of_mem i hm)
          exact absurd (object_lt ho') (Nat.lt_irrefl _)
        refine (hleft s.objects.length (by omega)).trans ?_
        rw [if_neg hout, hnew]
        exact ho.symm
      | succ m =>
        have hat := hbuilt m
        rw [hlen, Nat.add_assoc, Nat.add_comm 1] at hat
        refine hat.trans ?_
        rw [List.getElem?_cons_succ]
        cases hm : is[m]? with
        | none => rfl
        | some j => exact hkeep j (List.mem_of_getElem? hm)

/-- An object is destroyed, if it is there, that owes nothing. -/
theorem step_destroy_at (k : SetVerdict) {i : Nat} (h : ∀ o, s.object i = some o → o.owes = []) :
    let s' := s.step k (.destroy i)
    s'.objects.length = s.objects.length ∧ s'.queue = s.queue ∧ s'.lost = s.lost ∧
    ∀ j, s'.object j = if j = i then none else s.object j := by
  cases ho : s.object i with
  | none =>
    have hsame : s.step k (.destroy i) = s := by
      unfold step
      simp only [ho]
    dsimp only
    rw [hsame]
    refine ⟨rfl, rfl, rfl, fun j => ?_⟩
    split
    · rename_i hj
      rw [hj, ho]
    · rfl
  | some o =>
    obtain ⟨hobjects, hlost, hqueue, -⟩ := step_destroy k ho (h o ho)
    obtain ⟨hgone, hothers⟩ := object_destroyed hobjects ho
    refine ⟨by rw [hobjects, List.length_set], hqueue, hlost, fun j => ?_⟩
    split
    · rename_i hj
      rw [hj, hgone]
    · rename_i hj
      exact hothers j hj

/-- Objects that owe nothing are destroyed one after the other. -/
theorem run_destroys (k : SetVerdict) (is : List Nat) : ∀ {s : Objects},
    (∀ i ∈ is, ∀ o, s.object i = some o → o.owes = []) →
    let s' := s.run k (is.map .destroy)
    s'.objects.length = s.objects.length ∧ s'.queue = s.queue ∧ s'.lost = s.lost ∧
    ∀ j, s'.object j = if j ∈ is then none else s.object j := by
  induction is with
  | nil =>
    intro s _
    exact ⟨rfl, rfl, rfl, fun j => by simp [run]⟩
  | cons i is ih =>
    intro s hnone
    obtain ⟨hlen, hqueue, hlost, hat⟩ := step_destroy_at k (hnone i (by simp))
    obtain ⟨hlen', hqueue', hlost', hat'⟩ := ih (s := s.step k (.destroy i)) (by
      intro j hj o ho
      rw [hat j] at ho
      split at ho
      · cases ho
      · exact hnone j (by simp [hj]) o ho)
    refine ⟨hlen'.trans hlen, hqueue'.trans hqueue, hlost'.trans hlost, fun j => ?_⟩
    refine (hat' j).trans ?_
    rw [hat j]
    by_cases hji : j = i
    · simp [hji]
    · simp [hji]

theorem run_reads (k : SetVerdict) (is : List Nat) : ∀ s : Objects,
    ∃ log, s.run k (is.map .read) = { s with log := log } := by
  induction is with
  | nil => exact fun s => ⟨s.log, rfl⟩
  | cons i is ih =>
    intro s
    obtain ⟨log, hlog⟩ : ∃ log, s.step k (.read i) = { s with log := log } := by
      unfold step
      cases ho : s.object i with
      | none =>
        simp only [ho]
        exact ⟨s.log, rfl⟩
      | some o =>
        simp only [ho]
        exact ⟨_, rfl⟩
    obtain ⟨log', hlog'⟩ := ih (s.step k (.read i))
    refine ⟨log', hlog'.trans ?_⟩
    rw [hlog]

theorem step_release_bytes (k : SetVerdict) {i : Nat} {o : PacketObject} (h : s.object i = some o) :
    let s' := s.step k (.release_bytes i)
    s'.objects.length = s.objects.length ∧ s'.queue = s.queue ∧ s'.lost = s.lost ∧
    ∀ j, s'.object j = if j = i then some o.release_bytes else s.object j := by
  have hstep : s.step k (.release_bytes i) = (s.free o).put i o.release_bytes := by
    unfold step
    simp only [h]
    rfl
  dsimp only
  rw [hstep]
  exact ⟨List.length_set, rfl, rfl, object_put (s := s.free o) h o.release_bytes⟩

/-- A packet that owes a verdict is submitted. -/
theorem step_submit_at (k : SetVerdict) {i : Nat} {o : PacketObject} (h : s.object i = some o)
    (hp : o.packet.pending = true) (v : Verdict) :
    let s' := s.step k (.submit i v)
    s'.objects.length = s.objects.length ∧ s'.queue = (s.queue.submit k o.packet v).1 ∧
    s'.lost = s.lost ∧ (∀ j, j ≠ i → s'.object j = s.object j) ∧
    ∃ o', s'.object i = some o' ∧ o'.owes = [] := by
  have hstep : s.step k (.submit i v) =
      { (s.free o).put i (o.submit s.queue k v) with queue := (s.queue.submit k o.packet v).1 } := by
    unfold step
    simp only [h]
    exact if_pos hp
  have hobject := object_put (s := s.free o) h (o.submit s.queue k v)
  dsimp only
  rw [hstep]
  refine ⟨List.length_set, rfl, rfl, fun j hj => (hobject j).trans (if_neg hj), ?_⟩
  exact ⟨_, (hobject i).trans (if_pos rfl), owes_submit s.queue k v hp⟩

/-- Packets that owe a verdict are submitted one after the other. -/
theorem run_submits (k : SetVerdict) (ds : List Decided) : ∀ {is : List Nat} {s : Objects}, is.Nodup →
    is.map s.packetAt = ds.map (fun d => some d.pkt) → (∀ d ∈ ds, d.pkt.pending = true) →
    let s' := s.run k (List.zipWith .submit is (ds.map Decided.verdict))
    s'.objects.length = s.objects.length ∧
    s'.queue = ds.foldl (fun q d => (q.submit k d.pkt d.verdict).1) s.queue ∧ s'.lost = s.lost ∧
    (∀ j, j ∉ is → s'.object j = s.object j) ∧ ∀ i ∈ is, ∃ o, s'.object i = some o ∧ o.owes = [] := by
  induction ds with
  | nil =>
    intro is s _ his _
    have hnil : is = [] := List.map_eq_nil_iff.mp his
    subst hnil
    exact ⟨rfl, rfl, rfl, fun _ _ => rfl, fun i hi => by cases hi⟩
  | cons d ds ih =>
    intro is s hnodup his hds
    cases is with
    | nil => cases his
    | cons i is =>
      obtain ⟨hi, hnodup'⟩ := List.nodup_cons.mp hnodup
      obtain ⟨hat, hrest⟩ := List.cons.inj his
      obtain ⟨o, ho, hpkt⟩ := Option.map_eq_some_iff.mp hat
      obtain ⟨hlen, hqueue, hlost, hothers, hself⟩ :=
        step_submit_at k ho (hpkt ▸ hds d (by simp)) d.verdict
      have hkeep : is.map (s.step k (.submit i d.verdict)).packetAt = ds.map (fun d => some d.pkt) := by
        rw [← hrest]
        refine List.map_congr_left (fun j hj => ?_)
        have hne : j ≠ i := fun he => hi (he ▸ hj)
        unfold packetAt
        rw [hothers j hne]
      obtain ⟨hlen', hqueue', hlost', hothers', hall⟩ := ih (s := s.step k (.submit i d.verdict))
        hnodup' hkeep (fun d' hd' => hds d' (by simp [hd']))
      refine ⟨hlen'.trans hlen, ?_, hlost'.trans hlost, fun j hj => ?_, fun j hj => ?_⟩
      · rw [hqueue, hpkt] at hqueue'
        exact hqueue'
      · have hne : j ≠ i := fun he => hj (by simp [he])
        exact (hothers' j (fun hm => hj (by simp [hm]))).trans (hothers j hne)
      · rcases List.mem_cons.mp hj with rfl | hj
        · obtain ⟨o', ho', howes⟩ := hself
          exact ⟨o', (hothers' j hi).trans ho', howes⟩
        · exact hall j hj

/-! ## What lies where -/

/-- In each place there are these packets, in order, and nothing is left
elsewhere. Nothing was lost, and the queue is `q`. -/
structure Seated (h : Hands) (s : Objects) (f : Seat → List Packet) (q : NFQueue) : Prop where
  length : h.length = s.objects.length
  gone : ∀ i ∈ inSeat h .gone, s.object i = none
  packets : ∀ x, x ≠ .gone → (inSeat h x).map s.packetAt = (f x).map some
  queue : s.queue = q
  lost : s.lost = []

variable {h : Hands} {f : Seat → List Packet} {q : NFQueue} {x y : Seat}

theorem Seated.there (hs : Seated h s f q) (hx : x ≠ .gone) {i : Nat} (hi : i ∈ inSeat h x) :
    ∃ o, s.object i = some o ∧ o.packet ∈ f x := by
  have hm : s.packetAt i ∈ (f x).map some := by
    rw [← hs.packets x hx]
    exact List.mem_map_of_mem hi
  obtain ⟨p, hp, hat⟩ := List.mem_map.mp hm
  obtain ⟨o, ho, rfl⟩ := Option.map_eq_some_iff.mp hat.symm
  exact ⟨o, ho, hp⟩

theorem Seated.count (hs : Seated h s f q) (hx : x ≠ .gone) : (inSeat h x).length = (f x).length := by
  have hlen := congrArg List.length (hs.packets x hx)
  rwa [List.length_map, List.length_map] at hlen

/-- What changes no object, nor the queue, changes no place. -/
theorem Seated.same {s' : Objects} (hs : Seated h s f q) (hobjects : s'.objects = s.objects)
    (hqueue : s'.queue = s.queue) (hlost : s'.lost = s.lost) : Seated h s' f q := by
  have hobject : s'.object = s.object := by
    unfold object
    rw [hobjects]
  refine ⟨by rw [hobjects, hs.length], ?_, ?_, hqueue.trans hs.queue, hlost.trans hs.lost⟩
  · rw [hobject]
    exact hs.gone
  · unfold packetAt
    rw [hobject]
    exact hs.packets

/-- Other packets are in the place `x`. -/
theorem Seated.put {s' : Objects} {ps : List Packet} {q' : NFQueue} (hs : Seated h s f q)
    (hx : x ≠ .gone) (hlen : s'.objects.length = s.objects.length)
    (hothers : ∀ j, j ∉ inSeat h x → s'.object j = s.object j)
    (hps : (inSeat h x).map s'.packetAt = ps.map some) (hqueue : s'.queue = q') (hlost : s'.lost = []) :
    Seated h s' (Function.update f x ps) q' := by
  refine ⟨hs.length.trans hlen.symm, fun i hi => ?_, fun y hy => ?_, hqueue, hlost⟩
  · rw [hothers i (inSeat_disjoint (Ne.symm hx) hi)]
    exact hs.gone i hi
  · by_cases hyx : y = x
    · subst hyx
      rw [Function.update_self]
      exact hps
    · rw [Function.update_of_ne hyx, ← hs.packets y hy]
      refine List.map_congr_left (fun i hi => ?_)
      unfold packetAt
      rw [hothers i (inSeat_disjoint hyx hi)]

/-- A packet comes in. -/
theorem Seated.arrive (k : SetVerdict) (nfa : NfqData) (hs : Seated h s f q) (hnone : f .handle = []) :
    Seated (h ++ [.handle]) (s.step k (.arrive nfa)) (Function.update f .handle [nfa.packet])
      { q with received := q.received + 1 } := by
  have hold : ∀ i, i < s.objects.length → (s.step k (.arrive nfa)).object i = s.object i := by
    intro i hi
    simp [object, step, List.getElem?_append_left hi]
  have hlt : ∀ {z i}, i ∈ inSeat h z → i < s.objects.length :=
    fun hi => hs.length ▸ lt_of_mem_inSeat hi
  have hnew : ∀ z, inSeat [Seat.handle] z = if z = .handle then [0] else [] :=
    fun z => inSeat_replicate 1 z .handle
  refine ⟨?_, fun i hi => ?_, fun z hz => ?_, ?_, hs.lost⟩
  · simp [step, hs.length]
  · rw [inSeat_append, hnew, if_neg (by simp), List.map_nil, List.append_nil] at hi
    rw [hold i (hlt hi)]
    exact hs.gone i hi
  · have hsame : (inSeat h z).map (s.step k (.arrive nfa)).packetAt = (f z).map some := by
      rw [← hs.packets z hz]
      refine List.map_congr_left (fun i hi => ?_)
      unfold packetAt
      rw [hold i (hlt hi)]
    rw [inSeat_append, List.map_append, hsame, hnew]
    by_cases hzh : z = .handle
    · rw [if_pos hzh, hzh, hnone, Function.update_self]
      simp [packetAt, object, step, hs.length, NfqData.object]
    · rw [if_neg hzh, Function.update_of_ne hzh]
      simp
  · show { s.queue with received := s.queue.received + 1 } = _
    rw [hs.queue]

/-- Packets that owe nothing any more. -/
theorem exists_packets {is : List Nat} (h : ∀ i ∈ is, ∃ o, s.object i = some o ∧ o.owes = []) :
    ∃ ps : List Packet, is.map s.packetAt = ps.map some ∧ ∀ p ∈ ps, p.pending = false := by
  induction is with
  | nil => exact ⟨[], rfl, by simp⟩
  | cons i is ih =>
    obtain ⟨o, ho, howes⟩ := h i (by simp)
    obtain ⟨ps, hps, hnone⟩ := ih (fun j hj => h j (by simp [hj]))
    refine ⟨o.packet :: ps, by simp [packetAt, ho, hps], fun p hp => ?_⟩
    rcases List.mem_cons.mp hp with rfl | hp
    · by_contra hpending
      rw [PacketObject.owes, if_pos (by simpa using hpending)] at howes
      cases howes
    · exact hnone p hp

/-- What lies where when all of `x` was moved to `y`. -/
def sent (f : Seat → List Packet) (x y : Seat) (z : Seat) : List Packet :=
  (if z = x then (f x).map (fun _ => .husk) else f z) ++ if z = y then f x else []

theorem Seated.send (k : SetVerdict) (hs : Seated h s f q) (hx : x ≠ .gone) (hy : y ≠ .gone) :
    Seated (Hands.send h x y).2 (s.run k (Hands.send h x y).1) (sent f x y) q := by
  obtain ⟨hlen, hqueue, hlost, hleft, hbuilt⟩ := run_moves k (inSeat h x) (inSeat_nodup h x)
    (fun i hi => (hs.there hx hi).imp (fun _ ho => ho.1))
  unfold Hands.send
  dsimp only
  generalize s.run k ((inSeat h x).map .move_construct) = s' at *
  have hlt : ∀ {z i}, i ∈ inSeat h z → i < s.objects.length :=
    fun hi => hs.length ▸ lt_of_mem_inSeat hi
  refine ⟨?_, fun i hi => ?_, fun z hz => ?_, hqueue.trans hs.queue, hlost.trans hs.lost⟩
  · rw [List.length_append, List.length_replicate, hlen, hs.length]
  · rw [inSeat_append, inSeat_replicate, if_neg (Ne.symm hy), List.map_nil, List.append_nil] at hi
    rw [hleft i (hlt hi), if_neg (inSeat_disjoint (Ne.symm hx) hi)]
    exact hs.gone i hi
  · rw [inSeat_append, inSeat_replicate, List.map_append, sent, List.map_append]
    congr 1
    · by_cases hzx : z = x
      · subst hzx
        have hhusk : (inSeat h z).map s'.packetAt = (inSeat h z).map (fun _ => some Packet.husk) := by
          refine List.map_congr_left (fun i hi => ?_)
          unfold packetAt
          rw [hleft i (hlt hi), if_pos hi]
          rfl
        rw [if_pos rfl, hhusk, List.map_map]
        show _ = (f z).map (fun _ => some Packet.husk)
        rw [List.map_const', List.map_const', hs.count hz]
      · rw [if_neg hzx, ← hs.packets z hz]
        refine List.map_congr_left (fun i hi => ?_)
        unfold packetAt
        rw [hleft i (hlt hi), if_neg (inSeat_disjoint hzx hi)]
    · by_cases hzy : z = y
      · rw [if_pos hzy, if_pos hzy, ← hs.packets x hx, List.map_map]
        refine List.ext_getElem? (fun m => ?_)
        rw [List.getElem?_map, List.getElem?_map]
        by_cases hm : m < (inSeat h x).length
        · have hat := hbuilt m
          rw [List.getElem?_eq_getElem hm] at hat
          rw [List.getElem?_range hm, List.getElem?_eq_getElem hm]
          show some (s'.packetAt (h.length + m)) = _
          unfold packetAt
          rw [hs.length, hat]
          rfl
        · rw [List.getElem?_eq_none (by simpa using hm), List.getElem?_eq_none (by simpa using hm)]
          rfl
      · rw [if_neg hzy, if_neg hzy]
        rfl

/-- What owes nothing any more may be destroyed. -/
theorem Seated.clear (k : SetVerdict) (hs : Seated h s f q) (hx : x ≠ .gone)
    (hnone : ∀ p ∈ f x, p.pending = false) :
    Seated (Hands.clear h x).2 (s.run k (Hands.clear h x).1) (Function.update f x []) q := by
  obtain ⟨hlen, hqueue, hlost, hat⟩ := run_destroys k (inSeat h x) (s := s) (by
    intro i hi o ho
    obtain ⟨o', ho', hm⟩ := hs.there hx hi
    rw [ho] at ho'
    cases ho'
    unfold PacketObject.owes
    rw [hnone _ hm]
    rfl)
  change (s.run k (Hands.clear h x).1).objects.length = _ at hlen
  change (s.run k (Hands.clear h x).1).queue = _ at hqueue
  change (s.run k (Hands.clear h x).1).lost = _ at hlost
  change ∀ j, (s.run k (Hands.clear h x).1).object j = _ at hat
  generalize s.run k (Hands.clear h x).1 = s' at *
  refine ⟨?_, fun i hi => ?_, fun z hz => ?_, hqueue.trans hs.queue, hlost.trans hs.lost⟩
  · rw [hlen, ← hs.length]
    exact List.length_map _
  · rw [hat i]
    split
    · rfl
    · rename_i hix
      refine hs.gone i (mem_inSeat.mpr ?_)
      have hcleared := mem_inSeat.mp hi
      unfold Hands.clear at hcleared
      rw [List.getElem?_map] at hcleared
      obtain ⟨z, hz, hgone⟩ := Option.map_eq_some_iff.mp hcleared
      split at hgone
      · rename_i hzx
        exact absurd (mem_inSeat.mpr (hzx ▸ hz)) hix
      · rw [hz, hgone]
  · rw [inSeat_clear h x z hz]
    by_cases hzx : z = x
    · rw [if_pos hzx, hzx, Function.update_self]
      rfl
    · rw [if_neg hzx, Function.update_of_ne hzx, ← hs.packets z hz]
      refine List.map_congr_left (fun i hi => ?_)
      unfold packetAt
      rw [hat i, if_neg (inSeat_disjoint hzx hi)]

/-- The packets of the objects that are left. -/
def packets (s : Objects) : List Packet := (s.objects.filterMap id).map PacketObject.packet

/-- The key under which an object is held. -/
def heldBy (h : Hands) (i : Nat) : Option UInt32 :=
  match h[i]? with
  | some (.held key) => some key
  | _ => none

/-- The objects that are left. -/
def remaining (s : Objects) : List Nat :=
  (List.range s.objects.length).filter (fun i => (s.object i).isSome)

theorem map_remaining (s : Objects) : s.remaining.map s.packetAt = s.packets.map some := by
  have hall : s.objects = (List.range s.objects.length).map s.object := by
    refine List.ext_getElem? (fun i => ?_)
    rw [List.getElem?_map]
    by_cases hi : i < s.objects.length
    · rw [List.getElem?_range hi, List.getElem?_eq_getElem hi, Option.map_some]
      unfold object
      rw [List.getElem?_eq_getElem hi]
      rfl
    · rw [List.getElem?_eq_none (by omega), List.getElem?_eq_none (by simpa using hi)]
      rfl
  have hlist : ∀ is : List Nat, (is.filter (fun i => (s.object i).isSome)).map s.packetAt =
      (((is.map s.object).filterMap id).map PacketObject.packet).map some := by
    intro is
    induction is with
    | nil => rfl
    | cons i is ih =>
      cases ho : s.object i with
      | none => simpa [ho] using ih
      | some o => simpa [ho, packetAt] using ih
  unfold Objects.packets
  rw [hall]
  exact hlist _

/-- The places are a ledger of the objects that are left. -/
theorem Seated.kept (hs : Seated h s f q) (hhandle : f .handle = []) (hargument : f .argument = []) :
    ledger.Kept (heldBy h) s.remaining ⟨inSeat h .decided, fun key => inSeat h (.held key)⟩ := by
  have hempty : ∀ x, x ≠ .gone → f x = [] → ∀ i : Nat, h[i]? ≠ some x := by
    intro x hx hfx i hi
    have hnone : inSeat h x = [] := List.length_eq_zero_iff.mp (by rw [hs.count hx, hfx]; rfl)
    have hmem := mem_inSeat.mpr hi
    rw [hnone] at hmem
    cases hmem
  have hleft : ∀ (i : Nat) (x : Seat), h[i]? = some x → x ≠ .gone → (s.object i).isSome = true := by
    intro i x hi hx
    obtain ⟨o, ho, -⟩ := hs.there hx (mem_inSeat.mpr hi)
    rw [ho]
    rfl
  refine ⟨fun key i hi => ?_, fun key => ?_, ?_⟩
  · have hseat := mem_inSeat.mp hi
    simp [heldBy, hseat]
  · have hnone : ledger.ofKey (heldBy h) (some key) (inSeat h .decided) = [] := by
      unfold ledger.ofKey
      rw [List.filter_eq_nil_iff]
      intro i hi
      have hseat := mem_inSeat.mp hi
      simp [heldBy, hseat]
    show ledger.ofKey (heldBy h) (some key) (inSeat h .decided) ++ inSeat h (.held key) = _
    rw [hnone, List.nil_append]
    unfold ledger.ofKey inSeat remaining
    rw [List.filter_filter, hs.length]
    refine List.filter_congr (fun i _ => ?_)
    cases hseat : h[i]? with
    | none => simp [heldBy, hseat]
    | some x =>
      cases x with
      | held key' => simp [heldBy, hseat, hleft i _ hseat (by simp)]
      | _ => simp [heldBy, hseat]
  · unfold ledger.ofKey inSeat remaining
    rw [List.filter_filter, List.filter_filter, hs.length]
    refine List.filter_congr (fun i hi => ?_)
    cases hseat : h[i]? with
    | none =>
      have hlt := List.mem_range.mp hi
      rw [← hs.length] at hlt
      rw [List.getElem?_eq_getElem hlt] at hseat
      cases hseat
    | some x =>
      cases x with
      | gone => simp [heldBy, hseat, hs.gone i (mem_inSeat.mpr hseat)]
      | handle => exact absurd hseat (hempty .handle (by simp) hhandle i)
      | argument => exact absurd hseat (hempty .argument (by simp) hargument i)
      | decided => simp [heldBy, hseat, hleft i _ hseat (by simp)]
      | held key' => simp [heldBy, hseat]

/-- The objects that are left are those in the places, each once. -/
theorem Seated.perm (hs : Seated h s f q) (hhandle : f .handle = []) (hargument : f .argument = [])
    {keys : List UInt32} (hnodup : keys.Nodup) (hkeys : ∀ key, f (.held key) ≠ [] → key ∈ keys) :
    s.packets.Perm (f .decided ++ keys.flatMap (fun key => f (.held key))) := by
  have hindices := (hs.kept hhandle hargument).perm hnodup (fun key hne => hkeys key (fun hnil => hne (by
    show inSeat h (.held key) = []
    exact List.length_eq_zero_iff.mp (by rw [hs.count (by simp), hnil]; rfl))))
  have hpackets := hindices.map s.packetAt
  have hheld : keys.flatMap (fun key => (inSeat h (.held key)).map s.packetAt) =
      (keys.flatMap (fun key => f (.held key))).map some := by
    rw [List.map_flatMap]
    exact List.flatMap_congr (fun key _ => hs.packets (.held key) (by simp))
  rw [map_remaining, List.map_append, List.map_flatMap, hs.packets .decided (by simp), hheld,
    ← List.map_append] at hpackets
  have hback := (hpackets.filterMap id).symm
  simpa [List.filterMap_map, Function.comp_def] using hback

end Objects

end packet_inspector
