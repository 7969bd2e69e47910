-- The objects of class `Packet` in the hands of any code: which of them owns
-- a buffer, which of them owes a verdict, and what may still be read.
import PacketInspector.Outstanding
import PacketInspector.Resources

open wire resources runs

namespace packet_inspector

/-! ## Objects -/

/-- Memory that a packet may point into: the receive buffer, as one `recv`
filled it, and the buffers on the heap, in the order of their making. -/
inductive Mem where
  | rx (n : Nat)
  | heap (n : Nat)
  deriving DecidableEq

/-- A packet with the memory behind its bytes, if it has any. -/
structure PacketObject where
  packet : Packet
  mem : Option Mem
  fits : (packet.storage = .shell ∧ mem = none) ∨ (packet.storage = .view ∧ ∃ n, mem = some (.rx n)) ∨
    (packet.storage = .owned ∧ ∃ n, mem = some (.heap n))

namespace PacketObject

variable (o : PacketObject)

/-- Built by the default constructor, or moved from. -/
def husk : PacketObject := ⟨Packet.husk, none, .inl ⟨rfl, rfl⟩⟩

def release_bytes : PacketObject := ⟨o.packet.release_bytes, none, .inl ⟨rfl, rfl⟩⟩

def set_verdict (v : Verdict) : PacketObject := ⟨{ o.packet with verdict := v }, o.mem, o.fits⟩

/-- The bytes are copied into the buffer `n`, when there are any to copy. -/
def materialize (n : Nat) : PacketObject :=
  if o.packet.storage = .view then
    if o.packet.bytes = [] then o.release_bytes
    else ⟨{ o.packet with storage := .owned }, some (.heap n), .inr (.inr ⟨rfl, n, rfl⟩)⟩
  else o

theorem submit_storage (q : NFQueue) (k : SetVerdict) (v : Verdict) (h : o.packet.pending = true) :
    (q.submit k o.packet v).2.storage = .shell := by
  unfold NFQueue.submit
  rw [if_neg (by simp [h])]
  rfl

def submit (q : NFQueue) (k : SetVerdict) (v : Verdict) : PacketObject :=
  if h : o.packet.pending = true then
    ⟨(q.submit k o.packet v).2, none, .inl ⟨o.submit_storage q k v h, rfl⟩⟩
  else o

/-- The buffer that the object owns. -/
def buffer : List Nat :=
  match o.mem with
  | some (.heap n) => [n]
  | _ => []

/-- The filling of the receive buffer that it points into. -/
def view : List Nat :=
  match o.mem with
  | some (.rx n) => [n]
  | _ => []

/-- The id that it owes a verdict for. -/
def owes : List UInt32 := if o.packet.pending then [o.packet.id] else []

theorem owes_materialize (n : Nat) : (o.materialize n).owes = o.owes := by
  unfold materialize
  split_ifs <;> rfl

theorem buffer_cases : o.buffer = [] ∨ ∃ n, o.buffer = [n] := by
  unfold buffer
  split
  · exact .inr ⟨_, rfl⟩
  · exact .inl rfl

/-- What is submitted has no bytes left. -/
theorem mem_submit (q : NFQueue) (k : SetVerdict) (v : Verdict) (h : o.packet.pending = true) :
    (o.submit q k v).mem = none := by
  unfold submit
  rw [dif_pos h]

end PacketObject

/-- The object that `handle` builds over the receive buffer. -/
def NfqData.object (nfa : NfqData) (recv : Nat) : PacketObject where
  packet := nfa.packet
  mem := if nfa.packet.storage = .view then some (.rx recv) else none
  fits := by
    have hstorage : nfa.packet.storage = .shell ∨ nfa.packet.storage = .view := by
      unfold NfqData.packet
      cases nfa.payload with
      | none => exact .inl rfl
      | some data =>
        dsimp only
        split
        · exact .inr rfl
        · exact .inl rfl
    rcases hstorage with h | h
    · exact .inl ⟨h, by rw [h]; rfl⟩
    · exact .inr (.inl ⟨h, recv, by rw [h]; rfl⟩)

/-! ## The hands they are in -/

/-- The objects that code has built, and nothing where one was destroyed. The
last three fields are histories: the ids that came in, those of packets that
were dropped while they still owed a verdict, and the uses of memory. -/
structure Objects where
  objects : List (Option PacketObject) := []
  recv : Nat := 0
  made : Nat := 0
  queue : NFQueue := {}
  arrived : List UInt32 := []
  lost : List UInt32 := []
  log : List (Use Mem) := [.acquire (.rx 0)]

/-- What code can do with packets. Objects are named by the order in which
they were built; what names none does nothing. -/
inductive PacketOp where
  | recv
  | arrive (nfa : NfqData)
  | construct
  | move_construct (src : Nat)
  | move_assign (dst src : Nat)
  | materialize (i : Nat)
  | read (i : Nat)
  | release_bytes (i : Nat)
  | set_verdict (i : Nat) (v : Verdict)
  | submit (i : Nat) (v : Verdict)
  | fail_safe (i : Nat)
  | destroy (i : Nat)

namespace Objects

def object (s : Objects) (i : Nat) : Option PacketObject := s.objects[i]?.join

def put (s : Objects) (i : Nat) (o : PacketObject) : Objects :=
  { s with objects := s.objects.set i (some o) }

def use (s : Objects) (uses : List (Use Mem)) : Objects := { s with log := s.log ++ uses }

/-- The buffer that an object owns is freed. -/
def free (s : Objects) (o : PacketObject) : Objects := s.use (o.buffer.map (fun n => .release (.heap n)))

/-- What an object holds is gone for good. -/
def drop (s : Objects) (o : PacketObject) : Objects := { s.free o with lost := s.lost ++ o.owes }

/-- The one copy in the pipeline. -/
def materialize (s : Objects) (i : Nat) (o : PacketObject) : Objects :=
  if o.packet.storage = .view ∧ o.packet.bytes ≠ [] then
    { (s.put i (o.materialize s.made)).use (o.mem.toList.map .use ++ [.acquire (.heap s.made)]) with
      made := s.made + 1 }
  else s.put i (o.materialize s.made)

/-- `NFQueue::submit`. It frees the bytes of what it tells the kernel of. -/
def submit (s : Objects) (k : SetVerdict) (i : Nat) (o : PacketObject) (v : Verdict) : Objects :=
  if o.packet.pending then
    { (s.free o).put i (o.submit s.queue k v) with queue := (s.queue.submit k o.packet v).1 }
  else s

/-- The end of `handle`: a packet that still owes a verdict is let through. -/
def fail_safe (s : Objects) (k : SetVerdict) (i : Nat) (o : PacketObject) : Objects :=
  if o.packet.pending then
    Objects.submit { s with queue := { s.queue with undecided := s.queue.undecided + 1 } } k i o .ALLOW
  else s

/-- One operation on the object that it is about. -/
def act (s : Objects) (k : SetVerdict) (i : Nat) (o : PacketObject) : PacketOp → Objects
  | .move_construct _ => { s with objects := s.objects.set i (some .husk) ++ [some o] }
  | .materialize _ => s.materialize i o
  | .read _ => s.use (o.mem.toList.map .use)
  | .release_bytes _ => (s.free o).put i o.release_bytes
  | .set_verdict _ v => s.put i (o.set_verdict v)
  | .submit _ v => s.submit k i o v
  | .fail_safe _ => s.fail_safe k i o
  | .destroy _ => { s.drop o with objects := s.objects.set i none }
  | _ => s

def step (k : SetVerdict) (s : Objects) (op : PacketOp) : Objects :=
  match op with
  | .recv =>
    { s.use [.release (.rx s.recv), .acquire (.rx (s.recv + 1))] with recv := s.recv + 1 }
  | .arrive nfa =>
    { s with
      objects := s.objects ++ [some (nfa.object s.recv)]
      queue := { s.queue with received := s.queue.received + 1 }
      arrived := s.arrived ++ [nfa.packet.id] }
  | .construct => { s with objects := s.objects ++ [some .husk] }
  | .move_assign dst src =>
    if dst = src then s
    else
      match s.object dst, s.object src with
      | some old, some o => ((s.drop old).put dst o).put src .husk
      | _, _ => s
  | .move_construct i | .materialize i | .read i | .release_bytes i | .set_verdict i _
  | .submit i _ | .fail_safe i | .destroy i =>
    match s.object i with
    | some o => s.act k i o op
    | none => s

def run (k : SetVerdict) (s : Objects) (ops : List PacketOp) : Objects := ops.foldl (step k) s

/-- What all objects give together. -/
def contents {τ : Type} (f : PacketObject → List τ) (l : List (Option PacketObject)) : List τ :=
  l.flatMap (fun o => o.elim [] f)

/-- The ids that the objects owe a verdict for. -/
def owing (s : Objects) : List UInt32 := contents PacketObject.owes s.objects

/-- The buffers that the objects own. -/
def buffers (s : Objects) : List Nat := contents PacketObject.buffer s.objects

/-- The fillings of the receive buffer that they point into. -/
def views (s : Objects) : List Nat := contents PacketObject.view s.objects

/-! ## What the objects give -/

variable {k : SetVerdict} {s : Objects} {i : Nat} {o : PacketObject}

section Contents

variable {τ : Type} (f : PacketObject → List τ)

theorem contents_built (l : List (Option PacketObject)) (o : PacketObject) :
    contents f (l ++ [some o]) = contents f l ++ f o := by
  simp [contents]

/-- Where one slot is written, what it gave is exchanged for what it gives. -/
theorem count_set [BEq τ] {l : List (Option PacketObject)} (h : l[i]? = some (some o))
    (x : Option PacketObject) (t : τ) :
    (f o).count t + (contents f (l.set i x)).count t =
      (x.elim [] f).count t + (contents f l).count t := by
  unfold contents
  induction l generalizing i with
  | nil => cases h
  | cons z l ih =>
    cases i with
    | zero =>
      cases h
      simp only [List.set_cons_zero, List.flatMap_cons, List.count_append, Option.elim_some]
      omega
    | succ i =>
      have htail := ih h
      simp only [List.set_cons_succ, List.flatMap_cons, List.count_append]
      omega

end Contents

theorem getElem?_of_object (h : s.object i = some o) : s.objects[i]? = some (some o) := by
  unfold object at h
  cases hs : s.objects[i]? with
  | none => rw [hs] at h; cases h
  | some x =>
    rw [hs] at h
    exact congrArg some h

/-- A packet moves from one object to another, which held something else. -/
theorem count_moved {dst src : Nat} {old : PacketObject} {τ : Type} [BEq τ]
    (f : PacketObject → List τ) (hf : f .husk = []) (hne : dst ≠ src)
    (hdst : s.object dst = some old) (hsrc : s.object src = some o) (t : τ) :
    (f old).count t + (contents f ((s.objects.set dst (some o)).set src (some .husk))).count t =
      (contents f s.objects).count t := by
  have hsrc' : (s.objects.set dst (some o))[src]? = some (some o) := by
    rw [List.getElem?_set_ne hne]
    exact getElem?_of_object hsrc
  have hput := count_set f (getElem?_of_object hdst) (some o) t
  have hhusk := count_set f hsrc' (some .husk) t
  simp only [Option.elim_some, hf, List.count_nil] at hput hhusk
  omega

/-! ## Ids -/

/-- Every id is as often verdicted, owed or lost as it came in. -/
def Accounted (s : Objects) : Prop := ∀ id, s.arrived.count id =
  (s.queue.verdicts.map Prod.fst).count id + s.owing.count id + s.lost.count id

theorem owes_submit (q : NFQueue) (k : SetVerdict) (v : Verdict) (h : o.packet.pending = true) :
    (o.submit q k v).owes = [] := by
  unfold PacketObject.owes PacketObject.submit
  rw [dif_pos h]
  unfold NFQueue.submit
  rw [if_neg (by simp [h])]

theorem verdicts_submit (q : NFQueue) (k : SetVerdict) (v : Verdict) (h : o.packet.pending = true) :
    (q.submit k o.packet v).1.verdicts.map Prod.fst = q.verdicts.map Prod.fst ++ o.owes := by
  unfold NFQueue.submit PacketObject.owes
  rw [if_neg (by simp [h]), if_pos h, List.map_append]
  simp [Packet.release_bytes]

/-- An object that owes what it owed is written. -/
theorem Accounted.put (h : s.Accounted) (ho : s.object i = some o) {o' : PacketObject}
    (howes : o'.owes = o.owes) : (s.put i o').Accounted := by
  intro id
  have hset := count_set PacketObject.owes (getElem?_of_object ho) (some o') id
  have hid := h id
  simp only [Option.elim_some, howes] at hset
  unfold owing at hid ⊢
  simp only [Objects.put]
  omega

theorem Accounted.submit (h : s.Accounted) (ho : s.object i = some o) (v : Verdict) :
    (s.submit k i o v).Accounted := by
  unfold Objects.submit
  split
  · rename_i hp
    intro id
    have hset := count_set PacketObject.owes (getElem?_of_object ho) (some (o.submit s.queue k v)) id
    have hid := h id
    simp only [Option.elim_some, owes_submit s.queue k v hp, List.count_nil] at hset
    unfold owing at hid ⊢
    simp only [Objects.put, free, use, verdicts_submit s.queue k v hp, List.count_append]
    omega
  · exact h

theorem act_accounted (op : PacketOp) (ho : s.object i = some o) (h : s.Accounted) :
    (s.act k i o op).Accounted := by
  cases op with
  | move_construct src =>
    intro id
    have hset := count_set PacketObject.owes (getElem?_of_object ho) (some .husk) id
    have hid := h id
    have hhusk : PacketObject.husk.owes = [] := rfl
    unfold owing at hid ⊢
    simp only [act, contents_built, List.count_append]
    simp only [Option.elim_some, hhusk, List.count_nil] at hset
    omega
  | materialize j =>
    have hput := h.put ho (o.owes_materialize s.made)
    show (s.materialize i o).Accounted
    unfold Objects.materialize
    split
    · exact hput
    · exact hput
  | read j => exact h
  | release_bytes j => exact Accounted.put (s := s.free o) h ho rfl
  | set_verdict j v => exact h.put ho rfl
  | submit j v => exact h.submit ho v
  | fail_safe j =>
    show (s.fail_safe k i o).Accounted
    unfold fail_safe
    split
    · exact Accounted.submit (s := { s with queue := { s.queue with undecided := s.queue.undecided + 1 } })
        h ho .ALLOW
    · exact h
  | destroy j =>
    intro id
    have hset := count_set PacketObject.owes (getElem?_of_object ho) none id
    have hid := h id
    simp only [Option.elim_none, List.count_nil] at hset
    unfold owing at hid ⊢
    simp only [act, drop, free, use, List.count_append]
    omega
  | _ => exact h

theorem step_accounted (k : SetVerdict) (s : Objects) (op : PacketOp) (h : s.Accounted) :
    (s.step k op).Accounted := by
  have hact : ∀ i, (match s.object i with
      | some o => s.act k i o op
      | none => s).Accounted := by
    intro i
    cases ho : s.object i with
    | none => exact h
    | some o => exact act_accounted op ho h
  cases op with
  | recv => exact h
  | arrive nfa =>
    intro id
    have hid := h id
    have howes : (nfa.object s.recv).owes = [nfa.packet.id] := if_pos nfa.packet_pending
    unfold owing at hid ⊢
    simp only [step, contents_built, howes, List.count_append]
    omega
  | construct =>
    intro id
    have hid := h id
    unfold owing at hid ⊢
    simp only [step, contents_built]
    exact (List.append_nil _).symm ▸ hid
  | move_assign dst src =>
    unfold step
    dsimp only
    split_ifs with hsame
    · exact h
    · cases hdst : s.object dst with
      | none => exact h
      | some old =>
        cases hsrc : s.object src with
        | none => exact h
        | some o =>
          intro id
          have hid := h id
          have hmoved := count_moved PacketObject.owes rfl hsame hdst hsrc id
          unfold owing at hid ⊢
          simp only [Objects.put, drop, free, use, List.count_append]
          omega
  | move_construct i => exact hact i
  | materialize i => exact hact i
  | read i => exact hact i
  | release_bytes i => exact hact i
  | set_verdict i v => exact hact i
  | submit i v => exact hact i
  | fail_safe i => exact hact i
  | destroy i => exact hact i

theorem run_accounted (k : SetVerdict) (ops : List PacketOp) : (run k {} ops).Accounted :=
  foldl_keeps (step_accounted k) ops {} (fun _ => rfl)

/-! ## Memory -/

/-- The uses of memory so far are in order: what is held is the receive
buffer and the buffers of the objects, each of which one object owns, and
every view is over what the last `recv` left. -/
structure Held (s : Objects) : Prop where
  tracked : ∃ held, track (fun _ => none) ∅ s.log = some held ∧
    ∀ m, m ∈ held ↔ m = .rx s.recv ∨ ∃ n ∈ s.buffers, m = .heap n
  single : ∀ n, s.buffers.count n ≤ 1
  below : ∀ n ∈ s.buffers, n < s.made
  fresh : ∀ n ∈ s.views, n = s.recv

/-- At most one buffer is freed, and otherwise packets are moved or dropped. -/
theorem Held.freed {s' : Objects} (h : s.Held) {freed : List Nat} (hone : freed = [] ∨ ∃ n, freed = [n])
    (hlog : s'.log = s.log ++ freed.map (fun n => .release (.heap n))) (hrecv : s'.recv = s.recv)
    (hmade : s'.made = s.made) (hbuffers : ∀ n, freed.count n + s'.buffers.count n = s.buffers.count n)
    (hviews : ∀ n ∈ s'.views, n ∈ s.views) : s'.Held := by
  have hsub : ∀ n ∈ s'.buffers, n ∈ s.buffers := by
    intro n hn
    have hpos := List.count_pos_iff.mpr hn
    have hcount := hbuffers n
    exact List.count_pos_iff.mp (by omega)
  have hsingle : ∀ n, s'.buffers.count n ≤ 1 := by
    intro n
    have hcount := hbuffers n
    have hle := h.single n
    omega
  refine ⟨?_, hsingle, fun n hn => ?_, fun n hn => ?_⟩
  · obtain ⟨held, htrack, hheld⟩ := h.tracked
    rw [hlog, hrecv, track_trans htrack]
    rcases hone with rfl | ⟨b, rfl⟩
    · refine ⟨held, rfl, fun m => ?_⟩
      have hiff : ∀ n, n ∈ s'.buffers ↔ n ∈ s.buffers := by
        intro n
        rw [← List.count_pos_iff, ← List.count_pos_iff, ← hbuffers n, List.count_nil, Nat.zero_add]
      simp only [hheld, hiff]
    · have hb : s.buffers.count b ≤ 1 := h.single b
      have hcount := hbuffers b
      rw [List.count_singleton_self] at hcount
      have hmem : .heap b ∈ held := (hheld _).mpr (.inr ⟨b, List.count_pos_iff.mp (by omega), rfl⟩)
      rw [List.map_singleton, track_release hmem (by simp)]
      refine ⟨_, rfl, fun m => ?_⟩
      have hiff : ∀ n, n ∈ s'.buffers ↔ n ∈ s.buffers ∧ n ≠ b := by
        intro n
        have hn := hbuffers n
        rw [← List.count_pos_iff, ← List.count_pos_iff]
        by_cases he : n = b
        · subst he
          rw [List.count_singleton_self] at hn
          exact ⟨fun hpos => by omega, fun hpos => absurd rfl hpos.2⟩
        · rw [List.count_singleton, if_neg (by simpa using Ne.symm he)] at hn
          exact ⟨fun hpos => ⟨by omega, he⟩, fun hpos => by omega⟩
      rw [Finset.mem_erase, hheld]
      simp only [hiff]
      constructor
      · rintro ⟨hne, rfl | ⟨n, hn, rfl⟩⟩
        · exact .inl rfl
        · exact .inr ⟨n, ⟨hn, fun he => hne (he ▸ rfl)⟩, rfl⟩
      · rintro (rfl | ⟨n, ⟨hn, hne⟩, rfl⟩)
        · exact ⟨by simp, .inl rfl⟩
        · exact ⟨fun he => hne (Mem.heap.inj he), .inr ⟨n, hn, rfl⟩⟩
  · rw [hmade]
    exact h.below n (hsub n hn)
  · rw [hrecv]
    exact h.fresh n (hviews n hn)

theorem mem_contents {τ : Type} {f : PacketObject → List τ} {l : List (Option PacketObject)} {t : τ} :
    t ∈ contents f l ↔ ∃ o, some o ∈ l ∧ t ∈ f o := by
  unfold contents
  rw [List.mem_flatMap]
  constructor
  · rintro ⟨x, hx, ht⟩
    cases x with
    | none => cases ht
    | some o => exact ⟨o, hx, ht⟩
  · rintro ⟨o, ho, ht⟩
    exact ⟨some o, ho, ht⟩

theorem mem_set {τ : Type} {f : PacketObject → List τ} {l : List (Option PacketObject)}
    {x : Option PacketObject} {t : τ} (h : t ∈ contents f (l.set i x)) :
    t ∈ x.elim [] f ∨ t ∈ contents f l := by
  obtain ⟨o, ho, ht⟩ := mem_contents.mp h
  rcases List.mem_or_eq_of_mem_set ho with ho | rfl
  · exact .inr (mem_contents.mpr ⟨o, ho, ht⟩)
  · exact .inl ht

/-- An object that owns and sees no more than it did is written. -/
theorem Held.put (h : s.Held) (ho : s.object i = some o) {o' : PacketObject}
    (hbuffer : o'.buffer = o.buffer) (hview : ∀ n ∈ o'.view, n ∈ o.view) : (s.put i o').Held := by
  refine h.freed (.inl rfl) (List.append_nil _).symm rfl rfl (fun n => ?_) (fun n hn => ?_)
  · have hset := count_set PacketObject.buffer (getElem?_of_object ho) (some o') n
    simp only [Option.elim_some, hbuffer] at hset
    unfold buffers
    simp only [Objects.put, List.count_nil]
    omega
  · rcases mem_set hn with hn | hn
    · exact mem_contents.mpr ⟨o, List.mem_of_getElem? (getElem?_of_object ho), hview n hn⟩
    · exact hn

/-- An object gives its buffer back, and keeps no bytes. -/
theorem Held.let_go (h : s.Held) (ho : s.object i = some o) {s' : Objects} {x : Option PacketObject}
    (hobjects : s'.objects = s.objects.set i x)
    (hlog : s'.log = s.log ++ o.buffer.map (fun n => .release (.heap n))) (hrecv : s'.recv = s.recv)
    (hmade : s'.made = s.made) (hbuffer : x.elim [] PacketObject.buffer = [])
    (hview : x.elim [] PacketObject.view = []) : s'.Held := by
  refine h.freed o.buffer_cases hlog hrecv hmade (fun n => ?_) (fun n hn => ?_)
  · have hset := count_set PacketObject.buffer (getElem?_of_object ho) x n
    rw [hbuffer, List.count_nil, Nat.zero_add] at hset
    unfold buffers
    rw [hobjects, hset]
  · unfold views at hn
    rw [hobjects] at hn
    rcases mem_set hn with hn | hn
    · rw [hview] at hn
      cases hn
    · exact hn

/-- What an object points into is held. -/
theorem Held.mem_held (h : s.Held) (ho : s.object i = some o) {held : Finset Mem}
    (hheld : ∀ m, m ∈ held ↔ m = .rx s.recv ∨ ∃ n ∈ s.buffers, m = .heap n) {m : Mem}
    (hm : o.mem = some m) : m ∈ held := by
  have hin := List.mem_of_getElem? (getElem?_of_object ho)
  cases m with
  | rx n =>
    have hview : n ∈ o.view := by simp [PacketObject.view, hm]
    rw [h.fresh n (mem_contents.mpr ⟨o, hin, hview⟩)]
    exact (hheld _).mpr (.inl rfl)
  | heap n =>
    have hbuffer : n ∈ o.buffer := by simp [PacketObject.buffer, hm]
    exact (hheld _).mpr (.inr ⟨n, mem_contents.mpr ⟨o, hin, hbuffer⟩, rfl⟩)

/-- Bytes are read where they are. -/
theorem Held.read (h : s.Held) (ho : s.object i = some o) : (s.use (o.mem.toList.map .use)).Held := by
  refine ⟨?_, h.single, h.below, h.fresh⟩
  obtain ⟨held, htrack, hheld⟩ := h.tracked
  refine ⟨held, ?_, hheld⟩
  show track _ ∅ (s.log ++ _) = _
  rw [track_trans htrack]
  exact track_uses (fun m hm => h.mem_held ho hheld (Option.mem_toList.mp hm))

/-- A new buffer is owned by the object that it was made for. -/
theorem count_made (h : s.Held) (ho : s.object i = some o) {o' : PacketObject}
    (hold : o.buffer = []) (hnew : o'.buffer = [s.made]) (n : Nat) :
    (s.put i o').buffers.count n = [s.made].count n + s.buffers.count n ∧
      (s.put i o').buffers.count n ≤ 1 := by
  have hset := count_set PacketObject.buffer (getElem?_of_object ho) (some o') n
  rw [hold, List.count_nil, Nat.zero_add, Option.elim_some, hnew] at hset
  have hcount : (s.put i o').buffers.count n = [s.made].count n + s.buffers.count n := hset
  refine ⟨hcount, ?_⟩
  have hout : s.made ∉ s.buffers := fun hin => Nat.lt_irrefl _ (h.below _ hin)
  have hle := h.single n
  rw [hcount]
  by_cases he : n = s.made
  · rw [he, List.count_singleton_self, List.count_eq_zero.mpr hout]
  · rw [List.count_singleton, if_neg (by simpa using Ne.symm he)]
    omega

/-- A view is copied into a new buffer. -/
theorem Held.copied (h : s.Held) (ho : s.object i = some o) {o' : PacketObject} {r : Nat}
    (hold : o.mem = some (.rx r)) (hnew : o'.mem = some (.heap s.made)) :
    { (s.put i o').use [.use (.rx r), .acquire (.heap s.made)] with made := s.made + 1 }.Held := by
  have hbuffer : o'.buffer = [s.made] := by simp [PacketObject.buffer, hnew]
  have hcount := fun n => count_made h ho (by simp [PacketObject.buffer, hold]) hbuffer n
  have hiff : ∀ n, n ∈ (s.put i o').buffers ↔ n = s.made ∨ n ∈ s.buffers := by
    intro n
    rw [← List.count_pos_iff, (hcount n).1, ← List.count_append, List.count_pos_iff]
    simp
  refine ⟨?_, fun n => (hcount n).2, fun n hn => ?_, fun n hn => ?_⟩
  · obtain ⟨held, htrack, hheld⟩ := h.tracked
    have hfree : .heap s.made ∉ held := by
      rw [hheld]
      rintro (he | ⟨n, hn, he⟩)
      · cases he
      · exact Nat.lt_irrefl _ (Mem.heap.inj he ▸ h.below n hn)
    refine ⟨insert (.heap s.made) held, ?_, fun m => ?_⟩
    · show track _ ∅ (s.log ++ [.use (.rx r), .acquire (.heap s.made)]) = _
      rw [track_trans htrack, track_use (h.mem_held ho hheld hold), track_acquire hfree (by simp),
        track_nil]
    · show m ∈ insert (Mem.heap s.made) held ↔ m = .rx s.recv ∨ ∃ n ∈ (s.put i o').buffers, m = .heap n
      simp only [Finset.mem_insert, hheld, hiff]
      constructor
      · rintro (rfl | rfl | ⟨n, hn, rfl⟩)
        · exact .inr ⟨_, .inl rfl, rfl⟩
        · exact .inl rfl
        · exact .inr ⟨n, .inr hn, rfl⟩
      · rintro (rfl | ⟨n, rfl | hn, rfl⟩)
        · exact .inr (.inl rfl)
        · exact .inl rfl
        · exact .inr (.inr ⟨n, hn, rfl⟩)
  · rcases (hiff n).mp hn with rfl | hn
    · exact Nat.lt_succ_self _
    · exact (h.below n hn).trans (Nat.lt_succ_self _)
  · rcases mem_set hn with hn | hn
    · simp [PacketObject.view, hnew] at hn
    · exact h.fresh n hn

/-- What is not a view stays as it is, and a view of nothing becomes a
shell. -/
theorem Held.materialize (h : s.Held) (ho : s.object i = some o) : (s.materialize i o).Held := by
  unfold Objects.materialize
  by_cases hview : o.packet.storage = .view
  · obtain ⟨r, hmem⟩ : ∃ r, o.mem = some (.rx r) := by
      rcases o.fits with ⟨hs, -⟩ | ⟨-, hm⟩ | ⟨hs, -⟩
      · rw [hview] at hs
        cases hs
      · exact hm
      · rw [hview] at hs
        cases hs
    by_cases hne : o.packet.bytes = []
    · have hshell : o.materialize s.made = o.release_bytes := by
        unfold PacketObject.materialize
        rw [if_pos hview, if_pos hne]
      rw [if_neg (fun hboth => hboth.2 hne), hshell]
      refine h.put ho ?_ (fun n hn => ?_)
      · simp [PacketObject.buffer, PacketObject.release_bytes, hmem]
      · simp [PacketObject.view, PacketObject.release_bytes] at hn
    · have hnew : (o.materialize s.made).mem = some (.heap s.made) := by
        unfold PacketObject.materialize
        rw [if_pos hview, if_neg hne]
      rw [if_pos ⟨hview, hne⟩, hmem]
      exact h.copied ho hmem hnew
  · have hsame : o.materialize s.made = o := if_neg hview
    rw [if_neg (fun hboth => hview hboth.1), hsame]
    exact h.put ho rfl (fun n hn => hn)

theorem Held.submit (h : s.Held) (ho : s.object i = some o) (v : Verdict) : (s.submit k i o v).Held := by
  unfold Objects.submit
  split
  · rename_i hp
    have hmem := o.mem_submit s.queue k v hp
    exact h.let_go ho rfl rfl rfl rfl (by simp [PacketObject.buffer, hmem])
      (by simp [PacketObject.view, hmem])
  · exact h

theorem act_held (op : PacketOp) (ho : s.object i = some o) (h : s.Held) : (s.act k i o op).Held := by
  cases op with
  | move_construct src =>
    have hcount := fun {τ : Type} [BEq τ] (f : PacketObject → List τ) t =>
      count_set f (getElem?_of_object ho) (some .husk) t
    refine h.freed (.inl rfl) (List.append_nil _).symm rfl rfl (fun n => ?_) (fun n hn => ?_)
    · have hn := hcount PacketObject.buffer n
      simp only [Option.elim_some, show PacketObject.husk.buffer = [] from rfl, List.count_nil] at hn
      unfold buffers
      simp only [act, contents_built, List.count_append, List.count_nil]
      omega
    · have hn' := hcount PacketObject.view n
      rw [Option.elim_some, show PacketObject.husk.view = [] from rfl, List.count_nil] at hn'
      have hpos := List.count_pos_iff.mpr hn
      unfold views at hpos ⊢
      simp only [act, contents_built, List.count_append] at hpos
      exact List.count_pos_iff.mp (by omega)
  | materialize j => exact h.materialize ho
  | read j => exact h.read ho
  | release_bytes j => exact h.let_go ho rfl rfl rfl rfl rfl rfl
  | set_verdict j v => exact h.put ho rfl (fun n hn => hn)
  | submit j v => exact h.submit ho v
  | fail_safe j =>
    show (s.fail_safe k i o).Held
    unfold fail_safe
    split
    · exact Held.submit (s := { s with queue := { s.queue with undecided := s.queue.undecided + 1 } })
        ⟨h.tracked, h.single, h.below, h.fresh⟩ ho .ALLOW
    · exact h
  | destroy j => exact h.let_go ho rfl rfl rfl rfl rfl rfl
  | _ => exact h

/-- Before the receive buffer is filled anew, no object points into it. -/
def Careful (s : Objects) : PacketOp → Prop
  | .recv => s.views = []
  | _ => True

theorem Held.arrive (h : s.Held) (nfa : NfqData) : (s.step k (.arrive nfa)).Held := by
  have hbuffers : (s.step k (.arrive nfa)).buffers = s.buffers := by
    have hnone : (nfa.object s.recv).buffer = [] := by
      unfold PacketObject.buffer NfqData.object
      dsimp only
      split_ifs <;> rfl
    unfold buffers
    simp [step, contents_built, hnone]
  refine ⟨?_, ?_, ?_, fun n hn => ?_⟩
  · rw [hbuffers]
    exact h.tracked
  · rw [hbuffers]
    exact h.single
  · rw [hbuffers]
    exact h.below
  · unfold views at hn
    simp only [step, contents_built, List.mem_append] at hn
    rcases hn with hn | hn
    · exact h.fresh n hn
    · unfold PacketObject.view NfqData.object at hn
      split at hn
      · rename_i r hr
        obtain ⟨-, hr⟩ := Option.ite_none_right_eq_some.mp hr
        cases hr
        exact List.mem_singleton.mp hn
      · cases hn

theorem step_held (k : SetVerdict) {op : PacketOp} (hop : s.Careful op) (h : s.Held) :
    (s.step k op).Held := by
  have hact : ∀ i, (match s.object i with
      | some o => s.act k i o op
      | none => s).Held := by
    intro i
    cases ho : s.object i with
    | none => exact h
    | some o => exact act_held op ho h
  cases op with
  | recv =>
    obtain ⟨held, htrack, hheld⟩ := h.tracked
    have hviews : s.views = [] := hop
    refine ⟨⟨insert (.rx (s.recv + 1)) (held.erase (.rx s.recv)), ?_, fun m => ?_⟩, h.single, h.below, ?_⟩
    · show track _ ∅ (s.log ++ [.release (.rx s.recv), .acquire (.rx (s.recv + 1))]) = _
      have hnew : .rx (s.recv + 1) ∉ held.erase (.rx s.recv) := by
        rw [Finset.mem_erase, hheld]
        simp
      rw [track_trans htrack, track_release ((hheld _).mpr (.inl rfl)) (by simp),
        track_acquire hnew (by simp), track_nil]
    · rw [Finset.mem_insert, Finset.mem_erase, hheld]
      constructor
      · rintro (rfl | ⟨hne, rfl | ⟨n, hn, rfl⟩⟩)
        · exact .inl rfl
        · exact absurd rfl hne
        · exact .inr ⟨n, hn, rfl⟩
      · rintro (rfl | ⟨n, hn, rfl⟩)
        · exact .inl rfl
        · exact .inr ⟨by simp, .inr ⟨n, hn, rfl⟩⟩
    · intro n hn
      have hmem : n ∈ s.views := hn
      rw [hviews] at hmem
      cases hmem
  | arrive nfa => exact h.arrive nfa
  | construct =>
    refine h.freed (.inl rfl) (List.append_nil _).symm rfl rfl (fun n => ?_) (fun n hn => ?_)
    · unfold buffers
      simp [step, contents_built, show PacketObject.husk.buffer = [] from rfl]
    · unfold views at hn ⊢
      simpa [step, contents_built, show PacketObject.husk.view = [] from rfl] using hn
  | move_assign dst src =>
    unfold step
    dsimp only
    split_ifs with hsame
    · exact h
    · cases hdst : s.object dst with
      | none => exact h
      | some old =>
        cases hsrc : s.object src with
        | none => exact h
        | some o =>
          refine h.freed old.buffer_cases rfl rfl rfl (fun n => ?_) (fun n hn => ?_)
          · exact count_moved PacketObject.buffer rfl hsame hdst hsrc n
          · have hmoved := count_moved PacketObject.view rfl hsame hdst hsrc n
            have hpos := List.count_pos_iff.mpr hn
            unfold views at hpos ⊢
            simp only [Objects.put, drop, free, use] at hpos
            exact List.count_pos_iff.mp (by omega)
  | move_construct i => exact hact i
  | materialize i => exact hact i
  | read i => exact hact i
  | release_bytes i => exact hact i
  | set_verdict i v => exact hact i
  | submit i v => exact hact i
  | fail_safe i => exact hact i
  | destroy i => exact hact i

theorem run_held (k : SetVerdict) {ops : List PacketOp} (h : Along (step k) Careful {} ops) :
    (run k {} ops).Held := by
  refine h.leaves (I := Held) (fun s op hs hop => step_held k hop hs) ⟨?_, ?_, ?_, ?_⟩
  · refine ⟨{.rx 0}, ?_, fun m => ?_⟩
    · exact track_acquire (Finset.notMem_empty _) (by simp)
    · simp [buffers, contents]
  · intro n
    exact Nat.zero_le 1
  · intro n hn
    cases hn
  · intro n hn
    cases hn

/-! ## The laws -/

/-- Whatever code does with its packets, every id is as often verdicted, owed
or lost as it came in. So when no id comes in twice, none is verdicted twice,
none is owed by two objects, and none is owed that was verdicted. -/
theorem no_packet_is_verdicted_twice (k : SetVerdict) (ops : List PacketOp) :
    let s := run k {} ops
    let told := s.queue.verdicts.map Prod.fst
    (∀ id, s.arrived.count id = told.count id + s.owing.count id + s.lost.count id) ∧
    (s.arrived.Nodup → told.Nodup ∧ s.owing.Nodup ∧ ∀ id ∈ s.owing, id ∉ told ∧ id ∉ s.lost) := by
  intro s told
  have hall : ∀ id, s.arrived.count id = told.count id + s.owing.count id + s.lost.count id :=
    run_accounted k ops
  refine ⟨hall, fun hnodup => ?_⟩
  have hone := fun id => List.nodup_iff_count_le_one.mp hnodup id
  refine ⟨?_, ?_, fun id hid => ?_⟩
  · refine List.nodup_iff_count_le_one.mpr (fun id => ?_)
    have h := hall id
    have hle := hone id
    omega
  · refine List.nodup_iff_count_le_one.mpr (fun id => ?_)
    have h := hall id
    have hle := hone id
    omega
  · have hpos := List.count_pos_iff.mpr hid
    have h := hall id
    have hle := hone id
    exact ⟨List.count_eq_zero.mp (by omega), List.count_eq_zero.mp (by omega)⟩

/-- Code that keeps no view over a `recv` uses memory in order: it reads only
what is held, frees no buffer twice, never lets two objects own one, and has
freed every buffer as often as it was made but for those that objects own. -/
theorem careful_code_uses_memory_in_order (k : SetVerdict) {ops : List PacketOp}
    (h : Along (step k) Careful {} ops) :
    let s := run k {} ops
    (∃ held, track (fun _ => none) ∅ s.log = some held ∧
      ∀ m, m ∈ held ↔ m = .rx s.recv ∨ ∃ n ∈ s.buffers, m = .heap n) ∧
    s.buffers.Nodup ∧
    ∀ n, s.log.count (.acquire (.heap n)) =
      s.log.count (.release (.heap n)) + (if n ∈ s.buffers then 1 else 0) := by
  intro s
  have hheld : s.Held := run_held k h
  obtain ⟨held, htrack, hin⟩ := hheld.tracked
  refine ⟨⟨held, htrack, hin⟩, List.nodup_iff_count_le_one.mpr hheld.single, fun n => ?_⟩
  have hcount := count_acquire (Mem.heap n) htrack
  have hiff : Mem.heap n ∈ held ↔ n ∈ s.buffers := by simp [hin]
  rw [if_neg (Finset.notMem_empty _), Nat.add_zero] at hcount
  rw [hcount, if_congr hiff rfl rfl]

/-- A packet is copied before the next `recv`, read, moved and submitted: the
one buffer is made once and freed once. -/
theorem a_copied_packet_outlives_its_view :
    let s := run (fun _ _ _ => 0) {} [.recv, .arrive ⟨some 7, some [0x45]⟩, .materialize 0, .recv,
      .read 0, .move_construct 0, .submit 1 .BLOCK, .destroy 0, .destroy 1]
    s.log.count (.acquire (.heap 0)) = 1 ∧ s.log.count (.release (.heap 0)) = 1 := by
  have hcareful : Along (step (fun _ _ _ => 0)) Careful {} [.recv, .arrive ⟨some 7, some [0x45]⟩,
      .materialize 0, .recv, .read 0, .move_construct 0, .submit 1 .BLOCK, .destroy 0, .destroy 1] :=
    ⟨rfl, trivial, trivial, rfl, trivial, trivial, trivial, trivial, trivial, trivial⟩
  obtain ⟨-, -, hcount⟩ := careful_code_uses_memory_in_order _ hcareful
  intro s
  have hone : s.log.count (.acquire (.heap 0)) = s.log.count (.release (.heap 0)) + _ := hcount 0
  have hmade : s.log.count (.acquire (.heap 0)) = 1 := rfl
  have hnone : 0 ∉ s.buffers := List.not_mem_nil
  rw [if_neg hnone, Nat.add_zero] at hone
  exact ⟨hmade, hone.symm.trans hmade⟩

/-! ## Any callback -/

/-- `handle` with a callback that does `ops`, up to where it throws. -/
def handle (s : Objects) (k : SetVerdict) (nfa : NfqData) (ops : List PacketOp) : Objects :=
  s.run k (.arrive nfa :: ops ++ [.fail_safe s.objects.length, .destroy s.objects.length])

theorem object_put (h : s.object i = some o) (o' : PacketObject) (j : Nat) :
    (s.put i o').object j = if j = i then some o' else s.object j := by
  obtain ⟨hlen, -⟩ := List.getElem?_eq_some_iff.mp (getElem?_of_object h)
  unfold object Objects.put
  dsimp only
  rw [List.getElem?_set]
  split_ifs with hi hj hj
  · rfl
  · exact absurd hi.symm hj
  · exact absurd hj.symm hi
  · rfl

/-- The fail-safe answers for its object alone, and when it owes. -/
theorem fail_safe_cases (k : SetVerdict) (h : s.object i = some o) :
    (∃ o', (s.fail_safe k i o).object i = some o' ∧ o'.owes = []) ∧
    (∀ j, j ≠ i → (s.fail_safe k i o).object j = s.object j) ∧ (s.fail_safe k i o).lost = s.lost ∧
    (s.fail_safe k i o).queue.undecided = s.queue.undecided + o.owes.length ∧
    (s.fail_safe k i o).queue.verdicts = s.queue.verdicts ++ o.owes.map (fun id => (id, .ALLOW)) ∧
    (s.fail_safe k i o).arrived = s.arrived := by
  by_cases hp : o.packet.pending = true
  · have howes : o.owes = [o.packet.id] := if_pos hp
    let q : NFQueue := { s.queue with undecided := s.queue.undecided + 1 }
    have hsafe : s.fail_safe k i o =
        { (s.free o).put i (o.submit q k .ALLOW) with queue := (q.submit k o.packet .ALLOW).1 } := by
      unfold fail_safe Objects.submit
      rw [if_pos hp, if_pos hp]
      rfl
    have hobject := object_put (s := s.free o) h (o.submit q k .ALLOW)
    have hself : (s.fail_safe k i o).object i = some (o.submit q k .ALLOW) := by
      rw [hsafe]
      exact (hobject i).trans (if_pos rfl)
    refine ⟨⟨_, hself, owes_submit q k .ALLOW hp⟩, fun j hj => ?_, ?_, ?_, ?_, ?_⟩
    · rw [hsafe]
      exact (hobject j).trans (if_neg hj)
    · rw [hsafe]
      rfl
    · rw [hsafe, howes]
      unfold NFQueue.submit
      rw [if_neg (by simp [hp])]
      rfl
    · rw [hsafe, howes]
      unfold NFQueue.submit
      rw [if_neg (by simp [hp])]
      rfl
    · rw [hsafe]
      rfl
  · have howes : o.owes = [] := if_neg hp
    have hsame : s.fail_safe k i o = s := if_neg hp
    rw [hsame, howes]
    exact ⟨⟨o, h, howes⟩, fun _ _ => rfl, rfl, rfl, (List.append_nil _).symm, rfl⟩

/-- An object that owes nothing is destroyed. -/
theorem step_destroy (k : SetVerdict) (h : s.object i = some o) (howes : o.owes = []) :
    (s.step k (.destroy i)).objects = s.objects.set i none ∧
    (s.step k (.destroy i)).lost = s.lost ∧ (s.step k (.destroy i)).queue = s.queue ∧
    (s.step k (.destroy i)).arrived = s.arrived := by
  have hstep : s.step k (.destroy i) = { s.drop o with objects := s.objects.set i none } := by
    unfold step
    simp only [h]
    rfl
  rw [hstep]
  refine ⟨rfl, ?_, rfl, rfl⟩
  simp [drop, free, use, howes]

theorem object_destroyed {s' : Objects} (hs : s'.objects = s.objects.set i none)
    (h : s.object i = some o) : s'.object i = none ∧ ∀ j, j ≠ i → s'.object j = s.object j := by
  obtain ⟨hlen, -⟩ := List.getElem?_eq_some_iff.mp (getElem?_of_object h)
  unfold object
  rw [hs]
  refine ⟨by simp [hlen], fun j hj => ?_⟩
  rw [List.getElem?_set_ne (Ne.symm hj)]

/-- The state in which a callback leaves `handle`. -/
def left (s : Objects) (k : SetVerdict) (nfa : NfqData) (ops : List PacketOp) : Objects :=
  s.run k (.arrive nfa :: ops)

/-- What a callback leaves owing a verdict in the object of `handle`. -/
def caught (s : Objects) (k : SetVerdict) (nfa : NfqData) (ops : List PacketOp) : List UInt32 :=
  ((s.left k nfa ops).object s.objects.length).elim [] PacketObject.owes

/-- What `handle` does after the callback: its own object goes, and is let
through when it still owes a verdict. -/
theorem handle_after (s : Objects) (k : SetVerdict) (nfa : NfqData) (ops : List PacketOp) :
    let i := s.objects.length
    let left := s.left k nfa ops
    let s' := s.handle k nfa ops
    s'.object i = none ∧ (∀ j, j ≠ i → s'.object j = left.object j) ∧ s'.lost = left.lost ∧
    s'.queue.undecided = left.queue.undecided + (s.caught k nfa ops).length ∧
    s'.queue.verdicts = left.queue.verdicts ++ (s.caught k nfa ops).map (fun id => (id, .ALLOW)) ∧
    s'.arrived = left.arrived := by
  intro i left s'
  have hhandle : s' = (left.step k (.fail_safe i)).step k (.destroy i) := List.foldl_append
  have hcaught : s.caught k nfa ops = (left.object i).elim [] PacketObject.owes := rfl
  cases ho : left.object i with
  | none =>
    have hsafe : left.step k (.fail_safe i) = left := by
      unfold step
      simp only [ho]
    have hgone : left.step k (.destroy i) = left := by
      unfold step
      simp only [ho]
    rw [hhandle, hsafe, hgone, hcaught, ho]
    exact ⟨rfl, fun _ _ => rfl, rfl, rfl, (List.append_nil _).symm, rfl⟩
  | some o =>
    have hsafe : left.step k (.fail_safe i) = left.fail_safe k i o := by
      unfold step
      simp only [ho]
      rfl
    obtain ⟨⟨o', ho', hnone⟩, hothers, hlost, hundecided, hverdicts, harrived⟩ := fail_safe_cases k ho
    obtain ⟨hobjects, hlost', hqueue, harrived'⟩ := step_destroy k ho' hnone
    obtain ⟨hgone, hothers'⟩ := object_destroyed hobjects ho'
    rw [hhandle, hsafe, hqueue, hlost', harrived', hcaught, ho]
    exact ⟨hgone, fun j hj => (hothers' j hj).trans (hothers j hj), hlost, hundecided, hverdicts,
      harrived⟩

/-- The operations of code that is handed a packet: all but those that only the
queue has. -/
def ofCallback : PacketOp → Prop
  | .recv => False
  | .arrive _ => False
  | .fail_safe _ => False
  | _ => True

/-- The verdicts that are owed and that an operation throws away: those of an
object that is destroyed or overwritten. -/
def dropped (s : Objects) : PacketOp → List UInt32
  | .destroy i => (s.object i).elim [] PacketObject.owes
  | .move_assign dst src =>
    if dst = src then []
    else
      match s.object dst, s.object src with
      | some old, some _ => old.owes
      | _, _ => []
  | _ => []

/-- Between two states nothing came in and nothing was let through by the
fail-safe, the verdicts in `dropped` were thrown away, and others told. -/
structure Spends (s s' : Objects) (dropped : List UInt32) : Prop where
  lost : s'.lost = s.lost ++ dropped
  arrived : s'.arrived = s.arrived
  undecided : s'.queue.undecided = s.queue.undecided
  told : s.queue.verdicts <+: s'.queue.verdicts

theorem Spends.refl : Spends s s [] := ⟨(List.append_nil _).symm, rfl, rfl, List.prefix_refl _⟩

theorem submit_spends (s : Objects) (k : SetVerdict) (i : Nat) (o : PacketObject) (v : Verdict) :
    Spends s (s.submit k i o v) [] := by
  unfold Objects.submit
  split
  · rename_i hp
    refine ⟨(List.append_nil _).symm, rfl, ?_, ?_⟩
    · simp only [NFQueue.submit, hp]
      rfl
    · simp only [NFQueue.submit, hp]
      exact List.prefix_append _ _
  · exact .refl

/-- What a callback may do loses what it drops, and tells the kernel more. -/
theorem step_spends (s : Objects) (k : SetVerdict) {op : PacketOp} (hop : ofCallback op) :
    Spends s (s.step k op) (s.dropped op) := by
  have hact : ∀ i, (∀ o, s.object i = some o → Spends s (s.act k i o op) (s.dropped op)) →
      (s.object i = none → s.dropped op = []) →
      Spends s (match s.object i with | some o => s.act k i o op | none => s) (s.dropped op) := by
    intro i hsome hnone
    cases ho : s.object i with
    | none =>
      rw [hnone ho]
      exact .refl
    | some o => exact hsome o ho
  cases op with
  | recv => exact hop.elim
  | arrive nfa => exact hop.elim
  | fail_safe i => exact hop.elim
  | construct => exact ⟨(List.append_nil _).symm, rfl, rfl, List.prefix_refl _⟩
  | move_construct i =>
    exact hact i (fun _ _ => ⟨(List.append_nil _).symm, rfl, rfl, List.prefix_refl _⟩) (fun _ => rfl)
  | read i =>
    exact hact i (fun _ _ => ⟨(List.append_nil _).symm, rfl, rfl, List.prefix_refl _⟩) (fun _ => rfl)
  | release_bytes i =>
    exact hact i (fun _ _ => ⟨(List.append_nil _).symm, rfl, rfl, List.prefix_refl _⟩) (fun _ => rfl)
  | set_verdict i v =>
    exact hact i (fun _ _ => ⟨(List.append_nil _).symm, rfl, rfl, List.prefix_refl _⟩) (fun _ => rfl)
  | materialize i =>
    refine hact i (fun o _ => ?_) (fun _ => rfl)
    show Spends s (s.materialize i o) []
    unfold Objects.materialize
    split <;> exact ⟨(List.append_nil _).symm, rfl, rfl, List.prefix_refl _⟩
  | submit i v => exact hact i (fun o _ => s.submit_spends k i o v) (fun _ => rfl)
  | destroy i =>
    refine hact i (fun o ho => ⟨?_, rfl, rfl, List.prefix_refl _⟩) (fun ho => ?_)
    · simp only [dropped, ho]
      rfl
    · simp only [dropped, ho]
      rfl
  | move_assign dst src =>
    unfold step dropped
    dsimp only
    split_ifs with hd
    · exact .refl
    · cases s.object dst with
      | none => exact .refl
      | some old =>
        cases s.object src with
        | none => exact .refl
        | some o => exact ⟨rfl, rfl, rfl, List.prefix_refl _⟩

/-- No operation throws away a verdict that is owed. -/
def Spares (k : SetVerdict) : Objects → List PacketOp → Prop :=
  Along (step k) (fun s op => s.dropped op = [])

/-- A callback loses nothing exactly when it spares what is owed. -/
theorem run_callback (k : SetVerdict) {ops : List PacketOp} (hops : ∀ op ∈ ops, ofCallback op) :
    ∀ s : Objects, ∃ dropped, Spends s (s.run k ops) dropped ∧ (dropped = [] ↔ Spares k s ops) := by
  induction ops with
  | nil => exact fun s => ⟨[], .refl, by simp [Spares, Along]⟩
  | cons op ops ih =>
    intro s
    have hone := s.step_spends k (hops op (by simp))
    obtain ⟨dropped, hrest, hiff⟩ := ih (fun x hx => hops x (by simp [hx])) (s.step k op)
    refine ⟨s.dropped op ++ dropped, ⟨?_, hrest.arrived.trans hone.arrived,
      hrest.undecided.trans hone.undecided, hone.told.trans hrest.told⟩, ?_⟩
    · refine hrest.lost.trans ?_
      rw [hone.lost, List.append_assoc]
    · show _ ↔ _ ∧ Spares k (s.step k op) ops
      rw [List.append_eq_nil_iff, hiff]

/-! ## A queue with any callbacks -/

/-- The packets that come in, each with what the callback does to it. -/
def handles (k : SetVerdict) (s : Objects) (calls : List (NfqData × List PacketOp)) : Objects :=
  calls.foldl (fun s c => s.handle k c.1 c.2) s

/-- What the callbacks leave owing in the objects of `handle`. -/
def allCaught (k : SetVerdict) : Objects → List (NfqData × List PacketOp) → List UInt32
  | _, [] => []
  | s, c :: calls => s.caught k c.1 c.2 ++ allCaught k (s.handle k c.1 c.2) calls

/-- No callback throws away a verdict that is owed. -/
def AllSpare (k : SetVerdict) : Objects → List (NfqData × List PacketOp) → Prop :=
  Along (fun s c => s.handle k c.1 c.2) (fun s c => Spares k (s.step k (.arrive c.1)) c.2)

/-- One packet is handled. -/
theorem handle_any (k : SetVerdict) (s : Objects) (nfa : NfqData) {ops : List PacketOp}
    (hops : ∀ op ∈ ops, ofCallback op) :
    let s' := s.handle k nfa ops
    (s'.lost = [] ↔ s.lost = [] ∧ Spares k (s.step k (.arrive nfa)) ops) ∧
    s'.arrived = s.arrived ++ [nfa.packet.id] ∧
    s'.queue.undecided = s.queue.undecided + (s.caught k nfa ops).length ∧
    ∃ told, s'.queue.verdicts =
      s.queue.verdicts ++ told ++ (s.caught k nfa ops).map (fun id => (id, .ALLOW)) := by
  intro s'
  obtain ⟨-, -, hlost, hundecided, hverdicts, harrived⟩ := s.handle_after k nfa ops
  obtain ⟨dropped, hspends, hiff⟩ := run_callback k hops (s.step k (.arrive nfa))
  obtain ⟨told, htold⟩ := hspends.told
  refine ⟨?_, harrived.trans hspends.arrived, ?_, told, ?_⟩
  · show s'.lost = [] ↔ _
    rw [hlost, show (s.left k nfa ops).lost = s.lost ++ dropped from hspends.lost,
      List.append_eq_nil_iff, hiff]
  · show s'.queue.undecided = _
    rw [hundecided]
    exact congrArg (· + _) hspends.undecided
  · show s'.queue.verdicts = _
    rw [hverdicts]
    exact congrArg (· ++ _) htold.symm

/-- Whatever the callback of a queue does with the packets that it is handed,
and wherever it throws: every id that came in is told, owed or lost, and
`handle` itself loses nothing, so that none is lost exactly when no callback
destroys or overwrites a packet that owes its verdict. The packets counted as
undecided are those that were left owing in the object of `handle`, and each
of them was let through. -/
theorem handle_answers_for_any_callback (k : SetVerdict) {calls : List (NfqData × List PacketOp)}
    (hcalls : ∀ c ∈ calls, ∀ op ∈ c.2, ofCallback op) :
    let s := handles k {} calls
    s.arrived = calls.map (fun c => c.1.packet.id) ∧
    (∀ id, s.arrived.count id =
      (s.queue.verdicts.map Prod.fst).count id + s.owing.count id + s.lost.count id) ∧
    (s.lost = [] ↔ AllSpare k {} calls) ∧
    s.queue.undecided = (allCaught k {} calls).length ∧
    ((allCaught k {} calls).map (fun id => (id, .ALLOW))).Sublist s.queue.verdicts := by
  have hall : ∀ s : Objects, s.Accounted → let s' := handles k s calls
      s'.arrived = s.arrived ++ calls.map (fun c => c.1.packet.id) ∧ s'.Accounted ∧
      (s'.lost = [] ↔ s.lost = [] ∧ AllSpare k s calls) ∧
      s'.queue.undecided = s.queue.undecided + (allCaught k s calls).length ∧
      ∃ told, s'.queue.verdicts = s.queue.verdicts ++ told ∧
        ((allCaught k s calls).map (fun id => (id, .ALLOW))).Sublist told := by
    induction calls with
    | nil =>
      intro s hs
      exact ⟨(List.append_nil _).symm, hs, by simp [handles, AllSpare, Along], rfl, [],
        (List.append_nil _).symm, List.Sublist.refl _⟩
    | cons c calls ih =>
      intro s hs
      obtain ⟨hlost, harrived, hundecided, told, htold⟩ := handle_any k s c.1 (hcalls c (by simp))
      obtain ⟨harriveds, haccounted, hlosts, hundecideds, tolds, htolds, hsub⟩ :=
        ih (fun x hx => hcalls x (by simp [hx])) (s.handle k c.1 c.2)
          (foldl_keeps (step_accounted k) _ s hs)
      refine ⟨?_, haccounted, ?_, ?_, told ++ (s.caught k c.1 c.2).map (fun id => (id, .ALLOW)) ++ tolds,
        ?_, ?_⟩
      · refine harriveds.trans ?_
        rw [harrived, List.append_assoc]
        rfl
      · refine hlosts.trans ?_
        rw [hlost, and_assoc]
        rfl
      · refine hundecideds.trans ?_
        rw [hundecided, allCaught, List.length_append]
        omega
      · refine htolds.trans ?_
        rw [htold]
        simp only [List.append_assoc]
      · rw [allCaught, List.map_append, List.append_assoc]
        exact ((List.Sublist.refl _).append hsub).trans (List.sublist_append_right _ _)
  obtain ⟨harrived, haccounted, hlost, hundecided, told, htold, hsub⟩ := hall {} (fun _ => rfl)
  refine ⟨harrived, haccounted, hlost.trans (and_iff_right rfl), ?_, ?_⟩
  · exact hundecided.trans (Nat.zero_add _)
  · exact hsub.trans (htold ▸ List.sublist_append_right _ _)

/-- The first packet is moved to another object, and the second one forgotten. -/
theorem a_forgotten_packet_is_let_through :
    let s := handles (fun _ _ _ => 0) {}
      [(⟨some 1, some [0x45]⟩, [.move_construct 0]), (⟨some 2, some [0x45]⟩, [])]
    s.lost = [] ∧ s.queue.undecided = 1 ∧ (2, .ALLOW) ∈ s.queue.verdicts := by
  have hcalls : ∀ c ∈ [((⟨some 1, some [0x45]⟩ : NfqData), [PacketOp.move_construct 0]),
      (⟨some 2, some [0x45]⟩, [])], ∀ op ∈ c.2, ofCallback op := by simp [ofCallback]
  obtain ⟨-, -, hlost, hundecided, hsub⟩ := handle_answers_for_any_callback (fun _ _ _ => 0) hcalls
  exact ⟨hlost.mpr ⟨⟨rfl, trivial⟩, trivial, trivial⟩, hundecided, hsub.subset (by decide)⟩

end Objects

end packet_inspector
