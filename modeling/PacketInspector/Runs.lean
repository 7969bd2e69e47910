-- Machines that take step after step: folds and paths of steps, the rule
-- that carries an invariant along them, and tables that such a machine
-- updates one key at a time.
import Mathlib

namespace runs

/-! ## Paths -/

section Paths

variable {α σ : Type*} {r : σ → σ → Prop}

/-- A path of steps keeps what every step keeps. -/
theorem path_keeps {I : σ → Prop} (hstep : ∀ a b, r a b → I a → I b) {a b : σ}
    (h : Relation.ReflTransGen r a b) (ha : I a) : I b := by
  induction h with
  | refl => exact ha
  | tail _ hbc ih => exact hstep _ _ hbc ih

/-- A fold is a path when each of its turns is one. What a turn needs is
said of the items that are left. -/
theorem foldl_path {f : σ → α → σ} {Q : List α → σ → Prop}
    (hturn : ∀ x l s, Q (x :: l) s → Relation.ReflTransGen r s (f s x) ∧ Q l (f s x)) :
    ∀ (l : List α) (s : σ), Q l s → Relation.ReflTransGen r s (l.foldl f s) ∧ Q [] (l.foldl f s) := by
  intro l
  induction l with
  | nil => exact fun s h => ⟨.refl, h⟩
  | cons x l ih =>
    intro s h
    obtain ⟨hpath, hq⟩ := hturn x l s h
    obtain ⟨hrest, hend⟩ := ih (f s x) hq
    exact ⟨hpath.trans hrest, hend⟩

/-- A fold keeps what every turn keeps. -/
theorem foldl_keeps {f : σ → α → σ} {I : σ → Prop} (hturn : ∀ s x, I s → I (f s x)) (l : List α) :
    ∀ s, I s → I (l.foldl f s) := by
  induction l with
  | nil => exact fun s h => h
  | cons x l ih => exact fun s h => ih (f s x) (hturn s x h)

/-- A fold ends with what each turn says of the items that are left. -/
theorem foldl_leaves {f : σ → α → σ} {Q : List α → σ → Prop}
    (hturn : ∀ x l s, Q (x :: l) s → Q l (f s x)) (l : List α) : ∀ s, Q l s → Q [] (l.foldl f s) := by
  induction l with
  | nil => exact fun s h => h
  | cons x l ih => exact fun s h => ih (f s x) (hturn x l s h)

/-- An invariant of a run, stated with the calls made so far. -/
theorem run_keeps {f : σ → α → σ} {I : List α → σ → Prop} {s : σ} (hinit : I [] s)
    (hstep : ∀ done s x, I done s → I (done ++ [x]) (f s x)) (l : List α) :
    I l (l.foldl f s) := by
  induction l using List.reverseRecOn with
  | nil => exact hinit
  | append_singleton l x ih =>
    rw [List.foldl_append]
    exact hstep l _ x ih

/-- What holds of each item and the items before it, said of every split. -/
theorem of_each_split {C : List α → α → Prop} {l : List α}
    (h : ∀ n ∈ List.range l.length, ∀ x ∈ l[n]?, C (l.take n) x) {pre : List α} {x : α}
    {post : List α} (hl : l = pre ++ x :: post) : C pre x := by
  have hx : x ∈ l[pre.length]? := by simp [hl]
  have hn : pre.length ∈ List.range l.length := by simp [hl]
  have hc := h pre.length hn x hx
  rw [hl, List.take_left] at hc
  exact hc

/-- Every call of a run is made in a state that `C` allows it in. -/
def Along (f : σ → α → σ) (C : σ → α → Prop) : σ → List α → Prop
  | _, [] => True
  | s, x :: l => C s x ∧ Along f C (f s x) l

theorem Along.imp {f : σ → α → σ} {C D : σ → α → Prop} (himp : ∀ s x, C s x → D s x) {l : List α} :
    ∀ {s : σ}, Along f C s l → Along f D s l := by
  induction l with
  | nil => exact fun h => h
  | cons x l ih => exact fun h => ⟨himp _ x h.1, ih h.2⟩

theorem Along.and {f : σ → α → σ} {C D : σ → α → Prop} {l : List α} :
    ∀ {s : σ}, Along f C s l → Along f D s l → Along f (fun s x => C s x ∧ D s x) s l := by
  induction l with
  | nil => exact fun _ h => h
  | cons x l ih => exact fun h h' => ⟨⟨h.1, h'.1⟩, ih h.2 h'.2⟩

theorem Along.append {f : σ → α → σ} {C : σ → α → Prop} {l more : List α} :
    ∀ {s : σ}, Along f C s l → Along f C (l.foldl f s) more → Along f C s (l ++ more) := by
  induction l with
  | nil => exact fun _ h => h
  | cons x l ih => exact fun h h' => ⟨h.1, ih h.2 h'⟩

theorem Along.of_forall {f : σ → α → σ} {C : σ → α → Prop} {l : List α} (h : ∀ s, ∀ x ∈ l, C s x) :
    ∀ s : σ, Along f C s l := by
  induction l with
  | nil => exact fun _ => trivial
  | cons x l ih => exact fun s => ⟨h s x (by simp), ih (fun s' x' hx' => h s' x' (by simp [hx'])) _⟩

/-- What holds of every call under an invariant that the calls keep. -/
theorem Along.keeps {f : σ → α → σ} {C D : σ → α → Prop} {I : σ → Prop} {l : List α}
    (hstep : ∀ s, ∀ x ∈ l, I s → C s x → D s x ∧ I (f s x)) :
    ∀ {s : σ}, I s → Along f C s l → Along f D s l := by
  induction l with
  | nil => exact fun _ h => h
  | cons x l ih =>
    intro s hs h
    obtain ⟨hd, hi⟩ := hstep s x (by simp) hs h.1
    exact ⟨hd, ih (fun s' x' hx' => hstep s' x' (by simp [hx'])) hi h.2⟩

/-- A run ends with what its calls keep in the states that `C` allows. -/
theorem Along.leaves {f : σ → α → σ} {C : σ → α → Prop} {I : σ → Prop} {l : List α}
    (hstep : ∀ s x, I s → C s x → I (f s x)) : ∀ {s : σ}, Along f C s l → I s → I (l.foldl f s) := by
  induction l with
  | nil => exact fun _ hs => hs
  | cons x l ih => exact fun h hs => ih h.2 (hstep _ x hs h.1)

end Paths

/-! ## What a fold meets -/

section Visits

variable {α σ τ : Type*}

/-- What the turns of a fold meet, each in the state in which it is made. -/
def visits (f : σ → α → σ) (g : σ → α → List τ) : σ → List α → List τ
  | _, [] => []
  | s, x :: l => g s x ++ visits f g (f s x) l

/-- What the turns keep holds wherever something is met. -/
theorem visits_law {f : σ → α → σ} {g : σ → α → List τ} {I : σ → Prop} {J : τ → Prop}
    (hturn : ∀ s x, I s → I (f s x)) (hmeet : ∀ s x, I s → ∀ e ∈ g s x, J e) (l : List α) :
    ∀ s, I s → ∀ e ∈ visits f g s l, J e := by
  induction l with
  | nil =>
    intro s _ e he
    cases he
  | cons x l ih =>
    intro s hs e he
    rcases List.mem_append.mp he with he | he
    · exact hmeet s x hs e he
    · exact ih (f s x) (hturn s x hs) e he

end Visits

/-! ## Unwinding -/

section Unwinding

variable {α σ τ : Type*} {f : σ → α → σ} {g : τ → α → τ} {mine : α → Bool} {C : σ → α → Prop}

/-- A run of all calls and a run of those that are `mine` stay related, when
a call that is mine keeps the two related and any other call leaves the first
one related to the second. The relation may speak of the calls made so far. -/
theorem unwinding {I : List α → σ → τ → Prop} {l : List α}
    (hmine : ∀ done x rest a b, l = done ++ x :: rest → mine x = true → C a x →
      I done a b → I (done ++ [x]) (f a x) (g b x))
    (hother : ∀ done x rest a b, l = done ++ x :: rest → mine x = false → C a x →
      I done a b → I (done ++ [x]) (f a x) b)
    {s : σ} {t : τ} (hC : Along f C s l) (hinit : I [] s t) :
    I l (l.foldl f s) ((l.filter mine).foldl g t) := by
  have hrun : ∀ (rest done : List α) (a : σ) (b : τ), l = done ++ rest → Along f C a rest →
      I done a b → I l (rest.foldl f a) ((rest.filter mine).foldl g b) := by
    intro rest
    induction rest with
    | nil =>
      intro done a b hl _ h
      rw [List.append_nil] at hl
      exact hl ▸ h
    | cons x rest ih =>
      intro done a b hl halong h
      have hl' : l = (done ++ [x]) ++ rest := by simpa using hl
      cases hx : mine x with
      | true =>
        rw [List.filter_cons_of_pos hx]
        exact ih _ _ _ hl' halong.2 (hmine done x rest a b hl hx halong.1 h)
      | false =>
        rw [List.filter_cons_of_neg (by simp [hx])]
        exact ih _ _ _ hl' halong.2 (hother done x rest a b hl hx halong.1 h)
  exact hrun l [] s t rfl hC hinit

end Unwinding

/-! ## Endless runs -/

section Endless

variable {σ : Type*} {run : ℕ → σ} {goal : σ → Prop} {rank : σ → ℕ}

/-- What every step of a run keeps holds ever after. -/
theorem holds_after {I : σ → Prop} (hstep : ∀ n, I (run n) → I (run (n + 1))) {n : ℕ}
    (h : I (run n)) : ∀ m, n ≤ m → I (run m) :=
  fun _ hm => Nat.le_induction h (fun m _ hi => hstep m hi) _ hm

/-- A rank that never rises, and that drops again and again while the goal is
not reached, brings a run to the goal. -/
theorem reaches_of_rank (hle : ∀ n, rank (run (n + 1)) ≤ rank (run n))
    (hdrop : ∀ n, ¬ goal (run n) → ∃ m, n ≤ m ∧ rank (run (m + 1)) < rank (run m)) :
    ∃ n, goal (run n) := by
  have hanti : Antitone (fun n => rank (run n)) := antitone_nat_of_succ_le hle
  have hall : ∀ r n, rank (run n) ≤ r → ∃ n, goal (run n) := by
    intro r
    induction r with
    | zero =>
      intro n hn
      by_contra hnever
      obtain ⟨m, hm, hlt⟩ := hdrop n (fun hg => hnever ⟨n, hg⟩)
      have hmn : rank (run m) ≤ rank (run n) := hanti hm
      omega
    | succ r ih =>
      intro n hn
      by_cases hg : goal (run n)
      · exact ⟨n, hg⟩
      · obtain ⟨m, hm, hlt⟩ := hdrop n hg
        have hmn : rank (run m) ≤ rank (run n) := hanti hm
        exact ih (m + 1) (by omega)
  exact hall _ 0 (Nat.le_refl _)

/-- A run that stays where a path begins can go along the path instead, and
stay at its end. -/
theorem extend_run {r : σ → σ → Prop} {a b : σ} {stay : ℕ}
    (hstep : ∀ n, r (run n) (run (n + 1)) ∨ run (n + 1) = run n) (hstay : ∀ n, stay ≤ n → run n = a)
    (h : Relation.ReflTransGen r a b) : ∃ (run' : ℕ → σ) (stay' : ℕ),
      stay ≤ stay' ∧ (∀ n, n ≤ stay → run' n = run n) ∧
      (∀ n, r (run' n) (run' (n + 1)) ∨ run' (n + 1) = run' n) ∧ ∀ n, stay' ≤ n → run' n = b := by
  induction h with
  | refl => exact ⟨run, stay, Nat.le_refl _, fun _ _ => rfl, hstep, hstay⟩
  | @tail x y _ hxy ih =>
    obtain ⟨run', stay', hle, hsame, hstep', hstay'⟩ := ih
    obtain ⟨run'', hnow, hthen⟩ : ∃ run'' : ℕ → σ, (∀ n, n ≤ stay' → run'' n = run' n) ∧
        ∀ n, stay' < n → run'' n = y :=
      ⟨fun n => if n ≤ stay' then run' n else y, fun n hn => if_pos hn, fun n hn => if_neg (by omega)⟩
    refine ⟨run'', stay' + 1, by omega, ?_, ?_, hthen⟩
    · intro n hn
      rw [hnow n (by omega), hsame n hn]
    · intro n
      rcases Nat.lt_trichotomy n stay' with hlt | heq | hgt
      · rw [hnow n (by omega), hnow (n + 1) (by omega)]
        exact hstep' n
      · rw [hnow n (by omega), hthen (n + 1) (by omega), hstay' n (by omega)]
        exact .inl hxy
      · rw [hthen n hgt, hthen (n + 1) (by omega)]
        exact .inr rfl

end Endless

end runs

/-! ## Tables -/

namespace AList

variable {α β : Type*} [DecidableEq α]

/-- The value under a key, in a table whose values have one type. -/
def find (t : AList (fun _ : α => β)) (a : α) : Option β := t.lookup a

/-- The number of keys. -/
def size (t : AList (fun _ : α => β)) : Nat := t.entries.length

variable (t : AList (fun _ : α => β)) (a a' : α) (b : β)

@[simp] theorem find_empty : (∅ : AList (fun _ : α => β)).find a = none := rfl

theorem find_insert : (t.insert a b).find a' = if a' = a then some b else t.find a' := by
  unfold find
  split
  · subst a'
    exact lookup_insert t
  · rename_i h
    exact lookup_insert_ne h

theorem find_erase : (t.erase a).find a' = if a' = a then none else t.find a' := by
  unfold find
  split
  · subst a'
    exact lookup_erase a t
  · rename_i h
    exact lookup_erase_ne h

@[simp] theorem find_insert_self : (t.insert a b).find a = some b := by simp [find_insert]

@[simp] theorem find_erase_self : (t.erase a).find a = none := by simp [find_erase]

variable {a a'}

theorem find_insert_of_ne (h : a' ≠ a) : (t.insert a b).find a' = t.find a' := by
  simp [find_insert, h]

theorem find_erase_of_ne (h : a' ≠ a) : (t.erase a).find a' = t.find a' := by
  simp [find_erase, h]

variable {t b}

theorem mem_keys_iff_find : a ∈ t.keys ↔ ∃ b, t.find a = some b := by
  rw [← mem_keys, ← lookup_isSome, Option.isSome_iff_exists]
  rfl

variable (t)

omit [DecidableEq α] in
theorem size_eq_length_keys : t.size = t.keys.length := by simp [size, keys, List.keys]

variable (a)

theorem size_erase_le : (t.erase a).size ≤ t.size := by
  rw [size_eq_length_keys, size_eq_length_keys, keys_erase]
  exact List.length_erase_le

variable {t a}

theorem size_insert_of_some {c : β} (h : t.find a = some c) : (t.insert a b).size = t.size := by
  have hm : a ∈ t.keys := mem_keys_iff_find.mpr ⟨c, h⟩
  have hpos := List.length_pos_of_mem hm
  rw [size_eq_length_keys, size_eq_length_keys, keys_insert, List.length_cons,
    List.length_erase_of_mem hm]
  omega

theorem size_insert_of_none (h : t.find a = none) : (t.insert a b).size = t.size + 1 := by
  unfold size
  rw [entries_insert_of_notMem (lookup_eq_none.mp h)]
  rfl

theorem size_erase_of_some {c : β} (h : t.find a = some c) : (t.erase a).size + 1 = t.size := by
  have hm : a ∈ t.keys := mem_keys_iff_find.mpr ⟨c, h⟩
  have hpos := List.length_pos_of_mem hm
  rw [size_eq_length_keys, size_eq_length_keys, keys_erase, List.length_erase_of_mem hm]
  omega

/-- An entry and the rest of the table. -/
theorem entries_perm_erase {c : β} (h : t.find a = some c) :
    t.entries.Perm (⟨a, c⟩ :: (t.erase a).entries) := by
  obtain ⟨c', before, after, hnew, hsplit, hrest⟩ :=
    List.exists_of_kerase (mem_keys_iff_find.mpr ⟨c, h⟩ : a ∈ t.entries.keys)
  have hfound : t.entries.dlookup a = some c := h
  rw [hsplit, List.dlookup_append, List.dlookup_eq_none.mpr hnew, Option.none_or,
    List.dlookup_cons_eq, Option.some.injEq] at hfound
  have herase : (t.erase a).entries = before ++ after := hrest
  rw [herase, hsplit, hfound]
  exact List.perm_middle

end AList
