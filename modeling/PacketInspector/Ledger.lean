-- A ledger of items that are taken in, held back by key, and let go later:
-- what has been let go and what is still held is what was taken in, each
-- key in its order.
import Mathlib

namespace ledger

variable {κ τ : Type*} [DecidableEq κ]

/-- The items that were let go, in order, and those held under each key. -/
structure Ledger (κ τ : Type*) where
  gone : List τ
  held : κ → List τ

variable (key : τ → Option κ)

/-- A step takes in at most one item. Items without a key are never held. -/
inductive Step : Ledger κ τ → Option τ → Ledger κ τ → Prop
  /-- The item is let go at once; nothing of its key waits. -/
  | pass (l : Ledger κ τ) (t : τ) : (∀ k, key t = some k → l.held k = []) →
      Step l (some t) { l with gone := l.gone ++ [t] }
  | hold (l : Ledger κ τ) (t : τ) (k : κ) : key t = some k →
      Step l (some t) { l with held := Function.update l.held k (l.held k ++ [t]) }
  /-- Everything that is held under a key is let go. -/
  | release (l : Ledger κ τ) (k : κ) :
      Step l none ⟨l.gone ++ l.held k, Function.update l.held k []⟩

/-- The items of one key, or those without one. -/
def ofKey (k : Option κ) (ts : List τ) : List τ := ts.filter (fun t => key t = k)

/-- What the ledger owes to the items that were taken in. -/
structure Kept (taken : List τ) (l : Ledger κ τ) : Prop where
  home : ∀ k, ∀ t ∈ l.held k, key t = some k
  order : ∀ k, ofKey key (some k) l.gone ++ l.held k = ofKey key (some k) taken
  rest : ofKey key none l.gone = ofKey key none taken

variable {key}

theorem ofKey_append (k : Option κ) (ts us : List τ) :
    ofKey key k (ts ++ us) = ofKey key k ts ++ ofKey key k us := by
  simp [ofKey]

theorem ofKey_of_home {k : κ} {ts : List τ} (h : ∀ t ∈ ts, key t = some k) (k' : Option κ) :
    ofKey key k' ts = if k' = some k then ts else [] := by
  unfold ofKey
  split
  · rename_i he
    rw [List.filter_eq_self]
    intro t ht
    simp [h t ht, he]
  · rename_i he
    rw [List.filter_eq_nil_iff]
    intro t ht
    simp [h t ht, Ne.symm he]

theorem kept_nil : Kept key [] (⟨[], fun _ => []⟩ : Ledger κ τ) := by
  refine ⟨?_, ?_, rfl⟩
  · intro k t ht
    cases ht
  · intro k
    rfl

theorem kept_step {taken : List τ} {l l' : Ledger κ τ} {t : Option τ} (hs : Step key l t l')
    (h : Kept key taken l) : Kept key (taken ++ t.toList) l' := by
  cases hs with
  | pass t hempty =>
    refine ⟨h.home, ?_, ?_⟩
    · intro k
      rw [Option.toList_some, ofKey_append, ofKey_append, ← h.order k]
      by_cases hk : key t = some k
      · simp [hempty k hk]
      · simp [ofKey, hk]
    · rw [Option.toList_some, ofKey_append, ofKey_append, h.rest]
  | hold t k hk =>
    refine ⟨?_, ?_, ?_⟩
    · intro k' t' ht'
      by_cases he : k' = k
      · subst he
        simp only [Function.update_self, List.mem_append, List.mem_singleton] at ht'
        rcases ht' with ht' | rfl
        · exact h.home k' t' ht'
        · exact hk
      · simp only [Function.update_of_ne he] at ht'
        exact h.home k' t' ht'
    · intro k'
      rw [Option.toList_some, ofKey_append, ← h.order k', List.append_assoc]
      by_cases he : k' = k
      · subst he
        simp [ofKey, hk]
      · simp [ofKey, hk, Function.update_of_ne he, Ne.symm he]
    · rw [Option.toList_some, ofKey_append, ← h.rest]
      simp [ofKey, hk]
  | release k =>
    refine ⟨?_, ?_, ?_⟩
    · intro k' t ht
      by_cases he : k' = k
      · subst he
        simp at ht
      · simp only [Function.update_of_ne he] at ht
        exact h.home k' t ht
    · intro k'
      rw [Option.toList_none, List.append_nil, ofKey_append, ofKey_of_home (h.home k), ← h.order k']
      by_cases he : k' = k
      · subst he
        simp
      · simp [he]
    · rw [Option.toList_none, List.append_nil, ofKey_append, ofKey_of_home (h.home k), ← h.rest]
      simp

/-- The same ledger, with more items that were let go before. -/
def Ledger.after (l : Ledger κ τ) (before : List τ) : Ledger κ τ :=
  { l with gone := before ++ l.gone }

/-- The same ledger, with what is said of each item. -/
def Ledger.map {υ : Type*} (f : τ → υ) (l : Ledger κ τ) : Ledger κ υ :=
  ⟨l.gone.map f, fun k => (l.held k).map f⟩

/-- Where the key is said of an item, its steps are those of what is said. -/
theorem Step.map {υ : Type*} {f : τ → υ} {key : υ → Option κ} {l l' : Ledger κ τ} {t : Option τ}
    (hs : Step (fun x => key (f x)) l t l') : Step key (l.map f) (t.map f) (l'.map f) := by
  have hheld : ∀ (held : κ → List τ) (k : κ) (ts : List τ),
      (fun k' => (Function.update held k ts k').map f) =
        Function.update (fun k' => (held k').map f) k (ts.map f) := by
    intro held k ts
    funext k'
    exact Function.apply_update (fun _ => List.map f) held k ts k'
  cases hs with
  | pass t hempty =>
    have hpass : Step key _ _ _ :=
      .pass (l.map f) (f t) (fun k hk => congrArg (List.map f) (hempty k hk))
    simpa [Ledger.map] using hpass
  | hold t k hk =>
    have hhold : Step key _ _ _ := .hold (l.map f) (f t) k hk
    simpa [Ledger.map, hheld] using hhold
  | release k =>
    have hrelease : Step key _ _ _ := .release (l.map f) k
    simpa [Ledger.map, hheld] using hrelease

theorem Step.after {l l' : Ledger κ τ} {t : Option τ} (hs : Step key l t l') (before : List τ) :
    Step key (l.after before) t (l'.after before) := by
  cases hs with
  | pass t hempty =>
    have hpass := Step.pass (l.after before) t hempty
    rwa [Ledger.after, List.append_assoc] at hpass
  | hold t k hk => exact .hold (l.after before) t k hk
  | release k =>
    have hrelease : Step key _ none _ := .release (l.after before) k
    rwa [Ledger.after, List.append_assoc] at hrelease

/-- What a key lets go of between two times, and what it then holds, is what
it held before and what it took in since. -/
theorem Kept.since {taken more ds : List τ} {l l' : Ledger κ τ} (h : Kept key taken l)
    (h' : Kept key (taken ++ more) l') (hgone : l'.gone = l.gone ++ ds) (k : κ) :
    ofKey key (some k) ds ++ l'.held k = l.held k ++ ofKey key (some k) more := by
  have horder := h'.order k
  rw [hgone, ofKey_append, ofKey_append, ← h.order k, List.append_assoc, List.append_assoc,
    List.append_cancel_left_eq] at horder
  exact horder

theorem count_ofKey (key : τ → Option κ) [DecidableEq τ] (t : τ) (ts : List τ) :
    (ofKey key (key t) ts).count t = ts.count t :=
  List.count_filter (by simp)

theorem count_held [DecidableEq τ] {held : κ → List τ} (home : ∀ k, ∀ t ∈ held k, key t = some k)
    {t : τ} {k : κ} (hk : key t = some k) {ks : List κ} (hnd : ks.Nodup) :
    (ks.flatMap held).count t = if k ∈ ks then (held k).count t else 0 := by
  induction ks with
  | nil => rfl
  | cons k' ks ih =>
    have hrest := ih hnd.of_cons
    rw [List.flatMap_cons, List.count_append, hrest]
    by_cases he : k' = k
    · subst he
      simp [(List.nodup_cons.mp hnd).1]
    · have hzero : (held k').count t = 0 := by
        rw [List.count_eq_zero]
        intro hm
        have := home k' t hm
        rw [hk, Option.some.injEq] at this
        exact he this.symm
      simp [hzero, Ne.symm he]

/-- The items let go and those held are the items taken in, each as often as
it was taken, when `ks` lists every key that holds something. -/
theorem Kept.perm [DecidableEq τ] {taken : List τ} {l : Ledger κ τ} (h : Kept key taken l)
    {ks : List κ} (hnd : ks.Nodup) (hks : ∀ k, l.held k ≠ [] → k ∈ ks) :
    (l.gone ++ ks.flatMap l.held).Perm taken := by
  rw [List.perm_iff_count]
  intro t
  rw [List.count_append, ← count_ofKey key t l.gone, ← count_ofKey key t taken]
  cases hk : key t with
  | none =>
    have hzero : (ks.flatMap l.held).count t = 0 := by
      rw [List.count_eq_zero, List.mem_flatMap]
      rintro ⟨k, -, hm⟩
      rw [h.home k t hm] at hk
      cases hk
    rw [h.rest, hzero, Nat.add_zero]
  | some k =>
    have hheld : (ks.flatMap l.held).count t = (l.held k).count t := by
      rw [count_held h.home hk hnd]
      split
      · rfl
      · rename_i hm
        have hempty : l.held k = [] := by
          by_contra hne
          exact hm (hks k hne)
        rw [hempty, List.count_nil]
    rw [hheld, ← List.count_append, h.order k]

end ledger
