import Mathlib

/-!
# Families of independent machines

A family of machines is indexed by keys, and a work list names, for every step,
the key of the machine that takes it.  Running the work list on the family is the
same, seen from one key, as running that machine alone on its own part of the
list.  The second half of the file is about the work list itself: sorting it and
removing duplicates keeps each key's part sorted and free of duplicates.

Main results:

- Theorems {lit}`keyedRun_state` and {lit}`keyedRun_outputs`: one key of a family run
  is the run of one machine.
- Theorem {lit}`keyedRun_congr`: related families give related families and equal
  outputs.
- Theorem {lit}`atKey_sortDedup`: the part of a sorted work list that belongs to a key
  is the sorted list of that key's own entries.
-/

namespace KeyedFold

variable {κ σ τ α β : Type} [DecidableEq κ]

/-- The part of a keyed list that belongs to one key. -/
def atKey (k : κ) (l : List (κ × α)) : List α :=
  l.filterMap fun p => if p.1 = k then some p.2 else none

@[simp]
theorem atKey_nil (k : κ) : atKey k ([] : List (κ × α)) = [] :=
  rfl

theorem atKey_cons (k : κ) (p : κ × α) (l : List (κ × α)) :
    atKey k (p :: l) = if p.1 = k then p.2 :: atKey k l else atKey k l := by
  by_cases h : p.1 = k <;> simp [atKey, h]

@[simp]
theorem atKey_append (k : κ) (l l' : List (κ × α)) :
    atKey k (l ++ l') = atKey k l ++ atKey k l' := by
  simp [atKey]

@[simp]
theorem mem_atKey {k : κ} {a : α} {l : List (κ × α)} : a ∈ atKey k l ↔ (k, a) ∈ l := by
  simp only [atKey, List.mem_filterMap, Option.ite_none_right_eq_some, Option.some.injEq,
    Prod.exists]
  constructor
  · rintro ⟨k', a', hmem, rfl, rfl⟩
    exact hmem
  · intro hmem
    exact ⟨k, a, hmem, rfl, rfl⟩

/-! ## Runs of one machine and of a family -/

/-- Run one machine over a list of inputs, collecting one output for each step. -/
def run (step : σ → α → σ × β) : σ → List α → σ × List β
  | s, [] => (s, [])
  | s, a :: l => ((run step (step s a).1 l).1, (step s a).2 :: (run step (step s a).1 l).2)

/-- Run a family of machines over a keyed work list. -/
def keyedRun (step : κ → σ → α → σ × β) : (κ → σ) → List (κ × α) → (κ → σ) × List (κ × β)
  | f, [] => (f, [])
  | f, p :: l =>
      let r := step p.1 (f p.1) p.2
      let rest := keyedRun step (Function.update f p.1 r.1) l
      (rest.1, (p.1, r.2) :: rest.2)

/-- An invariant of every step is an invariant of the run, and every output
satisfies what a step guarantees about its own output. -/
theorem run_invariant (step : σ → α → σ × β) {P : σ → Prop} {Q : α → β → Prop} {l : List α}
    (hstep : ∀ s a, a ∈ l → P s → P (step s a).1 ∧ Q a (step s a).2) {s : σ} (h : P s) :
    P (run step s l).1 ∧ List.Forall₂ Q l (run step s l).2 := by
  induction l generalizing s with
  | nil => exact ⟨h, List.Forall₂.nil⟩
  | cons a l ih =>
      have hhead := hstep s a List.mem_cons_self h
      have htail := ih (fun s x hx => hstep s x (List.mem_cons_of_mem a hx)) hhead.1
      exact ⟨htail.1, List.Forall₂.cons hhead.2 htail.2⟩

/-- An invariant that every step keeps where it is taken is an invariant of the run. -/
theorem run_prefix_invariant (step : σ → α → σ × β) {P : σ → Prop} {l : List α} {s : σ} (h : P s)
    (hstep : ∀ pre a post, l = pre ++ a :: post → P (run step s pre).1 →
      P (step (run step s pre).1 a).1) : P (run step s l).1 := by
  induction l generalizing s with
  | nil => exact h
  | cons a l ih =>
      refine ih (hstep [] a l rfl h) ?_
      intro pre b post hl hP
      exact hstep (a :: pre) b post (congrArg (List.cons a) hl) hP

/-- One machine of a family ends where it ends when it runs alone on its part of the list. -/
theorem keyedRun_state (step : κ → σ → α → σ × β) (f : κ → σ) (l : List (κ × α)) (k : κ) :
    (keyedRun step f l).1 k = (run (step k) (f k) (atKey k l)).1 := by
  induction l generalizing f with
  | nil => rfl
  | cons p l ih =>
      simp only [keyedRun, ih, atKey_cons]
      by_cases h : p.1 = k
      · subst h
        simp [run]
      · have hne : k ≠ p.1 := fun h' => h h'.symm
        simp [h, hne]

/-- One machine of a family gives the outputs that it gives when it runs alone. -/
theorem keyedRun_outputs (step : κ → σ → α → σ × β) (f : κ → σ) (l : List (κ × α)) (k : κ) :
    atKey k (keyedRun step f l).2 = (run (step k) (f k) (atKey k l)).2 := by
  induction l generalizing f with
  | nil => rfl
  | cons p l ih =>
      simp only [keyedRun, atKey_cons, ih]
      by_cases h : p.1 = k
      · subst h
        simp [run]
      · have hne : k ≠ p.1 := fun h' => h h'.symm
        simp [h, hne]

/-- The outputs of a family run carry the keys of the work list. -/
theorem keyedRun_keys (step : κ → σ → α → σ × β) (f : κ → σ) (l : List (κ × α)) :
    (keyedRun step f l).2.map Prod.fst = l.map Prod.fst := by
  induction l generalizing f with
  | nil => rfl
  | cons p l ih => simp [keyedRun, ih]

/-- Families related key by key stay related and produce the same outputs when
every step of the work list preserves the relation and its output. -/
theorem keyedRun_congr {R : κ → σ → τ → Prop} (step : κ → σ → α → σ × β)
    (step' : κ → τ → α → τ × β) {l : List (κ × α)}
    (hstep : ∀ p ∈ l, ∀ s t, R p.1 s t → R p.1 (step p.1 s p.2).1 (step' p.1 t p.2).1 ∧
      (step p.1 s p.2).2 = (step' p.1 t p.2).2)
    {f : κ → σ} {g : κ → τ} (h : ∀ k, R k (f k) (g k)) :
    (∀ k, R k ((keyedRun step f l).1 k) ((keyedRun step' g l).1 k)) ∧
      (keyedRun step f l).2 = (keyedRun step' g l).2 := by
  induction l generalizing f g with
  | nil => exact ⟨h, rfl⟩
  | cons p l ih =>
      have hhead := hstep p List.mem_cons_self (f p.1) (g p.1) (h p.1)
      have hupd : ∀ k, R k (Function.update f p.1 (step p.1 (f p.1) p.2).1 k)
          (Function.update g p.1 (step' p.1 (g p.1) p.2).1 k) := by
        intro k
        by_cases hk : k = p.1
        · subst hk
          simpa using hhead.1
        · simpa [hk] using h k
      have hrest := ih (fun q hq => hstep q (List.mem_cons_of_mem p hq)) hupd
      refine ⟨hrest.1, ?_⟩
      simp only [keyedRun]
      rw [hhead.2, hrest.2]

/-! ## Sorted work lists -/

section SortDedup

variable {r : α → α → Prop} [DecidableRel r] [DecidableEq α]

/-- Sort a list and drop repeated entries. -/
def sortDedup (r : α → α → Prop) [DecidableRel r] (l : List α) : List α :=
  (l.insertionSort r).dedup

@[simp]
theorem mem_sortDedup {a : α} {l : List α} : a ∈ sortDedup r l ↔ a ∈ l := by
  simp [sortDedup]

theorem nodup_sortDedup (l : List α) : (sortDedup r l).Nodup :=
  List.nodup_dedup _

theorem pairwise_sortDedup [Std.Total r] [IsTrans α r] (l : List α) :
    (sortDedup r l).Pairwise r :=
  (List.pairwise_insertionSort r l).sublist (List.dedup_sublist _)

omit [DecidableRel r] [DecidableEq α] in
/-- A sorted list without repetitions is determined by its members. -/
theorem eq_of_sorted_of_mem_iff [Std.Antisymm r] {l l' : List α} (hl : l.Pairwise r)
    (hl' : l'.Pairwise r) (hn : l.Nodup) (hn' : l'.Nodup) (h : ∀ a, a ∈ l ↔ a ∈ l') : l = l' :=
  List.Perm.eq_of_pairwise (fun _ _ _ _ => antisymm) hl hl'
    ((List.perm_ext_iff_of_nodup hn hn').mpr h)

theorem sortDedup_congr [Std.Total r] [IsTrans α r] [Std.Antisymm r] {l l' : List α}
    (h : ∀ a, a ∈ l ↔ a ∈ l') : sortDedup r l = sortDedup r l' :=
  eq_of_sorted_of_mem_iff (pairwise_sortDedup l) (pairwise_sortDedup l') (nodup_sortDedup l)
    (nodup_sortDedup l') (by simpa using h)

end SortDedup

section Lex

variable {κ α β : Type} [LinearOrder κ] [LinearOrder α]

/-- Lexicographic order on keyed entries. -/
def lexLe (p q : κ × α) : Prop :=
  p.1 < q.1 ∨ p.1 = q.1 ∧ p.2 ≤ q.2

instance : DecidableRel (@lexLe κ α _ _) := fun p q =>
  inferInstanceAs (Decidable (p.1 < q.1 ∨ p.1 = q.1 ∧ p.2 ≤ q.2))

instance : Std.Total (@lexLe κ α _ _) where
  total p q := by
    rcases lt_trichotomy p.1 q.1 with h | h | h
    · exact Or.inl (Or.inl h)
    · rcases le_total p.2 q.2 with h' | h'
      · exact Or.inl (Or.inr ⟨h, h'⟩)
      · exact Or.inr (Or.inr ⟨h.symm, h'⟩)
    · exact Or.inr (Or.inl h)

instance : IsTrans (κ × α) lexLe where
  trans p q s := by
    rintro (h | ⟨h, h'⟩) (g | ⟨g, g'⟩)
    · exact Or.inl (h.trans g)
    · exact Or.inl (g ▸ h)
    · exact Or.inl (h ▸ g)
    · exact Or.inr ⟨h.trans g, h'.trans g'⟩

instance : Std.Antisymm (@lexLe κ α _ _) where
  antisymm p q := by
    rintro (h | ⟨h, h'⟩) (g | ⟨g, g'⟩)
    · exact absurd (h.trans g) (lt_irrefl _)
    · exact absurd h (g ▸ lt_irrefl _)
    · exact absurd g (h ▸ lt_irrefl _)
    · exact Prod.ext h (le_antisymm h' g')

omit [LinearOrder κ] in
/-- In a linear order what is left ascends strictly. -/
theorem pairwise_lt_sortDedup (l : List α) : (sortDedup (· ≤ ·) l).Pairwise (· < ·) := by
  have hle : (sortDedup (· ≤ ·) l).Pairwise (· ≤ ·) := pairwise_sortDedup l
  have hne : (sortDedup (· ≤ ·) l).Pairwise (· ≠ ·) := nodup_sortDedup l
  exact (hle.and hne).imp fun h => lt_of_le_of_ne h.1 h.2

omit [LinearOrder α] in
/-- One key's part, as a filter and a projection. -/
theorem atKey_eq_map_filter (k : κ) (l : List (κ × α)) :
    atKey k l = (l.filter fun p => p.1 = k).map Prod.snd := by
  induction l with
  | nil => rfl
  | cons p l ih => by_cases h : p.1 = k <;> simp [atKey_cons, h, ih]

/-- One key's part of a sorted work list is the sorted list of that key's entries. -/
theorem atKey_sortDedup (k : κ) (l : List (κ × α)) :
    atKey k (sortDedup lexLe l) = sortDedup (· ≤ ·) (atKey k l) := by
  have hkey : ∀ p ∈ (sortDedup lexLe l).filter fun p => p.1 = k, p.1 = k := by
    intro p hp
    simpa using (List.mem_filter.mp hp).2
  apply eq_of_sorted_of_mem_iff (r := (· ≤ ·))
  · rw [atKey_eq_map_filter, List.pairwise_map]
    refine ((pairwise_sortDedup (r := lexLe) l).filter _).imp_of_mem ?_
    intro p q hp hq hle
    rcases hle with h | h
    · rw [hkey p hp, hkey q hq] at h
      exact absurd h (lt_irrefl k)
    · exact h.2
  · exact pairwise_sortDedup _
  · rw [atKey_eq_map_filter]
    refine List.Nodup.map_on ?_ ((nodup_sortDedup l).filter _)
    intro p hp q hq h
    exact Prod.ext ((hkey p hp).trans (hkey q hq).symm) h
  · exact nodup_sortDedup _
  · simp

omit [LinearOrder α] in
/-- Entries whose keys ascend and whose parts are each ordered are ordered
lexicographically. -/
theorem pairwise_lex_of_atKey {R : α → α → Prop} {l : List (κ × α)}
    (hkeys : l.Pairwise fun p q => p.1 ≤ q.1) (h : ∀ k, (atKey k l).Pairwise R) :
    l.Pairwise fun p q => p.1 < q.1 ∨ p.1 = q.1 ∧ R p.2 q.2 := by
  rw [List.pairwise_iff_forall_sublist] at hkeys ⊢
  intro p q hsub
  rcases (hkeys hsub).lt_or_eq with hlt | heq
  · exact Or.inl hlt
  · refine Or.inr ⟨heq, ?_⟩
    refine List.pairwise_iff_forall_sublist.mp (h p.1) ?_
    have hpart : atKey p.1 [p, q] = [p.2, q.2] := by simp [atKey_cons, heq]
    rw [← hpart]
    exact hsub.filterMap _

end Lex

end KeyedFold
