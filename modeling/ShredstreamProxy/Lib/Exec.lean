import Mathlib

/-!
# Executions that may panic

A small vocabulary for programs that index vectors and unwrap options.  An
execution is a value or the panic that stopped it; {lit}`index` and {lit}`store`
are the checked vector accesses, and the loop rules at the end say when a loop
returns, and carry a relation to a total loop, and an invariant, through it.

Main results:

- Theorems {lit}`index_of_getElem?` and {lit}`store_of_lt`: in-range accesses return.
- Theorem {lit}`forM_eq_ok_iff`: when a loop without state returns.
- Theorem {lit}`foldlM_refines`: a loop that may panic refines a total loop as soon as
  every one of its steps refines the corresponding total step.
- Theorem {lit}`foldlM_invariant`: an invariant of the states a loop passes through.
-/

namespace Exec

/-- The reasons for which an execution stops. -/
inductive Panic where
  | indexOutOfBounds
  | sliceOutOfRange
  | unwrapNone
deriving DecidableEq

end Exec

/-- An execution: a result, or the panic that stopped it. -/
abbrev Exec (α : Type) := Except Exec.Panic α

namespace Exec

variable {α β γ : Type}

/-- Checked read of a vector. -/
def index (v : List α) (i : Nat) : Exec α :=
  match v[i]? with
  | some a => .ok a
  | none => .error .indexOutOfBounds

/-- Checked write to a vector. -/
def store (v : List α) (i : Nat) (a : α) : Exec (List α) :=
  if i < v.length then .ok (v.set i a) else .error .indexOutOfBounds

/-- Checked inclusive slice of a vector. -/
def slice (v : List α) (start last : Nat) : Exec (List α) :=
  if start ≤ last + 1 ∧ last < v.length then .ok ((v.drop start).take (last + 1 - start))
  else .error .sliceOutOfRange

/-- Checked prefix of a vector. -/
def sliceTo (v : List α) (n : Nat) : Exec (List α) :=
  if n ≤ v.length then .ok (v.take n) else .error .sliceOutOfRange

/-- Unwrap an optional value. -/
def unwrap : Option α → Exec α
  | some a => .ok a
  | none => .error .unwrapNone

/-- Indexing within the bounds returns the element. -/
theorem index_of_getElem? {v : List α} {i : Nat} {a : α} (h : v[i]? = some a) :
    index v i = .ok a := by
  simp [index, h]

theorem store_of_lt {v : List α} {i : Nat} {a : α} (h : i < v.length) :
    store v i a = .ok (v.set i a) := by
  simp [store, h]

theorem slice_of_lt {v : List α} {start last : Nat} (h : start ≤ last) (hlast : last < v.length) :
    slice v start last = .ok ((v.drop start).take (last + 1 - start)) := by
  simp [slice, hlast, Nat.le_succ_of_le h]

theorem sliceTo_of_le {v : List α} {n : Nat} (h : n ≤ v.length) :
    sliceTo v n = .ok (v.take n) := by
  simp [sliceTo, h]

/-- An unwrap returns the value exactly when there is one. -/
theorem unwrap_eq_ok_iff {o : Option α} {a : α} : unwrap o = .ok a ↔ o = some a := by
  cases o <;> simp [unwrap]

@[simp]
theorem ok_bind (a : α) (f : α → Exec β) : ((.ok a : Exec α) >>= f) = f a :=
  rfl

@[simp]
theorem error_bind (e : Panic) (f : α → Exec β) : ((.error e : Exec α) >>= f) = .error e :=
  rfl

@[simp]
theorem pure_eq_ok (a : α) : (pure a : Exec α) = .ok a :=
  rfl

/-- A bind returns exactly when both of its parts do. -/
theorem bind_eq_ok_iff {x : Exec α} {f : α → Exec β} {b : β} :
    (x >>= f) = .ok b ↔ ∃ a, x = .ok a ∧ f a = .ok b := by
  cases x with
  | error e => simp
  | ok a => simp

/-- A loop over a list returns exactly when its body returns for every element. -/
theorem forM_eq_ok_iff {l : List α} {f : α → Exec Unit} :
    l.forM f = .ok () ↔ ∀ a ∈ l, f a = .ok () := by
  induction l with
  | nil => simp [List.forM]
  | cons a l ih =>
      change (f a >>= fun _ => l.forM f) = .ok () ↔ _
      rw [bind_eq_ok_iff, List.forall_mem_cons, ← ih]
      constructor
      · rintro ⟨_, ha, hl⟩
        exact ⟨ha, hl⟩
      · intro h
        exact ⟨(), h.1, h.2⟩

/-- A map over a list whose body never panics. -/
theorem mapM_eq_ok {f : α → Exec β} {g : α → β} {l : List α} (h : ∀ a ∈ l, f a = .ok (g a)) :
    l.mapM f = .ok (l.map g) := by
  induction l with
  | nil => rfl
  | cons a l ih =>
      have hrest := ih fun x hx => h x (List.mem_cons_of_mem a hx)
      simp [List.mapM_cons, h a List.mem_cons_self, hrest]

/-- A loop that may panic refines a total loop when each step does. -/
theorem foldlM_refines {R : β → γ → Prop} {f : β → α → Exec β} {g : γ → α → γ} {l : List α}
    (hstep : ∀ b c a, a ∈ l → R b c → ∃ b', f b a = .ok b' ∧ R b' (g c a))
    {b : β} {c : γ} (h : R b c) :
    ∃ b', l.foldlM f b = .ok b' ∧ R b' (l.foldl g c) := by
  induction l generalizing b c with
  | nil => exact ⟨b, rfl, h⟩
  | cons a l ih =>
      rcases hstep b c a List.mem_cons_self h with ⟨b₁, hb₁, hR₁⟩
      have hrest : ∀ b c x, x ∈ l → R b c → ∃ b', f b x = .ok b' ∧ R b' (g c x) :=
        fun b c x hx => hstep b c x (List.mem_cons_of_mem a hx)
      rcases ih hrest hR₁ with ⟨b₂, hb₂, hR₂⟩
      refine ⟨b₂, ?_, hR₂⟩
      simp only [List.foldlM_cons, hb₁, ok_bind]
      exact hb₂

/-- An invariant of a loop that returns.  A step may use that its state is the one the loop
reaches after the elements before it. -/
theorem foldlM_invariant {I : β → Prop} {f : β → α → Exec β} {l : List α} {b b' : β}
    (h : l.foldlM f b = .ok b') (hb : I b)
    (hstep : ∀ pre a post b₁ b₂, l = pre ++ a :: post → pre.foldlM f b = .ok b₁ →
      f b₁ a = .ok b₂ → I b₁ → I b₂) : I b' := by
  induction l using List.reverseRecOn generalizing b' with
  | nil =>
      simp only [List.foldlM_nil, pure_eq_ok, Except.ok.injEq] at h
      exact h ▸ hb
  | append_singleton l a ih =>
      rw [List.foldlM_append] at h
      rcases bind_eq_ok_iff.mp h with ⟨b₁, hb₁, hlast⟩
      rw [List.foldlM_cons] at hlast
      rcases bind_eq_ok_iff.mp hlast with ⟨b₂, hb₂, heq⟩
      obtain rfl : b₂ = b' := by simpa using heq
      refine hstep l a [] b₁ b₂ rfl hb₁ hb₂ (ih hb₁ ?_)
      intro pre x post c₁ c₂ hl
      exact hstep pre x (post ++ [a]) c₁ c₂ (by simp [hl])

end Exec
