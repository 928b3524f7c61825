import Mathlib

/-!
# Families of components

A system of many components keeps their states in a list, and a step changes one of them or adds a
new one.  What is computed over all components, a number of them or a sum, then changes by what this
one contributes.

Main results:

- Theorem {lit}`Family.exists_sum_map_set`: a sum over all components when one of them changes.
- Theorem {lit}`Family.forall_mem_set`: what is true of all components when one of them changes.
- Theorem {lit}`Family.getElem?_set_cases`: where a component was before one of them changed.
- Theorem {lit}`Family.getElem?_concat_cases`: where a component was before one was added.
-/

namespace Family

variable {α : Type} {l : List α} {i : Nat} {a b : α}

/-- A sum over all components splits into that of one component and the rest, and the rest stays
when this component changes. -/
theorem exists_sum_map_set {M : Type} [AddCommMonoid M] (h : l[i]? = some a) (g : α → M) :
    ∃ rest, (l.map g).sum = rest + g a ∧ ∀ b, ((l.set i b).map g).sum = rest + g b := by
  induction l generalizing i with
  | nil => simp at h
  | cons x l ih =>
      cases i with
      | zero =>
          obtain rfl : x = a := by simpa using h
          exact ⟨(l.map g).sum, by simp [add_comm], fun b => by simp [add_comm]⟩
      | succ i =>
          rcases ih (by simpa using h) with ⟨rest, hsum, hset⟩
          refine ⟨g x + rest, by simp [hsum, add_assoc], fun b => ?_⟩
          rw [List.set_cons_succ, List.map_cons, List.sum_cons, hset, add_assoc]

/-- What is true of all components and of the new one is true of all of them afterwards. -/
theorem forall_mem_set {P : α → Prop} (h : ∀ x ∈ l, P x) (hb : P b) : ∀ x ∈ l.set i b, P x := by
  intro x hx
  rcases List.mem_or_eq_of_mem_set hx with hx | rfl
  · exact h x hx
  · exact hb

/-- After one component changed, a component is this one or is as it was. -/
theorem getElem?_set_cases {j : Nat} {c : α} (hj : l[j]? = some a)
    (h : (l.set j b)[i]? = some c) : (j = i ∧ c = b) ∨ (j ≠ i ∧ l[i]? = some c) := by
  have hlt : j < l.length := (List.getElem?_eq_some_iff.mp hj).1
  by_cases hij : j = i
  · subst hij
    rw [List.getElem?_set_self hlt] at h
    exact Or.inl ⟨rfl, (Option.some.inj h).symm⟩
  · rw [List.getElem?_set_ne hij] at h
    exact Or.inr ⟨hij, h⟩

/-- After a component was added, a component was there before or is the new one. -/
theorem getElem?_concat_cases {c : α} (h : (l ++ [b])[i]? = some c) :
    l[i]? = some c ∨ (i = l.length ∧ c = b) := by
  have hlt : i < l.length + 1 := by
    have hbound := (List.getElem?_eq_some_iff.mp h).1
    rwa [List.length_append, List.length_singleton] at hbound
  rcases Nat.lt_succ_iff_lt_or_eq.mp hlt with hold | rfl
  · rw [List.getElem?_append_left hold] at h
    exact Or.inl h
  · rw [List.getElem?_concat_length] at h
    exact Or.inr ⟨rfl, (Option.some.inj h).symm⟩

end Family
