import Mathlib

/-!
# Growing partial maps

A partial map grows when keys are given values and none is taken back.  The keys gained in two
steps are those gained in the first one and those gained in the second one, and no key is gained
twice.

Main results:

- Theorem {lit}`gained_update`: filling one free key gains it.
- Theorem {lit}`encard_gained_trans`: the numbers of gained keys add up.
-/

namespace PartialMap

variable {α β : Type*} {f g h : α → Option β}

/-- The keys at which `g` is defined and `f` is not. -/
def gained (f g : α → Option β) : Set α :=
  {a | f a = none ∧ g a ≠ none}

/-- The second map extends the first one. -/
def Extends (f g : α → Option β) : Prop :=
  ∀ a b, f a = some b → g a = some b

theorem Extends.refl (f : α → Option β) : Extends f f :=
  fun _ _ h => h

theorem Extends.trans (h₁ : Extends f g) (h₂ : Extends g h) : Extends f h :=
  fun a b hab => h₂ a b (h₁ a b hab)

theorem gained_self (f : α → Option β) : gained f f = ∅ := by
  ext a
  simp [gained]

/-- Setting a free key gains exactly this key. -/
theorem gained_update [DecidableEq α] {a : α} {b : β} (ha : f a = none) :
    gained f (Function.update f a (some b)) = {a} := by
  ext a'
  by_cases h : a' = a
  · simp [gained, h, ha]
  · simp [gained, h]

/-- What two steps gain, they gain at different keys. -/
theorem encard_gained_trans (h₁ : Extends f g) (h₂ : Extends g h) :
    (gained f h).encard = (gained f g).encard + (gained g h).encard := by
  have hunion : gained f h = gained f g ∪ gained g h := by
    ext a
    simp only [gained, Set.mem_union, Set.mem_ofPred_eq]
    constructor
    · rintro ⟨hf, hh⟩
      by_cases hg : g a = none
      · exact Or.inr ⟨hg, hh⟩
      · exact Or.inl ⟨hf, hg⟩
    · rintro (⟨hf, hg⟩ | ⟨hg, hh⟩)
      · rcases Option.ne_none_iff_exists'.mp hg with ⟨b, hb⟩
        exact ⟨hf, by simp [h₂ a b hb]⟩
      · refine ⟨?_, hh⟩
        rw [Option.eq_none_iff_forall_ne_some]
        intro b hb
        rw [h₁ a b hb] at hg
        contradiction
  have hdisjoint : Disjoint (gained f g) (gained g h) := by
    rw [Set.disjoint_left]
    exact fun a hfg hgh => hfg.2 hgh.1
  rw [hunion, Set.encard_union_eq hdisjoint]

end PartialMap
