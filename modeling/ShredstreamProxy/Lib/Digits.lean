import Mathlib

/-!
# Reading numbers from text

A number is read from the longest run of digits at the front of a text, with a bound on the
number of digits and on the value, and possibly without redundant leading zeros.  Under the last
restriction a decimal number has exactly one text, so reading is the inverse of writing.

Main results:

- Theorem {lit}`readDigits_eq_iff`: the run of decimal digits at the front of a text.
- Theorem {lit}`toDigits_value`: digits without a redundant zero are the text of their value.
- Theorem {lit}`readNumber_eq_some_iff`: which texts a decimal number is read from.
-/

namespace Digits

/-- The value of a character as a digit: the digits are followed by the letters, of either
case. -/
def toDigit (radix : Nat) (c : Char) : Option Nat :=
  let d :=
    if 48 ≤ c.toNat ∧ c.toNat ≤ 57 then some (c.toNat - 48)
    else if 97 ≤ c.toNat ∧ c.toNat ≤ 122 then some (c.toNat - 87)
    else if 65 ≤ c.toNat ∧ c.toNat ≤ 90 then some (c.toNat - 55)
    else none
  d.filter (· < radix)

/-- The longest run of digits at the front of a text, and what follows it. -/
def readDigits (radix : Nat) : List Char → List Nat × List Char
  | [] => ([], [])
  | c :: text =>
      match toDigit radix c with
      | none => ([], c :: text)
      | some d => (d :: (readDigits radix text).1, (readDigits radix text).2)

/-- The value of a list of digits, the most significant one first. -/
def value (radix : Nat) (digits : List Nat) : Nat :=
  digits.foldl (fun v d => v * radix + d) 0

/-- The digits have a zero in front that could be left out. -/
def hasZeroPadding (digits : List Nat) : Bool :=
  digits.head? = some 0 && decide (1 < digits.length)

/-- Read a number below a bound from at most so many digits. -/
def readNumber (radix maxDigits : Nat) (allowPadding : Bool) (bound : Nat) (text : List Char) :
    Option (Fin bound × List Char) :=
  let (digits, rest) := readDigits radix text
  if digits = [] ∨ maxDigits < digits.length ∨ (!allowPadding && hasZeroPadding digits) then none
  else if h : value radix digits < bound then some (⟨value radix digits, h⟩, rest)
  else none

/-- The text does not start with a decimal digit. -/
def NoDigit (text : List Char) : Prop := ∀ c ∈ text.head?, toDigit 10 c = none

theorem noDigit_nil : NoDigit [] := by
  simp [NoDigit]

/-! ## Single digits -/

/-- A decimal digit is read from its own character. -/
theorem toDigit_digitChar {d : Nat} (h : d < 10) : toDigit 10 (Nat.digitChar d) = some d := by
  interval_cases d <;> rfl

/-- A decimal digit is read from no other character. -/
theorem toDigit_eq_some_iff {c : Char} {d : Nat} :
    toDigit 10 c = some d ↔ d < 10 ∧ c = Nat.digitChar d := by
  constructor
  · intro h
    unfold toDigit at h
    rcases Option.filter_eq_some_iff.mp h with ⟨hd, hlt⟩
    rw [decide_eq_true_eq] at hlt
    refine ⟨hlt, Char.toNat_inj.mp ?_⟩
    rw [Nat.toNat_digitChar_of_lt_ten hlt]
    -- the letters have values from ten on
    split at hd
    · rw [Option.some.injEq] at hd
      omega
    · split at hd
      · rw [Option.some.injEq] at hd
        omega
      · split at hd
        · rw [Option.some.injEq] at hd
          omega
        · contradiction
  · rintro ⟨h, rfl⟩
    exact toDigit_digitChar h

/-! ## Runs of digits -/

/-- Reading digits takes the longest prefix of digits and leaves the rest. -/
theorem readDigits_eq_iff {text rest : List Char} {digits : List Nat} :
    readDigits 10 text = (digits, rest) ↔
      text = digits.map Nat.digitChar ++ rest ∧ (∀ d ∈ digits, d < 10) ∧ NoDigit rest := by
  induction text generalizing digits with
  | nil =>
      simp only [readDigits, Prod.mk.injEq, List.nil_eq, List.append_eq_nil_iff,
        List.map_eq_nil_iff]
      constructor
      · rintro ⟨rfl, rfl⟩
        exact ⟨⟨rfl, rfl⟩, by simp, noDigit_nil⟩
      · rintro ⟨⟨rfl, rfl⟩, _⟩
        exact ⟨rfl, rfl⟩
  | cons c text ih =>
      cases hc : toDigit 10 c with
      | none =>
          have hread : readDigits 10 (c :: text) = ([], c :: text) := by simp [readDigits, hc]
          rw [hread, Prod.mk.injEq]
          constructor
          · rintro ⟨rfl, rfl⟩
            exact ⟨rfl, by simp, by simp [NoDigit, hc]⟩
          · rintro ⟨htext, hlt, hrest⟩
            cases digits with
            | nil => exact ⟨rfl, htext⟩
            | cons d digits =>
                rw [List.map_cons, List.cons_append, List.cons.injEq] at htext
                rw [htext.1, toDigit_digitChar (hlt d List.mem_cons_self)] at hc
                contradiction
      | some d =>
          have hread : readDigits 10 (c :: text) =
              (d :: (readDigits 10 text).1, (readDigits 10 text).2) := by simp [readDigits, hc]
          rcases toDigit_eq_some_iff.mp hc with ⟨hd, rfl⟩
          rw [hread, Prod.mk.injEq]
          constructor
          · rintro ⟨rfl, hrest⟩
            rcases ih.mp (Prod.ext rfl hrest) with ⟨htext, hlt, hno⟩
            refine ⟨by rw [List.map_cons, List.cons_append, ← htext], ?_, hno⟩
            exact List.forall_mem_cons.mpr ⟨hd, hlt⟩
          · rintro ⟨htext, hlt, hno⟩
            cases digits with
            | nil =>
                rw [List.map_nil, List.nil_append] at htext
                rw [← htext] at hno
                have hnone := hno _ rfl
                rw [hc] at hnone
                contradiction
            | cons d' digits =>
                rw [List.map_cons, List.cons_append, List.cons.injEq] at htext
                rw [htext.1, toDigit_digitChar (hlt d' List.mem_cons_self),
                  Option.some.injEq] at hc
                have hrest := ih.mpr
                  ⟨htext.2, fun x hx => hlt x (List.mem_cons_of_mem d' hx), hno⟩
                rw [hrest, hc]
                exact ⟨rfl, rfl⟩

@[simp]
theorem value_concat (radix : Nat) (digits : List Nat) (d : Nat) :
    value radix (digits ++ [d]) = value radix digits * radix + d := by
  simp [value]

/-- A number is not padded when a leading zero stands alone. -/
theorem hasZeroPadding_eq_false_iff {digits : List Nat} :
    hasZeroPadding digits = false ↔ (1 < digits.length → digits.head? ≠ some 0) := by
  simp only [hasZeroPadding, Bool.and_eq_false_imp, decide_eq_true_eq, decide_eq_false_iff_not]
  exact ⟨fun h hlen hhead => h hhead hlen, fun h hhead hlen => h hlen hhead⟩

/-- Digits without a redundant zero are the text of their value. -/
theorem toDigits_value {digits : List Nat} (hne : digits ≠ []) (hlt : ∀ d ∈ digits, d < 10)
    (hpad : hasZeroPadding digits = false) :
    Nat.toDigits 10 (value 10 digits) = digits.map Nat.digitChar := by
  induction digits using List.reverseRecOn with
  | nil => exact absurd rfl hne
  | append_singleton digits d ih =>
      have hd : d < 10 := hlt d (by simp)
      by_cases hnil : digits = []
      · subst hnil
        have hvalue : value 10 ([] ++ [d]) = d := by simp [value]
        rw [hvalue, Nat.toDigits_of_lt_base hd]
        rfl
      · rw [hasZeroPadding_eq_false_iff, List.head?_append_of_ne_nil _ hnil] at hpad
        have hlength : 1 < (digits ++ [d]).length := by
          rw [List.length_append, List.length_singleton]
          have := List.length_pos_of_ne_nil hnil
          omega
        have hhead := hpad hlength
        have htext := ih hnil (fun x hx => hlt x (List.mem_append_left _ hx))
          (hasZeroPadding_eq_false_iff.mpr fun _ => hhead)
        -- a vanishing value would be written as a single zero
        have hpos : 0 < value 10 digits := by
          by_contra hzero
          have hvalue : value 10 digits = 0 := Nat.eq_zero_of_not_pos hzero
          rw [hvalue, Nat.toDigits_zero] at htext
          cases digits with
          | nil => exact hnil rfl
          | cons x digits =>
              rw [List.map_cons, List.cons.injEq, Nat.zero_eq_digitChar] at htext
              exact hhead (by rw [List.head?_cons, htext.1])
        rw [value_concat, Nat.mul_comm, ← Nat.toDigits_append_toDigits (by decide) hpos hd, htext,
          Nat.toDigits_of_lt_base hd, List.map_append]
        rfl

/-- Every number has digits without a redundant zero. -/
theorem exists_digits (n : Nat) : ∃ digits, digits ≠ [] ∧ (∀ d ∈ digits, d < 10) ∧
    hasZeroPadding digits = false ∧ value 10 digits = n := by
  induction n using Nat.strong_induction_on with
  | _ n ih =>
      by_cases hn : n < 10
      · refine ⟨[n], by simp, by simpa using hn, by simp [hasZeroPadding], by simp [value]⟩
      · rcases ih (n / 10) (by omega) with ⟨digits, hne, hlt, hpad, hvalue⟩
        refine ⟨digits ++ [n % 10], by simp, ?_, ?_, ?_⟩
        · intro d hd
          rcases List.mem_append.mp hd with hd | hd
          · exact hlt d hd
          · rw [List.mem_singleton.mp hd]
            omega
        · rw [hasZeroPadding_eq_false_iff, List.head?_append_of_ne_nil _ hne]
          intro _ hhead
          rw [hasZeroPadding_eq_false_iff] at hpad
          have hone : ¬ 1 < digits.length := fun hlength => hpad hlength hhead
          cases digits with
          | nil => exact hne rfl
          | cons x digits =>
              obtain rfl : digits = [] := by
                simpa using hone
              obtain rfl : x = 0 := by simpa using hhead
              have hzero : n / 10 = 0 := by simpa [value] using hvalue.symm
              omega
        · rw [value_concat, hvalue]
          omega

/-! ## Numbers -/

/-- A decimal number without redundant zeros is read from its own text. -/
theorem readNumber_eq_some_iff {maxDigits bound : Nat} {n : Fin bound} {text rest : List Char} :
    readNumber 10 maxDigits false bound text = some (n, rest) ↔
      text = Nat.toDigits 10 n ++ rest ∧ NoDigit rest ∧
        (Nat.toDigits 10 n).length ≤ maxDigits := by
  constructor
  · intro h
    unfold readNumber at h
    rcases hread : readDigits 10 text with ⟨digits, rest'⟩
    rw [hread] at h
    rcases readDigits_eq_iff.mp hread with ⟨htext, hlt, hno⟩
    simp only at h
    split at h
    · contradiction
    · rename_i hgood
      split at h
      · rw [Option.some.injEq, Prod.mk.injEq] at h
        obtain ⟨rfl, rfl⟩ := h
        rw [not_or, not_or] at hgood
        rw [toDigits_value hgood.1 hlt (by simpa using hgood.2.2)]
        exact ⟨htext, hno, by simpa using hgood.2.1⟩
      · contradiction
  · rintro ⟨htext, hno, hlength⟩
    rcases exists_digits n with ⟨digits, hne, hlt, hpad, hvalue⟩
    rw [← hvalue, toDigits_value hne hlt hpad] at htext hlength
    have hread := readDigits_eq_iff.mpr ⟨htext, hlt, hno⟩
    have hgood : ¬ (digits = [] ∨ maxDigits < digits.length ∨
        (!false && hasZeroPadding digits) = true) := by
      rw [List.length_map] at hlength
      simp [hne, hpad, hlength]
    unfold readNumber
    simp only [hread, if_neg hgood, hvalue, n.isLt, dif_pos]

end Digits
