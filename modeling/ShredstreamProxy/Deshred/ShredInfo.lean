import ShredstreamProxy.Deshred.Tracker

/-!
# Counting an erasure set

The loop of {lit}`getDataShredInfo` overwrites the expected number of data shreds at every
coding shred and otherwise keeps the first guess made from a completing data shred, so
its result may depend on the order of iteration.  It does not once a coding shred is
there and all of them agree.

Main results:

- Theorems {lit}`numDataShreds_eq` and {lit}`numCodingShreds_eq`: the counters, modulo their
  width.
- Theorem {lit}`expected_of_agreeing`: the expected numbers when the coding shreds agree.
- Theorem {lit}`getDataShredInfo_perm`: then the order of iteration does not matter.
- Theorem {lit}`expected_of_names`: the expected number of data shreds when every shred that
  names it names the same.
-/

namespace ShredstreamProxy

/-- The coding shreds of a list agree on the numbers of shreds of their set, and the number
of data shreds is not zero. -/
def AgreeOnSize (numDataShreds numCodingShreds : Nat) (shreds : List Shred) : Prop :=
  0 < numDataShreds ∧ ∀ s, .shredCode s ∈ shreds →
    s.codingHeader.numDataShreds = numDataShreds ∧
      s.codingHeader.numCodingShreds = numCodingShreds

/-- The count of data shreds wraps at 16 bits. -/
theorem foldl_count_numDataShreds (l : List Shred) {info : DataShredInfo} {k : Nat}
    (h : info.numDataShreds = k % 2 ^ 16) :
    (l.foldl DataShredInfo.count info).numDataShreds =
      (k + l.countP fun s => s.shredType = .data) % 2 ^ 16 := by
  induction l generalizing info k with
  | nil => simpa using h
  | cons s l ih =>
      rw [List.foldl_cons]
      cases s with
      | shredCode c =>
          rw [ih (k := k) (by simpa [DataShredInfo.count] using h)]
          simp [Shred.shredType]
      | shredData d =>
          rw [ih (k := k + 1) (by simp [DataShredInfo.count, h])]
          rw [List.countP_cons_of_pos (by simp [Shred.shredType]), Nat.add_assoc, Nat.add_comm 1]

/-- The count of coding shreds wraps at 16 bits. -/
theorem foldl_count_numCodingShreds (l : List Shred) {info : DataShredInfo} {k : Nat}
    (h : info.numCodingShreds = k % 2 ^ 16) :
    (l.foldl DataShredInfo.count info).numCodingShreds =
      (k + l.countP fun s => s.shredType = .code) % 2 ^ 16 := by
  induction l generalizing info k with
  | nil => simpa using h
  | cons s l ih =>
      rw [List.foldl_cons]
      cases s with
      | shredCode c =>
          rw [ih (k := k + 1) (by simp [DataShredInfo.count, h])]
          rw [List.countP_cons_of_pos (by simp [Shred.shredType]), Nat.add_assoc, Nat.add_comm 1]
      | shredData d =>
          rw [ih (k := k) (by simpa [DataShredInfo.count] using h)]
          simp [Shred.shredType]

theorem numDataShreds_eq (l : List Shred) :
    (getDataShredInfo l).numDataShreds = (l.countP fun s => s.shredType = .data) % 2 ^ 16 := by
  rw [getDataShredInfo, foldl_count_numDataShreds l (k := 0) rfl, Nat.zero_add]

theorem numCodingShreds_eq (l : List Shred) :
    (getDataShredInfo l).numCodingShreds = (l.countP fun s => s.shredType = .code) % 2 ^ 16 := by
  rw [getDataShredInfo, foldl_count_numCodingShreds l (k := 0) rfl, Nat.zero_add]

/-- Once a coding shred was counted, agreeing coding shreds and data shreds change nothing. -/
theorem foldl_count_expected {n c : Nat} {l : List Shred} (h : AgreeOnSize n c l)
    {info : DataShredInfo} (hdata : info.numExpectedDataShreds = n)
    (hcode : info.numExpectedCodingShreds = c) :
    (l.foldl DataShredInfo.count info).numExpectedDataShreds = n ∧
      (l.foldl DataShredInfo.count info).numExpectedCodingShreds = c := by
  induction l generalizing info with
  | nil => exact ⟨hdata, hcode⟩
  | cons s l ih =>
      have hrest : AgreeOnSize n c l := ⟨h.1, fun t ht => h.2 t (List.mem_cons_of_mem s ht)⟩
      rw [List.foldl_cons]
      cases s with
      | shredCode t =>
          have ht := h.2 t List.mem_cons_self
          exact ih hrest (by simpa [DataShredInfo.count] using ht.1)
            (by simpa [DataShredInfo.count] using ht.2)
      | shredData t =>
          have hne : info.numExpectedDataShreds ≠ 0 := by
            rw [hdata]
            exact h.1.ne'
          exact ih hrest (by simpa [DataShredInfo.count, hne] using hdata)
            (by simpa [DataShredInfo.count] using hcode)

/-- Coding shreds that agree on the sizes of their set give these sizes. -/
theorem foldl_count_expected_of_exists {n c : Nat} {l : List Shred} (h : AgreeOnSize n c l)
    (hexists : ∃ s ∈ l, s.shredType = .code) (info : DataShredInfo) :
    (l.foldl DataShredInfo.count info).numExpectedDataShreds = n ∧
      (l.foldl DataShredInfo.count info).numExpectedCodingShreds = c := by
  induction l generalizing info with
  | nil =>
      rcases hexists with ⟨s, hs, _⟩
      exact absurd hs List.not_mem_nil
  | cons s l ih =>
      have hrest : AgreeOnSize n c l := ⟨h.1, fun t ht => h.2 t (List.mem_cons_of_mem s ht)⟩
      rw [List.foldl_cons]
      cases s with
      | shredCode t =>
          have ht := h.2 t List.mem_cons_self
          exact foldl_count_expected hrest (by simpa [DataShredInfo.count] using ht.1)
            (by simpa [DataShredInfo.count] using ht.2)
      | shredData t =>
          refine ih hrest ?_ _
          rcases hexists with ⟨s, hs, htype⟩
          rcases List.mem_cons.mp hs with rfl | hs
          · contradiction
          · exact ⟨s, hs, htype⟩

/-- The expected numbers are those of the coding shreds, when there is one and all agree. -/
theorem expected_of_agreeing {n c : Nat} {l : List Shred} (h : AgreeOnSize n c l)
    (hexists : ∃ s ∈ l, s.shredType = .code) :
    (getDataShredInfo l).numExpectedDataShreds = n ∧
      (getDataShredInfo l).numExpectedCodingShreds = c :=
  foldl_count_expected_of_exists h hexists _

/-- With agreeing coding shreds the order of iteration does not matter. -/
theorem getDataShredInfo_perm {n c : Nat} {l l' : List Shred} (hperm : l.Perm l')
    (h : AgreeOnSize n c l) (hexists : ∃ s ∈ l, s.shredType = .code) :
    getDataShredInfo l = getDataShredInfo l' := by
  have h' : AgreeOnSize n c l' := ⟨h.1, fun s hs => h.2 s (hperm.mem_iff.mpr hs)⟩
  have hexists' : ∃ s ∈ l', s.shredType = .code := by
    rcases hexists with ⟨s, hs, htype⟩
    exact ⟨s, hperm.mem_iff.mp hs, htype⟩
  have hl := expected_of_agreeing h hexists
  have hl' := expected_of_agreeing h' hexists'
  have hdata : (getDataShredInfo l).numDataShreds = (getDataShredInfo l').numDataShreds := by
    rw [numDataShreds_eq, numDataShreds_eq, hperm.countP_eq]
  have hcode : (getDataShredInfo l).numCodingShreds = (getDataShredInfo l').numCodingShreds := by
    rw [numCodingShreds_eq, numCodingShreds_eq, hperm.countP_eq]
  cases hi : getDataShredInfo l
  cases hi' : getDataShredInfo l'
  simp only [hi, hi'] at hl hl' hdata hcode
  simp only [DataShredInfo.mk.injEq]
  exact ⟨hl.1.trans hl'.1.symm, hl.2.trans hl'.2.symm, hdata, hcode⟩

/-! ## Sets of a known size -/

/-- The shred names `n` as the number of data shreds of its set, if it names a number: a coding
shred by its header, a completing data shred by its distance from the start of the set. -/
def Shred.Names (n : Nat) : Shred → Prop
  | .shredCode s => s.codingHeader.numDataShreds = n
  | .shredData s => s.completes = true →
      ((s.commonHeader.index + 2 ^ 32 - s.commonHeader.fecSetIndex) % 2 ^ 32 % 2 ^ 16 + 1) % 2 ^ 16
        = n

/-- Coding shreds that name one number of data shreds give this number. -/
theorem foldl_count_names {n : Nat} {l : List Shred} (h : ∀ s ∈ l, s.Names n)
    {info : DataShredInfo}
    (hinfo : info.numExpectedDataShreds = 0 ∨ info.numExpectedDataShreds = n) :
    ((l.foldl DataShredInfo.count info).numExpectedDataShreds = 0 ∨
        (l.foldl DataShredInfo.count info).numExpectedDataShreds = n) ∧
      ((∃ s ∈ l, s.shredType = .code) ∨ info.numExpectedDataShreds = n →
        (l.foldl DataShredInfo.count info).numExpectedDataShreds = n) := by
  induction l generalizing info with
  | nil => exact ⟨hinfo, fun h => h.resolve_left (by simp)⟩
  | cons s l ih =>
      have hrest : ∀ t ∈ l, t.Names n := fun t ht => h t (List.mem_cons_of_mem s ht)
      have hs := h s List.mem_cons_self
      rw [List.foldl_cons]
      cases s with
      | shredCode c =>
          have hnow : (info.count (.shredCode c)).numExpectedDataShreds = n := hs
          have hnext := ih hrest (Or.inr hnow)
          exact ⟨hnext.1, fun _ => hnext.2 (Or.inr hnow)⟩
      | shredData d =>
          have hkeep : info.numExpectedDataShreds = n →
              (info.count (.shredData d)).numExpectedDataShreds = n := by
            intro hn
            simp only [DataShredInfo.count, Bool.and_eq_true, decide_eq_true_eq]
            split
            · rename_i hguess
              exact hs hguess.2
            · exact hn
          have hnow : (info.count (.shredData d)).numExpectedDataShreds = 0 ∨
              (info.count (.shredData d)).numExpectedDataShreds = n := by
            rcases hinfo with hzero | hn
            · simp only [DataShredInfo.count, Bool.and_eq_true, decide_eq_true_eq]
              split
              · rename_i hguess
                exact Or.inr (hs hguess.2)
              · exact Or.inl hzero
            · exact Or.inr (hkeep hn)
          have hnext := ih hrest hnow
          refine ⟨hnext.1, ?_⟩
          rintro (⟨t, ht, htype⟩ | hn)
          · rcases List.mem_cons.mp ht with rfl | ht
            · contradiction
            · exact hnext.2 (Or.inl ⟨t, ht, htype⟩)
          · exact hnext.2 (Or.inr (hkeep hn))

/-- The expected number of data shreds is unknown or the one that is named, and known as soon
as there is a coding shred. -/
theorem expected_of_names {n : Nat} {l : List Shred} (h : ∀ s ∈ l, s.Names n) :
    ((getDataShredInfo l).numExpectedDataShreds = 0 ∨
        (getDataShredInfo l).numExpectedDataShreds = n) ∧
      ((∃ s ∈ l, s.shredType = .code) → (getDataShredInfo l).numExpectedDataShreds = n) := by
  have hcount := @foldl_count_names n l h ⟨0, 0, 0, 0⟩ (Or.inl rfl)
  exact ⟨hcount.1, fun hcode => hcount.2 (Or.inl hcode)⟩

end ShredstreamProxy
