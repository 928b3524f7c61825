import ShredstreamProxy.Deshred.Tracker

/-!
# Comparing and hashing shreds

The shreds of an erasure set are kept in a hash set, under an equality and a hash of their own:
copies of a coding shred may differ in the Merkle proof and in the signature of the retransmitter,
and the payload of a data shred may be longer than its data.  The comparison is embedded with its
checked slices, and the hash as what it feeds to a hasher.

Main results:

- Theorem {lit}`ComparableShred.eq_eq_ok`: the comparison never panics, and its result is
  {lit}`comparableEq`.
- Theorem {lit}`comparableShred_lawful`: the comparison and the hash fit together.
- Theorem {lit}`ComparableShred.insertHashed_eq`: a hash set that only looks at shreds of the same
  hash inserts as {lit}`insertComparable` does.
-/

namespace ShredstreamProxy

open Exec

/-- The bytes at the end of a coding shred that are not compared: the Merkle proof, and the
signature of the retransmitter if there is one. -/
def trailingLen (proofSize : Nat) (resigned : Bool) : Nat :=
  proofSize * sizeOfMerkleProofEntry + if resigned then sizeOfSignature else 0

/-- What the derived hash functions of the headers feed to a hasher. -/
structure HeaderHash (H : Type) where
  commonHeader : ShredCommonHeader → H → H
  codingHeader : CodingShredHeader → H → H
  dataHeader : DataShredHeader → H → H

namespace ComparableShred

/-- The comparison.  The payloads of coding shreds are sliced only when the headers agree. -/
def eq (ledger : Ledger) : Shred → Shred → Exec Bool
  | .shredCode s₁, .shredCode s₂ =>
      match s₁.commonHeader.shredVariant with
      | .merkleCode proofSize _ resigned =>
          if s₁.codingHeader == s₂.codingHeader && s₁.commonHeader == s₂.commonHeader then do
            let bytes₁ ← sliceTo s₁.payload.1 (comparisonLen proofSize resigned)
            let bytes₂ ← sliceTo s₂.payload.1 (comparisonLen proofSize resigned)
            pure (bytes₁ == bytes₂)
          else pure false
      | _ => pure false
  | .shredCode _, .shredData _ => pure false
  | .shredData _, .shredCode _ => pure false
  | .shredData s₁, .shredData s₂ =>
      match ledger.getData s₁.payload with
      | none => pure false
      | some data₁ =>
          match ledger.getData s₂.payload with
          | none => pure false
          | some data₂ =>
              pure (s₁.dataHeader == s₂.dataHeader && s₁.commonHeader == s₂.commonHeader &&
                data₁ == data₂)

/-- The hash feeds the headers to the hasher. -/
def hash {H : Type} (feed : HeaderHash H) (state : H) : Shred → H
  | .shredCode s => feed.codingHeader s.codingHeader (feed.commonHeader s.commonHeader state)
  | .shredData s => feed.dataHeader s.dataHeader (feed.commonHeader s.commonHeader state)

/-- What parsing and recovery produce: Merkle coding shreds, and data shreds whose data can be
read. -/
def Produced (ledger : Ledger) : Shred → Prop
  | .shredCode s => ∃ proofSize chained resigned,
      s.commonHeader.shredVariant = .merkleCode proofSize chained resigned
  | .shredData s => (ledger.getData s.payload).isSome

/-! ## The comparison -/

/-- Every slice of the comparison lies inside the payload. -/
theorem sliceTo_payload (s : ShredCode) (proofSize : Nat) (resigned : Bool) :
    sliceTo s.payload.1 (comparisonLen proofSize resigned) =
      .ok (s.payload.1.take (comparisonLen proofSize resigned)) :=
  sliceTo_of_le (comparisonLen_le_length proofSize resigned s)

/-- The comparison never panics. -/
theorem eq_eq_ok (ledger : Ledger) (s t : Shred) :
    eq ledger s t = .ok (comparableEq ledger s t) := by
  cases s with
  | shredCode s =>
      cases t with
      | shredData t => rfl
      | shredCode t =>
          simp only [eq, comparableEq]
          cases s.commonHeader.shredVariant with
          | merkleCode proofSize chained resigned =>
              simp only [sliceTo_payload, ok_bind, pure_eq_ok]
              split
              · rename_i hheaders
                rw [hheaders, Bool.true_and]
              · rename_i hheaders
                rw [Bool.not_eq_true] at hheaders
                rw [hheaders, Bool.false_and]
          | legacyCode | legacyData | merkleData _ _ _ => rfl
  | shredData s =>
      cases t with
      | shredCode t => rfl
      | shredData t =>
          simp only [eq, comparableEq]
          cases ledger.getData s.payload with
          | none => rfl
          | some data₁ => cases ledger.getData t.payload <;> rfl

/-- Payloads agree up to the compared length exactly when they agree before the trailing bytes. -/
theorem take_comparisonLen_eq_iff {s t : ShredCode} {proofSize : Nat} {resigned : Bool} :
    s.payload.1.take (comparisonLen proofSize resigned) =
        t.payload.1.take (comparisonLen proofSize resigned) ↔
      ∀ i, i + trailingLen proofSize resigned < sizeOfCodePayload →
        s.payload.1[i]? = t.payload.1[i]? := by
  have hlen : ∀ i, i < comparisonLen proofSize resigned ↔
      i + trailingLen proofSize resigned < sizeOfCodePayload := by
    intro i
    unfold comparisonLen trailingLen
    omega
  constructor
  · intro h i hi
    have hbyte := congrArg (fun bytes => bytes[i]?) h
    simpa [List.getElem?_take, (hlen i).mpr hi] using hbyte
  · intro h
    apply List.ext_getElem?
    intro i
    rw [List.getElem?_take, List.getElem?_take]
    split
    · rename_i hi
      exact h i ((hlen i).mp hi)
    · rfl

/-- Coding shreds are equal when their headers and the bytes before the proof are. -/
theorem comparableEq_code_iff {ledger : Ledger} {s t : ShredCode} {proofSize : Nat}
    {chained resigned : Bool}
    (hvariant : s.commonHeader.shredVariant = .merkleCode proofSize chained resigned) :
    comparableEq ledger (.shredCode s) (.shredCode t) = true ↔
      s.commonHeader = t.commonHeader ∧ s.codingHeader = t.codingHeader ∧
        ∀ i, i + trailingLen proofSize resigned < sizeOfCodePayload →
          s.payload.1[i]? = t.payload.1[i]? := by
  simp only [comparableEq, hvariant, Bool.and_eq_true, beq_iff_eq, take_comparisonLen_eq_iff]
  tauto

/-- Data shreds are equal when their headers and their data are. -/
theorem comparableEq_data_iff {ledger : Ledger} {s t : ShredData} :
    comparableEq ledger (.shredData s) (.shredData t) = true ↔
      s.commonHeader = t.commonHeader ∧ s.dataHeader = t.dataHeader ∧
        ∃ data, ledger.getData s.payload = some data ∧ ledger.getData t.payload = some data := by
  simp only [comparableEq]
  cases hs : ledger.getData s.payload with
  | none => simp
  | some data₁ =>
      cases ht : ledger.getData t.payload with
      | none => simp
      | some data₂ =>
          simp only [Bool.and_eq_true, beq_iff_eq, Option.some.injEq, exists_eq_left']
          tauto

/-- Only Merkle coding shreds compare equal to anything. -/
theorem variant_of_comparableEq {ledger : Ledger} {s t : ShredCode}
    (h : comparableEq ledger (.shredCode s) (.shredCode t) = true) :
    Produced ledger (.shredCode s) := by
  simp only [comparableEq] at h
  split at h
  · rename_i proofSize chained resigned hvariant
    exact ⟨proofSize, chained, resigned, hvariant⟩
  · contradiction

/-! ## The laws -/

section Laws

variable {ledger : Ledger} {s t u : Shred}

/-- What parsing and recovery produce equals itself. -/
theorem comparableEq_refl (h : Produced ledger s) : comparableEq ledger s s = true := by
  cases s with
  | shredCode s =>
      rcases h with ⟨proofSize, chained, resigned, hvariant⟩
      rw [comparableEq_code_iff hvariant]
      exact ⟨rfl, rfl, fun _ _ => rfl⟩
  | shredData s =>
      rcases Option.isSome_iff_exists.mp h with ⟨data, hdata⟩
      rw [comparableEq_data_iff]
      exact ⟨rfl, rfl, data, hdata, hdata⟩

/-- The compared length comes from the left shred, but the headers of the two are the same. -/
theorem comparableEq_symm (h : comparableEq ledger s t = true) :
    comparableEq ledger t s = true := by
  cases s with
  | shredCode s =>
      cases t with
      | shredData t => exact absurd h (by simp [comparableEq])
      | shredCode t =>
          rcases variant_of_comparableEq h with ⟨proofSize, chained, resigned, hvariant⟩
          rcases (comparableEq_code_iff hvariant).mp h with ⟨hcommon, hcoding, hbytes⟩
          rw [hcommon] at hvariant
          rw [comparableEq_code_iff hvariant]
          exact ⟨hcommon.symm, hcoding.symm, fun i hi => (hbytes i hi).symm⟩
  | shredData s =>
      cases t with
      | shredCode t => exact absurd h (by simp [comparableEq])
      | shredData t =>
          rcases comparableEq_data_iff.mp h with ⟨hcommon, hheader, data, hs, ht⟩
          rw [comparableEq_data_iff]
          exact ⟨hcommon.symm, hheader.symm, data, ht, hs⟩

/-- Equality is transitive. -/
theorem comparableEq_trans (h : comparableEq ledger s t = true)
    (h' : comparableEq ledger t u = true) : comparableEq ledger s u = true := by
  have htype := (comparableEq_header h).2
  have htype' := (comparableEq_header h').2
  cases s with
  | shredCode s =>
      cases t with
      | shredData t => nomatch htype
      | shredCode t =>
          cases u with
          | shredData u => nomatch htype'
          | shredCode u =>
              rcases variant_of_comparableEq h with ⟨proofSize, chained, resigned, hvariant⟩
              rcases (comparableEq_code_iff hvariant).mp h with ⟨hcommon, hcoding, hbytes⟩
              have hvariant' := hvariant
              rw [hcommon] at hvariant'
              rcases (comparableEq_code_iff hvariant').mp h' with ⟨hcommon', hcoding', hbytes'⟩
              rw [comparableEq_code_iff hvariant]
              exact ⟨hcommon.trans hcommon', hcoding.trans hcoding',
                fun i hi => (hbytes i hi).trans (hbytes' i hi)⟩
  | shredData s =>
      cases t with
      | shredCode t => nomatch htype
      | shredData t =>
          cases u with
          | shredCode u => nomatch htype'
          | shredData u =>
              rcases comparableEq_data_iff.mp h with ⟨hcommon, hheader, data, hs, ht⟩
              rcases comparableEq_data_iff.mp h' with ⟨hcommon', hheader', data', ht', hu⟩
              rw [comparableEq_data_iff]
              obtain rfl : data = data' := Option.some.inj (ht.symm.trans ht')
              exact ⟨hcommon.trans hcommon', hheader.trans hheader', data, hs, hu⟩

/-- Equal shreds feed the same to every hasher. -/
theorem hash_of_comparableEq (h : comparableEq ledger s t = true) {H : Type} (feed : HeaderHash H)
    (state : H) : hash feed state s = hash feed state t := by
  have htype := (comparableEq_header h).2
  cases s with
  | shredCode s =>
      cases t with
      | shredData t => nomatch htype
      | shredCode t =>
          rcases variant_of_comparableEq h with ⟨proofSize, chained, resigned, hvariant⟩
          rcases (comparableEq_code_iff hvariant).mp h with ⟨hcommon, hcoding, -⟩
          simp only [hash, hcommon, hcoding]
  | shredData s =>
      cases t with
      | shredCode t => nomatch htype
      | shredData t =>
          rcases comparableEq_data_iff.mp h with ⟨hcommon, hheader, -⟩
          simp only [hash, hcommon, hheader]

end Laws

/-! ## The hash set -/

/-- Insertion into a hash set, which compares a shred only with the shreds of the same hash. -/
def insertHashed {H : Type} (ledger : Ledger) (feed : HeaderHash H) (state : H)
    (finish : H → UInt64) (shreds : List Shred) (shred : Shred) : List Shred :=
  if shreds.any fun t => finish (hash feed state shred) = finish (hash feed state t) &&
      comparableEq ledger shred t then shreds
  else shreds ++ [shred]

/-- Whatever the hasher, no equal shred is overlooked. -/
theorem insertHashed_eq {H : Type} (ledger : Ledger) (feed : HeaderHash H) (state : H)
    (finish : H → UInt64) (shreds : List Shred) (shred : Shred) :
    insertHashed ledger feed state finish shreds shred =
      insertComparable ledger shreds shred := by
  have hsame : (fun t => finish (hash feed state shred) = finish (hash feed state t) &&
      comparableEq ledger shred t) = comparableEq ledger shred := by
    funext t
    by_cases h : comparableEq ledger shred t = true
    · simp [h, hash_of_comparableEq h]
    · simp [h]
  unfold insertHashed insertComparable
  rw [hsame]

/-- The comparison and the hash are fit for a hash set of the shreds that parsing and recovery
produce. -/
structure LawfulKey (ledger : Ledger) : Prop where
  refl : ∀ s, Produced ledger s → eq ledger s s = .ok true
  symm : ∀ s t, Produced ledger s → Produced ledger t → eq ledger s t = .ok true →
    eq ledger t s = .ok true
  trans : ∀ s t u, Produced ledger s → Produced ledger t → Produced ledger u →
    eq ledger s t = .ok true → eq ledger t u = .ok true → eq ledger s u = .ok true
  hash_eq : ∀ s t, Produced ledger s → Produced ledger t → eq ledger s t = .ok true →
    ∀ (H : Type) (feed : HeaderHash H) (state : H), hash feed state s = hash feed state t
  in_bounds : ∀ (s : ShredCode) (proofSize : Nat) (resigned : Bool),
    sliceTo s.payload.1 (comparisonLen proofSize resigned) =
      .ok (s.payload.1.take (comparisonLen proofSize resigned))
  no_panic : ∀ s t, Produced ledger s → Produced ledger t → ∃ b, eq ledger s t = .ok b
  code_iff : ∀ (s t : ShredCode) (proofSize : Nat) (chained resigned : Bool),
    s.commonHeader.shredVariant = .merkleCode proofSize chained resigned →
    Produced ledger (.shredCode t) →
    (eq ledger (.shredCode s) (.shredCode t) = .ok true ↔
      s.commonHeader = t.commonHeader ∧ s.codingHeader = t.codingHeader ∧
        ∀ i, i + trailingLen proofSize resigned < sizeOfCodePayload →
          s.payload.1[i]? = t.payload.1[i]?)

end ComparableShred

open ComparableShred in
/-- Shreds are lawful keys of a hash set. -/
theorem comparableShred_lawful (ledger : Ledger) : LawfulKey ledger where
  refl s hs := by
    rw [eq_eq_ok, comparableEq_refl hs]
  symm s t _ _ h := by
    rw [eq_eq_ok, Except.ok.injEq] at h ⊢
    exact comparableEq_symm h
  trans s t u _ _ _ h h' := by
    rw [eq_eq_ok, Except.ok.injEq] at h h' ⊢
    exact comparableEq_trans h h'
  hash_eq s t _ _ h H feed state := by
    rw [eq_eq_ok, Except.ok.injEq] at h
    exact hash_of_comparableEq h feed state
  in_bounds := sliceTo_payload
  no_panic s t _ _ := ⟨comparableEq ledger s t, eq_eq_ok ledger s t⟩
  code_iff s t proofSize chained resigned hvariant _ := by
    rw [eq_eq_ok, Except.ok.injEq]
    exact comparableEq_code_iff hvariant

/-- A coding shred whose Merkle proof is one entry, filled with the given byte. -/
def Sample.provenCode (fill : UInt8) : ShredCode where
  commonHeader := Sample.header 3 0 0 (.merkleCode 1 false false)
  codingHeader := ⟨2, 2, 0⟩
  payload :=
    ⟨List.replicate (sizeOfCodePayload - sizeOfMerkleProofEntry) 0 ++
      List.replicate sizeOfMerkleProofEntry fill, by
        rw [List.length_append, List.length_replicate, List.length_replicate]
        exact Nat.sub_add_cancel (by decide)⟩

/-- The two copies differ in the bytes of the proof. -/
theorem Sample.provenCode_ne : Sample.provenCode 0 ≠ Sample.provenCode 1 := by
  intro h
  have hpayload := congrArg (fun s : ShredCode => s.payload.1) h
  have hproof := List.append_cancel_left hpayload
  exact absurd hproof (by decide)

/-- Two copies of a coding shred that differ in the bytes of the Merkle proof are equal and feed the
same to a hasher, and a data shred equals itself. -/
theorem comparableShred_lawful_sample :
    Sample.provenCode 0 ≠ Sample.provenCode 1 ∧
      ComparableShred.eq Ledger.wide (.shredCode (Sample.provenCode 0))
        (.shredCode (Sample.provenCode 1)) = .ok true ∧
      (∀ (H : Type) (feed : HeaderHash H) (state : H),
        ComparableShred.hash feed state (.shredCode (Sample.provenCode 0)) =
          ComparableShred.hash feed state (.shredCode (Sample.provenCode 1))) ∧
      ComparableShred.eq Ledger.wide (Sample.data 3 0 0 false) (Sample.data 3 0 0 false) =
        .ok true := by
  have hlawful := comparableShred_lawful Ledger.wide
  have hproduced : ∀ fill, ComparableShred.Produced Ledger.wide
      (.shredCode (Sample.provenCode fill)) := fun _ => ⟨1, false, false, rfl⟩
  have heq : ComparableShred.eq Ledger.wide (.shredCode (Sample.provenCode 0))
      (.shredCode (Sample.provenCode 1)) = .ok true := by
    rw [hlawful.code_iff _ _ 1 false false rfl (hproduced 1)]
    refine ⟨rfl, rfl, ?_⟩
    intro i hi
    -- the compared bytes end before the proof
    have hbefore : i < (List.replicate (sizeOfCodePayload - sizeOfMerkleProofEntry)
        (0 : UInt8)).length := by
      rw [List.length_replicate]
      exact Nat.lt_sub_of_add_lt hi
    unfold Sample.provenCode
    rw [List.getElem?_append_left hbefore, List.getElem?_append_left hbefore]
  exact ⟨Sample.provenCode_ne, heq, hlawful.hash_eq _ _ (hproduced 0) (hproduced 1) heq,
    hlawful.refl _ rfl⟩

end ShredstreamProxy
