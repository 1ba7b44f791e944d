import Relevance.Proofs.RecycledVectors
import Relevance.Proofs.SignedZero

namespace Relevance

open Binary32

def lastWrite (writes : List FeatureWrite) (ordinal : Nat) : Option Binary32 :=
  (writes.reverse.find? (·.ordinal = ordinal)).map (·.score)

theorem lastWrite_cons (write : FeatureWrite) (writes : List FeatureWrite) (ordinal : Nat) :
    lastWrite (write :: writes) ordinal =
      (lastWrite writes ordinal).or
        (if ordinal = write.ordinal then some write.score else none) := by
  rw [lastWrite, lastWrite, List.reverse_cons, List.find?_append, Option.map_or]
  congr 1
  by_cases h : ordinal = write.ordinal
  · rw [if_pos h, List.find?_cons_of_pos (by simpa using h.symm)]
    rfl
  · rw [if_neg h, List.find?_cons_of_neg (by simpa using Ne.symm h)]
    rfl

namespace FeatureVector

variable {kind : VectorKind}

theorem setAll?_lastWrite {v : FeatureVector kind} {writes : List FeatureWrite}
    (h : ∀ write ∈ writes, write.ordinal < v.size) :
    ∃ written, v.setAll? writes = some written ∧ written.size = v.size ∧
      ∀ ordinal, written.get? ordinal = (lastWrite writes ordinal).or (v.get? ordinal) := by
  induction writes generalizing v with
  | nil => exact ⟨v, rfl, rfl, fun _ => rfl⟩
  | cons write writes ih =>
    obtain ⟨hwrite, hwrites⟩ := List.forall_mem_cons.1 h
    obtain ⟨next, hnext, hsize⟩ := v.set?_total write hwrite
    rw [← hsize] at hwrites
    obtain ⟨written, hwritten, hsize', hget⟩ := ih hwrites
    refine ⟨written, ?_, hsize'.trans hsize, ?_⟩
    · rw [setAll?, List.foldlM_cons, hnext]
      exact hwritten
    · intro ordinal
      rw [hget, get?_set? hnext, lastWrite_cons]
      by_cases heq : ordinal = write.ordinal
      · rw [if_pos heq, if_pos heq, Option.or_assoc, Option.some_or]
      · rw [if_neg heq, if_neg heq, Option.or_none]

theorem recycle?_unset {storage : Storage} {reuse : Option (FeatureVector (.plain storage))}
    {size : Nat} {handed : FeatureVector (.plain storage)}
    (h : recycle? reuse size = some handed) :
    size ≤ handed.size ∧ ∀ ordinal < handed.size, handed.get? ordinal = some storage.unset := by
  have hnew (h : blank? storage size = some handed) :
      size ≤ handed.size ∧ ∀ ordinal < handed.size, handed.get? ordinal = some storage.unset := by
    obtain ⟨hsize, hunset⟩ := blank?_unset h
    rw [hsize]
    exact ⟨Nat.le_refl size, hunset⟩
  cases reuse with
  | none => exact hnew h
  | some old =>
    rw [recycle?] at h
    split at h
    · rename_i hle
      cases h
      rw [size_reset]
      exact ⟨hle, fun ordinal => old.get?_reset⟩
    · exact hnew h

end FeatureVector

namespace Ranker

/-- The weight times the score written last, for each ordinal that has both. -/
def writtenTerms (weights : Array Binary32) (writes : List FeatureWrite) : List Binary32 :=
  weights.toList.zipIdx.filterMap fun (weight, ordinal) =>
    (lastWrite writes ordinal).map (weight * ·)

/-- Terms for what was not written can be left out of a sum, which is never negative zero. -/
theorem foldl_written {writes : List FeatureWrite} {terms : List (Binary32 × Nat)}
    (hterms : ∀ term ∈ terms, term.1.isFinite = true) {sum partialSum : Binary32}
    (hsame : sum.Same partialSum) (hsum : sum ≠ negativeZero) :
    (terms.foldl (fun sum term => sum + term.1 * (lastWrite writes term.2).getD .zero) sum).Same
        ((terms.filterMap fun term => (lastWrite writes term.2).map (term.1 * ·)).foldl (· + ·)
          partialSum) ∧
      terms.foldl (fun sum term => sum + term.1 * (lastWrite writes term.2).getD .zero) sum ≠
        negativeZero := by
  induction terms generalizing sum partialSum with
  | nil => exact ⟨hsame, hsum⟩
  | cons term terms ih =>
    obtain ⟨hterm, hterms⟩ := List.forall_mem_cons.1 hterms
    rw [List.foldl_cons]
    have hnext := add_ne_negativeZero hsum (term.1 * (lastWrite writes term.2).getD .zero)
    cases hwrite : lastWrite writes term.2 with
    | none =>
      rw [hwrite] at hnext
      rw [List.filterMap_cons_none (by rw [hwrite, Option.map_none])]
      exact ih hterms ((add_zero_same hsum (isZero_mul_zero hterm)).trans hsame) hnext
    | some score =>
      rw [hwrite] at hnext
      rw [List.filterMap_cons_some (by rw [hwrite, Option.map_some]), List.foldl_cons]
      exact ih hterms (hsame.add (.refl _)) hnext

theorem dot_eq_foldl {weights scores : Array Binary32} {score : Nat → Binary32}
    (h : ∀ ordinal < weights.size, scores[ordinal]? = some (score ordinal)) :
    dot weights scores =
      weights.toList.zipIdx.foldl (fun sum term => sum + term.1 * score term.2) .zero := by
  have hzip : (weights.zip scores).toList =
      weights.toList.zipIdx.map fun term => (term.1, score term.2) := by
    apply List.ext_getElem?
    intro ordinal
    rw [Array.getElem?_toList, Array.zip_eq_zipWith, Array.getElem?_zipWith, List.getElem?_map,
      List.getElem?_zipIdx, Nat.zero_add, Array.getElem?_toList]
    by_cases hlt : ordinal < weights.size
    · rw [h ordinal hlt, Array.getElem?_eq_getElem hlt]
      rfl
    · rw [Array.getElem?_eq_none (Nat.le_of_not_lt hlt)]
      rfl
  rw [dot, ← Array.foldl_toList, hzip, List.foldl_map]

/-- A linear score is the sum of weight times score over the features that were written. -/
theorem linear_score_of_written {weights : Array Binary32}
    (hweights : ∀ weight ∈ weights, weight.isFinite = true)
    {reuse : Option (FeatureVector (.plain .dense))} {handed : FeatureVector (.plain .dense)}
    (hhanded : (linear weights).newVector? reuse = some handed) {writes : List FeatureWrite}
    (hwrites : ∀ write ∈ writes, write.ordinal < handed.size) :
    ∃ written score, handed.setAll? writes = some written ∧
      (linear weights).score written = some (score, written) ∧
      score.Same ((writtenTerms weights writes).foldl (· + ·) .zero) ∧ score ≠ negativeZero := by
  obtain ⟨hcovers, hunset⟩ := FeatureVector.recycle?_unset hhanded
  obtain ⟨written, hwritten, _, hget⟩ := FeatureVector.setAll?_lastWrite hwrites
  have hslots : ∀ ordinal < weights.size,
      written.scores[ordinal]? = some ((lastWrite writes ordinal).getD .zero) := by
    intro ordinal hlt
    apply (hget ordinal).trans
    rw [hunset ordinal (Nat.lt_of_lt_of_le hlt hcovers)]
    cases lastWrite writes ordinal with
    | none => rfl
    | some score => rfl
  have hterms : ∀ term ∈ weights.toList.zipIdx, term.1.isFinite = true := by
    intro term hterm
    exact hweights term.1 (Array.mem_toList_iff.1 (List.fst_mem_of_mem_zipIdx hterm))
  refine ⟨written, dot weights written.scores, hwritten, rfl, ?_⟩
  rw [dot_eq_foldl hslots]
  exact foldl_written hterms (.refl .zero) (by decide)

def threeWeights : Array Binary32 := #[one, ⟨0xc0000000⟩, ⟨0x3f000000⟩]

def fourZeros : FeatureVector (.plain .dense) := .plain (.replicate 4 .zero)

def threeWrites : List FeatureWrite := [⟨1, .infinity⟩, ⟨3, .infinity⟩, ⟨1, one⟩]

theorem linear_score_of_written_recycled :
    ∃ written score, fourZeros.setAll? threeWrites = some written ∧
      (linear threeWeights).score written = some (score, written) ∧ score.Same ⟨0xc0000000⟩ := by
  have hhanded : (linear threeWeights).newVector? (some (.plain #[.nan, .nan, .nan, .nan])) =
      some fourZeros := rfl
  have hwrites : ∀ write ∈ threeWrites, write.ordinal < fourZeros.size := by decide
  obtain ⟨written, score, hwritten, hscore, hsame, _⟩ :=
    linear_score_of_written (by decide) hhanded hwrites
  refine ⟨written, score, hwritten, hscore, ?_⟩
  have hsum : (writtenTerms threeWeights threeWrites).foldl (· + ·) .zero = ⟨0xc0000000⟩ := by
    decide +kernel
  rwa [hsum] at hsame

end Ranker

end Relevance
