import Relevance.Feature.Matrix
import Relevance.Feature.Vector
import Relevance.Normalizer.Table

namespace Relevance.NormalizerTable

/-- Replaces the score of every normalized ordinal of a vector, in ascending order. -/
def normalizeVector? {kind : VectorKind} (table : NormalizerTable) (v : FeatureVector kind) :
    Option (FeatureVector kind) :=
  table.entries.foldlM (fun v (ordinal, normalizer) => do
    let raw ← v.get? ordinal
    v.set? ⟨ordinal, normalizer.normalize raw⟩) v

/-- Replaces scores up to the first without a slot, and tells whether there was none. -/
def normalizeInPlace {kind : VectorKind} :
    List (Nat × Normalizer) → FeatureVector kind → Bool × FeatureVector kind
  | [], v => (true, v)
  | (ordinal, normalizer) :: rest, v =>
    match (v.get? ordinal).bind fun raw => v.set? ⟨ordinal, normalizer.normalize raw⟩ with
    | some v => normalizeInPlace rest v
    | none => (false, v)

theorem normalizeVector?_eq {kind : VectorKind} (table : NormalizerTable)
    (v : FeatureVector kind) :
    table.normalizeVector? v =
      if (normalizeInPlace table.entries v).1 then some (normalizeInPlace table.entries v).2
      else none := by
  rw [normalizeVector?]
  induction table.entries generalizing v with
  | nil => rfl
  | cons entry rest ih =>
    rw [List.foldlM_cons, normalizeInPlace]
    change Option.bind (Option.bind _ _) _ = _
    cases (v.get? entry.1).bind fun raw => v.set? ⟨entry.1, entry.2.normalize raw⟩ with
    | none => rfl
    | some next => exact ih next

def normalizeRow? (table : NormalizerTable) (row : Array Binary32) : Option (Array Binary32) :=
  table.entries.foldlM (fun row (ordinal, normalizer) =>
    if h : ordinal < row.size then some (row.set ordinal (normalizer.normalize row[ordinal]))
    else none) row

def normalizeMatrixRow? (table : NormalizerTable) (m : FeatureMatrix) (row : Nat) :
    Option FeatureMatrix :=
  table.entries.foldlM (fun m (ordinal, normalizer) => do
    let raw ← m.get? row ordinal
    m.set? row ordinal (normalizer.normalize raw)) m

def normalizeRows? (table : NormalizerTable) (start : Nat) :
    Nat → FeatureMatrix → Option FeatureMatrix
  | 0, m => some m
  | count + 1, m => do normalizeRows? table (start + 1) count (← table.normalizeMatrixRow? m start)

end Relevance.NormalizerTable
