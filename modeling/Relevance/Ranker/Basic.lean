import Relevance.Feature.Matrix
import Relevance.Model.Encoding
import Relevance.Normalizer.Apply

namespace Relevance

/-- A model that scores candidates whose features come in vectors of one kind. -/
inductive Ranker : VectorKind → Type
  | linear (weights : Array Binary32) : Ranker (.plain .dense)
  | null (storage : Storage) (featureCount : Nat) : Ranker (.plain storage)
  | tree (model : TreeModel) : Ranker (.plain .dense)
  | normalizing {kind : VectorKind} (inner : Ranker kind) (table : NormalizerTable) : Ranker kind
  | logging {kind : VectorKind} (inner : Ranker kind) (log : WriteLog) : Ranker (.logged kind)

namespace Ranker

def name {kind : VectorKind} : Ranker kind → String
  | linear _ => "linear"
  | null .. => "null_ranker"
  | tree model => model.name
  | normalizing inner _ => inner.name
  | logging inner _ => s!"log({inner.name})"

def featureCount {kind : VectorKind} : Ranker kind → Nat
  | linear weights => weights.size
  | null _ featureCount => featureCount
  | tree model => model.featureCount
  | normalizing inner _ => inner.featureCount
  | logging inner _ => inner.featureCount

def memory {kind : VectorKind} : Ranker kind → Nat
  | linear weights => 48 + 4 * weights.size
  | null .. => 8
  | tree model => model.memory
  | normalizing inner table => inner.memory + 24 + 20 * table.size
  | logging inner log => inner.memory + log.memory

/-- Normalizes features before a ranker, which must have every normalized feature. -/
def normalize {kind : VectorKind} (inner : Ranker kind) (table : NormalizerTable) :
    Except ModelError (Ranker kind) :=
  match table.last? with
  | some feature =>
    if inner.featureCount ≤ feature then
      .error (.normalizedOutOfRange feature inner.featureCount)
    else .ok (.normalizing inner table)
  | none => .ok (.normalizing inner table)

def logOnly (log : WriteLog) (featureCount : Nat) : Ranker (.logged (.plain .dense)) :=
  .logging (.null .dense featureCount) log

/-- An empty vector for the next candidate, made of the one given if that is large enough. -/
def newVector? {kind : VectorKind} :
    Ranker kind → Option (FeatureVector kind) → Option (FeatureVector kind)
  | linear weights, reuse => FeatureVector.recycle? reuse weights.size
  | null _ featureCount, reuse => FeatureVector.recycle? reuse featureCount
  | tree model, reuse => FeatureVector.recycle? reuse model.featureCount
  | normalizing inner _, reuse => inner.newVector? reuse
  | logging inner _, some (.logged v log) =>
    (inner.newVector? (some v)).map fun v => .logged v log.reset
  | logging inner log, none => (inner.newVector? none).map fun v => .logged v log.reset

def dot (weights scores : Array Binary32) : Binary32 :=
  (weights.zip scores).foldl (fun sum (weight, score) => sum + weight * score) .zero

/-- The score of the candidate in a vector, and the vector as scoring leaves it. -/
def score {kind : VectorKind} :
    Ranker kind → FeatureVector kind → Option (Binary32 × FeatureVector kind)
  | linear weights, v => some (dot weights v.scores, v)
  | null .., v => some (.zero, v)
  | tree model, v => (model.predict v.get?).map fun score => (score, v)
  | normalizing inner table, v => (table.normalizeVector? v).bind inner.score
  | logging inner _, .logged v log =>
    (inner.score v).map fun (score, v) => (score, .logged v log)

/-- The score of a candidate and the vector afterwards, also where there is no score. -/
def scoreInPlace {kind : VectorKind} :
    Ranker kind → FeatureVector kind → Option Binary32 × FeatureVector kind
  | linear weights, v => (some (dot weights v.scores), v)
  | null .., v => (some .zero, v)
  | tree model, v => (model.predict v.get?, v)
  | normalizing inner table, v =>
    let normalized := NormalizerTable.normalizeInPlace table.entries v
    if normalized.1 then inner.scoreInPlace normalized.2 else (none, normalized.2)
  | logging inner _, .logged v log =>
    let scored := inner.scoreInPlace v
    (scored.1, .logged scored.2 log)

theorem score_eq {kind : VectorKind} (r : Ranker kind) (v : FeatureVector kind) :
    r.score v = (r.scoreInPlace v).1.map fun score => (score, (r.scoreInPlace v).2) := by
  induction r with
  | linear weights => rfl
  | null storage featureCount => rfl
  | tree model => rfl
  | normalizing inner table ih =>
    rw [score, NormalizerTable.normalizeVector?_eq, scoreInPlace]
    cases hnormalized : (NormalizerTable.normalizeInPlace table.entries v).1 with
    | false => rfl
    | true => simp only [↓reduceIte, Option.bind_some, ih]
  | logging inner log ih =>
    cases v with
    | logged v log =>
      rw [score, ih, scoreInPlace, Option.map_map]
      rfl

def scoreRow {kind : VectorKind} : Ranker kind → Array Binary32 → Option Binary32
  | linear weights, row => some (dot weights row)
  | null .., _ => some .zero
  | tree model, row => model.predict (.ofRow row)
  | normalizing inner table, row => (table.normalizeRow? row).bind inner.scoreRow
  | logging inner _, row => inner.scoreRow row

def nullListing (featureCount : Nat) : String :=
  "NullRanker \x7b n_features: " ++ toString featureCount ++ " \x7d"

/-- Whether two rankers have the same numbers, bit by bit; those that log are not compared. -/
def beq? {kind : VectorKind} : Ranker kind → Ranker kind → Option Bool
  | linear a, linear b => some (Binary32.sameBits a b)
  | null _ a, null _ b => some (a == b)
  | tree a, tree b => some (a == b)
  | normalizing a s, normalizing b t => (a.beq? b).map fun same => same && s == t
  | logging .., _ => none
  | _, logging .. => none
  | _, _ => some false

def fingerprint? {kind : VectorKind} : Ranker kind → Option Fingerprint
  | linear weights => some (.sequence .number weights.toList)
  | null _ featureCount => some [.size featureCount]
  | tree model => some model.fingerprint
  | normalizing inner table => inner.fingerprint?.map (· ++ table.fingerprint)
  | logging .. => none

end Ranker

end Relevance
