import Relevance.Ranker.Basic
import Relevance.Ranker.Fault

namespace Relevance

structure Delivery where
  scores : List (Nat × Binary32)
  complete : Bool
  deriving DecidableEq

namespace Delivery

/-- Scores `count` rows from `start` on and stops before the first that has no score. -/
def collect (score? : Nat → Option Binary32) (start : Nat) : Nat → Delivery
  | 0 => ⟨[], true⟩
  | count + 1 =>
    match score? start with
    | none => ⟨[], false⟩
    | some score =>
      let rest := collect score? (start + 1) count
      ⟨(start, score) :: rest.scores, rest.complete⟩

/-- Scores rows as `collect` does, each with what the row before it left behind. -/
def collectWith {σ : Type} (score? : σ → Nat → Option (Binary32 × σ)) (left : σ) (start : Nat) :
    Nat → Delivery
  | 0 => ⟨[], true⟩
  | count + 1 =>
    match score? left start with
    | none => ⟨[], false⟩
    | some (score, left) =>
      let rest := collectWith score? left (start + 1) count
      ⟨(start, score) :: rest.scores, rest.complete⟩

end Delivery

namespace Ranker

def linearBatch : Nat := 1024

/-- How many candidates of a window are best scored at a time. -/
def batchSize {kind : VectorKind} (window : Nat) : Ranker kind → Nat
  | linear _ => min window linearBatch
  | null .. | tree _ => window
  | normalizing inner _ => inner.batchSize window
  | logging inner _ => inner.batchSize window

/-- An empty matrix for a batch of candidates, made of the one given if that fits. -/
def newMatrix? {kind : VectorKind} (r : Ranker kind) (reuse : Option FeatureMatrix)
    (candidates : Nat) : Option FeatureMatrix :=
  FeatureMatrix.recycle? reuse (r.batchSize candidates) r.featureCount

def rowScore? {kind : VectorKind} (r : Ranker kind) (m : FeatureMatrix) (row : Nat) :
    Option Binary32 :=
  (m.row? row).bind r.scoreRow

/-- Scores a row in a scratch row, which is left for the next row as it is then. -/
def scratchScore? {kind : VectorKind} (inner : Ranker kind) (table : NormalizerTable)
    (m : FeatureMatrix) (scratch : Array Binary32) (row : Nat) :
    Option (Binary32 × Array Binary32) := do
  let scratch := scratch.shrink 0
  let scratch := scratch ++ (← m.row? row)
  let scratch ← table.normalizeRow? scratch
  return (← inner.scoreRow scratch, scratch)

/-- A normalizing ranker first sets slots aside for one scratch row. -/
def bulkScore {kind : VectorKind} (m : FeatureMatrix) (start stop : Nat) : Ranker kind → Delivery
  | normalizing inner table =>
    if slotBound ≤ m.cols then ⟨[], false⟩
    else .collectWith (inner.scratchScore? table m) #[] start (stop - start)
  | r => .collect (r.rowScore? m) start (stop - start)

def fillSlots (score? : Nat → Option Binary32) :
    List Nat → Array Binary32 → Array Binary32 × Bool
  | [], output => (output, true)
  | row :: schedule, output =>
    match score? row with
    | none => (output, false)
    | some score => fillSlots score? schedule (output.setIfInBounds row score)

/-- Scores one row for each slot of an output, in the order of a schedule. -/
def bulkScoreInto {kind : VectorKind} (r : Ranker kind) (m : FeatureMatrix)
    (schedule : List Nat) (output : Array Binary32) : Array Binary32 × Option Fault :=
  if m.rows < output.size then (output, some (.outputTooLong output.size m.rows))
  else
    match fillSlots (r.rowScore? m) schedule output with
    | (output, true) => (output, none)
    | (output, false) => (output, some .outOfRange)

def bulkScores {kind : VectorKind} (r : Ranker kind) (m : FeatureMatrix) (slots : Nat) :
    Except Fault (Array Binary32) :=
  if slotBound ≤ slots then .error .tooLarge
  else if m.rows < slots then .error (.outputTooLong slots m.rows)
  else
    match r.bulkScoreInto m (List.range slots) (Array.replicate slots .zero) with
    | (output, none) => .ok output
    | (_, some fault) => .error fault

/-- Normalizes rows in the matrix itself and scores them with the inner ranker. -/
def bulkScoreInPlace {kind : VectorKind} (inner : Ranker kind) (table : NormalizerTable)
    (m : FeatureMatrix) (start stop : Nat) : Option (Delivery × FeatureMatrix) :=
  (table.normalizeRows? start (stop - start) m).map fun m => (inner.bulkScore m start stop, m)

/-- Compares the scores of two rankers row by row; a difference that is NaN is a fault too. -/
def checkAgreement {kind other : VectorKind} (a : Ranker kind) (b : Ranker other)
    (epsilon : Binary32) (rows : List (Array Binary32)) : Except Fault Unit :=
  rows.zipIdx.forM fun (row, i) =>
    match a.scoreRow row, b.scoreRow row with
    | some first, some second =>
      if (first - second).abs ≤ epsilon then .ok ()
      else .error (.disagreement i a.name first b.name second)
    | _, _ => .error .outOfRange

end Ranker

end Relevance
