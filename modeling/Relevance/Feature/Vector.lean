import Relevance.Feature.Log
import Relevance.Feature.Slots
import Relevance.Feature.Source

namespace Relevance

/-- What a slot holds that nobody has set: zero if dense, NaN if sparse. -/
inductive Storage
  | dense
  | sparse
  deriving DecidableEq

def Storage.unset : Storage → Binary32
  | dense => .zero
  | sparse => .nan

/-- The kinds of feature vector: plain slots, or a vector whose writes are logged. -/
inductive VectorKind
  | plain (storage : Storage)
  | logged (inner : VectorKind)
  deriving DecidableEq

inductive FeatureVector : VectorKind → Type
  | plain {storage : Storage} (scores : Array Binary32) : FeatureVector (.plain storage)
  | logged {kind : VectorKind} (inner : FeatureVector kind) (log : WriteLog) :
      FeatureVector (.logged kind)

namespace VectorKind

def unset : VectorKind → Binary32
  | plain storage => storage.unset
  | logged inner => inner.unset

end VectorKind

namespace FeatureVector

def blank? (storage : Storage) (size : Nat) : Option (FeatureVector (.plain storage)) :=
  (slots? size storage.unset).map .plain

def scores {kind : VectorKind} : FeatureVector kind → Array Binary32
  | plain scores => scores
  | logged inner _ => inner.scores

def size {kind : VectorKind} (v : FeatureVector kind) : Nat := v.scores.size

def get? {kind : VectorKind} (v : FeatureVector kind) : FeatureSource := .ofRow v.scores

/-- Stores a score, unless there is no such slot. A log is told after the score is stored. -/
def set? {kind : VectorKind} (write : FeatureWrite) :
    FeatureVector kind → Option (FeatureVector kind)
  | plain scores =>
    if h : write.ordinal < scores.size then some (.plain (scores.set write.ordinal write.score))
    else none
  | logged inner log => (inner.set? write).map fun inner => .logged inner (log.accept write)

def reset {kind : VectorKind} : FeatureVector kind → FeatureVector kind
  | @plain storage scores => .plain (Array.replicate scores.size storage.unset)
  | logged inner log => .logged inner.reset log.reset

/-- The calls that callbacks have not been given yet, and the vector once they are. -/
def deliver {kind : VectorKind} : FeatureVector kind → List FeatureWrite × FeatureVector kind
  | plain scores => ([], .plain scores)
  | logged inner (.callback calls) =>
    let rest := inner.deliver
    (rest.1 ++ calls, .logged rest.2 (.callback []))
  | logged inner log =>
    let rest := inner.deliver
    (rest.1, .logged rest.2 log)

def fill {storage : Storage} (score : Binary32) :
    FeatureVector (.plain storage) → FeatureVector (.plain storage)
  | plain scores => .plain (Array.replicate scores.size score)

def isSet? (v : FeatureVector (.plain .sparse)) (ordinal : Nat) : Option Bool :=
  (v.get? ordinal).map (!·.isNaN)

def setSlots (v : FeatureVector (.plain .sparse)) : List (Nat × Binary32) :=
  (v.scores.toList.zipIdx.filter (!·.1.isNaN)).map fun (score, ordinal) => (ordinal, score)

def numEq {storage : Storage} (a b : FeatureVector (.plain storage)) : Bool :=
  a.size == b.size && (a.scores.zip b.scores).all fun (x, y) => x.numEq y

def recycle? {storage : Storage} (reuse : Option (FeatureVector (.plain storage))) (size : Nat) :
    Option (FeatureVector (.plain storage)) :=
  match reuse with
  | some v => if size ≤ v.size then some v.reset else blank? storage size
  | none => blank? storage size

end FeatureVector

end Relevance
