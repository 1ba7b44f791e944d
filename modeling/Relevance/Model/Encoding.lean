import Relevance.Ensemble.Flat
import Relevance.Ensemble.Packed
import Relevance.Model.Event

namespace Relevance

inductive Encoding
  | naive
  | flat
  | packed
  deriving DecidableEq, Inhabited

inductive TreeModel
  | naive (e : Ensemble)
  | flat (e : FlatEnsemble)
  | packed (e : PackedEnsemble)

namespace TreeModel

def encoding : TreeModel → Encoding
  | naive _ => .naive
  | flat _ => .flat
  | packed _ => .packed

def name : TreeModel → String
  | naive _ => "naive_additive_decision_tree"
  | flat _ => "prim_additive_decision_tree"
  | packed _ => "binbin_additive_decision_tree"

def featureCount : TreeModel → Nat
  | naive e => e.featureCount
  | flat e => e.featureCount
  | packed e => e.featureCount

def treeCount : TreeModel → Nat
  | naive e => e.treeCount
  | flat e => e.treeCount
  | packed e => e.treeCount

def objective : TreeModel → Objective
  | naive e => e.objective
  | flat e => e.objective
  | packed e => e.objective

def rawScore (source : FeatureSource) : TreeModel → Option Binary32
  | naive e => e.rawScore source
  | flat e => e.rawScore source
  | packed e => e.rawScore source

def predict (source : FeatureSource) : TreeModel → Option Binary32
  | naive e => e.predict source
  | flat e => e.predict source
  | packed e => e.predict source

def memory : TreeModel → Nat
  | naive e => e.memory
  | flat e => e.memory
  | packed e => e.memory

instance : BEq TreeModel where
  beq
    | naive a, naive b => a == b
    | flat a, flat b => a == b
    | packed a, packed b => a == b
    | _, _ => false

def fingerprint : TreeModel → Fingerprint
  | naive e => .size 0 :: e.fingerprint
  | flat e => .size 1 :: e.fingerprint
  | packed e => .size 2 :: e.fingerprint

end TreeModel

namespace Build

def ensemble (trees : List Tree) (weights : List Binary32) (featureCount : Nat)
    (objective : Objective) : Build Ensemble := do
  let e ← Ensemble.ofTrees trees weights featureCount objective
  report (.built e.treeCount featureCount objective)
  return e

/-- Raises leaf outputs to a floor, which is reported if it changes a tree. -/
def raise (floor : Binary32) (e : Ensemble) : Build Ensemble := do
  let shifted := e.countBelow floor
  if 0 < shifted then
    report (.raised floor shifted e.treeCount)
  return e.raise floor

def flatten (e : Ensemble) : Build FlatEnsemble := do
  let flat ← FlatEnsemble.ofEnsemble e
  report (.flattened e.treeCount (e.width FlatSlot.widths))
  return flat

def pack (e : Ensemble) : Build PackedEnsemble := do
  let packed ← PackedEnsemble.ofEnsemble e
  report (.packed e.treeCount (e.width PackedStore.widths))
  return packed

def encode (encoding : Encoding) (e : Ensemble) : Build TreeModel :=
  match encoding with
  | .naive => return .naive e
  | .flat => return .flat (← flatten e)
  | .packed => return .packed (← pack e)

end Build

end Relevance
