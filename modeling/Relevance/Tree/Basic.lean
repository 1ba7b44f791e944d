import Relevance.Feature.Source
import Relevance.Fingerprint

namespace Relevance

inductive Tree
  | leaf (output : Binary32)
  | split (feature : Nat) (threshold : Binary32) (left right : Tree)
  deriving Inhabited

inductive TreeNode
  | leaf (output : Binary32)
  | split (feature : Nat) (threshold : Binary32)
  deriving DecidableEq

namespace TreeNode

def fingerprint : TreeNode → Fingerprint
  | split feature threshold => [.byte 0, .size feature, .number threshold]
  | leaf output => [.byte 1, .number output]

end TreeNode

namespace Tree

def root : Tree → TreeNode
  | leaf output => .leaf output
  | split feature threshold _ _ => .split feature threshold

def isLeaf : Tree → Bool
  | leaf _ => true
  | split .. => false

/-- The output of the leaf that a candidate reaches; a tie and a NaN go right. -/
def eval (source : FeatureSource) : Tree → Option Binary32
  | leaf output => some output
  | split feature threshold left right =>
    match source feature with
    | none => none
    | some score => if score < threshold then left.eval source else right.eval source

def size : Tree → Nat
  | leaf _ => 1
  | split _ _ left right => left.size + right.size + 1

def subtrees : Tree → List Tree
  | leaf output => [leaf output]
  | split feature threshold left right =>
    split feature threshold left right :: (left.subtrees ++ right.subtrees)

def nodes (t : Tree) : List TreeNode := t.subtrees.map root

/-- The number of edges on the longest path from the root. -/
def height : Tree → Nat
  | leaf _ => 0
  | split _ _ left right => max left.height right.height + 1

def outputs : Tree → List Binary32
  | leaf output => [output]
  | split _ _ left right => left.outputs ++ right.outputs

def features : Tree → List Nat
  | leaf _ => []
  | split feature _ left right => feature :: (left.features ++ right.features)

def mapOutputs (f : Binary32 → Binary32) : Tree → Tree
  | leaf output => leaf (f output)
  | split feature threshold left right =>
    split feature threshold (left.mapOutputs f) (right.mapOutputs f)

end Tree

end Relevance
