import Relevance.Ensemble.Basic

namespace Relevance

structure NodeWidths where
  split : Nat
  leaf : Nat

/-- A node at an address. The left child of a split follows it, the right child has an address. -/
inductive StoredNode
  | leaf (output : Binary32)
  | split (feature : Nat) (threshold : Binary32) (right : Nat)
  deriving DecidableEq

inductive WalkFault
  | missingFeature (ordinal : Nat)
  | missingNode (address : Nat)
  | unfinished
  deriving DecidableEq

namespace StoredNode

def width (widths : NodeWidths) : StoredNode → Nat
  | leaf _ => widths.leaf
  | split .. => widths.split

@[simp] def extent (widths : NodeWidths) : List StoredNode → Nat
  | [] => 0
  | node :: rest => node.width widths + extent widths rest

@[simp] theorem extent_append (widths : NodeWidths) (nodes others : List StoredNode) :
    extent widths (nodes ++ others) = extent widths nodes + extent widths others := by
  induction nodes with
  | nil => rw [List.nil_append, extent, Nat.zero_add]
  | cons node rest ih => rw [List.cons_append, extent, extent, ih, Nat.add_assoc]

/-- The output of the leaf reached from an address, looking at no more than `fuel` nodes. -/
def follow (node? : Nat → Option StoredNode) (widths : NodeWidths) (source : FeatureSource) :
    Nat → Nat → Except WalkFault Binary32
  | 0, _ => .error .unfinished
  | fuel + 1, address =>
    match node? address with
    | none => .error (.missingNode address)
    | some (leaf output) => .ok output
    | some (split feature threshold right) =>
      match source feature with
      | none => .error (.missingFeature feature)
      | some score =>
        follow node? widths source fuel (if score < threshold then address + widths.split else right)

def sumFrom (node? : Nat → Option StoredNode) (widths : NodeWidths) (source : FeatureSource)
    (fuel : Nat) (roots : Array Int32) : Except WalkFault Binary32 :=
  roots.toList.foldlM (fun sum root =>
    (follow node? widths source fuel root.toNatClampNeg).map (sum + ·)) .zero

end StoredNode

namespace Tree

def extent (widths : NodeWidths) : Tree → Nat
  | leaf _ => widths.leaf
  | split _ _ left right => widths.split + left.extent widths + right.extent widths

/-- The nodes in preorder from `start` on, with the weight multiplied into the leaves. -/
def stored (widths : NodeWidths) (weight : Binary32) (start : Nat) : Tree → List StoredNode
  | leaf output => [.leaf (output * weight)]
  | split feature threshold left right =>
    let leftStart := start + widths.split
    let rightStart := leftStart + left.extent widths
    .split feature threshold rightStart ::
      (left.stored widths weight leftStart ++ right.stored widths weight rightStart)

@[simp] theorem extent_stored (widths others : NodeWidths) (weight : Binary32) (start : Nat)
    (t : Tree) : StoredNode.extent widths (t.stored others weight start) = t.extent widths := by
  induction t generalizing start with
  | leaf output => simp [stored, extent, StoredNode.width]
  | split feature threshold left right ihl ihr =>
    simp only [stored, extent, StoredNode.extent, StoredNode.extent_append, StoredNode.width, ihl,
      ihr, Nat.add_assoc]

theorem foldl_splitAndLeafCounts (t : Tree) (n : Nat × Nat) :
    t.subtrees.foldl (fun n t => if t.isLeaf then (n.1, n.2 + 1) else (n.1 + 1, n.2)) n =
      (n.1 + t.features.length, n.2 + t.outputs.length) := by
  induction t generalizing n with
  | leaf output => rfl
  | split feature threshold left right ihl ihr =>
    rw [subtrees, List.foldl_cons, List.foldl_append, ihl, ihr]
    simp only [isLeaf, features, outputs, List.length_cons, List.length_append, Bool.false_eq_true,
      ↓reduceIte, Prod.mk.injEq]
    omega

theorem splitAndLeafCounts_eq (t : Tree) :
    t.splitAndLeafCounts = (t.features.length, t.outputs.length) := by
  rw [splitAndLeafCounts, walk_singleton, foldl_splitAndLeafCounts, Nat.zero_add, Nat.zero_add]

theorem extent_eq (widths : NodeWidths) (t : Tree) :
    t.extent widths = t.features.length * widths.split + t.outputs.length * widths.leaf := by
  induction t with
  | leaf output => simp [extent, features, outputs]
  | split feature threshold left right ihl ihr =>
    simp only [extent, ihl, ihr, features, outputs, List.length_cons, List.length_append,
      Nat.add_mul]
    omega

end Tree

namespace WeightedTree

def width (widths : NodeWidths) (term : WeightedTree) : Nat :=
  let counts := term.tree.splitAndLeafCounts
  counts.1 * widths.split + counts.2 * widths.leaf

theorem width_eq (widths : NodeWidths) (term : WeightedTree) :
    term.width widths = term.tree.extent widths := by
  rw [width, Tree.splitAndLeafCounts_eq, Tree.extent_eq]

end WeightedTree

namespace Ensemble

def rootsFrom (widths : NodeWidths) : Nat → List WeightedTree → List Nat
  | _, [] => []
  | start, term :: rest => start :: rootsFrom widths (start + term.width widths) rest

theorem length_rootsFrom (widths : NodeWidths) (start : Nat) (terms : List WeightedTree) :
    (rootsFrom widths start terms).length = terms.length := by
  induction terms generalizing start with
  | nil => rfl
  | cons term rest ih => rw [rootsFrom, List.length_cons, List.length_cons, ih]

def storedFrom (widths : NodeWidths) : Nat → List WeightedTree → List StoredNode
  | _, [] => []
  | start, term :: rest =>
    term.tree.stored widths term.weight start ++
      storedFrom widths (start + term.width widths) rest

def widthOf (widths : NodeWidths) : List WeightedTree → Nat
  | [] => 0
  | term :: rest => term.width widths + widthOf widths rest

theorem extent_storedFrom (widths others : NodeWidths) (start : Nat) (terms : List WeightedTree) :
    StoredNode.extent widths (storedFrom others start terms) = widthOf widths terms := by
  induction terms generalizing start with
  | nil => rfl
  | cons term rest ih =>
    rw [storedFrom, StoredNode.extent_append, Tree.extent_stored, ih, widthOf,
      WeightedTree.width_eq]

def width (widths : NodeWidths) (e : Ensemble) : Nat := widthOf widths e.terms

def hasWideOrdinal (e : Ensemble) : Bool :=
  e.terms.any fun term => term.tree.maxFeature.any (0x8000 ≤ ·)

end Ensemble

end Relevance
