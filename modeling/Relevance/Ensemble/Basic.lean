import Relevance.ModelError
import Relevance.Objective
import Relevance.Tree.Rebuild

namespace Relevance

namespace Tree

/-- Raises every leaf by the distance of the smallest one from the floor; none stays below. -/
def raise (floor : Binary32) (t : Tree) : Tree :=
  if t.minLeaf < floor then
    let offset := floor - t.minLeaf
    (t.replaceOutputs (fun _ output => ((), max (output + offset) floor)) ()).2
  else t

theorem features_raise (floor : Binary32) (t : Tree) : (t.raise floor).features = t.features := by
  unfold raise
  split
  · simp only [replaceOutputs_eq, features_mapAccumOutputs]
  · rfl

end Tree

structure WeightedTree where
  tree : Tree
  weight : Binary32

/-- A weighted sum of trees that split on declared features only. -/
structure Ensemble where
  terms : List WeightedTree
  featureCount : Nat
  objective : Objective
  features_lt : ∀ term ∈ terms, ∀ feature ∈ term.tree.features, feature < featureCount

namespace Ensemble

def trees (e : Ensemble) : List Tree := e.terms.map (·.tree)

def weights (e : Ensemble) : List Binary32 := e.terms.map (·.weight)

def treeCount (e : Ensemble) : Nat := e.terms.length

/-- The first tree that splits on a feature outside the declared ones, with its largest ordinal. -/
def outside? (trees : List Tree) (featureCount : Nat) : Option (Nat × Nat) :=
  trees.zipIdx.findSome? fun (t, i) =>
    match t.maxFeature with
    | some feature => if featureCount ≤ feature then some (i, feature) else none
    | none => none

theorem features_lt_of_outside {trees : List Tree} {featureCount : Nat}
    (h : outside? trees featureCount = none) {t : Tree} (ht : t ∈ trees) {feature : Nat}
    (hf : feature ∈ t.features) : feature < featureCount := by
  obtain ⟨i, hi, rfl⟩ := List.mem_iff_getElem.1 ht
  have hmem : (trees[i], i) ∈ trees.zipIdx := by
    rw [List.mk_mem_zipIdx_iff_getElem?, List.getElem?_eq_getElem hi]
  obtain ⟨m, hm, hle⟩ := Tree.le_maxFeature hf
  have hnone := List.findSome?_eq_none_iff.1 h _ hmem
  simp only [Option.mem_def.1 hm] at hnone
  split at hnone
  · exact nomatch hnone
  · omega

def ofTrees (trees : List Tree) (weights : List Binary32) (featureCount : Nat)
    (objective : Objective) : Except ModelError Ensemble :=
  if trees.length ≠ weights.length then
    .error (.weightCount trees.length weights.length)
  else
    match h : outside? trees featureCount with
    | some (tree, feature) => .error (.splitOutOfRange tree feature featureCount)
    | none =>
      .ok
        { terms := trees.zipWith WeightedTree.mk weights
          featureCount
          objective
          features_lt := fun term hterm feature hf => by
            obtain ⟨t, ht, w, rfl⟩ : ∃ t ∈ trees, ∃ w, WeightedTree.mk t w = term := by
              rw [← List.map_uncurry_zip_eq_zipWith] at hterm
              obtain ⟨⟨t, w⟩, hp, rfl⟩ := List.mem_map.1 hterm
              exact ⟨t, (List.of_mem_zip hp).1, w, rfl⟩
            exact features_lt_of_outside h ht hf }

def raise (floor : Binary32) (e : Ensemble) : Ensemble where
  terms := e.terms.map fun term => { term with tree := term.tree.raise floor }
  featureCount := e.featureCount
  objective := e.objective
  features_lt := by
    intro term hterm feature hf
    obtain ⟨term, hmem, rfl⟩ := List.mem_map.1 hterm
    exact e.features_lt term hmem feature (by rwa [Tree.features_raise] at hf)

def countBelow (floor : Binary32) (e : Ensemble) : Nat :=
  e.terms.countP fun term => term.tree.minLeaf < floor

def rawScore (e : Ensemble) (source : FeatureSource) : Option Binary32 :=
  e.terms.foldlM (fun sum term =>
    (term.tree.eval source).map fun output => sum + term.weight * output) .zero

def predict (e : Ensemble) (source : FeatureSource) : Option Binary32 :=
  (e.rawScore source).map e.objective.transform

def nodeCount (e : Ensemble) : Nat := e.terms.foldl (fun n term => n + term.tree.count .all) 0

def memory (e : Ensemble) : Nat := 64 + 32 * e.nodeCount + 4 * e.treeCount

instance : BEq Ensemble where
  beq a b :=
    a.featureCount == b.featureCount && a.objective == b.objective && a.weights == b.weights
      && a.trees == b.trees

def fingerprint (e : Ensemble) : Fingerprint :=
  .size e.featureCount :: e.objective.fingerprint ++ .sequence .number e.weights
    ++ .size e.treeCount :: e.trees.flatMap Tree.fingerprint

end Ensemble

end Relevance
