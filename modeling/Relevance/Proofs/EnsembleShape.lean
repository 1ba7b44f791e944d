import Mathlib.Algebra.Ring.Nat
import Relevance.Ensemble.Layout
import Relevance.Proofs.TreeCounts

namespace Relevance

theorem Tree.extent_mapAccumOutputs {σ : Type} (widths : NodeWidths)
    (f : σ → Binary32 → σ × Binary32) (state : σ) (t : Tree) :
    (t.mapAccumOutputs f state).2.extent widths = t.extent widths := by
  induction t generalizing state with
  | leaf output => rfl
  | split feature threshold left right ihl ihr => simp only [mapAccumOutputs, extent, ihl, ihr]

theorem Tree.extent_raise (widths : NodeWidths) (floor : Binary32) (t : Tree) :
    (t.raise floor).extent widths = t.extent widths := by
  rw [raise]
  split
  · simp only [replaceOutputs_eq, extent_mapAccumOutputs]
  · rfl

namespace Ensemble

/-- An ensemble asks of an encoding what a list of trees does. -/
structure ShapedAs (e : Ensemble) (trees : List Tree) : Prop where
  features : e.trees.map Tree.features = trees.map Tree.features
  extents : ∀ widths, e.trees.map (Tree.extent widths) = trees.map (Tree.extent widths)

theorem ShapedAs.raise {e : Ensemble} {trees : List Tree} (h : e.ShapedAs trees)
    (floor : Binary32) : (e.raise floor).ShapedAs trees where
  features := by
    rw [← h.features]
    simp [Ensemble.trees, Ensemble.raise, Tree.features_raise]
  extents widths := by
    rw [← h.extents]
    simp [Ensemble.trees, Ensemble.raise, Tree.extent_raise]

theorem ShapedAs.width_eq {e : Ensemble} {trees : List Tree} (h : e.ShapedAs trees)
    (widths : NodeWidths) : e.width widths = (trees.map (Tree.extent widths)).sum := by
  have hwidth (terms : List WeightedTree) :
      widthOf widths terms = ((terms.map (·.tree)).map (Tree.extent widths)).sum := by
    induction terms with
    | nil => rfl
    | cons term terms ih =>
      rw [widthOf, ih, WeightedTree.width_eq, List.map_cons, List.map_cons, List.sum_cons]
  rw [width, hwidth, ← h.extents]
  rfl

theorem any_maxFeature (t : Tree) :
    t.maxFeature.any (0x8000 ≤ ·) = t.features.any (32767 < ·) := by
  rw [Tree.maxFeature_eq, Bool.eq_iff_iff, Option.any_eq_true, List.any_eq_true]
  constructor
  · rintro ⟨largest, hlargest, hle⟩
    exact ⟨largest, (List.max?_eq_some_iff.1 hlargest).1, hle⟩
  · rintro ⟨feature, hfeature, hlt⟩
    obtain ⟨largest, hlargest, hle⟩ := Tree.le_maxFeature hfeature
    rw [Tree.maxFeature_eq] at hlargest
    exact ⟨largest, hlargest, decide_eq_true (Nat.le_trans (of_decide_eq_true hlt) hle)⟩

theorem ShapedAs.hasWideOrdinal_iff {e : Ensemble} {trees : List Tree} (h : e.ShapedAs trees) :
    e.hasWideOrdinal = true ↔ ∃ t ∈ trees, ∃ feature ∈ t.features, 32767 < feature := by
  have hfeatures : e.hasWideOrdinal =
      (e.trees.map Tree.features).any fun features => features.any (32767 < ·) := by
    simp only [hasWideOrdinal, Ensemble.trees, List.any_map, any_maxFeature]
    rfl
  rw [hfeatures, h.features, List.any_map]
  simp only [List.any_eq_true, Function.comp_apply, decide_eq_true_eq]

theorem outside?_eq_some {trees : List Tree} {featureCount tree largest : Nat}
    (h : outside? trees featureCount = some (tree, largest)) :
    ∃ before t after, trees = before ++ t :: after ∧ before.length = tree ∧
      (∀ s ∈ before, ∀ feature ∈ s.features, feature < featureCount) ∧
      t.maxFeature = some largest ∧ featureCount ≤ largest := by
  obtain ⟨front, ⟨t, position⟩, back, hzip, hfound, hfront⟩ := List.findSome?_eq_some_iff.1 h
  obtain ⟨before, rest, htrees, rfl, hrest⟩ := List.zipIdx_eq_append_iff.1 hzip
  obtain ⟨s, after, rfl, hpair, _⟩ := List.zipIdx_eq_cons_iff.1 hrest.symm
  obtain ⟨rfl, rfl⟩ := Prod.mk.inj hpair
  have hbefore : outside? before featureCount = none := List.findSome?_eq_none_iff.2 hfront
  refine ⟨before, t, after, htrees, ?_⟩
  simp only at hfound
  split at hfound
  · rename_i feature hmax
    split at hfound
    · rename_i hle
      obtain ⟨hposition, rfl⟩ := Prod.mk.inj (Option.some.inj hfound)
      refine ⟨by omega, ?_, hmax, hle⟩
      intro s hs feature hfeature
      exact features_lt_of_outside hbefore hs hfeature
    · exact nomatch hfound
  · exact nomatch hfound

theorem map_tree_zipWith {trees : List Tree} {weights : List Binary32}
    (h : trees.length = weights.length) :
    (trees.zipWith WeightedTree.mk weights).map (·.tree) = trees := by
  rw [← List.map_uncurry_zip_eq_zipWith, List.map_map]
  exact List.map_fst_zip (Nat.le_of_eq h)

theorem map_weight_zipWith {trees : List Tree} {weights : List Binary32}
    (h : trees.length = weights.length) :
    (trees.zipWith WeightedTree.mk weights).map (·.weight) = weights := by
  rw [← List.map_uncurry_zip_eq_zipWith, List.map_map]
  exact List.map_snd_zip (Nat.le_of_eq h.symm)

theorem ofTrees_ok {trees : List Tree} {weights : List Binary32} {featureCount : Nat}
    {objective : Objective} {e : Ensemble}
    (h : ofTrees trees weights featureCount objective = .ok e) :
    trees.length = weights.length ∧ outside? trees featureCount = none ∧ e.ShapedAs trees := by
  rw [ofTrees] at h
  split at h
  · exact nomatch h
  · rename_i hlength
    have hlength : trees.length = weights.length := Classical.not_not.1 hlength
    split at h
    · exact nomatch h
    · rename_i houtside
      obtain rfl := Except.ok.inj h
      have htrees := map_tree_zipWith hlength
      refine ⟨hlength, houtside, ?_, ?_⟩
      · rw [Ensemble.trees, htrees]
      · intro widths
        rw [Ensemble.trees, htrees]

theorem ofTrees_error {trees : List Tree} {weights : List Binary32} {featureCount : Nat}
    {objective : Objective} {cause : ModelError}
    (h : ofTrees trees weights featureCount objective = .error cause) :
    (trees.length ≠ weights.length ∧ cause = .weightCount trees.length weights.length) ∨
      (trees.length = weights.length ∧ ∃ tree largest,
        outside? trees featureCount = some (tree, largest) ∧
          cause = .splitOutOfRange tree largest featureCount) := by
  rw [ofTrees] at h
  split at h
  · rename_i hlength
    exact .inl ⟨hlength, (Except.error.inj h).symm⟩
  · rename_i hlength
    split at h
    · rename_i tree largest houtside
      exact .inr ⟨Classical.not_not.1 hlength, tree, largest, houtside, (Except.error.inj h).symm⟩
    · exact nomatch h

end Ensemble

end Relevance
