import Relevance.Proofs.NormalizedRows

namespace Relevance

def FeatureSource.AgreeBelow (count : Nat) (source other : FeatureSource) : Prop :=
  ∀ ordinal < count, ∃ score, source ordinal = some score ∧ other ordinal = some score

variable {source other : FeatureSource}

theorem FeatureSource.AgreeBelow.eq {count : Nat} (h : source.AgreeBelow count other)
    {ordinal : Nat} (hlt : ordinal < count) : source ordinal = other ordinal := by
  obtain ⟨score, hsource, hother⟩ := h ordinal hlt
  rw [hsource, hother]

theorem Tree.eval_congr {t : Tree} (h : ∀ feature ∈ t.features, source feature = other feature) :
    t.eval source = t.eval other := by
  induction t with
  | leaf output => rfl
  | split feature threshold left right ihl ihr =>
    simp only [features, List.forall_mem_cons, List.forall_mem_append] at h
    obtain ⟨hfeature, hleft, hright⟩ := h
    rw [eval, eval, hfeature, ihl hleft, ihr hright]

theorem Ensemble.rawScore_congr {e : Ensemble} (h : source.AgreeBelow e.featureCount other) :
    e.rawScore source = e.rawScore other := by
  apply foldlM_congr
  intro term hterm sum
  have heval : term.tree.eval source = term.tree.eval other := by
    apply Tree.eval_congr
    intro feature hfeature
    exact h.eq (e.features_lt term hterm feature hfeature)
  rw [heval]

theorem Tree.features_mapOutputs (f : Binary32 → Binary32) (t : Tree) :
    (t.mapOutputs f).features = t.features := by
  induction t with
  | leaf output => rfl
  | split feature threshold left right ihl ihr => simp only [mapOutputs, features, ihl, ihr]

namespace StoredNode

variable {node? : Nat → Option StoredNode} {widths : NodeWidths}

theorem StoredAt.follow_congr {t : Tree} {address : Nat} (h : StoredAt node? widths address t)
    (hagree : ∀ feature ∈ t.features, source feature = other feature) (fuel : Nat) :
    follow node? widths source fuel address = follow node? widths other fuel address := by
  induction t generalizing address fuel with
  | leaf output =>
    cases fuel with
    | zero => rfl
    | succ fuel => rw [follow, follow, show node? address = _ from h]
  | split feature threshold left right ihl ihr =>
    obtain ⟨hnode, hleft, hright⟩ := h
    simp only [Tree.features, List.forall_mem_cons, List.forall_mem_append] at hagree
    obtain ⟨hfeature, hagreeLeft, hagreeRight⟩ := hagree
    cases fuel with
    | zero => rfl
    | succ fuel =>
      simp only [follow, hnode, hfeature]
      cases other feature with
      | none => rfl
      | some score =>
        by_cases hlt : score < threshold
        · simp only [if_pos hlt]
          exact ihl hleft hagreeLeft fuel
        · simp only [if_neg hlt]
          exact ihr hright hagreeRight fuel

theorem StoredFrom.foldlM_congr {start fuel : Nat} {terms : List WeightedTree}
    (h : StoredFrom node? widths start terms)
    (hend : start + Ensemble.widthOf widths terms < 0x80000000)
    (hagree : ∀ term ∈ terms, ∀ feature ∈ term.tree.features, source feature = other feature)
    (sum : Binary32) :
    ((Ensemble.rootsFrom widths start terms).map Int32.ofNat).foldlM (fun sum root =>
        (follow node? widths source fuel root.toNatClampNeg).map (sum + ·)) sum =
      ((Ensemble.rootsFrom widths start terms).map Int32.ofNat).foldlM (fun sum root =>
        (follow node? widths other fuel root.toNatClampNeg).map (sum + ·)) sum := by
  induction terms generalizing start sum with
  | nil => rfl
  | cons term rest ih =>
    obtain ⟨hterm, hrest⟩ := h
    obtain ⟨hfirst, hothers⟩ := List.forall_mem_cons.1 hagree
    rw [Ensemble.widthOf] at hend
    have hroot : (Int32.ofNat start).toNatClampNeg = start :=
      Int32.toNatClampNeg_ofNat_of_lt (by omega)
    have hfollow : follow node? widths source fuel start = follow node? widths other fuel start := by
      apply hterm.follow_congr
      rw [WeightedTree.folded, Tree.features_mapOutputs]
      exact hfirst
    rw [Ensemble.rootsFrom, List.map_cons, List.foldlM_cons, List.foldlM_cons, hroot, hfollow]
    congr 1
    funext next
    exact ih hrest (by omega) hothers next

theorem StoredFrom.sum_congr {e : Ensemble} (h : StoredFrom node? widths 0 e.terms)
    (hwidth : e.width widths < 0x80000000) (hagree : source.AgreeBelow e.featureCount other)
    (fuel : Nat) :
    sumFrom node? widths source fuel
        ((Ensemble.rootsFrom widths 0 e.terms).map Int32.ofNat).toArray =
      sumFrom node? widths other fuel
        ((Ensemble.rootsFrom widths 0 e.terms).map Int32.ofNat).toArray := by
  apply h.foldlM_congr
  · rwa [Nat.zero_add]
  · intro term hterm feature hfeature
    exact hagree.eq (e.features_lt term hterm feature hfeature)

end StoredNode

theorem TreeModel.Converted.predict_congr {model : TreeModel} (h : model.Converted)
    (hagree : source.AgreeBelow model.featureCount other) :
    model.predict source = model.predict other := by
  cases h with
  | naive e =>
    rw [predict, predict, Ensemble.predict, Ensemble.predict, Ensemble.rawScore_congr hagree]
  | @flat e f h =>
    rw [featureCount, FlatEnsemble.featureCount_eq h] at hagree
    have hsum : f.leafSum source = f.leafSum other := by
      have hstored := FlatEnsemble.storedFrom h
      obtain ⟨_, hwidth, rfl⟩ := FlatEnsemble.ofEnsemble_ok h
      exact hstored.sum_congr hwidth hagree _
    rw [predict, predict, FlatEnsemble.predict, FlatEnsemble.predict, FlatEnsemble.rawScore, hsum,
      FlatEnsemble.rawScore]
  | @packed e p h =>
    rw [featureCount, PackedEnsemble.featureCount_eq h] at hagree
    have hsum : p.leafSum source = p.leafSum other := by
      have hstored := PackedEnsemble.storedFrom h
      obtain ⟨_, hwidth, rfl⟩ := PackedEnsemble.ofEnsemble_ok h
      exact hstored.sum_congr hwidth hagree _
    rw [predict, predict, PackedEnsemble.predict, PackedEnsemble.predict, PackedEnsemble.rawScore,
      hsum, PackedEnsemble.rawScore]

namespace NormalizerTable

variable {kind : VectorKind} {v w : FeatureVector kind}

theorem normalizeVector?_agree {table : NormalizerTable} {count : Nat}
    (htable : ∀ entry ∈ table.entries, entry.1 < count) (h : v.get?.AgreeBelow count w.get?) :
    ∃ normalized twin, table.normalizeVector? v = some normalized ∧
      table.normalizeVector? w = some twin ∧ normalized.get?.AgreeBelow count twin.get? := by
  have hv : ∀ entry ∈ table.entries, entry.1 < v.size := by
    intro entry hentry
    obtain ⟨score, hscore, _⟩ := h entry.1 (htable entry hentry)
    exact FeatureVector.lt_size_of_get? hscore
  have hw : ∀ entry ∈ table.entries, entry.1 < w.size := by
    intro entry hentry
    obtain ⟨score, _, hscore⟩ := h entry.1 (htable entry hentry)
    exact FeatureVector.lt_size_of_get? hscore
  obtain ⟨normalized, hnormalized, hget⟩ := normalizeVector?_present hv
  obtain ⟨twin, htwin, hgetTwin⟩ := normalizeVector?_present hw
  refine ⟨normalized, twin, hnormalized, htwin, ?_⟩
  intro ordinal hlt
  obtain ⟨score, hscore, hscoreTwin⟩ := h ordinal hlt
  refine ⟨Normalizer.normalizedBy (table.find? ordinal) score, ?_, ?_⟩
  · rw [hget, hscore, Option.map_some]
  · rw [hgetTwin, hscoreTwin, Option.map_some]

end NormalizerTable

namespace Ranker

variable {kind : VectorKind}

theorem dot_congr {weights scores others : Array Binary32}
    (h : (FeatureSource.ofRow scores).AgreeBelow weights.size (.ofRow others)) :
    dot weights scores = dot weights others := by
  have hzip : weights.zip scores = weights.zip others := by
    apply Array.ext_getElem?
    intro ordinal
    rw [Array.zip_eq_zipWith, Array.zip_eq_zipWith, Array.getElem?_zipWith,
      Array.getElem?_zipWith]
    by_cases hlt : ordinal < weights.size
    · have heq : scores[ordinal]? = others[ordinal]? := h.eq hlt
      rw [heq]
    · rw [Array.getElem?_eq_none (Nat.le_of_not_lt hlt)]
  rw [dot, dot, hzip]

theorem score_tree_congr {model : TreeModel} (h : model.Converted)
    {v w : FeatureVector (.plain .dense)} (hagree : v.get?.AgreeBelow model.featureCount w.get?) :
    ((tree model).score v).map (·.1) = ((tree model).score w).map (·.1) := by
  rw [score, score, h.predict_congr hagree, Option.map_map, Option.map_map]
  rfl

/-- The score of a candidate depends on its declared features only. -/
theorem Built.score_congr {r : Ranker kind} (h : r.Built) {v w : FeatureVector kind}
    (hagree : v.get?.AgreeBelow r.featureCount w.get?) :
    (r.score v).map (·.1) = (r.score w).map (·.1) := by
  induction h with
  | linear weights => exact congrArg some (dot_congr hagree)
  | null storage featureCount => rfl
  | naive e => exact score_tree_congr (.naive e) hagree
  | flat h => exact score_tree_congr (.flat h) hagree
  | packed h => exact score_tree_congr (.packed h) hagree
  | loaded h => exact score_tree_congr (TreeModel.converted_of_load h) hagree
  | normalizing hinner h ih =>
    obtain ⟨rfl, htable⟩ := normalize_ok h
    obtain ⟨normalized, twin, hnormalized, htwin, hsame⟩ :=
      NormalizerTable.normalizeVector?_agree htable hagree
    rw [score, score, hnormalized, htwin, Option.bind_some, Option.bind_some]
    exact ih hsame
  | logging log hinner ih =>
    cases v with
    | logged v vlog =>
      cases w with
      | logged w wlog =>
        have hscores := ih hagree
        rw [score, score, Option.map_map, Option.map_map]
        exact hscores

end Ranker

end Relevance
