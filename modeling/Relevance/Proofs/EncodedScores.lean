import Mathlib.Control.Monad.Basic
import Relevance.Proofs.BuildRuns
import Relevance.Proofs.EncodedNodes

namespace Relevance

theorem Objective.rel_transform (objective : Objective) {a b : Option Binary32}
    (h : Option.Rel Binary32.Same a b) :
    Option.Rel Binary32.Same (a.map objective.transform) (b.map objective.transform) := by
  cases h with
  | none => exact .none
  | some h => exact .some (objective.transform_same h)

theorem Walked.rel_toOption {source : FeatureSource} {answer : Option Binary32}
    {walk : Except WalkFault Binary32} (h : Walked source answer walk) :
    Option.Rel Binary32.Same answer walk.toOption := by
  cases answer with
  | none =>
    obtain ⟨ordinal, _, rfl⟩ := h
    exact .none
  | some x =>
    obtain ⟨y, rfl, hxy⟩ := h
    exact .some hxy

theorem Walked.missingFeature {source : FeatureSource} {answer : Option Binary32}
    {walk : Except WalkFault Binary32} (h : Walked source answer walk) {fault : WalkFault}
    (hfault : walk = .error fault) :
    ∃ ordinal, source ordinal = none ∧ fault = .missingFeature ordinal := by
  cases answer with
  | none =>
    obtain ⟨ordinal, hsource, rfl⟩ := h
    exact ⟨ordinal, hsource, (Except.error.inj hfault).symm⟩
  | some x =>
    obtain ⟨y, rfl, _⟩ := h
    exact nomatch hfault

/-- Two trees whose splits and leaves hold a NaN, a negative zero and an infinity. -/
def mixedEnsemble : Ensemble where
  terms :=
    [⟨.split 1 ⟨0x3f000000⟩ (.split 0 .nan (.leaf ⟨0xc0000000⟩) (.leaf ⟨0x80000000⟩))
        (.leaf ⟨0x40400000⟩), ⟨0x40000000⟩⟩,
      ⟨.leaf .infinity, ⟨0x3f800000⟩⟩]
  featureCount := 2
  objective := .logistic
  features_lt := by decide

namespace FlatEnsemble

/-- The flat encoding scores every candidate as its trees do, but for the payload of a NaN. -/
theorem flat_scores_same {e : Ensemble} {f : FlatEnsemble} (h : ofEnsemble e = .ok f)
    (source : FeatureSource) :
    Option.Rel Binary32.Same (e.rawScore source) (f.rawScore source) ∧
      Option.Rel Binary32.Same (e.predict source) (f.predict source) ∧
      ∀ fault, f.leafSum source = .error fault →
        ∃ ordinal, source ordinal = none ∧ fault = .missingFeature ordinal := by
  have hwalked := walked_leafSum h source
  refine ⟨hwalked.rel_toOption, ?_, fun _ => hwalked.missingFeature⟩
  rw [Ensemble.predict, predict, objective_eq h]
  exact e.objective.rel_transform hwalked.rel_toOption

def mixed : FlatEnsemble where
  roots := #[0, 5]
  slots :=
    #[⟨1, ⟨0x3f000000⟩, 4⟩, ⟨0, .nan, 3⟩, ⟨-1, ⟨0xc0800000⟩, 0⟩, ⟨-1, ⟨0x80000000⟩, 0⟩,
      ⟨-1, ⟨0x40c00000⟩, 0⟩, ⟨-1, .infinity, 0⟩]
  featureCount := 2
  objective := .logistic

theorem flat_scores_same_mixed :
    ofEnsemble mixedEnsemble = .ok mixed ∧
      Option.Rel Binary32.Same (mixedEnsemble.rawScore (.ofRow #[.nan, .zero]))
        (mixed.rawScore (.ofRow #[.nan, .zero])) ∧
      Option.Rel Binary32.Same (mixedEnsemble.predict (.ofRow #[.nan, .zero]))
        (mixed.predict (.ofRow #[.nan, .zero])) ∧
      ∀ fault, mixed.leafSum (.ofRow #[.nan, .zero]) = .error fault →
        ∃ ordinal, FeatureSource.ofRow #[.nan, .zero] ordinal = none ∧
          fault = .missingFeature ordinal :=
  have h : ofEnsemble mixedEnsemble = .ok mixed := by decide +kernel
  ⟨h, flat_scores_same h _⟩

end FlatEnsemble

namespace PackedEnsemble

/-- The packed encoding scores every candidate as its trees do, but for the payload of a NaN. -/
theorem packed_scores_same {e : Ensemble} {p : PackedEnsemble} (h : ofEnsemble e = .ok p)
    (source : FeatureSource) :
    Option.Rel Binary32.Same (e.rawScore source) (p.rawScore source) ∧
      Option.Rel Binary32.Same (e.predict source) (p.predict source) ∧
      ∀ fault, p.leafSum source = .error fault →
        ∃ ordinal, source ordinal = none ∧ fault = .missingFeature ordinal := by
  have hwalked := walked_leafSum h source
  refine ⟨hwalked.rel_toOption, ?_, fun _ => hwalked.missingFeature⟩
  rw [Ensemble.predict, predict, objective_eq h]
  exact e.objective.rel_transform hwalked.rel_toOption

def mixed : PackedEnsemble where
  roots := #[0, 38]
  buffer := ⟨#[0, 1, 0x3f, 0, 0, 0, 0, 0, 0, 32, 0, 0, 0x7f, 0xc0, 0, 0, 0, 0, 0, 26,
    0xff, 0xff, 0xc0, 0x80, 0, 0, 0xff, 0xff, 0x80, 0, 0, 0, 0xff, 0xff, 0x40, 0xc0, 0, 0,
    0xff, 0xff, 0x7f, 0x80, 0, 0]⟩
  featureCount := 2
  objective := .logistic

theorem packed_scores_same_mixed :
    ofEnsemble mixedEnsemble = .ok mixed ∧
      Option.Rel Binary32.Same (mixedEnsemble.rawScore (.ofRow #[.nan, .zero]))
        (mixed.rawScore (.ofRow #[.nan, .zero])) ∧
      Option.Rel Binary32.Same (mixedEnsemble.predict (.ofRow #[.nan, .zero]))
        (mixed.predict (.ofRow #[.nan, .zero])) ∧
      ∀ fault, mixed.leafSum (.ofRow #[.nan, .zero]) = .error fault →
        ∃ ordinal, FeatureSource.ofRow #[.nan, .zero] ordinal = none ∧
          fault = .missingFeature ordinal :=
  have h : ofEnsemble mixedEnsemble = .ok mixed := by decide +kernel
  ⟨h, packed_scores_same h _⟩

end PackedEnsemble

namespace TreeModel.ConvertedFrom

variable {e : Ensemble} {model : TreeModel}

theorem featureCount_eq (h : model.ConvertedFrom e) : model.featureCount = e.featureCount := by
  cases h with
  | naive => rfl
  | flat h => exact FlatEnsemble.featureCount_eq h
  | packed h => exact PackedEnsemble.featureCount_eq h

/-- Whatever the encoding, a model scores as the ensemble does that it was converted from. -/
theorem rawScore_same (h : model.ConvertedFrom e) (source : FeatureSource) :
    Option.Rel Binary32.Same (e.rawScore source) (model.rawScore source) := by
  cases h with
  | naive =>
    rw [rawScore]
    cases e.rawScore source with
    | none => exact .none
    | some score => exact .some (.refl score)
  | flat h => exact (FlatEnsemble.walked_leafSum h source).rel_toOption
  | packed h => exact (PackedEnsemble.walked_leafSum h source).rel_toOption

theorem predict_same (h : model.ConvertedFrom e) (source : FeatureSource) :
    Option.Rel Binary32.Same (e.predict source) (model.predict source) := by
  have hraw := e.objective.rel_transform (h.rawScore_same source)
  cases h with
  | naive => exact hraw
  | flat h =>
    rw [predict, FlatEnsemble.predict, FlatEnsemble.objective_eq h]
    exact hraw
  | packed h =>
    rw [predict, PackedEnsemble.predict, PackedEnsemble.objective_eq h]
    exact hraw

theorem predict_of_ensemble (h : model.ConvertedFrom e) {source : FeatureSource}
    {score : Binary32} (hscore : e.predict source = some score) :
    ∃ found, model.predict source = some found ∧ score.Same found := by
  have hsame := h.predict_same source
  rw [hscore] at hsame
  cases hfound : model.predict source with
  | none =>
    rw [hfound] at hsame
    cases hsame
  | some found =>
    rw [hfound] at hsame
    cases hsame with
    | some hsame => exact ⟨found, rfl, hsame⟩

end TreeModel.ConvertedFrom

end Relevance
