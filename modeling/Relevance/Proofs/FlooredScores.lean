import Relevance.Proofs.EncodedScores
import Relevance.Proofs.LeafFloors

namespace Relevance

open Binary32

theorem foldlM_keeps {α β γ : Type} {step : β → α → Option β} (other : γ → α → γ)
    (R : γ → β → Prop) {xs : List α}
    (h : ∀ x ∈ xs, ∀ c b next, R c b → step b x = some next → R (other c x) next) {c : γ}
    {b last : β} (hR : R c b) (hlast : xs.foldlM step b = some last) :
    R (xs.foldl other c) last := by
  induction xs generalizing b c with
  | nil =>
    cases hlast
    exact hR
  | cons x xs ih =>
    obtain ⟨hx, hxs⟩ := List.forall_mem_cons.1 h
    rw [List.foldlM_cons] at hlast
    obtain ⟨next, hnext, hlast⟩ := Option.bind_eq_some_iff.1 hlast
    exact ih hxs (hx c b next hR hnext) hlast

theorem isSome_foldlM {α β : Type} {step : β → α → Option β} {defined : α → Bool}
    (h : ∀ b x, (step b x).isSome = defined x) (xs : List α) (b : β) :
    (xs.foldlM step b).isSome = xs.all defined := by
  induction xs generalizing b with
  | nil => rfl
  | cons x xs ih =>
    rw [List.foldlM_cons, List.all_cons, ← h b x]
    cases step b x with
    | none => rfl
    | some next => exact ih next

theorem Tree.mem_outputs_of_eval {t : Tree} {source : FeatureSource} {output : Binary32}
    (h : t.eval source = some output) : output ∈ t.outputs := by
  induction t with
  | leaf output =>
    cases h
    exact List.mem_singleton_self output
  | split feature threshold left right ihl ihr =>
    rw [eval] at h
    split at h
    · cases h
    · split at h
      · exact List.mem_append_left _ (ihl h)
      · exact List.mem_append_right _ (ihr h)

theorem Tree.isSome_eval_raise (floor : Binary32) (t : Tree) (source : FeatureSource) :
    ((t.raise floor).eval source).isSome = (t.eval source).isSome := by
  by_cases hlt : t.minLeaf < floor
  · rw [raise_of_lt hlt, eval_mapOutputs, Option.isSome_map]
  · rw [raise_of_not_lt hlt]

namespace Ensemble

theorem isSome_rawScore (e : Ensemble) (source : FeatureSource) :
    (e.rawScore source).isSome = e.trees.all fun t => (t.eval source).isSome := by
  rw [trees, List.all_map, rawScore]
  apply isSome_foldlM
  intro sum term
  exact Option.isSome_map

theorem isSome_rawScore_raise (floor : Binary32) (e : Ensemble) (source : FeatureSource) :
    ((e.raise floor).rawScore source).isSome = (e.rawScore source).isSome := by
  rw [isSome_rawScore, isSome_rawScore, trees_raise, List.all_map]
  simp only [Function.comp_def, Tree.isSome_eval_raise]

variable {e : Ensemble} {source : FeatureSource} {floor score : Binary32}

theorem FlooredAt.eval_atLeast (h : e.FlooredAt floor) (hfloor : floor.isNaN = false)
    {term : WeightedTree} (hterm : term ∈ e.terms) {output : Binary32}
    (heval : term.tree.eval source = some output) : floor.AtLeast output := by
  have hleaf : floor ≤ term.tree.minLeaf :=
    le_of_not_lt hfloor term.tree.isNaN_minLeaf (h term.tree (List.mem_map_of_mem hterm))
  exact (Tree.le_minLeaf_iff hfloor term.tree).1 hleaf output (Tree.mem_outputs_of_eval heval)

theorem FlooredAt.rawScore_nonneg (h : e.FlooredAt floor) (hfloor : zero ≤ floor)
    (hweights : ∀ weight ∈ e.weights, ¬weight < zero) (hscore : e.rawScore source = some score) :
    zero.AtLeast score := by
  have hn : floor.isNaN = false := (zero_le_iff.1 hfloor).1
  refine foldlM_keeps (c := ()) (fun _ _ => ()) (fun _ sum => zero.AtLeast sum) ?_
    (.inr (le_refl rfl)) hscore
  intro term hterm _ sum next hsum hnext
  obtain ⟨output, heval, rfl⟩ := Option.map_eq_some_iff.1 hnext
  have hweight : zero.AtLeast term.weight :=
    (atLeast_iff rfl).2 (hweights term.weight (List.mem_map_of_mem hterm))
  have houtput : zero.AtLeast output := (h.eval_atLeast hn hterm heval).trans hfloor
  exact hsum.add_nonneg (hweight.mul_nonneg houtput)

theorem FlooredAt.rawScore_ge (h : e.FlooredAt floor) (hfloor : zero ≤ floor)
    (hfinite : floor.isFinite = true) (hweights : ∀ weight ∈ e.weights, ¬weight < zero)
    (hfinites : ∀ weight ∈ e.weights, weight.isFinite = true)
    (hscore : e.rawScore source = some score) :
    (e.weights.foldl (fun sum weight => sum + weight * floor) zero).AtLeast score := by
  have hn : floor.isNaN = false := isNaN_of_isFinite hfinite
  rw [weights, List.foldl_map]
  -- The partial sums of the bound are not negative, so that no infinities cancel in them.
  refine (foldlM_keeps _ (fun low sum => zero ≤ low ∧ low.AtLeast sum) ?_
    ⟨le_refl rfl, .inr (le_refl rfl)⟩ hscore).2
  rintro term hterm low sum next ⟨hlow, hsum⟩ hnext
  obtain ⟨output, heval, rfl⟩ := Option.map_eq_some_iff.1 hnext
  have hmem : term.weight ∈ e.weights := List.mem_map_of_mem hterm
  have hweight : zero ≤ term.weight :=
    le_of_not_lt rfl (isNaN_of_isFinite (hfinites _ hmem)) (hweights _ hmem)
  have hproduct : (term.weight * floor).isNaN = false :=
    isNaN_mul_of_isFinite (hfinites _ hmem) hfinite
  have hadded : zero ≤ term.weight * floor := Binary32.mul_nonneg hweight hfloor hproduct
  refine ⟨Binary32.add_nonneg hlow hadded, hsum.add ?_ (isNaN_add_of_nonneg hlow hadded)⟩
  exact (h.eval_atLeast hn hterm heval).mul_left hweight hfloor hproduct

end Ensemble

namespace TreeModel.ConvertedFrom

variable {e : Ensemble} {model : TreeModel}

theorem isSome_rawScore (h : model.ConvertedFrom e) (source : FeatureSource) :
    (model.rawScore source).isSome = (e.rawScore source).isSome := by
  have hsame := h.rawScore_same source
  generalize e.rawScore source = exact at hsame ⊢
  generalize model.rawScore source = score at hsame ⊢
  cases hsame with
  | none => rfl
  | some hsame => rfl

theorem atLeast (h : model.ConvertedFrom e) {source : FeatureSource} {bound score : Binary32}
    (hbound : ∀ score, e.rawScore source = some score → bound.AtLeast score)
    (hscore : model.rawScore source = some score) : bound.AtLeast score := by
  have hsame := h.rawScore_same source
  rw [hscore] at hsame
  cases hexact : e.rawScore source with
  | none =>
    rw [hexact] at hsame
    cases hsame
  | some exact =>
    rw [hexact] at hsame
    cases hsame with
    | some hsame => exact (hbound exact hexact).same hsame

end TreeModel.ConvertedFrom

/-- A floored model has no score below the weighted floor, nor a negative one. -/
theorem floored_scores_above {e : Ensemble} {floor : Binary32}
    (hweights : ∀ weight ∈ e.weights, ¬weight < .zero) (hfloor : .zero ≤ floor)
    {encoding : Encoding} {model : TreeModel}
    (hmodel : (Build.outcome (Build.encode encoding (e.raise floor))).1 = .ok model)
    (source : FeatureSource) :
    (model.rawScore source).isSome = (e.rawScore source).isSome ∧
      ∀ score, model.rawScore source = some score →
        ¬score < .zero ∧
          ((∀ weight ∈ e.weights, weight.isFinite = true) → floor.isFinite = true →
            score.isNaN = false →
            e.weights.foldl (fun sum weight => sum + weight * floor) .zero ≤ score) := by
  have hfrom := Build.convertedFrom_of_encode (Prod.ext hmodel rfl)
  have hfloored := e.flooredAt_raise floor
  rw [← e.weights_raise floor] at hweights ⊢
  refine ⟨?_, ?_⟩
  · rw [hfrom.isSome_rawScore, Ensemble.isSome_rawScore_raise]
  · intro score hscore
    constructor
    · rw [← atLeast_iff rfl]
      exact hfrom.atLeast (fun _ => hfloored.rawScore_nonneg hfloor hweights) hscore
    · intro hfinites hfinite hn
      apply AtLeast.of_not_nan _ hn
      exact hfrom.atLeast (fun _ => hfloored.rawScore_ge hfloor hfinite hweights hfinites) hscore

def oddLeavesFloored : FlatEnsemble where
  roots := #[0, 7]
  slots :=
    #[⟨0, .zero, 4⟩, ⟨1, .zero, 3⟩, ⟨-1, ⟨0x3f800000⟩, 0⟩, ⟨-1, .infinity, 0⟩, ⟨1, .zero, 6⟩,
      ⟨-1, .infinity, 0⟩, ⟨-1, ⟨0x3f800000⟩, 0⟩, ⟨0, .zero, 9⟩, ⟨-1, .nan, 0⟩,
      ⟨-1, ⟨0x3fc00000⟩, 0⟩]
  featureCount := 2
  objective := .identity

theorem floored_scores_above_oddLeaves :
    oddLeavesFloored.rawScore (.ofRow #[.nan, .nan]) = some ⟨0x40200000⟩ ∧
      ¬(⟨0x40200000⟩ : Binary32) < .zero ∧
      Ensemble.oddLeaves.weights.foldl (fun sum weight => sum + weight * ⟨0x3f800000⟩) .zero ≤
        ⟨0x40200000⟩ := by
  have hflat : FlatEnsemble.ofEnsemble (Ensemble.oddLeaves.raise ⟨0x3f800000⟩) =
      .ok oddLeavesFloored := by decide +kernel
  have hmodel : (Build.outcome
      (Build.encode .flat (Ensemble.oddLeaves.raise ⟨0x3f800000⟩))).1 =
      .ok (.flat oddLeavesFloored) := by
    change (Build.runFrom (Build.encode .flat _) []).1 = _
    rw [Build.encode, Build.runFrom_bind, Build.flatten, Build.runFrom_bind, Build.runFrom_lift,
      hflat]
    rfl
  have hscore : oddLeavesFloored.rawScore (.ofRow #[.nan, .nan]) = some ⟨0x40200000⟩ := by
    decide +kernel
  obtain ⟨_, habove⟩ := floored_scores_above (by decide) (by decide) hmodel (.ofRow #[.nan, .nan])
  obtain ⟨hnonneg, hbound⟩ := habove _ hscore
  exact ⟨hscore, hnonneg, hbound (by decide) (by decide) (by decide)⟩

end Relevance
