import Relevance.Proofs.FlooredScores
import Relevance.Proofs.NumberDifference

namespace Relevance

open Binary32

namespace Tree

/-- Trees of one shape with the same ordinals and thresholds, whatever their leaf outputs. -/
inductive SameSplits : Tree → Tree → Prop
  | leaf (output output' : Binary32) : SameSplits (.leaf output) (.leaf output')
  | split (feature : Nat) (threshold : Binary32) {left left' right right' : Tree}
      (hleft : SameSplits left left') (hright : SameSplits right right') :
      SameSplits (.split feature threshold left right) (.split feature threshold left' right')

theorem sameSplits_mapAccumOutputs {σ : Type} (f : σ → Binary32 → σ × Binary32) (state : σ)
    (t : Tree) : t.SameSplits (t.mapAccumOutputs f state).2 := by
  induction t generalizing state with
  | leaf output => exact .leaf output _
  | split feature threshold left right ihl ihr =>
    exact .split feature threshold (ihl state) (ihr _)

theorem sameSplits_mapOutputs (f : Binary32 → Binary32) (t : Tree) :
    t.SameSplits (t.mapOutputs f) := by
  rw [← mapAccumOutputs_unit]
  exact t.sameSplits_mapAccumOutputs _ ()

theorem SameSplits.refl (t : Tree) : t.SameSplits t := by
  induction t with
  | leaf output => exact .leaf output output
  | split feature threshold left right ihl ihr => exact .split feature threshold ihl ihr

theorem sameSplits_raise (floor : Binary32) (t : Tree) : t.SameSplits (t.raise floor) := by
  by_cases hlt : t.minLeaf < floor
  · rw [raise_of_lt hlt]
    exact t.sameSplits_mapOutputs _
  · rw [raise_of_not_lt hlt]
    exact .refl t

def raisedOutput (floor : Binary32) (t : Tree) (output : Binary32) : Binary32 :=
  max (output + (floor - t.minLeaf)) floor

variable {t : Tree} {floor : Binary32}

theorem eval_raise (h : t.minLeaf < floor) (source : FeatureSource) :
    (t.raise floor).eval source = (t.eval source).map (t.raisedOutput floor) := by
  rw [raise_of_lt h]
  exact eval_mapOutputs _ source t

theorem outputs_raise (h : t.minLeaf < floor) :
    (t.raise floor).outputs = t.outputs.map (t.raisedOutput floor) := by
  rw [raise_of_lt h]
  exact outputs_mapOutputs _ t

theorem le_raisedOutput (h : t.minLeaf < floor) {x : Binary32} (hx : x.isNaN = false) :
    x ≤ t.raisedOutput floor x := by
  have hoffset : zero ≤ floor - t.minLeaf := sub_nonneg h
  cases hsum : (x + (floor - t.minLeaf)).isNaN with
  | false => exact le_trans (le_add_of_nonneg hx hoffset hsum) (le_max_left hsum floor)
  | true =>
    -- An infinite offset is added to negative infinity, and the floor takes the place of the sum.
    have hfloor : floor.isNaN = false := (lt_iff.1 h).2.1
    have hbottom : x ≤ floor := le_of_key_eq_neg (key_of_isNaN_add hx hoffset hsum) hfloor
    exact le_trans hbottom (le_max_right _ hfloor)

theorem raisedOutput_mono (h : t.minLeaf < floor) {x y : Binary32} (hxy : x ≤ y) :
    t.raisedOutput floor x ≤ t.raisedOutput floor y := by
  have hoffset : zero ≤ floor - t.minLeaf := sub_nonneg h
  apply Binary32.max_le
  · intro hsum
    have hsum' := isNaN_add_of_le hxy hoffset hsum
    have hsums := add_le_add hxy (le_refl (zero_le_iff.1 hoffset).1) hsum hsum'
    exact le_trans hsums (le_max_left hsum' floor)
  · exact le_max_right _ (lt_iff.1 h).2.1

end Tree

namespace Ensemble

/-- A floor moves the leaves of a tree together and keeps their order. -/
theorem raise_keeps_order (floor : Binary32) (e : Ensemble) :
    (e.raise floor).treeCount = e.treeCount ∧ (e.raise floor).weights = e.weights ∧
      (e.raise floor).featureCount = e.featureCount ∧
      (e.raise floor).objective = e.objective ∧
      ∀ (i : Nat) (t : Tree), e.trees[i]? = some t →
        ∃ raised : Tree, (e.raise floor).trees[i]? = some raised ∧ t.SameSplits raised ∧
          (t.minLeaf < floor →
            (∀ source, raised.eval source =
              (t.eval source).map fun output => max (output + (floor - t.minLeaf)) floor) ∧
            raised.outputs = t.outputs.map (t.raisedOutput floor) ∧
            (∀ x : Binary32, x.isNaN = false → x ≤ t.raisedOutput floor x) ∧
            ∀ x y : Binary32, x ≤ y → t.raisedOutput floor x ≤ t.raisedOutput floor y) ∧
          (¬t.minLeaf < floor → raised = t) := by
  have hcount : (e.raise floor).treeCount = e.treeCount := List.length_map _
  apply And.intro hcount
  apply And.intro (e.weights_raise floor)
  apply And.intro rfl
  apply And.intro rfl
  intro i t ht
  have hraised : (e.raise floor).trees[i]? = some (t.raise floor) := by
    rw [trees_raise, List.getElem?_map, ht, Option.map_some]
  apply Exists.intro (t.raise floor)
  apply And.intro hraised
  apply And.intro (t.sameSplits_raise floor)
  constructor
  · intro hlt
    exact ⟨Tree.eval_raise hlt, Tree.outputs_raise hlt, fun x hx => Tree.le_raisedOutput hlt hx,
      fun x y hxy => Tree.raisedOutput_mono hlt hxy⟩
  · exact Tree.raise_of_not_lt

theorem raise_keeps_order_oddLeaves :
    ∃ t raised kept : Tree, oddLeaves.trees[0]? = some t ∧
      (oddLeaves.raise ⟨0x3f800000⟩).trees[0]? = some raised ∧ t.minLeaf < ⟨0x3f800000⟩ ∧
      t.eval (.ofRow #[.zero, ⟨0xbf800000⟩]) = some ⟨0x80000000⟩ ∧
      raised.eval (.ofRow #[.zero, ⟨0xbf800000⟩]) = some .infinity ∧
      t.raisedOutput ⟨0x3f800000⟩ ⟨0xff800000⟩ ≤ t.raisedOutput ⟨0x3f800000⟩ ⟨0x80000000⟩ ∧
      (oddLeaves.raise ⟨0x3f800000⟩).trees[1]? = some kept ∧
      kept.eval (.ofRow #[.zero, ⟨0xbf800000⟩]) = some ⟨0x40400000⟩ := by
  obtain ⟨_, _, _, _, hraise⟩ := raise_keeps_order ⟨0x3f800000⟩ oddLeaves
  obtain ⟨raised, hraised, _, hbelow, _⟩ := hraise 0 _ rfl
  obtain ⟨kept, hkept, _, _, habove⟩ := hraise 1 _ rfl
  have hlt : (Tree.split 0 .zero (.split 1 .zero (.leaf .nan) (.leaf .infinity))
      (.split 1 .zero (.leaf ⟨0x80000000⟩) (.leaf ⟨0xff800000⟩))).minLeaf < ⟨0x3f800000⟩ := by
    decide +kernel
  have hnot : ¬(Tree.split 0 .zero (.leaf .nan) (.leaf ⟨0x40400000⟩)).minLeaf <
      ⟨0x3f800000⟩ := by
    decide +kernel
  obtain ⟨heval, _, _, hmono⟩ := hbelow hlt
  refine ⟨_, raised, kept, rfl, hraised, hlt, by decide +kernel, ?_, hmono _ _ (by decide), hkept,
    ?_⟩
  · rw [heval]
    decide +kernel
  · rw [habove hnot]
    decide +kernel

end Ensemble

end Relevance
