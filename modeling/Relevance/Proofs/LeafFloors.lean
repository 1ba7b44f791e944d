import Relevance.Proofs.BuildRuns
import Relevance.Proofs.NumberOrder

namespace Relevance

open Binary32

theorem isNaN_foldl_min (outputs : List Binary32) {least : Binary32} (h : least.isNaN = false) :
    (outputs.foldl min least).isNaN = false := by
  induction outputs generalizing least with
  | nil => exact h
  | cons output outputs ih => exact ih (isNaN_min h output)

theorem le_foldl_min_iff (outputs : List Binary32) {bound least : Binary32}
    (h : least.isNaN = false) :
    bound ≤ outputs.foldl min least ↔
      bound ≤ least ∧ ∀ output ∈ outputs, bound.AtLeast output := by
  induction outputs generalizing least with
  | nil => simp
  | cons output outputs ih =>
    rw [List.foldl_cons, ih (isNaN_min h output), le_min_iff h, List.forall_mem_cons, and_assoc]

namespace Tree

def lower (least : Binary32) : Tree → Binary32
  | leaf output => min least output
  | split .. => least

theorem foldl_lower (t : Tree) (least : Binary32) :
    t.subtrees.foldl lower least = t.outputs.foldl min least := by
  induction t generalizing least with
  | leaf output => rfl
  | split feature threshold left right ihl ihr =>
    rw [subtrees, outputs, List.foldl_cons, List.foldl_append, List.foldl_append, ihl, ihr, lower]

theorem minLeaf_eq (t : Tree) : t.minLeaf = t.outputs.foldl min .infinity := by
  change walk lower .infinity [t] = _
  rw [walk_singleton, foldl_lower]

theorem isNaN_minLeaf (t : Tree) : t.minLeaf.isNaN = false := by
  rw [minLeaf_eq]
  exact isNaN_foldl_min t.outputs rfl

theorem le_minLeaf_iff {bound : Binary32} (h : bound.isNaN = false) (t : Tree) :
    bound ≤ t.minLeaf ↔ ∀ output ∈ t.outputs, bound.AtLeast output := by
  rw [minLeaf_eq, le_foldl_min_iff t.outputs rfl]
  exact and_iff_right (le_infinity h)

theorem minLeaf_le {t : Tree} {output : Binary32} (h : output ∈ t.outputs)
    (hn : output.isNaN = false) : t.minLeaf ≤ output := by
  have hleast := (t.le_minLeaf_iff t.isNaN_minLeaf).1 (le_refl t.isNaN_minLeaf)
  exact (hleast output h).of_not_nan hn

theorem mapAccumOutputs_unit (f : Binary32 → Binary32) (t : Tree) :
    (t.mapAccumOutputs (fun _ output => ((), f output)) ()).2 = t.mapOutputs f := by
  induction t with
  | leaf output => rfl
  | split feature threshold left right ihl ihr => rw [mapAccumOutputs, mapOutputs, ← ihl, ← ihr]

theorem outputs_mapOutputs (f : Binary32 → Binary32) (t : Tree) :
    (t.mapOutputs f).outputs = t.outputs.map f := by
  induction t with
  | leaf output => rfl
  | split feature threshold left right ihl ihr =>
    rw [mapOutputs, outputs, outputs, ihl, ihr, List.map_append]

theorem raise_of_lt {floor : Binary32} {t : Tree} (h : t.minLeaf < floor) :
    t.raise floor = t.mapOutputs fun output => max (output + (floor - t.minLeaf)) floor := by
  simp only [raise, h, ↓reduceIte, replaceOutputs_eq]
  exact mapAccumOutputs_unit _ t

theorem raise_of_not_lt {floor : Binary32} {t : Tree} (h : ¬t.minLeaf < floor) :
    t.raise floor = t :=
  if_neg h

/-- However the offset is rounded, no leaf is left below the floor. -/
theorem le_minLeaf_raise {floor : Binary32} (h : floor.isNaN = false) (t : Tree) :
    floor ≤ (t.raise floor).minLeaf := by
  by_cases hlt : t.minLeaf < floor
  · rw [raise_of_lt hlt, le_minLeaf_iff h, outputs_mapOutputs]
    intro output houtput
    obtain ⟨before, _, rfl⟩ := List.mem_map.1 houtput
    exact .inr (le_max_right _ h)
  · rw [raise_of_not_lt hlt]
    exact le_of_not_lt h t.isNaN_minLeaf hlt

theorem minLeaf_le_raise (floor : Binary32) (t : Tree) : t.minLeaf ≤ (t.raise floor).minLeaf := by
  by_cases hlt : t.minLeaf < floor
  · have hfloor : floor.isNaN = false := (lt_iff.1 hlt).2.1
    exact le_trans (le_of_lt hlt) (le_minLeaf_raise hfloor t)
  · rw [raise_of_not_lt hlt]
    exact le_refl t.isNaN_minLeaf

end Tree

namespace Ensemble

/-- In no tree is the smallest leaf below the bound. -/
def FlooredAt (bound : Binary32) (e : Ensemble) : Prop := ∀ t ∈ e.trees, ¬t.minLeaf < bound

theorem trees_raise (floor : Binary32) (e : Ensemble) :
    (e.raise floor).trees = e.trees.map (Tree.raise floor) := by
  rw [trees, trees, raise, List.map_map, List.map_map]
  rfl

theorem weights_raise (floor : Binary32) (e : Ensemble) : (e.raise floor).weights = e.weights := by
  rw [weights, weights, raise, List.map_map]
  rfl

theorem mem_trees_raise {floor : Binary32} {e : Ensemble} {t : Tree} :
    t ∈ (e.raise floor).trees ↔ ∃ before ∈ e.trees, before.raise floor = t := by
  rw [trees_raise, List.mem_map]

theorem flooredAt_raise (floor : Binary32) (e : Ensemble) : (e.raise floor).FlooredAt floor := by
  intro t ht
  obtain ⟨before, _, rfl⟩ := mem_trees_raise.1 ht
  intro hlt
  have hfloor : floor.isNaN = false := (lt_iff.1 hlt).2.1
  exact not_lt_of_le (before.le_minLeaf_raise hfloor) hlt

/-- A floor stays under any further floor, above it or below. -/
theorem FlooredAt.raise {bound : Binary32} {e : Ensemble} (h : e.FlooredAt bound)
    (floor : Binary32) : (e.raise floor).FlooredAt bound := by
  intro t ht hlt
  obtain ⟨before, hbefore, rfl⟩ := mem_trees_raise.1 ht
  obtain ⟨_, hbound, _⟩ := lt_iff.1 hlt
  have hle : bound ≤ before.minLeaf :=
    le_of_not_lt hbound before.isNaN_minLeaf (h before hbefore)
  exact not_lt_of_le (le_trans hle (before.minLeaf_le_raise floor)) hlt

theorem FlooredAt.lower {bound low : Binary32} {e : Ensemble} (h : e.FlooredAt bound)
    (hle : low ≤ bound) : e.FlooredAt low := by
  intro t ht hlt
  obtain ⟨_, hbound, _⟩ := le_iff.1 hle
  have hbound : bound ≤ t.minLeaf := le_of_not_lt hbound t.isNaN_minLeaf (h t ht)
  exact not_lt_of_le (le_trans hle hbound) hlt

theorem FlooredAt.countBelow {bound : Binary32} {e : Ensemble} (h : e.FlooredAt bound) :
    e.countBelow bound = 0 := by
  rw [Ensemble.countBelow, List.countP_eq_zero]
  intro term hterm
  simpa using h term.tree (List.mem_map_of_mem hterm)

theorem FlooredAt.raise_eq {bound : Binary32} {e : Ensemble} (h : e.FlooredAt bound) :
    e.raise bound = e := by
  obtain ⟨terms, featureCount, objective, _⟩ := e
  have hterms : (terms.map fun term => { term with tree := term.tree.raise bound }) = terms := by
    rw [List.map_congr_left (g := id), List.map_id]
    intro term hterm
    rw [Tree.raise_of_not_lt (h term.tree (List.mem_map_of_mem hterm))]
    rfl
  simp only [Ensemble.raise, hterms]

def raiseAll (floors : List Binary32) (e : Ensemble) : Ensemble :=
  floors.foldl (fun e floor => e.raise floor) e

theorem FlooredAt.raiseAll {bound : Binary32} {e : Ensemble} (h : e.FlooredAt bound)
    (floors : List Binary32) : (e.raiseAll floors).FlooredAt bound := by
  induction floors generalizing e with
  | nil => exact h
  | cons floor floors ih => exact ih (h.raise floor)

theorem flooredAt_raiseAll {floors : List Binary32} {floor : Binary32} (h : floor ∈ floors)
    (e : Ensemble) : (e.raiseAll floors).FlooredAt floor := by
  induction floors generalizing e with
  | nil => exact absurd h List.not_mem_nil
  | cons first floors ih =>
    rcases List.mem_cons.1 h with rfl | h
    · exact (e.flooredAt_raise floor).raiseAll floors
    · exact ih h (e.raise first)

theorem FlooredAt.runFrom_raise {bound : Binary32} {e : Ensemble} (h : e.FlooredAt bound)
    (events : List Event) : Build.runFrom (Build.raise bound e) events = (.ok e, events) := by
  rw [Build.raise, h.countBelow, h.raise_eq]
  rfl

theorem runFrom_raiseAll (floors : List Binary32) (e : Ensemble) (events : List Event) :
    (Build.runFrom (floors.foldlM (fun e floor => Build.raise floor e) e) events).1 =
      .ok (e.raiseAll floors) := by
  induction floors generalizing e events with
  | nil => rfl
  | cons floor floors ih =>
    have hraise : ∃ after,
        Build.runFrom (Build.raise floor e) events = (.ok (e.raise floor), after) := by
      rw [Build.raise]
      split
      · exact ⟨_, rfl⟩
      · exact ⟨_, rfl⟩
    obtain ⟨after, hafter⟩ := hraise
    rw [List.foldlM_cons, Build.runFrom_bind, hafter]
    exact ih (e.raise floor) after

/-- Floors that are applied one after the other all hold in the end. -/
theorem floors_accumulate (e : Ensemble) (floors : List Binary32) :
    (Build.outcome (floors.foldlM (fun e floor => Build.raise floor e) e)).1 =
        .ok (e.raiseAll floors) ∧
      (∀ floor ∈ floors, (e.raiseAll floors).FlooredAt floor) ∧
      (∀ floor ∈ floors, ∀ further ≤ floor,
        (e.raiseAll floors).raise further = e.raiseAll floors ∧
          Build.outcome (Build.raise further (e.raiseAll floors)) =
            (.ok (e.raiseAll floors), [])) ∧
      ∀ floor, (e.raise floor).raise floor = e.raise floor := by
  refine ⟨runFrom_raiseAll floors e [], ?_, ?_, ?_⟩
  · intro floor hfloor
    exact flooredAt_raiseAll hfloor e
  · intro floor hfloor further hle
    have hfurther := (flooredAt_raiseAll hfloor e).lower hle
    exact ⟨hfurther.raise_eq, hfurther.runFrom_raise []⟩
  · intro floor
    exact (e.flooredAt_raise floor).raise_eq

/-- Among the leaves are NaNs, a negative zero and both infinities. -/
def oddLeaves : Ensemble where
  terms :=
    [⟨.split 0 .zero (.split 1 .zero (.leaf .nan) (.leaf .infinity))
        (.split 1 .zero (.leaf ⟨0x80000000⟩) (.leaf ⟨0xff800000⟩)), ⟨0x3f800000⟩⟩,
      ⟨.split 0 .zero (.leaf .nan) (.leaf ⟨0x40400000⟩), ⟨0x3f000000⟩⟩]
  featureCount := 2
  objective := .identity
  features_lt := by decide

theorem floors_accumulate_oddLeaves :
    let floors : List Binary32 := [⟨0x3f800000⟩, .nan, ⟨0x40000000⟩, ⟨0xbf800000⟩]
    (oddLeaves.raiseAll floors).FlooredAt ⟨0x40000000⟩ ∧
      Build.outcome (Build.raise ⟨0x3fc00000⟩ (oddLeaves.raiseAll floors)) =
        (.ok (oddLeaves.raiseAll floors), []) := by
  obtain ⟨_, hfloored, hfurther, _⟩ := floors_accumulate oddLeaves
    [⟨0x3f800000⟩, .nan, ⟨0x40000000⟩, ⟨0xbf800000⟩]
  exact ⟨hfloored _ (by decide), (hfurther ⟨0x40000000⟩ (by decide) ⟨0x3fc00000⟩ (by decide)).2⟩

end Ensemble

end Relevance
