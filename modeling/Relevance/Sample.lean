import Relevance.Ensemble.Basic

namespace Relevance.Sample

abbrev Draw := StateM UInt64

def below (bound : Nat) : Draw Nat := do
  let seed ← get
  let next := seed * 6364136223846793005 + 1442695040888963407
  set next
  return (next >>> 33).toNat % bound

def gridValue : Draw Binary32 := do
  let step ← below 17
  return (.ofNat step - .ofNat 8) * ⟨0x3e800000⟩

def fraction : Draw Binary32 := do
  let step ← below 1024
  return .ofNat step * ⟨0x3a800000⟩

def leaf : Draw Tree := do
  return .leaf ((← fraction) * .ofNat 4 - .ofNat 2)

/-- A tree of limited depth; five nodes in eight are leaves early, so that trees stay small. -/
def tree (featureCount : Nat) : Nat → Draw Tree
  | 0 => leaf
  | depth + 1 => do
    if featureCount = 0 then leaf
    else if (← below 8) < 5 then leaf
    else
      let feature ← below featureCount
      let threshold ← gridValue
      let left ← tree featureCount depth
      let right ← tree featureCount depth
      return .split feature threshold left right

def weight : Draw Binary32 := do
  return ⟨0x3dcccccd⟩ + (← fraction) * ⟨0x3ff33333⟩

def ensemble (seed : UInt64) (treeCount maxDepth featureCount : Nat) (objective : Objective) :
    Except ModelError Ensemble :=
  let draw : Draw (List Tree × List Binary32) := do
    let trees ← (List.replicate treeCount ()).mapM fun _ => tree featureCount maxDepth
    let weights ← (List.replicate treeCount ()).mapM fun _ => weight
    return (trees, weights)
  let (trees, weights) := (draw.run seed).1
  Ensemble.ofTrees trees weights featureCount objective

def score : Draw Binary32 := do
  if (← below 20) = 0 then return .nan else gridValue

def rows (seed : UInt64) (rowCount featureCount : Nat) : List (Array Binary32) :=
  let draw : Draw (List (Array Binary32)) :=
    (List.replicate rowCount ()).mapM fun _ => do
      return (← (List.replicate featureCount ()).mapM fun _ => score).toArray
  (draw.run seed).1

end Relevance.Sample
