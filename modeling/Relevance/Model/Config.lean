import Relevance.Model.Encoding

namespace Relevance

structure ModelConfig where
  objective : Objective := .identity
  encoding : Encoding := .packed
  leafFloor : Option Binary32 := some ⟨0x3dcccccd⟩
  maxFeatures : Nat := 10000
  deriving DecidableEq, Inhabited

namespace ModelConfig

/-- A floor is finite, and at least one feature is allowed. -/
def validate (config : ModelConfig) : Except ModelError Unit :=
  match config.leafFloor with
  | some floor =>
    if !floor.isFinite then .error (.floorNotFinite floor)
    else if config.maxFeatures = 0 then .error .noFeaturesAllowed
    else .ok ()
  | none => if config.maxFeatures = 0 then .error .noFeaturesAllowed else .ok ()

def checked (config : ModelConfig) : Except ModelError ModelConfig := do
  config.validate
  return config

def numEq (a b : ModelConfig) : Bool :=
  a.objective == b.objective && a.encoding == b.encoding && a.maxFeatures == b.maxFeatures
    && match a.leafFloor, b.leafFloor with
      | some x, some y => x.numEq y
      | none, none => true
      | _, _ => false

end ModelConfig

namespace Build

def limitFeatures (featureCount limit : Nat) : Build Unit :=
  if limit < featureCount then throw (.tooManyFeatures featureCount limit) else return ()

def raiseTo (floor : Option Binary32) (e : Ensemble) : Build Ensemble :=
  match floor with
  | some floor => raise floor e
  | none => return e

end Build

def TreeModel.load (trees : List Tree) (weights : List Binary32) (featureCount : Nat)
    (config : ModelConfig) : Build TreeModel := do
  config.validate
  Build.limitFeatures featureCount config.maxFeatures
  let e ← Build.ensemble trees weights featureCount config.objective
  let e ← Build.raiseTo config.leafFloor e
  let model ← Build.encode config.encoding e
  Build.report (.loaded model.name featureCount model.memory)
  return model

end Relevance
