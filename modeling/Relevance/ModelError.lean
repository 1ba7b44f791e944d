import Relevance.Decimal.Text

namespace Relevance

inductive Capacity
  | featureOrdinal
  | nodeCount
  | byteCount
  deriving DecidableEq

inductive ErrorKind
  | malformedModel
  | configuration
  | capacityExceeded
  deriving DecidableEq

inductive ModelError
  | weightCount (trees weights : Nat)
  | splitOutOfRange (tree feature featureCount : Nat)
  | tooManyFeatures (featureCount limit : Nat)
  | normalizedOutOfRange (feature featureCount : Nat)
  | unknownObjective (name : String)
  | unknownNormalizer (name : String)
  | boundsNotFinite (min max : Binary32)
  | boundsOutOfOrder (min max : Binary32)
  | invalidDeviation (mean deviation : Binary32)
  | floorNotFinite (floor : Binary32)
  | noFeaturesAllowed
  | capacity (part : Capacity)
  deriving DecidableEq

namespace ModelError

def kind : ModelError → ErrorKind
  | weightCount .. | splitOutOfRange .. | tooManyFeatures .. | normalizedOutOfRange ..
  | unknownObjective _ | unknownNormalizer _ => .malformedModel
  | boundsNotFinite .. | boundsOutOfOrder .. | invalidDeviation .. | floorNotFinite _
  | noFeaturesAllowed => .configuration
  | capacity _ => .capacityExceeded

def detail : ModelError → String
  | weightCount trees weights => s!"got {trees} trees but {weights} weights"
  | splitOutOfRange tree feature featureCount =>
    s!"tree {tree} splits on feature {feature} but the model declares {featureCount} features"
  | tooManyFeatures featureCount limit =>
    s!"model declares {featureCount} features, more than the maximum of {limit}"
  | normalizedOutOfRange feature featureCount =>
    s!"normalized feature ordinal {feature} is outside the model's {featureCount} features"
  | unknownObjective name => s!"{name} is not a valid model objective"
  | unknownNormalizer name => s!"{name} is not a valid normalizer"
  | boundsNotFinite min max => s!"min-max bounds must be finite, got min={min} max={max}"
  | boundsOutOfOrder min max => s!"minimum {min} must be smaller than maximum {max}"
  | invalidDeviation mean deviation =>
    s!"standard deviation must be positive and finite, got mean={mean} std_dev={deviation}"
  | floorNotFinite floor => s!"leaf floor must be finite, got {floor}"
  | noFeaturesAllowed => "max_features must be at least 1"
  | capacity .featureOrdinal => "feature ordinal does not fit in i16"
  | capacity .nodeCount => "flat tree node count does not fit in i32"
  | capacity .byteCount => "packed tree buffer size does not fit in i32"

def message (e : ModelError) : String :=
  match e.kind with
  | .malformedModel => "malformed model: " ++ e.detail
  | .configuration => "invalid configuration: " ++ e.detail
  | .capacityExceeded => "capacity exceeded: " ++ e.detail

end ModelError

end Relevance
